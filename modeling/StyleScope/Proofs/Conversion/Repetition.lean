import Mathlib.Control.Monad.Basic
import StyleScope.Proofs.Conversion.Markers
import StyleScope.Proofs.Style.Blocks

/-!
# Converting a converted style

A converted style is meant to be refused when it is converted again, since its metadata
block is no longer that of a user style.  Emission renames one marker of each kind, so this
depends on the others.  Where the markers are in order, no opening marker is left in front
of the renamed one, and a block can only stand behind it: in the rest of the style, in the
directives, or across both (`convert_again_refused_iff`).
-/

namespace StyleScope

open Text

namespace Metadata

/-- Neither marker reaches into the label that the renamed ones have in between. -/
theorem mentions_label_iff {word s t : Text} (h : word ∈ [openMarker, closeMarker]) :
    Mentions word (s ++ "UserCSS".toList ++ t) ↔ Mentions word s ∨ Mentions word t := by
  have hsplit : s ++ "UserCSS".toList ++ t = s ++ "User".toList ++ 'C' :: ("SS".toList ++ t) := by
    simp
  have hall : ∀ word ∈ [openMarker, closeMarker], foldCase 'C' ∉ word ∧
      word = '=' :: word.tail ∧ word = word.dropLast ++ ['='] := by decide
  obtain ⟨hletter, hfirst, hlast⟩ := hall word h
  rw [hsplit, mentions_append_cons_iff hletter]
  constructor
  · rintro (hs | ht)
    · rw [hlast] at hs ⊢
      exact Or.inl (hs.of_append_right (by decide))
    · rw [hfirst] at ht ⊢
      exact Or.inr (ht.of_append (by decide))
  · rintro (hs | ht)
    · exact Or.inl (hs.mono (List.prefix_append _ _).isInfix)
    · exact Or.inr (ht.mono (List.suffix_append _ _).isInfix)

/-- The first opening marker has no other one in front of its label. -/
theorem not_mentions_of_find? {s a rest : Text}
    (hopen : find? (afterFolded? openMarker) s = some (a, rest)) :
    ¬ Mentions openMarker (a ++ ['=', '=']) := by
  intro h
  obtain ⟨w, rfl, -⟩ := UserCss.exists_eq_of_find?_openMarker hopen
  obtain ⟨x, o, y, hsplit, ho⟩ := mentions_iff_exists_spelling.1 h
  obtain ⟨before, inside, hfirst, hle⟩ :=
    exists_find?_afterFolded? ho x (y ++ (w ++ (['=', '='] ++ rest)))
  rw [show x ++ o ++ (y ++ (w ++ (['=', '='] ++ rest))) =
    x ++ o ++ y ++ w ++ (['=', '='] ++ rest) by simp, ← hsplit, hopen] at hfirst
  obtain ⟨rfl, -⟩ := Prod.mk.inj (Option.some.inj hfirst)
  have hlen := congrArg List.length hsplit
  have hmark : o.length = 13 := by
    rw [← List.length_map (f := foldCase), ho]
    rfl
  simp only [List.length_append, List.length_cons, List.length_nil] at hlen
  omega

/-- Up to the label of the renamed opening marker, and in the renamed closing one up to its
last signs, there is nothing that makes a block. -/
theorem hasBlock_renamed_iff {a m added z : Text}
    (hfront : ¬ Mentions openMarker (a ++ ['=', '='])) :
    HasBlock (a ++ "==UserCSS==".toList ++ m ++ added ++ "\n==/UserCSS==".toList ++ z) ↔
      HasBlock ("==".toList ++ m ++ added ++ "\n==".toList ++ z) := by
  have hlabel : ∀ t, Mentions openMarker (a ++ "==".toList ++ "UserCSS".toList ++ t) →
      Mentions openMarker t :=
    fun t h => ((mentions_label_iff List.mem_cons_self).1 h).resolve_left hfront
  have hopen : ∀ t, Mentions openMarker ("==/".toList ++ "UserCSS".toList ++ t) →
      Mentions openMarker t :=
    fun t h => ((mentions_label_iff List.mem_cons_self).1 h).resolve_left (by decide)
  have hclose : Mentions closeMarker ("==/".toList ++ "UserCSS".toList ++ ("==".toList ++ z)) ↔
      Mentions closeMarker ("==".toList ++ z) := by
    rw [mentions_label_iff (by simp), or_iff_right (by decide)]
  rw [show a ++ "==UserCSS==".toList ++ m ++ added ++ "\n==/UserCSS==".toList ++ z =
      a ++ "==".toList ++ "UserCSS".toList ++ ("==".toList ++ m ++ added ++
        '\n' :: ("==/".toList ++ "UserCSS".toList ++ ("==".toList ++ z))) by simp,
    show "==".toList ++ m ++ added ++ "\n==".toList ++ z =
      "==".toList ++ m ++ added ++ '\n' :: ("==".toList ++ z) by simp,
    hasBlock_append_iff hlabel, hasBlock_append_break_iff, hasBlock_append_break_iff,
    hasBlock_append_iff hopen, hclose]

end Metadata

open UserCss Metadata

/-- A converted style is refused for the lack of a metadata block exactly when what is left
behind its label, with the label of the closing marker cut out, has no block. -/
theorem convert_again_refused_iff {beautifier : Beautifier} {settings : Settings} {style : Text}
    {source : Option Text} {c : Conversion} {doc : Document}
    (h : convert beautifier settings style source = .ok c) (hlayout : settings.beautify = false)
    (hdoc : Document.extract style = .ok doc) (horder : InOrder doc.text) :
    ∃ a o m k z, o.map foldCase = openMarker ∧ k.map foldCase = closeMarker ∧
      doc.text = a ++ o ++ m ++ k ++ z ∧
      c.text = a ++ "==UserCSS==".toList ++ m ++ directivesText settings c.patterns source ++
        "\n==/UserCSS==".toList ++ z ∧
      ((∀ beautifier settings source,
          convert beautifier settings c.text source = .error .missingMetadata) ↔
        ¬ HasBlock ("==".toList ++ m ++ directivesText settings c.patterns source ++
          "\n==".toList ++ z)) := by
  obtain ⟨-, doc', hdoc', -, htext⟩ := convert_eq_ok_iff.1 h
  obtain rfl : doc' = doc := Except.ok.inj (hdoc'.symm.trans hdoc)
  obtain ⟨a, o, m, k, z, ho, hk, hs, hopen, hout⟩ :=
    exists_parts_of_inOrder (directivesText settings c.patterns source) horder
  have hc : c.text = a ++ "==UserCSS==".toList ++ m ++ directivesText settings c.patterns source ++
      "\n==/UserCSS==".toList ++ z := by
    rw [htext, emit, hlayout]
    exact hout
  have hblock : block? c.text = none ↔ ¬ HasBlock ("==".toList ++ m ++
      directivesText settings c.patterns source ++ "\n==".toList ++ z) := by
    rw [block?_eq_none_iff, hc, hasBlock_renamed_iff (not_mentions_of_find? hopen)]
  refine ⟨a, o, m, k, z, ho, hk, hs, hc, ?_, ?_⟩
  · exact fun hrefused => hblock.1 (convert_eq_missingMetadata_iff.1 (hrefused keepLayout {} none))
  · exact fun hno _ _ _ => convert_eq_missingMetadata_iff.2 (hblock.2 hno)

/-- A style with the opening marker of a second block, which is not closed. -/
def halfBlockStyle : Text := "==UserStyle==\n".toList ++ "==/UserStyle== ==UserStyle==".toList

def halfBlockText : Text :=
  "==UserCSS==\n\n".toList ++ "@compatible       FireMonkey\n".toList ++
    "@converted-from   unknown\n".toList ++ "@match            *://*/*\n".toList ++
    "==/UserCSS== ==UserStyle==".toList

theorem convert_again_refused_half_block :
    convert keepLayout { beautify := false } halfBlockStyle none = .ok ⟨halfBlockText, .catchAll⟩ ∧
    Document.extract halfBlockStyle = .ok ⟨halfBlockStyle, none, []⟩ ∧
    InOrder (Document.mk halfBlockStyle none []).text ∧
    ∃ a o m k z, o.map foldCase = openMarker ∧ k.map foldCase = closeMarker ∧
      (Document.mk halfBlockStyle none []).text = a ++ o ++ m ++ k ++ z ∧
      halfBlockText = a ++ "==UserCSS==".toList ++ m ++
        directivesText { beautify := false } .catchAll none ++ "\n==/UserCSS==".toList ++ z ∧
      ((∀ beautifier settings source,
          convert beautifier settings halfBlockText source = .error .missingMetadata) ↔
        ¬ HasBlock ("==".toList ++ m ++ directivesText { beautify := false } .catchAll none ++
          "\n==".toList ++ z)) := by
  have hconv : convert keepLayout { beautify := false } halfBlockStyle none =
      .ok ⟨halfBlockText, .catchAll⟩ := by decide
  have hdoc : Document.extract halfBlockStyle = .ok ⟨halfBlockStyle, none, []⟩ := by decide
  have horder : InOrder (Document.mk halfBlockStyle none []).text :=
    ⟨[], "\n==/UserStyle== ==UserStyle==".toList, "==UserStyle==\n".toList, " ==UserStyle==".toList,
      by decide, by decide, by decide⟩
  exact ⟨hconv, hdoc, horder, convert_again_refused_iff hconv rfl hdoc horder⟩

/-- A style whose CSS has another metadata block in a comment. -/
def twoBlockStyle : Text :=
  "/* ==UserStyle==\n".toList ++ "@name x\n".toList ++ "==/UserStyle== */\n".toList ++
    "a\x7bb:c\x7d\n".toList ++
    "/* ==UserStyle==\n".toList ++ "@name y\n".toList ++ "==/UserStyle== */".toList

def twoBlockText : Text :=
  "/* ==UserCSS==\n".toList ++ "@name x\n\n".toList ++ "@compatible       FireMonkey\n".toList ++
    "@converted-from   unknown\n".toList ++ "@match            *://*/*\n".toList ++
    "==/UserCSS== */\n".toList ++ "a\x7bb:c\x7d\n".toList ++
    "/* ==UserStyle==\n".toList ++ "@name y\n".toList ++ "==/UserStyle== */".toList

def twoBlockSecondText : Text :=
  "/* ==UserCSS==\n".toList ++ "@name x\n\n".toList ++ "@compatible       FireMonkey\n".toList ++
    "@converted-from   unknown\n".toList ++ "@match            *://*/*\n".toList ++
    "==/UserCSS== */\n".toList ++ "a\x7bb:c\x7d\n".toList ++
    "/* ==UserCSS==\n".toList ++ "@name y\n\n".toList ++ "@compatible       FireMonkey\n".toList ++
    "@converted-from   unknown\n".toList ++ "==/UserCSS== */".toList

/-- The style is converted, and the result is converted again. -/
theorem convert_twoBlock_again :
    convert keepLayout { beautify := false } twoBlockStyle none = .ok ⟨twoBlockText, .catchAll⟩ ∧
      convert keepLayout { beautify := false } twoBlockText none = .ok ⟨twoBlockSecondText, ∅⟩ :=
  ⟨by decide +kernel, by decide +kernel⟩

end StyleScope
