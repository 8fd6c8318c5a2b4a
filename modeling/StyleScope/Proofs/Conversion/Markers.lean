import Mathlib.Control.Monad.Basic
import StyleScope.Proofs.Conversion.Steps

/-!
# Where the directives end up

Emission renames the first opening marker and then the first closing marker, each wherever
it stands, and puts the directives in front of the second.  They are inside the metadata
block exactly when the first closing marker stands behind the first opening one
(`UserCss.marked_rename_iff`).  The eligibility of a style does not say so: its block ends
at a closing marker behind the opening one, and another may stand in front.

Renaming the opening marker can neither make nor destroy a closing marker, because the
signs of the one are followed by a letter and those of the other are not
(`find?_closeMarker_append`).  So both searches are compared in two pieces, the text up to
the first signs of the opening marker and the text from its last signs.
-/

namespace StyleScope

open Text

/-- The first closing marker of a text stands behind the first opening one. -/
def Metadata.InOrder (s : Text) : Prop :=
  ∃ before inside b after, find? (afterFolded? openMarker) s = some (before, inside) ∧
    find? (afterFolded? closeMarker) s = some (b, after) ∧
    before.length + openMarker.length ≤ b.length

namespace UserCss

open Metadata

/-- The text `out` is `s` with an opening and a closing marker renamed, in this order, and
with `added` in front of the closing one. -/
def Marked (added s out : Text) : Prop :=
  ∃ a o m k z, o.map foldCase = openMarker ∧ k.map foldCase = closeMarker ∧
    s = a ++ o ++ m ++ k ++ z ∧
    out = a ++ "==UserCSS==".toList ++ m ++ added ++ "\n==/UserCSS==".toList ++ z

/-! ## Markers and searches -/

/-- What stands between the signs of a renamed or an original opening marker: it starts
with the letter u, and no sign is in it. -/
def IsLabel (w : Text) : Prop :=
  (∃ u rest, w = u :: rest ∧ foldCase u = 'u') ∧ ∀ c ∈ w, foldCase c ≠ '='

theorem isLabel_of_map_foldCase {w : Text} (h : w.map foldCase = "userstyle".toList) :
    IsLabel w := by
  constructor
  · cases w with
    | nil => exact absurd h (by decide)
    | cons u rest => exact ⟨u, rest, rfl, (List.cons.inj h).1⟩
  · intro c hc heq
    have hmem : foldCase c ∈ "userstyle".toList := h ▸ List.mem_map_of_mem hc
    rw [heq] at hmem
    exact absurd hmem (by decide)

theorem length_of_map_foldCase {w : Text} (h : w.map foldCase = "userstyle".toList) :
    w.length = 9 := by
  rw [← List.length_map (f := foldCase), h]
  rfl

theorem isLabel_userCss : IsLabel "UserCSS".toList :=
  ⟨⟨'U', "serCSS".toList, rfl, by decide⟩, by decide⟩

theorem exists_label {o : Text} (h : o.map foldCase = openMarker) :
    ∃ w, o = ['=', '='] ++ w ++ ['=', '='] ∧ w.map foldCase = "userstyle".toList := by
  have hparts : o.map foldCase = ['=', '='] ++ "userstyle".toList ++ ['=', '='] := h
  obtain ⟨front, e, rfl, hfront, he⟩ := List.map_eq_append_iff.1 hparts
  obtain ⟨s, w, rfl, hs, hw⟩ := List.map_eq_append_iff.1 hfront
  rw [eq_of_map_foldCase_eq (by decide) he, eq_of_map_foldCase_eq (by decide) hs]
  exact ⟨w, rfl, hw⟩

/-- A closing marker does not reach from the signs of an opening marker into its label, so
the label splits a search for it. -/
theorem find?_closeMarker_append {w : Text} (hw : IsLabel w) (a s : Text) :
    find? (afterFolded? closeMarker) (a ++ ['=', '='] ++ w ++ s) =
      ((find? (afterFolded? closeMarker) (a ++ ['=', '='])).map fun (b, rest) =>
        (b, rest ++ w ++ s)).or
      ((find? (afterFolded? closeMarker) s).map fun (b, rest) =>
        (a ++ ['=', '='] ++ w ++ b, rest)) := by
  obtain ⟨⟨u, rest, rfl, hu⟩, hsigns⟩ := hw
  have hinfix : ¬ [foldCase '=', foldCase u] <:+: '=' :: closeMarker.tail := by
    rw [hu]
    decide +kernel
  have hmarker : closeMarker = '=' :: closeMarker.tail := rfl
  rw [hmarker]
  simpa using find?_afterFolded?_append hinfix hsigns (a ++ ['=']) s

/-! ## The two renamings -/

section Renaming

variable {added s a w rest b y z : Text}

/-- The text that the opening marker is renamed in, up to and from its label. -/
theorem renameOpenMarker_eq (hopen : find? (afterFolded? openMarker) s = some (a, rest)) :
    renameOpenMarker s = a ++ ['=', '='] ++ "UserCSS".toList ++ (['=', '='] ++ rest) := by
  rw [renameOpenMarker, substituteFirst_of_find?_eq_some _ hopen]
  simp

theorem exists_eq_of_find?_openMarker
    (hopen : find? (afterFolded? openMarker) s = some (a, rest)) :
    ∃ w, s = a ++ ['=', '='] ++ w ++ (['=', '='] ++ rest) ∧
      w.map foldCase = "userstyle".toList := by
  obtain ⟨t, rfl, ht⟩ := find?_some hopen
  obtain ⟨o, rfl, ho⟩ := afterFolded?_eq_some.1 ht
  obtain ⟨w, rfl, hw⟩ := exists_label ho
  exact ⟨w, by simp, hw⟩

/-- A closing marker in front of the opening one gets the directives. -/
theorem rename_of_close_in_front (hopen : find? (afterFolded? openMarker) s = some (a, rest))
    (hclose : find? (afterFolded? closeMarker) (a ++ ['=', '=']) = some (b, y)) :
    renameCloseMarker added (renameOpenMarker s) = b ++ added ++ "\n==/UserCSS==".toList ++
      (y ++ "UserCSS".toList ++ (['=', '='] ++ rest)) := by
  rw [renameOpenMarker_eq hopen, renameCloseMarker]
  have hfound := find?_closeMarker_append isLabel_userCss a (['=', '='] ++ rest)
  rw [hclose] at hfound
  rw [substituteFirst_of_find?_eq_some _ hfound]
  simp

/-- Otherwise the first closing marker behind the label of the opening one gets them. -/
theorem rename_of_close_behind (hopen : find? (afterFolded? openMarker) s = some (a, rest))
    (hfront : find? (afterFolded? closeMarker) (a ++ ['=', '=']) = none)
    (hclose : find? (afterFolded? closeMarker) (['=', '='] ++ rest) = some (b, z)) :
    renameCloseMarker added (renameOpenMarker s) =
      a ++ ['=', '='] ++ "UserCSS".toList ++ b ++ added ++ "\n==/UserCSS==".toList ++ z := by
  rw [renameOpenMarker_eq hopen, renameCloseMarker]
  have hfound := find?_closeMarker_append isLabel_userCss a (['=', '='] ++ rest)
  rw [hfront, hclose] at hfound
  rw [substituteFirst_of_find?_eq_some _ hfound]
  simp

theorem exists_eq_signs_append
    (hclose : find? (afterFolded? closeMarker) (['=', '='] ++ rest) = some (b, z))
    (hlen : 2 ≤ b.length) : ∃ m, b = ['=', '='] ++ m := by
  obtain ⟨t, ht, -⟩ := find?_some hclose
  have hpre : ['=', '='] <+: b :=
    List.prefix_of_prefix_length_le (List.prefix_append _ rest) (ht ▸ List.prefix_append b t) hlen
  obtain ⟨m, hm⟩ := hpre
  exact ⟨m, hm.symm⟩

/-- The markers are in order exactly when no closing marker starts in front of the opening
one or in its last signs. -/
theorem inOrder_iff (hopen : find? (afterFolded? openMarker) s = some (a, rest)) :
    InOrder s ↔ find? (afterFolded? closeMarker) (a ++ ['=', '=']) = none ∧
      ∃ m z, find? (afterFolded? closeMarker) (['=', '='] ++ rest) = some (['=', '='] ++ m, z) := by
  obtain ⟨w, hs, hw⟩ := exists_eq_of_find?_openMarker hopen
  have hlen : w.length = 9 := length_of_map_foldCase hw
  have hfound := find?_closeMarker_append (isLabel_of_map_foldCase hw) a (['=', '='] ++ rest)
  rw [← hs] at hfound
  constructor
  · rintro ⟨a', rest', b, z, hopen', hclose, hle⟩
    obtain ⟨rfl, rfl⟩ := Prod.mk.inj (Option.some.inj (hopen.symm.trans hopen'))
    have hmark : openMarker.length = 13 := rfl
    rw [hfound, Option.or_eq_some_iff] at hclose
    rcases hclose with hclose | ⟨hnone, hclose⟩
    · obtain ⟨⟨b', y⟩, hb, heq⟩ := Option.map_eq_some_iff.1 hclose
      obtain ⟨rfl, -⟩ := Prod.mk.inj heq
      obtain ⟨t, ht, -⟩ := find?_some hb
      have hlt := congrArg List.length ht
      simp only [List.length_append, List.length_cons, List.length_nil] at hlt
      omega
    · obtain ⟨⟨b', y⟩, hb, heq⟩ := Option.map_eq_some_iff.1 hclose
      obtain ⟨rfl, rfl⟩ := Prod.mk.inj heq
      refine ⟨Option.map_eq_none_iff.1 hnone, ?_⟩
      have htwo : 2 ≤ b'.length := by
        simp only [List.length_append, List.length_cons, List.length_nil] at hle
        omega
      obtain ⟨m, rfl⟩ := exists_eq_signs_append hb htwo
      exact ⟨m, y, hb⟩
  · rintro ⟨hnone, m, z, hclose⟩
    rw [hnone, hclose] at hfound
    refine ⟨a, rest, _, _, hopen, hfound, ?_⟩
    have hmark : openMarker.length = 13 := rfl
    simp only [List.length_append, List.length_cons, List.length_nil]
    omega

/-- Up to the end of the label only what the original has breaks a line. -/
theorem getElem?_of_marked {out : Text} {n : Nat} (h : Marked added s out)
    (hopen : find? (afterFolded? openMarker) s = some (a, rest)) (hn : n < a.length + 11)
    (hbreak : out[n]? = some '\n') : s[n]? = some '\n' := by
  obtain ⟨a', o, m, k, z', ho, -, rfl, rfl⟩ := h
  obtain ⟨before, inside, hfirst, hle⟩ := exists_find?_afterFolded? ho a' (m ++ k ++ z')
  simp only [List.append_assoc] at hfirst hopen hbreak ⊢
  rw [hopen] at hfirst
  obtain ⟨rfl, -⟩ := Prod.mk.inj (Option.some.inj hfirst)
  by_cases hfront : n < a'.length
  · rw [List.getElem?_append_left hfront] at hbreak ⊢
    exact hbreak
  · have hlabel : n - a'.length < "==UserCSS==".toList.length := by
      have hmark : "==UserCSS==".toList.length = 11 := rfl
      omega
    rw [List.getElem?_append_right (Nat.le_of_not_lt hfront),
      List.getElem?_append_left hlabel] at hbreak
    exact absurd (List.mem_of_getElem? hbreak) (by decide)

theorem not_marked_of_close_in_front (hadded : added.head? = some '\n')
    (hopen : find? (afterFolded? openMarker) s = some (a, rest))
    (hclose : find? (afterFolded? closeMarker) (a ++ ['=', '=']) = some (b, y)) :
    ¬ Marked added s (renameCloseMarker added (renameOpenMarker s)) := by
  intro h
  obtain ⟨more, rfl⟩ := List.head?_eq_some_iff.1 hadded
  rw [rename_of_close_in_front hopen hclose] at h
  obtain ⟨w, hs, -⟩ := exists_eq_of_find?_openMarker hopen
  obtain ⟨t, ht, htext⟩ := find?_some hclose
  obtain ⟨spelling, rfl, hspelling⟩ := afterFolded?_eq_some.1 htext
  obtain ⟨e, k, rfl, he, -⟩ := List.map_eq_cons_iff.1 hspelling
  have hsign : e = '=' := eq_of_foldCase_eq (by decide) he
  have hlen := congrArg List.length ht
  simp only [List.length_append, List.length_cons, List.length_nil] at hlen
  have hbreak := getElem?_of_marked h hopen (n := b.length) (by omega) (by simp)
  rw [hs, ht, hsign] at hbreak
  simp at hbreak

theorem not_marked_of_close_in_signs (hadded : added.head? = some '\n')
    (hopen : find? (afterFolded? openMarker) s = some (a, rest))
    (hfront : find? (afterFolded? closeMarker) (a ++ ['=', '=']) = none)
    (hclose : find? (afterFolded? closeMarker) (['=', '='] ++ rest) = some (b, z))
    (hlen : b.length < 2) : ¬ Marked added s (renameCloseMarker added (renameOpenMarker s)) := by
  intro h
  obtain ⟨more, rfl⟩ := List.head?_eq_some_iff.1 hadded
  rw [rename_of_close_behind hopen hfront hclose] at h
  obtain ⟨w, hs, hw⟩ := exists_eq_of_find?_openMarker hopen
  have hwlen : w.length = 9 := length_of_map_foldCase hw
  have hfrontlen : (a ++ ['=', '='] ++ "UserCSS".toList ++ b).length = a.length + 9 + b.length := by
    have hlabel : "UserCSS".toList.length = 7 := rfl
    simp only [List.length_append, List.length_cons, List.length_nil, hlabel]
  have hbreak := getElem?_of_marked h hopen
    (n := (a ++ ['=', '='] ++ "UserCSS".toList ++ b).length) (by omega) (by
      rw [List.append_assoc, List.append_assoc, List.getElem?_append_right (Nat.le_refl _),
        Nat.sub_self]
      rfl)
  have hsigns : (a ++ ['=', '=']).length = a.length + 2 := by simp
  rw [hs, hfrontlen, List.append_assoc, List.getElem?_append_right (by omega),
    List.getElem?_append_left (by omega)] at hbreak
  have hmem := List.mem_map_of_mem (f := foldCase) (List.mem_of_getElem? hbreak)
  rw [hw] at hmem
  exact absurd hmem (by decide)

/-- Where the markers are in order, each renaming is done at the place where it belongs. -/
theorem exists_parts_of_inOrder (added : Text) (h : InOrder s) :
    ∃ a o m k z, o.map foldCase = openMarker ∧ k.map foldCase = closeMarker ∧
      s = a ++ o ++ m ++ k ++ z ∧
      find? (afterFolded? openMarker) s = some (a, m ++ k ++ z) ∧
      renameCloseMarker added (renameOpenMarker s) =
        a ++ "==UserCSS==".toList ++ m ++ added ++ "\n==/UserCSS==".toList ++ z := by
  have ⟨a, rest, _, _, hopen, _⟩ := h
  obtain ⟨hfront, m, z, hclose⟩ := (inOrder_iff hopen).1 h
  obtain ⟨w, hs, hw⟩ := exists_eq_of_find?_openMarker hopen
  obtain ⟨t, ht, htext⟩ := find?_some hclose
  obtain ⟨k, rfl, hk⟩ := afterFolded?_eq_some.1 htext
  have ho : (['=', '='] ++ w ++ ['=', '=']).map foldCase = openMarker := by
    rw [List.map_append, List.map_append, hw]
    rfl
  have hrest : rest = m ++ k ++ z := by
    rw [List.append_assoc] at ht
    rw [List.append_cancel_left ht, List.append_assoc]
  refine ⟨a, ['=', '='] ++ w ++ ['=', '='], m, k, z, ho, hk, ?_, hrest ▸ hopen, ?_⟩
  · rw [hs, hrest]
    simp
  · rw [rename_of_close_behind hopen hfront hclose]
    simp

theorem Marked.exists_markers {out : Text} (h : Marked added s out) :
    (∃ found, find? (afterFolded? openMarker) s = some found) ∧
      ∃ found, find? (afterFolded? closeMarker) s = some found := by
  obtain ⟨a, o, m, k, z, ho, hk, rfl, -⟩ := h
  constructor
  · obtain ⟨before, inside, hfound, -⟩ := exists_find?_afterFolded? ho a (m ++ k ++ z)
    simp only [List.append_assoc] at hfound ⊢
    exact ⟨_, hfound⟩
  · obtain ⟨before, after, hfound, -⟩ := exists_find?_afterFolded? hk (a ++ o ++ m) z
    exact ⟨_, hfound⟩

/-- The directives are inside the metadata block exactly when the markers are in order. -/
theorem marked_rename_iff (hadded : added.head? = some '\n') :
    Marked added s (renameCloseMarker added (renameOpenMarker s)) ↔ InOrder s := by
  constructor
  · intro h
    obtain ⟨⟨⟨a, rest⟩, hopen⟩, ⟨found, hfound⟩⟩ := h.exists_markers
    rw [inOrder_iff hopen]
    cases hfront : find? (afterFolded? closeMarker) (a ++ ['=', '=']) with
    | some front => exact absurd h (not_marked_of_close_in_front hadded hopen hfront)
    | none =>
      refine ⟨rfl, ?_⟩
      cases hclose : find? (afterFolded? closeMarker) (['=', '='] ++ rest) with
      | none =>
        obtain ⟨w, hs, hw⟩ := exists_eq_of_find?_openMarker hopen
        rw [hs, find?_closeMarker_append (isLabel_of_map_foldCase hw), hfront, hclose] at hfound
        exact absurd hfound (by simp)
      | some behind =>
        obtain ⟨b, z⟩ := behind
        by_cases hlen : 2 ≤ b.length
        · obtain ⟨m, rfl⟩ := exists_eq_signs_append hclose hlen
          exact ⟨m, z, rfl⟩
        · exact absurd h (not_marked_of_close_in_signs hadded hopen hfront hclose (by omega))
  · intro h
    obtain ⟨a, o, m, k, z, ho, hk, hs, -, hout⟩ := exists_parts_of_inOrder added h
    exact ⟨a, o, m, k, z, ho, hk, hs, hout⟩

end Renaming

theorem head?_directivesText (settings : Settings) (set : PatternSet) (source : Option Text) :
    (directivesText settings set source).head? = some '\n' := rfl

end UserCss

open UserCss Metadata

/-- Where the layout is kept, the converted style is the style without its rule, with the
directives inside the metadata block, exactly when the markers of the latter are in
order. -/
theorem convert_marked_iff {beautifier : Beautifier} {settings : Settings} {style : Text}
    {source : Option Text} {c : Conversion}
    (h : convert beautifier settings style source = .ok c) (hlayout : settings.beautify = false) :
    ∃ doc, Document.extract style = .ok doc ∧
      (Marked (directivesText settings c.patterns source) doc.text c.text ↔
        InOrder doc.text) := by
  obtain ⟨-, doc, hdoc, -, htext⟩ := convert_eq_ok_iff.1 h
  refine ⟨doc, hdoc, ?_⟩
  rw [htext, emit, hlayout]
  exact marked_rename_iff (head?_directivesText settings c.patterns source)

def blockStyle : Text := "==UserStyle==\n==/UserStyle==".toList

def blockText : Text :=
  "==UserCSS==\n\n@compatible       FireMonkey\n@converted-from   unknown\n".toList ++
    "@match            *://*/*\n==/UserCSS==".toList

theorem convert_marked_iff_block :
    convert keepLayout { beautify := false } blockStyle none = .ok ⟨blockText, .catchAll⟩ ∧
    ∃ doc, Document.extract blockStyle = .ok doc ∧
      (Marked (directivesText { beautify := false } .catchAll none) doc.text blockText ↔
        InOrder doc.text) := by
  have hconv : convert keepLayout { beautify := false } blockStyle none =
      .ok ⟨blockText, .catchAll⟩ := by decide
  have hmarked := convert_marked_iff hconv rfl
  exact ⟨hconv, hmarked⟩

/-- A style whose comment has a closing marker in front of its metadata block. -/
def closedFirstStyle : Text :=
  "/* ==/UserStyle== ==UserStyle==\n@name x\n==/UserStyle== */\n".toList ++
    "@-moz-document domain(\"a.com\") \x7ba\x7bb:c\x7d\x7d".toList

def closedFirstDocument : Document where
  preamble := "/* ==/UserStyle== ==UserStyle==\n@name x\n==/UserStyle== */\n".toList
  rule := some "domain(\"a.com\")".toList
  body := "a\x7bb:c\x7d".toList

theorem closedFirst_not_inOrder : ¬ InOrder closedFirstDocument.text := by
  have hopen : find? (afterFolded? openMarker) closedFirstDocument.text =
      some ("/* ==/UserStyle== ".toList, "\n@name x\n==/UserStyle== */\na\x7bb:c\x7d".toList) := by
    decide
  have hclose : find? (afterFolded? closeMarker) ("/* ==/UserStyle== ".toList ++ ['=', '=']) =
      some ("/* ".toList, " ==".toList) := by decide
  rw [inOrder_iff hopen, hclose]
  simp

/-- It is eligible and converted, and its directives end up in front of the block. -/
theorem convert_closedFirst_not_marked :
    ∃ c, convert keepLayout { beautify := false } closedFirstStyle none = .ok c ∧
      Document.extract closedFirstStyle = .ok closedFirstDocument ∧
      ¬ Marked (directivesText { beautify := false } c.patterns none)
        closedFirstDocument.text c.text := by
  have hgate : eligibility closedFirstStyle = .ok () := by decide
  have hdoc : Document.extract closedFirstStyle = .ok closedFirstDocument := by decide
  have hset : closedFirstDocument.patterns { beautify := false } =
      .ok ⟨.singleton "*://*.a.com/*".toList, ∅⟩ := by decide
  have hconv : convert keepLayout { beautify := false } closedFirstStyle none =
      .ok ⟨emit keepLayout { beautify := false } closedFirstDocument.text
        ⟨.singleton "*://*.a.com/*".toList, ∅⟩ none, ⟨.singleton "*://*.a.com/*".toList, ∅⟩⟩ :=
    convert_eq_ok_iff.2 ⟨hgate, closedFirstDocument, hdoc, hset, rfl⟩
  refine ⟨_, hconv, hdoc, ?_⟩
  intro h
  refine closedFirst_not_inOrder ((marked_rename_iff ?_).1 h)
  exact head?_directivesText _ _ _

end StyleScope
