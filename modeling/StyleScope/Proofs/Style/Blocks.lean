import StyleScope.Style.Metadata
import StyleScope.Proofs.Text.Search

/-!
# Texts with a metadata block

`Metadata.block?` takes the first opening marker and the first closing one behind it.  It
succeeds exactly when the text has a block at all (`Metadata.block?_eq_none_iff`), wherever
the markers stand and however many there are.  The rest of the module says how a text may
be cut without changing the answer: at a line break, which no marker contains, and behind a
stretch in which no opening marker starts.
-/

namespace StyleScope
namespace Metadata

open Text

/-- Some code point stands between an opening marker and a closing one. -/
def HasBlock (s : Text) : Prop :=
  ∃ a c b, s = a ++ c :: b ∧ Mentions openMarker a ∧ Mentions closeMarker b

variable {s t before rest : Text}

theorem hasBlock_iff_of_find? (h : find? (afterFolded? openMarker) s = some (before, rest)) :
    HasBlock s ↔ ∃ c b, rest = c :: b ∧ Mentions closeMarker b := by
  obtain ⟨found, rfl, hfound⟩ := find?_some h
  obtain ⟨o, rfl, ho⟩ := afterFolded?_eq_some.1 hfound
  constructor
  · rintro ⟨a, c, b, hs, hopen, hclose⟩
    -- The first opening marker ends in front of the code point in between.
    obtain ⟨x, o', y, rfl, ho'⟩ := mentions_iff_exists_spelling.1 hopen
    obtain ⟨before', rest', hfirst, hle⟩ := exists_find?_afterFolded? ho' x (y ++ c :: b)
    rw [show x ++ o' ++ (y ++ c :: b) = x ++ o' ++ y ++ c :: b by simp, ← hs, h] at hfirst
    obtain ⟨rfl, rfl⟩ := Prod.mk.inj (Option.some.inj hfirst)
    have hlen : o.length = o'.length := by
      rw [← List.length_map (f := foldCase), ho, ← ho', List.length_map]
    rw [← List.append_assoc] at hs
    rcases List.append_eq_append_iff.1 hs with ⟨u, hu, hrest⟩ | ⟨u, hu, hrest⟩
    · cases u with
      | nil => exact ⟨c, b, hrest, hclose⟩
      | cons d u =>
        exact ⟨d, u ++ c :: b, hrest,
          hclose.mono ((List.suffix_cons c b).trans (List.suffix_append u (c :: b))).isInfix⟩
    · have hnil : u = [] := by
        have hlen' := congrArg List.length hu
        simp only [List.length_append] at hlen'
        exact List.length_eq_zero_iff.1 (by omega)
      rw [hnil] at hrest
      exact ⟨c, b, hrest.symm, hclose⟩
  · rintro ⟨c, b, rfl, hclose⟩
    refine ⟨before ++ o, c, b, by simp, ?_, hclose⟩
    exact mentions_iff_exists_spelling.2 ⟨before, o, [], by simp, ho⟩

theorem block?_eq_none_iff : block? s = none ↔ ¬ HasBlock s := by
  unfold block?
  cases hopen : find? (afterFolded? openMarker) s with
  | none =>
    refine iff_of_true rfl ?_
    rintro ⟨a, c, b, rfl, ha, -⟩
    exact find?_afterFolded?_eq_none_iff.1 hopen (ha.mono (List.prefix_append a (c :: b)).isInfix)
  | some found =>
    obtain ⟨before, rest⟩ := found
    rw [hasBlock_iff_of_find? hopen]
    cases rest with
    | nil => simp
    | cons c b =>
      have hclose : find? (afterFolded? closeMarker) b = none ↔ ¬ Mentions closeMarker b :=
        find?_afterFolded?_eq_none_iff
      cases hfound : find? (afterFolded? closeMarker) b with
      | none => simpa [hfound] using hclose.1 hfound
      | some found =>
        rw [hfound] at hclose
        simpa [hfound] using hclose

/-! ## Cutting a text -/

theorem HasBlock.mono (h : HasBlock s) (hst : s <:+: t) : HasBlock t := by
  obtain ⟨a, c, b, rfl, hopen, hclose⟩ := h
  obtain ⟨x, y, rfl⟩ := hst
  refine ⟨x ++ a, c, b ++ y, by simp, ?_, ?_⟩
  · exact hopen.mono (List.suffix_append x a).isInfix
  · exact hclose.mono (List.prefix_append b y).isInfix

theorem not_mentions_nil : ¬ Mentions openMarker [] := by decide

/-- What stands in front of the block may go where no opening marker starts in it. -/
theorem hasBlock_append_iff (hs : ∀ t, Mentions openMarker (s ++ t) → Mentions openMarker t) :
    HasBlock (s ++ t) ↔ HasBlock t := by
  constructor
  · rintro ⟨a, c, b, heq, hopen, hclose⟩
    rcases List.append_eq_append_iff.1 heq with ⟨u, rfl, rfl⟩ | ⟨u, rfl, hu⟩
    · exact ⟨u, c, b, rfl, hs u hopen, hclose⟩
    · refine absurd (hs [] ?_) not_mentions_nil
      rw [List.append_nil]
      exact hopen.mono (List.prefix_append a u).isInfix
  · exact fun h => h.mono (List.suffix_append s t).isInfix

/-- A line break splits a text in two, in which the markers may stand on either side. -/
theorem hasBlock_append_break_iff :
    HasBlock (s ++ '\n' :: t) ↔
      HasBlock s ∨ (Mentions openMarker s ∧ Mentions closeMarker t) ∨ HasBlock t := by
  have hnopen : foldCase '\n' ∉ openMarker := by decide
  have hnclose : foldCase '\n' ∉ closeMarker := by decide
  constructor
  · rintro ⟨a, c, b, heq, hopen, hclose⟩
    rcases List.append_eq_append_iff.1 heq with ⟨u, rfl, hu⟩ | ⟨u, rfl, hu⟩
    · cases u with
      | nil =>
        obtain ⟨rfl, rfl⟩ := List.cons.inj hu
        rw [List.append_nil] at hopen
        exact Or.inr (Or.inl ⟨hopen, hclose⟩)
      | cons d u =>
        obtain ⟨rfl, rfl⟩ := List.cons.inj hu
        rcases (mentions_append_cons_iff hnopen).1 hopen with hopen | hopen
        · exact Or.inr (Or.inl ⟨hopen,
            hclose.mono ((List.suffix_cons c b).trans (List.suffix_append u (c :: b))).isInfix⟩)
        · exact Or.inr (Or.inr ⟨u, c, b, rfl, hopen, hclose⟩)
    · cases u with
      | nil =>
        obtain ⟨rfl, rfl⟩ := List.cons.inj hu
        rw [List.append_nil]
        exact Or.inr (Or.inl ⟨hopen, hclose⟩)
      | cons d u =>
        obtain ⟨rfl, rfl⟩ := List.cons.inj hu
        rcases (mentions_append_cons_iff hnclose).1 hclose with hclose | hclose
        · exact Or.inl ⟨a, c, u, rfl, hopen, hclose⟩
        · exact Or.inr (Or.inl ⟨hopen.mono (List.prefix_append a (c :: u)).isInfix, hclose⟩)
  · rintro (h | ⟨hopen, hclose⟩ | h)
    · exact h.mono (List.prefix_append s ('\n' :: t)).isInfix
    · exact ⟨s, '\n', t, rfl, hopen, hclose⟩
    · exact h.mono ((List.suffix_cons '\n' t).trans (List.suffix_append s ('\n' :: t))).isInfix

end Metadata
end StyleScope
