import Mathlib.Logic.ExistsUnique
import StyleScope.Style.Metadata
import StyleScope.Proofs.Text.Search

/-!
# Styles with a scoping rule

`Section.isGlobal` looks at the pieces between the keywords.  A style does not apply
everywhere exactly when it has a keyword and something else than another keyword behind
the first one (`Section.isGlobal_eq_false_iff`), and it has two pieces exactly when it has
one keyword (`Section.count_eq_two_iff`).
-/

namespace StyleScope
namespace Section

open Text

def keywords : List Text := ["@-moz-document".toList, "@document".toList]

/-- A keyword stands in the text, and the first one is followed by something that is not
a keyword. -/
def IsScoped (s : Text) : Prop :=
  ∃ before keyword after, s = before ++ keyword ++ after ∧ keyword ∈ keywords ∧
    (∀ k ∈ keywords, ¬ k <:+: before) ∧ after ≠ [] ∧ ∀ k ∈ keywords, ¬ k <+: after

theorem afterKeyword?_eq_some {s rest : Text} :
    afterKeyword? s = some rest ↔ ∃ k ∈ keywords, s = k ++ rest := by
  rw [afterKeyword?, Option.or_eq_some_iff, after?_eq_some, after?_eq_some]
  constructor
  · intro h
    rcases h with h | ⟨-, h⟩
    · exact ⟨_, by decide, h⟩
    · exact ⟨_, by decide, h⟩
  · intro ⟨k, hk, h⟩
    simp only [keywords, List.mem_cons, List.not_mem_nil, or_false] at hk
    rcases hk with rfl | rfl
    · exact Or.inl h
    · exact Or.inr ⟨h ▸ rfl, h⟩

theorem exists_keyword_eq {k : Text} (h : k ∈ keywords) : ∃ t, k = '@' :: t ∧ '@' ∉ t := by
  have hall : ∀ k ∈ keywords, k = '@' :: k.tail ∧ '@' ∉ k.tail := by decide
  exact ⟨k.tail, hall k h⟩

theorem consumes_afterKeyword? : Consumes afterKeyword? := by
  intro s rest h
  obtain ⟨k, hk, rfl⟩ := afterKeyword?_eq_some.1 h
  obtain ⟨t, rfl, -⟩ := exists_keyword_eq hk
  exact ⟨'@', t, rfl⟩

theorem afterKeyword?_isSome_iff {s : Text} :
    (afterKeyword? s).isSome = true ↔ ∃ k ∈ keywords, k <+: s := by
  rw [Option.isSome_iff_exists]
  constructor
  · intro ⟨rest, h⟩
    obtain ⟨k, hk, rfl⟩ := afterKeyword?_eq_some.1 h
    exact ⟨k, hk, List.prefix_append k rest⟩
  · intro ⟨k, hk, rest, h⟩
    exact ⟨rest, afterKeyword?_eq_some.2 ⟨k, hk, h.symm⟩⟩

/-- Keywords do not overlap, so the first one is found where none stands in front. -/
theorem find?_afterKeyword?_eq_some {s before after : Text} :
    find? afterKeyword? s = some (before, after) ↔
      ∃ k ∈ keywords, s = before ++ k ++ after ∧ ∀ k' ∈ keywords, ¬ k' <:+: before := by
  rw [find?_eq_some_iff]
  constructor
  · intro ⟨rest, hs, hpass, hrest⟩
    obtain ⟨k, hk, rfl⟩ := afterKeyword?_eq_some.1 hrest
    refine ⟨k, hk, by rw [hs, List.append_assoc], ?_⟩
    rintro k' hk' ⟨x, y, rfl⟩
    obtain ⟨t, rfl, -⟩ := exists_keyword_eq hk'
    have hnone := passesOver_iff.1 hpass x '@' (t ++ y) (by simp)
    have hsome : afterKeyword? ('@' :: (t ++ y) ++ (k ++ after)) = some (y ++ (k ++ after)) :=
      afterKeyword?_eq_some.2 ⟨'@' :: t, hk', by simp⟩
    rw [hsome] at hnone
    exact absurd hnone (by simp)
  · intro ⟨k, hk, hs, hno⟩
    refine ⟨k ++ after, by rw [hs, List.append_assoc], passesOver_iff.2 ?_,
      afterKeyword?_eq_some.2 ⟨k, hk, rfl⟩⟩
    intro x c y hbefore
    refine Option.eq_none_iff_forall_ne_some.2 fun rest hrest => ?_
    obtain ⟨k', hk', hsplit⟩ := afterKeyword?_eq_some.1 hrest
    rcases List.append_eq_append_iff.1 hsplit with ⟨more, hmore, hafter⟩ | ⟨more, hmore, -⟩
    · -- A keyword that reaches beyond the text in front has a second `@`.
      obtain ⟨t, rfl, -⟩ := exists_keyword_eq hk
      obtain ⟨t', rfl, hno'⟩ := exists_keyword_eq hk'
      cases more with
      | nil =>
        rw [List.append_nil] at hmore
        exact hno _ hk' ⟨x, [], by rw [hbefore, hmore, List.append_nil]⟩
      | cons d more =>
        obtain ⟨rfl, -⟩ := List.cons.inj hafter
        refine hno' ?_
        rw [(List.cons.inj hmore).2]
        exact List.mem_append_right y List.mem_cons_self
    · exact hno k' hk' ⟨x, more, by rw [hbefore, hmore, List.append_assoc]⟩

theorem find?_afterKeyword?_eq_none_iff {s : Text} :
    find? afterKeyword? s = none ↔ ∀ k ∈ keywords, ¬ k <:+: s := by
  constructor
  · rintro hnone k hk ⟨before, rest, rfl⟩
    have hhere : afterKeyword? (k ++ rest) = some rest := afterKeyword?_eq_some.2 ⟨k, hk, rfl⟩
    obtain ⟨front, found, hfound, -⟩ := exists_find?_of_some (s := before) hhere
    rw [List.append_assoc, hfound] at hnone
    exact absurd hnone (by simp)
  · intro hno
    refine Option.eq_none_iff_forall_ne_some.2 fun found hfound => ?_
    obtain ⟨k, hk, rfl, -⟩ := find?_afterKeyword?_eq_some.1 hfound
    exact hno k hk ⟨found.1, found.2, rfl⟩

theorem isGlobal_of_find?_eq_none {s : Text} (h : find? afterKeyword? s = none) :
    isGlobal s = true := by
  rw [isGlobal, pieces, splitAll_of_find?_eq_none h]

theorem isGlobal_of_find?_eq_some {s before after : Text}
    (h : find? afterKeyword? s = some (before, after)) :
    isGlobal s = (after.isEmpty || (afterKeyword? after).isSome) := by
  rw [isGlobal, pieces, splitAll_of_find?_eq_some consumes_afterKeyword? h]
  cases hnext : find? afterKeyword? after with
  | none =>
    rw [splitAll_of_find?_eq_none hnext]
    cases hkey : afterKeyword? after with
    | none => simp
    | some rest =>
      rw [find?_of_some hkey] at hnext
      exact absurd hnext (by simp)
  | some found =>
    obtain ⟨between, rest⟩ := found
    rw [splitAll_of_find?_eq_some consumes_afterKeyword? hnext]
    cases hkey : afterKeyword? after with
    | some rest' =>
      rw [find?_of_some hkey] at hnext
      obtain ⟨rfl, -⟩ := Prod.mk.inj (Option.some.inj hnext)
      simp
    | none =>
      obtain ⟨t, rfl, -, hhere⟩ := find?_eq_some_iff.1 hnext
      cases between with
      | nil => rw [List.nil_append, hhere] at hkey; exact absurd hkey (by simp)
      | cons c between => simp

/-- A style is scoped where its first keyword is followed by something else. -/
theorem isGlobal_eq_false_iff {s : Text} : isGlobal s = false ↔ IsScoped s := by
  cases hfound : find? afterKeyword? s with
  | none =>
    rw [isGlobal_of_find?_eq_none hfound]
    refine iff_of_false (by simp) ?_
    rintro ⟨before, k, after, hs, hk, hno, -⟩
    rw [find?_afterKeyword?_eq_some.2 ⟨k, hk, hs, hno⟩] at hfound
    exact absurd hfound (by simp)
  | some found =>
    obtain ⟨before, after⟩ := found
    rw [isGlobal_of_find?_eq_some hfound, Bool.or_eq_false_iff,
      Bool.eq_false_iff (b := Option.isSome _), ne_eq, afterKeyword?_isSome_iff]
    constructor
    · intro ⟨hne, hkey⟩
      obtain ⟨k, hk, hs, hno⟩ := find?_afterKeyword?_eq_some.1 hfound
      exact ⟨before, k, after, hs, hk, hno, by simpa using hne,
        fun k' hk' hp => hkey ⟨k', hk', hp⟩⟩
    · rintro ⟨before', k, after', hs, hk, hno, hne, hkey⟩
      rw [find?_afterKeyword?_eq_some.2 ⟨k, hk, hs, hno⟩] at hfound
      obtain ⟨rfl, rfl⟩ := Prod.mk.inj (Option.some.inj hfound)
      exact ⟨by simpa using hne, fun ⟨k', hk', hp⟩ => hkey k' hk' hp⟩

/-! ## How many keywords -/

def HasOneKeyword (s : Text) : Prop := ∃! before, ∃ k ∈ keywords, ∃ after, s = before ++ k ++ after

/-- A keyword is the only one when there is none on either side of it. -/
theorem hasOneKeyword_append_iff {before k after : Text} (hk : k ∈ keywords) :
    HasOneKeyword (before ++ k ++ after) ↔
      (∀ k' ∈ keywords, ¬ k' <:+: before) ∧ ∀ k' ∈ keywords, ¬ k' <:+: after := by
  have hne : ∀ k' ∈ keywords, 0 < k'.length := by decide
  constructor
  · intro h
    have hplace : ∀ {x k' y}, k' ∈ keywords → before ++ k ++ after = x ++ k' ++ y → x = before :=
      fun hk' heq => h.unique ⟨_, hk', _, heq⟩ ⟨k, hk, after, rfl⟩
    constructor
    · rintro k' hk' ⟨x, y, rfl⟩
      have hlen := congrArg List.length (hplace (x := x) (y := y ++ k ++ after) hk' (by simp))
      have hpos := hne k' hk'
      simp only [List.length_append] at hlen
      omega
    · rintro k' hk' ⟨x, y, rfl⟩
      have hlen := congrArg List.length (hplace (x := before ++ k ++ x) (y := y) hk' (by simp))
      have hpos := hne k hk
      simp only [List.length_append] at hlen
      omega
  · rintro ⟨hbefore, hafter⟩
    refine ⟨before, ⟨k, hk, after, rfl⟩, ?_⟩
    rintro x ⟨k', hk', y, heq⟩
    obtain ⟨t, rfl, ht⟩ := exists_keyword_eq hk
    obtain ⟨t', rfl, ht'⟩ := exists_keyword_eq hk'
    rw [List.append_assoc, List.append_assoc] at heq
    rcases List.append_eq_append_iff.1 heq with ⟨u, rfl, hu⟩ | ⟨u, rfl, hu⟩
    · cases u with
      | nil => rw [List.append_nil]
      | cons d u =>
        obtain ⟨v, -, rfl⟩ := exists_append_of_append_eq ht (List.cons.inj hu).2
        exact absurd ⟨v, y, by simp⟩ (hafter _ hk')
    · cases u with
      | nil => rw [List.append_nil]
      | cons d u =>
        obtain ⟨rfl, hrest⟩ := List.cons.inj hu
        obtain ⟨v, rfl, -⟩ := exists_append_of_append_eq ht' hrest
        exact absurd ⟨x, v, by simp⟩ (hbefore _ hk')

/-- There are two parts exactly when there is one keyword. -/
theorem count_eq_two_iff {s : Text} : count s = 2 ↔ HasOneKeyword s := by
  cases hfound : find? afterKeyword? s with
  | none =>
    rw [count, pieces, splitAll_of_find?_eq_none hfound]
    refine iff_of_false (by simp) ?_
    rintro ⟨before, ⟨k, hk, after, rfl⟩, -⟩
    exact find?_afterKeyword?_eq_none_iff.1 hfound k hk ⟨before, after, rfl⟩
  | some found =>
    obtain ⟨before, after⟩ := found
    obtain ⟨k, hk, rfl, hbefore⟩ := find?_afterKeyword?_eq_some.1 hfound
    rw [hasOneKeyword_append_iff hk, and_iff_right hbefore, ← find?_afterKeyword?_eq_none_iff,
      count, pieces, splitAll_of_find?_eq_some consumes_afterKeyword? hfound, List.length_cons]
    cases hnext : find? afterKeyword? after with
    | none => rw [splitAll_of_find?_eq_none hnext]; simp
    | some found =>
      obtain ⟨between, rest⟩ := found
      rw [splitAll_of_find?_eq_some consumes_afterKeyword? hnext, List.length_cons]
      have hpos := List.length_pos_iff.2 (splitAll_ne_nil afterKeyword? rest)
      refine iff_of_false (by omega) (by simp)

instance (s : Text) : Decidable (HasOneKeyword s) := decidable_of_iff _ count_eq_two_iff

end Section
end StyleScope
