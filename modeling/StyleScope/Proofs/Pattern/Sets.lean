import StyleScope.Pattern.Basic

/-!
# Membership in pattern sets

What adding, promoting and collapsing do to a pattern set, one pattern at a time.
-/

namespace StyleScope
namespace PatternSet

theorem mem_matchPatterns_add {set : PatternSet} {scope : Scope} {p : Text} :
    p ∈ (set.add scope).matchPatterns ↔ p ∈ set.matchPatterns ∨ Scope.byMatch p = scope := by
  cases scope with
  | byMatch q =>
    rw [add, UniqueList.mem_insert, Scope.byMatch.injEq]
  | byInclude q =>
    rw [add]
    simp

theorem mem_includePatterns_add {set : PatternSet} {scope : Scope} {p : Text} :
    p ∈ (set.add scope).includePatterns ↔
      p ∈ set.includePatterns ∨ Scope.byInclude p = scope := by
  cases scope with
  | byMatch q =>
    rw [add]
    simp
  | byInclude q =>
    rw [add, UniqueList.mem_insert, Scope.byInclude.injEq]

theorem addAll_cons (set : PatternSet) (scope : Scope) (scopes : List Scope) :
    set.addAll (scope :: scopes) = (set.add scope).addAll scopes := rfl

theorem mem_matchPatterns_addAll {set : PatternSet} {scopes : List Scope} {p : Text} :
    p ∈ (set.addAll scopes).matchPatterns ↔
      p ∈ set.matchPatterns ∨ Scope.byMatch p ∈ scopes := by
  induction scopes generalizing set with
  | nil => simp [addAll]
  | cons scope scopes ih =>
    rw [addAll_cons, ih, mem_matchPatterns_add, List.mem_cons, or_assoc]

theorem mem_includePatterns_addAll {set : PatternSet} {scopes : List Scope} {p : Text} :
    p ∈ (set.addAll scopes).includePatterns ↔
      p ∈ set.includePatterns ∨ Scope.byInclude p ∈ scopes := by
  induction scopes generalizing set with
  | nil => simp [addAll]
  | cons scope scopes ih =>
    rw [addAll_cons, ih, mem_includePatterns_add, List.mem_cons, or_assoc]

theorem not_mem_empty (p : Text) : p ∉ (∅ : UniqueList Text) :=
  List.not_mem_nil

theorem mem_matchPatterns_promote {toMatch? : Text → Option Text} {set : PatternSet} {p : Text} :
    p ∈ (set.promote toMatch?).matchPatterns ↔
      p ∈ set.matchPatterns ∨ ∃ q ∈ set.includePatterns, toMatch? q = some p := by
  rw [promote, UniqueList.mem_insertAll, List.mem_filterMap]
  exact Iff.rfl

theorem mem_includePatterns_promote {toMatch? : Text → Option Text} {set : PatternSet}
    {p : Text} :
    p ∈ (set.promote toMatch?).includePatterns ↔
      p ∈ set.includePatterns ∧ toMatch? p = none := by
  rw [promote, UniqueList.mem_def, UniqueList.toList_filter, List.mem_filter,
    Option.isNone_iff_eq_none]
  exact Iff.rfl

theorem hasCatchAll_iff {set : PatternSet} :
    set.hasCatchAll = true ↔ Pattern.catchAll ∈ set.matchPatterns := by
  rw [hasCatchAll, decide_eq_true_eq]

theorem collapse_of_mem {set : PatternSet} (h : Pattern.catchAll ∈ set.matchPatterns) :
    set.collapse = catchAll :=
  if_pos (hasCatchAll_iff.2 h)

theorem collapse_of_not_mem {set : PatternSet} (h : Pattern.catchAll ∉ set.matchPatterns) :
    set.collapse = set := by
  rw [collapse, if_neg (mt hasCatchAll_iff.1 h)]

end PatternSet
end StyleScope
