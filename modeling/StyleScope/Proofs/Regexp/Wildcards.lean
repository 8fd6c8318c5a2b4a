import StyleScope.Proofs.Pattern.GlobMatching
import StyleScope.Regexp.Simplify

/-!
# Adjacent wildcards

Collapsing keeps the last wildcard of every run.  Two texts that collapse to the same
text can replace each other inside a longer one before it is collapsed, and a glob
matches what it matches collapsed.
-/

namespace StyleScope
namespace Regexp

open Text

theorem isWildcard_iff {c : Char} : isWildcard c = true ↔ c ∈ ['*', '?'] := by
  simp [isWildcard]

def startsWild (s : Text) : Bool := s.head?.any isWildcard

theorem collapseWildcards_cons (c : Char) (s : Text) :
    collapseWildcards (c :: s) =
      if isWildcard c && startsWild s then collapseWildcards s else c :: collapseWildcards s := by
  cases s with
  | nil => simp [collapseWildcards, startsWild]
  | cons d s => rfl

theorem startsWild_collapse (s : Text) : startsWild (collapseWildcards s) = startsWild s := by
  induction s with
  | nil => rfl
  | cons c s ih =>
    rw [collapseWildcards_cons]
    split
    · next h =>
      rw [Bool.and_eq_true] at h
      rw [ih, h.2]
      exact h.1.symm
    · rfl

theorem startsWild_eq_of_collapse_eq {s t : Text}
    (h : collapseWildcards s = collapseWildcards t) : startsWild s = startsWild t := by
  rw [← startsWild_collapse s, h, startsWild_collapse]

/-- A part may be exchanged for one that collapses alike. -/
theorem collapse_append_congr_right (s : Text) {t t' : Text}
    (h : collapseWildcards t = collapseWildcards t') :
    collapseWildcards (s ++ t) = collapseWildcards (s ++ t') := by
  induction s with
  | nil => exact h
  | cons c s ih =>
    rw [List.cons_append, List.cons_append, collapseWildcards_cons, collapseWildcards_cons,
      startsWild_eq_of_collapse_eq ih, ih]

theorem collapse_collapse_append (s t : Text) :
    collapseWildcards (collapseWildcards s ++ t) = collapseWildcards (s ++ t) := by
  induction s with
  | nil => rfl
  | cons c s ih =>
    rw [collapseWildcards_cons, List.cons_append, collapseWildcards_cons c (s ++ t)]
    by_cases hc : isWildcard c && startsWild s
    · have hst : startsWild (s ++ t) = true := by
        rw [Bool.and_eq_true] at hc
        cases s with
        | nil => exact absurd hc.2 Bool.false_ne_true
        | cons d s => exact hc.2
      rw [if_pos hc, ih, hst, Bool.and_true, if_pos (Bool.and_eq_true _ _ ▸ hc).1]
    · rw [if_neg hc, List.cons_append, collapseWildcards_cons, ih, startsWild_eq_of_collapse_eq ih]

theorem collapse_eq_self {s : Text} (h : ∀ c ∈ s, isWildcard c = false) :
    collapseWildcards s = s := by
  induction s with
  | nil => rfl
  | cons c s ih =>
    rw [collapseWildcards_cons, h c List.mem_cons_self,
      ih fun d hd => h d (List.mem_cons_of_mem c hd)]
    rfl

theorem collapse_append_of_forall_not_wild {s : Text} (h : ∀ c ∈ s, isWildcard c = false)
    (t : Text) : collapseWildcards (s ++ t) = s ++ collapseWildcards t := by
  induction s with
  | nil => rfl
  | cons c s ih =>
    rw [List.cons_append, collapseWildcards_cons, h c List.mem_cons_self,
      ih fun d hd => h d (List.mem_cons_of_mem c hd)]
    rfl

theorem mem_of_mem_collapse {c : Char} {s : Text} (h : c ∈ collapseWildcards s) : c ∈ s := by
  induction s with
  | nil => exact h
  | cons d s ih =>
    rw [collapseWildcards_cons] at h
    split at h
    · exact List.mem_cons_of_mem d (ih h)
    · exact List.mem_cons.2 ((List.mem_cons.1 h).imp_right ih)

theorem mem_collapse_of_not_wild {c : Char} (hc : isWildcard c = false) {s : Text} (h : c ∈ s) :
    c ∈ collapseWildcards s := by
  induction s with
  | nil => exact h
  | cons d s ih =>
    rw [collapseWildcards_cons]
    rcases List.mem_cons.1 h with rfl | h
    · rw [hc]
      exact List.mem_cons_self
    · split
      · exact ih h
      · exact List.mem_cons_of_mem d (ih h)

/-- Where there are wildcards, one of them is left. -/
theorem exists_wild_mem_collapse {c : Char} (hc : isWildcard c = true) {s : Text} (h : c ∈ s) :
    ∃ d ∈ collapseWildcards s, isWildcard d = true := by
  induction s generalizing c with
  | nil => exact absurd h List.not_mem_nil
  | cons e s ih =>
    rw [collapseWildcards_cons]
    split
    · next hwild =>
      rw [Bool.and_eq_true] at hwild
      cases s with
      | nil => exact absurd hwild.2 Bool.false_ne_true
      | cons f s => exact ih hwild.2 List.mem_cons_self
    · rcases List.mem_cons.1 h with rfl | hmem
      · exact ⟨c, List.mem_cons_self, hc⟩
      · obtain ⟨d, hd, hwild⟩ := ih hc hmem
        exact ⟨d, List.mem_cons_of_mem e hd, hwild⟩

/-- Collapsing takes wildcards only. -/
theorem countP_collapse (s : Text) :
    (collapseWildcards s).countP (!isWildcard ·) = s.countP (!isWildcard ·) := by
  induction s with
  | nil => rfl
  | cons c s ih =>
    rw [collapseWildcards_cons, List.countP_cons]
    split
    · next h =>
      rw [Bool.and_eq_true] at h
      rw [ih, h.1]
      rfl
    · rw [List.countP_cons, ih]

/-- The last wildcard of a run is there to stay. -/
theorem mem_collapse_append_cons {c : Char} (s : Text) {t : Text} (ht : startsWild t = false) :
    c ∈ collapseWildcards (s ++ c :: t) := by
  induction s with
  | nil =>
    rw [List.nil_append, collapseWildcards_cons, ht, Bool.and_false]
    exact List.mem_cons_self
  | cons d s ih =>
    rw [List.cons_append, collapseWildcards_cons]
    split
    · exact ih
    · exact List.mem_cons_of_mem d ih

/-- Collapsing a glob keeps what it matches. -/
theorem matches_collapse_iff {glob : Text} (h : '?' ∉ glob) {s : Text} :
    Glob.Matches (collapseWildcards glob) s ↔ Glob.Matches glob s := by
  induction glob generalizing s with
  | nil => rfl
  | cons c glob ih =>
    rw [List.mem_cons, not_or] at h
    rw [collapseWildcards_cons]
    split
    · next hwild =>
      rw [Bool.and_eq_true] at hwild
      have hc : c = '*' := by
        have hor : c = '*' ∨ c = '?' := by simpa [isWildcard] using hwild.1
        exact hor.resolve_right (Ne.symm h.1)
      cases glob with
      | nil => exact absurd hwild.2 Bool.false_ne_true
      | cons d glob =>
        have hd : d = '*' := by
          have hor : d = '*' ∨ d = '?' := by simpa [startsWild, isWildcard] using hwild.2
          refine hor.resolve_right fun hd => ?_
          exact absurd (hd ▸ List.mem_cons_self) h.2
        rw [ih h.2, hc, hd, Glob.matches_star_star_iff]
    · by_cases hc : c = '*'
      · rw [hc, Glob.matches_star_iff, Glob.matches_star_iff]
        simp only [ih h.2]
      · rw [Glob.matches_cons_iff hc, Glob.matches_cons_iff hc]
        simp only [ih h.2]

end Regexp
end StyleScope
