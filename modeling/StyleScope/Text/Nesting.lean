import StyleScope.Text.Basic

/-!
# Nesting

Brackets of one kind are well nested when none is closed before it is opened and
all are closed at the end.  `depthAfter?` follows the depth through a text, and
`depthAfter?_append` lets it be followed piece by piece.
-/

namespace StyleScope
namespace Text

/-- The number of open brackets behind a text, if `depth` are open in front of it
and it never closes more than are open. -/
def depthAfter? (opening closing : Char) : Nat → Text → Option Nat
  | depth, [] => some depth
  | depth, c :: s =>
    if c = opening then depthAfter? opening closing (depth + 1) s
    else if c = closing then
      if depth = 0 then none else depthAfter? opening closing (depth - 1) s
    else depthAfter? opening closing depth s

def isNested (opening closing : Char) (s : Text) : Bool :=
  depthAfter? opening closing 0 s == some 0

theorem depthAfter?_append (opening closing : Char) (depth : Nat) (s t : Text) :
    depthAfter? opening closing depth (s ++ t) =
      (depthAfter? opening closing depth s).bind fun d => depthAfter? opening closing d t := by
  induction s generalizing depth with
  | nil => rfl
  | cons c s ih =>
    rw [List.cons_append, depthAfter?, depthAfter?]
    by_cases ho : c = opening
    · rw [if_pos ho, if_pos ho, ih]
    · rw [if_neg ho, if_neg ho]
      by_cases hc : c = closing
      · rw [if_pos hc, if_pos hc]
        by_cases hd : depth = 0
        · rw [if_pos hd, if_pos hd]
          rfl
        · rw [if_neg hd, if_neg hd, ih]
      · rw [if_neg hc, if_neg hc, ih]

/-- A text without brackets leaves the depth as it is. -/
theorem depthAfter?_of_forall_ne {opening closing : Char} {s : Text}
    (h : ∀ c ∈ s, c ≠ opening ∧ c ≠ closing) (depth : Nat) :
    depthAfter? opening closing depth s = some depth := by
  induction s with
  | nil => rfl
  | cons c s ih =>
    obtain ⟨ho, hc⟩ := h c List.mem_cons_self
    rw [depthAfter?, if_neg ho, if_neg hc]
    exact ih fun d hd => h d (List.mem_cons_of_mem c hd)

/-- Of a text that never closes more than it opens, the depth says how many more it
opens. -/
theorem count_of_depthAfter? {opening closing : Char} (hne : opening ≠ closing) {s : Text}
    {depth after : Nat} (h : depthAfter? opening closing depth s = some after) :
    depth + s.count opening = after + s.count closing := by
  induction s generalizing depth with
  | nil =>
    obtain rfl := Option.some.inj h
    rfl
  | cons c s ih =>
    rw [depthAfter?] at h
    by_cases ho : c = opening
    · rw [if_pos ho] at h
      have hs := ih h
      rw [ho, List.count_cons_self, List.count_cons_of_ne hne]
      omega
    · rw [if_neg ho] at h
      by_cases hc : c = closing
      · rw [if_pos hc] at h
        by_cases hd : depth = 0
        · rw [if_pos hd] at h
          exact absurd h (by simp)
        · rw [if_neg hd] at h
          have hs := ih h
          rw [hc, List.count_cons_self, List.count_cons_of_ne hne.symm]
          omega
      · rw [if_neg hc] at h
        rw [List.count_cons_of_ne ho, List.count_cons_of_ne hc]
        exact ih h

/-- Well nested brackets of either sort are equal in number. -/
theorem count_of_isNested {opening closing : Char} (hne : opening ≠ closing) {s : Text}
    (h : isNested opening closing s = true) : s.count opening = s.count closing := by
  rw [isNested, beq_iff_eq] at h
  have hcount := count_of_depthAfter? hne h
  omega

/-- The first bracket of a well nested text is no closing one. -/
theorem not_isNested_append_closing {opening closing : Char} (hne : opening ≠ closing)
    {s : Text} (hs : ∀ c ∈ s, c ≠ opening ∧ c ≠ closing) (t : Text) :
    isNested opening closing (s ++ closing :: t) = false := by
  rw [isNested, depthAfter?_append, depthAfter?_of_forall_ne hs, Option.bind_some, depthAfter?,
    if_neg hne.symm, if_pos rfl, if_pos rfl]
  rfl

end Text
end StyleScope
