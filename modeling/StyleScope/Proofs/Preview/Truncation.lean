import StyleScope.Text.Scan
import StyleScope.Proofs.Text.Words

/-!
# Previews are the start of the folded text

A preview is made in one walk, which shows the ellipsis as soon as there is no room left and
the text goes on, before it is known whether anything of the rest would be shown.  A trimmed
text does not end with a blank, so wherever the walk stops something is still to be shown, and
the ellipsis always stands for it (`shown_eq`).  What the walk shows is the text with one
space for each run of blanks (`spaced`), and of a trimmed text that is its words with a space
between any two (`spaced_trim`).
-/

namespace StyleScope
namespace Preview

open Text

variable {b c : Char} {s w : Text}

/-! ## Runs of blanks -/

/-- A run of blanks, and the space that is shown for it. -/
def blankRun? (s : Text) : Option (Text × Text) := (afterBlanks? s).map fun rest => ([' '], rest)

def spaced (s : Text) : Text := substituteAll blankRun? s

theorem spaced_cons (hc : isBlank c = false) (s : Text) : spaced (c :: s) = c :: spaced s := by
  refine substituteAll_of_none ?_
  rw [blankRun?, afterBlanks?, if_neg (by simp [hc])]
  rfl

theorem spaced_cons_of_blank (hb : isBlank b = true) (s : Text) :
    spaced (b :: s) = ' ' :: spaced (s.dropWhile isBlank) := by
  have hs : s = s.takeWhile isBlank ++ s.dropWhile isBlank := List.takeWhile_append_dropWhile.symm
  have hrun : blankRun? (b :: s) = some ([' '], s.dropWhile isBlank) := by
    rw [blankRun?, afterBlanks?, if_pos hb]
    rfl
  exact substituteAll_of_some hs hrun

theorem spaced_append (hw : ∀ c ∈ w, isBlank c = false) (s : Text) :
    spaced (w ++ s) = w ++ spaced s := by
  induction w with
  | nil => rfl
  | cons c w ih =>
    obtain ⟨hc, hw⟩ := List.forall_mem_cons.1 hw
    rw [List.cons_append, spaced_cons hc, ih hw, List.cons_append]

theorem spaced_ne_nil (h : s ≠ []) : spaced s ≠ [] := by
  obtain ⟨c, s, rfl⟩ := List.exists_cons_of_ne_nil h
  by_cases hc : isBlank c = true
  · rw [spaced_cons_of_blank hc]
    exact List.cons_ne_nil _ _
  · rw [spaced_cons (by simpa using hc)]
    exact List.cons_ne_nil _ _

/-- Behind the blanks at its start, a text is its words and the spaces between them. -/
theorem spaced_dropWhile (h : EndsInk s) :
    spaced (s.dropWhile isBlank) = List.intercalate [' '] (wordList s) := by
  induction s using word_induction with
  | nil => rfl
  | blank b s hb ih =>
    rw [List.dropWhile_cons_of_pos hb, wordList_cons_of_blank hb]
    exact ih h.of_cons
  | word w hne hw =>
    obtain ⟨c, w, rfl⟩ := List.exists_cons_of_ne_nil hne
    have hspaced := spaced_append hw []
    rw [List.append_nil] at hspaced
    rw [List.dropWhile_cons_of_neg (by simp [hw c List.mem_cons_self]), hspaced,
      wordList_of_forall_not_blank hne hw, List.intercalate_singleton]
    exact List.append_nil _
  | gap w b s hne hw hb ih =>
    have hrest : EndsInk (b :: s) := h.of_suffix (List.suffix_append w _)
    have hspaced := ih hrest.of_cons
    have hdrop : s.dropWhile isBlank ≠ [] := by
      rw [← List.dropWhile_cons_of_pos hb]
      exact hrest.dropWhile_ne_nil (List.cons_ne_nil b s)
    cases hwords : wordList s with
    | nil =>
      rw [hwords] at hspaced
      exact absurd hspaced (spaced_ne_nil hdrop)
    | cons v vs =>
      obtain ⟨c, w, rfl⟩ := List.exists_cons_of_ne_nil hne
      rw [List.cons_append, List.dropWhile_cons_of_neg (by simp [hw c List.mem_cons_self]),
        ← List.cons_append, spaced_append hw, spaced_cons_of_blank hb, hspaced,
        wordList_append_cons hne hw hb, hwords, intercalate_cons_cons]

theorem spaced_trim (s : Text) : spaced (trim s) = folded s := by
  rw [← dropWhile_trim, spaced_dropWhile (endsInk_trim s), wordList_trim]
  rfl

/-! ## The walk -/

def truncated (n : Nat) (s : Text) : Text := if s.length ≤ n then s else s.take n ++ ['…']

theorem truncated_zero (h : s ≠ []) : truncated 0 s = ['…'] := by
  have hlen := List.length_pos_iff.2 h
  rw [truncated, if_neg (by omega)]
  rfl

theorem truncated_succ_cons (n : Nat) (c : Char) (s : Text) :
    truncated (n + 1) (c :: s) = c :: truncated n s := by
  unfold truncated
  rw [List.length_cons, List.take_succ_cons]
  by_cases h : s.length ≤ n
  · rw [if_pos h, if_pos (by omega)]
  · rw [if_neg h, if_neg (by omega), List.cons_append]

/-- The walk from some place on, where blanks in front are passed over if one has been shown. -/
theorem shown_eq (h : EndsInk s) (n : Nat) (afterBlank : Bool) :
    shown n afterBlank s =
      truncated n (spaced (if afterBlank then s.dropWhile isBlank else s)) := by
  induction s generalizing n afterBlank with
  | nil => cases afterBlank <;> cases n <;> rfl
  | cons c s ih =>
    cases n with
    | zero =>
      -- The walk stops here, and what is left is not only blanks.
      have hne : (if afterBlank then (c :: s).dropWhile isBlank else c :: s) ≠ [] := by
        split
        · exact h.dropWhile_ne_nil (List.cons_ne_nil c s)
        · exact List.cons_ne_nil c s
      rw [truncated_zero (spaced_ne_nil hne)]
      rfl
    | succ n =>
      by_cases hc : isBlank c = true
      · cases afterBlank with
        | true =>
          have hstep : shown (n + 1) true (c :: s) = shown (n + 1) true s := by simp [shown, hc]
          rw [hstep, ih h.of_cons, if_pos rfl, if_pos rfl, List.dropWhile_cons_of_pos hc]
        | false =>
          have hstep : shown (n + 1) false (c :: s) = ' ' :: shown n true s := by simp [shown, hc]
          rw [hstep, ih h.of_cons, if_pos rfl, if_neg (by decide), spaced_cons_of_blank hc,
            truncated_succ_cons]
      · have hstep : shown (n + 1) afterBlank (c :: s) = c :: shown n false s := by
          simp [shown, hc]
        have hself : (if afterBlank then (c :: s).dropWhile isBlank else c :: s) = c :: s := by
          rw [List.dropWhile_cons_of_neg hc, ite_self]
        rw [hstep, ih h.of_cons, if_neg (by decide), hself, spaced_cons (by simpa using hc),
          truncated_succ_cons]

theorem ellipsis_mem_truncated_iff (n : Nat) (s : Text) :
    '…' ∈ truncated n s ↔ '…' ∈ s.take n ∨ s.take n ≠ s := by
  rw [truncated]
  split
  · next hle =>
    rw [List.take_of_length_le hle]
    exact (or_iff_left fun hne => hne rfl).symm
  · next hlt =>
    refine iff_of_true (by simp) (Or.inr fun heq => ?_)
    have hlen := congrArg List.length heq
    rw [List.length_take] at hlen
    omega

/-- A preview is the text without the blanks around it and with one space for each run of blanks,
which are its words with spaces between them, cut off behind `n` characters.  An ellipsis stands
where something has been cut off. -/
theorem compact_eq_truncated_folded (s : Text) (n : Nat) :
    compact s n = truncated n (folded s) ∧ folded s = spaced (trim s) ∧
      ('…' ∈ compact s n ↔ '…' ∈ (folded s).take n ∨ (folded s).take n ≠ folded s) := by
  have hcompact : compact s n = truncated n (folded s) := by
    rw [compact, shown_eq (endsInk_trim s), if_neg (by decide), spaced_trim]
  refine ⟨hcompact, (spaced_trim s).symm, ?_⟩
  rw [hcompact]
  exact ellipsis_mem_truncated_iff n (folded s)

/-- The limit falls inside a run of blanks, and a word follows. -/
example : compact " a \n b ".toList 2 = "a …".toList := by decide

end Preview
end StyleScope
