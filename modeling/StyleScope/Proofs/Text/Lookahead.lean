import StyleScope.Text.Basic

/-!
# What comes next behind a parenthesis

Two scanners decide at a `)` by what comes behind it, blanks aside: a `{` ends a list of
calls, and a comma separates them.  Other characters cut a text in two that can be searched
on their own for such a place (`Text.closesBefore_append_cons_iff`).
-/

namespace StyleScope
namespace Text

variable {mark c : Char} {s t : Text}

theorem isBlank_of_mem (h : allBlank s = true) (hc : c ∈ s) : isBlank c = true :=
  List.all_eq_true.1 h c hc

/-- The text goes on, blanks aside, with `mark`. -/
def ComesNext (mark : Char) (s : Text) : Prop :=
  ∃ blanks rest, s = blanks ++ mark :: rest ∧ allBlank blanks = true

/-- A closing parenthesis stands somewhere in the text, and `mark` comes next. -/
def ClosesBefore (mark : Char) (s : Text) : Prop := ∃ x y, s = x ++ ')' :: y ∧ ComesNext mark y

theorem not_comesNext_nil : ¬ ComesNext mark [] := by
  rintro ⟨blanks, rest, h, -⟩
  exact absurd h.symm (by simp)

theorem comesNext_cons_iff :
    ComesNext mark (c :: s) ↔ c = mark ∨ isBlank c = true ∧ ComesNext mark s := by
  constructor
  · rintro ⟨blanks, rest, h, hblanks⟩
    cases blanks with
    | nil => exact Or.inl (List.cons.inj h).1
    | cons b blanks =>
      obtain ⟨rfl, rfl⟩ := List.cons.inj h
      rw [allBlank_cons_iff] at hblanks
      exact Or.inr ⟨hblanks.1, blanks, rest, rfl, hblanks.2⟩
  · rintro (rfl | ⟨hc, blanks, rest, rfl, hblanks⟩)
    · exact ⟨[], s, rfl, rfl⟩
    · exact ⟨c :: blanks, rest, rfl, allBlank_cons_iff.2 ⟨hc, hblanks⟩⟩

instance decidableComesNext (mark : Char) : (s : Text) → Decidable (ComesNext mark s)
  | [] => isFalse not_comesNext_nil
  | _ :: s =>
    haveI := decidableComesNext mark s
    decidable_of_iff _ comesNext_cons_iff.symm

theorem not_closesBefore_nil : ¬ ClosesBefore mark [] := by
  rintro ⟨x, y, h, -⟩
  exact absurd h.symm (by simp)

theorem closesBefore_cons_iff :
    ClosesBefore mark (c :: s) ↔ c = ')' ∧ ComesNext mark s ∨ ClosesBefore mark s := by
  constructor
  · rintro ⟨x, y, h, hnext⟩
    cases x with
    | nil =>
      obtain ⟨rfl, rfl⟩ := List.cons.inj h
      exact Or.inl ⟨rfl, hnext⟩
    | cons d x => exact Or.inr ⟨x, y, (List.cons.inj h).2, hnext⟩
  · rintro (⟨rfl, hnext⟩ | ⟨x, y, rfl, hnext⟩)
    · exact ⟨[], s, rfl, hnext⟩
    · exact ⟨c :: x, y, rfl, hnext⟩

instance decidableClosesBefore (mark : Char) : (s : Text) → Decidable (ClosesBefore mark s)
  | [] => isFalse not_closesBefore_nil
  | _ :: s =>
    haveI := decidableClosesBefore mark s
    decidable_of_iff _ closesBefore_cons_iff.symm

theorem comesNext_append_cons_iff (hc : isBlank c = false) (hmark : c ≠ mark) :
    ComesNext mark (s ++ c :: t) ↔ ComesNext mark s := by
  induction s with
  | nil =>
    rw [List.nil_append, comesNext_cons_iff, hc]
    exact iff_of_false (by simp [hmark]) not_comesNext_nil
  | cons d s ih => rw [List.cons_append, comesNext_cons_iff, comesNext_cons_iff, ih]

/-- Nothing is seen across a character that is neither blank, nor looked for. -/
theorem closesBefore_append_cons_iff (hc : isBlank c = false) (hclose : c ≠ ')')
    (hmark : c ≠ mark) :
    ClosesBefore mark (s ++ c :: t) ↔ ClosesBefore mark s ∨ ClosesBefore mark t := by
  induction s with
  | nil =>
    rw [List.nil_append, closesBefore_cons_iff]
    simp [hclose, not_closesBefore_nil]
  | cons d s ih =>
    rw [List.cons_append, closesBefore_cons_iff, closesBefore_cons_iff, ih,
      comesNext_append_cons_iff hc hmark, or_assoc]

theorem closesBefore_append (h : ')' ∉ s) : ClosesBefore mark (s ++ t) ↔ ClosesBefore mark t := by
  induction s with
  | nil => rfl
  | cons d s ih =>
    rw [List.mem_cons, not_or] at h
    rw [List.cons_append, closesBefore_cons_iff, ih h.2]
    simp [Ne.symm h.1]

theorem comesNext_append_of_allBlank (ht : allBlank t = true) (hmark : isBlank mark = false) :
    ComesNext mark (s ++ t) ↔ ComesNext mark s := by
  induction s with
  | nil =>
    refine iff_of_false ?_ not_comesNext_nil
    rintro ⟨blanks, rest, rfl, -⟩
    have hblank := isBlank_of_mem ht (List.mem_append_right blanks List.mem_cons_self)
    exact Bool.false_ne_true (hmark.symm.trans hblank)
  | cons d s ih => rw [List.cons_append, comesNext_cons_iff, comesNext_cons_iff, ih]

/-- Blanks at the end decide nothing. -/
theorem closesBefore_append_of_allBlank (ht : allBlank t = true) (hmark : isBlank mark = false) :
    ClosesBefore mark (s ++ t) ↔ ClosesBefore mark s := by
  induction s with
  | nil =>
    refine iff_of_false ?_ not_closesBefore_nil
    rintro ⟨x, y, rfl, -⟩
    have hblank := isBlank_of_mem ht (List.mem_append_right x List.mem_cons_self)
    exact absurd hblank (by decide)
  | cons d s ih =>
    rw [List.cons_append, closesBefore_cons_iff, closesBefore_cons_iff, ih,
      comesNext_append_of_allBlank ht hmark]

theorem closesBefore_append_close (hmark : ')' ≠ mark) :
    ClosesBefore mark (s ++ [')']) ↔ ClosesBefore mark s := by
  induction s with
  | nil =>
    rw [List.nil_append, closesBefore_cons_iff]
    simp [not_comesNext_nil, not_closesBefore_nil]
  | cons d s ih =>
    rw [List.cons_append, closesBefore_cons_iff, closesBefore_cons_iff, ih,
      comesNext_append_cons_iff (by decide) hmark]

end Text
end StyleScope
