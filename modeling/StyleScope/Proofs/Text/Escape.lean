import StyleScope.Text.Basic

/-!
# Escaped marks

A backslash in front of every character of some kind, and what can be said of such a text:
its characters, its length, and where a text without marks may stand in it.
-/

namespace StyleScope
namespace Text

def escape (marks word : Text) : Text :=
  word.flatMap fun c => if c ∈ marks then ['\\', c] else [c]

variable {marks word : Text} {c : Char}

theorem escape_cons_of_mem (hc : c ∈ marks) (word : Text) :
    escape marks (c :: word) = '\\' :: c :: escape marks word := by
  rw [escape, List.flatMap_cons, if_pos hc]
  rfl

theorem escape_cons_of_not_mem (hc : c ∉ marks) (word : Text) :
    escape marks (c :: word) = c :: escape marks word := by
  rw [escape, List.flatMap_cons, if_neg hc]
  rfl

theorem escape_append (marks v w : Text) :
    escape marks (v ++ w) = escape marks v ++ escape marks w :=
  List.flatMap_append

theorem mem_escape (h : c ∈ escape marks word) : c = '\\' ∨ c ∈ word := by
  obtain ⟨d, hd, hc⟩ := List.mem_flatMap.1 h
  split at hc
  · have hor : c = '\\' ∨ c = d := by simpa using hc
    exact hor.imp_right fun heq : c = d => heq ▸ hd
  · exact Or.inr (List.mem_singleton.1 hc ▸ hd)

theorem escape_eq_self (h : ∀ c ∈ word, c ∉ marks) : escape marks word = word := by
  induction word with
  | nil => rfl
  | cons c word ih =>
    obtain ⟨hc, hword⟩ := List.forall_mem_cons.1 h
    rw [escape_cons_of_not_mem hc, ih hword]

theorem length_le_length_escape (marks word : Text) :
    word.length ≤ (escape marks word).length := by
  induction word with
  | nil => exact Nat.le_refl 0
  | cons c word ih =>
    by_cases hc : c ∈ marks
    · rw [escape_cons_of_mem hc, List.length_cons, List.length_cons, List.length_cons]
      omega
    · rw [escape_cons_of_not_mem hc, List.length_cons, List.length_cons]
      omega

/-- A text without marks that starts an escaped text starts the text itself. -/
theorem exists_of_append_eq_escape {v rest : Text} (hv : ∀ c ∈ v, c ∉ marks ∧ c ≠ '\\')
    (h : v ++ rest = escape marks word) :
    ∃ rest', word = v ++ rest' ∧ rest = escape marks rest' := by
  induction v generalizing word with
  | nil => exact ⟨word, rfl, h⟩
  | cons x v ih =>
    obtain ⟨hx, hv⟩ := List.forall_mem_cons.1 hv
    cases word with
    | nil => exact absurd h (List.cons_ne_nil _ _)
    | cons c word =>
      by_cases hc : c ∈ marks
      · rw [escape_cons_of_mem hc] at h
        exact absurd (List.cons.inj h).1 hx.2
      · rw [escape_cons_of_not_mem hc] at h
        obtain ⟨rfl, htail⟩ := List.cons.inj h
        obtain ⟨rest', rfl, hrest⟩ := ih hv htail
        exact ⟨rest', rfl, hrest⟩

/-- A text without marks stands in an escaped text where it stands in the text itself. -/
theorem exists_of_append_append_eq_escape {v before rest : Text} (hne : v ≠ [])
    (hv : ∀ c ∈ v, c ∉ marks ∧ c ≠ '\\') (h : before ++ (v ++ rest) = escape marks word) :
    ∃ before' rest', word = before' ++ (v ++ rest') ∧ rest = escape marks rest' := by
  have hhead : ∀ c ∈ marks, ∀ t, v ++ rest ≠ c :: t := by
    intro c hc t heq
    obtain ⟨x, v', rfl⟩ := List.exists_cons_of_ne_nil hne
    obtain rfl := (List.cons.inj heq).1
    exact (hv x List.mem_cons_self).1 hc
  induction word generalizing before with
  | nil => exact absurd (List.append_eq_nil_iff.1 (List.append_eq_nil_iff.1 h).2).1 hne
  | cons c word ih =>
    cases before with
    | nil =>
      obtain ⟨rest', hword, hrest⟩ := exists_of_append_eq_escape hv h
      exact ⟨[], rest', hword, hrest⟩
    | cons b before =>
      by_cases hc : c ∈ marks
      · -- The escape in front of a mark is no place for the text to start behind.
        rw [escape_cons_of_mem hc] at h
        obtain ⟨-, htail⟩ := List.cons.inj h
        cases before with
        | nil => exact absurd htail (hhead c hc _)
        | cons d before =>
          obtain ⟨before', rest', rfl, hrest⟩ := ih (List.cons.inj htail).2
          exact ⟨c :: before', rest', rfl, hrest⟩
      · rw [escape_cons_of_not_mem hc] at h
        obtain ⟨before', rest', rfl, hrest⟩ := ih (List.cons.inj h).2
        exact ⟨c :: before', rest', rfl, hrest⟩

end Text
end StyleScope
