import StyleScope.Proofs.Rule.Calls

/-!
# The pieces of a rule

A rule is cut at the first comma that comes next behind a `)`, and the rest behind that comma
is cut on its own (`splitCalls_append_comma`).  So the pieces, joined with commas, are the
rule, every piece but the last one closes at its end, and none could be cut further.  Only
one list of pieces is like that (`splitCalls_eq_iff`).
-/

namespace StyleScope
namespace Rule

open Text

variable {s p y : Text} {pieces : List Text}

def ClosesAtEnd (s : Text) : Prop := ∃ x blanks, s = x ++ ')' :: blanks ∧ allBlank blanks = true

theorem ClosesAtEnd.cons (c : Char) (h : ClosesAtEnd p) : ClosesAtEnd (c :: p) := by
  obtain ⟨x, blanks, rfl, hblanks⟩ := h
  exact ⟨c :: x, blanks, rfl, hblanks⟩

/-- A piece with nothing to cut inside ends at a comma behind a `)`. -/
theorem splitCalls_append_comma (hp : ClosesAtEnd p) (hwhole : ¬ ClosesBefore ',' p) (y : Text) :
    splitCalls (p ++ ',' :: y) = p :: splitCalls y := by
  obtain ⟨x, blanks, rfl, hblanks⟩ := hp
  rw [List.append_assoc, List.cons_append, splitCalls_append hblanks,
    splitCalls_eq_self_iff.2 hwhole]
  rfl

/-- The first comma behind a `)`. -/
theorem exists_first_cut (h : ClosesBefore ',' s) :
    ∃ p y, s = p ++ ',' :: y ∧ ClosesAtEnd p ∧ ¬ ClosesBefore ',' p := by
  induction s with
  | nil => exact absurd h not_closesBefore_nil
  | cons c s ih =>
    by_cases hcut : c = ')' ∧ ComesNext ',' s
    · obtain ⟨rfl, blanks, y, rfl, hblanks⟩ := hcut
      refine ⟨')' :: blanks, y, rfl, ⟨[], blanks, rfl, hblanks⟩, ?_⟩
      have hclose : ¬ ClosesBefore ',' [')'] := by decide
      rwa [← List.singleton_append, closesBefore_append_of_allBlank hblanks (by decide)]
    · rw [closesBefore_cons_iff] at h
      obtain ⟨p, y, rfl, hend, hwhole⟩ := ih (h.resolve_left hcut)
      refine ⟨c :: p, y, rfl, hend.cons c, ?_⟩
      rw [closesBefore_cons_iff, not_or]
      refine ⟨fun hnext => hcut ⟨hnext.1, ?_⟩, hwhole⟩
      obtain ⟨blanks, rest, rfl, hblanks⟩ := hnext.2
      exact ⟨blanks, rest ++ ',' :: y, by simp, hblanks⟩

/-- The pieces, joined with commas, are the text.  Each but the last one closes at its end, and
no comma inside a piece comes next behind a `)`. -/
structure IsSplit (s : Text) (pieces : List Text) : Prop where
  ne_nil : pieces ≠ []
  joined : List.intercalate [','] pieces = s
  closed : ∀ piece ∈ pieces.dropLast, ClosesAtEnd piece
  whole : ∀ piece ∈ pieces, ¬ ClosesBefore ',' piece

theorem IsSplit.cons (hp : ClosesAtEnd p) (hwhole : ¬ ClosesBefore ',' p) (h : IsSplit y pieces) :
    IsSplit (p ++ ',' :: y) (p :: pieces) := by
  obtain ⟨q, more, rfl⟩ := List.exists_cons_of_ne_nil h.ne_nil
  exact
    { ne_nil := List.cons_ne_nil p _
      joined := by rw [intercalate_cons_cons, h.joined]
      closed := List.forall_mem_cons.2 ⟨hp, h.closed⟩
      whole := List.forall_mem_cons.2 ⟨hwhole, h.whole⟩ }

theorem exists_isSplit (s : Text) : ∃ pieces, IsSplit s pieces := by
  induction hn : s.length using Nat.strongRecOn generalizing s with
  | ind n ih =>
    by_cases h : ClosesBefore ',' s
    · obtain ⟨p, y, rfl, hp, hwhole⟩ := exists_first_cut h
      rw [List.length_append, List.length_cons] at hn
      obtain ⟨pieces, hpieces⟩ := ih y.length (by omega) y rfl
      exact ⟨p :: pieces, hpieces.cons hp hwhole⟩
    · exact ⟨[s], List.cons_ne_nil s [], List.intercalate_singleton, by simp, by simpa using h⟩

/-- Only one list of pieces is a split, the one that the scan makes. -/
theorem splitCalls_of_isSplit (h : IsSplit s pieces) : splitCalls s = pieces := by
  induction pieces generalizing s with
  | nil => exact absurd rfl h.ne_nil
  | cons p pieces ih =>
    obtain ⟨hwhole, hmore⟩ := List.forall_mem_cons.1 h.whole
    rw [← h.joined]
    cases pieces with
    | nil => rw [List.intercalate_singleton, splitCalls_eq_self_iff.2 hwhole]
    | cons q pieces =>
      obtain ⟨hp, hclosed⟩ := List.forall_mem_cons.1 h.closed
      rw [intercalate_cons_cons, splitCalls_append_comma hp hwhole,
        ih ⟨List.cons_ne_nil q pieces, rfl, hclosed, hmore⟩]

/-- Cutting a rule loses nothing, and the pieces are the ones between the commas that come next
behind a `)`. -/
theorem splitCalls_eq_iff : splitCalls s = pieces ↔ IsSplit s pieces := by
  constructor
  · rintro rfl
    obtain ⟨pieces, hpieces⟩ := exists_isSplit s
    rw [splitCalls_of_isSplit hpieces]
    exact hpieces
  · exact splitCalls_of_isSplit

/-- Of three commas the second one comes next behind a `)`. -/
example : splitCalls "f(\"x,y\") , g, h".toList =
    ["f(\"x,y\") ".toList, " g, h".toList] := by decide

end Rule
end StyleScope
