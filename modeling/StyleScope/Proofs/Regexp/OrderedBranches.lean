import Mathlib.Algebra.BigOperators.Group.List.Basic
import Mathlib.Data.List.Forall2
import StyleScope.Proofs.Regexp.Expansion

/-!
# The order of the branches

A text with groups of alternatives has one branch for every tuple of indices, where the
first five groups take part and all others stay as they are written.  The branches come in
the lexicographic order of the tuples: the choice at the last of those groups changes first.
If there are more than 256 tuples, the text has no branches at all
(`Choice.expand_eq_map_chosen`).
-/

namespace StyleScope
namespace Regexp

open Text Nested

/-! ## Tuples of indices -/

/-- The tuples whose entries are below the bounds, in lexicographic order. -/
def indexTuples : List Nat → List (List Nat)
  | [] => [[]]
  | n :: ns => (List.range n).flatMap fun i => (indexTuples ns).map (i :: ·)

theorem mem_indexTuples {is ns : List Nat} :
    is ∈ indexTuples ns ↔ List.Forall₂ (· < ·) is ns := by
  induction ns generalizing is with
  | nil => rw [indexTuples, List.mem_singleton, List.forall₂_nil_right_iff]
  | cons n ns ih =>
    rw [indexTuples, List.mem_flatMap, List.forall₂_cons_right_iff]
    constructor
    · rintro ⟨i, hi, his⟩
      obtain ⟨js, hjs, rfl⟩ := List.mem_map.1 his
      exact ⟨i, js, List.mem_range.1 hi, ih.1 hjs, rfl⟩
    · rintro ⟨i, js, hi, hjs, rfl⟩
      exact ⟨i, List.mem_range.2 hi, List.mem_map_of_mem (ih.2 hjs)⟩

theorem length_indexTuples (ns : List Nat) : (indexTuples ns).length = ns.prod := by
  induction ns with
  | nil => rfl
  | cons n ns ih =>
    rw [indexTuples, List.prod_cons, List.length_flatMap]
    simp [ih]

theorem pairwise_indexTuples (ns : List Nat) : (indexTuples ns).Pairwise (· < ·) := by
  induction ns with
  | nil => exact List.pairwise_singleton _ _
  | cons n ns ih =>
    rw [indexTuples, List.pairwise_flatMap]
    constructor
    · -- Tuples that start alike are compared behind the start.
      intro i _
      rw [List.pairwise_map]
      exact ih.imp fun h => List.cons_lt_cons_iff.2 (Or.inr ⟨rfl, h⟩)
    · refine List.pairwise_lt_range.imp fun hij a ha b hb => ?_
      obtain ⟨x, -, rfl⟩ := List.mem_map.1 ha
      obtain ⟨y, -, rfl⟩ := List.mem_map.1 hb
      exact List.cons_lt_cons_iff.2 (Or.inl hij)

/-! ## Groups of alternatives -/

/-- A group of alternatives, and the text between it and the next group. -/
structure Choice where
  words : List Text
  after : Text

namespace Choice

def text (g : Choice) : Text := '(' :: (List.intercalate ['|'] g.words ++ ')' :: g.after)

/-- There are alternatives to choose from, on one line and without structure, and the text
behind the group has no parentheses. -/
structure WellFormed (g : Choice) : Prop where
  two_le : 2 ≤ g.words.length
  words : ∀ w ∈ g.words, w ≠ [] ∧ ∀ c ∈ w, c ∉ ['(', ')', '|', '\n']
  after : '(' ∉ g.after ∧ ')' ∉ g.after

/-- The text in which the first groups, as many as there are indices, give way to the
alternatives that the indices name. -/
def chosen : List Choice → List Nat → Text
  | g :: gs, i :: is => g.words.getD i [] ++ (g.after ++ chosen gs is)
  | gs, _ => gs.flatMap text

def counts (n : Nat) (gs : List Choice) : List Nat := (gs.take n).map (·.words.length)

def pieces (g : Choice) : List Piece := .group g.words :: g.after.map .char

variable {g : Choice} {gs : List Choice} {front : Text}

theorem sequenceText_flatMap_pieces (gs : List Choice) :
    Piece.sequenceText (gs.flatMap pieces) = gs.flatMap text := by
  rw [Piece.sequenceText, List.flatMap_assoc]
  refine List.flatMap_congr fun g _ => ?_
  show Piece.sequenceText g.pieces = g.text
  rw [pieces, Piece.sequenceText_cons, Piece.sequenceText_map_char, Piece.text_group_append, text]

theorem wellFormed_map_char {s : Text} (hs : '(' ∉ s ∧ ')' ∉ s) :
    ∀ p ∈ s.map Piece.char, p.WellFormed := by
  intro p hp
  obtain ⟨c, hc, rfl⟩ := List.mem_map.1 hp
  exact ⟨fun h => hs.1 (h ▸ hc), fun h => hs.2 (h ▸ hc)⟩

theorem WellFormed.pieces (h : g.WellFormed) : ∀ p ∈ g.pieces, p.WellFormed :=
  List.forall_mem_cons.2 ⟨⟨h.two_le, h.words⟩, wellFormed_map_char h.after⟩

theorem resolved_map_char_append (n : Nat) (s : Text) (ps : List Piece) :
    Piece.resolved n (s.map .char ++ ps) = (Piece.resolved n ps).map (s ++ ·) := by
  induction s with
  | nil => simp
  | cons c s ih =>
    rw [List.map_cons, List.cons_append, Piece.resolved_char, ih, joined_singleton_left,
      List.map_map]
    rfl

theorem map_getD_range (words : List Text) :
    (List.range words.length).map (words.getD · []) = words := by
  refine List.ext_getElem (by simp) fun i _ hi => ?_
  rw [List.getElem_map, List.getElem_range, List.getD_eq_getElem?_getD,
    List.getElem?_eq_getElem hi, Option.getD_some]

/-- What `n` rounds leave are the choices at the first `n` groups. -/
theorem resolved_flatMap_pieces (n : Nat) (gs : List Choice) :
    Piece.resolved n (gs.flatMap pieces) = (indexTuples (counts n gs)).map (chosen gs) := by
  induction gs generalizing n with
  | nil => cases n <;> rfl
  | cons g gs ih =>
    cases n with
    | zero =>
      rw [Piece.resolved_zero, sequenceText_flatMap_pieces]
      rfl
    | succ n =>
      calc Piece.resolved (n + 1) ((g :: gs).flatMap pieces)
          = joined g.words (Piece.resolved n (g.after.map .char ++ gs.flatMap pieces)) := rfl
        _ = joined ((List.range g.words.length).map (g.words.getD · []))
              (((indexTuples (counts n gs)).map (chosen gs)).map (g.after ++ ·)) := by
          rw [resolved_map_char_append, ih, map_getD_range]
        _ = (indexTuples (g.words.length :: counts n gs)).map (chosen (g :: gs)) := by
          rw [joined, List.flatMap_map, indexTuples, List.map_flatMap]
          refine List.flatMap_congr fun i _ => ?_
          rw [List.map_map, List.map_map, List.map_map]
          rfl

/-- The branches of a text with groups are its choices at the first five groups, in the
lexicographic order of the indices, unless they are too many. -/
theorem expand_eq_map_chosen (hfront : '(' ∉ front ∧ ')' ∉ front)
    (hgs : ∀ g ∈ gs, g.WellFormed) :
    ((counts 5 gs).prod > 256 → expand (front ++ gs.flatMap text) = none) ∧
    ((counts 5 gs).prod ≤ 256 → ∃ tuples : List (List Nat),
      (∀ is, is ∈ tuples ↔ List.Forall₂ (· < ·) is (counts 5 gs)) ∧
      tuples.Pairwise (· < ·) ∧ tuples.length = (counts 5 gs).prod ∧
      expand (front ++ gs.flatMap text) = some (tuples.map fun is => front ++ chosen gs is)) := by
  have hpieces : ∀ p ∈ front.map .char ++ gs.flatMap pieces, p.WellFormed := by
    intro p hp
    rcases List.mem_append.1 hp with hp | hp
    · exact wellFormed_map_char hfront p hp
    · obtain ⟨g, hg, hp⟩ := List.mem_flatMap.1 hp
      exact (hgs g hg).pieces p hp
  have htext : Piece.sequenceText (front.map .char ++ gs.flatMap pieces) =
      front ++ gs.flatMap text := by
    rw [Piece.sequenceText, List.flatMap_append]
    show Piece.sequenceText (front.map .char) ++ Piece.sequenceText (gs.flatMap pieces) = _
    rw [Piece.sequenceText_map_char, sequenceText_flatMap_pieces]
  have hexpand : expand (front ++ gs.flatMap text) =
      if (indexTuples (counts 5 gs)).length > 256 then none
      else some ((indexTuples (counts 5 gs)).map fun is => front ++ chosen gs is) := by
    have hresolved := Piece.expand_sequenceText hpieces
    rw [htext, resolved_map_char_append, resolved_flatMap_pieces, List.length_map,
      List.length_map, List.map_map] at hresolved
    exact hresolved
  rw [length_indexTuples] at hexpand
  constructor
  · intro hmany
    rw [hexpand, if_pos hmany]
  · intro hfew
    rw [if_neg (Nat.not_lt.2 hfew)] at hexpand
    exact ⟨indexTuples (counts 5 gs), fun is => mem_indexTuples,
      pairwise_indexTuples (counts 5 gs), length_indexTuples (counts 5 gs), hexpand⟩

/-- The choice at the last group changes first. -/
example : expand "(a|b)/(c|d)".toList =
    some ["a/c".toList, "a/d".toList, "b/c".toList, "b/d".toList] := by decide

/-- Of six groups the last one stays. -/
theorem expand_eq_map_chosen_six_groups :
    let gs : List Choice := List.replicate 6 ⟨["a".toList, "b".toList], "|".toList⟩
    ('(' ∉ "x\n".toList ∧ ')' ∉ "x\n".toList) ∧ (∀ g ∈ gs, g.WellFormed) ∧
      (counts 5 gs).prod ≤ 256 ∧ ∃ tuples : List (List Nat),
        (∀ is, is ∈ tuples ↔ List.Forall₂ (· < ·) is [2, 2, 2, 2, 2]) ∧
        tuples.Pairwise (· < ·) ∧ tuples.length = 32 ∧
        expand ("x\n".toList ++ gs.flatMap text) =
          some (tuples.map fun is => "x\n".toList ++ chosen gs is) := by
  intro gs
  have hfront : '(' ∉ "x\n".toList ∧ ')' ∉ "x\n".toList := by decide
  have hgs : ∀ g ∈ gs, g.WellFormed := by
    intro g hg
    rw [List.eq_of_mem_replicate hg]
    exact ⟨by decide, by decide, by decide⟩
  have hfew : (counts 5 gs).prod ≤ 256 := by decide
  exact ⟨hfront, hgs, hfew, (expand_eq_map_chosen hfront hgs).2 hfew⟩

end Choice
end Regexp
end StyleScope
