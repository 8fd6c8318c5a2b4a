import Mathlib.Data.List.Basic
import Mathlib.Data.List.Induction
import StyleScope.Proofs.Pattern.Sets

/-!
# The order of the patterns in a set

A set is built up by adding patterns, by promoting globs and by letting the pattern for
every web address displace the rest, in any order and any number of times.  Beside the
set a history is kept, which notes every pattern that goes in, also one that is there
already, and strikes out what is taken away.  A set lists what its history notes, each
pattern once and the one noted first in front: `PatternSet.run_eq_ofHistory`, one
operation at a time, and `PatternSet.run_listsFirst` for whole runs.
-/

namespace StyleScope

namespace UniqueList

variable {α : Type} [DecidableEq α] {log l : List α} {x : α}

/-! ## First occurrences -/

/-- `l` has the elements of `log`, and those that come first in `log` come first in `l`. -/
structure ListsFirst (log l : List α) : Prop where
  mem_iff : ∀ x, x ∈ l ↔ x ∈ log
  pairwise : l.Pairwise fun x y => log.idxOf x < log.idxOf y

/-- Whatever is listed by its first occurrence is listed once. -/
theorem ListsFirst.nodup (h : ListsFirst log l) : l.Nodup := by
  refine h.pairwise.imp ?_
  rintro x _ hlt rfl
  exact Nat.lt_irrefl _ hlt

theorem listsFirst_nil : ListsFirst ([] : List α) [] :=
  ⟨fun _ => Iff.rfl, List.Pairwise.nil⟩

/-- Elements further on do not move the first occurrences. -/
theorem ListsFirst.pairwise_append (h : ListsFirst log l) (more : List α) :
    l.Pairwise fun x y => (log ++ more).idxOf x < (log ++ more).idxOf y := by
  refine h.pairwise.imp_of_mem fun hx hy hlt => ?_
  rwa [List.idxOf_append_of_mem ((h.mem_iff _).1 hx), List.idxOf_append_of_mem ((h.mem_iff _).1 hy)]

/-- An element that occurs once more changes nothing. -/
theorem ListsFirst.append_of_mem (h : ListsFirst log l) (hx : x ∈ log) :
    ListsFirst (log ++ [x]) l where
  mem_iff y := by
    rw [h.mem_iff, List.mem_append, List.mem_singleton]
    exact ⟨Or.inl, fun hy => hy.elim id fun heq => heq ▸ hx⟩
  pairwise := h.pairwise_append [x]

/-- A new element comes last. -/
theorem ListsFirst.append_of_not_mem (h : ListsFirst log l) (hx : x ∉ log) :
    ListsFirst (log ++ [x]) (l ++ [x]) where
  mem_iff y := by rw [List.mem_append, List.mem_append, h.mem_iff]
  pairwise := by
    refine List.pairwise_append.2 ⟨h.pairwise_append [x], List.pairwise_singleton _ x, ?_⟩
    intro y hy z hz
    obtain rfl := List.mem_singleton.1 hz
    have hlog : y ∈ log := (h.mem_iff y).1 hy
    rw [List.idxOf_append_of_mem hlog, List.idxOf_append_of_notMem hx]
    exact Nat.lt_add_right _ (List.idxOf_lt_length_of_mem hlog)

/-! ## Inserting and filtering -/

theorem insertAll_append (l : UniqueList α) (xs ys : List α) :
    l.insertAll (xs ++ ys) = (l.insertAll xs).insertAll ys :=
  List.foldl_append

theorem insert_of_mem {l : UniqueList α} (h : x ∈ l) : l.insert x = l := dif_pos h

theorem insertAll_of_mem {l : UniqueList α} {xs : List α} (h : ∀ x ∈ xs, x ∈ l) :
    l.insertAll xs = l := by
  induction xs with
  | nil => rfl
  | cons x xs ih =>
    show (l.insert x).insertAll xs = l
    rw [insert_of_mem (h x List.mem_cons_self)]
    exact ih fun y hy => h y (List.mem_cons_of_mem x hy)

/-- The elements that are not there yet come behind the others, in their order. -/
theorem exists_toList_insertAll (l : UniqueList α) (xs : List α) :
    ∃ new, (l.insertAll xs).toList = l.toList ++ new ∧
      ListsFirst (xs.filter fun x => x ∉ l) new := by
  induction xs using List.reverseRecOn with
  | nil => exact ⟨[], (List.append_nil _).symm, listsFirst_nil⟩
  | append_singleton xs x ih =>
    obtain ⟨new, hnew, hfirst⟩ := ih
    have hinsert : (l.insertAll (xs ++ [x])).toList =
        if x ∈ l.toList ++ new then l.toList ++ new else l.toList ++ new ++ [x] := by
      rw [insertAll_append, ← hnew]
      exact toList_insert (l.insertAll xs) x
    rw [hinsert, List.filter_append]
    by_cases hl : x ∈ l.toList
    · refine ⟨new, if_pos (List.mem_append_left new hl), ?_⟩
      rw [List.filter_cons_of_neg (by simpa [mem_def] using hl), List.filter_nil, List.append_nil]
      exact hfirst
    · rw [List.filter_cons_of_pos (by simpa [mem_def] using hl), List.filter_nil]
      by_cases hx : x ∈ new
      · exact ⟨new, if_pos (List.mem_append_right _ hx),
          hfirst.append_of_mem ((hfirst.mem_iff x).1 hx)⟩
      · refine ⟨new ++ [x], ?_, hfirst.append_of_not_mem (mt (hfirst.mem_iff x).2 hx)⟩
        rw [if_neg (by simp [hl, hx]), List.append_assoc]

theorem listsFirst_ofList (xs : List α) : ListsFirst xs (ofList xs).toList := by
  obtain ⟨new, hnew, hfirst⟩ := exists_toList_insertAll (∅ : UniqueList α) xs
  rw [show (ofList xs).toList = new from hnew]
  have hall : (xs.filter fun x => x ∉ (∅ : UniqueList α)) = xs :=
    List.filter_eq_self.2 fun x _ => by simp [mem_def, toList_empty]
  rwa [hall] at hfirst

theorem mem_ofList {xs : List α} : x ∈ ofList xs ↔ x ∈ xs := (listsFirst_ofList xs).mem_iff x

theorem ofList_append (xs ys : List α) : ofList (xs ++ ys) = (ofList xs).insertAll ys :=
  insertAll_append ∅ xs ys

theorem ofList_concat (xs : List α) (x : α) : ofList (xs ++ [x]) = (ofList xs).insert x :=
  insertAll_append ∅ xs [x]

theorem filter_insert (p : α → Bool) (l : UniqueList α) (x : α) :
    (l.insert x).filter p = if p x then (l.filter p).insert x else l.filter p := by
  refine ext_toList ?_
  by_cases hx : x ∈ l.toList
  · rw [insert_of_mem hx]
    split
    · next hp => rw [insert_of_mem (List.mem_filter.2 ⟨hx, hp⟩)]
    · rfl
  · rw [toList_filter, toList_insert, if_neg hx, List.filter_append, List.filter_cons,
      List.filter_nil]
    split
    · next hp =>
      have hnot : x ∉ (l.filter p).toList := fun hmem => hx (List.mem_filter.1 hmem).1
      rw [toList_insert, if_neg hnot, toList_filter]
    · exact List.append_nil _

/-- What a filter takes out may as well never have been inserted. -/
theorem filter_ofList (p : α → Bool) (xs : List α) :
    (ofList xs).filter p = ofList (xs.filter p) := by
  induction xs using List.reverseRecOn with
  | nil => rfl
  | append_singleton xs x ih =>
    rw [ofList_concat, filter_insert, ih, List.filter_append, List.filter_cons, List.filter_nil]
    split
    · exact (ofList_concat _ x).symm
    · rw [List.append_nil]

/-- The images of elements that were inserted before are there already. -/
theorem insertAll_filterMap_ofList {β : Type} [DecidableEq β] (f : α → Option β)
    (l : UniqueList β) (xs : List α) :
    l.insertAll ((ofList xs).toList.filterMap f) = l.insertAll (xs.filterMap f) := by
  induction xs using List.reverseRecOn with
  | nil => rfl
  | append_singleton xs x ih =>
    rw [ofList_concat, List.filterMap_append, insertAll_append, ← ih, toList_insert]
    split
    · next hx =>
      refine (insertAll_of_mem fun y hy => ?_).symm
      obtain ⟨z, hz, hzy⟩ := List.mem_filterMap.1 hy
      obtain rfl := List.mem_singleton.1 hz
      exact mem_insertAll.2 (Or.inr (List.mem_filterMap.2 ⟨z, hx, hzy⟩))
    · rw [List.filterMap_append, insertAll_append]

end UniqueList

namespace PatternSet

open UniqueList

/-! ## Operations and what they note -/

inductive Operation
  | add (scope : Scope)
  | promote (toMatch? : Text → Option Text)
  | collapse

def apply (set : PatternSet) : Operation → PatternSet
  | .add scope => set.add scope
  | .promote toMatch? => set.promote toMatch?
  | .collapse => set.collapse

def run (operations : List Operation) : PatternSet := operations.foldl apply ∅

/-- Every pattern that went into a set and was not taken out again, as often as it went in. -/
structure History where
  matchPatterns : List Text
  includePatterns : List Text

/-- What an operation adds to a history, and what it strikes out. -/
def History.note (history : History) : Operation → History
  | .add (.byMatch p) => { history with matchPatterns := history.matchPatterns ++ [p] }
  | .add (.byInclude p) => { history with includePatterns := history.includePatterns ++ [p] }
  | .promote toMatch? =>
    { matchPatterns := history.matchPatterns ++ history.includePatterns.filterMap toMatch?
      includePatterns := history.includePatterns.filter fun p => (toMatch? p).isNone }
  | .collapse =>
    if history.matchPatterns.contains Pattern.catchAll then ⟨[Pattern.catchAll], []⟩ else history

def History.of (operations : List Operation) : History := operations.foldl History.note ⟨[], []⟩

def ofHistory (history : History) : PatternSet :=
  ⟨ofList history.matchPatterns, ofList history.includePatterns⟩

theorem hasCatchAll_ofHistory {history : History} :
    (ofHistory history).hasCatchAll = true ↔
      history.matchPatterns.contains Pattern.catchAll = true := by
  rw [hasCatchAll_iff, List.contains_iff_mem]
  exact mem_ofList

/-- An operation keeps to what is noted of it. -/
theorem apply_ofHistory (history : History) (operation : Operation) :
    (ofHistory history).apply operation = ofHistory (history.note operation) := by
  cases operation with
  | add scope =>
    cases scope with
    | byMatch p =>
      rw [History.note, ofHistory, ofHistory, ofList_concat]
      rfl
    | byInclude p =>
      rw [History.note, ofHistory, ofHistory, ofList_concat]
      rfl
  | promote toMatch? =>
    show (⟨(ofList history.matchPatterns).insertAll
        ((ofList history.includePatterns).toList.filterMap toMatch?),
      (ofList history.includePatterns).filter _⟩ : PatternSet) = _
    rw [insertAll_filterMap_ofList, filter_ofList, ← ofList_append]
    rfl
  | collapse =>
    show (ofHistory history).collapse = _
    rw [collapse, History.note]
    split
    · next hall =>
      rw [if_pos (hasCatchAll_ofHistory.1 hall)]
      rfl
    · next hall => rw [if_neg (mt hasCatchAll_ofHistory.2 hall)]

/-- A set has the patterns of its history. -/
theorem run_eq_ofHistory (operations : List Operation) :
    run operations = ofHistory (History.of operations) := by
  induction operations using List.reverseRecOn with
  | nil => rfl
  | append_singleton operations operation ih =>
    rw [run, List.foldl_append, History.of, List.foldl_append]
    show (run operations).apply operation = ofHistory ((History.of operations).note operation)
    rw [ih, apply_ofHistory]

/-! ## Whole runs -/

/-- What promotion makes of a set, and how many globs it moves. -/
structure Promotes (toMatch? : Text → Option Text) (before after : PatternSet) (moved : Nat) :
    Prop where
  includePatterns : after.includePatterns.toList =
    before.includePatterns.toList.filter fun p => toMatch? p = none
  matchPatterns : ∃ new, after.matchPatterns.toList = before.matchPatterns.toList ++ new ∧
    ListsFirst ((before.includePatterns.toList.filterMap toMatch?).filter
      fun p => p ∉ before.matchPatterns) new
  moved : moved = before.includePatterns.toList.countP fun p => (toMatch? p).isSome

theorem promotes_promote (toMatch? : Text → Option Text) (set : PatternSet) :
    Promotes toMatch? set (set.promote toMatch?) (set.promotable toMatch?) where
  includePatterns := by
    show set.includePatterns.toList.filter _ = _
    refine List.filter_congr fun p _ => ?_
    cases toMatch? p <;> rfl
  matchPatterns := exists_toList_insertAll set.matchPatterns _
  moved := List.countP_eq_length_filter.symm

/-- After any operations the patterns of either kind are listed once each, in the order in
which they went in first since they were last taken out.  From there promotion leaves the
globs that it cannot turn, in their order, and puts the match patterns of the others that
are new behind those that are there, and the rest is displaced exactly when the pattern for
every web address is in the set. -/
theorem run_listsFirst (operations : List Operation) :
    (ListsFirst (History.of operations).matchPatterns (run operations).matchPatterns.toList ∧
      ListsFirst (History.of operations).includePatterns (run operations).includePatterns.toList) ∧
    ((run operations).matchPatterns.toList.Nodup ∧
      (run operations).includePatterns.toList.Nodup) ∧
    (∀ toMatch?, Promotes toMatch? (run operations) ((run operations).promote toMatch?)
      ((run operations).promotable toMatch?)) ∧
    ((run operations).hasCatchAll = true ↔
      Pattern.catchAll ∈ (run operations).matchPatterns.toList) ∧
    (run operations).collapse =
      if Pattern.catchAll ∈ (run operations).matchPatterns.toList then catchAll
      else run operations := by
  have hmatch : ListsFirst (History.of operations).matchPatterns
      (run operations).matchPatterns.toList := by
    rw [run_eq_ofHistory]
    exact listsFirst_ofList _
  have hinclude : ListsFirst (History.of operations).includePatterns
      (run operations).includePatterns.toList := by
    rw [run_eq_ofHistory]
    exact listsFirst_ofList _
  refine ⟨⟨hmatch, hinclude⟩, ⟨hmatch.nodup, hinclude.nodup⟩,
    fun toMatch? => promotes_promote toMatch? _, hasCatchAll_iff, ?_⟩
  exact if_congr hasCatchAll_iff rfl rfl

end PatternSet
end StyleScope
