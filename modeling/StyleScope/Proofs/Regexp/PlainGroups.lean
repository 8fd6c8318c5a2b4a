import StyleScope.Proofs.Regexp.Unwrapping

/-!
# Groups that unwrapping takes apart, and groups that stay

Each group that unwrapping takes apart costs the text one parenthesis of either kind, even
where the two belong to different groups, so parentheses go in pairs (`exists_drops_unwrap`)
and the rest stays well nested.  In a text without groups inside groups (`Flat`) unwrapping
sees every group up to its own end, and what stays is empty, has alternatives or is optional
(`unwrap_drops_pairs`).
-/

namespace StyleScope
namespace Regexp

open Text

variable {m n : Nat} {s t inside after i a : Text}

/-! ## Parentheses that go -/

/-- The second text is the first one without `opened` opening and `closed` closing
parentheses. -/
inductive Drops : (opened closed : Nat) → Text → Text → Prop
  | nil : Drops 0 0 [] []
  | keep {m n : Nat} {s t : Text} (c : Char) : Drops m n s t → Drops m n (c :: s) (c :: t)
  | opening {m n : Nat} {s t : Text} : Drops m n s t → Drops (m + 1) n ('(' :: s) t
  | closing {m n : Nat} {s t : Text} : Drops m n s t → Drops m (n + 1) (')' :: s) t

theorem Drops.append_left (x : Text) (h : Drops m n s t) : Drops m n (x ++ s) (x ++ t) := by
  induction x with
  | nil => exact h
  | cons c x ih => exact ih.keep c

theorem exists_drops_unwrap (s : Text) : ∃ n, Drops n n s (unwrapPlainGroups s) := by
  induction s using unwrap_induction with
  | nil => exact ⟨0, .nil⟩
  | closed x rest hne hx hrest ih =>
    obtain ⟨n, hn⟩ := ih
    rw [unwrap_closed hne hx hrest]
    exact ⟨n + 1, (hn.closing.append_left x).opening⟩
  | other c s hnone ih =>
    obtain ⟨n, hn⟩ := ih
    rw [unwrap_cons_of_none hnone]
    exact ⟨n, hn.keep c⟩

/-! ## The groups of a text -/

/-- What a group of the text holds, up to the parenthesis that closes it, and what follows. -/
def HasGroup (s inside after : Text) : Prop :=
  ∃ before, s = before ++ '(' :: (inside ++ ')' :: after) ∧ isNested '(' ')' inside = true

theorem not_hasGroup_nil : ¬ HasGroup [] inside after := by
  rintro ⟨before, h, -⟩
  exact absurd h.symm (by simp)

theorem HasGroup.append_left (x : Text) (h : HasGroup s inside after) :
    HasGroup (x ++ s) inside after := by
  obtain ⟨before, rfl, hinside⟩ := h
  exact ⟨x ++ before, by rw [List.append_assoc], hinside⟩

theorem HasGroup.of_append (hs : '(' ∉ s) (h : HasGroup (s ++ t) inside after) :
    HasGroup t inside after := by
  obtain ⟨before, heq, hinside⟩ := h
  obtain ⟨behind, -, ht⟩ := exists_append_of_append_eq hs heq
  exact ⟨behind, ht, hinside⟩

/-- A text that begins with a group without parentheses inside has this one, and the groups
behind it. -/
theorem HasGroup.eq_or_behind (hopen : '(' ∉ inside) (hclose : ')' ∉ inside)
    (h : HasGroup ('(' :: (inside ++ ')' :: t)) i a) : (i = inside ∧ a = t) ∨ HasGroup t i a := by
  obtain ⟨before, heq, hi⟩ := h
  cases before with
  | nil =>
    have hcut : inside ++ ')' :: t = i ++ ')' :: a := (List.cons.inj heq).2
    by_cases hmem : ')' ∈ i
    · -- The first closing parenthesis would close nothing inside the group.
      obtain ⟨u, v, rfl, hu⟩ := exists_first_of_mem hmem
      rw [List.append_assoc, List.cons_append] at hcut
      obtain ⟨rfl, -⟩ := append_cons_inj hclose hu hcut
      exact absurd (open_mem_of_close (isNested_iff.1 hi)) hopen
    · obtain ⟨rfl, rfl⟩ := append_cons_inj hclose hmem hcut
      exact Or.inl ⟨rfl, rfl⟩
  | cons d before =>
    have htail : inside ++ [')'] ++ t = before ++ '(' :: (i ++ ')' :: a) := by
      simpa using (List.cons.inj heq).2
    exact Or.inr (HasGroup.of_append (by simp [hopen]) ⟨before, htail, hi⟩)

/-- What is open is closed, and what stands in between is well nested. -/
theorem exists_close {d : Nat} (h : depth? (d + 1) s = some 0) :
    ∃ inside after, s = inside ++ ')' :: after ∧ isNested '(' ')' inside = true ∧
      depth? d after = some 0 := by
  induction hn : s.length using Nat.strongRecOn generalizing s d with
  | ind n ih =>
    cases s with
    | nil => exact absurd (Option.some.inj h) (by omega)
    | cons c s =>
      rw [List.length_cons] at hn
      by_cases hopen : c = '('
      · subst hopen
        rw [depth?_open] at h
        obtain ⟨i, rest, rfl, hi, hrest⟩ := ih s.length (by omega) h rfl
        have hlen : rest.length < n := by
          rw [List.length_append, List.length_cons] at hn
          omega
        obtain ⟨j, after, rfl, hj, hafter⟩ := ih rest.length hlen hrest rfl
        refine ⟨'(' :: (i ++ ')' :: j), after, by simp, ?_, hafter⟩
        have hi' : depth? 1 i = some 1 := depth?_add (isNested_iff.1 hi) 1
        rw [isNested_iff, depth?_open, depth?_append, hi', Option.bind_some, depth?_close,
          if_neg (by omega)]
        exact isNested_iff.1 hj
      · by_cases hclose : c = ')'
        · subst hclose
          exact ⟨[], s, rfl, rfl, h⟩
        · rw [depth?_cons hopen hclose] at h
          obtain ⟨i, after, rfl, hi, hafter⟩ := ih s.length (by omega) h rfl
          refine ⟨c :: i, after, rfl, ?_, hafter⟩
          rw [isNested_iff, depth?_cons hopen hclose]
          exact isNested_iff.1 hi

/-! ## Texts without groups inside groups -/

/-- Groups without parentheses inside, and characters that are no parentheses. -/
inductive Flat : Text → Prop
  | nil : Flat []
  | char {c : Char} {s : Text} : c ≠ '(' → c ≠ ')' → Flat s → Flat (c :: s)
  | group {inside s : Text} :
    '(' ∉ inside → ')' ∉ inside → Flat s → Flat ('(' :: (inside ++ ')' :: s))

namespace Flat

theorem isNested (h : Flat s) : isNested '(' ')' s = true := by
  rw [isNested_iff]
  induction h with
  | nil => rfl
  | char hopen hclose _ ih => rw [depth?_cons hopen hclose, ih]
  | @group inside s hopen hclose _ ih =>
    rw [depth?_open, depth?_append, depth?_of_close_not_mem hclose, List.count_eq_zero.2 hopen,
      Option.bind_some, depth?_close, if_neg (by omega)]
    exact ih

theorem open_not_mem (h : Flat s) (hgroup : HasGroup s i a) : '(' ∉ i := by
  induction h with
  | nil => exact absurd hgroup not_hasGroup_nil
  | @char c s hopen _ _ ih =>
    have hc : '(' ∉ [c] := by simp [Ne.symm hopen]
    exact ih (HasGroup.of_append hc hgroup)
  | group hopen hclose _ ih =>
    rcases hgroup.eq_or_behind hopen hclose with ⟨rfl, -⟩ | hbehind
    · exact hopen
    · exact ih hbehind

end Flat

/-- A well nested text is flat when no group has another one inside. -/
theorem flat_of_isNested (h : isNested '(' ')' s = true)
    (hflat : ∀ inside after, HasGroup s inside after → '(' ∉ inside) : Flat s := by
  induction hn : s.length using Nat.strongRecOn generalizing s with
  | ind n ih =>
    cases s with
    | nil => exact .nil
    | cons c s =>
      rw [isNested_iff] at h
      rw [List.length_cons] at hn
      by_cases hopen : c = '('
      · subst hopen
        rw [depth?_open] at h
        obtain ⟨inside, after, rfl, hinside, hafter⟩ := exists_close h
        have hno : '(' ∉ inside := hflat inside after ⟨[], rfl, hinside⟩
        have hclose : ')' ∉ inside := by
          rw [← List.count_eq_zero, ← count_of_isNested (by decide) hinside]
          exact List.count_eq_zero.2 hno
        refine .group hno hclose (ih after.length ?_ (isNested_iff.2 hafter) ?_ rfl)
        · rw [List.length_append, List.length_cons] at hn
          omega
        · intro i a hgroup
          refine hflat i a ?_
          simpa using hgroup.append_left ('(' :: (inside ++ [')']))
      · by_cases hclose : c = ')'
        · subst hclose
          exact absurd h (by simp [depth?_close])
        · rw [depth?_cons hopen hclose] at h
          refine .char hopen hclose (ih s.length (by omega) (isNested_iff.2 h) ?_ rfl)
          exact fun i a hgroup => hflat i a (hgroup.append_left [c])

/-! ## What stays of the groups -/

/-- A group that is not taken apart is empty, has alternatives or is optional. -/
theorem kept_of_plainGroup?_eq_none (hclose : ')' ∉ inside)
    (hnone : plainGroup? ('(' :: (inside ++ ')' :: after)) = none) :
    inside = [] ∨ '|' ∈ inside ∨ after.head? = some '?' := by
  refine Decidable.byContradiction fun hno => ?_
  rw [not_or, not_or] at hno
  obtain ⟨hne, hbar, hquery⟩ := hno
  rw [plainGroup?_append hne (forall_ne_of_not_mem hclose hbar) hquery] at hnone
  exact absurd hnone (by simp)

theorem unwrap_append_of_open_not_mem (h : '(' ∉ s) (t : Text) :
    unwrapPlainGroups (s ++ t) = s ++ unwrapPlainGroups t := by
  induction s with
  | nil => rfl
  | cons c s ih =>
    rw [List.mem_cons, not_or] at h
    rw [List.cons_append, unwrap_cons (Ne.symm h.1), ih h.2, List.cons_append]

theorem head?_unwrap_query (h : s.head? = some '?') : (unwrapPlainGroups s).head? = some '?' := by
  obtain ⟨t, rfl⟩ := List.head?_eq_some_iff.1 h
  rw [unwrap_cons (by decide)]
  rfl

/-- The groups that unwrapping leaves in a flat text. -/
theorem Flat.kept (h : Flat s) (hgroup : HasGroup (unwrapPlainGroups s) i a) :
    i = [] ∨ '|' ∈ i ∨ a.head? = some '?' := by
  induction h with
  | nil => exact absurd hgroup not_hasGroup_nil
  | @char c s hopen _ _ ih =>
    rw [unwrap_cons hopen] at hgroup
    have hc : '(' ∉ [c] := by simp [Ne.symm hopen]
    exact ih (HasGroup.of_append hc hgroup)
  | @group inside s hopen hclose _ ih =>
    cases hplain : plainGroup? ('(' :: (inside ++ ')' :: s)) with
    | none =>
      rw [unwrap_cons_of_none hplain, unwrap_append_of_open_not_mem hopen,
        unwrap_cons (by decide)] at hgroup
      rcases hgroup.eq_or_behind hopen hclose with ⟨rfl, rfl⟩ | hbehind
      · rcases kept_of_plainGroup?_eq_none hclose hplain with hnil | hbar | hquery
        · exact Or.inl hnil
        · exact Or.inr (Or.inl hbar)
        · exact Or.inr (Or.inr (head?_unwrap_query hquery))
      · exact ih hbehind
    | some found =>
      obtain ⟨x, rest⟩ := found
      obtain ⟨heq, hne, hx, hrest⟩ := plainGroup?_eq_some hplain
      obtain ⟨rfl, rfl⟩ :=
        append_cons_inj hclose (fun hmem => (hx _ hmem).1 rfl) (List.cons.inj heq).2
      rw [unwrap_closed hne hx hrest] at hgroup
      exact ih (hgroup.of_append hopen)

/-- Unwrapping takes parentheses away in pairs and nothing else, and keeps a text well
nested.  Where no group is inside another, the groups it leaves are empty, have alternatives
or are optional. -/
theorem unwrap_drops_pairs (s : Text) :
    (∃ n, Drops n n s (unwrapPlainGroups s)) ∧
    (isNested '(' ')' s = true → isNested '(' ')' (unwrapPlainGroups s) = true ∧
      ((∀ inside after, HasGroup s inside after → '(' ∉ inside) →
        ∀ inside after, HasGroup (unwrapPlainGroups s) inside after →
          inside = [] ∨ '|' ∈ inside ∨ after.head? = some '?')) := by
  refine ⟨exists_drops_unwrap s, fun hs => ⟨?_, fun hflat i a hgroup => ?_⟩⟩
  · exact isNested_iff.2 (depth?_unwrap (isNested_iff.1 hs))
  · exact (flat_of_isNested hs hflat).kept hgroup

/-- Of four groups the first is taken apart. -/
theorem unwrap_drops_pairs_four_groups :
    let s := "a(bc)(d|e)(f)?()".toList
    let t := "abc(d|e)(f)?()".toList
    isNested '(' ')' s = true ∧ (∀ inside after, HasGroup s inside after → '(' ∉ inside) ∧
      unwrapPlainGroups s = t ∧ (∃ n, Drops n n s t) ∧ isNested '(' ')' t = true ∧
      ∀ inside after, HasGroup t inside after →
        inside = [] ∨ '|' ∈ inside ∨ after.head? = some '?' := by
  intro s t
  have hflat : Flat s := .char (by decide) (by decide) <|
    @Flat.group "bc".toList _ (by decide) (by decide) <|
    @Flat.group "d|e".toList _ (by decide) (by decide) <|
    @Flat.group "f".toList _ (by decide) (by decide) <| .char (by decide) (by decide) <|
    @Flat.group [] _ (by decide) (by decide) .nil
  have ht : unwrapPlainGroups s = t := by decide
  have hflat' : ∀ inside after, HasGroup s inside after → '(' ∉ inside :=
    fun _ _ => hflat.open_not_mem
  obtain ⟨hdrops, hnested⟩ := unwrap_drops_pairs s
  obtain ⟨hkeeps, hgroups⟩ := hnested hflat.isNested
  rw [ht] at hdrops hkeeps hgroups
  exact ⟨hflat.isNested, hflat', ht, hdrops, hkeeps, hgroups hflat'⟩

end Regexp
end StyleScope
