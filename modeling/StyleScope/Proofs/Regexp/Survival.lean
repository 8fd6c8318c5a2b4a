import StyleScope.Proofs.Regexp.Branches

/-!
# What no round gets rid of

A branch with more closing than opening parentheses always leaves such a branch behind,
because a round removes one parenthesis of either kind and never a closing one alone.
What stands in front of the first group stays there, and a wildcard stays in some branch.
So each of these, once it is there, is still there when the rounds are over.
-/

namespace StyleScope
namespace Regexp

open Text Nested

/-! ## Rounds -/

theorem expandRound_eq_some_iff {branches next : List Text} :
    expandRound branches = some next ↔
      next = branches.flatMap expandFirst ∧ next.length ≤ maxBranches := by
  show (if (branches.flatMap expandFirst).length > maxBranches then none
    else some (branches.flatMap expandFirst)) = some next ↔ _
  split
  · next hmany =>
    refine iff_of_false (by simp) ?_
    rintro ⟨rfl, hlen⟩
    omega
  · next hfew =>
    rw [Option.some.injEq]
    constructor
    · rintro rfl
      exact ⟨rfl, Nat.le_of_not_lt hfew⟩
    · rintro ⟨rfl, -⟩
      rfl

/-- With another round to go the branches are done, or each of them is expanded. -/
theorem expandRounds_succ_eq_some {n : Nat} {starts branches : List Text}
    (h : expandRounds (n + 1) starts = some branches) :
    (starts.any hasAlternation = false ∧ branches = starts) ∨
      (starts.any hasAlternation = true ∧
        (starts.flatMap expandFirst).length ≤ maxBranches ∧
        expandRounds n (starts.flatMap expandFirst) = some branches) := by
  rw [expandRounds] at h
  split at h
  · next hany =>
    obtain ⟨next, hnext, hrounds⟩ := Option.bind_eq_some_iff.1 h
    obtain ⟨rfl, hlen⟩ := expandRound_eq_some_iff.1 hnext
    exact Or.inr ⟨hany, hlen, hrounds⟩
  · next hany => exact Or.inl ⟨Bool.eq_false_iff.2 hany, (Option.some.inj h).symm⟩

/-- What a round keeps that is not given up holds when the rounds are over. -/
theorem expandRounds_induction {motive : List Text → Prop}
    (hstep : ∀ bs, motive bs → (bs.flatMap expandFirst).length ≤ maxBranches →
      motive (bs.flatMap expandFirst))
    {n : Nat} {starts branches : List Text} (h : expandRounds n starts = some branches)
    (hstarts : motive starts) : motive branches := by
  induction n generalizing starts with
  | zero =>
    obtain rfl := Option.some.inj h
    exact hstarts
  | succ n ih =>
    rcases expandRounds_succ_eq_some h with ⟨-, rfl⟩ | ⟨-, hlen, hrounds⟩
    · exact hstarts
    · exact ih hrounds (hstep starts hstarts hlen)

/-- What every text passes on to one of its branches is there after all rounds. -/
theorem exists_mem_expandRounds {Q : Text → Prop}
    (hstep : ∀ s, Q s → ∃ b ∈ expandFirst s, Q b) {n : Nat} {starts branches : List Text}
    (h : expandRounds n starts = some branches) (hstart : ∃ s ∈ starts, Q s) :
    ∃ b ∈ branches, Q b := by
  refine expandRounds_induction (motive := fun bs => ∃ b ∈ bs, Q b) ?_ h hstart
  rintro bs ⟨s, hs, hQ⟩ -
  obtain ⟨b, hb, hQb⟩ := hstep s hQ
  exact ⟨b, List.mem_flatMap.2 ⟨s, hs, hb⟩, hQb⟩

/-- What every text passes on to all of its branches holds of all of them after all
rounds. -/
theorem forall_mem_expandRounds {Q : Text → Prop}
    (hstep : ∀ s, Q s → ∀ b ∈ expandFirst s, Q b) {n : Nat} {starts branches : List Text}
    (h : expandRounds n starts = some branches) (hstarts : ∀ s ∈ starts, Q s) :
    ∀ b ∈ branches, Q b := by
  refine expandRounds_induction (motive := fun bs => ∀ b ∈ bs, Q b) ?_ h hstarts
  intro bs hbs _ b hb
  obtain ⟨s, hs, hb⟩ := List.mem_flatMap.1 hb
  exact hstep s (hbs s hs) b hb

/-! ## The shape of a round -/

theorem shortGroup?_eq_some {s inside rest : Text} (h : shortGroup? s = some (inside, rest)) :
    ∃ c x, inside = c :: x ∧ '\n' ∉ c :: x ∧ ')' ∉ x ∧ s = inside ++ ')' :: rest := by
  unfold shortGroup? at h
  split at h
  · exact absurd h (by simp)
  · next c t =>
    split at h
    · next d r hd =>
      split at h
      · exact absurd h (by simp)
      · next hline =>
        simp only [Option.some.injEq, Prod.mk.injEq] at h
        obtain ⟨rfl, rfl⟩ := h
        have hsplit := eq_append_of_dropWhile_ne_eq_cons hd
        rw [not_or] at hline
        exact ⟨c, _, rfl, List.not_mem_cons_of_ne_of_not_mem (Ne.symm hline.1) hline.2,
          not_mem_takeWhile_ne ')' t, by rw [List.cons_append, ← hsplit]⟩
    · exact absurd h (by simp)

/-- A text has no group, or branches at one. -/
theorem expandFirst_cases (s : Text) :
    expandFirst s = [s] ∨ ∃ before c x after, s = before ++ '(' :: (c :: x ++ ')' :: after) ∧
      '\n' ∉ c :: x ∧ ')' ∉ x ∧
      expandFirst s = (List.splitOn '|' (c :: x)).map fun choice => before ++ choice ++ after := by
  cases hfound : find? groupAt? s with
  | none =>
    left
    rw [expandFirst, hfound]
  | some found =>
    obtain ⟨before, inside, after⟩ := found
    obtain ⟨rest, rfl, hgroup⟩ := find?_some hfound
    have hrest : ∃ t, rest = '(' :: t ∧ shortGroup? t = some (inside, after) := by
      unfold groupAt? at hgroup
      split at hgroup
      · next t => exact ⟨t, rfl, hgroup⟩
      · exact absurd hgroup (by simp)
    obtain ⟨t, rfl, hshort⟩ := hrest
    obtain ⟨c, x, rfl, hline, hx, rfl⟩ := shortGroup?_eq_some hshort
    right
    refine ⟨before, c, x, after, rfl, hline, hx, ?_⟩
    rw [expandFirst, hfound]

/-- The first piece of a text that is cut. -/
theorem exists_splitOn_eq_cons (sep : Char) (s : Text) :
    ∃ piece pieces, List.splitOn sep s = piece :: pieces ∧
      (s = piece ∨ ∃ t, s = piece ++ sep :: t) := by
  by_cases h : sep ∈ s
  · obtain ⟨a, b, rfl, ha⟩ := exists_first_of_mem h
    exact ⟨a, _, List.splitOn_append_cons_self_of_not_mem ha b, Or.inr ⟨b, rfl⟩⟩
  · exact ⟨s, [], List.splitOn_eq_singleton h, Or.inl rfl⟩

/-! ## Closing parentheses -/

def Surplus (s : Text) : Prop := s.count '(' < s.count ')'

/-- The first branch keeps all closing parentheses but the one of the group. -/
theorem exists_surplus_expandFirst {s : Text} (h : Surplus s) : ∃ b ∈ expandFirst s, Surplus b := by
  obtain hself | ⟨before, c, x, after, rfl, -, hx, hbranch⟩ := expandFirst_cases s
  · exact ⟨s, by rw [hself]; exact List.mem_singleton_self s, h⟩
  · obtain ⟨piece, pieces, hsplit, hpiece⟩ := exists_splitOn_eq_cons '|' (c :: x)
    refine ⟨before ++ piece ++ after, ?_, ?_⟩
    · rw [hbranch, hsplit]
      exact List.mem_cons_self
    · have hopen : piece.count '(' ≤ (c :: x).count '(' := by
        rcases hpiece with heq | ⟨t, heq⟩
        · exact Nat.le_of_eq (congrArg (List.count '(') heq.symm)
        · rw [heq, List.count_append]
          omega
      have hclose : piece.count ')' = (c :: x).count ')' := by
        rcases hpiece with heq | ⟨t, heq⟩
        · rw [heq]
        · have ht : ')' ∉ '|' :: t := by
            cases piece with
            | nil =>
              obtain ⟨rfl, rfl⟩ := List.cons.inj heq
              simp [hx]
            | cons d piece =>
              have htail : x = piece ++ '|' :: t := (List.cons.inj heq).2
              intro hmem
              exact hx (htail ▸ List.mem_append_right piece hmem)
          rw [heq, List.count_append, List.count_eq_zero.2 ht]
          omega
      unfold Surplus at h ⊢
      simp only [List.count_append, List.count_cons, beq_self_eq_true, if_true] at h ⊢
      simp only [List.count_cons] at hopen hclose
      have hparen : ('(' == ')') = false := rfl
      have hparen' : (')' == '(') = false := rfl
      simp only [hparen, hparen', Bool.false_eq_true, if_false] at h
      omega

theorem close_mem_of_surplus {s : Text} (h : Surplus s) : ')' ∈ s :=
  List.count_pos_iff.1 (Nat.lt_of_le_of_lt (Nat.zero_le _) h)

/-! ## What stands in front, and wildcards -/

theorem prefix_of_mem_expandFirst {start : Text} (hopen : '(' ∉ start) {rest b : Text}
    (hb : b ∈ expandFirst (start ++ rest)) : start <+: b := by
  have hskip : ∀ d ∈ start, ∀ t, groupAt? (d :: t) = none := fun d hd t =>
    groupAt?_cons_of_ne (fun heq => hopen (heq ▸ hd)) t
  rw [expandFirst, find?_append hskip] at hb
  cases hfound : find? groupAt? rest with
  | none =>
    rw [hfound] at hb
    rw [List.mem_singleton.1 hb]
    exact List.prefix_append start rest
  | some found =>
    obtain ⟨before, inside, after⟩ := found
    rw [hfound] at hb
    obtain ⟨choice, -, rfl⟩ := List.mem_map.1 hb
    rw [List.append_assoc, List.append_assoc]
    exact List.prefix_append start _

theorem expandFirst_ne_nil (s : Text) : expandFirst s ≠ [] := by
  obtain hself | ⟨before, c, x, after, -, -, -, hbranch⟩ := expandFirst_cases s
  · rw [hself]
    exact List.cons_ne_nil s []
  · rw [hbranch]
    intro hnil
    exact List.splitOn_ne_nil '|' (c :: x) (List.map_eq_nil_iff.1 hnil)

/-- What stands in front of all groups stays. -/
theorem exists_prefix_expandFirst {start s : Text} (hopen : '(' ∉ start) (h : start <+: s) :
    ∃ b ∈ expandFirst s, start <+: b := by
  obtain ⟨rest, rfl⟩ := h
  obtain ⟨b, hb⟩ := List.exists_mem_of_ne_nil _ (expandFirst_ne_nil (start ++ rest))
  exact ⟨b, hb, prefix_of_mem_expandFirst hopen hb⟩

theorem exists_piece_of_mem {sep c : Char} (hc : c ≠ sep) {s : Text} (h : c ∈ s) :
    ∃ piece ∈ List.splitOn sep s, c ∈ piece := by
  have hjoined : c ∈ List.intercalate [sep] (List.splitOn sep s) := by
    rwa [List.intercalate_splitOn]
  exact (mem_intercalate hjoined).resolve_left hc

/-- A character that is no syntax stays in some branch. -/
theorem exists_mem_expandFirst {c : Char} (hc : c ∉ ['(', ')', '|']) {s : Text} (h : c ∈ s) :
    ∃ b ∈ expandFirst s, c ∈ b := by
  obtain hself | ⟨before, d, x, after, rfl, -, -, hbranch⟩ := expandFirst_cases s
  · exact ⟨s, by rw [hself]; exact List.mem_singleton_self s, h⟩
  · rw [hbranch]
    have hne : c ≠ '(' ∧ c ≠ ')' ∧ c ≠ '|' := by simpa using hc
    obtain ⟨piece, hpiece, hmem⟩ : ∃ piece ∈ List.splitOn '|' (d :: x),
        c ∈ before ∨ c ∈ piece ∨ c ∈ after := by
      have hor : c ∈ before ∨ c ∈ d :: x ∨ c ∈ after := by
        simpa [hne.1, hne.2.1, or_assoc] using h
      rcases hor with hbefore | hinside | hafter
      · obtain ⟨p, hp⟩ := List.exists_mem_of_ne_nil _ (List.splitOn_ne_nil '|' (d :: x))
        exact ⟨p, hp, Or.inl hbefore⟩
      · obtain ⟨p, hp, hmem⟩ := exists_piece_of_mem hne.2.2 hinside
        exact ⟨p, hp, Or.inr (Or.inl hmem)⟩
      · obtain ⟨p, hp⟩ := List.exists_mem_of_ne_nil _ (List.splitOn_ne_nil '|' (d :: x))
        exact ⟨p, hp, Or.inr (Or.inr hafter)⟩
    refine ⟨_, List.mem_map_of_mem hpiece, ?_⟩
    rw [List.append_assoc, List.mem_append, List.mem_append]
    exact hmem

/-- A wildcard that the steps leave is one of some glob. -/
theorem exists_wild_mem_of_globs?_eq_some {pattern : Text} {globs : List Text}
    (h : globs? pattern = some globs) {c : Char} (hc : isWildcard c = true)
    (hmem : c ∈ simplify pattern) : ∃ g ∈ globs, ∃ d ∈ g, isWildcard d = true := by
  obtain ⟨branches, hexpand, -, rfl, -⟩ := globs?_eq_some h
  have hplain : c ∉ ['(', ')', '|'] := by
    have hall : ∀ c ∈ ['*', '?'], c ∉ ['(', ')', '|'] := by decide
    exact hall c (isWildcard_iff.1 hc)
  obtain ⟨b, hb, hcb⟩ := exists_mem_expandRounds (fun s => exists_mem_expandFirst hplain) hexpand
    ⟨_, List.mem_singleton_self _, hmem⟩
  obtain ⟨d, hd, hwild⟩ := exists_wild_mem_collapse hc hcb
  refine ⟨collapseWildcards b, List.mem_filter.2 ⟨List.mem_map_of_mem hb, ?_⟩, d, hd, hwild⟩
  simpa using List.ne_nil_of_mem hd

end Regexp
end StyleScope
