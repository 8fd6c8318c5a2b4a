import StyleScope.Proofs.Regexp.Unwrapping

/-!
# Groups inside groups

A group of alternatives inside another one never comes out clean.  Branching cuts the
outer group at the closing parenthesis of the inner one, and in the branch of one of the
pieces more is closed than opened.  Groups further in front only change what stands in
front of the outer one.  So each round leaves a branch that closes too much or still has
the nested groups (`NestedChoice.exists_mem_expandFirst`), and so do all of them together
(`refused_of_nestedChoice`).
-/

namespace StyleScope
namespace Regexp

open Text

variable {s start inside after : Text}

/-- One line of well nested groups, where each innermost one has alternatives, empty ones
perhaps, and one group is inside another. -/
structure NestedChoice (s : Text) : Prop where
  line : '\n' ∉ s
  nested : isNested '(' ')' s = true
  offers : ∀ before inside after, s = before ++ '(' :: (inside ++ ')' :: after) →
    '(' ∉ inside → ')' ∉ inside → '|' ∈ inside
  inner : ∃ before inside after, s = before ++ '(' :: (inside ++ ')' :: after) ∧
    isNested '(' ')' inside = true ∧ '(' ∈ inside

theorem close_mem_of_isNested (h : isNested '(' ')' s = true) (hopen : '(' ∈ s) : ')' ∈ s := by
  rw [← List.count_pos_iff, ← count_of_isNested (by decide) h]
  exact List.count_pos_iff.2 hopen

namespace NestedChoice

theorem open_mem (h : NestedChoice s) : '(' ∈ s := by
  obtain ⟨before, inside, after, rfl, -, -⟩ := h.inner
  simp

/-! ## The first group -/

/-- The first opening parenthesis up to the first closing one. -/
theorem exists_first_group (h : NestedChoice s) :
    ∃ start inside after, s = start ++ '(' :: (inside ++ ')' :: after) ∧
      '(' ∉ start ∧ ')' ∉ start ∧ ')' ∉ inside ∧ inside ≠ [] := by
  obtain ⟨before, after, rfl, hbefore⟩ :=
    exists_first_of_mem (close_mem_of_isNested h.nested h.open_mem)
  obtain ⟨start, inside, rfl, hstart⟩ :=
    exists_first_of_mem (open_mem_of_close (isNested_iff.1 h.nested))
  rw [List.mem_append, List.mem_cons, not_or, not_or] at hbefore
  have hs : start ++ '(' :: inside ++ ')' :: after = start ++ '(' :: (inside ++ ')' :: after) := by
    simp
  refine ⟨start, inside, after, hs, hstart, hbefore.1, hbefore.2.2, ?_⟩
  rintro rfl
  exact absurd (h.offers start [] after hs (by simp) (by simp)) (by simp)

/-- Up to the next closing parenthesis there are alternatives, because there are some
behind the last opening one. -/
theorem bar_mem (h : NestedChoice (start ++ '(' :: (inside ++ ')' :: after)))
    (hclose : ')' ∉ inside) : '|' ∈ inside := by
  by_cases hopen : '(' ∈ inside
  · obtain ⟨front, last, rfl, hlast⟩ := exists_last_of_mem hopen
    have hlast' : ')' ∉ last := fun hmem => hclose (by simp [hmem])
    have hbar := h.offers (start ++ '(' :: front) last after (by simp) hlast hlast'
    simp [hbar]
  · exact h.offers start inside after rfl hopen hclose

/-! ## What branching does to the groups -/

/-- A group without parentheses inside is none of the nested ones. -/
theorem behind (h : NestedChoice (start ++ '(' :: (inside ++ ')' :: after)))
    (hstart : ∀ c ∈ start, c ≠ '(' ∧ c ≠ ')') (hinside : ∀ c ∈ inside, c ≠ '(' ∧ c ≠ ')') :
    NestedChoice after where
  line := fun hmem => h.line (by simp [hmem])
  nested := by
    have hdepth := isNested_iff.1 h.nested
    rw [depth?, depthAfter?_append, depthAfter?_of_forall_ne hstart, Option.bind_some,
      ← depth?, depth?_open, depth?, depthAfter?_append, depthAfter?_of_forall_ne hinside,
      Option.bind_some, ← depth?, depth?_close] at hdepth
    exact isNested_iff.2 hdepth
  offers := by
    rintro before i t rfl
    exact h.offers (start ++ '(' :: (inside ++ ')' :: before)) i t (by simp)
  inner := by
    have hopen : '(' ∉ start := fun hmem => (hstart _ hmem).1 rfl
    have hopen' : '(' ∉ inside := fun hmem => (hinside _ hmem).1 rfl
    have hclose' : ')' ∉ inside := fun hmem => (hinside _ hmem).2 rfl
    obtain ⟨before, i, t, heq, hi, hmem⟩ := h.inner
    obtain ⟨before, -, hrest⟩ := exists_append_of_append_eq hopen heq
    cases before with
    | nil =>
      -- The outer group would be this one, and end at its first closing parenthesis.
      obtain ⟨u, v, rfl, hu⟩ := exists_first_of_mem (close_mem_of_isNested hi hmem)
      have htail : inside ++ ')' :: after = u ++ ')' :: (v ++ ')' :: t) := by
        simpa using (List.cons.inj hrest).2
      obtain ⟨rfl, -⟩ := append_cons_inj hclose' hu htail
      exact absurd (open_mem_of_close (isNested_iff.1 hi)) hopen'
    | cons d before =>
      have htail : inside ++ [')'] ++ after = before ++ '(' :: (i ++ ')' :: t) := by
        simpa using (List.cons.inj hrest).2
      obtain ⟨before, -, hafter⟩ := exists_append_of_append_eq (by simp [hopen']) htail
      exact ⟨before, i, t, hafter, hi, hmem⟩

/-- Text without parentheses in front makes no difference. -/
theorem append_left (h : NestedChoice s) (hline : '\n' ∉ start)
    (hstart : ∀ c ∈ start, c ≠ '(' ∧ c ≠ ')') : NestedChoice (start ++ s) where
  line := by
    rw [List.mem_append, not_or]
    exact ⟨hline, h.line⟩
  nested := by
    rw [isNested, depthAfter?_append, depthAfter?_of_forall_ne hstart]
    exact h.nested
  offers := by
    intro before i t heq
    obtain ⟨before, -, hs⟩ :=
      exists_append_of_append_eq (fun hmem => (hstart _ hmem).1 rfl) heq
    exact h.offers before i t hs
  inner := by
    obtain ⟨before, i, t, rfl, hi, hmem⟩ := h.inner
    exact ⟨start ++ before, i, t, by simp, hi, hmem⟩

/-- One round keeps the nested groups in some branch or closes too much in one. -/
theorem exists_mem_expandFirst (h : NestedChoice s) :
    ∃ b ∈ expandFirst s, Surplus b ∨ NestedChoice b := by
  obtain ⟨start, inside, after, rfl, hopen, hclose, hinside, hne⟩ := h.exists_first_group
  have hline : '\n' ∉ inside := fun hmem => h.line (by simp [hmem])
  rw [expandFirst_start hopen hne hline hinside]
  by_cases hinner : '(' ∈ inside
  · obtain ⟨hopens, hcloses⟩ := count_group hopen hclose hinside after
    have hcount := count_of_isNested (by decide) h.nested
    have hafter : after.count ')' = inside.count '(' + after.count '(' := by omega
    obtain ⟨piece, hpiece, hsurplus⟩ :=
      exists_surplus_piece hopen (h.bar_mem hinside) hinner hafter
    exact ⟨_, List.mem_map_of_mem hpiece, Or.inl hsurplus⟩
  · have hstart := forall_ne_of_not_mem hopen hclose
    have hplain := forall_ne_of_not_mem hinner hinside
    obtain ⟨piece, hpiece⟩ := List.exists_mem_of_ne_nil _ (List.splitOn_ne_nil '|' inside)
    have hfront : ∀ c ∈ start ++ piece, c ≠ '(' ∧ c ≠ ')' := by
      intro c hc
      rcases List.mem_append.1 hc with hc | hc
      · exact hstart c hc
      · exact hplain c (mem_of_mem_piece hpiece hc)
    have hfrontline : '\n' ∉ start ++ piece := by
      rw [List.mem_append, not_or]
      exact ⟨fun hmem => h.line (by simp [hmem]), fun hmem => hline (mem_of_mem_piece hpiece hmem)⟩
    exact ⟨_, List.mem_map_of_mem hpiece,
      Or.inr ((h.behind hstart hplain).append_left hfrontline hfront)⟩

end NestedChoice

/-- All rounds together leave a parenthesis. -/
theorem NestedChoice.exists_paren_mem (h : NestedChoice s) {branches : List Text}
    (hexpand : expand s = some branches) : ∃ b ∈ branches, '(' ∈ b ∨ ')' ∈ b := by
  have hstep : ∀ t, Surplus t ∨ NestedChoice t →
      ∃ b ∈ expandFirst t, Surplus b ∨ NestedChoice b := by
    rintro t (ht | ht)
    · obtain ⟨b, hb, hsurplus⟩ := exists_surplus_expandFirst ht
      exact ⟨b, hb, Or.inl hsurplus⟩
    · exact ht.exists_mem_expandFirst
  obtain ⟨b, hb, hkept⟩ :=
    exists_mem_expandRounds hstep hexpand ⟨s, List.mem_singleton_self s, Or.inr h⟩
  exact ⟨b, hb, hkept.symm.imp NestedChoice.open_mem close_mem_of_surplus⟩

/-- A nested group of alternatives is given up or leaves a parenthesis in some branch, so an
expression that comes down to one is refused. -/
theorem refused_of_nestedChoice (h : NestedChoice s) :
    (expand s = none ∨
      ∃ branches, expand s = some branches ∧ ∃ b ∈ branches, '(' ∈ b ∨ ')' ∈ b) ∧
    ∀ pattern, simplify pattern = s → toGlobs pattern = .error (.unconvertibleRegexp pattern) := by
  constructor
  · cases hexpand : expand s with
    | none => exact Or.inl rfl
    | some branches => exact Or.inr ⟨branches, rfl, h.exists_paren_mem hexpand⟩
  · rintro pattern rfl
    cases hglobs : globs? pattern with
    | none => rw [toGlobs, hglobs]
    | some globs =>
      obtain ⟨branches, hexpand, hclean, -⟩ := globs?_eq_some hglobs
      obtain ⟨b, hb, hopen | hclose⟩ := h.exists_paren_mem hexpand
      · exact absurd (hclean b hb _ hopen) (by decide)
      · exact absurd (hclean b hb _ hclose) (by decide)

/-- The groups of `(a|(b|c))`, branched at the wrong end. -/
theorem refused_of_nestedChoice_of_bar_outside :
    let s := "(a|(b|c))".toList
    simplify s = s ∧ NestedChoice s ∧
      (expand s = none ∨
        ∃ branches, expand s = some branches ∧ ∃ b ∈ branches, '(' ∈ b ∨ ')' ∈ b) ∧
      ∀ pattern, simplify pattern = s →
        toGlobs pattern = .error (.unconvertibleRegexp pattern) := by
  intro s
  have hs : NestedChoice s :=
    { line := by decide
      nested := by decide
      offers := by
        intro before inside after heq hopen hclose
        simp only [s, String.reduceToList, List.cons_eq_append_iff, List.cons.injEq,
          Char.reduceEq, List.nil_eq_append_iff, reduceCtorEq, true_and, false_and, and_false,
          exists_const, or_false, false_or] at heq
        rcases heq with ⟨-, heq⟩ | ⟨_, -, _, -, _, -, -, heq⟩
        · have hcut : inside ++ ')' :: after = "a|(b|c".toList ++ ')' :: ")".toList := heq
          obtain ⟨rfl, -⟩ := append_cons_inj hclose (by decide) hcut
          exact absurd hopen (by decide)
        · have hcut : inside ++ ')' :: after = "b|c".toList ++ ')' :: ")".toList := heq
          obtain ⟨rfl, -⟩ := append_cons_inj hclose (by decide) hcut
          decide
      inner := ⟨[], "a|(b|c)".toList, [], by decide, by decide, by decide⟩ }
  exact ⟨by decide, hs, refused_of_nestedChoice hs⟩

end Regexp
end StyleScope
