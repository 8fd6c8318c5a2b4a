import StyleScope.Proofs.Regexp.Survival

/-!
# How a text is read that comes out clean

Branching pairs the first opening parenthesis with the closing one that comes next,
nested or not.  If that stretch has alternatives and another opening parenthesis, some
branch ends up with a closing parenthesis too many.  So in a text that comes out clean the
stretch is a group of alternatives, or it has none and just loses the two parentheses.
`Reads` says so and what the branches are (`exists_reads`).
-/

namespace StyleScope
namespace Regexp

open Text Nested

def Bare (s : Text) : Prop := ∀ c ∈ s, c ≠ '(' ∧ c ≠ ')' ∧ c ≠ '|'

theorem Bare.of_append_left {s t : Text} (h : Bare (s ++ t)) : Bare s :=
  fun c hc => h c (List.mem_append_left t hc)

theorem Bare.of_append_right {s t : Text} (h : Bare (s ++ t)) : Bare t :=
  fun c hc => h c (List.mem_append_right s hc)

theorem Bare.open_not_mem {s : Text} (h : Bare s) : '(' ∉ s := fun hmem => (h _ hmem).1 rfl

theorem Bare.close_not_mem {s : Text} (h : Bare s) : ')' ∉ s := fun hmem => (h _ hmem).2.1 rfl

theorem Bare.bar_not_mem {s : Text} (h : Bare s) : '|' ∉ s := fun hmem => (h _ hmem).2.2 rfl

theorem bare_of_not_mem {s : Text} (h1 : '(' ∉ s) (h2 : ')' ∉ s) (h3 : '|' ∉ s) : Bare s :=
  fun _ hc => ⟨fun heq => h1 (heq ▸ hc), fun heq => h2 (heq ▸ hc), fun heq => h3 (heq ▸ hc)⟩

/-- A text and the branches that it is read as. -/
inductive Reads : Text → List Text → Prop
  | done {s : Text} (h : Bare s) : Reads s [s]
  /-- A group without parentheses inside offers its alternatives. -/
  | choose {start inside rest : Text} {ws : List Text} (hstart : Bare start)
      (hopen : '(' ∉ inside) (hclose : ')' ∉ inside) (h : Reads rest ws) :
      Reads (start ++ '(' :: (inside ++ ')' :: rest))
        (joined ((List.splitOn '|' inside).map (start ++ ·)) ws)
  /-- The parentheses go when there is no alternative between them. -/
  | shift {start inside rest : Text} {ws : List Text} (hstart : Bare start)
      (hopen : '(' ∈ inside) (hbar : '|' ∉ inside) (hclose : ')' ∉ inside)
      (h : Reads (start ++ (inside ++ rest)) ws) :
      Reads (start ++ '(' :: (inside ++ ')' :: rest)) ws

/-! ## Empty groups and pieces -/

/-- An empty group is in one of two parts or across the cut. -/
theorem infix_empty_append {s t : Text} (h : "()".toList <:+: s ++ t) :
    "()".toList <:+: s ∨ (∃ u v, s = u ++ ['('] ∧ t = ')' :: v) ∨ "()".toList <:+: t := by
  induction s with
  | nil => exact Or.inr (Or.inr h)
  | cons c s ih =>
    rcases List.infix_cons_iff.1 h with hpre | hinner
    · obtain ⟨rfl, hrest⟩ := List.cons_prefix_cons.1 hpre
      cases s with
      | nil =>
        obtain ⟨v, rfl⟩ := hrest
        exact Or.inr (Or.inl ⟨[], v, rfl, rfl⟩)
      | cons d s =>
        obtain ⟨rfl, -⟩ := List.cons_prefix_cons.1 hrest
        exact Or.inl ⟨[], s, rfl⟩
    · rcases ih hinner with hs | ⟨u, v, rfl, rfl⟩ | ht
      · exact Or.inl (List.infix_cons hs)
      · exact Or.inr (Or.inl ⟨c :: u, v, rfl, rfl⟩)
      · exact Or.inr (Or.inr ht)

theorem not_infix_empty_of_close_not_mem {s : Text} (h : ')' ∉ s) : ¬ "()".toList <:+: s :=
  fun hinner => h (hinner.subset (by decide))

/-- Taking the parentheses of a group away leaves no empty group behind. -/
theorem not_infix_empty_shift {start inside rest : Text} (hstart : Bare start)
    (hclose : ')' ∉ inside)
    (h : ¬ "()".toList <:+: start ++ '(' :: (inside ++ ')' :: rest)) :
    ¬ "()".toList <:+: start ++ (inside ++ rest) := by
  intro hinner
  rcases infix_empty_append hinner with hs | ⟨u, v, rfl, -⟩ | hinside
  · exact not_infix_empty_of_close_not_mem hstart.close_not_mem hs
  · exact hstart.open_not_mem (List.mem_append_right u (List.mem_singleton_self '('))
  · refine h ?_
    rcases infix_empty_append hinside with hi | ⟨u, v, rfl, -⟩ | hrest
    · exact absurd hi (not_infix_empty_of_close_not_mem hclose)
    · refine ⟨start ++ '(' :: u, rest, ?_⟩
      simp
    · obtain ⟨u, v, rfl⟩ := hrest
      exact ⟨start ++ '(' :: (inside ++ ')' :: u), v, by simp⟩

theorem mem_of_mem_piece {sep c : Char} {s piece : Text} (hpiece : piece ∈ List.splitOn sep s)
    (hc : c ∈ piece) : c ∈ s := by
  have hmem := mem_intercalate_of_mem sep hpiece hc
  rwa [List.intercalate_splitOn] at hmem

/-- Of several alternatives one has not all the opening parentheses. -/
theorem exists_piece_count_lt {s : Text} (hbar : '|' ∈ s) (hopen : '(' ∈ s) :
    ∃ piece ∈ List.splitOn '|' s, piece.count '(' < s.count '(' := by
  obtain ⟨a, b, rfl, ha⟩ := exists_first_of_mem hbar
  rw [List.splitOn_append_cons_self_of_not_mem ha]
  by_cases hb : '(' ∈ b
  · refine ⟨a, List.mem_cons_self, ?_⟩
    have hpos : 0 < b.count '(' := List.count_pos_iff.2 hb
    rw [List.count_append, List.count_cons]
    omega
  · obtain ⟨piece, hpiece⟩ := List.exists_mem_of_ne_nil _ (List.splitOn_ne_nil '|' b)
    refine ⟨piece, List.mem_cons_of_mem a hpiece, ?_⟩
    have hnone : piece.count '(' = 0 :=
      List.count_eq_zero.2 fun hmem => hb (mem_of_mem_piece hpiece hmem)
    rw [hnone]
    exact List.count_pos_iff.2 hopen

/-- With parentheses inside, a group of alternatives has one that leaves more closed than
opened, if what follows closes what the group opens. -/
theorem exists_surplus_piece {start inside after : Text} (hstart : '(' ∉ start)
    (hbar : '|' ∈ inside) (hopen : '(' ∈ inside)
    (hafter : after.count ')' = inside.count '(' + after.count '(') :
    ∃ piece ∈ List.splitOn '|' inside, Surplus (start ++ piece ++ after) := by
  obtain ⟨piece, hpiece, hlt⟩ := exists_piece_count_lt hbar hopen
  have hzero : start.count '(' = 0 := List.count_eq_zero.2 hstart
  refine ⟨piece, hpiece, ?_⟩
  unfold Surplus
  simp only [List.count_append]
  omega

theorem expandFirst_start {start inside : Text} (hstart : '(' ∉ start) (hne : inside ≠ [])
    (hline : '\n' ∉ inside) (hclose : ')' ∉ inside) (after : Text) :
    expandFirst (start ++ '(' :: (inside ++ ')' :: after)) =
      (List.splitOn '|' inside).map fun choice => start ++ choice ++ after := by
  obtain ⟨c, x, rfl⟩ := List.exists_cons_of_ne_nil hne
  exact expandFirst_group hstart hline (fun hmem => hclose (List.mem_cons_of_mem c hmem)) after

/-- Branches that share what remains, one round later. -/
theorem flatMap_expandFirst {starts : List Text} (hstarts : ∀ b ∈ starts, '(' ∉ b)
    {before inside : Text} (hbefore : '(' ∉ before) (hne : inside ≠ []) (hline : '\n' ∉ inside)
    (hclose : ')' ∉ inside) (after : Text) :
    (starts.map (· ++ (before ++ '(' :: (inside ++ ')' :: after)))).flatMap expandFirst =
      (joined starts ((List.splitOn '|' inside).map (before ++ ·))).map (· ++ after) := by
  rw [List.flatMap_map, joined, List.map_flatMap, List.flatMap_def, List.flatMap_def]
  congr 1
  refine List.map_congr_left fun b hb => ?_
  have hopen : '(' ∉ b ++ before := by
    rw [List.mem_append, not_or]
    exact ⟨hstarts b hb, hbefore⟩
  rw [← List.append_assoc, expandFirst_start hopen hne hline hclose, List.map_map, List.map_map]
  refine List.map_congr_left fun choice _ => ?_
  show b ++ before ++ choice ++ after = b ++ (before ++ choice) ++ after
  rw [List.append_assoc b]

theorem bare_of_map_append {starts : List Text} (hne : starts ≠ []) {s : Text}
    (h : ∀ b ∈ starts.map (· ++ s), Bare b) : Bare s := by
  obtain ⟨b, hb⟩ := List.exists_mem_of_ne_nil _ hne
  exact (h _ (List.mem_map_of_mem hb)).of_append_right

/-- What is read has no other characters than the text. -/
theorem Reads.mem_of_mem {s : Text} {ws : List Text} (h : Reads s ws) {w : Text} (hw : w ∈ ws)
    {c : Char} (hc : c ∈ w) : c ∈ s := by
  induction h generalizing w with
  | done _ =>
    rw [List.mem_singleton.1 hw] at hc
    exact hc
  | choose _ _ _ _ ih =>
    obtain ⟨v, hv, w', hw', rfl⟩ := mem_joined.1 hw
    obtain ⟨choice, hchoice, rfl⟩ := List.mem_map.1 hv
    rw [List.append_assoc, List.mem_append, List.mem_append] at hc
    rcases hc with hc | hc | hc
    · exact List.mem_append_left _ hc
    · have hinside := mem_of_mem_piece hchoice hc
      simp [hinside]
    · have hrest := ih hw' hc
      simp [hrest]
  | shift _ _ _ _ _ ih =>
    have hmem := ih hw hc
    rw [List.mem_append, List.mem_append] at hmem
    rcases hmem with hmem | hmem | hmem
    · exact List.mem_append_left _ hmem
    · simp [hmem]
    · simp [hmem]

/-! ## Texts that can be read -/

/-- One line without an empty group that closes as often as it opens. -/
structure Readable (s : Text) : Prop where
  line : '\n' ∉ s
  empty : ¬ "()".toList <:+: s
  count : s.count '(' = s.count ')'

theorem count_group {start inside : Text} (hopen : '(' ∉ start) (hclose : ')' ∉ start)
    (hinside : ')' ∉ inside) (after : Text) :
    (start ++ '(' :: (inside ++ ')' :: after)).count '(' =
        inside.count '(' + after.count '(' + 1 ∧
      (start ++ '(' :: (inside ++ ')' :: after)).count ')' = after.count ')' + 1 := by
  simp only [List.count_append, List.count_cons_self, List.count_eq_zero.2 hopen,
    List.count_eq_zero.2 hclose, List.count_eq_zero.2 hinside,
    List.count_cons_of_ne (show ')' ≠ '(' by decide),
    List.count_cons_of_ne (show '(' ≠ ')' by decide)]
  omega

section
variable {start inside : Text} (hstart : Bare start)
include hstart

/-- What is opened is closed later on. -/
theorem Readable.exists_close {rest : Text} (h : Readable (start ++ '(' :: rest)) :
    ∃ inside after, rest = inside ++ ')' :: after ∧ inside ≠ [] ∧ ')' ∉ inside := by
  have hopen : start.count '(' = 0 := List.count_eq_zero.2 hstart.open_not_mem
  have hclose : start.count ')' = 0 := List.count_eq_zero.2 hstart.close_not_mem
  have hmem : ')' ∈ rest := by
    have hcount := h.count
    rw [List.count_append, List.count_append, hopen, hclose, List.count_cons_self,
      List.count_cons_of_ne (by decide)] at hcount
    exact List.count_pos_iff.1 (by omega)
  obtain ⟨inside, after, rfl, hinside⟩ := exists_first_of_mem hmem
  refine ⟨inside, after, rfl, fun hnil => h.empty ?_, hinside⟩
  subst hnil
  exact ⟨start, after, by simp⟩

theorem count_shift (hclose : ')' ∉ inside) (after : Text) :
    (start ++ (inside ++ after)).count '(' = inside.count '(' + after.count '(' ∧
      (start ++ (inside ++ after)).count ')' = after.count ')' := by
  have hopen : start.count '(' = 0 := List.count_eq_zero.2 hstart.open_not_mem
  have hclose' : start.count ')' = 0 := List.count_eq_zero.2 hstart.close_not_mem
  have hzero : inside.count ')' = 0 := List.count_eq_zero.2 hclose
  simp only [List.count_append, hopen, hclose', hzero]
  omega

/-- What is behind a group without parentheses inside. -/
theorem Readable.behind {after : Text} (hopen : '(' ∉ inside) (hclose : ')' ∉ inside)
    (h : Readable (start ++ '(' :: (inside ++ ')' :: after))) : Readable after := by
  obtain ⟨hcount, hcount'⟩ := count_group hstart.open_not_mem hstart.close_not_mem hclose after
  have htotal := h.count
  have hzero : inside.count '(' = 0 := List.count_eq_zero.2 hopen
  refine ⟨fun hmem => h.line (by simp [hmem]), fun hinner => h.empty ?_, by omega⟩
  obtain ⟨u, v, rfl⟩ := hinner
  exact ⟨start ++ '(' :: (inside ++ ')' :: u), v, by simp⟩

/-- What is left when the parentheses of a group go. -/
theorem Readable.shift {after : Text} (hclose : ')' ∉ inside)
    (h : Readable (start ++ '(' :: (inside ++ ')' :: after))) :
    Readable (start ++ (inside ++ after)) := by
  obtain ⟨hcount, hcount'⟩ := count_group hstart.open_not_mem hstart.close_not_mem hclose after
  obtain ⟨hshort, hshort'⟩ := count_shift hstart hclose after
  have htotal := h.count
  refine ⟨fun hmem => h.line ?_, not_infix_empty_shift hstart hclose h.empty, by omega⟩
  rw [List.mem_append, List.mem_append] at hmem
  rcases hmem with hmem | hmem | hmem
  · exact List.mem_append_left _ hmem
  · simp [hmem]
  · simp [hmem]
end

/-! ## Texts that come out clean are read -/

section
variable {n : Nat} {starts branches : List Text} (hstarts : ∀ b ∈ starts, '(' ∉ b)
  (hclean : ∀ b ∈ branches, Bare b)
include hstarts hclean

/-- What every branch keeps in front of its first group comes out clean. -/
theorem bare_of_expandRounds (hne : starts ≠ []) {before rest : Text} (hbefore : '(' ∉ before)
    (h : expandRounds n (starts.map (· ++ (before ++ rest))) = some branches) : Bare before := by
  obtain ⟨b, hb⟩ := List.exists_mem_of_ne_nil _ hne
  have hopen : '(' ∉ b ++ before := by
    rw [List.mem_append, not_or]
    exact ⟨hstarts b hb, hbefore⟩
  have hkeeps : ∀ t, b ++ before <+: t → ∃ t' ∈ expandFirst t, b ++ before <+: t' :=
    fun t => exists_prefix_expandFirst hopen
  have hstart : b ++ before <+: b ++ (before ++ rest) := by
    rw [← List.append_assoc]
    exact List.prefix_append _ _
  obtain ⟨t, ht, u, rfl⟩ :=
    exists_mem_expandRounds hkeeps h ⟨_, List.mem_map_of_mem hb, hstart⟩
  exact (hclean _ ht).of_append_left.of_append_right

/-- With parentheses inside, a group of alternatives leaves a branch that closes more than
it opens, for good. -/
theorem bar_not_mem_of_expandRounds (hne : starts ≠ []) {before inside after : Text}
    (hbare : Bare before) (hopen : '(' ∈ inside)
    (hafter : after.count ')' = inside.count '(' + after.count '(')
    (h : expandRounds n
        ((joined starts ((List.splitOn '|' inside).map (before ++ ·))).map (· ++ after)) =
      some branches) : '|' ∉ inside := by
  intro hbar
  obtain ⟨b, hb⟩ := List.exists_mem_of_ne_nil _ hne
  have hstart : '(' ∉ b ++ before := by
    rw [List.mem_append, not_or]
    exact ⟨hstarts b hb, hbare.open_not_mem⟩
  obtain ⟨piece, hpiece, hsurplus⟩ := exists_surplus_piece hstart hbar hopen hafter
  rw [List.append_assoc b] at hsurplus
  have hmem : b ++ (before ++ piece) ++ after ∈
      (joined starts ((List.splitOn '|' inside).map (before ++ ·))).map (· ++ after) :=
    List.mem_map_of_mem (mem_joined.2 ⟨b, hb, _, List.mem_map_of_mem hpiece, rfl⟩)
  obtain ⟨t, ht, hsurplus'⟩ :=
    exists_mem_expandRounds (fun _ => exists_surplus_expandFirst) h ⟨_, hmem, hsurplus⟩
  exact (hclean t ht).close_not_mem (close_mem_of_surplus hsurplus')
end

/-- Branches that share the rest have a group in it, if they have one at all. -/
theorem open_mem_of_any_hasAlternation {starts : List Text} (hstarts : ∀ b ∈ starts, '(' ∉ b)
    {s : Text} (h : (starts.map (· ++ s)).any hasAlternation = true) : '(' ∈ s := by
  refine Decidable.byContradiction fun hno => ?_
  obtain ⟨b, hb, hchoice⟩ := List.any_eq_true.1 h
  obtain ⟨start, hstart, rfl⟩ := List.mem_map.1 hb
  rw [hasAlternation_append (hstarts start hstart), hasAlternation_eq_false hno] at hchoice
  exact Bool.false_ne_true hchoice

theorem open_not_mem_joined_pieces {starts : List Text} (hstarts : ∀ b ∈ starts, '(' ∉ b)
    {before inside : Text} (hbefore : '(' ∉ before) (hinside : '(' ∉ inside) :
    ∀ t ∈ joined starts ((List.splitOn '|' inside).map (before ++ ·)), '(' ∉ t := by
  intro t ht
  obtain ⟨u, hu, v, hv, rfl⟩ := mem_joined.1 ht
  obtain ⟨piece, hpiece, rfl⟩ := List.mem_map.1 hv
  rw [List.mem_append, List.mem_append, not_or, not_or]
  exact ⟨hstarts u hu, hbefore, fun hmem => hinside (mem_of_mem_piece hpiece hmem)⟩

theorem joined_pieces_ne_nil {starts : List Text} (hne : starts ≠ []) (before inside : Text) :
    joined starts ((List.splitOn '|' inside).map (before ++ ·)) ≠ [] := by
  obtain ⟨b, hb⟩ := List.exists_mem_of_ne_nil _ hne
  obtain ⟨piece, hpiece⟩ := List.exists_mem_of_ne_nil _ (List.splitOn_ne_nil '|' inside)
  exact List.ne_nil_of_mem (mem_joined.2 ⟨b, hb, _, List.mem_map_of_mem hpiece, rfl⟩)

/-- Without a bar a round takes the parentheses away. -/
theorem joined_pieces_of_bar_not_mem (starts : List Text) {inside : Text} (hbar : '|' ∉ inside)
    (before after : Text) :
    (joined starts ((List.splitOn '|' inside).map (before ++ ·))).map (· ++ after) =
      starts.map (· ++ (before ++ (inside ++ after))) := by
  rw [List.splitOn_eq_singleton hbar, List.map_singleton, joined_singleton_right, List.map_map]
  refine List.map_congr_left fun t _ => ?_
  show t ++ (before ++ inside) ++ after = t ++ (before ++ (inside ++ after))
  rw [List.append_assoc, List.append_assoc]

/-- Branches that share a rest that can be read and come out clean: the rest is read. -/
theorem exists_reads {s : Text} (hs : Readable s) {starts : List Text} (hne : starts ≠ [])
    (hstarts : ∀ b ∈ starts, '(' ∉ b) {n : Nat} {branches : List Text}
    (h : expandRounds n (starts.map (· ++ s)) = some branches) (hclean : ∀ b ∈ branches, Bare b) :
    ∃ ws, Reads s ws ∧ branches = joined starts ws := by
  induction n generalizing s starts with
  | zero =>
    obtain rfl := Option.some.inj h
    exact ⟨[s], .done (bare_of_map_append hne hclean), (joined_singleton_right starts s).symm⟩
  | succ n ih =>
    rcases expandRounds_succ_eq_some h with ⟨-, rfl⟩ | ⟨hany, -, hrest⟩
    · exact ⟨[s], .done (bare_of_map_append hne hclean), (joined_singleton_right starts s).symm⟩
    · obtain ⟨before, s2, rfl, hbefore⟩ :=
        exists_first_of_mem (open_mem_of_any_hasAlternation hstarts hany)
      have hbare : Bare before := bare_of_expandRounds hstarts hclean hne hbefore h
      obtain ⟨inside, after, rfl, hinsidene, hclose⟩ := hs.exists_close hbare
      have hline : '\n' ∉ inside := fun hmem => hs.line (by simp [hmem])
      obtain ⟨hcount, hcount'⟩ := count_group hbefore hbare.close_not_mem hclose after
      have htotal := hs.count
      have hafter : after.count ')' = inside.count '(' + after.count '(' := by omega
      rw [flatMap_expandFirst hstarts hbefore hinsidene hline hclose after] at hrest
      by_cases hopen : '(' ∈ inside
      · have hbar : '|' ∉ inside := bar_not_mem_of_expandRounds hstarts hclean hne hbare hopen
          hafter hrest
        rw [joined_pieces_of_bar_not_mem starts hbar] at hrest
        obtain ⟨ws, hreads, hbranches⟩ := ih (hs.shift hbare hclose) hne hstarts hrest
        exact ⟨ws, .shift hbare hopen hbar hclose hreads, hbranches⟩
      · have hstarts' := open_not_mem_joined_pieces hstarts hbefore hopen
        have hne' := joined_pieces_ne_nil hne before inside
        obtain ⟨ws, hreads, hbranches⟩ := ih (hs.behind hbare hopen hclose) hne' hstarts' hrest
        refine ⟨_, .choose hbare hopen hclose hreads, ?_⟩
        rw [hbranches, joined_assoc]

end Regexp
end StyleScope
