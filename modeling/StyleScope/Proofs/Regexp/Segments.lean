import StyleScope.Proofs.Regexp.Reading

/-!
# Reading a text part by part

Parentheses that go leave the other characters, the letters, in their order.  A balanced
part without alternatives is read as its letters.  In a part that stops at a bar one
opening parenthesis remains, the last one, and the letters before it end up in front of
the group, where they precede every alternative.
-/

namespace StyleScope
namespace Regexp

open Text Nested

def letters (s : Text) : Text := s.filter fun c => c != '(' && c != ')'

theorem letters_append (s t : Text) : letters (s ++ t) = letters s ++ letters t :=
  List.filter_append s t

theorem letters_open (s : Text) : letters ('(' :: s) = letters s := rfl

theorem letters_close (s : Text) : letters (')' :: s) = letters s := rfl

theorem letters_eq_self {s : Text} (hopen : '(' ∉ s) (hclose : ')' ∉ s) : letters s = s := by
  refine List.filter_eq_self.2 fun c hc => ?_
  have h1 : c ≠ '(' := fun heq => hopen (heq ▸ hc)
  have h2 : c ≠ ')' := fun heq => hclose (heq ▸ hc)
  simp [h1, h2]

theorem Bare.letters_eq {s : Text} (h : Bare s) : letters s = s :=
  letters_eq_self h.open_not_mem h.close_not_mem

theorem mem_of_mem_letters {s : Text} {c : Char} (h : c ∈ letters s) : c ∈ s :=
  (List.mem_filter.1 h).1

theorem map_append_joined (s : Text) (ss ts : List Text) :
    (joined ss ts).map (s ++ ·) = joined (ss.map (s ++ ·)) ts := by
  rw [← joined_singleton_left s (joined ss ts), ← joined_assoc, joined_singleton_left]

/-! ## The first parenthesis -/

/-- What a reading says about the first opening parenthesis. -/
theorem Reads.of_open {start t : Text} {ws : List Text} (hopen : '(' ∉ start)
    (h : Reads (start ++ '(' :: t) ws) :
    Bare start ∧ ∃ inside rest, t = inside ++ ')' :: rest ∧ ')' ∉ inside ∧
      (('(' ∉ inside ∧ ∃ ws', Reads rest ws' ∧
          ws = joined ((List.splitOn '|' inside).map (start ++ ·)) ws') ∨
        ('(' ∈ inside ∧ '|' ∉ inside ∧ Reads (start ++ (inside ++ rest)) ws)) := by
  generalize hs : start ++ '(' :: t = s at h
  cases h with
  | done hbare =>
    rw [← hs] at hbare
    exact absurd (List.mem_append_right start List.mem_cons_self) hbare.open_not_mem
  | choose hstart hinside hclose hrest =>
    obtain ⟨rfl, rfl⟩ := append_cons_inj hopen hstart.open_not_mem hs
    exact ⟨hstart, _, _, rfl, hclose, Or.inl ⟨hinside, _, hrest, rfl⟩⟩
  | shift hstart hinside hbar hclose hrest =>
    obtain ⟨rfl, rfl⟩ := append_cons_inj hopen hstart.open_not_mem hs
    exact ⟨hstart, _, _, rfl, hclose, Or.inr ⟨hinside, hbar, hrest⟩⟩

theorem Reads.eq_of_nil {ws : List Text} (h : Reads [] ws) : ws = [[]] := by
  generalize hs : ([] : Text) = s at h
  cases h with
  | done _ => rw [← hs]
  | choose _ _ _ _ => exact absurd hs.symm (by simp)
  | shift _ _ _ _ _ => exact absurd hs.symm (by simp)

/-- A bare part is read as itself. -/
theorem Reads.of_bare_append {s t : Text} {ws : List Text} (hs : Bare s)
    (h : Reads (s ++ t) ws) : ∃ ws', Reads t ws' ∧ ws = ws'.map (s ++ ·) := by
  generalize hst : s ++ t = u at h
  induction h generalizing t with
  | done hbare =>
    subst hst
    exact ⟨[t], .done hbare.of_append_right, rfl⟩
  | choose hstart hinside hclose hrest _ =>
    obtain ⟨start', rfl, rfl⟩ := exists_append_of_append_eq hs.open_not_mem hst
    refine ⟨_, .choose hstart.of_append_right hinside hclose hrest, ?_⟩
    rw [map_append_joined, List.map_map]
    congr 1
    refine List.map_congr_left fun choice _ => ?_
    exact List.append_assoc s start' choice
  | shift hstart hinside hbar hclose _ ih =>
    obtain ⟨start', rfl, rfl⟩ := exists_append_of_append_eq hs.open_not_mem hst
    obtain ⟨ws', hreads, hws⟩ := ih (List.append_assoc _ _ _).symm
    exact ⟨ws', .shift hstart.of_append_right hinside hbar hclose hreads, hws⟩

/-- A part with both parentheses has a group in front. -/
theorem Reads.exists_group {s t : Text} {ws : List Text} (hopen : '(' ∈ s) (hclose : ')' ∈ s)
    (h : Reads (s ++ t) ws) :
    ∃ start i s', s = start ++ '(' :: (i ++ ')' :: s') ∧ '(' ∉ start ∧ ')' ∉ i := by
  obtain ⟨start, rest, rfl, hstart⟩ := exists_first_of_mem hopen
  rw [List.append_assoc] at h
  have hbare : Bare start := (Reads.of_open hstart h).1
  have hmem : ')' ∈ rest := by
    rw [List.mem_append, List.mem_cons] at hclose
    rcases hclose with hmem | hmem | hmem
    · exact absurd hmem hbare.close_not_mem
    · exact absurd hmem (by decide)
    · exact hmem
  obtain ⟨i, s', rfl, hi⟩ := exists_first_of_mem hmem
  exact ⟨start, i, s', rfl, hstart, hi⟩

theorem letters_shift (start i s : Text) :
    letters (start ++ '(' :: (i ++ ')' :: s)) = letters (start ++ (i ++ s)) := by
  rw [letters_append, letters_open, letters_append, letters_close, letters_append, letters_append]

theorem bar_not_mem_shift {start i s : Text} (h : '|' ∉ start ++ '(' :: (i ++ ')' :: s)) :
    '|' ∉ start ++ (i ++ s) := by
  intro hmem
  rw [List.mem_append, List.mem_append] at hmem
  rcases hmem with hmem | hmem | hmem
  · exact h (List.mem_append_left _ hmem)
  · exact h (by simp [hmem])
  · exact h (by simp [hmem])

/-- A group that closes inside a part: either it has no parentheses inside and goes, or its
own parentheses go. -/
theorem Reads.of_group {start i s t : Text} {ws : List Text} (hopen : '(' ∉ start)
    (hclose : ')' ∉ i) (hbar : '|' ∉ i) (h : Reads (start ++ '(' :: (i ++ ')' :: s) ++ t) ws) :
    Bare start ∧ (('(' ∉ i ∧ ∃ ws', Reads (s ++ t) ws' ∧
        ws = ws'.map (letters (start ++ '(' :: (i ++ [')'])) ++ ·)) ∨
      ('(' ∈ i ∧ Reads (start ++ (i ++ s) ++ t) ws)) := by
  have htext : start ++ '(' :: (i ++ ')' :: s) ++ t = start ++ '(' :: (i ++ ')' :: (s ++ t)) := by
    simp
  rw [htext] at h
  obtain ⟨hbare, inside, rest, heq, hinside, hcases⟩ := Reads.of_open hopen h
  obtain ⟨rfl, rfl⟩ := append_cons_inj hclose hinside heq
  refine ⟨hbare, ?_⟩
  rcases hcases with ⟨hno, ws', hrest, rfl⟩ | ⟨hmem, -, hrest⟩
  · refine Or.inl ⟨hno, ws', hrest, ?_⟩
    have hletters : letters (start ++ '(' :: (i ++ [')'])) = start ++ i := by
      rw [letters_append, letters_open, letters_append, hbare.letters_eq,
        letters_eq_self hno hclose]
      show start ++ (i ++ []) = start ++ i
      rw [List.append_nil]
    rw [List.splitOn_eq_singleton hbar, List.map_singleton, joined_singleton_left, hletters]
  · refine Or.inr ⟨hmem, ?_⟩
    rw [List.append_assoc, List.append_assoc]
    exact hrest

/-! ## Balanced parts -/

/-- A balanced part without alternatives is read as its letters. -/
theorem Reads.of_balanced_append {s t : Text} {ws : List Text} (hbar : '|' ∉ s)
    (hcount : s.count '(' = s.count ')') (h : Reads (s ++ t) ws) :
    ∃ ws', Reads t ws' ∧ ws = ws'.map (letters s ++ ·) := by
  induction hn : s.count '(' using Nat.strongRecOn generalizing s ws with
  | ind n ih =>
    by_cases hopen : '(' ∈ s
    · have hclosed : ')' ∈ s := by
        have hpos := List.count_pos_iff.2 hopen
        exact List.count_pos_iff.1 (by omega)
      obtain ⟨start, i, s3, rfl, hstart, hi⟩ := Reads.exists_group hopen hclosed h
      have hbari : '|' ∉ i := fun hmem => hbar (by simp [hmem])
      obtain ⟨hbare, hcases⟩ := Reads.of_group hstart hi hbari h
      obtain ⟨hopens, hcloses⟩ := count_group hbare.open_not_mem hbare.close_not_mem hi s3
      rcases hcases with ⟨hno, ws1, hrest, rfl⟩ | ⟨hmem, hrest⟩
      · have hzero : i.count '(' = 0 := List.count_eq_zero.2 hno
        have hbar3 : '|' ∉ s3 := fun hmem => hbar (by simp [hmem])
        obtain ⟨ws', hreads, rfl⟩ := ih (s3.count '(') (by omega) hbar3 (by omega) hrest rfl
        refine ⟨ws', hreads, ?_⟩
        have htext : start ++ '(' :: (i ++ ')' :: s3) = start ++ '(' :: (i ++ [')']) ++ s3 := by
          simp
        rw [List.map_map, htext, letters_append _ s3]
        exact List.map_congr_left fun w _ => (List.append_assoc _ _ w).symm
      · obtain ⟨hshort, hshort'⟩ := count_shift hbare hi s3
        have hbar' : '|' ∉ start ++ (i ++ s3) := bar_not_mem_shift hbar
        obtain ⟨ws', hreads, rfl⟩ := ih _ (by omega) hbar' (by omega) hrest rfl
        exact ⟨ws', hreads, by rw [letters_shift]⟩
    · have hclose : ')' ∉ s := by
        refine List.count_eq_zero.1 ?_
        rw [← hcount]
        exact List.count_eq_zero.2 hopen
      have hbare := bare_of_not_mem hopen hclose hbar
      rw [hbare.letters_eq]
      exact Reads.of_bare_append hbare h

/-! ## Parts that stop at a bar -/

/-- The letters on either side of the last opening parenthesis. -/
def LastOpen (s moved head : Text) : Prop :=
  ∃ a b, s = a ++ '(' :: b ∧ '(' ∉ b ∧ letters a = moved ∧ letters b = head

theorem LastOpen.letters_eq {s moved head : Text} (h : LastOpen s moved head) :
    letters s = moved ++ head := by
  obtain ⟨a, b, rfl, -, rfl, rfl⟩ := h
  rw [letters_append, letters_open]

/-- The last opening parenthesis is in a part that has one. -/
theorem LastOpen.append_left {s moved head : Text} (t : Text) (h : LastOpen s moved head) :
    LastOpen (t ++ s) (letters t ++ moved) head := by
  obtain ⟨a, b, rfl, hb, rfl, rfl⟩ := h
  exact ⟨t ++ a, b, by rw [List.append_assoc], hb, letters_append t a, rfl⟩

theorem LastOpen.append_right {s moved head : Text} {t : Text} (ht : '(' ∉ t)
    (h : LastOpen s moved head) : LastOpen (s ++ t) moved (head ++ letters t) := by
  obtain ⟨a, b, rfl, hb, rfl, rfl⟩ := h
  refine ⟨a, b ++ t, by simp, ?_, rfl, letters_append b t⟩
  rw [List.mem_append, not_or]
  exact ⟨hb, ht⟩

theorem exists_lastOpen {s : Text} (h : '(' ∈ s) : ∃ moved head, LastOpen s moved head := by
  obtain ⟨a, b, rfl, hb⟩ := exists_last_of_mem h
  exact ⟨_, _, a, b, rfl, hb, rfl, rfl⟩

theorem LastOpen.unique {s moved head moved' head' : Text} (h : LastOpen s moved head)
    (h' : LastOpen s moved' head') : moved = moved' ∧ head = head' := by
  obtain ⟨a, b, rfl, hb, rfl, rfl⟩ := h
  obtain ⟨a', b', hs, hb', rfl, rfl⟩ := h'
  have hrev : b.reverse ++ '(' :: a.reverse = b'.reverse ++ '(' :: a'.reverse := by
    have hr := congrArg List.reverse hs
    simpa using hr
  have hmem : ∀ {t : Text}, '(' ∉ t → '(' ∉ t.reverse := fun ht hmem => ht (List.mem_reverse.1 hmem)
  obtain ⟨hbb, haa⟩ := append_cons_inj (hmem hb) (hmem hb') hrev
  exact ⟨by rw [List.reverse_inj.1 haa], by rw [List.reverse_inj.1 hbb]⟩

/-- Taking the parentheses of a group away that has another one inside leaves the last
opening parenthesis where it is. -/
theorem LastOpen.of_shift {start inside rest moved head : Text} (hmem : '(' ∈ inside)
    (h : LastOpen (start ++ (inside ++ rest)) moved head) :
    LastOpen (start ++ '(' :: (inside ++ ')' :: rest)) moved head := by
  by_cases hrest : '(' ∈ rest
  · obtain ⟨m, hd, hlast⟩ := exists_lastOpen hrest
    have hshort := (hlast.append_left inside).append_left start
    obtain ⟨rfl, rfl⟩ := h.unique hshort
    have hlong := (hlast.append_left ('(' :: (inside ++ [')']))).append_left start
    have hletters : letters ('(' :: (inside ++ [')'])) = letters inside := by
      rw [letters_open, letters_append]
      exact List.append_nil _
    rw [hletters] at hlong
    simpa using hlong
  · obtain ⟨m, hd, hlast⟩ := exists_lastOpen hmem
    have hshort := (hlast.append_right hrest).append_left start
    obtain ⟨rfl, rfl⟩ := h.unique hshort
    have hrest' : '(' ∉ ')' :: rest := by simp [hrest]
    have hlong := ((hlast.append_right hrest').append_left ['(']).append_left start
    simpa [letters] using hlong

/-- A part leaves one parenthesis open, and the text behind the next bar closes it without
another one in between. -/
def ReadsSegment (s t : Text) (ws : List Text) : Prop :=
  ∃ moved head inside rest ws', LastOpen s moved head ∧ t = inside ++ ')' :: rest ∧
    '(' ∉ inside ∧ ')' ∉ inside ∧ Reads rest ws' ∧
    ws = joined ((head :: List.splitOn '|' inside).map (moved ++ ·)) ws'

theorem ReadsSegment.append_left {s t : Text} {ws : List Text} (p : Text)
    (h : ReadsSegment s t ws) : ReadsSegment (p ++ s) t (ws.map (letters p ++ ·)) := by
  obtain ⟨moved, head, inside, rest, ws', hlast, ht, hopen, hclose, hrest, rfl⟩ := h
  refine ⟨letters p ++ moved, head, inside, rest, ws', hlast.append_left p, ht, hopen, hclose,
    hrest, ?_⟩
  rw [map_append_joined, List.map_map]
  congr 1
  exact List.map_congr_left fun w _ => (List.append_assoc (letters p) moved w).symm

theorem ReadsSegment.of_shift {start i s t : Text} {ws : List Text} (hmem : '(' ∈ i)
    (h : ReadsSegment (start ++ (i ++ s)) t ws) :
    ReadsSegment (start ++ '(' :: (i ++ ')' :: s)) t ws := by
  obtain ⟨moved, head, inside, rest, ws', hlast, ht, hopen, hclose, hrest, hws⟩ := h
  exact ⟨moved, head, inside, rest, ws', hlast.of_shift hmem, ht, hopen, hclose, hrest, hws⟩

/-- A bar stands behind an opening parenthesis. -/
theorem Reads.open_mem_of_bar {s t : Text} {ws : List Text} (h : Reads (s ++ '|' :: t) ws) :
    '(' ∈ s := by
  refine Decidable.byContradiction fun hno => ?_
  by_cases hmem : '(' ∈ t
  · obtain ⟨a, b, rfl, ha⟩ := exists_first_of_mem hmem
    have hstart : '(' ∉ s ++ '|' :: a := by simp [hno, ha]
    have hreads : Reads ((s ++ '|' :: a) ++ '(' :: b) ws := by simpa using h
    have hbare := (Reads.of_open hstart hreads).1
    exact hbare.bar_not_mem (List.mem_append_right s List.mem_cons_self)
  · have hall : '(' ∉ s ++ '|' :: t := by simp [hno, hmem]
    generalize hst : s ++ '|' :: t = u at h hall
    cases h with
    | done hbare =>
      rw [← hst] at hbare
      exact hbare.bar_not_mem (List.mem_append_right s List.mem_cons_self)
    | choose _ _ _ _ => exact hall (List.mem_append_right _ List.mem_cons_self)
    | shift _ _ _ _ _ => exact hall (List.mem_append_right _ List.mem_cons_self)

/-- Without a closing parenthesis in the part, its group reaches over the bar. -/
theorem Reads.of_segment_of_close_not_mem {s t : Text} {ws : List Text} (hbar : '|' ∉ s)
    (hclose : ')' ∉ s) (h : Reads (s ++ '|' :: t) ws) :
    s.count '(' = 1 ∧ ReadsSegment s t ws := by
  obtain ⟨start, s2, rfl, hstart⟩ := exists_first_of_mem h.open_mem_of_bar
  have hclose2 : ')' ∉ s2 := fun hmem => hclose (by simp [hmem])
  have hbar2 : '|' ∉ s2 := fun hmem => hbar (by simp [hmem])
  rw [List.append_assoc, List.cons_append] at h
  obtain ⟨hbare, inside, rest, heq, hinside, hcases⟩ := Reads.of_open hstart h
  obtain ⟨i, rfl, rfl⟩ : ∃ i, inside = s2 ++ '|' :: i ∧ t = i ++ ')' :: rest := by
    obtain ⟨i, hi, ht⟩ := exists_append_of_append_eq hclose2 heq
    cases i with
    | nil => exact absurd (List.cons.inj ht).1 (by decide)
    | cons d i =>
      obtain ⟨rfl, htail⟩ := List.cons.inj ht
      exact ⟨i, hi, htail⟩
  rcases hcases with ⟨hno, ws', hrest, rfl⟩ | ⟨-, hno, -⟩
  · have hopen2 : '(' ∉ s2 := fun hmem => hno (List.mem_append_left _ hmem)
    have hopeni : '(' ∉ i := fun hmem => hno (by simp [hmem])
    have hclosei : ')' ∉ i := fun hmem => hinside (by simp [hmem])
    refine ⟨?_, start, s2, i, rest, ws', ⟨start, s2, rfl, hopen2, hbare.letters_eq,
      letters_eq_self hopen2 hclose2⟩, rfl, hopeni, hclosei, hrest, ?_⟩
    · rw [List.count_append, List.count_cons_self, List.count_eq_zero.2 hstart,
        List.count_eq_zero.2 hopen2]
    · rw [List.splitOn_append_cons_self_of_not_mem hbar2]
  · exact absurd (List.mem_append_right s2 List.mem_cons_self) hno

/-- A part up to a bar leaves one parenthesis open, and the text behind the bar closes it. -/
theorem Reads.of_segment {s t : Text} {ws : List Text} (hbar : '|' ∉ s)
    (h : Reads (s ++ '|' :: t) ws) :
    s.count '(' = s.count ')' + 1 ∧ ReadsSegment s t ws := by
  induction hn : s.count '(' using Nat.strongRecOn generalizing s ws with
  | ind n ih =>
    by_cases hclosed : ')' ∈ s
    · obtain ⟨start, i, s3, rfl, hstart, hi⟩ := Reads.exists_group h.open_mem_of_bar hclosed h
      have hbari : '|' ∉ i := fun hmem => hbar (by simp [hmem])
      obtain ⟨hbare, hcases⟩ := Reads.of_group hstart hi hbari h
      obtain ⟨hopens, hcloses⟩ := count_group hbare.open_not_mem hbare.close_not_mem hi s3
      rcases hcases with ⟨hno, ws', hrest, rfl⟩ | ⟨hmem, hrest⟩
      · have hzero : i.count '(' = 0 := List.count_eq_zero.2 hno
        have hbar3 : '|' ∉ s3 := fun hmem => hbar (by simp [hmem])
        obtain ⟨hcount, hsegment⟩ := ih (s3.count '(') (by omega) hbar3 hrest rfl
        have htext : start ++ '(' :: (i ++ ')' :: s3) = start ++ '(' :: (i ++ [')']) ++ s3 := by
          simp
        refine ⟨by omega, ?_⟩
        rw [htext]
        exact hsegment.append_left _
      · obtain ⟨hshort, hshort'⟩ := count_shift hbare hi s3
        obtain ⟨hcount, hsegment⟩ := ih _ (by omega) (bar_not_mem_shift hbar) hrest rfl
        exact ⟨by omega, hsegment.of_shift hmem⟩
    · obtain ⟨hone, hsegment⟩ := Reads.of_segment_of_close_not_mem hbar hclosed h
      have hzero : s.count ')' = 0 := List.count_eq_zero.2 hclosed
      exact ⟨by omega, hsegment⟩

end Regexp
end StyleScope
