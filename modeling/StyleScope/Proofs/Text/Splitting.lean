import StyleScope.Text.Scan

/-!
# Cutting a text

Where a text is cut at the first occurrence of a character, and how the pieces between runs of
a character are counted.  Blanks come and go when a text is scanned, and its weight, the number
of the other characters, tells what else was lost.
-/

namespace StyleScope
namespace Text

/-! ## The first occurrence of a character -/

theorem all_ne_of_not_mem {c : Char} {s : Text} (h : c ∉ s) : ∀ x ∈ s, (x != c) = true := by
  intro x hx
  rw [bne_iff_ne]
  rintro rfl
  exact h hx

theorem forall_ne_of_not_mem {a b : Char} {s : Text} (ha : a ∉ s) (hb : b ∉ s) :
    ∀ c ∈ s, c ≠ a ∧ c ≠ b :=
  fun _ hc => ⟨fun heq => ha (heq ▸ hc), fun heq => hb (heq ▸ hc)⟩

theorem not_mem_takeWhile_ne (c : Char) (s : Text) : c ∉ s.takeWhile (· != c) := by
  intro h
  have hc := List.all_eq_true.1 List.all_takeWhile c h
  simp at hc

theorem takeWhile_ne_append_cons {c : Char} {s : Text} (h : c ∉ s) (t : Text) :
    (s ++ c :: t).takeWhile (· != c) = s := by
  rw [List.takeWhile_append_of_pos (all_ne_of_not_mem h), List.takeWhile_cons_of_neg (by simp),
    List.append_nil]

theorem dropWhile_ne_append_cons {c : Char} {s : Text} (h : c ∉ s) (t : Text) :
    (s ++ c :: t).dropWhile (· != c) = c :: t := by
  rw [List.dropWhile_append_of_pos (all_ne_of_not_mem h), List.dropWhile_cons_of_neg (by simp)]

theorem takeWhile_ne_of_not_mem {c : Char} {s : Text} (h : c ∉ s) :
    s.takeWhile (· != c) = s := by
  have happ : (s ++ []).takeWhile (· != c) = s ++ [].takeWhile (· != c) :=
    List.takeWhile_append_of_pos (all_ne_of_not_mem h)
  simpa using happ

theorem dropWhile_ne_of_not_mem {c : Char} {s : Text} (h : c ∉ s) :
    s.dropWhile (· != c) = [] := by
  have happ : (s ++ []).dropWhile (· != c) = [].dropWhile (· != c) :=
    List.dropWhile_append_of_pos (all_ne_of_not_mem h)
  simpa using happ

/-- What stands behind a run begins with a character that is none of the run. -/
theorem eq_append_of_dropWhile_eq_cons {p : Char → Bool} {d : Char} {s rest : Text}
    (h : s.dropWhile p = d :: rest) : p d = false ∧ s = s.takeWhile p ++ d :: rest := by
  have hhead := List.head?_dropWhile_not p s
  rw [h] at hhead
  refine ⟨by simpa using hhead, ?_⟩
  rw [← h, List.takeWhile_append_dropWhile]

theorem eq_append_of_dropWhile_ne_eq_cons {c d : Char} {s rest : Text}
    (h : s.dropWhile (· != c) = d :: rest) : s = s.takeWhile (· != c) ++ c :: rest := by
  obtain ⟨hd, hs⟩ := eq_append_of_dropWhile_eq_cons h
  obtain rfl : d = c := by simpa using hd
  exact hs

/-- The text up to the first `c`, that `c`, and the rest. -/
theorem exists_first_of_mem {c : Char} {s : Text} (h : c ∈ s) :
    ∃ a b, s = a ++ c :: b ∧ c ∉ a := by
  induction s with
  | nil => exact absurd h List.not_mem_nil
  | cons x s ih =>
    by_cases hx : x = c
    · exact ⟨[], s, by rw [hx]; rfl, List.not_mem_nil⟩
    · obtain ⟨a, b, rfl, ha⟩ := ih ((List.mem_cons.1 h).resolve_left (Ne.symm hx))
      refine ⟨x :: a, b, rfl, ?_⟩
      rw [List.mem_cons, not_or]
      exact ⟨Ne.symm hx, ha⟩

/-- The last `c` of a text, with what stands on either side of it. -/
theorem exists_last_of_mem {c : Char} {s : Text} (h : c ∈ s) :
    ∃ a b, s = a ++ c :: b ∧ c ∉ b := by
  induction s with
  | nil => exact absurd h List.not_mem_nil
  | cons x s ih =>
    by_cases hs : c ∈ s
    · obtain ⟨a, b, rfl, hb⟩ := ih hs
      exact ⟨x :: a, b, rfl, hb⟩
    · obtain rfl : c = x := (List.mem_cons.1 h).resolve_right hs
      exact ⟨[], s, rfl, hs⟩

/-- A character that the first parts lack marks where both texts are cut. -/
theorem append_cons_inj {c : Char} {s s' t t' : Text} (hs : c ∉ s) (hs' : c ∉ s')
    (h : s ++ c :: t = s' ++ c :: t') : s = s' ∧ t = t' := by
  have hfirst := congrArg (List.takeWhile (· != c)) h
  have hrest := congrArg (List.dropWhile (· != c)) h
  rw [takeWhile_ne_append_cons hs, takeWhile_ne_append_cons hs'] at hfirst
  rw [dropWhile_ne_append_cons hs, dropWhile_ne_append_cons hs', List.cons.injEq] at hrest
  exact ⟨hfirst, hrest.2⟩

/-- A text without the character is in front of the first one. -/
theorem exists_append_of_append_eq {c : Char} {s t start rest : Text} (hs : c ∉ s)
    (h : s ++ t = start ++ c :: rest) :
    ∃ start', start = s ++ start' ∧ t = start' ++ c :: rest := by
  induction s generalizing start with
  | nil => exact ⟨start, rfl, h⟩
  | cons d s ih =>
    rw [List.mem_cons, not_or] at hs
    cases start with
    | nil => exact absurd (List.cons.inj h).1.symm hs.1
    | cons e start =>
      obtain ⟨rfl, htail⟩ := List.cons.inj h
      obtain ⟨start', rfl, ht⟩ := ih hs.2 htail
      exact ⟨start', rfl, ht⟩

/-- A character that the last parts lack marks where both texts are cut. -/
theorem append_cons_inj_right {c : Char} {s s' t t' : Text} (ht : c ∉ t) (ht' : c ∉ t')
    (h : s ++ c :: t = s' ++ c :: t') : s = s' ∧ t = t' := by
  have hrev := congrArg List.reverse h
  simp only [List.reverse_append, List.reverse_cons, List.append_assoc, List.singleton_append]
    at hrev
  obtain ⟨htail, hhead⟩ := append_cons_inj (fun hmem => ht (List.mem_reverse.1 hmem))
    (fun hmem => ht' (List.mem_reverse.1 hmem)) hrev
  exact ⟨List.reverse_inj.1 hhead, List.reverse_inj.1 htail⟩

/-! ## Words that lack a character -/

theorem prefix_of_prefix_append_cons {c : Char} {w s t : Text} (hc : c ∉ w)
    (h : w <+: s ++ c :: t) : w <+: s := by
  induction w generalizing s with
  | nil => exact List.nil_prefix
  | cons x w ih =>
    rw [List.mem_cons, not_or] at hc
    cases s with
    | nil => exact absurd (List.cons_prefix_cons.1 h).1.symm hc.1
    | cons y s =>
      obtain ⟨rfl, hw⟩ := List.cons_prefix_cons.1 h
      exact List.cons_prefix_cons.2 ⟨rfl, ih hc.2 hw⟩

/-- A word occurs on one side of a character that it lacks. -/
theorem infix_append_cons_iff {c : Char} {w s t : Text} (hc : c ∉ w) :
    w <:+: s ++ c :: t ↔ w <:+: s ∨ w <:+: t := by
  constructor
  · intro h
    induction s with
    | nil =>
      rcases List.infix_cons_iff.1 h with hpre | ht
      · exact Or.inl (prefix_of_prefix_append_cons (s := []) hc hpre).isInfix
      · exact Or.inr ht
    | cons x s ih =>
      rcases List.infix_cons_iff.1 h with hpre | hinner
      · exact Or.inl (prefix_of_prefix_append_cons (s := x :: s) hc hpre).isInfix
      · exact (ih hinner).imp_left List.infix_cons
  · rintro (h | h)
    · exact h.trans (List.prefix_append s (c :: t)).isInfix
    · exact h.trans ((List.suffix_cons c t).trans (List.suffix_append s (c :: t))).isInfix

/-- A word does not start in a text without its first character. -/
theorem infix_of_infix_append {x : Char} {w s t : Text} (hx : x ∉ s) (h : x :: w <:+: s ++ t) :
    x :: w <:+: t := by
  induction s with
  | nil => exact h
  | cons y s ih =>
    rw [List.mem_cons, not_or] at hx
    rcases List.infix_cons_iff.1 h with hpre | hinner
    · exact absurd (List.cons_prefix_cons.1 hpre).1 hx.1
    · exact ih hx.2 hinner

/-- A word does not end in a text without its last character. -/
theorem infix_of_infix_append_right {x : Char} {w s t : Text} (hx : x ∉ t)
    (h : w ++ [x] <:+: s ++ t) : w ++ [x] <:+: s := by
  rw [← List.reverse_infix, List.reverse_append, List.reverse_append] at h
  rw [← List.reverse_infix, List.reverse_append]
  exact infix_of_infix_append (fun hmem => hx (List.mem_reverse.1 hmem)) h

def decidableInfix (word : Text) : (s : Text) → Decidable (word <:+: s)
  | [] => decidable_of_iff _ List.infix_nil.symm
  | _ :: s =>
    haveI := decidableInfix word s
    decidable_of_iff _ List.infix_cons_iff.symm

/-! ## Joined pieces -/

section Joined

variable {α : Type}

theorem intercalate_cons_cons (sep : α) (v w : List α) (ws : List (List α)) :
    List.intercalate [sep] (v :: w :: ws) = v ++ sep :: List.intercalate [sep] (w :: ws) := by
  rw [List.intercalate_cons_cons, List.append_assoc, List.singleton_append]

theorem intercalate_append (sep : α) {vs ws : List (List α)} (hvs : vs ≠ []) (hws : ws ≠ []) :
    List.intercalate [sep] (vs ++ ws) =
      List.intercalate [sep] vs ++ sep :: List.intercalate [sep] ws := by
  induction vs with
  | nil => exact absurd rfl hvs
  | cons v vs ih =>
    cases vs with
    | nil =>
      cases ws with
      | nil => exact absurd rfl hws
      | cons w ws =>
        rw [List.intercalate_singleton]
        exact intercalate_cons_cons sep v w ws
    | cons v' vs =>
      rw [List.cons_append, List.cons_append, intercalate_cons_cons, intercalate_cons_cons,
        ← List.cons_append, ih (List.cons_ne_nil v' vs), List.append_assoc, List.cons_append]

theorem mem_intercalate {sep c : α} {ws : List (List α)}
    (h : c ∈ List.intercalate [sep] ws) : c = sep ∨ ∃ w ∈ ws, c ∈ w := by
  induction ws with
  | nil => exact absurd h List.not_mem_nil
  | cons v ws ih =>
    cases ws with
    | nil =>
      rw [List.intercalate_singleton] at h
      exact Or.inr ⟨v, List.mem_cons_self, h⟩
    | cons w ws =>
      rw [intercalate_cons_cons, List.mem_append, List.mem_cons] at h
      rcases h with h | h | h
      · exact Or.inr ⟨v, List.mem_cons_self, h⟩
      · exact Or.inl h
      · obtain hc | ⟨x, hx, hcx⟩ := ih h
        · exact Or.inl hc
        · exact Or.inr ⟨x, List.mem_cons_of_mem v hx, hcx⟩

theorem mem_intercalate_of_mem (sep : α) {c : α} {w : List α} {ws : List (List α)}
    (hw : w ∈ ws) (hc : c ∈ w) : c ∈ List.intercalate [sep] ws := by
  induction ws with
  | nil => exact absurd hw List.not_mem_nil
  | cons v ws ih =>
    cases ws with
    | nil =>
      rw [List.intercalate_singleton, ← List.mem_singleton.1 hw]
      exact hc
    | cons x ws =>
      rw [intercalate_cons_cons, List.mem_append, List.mem_cons]
      rcases List.mem_cons.1 hw with rfl | hw
      · exact Or.inl hc
      · exact Or.inr (Or.inr (ih hw))

/-- With pieces left out, a separator goes as well. -/
theorem intercalate_sublist (sep : α) {vs ws : List (List α)} (h : vs.Sublist ws) :
    (List.intercalate [sep] vs).Sublist (List.intercalate [sep] ws) := by
  induction h with
  | slnil => exact List.Sublist.refl _
  | @cons vs ws w h ih =>
    cases ws with
    | nil =>
      rw [List.sublist_nil.1 h]
      exact List.nil_sublist _
    | cons x ws =>
      rw [intercalate_cons_cons]
      exact (ih.cons sep).trans (List.sublist_append_right w _)
  | @cons_cons vs ws w h ih =>
    cases vs with
    | nil =>
      cases ws with
      | nil => exact List.Sublist.refl _
      | cons x ws =>
        rw [intercalate_cons_cons, List.intercalate_singleton]
        exact List.sublist_append_left w _
    | cons v vs =>
      cases ws with
      | nil => exact absurd h (by simp)
      | cons x ws =>
        rw [intercalate_cons_cons, intercalate_cons_cons]
        exact (ih.cons_cons sep).append_left w

variable [BEq α] {sep : α}

/-- There is one piece more than separators. -/
theorem length_splitOn (sep : α) (s : List α) : (s.splitOn sep).length = s.count sep + 1 := by
  induction s with
  | nil => rfl
  | cons c s ih =>
    rw [List.splitOn_cons_eq_if_modifyHead, List.count_cons]
    by_cases h : (c == sep) = true
    · rw [if_pos h, if_pos h, List.length_cons, ih]
    · rw [if_neg h, if_neg h, List.length_modifyHead, ih, Nat.add_zero]

variable [LawfulBEq α]

/-- Pieces with the separator in front of each come back. -/
theorem splitOn_append_flatMap {s : List α} {ws : List (List α)} (hs : sep ∉ s)
    (hws : ∀ w ∈ ws, sep ∉ w) : (s ++ ws.flatMap (sep :: ·)).splitOn sep = s :: ws := by
  induction ws generalizing s with
  | nil => rw [List.flatMap_nil, List.append_nil, List.splitOn_eq_singleton hs]
  | cons w ws ih =>
    rw [List.flatMap_cons, List.cons_append, List.splitOn_append_cons_self_of_not_mem hs,
      ih (hws w List.mem_cons_self) fun v hv => hws v (List.mem_cons_of_mem w hv)]

theorem not_mem_of_mem_splitOn {s piece : List α} (h : piece ∈ s.splitOn sep) : sep ∉ piece := by
  induction s generalizing piece with
  | nil =>
    rw [List.mem_singleton.1 h]
    exact List.not_mem_nil
  | cons c s ih =>
    rw [List.splitOn_cons_eq_if_modifyHead] at h
    by_cases hc : (c == sep) = true
    · rw [if_pos hc] at h
      rcases List.mem_cons.1 h with rfl | h
      · exact List.not_mem_nil
      · exact ih h
    · rw [if_neg hc] at h
      cases hs : s.splitOn sep with
      | nil => exact absurd hs (List.splitOn_ne_nil sep s)
      | cons first pieces =>
        rw [hs] at h ih
        rcases List.mem_cons.1 h with rfl | h
        · rw [List.mem_cons, not_or]
          exact ⟨fun heq => hc (heq ▸ beq_self_eq_true sep), ih List.mem_cons_self⟩
        · exact ih (List.mem_cons_of_mem first h)

end Joined

/-! ## Pieces between runs -/

theorem splitFrom_eq_splitAll (here : Text → Option Text) (n : Nat) (s : Text) :
    splitFrom here n s = splitAll here (s.drop n) := by
  induction s generalizing n with
  | nil => cases n <;> rfl
  | cons c s ih =>
    cases n with
    | zero => rfl
    | succ n => exact ih n

theorem splitAll_cons_of_none {here : Text → Option Text} {c : Char} {s : Text}
    (h : here (c :: s) = none) :
    splitAll here (c :: s) = (splitAll here s).modifyHead (c :: ·) := by
  rw [splitAll, splitFrom, h]
  rfl

theorem splitAll_cons_of_some {here : Text → Option Text} {c : Char} {s seen rest : Text}
    (hs : s = seen ++ rest) (h : here (c :: s) = some rest) :
    splitAll here (c :: s) = [] :: splitAll here rest := by
  subst hs
  rw [splitAll, splitFrom, h]
  show [] :: splitFrom here _ _ = _
  rw [splitFrom_eq_splitAll]
  simp

theorem splitAll_afterRun?_of_not_mem {x : Char} {s : Text} (h : x ∉ s) :
    splitAll (afterRun? x) s = [s] := by
  induction s with
  | nil => rfl
  | cons c s ih =>
    rw [List.mem_cons, not_or] at h
    rw [splitAll_cons_of_none (by rw [afterRun?, if_neg (Ne.symm h.1)]), ih h.2]
    rfl

theorem splitAll_afterRun?_append {x : Char} {s : Text} (h : x ∉ s) (t : Text) :
    splitAll (afterRun? x) (s ++ x :: t) = s :: splitAll (afterRun? x) (t.dropWhile (· == x)) := by
  induction s with
  | nil =>
    have ht : t = t.takeWhile (· == x) ++ t.dropWhile (· == x) :=
      List.takeWhile_append_dropWhile.symm
    exact splitAll_cons_of_some ht (by rw [afterRun?, if_pos rfl])
  | cons c s ih =>
    rw [List.mem_cons, not_or] at h
    rw [List.cons_append, splitAll_cons_of_none (by rw [afterRun?, if_neg (Ne.symm h.1)]), ih h.2]
    rfl

theorem splitAll_ne_nil (here : Text → Option Text) (s : Text) : splitAll here s ≠ [] := by
  induction s with
  | nil => exact List.cons_ne_nil _ _
  | cons c s ih =>
    cases hc : here (c :: s) with
    | none =>
      rw [splitAll_cons_of_none hc]
      cases hs : splitAll here s with
      | nil => exact absurd hs ih
      | cons p ps => exact List.cons_ne_nil _ _
    | some rest =>
      rw [splitAll, splitFrom, hc]
      exact List.cons_ne_nil _ _

/-- There is a second piece exactly when the separator occurs. -/
theorem one_lt_length_splitAll_afterRun? {x : Char} {s : Text} :
    1 < (splitAll (afterRun? x) s).length ↔ x ∈ s := by
  constructor
  · intro hlen
    refine Decidable.byContradiction fun hx => ?_
    rw [splitAll_afterRun?_of_not_mem hx, List.length_singleton] at hlen
    omega
  · intro hx
    obtain ⟨a, b, rfl, ha⟩ := exists_first_of_mem hx
    have hpos : 0 < (splitAll (afterRun? x) (b.dropWhile (· == x))).length :=
      List.length_pos_iff.2 (splitAll_ne_nil _ _)
    rw [splitAll_afterRun?_append ha, List.length_cons]
    omega

/-! ## Weight -/

variable {b c d e : Char}

/-- How many characters of the text are not blank. -/
def weight (s : Text) : Nat := s.countP (!isBlank ·)

@[simp] theorem weight_append (s t : Text) : weight (s ++ t) = weight s + weight t :=
  List.countP_append

theorem weight_cons_of_blank (h : isBlank c = true) (s : Text) : weight (c :: s) = weight s :=
  List.countP_cons_of_neg (by simp [h])

theorem weight_cons (h : isBlank c = false) (s : Text) : weight (c :: s) = weight s + 1 :=
  List.countP_cons_of_pos (by simp [h])

theorem weight_cons_eq_add (c : Char) (s : Text) : weight (c :: s) = weight [c] + weight s :=
  weight_append [c] s

theorem weight_intercalate {sep : Char} (hsep : isBlank sep = false) {ws : List Text}
    (hne : ws ≠ []) : weight (List.intercalate [sep] ws) + 1 = weight ws.flatten + ws.length := by
  induction ws with
  | nil => exact absurd rfl hne
  | cons v ws ih =>
    cases ws with
    | nil => simp
    | cons w ws =>
      rw [intercalate_cons_cons, weight_append, weight_cons hsep, List.flatten_cons, weight_append,
        List.length_cons]
      have hrest := ih (List.cons_ne_nil w ws)
      omega

/-! ## Trimming -/

theorem trim_cons_of_blank (hb : isBlank b = true) (s : Text) : trim (b :: s) = trim s := by
  rw [trim, trimStart, List.dropWhile_cons_of_pos hb, trim, trimStart]

theorem trim_eq_self (hd : isBlank d = false) (he : isBlank e = false) (mid : Text) :
    trim (d :: (mid ++ [e])) = d :: (mid ++ [e]) := by
  have hstart : trimStart (d :: (mid ++ [e])) = d :: (mid ++ [e]) :=
    List.dropWhile_cons_of_neg (by simp [hd])
  have hend : (d :: (mid ++ [e])).reverse = e :: (d :: mid).reverse := by simp
  rw [trim, hstart, trimEnd, hend, List.dropWhile_cons_of_neg (by simp [he]), ← hend,
    List.reverse_reverse]

theorem weight_trim_le (s : Text) : weight (trim s) ≤ weight s := by
  have hend : ∀ t, weight (trimEnd t) ≤ weight t := by
    intro t
    rw [trimEnd, weight, List.countP_reverse]
    exact Nat.le_trans (List.dropWhile_sublist _).countP_le (Nat.le_of_eq List.countP_reverse)
  exact Nat.le_trans (hend _) (List.dropWhile_sublist _).countP_le

end Text
end StyleScope
