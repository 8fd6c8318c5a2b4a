import StyleScope.Proofs.Regexp.Segments
import StyleScope.Proofs.Regexp.Steps
import StyleScope.Text.Nesting

/-!
# Unwrapping

Unwrapping looks from an opening parenthesis to the next closing one or bar and, when it
meets the closing one first, takes both away.  It does not look across a bar, nor beyond
a part that closes what it opens, so it works on such parts one by one (`unwrap_append`).
Letters, bars and the nesting depth at the end stay as they are.
-/

namespace StyleScope
namespace Regexp

open Text

theorem plainGroup?_eq_some {s x rest : Text} (h : plainGroup? s = some (x, rest)) :
    s = '(' :: (x ++ ')' :: rest) ∧ x ≠ [] ∧ (∀ c ∈ x, c ≠ ')' ∧ c ≠ '|') ∧
      rest.head? ≠ some '?' := by
  cases s with
  | nil => exact absurd h (by simp [plainGroup?])
  | cons c t =>
    by_cases hc : c = '('
    · subst hc
      rw [plainGroup?_eq] at h
      split at h
      · next r hdrop =>
        split at h
        · exact absurd h (by simp)
        · next hno =>
          rw [not_or] at hno
          simp only [Option.some.injEq, Prod.mk.injEq] at h
          obtain ⟨rfl, rfl⟩ := h
          have hsplit := (eq_append_of_dropWhile_eq_cons hdrop).2
          refine ⟨by rw [← hsplit], fun hnil => hno.1 (List.isEmpty_iff.2 hnil), ?_, hno.2⟩
          intro d hd
          have hall := List.all_eq_true.1 List.all_takeWhile d hd
          simpa using hall
      · exact absurd h (by simp)
    · rw [plainGroup?_cons hc] at h
      exact absurd h (by simp)

theorem unwrap_closed {x rest : Text} (hne : x ≠ []) (hx : ∀ c ∈ x, c ≠ ')' ∧ c ≠ '|')
    (hrest : rest.head? ≠ some '?') :
    unwrapPlainGroups ('(' :: (x ++ ')' :: rest)) = x ++ unwrapPlainGroups rest := by
  have hs : x ++ ')' :: rest = (x ++ [')']) ++ rest := by simp
  exact substituteAll_of_some hs (plainGroup?_append hne hx hrest)

/-- A group up to the first closing parenthesis, whatever is opened in it. -/
theorem unwrap_first_close {x rest : Text} (hne : x ≠ []) (hclose : ')' ∉ x) (hbar : '|' ∉ x)
    (hquery : '?' ∉ rest) :
    unwrapPlainGroups ('(' :: (x ++ ')' :: rest)) = x ++ unwrapPlainGroups rest := by
  refine unwrap_closed hne (forall_ne_of_not_mem hclose hbar) fun hhead => ?_
  exact hquery (List.mem_of_head? hhead)

theorem unwrap_eq_self {s : Text} (h : ')' ∉ s) : unwrapPlainGroups s = s :=
  substituteAll_eq_self_of_not_mem (fun _ => plainGroup?_eq_none) h

theorem unwrap_cons_of_none {c : Char} {s : Text} (h : plainGroup? (c :: s) = none) :
    unwrapPlainGroups (c :: s) = c :: unwrapPlainGroups s :=
  substituteAll_of_none h

theorem unwrap_cons {c : Char} (hc : c ≠ '(') (s : Text) :
    unwrapPlainGroups (c :: s) = c :: unwrapPlainGroups s :=
  unwrap_cons_of_none (plainGroup?_cons hc s)

/-- The way in which unwrapping walks a text, as an induction. -/
theorem unwrap_induction {motive : Text → Prop} (nil : motive [])
    (closed : ∀ x rest, x ≠ [] → (∀ c ∈ x, c ≠ ')' ∧ c ≠ '|') → rest.head? ≠ some '?' →
      motive rest → motive ('(' :: (x ++ ')' :: rest)))
    (other : ∀ c s, plainGroup? (c :: s) = none → motive s → motive (c :: s)) (s : Text) :
    motive s := by
  induction hn : s.length using Nat.strongRecOn generalizing s with
  | ind n ih =>
    cases s with
    | nil => exact nil
    | cons c s =>
      rw [List.length_cons] at hn
      cases hgroup : plainGroup? (c :: s) with
      | none => exact other c s hgroup (ih s.length (by omega) s rfl)
      | some found =>
        obtain ⟨x, rest⟩ := found
        obtain ⟨heq, hne, hx, hrest⟩ := plainGroup?_eq_some hgroup
        rw [heq]
        refine closed x rest hne hx hrest (ih rest.length ?_ rest rfl)
        have hlen := congrArg List.length heq
        simp only [List.length_cons, List.length_append] at hlen
        omega

/-! ## Parts -/

/-- Behind every opening parenthesis there is a closing one or a bar. -/
def Closed : Text → Prop
  | [] => True
  | c :: s => (c = '(' → ∃ d ∈ s, d = ')' ∨ d = '|') ∧ Closed s

theorem Closed.append {s t : Text} (hs : Closed s) (ht : Closed t) : Closed (s ++ t) := by
  induction s with
  | nil => exact ht
  | cons c s ih =>
    refine ⟨fun hc => ?_, ih hs.2⟩
    obtain ⟨d, hd, hstop⟩ := hs.1 hc
    exact ⟨d, List.mem_append_left t hd, hstop⟩

theorem Closed.of_append_right {s t : Text} (h : Closed (s ++ t)) : Closed t := by
  induction s with
  | nil => exact h
  | cons c s ih => exact ih h.2

/-- A closing parenthesis at the end serves everything before it. -/
theorem closed_append_close (s : Text) : Closed (s ++ [')']) := by
  induction s with
  | nil => exact ⟨fun h => absurd h (by decide), trivial⟩
  | cons c s ih => exact ⟨fun _ => ⟨')', by simp, Or.inl rfl⟩, ih⟩

theorem closed_of_not_mem {s : Text} (h : '(' ∉ s) : Closed s := by
  induction s with
  | nil => trivial
  | cons c s ih =>
    rw [List.mem_cons, not_or] at h
    exact ⟨fun hc => absurd hc.symm h.1, ih h.2⟩

/-- A group that reaches beyond a part would have to pass a closing parenthesis or a bar. -/
theorem plainGroup?_append_eq_none {c : Char} {s t : Text} (hs : '?' ∉ s)
    (h : Closed (c :: s) ∨ t.head? = some '|') (hnone : plainGroup? (c :: s) = none) :
    plainGroup? (c :: (s ++ t)) = none := by
  cases hgroup : plainGroup? (c :: (s ++ t)) with
  | none => rfl
  | some found =>
    obtain ⟨x, rest⟩ := found
    obtain ⟨heq, hne, hx, -⟩ := plainGroup?_eq_some hgroup
    obtain ⟨rfl, hst⟩ := List.cons.inj heq
    have hclose : ')' ∉ x := fun hmem => (hx _ hmem).1 rfl
    by_cases hmem : ')' ∈ s
    · -- The group would have been there without what follows.
      obtain ⟨y, s2, rfl, hy⟩ := exists_first_of_mem hmem
      have hcut : y ++ ')' :: (s2 ++ t) = x ++ ')' :: rest := by simpa using hst
      obtain ⟨rfl, -⟩ := append_cons_inj hy hclose hcut
      have hhead : s2.head? ≠ some '?' := fun hhead => hs (by
        simp [List.mem_of_mem_head? hhead])
      rw [plainGroup?_append hne hx hhead] at hnone
      exact absurd hnone (by simp)
    · obtain ⟨y, hy, hty⟩ := exists_append_of_append_eq hmem hst
      have hbar : t.head? ≠ some '|' := by
        intro hhead
        rw [hty] at hhead
        cases y with
        | nil => exact absurd hhead (by simp)
        | cons d y =>
          obtain rfl : d = '|' := by simpa using hhead
          exact (hx '|' (hy ▸ List.mem_append_right s List.mem_cons_self)).2 rfl
      obtain ⟨d, hd, hstop⟩ := (h.resolve_right hbar).1 rfl
      have hdx := hx d (hy ▸ List.mem_append_left y hd)
      exact absurd hstop (not_or.2 hdx)

/-- Unwrapping treats a part on its own when the part is closed, or ends at a bar. -/
theorem unwrap_append {s t : Text} (hs : '?' ∉ s) (ht : '?' ∉ t)
    (h : Closed s ∨ t.head? = some '|') :
    unwrapPlainGroups (s ++ t) = unwrapPlainGroups s ++ unwrapPlainGroups t := by
  induction s using unwrap_induction with
  | nil => rfl
  | closed x rest hne hx hrest ih =>
    have hsrest : '?' ∉ rest := fun hmem => hs (by simp [hmem])
    have hhead : (rest ++ t).head? ≠ some '?' := by
      intro hhead
      rcases List.mem_append.1 (List.mem_of_mem_head? hhead) with hmem | hmem
      · exact hsrest hmem
      · exact ht hmem
    have hclosed : Closed rest ∨ t.head? = some '|' := by
      refine h.imp_left fun hc => ?_
      have happ : Closed (('(' :: x ++ [')']) ++ rest) := by simpa using hc
      exact happ.of_append_right
    have happ : '(' :: (x ++ ')' :: rest) ++ t = '(' :: (x ++ ')' :: (rest ++ t)) := by simp
    rw [happ, unwrap_closed hne hx hhead, unwrap_closed hne hx hrest, ih hsrest hclosed,
      List.append_assoc]
  | other c s hnone ih =>
    rw [List.mem_cons, not_or] at hs
    have hnone' := plainGroup?_append_eq_none hs.2 h hnone
    rw [List.cons_append, unwrap_cons_of_none hnone', unwrap_cons_of_none hnone,
      ih hs.2 (h.imp_left fun hc => hc.2)]
    rfl

theorem unwrap_append_bar {s t : Text} (hs : '?' ∉ s) (ht : '?' ∉ t) :
    unwrapPlainGroups (s ++ '|' :: t) = unwrapPlainGroups s ++ '|' :: unwrapPlainGroups t := by
  have ht' : '?' ∉ '|' :: t := by simp [ht]
  rw [unwrap_append hs ht' (Or.inr rfl), unwrap_cons (by decide)]

/-! ## What stays -/

theorem letters_unwrap (s : Text) : letters (unwrapPlainGroups s) = letters s := by
  induction s using unwrap_induction with
  | nil => rfl
  | closed x rest hne hx hrest ih =>
    rw [unwrap_closed hne hx hrest, letters_append, ih, letters_open, letters_append, letters_close]
  | other c s hnone ih =>
    rw [unwrap_cons_of_none hnone]
    show letters ([c] ++ unwrapPlainGroups s) = letters ([c] ++ s)
    rw [letters_append, letters_append, ih]

theorem mem_of_mem_unwrap {s : Text} {c : Char} (h : c ∈ unwrapPlainGroups s) : c ∈ s := by
  induction s using unwrap_induction with
  | nil => exact h
  | closed x rest hne hx hrest ih =>
    rw [unwrap_closed hne hx hrest] at h
    rcases List.mem_append.1 h with h | h
    · simp [h]
    · simp [ih h]
  | other d s hnone ih =>
    rw [unwrap_cons_of_none hnone] at h
    exact List.mem_cons.2 ((List.mem_cons.1 h).imp_right ih)

theorem head?_of_unwrap {s : Text} (h : (unwrapPlainGroups s).head? = some ')') :
    s.head? = some ')' := by
  cases s with
  | nil => exact h
  | cons c s =>
    cases hgroup : plainGroup? (c :: s) with
    | none =>
      rw [unwrap_cons_of_none hgroup] at h
      exact h
    | some found =>
      obtain ⟨x, rest⟩ := found
      obtain ⟨heq, hne, hx, hrest⟩ := plainGroup?_eq_some hgroup
      obtain ⟨d, x, rfl⟩ := List.exists_cons_of_ne_nil hne
      rw [heq, unwrap_closed hne hx hrest] at h
      exact absurd (Option.some.inj h) (hx d List.mem_cons_self).1

/-- Unwrapping makes no empty groups. -/
theorem not_infix_empty_unwrap {s : Text} (h : ¬ "()".toList <:+: s) :
    ¬ "()".toList <:+: unwrapPlainGroups s := by
  induction s using unwrap_induction with
  | nil => exact h
  | closed x rest hne hx hrest ih =>
    have hclose : ')' ∉ x := fun hmem => (hx _ hmem).1 rfl
    rw [unwrap_closed hne hx hrest]
    intro hinner
    rcases infix_empty_append hinner with hx' | ⟨u, v, rfl, -⟩ | hrest'
    · exact not_infix_empty_of_close_not_mem hclose hx'
    · exact h ⟨'(' :: u, rest, by simp⟩
    · refine ih (fun hinner' => h ?_) hrest'
      obtain ⟨u, v, rfl⟩ := hinner'
      exact ⟨'(' :: (x ++ ')' :: u), v, by simp⟩
  | other c s hnone ih =>
    rw [unwrap_cons_of_none hnone]
    intro hinner
    rcases List.infix_cons_iff.1 hinner with hpre | hinner'
    · obtain ⟨rfl, hrest⟩ := List.cons_prefix_cons.1 hpre
      obtain ⟨v, hv⟩ := hrest
      have hhead : s.head? = some ')' := head?_of_unwrap (by rw [← hv]; rfl)
      obtain ⟨w, rfl⟩ := List.head?_eq_some_iff.1 hhead
      exact h ⟨[], w, rfl⟩
    · exact ih (fun hs => h (List.infix_cons hs)) hinner'

/-! ## The nesting depth -/

def depth? (d : Nat) (s : Text) : Option Nat := depthAfter? '(' ')' d s

theorem isNested_iff {s : Text} : isNested '(' ')' s = true ↔ depth? 0 s = some 0 := beq_iff_eq

theorem depth?_nil (d : Nat) : depth? d [] = some d := rfl

theorem depth?_open (d : Nat) (s : Text) : depth? d ('(' :: s) = depth? (d + 1) s := rfl

theorem depth?_close (d : Nat) (s : Text) :
    depth? d (')' :: s) = if d = 0 then none else depth? (d - 1) s := rfl

theorem depth?_cons {c : Char} (hopen : c ≠ '(') (hclose : c ≠ ')') (d : Nat) (s : Text) :
    depth? d (c :: s) = depth? d s := by
  rw [depth?, depthAfter?, if_neg hopen, if_neg hclose]
  rfl

theorem depth?_append (d : Nat) (s t : Text) :
    depth? d (s ++ t) = (depth? d s).bind fun e => depth? e t :=
  depthAfter?_append '(' ')' d s t

theorem depth?_of_close_not_mem {s : Text} (h : ')' ∉ s) (d : Nat) :
    depth? d s = some (d + s.count '(') := by
  induction s generalizing d with
  | nil => rfl
  | cons c s ih =>
    rw [List.mem_cons, not_or] at h
    by_cases hc : c = '('
    · subst hc
      rw [depth?_open, ih h.2, List.count_cons_self]
      congr 1
      omega
    · rw [depth?_cons hc (Ne.symm h.1), List.count_cons_of_ne hc, ih h.2]

/-- Parentheses that are open in front of a text stay open behind it. -/
theorem depth?_add {s : Text} {d e : Nat} (h : depth? d s = some e) (k : Nat) :
    depth? (d + k) s = some (e + k) := by
  induction s generalizing d with
  | nil =>
    obtain rfl := Option.some.inj h
    rfl
  | cons c s ih =>
    by_cases hopen : c = '('
    · subst hopen
      rw [depth?_open] at h ⊢
      have hd : d + k + 1 = d + 1 + k := by omega
      rw [hd]
      exact ih h
    · by_cases hclose : c = ')'
      · subst hclose
        rw [depth?_close] at h ⊢
        split at h
        · exact absurd h (by simp)
        · next hd =>
          have hpred : d + k - 1 = d - 1 + k := by omega
          rw [if_neg (by omega), hpred]
          exact ih h
      · rw [depth?_cons hopen hclose] at h ⊢
        exact ih h

theorem count_of_depth? {s : Text} {d e : Nat} (h : depth? d s = some e) :
    d + s.count '(' = e + s.count ')' :=
  count_of_depthAfter? (by decide) h

/-- A prefix of a text with a depth has one. -/
theorem exists_depth?_of_append {s t : Text} {d e : Nat} (h : depth? d (s ++ t) = some e) :
    ∃ e', depth? d s = some e' := by
  rw [depth?_append] at h
  obtain ⟨e', he', -⟩ := Option.bind_eq_some_iff.1 h
  exact ⟨e', he'⟩

/-- Nothing is closed before something is opened. -/
theorem open_mem_of_close {s t : Text} {e : Nat} (h : depth? 0 (s ++ ')' :: t) = some e) :
    '(' ∈ s := by
  refine Decidable.byContradiction fun hno => ?_
  rw [depth?_append] at h
  obtain ⟨e', he', hclose⟩ := Option.bind_eq_some_iff.1 h
  have hcount := count_of_depth? he'
  rw [List.count_eq_zero.2 hno] at hcount
  obtain rfl : e' = 0 := by omega
  rw [depth?_close, if_pos rfl] at hclose
  exact absurd hclose (by simp)

theorem depth?_unwrap {s : Text} {d e : Nat} (h : depth? d s = some e) :
    depth? d (unwrapPlainGroups s) = some e := by
  induction s using unwrap_induction generalizing d with
  | nil => exact h
  | closed x rest hne hx hrest ih =>
    have hclose : ')' ∉ x := fun hmem => (hx _ hmem).1 rfl
    rw [unwrap_closed hne hx hrest, depth?_append, depth?_of_close_not_mem hclose, Option.bind_some]
    refine ih ?_
    rw [depth?_open, depth?_append, depth?_of_close_not_mem hclose, Option.bind_some, depth?_close,
      if_neg (by omega)] at h
    have hd : d + 1 + x.count '(' - 1 = d + x.count '(' := by omega
    rwa [hd] at h
  | other c s hnone ih =>
    rw [unwrap_cons_of_none hnone]
    by_cases hopen : c = '('
    · subst hopen
      rw [depth?_open] at h ⊢
      exact ih h
    · by_cases hclose : c = ')'
      · subst hclose
        rw [depth?_close] at h ⊢
        split at h
        · exact absurd h (by simp)
        · next hd =>
          rw [if_neg hd]
          exact ih h
      · rw [depth?_cons hopen hclose] at h ⊢
        exact ih h

theorem count_unwrap {s : Text} (h : depth? 0 s = some 0) :
    (unwrapPlainGroups s).count '(' = (unwrapPlainGroups s).count ')' := by
  have hcount := count_of_depth? (depth?_unwrap h)
  omega

/-- The parenthesis behind a balanced part is the first one to close, if a part without
parentheses stands in front of one. -/
theorem unwrap_eq_of_append_eq {s t inside rest : Text} (h : depth? 0 s = some 0)
    (hopen : '(' ∉ inside) (hclose : ')' ∉ inside)
    (heq : unwrapPlainGroups s ++ ')' :: t = inside ++ ')' :: rest) :
    unwrapPlainGroups s = inside ∧ t = rest := by
  refine append_cons_inj (fun hmem => ?_) hclose heq
  obtain ⟨i, j, hij, hi⟩ := exists_first_of_mem hmem
  have hdepth := depth?_unwrap h
  rw [hij] at hdepth heq
  rw [List.append_assoc, List.cons_append] at heq
  obtain ⟨rfl, -⟩ := append_cons_inj hi hclose heq
  exact hopen (open_mem_of_close hdepth)

end Regexp
end StyleScope
