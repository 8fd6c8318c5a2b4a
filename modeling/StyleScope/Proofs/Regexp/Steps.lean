import StyleScope.Proofs.Regexp.Wildcards
import StyleScope.Proofs.Text.Splitting
import StyleScope.Proofs.Text.Substitution

/-!
# Steps without their syntax

Every step is about some characters, its marks.  A text that has none of them passes
the step unchanged (`Step.apply_eq_self`).  Most steps go through a text piece by piece
and start to act at certain characters only, so they pass over a piece without those,
whatever follows it (`Step.turns_self`).
-/

namespace StyleScope
namespace Regexp

open Text

/-- Characters that a step needs, all or some of them, to change a text. -/
def Step.marks : Step → List Char
  | .anchors => ['^', '$']
  | .assertions => ['?']
  | .nonCapturing => ['?']
  | .plainGroups => [')']
  | .scheme => ['|', '.', ':']
  | .counts => ['\x7b']
  | .optionalGroups => ['?']
  | .repeatedClasses => ['[']
  | .plus => ['+']
  | .dots => ['.']
  | .escapedSeparators => ['\\']
  | .escapedLiterals => ['\\']
  | .classEscapes => ['\\']
  | .wildcardRuns => ['*', '?']

theorem stripAnchors_eq_self {s : Text} (hcaret : '^' ∉ s) (hdollar : '$' ∉ s) :
    stripAnchors s = s := by
  have hstart : dropCaret s = s := by
    unfold dropCaret
    split
    · exact absurd List.mem_cons_self hcaret
    · rfl
  have hend : s.getLast? ≠ some '$' := fun h => hdollar (List.mem_of_getLast? h)
  rw [stripAnchors, hstart, dropDollar, if_neg hend]

theorem assertion?_eq_none {s : Text} (h : '?' ∉ s) : assertion? s = none := by
  have hopen : afterAssertionOpening? s = none := by
    unfold afterAssertionOpening?
    split <;> first | rfl | exact absurd (by simp) h
  rw [assertion?, hopen]
  rfl

theorem plainGroup?_eq_none {s : Text} (h : ')' ∉ s) : plainGroup? s = none := by
  unfold plainGroup?
  split
  · next t =>
    split
    · next rest heq =>
      have hmem : ')' ∈ t := (List.dropWhile_suffix _).subset (heq ▸ List.mem_cons_self)
      exact absurd (List.mem_cons_of_mem _ hmem) h
    · rfl
  · rfl

theorem longScheme?_eq_none {s : Text} (h : ':' ∉ s) : longScheme? s = none := by
  unfold longScheme?
  cases hw : after? "http".toList s with
  | none => rfl
  | some rest =>
    have hrest : ':' ∉ rest := fun hmem =>
      h (after?_eq_some.1 hw ▸ List.mem_append_right _ hmem)
    simp only [Option.bind_eq_bind, Option.bind_some, dropWhile_ne_of_not_mem hrest]
    split
    · contradiction
    · rfl

theorem foldScheme_eq_self {s : Text} (hbar : '|' ∉ s) (hdot : '.' ∉ s) (hcolon : ':' ∉ s) :
    foldScheme s = s := by
  rw [foldScheme, replaceAll_eq_self_of_not_mem _ (by decide) hbar,
    replaceAll_eq_self_of_not_mem _ (by decide) hbar,
    replaceAll_eq_self_of_not_mem _ (by decide) hdot]
  exact substituteAll_eq_self_of_not_mem (fun _ => longScheme?_eq_none) hcolon

theorem count?_eq_none {s : Text} (h : '\x7b' ∉ s) : count? s = none := by
  unfold count?
  split
  · exact absurd List.mem_cons_self h
  · rfl

theorem enclosed?_eq_some {close : Char} {s body rest : Text}
    (h : enclosed? close s = some (body, rest)) :
    s = body ++ close :: rest ∧ body ≠ [] ∧ close ∉ body := by
  unfold enclosed? at h
  split at h
  · next c b d r hb hr =>
    simp only [Option.some.injEq, Prod.mk.injEq] at h
    obtain ⟨rfl, rfl⟩ := h
    have hsplit := eq_append_of_dropWhile_ne_eq_cons hr
    have hbody := not_mem_takeWhile_ne close s
    rw [hb] at hsplit hbody
    exact ⟨hsplit, List.cons_ne_nil c b, hbody⟩
  · exact absurd h (by simp)

theorem enclosed?_append {close : Char} {body : Text} (hne : body ≠ []) (h : close ∉ body)
    (rest : Text) : enclosed? close (body ++ close :: rest) = some (body, rest) := by
  obtain ⟨c, b, rfl⟩ := List.exists_cons_of_ne_nil hne
  rw [enclosed?, takeWhile_ne_append_cons h, dropWhile_ne_append_cons h]

theorem optionalGroup?_eq_none {s : Text} (h : '?' ∉ s) : optionalGroup? s = none := by
  unfold optionalGroup?
  split
  · split
    · next heq =>
      have hs := (enclosed?_eq_some heq).1
      exact absurd (by rw [hs]; simp) h
    · rfl
  · rfl

theorem repeatedClass?_eq_none {s : Text} (h : '[' ∉ s) : repeatedClass? s = none := by
  unfold repeatedClass?
  split
  · exact absurd List.mem_cons_self h
  · rfl

theorem dropDots_eq_self {s : Text} (h : '.' ∉ s) (escaped : Bool) : dropDots escaped s = s := by
  induction s generalizing escaped with
  | nil => rfl
  | cons c s ih =>
    rw [List.mem_cons, not_or] at h
    rw [dropDots]
    · rw [ih h.2]
    · intro x t hc _
      exact absurd hc.symm h.1

theorem afterRun?_eq_none {x : Char} {s : Text} (h : x ∉ s) : afterRun? x s = none := by
  unfold afterRun?
  split
  · next c s =>
    rw [List.mem_cons, not_or] at h
    rw [if_neg (Ne.symm h.1)]
  · rfl

theorem escapedMark?_eq_none {s : Text} (marks : Text) (h : '\\' ∉ s) :
    escapedMark? marks s = none := by
  rw [escapedMark?, afterRun?_eq_none h]

theorem classEscape?_eq_none {s : Text} (h : '\\' ∉ s) : classEscape? s = none := by
  rw [classEscape?, afterRun?_eq_none h]

/-- Without its marks in the text a step does nothing. -/
theorem Step.apply_eq_self {step : Step} {s : Text} (h : ∀ c ∈ step.marks, c ∉ s) :
    step.apply s = s := by
  cases step with
  | anchors => exact stripAnchors_eq_self (h '^' (by decide)) (h '$' (by decide))
  | assertions =>
    exact substituteAll_eq_self_of_not_mem (fun _ => assertion?_eq_none) (h '?' (by decide))
  | nonCapturing =>
    have hword : '?' ∈ "(?:".toList := by decide
    exact replaceAll_eq_self_of_not_mem _ hword (h '?' (by decide))
  | plainGroups =>
    exact substituteAll_eq_self_of_not_mem (fun _ => plainGroup?_eq_none) (h ')' (by decide))
  | scheme =>
    exact foldScheme_eq_self (h '|' (by decide)) (h '.' (by decide)) (h ':' (by decide))
  | counts =>
    exact substituteAll_eq_self_of_not_mem (fun _ => count?_eq_none) (h '\x7b' (by decide))
  | optionalGroups =>
    exact substituteAll_eq_self_of_not_mem (fun _ => optionalGroup?_eq_none) (h '?' (by decide))
  | repeatedClasses =>
    exact substituteAll_eq_self_of_not_mem (fun _ => repeatedClass?_eq_none) (h '[' (by decide))
  | plus =>
    have hword : '+' ∈ "+".toList := by decide
    exact replaceAll_eq_self_of_not_mem _ hword (h '+' (by decide))
  | dots => exact dropDots_eq_self (h '.' (by decide)) false
  | escapedSeparators =>
    exact substituteAll_eq_self_of_not_mem (fun _ => escapedMark?_eq_none _) (h '\\' (by decide))
  | escapedLiterals =>
    exact substituteAll_eq_self_of_not_mem (fun _ => escapedMark?_eq_none _) (h '\\' (by decide))
  | classEscapes =>
    exact substituteAll_eq_self_of_not_mem (fun _ => classEscape?_eq_none) (h '\\' (by decide))
  | wildcardRuns =>
    refine collapse_eq_self fun c hc => ?_
    have h1 : c ≠ '*' := fun e => h '*' (by decide) (e ▸ hc)
    have h2 : c ≠ '?' := fun e => h '?' (by decide) (e ▸ hc)
    simp [isWildcard, h1, h2]

/-- Steps whose marks are all missing do nothing one after the other. -/
theorem Step.foldl_apply_eq_self {steps : List Step} {s : Text}
    (h : ∀ step ∈ steps, ∀ c ∈ step.marks, c ∉ s) :
    steps.foldl (fun t step => step.apply t) s = s := by
  induction steps with
  | nil => rfl
  | cons step steps ih =>
    rw [List.foldl_cons, Step.apply_eq_self (h step List.mem_cons_self)]
    exact ih fun step' hstep => h step' (List.mem_cons_of_mem step hstep)

/-! ## Pieces that a step passes over -/

/-- The characters at which a step may start to act.  The steps that look at a text as a
whole have none here. -/
def Step.openers : Step → List Char
  | .anchors | .scheme | .wildcardRuns => []
  | .assertions | .nonCapturing | .plainGroups | .optionalGroups => ['(']
  | .counts => ['\x7b']
  | .repeatedClasses => ['[']
  | .plus => ['+']
  | .dots => ['.', '\\']
  | .escapedSeparators | .escapedLiterals | .classEscapes => ['\\']

def Step.isLocal : Step → Bool
  | .anchors | .scheme | .wildcardRuns => false
  | _ => true

theorem assertion?_cons {c : Char} (h : c ≠ '(') (s : Text) : assertion? (c :: s) = none := by
  have hopen : afterAssertionOpening? (c :: s) = none := by
    unfold afterAssertionOpening?
    split <;> first | rfl | (next heq => exact absurd (List.cons.inj heq).1 h)
  rw [assertion?, hopen]
  rfl

theorem plainGroup?_cons {c : Char} (h : c ≠ '(') (s : Text) : plainGroup? (c :: s) = none := by
  unfold plainGroup?
  split
  · next heq => exact absurd (List.cons.inj heq).1 h
  · rfl

theorem count?_cons {c : Char} (h : c ≠ '\x7b') (s : Text) : count? (c :: s) = none := by
  unfold count?
  split
  · next heq => exact absurd (List.cons.inj heq).1 h
  · rfl

theorem optionalGroup?_cons {c : Char} (h : c ≠ '(') (s : Text) :
    optionalGroup? (c :: s) = none := by
  unfold optionalGroup?
  split
  · next heq => exact absurd (List.cons.inj heq).1 h
  · rfl

theorem repeatedClass?_cons {c : Char} (h : c ≠ '[') (s : Text) :
    repeatedClass? (c :: s) = none := by
  unfold repeatedClass?
  split
  · next heq => exact absurd (List.cons.inj heq).1 h
  · rfl

theorem afterRun?_cons {x c : Char} (h : c ≠ x) (s : Text) : afterRun? x (c :: s) = none := by
  rw [afterRun?, if_neg h]

theorem escapedMark?_cons (marks : Text) {c : Char} (h : c ≠ '\\') (s : Text) :
    escapedMark? marks (c :: s) = none := by
  rw [escapedMark?, afterRun?_cons h]

theorem classEscape?_cons {c : Char} (h : c ≠ '\\') (s : Text) :
    classEscape? (c :: s) = none := by
  rw [classEscape?, afterRun?_cons h]

theorem dropDots_append {s : Text} (hdot : '.' ∉ s) (hslash : '\\' ∉ s) (rest : Text) :
    dropDots false (s ++ rest) = s ++ dropDots false rest := by
  induction s with
  | nil => rfl
  | cons c s ih =>
    rw [List.mem_cons, not_or] at hdot hslash
    have hc : (c == '\\') = false := beq_eq_false_iff_ne.2 (Ne.symm hslash.1)
    rw [List.cons_append, dropDots]
    · rw [hc, ih hdot.2 hslash.2]
      rfl
    · intro x t hdot' _
      exact absurd hdot'.symm hdot.1

theorem turns_replaceAll {P : Text → Prop} {x : Char} (word out : Text) {s : Text}
    (h : x ∉ s) : Turns P (replaceAll (x :: word) out) s s := by
  refine Turns.of_none fun c hc rest => ?_
  have hne : c ≠ x := fun heq => h (heq ▸ hc)
  rw [after?_cons_of_ne hne]
  rfl

/-- A step passes over a piece that holds none of its openers. -/
theorem Step.turns_self {P : Text → Prop} {step : Step} (hlocal : step.isLocal = true)
    {s : Text} (h : ∀ x ∈ step.openers, x ∉ s) : Turns P step.apply s s := by
  have hne : ∀ x ∈ step.openers, ∀ c ∈ s, c ≠ x := fun x hx c hc heq => h x hx (heq ▸ hc)
  cases step with
  | anchors => exact absurd hlocal Bool.false_ne_true
  | scheme => exact absurd hlocal Bool.false_ne_true
  | wildcardRuns => exact absurd hlocal Bool.false_ne_true
  | assertions => exact Turns.of_none fun c hc => assertion?_cons (hne '(' (by decide) c hc)
  | nonCapturing => exact turns_replaceAll _ _ (h '(' (by decide))
  | plainGroups => exact Turns.of_none fun c hc => plainGroup?_cons (hne '(' (by decide) c hc)
  | counts => exact Turns.of_none fun c hc => count?_cons (hne '\x7b' (by decide) c hc)
  | optionalGroups =>
    exact Turns.of_none fun c hc => optionalGroup?_cons (hne '(' (by decide) c hc)
  | repeatedClasses =>
    exact Turns.of_none fun c hc => repeatedClass?_cons (hne '[' (by decide) c hc)
  | plus => exact turns_replaceAll _ _ (h '+' (by decide))
  | dots =>
    exact fun rest _ => dropDots_append (h '.' (by decide)) (h '\\' (by decide)) rest
  | escapedSeparators =>
    exact Turns.of_none fun c hc => escapedMark?_cons _ (hne '\\' (by decide) c hc)
  | escapedLiterals =>
    exact Turns.of_none fun c hc => escapedMark?_cons _ (hne '\\' (by decide) c hc)
  | classEscapes =>
    exact Turns.of_none fun c hc => classEscape?_cons (hne '\\' (by decide) c hc)

/-! ## Groups, classes and escapes at the start of a text -/

theorem plainGroup?_eq (s : Text) :
    plainGroup? ('(' :: s) =
      match s.dropWhile fun c => c != ')' && c != '|' with
      | ')' :: rest =>
        if (s.takeWhile fun c => c != ')' && c != '|').isEmpty ∨ rest.head? = some '?' then none
        else some (s.takeWhile fun c => c != ')' && c != '|', rest)
      | _ => none := rfl

theorem takeWhile_inside {x : Text} (h : ∀ c ∈ x, c ≠ ')' ∧ c ≠ '|') {d : Char}
    (hd : d = ')' ∨ d = '|') (t : Text) :
    (x ++ d :: t).takeWhile (fun c => c != ')' && c != '|') = x ∧
      (x ++ d :: t).dropWhile (fun c => c != ')' && c != '|') = d :: t := by
  have hx : ∀ c ∈ x, (c != ')' && c != '|') = true := by
    intro c hc
    simpa using h c hc
  have hstop : ¬ (d != ')' && d != '|') = true := by
    rcases hd with rfl | rfl <;> decide
  constructor
  · rw [List.takeWhile_append_of_pos hx,
      List.takeWhile_cons_of_neg (p := fun c => c != ')' && c != '|') hstop, List.append_nil]
  · rw [List.dropWhile_append_of_pos hx,
      List.dropWhile_cons_of_neg (p := fun c => c != ')' && c != '|') hstop]

theorem plainGroup?_append {x rest : Text} (hne : x ≠ []) (h : ∀ c ∈ x, c ≠ ')' ∧ c ≠ '|')
    (hrest : rest.head? ≠ some '?') : plainGroup? ('(' :: (x ++ ')' :: rest)) = some (x, rest) := by
  obtain ⟨htake, hdrop⟩ := takeWhile_inside h (Or.inl rfl) rest
  have hnone : ¬ (x.isEmpty = true ∨ rest.head? = some '?') := by
    rintro (hempty | hquery)
    · exact hne (List.isEmpty_iff.1 hempty)
    · exact hrest hquery
  rw [plainGroup?_eq, htake, hdrop]
  show (if x.isEmpty = true ∨ rest.head? = some '?' then none else some (x, rest)) = _
  rw [if_neg hnone]

theorem plainGroup?_query {x : Text} (h : ∀ c ∈ x, c ≠ ')' ∧ c ≠ '|') (rest : Text) :
    plainGroup? ('(' :: (x ++ ')' :: '?' :: rest)) = none := by
  obtain ⟨htake, hdrop⟩ := takeWhile_inside h (Or.inl rfl) ('?' :: rest)
  rw [plainGroup?_eq, htake, hdrop]
  exact if_pos (Or.inr rfl)

theorem plainGroup?_bar {x : Text} (h : ∀ c ∈ x, c ≠ ')' ∧ c ≠ '|') (rest : Text) :
    plainGroup? ('(' :: (x ++ '|' :: rest)) = none := by
  obtain ⟨htake, hdrop⟩ := takeWhile_inside h (Or.inr rfl) rest
  rw [plainGroup?_eq, htake, hdrop]
  rfl

theorem optionalGroup?_append {x : Text} (hne : x ≠ []) (h : ')' ∉ x) (rest : Text) :
    optionalGroup? ('(' :: (x ++ ')' :: '?' :: rest)) = some (['*'], rest) := by
  rw [optionalGroup?, enclosed?_append hne h]
  rfl

theorem optionalGroup?_of_head_ne {x rest : Text} (hne : x ≠ []) (h : ')' ∉ x)
    (hrest : rest.head? ≠ some '?') : optionalGroup? ('(' :: (x ++ ')' :: rest)) = none := by
  rw [optionalGroup?, enclosed?_append hne h]
  cases rest with
  | nil => rfl
  | cons c rest =>
    have hc : c ≠ '?' := fun heq => hrest (heq ▸ rfl)
    split
    · next heq => simp [hc] at heq
    · rfl

theorem repeatedClass?_append {x : Text} (hne : x ≠ []) (h : ']' ∉ x) (rest : Text) :
    repeatedClass? ('[' :: (x ++ ']' :: '+' :: rest)) = some (['*'], rest) := by
  rw [repeatedClass?, enclosed?_append hne h]
  rfl

theorem afterRun?_backslash {c : Char} (hc : c ≠ '\\') (rest : Text) :
    afterRun? '\\' ('\\' :: c :: rest) = some (c :: rest) := by
  rw [afterRun?, if_pos rfl, List.dropWhile_cons_of_neg (by simpa using hc)]

theorem escapedMark?_of_mem {marks : Text} {c : Char} (hc : c ≠ '\\') (hmem : c ∈ marks)
    (rest : Text) : escapedMark? marks ('\\' :: c :: rest) = some ([c], rest) := by
  rw [escapedMark?, afterRun?_backslash hc]
  exact if_pos hmem

theorem escapedMark?_of_not_mem {marks : Text} {c : Char} (hc : c ≠ '\\') (hmem : c ∉ marks)
    (rest : Text) : escapedMark? marks ('\\' :: c :: rest) = none := by
  rw [escapedMark?, afterRun?_backslash hc]
  exact if_neg hmem

end Regexp
end StyleScope
