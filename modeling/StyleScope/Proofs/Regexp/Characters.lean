import StyleScope.Proofs.Regexp.Reading
import StyleScope.Proofs.Regexp.Unwrapping

/-!
# The characters of a glob

The steps write `*`, and `+` on the way to it.  Every other character that they leave is
one of the expression, and so is every other character of a glob (`mem_of_mem_globs`).
So a glob has no line breaks unless the expression has some.  An expression may lose its line
breaks to a step; those that the steps leave are in every glob (`newline_mem_iff_of_mem_globs`).
-/

namespace StyleScope
namespace Regexp

open Text

/-- The characters that the steps write on their own account. -/
def written : List Char := ['*', '+']

/-- What a recogniser puts in place of a stretch is written by a step or stood there. -/
def RetainsAt (here : Text → Option (Text × Text)) : Prop :=
  ∀ s out rest, here s = some (out, rest) → ∀ c ∈ out, c ∈ s ∨ c ∈ written

def Retains (f : Text → Text) : Prop :=
  ∀ s, ∀ c ∈ f s, c ∈ s ∨ c ∈ written

theorem mem_of_mem_substituteAll {here : Text → Option (Text × Text)} {s : Text} {c : Char}
    (h : c ∈ substituteAll here s) :
    c ∈ s ∨ ∃ t out rest, t <:+ s ∧ here t = some (out, rest) ∧ c ∈ out := by
  suffices hfrom : ∀ n, c ∈ substituteFrom here n s →
      c ∈ s ∨ ∃ t out rest, t <:+ s ∧ here t = some (out, rest) ∧ c ∈ out from hfrom 0 h
  clear h
  induction s with
  | nil =>
    intro n hmem
    cases n <;> exact absurd hmem List.not_mem_nil
  | cons d s ih =>
    have hrest : ∀ n, c ∈ substituteFrom here n s →
        c ∈ d :: s ∨ ∃ t out rest, t <:+ d :: s ∧ here t = some (out, rest) ∧ c ∈ out := by
      intro n hmem
      refine (ih n hmem).imp (List.mem_cons_of_mem d) ?_
      intro ⟨t, out, rest, ht, hfound⟩
      exact ⟨t, out, rest, ht.trans (List.suffix_cons d s), hfound⟩
    intro n hmem
    cases n with
    | succ n => exact hrest n hmem
    | zero =>
      rw [substituteFrom] at hmem
      split at hmem
      · next out rest hfound =>
        rcases List.mem_append.1 hmem with hout | hmem
        · exact Or.inr ⟨d :: s, out, rest, List.suffix_refl _, hfound, hout⟩
        · exact hrest _ hmem
      · rcases List.mem_cons.1 hmem with heq | hmem
        · exact Or.inl (heq ▸ List.mem_cons_self)
        · exact hrest _ hmem

theorem RetainsAt.substituteAll {here : Text → Option (Text × Text)} (h : RetainsAt here) :
    Retains (substituteAll here) := by
  intro s c hc
  rcases mem_of_mem_substituteAll hc with hmem | ⟨t, out, rest, ht, hfound, hout⟩
  · exact Or.inl hmem
  · exact (h t out rest hfound c hout).imp_left fun hmem => ht.subset hmem

theorem Retains.comp {f g : Text → Text} (hf : Retains f) (hg : Retains g) :
    Retains fun s => f (g s) := by
  intro s c hc
  rcases hf _ c hc with hmem | hnew
  · exact hg s c hmem
  · exact Or.inr hnew

/-! ## The steps -/

section Steps

/-- A word is replaced by characters of its own and by those that the steps write. -/
theorem retains_replaceAll {word out : Text} (h : ∀ c ∈ out, c ∈ word ∨ c ∈ written) :
    Retains (replaceAll word out) := by
  refine RetainsAt.substituteAll fun s o rest hfound c hc => ?_
  obtain ⟨rest', hafter, heq⟩ := Option.map_eq_some_iff.1 hfound
  obtain ⟨rfl, -⟩ := Prod.mk.inj heq
  rw [after?_eq_some.1 hafter]
  exact (h c hc).imp_left (List.mem_append_left rest')

theorem retains_stripAnchors : Retains stripAnchors := by
  have hcaret : ∀ s, ∀ c ∈ dropCaret s, c ∈ s := by
    intro s c hc
    unfold dropCaret at hc
    split at hc
    · exact List.mem_cons_of_mem _ hc
    · exact hc
  intro s c hc
  refine Or.inl (hcaret s c ?_)
  unfold stripAnchors dropDollar at hc
  split at hc
  · exact List.dropLast_subset _ hc
  · exact hc

theorem retainsAt_assertion? : RetainsAt assertion? := by
  intro s out rest h c hc
  obtain ⟨t, -, hshort⟩ := Option.bind_eq_some_iff.1 h
  obtain ⟨⟨inside, rest'⟩, -, heq⟩ := Option.bind_eq_some_iff.1 hshort
  obtain ⟨rfl, -⟩ := Prod.mk.inj (Option.some.inj heq)
  exact absurd hc List.not_mem_nil

theorem retainsAt_longScheme? : RetainsAt longScheme? := by
  intro s out rest h c hc
  obtain ⟨t, hafter, hfound⟩ := Option.bind_eq_some_iff.1 h
  have hs := after?_eq_some.1 hafter
  split at hfound
  · next d rest' _ hdrop =>
    obtain ⟨rfl, -⟩ := Prod.mk.inj (Option.some.inj hfound)
    have hcolon : ':' ∈ t := by
      rw [eq_append_of_dropWhile_ne_eq_cons hdrop]
      exact List.mem_append_right _ List.mem_cons_self
    have hletters : ∀ d ∈ "http*:".toList, d ∈ "http".toList ∨ d = ':' ∨ d ∈ written := by decide
    rw [hs]
    rcases hletters c hc with hin | rfl | hnew
    · exact Or.inl (List.mem_append_left t hin)
    · exact Or.inl (List.mem_append_right _ hcolon)
    · exact Or.inr hnew
  · exact absurd hfound (by simp)

theorem retains_foldScheme : Retains foldScheme :=
  retainsAt_longScheme?.substituteAll.comp
    ((retains_replaceAll (by decide)).comp
      ((retains_replaceAll (by decide)).comp (retains_replaceAll (by decide))))

theorem retainsAt_count? : RetainsAt count? := by
  intro s out rest h c hc
  unfold count? at h
  split at h
  · obtain ⟨found, -, heq⟩ := Option.map_eq_some_iff.1 h
    obtain ⟨rfl, -⟩ := Prod.mk.inj heq
    exact Or.inr (List.mem_singleton.1 hc ▸ by decide)
  · exact absurd h (by simp)

theorem retainsAt_optionalGroup? : RetainsAt optionalGroup? := by
  intro s out rest h c hc
  unfold optionalGroup? at h
  split at h
  · split at h
    · obtain ⟨rfl, -⟩ := Prod.mk.inj (Option.some.inj h)
      exact Or.inr (List.mem_singleton.1 hc ▸ by decide)
    · exact absurd h (by simp)
  · exact absurd h (by simp)

theorem retainsAt_repeatedClass? : RetainsAt repeatedClass? := by
  intro s out rest h c hc
  have hstar : out = ['*'] := by
    unfold repeatedClass? at h
    split at h
    · split at h
      · exact (Prod.mk.inj (Option.some.inj h)).1.symm
      · exact (Prod.mk.inj (Option.some.inj h)).1.symm
      · exact absurd h (by simp)
    · exact absurd h (by simp)
  rw [hstar] at hc
  exact Or.inr (List.mem_singleton.1 hc ▸ by decide)

theorem mem_of_mem_dropDots {escaped : Bool} {s : Text} {c : Char} (h : c ∈ dropDots escaped s) :
    c ∈ s := by
  induction escaped, s using dropDots.induct with
  | case1 escaped d s hwild ih =>
    rw [dropDots, if_pos hwild] at h
    rcases List.mem_cons.1 h with rfl | h
    · simp
    · simp [ih h]
  | case2 escaped d s hwild ih =>
    rw [dropDots, if_neg hwild] at h
    rcases List.mem_cons.1 h with rfl | h
    · simp
    · exact List.mem_cons_of_mem _ (ih h)
  | case3 escaped d s hne ih =>
    rw [dropDots.eq_2 _ _ _ hne] at h
    rcases List.mem_cons.1 h with rfl | h
    · simp
    · exact List.mem_cons_of_mem _ (ih h)
  | case4 escaped => exact h

theorem afterRun?_suffix {x : Char} {s rest : Text} (h : afterRun? x s = some rest) :
    rest <:+ s := by
  cases s with
  | nil => exact absurd h (by simp [afterRun?])
  | cons c s =>
    rw [afterRun?] at h
    split at h
    · rw [← Option.some.inj h]
      exact (List.dropWhile_suffix _).trans (List.suffix_cons c s)
    · exact absurd h (by simp)

theorem mem_of_escapedMark? {marks s out rest : Text}
    (h : escapedMark? marks s = some (out, rest)) : ∀ c ∈ out, c ∈ s := by
  intro c hc
  unfold escapedMark? at h
  split at h
  · next d t hrun =>
    split at h
    · obtain ⟨rfl, -⟩ := Prod.mk.inj (Option.some.inj h)
      rw [List.mem_singleton.1 hc]
      exact (afterRun?_suffix hrun).subset List.mem_cons_self
    · exact absurd h (by simp)
  · exact absurd h (by simp)

theorem retainsAt_escapedMark? (marks : Text) : RetainsAt (escapedMark? marks) :=
  fun _ _ _ h c hc => Or.inl (mem_of_escapedMark? h c hc)

theorem eq_star_of_classEscape? {s out rest : Text} (h : classEscape? s = some (out, rest)) :
    out = ['*'] := by
  unfold classEscape? at h
  split at h
  · split at h
    · split at h
      · exact (Prod.mk.inj (Option.some.inj h)).1.symm
      · exact (Prod.mk.inj (Option.some.inj h)).1.symm
      · exact (Prod.mk.inj (Option.some.inj h)).1.symm
    · exact absurd h (by simp)
  · exact absurd h (by simp)

theorem retainsAt_classEscape? : RetainsAt classEscape? := by
  intro s out rest h c hc
  rw [eq_star_of_classEscape? h] at hc
  exact Or.inr (List.mem_singleton.1 hc ▸ by decide)

theorem Step.retains_apply (step : Step) : Retains step.apply := by
  cases step with
  | anchors => exact retains_stripAnchors
  | assertions => exact retainsAt_assertion?.substituteAll
  | nonCapturing => exact retains_replaceAll (by decide)
  | plainGroups => exact fun s c hc => Or.inl (mem_of_mem_unwrap hc)
  | scheme => exact retains_foldScheme
  | counts => exact retainsAt_count?.substituteAll
  | optionalGroups => exact retainsAt_optionalGroup?.substituteAll
  | repeatedClasses => exact retainsAt_repeatedClass?.substituteAll
  | plus => exact retains_replaceAll (by decide)
  | dots => exact fun s c hc => Or.inl (mem_of_mem_dropDots hc)
  | escapedSeparators => exact (retainsAt_escapedMark? _).substituteAll
  | escapedLiterals => exact (retainsAt_escapedMark? _).substituteAll
  | classEscapes => exact retainsAt_classEscape?.substituteAll
  | wildcardRuns => exact fun s c hc => Or.inl (mem_of_mem_collapse hc)

theorem retains_simplify : Retains simplify := by
  have hsteps : ∀ steps : List Step,
      Retains fun s => steps.foldl (fun t step => step.apply t) s := by
    intro steps
    induction steps with
    | nil => exact fun s c hc => Or.inl hc
    | cons step steps ih => exact ih.comp step.retains_apply
  exact hsteps Step.all

end Steps

/-! ## The rounds -/

theorem mem_of_mem_expandFirst {s branch : Text} {c : Char} (hb : branch ∈ expandFirst s)
    (hc : c ∈ branch) : c ∈ s := by
  obtain hself | ⟨before, d, x, after, rfl, -, -, hbranch⟩ := expandFirst_cases s
  · rw [hself] at hb
    exact List.mem_singleton.1 hb ▸ hc
  · rw [hbranch] at hb
    obtain ⟨choice, hchoice, rfl⟩ := List.mem_map.1 hb
    rw [List.append_assoc, List.mem_append, List.mem_append] at hc
    rcases hc with hc | hc | hc
    · exact List.mem_append_left _ hc
    · have hinside := mem_of_mem_piece hchoice hc
      simp only [List.mem_append, List.mem_cons]
      exact Or.inr (Or.inr (Or.inl (List.mem_cons.1 hinside)))
    · simp only [List.mem_append, List.mem_cons]
      exact Or.inr (Or.inr (Or.inr (Or.inr hc)))

/-- Groups are on one line, so every branch has the line breaks of its text. -/
theorem newline_mem_iff_of_mem_expandFirst {s branch : Text} (hb : branch ∈ expandFirst s) :
    '\n' ∈ branch ↔ '\n' ∈ s := by
  obtain hself | ⟨before, d, x, after, rfl, hline, -, hbranch⟩ := expandFirst_cases s
  · rw [hself] at hb
    rw [List.mem_singleton.1 hb]
  · rw [hbranch] at hb
    obtain ⟨choice, hchoice, rfl⟩ := List.mem_map.1 hb
    have hpiece : '\n' ∉ choice := fun hmem => hline (mem_of_mem_piece hchoice hmem)
    simp only [List.mem_append, List.mem_cons, not_or] at hline ⊢
    simp [hpiece, hline]

/-- What holds of the simplified expression holds of the globs, if branches and collapsed texts
keep it. -/
theorem forall_mem_globs (Q : Text → Prop) (hbranch : ∀ s, Q s → ∀ b ∈ expandFirst s, Q b)
    (hcollapse : ∀ s, Q s → Q (collapseWildcards s)) {pattern : Text} (h : Q (simplify pattern)) :
    ∀ glob ∈ globs pattern, Q glob := by
  intro glob hglob
  cases hfound : globs? pattern with
  | none =>
    rw [globs, hfound] at hglob
    exact absurd hglob List.not_mem_nil
  | some found =>
    rw [globs, hfound] at hglob
    obtain ⟨branches, hexpand, -, rfl, -⟩ := globs?_eq_some hfound
    obtain ⟨branch, hmem, rfl⟩ := List.mem_map.1 (List.mem_filter.1 hglob).1
    have hkept : ∀ b ∈ branches, Q b :=
      forall_mem_expandRounds hbranch hexpand fun s hs => List.mem_singleton.1 hs ▸ h
    exact hcollapse branch (hkept branch hmem)

/-- A character of a glob is a star or one of the expression. -/
theorem mem_of_mem_globs {pattern glob : Text} {c : Char} (hglob : glob ∈ globs pattern)
    (hc : c ∈ glob) : c ∈ pattern ∨ c ∈ written := by
  have hkept : ∀ d ∈ glob, d ∈ simplify pattern :=
    forall_mem_globs (fun s => ∀ d ∈ s, d ∈ simplify pattern)
      (fun s hs b hb d hd => hs d (mem_of_mem_expandFirst hb hd))
      (fun s hs d hd => hs d (mem_of_mem_collapse hd)) (fun d hd => hd) glob hglob
  exact retains_simplify pattern c (hkept c hc)

theorem newline_mem_iff_of_mem_globs {pattern glob : Text} (hglob : glob ∈ globs pattern) :
    '\n' ∈ glob ↔ '\n' ∈ simplify pattern := by
  refine forall_mem_globs (fun s => '\n' ∈ s ↔ '\n' ∈ simplify pattern) (fun s hs b hb => ?_)
    (fun s hs => ?_) Iff.rfl glob hglob
  · exact (newline_mem_iff_of_mem_expandFirst hb).trans hs
  · exact ⟨fun hmem => hs.1 (mem_of_mem_collapse hmem),
      fun hmem => mem_collapse_of_not_wild (by decide) (hs.2 hmem)⟩

theorem forall_newline_not_mem_globs_iff {pattern : Text} :
    (∀ glob ∈ globs pattern, '\n' ∉ glob) ↔ globs pattern = [] ∨ '\n' ∉ simplify pattern := by
  constructor
  · intro h
    by_cases hnil : globs pattern = []
    · exact Or.inl hnil
    · obtain ⟨glob, hglob⟩ := List.exists_mem_of_ne_nil _ hnil
      exact Or.inr (mt (newline_mem_iff_of_mem_globs hglob).2 (h glob hglob))
  · rintro (hnil | hline) glob hglob
    · exact absurd (hnil ▸ hglob) List.not_mem_nil
    · exact mt (newline_mem_iff_of_mem_globs hglob).1 hline

end Regexp
end StyleScope
