import StyleScope.Proofs.Regexp.Characters

/-!
# The shape of a glob

Of whatever text a glob is made, it has no syntax left in it, no `+` and no two wildcards
side by side, and there are at most 256 globs (`shape_of_toGlobs_eq_ok`).  The `+` goes in
the middle of the steps, and no later step writes one.  The wildcards are kept apart by
the last collapsing, because the alternatives of a group may bring them together again.
-/

namespace StyleScope
namespace Regexp

open Text

variable {pattern s : Text} {globs : List Text}

/-- No syntax is left of the expression, and no two wildcards stand side by side. -/
structure WellShaped (glob : Text) : Prop where
  ne_nil : glob ≠ []
  plain : ∀ c ∈ ['(', ')', '|', '\\', '+'], c ∉ glob
  apart : ∀ x c d y, glob = x ++ c :: d :: y → c ∈ ['*', '?'] → d ∉ ['*', '?']

/-! ## The plus sign -/

theorem plus_not_mem_replaceAll (s : Text) : '+' ∉ replaceAll "+".toList "*".toList s := by
  have hmap : replaceAll "+".toList "*".toList s = s.map fun c => if c = '+' then '*' else c :=
    replaceAll_char '+' '*' s
  rw [hmap]
  intro hmem
  obtain ⟨c, -, hc⟩ := List.mem_map.1 hmem
  split at hc
  · exact absurd hc (by decide)
  · next hne => exact hne hc

/-- What a recogniser puts in place of a stretch has no `+` unless the stretch has one. -/
theorem plus_not_mem_substituteAll {here : Text → Option (Text × Text)}
    (h : ∀ t out rest, here t = some (out, rest) → '+' ∈ out → '+' ∈ t) (hs : '+' ∉ s) :
    '+' ∉ substituteAll here s := by
  intro hmem
  rcases mem_of_mem_substituteAll hmem with hin | ⟨t, out, rest, ht, hfound, hout⟩
  · exact hs hin
  · exact hs (ht.subset (h t out rest hfound hout))

def Step.behindPlus : List Step :=
  [.dots, .escapedSeparators, .escapedLiterals, .classEscapes, .wildcardRuns]

theorem Step.plus_not_mem_apply {step : Step} (hstep : step ∈ Step.behindPlus) (hs : '+' ∉ s) :
    '+' ∉ step.apply s := by
  have hmark : ∀ marks : Text, '+' ∉ substituteAll (escapedMark? marks) s := fun marks =>
    plus_not_mem_substituteAll (fun t out rest h hout => mem_of_escapedMark? h '+' hout) hs
  have hclass : '+' ∉ substituteAll classEscape? s := by
    refine plus_not_mem_substituteAll (fun t out rest h hout => ?_) hs
    rw [eq_star_of_classEscape? h] at hout
    exact absurd hout (by decide)
  simp only [Step.behindPlus, List.mem_cons, List.not_mem_nil, or_false] at hstep
  rcases hstep with rfl | rfl | rfl | rfl | rfl
  · exact fun hmem => hs (mem_of_mem_dropDots hmem)
  · exact hmark ['/', ':']
  · exact hmark ['.', '?']
  · exact hclass
  · exact fun hmem => hs (mem_of_mem_collapse hmem)

theorem Step.plus_not_mem_foldl {steps : List Step} (hsteps : steps ⊆ Step.behindPlus)
    (hs : '+' ∉ s) : '+' ∉ steps.foldl (fun t step => step.apply t) s := by
  induction steps generalizing s with
  | nil => exact hs
  | cons step steps ih =>
    rw [List.cons_subset] at hsteps
    exact ih hsteps.2 (Step.plus_not_mem_apply hsteps.1 hs)

theorem plus_not_mem_simplify (s : Text) : '+' ∉ simplify s := by
  have hall : Step.all = [.anchors, .assertions, .nonCapturing, .plainGroups, .scheme, .counts,
      .optionalGroups, .repeatedClasses] ++ .plus :: Step.behindPlus := rfl
  rw [simplify, hall, List.foldl_append, List.foldl_cons]
  exact Step.plus_not_mem_foldl (List.Subset.refl _) (plus_not_mem_replaceAll _)

/-! ## Wildcards -/

/-- Collapsing leaves no two wildcards side by side. -/
theorem not_wild_of_collapse_eq {x y : Text} {c d : Char}
    (h : collapseWildcards s = x ++ c :: d :: y) (hc : isWildcard c = true) :
    isWildcard d = false := by
  induction s generalizing x with
  | nil => exact absurd h (by simp [collapseWildcards])
  | cons e s ih =>
    rw [collapseWildcards_cons] at h
    split at h
    · exact ih h
    · next hkeep =>
      cases x with
      | cons e' x => exact ih (List.cons.inj h).2
      | nil =>
        -- The first character stays, so it is no wildcard in front of another one.
        obtain ⟨rfl, hrest⟩ := List.cons.inj h
        have hstart : startsWild s = isWildcard d := by
          rw [← startsWild_collapse, hrest]
          rfl
        rw [hc, hstart, Bool.true_and] at hkeep
        exact Bool.eq_false_iff.2 hkeep

/-! ## The globs -/

theorem length_expandRounds_le {n : Nat} {starts branches : List Text}
    (h : expandRounds n starts = some branches) (hstarts : starts.length ≤ maxBranches) :
    branches.length ≤ maxBranches :=
  expandRounds_induction (motive := fun bs => bs.length ≤ maxBranches) (fun _ _ hlen => hlen) h
    hstarts

theorem globs?_eq_some_of_toGlobs (h : toGlobs pattern = .ok globs) :
    globs? pattern = some globs := by
  unfold toGlobs at h
  split at h
  · next found hfound => rw [hfound, Except.ok.inj h]
  · exact absurd h (by simp)

/-- Every expression that is not refused has at least one glob and at most 256, and all of
them are well shaped. -/
theorem shape_of_toGlobs_eq_ok (h : toGlobs pattern = .ok globs) :
    1 ≤ globs.length ∧ globs.length ≤ 256 ∧ ∀ g ∈ globs, WellShaped g := by
  obtain ⟨branches, hexpand, hclean, rfl, hne⟩ :=
    globs?_eq_some (globs?_eq_some_of_toGlobs h)
  have hlen : branches.length ≤ 256 :=
    length_expandRounds_le hexpand (show 1 ≤ maxBranches by decide)
  have hkept : ∀ b ∈ branches, ∀ c ∈ b, c ∈ simplify pattern :=
    forall_mem_expandRounds (fun s hs b hb c hc => hs c (mem_of_mem_expandFirst hb hc)) hexpand
      fun s hs c hc => List.mem_singleton.1 hs ▸ hc
  refine ⟨List.length_pos_iff.2 hne, ?_, fun g hg => ?_⟩
  · calc _ ≤ (branches.map collapseWildcards).length := List.length_filter_le _ _
      _ = branches.length := List.length_map _
      _ ≤ 256 := hlen
  · obtain ⟨hmem, hempty⟩ := List.mem_filter.1 hg
    obtain ⟨b, hb, rfl⟩ := List.mem_map.1 hmem
    refine ⟨by simpa using hempty, fun c hc hcg => ?_, fun x c d y heq hc hd => ?_⟩
    · have hcb := mem_of_mem_collapse hcg
      by_cases hplus : c = '+'
      · exact plus_not_mem_simplify pattern (hplus ▸ hkept b hb c hcb)
      · have hres : isResidual c = true := isResidual_iff.2 (by simpa [hplus] using hc)
        rw [hclean b hb c hcb] at hres
        exact absurd hres Bool.false_ne_true
    · have hwild := not_wild_of_collapse_eq heq (isWildcard_iff.2 hc)
      rw [isWildcard_iff.2 hd] at hwild
      exact Bool.noConfusion hwild

/-- An alternative that is a wildcard, in front of another wildcard. -/
theorem shape_of_toGlobs_eq_ok_wild_alternative :
    toGlobs "a(.+|b)*".toList = .ok ["a*".toList, "ab*".toList] ∧
      1 ≤ ["a*".toList, "ab*".toList].length ∧ ["a*".toList, "ab*".toList].length ≤ 256 ∧
      ∀ g ∈ ["a*".toList, "ab*".toList], WellShaped g := by
  have hglobs : toGlobs "a(.+|b)*".toList = .ok ["a*".toList, "ab*".toList] := rfl
  exact ⟨hglobs, shape_of_toGlobs_eq_ok hglobs⟩

end Regexp
end StyleScope
