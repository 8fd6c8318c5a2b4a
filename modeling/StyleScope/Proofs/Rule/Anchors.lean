import StyleScope.Proofs.Regexp.Simplification
import StyleScope.Proofs.Rule.Contributions

/-!
# Anchored expressions

A regular expression has to match a whole address, so anchors at its ends say nothing new,
and the first step takes them off.  But some expressions have patterns of their own or
none, and those are recognised before any step is taken.  `Rule.patterns_anchored_iff` is
the result: anchors make a difference exactly for them.
-/

namespace StyleScope

open Text

namespace Regexp

def anchored (value : Text) : Text := '^' :: (value ++ ['$'])

theorem dropCaret_eq_self {s : Text} (h : s.head? ≠ some '^') : dropCaret s = s := by
  unfold dropCaret
  split
  · exact absurd rfl h
  · rfl

theorem stripAnchors_anchored (value : Text) : stripAnchors (anchored value) = value :=
  dropDollar_append value

theorem stripAnchors_of_ends {value : Text} (hstart : value.head? ≠ some '^')
    (hend : value.getLast? ≠ some '$') : stripAnchors value = value := by
  rw [stripAnchors, dropCaret_eq_self hstart, dropDollar, if_neg hend]

/-- Nothing but the first step sees the anchors. -/
theorem globs_eq_of_stripAnchors_eq {s t : Text} (h : stripAnchors s = stripAnchors t) :
    globs s = globs t := by
  have hfirst : Step.apply .anchors s = Step.apply .anchors t := h
  have hsteps : simplify s = simplify t := by
    simp only [simplify, Step.all, List.foldl_cons, hfirst]
  rw [globs, globs, globs?, globs?, hsteps]

theorem globs_anchored {value : Text} (hstart : value.head? ≠ some '^')
    (hend : value.getLast? ≠ some '$') : globs (anchored value) = globs value := by
  refine globs_eq_of_stripAnchors_eq ?_
  rw [stripAnchors_anchored, stripAnchors_of_ends hstart hend]

end Regexp

namespace Call

open Regexp

variable {value : Text}

/-- The expressions with patterns of their own. -/
def ownPatterns : List Text :=
  [".*".toList, ".+".toList, "http:.*".toList, "http:.+".toList, "https:.*".toList,
    "https:.+".toList]

def extensionEnd : Text := "-extension".toList

theorem scopesOfRegexp_eq (hext : isExtensionPage value = false) (hown : value ∉ ownPatterns) :
    scopesOfRegexp value = (globs value).map .byInclude := by
  have hne : ∀ own ∈ ownPatterns, value ≠ own := fun own h heq => hown (heq ▸ h)
  have hall : ¬ (value = ".*".toList ∨ value = ".+".toList) :=
    not_or.2 ⟨hne _ (by decide), hne _ (by decide)⟩
  have hhttp : ¬ (value = "http:.*".toList ∨ value = "http:.+".toList) :=
    not_or.2 ⟨hne _ (by decide), hne _ (by decide)⟩
  have hhttps : ¬ (value = "https:.*".toList ∨ value = "https:.+".toList) :=
    not_or.2 ⟨hne _ (by decide), hne _ (by decide)⟩
  rw [scopesOfRegexp, if_neg (by simp [hext]), if_neg hall, if_neg hhttp, if_neg hhttps]

theorem anchored_not_mem_ownPatterns (value : Text) : anchored value ∉ ownPatterns := by
  have hhead : ∀ own ∈ ownPatterns, own.head? ≠ some '^' := by decide
  exact fun hmem => hhead _ hmem rfl

theorem isExtensionPage_iff :
    isExtensionPage value = true ↔
      ':' ∈ value ∧ extensionEnd <:+ (value.takeWhile (· != ':')).tail := by
  rw [isExtensionPage, Bool.and_eq_true, List.contains_iff_mem, List.isSuffixOf_iff_suffix]
  rfl

/-- An anchor counts as a character of the scheme. -/
theorem isExtensionPage_anchored_iff :
    isExtensionPage (anchored value) = true ↔
      isExtensionPage value = true ∨ extensionEnd ++ [':'] <+: value := by
  by_cases hcolon : ':' ∈ value
  · obtain ⟨scheme, rest, rfl, hscheme⟩ := exists_first_of_mem hcolon
    have htake : (anchored (scheme ++ ':' :: rest)).takeWhile (· != ':') = '^' :: scheme := by
      have hcaret : ':' ∉ '^' :: scheme := by
        rw [List.mem_cons, not_or]
        exact ⟨by decide, hscheme⟩
      have hsplit : anchored (scheme ++ ':' :: rest) = '^' :: scheme ++ ':' :: (rest ++ ['$']) := by
        simp [anchored]
      rw [hsplit, takeWhile_ne_append_cons hcaret]
    have hstart : extensionEnd ++ [':'] <+: scheme ++ ':' :: rest ↔ scheme = extensionEnd := by
      constructor
      · rintro ⟨t, ht⟩
        have happ : extensionEnd ++ ':' :: t = scheme ++ ':' :: rest := by
          rw [← ht]
          simp
        exact (append_cons_inj (by decide) hscheme happ).1.symm
      · rintro rfl
        exact ⟨rest, by simp⟩
    have hmem : ':' ∈ anchored (scheme ++ ':' :: rest) := by simp [anchored]
    rw [isExtensionPage_iff, isExtensionPage_iff, htake, takeWhile_ne_append_cons hscheme,
      List.tail_cons, hstart, and_iff_right hmem, and_iff_right hcolon]
    -- Behind the anchor the whole scheme counts, and without it all but its first character.
    cases scheme with
    | nil => exact or_iff_left (by decide) |>.symm
    | cons c scheme =>
      rw [List.tail_cons, List.suffix_cons_iff, or_comm]
      exact or_congr_right eq_comm
  · have hanchored : ':' ∉ anchored value := by simp [anchored, hcolon]
    have hstart : ¬ extensionEnd ++ [':'] <+: value :=
      fun h => hcolon (h.subset (by decide))
    rw [isExtensionPage_iff, isExtensionPage_iff]
    exact iff_of_false (fun h => hanchored h.1) (not_or.2 ⟨fun h => hcolon h.1, hstart⟩)

/-- Without a character in front there is no scheme. -/
theorem isExtensionPage_eq_false (h : extensionEnd ++ [':'] <+: value) :
    isExtensionPage value = false := by
  obtain ⟨rest, rfl⟩ := h
  refine Bool.eq_false_iff.2 fun hext => ?_
  rw [List.append_assoc, List.singleton_append, isExtensionPage_iff,
    takeWhile_ne_append_cons (by decide)] at hext
  exact absurd hext.2 (by decide)

theorem scopesOfRegexp_of_isExtensionPage (h : isExtensionPage value = true) :
    scopesOfRegexp value = [] :=
  if_pos h

theorem scopesOfRegexp_anchored (hstart : value.head? ≠ some '^')
    (hend : value.getLast? ≠ some '$') (hown : value ∉ ownPatterns)
    (hextension : ¬ extensionEnd ++ [':'] <+: value) :
    scopesOfRegexp (anchored value) = scopesOfRegexp value := by
  cases hext : isExtensionPage value with
  | true =>
    rw [scopesOfRegexp_of_isExtensionPage hext]
    exact scopesOfRegexp_of_isExtensionPage (isExtensionPage_anchored_iff.2 (Or.inl hext))
  | false =>
    have hanchored : isExtensionPage (anchored value) = false := by
      refine Bool.eq_false_iff.2 fun h => ?_
      rcases isExtensionPage_anchored_iff.1 h with h | h
      · rw [hext] at h
        exact Bool.false_ne_true h
      · exact hextension h
    rw [scopesOfRegexp_eq hext hown,
      scopesOfRegexp_eq hanchored (anchored_not_mem_ownPatterns value), globs_anchored hstart hend]

end Call

namespace Rule

open Regexp Call

variable {calls : List Call} {value : Text}

/-- A rule has no patterns exactly when none of its calls contributes any. -/
theorem patterns_eq_empty_iff :
    patterns calls = PatternSet.empty ↔ ∀ call ∈ calls, call.scopes = [] := by
  constructor
  · intro hempty call hcall
    have hall : Pattern.catchAll ∉ (contributed calls).matchPatterns := by
      rw [← catchAll_mem_patterns, hempty]
      exact PatternSet.not_mem_empty _
    rw [patterns_of_catchAll_not_mem hall] at hempty
    refine List.eq_nil_iff_forall_not_mem.2 fun scope hscope => ?_
    have hmatch : ∀ p, p ∉ (contributed calls).matchPatterns := by
      rw [hempty]
      exact PatternSet.not_mem_empty
    have hinclude : ∀ p, p ∉ (contributed calls).includePatterns := by
      rw [hempty]
      exact PatternSet.not_mem_empty
    cases scope with
    | byMatch p => exact hmatch p (mem_matchPatterns_contributed.2 (Or.inl ⟨call, hcall, hscope⟩))
    | byInclude glob =>
      cases hglob : Pattern.ofInclude? glob with
      | none =>
        exact hinclude glob (mem_includePatterns_contributed.2 ⟨⟨call, hcall, hscope⟩, hglob⟩)
      | some p =>
        exact hmatch p (mem_matchPatterns_contributed.2 (Or.inr ⟨call, hcall, glob, hscope, hglob⟩))
  · intro h
    rw [patterns, List.flatMap_eq_nil_iff.2 h]
    rfl

theorem patterns_congr_scopes {call next : Call} (h : call.scopes = next.scopes) :
    patterns [call] = patterns [next] := by
  rw [patterns, patterns, List.flatMap_singleton, List.flatMap_singleton, h]

/-- The expressions with patterns of their own lose them between anchors. -/
theorem patterns_anchored_ne_of_ownPatterns :
    ∀ own ∈ ownPatterns, patterns [⟨.regexp, own⟩] ≠ patterns [⟨.regexp, anchored own⟩] := by
  decide

/-- Anchors make no difference to the patterns of an expression, unless it has patterns of
its own or is taken for a page of an extension once the anchor stands in front. -/
theorem patterns_anchored_iff (hstart : value.head? ≠ some '^') (hend : value.getLast? ≠ some '$') :
    patterns [⟨.regexp, value⟩] = patterns [⟨.regexp, anchored value⟩] ↔
      value ∉ ownPatterns ∧ ¬ (extensionEnd ++ [':'] <+: value ∧ globs value ≠ []) := by
  by_cases hown : value ∈ ownPatterns
  · exact iff_of_false (patterns_anchored_ne_of_ownPatterns value hown) fun h => h.1 hown
  rw [and_iff_right hown]
  by_cases hextension : extensionEnd ++ [':'] <+: value
  · have hanchored : patterns [⟨.regexp, anchored value⟩] = PatternSet.empty := by
      refine patterns_eq_empty_iff.2 (List.forall_mem_singleton.2 ?_)
      exact scopesOfRegexp_of_isExtensionPage (isExtensionPage_anchored_iff.2 (Or.inr hextension))
    rw [hanchored, patterns_eq_empty_iff, List.forall_mem_singleton,
      show Call.scopes ⟨.regexp, value⟩ = scopesOfRegexp value from rfl,
      scopesOfRegexp_eq (isExtensionPage_eq_false hextension) hown]
    simp [hextension]
  · refine iff_of_true (patterns_congr_scopes ?_) fun h => hextension h.1
    exact (scopesOfRegexp_anchored hstart hend hown hextension).symm

/-- Two hosts, with an optional part behind a colon. -/
theorem patterns_anchored_iff_hosts :
    let value := "https?://(a|b\\.c):(8)?.*".toList
    value.head? ≠ some '^' ∧ value.getLast? ≠ some '$' ∧
      patterns [⟨.regexp, value⟩] = patterns [⟨.regexp, anchored value⟩] := by
  intro value
  have hstart : value.head? ≠ some '^' := by decide
  have hend : value.getLast? ≠ some '$' := by decide
  exact ⟨hstart, hend, (patterns_anchored_iff hstart hend).2 ⟨by decide, by decide⟩⟩

/-- Between anchors any text is an include pattern and no longer every web address. -/
theorem patterns_anchored_anyText :
    let value := ".*".toList
    value ≠ [] ∧ value.head? ≠ some '^' ∧ value.getLast? ≠ some '$' ∧ value.getLast? ≠ some '\\' ∧
      patterns [⟨.regexp, value⟩] = PatternSet.catchAll ∧
      patterns [⟨.regexp, anchored value⟩] = ⟨∅, .singleton "*".toList⟩ ∧
      patterns [⟨.regexp, value⟩] ≠ patterns [⟨.regexp, anchored value⟩] := by
  decide

end Rule
end StyleScope
