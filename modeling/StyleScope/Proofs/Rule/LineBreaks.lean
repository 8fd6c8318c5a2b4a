import StyleScope.Proofs.Regexp.Characters
import StyleScope.Proofs.Rule.Validity

/-!
# Which rules break a line

A pattern is written on a line of its own, but a quoted value may have line breaks, and
most of what is made of it keeps them.  `Rule.forall_newline_not_mem_patterns_iff` says
for which rules no pattern has one.  Values on one line never are the cause; of the
others those are harmless of which nothing is made, and the regular expressions that are
simplified to one line.
-/

namespace StyleScope

open Text

def Scope.pattern : Scope → Text
  | .byMatch p => p
  | .byInclude p => p

namespace Pattern

/-- Promotion neither adds nor removes line breaks. -/
theorem newline_mem_of_ofInclude?_iff {glob p : Text} (h : ofInclude? glob = some p) :
    '\n' ∈ p ↔ '\n' ∈ glob := by
  have hscheme : '\n' ∈ withAnyScheme glob ↔ '\n' ∈ glob := by
    unfold withAnyScheme
    split
    · next rest hrest =>
      rw [after?_eq_some.1 hrest, List.mem_append, List.mem_append]
      exact or_congr_left (iff_of_false (by decide) (by decide))
    · exact Iff.rfl
  have hpath : '\n' ∈ withPath (withAnyScheme glob) ↔ '\n' ∈ withAnyScheme glob := by
    unfold withPath
    split
    · exact Iff.rfl
    · rw [List.mem_append]
      exact or_iff_left (by decide)
  unfold ofInclude? at h
  split at h
  · rw [← Option.some.inj h, hpath, hscheme]
  · exact absurd h (by simp)

end Pattern

namespace Call

open Address

/-- A call that leaves every line whole: its value is one line, or nothing is made of it, or its
line breaks go when it is simplified. -/
def StaysOnLine (call : Call) : Prop :=
  '\n' ∈ call.value →
    match call.function with
    | .url | .urlPrefix => isLiteral call.value = false
    | .domain => '*' ∈ domainName call.value
    | .regexp => isExtensionPage call.value = true ∨ Regexp.globs call.value = [] ∨
        '\n' ∉ Regexp.simplify call.value

def IsUnbroken (call : Call) : Prop := ∀ scope ∈ call.scopes, '\n' ∉ scope.pattern

variable {value : Text}

theorem newline_mem_domainName_iff : '\n' ∈ domainName value ↔ '\n' ∈ value := by
  unfold domainName
  cases hafter : after? "www.".toList value with
  | none => exact Iff.rfl
  | some rest =>
    rw [after?_eq_some.1 hafter, List.mem_append]
    exact (or_iff_right (by decide)).symm

/-- An address is part of each of its patterns. -/
theorem isUnbroken_of_address {scopes : List Scope} (hne : isLiteral value = true → scopes ≠ [])
    (hnil : isLiteral value = false → scopes = [])
    (hscopes : ∀ scope ∈ scopes, ('\n' ∈ scope.pattern ↔ '\n' ∈ value)) :
    (∀ scope ∈ scopes, '\n' ∉ scope.pattern) ↔ ('\n' ∈ value → isLiteral value = false) := by
  cases hlit : isLiteral value with
  | false =>
    rw [hnil hlit]
    exact iff_of_true (fun scope h => absurd h List.not_mem_nil) fun _ => rfl
  | true =>
    obtain ⟨scope, hmem⟩ := List.exists_mem_of_ne_nil _ (hne hlit)
    constructor
    · intro h hbreak
      exact absurd ((hscopes scope hmem).2 hbreak) (h scope hmem)
    · intro h s hs hbreak
      exact Bool.noConfusion (h ((hscopes s hs).1 hbreak))

theorem isUnbroken_url_iff : IsUnbroken ⟨.url, value⟩ ↔ StaysOnLine ⟨.url, value⟩ := by
  refine isUnbroken_of_address (fun hlit => ?_) (fun hlit => ?_) fun scope hscope => ?_
  · cases hport : hasPort value <;> simp [scopes, scopesOfUrl, hlit, hport]
  · simp [scopes, scopesOfUrl, hlit]
  · cases hlit : isLiteral value <;> cases hport : hasPort value <;>
      simp [scopes, scopesOfUrl, hlit, hport] at hscope <;> rw [hscope] <;> exact Iff.rfl

theorem isUnbroken_urlPrefix_iff :
    IsUnbroken ⟨.urlPrefix, value⟩ ↔ StaysOnLine ⟨.urlPrefix, value⟩ := by
  refine isUnbroken_of_address (fun hlit => ?_) (fun hlit => ?_) fun scope hscope => ?_
  · cases hport : hasPort value <;> cases hpath : hasPath value <;>
      simp [scopes, scopesOfUrlPrefix, hlit, hport, hpath]
  · simp [scopes, scopesOfUrlPrefix, hlit]
  · cases hlit : isLiteral value <;> cases hport : hasPort value <;>
      cases hpath : hasPath value <;>
      simp [scopes, scopesOfUrlPrefix, hlit, hport, hpath] at hscope <;> rw [hscope] <;>
      simp [Scope.pattern]

theorem isUnbroken_domain_iff : IsUnbroken ⟨.domain, value⟩ ↔ StaysOnLine ⟨.domain, value⟩ := by
  by_cases hstar : '*' ∈ domainName value
  · simp [IsUnbroken, StaysOnLine, scopes, scopesOfDomain_eq_ite, hstar]
  · simp [IsUnbroken, StaysOnLine, scopes, scopesOfDomain_eq_ite, hstar, Scope.pattern,
      newline_mem_domainName_iff]

theorem newline_not_mem_globs (h : '\n' ∉ value) {glob : Text} (hglob : glob ∈ Regexp.globs value) :
    '\n' ∉ glob := by
  intro hmem
  rcases Regexp.mem_of_mem_globs hglob hmem with hvalue | hwritten
  · exact h hvalue
  · exact absurd hwritten (by decide)

/-- A regular expression that has no pattern of its own contributes its globs. -/
theorem scopesOfRegexp_of_newline_mem (hext : isExtensionPage value = false) (h : '\n' ∈ value) :
    scopesOfRegexp value = (Regexp.globs value).map .byInclude := by
  have hne : ∀ fixed ∈ [".*".toList, ".+".toList, "http:.*".toList, "http:.+".toList,
      "https:.*".toList, "https:.+".toList], value ≠ fixed := by
    intro fixed hfixed heq
    have hno : ∀ s ∈ [".*".toList, ".+".toList, "http:.*".toList, "http:.+".toList,
      "https:.*".toList, "https:.+".toList], '\n' ∉ s := by decide
    exact hno fixed hfixed (heq ▸ h)
  rw [scopesOfRegexp, hext, if_neg Bool.false_ne_true,
    if_neg (not_or.2 ⟨hne _ (by decide), hne _ (by decide)⟩),
    if_neg (not_or.2 ⟨hne _ (by decide), hne _ (by decide)⟩),
    if_neg (not_or.2 ⟨hne _ (by decide), hne _ (by decide)⟩)]

/-- Without line breaks in the expression there are none in its patterns. -/
theorem isUnbroken_regexp_of_newline_not_mem (h : '\n' ∉ value) :
    IsUnbroken ⟨.regexp, value⟩ := by
  intro scope hscope
  have hscope' : scope ∈ scopesOfRegexp value := hscope
  unfold scopesOfRegexp at hscope'
  split at hscope'
  · exact absurd hscope' List.not_mem_nil
  · split at hscope'
    · exact List.mem_singleton.1 hscope' ▸ (by decide : '\n' ∉ Pattern.catchAll)
    · split at hscope'
      · exact List.mem_singleton.1 hscope' ▸ (by decide : '\n' ∉ "http://*/*".toList)
      · split at hscope'
        · exact List.mem_singleton.1 hscope' ▸ (by decide : '\n' ∉ "https://*/*".toList)
        · obtain ⟨glob, hglob, rfl⟩ := List.mem_map.1 hscope'
          exact newline_not_mem_globs h hglob

theorem isUnbroken_regexp_iff : IsUnbroken ⟨.regexp, value⟩ ↔ StaysOnLine ⟨.regexp, value⟩ := by
  by_cases hbreak : '\n' ∈ value
  · cases hext : isExtensionPage value with
    | true => simp [IsUnbroken, StaysOnLine, scopes, scopesOfRegexp, hext]
    | false =>
      simp [IsUnbroken, StaysOnLine, scopes, scopesOfRegexp_of_newline_mem hext hbreak, hext,
        hbreak, Scope.pattern, ← Regexp.forall_newline_not_mem_globs_iff]
  · exact iff_of_true (isUnbroken_regexp_of_newline_not_mem hbreak) fun h => absurd h hbreak

theorem isUnbroken_iff (call : Call) : call.IsUnbroken ↔ call.StaysOnLine := by
  obtain ⟨f, value⟩ := call
  cases f with
  | url => exact isUnbroken_url_iff
  | urlPrefix => exact isUnbroken_urlPrefix_iff
  | domain => exact isUnbroken_domain_iff
  | regexp => exact isUnbroken_regexp_iff

end Call

namespace Rule

variable {calls : List Call}

theorem forall_newline_not_mem_contributed_iff :
    ((∀ p ∈ (contributed calls).matchPatterns, '\n' ∉ p) ∧
        ∀ p ∈ (contributed calls).includePatterns, '\n' ∉ p) ↔
      ∀ call ∈ calls, call.IsUnbroken := by
  constructor
  · intro ⟨hmatch, hinclude⟩ call hcall scope hscope
    cases scope with
    | byMatch p => exact hmatch p (mem_matchPatterns_contributed.2 (Or.inl ⟨call, hcall, hscope⟩))
    | byInclude glob =>
      cases hpromoted : Pattern.ofInclude? glob with
      | none =>
        exact hinclude glob (mem_includePatterns_contributed.2 ⟨⟨call, hcall, hscope⟩, hpromoted⟩)
      | some p =>
        have hp := hmatch p (mem_matchPatterns_contributed.2
          (Or.inr ⟨call, hcall, glob, hscope, hpromoted⟩))
        exact mt (Pattern.newline_mem_of_ofInclude?_iff hpromoted).2 hp
  · intro h
    constructor
    · intro p hp
      rcases mem_matchPatterns_contributed.1 hp with ⟨call, hcall, hscope⟩ |
        ⟨call, hcall, glob, hscope, hpromoted⟩
      · exact h call hcall _ hscope
      · exact mt (Pattern.newline_mem_of_ofInclude?_iff hpromoted).1 (h call hcall _ hscope)
    · intro p hp
      obtain ⟨⟨call, hcall, hscope⟩, -⟩ := mem_includePatterns_contributed.1 hp
      exact h call hcall _ hscope

/-- No pattern of a rule has a line break exactly when none of its calls makes one, or the
pattern for every web address displaces the others. -/
theorem forall_newline_not_mem_patterns_iff :
    ((∀ p ∈ (patterns calls).matchPatterns, '\n' ∉ p) ∧
        ∀ p ∈ (patterns calls).includePatterns, '\n' ∉ p) ↔
      Pattern.catchAll ∈ (patterns calls).matchPatterns ∨ ∀ call ∈ calls, call.StaysOnLine := by
  by_cases hall : Pattern.catchAll ∈ (contributed calls).matchPatterns
  · rw [patterns_of_catchAll_mem hall]
    refine iff_of_true ⟨fun p hp => ?_, fun p hp => absurd hp List.not_mem_nil⟩
      (Or.inl (List.mem_singleton.2 rfl))
    rw [List.mem_singleton.1 hp]
    decide
  · rw [patterns_of_catchAll_not_mem hall, forall_newline_not_mem_contributed_iff]
    simp only [hall, false_or, Call.isUnbroken_iff]

end Rule
end StyleScope
