import StyleScope.Proofs.Rule.Validity

/-!
# Where the pattern for every web address comes from

Only regular expressions can make a rule apply everywhere: the two that match any text,
and those with one of the two globs that are promoted to the pattern for every web
address.  `Rule.catchAll_mem_patterns_iff` is the result.  The patterns of addresses
start with `http:` or `https:` and those of domains have a name behind `*.`, so none of
them is that pattern or one of those globs.
-/

namespace StyleScope

open Text WebAddress

namespace Pattern

def anyAddress : Text := "http*://*/*".toList

/-- Two globs are promoted to the pattern for every web address. -/
theorem ofInclude?_eq_catchAll_iff {glob : Text} :
    ofInclude? glob = some catchAll ↔ glob = catchAll ∨ glob = anyAddress := by
  constructor
  · intro h
    have hpath : withPath (withAnyScheme glob) = catchAll := by
      unfold ofInclude? at h
      split at h
      · exact Option.some.inj h
      · exact absurd h (by simp)
    have hscheme : withAnyScheme glob = catchAll := by
      unfold withPath at hpath
      split at hpath
      · exact hpath
      · have hlast := congrArg List.getLast? hpath
        rw [List.getLast?_concat] at hlast
        exact absurd hlast (by decide)
    unfold withAnyScheme at hscheme
    split at hscheme
    · next rest hrest =>
      have hsame : "*:".toList ++ rest = "*:".toList ++ "//*/*".toList := hscheme
      rw [after?_eq_some.1 hrest, List.append_cancel_left hsame]
      exact Or.inr rfl
    · exact Or.inl hscheme
  · rintro (rfl | rfl)
    · decide
    · decide

end Pattern

/-- A pattern on its way into a set that becomes the one for every web address. -/
def Scope.Widens : Scope → Prop
  | .byMatch p => p = Pattern.catchAll
  | .byInclude glob => glob = Pattern.catchAll ∨ glob = Pattern.anyAddress

theorem Rule.catchAll_mem_patterns_iff_widens {calls : List Call} :
    Pattern.catchAll ∈ (Rule.patterns calls).matchPatterns ↔
      ∃ call ∈ calls, ∃ scope ∈ call.scopes, scope.Widens := by
  rw [Rule.catchAll_mem_patterns, Rule.mem_matchPatterns_contributed]
  constructor
  · rintro (⟨call, hcall, hscope⟩ | ⟨call, hcall, glob, hscope, hglob⟩)
    · exact ⟨call, hcall, _, hscope, rfl⟩
    · exact ⟨call, hcall, _, hscope, Pattern.ofInclude?_eq_catchAll_iff.1 hglob⟩
  · rintro ⟨call, hcall, scope, hscope, hw⟩
    cases scope with
    | byMatch p =>
      have hp : p = Pattern.catchAll := hw
      exact Or.inl ⟨call, hcall, hp ▸ hscope⟩
    | byInclude glob =>
      exact Or.inr ⟨call, hcall, glob, hscope, Pattern.ofInclude?_eq_catchAll_iff.2 hw⟩

namespace Call

open Address Pattern

/-- A call that makes its rule apply everywhere: a regular expression that matches any
text, or one with a glob that is promoted to the pattern for every web address. -/
def IsEverywhere (call : Call) : Prop :=
  call.function = .regexp ∧ isExtensionPage call.value = false ∧
    (call.value = ".*".toList ∨ call.value = ".+".toList ∨
      catchAll ∈ Regexp.globs call.value ∨ anyAddress ∈ Regexp.globs call.value)

/-- An address does not start with a scheme that has a star. -/
theorem ne_of_scheme {scheme rest p : Text} (h : scheme ∈ webSchemes)
    (hp : p = catchAll ∨ p = anyAddress) : scheme ++ "://".toList ++ rest ≠ p := by
  have hcolon := colon_not_mem_of_mem_webSchemes h
  rintro rfl
  rcases hp with hp | hp
  · have heq : scheme ++ "://".toList ++ rest = ['*'] ++ "://".toList ++ "*/*".toList := hp
    rw [(scheme_append_inj hcolon (by decide) heq).1] at h
    exact absurd h (by decide)
  · have heq : scheme ++ "://".toList ++ rest =
        "http*".toList ++ "://".toList ++ "*/*".toList := hp
    rw [(scheme_append_inj hcolon (by decide) heq).1] at h
    exact absurd h (by decide)

theorem not_widens_byMatch_of_scheme {scheme : Text} (h : scheme ∈ webSchemes) (rest : Text) :
    ¬ (Scope.byMatch (scheme ++ "://".toList ++ rest)).Widens :=
  fun hw => ne_of_scheme h (Or.inl rfl) hw

theorem not_widens_byInclude_of_scheme {scheme : Text} (h : scheme ∈ webSchemes) (rest : Text) :
    ¬ (Scope.byInclude (scheme ++ "://".toList ++ rest)).Widens :=
  fun hw => ne_of_scheme h hw rfl

theorem not_widens_of_mem_scopesOfUrl {value : Text} :
    ∀ scope ∈ scopesOfUrl value, ¬ scope.Widens := by
  intro scope h
  unfold scopesOfUrl at h
  split at h
  · exact absurd h List.not_mem_nil
  · next hlit =>
    obtain ⟨-, scheme, hs, rest, rfl⟩ := parts_of_isLiteral (by simpa using hlit)
    split at h
    · rw [List.mem_singleton.1 h]
      exact not_widens_byInclude_of_scheme hs rest
    · rw [List.mem_singleton.1 h]
      exact not_widens_byMatch_of_scheme hs rest

theorem not_widens_of_mem_scopesOfUrlPrefix {value : Text} :
    ∀ scope ∈ scopesOfUrlPrefix value, ¬ scope.Widens := by
  intro scope h
  unfold scopesOfUrlPrefix at h
  split at h
  · exact absurd h List.not_mem_nil
  · next hlit =>
    obtain ⟨-, scheme, hs, rest, rfl⟩ := parts_of_isLiteral (by simpa using hlit)
    simp only [List.append_assoc _ rest] at h
    split at h
    · rw [List.mem_singleton.1 h]
      exact not_widens_byInclude_of_scheme hs _
    · rw [List.mem_singleton.1 h]
      exact not_widens_byInclude_of_scheme hs _
    · rw [List.mem_singleton.1 h]
      exact not_widens_byMatch_of_scheme hs _
    · rw [List.mem_singleton.1 h]
      exact not_widens_byInclude_of_scheme hs _

theorem not_widens_of_mem_scopesOfDomain {value : Text} :
    ∀ scope ∈ scopesOfDomain value, ¬ scope.Widens := by
  intro scope h
  rw [scopesOfDomain_eq_ite] at h
  split at h
  · exact absurd h List.not_mem_nil
  · rw [List.mem_singleton.1 h]
    exact below_ne_catchAll (domainName value)

/-- The regular expressions for all addresses of a scheme have other globs. -/
theorem not_isEverywhere_of_scheme {value : Text}
    (h : value = "http:.*".toList ∨ value = "http:.+".toList ∨
      value = "https:.*".toList ∨ value = "https:.+".toList) :
    ¬ IsEverywhere ⟨.regexp, value⟩ := by
  rintro ⟨-, -, hw⟩
  rcases h with rfl | rfl | rfl | rfl <;> exact absurd hw (by decide)

theorem exists_widens_scopesOfRegexp_iff {value : Text} :
    (∃ scope ∈ scopesOfRegexp value, scope.Widens) ↔ IsEverywhere ⟨.regexp, value⟩ := by
  unfold scopesOfRegexp
  split
  · next hext => simp [IsEverywhere, hext]
  · next hext =>
    rw [Bool.not_eq_true] at hext
    split
    · next hany =>
      refine iff_of_true ⟨_, List.mem_cons_self, rfl⟩ ⟨rfl, hext, ?_⟩
      exact or_assoc.1 (Or.inl hany)
    · next hany =>
      split
      · next hhttp =>
        refine iff_of_false ?_ (not_isEverywhere_of_scheme (or_assoc.1 (Or.inl hhttp)))
        rintro ⟨scope, hscope, hw⟩
        rw [List.mem_singleton.1 hscope] at hw
        exact absurd (show "http://*/*".toList = catchAll from hw) (by decide)
      · split
        · next hhttps =>
          refine iff_of_false ?_ (not_isEverywhere_of_scheme (Or.inr (Or.inr hhttps)))
          rintro ⟨scope, hscope, hw⟩
          rw [List.mem_singleton.1 hscope] at hw
          exact absurd (show "https://*/*".toList = catchAll from hw) (by decide)
        · have hglobs : IsEverywhere ⟨.regexp, value⟩ ↔
              catchAll ∈ Regexp.globs value ∨ anyAddress ∈ Regexp.globs value := by
            rw [not_or] at hany
            simp only [IsEverywhere, hext, hany.1, hany.2, true_and, false_or]
          rw [hglobs]
          constructor
          · intro ⟨scope, hscope, hw⟩
            obtain ⟨glob, hglob, rfl⟩ := List.mem_map.1 hscope
            rcases hw with rfl | rfl
            · exact Or.inl hglob
            · exact Or.inr hglob
          · intro h
            rcases h with h | h
            · exact ⟨_, List.mem_map_of_mem h, Or.inl rfl⟩
            · exact ⟨_, List.mem_map_of_mem h, Or.inr rfl⟩

/-- Of all calls only a regular expression gives the pattern for every web address. -/
theorem exists_widens_scopes_iff (call : Call) :
    (∃ scope ∈ call.scopes, scope.Widens) ↔ call.IsEverywhere := by
  obtain ⟨f, value⟩ := call
  cases f with
  | url =>
    refine iff_of_false ?_ fun h => ScopingFunction.noConfusion h.1
    exact fun ⟨scope, hscope, hw⟩ => not_widens_of_mem_scopesOfUrl scope hscope hw
  | urlPrefix =>
    refine iff_of_false ?_ fun h => ScopingFunction.noConfusion h.1
    exact fun ⟨scope, hscope, hw⟩ => not_widens_of_mem_scopesOfUrlPrefix scope hscope hw
  | domain =>
    refine iff_of_false ?_ fun h => ScopingFunction.noConfusion h.1
    exact fun ⟨scope, hscope, hw⟩ => not_widens_of_mem_scopesOfDomain scope hscope hw
  | regexp => exact exists_widens_scopesOfRegexp_iff

end Call

/-- A rule applies everywhere exactly when one of its calls does. -/
theorem Rule.catchAll_mem_patterns_iff {calls : List Call} :
    Pattern.catchAll ∈ (Rule.patterns calls).matchPatterns ↔
      ∃ call ∈ calls, call.IsEverywhere := by
  simp only [Rule.catchAll_mem_patterns_iff_widens, Call.exists_widens_scopes_iff]

end StyleScope
