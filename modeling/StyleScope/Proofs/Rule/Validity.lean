import StyleScope.Proofs.Rule.Coverage

/-!
# When the patterns of a rule are match patterns

Globs become match patterns only where `Pattern.isMatch` accepts them.  What the other
calls contribute is put together without asking it, and `Rule.forall_isMatch_patterns_iff`
says for which calls that goes well: the value names a host, without a colon, and it is
one line behind the host.  An address needs a slash behind the host besides.
-/

namespace StyleScope

open Text

namespace Address

/-- A host that match patterns can have stands in front of the first slash, and no line
breaks stand behind it. -/
def NamesHost (s : Text) : Prop :=
  s.takeWhile (· != '/') ≠ [] ∧ ':' ∉ s.takeWhile (· != '/') ∧ '\n' ∉ s.dropWhile (· != '/')

end Address

namespace Pattern

open Address

theorem isHostAndPath_iff_takeWhile {s : Text} :
    isHostAndPath s = true ↔
      '/' ∈ s ∧ isHost (s.takeWhile (· != '/')) = true ∧ '\n' ∉ s.dropWhile (· != '/') := by
  by_cases hslash : '/' ∈ s
  · obtain ⟨host, path, rfl, hno⟩ := exists_first_of_mem hslash
    rw [isHostAndPath_append hno, takeWhile_ne_append_cons hno, dropWhile_ne_append_cons hno]
    simp
  · rw [isHostAndPath, dropWhile_ne_of_not_mem hslash]
    simp [hslash]

theorem isHostName_takeWhile_iff {s : Text} (hstar : '*' ∉ s) :
    isHostName (s.takeWhile (· != '/')) = true ↔
      s.takeWhile (· != '/') ≠ [] ∧ ':' ∉ s.takeWhile (· != '/') := by
  have hno : '*' ∉ s.takeWhile (· != '/') := fun h => hstar ((List.takeWhile_prefix _).subset h)
  rw [isHostName_iff]
  simp [hno, not_mem_takeWhile_ne '/' s]

/-- An address without stars is a match pattern when it has a slash behind its host. -/
theorem isMatch_address_iff {scheme rest : Text} (h : scheme ∈ schemes) (hstar : '*' ∉ rest) :
    isMatch (scheme ++ "://".toList ++ rest) = true ↔ '/' ∈ rest ∧ NamesHost rest := by
  have hno : '*' ∉ rest.takeWhile (· != '/') :=
    fun hmem => hstar ((List.takeWhile_prefix _).subset hmem)
  rw [isMatch_append h, isHostAndPath_iff_takeWhile, isHost_of_not_mem_star hno,
    isHostName_takeWhile_iff hstar, NamesHost, and_assoc]

/-- A star behind the path of an address changes nothing. -/
theorem isMatch_address_star_iff {scheme rest : Text} (h : scheme ∈ schemes)
    (hstar : '*' ∉ rest) (hslash : '/' ∈ rest) :
    isMatch (scheme ++ "://".toList ++ rest ++ ['*']) = true ↔ NamesHost rest := by
  obtain ⟨host, path, rfl, hno⟩ := exists_first_of_mem hslash
  have hsplit : scheme ++ "://".toList ++ (host ++ '/' :: path) ++ ['*'] =
      scheme ++ "://".toList ++ (host ++ '/' :: (path ++ ['*'])) := by simp
  have hsame : isMatch (scheme ++ "://".toList ++ (host ++ '/' :: (path ++ ['*']))) =
      isMatch (scheme ++ "://".toList ++ (host ++ '/' :: path)) := by
    rw [isMatch_append h, isMatch_append h, isHostAndPath_append hno, isHostAndPath_append hno]
    simp
  rw [hsplit, hsame, isMatch_address_iff h hstar]
  exact and_iff_right (List.mem_append_right host List.mem_cons_self)

/-- A name behind `*.` and in front of any path. -/
theorem isMatch_domain_iff {name : Text} (hstar : '*' ∉ name) :
    isMatch ("*://*.".toList ++ name ++ "/*".toList) = true ↔ NamesHost name := by
  have hsplit : "*://*.".toList ++ name ++ "/*".toList =
      ['*'] ++ "://".toList ++ ('*' :: '.' :: (name ++ "/*".toList)) := by simp
  rw [hsplit, isMatch_append (by decide), isHostAndPath_iff_takeWhile,
    List.takeWhile_cons_of_pos (by decide), List.takeWhile_cons_of_pos (by decide),
    List.dropWhile_cons_of_pos (by decide), List.dropWhile_cons_of_pos (by decide), isHost_below]
  by_cases hslash : '/' ∈ name
  · obtain ⟨host, path, rfl, hno⟩ := exists_first_of_mem hslash
    have htake : (host ++ '/' :: path ++ "/*".toList).takeWhile (· != '/') =
        (host ++ '/' :: path).takeWhile (· != '/') := by
      rw [List.append_assoc, List.cons_append, takeWhile_ne_append_cons hno,
        takeWhile_ne_append_cons hno]
    have hdrop : (host ++ '/' :: path ++ "/*".toList).dropWhile (· != '/') =
        '/' :: path ++ "/*".toList := by
      rw [List.append_assoc, List.cons_append, dropWhile_ne_append_cons hno]
    rw [htake, hdrop, isHostName_takeWhile_iff hstar, NamesHost, dropWhile_ne_append_cons hno]
    simp [and_assoc]
  · have htake : (name ++ "/*".toList).takeWhile (· != '/') = name.takeWhile (· != '/') := by
      rw [takeWhile_ne_of_not_mem hslash]
      exact takeWhile_ne_append_cons hslash ['*']
    have hdrop : (name ++ "/*".toList).dropWhile (· != '/') = "/*".toList :=
      dropWhile_ne_append_cons hslash ['*']
    rw [htake, hdrop, isHostName_takeWhile_iff hstar, NamesHost, dropWhile_ne_of_not_mem hslash]
    simp

end Pattern

namespace Call

open Address WebAddress Pattern

/-- The name in a call of `domain`, for which `www` does not count. -/
def domainName (value : Text) : Text := (after? "www.".toList value).getD value

theorem scopesOfDomain_eq_ite (value : Text) :
    scopesOfDomain value = if (domainName value).contains '*' then []
      else [.byMatch ("*://*.".toList ++ domainName value ++ "/*".toList)] := rfl

/-- A call whose value makes a match pattern, if it makes anything but globs. -/
def FitsMatch (call : Call) : Prop :=
  match call.function with
  | .url => isLiteral call.value = true → hasPort call.value = false →
      ∃ scheme ∈ webSchemes, ∃ rest, call.value = scheme ++ "://".toList ++ rest ∧
        '/' ∈ rest ∧ NamesHost rest
  | .urlPrefix => isLiteral call.value = true → hasPort call.value = false →
      hasPath call.value = true →
      ∃ scheme ∈ webSchemes, ∃ rest, call.value = scheme ++ "://".toList ++ rest ∧ NamesHost rest
  | .domain => '*' ∉ domainName call.value → NamesHost (domainName call.value)
  | .regexp => True

theorem parts_of_isLiteral {value : Text} (h : isLiteral value = true) :
    '*' ∉ value ∧ ∃ scheme ∈ webSchemes, ∃ rest, value = scheme ++ "://".toList ++ rest := by
  rw [isLiteral, Bool.and_eq_true, Option.any_eq_true] at h
  obtain ⟨⟨rest, hrest, -⟩, hstar⟩ := h
  refine ⟨by simpa using hstar, ?_⟩
  rw [Address.afterScheme?, Option.or_eq_some_iff, after?_eq_some, after?_eq_some] at hrest
  rcases hrest with rfl | ⟨-, rfl⟩
  · exact ⟨"http".toList, by decide, rest, rfl⟩
  · exact ⟨"https".toList, by decide, rest, rfl⟩

/-- The scheme and the rest of an address are told apart in one way only. -/
theorem exists_parts_iff {scheme rest : Text} (h : scheme ∈ webSchemes) {P : Text → Prop} :
    (∃ scheme' ∈ webSchemes, ∃ rest', scheme ++ "://".toList ++ rest =
      scheme' ++ "://".toList ++ rest' ∧ P rest') ↔ P rest := by
  constructor
  · rintro ⟨scheme', h', rest', heq, hP⟩
    obtain ⟨-, rfl⟩ := scheme_append_inj (colon_not_mem_of_mem_webSchemes h)
      (colon_not_mem_of_mem_webSchemes h') heq
    exact hP
  · exact fun hP => ⟨scheme, h, rest, rfl, hP⟩

theorem isMatch_scopesOfUrl_iff (value : Text) :
    (∀ p, Scope.byMatch p ∈ scopesOfUrl value → isMatch p = true) ↔
      FitsMatch ⟨.url, value⟩ := by
  cases hlit : isLiteral value with
  | false => simp [scopesOfUrl, FitsMatch, hlit]
  | true =>
    cases hport : hasPort value with
    | true => simp [scopesOfUrl, FitsMatch, hlit, hport]
    | false =>
      obtain ⟨hstar, scheme, hs, rest, rfl⟩ := parts_of_isLiteral hlit
      have hno : '*' ∉ rest := fun hmem => hstar (List.mem_append_right _ hmem)
      simp only [scopesOfUrl, FitsMatch, hlit, hport, Bool.not_true, Bool.false_eq_true, if_false,
        List.mem_singleton, Scope.byMatch.injEq, forall_eq, forall_const, exists_parts_iff hs]
      exact isMatch_address_iff (mem_schemes_of_mem_webSchemes hs) hno

theorem isMatch_scopesOfUrlPrefix_iff (value : Text) :
    (∀ p, Scope.byMatch p ∈ scopesOfUrlPrefix value → isMatch p = true) ↔
      FitsMatch ⟨.urlPrefix, value⟩ := by
  cases hlit : isLiteral value with
  | false => simp [scopesOfUrlPrefix, FitsMatch, hlit]
  | true =>
    cases hport : hasPort value with
    | true =>
      cases hpath : hasPath value <;> simp [scopesOfUrlPrefix, FitsMatch, hlit, hport, hpath]
    | false =>
      cases hpath : hasPath value with
      | false => simp [scopesOfUrlPrefix, FitsMatch, hlit, hport, hpath]
      | true =>
        obtain ⟨hstar, scheme, hs, rest, rfl⟩ := parts_of_isLiteral hlit
        have hno : '*' ∉ rest := fun hmem => hstar (List.mem_append_right _ hmem)
        simp only [scopesOfUrlPrefix, FitsMatch, hlit, hport, hpath, Bool.not_true,
          Bool.false_eq_true, if_false, List.mem_singleton, Scope.byMatch.injEq, forall_eq,
          forall_const, exists_parts_iff hs]
        exact isMatch_address_star_iff (mem_schemes_of_mem_webSchemes hs) hno
          (slash_mem_of_hasPath hs hpath)

theorem isMatch_scopesOfDomain_iff (value : Text) :
    (∀ p, Scope.byMatch p ∈ scopesOfDomain value → isMatch p = true) ↔
      FitsMatch ⟨.domain, value⟩ := by
  by_cases hstar : '*' ∈ domainName value
  · simp [scopesOfDomain_eq_ite, FitsMatch, hstar]
  · simp only [scopesOfDomain_eq_ite, FitsMatch, List.contains_iff_mem, hstar, if_false,
      List.mem_singleton, Scope.byMatch.injEq, forall_eq, not_false_eq_true, forall_const]
    exact isMatch_domain_iff hstar

/-- The match patterns of regular expressions are fixed. -/
theorem isMatch_of_mem_scopesOfRegexp {value p : Text}
    (h : Scope.byMatch p ∈ scopesOfRegexp value) : isMatch p = true := by
  have hfixed : ∀ q ∈ [Pattern.catchAll, "http://*/*".toList, "https://*/*".toList],
      isMatch q = true := by decide
  refine hfixed p ?_
  unfold scopesOfRegexp at h
  split at h
  · exact absurd h List.not_mem_nil
  · split at h
    · simp_all
    · split at h
      · simp_all
      · split at h
        · simp_all
        · simp at h

theorem isMatch_scopes_iff (call : Call) :
    (∀ p, Scope.byMatch p ∈ call.scopes → isMatch p = true) ↔ call.FitsMatch := by
  obtain ⟨f, value⟩ := call
  cases f with
  | url => exact isMatch_scopesOfUrl_iff value
  | urlPrefix => exact isMatch_scopesOfUrlPrefix_iff value
  | domain => exact isMatch_scopesOfDomain_iff value
  | regexp => exact iff_of_true (fun _ => isMatch_of_mem_scopesOfRegexp) trivial

end Call

/-- The match patterns of a rule are accepted as such exactly when each of its calls makes
one that is, or when the pattern for every web address displaces them. -/
theorem Rule.forall_isMatch_patterns_iff (list : Text) :
    (∀ p ∈ (Rule.patterns (Rule.parse list)).matchPatterns, Pattern.isMatch p = true) ↔
      Pattern.catchAll ∈ (Rule.patterns (Rule.parse list)).matchPatterns ∨
        ∀ call ∈ Rule.parse list, call.FitsMatch := by
  generalize Rule.parse list = calls
  by_cases hall : Pattern.catchAll ∈ (Rule.contributed calls).matchPatterns
  · rw [Rule.patterns_of_catchAll_mem hall]
    refine iff_of_true (fun p hp => ?_) (Or.inl (List.mem_singleton.2 rfl))
    rw [List.mem_singleton.1 hp]
    exact Pattern.isMatch_catchAll
  · rw [Rule.patterns_of_catchAll_not_mem hall]
    refine Iff.trans ?_ (or_iff_right hall).symm
    constructor
    · intro h call hcall
      refine (Call.isMatch_scopes_iff call).1 fun p hp => h p ?_
      exact Rule.mem_matchPatterns_contributed.2 (Or.inl ⟨call, hcall, hp⟩)
    · intro h p hp
      rcases Rule.mem_matchPatterns_contributed.1 hp with ⟨call, hcall, hscope⟩ |
        ⟨call, hcall, glob, hscope, hglob⟩
      · exact (Call.isMatch_scopes_iff call).2 (h call hcall) p hscope
      · exact Pattern.isMatch_of_ofInclude? hglob

/-- An address without a path becomes a match pattern that none accepts. -/
theorem Rule.isMatch_patterns_false_without_path :
    "https://example.com".toList ∈
      (Rule.patterns (Rule.parse "url(\"https://example.com\")".toList)).matchPatterns ∧
    Pattern.isMatch "https://example.com".toList = false := by
  decide

end StyleScope
