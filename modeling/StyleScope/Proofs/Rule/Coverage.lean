import StyleScope.Proofs.Pattern.Addresses
import StyleScope.Proofs.Rule.Contributions
import StyleScope.Proofs.Text.Substitution

/-!
# Rules keep what they cover

`Rule.covers_patterns_iff`: for calls other than `regexp`, with the values that such
calls are meant to have, the patterns of a rule cover exactly the addresses that
the rule covers.

Such calls never contribute the pattern for every address, and none of their globs
can be promoted, so the set of patterns is just what the calls contribute
(`Rule.patterns_covers`).  What is left is a statement about one call.  There the
host of the value is what stands before its first slash, and a value whose host has
a port, a star or no character at all covers nothing on either side.
-/

namespace StyleScope

open Text

/-! ## Globs that stay globs -/

namespace Pattern

open WebAddress

/-- A glob over addresses with a host that no pattern has stays a glob. -/
theorem ofInclude?_eq_none {scheme s : Text} (h : scheme ∈ webSchemes)
    (hs : isHost (s.takeWhile (· != '/')) = false) :
    ofInclude? (scheme ++ "://".toList ++ s) = none := by
  have hscheme : withAnyScheme (scheme ++ "://".toList ++ s) = scheme ++ "://".toList ++ s := by
    simp only [webSchemes, List.mem_cons, List.not_mem_nil, or_false] at h
    rcases h with rfl | rfl <;> rfl
  have hslash : (s ++ ['/']).takeWhile (· != '/') = s.takeWhile (· != '/') := by
    by_cases hmem : '/' ∈ s
    · obtain ⟨b, c, rfl, hb⟩ := exists_first_of_mem hmem
      rw [List.append_assoc, List.cons_append, takeWhile_ne_append_cons hb,
        takeWhile_ne_append_cons hb]
    · rw [takeWhile_ne_append_cons hmem, takeWhile_ne_of_not_mem hmem]
  have hno : ∀ t, t.takeWhile (· != '/') = s.takeWhile (· != '/') →
      isMatch (scheme ++ "://".toList ++ t) = false := by
    intro t ht
    rw [isMatch_append (mem_schemes_of_mem_webSchemes h), Bool.eq_false_iff]
    intro hm
    have hhost := isHost_of_isHostAndPath hm
    rw [ht, hs] at hhost
    exact Bool.noConfusion hhost
  have hpath : isMatch (withPath (scheme ++ "://".toList ++ s)) = false := by
    unfold withPath
    split
    · exact hno s rfl
    · rw [List.append_assoc]
      exact hno (s ++ ['/']) hslash
  rw [ofInclude?, hscheme, if_neg (by rw [hpath]; decide)]

end Pattern

/-! ## Ports and paths -/

namespace Address

open WebAddress

theorem afterScheme?_append {scheme : Text} (h : scheme ∈ webSchemes) (rest : Text) :
    afterScheme? (scheme ++ "://".toList ++ rest) = some rest := by
  simp only [webSchemes, List.mem_cons, List.not_mem_nil, or_false] at h
  rcases h with rfl | rfl <;> rfl

theorem colon_mem_of_hasPortDigit {s : Text} (h : hasPortDigit s = true) : ':' ∈ s := by
  cases s with
  | nil => exact absurd h Bool.false_ne_true
  | cons c s =>
    rw [hasPortDigit, Option.isSome_iff_exists] at h
    obtain ⟨⟨before, u⟩, hu⟩ := h
    obtain ⟨rest, rfl, hr⟩ := find?_some hu
    split at hr
    · next d t =>
      exact List.mem_cons_of_mem c (List.mem_append_right before List.mem_cons_self)
    · exact absurd hr (by simp)

/-- A port puts a colon before the first slash. -/
theorem colon_mem_of_hasPort {scheme rest : Text} (h : scheme ∈ webSchemes)
    (hp : hasPort (scheme ++ "://".toList ++ rest) = true) :
    ':' ∈ rest.takeWhile (· != '/') := by
  rw [hasPort, afterScheme?_append h, Option.any_some] at hp
  exact colon_mem_of_hasPortDigit hp

/-- The slashes of the scheme are one run, so another one has to follow them. -/
theorem hasPath_append_iff {scheme : Text} (h : '/' ∉ scheme) (rest : Text) :
    hasPath (scheme ++ "://".toList ++ rest) = true ↔ '/' ∈ rest.dropWhile (· == '/') := by
  have hslash : '/' ∉ scheme ++ [':'] := by
    rw [List.mem_append, not_or]
    exact ⟨h, by decide⟩
  have hsplit : scheme ++ "://".toList ++ rest = (scheme ++ [':']) ++ '/' :: ('/' :: rest) := by
    simp
  rw [hasPath, hsplit, splitAll_afterRun?_append hslash, List.dropWhile_cons_of_pos (by decide),
    List.length_cons, decide_eq_true_eq, gt_iff_lt, Nat.succ_lt_succ_iff,
    one_lt_length_splitAll_afterRun?]

theorem hasPath_append {scheme : Text} (h : scheme ∈ webSchemes) (rest : Text) :
    hasPath (scheme ++ "://".toList ++ rest) = true ↔ '/' ∈ rest.dropWhile (· == '/') := by
  refine hasPath_append_iff ?_ rest
  revert scheme
  decide

end Address

/-! ## What calls contribute -/

def Scope.Covers : Scope → WebAddress → Prop
  | .byMatch p, a => Pattern.MatchCovers p a
  | .byInclude p, a => Pattern.IncludeCovers p a

/-- A pattern that is neither promoted nor makes the others superfluous. -/
def Scope.IsSettled : Scope → Prop
  | .byMatch p => p ≠ Pattern.catchAll
  | .byInclude p => Pattern.ofInclude? p = none

/-- Settled patterns are the patterns of the rule. -/
theorem Rule.patterns_covers {calls : List Call} {a : WebAddress}
    (h : ∀ scope ∈ calls.flatMap Call.scopes, scope.IsSettled) :
    (Rule.patterns calls).Covers a ↔ ∃ scope ∈ calls.flatMap Call.scopes, scope.Covers a := by
  have hsettled : ∀ call ∈ calls, ∀ scope ∈ call.scopes, scope.IsSettled :=
    fun call hcall scope hscope => h scope (List.mem_flatMap.2 ⟨call, hcall, hscope⟩)
  have hnone : ∀ {call glob}, call ∈ calls → Scope.byInclude glob ∈ call.scopes →
      Pattern.ofInclude? glob = none :=
    fun hcall hscope => hsettled _ hcall _ hscope
  have hmatch : ∀ p, p ∈ (Rule.contributed calls).matchPatterns ↔
      ∃ call ∈ calls, Scope.byMatch p ∈ call.scopes := by
    intro p
    rw [Rule.mem_matchPatterns_contributed]
    refine or_iff_left ?_
    rintro ⟨call, hcall, glob, hscope, hp⟩
    rw [hnone hcall hscope] at hp
    exact absurd hp (by simp)
  have hinclude : ∀ p, p ∈ (Rule.contributed calls).includePatterns ↔
      ∃ call ∈ calls, Scope.byInclude p ∈ call.scopes := by
    intro p
    rw [Rule.mem_includePatterns_contributed]
    exact and_iff_left_of_imp fun ⟨call, hcall, hscope⟩ => hnone hcall hscope
  have hcollapse : Pattern.catchAll ∉ (Rule.contributed calls).matchPatterns := by
    rw [hmatch]
    rintro ⟨call, hcall, hscope⟩
    exact hsettled call hcall _ hscope rfl
  rw [Rule.patterns_of_catchAll_not_mem hcollapse]
  constructor
  · rintro (⟨p, hp, hc⟩ | ⟨p, hp, hc⟩)
    · obtain ⟨call, hcall, hscope⟩ := (hmatch p).1 hp
      exact ⟨.byMatch p, List.mem_flatMap.2 ⟨call, hcall, hscope⟩, hc⟩
    · obtain ⟨call, hcall, hscope⟩ := (hinclude p).1 hp
      exact ⟨.byInclude p, List.mem_flatMap.2 ⟨call, hcall, hscope⟩, hc⟩
  · rintro ⟨scope, hscope, hc⟩
    obtain ⟨call, hcall, hscope⟩ := List.mem_flatMap.1 hscope
    cases scope with
    | byMatch p => exact Or.inl ⟨p, (hmatch p).2 ⟨call, hcall, hscope⟩, hc⟩
    | byInclude p => exact Or.inr ⟨p, (hinclude p).2 ⟨call, hcall, hscope⟩, hc⟩

/-- A web address, as far as its start goes: a scheme and something behind it. -/
def Address.IsAbsolute (s : Text) : Prop :=
  ∃ scheme ∈ WebAddress.webSchemes, ∃ rest, rest ≠ [] ∧ s = scheme ++ "://".toList ++ rest

namespace Call

open WebAddress Address Pattern

/-- The calls whose values are what their functions are for: addresses without
stars, and names of hosts, which go without `www`. -/
def IsLiteral (call : Call) : Prop :=
  match call.function with
  | .url | .urlPrefix => IsAbsolute call.value ∧ '*' ∉ call.value
  | .domain => call.value ≠ [] ∧ (∀ c ∈ call.value, isHostChar c = true) ∧
      ¬ "www.".toList <+: call.value
  | .regexp => False

variable {a : WebAddress} {scheme rest : Text}

theorem newline_mem_of_isLiteral_eq_false (h : scheme ∈ webSchemes) (hne : rest ≠ [])
    (hstar : '*' ∉ scheme ++ "://".toList ++ rest)
    (hlit : isLiteral (scheme ++ "://".toList ++ rest) = false) : '\n' ∈ rest := by
  obtain ⟨c, rest, rfl⟩ := List.exists_cons_of_ne_nil hne
  have hcontains : (scheme ++ "://".toList ++ c :: rest).contains '*' = false := by
    rw [Bool.eq_false_iff]
    exact fun hmem => hstar (List.contains_iff_mem.1 hmem)
  rw [isLiteral, hcontains, afterScheme?_append h] at hlit
  have hc : c = '\n' := by simpa using hlit
  exact hc ▸ List.mem_cons_self

/-- A value with a line break starts no address. -/
theorem not_prefix_of_newline_mem (ha : a.IsPlain) (h : '\n' ∈ rest) :
    ¬ scheme ++ "://".toList ++ rest <+: a.text := fun hp =>
  ha.newline_not_mem_text (hp.subset (List.mem_append_right _ h))

/-- Without stars a match pattern covers one address. -/
theorem matchCovers_iff_text_eq (ha : a.IsPlain) (h : scheme ∈ webSchemes) (hstar : '*' ∉ rest) :
    MatchCovers (scheme ++ "://".toList ++ rest) a ↔ a.text = scheme ++ "://".toList ++ rest := by
  have hscheme : scheme ≠ ['*'] := by
    rintro rfl
    exact absurd h (by decide)
  obtain ⟨p, hp⟩ := ha.path_eq_cons
  rw [text_eq_iff h]
  by_cases hslash : '/' ∈ rest
  · obtain ⟨host, path, rfl, hhost⟩ := exists_first_of_mem hslash
    rw [List.mem_append, not_or] at hstar
    rw [← List.append_assoc, matchCovers_iff (mem_schemes_of_mem_webSchemes h) hhost,
      hostCovers_iff_eq hstar.1, Glob.matches_iff_eq hstar.2]
    constructor
    · rintro ⟨_, hs, rfl, hpath⟩
      exact ⟨hs.resolve_left hscheme, by rw [hpath]⟩
    · rintro ⟨hs, heq⟩
      rw [hp] at heq
      obtain ⟨rfl, rfl⟩ := append_cons_inj hhost (ha.not_mem_host (by decide)) heq
      have hline := ha.path_line
      rw [hp, List.mem_cons, not_or] at hline
      exact ⟨⟨ha.isHost_host, hline.2⟩, Or.inr hs, rfl, hp⟩
  · constructor
    · intro hc
      have hm := hc.isMatch
      rw [isMatch_append (mem_schemes_of_mem_webSchemes h), isHostAndPath,
        dropWhile_ne_of_not_mem hslash] at hm
      exact absurd hm Bool.false_ne_true
    · rintro ⟨_, heq⟩
      rw [hp] at heq
      exact absurd (heq ▸ List.mem_append_right a.host List.mem_cons_self) hslash

/-- A value with a slash, and a star behind it, covers what starts with the value. -/
theorem matchCovers_append_star_iff (ha : a.IsPlain) (h : scheme ∈ webSchemes)
    (hstar : '*' ∉ rest) (hslash : '/' ∈ rest) :
    MatchCovers (scheme ++ "://".toList ++ rest ++ ['*']) a ↔
      scheme ++ "://".toList ++ rest <+: a.text := by
  have hscheme : scheme ≠ ['*'] := by
    rintro rfl
    exact absurd h (by decide)
  obtain ⟨host, path, rfl, hhost⟩ := exists_first_of_mem hslash
  rw [List.mem_append, not_or] at hstar
  have hsplit : scheme ++ "://".toList ++ (host ++ '/' :: path) ++ ['*'] =
      scheme ++ "://".toList ++ host ++ '/' :: (path ++ ['*']) := by simp
  rw [hsplit, matchCovers_iff (mem_schemes_of_mem_webSchemes h) hhost,
    hostCovers_iff_eq hstar.1, prefix_text_iff h, prefix_host_path_iff ha hhost,
    ← List.cons_append, Glob.matches_append_star_iff hstar.2]
  constructor
  · rintro ⟨_, hs, heq, hpath⟩
    exact ⟨hs.resolve_left hscheme, heq, hpath⟩
  · rintro ⟨hs, rfl, hpath⟩
    have hline : '\n' ∉ path := fun hmem =>
      ha.path_line (hpath.subset (List.mem_cons_of_mem '/' hmem))
    refine ⟨⟨ha.isHost_host, ?_⟩, Or.inr hs, rfl, hpath⟩
    rw [List.mem_append, not_or]
    exact ⟨hline, by decide⟩

/-! ### One address -/

theorem covers_scopesOfUrl (ha : a.IsPlain) (h : scheme ∈ webSchemes) (hne : rest ≠ [])
    (hstar : '*' ∉ scheme ++ "://".toList ++ rest) :
    (∃ scope ∈ scopesOfUrl (scheme ++ "://".toList ++ rest), scope.Covers a) ↔
      a.text = scheme ++ "://".toList ++ rest := by
  cases hlit : isLiteral (scheme ++ "://".toList ++ rest) with
  | false =>
    have hline := newline_mem_of_isLiteral_eq_false h hne hstar hlit
    simp only [scopesOfUrl, hlit, Bool.not_false, if_true, List.not_mem_nil, false_and,
      exists_false, false_iff]
    exact fun heq => not_prefix_of_newline_mem ha hline ⟨[], by rw [List.append_nil, heq]⟩
  | true =>
    cases hport : hasPort (scheme ++ "://".toList ++ rest) with
    | true =>
      simp only [scopesOfUrl, hlit, hport, Bool.not_true, Bool.false_eq_true, if_false, if_true,
        List.mem_singleton, exists_eq_left]
      exact Glob.matches_iff_eq hstar
    | false =>
      simp only [scopesOfUrl, hlit, hport, Bool.not_true, Bool.false_eq_true, if_false,
        List.mem_singleton, exists_eq_left]
      exact matchCovers_iff_text_eq ha h fun hm => hstar (List.mem_append_right _ hm)

/-- A host with a port is not the host of a pattern. -/
theorem isHost_eq_false_of_hasPort (h : scheme ∈ webSchemes) (t : Text)
    (hport : hasPort (scheme ++ "://".toList ++ rest) = true) :
    isHost ((rest ++ t).takeWhile (· != '/')) = false := by
  have hcolon : ':' ∈ (rest ++ t).takeWhile (· != '/') := by
    rw [List.takeWhile_append]
    split
    · exact List.mem_append_left _ ((List.takeWhile_prefix _).subset (colon_mem_of_hasPort h hport))
    · exact colon_mem_of_hasPort h hport
  rw [Bool.eq_false_iff]
  exact fun hh => not_mem_colon_of_isHost hh hcolon

theorem settled_scopesOfUrl (h : scheme ∈ webSchemes)
    (hstar : '*' ∉ scheme ++ "://".toList ++ rest) :
    ∀ scope ∈ scopesOfUrl (scheme ++ "://".toList ++ rest), scope.IsSettled := by
  intro scope hscope
  unfold scopesOfUrl at hscope
  split at hscope
  · exact absurd hscope List.not_mem_nil
  · split at hscope
    · next hport =>
      rw [List.mem_singleton.1 hscope]
      have hhost := isHost_eq_false_of_hasPort h [] hport
      rw [List.append_nil] at hhost
      exact ofInclude?_eq_none h hhost
    · rw [List.mem_singleton.1 hscope]
      intro heq
      exact hstar (heq ▸ List.mem_cons_self)

/-! ### The addresses that start with a text -/

theorem slash_mem_of_hasPath (h : scheme ∈ webSchemes)
    (hpath : hasPath (scheme ++ "://".toList ++ rest) = true) : '/' ∈ rest :=
  (List.dropWhile_suffix _).subset ((hasPath_append h rest).1 hpath)

/-- Without a path a value that has a slash starts with it. -/
theorem head_eq_slash_of_not_hasPath (h : scheme ∈ webSchemes)
    (hpath : hasPath (scheme ++ "://".toList ++ rest) = false) (hslash : '/' ∈ rest) :
    ∃ t, rest = '/' :: t := by
  cases rest with
  | nil => exact absurd hslash List.not_mem_nil
  | cons c rest =>
    by_cases hc : c = '/'
    · exact ⟨rest, by rw [hc]⟩
    · rw [Bool.eq_false_iff, ne_eq, hasPath_append h,
        List.dropWhile_cons_of_neg (by simpa using hc)]
        at hpath
      exact absurd hslash hpath

/-- No address starts with a scheme and a further slash. -/
theorem not_prefix_of_slash (ha : a.IsPlain) (h : scheme ∈ webSchemes) (t : Text) :
    ¬ scheme ++ "://".toList ++ '/' :: t <+: a.text := by
  rw [prefix_text_iff h]
  rintro ⟨_, hp⟩
  have hempty := ((prefix_host_path_iff ha List.not_mem_nil t).1 hp).1
  exact ha.host_ne_nil hempty.symm

/-- A value with a port starts no address. -/
theorem not_prefix_of_hasPort (ha : a.IsPlain) (h : scheme ∈ webSchemes)
    (hport : hasPort (scheme ++ "://".toList ++ rest) = true) :
    ¬ scheme ++ "://".toList ++ rest <+: a.text := by
  have hcolon := colon_mem_of_hasPort h hport
  have hno : ':' ∉ a.host := ha.not_mem_host (by decide)
  rw [prefix_text_iff h]
  rintro ⟨_, hp⟩
  by_cases hslash : '/' ∈ rest
  · obtain ⟨host, path, rfl, hhost⟩ := exists_first_of_mem hslash
    rw [takeWhile_ne_append_cons hhost, ((prefix_host_path_iff ha hhost path).1 hp).1] at hcolon
    exact hno hcolon
  · rw [takeWhile_ne_of_not_mem hslash] at hcolon
    exact hno ((prefix_host_of_no_slash ha hslash hp).subset hcolon)

/-- A host alone, as a glob: what follows it has a slash. -/
theorem includeCovers_host_iff (ha : a.IsPlain) (h : scheme ∈ webSchemes)
    (hstar : '*' ∉ scheme ++ "://".toList ++ rest)
    (hpath : hasPath (scheme ++ "://".toList ++ rest) = false) :
    IncludeCovers (scheme ++ "://".toList ++ rest ++ "*/*".toList) a ↔
      scheme ++ "://".toList ++ rest <+: a.text := by
  rw [IncludeCovers, Glob.matches_literal_append_iff hstar]
  constructor
  · rintro ⟨t, ht, _⟩
    exact ht ▸ List.prefix_append _ t
  · intro hp
    have hslash : '/' ∉ rest := by
      intro hmem
      obtain ⟨t, rfl⟩ := head_eq_slash_of_not_hasPath h hpath hmem
      exact not_prefix_of_slash ha h t hp
    obtain ⟨hs, hrest⟩ := (prefix_text_iff h rest).1 hp
    obtain ⟨u, hu⟩ := prefix_host_of_no_slash ha hslash hrest
    obtain ⟨p, hpp⟩ := ha.path_eq_cons
    refine ⟨u ++ a.path, ?_, ?_⟩
    · rw [List.append_assoc, text_eq_iff h]
      exact ⟨hs, by rw [← hu, List.append_assoc]⟩
    · rw [hpp]
      exact .star u (.literal (by decide) (Glob.matches_singleton_star p))

theorem covers_scopesOfUrlPrefix (ha : a.IsPlain) (h : scheme ∈ webSchemes) (hne : rest ≠ [])
    (hstar : '*' ∉ scheme ++ "://".toList ++ rest) :
    (∃ scope ∈ scopesOfUrlPrefix (scheme ++ "://".toList ++ rest), scope.Covers a) ↔
      scheme ++ "://".toList ++ rest <+: a.text := by
  cases hlit : isLiteral (scheme ++ "://".toList ++ rest) with
  | false =>
    have hline := newline_mem_of_isLiteral_eq_false h hne hstar hlit
    simp only [scopesOfUrlPrefix, hlit, Bool.not_false, if_true, List.not_mem_nil, false_and,
      exists_false, false_iff]
    exact not_prefix_of_newline_mem ha hline
  | true =>
    have hstar' : '*' ∉ rest := fun hm => hstar (List.mem_append_right _ hm)
    cases hport : hasPort (scheme ++ "://".toList ++ rest) <;>
      cases hpath : hasPath (scheme ++ "://".toList ++ rest) <;>
      simp only [scopesOfUrlPrefix, hlit, hport, hpath, Bool.not_true, Bool.false_eq_true,
        if_false, List.mem_singleton, exists_eq_left]
    · exact includeCovers_host_iff ha h hstar hpath
    · exact matchCovers_append_star_iff ha h hstar' (slash_mem_of_hasPath h hpath)
    · -- The slash that the glob adds does not matter: no address has a port.
      have hno := not_prefix_of_hasPort ha h hport
      refine iff_of_false (fun hc => hno ?_) hno
      obtain ⟨t, ht, _⟩ := (Glob.matches_literal_append_iff hstar).1 hc
      exact ht ▸ List.prefix_append _ t
    · exact Glob.matches_append_star_iff hstar

theorem settled_scopesOfUrlPrefix (h : scheme ∈ webSchemes) (hne : rest ≠ [])
    (hstar : '*' ∉ scheme ++ "://".toList ++ rest) :
    ∀ scope ∈ scopesOfUrlPrefix (scheme ++ "://".toList ++ rest), scope.IsSettled := by
  intro scope hscope
  have hstar' : '*' ∉ rest := fun hm => hstar (List.mem_append_right _ hm)
  unfold scopesOfUrlPrefix at hscope
  split at hscope
  · exact absurd hscope List.not_mem_nil
  · cases hport : hasPort (scheme ++ "://".toList ++ rest) <;>
      cases hpath : hasPath (scheme ++ "://".toList ++ rest) <;>
      simp only [hport, hpath, List.mem_singleton] at hscope <;> rw [hscope]
    · show ofInclude? _ = none
      rw [List.append_assoc]
      refine ofInclude?_eq_none h ?_
      by_cases hslash : '/' ∈ rest
      · obtain ⟨t, rfl⟩ := head_eq_slash_of_not_hasPath h hpath hslash
        rfl
      · have htake : (rest ++ "*/*".toList).takeWhile (· != '/') = rest ++ ['*'] := by
          have hno : '/' ∉ rest ++ ['*'] := by simp [hslash]
          rw [show rest ++ "*/*".toList = rest ++ ['*'] ++ '/' :: ['*'] by simp]
          exact takeWhile_ne_append_cons hno ['*']
        rw [htake]
        exact isHost_append_star hne hstar'
    · intro heq
      simp only [webSchemes, List.mem_cons, List.not_mem_nil, or_false] at h
      rcases h with rfl | rfl <;> exact absurd (List.cons.inj heq).1 (by decide)
    · show ofInclude? _ = none
      rw [List.append_assoc]
      exact ofInclude?_eq_none h (isHost_eq_false_of_hasPort h _ hport)
    · show ofInclude? _ = none
      rw [List.append_assoc]
      exact ofInclude?_eq_none h (isHost_eq_false_of_hasPort h _ hport)

/-! ### A host and its subdomains -/

theorem scopesOfDomain_eq {name : Text} (hstar : '*' ∉ name) (hwww : ¬ "www.".toList <+: name) :
    scopesOfDomain name =
      [.byMatch ("*".toList ++ "://".toList ++ ('*' :: '.' :: name) ++ ['/', '*'])] := by
  have hcontains : ¬ name.contains '*' = true := fun h => hstar (List.contains_iff_mem.1 h)
  rw [scopesOfDomain, after?_eq_none hwww, Option.getD_none, if_neg hcontains]
  rfl

theorem below_ne_catchAll (name : Text) : "*://*.".toList ++ name ++ "/*".toList ≠ catchAll := by
  intro heq
  -- The two texts differ behind the second star.
  have hsixth : some '.' = some '/' := congrArg (fun t : Text => t[5]?) heq
  exact absurd (Option.some.inj hsixth) (by decide)

theorem covers_scopesOfDomain (ha : a.IsPlain) {name : Text} (hne : name ≠ [])
    (hchars : ∀ c ∈ name, isHostChar c = true) (hwww : ¬ "www.".toList <+: name) :
    (∃ scope ∈ scopesOfDomain name, scope.Covers a) ↔ a.IsBelow name := by
  have hno : ∀ c, isHostChar c = false → c ∉ name := by
    intro c hc hmem
    rw [hchars c hmem] at hc
    exact Bool.noConfusion hc
  have hslash : '/' ∉ '*' :: '.' :: name := by simp [hno '/' (by decide)]
  have hname : isHostName name = true :=
    isHostName_iff.2 ⟨hne, hno '*' (by decide), hno ':' (by decide), hno '/' (by decide)⟩
  rw [scopesOfDomain_eq (hno '*' (by decide)) hwww]
  simp only [List.mem_singleton, exists_eq_left, Scope.Covers]
  rw [matchCovers_iff (by decide) hslash, isHost_below, hname, hostCovers_below_iff ha]
  obtain ⟨p, hp⟩ := ha.path_eq_cons
  constructor
  · exact fun hc => hc.2.2.1
  · intro hb
    refine ⟨⟨rfl, by decide⟩, Or.inl rfl, hb, ?_⟩
    rw [hp]
    exact .literal (by decide) (Glob.matches_singleton_star p)

theorem settled_scopesOfDomain {name : Text} (hstar : '*' ∉ name)
    (hwww : ¬ "www.".toList <+: name) : ∀ scope ∈ scopesOfDomain name, scope.IsSettled := by
  intro scope hscope
  rw [scopesOfDomain_eq hstar hwww, List.mem_singleton] at hscope
  rw [hscope]
  exact below_ne_catchAll name

/-! ### Any call -/

theorem covers_scopes_iff (ha : a.IsPlain) {call : Call} (h : call.IsLiteral) :
    (∃ scope ∈ call.scopes, scope.Covers a) ↔ call.Covers a := by
  obtain ⟨f, value⟩ := call
  cases f with
  | url =>
    obtain ⟨⟨scheme, hs, rest, hne, rfl⟩, hstar⟩ := h
    exact covers_scopesOfUrl ha hs hne hstar
  | urlPrefix =>
    obtain ⟨⟨scheme, hs, rest, hne, rfl⟩, hstar⟩ := h
    exact covers_scopesOfUrlPrefix ha hs hne hstar
  | domain => exact covers_scopesOfDomain ha h.1 h.2.1 h.2.2
  | regexp => exact absurd h id

theorem settled_scopes {call : Call} (h : call.IsLiteral) :
    ∀ scope ∈ call.scopes, scope.IsSettled := by
  obtain ⟨f, value⟩ := call
  cases f with
  | url =>
    obtain ⟨⟨scheme, hs, rest, _, rfl⟩, hstar⟩ := h
    exact settled_scopesOfUrl hs hstar
  | urlPrefix =>
    obtain ⟨⟨scheme, hs, rest, hne, rfl⟩, hstar⟩ := h
    exact settled_scopesOfUrlPrefix hs hne hstar
  | domain =>
    refine settled_scopesOfDomain (fun hmem => ?_) h.2.2
    exact absurd (h.2.1 '*' hmem) (by decide)
  | regexp => exact absurd h id

end Call

/-- The patterns of a rule cover the addresses that its calls cover. -/
theorem Rule.covers_patterns_iff {calls : List Call} (h : ∀ call ∈ calls, call.IsLiteral)
    {a : WebAddress} (ha : a.IsPlain) :
    (∃ call ∈ calls, call.Covers a) ↔ (Rule.patterns calls).Covers a := by
  have hsettled : ∀ scope ∈ calls.flatMap Call.scopes, scope.IsSettled := by
    intro scope hscope
    obtain ⟨call, hcall, hscope⟩ := List.mem_flatMap.1 hscope
    exact Call.settled_scopes (h call hcall) scope hscope
  rw [Rule.patterns_covers hsettled]
  constructor
  · rintro ⟨call, hcall, hc⟩
    obtain ⟨scope, hscope, hcov⟩ := (Call.covers_scopes_iff ha (h call hcall)).2 hc
    exact ⟨scope, List.mem_flatMap.2 ⟨call, hcall, hscope⟩, hcov⟩
  · rintro ⟨scope, hscope, hcov⟩
    obtain ⟨call, hcall, hscope⟩ := List.mem_flatMap.1 hscope
    exact ⟨call, hcall, (Call.covers_scopes_iff ha (h call hcall)).1 ⟨scope, hscope, hcov⟩⟩

/-- A host without a path, a value with a port and a domain, on an address below the
domain. -/
theorem Rule.covers_patterns_iff_subdomain :
    (∀ call ∈ [⟨.urlPrefix, "http://a.org".toList⟩, ⟨.url, "https://b.org:80/x".toList⟩,
      ⟨.domain, "c.org".toList⟩], Call.IsLiteral call) ∧
    WebAddress.IsPlain ⟨true, "www.c.org".toList, "/x*".toList⟩ ∧
    ((∃ call ∈ [⟨.urlPrefix, "http://a.org".toList⟩, ⟨.url, "https://b.org:80/x".toList⟩,
      ⟨.domain, "c.org".toList⟩], Call.Covers call ⟨true, "www.c.org".toList, "/x*".toList⟩) ↔
      (Rule.patterns [⟨.urlPrefix, "http://a.org".toList⟩, ⟨.url, "https://b.org:80/x".toList⟩,
        ⟨.domain, "c.org".toList⟩]).Covers ⟨true, "www.c.org".toList, "/x*".toList⟩) := by
  have hcalls : ∀ call ∈ [⟨.urlPrefix, "http://a.org".toList⟩,
      ⟨.url, "https://b.org:80/x".toList⟩, ⟨.domain, "c.org".toList⟩], Call.IsLiteral call := by
    intro call hcall
    simp only [List.mem_cons, List.not_mem_nil, or_false] at hcall
    rcases hcall with rfl | rfl | rfl
    · exact ⟨⟨"http".toList, by decide, "a.org".toList, by decide, rfl⟩, by decide⟩
    · exact ⟨⟨"https".toList, by decide, "b.org:80/x".toList, by decide, rfl⟩, by decide⟩
    · exact ⟨by decide, by decide, by decide⟩
  have ha : WebAddress.IsPlain ⟨true, "www.c.org".toList, "/x*".toList⟩ :=
    ⟨by decide, by decide, rfl, by decide⟩
  exact ⟨hcalls, ha, Rule.covers_patterns_iff hcalls ha⟩

end StyleScope
