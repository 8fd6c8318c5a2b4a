import StyleScope.Proofs.Rule.Coverage

/-!
# What a promoted glob keeps

A glob is compared with an address as a whole, a match pattern part by part.  So
promotion keeps the addresses that the glob covers part by part, and it may lose those
for which a star of the scheme or of the host has to reach into the path:
`Pattern.matchCovers_or_overruns`.

A glob that is promoted has at most one star in front of its path that can do so in
each of the two parts, at the end of the scheme and at the start of the host.  Both are
treated by looking at where the text behind the star starts: before the path of the
address, and then the parts agree, or inside the path.
-/

namespace StyleScope
namespace Pattern

open Text WebAddress

/-! ## The parts of a promoted glob -/

/-- The scheme that a match pattern has in place of the scheme of a glob. -/
def matchScheme (scheme : Text) : Text := if scheme = "http*".toList then ['*'] else scheme

theorem matchScheme_of_isScheme {scheme : Text} (h : IsScheme scheme) :
    matchScheme scheme = scheme := by
  refine if_neg fun heq => ?_
  rw [heq] at h
  exact absurd h (by decide)

/-- A slash behind the host makes a path. -/
theorem hasPath_of_host {scheme host : Text} (hs : '/' ∉ scheme) (hh : isHost host = true)
    (path : Text) : Address.hasPath (scheme ++ "://".toList ++ (host ++ '/' :: path)) = true := by
  have hslash : '/' ∉ host := not_mem_slash_of_isHost hh
  cases host with
  | nil => exact absurd hh (by decide)
  | cons c host =>
    rw [List.mem_cons, not_or] at hslash
    rw [Address.hasPath_append_iff hs, List.cons_append,
      List.dropWhile_cons_of_neg (by simpa using Ne.symm hslash.1)]
    exact List.mem_cons_of_mem c (List.mem_append_right host List.mem_cons_self)

/-- A text that is accepted once it has a path has a scheme and a host of its own, or
names local files. -/
theorem parts_of_isMatch_withPath {q : Text} (h : isMatch (withPath q) = true) :
    (∃ scheme host path, IsScheme scheme ∧ isHost host = true ∧ '\n' ∉ path ∧
      withPath q = scheme ++ "://".toList ++ (host ++ '/' :: path) ∧
      (q = scheme ++ "://".toList ++ (host ++ '/' :: path) ∨
        q = scheme ++ "://".toList ++ host)) ∨
    ∃ start rest, start.map foldCase = "file:///".toList ∧ q = start ++ rest := by
  by_cases hpath : Address.hasPath q = true
  · have hq : withPath q = q := if_pos hpath
    rw [hq] at h ⊢
    rcases isMatch_iff.1 h with rfl | ⟨scheme, host, path, hs, hh, hl, heq⟩ |
      ⟨start, path, hf, -, -, heq⟩
    · exact absurd hpath (by decide)
    · exact Or.inl ⟨scheme, host, path, hs, hh, hl, heq, Or.inl heq⟩
    · exact Or.inr ⟨start, path, hf, heq⟩
  · have hq : withPath q = q ++ ['/'] := if_neg hpath
    rw [hq] at h ⊢
    rcases isMatch_iff.1 h with heq | ⟨scheme, host, path, hs, hh, hl, heq⟩ |
      ⟨start, path, hf, hne, -, heq⟩
    · have hlast := congrArg List.getLast? heq
      rw [List.getLast?_concat] at hlast
      exact absurd hlast (by decide)
    · refine Or.inl ⟨scheme, host, path, hs, hh, hl, heq, Or.inr ?_⟩
      rcases List.eq_nil_or_concat path with rfl | ⟨path', last, rfl⟩
      · have hsplit : q ++ ['/'] = scheme ++ "://".toList ++ host ++ ['/'] := by
          rw [heq, List.append_assoc _ host]
        exact List.append_cancel_right hsplit
      · -- The added slash is not the one behind the host, so there was a path already.
        have hsplit : q ++ ['/'] =
            scheme ++ "://".toList ++ (host ++ '/' :: path') ++ [last] := by
          rw [heq]
          simp
        have hq' := (List.append_inj' hsplit rfl).1
        have hno : '/' ∉ scheme := not_mem_of_isScheme hs (by decide)
        exact absurd (hq' ▸ hasPath_of_host hno hh path') hpath
    · rcases List.eq_nil_or_concat path with rfl | ⟨path', last, rfl⟩
      · exact absurd rfl hne
      · have hsplit : q ++ ['/'] = start ++ path' ++ [last] := by
          rw [heq, List.concat_eq_append, List.append_assoc]
        exact Or.inr ⟨start, path', hf, (List.append_inj' hsplit rfl).1⟩

/-- A pattern that starts with `*:` has `*` as its scheme. -/
theorem eq_of_star_scheme {scheme rest r : Text} (hs : IsScheme scheme)
    (h : ['*'] ++ ':' :: rest = scheme ++ "://".toList ++ r) :
    scheme = ['*'] ∧ rest = "//".toList ++ r := by
  rw [scheme_append_eq] at h
  obtain ⟨hscheme, hrest⟩ :=
    append_cons_inj (by decide) (not_mem_of_isScheme hs (by decide)) h
  exact ⟨hscheme.symm, hrest⟩

/-- A glob that is promoted and its match pattern have the same host and path, but for a
path that is added, and the scheme `http*` becomes `*`. -/
theorem parts_of_ofInclude? {glob p : Text} (h : ofInclude? glob = some p) :
    (∃ scheme host path, (scheme = "http*".toList ∨ IsScheme scheme) ∧ isHost host = true ∧
      '\n' ∉ path ∧ p = matchScheme scheme ++ "://".toList ++ (host ++ '/' :: path) ∧
      (glob = scheme ++ "://".toList ++ (host ++ '/' :: path) ∨
        glob = scheme ++ "://".toList ++ host)) ∨
    ∃ start rest, start.map foldCase = "file:///".toList ∧ glob = start ++ rest := by
  have hmatch := isMatch_of_ofInclude? h
  obtain rfl : withPath (withAnyScheme glob) = p := by
    unfold ofInclude? at h
    split at h
    · exact Option.some.inj h
    · exact absurd h (by simp)
  cases hstart : after? "http*:".toList glob with
  | none =>
    have hglob : withAnyScheme glob = glob := by rw [withAnyScheme, hstart]
    rw [hglob] at hmatch ⊢
    rcases parts_of_isMatch_withPath hmatch with ⟨scheme, host, path, hs, hh, hl, hp, hq⟩ | hfile
    · refine Or.inl ⟨scheme, host, path, Or.inr hs, hh, hl, ?_, hq⟩
      rw [matchScheme_of_isScheme hs, hp]
    · exact Or.inr hfile
  | some rest =>
    obtain rfl := after?_eq_some.1 hstart
    have hglob : withAnyScheme ("http*:".toList ++ rest) = ['*'] ++ ':' :: rest := by
      rw [withAnyScheme, hstart]
      rfl
    rw [hglob] at hmatch ⊢
    rcases parts_of_isMatch_withPath hmatch with
      ⟨scheme, host, path, hs, hh, hl, hp, hq | hq⟩ | ⟨start, r, hf, hq⟩
    · obtain ⟨rfl, rfl⟩ := eq_of_star_scheme hs hq
      exact Or.inl ⟨"http*".toList, host, path, Or.inl rfl, hh, hl, hp, Or.inl rfl⟩
    · obtain ⟨rfl, rfl⟩ := eq_of_star_scheme hs hq
      exact Or.inl ⟨"http*".toList, host, path, Or.inl rfl, hh, hl, hp, Or.inr rfl⟩
    · cases start with
      | nil => exact absurd hf (by decide)
      | cons c start =>
        obtain rfl : '*' = c := (List.cons.inj hq).1
        exact absurd (List.cons.inj hf).1 (by decide)

/-! ## Part by part -/

/-- A glob covers an address part by part: its scheme and its path match those of the
address, and its host covers it. -/
def CoversByParts (glob : Text) (a : WebAddress) : Prop :=
  ∃ scheme host path, glob = scheme ++ "://".toList ++ (host ++ path) ∧ '/' ∉ host ∧
    path.head? = some '/' ∧ Glob.Matches scheme a.scheme ∧ HostCovers host a ∧
    Glob.Matches path a.path

/-- A star in the scheme or the host of a glob, which has no slashes before it but those
of `://`, can reach into the path: what follows it matches an end of the path. -/
def Overruns (glob : Text) (a : WebAddress) : Prop :=
  ∃ before after rest, glob = before ++ '*' :: after ∧ before.count '/' ≤ 2 ∧
    rest <:+ a.path ∧ Glob.Matches after rest

variable {a : WebAddress}

theorem text_eq_append (a : WebAddress) :
    a.text = a.scheme ++ "://".toList ++ (a.host ++ a.path) := by
  rw [WebAddress.text, List.append_assoc]

theorem matchScheme_of_matches {scheme : Text} (h : scheme = "http*".toList ∨ IsScheme scheme)
    (hm : Glob.Matches scheme a.scheme) :
    matchScheme scheme ∈ schemes ∧
      (matchScheme scheme = ['*'] ∨ matchScheme scheme = a.scheme) := by
  rcases h with rfl | h
  · exact ⟨by decide, Or.inl rfl⟩
  · rw [matchScheme_of_isScheme h]
    rcases eq_star_or_star_not_mem h with rfl | hstar
    · exact ⟨by decide, Or.inl rfl⟩
    · rw [← Glob.eq_of_matches hstar hm]
      exact ⟨mem_schemes_of_mem_webSchemes a.scheme_mem, Or.inr rfl⟩

/-- A host of a pattern is a name, or a star in front of one that may be empty. -/
theorem exists_name_of_isHost {host : Text} (h : isHost host = true) :
    ∃ name, '*' ∉ name ∧ '/' ∉ name ∧ (host = name ∨ host = '*' :: name) := by
  have hslash := not_mem_slash_of_isHost h
  unfold isHost at h
  split at h
  · exact ⟨[], List.not_mem_nil, List.not_mem_nil, Or.inr rfl⟩
  · next name =>
    have hname := isHostName_iff.1 h
    refine ⟨'.' :: name, ?_, fun hmem => hslash (List.mem_cons_of_mem '*' hmem), Or.inr rfl⟩
    rw [List.mem_cons, not_or]
    exact ⟨by decide, hname.2.1⟩
  · exact ⟨_, (isHostName_iff.1 h).2.1, hslash, Or.inl rfl⟩

theorem hostCovers_of_matches {host : Text} (h : isHost host = true)
    (hm : Glob.Matches host a.host) : HostCovers host a := by
  unfold isHost at h
  split at h
  · exact .any a
  · next name =>
    have hname := isHostName_iff.1 h
    have hstar : '*' ∉ '.' :: name := by
      rw [List.mem_cons, not_or]
      exact ⟨by decide, hname.2.1⟩
    obtain ⟨t, u, ht, hu⟩ := Glob.matches_star_iff.1 hm
    rw [Glob.eq_of_matches hstar hu] at ht
    exact .below (Or.inr ⟨t, ht.symm⟩)
  · rw [← Glob.eq_of_matches (isHostName_iff.1 h).2.1 hm]
    exact .exact a

/-- No web address matches a glob for local files. -/
theorem not_includeCovers_of_file {start rest : Text} (h : start.map foldCase = "file:///".toList) :
    ¬ IncludeCovers (start ++ rest) a := by
  intro hc
  cases start with
  | nil => exact absurd h (by decide)
  | cons c start =>
    have hfold : foldCase c = 'f' := (List.cons.inj h).1
    have hstar : c ≠ '*' := by
      rintro rfl
      exact absurd hfold (by decide)
    obtain ⟨t, ht, _⟩ := (Glob.matches_cons_iff hstar).1 hc
    have hhead : a.text.head? = some 'h' := by
      unfold WebAddress.text WebAddress.scheme
      cases a.secure <;> rfl
    rw [ht, List.head?_cons, Option.some.injEq] at hhead
    rw [hhead] at hfold
    exact absurd hfold (by decide)

/-- Promotion keeps the addresses that a glob covers part by part. -/
theorem matchCovers_of_coversByParts {glob p : Text} (h : ofInclude? glob = some p)
    (hinclude : IncludeCovers glob a) (hc : CoversByParts glob a) : MatchCovers p a := by
  obtain ⟨scheme', host', path', heq, hslash, hhead, hs, hh, hp⟩ := hc
  obtain ⟨path', rfl⟩ : ∃ t, path' = '/' :: t := by
    cases path' with
    | nil => exact absurd hhead (by simp)
    | cons c t => exact ⟨t, by rw [Option.some.inj hhead]⟩
  rcases parts_of_ofInclude? h with ⟨scheme, host, path, hscheme, hhost, hline, rfl, hglob⟩ |
    ⟨start, rest, hf, rfl⟩
  · have hcolon : ':' ∉ scheme := by
      rcases hscheme with rfl | hscheme
      · decide
      · exact not_mem_of_isScheme hscheme (by decide)
    have hcolon' : ':' ∉ scheme' := fun hmem =>
      colon_not_mem_of_mem_webSchemes a.scheme_mem (Glob.mem_of_matches hs hmem (by decide))
    have hno : '/' ∉ host := not_mem_slash_of_isHost hhost
    rcases hglob with hglob | hglob
    · obtain ⟨rfl, hrest⟩ := scheme_append_inj hcolon' hcolon (heq ▸ hglob)
      obtain ⟨rfl, rfl⟩ := append_cons_inj hslash hno hrest
      obtain ⟨hmem, hcover⟩ := matchScheme_of_matches hscheme hs
      rw [← List.append_assoc, matchCovers_iff hmem hno]
      exact ⟨⟨hhost, hline⟩, hcover, hh, hp⟩
    · obtain ⟨-, hrest⟩ := scheme_append_inj hcolon' hcolon (heq ▸ hglob)
      exact absurd (hrest ▸ List.mem_append_right host' List.mem_cons_self) hno
  · exact absurd hinclude (not_includeCovers_of_file hf)

/-! ## Where the stars end -/

/-- A name in front of a path, or at the end, stands for all that is in front of the
path of an address. -/
theorem matches_name_append (ha : a.IsPlain) {name tail x : Text} (hstar : '*' ∉ name)
    (hname : '/' ∉ name) (hx : '/' ∉ x) (htail : tail = [] ∨ tail.head? = some '/')
    (hm : Glob.Matches (name ++ tail) (x ++ a.path)) :
    tail ≠ [] ∧ x = name ∧ Glob.Matches tail a.path := by
  obtain ⟨p, hp⟩ := ha.path_eq_cons
  rw [hp] at hm ⊢
  obtain ⟨v, hv, htv⟩ := (Glob.matches_literal_append_iff hstar).1 hm
  cases tail with
  | nil =>
    rw [Glob.matches_nil_iff.1 htv, List.append_nil] at hv
    exact absurd (hv ▸ List.mem_append_right x List.mem_cons_self) hname
  | cons c tail =>
    obtain rfl : c = '/' := by simpa using htail
    obtain ⟨t, rfl, ht⟩ := (Glob.matches_cons_iff (by decide)).1 htv
    obtain ⟨rfl, rfl⟩ := append_cons_inj hx hname hv
    exact ⟨List.cons_ne_nil _ _, rfl, htv⟩

/-- The star of a host ends in front of the path or reaches into it. -/
theorem matches_host_append (ha : a.IsPlain) {host tail : Text} (hhost : isHost host = true)
    (htail : tail = [] ∨ tail.head? = some '/')
    (hm : Glob.Matches (host ++ tail) (a.host ++ a.path)) :
    (tail ≠ [] ∧ Glob.Matches host a.host ∧ Glob.Matches tail a.path) ∨
      ∃ after rest, host = '*' :: after ∧ rest <:+ a.path ∧ Glob.Matches (after ++ tail) rest := by
  obtain ⟨name, hstar, hname, rfl | rfl⟩ := exists_name_of_isHost hhost
  · obtain ⟨hne, heq, htm⟩ :=
      matches_name_append ha hstar hname (ha.not_mem_host (by decide)) htail hm
    rw [heq]
    exact Or.inl ⟨hne, Glob.matches_self hstar, htm⟩
  · obtain ⟨w, r, hwr, hr⟩ := Glob.matches_star_iff.1 hm
    rcases List.append_eq_append_iff.1 hwr with ⟨x, rfl, hpath⟩ | ⟨x, hhost', rfl⟩
    · exact Or.inr ⟨name, r, rfl, ⟨x, hpath.symm⟩, hr⟩
    · have hx : '/' ∉ x := fun hmem =>
        ha.not_mem_host (c := '/') (by decide) (hhost' ▸ List.mem_append_right w hmem)
      obtain ⟨hne, rfl, htm⟩ := matches_name_append ha hstar hname hx htail hr
      rw [hhost']
      exact Or.inl ⟨hne, .star w (Glob.matches_self hstar), htm⟩

/-- A scheme is a word, or a word with a star behind it. -/
theorem exists_word_of_scheme {scheme : Text}
    (h : scheme = "http*".toList ∨ IsScheme scheme) :
    ∃ word, '*' ∉ word ∧ ':' ∉ word ∧ (scheme = word ∨ scheme = word ++ ['*']) := by
  rcases h with rfl | h
  · exact ⟨"http".toList, by decide, by decide, Or.inr rfl⟩
  · rcases eq_star_or_star_not_mem h with rfl | hstar
    · exact ⟨[], List.not_mem_nil, List.not_mem_nil, Or.inr rfl⟩
    · exact ⟨scheme, hstar, not_mem_of_isScheme h (by decide), Or.inl rfl⟩

/-- The star of a scheme ends in front of `://` or reaches into the path. -/
theorem matches_scheme_append (ha : a.IsPlain) {scheme rest : Text}
    (hscheme : scheme = "http*".toList ∨ IsScheme scheme)
    (hm : Glob.Matches (scheme ++ "://".toList ++ rest) a.text) :
    (Glob.Matches scheme a.scheme ∧ Glob.Matches rest (a.host ++ a.path)) ∨
      ∃ before t, scheme = before ++ ['*'] ∧ t <:+ a.path ∧
        Glob.Matches ("://".toList ++ rest) t := by
  obtain ⟨word, hstar, hcolon, rfl | rfl⟩ := exists_word_of_scheme hscheme
  · have hlit : '*' ∉ scheme ++ "://".toList := by
      rw [List.mem_append, not_or]
      exact ⟨hstar, by decide⟩
    obtain ⟨t, ht, hrest⟩ := (Glob.matches_literal_append_iff hlit).1 hm
    rw [text_eq_append] at ht
    obtain ⟨hs, rfl⟩ :=
      scheme_append_inj (colon_not_mem_of_mem_webSchemes a.scheme_mem) hcolon ht
    rw [hs]
    exact Or.inl ⟨Glob.matches_self hstar, hrest⟩
  · rw [List.append_assoc, List.append_assoc] at hm
    obtain ⟨t, ht, hrest⟩ := (Glob.matches_literal_append_iff hstar).1 hm
    obtain ⟨w, r, rfl, hr⟩ := Glob.matches_star_iff.1 hrest
    have hsplit : word ++ w ++ r = a.scheme ++ "://".toList ++ a.host ++ a.path := by
      rw [List.append_assoc, ← ht, WebAddress.text]
    rcases List.append_eq_append_iff.1 hsplit with ⟨x, hx, rfl⟩ | ⟨x, -, hpath⟩
    · -- What is behind the star starts with a colon in front of the path, where there is one.
      obtain ⟨u, hu, hru⟩ := (Glob.matches_literal_append_iff (w := "://".toList) (by decide)).1 hr
      obtain ⟨p, hp⟩ := ha.path_eq_cons
      cases x with
      | nil =>
        rw [hp] at hu
        exact absurd (List.cons.inj hu).1 (by decide)
      | cons c x =>
        obtain rfl : c = ':' := (List.cons.inj hu).1
        have hfirst : ':' ∉ word ++ w := by
          rw [← List.count_eq_zero, List.count_append]
          have hcount := congrArg (List.count ':') hx
          have hs : a.scheme.count ':' = 0 :=
            List.count_eq_zero.2 (colon_not_mem_of_mem_webSchemes a.scheme_mem)
          have hh : a.host.count ':' = 0 :=
            List.count_eq_zero.2 (ha.not_mem_host (by decide))
          have hsep : "://".toList.count ':' = 1 := by decide
          simp only [List.count_append, List.count_cons_self, hs, hh, hsep] at hcount
          omega
        rw [scheme_append_eq] at hx
        obtain ⟨hs, rfl⟩ :=
          append_cons_inj (colon_not_mem_of_mem_webSchemes a.scheme_mem) hfirst hx
        have hu' : a.host ++ a.path = u := by
          have htail : "//".toList ++ a.host ++ a.path = "//".toList ++ u := (List.cons.inj hu).2
          rw [List.append_assoc] at htail
          exact List.append_cancel_left htail
        rw [hs, hu']
        exact Or.inl ⟨Glob.matches_append_star (Glob.matches_self hstar) w, hru⟩
    · exact Or.inr ⟨word, r, rfl, ⟨x, hpath.symm⟩, hr⟩

/-- An address that a promoted glob matches is covered by the match pattern, unless the
glob does not cover it part by part and a star reaches into the path. -/
theorem matchCovers_or_overruns (ha : a.IsPlain) {glob p : Text} (h : ofInclude? glob = some p)
    (hc : IncludeCovers glob a) :
    MatchCovers p a ∨ ¬ CoversByParts glob a ∧ Overruns glob a := by
  by_cases hparts : CoversByParts glob a
  · exact Or.inl (matchCovers_of_coversByParts h hc hparts)
  refine Or.inr ⟨hparts, ?_⟩
  rcases parts_of_ofInclude? h with ⟨scheme, host, path, hscheme, hhost, -, -, hglob⟩ |
    ⟨start, rest, hf, rfl⟩
  · have hslash : '/' ∉ scheme := by
      rcases hscheme with rfl | hscheme
      · decide
      · exact not_mem_of_isScheme hscheme (by decide)
    obtain ⟨tail, htail, rfl⟩ : ∃ tail, (tail = [] ∨ tail.head? = some '/') ∧
        glob = scheme ++ "://".toList ++ (host ++ tail) := by
      rcases hglob with hglob | hglob
      · exact ⟨'/' :: path, Or.inr rfl, hglob⟩
      · exact ⟨[], Or.inl rfl, by rw [hglob, List.append_nil]⟩
    rcases matches_scheme_append ha hscheme hc with ⟨hs, hrest⟩ | ⟨before, t, rfl, ht, hm⟩
    · rcases matches_host_append ha hhost htail hrest with ⟨hne, hh, hp⟩ | ⟨after, t, rfl, ht, hm⟩
      · exact absurd ⟨scheme, host, tail, rfl, not_mem_slash_of_isHost hhost,
          htail.resolve_left hne, hs, hostCovers_of_matches hhost hh, hp⟩ hparts
      · refine ⟨scheme ++ "://".toList, after ++ tail, t, rfl, ?_, ht, hm⟩
        rw [List.count_append, List.count_eq_zero.2 hslash]
        decide
    · refine ⟨before, "://".toList ++ (host ++ tail), t, ?_, ?_, ht, hm⟩
      · simp
      · rw [List.count_eq_zero.2 fun hmem => hslash (List.mem_append_left ['*'] hmem)]
        omega
  · exact absurd hc (not_includeCovers_of_file hf)

/-- The glob of a domain matches wherever its stars end. -/
theorem includeCovers_example {w x y : Text} (h : a.text = "http".toList ++
    (w ++ ("://".toList ++ (x ++ (".example.com/".toList ++ y))))) :
    IncludeCovers "http*://*.example.com/*".toList a := by
  have hglob : "http*://*.example.com/*".toList = "http".toList ++ '*' ::
      ("://".toList ++ '*' :: (".example.com/".toList ++ ['*'])) := by decide
  have hself : ∀ t ∈ ["http".toList, "://".toList, ".example.com/".toList], '*' ∉ t := by decide
  rw [IncludeCovers, hglob, h]
  refine Glob.matches_append (Glob.matches_self (hself _ (by simp))) (.star w ?_)
  refine Glob.matches_append (Glob.matches_self (hself _ (by simp))) (.star x ?_)
  exact Glob.matches_append (Glob.matches_self (hself _ (by simp))) (Glob.matches_singleton_star y)

/-- Both stars keep to their parts. -/
theorem matchCovers_or_overruns_subdomain :
    WebAddress.IsPlain ⟨true, "www.example.com".toList, "/x".toList⟩ ∧
    ofInclude? "http*://*.example.com/*".toList = some "*://*.example.com/*".toList ∧
    IncludeCovers "http*://*.example.com/*".toList
      ⟨true, "www.example.com".toList, "/x".toList⟩ ∧
    (MatchCovers "*://*.example.com/*".toList ⟨true, "www.example.com".toList, "/x".toList⟩ ∨
      ¬ CoversByParts "http*://*.example.com/*".toList
          ⟨true, "www.example.com".toList, "/x".toList⟩ ∧
        Overruns "http*://*.example.com/*".toList
          ⟨true, "www.example.com".toList, "/x".toList⟩) := by
  have ha : WebAddress.IsPlain ⟨true, "www.example.com".toList, "/x".toList⟩ :=
    ⟨by decide, by decide, rfl, by decide⟩
  have hp : ofInclude? "http*://*.example.com/*".toList =
      some "*://*.example.com/*".toList := by decide
  have hc : IncludeCovers "http*://*.example.com/*".toList
      ⟨true, "www.example.com".toList, "/x".toList⟩ :=
    includeCovers_example (w := ['s']) (x := "www".toList) (y := ['x']) (by decide)
  exact ⟨ha, hp, hc, matchCovers_or_overruns ha hp hc⟩

/-- A star that reaches into the path finds a host there, and the address is lost. -/
theorem promoted_glob_loses_host_in_path :
    WebAddress.IsPlain ⟨false, "a.com".toList, "/b.example.com/c".toList⟩ ∧
    '?' ∉ "http*://*.example.com/*".toList ∧
    ofInclude? "http*://*.example.com/*".toList = some "*://*.example.com/*".toList ∧
    IncludeCovers "http*://*.example.com/*".toList
      ⟨false, "a.com".toList, "/b.example.com/c".toList⟩ ∧
    ¬ MatchCovers "*://*.example.com/*".toList
      ⟨false, "a.com".toList, "/b.example.com/c".toList⟩ := by
  have ha : WebAddress.IsPlain ⟨false, "a.com".toList, "/b.example.com/c".toList⟩ :=
    ⟨by decide, by decide, rfl, by decide⟩
  have hc : IncludeCovers "http*://*.example.com/*".toList
      ⟨false, "a.com".toList, "/b.example.com/c".toList⟩ :=
    includeCovers_example (w := []) (x := "a.com/b".toList) (y := ['c']) (by decide)
  refine ⟨ha, by decide, by decide, hc, fun hm => ?_⟩
  have hpattern : "*://*.example.com/*".toList =
      ['*'] ++ "://".toList ++ "*.example.com".toList ++ '/' :: ['*'] := by decide
  rw [hpattern, matchCovers_iff (by decide) (by decide)] at hm
  have hbelow : WebAddress.IsBelow ⟨false, "a.com".toList, "/b.example.com/c".toList⟩
      "example.com".toList := (hostCovers_below_iff ha).1 hm.2.2.1
  rcases hbelow with heq | hend
  · exact absurd heq (by decide)
  · exact absurd hend (by decide)

end Pattern
end StyleScope
