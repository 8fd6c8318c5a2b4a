import StyleScope.Pattern.Coverage
import StyleScope.Proofs.Pattern.GlobMatching
import StyleScope.Proofs.Pattern.Recognition

/-!
# Addresses and patterns part by part

An address is taken apart at its first colon and, behind the scheme, at the first
slash.  Texts that start an address and patterns that cover one are taken apart in
the same places and compared part by part.
-/

namespace StyleScope

open Text

/-! ## Addresses -/

namespace WebAddress

variable {a : WebAddress}

def webSchemes : List Text := ["http".toList, "https".toList]

theorem scheme_mem (a : WebAddress) : a.scheme ∈ webSchemes := by
  unfold scheme
  cases a.secure <;> decide

theorem mem_schemes_of_mem_webSchemes {scheme : Text} (h : scheme ∈ webSchemes) :
    scheme ∈ Pattern.schemes := by
  revert scheme
  decide

theorem colon_not_mem_of_mem_webSchemes {scheme : Text} (h : scheme ∈ webSchemes) :
    ':' ∉ scheme :=
  Pattern.not_mem_of_mem_schemes (mem_schemes_of_mem_webSchemes h)

namespace IsPlain

theorem not_mem_host (h : a.IsPlain) {c : Char} (hc : isHostChar c = false) : c ∉ a.host := by
  intro hmem
  rw [h.host_chars c hmem] at hc
  exact Bool.noConfusion hc

theorem path_eq_cons (h : a.IsPlain) : ∃ p, a.path = '/' :: p := by
  have hstart := h.path_start
  cases hp : a.path with
  | nil =>
    rw [hp] at hstart
    exact absurd hstart (by simp)
  | cons c p =>
    rw [hp, List.head?_cons, Option.some.injEq] at hstart
    exact ⟨p, by rw [hstart]⟩

theorem newline_not_mem_text (h : a.IsPlain) : '\n' ∉ a.text := by
  have hscheme : '\n' ∉ a.scheme := by
    unfold scheme
    cases a.secure <;> decide
  have hsep : '\n' ∉ "://".toList := by decide
  have hhost : '\n' ∉ a.host := h.not_mem_host (by decide)
  simp only [text, List.mem_append, not_or]
  exact ⟨⟨⟨hscheme, hsep⟩, hhost⟩, h.path_line⟩

theorem isHost_host (h : a.IsPlain) : Pattern.isHost a.host = true := by
  have hstar : '*' ∉ a.host := h.not_mem_host (by decide)
  rw [Pattern.isHost_of_not_mem_star hstar, Pattern.isHostName_iff]
  exact ⟨h.host_ne_nil, hstar, h.not_mem_host (by decide), h.not_mem_host (by decide)⟩

end IsPlain

theorem text_eq_cons (a : WebAddress) :
    a.text = a.scheme ++ ':' :: ("//".toList ++ (a.host ++ a.path)) := by
  simp [text]

/-- An address is written with a scheme exactly when that is its scheme. -/
theorem text_eq_iff {scheme : Text} (h : scheme ∈ webSchemes) (rest : Text) :
    a.text = scheme ++ "://".toList ++ rest ↔ scheme = a.scheme ∧ rest = a.host ++ a.path := by
  rw [text_eq_cons, Pattern.scheme_append_eq]
  constructor
  · intro heq
    obtain ⟨h1, h2⟩ := append_cons_inj (colon_not_mem_of_mem_webSchemes a.scheme_mem)
      (colon_not_mem_of_mem_webSchemes h) heq
    exact ⟨h1.symm, (List.append_cancel_left h2).symm⟩
  · rintro ⟨rfl, rfl⟩
    rfl

theorem prefix_text_iff {scheme : Text} (h : scheme ∈ webSchemes) (rest : Text) :
    scheme ++ "://".toList ++ rest <+: a.text ↔
      scheme = a.scheme ∧ rest <+: a.host ++ a.path := by
  constructor
  · rintro ⟨t, ht⟩
    rw [List.append_assoc] at ht
    obtain ⟨h1, h2⟩ := (text_eq_iff h (rest ++ t)).1 ht.symm
    exact ⟨h1, t, h2⟩
  · rintro ⟨rfl, t, ht⟩
    refine ⟨t, ?_⟩
    rw [List.append_assoc]
    exact ((text_eq_iff h (rest ++ t)).2 ⟨rfl, ht⟩).symm

/-- A text with a slash starts host and path exactly when its part before the slash
is the host. -/
theorem prefix_host_path_iff (ha : a.IsPlain) {host : Text} (h : '/' ∉ host) (tail : Text) :
    host ++ '/' :: tail <+: a.host ++ a.path ↔ host = a.host ∧ '/' :: tail <+: a.path := by
  obtain ⟨p, hp⟩ := ha.path_eq_cons
  rw [hp]
  constructor
  · rintro ⟨t, ht⟩
    rw [List.append_assoc, List.cons_append] at ht
    obtain ⟨rfl, rfl⟩ := append_cons_inj h (ha.not_mem_host (by decide)) ht
    exact ⟨rfl, t, rfl⟩
  · rintro ⟨rfl, t, ht⟩
    exact ⟨t, by rw [List.append_assoc, ht]⟩

/-- A text without a slash ends inside the host. -/
theorem prefix_host_of_no_slash (ha : a.IsPlain) {rest : Text} (h : '/' ∉ rest)
    (hrest : rest <+: a.host ++ a.path) : rest <+: a.host := by
  obtain ⟨p, hp⟩ := ha.path_eq_cons
  rw [hp] at hrest
  rcases List.prefix_or_prefix_of_prefix hrest (List.prefix_append a.host ('/' :: p)) with hr | hr
  · exact hr
  · obtain ⟨t, rfl⟩ := hr
    rw [List.prefix_append_right_inj] at hrest
    cases t with
    | nil => exact ⟨[], by simp⟩
    | cons c t =>
      rw [List.cons_prefix_cons] at hrest
      exact absurd (List.mem_append_right a.host (hrest.1 ▸ List.mem_cons_self)) h

end WebAddress

/-! ## Patterns -/

namespace Pattern

open WebAddress

variable {a : WebAddress}

/-- Without stars the host of a pattern covers one host. -/
theorem hostCovers_iff_eq {host : Text} (h : '*' ∉ host) : HostCovers host a ↔ host = a.host := by
  constructor
  · intro hc
    cases hc with
    | any => exact absurd List.mem_cons_self h
    | below _ => exact absurd List.mem_cons_self h
    | exact => rfl
  · rintro rfl
    exact .exact a

theorem hostCovers_below_iff (ha : a.IsPlain) {name : Text} :
    HostCovers ('*' :: '.' :: name) a ↔ a.IsBelow name := by
  constructor
  · intro hc
    generalize hhost : '*' :: '.' :: name = host at hc
    cases hc with
    | any => simp at hhost
    | below hb =>
      simp only [List.cons.injEq, true_and] at hhost
      rw [hhost]
      exact hb
    | exact =>
      have hstar : '*' ∉ a.host := ha.not_mem_host (by decide)
      exact absurd (hhost ▸ List.mem_cons_self) hstar
  · exact .below

/-- A match pattern is compared part by part. -/
theorem matchCovers_iff {scheme host : Text} (hs : scheme ∈ schemes) (hh : '/' ∉ host)
    (path : Text) :
    MatchCovers (scheme ++ "://".toList ++ host ++ '/' :: path) a ↔
      (isHost host = true ∧ '\n' ∉ path) ∧ (scheme = ['*'] ∨ scheme = a.scheme) ∧
        HostCovers host a ∧ Glob.Matches ('/' :: path) a.path := by
  have hmatch : isMatch (scheme ++ "://".toList ++ host ++ '/' :: path) = true ↔
      isHost host = true ∧ '\n' ∉ path := by
    rw [List.append_assoc, isMatch_append hs, isHostAndPath_append hh]
    simp
  rw [← hmatch]
  constructor
  · rintro ⟨hm, scheme', host', path', heq, hh', hp', hscheme, hhost, hpath⟩
    obtain ⟨q, rfl⟩ : ∃ q, path' = '/' :: q := by
      cases path' with
      | nil => simp at hp'
      | cons c q =>
        rw [List.head?_cons, Option.some.injEq] at hp'
        exact ⟨q, by rw [hp']⟩
    have hcolon' : ':' ∉ scheme' := by
      rcases hscheme with rfl | rfl
      · decide
      · exact colon_not_mem_of_mem_webSchemes a.scheme_mem
    rw [List.append_assoc, List.append_assoc, List.append_assoc _ host' _,
      List.append_assoc scheme'] at heq
    obtain ⟨rfl, htail⟩ := append_cons_inj (not_mem_of_mem_schemes hs) hcolon'
      (show scheme ++ ':' :: ("//".toList ++ (host ++ '/' :: path)) =
        scheme' ++ ':' :: ("//".toList ++ (host' ++ '/' :: q)) from heq)
    obtain ⟨rfl, rfl⟩ := append_cons_inj hh hh' (List.append_cancel_left htail)
    exact ⟨hm, hscheme, hhost, hpath⟩
  · rintro ⟨hm, hscheme, hhost, hpath⟩
    exact ⟨hm, scheme, host, '/' :: path, rfl, hh, rfl, hscheme, hhost, hpath⟩

end Pattern
end StyleScope
