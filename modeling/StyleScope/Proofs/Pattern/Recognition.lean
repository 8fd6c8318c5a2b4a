import StyleScope.Pattern.Basic
import StyleScope.Proofs.Text.Splitting

/-!
# Recognising match patterns

`isMatch` on a text that starts with a scheme comes down to `isHostAndPath` on what
follows the scheme.  `isMatch_iff` is the grammar as a whole, with a text taken apart in
the way in which it is accepted.
-/

namespace StyleScope
namespace Pattern

open Text

def schemes : List Text := ["http".toList, "https".toList, "*".toList]

theorem not_mem_of_mem_schemes {scheme : Text} (h : scheme ∈ schemes) : ':' ∉ scheme := by
  revert scheme
  decide

theorem afterScheme?_append {scheme : Text} (h : scheme ∈ schemes) (s : Text) :
    afterScheme? (scheme ++ "://".toList ++ s) = some s := by
  simp only [schemes, List.mem_cons, List.not_mem_nil, or_false] at h
  rcases h with rfl | rfl | rfl <;> rfl

theorem isMatch_append {scheme : Text} (h : scheme ∈ schemes) (s : Text) :
    isMatch (scheme ++ "://".toList ++ s) = isHostAndPath s := by
  have hall : (scheme ++ "://".toList ++ s == allUrls) = false := by
    simp only [schemes, List.mem_cons, List.not_mem_nil, or_false] at h
    rcases h with rfl | rfl | rfl <;> rfl
  have hfile : afterFolded? "file:///".toList (scheme ++ "://".toList ++ s) = none := by
    simp only [schemes, List.mem_cons, List.not_mem_nil, or_false] at h
    rcases h with rfl | rfl | rfl <;> rfl
  rw [isMatch, hall, hfile, afterScheme?_append h]
  simp

theorem isHostAndPath_append {host : Text} (h : '/' ∉ host) (path : Text) :
    isHostAndPath (host ++ '/' :: path) = (isHost host && !path.contains '\n') := by
  rw [isHostAndPath, dropWhile_ne_append_cons h, takeWhile_ne_append_cons h]

/-- What stands before the first slash decides whether there is a host. -/
theorem isHost_of_isHostAndPath {s : Text} (h : isHostAndPath s = true) :
    isHost (s.takeWhile (· != '/')) = true := by
  rw [isHostAndPath] at h
  split at h
  · rw [Bool.and_eq_true] at h
    exact h.1
  · exact absurd h Bool.false_ne_true

theorem isHostName_iff {s : Text} :
    isHostName s = true ↔ s ≠ [] ∧ '*' ∉ s ∧ ':' ∉ s ∧ '/' ∉ s := by
  rw [isHostName, Bool.and_eq_true, List.all_eq_true, Bool.not_eq_true', List.isEmpty_eq_false_iff]
  constructor
  · rintro ⟨hne, hall⟩
    refine ⟨hne, fun h => ?_, fun h => ?_, fun h => ?_⟩ <;> exact absurd (hall _ h) (by decide)
  · rintro ⟨hne, hstar, hcolon, hslash⟩
    refine ⟨hne, fun c hc => ?_⟩
    have h1 : c ≠ '*' := fun e => hstar (e ▸ hc)
    have h2 : c ≠ ':' := fun e => hcolon (e ▸ hc)
    have h3 : c ≠ '/' := fun e => hslash (e ▸ hc)
    simp [h1, h2, h3]

/-- A host without stars is a name. -/
theorem isHost_of_not_mem_star {s : Text} (h : '*' ∉ s) : isHost s = isHostName s := by
  unfold isHost
  split
  · exact absurd List.mem_cons_self h
  · exact absurd List.mem_cons_self h
  · rfl

theorem isHost_below (name : Text) : isHost ('*' :: '.' :: name) = isHostName name := rfl

theorem not_mem_colon_of_isHost {s : Text} (h : isHost s = true) : ':' ∉ s := by
  unfold isHost at h
  split at h
  · decide
  · next name =>
    have hname := isHostName_iff.1 h
    simpa using hname.2.2.1
  · exact (isHostName_iff.1 h).2.2.1

/-- A star ends a host only when it is all of it. -/
theorem isHost_append_star {s : Text} (hne : s ≠ []) (h : '*' ∉ s) :
    isHost (s ++ ['*']) = false := by
  have hname : isHostName (s ++ ['*']) = false := by
    rw [Bool.eq_false_iff]
    intro hn
    exact (isHostName_iff.1 hn).2.1 (List.mem_append_right s List.mem_cons_self)
  unfold isHost
  obtain ⟨c, s, rfl⟩ := List.exists_cons_of_ne_nil hne
  split
  · next heq =>
    have hlen := congrArg List.length heq
    simp at hlen
  · next heq =>
    rw [List.cons_append, List.cons.injEq] at heq
    exact absurd (heq.1 ▸ List.mem_cons_self) h
  · exact hname

/-! ## The grammar -/

def IsScheme (scheme : Text) : Prop := scheme.map foldCase ∈ schemes

instance (scheme : Text) : Decidable (IsScheme scheme) :=
  inferInstanceAs (Decidable (scheme.map foldCase ∈ schemes))

theorem not_mem_of_isScheme {scheme : Text} {c : Char} (h : IsScheme scheme)
    (hc : foldCase c ∉ "https*".toList) : c ∉ scheme := by
  intro hmem
  have hfold : foldCase c ∈ scheme.map foldCase := List.mem_map_of_mem hmem
  have hall : ∀ w ∈ schemes, ∀ d ∈ w, d ∈ "https*".toList := by decide
  exact hc (hall _ h _ hfold)

theorem scheme_append_eq (scheme rest : Text) :
    scheme ++ "://".toList ++ rest = scheme ++ ':' :: ("//".toList ++ rest) := by
  rw [List.append_assoc]
  rfl

/-- The scheme of a text is what stands before its first colon. -/
theorem scheme_append_inj {scheme scheme' rest rest' : Text} (h : ':' ∉ scheme)
    (h' : ':' ∉ scheme')
    (heq : scheme ++ "://".toList ++ rest = scheme' ++ "://".toList ++ rest') :
    scheme = scheme' ∧ rest = rest' := by
  rw [scheme_append_eq, scheme_append_eq] at heq
  obtain ⟨hs, hr⟩ := append_cons_inj h h' heq
  exact ⟨hs, List.append_cancel_left hr⟩

theorem afterFolded?_separator {word s rest : Text} :
    afterFolded? (word ++ "://".toList) s = some rest ↔
      ∃ scheme, scheme.map foldCase = word ∧ s = scheme ++ "://".toList ++ rest := by
  rw [afterFolded?_eq_some]
  constructor
  · rintro ⟨spelling, rfl, hspell⟩
    obtain ⟨scheme, sep, rfl, hscheme, hsep⟩ := List.map_eq_append_iff.1 hspell
    rw [eq_of_map_foldCase_eq (by decide) hsep]
    exact ⟨scheme, hscheme, rfl⟩
  · rintro ⟨scheme, rfl, rfl⟩
    refine ⟨scheme ++ "://".toList, rfl, ?_⟩
    rw [List.map_append]
    rfl

theorem afterScheme?_star (s : Text) : afterScheme? ('*' :: s) = after? "://".toList s := rfl

theorem afterScheme?_of_head_ne {s : Text} (h : s.head? ≠ some '*') :
    afterScheme? s = (afterFolded? ("http".toList ++ "://".toList) s).or
      (afterFolded? ("https".toList ++ "://".toList) s) := by
  unfold afterScheme?
  split
  · exact absurd rfl h
  · rfl

/-- Only the scheme `*` has a star. -/
theorem eq_star_or_star_not_mem {scheme : Text} (h : IsScheme scheme) :
    scheme = ['*'] ∨ '*' ∉ scheme := by
  simp only [IsScheme, schemes, List.mem_cons, List.not_mem_nil, or_false] at h
  rcases h with h | h | h
  · refine Or.inr fun hmem => ?_
    have hfold : foldCase '*' ∈ "http".toList := h ▸ List.mem_map_of_mem hmem
    exact absurd hfold (by decide)
  · refine Or.inr fun hmem => ?_
    have hfold : foldCase '*' ∈ "https".toList := h ▸ List.mem_map_of_mem hmem
    exact absurd hfold (by decide)
  · exact Or.inl (eq_of_map_foldCase_eq (by decide) h)

theorem head?_ne_star_of_not_mem {scheme : Text} (h : '*' ∉ scheme) (rest : Text) :
    (scheme ++ "://".toList ++ rest).head? ≠ some '*' := by
  cases scheme with
  | nil => exact fun hhead => absurd (Option.some.inj hhead) (by decide)
  | cons c scheme =>
    intro hhead
    exact h (Option.some.inj hhead ▸ List.mem_cons_self)

theorem afterScheme?_append_of_isScheme {scheme : Text} (h : IsScheme scheme) (rest : Text) :
    afterScheme? (scheme ++ "://".toList ++ rest) = some rest := by
  have hcolon : ':' ∉ scheme := not_mem_of_isScheme h (by decide)
  rcases eq_star_or_star_not_mem h with rfl | hstar
  · rfl
  · rw [afterScheme?_of_head_ne (head?_ne_star_of_not_mem hstar rest), Option.or_eq_some_iff,
      afterFolded?_separator, afterFolded?_separator]
    simp only [IsScheme, schemes, List.mem_cons, List.not_mem_nil, or_false] at h
    rcases h with h | h | h
    · exact Or.inl ⟨scheme, h, rfl⟩
    · refine Or.inr ⟨?_, scheme, h, rfl⟩
      -- The scheme is longer than `http`, and it ends at the first colon.
      rw [Option.eq_none_iff_forall_ne_some]
      intro rest' hrest
      obtain ⟨scheme', hscheme', heq⟩ := afterFolded?_separator.1 hrest
      have hcolon' : ':' ∉ scheme' :=
        not_mem_of_isScheme (by rw [IsScheme, hscheme']; decide) (by decide)
      rw [(scheme_append_inj hcolon hcolon' heq).1, hscheme'] at h
      exact absurd h (by decide)
    · rw [eq_of_map_foldCase_eq (by decide) h] at hstar
      exact absurd List.mem_cons_self hstar

theorem afterScheme?_eq_some {s rest : Text} :
    afterScheme? s = some rest ↔
      ∃ scheme, IsScheme scheme ∧ s = scheme ++ "://".toList ++ rest := by
  constructor
  · intro h
    by_cases hs : s.head? = some '*'
    · cases s with
      | nil => exact absurd hs (by simp)
      | cons c s =>
        obtain rfl : c = '*' := Option.some.inj hs
        rw [afterScheme?_star, after?_eq_some] at h
        exact ⟨['*'], by decide, by rw [h]; rfl⟩
    · rw [afterScheme?_of_head_ne hs, Option.or_eq_some_iff, afterFolded?_separator,
        afterFolded?_separator] at h
      rcases h with ⟨scheme, hscheme, heq⟩ | ⟨_, scheme, hscheme, heq⟩
      · exact ⟨scheme, by rw [IsScheme, hscheme]; decide, heq⟩
      · exact ⟨scheme, by rw [IsScheme, hscheme]; decide, heq⟩
  · rintro ⟨scheme, hscheme, rfl⟩
    exact afterScheme?_append_of_isScheme hscheme rest

theorem not_mem_slash_of_isHost {s : Text} (h : isHost s = true) : '/' ∉ s := by
  unfold isHost at h
  split at h
  · decide
  · next name =>
    have hname := isHostName_iff.1 h
    simpa using hname.2.2.2
  · exact (isHostName_iff.1 h).2.2.2

theorem isHostAndPath_iff {s : Text} :
    isHostAndPath s = true ↔
      ∃ host path, isHost host = true ∧ '\n' ∉ path ∧ s = host ++ '/' :: path := by
  constructor
  · intro h
    by_cases hslash : '/' ∈ s
    · obtain ⟨host, path, rfl, hno⟩ := exists_first_of_mem hslash
      rw [isHostAndPath_append hno, Bool.and_eq_true] at h
      exact ⟨host, path, h.1, by simpa using h.2, rfl⟩
    · rw [isHostAndPath, dropWhile_ne_of_not_mem hslash] at h
      exact absurd h Bool.false_ne_true
  · rintro ⟨host, path, hhost, hpath, rfl⟩
    rw [isHostAndPath_append (not_mem_slash_of_isHost hhost), hhost]
    simpa using hpath

/-- What is accepted as a match pattern. -/
theorem isMatch_iff {s : Text} :
    isMatch s = true ↔
      s = allUrls ∨
      (∃ scheme host path, IsScheme scheme ∧ isHost host = true ∧ '\n' ∉ path ∧
        s = scheme ++ "://".toList ++ (host ++ '/' :: path)) ∨
      ∃ start path, start.map foldCase = "file:///".toList ∧ path ≠ [] ∧ '\n' ∉ path ∧
        s = start ++ path := by
  rw [isMatch, Bool.or_eq_true, Bool.or_eq_true, beq_iff_eq, Option.any_eq_true,
    Option.any_eq_true, or_assoc]
  refine or_congr_right (or_congr ?_ ?_)
  · constructor
    · rintro ⟨rest, hrest, hparts⟩
      obtain ⟨scheme, hscheme, rfl⟩ := afterScheme?_eq_some.1 hrest
      obtain ⟨host, path, hhost, hpath, rfl⟩ := isHostAndPath_iff.1 hparts
      exact ⟨scheme, host, path, hscheme, hhost, hpath, rfl⟩
    · rintro ⟨scheme, host, path, hscheme, hhost, hpath, rfl⟩
      exact ⟨_, afterScheme?_eq_some.2 ⟨scheme, hscheme, rfl⟩,
        isHostAndPath_iff.2 ⟨host, path, hhost, hpath, rfl⟩⟩
  · have hfile : ∀ path, isFilePath path = true ↔ path ≠ [] ∧ '\n' ∉ path := by
      intro path
      simp [isFilePath]
    constructor
    · rintro ⟨path, hstart, hpath⟩
      obtain ⟨start, rfl, hfold⟩ := afterFolded?_eq_some.1 hstart
      exact ⟨start, path, hfold, ((hfile path).1 hpath).1, ((hfile path).1 hpath).2, rfl⟩
    · rintro ⟨start, path, hfold, hne, hline, rfl⟩
      exact ⟨path, afterFolded?_eq_some.2 ⟨start, rfl, hfold⟩, (hfile path).2 ⟨hne, hline⟩⟩

end Pattern
end StyleScope
