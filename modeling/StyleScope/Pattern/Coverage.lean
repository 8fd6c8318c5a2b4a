import StyleScope.Text.Basic
import StyleScope.Pattern.Basic
import StyleScope.Rule.Call

/-!
# Coverage

What calls and patterns say about a web address: a call means what browsers take it to mean, a
match pattern is compared part by part and an include pattern, which is a glob, with the whole
address.  In a glob `*` stands for any text and every other character for itself.
-/

namespace StyleScope
namespace Glob

/-- A glob and a text that it matches as a whole. -/
inductive Matches : Text → Text → Prop
  | nil : Matches [] []
  | literal {c : Char} {glob s : Text} (h : c ≠ '*') (hs : Matches glob s) :
      Matches (c :: glob) (c :: s)
  | star (t : Text) {glob s : Text} (hs : Matches glob s) : Matches ('*' :: glob) (t ++ s)

/-- Without `*` a glob matches itself. -/
theorem matches_self {glob : Text} (h : '*' ∉ glob) : Matches glob glob := by
  induction glob with
  | nil => exact .nil
  | cons c glob ih =>
    rw [List.mem_cons, not_or] at h
    exact .literal (Ne.symm h.1) (ih h.2)

/-- Without `*` a glob matches nothing else. -/
theorem eq_of_matches {glob s : Text} (h : '*' ∉ glob) (hm : Matches glob s) : s = glob := by
  induction hm with
  | nil => rfl
  | literal _ _ ih =>
    rw [List.mem_cons, not_or] at h
    rw [ih h.2]
  | star _ _ _ => exact absurd List.mem_cons_self h

/-- Globs that follow each other match texts that follow each other. -/
theorem matches_append {g h s t : Text} (hg : Matches g s) (hh : Matches h t) :
    Matches (g ++ h) (s ++ t) := by
  induction hg with
  | nil => exact hh
  | literal hc _ ih => exact .literal hc ih
  | star u _ ih =>
    rw [List.append_assoc]
    exact .star u ih

/-- A star at the end matches whatever follows. -/
theorem matches_append_star {glob s : Text} (h : Matches glob s) (t : Text) :
    Matches (glob ++ ['*']) (s ++ t) := by
  have ht : Matches ['*'] (t ++ []) := .star t .nil
  rw [List.append_nil] at ht
  exact matches_append h ht

end Glob

open Text

/-- A web address without a port. -/
structure WebAddress where
  secure : Bool
  host : Text
  path : Text
  deriving DecidableEq

namespace WebAddress

def scheme (a : WebAddress) : Text := (if a.secure then "https" else "http").toList

def text (a : WebAddress) : Text := a.scheme ++ "://".toList ++ a.host ++ a.path

def isHostChar (c : Char) : Bool := c.isAlphanum || c == '-' || c == '.'

/-- The addresses that coverage is about: a host of letters, digits, hyphens and
dots, and a path on one line. -/
structure IsPlain (a : WebAddress) : Prop where
  host_ne_nil : a.host ≠ []
  host_chars : ∀ c ∈ a.host, isHostChar c = true
  path_start : a.path.head? = some '/'
  path_line : '\n' ∉ a.path

def IsBelow (a : WebAddress) (name : Text) : Prop :=
  a.host = name ∨ ('.' :: name) <:+ a.host

end WebAddress

/-- A call covers the addresses for which it was written.  What a regular
expression covers is a matter of its own. -/
def Call.Covers (call : Call) (a : WebAddress) : Prop :=
  match call.function with
  | .url => a.text = call.value
  | .urlPrefix => call.value <+: a.text
  | .domain => a.IsBelow call.value
  | .regexp => False

namespace Pattern

inductive HostCovers : Text → WebAddress → Prop
  | any (a : WebAddress) : HostCovers ['*'] a
  | below {name : Text} {a : WebAddress} (h : a.IsBelow name) : HostCovers ('*' :: '.' :: name) a
  | exact (a : WebAddress) : HostCovers a.host a

structure MatchCovers (pattern : Text) (a : WebAddress) : Prop where
  isMatch : isMatch pattern = true
  parts : ∃ scheme host path, pattern = scheme ++ "://".toList ++ host ++ path ∧
    '/' ∉ host ∧ path.head? = some '/' ∧ (scheme = ['*'] ∨ scheme = a.scheme) ∧
    HostCovers host a ∧ Glob.Matches path a.path

def IncludeCovers (pattern : Text) (a : WebAddress) : Prop := Glob.Matches pattern a.text

end Pattern

def PatternSet.Covers (set : PatternSet) (a : WebAddress) : Prop :=
  (∃ p ∈ set.matchPatterns, Pattern.MatchCovers p a) ∨
    ∃ p ∈ set.includePatterns, Pattern.IncludeCovers p a

/-- The pattern for every web address covers every address. -/
theorem PatternSet.catchAll_covers {a : WebAddress} (h : a.path.head? = some '/') :
    PatternSet.catchAll.Covers a := by
  refine Or.inl ⟨Pattern.catchAll, List.mem_singleton.2 rfl, Pattern.isMatch_catchAll,
    ['*'], ['*'], ['/', '*'], rfl, by decide, rfl, Or.inl rfl, .any a, ?_⟩
  cases hp : a.path with
  | nil => rw [hp] at h; exact absurd h (by simp)
  | cons c rest =>
    rw [hp, List.head?_cons, Option.some.injEq] at h
    subst h
    have hslash : Glob.Matches ['/'] ['/'] := Glob.matches_self (by decide)
    exact Glob.matches_append_star hslash rest

end StyleScope
