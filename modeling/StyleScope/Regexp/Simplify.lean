import StyleScope.Text.Scan
import StyleScope.Text.Basic

/-!
# Regular expressions on their way to globs

A regular expression of a scoping rule becomes a glob by a fixed sequence of
textual steps.  Each step removes one kind of syntax, or replaces it by `*`,
which stands for any text.  A step never looks at the expression as a whole, so
what it leaves may still hold syntax; the later stages refuse that.
-/

namespace StyleScope
namespace Regexp

open Text

/-- The steps, each named for the syntax that it takes care of. -/
inductive Step
  /-- `^` at the start and `$` at the end go. -/
  | anchors
  /-- Lookahead and lookbehind go. -/
  | assertions
  /-- `(?:` opens a group like any other. -/
  | nonCapturing
  /-- A group without alternatives, and not optional, loses its parentheses. -/
  | plainGroups
  /-- The ways to write "http or https" become `http*`. -/
  | scheme
  /-- A count in braces becomes `+`. -/
  | counts
  /-- An optional group becomes `*`. -/
  | optionalGroups
  /-- A repeated character class becomes `*`. -/
  | repeatedClasses
  /-- `+` becomes `*`. -/
  | plus
  /-- A dot before `*` or `?` goes. -/
  | dots
  /-- Backslashes before `/` and `:` go. -/
  | escapedSeparators
  /-- Backslashes before `.` and `?` go. -/
  | escapedLiterals
  /-- The escapes for digits, word characters and blanks become `*`. -/
  | classEscapes
  /-- Of adjacent wildcards the last one stays. -/
  | wildcardRuns
  deriving DecidableEq

def Step.all : List Step :=
  [.anchors, .assertions, .nonCapturing, .plainGroups, .scheme, .counts,
   .optionalGroups, .repeatedClasses, .plus, .dots, .escapedSeparators,
   .escapedLiterals, .classEscapes, .wildcardRuns]

def dropCaret : Text → Text
  | '^' :: s => s
  | s => s

def dropDollar (s : Text) : Text :=
  if s.getLast? = some '$' then s.dropLast else s

def stripAnchors (s : Text) : Text := dropDollar (dropCaret s)

def afterAssertionOpening? : Text → Option Text
  | '(' :: '?' :: '=' :: s => some s
  | '(' :: '?' :: '!' :: s => some s
  | '(' :: '?' :: '<' :: '=' :: s => some s
  | '(' :: '?' :: '<' :: '!' :: s => some s
  | _ => none

/-- The inside of a parenthesis that has just been opened, as far as the shortest
match goes: one code point whatever it is, then everything up to the first `)`,
all of it on one line.  The second part is what follows the `)`. -/
def shortGroup? : Text → Option (Text × Text)
  | [] => none
  | c :: s =>
    match s.dropWhile (· != ')') with
    | _ :: rest =>
      if c = '\n' ∨ '\n' ∈ s.takeWhile (· != ')') then none
      else some (c :: s.takeWhile (· != ')'), rest)
    | [] => none

def assertion? (s : Text) : Option (Text × Text) := do
  let (_, rest) ← shortGroup? (← afterAssertionOpening? s)
  return ([], rest)

/-- A group that is neither empty nor optional and offers no alternatives is
replaced by its inside. -/
def plainGroup? : Text → Option (Text × Text)
  | '(' :: s =>
    let inside := s.takeWhile fun c => c != ')' && c != '|'
    match s.dropWhile fun c => c != ')' && c != '|' with
    | ')' :: rest =>
      if inside.isEmpty ∨ rest.head? = some '?' then none else some (inside, rest)
    | _ => none
  | _ => none

def unwrapPlainGroups : Text → Text := substituteAll plainGroup?

/-- `http`, at least two code points that are no colons, and a colon. -/
def longScheme? (s : Text) : Option (Text × Text) := do
  let rest ← after? "http".toList s
  match rest.takeWhile (· != ':'), rest.dropWhile (· != ':') with
  | _ :: _ :: _, _ :: rest => return ("http*:".toList, rest)
  | _, _ => none

def foldScheme (s : Text) : Text :=
  substituteAll longScheme?
    (replaceAll "http.".toList "http*".toList
      (replaceAll "(https|http)".toList "http*".toList
        (replaceAll "(http|https)".toList "http*".toList s)))

def count? : Text → Option (Text × Text)
  | '\x7b' :: s => (enclosed? '\x7d' s).map fun (_, rest) => (['+'], rest)
  | _ => none

def optionalGroup? : Text → Option (Text × Text)
  | '(' :: s =>
    match enclosed? ')' s with
    | some (_, '?' :: rest) => some (['*'], rest)
    | _ => none
  | _ => none

def repeatedClass? : Text → Option (Text × Text)
  | '[' :: s =>
    match enclosed? ']' s with
    | some (_, '+' :: rest) => some (['*'], rest)
    | some (_, '*' :: rest) => some (['*'], rest)
    | _ => none
  | _ => none

def isWildcard (c : Char) : Bool := c == '*' || c == '?'

/-- A dot before a wildcard goes, unless a backslash stands before it; `escaped`
says whether one stands before the first code point. -/
def dropDots (escaped : Bool) : Text → Text
  | '.' :: c :: s =>
    if !escaped && isWildcard c then c :: dropDots false s
    else '.' :: dropDots false (c :: s)
  | c :: s => c :: dropDots (c == '\\') s
  | [] => []

def escapedMark? (marks : Text) (s : Text) : Option (Text × Text) :=
  match afterRun? '\\' s with
  | some (c :: rest) => if c ∈ marks then some ([c], rest) else none
  | _ => none

/-- Backslashes with the letter of a class, and a quantifier if there is one,
become `*`. -/
def classEscape? (s : Text) : Option (Text × Text) :=
  match afterRun? '\\' s with
  | some (c :: rest) =>
    if foldCase c ∈ ['d', 'w', 's'] then
      match rest with
      | '+' :: rest => some (['*'], rest)
      | '*' :: rest => some (['*'], rest)
      | _ => some (['*'], rest)
    else none
  | _ => none

def collapseWildcards : Text → Text
  | c :: d :: s =>
    if isWildcard c && isWildcard d then collapseWildcards (d :: s)
    else c :: collapseWildcards (d :: s)
  | s => s

def Step.apply : Step → Text → Text
  | .anchors => stripAnchors
  | .assertions => substituteAll assertion?
  | .nonCapturing => replaceAll "(?:".toList "(".toList
  | .plainGroups => unwrapPlainGroups
  | .scheme => foldScheme
  | .counts => substituteAll count?
  | .optionalGroups => substituteAll optionalGroup?
  | .repeatedClasses => substituteAll repeatedClass?
  | .plus => replaceAll "+".toList "*".toList
  | .dots => dropDots false
  | .escapedSeparators => substituteAll (escapedMark? ['/', ':'])
  | .escapedLiterals => substituteAll (escapedMark? ['.', '?'])
  | .classEscapes => substituteAll classEscape?
  | .wildcardRuns => collapseWildcards

def stages : List Step → Text → List Text
  | [], _ => []
  | step :: steps, s => step.apply s :: stages steps (step.apply s)

def simplify (s : Text) : Text := Step.all.foldl (fun t step => step.apply t) s

end Regexp
end StyleScope
