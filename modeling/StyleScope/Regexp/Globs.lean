import StyleScope.Text.Scan
import StyleScope.Regexp.Simplify
import StyleScope.Basic

/-!
# Globs for a regular expression

A text with a group of alternatives, `before(a|b)after`, branches into one text per
alternative.  Every round branches every text at its first group.  Five rounds and 256 branches
are the limits: what is left after the rounds is left, while too many branches give up the
expression.

The branches of the simplified expression have to be free of syntax.  An expression that does
not come out clean is refused as a whole; nothing approximate is returned.
-/

namespace StyleScope
namespace Regexp

open Text

def maxRounds : Nat := 5

def maxBranches : Nat := 256

/-- Does a `|` stand inside `body` with something on either side? -/
def offersChoice (body : Text) : Bool := body.tail.dropLast.contains '|'

/-- Is there a `(` whose stretch up to the next `)` offers a choice? -/
def hasAlternation : Text → Bool
  | [] => false
  | c :: s =>
    (c == '(' && (enclosed? ')' s).any fun (body, _) => offersChoice body) ||
      hasAlternation s

def groupAt? : Text → Option (Text × Text)
  | '(' :: s => shortGroup? s
  | _ => none

/-- One text per alternative of the first group; the text itself when it has no
group. -/
def expandFirst (s : Text) : List Text :=
  match find? groupAt? s with
  | some (before, inside, after) =>
    (List.splitOn '|' inside).map fun choice => before ++ choice ++ after
  | none => [s]

def expandRound (branches : List Text) : Option (List Text) :=
  let next := branches.flatMap expandFirst
  if next.length > maxBranches then none else some next

/-- At most `n` rounds, as long as some branch still has alternatives. -/
def expandRounds : Nat → List Text → Option (List Text)
  | 0, branches => some branches
  | n + 1, branches =>
    if branches.any hasAlternation then
      (expandRound branches).bind (expandRounds n)
    else some branches

def expand (s : Text) : Option (List Text) := expandRounds maxRounds [s]

/-- Characters that no glob holds: where one is left, syntax is left. -/
def isResidual (c : Char) : Bool := c == '(' || c == ')' || c == '|' || c == '\\'

/-- The globs of a regular expression; there is at least one and none is empty. -/
def globs? (pattern : Text) : Option (List Text) := do
  let branches := (← expand (simplify pattern)).map collapseWildcards
  if branches.any (·.any isResidual) then none
  else
    match branches.filter (!·.isEmpty) with
    | [] => none
    | globs => some globs

def toGlobs (pattern : Text) : Except Refusal (List Text) :=
  match globs? pattern with
  | some globs => .ok globs
  | none => .error (.unconvertibleRegexp pattern)

/-- The globs of a regular expression, none where it is refused. -/
def globs (pattern : Text) : List Text := (globs? pattern).getD []

end Regexp
end StyleScope
