import StyleScope.Text.Scan

/-!
# Scoping rules

A scoping rule is a list of calls such as `domain("example.com")`.  Each names a function and
quotes one value.  Calls are separated by commas; a comma separates only where the text before
it, blanks aside, ends with `)`, so commas inside quoted values do not count.
-/

namespace StyleScope

open Text

inductive ScopingFunction
  /-- One address. -/
  | url
  /-- The addresses that start with a text. -/
  | urlPrefix
  /-- The addresses of a host and its subdomains. -/
  | domain
  /-- The addresses that a regular expression matches in full. -/
  | regexp
  deriving DecidableEq

namespace ScopingFunction

def all : List ScopingFunction := [.url, .urlPrefix, .domain, .regexp]

def name : ScopingFunction → Text
  | .url => "url".toList
  | .urlPrefix => "url-prefix".toList
  | .domain => "domain".toList
  | .regexp => "regexp".toList

def ofName? (s : Text) : Option ScopingFunction := all.find? (·.name == s)

theorem ofName?_name (f : ScopingFunction) : ofName? f.name = some f := by
  cases f <;> decide

def unknownMessage (s : Text) : Text :=
  "invalid input: unknown scoping function: ".toList ++ s

end ScopingFunction

structure Call where
  function : ScopingFunction
  value : Text
  deriving DecidableEq

namespace Call

/-- The characters that quote a value; the two ends need not agree. -/
def isQuote (c : Char) : Bool := c == '\x22' || c == '\x27'

/-- A parenthesis with a quoted value that is not empty: the value. -/
def quoted? : Text → Option Text
  | '(' :: q :: s =>
    if isQuote q then
      match s.takeWhile (!isQuote ·), s.dropWhile (!isQuote ·) with
      | c :: value, _ :: ')' :: _ => some (c :: value)
      | _, _ => none
    else none
  | _ => none

def read? (s : Text) : Option Call :=
  ScopingFunction.all.findSome? fun f => do
    let value ← quoted? ((← after? f.name s).dropWhile isBlank)
    return ⟨f, value⟩

def find? (s : Text) : Option Call := (Text.find? read? s).map (·.2)

def text (call : Call) : Text :=
  call.function.name ++ "(\"".toList ++ call.value ++ "\")".toList

end Call

namespace Rule

/-- The pieces of a rule from some place in it: what is left of the piece there,
and the further pieces.  `closed` says whether the last code point of the piece
that is not blank is a `)`. -/
def splitFrom (closed : Bool) : Text → Text × List Text
  | [] => ([], [])
  | c :: s =>
    if c == ',' && closed then
      let (piece, pieces) := splitFrom false s
      ([], piece :: pieces)
    else
      let (piece, pieces) := splitFrom (if isBlank c then closed else c == ')') s
      (c :: piece, pieces)

def splitCalls (s : Text) : List Text :=
  let (piece, pieces) := splitFrom false s
  piece :: pieces

/-- The calls of a rule.  A piece without a call is passed over. -/
def parse (s : Text) : List Call := (splitCalls s).filterMap Call.find?

end Rule
end StyleScope
