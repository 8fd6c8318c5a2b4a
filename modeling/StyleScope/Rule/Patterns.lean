import StyleScope.Text.Basic
import StyleScope.Pattern.Basic
import StyleScope.Regexp.Globs
import StyleScope.Rule.Call

/-!
# Patterns for a rule

Every call contributes patterns of its own, whatever the other calls are.  The
set of all of them is then tidied up: globs that are match patterns in disguise
move to the match patterns, and a pattern for every web address displaces the
rest.
-/

namespace StyleScope

open Text

namespace Address

def afterScheme? (s : Text) : Option Text :=
  (after? "http://".toList s).or (after? "https://".toList s)

/-- Is this the start of a web address, without wildcards? -/
def isLiteral (s : Text) : Bool :=
  ((afterScheme? s).any fun rest => rest.head?.any (· != '\n')) && !s.contains '*'

/-- Does a digit follow a colon that is not the first code point? -/
def hasPortDigit : Text → Bool
  | _ :: s => (find? (fun t => match t with
      | ':' :: c :: _ => if isDecimalDigit c then some () else none
      | _ => none) s).isSome
  | [] => false

def hasPort (s : Text) : Bool :=
  (afterScheme? s).any fun rest => hasPortDigit (rest.takeWhile (· != '/'))

/-- Is there a path, that is, are there two separate runs of slashes? -/
def hasPath (s : Text) : Bool := (splitAll (afterRun? '/') s).length > 2

end Address

namespace Call

open Address

/-- Pages inside a browser's extensions, which other browsers do not have. -/
def isExtensionPage (s : Text) : Bool :=
  s.contains ':' && "-extension".toList.isSuffixOf (s.takeWhile (· != ':')).tail

def scopesOfUrl (value : Text) : List Scope :=
  if !isLiteral value then []
  else if hasPort value then [.byInclude value]
  else [.byMatch value]

/-- The patterns of the addresses that start with a text.  A host alone would
make too wide a match pattern, so it becomes a glob. -/
def scopesOfUrlPrefix (value : Text) : List Scope :=
  if !isLiteral value then []
  else
    match hasPort value, hasPath value with
    | true, true => [.byInclude (value ++ "*".toList)]
    | true, false => [.byInclude (value ++ "/*".toList)]
    | false, true => [.byMatch (value ++ "*".toList)]
    | false, false => [.byInclude (value ++ "*/*".toList)]

def scopesOfDomain (value : Text) : List Scope :=
  let host := (after? "www.".toList value).getD value
  if host.contains '*' then []
  else [.byMatch ("*://*.".toList ++ host ++ "/*".toList)]

/-- The patterns of a regular expression.  The expressions for all addresses of a
scheme have patterns of their own. -/
def scopesOfRegexp (value : Text) : List Scope :=
  if isExtensionPage value then []
  else if value = ".*".toList ∨ value = ".+".toList then [.byMatch Pattern.catchAll]
  else if value = "http:.*".toList ∨ value = "http:.+".toList then
    [.byMatch "http://*/*".toList]
  else if value = "https:.*".toList ∨ value = "https:.+".toList then
    [.byMatch "https://*/*".toList]
  else (Regexp.globs value).map .byInclude

def scopes (call : Call) : List Scope :=
  match call.function with
  | .url => scopesOfUrl call.value
  | .urlPrefix => scopesOfUrlPrefix call.value
  | .domain => scopesOfDomain call.value
  | .regexp => scopesOfRegexp call.value

end Call

namespace Pattern

def withAnyScheme (glob : Text) : Text :=
  match after? "http*:".toList glob with
  | some rest => "*:".toList ++ rest
  | none => glob

def withPath (p : Text) : Text := if Address.hasPath p then p else p ++ ['/']

/-- The match pattern that a glob over addresses amounts to, if there is one. -/
def ofInclude? (glob : Text) : Option Text :=
  if isMatch (withPath (withAnyScheme glob)) then some (withPath (withAnyScheme glob))
  else none

/-- Only match patterns are returned. -/
theorem isMatch_of_ofInclude? {glob p : Text} (h : ofInclude? glob = some p) :
    isMatch p = true := by
  unfold ofInclude? at h
  split at h
  · next hm => exact Option.some.inj h ▸ hm
  · exact absurd h (by simp)

end Pattern

namespace Rule

def patterns (calls : List Call) : PatternSet :=
  ((PatternSet.empty.addAll (calls.flatMap Call.scopes)).promote
    Pattern.ofInclude?).collapse

end Rule
end StyleScope
