import StyleScope.Url.Host
import StyleScope.Url.Basic

/-!
# Reading addresses

A text is an address on its own if it starts with a scheme.  Schemes of the web
are special: they have a host, and backslashes count as slashes.  `file`
addresses are special too but need no host.
-/

namespace StyleScope
namespace Url

open Text

inductive SchemeKind
  | file
  | special
  | other
  deriving DecidableEq

def specialSchemes : List (Text × Nat) :=
  [("http".toList, 80), ("https".toList, 443), ("ws".toList, 80), ("wss".toList, 443),
   ("ftp".toList, 21)]

def defaultPort? (scheme : Text) : Option Nat := specialSchemes.lookup scheme

def SchemeKind.of (scheme : Text) : SchemeKind :=
  if scheme = "file".toList then .file
  else if (defaultPort? scheme).isSome then .special
  else .other

/-- Does the kind treat backslashes as slashes? -/
def SchemeKind.isSpecial : SchemeKind → Bool
  | .other => false
  | _ => true

def isPadding (c : Char) : Bool := c.toNat ≤ 0x20

def isBreak (c : Char) : Bool := c == '\t' || c == '\n' || c == '\r'

def clean (s : Text) : Text :=
  (((s.dropWhile isPadding).reverse.dropWhile isPadding).reverse).filter (!isBreak ·)

def isSchemeChar (c : Char) : Bool :=
  c.isAlpha || c.isDigit || c == '+' || c == '-' || c == '.'

def scheme? (s : Text) : Option (Text × Text) :=
  match s, s.dropWhile isSchemeChar with
  | c :: _, ':' :: rest =>
    if c.isAlpha then some ((s.takeWhile isSchemeChar).map Char.toLower, rest) else none
  | _, _ => none

def endsAuthority (isSpecial : Bool) (c : Char) : Bool :=
  c == '/' || Path.isEnd c || (isSpecial && c == '\\')

def splitTail (s : Text) : Text × Option Text × Option Text :=
  let path := s.takeWhile (!Path.isEnd ·)
  match s.dropWhile (!Path.isEnd ·) with
  | '?' :: rest =>
    match rest.dropWhile (· != '#') with
    | _ :: fragment => (path, some (rest.takeWhile (· != '#')), some fragment)
    | [] => (path, some rest, none)
  | _ :: fragment => (path, none, some fragment)
  | [] => (path, none, none)

def encodeQuery (isSpecial : Bool) : Text → Text :=
  Percent.encode (if isSpecial then Percent.specialQuery else Percent.query)

/-- An address from its parts, query and fragment not yet encoded. -/
def assemble (kind : SchemeKind) (scheme : Text) (authority : Option Authority) (path : Text)
    (query fragment : Option Text) : Url where
  scheme := scheme
  authority := authority
  path := path
  query := query.map (encodeQuery kind.isSpecial)
  fragment := fragment.map (Percent.encode Percent.fragment)

/-- User name and password as they are written.  The first colon separates
them; without either there is nothing to write. -/
def writeCredentials (s : Text) : Text :=
  let user := Percent.encode Percent.userInfo (s.takeWhile (· != ':'))
  let password := Percent.encode Percent.userInfo (s.dropWhile (· != ':')).tail
  if user.isEmpty && password.isEmpty then []
  else user ++ (if password.isEmpty then [] else ':' :: password) ++ ['@']

/-- The credentials that start a text, up to the last `@` of the authority, and
what follows them. -/
def credentials (isSpecial : Bool) (s : Text) : Except Error (Text × Text) :=
  let area := s.takeWhile (!endsAuthority isSpecial ·)
  if !area.contains '@' then .ok ([], s)
  else
    let info := ((area.reverse.dropWhile (· != '@')).tail).reverse
    let rest := s.drop (info.length + 1)
    if info.isEmpty && rest.head?.any (endsAuthority isSpecial) then .error .emptyHost
    else .ok (writeCredentials info, rest)

/-- The host that starts a text, not yet interpreted, and what follows it.  A
colon inside brackets belongs to the host. -/
def spanHost (isSpecial inBrackets : Bool) : Text → Text × Text
  | [] => ([], [])
  | c :: s =>
    if endsAuthority isSpecial c || (c == ':' && !inBrackets) then ([], c :: s)
    else
      let inBrackets := if c == '[' then true else if c == ']' then false else inBrackets
      let (host, rest) := spanHost isSpecial inBrackets s
      (c :: host, rest)

/-- The port behind a colon and what follows it.  No digits mean no port, and the
usual port of the scheme is left out. -/
def port (scheme : Text) : Text → Except Error (Option Nat × Text)
  | ':' :: s =>
    let digits := s.takeWhile Char.isDigit
    let rest := s.dropWhile Char.isDigit
    let n := valueOf 10 (digits.filterMap digit?)
    if rest.head?.any (fun c => !endsAuthority true c) || n > 65535 then .error .invalidPort
    else .ok (if digits.isEmpty ∨ defaultPort? scheme = some n then none else some n, rest)
  | s => .ok (none, s)

def hostOf (kind : SchemeKind) (s rest : Text) : Except Error Text :=
  if kind.isSpecial then
    if s.isEmpty then .error .emptyHost else Host.ofSpecial s
  else
    match Host.ofOther s with
    | .ok [] => if rest.head? = some ':' then .error .emptyHost else .ok []
    | host => host

/-- The path behind an authority: special schemes always have one, and for the
others it starts with a slash if there is anything. -/
def pathAfterAuthority (kind : SchemeKind) (s : Text) : Text :=
  match kind.isSpecial, s with
  | true, c :: rest =>
    if c == '/' || c == '\\' then (Path.resolve true false ['/'] rest).1
    else (Path.resolve true false ['/'] s).1
  | true, [] => ['/']
  | false, c :: _ =>
    if c == '/' then (Path.resolve false false [] s).1
    else (Path.resolve false false ['/'] s).1
  | false, [] => []

def withAuthority (kind : SchemeKind) (scheme s : Text) : Except Error Url := do
  let (credentials, s) ← credentials kind.isSpecial s
  let (host, s) := spanHost kind.isSpecial false s
  let host ← hostOf kind host s
  let (port, s) ← port scheme s
  if host.isEmpty && !credentials.isEmpty then .error .emptyHost
  else
    let (path, query, fragment) := splitTail s
    return assemble kind scheme (some ⟨credentials, host, port⟩) (pathAfterAuthority kind path)
      query fragment

def ofOther (scheme s : Text) : Except Error Url :=
  match after? "//".toList s with
  | some rest => withAuthority .other scheme rest
  | none =>
    let (path, query, fragment) := splitTail s
    let path :=
      match path with
      | '/' :: rest => (Path.resolve false false ['/'] rest).1
      | path => Percent.encode Percent.control path
    .ok (assemble .other scheme none path query fragment)

def fileUrl (host path : Text) (query fragment : Option Text) : Url :=
  assemble .file "file".toList (some ⟨[], host, none⟩) (Path.singleSlash path) query fragment

/-- A `file` address from behind the two slashes.  A drive letter is no host, and
one at the start of the path displaces the host. -/
def fileWithHost (s : Text) : Except Error Url := do
  let name := s.takeWhile (!endsAuthority true ·)
  let isDrive := Path.isDriveLetter name
  let host ← if isDrive || name.isEmpty then .ok [] else Host.ofSpecial name
  let host : Text := if host = "localhost".toList then [] else host
  let rest := if isDrive then s else s.drop name.length
  let (path, query, fragment) := splitTail rest
  if host.isEmpty then
    return fileUrl [] (Path.resolve true true ['/'] path).1 query fragment
  else
    let path :=
      match path with
      | c :: rest => if c == '/' || c == '\\' then rest else c :: rest
      | [] => []
    let (path, drive) := Path.resolve true true ['/'] path
    return fileUrl (if drive then [] else host) path query fragment

def ofFile (s : Text) : Except Error Url :=
  match Path.slashed (s.take 2) with
  | ['/', '/'] => fileWithHost (s.drop 2)
  | '/' :: _ =>
    let (path, query, fragment) := splitTail s
    .ok (fileUrl [] (Path.resolve true true [] path).1 query fragment)
  | _ =>
    let (path, query, fragment) := splitTail s
    .ok (fileUrl [] (Path.resolve true true ['/'] path).1 query fragment)

def parse (s : Text) : Except Error Url :=
  match scheme? (clean s) with
  | none => .error .relativeWithoutBase
  | some (scheme, rest) =>
    match SchemeKind.of scheme with
    | .file => ofFile rest
    | .special =>
      withAuthority .special scheme (rest.dropWhile fun c => c == '/' || c == '\\')
    | .other => ofOther scheme rest

/-- A text as an address in its normal form, blanks around it dropped. -/
def normalise (s : Text) : Except Error Text := (parse (trim s)).map text

end Url
end StyleScope
