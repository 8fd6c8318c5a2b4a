import StyleScope.Text.Scan
import StyleScope.Text.Utf8

/-!
# Addresses

An address in parts, each already in the form in which it is written, and the reasons for which
a text is no address.  A path is resolved segment by segment: `.` stays where it is and `..`
takes the last segment back, percent-encoded dots included.  In `file` addresses a drive letter
such as `C:` at the start is never taken back.
-/

namespace StyleScope

structure Url.Authority where
  /-- User name and password with the `@` behind them, or nothing. -/
  credentials : Text
  host : Text
  port : Option Nat
  deriving DecidableEq

structure Url where
  scheme : Text
  authority : Option Url.Authority
  path : Text
  query : Option Text
  fragment : Option Text
  deriving DecidableEq

namespace Url

inductive Error
  | emptyHost
  | invalidDomainName
  | invalidPort
  | invalidIpv4
  | invalidIpv6
  | invalidDomainCharacter
  | relativeWithoutBase
  deriving DecidableEq

def Error.reason : Error → Text
  | .emptyHost => "empty host".toList
  | .invalidDomainName => "invalid international domain name".toList
  | .invalidPort => "invalid port number".toList
  | .invalidIpv4 => "invalid IPv4 address".toList
  | .invalidIpv6 => "invalid IPv6 address".toList
  | .invalidDomainCharacter => "invalid domain character".toList
  | .relativeWithoutBase => "relative URL without a base".toList

def Error.message (e : Error) : Text := "URL parse failed: ".toList ++ e.reason

/-- A part with the mark in front of it, if the part is there. -/
def marked (mark : Char) : Option Text → Text
  | some s => mark :: s
  | none => []

def Authority.text (a : Authority) : Text :=
  "//".toList ++ a.credentials ++ a.host ++ marked ':' (a.port.map Text.decimal)

/-- What goes in front of a path: without an authority a path that starts with
`//` would be taken for one. -/
def pathGuard (url : Url) : Text :=
  if url.authority.isNone && (Text.after? "//".toList url.path).isSome then "/.".toList else []

def text (url : Url) : Text :=
  url.scheme ++ [':'] ++ (url.authority.map Authority.text).getD [] ++ url.pathGuard ++
    url.path ++ marked '?' url.query ++ marked '#' url.fragment

/-! ## Escapes -/

namespace Percent

open Text

abbrev EncodeSet := Char → Bool

def control : EncodeSet := fun c => c.toNat < 0x20 || c.toNat == 0x7F

def fragment : EncodeSet := fun c => control c || [' ', '\x22', '<', '>', '\x60'].contains c

def path : EncodeSet := fun c => fragment c || ['#', '?', '\x7b', '\x7d'].contains c

def userInfo : EncodeSet := fun c =>
  path c || ['/', ':', ';', '=', '@', '[', '\\', ']', '^', '|'].contains c

def query : EncodeSet := fun c => control c || [' ', '\x22', '#', '<', '>'].contains c

def specialQuery : EncodeSet := fun c => query c || c == '\x27'

def octet (b : UInt8) : Text :=
  ['%', (Nat.digitChar (b.toNat / 16)).toUpper, (Nat.digitChar (b.toNat % 16)).toUpper]

def encode (set : EncodeSet) (s : Text) : Text :=
  s.flatMap fun c =>
    if set c || c.toNat ≥ 0x80 then (String.utf8EncodeChar c).flatMap octet else [c]

/-- The octets of a text with its escapes resolved.  A `%` without two digits
stands for itself. -/
def decode : Text → List UInt8
  | '%' :: a :: b :: s =>
    match hexDigit? a, hexDigit? b with
    | some x, some y => UInt8.ofNat (16 * x + y) :: decode s
    | _, _ => 0x25 :: decode (a :: b :: s)
  | c :: s => String.utf8EncodeChar c ++ decode s
  | [] => []

end Percent

/-! ## Paths -/

namespace Path

open Text

/-- Does a text read `C:` or `C|`, for some letter? -/
def isDriveLetter : Text → Bool
  | [a, b] => a.isAlpha && (b == ':' || b == '|')
  | _ => false

/-- Does a text start with a drive letter that ends there? -/
def startsWithDriveLetter : Text → Bool
  | [a, b] => isDriveLetter [a, b]
  | a :: b :: c :: _ => isDriveLetter [a, b] && ['/', '\\', '?', '#'].contains c
  | _ => false

def isDoubleDot (segment : Text) : Bool :=
  ["..", "%2e.", ".%2e", "%2e%2e"].any fun s => s.toList == segment.map Char.toLower

def isSingleDot (segment : Text) : Bool :=
  [".", "%2e"].any fun s => s.toList == segment.map Char.toLower

def throughLastSlash (path : Text) : Text := (path.reverse.dropWhile (· != '/')).reverse

def afterLastSlash (path : Text) : Text := (path.reverse.takeWhile (· != '/')).reverse

/-- Does the slash that ends a path end a segment that may be taken back?  The
first slash ends none, and a drive letter stays. -/
def endsRemovable (path : Text) : Bool :=
  path.dropLast.contains '/' &&
    !startsWithDriveLetter (afterLastSlash path.dropLast ++ ['/'])

def takeBack (isFile : Bool) (path : Text) : Text :=
  let path := if path.getLast? = some '/' ∧ endsRemovable path then path.dropLast else path
  if isFile && isDriveLetter (afterLastSlash path) then path else throughLastSlash path

def withSlash (path : Text) : Text :=
  if path.getLast? = some '/' then path else path ++ ['/']

/-- One segment added to a path; `closed` says that a slash follows it.  Whether
it is a drive letter at the start of a `file` address is told as well. -/
def addSegment (isFile : Bool) (path segment : Text) (closed : Bool) : Text × Bool :=
  let slash : Text := if closed then ['/'] else []
  if isDoubleDot segment then
    (if closed then withSlash (takeBack isFile path) else takeBack isFile path, false)
  else if isSingleDot segment then (withSlash path, false)
  else if isFile && path.length == 1 && isDriveLetter segment then
    (path ++ segment.take 1 ++ [':'] ++ slash, true)
  else (path ++ segment ++ slash, false)

def addSegments (isFile : Bool) (path : Text) : List Text → Text × Bool
  | [] => (path, false)
  | segment :: segments =>
    let (path, drive) :=
      addSegment isFile path (Percent.encode Percent.path segment) (!segments.isEmpty)
    let (path, drives) := addSegments isFile path segments
    (path, drive || drives)

def isEnd (c : Char) : Bool := c == '?' || c == '#'

def slashed (s : Text) : Text := s.map fun c => if c == '\\' then '/' else c

/-- The path that starts with `path` and goes on with a text, in which special
schemes also take backslashes for slashes. -/
def resolve (isSpecial isFile : Bool) (path s : Text) : Text × Bool :=
  addSegments isFile path (List.splitOn '/' (if isSpecial then slashed s else s))

def singleSlash (path : Text) : Text := '/' :: path.dropWhile (· == '/')

end Path
end Url
end StyleScope
