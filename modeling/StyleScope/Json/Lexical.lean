import StyleScope.Text.Utf8

/-!
# JSON: strings and numbers

Reading JSON fails in one of three ways: the text ends too early, it is not JSON, or it is JSON
of another shape than the one that is wanted.  Everything is read from left to right, and the
first fault counts.

A number that is used has to be in the range of binary floating point with 53 bits, even where
only an integer is wanted and the number is therefore of the wrong kind anyway.  Of a number
that is skipped only the spelling counts, and there the end of the text is a wrong character
like any other.
-/

namespace StyleScope
namespace Json

open Text

inductive Fault
  /-- It ends before a value does. -/
  | truncated
  /-- It is not JSON. -/
  | malformed
  /-- It is JSON of another shape than the one that is wanted. -/
  | mismatched
  deriving DecidableEq

/-- A reader returns a value and what follows it. -/
abbrev Read (α : Type) := Text → Except Fault (α × Text)

def skipSpace (s : Text) : Text :=
  s.dropWhile fun c => c == ' ' || c == '\n' || c == '\t' || c == '\r'

def word : Text → Text → Except Fault Text
  | [], s => .ok s
  | _ :: _, [] => .error .truncated
  | w :: ws, c :: s => if c = w then word ws s else .error .malformed

/-- The number of an escape in four hexadecimal digits.  Four octets that are no
such digits are wrong; fewer than four are too few. -/
def hexCode : Read Nat := fun s =>
  match (s.take 4).mapM hexDigit? with
  | some [a, b, c, d] => .ok (valueOf 16 [a, b, c, d], s.drop 4)
  | _ => .error (if (Utf8.encode (s.take 4)).length < 4 then .truncated else .malformed)

def isHighSurrogate (n : Nat) : Bool := 0xD800 ≤ n && n ≤ 0xDBFF

def isLowSurrogate (n : Nat) : Bool := 0xDC00 ≤ n && n ≤ 0xDFFF

def pairCode (high low : Nat) : Nat := 0x10000 + (high - 0xD800) * 0x400 + (low - 0xDC00)

/-- The code point of a `u` escape; one half of a pair needs the other half behind
it. -/
def codePoint : Read Char := fun s => do
  let (n, s) ← hexCode s
  if isLowSurrogate n then .error .malformed
  else if isHighSurrogate n then
    let s ← word "\\u".toList s
    let (m, s) ← hexCode s
    if isLowSurrogate m then return (Char.ofNat (pairCode n m), s) else .error .malformed
  else return (Char.ofNat n, s)

def shortEscapes : List (Char × Char) :=
  [('\x22', '\x22'), ('\\', '\\'), ('/', '/'), ('b', '\x08'), ('f', '\x0c'), ('n', '\n'),
   ('r', '\r'), ('t', '\t')]

/-- An escape, from behind its backslash.  Where the string is not `kept` a `u`
escape need not stand for a code point. -/
def escape (kept : Bool) : Read Text
  | [] => .error .truncated
  | 'u' :: s =>
    if kept then (codePoint s).map fun (c, s) => ([c], s)
    else (hexCode s).map fun (_, s) => ([], s)
  | c :: s =>
    match shortEscapes.lookup c with
    | some e => .ok ([e], s)
    | none => .error .malformed

def stringBody (kept : Bool) : Nat → Read Text
  | _, [] => .error .truncated
  | 0, _ => .error .malformed
  | n + 1, c :: s =>
    if c == '\x22' then .ok ([], s)
    else if c == '\\' then do
      let (e, s) ← escape kept s
      let (body, s) ← stringBody kept n s
      return (e ++ body, s)
    else if c.toNat < 0x20 then .error .malformed
    else do
      let (body, s) ← stringBody kept n s
      return (c :: body, s)

def quoted (kept : Bool) : Read Text := fun s => stringBody kept s.length s

/-! ## Numbers -/

def maxInteger : Nat := 0xFFFFFFFFFFFFFFFF

inductive Number
  /-- An integer that is not negative and not too large. -/
  | natural (n : Nat)
  /-- Any other number. -/
  | other
  deriving DecidableEq

/-- The nearest number with 53 significant bits; a tie goes to the even one. -/
def roundToBinary (n : Nat) : Nat :=
  let shift := n.log2 + 1 - 53
  let unit := 1 <<< shift
  let up := 2 * (n % unit) > unit || (2 * (n % unit) == unit && n / unit % 2 == 1)
  (n / unit + if up then 1 else 0) * unit

/-- Is `significand` times a power of ten beyond the largest finite number?  Both
factors and their product are rounded. -/
def exceedsRange (significand : Nat) (exponent : Int) : Bool :=
  significand != 0 && 0 ≤ exponent &&
    (308 < exponent ||
      roundToBinary significand * roundToBinary (Nat.pow 10 exponent.toNat) ≥
        (1 <<< 1024) - (1 <<< 970))

/-- Take digits into a significand as long as it stays within the integers.  The
number of digits that are left over comes with it. -/
def absorb (significand : Nat) : List Nat → Nat × Nat
  | [] => (significand, 0)
  | d :: ds =>
    if significand * 10 + d > maxInteger then (significand, (d :: ds).length)
    else absorb (significand * 10 + d) ds

def digitsOf (s : Text) : List Nat := (s.takeWhile Char.isDigit).filterMap digit?

/-- A number that is not an integer, unless it is out of range. -/
def inRange (significand : Nat) (exponent : Int) (rest : Text) : Except Fault (Number × Text) :=
  if exceedsRange significand exponent then .error .malformed else .ok (.other, rest)

def exponentPart (significand : Nat) (start : Int) (s : Text) : Except Fault (Number × Text) :=
  let (negative, s) :=
    match s with
    | '+' :: s => (false, s)
    | '-' :: s => (true, s)
    | s => (false, s)
  match s with
  | [] => .error .truncated
  | c :: _ =>
    if c.isDigit then
      let e : Int := valueOf 10 (digitsOf s)
      inRange significand (if negative then start - e else start + e)
        (s.dropWhile Char.isDigit)
    else .error .malformed

def maybeExponent (significand : Nat) (exponent : Int) : Read Number
  | 'e' :: s => exponentPart significand exponent s
  | 'E' :: s => exponentPart significand exponent s
  | s => inRange significand exponent s

def fractionPart (significand : Nat) (exponent : Int) (s : Text) : Except Fault (Number × Text) :=
  match s with
  | [] => .error .truncated
  | c :: _ =>
    if c.isDigit then
      let digits := digitsOf s
      let (significand, left) := absorb significand digits
      maybeExponent significand (exponent - (digits.length - left : Nat))
        (s.dropWhile Char.isDigit)
    else .error .malformed

/-- What follows the integer part: its significand, and how many of its digits
were left over. -/
def afterInteger (negative : Bool) (significand left : Nat) : Read Number
  | '.' :: s => fractionPart significand left s
  | 'e' :: s => exponentPart significand left s
  | 'E' :: s => exponentPart significand left s
  | s =>
    if left ≠ 0 then inRange significand left s
    else .ok (if negative then .other else .natural significand, s)

def number (negative : Bool) : Read Number
  | [] => .error .truncated
  | '0' :: s =>
    if s.head?.any Char.isDigit then .error .malformed else afterInteger negative 0 0 s
  | c :: s =>
    if c.isDigit then
      let (significand, left) := absorb 0 (digitsOf (c :: s))
      afterInteger negative significand left (s.dropWhile Char.isDigit)
    else .error .malformed

def skipDigits (s : Text) : Except Fault Text :=
  if s.head?.any Char.isDigit then .ok (s.dropWhile Char.isDigit) else .error .malformed

def skipExponent : Text → Except Fault Text
  | '+' :: s => skipDigits s
  | '-' :: s => skipDigits s
  | s => skipDigits s

/-- What follows a fraction and an exponent, either of which may be missing. -/
def skipFraction : Text → Except Fault Text
  | '.' :: s =>
    match skipDigits s with
    | .ok ('e' :: s) => skipExponent s
    | .ok ('E' :: s) => skipExponent s
    | result => result
  | 'e' :: s => skipExponent s
  | 'E' :: s => skipExponent s
  | s => .ok s

def skipNumber : Text → Except Fault Text
  | '0' :: s => if s.head?.any Char.isDigit then .error .malformed else skipFraction s
  | s => (skipDigits s).bind skipFraction

end Json
end StyleScope
