import StyleScope.Url.Basic
import StyleScope.Url.Ip

/-!
# Hosts

The host of a special scheme is a domain name or an IP address.  Domain names are written in
small letters, and labels that are not ASCII in Punycode.  Only the letters of ASCII are folded:
a label with other letters has to be in small letters already.  Other schemes take any host as it
is.

In Punycode the ASCII characters of a label come first and, if there are any, a hyphen ends
them.  For every other character, in the order of their numbers, a variable-length number says
how far the spelling moves on, counting places and code points together.
-/

namespace StyleScope
namespace Url

/-! ## Punycode -/

namespace Punycode

def base : Nat := 36

def initialBias : Nat := 72

def initialCode : Nat := 128

/-- Divide until the number is small; the steps, 36 for each, come with it. -/
def shrink : Nat → Nat → Nat → Nat × Nat
  | 0, delta, k => (delta, k)
  | n + 1, delta, k =>
    if delta > 455 then shrink n (delta / 35) (k + base) else (delta, k)

/-- The bias after a number `delta` has been written for the one of `points`
characters; the very first number says less about the next. -/
def adapt (delta points : Nat) (isFirst : Bool) : Nat :=
  let delta := if isFirst then delta / 700 else delta / 2
  let delta := delta + delta / points
  let (delta, k) := shrink delta delta 0
  k + base * delta / (delta + 38)

/-- The least digit at a place that does not end a number. -/
def threshold (k bias : Nat) : Nat :=
  if k ≤ bias + 1 then 1 else if k ≥ bias + 26 then 26 else k - bias

def digitChar (d : Nat) : Char :=
  if d < 26 then Char.ofNat (0x61 + d) else Char.ofNat (0x30 + (d - 26))

def digitValue? (c : Char) : Option Nat :=
  if 'a' ≤ c ∧ c ≤ 'z' then some (c.toNat - 0x61)
  else if '0' ≤ c ∧ c ≤ '9' then some (c.toNat - 0x30 + 26)
  else none

def writeNumber (bias : Nat) : Nat → Nat → Nat → Text
  | 0, _, q => [digitChar q]
  | n + 1, k, q =>
    let t := threshold k bias
    if q < t then [digitChar q]
    else
      digitChar (t + (q - t) % (base - t)) ::
        writeNumber bias n (k + base) ((q - t) / (base - t))

structure Writer where
  /-- The next code point to write. -/
  code : Nat
  /-- The places passed since the last number. -/
  delta : Nat
  bias : Nat
  /-- The characters written. -/
  handled : Nat
  /-- The ASCII characters of the label. -/
  basic : Nat
  /-- What has been written. -/
  output : Text

/-- Pass one character of the label: an earlier one counts as a place, the
current one is written. -/
def Writer.pass (w : Writer) (c : Nat) : Writer :=
  if c < w.code then { w with delta := w.delta + 1 }
  else if c = w.code then
    { w with
      output := w.output ++ writeNumber w.bias (w.delta + 1) base w.delta
      bias := adapt w.delta (w.handled + 1) (w.handled == w.basic)
      delta := 0
      handled := w.handled + 1 }
  else w

def Writer.passAll (label : List Nat) (w : Writer) (code : Nat) : Writer :=
  let w := { w with delta := w.delta + (code - w.code) * (w.handled + 1), code := code }
  let w := label.foldl Writer.pass w
  { w with delta := w.delta + 1, code := w.code + 1 }

def isBasic (c : Nat) : Bool := c < initialCode

def extended (label : List Nat) : List Nat :=
  ((label.filter (!isBasic ·)).mergeSort (· ≤ ·)).eraseDups

/-- A label in ASCII, without the mark that goes in front. -/
def encode (label : Text) : Text :=
  let codes := label.map Char.toNat
  let basic := label.filter fun c => isBasic c.toNat
  let start : Text := if basic.isEmpty then [] else basic ++ ['-']
  ((extended codes).foldl (Writer.passAll codes)
    ⟨initialCode, 0, initialBias, basic.length, basic.length, start⟩).output

structure Reader where
  /-- The code point reached. -/
  code : Nat
  /-- The place reached. -/
  place : Nat
  bias : Nat
  /-- The place before the number that is being read. -/
  start : Nat
  /-- The weight of the next digit. -/
  weight : Nat
  /-- The place of the next digit, in steps of 36. -/
  k : Nat
  /-- The characters read. -/
  output : Text

/-- Read digits up to the end, which has to end a number. -/
def Reader.run (r : Reader) : List Nat → Option Text
  | [] => if r.k = base then some r.output else none
  | d :: digits =>
    let place := r.place + d * r.weight
    let t := threshold r.k r.bias
    if d < t then
      let points := r.output.length + 1
      let code := r.code + place / points
      if h : code.isValidChar then
        let i := place % points
        Reader.run
          { code := code
            place := i + 1
            bias := adapt (place - r.start) points (r.start == 0)
            start := i + 1
            weight := 1
            k := base
            output := r.output.take i ++ Char.ofNatAux code h :: r.output.drop i } digits
      else none
    else
      Reader.run { r with place := place, weight := r.weight * (base - t), k := r.k + base }
        digits

def decode? (s : Text) : Option Text := do
  let basic := ((s.reverse.dropWhile (· != '-')).tail).reverse
  let digits ← ((s.reverse.takeWhile (· != '-')).reverse).mapM digitValue?
  Reader.run ⟨initialCode, 0, initialBias, 0, 1, base, basic⟩ digits

end Punycode

/-! ## Hosts -/

namespace Host

open Text

def punycodeMark : Text := "xn--".toList

/-- Code points that stand for no character of a text: controls, those for private
use, specials, and those that end a plane. -/
def isNoLetter (c : Char) : Bool :=
  let n := c.toNat
  n ≤ 0x1F || (0x7F ≤ n && n ≤ 0x9F) || (0xE000 ≤ n && n ≤ 0xF8FF) ||
    (0xFFF9 ≤ n && n ≤ 0xFFFF) || 0xF0000 ≤ n || 0xFFFE ≤ n % 0x10000

def isForbidden (c : Char) : Bool :=
  isNoLetter c ||
    [' ', '%', '#', '/', ':', '<', '>', '?', '@', '[', '\\', ']', '^', '|'].contains c

def isExtended (label : Text) : Bool := label.any fun c => c.toNat ≥ 0x80

/-- A label in ASCII.  One that is marked as Punycode already has to stand for a
label that needs it. -/
def labelToAscii? (label : Text) : Option Text :=
  match after? punycodeMark label with
  | some rest =>
    if isExtended rest then none
    else if (Punycode.decode? rest).any fun s => isExtended s && !s.any isForbidden then
      some label
    else none
  | none => some (if isExtended label then punycodeMark ++ Punycode.encode label else label)

def domainToAscii? (s : Text) : Option Text :=
  let s := s.map Char.toLower
  if s.any isForbidden then none
  else ((List.splitOn '.' s).mapM labelToAscii?).map (List.intercalate ['.'])

/-- The host in brackets: an IPv6 address.  The opening bracket is taken off
already. -/
def bracketed (s : Text) : Except Error Text :=
  if s.getLast? = some ']' then
    match Ipv6.parse? s.dropLast with
    | some pieces => .ok ('[' :: Ipv6.write pieces ++ [']'])
    | none => .error .invalidIpv6
  else .error .invalidIpv6

def ofSpecial : Text → Except Error Text
  | '[' :: s => bracketed s
  | s =>
    match (Utf8.decode? (Percent.decode s)).bind domainToAscii? with
    | none => .error .invalidDomainName
    | some domain =>
      if domain.isEmpty then .error .emptyHost
      else if Ipv4.endsInNumber domain then
        match Ipv4.parse? domain with
        | some address => .ok (Ipv4.write address)
        | none => .error .invalidIpv4
      else .ok domain

def isInvalid (c : Char) : Bool :=
  ['\x00', '\t', '\n', '\r', ' ', '#', '/', ':', '<', '>', '?', '@', '[', '\\', ']', '^',
    '|'].contains c

def ofOther : Text → Except Error Text
  | '[' :: s => bracketed s
  | s =>
    if s.any isInvalid then .error .invalidDomainCharacter
    else .ok (Percent.encode Percent.control s)

end Host
end Url
end StyleScope
