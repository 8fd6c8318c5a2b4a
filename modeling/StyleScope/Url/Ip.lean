import StyleScope.Text.Basic
import StyleScope.Text.Scan

/-!
# IP addresses

An IPv4 address has up to four numbers, decimal, octal behind `0` or hexadecimal behind `0x`.
The last number fills the octets that are left.  An IPv6 address has eight pieces of four
hexadecimal digits.  In one place `::` stands for as many zero pieces as are missing, and the
last two pieces may be written as an IPv4 address.
-/

namespace StyleScope
namespace Url
namespace Ipv4

open Text

def ofDigits? (base : Nat) (s : Text) : Option Nat := do
  let digits ← s.mapM hexDigit?
  if digits.all (· < base) then some (valueOf base digits) else none

/-- A number of an address.  After `0x`, and after a `0`, nothing means zero. -/
def number? : Text → Option Nat
  | [] => none
  | '0' :: 'x' :: s => ofDigits? 16 s
  | '0' :: 'X' :: s => ofDigits? 16 s
  | ['0'] => some 0
  | '0' :: s => ofDigits? 8 s
  | s => ofDigits? 10 s

def parts (s : Text) : List Text :=
  match (List.splitOn '.' s).reverse with
  | [] :: p :: ps => (p :: ps).reverse
  | ps => ps.reverse

/-- Is a host meant as an address?  Its last part decides. -/
def endsInNumber (s : Text) : Bool :=
  match (parts s).getLast? with
  | some part => (!part.isEmpty && part.all Char.isDigit) || (number? part).isSome
  | none => false

/-- The address of numbers, the last of which fills the octets that are left. -/
def combine? (numbers : List Nat) : Option Nat :=
  match numbers.reverse with
  | last :: firsts =>
    let bound := Nat.pow 256 (4 - firsts.length)
    if firsts.length ≤ 3 ∧ firsts.all (· ≤ 255) ∧ last < bound then
      some (valueOf 256 firsts.reverse * bound + last)
    else none
  | [] => none

def parse? (s : Text) : Option Nat := ((parts s).mapM number?).bind combine?

def write (address : Nat) : Text :=
  List.intercalate ['.']
    ([address / 0x1000000, address / 0x10000 % 256, address / 0x100 % 256, address % 256].map
      decimal)

end Ipv4

namespace Ipv6

open Text

/-- An octet in decimal digits without leading zeros. -/
def octet? (s : Text) : Option Nat :=
  match s with
  | [] => none
  | '0' :: _ :: _ => none
  | s => do
    let n := valueOf 10 (← s.mapM digit?)
    if n ≤ 255 then some n else none

def embedded? (s : Text) : Option (List Nat) := do
  match ← (List.splitOn '.' s).mapM octet? with
  | [a, b, c, d] => return [256 * a + b, 256 * c + d]
  | _ => none

/-- The pieces of an address behind `seen`, reading at most `n` of them.  A `::`
counts as one piece; where the pieces behind it start is returned with them. -/
def pieces? : Nat → List Nat → Option Nat → Text → Option (List Nat × Option Nat)
  | _, seen, gap, [] => some (seen, gap)
  | 0, _, _, _ => none
  | n + 1, seen, gap, c :: s =>
    if seen.length = 8 then none
    else if c = ':' then
      if gap.isSome then none else pieces? n (seen ++ [0]) (some (seen.length + 1)) s
    else
      let digits := ((c :: s).take 4).takeWhile fun d => (hexDigit? d).isSome
      let value := valueOf 16 (digits.filterMap hexDigit?)
      match (c :: s).drop digits.length with
      | [] => some (seen ++ [value], gap)
      | '.' :: _ =>
        if digits.isEmpty ∨ seen.length > 6 then none
        else (embedded? (c :: s)).map fun two => (seen ++ two, gap)
      | [':'] => none
      | ':' :: rest => pieces? n (seen ++ [value]) gap rest
      | _ => none

def parse? (s : Text) : Option (List Nat) := do
  let (seen, gap) ←
    match s with
    | ':' :: ':' :: s => pieces? s.length [0] (some 1) s
    | ':' :: _ => none
    | [_] => none
    | [] => none
    | s => pieces? s.length [] none s
  match gap with
  | some i => return seen.take i ++ List.replicate (8 - seen.length) 0 ++ seen.drop i
  | none => if seen.length = 8 then some seen else none

def zeroRun (pieces : List Nat) : Nat := (pieces.takeWhile (· == 0)).length

/-- Where the longest run of zeros starts and how long it is; of runs of one
length the first. -/
def longestRun : List Nat → Nat × Nat
  | [] => (0, 0)
  | p :: ps =>
    let (i, n) := longestRun ps
    if zeroRun (p :: ps) ≥ n then (0, zeroRun (p :: ps)) else (i + 1, n)

def writePieces (pieces : List Nat) : Text :=
  List.intercalate [':'] (pieces.map hexadecimal)

/-- An address as it is written: the first of the longest runs of zeros, when it
has at least two, becomes `::`. -/
def write (pieces : List Nat) : Text :=
  let (i, n) := longestRun pieces
  if n < 2 then writePieces pieces
  else writePieces (pieces.take i) ++ [':', ':'] ++ writePieces (pieces.drop (i + n))

end Ipv6
end Url
end StyleScope
