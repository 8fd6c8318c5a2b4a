import StyleScope.Text.Basic

/-!
# JSON: writing

Values are written over several lines, two spaces per level, with an item or a
member on a line of its own.  Only what has to be escaped is.
-/

namespace StyleScope
namespace Json

open Text

inductive Value
  | boolean (b : Bool)
  | string (s : Text)
  | list (items : List Value)
  | object (members : List (Text × Value))

def escapeChar (c : Char) : Text :=
  match c with
  | '\x22' => ['\\', '\x22']
  | '\\' => ['\\', '\\']
  | '\x08' => ['\\', 'b']
  | '\x0c' => ['\\', 'f']
  | '\n' => ['\\', 'n']
  | '\r' => ['\\', 'r']
  | '\t' => ['\\', 't']
  | c =>
    if c.toNat < 0x10 then "\\u000".toList ++ hexadecimal c.toNat
    else if c.toNat < 0x20 then "\\u00".toList ++ hexadecimal c.toNat
    else [c]

def quote (s : Text) : Text := '\x22' :: s.flatMap escapeChar ++ ['\x22']

def lineBreak (level : Nat) : Text := '\n' :: List.replicate (2 * level) ' '

mutual
/-- A value that starts on a line of the given level. -/
def Value.pretty (level : Nat) : Value → Text
  | .boolean b => (if b then "true" else "false").toList
  | .string s => quote s
  | .list [] => "[]".toList
  | .list (v :: vs) =>
    '[' :: lineBreak (level + 1) ++ v.pretty (level + 1) ++ prettyItems level vs ++
      lineBreak level ++ [']']
  | .object [] => "\x7b\x7d".toList
  | .object ((k, v) :: ms) =>
    '\x7b' :: lineBreak (level + 1) ++ quote k ++ ": ".toList ++ v.pretty (level + 1) ++
      prettyMembers level ms ++ lineBreak level ++ ['\x7d']

def prettyItems (level : Nat) : List Value → Text
  | [] => []
  | v :: vs => ',' :: lineBreak (level + 1) ++ v.pretty (level + 1) ++ prettyItems level vs

def prettyMembers (level : Nat) : List (Text × Value) → Text
  | [] => []
  | (k, v) :: ms =>
    ',' :: lineBreak (level + 1) ++ quote k ++ ": ".toList ++ v.pretty (level + 1) ++
      prettyMembers level ms
end

end Json
end StyleScope
