import StyleScope.Text.Basic

/-!
# CSS tokens

The lexical structure of a style sheet: identifiers with their escapes resolved,
keywords behind `@`, names behind `#`, numbers, and single marks for all else.
White space is one token however long it is, and so is a comment.  A comment
that is not closed runs to the end.
-/

namespace StyleScope
namespace Css

open Text

inductive Token
  /-- An identifier, escapes resolved. -/
  | ident (name : Text)
  /-- A keyword behind `@`. -/
  | atKeyword (name : Text)
  /-- A name behind `#`; `isId` says that it is an identifier. -/
  | hash (name : Text) (isId : Bool)
  /-- A number as it is written, its unit included. -/
  | number (written : Text)
  /-- A single character. -/
  | mark (c : Char)
  /-- White space. -/
  | blank
  /-- A comment. -/
  | comment
  deriving DecidableEq

namespace Token

def isSpace (c : Char) : Bool :=
  c == ' ' || c == '\t' || c == '\n' || c == '\r' || c == '\x0c'

def isNewline (c : Char) : Bool := c == '\n' || c == '\r' || c == '\x0c'

/-- The characters with which a name can start, escapes aside. -/
def isNameStart (c : Char) : Bool :=
  c.isAlpha || c == '_' || c.toNat ≥ 0x80 || c == '\x00'

def isNameChar (c : Char) : Bool := isNameStart c || c.isDigit || c == '-'

def startsEscape : Text → Bool
  | '\\' :: c :: _ => !isNewline c
  | _ => false

def startsIdent : Text → Bool
  | '-' :: c :: s => isNameStart c || c == '-' || startsEscape (c :: s)
  | c :: s => isNameStart c || startsEscape (c :: s)
  | [] => false

def replacement : Char := '\ufffd'

/-- The character with a number, as far as it can stand in a sheet. -/
def charOfCode (n : Nat) : Char :=
  if h : n ≠ 0 ∧ n.isValidChar then Char.ofNatAux n h.2 else replacement

/-- Without the one white space that may end a numeric escape. -/
def dropOneSpace : Text → Text
  | '\r' :: '\n' :: s => s
  | c :: s => if isSpace c then s else c :: s
  | [] => []

/-- The character of an escape, behind its backslash, and what follows it. -/
def escaped (s : Text) : Char × Text :=
  match (s.take 6).takeWhile fun c => (hexDigit? c).isSome with
  | [] =>
    match s with
    | c :: s => (if c == '\x00' then replacement else c, s)
    | [] => (replacement, [])
  | digits =>
    (charOfCode (valueOf 16 (digits.filterMap hexDigit?)),
      dropOneSpace (s.drop digits.length))

/-- The name that starts a text, of at most `n` characters, and what follows
it. -/
def nameOf : Nat → Text → Text × Text
  | 0, s => ([], s)
  | _ + 1, [] => ([], [])
  | n + 1, c :: s =>
    if isNameChar c then
      let (name, rest) := nameOf n s
      ((if c == '\x00' then replacement else c) :: name, rest)
    else if startsEscape (c :: s) then
      let (e, rest) := escaped s
      let (name, rest) := nameOf n rest
      (e :: name, rest)
    else ([], c :: s)

def name (s : Text) : Text × Text := nameOf s.length s

def startsNumber : Text → Bool
  | '+' :: '.' :: c :: _ => c.isDigit
  | '-' :: '.' :: c :: _ => c.isDigit
  | '+' :: c :: _ => c.isDigit
  | '-' :: c :: _ => c.isDigit
  | '.' :: c :: _ => c.isDigit
  | c :: _ => c.isDigit
  | [] => false

/-- The sign, digits and decimal point that start a text, and what follows. -/
def digits (s : Text) : Text × Text :=
  let (sign, s) :=
    match s with
    | '+' :: s => (['+'], s)
    | '-' :: s => (['-'], s)
    | s => ([], s)
  let whole := s.takeWhile Char.isDigit
  match s.dropWhile Char.isDigit with
  | '.' :: c :: s =>
    if c.isDigit then
      (sign ++ whole ++ '.' :: c :: s.takeWhile Char.isDigit, s.dropWhile Char.isDigit)
    else (sign ++ whole, '.' :: c :: s)
  | s => (sign ++ whole, s)

def number? (s : Text) : Text × Text :=
  let (written, rest) := digits s
  match rest with
  | '%' :: rest => (written ++ ['%'], rest)
  | rest =>
    if startsIdent rest then
      let (unit, rest) := name rest
      (written ++ unit, rest)
    else (written, rest)

def afterComment : Text → Text
  | '*' :: '/' :: s => s
  | _ :: s => afterComment s
  | [] => []

def first (c : Char) (s : Text) : Token × Text :=
  if isSpace c then (.blank, s.dropWhile isSpace)
  else if startsNumber (c :: s) then
    let (written, rest) := number? (c :: s)
    (.number written, rest)
  else if startsIdent (c :: s) then
    let (name, rest) := name (c :: s)
    (.ident name, rest)
  else
    match c, s with
    | '/', '*' :: s => (.comment, afterComment s)
    | '#', d :: s =>
      if isNameChar d || startsEscape (d :: s) then
        let (name, rest) := name (d :: s)
        (.hash name (startsIdent (d :: s)), rest)
      else (.mark '#', d :: s)
    | '@', s =>
      if startsIdent s then
        let (name, rest) := name s
        (.atKeyword name, rest)
      else (.mark '@', s)
    | c, s => (.mark c, s)

def takeTokens : Nat → Text → List Token
  | 0, _ => []
  | _ + 1, [] => []
  | n + 1, c :: s =>
    let (token, rest) := first c s
    token :: takeTokens n rest

/-- The tokens of a text: every token takes at least one character. -/
def ofText (s : Text) : List Token := takeTokens s.length s

end Token

namespace Ident

/-- A character by its number.  The space ends the number. -/
def numbered (c : Char) : Text := '\\' :: hexadecimal c.toNat ++ [' ']

def writeChar (c : Char) : Text :=
  if c == '\x00' then [Token.replacement]
  else if Token.isNameChar c then [c]
  else if c.toNat < 0x20 || c.toNat == 0x7F then numbered c
  else ['\\', c]

/-- The rest of a name, where digits need no escape. -/
def writeName (s : Text) : Text := s.flatMap writeChar

/-- A name from where a digit would make it a number. -/
def writeStart : Text → Text
  | c :: s => if c.isDigit then numbered c ++ writeName s else writeName (c :: s)
  | [] => []

def write : Text → Text
  | '-' :: '-' :: s => '-' :: '-' :: writeName s
  | ['-'] => ['\\', '-']
  | '-' :: s => '-' :: writeStart s
  | s => writeStart s

end Ident
end Css
end StyleScope
