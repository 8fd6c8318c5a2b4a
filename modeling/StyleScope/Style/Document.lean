import StyleScope.Style.Metadata

/-!
# Documents

A style with a scoping rule is taken apart into the text before the rule, the
list of calls, and the CSS that the rule wraps together with what follows it.
Nothing is lost but the keyword, the braces of the rule and the comments in its
list.  This is not a parser for CSS: the list ends at the first `)` that a `{`
follows, and the CSS ends at the last closing brace of the text.
-/

namespace StyleScope

open Text

structure Document where
  /-- The text before the scoping rule, or all of a style without one. -/
  preamble : Text
  /-- The list of calls, if there is a scoping rule. -/
  rule : Option Text
  /-- The CSS inside the rule and the text behind it. -/
  body : Text
  deriving DecidableEq

namespace Document

def afterUpdateKeyword? (s : Text) : Option Text :=
  (afterFolded? "@downloadurl".toList s).or
    ((afterFolded? "@installurl".toList s).or (afterFolded? "@updateurl".toList s))

def isLineEnd (c : Char) : Bool := c == '\r' || c == '\n'

def afterLastReturn? (s : Text) : Option Text :=
  if s.contains '\r' then some (s.reverse.takeWhile (· != '\r')).reverse else none

/-- A directive with an address for updates: keyword, one blank, a value of at
least one character on the line, and the line breaks after it.  On a last line
without a line feed a carriage return has to end the value. -/
def updateLine? (s : Text) : Option (Text × Text) := do
  match ← afterUpdateKeyword? s with
  | blank :: c :: rest =>
    if !isBlank blank || c == '\n' then none
    else
      match rest.dropWhile (· != '\n') with
      | [] => return ([], ← afterLastReturn? rest)
      | rest => return ([], rest.dropWhile isLineEnd)
  | _ => none

/-- Without the directives that give addresses for updates: a converted style
must not be overwritten from there. -/
def stripUpdateLines : Text → Text := substituteAll updateLine?

/-- A comment with a blank on either side, replaced by one blank. -/
def comment? : Text → Option (Text × Text)
  | b :: s =>
    if isBlank b then do
      let rest ← after? "/*".toList s
      let (_, rest) ← find? (fun t => (after? "*/".toList t).bind fun t =>
        match t with
        | c :: t => if isBlank c then some t else none
        | [] => none) rest
      return ([' '], rest)
    else none
  | [] => none

def stripComments : Text → Text := substituteAll comment?

def afterBrace? (s : Text) : Option Text :=
  match s.dropWhile isBlank with
  | '\x7b' :: rest => some rest
  | _ => none

/-- The end of a list of calls: a `)` and, blanks aside, the `{`.  What follows
the `{` is returned. -/
def listEnd? : Text → Option Text
  | ')' :: s => afterBrace? s
  | _ => none

/-- The text before the last closing brace, which may not be empty, and the text
behind it. -/
def splitAtLastBrace? (s : Text) : Option (Text × Text) :=
  let tail := (s.reverse.takeWhile (· != '\x7d')).reverse
  match (s.reverse.dropWhile (· != '\x7d')).tail with
  | [] => none
  | css => some (css.reverse, tail)

/-- The parts of a scoping rule behind its keyword: the list of calls, the CSS in
the braces and the text behind them. -/
def ruleParts? : Text → Option (Text × Text × Text)
  | b :: c :: s =>
    if isBlank b then do
      let (list, rest) ← find? listEnd? s
      let (css, tail) ← splitAtLastBrace? rest
      return (b :: c :: list ++ [')'], css, tail)
    else none
  | _ => none

/-- Without blanks and a closing brace at the start, which are what is left of a
rule around nothing. -/
def dropEmptyClose (css : Text) : Text :=
  match afterBlanks? css with
  | some ('\x7d' :: rest) => rest
  | _ => css

def extract (style : Text) : Except Refusal Document :=
  let s := stripUpdateLines style
  if Section.isGlobal s then .ok ⟨s, none, []⟩
  else
    match find? (fun t => (Section.afterKeyword? t).bind ruleParts?) s with
    | some (preamble, list, css, tail) =>
      .ok ⟨preamble, some (trim (stripComments list)), dropEmptyClose css ++ tail⟩
    | none => .error .unparseableRule

def isGlobal (doc : Document) : Bool := doc.rule.isNone

def matchDirective? (s : Text) : Option Char := do
  let rest := (after? "@match".toList s).or (after? "@include".toList s)
  (← afterBlanks? (← rest)).head?

def hasMatchDirectives (doc : Document) : Bool :=
  occurs matchDirective? doc.preamble || occurs matchDirective? doc.body

/-- One more closing brace when there are more opening ones. -/
def balance (s : Text) : Text :=
  if s.count '\x7d' < s.count '\x7b' then s ++ ['\x7d'] else s

/-- The style put together again, without the scoping rule.  A brace that its
removal left open is closed. -/
def text (doc : Document) : Text :=
  let s := doc.preamble ++ doc.body
  if doc.isGlobal then s else balance s

end Document
end StyleScope
