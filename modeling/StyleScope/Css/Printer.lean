import StyleScope.Css.Token

/-!
# Style sheets

The sheets that can be laid out anew: rules with selectors and declarations, `@media` blocks for
types of media, and at-rules without a block.  They are written with one declaration a line, two
spaces per level and a blank line between rules.
-/

namespace StyleScope
namespace Css

/-- The part of a compound selector that names elements. -/
inductive Element
  /-- Every element, `*`. -/
  | any
  /-- The elements of one name. -/
  | named (name : Text)
  deriving DecidableEq

inductive Condition
  /-- The element has a class. -/
  | hasClass (name : Text)
  /-- The element has an id. -/
  | hasId (name : Text)
  /-- The element is in a state such as `hover`. -/
  | inState (name : Text)
  deriving DecidableEq

/-- A selector without combinators. -/
structure Compound where
  element : Option Element
  conditions : List Condition
  deriving DecidableEq

inductive Combinator
  | descendant
  | child
  | next
  | sibling
  deriving DecidableEq

structure Selector where
  head : Compound
  tail : List (Combinator × Compound)
  deriving DecidableEq

structure Declaration where
  property : Text
  value : List Token
  important : Bool
  deriving DecidableEq

inductive Rule
  /-- Declarations for the elements that one of the selectors picks. -/
  | style (selectors : List Selector) (declarations : List Declaration)
  /-- Rules for types of media. -/
  | media (types : List Text) (rules : List Rule)
  /-- An at-rule without a block. -/
  | statement (name : Text) (prelude : List Token)

open Text

def Token.isIgnored : Token → Bool
  | .blank => true
  | .comment => true
  | _ => false

def skip (ts : List Token) : List Token := ts.dropWhile Token.isIgnored

def strip (ts : List Token) : List Token := (skip (skip ts).reverse).reverse

def cutAt (c : Char) : List Token → List (List Token)
  | [] => [[]]
  | t :: ts => if t = .mark c then [] :: cutAt c ts else (cutAt c ts).modifyHead (t :: ·)

/-! ## Selectors -/

/-- The states that are known, in small letters whatever the sheet has. -/
def knownStates : List Text :=
  ["hover", "active", "focus", "visited", "link", "target", "checked", "disabled",
   "enabled", "root", "empty"].map String.toList

/-- A name in the spelling that it is written with: known names lose their case. -/
def normalise (known : List Text) (s : Text) : Text :=
  if s.map Char.toLower ∈ known then s.map Char.toLower else s

def conditions : List Token → List Condition × List Token
  | .mark '.' :: .ident name :: ts =>
    let (cs, rest) := conditions ts
    (.hasClass name :: cs, rest)
  | .hash name true :: ts =>
    let (cs, rest) := conditions ts
    (.hasId name :: cs, rest)
  | .mark ':' :: .ident name :: ts =>
    let (cs, rest) := conditions ts
    (.inState (normalise knownStates name) :: cs, rest)
  | ts => ([], ts)

def compound? (ts : List Token) : Option (Compound × List Token) :=
  let (element, ts) :=
    match ts with
    | .ident name :: ts => (some (Element.named name), ts)
    | .mark '*' :: ts => (some Element.any, ts)
    | ts => (none, ts)
  let (cs, rest) := conditions ts
  if element.isNone && cs.isEmpty then none else some (⟨element, cs⟩, rest)

/-- The combinator that starts a list of tokens, and what follows it.  White
space alone relates descendants. -/
def combinator? (ts : List Token) : Option (Combinator × List Token) :=
  match skip ts with
  | .mark '>' :: rest => some (.child, skip rest)
  | .mark '+' :: rest => some (.next, skip rest)
  | .mark '~' :: rest => some (.sibling, skip rest)
  | rest =>
    if (ts.takeWhile Token.isIgnored).contains .blank then some (.descendant, rest) else none

/-- Combinators with compound selectors, at most `n` of them, up to the end. -/
def combined? : Nat → List Token → Option (List (Combinator × Compound))
  | _, [] => some []
  | 0, _ => none
  | n + 1, ts => do
    let (relation, ts) ← combinator? ts
    let (compound, ts) ← compound? ts
    return (relation, compound) :: (← combined? n ts)

def selector? (ts : List Token) : Option Selector := do
  let (head, rest) ← compound? (strip ts)
  return ⟨head, ← combined? rest.length rest⟩

def selectors? (ts : List Token) : Option (List Selector) :=
  (cutAt ',' ts).mapM selector?

/-! ## Declarations -/

def knownProperties : List Text :=
  ["color", "background", "margin", "padding", "top", "display", "font-weight"].map
    String.toList

def Token.lowered : Token → Token
  | .ident name => .ident (name.map Char.toLower)
  | .hash name isId => .hash (name.map Char.toLower) isId
  | t => t

def Token.isValue : Token → Bool
  | .ident _ => true
  | .atKeyword _ => true
  | .hash _ _ => true
  | .number _ => true
  | .mark c => c == ','
  | .blank => true
  | .comment => true

/-- White space and comments between tokens as single white space, and none next
to a comma. -/
def spaced : List Token → List Token
  | [] => []
  | t :: ts =>
    if t.isIgnored then
      match spaced ts with
      | .blank :: rest => .blank :: rest
      | .mark c :: rest => .mark c :: rest
      | rest => .blank :: rest
    else if t = .mark ',' then
      match spaced ts with
      | .blank :: rest => t :: rest
      | rest => t :: rest
    else t :: spaced ts

def value? (ts : List Token) : Option (List Token) :=
  if ts.all Token.isValue then some (spaced (strip ts)) else none

def valueWithPriority? (ts : List Token) : Option (List Token × Bool) :=
  match cutAt '!' ts with
  | [ts] => (value? ts).map fun v => (v, false)
  | [ts, priority] =>
    match strip priority with
    | [.ident word] =>
      if equalsFolded "important".toList word then (value? ts).map fun v => (v, true) else none
    | _ => none
  | _ => none

def declaration? (property : Text) (ts : List Token) : Option Declaration := do
  let (value, important) ← valueWithPriority? ts
  let property := normalise knownProperties property
  let value := if property ∈ knownProperties then value.map Token.lowered else value
  return ⟨property, value, important⟩

def Token.endsDeclaration (t : Token) : Bool := t == .mark ';' || t == .mark '\x7d'

/-- The declarations of a block, at most `n` steps of reading, and what follows
the block. -/
def declarations? : Nat → List Token → Option (List Declaration × List Token)
  | 0, _ => none
  | n + 1, ts =>
    match skip ts with
    | [] => some ([], [])
    | .mark '\x7d' :: ts => some ([], ts)
    | .mark ';' :: ts => declarations? n ts
    | .ident property :: ts =>
      match skip ts with
      | .mark ':' :: ts => do
        let d ← declaration? property (ts.takeWhile (!·.endsDeclaration))
        let (ds, rest) ← declarations? n (ts.dropWhile (!·.endsDeclaration))
        return (d :: ds, rest)
      | _ => none
    | _ => none

/-! ## Rules -/

def knownMedia : List Text := ["all", "print", "screen"].map String.toList

def mediaType? (ts : List Token) : Option Text :=
  match strip ts with
  | [.ident name] => some (normalise knownMedia name)
  | _ => none

def mediaTypes? (ts : List Token) : Option (List Text) := (cutAt ',' ts).mapM mediaType?

/-- The at-rules that have a grammar of their own, which is not read here. -/
def knownAtRules : List Text :=
  ["import", "namespace", "charset", "custom-media", "property", "supports", "font-face",
   "font-feature-values", "font-palette-values", "counter-style", "viewport",
   "-ms-viewport", "keyframes", "-webkit-keyframes", "-moz-keyframes", "-o-keyframes",
   "-ms-keyframes", "page", "-moz-document", "layer", "container", "starting-style",
   "scope", "nest", "view-transition", "media"].map String.toList

def Token.endsPrelude (t : Token) : Bool := t.endsDeclaration || t == .mark '\x7b'

/-- An at-rule without a block: its prelude goes up to a `;` or to the end of the
block or sheet around it. -/
def statement? (name : Text) (ts : List Token) : Option (Rule × List Token) :=
  let prelude := ts.takeWhile (!·.endsPrelude)
  if name.map Char.toLower ∈ knownAtRules then none
  else
    match ts.dropWhile (!·.endsPrelude) with
    | .mark '\x7b' :: _ => none
    | .mark ';' :: rest => (value? prelude).map fun v => (.statement name v, rest)
    | rest => (value? prelude).map fun v => (.statement name v, rest)

/-- Rules, at most `n` steps of reading, and what follows them.  Inside a block
they end with it. -/
def rules? (inBlock : Bool) : Nat → List Token → Option (List Rule × List Token)
  | 0, _ => none
  | n + 1, ts =>
    match skip ts with
    | [] => some ([], [])
    | .mark '\x7d' :: ts => if inBlock then some ([], ts) else none
    | .mark ';' :: ts => if inBlock then rules? inBlock n ts else none
    | .atKeyword name :: ts =>
      if equalsFolded "media".toList name then
        match ts.dropWhile (!·.endsPrelude) with
        | .mark '\x7b' :: body => do
          let types ← mediaTypes? (ts.takeWhile (!·.endsPrelude))
          let (inside, rest) ← rules? true n body
          let (more, rest) ← rules? inBlock n rest
          return (.media types inside :: more, rest)
        | _ => none
      else do
        let (rule, rest) ← statement? name ts
        let (more, rest) ← rules? inBlock n rest
        return (rule :: more, rest)
    | ts =>
      match ts.dropWhile (!·.endsPrelude) with
      | .mark '\x7b' :: body => do
        let selectors ← selectors? (ts.takeWhile (!·.endsPrelude))
        let (ds, rest) ← declarations? (body.length + 1) body
        let (more, rest) ← rules? inBlock n rest
        return (.style selectors ds :: more, rest)
      | _ => none

def parse? (s : Text) : Option (List Rule) :=
  let ts := Token.ofText s
  (rules? false (ts.length + 1) ts).map (·.1)

def newline (level : Nat) : Text := '\n' :: List.replicate (2 * level) ' '

def Token.write : Token → Text
  | .ident name => Ident.write name
  | .atKeyword name => '@' :: Ident.write name
  | .hash name _ => '#' :: Ident.writeName name
  | .number written => written
  | .mark ',' => ", ".toList
  | .mark c => [c]
  | .blank => [' ']
  | .comment => []

def Condition.write : Condition → Text
  | .hasClass name => '.' :: Ident.write name
  | .hasId name => '#' :: Ident.write name
  | .inState name => ':' :: Ident.write name

/-- A compound selector.  A `*` that conditions follow says nothing and is left
out. -/
def Compound.write (c : Compound) : Text :=
  let element :=
    match c.element with
    | some (.named name) => Ident.write name
    | some .any => if c.conditions.isEmpty then ['*'] else []
    | none => []
  element ++ c.conditions.flatMap Condition.write

def Combinator.write : Combinator → Text
  | .descendant => [' ']
  | .child => " > ".toList
  | .next => " + ".toList
  | .sibling => " ~ ".toList

def Selector.write (s : Selector) : Text :=
  s.head.write ++ s.tail.flatMap fun (relation, compound) => relation.write ++ compound.write

def Declaration.write (d : Declaration) : Text :=
  Ident.write d.property ++ ": ".toList ++ d.value.flatMap Token.write ++
    (if d.important then " !important".toList else []) ++ [';']

/-- The declarations of a block, each on its line.  The important ones come
last. -/
def writeDeclarations (level : Nat) (ds : List Declaration) : Text :=
  (ds.filter (!·.important) ++ ds.filter (·.important)).flatMap fun d =>
    newline level ++ d.write

mutual
def Rule.write (level : Nat) : Rule → Text
  | .style selectors ds =>
    List.intercalate ", ".toList (selectors.map Selector.write) ++ " \x7b".toList ++
      writeDeclarations (level + 1) ds ++ newline level ++ ['\x7d']
  | .media types rules =>
    "@media ".toList ++ List.intercalate ", ".toList (types.map Ident.write) ++
      " \x7b".toList ++ newline (level + 1) ++ writeRules (level + 1) rules ++
      newline level ++ ['\x7d']
  | .statement name prelude =>
    '@' :: Ident.write name ++ (if prelude.isEmpty then [] else [' ']) ++
      prelude.flatMap Token.write ++ [';']

def writeRules (level : Nat) : List Rule → Text
  | [] => []
  | [rule] => rule.write level
  | rule :: rules => rule.write level ++ '\n' :: newline level ++ writeRules level rules
end

def print? (s : Text) : Option Text :=
  (parse? s).map fun rules => writeRules 0 rules ++ ['\n']

end Css
end StyleScope
