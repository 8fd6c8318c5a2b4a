import StyleScope.Files.FilePath
import StyleScope.Text.Scan

/-!
# Requests

The commands of the program and what can be said with them.  A word that starts with a hyphen
names options, unless it is a hyphen alone.  An option has a long name and often a letter;
letters can stand together in one word.  The value of an option follows in the same word or is
the next word, which must not look like an option itself.  Behind `--` every word is an operand.

Words are read from left to right and the first mistake counts, so that a request for help is
granted when all before it is in order, whatever follows.
-/

namespace StyleScope
namespace Command

open Text Files

/-! ## Words -/

inductive Word
  /-- The `--` in front of the operands. -/
  | separator
  /-- The long name of an option, with a value if there is one. -/
  | long (name : Text) (value : Option Text)
  /-- The letters of options, the last perhaps with a value. -/
  | letters (s : Text)
  /-- An operand, or the value of an option. -/
  | plain (s : Text)
  deriving DecidableEq

def Word.ofText : Text → Word
  | ['-', '-'] => .separator
  | '-' :: '-' :: s =>
    match s.dropWhile (· != '=') with
    | _ :: value => .long (s.takeWhile (· != '=')) (some value)
    | [] => .long s none
  | '-' :: c :: s => .letters (c :: s)
  | s => .plain s

inductive Effect
  /-- It stands for itself. -/
  | flag
  /-- It takes a value for which `accepts` holds. -/
  | value (accepts : Text → Bool)
  /-- It asks for help, and nothing else matters any more. -/
  | help
  /-- It asks for the version, likewise. -/
  | version

structure Switch where
  name : Text
  letter : Option Char := none
  effect : Effect := .flag

structure Given where
  operands : List Text := []
  values : List (Text × Text) := []
  deriving DecidableEq

namespace Given

def has (given : Given) (name : Text) : Bool := (given.values.lookup name).isSome

def value? (given : Given) (name : Text) : Option Text := given.values.lookup name

def addOperand (given : Given) (s : Text) : Given :=
  { given with operands := given.operands ++ [s] }

/-- With one more option, which must not be there yet. -/
def addOption? (given : Given) (name value : Text) : Option Given :=
  if given.has name then none else some { given with values := (name, value) :: given.values }

end Given

inductive Outcome (α : Type)
  | done (result : α)
  | help
  | version
  | misuse

inductive Progress
  /-- The next word can be anything. -/
  | ready (given : Given)
  /-- The next word is the value of an option. -/
  | awaiting (option : Switch) (given : Given)
  /-- No further word matters. -/
  | finished (outcome : Outcome Given)

def takeValue (option : Switch) (value : Text) (given : Given) : Progress :=
  match option.effect with
  | .value accepts =>
    if accepts value then
      match given.addOption? option.name value with
      | some given => .ready given
      | none => .finished .misuse
    else .finished .misuse
  | _ => .finished .misuse

def takeSwitch (option : Switch) (given : Given) : Progress :=
  match option.effect with
  | .flag =>
    match given.addOption? option.name [] with
    | some given => .ready given
    | none => .finished .misuse
  | .value _ => .awaiting option given
  | .help => .finished .help
  | .version => .finished .version

def takeLong (options : List Switch) (name : Text) (value : Option Text) (given : Given) :
    Progress :=
  match options.find? (·.name = name), value with
  | some option, some value => takeValue option value given
  | some option, none => takeSwitch option given
  | none, _ => .finished .misuse

/-- The state behind letters.  What follows the letter of an option with a value is
the value, with or without an equals sign in front. -/
def takeLetters (options : List Switch) : Text → Given → Progress
  | [], given => .ready given
  | c :: s, given =>
    match options.find? (·.letter = some c) with
    | none => .finished .misuse
    | some option =>
      match takeSwitch option given, s with
      | .ready given, s => takeLetters options s given
      | .awaiting option given, [] => .awaiting option given
      | .awaiting option given, '=' :: s => takeValue option s given
      | .awaiting option given, s => takeValue option s given
      | .finished outcome, _ => .finished outcome

/-- Which texts a command takes as its next operand, after those it has. -/
abbrev OperandRule := List Text → Text → Bool

def readOperands (accepts : OperandRule) (given : Given) : List Text → Outcome Given
  | [] => .done given
  | s :: words =>
    if accepts given.operands s then readOperands accepts (given.addOperand s) words
    else .misuse

def readWords (options : List Switch) (accepts : OperandRule) : Progress → List Text →
    Outcome Given
  | .finished outcome, _ => outcome
  | .ready given, [] => .done given
  | .awaiting _ _, [] => .misuse
  | .awaiting option given, w :: words =>
    match Word.ofText w with
    | .plain value => readWords options accepts (takeValue option value given) words
    | _ => .misuse
  | .ready given, w :: words =>
    match Word.ofText w with
    | .separator => readOperands accepts given words
    | .long name value => readWords options accepts (takeLong options name value given) words
    | .letters s => readWords options accepts (takeLetters options s given) words
    | .plain s =>
      if accepts given.operands s then
        readWords options accepts (.ready (given.addOperand s)) words
      else .misuse

/-! ## Requests -/

structure ConvertRequest where
  files : List FilePath
  /-- Where the styles come from. -/
  source : Option Text := none
  /-- The directory for converted styles, in place of that of the style. -/
  outDir : Option FilePath := none
  /-- Print all results as JSON and write nothing? -/
  json : Bool := false
  /-- The file with the settings. -/
  config : Option FilePath := none
  /-- Leave the layout of the CSS alone, whatever the settings say? -/
  keepLayout : Bool := false

structure FetchRequest where
  url : Text
  /-- The file for the converted style, in place of standard output. -/
  out : Option FilePath := none
  /-- How many seconds to wait. -/
  timeout : Nat := 30

inductive Request
  | convert (request : ConvertRequest)
  | fetch (request : FetchRequest)
  /-- The globs of regular expressions. -/
  | glob (patterns : List Text)
  /-- Which texts are match patterns. -/
  | check (patterns : List Text)

def anyValue (_ : Text) : Bool := true

def isPath (s : Text) : Bool := !s.isEmpty

/-- A number of up to 64 bits, perhaps behind a plus sign. -/
def number? (s : Text) : Option Nat :=
  let digits := (after? ['+'] s).getD s
  match digits.mapM digit? with
  | some (d :: ds) =>
    if valueOf 10 (d :: ds) ≤ 0xFFFFFFFFFFFFFFFF then some (valueOf 10 (d :: ds)) else none
  | _ => none

/-- The options of every command.  How much is logged does not change what is
done. -/
def commonOptions : List Switch :=
  [⟨"verbose".toList, some 'v', .flag⟩, ⟨"help".toList, some 'h', .help⟩]

def topOptions : List Switch := ⟨"version".toList, some 'V', .version⟩ :: commonOptions

def convertOptions : List Switch :=
  [⟨"converted-from".toList, none, .value anyValue⟩,
   ⟨"out-dir".toList, some 'o', .value isPath⟩,
   ⟨"json".toList, none, .flag⟩,
   ⟨"config".toList, some 'c', .value isPath⟩,
   ⟨"no-beautify".toList, none, .flag⟩] ++ commonOptions

def fetchOptions : List Switch :=
  [⟨"out".toList, some 'o', .value isPath⟩,
   ⟨"timeout".toList, none, .value fun s => (number? s).isSome⟩] ++ commonOptions

namespace Given

def path? (given : Given) (name : Text) : Option FilePath :=
  (given.value? name).map FilePath.ofText

def toConvert (given : Given) : ConvertRequest where
  files := given.operands.map FilePath.ofText
  source := given.value? "converted-from".toList
  outDir := given.path? "out-dir".toList
  json := given.has "json".toList
  config := given.path? "config".toList
  keepLayout := given.has "no-beautify".toList

def toFetch? (given : Given) : Option FetchRequest :=
  match given.operands with
  | [url] =>
    some { url, out := given.path? "out".toList
           timeout := ((given.value? "timeout".toList).bind number?).getD 30 }
  | _ => none

end Given

def readCommand (options : List Switch) (accepts : OperandRule)
    (request? : Given → Option Request) (words : List Text) : Outcome Request :=
  match readWords options accepts (.ready {}) words with
  | .done given =>
    match request? given with
    | some request => .done request
    | none => .misuse
  | .help => .help
  | .version => .version
  | .misuse => .misuse

def commandNames : List Text :=
  ["convert".toList, "fetch".toList, "glob".toList, "check".toList, "help".toList]

/-- What is asked of `help`: nothing, or the name of a command. -/
def readHelp : List Text → Outcome Request
  | [] => .help
  | [name] => if commandNames.any (· == name) then .help else .misuse
  | _ => .misuse

def readNamed (name : Text) (words : List Text) : Outcome Request :=
  if name = "convert".toList then
    readCommand convertOptions (fun _ => isPath)
      (fun given => some (.convert given.toConvert)) words
  else if name = "fetch".toList then
    readCommand fetchOptions (fun operands _ => operands.isEmpty)
      (fun given => given.toFetch?.map .fetch) words
  else if name = "glob".toList then
    readCommand commonOptions (fun _ => anyValue) (fun given => some (.glob given.operands)) words
  else if name = "check".toList then
    readCommand commonOptions (fun _ => anyValue) (fun given => some (.check given.operands)) words
  else if name = "help".toList then readHelp words
  else .misuse

def readLine : Progress → List Text → Outcome Request
  | .ready given, w :: words =>
    match Word.ofText w with
    | .plain name => readNamed name words
    | .long name value => readLine (takeLong topOptions name value given) words
    | .letters s => readLine (takeLetters topOptions s given) words
    | .separator => .misuse
  | .finished .help, _ => .help
  | .finished .version, _ => .version
  | _, _ => .misuse

def Request.ofArguments (arguments : List Text) : Outcome Request :=
  readLine (.ready {}) arguments

end Command
end StyleScope
