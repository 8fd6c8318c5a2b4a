import StyleScope.Command.Report
import StyleScope.Command.Request

/-!
# Running commands

A host does what commands cannot do by themselves: it reads and writes files, makes directories,
prints and downloads.  `Session` is a host whose files are a tree and whose output is a text.
How CSS is printed, addresses are normalised, and JSON is read and written is said by others;
`Tools` are their answers.  Commands take them as they come.

Everything is checked before a file is read, and all files are read before one is written.  The
reports on the files are a parameter of `conclude`, which arranges them itself: it may get them
in any order.
-/

namespace StyleScope
namespace Command

open Text Files

/-! ## Hosts and tools -/

structure Tools where
  print : UserCss.Printer
  /-- The normal form of an address, if the text is one. -/
  normalise? : Text → Option Text
  /-- The settings that a text of JSON spells. -/
  readSettings? : Text → Option Settings
  writeJson : Json.Value → Text

inductive Download
  | received (text : Text)
  /-- The server answers with another status than success. -/
  | declined (status : Text)
  /-- There is no answer. -/
  | failed (reason : Text)

class Host (m : Type → Type) where
  readFile : FilePath → m (Except ReadFault Octets)
  /-- Write a file anew; did it work? -/
  writeFile : FilePath → Text → m Bool
  /-- Make a directory and those above it; is it there now? -/
  makeDirectories : FilePath → m Bool
  print : Text → m Unit
  /-- Get what is at an address, waiting for so many seconds. -/
  download : Text → Nat → m Download

structure Session where
  tree : Tree
  printed : Text := []

namespace Session

def change (f : Tree → Option Tree) : StateM Session Bool := fun session =>
  match f session.tree with
  | some tree => (true, { session with tree })
  | none => (false, session)

/-- A session has no network. -/
instance : Host (StateM Session) where
  readFile p := fun session => (session.tree.read p, session)
  writeFile p s := change fun tree => tree.write p (Utf8.encode s)
  makeDirectories p := change fun tree => tree.makeDirectories p
  print s := modify fun session => { session with printed := session.printed ++ s }
  download _ _ := return .failed "no network".toList

end Session

/-! ## Steps -/

inductive Failure
  | config (path : FilePath)
  | source (url : Text)
  | noFiles
  | directory (path : FilePath)
  | write (path : FilePath)
  /-- A path is no text, so JSON cannot have it. -/
  | unspeakablePath
  | nothingConverted
  | declined (url status : Text)
  | download (reason : Text)
  | unconvertible (url : Text)
  deriving DecidableEq

def Failure.message : Failure → Text
  | .config path => "failed to load config ".toList ++ path.text
  | .source url => "invalid URL: ".toList ++ url
  | .noFiles => "no input files".toList
  | .directory path => "failed to create ".toList ++ path.text
  | .write path => "failed to write ".toList ++ path.text
  | .unspeakablePath => "path contains invalid UTF-8 characters".toList
  | .nothingConverted => "no file could be converted".toList
  | .declined url answer => url ++ " returned status ".toList ++ answer
  | .download reason => reason
  | .unconvertible url => url ++ " is not convertible".toList

variable {m : Type → Type} [Monad m] [Host m] (tools : Tools)

abbrev Steps (m : Type → Type) := ExceptT Failure m

def say (s : Text) : Steps m Unit := ExceptT.lift (Host.print s)

def insist (step : m Bool) (otherwise : Failure) : Steps m Unit := do
  if !(← ExceptT.lift step) then throw otherwise

def settingsOf (contents : Except ReadFault Octets) : Option Settings :=
  (contents.bind textOf).toOption.bind tools.readSettings?

def loadSettings (request : ConvertRequest) : Steps m Settings := do
  let settings ←
    match request.config with
    | none => pure {}
    | some path =>
      match settingsOf tools (← ExceptT.lift (Host.readFile path)) with
      | some settings => pure settings
      | none => throw (.config path)
  return if request.keepLayout then { settings with beautify := false } else settings

def checkSource (url : Text) : Steps m Text :=
  match tools.normalise? url with
  | some normal => pure normal
  | none => throw (.source url)

def layoutOf (settings : Settings) : UserCss.Beautifier :=
  if settings.beautify then UserCss.beautifyWith tools.print else UserCss.keepLayout

def convertFile (settings : Settings) (source : Option Text) (file : FilePath) :
    Steps m Report := do
  return Report.ofContents (layoutOf tools settings) settings source file
    (← ExceptT.lift (Host.readFile file))

/-- Write the style of a report, if it has one, and print a line. -/
def settle (outDir : Option FilePath) (report : Report) : Steps m Unit := do
  let path := target outDir report.file
  match report.finding with
  | .converted conversion => insist (Host.writeFile path conversion.text) (.write path)
  | _ => pure ()
  say (report.line path)

def publish (request : ConvertRequest) (reports : List Report) : Steps m Unit := do
  if request.json then
    match reports.mapM Report.json? with
    | some values => say (tools.writeJson (.list values) ++ ['\n'])
    | none => throw .unspeakablePath
  else
    reports.forM (settle request.outDir)
  if reports.all fun report => !report.isConverted then throw .nothingConverted

/-- The end of a conversion, with the reports as they come in when files are finished. -/
def conclude (request : ConvertRequest) (finished : List Report) : Steps m Unit :=
  publish tools request (Report.arrange finished)

/-- What is settled before a file is read: the settings and the source. -/
def prepare (request : ConvertRequest) : Steps m (Settings × Option Text) := do
  let settings ← loadSettings tools request
  let source ← request.source.mapM (checkSource tools)
  if request.files.isEmpty then throw .noFiles
  match request.outDir with
  | some dir => insist (Host.makeDirectories dir) (.directory dir)
  | none => pure ()
  return (settings, source)

def runConvert (request : ConvertRequest) : Steps m Unit := do
  let (settings, source) ← prepare tools request
  let finished ← request.files.mapM (convertFile tools settings source)
  conclude tools request finished

def runFetch (request : FetchRequest) : Steps m Unit := do
  let url ← checkSource tools request.url
  match ← ExceptT.lift (Host.download url request.timeout) with
  | .failed reason => throw (.download reason)
  | .declined status => throw (.declined url status)
  | .received style =>
    match convert (UserCss.beautifyWith tools.print) {} style (some url) with
    | .error _ => throw (.unconvertible url)
    | .ok conversion =>
      match request.out with
      | some path => insist (Host.writeFile path conversion.text) (.write path)
      | none => say conversion.text

def globLine (pattern : Text) : Text :=
  match Regexp.globs pattern with
  | [] => Report.fields [pattern, "(not convertible)".toList]
  | globs => Report.fields [pattern, List.intercalate [' '] globs]

def checkLine (pattern : Text) : Text :=
  Report.fields [pattern, (if Pattern.isMatch pattern then "valid" else "invalid").toList]

def Request.run : Request → Steps m Unit
  | .convert request => runConvert tools request
  | .fetch request => runFetch tools request
  | .glob patterns => patterns.forM fun p => say (globLine p)
  | .check patterns => patterns.forM fun p => say (checkLine p)

def version : Text := "rsusercss 0.1.0".toList

def usage : Text := "Usage: rsusercss <convert|fetch|glob|check> [OPTIONS] [ARGUMENTS]".toList

inductive Exit
  | success
  | failure (reason : Failure)
  | misuse
  deriving DecidableEq

def Exit.code : Exit → Nat
  | .success => 0
  | .failure _ => 1
  | .misuse => 2

/-- What is said beside the output when a run ends. -/
def Exit.complaint? : Exit → Option Text
  | .success => none
  | .failure reason => some ("Error: ".toList ++ reason.message)
  | .misuse => some usage

def run (arguments : List Text) : m Exit := do
  match Request.ofArguments arguments with
  | .misuse => return .misuse
  | .help => Host.print (usage ++ ['\n']); return .success
  | .version => Host.print (version ++ ['\n']); return .success
  | .done request =>
    match ← (request.run tools).run with
    | .ok _ => return .success
    | .error reason => return .failure reason

end Command
end StyleScope
