import StyleScope.Conversion
import StyleScope.Files.Tree
import StyleScope.Json.Value

/-!
# Reports

Files can be converted in any order.  What became of each is a report, and reports are arranged
by the paths of the files, so that what is printed and written does not depend on that order.
Reports on the same file stay in the order in which they come.

A converted style stands beside the style that was converted, or in a directory for all of them,
under a name of its own: `.user.css` in place of `.css`, and `.usercss.css` in place of
`.user.css`.
-/

namespace StyleScope
namespace Command

open Text Files

/-! ## Where converted styles go -/

def withoutEnding? (ending s : Text) : Option Text :=
  if ending.isSuffixOf s then some (s.take (s.length - ending.length)) else none

def convertedName (name : Text) : Text :=
  match withoutEnding? ".user.css".toList name with
  | some stem => stem ++ ".usercss.css".toList
  | none => (withoutEnding? ".css".toList name).getD name ++ ".user.css".toList

/-- The path of a converted style.  The name of the style is read as a text for that. -/
def target (outDir : Option FilePath) (file : FilePath) : FilePath :=
  let name := convertedName ((file.fileName?.map Utf8.lossy).getD "style.css".toList)
  match outDir with
  | some dir => dir.child (Utf8.encode name)
  | none => file.withFileName (Utf8.encode name)

/-! ## What is reported -/

inductive Finding
  | converted (conversion : Conversion)
  /-- The style cannot be converted. -/
  | skipped (reason : Refusal)
  /-- The file cannot be read. -/
  | failed (fault : ReadFault)
  deriving DecidableEq

/-- What became of which file. -/
structure Report where
  file : FilePath
  finding : Finding
  deriving DecidableEq

namespace Report

def ofContents (beautifier : UserCss.Beautifier) (settings : Settings)
    (source : Option Text) (file : FilePath) (contents : Except ReadFault Octets) : Report :=
  match contents.bind textOf with
  | .error fault => ⟨file, .failed fault⟩
  | .ok style =>
    match convert beautifier settings style source with
    | .ok conversion => ⟨file, .converted conversion⟩
    | .error reason => ⟨file, .skipped reason⟩

def isConverted (report : Report) : Bool :=
  match report.finding with
  | .converted _ => true
  | _ => false

def le (a b : Report) : Bool := a.file.le b.file

/-- Reports by the paths of their files. -/
def arrange (reports : List Report) : List Report := reports.mergeSort le

def patternsJson (set : PatternSet) : Json.Value :=
  .object [("matches".toList, .list (set.matchPatterns.toList.map .string)),
    ("includes".toList, .list (set.includePatterns.toList.map .string))]

/-- What a finding says in JSON.  That a style cannot be converted is a refusal, and that a file
cannot be read is none. -/
def findingJson : Finding → List (Text × Json.Value)
  | .converted conversion =>
    [("conversion".toList, .object [("text".toList, .string conversion.text),
        ("patterns".toList, patternsJson conversion.patterns)]),
      ("refused".toList, .boolean false)]
  | .skipped reason =>
    [("error".toList, .string reason.message), ("refused".toList, .boolean true)]
  | .failed fault =>
    [("error".toList, .string fault.message), ("refused".toList, .boolean false)]

/-- A report as JSON, in which a path has to be a text. -/
def json? (report : Report) : Option Json.Value :=
  (Utf8.decode? report.file.spelling).map fun file =>
    .object (("file".toList, .string file) :: findingJson report.finding)

def fields (fs : List Text) : Text := List.intercalate ['\t'] fs ++ ['\n']

def line (target : FilePath) (report : Report) : Text :=
  match report.finding with
  | .converted _ => fields ["converted".toList, report.file.text, target.text]
  | .skipped reason => fields ["skipped".toList, report.file.text, reason.message]
  | .failed fault => fields ["failed".toList, report.file.text, fault.message]

end Report
end Command
end StyleScope
