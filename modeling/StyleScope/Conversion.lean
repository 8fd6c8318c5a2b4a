import StyleScope.Rule.Patterns
import StyleScope.Style.Document

/-!
# Conversion

A style is converted in four steps: it has to be eligible, it is taken apart, its rule is turned
into patterns, and it is written with the patterns as directives.  A style without a rule
applies everywhere, unless it says itself where it applies or the settings rule that out.

A converted style has the metadata of the style, its markers renamed and further directives in
front of the closing one: what the style is compatible with, where it was converted from, and
where it applies.  The CSS behind the metadata is laid out anew if that is wanted.  How CSS is
printed is a parameter: nothing here depends on it, and where a printer gives up the whole
style stays as it is.
-/

namespace StyleScope
namespace UserCss

open Text

/-! ## Directives -/

structure Directive where
  key : Text
  value : Text
  deriving DecidableEq

def keyWidth : Nat := 18

def Directive.text (d : Directive) : Text :=
  '\n' :: d.key ++ List.replicate (keyWidth - d.key.length) ' ' ++ d.value

def unknownSource : Text := "unknown".toList

/-- The source as it is written: without blanks around it, and never empty. -/
def sourceText (source : Option Text) : Text :=
  match source.map trim with
  | some (c :: s) => c :: s
  | _ => unknownSource

def directives (settings : Settings) (set : PatternSet) (source : Option Text) :
    List Directive :=
  ⟨"@compatible".toList, settings.compatible⟩ ::
    ⟨"@converted-from".toList, sourceText source⟩ ::
    (set.matchPatterns.toList.map (Directive.mk "@match".toList) ++
      set.includePatterns.toList.map (Directive.mk "@include".toList))

def directivesText (settings : Settings) (set : PatternSet) (source : Option Text) : Text :=
  (directives settings set source).flatMap Directive.text

/-! ## Layout -/

abbrev Beautifier := Nat → Text → Text

/-- A way to print CSS, which may give up. -/
abbrev Printer := Text → Option Text

def keepLayout : Beautifier := fun _ s => s

def afterCloseMarker? (s : Text) : Option Text :=
  (afterFolded? Metadata.closeMarker s).or (afterFolded? "==/usercss==".toList s)

/-- The text behind the comment with the metadata: behind the first `*/` after the first
closing marker. -/
def afterHead? (s : Text) : Option Text := do
  let (_, rest) ← find? afterCloseMarker? s
  let (_, rest) ← find? (after? "*/".toList) rest
  return rest

/-- The style up to the end of the comment with the metadata, and the rest.  All of a style
without such a comment is rest. -/
def splitHead (s : Text) : Text × Text :=
  match afterHead? s with
  | some rest => (s.take (s.length - rest.length), rest)
  | none => ([], s)

/-- A printed line, which is indented by two spaces per level, with `indent` spaces per
level. -/
def reindentLine (indent : Nat) (line : Text) : Text :=
  List.replicate ((line.takeWhile (· == ' ')).length / 2 * indent) ' ' ++
    line.dropWhile (· == ' ')

def reindent (indent : Nat) (s : Text) : Text :=
  if indent = 2 then s
  else List.intercalate ['\n'] ((lines s).map (reindentLine indent))

def joinLayout (head css : Text) : Text :=
  if head.isEmpty then css ++ ['\n']
  else if css.isEmpty then head ++ ['\n']
  else head ++ '\n' :: css ++ ['\n']

def beautifyWith (print : Printer) : Beautifier := fun indent s =>
  let (head, rest) := splitHead s
  match print rest with
  | none => s
  | some printed => joinLayout (trimEnd head) (reindent indent (trim printed))

/-! ## Emission -/

def renameOpenMarker : Text → Text :=
  substituteFirst fun s =>
    (afterFolded? Metadata.openMarker s).map fun rest => ("==UserCSS==".toList, rest)

def renameCloseMarker (added : Text) : Text → Text :=
  substituteFirst fun s =>
    (afterFolded? Metadata.closeMarker s).map fun rest =>
      (added ++ "\n==/UserCSS==".toList, rest)

/-- The converted style for a style without its scoping rule. -/
def emit (beautifier : Beautifier) (settings : Settings) (style : Text) (set : PatternSet)
    (source : Option Text) : Text :=
  let body := if settings.beautify then beautifier settings.indentSize style else style
  renameCloseMarker (directivesText settings set source) (renameOpenMarker body)

end UserCss

/-! ## Conversion -/

structure Conversion where
  text : Text
  patterns : PatternSet
  deriving DecidableEq

def patternsOfRule (list : Text) : Except Refusal PatternSet :=
  match Rule.parse list with
  | [] => .error .unparseableRule
  | calls =>
    if (Rule.patterns calls).isEmpty then .error .noPattern
    else .ok (Rule.patterns calls)

def Document.patterns (settings : Settings) (doc : Document) : Except Refusal PatternSet :=
  match doc.rule with
  | some list => patternsOfRule list
  | none =>
    if doc.hasMatchDirectives || !settings.inferCatchAll then .ok ∅ else .ok .catchAll

def convert (beautifier : UserCss.Beautifier) (settings : Settings) (style : Text)
    (source : Option Text) : Except Refusal Conversion := do
  eligibility style
  let doc ← Document.extract style
  let set ← doc.patterns settings
  return ⟨UserCss.emit beautifier settings doc.text set source, set⟩

end StyleScope
