import StyleScope.Text.Scan
import StyleScope.Text.Basic
import StyleScope.Basic

/-!
# Metadata and sections

A style opens with a block between `==UserStyle==` and `==/UserStyle==`.  The markers may be
written in any case.  Some of the variables that a block can declare have no counterpart in the
target format.  A scoping rule opens a section of the style.  A style with at most one section
can be converted, provided that its metadata allows it.
-/

namespace StyleScope

open Text

namespace Metadata

def openMarker : Text := "==userstyle==".toList

def closeMarker : Text := "==/userstyle==".toList

/-- What stands between the markers, at least one code point: from the first
opening marker to the first closing one after it. -/
def block? (s : Text) : Option Text := do
  let (_, rest) ← find? (afterFolded? openMarker) s
  match rest with
  | [] => none
  | c :: rest =>
    let (inside, _) ← find? (afterFolded? closeMarker) rest
    return c :: inside

def afterVariable? (s : Text) : Option Text := do
  let rest := (after? "@var".toList s).or (after? "@advanced".toList s)
  afterBlanks? (← rest)

def hasCheckbox (s : Text) : Bool :=
  occurs (fun t => (afterVariable? t).bind (after? "checkbox".toList)) s

def hasVariable (s : Text) : Bool :=
  occurs (fun t => (afterVariable? t).bind List.head?) s

/-- A declaration of a preprocessor that evaluates variables itself. -/
def preprocessor? (s : Text) : Option Char := do
  let rest := (afterFolded? "@preprocessor".toList s).or (afterFolded? "@type".toList s)
  let rest ← afterBlanks? (← rest)
  let rest := (afterFolded? "less".toList rest).or (afterFolded? "stylus".toList rest)
  (← rest).head?.filter isBlank

def hasPreprocessor (s : Text) : Bool := occurs preprocessor? s

end Metadata

namespace Section

def afterKeyword? (s : Text) : Option Text :=
  (after? "@-moz-document".toList s).or (after? "@document".toList s)

def pieces (s : Text) : List Text := splitAll afterKeyword? s

/-- How many parts there are, one more than keywords. -/
def count (s : Text) : Nat := (pieces s).length

/-- Does the style apply everywhere?  So it does without a keyword, and also when
nothing stands between the first keyword and the next one or the end. -/
def isGlobal (s : Text) : Bool :=
  match pieces s with
  | _ :: piece :: _ => piece.isEmpty
  | _ => true

end Section

/-- May the style be converted, as far as its metadata and the number of its
sections go? -/
def eligibility (s : Text) : Except Refusal Unit :=
  match Metadata.block? s with
  | none => .error .missingMetadata
  | some block =>
    if Metadata.hasCheckbox block then .error .checkboxVariable
    else if Metadata.hasVariable block && Metadata.hasPreprocessor block then
      .error .preprocessorVariables
    else if Section.count s > 2 then .error (.multipleSections (Section.count s))
    else .ok ()

end StyleScope
