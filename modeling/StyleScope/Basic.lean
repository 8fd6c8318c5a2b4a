import StyleScope.Text.Basic

/-!
# Settings and refusals

What a caller can choose about a conversion, and why a style is left as it is.  Where a
converted style came from is not among the settings: that is said for each conversion.
-/

namespace StyleScope

structure Settings where
  /-- The value of the `@compatible` directive. -/
  compatible : Text := "FireMonkey".toList
  /-- Is the CSS laid out anew? -/
  beautify : Bool := true
  /-- The number of spaces per level of indentation. -/
  indentSize : Nat := 2
  /-- Does a style that says nothing about where it applies apply everywhere? -/
  inferCatchAll : Bool := true
  deriving DecidableEq

/-- Reasons to leave a document as it is. -/
inductive Refusal
  /-- There is no metadata block. -/
  | missingMetadata
  /-- The metadata declares a checkbox, which the target format does not have. -/
  | checkboxVariable
  /-- The metadata declares variables that a preprocessor consumes. -/
  | preprocessorVariables
  /-- The document is cut into `pieces` parts by more than one scoping rule. -/
  | multipleSections (pieces : Nat)
  /-- There is a scoping keyword but no rule that can be read. -/
  | unparseableRule
  /-- No call of the rule gives a pattern. -/
  | noPattern
  /-- No list of globs stands for the regular expression. -/
  | unconvertibleRegexp (pattern : Text)
  deriving DecidableEq

def Refusal.message : Refusal → Text
  | .missingMetadata => "no ==UserStyle== metadata block".toList
  | .checkboxVariable => "@var/@advanced checkbox has no UserCSS equivalent".toList
  | .preprocessorVariables =>
    "@var/@advanced used together with a less/stylus preprocessor".toList
  | .multipleSections pieces =>
    "document has ".toList ++ Text.decimal pieces ++
      " sections, only a single @-moz-document section can be converted".toList
  | .unparseableRule => "no recognizable @-moz-document rule".toList
  | .noPattern =>
    "no scoping function could be translated into @match/@include".toList
  | .unconvertibleRegexp pattern =>
    "regular expression cannot be expressed as a glob: ".toList ++ pattern

end StyleScope
