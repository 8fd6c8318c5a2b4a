import StyleScope.Main
import StyleScope.Pattern.Coverage
import StyleScope.Text.Scan
import StyleScope.Regexp.Expression
import StyleScope.Text.Nesting
import StyleScope.Proofs.Rule.Coverage
import StyleScope.Proofs.Regexp.Steps
import StyleScope.Proofs.Regexp.Branches
import StyleScope.Proofs.Regexp.Stages
import StyleScope.Proofs.Regexp.SchemeFolding
import StyleScope.Proofs.Regexp.Simplification
import StyleScope.Proofs.Regexp.Meaning
import StyleScope.Proofs.Regexp.Survival
import StyleScope.Proofs.Regexp.Reading
import StyleScope.Proofs.Regexp.Segments
import StyleScope.Proofs.Regexp.Unwrapping
import StyleScope.Proofs.Regexp.NestedText
import StyleScope.Proofs.Regexp.LeadingGroups
import StyleScope.Proofs.Regexp.Slots
import StyleScope.Proofs.Regexp.NestedReading
import StyleScope.Proofs.Regexp.NestedGlobs
import StyleScope.Proofs.Rule.Promotion
import StyleScope.Proofs.Rule.CatchAll
import StyleScope.Proofs.Rule.Arrangement
import StyleScope.Proofs.Style.Blocks
import StyleScope.Proofs.Style.Sections
import StyleScope.Proofs.Style.Braces
import StyleScope.Proofs.Style.Quoting
import StyleScope.Proofs.Conversion.Steps
import StyleScope.Proofs.Conversion.Markers
import StyleScope.Proofs.Conversion.Repetition
import StyleScope.Proofs.Regexp.Characters
import StyleScope.Proofs.Rule.LineBreaks
import StyleScope.Proofs.UserCss.ReadingBack
import StyleScope.Proofs.Command.Outcomes
import StyleScope.Proofs.Command.Scheduling
import StyleScope.Proofs.UserCss.Head
import StyleScope.Proofs.Files.Paths
import StyleScope.Proofs.Command.Targets
import StyleScope.Proofs.Rule.Anchors
import StyleScope.Proofs.Regexp.Escaping
import StyleScope.Proofs.Regexp.Respelling
import StyleScope.Proofs.Style.CommentedCalls
import StyleScope.Proofs.Regexp.OrderedBranches
import StyleScope.Proofs.Regexp.GlobShape
import StyleScope.Proofs.Regexp.InnerGroups
import StyleScope.Proofs.Style.Parts
import StyleScope.Proofs.Pattern.Histories
import StyleScope.Proofs.Rule.Contributions
import StyleScope.Proofs.Pattern.Grammar
import StyleScope.Proofs.Style.UpdateRemoval
import StyleScope.Proofs.Regexp.PlainGroups
import StyleScope.Proofs.Rule.Pieces
import StyleScope.Proofs.Preview.Truncation
