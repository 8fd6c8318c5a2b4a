import StyleScope.Basic
import StyleScope.Json.Reader

/-!
# Settings files

Settings are a JSON object.  Members that are missing keep their default, members
that are not known are skipped, and none may be given twice.  A list of the values
in their order does as well.
-/

namespace StyleScope
namespace SettingsFile

open Json

structure Given where
  compatible : Option Text := none
  beautify : Option Bool := none
  indentSize : Option Nat := none
  inferCatchAll : Option Bool := none

def optionsMember : MemberReader (Option Nat) := fun key known s =>
  if key = "indent_size".toList then (once known natural s).map fun (n, s) => (some n, s)
  else do return (known, ← skip (← colon s))

def options : Read Nat := fun s =>
  let default := ({} : Settings).indentSize
  match skipSpace s with
  | '\x7b' :: s =>
    (members optionsMember s.length.succ true none s).map fun (n, s) => (n.getD default, s)
  | '[' :: s => do
    let (n, s) ← itemOr default natural true s
    return (n, ← closeList s)
  | s => .error (wrongKind s)

def member : MemberReader Given := fun key given s =>
  if key = "compatible".toList then
    (once given.compatible string s).map fun (v, s) => ({ given with compatible := some v }, s)
  else if key = "beautify".toList then
    (once given.beautify boolean s).map fun (v, s) => ({ given with beautify := some v }, s)
  else if key = "beautify_options".toList then
    (once given.indentSize options s).map fun (v, s) => ({ given with indentSize := some v }, s)
  else if key = "infer_catch_all".toList then
    (once given.inferCatchAll boolean s).map fun (v, s) =>
      ({ given with inferCatchAll := some v }, s)
  else do return (given, ← skip (← colon s))

def Given.complete (given : Given) : Settings where
  compatible := given.compatible.getD ({} : Settings).compatible
  beautify := given.beautify.getD ({} : Settings).beautify
  indentSize := given.indentSize.getD ({} : Settings).indentSize
  inferCatchAll := given.inferCatchAll.getD ({} : Settings).inferCatchAll

/-- Settings as an object or a list. -/
def settings : Read Settings := fun s =>
  match skipSpace s with
  | '\x7b' :: s =>
    (members member s.length.succ true {} s).map fun (given, s) => (given.complete, s)
  | '[' :: s => do
    let (compatible, s) ← itemOr ({} : Settings).compatible string true s
    let (beautify, s) ← itemOr ({} : Settings).beautify boolean false s
    let (indentSize, s) ← itemOr ({} : Settings).indentSize options false s
    let (inferCatchAll, s) ← itemOr ({} : Settings).inferCatchAll boolean false s
    return (⟨compatible, beautify, indentSize, inferCatchAll⟩, ← closeList s)
  | s => .error (wrongKind s)

def parse (s : Text) : Except Fault Settings := finish (settings s)

end SettingsFile
end StyleScope
