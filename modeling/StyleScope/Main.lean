import StyleScope.Command.Run
import StyleScope.Css.Printer
import StyleScope.SettingsFile
import StyleScope.Url.Parser

/-!
# The program

The host and the tools that commands run with when the program is started.  The system gets a
path as a text; what comes from a command line is one.
-/

namespace StyleScope
namespace Command

open Files

def faultOf (e : IO.Error) : ReadFault :=
  match e with
  | .noFileOrDirectory .. => .missing
  | .inappropriateType _ code _ => if code = 21 then .isDirectory else .notDirectory
  | e => .other (toString e).toList

def succeeds (action : IO Unit) : IO Bool := do
  try
    action
    return true
  catch _ => return false

/-- The files and the output of the process.  It does not reach the network. -/
instance : Host IO where
  readFile p := do
    try return .ok (← IO.FS.readBinFile (String.ofList p.text)).toList
    catch e => return .error (faultOf e)
  writeFile p s := succeeds (IO.FS.writeFile (String.ofList p.text) (String.ofList s))
  makeDirectories p := succeeds (IO.FS.createDirAll (String.ofList p.text))
  print s := do
    let out ← IO.getStdout
    out.putStr (String.ofList s)
    out.flush
  download _ _ := return .failed "no network".toList

/-- The printer, the addresses and the JSON of this library. -/
def builtIn : Tools where
  print := Css.print?
  normalise? s := (Url.normalise s).toOption
  readSettings? s := (SettingsFile.parse s).toOption
  writeJson value := value.pretty 0

end Command
end StyleScope

def main (arguments : List String) : IO UInt32 := do
  let exit : StyleScope.Command.Exit ←
    StyleScope.Command.run StyleScope.Command.builtIn (arguments.map String.toList)
  match exit.complaint? with
  | some complaint => IO.eprintln (String.ofList complaint)
  | none => pure ()
  return exit.code.toUInt32
