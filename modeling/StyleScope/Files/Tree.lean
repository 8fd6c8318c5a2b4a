import StyleScope.Files.FilePath

/-!
# File trees

A tree of directories and files with a working directory, from which relative
paths start.  A path is followed piece by piece; a piece can only be looked up in
a directory, even if it is `.` or nothing, so a slash behind the name of a file is
an error.
-/

namespace StyleScope
namespace Files

open Text

inductive ReadFault
  | missing
  | notDirectory
  | isDirectory
  | nameTooLong
  | notText
  /-- Anything else, in the words of the system. -/
  | other (message : Text)
  deriving DecidableEq

def ReadFault.message : ReadFault → Text
  | .missing => "No such file or directory (os error 2)".toList
  | .notDirectory => "Not a directory (os error 20)".toList
  | .isDirectory => "Is a directory (os error 21)".toList
  | .nameTooLong => "File name too long (os error 36)".toList
  | .notText => "stream did not contain valid UTF-8".toList
  | .other message => message

def textOf (octets : Octets) : Except ReadFault Text :=
  match Utf8.decode? octets with
  | some s => .ok s
  | none => .error .notText

/-- A place in a tree: the names that lead there from the root. -/
abbrev Place := List Octets

inductive Entry
  | directory
  | file (octets : Octets)
  deriving DecidableEq

/-- A tree by its entries.  The root is a directory without an entry. -/
structure Tree where
  entries : List (Place × Entry)
  workingDirectory : Place

def longestName : Nat := 255

def longestPath : Nat := 4095

namespace Tree

def lookup? (t : Tree) (place : Place) : Option Entry :=
  if place = [] then some .directory else t.entries.lookup place

def put (t : Tree) (place : Place) (e : Entry) : Tree :=
  { t with entries := (place, e) :: t.entries.filter (·.1 != place) }

def step (place : Place) (piece : Octets) : Except ReadFault Place :=
  if piece = [] ∨ piece = [dot] then .ok place
  else if piece = [dot, dot] then .ok place.dropLast
  else if longestName < piece.length then .error .nameTooLong
  else .ok (place ++ [piece])

/-- The place where pieces lead.  There need not be anything. -/
def follow (t : Tree) : Place → List Octets → Except ReadFault Place
  | place, [] => .ok place
  | place, piece :: pieces =>
    match t.lookup? place with
    | none => .error .missing
    | some (.file _) => .error .notDirectory
    | some .directory => (step place piece).bind fun next => follow t next pieces

def resolve (t : Tree) (p : FilePath) : Except ReadFault Place :=
  if p.spelling = [] then .error .missing
  else if longestPath < p.spelling.length then .error .nameTooLong
  else
    match p.spelling with
    | slash :: rest => t.follow [] (rest.splitOn slash)
    | spelling => t.follow t.workingDirectory (spelling.splitOn slash)

def read (t : Tree) (p : FilePath) : Except ReadFault Octets := do
  match t.lookup? (← t.resolve p) with
  | none => .error .missing
  | some .directory => .error .isDirectory
  | some (.file octets) => return octets

/-- Write a file anew.  Its directory has to be there. -/
def write (t : Tree) (p : FilePath) (octets : Octets) : Option Tree := do
  let place ← (t.resolve p).toOption
  if t.lookup? place = some .directory then none
  else some (t.put place (.file octets))

def isDirectory (t : Tree) (p : FilePath) : Bool :=
  match t.resolve p with
  | .ok place => t.lookup? place == some .directory
  | .error _ => false

/-- Make the directories that are missing on the way along pieces. -/
def makeAlong (t : Tree) : Place → List Octets → Option Tree
  | _, [] => some t
  | place, piece :: pieces =>
    match step place piece with
    | .error _ => none
    | .ok next =>
      match t.lookup? next with
      | some .directory => makeAlong t next pieces
      | some (.file _) => none
      | none => makeAlong (t.put next .directory) next pieces

/-- Make the directory that a path leads to, and those above it.  A path to a new
directory does not end in `.`. -/
def makeDirectories (t : Tree) (p : FilePath) : Option Tree :=
  if t.isDirectory p then some t
  else
    let pieces := p.spelling.splitOn slash
    if longestPath < p.spelling.length then none
    else if (pieces.reverse.dropWhile (·.isEmpty)).head? = some [dot] then none
    else
      match p.spelling with
      | slash :: rest => t.makeAlong [] (rest.splitOn slash)
      | _ => t.makeAlong t.workingDirectory pieces

end Tree
end Files
end StyleScope
