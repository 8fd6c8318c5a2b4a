import StyleScope.Text.Utf8

/-!
# Paths

A path is a sequence of octets in which slashes separate the names of directories and, last,
of a file.  A name need not be a text; where one is shown it is read as UTF-8, with marks for
what is broken.  Several spellings can have the same components: slashes may be repeated, and
a `.` counts only at the start.  Paths are ordered by their components, so that a directory
comes together with what is below it.
-/

namespace StyleScope
namespace Files

open Text

@[match_pattern] abbrev slash : UInt8 := 0x2F

@[match_pattern] abbrev dot : UInt8 := 0x2E

structure FilePath where
  spelling : Octets
  deriving DecidableEq

inductive Component
  /-- The slash that starts an absolute path. -/
  | root
  /-- A `.` at the start. -/
  | here
  /-- A `..` anywhere. -/
  | parent
  | name (octets : Octets)
  deriving DecidableEq

namespace Component

/-- The place of a component in the order of components: names come last, by their octets. -/
def key : Component → List Nat
  | .root => [0]
  | .here => [1]
  | .parent => [2]
  | .name octets => 3 :: octets.map UInt8.toNat

theorem key_injective {a b : Component} (h : a.key = b.key) : a = b := by
  have hoctets : ∀ s t : Octets, s.map UInt8.toNat = t.map UInt8.toNat → s = t := fun s t e =>
    List.map_inj_right (fun _ _ => UInt8.toNat_inj.1) |>.1 e
  cases a <;> cases b <;> simp [key] at h ⊢
  exact hoctets _ _ h

/-- The component for what stands between two slashes.  Nothing and `.` are none. -/
def ofPiece? (piece : Octets) : Option Component :=
  if piece = [] ∨ piece = [dot] then none
  else if piece = [dot, dot] then some .parent
  else some (.name piece)

end Component

namespace FilePath

def ofText (s : Text) : FilePath := ⟨Utf8.encode s⟩

def text (p : FilePath) : Text := Utf8.lossy p.spelling

/-- The octets in front of the names: the slash of an absolute path, or a `.` that stands for
itself. -/
def start (p : FilePath) : Octets :=
  if p.spelling.head? = some slash then [slash]
  else if p.spelling = [dot] ∨ [dot, slash] <+: p.spelling then [dot]
  else []

def pieces (p : FilePath) : List Octets := (p.spelling.drop p.start.length).splitOn slash

def lead (p : FilePath) : List Component :=
  if p.start = [slash] then [.root] else if p.start = [dot] then [.here] else []

def components (p : FilePath) : List Component :=
  p.lead ++ p.pieces.filterMap Component.ofPiece?

def keys (p : FilePath) : List (List Nat) := p.components.map Component.key

/-- Paths are compared component by component, and a directory comes before what is in it. -/
def le (p q : FilePath) : Bool := !decide (q.keys < p.keys)

theorem le_iff {p q : FilePath} : p.le q = true ↔ ¬ q.keys < p.keys := by simp [le]

theorem le_total (p q : FilePath) : (p.le q || q.le p) = true := by
  rw [Bool.or_eq_true, le_iff, le_iff]
  exact List.le_total p.keys q.keys

theorem le_trans {p q r : FilePath} (hpq : p.le q = true) (hqr : q.le r = true) :
    p.le r = true :=
  le_iff.2 (@List.le_trans (List Nat) _ List.instLE _ _ _ _ _ (le_iff.1 hpq) (le_iff.1 hqr))

/-- Paths that each come no later than the other have the same components. -/
theorem components_eq_of_le {p q : FilePath} (hpq : p.le q = true) (hqp : q.le p = true) :
    p.components = q.components :=
  List.map_inj_right (fun _ _ => Component.key_injective) |>.1
    (List.le_antisymm (le_iff.1 hpq) (le_iff.1 hqp))

/-- Pieces without those at the end that are no component. -/
def trimPieces (ps : List Octets) : List Octets :=
  (ps.reverse.dropWhile fun piece => (Component.ofPiece? piece).isNone).reverse

/-- The name of the file that a path leads to.  A path that ends in `..` or has no names leads
to no file. -/
def fileName? (p : FilePath) : Option Octets :=
  match (trimPieces p.pieces).getLast? with
  | some piece => if piece = [dot, dot] then none else some piece
  | none => none

def child (p : FilePath) (name : Octets) : FilePath :=
  if p.spelling = [] ∨ p.spelling.getLast? = some slash then ⟨p.spelling ++ name⟩
  else ⟨p.spelling ++ slash :: name⟩

/-- The path to the directory of a file, as it is written in the path of the file. -/
def directory (p : FilePath) : FilePath :=
  ⟨p.start ++ List.intercalate [slash] (trimPieces (trimPieces p.pieces).dropLast)⟩

def withFileName (p : FilePath) (name : Octets) : FilePath :=
  match p.fileName? with
  | some _ => p.directory.child name
  | none => p.child name

end FilePath
end Files
end StyleScope
