import StyleScope.Text.Basic

/-!
# Scanning

Searching, replacing and splitting, from left to right: the leftmost place that is recognised
counts, and what was recognised once is not looked at again.  At the end stand previews, which
show the start of a long text on one line.
-/

namespace StyleScope
namespace Text

/-- What follows `word` at the start of a text. -/
def after? : Text → Text → Option Text
  | [], s => some s
  | _ :: _, [] => none
  | w :: ws, c :: s => if c = w then after? ws s else none

theorem after?_eq_some {word s rest : Text} :
    after? word s = some rest ↔ s = word ++ rest := by
  induction word generalizing s with
  | nil => simp [after?, eq_comm]
  | cons w ws ih =>
    cases s with
    | nil => simp [after?]
    | cons c s =>
      by_cases h : c = w
      · simp [after?, h, ih]
      · simp [after?, h]

/-- The first place where `here` succeeds: the text before it, and what `here`
returns there. -/
def find? {α : Type} (here : Text → Option α) : Text → Option (Text × α)
  | [] => (here []).map fun a => ([], a)
  | c :: s =>
    match here (c :: s) with
    | some a => some ([], a)
    | none => (find? here s).map fun (before, a) => (c :: before, a)

/-- What is found is found behind the text before it. -/
theorem find?_some {α : Type} {here : Text → Option α} {s before : Text} {a : α}
    (h : find? here s = some (before, a)) :
    ∃ rest, s = before ++ rest ∧ here rest = some a := by
  induction s generalizing before with
  | nil =>
    simp only [find?, Option.map_eq_some_iff, Prod.mk.injEq] at h
    obtain ⟨x, hx, rfl, rfl⟩ := h
    exact ⟨[], rfl, hx⟩
  | cons c s ih =>
    rw [find?] at h
    split at h
    · next x hx =>
      simp only [Option.some.injEq, Prod.mk.injEq] at h
      obtain ⟨rfl, rfl⟩ := h
      exact ⟨c :: s, rfl, hx⟩
    · simp only [Option.map_eq_some_iff, Prod.mk.injEq] at h
      obtain ⟨⟨b, x⟩, hx, rfl, rfl⟩ := h
      obtain ⟨rest, rfl, hr⟩ := ih hx
      exact ⟨rest, rfl, hr⟩

def occurs {α : Type} (here : Text → Option α) (s : Text) : Bool :=
  (find? here s).isSome

/-- `substituteAll` from inside a recognised stretch of which `n` code points are
left. -/
def substituteFrom (here : Text → Option (Text × Text)) : Nat → Text → Text
  | _, [] => []
  | n + 1, _ :: s => substituteFrom here n s
  | 0, c :: s =>
    match here (c :: s) with
    | some (out, rest) => out ++ substituteFrom here (s.length - rest.length) s
    | none => c :: substituteFrom here 0 s

/-- Replace every place that `here` recognises; it returns the replacement and
the rest of the text. -/
def substituteAll (here : Text → Option (Text × Text)) (s : Text) : Text :=
  substituteFrom here 0 s

theorem substituteFrom_eq_drop (here : Text → Option (Text × Text)) (n : Nat) (s : Text) :
    substituteFrom here n s = substituteAll here (s.drop n) := by
  induction s generalizing n with
  | nil => cases n <;> simp [substituteFrom, substituteAll]
  | cons c s ih =>
    cases n with
    | zero => rfl
    | succ n => simpa [substituteFrom] using ih n

@[simp] theorem substituteAll_nil (here : Text → Option (Text × Text)) :
    substituteAll here [] = [] := rfl

/-- Where nothing is recognised the first code point stays. -/
theorem substituteAll_of_none {here : Text → Option (Text × Text)} {c : Char} {s : Text}
    (h : here (c :: s) = none) : substituteAll here (c :: s) = c :: substituteAll here s := by
  simp [substituteAll, substituteFrom, h]

/-- A recognised stretch is replaced and the scan goes on behind it. -/
theorem substituteAll_of_some {here : Text → Option (Text × Text)} {c : Char}
    {s seen out rest : Text} (hs : s = seen ++ rest)
    (h : here (c :: s) = some (out, rest)) :
    substituteAll here (c :: s) = out ++ substituteAll here rest := by
  subst hs
  rw [substituteAll, substituteFrom, h]
  show out ++ substituteFrom here _ _ = _
  rw [substituteFrom_eq_drop]
  simp

/-- Replace every occurrence of `word`, which is not empty. -/
def replaceAll (word out : Text) : Text → Text :=
  substituteAll fun s => (after? word s).map fun rest => (out, rest)

def substituteFirst (here : Text → Option (Text × Text)) (s : Text) : Text :=
  match find? here s with
  | some (before, out, rest) => before ++ out ++ rest
  | none => s

/-- `splitAll` from inside a separator of which `n` code points are left. -/
def splitFrom (here : Text → Option Text) : Nat → Text → List Text
  | _, [] => [[]]
  | n + 1, _ :: s => splitFrom here n s
  | 0, c :: s =>
    match here (c :: s) with
    | some rest => [] :: splitFrom here (s.length - rest.length) s
    | none => (splitFrom here 0 s).modifyHead (c :: ·)

/-- The pieces between the separators that `here` recognises; it returns the
rest of the text behind a separator. -/
def splitAll (here : Text → Option Text) (s : Text) : List Text :=
  splitFrom here 0 s

def dropReturn (s : Text) : Text :=
  if s.getLast? = some '\r' then s.dropLast else s

/-- Lines from the pieces between line feeds: a carriage return before a line
feed belongs to the line break, and nothing behind the last one is no line. -/
def closeLines : List Text → List Text
  | [] => []
  | [last] => if last.isEmpty then [] else [last]
  | line :: rest => dropReturn line :: closeLines rest

def lines (s : Text) : List Text := closeLines (s.splitOn '\n')

/-- The stretch up to the first `close`, when it is not empty, and what follows
`close`: the inside of a bracket that has just been opened. -/
def enclosed? (close : Char) (s : Text) : Option (Text × Text) :=
  match s.takeWhile (· != close), s.dropWhile (· != close) with
  | c :: body, _ :: rest => some (c :: body, rest)
  | _, _ => none

def afterBlanks? : Text → Option Text
  | c :: s => if isBlank c then some (s.dropWhile isBlank) else none
  | [] => none

def afterRun? (x : Char) : Text → Option Text
  | c :: s => if c = x then some (s.dropWhile (· == x)) else none
  | [] => none

end Text

namespace Preview

open Text

/-- A preview with room for `n` characters.  `afterBlank` says whether the last
one shown was a blank; of adjacent blanks one is shown, as a space. -/
def shown (n : Nat) (afterBlank : Bool) : Text → Text
  | [] => []
  | c :: s =>
    match n with
    | 0 => ['…']
    | n + 1 =>
      if !isBlank c then c :: shown n false s
      else if afterBlank then shown (n + 1) true s
      else ' ' :: shown n true s

/-- The text without the blanks around it, adjacent blanks shown as one space,
and cut off after `n` characters with an ellipsis. -/
def compact (s : Text) (n : Nat) : Text := shown n false (trim s)

def folded (s : Text) : Text :=
  List.intercalate [' '] ((splitAll afterBlanks? s).filter (!·.isEmpty))

end Preview
end StyleScope
