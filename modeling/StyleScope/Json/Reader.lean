import StyleScope.Json.Lexical

/-!
# JSON: values of a known shape

Readers for the shapes that settings have.  Members of objects that nobody asks
for are skipped, whatever they are.
-/

namespace StyleScope
namespace Json

open Text

mutual
/-- What follows a value that is skipped, reading at most `n` levels and items. -/
def skipValue : Nat → Text → Except Fault Text
  | 0, _ => .error .malformed
  | n + 1, s =>
    match skipSpace s with
    | [] => .error .truncated
    | 'n' :: s => word "ull".toList s
    | 't' :: s => word "rue".toList s
    | 'f' :: s => word "alse".toList s
    | '\x22' :: s => (quoted false s).map (·.2)
    | '-' :: s => skipNumber s
    | '[' :: s =>
      match skipSpace s with
      | ']' :: s => .ok s
      | [] => .error .truncated
      | s => (skipValue n s).bind (skipItems n)
    | '\x7b' :: s =>
      match skipSpace s with
      | '\x7d' :: s => .ok s
      | s => skipMember n s
    | c :: s => if c.isDigit then skipNumber (c :: s) else .error .malformed

def skipItems : Nat → Text → Except Fault Text
  | 0, _ => .error .malformed
  | n + 1, s =>
    match skipSpace s with
    | ']' :: s => .ok s
    | ',' :: s => (skipValue n s).bind (skipItems n)
    | [] => .error .truncated
    | _ => .error .malformed

def skipMember : Nat → Text → Except Fault Text
  | 0, _ => .error .malformed
  | n + 1, s =>
    match skipSpace s with
    | '\x22' :: s => do
      let (_, s) ← quoted false s
      match skipSpace s with
      | ':' :: s => (skipValue n s).bind (skipMembers n)
      | [] => .error .truncated
      | _ => .error .malformed
    | [] => .error .truncated
    | _ => .error .malformed

def skipMembers : Nat → Text → Except Fault Text
  | 0, _ => .error .malformed
  | n + 1, s =>
    match skipSpace s with
    | '\x7d' :: s => .ok s
    | ',' :: s => skipMember n s
    | [] => .error .truncated
    | _ => .error .malformed
end

def skip (s : Text) : Except Fault Text := skipValue (2 * s.length + 2) s

/-- What is wrong with a value of another kind than the one wanted.  It is read
far enough to know its kind, and may turn out to be no value. -/
def wrongKind (s : Text) : Fault :=
  let judge {α : Type} : Except Fault α → Fault
    | .ok _ => .mismatched
    | .error fault => fault
  match s with
  | [] => .truncated
  | 'n' :: s => judge (word "ull".toList s)
  | 't' :: s => judge (word "rue".toList s)
  | 'f' :: s => judge (word "alse".toList s)
  | '\x22' :: s => judge (quoted true s)
  | '-' :: s => judge (number true s)
  | '[' :: _ => .mismatched
  | '\x7b' :: _ => .mismatched
  | c :: s => if c.isDigit then judge (number false (c :: s)) else .malformed

def string : Read Text := fun s =>
  match skipSpace s with
  | '\x22' :: s => quoted true s
  | s => .error (wrongKind s)

def boolean : Read Bool := fun s =>
  match skipSpace s with
  | 't' :: s => (word "rue".toList s).map fun s => (true, s)
  | 'f' :: s => (word "alse".toList s).map fun s => (false, s)
  | s => .error (wrongKind s)

def natural : Read Nat := fun s =>
  match skipSpace s with
  | c :: s =>
    if c.isDigit then
      match number false (c :: s) with
      | .ok (.natural n, s) => .ok (n, s)
      | .ok (.other, _) => .error .mismatched
      | .error fault => .error fault
    else .error (wrongKind (c :: s))
  | [] => .error .truncated

def colon (s : Text) : Except Fault Text :=
  match skipSpace s with
  | ':' :: s => .ok s
  | [] => .error .truncated
  | _ => .error .malformed

/-- A member of an object read into a state, from behind its key. -/
abbrev MemberReader (σ : Type) := Text → σ → Read σ

mutual
/-- The members of an object read into a state, at most `n` of them.  `isFirst`
says that none has been read yet. -/
def members {σ : Type} (read : MemberReader σ) : Nat → Bool → σ → Read σ
  | 0, _, _, _ => .error .malformed
  | n + 1, isFirst, state, s =>
    match skipSpace s, isFirst with
    | [], _ => .error .truncated
    | '\x7d' :: s, _ => .ok (state, s)
    | '\x22' :: s, true => member read n state s
    | ',' :: s, false =>
      match skipSpace s with
      | '\x22' :: s => member read n state s
      | [] => .error .truncated
      | _ => .error .malformed
    | _, _ => .error .malformed

def member {σ : Type} (read : MemberReader σ) : Nat → σ → Read σ
  | 0, _, _ => .error .malformed
  | n + 1, state, s => do
    let (key, s) ← quoted true s
    let (state, s) ← read key state s
    members read n false state s
end

/-- A member that is asked for at most once: `known` is what an earlier one gave. -/
def once {α : Type} (known : Option α) (read : Read α) : Read α := fun s =>
  if known.isSome then .error .mismatched else (colon s).bind read

def item? (isFirst : Bool) (s : Text) : Except Fault (Option Text) :=
  match skipSpace s with
  | [] => .error .truncated
  | ']' :: _ => .ok none
  | c :: s =>
    if isFirst then .ok (some (c :: s))
    else if c == ',' then
      match skipSpace s with
      | [] => .error .truncated
      | ']' :: _ => .error .malformed
      | s => .ok (some s)
    else .error .malformed

/-- The next item of a list, or `default` if the list has no more. -/
def itemOr {α : Type} (default : α) (read : Read α) (isFirst : Bool) : Read α := fun s => do
  match ← item? isFirst s with
  | some s => read s
  | none => return (default, s)

def closeList (s : Text) : Except Fault Text :=
  match skipSpace s with
  | [] => .error .truncated
  | ']' :: s => .ok s
  | _ => .error .malformed

def finish {α : Type} : Except Fault (α × Text) → Except Fault α
  | .ok (a, s) => if (skipSpace s).isEmpty then .ok a else .error .malformed
  | .error fault => .error fault

end Json
end StyleScope
