import StyleScope.Text.Scan
import StyleScope.Text.Basic

/-!
# Patterns

A match pattern names web addresses by scheme, host and path.  The scheme is `http`, `https` or
`*`; the host is a name, `*`, or a name behind `*.`; the path is any text on one line.  Besides
these there are `<all_urls>` and the patterns of local files.  A host has no port and no `*`
elsewhere.

The patterns of a converted style are those for `@match`, which are match patterns, and those
for `@include`, which are globs over whole addresses.  Both keep the order in which they were
found, and neither has one twice.
-/

namespace StyleScope
namespace Pattern

open Text

def allUrls : Text := "<all_urls>".toList

/-- Every web address. -/
def catchAll : Text := "*://*/*".toList

def afterScheme? : Text → Option Text
  | '*' :: s => after? "://".toList s
  | s =>
    (afterFolded? "http://".toList s).or (afterFolded? "https://".toList s)

def isHostName (s : Text) : Bool :=
  !s.isEmpty && s.all fun c => c != '*' && c != ':' && c != '/'

def isHost : Text → Bool
  | ['*'] => true
  | '*' :: '.' :: s => isHostName s
  | s => isHostName s

/-- Does a text consist of a host, a `/` and a path on one line? -/
def isHostAndPath (s : Text) : Bool :=
  match s.dropWhile (· != '/') with
  | _ :: path => isHost (s.takeWhile (· != '/')) && !path.contains '\n'
  | [] => false

def isFilePath (s : Text) : Bool := !s.isEmpty && !s.contains '\n'

def isMatch (s : Text) : Bool :=
  s == allUrls || (afterScheme? s).any isHostAndPath ||
    (afterFolded? "file:///".toList s).any isFilePath

theorem isMatch_catchAll : isMatch catchAll = true := by decide

end Pattern

structure UniqueList (α : Type) where
  toList : List α
  nodup : toList.Nodup

namespace UniqueList

variable {α : Type}

theorem ext_toList {a b : UniqueList α} (h : a.toList = b.toList) : a = b := by
  cases a; cases b; cases h; rfl

instance [DecidableEq α] : DecidableEq (UniqueList α) := fun a b =>
  if h : a.toList = b.toList then isTrue (ext_toList h)
  else isFalse fun hab => h (hab ▸ rfl)

instance : Membership α (UniqueList α) := ⟨fun l x => x ∈ l.toList⟩

theorem mem_def {l : UniqueList α} {x : α} : x ∈ l ↔ x ∈ l.toList := Iff.rfl

instance [DecidableEq α] (x : α) (l : UniqueList α) : Decidable (x ∈ l) :=
  inferInstanceAs (Decidable (x ∈ l.toList))

def empty : UniqueList α := ⟨[], List.nodup_nil⟩

instance : EmptyCollection (UniqueList α) := ⟨empty⟩

theorem toList_empty : (∅ : UniqueList α).toList = [] := rfl

def singleton (x : α) : UniqueList α := ⟨[x], by simp⟩

def insert [DecidableEq α] (l : UniqueList α) (x : α) : UniqueList α :=
  if h : x ∈ l.toList then l
  else ⟨l.toList ++ [x], by
    rw [List.nodup_append]
    exact ⟨l.nodup, by simp, by rintro a ha b hb rfl; simp at hb; exact h (hb ▸ ha)⟩⟩

theorem toList_insert [DecidableEq α] (l : UniqueList α) (x : α) :
    (l.insert x).toList = if x ∈ l.toList then l.toList else l.toList ++ [x] := by
  unfold insert; split <;> simp_all

theorem mem_insert [DecidableEq α] {l : UniqueList α} {x y : α} :
    y ∈ l.insert x ↔ y ∈ l ∨ y = x := by
  simp only [mem_def, toList_insert]
  split
  · constructor
    · exact Or.inl
    · rintro (h | rfl)
      · exact h
      · assumption
  · simp

def insertAll [DecidableEq α] (l : UniqueList α) (xs : List α) : UniqueList α :=
  xs.foldl insert l

theorem mem_insertAll [DecidableEq α] {l : UniqueList α} {xs : List α} {y : α} :
    y ∈ l.insertAll xs ↔ y ∈ l ∨ y ∈ xs := by
  induction xs generalizing l with
  | nil => simp [insertAll]
  | cons x xs ih =>
    have h : l.insertAll (x :: xs) = (l.insert x).insertAll xs := rfl
    rw [h, ih, mem_insert, List.mem_cons, or_assoc]

def ofList [DecidableEq α] (xs : List α) : UniqueList α := insertAll ∅ xs

def filter (p : α → Bool) (l : UniqueList α) : UniqueList α :=
  ⟨l.toList.filter p, l.nodup.filter p⟩

theorem toList_filter (p : α → Bool) (l : UniqueList α) :
    (l.filter p).toList = l.toList.filter p := rfl

end UniqueList

structure PatternSet where
  matchPatterns : UniqueList Text
  includePatterns : UniqueList Text
  deriving DecidableEq

/-- A pattern on its way into a set. -/
inductive Scope
  /-- A match pattern. -/
  | byMatch (pattern : Text)
  /-- A glob over whole addresses. -/
  | byInclude (pattern : Text)
  deriving DecidableEq

namespace PatternSet

def empty : PatternSet := ⟨∅, ∅⟩

instance : EmptyCollection PatternSet := ⟨empty⟩

def catchAll : PatternSet := ⟨.singleton Pattern.catchAll, ∅⟩

def add (set : PatternSet) : Scope → PatternSet
  | .byMatch p => { set with matchPatterns := set.matchPatterns.insert p }
  | .byInclude p => { set with includePatterns := set.includePatterns.insert p }

def addAll (set : PatternSet) (scopes : List Scope) : PatternSet :=
  scopes.foldl add set

def isEmpty (set : PatternSet) : Bool :=
  set.matchPatterns.toList.isEmpty && set.includePatterns.toList.isEmpty

def hasCatchAll (set : PatternSet) : Bool := decide (Pattern.catchAll ∈ set.matchPatterns)

/-- The pattern for every web address makes the others superfluous. -/
def collapse (set : PatternSet) : PatternSet :=
  if set.hasCatchAll then catchAll else set

/-- Move the globs that `toMatch?` can turn into match patterns, in their order,
and keep the others. -/
def promote (toMatch? : Text → Option Text) (set : PatternSet) : PatternSet where
  matchPatterns := set.matchPatterns.insertAll (set.includePatterns.toList.filterMap toMatch?)
  includePatterns := set.includePatterns.filter fun p => (toMatch? p).isNone

def promotable (toMatch? : Text → Option Text) (set : PatternSet) : Nat :=
  (set.includePatterns.toList.filter fun p => (toMatch? p).isSome).length

end PatternSet
end StyleScope
