import StyleScope.Text.Basic

/-!
# What a regular expression matches

Web addresses are often described with a few kinds of items only.  An `Expression` is such a
description, `text` is how it is written and `Matches` says which texts it matches in full.
Anchors make no difference then.  Which characters count as word characters is a parameter:
globs do not depend on it.

A `Nested` expression has characters and groups, where the alternatives of a group are
expressions again.  It matches finitely many texts, and `words` lists them.
-/

namespace StyleScope
namespace Regexp

open Text

def escapeDots (word : Text) : Text :=
  word.flatMap fun c => if c = '.' then ['\\', '.'] else [c]

/-- A word without dots is written as it is. -/
theorem escapeDots_eq_self {word : Text} (h : '.' ∉ word) : escapeDots word = word := by
  induction word with
  | nil => rfl
  | cons c word ih =>
    rw [List.mem_cons, not_or] at h
    show (if c = '.' then ['\\', '.'] else [c]) ++ escapeDots word = c :: word
    rw [if_neg (Ne.symm h.1), ih h.2]
    rfl

inductive Item
  | literal (c : Char)
  /-- A character behind a backslash, which stands for itself. -/
  | escaped (c : Char)
  /-- Any text on one line, which may have to be there.  A lazy repetition matches
  the same texts in full. -/
  | anyText (needed isLazy : Bool)
  | digit
  | digits
  | wordChars
  /-- A text of characters from a class. -/
  | charsOf (members : Text)
  /-- One of the words. -/
  | choice (capturing : Bool) (words : List Text)
  /-- One of the words, or nothing. -/
  | optional (words : List Text)
  | optionalLetter (c : Char)

namespace Item

def alternatives (words : List Text) : Text :=
  List.intercalate ['|'] (words.map escapeDots)

def text : Item → Text
  | .literal c => [c]
  | .escaped c => ['\\', c]
  | .anyText needed isLazy =>
    '.' :: (if needed then '+' else '*') :: if isLazy then ['?'] else []
  | .digit => "\\d".toList
  | .digits => "\\d+".toList
  | .wordChars => "\\w+".toList
  | .charsOf members => '[' :: members ++ "]+".toList
  | .choice capturing words =>
    (if capturing then "(" else "(?:").toList ++ alternatives words ++ [')']
  | .optional words => '(' :: alternatives words ++ ")?".toList
  | .optionalLetter c => [c, '?']

/-- Is a character in the class that is written with `members`?  A hyphen between
two characters stands for the range from the one to the other. -/
def inClass : Text → Char → Bool
  | low :: '-' :: high :: members, c =>
    (decide (low ≤ c) && decide (c ≤ high)) || inClass members c
  | x :: members, c => c == x || inClass members c
  | [], _ => false

example : inClass "a-cx-".toList 'b' = true ∧ inClass "a-cx-".toList '-' = true ∧
    inClass "a-cx-".toList 'd' = false := by decide

def Matches (isWordChar : Char → Prop) (s : Text) : Item → Prop
  | .literal c => s = [c]
  | .escaped c => s = [c]
  | .anyText needed _ => '\n' ∉ s ∧ (needed = true → s ≠ [])
  | .digit => ∃ c, s = [c] ∧ isDecimalDigit c = true
  | .digits => s ≠ [] ∧ ∀ c ∈ s, isDecimalDigit c = true
  | .wordChars => s ≠ [] ∧ ∀ c ∈ s, isWordChar c
  | .charsOf members => s ≠ [] ∧ ∀ c ∈ s, inClass members c = true
  | .choice _ words => s ∈ words
  | .optional words => s = [] ∨ s ∈ words
  | .optionalLetter c => s = [] ∨ s = [c]

end Item

inductive ItemsMatch (isWordChar : Char → Prop) : List Item → Text → Prop
  | nil : ItemsMatch isWordChar [] []
  | cons {item : Item} {items : List Item} {s t : Text} (h : item.Matches isWordChar s)
      (hs : ItemsMatch isWordChar items t) : ItemsMatch isWordChar (item :: items) (s ++ t)

inductive SchemeForm
  | http
  | https
  /-- With or without the `s`. -/
  | either
  deriving DecidableEq

namespace SchemeForm

/-- A scheme as it is written, up to the name of the host. -/
def text : SchemeForm → Text
  | .http => "http://".toList
  | .https => "https://".toList
  | .either => "https?://".toList

def matching : SchemeForm → List Text
  | .http => ["http://".toList]
  | .https => ["https://".toList]
  | .either => ["http://".toList, "https://".toList]

end SchemeForm

structure Expression where
  atStart : Bool
  scheme : SchemeForm
  items : List Item
  atEnd : Bool

namespace Expression

def body (e : Expression) : Text := e.items.flatMap Item.text

def text (e : Expression) : Text :=
  (if e.atStart then ['^'] else []) ++ e.scheme.text ++ e.body ++
    (if e.atEnd then ['$'] else [])

def Matches (isWordChar : Char → Prop) (e : Expression) (s : Text) : Prop :=
  ∃ start ∈ e.scheme.matching, ∃ rest,
    s = start ++ rest ∧ ItemsMatch isWordChar e.items rest

end Expression

inductive Nested
  | char (c : Char)
  | group (first : List Nested) (others : List (List Nested))

namespace Nested

mutual
def text : Nested → Text
  | .char c => [c]
  | .group first others => '(' :: sequenceText first ++ othersText others ++ [')']

def sequenceText : List Nested → Text
  | [] => []
  | e :: es => e.text ++ sequenceText es

def othersText : List (List Nested) → Text
  | [] => []
  | es :: ess => '|' :: sequenceText es ++ othersText ess
end

def joined (ss ts : List Text) : List Text := ss.flatMap fun s => ts.map (s ++ ·)

theorem mem_joined {ss ts : List Text} {u : Text} :
    u ∈ joined ss ts ↔ ∃ s ∈ ss, ∃ t ∈ ts, u = s ++ t := by
  unfold joined
  rw [List.mem_flatMap]
  constructor
  · rintro ⟨s, hs, hu⟩
    obtain ⟨t, ht, rfl⟩ := List.mem_map.1 hu
    exact ⟨s, hs, t, ht, rfl⟩
  · rintro ⟨s, hs, t, ht, rfl⟩
    exact ⟨s, hs, List.mem_map.2 ⟨t, ht, rfl⟩⟩

mutual
/-- The texts that an expression matches in full. -/
def words : Nested → List Text
  | .char c => [[c]]
  | .group first others => sequenceWords first ++ othersWords others

def sequenceWords : List Nested → List Text
  | [] => [[]]
  | e :: es => joined e.words (sequenceWords es)

def othersWords : List (List Nested) → List Text
  | [] => []
  | es :: ess => sequenceWords es ++ othersWords ess
end

end Nested
end Regexp
end StyleScope
