/-!
# Text

A text is the list of its code points, so that every scanner of the library is a recursion on
a list.  The module holds the type, the white space of Unicode, trimming, and the decimal
digits of Unicode 16, general category Nd.

Case is ignored as Unicode's simple case folding has it: besides A to Z, the long s and the
Kelvin sign fold to letters of ASCII, and no other code point does.  A keyword is written in
small letters and compared with folded text.
-/

namespace StyleScope

/-- A text, as the list of its code points. -/
abbrev Text := List Char

namespace Text

/-- What holds of the code points of a text is decided along the text, never by going
through all code points. -/
instance (priority := 2000) decidableForallMem (s : Text) (p : Char → Prop) [DecidablePred p] :
    Decidable (∀ c ∈ s, p c) :=
  List.decidableBAll p s

/-- The code points that have the Unicode property White_Space. -/
def isBlank (c : Char) : Bool :=
  let n := c.toNat
  (0x09 ≤ n && n ≤ 0x0D) || n == 0x20 || n == 0x85 || n == 0xA0 || n == 0x1680 ||
    (0x2000 ≤ n && n ≤ 0x200A) || n == 0x2028 || n == 0x2029 || n == 0x202F ||
    n == 0x205F || n == 0x3000

def trimStart (s : Text) : Text := s.dropWhile isBlank

def trimEnd (s : Text) : Text := (s.reverse.dropWhile isBlank).reverse

def trim (s : Text) : Text := trimEnd (trimStart s)

def allBlank (s : Text) : Bool := s.all isBlank

theorem allBlank_cons_iff {c : Char} {s : Text} :
    allBlank (c :: s) = true ↔ isBlank c = true ∧ allBlank s = true := by
  rw [allBlank, List.all_cons, Bool.and_eq_true, allBlank]

def decimal (n : Nat) : Text := Nat.toDigits 10 n

/-- The code point of the zero of every decimal system. -/
def decimalZeros : List Nat :=
  [0x30, 0x660, 0x6F0, 0x7C0, 0x966, 0x9E6, 0xA66, 0xAE6, 0xB66, 0xBE6, 0xC66,
   0xCE6, 0xD66, 0xDE6, 0xE50, 0xED0, 0xF20, 0x1040, 0x1090, 0x17E0, 0x1810,
   0x1946, 0x19D0, 0x1A80, 0x1A90, 0x1B50, 0x1BB0, 0x1C40, 0x1C50, 0xA620, 0xA8D0,
   0xA900, 0xA9D0, 0xA9F0, 0xAA50, 0xABF0, 0xFF10, 0x104A0, 0x10D30, 0x10D40,
   0x11066, 0x110F0, 0x11136, 0x111D0, 0x112F0, 0x11450, 0x114D0, 0x11650, 0x116C0,
   0x116D0, 0x116DA, 0x11730, 0x118E0, 0x11950, 0x11BF0, 0x11C50, 0x11D50, 0x11DA0,
   0x11F50, 0x16130, 0x16A60, 0x16AC0, 0x16B50, 0x16D70, 0x1CCF0, 0x1D7CE, 0x1D7D8,
   0x1D7E2, 0x1D7EC, 0x1D7F6, 0x1E140, 0x1E2F0, 0x1E4F0, 0x1E5F1, 0x1E950, 0x1FBF0]

/-- Is the code point a decimal digit of any script? -/
def isDecimalDigit (c : Char) : Bool :=
  decimalZeros.any fun z => z ≤ c.toNat && c.toNat ≤ z + 9

def digit? (c : Char) : Option Nat :=
  if c.isDigit then some (c.toNat - 0x30) else none

def hexDigit? (c : Char) : Option Nat :=
  if c.isDigit then some (c.toNat - 0x30)
  else if 'a' ≤ c ∧ c ≤ 'f' then some (c.toNat - 0x61 + 10)
  else if 'A' ≤ c ∧ c ≤ 'F' then some (c.toNat - 0x41 + 10)
  else none

/-- The number that digits of a base below 17 spell, the highest first. -/
def valueOf (base : Nat) (digits : List Nat) : Nat :=
  digits.foldl (fun n d => n * base + d) 0

def hexadecimal (n : Nat) : Text := Nat.toDigits 16 n

/-! ## Case -/

/-- Simple case folding, for the code points that fold to ASCII. -/
def foldCase (c : Char) : Char :=
  if c = '\u017f' then 's' else if c = '\u212a' then 'k' else c.toLower

/-- Whatever is no small letter is folded from itself alone. -/
theorem eq_of_foldCase_eq {c d : Char} (hd : d.isLower = false) (h : foldCase c = d) : c = d := by
  subst h
  unfold foldCase at hd ⊢
  split at hd
  · exact absurd hd (by decide)
  · split at hd
    · exact absurd hd (by decide)
    · next h1 h2 =>
      rw [if_neg h1, if_neg h2]
      unfold Char.toLower at hd ⊢
      split
      · next hup =>
        -- A capital letter is folded to a small one, 32 code points further on.
        rw [dif_pos hup] at hd
        have hlow : 65 ≤ c.val.toNat := UInt32.le_iff_toNat_le.1 hup.1
        have hhigh : c.val.toNat ≤ 90 := UInt32.le_iff_toNat_le.1 hup.2
        have hbounds : ∀ e : Char, e.isLower = (decide (97 ≤ e.val) && decide (e.val ≤ 122)) :=
          fun _ => rfl
        simp only [hbounds, Bool.and_eq_false_iff, decide_eq_false_iff_not,
          UInt32.le_iff_toNat_le, UInt32.toNat_add] at hd
        change ¬ 97 ≤ (c.val.toNat + 32) % 2 ^ 32 ∨ ¬ (c.val.toNat + 32) % 2 ^ 32 ≤ 122 at hd
        omega
      · rfl

theorem eq_of_map_foldCase_eq {s t : Text} (ht : ∀ c ∈ t, c.isLower = false)
    (h : s.map foldCase = t) : s = t := by
  induction s generalizing t with
  | nil => rw [← h, List.map_nil]
  | cons c s ih =>
    rw [List.map_cons] at h
    subst h
    have hc : c = foldCase c := eq_of_foldCase_eq (ht _ List.mem_cons_self) rfl
    have hs : s = s.map foldCase := ih (fun d hd => ht d (List.mem_cons_of_mem _ hd)) rfl
    rw [← hc, ← hs]

/-- What follows `word` at the start of a text, case ignored; `word` itself is
in small letters. -/
def afterFolded? : Text → Text → Option Text
  | [], s => some s
  | _ :: _, [] => none
  | w :: ws, c :: s => if foldCase c = w then afterFolded? ws s else none

/-- A text starts with `word`, case ignored, exactly when it is some spelling of
`word` and what is returned. -/
theorem afterFolded?_eq_some {word s rest : Text} :
    afterFolded? word s = some rest ↔
      ∃ spelling, s = spelling ++ rest ∧ spelling.map foldCase = word := by
  induction word generalizing s with
  | nil => simp [afterFolded?, eq_comm]
  | cons w ws ih =>
    cases s with
    | nil => simp [afterFolded?]
    | cons c s =>
      by_cases h : foldCase c = w
      · simp only [afterFolded?, h, if_true, ih]
        constructor
        · rintro ⟨sp, rfl, rfl⟩
          exact ⟨c :: sp, rfl, by simp [h]⟩
        · rintro ⟨sp, hs, hm⟩
          cases sp with
          | nil => simp at hm
          | cons x sp =>
            simp only [List.cons_append, List.cons.injEq] at hs
            simp only [List.map_cons, List.cons.injEq] at hm
            exact ⟨sp, hs.2, hm.2⟩
      · simp only [afterFolded?, h, if_false, reduceCtorEq, false_iff]
        rintro ⟨sp, hs, hm⟩
        cases sp with
        | nil => simp at hm
        | cons x sp =>
          simp only [List.cons_append, List.cons.injEq] at hs
          simp only [List.map_cons, List.cons.injEq] at hm
          exact h (hs.1 ▸ hm.1)

def equalsFolded (word s : Text) : Bool := s.map foldCase == word

end Text
end StyleScope
