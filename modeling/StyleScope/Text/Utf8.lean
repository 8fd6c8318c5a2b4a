import StyleScope.Text.Basic

/-!
# UTF-8

Texts as octets.  Octets that stand for no character are refused by `decode?`, while `lossy`
shows them as U+FFFD: once for as many octets as could start a character that does not go on.
-/

namespace StyleScope

abbrev Octets := List UInt8

namespace Text
namespace Utf8

def encode (s : Text) : Octets := s.flatMap String.utf8EncodeChar

def first? (octets : Octets) : Option Char := (octets.take 4).toByteArray.utf8DecodeChar? 0

def isContinuation (b : UInt8) : Bool := 0x80 ≤ b && b ≤ 0xBF

/-- Can two octets start a character of three or four?  The second one is bounded where a
shorter spelling, a surrogate or a number above U+10FFFF would come out. -/
def startLong (a b : UInt8) : Bool :=
  if a = 0xE0 then 0xA0 ≤ b && b ≤ 0xBF
  else if a = 0xED then 0x80 ≤ b && b ≤ 0x9F
  else if a = 0xF0 then 0x90 ≤ b && b ≤ 0xBF
  else if a = 0xF4 then 0x80 ≤ b && b ≤ 0x8F
  else 0xE0 < a && a < 0xF4 && isContinuation b

/-- How many octets are shown as one mark where no character starts. -/
def brokenLength : Octets → Nat
  | a :: b :: c :: _ =>
    if startLong a b then if 0xF0 ≤ a && isContinuation c then 3 else 2 else 1
  | [a, b] => if startLong a b then 2 else 1
  | _ => 1

/-- `read` from inside a character or a broken one of which `n` octets are left. -/
def readFrom : Nat → Octets → List (Option Char)
  | _, [] => []
  | n + 1, _ :: rest => readFrom n rest
  | 0, a :: rest =>
    match first? (a :: rest) with
    | some c => some c :: readFrom (c.utf8Size - 1) rest
    | none => none :: readFrom (brokenLength (a :: rest) - 1) rest

def read (octets : Octets) : List (Option Char) := readFrom 0 octets

def decode? (octets : Octets) : Option Text := (read octets).mapM id

def lossy (octets : Octets) : Text := (read octets).map (·.getD '\uFFFD')

/-- Octets of ASCII are characters of their own. -/
theorem toNat_of_mem_utf8EncodeChar {c : Char} {b : UInt8} (hb : b.toNat < 0x80)
    (h : b ∈ String.utf8EncodeChar c) : c.toNat = b.toNat := by
  have hlater : ∀ n, 0x80 ≤ n → n < 0x100 → b ≠ UInt8.ofNat n := by
    rintro n hlow hhigh rfl
    rw [UInt8.toNat_ofNat_of_lt' hhigh] at hb
    omega
  simp only [String.utf8EncodeChar] at h
  split at h
  · next hle =>
    rw [List.mem_singleton.1 h, UInt8.toNat_ofNat_of_lt' (Nat.lt_of_le_of_lt hle (by decide))]
    rfl
  · exfalso
    split at h
    · simp only [List.mem_cons, List.not_mem_nil, or_false] at h
      rcases h with h | h <;> exact hlater _ (by omega) (by omega) h
    · split at h
      · simp only [List.mem_cons, List.not_mem_nil, or_false] at h
        rcases h with h | h | h <;> exact hlater _ (by omega) (by omega) h
      · simp only [List.mem_cons, List.not_mem_nil, or_false] at h
        rcases h with h | h | h | h <;> exact hlater _ (by omega) (by omega) h

theorem first?_append (c : Char) (rest : Octets) :
    first? (String.utf8EncodeChar c ++ rest) = some c := by
  have hlength : (String.utf8EncodeChar c).length ≤ 4 := by
    rw [String.length_utf8EncodeChar]
    exact c.utf8Size_le_four
  rw [first?, List.take_append, List.take_of_length_le hlength, List.toByteArray_append]
  exact ByteArray.utf8DecodeChar?_utf8EncodeChar_append

theorem prefix_of_first? {octets : Octets} {c : Char} (h : first? octets = some c) :
    String.utf8EncodeChar c <+: octets := by
  obtain ⟨rest, hrest⟩ := ByteArray.exists_of_utf8DecodeChar?_eq_some h
  have hdata := congrArg (fun b => b.data.toList) hrest
  simp only [ByteArray.data_append, List.data_toByteArray, Array.toList_append] at hdata
  exact List.IsPrefix.trans ⟨rest.data.toList, hdata.symm⟩ (List.take_prefix 4 octets)

theorem readFrom_eq_drop (n : Nat) (octets : Octets) :
    readFrom n octets = read (octets.drop n) := by
  induction octets generalizing n with
  | nil => cases n <;> rfl
  | cons a rest ih =>
    cases n with
    | zero => rfl
    | succ n => exact ih n

theorem read_append (c : Char) (rest : Octets) :
    read (String.utf8EncodeChar c ++ rest) = some c :: read rest := by
  have hfirst := first?_append c rest
  have hlength := String.length_utf8EncodeChar c
  cases hc : String.utf8EncodeChar c with
  | nil =>
    rw [hc] at hlength
    exact absurd hlength.symm (Nat.pos_iff_ne_zero.1 c.utf8Size_pos)
  | cons a more =>
    rw [hc, List.cons_append] at hfirst
    rw [hc, List.length_cons] at hlength
    rw [List.cons_append, read, readFrom, hfirst]
    show some c :: readFrom (c.utf8Size - 1) (more ++ rest) = _
    rw [readFrom_eq_drop, ← hlength, Nat.add_sub_cancel, List.drop_left]

/-- A text is read back from its octets. -/
theorem read_encode (s : Text) : read (encode s) = s.map some := by
  induction s with
  | nil => rfl
  | cons c s ih => rw [encode, List.flatMap_cons, read_append, ← encode, ih, List.map_cons]

theorem lossy_encode (s : Text) : lossy (encode s) = s := by
  rw [lossy, read_encode, List.map_map]
  exact List.map_id s

theorem encode_injective {s t : Text} (h : encode s = encode t) : s = t := by
  rw [← lossy_encode s, h, lossy_encode]

/-- A character that is read has its octets somewhere. -/
theorem infix_of_mem_read {octets : Octets} {c : Char} (h : some c ∈ read octets) :
    String.utf8EncodeChar c <:+: octets := by
  suffices hfrom : ∀ n, some c ∈ readFrom n octets → String.utf8EncodeChar c <:+: octets from
    hfrom 0 h
  clear h
  induction octets with
  | nil =>
    intro n hmem
    cases n <;> exact absurd hmem List.not_mem_nil
  | cons a rest ih =>
    have hrest : ∀ n, some c ∈ readFrom n rest → String.utf8EncodeChar c <:+: a :: rest :=
      fun n hmem => (ih n hmem).trans (List.suffix_cons a rest).isInfix
    intro n hmem
    cases n with
    | succ n => exact hrest n hmem
    | zero =>
      rw [readFrom] at hmem
      split at hmem
      · next d hd =>
        rcases List.mem_cons.1 hmem with heq | hmem
        · exact Option.some.inj heq ▸ (prefix_of_first? hd).isInfix
        · exact hrest _ hmem
      · rcases List.mem_cons.1 hmem with heq | hmem
        · exact absurd heq (by simp)
        · exact hrest _ hmem

theorem mem_of_mem_lossy {octets : Octets} {c : Char} (hc : c ≠ '\uFFFD') (h : c ∈ lossy octets) :
    String.utf8EncodeChar c <:+: octets := by
  obtain ⟨shown, hshown, rfl⟩ := List.mem_map.1 h
  cases shown with
  | none => exact absurd rfl hc
  | some c => exact infix_of_mem_read hshown

end Utf8
end Text
end StyleScope
