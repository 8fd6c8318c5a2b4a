import Mathlib.Data.List.Forall2
import StyleScope.Proofs.Pattern.Recognition

/-!
# The grammar of match patterns

`Pattern.PatternForm` says how a match pattern is put together, without a word on how it
is read: which hosts there are, where a line may break, and which characters stand for the
letters of a scheme when case is ignored.  `Pattern.isMatch_iff_patternForm` says that
these texts are accepted and no others.

The reader cuts at the first slash behind `://`.  A host has no slash, so nothing is lost,
and whatever follows, further slashes, stars and colons included, is path.
-/

namespace StyleScope
namespace Text

/-! ## Letters without regard to case -/

/-- The characters that stand for a small letter when case is ignored: the letter, its
capital, and the two signs beyond ASCII that Unicode folds to a letter of ASCII. -/
def StandsFor (letter c : Char) : Prop :=
  c = letter ∨ c = letter.toUpper ∨ (letter = 's' ∧ c = '\u017f') ∨ (letter = 'k' ∧ c = '\u212a')

/-- A text is a spelling of `word`, character by character. -/
def IsSpelling (word s : Text) : Prop := List.Forall₂ StandsFor word s

theorem toNat_toLower (c : Char) :
    c.toLower.toNat = if 65 ≤ c.toNat ∧ c.toNat ≤ 90 then c.toNat + 32 else c.toNat := by
  have hcapital : c.val ≥ 'A'.val ∧ c.val ≤ 'Z'.val ↔ 65 ≤ c.toNat ∧ c.toNat ≤ 90 := by
    simp only [ge_iff_le, UInt32.le_iff_toNat_le]
    exact Iff.rfl
  have hshift : ('a'.val - 'A'.val).toNat = 32 := by decide
  have hval : c.val.toNat = c.toNat := rfl
  unfold Char.toLower
  split
  · next h =>
    rw [hcapital] at h
    rw [if_pos h]
    show (c.val + ('a'.val - 'A'.val)).toNat = c.toNat + 32
    rw [UInt32.toNat_add, hshift]
    omega
  · next h => rw [if_neg (mt hcapital.2 h)]

theorem toNat_toUpper (c : Char) :
    c.toUpper.toNat = if 97 ≤ c.toNat ∧ c.toNat ≤ 122 then c.toNat - 32 else c.toNat := by
  have hsmall : 'a'.val ≤ c.val ∧ c.val ≤ 'z'.val ↔ 97 ≤ c.toNat ∧ c.toNat ≤ 122 := by
    simp only [UInt32.le_iff_toNat_le]
    exact Iff.rfl
  -- The distance to the capitals is negative, so it wraps around.
  have hshift : ('A'.val - 'a'.val).toNat = 4294967264 := by decide
  have hval : c.val.toNat = c.toNat := rfl
  unfold Char.toUpper
  split
  · next h =>
    rw [hsmall] at h
    rw [if_pos h]
    show (c.val + ('A'.val - 'a'.val)).toNat = c.toNat - 32
    rw [UInt32.toNat_add, hshift]
    omega
  · next h => rw [if_neg (mt hsmall.2 h)]

def IsKeywordChar (c : Char) : Prop := c.toNat < 128 ∧ ¬ (65 ≤ c.toNat ∧ c.toNat ≤ 90)

instance (c : Char) : Decidable (IsKeywordChar c) :=
  inferInstanceAs (Decidable (_ ∧ _))

theorem foldCase_eq_iff {c d : Char} (hd : IsKeywordChar d) : foldCase c = d ↔ StandsFor d c := by
  have hlong : ¬ '\u017f'.toNat < 128 := by decide
  have hkelvin : ¬ '\u212a'.toNat < 128 := by decide
  have hupper : ∀ e : Char, e.toNat < 128 → e.toUpper.toNat < 128 := by
    intro e he
    rw [toNat_toUpper]
    split <;> omega
  unfold foldCase StandsFor
  split
  · next hc =>
    subst hc
    constructor
    · exact fun h => Or.inr (Or.inr (Or.inl ⟨h.symm, rfl⟩))
    · rintro (rfl | h | ⟨h, -⟩ | ⟨-, h⟩)
      · exact absurd hd.1 hlong
      · exact absurd (hupper d hd.1) (h ▸ hlong)
      · exact h.symm
      · exact absurd h (by decide)
  · next hs =>
    split
    · next hc =>
      subst hc
      constructor
      · exact fun h => Or.inr (Or.inr (Or.inr ⟨h.symm, rfl⟩))
      · rintro (rfl | h | ⟨-, h⟩ | ⟨h, -⟩)
        · exact absurd hd.1 hkelvin
        · exact absurd (hupper d hd.1) (h ▸ hkelvin)
        · exact absurd h (by decide)
        · exact h.symm
    · next hk =>
      have hcase : c.toLower = d ↔ c = d ∨ c = d.toUpper := by
        have hnot := hd.2
        rw [← Char.toNat_inj, ← Char.toNat_inj, ← Char.toNat_inj, toNat_toLower, toNat_toUpper]
        split <;> split <;> omega
      rw [hcase]
      simp only [hs, hk, and_false, or_false]

theorem map_foldCase_eq_iff {word s : Text} (hword : ∀ d ∈ word, IsKeywordChar d) :
    s.map foldCase = word ↔ IsSpelling word s := by
  induction word generalizing s with
  | nil => rw [List.map_eq_nil_iff, IsSpelling, List.forall₂_nil_left_iff]
  | cons d word ih =>
    rw [IsSpelling, List.forall₂_cons_left_iff, List.map_eq_cons_iff]
    have hd : IsKeywordChar d := hword d List.mem_cons_self
    constructor
    · rintro ⟨c, s, rfl, hc, hs⟩
      exact ⟨c, s, (foldCase_eq_iff hd).1 hc,
        (ih fun e he => hword e (List.mem_cons_of_mem d he)).1 hs, rfl⟩
    · rintro ⟨c, s, hc, hs, rfl⟩
      exact ⟨c, s, rfl, (foldCase_eq_iff hd).2 hc,
        (ih fun e he => hword e (List.mem_cons_of_mem d he)).2 hs⟩

end Text

namespace Pattern

open Text

/-! ## The forms -/

/-- A host without wildcards and without a port. -/
def IsName (x : Text) : Prop := x ≠ [] ∧ '*' ∉ x ∧ ':' ∉ x ∧ '/' ∉ x

/-- Any host, one host, or the hosts below one. -/
inductive HostForm : Text → Prop
  | any : HostForm "*".toList
  | name {x : Text} : IsName x → HostForm x
  | below {x : Text} : IsName x → HostForm ("*.".toList ++ x)

inductive SchemeForm : Text → Prop
  | http {s : Text} : IsSpelling "http".toList s → SchemeForm s
  | https {s : Text} : IsSpelling "https".toList s → SchemeForm s
  | any : SchemeForm "*".toList

inductive PatternForm : Text → Prop
  | allUrls : PatternForm "<all_urls>".toList
  | web {scheme host path : Text} : SchemeForm scheme → HostForm host → '\n' ∉ path →
    PatternForm (scheme ++ "://".toList ++ host ++ "/".toList ++ path)
  | file {start path : Text} : IsSpelling "file:///".toList start → path ≠ [] → '\n' ∉ path →
    PatternForm (start ++ path)

/-! ## What is read -/

theorem isHost_iff_hostForm {host : Text} : isHost host = true ↔ HostForm host := by
  constructor
  · intro h
    unfold isHost at h
    split at h
    · exact .any
    · exact .below (isHostName_iff.1 h)
    · exact .name (isHostName_iff.1 h)
  · rintro (_ | hname | hname)
    · rfl
    · rw [isHost_of_not_mem_star hname.2.1]
      exact isHostName_iff.2 hname
    · exact isHostName_iff.2 hname

theorem isScheme_iff_schemeForm {scheme : Text} : IsScheme scheme ↔ SchemeForm scheme := by
  have hhttp : scheme.map foldCase = "http".toList ↔ IsSpelling "http".toList scheme :=
    map_foldCase_eq_iff (by decide)
  have hhttps : scheme.map foldCase = "https".toList ↔ IsSpelling "https".toList scheme :=
    map_foldCase_eq_iff (by decide)
  constructor
  · intro h
    simp only [IsScheme, schemes, List.mem_cons, List.not_mem_nil, or_false] at h
    rcases h with h | h | h
    · exact .http (hhttp.1 h)
    · exact .https (hhttps.1 h)
    · rw [eq_of_map_foldCase_eq (by decide) h]
      exact .any
  · rintro (h | h | _)
    · rw [IsScheme, hhttp.2 h]
      decide
    · rw [IsScheme, hhttps.2 h]
      decide
    · decide

/-- A text is accepted as a match pattern exactly when it has the form of one. -/
theorem isMatch_iff_patternForm (p : Text) : isMatch p = true ↔ PatternForm p := by
  have hfile : ∀ start : Text,
      start.map foldCase = "file:///".toList ↔ IsSpelling "file:///".toList start :=
    fun _ => map_foldCase_eq_iff (by decide)
  have hweb : ∀ scheme host path : Text, scheme ++ "://".toList ++ host ++ "/".toList ++ path =
      scheme ++ "://".toList ++ (host ++ '/' :: path) := by
    intro scheme host path
    simp
  rw [isMatch_iff]
  constructor
  · rintro (rfl | ⟨scheme, host, path, hscheme, hhost, hpath, rfl⟩ |
      ⟨start, path, hstart, hne, hpath, rfl⟩)
    · exact .allUrls
    · rw [← hweb]
      exact .web (isScheme_iff_schemeForm.1 hscheme) (isHost_iff_hostForm.1 hhost) hpath
    · exact .file ((hfile start).1 hstart) hne hpath
  · rintro (_ | @⟨scheme, host, path, hscheme, hhost, hpath⟩ | @⟨start, path, hstart, hne, hpath⟩)
    · exact Or.inl rfl
    · rw [hweb]
      exact Or.inr (Or.inl ⟨scheme, host, path, isScheme_iff_schemeForm.2 hscheme,
        isHost_iff_hostForm.2 hhost, hpath, rfl⟩)
    · exact Or.inr (Or.inr ⟨start, path, (hfile start).2 hstart, hne, hpath, rfl⟩)

/-- A line may break in the host, and the long s is an s of the scheme. -/
example :
    isMatch "HTTP\u017f://a\nb/*:1/*".toList = true ∧ isMatch "https://a/\n".toList = false := by
  decide

end Pattern
end StyleScope
