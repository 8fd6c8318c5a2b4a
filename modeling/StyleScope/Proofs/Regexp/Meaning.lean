import Mathlib.Algebra.BigOperators.Group.List.Basic
import StyleScope.Proofs.Pattern.GlobMatching
import StyleScope.Proofs.Regexp.Branches
import StyleScope.Proofs.Regexp.Simplification

/-!
# The globs of an expression and what they match

The settled items of an expression are pieces, whose choices are its globs.  Every item
is then compared with its own choices: those of a flat item match the same texts
(`matches_iff_of_isFlat`), those of a common item at least the texts that the item matches
(`exists_choice_of_matches`).  Items that follow each other are compared one by one.
-/

namespace StyleScope
namespace Regexp

open Text Nested

/-! ## Items as pieces -/

namespace Piece

theorem choices_append (ps qs : List Piece) :
    choices (ps ++ qs) = joined (choices ps) (choices qs) := by
  induction ps with
  | nil =>
    show choices qs = joined [[]] (choices qs)
    rw [joined_singleton_left]
    simp
  | cons p ps ih =>
    rw [List.cons_append, choices, choices, ih, joined_assoc]

theorem choices_map_char (s : Text) : choices (s.map .char) = [s] := by
  induction s with
  | nil => rfl
  | cons c s ih =>
    rw [List.map_cons, choices, ih]
    rfl

theorem groupCount_append (ps qs : List Piece) :
    groupCount (ps ++ qs) = groupCount ps + groupCount qs := by
  induction ps with
  | nil => exact (Nat.zero_add _).symm
  | cons p ps ih =>
    cases p with
    | char c => exact ih
    | group words =>
      rw [List.cons_append, groupCount, groupCount, ih]
      omega

theorem groupCount_map_char (s : Text) : groupCount (s.map .char) = 0 := by
  induction s with
  | nil => rfl
  | cons c s ih => exact ih

/-- Some choice that a sequence offers matches a text. -/
def Covers (ps : List Piece) (s : Text) : Prop := ∃ w ∈ choices ps, Glob.Matches w s

theorem covers_append_iff {ps qs : List Piece} {s : Text} :
    Covers (ps ++ qs) s ↔ ∃ t u, s = t ++ u ∧ Covers ps t ∧ Covers qs u := by
  unfold Covers
  rw [choices_append]
  constructor
  · rintro ⟨w, hw, hmatches⟩
    obtain ⟨v, hv, x, hx, rfl⟩ := mem_joined.1 hw
    obtain ⟨t, u, rfl, ht, hu⟩ := Glob.matches_append_iff.1 hmatches
    exact ⟨t, u, rfl, ⟨v, hv, ht⟩, ⟨x, hx, hu⟩⟩
  · rintro ⟨t, u, rfl, ⟨v, hv, ht⟩, ⟨x, hx, hu⟩⟩
    exact ⟨v ++ x, mem_joined.2 ⟨v, hv, x, hx, rfl⟩, Glob.matches_append ht hu⟩

theorem covers_map_char_iff {s t : Text} : Covers (s.map .char) t ↔ Glob.Matches s t := by
  unfold Covers
  rw [choices_map_char]
  simp

theorem covers_nil_iff {t : Text} : Covers [] t ↔ t = [] := by
  have hnil : Covers [] t ↔ Glob.Matches [] t := covers_map_char_iff (s := [])
  rw [hnil, Glob.matches_nil_iff]

/-- The globs match what the choices match, which have no other wildcard than `*`. -/
theorem exists_matches_collapse_iff {ps : List Piece} (h : ∀ w ∈ choices ps, '?' ∉ w) {s : Text} :
    (∃ g ∈ (choices ps).map collapseWildcards, Glob.Matches g s) ↔ Covers ps s := by
  constructor
  · rintro ⟨g, hg, hmatches⟩
    obtain ⟨w, hw, rfl⟩ := List.mem_map.1 hg
    exact ⟨w, hw, (matches_collapse_iff (h w hw)).1 hmatches⟩
  · rintro ⟨w, hw, hmatches⟩
    exact ⟨_, List.mem_map_of_mem hw, (matches_collapse_iff (h w hw)).2 hmatches⟩

end Piece

/-- A text in which no syntax is left is its only glob. -/
theorem globs_of_forall_not_residual {pattern s : Text} (hne : s ≠ [])
    (hs : ∀ c ∈ s, isResidual c = false) (hsimplify : simplify pattern = collapseWildcards s) :
    globs pattern = [collapseWildcards s] := by
  have hclean : ∀ p ∈ s.map Piece.char, p.Clean := by
    intro p hp
    obtain ⟨c, hc, rfl⟩ := List.mem_map.1 hp
    exact hs c hc
  rw [globs, globs?_of_pieces hclean (by simpa using hne)
      (by rw [Piece.sequenceText_map_char, hsimplify]), Piece.groupCount_map_char,
    Piece.choices_map_char, if_pos ⟨Nat.zero_le maxRounds, (by decide : 1 ≤ maxBranches)⟩]
  rfl

namespace Item

def IsLiteralChar (c : Char) : Prop := c.isAlphanum = true ∨ c = '/' ∨ c = '-' ∨ c = '_'

instance (c : Char) : Decidable (IsLiteralChar c) := inferInstanceAs (Decidable (_ ∨ _))

/-- Items whose globs match at least what they match. -/
def IsCommon : Item → Prop
  | .literal c => IsLiteralChar c
  | .escaped c => c = '.' ∨ c = '/'
  | .anyText _ isLazy => isLazy = false
  | .digit | .digits | .wordChars => True
  | .charsOf members => members ≠ [] ∧ ∀ c ∈ members, c.isAlphanum = true ∨ c = '-'
  | .choice _ words | .optional words => words ≠ [] ∧ ∀ w ∈ words, IsWord w
  | .optionalLetter _ => False

/-- Items whose globs match exactly what they match. -/
def IsFlat : Item → Prop
  | .literal c => IsLiteralChar c
  | .escaped c => c = '.' ∨ c = '/'
  | .anyText needed isLazy => needed = false ∧ isLazy = false
  | .choice _ words => words ≠ [] ∧ ∀ w ∈ words, IsWord w
  | _ => False

instance decidableIsCommon : (i : Item) → Decidable i.IsCommon
  | .literal c => inferInstanceAs (Decidable (IsLiteralChar c))
  | .escaped c => inferInstanceAs (Decidable (c = '.' ∨ c = '/'))
  | .anyText _ isLazy => inferInstanceAs (Decidable (isLazy = false))
  | .digit | .digits | .wordChars => inferInstanceAs (Decidable True)
  | .charsOf members =>
    inferInstanceAs (Decidable (members ≠ [] ∧ ∀ c ∈ members, c.isAlphanum = true ∨ c = '-'))
  | .choice _ words | .optional words =>
    inferInstanceAs (Decidable (words ≠ [] ∧ ∀ w ∈ words, IsWord w))
  | .optionalLetter _ => inferInstanceAs (Decidable False)

instance decidableIsFlat : (i : Item) → Decidable i.IsFlat
  | .literal c => inferInstanceAs (Decidable (IsLiteralChar c))
  | .escaped c => inferInstanceAs (Decidable (c = '.' ∨ c = '/'))
  | .anyText needed isLazy => inferInstanceAs (Decidable (needed = false ∧ isLazy = false))
  | .choice _ words => inferInstanceAs (Decidable (words ≠ [] ∧ ∀ w ∈ words, IsWord w))
  | .digit | .digits | .wordChars | .charsOf _ | .optional _ | .optionalLetter _ =>
    inferInstanceAs (Decidable False)

variable {i : Item}

theorem IsFlat.isCommon (h : i.IsFlat) : i.IsCommon := by
  cases i with
  | literal c => exact h
  | escaped c => exact h
  | anyText needed isLazy => exact h.2
  | choice capturing words => exact h
  | _ => exact h.elim

theorem not_mem_of_isLiteralChar {c : Char} (h : IsLiteralChar c) :
    c ∉ ['(', ')', '[', '\x7b', '.', '\\', '|', '?', ':', '$', '\n', '*', '+'] := by
  intro hmem
  have hall : ∀ d ∈ ['(', ')', '[', '\x7b', '.', '\\', '|', '?', ':', '$', '\n', '*', '+'],
      ¬ (d.isAlphanum = true ∨ d = '/' ∨ d = '-' ∨ d = '_') := by decide
  exact hall c hmem h

theorem IsLiteralChar.plain {c : Char} (h : IsLiteralChar c) :
    isResidual c = false ∧ isWildcard c = false := by
  have hmarks : ∀ c ∈ ['(', ')', '|', '\\'] ++ ['*', '?'], ¬ IsLiteralChar c := by decide
  constructor <;> refine Bool.eq_false_iff.2 fun hc => hmarks c ?_ h
  · exact List.mem_append_left _ (isResidual_iff.1 hc)
  · exact List.mem_append_right _ (isWildcard_iff.1 hc)

theorem IsCommon.isSimple (h : i.IsCommon) : i.IsSimple := by
  cases i with
  | literal c =>
    intro hmem
    have hsub : ∀ d ∈ syntaxMarks,
        d ∈ ['(', ')', '[', '\x7b', '.', '\\', '|', '?', ':', '$', '\n', '*', '+'] := by decide
    exact not_mem_of_isLiteralChar h (hsub c hmem)
  | _ => exact h

def pieces : Item → List Piece
  | .literal c | .escaped c => [.char c]
  | .choice _ [w] => w.map .char
  | .choice _ words => [.group words]
  | _ => [.char '*']

theorem settled_eq_sequenceText (h : i.IsCommon) : i.settled = Piece.sequenceText i.pieces := by
  cases i with
  | literal c =>
    have hplus : c ≠ '+' := by
      rintro rfl
      exact not_mem_of_isLiteralChar h (by decide)
    show [if c = '+' then '*' else c] = [c]
    rw [if_neg hplus]
  | choice capturing words =>
    show choiceText ['.'] words = _
    rw [choiceText_dot]
    match words with
    | [] => rfl
    | [w] => exact (Piece.sequenceText_map_char w).symm
    | v :: w :: words =>
      show _ = Piece.text (.group (v :: w :: words)) ++ []
      rw [List.append_nil]
      rfl
  | optionalLetter c => exact absurd h id
  | _ => rfl

theorem not_special_of_isWord {w : Text} (h : IsWord w) :
    ∀ c ∈ w, isResidual c = false ∧ isWildcard c = false ∧ c ≠ '\n' := by
  intro c hc
  have hne : ∀ x : Char, x.isAlphanum = false → x ∉ ['-', '.'] → c ≠ x := fun x h1 h2 heq =>
    not_mem_replaceDots h h1 h2 (heq ▸ hc)
  have h1 := hne '(' (by decide) (by decide)
  have h2 := hne ')' (by decide) (by decide)
  have h3 := hne '|' (by decide) (by decide)
  have h4 := hne '\\' (by decide) (by decide)
  have h5 := hne '*' (by decide) (by decide)
  have h6 := hne '?' (by decide) (by decide)
  have h7 := hne '\n' (by decide) (by decide)
  simp [isResidual, isWildcard, h1, h2, h3, h4, h5, h6, h7]

theorem clean_pieces (h : i.IsCommon) : ∀ p ∈ i.pieces, p.Clean := by
  intro p hp
  cases i with
  | literal c =>
    rw [List.mem_singleton.1 hp]
    have hne : ∀ x ∈ ['(', ')', '|', '\\'], c ≠ x := by
      rintro x hx rfl
      refine not_mem_of_isLiteralChar h ?_
      have hsub : ∀ d ∈ ['(', ')', '|', '\\'],
          d ∈ ['(', ')', '[', '\x7b', '.', '\\', '|', '?', ':', '$', '\n', '*', '+'] := by decide
      exact hsub c hx
    have hres : isResidual c = false := by
      simp [isResidual, hne '(' (by decide), hne ')' (by decide), hne '|' (by decide),
        hne '\\' (by decide)]
    exact hres
  | escaped c =>
    rw [List.mem_singleton.1 hp]
    rcases h with rfl | rfl <;> rfl
  | choice capturing words =>
    obtain ⟨v, ws, rfl⟩ := List.exists_cons_of_ne_nil h.1
    cases ws with
    | nil =>
      obtain ⟨c, hc, rfl⟩ := List.mem_map.1 hp
      exact (not_special_of_isWord (h.2 v List.mem_cons_self) c hc).1
    | cons w ws =>
      rw [List.mem_singleton.1 hp]
      exact ⟨by simp, fun x hx => ⟨(h.2 x hx).1, not_special_of_isWord (h.2 x hx)⟩⟩
  | optionalLetter c => exact absurd h id
  | _ =>
    rw [List.mem_singleton.1 hp]
    rfl

theorem not_mem_query_pieces (h : i.IsCommon) : ∀ p ∈ i.pieces, ∀ v ∈ p.words, '?' ∉ v := by
  intro p hp v hv
  cases i with
  | literal c =>
    rw [List.mem_singleton.1 hp] at hv
    rw [List.mem_singleton.1 hv, List.mem_singleton]
    rintro rfl
    exact not_mem_of_isLiteralChar h (by decide)
  | escaped c =>
    rw [List.mem_singleton.1 hp] at hv
    rw [List.mem_singleton.1 hv]
    rcases h with rfl | rfl <;> decide
  | choice capturing words =>
    have hword : ∀ w ∈ words, '?' ∉ w := fun w hw =>
      not_mem_replaceDots (h.2 w hw) (by decide) (by decide)
    match words, hword with
    | [], _ =>
      rw [List.mem_singleton.1 hp] at hv
      exact absurd hv List.not_mem_nil
    | [w], hword =>
      obtain ⟨c, hc, rfl⟩ := List.mem_map.1 hp
      rw [List.mem_singleton.1 hv, List.mem_singleton]
      rintro rfl
      exact hword w List.mem_cons_self hc
    | x :: w :: words, hword =>
      rw [List.mem_singleton.1 hp] at hv
      exact hword v hv
  | optionalLetter c => exact absurd h id
  | _ =>
    rw [List.mem_singleton.1 hp] at hv
    rw [List.mem_singleton.1 hv]
    decide

/-! ## How many globs there are -/

/-- The numbers of words in those choices that have more than one. -/
def alternativeCounts (items : List Item) : List Nat :=
  items.filterMap fun
    | .choice _ (_ :: _ :: words) => some (words.length + 2)
    | _ => none

theorem alternativeCounts_cons (i : Item) (items : List Item) :
    alternativeCounts (i :: items) = alternativeCounts [i] ++ alternativeCounts items :=
  List.filterMap_append (l := [i])

theorem counts_pieces (h : i.IsCommon) :
    Piece.groupCount i.pieces = (alternativeCounts [i]).length ∧
      (Piece.choices i.pieces).length = (alternativeCounts [i]).prod := by
  cases i with
  | choice capturing words =>
    match words, h with
    | [w], _ =>
      refine ⟨Piece.groupCount_map_char w, ?_⟩
      show (Piece.choices (w.map .char)).length = 1
      rw [Piece.choices_map_char, List.length_singleton]
    | v :: w :: words, _ =>
      refine ⟨rfl, ?_⟩
      show (joined (v :: w :: words) [[]]).length = _
      rw [length_joined]
      rfl
  | _ => exact ⟨rfl, rfl⟩

theorem counts_flatMap_pieces {items : List Item} (h : ∀ i ∈ items, i.IsCommon) :
    Piece.groupCount (items.flatMap pieces) = (alternativeCounts items).length ∧
      (Piece.choices (items.flatMap pieces)).length = (alternativeCounts items).prod := by
  induction items with
  | nil => exact ⟨rfl, rfl⟩
  | cons i items ih =>
    obtain ⟨hcount, hlen⟩ := ih fun j hj => h j (List.mem_cons_of_mem i hj)
    obtain ⟨hcount', hlen'⟩ := counts_pieces (h i List.mem_cons_self)
    rw [List.flatMap_cons, alternativeCounts_cons i items]
    constructor
    · rw [Piece.groupCount_append, hcount, hcount', List.length_append]
    · rw [Piece.choices_append, length_joined, hlen, hlen', List.prod_append]

/-! ## What an item and its choices match -/

variable {isWordChar : Char → Prop}

theorem covers_group_iff {words : List Text} (h : ∀ w ∈ words, IsWord w) {s : Text} :
    Piece.Covers [.group words] s ↔ s ∈ words := by
  have hstar : ∀ w ∈ words, '*' ∉ w := fun w hw =>
    not_mem_replaceDots (h w hw) (by decide) (by decide)
  have hchoices : Piece.choices [.group words] = words := joined_nil_right words
  unfold Piece.Covers
  rw [hchoices]
  constructor
  · rintro ⟨w, hw, hmatches⟩
    rwa [Glob.eq_of_matches (hstar w hw) hmatches]
  · intro hs
    exact ⟨s, hs, Glob.matches_self (hstar s hs)⟩

theorem covers_char_iff {c : Char} (hc : c ≠ '*') {s : Text} :
    Piece.Covers [.char c] s ↔ s = [c] := by
  have hstar : '*' ∉ [c] := by simpa using Ne.symm hc
  have hchar : Piece.Covers [.char c] s ↔ Glob.Matches [c] s :=
    Piece.covers_map_char_iff (s := [c])
  rw [hchar, Glob.matches_iff_eq hstar]

theorem covers_star (s : Text) : Piece.Covers [.char '*'] s :=
  (Piece.covers_map_char_iff (s := ['*'])).2 (Glob.matches_singleton_star s)

theorem covers_choice_iff {capturing : Bool} {words : List Text}
    (h : (Item.choice capturing words).IsCommon) {s : Text} :
    Piece.Covers (pieces (.choice capturing words)) s ↔ s ∈ words := by
  match words, h with
  | [w], h =>
    have hstar : '*' ∉ w := not_mem_replaceDots (h.2 w List.mem_cons_self) (by decide) (by decide)
    show Piece.Covers (w.map .char) s ↔ s ∈ [w]
    rw [Piece.covers_map_char_iff, Glob.matches_iff_eq hstar, List.mem_singleton]
  | v :: w :: words, h => exact covers_group_iff h.2

theorem covers_literal_iff {c : Char} (h : IsLiteralChar c) {s : Text} :
    Piece.Covers (pieces (.literal c)) s ↔ s = [c] := by
  refine covers_char_iff ?_
  rintro rfl
  exact not_mem_of_isLiteralChar h (by decide)

theorem covers_escaped_iff {c : Char} (h : c = '.' ∨ c = '/') {s : Text} :
    Piece.Covers (pieces (.escaped c)) s ↔ s = [c] := by
  refine covers_char_iff ?_
  rcases h with rfl | rfl <;> decide

/-- What an item matches is matched by one of its choices. -/
theorem covers_of_matches (h : i.IsCommon) {s : Text} (hs : i.Matches isWordChar s) :
    Piece.Covers i.pieces s := by
  cases i with
  | literal c => exact (covers_literal_iff h).2 hs
  | escaped c => exact (covers_escaped_iff h).2 hs
  | choice capturing words => exact (covers_choice_iff h).2 hs
  | optionalLetter c => exact absurd h id
  | _ => exact covers_star s

/-- A flat item and its choices match the same texts on one line. -/
theorem matches_iff_covers (h : i.IsFlat) {s : Text} (hline : '\n' ∉ s) :
    i.Matches isWordChar s ↔ Piece.Covers i.pieces s := by
  cases i with
  | literal c => exact (covers_literal_iff h).symm
  | escaped c => exact (covers_escaped_iff h).symm
  | anyText needed isLazy =>
    obtain ⟨rfl, rfl⟩ := h
    exact ⟨fun _ => covers_star s, fun _ => ⟨hline, fun hneeded => absurd hneeded (by decide)⟩⟩
  | choice capturing words => exact (covers_choice_iff h).symm
  | _ => exact h.elim

theorem itemsMatch_cons_iff {items : List Item} {u : Text} :
    ItemsMatch isWordChar (i :: items) u ↔
      ∃ s t, u = s ++ t ∧ i.Matches isWordChar s ∧ ItemsMatch isWordChar items t := by
  constructor
  · rintro ⟨⟩
    next s t h hs => exact ⟨s, t, rfl, h, hs⟩
  · rintro ⟨s, t, rfl, h, hs⟩
    exact .cons h hs

theorem itemsMatch_nil_iff {u : Text} : ItemsMatch isWordChar [] u ↔ u = [] := by
  constructor
  · rintro ⟨⟩
    rfl
  · rintro rfl
    exact .nil

theorem covers_of_itemsMatch {items : List Item} (h : ∀ i ∈ items, i.IsCommon) {u : Text}
    (hu : ItemsMatch isWordChar items u) : Piece.Covers (items.flatMap pieces) u := by
  induction items generalizing u with
  | nil => exact Piece.covers_nil_iff.2 (itemsMatch_nil_iff.1 hu)
  | cons i items ih =>
    obtain ⟨s, t, rfl, hs, ht⟩ := itemsMatch_cons_iff.1 hu
    have hrest := ih (fun j hj => h j (List.mem_cons_of_mem i hj)) ht
    exact Piece.covers_append_iff.2
      ⟨s, t, rfl, covers_of_matches (h i List.mem_cons_self) hs, hrest⟩

theorem itemsMatch_iff_covers {items : List Item} (h : ∀ i ∈ items, i.IsFlat) {u : Text}
    (hline : '\n' ∉ u) :
    ItemsMatch isWordChar items u ↔ Piece.Covers (items.flatMap pieces) u := by
  induction items generalizing u with
  | nil => exact itemsMatch_nil_iff.trans Piece.covers_nil_iff.symm
  | cons i items ih =>
    have hrest : ∀ j ∈ items, j.IsFlat := fun j hj => h j (List.mem_cons_of_mem i hj)
    rw [itemsMatch_cons_iff, List.flatMap_cons, Piece.covers_append_iff]
    refine exists_congr fun s => exists_congr fun t => ?_
    constructor
    · rintro ⟨rfl, hs, ht⟩
      rw [List.mem_append, not_or] at hline
      exact ⟨rfl, (matches_iff_covers (h i List.mem_cons_self) hline.1).1 hs,
        (ih hrest hline.2).1 ht⟩
    · rintro ⟨rfl, hs, ht⟩
      rw [List.mem_append, not_or] at hline
      exact ⟨rfl, (matches_iff_covers (h i List.mem_cons_self) hline.1).2 hs,
        (ih hrest hline.2).2 ht⟩

end Item

/-! ## Expressions -/

theorem SchemeForm.matches_folded {scheme : SchemeForm} {start : Text}
    (h : start ∈ scheme.matching) : Glob.Matches scheme.folded start := by
  have hhttp : Glob.Matches "http://".toList "http://".toList := Glob.matches_self (by decide)
  have hhttps : Glob.Matches "https://".toList "https://".toList := Glob.matches_self (by decide)
  cases scheme with
  | http =>
    rw [List.mem_singleton.1 h]
    exact hhttp
  | https =>
    rw [List.mem_singleton.1 h]
    exact hhttps
  | either =>
    have hname : Glob.Matches "http".toList "http".toList := Glob.matches_self (by decide)
    have hrest : Glob.Matches "://".toList "://".toList := Glob.matches_self (by decide)
    have hor : start = "http://".toList ∨ start = "https://".toList := by
      simpa [SchemeForm.matching] using h
    rcases hor with rfl | rfl
    · exact Glob.matches_append hname (.star [] hrest)
    · exact Glob.matches_append hname (.star ['s'] hrest)

theorem SchemeForm.matches_folded_iff {scheme : SchemeForm} (h : scheme ≠ .either) {start : Text} :
    Glob.Matches scheme.folded start ↔ start ∈ scheme.matching := by
  have hstar : '*' ∉ scheme.folded := by
    cases scheme <;> first | decide | exact absurd rfl h
  rw [Glob.matches_iff_eq hstar]
  cases scheme with
  | http => exact List.mem_singleton.symm
  | https => exact List.mem_singleton.symm
  | either => exact absurd rfl h

theorem SchemeForm.not_residual_of_mem_folded {scheme : SchemeForm} :
    ∀ c ∈ scheme.folded, isResidual c = false := by
  cases scheme <;> decide

namespace Expression

variable {isWordChar : Char → Prop} {e : Expression}

def pieces (e : Expression) : List Piece :=
  e.scheme.folded.map .char ++ e.items.flatMap Item.pieces

theorem sequenceText_pieces (hitems : ∀ i ∈ e.items, i.IsCommon) :
    Piece.sequenceText e.pieces = e.scheme.folded ++ e.items.flatMap Item.settled := by
  have happ : Piece.sequenceText e.pieces = Piece.sequenceText (e.scheme.folded.map .char) ++
      Piece.sequenceText (e.items.flatMap Item.pieces) := List.flatMap_append
  rw [happ, Piece.sequenceText_map_char, Piece.sequenceText, List.flatMap_assoc,
    List.flatMap_def, List.flatMap_def]
  congr 2
  exact List.map_congr_left fun i hi => (Item.settled_eq_sequenceText (hitems i hi)).symm

theorem clean_pieces (hitems : ∀ i ∈ e.items, i.IsCommon) : ∀ p ∈ e.pieces, p.Clean := by
  intro p hp
  rcases List.mem_append.1 hp with hp | hp
  · obtain ⟨c, hc, rfl⟩ := List.mem_map.1 hp
    exact SchemeForm.not_residual_of_mem_folded c hc
  · obtain ⟨i, hi, hp⟩ := List.mem_flatMap.1 hp
    exact Item.clean_pieces (hitems i hi) p hp

theorem query_not_mem_choices (hitems : ∀ i ∈ e.items, i.IsCommon) :
    ∀ w ∈ Piece.choices e.pieces, '?' ∉ w := by
  intro w hw hmem
  obtain ⟨p, hp, v, hv, hmem⟩ := Piece.exists_word_of_mem_choices hw hmem
  rcases List.mem_append.1 hp with hp | hp
  · obtain ⟨c, hc, rfl⟩ := List.mem_map.1 hp
    rw [List.mem_singleton.1 hv, List.mem_singleton] at hmem
    exact e.scheme.not_mem_folded '?' (by decide) (hmem ▸ hc)
  · obtain ⟨i, hi, hp⟩ := List.mem_flatMap.1 hp
    exact Item.not_mem_query_pieces (hitems i hi) p hp v hv hmem

/-- The globs of an expression are its collapsed choices, unless there are too many. -/
theorem toGlobs_text (hitems : ∀ i ∈ e.items, i.IsCommon) (hhttp : ¬ "http".toList <:+: e.body) :
    toGlobs e.text =
      if (Item.alternativeCounts e.items).length ≤ 5 ∧ (Item.alternativeCounts e.items).prod ≤ 256
      then .ok ((Piece.choices e.pieces).map collapseWildcards)
      else .error (.unconvertibleRegexp e.text) := by
  obtain ⟨hcount, hlen⟩ := Item.counts_flatMap_pieces hitems
  have hne : e.pieces ≠ [] := by
    intro hnil
    have hfolded := (List.append_eq_nil_iff.1 hnil).1
    cases hs : e.scheme <;> rw [hs] at hfolded <;> exact absurd hfolded (List.cons_ne_nil _ _)
  have hsimplify : simplify e.text = collapseWildcards (Piece.sequenceText e.pieces) := by
    rw [sequenceText_pieces hitems, simplify_text (fun i hi => (hitems i hi).isSimple) hhttp]
  have hgroups : Piece.groupCount e.pieces = (Item.alternativeCounts e.items).length := by
    rw [pieces, Piece.groupCount_append, Piece.groupCount_map_char, hcount, Nat.zero_add]
  have hchoices : (Piece.choices e.pieces).length = (Item.alternativeCounts e.items).prod := by
    rw [pieces, Piece.choices_append, Piece.choices_map_char, length_joined, hlen,
      List.length_singleton, Nat.one_mul]
  have hglobs := globs?_of_pieces (clean_pieces hitems) hne hsimplify
  rw [hgroups, hchoices] at hglobs
  by_cases hlimits : (Item.alternativeCounts e.items).length ≤ maxRounds ∧
      (Item.alternativeCounts e.items).prod ≤ maxBranches
  · rw [if_pos hlimits] at hglobs
    rw [toGlobs, hglobs]
    exact (if_pos hlimits).symm
  · rw [if_neg hlimits] at hglobs
    rw [toGlobs, hglobs]
    exact (if_neg hlimits).symm

theorem covers_pieces_iff {u : Text} :
    Piece.Covers e.pieces u ↔ ∃ start rest, u = start ++ rest ∧
      Glob.Matches e.scheme.folded start ∧ Piece.Covers (e.items.flatMap Item.pieces) rest := by
  rw [pieces, Piece.covers_append_iff]
  simp only [Piece.covers_map_char_iff]

/-- A text that a common expression matches is not lost: one of the globs matches it. -/
theorem exists_glob_of_matches (hitems : ∀ i ∈ e.items, i.IsCommon)
    (hhttp : ¬ "http".toList <:+: e.body) {globs : List Text} (hglobs : toGlobs e.text = .ok globs)
    {u : Text} (hu : e.Matches isWordChar u) : ∃ g ∈ globs, Glob.Matches g u := by
  rw [toGlobs_text hitems hhttp] at hglobs
  split at hglobs
  · obtain rfl := Except.ok.inj hglobs
    obtain ⟨start, hstart, rest, rfl, hrest⟩ := hu
    rw [Piece.exists_matches_collapse_iff (query_not_mem_choices hitems), covers_pieces_iff]
    exact ⟨start, rest, rfl, SchemeForm.matches_folded hstart,
      Item.covers_of_itemsMatch hitems hrest⟩
  · exact absurd hglobs (by simp)

/-- An optional group and a class, on an address with a port. -/
theorem exists_glob_of_matches_port :
    ∃ e : Expression, e.text = "^https?://(a|b\\.c)(x)?[0-9]+.+".toList ∧
      (∀ i ∈ e.items, i.IsCommon) ∧ ¬ "http".toList <:+: e.body ∧
      ∃ globs, toGlobs e.text = .ok globs ∧ e.Matches (· = 'w') "http://b.c42:80/".toList ∧
        ∃ g ∈ globs, Glob.Matches g "http://b.c42:80/".toList := by
  let e : Expression := ⟨true, .either, [.choice true ["a".toList, "b.c".toList],
    .optional ["x".toList], .charsOf "0-9".toList, .anyText true false], false⟩
  have hitems : ∀ i ∈ e.items, i.IsCommon := by decide
  have hhttp : ¬ "http".toList <:+: e.body := by decide
  have hglobs : toGlobs e.text = .ok ((Piece.choices e.pieces).map collapseWildcards) :=
    (toGlobs_text hitems hhttp).trans (if_pos (by decide))
  have hport : Item.Matches (· = 'w') ":80/".toList (.anyText true false) := ⟨by decide, by decide⟩
  have hclass : Item.Matches (· = 'w') "42".toList (.charsOf "0-9".toList) :=
    ⟨by decide, by decide⟩
  have hhost : Item.Matches (· = 'w') "b.c".toList (.choice true ["a".toList, "b.c".toList]) :=
    List.mem_cons_of_mem _ List.mem_cons_self
  have hnone : Item.Matches (· = 'w') [] (.optional ["x".toList]) := Or.inl rfl
  have hrest : ItemsMatch (· = 'w') e.items "b.c42:80/".toList :=
    .cons hhost (.cons hnone (.cons hclass (.cons hport .nil)))
  have hmatches : e.Matches (· = 'w') "http://b.c42:80/".toList :=
    ⟨"http://".toList, by decide, _, rfl, hrest⟩
  exact ⟨e, rfl, hitems, hhttp, _, hglobs, hmatches,
    exists_glob_of_matches hitems hhttp hglobs hmatches⟩

/-- A flat expression is accepted exactly when its alternatives stay within the limits,
and then its globs match what it matches. -/
theorem toGlobs_flat (hscheme : e.scheme ≠ .either) (hitems : ∀ i ∈ e.items, i.IsFlat)
    (hhttp : ¬ "http".toList <:+: e.body) :
    ((∃ globs, toGlobs e.text = .ok globs) ↔
      (Item.alternativeCounts e.items).length ≤ 5 ∧
        (Item.alternativeCounts e.items).prod ≤ 256) ∧
    (¬ ((Item.alternativeCounts e.items).length ≤ 5 ∧
        (Item.alternativeCounts e.items).prod ≤ 256) →
      toGlobs e.text = .error (.unconvertibleRegexp e.text)) ∧
    ∀ globs, toGlobs e.text = .ok globs → ∀ u, '\n' ∉ u →
      (e.Matches isWordChar u ↔ ∃ g ∈ globs, Glob.Matches g u) := by
  have hcommon : ∀ i ∈ e.items, i.IsCommon := fun i hi => (hitems i hi).isCommon
  have hresult := toGlobs_text hcommon hhttp
  by_cases hlimits : (Item.alternativeCounts e.items).length ≤ 5 ∧
      (Item.alternativeCounts e.items).prod ≤ 256
  · rw [if_pos hlimits] at hresult
    refine ⟨⟨fun _ => hlimits, fun _ => ⟨_, hresult⟩⟩, fun hno => absurd hlimits hno, ?_⟩
    intro globs hglobs u hline
    rw [hresult] at hglobs
    obtain rfl := Except.ok.inj hglobs
    rw [Piece.exists_matches_collapse_iff (query_not_mem_choices hcommon), covers_pieces_iff]
    constructor
    · rintro ⟨start, hstart, rest, rfl, hrest⟩
      rw [List.mem_append, not_or] at hline
      exact ⟨start, rest, rfl, SchemeForm.matches_folded hstart,
        (Item.itemsMatch_iff_covers hitems hline.2).1 hrest⟩
    · rintro ⟨start, rest, rfl, hstart, hrest⟩
      rw [List.mem_append, not_or] at hline
      exact ⟨start, (SchemeForm.matches_folded_iff hscheme).1 hstart, rest, rfl,
        (Item.itemsMatch_iff_covers hitems hline.2).2 hrest⟩
  · rw [if_neg hlimits] at hresult
    refine ⟨⟨?_, fun h => absurd h hlimits⟩, fun _ => hresult, ?_⟩
    · rintro ⟨globs, hglobs⟩
      rw [hresult] at hglobs
      exact absurd hglobs (by simp)
    · intro globs hglobs
      rw [hresult] at hglobs
      exact absurd hglobs (by simp)

/-- Two hosts behind a group that offers no choice. -/
theorem toGlobs_flat_two_hosts :
    ∃ e : Expression, e.text = "^https://(?:www)\\.(a|b\\.c)/.*$".toList ∧
      e.scheme ≠ .either ∧ (∀ i ∈ e.items, i.IsFlat) ∧ ¬ "http".toList <:+: e.body ∧
      ∃ globs, toGlobs e.text = .ok globs ∧
        ∀ u, '\n' ∉ u → (e.Matches (· = 'w') u ↔ ∃ g ∈ globs, Glob.Matches g u) := by
  let e : Expression := ⟨true, .https, [.choice false ["www".toList], .escaped '.',
    .choice true ["a".toList, "b.c".toList], .literal '/', .anyText false false], true⟩
  have hscheme : e.scheme ≠ .either := by decide
  have hitems : ∀ i ∈ e.items, i.IsFlat := by decide
  have hhttp : ¬ "http".toList <:+: e.body := by decide
  obtain ⟨haccepted, -, hmeaning⟩ := toGlobs_flat hscheme hitems hhttp
  obtain ⟨globs, hglobs⟩ := haccepted.2 (by decide)
  exact ⟨e, rfl, hscheme, hitems, hhttp, globs, hglobs, hmeaning globs hglobs⟩

end Expression
end Regexp
end StyleScope
