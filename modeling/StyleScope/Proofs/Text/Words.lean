import StyleScope.Proofs.Text.Splitting
import StyleScope.Proofs.Text.Lookahead

/-!
# Words

The words of a text are what stands between its runs of blanks.  Everything about them follows
from how a text begins, with a blank or with a word (`word_induction`): a blank cuts the text
in two that have words of their own (`wordList_append_blank`), so blanks around a text make no
difference (`wordList_trim`).
-/

namespace StyleScope
namespace Text

variable {b c : Char} {s t w : Text}

def wordList (s : Text) : List Text := (splitAll afterBlanks? s).filter (!·.isEmpty)

/-! ## How a text begins -/

/-- A text begins with a blank or with a word, and goes on behind it. -/
theorem word_induction {motive : Text → Prop} (nil : motive [])
    (blank : ∀ b s, isBlank b = true → motive s → motive (b :: s))
    (word : ∀ w, w ≠ [] → (∀ c ∈ w, isBlank c = false) → motive w)
    (gap : ∀ w b s, w ≠ [] → (∀ c ∈ w, isBlank c = false) → isBlank b = true → motive s →
      motive (w ++ b :: s)) (s : Text) : motive s := by
  induction hn : s.length using Nat.strongRecOn generalizing s with
  | ind n ih =>
    cases s with
    | nil => exact nil
    | cons c s =>
      rw [List.length_cons] at hn
      by_cases hc : isBlank c = true
      · exact blank c s hc (ih s.length (by omega) s rfl)
      · have hw : ∀ d ∈ c :: s.takeWhile (!isBlank ·), isBlank d = false := by
          refine List.forall_mem_cons.2 ⟨by simpa using hc, fun d hd => ?_⟩
          have hall := List.all_eq_true.1 List.all_takeWhile d hd
          simpa using hall
        cases hrest : s.dropWhile (!isBlank ·) with
        | nil =>
          have hs := List.takeWhile_append_dropWhile (p := (!isBlank ·)) (l := s)
          rw [hrest, List.append_nil] at hs
          rw [hs] at hw
          exact word (c :: s) (List.cons_ne_nil c s) hw
        | cons b t =>
          obtain ⟨hb, hs⟩ := eq_append_of_dropWhile_eq_cons hrest
          have hlen := congrArg List.length hs
          rw [List.length_append, List.length_cons] at hlen
          rw [hs]
          exact gap (c :: s.takeWhile (!isBlank ·)) b t (List.cons_ne_nil c _) hw
            (by simpa using hb) (ih t.length (by omega) t rfl)

theorem splitAll_afterBlanks?_append (hw : ∀ c ∈ w, isBlank c = false) (t : Text) :
    splitAll afterBlanks? (w ++ t) = (splitAll afterBlanks? t).modifyHead (w ++ ·) := by
  induction w with
  | nil =>
    show splitAll afterBlanks? t = (splitAll afterBlanks? t).modifyHead id
    rw [List.modifyHead_id]
    rfl
  | cons c w ih =>
    obtain ⟨hc, hw⟩ := List.forall_mem_cons.1 hw
    rw [List.cons_append, splitAll_cons_of_none (by rw [afterBlanks?, if_neg (by simp [hc])]),
      ih hw, List.modifyHead_modifyHead]
    rfl

theorem splitAll_afterBlanks?_cons (hb : isBlank b = true) (s : Text) :
    splitAll afterBlanks? (b :: s) = [] :: splitAll afterBlanks? (s.dropWhile isBlank) := by
  have hs : s = s.takeWhile isBlank ++ s.dropWhile isBlank := List.takeWhile_append_dropWhile.symm
  exact splitAll_cons_of_some hs (by rw [afterBlanks?, if_pos hb])

/-! ## The words of a part -/

theorem wordList_dropWhile (s : Text) : wordList (s.dropWhile isBlank) = wordList s := by
  cases s with
  | nil => rfl
  | cons c s =>
    by_cases hc : isBlank c = true
    · rw [List.dropWhile_cons_of_pos hc, wordList, wordList, splitAll_afterBlanks?_cons hc]
      rfl
    · rw [List.dropWhile_cons_of_neg hc]

theorem wordList_cons_of_blank (hb : isBlank b = true) (s : Text) :
    wordList (b :: s) = wordList s := by
  rw [← wordList_dropWhile, List.dropWhile_cons_of_pos hb, wordList_dropWhile]

theorem wordList_of_forall_not_blank (hne : w ≠ []) (hw : ∀ c ∈ w, isBlank c = false) :
    wordList w = [w] := by
  have hsplit := splitAll_afterBlanks?_append hw []
  rw [List.append_nil] at hsplit
  rw [wordList, hsplit]
  show [w ++ []].filter (!·.isEmpty) = [w]
  simp [hne]

theorem wordList_append_cons (hne : w ≠ []) (hw : ∀ c ∈ w, isBlank c = false)
    (hb : isBlank b = true) (s : Text) : wordList (w ++ b :: s) = w :: wordList s := by
  rw [wordList, splitAll_afterBlanks?_append hw, splitAll_afterBlanks?_cons hb,
    ← wordList_dropWhile s]
  show ((w ++ []) :: splitAll afterBlanks? _).filter (!·.isEmpty) = _
  rw [List.append_nil, List.filter_cons_of_pos (by simp [hne])]
  rfl

/-- A blank cuts a text in two that have words of their own. -/
theorem wordList_append_blank (hb : isBlank b = true) (s t : Text) :
    wordList (s ++ b :: t) = wordList s ++ wordList t := by
  induction s using word_induction with
  | nil => exact wordList_cons_of_blank hb t
  | blank c s hc ih =>
    rw [List.cons_append, wordList_cons_of_blank hc, ih, wordList_cons_of_blank hc]
  | word w hne hw =>
    rw [wordList_append_cons hne hw hb, wordList_of_forall_not_blank hne hw, List.singleton_append]
  | gap w c s hne hw hc ih =>
    rw [List.append_assoc, List.cons_append, wordList_append_cons hne hw hc, ih,
      wordList_append_cons hne hw hc, List.cons_append]

theorem wordList_of_allBlank (hs : allBlank s = true) : wordList s = [] := by
  induction s with
  | nil => rfl
  | cons b s ih =>
    rw [allBlank_cons_iff] at hs
    rw [wordList_cons_of_blank hs.1, ih hs.2]

theorem wordList_append_of_allBlank (ht : allBlank t = true) (s : Text) :
    wordList (s ++ t) = wordList s := by
  cases t with
  | nil => rw [List.append_nil]
  | cons b t =>
    rw [allBlank_cons_iff] at ht
    rw [wordList_append_blank ht.1, wordList_of_allBlank ht.2, List.append_nil]

/-! ## Trimming -/

theorem exists_trimEnd_append (s : Text) :
    ∃ blanks, s = trimEnd s ++ blanks ∧ allBlank blanks = true := by
  refine ⟨(s.reverse.takeWhile isBlank).reverse, ?_, ?_⟩
  · rw [trimEnd, ← List.reverse_append, List.takeWhile_append_dropWhile, List.reverse_reverse]
  · rw [allBlank, List.all_reverse]
    exact List.all_takeWhile

theorem wordList_trim (s : Text) : wordList (trim s) = wordList s := by
  obtain ⟨blanks, hs, hblanks⟩ := exists_trimEnd_append (trimStart s)
  rw [← wordList_dropWhile s]
  show wordList (trimEnd (trimStart s)) = wordList (trimStart s)
  rw [← wordList_append_of_allBlank hblanks (trimEnd (trimStart s)), ← hs]

theorem dropWhile_trim (s : Text) : (trim s).dropWhile isBlank = trim s := by
  cases htrim : trim s with
  | nil => rfl
  | cons c t =>
    obtain ⟨blanks, hs, -⟩ := exists_trimEnd_append (trimStart s)
    have hhead := List.head?_dropWhile_not isBlank s
    rw [trim] at htrim
    rw [← trimStart, hs, htrim] at hhead
    exact List.dropWhile_cons_of_neg (by simpa using hhead)

/-- No blanks are left over at the end. -/
def EndsInk (s : Text) : Prop := ∀ t, t <:+ s → allBlank t = true → t = []

theorem EndsInk.of_suffix (h : EndsInk s) (ht : t <:+ s) : EndsInk t :=
  fun u hu => h u (hu.trans ht)

theorem EndsInk.of_cons (h : EndsInk (c :: s)) : EndsInk s := h.of_suffix (List.suffix_cons c s)

theorem EndsInk.dropWhile_ne_nil (h : EndsInk s) (hne : s ≠ []) : s.dropWhile isBlank ≠ [] := by
  intro hnil
  refine hne (h s (List.suffix_refl s) ?_)
  rw [← List.takeWhile_append_dropWhile (p := isBlank) (l := s), hnil, List.append_nil]
  exact List.all_takeWhile

theorem endsInk_trim (s : Text) : EndsInk (trim s) := by
  intro t ht hblank
  refine Decidable.byContradiction fun hne => ?_
  obtain ⟨c, r, hrev⟩ := List.exists_cons_of_ne_nil (List.reverse_ne_nil_iff.2 hne)
  have hc : isBlank c = true := by
    refine isBlank_of_mem hblank (List.mem_reverse.1 ?_)
    rw [hrev]
    exact List.mem_cons_self
  have hpre : t.reverse <+: (trimStart s).reverse.dropWhile isBlank := by
    rw [← List.reverse_suffix, List.reverse_reverse]
    exact ht
  obtain ⟨u, hu⟩ := hpre
  have hhead := List.head?_dropWhile_not isBlank (trimStart s).reverse
  rw [← hu, hrev] at hhead
  exact absurd hc (by simpa using hhead)

end Text
end StyleScope
