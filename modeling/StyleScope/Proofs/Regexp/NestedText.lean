import StyleScope.Proofs.Regexp.Unwrapping

/-!
# The text of nested groups

What the text of nested expressions tells about them: it is balanced, a bar in it is
inside some group, and without bars the letters are all that is matched.
-/

namespace StyleScope
namespace Regexp
namespace Nested

open Text

mutual
/-- Characters are no syntax and no alternative is empty. -/
def WellFormed : Nested → Prop
  | .char c => c.isAlphanum = true ∨ c = '/' ∨ c = '-'
  | .group first others =>
    first ≠ [] ∧ SequenceWellFormed first ∧ OthersWellFormed others

def SequenceWellFormed : List Nested → Prop
  | [] => True
  | e :: es => e.WellFormed ∧ SequenceWellFormed es

def OthersWellFormed : List (List Nested) → Prop
  | [] => True
  | es :: ess => es ≠ [] ∧ SequenceWellFormed es ∧ OthersWellFormed ess
end

/-- No character is syntax. -/
theorem WellFormed.ne {c d : Char} (h : (char c).WellFormed) (hd : d ∈ ['(', ')', '|']) :
    c ≠ d := by
  have hsyntax : ∀ x ∈ ['(', ')', '|'], ¬ (x.isAlphanum = true ∨ x = '/' ∨ x = '-') := by decide
  exact fun heq => hsyntax d hd (heq ▸ h)

theorem WellFormed.bare {c : Char} (h : (char c).WellFormed) : Bare [c] := by
  intro d hd
  rw [List.mem_singleton] at hd
  subst hd
  exact ⟨h.ne (by decide), h.ne (by decide), h.ne (by decide)⟩

theorem text_group (first : List Nested) (others : List (List Nested)) :
    text (.group first others) =
      '(' :: (sequenceText first ++ (othersText others ++ [')'])) := by
  rw [text, List.cons_append, List.cons_append, List.append_assoc]

theorem othersText_cons (es : List Nested) (ess : List (List Nested)) :
    othersText (es :: ess) = '|' :: (sequenceText es ++ othersText ess) := rfl

def IsNestedChar (c : Char) : Prop :=
  c.isAlphanum = true ∨ c = '/' ∨ c = '-' ∨ c = '(' ∨ c = ')' ∨ c = '|'

mutual
theorem isNestedChar_text : (e : Nested) → e.WellFormed → ∀ c ∈ e.text, IsNestedChar c
  | .char d, h, c, hc => by
    rw [text, List.mem_singleton] at hc
    subst hc
    rcases h with h | h | h
    · exact Or.inl h
    · exact Or.inr (Or.inl h)
    · exact Or.inr (Or.inr (Or.inl h))
  | .group first others, h, c, hc => by
    rw [text_group, List.mem_cons, List.mem_append, List.mem_append, List.mem_singleton] at hc
    rcases hc with rfl | hc | hc | rfl
    · simp [IsNestedChar]
    · exact isNestedChar_sequenceText first h.2.1 c hc
    · exact isNestedChar_othersText others h.2.2 c hc
    · simp [IsNestedChar]

theorem isNestedChar_sequenceText :
    (es : List Nested) → SequenceWellFormed es → ∀ c ∈ sequenceText es, IsNestedChar c
  | [], _, _, hc => absurd hc List.not_mem_nil
  | e :: es, h, c, hc => by
    rcases List.mem_append.1 hc with hc | hc
    · exact isNestedChar_text e h.1 c hc
    · exact isNestedChar_sequenceText es h.2 c hc

theorem isNestedChar_othersText :
    (ess : List (List Nested)) → OthersWellFormed ess → ∀ c ∈ othersText ess, IsNestedChar c
  | [], _, _, hc => absurd hc List.not_mem_nil
  | es :: ess, h, c, hc => by
    rw [othersText_cons, List.mem_cons, List.mem_append] at hc
    rcases hc with rfl | hc | hc
    · simp [IsNestedChar]
    · exact isNestedChar_sequenceText es h.2.1 c hc
    · exact isNestedChar_othersText ess h.2.2 c hc
end

theorem not_isNestedChar {c : Char}
    (hc : c ∈ ['^', '$', '?', '\x7b', '[', '+', '*', '.', '\\', ':', '\n']) :
    ¬ IsNestedChar c := by
  revert c
  simp [IsNestedChar]

theorem not_isNestedChar_query : ¬ IsNestedChar '?' := not_isNestedChar (by decide)

theorem query_not_mem_text {e : Nested} (h : e.WellFormed) : '?' ∉ e.text :=
  fun hmem => not_isNestedChar_query (isNestedChar_text e h _ hmem)

theorem query_not_mem_sequenceText {es : List Nested} (h : SequenceWellFormed es) :
    '?' ∉ sequenceText es :=
  fun hmem => not_isNestedChar_query (isNestedChar_sequenceText es h _ hmem)

theorem query_not_mem_othersText {ess : List (List Nested)} (h : OthersWellFormed ess) :
    '?' ∉ othersText ess :=
  fun hmem => not_isNestedChar_query (isNestedChar_othersText ess h _ hmem)

mutual
/-- The text of an expression closes what it opens. -/
theorem depth?_text : (e : Nested) → e.WellFormed → ∀ d, depth? d e.text = some d
  | .char c, h, d => by
    rw [text, depth?_cons (h.ne (by decide)) (h.ne (by decide)), depth?_nil]
  | .group first others, h, d => by
    rw [text_group, depth?_open, depth?_append, depth?_sequenceText first h.2.1, Option.bind_some,
      depth?_append, depth?_othersText others h.2.2, Option.bind_some, depth?_close,
      if_neg (Nat.succ_ne_zero d), Nat.add_sub_cancel, depth?_nil]

theorem depth?_sequenceText :
    (es : List Nested) → SequenceWellFormed es → ∀ d, depth? d (sequenceText es) = some d
  | [], _, _ => rfl
  | e :: es, h, d => by
    rw [sequenceText, depth?_append, depth?_text e h.1, Option.bind_some]
    exact depth?_sequenceText es h.2 d

theorem depth?_othersText :
    (ess : List (List Nested)) → OthersWellFormed ess → ∀ d, depth? d (othersText ess) = some d
  | [], _, _ => rfl
  | es :: ess, h, d => by
    rw [othersText_cons, depth?_cons (by decide) (by decide), depth?_append,
      depth?_sequenceText es h.2.1, Option.bind_some]
    exact depth?_othersText ess h.2.2 d
end

theorem count_sequenceText {es : List Nested} (h : SequenceWellFormed es) :
    (sequenceText es).count '(' = (sequenceText es).count ')' := by
  have hcount := count_of_depth? (depth?_sequenceText es h 0)
  omega

/-! ## Letters -/

/-- An expression has letters. -/
theorem letters_text_ne_nil : (e : Nested) → e.WellFormed → letters e.text ≠ []
  | .char c, h => by
    rw [text, h.bare.letters_eq]
    exact List.cons_ne_nil c []
  | .group [] _, h => absurd rfl h.1
  | .group (e :: es) others, h => by
    have hne := letters_text_ne_nil e h.2.1.1
    rw [text_group, letters_open, letters_append, sequenceText, letters_append, List.append_assoc]
    exact fun hnil => hne (List.append_eq_nil_iff.1 hnil).1

theorem letters_sequenceText_ne_nil {es : List Nested} (h : SequenceWellFormed es) (hne : es ≠ []) :
    letters (sequenceText es) ≠ [] := by
  obtain ⟨e, es, rfl⟩ := List.exists_cons_of_ne_nil hne
  rw [sequenceText, letters_append]
  exact fun hnil => letters_text_ne_nil e h.1 (List.append_eq_nil_iff.1 hnil).1

theorem sequenceText_ne_nil {es : List Nested} (h : SequenceWellFormed es) (hne : es ≠ []) :
    sequenceText es ≠ [] := by
  intro hnil
  have hletters := letters_sequenceText_ne_nil h hne
  rw [hnil] at hletters
  exact hletters rfl

/-! ## Bars -/

mutual
/-- In front of the first bar more is opened than closed. -/
theorem count_lt_of_text_eq : (e : Nested) → e.WellFormed → ∀ {s t : Text}, '|' ∉ s →
    e.text = s ++ '|' :: t → s.count ')' < s.count '('
  | .char c, h, s, t, _, heq => by
    have hbar : '|' ∈ (Nested.char c).text := heq ▸ List.mem_append_right s List.mem_cons_self
    rw [text] at hbar
    exact absurd hbar h.bare.bar_not_mem
  | .group first others, h, s, t, hs, heq => by
    rw [text_group] at heq
    by_cases hbar : '|' ∈ sequenceText first
    · obtain ⟨a, b, hab, ha⟩ := exists_first_of_mem hbar
      have hlt := count_lt_of_sequenceText_eq first h.2.1 ha hab
      have hcut : ('(' :: a) ++ '|' :: (b ++ (othersText others ++ [')'])) = s ++ '|' :: t := by
        rw [← heq, hab]
        simp
      have ha' : '|' ∉ '(' :: a := by simp [ha]
      obtain ⟨rfl, -⟩ := append_cons_inj ha' hs hcut
      rw [List.count_cons_self, List.count_cons_of_ne (by decide)]
      omega
    · cases others with
      | nil =>
        have hmem : '|' ∈ '(' :: (sequenceText first ++ (othersText [] ++ [')'])) :=
          heq ▸ List.mem_append_right s List.mem_cons_self
        have hno : '|' ∉ '(' :: (sequenceText first ++ (othersText [] ++ [')'])) := by
          simp [hbar, othersText]
        exact absurd hmem hno
      | cons es ess =>
        have hcut : ('(' :: sequenceText first) ++
            '|' :: (sequenceText es ++ othersText ess ++ [')']) = s ++ '|' :: t := by
          rw [← heq, othersText_cons]
          simp
        have hfirst : '|' ∉ '(' :: sequenceText first := by simp [hbar]
        obtain ⟨rfl, -⟩ := append_cons_inj hfirst hs hcut
        have hcount := count_of_depth? (depth?_sequenceText first h.2.1 0)
        rw [List.count_cons_self, List.count_cons_of_ne (by decide)]
        omega

theorem count_lt_of_sequenceText_eq : (es : List Nested) → SequenceWellFormed es →
    ∀ {s t : Text}, '|' ∉ s → sequenceText es = s ++ '|' :: t → s.count ')' < s.count '('
  | [], _, s, t, _, heq => by
    have hmem : '|' ∈ sequenceText [] := heq ▸ List.mem_append_right s List.mem_cons_self
    exact absurd hmem List.not_mem_nil
  | e :: es, h, s, t, hs, heq => by
    by_cases hbar : '|' ∈ e.text
    · obtain ⟨a, b, hab, ha⟩ := exists_first_of_mem hbar
      have hcut : a ++ '|' :: (b ++ sequenceText es) = s ++ '|' :: t := by
        rw [← heq, sequenceText, hab]
        simp
      obtain ⟨rfl, -⟩ := append_cons_inj ha hs hcut
      exact count_lt_of_text_eq e h.1 ha hab
    · obtain ⟨s', rfl, hes⟩ := exists_append_of_append_eq hbar heq
      have hs' : '|' ∉ s' := fun hmem => hs (List.mem_append_right _ hmem)
      have hlt := count_lt_of_sequenceText_eq es h.2 hs' hes
      have hcount := count_of_depth? (depth?_text e h.1 0)
      rw [List.count_append, List.count_append]
      omega
end

/-! ## Empty groups -/

/-- Behind a balanced text no empty group begins inside it. -/
theorem not_infix_empty_append {s t : Text} (hdepth : depth? 0 s = some 0)
    (hs : ¬ "()".toList <:+: s) (ht : ¬ "()".toList <:+: t) : ¬ "()".toList <:+: s ++ t := by
  intro h
  rcases infix_empty_append h with hinner | ⟨u, v, rfl, -⟩ | hinner
  · exact hs hinner
  · rw [depth?_append] at hdepth
    obtain ⟨d, -, hopen⟩ := Option.bind_eq_some_iff.1 hdepth
    have hsucc : d + 1 = 0 := Option.some.inj hopen
    omega
  · exact ht hinner

theorem not_infix_empty_of_length_lt {s : Text} (h : s.length < 2) : ¬ "()".toList <:+: s :=
  fun hinner => Nat.not_le_of_lt h hinner.length_le

mutual
theorem not_infix_empty_text : (e : Nested) → e.WellFormed → ¬ "()".toList <:+: e.text
  | .char _, _ => not_infix_empty_of_length_lt Nat.one_lt_two
  | .group first others, h => by
    have hfirst := not_infix_empty_sequenceText first h.2.1
    have hothers := not_infix_empty_othersText others h.2.2
    have hdepth := depth?_sequenceText first h.2.1 0
    have hend : ¬ "()".toList <:+: [')'] := not_infix_empty_of_length_lt Nat.one_lt_two
    rw [text_group, List.infix_cons_iff, not_or]
    refine ⟨?_, not_infix_empty_append hdepth hfirst
      (not_infix_empty_append (depth?_othersText others h.2.2 0) hothers hend)⟩
    intro hpre
    -- The first alternative is not empty and does not begin with a closing parenthesis.
    obtain ⟨u, hu⟩ := (List.cons_prefix_cons.1 hpre).2
    obtain ⟨c, s, hcs⟩ := List.exists_cons_of_ne_nil (sequenceText_ne_nil h.2.1 h.1)
    rw [hcs] at hu hdepth
    obtain rfl : ')' = c := (List.cons.inj hu).1
    exact absurd hdepth (by simp [depth?_close])

theorem not_infix_empty_sequenceText :
    (es : List Nested) → SequenceWellFormed es → ¬ "()".toList <:+: sequenceText es
  | [], _ => not_infix_empty_of_length_lt Nat.two_pos
  | e :: es, h =>
    not_infix_empty_append (depth?_text e h.1 0) (not_infix_empty_text e h.1)
      (not_infix_empty_sequenceText es h.2)

theorem not_infix_empty_othersText :
    (ess : List (List Nested)) → OthersWellFormed ess → ¬ "()".toList <:+: othersText ess
  | [], _ => not_infix_empty_of_length_lt Nat.two_pos
  | es :: ess, h => by
    have hrest := not_infix_empty_append (depth?_sequenceText es h.2.1 0)
      (not_infix_empty_sequenceText es h.2.1) (not_infix_empty_othersText ess h.2.2)
    rw [othersText_cons, List.infix_cons_iff, not_or]
    exact ⟨fun hpre => absurd (List.cons_prefix_cons.1 hpre).1 (by decide), hrest⟩
end

/-! ## Closed texts -/

theorem closed_text {e : Nested} (h : e.WellFormed) : Closed e.text := by
  cases e with
  | char c => exact closed_of_not_mem h.bare.open_not_mem
  | group first others =>
    have hend : text (.group first others) =
        ('(' :: (sequenceText first ++ othersText others)) ++ [')'] := by
      rw [text_group]
      simp
    rw [hend]
    exact closed_append_close _

theorem closed_sequenceText {es : List Nested} (h : SequenceWellFormed es) :
    Closed (sequenceText es) := by
  induction es with
  | nil => trivial
  | cons e es ih => exact (closed_text h.1).append (ih h.2)

theorem closed_othersText {ess : List (List Nested)} (h : OthersWellFormed ess) :
    Closed (othersText ess) := by
  induction ess with
  | nil => trivial
  | cons es ess ih =>
    refine ⟨fun hbar => absurd hbar (by decide), ?_⟩
    exact (closed_sequenceText h.2.1).append (ih h.2.2)

/-! ## Words -/

mutual
/-- Without bars there is one word. -/
theorem words_of_bar_not_mem : (e : Nested) → e.WellFormed → '|' ∉ e.text →
    e.words = [letters e.text]
  | .char c, h, _ => by
    rw [words, text, h.bare.letters_eq]
  | .group first others, h, hbar => by
    rw [text_group] at hbar
    cases others with
    | nil =>
      have hfirst : '|' ∉ sequenceText first := fun hmem => hbar (by simp [hmem])
      rw [words, sequenceWords_of_bar_not_mem first h.2.1 hfirst, othersWords, List.append_nil,
        text_group, letters_open, letters_append]
      show [letters (sequenceText first)] = [letters (sequenceText first) ++ []]
      rw [List.append_nil]
    | cons es ess =>
      refine absurd ?_ hbar
      rw [othersText_cons]
      simp

theorem sequenceWords_of_bar_not_mem : (es : List Nested) → SequenceWellFormed es →
    '|' ∉ sequenceText es → sequenceWords es = [letters (sequenceText es)]
  | [], _, _ => rfl
  | e :: es, h, hbar => by
    rw [sequenceText, List.mem_append, not_or] at hbar
    rw [sequenceWords, words_of_bar_not_mem e h.1 hbar.1,
      sequenceWords_of_bar_not_mem es h.2 hbar.2, sequenceText, letters_append]
    rfl
end

/-! ## Characters of words -/

mutual
theorem mem_text_of_mem_words : (e : Nested) → ∀ w ∈ e.words, ∀ c ∈ w, c ∈ e.text
  | .char d, w, hw, c, hc => by
    rw [words, List.mem_singleton] at hw
    rw [text, ← hw]
    exact hc
  | .group first others, w, hw, c, hc => by
    rw [words, List.mem_append] at hw
    rw [text_group]
    rcases hw with hw | hw
    · have hmem := mem_text_of_mem_sequenceWords first w hw c hc
      simp [hmem]
    · have hmem := mem_text_of_mem_othersWords others w hw c hc
      simp [hmem]

theorem mem_text_of_mem_sequenceWords :
    (es : List Nested) → ∀ w ∈ sequenceWords es, ∀ c ∈ w, c ∈ sequenceText es
  | [], w, hw, c, hc => by
    rw [sequenceWords, List.mem_singleton] at hw
    subst hw
    exact hc
  | e :: es, w, hw, c, hc => by
    obtain ⟨s, hs, t, ht, rfl⟩ := mem_joined.1 hw
    rw [sequenceText, List.mem_append]
    rcases List.mem_append.1 hc with hc | hc
    · exact Or.inl (mem_text_of_mem_words e s hs c hc)
    · exact Or.inr (mem_text_of_mem_sequenceWords es t ht c hc)

theorem mem_text_of_mem_othersWords :
    (ess : List (List Nested)) → ∀ w ∈ othersWords ess, ∀ c ∈ w, c ∈ othersText ess
  | [], _, hw, _, _ => absurd hw List.not_mem_nil
  | es :: ess, w, hw, c, hc => by
    rw [othersWords, List.mem_append] at hw
    rw [othersText_cons, List.mem_cons, List.mem_append]
    rcases hw with hw | hw
    · exact Or.inr (Or.inl (mem_text_of_mem_sequenceWords es w hw c hc))
    · exact Or.inr (Or.inr (mem_text_of_mem_othersWords ess w hw c hc))
end

mutual
/-- No word is empty. -/
theorem nil_not_mem_words : (e : Nested) → e.WellFormed → [] ∉ e.words
  | .char c, _ => by
    rw [words, List.mem_singleton]
    exact (List.cons_ne_nil c []).symm
  | .group first others, h => by
    rw [words, List.mem_append, not_or]
    exact ⟨nil_not_mem_sequenceWords first h.2.1 h.1, nil_not_mem_othersWords others h.2.2⟩

theorem nil_not_mem_sequenceWords :
    (es : List Nested) → SequenceWellFormed es → es ≠ [] → [] ∉ sequenceWords es
  | [], _, hne => absurd rfl hne
  | e :: es, h, _ => by
    intro hnil
    obtain ⟨s, hs, t, -, hst⟩ := mem_joined.1 hnil
    obtain ⟨rfl, -⟩ := List.append_eq_nil_iff.1 hst.symm
    exact nil_not_mem_words e h.1 hs

theorem nil_not_mem_othersWords :
    (ess : List (List Nested)) → OthersWellFormed ess → [] ∉ othersWords ess
  | [], _ => List.not_mem_nil
  | es :: ess, h => by
    rw [othersWords, List.mem_append, not_or]
    exact ⟨nil_not_mem_sequenceWords es h.2.1 h.1, nil_not_mem_othersWords ess h.2.2⟩
end

end Nested
end Regexp
end StyleScope
