import StyleScope.Proofs.Regexp.NestedText

/-!
# Groups that lead in

A group with alternatives keeps one opening parenthesis: the first alternative is
unwrapped together with the parenthesis of the group, and every closing parenthesis in it
takes the first opening one that is left.  The last one stays, and the letters in front of
it end up before the group.  `exists_lastOpen_unwrap` says when there are none.
-/

namespace StyleScope
namespace Regexp
namespace Nested

open Text

def IsLetter : Nested → Prop
  | .char _ => True
  | .group _ _ => False

def IsPlain : Nested → Prop
  | .char _ => True
  | .group first _ => ∀ e ∈ first, e.IsLetter

/-- Groups that start at the very beginning and are followed by plain expressions, down to
letters alone. -/
def LeadsIn : List Nested → Prop
  | [] => True
  | .char _ :: es => ∀ e ∈ es, e.IsLetter
  | .group first _ :: es => LeadsIn first ∧ ∀ e ∈ es, e.IsPlain

theorem leadsIn_char (c : Char) (es : List Nested) :
    LeadsIn (.char c :: es) ↔ ∀ e ∈ es, e.IsLetter := by
  rw [LeadsIn]

theorem leadsIn_group (first : List Nested) (others : List (List Nested)) (es : List Nested) :
    LeadsIn (.group first others :: es) ↔ LeadsIn first ∧ ∀ e ∈ es, e.IsPlain := by
  rw [LeadsIn]

/-- Letters have no parentheses, and everything else has. -/
theorem open_mem_sequenceText {es : List Nested} (h : SequenceWellFormed es) :
    '(' ∈ sequenceText es ↔ ¬ ∀ e ∈ es, e.IsLetter := by
  induction es with
  | nil => simp [sequenceText]
  | cons e es ih =>
    rw [sequenceText, List.mem_append, ih h.2, List.forall_mem_cons,
      Classical.not_and_iff_not_or_not]
    cases e with
    | char c =>
      have hopen : '(' ∉ text (.char c) := WellFormed.bare h.1 |>.open_not_mem
      simp [hopen, IsLetter]
    | group first others => simp [text_group, IsLetter]

theorem close_not_mem_sequenceText {es : List Nested} (h : SequenceWellFormed es)
    (hletters : ∀ e ∈ es, e.IsLetter) : ')' ∉ sequenceText es := by
  have hopen : '(' ∉ sequenceText es := fun hmem => (open_mem_sequenceText h).1 hmem hletters
  refine List.count_eq_zero.1 ?_
  rw [← count_sequenceText h]
  exact List.count_eq_zero.2 hopen

/-- The first closing parenthesis comes after an opening one. -/
theorem exists_first_close {es : List Nested} (h : SequenceWellFormed es)
    (hletters : ¬ ∀ e ∈ es, e.IsLetter) :
    ∃ i j, sequenceText es = i ++ ')' :: j ∧ ')' ∉ i ∧ '(' ∈ i := by
  have hopen := (open_mem_sequenceText h).2 hletters
  have hclose : ')' ∈ sequenceText es := by
    have hpos := List.count_pos_iff.2 hopen
    rw [count_sequenceText h] at hpos
    exact List.count_pos_iff.1 hpos
  obtain ⟨i, j, hij, hi⟩ := exists_first_of_mem hclose
  have hdepth := depth?_sequenceText es h 0
  rw [hij] at hdepth
  exact ⟨i, j, hij, hi, open_mem_of_close hdepth⟩

/-- The parenthesis in front is one too many, so one stays. -/
theorem open_mem_unwrap_open {es : List Nested} (h : SequenceWellFormed es) :
    '(' ∈ unwrapPlainGroups ('(' :: sequenceText es) := by
  have hdepth : depth? 0 ('(' :: sequenceText es) = some 1 := depth?_sequenceText es h 1
  have hcount := count_of_depth? (depth?_unwrap hdepth)
  exact List.count_pos_iff.1 (by omega)

/-! ## A group in front of other expressions -/

theorem text_group_nil_append (first : List Nested) (t : Text) :
    text (.group first []) ++ t = '(' :: (sequenceText first ++ ')' :: t) := by
  rw [text_group]
  simp [othersText]

/-- Where a bar is missing there is one alternative. -/
theorem eq_nil_of_bar_not_mem {first : List Nested} {others : List (List Nested)}
    (h : '|' ∉ text (.group first others)) : others = [] ∧ '|' ∉ sequenceText first := by
  rw [text_group] at h
  cases others with
  | nil => exact ⟨rfl, fun hmem => h (by simp [hmem])⟩
  | cons es ess => exact absurd (by simp [othersText_cons]) h

section
variable {first : List Nested} (h : SequenceWellFormed first) (hbar : '|' ∉ sequenceText first)
  {t : Text} (hquery : '?' ∉ t)
include h hbar hquery

/-- A group of letters loses its parentheses. -/
theorem unwrap_group_of_isLetter (hne : first ≠ []) (hletters : ∀ e ∈ first, e.IsLetter) :
    unwrapPlainGroups ('(' :: (sequenceText first ++ ')' :: t)) =
      sequenceText first ++ unwrapPlainGroups t :=
  unwrap_first_close (sequenceText_ne_nil h hne) (close_not_mem_sequenceText h hletters) hbar hquery

/-- Another group keeps an opening parenthesis. -/
theorem open_mem_unwrap_group (hletters : ¬ ∀ e ∈ first, e.IsLetter) :
    '(' ∈ unwrapPlainGroups ('(' :: (sequenceText first ++ ')' :: t)) := by
  obtain ⟨i, j, hij, hclose, hopen⟩ := exists_first_close h hletters
  have hqueryj : '?' ∉ j := fun hmem => query_not_mem_sequenceText h (by rw [hij]; simp [hmem])
  have hbari : '|' ∉ i := fun hmem => hbar (by rw [hij]; simp [hmem])
  have hrest : '?' ∉ j ++ ')' :: t := by simp [hqueryj, hquery]
  have htext : sequenceText first ++ ')' :: t = i ++ ')' :: (j ++ ')' :: t) := by
    rw [hij]
    simp
  rw [htext, unwrap_first_close (List.ne_nil_of_mem hopen) hclose hbari hrest]
  exact List.mem_append_left _ hopen

/-- Behind the parenthesis of another group it keeps its own closing one as well. -/
theorem unwrap_group_group (hletters : ¬ ∀ e ∈ first, e.IsLetter) :
    unwrapPlainGroups ('(' :: '(' :: (sequenceText first ++ ')' :: t)) =
      '(' :: (unwrapPlainGroups ('(' :: sequenceText first) ++ ')' :: unwrapPlainGroups t) := by
  obtain ⟨i, j, hij, hclose, hopen⟩ := exists_first_close h hletters
  have hqueryj : '?' ∉ j := fun hmem => query_not_mem_sequenceText h (by rw [hij]; simp [hmem])
  have hbari : '|' ∉ i := fun hmem => hbar (by rw [hij]; simp [hmem])
  have hrest : '?' ∉ j ++ ')' :: t := by simp [hqueryj, hquery]
  have hquery' : '?' ∉ ')' :: t := by simp [hquery]
  have hclosed : Closed j := by
    have hall := closed_sequenceText h
    rw [hij] at hall
    exact hall.of_append_right.2
  have htext : '(' :: (sequenceText first ++ ')' :: t) = ('(' :: i) ++ ')' :: (j ++ ')' :: t) := by
    rw [hij]
    simp
  have hclose' : ')' ∉ '(' :: i := by simp [hclose]
  have hbar' : '|' ∉ '(' :: i := by simp [hbari]
  rw [htext, unwrap_first_close (List.cons_ne_nil '(' i) hclose' hbar' hrest,
    unwrap_append hqueryj hquery' (Or.inl hclosed), unwrap_cons (show ')' ≠ '(' by decide), hij,
    unwrap_first_close (List.ne_nil_of_mem hopen) hclose hbari hqueryj]
  simp

/-- What stays open behind the parenthesis of another group is what stays open alone. -/
theorem lastOpen_unwrap_group {moved head : Text}
    (hlast : LastOpen (unwrapPlainGroups ('(' :: sequenceText first) ++ unwrapPlainGroups t)
      moved head) :
    LastOpen (unwrapPlainGroups ('(' :: '(' :: (sequenceText first ++ ')' :: t))) moved head := by
  by_cases hletters : ∀ e ∈ first, e.IsLetter
  · have hclose : ')' ∉ '(' :: sequenceText first := by
      simp [close_not_mem_sequenceText h hletters]
    have hbar' : '|' ∉ '(' :: sequenceText first := by simp [hbar]
    have hunwrap :=
      unwrap_first_close (List.cons_ne_nil '(' (sequenceText first)) hclose hbar' hquery
    rw [List.cons_append] at hunwrap
    rw [hunwrap, ← unwrap_eq_self hclose]
    exact hlast
  · have hmem := open_mem_unwrap_open h
    have hshift : LastOpen ([] ++ '(' :: (unwrapPlainGroups ('(' :: sequenceText first) ++
        ')' :: unwrapPlainGroups t)) moved head := LastOpen.of_shift hmem hlast
    rw [unwrap_group_group h hbar hquery hletters]
    exact hshift
end

/-- Plain expressions lose all their parentheses, and others do not. -/
theorem open_mem_unwrap_sequenceText {es : List Nested} (h : SequenceWellFormed es)
    (hbar : '|' ∉ sequenceText es) :
    '(' ∈ unwrapPlainGroups (sequenceText es) ↔ ¬ ∀ e ∈ es, e.IsPlain := by
  induction es with
  | nil =>
    have hopen : '(' ∉ unwrapPlainGroups (sequenceText []) := List.not_mem_nil
    simp [hopen]
  | cons e es ih =>
    rw [sequenceText, List.mem_append, not_or] at hbar
    have hrest := ih h.2 hbar.2
    rw [List.forall_mem_cons, Classical.not_and_iff_not_or_not, ← hrest]
    cases e with
    | char c =>
      have hopen : '(' ≠ c := (WellFormed.ne h.1 (by decide)).symm
      show '(' ∈ unwrapPlainGroups (c :: sequenceText es) ↔ _
      rw [unwrap_cons hopen.symm, List.mem_cons]
      simp [hopen, IsPlain]
    | group first others =>
      obtain ⟨rfl, hfirst⟩ := eq_nil_of_bar_not_mem hbar.1
      have hquery := query_not_mem_sequenceText h.2
      rw [sequenceText, text_group_nil_append]
      by_cases hletters : ∀ e ∈ first, e.IsLetter
      · have hopen : '(' ∉ sequenceText first := fun hmem =>
          (open_mem_sequenceText h.1.2.1).1 hmem hletters
        rw [unwrap_group_of_isLetter h.1.2.1 hfirst hquery h.1.1 hletters, List.mem_append]
        have hplain : IsPlain (.group first []) := hletters
        simp [hopen, hplain]
      · have hmem := open_mem_unwrap_group h.1.2.1 hfirst hquery hletters
        have hplain : ¬ IsPlain (.group first []) := hletters
        simp [hmem, hplain]

/-- A letter in front stays in front, and it is moved when groups follow. -/
theorem exists_lastOpen_unwrap_char {c : Char} {es : List Nested}
    (h : SequenceWellFormed (.char c :: es)) (hbar : '|' ∉ sequenceText (.char c :: es)) :
    ∃ moved head, LastOpen (unwrapPlainGroups ('(' :: sequenceText (.char c :: es))) moved head ∧
      (moved = [] ↔ ∀ e ∈ es, e.IsLetter) := by
  by_cases hletters : ∀ e ∈ es, e.IsLetter
  · have hall : ∀ e ∈ Nested.char c :: es, e.IsLetter :=
      List.forall_mem_cons.2 ⟨trivial, hletters⟩
    have hclose : ')' ∉ '(' :: sequenceText (.char c :: es) := by
      simp [close_not_mem_sequenceText h hall]
    have hopen : '(' ∉ sequenceText (.char c :: es) := fun hmem =>
      (open_mem_sequenceText h).1 hmem hall
    rw [unwrap_eq_self hclose]
    exact ⟨[], _, ⟨[], _, rfl, hopen, rfl, rfl⟩, iff_of_true rfl hletters⟩
  · obtain ⟨i, j, hij, hclose, hopen⟩ := exists_first_close h.2 hletters
    have hqueryj : '?' ∉ j := fun hmem => query_not_mem_sequenceText h.2 (by rw [hij]; simp [hmem])
    have htext : sequenceText (.char c :: es) = (c :: i) ++ ')' :: j := by
      show c :: sequenceText es = _
      rw [hij]
      rfl
    have hbari : '|' ∉ c :: i := fun hmem => hbar (by rw [htext]; exact List.mem_append_left _ hmem)
    have hclose' : ')' ∉ c :: i := by
      have hne : ')' ≠ c := (WellFormed.ne h.1 (by decide)).symm
      simp [hne, hclose]
    rw [htext, unwrap_first_close (List.cons_ne_nil c i) hclose' hbari hqueryj]
    obtain ⟨moved, head, hlast⟩ :=
      exists_lastOpen (List.mem_append_left (unwrapPlainGroups j) hopen)
    refine ⟨_, head, hlast.append_left [c], iff_of_false ?_ hletters⟩
    rw [(WellFormed.bare h.1).letters_eq]
    exact List.cons_ne_nil c moved

/-- The opening parenthesis that stays, and whether something is in front of it. -/
theorem exists_lastOpen_unwrap : (es : List Nested) → SequenceWellFormed es →
    '|' ∉ sequenceText es → ∃ moved head,
      LastOpen (unwrapPlainGroups ('(' :: sequenceText es)) moved head ∧ (moved = [] ↔ LeadsIn es)
  | [], _, _ => ⟨[], [], ⟨[], [], rfl, List.not_mem_nil, rfl, rfl⟩, by simp [LeadsIn]⟩
  | .char c :: es, h, hbar => by
    rw [leadsIn_char]
    exact exists_lastOpen_unwrap_char h hbar
  | .group first others :: es, h, hbar => by
    rw [sequenceText, List.mem_append, not_or] at hbar
    obtain ⟨rfl, hfirst⟩ := eq_nil_of_bar_not_mem hbar.1
    obtain ⟨moved, head, hlast, hmoved⟩ := exists_lastOpen_unwrap first h.1.2.1 hfirst
    have hquery := query_not_mem_sequenceText h.2
    have hopen := open_mem_unwrap_sequenceText h.2 hbar.2
    rw [sequenceText, text_group_nil_append, leadsIn_group]
    by_cases hplain : ∀ e ∈ es, e.IsPlain
    · have hrest : '(' ∉ unwrapPlainGroups (sequenceText es) := fun hmem => hopen.1 hmem hplain
      have hboth := lastOpen_unwrap_group h.1.2.1 hfirst hquery (hlast.append_right hrest)
      exact ⟨moved, _, hboth, hmoved.trans (and_iff_left hplain).symm⟩
    · -- The last one is behind the group, whose letters are all in front of it.
      obtain ⟨moved', head', hlast'⟩ := exists_lastOpen (hopen.2 hplain)
      have hboth := lastOpen_unwrap_group h.1.2.1 hfirst hquery
        (hlast'.append_left (unwrapPlainGroups ('(' :: sequenceText first)))
      have hletters := letters_sequenceText_ne_nil h.1.2.1 h.1.1
      refine ⟨_, head', hboth, iff_of_false ?_ fun hlead => hplain hlead.2⟩
      rw [letters_unwrap, letters_open]
      exact fun hnil => hletters (List.append_eq_nil_iff.1 hnil).1

end Nested
end Regexp
end StyleScope
