import StyleScope.Proofs.Regexp.LeadingGroups
import StyleScope.Proofs.Regexp.Slots

/-!
# Reading nested groups

If an unwrapped sequence of nested expressions can be read at all, every expression in it
is read as a slot (`exists_slots`): a group of alternatives has no other inside, and its
words are those that are meant except for the letters that are moved.
-/

namespace StyleScope
namespace Regexp
namespace Nested

open Text

/-- Nothing is moved out of the first alternative. -/
def KeepsFirst : Nested → Prop
  | .char _ => True
  | .group first others => others ≠ [] → LeadsIn first

theorem bar_not_mem_letters {s : Text} (h : '|' ∉ s) : '|' ∉ letters s :=
  fun hmem => h (mem_of_mem_letters hmem)

theorem bar_not_mem_unwrap {s : Text} (h : '|' ∉ s) : '|' ∉ unwrapPlainGroups s :=
  fun hmem => h (mem_of_mem_unwrap hmem)

/-! ## Where bars may stand -/

/-- In a group that is read, the first alternative has no group of alternatives. -/
theorem bar_not_mem_of_reads {es : List Nested} (h : SequenceWellFormed es) {t : Text}
    (hquery : '?' ∉ t) {ws : List Text}
    (hreads : Reads (unwrapPlainGroups ('(' :: (sequenceText es ++ t))) ws) :
    '|' ∉ sequenceText es := by
  intro hbar
  obtain ⟨a, b, hab, ha⟩ := exists_first_of_mem hbar
  have hexcess := count_lt_of_sequenceText_eq es h ha hab
  have hqueryes := query_not_mem_sequenceText h
  rw [hab] at hqueryes
  have hquerya : '?' ∉ '(' :: a := fun hmem => hqueryes (by simpa using Or.inl hmem)
  have hqueryb : '?' ∉ b ++ t := by
    rw [List.mem_append, not_or]
    exact ⟨fun hmem => hqueryes (by simp [hmem]), hquery⟩
  have htext : '(' :: (sequenceText es ++ t) = ('(' :: a) ++ '|' :: (b ++ t) := by
    rw [hab]
    simp
  rw [htext, unwrap_append_bar hquerya hqueryb] at hreads
  have hbara : '|' ∉ unwrapPlainGroups ('(' :: a) := bar_not_mem_unwrap (by simp [ha])
  have hone := (Reads.of_segment hbara hreads).1
  -- The depth at the bar is one, so nothing is open in the alternative itself.
  have hdepth := depth?_sequenceText es h 1
  rw [hab] at hdepth
  obtain ⟨d, hd⟩ := exists_depth?_of_append hdepth
  have hcount := count_of_depth? hd
  have hd' : depth? 0 ('(' :: a) = some d := hd
  have hcount' := count_of_depth? (depth?_unwrap hd')
  omega

/-- An alternative that loses all its parentheses has no group of alternatives. -/
theorem bar_not_mem_of_open_not_mem {es : List Nested} (h : SequenceWellFormed es)
    (hopen : '(' ∉ unwrapPlainGroups (sequenceText es)) : '|' ∉ sequenceText es := by
  intro hbar
  obtain ⟨a, b, hab, ha⟩ := exists_first_of_mem hbar
  have hexcess := count_lt_of_sequenceText_eq es h ha hab
  have hquery := query_not_mem_sequenceText h
  rw [hab] at hquery hopen
  have hquerya : '?' ∉ a := fun hmem => hquery (List.mem_append_left _ hmem)
  have hqueryb : '?' ∉ b := fun hmem => hquery (by simp [hmem])
  rw [unwrap_append_bar hquerya hqueryb] at hopen
  have hopena : '(' ∉ unwrapPlainGroups a := fun hmem => hopen (List.mem_append_left _ hmem)
  have hdepth := depth?_sequenceText es h 0
  rw [hab] at hdepth
  obtain ⟨d, hd⟩ := exists_depth?_of_append hdepth
  have hcount := count_of_depth? hd
  have hcount' := count_of_depth? (depth?_unwrap hd)
  rw [List.count_eq_zero.2 hopena] at hcount'
  omega

/-! ## The other alternatives -/

/-- Alternatives that lose all their parentheses, one by one. -/
theorem words_of_open_not_mem {es : List Nested} {ess : List (List Nested)}
    (h : SequenceWellFormed es) (hess : OthersWellFormed ess)
    (hopen : '(' ∉ unwrapPlainGroups (sequenceText es ++ othersText ess)) :
    sequenceWords es ++ othersWords ess =
      List.splitOn '|' (letters (sequenceText es ++ othersText ess)) := by
  induction ess generalizing es with
  | nil =>
    rw [othersText, List.append_nil] at hopen ⊢
    have hbar := bar_not_mem_of_open_not_mem h hopen
    rw [othersWords, List.append_nil, sequenceWords_of_bar_not_mem es h hbar,
      List.splitOn_eq_singleton (bar_not_mem_letters hbar)]
  | cons es' ess ih =>
    have hquery := query_not_mem_sequenceText h
    have hquery' : '?' ∉ sequenceText es' ++ othersText ess := by
      rw [List.mem_append, not_or]
      exact ⟨query_not_mem_sequenceText hess.2.1, query_not_mem_othersText hess.2.2⟩
    rw [othersText_cons] at hopen ⊢
    rw [unwrap_append_bar hquery hquery', List.mem_append, not_or, List.mem_cons, not_or] at hopen
    have hbar := bar_not_mem_of_open_not_mem h hopen.1
    have hletters : letters (sequenceText es ++ '|' :: (sequenceText es' ++ othersText ess)) =
        letters (sequenceText es) ++ '|' :: letters (sequenceText es' ++ othersText ess) :=
      letters_append _ _
    rw [hletters, List.splitOn_append_cons_self_of_not_mem (bar_not_mem_letters hbar), othersWords,
      ih hess.2.1 hess.2.2 hopen.2.2, sequenceWords_of_bar_not_mem es h hbar]
    rfl

/-! ## Expressions as slots -/

/-- An expression without bars is read as its letters. -/
theorem exists_slot_of_bar_not_mem {e : Nested} (h : e.WellFormed) (hbar : '|' ∉ e.text) {t : Text}
    (hquery : '?' ∉ t) {ws : List Text} (hreads : Reads (unwrapPlainGroups (e.text ++ t)) ws) :
    ∃ (p : Slot) (ws' : List Text), Reads (unwrapPlainGroups t) ws' ∧
      ws = joined p.read ws' ∧ e.words = p.meant ∧
      p.InPlace := by
  rw [unwrap_append (query_not_mem_text h) hquery (Or.inl (closed_text h))] at hreads
  obtain ⟨ws', hreads', rfl⟩ := Reads.of_balanced_append (bar_not_mem_unwrap hbar)
    (count_unwrap (depth?_text e h 0)) hreads
  refine ⟨⟨[], letters e.text, []⟩, ws', hreads', ?_, words_of_bar_not_mem e h hbar,
    fun hne => absurd rfl hne⟩
  rw [letters_unwrap, ← joined_singleton_left]
  rfl

section
variable {first es : List Nested} {ess : List (List Nested)}
  (h : (group first (es :: ess)).WellFormed) {t : Text} (hquery : '?' ∉ t)
include h hquery

/-- What unwrapping makes of a group of several alternatives. -/
theorem unwrap_group_append :
    unwrapPlainGroups ((group first (es :: ess)).text ++ t) =
      unwrapPlainGroups ('(' :: sequenceText first) ++
        '|' :: (unwrapPlainGroups (sequenceText es ++ othersText ess) ++
          ')' :: unwrapPlainGroups t) := by
  obtain ⟨-, hfirst, -, hes, hess⟩ := h
  have htext : (group first (es :: ess)).text ++ t = ('(' :: sequenceText first) ++
      '|' :: ((sequenceText es ++ othersText ess) ++ ')' :: t) := by
    rw [text_group, othersText_cons]
    simp
  have hqueryfirst : '?' ∉ '(' :: sequenceText first := by
    simp [query_not_mem_sequenceText hfirst]
  have hqueryother : '?' ∉ sequenceText es ++ othersText ess := by
    rw [List.mem_append, not_or]
    exact ⟨query_not_mem_sequenceText hes, query_not_mem_othersText hess⟩
  have hqueryt : '?' ∉ ')' :: t := by simp [hquery]
  have hquerybehind : '?' ∉ (sequenceText es ++ othersText ess) ++ ')' :: t := by
    rw [List.mem_append, not_or]
    exact ⟨hqueryother, hqueryt⟩
  have hclosed := (closed_sequenceText hes).append (closed_othersText hess)
  rw [htext, unwrap_append_bar hqueryfirst hquerybehind,
    unwrap_append hqueryother hqueryt (Or.inl hclosed), unwrap_cons (show ')' ≠ '(' by decide)]

theorem bar_not_mem_first {ws : List Text}
    (hreads : Reads (unwrapPlainGroups ((group first (es :: ess)).text ++ t)) ws) :
    '|' ∉ sequenceText first := by
  have htext : (group first (es :: ess)).text ++ t =
      '(' :: (sequenceText first ++ (othersText (es :: ess) ++ ')' :: t)) := by
    rw [text_group]
    simp
  have hquerybehind : '?' ∉ othersText (es :: ess) ++ ')' :: t := by
    rw [List.mem_append, not_or]
    exact ⟨query_not_mem_othersText h.2.2, by simp [hquery]⟩
  rw [htext] at hreads
  exact bar_not_mem_of_reads h.2.1 hquerybehind hreads

/-- A group of several alternatives moves letters of the first one, or none. -/
theorem exists_slot_group {ws : List Text}
    (hreads : Reads (unwrapPlainGroups ((group first (es :: ess)).text ++ t)) ws) :
    ∃ (p : Slot) (ws' : List Text), Reads (unwrapPlainGroups t) ws' ∧ ws = joined p.read ws' ∧
      (group first (es :: ess)).words = p.meant ∧ (p.InPlace ↔ LeadsIn first) := by
  have hbar := bar_not_mem_first h hquery hreads
  rw [unwrap_group_append h hquery] at hreads
  obtain ⟨-, hfirst, -, hes, hess⟩ := h
  have hdepth : depth? 0 (sequenceText es ++ othersText ess) = some 0 := by
    rw [depth?_append, depth?_sequenceText es hes]
    exact depth?_othersText ess hess 0
  have hbar' : '|' ∉ unwrapPlainGroups ('(' :: sequenceText first) :=
    bar_not_mem_unwrap (by simp [hbar])
  obtain ⟨-, moved, head, inside, rest, ws', hlast, hinside, hopen, hclose, hrest, rfl⟩ :=
    Reads.of_segment hbar' hreads
  obtain ⟨rfl, rfl⟩ := unwrap_eq_of_append_eq hdepth hopen hclose hinside
  obtain ⟨moved', head', hlast', hmoved⟩ := exists_lastOpen_unwrap first hfirst hbar
  obtain ⟨rfl, rfl⟩ := hlast.unique hlast'
  refine ⟨⟨moved, head, List.splitOn '|' _⟩, ws', hrest, rfl, ?_, ?_⟩
  · have hletters : unwrapPlainGroups (sequenceText es ++ othersText ess) =
        letters (sequenceText es ++ othersText ess) := by
      rw [← letters_unwrap, letters_eq_self hopen hclose]
    have hwords : sequenceWords first = [moved ++ head] := by
      rw [sequenceWords_of_bar_not_mem first hfirst hbar, ← hlast.letters_eq, letters_unwrap,
        letters_open]
    rw [words, othersWords, words_of_open_not_mem hes hess hopen, hwords, ← hletters]
    rfl
  · rw [← hmoved]
    exact ⟨fun hplace => hplace (List.splitOn_ne_nil '|' _), fun hnil _ => hnil⟩
end

theorem exists_slot {e : Nested} (h : e.WellFormed) {t : Text} (hquery : '?' ∉ t) {ws : List Text}
    (hreads : Reads (unwrapPlainGroups (e.text ++ t)) ws) :
    ∃ (p : Slot) (ws' : List Text), Reads (unwrapPlainGroups t) ws' ∧
      ws = joined p.read ws' ∧ e.words = p.meant ∧
      (p.InPlace ↔ e.KeepsFirst) := by
  match e with
  | .char c =>
    obtain ⟨p, ws', hrest, hws, hwords, hplace⟩ :=
      exists_slot_of_bar_not_mem h h.bare.bar_not_mem hquery hreads
    exact ⟨p, ws', hrest, hws, hwords, iff_of_true hplace trivial⟩
  | .group first [] =>
    have hqueryt : '?' ∉ ')' :: t := by simp [hquery]
    have hreads' := hreads
    rw [text_group_nil_append] at hreads'
    have hfirst : '|' ∉ sequenceText first := bar_not_mem_of_reads h.2.1 hqueryt hreads'
    have hbar : '|' ∉ text (.group first []) := by
      rw [text_group]
      simp [hfirst, othersText]
    obtain ⟨p, ws', hrest, hws, hwords, hplace⟩ :=
      exists_slot_of_bar_not_mem h hbar hquery hreads
    exact ⟨p, ws', hrest, hws, hwords, iff_of_true hplace fun hne => absurd rfl hne⟩
  | .group first (es :: ess) =>
    obtain ⟨p, ws', hrest, hws, hwords, hplace⟩ := exists_slot_group h hquery hreads
    refine ⟨p, ws', hrest, hws, hwords, hplace.trans ?_⟩
    exact ⟨fun hlead _ => hlead, fun hkeep => hkeep (List.cons_ne_nil es ess)⟩

/-- What is read in a sequence of expressions, and what is meant. -/
theorem exists_slots {es : List Nested} (h : SequenceWellFormed es) {ws : List Text}
    (hreads : Reads (unwrapPlainGroups (sequenceText es)) ws) :
    ∃ ps : List Slot, ws = Slot.readAll ps ∧ sequenceWords es = Slot.meantAll ps ∧
      ((∀ p ∈ ps, p.InPlace) ↔ ∀ e ∈ es, e.KeepsFirst) := by
  induction es generalizing ws with
  | nil =>
    have hnil : Reads [] ws := hreads
    exact ⟨[], hnil.eq_of_nil, rfl, by simp⟩
  | cons e es ih =>
    obtain ⟨p, ws', hrest, rfl, hwords, hplace⟩ :=
      exists_slot h.1 (query_not_mem_sequenceText h.2) hreads
    obtain ⟨ps, rfl, hmeant, hplaces⟩ := ih h.2 hrest
    refine ⟨p :: ps, rfl, ?_, ?_⟩
    · rw [sequenceWords, hwords, hmeant]
      rfl
    · rw [List.forall_mem_cons, List.forall_mem_cons, hplace, hplaces]

end Nested
end Regexp
end StyleScope
