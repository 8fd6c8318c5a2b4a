import StyleScope.Proofs.Regexp.Steps
import StyleScope.Proofs.Text.Escape
import StyleScope.Regexp.Expression

/-!
# What the steps make of an item

Every step but one takes care of one kind of item and passes over the others, so the text
of an item goes through a few forms: `opened`, `unwrapped`, and so on to `settled`.  For
every step there is one lemma, that it turns the form of any item before it into the form
behind it.  The text behind the item matters to two steps only, which look for a `?`
behind a group, and no item starts with that.

Folding the scheme is no business of the items and has a module of its own.
-/

namespace StyleScope
namespace Regexp

open Text

def IsWord (w : Text) : Prop := w ≠ [] ∧ ∀ c ∈ w, c.isAlphanum = true ∨ c = '-' ∨ c = '.'

instance (w : Text) : Decidable (IsWord w) := inferInstanceAs (Decidable (_ ∧ _))

/-- Characters that a literal is not: those that mean something to a step. -/
def syntaxMarks : List Char := ['(', ')', '[', '\x7b', '.', '\\', '|', '?', ':', '$', '\n']

def Anything (_ : Text) : Prop := True

theorem escapeDots_eq_escape (word : Text) : escapeDots word = escape ['.'] word := by
  refine congrArg (word.flatMap ·) (funext fun c => ?_)
  by_cases hc : c = '.'
  · rw [if_pos hc, if_pos (List.mem_singleton.2 hc), hc]
  · rw [if_neg hc, if_neg fun hmem => hc (List.mem_singleton.1 hmem)]

theorem mem_escapeDots {w : Text} {c : Char} (h : c ∈ escapeDots w) : c = '\\' ∨ c ∈ w :=
  mem_escape (escapeDots_eq_escape w ▸ h)

theorem not_mem_escapeDots {w : Text} (hw : IsWord w) {c : Char} (hc : c.isAlphanum = false)
    (hne : c ∉ ['-', '.', '\\']) : c ∉ escapeDots w := by
  intro hmem
  obtain rfl | hmem := mem_escapeDots hmem
  · exact hne (by decide)
  · obtain halpha | rfl | rfl := hw.2 c hmem
    · rw [hc] at halpha
      exact Bool.false_ne_true halpha
    · exact hne (by decide)
    · exact hne (by decide)

theorem escapeDots_ne_nil {w : Text} (h : w ≠ []) : escapeDots w ≠ [] := by
  obtain ⟨c, w, rfl⟩ := List.exists_cons_of_ne_nil h
  show (if c = '.' then ['\\', '.'] else [c]) ++ escapeDots w ≠ []
  by_cases hc : c = '.'
  · rw [if_pos hc]
    exact List.cons_ne_nil _ _
  · rw [if_neg hc]
    exact List.cons_ne_nil _ _

namespace Item

/-- The items that are followed through the steps. -/
def IsSimple : Item → Prop
  | .literal c => c ∉ syntaxMarks
  | .escaped c => c = '.' ∨ c = '/'
  | .anyText _ isLazy => isLazy = false
  | .digit | .digits | .wordChars => True
  | .charsOf members => members ≠ [] ∧ ∀ c ∈ members, c.isAlphanum = true ∨ c = '-'
  | .choice _ words | .optional words => words ≠ [] ∧ ∀ w ∈ words, IsWord w
  | .optionalLetter _ => False

theorem not_mem_alternatives {words : List Text} (h : ∀ w ∈ words, IsWord w) {c : Char}
    (hc : c.isAlphanum = false) (hne : c ∉ ['-', '.', '\\', '|']) : c ∉ alternatives words := by
  intro hmem
  obtain rfl | ⟨v, hv, hcv⟩ := mem_intercalate hmem
  · exact hne (by decide)
  · obtain ⟨w, hw, rfl⟩ := List.mem_map.1 hv
    refine not_mem_escapeDots (h w hw) hc (fun hmem' => hne ?_) hcv
    have hsub : ∀ d ∈ ['-', '.', '\\'], d ∈ ['-', '.', '\\', '|'] := by decide
    exact hsub c hmem'

theorem alternatives_singleton (w : Text) : alternatives [w] = escapeDots w :=
  List.intercalate_singleton

theorem alternatives_cons_cons (v w : Text) (words : List Text) :
    alternatives (v :: w :: words) = escapeDots v ++ '|' :: alternatives (w :: words) :=
  intercalate_cons_cons '|' _ _ _

theorem alternatives_ne_nil {words : List Text} (hne : words ≠ []) (h : ∀ w ∈ words, IsWord w) :
    alternatives words ≠ [] := by
  obtain ⟨v, words, rfl⟩ := List.exists_cons_of_ne_nil hne
  have hv : escapeDots v ≠ [] := escapeDots_ne_nil (h v List.mem_cons_self).1
  cases words with
  | nil => rwa [alternatives_singleton]
  | cons w words =>
    rw [alternatives_cons_cons]
    exact fun heq => hv (List.append_eq_nil_iff.1 heq).1

theorem text_choice_true (words : List Text) :
    text (.choice true words) = '(' :: (alternatives words ++ [')']) := rfl

theorem text_choice_false (words : List Text) :
    text (.choice false words) = '(' :: ('?' :: ':' :: alternatives words ++ [')']) := rfl

theorem text_optional (words : List Text) :
    text (.optional words) = '(' :: (alternatives words ++ [')', '?']) := rfl

/-- Behind the parenthesis of a group comes something else than a question mark. -/
theorem exists_cons_alternatives {words : List Text} (hne : words ≠ [])
    (h : ∀ w ∈ words, IsWord w) (t : Text) :
    ∃ c x, alternatives words ++ t = c :: x ∧ c ≠ '?' := by
  obtain ⟨c, x, hx⟩ := List.exists_cons_of_ne_nil (alternatives_ne_nil hne h)
  refine ⟨c, x ++ t, by rw [hx]; rfl, ?_⟩
  rintro rfl
  refine not_mem_alternatives h (by decide) (by decide) (?_ : '?' ∈ alternatives words)
  rw [hx]
  exact List.mem_cons_self

variable {P : Text → Prop} {i : Item}

/-! ## Assertions -/

theorem assertion?_open {c : Char} (hc : c ≠ '?') (x : Text) :
    assertion? ('(' :: c :: x) = none := by
  have hopen : afterAssertionOpening? ('(' :: c :: x) = none := by
    unfold afterAssertionOpening?
    split <;> first | rfl | (next heq => simp [hc] at heq)
  rw [assertion?, hopen]
  rfl

def marks : Item → List Char
  | .literal _ | .optionalLetter _ => []
  | .escaped _ => ['\\', '.']
  | .anyText _ _ => ['.']
  | .digit | .digits | .wordChars => ['\\']
  | .charsOf _ => ['[']
  | .choice _ _ | .optional _ => ['(', ')', '|', '.', '\\', '?', ':']

theorem not_mem_text (hi : i.IsSimple) {x : Char} (hx : x ∈ syntaxMarks) (hmark : x ∉ i.marks) :
    x ∉ i.text := by
  have halpha : x.isAlphanum = false := by
    have hall : ∀ c ∈ syntaxMarks, c.isAlphanum = false := by decide
    exact hall x hx
  have hother : x ∉ ['-', '+', '*', ']', '/', 'd', 'w'] := by
    have hall : ∀ c ∈ syntaxMarks, c ∉ ['-', '+', '*', ']', '/', 'd', 'w'] := by decide
    exact hall x hx
  cases i with
  | literal c =>
    intro hmem
    rw [text, List.mem_singleton] at hmem
    exact hi (hmem ▸ hx)
  | escaped c =>
    rcases hi with rfl | rfl <;> simp_all [text, marks]
  | anyText needed isLazy =>
    obtain rfl : isLazy = false := hi
    cases needed <;> simp_all [text, marks]
  | digit => simp_all [text, marks]
  | digits => simp_all [text, marks]
  | wordChars => simp_all [text, marks]
  | charsOf members =>
    have hmembers : x ∉ members := by
      intro hmem
      obtain h | rfl := hi.2 x hmem
      · rw [halpha] at h
        exact Bool.false_ne_true h
      · exact hother (by decide)
    simp_all [text, marks]
  | choice capturing words =>
    have hwords : x ∉ alternatives words :=
      not_mem_alternatives hi.2 halpha (by simp_all [marks])
    cases capturing <;> simp_all [text, marks]
  | optional words =>
    have hwords : x ∉ alternatives words :=
      not_mem_alternatives hi.2 halpha (by simp_all [marks])
    simp_all [text, marks]
  | optionalLetter c => exact absurd hi id

/-- A step passes over the items that lack its openers. -/
theorem turns_text {step : Step} (hlocal : step.isLocal = true) (hi : i.IsSimple)
    (hopeners : ∀ x ∈ step.openers, x ∈ syntaxMarks ∧ x ∉ i.marks) :
    Turns P step.apply i.text i.text :=
  Step.turns_self hlocal fun x hx => not_mem_text hi (hopeners x hx).1 (hopeners x hx).2

/-- Inside a group there are no further groups. -/
theorem turns_inside (step : Step) (hlocal : step.isLocal = true) (hopen : step.openers = ['('])
    {words : List Text} (h : ∀ w ∈ words, IsWord w) {t : Text} (ht : '(' ∉ t) :
    Turns P step.apply (alternatives words ++ t) (alternatives words ++ t) := by
  refine Step.turns_self hlocal ?_
  rw [hopen]
  intro x hx
  rw [List.mem_singleton.1 hx, List.mem_append, not_or]
  exact ⟨not_mem_alternatives h (by decide) (by decide), ht⟩

/-! ## Assertions and groups that do not capture -/

theorem assertion?_inside {words : List Text} {t : Text} (hne : words ≠ [])
    (h : ∀ w ∈ words, IsWord w) : assertion? ('(' :: (alternatives words ++ t)) = none := by
  obtain ⟨c, x, hx, hc⟩ := exists_cons_alternatives hne h t
  rw [hx]
  exact assertion?_open hc x

theorem turns_assertions (hi : i.IsSimple) :
    Turns Anything (Step.apply .assertions) i.text i.text := by
  cases i with
  | choice capturing words =>
    have hinside := turns_inside (P := Anything) .assertions rfl rfl hi.2 (t := [')']) (by decide)
    cases capturing with
    | true =>
      rw [text_choice_true]
      refine Turns.cons_of_none (fun rest _ => ?_) hinside
      rw [List.append_assoc]
      exact assertion?_inside hi.1 hi.2
    | false =>
      have hquery : Turns Anything (Step.apply .assertions) ['?', ':'] ['?', ':'] :=
        Step.turns_self rfl (by decide)
      rw [text_choice_false]
      exact Turns.cons_of_none (fun rest _ => rfl) (hquery.append hinside fun _ _ => trivial)
  | optional words =>
    have hinside := turns_inside (P := Anything) .assertions rfl rfl hi.2 (t := [')', '?'])
      (by decide)
    rw [text_optional]
    refine Turns.cons_of_none (fun rest _ => ?_) hinside
    rw [List.append_assoc]
    exact assertion?_inside hi.1 hi.2
  | _ => exact turns_text rfl hi (by simp [Step.openers, marks, syntaxMarks])

/-- An item once groups that do not capture are written like any other. -/
def opened : Item → Text
  | .choice _ words => text (.choice true words)
  | i => i.text

theorem after?_inside {words : List Text} {t : Text} (hne : words ≠ [])
    (h : ∀ w ∈ words, IsWord w) :
    after? "(?:".toList ('(' :: (alternatives words ++ t)) = none := by
  obtain ⟨c, x, hx, hc⟩ := exists_cons_alternatives hne h t
  rw [hx]
  exact after?_cons_of_ne hc _ _

theorem turns_nonCapturing (hi : i.IsSimple) :
    Turns Anything (Step.apply .nonCapturing) i.text i.opened := by
  cases i with
  | choice capturing words =>
    have hinside := turns_inside (P := Anything) .nonCapturing rfl rfl hi.2 (t := [')'])
      (by decide)
    rw [opened, text_choice_true]
    cases capturing with
    | true =>
      rw [text_choice_true]
      refine Turns.cons_of_none (fun rest _ => ?_) hinside
      rw [List.append_assoc, after?_inside hi.1 hi.2]
      rfl
    | false =>
      intro rest hrest
      show replaceAll "(?:".toList "(".toList
        ("(?:".toList ++ (alternatives words ++ [')'] ++ rest)) = _
      rw [replaceAll_append (by decide)]
      exact congrArg ('(' :: ·) (hinside rest hrest)
  | optional words =>
    have hinside := turns_inside (P := Anything) .nonCapturing rfl rfl hi.2 (t := [')', '?'])
      (by decide)
    rw [opened, text_optional]
    · refine Turns.cons_of_none (fun rest _ => ?_) hinside
      rw [List.append_assoc, after?_inside hi.1 hi.2]
      rfl
    · intro capturing words' heq
      exact Item.noConfusion heq
  | _ => exact turns_text rfl hi (by simp [Step.openers, marks, syntaxMarks])

/-! ## Groups without alternatives -/

def unwrapped : Item → Text
  | .choice _ [w] => escapeDots w
  | i => i.opened

theorem inside_of_isWord {w : Text} (h : IsWord w) : ∀ c ∈ escapeDots w, c ≠ ')' ∧ c ≠ '|' := by
  have hclose : ')' ∉ escapeDots w := not_mem_escapeDots h (by decide) (by decide)
  have hbar : '|' ∉ escapeDots w := not_mem_escapeDots h (by decide) (by decide)
  exact forall_ne_of_not_mem hclose hbar

def NoQuery (rest : Text) : Prop := rest.head? ≠ some '?'

theorem turns_plainGroups (hi : i.IsSimple) :
    Turns NoQuery (Step.apply .plainGroups) i.opened i.unwrapped := by
  cases i with
  | choice capturing words =>
    have hinside := turns_inside (P := NoQuery) .plainGroups rfl rfl hi.2 (t := [')'])
      (by decide)
    rw [opened, text_choice_true]
    match words, hi, hinside with
    | [w], hi, _ =>
      have hw : IsWord w := hi.2 w List.mem_cons_self
      rw [alternatives_singleton]
      refine Turns.of_some fun rest hrest => ?_
      rw [List.append_assoc]
      exact plainGroup?_append (escapeDots_ne_nil hw.1) (inside_of_isWord hw) hrest
    | v :: w :: words, hi, hinside =>
      refine Turns.cons_of_none (fun rest _ => ?_) hinside
      rw [alternatives_cons_cons, List.append_assoc, List.append_assoc]
      exact plainGroup?_bar (inside_of_isWord (hi.2 v List.mem_cons_self)) _
  | optional words =>
    have hinside := turns_inside (P := NoQuery) .plainGroups rfl rfl hi.2 (t := [')', '?'])
      (by decide)
    show Turns NoQuery (Step.apply .plainGroups) (text (.optional words)) (text (.optional words))
    rw [text_optional]
    refine Turns.cons_of_none (fun rest _ => ?_) hinside
    match words, hi with
    | [w], hi =>
      have hw : IsWord w := hi.2 w List.mem_cons_self
      rw [alternatives_singleton, List.append_assoc]
      exact plainGroup?_query (inside_of_isWord hw) rest
    | v :: w :: words, hi =>
      rw [alternatives_cons_cons, List.append_assoc, List.append_assoc]
      exact plainGroup?_bar (inside_of_isWord (hi.2 v List.mem_cons_self)) _
  | _ => exact turns_text rfl hi (by simp [Step.openers, marks, syntaxMarks])

theorem noQuery_append {s rest : Text} (hs : NoQuery s) (hrest : NoQuery rest) :
    NoQuery (s ++ rest) := by
  cases s with
  | nil => exact hrest
  | cons c s => exact hs

theorem noQuery_of_not_mem {s : Text} (h : '?' ∉ s) : NoQuery s :=
  fun hhead => h (List.mem_of_head? hhead)

theorem noQuery_opened (hi : i.IsSimple) : NoQuery i.opened := by
  cases i with
  | choice capturing words => exact fun hhead => absurd hhead (by simp [opened, text_choice_true])
  | optional words =>
    intro hhead
    change (text (.optional words)).head? = some '?' at hhead
    rw [text_optional] at hhead
    simp at hhead
  | _ => exact noQuery_of_not_mem (not_mem_text hi (by decide) (by simp [marks]))

theorem noQuery_unwrapped (hi : i.IsSimple) : NoQuery i.unwrapped := by
  cases i with
  | choice capturing words =>
    match words, hi with
    | [w], hi =>
      have hw : IsWord w := hi.2 w List.mem_cons_self
      exact noQuery_of_not_mem (not_mem_escapeDots hw (by decide) (by decide))
    | v :: w :: words, hi => exact noQuery_opened hi
  | _ => exact noQuery_opened hi

theorem turns_escapeDots {step : Step} (hlocal : step.isLocal = true) {w : Text} (hw : IsWord w)
    (h : ∀ x ∈ step.openers, x.isAlphanum = false ∧ x ∉ ['-', '.', '\\']) :
    Turns P step.apply (escapeDots w) (escapeDots w) :=
  Step.turns_self hlocal fun x hx => not_mem_escapeDots hw (h x hx).1 (h x hx).2

/-- A step passes over an unwrapped item that lacks its openers. -/
theorem turns_unwrapped {step : Step} (hlocal : step.isLocal = true) (hi : i.IsSimple)
    (h : ∀ x ∈ step.openers, x ∈ syntaxMarks ∧ x ∉ ['-', '.', '\\'] ∧ x ∉ i.marks) :
    Turns P step.apply i.unwrapped i.unwrapped := by
  have halpha : ∀ x ∈ syntaxMarks, x.isAlphanum = false := by decide
  have htext : ∀ {j : Item}, j.IsSimple → j.marks = i.marks →
      Turns P step.apply j.text j.text := fun hj hmarks =>
    turns_text hlocal hj fun x hx => ⟨(h x hx).1, hmarks ▸ (h x hx).2.2⟩
  cases i with
  | choice capturing words =>
    match words, hi with
    | [w], hi =>
      have hw : IsWord w := hi.2 w List.mem_cons_self
      exact turns_escapeDots hlocal hw fun x hx => ⟨halpha x (h x hx).1, (h x hx).2.1⟩
    | v :: w :: words, hi =>
      have hsimple : (Item.choice true (v :: w :: words)).IsSimple := hi
      exact htext hsimple rfl
  | _ => exact htext hi rfl

/-! ## Counts, optional groups and repeated classes -/

theorem turns_counts (hi : i.IsSimple) :
    Turns Anything (Step.apply .counts) i.unwrapped i.unwrapped := by
  refine turns_unwrapped rfl hi ?_
  cases i <;> simp [Step.openers, marks, syntaxMarks]

def withoutOptional : Item → Text
  | .optional _ => ['*']
  | i => i.unwrapped

theorem turns_optionalGroups (hi : i.IsSimple) :
    Turns NoQuery (Step.apply .optionalGroups) i.unwrapped i.withoutOptional := by
  cases i with
  | choice capturing words =>
    match words, hi with
    | [w], hi => exact turns_escapeDots rfl (hi.2 w List.mem_cons_self) (by decide)
    | v :: w :: words, hi =>
      have hinside := turns_inside (P := NoQuery) .optionalGroups rfl rfl hi.2 (t := [')'])
        (by decide)
      show Turns NoQuery (Step.apply .optionalGroups) (text (.choice true (v :: w :: words)))
        (text (.choice true (v :: w :: words)))
      rw [text_choice_true]
      refine Turns.cons_of_none (fun rest hrest => ?_) hinside
      rw [List.append_assoc]
      exact optionalGroup?_of_head_ne (alternatives_ne_nil hi.1 hi.2)
        (not_mem_alternatives hi.2 (by decide) (by decide)) hrest
  | optional words =>
    show Turns NoQuery (Step.apply .optionalGroups) (text (.optional words)) ['*']
    rw [text_optional]
    refine Turns.of_some fun rest _ => ?_
    rw [List.append_assoc]
    exact optionalGroup?_append (alternatives_ne_nil hi.1 hi.2)
      (not_mem_alternatives hi.2 (by decide) (by decide)) rest
  | _ => exact turns_text rfl hi (by simp [Step.openers, marks, syntaxMarks])

def withoutClass : Item → Text
  | .charsOf _ => ['*']
  | i => i.withoutOptional

theorem turns_star {step : Step} (hlocal : step.isLocal = true) (h : '*' ∉ step.openers) :
    Turns P step.apply ['*'] ['*'] := by
  refine Step.turns_self hlocal fun x hx hmem => h ?_
  rw [← List.mem_singleton.1 hmem]
  exact hx

theorem turns_repeatedClasses (hi : i.IsSimple) :
    Turns Anything (Step.apply .repeatedClasses) i.withoutOptional i.withoutClass := by
  cases i with
  | optional words => exact turns_star rfl (by decide)
  | charsOf members =>
    have hclose : ']' ∉ members := by
      intro hmem
      obtain h | h := hi.2 ']' hmem
      · exact absurd h (by decide)
      · exact absurd h (by decide)
    show Turns Anything (Step.apply .repeatedClasses) ('[' :: (members ++ [']', '+'])) ['*']
    refine Turns.of_some fun rest _ => ?_
    rw [List.append_assoc]
    exact repeatedClass?_append hi.1 hclose rest
  | _ => exact turns_unwrapped rfl hi (by simp [Step.openers, marks, syntaxMarks])

/-! ## Pluses and dots -/

def withoutPlus : Item → Text
  | .literal c => [if c = '+' then '*' else c]
  | .anyText _ _ => ".*".toList
  | .digits => "\\d*".toList
  | .wordChars => "\\w*".toList
  | i => i.withoutClass

theorem map_plus_eq_self {s : Text} (h : '+' ∉ s) :
    s.map (fun c => if c = '+' then '*' else c) = s := by
  have hid : ∀ c ∈ s, (if c = '+' then '*' else c) = c := by
    intro c hc
    have hne : c ≠ '+' := fun heq => h (heq ▸ hc)
    rw [if_neg hne]
  rw [List.map_congr_left hid, List.map_id']

theorem map_plus_withoutClass (hi : i.IsSimple) :
    i.withoutClass.map (fun c => if c = '+' then '*' else c) = i.withoutPlus := by
  cases i with
  | literal c => rfl
  | escaped c => rcases hi with rfl | rfl <;> rfl
  | anyText needed isLazy =>
    obtain rfl : isLazy = false := hi
    cases needed <;> rfl
  | choice capturing words =>
    refine map_plus_eq_self ?_
    match words, hi with
    | [w], hi => exact not_mem_escapeDots (hi.2 w List.mem_cons_self) (by decide) (by decide)
    | v :: w :: words, hi =>
      have hinside : '+' ∉ alternatives (v :: w :: words) :=
        not_mem_alternatives hi.2 (by decide) (by decide)
      show '+' ∉ text (.choice true (v :: w :: words))
      rw [text_choice_true]
      simp [hinside]
  | optionalLetter c => exact absurd hi id
  | _ => rfl

def withoutDot : Item → Text
  | .anyText _ _ => ['*']
  | i => i.withoutPlus

theorem turns_dots_escaped {c : Char} (hc : c ≠ '\\') :
    Turns P (Step.apply .dots) ['\\', c] ['\\', c] := by
  intro rest _
  have hslash : (c == '\\') = false := beq_eq_false_iff_ne.2 hc
  show dropDots false ('\\' :: c :: rest) = '\\' :: c :: dropDots false rest
  rw [dropDots]
  · show '\\' :: dropDots true (c :: rest) = _
    by_cases hdot : c = '.'
    · subst hdot
      cases rest with
      | nil => rfl
      | cons d rest => rfl
    · rw [dropDots, hslash]
      exact fun x t heq _ => absurd heq hdot
  · exact fun x t heq _ => absurd heq (by decide)

def replaceDots (out word : Text) : Text := word.flatMap fun c => if c = '.' then out else [c]

theorem replaceDots_dot (word : Text) : replaceDots ['.'] word = word := by
  induction word with
  | nil => rfl
  | cons c word ih =>
    have hc : (if c = '.' then ['.'] else [c]) = [c] := by
      by_cases hdot : c = '.'
      · rw [if_pos hdot, hdot]
      · rw [if_neg hdot]
    rw [replaceDots, List.flatMap_cons, hc]
    exact congrArg (c :: ·) ih

def choiceText (out : Text) : List Text → Text
  | [w] => replaceDots out w
  | words => '(' :: (List.intercalate ['|'] (words.map (replaceDots out)) ++ [')'])

theorem unwrapped_choice (capturing : Bool) (words : List Text) :
    unwrapped (.choice capturing words) = choiceText ['\\', '.'] words := by
  match words with
  | [] => rfl
  | [w] => rfl
  | v :: w :: words => rfl

section
variable {step : Step} (hlocal : step.isLocal = true)
  (hopeners : ∀ x ∈ step.openers, x ∈ ['.', '\\'])
include hlocal hopeners

theorem turns_undotted {c : Char} (hdot : c ≠ '.') (hslash : c ≠ '\\') :
    Turns Anything step.apply [c] [c] := by
  refine Step.turns_self hlocal fun x hx hmem => ?_
  rw [List.mem_singleton] at hmem
  have hor : x = '.' ∨ x = '\\' := by simpa using hopeners x hx
  rcases hor with rfl | rfl
  · exact hdot hmem.symm
  · exact hslash hmem.symm

variable {out : Text} (hout : Turns Anything step.apply ['\\', '.'] out)
include hout

theorem turns_replaceDots {w : Text} (hw : IsWord w) :
    Turns Anything step.apply (replaceDots ['\\', '.'] w) (replaceDots out w) := by
  refine Turns.flatMap (fun c hc => ?_) fun _ _ _ _ => trivial
  by_cases hdot : c = '.'
  · rw [if_pos hdot, if_pos hdot]
    exact hout
  · rw [if_neg hdot, if_neg hdot]
    refine turns_undotted hlocal hopeners hdot ?_
    rintro rfl
    rcases hw.2 '\\' hc with h | h | h <;> exact absurd h (by decide)

theorem turns_intercalate {words : List Text} (h : ∀ w ∈ words, IsWord w) :
    Turns Anything step.apply (List.intercalate ['|'] (words.map (replaceDots ['\\', '.'])))
      (List.intercalate ['|'] (words.map (replaceDots out))) := by
  induction words with
  | nil => exact Turns.nil
  | cons v words ih =>
    have hv := turns_replaceDots hlocal hopeners hout (h v List.mem_cons_self)
    have hwords := ih fun w hw => h w (List.mem_cons_of_mem v hw)
    cases words with
    | nil =>
      rw [List.map_cons, List.map_nil, List.intercalate_singleton, List.map_cons, List.map_nil,
        List.intercalate_singleton]
      exact hv
    | cons w words =>
      rw [List.map_cons, List.map_cons, intercalate_cons_cons, List.map_cons, List.map_cons,
        intercalate_cons_cons]
      have hbar := turns_undotted (c := '|') hlocal hopeners (by decide) (by decide)
      exact hv.append (hbar.append hwords fun _ _ => trivial) fun _ _ => trivial

/-- A step that is about dots and backslashes only, in a choice. -/
theorem turns_choice {words : List Text} (hne : words ≠ []) (h : ∀ w ∈ words, IsWord w) :
    Turns Anything step.apply (choiceText ['\\', '.'] words) (choiceText out words) := by
  match words, hne with
  | [w], _ => exact turns_replaceDots hlocal hopeners hout (h w List.mem_cons_self)
  | v :: w :: words, _ =>
    have hopen := turns_undotted (c := '(') hlocal hopeners (by decide) (by decide)
    have hclose := turns_undotted (c := ')') hlocal hopeners (by decide) (by decide)
    have hinside := turns_intercalate hlocal hopeners hout h
    exact hopen.append (hinside.append hclose fun _ _ => trivial) fun _ _ => trivial
end

/-- A step passes over a literal that is a star instead of a plus. -/
theorem turns_literal {step : Step} (hlocal : step.isLocal = true)
    (hopeners : ∀ x ∈ step.openers, x ∈ syntaxMarks) {c : Char} (hc : c ∉ syntaxMarks) :
    Turns P step.apply [if c = '+' then '*' else c] [if c = '+' then '*' else c] := by
  refine Step.turns_self hlocal fun x hx hmem => ?_
  rw [List.mem_singleton] at hmem
  have hx' : x ∈ syntaxMarks := hopeners x hx
  by_cases hplus : c = '+'
  · rw [if_pos hplus] at hmem
    rw [hmem] at hx'
    exact absurd hx' (by decide)
  · rw [if_neg hplus] at hmem
    exact hc (hmem ▸ hx')

theorem turns_dots (hi : i.IsSimple) :
    Turns Anything (Step.apply .dots) i.withoutPlus i.withoutDot := by
  cases i with
  | literal c => exact turns_literal rfl (by decide) hi
  | escaped c =>
    have hc : c ≠ '\\' := by
      rcases hi with rfl | rfl <;> decide
    exact turns_dots_escaped hc
  | anyText needed isLazy => exact fun rest _ => rfl
  | digit => exact turns_dots_escaped (by decide)
  | digits =>
    have hd : Turns Anything (Step.apply .dots) ['\\', 'd'] ['\\', 'd'] :=
      turns_dots_escaped (by decide)
    exact hd.append (turns_star rfl (by decide)) fun _ _ => trivial
  | wordChars =>
    have hw : Turns Anything (Step.apply .dots) ['\\', 'w'] ['\\', 'w'] :=
      turns_dots_escaped (by decide)
    exact hw.append (turns_star rfl (by decide)) fun _ _ => trivial
  | charsOf members => exact turns_star rfl (by decide)
  | choice capturing words =>
    show Turns Anything (Step.apply .dots) (unwrapped (.choice capturing words))
      (unwrapped (.choice capturing words))
    rw [unwrapped_choice]
    exact turns_choice rfl (by decide) (turns_dots_escaped (by decide)) hi.1 hi.2
  | optional words => exact turns_star rfl (by decide)
  | optionalLetter c => exact absurd hi id

/-! ## Escapes -/

def withoutSeparator : Item → Text
  | .escaped c => if c = '/' then ['/'] else ['\\', c]
  | i => i.withoutDot

/-- A backslash with a character that the step does not look for. -/
theorem turns_escapedMark_self {marks : Text} {c : Char} (hc : c ≠ '\\') (hmem : c ∉ marks) :
    Turns P (substituteAll (escapedMark? marks)) ['\\', c] ['\\', c] := by
  refine Turns.cons_of_none (fun rest _ => escapedMark?_of_not_mem hc hmem rest) ?_
  refine Turns.of_none fun d hd rest => escapedMark?_cons _ ?_ rest
  rw [List.mem_singleton.1 hd]
  exact hc

theorem turns_escapedMark {marks : Text} {c : Char} (hc : c ≠ '\\') (hmem : c ∈ marks) :
    Turns P (substituteAll (escapedMark? marks)) ['\\', c] [c] :=
  Turns.of_some fun rest _ => escapedMark?_of_mem hc hmem rest

theorem turns_escapedSeparators (hi : i.IsSimple) :
    Turns Anything (Step.apply .escapedSeparators) i.withoutDot i.withoutSeparator := by
  cases i with
  | literal c => exact turns_literal rfl (by decide) hi
  | escaped c =>
    show Turns Anything _ ['\\', c] (if c = '/' then ['/'] else ['\\', c])
    rcases hi with rfl | rfl
    · exact turns_escapedMark_self (by decide) (by decide)
    · exact turns_escapedMark (by decide) (by decide)
  | digit => exact turns_escapedMark_self (by decide) (by decide)
  | digits =>
    have hd : Turns Anything (Step.apply .escapedSeparators) ['\\', 'd'] ['\\', 'd'] :=
      turns_escapedMark_self (by decide) (by decide)
    exact hd.append (turns_star rfl (by decide)) fun _ _ => trivial
  | wordChars =>
    have hw : Turns Anything (Step.apply .escapedSeparators) ['\\', 'w'] ['\\', 'w'] :=
      turns_escapedMark_self (by decide) (by decide)
    exact hw.append (turns_star rfl (by decide)) fun _ _ => trivial
  | choice capturing words =>
    show Turns Anything (Step.apply .escapedSeparators) (unwrapped (.choice capturing words))
      (unwrapped (.choice capturing words))
    rw [unwrapped_choice]
    exact turns_choice rfl (by decide) (turns_escapedMark_self (by decide) (by decide)) hi.1 hi.2
  | optionalLetter c => exact absurd hi id
  | _ => exact turns_star rfl (by decide)

def withoutEscapes : Item → Text
  | .escaped c => [c]
  | .choice _ words => choiceText ['.'] words
  | i => i.withoutSeparator

theorem turns_escapedLiterals (hi : i.IsSimple) :
    Turns Anything (Step.apply .escapedLiterals) i.withoutSeparator i.withoutEscapes := by
  cases i with
  | literal c => exact turns_literal rfl (by decide) hi
  | escaped c =>
    show Turns Anything _ (if c = '/' then ['/'] else ['\\', c]) [c]
    rcases hi with rfl | rfl
    · exact turns_escapedMark (by decide) (by decide)
    · exact Step.turns_self rfl (by decide)
  | digit => exact turns_escapedMark_self (by decide) (by decide)
  | digits =>
    have hd : Turns Anything (Step.apply .escapedLiterals) ['\\', 'd'] ['\\', 'd'] :=
      turns_escapedMark_self (by decide) (by decide)
    exact hd.append (turns_star rfl (by decide)) fun _ _ => trivial
  | wordChars =>
    have hw : Turns Anything (Step.apply .escapedLiterals) ['\\', 'w'] ['\\', 'w'] :=
      turns_escapedMark_self (by decide) (by decide)
    exact hw.append (turns_star rfl (by decide)) fun _ _ => trivial
  | choice capturing words =>
    show Turns Anything (Step.apply .escapedLiterals) (unwrapped (.choice capturing words))
      (choiceText ['.'] words)
    rw [unwrapped_choice]
    exact turns_choice rfl (by decide) (turns_escapedMark (by decide) (by decide)) hi.1 hi.2
  | optionalLetter c => exact absurd hi id
  | _ => exact turns_star rfl (by decide)

/-! ## Classes of characters

The escape of a class takes a star behind it along, which is one that collapsing would
remove anyway. -/

/-- An item at the end. -/
def settled : Item → Text
  | .digit | .digits | .wordChars => ['*']
  | i => i.withoutEscapes

theorem classEscape?_star {c : Char} (hc : c = 'd' ∨ c = 'w') (rest : Text) :
    classEscape? ('\\' :: c :: '*' :: rest) = some (['*'], rest) := by
  have hslash : c ≠ '\\' := by
    rcases hc with rfl | rfl <;> decide
  have hfold : foldCase c ∈ ['d', 'w', 's'] := by
    rcases hc with rfl | rfl <;> decide
  rw [classEscape?, afterRun?_backslash hslash]
  exact if_pos hfold

theorem turns_escapedStar {c : Char} (hc : c = 'd' ∨ c = 'w') :
    Turns Anything (Step.apply .classEscapes) ['\\', c, '*'] ['*'] :=
  Turns.of_some fun rest _ => classEscape?_star hc rest

theorem classEscape?_alone {c : Char} (hc : c = 'd' ∨ c = 'w') {rest : Text}
    (hplus : rest.head? ≠ some '+') (hstar : rest.head? ≠ some '*') :
    classEscape? ('\\' :: c :: rest) = some (['*'], rest) := by
  have hslash : c ≠ '\\' := by
    rcases hc with rfl | rfl <;> decide
  have hfold : foldCase c ∈ ['d', 'w', 's'] := by
    rcases hc with rfl | rfl <;> decide
  rw [classEscape?, afterRun?_backslash hslash]
  refine (if_pos hfold).trans ?_
  split
  · exact absurd rfl hplus
  · exact absurd rfl hstar
  · rfl

theorem not_mem_replaceDots {w : Text} (hw : IsWord w) {x : Char} (hx : x.isAlphanum = false)
    (hne : x ∉ ['-', '.']) : x ∉ w := by
  intro hmem
  rcases hw.2 x hmem with h | rfl | rfl
  · rw [hx] at h
    exact Bool.false_ne_true h
  · exact hne (by decide)
  · exact hne (by decide)

theorem choiceText_dot (words : List Text) :
    choiceText ['.'] words =
      match words with
      | [w] => w
      | words => '(' :: (List.intercalate ['|'] words ++ [')']) := by
  have hmap : ∀ ws : List Text, ws.map (replaceDots ['.']) = ws := by
    intro ws
    rw [List.map_congr_left fun w _ => replaceDots_dot w, List.map_id']
  match words with
  | [] => rfl
  | [w] => exact replaceDots_dot w
  | v :: w :: words =>
    show '(' :: (List.intercalate ['|'] ((v :: w :: words).map (replaceDots ['.'])) ++ [')']) = _
    rw [hmap]

theorem not_mem_choiceText {words : List Text} (h : ∀ w ∈ words, IsWord w) {x : Char}
    (hx : x.isAlphanum = false) (hne : x ∉ ['-', '.', '|', '(', ')']) :
    x ∉ choiceText ['.'] words := by
  have hword : ∀ w ∈ words, x ∉ w := fun w hw =>
    not_mem_replaceDots (h w hw) hx fun hmem => hne (by
      have hsub : ∀ d ∈ ['-', '.'], d ∈ ['-', '.', '|', '(', ')'] := by decide
      exact hsub x hmem)
  rw [choiceText_dot]
  split
  · next w => exact hword w List.mem_cons_self
  · intro hmem
    have hor : x = '(' ∨ x ∈ List.intercalate ['|'] words ∨ x = ')' := by simpa using hmem
    rcases hor with rfl | hinside | rfl
    · exact hne (by decide)
    · obtain rfl | ⟨w, hw, hmem⟩ := mem_intercalate hinside
      · exact hne (by decide)
      · exact hword w hw hmem
    · exact hne (by decide)

theorem not_mem_plus_withoutEscapes (hi : i.IsSimple) : '+' ∉ i.withoutEscapes := by
  cases i with
  | literal c =>
    intro hmem
    have hc : '+' = if c = '+' then '*' else c := List.mem_singleton.1 hmem
    by_cases hplus : c = '+'
    · rw [if_pos hplus] at hc
      exact absurd hc (by decide)
    · rw [if_neg hplus] at hc
      exact hplus hc.symm
  | escaped c => rcases hi with rfl | rfl <;> decide
  | choice capturing words => exact not_mem_choiceText hi.2 (by decide) (by decide)
  | digit => decide
  | digits => decide
  | wordChars => decide
  | optionalLetter c => exact absurd hi id
  | _ => exact (by decide : '+' ∉ ['*'])

/-- The last step before collapsing, in front of any text. -/
theorem collapse_classEscapes_append (hi : i.IsSimple) {rest : Text} (hrest : '+' ∉ rest) :
    collapseWildcards (Step.apply .classEscapes (i.withoutEscapes ++ rest)) =
      collapseWildcards (i.settled ++ Step.apply .classEscapes rest) := by
  have hself : ∀ {s : Text}, '\\' ∉ s →
      collapseWildcards (Step.apply .classEscapes (s ++ rest)) =
        collapseWildcards (s ++ Step.apply .classEscapes rest) := by
    intro s hs
    have hturns : Turns Anything (Step.apply .classEscapes) s s :=
      Step.turns_self rfl (by simpa [Step.openers] using hs)
    rw [hturns rest trivial]
  cases i with
  | literal c =>
    have hturns : Turns Anything (Step.apply .classEscapes) [if c = '+' then '*' else c]
        [if c = '+' then '*' else c] := turns_literal rfl (by decide) hi
    exact congrArg collapseWildcards (hturns rest trivial)
  | escaped c =>
    refine hself ?_
    rcases hi with rfl | rfl <;> decide
  | digit =>
    show collapseWildcards (substituteAll classEscape? ('\\' :: 'd' :: rest)) =
      collapseWildcards ('*' :: substituteAll classEscape? rest)
    by_cases hstar : rest.head? = some '*'
    · obtain ⟨r, rfl⟩ : ∃ r, rest = '*' :: r := List.head?_eq_some_iff.1 hstar
      have hescape := turns_escapedStar (Or.inl rfl) r trivial
      have hnone : classEscape? ('*' :: r) = none := classEscape?_cons (by decide) r
      have hdrop : ∀ s : Text,
          collapseWildcards ('*' :: '*' :: s) = collapseWildcards ('*' :: s) := fun _ => rfl
      rw [substituteAll_of_none hnone, hdrop]
      exact congrArg collapseWildcards hescape
    · have hplus : rest.head? ≠ some '+' := fun hhead => hrest (List.mem_of_mem_head? hhead)
      have hescape := substituteAll_of_some (show 'd' :: rest = ['d'] ++ rest from rfl)
        (classEscape?_alone (Or.inl rfl) hplus hstar)
      exact congrArg collapseWildcards hescape
  | digits => exact congrArg collapseWildcards (turns_escapedStar (Or.inl rfl) rest trivial)
  | wordChars => exact congrArg collapseWildcards (turns_escapedStar (Or.inr rfl) rest trivial)
  | choice capturing words => exact hself (not_mem_choiceText hi.2 (by decide) (by decide))
  | optionalLetter c => exact absurd hi id
  | _ => exact hself (by decide : '\\' ∉ ['*'])

end Item
end Regexp
end StyleScope
