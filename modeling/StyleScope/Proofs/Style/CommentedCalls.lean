import StyleScope.Proofs.Rule.Calls
import StyleScope.Proofs.Style.Comments

/-!
# Commented-out calls

A comment is recognised together with a blank on either side, and the blank behind it is
used up.  A comment that follows at once has no blank of its own left in front and stays,
with all that is written in it.  So whatever the comments of a list say, the calls that are
read are those outside the comments exactly when comments that follow each other have two
blanks between them: `parse_stripComments_iff_separate`.
-/

namespace StyleScope
namespace Document

open Text

/-! ## Lists with comments -/

/-- A comment, and the blanks behind it. -/
structure Comment where
  inside : Text
  behind : Text

/-- Blanks with comments between them. -/
structure Gap where
  blanks : Text
  comments : List Comment

/-- A place between two commas: a call with gaps on either side, or nothing but gaps. -/
structure Entry where
  before : Gap
  call : Option Call
  behind : Gap

namespace Comment

def text (c : Comment) : Text := "/*".toList ++ (c.inside ++ ("*/".toList ++ c.behind))

/-- The comment ends where it is closed first, and there are blanks behind it. -/
def WellFormed (c : Comment) : Prop :=
  ¬ "*/".toList <:+: c.inside ∧ c.behind ≠ [] ∧ allBlank c.behind = true

instance (c : Comment) : Decidable c.WellFormed :=
  haveI := decidableInfix "*/".toList c.inside
  inferInstanceAs (Decidable (_ ∧ _))

def emptied (c : Comment) : Comment := { c with inside := [] }

end Comment

namespace Gap

def text (g : Gap) : Text := g.blanks ++ g.comments.flatMap Comment.text

def WellFormed (g : Gap) : Prop :=
  allBlank g.blanks = true ∧ (g.comments ≠ [] → g.blanks ≠ []) ∧ ∀ c ∈ g.comments, c.WellFormed

instance (g : Gap) : Decidable g.WellFormed := inferInstanceAs (Decidable (_ ∧ _))

/-- Comments that follow each other do not share a blank. -/
def Separate (g : Gap) : Prop := ∀ c ∈ g.comments.dropLast, 2 ≤ c.behind.length

instance (g : Gap) : Decidable g.Separate :=
  inferInstanceAs (Decidable (∀ c ∈ g.comments.dropLast, 2 ≤ c.behind.length))

def emptied (g : Gap) : Gap := { g with comments := g.comments.map Comment.emptied }

end Gap

namespace Entry

def callText (e : Entry) : Text := e.call.elim [] Call.text

def text (e : Entry) : Text := e.before.text ++ (e.callText ++ e.behind.text)

/-- A call can be quoted, and its value neither separates calls nor takes part in a
comment. -/
def WellFormed (e : Entry) : Prop :=
  e.before.WellFormed ∧ e.behind.WellFormed ∧
    ∀ call ∈ e.call, call.IsQuotable ∧ ¬ ClosesBefore ',' call.value ∧ '*' ∉ call.value

instance (e : Entry) : Decidable e.WellFormed := inferInstanceAs (Decidable (_ ∧ _))

def Separate (e : Entry) : Prop := e.before.Separate ∧ e.behind.Separate

instance (e : Entry) : Decidable e.Separate := inferInstanceAs (Decidable (_ ∧ _))

def emptied (e : Entry) : Entry := { e with before := e.before.emptied, behind := e.behind.emptied }

end Entry

def listText (entries : List Entry) : Text := List.intercalate [','] (entries.map Entry.text)

/-! ## What is taken out -/

variable {s t rest blanks : Text} {comments : List Comment}

/-- No comment is opened or closed by what stands in front. -/
def Unopened (rest : Text) : Prop := ∀ c ∈ rest.head?, c ≠ '*' ∧ c ≠ '/'

theorem unopened_nil : Unopened [] := fun _ hc => absurd hc (by simp)

theorem unopened_cons {c : Char} (h : c ≠ '*' ∧ c ≠ '/') (s : Text) : Unopened (c :: s) :=
  fun _ hd => Option.some.inj hd ▸ h

theorem unopened_cons_of_isBlank {c : Char} (h : isBlank c = true) (s : Text) :
    Unopened (c :: s) := by
  refine unopened_cons ⟨?_, ?_⟩ s <;> rintro rfl <;> exact absurd h (by decide)

theorem comment?_eq_none {c : Char} (h : ¬ ['/', '*'] <+: s) : comment? (c :: s) = none := by
  refine Option.eq_none_iff_forall_ne_some.2 fun found hfound => h ?_
  obtain ⟨⟨b, inside, d, heq, -⟩, -⟩ := isComment_of_comment? hfound
  obtain ⟨-, rfl⟩ := List.cons.inj heq
  exact List.prefix_append _ _

/-- Without a star there is no comment, whatever follows. -/
theorem turns_of_star_not_mem (h : '*' ∉ s) : Turns Unopened stripComments s s := by
  intro rest hrest
  induction s with
  | nil => rfl
  | cons c s ih =>
    rw [List.mem_cons, not_or] at h
    have hopen : ¬ ['/', '*'] <+: s ++ rest := by
      intro hpre
      cases s with
      | nil =>
        obtain ⟨t, rfl⟩ := hpre
        exact (hrest '/' rfl).2 rfl
      | cons d s =>
        have hstar := (List.cons_prefix_cons.1 hpre).2
        cases s with
        | nil =>
          obtain ⟨t, rfl⟩ := hstar
          exact (hrest '*' rfl).1 rfl
        | cons e s =>
          obtain rfl := (List.cons_prefix_cons.1 hstar).1
          exact h.2 (by simp)
    rw [List.cons_append, stripComments, substituteAll_of_none (comment?_eq_none hopen)]
    exact congrArg (c :: ·) (ih h.2)

theorem star_not_mem_of_allBlank (h : allBlank blanks = true) : '*' ∉ blanks :=
  fun hmem => absurd (isBlank_of_mem h hmem) (by decide)

theorem find?_commentEnd? {c : Comment} (hc : c.WellFormed) (t : Text) :
    find? commentEnd? (c.inside ++ ("*/".toList ++ (c.behind ++ t))) =
      some (c.inside, c.behind.tail ++ t) := by
  obtain ⟨hinside, hne, hblank⟩ := hc
  obtain ⟨d, behind, hbehind⟩ := List.exists_cons_of_ne_nil hne
  have hd : isBlank d = true := isBlank_of_mem hblank (hbehind ▸ List.mem_cons_self)
  refine find?_eq_some_iff.2 ⟨_, rfl, passesOver_iff.2 fun x e y hsplit => ?_, ?_⟩
  · refine Option.eq_none_iff_forall_ne_some.2 fun rest hrest => ?_
    obtain ⟨f, hclose, -⟩ := commentEnd?_eq_some.1 hrest
    have hpre : ['*', '/'] <+: e :: y ++ ("*/".toList ++ (c.behind ++ t)) := ⟨_, hclose.symm⟩
    obtain ⟨rfl, hslash⟩ := List.cons_prefix_cons.1 hpre
    cases y with
    | nil => exact absurd (List.cons_prefix_cons.1 hslash).1 (by decide)
    | cons g y =>
      obtain rfl := (List.cons_prefix_cons.1 hslash).1
      exact hinside ⟨x, y, by rw [hsplit]; simp⟩
  · rw [hbehind]
    exact commentEnd?_eq_some.2 ⟨d, rfl, hd⟩

/-- A comment is replaced together with the blank on either side. -/
theorem stripComments_comment_append {c : Comment} (hblanks : allBlank blanks = true)
    (hne : blanks ≠ []) (hc : c.WellFormed) (t : Text) :
    stripComments (blanks ++ (c.text ++ t)) =
      blanks.dropLast ++ ' ' :: stripComments (c.behind.tail ++ t) := by
  obtain ⟨front, b, rfl⟩ : ∃ front b, blanks = front ++ [b] :=
    ⟨_, _, (List.dropLast_concat_getLast hne).symm⟩
  have hb : isBlank b = true := isBlank_of_mem hblanks (by simp)
  have hfront : '*' ∉ front := fun hmem =>
    star_not_mem_of_allBlank hblanks (List.mem_append_left [b] hmem)
  have hcomment : comment? (b :: (c.text ++ t)) = some ([' '], c.behind.tail ++ t) := by
    rw [comment?_cons_of_blank hb, Comment.text, List.append_assoc, after?_append,
      Option.bind_some, List.append_assoc, List.append_assoc, find?_commentEnd? hc]
    rfl
  obtain ⟨d, behind, hbehind⟩ := List.exists_cons_of_ne_nil hc.2.1
  have hseen : c.text ++ t = "/*".toList ++ (c.inside ++ ("*/".toList ++ [d])) ++
      (c.behind.tail ++ t) := by
    rw [Comment.text, hbehind]
    simp
  rw [List.append_assoc, List.singleton_append,
    turns_of_star_not_mem hfront _ (unopened_cons_of_isBlank hb _), List.dropLast_concat,
    stripComments, substituteAll_of_some hseen hcomment]
  rfl

/-! ## Gaps -/

theorem separate_cons_iff {c : Comment} {more : List Comment} :
    (∀ d ∈ (c :: more).dropLast, 2 ≤ d.behind.length) ↔
      (more ≠ [] → 2 ≤ c.behind.length) ∧ ∀ d ∈ more.dropLast, 2 ≤ d.behind.length := by
  cases more <;> simp

theorem Comment.WellFormed.allBlank_tail {c : Comment} (h : c.WellFormed) :
    allBlank c.behind.tail = true :=
  List.all_eq_true.2 fun _ hd => isBlank_of_mem h.2.2 (List.mem_of_mem_tail hd)

theorem tail_ne_nil (h : 2 ≤ s.length) : s.tail ≠ [] := by
  intro hnil
  have hlength := congrArg List.length hnil
  rw [List.length_tail, List.length_nil] at hlength
  omega

/-- Two blanks between comments are enough for all of them to go. -/
theorem exists_turns_gap (hblanks : allBlank blanks = true) (hne : comments ≠ [] → blanks ≠ [])
    (hcomments : ∀ c ∈ comments, c.WellFormed)
    (hseparate : ∀ c ∈ comments.dropLast, 2 ≤ c.behind.length) :
    ∃ left, allBlank left = true ∧
      Turns Unopened stripComments (blanks ++ comments.flatMap Comment.text) left := by
  induction comments generalizing blanks with
  | nil =>
    refine ⟨blanks, hblanks, ?_⟩
    rw [List.flatMap_nil, List.append_nil]
    exact turns_of_star_not_mem (star_not_mem_of_allBlank hblanks)
  | cons c more ih =>
    obtain ⟨hc, hmore⟩ := List.forall_mem_cons.1 hcomments
    obtain ⟨htwo, hseparate⟩ := separate_cons_iff.1 hseparate
    obtain ⟨left, hleft, hturns⟩ :=
      ih hc.allBlank_tail (fun hne => tail_ne_nil (htwo hne)) hmore hseparate
    refine ⟨blanks.dropLast ++ ' ' :: left, ?_, fun rest hrest => ?_⟩
    · refine List.all_eq_true.2 fun d hd => ?_
      rcases List.mem_append.1 hd with hd | hd
      · exact isBlank_of_mem hblanks (List.dropLast_subset _ hd)
      · rcases List.mem_cons.1 hd with rfl | hd
        · decide
        · exact isBlank_of_mem hleft hd
    · rw [List.flatMap_cons, List.append_assoc, List.append_assoc,
        stripComments_comment_append hblanks (hne (List.cons_ne_nil c more)) hc,
        ← List.append_assoc, hturns rest hrest, List.append_assoc]
      rfl

theorem turns_of_forall_not_blank {P : Text → Prop} (h : ∀ c ∈ s, isBlank c = false) :
    Turns P stripComments s s := by
  refine Turns.of_none fun c hc rest => ?_
  rw [comment?, h c hc]
  exact if_neg Bool.false_ne_true

/-- A comment that shares its blank with the one in front stays, whatever it says. -/
theorem exists_comments_of_not_separate {payload : Text} (hclose : ¬ "*/".toList <:+: payload)
    (hpayload : ∀ c ∈ payload, isBlank c = false) (hblanks : allBlank blanks = true)
    (hne : comments ≠ [] → blanks ≠ []) (hcomments : ∀ c ∈ comments, c.WellFormed)
    (hshared : ¬ ∀ c ∈ comments.dropLast, 2 ≤ c.behind.length) :
    ∃ comments' : List Comment, (∀ c ∈ comments', c.WellFormed) ∧
      comments'.map Comment.emptied = comments.map Comment.emptied ∧
      ∀ rest, payload <:+: stripComments (blanks ++ (comments'.flatMap Comment.text ++ rest)) := by
  induction comments generalizing blanks with
  | nil => exact absurd (fun c hc => absurd hc List.not_mem_nil) hshared
  | cons c more ih =>
    obtain ⟨hc, hmore⟩ := List.forall_mem_cons.1 hcomments
    have hblanksne := hne (List.cons_ne_nil c more)
    rw [separate_cons_iff] at hshared
    by_cases htwo : 2 ≤ c.behind.length
    · obtain ⟨more', hwf, hlayout, hfound⟩ := ih hc.allBlank_tail (fun _ => tail_ne_nil htwo) hmore
        fun h => hshared ⟨fun _ => htwo, h⟩
      refine ⟨c :: more', List.forall_mem_cons.2 ⟨hc, hwf⟩, by simp [hlayout], fun rest => ?_⟩
      rw [List.flatMap_cons, List.append_assoc, stripComments_comment_append hblanks hblanksne hc]
      exact ((hfound rest).trans (List.suffix_cons ' ' _).isInfix).trans
        (List.suffix_append _ _).isInfix
    · -- The blank behind the comment is used up.
      have htail : c.behind.tail = [] := by
        refine List.eq_nil_of_length_eq_zero ?_
        rw [List.length_tail]
        omega
      cases more with
      | nil => exact absurd ⟨fun h => absurd rfl h, fun d hd => absurd hd List.not_mem_nil⟩ hshared
      | cons d more =>
        obtain ⟨hd, hmore⟩ := List.forall_mem_cons.1 hmore
        refine ⟨c :: { d with inside := payload } :: more, ?_, rfl, fun rest => ?_⟩
        · exact List.forall_mem_cons.2 ⟨hc, List.forall_mem_cons.2 ⟨⟨hclose, hd.2⟩, hmore⟩⟩
        · have hopen : ∀ e ∈ "/*".toList ++ payload, isBlank e = false := by
            intro e he
            rcases List.mem_append.1 he with he | he
            · have hall : ∀ e ∈ "/*".toList, isBlank e = false := by decide
              exact hall e he
            · exact hpayload e he
          have htext : ({ d with inside := payload } : Comment).text =
              "/*".toList ++ payload ++ ("*/".toList ++ d.behind) := by
            rw [Comment.text, List.append_assoc]
          rw [List.flatMap_cons, List.append_assoc,
            stripComments_comment_append hblanks hblanksne hc, htail, List.nil_append,
            List.flatMap_cons, htext, List.append_assoc, List.append_assoc,
            turns_of_forall_not_blank (P := fun _ => True) hopen _ trivial]
          refine List.IsInfix.trans ?_ ((List.suffix_cons ' ' _).isInfix.trans
            (List.suffix_append _ _).isInfix)
          exact List.IsInfix.trans ⟨"/*".toList, [], by simp⟩ (List.prefix_append _ _).isInfix

namespace Gap

variable {g : Gap}

theorem exists_turns (hg : g.WellFormed) (hseparate : g.Separate) :
    ∃ left, allBlank left = true ∧ Turns Unopened stripComments g.text left :=
  exists_turns_gap hg.1 hg.2.1 hg.2.2 hseparate

theorem exists_of_not_separate {payload : Text} (hclose : ¬ "*/".toList <:+: payload)
    (hpayload : ∀ c ∈ payload, isBlank c = false) (hg : g.WellFormed) (hshared : ¬ g.Separate) :
    ∃ g' : Gap, g'.WellFormed ∧ g'.emptied = g.emptied ∧
      ∀ rest, payload <:+: stripComments (g'.text ++ rest) := by
  obtain ⟨comments, hwf, hlayout, hfound⟩ :=
    exists_comments_of_not_separate hclose hpayload hg.1 hg.2.1 hg.2.2 hshared
  refine ⟨{ g with comments := comments }, ⟨hg.1, fun hne => hg.2.1 ?_, hwf⟩, ?_, fun rest => ?_⟩
  · rintro hnil
    rw [hnil] at hlayout
    exact hne (List.map_eq_nil_iff.1 hlayout)
  · rw [emptied, emptied, hlayout]
  · rw [text, List.append_assoc]
    exact hfound rest

theorem unopened_append (hg : g.WellFormed) (hrest : Unopened rest) :
    Unopened (g.text ++ rest) := by
  obtain ⟨blanks, comments⟩ := g
  cases blanks with
  | nil =>
    obtain rfl : comments = [] := Decidable.byContradiction fun hne => absurd rfl (hg.2.1 hne)
    exact hrest
  | cons b blanks => exact unopened_cons_of_isBlank (isBlank_of_mem hg.1 List.mem_cons_self) _

theorem separate_emptied_iff : g.emptied.Separate ↔ g.Separate := by
  show (∀ c ∈ (g.comments.map Comment.emptied).dropLast, 2 ≤ c.behind.length) ↔ _
  rw [← List.map_dropLast, List.forall_mem_map]
  rfl

end Gap

/-! ## Entries -/

namespace Entry

variable {e : Entry}

theorem star_not_mem_callText (he : e.WellFormed) : '*' ∉ e.callText := by
  obtain ⟨before, call, behind⟩ := e
  cases call with
  | none => exact List.not_mem_nil
  | some call =>
    have hvalue : '*' ∉ call.value := (he.2.2 call rfl).2.2
    have hname : '*' ∉ call.function.name := by cases call.function <;> decide
    show '*' ∉ call.text
    simp [Call.text, hvalue, hname]

theorem turns_callText (he : e.WellFormed) :
    Turns Unopened stripComments e.callText e.callText :=
  turns_of_star_not_mem (star_not_mem_callText he)

theorem unopened_callText_append (hrest : Unopened rest) : Unopened (e.callText ++ rest) := by
  obtain ⟨before, call, behind⟩ := e
  cases call with
  | none => exact hrest
  | some call =>
    obtain ⟨l, mid, htext, hl⟩ := Rule.exists_call_text_eq call
    have hall : ∀ l ∈ Call.initials, l ≠ '*' ∧ l ≠ '/' := by decide
    show Unopened (call.text ++ rest)
    rw [htext]
    exact unopened_cons (hall l hl) _

/-- Of a separate entry the call is left, with blanks on either side. -/
theorem exists_turns (he : e.WellFormed) (hseparate : e.Separate) :
    ∃ left right, allBlank left = true ∧ allBlank right = true ∧
      Turns Unopened stripComments e.text (left ++ (e.callText ++ right)) := by
  obtain ⟨left, hleft, hbefore⟩ := Gap.exists_turns he.1 hseparate.1
  obtain ⟨right, hright, hbehind⟩ := Gap.exists_turns he.2.1 hseparate.2
  refine ⟨left, right, hleft, hright, hbefore.append ((turns_callText he).append hbehind ?_) ?_⟩
  · exact fun rest hrest => Gap.unopened_append he.2.1 hrest
  · intro rest hrest
    rw [List.append_assoc]
    exact unopened_callText_append (Gap.unopened_append he.2.1 hrest)

theorem exists_of_not_separate {payload : Text} (hclose : ¬ "*/".toList <:+: payload)
    (hpayload : ∀ c ∈ payload, isBlank c = false) (he : e.WellFormed) (hshared : ¬ e.Separate) :
    ∃ e' : Entry, e'.WellFormed ∧ e'.emptied = e.emptied ∧
      ∀ rest, Unopened rest → payload <:+: stripComments (e'.text ++ rest) := by
  by_cases hbefore : e.before.Separate
  · have hbehind : ¬ e.behind.Separate := fun h => hshared ⟨hbefore, h⟩
    obtain ⟨g, hg, hlayout, hfound⟩ := Gap.exists_of_not_separate hclose hpayload he.2.1 hbehind
    obtain ⟨left, -, hturns⟩ := Gap.exists_turns he.1 hbefore
    refine ⟨{ e with behind := g }, ⟨he.1, hg, he.2.2⟩, ?_, fun rest hrest => ?_⟩
    · rw [emptied, emptied, hlayout]
    · have hopen := Gap.unopened_append hg hrest
      show payload <:+: stripComments (e.before.text ++ (e.callText ++ g.text) ++ rest)
      rw [List.append_assoc, List.append_assoc, hturns _ (unopened_callText_append hopen),
        turns_callText he _ hopen, ← List.append_assoc]
      exact (hfound rest).trans (List.suffix_append _ _).isInfix
  · obtain ⟨g, hg, hlayout, hfound⟩ := Gap.exists_of_not_separate hclose hpayload he.1 hbefore
    refine ⟨{ e with before := g }, ⟨hg, he.2⟩, ?_, fun rest _ => ?_⟩
    · rw [emptied, emptied, hlayout]
    · show payload <:+: stripComments (g.text ++ (e.callText ++ e.behind.text) ++ rest)
      rw [List.append_assoc]
      exact hfound _

theorem separate_emptied_iff : e.emptied.Separate ↔ e.Separate :=
  and_congr Gap.separate_emptied_iff Gap.separate_emptied_iff

end Entry

/-! ## Lists -/

variable {entries : List Entry}

theorem listText_singleton (e : Entry) : listText [e] = e.text := List.intercalate_singleton

theorem listText_cons_cons (e d : Entry) (more : List Entry) :
    listText (e :: d :: more) = e.text ++ ',' :: listText (d :: more) :=
  intercalate_cons_cons ',' _ _ _

theorem stripComments_comma_cons (s : Text) : stripComments (',' :: s) = ',' :: stripComments s :=
  turns_of_forall_not_blank (P := fun _ => True) (s := [',']) (by decide) s trivial

theorem parse_entry_append_comma {e : Entry} (he : e.WellFormed) {left right : Text}
    (hleft : allBlank left = true) (hright : allBlank right = true) (y : Text) :
    Rule.parse (left ++ (e.callText ++ right) ++ ',' :: y) = e.call.toList ++ Rule.parse y := by
  obtain ⟨before, call, behind⟩ := e
  rw [List.append_assoc, Rule.parse_append_of_allBlank hleft, List.append_assoc]
  cases call with
  | none =>
    refine (Rule.parse_append_of_allBlank hright _).trans ?_
    exact Rule.parse_cons_of_not_mem_initials (by decide) (by decide) y
  | some call =>
    obtain ⟨hquotable, hcloses, -⟩ := he.2.2 call rfl
    exact Rule.parse_call_text_append_comma hquotable hcloses hright y

theorem parse_entry {e : Entry} (he : e.WellFormed) {left right : Text}
    (hleft : allBlank left = true) (hright : allBlank right = true) :
    Rule.parse (left ++ (e.callText ++ right)) = e.call.toList := by
  obtain ⟨before, call, behind⟩ := e
  rw [Rule.parse_append_of_allBlank hleft]
  cases call with
  | none =>
    have hnil := Rule.parse_append_of_allBlank hright []
    rwa [List.append_nil] at hnil
  | some call =>
    obtain ⟨hquotable, hcloses, -⟩ := he.2.2 call rfl
    exact Rule.parse_call_text_append hquotable hcloses hright

theorem parse_stripComments_of_separate (h : ∀ e ∈ entries, e.WellFormed)
    (hseparate : ∀ e ∈ entries, e.Separate) :
    Rule.parse (stripComments (listText entries)) = entries.filterMap Entry.call := by
  induction entries with
  | nil => rfl
  | cons e more ih =>
    obtain ⟨he, hmore⟩ := List.forall_mem_cons.1 h
    obtain ⟨hsep, hseparate⟩ := List.forall_mem_cons.1 hseparate
    obtain ⟨left, right, hleft, hright, hturns⟩ := e.exists_turns he hsep
    have hcalls : (e :: more).filterMap Entry.call =
        e.call.toList ++ more.filterMap Entry.call := by
      rw [List.filterMap_cons]
      cases e.call <;> rfl
    cases more with
    | nil =>
      have hstrip := hturns [] unopened_nil
      rw [List.append_nil, show stripComments [] = [] from rfl, List.append_nil] at hstrip
      rw [listText_singleton, hstrip, parse_entry he hleft hright, hcalls,
        List.filterMap_nil, List.append_nil]
    | cons d more =>
      rw [listText_cons_cons, hturns _ (unopened_cons (by decide) _), stripComments_comma_cons,
        parse_entry_append_comma he hleft hright, ih hmore hseparate, hcalls]

theorem exists_list_of_not_separate {payload : Text} (hclose : ¬ "*/".toList <:+: payload)
    (hpayload : ∀ c ∈ payload, isBlank c = false) (h : ∀ e ∈ entries, e.WellFormed)
    (hshared : ¬ ∀ e ∈ entries, e.Separate) :
    ∃ entries' : List Entry, (∀ e ∈ entries', e.WellFormed) ∧
      entries'.map Entry.emptied = entries.map Entry.emptied ∧
      payload <:+: stripComments (listText entries') := by
  have hcomma : ∀ s, Unopened (',' :: s) := unopened_cons (by decide)
  induction entries with
  | nil => exact absurd (fun e he => absurd he List.not_mem_nil) hshared
  | cons e more ih =>
    obtain ⟨he, hmore⟩ := List.forall_mem_cons.1 h
    by_cases hsep : e.Separate
    · obtain ⟨more', hwf, hlayout, hfound⟩ := ih hmore fun hall =>
        hshared (List.forall_mem_cons.2 ⟨hsep, hall⟩)
      obtain ⟨left, right, -, -, hturns⟩ := e.exists_turns he hsep
      refine ⟨e :: more', List.forall_mem_cons.2 ⟨he, hwf⟩, by simp [hlayout], ?_⟩
      cases more' with
      | nil =>
        obtain rfl : more = [] := List.map_eq_nil_iff.1 hlayout.symm
        exact absurd (List.forall_mem_singleton.2 hsep) hshared
      | cons d more' =>
        rw [listText_cons_cons, hturns _ (hcomma _), stripComments_comma_cons]
        exact (hfound.trans (List.suffix_cons ',' _).isInfix).trans (List.suffix_append _ _).isInfix
    · obtain ⟨e', he', hlayout, hfound⟩ := e.exists_of_not_separate hclose hpayload he hsep
      refine ⟨e' :: more, List.forall_mem_cons.2 ⟨he', hmore⟩, by simp [hlayout], ?_⟩
      cases more with
      | nil =>
        have hlast := hfound [] unopened_nil
        rwa [List.append_nil, ← listText_singleton] at hlast
      | cons d more =>
        rw [listText_cons_cons]
        exact hfound _ (hcomma _)

/-! ## What is read -/

/-- Some call is none of finitely many, and it can be written without blanks, stars and
commas. -/
theorem exists_fresh_call (calls : List Call) :
    ∃ call : Call, call ∉ calls ∧ call.IsQuotable ∧ ∀ c ∈ call.value, c = 'x' := by
  have hbound : ∃ n, ∀ call ∈ calls, call.value.length ≤ n := by
    induction calls with
    | nil => exact ⟨0, fun call hcall => absurd hcall List.not_mem_nil⟩
    | cons call more ih =>
      obtain ⟨n, hn⟩ := ih
      refine ⟨max call.value.length n, List.forall_mem_cons.2 ⟨Nat.le_max_left _ _, ?_⟩⟩
      exact fun other hother => Nat.le_trans (hn other hother) (Nat.le_max_right _ _)
  obtain ⟨n, hn⟩ := hbound
  refine ⟨⟨.url, List.replicate (n + 1) 'x'⟩, fun hmem => ?_, ⟨List.cons_ne_nil _ _, ?_⟩, ?_⟩
  · have hle := hn _ hmem
    rw [List.length_replicate] at hle
    omega
  · intro c hc
    rw [List.eq_of_mem_replicate hc]
    decide
  · exact fun c hc => List.eq_of_mem_replicate hc

/-- A call that stands between a `)` with a comma and another comma is read. -/
theorem mem_parse_of_infix {call : Call} (hcall : call.IsQuotable)
    (hcloses : ¬ ClosesBefore ',' call.value)
    (h : ')' :: ',' :: (call.text ++ [',']) <:+: s) : call ∈ Rule.parse s := by
  obtain ⟨x, y, rfl⟩ := h
  have hsplit := Rule.splitCalls_append (x := x) (rfl : allBlank [] = true) (call.text ++ ',' :: y)
  have hs : x ++ ')' :: ',' :: (call.text ++ [',']) ++ y =
      x ++ ')' :: ([] ++ ',' :: (call.text ++ ',' :: y)) := by simp
  rw [hs, Rule.parse, hsplit, List.filterMap_append, List.mem_append]
  have hread := Rule.parse_call_text_append_comma hcall hcloses (rfl : allBlank [] = true) y
  right
  show call ∈ Rule.parse (call.text ++ ([] ++ ',' :: y))
  rw [hread]
  exact List.mem_cons_self

/-- Whatever the comments of a list say, the calls outside them are read and no others, exactly
when comments that follow each other do not share a blank. -/
theorem parse_stripComments_iff_separate (h : ∀ e ∈ entries, e.WellFormed) :
    (∀ entries' : List Entry, (∀ e ∈ entries', e.WellFormed) →
      entries'.map Entry.emptied = entries.map Entry.emptied →
      Rule.parse (stripComments (listText entries')) = entries.filterMap Entry.call) ↔
    ∀ e ∈ entries, e.Separate := by
  constructor
  · intro hparse
    refine Decidable.byContradiction fun hshared => ?_
    obtain ⟨call, hfresh, hquotable, hvalue⟩ := exists_fresh_call (entries.filterMap Entry.call)
    have hletters : ∀ c ∈ ')' :: ',' :: (call.text ++ [',']), c ≠ '*' ∧ isBlank c = false := by
      have hname : ∀ c ∈ call.function.name, c ≠ '*' ∧ isBlank c = false := by
        cases call.function <;> decide
      have hvalue' : ∀ c ∈ call.value, c ≠ '*' ∧ isBlank c = false := by
        intro c hc
        rw [hvalue c hc]
        decide
      simp only [Call.text, List.forall_mem_cons, List.forall_mem_append]
      exact ⟨by decide, by decide, ⟨⟨⟨hname, by decide⟩, hvalue'⟩, by decide⟩, by decide, by simp⟩
    have hcloses : ¬ ClosesBefore ',' call.value := by
      rintro ⟨x, y, heq, -⟩
      exact absurd (hvalue ')' (heq ▸ List.mem_append_right x List.mem_cons_self)) (by decide)
    obtain ⟨entries', hwf, hlayout, hfound⟩ := exists_list_of_not_separate
      (fun hin => (hletters '*' (hin.subset List.mem_cons_self)).1 rfl)
      (fun c hc => (hletters c hc).2) h hshared
    have hmem := mem_parse_of_infix hquotable hcloses hfound
    rw [hparse entries' hwf hlayout] at hmem
    exact hfresh hmem
  · intro hseparate entries' hwf hlayout
    have hcalls : entries'.filterMap Entry.call = entries.filterMap Entry.call := by
      have hmap := congrArg (List.filterMap Entry.call) hlayout
      rwa [List.filterMap_map, List.filterMap_map] at hmap
    have hseparate' : ∀ e ∈ entries'.map Entry.emptied, e.Separate := by
      rw [hlayout, List.forall_mem_map]
      exact fun e he => Entry.separate_emptied_iff.2 (hseparate e he)
    rw [List.forall_mem_map] at hseparate'
    rw [parse_stripComments_of_separate hwf
      fun e he => Entry.separate_emptied_iff.1 (hseparate' e he), hcalls]

/-- Comments with calls in them before the first call, between two calls and behind the last
one. -/
theorem parse_stripComments_iff_separate_three :
    let entries : List Entry :=
      [⟨⟨"\n".toList, [⟨"domain(\"x\"),".toList, "  ".toList⟩, ⟨" /* ".toList, " ".toList⟩]⟩,
          some ⟨.url, "https://a/b c".toList⟩,
          ⟨" ".toList, [⟨", regexp(\"y\")".toList, "\t".toList⟩]⟩⟩,
        ⟨⟨[], []⟩, some ⟨.domain, "c.com".toList⟩, ⟨" ".toList, [⟨[], "\n".toList⟩]⟩⟩]
    (∀ e ∈ entries, e.WellFormed) ∧ (∀ e ∈ entries, e.Separate) ∧
      Rule.parse (stripComments (listText entries)) =
        [⟨.url, "https://a/b c".toList⟩, ⟨.domain, "c.com".toList⟩] := by
  intro entries
  have hwf : ∀ e ∈ entries, e.WellFormed := by decide
  have hseparate : ∀ e ∈ entries, e.Separate := by decide
  have hparse := (parse_stripComments_iff_separate hwf).2 hseparate entries hwf rfl
  exact ⟨hwf, hseparate, hparse⟩

/-- Of two comments with one blank between them the second stays, and its call is read. -/
theorem parse_stripComments_shared_blank :
    let entries : List Entry :=
      [⟨⟨[], []⟩, some ⟨.domain, "a.com".toList⟩, ⟨[], []⟩⟩,
        ⟨⟨" ".toList, [⟨" x ".toList, " ".toList⟩, ⟨" domain(\"b.com\"), ".toList, " ".toList⟩]⟩,
          some ⟨.domain, "c.com".toList⟩, ⟨[], []⟩⟩]
    listText entries =
        "domain(\"a.com\"), /* x */ /* domain(\"b.com\"), */ domain(\"c.com\")".toList ∧
      (∀ e ∈ entries, e.WellFormed) ∧
      entries.filterMap Entry.call = [⟨.domain, "a.com".toList⟩, ⟨.domain, "c.com".toList⟩] ∧
      Rule.parse (stripComments (listText entries)) =
        [⟨.domain, "a.com".toList⟩, ⟨.domain, "b.com".toList⟩, ⟨.domain, "c.com".toList⟩] ∧
      Rule.parse (stripComments (listText entries)) ≠ entries.filterMap Entry.call := by
  decide +kernel

end Document
end StyleScope
