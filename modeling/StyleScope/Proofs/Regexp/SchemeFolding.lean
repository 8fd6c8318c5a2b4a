import StyleScope.Proofs.Regexp.Stages
import StyleScope.Proofs.Regexp.Wildcards

/-!
# Folding the scheme

Of an expression whose body does not mention `http`, the scheme itself is all there is
to fold, with one exception.  Groups that lost their parentheses may have made an `http`
out of parts, and then a dot behind it becomes a star.  Only a dot without a backslash
does, so it belongs to an item for any text, which ends up as two stars instead of one.
-/

namespace StyleScope
namespace Regexp

open Text

/-! ## Groups that name both schemes -/

namespace Item

variable {i : Item}

theorem not_http_inside {words : List Text} {t : Text}
    (hhttp : ¬ "http".toList <:+: alternatives words) :
    ¬ "(http".toList <+: '(' :: (alternatives words ++ ')' :: t) := by
  intro hpre
  have hinside : "http".toList <+: alternatives words ++ ')' :: t :=
    (List.cons_prefix_cons.1 hpre).2
  have hclose : ')' ∉ "http".toList := by decide
  exact hhttp (prefix_of_prefix_append_cons hclose hinside).isInfix

theorem alternatives_infix_text {capturing : Bool} {words : List Text} :
    alternatives words <:+: text (.choice capturing words) :=
  ⟨_, [')'], rfl⟩

theorem alternatives_infix_optional {words : List Text} :
    alternatives words <:+: text (.optional words) :=
  ⟨['('], [')', '?'], rfl⟩

/-- A group that starts otherwise is no way to write the scheme. -/
theorem turns_schemeGroup {word out : Text} (hword : "(http".toList <+: word) (hi : i.IsSimple)
    (hhttp : ¬ "http".toList <:+: i.text) :
    Turns Anything (replaceAll word out) i.unwrapped i.unwrapped := by
  obtain ⟨rest, rfl⟩ := hword
  have hpass : ∀ {s : Text}, '(' ∉ s →
      Turns Anything (replaceAll ("(http".toList ++ rest) out) s s := fun h =>
    turns_replaceAll _ out h
  have hgroup : ∀ {words : List Text} {t : Text}, (∀ w ∈ words, IsWord w) → '(' ∉ t →
      ¬ "http".toList <:+: alternatives words →
      Turns Anything (replaceAll ("(http".toList ++ rest) out)
        ('(' :: (alternatives words ++ ')' :: t)) ('(' :: (alternatives words ++ ')' :: t)) := by
    intro words t h ht hno
    refine Turns.cons_of_none (fun z _ => ?_) (hpass ?_)
    · rw [List.append_assoc, after?_eq_none]
      · rfl
      · intro hpre
        exact not_http_inside hno ((List.prefix_append _ rest).trans hpre)
    · have hinside : '(' ∉ alternatives words := not_mem_alternatives h (by decide) (by decide)
      simp [hinside, ht]
  cases i with
  | choice capturing words =>
    have hno : ¬ "http".toList <:+: alternatives words := fun h =>
      hhttp (h.trans alternatives_infix_text)
    match words, hi, hno with
    | [w], hi, _ =>
      exact hpass (not_mem_escapeDots (hi.2 w List.mem_cons_self) (by decide) (by decide))
    | v :: w :: words, hi, hno => exact hgroup (t := []) hi.2 List.not_mem_nil hno
  | optional words =>
    have hno : ¬ "http".toList <:+: alternatives words := fun h =>
      hhttp (h.trans alternatives_infix_optional)
    exact hgroup (t := ['?']) hi.2 (by decide) hno
  | _ => exact hpass (not_mem_text hi (by decide) (by simp [marks]))

end Item

/-! ## Dots behind the scheme -/

/-- Some dots have become stars, none of them behind a backslash.  The character is what
stands in front. -/
inductive Softened : Char → Text → Text → Prop
  | nil {before : Char} : Softened before [] []
  | keep {before c : Char} {s t : Text} (h : Softened c s t) :
      Softened before (c :: s) (c :: t)
  | soften {before : Char} {s t : Text} (hbefore : before ≠ '\\') (h : Softened '.' s t) :
      Softened before ('.' :: s) ('*' :: t)

theorem softened_replaceAll (before : Char) (s : Text) :
    Softened before s (replaceAll "http.".toList "http*".toList s) := by
  have hword : "http.".toList ≠ [] := by decide
  induction s using replaceAll_induction hword generalizing before with
  | nil => exact .nil
  | found rest ih =>
    rw [replaceAll_append hword]
    exact .keep (.keep (.keep (.keep (.soften (by decide) (ih '.')))))
  | other c s hc ih =>
    rw [replaceAll_cons _ hc]
    exact .keep (ih c)

def Firm (s : Text) : Prop :=
  ∀ before rest t, Softened before (s ++ rest) t →
    ∃ before' t', t = s ++ t' ∧ Softened before' rest t'

theorem firm_nil : Firm [] := fun before _ t h => ⟨before, t, rfl, h⟩

theorem Firm.append {s s' : Text} (hs : Firm s) (hs' : Firm s') : Firm (s ++ s') := by
  intro before rest t h
  rw [List.append_assoc] at h
  obtain ⟨before', t', rfl, h'⟩ := hs before _ t h
  obtain ⟨before'', t'', rfl, h''⟩ := hs' before' _ t' h'
  exact ⟨before'', t'', (List.append_assoc s s' t'').symm, h''⟩

theorem firm_singleton {c : Char} (hc : c ≠ '.') : Firm [c] := by
  intro before rest t h
  cases h with
  | keep h => exact ⟨c, _, rfl, h⟩
  | soften _ _ => exact absurd rfl hc

theorem firm_escaped (c : Char) : Firm ['\\', c] := by
  intro before rest t h
  cases h with
  | keep h =>
    cases h with
    | keep h => exact ⟨c, _, rfl, h⟩
    | soften hbefore _ => exact absurd rfl hbefore

theorem firm_of_not_mem {s : Text} (h : '.' ∉ s) : Firm s := by
  induction s with
  | nil => exact firm_nil
  | cons c s ih =>
    rw [List.mem_cons, not_or] at h
    exact (firm_singleton (Ne.symm h.1)).append (ih h.2)

/-- Escaped dots stay. -/
theorem firm_escape {marks : Text} (hdot : '.' ∈ marks) (word : Text) :
    Firm (escape marks word) := by
  induction word with
  | nil => exact firm_nil
  | cons c word ih =>
    by_cases hc : c ∈ marks
    · rw [escape_cons_of_mem hc]
      exact (firm_escaped c).append ih
    · rw [escape_cons_of_not_mem hc]
      exact (firm_singleton fun heq : c = '.' => hc (heq ▸ hdot)).append ih

theorem firm_escapeDots (w : Text) : Firm (escapeDots w) :=
  escapeDots_eq_escape w ▸ firm_escape (List.mem_singleton_self '.') w

theorem firm_alternatives (words : List Text) : Firm (Item.alternatives words) := by
  induction words with
  | nil => exact firm_nil
  | cons v words ih =>
    cases words with
    | nil =>
      rw [Item.alternatives_singleton]
      exact firm_escapeDots v
    | cons w words =>
      rw [Item.alternatives_cons_cons]
      exact (firm_escapeDots v).append ((firm_singleton (by decide)).append ih)

namespace Item

theorem firm_unwrapped {i : Item} (hi : i.IsSimple)
    (hany : ∀ needed isLazy, i ≠ .anyText needed isLazy) :
    Firm i.unwrapped := by
  have hgroup : ∀ {words : List Text} {t : Text}, '.' ∉ t →
      Firm ('(' :: (alternatives words ++ t)) := fun ht =>
    (firm_singleton (by decide)).append ((firm_alternatives _).append (firm_of_not_mem ht))
  cases i with
  | escaped c => exact firm_escaped c
  | anyText needed isLazy => exact absurd rfl (hany needed isLazy)
  | choice capturing words =>
    match words with
    | [] => exact hgroup (by decide)
    | [w] => exact firm_escapeDots w
    | v :: w :: words => exact hgroup (by decide)
  | optional words => exact hgroup (by decide)
  | _ => exact firm_of_not_mem (not_mem_text hi (by decide) (by simp [marks]))

/-- A text is that of items which settle to what `items` settle to. -/
def SettlesAlike (items : List Item) (t : Text) : Prop :=
  ∃ items' : List Item, (∀ i ∈ items', i.IsSimple) ∧ t = items'.flatMap unwrapped ∧
    collapseWildcards (items'.flatMap settled) = collapseWildcards (items.flatMap settled)

theorem SettlesAlike.cons {i : Item} (hi : i.IsSimple) {items : List Item} {t : Text}
    (h : SettlesAlike items t) : SettlesAlike (i :: items) (i.unwrapped ++ t) := by
  obtain ⟨items', hsimple, rfl, hcollapse⟩ := h
  refine ⟨i :: items', ?_, rfl, collapse_append_congr_right _ hcollapse⟩
  exact List.forall_mem_cons.2 ⟨hi, hsimple⟩

/-- The item for any text that lost its dot to the scheme is two wildcards. -/
theorem SettlesAlike.anyText (needed : Bool) {items : List Item} {t : Text}
    (h : SettlesAlike items t) :
    SettlesAlike (.anyText needed false :: items) ('*' :: (if needed then '+' else '*') :: t) := by
  obtain ⟨items', hsimple, rfl, hcollapse⟩ := h
  have hstar : (Item.literal '*').IsSimple := (by decide : '*' ∉ syntaxMarks)
  have hquantifier : (Item.literal (if needed then '+' else '*')).IsSimple := by
    cases needed
    · exact (by decide : '*' ∉ syntaxMarks)
    · exact (by decide : '+' ∉ syntaxMarks)
  have hsettled : settled (.literal (if needed then '+' else '*')) = ['*'] := by
    cases needed <;> rfl
  have htwo : ((.literal '*' :: .literal (if needed then '+' else '*') :: items').flatMap
      settled) = '*' :: '*' :: items'.flatMap settled := by
    rw [List.flatMap_cons, List.flatMap_cons, hsettled]
    rfl
  refine ⟨.literal '*' :: .literal (if needed then '+' else '*') :: items', ?_, rfl, ?_⟩
  · exact List.forall_mem_cons.2 ⟨hstar, List.forall_mem_cons.2 ⟨hquantifier, hsimple⟩⟩
  · rw [htwo]
    show collapseWildcards ('*' :: items'.flatMap settled) =
      collapseWildcards ('*' :: items.flatMap settled)
    exact collapse_append_congr_right ['*'] hcollapse

theorem settlesAlike_of_softened {items : List Item} (hitems : ∀ i ∈ items, i.IsSimple)
    {before : Char} {t : Text} (h : Softened before (items.flatMap unwrapped) t) :
    SettlesAlike items t := by
  induction items generalizing before t with
  | nil =>
    cases h with
    | nil => exact ⟨[], by simp, rfl, rfl⟩
  | cons i items ih =>
    obtain ⟨hi, hrest⟩ := List.forall_mem_cons.1 hitems
    rw [List.flatMap_cons] at h
    by_cases hany : ∃ needed isLazy, i = .anyText needed isLazy
    · obtain ⟨needed, isLazy, rfl⟩ := hany
      have hlazy : isLazy = false := hi
      subst hlazy
      have hquantifier : unwrapped (.anyText needed false) =
          ['.', if needed then '+' else '*'] := rfl
      have hne : (if needed then '+' else '*') ≠ '.' := by cases needed <;> decide
      rw [hquantifier] at h
      cases h with
      | keep h =>
        obtain ⟨before', t', rfl, hs⟩ := firm_singleton hne _ _ _ h
        exact (ih hrest hs).cons hi
      | soften _ h =>
        obtain ⟨before', t', rfl, hs⟩ := firm_singleton hne _ _ _ h
        exact (ih hrest hs).anyText needed
    · have hfirm := firm_unwrapped hi fun needed isLazy heq => hany ⟨needed, isLazy, heq⟩
      obtain ⟨before', t', rfl, hs⟩ := hfirm before _ t h
      exact (ih hrest hs).cons hi

theorem colon_not_mem_unwrapped {i : Item} (hi : i.IsSimple) : ':' ∉ i.unwrapped := by
  cases i with
  | choice capturing words =>
    match words, hi with
    | [w], hi => exact not_mem_escapeDots (hi.2 w List.mem_cons_self) (by decide) (by decide)
    | v :: w :: words, hi =>
      have hinside : ':' ∉ alternatives (v :: w :: words) :=
        not_mem_alternatives hi.2 (by decide) (by decide)
      show ':' ∉ text (.choice true (v :: w :: words))
      rw [text_choice_true]
      simp [hinside]
  | optional words =>
    have hinside : ':' ∉ alternatives words := not_mem_alternatives hi.2 (by decide) (by decide)
    show ':' ∉ text (.optional words)
    rw [text_optional]
    simp [hinside]
  | _ => exact not_mem_text hi (by decide) (by simp [marks])

end Item

/-! ## The scheme of an expression -/

def SchemeForm.folded : SchemeForm → Text
  | .http => "http://".toList
  | .https => "https://".toList
  | .either => "http*://".toList

/-- The scheme has none of the marks that a step looks for. -/
theorem SchemeForm.not_mem_text (scheme : SchemeForm) : ∀ c ∈ ['(', '|', '$'], c ∉ scheme.text := by
  cases scheme <;> decide

theorem SchemeForm.not_mem_folded (scheme : SchemeForm) :
    ∀ c ∈ ['\x7b', '(', '[', '+', '.', '\\', '?'], c ∉ scheme.folded := by
  cases scheme <;> decide

theorem SchemeForm.folded_ne_nil (scheme : SchemeForm) : scheme.folded ≠ [] := by
  cases scheme <;> exact List.cons_ne_nil _ _

theorem substituteAll_longScheme_append (scheme : SchemeForm) {s : Text} (h : ':' ∉ s) :
    substituteAll longScheme? (scheme.text ++ s) = scheme.folded ++ s := by
  have hs : substituteAll longScheme? s = s :=
    substituteAll_eq_self_of_not_mem (fun _ => longScheme?_eq_none) h
  have hrest : substituteAll longScheme? ("//".toList ++ s) = "//".toList ++ s :=
    (congrArg ("//".toList ++ ·) hs : _)
  cases scheme with
  | http => exact congrArg ("http://".toList ++ ·) hs
  | https => exact congrArg ("https://".toList ++ ·) hs
  | either =>
    have hlong : longScheme? ("https?://".toList ++ s) =
        some ("http*:".toList, "//".toList ++ s) := rfl
    have hsome := substituteAll_of_some
      (show "ttps?://".toList ++ s = "ttps?:".toList ++ ("//".toList ++ s) from rfl) hlong
    rw [hrest] at hsome
    exact hsome

/-- No part of the text is `http`. -/
theorem not_http_infix_text {items : List Item}
    (hhttp : ¬ "http".toList <:+: items.flatMap Item.text) :
    ∀ i ∈ items, ¬ "http".toList <:+: i.text := by
  intro i hi h
  obtain ⟨before, after, rfl⟩ := List.append_of_mem hi
  refine hhttp (h.trans ?_)
  rw [List.flatMap_append, List.flatMap_cons]
  exact ⟨before.flatMap Item.text, after.flatMap Item.text, by rw [List.append_assoc]⟩

theorem replaceAll_schemeGroup (scheme : SchemeForm) {items : List Item}
    (hitems : ∀ i ∈ items, i.IsSimple) (hhttp : ¬ "http".toList <:+: items.flatMap Item.text)
    (word out : Text) (hword : "(http".toList <+: word) :
    replaceAll word out (scheme.text ++ items.flatMap Item.unwrapped) =
      scheme.text ++ items.flatMap Item.unwrapped := by
  obtain ⟨rest, rfl⟩ := hword
  have hscheme : Turns Anything (replaceAll ("(http".toList ++ rest) out) scheme.text
      scheme.text := turns_replaceAll _ out (by cases scheme <;> decide)
  have hbody : Turns Anything (replaceAll ("(http".toList ++ rest) out)
      (items.flatMap Item.unwrapped) (items.flatMap Item.unwrapped) :=
    Turns.flatMap (fun i hi => Item.turns_schemeGroup (List.prefix_append _ rest)
      (hitems i hi) (not_http_infix_text hhttp i hi)) fun _ _ _ _ => trivial
  exact (hscheme.append hbody fun _ _ => trivial).apply trivial rfl

/-- A scheme has no dots to soften. -/
theorem replaceAll_httpDot_append (scheme : SchemeForm) (s : Text) :
    replaceAll "http.".toList "http*".toList (scheme.text ++ s) =
      scheme.text ++ replaceAll "http.".toList "http*".toList s := by
  cases scheme <;> rfl

/-- The scheme is folded and the items keep their meaning. -/
theorem foldScheme_append (scheme : SchemeForm) {items : List Item}
    (hitems : ∀ i ∈ items, i.IsSimple) (hhttp : ¬ "http".toList <:+: items.flatMap Item.text) :
    ∃ items' : List Item, (∀ i ∈ items', i.IsSimple) ∧
      foldScheme (scheme.text ++ items.flatMap Item.unwrapped) =
        scheme.folded ++ items'.flatMap Item.unwrapped ∧
      collapseWildcards (items'.flatMap Item.settled) =
        collapseWildcards (items.flatMap Item.settled) := by
  obtain ⟨items', hsimple, htext, hcollapse⟩ :=
    Item.settlesAlike_of_softened hitems (softened_replaceAll ' ' (items.flatMap Item.unwrapped))
  have hcolon : ':' ∉ items'.flatMap Item.unwrapped := by
    intro hmem
    obtain ⟨i, hi, hmem⟩ := List.mem_flatMap.1 hmem
    exact Item.colon_not_mem_unwrapped (hsimple i hi) hmem
  refine ⟨items', hsimple, ?_, hcollapse⟩
  rw [foldScheme,
    replaceAll_schemeGroup scheme hitems hhttp "(http|https)".toList _ ⟨"|https)".toList, rfl⟩,
    replaceAll_schemeGroup scheme hitems hhttp "(https|http)".toList _ ⟨"s|http)".toList, rfl⟩,
    replaceAll_httpDot_append, htext, substituteAll_longScheme_append scheme hcolon]

end Regexp
end StyleScope
