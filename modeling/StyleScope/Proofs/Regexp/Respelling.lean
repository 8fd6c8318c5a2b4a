import StyleScope.Proofs.Regexp.Meaning

/-!
# Spellings of a quantifier

A repetition may be lazy and an optional letter may stand in a group: the texts that are
matched in full are the same (`matches_standard_iff`).  The steps do not know lazy
repetitions nor optional letters without a group.  Of either they leave the `?`, and it
becomes a wildcard of the glob unless a star follows.  So a spelling has the globs of the
standard one, which is greedy and groups its letters, exactly when it has no letter without
a group and every lazy repetition is in front of a star: `globs_eq_globs_standard_iff`.
-/

namespace StyleScope
namespace Regexp

open Text

namespace Item

inductive IsSpelled : Item → Prop
  | literal {c : Char} (h : IsLiteralChar c) : IsSpelled (.literal c)
  | dot : IsSpelled (.escaped '.')
  | anyText (needed isLazy : Bool) : IsSpelled (.anyText needed isLazy)
  | optional {c : Char} (h : c.isAlphanum = true) : IsSpelled (.optional [[c]])
  | letter {c : Char} (h : c.isAlphanum = true) : IsSpelled (.optionalLetter c)

/-- An item with greedy repetitions, and with its letter in a group. -/
def standard : Item → Item
  | .anyText needed _ => .anyText needed false
  | .optionalLetter c => .optional [[c]]
  | i => i

def IsStar : Item → Prop
  | .anyText _ _ | .optional _ => True
  | _ => False

theorem matches_standard_iff {isWordChar : Char → Prop} {i : Item} {s : Text} :
    i.standard.Matches isWordChar s ↔ i.Matches isWordChar s := by
  cases i with
  | optionalLetter c =>
    show s = [] ∨ s ∈ [[c]] ↔ s = [] ∨ s = [c]
    rw [List.mem_singleton]
  | _ => exact Iff.rfl

/-! ## An item on its way to a glob -/

def lazyMark (isLazy : Bool) : Text := if isLazy then ['?'] else []

theorem text_anyText (needed isLazy : Bool) :
    text (.anyText needed isLazy) = '.' :: (if needed then '+' else '*') :: lazyMark isLazy := rfl

theorem text_optional_letter {c : Char} (h : c.isAlphanum = true) :
    text (.optional [[c]]) = ['(', c, ')', '?'] := by
  have hdot : c ≠ '.' := by
    rintro rfl
    exact absurd h (by decide)
  rw [text_optional, alternatives_singleton, escapeDots_eq_self (by simpa using Ne.symm hdot)]
  rfl

def starred : Item → Text
  | .anyText _ isLazy => '.' :: '*' :: lazyMark isLazy
  | i => i.withoutOptional

def undotted : Item → Text
  | .anyText _ isLazy => '*' :: lazyMark isLazy
  | i => i.withoutOptional

def glob : Item → Text
  | .escaped c => [c]
  | i => i.undotted

section
variable {i : Item} {c : Char} {P : Text → Prop}

theorem isSimple_optional_letter (h : c.isAlphanum = true) : (Item.optional [[c]]).IsSimple := by
  refine ⟨List.cons_ne_nil _ _, List.forall_mem_singleton.2 ⟨List.cons_ne_nil _ _, ?_⟩⟩
  exact List.forall_mem_singleton.2 (Or.inl h)

namespace IsSpelled

theorem text_cases (hi : i.IsSpelled) :
    (∃ c, c.isAlphanum = true ∧ i = .optional [[c]]) ∨ i.text = i.withoutOptional := by
  cases hi with
  | optional h => exact Or.inl ⟨_, h, rfl⟩
  | _ => exact Or.inr rfl

theorem mem_withoutOptional (hi : i.IsSpelled) (h : c ∈ i.withoutOptional) :
    IsLiteralChar c ∨ c ∈ ['\\', '.', '+', '*', '?'] := by
  cases hi with
  | literal hc => exact Or.inl (List.mem_singleton.1 h ▸ hc)
  | dot =>
    have hall : ∀ c ∈ ['\\', '.'], c ∈ ['\\', '.', '+', '*', '?'] := by decide
    exact Or.inr (hall c h)
  | anyText needed isLazy =>
    have hall : ∀ needed isLazy, ∀ c ∈ text (.anyText needed isLazy),
        c ∈ ['\\', '.', '+', '*', '?'] := by decide
    exact Or.inr (hall needed isLazy c h)
  | optional _ =>
    rw [List.mem_singleton.1 h]
    exact Or.inr (by decide)
  | letter hc =>
    rcases List.mem_cons.1 h with rfl | h
    · exact Or.inl (Or.inl hc)
    · rw [List.mem_singleton.1 h]
      exact Or.inr (by decide)

theorem mem_text (hi : i.IsSpelled) (h : c ∈ i.text) :
    IsLiteralChar c ∨ c ∈ ['\\', '.', '+', '*', '?', '(', ')'] := by
  obtain ⟨d, hd, rfl⟩ | heq := hi.text_cases
  · rw [text_optional_letter hd] at h
    have hor : c = d ∨ c ∈ ['(', ')', '?'] := by
      simp only [List.mem_cons, List.not_mem_nil, or_false] at h ⊢
      grind
    rcases hor with rfl | hmark
    · exact Or.inl (Or.inl hd)
    · have hall : ∀ c ∈ ['(', ')', '?'], c ∈ ['\\', '.', '+', '*', '?', '(', ')'] := by decide
      exact Or.inr (hall c hmark)
  · rw [heq] at h
    refine (hi.mem_withoutOptional h).imp_right fun hmark => ?_
    exact List.mem_append_left ['(', ')'] hmark

theorem noQuery_text (hi : i.IsSpelled) : NoQuery i.text := by
  cases hi with
  | literal hc =>
    refine noQuery_of_not_mem fun hmem => absurd hc ?_
    rw [← List.mem_singleton.1 hmem]
    decide
  | dot => exact (by decide : some '\\' ≠ some '?')
  | anyText needed isLazy => exact (by decide : some '.' ≠ some '?')
  | optional hc => exact (by decide : some '(' ≠ some '?')
  | letter hc =>
    intro hhead
    obtain rfl := Option.some.inj hhead
    exact absurd hc (by decide)

/-- A step passes over an item without groups that lacks its openers. -/
theorem turns_withoutOptional (hi : i.IsSpelled) {step : Step} (hlocal : step.isLocal = true)
    (h : ∀ x ∈ step.openers, ¬ IsLiteralChar x ∧ x ∉ ['\\', '.', '+', '*', '?']) :
    Turns P step.apply i.withoutOptional i.withoutOptional :=
  Step.turns_self hlocal fun x hx hmem => (hi.mem_withoutOptional hmem).elim (h x hx).1 (h x hx).2

theorem turns_assertions (hi : i.IsSpelled) :
    Turns Anything (Step.apply .assertions) i.text i.text := by
  obtain ⟨c, hc, rfl⟩ | heq := hi.text_cases
  · exact Item.turns_assertions (isSimple_optional_letter hc)
  · rw [heq]
    exact hi.turns_withoutOptional rfl (by decide)

theorem turns_nonCapturing (hi : i.IsSpelled) :
    Turns Anything (Step.apply .nonCapturing) i.text i.text := by
  obtain ⟨c, hc, rfl⟩ | heq := hi.text_cases
  · exact Item.turns_nonCapturing (isSimple_optional_letter hc)
  · rw [heq]
    exact hi.turns_withoutOptional rfl (by decide)

theorem turns_plainGroups (hi : i.IsSpelled) :
    Turns NoQuery (Step.apply .plainGroups) i.text i.text := by
  obtain ⟨c, hc, rfl⟩ | heq := hi.text_cases
  · exact Item.turns_plainGroups (isSimple_optional_letter hc)
  · rw [heq]
    exact hi.turns_withoutOptional rfl (by decide)

theorem turns_counts (hi : i.IsSpelled) :
    Turns Anything (Step.apply .counts) i.text i.text := by
  have hmark : ∀ x ∈ Step.counts.openers, ¬ IsLiteralChar x ∧
      x ∉ ['\\', '.', '+', '*', '?', '(', ')'] := by decide
  exact Step.turns_self rfl fun x hx hmem =>
    (hi.mem_text hmem).elim (hmark x hx).1 (hmark x hx).2

theorem turns_optionalGroups (hi : i.IsSpelled) :
    Turns NoQuery (Step.apply .optionalGroups) i.text i.withoutOptional := by
  obtain ⟨c, hc, rfl⟩ | heq := hi.text_cases
  · exact Item.turns_optionalGroups (isSimple_optional_letter hc)
  · rw [heq]
    exact hi.turns_withoutOptional rfl (by decide)

theorem map_plus_withoutOptional (hi : i.IsSpelled) :
    i.withoutOptional.map (fun c => if c = '+' then '*' else c) = i.starred := by
  have hletter : ∀ {c : Char}, IsLiteralChar c → (if c = '+' then '*' else c) = c := by
    intro c hc
    refine if_neg ?_
    rintro rfl
    exact absurd hc (by decide)
  cases hi with
  | literal hc => exact congrArg ([·]) (hletter hc)
  | dot => rfl
  | anyText needed isLazy => cases needed <;> cases isLazy <;> rfl
  | optional hc => rfl
  | letter hc => exact congrArg ([·, '?']) (hletter (Or.inl hc))

/-- The escape of a dot is the only one. -/
theorem backslash_not_mem_undotted (hi : i.IsSpelled) (hne : i ≠ .escaped '.') :
    '\\' ∉ i.undotted := by
  have hletter : ∀ {c : Char}, IsLiteralChar c → '\\' ≠ c := by
    rintro c hc rfl
    exact absurd hc (by decide)
  cases hi with
  | literal hc => exact fun hmem => hletter hc (List.mem_singleton.1 hmem)
  | dot => exact absurd rfl hne
  | anyText needed isLazy =>
    have hall : ∀ isLazy, '\\' ∉ '*' :: lazyMark isLazy := by decide
    exact hall isLazy
  | optional hc => exact (by decide : '\\' ∉ ['*'])
  | letter hc =>
    refine fun hmem => (List.mem_cons.1 hmem).elim (hletter (Or.inl hc)) ?_
    exact (by decide : '\\' ∉ ['?'])

theorem turns_dots (hi : i.IsSpelled) :
    Turns Anything (Step.apply .dots) i.starred i.undotted := by
  have hletter : ∀ {c : Char}, IsLiteralChar c → c ≠ '.' ∧ c ≠ '\\' := by
    intro c hc
    constructor <;> rintro rfl <;> exact absurd hc (by decide)
  cases hi with
  | literal hc => exact turns_undotted rfl (by decide) (hletter hc).1 (hletter hc).2
  | dot => exact turns_dots_escaped (by decide)
  | anyText needed isLazy => cases isLazy <;> exact fun rest _ => rfl
  | optional hc => exact turns_star rfl (by decide)
  | letter hc =>
    have hc' := hletter (Or.inl hc)
    have hquery : Turns Anything (Step.apply .dots) ['?'] ['?'] :=
      turns_undotted rfl (by decide) (by decide) (by decide)
    exact (turns_undotted rfl (by decide) hc'.1 hc'.2).append hquery fun _ _ => trivial

theorem turns_escapedSeparators (hi : i.IsSpelled) :
    Turns Anything (Step.apply .escapedSeparators) i.undotted i.undotted := by
  by_cases hdot : i = .escaped '.'
  · subst hdot
    exact turns_escapedMark_self (by decide) (by decide)
  · refine Step.turns_self rfl ?_
    exact List.forall_mem_singleton.2 (hi.backslash_not_mem_undotted hdot)

theorem turns_escapedLiterals (hi : i.IsSpelled) :
    Turns Anything (Step.apply .escapedLiterals) i.undotted i.glob := by
  by_cases hdot : i = .escaped '.'
  · subst hdot
    exact turns_escapedMark (by decide) (by decide)
  · have hglob : i.glob = i.undotted := by
      cases hi with
      | dot => exact absurd rfl hdot
      | _ => rfl
    rw [hglob]
    refine Step.turns_self rfl ?_
    exact List.forall_mem_singleton.2 (hi.backslash_not_mem_undotted hdot)

theorem mem_glob (hi : i.IsSpelled) (h : c ∈ i.glob) : IsLiteralChar c ∨ c ∈ ['.', '*', '?'] := by
  cases hi with
  | literal hc => exact Or.inl (List.mem_singleton.1 h ▸ hc)
  | dot =>
    obtain rfl : c = '.' := List.mem_singleton.1 h
    exact Or.inr (by decide)
  | anyText needed isLazy =>
    have hall : ∀ isLazy, ∀ c ∈ '*' :: lazyMark isLazy, c ∈ ['.', '*', '?'] := by decide
    exact Or.inr (hall isLazy c h)
  | optional hc =>
    obtain rfl : c = '*' := List.mem_singleton.1 h
    exact Or.inr (by decide)
  | letter hc =>
    rcases List.mem_cons.1 h with rfl | h
    · exact Or.inl (Or.inl hc)
    · obtain rfl : c = '?' := List.mem_singleton.1 h
      exact Or.inr (by decide)

end IsSpelled
end
end Item

namespace Expression

variable {e : Expression}

/-! ## The steps -/

theorem mem_body (he : ∀ i ∈ e.items, i.IsSpelled) {c : Char} (h : c ∈ e.body) :
    Item.IsLiteralChar c ∨ c ∈ ['\\', '.', '+', '*', '?', '(', ')'] := by
  obtain ⟨i, hi, hc⟩ := List.mem_flatMap.1 h
  exact (he i hi).mem_text hc

theorem not_mem_body (he : ∀ i ∈ e.items, i.IsSpelled) {c : Char} (hc : ¬ Item.IsLiteralChar c)
    (hmark : c ∉ ['\\', '.', '+', '*', '?', '(', ')']) : c ∉ e.body :=
  fun h => (mem_body he h).elim hc hmark

/-- The anchors go, and the other steps in front of the scheme do nothing. -/
theorem frontSteps_spelled (he : ∀ i ∈ e.items, i.IsSpelled) :
    frontSteps.foldl (fun t step => step.apply t) e.text = e.scheme.text ++ e.body := by
  have hanchors : Step.apply .anchors e.text = e.scheme.text ++ e.body :=
    stripAnchors_text_of_not_mem (not_mem_body he (by decide) (by decide))
  have hpass : ∀ {step : Step}, (∀ x ∈ step.openers, x ∈ ['(']) →
      ∀ x ∈ step.openers, x ∉ e.scheme.text := fun h x hx =>
    e.scheme.not_mem_text x (List.mem_append_left ['|', '$'] (h x hx))
  simp only [frontSteps, List.foldl_cons, List.foldl_nil]
  rw [hanchors, body,
    Step.apply_append_flatMap_of_anything rfl (hpass (by decide))
      (fun i hi => (he i hi).turns_assertions),
    Step.apply_append_flatMap_of_anything rfl (hpass (by decide))
      (fun i hi => (he i hi).turns_nonCapturing),
    Step.apply_append_flatMap_of_noQuery rfl (hpass (by decide))
      (fun i hi => (he i hi).turns_plainGroups) (fun i hi => (he i hi).noQuery_text)]

theorem foldScheme_spelled (he : ∀ i ∈ e.items, i.IsSpelled)
    (hhttp : ¬ "http.".toList <:+: e.body) :
    foldScheme (e.scheme.text ++ e.body) = e.scheme.folded ++ e.body := by
  have hbar : '|' ∉ e.scheme.text ++ e.body := by
    rw [List.mem_append, not_or]
    exact ⟨e.scheme.not_mem_text '|' (by decide), not_mem_body he (by decide) (by decide)⟩
  rw [foldScheme, replaceAll_eq_self_of_not_mem _ (by decide) hbar,
    replaceAll_eq_self_of_not_mem _ (by decide) hbar, replaceAll_httpDot_append,
    replaceAll_eq_self _ hhttp,
    substituteAll_longScheme_append _ (not_mem_body he (by decide) (by decide))]

/-- Groups and pluses become stars, and the marks of lazy repetitions stay. -/
theorem middleSteps_spelled (he : ∀ i ∈ e.items, i.IsSpelled) :
    middleSteps.foldl (fun t step => step.apply t) (e.scheme.folded ++ e.body) =
      e.scheme.folded ++ e.items.flatMap Item.starred := by
  have hpass : ∀ {step : Step}, (∀ x ∈ step.openers, x ∈ ['\x7b', '(', '[']) →
      ∀ x ∈ step.openers, x ∉ e.scheme.folded := fun h x hx =>
    e.scheme.not_mem_folded x (List.mem_append_left ['+', '.', '\\', '?'] (h x hx))
  simp only [middleSteps, List.foldl_cons, List.foldl_nil]
  rw [body,
    Step.apply_append_flatMap_of_anything rfl (hpass (by decide))
      (fun i hi => (he i hi).turns_counts),
    Step.apply_append_flatMap_of_noQuery rfl (hpass (by decide))
      (fun i hi => (he i hi).turns_optionalGroups) (fun i hi => (he i hi).noQuery_text),
    Step.apply_append_flatMap_of_anything rfl (hpass (by decide))
      (fun i hi => (he i hi).turns_withoutOptional rfl (by decide)),
    Step.apply_plus_append_flatMap (e.scheme.not_mem_folded '+' (by decide))
      (fun i hi => (he i hi).map_plus_withoutOptional)]

/-- Dots in front of stars go, and so do escapes. -/
theorem lastSteps_spelled (he : ∀ i ∈ e.items, i.IsSpelled) :
    lastSteps.foldl (fun t step => step.apply t) (e.scheme.folded ++ e.items.flatMap Item.starred) =
      collapseWildcards (e.scheme.folded ++ e.items.flatMap Item.glob) := by
  have hpass : ∀ {step : Step}, (∀ x ∈ step.openers, x ∈ ['.', '\\', '?']) →
      ∀ x ∈ step.openers, x ∉ e.scheme.folded := fun h x hx =>
    e.scheme.not_mem_folded x (List.mem_append_right ['\x7b', '(', '[', '+'] (h x hx))
  have hclasses : Step.apply .classEscapes (e.scheme.folded ++ e.items.flatMap Item.glob) =
      e.scheme.folded ++ e.items.flatMap Item.glob := by
    refine Step.apply_eq_self (List.forall_mem_singleton.2 ?_)
    rw [List.mem_append, not_or]
    refine ⟨e.scheme.not_mem_folded '\\' (by decide), fun hmem => ?_⟩
    obtain ⟨i, hi, hc⟩ := List.mem_flatMap.1 hmem
    exact ((he i hi).mem_glob hc).elim (by decide) (by decide)
  simp only [lastSteps, List.foldl_cons, List.foldl_nil]
  rw [Step.apply_append_flatMap_of_anything rfl (hpass (by decide))
      (fun i hi => (he i hi).turns_dots),
    Step.apply_append_flatMap_of_anything rfl (hpass (by decide))
      (fun i hi => (he i hi).turns_escapedSeparators),
    Step.apply_append_flatMap_of_anything rfl (hpass (by decide))
      (fun i hi => (he i hi).turns_escapedLiterals), hclasses]
  rfl

/-- What the steps make of an expression in any spelling. -/
theorem simplify_spelled (he : ∀ i ∈ e.items, i.IsSpelled)
    (hhttp : ¬ "http.".toList <:+: e.body) :
    simplify e.text = collapseWildcards (e.scheme.folded ++ e.items.flatMap Item.glob) := by
  rw [simplify_eq, frontSteps_spelled he, foldScheme_spelled he hhttp, middleSteps_spelled he,
    lastSteps_spelled he]

theorem globs_spelled (he : ∀ i ∈ e.items, i.IsSpelled) (hhttp : ¬ "http.".toList <:+: e.body) :
    globs e.text = [collapseWildcards (e.scheme.folded ++ e.items.flatMap Item.glob)] := by
  have hmarks : ∀ c ∈ ['.', '*', '?'], isResidual c = false := by decide
  refine globs_of_forall_not_residual ?_ (fun c hc => ?_) (simplify_spelled he hhttp)
  · exact fun hnil => e.scheme.folded_ne_nil (List.append_eq_nil_iff.1 hnil).1
  · rcases List.mem_append.1 hc with hc | hc
    · exact SchemeForm.not_residual_of_mem_folded c hc
    · obtain ⟨i, hi, hc⟩ := List.mem_flatMap.1 hc
      exact ((he i hi).mem_glob hc).elim (fun hletter => (Item.IsLiteralChar.plain hletter).1)
        (hmarks c)

end Expression

/-! ## What the marks leave -/

namespace Item

variable {items : List Item}

def isLetter : Item → Bool
  | .optionalLetter _ => true
  | _ => false

theorem glob_standard_eq {i : Item} (hi : i.IsSpelled) (hletter : i.isLetter = false)
    (hlazy : ∀ needed, i ≠ .anyText needed true) : i.standard.glob = i.glob := by
  cases hi with
  | anyText needed isLazy =>
    cases isLazy with
    | false => rfl
    | true => exact absurd rfl (hlazy needed)
  | letter hc => exact absurd hletter.symm Bool.false_ne_true
  | _ => rfl

/-- A letter stays, where its group would have become a star. -/
theorem countP_flatMap_glob (hitems : ∀ i ∈ items, i.IsSpelled) :
    (items.flatMap glob).countP (!isWildcard ·) =
      (items.flatMap (·.standard.glob)).countP (!isWildcard ·) + items.countP isLetter := by
  induction items with
  | nil => rfl
  | cons i items ih =>
    obtain ⟨hi, hrest⟩ := List.forall_mem_cons.1 hitems
    have hone : i.glob.countP (!isWildcard ·) =
        i.standard.glob.countP (!isWildcard ·) + if i.isLetter then 1 else 0 := by
      cases hi with
      | anyText needed isLazy => cases isLazy <;> rfl
      | letter hc =>
        show [_, '?'].countP (!isWildcard ·) = ['*'].countP (!isWildcard ·) + 1
        rw [List.countP_cons, (IsLiteralChar.plain (Or.inl hc)).2]
        rfl
      | _ => rfl
    rw [List.flatMap_cons, List.flatMap_cons, List.countP_append, List.countP_append,
      List.countP_cons, ih hrest, hone]
    omega

theorem startsWild_glob_append {i : Item} (hi : i.IsSpelled) (s : Text) :
    startsWild (i.glob ++ s) = true ↔ i.IsStar := by
  have hplain : ∀ {c : Char}, isWildcard c = false → ∀ t, ¬ startsWild (c :: t) = true :=
    fun hc t hwild => Bool.false_ne_true (hc.symm.trans hwild)
  cases hi with
  | literal hc => exact iff_of_false (hplain (IsLiteralChar.plain hc).2 s) id
  | dot => exact iff_of_false (hplain rfl s) id
  | anyText needed isLazy => exact iff_of_true rfl trivial
  | optional hc => exact iff_of_true rfl trivial
  | letter hc => exact iff_of_false (hplain (IsLiteralChar.plain (Or.inl hc)).2 ('?' :: s)) id

theorem startsWild_flatMap_glob (hitems : ∀ i ∈ items, i.IsSpelled) :
    startsWild (items.flatMap glob) = true ↔ ∃ i ∈ items.head?, i.IsStar := by
  cases items with
  | nil => exact iff_of_false (by decide) (by simp)
  | cons i items =>
    rw [List.flatMap_cons, startsWild_glob_append (hitems i List.mem_cons_self)]
    simp

theorem query_not_mem_glob_standard {i : Item} (hi : i.IsSpelled) : '?' ∉ i.standard.glob := by
  cases hi with
  | literal hc =>
    intro hmem
    rw [← List.mem_singleton.1 hmem] at hc
    exact absurd hc (by decide)
  | dot => exact (by decide : '?' ∉ ['.'])
  | _ => exact (by decide : '?' ∉ ['*'])

/-- Without letters, and with a star behind every lazy repetition, nothing is left. -/
theorem collapse_flatMap_glob (hitems : ∀ i ∈ items, i.IsSpelled)
    (hletters : ∀ c, .optionalLetter c ∉ items)
    (hlazy : ∀ before needed after, items = before ++ .anyText needed true :: after →
      ∃ i ∈ after.head?, i.IsStar) :
    collapseWildcards (items.flatMap glob) =
      collapseWildcards (items.flatMap (·.standard.glob)) := by
  induction items with
  | nil => rfl
  | cons i items ih =>
    obtain ⟨hi, hrest⟩ := List.forall_mem_cons.1 hitems
    have htail := ih hrest (fun c hc => hletters c (List.mem_cons_of_mem i hc))
      fun before needed after heq => hlazy (i :: before) needed after (congrArg (i :: ·) heq)
    rw [List.flatMap_cons, List.flatMap_cons]
    by_cases hmark : ∃ needed, i = .anyText needed true
    · obtain ⟨needed, rfl⟩ := hmark
      have hstar : startsWild (items.flatMap glob) = true :=
        (startsWild_flatMap_glob hrest).2 (hlazy [] needed items rfl)
      have hstar' := (startsWild_eq_of_collapse_eq htail).symm.trans hstar
      show collapseWildcards ('*' :: '?' :: items.flatMap glob) =
        collapseWildcards ('*' :: items.flatMap (·.standard.glob))
      rw [collapseWildcards_cons, if_pos (by rfl), collapseWildcards_cons, hstar, if_pos (by rfl),
        collapseWildcards_cons, hstar', if_pos (by rfl), htail]
    · have hletter : i.isLetter = false := by
        cases hi with
        | letter hc => exact absurd List.mem_cons_self (hletters _)
        | _ => rfl
      rw [glob_standard_eq hi hletter fun needed heq => hmark ⟨needed, heq⟩]
      exact collapse_append_congr_right i.glob htail

/-- The number of characters that are no wildcards tells letters from groups. -/
theorem optionalLetter_not_mem_of_collapse_eq {start : Text} (hitems : ∀ i ∈ items, i.IsSpelled)
    (h : collapseWildcards (start ++ items.flatMap glob) =
      collapseWildcards (start ++ items.flatMap (·.standard.glob))) (c : Char) :
    .optionalLetter c ∉ items := by
  have hcount := congrArg (List.countP (!isWildcard ·)) h
  change _ = List.countP (!isWildcard ·) (collapseWildcards (start ++ _)) at hcount
  rw [countP_collapse, countP_collapse, List.countP_append, List.countP_append,
    countP_flatMap_glob hitems] at hcount
  have hnone : items.countP isLetter = 0 := by omega
  exact fun hc => absurd rfl (List.countP_eq_zero.1 hnone _ hc)

/-- The mark of a repetition with no star behind it is left. -/
theorem isStar_of_collapse_eq {start : Text} (hstart : '?' ∉ start)
    (hitems : ∀ i ∈ items, i.IsSpelled)
    (h : collapseWildcards (start ++ items.flatMap glob) =
      collapseWildcards (start ++ items.flatMap (·.standard.glob)))
    {before after : List Item} {needed : Bool}
    (hsplit : items = before ++ .anyText needed true :: after) : ∃ i ∈ after.head?, i.IsStar := by
  by_contra hno
  have hafter : ∀ i ∈ after, i.IsSpelled := fun i hi => hitems i (by simp [hsplit, hi])
  have hwild : startsWild (after.flatMap glob) = false :=
    Bool.eq_false_iff.2 fun hwild => hno ((startsWild_flatMap_glob hafter).1 hwild)
  have hmark : start ++ items.flatMap glob =
      (start ++ before.flatMap glob ++ ['*']) ++ '?' :: after.flatMap glob := by
    rw [hsplit, List.flatMap_append, List.flatMap_cons]
    simp [glob, undotted, lazyMark]
  have hquery : '?' ∈ collapseWildcards (start ++ items.flatMap glob) := by
    rw [hmark]
    exact mem_collapse_append_cons _ hwild
  rw [h] at hquery
  rcases List.mem_append.1 (mem_of_mem_collapse hquery) with hscheme | hitem
  · exact hstart hscheme
  · obtain ⟨i, hi, hmem⟩ := List.mem_flatMap.1 hitem
    exact query_not_mem_glob_standard (hitems i hi) hmem

/-! ## The scheme is mentioned by all spellings or by none -/

theorem prefix_flatMap_standard {w : Text} (hw : ∀ c ∈ w, c.isAlphanum = true)
    (hitems : ∀ i ∈ items, i.IsSpelled) (h : w ++ ['.'] <+: items.flatMap text) :
    w <+: items.flatMap (·.standard.text) := by
  induction w generalizing items with
  | nil => exact List.nil_prefix
  | cons x w ih =>
    obtain ⟨hx, hw⟩ := List.forall_mem_cons.1 hw
    cases items with
    | nil => exact absurd (List.prefix_nil.1 h) (List.cons_ne_nil _ _)
    | cons i items =>
      obtain ⟨hi, hrest⟩ := List.forall_mem_cons.1 hitems
      rw [List.flatMap_cons] at h ⊢
      cases hi with
      | literal hc =>
        obtain ⟨rfl, htail⟩ := List.cons_prefix_cons.1 h
        exact List.cons_prefix_cons.2 ⟨rfl, ih hw hrest htail⟩
      | dot =>
        obtain rfl := (List.cons_prefix_cons.1 h).1
        exact absurd hx (by decide)
      | anyText needed isLazy =>
        obtain rfl := (List.cons_prefix_cons.1 h).1
        exact absurd hx (by decide)
      | optional hc =>
        obtain rfl := (List.cons_prefix_cons.1 h).1
        exact absurd hx (by decide)
      | letter hc =>
        -- The `?` behind the letter is neither the dot nor a character of the word.
        have htail := (List.cons_prefix_cons.1 h).2
        cases w with
        | nil => exact absurd (List.cons_prefix_cons.1 htail).1 (by decide)
        | cons y w =>
          obtain rfl := (List.cons_prefix_cons.1 htail).1
          exact absurd (hw _ List.mem_cons_self) (by decide)

theorem infix_flatMap_standard (hitems : ∀ i ∈ items, i.IsSpelled)
    (h : "http.".toList <:+: items.flatMap text) :
    "http".toList <:+: items.flatMap (·.standard.text) := by
  induction items with
  | nil => exact absurd (List.infix_nil.1 h) (by decide)
  | cons i items ih =>
    obtain ⟨hi, hrest⟩ := List.forall_mem_cons.1 hitems
    have hbehind : "http.".toList <:+: items.flatMap text →
        "http".toList <:+: (i :: items).flatMap (·.standard.text) := fun hin =>
      (ih hrest hin).trans (List.suffix_append _ _).isInfix
    have hfirst : ∀ {c : Char} {s : Text}, c ≠ 'h' → "http.".toList <:+: c :: s →
        "http.".toList <:+: s := fun hc hin =>
      (List.infix_cons_iff.1 hin).resolve_left fun hp => hc (List.cons_prefix_cons.1 hp).1.symm
    have hsecond : ∀ {c d : Char} {s : Text}, d ≠ 't' → "http.".toList <:+: c :: d :: s →
        "http.".toList <:+: d :: s := fun hd hin =>
      (List.infix_cons_iff.1 hin).resolve_left fun hp =>
        hd (List.cons_prefix_cons.1 (List.cons_prefix_cons.1 hp).2).1.symm
    rw [List.flatMap_cons] at h
    cases hi with
    | literal hc =>
      rcases List.infix_cons_iff.1 h with hp | hin
      · exact (prefix_flatMap_standard (by decide) hitems hp).isInfix
      · exact hbehind hin
    | dot => exact hbehind (hfirst (by decide) (hfirst (by decide) h))
    | anyText needed isLazy =>
      rw [text_anyText] at h
      have hmark := hfirst (by cases needed <;> decide) (hfirst (by decide) h)
      cases isLazy with
      | false => exact hbehind hmark
      | true => exact hbehind (hfirst (by decide) hmark)
    | optional hc =>
      rw [text_optional_letter hc] at h
      have hclose := hsecond (by decide) (hfirst (by decide) h)
      exact hbehind (hfirst (by decide) (hfirst (by decide) hclose))
    | letter hc => exact hbehind (hfirst (by decide) (hsecond (by decide) h))

theorem isSpelled_standard {i : Item} (hi : i.IsSpelled) : i.standard.IsSpelled := by
  cases hi with
  | anyText needed isLazy => exact .anyText needed false
  | letter hc => exact .optional hc
  | literal hc => exact .literal hc
  | dot => exact .dot
  | optional hc => exact .optional hc

end Item

namespace Expression

variable {e : Expression}

/-- The spelling with greedy repetitions and with letters in groups. -/
def standard (e : Expression) : Expression := { e with items := e.items.map Item.standard }

theorem flatMap_standard (f : Item → Text) :
    e.standard.items.flatMap f = e.items.flatMap (fun i => f i.standard) :=
  List.flatMap_map Item.standard f e.items

theorem matches_standard_iff {isWordChar : Char → Prop} {s : Text} :
    e.standard.Matches isWordChar s ↔ e.Matches isWordChar s := by
  have hitems : ∀ (items : List Item) (u : Text),
      ItemsMatch isWordChar (items.map Item.standard) u ↔ ItemsMatch isWordChar items u := by
    intro items
    induction items with
    | nil => exact fun u => Iff.rfl
    | cons i items ih =>
      intro u
      rw [List.map_cons, Item.itemsMatch_cons_iff, Item.itemsMatch_cons_iff]
      simp only [Item.matches_standard_iff, ih]
  show (∃ start ∈ e.scheme.matching, ∃ rest, s = start ++ rest ∧
    ItemsMatch isWordChar (e.items.map Item.standard) rest) ↔ _
  simp only [hitems]
  rfl

/-- Spellings match the same texts.  Their globs agree, or are refused, exactly when no letter
has its `?` directly behind it and every lazy repetition stands in front of a star. -/
theorem globs_eq_globs_standard_iff (he : ∀ i ∈ e.items, i.IsSpelled)
    (hhttp : ¬ "http".toList <:+: e.standard.body) :
    (∀ isWordChar s, e.Matches isWordChar s ↔ e.standard.Matches isWordChar s) ∧
    ((globs e.text = globs e.standard.text ∨ globs e.text = []) ↔
      (∀ c, .optionalLetter c ∉ e.items) ∧
      ∀ before needed after, e.items = before ++ .anyText needed true :: after →
        ∃ i ∈ after.head?, i.IsStar) := by
  refine ⟨fun isWordChar s => matches_standard_iff.symm, ?_⟩
  have he' : ∀ i ∈ e.standard.items, i.IsSpelled := by
    intro i hi
    obtain ⟨j, hj, rfl⟩ := List.mem_map.1 hi
    exact Item.isSpelled_standard (he j hj)
  have hdot : ¬ "http.".toList <:+: e.body := by
    rw [body, flatMap_standard] at hhttp
    exact fun h => hhttp (Item.infix_flatMap_standard he h)
  have hdot' : ¬ "http.".toList <:+: e.standard.body := fun h =>
    hhttp (List.IsInfix.trans ⟨[], ['.'], rfl⟩ h)
  rw [globs_spelled he hdot, globs_spelled he' hdot', flatMap_standard,
    or_iff_left (List.cons_ne_nil _ _), List.singleton_inj]
  constructor
  · intro heq
    refine ⟨Item.optionalLetter_not_mem_of_collapse_eq he heq, fun before needed after hitems => ?_⟩
    exact Item.isStar_of_collapse_eq (e.scheme.not_mem_folded '?' (by decide)) he heq hitems
  · rintro ⟨hletters, hlazy⟩
    exact collapse_append_congr_right _ (Item.collapse_flatMap_glob he hletters hlazy)

/-- Lazy repetitions in front of a group and of a greedy repetition. -/
theorem globs_eq_globs_standard_iff_absorbed :
    let e : Expression := ⟨true, .https, [.literal 'a', .anyText false true, .optional [['s']],
      .escaped '.', .anyText true true, .anyText false false, .literal '-'], true⟩
    e.text = "^https://a.*?(s)?\\..+?.*-$".toList ∧
      e.standard.text = "^https://a.*(s)?\\..+.*-$".toList ∧
      (∀ i ∈ e.items, i.IsSpelled) ∧ ¬ "http".toList <:+: e.standard.body ∧
      globs e.text = globs e.standard.text ∧
      (∀ isWordChar s, e.Matches isWordChar s ↔ e.standard.Matches isWordChar s) ∧
      (∀ c, .optionalLetter c ∉ e.items) ∧
      ∀ before needed after, e.items = before ++ .anyText needed true :: after →
        ∃ i ∈ after.head?, i.IsStar := by
  intro e
  have he : ∀ i ∈ e.items, i.IsSpelled := by
    simp only [e, List.forall_mem_cons]
    exact ⟨.literal (by decide), .anyText _ _, .optional (by decide), .dot, .anyText _ _,
      .anyText _ _, .literal (by decide), fun _ h => absurd h List.not_mem_nil⟩
  have hhttp : ¬ "http".toList <:+: e.standard.body := by decide
  have hglobs : globs e.text = globs e.standard.text := by decide
  obtain ⟨hmatches, hiff⟩ := globs_eq_globs_standard_iff he hhttp
  exact ⟨by decide, by decide, he, hhttp, hglobs, hmatches, hiff.1 (Or.inl hglobs)⟩

/-- The mark of a lazy repetition matches one character as a glob, and so does the one behind
a letter. -/
theorem globs_ne_globs_standard :
    let e : Expression := ⟨false, .https, [.literal 'a', .literal '/', .anyText false true], false⟩
    let e' : Expression := ⟨false, .https, [.literal 'a', .optionalLetter 'b', .literal 'c'], false⟩
    (e.text = "https://a/.*?".toList ∧ e.standard.text = "https://a/.*".toList ∧
      globs e.standard.text = ["https://a/*".toList] ∧ globs e.text = ["https://a/?".toList] ∧
      ¬ (globs e.text = globs e.standard.text ∨ globs e.text = [])) ∧
    (e'.text = "https://ab?c".toList ∧ e'.standard.text = "https://a(b)?c".toList ∧
      globs e'.standard.text = ["https://a*c".toList] ∧ globs e'.text = ["https://ab?c".toList] ∧
      ¬ (globs e'.text = globs e'.standard.text ∨ globs e'.text = [])) := by
  decide

end Expression
end Regexp
end StyleScope
