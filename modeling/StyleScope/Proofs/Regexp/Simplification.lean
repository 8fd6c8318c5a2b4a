import StyleScope.Proofs.Regexp.SchemeFolding

/-!
# Simplified expressions

All steps one after the other, on an expression that is written with simple items.  The
result is the folded scheme and the settled items, with adjacent wildcards collapsed.
-/

namespace StyleScope
namespace Regexp

open Text

/-- A step in front of items, with a text before them that it passes over. -/
theorem Step.apply_append_flatMap {step : Step} (hlocal : step.isLocal = true) {start : Text}
    (hstart : ∀ x ∈ step.openers, x ∉ start) {items : List Item} {before after : Item → Text}
    {P : Text → Prop} (hitem : ∀ i ∈ items, Turns P step.apply (before i) (after i))
    (hP : ∀ i ∈ items, ∀ rest, P rest → P (before i ++ rest)) (hnil : P []) :
    step.apply (start ++ items.flatMap before) = start ++ items.flatMap after := by
  have hempty : step.apply [] = [] := by
    cases step <;> rfl
  have hself : Turns Anything step.apply start start := Step.turns_self hlocal hstart
  rw [hself _ trivial, (Turns.flatMap hitem hP).apply hnil hempty]

section
variable {step : Step} {start : Text} {items : List Item} {before after : Item → Text}

/-- The same for a step to which it makes no difference what follows. -/
theorem Step.apply_append_flatMap_of_anything (hlocal : step.isLocal = true)
    (hstart : ∀ x ∈ step.openers, x ∉ start)
    (hitem : ∀ i ∈ items, Turns Anything step.apply (before i) (after i)) :
    step.apply (start ++ items.flatMap before) = start ++ items.flatMap after :=
  Step.apply_append_flatMap hlocal hstart hitem (fun _ _ _ _ => trivial) trivial

/-- The same for a step to which a question mark makes a difference, which no item starts
with. -/
theorem Step.apply_append_flatMap_of_noQuery (hlocal : step.isLocal = true)
    (hstart : ∀ x ∈ step.openers, x ∉ start)
    (hitem : ∀ i ∈ items, Turns Item.NoQuery step.apply (before i) (after i))
    (hquery : ∀ i ∈ items, Item.NoQuery (before i)) :
    step.apply (start ++ items.flatMap before) = start ++ items.flatMap after :=
  Step.apply_append_flatMap hlocal hstart hitem
    (fun i hi _ hrest => Item.noQuery_append (hquery i hi) hrest) (by simp [Item.NoQuery])

theorem Step.apply_plus_append_flatMap (hstart : '+' ∉ start)
    (hitem : ∀ i ∈ items, (before i).map (fun c => if c = '+' then '*' else c) = after i) :
    Step.apply .plus (start ++ items.flatMap before) = start ++ items.flatMap after := by
  show replaceAll ['+'] ['*'] _ = _
  rw [replaceAll_char, List.map_append, Item.map_plus_eq_self hstart, List.map_flatMap,
    List.flatMap_def, List.flatMap_def]
  congr 2
  exact List.map_congr_left hitem

end

/-! ## The steps before and behind the scheme -/

def frontSteps : List Step := [.anchors, .assertions, .nonCapturing, .plainGroups]

def middleSteps : List Step := [.counts, .optionalGroups, .repeatedClasses, .plus]

def lastSteps : List Step :=
  [.dots, .escapedSeparators, .escapedLiterals, .classEscapes, .wildcardRuns]

theorem simplify_eq (s : Text) :
    simplify s = lastSteps.foldl (fun t step => step.apply t)
      (middleSteps.foldl (fun t step => step.apply t)
        (foldScheme (frontSteps.foldl (fun t step => step.apply t) s))) := by
  have hall : Step.all = frontSteps ++ ([.scheme] ++ (middleSteps ++ lastSteps)) := rfl
  rw [simplify, hall, List.foldl_append, List.foldl_append, List.foldl_append]
  rfl

/-! ## Anchors -/

theorem dropDollar_append (s : Text) : dropDollar (s ++ ['$']) = s := by
  have hlast : (s ++ ['$']).getLast? = some '$' := List.getLast?_concat
  rw [dropDollar, if_pos hlast, List.dropLast_concat]

theorem dropDollar_eq_self {s : Text} (h : '$' ∉ s) : dropDollar s = s :=
  if_neg fun hlast => h (List.mem_of_getLast? hlast)

namespace Expression

variable {e : Expression}

theorem dollar_not_mem_body (hitems : ∀ i ∈ e.items, i.IsSimple) : '$' ∉ e.body := by
  intro hmem
  obtain ⟨i, hi, hmem⟩ := List.mem_flatMap.1 hmem
  have hmark : '$' ∉ i.marks := by cases i <;> simp [Item.marks]
  exact Item.not_mem_text (hitems i hi) (by decide) hmark hmem

theorem stripAnchors_text_of_not_mem (hbody : '$' ∉ e.body) :
    stripAnchors e.text = e.scheme.text ++ e.body := by
  have hcaret : ∀ s : Text, dropCaret ((if e.atStart then ['^'] else []) ++ (e.scheme.text ++ s)) =
      e.scheme.text ++ s := by
    intro s
    cases e.atStart
    · cases e.scheme <;> rfl
    · rfl
  have hdollar : '$' ∉ e.scheme.text ++ e.body := by
    rw [List.mem_append, not_or]
    exact ⟨e.scheme.not_mem_text '$' (by decide), hbody⟩
  rw [stripAnchors, text, List.append_assoc, List.append_assoc, hcaret, ← List.append_assoc]
  cases e.atEnd
  · show dropDollar (e.scheme.text ++ e.body ++ []) = _
    rw [List.append_nil, dropDollar_eq_self hdollar]
  · exact dropDollar_append _

theorem stripAnchors_text (hitems : ∀ i ∈ e.items, i.IsSimple) :
    stripAnchors e.text = e.scheme.text ++ e.body :=
  stripAnchors_text_of_not_mem (dollar_not_mem_body hitems)

theorem collapse_classEscapes (start : Text) (hstart : '\\' ∉ start) {items : List Item}
    (hitems : ∀ i ∈ items, i.IsSimple) :
    collapseWildcards (Step.apply .classEscapes (start ++ items.flatMap Item.withoutEscapes)) =
      collapseWildcards (start ++ items.flatMap Item.settled) := by
  have hself : Turns Anything (Step.apply .classEscapes) start start :=
    Step.turns_self rfl (by simpa [Step.openers] using hstart)
  rw [hself _ trivial]
  refine collapse_append_congr_right start ?_
  clear hself hstart
  induction items with
  | nil => rfl
  | cons i items ih =>
    have hrest : ∀ j ∈ items, j.IsSimple := fun j hj => hitems j (List.mem_cons_of_mem i hj)
    have hplus : '+' ∉ items.flatMap Item.withoutEscapes := by
      intro hmem
      obtain ⟨j, hj, hmem⟩ := List.mem_flatMap.1 hmem
      exact Item.not_mem_plus_withoutEscapes (hrest j hj) hmem
    rw [List.flatMap_cons, Item.collapse_classEscapes_append (hitems i List.mem_cons_self) hplus,
      List.flatMap_cons]
    exact collapse_append_congr_right _ (ih hrest)

/-- The steps behind the scheme, up to the last two. -/
theorem apply_steps {start : Text} (hstart : ∀ c ∈ ['\x7b', '(', '[', '+', '.', '\\'], c ∉ start)
    {items : List Item} (hitems : ∀ i ∈ items, i.IsSimple) :
    [Step.counts, .optionalGroups, .repeatedClasses, .plus, .dots, .escapedSeparators,
        .escapedLiterals].foldl (fun t step => step.apply t)
      (start ++ items.flatMap Item.unwrapped) = start ++ items.flatMap Item.withoutEscapes := by
  have hpass : ∀ {step : Step}, (∀ x ∈ step.openers, x ∈ ['\x7b', '(', '[', '+', '.', '\\']) →
      ∀ x ∈ step.openers, x ∉ start := fun h x hx => hstart x (h x hx)
  simp only [List.foldl_cons, List.foldl_nil]
  rw [Step.apply_append_flatMap_of_anything rfl (hpass (by decide))
      (fun i hi => Item.turns_counts (hitems i hi)),
    Step.apply_append_flatMap_of_noQuery rfl (hpass (by decide))
      (fun i hi => Item.turns_optionalGroups (hitems i hi))
      (fun i hi => Item.noQuery_unwrapped (hitems i hi)),
    Step.apply_append_flatMap_of_anything rfl (hpass (by decide))
      (fun i hi => Item.turns_repeatedClasses (hitems i hi)),
    Step.apply_plus_append_flatMap (hstart '+' (by decide))
      (fun i hi => Item.map_plus_withoutClass (hitems i hi)),
    Step.apply_append_flatMap_of_anything rfl (hpass (by decide))
      (fun i hi => Item.turns_dots (hitems i hi)),
    Step.apply_append_flatMap_of_anything rfl (hpass (by decide))
      (fun i hi => Item.turns_escapedSeparators (hitems i hi)),
    Step.apply_append_flatMap_of_anything rfl (hpass (by decide))
      (fun i hi => Item.turns_escapedLiterals (hitems i hi))]

/-- What the steps make of an expression. -/
theorem simplify_text (hitems : ∀ i ∈ e.items, i.IsSimple) (hhttp : ¬ "http".toList <:+: e.body) :
    simplify e.text = collapseWildcards (e.scheme.folded ++ e.items.flatMap Item.settled) := by
  have hopen : ∀ x ∈ ['('], x ∉ e.scheme.text :=
    List.forall_mem_singleton.2 (e.scheme.not_mem_text '(' (by decide))
  have hfolded : ∀ c ∈ ['\x7b', '(', '[', '+', '.', '\\'], c ∉ e.scheme.folded :=
    fun c hc => e.scheme.not_mem_folded c (List.mem_append_left ['?'] hc)
  have hassertions : Step.apply .assertions (e.scheme.text ++ e.items.flatMap Item.text) =
      e.scheme.text ++ e.items.flatMap Item.text :=
    Step.apply_append_flatMap_of_anything rfl hopen
      (fun i hi => Item.turns_assertions (hitems i hi))
  have hopened : Step.apply .nonCapturing (e.scheme.text ++ e.items.flatMap Item.text) =
      e.scheme.text ++ e.items.flatMap Item.opened :=
    Step.apply_append_flatMap_of_anything rfl hopen
      (fun i hi => Item.turns_nonCapturing (hitems i hi))
  have hunwrapped : Step.apply .plainGroups (e.scheme.text ++ e.items.flatMap Item.opened) =
      e.scheme.text ++ e.items.flatMap Item.unwrapped :=
    Step.apply_append_flatMap_of_noQuery rfl hopen
      (fun i hi => Item.turns_plainGroups (hitems i hi))
      (fun i hi => Item.noQuery_opened (hitems i hi))
  obtain ⟨items', hsimple, hscheme, hcollapse⟩ := foldScheme_append e.scheme hitems hhttp
  have hrest := apply_steps hfolded hsimple
  have hstages : simplify e.text = collapseWildcards (Step.apply .classEscapes
      ([Step.counts, .optionalGroups, .repeatedClasses, .plus, .dots, .escapedSeparators,
        .escapedLiterals].foldl (fun t step => step.apply t) (foldScheme
          (Step.apply .plainGroups (Step.apply .nonCapturing (Step.apply .assertions
            (stripAnchors e.text))))))) := by
    rw [simplify, Step.all]
    simp only [List.foldl_cons, List.foldl_nil]
    rfl
  rw [hstages, stripAnchors_text hitems, body, hassertions, hopened, hunwrapped, hscheme, hrest,
    collapse_classEscapes _ (hfolded '\\' (by decide)) hsimple]
  exact collapse_append_congr_right _ hcollapse

end Expression
end Regexp
end StyleScope
