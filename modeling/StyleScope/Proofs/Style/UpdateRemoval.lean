import Mathlib.Data.List.Infix
import StyleScope.Proofs.Style.UpdateLines
import StyleScope.Proofs.Text.Search

/-!
# Which lines are removed

A line that is made up of a keyword, a blank and a value is removed together with the
empty lines behind it: `withoutUpdates` says so of lines, without looking into them twice.
The text is scanned by characters instead.  The scan takes all of these lines away, and
it takes away more where a keyword stands behind something else on its line, which then
runs into the next line, and where a keyword ends its line, so that its blank is the line
break and the next line its value.  `stripUpdateLines_intercalate` says that otherwise
(`KeepToLines`) the two agree.
-/

namespace StyleScope
namespace Document

open Text

variable {s t line next rest out value behind : Text} {lines more : List Text}

/-! ## One directive -/

def TakesValue (s value behind : Text) : Prop :=
  value ≠ [] ∧ '\n' ∉ value ∧ s = value ++ '\n' :: behind

/-- A directive reaches from its keyword to the line breaks behind its value. -/
theorem updateLine?_eq_some (hreturn : '\r' ∉ s) :
    updateLine? s = some (out, rest) ↔
      ∃ keyword blank u value behind, IsUpdateKeyword keyword ∧ isBlank blank = true ∧
        s = keyword ++ blank :: u ∧ TakesValue u value behind ∧
        out = [] ∧ rest = behind.dropWhile isLineEnd := by
  constructor
  · intro h
    rw [updateLine?, Option.bind_eq_bind, Option.bind_eq_some_iff] at h
    obtain ⟨after, hafter, h⟩ := h
    obtain ⟨keyword, hkeyword, rfl⟩ := afterUpdateKeyword?_eq_some.1 hafter
    split at h
    · next blank c tail =>
      split at h
      · exact absurd h (by simp)
      · next hcond =>
        rw [Bool.or_eq_true, not_or, Bool.not_eq_true, Bool.not_eq_false', beq_iff_eq] at hcond
        have htail : '\n' ∈ tail := by
          refine Decidable.byContradiction fun hno => ?_
          -- Without a line feed the value would have to end in a carriage return.
          have hr : '\r' ∉ tail := fun hmem => hreturn (by simp [hmem])
          rw [dropWhile_ne_of_not_mem hno] at h
          simp [afterLastReturn?, hr] at h
        obtain ⟨value, behind, rfl, hvalue⟩ := exists_first_of_mem htail
        rw [dropWhile_ne_append_cons hvalue] at h
        obtain ⟨hout, hrest⟩ := Prod.mk.inj (Option.some.inj h)
        refine ⟨keyword, blank, _, c :: value, behind, hkeyword, hcond.1, rfl,
          ⟨List.cons_ne_nil c value, ?_, rfl⟩, hout.symm, ?_⟩
        · rw [List.mem_cons, not_or]
          exact ⟨Ne.symm hcond.2, hvalue⟩
        · rw [← hrest]
          exact List.dropWhile_cons_of_pos (by decide)
    · exact absurd h (by simp)
  · rintro ⟨keyword, blank, u, value, behind, hkeyword, hblank, rfl, ⟨hne, hvalue, rfl⟩, rfl, rfl⟩
    obtain ⟨c, value, rfl⟩ := List.exists_cons_of_ne_nil hne
    rw [List.mem_cons, not_or] at hvalue
    have hafter := afterUpdateKeyword?_eq_some.2
      ⟨keyword, hkeyword, Eq.refl (keyword ++ blank :: c :: (value ++ '\n' :: behind))⟩
    have hc : c ≠ '\n' := Ne.symm hvalue.1
    have hend : ('\n' :: behind).dropWhile isLineEnd = behind.dropWhile isLineEnd :=
      List.dropWhile_cons_of_pos (by decide)
    rw [List.cons_append, updateLine?, hafter]
    simp [hblank, hc, dropWhile_ne_append_cons hvalue.2, hend]

/-- The scan goes on behind the first directive. -/
theorem stripUpdateLines_append_of_first (hreturn : '\r' ∉ t) (hpass : PassesOver updateLine? s t)
    (h : updateLine? t = some (out, rest)) :
    stripUpdateLines (s ++ t) = s ++ stripUpdateLines rest := by
  obtain ⟨keyword, blank, u, value, behind, hkeyword, -, rfl, ⟨-, -, rfl⟩, rfl, rfl⟩ :=
    (updateLine?_eq_some hreturn).1 h
  obtain ⟨c, keyword, rfl⟩ := List.exists_cons_of_ne_nil hkeyword.ne_nil
  have hseen : c :: keyword ++ blank :: (value ++ '\n' :: behind) =
      c :: (keyword ++ blank :: (value ++ '\n' :: behind.takeWhile isLineEnd) ++
        behind.dropWhile isLineEnd) := by simp
  rw [hseen] at hpass h ⊢
  exact substituteAll_append_of_first hpass h

/-! ## Where a keyword stands on a line -/

/-- A line that gives an address for updates. -/
def IsUpdateLine (line : Text) : Prop :=
  ∃ keyword blank value, IsUpdateKeyword keyword ∧ isBlank blank = true ∧ value ≠ [] ∧
    line = keyword ++ blank :: value

theorem IsUpdateLine.ne_nil (h : IsUpdateLine t) : t ≠ [] := by
  obtain ⟨keyword, blank, value, -, -, -, rfl⟩ := h
  exact List.append_ne_nil_of_right_ne_nil keyword (List.cons_ne_nil blank value)

theorem IsUpdateLine.namesUpdate (h : IsUpdateLine t) : NamesUpdate t := by
  obtain ⟨keyword, blank, value, hkeyword, -, -, rfl⟩ := h
  exact hkeyword.namesUpdate_append

/-- A line starts with at most one keyword, so that the parts of an update line can be read
off it. -/
theorem isUpdateLine_iff :
    IsUpdateLine t ↔
      ∃ after ∈ afterUpdateKeyword? t, after.head?.any isBlank = true ∧ after.tail ≠ [] := by
  constructor
  · rintro ⟨keyword, blank, value, hkeyword, hblank, hvalue, rfl⟩
    exact ⟨blank :: value, afterUpdateKeyword?_eq_some.2 ⟨keyword, hkeyword, rfl⟩, hblank, hvalue⟩
  · rintro ⟨after, hafter, hhead, hvalue⟩
    obtain ⟨keyword, hkeyword, rfl⟩ := afterUpdateKeyword?_eq_some.1 hafter
    cases after with
    | nil => exact absurd hhead (by simp)
    | cons blank value => exact ⟨keyword, blank, value, hkeyword, hhead, hvalue, rfl⟩

instance (line : Text) : Decidable (IsUpdateLine line) := decidable_of_iff _ isUpdateLine_iff.symm

/-! ## Lines -/

def IsLine (line : Text) : Prop := '\r' ∉ line ∧ '\n' ∉ line

/-- Without the empty lines in front; the last line stays in any case. -/
def dropEmptyLines : List Text → List Text
  | [] :: next :: more => dropEmptyLines (next :: more)
  | lines => lines

theorem length_dropEmptyLines_le (lines : List Text) :
    (dropEmptyLines lines).length ≤ lines.length := by
  fun_induction dropEmptyLines lines with
  | case1 next more ih => exact Nat.le_succ_of_le ih
  | case2 lines h => exact Nat.le_refl _

theorem dropEmptyLines_subset (lines : List Text) : dropEmptyLines lines ⊆ lines := by
  fun_induction dropEmptyLines lines with
  | case1 next more ih => exact List.Subset.trans ih (List.subset_cons_self _ _)
  | case2 lines h => exact List.Subset.refl _

/-- Skipping the line breaks at the start of a text skips its empty lines. -/
theorem dropWhile_isLineEnd_intercalate (h : ∀ l ∈ lines, IsLine l) :
    (List.intercalate ['\n'] lines).dropWhile isLineEnd =
      List.intercalate ['\n'] (dropEmptyLines lines) := by
  fun_induction dropEmptyLines lines with
  | case1 next more ih =>
    rw [intercalate_cons_cons, List.nil_append, List.dropWhile_cons_of_pos (by decide)]
    exact ih fun line hline => h line (List.mem_cons_of_mem _ hline)
  | case2 lines hne =>
    match lines with
    | [] => rfl
    | [[]] => rfl
    | (c :: line) :: more =>
      have hc : ¬ isLineEnd c = true := by
        have hline := h _ List.mem_cons_self
        rw [IsLine, List.mem_cons, List.mem_cons, not_or, not_or] at hline
        simp [isLineEnd, Ne.symm hline.1.1, Ne.symm hline.2.1]
      rw [List.intercalate_cons_cons_left, List.dropWhile_cons_of_neg hc]
    | [] :: next :: more => exact absurd rfl (hne next more)

/-- The value behind a keyword at the end of a line is the next line. -/
theorem takesValue_intercalate_iff (h : ∀ l ∈ next :: more, IsLine l) :
    TakesValue (List.intercalate ['\n'] (next :: more)) value behind ↔
      next ≠ [] ∧ more ≠ [] ∧ value = next ∧ behind = List.intercalate ['\n'] more := by
  have hnext : '\n' ∉ next := (h next List.mem_cons_self).2
  constructor
  · rintro ⟨hne, hvalue, heq⟩
    cases more with
    | nil =>
      rw [List.intercalate_singleton] at heq
      exact absurd (by simp [heq]) hnext
    | cons line more =>
      rw [intercalate_cons_cons] at heq
      obtain ⟨rfl, rfl⟩ := append_cons_inj hnext hvalue heq
      exact ⟨hne, List.cons_ne_nil line more, rfl, rfl⟩
  · rintro ⟨hne, hmore, rfl, rfl⟩
    obtain ⟨line, more, rfl⟩ := List.exists_cons_of_ne_nil hmore
    exact ⟨hne, hnext, intercalate_cons_cons '\n' value line more⟩

theorem return_not_mem_intercalate (h : ∀ l ∈ lines, IsLine l) :
    '\r' ∉ List.intercalate ['\n'] lines := by
  intro hmem
  obtain hr | ⟨line, hline, hr⟩ := mem_intercalate hmem
  · exact absurd hr (by decide)
  · exact (h line hline).1 hr

/-- A directive at the start of a line has its value on the line or, when nothing stands
behind the keyword, on the next one. -/
theorem updateLine?_intercalate (h : ∀ l ∈ line :: next :: more, IsLine l) :
    updateLine? (List.intercalate ['\n'] (line :: next :: more)) = some (out, rest) ↔
      out = [] ∧ (IsUpdateLine line ∧
          rest = List.intercalate ['\n'] (dropEmptyLines (next :: more)) ∨
        IsUpdateKeyword line ∧ next ≠ [] ∧ more ≠ [] ∧
          rest = List.intercalate ['\n'] (dropEmptyLines more)) := by
  have hline : '\n' ∉ line := (h line List.mem_cons_self).2
  have hnext : ∀ l ∈ next :: more, IsLine l := fun l hl => h l (List.mem_cons_of_mem _ hl)
  have hmore : ∀ l ∈ more, IsLine l := fun l hl => hnext l (List.mem_cons_of_mem _ hl)
  rw [updateLine?_eq_some (return_not_mem_intercalate h), ← dropWhile_isLineEnd_intercalate hnext,
    ← dropWhile_isLineEnd_intercalate hmore, intercalate_cons_cons]
  constructor
  · rintro ⟨keyword, blank, u, value, behind, hkeyword, hblank, heq, hvalue, hout, hrest⟩
    refine ⟨hout, ?_⟩
    by_cases hb : blank = '\n'
    · subst hb
      obtain ⟨rfl, rfl⟩ := append_cons_inj hline hkeyword.newline_not_mem heq
      obtain ⟨hne, hmore, rfl, rfl⟩ := (takesValue_intercalate_iff hnext).1 hvalue
      exact Or.inr ⟨hkeyword, hne, hmore, hrest⟩
    · obtain ⟨hne, hvalue, rfl⟩ := hvalue
      have hwhole : '\n' ∉ keyword ++ blank :: value := by
        rw [List.mem_append, List.mem_cons, not_or, not_or]
        exact ⟨hkeyword.newline_not_mem, Ne.symm hb, hvalue⟩
      rw [← List.cons_append, ← List.append_assoc] at heq
      obtain ⟨rfl, rfl⟩ := append_cons_inj hline hwhole heq
      exact Or.inl ⟨⟨keyword, blank, value, hkeyword, hblank, hne, rfl⟩, hrest⟩
  · rintro ⟨hout, ⟨⟨keyword, blank, value, hkeyword, hblank, hne, rfl⟩, hrest⟩ |
      ⟨hkeyword, hne, hmore, hrest⟩⟩
    · have hvalue : '\n' ∉ value := fun hmem =>
        hline (List.mem_append_right keyword (List.mem_cons_of_mem blank hmem))
      refine ⟨keyword, blank, _, value, _, hkeyword, hblank, ?_, ⟨hne, hvalue, rfl⟩, hout, hrest⟩
      rw [List.append_assoc, List.cons_append]
    · exact ⟨line, '\n', _, next, _, hkeyword, by decide, rfl,
        (takesValue_intercalate_iff hnext).2 ⟨hne, hmore, rfl, rfl⟩, hout, hrest⟩

/-! ## One line -/

/-- The scan passes over the line: no directive starts on it, and a keyword at its end has
an empty line behind it or the last one. -/
def KeepsLine (line next : Text) (more : List Text) : Prop :=
  ∀ t ∈ line.tails, ¬ IsUpdateLine t ∧ (IsUpdateKeyword t → next = [] ∨ more = [])

instance (line next : Text) (more : List Text) : Decidable (KeepsLine line next more) :=
  inferInstanceAs (Decidable (∀ t ∈ line.tails, _))

theorem keepsLine_nil (next : Text) (more : List Text) : KeepsLine [] next more := by
  intro t ht
  obtain rfl : t = [] := by simpa using ht
  exact ⟨fun hupdate => hupdate.ne_nil rfl, fun hkeyword => absurd rfl hkeyword.ne_nil⟩

theorem IsLine.of_suffix (h : IsLine line) (hsuffix : t <:+ line) : IsLine t :=
  ⟨fun hmem => h.1 (hsuffix.mem hmem), fun hmem => h.2 (hsuffix.mem hmem)⟩

theorem updateLine?_intercalate_eq_none_iff (h : ∀ l ∈ line :: next :: more, IsLine l) :
    updateLine? (List.intercalate ['\n'] (line :: next :: more)) = none ↔
      ¬ IsUpdateLine line ∧ (IsUpdateKeyword line → next = [] ∨ more = []) := by
  rw [Option.eq_none_iff_forall_ne_some]
  constructor
  · intro hnone
    refine ⟨fun hupdate => hnone _ ((updateLine?_intercalate h).2 ⟨rfl, Or.inl ⟨hupdate, rfl⟩⟩),
      fun hkeyword => Decidable.byContradiction fun hno => ?_⟩
    rw [not_or] at hno
    exact hnone _ ((updateLine?_intercalate h).2 ⟨rfl, Or.inr ⟨hkeyword, hno.1, hno.2, rfl⟩⟩)
  · rintro ⟨hno, hend⟩ ⟨out, rest⟩ hsome
    obtain ⟨-, ⟨hupdate, -⟩ | ⟨hkeyword, hne, hmore, -⟩⟩ := (updateLine?_intercalate h).1 hsome
    · exact hno hupdate
    · exact (hend hkeyword).elim hne hmore

/-- A line is kept exactly when nothing is recognised on it. -/
theorem keepsLine_iff_passesOver (h : ∀ l ∈ line :: next :: more, IsLine l) :
    KeepsLine line next more ↔
      PassesOver updateLine? line ('\n' :: List.intercalate ['\n'] (next :: more)) := by
  have hpart : ∀ t, t <:+ line → ∀ l ∈ t :: next :: more, IsLine l := fun t ht =>
    List.forall_mem_cons.2
      ⟨(h line List.mem_cons_self).of_suffix ht, fun l hl => h l (List.mem_cons_of_mem _ hl)⟩
  rw [passesOver_iff]
  constructor
  · rintro hkeeps x c y rfl
    rw [← intercalate_cons_cons,
      updateLine?_intercalate_eq_none_iff (hpart _ (List.suffix_append x (c :: y)))]
    exact hkeeps _ ((List.mem_tails _ _).2 (List.suffix_append x (c :: y)))
  · intro hpass t ht
    rw [List.mem_tails] at ht
    obtain ⟨x, rfl⟩ := ht
    cases t with
    | nil => exact keepsLine_nil next more [] (by simp)
    | cons c y =>
      rw [← updateLine?_intercalate_eq_none_iff (hpart _ (List.suffix_append x (c :: y))),
        intercalate_cons_cons]
      exact hpass x c y rfl

theorem stripUpdateLines_of_keepsLine (h : ∀ l ∈ line :: next :: more, IsLine l)
    (hkeeps : KeepsLine line next more) :
    stripUpdateLines (List.intercalate ['\n'] (line :: next :: more)) =
      line ++ '\n' :: stripUpdateLines (List.intercalate ['\n'] (next :: more)) := by
  have hbreak : updateLine? ('\n' :: List.intercalate ['\n'] (next :: more)) = none := by
    have hempty : ∀ l ∈ [] :: next :: more, IsLine l :=
      List.forall_mem_cons.2 ⟨by simp [IsLine], fun l hl => h l (List.mem_cons_of_mem _ hl)⟩
    exact (updateLine?_intercalate_eq_none_iff hempty).2 (hkeeps [] (by simp))
  rw [intercalate_cons_cons, stripUpdateLines,
    substituteAll_append_of_passesOver ((keepsLine_iff_passesOver h).1 hkeeps),
    substituteAll_of_none hbreak]

theorem stripUpdateLines_of_isUpdateLine (h : ∀ l ∈ line :: next :: more, IsLine l)
    (hupdate : IsUpdateLine line) :
    stripUpdateLines (List.intercalate ['\n'] (line :: next :: more)) =
      stripUpdateLines (List.intercalate ['\n'] (dropEmptyLines (next :: more))) :=
  stripUpdateLines_append_of_first (s := []) (return_not_mem_intercalate h) trivial
    ((updateLine?_intercalate h).2 ⟨rfl, Or.inl ⟨hupdate, rfl⟩⟩)

/-- What the scan makes of a line that it neither keeps nor removes as a whole: the start of
the line goes on with what is left of the next lines, or of those behind the next one. -/
theorem exists_stripUpdateLines_eq (h : ∀ l ∈ line :: next :: more, IsLine l)
    (hkeeps : ¬ KeepsLine line next more) :
    ∃ p t lines, line = p ++ t ∧ lines ≠ [] ∧ lines <:+ next :: more ∧
      stripUpdateLines (List.intercalate ['\n'] (line :: next :: more)) =
        p ++ stripUpdateLines (List.intercalate ['\n'] (dropEmptyLines lines)) := by
  obtain hpass | ⟨p, t, ⟨out, rest⟩, rfl, hne, hpass, hsome⟩ :=
    passesOver_or_exists_first updateLine? line
      ('\n' :: List.intercalate ['\n'] (next :: more))
  · exact absurd ((keepsLine_iff_passesOver h).2 hpass) hkeeps
  · have hpart : ∀ l ∈ t :: next :: more, IsLine l := List.forall_mem_cons.2
      ⟨(h _ List.mem_cons_self).of_suffix (List.suffix_append p t),
        fun l hl => h l (List.mem_cons_of_mem _ hl)⟩
    rw [← intercalate_cons_cons] at hpass hsome
    have hstrip := stripUpdateLines_append_of_first (return_not_mem_intercalate hpart) hpass hsome
    rw [intercalate_cons_cons, ← List.append_assoc, ← intercalate_cons_cons] at hstrip
    obtain ⟨-, ⟨-, rfl⟩ | ⟨-, -, hmore, rfl⟩⟩ := (updateLine?_intercalate hpart).1 hsome
    · exact ⟨p, t, next :: more, rfl, List.cons_ne_nil next more, List.suffix_rfl, hstrip⟩
    · exact ⟨p, t, more, rfl, hmore, List.suffix_cons next more, hstrip⟩

/-! ## All lines -/

/-- Without the lines that give addresses for updates, and without the empty lines behind
them, where `skips` is set.  The last line stays, as no line break ends it. -/
def withoutUpdates : Bool → List Text → List Text
  | _, [] => []
  | _, [last] => [last]
  | skips, line :: next :: more =>
    if IsUpdateLine line ∨ skips = true ∧ line = [] then withoutUpdates true (next :: more)
    else line :: withoutUpdates false (next :: more)

/-- Every line is removed as a whole or kept. -/
def KeepToLines : List Text → Prop
  | line :: next :: more =>
    (IsUpdateLine line ∨ KeepsLine line next more) ∧ KeepToLines (next :: more)
  | _ => True

instance decidableKeepToLines : (lines : List Text) → Decidable (KeepToLines lines)
  | [] => inferInstanceAs (Decidable True)
  | [_] => inferInstanceAs (Decidable True)
  | line :: next :: more =>
    have := decidableKeepToLines (next :: more)
    inferInstanceAs (Decidable ((IsUpdateLine line ∨ KeepsLine line next more) ∧ _))

theorem withoutUpdates_ne_nil (skips : Bool) (h : lines ≠ []) :
    withoutUpdates skips lines ≠ [] := by
  fun_induction withoutUpdates skips lines with
  | case1 => exact absurd rfl h
  | case2 skips last => exact List.cons_ne_nil last []
  | case3 skips line next more hline ih => exact ih (List.cons_ne_nil next more)
  | case4 skips line next more hline ih => exact List.cons_ne_nil line _

theorem withoutUpdates_true (lines : List Text) :
    withoutUpdates true lines = withoutUpdates false (dropEmptyLines lines) := by
  fun_induction dropEmptyLines lines with
  | case1 next more ih => rw [withoutUpdates, if_pos (Or.inr ⟨rfl, rfl⟩), ih]
  | case2 lines hne =>
    match lines with
    | [] => rfl
    | [last] => rfl
    | (c :: line) :: next :: more => simp [withoutUpdates]
    | [] :: next :: more => exact absurd rfl (hne next more)

theorem keepToLines_dropEmptyLines (lines : List Text) :
    KeepToLines (dropEmptyLines lines) ↔ KeepToLines lines := by
  fun_induction dropEmptyLines lines with
  | case1 next more ih =>
    rw [ih, KeepToLines, and_iff_right (Or.inr (keepsLine_nil next more))]
  | case2 lines hne => exact Iff.rfl

/-- The lines further behind leave no more than all of them do. -/
theorem withoutUpdates_true_sublist (skips : Bool) (hne : more ≠ []) (h : more <:+ lines) :
    (withoutUpdates true more).Sublist (withoutUpdates skips lines) := by
  fun_induction withoutUpdates skips lines generalizing more with
  | case1 => exact absurd (List.suffix_nil.1 h) hne
  | case2 skips last =>
    obtain rfl := (List.suffix_cons_iff.1 h).resolve_right fun hnil =>
      hne (List.suffix_nil.1 hnil)
    exact List.Sublist.refl _
  | case3 skips line next rest hline ih =>
    obtain rfl | hsuffix := List.suffix_cons_iff.1 h
    · rw [withoutUpdates, if_pos (hline.imp_right fun hskips => ⟨rfl, hskips.2⟩)]
    · exact ih hne hsuffix
  | case4 skips line next rest hline ih =>
    obtain rfl | hsuffix := List.suffix_cons_iff.1 h
    · rw [withoutUpdates]
      split
      · exact (ih (List.cons_ne_nil next rest) List.suffix_rfl).cons line
      · exact List.Sublist.refl _
    · exact (ih hne hsuffix).cons line

theorem intercalate_withoutUpdates_cons (h : ¬ IsUpdateLine line) :
    List.intercalate ['\n'] (withoutUpdates false (line :: next :: more)) =
      line ++ '\n' :: List.intercalate ['\n'] (withoutUpdates false (next :: more)) := by
  have hstays : withoutUpdates false (line :: next :: more) =
      line :: withoutUpdates false (next :: more) := by simp [withoutUpdates, h]
  obtain ⟨first, others, hothers⟩ := List.exists_cons_of_ne_nil
    (withoutUpdates_ne_nil false (List.cons_ne_nil next more))
  rw [hstays, hothers, intercalate_cons_cons]

/-- Nothing is removed from a last line. -/
theorem stripUpdateLines_of_isLine (h : IsLine line) : stripUpdateLines line = line := by
  refine substituteAll_eq_self fun t ht => ?_
  have hline : IsLine t := h.of_suffix ht
  refine Option.eq_none_iff_forall_ne_some.2 fun ⟨out, rest⟩ hsome => ?_
  obtain ⟨keyword, blank, u, value, behind, -, -, rfl, ⟨-, -, rfl⟩, -⟩ :=
    (updateLine?_eq_some hline.1).1 hsome
  exact hline.2 (by simp)

/-- The scan leaves no more than the lines that are no update lines, and it leaves all of
these exactly where it keeps to lines. -/
theorem stripUpdateLines_intercalate (h : ∀ l ∈ lines, IsLine l) :
    (stripUpdateLines (List.intercalate ['\n'] lines)).Sublist
        (List.intercalate ['\n'] (withoutUpdates false lines)) ∧
      (stripUpdateLines (List.intercalate ['\n'] lines) =
          List.intercalate ['\n'] (withoutUpdates false lines) ↔ KeepToLines lines) := by
  induction hlength : lines.length using Nat.strong_induction_on generalizing lines with
  | _ n ih =>
    subst hlength
    match lines with
    | [] => exact ⟨List.Sublist.refl _, iff_of_true rfl trivial⟩
    | [last] =>
      rw [withoutUpdates, List.intercalate_singleton,
        stripUpdateLines_of_isLine (h last List.mem_cons_self)]
      exact ⟨List.Sublist.refl _, iff_of_true rfl trivial⟩
    | line :: next :: more =>
      have hnext : ∀ l ∈ next :: more, IsLine l := fun l hl => h l (List.mem_cons_of_mem _ hl)
      by_cases hupdate : IsUpdateLine line
      · have hshort := length_dropEmptyLines_le (next :: more)
        have hdrop := ih _ (Nat.lt_succ_of_le hshort)
          (fun l hl => hnext l (dropEmptyLines_subset _ hl)) rfl
        rw [← withoutUpdates_true, keepToLines_dropEmptyLines] at hdrop
        rw [stripUpdateLines_of_isUpdateLine h hupdate, withoutUpdates, if_pos (Or.inl hupdate),
          KeepToLines, and_iff_right (Or.inl hupdate)]
        exact hdrop
      · rw [intercalate_withoutUpdates_cons hupdate, KeepToLines, or_iff_right hupdate]
        by_cases hkeeps : KeepsLine line next more
        · have hrest := ih _ (Nat.lt_succ_self _) hnext rfl
          rw [stripUpdateLines_of_keepsLine h hkeeps, and_iff_right hkeeps, ← hrest.2]
          exact ⟨(hrest.1.cons_cons '\n').append_left line, by simp⟩
        · obtain ⟨p, t, lines, rfl, hne, hsuffix, hstrip⟩ := exists_stripUpdateLines_eq h hkeeps
          have hshort := (length_dropEmptyLines_le lines).trans hsuffix.length_le
          have hdrop := (ih _ (Nat.lt_succ_of_le hshort)
            (fun l hl => hnext l (hsuffix.mem (dropEmptyLines_subset _ hl))) rfl).1
          rw [← withoutUpdates_true] at hdrop
          have hsub := hdrop.trans
            (intercalate_sublist '\n' (withoutUpdates_true_sublist false hne hsuffix))
          rw [hstrip, List.append_assoc]
          refine ⟨((hsub.cons '\n').trans (List.sublist_append_right t _)).append_left p,
            iff_of_false (fun heq => ?_) fun hkeep => hkeeps hkeep.1⟩
          -- The line break at least is gone.
          have hlength := congrArg List.length heq
          simp only [List.length_append, List.length_cons] at hlength
          have hle := hsub.length_le
          omega

/-! ## The lines that are left -/

def IsPlain (line : Text) : Prop := allBlank line = false ∧ ¬ NamesUpdate line

instance (line : Text) : Decidable (IsPlain line) := inferInstanceAs (Decidable (_ ∧ _))

def plainLines (s : Text) : List Text := (List.splitOn '\n' s).filter fun line => IsPlain line

theorem withoutUpdates_subset (skips : Bool) (lines : List Text) :
    withoutUpdates skips lines ⊆ lines := by
  fun_induction withoutUpdates skips lines with
  | case1 => exact List.Subset.refl _
  | case2 skips last => exact List.Subset.refl _
  | case3 skips line next more hline ih => exact List.Subset.trans ih (List.subset_cons_self line _)
  | case4 skips line next more hline ih => exact List.cons_subset_cons line ih

theorem filter_isPlain_withoutUpdates (skips : Bool) (lines : List Text) :
    (withoutUpdates skips lines).filter (fun line => IsPlain line) =
      lines.filter fun line => IsPlain line := by
  fun_induction withoutUpdates skips lines with
  | case1 => rfl
  | case2 skips last => rfl
  | case3 skips line next more hline ih =>
    have hplain : ¬ IsPlain line := by
      rintro ⟨hblank, hnames⟩
      obtain hupdate | ⟨-, rfl⟩ := hline
      · exact hnames hupdate.namesUpdate
      · exact absurd hblank (by decide)
    exact ih.trans (List.filter_cons_of_neg (by simpa using hplain)).symm
  | case4 skips line next more hline ih => rw [List.filter_cons, List.filter_cons, ih]

theorem not_isUpdateLine_of_mem_dropLast (skips : Bool)
    (h : line ∈ (withoutUpdates skips lines).dropLast) : ¬ IsUpdateLine line := by
  fun_induction withoutUpdates skips lines with
  | case1 => exact absurd h List.not_mem_nil
  | case2 skips last => exact absurd h List.not_mem_nil
  | case3 skips first next more hline ih => exact ih h
  | case4 skips first next more hline ih =>
    rw [List.dropLast_cons_of_ne_nil (withoutUpdates_ne_nil false (List.cons_ne_nil next more)),
      List.mem_cons] at h
    obtain rfl | h := h
    · exact fun hupdate => hline (Or.inl hupdate)
    · exact ih h

/-- In a text with line feeds alone for line breaks the scan leaves no more than the lines
that give no address for updates.  It leaves all of them exactly where it keeps to lines.  The
plain lines are then what they were, and no update line with a line break is left; that can be
so where the scan does not keep to lines, too. -/
theorem stripUpdateLines_eq_iff_keepToLines (h : '\r' ∉ s) :
    (stripUpdateLines s).Sublist
        (List.intercalate ['\n'] (withoutUpdates false (List.splitOn '\n' s))) ∧
      (stripUpdateLines s = List.intercalate ['\n'] (withoutUpdates false (List.splitOn '\n' s)) ↔
        KeepToLines (List.splitOn '\n' s)) ∧
      (KeepToLines (List.splitOn '\n' s) →
        plainLines (stripUpdateLines s) = plainLines s ∧
        ∀ line ∈ (List.splitOn '\n' (stripUpdateLines s)).dropLast, ¬ IsUpdateLine line) := by
  have hlines : ∀ l ∈ List.splitOn '\n' s, IsLine l := by
    refine fun l hl => ⟨fun hr => h ?_, not_mem_of_mem_splitOn hl⟩
    have hmem := mem_intercalate_of_mem '\n' hl hr
    rwa [List.intercalate_splitOn] at hmem
  obtain ⟨hsub, heq⟩ := stripUpdateLines_intercalate hlines
  rw [List.intercalate_splitOn] at hsub heq
  refine ⟨hsub, heq, fun hkeep => ?_⟩
  have hsplit :
      List.splitOn '\n' (stripUpdateLines s) = withoutUpdates false (List.splitOn '\n' s) := by
    rw [heq.2 hkeep]
    exact List.splitOn_intercalate '\n'
      (fun l hl => (hlines l (withoutUpdates_subset false _ hl)).2)
      (withoutUpdates_ne_nil false (List.splitOn_ne_nil '\n' s))
  rw [plainLines, hsplit]
  exact ⟨filter_isPlain_withoutUpdates false _, fun _ => not_isUpdateLine_of_mem_dropLast false⟩

/-- Metadata with a directive on a line of its own. -/
theorem stripUpdateLines_eq_iff_keepToLines_metadata :
    '\r' ∉ "@name x\n@DownloadURL u\n".toList ∧
      KeepToLines (List.splitOn '\n' "@name x\n@DownloadURL u\n".toList) ∧
      stripUpdateLines "@name x\n@DownloadURL u\n".toList = "@name x\n".toList := by
  have hreturn : '\r' ∉ "@name x\n@DownloadURL u\n".toList := by decide
  have hkeep : KeepToLines (List.splitOn '\n' "@name x\n@DownloadURL u\n".toList) := by decide
  refine ⟨hreturn, hkeep, ?_⟩
  rw [(stripUpdateLines_eq_iff_keepToLines hreturn).2.1.2 hkeep]
  decide

/-- A line that names an address without giving it is lost, and no plain line is. -/
example : let s := "@updateURL\nx @updateURL u\n@name x\n".toList
    ¬ KeepToLines (List.splitOn '\n' s) ∧ plainLines (stripUpdateLines s) = plainLines s := by
  decide

/-- A keyword without a value takes the next line for it. -/
theorem stripUpdateLines_takes_next_line :
    '\r' ∉ "@updateURL\n@name x\n".toList ∧
      plainLines "@updateURL\n@name x\n".toList = ["@name x".toList] ∧
      stripUpdateLines "@updateURL\n@name x\n".toList = [] ∧
      ¬ (plainLines "@updateURL\n@name x\n".toList).Sublist
        (List.splitOn '\n' (stripUpdateLines "@updateURL\n@name x\n".toList)) := by
  decide

end Document
end StyleScope
