import StyleScope.Proofs.Regexp.NestedReading
import StyleScope.Proofs.Regexp.Branches
import StyleScope.Proofs.Regexp.Survival

/-!
# Globs of nested groups

The main result is `mem_globs_iff_mem_words`: when nested groups are translated at all, the
globs are the words that they match exactly when no group of alternatives moves letters out
of its first alternative, and unwrapping makes no way to write the scheme.
-/

namespace StyleScope
namespace Regexp

open Text

/-- Does the text name both schemes in a group? -/
def NamesScheme (s : Text) : Prop :=
  "(http|https)".toList <:+: s ∨ "(https|http)".toList <:+: s

def foldSchemeGroups (s : Text) : Text :=
  replaceAll "(https|http)".toList "http*".toList
    (replaceAll "(http|https)".toList "http*".toList s)

theorem not_mem_foldSchemeGroups {c : Char} {s : Text} (hout : c ∉ "http*".toList) (hc : c ∉ s) :
    c ∉ foldSchemeGroups s := by
  have hword : "(https|http)".toList ≠ [] := by decide
  have hword' : "(http|https)".toList ≠ [] := by decide
  intro hmem
  rcases mem_or_mem_of_mem_replaceAll hword hmem with h | h
  · exact hout h
  · exact (mem_or_mem_of_mem_replaceAll hword' h).elim hout hc

/-- Without dots and colons nothing else is folded. -/
theorem foldScheme_eq_foldSchemeGroups {s : Text} (hdot : '.' ∉ s) (hcolon : ':' ∉ s) :
    foldScheme s = foldSchemeGroups s := by
  have hword : '.' ∈ "http.".toList := by decide
  have hdots := not_mem_foldSchemeGroups (by decide) hdot
  have hcolons := not_mem_foldSchemeGroups (by decide) hcolon
  show substituteAll longScheme? (replaceAll "http.".toList _ (foldSchemeGroups s)) = _
  rw [replaceAll_eq_self_of_not_mem _ hword hdots]
  exact substituteAll_eq_self_of_not_mem (fun _ => longScheme?_eq_none) hcolons

theorem star_mem_foldScheme {s : Text} (hdot : '.' ∉ s) (hcolon : ':' ∉ s) (h : NamesScheme s) :
    '*' ∈ foldScheme s := by
  have hstar : '*' ∈ "http*".toList := by decide
  rw [foldScheme_eq_foldSchemeGroups hdot hcolon, foldSchemeGroups]
  by_cases hfirst : "(http|https)".toList <:+: s
  · have hmem := mem_replaceAll_of_occurs (by decide) hstar hfirst
    exact mem_replaceAll_of_mem (by decide) _ (by decide) hmem
  · rw [replaceAll_eq_self _ hfirst]
    exact mem_replaceAll_of_occurs (by decide) hstar (h.resolve_left hfirst)

theorem foldScheme_eq_self_of_not_namesScheme {s : Text} (hdot : '.' ∉ s) (hcolon : ':' ∉ s)
    (h : ¬ NamesScheme s) : foldScheme s = s := by
  rw [NamesScheme, not_or] at h
  rw [foldScheme_eq_foldSchemeGroups hdot hcolon, foldSchemeGroups, replaceAll_eq_self _ h.1,
    replaceAll_eq_self _ h.2]

namespace Nested

theorem ne_nil_of_globs {es : List Nested} {globs : List Text}
    (hglobs : globs? (sequenceText es) = some globs) : es ≠ [] := by
  intro hnil
  rw [hnil] at hglobs
  have hnone : globs? (sequenceText []) = none := by decide
  rw [hnone] at hglobs
  exact absurd hglobs (by simp)

/-! ## The steps -/

section
variable {es : List Nested} (h : SequenceWellFormed es)
include h

theorem isNestedChar_unwrap {c : Char} (hc : c ∈ unwrapPlainGroups (sequenceText es)) :
    IsNestedChar c :=
  isNestedChar_sequenceText es h c (mem_of_mem_unwrap hc)

theorem not_mem_unwrap {c : Char}
    (hc : c ∈ ['^', '$', '?', '\x7b', '[', '+', '*', '.', '\\', ':', '\n']) :
    c ∉ unwrapPlainGroups (sequenceText es) :=
  fun hmem => not_isNestedChar hc (isNestedChar_unwrap h hmem)

theorem not_mem_foldScheme {c : Char} (hc : c ∈ ['?', '\x7b', '[', '+', '.', '\\']) :
    c ∉ foldScheme (unwrapPlainGroups (sequenceText es)) := by
  have hsub : ∀ x ∈ ['?', '\x7b', '[', '+', '.', '\\'],
      x ∈ ['^', '$', '?', '\x7b', '[', '+', '*', '.', '\\', ':', '\n'] ∧
        x ∉ "http*".toList := by decide
  rw [foldScheme_eq_foldSchemeGroups (not_mem_unwrap h (by decide)) (not_mem_unwrap h (by decide))]
  exact not_mem_foldSchemeGroups (hsub c hc).2 (not_mem_unwrap h (hsub c hc).1)

/-- Of the steps only unwrapping, the scheme and the wildcards matter. -/
theorem simplify_sequenceText :
    simplify (sequenceText es) =
      collapseWildcards (foldScheme (unwrapPlainGroups (sequenceText es))) := by
  have hbefore : ∀ step ∈ [Step.anchors, .assertions, .nonCapturing], ∀ c ∈ step.marks,
      c ∈ ['^', '$', '?', '\x7b', '[', '+', '*', '.', '\\', ':', '\n'] := by decide
  have hbehind : ∀ step ∈ [Step.counts, .optionalGroups, .repeatedClasses, .plus, .dots,
      .escapedSeparators, .escapedLiterals, .classEscapes], ∀ c ∈ step.marks,
      c ∈ ['?', '\x7b', '[', '+', '.', '\\'] := by decide
  have hfirst := Step.foldl_apply_eq_self fun step hstep c hc hmem =>
    not_isNestedChar (hbefore step hstep c hc) (isNestedChar_sequenceText es h c hmem)
  have hlast := Step.foldl_apply_eq_self fun step hstep c hc =>
    not_mem_foldScheme h (hbehind step hstep c hc)
  have hall : Step.all = [Step.anchors, .assertions, .nonCapturing] ++
      ([Step.plainGroups, .scheme] ++ ([Step.counts, .optionalGroups, .repeatedClasses, .plus,
        .dots, .escapedSeparators, .escapedLiterals, .classEscapes] ++ [Step.wildcardRuns])) := rfl
  have hmiddle : ∀ s, List.foldl (fun t step => Step.apply step t) s [Step.plainGroups, .scheme] =
      foldScheme (unwrapPlainGroups s) := fun _ => rfl
  have hend : ∀ s, List.foldl (fun t step => Step.apply step t) s [Step.wildcardRuns] =
      collapseWildcards s := fun _ => rfl
  rw [simplify, hall, List.foldl_append, hfirst, List.foldl_append, hmiddle, List.foldl_append,
    hlast, hend]

/-! ## Globs and words -/

theorem not_wild_of_mem_sequenceWords {w : Text} (hw : w ∈ sequenceWords es) {c : Char}
    (hc : c ∈ w) : isWildcard c = false := by
  have hchar := isNestedChar_sequenceText es h c (mem_text_of_mem_sequenceWords es w hw c hc)
  refine Bool.eq_false_iff.2 fun hwild => ?_
  have hor : c = '*' ∨ c = '?' := by simpa [isWildcard] using hwild
  rcases hor with rfl | rfl
  · exact not_isNestedChar (by decide) hchar
  · exact not_isNestedChar (by decide) hchar

/-- A folded scheme leaves a wildcard in some glob. -/
theorem exists_wild_mem_globs (hscheme : NamesScheme (unwrapPlainGroups (sequenceText es)))
    {globs : List Text} (hglobs : globs? (sequenceText es) = some globs) :
    ∃ g ∈ globs, ∃ c ∈ g, isWildcard c = true := by
  have hdot := not_mem_unwrap h (c := '.') (by decide)
  have hcolon := not_mem_unwrap h (c := ':') (by decide)
  have hstar := star_mem_foldScheme hdot hcolon hscheme
  obtain ⟨c, hc, hwild⟩ := exists_wild_mem_collapse rfl hstar
  rw [← simplify_sequenceText h] at hc
  exact exists_wild_mem_of_globs?_eq_some hglobs hwild hc

theorem readable_unwrap : Readable (unwrapPlainGroups (sequenceText es)) where
  line := not_mem_unwrap h (by decide)
  empty := not_infix_empty_unwrap (not_infix_empty_sequenceText es h)
  count := count_unwrap (depth?_sequenceText es h 0)

theorem not_wild_of_mem_unwrap {c : Char} (hc : c ∈ unwrapPlainGroups (sequenceText es)) :
    isWildcard c = false := by
  have hstar : c ≠ '*' := fun heq => not_mem_unwrap h (by decide) (heq ▸ hc)
  have hquery : c ≠ '?' := fun heq => not_mem_unwrap h (by decide) (heq ▸ hc)
  simp [isWildcard, hstar, hquery]

/-- If no scheme is folded, the unwrapped text is read as the globs. -/
theorem exists_reads_globs (hscheme : ¬ NamesScheme (unwrapPlainGroups (sequenceText es)))
    {globs : List Text} (hglobs : globs? (sequenceText es) = some globs) :
    ∃ ws, Reads (unwrapPlainGroups (sequenceText es)) ws ∧ globs = ws.filter (!·.isEmpty) := by
  obtain ⟨branches, hexpand, hclean, rfl, -⟩ := globs?_eq_some hglobs
  have hdot := not_mem_unwrap h (c := '.') (by decide)
  have hcolon := not_mem_unwrap h (c := ':') (by decide)
  rw [simplify_sequenceText h, foldScheme_eq_self_of_not_namesScheme hdot hcolon hscheme,
    collapse_eq_self fun c hc => not_wild_of_mem_unwrap h hc] at hexpand
  have hbare : ∀ b ∈ branches, Bare b := by
    intro b hb
    have hres := hclean b hb
    refine bare_of_not_mem (fun hmem => ?_) (fun hmem => ?_) fun hmem => ?_
    · exact absurd (hres _ hmem) (by decide)
    · exact absurd (hres _ hmem) (by decide)
    · exact absurd (hres _ hmem) (by decide)
  have hstarts : [unwrapPlainGroups (sequenceText es)] =
      [[]].map (· ++ unwrapPlainGroups (sequenceText es)) := rfl
  rw [expand, hstarts] at hexpand
  obtain ⟨ws, hreads, rfl⟩ :=
    exists_reads (readable_unwrap h) (List.cons_ne_nil [] []) (by simp) hexpand hbare
  have hjoined : joined [[]] ws = ws := by
    rw [joined_singleton_left]
    exact List.map_id ws
  have hself : ∀ w ∈ ws, collapseWildcards w = w := fun w hw =>
    collapse_eq_self fun c hc => not_wild_of_mem_unwrap h (hreads.mem_of_mem hw hc)
  rw [hjoined, List.map_congr_left hself, List.map_id']
  exact ⟨ws, hreads, rfl⟩

/-- None of the words is empty, so what is read is what comes out. -/
theorem exists_slots_globs (hscheme : ¬ NamesScheme (unwrapPlainGroups (sequenceText es)))
    {globs : List Text} (hglobs : globs? (sequenceText es) = some globs) :
    ∃ ps : List Slot, globs = Slot.readAll ps ∧ sequenceWords es = Slot.meantAll ps ∧
      ((∀ p ∈ ps, p.InPlace) ↔ ∀ e ∈ es, e.KeepsFirst) := by
  obtain ⟨ws, hreads, rfl⟩ := exists_reads_globs h hscheme hglobs
  obtain ⟨ps, rfl, hwords, hplace⟩ := exists_slots h hreads
  refine ⟨ps, ?_, hwords, hplace⟩
  have hnil : [] ∉ Slot.readAll ps := by
    refine Slot.nil_not_mem_readAll ?_
    rw [← hwords]
    exact nil_not_mem_sequenceWords es h (ne_nil_of_globs hglobs)
  refine List.filter_eq_self.2 fun w hw => ?_
  have hne : w ≠ [] := fun heq => hnil (heq ▸ hw)
  simpa using hne

/-- Where nested groups are translated, the globs are the words that they match exactly
when every group of alternatives keeps its first one and no scheme is folded. -/
theorem mem_globs_iff_mem_words (hglobs : globs (sequenceText es) ≠ []) :
    (∀ u, u ∈ globs (sequenceText es) ↔ u ∈ sequenceWords es) ↔
      (∀ e ∈ es, e.KeepsFirst) ∧ ¬ NamesScheme (unwrapPlainGroups (sequenceText es)) := by
  rw [globs] at hglobs ⊢
  cases hsome : globs? (sequenceText es) with
  | none =>
    rw [hsome] at hglobs
    exact absurd rfl hglobs
  | some gs =>
    rw [Option.getD_some]
    by_cases hscheme : NamesScheme (unwrapPlainGroups (sequenceText es))
    · obtain ⟨g, hg, c, hc, hwild⟩ := exists_wild_mem_globs h hscheme hsome
      refine iff_of_false (fun hsame => ?_) fun hcond => hcond.2 hscheme
      have hword := not_wild_of_mem_sequenceWords h ((hsame g).1 hg) hc
      rw [hword] at hwild
      exact absurd hwild Bool.false_ne_true
    · obtain ⟨ps, rfl, hwords, hplace⟩ := exists_slots_globs h hscheme hsome
      rw [hwords, Slot.mem_readAll_iff_mem_meantAll, hplace]
      exact (and_iff_left hscheme).symm
end

/-- Groups that lead in are translated to what they match: `(((a)b)c|d)(e|f)`. -/
theorem mem_globs_iff_mem_words_leading :
    let es := [group [group [group [char 'a'] [], char 'b'] [], char 'c'] [[char 'd']],
      group [char 'e'] [[char 'f']]]
    sequenceText es = "(((a)b)c|d)(e|f)".toList ∧ SequenceWellFormed es ∧
      globs (sequenceText es) ≠ [] ∧ ∀ u, u ∈ globs (sequenceText es) ↔ u ∈ sequenceWords es := by
  intro es
  have hwf : SequenceWellFormed es := by
    simp only [es, SequenceWellFormed, WellFormed, OthersWellFormed]
    decide
  have hglobs : globs (sequenceText es) ≠ [] := by decide
  have hkeep : ∀ e ∈ es, e.KeepsFirst := by
    simp [es, KeepsFirst, LeadsIn, IsPlain]
  have hscheme : ¬ NamesScheme (unwrapPlainGroups (sequenceText es)) := by
    rw [NamesScheme]
    decide
  exact ⟨by decide, hwf, hglobs, (mem_globs_iff_mem_words hwf hglobs).2 ⟨hkeep, hscheme⟩⟩

/-- In `(a(b)|c)` the letter in front of the inner group moves: what is meant is `ab` or `c`,
and the globs are `ab` and `ac`. -/
theorem globs_ne_words_of_letter_moved :
    let es := [group [char 'a', group [char 'b'] []] [[char 'c']]]
    sequenceText es = "(a(b)|c)".toList ∧ SequenceWellFormed es ∧
      ¬ "http".toList <:+: sequenceText es ∧
      globs (sequenceText es) = ["ab".toList, "ac".toList] ∧
      sequenceWords es = ["ab".toList, "c".toList] := by
  intro es
  have hwf : SequenceWellFormed es := by
    simp only [es, SequenceWellFormed, WellFormed, OthersWellFormed]
    decide
  exact ⟨by decide, hwf, by decide, by decide, by decide⟩

end Nested
end Regexp
end StyleScope
