import Mathlib.Control.Monad.Basic
import StyleScope.Conversion
import StyleScope.Proofs.Style.Sections
import StyleScope.Proofs.Rule.CatchAll

/-!
# What a successful conversion has done

One inversion lemma for each step: `Document.extract_eq_ok_iff` for taking a style apart,
`patternsOfRule_eq_ok_iff` for its rule, and `convert_eq_ok_iff` for the whole.

A style without a rule may be converted to one that applies everywhere.  A style with a rule is
not: its patterns are those of its rule, and only a regular expression that says so makes a rule
apply everywhere (`convert_scoped`).
-/

namespace StyleScope

open Text

/-- A style without a scoping rule is kept whole; of a style with one, its first rule that
can be read is taken out. -/
theorem Document.extract_eq_ok_iff {style : Text} {doc : Document} :
    Document.extract style = .ok doc ↔
      Section.isGlobal (stripUpdateLines style) = true ∧
          doc = ⟨stripUpdateLines style, none, []⟩ ∨
        Section.isGlobal (stripUpdateLines style) = false ∧
          ∃ preamble list css tail,
            find? (fun t => (Section.afterKeyword? t).bind ruleParts?) (stripUpdateLines style) =
              some (preamble, list, css, tail) ∧
            doc = ⟨preamble, some (trim (stripComments list)), dropEmptyClose css ++ tail⟩ := by
  cases hglobal : Section.isGlobal (stripUpdateLines style) with
  | true =>
    simp only [Document.extract, hglobal, if_true, Except.ok.injEq, true_and, Bool.true_eq_false,
      false_and, or_false]
    exact eq_comm
  | false =>
    simp only [Document.extract, hglobal, Bool.false_eq_true, if_false, false_and, true_and,
      false_or]
    cases find? (fun t => (Section.afterKeyword? t).bind ruleParts?) (stripUpdateLines style) with
    | none => simp
    | some parts =>
      obtain ⟨preamble, list, css, tail⟩ := parts
      constructor
      · intro h
        exact ⟨preamble, list, css, tail, rfl, (Except.ok.inj h).symm⟩
      · rintro ⟨preamble, list, css, tail, hparts, rfl⟩
        cases hparts
        rfl

theorem Document.isGlobal_extract {style : Text} {doc : Document}
    (h : Document.extract style = .ok doc) :
    doc.isGlobal = Section.isGlobal (stripUpdateLines style) := by
  rcases extract_eq_ok_iff.1 h with ⟨hglobal, rfl⟩ | ⟨hglobal, preamble, list, css, tail, -, rfl⟩
  · exact hglobal.symm
  · exact hglobal.symm

theorem patternsOfRule_eq_ok_iff {list : Text} {set : PatternSet} :
    patternsOfRule list = .ok set ↔
      Rule.parse list ≠ [] ∧ set.isEmpty = false ∧ set = Rule.patterns (Rule.parse list) := by
  unfold patternsOfRule
  cases hcalls : Rule.parse list with
  | nil => simp
  | cons call calls =>
    cases hempty : (Rule.patterns (call :: calls)).isEmpty with
    | true =>
      refine iff_of_false (by simp [hempty]) ?_
      rintro ⟨-, hset, rfl⟩
      rw [hempty] at hset
      exact Bool.noConfusion hset
    | false =>
      simp only [hempty, Bool.false_eq_true, if_false, Except.ok.injEq, ne_eq, reduceCtorEq,
        not_false_eq_true, true_and]
      constructor
      · intro h
        exact ⟨h ▸ hempty, h.symm⟩
      · exact fun h => h.2.symm

theorem convert_eq_ok_iff {beautifier : UserCss.Beautifier} {settings : Settings} {style : Text}
    {source : Option Text} {c : Conversion} :
    convert beautifier settings style source = .ok c ↔
      eligibility style = .ok () ∧ ∃ doc, Document.extract style = .ok doc ∧
        doc.patterns settings = .ok c.patterns ∧
        c.text = UserCss.emit beautifier settings doc.text c.patterns source := by
  unfold convert
  cases hgate : eligibility style with
  | error refusal => simp [bind, Except.bind]
  | ok u =>
    cases hdoc : Document.extract style with
    | error refusal => simp [bind, Except.bind]
    | ok doc =>
      cases hset : doc.patterns settings with
      | error refusal => simp [bind, Except.bind, hset]
      | ok set =>
        obtain ⟨text, patterns⟩ := c
        simp only [bind, Except.bind, hset, pure, Except.pure, Except.ok.injEq,
          Conversion.mk.injEq, true_and, exists_eq_left']
        constructor
        · rintro ⟨rfl, rfl⟩
          exact ⟨rfl, rfl⟩
        · rintro ⟨rfl, rfl⟩
          exact ⟨rfl, rfl⟩

/-! ## Refusals for the lack of a metadata block -/

theorem eligibility_eq_missingMetadata_iff {style : Text} :
    eligibility style = .error .missingMetadata ↔ Metadata.block? style = none := by
  unfold eligibility
  cases Metadata.block? style with
  | none => simp
  | some block =>
    refine iff_of_false ?_ (by simp)
    dsimp only
    split
    · simp
    · split
      · simp
      · split <;> simp

theorem Document.extract_ne_missingMetadata (style : Text) :
    Document.extract style ≠ .error .missingMetadata := by
  unfold Document.extract
  dsimp only
  split
  · simp
  · split <;> simp

theorem Document.patterns_ne_missingMetadata (settings : Settings) (doc : Document) :
    doc.patterns settings ≠ .error .missingMetadata := by
  unfold Document.patterns patternsOfRule
  cases doc.rule with
  | none =>
    dsimp only
    split <;> simp
  | some list =>
    dsimp only
    split
    · simp
    · split <;> simp

/-- The lack of a metadata block is the first thing that is noticed, and nothing else is
reported as such. -/
theorem convert_eq_missingMetadata_iff {beautifier : UserCss.Beautifier} {settings : Settings}
    {style : Text} {source : Option Text} :
    convert beautifier settings style source = .error .missingMetadata ↔
      Metadata.block? style = none := by
  rw [← eligibility_eq_missingMetadata_iff]
  unfold convert
  cases hgate : eligibility style with
  | error refusal => simp [bind, Except.bind]
  | ok u =>
    refine iff_of_false ?_ (by simp)
    cases hdoc : Document.extract style with
    | error refusal =>
      have hrefusal := hdoc ▸ Document.extract_ne_missingMetadata style
      simpa [bind, Except.bind] using hrefusal
    | ok doc =>
      cases hset : doc.patterns settings with
      | error refusal =>
        have hrefusal := hset ▸ Document.patterns_ne_missingMetadata settings doc
        simpa [bind, Except.bind, hset] using hrefusal
      | ok set => simp [bind, Except.bind, hset, pure, Except.pure]

/-! ## Scoped styles stay scoped -/

/-- A style with a rule is never widened by its conversion: it gets patterns, and the
pattern for every web address only where a call of its rule asks for it. -/
theorem convert_scoped {beautifier : UserCss.Beautifier} {settings : Settings} {style : Text}
    {source : Option Text} {c : Conversion}
    (h : convert beautifier settings style source = .ok c)
    (hscoped : Section.IsScoped (Document.stripUpdateLines style)) :
    ∃ doc list, Document.extract style = .ok doc ∧ doc.rule = some list ∧
      c.patterns.isEmpty = false ∧
      (Pattern.catchAll ∈ c.patterns.matchPatterns ↔
        ∃ call ∈ Rule.parse list, call.IsEverywhere) := by
  obtain ⟨-, doc, hdoc, hset, -⟩ := convert_eq_ok_iff.1 h
  have hrule : doc.rule.isNone = false := by
    have hglobal := Document.isGlobal_extract hdoc
    rw [Section.isGlobal_eq_false_iff.2 hscoped] at hglobal
    exact hglobal
  obtain ⟨list, hlist⟩ := Option.isSome_iff_exists.1 (Option.isNone_eq_false_iff.1 hrule)
  have hpatterns : patternsOfRule list = .ok c.patterns := by
    rw [← hset, Document.patterns, hlist]
  obtain ⟨-, hne, heq⟩ := patternsOfRule_eq_ok_iff.1 hpatterns
  refine ⟨doc, list, hdoc, hlist, hne, ?_⟩
  rw [heq]
  exact Rule.catchAll_mem_patterns_iff

def anywhereStyle : Text :=
  "==UserStyle==\n==/UserStyle==\n@document domain(\"a\"),regexp(\".+\")\x7bb\x7d".toList

def anywhereText : Text :=
  "==UserCSS==\n\n@compatible       FireMonkey\n@converted-from   unknown\n".toList ++
    "@match            *://*/*\n==/UserCSS==\nb".toList

/-- The regular expression asks for every address, and the host is displaced. -/
theorem convert_scoped_anywhere :
    convert UserCss.keepLayout {} anywhereStyle none = .ok ⟨anywhereText, .catchAll⟩ ∧
    Section.IsScoped (Document.stripUpdateLines anywhereStyle) ∧
    ∃ doc list, Document.extract anywhereStyle = .ok doc ∧ doc.rule = some list ∧
      PatternSet.catchAll.isEmpty = false ∧
      (Pattern.catchAll ∈ PatternSet.catchAll.matchPatterns ↔
        ∃ call ∈ Rule.parse list, call.IsEverywhere) := by
  have hconv : convert UserCss.keepLayout {} anywhereStyle none =
      .ok ⟨anywhereText, .catchAll⟩ := by decide
  have hstrip : Document.stripUpdateLines anywhereStyle =
      "==UserStyle==\n==/UserStyle==\n".toList ++ "@document".toList ++
        " domain(\"a\"),regexp(\".+\")\x7bb\x7d".toList := by decide
  have hscoped : Section.IsScoped (Document.stripUpdateLines anywhereStyle) :=
    ⟨_, _, _, hstrip, by decide, Section.find?_afterKeyword?_eq_none_iff.1 (by decide), by decide,
      by decide⟩
  exact ⟨hconv, hscoped, convert_scoped hconv hscoped⟩

end StyleScope
