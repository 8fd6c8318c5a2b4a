import Mathlib.Control.Monad.Basic
import StyleScope.Proofs.Style.Extraction
import StyleScope.Text.Nesting

/-!
# Which brace closes a scoping rule

The braces of a rule go when the style is put together again.  Its closing brace is taken
to be the last one of the style, and this is the right one only where no other brace stands
behind the rule (`Document.text_extract_iff`).  Otherwise the style has its braces in other
places than before: CSS behind the rule loses its last closing brace, and the rule keeps
its own, or, around nothing but blanks, loses it together with the blanks.
-/

namespace StyleScope
namespace Document

open Text

variable {preamble host css tail x y : Text}

/-! ## Braces that are missing -/

theorem balance_eq_self (h : css.count '\x7b' = css.count '\x7d') : balance css = css :=
  if_neg (by omega)

theorem balance_eq_or (s : Text) : balance s = s ∨ balance s = s ++ ['\x7d'] := by
  unfold balance
  split
  · exact Or.inr rfl
  · exact Or.inl rfl

/-- The first brace in well nested CSS is an opening one. -/
theorem not_closesAtOnce_of_isNested (h : isNested '\x7b' '\x7d' css = true) :
    ¬ ClosesAtOnce css := by
  rintro ⟨blanks, rest, -, hblanks, rfl⟩
  have hno : ∀ c ∈ blanks, c ≠ '\x7b' ∧ c ≠ '\x7d' := by
    intro c hc
    have hc := isBlank_of_mem hblanks hc
    constructor <;> rintro rfl <;> exact absurd hc (by decide)
  rw [not_isNested_append_closing (by decide) hno] at h
  exact absurd h (by simp)

theorem not_closesAtOnce_append (h : isNested '\x7b' '\x7d' css = true)
    (hblank : allBlank css = false) : ¬ ClosesAtOnce (css ++ '\x7d' :: x) := by
  rintro ⟨blanks, rest, hne, hblanks, heq⟩
  rcases List.append_eq_append_iff.1 heq with ⟨u, rfl, -⟩ | ⟨u, rfl, hu⟩
  · rw [allBlank, List.all_append, Bool.and_eq_true] at hblanks
    rw [allBlank, hblanks.1] at hblank
    exact absurd hblank (by simp)
  · cases u with
    | nil =>
      rw [List.append_nil, hblanks] at hblank
      exact absurd hblank (by simp)
    | cons d u =>
      obtain ⟨rfl, -⟩ := List.cons.inj hu
      exact not_closesAtOnce_of_isNested h ⟨blanks, u, hne, hblanks, rfl⟩

/-! ## A rule for one host -/

/-- A style in which a rule for one host wraps the CSS. -/
def withHost (preamble host css tail : Text) : Text :=
  preamble ++ "@-moz-document domain(\"".toList ++ host ++ "\") \x7b".toList ++ css ++
    "\x7d".toList ++ tail

theorem withHost_eq : withHost preamble host css tail = preamble ++ "@-moz-document".toList ++
    (" domain(\"".toList ++ host ++ "\") \x7b".toList ++ css ++ '\x7d' :: tail) := by
  simp [withHost]

/-- Any closing brace may be taken for the one of the rule. -/
theorem withHost_append_cons :
    withHost preamble host css (x ++ '\x7d' :: y) =
      withHost preamble host (css ++ '\x7d' :: x) y := by
  simp [withHost]

theorem ruleParts?_domain (hhost : '\x7b' ∉ host) (hne : css ≠ []) (htail : '\x7d' ∉ tail) :
    ruleParts? (" domain(\"".toList ++ host ++ "\") \x7b".toList ++ css ++ '\x7d' :: tail) =
      some (" domain(\"".toList ++ host ++ "\")".toList, css, tail) := by
  refine ruleParts?_eq_some.2 ⟨' ', 'd', "omain(\"".toList ++ host ++ ['"'], [' '], by simp,
    by decide, by decide, ?_, hne, htail, by simp⟩
  rintro ⟨a, b, heq, blanks, c, rfl, -⟩
  have hmem : '\x7b' ∈ "omain(\"".toList ++ host ++ ['"'] := heq ▸ by simp
  have hin : '\x7b' ∈ host := by simpa using hmem
  exact hhost hin

theorem not_namesUpdate_withHost (hhost : '@' ∉ host)
    (hupdate : ∀ s ∈ [preamble, css, tail], ¬ NamesUpdate s) :
    ¬ NamesUpdate (withHost preamble host css tail) := by
  intro h
  have hletters : ∀ c ∈ ['-', '\x7d'], ∀ word ∈ updateKeywords, foldCase c ∉ word := by decide
  have hsplit : withHost preamble host css tail =
      preamble ++ ['@'] ++ '-' :: ("moz-document domain(\"".toList ++ host ++
        "\") \x7b".toList ++ (css ++ '\x7d' :: tail)) := by simp [withHost]
  have hat : '@' ∉ "moz-document domain(\"".toList ++ host ++ "\") \x7b".toList := by
    simpa using hhost
  rw [hsplit] at h
  rcases (namesUpdate_append_cons_iff (hletters '-' (by decide))).1 h with hfront | hbehind
  · exact hupdate preamble (by simp) hfront.of_append_at
  · have hrest := hbehind.of_append hat
    rcases (namesUpdate_append_cons_iff (hletters '\x7d' (by decide))).1 hrest with hin | htail
    · exact hupdate css (by simp) hin
    · exact hupdate tail (by simp) htail

/-! ## Putting the style together -/

/-- A style with a rule for one host is taken apart at its last closing brace. -/
theorem exists_extract_withHost (hhost : '\x7b' ∉ host) (hne : css ≠ []) (htail : '\x7d' ∉ tail)
    (hfirst : ∀ k ∈ Section.keywords, ¬ k <:+: preamble)
    (hupdate : ¬ NamesUpdate (withHost preamble host css tail)) :
    ∃ doc, extract (withHost preamble host css tail) = .ok doc ∧
      doc.text = balance (preamble ++ (dropEmptyClose css ++ tail)) := by
  rw [withHost_eq] at hupdate ⊢
  refine ⟨_, (extract_append_eq_ok_iff (by decide) hfirst hupdate (by simp) ?_).2
    ⟨_, css, tail, ruleParts?_domain hhost hne htail, rfl, rfl⟩, rfl⟩
  intro k hk hpre
  obtain ⟨t, rfl, -⟩ := Section.exists_keyword_eq hk
  exact absurd (List.cons_prefix_cons.1 hpre).1 (by decide)

/-- With a closing brace behind the rule the parts do not come back in their places. -/
theorem balance_ne_of_brace_behind (hne : css ≠ []) (hcss : isNested '\x7b' '\x7d' css = true)
    (htail : isNested '\x7b' '\x7d' (x ++ '\x7d' :: y) = true) :
    balance (preamble ++ (dropEmptyClose (css ++ '\x7d' :: x) ++ y)) ≠
      preamble ++ css ++ (x ++ '\x7d' :: y) := by
  intro heq
  have hpos : 0 < css.length := List.length_pos_iff.2 hne
  cases hblank : allBlank css with
  | true =>
    -- The blanks are lost.
    rw [dropEmptyClose_append hne hblank] at heq
    have hlen := congrArg List.length heq
    rcases balance_eq_or (preamble ++ (x ++ y)) with h | h
    · rw [h] at hlen
      simp only [List.length_append, List.length_cons] at hlen
      omega
    · rw [h] at hlen
      simp only [List.length_append, List.length_cons, List.length_nil] at hlen
      omega
  | false =>
    rw [dropEmptyClose_eq_self (not_closesAtOnce_append hcss hblank)] at heq
    have hlen := congrArg List.length heq
    rcases balance_eq_or (preamble ++ (css ++ '\x7d' :: x ++ y)) with h | h
    · -- The closing brace of the rule would have to be the first one behind it.
      rw [h, List.append_assoc, List.append_assoc] at heq
      have htext : '\x7d' :: (x ++ y) = x ++ '\x7d' :: y :=
        List.append_cancel_left (List.append_cancel_left heq)
      have hno : isNested '\x7b' '\x7d' ([] ++ '\x7d' :: (x ++ y)) = false :=
        not_isNested_append_closing (by decide) (by simp) (x ++ y)
      rw [List.nil_append, htext, htail] at hno
      exact absurd hno (by simp)
    · rw [h] at hlen
      simp only [List.length_append, List.length_cons, List.length_nil] at hlen
      omega

/-- A style with a rule for one host is put together without the rule and its braces
exactly when no brace stands behind the rule. -/
theorem text_extract_iff (hpreamble : '\x7b' ∉ preamble ∧ '\x7d' ∉ preamble)
    (hhost : '@' ∉ host ∧ '\x7b' ∉ host) (hne : css ≠ [])
    (hcss : isNested '\x7b' '\x7d' css = true) (htail : isNested '\x7b' '\x7d' tail = true)
    (hfirst : ∀ k ∈ Section.keywords, ¬ k <:+: preamble)
    (hupdate : ∀ s ∈ [preamble, css, tail], ¬ NamesUpdate s) :
    ∃ doc, extract (withHost preamble host css tail) = .ok doc ∧
      (doc.text = preamble ++ css ++ tail ↔ '\x7d' ∉ tail) := by
  have hnames := not_namesUpdate_withHost hhost.1 hupdate
  by_cases hmem : '\x7d' ∈ tail
  · obtain ⟨x, y, rfl, hy⟩ := exists_last_of_mem hmem
    rw [withHost_append_cons] at hnames ⊢
    obtain ⟨doc, hdoc, htext⟩ := exists_extract_withHost hhost.2 (by simp) hy hfirst hnames
    refine ⟨doc, hdoc, iff_of_false ?_ (not_not_intro hmem)⟩
    rw [htext]
    exact balance_ne_of_brace_behind hne hcss htail
  · obtain ⟨doc, hdoc, htext⟩ := exists_extract_withHost hhost.2 hne hmem hfirst hnames
    refine ⟨doc, hdoc, iff_of_true ?_ hmem⟩
    rw [htext, dropEmptyClose_eq_self (not_closesAtOnce_of_isNested hcss), ← List.append_assoc]
    refine balance_eq_self ?_
    rw [List.count_append, List.count_append, List.count_append, List.count_append,
      List.count_eq_zero.2 hpreamble.1, List.count_eq_zero.2 hpreamble.2,
      count_of_isNested (by decide) hcss, count_of_isNested (by decide) htail]

theorem text_extract_iff_comment_behind :
    ('\x7b' ∉ metadataComment ∧ '\x7d' ∉ metadataComment) ∧
    ('@' ∉ "a.com".toList ∧ '\x7b' ∉ "a.com".toList) ∧ "a\x7bb:c\x7d".toList ≠ [] ∧
    isNested '\x7b' '\x7d' "a\x7bb:c\x7d".toList = true ∧
    isNested '\x7b' '\x7d' " /* end */".toList = true ∧
    (∀ k ∈ Section.keywords, ¬ k <:+: metadataComment) ∧
    (∀ s ∈ [metadataComment, "a\x7bb:c\x7d".toList, " /* end */".toList], ¬ NamesUpdate s) ∧
    ∃ doc, extract (withHost metadataComment "a.com".toList "a\x7bb:c\x7d".toList
        " /* end */".toList) = .ok doc ∧
      (doc.text = metadataComment ++ "a\x7bb:c\x7d".toList ++ " /* end */".toList ↔
        '\x7d' ∉ " /* end */".toList) := by
  have hpreamble : '\x7b' ∉ metadataComment ∧ '\x7d' ∉ metadataComment := by decide
  have hhost : '@' ∉ "a.com".toList ∧ '\x7b' ∉ "a.com".toList := by decide
  have hne : "a\x7bb:c\x7d".toList ≠ [] := by decide
  have hcss : isNested '\x7b' '\x7d' "a\x7bb:c\x7d".toList = true := by decide
  have htail : isNested '\x7b' '\x7d' " /* end */".toList = true := by decide
  have hupdate : ∀ s ∈ [metadataComment, "a\x7bb:c\x7d".toList, " /* end */".toList],
      ¬ NamesUpdate s := by decide
  exact ⟨hpreamble, hhost, hne, hcss, htail, not_infix_metadataComment, hupdate,
    text_extract_iff hpreamble hhost hne hcss htail not_infix_metadataComment hupdate⟩

def rejoined? (s : Text) : Option Text := (extract s).toOption.map text

/-- CSS behind the rule takes over the closing brace of the rule and leaves it its own.  In
the metadata an address for updates is deleted, and a keyword is taken for the one of the
rule. -/
theorem text_extract_css_behind :
    isNested '\x7b' '\x7d' "a\x7bb:c\x7d".toList = true ∧
    isNested '\x7b' '\x7d' " d\x7be:f\x7d".toList = true ∧
    (∀ s ∈ ["a\x7bb:c\x7d".toList, " d\x7be:f\x7d".toList],
      ¬ NamesUpdate s ∧ ∀ k ∈ Section.keywords, ¬ k <:+: s) ∧
    rejoined? (withHost metadataComment "a.com".toList "a\x7bb:c\x7d".toList
        " d\x7be:f\x7d".toList) =
      some (metadataComment ++ "a\x7bb:c\x7d\x7d d\x7be:f".toList) ∧
    metadataComment ++ "a\x7bb:c\x7d\x7d d\x7be:f".toList ≠
      metadataComment ++ "a\x7bb:c\x7d".toList ++ " d\x7be:f\x7d".toList ∧
    ∀ line ∈ ["@updateURL u\n".toList, "@document x\n".toList],
      rejoined? (withHost ("/* ==UserStyle==\n".toList ++ line ++ "==/UserStyle== */\n".toList)
          "a.com".toList "a\x7bb:c\x7d".toList []) ≠
        some ("/* ==UserStyle==\n".toList ++ line ++ "==/UserStyle== */\n".toList ++
          "a\x7bb:c\x7d".toList ++ []) := by
  decide +kernel

end Document
end StyleScope
