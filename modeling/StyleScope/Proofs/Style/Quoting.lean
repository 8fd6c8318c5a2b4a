import Mathlib.Control.Monad.Basic
import StyleScope.Proofs.Rule.Calls
import StyleScope.Proofs.Style.Comments
import StyleScope.Proofs.Style.Extraction
import StyleScope.Text.Nesting

/-!
# Values that are mistaken for parts of a style

Neither the end of the list of calls, nor the commas in it, nor the comments are looked for
with regard to quotes.  A style is taken apart into its calls and its CSS exactly when no
value has a `)` with a `{` or a comma behind it, and nothing in the list looks like a
comment between blanks (`Document.comesApart_iff`).
-/

namespace StyleScope
namespace Document

open Text

variable {d : Char} {preamble css rule list tail css' mid : Text} {calls : List Call}

/-! ## The list of a style with one rule -/

/-- What CSS in braces is left with when it is the CSS of a rule. -/
theorem eq_of_dropEmptyClose_eq {x y : Text} (hcss : dropEmptyClose css' = css)
    (h : x ++ '\x7b' :: css = y ++ '\x7b' :: css') : css' = css := by
  by_cases hclose : ClosesAtOnce css'
  · -- The brace in front of the CSS would be a closing one.
    obtain ⟨blanks, rest, hne, hblanks, rfl⟩ := hclose
    rw [dropEmptyClose_append hne hblanks] at hcss
    subst hcss
    have hsplit : x ++ ['\x7b'] ++ rest = y ++ '\x7b' :: blanks ++ ['\x7d'] ++ rest := by
      simpa using h
    have hlast := congrArg List.getLast? (List.append_cancel_right hsplit)
    rw [List.getLast?_concat, List.getLast?_concat] at hlast
    exact absurd (Option.some.inj hlast) (by decide)
  · rw [dropEmptyClose_eq_self hclose] at hcss
    exact hcss

/-- The list ends where it should, and the CSS comes back, exactly when nothing in the list
looks like its end. -/
theorem exists_ruleParts?_iff (hne : css ≠ []) (hclose : ¬ ClosesAtOnce css) :
    (∃ css' tail, ruleParts? (' ' :: d :: (mid ++ [')']) ++ " \x7b".toList ++ css ++ ['\x7d']) =
        some (list, css', tail) ∧ css = dropEmptyClose css' ++ tail) ↔
      ¬ ClosesBefore '\x7b' mid ∧ list = ' ' :: d :: (mid ++ [')']) := by
  constructor
  · rintro ⟨css', tail, hparts, hcss⟩
    obtain ⟨b, c, mid', blanks, heq, hb, hblanks, hno, -, htail, rfl⟩ := ruleParts?_eq_some.1 hparts
    have hends : (' ' :: d :: (mid ++ [')']) ++ " \x7b".toList ++ css) ++ '\x7d' :: [] =
        (b :: c :: (mid' ++ ')' :: (blanks ++ '\x7b' :: css'))) ++ '\x7d' :: tail := by
      rw [heq]
      simp
    obtain ⟨hbody, rfl⟩ := append_cons_inj_right List.not_mem_nil htail hends
    rw [List.append_nil] at hcss
    have hopens : (' ' :: d :: (mid ++ [')']) ++ [' ']) ++ '\x7b' :: css =
        (b :: c :: (mid' ++ ')' :: blanks)) ++ '\x7b' :: css' := by
      simpa using hbody
    obtain rfl := eq_of_dropEmptyClose_eq hcss.symm hopens
    have hlists : (' ' :: d :: mid) ++ ')' :: [' '] = (b :: c :: mid') ++ ')' :: blanks := by
      simpa using List.append_cancel_right hopens
    have hblanks' : ')' ∉ blanks := fun hmem => absurd (isBlank_of_mem hblanks hmem) (by decide)
    obtain ⟨hfront, -⟩ := append_cons_inj_right (by decide) hblanks' hlists
    obtain ⟨hblank, htext⟩ := List.cons.inj hfront
    obtain ⟨rfl, rfl⟩ := List.cons.inj htext
    exact ⟨hno, by rw [hblank]⟩
  · rintro ⟨hno, rfl⟩
    refine ⟨css, [], ruleParts?_eq_some.2 ⟨' ', d, mid, [' '], by simp, by decide, by decide, hno,
      hne, List.not_mem_nil, rfl⟩, ?_⟩
    rw [dropEmptyClose_eq_self hclose, List.append_nil]

/-! ## A style for a list of calls -/

/-- A style in which a rule with the calls wraps the CSS. -/
def withRule (preamble : Text) (calls : List Call) (css : Text) : Text :=
  preamble ++ "@-moz-document ".toList ++ Rule.text calls ++ " \x7b".toList ++ css ++ "\x7d".toList

def ComesApart (preamble : Text) (calls : List Call) (css : Text) : Prop :=
  ∃ rule, extract (withRule preamble calls css) = .ok ⟨preamble, some rule, css⟩ ∧
    Rule.parse rule = calls

instance (preamble : Text) (calls : List Call) (css : Text) :
    Decidable (ComesApart preamble calls css) :=
  match h : extract (withRule preamble calls css) with
  | .ok ⟨p, some rule, body⟩ =>
    decidable_of_iff (p = preamble ∧ body = css ∧ Rule.parse rule = calls) <| by
      rw [ComesApart, h]
      constructor
      · rintro ⟨rfl, rfl, hparse⟩
        exact ⟨rule, rfl, hparse⟩
      · rintro ⟨rule', heq, hparse⟩
        cases heq
        exact ⟨rfl, rfl, hparse⟩
  | .ok ⟨p, none, body⟩ => isFalse (by rw [ComesApart, h]; simp)
  | .error _ => isFalse (by rw [ComesApart, h]; simp)

theorem extract_withRule_iff (hcalls : calls ≠ []) (hne : css ≠ []) (hclose : ¬ ClosesAtOnce css)
    (hfirst : ∀ k ∈ Section.keywords, ¬ k <:+: preamble)
    (hupdate : ¬ NamesUpdate (withRule preamble calls css)) :
    extract (withRule preamble calls css) = .ok ⟨preamble, some rule, css⟩ ↔
      ¬ ClosesBefore '\x7b' (Rule.text calls) ∧
        rule = trim (stripComments (' ' :: Rule.text calls)) := by
  obtain ⟨d, mid, htext, hd⟩ := Rule.exists_text_eq hcalls
  have hno : ClosesBefore '\x7b' (Rule.text calls) ↔ ClosesBefore '\x7b' mid := by
    have hd' : d ≠ ')' := by
      rintro rfl
      exact absurd hd (by decide)
    rw [htext, closesBefore_cons_iff, closesBefore_append_close (by decide)]
    simp [hd']
  have hwhole : withRule preamble calls css = preamble ++ "@-moz-document".toList ++
      (' ' :: d :: (mid ++ [')']) ++ " \x7b".toList ++ css ++ ['\x7d']) := by
    rw [withRule, htext]
    simp
  have hnext : ∀ k ∈ Section.keywords,
      ¬ k <+: ' ' :: d :: (mid ++ [')']) ++ " \x7b".toList ++ css ++ ['\x7d'] := by
    intro k hk hpre
    obtain ⟨t, rfl, -⟩ := Section.exists_keyword_eq hk
    exact absurd (List.cons_prefix_cons.1 hpre).1 (by decide)
  rw [hwhole] at hupdate ⊢
  rw [extract_append_eq_ok_iff (by decide) hfirst hupdate (by simp) hnext, hno, htext]
  constructor
  · rintro ⟨list, css', tail, hparts, hrule, hcss⟩
    obtain ⟨hmid, rfl⟩ := (exists_ruleParts?_iff hne hclose).1 ⟨css', tail, hparts, hcss⟩
    exact ⟨hmid, hrule⟩
  · rintro ⟨hmid, hrule⟩
    obtain ⟨css', tail, hparts, hcss⟩ := (exists_ruleParts?_iff hne hclose).2 ⟨hmid, rfl⟩
    exact ⟨_, css', tail, hparts, hrule, hcss⟩

theorem hasComment_blank_cons_iff (hcalls : calls ≠ []) :
    HasComment (' ' :: Rule.text calls) ↔ HasComment (Rule.text calls) := by
  obtain ⟨d, mid, htext, hd⟩ := Rule.exists_text_eq hcalls
  rw [hasComment_cons_iff]
  refine or_iff_right fun h => ?_
  obtain ⟨⟨out, rest⟩, hsome⟩ := Option.ne_none_iff_exists'.1 h
  obtain ⟨⟨b, inside, c, heq, -⟩, -⟩ := isComment_of_comment? hsome
  rw [htext] at heq
  obtain ⟨rfl, -⟩ := List.cons.inj (List.cons.inj heq).2
  exact absurd hd (by decide)

/-- The calls are read from the list exactly when it has no comment and no value looks like
two calls. -/
theorem parse_stripComments_iff (hcalls : calls ≠ []) (hquote : ∀ call ∈ calls, call.IsQuotable) :
    Rule.parse (trim (stripComments (' ' :: Rule.text calls))) = calls ↔
      ¬ HasComment (Rule.text calls) ∧ ∀ call ∈ calls, ¬ ClosesBefore ',' call.value := by
  rw [← Rule.parse_text_iff hcalls hquote, ← hasComment_blank_cons_iff hcalls]
  by_cases hcomment : HasComment (' ' :: Rule.text calls)
  · refine iff_of_false (fun h => ?_) fun h => h.1 hcomment
    have hlt := weight_stripComments_lt hcomment
    have htrim := weight_trim_le (stripComments (' ' :: Rule.text calls))
    have hread := Rule.weight_text_parse_le (h.symm ▸ hcalls)
    rw [h] at hread
    rw [weight_cons_of_blank (by decide)] at hlt
    omega
  · obtain ⟨d, mid, htext, hd⟩ := Rule.exists_text_eq hcalls
    have hlist : trim (stripComments (' ' :: Rule.text calls)) = Rule.text calls := by
      rw [stripComments_eq_self hcomment, trim_cons_of_blank (by decide), htext,
        trim_eq_self (Call.isBlank_of_mem_initials hd) (by decide)]
    rw [hlist]
    simp [hcomment]

/-- A style is taken apart into the calls and the CSS it was made of exactly when no value
looks like the end of the list or of a call, and nothing in the list like a comment. -/
theorem comesApart_iff (hcalls : calls ≠ []) (hquote : ∀ call ∈ calls, call.IsQuotable)
    (hne : css ≠ []) (hclose : ¬ ClosesAtOnce css)
    (hfirst : ∀ k ∈ Section.keywords, ¬ k <:+: preamble)
    (hupdate : ¬ NamesUpdate (withRule preamble calls css)) :
    ComesApart preamble calls css ↔
      (∀ call ∈ calls, ¬ ClosesBefore '\x7b' call.value ∧ ¬ ClosesBefore ',' call.value) ∧
        ¬ HasComment (Rule.text calls) := by
  have hends : ¬ ClosesBefore '\x7b' (Rule.text calls) ↔
      ∀ call ∈ calls, ¬ ClosesBefore '\x7b' call.value := by
    rw [Rule.closesBefore_text_iff (by decide) (by decide)]
    simp
  have hsplit : ComesApart preamble calls css ↔ ¬ ClosesBefore '\x7b' (Rule.text calls) ∧
      Rule.parse (trim (stripComments (' ' :: Rule.text calls))) = calls := by
    simp only [ComesApart, extract_withRule_iff hcalls hne hclose hfirst hupdate]
    constructor
    · rintro ⟨rule, ⟨hno, rfl⟩, hparse⟩
      exact ⟨hno, hparse⟩
    · rintro ⟨hno, hparse⟩
      exact ⟨_, ⟨hno, rfl⟩, hparse⟩
  rw [hsplit, hends, parse_stripComments_iff hcalls hquote]
  constructor
  · rintro ⟨hbrace, hcomment, hcomma⟩
    exact ⟨fun call hcall => ⟨hbrace call hcall, hcomma call hcall⟩, hcomment⟩
  · rintro ⟨hvalues, hcomment⟩
    exact ⟨fun call hcall => (hvalues call hcall).1, hcomment,
      fun call hcall => (hvalues call hcall).2⟩

/-- Calls whose values hold parentheses, braces, commas and what opens and closes comments. -/
def nestedCalls : List Call :=
  [⟨.regexp, "(a|b)\\.com/(c,d)/x\x7b2\x7d".toList⟩, ⟨.url, "http://a.com/*/b".toList⟩]

theorem comesApart_iff_nested :
    nestedCalls ≠ [] ∧ (∀ call ∈ nestedCalls, call.IsQuotable) ∧ "a\x7bb:c\x7d".toList ≠ [] ∧
    ¬ ClosesAtOnce "a\x7bb:c\x7d".toList ∧
    (∀ k ∈ Section.keywords, ¬ k <:+: metadataComment) ∧
    ¬ NamesUpdate (withRule metadataComment nestedCalls "a\x7bb:c\x7d".toList) ∧
    ComesApart metadataComment nestedCalls "a\x7bb:c\x7d".toList := by
  have hcalls : nestedCalls ≠ [] := by decide
  have hquote : ∀ call ∈ nestedCalls, call.IsQuotable := by decide
  have hne : "a\x7bb:c\x7d".toList ≠ [] := by decide
  have hclose : ¬ ClosesAtOnce "a\x7bb:c\x7d".toList := by decide
  have hupdate : ¬ NamesUpdate (withRule metadataComment nestedCalls "a\x7bb:c\x7d".toList) := by
    decide +kernel
  refine ⟨hcalls, hquote, hne, hclose, not_infix_metadataComment, hupdate, ?_⟩
  exact (comesApart_iff hcalls hquote hne hclose not_infix_metadataComment hupdate).2 (by decide)

/-- A repetition, a comma behind a group and a comment, each in a value of its own. -/
def mistakenValues : List Text :=
  ["(ab)\x7b2\x7d".toList, "(a),b".toList, "a /* b */ c".toList]

/-- None of the values is read back, in a style with one keyword and no address for updates. -/
theorem not_comesApart_of_mistaken :
    isNested '\x7b' '\x7d' "a\x7bb:c\x7d".toList = true ∧
    ¬ ClosesAtOnce "a\x7bb:c\x7d".toList ∧
    ∀ value ∈ mistakenValues, (Call.mk .regexp value).IsQuotable ∧
      Section.count (withRule metadataComment [⟨.regexp, value⟩] "a\x7bb:c\x7d".toList) = 2 ∧
      ¬ NamesUpdate (withRule metadataComment [⟨.regexp, value⟩] "a\x7bb:c\x7d".toList) ∧
      ¬ ComesApart metadataComment [⟨.regexp, value⟩] "a\x7bb:c\x7d".toList := by
  decide +kernel

end Document
end StyleScope
