import StyleScope.Proofs.Conversion.Steps
import StyleScope.Proofs.Text.Lookahead
import StyleScope.Proofs.Style.UpdateLines

/-!
# The parts of a style with a scoping rule

Behind its keyword a rule consists of a list of calls, which ends at the first `)` that a
`{` follows, and of the CSS up to the last closing brace of the style
(`Document.ruleParts?_eq_some`).  A style whose keyword is known is taken apart accordingly
(`Document.extract_append_eq_ok_iff`).
-/

namespace StyleScope

open Text

namespace Document

variable {s t rest list css tail : Text}

/-! ## The end of the list -/

theorem afterBrace?_eq_some :
    afterBrace? s = some rest ↔
      ∃ blanks, s = blanks ++ '\x7b' :: rest ∧ allBlank blanks = true := by
  unfold afterBrace?
  constructor
  · intro h
    split at h
    · next r hr =>
      obtain rfl := Option.some.inj h
      refine ⟨s.takeWhile isBlank, ?_, List.all_takeWhile⟩
      rw [← hr, List.takeWhile_append_dropWhile]
    · exact absurd h (by simp)
  · rintro ⟨blanks, rfl, hblanks⟩
    rw [List.dropWhile_append_of_pos fun c hc => isBlank_of_mem hblanks hc,
      List.dropWhile_cons_of_neg (by decide)]
    rfl

theorem listEnd?_eq_some :
    listEnd? s = some rest ↔
      ∃ blanks, s = ')' :: (blanks ++ '\x7b' :: rest) ∧ allBlank blanks = true := by
  unfold listEnd?
  split
  · next t =>
    rw [afterBrace?_eq_some]
    simp
  · next hne =>
    refine iff_of_false (by simp) ?_
    rintro ⟨blanks, rfl, -⟩
    exact hne _ rfl

/-- The list of calls goes on up to a `)` when none in front of it is followed by `{`. -/
theorem passesOver_listEnd?_iff :
    PassesOver listEnd? s (')' :: rest) ↔ ¬ ClosesBefore '\x7b' s := by
  rw [passesOver_iff]
  constructor
  · rintro hpass ⟨x, t, hs, blanks, y, rfl, hblanks⟩
    have hnone := hpass x ')' (blanks ++ '\x7b' :: y) hs
    have hsome : listEnd? (')' :: (blanks ++ '\x7b' :: y) ++ ')' :: rest) =
        some (y ++ ')' :: rest) := listEnd?_eq_some.2 ⟨blanks, by simp, hblanks⟩
    rw [hnone] at hsome
    exact absurd hsome (by simp)
  · intro hno x c y hs
    refine Option.eq_none_iff_forall_ne_some.2 fun r hr => ?_
    obtain ⟨blanks, heq, hblanks⟩ := listEnd?_eq_some.1 hr
    obtain ⟨rfl, hbehind⟩ := List.cons.inj heq
    rcases List.append_eq_append_iff.1 hbehind with ⟨u, rfl, hu⟩ | ⟨u, rfl, hu⟩
    · -- The blanks would have to reach over the `)` behind the text.
      cases u with
      | nil => exact absurd (List.cons.inj hu).1 (by decide)
      | cons d u =>
        obtain ⟨rfl, -⟩ := List.cons.inj hu
        have hclose := isBlank_of_mem hblanks (List.mem_append_right y List.mem_cons_self)
        exact absurd hclose (by decide)
    · cases u with
      | nil => exact absurd (List.cons.inj hu).1 (by decide)
      | cons d u =>
        obtain ⟨rfl, -⟩ := List.cons.inj hu
        exact hno ⟨x, _, hs, blanks, u, rfl, hblanks⟩

/-! ## The end of the CSS -/

theorem splitAtLastBrace?_eq_some :
    splitAtLastBrace? s = some (css, tail) ↔
      s = css ++ '\x7d' :: tail ∧ css ≠ [] ∧ '\x7d' ∉ tail := by
  unfold splitAtLastBrace?
  by_cases hmem : '\x7d' ∈ s
  · obtain ⟨a, b, rfl, hb⟩ := exists_last_of_mem hmem
    have hb' : '\x7d' ∉ b.reverse := fun h => hb (List.mem_reverse.1 h)
    rw [List.reverse_append, List.reverse_cons, List.append_assoc, List.singleton_append,
      takeWhile_ne_append_cons hb', dropWhile_ne_append_cons hb', List.reverse_reverse]
    constructor
    · intro h
      split at h
      · exact absurd h (by simp)
      · next hne =>
        obtain ⟨rfl, rfl⟩ := Prod.mk.inj (Option.some.inj h)
        refine ⟨by simp, fun hnil => hne ?_, hb⟩
        simpa using hnil
    · rintro ⟨heq, hne, htail⟩
      obtain ⟨rfl, rfl⟩ := append_cons_inj_right hb htail heq
      split
      · next hnil => exact absurd (by simpa using hnil) hne
      · simp
  · have hmem' : '\x7d' ∉ s.reverse := fun h => hmem (List.mem_reverse.1 h)
    rw [dropWhile_ne_of_not_mem hmem']
    refine iff_of_false (by simp) ?_
    rintro ⟨rfl, -, -⟩
    exact hmem (List.mem_append_right css List.mem_cons_self)

/-- What is left of a rule around nothing: blanks, then a closing brace. -/
def ClosesAtOnce (css : Text) : Prop :=
  ∃ blanks rest, blanks ≠ [] ∧ allBlank blanks = true ∧ css = blanks ++ '\x7d' :: rest

theorem closesAtOnce_cons_iff {b : Char} :
    ClosesAtOnce (b :: s) ↔ isBlank b = true ∧ ComesNext '\x7d' s := by
  constructor
  · rintro ⟨blanks, rest, hne, hblanks, heq⟩
    obtain ⟨d, blanks, rfl⟩ := List.exists_cons_of_ne_nil hne
    obtain ⟨rfl, rfl⟩ := List.cons.inj heq
    rw [allBlank_cons_iff] at hblanks
    exact ⟨hblanks.1, blanks, rest, rfl, hblanks.2⟩
  · rintro ⟨hb, blanks, rest, rfl, hblanks⟩
    exact ⟨b :: blanks, rest, List.cons_ne_nil b blanks, allBlank_cons_iff.2 ⟨hb, hblanks⟩, rfl⟩

instance : (css : Text) → Decidable (ClosesAtOnce css)
  | [] => isFalse fun ⟨_, _, _, _, heq⟩ => absurd heq.symm (by simp)
  | _ :: _ => decidable_of_iff _ closesAtOnce_cons_iff.symm

theorem afterBlanks?_append {blanks : Text} (hne : blanks ≠ []) (hblanks : allBlank blanks = true)
    {c : Char} (hc : isBlank c = false) : afterBlanks? (blanks ++ c :: t) = some (c :: t) := by
  obtain ⟨b, bs, rfl⟩ := List.exists_cons_of_ne_nil hne
  have hb : isBlank b = true := isBlank_of_mem hblanks List.mem_cons_self
  rw [List.cons_append, afterBlanks?, if_pos hb,
    List.dropWhile_append_of_pos fun d hd => isBlank_of_mem hblanks (List.mem_cons_of_mem b hd),
    List.dropWhile_cons_of_neg (by simp [hc])]

theorem dropEmptyClose_append {blanks : Text} (hne : blanks ≠ [])
    (hblanks : allBlank blanks = true) : dropEmptyClose (blanks ++ '\x7d' :: rest) = rest := by
  rw [dropEmptyClose, afterBlanks?_append hne hblanks (by decide)]
  rfl

theorem dropEmptyClose_eq_self (h : ¬ ClosesAtOnce css) : dropEmptyClose css = css := by
  unfold dropEmptyClose
  split
  · next rest hrest =>
    refine absurd ?_ h
    cases css with
    | nil => exact absurd hrest (by simp [afterBlanks?])
    | cons b bs =>
      rw [afterBlanks?] at hrest
      split at hrest
      · next hb =>
        refine ⟨b :: bs.takeWhile isBlank, rest, List.cons_ne_nil _ _, ?_, ?_⟩
        · exact allBlank_cons_iff.2 ⟨hb, List.all_takeWhile⟩
        · rw [← Option.some.inj hrest, List.cons_append, List.takeWhile_append_dropWhile]
      · exact absurd hrest (by simp)
  · rfl

/-! ## The whole rule -/

theorem ruleParts?_eq_some :
    ruleParts? s = some (list, css, tail) ↔
      ∃ b c mid blanks,
        s = b :: c :: (mid ++ ')' :: (blanks ++ '\x7b' :: (css ++ '\x7d' :: tail))) ∧
        isBlank b = true ∧ allBlank blanks = true ∧ ¬ ClosesBefore '\x7b' mid ∧ css ≠ [] ∧
        '\x7d' ∉ tail ∧ list = b :: c :: (mid ++ [')']) := by
  constructor
  · intro h
    unfold ruleParts? at h
    split at h
    · next b c t =>
      split at h
      · next hb =>
        obtain ⟨⟨mid, rest⟩, hmid, h⟩ := Option.bind_eq_some_iff.1 h
        obtain ⟨⟨css', tail'⟩, hcss, h⟩ := Option.bind_eq_some_iff.1 h
        simp only [Option.pure_def, Option.some.injEq, Prod.mk.injEq] at h
        obtain ⟨rfl, rfl, rfl⟩ := h
        obtain ⟨r, rfl, hpass, hr⟩ := find?_eq_some_iff.1 hmid
        obtain ⟨blanks, rfl, hblanks⟩ := listEnd?_eq_some.1 hr
        obtain ⟨rfl, hne, htail⟩ := splitAtLastBrace?_eq_some.1 hcss
        exact ⟨b, c, mid, blanks, rfl, hb, hblanks, passesOver_listEnd?_iff.1 hpass, hne, htail,
          rfl⟩
      · exact absurd h (by simp)
    · exact absurd h (by simp)
  · rintro ⟨b, c, mid, blanks, rfl, hb, hblanks, hno, hne, htail, rfl⟩
    have hmid : find? listEnd? (mid ++ ')' :: (blanks ++ '\x7b' :: (css ++ '\x7d' :: tail))) =
        some (mid, css ++ '\x7d' :: tail) :=
      find?_eq_some_iff.2 ⟨_, rfl, passesOver_listEnd?_iff.2 hno,
        listEnd?_eq_some.2 ⟨blanks, rfl, hblanks⟩⟩
    have hcss : splitAtLastBrace? (css ++ '\x7d' :: tail) = some (css, tail) :=
      splitAtLastBrace?_eq_some.2 ⟨rfl, hne, htail⟩
    simp [ruleParts?, hb, hmid, hcss]

/-- A style is taken apart behind its first keyword. -/
theorem extract_append_eq_ok_iff {preamble keyword after rule body : Text}
    (hkeyword : keyword ∈ Section.keywords)
    (hfirst : ∀ k ∈ Section.keywords, ¬ k <:+: preamble)
    (hupdate : ¬ NamesUpdate (preamble ++ keyword ++ after))
    (hafter : after ≠ []) (hnext : ∀ k ∈ Section.keywords, ¬ k <+: after) :
    extract (preamble ++ keyword ++ after) = .ok ⟨preamble, some rule, body⟩ ↔
      ∃ list css tail, ruleParts? after = some (list, css, tail) ∧
        rule = trim (stripComments list) ∧ body = dropEmptyClose css ++ tail := by
  rw [extract_eq_ok_iff, stripUpdateLines_eq_self hupdate]
  have hscoped : Section.isGlobal (preamble ++ keyword ++ after) = false :=
    Section.isGlobal_eq_false_iff.2 ⟨preamble, keyword, after, rfl, hkeyword, hfirst, hafter, hnext⟩
  rw [hscoped]
  constructor
  · rintro (⟨hglobal, -⟩ | ⟨-, preamble', list, css, tail, hfound, hdoc⟩)
    · exact absurd hglobal (by simp)
    · obtain ⟨rfl, hrule, rfl⟩ := Document.mk.inj hdoc
      obtain ⟨t, ht, hparts⟩ := find?_some hfound
      rw [List.append_assoc] at ht
      obtain rfl := List.append_cancel_left ht
      rw [Section.afterKeyword?_eq_some.2 ⟨keyword, hkeyword, rfl⟩] at hparts
      exact ⟨list, css, tail, hparts, Option.some.inj hrule, rfl⟩
  · rintro ⟨list, css, tail, hparts, rfl, rfl⟩
    refine Or.inr ⟨rfl, preamble, list, css, tail, ?_, rfl⟩
    exact find?_bind (Section.find?_afterKeyword?_eq_some.2 ⟨keyword, hkeyword, rfl, hfirst⟩) hparts

def metadataComment : Text :=
  "/* ==UserStyle==\n".toList ++ "@name x\n".toList ++ "==/UserStyle== */\n".toList

theorem not_infix_metadataComment : ∀ k ∈ Section.keywords, ¬ k <:+: metadataComment :=
  Section.find?_afterKeyword?_eq_none_iff.1 (by decide)

end Document
end StyleScope
