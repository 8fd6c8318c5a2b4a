import StyleScope.Proofs.Style.Extraction

/-!
# The parts of a style

A style that is taken apart falls into six parts that make it up without a gap: the text
in front of the rule, the keyword, the list of calls, blanks, the CSS between the braces
and the text behind them.  The list is the shortest possible and the CSS the longest.
`exists_parts_of_extract` says so, and what of the parts is kept.
-/

namespace StyleScope
namespace Document

open Text

/-- A style, cut at its scoping rule. -/
structure Parts where
  preamble : Text
  keyword : Text
  list : Text
  blanks : Text
  css : Text
  tail : Text

namespace Parts

variable {p : Parts}

def behindList (p : Parts) : Text := p.blanks ++ '\x7b' :: (p.css ++ '\x7d' :: p.tail)

def text (p : Parts) : Text := p.preamble ++ p.keyword ++ (p.list ++ p.behindList)

/-- The rule is one that can be read.  The list ends at the first parenthesis, behind its
first two characters, that a brace follows, and the CSS ends at the last brace. -/
structure WellFormed (p : Parts) : Prop where
  keyword : p.keyword ∈ Section.keywords
  list_head : ∃ b t, p.list = b :: t ∧ isBlank b = true
  list_last : p.list.getLast? = some ')'
  list_shortest : ∀ front behind, p.list = front ++ behind → behind ≠ [] → 3 ≤ front.length →
    front.getLast? = some ')' → ¬ ComesNext '\x7b' (behind ++ p.behindList)
  blanks : allBlank p.blanks = true
  css : p.css ≠ []
  tail : '\x7d' ∉ p.tail

/-- What becomes of the parts.  The CSS loses blanks and a closing brace at its start, which
are what is left of a rule around nothing. -/
structure Yields (p : Parts) (preamble rule body : Text) : Prop where
  preamble : preamble = p.preamble
  rule : rule = trim (stripComments p.list)
  body_of_closes : ∀ blanks rest, blanks ≠ [] → allBlank blanks = true →
    p.css = blanks ++ '\x7d' :: rest → body = rest ++ p.tail
  body_of_not_closes : ¬ ClosesAtOnce p.css → body = p.css ++ p.tail

theorem yields_dropEmptyClose (p : Parts) :
    p.Yields p.preamble (trim (stripComments p.list)) (dropEmptyClose p.css ++ p.tail) where
  preamble := rfl
  rule := rfl
  body_of_closes := by
    intro blanks rest hne hblanks hcss
    rw [hcss, dropEmptyClose_append hne hblanks]
  body_of_not_closes := fun h => by rw [dropEmptyClose_eq_self h]

/-- Without another keyword in the style there is none in its parts. -/
theorem not_infix_of_hasOneKeyword (hp : p.WellFormed) (h : Section.HasOneKeyword p.text) :
    ∀ s ∈ [p.preamble, p.css, p.tail], ∀ k ∈ Section.keywords, ¬ k <:+: s := by
  obtain ⟨hbefore, hafter⟩ := (Section.hasOneKeyword_append_iff hp.keyword).1 h
  have hcss : p.css <:+: p.list ++ p.behindList :=
    ⟨p.list ++ (p.blanks ++ ['\x7b']), '\x7d' :: p.tail, by simp [behindList]⟩
  have htail : p.tail <:+: p.list ++ p.behindList :=
    ⟨p.list ++ (p.blanks ++ '\x7b' :: (p.css ++ ['\x7d'])), [], by simp [behindList]⟩
  intro s hs k hk hsub
  simp only [List.mem_cons, List.not_mem_nil, or_false] at hs
  rcases hs with rfl | rfl | rfl
  · exact hbefore k hk hsub
  · exact hafter k hk (hsub.trans hcss)
  · exact hafter k hk (hsub.trans htail)

end Parts

/-- A list that is read up to its first end has no shorter one in front of it. -/
theorem not_comesNext_of_front {b c : Char} {mid front behind t : Text}
    (hmid : ¬ ClosesBefore '\x7b' mid) (hlist : b :: c :: (mid ++ [')']) = front ++ behind)
    (hne : behind ≠ []) (hlen : 3 ≤ front.length) (hlast : front.getLast? = some ')') :
    ¬ ComesNext '\x7b' (behind ++ t) := by
  obtain ⟨front, rfl⟩ := List.getLast?_eq_some_iff.1 hlast
  obtain ⟨behind, last, rfl⟩ := (List.eq_nil_or_concat behind).resolve_left hne
  have hcut : b :: c :: mid ++ [')'] = front ++ ')' :: behind ++ [last] := by simpa using hlist
  obtain ⟨hfront, hclose⟩ := List.append_inj' hcut rfl
  obtain rfl := (List.cons.inj hclose).1
  match front, hfront, hlen with
  | [], _, hlen => exact absurd hlen (by simp)
  | [_], _, hlen => exact absurd hlen (by simp)
  | _ :: _ :: front, hfront, _ =>
    intro hnext
    have hmid' : mid = front ++ ')' :: behind := (List.cons.inj (List.cons.inj hfront).2).2
    have hsplit : behind.concat ')' ++ t = behind ++ ')' :: t := by simp
    rw [hsplit, comesNext_append_cons_iff (by decide) (by decide)] at hnext
    exact hmid ⟨front, behind, hmid', hnext⟩

/-- Nothing of a style is lost but the keyword, the braces of the rule, the blanks and
comments of its list, and the brace of a rule around nothing. -/
theorem exists_parts_of_extract {style rule : Text} {doc : Document}
    (h : extract style = .ok doc) (hrule : doc.rule = some rule) :
    ∃ p : Parts, stripUpdateLines style = p.text ∧ p.WellFormed ∧
      p.Yields doc.preamble rule doc.body ∧
      doc.text = doc.preamble ++ doc.body ++
        (if (doc.preamble ++ doc.body).count '\x7d' < (doc.preamble ++ doc.body).count '\x7b' then
          ['\x7d'] else []) ∧
      (Section.HasOneKeyword (stripUpdateLines style) →
        ∀ s ∈ [p.preamble, p.css, p.tail], ∀ k ∈ Section.keywords, ¬ k <:+: s) := by
  rcases extract_eq_ok_iff.1 h with ⟨-, rfl⟩ | ⟨-, preamble, list, css, tail, hfound, rfl⟩
  · exact absurd hrule (by simp)
  · obtain rfl := Option.some.inj hrule
    obtain ⟨t, ht, hparts⟩ := find?_some hfound
    obtain ⟨after, hkeyword, hafter⟩ := Option.bind_eq_some_iff.1 hparts
    obtain ⟨keyword, hk, rfl⟩ := Section.afterKeyword?_eq_some.1 hkeyword
    obtain ⟨b, c, mid, blanks, rfl, hb, hblanks, hmid, hcss, htail, rfl⟩ :=
      ruleParts?_eq_some.1 hafter
    let p : Parts := ⟨preamble, keyword, b :: c :: (mid ++ [')']), blanks, css, tail⟩
    have htext : stripUpdateLines style = p.text := by
      rw [ht]
      simp [p, Parts.text, Parts.behindList]
    have hp : p.WellFormed :=
      { keyword := hk
        list_head := ⟨b, _, rfl, hb⟩
        list_last := List.getLast?_eq_some_iff.2 ⟨b :: c :: mid, rfl⟩
        list_shortest := fun front behind hlist => not_comesNext_of_front hmid hlist
        blanks := hblanks
        css := hcss
        tail := htail }
    refine ⟨p, htext, hp, p.yields_dropEmptyClose, ?_, fun hone => ?_⟩
    · show balance _ = _
      unfold balance
      split <;> simp
    · exact Parts.not_infix_of_hasOneKeyword hp (htext ▸ hone)

/-- A parenthesis in the list that no brace follows, and a brace left open. -/
theorem exists_parts_of_extract_open_brace :
    let style := "/**/@document url(a)),b(c)".toList ++ " \x7bp\x7bq:r\x7d /* end */".toList
    let rule := "url(a)),b(c)".toList
    let doc : Document := ⟨"/**/".toList, some rule, "p\x7bq:r /* end */".toList⟩
    extract style = .ok doc ∧ doc.rule = some rule ∧
      Section.HasOneKeyword (stripUpdateLines style) ∧
      ∃ p : Parts, stripUpdateLines style = p.text ∧ p.WellFormed ∧
        p.Yields doc.preamble rule doc.body ∧
        doc.text = doc.preamble ++ doc.body ++
          (if (doc.preamble ++ doc.body).count '\x7d' <
              (doc.preamble ++ doc.body).count '\x7b' then ['\x7d'] else []) ∧
        (Section.HasOneKeyword (stripUpdateLines style) →
          ∀ s ∈ [p.preamble, p.css, p.tail], ∀ k ∈ Section.keywords, ¬ k <:+: s) := by
  intro style rule doc
  have hextract : extract style = .ok doc := rfl
  have hrule : doc.rule = some rule := rfl
  exact ⟨hextract, hrule, by decide, exists_parts_of_extract hextract hrule⟩

end Document
end StyleScope
