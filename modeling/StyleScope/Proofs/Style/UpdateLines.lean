import StyleScope.Style.Document
import StyleScope.Proofs.Text.Search
import StyleScope.Proofs.Text.Substitution

/-!
# Texts without addresses for updates

A text that mentions none of the keywords for such an address is left as it is
(`Document.stripUpdateLines_eq_self`).  A keyword starts with its only `@` and goes on with
letters, so a text is free of them when its parts are.
-/

namespace StyleScope
namespace Document

open Text

def updateKeywords : List Text :=
  ["@downloadurl".toList, "@installurl".toList, "@updateurl".toList]

def NamesUpdate (s : Text) : Prop := ∃ word ∈ updateKeywords, Mentions word s

instance (s : Text) : Decidable (NamesUpdate s) :=
  inferInstanceAs (Decidable (∃ word ∈ updateKeywords, Mentions word s))

variable {s t keyword keyword' rest rest' : Text}

theorem NamesUpdate.mono (h : NamesUpdate s) (hst : s <:+: t) : NamesUpdate t := by
  obtain ⟨word, hword, hmentions⟩ := h
  exact ⟨word, hword, hmentions.mono hst⟩

/-! ## Where a keyword is recognised -/

def IsUpdateKeyword (s : Text) : Prop := s.map foldCase ∈ updateKeywords

instance (s : Text) : Decidable (IsUpdateKeyword s) :=
  inferInstanceAs (Decidable (_ ∈ updateKeywords))

theorem IsUpdateKeyword.newline_not_mem (h : IsUpdateKeyword keyword) : '\n' ∉ keyword := by
  have hall : ∀ word ∈ updateKeywords, foldCase '\n' ∉ word := by decide
  exact fun hmem => hall _ h (List.mem_map_of_mem hmem)

theorem IsUpdateKeyword.ne_nil (h : IsUpdateKeyword keyword) : keyword ≠ [] := by
  rintro rfl
  exact absurd h (by decide)

/-- No keyword is the start of another one. -/
theorem IsUpdateKeyword.append_inj (h : IsUpdateKeyword keyword) (h' : IsUpdateKeyword keyword')
    (heq : keyword ++ rest = keyword' ++ rest') : keyword = keyword' ∧ rest = rest' := by
  have hapart : ∀ word ∈ updateKeywords, ∀ word' ∈ updateKeywords, word <+: word' →
      word = word' := by decide
  have hfold : keyword.map foldCase = keyword'.map foldCase := by
    have hl : keyword.map foldCase <+: (keyword ++ rest).map foldCase :=
      (List.prefix_append keyword rest).map foldCase
    have hr : keyword'.map foldCase <+: (keyword ++ rest).map foldCase :=
      heq ▸ (List.prefix_append keyword' rest').map foldCase
    rcases List.prefix_or_prefix_of_prefix hl hr with hpre | hpre
    · exact hapart _ h _ h' hpre
    · exact (hapart _ h' _ h hpre).symm
  exact List.append_inj heq (by simpa using congrArg List.length hfold)

theorem afterUpdateKeyword?_eq_some :
    afterUpdateKeyword? s = some rest ↔
      ∃ keyword, IsUpdateKeyword keyword ∧ s = keyword ++ rest := by
  have hsound : ∀ r, afterUpdateKeyword? s = some r →
      ∃ keyword, IsUpdateKeyword keyword ∧ s = keyword ++ r := by
    intro r h
    rw [afterUpdateKeyword?, Option.or_eq_some_iff, Option.or_eq_some_iff] at h
    rcases h with h | ⟨-, h | ⟨-, h⟩⟩ <;>
    · obtain ⟨keyword, hs, hfold⟩ := afterFolded?_eq_some.1 h
      refine ⟨keyword, ?_, hs⟩
      rw [IsUpdateKeyword, hfold]
      decide
  constructor
  · exact hsound rest
  · rintro ⟨keyword, hkeyword, hs⟩
    cases hr : afterUpdateKeyword? s with
    | some r =>
      obtain ⟨keyword', hkeyword', hs'⟩ := hsound r hr
      rw [(hkeyword'.append_inj hkeyword (hs'.symm.trans hs)).2]
    | none =>
      have hnone : ∀ word ∈ updateKeywords, afterFolded? word s = none := by
        rw [afterUpdateKeyword?, Option.or_eq_none_iff, Option.or_eq_none_iff] at hr
        simp only [updateKeywords, List.forall_mem_cons]
        exact ⟨hr.1, hr.2.1, hr.2.2, fun _ h => absurd h List.not_mem_nil⟩
      have hsome := afterFolded?_eq_some.2 ⟨keyword, hs, rfl⟩
      rw [hnone _ hkeyword] at hsome
      exact absurd hsome (by simp)

theorem IsUpdateKeyword.namesUpdate_append (h : IsUpdateKeyword keyword) :
    NamesUpdate (keyword ++ rest) :=
  ⟨_, h, mentions_iff_exists_spelling.2 ⟨[], keyword, rest, rfl, rfl⟩⟩

theorem afterUpdateKeyword?_eq_none (h : ¬ NamesUpdate s) : afterUpdateKeyword? s = none := by
  refine Option.eq_none_iff_forall_ne_some.2 fun rest hrest => ?_
  obtain ⟨keyword, hkeyword, rfl⟩ := afterUpdateKeyword?_eq_some.1 hrest
  exact h hkeyword.namesUpdate_append

theorem stripUpdateLines_eq_self (h : ¬ NamesUpdate s) : stripUpdateLines s = s := by
  refine substituteAll_eq_self fun t ht => ?_
  rw [updateLine?, afterUpdateKeyword?_eq_none fun hnames => h (hnames.mono ht.isInfix)]
  rfl

/-! ## Putting texts together -/

theorem namesUpdate_append_cons_iff {c : Char} (hc : ∀ word ∈ updateKeywords, foldCase c ∉ word) :
    NamesUpdate (s ++ c :: t) ↔ NamesUpdate s ∨ NamesUpdate t := by
  constructor
  · rintro ⟨word, hword, h⟩
    rcases (mentions_append_cons_iff (hc word hword)).1 h with h | h
    · exact Or.inl ⟨word, hword, h⟩
    · exact Or.inr ⟨word, hword, h⟩
  · rintro (h | h)
    · exact h.mono (List.prefix_append s (c :: t)).isInfix
    · exact h.mono ((List.suffix_cons c t).trans (List.suffix_append s (c :: t))).isInfix

/-- No keyword starts in a text without `@`. -/
theorem NamesUpdate.of_append (hs : '@' ∉ s) (h : NamesUpdate (s ++ t)) : NamesUpdate t := by
  obtain ⟨word, hword, hmentions⟩ := h
  have hall : ∀ word ∈ updateKeywords, word = '@' :: word.tail := by decide
  rw [hall word hword] at hmentions
  refine ⟨word, hword, ?_⟩
  rw [hall word hword]
  refine hmentions.of_append fun c hc hat => hs ?_
  exact eq_of_foldCase_eq (by decide) hat ▸ hc

/-- No keyword ends with `@`. -/
theorem NamesUpdate.of_append_at (h : NamesUpdate (s ++ ['@'])) : NamesUpdate s := by
  obtain ⟨word, hword, hmentions⟩ := h
  have hall : ∀ word ∈ updateKeywords, word = word.dropLast ++ ['l'] := by decide
  rw [hall word hword] at hmentions
  refine ⟨word, hword, ?_⟩
  rw [hall word hword]
  exact hmentions.of_append_right (by decide)

end Document
end StyleScope
