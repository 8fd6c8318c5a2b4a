import StyleScope.Pattern.Coverage

/-!
# What a glob matches

`Glob.Matches` read from the side of the glob: each of its parts takes a piece of
the text, and the pieces follow each other.
-/

namespace StyleScope
namespace Glob

theorem matches_nil_iff {s : Text} : Matches [] s ↔ s = [] := by
  constructor
  · rintro ⟨⟩
    rfl
  · rintro rfl
    exact .nil

theorem matches_cons_iff {c : Char} (h : c ≠ '*') {glob s : Text} :
    Matches (c :: glob) s ↔ ∃ t, s = c :: t ∧ Matches glob t := by
  constructor
  · intro hm
    cases hm with
    | literal _ hs => exact ⟨_, rfl, hs⟩
    | star _ _ => exact absurd rfl h
  · rintro ⟨t, rfl, ht⟩
    exact .literal h ht

theorem matches_star_iff {glob s : Text} :
    Matches ('*' :: glob) s ↔ ∃ t u, s = t ++ u ∧ Matches glob u := by
  constructor
  · intro hm
    cases hm with
    | literal h _ => exact absurd rfl h
    | star t hs => exact ⟨t, _, rfl, hs⟩
  · rintro ⟨t, u, rfl, hu⟩
    exact .star t hu

theorem matches_singleton_star (s : Text) : Matches ['*'] s :=
  matches_star_iff.2 ⟨s, [], (List.append_nil s).symm, .nil⟩

theorem matches_append_iff {g h s : Text} :
    Matches (g ++ h) s ↔ ∃ t u, s = t ++ u ∧ Matches g t ∧ Matches h u := by
  constructor
  · intro hm
    induction g generalizing s with
    | nil => exact ⟨[], s, rfl, .nil, hm⟩
    | cons c g ih =>
      rw [List.cons_append] at hm
      cases hm with
      | literal hc hs =>
        obtain ⟨t, u, rfl, ht, hu⟩ := ih hs
        exact ⟨c :: t, u, rfl, .literal hc ht, hu⟩
      | star v hs =>
        obtain ⟨t, u, rfl, ht, hu⟩ := ih hs
        exact ⟨v ++ t, u, (List.append_assoc v t u).symm, .star v ht, hu⟩
  · rintro ⟨t, u, rfl, ht, hu⟩
    exact matches_append ht hu

/-- Without `*` a glob matches the text that it is, and nothing else. -/
theorem matches_iff_eq {glob s : Text} (h : '*' ∉ glob) : Matches glob s ↔ s = glob := by
  constructor
  · exact eq_of_matches h
  · rintro rfl
    exact matches_self h

theorem matches_literal_append_iff {w glob s : Text} (h : '*' ∉ w) :
    Matches (w ++ glob) s ↔ ∃ t, s = w ++ t ∧ Matches glob t := by
  rw [matches_append_iff]
  constructor
  · rintro ⟨v, t, rfl, hv, ht⟩
    exact ⟨t, by rw [eq_of_matches h hv], ht⟩
  · rintro ⟨t, rfl, ht⟩
    exact ⟨w, t, rfl, matches_self h, ht⟩

/-- A glob of the form `w*` matches what starts with `w`. -/
theorem matches_append_star_iff {w s : Text} (h : '*' ∉ w) : Matches (w ++ ['*']) s ↔ w <+: s := by
  rw [matches_literal_append_iff h]
  constructor
  · rintro ⟨t, rfl, _⟩
    exact List.prefix_append w t
  · rintro ⟨t, rfl⟩
    exact ⟨t, rfl, matches_singleton_star t⟩

/-- A character of a glob that stands for itself is in every text that matches. -/
theorem mem_of_matches {glob s : Text} {c : Char} (h : Matches glob s) (hc : c ∈ glob)
    (hne : c ≠ '*') : c ∈ s := by
  induction h with
  | nil => exact hc
  | literal _ _ ih =>
    rcases List.mem_cons.1 hc with rfl | hc
    · exact List.mem_cons_self
    · exact List.mem_cons_of_mem _ (ih hc)
  | star t _ ih => exact List.mem_append_right t (ih ((List.mem_cons.1 hc).resolve_left hne))

/-- Of adjacent stars one is enough. -/
theorem matches_star_star_iff {glob s : Text} :
    Matches ('*' :: '*' :: glob) s ↔ Matches ('*' :: glob) s := by
  constructor
  · intro hm
    obtain ⟨t, u, rfl, hu⟩ := matches_star_iff.1 hm
    obtain ⟨v, w, rfl, hw⟩ := matches_star_iff.1 hu
    exact matches_star_iff.2 ⟨t ++ v, w, (List.append_assoc t v w).symm, hw⟩
  · intro hm
    exact matches_star_iff.2 ⟨[], s, rfl, hm⟩

end Glob
end StyleScope
