import StyleScope.Proofs.Regexp.Expansion
import StyleScope.Proofs.Regexp.Wildcards
import StyleScope.Regexp.Globs

/-!
# From pieces to globs

Before it branches, a text has its wildcards collapsed, and every branch is collapsed
again.  Both leave the groups alone, so the globs of a sequence of pieces are its choices
with the wildcards collapsed (`globs?_of_pieces`), as long as the limits allow it.
-/

namespace StyleScope
namespace Regexp

open Text Nested

theorem collapse_collapse (s : Text) :
    collapseWildcards (collapseWildcards s) = collapseWildcards s := by
  have happ := collapse_collapse_append s []
  rwa [List.append_nil, List.append_nil] at happ

theorem collapse_ne_nil {s : Text} (h : s ≠ []) : collapseWildcards s ≠ [] := by
  induction s with
  | nil => exact absurd rfl h
  | cons c s ih =>
    rw [collapseWildcards_cons]
    split
    · next hwild =>
      refine ih ?_
      rintro rfl
      simp [startsWild] at hwild
    · exact List.cons_ne_nil c _

/-- What is joined may be collapsed in advance. -/
theorem map_collapse_joined (ss ts : List Text) :
    (joined ss (ts.map collapseWildcards)).map collapseWildcards =
      (joined ss ts).map collapseWildcards := by
  unfold joined
  rw [List.map_flatMap, List.map_flatMap]
  congr 1
  funext s
  rw [List.map_map, List.map_map, List.map_map]
  refine List.map_congr_left fun t _ => ?_
  exact collapse_append_congr_right s (collapse_collapse t)

theorem isResidual_iff {c : Char} : isResidual c = true ↔ c ∈ ['(', ')', '|', '\\'] := by
  simp [isResidual, or_assoc]

namespace Piece

/-- A piece that a glob may be made of, apart from the parentheses and bars of its group. -/
def Clean : Piece → Prop
  | .char c => isResidual c = false
  | .group words => 2 ≤ words.length ∧ ∀ w ∈ words, w ≠ [] ∧
      ∀ c ∈ w, isResidual c = false ∧ isWildcard c = false ∧ c ≠ '\n'

theorem Clean.wellFormed {p : Piece} (h : p.Clean) : p.WellFormed := by
  cases p with
  | char c =>
    have hc : isResidual c = false := h
    refine ⟨?_, ?_⟩ <;> rintro rfl <;> exact absurd hc (by decide)
  | group words =>
    refine ⟨h.1, fun w hw => ⟨(h.2 w hw).1, fun c hc hmem => ?_⟩⟩
    obtain ⟨hres, -, hline⟩ := (h.2 w hw).2 c hc
    have hor : c = '(' ∨ c = ')' ∨ c = '|' ∨ c = '\n' := by simpa using hmem
    rcases hor with rfl | rfl | rfl | rfl
    · exact absurd hres (by decide)
    · exact absurd hres (by decide)
    · exact absurd hres (by decide)
    · exact hline rfl

def startsWild : List Piece → Bool
  | .char c :: _ => isWildcard c
  | _ => false

/-- Of adjacent wildcards the last one stays. -/
def collapsed : List Piece → List Piece
  | [] => []
  | .char c :: ps =>
    if isWildcard c && startsWild ps then collapsed ps else .char c :: collapsed ps
  | .group words :: ps => .group words :: collapsed ps

theorem mem_of_mem_collapsed {p : Piece} {ps : List Piece} (h : p ∈ collapsed ps) : p ∈ ps := by
  induction ps with
  | nil => exact h
  | cons q ps ih =>
    cases q with
    | char c =>
      rw [collapsed] at h
      split at h
      · exact List.mem_cons_of_mem _ (ih h)
      · exact List.mem_cons.2 ((List.mem_cons.1 h).imp_right ih)
    | group words => exact List.mem_cons.2 ((List.mem_cons.1 h).imp_right ih)

theorem startsWild_sequenceText (ps : List Piece) :
    Regexp.startsWild (sequenceText ps) = startsWild ps := by
  cases ps with
  | nil => rfl
  | cons p ps => cases p <;> rfl

theorem not_wild_text_group {words : List Text} (h : (group words).Clean) :
    ∀ c ∈ text (.group words), isWildcard c = false := by
  intro c hc
  have hor : c = '(' ∨ c ∈ List.intercalate ['|'] words ∨ c = ')' := by
    simpa [text] using hc
  rcases hor with rfl | hmem | rfl
  · rfl
  · obtain rfl | ⟨w, hw, hcw⟩ := mem_intercalate hmem
    · rfl
    · exact ((h.2 w hw).2 c hcw).2.1
  · rfl

/-- The text of the collapsed sequence is the collapsed text. -/
theorem sequenceText_collapsed {ps : List Piece} (hps : ∀ p ∈ ps, p.Clean) :
    sequenceText (collapsed ps) = collapseWildcards (sequenceText ps) := by
  induction ps with
  | nil => rfl
  | cons p ps ih =>
    have hrest := ih fun q hq => hps q (List.mem_cons_of_mem p hq)
    have hp := hps p List.mem_cons_self
    cases p with
    | char c =>
      show _ = collapseWildcards (c :: sequenceText ps)
      rw [collapsed, collapseWildcards_cons, startsWild_sequenceText, ← hrest]
      split <;> rfl
    | group words =>
      rw [collapsed, sequenceText_cons, sequenceText_cons, hrest,
        collapse_append_of_forall_not_wild (not_wild_text_group hp)]

theorem groupCount_collapsed (ps : List Piece) : groupCount (collapsed ps) = groupCount ps := by
  induction ps with
  | nil => rfl
  | cons p ps ih =>
    cases p with
    | char c =>
      rw [collapsed, groupCount]
      split
      · exact ih
      · exact ih
    | group words => rw [collapsed, groupCount, groupCount, ih]

theorem map_collapse_choices_cons (p : Piece) (ps : List Piece) :
    (choices (p :: ps)).map collapseWildcards =
      (joined p.words ((choices ps).map collapseWildcards)).map collapseWildcards :=
  (map_collapse_joined p.words (choices ps)).symm

/-- A wildcard in front of another one makes no difference to the collapsed choices. -/
theorem map_collapse_choices_wild {c : Char} {ps : List Piece} (hc : isWildcard c = true)
    (hps : startsWild ps = true) :
    (choices (.char c :: ps)).map collapseWildcards = (choices ps).map collapseWildcards := by
  cases ps with
  | nil => exact absurd hps Bool.false_ne_true
  | cons q ps =>
    cases q with
    | group words => exact absurd hps Bool.false_ne_true
    | char d =>
      have hd : isWildcard d = true := hps
      have hdrop : ∀ w : Text, collapseWildcards (c :: d :: w) = collapseWildcards (d :: w) := by
        intro w
        rw [collapseWildcards, hc, hd]
        rfl
      show (joined [[c]] (joined [[d]] (choices ps))).map collapseWildcards =
        (joined [[d]] (choices ps)).map collapseWildcards
      rw [joined_singleton_left, joined_singleton_left, List.map_map, List.map_map, List.map_map]
      exact List.map_congr_left fun w _ => hdrop w

/-- Collapsing a sequence in advance keeps its choices, once they are collapsed. -/
theorem map_collapse_choices_collapsed (ps : List Piece) :
    (choices (collapsed ps)).map collapseWildcards = (choices ps).map collapseWildcards := by
  induction ps with
  | nil => rfl
  | cons p ps ih =>
    cases p with
    | char c =>
      rw [collapsed]
      split
      · next h =>
        rw [Bool.and_eq_true] at h
        rw [ih, map_collapse_choices_wild h.1 h.2]
      · rw [map_collapse_choices_cons, ih, ← map_collapse_choices_cons]
    | group words =>
      rw [collapsed, map_collapse_choices_cons, ih, ← map_collapse_choices_cons]

theorem length_choices_collapsed (ps : List Piece) :
    (choices (collapsed ps)).length = (choices ps).length := by
  have hlen := congrArg List.length (map_collapse_choices_collapsed ps)
  rwa [List.length_map, List.length_map] at hlen

/-! ## What is left in the branches -/

/-- With fewer rounds than groups every branch keeps a group. -/
theorem open_mem_of_mem_resolved {n : Nat} {ps : List Piece} (h : n < groupCount ps) :
    ∀ w ∈ resolved n ps, '(' ∈ w := by
  induction ps generalizing n with
  | nil => exact absurd h (Nat.not_lt_zero n)
  | cons p ps ih =>
    intro w hw
    cases p with
    | char c =>
      rw [resolved_char, mem_joined] at hw
      obtain ⟨s, -, t, ht, rfl⟩ := hw
      exact List.mem_append_right s (ih h t ht)
    | group words =>
      cases n with
      | zero =>
        obtain ⟨s, hs, t, -, rfl⟩ := mem_joined.1 hw
        rw [List.mem_singleton.1 hs]
        exact List.mem_append_left t List.mem_cons_self
      | succ n =>
        obtain ⟨s, -, t, ht, rfl⟩ := mem_joined.1 hw
        rw [groupCount] at h
        exact List.mem_append_right s (ih (by omega) t ht)

/-- The characters of a choice are those of the words it is made of. -/
theorem exists_word_of_mem_choices {ps : List Piece} {w : Text} (hw : w ∈ choices ps) {c : Char}
    (hc : c ∈ w) : ∃ p ∈ ps, ∃ v ∈ p.words, c ∈ v := by
  induction ps generalizing w with
  | nil =>
    rw [List.mem_singleton.1 hw] at hc
    exact absurd hc List.not_mem_nil
  | cons p ps ih =>
    obtain ⟨s, hs, t, ht, rfl⟩ := mem_joined.1 hw
    rcases List.mem_append.1 hc with hc | hc
    · exact ⟨p, List.mem_cons_self, s, hs, hc⟩
    · obtain ⟨q, hq, v, hv, hcv⟩ := ih ht hc
      exact ⟨q, List.mem_cons_of_mem p hq, v, hv, hcv⟩

theorem not_residual_of_mem_choices {ps : List Piece} (hps : ∀ p ∈ ps, p.Clean) :
    ∀ w ∈ choices ps, ∀ c ∈ w, isResidual c = false := by
  intro w hw c hc
  obtain ⟨p, hp, v, hv, hcv⟩ := exists_word_of_mem_choices hw hc
  have hclean := hps p hp
  cases p with
  | char d =>
    rw [List.mem_singleton.1 hv, List.mem_singleton] at hcv
    rw [hcv]
    exact hclean
  | group words => exact ((hclean.2 v hv).2 c hcv).1

theorem ne_nil_of_mem_choices {ps : List Piece} (hps : ∀ p ∈ ps, p.Clean) (hne : ps ≠ []) :
    ∀ w ∈ choices ps, w ≠ [] := by
  obtain ⟨p, ps, rfl⟩ := List.exists_cons_of_ne_nil hne
  intro w hw
  obtain ⟨s, hs, t, -, rfl⟩ := mem_joined.1 hw
  have hsne : s ≠ [] := by
    cases p with
    | char c =>
      rw [List.mem_singleton.1 hs]
      exact List.cons_ne_nil c []
    | group words => exact ((hps _ List.mem_cons_self).2 s hs).1
  exact fun h => hsne (List.append_eq_nil_iff.1 h).1

end Piece

/-! ## The globs -/

section
variable {pattern : Text} {branches : List Text}

/-- The globs are the collapsed branches that are not empty, if there are any and no syntax
is left. -/
theorem globs?_of_expand (hexpand : expand (simplify pattern) = some branches) :
    globs? pattern =
      if (branches.map collapseWildcards).any (·.any isResidual) = true ∨
          (branches.map collapseWildcards).filter (!·.isEmpty) = [] then none
      else some ((branches.map collapseWildcards).filter (!·.isEmpty)) := by
  simp only [globs?, hexpand, Option.bind_eq_bind, Option.bind_some]
  by_cases hany : (branches.map collapseWildcards).any (·.any isResidual) = true
  · rw [if_pos hany, if_pos (Or.inl hany)]
  · rw [if_neg hany]
    split
    · next hnil => rw [if_pos (Or.inr hnil)]
    · next hne => rw [if_neg fun h => h.elim hany hne]

theorem not_wild_of_isResidual {c : Char} (h : isResidual c = true) : isWildcard c = false := by
  simp only [isResidual, Bool.or_eq_true, beq_iff_eq] at h
  rcases h with ((rfl | rfl) | rfl) | rfl <;> rfl

/-- Collapsing leaves the syntax that a branch still has. -/
theorem globs?_of_residual (hexpand : expand (simplify pattern) = some branches)
    {b : Text} (hb : b ∈ branches) {c : Char} (hc : c ∈ b) (hres : isResidual c = true) :
    globs? pattern = none := by
  have hmem : c ∈ collapseWildcards b := mem_collapse_of_not_wild (not_wild_of_isResidual hres) hc
  have hany : (branches.map collapseWildcards).any (·.any isResidual) = true :=
    List.any_eq_true.2 ⟨_, List.mem_map_of_mem hb, List.any_eq_true.2 ⟨c, hmem, hres⟩⟩
  rw [globs?_of_expand hexpand, if_pos (Or.inl hany)]

theorem globs?_of_clean (hexpand : expand (simplify pattern) = some branches)
    (hne : branches ≠ []) (hclean : ∀ b ∈ branches, b ≠ [] ∧ ∀ c ∈ b, isResidual c = false) :
    globs? pattern = some (branches.map collapseWildcards) := by
  have hany : ¬ (branches.map collapseWildcards).any (·.any isResidual) = true := by
    intro h
    obtain ⟨g, hg, hres⟩ := List.any_eq_true.1 h
    obtain ⟨b, hb, rfl⟩ := List.mem_map.1 hg
    obtain ⟨c, hc, hcres⟩ := List.any_eq_true.1 hres
    rw [(hclean b hb).2 c (mem_of_mem_collapse hc)] at hcres
    exact absurd hcres Bool.false_ne_true
  have hfilter : (branches.map collapseWildcards).filter (!·.isEmpty) =
      branches.map collapseWildcards := by
    rw [List.filter_eq_self]
    intro g hg
    obtain ⟨b, hb, rfl⟩ := List.mem_map.1 hg
    simpa using collapse_ne_nil (hclean b hb).1
  have hmap : branches.map collapseWildcards ≠ [] := by simpa using hne
  rw [globs?_of_expand hexpand, hfilter, if_neg fun h => h.elim hany hmap]

/-- Globs come from branches in which no syntax is left, and not all of which are empty. -/
theorem globs?_eq_some {globs : List Text} (h : globs? pattern = some globs) :
    ∃ branches, expand (simplify pattern) = some branches ∧
      (∀ b ∈ branches, ∀ c ∈ b, isResidual c = false) ∧
      globs = (branches.map collapseWildcards).filter (!·.isEmpty) ∧ globs ≠ [] := by
  cases hexpand : expand (simplify pattern) with
  | none =>
    rw [globs?, hexpand] at h
    exact absurd h (by simp)
  | some branches =>
    have hclean : ∀ b ∈ branches, ∀ c ∈ b, isResidual c = false := fun b hb c hc =>
      Bool.eq_false_iff.2 fun hres => by
        rw [globs?_of_residual hexpand hb hc hres] at h
        exact absurd h (by simp)
    rw [globs?_of_expand hexpand] at h
    split at h
    · exact absurd h (by simp)
    · next hno =>
      rw [not_or] at hno
      obtain rfl := Option.some.inj h
      exact ⟨branches, rfl, hclean, rfl, hno.2⟩
end

/-- The globs of a sequence of pieces are its collapsed choices, unless there are too
many groups or too many choices. -/
theorem globs?_of_pieces {pattern : Text} {ps : List Piece} (hps : ∀ p ∈ ps, p.Clean)
    (hne : ps ≠ []) (hsimplify : simplify pattern = collapseWildcards (Piece.sequenceText ps)) :
    globs? pattern =
      if Piece.groupCount ps ≤ maxRounds ∧ (Piece.choices ps).length ≤ maxBranches then
        some ((Piece.choices ps).map collapseWildcards)
      else none := by
  have hcol : ∀ p ∈ Piece.collapsed ps, p.Clean := fun p hp => hps p (Piece.mem_of_mem_collapsed hp)
  have hwf : ∀ p ∈ Piece.collapsed ps, p.WellFormed := fun p hp => (hcol p hp).wellFormed
  have hexpand := Piece.expand_sequenceText hwf
  rw [Piece.sequenceText_collapsed hps, ← hsimplify] at hexpand
  by_cases hrounds : Piece.groupCount ps ≤ maxRounds
  · have hres : Piece.resolved maxRounds (Piece.collapsed ps) =
        Piece.choices (Piece.collapsed ps) :=
      Piece.resolved_eq_choices (by rwa [Piece.groupCount_collapsed])
    rw [hres, Piece.length_choices_collapsed] at hexpand
    by_cases hbranches : (Piece.choices ps).length ≤ maxBranches
    · rw [if_neg (by omega)] at hexpand
      have hcolne : Piece.collapsed ps ≠ [] := by
        intro hnil
        have htext := Piece.sequenceText_collapsed hps
        rw [hnil] at htext
        refine collapse_ne_nil ?_ htext.symm
        obtain ⟨p, qs, rfl⟩ := List.exists_cons_of_ne_nil hne
        rw [Piece.sequenceText_cons]
        cases p <;> exact List.cons_ne_nil _ _
      rw [globs?_of_clean hexpand (List.length_pos_iff.1 (Piece.length_choices_pos hwf))
        fun b hb => ⟨Piece.ne_nil_of_mem_choices hcol hcolne b hb,
          Piece.not_residual_of_mem_choices hcol b hb⟩,
        Piece.map_collapse_choices_collapsed, if_pos ⟨hrounds, hbranches⟩]
    · rw [if_pos (by omega)] at hexpand
      rw [if_neg fun h => hbranches h.2, globs?, hexpand]
      rfl
  · rw [if_neg fun h => hrounds h.1]
    split at hexpand
    · rw [globs?, hexpand]
      rfl
    · obtain ⟨b, hb⟩ := List.exists_mem_of_length_pos (Piece.length_resolved_pos hwf maxRounds)
      refine globs?_of_residual hexpand hb (Piece.open_mem_of_mem_resolved ?_ b hb) rfl
      rw [Piece.groupCount_collapsed]
      omega

end Regexp
end StyleScope
