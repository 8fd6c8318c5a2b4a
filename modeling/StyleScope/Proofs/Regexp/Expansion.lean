import StyleScope.Proofs.Text.Search
import StyleScope.Proofs.Regexp.Steps
import StyleScope.Regexp.Globs
import StyleScope.Regexp.Expression

/-!
# The rounds of branching

A round treats the first group of every branch.  Over a text that is a sequence of
characters and groups without structure of their own, all branches are at the same
group, and what the rounds have produced is an ordered product of choices.
`expandRounds_joined` is the invariant: some branches in front, all of them followed by
the same remaining pieces.
-/

namespace StyleScope
namespace Regexp

open Text Nested

/-! ## Ordered products -/

theorem joined_singleton_right (ss : List Text) (t : Text) :
    joined ss [t] = ss.map (· ++ t) := by
  rw [joined, List.map_eq_flatMap]
  rfl

theorem joined_nil_right (ss : List Text) : joined ss [[]] = ss := by
  rw [joined_singleton_right]
  simp

theorem joined_singleton_left (s : Text) (ts : List Text) :
    joined [s] ts = ts.map (s ++ ·) := by
  rw [joined, List.flatMap_singleton]

theorem joined_assoc (ss ts us : List Text) :
    joined (joined ss ts) us = joined ss (joined ts us) := by
  unfold joined
  rw [List.flatMap_assoc]
  congr 1
  funext s
  rw [List.flatMap_map, List.map_flatMap]
  congr 1
  funext t
  rw [List.map_map]
  congr 1
  funext u
  exact List.append_assoc s t u

theorem length_joined (ss ts : List Text) : (joined ss ts).length = ss.length * ts.length := by
  induction ss with
  | nil => simp [joined]
  | cons s ss ih =>
    have hcons : joined (s :: ss) ts = ts.map (s ++ ·) ++ joined ss ts := rfl
    rw [hcons, List.length_append, List.length_map, ih, List.length_cons, Nat.succ_mul,
      Nat.add_comm]

/-! ## The first group of a text -/

theorem groupAt?_cons_of_ne {c : Char} (h : c ≠ '(') (s : Text) : groupAt? (c :: s) = none := by
  unfold groupAt?
  split
  · next heq => exact absurd (List.cons.inj heq).1 h
  · rfl

theorem shortGroup?_append {c : Char} {x : Text} (hline : '\n' ∉ c :: x) (hclose : ')' ∉ x)
    (rest : Text) : shortGroup? (c :: x ++ ')' :: rest) = some (c :: x, rest) := by
  rw [List.mem_cons, not_or] at hline
  have hnone : ¬ (c = '\n' ∨ '\n' ∈ x) := fun h =>
    h.elim (fun hc => hline.1 hc.symm) hline.2
  rw [List.cons_append, shortGroup?, dropWhile_ne_append_cons hclose,
    takeWhile_ne_append_cons hclose]
  show (if c = '\n' ∨ '\n' ∈ x then none else some (c :: x, rest)) = _
  rw [if_neg hnone]

/-- A text branches at its first group, which reaches to the first `)` behind its first
character. -/
theorem expandFirst_group {before x : Text} {c : Char} (hbefore : '(' ∉ before)
    (hline : '\n' ∉ c :: x) (hclose : ')' ∉ x) (after : Text) :
    expandFirst (before ++ '(' :: (c :: x ++ ')' :: after)) =
      (List.splitOn '|' (c :: x)).map fun choice => before ++ choice ++ after := by
  have hskip : ∀ d ∈ before, ∀ rest, groupAt? (d :: rest) = none := fun d hd rest =>
    groupAt?_cons_of_ne (fun heq => hbefore (heq ▸ hd)) rest
  have hhere : groupAt? ('(' :: (c :: x ++ ')' :: after)) = some (c :: x, after) :=
    shortGroup?_append hline hclose after
  have hfound : find? groupAt? ('(' :: (c :: x ++ ')' :: after)) = some ([], c :: x, after) := by
    rw [find?, hhere]
  rw [expandFirst, find?_append hskip, hfound]
  show ((List.splitOn '|' (c :: x)).map fun choice => (before ++ []) ++ choice ++ after) = _
  rw [List.append_nil]

/-! ## Is there anything left to branch? -/

theorem hasAlternation_append {s : Text} (h : '(' ∉ s) (t : Text) :
    hasAlternation (s ++ t) = hasAlternation t := by
  induction s with
  | nil => rfl
  | cons c s ih =>
    rw [List.mem_cons, not_or] at h
    have hc : (c == '(') = false := beq_eq_false_iff_ne.2 (Ne.symm h.1)
    rw [List.cons_append, hasAlternation, hc, Bool.false_and, Bool.false_or, ih h.2]

theorem hasAlternation_eq_false {s : Text} (h : '(' ∉ s) : hasAlternation s = false := by
  rw [← List.append_nil s, hasAlternation_append h]
  rfl

theorem offersChoice_append {v w : Text} (hv : v ≠ []) (hw : w ≠ []) :
    offersChoice (v ++ '|' :: w) = true := by
  obtain ⟨c, v, rfl⟩ := List.exists_cons_of_ne_nil hv
  have hne : '|' :: w ≠ [] := List.cons_ne_nil _ _
  rw [offersChoice, List.cons_append, List.tail_cons, List.dropLast_append_of_ne_nil hne,
    List.dropLast_cons_of_ne_nil hw]
  simp

/-- A group with a choice inside is seen, whatever stands around it. -/
theorem hasAlternation_group {before inside : Text} (hbefore : '(' ∉ before)
    (hclose : ')' ∉ inside) (hchoice : offersChoice inside = true) (after : Text) :
    hasAlternation (before ++ '(' :: (inside ++ ')' :: after)) = true := by
  have hne : inside ≠ [] := fun h => by simp [h, offersChoice] at hchoice
  rw [hasAlternation_append hbefore, hasAlternation, enclosed?_append hne hclose]
  simp [hchoice]

/-! ## Characters and groups -/

inductive Piece
  | char (c : Char)
  | group (words : List Text)

namespace Piece

def text : Piece → Text
  | .char c => [c]
  | .group words => '(' :: List.intercalate ['|'] words ++ [')']

def sequenceText (ps : List Piece) : Text := ps.flatMap text

/-- The texts that take the place of a piece. -/
def words : Piece → List Text
  | .char c => [[c]]
  | .group words => words

/-- The ordered product of the choices that a sequence offers. -/
def choices : List Piece → List Text
  | [] => [[]]
  | p :: ps => joined p.words (choices ps)

/-- What is left of a sequence after some rounds, which resolve that many groups. -/
def resolved : Nat → List Piece → List Text
  | _, [] => [[]]
  | n, .char c :: ps => joined [[c]] (resolved n ps)
  | 0, .group words :: ps => joined [text (.group words)] (resolved 0 ps)
  | n + 1, .group words :: ps => joined words (resolved n ps)

def groupCount : List Piece → Nat
  | [] => 0
  | .char _ :: ps => groupCount ps
  | .group _ :: ps => groupCount ps + 1

/-- A character is no parenthesis and a group has words to choose from, on one line and
without structure. -/
def WellFormed : Piece → Prop
  | .char c => c ≠ '(' ∧ c ≠ ')'
  | .group words => 2 ≤ words.length ∧ ∀ w ∈ words, w ≠ [] ∧ ∀ c ∈ w, c ∉ ['(', ')', '|', '\n']

theorem sequenceText_cons (p : Piece) (ps : List Piece) :
    sequenceText (p :: ps) = p.text ++ sequenceText ps := List.flatMap_cons

theorem sequenceText_map_char (s : Text) : sequenceText (s.map .char) = s := by
  induction s with
  | nil => rfl
  | cons c s ih => exact congrArg (c :: ·) ih

/-- A character takes no round. -/
theorem resolved_char (n : Nat) (c : Char) (ps : List Piece) :
    resolved n (.char c :: ps) = joined [[c]] (resolved n ps) := by
  cases n <;> rfl

theorem resolved_zero (ps : List Piece) : resolved 0 ps = [sequenceText ps] := by
  induction ps with
  | nil => rfl
  | cons p ps ih => cases p <;> rw [resolved, ih, sequenceText_cons] <;> rfl

/-- Rounds enough for all groups leave the choices. -/
theorem resolved_eq_choices {n : Nat} {ps : List Piece} (h : groupCount ps ≤ n) :
    resolved n ps = choices ps := by
  induction ps generalizing n with
  | nil => cases n <;> rfl
  | cons p ps ih =>
    cases p with
    | char c =>
      rw [resolved_char, ih h]
      rfl
    | group words =>
      rw [groupCount] at h
      obtain ⟨m, rfl⟩ : ∃ m, n = m + 1 := ⟨n - 1, by omega⟩
      rw [resolved, ih (by omega)]
      rfl

theorem length_pos_of_wellFormed {p : Piece} (h : p.WellFormed) : 0 < p.words.length := by
  cases p with
  | char c => exact Nat.one_pos
  | group words => exact Nat.lt_of_lt_of_le (by omega) h.1

theorem length_choices_pos {ps : List Piece} (h : ∀ p ∈ ps, p.WellFormed) :
    0 < (choices ps).length := by
  induction ps with
  | nil => exact Nat.one_pos
  | cons p ps ih =>
    rw [choices, length_joined]
    exact Nat.mul_pos (length_pos_of_wellFormed (h p List.mem_cons_self))
      (ih fun q hq => h q (List.mem_cons_of_mem p hq))

theorem length_resolved_pos {ps : List Piece} (h : ∀ p ∈ ps, p.WellFormed) (n : Nat) :
    0 < (resolved n ps).length := by
  induction ps generalizing n with
  | nil => cases n <;> exact Nat.one_pos
  | cons p ps ih =>
    have hps := ih fun q hq => h q (List.mem_cons_of_mem p hq)
    cases p with
    | char c =>
      rw [resolved_char, length_joined]
      exact Nat.mul_pos Nat.one_pos (hps n)
    | group words =>
      cases n with
      | zero =>
        rw [resolved, length_joined]
        exact Nat.mul_pos Nat.one_pos (hps 0)
      | succ n =>
        rw [resolved, length_joined]
        exact Nat.mul_pos (length_pos_of_wellFormed (h _ List.mem_cons_self)) (hps n)

/-! ## A round -/

theorem two_words {words : List Text} (h : 2 ≤ words.length) :
    ∃ v w ws, words = v :: w :: ws := by
  match words, h with
  | v :: w :: ws, _ => exact ⟨v, w, ws, rfl⟩

theorem not_mem_intercalate {words : List Text} (h : (group words).WellFormed) {c : Char}
    (hc : c ∈ ['(', ')', '\n']) : c ∉ List.intercalate ['|'] words := by
  intro hmem
  obtain rfl | ⟨w, hw, hcw⟩ := mem_intercalate hmem
  · exact absurd hc (by decide)
  · refine (h.2 w hw).2 c hcw ?_
    have hsub : ∀ d ∈ ['(', ')', '\n'], d ∈ ['(', ')', '|', '\n'] := by decide
    exact hsub c hc

theorem intercalate_ne_nil {words : List Text} (h : (group words).WellFormed) :
    List.intercalate ['|'] words ≠ [] := by
  obtain ⟨v, w, ws, rfl⟩ := two_words h.1
  rw [intercalate_cons_cons]
  simp

theorem offersChoice_words {words : List Text} (h : (group words).WellFormed) :
    offersChoice (List.intercalate ['|'] words) = true := by
  obtain ⟨v, w, ws, rfl⟩ := two_words h.1
  have hv : v ≠ [] := (h.2 v List.mem_cons_self).1
  have hw : w ≠ [] := (h.2 w (List.mem_cons_of_mem v List.mem_cons_self)).1
  rw [intercalate_cons_cons]
  refine offersChoice_append hv ?_
  cases ws with
  | nil => rwa [List.intercalate_singleton]
  | cons x ws =>
    rw [intercalate_cons_cons]
    simp

theorem text_group_append (words : List Text) (after : Text) :
    text (.group words) ++ after = '(' :: (List.intercalate ['|'] words ++ ')' :: after) := by
  show '(' :: (List.intercalate ['|'] words ++ [')']) ++ after = _
  rw [List.cons_append, List.append_assoc]
  rfl

theorem expandFirst_words {words : List Text} (h : (group words).WellFormed) {before : Text}
    (hbefore : '(' ∉ before) (after : Text) :
    expandFirst (before ++ (text (.group words) ++ after)) =
      words.map fun w => before ++ w ++ after := by
  have hne : words ≠ [] := by
    obtain ⟨v, w, ws, rfl⟩ := two_words h.1
    exact List.cons_ne_nil v _
  have hsplit : List.splitOn '|' (List.intercalate ['|'] words) = words :=
    List.splitOn_intercalate '|' (fun w hw hbar => (h.2 w hw).2 '|' hbar (by decide)) hne
  have hline : '\n' ∉ List.intercalate ['|'] words := not_mem_intercalate h (by decide)
  have hclose : ')' ∉ List.intercalate ['|'] words := not_mem_intercalate h (by decide)
  obtain ⟨c, x, hx⟩ := List.exists_cons_of_ne_nil (intercalate_ne_nil h)
  rw [hx] at hline hclose hsplit
  rw [text_group_append, hx,
    expandFirst_group hbefore hline (fun hmem => hclose (List.mem_cons_of_mem c hmem)), hsplit]

/-- Where all branches are at the same group, a round multiplies them by its words. -/
theorem expandRound_words {words : List Text} (h : (group words).WellFormed)
    {starts : List Text} (hstarts : ∀ b ∈ starts, '(' ∉ b) (after : Text) :
    expandRound (starts.map (· ++ (text (.group words) ++ after))) =
      if starts.length * words.length > maxBranches then none
      else some ((joined starts words).map (· ++ after)) := by
  have hnext : (starts.map (· ++ (text (.group words) ++ after))).flatMap expandFirst =
      (joined starts words).map (· ++ after) := by
    rw [List.flatMap_map, joined, List.map_flatMap, List.flatMap_def, List.flatMap_def]
    congr 1
    refine List.map_congr_left fun b hb => ?_
    rw [expandFirst_words h (hstarts b hb), List.map_map]
    rfl
  have hlen : ((joined starts words).map (· ++ after)).length = starts.length * words.length := by
    rw [List.length_map, length_joined]
  show (if ((starts.map _).flatMap expandFirst).length > maxBranches then none
    else some ((starts.map _).flatMap expandFirst)) = _
  rw [hnext, hlen]

theorem not_mem_open_joined {words : List Text} (h : (group words).WellFormed)
    {starts : List Text} (hstarts : ∀ b ∈ starts, '(' ∉ b) :
    ∀ b ∈ joined starts words, '(' ∉ b := by
  intro b hb
  obtain ⟨s, hs, w, hw, rfl⟩ := mem_joined.1 hb
  rw [List.mem_append, not_or]
  exact ⟨hstarts s hs, fun hmem => (h.2 w hw).2 '(' hmem (by decide)⟩

/-! ## All rounds -/

theorem expandRounds_eq_self {branches : List Text} (h : ∀ b ∈ branches, '(' ∉ b) (n : Nat) :
    expandRounds n branches = some branches := by
  have hnone : branches.any hasAlternation = false := by
    rw [List.any_eq_false]
    intro b hb
    rw [hasAlternation_eq_false (h b hb)]
    exact Bool.false_ne_true
  cases n with
  | zero => rfl
  | succ n =>
    rw [expandRounds, hnone]
    rfl

/-- A character moves to the end of every branch. -/
theorem map_append_char (starts : List Text) (c : Char) (ps : List Piece) :
    starts.map (· ++ sequenceText (.char c :: ps)) =
      (joined starts [[c]]).map (· ++ sequenceText ps) := by
  rw [joined_singleton_right, List.map_map]
  refine List.map_congr_left fun b _ => ?_
  show b ++ ([c] ++ sequenceText ps) = b ++ [c] ++ sequenceText ps
  rw [List.append_assoc]

theorem any_hasAlternation_group {words : List Text} (h : (group words).WellFormed)
    {starts : List Text} (hne : starts ≠ []) (hstarts : ∀ b ∈ starts, '(' ∉ b) (after : Text) :
    (starts.map (· ++ (text (.group words) ++ after))).any hasAlternation = true := by
  obtain ⟨b, bs, rfl⟩ := List.exists_cons_of_ne_nil hne
  rw [List.map_cons, List.any_cons, text_group_append,
    hasAlternation_group (hstarts b List.mem_cons_self) (not_mem_intercalate h (by decide))
      (offersChoice_words h), Bool.true_or]

/-- The rounds from branches that share what remains.  They give up exactly when the
product of what they resolve is too large. -/
theorem expandRounds_joined {ps : List Piece} (hps : ∀ p ∈ ps, p.WellFormed)
    {starts : List Text} (hstarts : ∀ b ∈ starts, '(' ∉ b) (hlen : starts.length ≤ maxBranches)
    (n : Nat) :
    expandRounds n (starts.map (· ++ sequenceText ps)) =
      if starts.length * (resolved n ps).length > maxBranches then none
      else some (joined starts (resolved n ps)) := by
  induction ps generalizing starts n with
  | nil =>
    have hres : resolved n [] = [[]] := by cases n <;> rfl
    have hmap : starts.map (· ++ sequenceText []) = starts := by simp [sequenceText]
    rw [hres, hmap, joined_nil_right, List.length_singleton, Nat.mul_one, if_neg (by omega)]
    exact expandRounds_eq_self hstarts n
  | cons p ps ih =>
    have hrest : ∀ q ∈ ps, q.WellFormed := fun q hq => hps q (List.mem_cons_of_mem p hq)
    have hp : p.WellFormed := hps p List.mem_cons_self
    cases p with
    | char c =>
      have hstarts' : ∀ b ∈ joined starts [[c]], '(' ∉ b := by
        intro b hb
        obtain ⟨s, hs, t, ht, rfl⟩ := mem_joined.1 hb
        rw [List.mem_singleton.1 ht, List.mem_append, not_or, List.mem_singleton]
        exact ⟨hstarts s hs, Ne.symm hp.1⟩
      have hlen' : (joined starts [[c]]).length = starts.length := by
        rw [length_joined, List.length_singleton, Nat.mul_one]
      rw [map_append_char, ih hrest hstarts' (by omega), hlen', resolved_char, length_joined,
        List.length_singleton, Nat.one_mul, joined_assoc]
    | group words =>
      cases n with
      | zero =>
        rw [resolved_zero, joined_singleton_right, List.length_singleton, Nat.mul_one,
          if_neg (by omega)]
        rfl
      | succ n =>
        have hpos := length_resolved_pos hrest n
        rw [resolved, length_joined, ← joined_assoc, ← Nat.mul_assoc, sequenceText_cons,
          expandRounds]
        by_cases hnil : starts = []
        · subst hnil
          simp [joined]
        · rw [if_pos (any_hasAlternation_group hp hnil hstarts _), expandRound_words hp hstarts]
          by_cases hmany : starts.length * words.length > maxBranches
          · have hmore : starts.length * words.length * (resolved n ps).length > maxBranches :=
              Nat.lt_of_lt_of_le hmany (Nat.le_mul_of_pos_right _ hpos)
            rw [if_pos hmany, if_pos hmore]
            rfl
          · rw [if_neg hmany, Option.bind_some, ih hrest (not_mem_open_joined hp hstarts)
              (by rw [length_joined]; omega), length_joined]

/-- Expansion is the ordered product of the choices of the first groups, up to its
limits. -/
theorem expand_sequenceText {ps : List Piece} (hps : ∀ p ∈ ps, p.WellFormed) :
    expand (sequenceText ps) =
      if (resolved maxRounds ps).length > maxBranches then none
      else some (resolved maxRounds ps) := by
  have hstart : ∀ b ∈ [([] : Text)], '(' ∉ b := by simp
  have hrounds := expandRounds_joined hps hstart (by decide) maxRounds
  rw [List.length_singleton, Nat.one_mul, joined_singleton_left] at hrounds
  simpa [expand] using hrounds

end Piece
end Regexp
end StyleScope
