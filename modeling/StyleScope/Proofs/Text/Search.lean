import StyleScope.Proofs.Text.Splitting

/-!
# The first place where a recogniser succeeds

`Text.find?` stops at the leftmost place where its recogniser succeeds
(`find?_eq_some_iff`), and a text is cut by `Text.splitAll` at the places that repeated
searches find.  For a word, case ignored, a stretch of text that the word cannot reach
into splits a search in two (`find?_afterFolded?_append`).

A text mentions a word when the word occurs in it, case ignored.  A search for the word
succeeds exactly then (`find?_afterFolded?_eq_none_iff`).  A character that the word lacks
splits a text in two that can be looked at on their own (`mentions_append_cons_iff`).
-/

namespace StyleScope
namespace Text

section Leftmost

variable {α β : Type} {here : Text → Option α} {s rest before : Text} {a : α}

/-- The recogniser succeeds at no place of a text in front of `rest`. -/
def PassesOver (here : Text → Option α) : Text → Text → Prop
  | [], _ => True
  | c :: s, rest => here (c :: s ++ rest) = none ∧ PassesOver here s rest

theorem passesOver_iff :
    PassesOver here s rest ↔ ∀ x c y, s = x ++ c :: y → here (c :: y ++ rest) = none := by
  induction s with
  | nil => exact iff_of_true trivial fun x c y h => absurd h.symm (by simp)
  | cons d s ih =>
    rw [PassesOver, ih]
    constructor
    · intro ⟨hd, hs⟩ x c y h
      cases x with
      | nil =>
        obtain ⟨rfl, rfl⟩ := List.cons.inj h
        exact hd
      | cons e x => exact hs x c y (List.cons.inj h).2
    · intro h
      exact ⟨h [] d s rfl, fun x c y hs => h (d :: x) c y (by rw [hs]; rfl)⟩

/-- A recogniser that succeeds in front of `rest` does so at a first place. -/
theorem passesOver_or_exists_first (here : Text → Option α) (s rest : Text) :
    PassesOver here s rest ∨ ∃ p t a, s = p ++ t ∧ t ≠ [] ∧ PassesOver here p (t ++ rest) ∧
      here (t ++ rest) = some a := by
  induction s with
  | nil => exact Or.inl trivial
  | cons c s ih =>
    cases hc : here (c :: s ++ rest) with
    | some a => exact Or.inr ⟨[], c :: s, a, rfl, List.cons_ne_nil c s, trivial, hc⟩
    | none =>
      rcases ih with hpass | ⟨p, t, a, rfl, hne, hpass, ha⟩
      · exact Or.inl ⟨hc, hpass⟩
      · refine Or.inr ⟨c :: p, t, a, rfl, hne, ⟨?_, hpass⟩, ha⟩
        rwa [List.cons_append, List.append_assoc] at hc

theorem find?_append_of_passesOver (h : PassesOver here s rest) :
    find? here (s ++ rest) = (find? here rest).map fun (before, a) => (s ++ before, a) := by
  induction s with
  | nil => simp
  | cons c s ih =>
    rw [List.cons_append, find?, show here (c :: (s ++ rest)) = none from h.1, ih h.2]
    cases find? here rest <;> rfl

/-- A stretch at whose code points nothing starts is passed over. -/
theorem find?_append (h : ∀ c ∈ s, ∀ rest, here (c :: rest) = none) (t : Text) :
    find? here (s ++ t) = (find? here t).map fun (before, a) => (s ++ before, a) := by
  refine find?_append_of_passesOver (passesOver_iff.2 ?_)
  rintro x c y rfl
  exact h c (List.mem_append_right x List.mem_cons_self) _

theorem find?_of_some (h : here s = some a) : find? here s = some ([], a) := by
  cases s with
  | nil => rw [find?, h]; rfl
  | cons c s => rw [find?, h]

/-- The place that is found is the leftmost one where the recogniser succeeds. -/
theorem find?_eq_some_iff :
    find? here s = some (before, a) ↔
      ∃ rest, s = before ++ rest ∧ PassesOver here before rest ∧ here rest = some a := by
  constructor
  · intro h
    induction s generalizing before with
    | nil =>
      obtain ⟨rest, hs, ha⟩ := find?_some h
      obtain ⟨rfl, rfl⟩ := List.append_eq_nil_iff.1 hs.symm
      exact ⟨[], rfl, trivial, ha⟩
    | cons c s ih =>
      cases hc : here (c :: s) with
      | some v =>
        rw [find?_of_some hc] at h
        obtain ⟨rfl, rfl⟩ := Prod.mk.inj (Option.some.inj h)
        exact ⟨c :: s, rfl, trivial, hc⟩
      | none =>
        rw [find?, hc, Option.map_eq_some_iff] at h
        obtain ⟨⟨b, v⟩, hfound, heq⟩ := h
        obtain ⟨rfl, rfl⟩ := Prod.mk.inj heq
        obtain ⟨rest, rfl, hpass, ha⟩ := ih hfound
        exact ⟨rest, rfl, ⟨hc, hpass⟩, ha⟩
  · rintro ⟨rest, rfl, hpass, ha⟩
    rw [find?_append_of_passesOver hpass, find?_of_some ha]
    simp

theorem exists_find?_of_some (h : here rest = some a) :
    ∃ before b, find? here (s ++ rest) = some (before, b) ∧ before.length ≤ s.length := by
  induction s with
  | nil => exact ⟨[], a, find?_of_some h, Nat.le_refl 0⟩
  | cons c s ih =>
    cases hc : here (c :: s ++ rest) with
    | some v => exact ⟨[], v, find?_of_some hc, Nat.zero_le _⟩
    | none =>
      obtain ⟨before, b, hfound, hlen⟩ := ih
      refine ⟨c :: before, b, ?_, Nat.succ_le_succ hlen⟩
      rw [List.cons_append, find?, show here (c :: (s ++ rest)) = none from hc, hfound]
      rfl

theorem find?_map (f : α → β) (s : Text) :
    find? (fun t => (here t).map f) s = (find? here s).map fun (before, a) => (before, f a) := by
  induction s with
  | nil => cases h : here [] <;> simp [find?, h]
  | cons c s ih =>
    cases h : here (c :: s) with
    | none => simp [find?, h, ih, Function.comp_def]
    | some v => simp [find?, h]

/-- A search that goes on behind what it finds. -/
theorem find?_bind {f : α → Option β} {b : β} (h : find? here s = some (before, a))
    (hf : f a = some b) : find? (fun t => (here t).bind f) s = some (before, b) := by
  obtain ⟨rest, hs, hpass, ha⟩ := find?_eq_some_iff.1 h
  refine find?_eq_some_iff.2 ⟨rest, hs, passesOver_iff.2 fun x c y hsplit => ?_, ?_⟩
  · rw [passesOver_iff.1 hpass x c y hsplit]
    rfl
  · rw [ha]
    exact hf

end Leftmost

/-! ## Cutting by searching -/

section Cutting

variable {here : Text → Option Text} {s before rest : Text}

/-- The recogniser returns a proper suffix of the text it is given. -/
def Consumes (here : Text → Option Text) : Prop :=
  ∀ s rest, here s = some rest → ∃ c seen, s = c :: seen ++ rest

theorem splitAll_of_find?_eq_none (h : find? here s = none) : splitAll here s = [s] := by
  induction s with
  | nil => rfl
  | cons c s ih =>
    cases hc : here (c :: s) with
    | some v => simp [find?, hc] at h
    | none =>
      rw [find?, hc, Option.map_eq_none_iff] at h
      rw [splitAll_cons_of_none hc, ih h]
      rfl

theorem splitAll_of_find?_eq_some (hcons : Consumes here) (h : find? here s = some (before, rest)) :
    splitAll here s = before :: splitAll here rest := by
  induction s generalizing before with
  | nil =>
    obtain ⟨t, hs, ht⟩ := find?_some h
    obtain ⟨-, rfl⟩ := List.append_eq_nil_iff.1 hs.symm
    obtain ⟨c, seen, hnil⟩ := hcons [] rest ht
    exact absurd hnil (by simp)
  | cons c s ih =>
    cases hc : here (c :: s) with
    | some v =>
      rw [find?_of_some hc] at h
      obtain ⟨rfl, rfl⟩ := Prod.mk.inj (Option.some.inj h)
      obtain ⟨d, seen, hs⟩ := hcons _ _ hc
      exact splitAll_cons_of_some (List.cons.inj hs).2 hc
    | none =>
      rw [find?, hc, Option.map_eq_some_iff] at h
      obtain ⟨⟨b, v⟩, hfound, heq⟩ := h
      obtain ⟨rfl, rfl⟩ := Prod.mk.inj heq
      rw [splitAll_cons_of_none hc, ih hfound]
      rfl

theorem substituteFirst_of_find?_eq_some (out : Text) (h : find? here s = some (before, rest)) :
    substituteFirst (fun t => (here t).map fun rest => (out, rest)) s = before ++ out ++ rest := by
  rw [substituteFirst, find?_map, h]
  rfl

end Cutting

/-! ## Replacing by searching -/

section Replacing

variable {here : Text → Option (Text × Text)} {s rest out : Text}

theorem substituteAll_append_of_passesOver (h : PassesOver here s rest) :
    substituteAll here (s ++ rest) = s ++ substituteAll here rest := by
  induction s with
  | nil => rfl
  | cons c s ih =>
    rw [List.cons_append, substituteAll_of_none (show here (c :: (s ++ rest)) = none from h.1),
      ih h.2]
    rfl

/-- What is in front of the first place stays, and the scan goes on behind it. -/
theorem substituteAll_append_of_first {c : Char} {seen : Text}
    (hpass : PassesOver here s (c :: (seen ++ rest)))
    (hhere : here (c :: (seen ++ rest)) = some (out, rest)) :
    substituteAll here (s ++ c :: (seen ++ rest)) = s ++ (out ++ substituteAll here rest) := by
  rw [substituteAll_append_of_passesOver hpass, substituteAll_of_some rfl hhere]

end Replacing

/-! ## Words, case ignored -/

section Words

variable {word : Text} {d e : Char}

/-- A spelling of a word is found, unless another one is found in front of it. -/
theorem exists_find?_afterFolded? {spelling : Text} (h : spelling.map foldCase = word)
    (s rest : Text) :
    ∃ before after, find? (afterFolded? word) (s ++ spelling ++ rest) = some (before, after) ∧
      before.length ≤ s.length := by
  have hhere : afterFolded? word (spelling ++ rest) = some rest :=
    afterFolded?_eq_some.2 ⟨spelling, rfl, h⟩
  rw [List.append_assoc]
  exact exists_find?_of_some hhere

theorem afterFolded?_cons_of_head {w : Char} {ws : Text} (h : foldCase d ≠ w) (s : Text) :
    afterFolded? (w :: ws) (d :: s) = none := by
  rw [afterFolded?, if_neg h]

/-- A word in which two code points do not stand side by side does not reach from one to
the other. -/
theorem afterFolded?_append_of_not_infix (h : ¬ [foldCase d, foldCase e] <:+: word) (p s : Text) :
    afterFolded? word (p ++ d :: e :: s) =
      (afterFolded? word (p ++ [d])).map fun rest => rest ++ e :: s := by
  induction p generalizing word with
  | nil =>
    cases word with
    | nil => rfl
    | cons w ws =>
      by_cases hd : foldCase d = w
      · cases ws with
        | nil => simp [afterFolded?, hd]
        | cons v vs =>
          have he : foldCase e ≠ v := by
            intro he
            rw [hd, he] at h
            exact h (List.prefix_append [w, v] vs).isInfix
          simp [afterFolded?, hd, he]
      · simp [afterFolded?, hd]
  | cons c p ih =>
    cases word with
    | nil => simp [afterFolded?]
    | cons w ws =>
      have hws : ¬ [foldCase d, foldCase e] <:+: ws := fun hin => h (List.infix_cons hin)
      by_cases hc : foldCase c = w
      · simpa [afterFolded?, hc] using ih hws
      · simp [afterFolded?, hc]

/-- A search is split by a stretch of text in which the word does not start, when the word
does not reach into the stretch either. -/
theorem find?_afterFolded?_append {w : Char} {ws : Text}
    (h : ¬ [foldCase d, foldCase e] <:+: w :: ws) {mid : Text}
    (hmid : ∀ c ∈ e :: mid, foldCase c ≠ w) (p s : Text) :
    find? (afterFolded? (w :: ws)) (p ++ d :: e :: (mid ++ s)) =
      ((find? (afterFolded? (w :: ws)) (p ++ [d])).map fun (b, rest) =>
        (b, rest ++ e :: (mid ++ s))).or
      ((find? (afterFolded? (w :: ws)) s).map fun (b, rest) =>
        (p ++ d :: e :: (mid ++ b), rest)) := by
  have hhere := fun q => afterFolded?_append_of_not_infix (s := mid ++ s) h q
  have hskip : find? (afterFolded? (w :: ws)) (e :: mid ++ s) =
      (find? (afterFolded? (w :: ws)) s).map fun (b, rest) => (e :: mid ++ b, rest) :=
    find?_append (fun c hc => afterFolded?_cons_of_head (hmid c hc)) s
  induction p with
  | nil =>
    have hfirst : afterFolded? (w :: ws) (d :: e :: (mid ++ s)) =
        (afterFolded? (w :: ws) [d]).map fun rest => rest ++ e :: (mid ++ s) := hhere []
    rw [List.nil_append, List.nil_append]
    cases hd : afterFolded? (w :: ws) [d] with
    | some rest =>
      rw [hd] at hfirst
      rw [find?_of_some hfirst, find?_of_some hd]
      rfl
    | none =>
      rw [hd] at hfirst
      have hnone : find? (afterFolded? (w :: ws)) [d] = none := by
        rw [find?, hd]
        rfl
      rw [find?, hfirst, hnone]
      show (find? (afterFolded? (w :: ws)) (e :: mid ++ s)).map _ = _
      rw [hskip]
      simp [Function.comp_def]
  | cons c p ih =>
    have hfirst : afterFolded? (w :: ws) (c :: (p ++ d :: e :: (mid ++ s))) =
        (afterFolded? (w :: ws) (c :: (p ++ [d]))).map fun rest => rest ++ e :: (mid ++ s) :=
      hhere (c :: p)
    rw [List.cons_append, List.cons_append]
    cases hc : afterFolded? (w :: ws) (c :: (p ++ [d])) with
    | some rest =>
      rw [hc] at hfirst
      rw [find?_of_some hfirst, find?_of_some hc]
      rfl
    | none =>
      rw [hc] at hfirst
      rw [find?, hfirst, find?, hc, ih]
      cases find? (afterFolded? (w :: ws)) (p ++ [d]) <;>
        cases find? (afterFolded? (w :: ws)) s <;> rfl

end Words

/-! ## Words that a text mentions -/

/-- The word, in small letters, occurs in the text, case ignored. -/
def Mentions (word s : Text) : Prop := word <:+: s.map foldCase

variable {word s t : Text}

theorem mentions_iff_exists_spelling :
    Mentions word s ↔ ∃ a spelling b, s = a ++ spelling ++ b ∧ spelling.map foldCase = word := by
  constructor
  · rintro ⟨a, b, h⟩
    obtain ⟨front, b', rfl, hfront, -⟩ := List.map_eq_append_iff.1 h.symm
    obtain ⟨a', spelling, rfl, -, hspelling⟩ := List.map_eq_append_iff.1 hfront
    exact ⟨a', spelling, b', rfl, hspelling⟩
  · rintro ⟨a, spelling, b, rfl, rfl⟩
    exact ⟨a.map foldCase, b.map foldCase, by rw [List.map_append, List.map_append]⟩

theorem find?_afterFolded?_eq_none_iff :
    find? (afterFolded? word) s = none ↔ ¬ Mentions word s := by
  rw [mentions_iff_exists_spelling]
  constructor
  · rintro hnone ⟨a, spelling, b, rfl, h⟩
    obtain ⟨before, after, hfound, -⟩ := exists_find?_afterFolded? h a b
    rw [hnone] at hfound
    exact absurd hfound (by simp)
  · intro hno
    cases hfound : find? (afterFolded? word) s with
    | none => rfl
    | some found =>
      obtain ⟨before, after⟩ := found
      obtain ⟨rest, rfl, hrest⟩ := find?_some hfound
      obtain ⟨spelling, rfl, h⟩ := afterFolded?_eq_some.1 hrest
      exact absurd ⟨before, spelling, after, (List.append_assoc _ _ _).symm, h⟩ hno

instance (word s : Text) : Decidable (Mentions word s) :=
  decidable_of_iff (find? (afterFolded? word) s ≠ none) (by
    rw [ne_eq, find?_afterFolded?_eq_none_iff, Classical.not_not])

theorem Mentions.mono (h : Mentions word s) (hst : s <:+: t) : Mentions word t :=
  h.trans (hst.map foldCase)

theorem mentions_append_cons_iff {c : Char} (hc : foldCase c ∉ word) :
    Mentions word (s ++ c :: t) ↔ Mentions word s ∨ Mentions word t := by
  rw [Mentions, List.map_append, List.map_cons]
  exact infix_append_cons_iff hc

/-- A text in which the word does not start adds nothing in front. -/
theorem Mentions.of_append {w : Char} (hs : ∀ c ∈ s, foldCase c ≠ w)
    (h : Mentions (w :: word) (s ++ t)) : Mentions (w :: word) t := by
  have hw : w ∉ s.map foldCase := by
    intro hmem
    obtain ⟨c, hc, rfl⟩ := List.mem_map.1 hmem
    exact hs c hc rfl
  rw [Mentions, List.map_append] at h
  exact infix_of_infix_append hw h

/-- A text in which the word does not end adds nothing behind. -/
theorem Mentions.of_append_right {w : Char} (ht : ∀ c ∈ t, foldCase c ≠ w)
    (h : Mentions (word ++ [w]) (s ++ t)) : Mentions (word ++ [w]) s := by
  have hw : w ∉ t.map foldCase := by
    intro hmem
    obtain ⟨c, hc, rfl⟩ := List.mem_map.1 hmem
    exact ht c hc rfl
  rw [Mentions, List.map_append] at h
  exact infix_of_infix_append_right hw h

end Text
end StyleScope
