import StyleScope.Text.Scan

/-!
# Substitution piece by piece

A substitution walks a text from the left, so its effect on a text that is put
together from pieces is known once its effect on every piece is.  A piece may be
sensitive to what follows it: `Turns P f s t` says that `f` makes `t` of the piece
`s` wherever the text behind it satisfies `P`, and treats that text on its own.

`substituteAll_eq_self` is the other extreme, where nothing in a text is recognised.
-/

namespace StyleScope
namespace Text

/-! ## Words at the start of a text -/

theorem after?_append (word rest : Text) : after? word (word ++ rest) = some rest :=
  after?_eq_some.2 rfl

theorem after?_eq_none {word s : Text} (h : ¬ word <+: s) : after? word s = none := by
  cases ha : after? word s with
  | none => rfl
  | some rest => exact absurd ⟨rest, (after?_eq_some.1 ha).symm⟩ h

theorem after?_cons_of_ne {w c : Char} (h : c ≠ w) (word s : Text) :
    after? (w :: word) (c :: s) = none := by
  rw [after?, if_neg h]

/-! ## Nothing to substitute -/

theorem substituteAll_eq_self {here : Text → Option (Text × Text)} {s : Text}
    (h : ∀ t, t <:+ s → here t = none) : substituteAll here s = s := by
  induction s with
  | nil => rfl
  | cons c s ih =>
    rw [substituteAll_of_none (h _ (List.suffix_refl _)),
      ih fun t ht => h t (ht.trans (List.suffix_cons c s))]

theorem mem_of_mem_suffix {c : Char} {s t : Text} (ht : t <:+ s) (h : c ∉ s) : c ∉ t :=
  fun hc => h (ht.subset hc)

/-- A substitution whose recogniser needs the character `mark` leaves texts without
it alone. -/
theorem substituteAll_eq_self_of_not_mem {here : Text → Option (Text × Text)} {mark : Char}
    (hhere : ∀ t, mark ∉ t → here t = none) {s : Text} (h : mark ∉ s) :
    substituteAll here s = s :=
  substituteAll_eq_self fun _ ht => hhere _ (mem_of_mem_suffix ht h)

/-- The way in which `substituteAll` walks a text, as an induction. -/
theorem substituteAll_induction {here : Text → Option (Text × Text)}
    (hhere : ∀ s out rest, here s = some (out, rest) → ∃ c seen, s = c :: (seen ++ rest))
    {motive : Text → Prop} (nil : motive [])
    (found : ∀ c seen out rest, here (c :: (seen ++ rest)) = some (out, rest) → motive rest →
      motive (c :: (seen ++ rest)))
    (other : ∀ c s, here (c :: s) = none → motive s → motive (c :: s)) (s : Text) : motive s := by
  induction hn : s.length using Nat.strongRecOn generalizing s with
  | ind n ih =>
    cases s with
    | nil => exact nil
    | cons c s =>
      cases hc : here (c :: s) with
      | none =>
        rw [List.length_cons] at hn
        exact other c s hc (ih s.length (by omega) s rfl)
      | some found' =>
        obtain ⟨out, rest⟩ := found'
        obtain ⟨d, seen, heq⟩ := hhere _ _ _ hc
        rw [heq] at hc hn ⊢
        rw [List.length_cons, List.length_append] at hn
        exact found d seen out rest hc (ih rest.length (by omega) rest rfl)

/-- A character stays when what is put in place of a stretch keeps it. -/
theorem mem_substituteAll_of_mem {here : Text → Option (Text × Text)} {c : Char}
    (hhere : ∀ s out rest, here s = some (out, rest) →
      ∃ d seen, s = d :: (seen ++ rest) ∧ (c ∈ d :: seen → c ∈ out)) {s : Text} (h : c ∈ s) :
    c ∈ substituteAll here s := by
  have hseen : ∀ s out rest, here s = some (out, rest) → ∃ d seen, s = d :: (seen ++ rest) := by
    intro s out rest hs
    obtain ⟨d, seen, heq, -⟩ := hhere s out rest hs
    exact ⟨d, seen, heq⟩
  induction s using substituteAll_induction hseen with
  | nil => exact absurd h List.not_mem_nil
  | found d seen out rest hfound ih =>
    obtain ⟨d', seen', heq, hkeep⟩ := hhere _ _ _ hfound
    obtain ⟨rfl, htail⟩ := List.cons.inj heq
    obtain rfl := List.append_cancel_right htail
    rw [substituteAll_of_some rfl hfound, List.mem_append]
    rw [← List.cons_append, List.mem_append] at h
    exact h.imp hkeep ih
  | other d s hnone ih =>
    rw [substituteAll_of_none hnone, List.mem_cons]
    exact (List.mem_cons.1 h).imp_right ih

/-! ## Replacing a word -/

theorem replaceAll_append {word : Text} (hword : word ≠ []) (out rest : Text) :
    replaceAll word out (word ++ rest) = out ++ replaceAll word out rest := by
  obtain ⟨w, ws, rfl⟩ := List.exists_cons_of_ne_nil hword
  have hhere : ((after? (w :: ws) (w :: (ws ++ rest))).map fun rest => (out, rest)) =
      some (out, rest) := by
    rw [show w :: (ws ++ rest) = w :: ws ++ rest from rfl, after?_append]
    rfl
  exact substituteAll_of_some (show ws ++ rest = ws ++ rest from rfl) hhere

theorem replaceAll_cons {word s : Text} {c : Char} (out : Text) (h : ¬ word <+: c :: s) :
    replaceAll word out (c :: s) = c :: replaceAll word out s := by
  refine substituteAll_of_none ?_
  rw [after?_eq_none h]
  rfl

/-- The way in which `replaceAll` walks a text, as an induction. -/
theorem replaceAll_induction {word : Text} (hword : word ≠ []) {motive : Text → Prop}
    (nil : motive []) (found : ∀ rest, motive rest → motive (word ++ rest))
    (other : ∀ c s, ¬ word <+: c :: s → motive s → motive (c :: s)) (s : Text) : motive s := by
  obtain ⟨w, ws, rfl⟩ := List.exists_cons_of_ne_nil hword
  have hhere : ∀ (s out rest : Text),
      ((after? (w :: ws) s).map fun rest => (([] : Text), rest)) = some (out, rest) →
      s = w :: (ws ++ rest) := by
    intro s out rest h
    obtain ⟨rest', hafter, heq⟩ := Option.map_eq_some_iff.1 h
    obtain rfl : rest' = rest := congrArg Prod.snd heq
    exact after?_eq_some.1 hafter
  induction s using substituteAll_induction fun s out rest h => ⟨w, ws, hhere s out rest h⟩ with
  | nil => exact nil
  | found c seen out rest h ih =>
    rw [hhere _ _ _ h]
    exact found rest ih
  | other c s h ih =>
    refine other c s (fun hp => ?_) ih
    obtain ⟨rest, heq⟩ := hp
    rw [← heq, after?_append] at h
    exact absurd h (by simp)

theorem replaceAll_eq_self {word s : Text} (out : Text) (h : ¬ word <:+: s) :
    replaceAll word out s = s := by
  refine substituteAll_eq_self fun t ht => ?_
  have hword : ¬ word <+: t := fun hp => h (hp.isInfix.trans ht.isInfix)
  simp only [after?_eq_none hword, Option.map_none]

theorem replaceAll_eq_self_of_not_mem {word s : Text} {c : Char} (out : Text)
    (hc : c ∈ word) (h : c ∉ s) : replaceAll word out s = s :=
  replaceAll_eq_self out fun hw => h (hw.subset hc)

/-- Replacing one character by another changes every character on its own. -/
theorem replaceAll_char (c d : Char) (s : Text) :
    replaceAll [c] [d] s = s.map fun x => if x = c then d else x := by
  induction s with
  | nil => rfl
  | cons x s ih =>
    rw [List.map_cons, ← ih]
    by_cases hx : x = c
    · rw [if_pos hx, hx]
      exact replaceAll_append (List.cons_ne_nil c []) [d] s
    · rw [if_neg hx]
      refine replaceAll_cons [d] fun hp => hx ?_
      exact (List.cons_prefix_cons.1 hp).1.symm

/-- Only the replacement adds characters. -/
theorem mem_or_mem_of_mem_replaceAll {word out s : Text} {c : Char} (hword : word ≠ [])
    (h : c ∈ replaceAll word out s) : c ∈ out ∨ c ∈ s := by
  induction s using replaceAll_induction hword with
  | nil => exact absurd h List.not_mem_nil
  | found rest ih =>
    rw [replaceAll_append hword, List.mem_append] at h
    rcases h with h | h
    · exact Or.inl h
    · exact (ih h).imp_right (List.mem_append_right word)
  | other x s hp ih =>
    rw [replaceAll_cons out hp, List.mem_cons] at h
    rcases h with rfl | h
    · exact Or.inr List.mem_cons_self
    · exact (ih h).imp_right (List.mem_cons_of_mem x)

/-- What is no part of the word stays. -/
theorem mem_replaceAll_of_mem {word s : Text} {c : Char} (hword : word ≠ []) (out : Text)
    (hc : c ∉ word) (h : c ∈ s) : c ∈ replaceAll word out s := by
  induction s using replaceAll_induction hword with
  | nil => exact absurd h List.not_mem_nil
  | found rest ih =>
    rw [replaceAll_append hword, List.mem_append]
    rcases List.mem_append.1 h with h | h
    · exact absurd h hc
    · exact Or.inr (ih h)
  | other x s hp ih =>
    rw [replaceAll_cons out hp, List.mem_cons]
    exact (List.mem_cons.1 h).imp_right ih

/-- A word that occurs leaves its replacement behind. -/
theorem mem_replaceAll_of_occurs {word out s : Text} {c : Char} (hword : word ≠ [])
    (hc : c ∈ out) (h : word <:+: s) : c ∈ replaceAll word out s := by
  induction s using replaceAll_induction hword with
  | nil => exact absurd (List.infix_nil.1 h) hword
  | found rest ih =>
    rw [replaceAll_append hword]
    exact List.mem_append_left _ hc
  | other x s hp ih =>
    rw [replaceAll_cons out hp]
    exact List.mem_cons_of_mem x (ih ((List.infix_cons_iff.1 h).resolve_left hp))

/-! ## Pieces -/

/-- `f` makes `t` of the piece `s` in front of any text that satisfies `P`. -/
def Turns (P : Text → Prop) (f : Text → Text) (s t : Text) : Prop :=
  ∀ rest, P rest → f (s ++ rest) = t ++ f rest

namespace Turns

variable {P : Text → Prop} {f : Text → Text}

theorem nil : Turns P f [] [] := fun _ _ => rfl

/-- The second piece stands in front of what the first one is followed by. -/
theorem append {s t s' t' : Text} (hs : Turns P f s t) (hs' : Turns P f s' t')
    (hP : ∀ rest, P rest → P (s' ++ rest)) : Turns P f (s ++ s') (t ++ t') := by
  intro rest hrest
  rw [List.append_assoc, hs _ (hP rest hrest), hs' rest hrest, List.append_assoc]

theorem flatMap {α : Type} {items : List α} {before after : α → Text}
    (h : ∀ a ∈ items, Turns P f (before a) (after a))
    (hP : ∀ a ∈ items, ∀ rest, P rest → P (before a ++ rest)) :
    Turns P f (items.flatMap before) (items.flatMap after) := by
  intro rest hrest
  suffices f (items.flatMap before ++ rest) = items.flatMap after ++ f rest ∧
      P (items.flatMap before ++ rest) from this.1
  induction items with
  | nil => exact ⟨rfl, hrest⟩
  | cons a items ih =>
    obtain ⟨heq, hPitems⟩ := ih (fun b hb => h b (List.mem_cons_of_mem a hb))
      (fun b hb => hP b (List.mem_cons_of_mem a hb))
    rw [List.flatMap_cons, List.flatMap_cons, List.append_assoc, List.append_assoc,
      h a List.mem_cons_self _ hPitems, heq]
    exact ⟨rfl, hP a List.mem_cons_self _ hPitems⟩

/-- Characters at which nothing is recognised stay. -/
theorem of_none {here : Text → Option (Text × Text)} {s : Text}
    (h : ∀ c ∈ s, ∀ rest, here (c :: rest) = none) : Turns P (substituteAll here) s s := by
  intro rest _
  induction s with
  | nil => rfl
  | cons c s ih =>
    rw [List.cons_append, substituteAll_of_none (h c List.mem_cons_self _),
      ih fun d hd => h d (List.mem_cons_of_mem c hd)]
    rfl

/-- A piece that is recognised as a whole. -/
theorem of_some {here : Text → Option (Text × Text)} {c : Char} {s out : Text}
    (h : ∀ rest, P rest → here (c :: (s ++ rest)) = some (out, rest)) :
    Turns P (substituteAll here) (c :: s) out :=
  fun rest hrest => substituteAll_of_some rfl (h rest hrest)

/-- A piece of which only the first character could have been recognised. -/
theorem cons_of_none {here : Text → Option (Text × Text)} {c : Char} {s t : Text}
    (h : ∀ rest, P rest → here (c :: (s ++ rest)) = none)
    (hs : Turns P (substituteAll here) s t) : Turns P (substituteAll here) (c :: s) (c :: t) := by
  intro rest hrest
  rw [List.cons_append, substituteAll_of_none (h rest hrest), hs rest hrest]
  rfl

/-- A text is what is left of it when nothing follows. -/
theorem apply {s t : Text} (h : Turns P f s t) (hP : P []) (hf : f [] = []) : f s = t := by
  have hnil := h [] hP
  rwa [List.append_nil, hf, List.append_nil] at hnil

end Turns
end Text
end StyleScope
