import StyleScope.Style.Document
import StyleScope.Proofs.Text.Search
import StyleScope.Proofs.Text.Substitution
import StyleScope.Proofs.Text.Splitting

/-!
# Comments in a rule

Comments are looked for in the whole list of calls, in its quoted values too.  A list
without one is left as it is (`Document.stripComments_eq_self`), and any other one loses
characters that are not blank (`Document.weight_stripComments_lt`).
-/

namespace StyleScope
namespace Document

open Text

variable {b c : Char} {s rest inside out : Text}

/-- A comment with a blank on either side, at the start of a text. -/
def IsComment (s rest : Text) : Prop :=
  ∃ b inside c, s = b :: ("/*".toList ++ (inside ++ ("*/".toList ++ c :: rest))) ∧
    isBlank b = true ∧ isBlank c = true

def HasComment (s : Text) : Prop := ∃ before t rest, s = before ++ t ∧ IsComment t rest

def commentEnd? (s : Text) : Option Text :=
  (after? "*/".toList s).bind fun t =>
    match t with
    | c :: t => if isBlank c then some t else none
    | [] => none

theorem commentEnd?_eq_some :
    commentEnd? s = some rest ↔ ∃ c, s = "*/".toList ++ c :: rest ∧ isBlank c = true := by
  rw [commentEnd?, Option.bind_eq_some_iff]
  constructor
  · rintro ⟨t, hafter, ht⟩
    cases t with
    | nil => exact absurd ht (by simp)
    | cons c t =>
      cases hc : isBlank c with
      | true =>
        obtain rfl : t = rest := by simpa [hc] using ht
        exact ⟨c, after?_eq_some.1 hafter, hc⟩
      | false => exact absurd ht (by simp [hc])
  · rintro ⟨c, rfl, hc⟩
    exact ⟨c :: rest, after?_append _ _, if_pos hc⟩

theorem comment?_cons_of_blank (hb : isBlank b = true) (s : Text) :
    comment? (b :: s) = (after? "/*".toList s).bind fun t =>
      (find? commentEnd? t).map fun (_, rest) => ([' '], rest) := by
  rw [comment?, if_pos hb]
  refine congrArg (Option.bind _) (funext fun t => ?_)
  exact Option.map_eq_bind.symm

theorem isComment_of_comment? (h : comment? s = some (out, rest)) :
    IsComment s rest ∧ out = [' '] := by
  cases s with
  | nil => exact absurd h (by simp [comment?])
  | cons b s =>
    cases hb : isBlank b with
    | false => exact absurd h (by simp [comment?, hb])
    | true =>
      rw [comment?_cons_of_blank hb] at h
      obtain ⟨t, hafter, ht⟩ := Option.bind_eq_some_iff.1 h
      obtain ⟨⟨inside, rest'⟩, hfound, heq⟩ := Option.map_eq_some_iff.1 ht
      obtain ⟨rfl, rfl⟩ := Prod.mk.inj heq
      obtain ⟨u, rfl, hend⟩ := find?_some hfound
      obtain ⟨c, rfl, hc⟩ := commentEnd?_eq_some.1 hend
      exact ⟨⟨b, inside, c, by rw [after?_eq_some.1 hafter], hb, hc⟩, rfl⟩

theorem comment?_ne_none (h : IsComment s rest) : comment? s ≠ none := by
  obtain ⟨b, inside, c, rfl, hb, hc⟩ := h
  obtain ⟨before, rest', hfound, -⟩ :=
    exists_find?_of_some (s := inside) (commentEnd?_eq_some.2 ⟨c, rfl, hc⟩ :
      commentEnd? ("*/".toList ++ c :: rest) = some rest)
  rw [comment?_cons_of_blank hb, after?_append, Option.bind_some, hfound]
  simp

theorem not_hasComment_nil : ¬ HasComment [] := by
  rintro ⟨before, t, rest, h, b, inside, c, rfl, -⟩
  exact absurd h.symm (by simp)

theorem hasComment_cons_iff : HasComment (c :: s) ↔ comment? (c :: s) ≠ none ∨ HasComment s := by
  constructor
  · rintro ⟨before, t, rest, h, hcomment⟩
    cases before with
    | nil =>
      rw [List.nil_append] at h
      exact Or.inl (h ▸ comment?_ne_none hcomment)
    | cons d before => exact Or.inr ⟨before, t, rest, (List.cons.inj h).2, hcomment⟩
  · rintro (h | ⟨before, t, rest, rfl, hcomment⟩)
    · obtain ⟨⟨out, rest⟩, hsome⟩ := Option.ne_none_iff_exists'.1 h
      exact ⟨[], c :: s, rest, rfl, (isComment_of_comment? hsome).1⟩
    · exact ⟨c :: before, t, rest, rfl, hcomment⟩

instance decidableHasComment : (s : Text) → Decidable (HasComment s)
  | [] => isFalse not_hasComment_nil
  | _ :: s =>
    haveI := decidableHasComment s
    decidable_of_iff _ hasComment_cons_iff.symm

theorem stripComments_eq_self (h : ¬ HasComment s) : stripComments s = s := by
  refine substituteAll_eq_self fun t ht => ?_
  refine Option.eq_none_iff_forall_ne_some.2 fun found hfound => h ?_
  obtain ⟨before, rfl⟩ := ht
  exact ⟨before, t, found.2, rfl, (isComment_of_comment? hfound).1⟩

/-- A comment is heavier than the blank that it is replaced by. -/
theorem weight_lt_of_isComment (h : IsComment s rest) : weight rest < weight s := by
  obtain ⟨b, inside, c, rfl, hb, hc⟩ := h
  have hopen : weight "/*".toList = 2 := by decide
  rw [weight_cons_of_blank hb, weight_append, weight_append, weight_append,
    weight_cons_of_blank hc]
  omega

theorem weight_stripComments (s : Text) :
    weight (stripComments s) ≤ weight s ∧ (HasComment s → weight (stripComments s) < weight s) := by
  have hseen : ∀ s out rest, comment? s = some (out, rest) → ∃ c seen, s = c :: (seen ++ rest) := by
    intro s out rest h
    obtain ⟨⟨b, inside, c, rfl, -⟩, -⟩ := isComment_of_comment? h
    exact ⟨b, "/*".toList ++ (inside ++ ("*/".toList ++ [c])), by simp⟩
  induction s using substituteAll_induction hseen with
  | nil => exact ⟨Nat.le_refl 0, fun h => absurd h not_hasComment_nil⟩
  | found c seen out rest h ih =>
    obtain ⟨hcomment, rfl⟩ := isComment_of_comment? h
    have hlt := weight_lt_of_isComment hcomment
    have hstep : weight (stripComments (c :: (seen ++ rest))) = weight (stripComments rest) := by
      rw [stripComments, substituteAll_of_some rfl h, List.singleton_append,
        weight_cons_of_blank (by decide)]
    rw [hstep]
    exact ⟨by omega, fun _ => by omega⟩
  | other c s h ih =>
    have hstep : stripComments (c :: s) = c :: stripComments s := substituteAll_of_none h
    have hcomment : HasComment (c :: s) → HasComment s := by
      rw [hasComment_cons_iff]
      simp [h]
    rw [hstep, weight_cons_eq_add, weight_cons_eq_add c s]
    exact ⟨by omega, fun hc => by have hlt := ih.2 (hcomment hc); omega⟩

theorem weight_stripComments_lt (h : HasComment s) : weight (stripComments s) < weight s :=
  (weight_stripComments s).2 h

end Document
end StyleScope
