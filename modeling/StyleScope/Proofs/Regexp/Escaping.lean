import StyleScope.Proofs.Regexp.Characters
import StyleScope.Proofs.Regexp.Meaning

/-!
# Escaped addresses

An address becomes an expression for itself when its dots are escaped, and its slashes and
colons may be escaped too.  The steps give the address back, with one exception: an `http`
with two or more characters in front of the next colon is taken for a way to write "http or
https".  Escaping adds characters, so it is the escaped text that decides
(`namesLongScheme_escape_iff`), and a star that this leaves is never lost again.  The result
is `globs_escape_iff`.
-/

namespace StyleScope
namespace Regexp

open Text

/-! ## Long schemes -/

/-- An `http` in front of a colon, with a text of some kind and without colons between the
two. -/
def NamesLongScheme (long : Text → Prop) (s : Text) : Prop :=
  ∃ x, long x ∧ ':' ∉ x ∧ "http".toList ++ (x ++ [':']) <:+: s

/-- At least two characters, which is what the step for the scheme asks for. -/
def IsLong (x : Text) : Prop := 2 ≤ x.length

instance (x : Text) : Decidable (IsLong x) := inferInstanceAs (Decidable (2 ≤ x.length))

theorem namesLongScheme_congr {long long' : Text → Prop} (h : ∀ x, long x ↔ long' x) (s : Text) :
    NamesLongScheme long s ↔ NamesLongScheme long' s :=
  exists_congr fun x => and_congr_left' (h x)

theorem longScheme?_eq_some {s out rest : Text} :
    longScheme? s = some (out, rest) ↔ out = "http*:".toList ∧
      ∃ x, IsLong x ∧ ':' ∉ x ∧ s = "http".toList ++ (x ++ ':' :: rest) := by
  constructor
  · intro h
    obtain ⟨t, hafter, hfound⟩ := Option.bind_eq_some_iff.1 h
    split at hfound
    · next c d x e rest' htake hdrop =>
      obtain ⟨rfl, rfl⟩ := Prod.mk.inj (Option.some.inj hfound)
      have hsplit := eq_append_of_dropWhile_ne_eq_cons hdrop
      have hcolon := not_mem_takeWhile_ne ':' t
      rw [htake] at hsplit hcolon
      refine ⟨rfl, c :: d :: x, Nat.le_add_left 2 x.length, hcolon, ?_⟩
      rw [after?_eq_some.1 hafter, ← hsplit]
    · exact absurd hfound (by simp)
  · rintro ⟨rfl, x, hlong, hx, rfl⟩
    match x, hlong with
    | c :: d :: x, _ =>
      simp only [longScheme?, after?_append, takeWhile_ne_append_cons hx,
        dropWhile_ne_append_cons hx, Option.bind_eq_bind, Option.bind_some]
      rfl

theorem substituteAll_longScheme_eq_self {s : Text} (h : ¬ NamesLongScheme IsLong s) :
    substituteAll longScheme? s = s := by
  refine substituteAll_eq_self fun t ht => ?_
  refine Option.eq_none_iff_forall_ne_some.2 fun found hfound => h ?_
  obtain ⟨-, x, hlong, hx, rfl⟩ := longScheme?_eq_some.1 hfound
  refine ⟨x, hlong, hx, List.IsInfix.trans ?_ ht.isInfix⟩
  exact ⟨[], found.2, by simp⟩

theorem star_mem_substituteAll_longScheme {s : Text} (h : NamesLongScheme IsLong s) :
    '*' ∈ substituteAll longScheme? s := by
  obtain ⟨x, hlong, hx, before, rest, rfl⟩ := h
  have hhere : longScheme? ("http".toList ++ (x ++ [':']) ++ rest) =
      some ("http*:".toList, rest) :=
    longScheme?_eq_some.2 ⟨rfl, x, hlong, hx, by simp⟩
  have hseen : ∀ s out rest, longScheme? s = some (out, rest) →
      ∃ c seen, s = c :: (seen ++ rest) := by
    intro s out rest hs
    obtain ⟨-, y, -, -, rfl⟩ := longScheme?_eq_some.1 hs
    exact ⟨'h', "ttp".toList ++ (y ++ [':']), by simp⟩
  rw [List.append_assoc]
  generalize hs : before ++ ("http".toList ++ (x ++ [':']) ++ rest) = s
  induction s using substituteAll_induction hseen generalizing before with
  | nil => exact absurd hs (by simp)
  | found c seen out rest' hfound ih =>
    rw [substituteAll_of_some rfl hfound, (longScheme?_eq_some.1 hfound).1]
    exact List.mem_append_left _ (by decide)
  | other c s hnone ih =>
    cases before with
    | nil =>
      rw [List.nil_append] at hs
      rw [← hs, hhere] at hnone
      exact absurd hnone (by simp)
    | cons d before =>
      rw [substituteAll_of_none hnone]
      exact List.mem_cons_of_mem c (ih before (List.cons.inj hs).2)

/-! ## A star stays -/

theorem afterRun?_eq_some {x : Char} {s rest : Text} (h : afterRun? x s = some rest) :
    ∃ run, s = x :: (run ++ rest) ∧ ∀ c ∈ run, c = x := by
  cases s with
  | nil => exact absurd h (by simp [afterRun?])
  | cons c s =>
    rw [afterRun?] at h
    split at h
    · next hc =>
      obtain rfl := Option.some.inj h
      refine ⟨s.takeWhile (· == x), by rw [hc, List.takeWhile_append_dropWhile], fun d hd => ?_⟩
      simpa using List.all_eq_true.1 List.all_takeWhile d hd
    · exact absurd h (by simp)

theorem star_mem_escapedMarks (marks : Text) {s : Text} (h : '*' ∈ s) :
    '*' ∈ substituteAll (escapedMark? marks) s := by
  refine mem_substituteAll_of_mem (fun s out rest hs => ?_) h
  unfold escapedMark? at hs
  split at hs
  · next c t hrun =>
    split at hs
    · obtain ⟨rfl, rfl⟩ := Prod.mk.inj (Option.some.inj hs)
      obtain ⟨run, rfl, hall⟩ := afterRun?_eq_some hrun
      refine ⟨'\\', run ++ [c], by simp, fun hmem => ?_⟩
      rw [List.mem_cons, List.mem_append] at hmem
      rcases hmem with hslash | hmem | hc
      · exact absurd hslash (by decide)
      · exact absurd (hall '*' hmem) (by decide)
      · exact hc
    · exact absurd hs (by simp)
  · exact absurd hs (by simp)

theorem star_mem_classEscapes {s : Text} (h : '*' ∈ s) : '*' ∈ substituteAll classEscape? s := by
  refine mem_substituteAll_of_mem (fun s out rest hs => ?_) h
  unfold classEscape? at hs
  split at hs
  · next c t hrun =>
    obtain ⟨run, rfl, -⟩ := afterRun?_eq_some hrun
    split at hs
    · split at hs
      · obtain ⟨rfl, rfl⟩ := Prod.mk.inj (Option.some.inj hs)
        exact ⟨'\\', run ++ [c, '+'], by simp, fun _ => List.mem_singleton_self _⟩
      · obtain ⟨rfl, rfl⟩ := Prod.mk.inj (Option.some.inj hs)
        exact ⟨'\\', run ++ [c, '*'], by simp, fun _ => List.mem_singleton_self _⟩
      · obtain ⟨rfl, rfl⟩ := Prod.mk.inj (Option.some.inj hs)
        exact ⟨'\\', run ++ [c], by simp, fun _ => List.mem_singleton_self _⟩
    · exact absurd hs (by simp)
  · exact absurd hs (by simp)

theorem star_mem_dropDots {escaped : Bool} {s : Text} (h : '*' ∈ s) : '*' ∈ dropDots escaped s := by
  induction escaped, s using dropDots.induct with
  | case1 escaped d s hwild ih =>
    rw [dropDots, if_pos hwild, List.mem_cons]
    have hor : '*' = d ∨ '*' ∈ s := by simpa using h
    exact hor.imp_right ih
  | case2 escaped d s hwild ih =>
    rw [dropDots, if_neg hwild]
    exact List.mem_cons_of_mem _ (ih (by simpa using h))
  | case3 escaped d s hne ih =>
    rw [dropDots.eq_2 _ _ _ hne, List.mem_cons]
    exact (List.mem_cons.1 h).imp_right ih
  | case4 escaped => exact h

/-! ## Long schemes of an escaped text -/

def IsAddressChar (c : Char) : Prop := Item.IsLiteralChar c ∨ c ∈ [':', '.']

instance (c : Char) : Decidable (IsAddressChar c) := inferInstanceAs (Decidable (_ ∨ _))

/-- A long scheme of an escaped text is one of the text itself, where the text between `http`
and the colon counts with its escapes. -/
theorem namesLongScheme_escape_iff {marks : Text} (hmarks : ∀ c ∈ marks, c ∈ ['.', '/', ':'])
    (long : Text → Prop) (word : Text) :
    NamesLongScheme long (escape marks word) ↔
      NamesLongScheme (fun x => long (escape marks x ++ if ':' ∈ marks then ['\\'] else []))
        word := by
  have hcolon : ∀ t, escape marks (':' :: t) =
      (if ':' ∈ marks then ['\\'] else []) ++ ':' :: escape marks t := by
    intro t
    split
    · next h => exact escape_cons_of_mem h t
    · next h => exact escape_cons_of_not_mem h t
  have hfree : ∀ {x : Text}, ':' ∉ x →
      ':' ∉ escape marks x ++ if ':' ∈ marks then ['\\'] else [] := by
    intro x hx hmem
    rcases List.mem_append.1 hmem with h | h
    · exact (mem_escape h).elim (by decide) hx
    · split at h <;> exact absurd h (by decide)
  have hplain : ∀ c ∈ "http".toList, c ∉ marks ∧ c ≠ '\\' := by
    have hother : ∀ c ∈ "http".toList, c ∉ ['.', '/', ':'] ∧ c ≠ '\\' := by decide
    exact fun c hc => ⟨fun hmem => (hother c hc).1 (hmarks c hmem), (hother c hc).2⟩
  constructor
  · rintro ⟨y, hlong, hy, before, rest, heq⟩
    rw [List.append_assoc, List.append_assoc, List.append_assoc, List.singleton_append] at heq
    obtain ⟨before', t, rfl, ht⟩ := exists_of_append_append_eq_escape (by decide) hplain heq
    have hmem : ':' ∈ t := by
      have hin : ':' ∈ escape marks t := ht ▸ List.mem_append_right y List.mem_cons_self
      exact (mem_escape hin).resolve_left (by decide)
    obtain ⟨x, z, rfl, hx⟩ := exists_first_of_mem hmem
    rw [escape_append, hcolon, ← List.append_assoc] at ht
    obtain ⟨rfl, -⟩ := append_cons_inj hy (hfree hx) ht
    exact ⟨x, hlong, hx, before', z, by simp⟩
  · rintro ⟨x, hlong, hx, before, rest, rfl⟩
    refine ⟨_, hlong, hfree hx, escape marks before, escape marks rest, ?_⟩
    have hhttp : escape marks "http".toList = "http".toList :=
      escape_eq_self fun c hc => (hplain c hc).1
    rw [escape_append, escape_append, escape_append, escape_append, hhttp, hcolon []]
    simp [escape]

/-- With its dot escaped a single dot is long. -/
theorem isLong_escapeDots_iff (x : Text) :
    IsLong (escape ['.'] x ++ []) ↔ 2 ≤ x.length ∨ x = ['.'] := by
  match x with
  | [] => decide
  | [c] =>
    by_cases hc : c = '.'
    · subst hc
      decide
    · have hself : escape ['.'] [c] = [c] := escape_cons_of_not_mem (by simpa using hc) []
      simp [hself, IsLong, hc]
  | c :: d :: x =>
    have hlength := length_le_length_escape ['.'] (c :: d :: x)
    simp only [IsLong, List.append_nil, List.length_cons] at hlength ⊢
    exact iff_of_true (by omega) (Or.inl (by omega))

/-- The escape in front of the colon makes any text long but the empty one. -/
theorem isLong_escapeAll_iff (x : Text) :
    IsLong (escape ['.', '/', ':'] x ++ ['\\']) ↔ x ≠ [] := by
  cases x with
  | nil => decide
  | cons c x =>
    have hlength := length_le_length_escape ['.', '/', ':'] (c :: x)
    simp only [IsLong, List.length_append, List.length_cons] at hlength ⊢
    exact iff_of_true (by omega) (List.cons_ne_nil c x)

/-! ## The steps -/

section Steps

variable {marks word : Text} (hdot : '.' ∈ marks) (hmarks : ∀ c ∈ marks, c ∈ ['.', '/', ':'])
  (hword : ∀ c ∈ word, IsAddressChar c)

include hword in
theorem not_mem_escape {c : Char} (hslash : c ≠ '\\') (hc : ¬ IsAddressChar c) :
    c ∉ escape marks word :=
  fun hmem => (mem_escape hmem).elim hslash fun h => hc (hword c h)

include hdot hword in
/-- In front of the scheme there is nothing to do, and of the scheme only an `http` in front
of a colon is folded. -/
theorem foldScheme_escape :
    foldScheme (frontSteps.foldl (fun t step => step.apply t) (escape marks word)) =
      substituteAll longScheme? (escape marks word) := by
  have hfront : ∀ step ∈ frontSteps, ∀ c ∈ step.marks, c ≠ '\\' ∧ ¬ IsAddressChar c := by
    decide
  have hbar : '|' ∉ escape marks word := not_mem_escape hword (by decide) (by decide)
  have hdots : replaceAll "http.".toList "http*".toList (escape marks word) =
      escape marks word := by
    have hsoft := softened_replaceAll ' ' (escape marks word)
    rw [← List.append_nil (escape marks word)] at hsoft
    obtain ⟨before, t, heq, hnil⟩ := firm_escape hdot word ' ' [] _ hsoft
    cases hnil
    simpa using heq
  rw [Step.foldl_apply_eq_self fun step hstep c hc =>
      not_mem_escape hword (hfront step hstep c hc).1 (hfront step hstep c hc).2,
    foldScheme, replaceAll_eq_self_of_not_mem _ (by decide) hbar,
    replaceAll_eq_self_of_not_mem _ (by decide) hbar, hdots]

include hdot hword in
/-- A step that is about dots and backslashes only passes over what is not marked. -/
theorem apply_escape {step : Step} (hlocal : step.isLocal = true)
    (hopeners : ∀ x ∈ step.openers, x ∈ ['.', '\\']) {out : Char → Text}
    (hout : ∀ c ∈ marks, c ≠ '\\' → Turns Anything step.apply ['\\', c] (out c)) :
    step.apply (escape marks word) = word.flatMap fun c => if c ∈ marks then out c else [c] := by
  have hempty : step.apply [] = [] := by
    cases step <;> rfl
  refine (Turns.flatMap (P := Anything) (fun c hc => ?_) fun _ _ _ _ => trivial).apply trivial
    hempty
  have hslash : c ≠ '\\' := by
    rintro rfl
    exact absurd (hword '\\' hc) (by decide)
  by_cases hmem : c ∈ marks
  · rw [if_pos hmem, if_pos hmem]
    exact hout c hmem hslash
  · rw [if_neg hmem, if_neg hmem]
    exact Item.turns_undotted hlocal hopeners (fun heq => hmem (heq ▸ hdot)) hslash

include hdot hmarks hword in
theorem apply_escapedSeparators_escape :
    Step.apply .escapedSeparators (escape marks word) = escape ['.'] word := by
  have hout : ∀ c ∈ marks, c ≠ '\\' → Turns Anything (Step.apply .escapedSeparators) ['\\', c]
      (if c ∈ ['.'] then ['\\', c] else [c]) := by
    intro c hc hslash
    have hor : c = '.' ∨ c ∈ ['/', ':'] := by simpa using hmarks c hc
    rcases hor with rfl | hsep
    · exact Item.turns_escapedMark_self hslash (by decide)
    · have hdot : ∀ c ∈ ['/', ':'], c ∉ ['.'] := by decide
      rw [if_neg (hdot c hsep)]
      exact Item.turns_escapedMark hslash hsep
  rw [apply_escape hdot hword rfl (by decide) hout, escape]
  refine congrArg (word.flatMap ·) (funext fun c => ?_)
  by_cases hmem : c ∈ marks
  · rw [if_pos hmem]
  · have hne : c ∉ ['.'] := fun h => hmem (List.mem_singleton.1 h ▸ hdot)
    rw [if_neg hmem, if_neg hne]

include hword in
theorem apply_escapedLiterals_escape :
    Step.apply .escapedLiterals (escape ['.'] word) = word := by
  have hout : ∀ c ∈ ['.'], c ≠ '\\' → Turns Anything (Step.apply .escapedLiterals) ['\\', c] [c] :=
    fun c hc hslash => Item.turns_escapedMark hslash (List.mem_singleton.1 hc ▸ List.mem_cons_self)
  rw [apply_escape (by decide) hword rfl (by decide) hout]
  simp

include hdot hmarks hword in
/-- Without a long scheme the escapes go and nothing else. -/
theorem simplify_escape (h : ¬ NamesLongScheme IsLong (escape marks word)) :
    simplify (escape marks word) = word := by
  have hmiddle : ∀ step ∈ middleSteps, ∀ c ∈ step.marks, c ≠ '\\' ∧ ¬ IsAddressChar c := by
    decide
  have hlast : ∀ step ∈ [Step.classEscapes, .wildcardRuns], ∀ c ∈ step.marks,
      ¬ IsAddressChar c := by decide
  have hdots : Step.apply .dots (escape marks word) = escape marks word :=
    apply_escape hdot hword rfl (by decide) fun c _ hslash => Item.turns_dots_escaped hslash
  rw [simplify_eq, foldScheme_escape hdot hword, substituteAll_longScheme_eq_self h,
    Step.foldl_apply_eq_self fun step hstep c hc =>
      not_mem_escape hword (hmiddle step hstep c hc).1 (hmiddle step hstep c hc).2,
    lastSteps, List.foldl_cons, hdots, List.foldl_cons,
    apply_escapedSeparators_escape hdot hmarks hword, List.foldl_cons,
    apply_escapedLiterals_escape hword]
  exact Step.foldl_apply_eq_self fun step hstep c hc hmem =>
    hlast step hstep c hc (hword c hmem)

include hdot hword in
/-- A star in place of a long scheme leaves a wildcard. -/
theorem exists_wild_mem_simplify_escape (h : NamesLongScheme IsLong (escape marks word)) :
    ∃ c ∈ simplify (escape marks word), isWildcard c = true := by
  have hmiddle : ∀ step ∈ [Step.counts, .optionalGroups, .repeatedClasses], ∀ c ∈ step.marks,
      c ≠ '\\' ∧ ¬ IsAddressChar c ∧ c ∉ written := by decide
  have hstar := star_mem_substituteAll_longScheme h
  have hfree : ∀ step ∈ [Step.counts, .optionalGroups, .repeatedClasses], ∀ c ∈ step.marks,
      c ∉ substituteAll longScheme? (escape marks word) := by
    intro step hstep c hc hmem
    obtain ⟨hslash, haddress, hwritten⟩ := hmiddle step hstep c hc
    exact (retainsAt_longScheme?.substituteAll _ c hmem).elim
      (not_mem_escape hword hslash haddress) hwritten
  have hmid := Step.foldl_apply_eq_self hfree
  rw [simplify_eq, foldScheme_escape hdot hword]
  generalize substituteAll longScheme? (escape marks word) = s at hstar hmid ⊢
  rw [show middleSteps = [Step.counts, .optionalGroups, .repeatedClasses] ++ [.plus] from rfl,
    List.foldl_append, hmid]
  have hplus : '*' ∈ Step.apply .plus s := mem_replaceAll_of_mem (by decide) _ (by decide) hstar
  have hdots : '*' ∈ Step.apply .dots (Step.apply .plus s) := star_mem_dropDots hplus
  have hclasses := star_mem_classEscapes (star_mem_escapedMarks ['.', '?']
    (star_mem_escapedMarks ['/', ':'] hdots))
  exact exists_wild_mem_collapse rfl hclasses

include hdot hmarks hword in
theorem globs_escape_eq_iff (hne : word ≠ []) :
    globs (escape marks word) = [word] ↔ ¬ NamesLongScheme IsLong (escape marks word) := by
  have hplain : ∀ c ∈ word, isResidual c = false ∧ isWildcard c = false := by
    have hmarks : ∀ c ∈ [':', '.'], isResidual c = false ∧ isWildcard c = false := by decide
    exact fun c hc => (hword c hc).elim Item.IsLiteralChar.plain (hmarks c)
  constructor
  · intro hglobs hlong
    obtain ⟨c, hc, hcwild⟩ := exists_wild_mem_simplify_escape hdot hword hlong
    cases hfound : globs? (escape marks word) with
    | none =>
      rw [globs, hfound] at hglobs
      exact absurd hglobs.symm (List.cons_ne_nil word [])
    | some found =>
      obtain ⟨g, hg, d, hd, hdwild⟩ := exists_wild_mem_of_globs?_eq_some hfound hcwild hc
      rw [globs, hfound] at hglobs
      change found = [word] at hglobs
      rw [hglobs, List.mem_singleton] at hg
      exact Bool.false_ne_true ((hplain d (hg ▸ hd)).2.symm.trans hdwild)
  · intro hlong
    have hself : collapseWildcards word = word :=
      collapse_eq_self fun c hc => (hplain c hc).2
    have hglobs := globs_of_forall_not_residual hne (fun c hc => (hplain c hc).1)
      ((simplify_escape hdot hmarks hword hlong).trans hself.symm)
    rwa [hself] at hglobs

end Steps

/-- An address with its dots escaped, or its slashes and colons as well, is its own glob,
unless a part of it is taken for a long way to write the scheme: an `http` with at least two
characters in front of the next colon, where escapes count. -/
theorem globs_escape_iff {word : Text} (hne : word ≠ []) (hword : ∀ c ∈ word, IsAddressChar c) :
    (globs (escapeDots word) = [word] ↔
      ¬ NamesLongScheme (fun x => 2 ≤ x.length ∨ x = ['.']) word) ∧
    (globs (escape ['.', '/', ':'] word) = [word] ↔ ¬ NamesLongScheme (· ≠ []) word) := by
  constructor
  · rw [escapeDots_eq_escape, globs_escape_eq_iff (by decide) (by decide) hword hne,
      namesLongScheme_escape_iff (by decide)]
    exact not_congr (namesLongScheme_congr isLong_escapeDots_iff word)
  · rw [globs_escape_eq_iff (by decide) (fun _ h => h) hword hne,
      namesLongScheme_escape_iff (fun _ h => h)]
    exact not_congr (namesLongScheme_congr isLong_escapeAll_iff word)

/-- An address with a port, where the escape in front of the first colon decides. -/
theorem globs_escape_iff_port :
    let word := "https://a-1.b_c:80/d.e".toList
    word ≠ [] ∧ (∀ c ∈ word, IsAddressChar c) ∧
      globs (escapeDots word) = [word] ∧
      ¬ NamesLongScheme (fun x => 2 ≤ x.length ∨ x = ['.']) word ∧
      NamesLongScheme (· ≠ []) word ∧
      globs (escape ['.', '/', ':'] word) ≠ [word] := by
  intro word
  have hne : word ≠ [] := by decide
  have hword : ∀ c ∈ word, IsAddressChar c := by decide
  have hdots : globs (escapeDots word) = [word] := by decide
  have hlong : NamesLongScheme (· ≠ []) word :=
    ⟨['s'], by decide, by decide, [], "//a-1.b_c:80/d.e".toList, rfl⟩
  obtain ⟨hfirst, hsecond⟩ := globs_escape_iff hne hword
  exact ⟨hne, hword, hdots, hfirst.1 hdots, hlong, fun h => hsecond.1 h hlong⟩

/-- A path that mentions the scheme in front of a colon, and an address with all its marks
escaped: either glob matches more than the address. -/
theorem globs_escape_ne :
    let word := "https://a.com/http/b:c".toList
    let word' := "https://example.com".toList
    (∀ c ∈ word ++ word', IsAddressChar c) ∧
      globs (escapeDots word) = ["https://a.com/http*:c".toList] ∧
      globs (escapeDots word) ≠ [word] ∧
      globs (escape ['.', '/', ':'] word') = ["http*://example.com".toList] ∧
      globs (escape ['.', '/', ':'] word') ≠ [word'] := by
  decide

end Regexp
end StyleScope
