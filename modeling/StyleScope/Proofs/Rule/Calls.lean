import StyleScope.Rule.Call
import StyleScope.Proofs.Text.Lookahead
import StyleScope.Proofs.Text.Search
import StyleScope.Proofs.Text.Substitution
import StyleScope.Proofs.Text.Splitting

/-!
# The calls of a rule, joined and read back

A rule is cut at the commas behind a `)`, and in each piece the first call is read.  The calls
that are read and the commas that separate take up characters of the rule
(`Rule.weight_parse_le`), so joined calls come back only where the rule is cut between them
and nowhere else (`Rule.parse_text_iff`).
-/

namespace StyleScope
namespace Call

open Text

variable {s value : Text} {call : Call}

/-! ## Reading a call -/

/-- The value can be quoted: there is one, and it has no quote in it. -/
def IsQuotable (call : Call) : Prop := call.value ≠ [] ∧ ∀ c ∈ call.value, isQuote c = false

instance (call : Call) : Decidable call.IsQuotable :=
  inferInstanceAs (Decidable (call.value ≠ [] ∧ ∀ c ∈ call.value, isQuote c = false))

def IsQuoted (value s : Text) : Prop :=
  ∃ q q' rest, s = '(' :: q :: (value ++ q' :: ')' :: rest) ∧ isQuote q = true ∧ isQuote q' = true

theorem quoted?_of_isQuoted (hne : value ≠ []) (hvalue : ∀ c ∈ value, isQuote c = false)
    (h : IsQuoted value s) : quoted? s = some value := by
  obtain ⟨q, q', rest, rfl, hq, hq'⟩ := h
  obtain ⟨c, cs, rfl⟩ := List.exists_cons_of_ne_nil hne
  have hall : ∀ d ∈ c :: cs, (!isQuote d) = true := by simpa using hvalue
  rw [quoted?, if_pos hq, List.takeWhile_append_of_pos hall, List.dropWhile_append_of_pos hall,
    List.takeWhile_cons_of_neg (by simp [hq']), List.dropWhile_cons_of_neg (by simp [hq']),
    List.append_nil]
  rfl

theorem isQuoted_of_quoted? (h : quoted? s = some value) : IsQuoted value s := by
  unfold quoted? at h
  split at h
  · next q s =>
    split at h
    · next hq =>
      split at h
      · next c body q' rest hbody hrest =>
        obtain rfl := Option.some.inj h
        obtain ⟨hq', hs⟩ := eq_append_of_dropWhile_eq_cons hrest
        rw [hbody] at hs
        exact ⟨q, q', rest, by rw [hs], hq, by simpa using hq'⟩
      · exact absurd h (by simp)
    · exact absurd h (by simp)
  · exact absurd h (by simp)

def valueOf? (f : ScopingFunction) (s : Text) : Option Text :=
  (after? f.name s).bind fun rest => quoted? (rest.dropWhile isBlank)

theorem read?_eq_findSome? (s : Text) :
    read? s =
      ScopingFunction.all.findSome? fun f => (valueOf? f s).map fun value => ⟨f, value⟩ := by
  unfold read?
  congr 1
  funext f
  rw [valueOf?, Option.map_bind]
  refine congrArg (Option.bind _) (funext fun rest => ?_)
  exact Option.map_eq_bind.symm

/-- What is read is a name and, blanks aside, a quoted value. -/
theorem exists_of_read? (h : read? s = some call) :
    ∃ blanks t, s = call.function.name ++ (blanks ++ t) ∧ allBlank blanks = true ∧
      IsQuoted call.value t := by
  rw [read?_eq_findSome?] at h
  obtain ⟨f, -, hf⟩ := List.exists_of_findSome?_eq_some h
  obtain ⟨value, hvalue, rfl⟩ := Option.map_eq_some_iff.1 hf
  obtain ⟨rest, hafter, hquoted⟩ := Option.bind_eq_some_iff.1 hvalue
  refine ⟨rest.takeWhile isBlank, rest.dropWhile isBlank, ?_, List.all_takeWhile,
    isQuoted_of_quoted? hquoted⟩
  rw [List.takeWhile_append_dropWhile]
  exact after?_eq_some.1 hafter

theorem text_append (call : Call) (rest : Text) :
    call.text ++ rest = call.function.name ++ '(' :: '"' :: (call.value ++ '"' :: ')' :: rest) := by
  rw [text, List.append_assoc, List.append_assoc, List.append_assoc]
  rfl

/-- No other function is read, not even one whose name the name starts with. -/
theorem valueOf?_name_append {f g : ScopingFunction} (h : f ≠ g) (t : Text) :
    valueOf? f (g.name ++ '(' :: t) = none := by
  cases f <;> cases g <;> first | exact absurd rfl h | rfl

theorem read?_text (h : call.IsQuotable) (rest : Text) : read? (call.text ++ rest) = some call := by
  have hown : valueOf? call.function (call.text ++ rest) = some call.value := by
    rw [text_append, valueOf?, after?_append, Option.bind_some,
      List.dropWhile_cons_of_neg (by decide)]
    exact quoted?_of_isQuoted h.1 h.2 ⟨'"', '"', rest, rfl, by decide, by decide⟩
  have hother : ∀ f, f ≠ call.function → valueOf? f (call.text ++ rest) = none := by
    intro f hf
    rw [text_append]
    exact valueOf?_name_append hf _
  have hmem : call.function ∈ ScopingFunction.all := by cases call.function <;> decide
  obtain ⟨front, back, hall, hfront⟩ := List.eq_append_cons_of_mem hmem
  rw [read?_eq_findSome?, List.findSome?_eq_some_iff]
  refine ⟨front, call.function, back, hall, ?_, fun f hf => ?_⟩
  · rw [hown]
    rfl
  · rw [hother f fun heq => hfront (heq ▸ hf)]
    rfl

def initials : Text := ['u', 'd', 'r']

theorem exists_name_eq (f : ScopingFunction) : ∃ l ls, f.name = l :: ls ∧ l ∈ initials := by
  cases f <;> exact ⟨_, _, rfl, by decide⟩

theorem isBlank_of_mem_initials {c : Char} (h : c ∈ initials) : isBlank c = false := by
  have hall : ∀ c ∈ initials, isBlank c = false := by decide
  exact hall c h

theorem not_mem_initials_of_isBlank {c : Char} (h : isBlank c = true) : c ∉ initials :=
  fun hmem => Bool.false_ne_true ((isBlank_of_mem_initials hmem).symm.trans h)

theorem read?_cons_of_not_mem_initials {c : Char} (hc : c ∉ initials) (s : Text) :
    read? (c :: s) = none := by
  refine Option.eq_none_iff_forall_ne_some.2 fun call h => ?_
  obtain ⟨blanks, t, heq, -⟩ := exists_of_read? h
  obtain ⟨l, ls, hname, hl⟩ := exists_name_eq call.function
  rw [hname] at heq
  obtain ⟨rfl, -⟩ := List.cons.inj heq
  exact hc hl

/-- A call is found where it is written, whatever follows. -/
theorem find?_text (h : call.IsQuotable) (rest : Text) : find? (call.text ++ rest) = some call := by
  rw [find?, find?_of_some (read?_text h rest)]
  rfl

theorem find?_cons_of_not_mem_initials {c : Char} (hc : c ∉ initials) (s : Text) :
    find? (c :: s) = find? s := by
  rw [find?, Text.find?, read?_cons_of_not_mem_initials hc, Option.map_map]
  rfl

theorem isBlank_of_isQuote {c : Char} (h : isQuote c = true) : isBlank c = false := by
  simp only [isQuote, Bool.or_eq_true, beq_iff_eq] at h
  rcases h with rfl | rfl <;> decide

theorem weight_of_isQuoted (h : IsQuoted value s) : weight value + 4 ≤ weight s := by
  obtain ⟨q, q', rest, rfl, hq, hq'⟩ := h
  rw [weight_cons (by decide), weight_cons (isBlank_of_isQuote hq), weight_append,
    weight_cons (isBlank_of_isQuote hq'), weight_cons (by decide)]
  omega

theorem weight_text (call : Call) :
    weight call.text = weight call.function.name + weight call.value + 4 := by
  have hopen : weight "(\"".toList = 2 := by decide
  have hclose : weight "\")".toList = 2 := by decide
  rw [text, weight_append, weight_append, weight_append, hopen, hclose]
  omega

/-- A call that is read somewhere takes up its characters there. -/
theorem weight_text_le_of_find? (h : find? s = some call) : weight call.text ≤ weight s := by
  obtain ⟨⟨before, call'⟩, hfound, heq⟩ := Option.map_eq_some_iff.1 h
  obtain rfl : call' = call := heq
  obtain ⟨rest, rfl, hread⟩ := find?_some hfound
  obtain ⟨blanks, t, rfl, -, hquoted⟩ := exists_of_read? hread
  have hvalue := weight_of_isQuoted hquoted
  rw [weight_text, weight_append, weight_append, weight_append]
  omega

end Call

namespace Rule

open Text

variable {closed : Bool} {c : Char} {s x y blanks : Text} {call : Call} {calls : List Call}

/-! ## Cutting a rule -/

theorem splitFrom_comma (s : Text) : splitFrom true (',' :: s) = ([], splitCalls s) := rfl

theorem splitFrom_cons (h : ¬ (c = ',' ∧ closed = true)) (s : Text) :
    splitFrom closed (c :: s) =
      (c :: (splitFrom (if isBlank c then closed else c == ')') s).1,
        (splitFrom (if isBlank c then closed else c == ')') s).2) :=
  if_neg (by simpa using h)

theorem splitFrom_close (s : Text) :
    splitFrom closed (')' :: s) = (')' :: (splitFrom true s).1, (splitFrom true s).2) :=
  splitFrom_cons (by simp) s

theorem splitFrom_blank (hc : isBlank c = true) (s : Text) :
    splitFrom closed (c :: s) = (c :: (splitFrom closed s).1, (splitFrom closed s).2) := by
  have hcomma : c ≠ ',' := by
    rintro rfl
    exact absurd hc (by decide)
  rw [splitFrom_cons (by simp [hcomma]), if_pos hc]

/-- There is one piece where no comma stands behind a `)`, be it one in front of the text. -/
theorem splitFrom_eq_self_iff :
    splitFrom closed s = (s, []) ↔ ¬ ClosesBefore ',' s ∧ ¬ (closed = true ∧ ComesNext ',' s) := by
  induction s generalizing closed with
  | nil => simp [splitFrom, not_closesBefore_nil, not_comesNext_nil]
  | cons c s ih =>
    rw [closesBefore_cons_iff, comesNext_cons_iff]
    by_cases hcut : c = ',' ∧ closed = true
    · obtain ⟨rfl, rfl⟩ := hcut
      rw [splitFrom_comma]
      simp
    · have hsame : splitFrom closed (c :: s) = (c :: s, []) ↔
          splitFrom (if isBlank c then closed else c == ')') s = (s, []) := by
        rw [splitFrom_cons hcut]
        simp [Prod.ext_iff]
      rw [hsame, ih]
      -- A blank leaves it open whether a `)` stands in front, other characters decide it.
      by_cases hblank : isBlank c = true
      · have hclose : c ≠ ')' := by
          rintro rfl
          exact absurd hblank (by decide)
        grind
      · grind

/-- A comma behind a `)` cuts the rule in two that are cut on their own. -/
theorem splitFrom_append (hblanks : allBlank blanks = true) (y : Text) :
    splitFrom closed (x ++ ')' :: (blanks ++ ',' :: y)) =
      ((splitFrom closed (x ++ ')' :: blanks)).1,
        (splitFrom closed (x ++ ')' :: blanks)).2 ++ splitCalls y) := by
  induction x generalizing closed with
  | nil =>
    have hrest : splitFrom true (blanks ++ ',' :: y) =
        ((splitFrom true blanks).1, (splitFrom true blanks).2 ++ splitCalls y) := by
      induction blanks with
      | nil => rfl
      | cons b blanks ih =>
        rw [allBlank_cons_iff] at hblanks
        rw [List.cons_append, splitFrom_blank hblanks.1, splitFrom_blank hblanks.1, ih hblanks.2]
    rw [List.nil_append, List.nil_append, splitFrom_close, splitFrom_close, hrest]
  | cons c x ih =>
    by_cases hcut : c = ',' ∧ closed = true
    · obtain ⟨rfl, rfl⟩ := hcut
      rw [List.cons_append, List.cons_append, splitFrom_comma, splitFrom_comma, splitCalls, ih]
      rfl
    · rw [List.cons_append, List.cons_append, splitFrom_cons hcut, splitFrom_cons hcut, ih]

theorem splitCalls_append (hblanks : allBlank blanks = true) (y : Text) :
    splitCalls (x ++ ')' :: (blanks ++ ',' :: y)) =
      splitCalls (x ++ ')' :: blanks) ++ splitCalls y := by
  rw [splitCalls, splitFrom_append hblanks]
  rfl

theorem splitCalls_eq_self_iff : splitCalls s = [s] ↔ ¬ ClosesBefore ',' s := by
  have h : splitCalls s = [s] ↔ splitFrom false s = (s, []) := by
    simp [splitCalls, Prod.ext_iff]
  rw [h, splitFrom_eq_self_iff]
  simp

/-- The pieces and the commas between them are the rule. -/
theorem intercalate_splitFrom (closed : Bool) (s : Text) :
    List.intercalate [','] ((splitFrom closed s).1 :: (splitFrom closed s).2) = s := by
  induction s generalizing closed with
  | nil => rfl
  | cons c s ih =>
    by_cases hcut : c = ',' ∧ closed = true
    · obtain ⟨rfl, rfl⟩ := hcut
      have hrest := ih false
      rw [splitFrom_comma, splitCalls, intercalate_cons_cons]
      simpa using hrest
    · rw [splitFrom_cons hcut, List.intercalate_cons_cons_left, ih]

theorem intercalate_splitCalls (s : Text) : List.intercalate [','] (splitCalls s) = s :=
  intercalate_splitFrom false s

theorem length_splitCalls_eq_one_iff : (splitCalls s).length = 1 ↔ ¬ ClosesBefore ',' s := by
  rw [← splitCalls_eq_self_iff]
  constructor
  · intro h
    obtain ⟨p, hp⟩ := List.length_eq_one_iff.1 h
    have hs := intercalate_splitCalls s
    rw [hp, List.intercalate_singleton] at hs
    rw [hp, hs]
  · intro h
    rw [h, List.length_singleton]

theorem splitCalls_cons (hc : c ≠ ')') (s : Text) :
    splitCalls (c :: s) = (splitCalls s).modifyHead (c :: ·) := by
  have hclosed : (if isBlank c then false else c == ')') = false := by
    simp [hc]
  rw [splitCalls, splitFrom_cons (by simp), hclosed]
  rfl

/-! ## Reading a rule -/

theorem parse_cons_of_not_mem_initials (hc : c ∉ Call.initials) (hclose : c ≠ ')') (s : Text) :
    parse (c :: s) = parse s := by
  have hfind : ∀ p ps, ((p :: ps).modifyHead (c :: ·)).filterMap Call.find? =
      (p :: ps).filterMap Call.find? := by
    intro p ps
    rw [List.modifyHead_cons, List.filterMap_cons, List.filterMap_cons,
      Call.find?_cons_of_not_mem_initials hc]
  rw [parse, splitCalls_cons hclose]
  exact hfind _ _

theorem parse_cons_of_blank (hc : isBlank c = true) (s : Text) : parse (c :: s) = parse s := by
  refine parse_cons_of_not_mem_initials (Call.not_mem_initials_of_isBlank hc) ?_ s
  rintro rfl
  exact absurd hc (by decide)

theorem parse_append_of_allBlank (hblanks : allBlank blanks = true) (s : Text) :
    parse (blanks ++ s) = parse s := by
  induction blanks with
  | nil => rfl
  | cons b blanks ih =>
    rw [allBlank_cons_iff] at hblanks
    rw [List.cons_append, parse_cons_of_blank hblanks.1, ih hblanks.2]

theorem weight_flatMap_filterMap_le (ps : List Text) :
    weight ((ps.filterMap Call.find?).flatMap Call.text) ≤ weight ps.flatten := by
  induction ps with
  | nil => exact Nat.le_refl _
  | cons p ps ih =>
    rw [List.flatten_cons, weight_append]
    cases hp : Call.find? p with
    | none =>
      rw [List.filterMap_cons_none hp]
      omega
    | some call =>
      rw [List.filterMap_cons_some hp, List.flatMap_cons, weight_append]
      have hcall := Call.weight_text_le_of_find? hp
      omega

/-- The calls that are read and the commas that separate take up characters of the rule. -/
theorem weight_parse_le (s : Text) :
    weight ((parse s).flatMap Call.text) + (splitCalls s).length ≤ weight s + 1 := by
  have hne : splitCalls s ≠ [] := List.cons_ne_nil _ _
  have hpieces := weight_intercalate (show isBlank ',' = false by decide) hne
  rw [intercalate_splitCalls] at hpieces
  have hcalls := weight_flatMap_filterMap_le (splitCalls s)
  rw [← parse] at hcalls
  omega

theorem length_parse_le (s : Text) : (parse s).length ≤ (splitCalls s).length :=
  List.length_filterMap_le _ _

/-! ## Joined calls -/

def text (calls : List Call) : Text := List.intercalate ", ".toList (calls.map Call.text)

theorem text_singleton (call : Call) : text [call] = call.text := List.intercalate_singleton

theorem text_cons_cons (call next : Call) (more : List Call) :
    text (call :: next :: more) = call.text ++ ',' :: ' ' :: text (next :: more) := by
  simp [text, List.intercalate]

theorem exists_call_text_eq (call : Call) :
    ∃ l mid, call.text = l :: (mid ++ [')']) ∧ l ∈ Call.initials := by
  obtain ⟨l, ls, hname, hl⟩ := Call.exists_name_eq call.function
  refine ⟨l, ls ++ "(\"".toList ++ call.value ++ ['"'], ?_, hl⟩
  rw [Call.text, hname]
  simp only [List.append_assoc, List.cons_append]
  rfl

theorem exists_text_eq (hne : calls ≠ []) :
    ∃ l mid, text calls = l :: (mid ++ [')']) ∧ l ∈ Call.initials := by
  induction calls with
  | nil => exact absurd rfl hne
  | cons call more ih =>
    obtain ⟨l, mid, hcall, hl⟩ := exists_call_text_eq call
    cases more with
    | nil => exact ⟨l, mid, by rw [text_singleton, hcall], hl⟩
    | cons next more =>
      obtain ⟨l', mid', hmore, -⟩ := ih (List.cons_ne_nil next more)
      refine ⟨l, mid ++ ')' :: ',' :: ' ' :: l' :: mid', ?_, hl⟩
      rw [text_cons_cons, hcall, hmore]
      simp

theorem splitCalls_text_append (call : Call) (y : Text) :
    splitCalls (call.text ++ ',' :: y) = splitCalls call.text ++ splitCalls y := by
  obtain ⟨l, mid, hcall, -⟩ := exists_call_text_eq call
  rw [hcall, ← List.cons_append, List.append_assoc]
  exact splitCalls_append (rfl : allBlank [] = true) y

/-- Only the value of a call can close in front of a character that is no quote. -/
theorem closesBefore_call_text {mark : Char} (hmark : mark ≠ '"') :
    ClosesBefore mark call.text ↔ ClosesBefore mark call.value := by
  have htext : call.text = call.function.name ++ ['('] ++ '"' :: (call.value ++ '"' :: [')']) := by
    have h := call.text_append []
    rw [List.append_nil] at h
    rw [h]
    simp
  have hname : ')' ∉ call.function.name ++ ['('] := by cases call.function <;> decide
  have hopen : ¬ ClosesBefore mark (call.function.name ++ ['(']) := by
    rw [← List.append_nil (call.function.name ++ ['(']), closesBefore_append hname]
    exact not_closesBefore_nil
  have hclose : ¬ ClosesBefore mark [')'] := by
    rw [closesBefore_cons_iff]
    exact not_or.2 ⟨fun h => not_comesNext_nil h.2, not_closesBefore_nil⟩
  rw [htext, closesBefore_append_cons_iff (by decide) (by decide) hmark.symm,
    closesBefore_append_cons_iff (by decide) (by decide) hmark.symm]
  simp [hopen, hclose]

theorem closesBefore_text_iff {mark : Char} (hquote : mark ≠ '"') (hcomma : mark ≠ ',') :
    ClosesBefore mark (text calls) ↔ ∃ call ∈ calls, ClosesBefore mark call.value := by
  induction calls with
  | nil => exact iff_of_false not_closesBefore_nil (by simp)
  | cons call more ih =>
    have hmem : (∃ c ∈ call :: more, ClosesBefore mark c.value) ↔
        ClosesBefore mark call.text ∨ ClosesBefore mark (text more) := by
      rw [ih, closesBefore_call_text hquote]
      simp
    rw [hmem]
    cases more with
    | nil =>
      have hnil : ¬ ClosesBefore mark (text []) := not_closesBefore_nil
      rw [text_singleton, or_iff_left hnil]
    | cons next more =>
      rw [text_cons_cons, closesBefore_append_cons_iff (by decide) (by decide) hcomma.symm,
        closesBefore_cons_iff]
      simp

theorem length_splitCalls_text_cons_cons (call next : Call) (more : List Call) :
    (splitCalls (text (call :: next :: more))).length =
      (splitCalls call.text).length + (splitCalls (text (next :: more))).length := by
  rw [text_cons_cons, splitCalls_text_append, List.length_append,
    splitCalls_cons (by decide), List.length_modifyHead]

theorem one_le_length_splitCalls (s : Text) : 1 ≤ (splitCalls s).length :=
  Nat.succ_le_succ (Nat.zero_le _)

theorem length_le_length_splitCalls_text (calls : List Call) :
    calls.length ≤ (splitCalls (text calls)).length := by
  induction calls with
  | nil => exact Nat.zero_le _
  | cons call more ih =>
    cases more with
    | nil => exact one_le_length_splitCalls _
    | cons next more =>
      rw [length_splitCalls_text_cons_cons, List.length_cons]
      have hcall := one_le_length_splitCalls call.text
      omega

/-- A joined rule with no more pieces than calls is cut nowhere else. -/
theorem not_closesBefore_of_length_splitCalls_text
    (h : (splitCalls (text calls)).length = calls.length) :
    ∀ call ∈ calls, ¬ ClosesBefore ',' call.value := by
  induction calls with
  | nil => exact fun call hcall => absurd hcall List.not_mem_nil
  | cons call more ih =>
    rw [List.forall_mem_cons, ← closesBefore_call_text (by decide), ← length_splitCalls_eq_one_iff]
    cases more with
    | nil =>
      rw [text_singleton] at h
      exact ⟨h, fun call hcall => absurd hcall List.not_mem_nil⟩
    | cons next more =>
      rw [length_splitCalls_text_cons_cons, List.length_cons] at h
      have hcall := one_le_length_splitCalls call.text
      have hmore := length_le_length_splitCalls_text (next :: more)
      exact ⟨by omega, ih (by omega)⟩

theorem weight_text (hne : calls ≠ []) :
    weight (text calls) + 1 = weight (calls.flatMap Call.text) + calls.length := by
  induction calls with
  | nil => exact absurd rfl hne
  | cons call more ih =>
    cases more with
    | nil => simp [text_singleton]
    | cons next more =>
      have hmore := ih (List.cons_ne_nil next more)
      rw [text_cons_cons, weight_append, weight_cons (by decide), weight_cons_of_blank (by decide),
        List.flatMap_cons, weight_append, List.length_cons]
      omega

/-- A rule is not lighter than the calls that are read in it. -/
theorem weight_text_parse_le (hne : parse s ≠ []) : weight (text (parse s)) ≤ weight s := by
  have hread := weight_parse_le s
  have hjoined := weight_text hne
  have hlength := length_parse_le s
  omega

theorem parse_call_text_append (hcall : call.IsQuotable) (h : ¬ ClosesBefore ',' call.value)
    (hblanks : allBlank blanks = true) : parse (call.text ++ blanks) = [call] := by
  have hone : splitCalls (call.text ++ blanks) = [call.text ++ blanks] := by
    rwa [splitCalls_eq_self_iff, closesBefore_append_of_allBlank hblanks (by decide),
      closesBefore_call_text (by decide)]
  rw [parse, hone, List.filterMap_cons_some (Call.find?_text hcall blanks), List.filterMap_nil]

theorem parse_call_text (hcall : call.IsQuotable) (h : ¬ ClosesBefore ',' call.value) :
    parse call.text = [call] := by
  have hparse := parse_call_text_append hcall h (rfl : allBlank [] = true)
  rwa [List.append_nil] at hparse

/-- The first call of a list is read, and the list goes on behind the comma. -/
theorem parse_call_text_append_comma (hcall : call.IsQuotable) (h : ¬ ClosesBefore ',' call.value)
    (hblanks : allBlank blanks = true) (y : Text) :
    parse (call.text ++ (blanks ++ ',' :: y)) = call :: parse y := by
  obtain ⟨l, mid, htext, -⟩ := exists_call_text_eq call
  have hread := parse_call_text_append hcall h hblanks
  have hsplit := splitCalls_append (x := l :: mid) hblanks y
  have hfront : l :: mid ++ ')' :: blanks = call.text ++ blanks := by simp [htext]
  have hwhole : l :: mid ++ ')' :: (blanks ++ ',' :: y) = call.text ++ (blanks ++ ',' :: y) := by
    simp [htext]
  rw [hfront, hwhole] at hsplit
  rw [parse, hsplit, List.filterMap_append, ← parse, ← parse, hread]
  rfl

theorem parse_text (hcalls : ∀ call ∈ calls, call.IsQuotable)
    (h : ∀ call ∈ calls, ¬ ClosesBefore ',' call.value) : parse (text calls) = calls := by
  induction calls with
  | nil => rfl
  | cons call more ih =>
    rw [List.forall_mem_cons] at hcalls h
    cases more with
    | nil => rw [text_singleton, parse_call_text hcalls.1 h.1]
    | cons next more =>
      rw [text_cons_cons]
      refine (parse_call_text_append_comma hcalls.1 h.1 (rfl : allBlank [] = true) _).trans ?_
      rw [parse_cons_of_blank (by decide), ih hcalls.2 h.2]

/-- The calls of a joined rule come back exactly when no comma behind a `)` is in a value. -/
theorem parse_text_iff (hne : calls ≠ []) (hcalls : ∀ call ∈ calls, call.IsQuotable) :
    parse (text calls) = calls ↔ ∀ call ∈ calls, ¬ ClosesBefore ',' call.value := by
  refine ⟨fun h => not_closesBefore_of_length_splitCalls_text ?_, parse_text hcalls⟩
  -- The weight of the calls and their commas leaves no room for another comma.
  have hread := weight_parse_le (text calls)
  have hlength := length_le_length_splitCalls_text calls
  have hjoined := weight_text hne
  rw [h] at hread
  omega

end Rule
end StyleScope
