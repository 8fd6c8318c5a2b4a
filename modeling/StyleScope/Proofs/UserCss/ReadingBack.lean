import StyleScope.Proofs.Rule.LineBreaks
import StyleScope.Conversion

/-!
# What the directives are read back as

The key of a directive ends where its column ends, spaces aside, and the rest of its line is the
value.  A directive is a line, so it is read back when its value has no line break, and a value
with one makes further lines.  Counting the lines is enough to see that nothing makes up
for that: `readDirectives_flatMap_text_iff`.  With the line breaks of a rule's patterns
known, `readDirectives_directivesText_iff` says for which rules the directives of a
conversion are read back.
-/

namespace StyleScope
namespace UserCss

open Text

def dropSpaces (s : Text) : Text := (s.reverse.dropWhile (· == ' ')).reverse

def readDirective (line : Text) : Directive where
  key := dropSpaces (line.take keyWidth)
  value := line.drop keyWidth

/-- The directives of a text, each of which starts with a line break. -/
def readDirectives (s : Text) : List Directive := (List.splitOn '\n' s).tail.map readDirective

/-- A key with spaces behind it is read without them. -/
theorem dropSpaces_append_replicate {key : Text} (h : key.getLast? ≠ some ' ') (n : Nat) :
    dropSpaces (key ++ List.replicate n ' ') = key := by
  unfold dropSpaces
  rw [List.reverse_append, List.reverse_replicate]
  have hdrop : ∀ m : Nat, (List.replicate m ' ' ++ key.reverse).dropWhile (· == ' ') =
      key.reverse.dropWhile (· == ' ') := by
    intro m
    induction m with
    | zero => rfl
    | succ m ih => rw [List.replicate_succ, List.cons_append, List.dropWhile_cons_of_pos rfl, ih]
  rw [hdrop]
  cases hk : key.reverse with
  | nil => rw [List.reverse_eq_nil_iff.1 hk]; rfl
  | cons c rest =>
    have hc : c ≠ ' ' := by
      rintro rfl
      apply h
      rw [List.getLast?_eq_head?_reverse, hk]
      rfl
    rw [List.dropWhile_cons_of_neg (by simpa using hc), ← hk, List.reverse_reverse]

/-- A directive on a line of its own is read as it was written. -/
theorem readDirective_text {d : Directive} (hk : d.key.length ≤ keyWidth)
    (hl : d.key.getLast? ≠ some ' ') : readDirective d.text.tail = d := by
  have hlen : (d.key ++ List.replicate (keyWidth - d.key.length) ' ').length = keyWidth := by
    rw [List.length_append, List.length_replicate]
    omega
  have htext : d.text.tail =
      (d.key ++ List.replicate (keyWidth - d.key.length) ' ') ++ d.value := rfl
  unfold readDirective
  rw [htext, List.take_left' hlen, List.drop_left' hlen, dropSpaces_append_replicate hl]

/-- A directive whose key can be read off its column. -/
structure Directive.Fits (d : Directive) : Prop where
  length_le : d.key.length ≤ keyWidth
  getLast?_ne : d.key.getLast? ≠ some ' '
  newline_not_mem : '\n' ∉ d.key

namespace Directive

variable {d : Directive} {ds : List Directive}

theorem newline_not_mem_padding (d : Directive) :
    '\n' ∉ List.replicate (keyWidth - d.key.length) ' ' := by
  intro hmem
  exact absurd (List.eq_of_mem_replicate hmem) (by decide)

theorem newline_mem_tail_iff (h : d.Fits) : '\n' ∈ d.text.tail ↔ '\n' ∈ d.value := by
  have htail : d.text.tail =
      d.key ++ List.replicate (keyWidth - d.key.length) ' ' ++ d.value := rfl
  rw [htail, List.mem_append, List.mem_append]
  simp only [h.newline_not_mem, d.newline_not_mem_padding, false_or]

/-- The line breaks of a directive are the one in front and those of the value. -/
theorem count_newline_text (h : d.Fits) : d.text.count '\n' = d.value.count '\n' + 1 := by
  rw [text, List.count_append, List.count_append, List.count_cons_self,
    List.count_eq_zero.2 h.newline_not_mem, List.count_eq_zero.2 d.newline_not_mem_padding]
  omega

theorem count_newline_flatMap_text (h : ∀ d ∈ ds, d.Fits) :
    (ds.flatMap text).count '\n' = ds.length + (ds.flatMap value).count '\n' := by
  induction ds with
  | nil => rfl
  | cons d ds ih =>
    rw [List.flatMap_cons, List.flatMap_cons, List.count_append, List.count_append,
      count_newline_text (h d List.mem_cons_self),
      ih fun e he => h e (List.mem_cons_of_mem d he), List.length_cons]
    omega

end Directive

variable {ds : List Directive}

/-- As many directives are read as there are line breaks. -/
theorem length_readDirectives (s : Text) : (readDirectives s).length = s.count '\n' := by
  rw [readDirectives, List.length_map, List.length_tail, length_splitOn, Nat.add_sub_cancel]

theorem readDirectives_flatMap_text (hfits : ∀ d ∈ ds, d.Fits) (h : ∀ d ∈ ds, '\n' ∉ d.value) :
    readDirectives (ds.flatMap Directive.text) = ds := by
  have hlines : ds.flatMap Directive.text = [] ++ (ds.map (·.text.tail)).flatMap ('\n' :: ·) := by
    rw [List.nil_append, List.flatMap_map]
    rfl
  have hbreaks : ∀ line ∈ ds.map (·.text.tail), '\n' ∉ line := by
    intro line hline
    obtain ⟨d, hd, rfl⟩ := List.mem_map.1 hline
    exact mt (Directive.newline_mem_tail_iff (hfits d hd)).1 (h d hd)
  have hread : ∀ d ∈ ds, readDirective d.text.tail = d := fun d hd =>
    readDirective_text (hfits d hd).length_le (hfits d hd).getLast?_ne
  rw [readDirectives, hlines, splitOn_append_flatMap List.not_mem_nil hbreaks, List.tail_cons,
    List.map_map]
  exact (List.map_congr_left hread).trans (List.map_id ds)

/-- Directives are read back exactly when each value is on one line. -/
theorem readDirectives_flatMap_text_iff (hfits : ∀ d ∈ ds, d.Fits) :
    readDirectives (ds.flatMap Directive.text) = ds ↔ ∀ d ∈ ds, '\n' ∉ d.value := by
  constructor
  · intro h d hd hbreak
    have hcount : (ds.flatMap Directive.value).count '\n' = 0 := by
      have hlength := length_readDirectives (ds.flatMap Directive.text)
      rw [h, Directive.count_newline_flatMap_text hfits] at hlength
      omega
    exact List.count_eq_zero.1 hcount (List.mem_flatMap.2 ⟨d, hd, hbreak⟩)
  · exact readDirectives_flatMap_text hfits

variable {settings : Settings} {set : PatternSet} {source : Text}

theorem fits_of_mem_directives {source : Option Text} {d : Directive}
    (h : d ∈ directives settings set source) : d.Fits := by
  have hkey : d.key ∈ ["@compatible".toList, "@converted-from".toList, "@match".toList,
      "@include".toList] := by
    simp only [directives, List.mem_cons, List.mem_append, List.mem_map] at h
    rcases h with rfl | rfl | ⟨p, -, rfl⟩ | ⟨p, -, rfl⟩ <;> simp
  have hall : ∀ key ∈ ["@compatible".toList, "@converted-from".toList, "@match".toList,
      "@include".toList], key.length ≤ keyWidth ∧ key.getLast? ≠ some ' ' ∧ '\n' ∉ key := by
    decide
  obtain ⟨hlength, hlast, hbreak⟩ := hall d.key hkey
  exact ⟨hlength, hlast, hbreak⟩

theorem sourceText_of_trim_eq (htrim : trim source = source) (hne : source ≠ []) :
    sourceText (some source) = source := by
  cases source with
  | nil => exact absurd rfl hne
  | cons c s => rw [sourceText, Option.map_some, htrim]

/-- The directives of a conversion to one-line settings are read back exactly when no
pattern has a line break. -/
theorem readDirectives_directivesText_eq_iff {source : Option Text}
    (hlabel : '\n' ∉ settings.compatible) (hsource : '\n' ∉ sourceText source) :
    readDirectives (directivesText settings set source) = directives settings set source ↔
      (∀ p ∈ set.matchPatterns, '\n' ∉ p) ∧ ∀ p ∈ set.includePatterns, '\n' ∉ p := by
  rw [directivesText, readDirectives_flatMap_text_iff fun d hd => fits_of_mem_directives hd]
  simp [directives, hlabel, hsource, UniqueList.mem_def, or_imp, forall_and]

/-- The directives of a rule's patterns are read back exactly when none of its calls breaks a
line, or when the pattern for every web address displaces what they contribute. -/
theorem readDirectives_directivesText_iff (list : Text) (hlabel : '\n' ∉ settings.compatible)
    (hsource : '\n' ∉ source) (htrim : trim source = source) (hne : source ≠ []) :
    readDirectives (directivesText settings (Rule.patterns (Rule.parse list)) (some source)) =
        ⟨"@compatible".toList, settings.compatible⟩ :: ⟨"@converted-from".toList, source⟩ ::
          ((Rule.patterns (Rule.parse list)).matchPatterns.toList.map
              (Directive.mk "@match".toList) ++
            (Rule.patterns (Rule.parse list)).includePatterns.toList.map
              (Directive.mk "@include".toList)) ↔
      Pattern.catchAll ∈ (Rule.patterns (Rule.parse list)).matchPatterns ∨
        ∀ call ∈ Rule.parse list, call.StaysOnLine := by
  have hwritten := sourceText_of_trim_eq htrim hne
  rw [← Rule.forall_newline_not_mem_patterns_iff,
    ← readDirectives_directivesText_eq_iff hlabel (hwritten.symm ▸ hsource), directives, hwritten]

theorem readDirectives_directivesText_iff_host :
    readDirectives (directivesText {}
        (Rule.patterns (Rule.parse "domain(\"a.com\")".toList)) (some "https://b.org/".toList)) =
      [⟨"@compatible".toList, "FireMonkey".toList⟩,
        ⟨"@converted-from".toList, "https://b.org/".toList⟩,
        ⟨"@match".toList, "*://*.a.com/*".toList⟩] := by
  have hset : (Rule.patterns (Rule.parse "domain(\"a.com\")".toList)).matchPatterns.toList =
      ["*://*.a.com/*".toList] ∧
    (Rule.patterns (Rule.parse "domain(\"a.com\")".toList)).includePatterns.toList = [] := by
    decide
  have hno : ∀ call ∈ Rule.parse "domain(\"a.com\")".toList, '\n' ∉ call.value := by decide
  have hread := (@readDirectives_directivesText_iff {} "https://b.org/".toList
    "domain(\"a.com\")".toList (by decide) (by decide) (by decide) (by decide)).2
    (Or.inr fun call hcall hbreak => absurd hbreak (hno call hcall))
  rw [hset.1, hset.2] at hread
  exact hread

/-- One match pattern whose address goes on behind a line break is read as two directives. -/
theorem readDirectives_directivesText_newline :
    let set := Rule.patterns (Rule.parse "url(\"https://a.com/\n@match\")".toList)
    set.matchPatterns.toList = ["https://a.com/\n@match".toList] ∧
      set.includePatterns.toList = [] ∧
      readDirectives (directivesText {} set (some "https://b.org/".toList)) =
        [⟨"@compatible".toList, "FireMonkey".toList⟩,
          ⟨"@converted-from".toList, "https://b.org/".toList⟩,
          ⟨"@match".toList, "https://a.com/".toList⟩,
          ⟨"@match".toList, []⟩] := by
  decide

end UserCss
end StyleScope
