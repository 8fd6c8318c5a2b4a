import StyleScope.Proofs.Pattern.Sets
import StyleScope.Rule.Patterns

/-!
# Where the patterns of a rule come from

Before a rule is tidied up, its match patterns are those that a call contributes and
those that globs of calls are promoted to; the other globs stay what they are.  The
pattern for every web address then displaces the rest (`Rule.catchAll_mem_patterns`).

A set is tidy when no glob in it can be promoted and the pattern for every web address
stands alone.  Promotion can bring that pattern in, so globs are promoted before the rest
is displaced: in this order any set becomes tidy, and a tidy set is one that both steps
leave as it is (`PatternSet.isTidy_iff`).  The patterns of a rule are tidied up in this
way (`Rule.patterns_tidied`).
-/

namespace StyleScope
namespace Rule

open PatternSet

/-- The patterns of a rule before one of them can displace the rest. -/
def contributed (calls : List Call) : PatternSet :=
  (PatternSet.empty.addAll (calls.flatMap Call.scopes)).promote Pattern.ofInclude?

variable {calls : List Call} {p : Text}

theorem mem_matchPatterns_contributed :
    p ∈ (contributed calls).matchPatterns ↔
      (∃ call ∈ calls, Scope.byMatch p ∈ call.scopes) ∨
      ∃ call ∈ calls, ∃ glob, Scope.byInclude glob ∈ call.scopes ∧
        Pattern.ofInclude? glob = some p := by
  rw [contributed, mem_matchPatterns_promote, mem_matchPatterns_addAll, List.mem_flatMap]
  refine or_congr (or_iff_right (not_mem_empty p)) ?_
  constructor
  · rintro ⟨glob, hglob, hp⟩
    rcases mem_includePatterns_addAll.1 hglob with hglob | hglob
    · exact absurd hglob (not_mem_empty glob)
    · obtain ⟨call, hcall, hscope⟩ := List.mem_flatMap.1 hglob
      exact ⟨call, hcall, glob, hscope, hp⟩
  · rintro ⟨call, hcall, glob, hscope, hp⟩
    exact ⟨glob, mem_includePatterns_addAll.2 (Or.inr (List.mem_flatMap.2 ⟨call, hcall, hscope⟩)),
      hp⟩

theorem mem_includePatterns_contributed :
    p ∈ (contributed calls).includePatterns ↔
      (∃ call ∈ calls, Scope.byInclude p ∈ call.scopes) ∧ Pattern.ofInclude? p = none := by
  rw [contributed, mem_includePatterns_promote, mem_includePatterns_addAll, List.mem_flatMap]
  exact and_congr_left' (or_iff_right (not_mem_empty p))

theorem patterns_of_catchAll_mem (h : Pattern.catchAll ∈ (contributed calls).matchPatterns) :
    patterns calls = PatternSet.catchAll :=
  if_pos (hasCatchAll_iff.2 h)

theorem patterns_of_catchAll_not_mem
    (h : Pattern.catchAll ∉ (contributed calls).matchPatterns) :
    patterns calls = contributed calls :=
  collapse_of_not_mem h

/-- Displacing the rest keeps the pattern for every web address and adds it nowhere. -/
theorem catchAll_mem_patterns :
    Pattern.catchAll ∈ (patterns calls).matchPatterns ↔
      Pattern.catchAll ∈ (contributed calls).matchPatterns := by
  by_cases h : Pattern.catchAll ∈ (contributed calls).matchPatterns
  · rw [patterns_of_catchAll_mem h]
    exact iff_of_true (List.mem_singleton.2 rfl) h
  · rw [patterns_of_catchAll_not_mem h]

end Rule

/-! ## Tidy sets -/

namespace PatternSet

variable {toMatch? : Text → Option Text} {set : PatternSet}

/-- Nothing is left to promote and nothing to displace. -/
structure IsTidy (toMatch? : Text → Option Text) (set : PatternSet) : Prop where
  stays : ∀ glob ∈ set.includePatterns, toMatch? glob = none
  alone : Pattern.catchAll ∈ set.matchPatterns → set = catchAll

theorem isTidy_catchAll : IsTidy toMatch? catchAll where
  stays glob h := absurd h (not_mem_empty glob)
  alone _ := rfl

/-- Promoting and then displacing makes a set tidy. -/
theorem isTidy_collapse_promote (toMatch? : Text → Option Text) (set : PatternSet) :
    IsTidy toMatch? (set.promote toMatch?).collapse := by
  by_cases h : Pattern.catchAll ∈ (set.promote toMatch?).matchPatterns
  · rw [collapse_of_mem h]
    exact isTidy_catchAll
  · rw [collapse_of_not_mem h]
    exact ⟨fun glob hglob => (mem_includePatterns_promote.1 hglob).2, fun hmem => absurd hmem h⟩

theorem IsTidy.promote_eq_self (h : IsTidy toMatch? set) : set.promote toMatch? = set := by
  have himages : set.includePatterns.toList.filterMap toMatch? = [] :=
    List.filterMap_eq_nil_iff.2 h.stays
  have hstays : set.includePatterns.filter (fun p => (toMatch? p).isNone) = set.includePatterns :=
    UniqueList.ext_toList (List.filter_eq_self.2 fun p hp => by rw [h.stays p hp]; rfl)
  rw [promote, himages, hstays]
  rfl

theorem IsTidy.promotable_eq_zero (h : IsTidy toMatch? set) : set.promotable toMatch? = 0 := by
  rw [promotable, List.length_eq_zero_iff, List.filter_eq_nil_iff]
  intro p hp
  rw [h.stays p hp]
  exact Bool.false_ne_true

theorem IsTidy.collapse_eq_self (h : IsTidy toMatch? set) : set.collapse = set := by
  by_cases hall : Pattern.catchAll ∈ set.matchPatterns
  · rw [collapse_of_mem hall, h.alone hall]
  · exact collapse_of_not_mem hall

/-- The tidy sets are those that tidying up leaves as they are. -/
theorem isTidy_iff : IsTidy toMatch? set ↔ (set.promote toMatch?).collapse = set := by
  constructor
  · intro h
    rw [h.promote_eq_self, h.collapse_eq_self]
  · intro h
    rw [← h]
    exact isTidy_collapse_promote toMatch? set

/-- A glob and a host, of which the glob covers every web address. -/
example :
    let set := (PatternSet.empty.add (.byInclude "http*://*/*".toList)).add
      (.byMatch "https://a.com/*".toList)
    (set.promote Pattern.ofInclude?).collapse = catchAll ∧
      set.collapse.promote Pattern.ofInclude? ≠ catchAll := by
  decide

end PatternSet

namespace Rule

open PatternSet

/-- No glob among the patterns of a rule is a match pattern in disguise, the pattern for
every web address is alone, and promoting and displacing once more changes nothing. -/
theorem patterns_tidied (calls : List Call) :
    (∀ glob ∈ (patterns calls).includePatterns, Pattern.ofInclude? glob = none) ∧
      (Pattern.catchAll ∈ (patterns calls).matchPatterns → patterns calls = PatternSet.catchAll) ∧
      (patterns calls).promotable Pattern.ofInclude? = 0 ∧
      (patterns calls).promote Pattern.ofInclude? = patterns calls ∧
      ((patterns calls).promote Pattern.ofInclude?).collapse = patterns calls := by
  have h : IsTidy Pattern.ofInclude? (patterns calls) := isTidy_collapse_promote _ _
  exact ⟨h.stays, h.alone, h.promotable_eq_zero, h.promote_eq_self, isTidy_iff.1 h⟩

/-- A port keeps a glob among the include patterns, and a glob for all addresses is
promoted. -/
theorem patterns_tidied_port_or_everywhere :
    let port : Call := ⟨.urlPrefix, "http://a.com:81".toList⟩
    let everywhere : Call := ⟨.regexp, "^https?://.*/.*".toList⟩
    ("http://a.com:81/*".toList ∈ (patterns [port]).includePatterns ∧
      Pattern.ofInclude? "http://a.com:81/*".toList = none) ∧
    Pattern.catchAll ∈ (patterns [port, everywhere]).matchPatterns ∧
      patterns [port, everywhere] = PatternSet.catchAll := by
  intro port everywhere
  have hport : "http://a.com:81/*".toList ∈ (patterns [port]).includePatterns := by decide
  have hall : Pattern.catchAll ∈ (patterns [port, everywhere]).matchPatterns := by decide
  exact ⟨⟨hport, (patterns_tidied [port]).1 _ hport⟩, hall,
    (patterns_tidied [port, everywhere]).2.1 hall⟩

end Rule
end StyleScope
