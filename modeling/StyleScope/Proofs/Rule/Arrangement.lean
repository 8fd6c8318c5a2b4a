import StyleScope.Proofs.Rule.Contributions

/-!
# Only the calls of a rule matter

Globs are promoted and the pattern for every web address displaces the rest at the end,
when the patterns of all calls are known.  Nothing is lost by doing so earlier: the
patterns of two rules in a row are those of the one and of the other, tidied up once more
(`Rule.patterns_append`).  So the order of the calls, how they are grouped and how often
they are repeated do not matter (`Rule.patterns_forget_arrangement`).
-/

namespace StyleScope
namespace PatternSet

def Within (a b : PatternSet) : Prop :=
  (∀ p ∈ a.matchPatterns, p ∈ b.matchPatterns) ∧ ∀ p ∈ a.includePatterns, p ∈ b.includePatterns

def SamePatterns (a b : PatternSet) : Prop := a.Within b ∧ b.Within a

/-- The patterns of `a`, and those of `b` that are not among them. -/
def union (a b : PatternSet) : PatternSet where
  matchPatterns := a.matchPatterns.insertAll b.matchPatterns.toList
  includePatterns := a.includePatterns.insertAll b.includePatterns.toList

variable {a b : PatternSet} {p : Text}

theorem mem_matchPatterns_union :
    p ∈ (a.union b).matchPatterns ↔ p ∈ a.matchPatterns ∨ p ∈ b.matchPatterns :=
  UniqueList.mem_insertAll

theorem mem_includePatterns_union :
    p ∈ (a.union b).includePatterns ↔ p ∈ a.includePatterns ∨ p ∈ b.includePatterns :=
  UniqueList.mem_insertAll

theorem SamePatterns.refl (a : PatternSet) : a.SamePatterns a :=
  ⟨⟨fun _ h => h, fun _ h => h⟩, ⟨fun _ h => h, fun _ h => h⟩⟩

theorem samePatterns_of_iff (hm : ∀ p, p ∈ a.matchPatterns ↔ p ∈ b.matchPatterns)
    (hi : ∀ p, p ∈ a.includePatterns ↔ p ∈ b.includePatterns) : a.SamePatterns b :=
  ⟨⟨fun p => (hm p).1, fun p => (hi p).1⟩, ⟨fun p => (hm p).2, fun p => (hi p).2⟩⟩

end PatternSet

namespace Rule

open PatternSet

variable {calls more : List Call} {p : Text}

/-! ## Before the rest is displaced -/

theorem mem_matchPatterns_contributed_append :
    p ∈ (contributed (calls ++ more)).matchPatterns ↔
      p ∈ (contributed calls).matchPatterns ∨ p ∈ (contributed more).matchPatterns := by
  simp only [mem_matchPatterns_contributed, List.mem_append, or_and_right, exists_or]
  exact or_or_or_comm

theorem mem_includePatterns_contributed_append :
    p ∈ (contributed (calls ++ more)).includePatterns ↔
      p ∈ (contributed calls).includePatterns ∨ p ∈ (contributed more).includePatterns := by
  simp only [mem_includePatterns_contributed, List.mem_append, or_and_right, exists_or]

theorem contributed_within_of_subset (h : calls ⊆ more) :
    (contributed calls).Within (contributed more) := by
  constructor
  · intro p hp
    rw [mem_matchPatterns_contributed] at hp ⊢
    rcases hp with ⟨call, hcall, hscope⟩ | ⟨call, hcall, hglob⟩
    · exact Or.inl ⟨call, h hcall, hscope⟩
    · exact Or.inr ⟨call, h hcall, hglob⟩
  · intro p hp
    rw [mem_includePatterns_contributed] at hp ⊢
    obtain ⟨⟨call, hcall, hscope⟩, hnone⟩ := hp
    exact ⟨⟨call, h hcall, hscope⟩, hnone⟩

/-! ## Displacing the rest -/

/-- More calls give more patterns, or every web address. -/
theorem patterns_within_of_subset (h : calls ⊆ more) :
    patterns more = PatternSet.catchAll ∨ (patterns calls).Within (patterns more) := by
  have hwithin := contributed_within_of_subset h
  by_cases hall : Pattern.catchAll ∈ (contributed more).matchPatterns
  · exact Or.inl (patterns_of_catchAll_mem hall)
  · right
    have hnot : Pattern.catchAll ∉ (contributed calls).matchPatterns :=
      fun hmem => hall (hwithin.1 _ hmem)
    rw [patterns_of_catchAll_not_mem hall, patterns_of_catchAll_not_mem hnot]
    exact hwithin

theorem patterns_samePatterns_of_subset (h : calls ⊆ more) (h' : more ⊆ calls) :
    (patterns calls).SamePatterns (patterns more) := by
  have hwithin := contributed_within_of_subset h
  have hwithin' := contributed_within_of_subset h'
  by_cases hall : Pattern.catchAll ∈ (contributed more).matchPatterns
  · rw [patterns_of_catchAll_mem hall, patterns_of_catchAll_mem (hwithin'.1 _ hall)]
    exact SamePatterns.refl _
  · have hnot : Pattern.catchAll ∉ (contributed calls).matchPatterns :=
      fun hmem => hall (hwithin.1 _ hmem)
    rw [patterns_of_catchAll_not_mem hall, patterns_of_catchAll_not_mem hnot]
    exact ⟨hwithin, hwithin'⟩

/-- The patterns of two rules in a row are those of the one and of the other. -/
theorem patterns_append (calls more : List Call) :
    (patterns (calls ++ more)).SamePatterns ((patterns calls).union (patterns more)).collapse := by
  by_cases hall : Pattern.catchAll ∈ (contributed (calls ++ more)).matchPatterns
  · have hunion : Pattern.catchAll ∈ ((patterns calls).union (patterns more)).matchPatterns := by
      rw [mem_matchPatterns_union, catchAll_mem_patterns, catchAll_mem_patterns]
      exact mem_matchPatterns_contributed_append.1 hall
    rw [patterns_of_catchAll_mem hall, collapse_of_mem hunion]
    exact SamePatterns.refl _
  · have hnot : Pattern.catchAll ∉ (contributed calls).matchPatterns ∧
        Pattern.catchAll ∉ (contributed more).matchPatterns :=
      not_or.1 (mt mem_matchPatterns_contributed_append.2 hall)
    have hunion : Pattern.catchAll ∉
        ((contributed calls).union (contributed more)).matchPatterns :=
      mt mem_matchPatterns_union.1 (not_or.2 hnot)
    rw [patterns_of_catchAll_not_mem hall, patterns_of_catchAll_not_mem hnot.1,
      patterns_of_catchAll_not_mem hnot.2, collapse_of_not_mem hunion]
    refine samePatterns_of_iff (fun p => ?_) (fun p => ?_)
    · rw [mem_matchPatterns_contributed_append, mem_matchPatterns_union]
    · rw [mem_includePatterns_contributed_append, mem_includePatterns_union]

/-- The patterns of two rules in a row are the union of theirs, or every web address if
that is in the union.  Rules with the same calls, in whatever order and however often, have
the same patterns.  One more call removes a pattern only by giving every web address. -/
theorem patterns_forget_arrangement (calls more : List Call) (call : Call) :
    (patterns (calls ++ more)).SamePatterns ((patterns calls).union (patterns more)).collapse ∧
      (calls ⊆ more → more ⊆ calls → (patterns calls).SamePatterns (patterns more)) ∧
      (patterns (calls ++ [call]) = PatternSet.catchAll ∨
        (patterns calls).Within (patterns (calls ++ [call]))) :=
  ⟨patterns_append calls more, patterns_samePatterns_of_subset,
    patterns_within_of_subset (List.subset_append_left calls [call])⟩

def hostCall : Call := ⟨.domain, "www.example.com".toList⟩

def portCall : Call := ⟨.urlPrefix, "http://localhost:3000".toList⟩

/-- A call whose glob is promoted to the pattern of `hostCall`. -/
def subdomainCall : Call := ⟨.regexp, "^https?://.*\\.example\\.com/.*".toList⟩

theorem patterns_forget_arrangement_repeated :
    [portCall, hostCall, subdomainCall, portCall] ⊆ [hostCall, subdomainCall, portCall] ∧
    [hostCall, subdomainCall, portCall] ⊆ [portCall, hostCall, subdomainCall, portCall] ∧
    (patterns [portCall, hostCall, subdomainCall, portCall]).SamePatterns
      (patterns [hostCall, subdomainCall, portCall]) := by
  have h : [portCall, hostCall, subdomainCall, portCall] ⊆ [hostCall, subdomainCall, portCall] := by
    decide
  have h' : [hostCall, subdomainCall, portCall] ⊆
      [portCall, hostCall, subdomainCall, portCall] := by decide
  exact ⟨h, h', (patterns_forget_arrangement _ _ hostCall).2.1 h h'⟩

end Rule
end StyleScope
