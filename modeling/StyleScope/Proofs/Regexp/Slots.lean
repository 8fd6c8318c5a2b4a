import Mathlib.Order.Bounds.Image
import Mathlib.Order.Bounds.Basic
import StyleScope.Proofs.Regexp.Expansion

/-!
# Words of slots

A sequence of groups matches the words that take one alternative from each of them.  When
letters of a first alternative are read in front of the others too, the words change:
`mem_readAll_iff_mem_meantAll` says that the texts read are the texts meant only where
that happens nowhere.  The longest and the shortest word tell the two apart.
-/

namespace StyleScope
namespace Regexp

open Text Nested

/-- The alternatives at one place.  The first one is `moved ++ head`, but `moved` is read
in front of all of them. -/
structure Slot where
  moved : Text
  head : Text
  others : List Text

namespace Slot

def read (p : Slot) : List Text := (p.head :: p.others).map (p.moved ++ ·)

def meant (p : Slot) : List Text := (p.moved ++ p.head) :: p.others

/-- Nothing is read in front of other alternatives. -/
def InPlace (p : Slot) : Prop := p.others ≠ [] → p.moved = []

def readAll : List Slot → List Text
  | [] => [[]]
  | p :: ps => joined p.read (readAll ps)

def meantAll : List Slot → List Text
  | [] => [[]]
  | p :: ps => joined p.meant (meantAll ps)

theorem InPlace.read_eq {p : Slot} (h : p.InPlace) : p.read = p.meant := by
  by_cases hothers : p.others = []
  · rw [read, meant, hothers]
    rfl
  · have hid : (fun s : Text => [] ++ s) = id := rfl
    rw [read, meant, h hothers, hid, List.map_id]
    rfl

theorem readAll_eq_meantAll {ps : List Slot} (h : ∀ p ∈ ps, p.InPlace) :
    readAll ps = meantAll ps := by
  induction ps with
  | nil => rfl
  | cons p ps ih =>
    have hhead := (h p List.mem_cons_self).read_eq
    have htail := ih fun q hq => h q (List.mem_cons_of_mem p hq)
    rw [readAll, meantAll, hhead, htail]

/-! ## Lengths -/

def lengths (ws : List Text) : Set Nat := {n | ∃ w ∈ ws, w.length = n}

theorem lengths_congr {ws ws' : List Text} (h : ∀ w, w ∈ ws ↔ w ∈ ws') :
    lengths ws = lengths ws' := by
  ext n
  simp only [lengths, Set.mem_ofPred_eq, h]

theorem lengths_singleton (w : Text) : lengths [w] = {w.length} := by
  ext n
  simp [lengths, eq_comm]

theorem lengths_cons (w : Text) (ws : List Text) :
    lengths (w :: ws) = insert w.length (lengths ws) := by
  ext n
  simp [lengths, eq_comm]

theorem lengths_joined (ss ts : List Text) :
    lengths (joined ss ts) = Set.image2 (· + ·) (lengths ss) (lengths ts) := by
  ext n
  simp only [lengths, Set.mem_ofPred_eq, Set.mem_image2]
  constructor
  · intro hn
    obtain ⟨u, hu, hlen⟩ := hn
    obtain ⟨s, hs, t, ht, rfl⟩ := mem_joined.1 hu
    exact ⟨s.length, ⟨s, hs, rfl⟩, t.length, ⟨t, ht, rfl⟩, by rw [← hlen, List.length_append]⟩
  · intro hn
    obtain ⟨a, ⟨s, hs, rfl⟩, b, ⟨t, ht, rfl⟩, rfl⟩ := hn
    exact ⟨s ++ t, mem_joined.2 ⟨s, hs, t, ht, rfl⟩, List.length_append⟩

structure Spans (ws : List Text) (low high : Nat) : Prop where
  least : IsLeast (lengths ws) low
  greatest : IsGreatest (lengths ws) high

theorem Spans.le {ws : List Text} {low high : Nat} (h : Spans ws low high) : low ≤ high :=
  h.least.2 h.greatest.1

theorem spans_singleton (w : Text) : Spans [w] w.length w.length := by
  constructor
  · rw [lengths_singleton]
    exact isLeast_singleton
  · rw [lengths_singleton]
    exact isGreatest_singleton

theorem Spans.cons {ws : List Text} {low high : Nat} (h : Spans ws low high) (w : Text) :
    Spans (w :: ws) (min w.length low) (max w.length high) := by
  constructor
  · rw [lengths_cons]
    exact h.least.insert w.length
  · rw [lengths_cons]
    exact h.greatest.insert w.length

theorem Spans.joined {ss ts : List Text} {low high low' high' : Nat} (hs : Spans ss low high)
    (ht : Spans ts low' high') : Spans (joined ss ts) (low + low') (high + high') := by
  have hleft : ∀ n : Nat, Monotone (n + ·) := fun n _ _ h => Nat.add_le_add_left h n
  have hright : ∀ n : Nat, Monotone (Function.swap (· + ·) n) :=
    fun n _ _ h => Nat.add_le_add_right h n
  constructor
  · rw [lengths_joined]
    exact hs.least.image2 hright hleft ht.least
  · rw [lengths_joined]
    exact hs.greatest.image2 hright hleft ht.greatest

theorem exists_spans (w : Text) (ws : List Text) : ∃ low high, Spans (w :: ws) low high := by
  induction ws generalizing w with
  | nil => exact ⟨_, _, spans_singleton w⟩
  | cons v ws ih =>
    obtain ⟨low, high, h⟩ := ih v
    exact ⟨_, _, h.cons w⟩

/-- Reading never makes the shortest or the longest alternative shorter, and it leaves both
as long as they are only where everything is in place. -/
theorem exists_spans_read (p : Slot) : ∃ low high low' high',
    Spans p.meant low high ∧ Spans p.read low' high' ∧ low ≤ low' ∧ high ≤ high' ∧
      (low = low' → high = high' → p.InPlace) := by
  cases hothers : p.others with
  | nil =>
    have hplace : p.InPlace := fun hne => absurd hothers hne
    have hmeant : p.meant = [p.moved ++ p.head] := by rw [meant, hothers]
    rw [hplace.read_eq, hmeant]
    exact ⟨_, _, _, _, spans_singleton _, spans_singleton _, Nat.le_refl _, Nat.le_refl _,
      fun _ _ => hplace⟩
  | cons w ws =>
    obtain ⟨low, high, hspans⟩ := exists_spans w ws
    have hle := hspans.le
    have hmeant : Spans p.meant (min (p.moved ++ p.head).length low)
        (max (p.moved ++ p.head).length high) := by
      rw [meant, hothers]
      exact hspans.cons (p.moved ++ p.head)
    have hread : Spans p.read (p.moved.length + min p.head.length low)
        (p.moved.length + max p.head.length high) := by
      rw [read, hothers, ← joined_singleton_left]
      exact (spans_singleton p.moved).joined (hspans.cons p.head)
    rw [List.length_append] at hmeant
    refine ⟨_, _, _, _, hmeant, hread, by omega, by omega, ?_⟩
    -- Something moved leaves the longest word as it is only if the others are short, and the
    -- shortest word only if they are long.
    intro hlow hhigh _
    have hzero : p.moved.length = 0 := by omega
    exact List.length_eq_zero_iff.1 hzero

theorem exists_spans_readAll (ps : List Slot) : ∃ low high low' high',
    Spans (meantAll ps) low high ∧ Spans (readAll ps) low' high' ∧ low ≤ low' ∧ high ≤ high' ∧
      (low = low' → high = high' → ∀ p ∈ ps, p.InPlace) := by
  induction ps with
  | nil =>
    exact ⟨_, _, _, _, spans_singleton [], spans_singleton [], Nat.le_refl _, Nat.le_refl _,
      fun _ _ p hp => absurd hp List.not_mem_nil⟩
  | cons p ps ih =>
    obtain ⟨low, high, low', high', hmeant, hread, hlow, hhigh, hplace⟩ := exists_spans_read p
    obtain ⟨lows, highs, lows', highs', hmeants, hreads, hlows, hhighs, hplaces⟩ := ih
    refine ⟨_, _, _, _, hmeant.joined hmeants, hread.joined hreads, by omega, by omega, ?_⟩
    intro hlow' hhigh'
    have hhead : p.InPlace := hplace (by omega) (by omega)
    have htail : ∀ q ∈ ps, q.InPlace := hplaces (by omega) (by omega)
    exact List.forall_mem_cons.2 ⟨hhead, htail⟩

/-- Reading makes no word empty. -/
theorem nil_not_mem_readAll {ps : List Slot} (h : [] ∉ meantAll ps) : [] ∉ readAll ps := by
  intro hnil
  obtain ⟨low, high, low', high', hmeant, hread, hle, -, -⟩ := exists_spans_readAll ps
  have hzero : low' ≤ 0 := hread.least.2 ⟨[], hnil, rfl⟩
  obtain ⟨w, hw, hlen⟩ := hmeant.least.1
  obtain rfl : w = [] := List.length_eq_zero_iff.1 (by omega)
  exact h hw

/-- What is read is what is meant exactly when everything is in place. -/
theorem mem_readAll_iff_mem_meantAll (ps : List Slot) :
    (∀ u, u ∈ readAll ps ↔ u ∈ meantAll ps) ↔ ∀ p ∈ ps, p.InPlace := by
  constructor
  · intro h
    obtain ⟨low, high, low', high', hmeant, hread, -, -, hplace⟩ := exists_spans_readAll ps
    have hsame := lengths_congr h
    have hlow : IsLeast (lengths (meantAll ps)) low' := hsame ▸ hread.least
    have hhigh : IsGreatest (lengths (meantAll ps)) high' := hsame ▸ hread.greatest
    exact hplace (hmeant.least.unique hlow) (hmeant.greatest.unique hhigh)
  · intro h u
    rw [readAll_eq_meantAll h]

end Slot
end Regexp
end StyleScope
