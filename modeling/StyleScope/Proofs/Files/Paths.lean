import Mathlib.Data.List.DropRight
import StyleScope.Files.FilePath
import StyleScope.Proofs.Text.Splitting

/-!
# The components of built paths

Paths are compared by their components and built from spellings.  The path to a name in a
directory has the components of the directory and the name (`components_child`), and a
path with another name in place of its own has it as its last component
(`components_withFileName`), whatever slashes and dots the spellings have.
-/

namespace StyleScope
namespace Files
namespace FilePath

open Text

variable {p : FilePath} {s t name : Octets} {ps : List Octets}

theorem start_cases (p : FilePath) : p.start = [slash] ∨ p.start = [dot] ∨ p.start = [] := by
  unfold start
  split
  · exact Or.inl rfl
  · split
    · exact Or.inr (Or.inl rfl)
    · exact Or.inr (Or.inr rfl)

theorem start_prefix_spelling (p : FilePath) : p.start <+: p.spelling := by
  unfold start
  split
  · next h =>
    obtain ⟨rest, hrest⟩ := List.head?_eq_some_iff.1 h
    exact ⟨rest, hrest.symm⟩
  · split
    · next h =>
      rcases h with h | ⟨rest, hrest⟩
      · exact ⟨[], h.symm⟩
      · exact ⟨slash :: rest, hrest⟩
    · exact List.nil_prefix

/-- What goes on behind a slash starts as what is in front of it. -/
theorem start_append_slash (hs : s ≠ []) (t : Octets) : start ⟨s ++ slash :: t⟩ = start ⟨s⟩ := by
  obtain ⟨a, s, rfl⟩ := List.exists_cons_of_ne_nil hs
  have hhere : (a :: s ++ slash :: t = [dot] ∨ [dot, slash] <+: a :: s ++ slash :: t) ↔
      (a :: s = [dot] ∨ [dot, slash] <+: a :: s) := by
    cases s with
    | nil => simp [eq_comm (a := a)]
    | cons b s => simp
  simp only [start, hhere]
  rfl

theorem pieces_append_slash (hs : s ≠ []) (t : Octets) :
    pieces ⟨s ++ slash :: t⟩ = pieces ⟨s⟩ ++ t.splitOn slash := by
  have hle : (start ⟨s⟩).length ≤ s.length := (start_prefix_spelling ⟨s⟩).length_le
  unfold pieces
  rw [start_append_slash hs, List.drop_append_of_le_length hle, List.splitOn_append_cons_self]

/-- The components of a path that goes on behind a slash. -/
theorem components_append_slash (hs : s ≠ []) (t : Octets) :
    components ⟨s ++ slash :: t⟩ =
      components ⟨s⟩ ++ (t.splitOn slash).filterMap Component.ofPiece? := by
  rw [components, components, pieces_append_slash hs,
    List.filterMap_append, lead, lead, start_append_slash hs, List.append_assoc]

/-! ## A name in a directory -/

def IsName (name : Octets) : Prop := slash ∉ name ∧ Component.ofPiece? name = some (.name name)

theorem filterMap_splitOn_of_isName (h : IsName name) :
    (name.splitOn slash).filterMap Component.ofPiece? = [.name name] := by
  rw [List.splitOn_eq_singleton h.1, List.filterMap_cons_some h.2, List.filterMap_nil]

theorem IsName.ne (h : IsName name) : name ≠ [] ∧ name ≠ [dot] ∧ name ≠ [dot, dot] := by
  refine ⟨?_, ?_, ?_⟩ <;> rintro rfl <;> exact absurd h.2 (by decide)

theorem components_of_isName (h : IsName name) : components ⟨name⟩ = [.name name] := by
  have hroot : name.head? ≠ some slash := fun hslash => h.1 (List.mem_of_head? hslash)
  have hhere : ¬(name = [dot] ∨ [dot, slash] <+: name) := by
    rintro (hdot | hstarts)
    · exact h.ne.2.1 hdot
    · exact h.1 (hstarts.subset (by simp))
  have hstart : start ⟨name⟩ = [] := by rw [start, if_neg hroot, if_neg hhere]
  have hlead : lead ⟨name⟩ = [] := by
    rw [lead, hstart]
    rfl
  rw [components, hlead, pieces, hstart]
  exact filterMap_splitOn_of_isName h

/-- The path to a name in a directory has the components of the directory and the name. -/
theorem components_child (p : FilePath) (h : IsName name) :
    (p.child name).components = p.components ++ [.name name] := by
  obtain ⟨spelling⟩ := p
  by_cases hnil : spelling = []
  · subst hnil
    exact components_of_isName h
  · by_cases hlast : spelling.getLast? = some slash
    · obtain ⟨front, rfl⟩ := List.getLast?_eq_some_iff.1 hlast
      rw [child, if_pos (Or.inr hlast)]
      show components ⟨front ++ [slash] ++ name⟩ = _
      rw [List.append_assoc, List.singleton_append]
      by_cases hfront : front = []
      · subst hfront
        show Component.root :: (name.splitOn slash).filterMap Component.ofPiece? = _
        rw [filterMap_splitOn_of_isName h]
        rfl
      · rw [components_append_slash hfront, components_append_slash hfront,
          filterMap_splitOn_of_isName h]
        simp [Component.ofPiece?]
    · rw [child, if_neg (not_or.2 ⟨hnil, hlast⟩)]
      show components ⟨spelling ++ slash :: name⟩ = _
      rw [components_append_slash hnil, filterMap_splitOn_of_isName h]

/-! ## The directory of a file -/

theorem trimPieces_isPrefix (ps : List Octets) : trimPieces ps <+: ps := List.rdropWhile_prefix _ ps

theorem filterMap_trimPieces (ps : List Octets) :
    (trimPieces ps).filterMap Component.ofPiece? = ps.filterMap Component.ofPiece? := by
  have hdropped : ∀ piece ∈ ps.rtakeWhile (fun s => (Component.ofPiece? s).isNone),
      Component.ofPiece? piece = none := by
    intro piece hpiece
    have hnone := List.mem_rtakeWhile_imp hpiece
    exact Option.isNone_iff_eq_none.1 hnone
  have hsplit : trimPieces ps ++ ps.rtakeWhile (fun s => (Component.ofPiece? s).isNone) = ps :=
    List.rdropWhile_append_rtakeWhile
  calc (trimPieces ps).filterMap Component.ofPiece?
      = (trimPieces ps).filterMap Component.ofPiece? ++
          (ps.rtakeWhile fun s => (Component.ofPiece? s).isNone).filterMap Component.ofPiece? := by
        rw [List.filterMap_eq_nil_iff.2 hdropped, List.append_nil]
    _ = ps.filterMap Component.ofPiece? := by rw [← List.filterMap_append, hsplit]

theorem ofPiece?_ne_none_of_getLast? {piece : Octets} (h : (trimPieces ps).getLast? = some piece) :
    Component.ofPiece? piece ≠ none := by
  have hne : trimPieces ps ≠ [] := by
    intro hnil
    rw [hnil] at h
    exact absurd h (by simp)
  have hlast := List.rdropWhile_last_not (fun s => (Component.ofPiece? s).isNone) ps hne
  rw [List.getLast?_eq_some_getLast hne] at h
  rw [← Option.some.inj h, ne_eq, ← Option.isNone_iff_eq_none]
  exact hlast

/-- The name of a file is the last of the pieces that count. -/
theorem exists_pieces_of_fileName? (h : p.fileName? = some name) :
    IsName name ∧ ∃ ps, trimPieces p.pieces = ps ++ [name] := by
  unfold fileName? at h
  cases hlast : (trimPieces p.pieces).getLast? with
  | none =>
    rw [hlast] at h
    exact absurd h (by simp)
  | some piece =>
    rw [hlast] at h
    obtain ⟨ps, hps⟩ := List.getLast?_eq_some_iff.1 hlast
    have hsome := ofPiece?_ne_none_of_getLast? hlast
    have hmem : piece ∈ p.pieces :=
      (trimPieces_isPrefix p.pieces).subset (List.mem_of_getLast? hlast)
    by_cases hparent : piece = [dot, dot]
    · exact absurd h (by simp [hparent])
    · obtain rfl : piece = name := by simpa [hparent] using h
      refine ⟨⟨not_mem_of_mem_splitOn hmem, ?_⟩, ps, hps⟩
      unfold Component.ofPiece? at hsome ⊢
      split
      · next hblank => exact absurd (if_pos hblank) hsome
      · rfl

theorem spelling_eq (p : FilePath) : p.spelling = p.start ++ List.intercalate [slash] p.pieces := by
  obtain ⟨rest, hrest⟩ := start_prefix_spelling p
  rw [pieces, List.intercalate_splitOn, ← hrest, List.drop_left]

/-- The first pieces of a path, joined, are read as these pieces. -/
theorem components_start_append {rest : List Octets} (hpieces : p.pieces = ps ++ rest)
    (hrest : rest ≠ []) (hlast : ∀ piece, ps.getLast? = some piece → piece ≠ []) :
    components ⟨p.start ++ List.intercalate [slash] ps⟩ =
      p.lead ++ ps.filterMap Component.ofPiece? := by
  by_cases hps : ps = []
  · subst hps
    rcases start_cases p with h | h | h <;> rw [lead, h] <;> rfl
  · have hjoined : List.intercalate [slash] ps ≠ [] := by
      obtain ⟨piece, hpiece⟩ : ∃ piece, ps.getLast? = some piece :=
        ⟨_, List.getLast?_eq_some_getLast hps⟩
      obtain ⟨c, hc⟩ := List.exists_mem_of_ne_nil piece (hlast piece hpiece)
      exact List.ne_nil_of_mem (mem_intercalate_of_mem slash (List.mem_of_getLast? hpiece) hc)
    have hspelling : p =
        ⟨p.start ++ List.intercalate [slash] ps ++ slash :: List.intercalate [slash] rest⟩ := by
      obtain ⟨spelling⟩ := p
      have hwhole := spelling_eq ⟨spelling⟩
      rw [hpieces, intercalate_append slash hps hrest, ← List.append_assoc] at hwhole
      exact congrArg FilePath.mk hwhole
    have hstart : start ⟨p.start ++ List.intercalate [slash] ps⟩ = p.start := by
      conv => rhs; rw [hspelling]
      exact (start_append_slash (List.append_ne_nil_of_right_ne_nil _ hjoined) _).symm
    have hsplit : (List.intercalate [slash] ps).splitOn slash = ps := by
      refine List.splitOn_intercalate slash (fun piece hpiece => ?_) hps
      have hmem : piece ∈ p.pieces := hpieces ▸ List.mem_append_left rest hpiece
      exact not_mem_of_mem_splitOn hmem
    rw [components, lead, lead, pieces, hstart, List.drop_left, hsplit]

/-- The directory of a file has its components but the last. -/
theorem components_directory (h : p.fileName? = some name) :
    p.components = p.directory.components ++ [.name name] := by
  obtain ⟨hname, ps, htrim⟩ := exists_pieces_of_fileName? h
  obtain ⟨more, hmore⟩ := trimPieces_isPrefix ps
  obtain ⟨rest, hrest⟩ := trimPieces_isPrefix p.pieces
  have hpieces : p.pieces = trimPieces ps ++ (more ++ name :: rest) := by
    rw [← List.append_assoc, hmore, ← hrest, htrim, List.append_assoc, List.singleton_append]
  have hdirectory : p.directory = ⟨p.start ++ List.intercalate [slash] (trimPieces ps)⟩ := by
    rw [directory, htrim, List.dropLast_concat]
  rw [hdirectory, components_start_append hpieces (by simp), components,
    ← filterMap_trimPieces p.pieces, htrim, List.filterMap_append, filterMap_trimPieces,
    List.filterMap_cons_some hname.2, List.filterMap_nil, List.append_assoc]
  intro piece hpiece hnil
  exact ofPiece?_ne_none_of_getLast? hpiece (hnil ▸ rfl)

/-- A path with another name in place of that of its file. -/
theorem components_withFileName (h : p.fileName? = some name) {other : Octets}
    (hother : IsName other) :
    (p.withFileName other).components = p.components.dropLast ++ [.name other] := by
  rw [withFileName, h]
  show (p.directory.child other).components = _
  rw [components_child _ hother, components_directory h, List.dropLast_concat]

end FilePath
end Files
end StyleScope
