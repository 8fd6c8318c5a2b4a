import StyleScope.Proofs.Command.Scheduling
import StyleScope.Proofs.Files.Paths

/-!
# Where the styles of a conversion go

The target of a file is made from the file alone, so no target is the file it is made from,
but two files can have one target, and one file can be the target of another.  Which given
names do that is said by `SharesTarget` and `Displaces`; these are the cases in which a
conversion loses a style or overwrites a file that it has read (`written_targets`).

A name of octets is read as a text before its ending is looked at, so names that are broken in
different ways can be read as one.
-/

namespace StyleScope
namespace Command

open Text Files

/-! ## Names -/

section Names

variable {name other stem ending : Text}

theorem withoutEnding?_append (stem ending : Text) :
    withoutEnding? ending (stem ++ ending) = some stem := by
  have hlength : (stem ++ ending).length - ending.length = stem.length := by
    rw [List.length_append, Nat.add_sub_cancel]
  rw [withoutEnding?, if_pos (List.isSuffixOf_iff_suffix.2 (List.suffix_append stem ending)),
    hlength, List.take_left]

theorem withoutEnding?_of_not_suffix (h : ¬ ending <:+ name) :
    withoutEnding? ending name = none :=
  if_neg fun hsuffix => h (List.isSuffixOf_iff_suffix.1 hsuffix)

theorem convertedName_userCss (stem : Text) :
    convertedName (stem ++ ".user.css".toList) = stem ++ ".usercss.css".toList := by
  rw [convertedName, withoutEnding?_append]

theorem convertedName_css (h : ¬ ".user".toList <:+ stem) :
    convertedName (stem ++ ".css".toList) = stem ++ ".user.css".toList := by
  have hno : ¬ ".user.css".toList <:+ stem ++ ".css".toList := by
    rintro ⟨front, hfront⟩
    have hsplit : (front ++ ".user".toList) ++ ".css".toList = stem ++ ".css".toList := by
      rw [← hfront, List.append_assoc]
      rfl
    exact h ⟨front, List.append_cancel_right hsplit⟩
  rw [convertedName, withoutEnding?_of_not_suffix hno]
  show (withoutEnding? _ _).getD _ ++ _ = _
  rw [withoutEnding?_append, Option.getD_some]

theorem convertedName_plain (h : ¬ ".css".toList <:+ name) :
    convertedName name = name ++ ".user.css".toList := by
  have hno : ¬ ".user.css".toList <:+ name := fun hsuffix =>
    h (List.IsSuffix.trans ⟨".user".toList, rfl⟩ hsuffix)
  rw [convertedName, withoutEnding?_of_not_suffix hno]
  show (withoutEnding? _ _).getD _ ++ _ = _
  rw [withoutEnding?_of_not_suffix h, Option.getD_none]

/-- A name ends in `.user.css`, or only in `.css`, or in neither. -/
theorem name_cases (name : Text) :
    (∃ stem, name = stem ++ ".user.css".toList) ∨
      (∃ stem, name = stem ++ ".css".toList ∧ ¬ ".user".toList <:+ stem) ∨
      ¬ ".css".toList <:+ name := by
  by_cases hcss : ".css".toList <:+ name
  · obtain ⟨stem, rfl⟩ := hcss
    by_cases huser : ".user".toList <:+ stem
    · obtain ⟨front, rfl⟩ := huser
      exact Or.inl ⟨front, List.append_assoc _ _ _⟩
    · exact Or.inr (Or.inl ⟨stem, rfl, huser⟩)
  · exact Or.inr (Or.inr hcss)

/-- No converted file has the name of its style. -/
theorem convertedName_ne (name : Text) : convertedName name ≠ name := by
  intro h
  have hlength := congrArg List.length h
  rcases name_cases name with ⟨stem, rfl⟩ | ⟨stem, rfl, hstem⟩ | hplain
  · rw [convertedName_userCss, List.length_append, List.length_append] at hlength
    exact absurd (Nat.add_left_cancel hlength) (by decide)
  · rw [convertedName_css hstem, List.length_append, List.length_append] at hlength
    exact absurd (Nat.add_left_cancel hlength) (by decide)
  · rw [convertedName_plain hplain, List.length_append] at hlength
    exact absurd (Nat.add_left_cancel (hlength.trans (Nat.add_zero _).symm)) (by decide)

/-- A name without `.css`, and the name with it, that are converted to one name. -/
def Abbreviates (name other : Text) : Prop :=
  other = name ++ ".css".toList ∧ ¬ ".css".toList <:+ name ∧ ¬ ".user".toList <:+ name

theorem Abbreviates.convertedName_eq (h : Abbreviates name other) :
    convertedName name = convertedName other := by
  obtain ⟨rfl, hcss, huser⟩ := h
  rw [convertedName_plain hcss, convertedName_css huser]

theorem userCss_ne (stem front : Text) :
    stem ++ ".usercss.css".toList ≠ front ++ ".user.css".toList := by
  intro h
  have hsplit : (stem ++ ".us".toList) ++ "ercss.css".toList = front ++ ".user.css".toList := by
    rw [← h, List.append_assoc]
    rfl
  have hending : "ercss.css".toList = ".user.css".toList := (List.append_inj' hsplit (by decide)).2
  exact absurd hending (by decide)

/-- Two names are converted to one exactly when they are the same or one abbreviates the
other. -/
theorem convertedName_eq_iff :
    convertedName name = convertedName other ↔
      name = other ∨ Abbreviates name other ∨ Abbreviates other name := by
  constructor
  · intro h
    rcases name_cases name with ⟨stem, rfl⟩ | ⟨stem, rfl, hstem⟩ | hname
    · rw [convertedName_userCss] at h
      rcases name_cases other with ⟨front, rfl⟩ | ⟨front, rfl, hfront⟩ | hother
      · rw [convertedName_userCss] at h
        exact Or.inl (congrArg (· ++ ".user.css".toList) (List.append_cancel_right h))
      · rw [convertedName_css hfront] at h
        exact absurd h (userCss_ne stem front)
      · rw [convertedName_plain hother] at h
        exact absurd h (userCss_ne stem other)
    · rw [convertedName_css hstem] at h
      rcases name_cases other with ⟨front, rfl⟩ | ⟨front, rfl, hfront⟩ | hother
      · rw [convertedName_userCss] at h
        exact absurd h.symm (userCss_ne front stem)
      · rw [convertedName_css hfront] at h
        exact Or.inl (congrArg (· ++ ".css".toList) (List.append_cancel_right h))
      · rw [convertedName_plain hother] at h
        obtain rfl := List.append_cancel_right h
        exact Or.inr (Or.inr ⟨rfl, hother, hstem⟩)
    · rw [convertedName_plain hname] at h
      rcases name_cases other with ⟨front, rfl⟩ | ⟨front, rfl, hfront⟩ | hother
      · rw [convertedName_userCss] at h
        exact absurd h.symm (userCss_ne front name)
      · rw [convertedName_css hfront] at h
        obtain rfl := List.append_cancel_right h
        exact Or.inr (Or.inl ⟨rfl, hname, hfront⟩)
      · rw [convertedName_plain hother] at h
        exact Or.inl (List.append_cancel_right h)
  · rintro (rfl | h | h)
    · rfl
    · exact h.convertedName_eq
    · exact h.convertedName_eq.symm

/-- A name, and another one that its style takes: `a.usercss.css` for `a.user.css`, and
`a.user.css` for `a.css` and `a`. -/
def TakesName (name other : Text) : Prop :=
  ∃ stem,
    (name = stem ++ ".user.css".toList ∧ other = stem ++ ".usercss.css".toList) ∨
    (name = stem ++ ".css".toList ∧ ¬ ".user".toList <:+ stem ∧
      other = stem ++ ".user.css".toList) ∨
    (name = stem ∧ ¬ ".css".toList <:+ stem ∧ other = stem ++ ".user.css".toList)

theorem convertedName_eq_right_iff : convertedName name = other ↔ TakesName name other := by
  constructor
  · rintro rfl
    rcases name_cases name with ⟨stem, rfl⟩ | ⟨stem, rfl, hstem⟩ | hplain
    · exact ⟨stem, Or.inl ⟨rfl, convertedName_userCss stem⟩⟩
    · exact ⟨stem, Or.inr (Or.inl ⟨rfl, hstem, convertedName_css hstem⟩)⟩
    · exact ⟨name, Or.inr (Or.inr ⟨rfl, hplain, convertedName_plain hplain⟩)⟩
  · rintro ⟨stem, ⟨rfl, rfl⟩ | ⟨rfl, hstem, rfl⟩ | ⟨rfl, hplain, rfl⟩⟩
    · exact convertedName_userCss stem
    · exact convertedName_css hstem
    · exact convertedName_plain hplain

theorem slash_not_mem_convertedName (h : '/' ∉ name) : '/' ∉ convertedName name := by
  obtain ⟨stem, hname⟩ := convertedName_eq_right_iff.1 (Eq.refl (convertedName name))
  rcases hname with ⟨rfl, hother⟩ | ⟨rfl, -, hother⟩ | ⟨rfl, -, hother⟩ <;>
    rw [hother] <;> simpa using h

theorem two_lt_length_convertedName (name : Text) : 2 < (convertedName name).length := by
  obtain ⟨stem, hname⟩ := convertedName_eq_right_iff.1 (Eq.refl (convertedName name))
  rcases hname with ⟨-, hother⟩ | ⟨-, -, hother⟩ | ⟨-, -, hother⟩ <;> rw [hother] <;> simp

end Names

/-! ## Names as octets -/

theorem slash_not_mem_lossy {octets : Octets} (h : slash ∉ octets) : '/' ∉ Utf8.lossy octets :=
  fun hmem => h ((Utf8.mem_of_mem_lossy (by decide) hmem).subset List.mem_cons_self)

theorem slash_not_mem_encode {s : Text} (h : '/' ∉ s) : slash ∉ Utf8.encode s := by
  intro hmem
  obtain ⟨c, hc, hslash⟩ := List.mem_flatMap.1 hmem
  have hchar : c = '/' := Char.toNat_inj.1 (Utf8.toNat_of_mem_utf8EncodeChar (by decide) hslash)
  exact h (hchar ▸ hc)

theorem isName_encode {s : Text} (hslash : '/' ∉ s) (hlength : 2 < s.length) :
    FilePath.IsName (Utf8.encode s) := by
  have hne : ∀ short : Text, short.length ≤ 2 → Utf8.encode s ≠ Utf8.encode short := by
    intro short hshort h
    obtain rfl := Utf8.encode_injective h
    omega
  have hempty : Utf8.encode s ≠ [] := hne [] (by decide)
  have hhere : Utf8.encode s ≠ [dot] := hne ['.'] (by decide)
  have hparent : Utf8.encode s ≠ [dot, dot] := hne ['.', '.'] (by decide)
  refine ⟨slash_not_mem_encode hslash, ?_⟩
  rw [Component.ofPiece?, if_neg (not_or.2 ⟨hempty, hhere⟩), if_neg hparent]

def styleName (name : Octets) : Octets := Utf8.encode (convertedName (Utf8.lossy name))

theorem isName_styleName {name : Octets} (h : FilePath.IsName name) :
    FilePath.IsName (styleName name) :=
  isName_encode (slash_not_mem_convertedName (slash_not_mem_lossy h.1))
    (two_lt_length_convertedName _)

theorem styleName_ne (name : Octets) : styleName name ≠ name := by
  intro h
  have hlossy := congrArg Utf8.lossy h
  rw [styleName, Utf8.lossy_encode] at hlossy
  exact convertedName_ne _ hlossy

/-! ## Paths -/

section Paths

variable {outDir : Option FilePath} {file other : FilePath} {name : Octets}

def targetDirectory (outDir : Option FilePath) (file : FilePath) : List Component :=
  match outDir with
  | some dir => dir.components
  | none => file.components.dropLast

theorem components_eq_of_fileName? (h : file.fileName? = some name) :
    file.components = file.components.dropLast ++ [.name name] := by
  rw [FilePath.components_directory h, List.dropLast_concat]

theorem components_target (outDir : Option FilePath) (h : file.fileName? = some name) :
    (target outDir file).components = targetDirectory outDir file ++ [.name (styleName name)] := by
  have hname := isName_styleName (FilePath.exists_pieces_of_fileName? h).1
  cases outDir with
  | some dir =>
    rw [target, h]
    exact FilePath.components_child dir hname
  | none =>
    rw [target, h]
    exact FilePath.components_withFileName h hname

/-- The styles of two files go to one path: to the same directory, from names that are read as
the same or of which one abbreviates the other. -/
def SharesTarget (outDir : Option FilePath) (file other : FilePath) : Prop :=
  targetDirectory outDir file = targetDirectory outDir other ∧
    ∃ name name', file.fileName? = some name ∧ other.fileName? = some name' ∧
      (Utf8.lossy name = Utf8.lossy name' ∨
        Abbreviates (Utf8.lossy name) (Utf8.lossy name') ∨
        Abbreviates (Utf8.lossy name') (Utf8.lossy name))

/-- The style of a file goes to the path of another one: that one is where the style goes,
and its name is a text that the style takes. -/
def Displaces (outDir : Option FilePath) (file other : FilePath) : Prop :=
  targetDirectory outDir file = other.components.dropLast ∧
    ∃ name name', file.fileName? = some name ∧ other.fileName? = some (Utf8.encode name') ∧
      TakesName (Utf8.lossy name) name'

theorem append_name_inj {ds es : List Component} {name name' : Octets} :
    ds ++ [.name name] = es ++ [.name name'] ↔ ds = es ∧ name = name' := by
  constructor
  · intro h
    obtain ⟨hdirs, hnames⟩ := List.append_inj' h rfl
    exact ⟨hdirs, Component.name.inj (List.cons.inj hnames).1⟩
  · rintro ⟨rfl, rfl⟩
    rfl

theorem components_target_ne (outDir : Option FilePath) (h : file.fileName?.isSome) :
    (target outDir file).components ≠ file.components := by
  obtain ⟨name, hname⟩ := Option.isSome_iff_exists.1 h
  rw [components_target outDir hname, components_eq_of_fileName? hname, ne_eq, append_name_inj]
  exact fun heq => styleName_ne name heq.2

theorem components_target_eq_iff (h : file.fileName?.isSome) (h' : other.fileName?.isSome) :
    (target outDir file).components = (target outDir other).components ↔
      SharesTarget outDir file other := by
  obtain ⟨name, hname⟩ := Option.isSome_iff_exists.1 h
  obtain ⟨name', hname'⟩ := Option.isSome_iff_exists.1 h'
  have hstyles : styleName name = styleName name' ↔
      convertedName (Utf8.lossy name) = convertedName (Utf8.lossy name') :=
    ⟨Utf8.encode_injective, congrArg Utf8.encode⟩
  rw [components_target outDir hname, components_target outDir hname', append_name_inj,
    hstyles, convertedName_eq_iff, SharesTarget]
  simp [hname, hname']

/-- Names that are broken in different ways are read as one. -/
example : (target none ⟨[0x61, 0xFF]⟩).components = (target none ⟨[0x61, 0xFE]⟩).components := by
  decide +kernel

theorem components_target_eq_components_iff (h : file.fileName?.isSome)
    (h' : other.fileName?.isSome) :
    (target outDir file).components = other.components ↔ Displaces outDir file other := by
  obtain ⟨name, hname⟩ := Option.isSome_iff_exists.1 h
  obtain ⟨name', hname'⟩ := Option.isSome_iff_exists.1 h'
  rw [components_target outDir hname, components_eq_of_fileName? hname', append_name_inj,
    Displaces]
  simp only [hname, hname', Option.some.injEq, ← convertedName_eq_right_iff]
  simp [styleName, eq_comm]

end Paths

/-! ## Runs -/

section Runs

variable {outDir : Option FilePath} {reports : List Report}

/-- The paths that are written are different exactly when no two converted files share a
target. -/
theorem pairwise_writes_iff (hnames : ∀ report ∈ reports, report.file.fileName?.isSome) :
    (writes outDir reports).Pairwise (fun v w => v.1.components ≠ w.1.components) ↔
      (reports.filter Report.isConverted).Pairwise
        fun a b => ¬ SharesTarget outDir a.file b.file := by
  rw [writes, List.pairwise_filterMap, List.pairwise_filter]
  refine List.Pairwise.iff_of_mem fun {a b} ha hb => ?_
  rw [← components_target_eq_iff (hnames a ha) (hnames b hb)]
  simp only [Option.map_eq_some_iff, Report.isConverted_iff]
  constructor
  · rintro h ⟨text, htext⟩ ⟨text', htext'⟩
    exact h _ ⟨text, htext, rfl⟩ _ ⟨text', htext', rfl⟩
  · rintro h v ⟨text, htext, rfl⟩ w ⟨text', htext', rfl⟩
    exact h ⟨text, htext⟩ ⟨text', htext'⟩

/-- No file is written to exactly when no converted file displaces it. -/
theorem forall_writes_ne_iff {files : List FilePath}
    (hnames : ∀ report ∈ reports, report.file.fileName?.isSome)
    (hfiles : ∀ file ∈ files, file.fileName?.isSome) :
    (∀ w ∈ writes outDir reports, ∀ file ∈ files, w.1.components ≠ file.components) ↔
      ∀ report ∈ reports, report.isConverted = true →
        ∀ file ∈ files, ¬ Displaces outDir report.file file := by
  simp only [writes, List.mem_filterMap, Option.map_eq_some_iff, Report.isConverted_iff]
  constructor
  · rintro h report hreport ⟨text, htext⟩ file hfile
    rw [← components_target_eq_components_iff (hnames report hreport) (hfiles file hfile)]
    exact h _ ⟨report, hreport, text, htext, rfl⟩ file hfile
  · rintro h w ⟨report, hreport, text, htext, rfl⟩ file hfile
    have hdisplaces := h report hreport ⟨text, htext⟩ file hfile
    rwa [← components_target_eq_components_iff (hnames report hreport) (hfiles file hfile)]
      at hdisplaces

variable {tools : Tools} {request : ConvertRequest} {session prepared : Session}
  {settings : Settings} {source : Option Text}

/-- A conversion in which all writes work writes the style of every converted file to its
target, which is never that file.  The targets are different paths exactly when no two
converted files share theirs, and none of them is one of the files exactly when no converted
file displaces one. -/
theorem written_targets (hjson : request.json = false)
    (hnames : ∀ file ∈ request.files, file.fileName?.isSome)
    (hprepared :
      Steps.outcome (prepare tools request) session = (.ok (settings, source), prepared))
    (hwrites : ∀ path,
      (Steps.outcome (runConvert tools request) session).1 ≠ .error (.write path)) :
    let reports := Report.arrange (request.files.map (reportOf tools settings source prepared))
    let written := writes request.outDir reports
    writeAll prepared.tree written =
        some (Steps.outcome (runConvert tools request) session).2.tree ∧
      (∀ report ∈ reports,
        (target request.outDir report.file).components ≠ report.file.components) ∧
      (written.Pairwise (fun v w => v.1.components ≠ w.1.components) ↔
        (reports.filter Report.isConverted).Pairwise
          fun a b => ¬ SharesTarget request.outDir a.file b.file) ∧
      ((∀ w ∈ written, ∀ file ∈ request.files, w.1.components ≠ file.components) ↔
        ∀ report ∈ reports, report.isConverted = true →
          ∀ file ∈ request.files, ¬ Displaces request.outDir report.file file) := by
  intro reports written
  have hfile : ∀ report ∈ reports, report.file.fileName?.isSome := by
    intro report hreport
    obtain ⟨file, hmem, rfl⟩ := List.mem_map.1 ((Report.arrange_perm _).mem_iff.1 hreport)
    rw [reportOf, Report.ofContents_file]
    exact hnames file hmem
  rw [outcome_runConvert_of_prepared hprepared] at hwrites ⊢
  exact ⟨writeAll_eq_some_of_outcome_conclude _ hjson hwrites,
    fun report hreport => components_target_ne _ (hfile report hreport),
    pairwise_writes_iff hfile, forall_writes_ne_iff hfile hnames⟩

end Runs

/-- A style beside a file that has the name of its target. -/
def occupiedTarget : Session where
  tree :=
    { entries :=
        [([Utf8.encode "a.css".toList], .file (globalStyle "a{b:c}".toList)),
         ([Utf8.encode "a.user.css".toList], .file (Utf8.encode "d{e:f}".toList))]
      workingDirectory := [] }

def occupiedRequest : ConvertRequest where
  files := [.ofText "a.css".toList, .ofText "a.user.css".toList]
  keepLayout := true

theorem outcome_runConvert_occupiedRequest :
    Steps.outcome (runConvert noTools occupiedRequest) occupiedTarget =
      Steps.outcome
        (publish noTools occupiedRequest
          (occupiedRequest.files.map (reportOf noTools { beautify := false } none occupiedTarget)))
        occupiedTarget := by
  have hprepared : Steps.outcome (prepare noTools occupiedRequest) occupiedTarget =
      (.ok ({ beautify := false }, none), occupiedTarget) := rfl
  rw [outcome_runConvert_of_prepared hprepared, conclude,
    Report.arrange_of_sorted (by decide +kernel)]

theorem written_targets_occupied :
    let reports := Report.arrange
      (occupiedRequest.files.map (reportOf noTools { beautify := false } none occupiedTarget))
    let written := writes none reports
    writeAll occupiedTarget.tree written =
        some (Steps.outcome (runConvert noTools occupiedRequest) occupiedTarget).2.tree ∧
      (∀ report ∈ reports, (target none report.file).components ≠ report.file.components) ∧
      (written.Pairwise (fun v w => v.1.components ≠ w.1.components) ↔
        (reports.filter Report.isConverted).Pairwise
          fun a b => ¬ SharesTarget none a.file b.file) ∧
      ((∀ w ∈ written, ∀ file ∈ occupiedRequest.files, w.1.components ≠ file.components) ↔
        ∀ report ∈ reports, report.isConverted = true →
          ∀ file ∈ occupiedRequest.files, ¬ Displaces none report.file file) := by
  have hends :
      (Steps.outcome (runConvert noTools occupiedRequest) occupiedTarget).1.toBool = true := by
    rw [outcome_runConvert_occupiedRequest]
    decide +kernel
  refine @written_targets noTools occupiedRequest occupiedTarget occupiedTarget
    { beautify := false } none rfl (by decide) rfl fun path hfailed => ?_
  rw [hfailed] at hends
  exact Bool.false_ne_true hends

/-- One conversion of different files overwrites one of them, and another one gives two styles
one path. -/
theorem targets_not_fresh_not_distinct :
    (occupiedRequest.files.Pairwise (fun p q => p.components ≠ q.components) ∧
      (Steps.outcome (runConvert noTools occupiedRequest) occupiedTarget).1.toBool = true ∧
      .ofText "a.user.css".toList ∈ occupiedRequest.files ∧
      ((Steps.outcome (runConvert noTools occupiedRequest) occupiedTarget).2.tree.read
        (.ofText "a.user.css".toList)).toOption ≠
          (occupiedTarget.tree.read (.ofText "a.user.css".toList)).toOption) ∧
    (twinRequest.files.Pairwise (fun p q => p.components ≠ q.components) ∧
      (Steps.outcome (runConvert noTools twinRequest) twinStyles).1.toBool = true ∧
      (writes twinRequest.outDir (Report.arrange
        (twinRequest.files.map (reportOf noTools { beautify := false } none twinStyles)))).map
          Prod.fst = [.ofText "o/a.user.css".toList, .ofText "o/a.user.css".toList]) := by
  rw [outcome_runConvert_occupiedRequest, outcome_runConvert_twinRequest, arrange_twinReports]
  decide +kernel

end Command
end StyleScope
