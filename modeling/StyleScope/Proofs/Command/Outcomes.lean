import StyleScope.Command.Run

/-!
# What a conversion comes to in a session

Steps in a session have an outcome: how they end, and the session that they leave.  A
conversion reads all files as they are when it starts on the first one, and then writes
the texts of `writes` one after the other; `outcome_runConvert` and
`writeAll_eq_some_of_outcome_conclude` are these two halves.
-/

namespace StyleScope
namespace Command

open Text Files

def Steps.outcome {α : Type} (steps : Steps (StateM Session) α) (session : Session) :
    Except Failure α × Session :=
  StateT.run (ExceptT.run steps) session

namespace Steps

variable {α β : Type} {session : Session}

theorem outcome_pure (a : α) (session : Session) :
    outcome (pure a) session = (.ok a, session) := rfl

theorem outcome_throw (failure : Failure) (session : Session) :
    outcome (throw failure : Steps (StateM Session) α) session = (.error failure, session) := rfl

theorem outcome_bind (steps : Steps (StateM Session) α) (next : α → Steps (StateM Session) β)
    (session : Session) :
    outcome (steps >>= next) session =
      match outcome steps session with
      | (.ok a, session) => outcome (next a) session
      | (.error failure, session) => (.error failure, session) := by
  unfold outcome ExceptT.run StateT.run
  simp only [bind, ExceptT.bind, ExceptT.mk, StateT.bind]
  cases steps session with
  | mk result between => cases result <;> rfl

end Steps

open Steps

variable {tools : Tools}

/-! ## Reading -/

def reportOf (tools : Tools) (settings : Settings) (source : Option Text) (session : Session)
    (file : FilePath) : Report :=
  Report.ofContents (layoutOf tools settings) settings source file (session.tree.read file)

theorem Report.ofContents_file (beautifier : UserCss.Beautifier) (settings : Settings)
    (source : Option Text) (file : FilePath) (contents : Except ReadFault Octets) :
    (ofContents beautifier settings source file contents).file = file := by
  unfold ofContents
  split
  · rfl
  · split <;> rfl

theorem outcome_convertFile (settings : Settings) (source : Option Text) (file : FilePath)
    (session : Session) :
    outcome (convertFile tools settings source file) session =
      (.ok (reportOf tools settings source session file), session) := rfl

/-- Reading leaves the session as it is, so every file is read as it is at the start. -/
theorem outcome_mapM_convertFile (settings : Settings) (source : Option Text)
    (files : List FilePath) (session : Session) :
    outcome (files.mapM (convertFile tools settings source)) session =
      (.ok (files.map (reportOf tools settings source session)), session) := by
  induction files with
  | nil => rfl
  | cons file files ih =>
    simp only [List.mapM_cons, outcome_bind, outcome_convertFile, ih, outcome_pure, List.map_cons]

theorem outcome_runConvert (request : ConvertRequest) (session : Session) :
    outcome (runConvert tools request) session =
      match outcome (prepare tools request) session with
      | (.ok (settings, source), session) =>
        outcome
          (conclude tools request (request.files.map (reportOf tools settings source session)))
          session
      | (.error failure, session) => (.error failure, session) := by
  rw [runConvert, outcome_bind]
  cases outcome (prepare tools request) session with
  | mk prepared session =>
    cases prepared with
    | error failure => rfl
    | ok choices => simp only [outcome_bind, outcome_mapM_convertFile]

theorem outcome_runConvert_of_prepared {request : ConvertRequest} {session prepared : Session}
    {settings : Settings} {source : Option Text}
    (h : outcome (prepare tools request) session = (.ok (settings, source), prepared)) :
    outcome (runConvert tools request) session =
      outcome (conclude tools request (request.files.map (reportOf tools settings source prepared)))
        prepared := by
  rw [outcome_runConvert, h]

/-! ## Writing -/

def Report.text? (report : Report) : Option Text :=
  match report.finding with
  | .converted conversion => some conversion.text
  | _ => none

theorem Report.isConverted_iff {report : Report} :
    report.isConverted = true ↔ ∃ text, report.text? = some text := by
  unfold isConverted text?
  cases report.finding <;> simp

/-- The texts that reports have for writing, with the paths they go to. -/
def writes (outDir : Option FilePath) (reports : List Report) : List (FilePath × Text) :=
  reports.filterMap fun report => report.text?.map fun text => (target outDir report.file, text)

/-- A tree in which texts have been written one after the other, if all of that works. -/
def writeAll : Tree → List (FilePath × Text) → Option Tree
  | tree, [] => some tree
  | tree, (path, text) :: rest =>
    match tree.write path (Utf8.encode text) with
    | some tree => writeAll tree rest
    | none => none

variable {outDir : Option FilePath} {reports : List Report} {session : Session}

def lines (outDir : Option FilePath) (reports : List Report) : Text :=
  reports.flatMap fun report => report.line (target outDir report.file)

theorem outcome_insist_writeFile (path : FilePath) (text : Text) (failure : Failure)
    (session : Session) :
    outcome (insist (Host.writeFile path text) failure) session =
      match session.tree.write path (Utf8.encode text) with
      | some tree => (.ok (), { session with tree })
      | none => (.error failure, session) := by
  have hstep : outcome (ExceptT.lift (Host.writeFile path text)) session =
      match session.tree.write path (Utf8.encode text) with
      | some tree => (.ok true, { session with tree })
      | none => (.ok false, session) := by
    show (Except.ok _, _) = _
    cases hwrite : session.tree.write path (Utf8.encode text) <;>
      simp [hwrite]
  rw [insist, outcome_bind, hstep]
  cases session.tree.write path (Utf8.encode text) <;> rfl

theorem writes_singleton (outDir : Option FilePath) (report : Report) :
    writes outDir [report] =
      (report.text?.map fun text => (target outDir report.file, text)).toList := by
  cases htext : report.text? <;> simp [writes, htext]

theorem outcome_settle (outDir : Option FilePath) (report : Report) (session : Session) :
    outcome (settle outDir report) session =
      match writeAll session.tree (writes outDir [report]) with
      | some tree =>
        (.ok (), ⟨tree, session.printed ++ report.line (target outDir report.file)⟩)
      | none => (.error (.write (target outDir report.file)), session) := by
  rw [writes_singleton, settle, Report.text?]
  cases report.finding with
  | converted conversion =>
    simp only [outcome_bind, outcome_insist_writeFile, Option.map_some, Option.toList_some,
      writeAll]
    cases session.tree.write (target outDir report.file) (Utf8.encode conversion.text) <;> rfl
  | skipped reason => rfl
  | failed fault => rfl

theorem writes_cons (outDir : Option FilePath) (report : Report) (reports : List Report) :
    writes outDir (report :: reports) = writes outDir [report] ++ writes outDir reports := by
  unfold writes
  rw [← List.filterMap_append, List.singleton_append]

theorem writeAll_append (tree : Tree) (ws ws' : List (FilePath × Text)) :
    writeAll tree (ws ++ ws') = (writeAll tree ws).bind (writeAll · ws') := by
  induction ws generalizing tree with
  | nil => rfl
  | cons w ws ih =>
    rw [List.cons_append, writeAll, writeAll]
    cases tree.write w.1 (Utf8.encode w.2) with
    | none => rfl
    | some next => exact ih next

/-- Reports are settled one after the other, up to the first write that does not work. -/
theorem outcome_forM_settle (outDir : Option FilePath) (reports : List Report)
    (session : Session) :
    match writeAll session.tree (writes outDir reports) with
    | some tree => outcome (reports.forM (settle outDir)) session =
        (.ok (), ⟨tree, session.printed ++ lines outDir reports⟩)
    | none => ∃ path left,
        outcome (reports.forM (settle outDir)) session = (.error (.write path), left) := by
  induction reports generalizing session with
  | nil =>
    show outcome (pure ()) session = (.ok (), ⟨session.tree, session.printed ++ []⟩)
    rw [List.append_nil, outcome_pure]
  | cons report reports ih =>
    have hrun : outcome ((report :: reports).forM (settle outDir)) session =
        outcome (settle outDir report >>= fun _ => reports.forM (settle outDir)) session := rfl
    rw [hrun, outcome_bind, outcome_settle, writes_cons, writeAll_append]
    cases writeAll session.tree (writes outDir [report]) with
    | none => exact ⟨target outDir report.file, session, rfl⟩
    | some tree =>
      have hrest := ih ⟨tree, session.printed ++ report.line (target outDir report.file)⟩
      simpa only [Option.bind_some, lines, List.flatMap_cons, List.append_assoc] using hrest

variable {request : ConvertRequest}

/-- Without JSON, what is left behind a conversion is the tree with all texts written, unless
a write does not work. -/
theorem writeAll_eq_some_of_outcome_conclude (finished : List Report) (hjson : request.json = false)
    (hwrites : ∀ path,
      (outcome (conclude tools request finished) session).1 ≠ .error (.write path)) :
    writeAll session.tree (writes request.outDir (Report.arrange finished)) =
      some (outcome (conclude tools request finished) session).2.tree := by
  have hsettle := outcome_forM_settle request.outDir (Report.arrange finished) session
  have hrun : conclude tools request finished =
      ((Report.arrange finished).forM (settle request.outDir) >>= fun _ =>
        if (Report.arrange finished).all fun report => !report.isConverted then
          throw .nothingConverted
        else pure () : Steps (StateM Session) Unit) := by
    rw [conclude, publish, hjson]
    rfl
  rw [hrun, outcome_bind] at hwrites ⊢
  cases hall : writeAll session.tree (writes request.outDir (Report.arrange finished)) with
  | none =>
    rw [hall] at hsettle
    obtain ⟨path, left, hfailed⟩ := hsettle
    rw [hfailed] at hwrites
    exact absurd rfl (hwrites path)
  | some tree =>
    rw [hall] at hsettle
    rw [hsettle]
    by_cases hnone : ((Report.arrange finished).all fun report => !report.isConverted) = true
    · simp only [if_pos hnone, outcome_throw]
    · simp only [if_neg hnone, outcome_pure]

end Command
end StyleScope
