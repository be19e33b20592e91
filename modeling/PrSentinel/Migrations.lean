import PrSentinel.Crash
import PrSentinel.Ranking
import PrSentinel.Runs
import PrSentinel.Splitter
import PrSentinel.Table

/-!
The migration runner: files applied in the order of their names, statement by statement
and outside any transaction, each file recorded in a ledger once it is through.
-/

set_option autoImplicit false

namespace PrSentinel.Migrations
open Python Splitter Relational Crash Crash.Exec

structure File where
  name : String
  sql : String

structure Row where
  filename : String
  checksum : String

inductive Event where
  | sent (file stmt : String)
  | returned (file stmt : String)
  | drift (file : String)
  | recorded (file : String)
  deriving DecidableEq, Repr

/-- The directory a run finds, and what becomes of each of its calls. -/
structure Attempt where
  files : List File
  distinct : (files.map File.name).Nodup
  ledgerFate : Fate
  readFate : String → Fate
  fetchFate : String → Fate
  stmtFate : String → ℕ → Fate
  insertFate : String → Fate

structure State where
  ledger : Table Row.filename
  events : List Event

def note (e : Event) : Exec State PUnit := fun s => (.ok ⟨⟩, { s with events := s.events ++ [e] })

def execute (file : String) (fate : Fate) (stmt : String) : Exec State PUnit := do
  note (.sent file stmt)
  Exec.call fate fun s => (⟨⟩, s)
  note (.returned file stmt)

def record (fate : Fate) (row : Row) : Exec State PUnit := fun s =>
  if s.ledger.hasKey row.filename then (.error .raised, s)
  else
    Exec.call fate (fun s => (⟨⟩, {
      ledger := (s.ledger.insertNew row).2
      events := s.events ++ [.recorded row.filename] })) s

section Runner
variable [Interp] (checksum : String → String) (attempt : Attempt)

/-- One turn of the loop over files: whether the file was applied. -/
def applyFile (f : File) : Exec State Bool := do
  let _ ← Exec.call (attempt.readFate f.name) fun s => (PUnit.unit, s)
  match ← Exec.call (attempt.fetchFate f.name) fun s => (s.ledger.find? f.name, s) with
  | some row =>
    if row.checksum ≠ checksum f.sql then
      note (.drift f.name)
    pure false
  | none =>
    match splitStatements f.sql with
    | none => Exec.abort .raised
    | some stmts =>
      Exec.forEach (fun p => execute f.name (attempt.stmtFate f.name p.2) p.1) stmts.zipIdx
      record (attempt.insertFate f.name) ⟨f.name, checksum f.sql⟩
      pure true

def applyFiles : List File → Exec State (List String)
  | [] => pure []
  | f :: files => do
    let done ← applyFile checksum attempt f
    let applied ← applyFiles files
    pure (if done then f.name :: applied else applied)

def applyMigrations : Exec State (List String) := do
  let _ ← Exec.call attempt.ledgerFate fun s => (PUnit.unit, s)
  applyFiles checksum attempt (Ranking.inOrder File.name attempt.files)

end Runner

theorem append_singleton_cases {α : Type} {xs past later : List α} {x t : α}
    (h : xs ++ [x] = past ++ t :: later) :
    (past = xs ∧ t = x) ∨ ∃ rest, xs = past ++ t :: rest := by
  rcases List.eq_nil_or_concat later with rfl | ⟨rest, last, rfl⟩
  · obtain ⟨rfl, hlast⟩ := List.append_inj' h rfl
    exact .inl ⟨rfl, by simpa using hlast.symm⟩
  · rw [List.concat_eq_append, ← List.cons_append, ← List.append_assoc] at h
    exact .inr ⟨rest, (List.append_inj' h rfl).1⟩

def performed (file : String) (stmts : List String) : List Event :=
  stmts.flatMap fun stmt => [.sent file stmt, .returned file stmt]

/-- The events of a run so far against the ledger it started from. -/
structure Truthful [Interp] (start : Table Row.filename) (attempt : Attempt) (s : State) :
    Prop where
  ledger : ∀ name, s.ledger.hasKey name = true ↔
    start.hasKey name = true ∨ .recorded name ∈ s.events
  told : ∀ name, .recorded name ∈ s.events → ∃ f ∈ attempt.files, f.name = name ∧
    ∃ stmts, splitStatements f.sql = some stmts ∧ ∃ before after,
      s.events = before ++ performed name stmts ++ .recorded name :: after
  spared : ∀ name stmt, .sent name stmt ∈ s.events → start.hasKey name = false
  ordered : ∀ before after name stmt, s.events = before ++ .sent name stmt :: after →
    ∀ g ∈ attempt.files, g.name < name → start.hasKey g.name = true ∨ .recorded g.name ∈ before

section Truthful
variable [Interp] {start : Table Row.filename} {attempt : Attempt} {s : State}

theorem truthful_start (start : Table Row.filename) (attempt : Attempt) :
    Truthful start attempt ⟨start, []⟩ := by
  constructor <;> simp

theorem Truthful.fresh (h : Truthful start attempt s) {name : String}
    (hname : s.ledger.hasKey name = false) : start.hasKey name = false := by
  by_contra hstart
  have := (h.ledger name).mpr (.inl (by simpa using hstart))
  simp [hname] at this

theorem Truthful.append (h : Truthful start attempt s) {e : Event} {ledger : Table Row.filename}
    (hledger : ∀ name, ledger.hasKey name = true ↔ s.ledger.hasKey name = true ∨ .recorded name = e)
    (hsent : ∀ name stmt, .sent name stmt = e → s.ledger.hasKey name = false ∧
      ∀ g ∈ attempt.files, g.name < name → s.ledger.hasKey g.name = true)
    (hrecorded : ∀ name, .recorded name = e → ∃ f ∈ attempt.files, f.name = name ∧
      ∃ stmts, splitStatements f.sql = some stmts ∧
        ∃ before, s.events = before ++ performed name stmts) :
    Truthful start attempt ⟨ledger, s.events ++ [e]⟩ where
  ledger := by
    intro name
    rw [hledger, h.ledger, List.mem_append, List.mem_singleton, or_assoc]
  told := by
    intro name hname
    rcases List.mem_append.mp hname with hname | hname
    · obtain ⟨f, hf, hfile, stmts, hstmts, before, after, hevents⟩ := h.told name hname
      exact ⟨f, hf, hfile, stmts, hstmts, before, after ++ [e], by simp [hevents]⟩
    · obtain ⟨f, hf, hfile, stmts, hstmts, before, hevents⟩ :=
        hrecorded name (List.mem_singleton.mp hname)
      refine ⟨f, hf, hfile, stmts, hstmts, before, [], ?_⟩
      rw [hevents, ← List.mem_singleton.mp hname]
  spared := by
    intro name stmt hmem
    rcases List.mem_append.mp hmem with hmem | hmem
    · exact h.spared name stmt hmem
    · exact h.fresh (hsent name stmt (List.mem_singleton.mp hmem)).1
  ordered := by
    intro before after name stmt hevents g hg hlt
    rcases append_singleton_cases hevents with ⟨rfl, hlast⟩ | ⟨rest, hevents⟩
    · exact (h.ledger g.name).mp ((hsent name stmt hlast).2 g hg hlt)
    · exact h.ordered before rest name stmt hevents g hg hlt

end Truthful

theorem Triple.note {P : State → Prop} {Q : PUnit → State → Prop} {E : Abort → State → Prop}
    {e : Event} (h : ∀ s, P s → Q ⟨⟩ { s with events := s.events ++ [e] }) :
    Triple P (note e) Q E := fun s hs => h s hs

section Loops
variable [Interp] {checksum : String → String} {start ledger : Table Row.filename}
  {attempt : Attempt} {f : File}

structure Due (attempt : Attempt) (ledger : Table Row.filename) (f : File) : Prop where
  unrecorded : ledger.hasKey f.name = false
  earlier : ∀ g ∈ attempt.files, g.name < f.name → ledger.hasKey g.name = true

/-- The ledger is as it was found, and some events are the last that happened. -/
structure Midway (start : Table Row.filename) (attempt : Attempt) (ledger : Table Row.filename)
    (last : List Event) (s : State) : Prop where
  truthful : Truthful start attempt s
  same : s.ledger = ledger
  last : ∃ before, s.events = before ++ last

theorem Midway.append (hdue : Due attempt ledger f) {last : List Event} {s : State} {e : Event}
    (h : Midway start attempt ledger last s)
    (hsent : ∀ name stmt, .sent name stmt = e → name = f.name)
    (hrecorded : ∀ name, .recorded name ≠ e) :
    Midway start attempt ledger (last ++ [e]) { s with events := s.events ++ [e] } where
  truthful := by
    refine h.truthful.append (by simp [hrecorded]) (fun name stmt hname => ?_) fun name hname => ?_
    · rw [hsent name stmt hname, h.same]
      exact ⟨hdue.unrecorded, hdue.earlier⟩
    · exact absurd hname (hrecorded name)
  same := h.same
  last := by
    obtain ⟨before, hevents⟩ := h.last
    exact ⟨before, by rw [hevents, List.append_assoc]⟩

theorem execute_midway (hdue : Due attempt ledger f) (done : List String) (fate : Fate)
    (stmt : String) : Triple (Midway start attempt ledger (performed f.name done))
      (execute f.name fate stmt)
      (fun _ => Midway start attempt ledger (performed f.name (done ++ [stmt])))
      fun _ => Truthful start attempt := by
  let sent := Midway start attempt ledger (performed f.name done ++ [.sent f.name stmt])
  have hsent : Triple (Midway start attempt ledger (performed f.name done))
      (note (.sent f.name stmt)) (fun _ => sent) fun _ => Truthful start attempt :=
    Triple.note fun s h => h.append hdue (by simp) (by simp)
  have hreturned : Triple sent (note (.returned f.name stmt))
      (fun _ => Midway start attempt ledger (performed f.name (done ++ [stmt])))
      fun _ => Truthful start attempt := by
    refine Triple.note fun s h => ?_
    simpa [performed] using h.append hdue (e := .returned f.name stmt) (by simp) (by simp)
  refine Triple.bind hsent fun _ => Triple.bind (R := fun _ => sent) ?_ fun _ => hreturned
  exact Triple.call (fun s h _ => h) (fun s h _ _ => h.truthful) fun s h _ _ => h.truthful

theorem executes_midway (hdue : Due attempt ledger f) (stmts : List String) :
    Triple (Midway start attempt ledger [])
      (Exec.forEach (fun p => execute f.name (attempt.stmtFate f.name p.2) p.1) stmts.zipIdx)
      (fun _ => Midway start attempt ledger (performed f.name stmts))
      fun _ => Truthful start attempt := by
  let inv (rest : List (String × ℕ)) (s : State) : Prop := ∃ done, stmts.zipIdx = done ++ rest ∧
    Midway start attempt ledger (performed f.name (done.map Prod.fst)) s
  have hstep (p : String × ℕ) (rest : List (String × ℕ)) :
      Triple (inv (p :: rest)) (execute f.name (attempt.stmtFate f.name p.2) p.1)
        (fun _ => inv rest) fun _ => Truthful start attempt := by
    rintro s ⟨done, hdone, h⟩
    refine (execute_midway hdue (done.map Prod.fst) _ p.1).imp (fun _ h => h) (fun _ t ht => ?_)
      (fun _ _ h => h) s h
    exact ⟨done ++ [p], by simp [hdone], by simpa using ht⟩
  refine (Triple.forEach hstep stmts.zipIdx).imp (fun s h => ⟨[], rfl, h⟩) (fun _ s h => ?_)
    fun _ _ h => h
  obtain ⟨done, hdone, h⟩ := h
  rw [List.append_nil] at hdone
  rwa [← hdone, List.zipIdx_map_fst] at h

theorem record_truthful (hf : f ∈ attempt.files) (hdue : Due attempt ledger f) {stmts : List String}
    (hstmts : splitStatements f.sql = some stmts) (fate : Fate) (digest : String) :
    Triple (Midway start attempt ledger (performed f.name stmts)) (record fate ⟨f.name, digest⟩)
      (fun _ s => Truthful start attempt s ∧ s.ledger = (ledger.insertNew ⟨f.name, digest⟩).2)
      fun _ => Truthful start attempt := by
  intro s h
  have hnew : s.ledger.hasKey f.name = false := h.same ▸ hdue.unrecorded
  have hrecorded : Truthful start attempt
      ⟨(s.ledger.insertNew ⟨f.name, digest⟩).2, s.events ++ [.recorded f.name]⟩ := by
    refine h.truthful.append (fun name => ?_) (by simp) fun name hname => ?_
    · simp [Table.hasKey_insertNew]
    · obtain rfl : name = f.name := by simpa using hname
      exact ⟨f, hf, rfl, stmts, hstmts, h.last⟩
  have hcall : Triple (fun t => t = s) (Exec.call fate fun s => (PUnit.unit, (⟨(s.ledger.insertNew
      ⟨f.name, digest⟩).2, s.events ++ [.recorded f.name]⟩ : State)))
      (fun _ s => Truthful start attempt s ∧ s.ledger = (ledger.insertNew ⟨f.name, digest⟩).2)
      fun _ => Truthful start attempt := by
    refine Triple.call ?_ ?_ ?_
    · rintro t rfl -
      exact ⟨hrecorded, by rw [h.same]⟩
    · rintro t rfl - -
      exact hrecorded
    · rintro t rfl - -
      exact h.truthful
  have hrun := hcall s rfl
  rw [record, if_neg (by simp [hnew])]
  exact hrun

structure Behind (start : Table Row.filename) (attempt : Attempt) (files : List File)
    (s : State) : Prop where
  truthful : Truthful start attempt s
  recorded : ∀ g ∈ attempt.files, g ∉ files → s.ledger.hasKey g.name = true

theorem Behind.next {files : List File} {s : State} (h : Behind start attempt (f :: files) s)
    {after : State} (htruthful : Truthful start attempt after)
    (hkept : ∀ name, s.ledger.hasKey name = true → after.ledger.hasKey name = true)
    (hf : after.ledger.hasKey f.name = true) : Behind start attempt files after where
  truthful := htruthful
  recorded := by
    intro g hg hfiles
    by_cases hgf : g = f
    · rwa [hgf]
    · exact hkept g.name (h.recorded g hg (by simp [hgf, hfiles]))

theorem applyNew_behind {files : List File} {s : State} (hf : f ∈ attempt.files)
    (hfirst : ∀ g ∈ f :: files, f.name ≤ g.name) (h : Behind start attempt (f :: files) s)
    (hnew : s.ledger.hasKey f.name = false) {stmts : List String}
    (hstmts : splitStatements f.sql = some stmts) (digest : String) :
    Triple (fun t => t = s) (do
        Exec.forEach (fun p => execute f.name (attempt.stmtFate f.name p.2) p.1) stmts.zipIdx
        record (attempt.insertFate f.name) ⟨f.name, digest⟩
        pure true)
      (fun _ => Behind start attempt files) fun _ => Truthful start attempt := by
  have hdue : Due attempt s.ledger f := by
    refine ⟨hnew, fun g hg hlt => h.recorded g hg fun hmem => ?_⟩
    exact absurd hlt (hfirst g hmem).not_gt
  refine Triple.bind ((executes_midway hdue stmts).imp ?_ (fun _ _ h => h) fun _ _ h => h) fun _ =>
    Triple.bind (record_truthful hf hdue hstmts _ digest) fun _ => Triple.ret fun t ht => ?_
  · rintro t rfl
    exact ⟨h.truthful, rfl, t.events, (List.append_nil _).symm⟩
  · obtain ⟨htruthful, hledger⟩ := ht
    refine h.next htruthful (fun name hname => ?_) ?_
    · rw [hledger]
      exact Table.hasKey_insertNew.mpr (.inl hname)
    · rw [hledger]
      exact Table.insertNew_hasKey _ _

theorem applyOld_behind {files : List File} (row : Row) :
    Triple (fun s => Behind start attempt (f :: files) s ∧ s.ledger.find? f.name = some row) (do
        if row.checksum ≠ checksum f.sql then
          note (.drift f.name)
        pure false)
      (fun _ => Behind start attempt files) fun _ => Truthful start attempt := by
  rintro s ⟨h, hrow⟩
  have hf : s.ledger.hasKey f.name = true := by rw [Table.hasKey_find?, hrow, Option.isSome_some]
  by_cases hdrift : row.checksum ≠ checksum f.sql
  · simp only [if_pos hdrift]
    refine h.next (h.truthful.append ?_ ?_ ?_) (fun _ hname => hname) hf
    · simp
    · simp
    · simp
  · simp only [if_neg hdrift]
    exact h.next h.truthful (fun _ hname => hname) hf

theorem applyFile_behind {files : List File} (hf : f ∈ attempt.files)
    (hfirst : ∀ g ∈ f :: files, f.name ≤ g.name) :
    Triple (Behind start attempt (f :: files)) (applyFile checksum attempt f)
      (fun _ => Behind start attempt files) fun _ => Truthful start attempt := by
  refine Triple.bind (R := fun _ => Behind start attempt (f :: files)) ?_ fun _ =>
    Triple.bind (R := fun row s => Behind start attempt (f :: files) s ∧
      s.ledger.find? f.name = row) ?_ fun row => ?_
  · exact Triple.call (fun s h _ => h) (fun s h _ _ => h.truthful) fun s h _ _ => h.truthful
  · exact Triple.call (fun s h _ => ⟨h, rfl⟩) (fun s h _ _ => h.truthful) fun s h _ _ => h.truthful
  · cases row with
    | some row => exact applyOld_behind row
    | none =>
      dsimp only
      rintro s ⟨h, hrow⟩
      have hnew : s.ledger.hasKey f.name = false := by
        rw [Table.hasKey_find?, hrow, Option.isSome_none]
      cases hstmts : splitStatements f.sql with
      | none => exact h.truthful
      | some stmts => exact applyNew_behind hf hfirst h hnew hstmts (checksum f.sql) s rfl

theorem applyFiles_behind {files : List File} (hfiles : ∀ f ∈ files, f ∈ attempt.files)
    (hsorted : files.Pairwise fun f g => f.name ≤ g.name) :
    Triple (Behind start attempt files) (applyFiles checksum attempt files)
      (fun _ => Behind start attempt []) fun _ => Truthful start attempt := by
  induction files with
  | nil => exact Triple.ret fun s h => h
  | cons f files ih =>
    obtain ⟨hf, hfiles⟩ := List.forall_mem_cons.mp hfiles
    obtain ⟨hfirst, hsorted⟩ := List.pairwise_cons.mp hsorted
    refine Triple.bind (applyFile_behind hf ?_) fun _ => Triple.bind (ih hfiles hsorted) fun _ =>
      Triple.ret fun s h => h
    exact List.forall_mem_cons.mpr ⟨le_rfl, hfirst⟩

variable (checksum) in
theorem applyMigrations_behind (start : Table Row.filename) (attempt : Attempt) :
    Triple (fun s => s = ⟨start, []⟩) (applyMigrations checksum attempt)
      (fun _ => Behind start attempt []) fun _ => Truthful start attempt := by
  have hsorted := Ranking.inOrder_pairwise File.name attempt.files
  refine Triple.bind (R := fun _ => Behind start attempt (Ranking.inOrder File.name attempt.files))
    (Triple.call ?_ ?_ ?_) fun _ => applyFiles_behind (fun f hf => ?_) hsorted
  · rintro s rfl -
    exact ⟨truthful_start start attempt, fun g hg hnot =>
      absurd ((Ranking.mem_inOrder File.name).mpr hg) hnot⟩
  · rintro s rfl - -
    exact truthful_start start attempt
  · rintro s rfl - -
    exact truthful_start start attempt
  · exact (Ranking.mem_inOrder File.name).mp hf

variable (checksum) in
theorem applyMigrations_truthful (start : Table Row.filename) (attempt : Attempt) :
    Truthful start attempt (applyMigrations checksum attempt ⟨start, []⟩).2 :=
  triple_state.mp ((applyMigrations_behind checksum start attempt).imp (fun _ h => h)
    (fun _ _ h => h.truthful) fun _ _ h => h) _ rfl

theorem applyMigrations_complete {applied : List String} {s : State}
    (h : applyMigrations checksum attempt ⟨start, []⟩ = (.ok applied, s)) :
    ∀ g ∈ attempt.files, s.ledger.hasKey g.name = true := by
  have hbehind := applyMigrations_behind checksum start attempt ⟨start, []⟩ rfl
  rw [h] at hbehind
  exact fun g hg => hbehind.recorded g hg List.not_mem_nil

end Loops

structure Trace where
  attempt : Attempt
  events : List Event

structure Db where
  ledger : Table Row.filename
  history : List Trace

def Db.fresh : Db := ⟨.empty, []⟩

/-- Some run has recorded the file. -/
def Recorded (history : List Trace) (name : String) : Prop :=
  ∃ t ∈ history, .recorded name ∈ t.events

theorem recorded_append {history : List Trace} {t : Trace} {name : String} :
    Recorded (history ++ [t]) name ↔ Recorded history name ∨ .recorded name ∈ t.events := by
  simp [Recorded, or_and_right, exists_or]

section Runs
variable [Interp] (checksum : String → String)

def Db.migrate (db : Db) (attempt : Attempt) : Db :=
  let s := (applyMigrations checksum attempt ⟨db.ledger, []⟩).2
  ⟨s.ledger, db.history ++ [⟨attempt, s.events⟩]⟩

/-- What the ledger says of all runs so far, and what a run owes to those before it. -/
structure LedgerTruthful (db : Db) : Prop where
  ledger : ∀ name, db.ledger.hasKey name = true ↔ Recorded db.history name
  told : ∀ t ∈ db.history, ∀ name, .recorded name ∈ t.events →
    ∃ f ∈ t.attempt.files, f.name = name ∧ ∃ stmts, splitStatements f.sql = some stmts ∧
      ∃ before after, t.events = before ++ performed name stmts ++ .recorded name :: after
  spared : ∀ past t later, db.history = past ++ t :: later → ∀ name, Recorded past name →
    ∀ stmt, .sent name stmt ∉ t.events
  ordered : ∀ past t later, db.history = past ++ t :: later → ∀ before after name stmt,
    t.events = before ++ .sent name stmt :: after → ∀ g ∈ t.attempt.files, g.name < name →
      .recorded g.name ∈ before ∨ Recorded past g.name

variable {checksum} {db : Db}

theorem migrate_truthful (h : LedgerTruthful db) (attempt : Attempt) :
    LedgerTruthful (db.migrate checksum attempt) := by
  have hrun := applyMigrations_truthful checksum db.ledger attempt
  refine ⟨fun name => ?_, fun t ht => ?_, fun past t later heq => ?_, fun past t later heq => ?_⟩
  · rw [Db.migrate, recorded_append, ← h.ledger]
    exact hrun.ledger name
  · rcases List.mem_append.mp ht with ht | ht
    · exact h.told t ht
    · obtain rfl := List.mem_singleton.mp ht
      exact hrun.told
  · rcases append_singleton_cases heq with ⟨rfl, rfl⟩ | ⟨rest, hrest⟩
    · intro name hname stmt hsent
      have hfresh := hrun.spared name stmt hsent
      rw [← h.ledger, hfresh] at hname
      cases hname
    · exact h.spared past t rest hrest
  · rcases append_singleton_cases heq with ⟨rfl, rfl⟩ | ⟨rest, hrest⟩
    · intro before after name stmt hevents g hg hlt
      rw [← h.ledger, or_comm]
      exact hrun.ordered before after name stmt hevents g hg hlt
    · exact h.ordered past t rest hrest

theorem fresh_truthful : LedgerTruthful Db.fresh := by
  constructor <;> simp [Db.fresh, Recorded, Table.hasKey, Table.empty]

/-- The ledger is truthful after any runs, whatever of them fails and wherever. -/
theorem ledger_truthful (attempts : List Attempt) :
    LedgerTruthful (Runs.run (Db.migrate checksum) Db.fresh attempts) := by
  have hstep (db : Db) (attempt : Attempt) (h : LedgerTruthful db) :
      LedgerTruthful (Db.migrate checksum db attempt) := migrate_truthful h attempt
  exact Runs.run_keeps hstep fresh_truthful attempts

end Runs

end PrSentinel.Migrations
