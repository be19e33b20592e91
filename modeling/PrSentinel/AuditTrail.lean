import PrSentinel.Guarded
import PrSentinel.Spine

/-!
The triggers that keep the audit trail append-only, and the command that tries them out.
-/

set_option autoImplicit false

namespace PrSentinel.AuditTrail
open Guarded Runs Relational

def opName : Operation → String
  | .update => "UPDATE"
  | .delete => "DELETE"
  | .truncate => "TRUNCATE"

def rejection (op : Operation) : String :=
  "agent_events is append-only (attempted " ++ opName op ++ ")"

def createTrigger (op : Operation) (created : Bool) (tr : Triggers) : Option Triggers :=
  if created then some (Function.update tr op true) else none

/-- The triggers after the trigger section of `003_timeseries.sql`; its DO block undoes all it did
when it catches an error, the dropping of an older trigger included. -/
def timeseries (created : Operation → Bool) (tr : Triggers) : Option Triggers := do
  let tr ← createTrigger .update (created .update) tr
  let tr ← createTrigger .delete (created .delete) tr
  pure ((createTrigger .truncate (created .truncate) tr).getD tr)

def probeRow : EventRow where
  kind := "decision"
  name := "doctor.probe"
  spanId := none
  status := some "ok"

def probeStatement : Operation → Statement EventRow
  | .update => .update (fun r => r.name = "doctor.probe") fun r => { r with name := "x" }
  | .delete => .delete fun r => r.name = "doctor.probe"
  | .truncate => .truncate

/-- What a statement raises. One that waits is cancelled at `command_timeout`, by an exception
without a text. -/
def raised : Guarded.Outcome EventRow → Option String
  | .waits => some ""
  | .refused => some "current transaction is aborted, commands ignored until end of transaction block"
  | .rejected op => some (rejection op)
  | .done _ => none

def execute (tr : Triggers) (number : ℕ) (stmt : Statement EventRow) (s : State EventRow) :
    Option String × State EventRow :=
  ((s.running.find? number).bind fun t => raised (s.perform tr t stmt),
    step tr s (.perform number stmt))

/-- One turn of the loop, which no other statement comes into: what it catches, and what it
leaves. -/
def probe (tr : Triggers) (number : ℕ) (op : Operation) (s : State EventRow) :
    Option String × State EventRow :=
  match execute tr number (.insert [probeRow]) (step tr s (.start number)) with
  | (some e, s) => (some e, step tr s (.rollback number))
  | (none, s) =>
    let (caught, s) := execute tr number (probeStatement op) s
    (caught, step tr s (.rollback number))

def rejected (caught : Option String) : Bool :=
  caught.any fun e => "append-only".toList <:+: e.toList

def report (op : Operation) (caught : Option String) : String × List String :=
  let unexpected :=
    match caught with
    | some e =>
      if rejected caught then []
      else ["append-only probe for " ++ opName op ++ " failed unexpectedly: " ++ e]
    | none => []
  if rejected caught then
    ("append-only : ok — " ++ opName op ++ " rejected by the database", unexpected)
  else
    ("append-only : FAIL — " ++ opName op ++ " was accepted",
      unexpected ++
        ["agent_events accepts " ++ opName op ++ "; the immutability trigger is missing"])

theorem rejected_rejection (op : Operation) : rejected (some (rejection op)) = true := by
  cases op <;> decide

theorem report_problems (op : Operation) (caught : Option String) :
    (report op caught).2 = [] ↔ rejected caught = true := by
  unfold report
  cases hrejected : rejected caught with
  | true => cases caught <;> simp
  | false => simp

section Probe
variable (tr : Triggers) {s : State EventRow}

theorem rollback_join {t : Work EventRow} (h : s.running.hasKey t.number = false) {number : ℕ}
    (hnumber : t.number = number) : step tr (s.join t h) (.rollback number) = s := by
  subst hnumber
  exact step_rollback tr h

theorem execute_join {t : Work EventRow} (h : s.running.hasKey t.number = false)
    (stmt : Statement EventRow) :
    (execute tr t.number stmt (s.join t h)).1 = raised ((s.join t h).perform tr t stmt) ∧
      step tr (execute tr t.number stmt (s.join t h)).2 (.rollback t.number) = s := by
  constructor
  · rw [execute, find?_join h]
    rfl
  · rw [execute, step_perform tr h]
    exact rollback_join tr _ ((s.join t h).advance_number tr stmt t)

theorem execute_done {t u : Work EventRow} (h : s.running.hasKey t.number = false)
    {stmt : Statement EventRow} (hdone : (s.join t h).perform tr t stmt = .done u) :
    ∃ hu : s.running.hasKey u.number = false,
      execute tr t.number stmt (s.join t h) = (none, s.join u hu) := by
  have hadvance : (s.join t h).advance tr stmt t = u := by rw [State.advance, hdone]
  subst hadvance
  refine ⟨((s.join t h).advance_number tr stmt t).symm ▸ h, ?_⟩
  rw [execute, find?_join h, Option.bind_some, hdone, step_perform tr h]
  rfl

theorem raised_decided {op : Operation} {outcome : Guarded.Outcome EventRow}
    (h : Decided tr op outcome) : raised outcome = if tr op then some (rejection op) else none := by
  cases hop : tr op with
  | true =>
    rw [h.rejected hop]
    rfl
  | false =>
    obtain ⟨u, hu⟩ := h.done hop
    rw [hu]
    rfl

theorem probe_spec {number : ℕ} (hfree : s.running.hasKey number = false) (op : Operation) :
    (probe tr number op s).2 = s ∧ ((probe tr number op s).1 = some "" ∨
      (probe tr number op s).1 = if tr op then some (rejection op) else none) := by
  have hothers := others_join (t := { number }) hfree rfl
  rw [probe, step_start tr hfree]
  cases hemptied : s.running.rows.any Work.emptied with
  | true =>
    -- the table is kept from everyone by a TRUNCATE
    have hwaits : (s.join { number } hfree).perform tr { number } (.insert [probeRow]) = .waits := by
      rw [State.perform, hothers, hemptied]
      rfl
    obtain ⟨hcaught, hleft⟩ := execute_join tr (t := { number }) hfree (.insert [probeRow])
    rw [hwaits] at hcaught
    cases hinsert : execute tr number (.insert [probeRow]) (s.join { number } hfree) with
    | mk caught left =>
      rw [hinsert] at hcaught hleft
      obtain rfl : caught = some "" := hcaught
      exact ⟨hleft, .inl rfl⟩
  | false =>
    have hdone : (s.join { number } hfree).perform tr { number } (.insert [probeRow]) =
        .done { number, touched := true, own := [probeRow] } := by
      rw [State.perform, hothers, hemptied]
      rfl
    obtain ⟨hopened, hinsert⟩ := execute_done tr hfree hdone
    obtain ⟨hcaught, hleft⟩ := execute_join tr hopened (probeStatement op)
    rw [hinsert]
    refine ⟨hleft, ?_⟩
    dsimp only at hcaught ⊢
    rw [hcaught]
    have hreach : Reaches { number, touched := true, own := [probeRow] : Work EventRow } op
        (probeStatement op) := by
      cases op
      · rfl
      · rfl
      · trivial
    rcases perform_decided rfl hreach with hwaits | hdecided
    · rw [hwaits]
      exact .inl rfl
    · exact .inr (raised_decided tr hdecided)

theorem report_spec {number : ℕ} (hfree : s.running.hasKey number = false) (op : Operation) :
    (report op (probe tr number op s).1).2 = [] ↔
      tr op = true ∧ (probe tr number op s).1 ≠ some "" := by
  rw [report_problems]
  rcases (probe_spec tr hfree op).2 with htimeout | hdecided
  · rw [htimeout]
    exact iff_of_false (by decide) fun h => h.2 rfl
  · rw [hdecided]
    cases hop : tr op with
    | true =>
      have htext : some (rejection op) ≠ some "" := by cases op <;> decide
      simpa [rejected_rejection] using htext
    | false => simp [rejected]

end Probe

instance : Nontrivial EventRow := ⟨probeRow, { probeRow with name := "x" }, by decide⟩

/-- The probes leave the trail as it is at any moment. They find no problem with it exactly if no
transactions whatever can change or remove what is committed and none of the probes times out. -/
theorem doctor_tells {tr : Triggers} {s : State EventRow} (hquiet : s.running.rows = [])
    {moment : Operation → List (Event EventRow)} {number : Operation → ℕ}
    (hfree : ∀ op, (run (step tr) s (moment op)).running.hasKey (number op) = false) :
    (∀ op, (probe tr (number op) op (run (step tr) s (moment op))).2 =
      run (step tr) s (moment op)) ∧
    ((∀ op, (report op (probe tr (number op) op (run (step tr) s (moment op))).1).2 = []) ↔
      AppendOnly tr s ∧
        ∀ op, (probe tr (number op) op (run (step tr) s (moment op))).1 ≠ some "") := by
  refine ⟨fun op => (probe_spec tr (hfree op) op).1, ?_⟩
  rw [appendOnly_iff hquiet, ← forall_and]
  exact forall_congr' fun op => report_spec tr (hfree op) op

/-- Beside a transaction that has deleted nothing, all is well; beside one that has inserted a row,
TRUNCATE times out and is said to be accepted, triggers or not. -/
theorem doctor_tells_sample :
    let tr : Triggers := fun _ => true
    let inserting : List (Event EventRow) := [.start 0, .perform 0 (.insert [probeRow])]
    (AppendOnly tr ({} : State EventRow) ∧
      ∀ op, (probe tr 1 op (run (step tr) {} [.start 0])).1 ≠ some "") ∧
    (report .truncate (probe tr 1 .truncate (run (step tr) {} inserting)).1).1 =
      "append-only : FAIL — TRUNCATE was accepted" := by
  intro tr inserting
  have hclean (op : Operation) :
      (report op (probe tr 1 op (run (step tr) {} [.start 0])).1).2 = [] := by
    cases op <;> decide
  have hfree : ∀ op : Operation, (run (step tr) ({} : State EventRow)
      ((fun _ => [.start 0]) op)).running.hasKey 1 = false := fun _ => rfl
  exact ⟨(doctor_tells rfl hfree).2.mp hclean, by decide⟩

def installed (created : Operation → Bool) (tr : Triggers) : Triggers
  | .update | .delete => true
  | .truncate => tr .truncate || created .truncate

theorem timeseries_eq (created : Operation → Bool) (tr : Triggers) : timeseries created tr =
    if created .update = true ∧ created .delete = true then some (installed created tr)
    else none := by
  cases hupdate : created .update with
  | false => simp [timeseries, createTrigger, hupdate]
  | true =>
    cases hdelete : created .delete with
    | false => simp [timeseries, createTrigger, hupdate, hdelete]
    | true =>
      simp only [timeseries, createTrigger, hupdate, hdelete, if_true, and_self,
        Option.bind_eq_bind, Option.bind_some]
      refine congrArg some (funext fun op => ?_)
      cases htruncate : created .truncate <;> cases op <;> simp [installed, htruncate]

/-- Behind the trigger section the trail is append-only exactly if the trigger for TRUNCATE could
be created, or was there before. -/
theorem timeseries_trail {created : Operation → Bool} {tr tr' : Triggers}
    (h : timeseries created tr = some tr') {s : State EventRow} (hquiet : s.running.rows = []) :
    AppendOnly tr' s ↔ tr .truncate = true ∨ created .truncate = true := by
  rw [timeseries_eq] at h
  split at h
  · cases h
    rw [appendOnly_iff hquiet]
    constructor
    · intro hall
      simpa [installed] using hall .truncate
    · intro htruncate op
      cases op
      · rfl
      · rfl
      · simpa [installed] using htruncate
  · cases h

/-- Where it could not be, the section goes through all the same. -/
theorem timeseries_trail_sample :
    let created : Operation → Bool := fun op => op ≠ .truncate
    ∃ tr, timeseries created (fun _ => false) = some tr ∧
      ¬ AppendOnly tr ({} : State EventRow) := by
  intro created
  have hinstalled : timeseries created (fun _ => false) =
      some (installed created fun _ => false) := by
    rw [timeseries_eq]
    rfl
  refine ⟨_, hinstalled, ?_⟩
  rw [timeseries_trail hinstalled rfl]
  decide

end PrSentinel.AuditTrail
