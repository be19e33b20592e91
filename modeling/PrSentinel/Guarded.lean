import Mathlib.Data.List.Infix
import PrSentinel.Runs
import PrSentinel.Table

/-!
A table behind triggers that reject operations, under any number of transactions at once at
READ COMMITTED: row triggers for UPDATE and DELETE, a statement trigger for TRUNCATE.
-/

set_option autoImplicit false

namespace Guarded
open Relational Runs

universe u
variable {ρ : Type u}

inductive Operation where
  | update | delete | truncate
  deriving DecidableEq, Repr

/-- The operations that are rejected. -/
abbrev Triggers := Operation → Bool

inductive Statement (ρ : Type u) where
  | insert (rows : List ρ)
  | update (picks : ρ → Bool) (set : ρ → ρ)
  | delete (picks : ρ → Bool)
  | truncate

/-- A transaction in flight: what it has made of the committed rows, by their numbers, and the
rows of its own. -/
structure Work (ρ : Type u) where
  number : ℕ
  aborted : Bool := false
  touched : Bool := false
  emptied : Bool := false
  edits : ℕ → Option (Option ρ) := fun _ => none
  own : List ρ := []

namespace Work
variable (t : Work ρ)

def view (c : ℕ × ρ) : Option (ℕ × ρ) :=
  if t.emptied then none
  else
    match t.edits c.1 with
    | none => some c
    | some row => row.map fun r => (c.1, r)

def holds (i : ℕ) : Bool := (t.edits i).isSome

def abort : Work ρ := { number := t.number, aborted := true }

end Work

structure State (ρ : Type u) where
  committed : List (ℕ × ρ) := []
  fresh : ℕ := 0
  running : Table (Work.number : Work ρ → ℕ) := .empty

inductive Outcome (ρ : Type u) where
  | waits
  | refused
  | rejected (op : Operation)
  | done (t : Work ρ)

inductive Event (ρ : Type u) where
  | start (number : ℕ)
  | perform (number : ℕ) (stmt : Statement ρ)
  | commit (number : ℕ)
  | rollback (number : ℕ)

namespace State
variable (s : State ρ)

def others (t : Work ρ) : List (Work ρ) := s.running.rows.filter fun u => u.number ≠ t.number

def hits (t : Work ρ) (picks : ρ → Bool) : List (ℕ × ρ) :=
  (s.committed.filterMap t.view).filter fun c => picks c.2

def locked (t : Work ρ) (picks : ρ → Bool) : Bool :=
  (s.hits t picks).any fun c => (s.others t).any fun u => u.holds c.1

variable (tr : Triggers)

/-- UPDATE and DELETE; the trigger fires for a row, so not without one. -/
def touch (op : Operation) (t : Work ρ) (picks : ρ → Bool) (change : ρ → Option ρ) : Outcome ρ :=
  if s.locked t picks then .waits
  else if tr op && (!(s.hits t picks).isEmpty || t.own.any picks) then .rejected op
  else
    .done { t with
      touched := true
      edits := fun i =>
        match (s.hits t picks).find? fun c => c.1 = i with
        | some c => some (change c.2)
        | none => t.edits i
      own := t.own.filterMap fun r => if picks r then change r else some r }

/-- TRUNCATE is alone with the table, and keeps others from it until its end. -/
def perform (t : Work ρ) (stmt : Statement ρ) : Outcome ρ :=
  if t.aborted then .refused
  else if (s.others t).any Work.emptied then .waits
  else
    match stmt with
    | .insert rows => .done { t with touched := true, own := t.own ++ rows }
    | .update picks set => s.touch tr .update t picks fun r => some (set r)
    | .delete picks => s.touch tr .delete t picks fun _ => none
    | .truncate =>
      if (s.others t).any Work.touched then .waits
      else if tr .truncate then .rejected .truncate
      else .done { t with touched := true, emptied := true, own := [] }

def advance (stmt : Statement ρ) (t : Work ρ) : Work ρ :=
  match s.perform tr t stmt with
  | .waits | .refused => t
  | .rejected _ => t.abort
  | .done u => u

theorem perform_done {t u : Work ρ} {stmt : Statement ρ} (h : s.perform tr t stmt = .done u) :
    u.number = t.number := by
  unfold perform touch at h
  grind

theorem advance_number (stmt : Statement ρ) (t : Work ρ) :
    (s.advance tr stmt t).number = t.number := by
  unfold advance
  split
  · rfl
  · rfl
  · rfl
  · rename_i hdone
    exact s.perform_done tr hdone

/-- The end of a transaction that is not rolled back; one that was aborted has nothing to leave. -/
def commit (t : Work ρ) : State ρ where
  committed := s.committed.filterMap t.view ++ (t.own.zipIdx s.fresh).map Prod.swap
  fresh := s.fresh + t.own.length
  running := s.running.delete fun u => u.number = t.number

end State

def step (tr : Triggers) (s : State ρ) : Event ρ → State ρ
  | .start number => { s with running := (s.running.insertNew { number }).2 }
  | .perform number stmt =>
    { s with
      running := s.running.update (fun u => u.number = number) (s.advance tr stmt)
        (s.advance_number tr stmt) }
  | .commit number => ((s.running.find? number).map s.commit).getD s
  | .rollback number => { s with running := s.running.delete fun u => u.number = number }

/-- What is committed at any time in a run stays as it is, with everything new behind it. -/
def AppendOnly (tr : Triggers) (s : State ρ) : Prop :=
  ∀ before after, (run (step tr) s before).committed <+:
    (run (step tr) s (before ++ after)).committed

theorem ext_running {s t : State ρ} (hcommitted : s.committed = t.committed)
    (hfresh : s.fresh = t.fresh) (hrows : s.running.rows = t.running.rows) : s = t := by
  obtain ⟨committed, fresh, ⟨rows, _⟩⟩ := s
  obtain ⟨committed', fresh', ⟨rows', _⟩⟩ := t
  obtain rfl : committed = committed' := hcommitted
  obtain rfl : fresh = fresh' := hfresh
  obtain rfl : rows = rows' := hrows
  rfl

section Join
variable (tr : Triggers) {s : State ρ} {t : Work ρ}

def State.join (s : State ρ) (t : Work ρ) (h : s.running.hasKey t.number = false) : State ρ :=
  { s with running := s.running.append t h }

theorem not_number (h : s.running.hasKey t.number = false) {u : Work ρ} (hu : u ∈ s.running.rows) :
    u.number ≠ t.number :=
  Table.hasKey_false.mp h u hu

theorem others_join (h : s.running.hasKey t.number = false) {u : Work ρ}
    (hnumber : u.number = t.number) : (s.join t h).others u = s.running.rows := by
  have hothers : s.running.rows.filter (fun v => decide (v.number ≠ u.number)) =
      s.running.rows := by
    rw [List.filter_eq_self]
    intro v hv
    simpa [hnumber] using not_number h hv
  rw [State.others, State.join, Table.rows_append, List.filter_append, hothers]
  simp [hnumber]

theorem find?_join (h : s.running.hasKey t.number = false) :
    (s.join t h).running.find? t.number = some t :=
  Table.find?_key (by simp [State.join])

theorem step_start {number : ℕ} (h : s.running.hasKey number = false) :
    step tr s (.start number) = s.join { number } h :=
  ext_running rfl rfl (by simp [step, Table.insertNew, h, State.join])

theorem step_perform (h : s.running.hasKey t.number = false) (stmt : Statement ρ) :
    step tr (s.join t h) (.perform t.number stmt) =
      s.join ((s.join t h).advance tr stmt t)
        (((s.join t h).advance_number tr stmt t).symm ▸ h) := by
  refine ext_running rfl rfl ?_
  have hrest : s.running.rows.map (fun u =>
      if u.number = t.number then (s.join t h).advance tr stmt u else u) = s.running.rows := by
    refine (List.map_congr_left fun u hu => ?_).trans (List.map_id _)
    exact if_neg (not_number h hu)
  simpa [step, Table.update, State.join] using hrest

theorem delete_join (h : s.running.hasKey t.number = false) :
    ((s.join t h).running.delete fun u => u.number = t.number).rows = s.running.rows := by
  have hrest : s.running.rows.filter (fun u => !decide (u.number = t.number)) =
      s.running.rows := by
    rw [List.filter_eq_self]
    intro u hu
    simpa using not_number h hu
  show (s.running.rows ++ [t]).filter (fun u => !decide (u.number = t.number)) = s.running.rows
  rw [List.filter_append, hrest]
  simp

theorem step_rollback (h : s.running.hasKey t.number = false) :
    step tr (s.join t h) (.rollback t.number) = s :=
  ext_running rfl rfl (delete_join h)

theorem step_commit (h : s.running.hasKey t.number = false) :
    step tr (s.join t h) (.commit t.number) =
      { s with
        committed := s.committed.filterMap t.view ++ (t.own.zipIdx s.fresh).map Prod.swap
        fresh := s.fresh + t.own.length } := by
  rw [step, find?_join h]
  exact ext_running rfl rfl (delete_join h)

end Join

def Reaches (t : Work ρ) : Operation → Statement ρ → Prop
  | .update, .update picks _ => t.own.any picks = true
  | .delete, .delete picks => t.own.any picks = true
  | .truncate, .truncate => True
  | _, _ => False

/-- What becomes of it, as soon as it need not wait. -/
structure Decided (tr : Triggers) (op : Operation) (outcome : Outcome ρ) : Prop where
  rejected : tr op = true → outcome = .rejected op
  done : tr op = false → ∃ u, outcome = .done u

section Decided
variable {tr : Triggers} {s : State ρ}

theorem touch_decided {op : Operation} {t : Work ρ} {picks : ρ → Bool}
    (hreach : t.own.any picks = true) (change : ρ → Option ρ) :
    s.touch tr op t picks change = .waits ∨ Decided tr op (s.touch tr op t picks change) := by
  unfold State.touch
  split
  · exact .inl rfl
  · refine .inr ⟨fun hop => ?_, fun hop => ?_⟩
    · simp [hop, hreach]
    · simp [hop]

theorem perform_decided {op : Operation} {t : Work ρ} {stmt : Statement ρ}
    (hfree : t.aborted = false) (hreach : Reaches t op stmt) :
    s.perform tr t stmt = .waits ∨ Decided tr op (s.perform tr t stmt) := by
  unfold State.perform
  rw [hfree, if_neg Bool.false_ne_true]
  split
  · exact .inl rfl
  · cases op <;> cases stmt <;> try exact absurd hreach id
    case update picks set => exact touch_decided hreach _
    case delete picks => exact touch_decided hreach _
    case truncate =>
      dsimp only
      split
      · exact .inl rfl
      · exact .inr ⟨fun hop => by rw [hop]; rfl, fun hop => by rw [hop]; exact ⟨_, rfl⟩⟩

end Decided

structure Work.Apart (t : Work ρ) : Prop where
  kept : t.emptied = false
  unedited : ∀ i, t.edits i = none

theorem Work.Apart.view {t : Work ρ} (h : t.Apart) (c : ℕ × ρ) : t.view c = some c := by
  simp [Work.view, h.kept, h.unedited]

section AllTriggers
variable {tr : Triggers} (hall : ∀ op, tr op = true) {s : State ρ}
include hall

theorem touch_apart {op : Operation} {t u : Work ρ} {picks : ρ → Bool} {change : ρ → Option ρ}
    (ht : t.Apart) (h : s.touch tr op t picks change = .done u) : u.Apart := by
  unfold State.touch at h
  split at h
  · cases h
  · split at h
    · cases h
    · rename_i hnone
      cases h
      have hhits : s.hits t picks = [] := by
        have hfree := hnone
        simp only [hall op, Bool.true_and, Bool.not_eq_true, Bool.or_eq_false_iff,
          Bool.not_eq_eq_eq_not, Bool.not_false, List.isEmpty_iff] at hfree
        exact hfree.1
      exact ⟨ht.kept, fun i => by simp [hhits, ht.unedited]⟩

theorem advance_apart {t : Work ρ} (ht : t.Apart) (stmt : Statement ρ) :
    (s.advance tr stmt t).Apart := by
  unfold State.advance
  split
  · exact ht
  · exact ht
  · exact ⟨rfl, fun _ => rfl⟩
  · rename_i u hdone
    unfold State.perform at hdone
    split at hdone
    · cases hdone
    · split at hdone
      · cases hdone
      · split at hdone
        · cases hdone
          exact ⟨ht.kept, ht.unedited⟩
        · exact touch_apart hall ht hdone
        · exact touch_apart hall ht hdone
        · rw [hall] at hdone
          split at hdone <;> cases hdone

theorem step_grows (hs : ∀ t ∈ s.running.rows, t.Apart) (e : Event ρ) :
    (∀ t ∈ (step tr s e).running.rows, t.Apart) ∧
      s.committed <+: (step tr s e).committed := by
  cases e with
  | start number =>
    refine ⟨fun t ht => ?_, List.prefix_refl _⟩
    rcases Table.mem_insertNew ht with ht | rfl
    · exact hs t ht
    · exact ⟨rfl, fun _ => rfl⟩
  | perform number stmt =>
    refine ⟨fun t ht => ?_, List.prefix_refl _⟩
    have hmem : t ∈ (s.running.update (fun u => u.number = number) (s.advance tr stmt)
        (s.advance_number tr stmt)).rows := ht
    obtain ⟨u, hu, rfl⟩ := Table.mem_update.mp hmem
    split
    · exact advance_apart hall (hs u hu) stmt
    · exact hs u hu
  | commit number =>
    cases hfind : s.running.find? number with
    | none =>
      rw [step, hfind]
      exact ⟨hs, List.prefix_refl _⟩
    | some t =>
      rw [step, hfind]
      refine ⟨fun u hu => hs u (Table.mem_delete.mp hu).1, ?_⟩
      have hview : t.view = some := funext (hs t (Table.mem_of_find? hfind).1).view
      have hcommitted : (s.commit t).committed =
          s.committed ++ (t.own.zipIdx s.fresh).map Prod.swap := by
        rw [State.commit, hview, List.filterMap_some]
      exact ⟨_, hcommitted.symm⟩
  | rollback number =>
    exact ⟨fun u hu => hs u (Table.mem_delete.mp hu).1, List.prefix_refl _⟩

theorem appendOnly_of_all (hs : ∀ t ∈ s.running.rows, t.Apart) : AppendOnly tr s := by
  intro before after
  have hbefore : ∀ t ∈ (run (step tr) s before).running.rows, t.Apart :=
    run_keeps (I := fun s : State ρ => ∀ t ∈ s.running.rows, t.Apart)
      (fun _ e hs => (step_grows hall hs e).1) hs before
  rw [run_append]
  generalize run (step tr) s before = start at hbefore ⊢
  have hgrows := run_keeps
    (I := fun s : State ρ => (∀ t ∈ s.running.rows, t.Apart) ∧ start.committed <+: s.committed)
    (fun _ e h => ⟨(step_grows hall h.1 e).1, h.2.trans (step_grows hall h.1 e).2⟩)
    ⟨hbefore, List.prefix_refl _⟩ after
  exact hgrows.2

end AllTriggers

def wipe (r : ρ) : Operation → Statement ρ
  | .update => .update (fun _ => true) fun _ => r
  | .delete => .delete fun _ => true
  | .truncate => .truncate

def alone (number : ℕ) (stmt : Statement ρ) : List (Event ρ) :=
  [.start number, .perform number stmt, .commit number]

section Alone
variable {tr : Triggers} {s : State ρ}

theorem run_alone {number : ℕ} (h : s.running.hasKey number = false) {stmt : Statement ρ}
    {u : Work ρ} (hdone : (s.join { number } h).advance tr stmt { number } = u) :
    run (step tr) s (alone number stmt) =
      { s with
        committed := s.committed.filterMap u.view ++ (u.own.zipIdx s.fresh).map Prod.swap
        fresh := s.fresh + u.own.length } := by
  have hnumber : u.number = number := by
    rw [← hdone]
    exact State.advance_number _ _ _ _
  have hfree : s.running.hasKey u.number = false := hnumber ▸ h
  have hperform : step tr (s.join { number } h) (.perform number stmt) = s.join u hfree := by
    subst hdone
    exact step_perform tr h stmt
  rw [alone, run_cons, step_start tr h, run_cons, hperform, ← hnumber]
  exact step_commit tr hfree

theorem touch_all {op : Operation} (hop : tr op = false) {number : ℕ}
    (halone : s.others { number } = []) (row : Option ρ) :
    ∃ u, s.touch tr op { number } (fun _ => true) (fun _ => row) = .done u ∧ u.own = [] ∧
      ∀ c ∈ s.committed, u.view c = row.map fun r => (c.1, r) := by
  have hlocked : s.locked { number } (fun _ => true) = false := by simp [State.locked, halone]
  have hhits : s.hits { number } (fun _ => true) = s.committed := by
    have hview : Work.view ({ number } : Work ρ) = some := rfl
    rw [State.hits, hview, List.filterMap_some]
    exact List.filter_true _
  rw [State.touch, hlocked, hop]
  refine ⟨_, rfl, rfl, fun c hc => ?_⟩
  have hfound : ∃ c', s.committed.find? (fun c' => c'.1 = c.1) = some c' := by
    rw [← Option.isSome_iff_exists, List.find?_isSome]
    exact ⟨c, hc, by simp⟩
  obtain ⟨c', hc'⟩ := hfound
  simp [Work.view, hhits, hc']

theorem perform_wipe {op : Operation} (hop : tr op = false) (r : ρ) {number : ℕ}
    (halone : s.others { number } = []) :
    ∃ u, s.perform tr { number } (wipe r op) = .done u ∧ u.own = [] ∧
      ∀ c ∈ s.committed.filterMap u.view, c.2 = r := by
  have hfree : (s.others { number }).any Work.emptied = false := by rw [halone]; rfl
  cases op with
  | update =>
    obtain ⟨u, hdone, hown, hview⟩ := touch_all hop halone (some r)
    refine ⟨u, ?_, hown, fun c hc => ?_⟩
    · unfold State.perform
      rw [hfree]
      exact hdone
    · obtain ⟨d, hd, hseen⟩ := List.mem_filterMap.mp hc
      rw [hview d hd] at hseen
      cases hseen
      rfl
  | delete =>
    obtain ⟨u, hdone, hown, hview⟩ := touch_all hop halone none
    refine ⟨u, ?_, hown, fun c hc => ?_⟩
    · unfold State.perform
      rw [hfree]
      exact hdone
    · obtain ⟨d, hd, hseen⟩ := List.mem_filterMap.mp hc
      rw [hview d hd] at hseen
      cases hseen
  | truncate =>
    refine ⟨{ number, touched := true, emptied := true }, ?_, rfl, fun c hc => ?_⟩
    · have huntouched : (s.others { number }).any Work.touched = false := by rw [halone]; rfl
      simp [State.perform, wipe, hfree, huntouched, hop]
    · obtain ⟨d, -, hseen⟩ := List.mem_filterMap.mp hc
      cases hseen

theorem wiped_of_missing (hquiet : s.running.rows = []) {op : Operation} (hop : tr op = false)
    (r r' : ρ) : (s.fresh, r) ∈ (run (step tr) s (alone 0 (.insert [r]))).committed ∧
      ∀ c ∈ (run (step tr) s (alone 0 (.insert [r]) ++ alone 0 (wipe r' op))).committed,
        c.2 = r' := by
  have hfree (s : State ρ) (hquiet : s.running.rows = []) : s.running.hasKey 0 = false :=
    Table.hasKey_false.mpr (by simp [hquiet])
  have halone (s : State ρ) (hquiet : s.running.rows = []) :
      (s.join { number := 0 } (hfree s hquiet)).others { number := 0 } = [] := by
    rw [others_join (hfree s hquiet) rfl, hquiet]
  have hinsert : (s.join { number := 0 } (hfree s hquiet)).advance tr (.insert [r])
      { number := 0 } = { number := 0, touched := true, own := [r] } := by
    simp [State.advance, State.perform, halone s hquiet]
  rw [run_append, run_alone (hfree s hquiet) hinsert]
  generalize hlater : State.mk _ _ s.running = later
  have hquiet' : later.running.rows = [] := by rw [← hlater]; exact hquiet
  obtain ⟨u, hdone, hown, hall⟩ := perform_wipe hop r' (halone later hquiet')
  have hwipe : (later.join { number := 0 } (hfree later hquiet')).advance tr (wipe r' op)
      { number := 0 } = u := by rw [State.advance, hdone]
  rw [run_alone (hfree later hquiet') hwipe, hown]
  refine ⟨?_, by simpa [State.join] using hall⟩
  rw [← hlater]
  simp

end Alone

theorem appendOnly_iff [Nontrivial ρ] {tr : Triggers} {s : State ρ} (hquiet : s.running.rows = []) :
    AppendOnly tr s ↔ ∀ op, tr op = true := by
  refine ⟨fun hgrows op => ?_, fun hall => appendOnly_of_all hall (by simp [hquiet])⟩
  by_contra hmissing
  have hop : tr op = false := by simpa using hmissing
  obtain ⟨r, r', hne⟩ := exists_pair_ne ρ
  obtain ⟨hin, hwiped⟩ := wiped_of_missing hquiet hop r r'
  exact hne (hwiped _ ((hgrows _ _).subset hin))

end Guarded
