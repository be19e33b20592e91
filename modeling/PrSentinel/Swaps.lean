import Mathlib.Logic.Function.Basic
import PrSentinel.Clusters
import PrSentinel.Runs
import PrSentinel.Table

/-!
Transactions that replace what one owner has in a shared table and label the owner with
what it was replaced by, statement by statement at READ COMMITTED.
-/

set_option autoImplicit false

namespace Swaps
open Relational Runs Greedy

universe u v w x
variable {ρ : Type u} {κ : Type v} {ω : Type w} {τ : Type x}

structure Schema (ρ : Type u) (κ : Type v) (ω : Type w) where
  key : ρ → κ
  owner : ρ → ω
  owner_of_key : ∀ r r', key r = key r' → owner r = owner r'

/-- A committed row, and by which commit. -/
structure Version (ρ : Type u) where
  row : ρ
  stamp : ℕ
  deriving DecidableEq, Repr

/-- A transaction in flight: what its DELETE saw, and how far its INSERTs are. -/
structure Swap (ρ : Type u) (ω : Type w) (τ : Type x) where
  number : ℕ
  owner : ω
  label : τ
  snapshot : ℕ
  done : List ρ := []
  todo : List ρ
  inserted : List ρ := []

def Swap.rows (t : Swap ρ ω τ) : List ρ := t.done ++ t.todo

structure State (ρ : Type u) (ω : Type w) (τ : Type x) where
  committed : List (Version ρ) := []
  label : ω → Option τ := fun _ => none
  clock : ℕ := 0
  running : Table (Swap.number : Swap ρ ω τ → ℕ) := .empty

inductive Event (ρ : Type u) (ω : Type w) (τ : Type x) where
  | start (number : ℕ) (owner : ω) (label : τ) (rows : List ρ)
  | insert (number : ℕ)
  | commit (number : ℕ)
  | abort (number : ℕ)

variable [DecidableEq κ] [DecidableEq ω] (schema : Schema ρ κ ω)

/-- The DELETE reaches what was committed when it began. Locks on these rows only make it wait. -/
def Swap.removes (t : Swap ρ ω τ) (c : Version ρ) : Bool :=
  schema.owner c.row = t.owner && c.stamp ≤ t.snapshot

namespace State
variable (s : State ρ ω τ)

def live (t : Swap ρ ω τ) : List (Version ρ) := s.committed.filter fun c => !t.removes schema c

/-- Another transaction in flight has put a row of this key in, or taken one out: wait for it. -/
def blocked (t : Swap ρ ω τ) (r : ρ) : Bool :=
  s.running.rows.any fun u => u.number ≠ t.number &&
    (schema.key r ∈ u.inserted.map schema.key ||
      (s.live schema t).any fun c => schema.key c.row = schema.key r && u.removes schema c)

/-- `ON CONFLICT DO NOTHING`: a unique check looks at what is committed by now, whatever the
snapshot. -/
def taken (t : Swap ρ ω τ) (r : ρ) : Bool :=
  schema.key r ∈ ((s.live schema t).map Version.row ++ t.inserted).map schema.key

def advance (t : Swap ρ ω τ) : Swap ρ ω τ :=
  match t.todo with
  | [] => t
  | r :: todo => { t with
      done := t.done ++ [r], todo
      inserted := if s.taken schema t r then t.inserted else t.inserted ++ [r] }

theorem advance_number (t : Swap ρ ω τ) : (s.advance schema t).number = t.number := by
  unfold advance
  split <;> rfl

theorem advance_frame (t : Swap ρ ω τ) : (s.advance schema t).owner = t.owner ∧
    (s.advance schema t).label = t.label ∧ (s.advance schema t).snapshot = t.snapshot := by
  unfold advance
  split <;> exact ⟨rfl, rfl, rfl⟩

theorem advance_rows (t : Swap ρ ω τ) : (s.advance schema t).rows = t.rows := by
  unfold advance
  split
  · rfl
  · rename_i r todo htodo
    simp [Swap.rows, htodo]

theorem advance_given {t : Swap ρ ω τ} (h : ∀ r ∈ t.inserted, r ∈ t.done) :
    ∀ r ∈ (s.advance schema t).inserted, r ∈ (s.advance schema t).done := by
  unfold advance
  split
  · exact h
  · intro r hr
    dsimp only at hr ⊢
    rw [List.mem_append]
    split at hr
    · exact .inl (h r hr)
    · exact (List.mem_append.mp hr).imp (h r) id

def insertNext (number : ℕ) : State ρ ω τ :=
  { s with
    running := s.running.update (fun u => u.number = number) (s.advance schema)
      (s.advance_number schema) }

theorem mem_insertNext {number : ℕ} {u : Swap ρ ω τ} :
    u ∈ (s.insertNext schema number).running.rows ↔ ∃ t ∈ s.running.rows,
      (if t.number = number then s.advance schema t else t) = u := by
  rw [insertNext, Table.mem_update]
  simp only [decide_eq_true_eq]

def commit (t : Swap ρ ω τ) : State ρ ω τ where
  committed := s.live schema t ++ t.inserted.map fun r => ⟨r, s.clock + 1⟩
  label := Function.update s.label t.owner (some t.label)
  clock := s.clock + 1
  running := s.running.delete fun u => u.number = t.number

def step : Event ρ ω τ → State ρ ω τ
  | .start number owner label rows =>
    if rows.all fun r => schema.owner r = owner then
      { s with running := (s.running.insertNew
          { number, owner, label, snapshot := s.clock, todo := rows }).2 }
    else s
  | .insert number =>
    match s.running.find? number with
    | none => s
    | some t =>
      if t.todo.head?.any (s.blocked schema t) then s else s.insertNext schema number
  | .commit number =>
    match s.running.find? number with
    | none => s
    | some t => if t.todo.isEmpty then s.commit schema t else s
  | .abort number => { s with running := s.running.delete fun u => u.number = number }

def contents (owner : ω) : Option τ × List ρ :=
  (s.label owner, (s.committed.filter fun c => schema.owner c.row = owner).map Version.row)

end State

structure Done (ρ : Type u) (ω : Type w) (τ : Type x) where
  owner : ω
  label : τ
  rows : List ρ

/-- All at once, and nobody else's. -/
def Done.apply (d : Done ρ ω τ) (contents : ω → Option τ × List ρ) : ω → Option τ × List ρ :=
  Function.update contents d.owner (some d.label, firsts schema.key d.rows)

def committing (s : State ρ ω τ) : Event ρ ω τ → Option (Done ρ ω τ)
  | .commit number => (s.running.find? number).bind fun t =>
      if t.todo.isEmpty then some ⟨t.owner, t.label, t.rows⟩ else none
  | _ => none

def commits : State ρ ω τ → List (Event ρ ω τ) → List (Done ρ ω τ)
  | _, [] => []
  | s, e :: events => (committing s e).toList ++ commits (s.step schema e) events

/-- No swap commits while another one of the same owner is in flight. -/
def Alone (s : State ρ ω τ) : Event ρ ω τ → Prop
  | .commit number => ∀ t ∈ s.running.rows, t.number = number →
      ∀ u ∈ s.running.rows, u.owner = t.owner → u.number = number
  | _ => True

instance (s : State ρ ω τ) : ∀ e, Decidable (Alone s e)
  | .commit number => inferInstanceAs (Decidable (∀ t ∈ s.running.rows, t.number = number →
      ∀ u ∈ s.running.rows, u.owner = t.owner → u.number = number))
  | .start .. | .insert _ | .abort _ => .isTrue trivial

omit [DecidableEq κ] [DecidableEq ω] in
theorem eq_of_number {s : State ρ ω τ} {t u : Swap ρ ω τ} (ht : t ∈ s.running.rows)
    (hu : u ∈ s.running.rows) (h : t.number = u.number) : t = u :=
  List.inj_on_of_nodup_map s.running.unique ht hu h

theorem step_cases (s : State ρ ω τ) (e : Event ρ ω τ) :
    (s.step schema e = s ∧ committing s e = none) ∨
    (∃ t : Swap ρ ω τ, e = .start t.number t.owner t.label t.todo ∧ t.snapshot = s.clock ∧
      t.done = [] ∧ t.inserted = [] ∧ (∀ r ∈ t.todo, schema.owner r = t.owner) ∧ (∀ u ∈ s.running.rows, u.number ≠ t.number) ∧
      committing s e = none ∧ ∃ running, running.rows = s.running.rows ++ [t] ∧
        s.step schema e = { s with running }) ∨
    (∃ t ∈ s.running.rows, t.todo.head?.any (s.blocked schema t) = false ∧
      committing s e = none ∧ s.step schema e = s.insertNext schema t.number) ∨
    (∃ t ∈ s.running.rows, e = .commit t.number ∧ t.todo = [] ∧
      committing s e = some ⟨t.owner, t.label, t.rows⟩ ∧ s.step schema e = s.commit schema t) ∨
    (∃ number, e = .abort number ∧ committing s e = none ∧
      s.step schema e = { s with running := s.running.delete fun u => u.number = number }) := by
  cases e with
  | start number owner label rows =>
    by_cases hall : ∀ r ∈ rows, schema.owner r = owner
    · have hall' : rows.all (fun r => schema.owner r = owner) = true := by simpa using hall
      rcases s.running.insertNew_cases { number, owner, label, snapshot := s.clock, todo := rows }
        with ⟨hnew, -, hrows⟩ | ⟨-, -, hsame⟩
      · refine .inr (.inl ⟨_, rfl, rfl, rfl, rfl, hall, Table.hasKey_false.mp hnew, rfl, _, hrows, ?_⟩)
        rw [State.step, if_pos hall']
      · refine .inl ⟨?_, rfl⟩
        rw [State.step, if_pos hall', hsame]
    · refine .inl ⟨if_neg ?_, rfl⟩
      simpa using hall
  | insert number =>
    cases hfound : s.running.find? number with
    | none => exact .inl ⟨by simp only [State.step, hfound], rfl⟩
    | some t =>
      obtain ⟨ht, rfl⟩ := Table.mem_of_find? hfound
      cases hblocked : t.todo.head?.any (s.blocked schema t) with
      | true => exact .inl ⟨by simp only [State.step, hfound, hblocked, if_true], rfl⟩
      | false =>
        refine .inr (.inr (.inl ⟨t, ht, hblocked, rfl, ?_⟩))
        simp only [State.step, hfound, hblocked, Bool.false_eq_true, if_false]
  | commit number =>
    cases hfound : s.running.find? number with
    | none => exact .inl ⟨by simp only [State.step, hfound], by simp [committing, hfound]⟩
    | some t =>
      obtain ⟨ht, rfl⟩ := Table.mem_of_find? hfound
      cases htodo : t.todo with
      | nil =>
        refine .inr (.inr (.inr (.inl ⟨t, ht, rfl, htodo, ?_, ?_⟩)))
        · simp [committing, hfound, htodo]
        · simp [State.step, hfound, htodo]
      | cons r todo =>
        refine .inl ⟨?_, ?_⟩
        · simp [State.step, hfound, htodo]
        · simp [committing, hfound, htodo]
  | abort number => exact .inr (.inr (.inr (.inr ⟨number, rfl, rfl, rfl⟩)))

variable {schema}

/-- What is known of a run without overlapping commits: a transaction has seen all that its owner
has, and has put in each of its rows so far that it had not put in before. -/
structure Serial (schema : Schema ρ κ ω) (s : State ρ ω τ) : Prop where
  stamps : ∀ c ∈ s.committed, c.stamp ≤ s.clock
  owned : ∀ t ∈ s.running.rows, ∀ r ∈ t.rows, schema.owner r = t.owner
  seen : ∀ t ∈ s.running.rows, ∀ c ∈ s.committed, schema.owner c.row = t.owner →
    c.stamp ≤ t.snapshot
  exact : ∀ t ∈ s.running.rows, t.inserted = firsts schema.key t.done

namespace Serial

theorem live_owner {s : State ρ ω τ} (h : Serial schema s) {t : Swap ρ ω τ}
    (ht : t ∈ s.running.rows) {c : Version ρ} (hc : c ∈ s.live schema t) :
    schema.owner c.row ≠ t.owner := by
  obtain ⟨hc, hlive⟩ := List.mem_filter.mp hc
  intro howner
  have hseen := h.seen t ht c hc howner
  simp [Swap.removes, howner, hseen] at hlive

theorem taken_iff {s : State ρ ω τ} (h : Serial schema s) {t : Swap ρ ω τ}
    (ht : t ∈ s.running.rows) {r : ρ} (hr : schema.owner r = t.owner) :
    s.taken schema t r = true ↔ schema.key r ∈ t.inserted.map schema.key := by
  rw [State.taken, decide_eq_true_eq, List.map_append, List.mem_append]
  refine or_iff_right fun hlive => ?_
  obtain ⟨r', hr', hkey⟩ := List.mem_map.mp hlive
  obtain ⟨c, hc, rfl⟩ := List.mem_map.mp hr'
  exact h.live_owner ht hc ((schema.owner_of_key _ _ hkey).trans hr)

theorem advance_exact {s : State ρ ω τ} (h : Serial schema s) {t : Swap ρ ω τ}
    (ht : t ∈ s.running.rows) :
    (s.advance schema t).inserted = firsts schema.key (s.advance schema t).done := by
  unfold State.advance
  split
  · exact h.exact t ht
  · rename_i r todo htodo
    have howner : schema.owner r = t.owner := h.owned t ht r (by simp [Swap.rows, htodo])
    have htaken := h.taken_iff ht howner
    rw [h.exact t ht] at htaken
    dsimp only
    rw [firsts_snoc, h.exact t ht]
    exact if_congr htaken rfl rfl

omit [DecidableEq ω] in
theorem of_running {s : State ρ ω τ} (h : Serial schema s) {running : Table Swap.number}
    (hrunning : ∀ t ∈ running.rows, t ∈ s.running.rows ∨
      (∀ r ∈ t.rows, schema.owner r = t.owner) ∧
      (∀ c ∈ s.committed, schema.owner c.row = t.owner → c.stamp ≤ t.snapshot) ∧
      t.inserted = firsts schema.key t.done) : Serial schema { s with running } := by
  refine ⟨h.stamps, fun t ht => ?_, fun t ht => ?_, fun t ht => ?_⟩
  · rcases hrunning t ht with hold | hnew
    · exact h.owned t hold
    · exact hnew.1
  · rcases hrunning t ht with hold | hnew
    · exact h.seen t hold
    · exact hnew.2.1
  · rcases hrunning t ht with hold | hnew
    · exact h.exact t hold
    · exact hnew.2.2

theorem commit {s : State ρ ω τ} (h : Serial schema s) {t : Swap ρ ω τ}
    (ht : t ∈ s.running.rows) (halone : ∀ u ∈ s.running.rows, u.owner = t.owner →
      u.number = t.number) : Serial schema (s.commit schema t) := by
  have hrunning : ∀ u ∈ (s.commit schema t).running.rows, u ∈ s.running.rows ∧
      u.owner ≠ t.owner := by
    intro u hu
    obtain ⟨hu, hnumber⟩ := Table.mem_delete.mp hu
    exact ⟨hu, fun howner => of_decide_eq_false hnumber (halone u hu howner)⟩
  have hinserted : ∀ r ∈ t.inserted, schema.owner r = t.owner := by
    intro r hr
    rw [h.exact t ht] at hr
    exact h.owned t ht r (List.mem_append_left _ ((firsts_sublist _ _).subset hr))
  have hcommitted : ∀ c ∈ (s.commit schema t).committed, c ∈ s.committed ∧ c.stamp ≤ s.clock ∨
      schema.owner c.row = t.owner ∧ c.stamp = s.clock + 1 := by
    intro c hc
    rcases List.mem_append.mp hc with hc | hc
    · have hc := (List.mem_filter.mp hc).1
      exact .inl ⟨hc, h.stamps c hc⟩
    · obtain ⟨r, hr, rfl⟩ := List.mem_map.mp hc
      exact .inr ⟨hinserted r hr, rfl⟩
  refine ⟨fun c hc => ?_, fun u hu => h.owned u (hrunning u hu).1, fun u hu c hc howner => ?_,
    fun u hu => h.exact u (hrunning u hu).1⟩
  · rcases hcommitted c hc with ⟨-, hle⟩ | ⟨-, heq⟩
    · exact hle.trans (Nat.le_succ _)
    · exact heq.le
  · obtain ⟨hu, hne⟩ := hrunning u hu
    rcases hcommitted c hc with ⟨hc, -⟩ | ⟨hown, -⟩
    · exact h.seen u hu c hc howner
    · exact absurd (howner.symm.trans hown) hne

theorem commit_contents {s : State ρ ω τ} (h : Serial schema s) {t : Swap ρ ω τ}
    (ht : t ∈ s.running.rows) (htodo : t.todo = []) : (s.commit schema t).contents schema =
      Done.apply schema ⟨t.owner, t.label, t.rows⟩ (s.contents schema) := by
  have hinserted : ∀ r ∈ t.inserted, schema.owner r = t.owner := by
    intro r hr
    rw [h.exact t ht] at hr
    exact h.owned t ht r (List.mem_append_left _ ((firsts_sublist _ _).subset hr))
  have hrows : t.rows = t.done := by rw [Swap.rows, htodo, List.append_nil]
  funext owner
  rw [Done.apply, hrows, ← h.exact t ht]
  unfold State.contents State.commit
  dsimp only
  rw [List.filter_append, List.map_append]
  by_cases howner : owner = t.owner
  · subst howner
    have hnone : (s.live schema t).filter (fun c => schema.owner c.row = t.owner) = [] :=
      List.filter_eq_nil_iff.mpr fun c hc howner => h.live_owner ht hc (of_decide_eq_true howner)
    have hall : (t.inserted.map fun r => (⟨r, s.clock + 1⟩ : Version ρ)).filter
        (fun c => schema.owner c.row = t.owner) = t.inserted.map fun r => ⟨r, s.clock + 1⟩ := by
      refine List.filter_eq_self.mpr fun c hc => ?_
      obtain ⟨r, hr, rfl⟩ := List.mem_map.mp hc
      exact decide_eq_true (hinserted r hr)
    rw [hnone, hall, Function.update_self, Function.update_self]
    simp [Function.comp_def]
  · have hlive : (s.live schema t).filter (fun c => schema.owner c.row = owner) =
        s.committed.filter fun c => schema.owner c.row = owner := by
      rw [State.live, List.filter_filter]
      refine List.filter_congr fun c _ => ?_
      by_cases hown : schema.owner c.row = owner
      · simp [Swap.removes, hown, howner]
      · simp [hown]
    have hnone : (t.inserted.map fun r => (⟨r, s.clock + 1⟩ : Version ρ)).filter
        (fun c => schema.owner c.row = owner) = [] := by
      refine List.filter_eq_nil_iff.mpr fun c hc hown => ?_
      obtain ⟨r, hr, rfl⟩ := List.mem_map.mp hc
      exact howner ((of_decide_eq_true hown).symm.trans (hinserted r hr))
    rw [hlive, hnone, Function.update_of_ne howner, Function.update_of_ne howner]
    simp

theorem step {s : State ρ ω τ} (h : Serial schema s) {e : Event ρ ω τ} (halone : Alone s e) :
    Serial schema (s.step schema e) ∧ (s.step schema e).contents schema =
      (committing s e).toList.foldl (fun contents d => d.apply schema contents)
        (s.contents schema) := by
  rcases step_cases schema s e with ⟨hstep, hnone⟩ |
    ⟨t, -, hsnapshot, hdone, hinserted, howned, -, hnone, running, hrows, hstep⟩ |
    ⟨t, ht, -, hnone, hstep⟩ | ⟨t, ht, rfl, htodo, hsome, hstep⟩ | ⟨number, -, hnone, hstep⟩
  · rw [hstep, hnone]
    exact ⟨h, rfl⟩
  · rw [hstep, hnone]
    refine ⟨h.of_running fun u hu => ?_, rfl⟩
    rw [hrows, List.mem_append, List.mem_singleton] at hu
    rcases hu with hu | rfl
    · exact .inl hu
    · refine .inr ⟨?_, fun c hc _ => hsnapshot ▸ h.stamps c hc, by rw [hinserted, hdone]; rfl⟩
      simpa [Swap.rows, hdone] using howned
  · rw [hstep, hnone]
    refine ⟨h.of_running fun u hu => ?_, rfl⟩
    obtain ⟨r, hr, rfl⟩ := (s.mem_insertNext schema).mp hu
    split
    · rename_i hnumber
      obtain rfl := eq_of_number hr ht hnumber
      obtain ⟨howner, -, hsnapshot⟩ := s.advance_frame schema r
      rw [s.advance_rows, howner, hsnapshot]
      exact .inr ⟨h.owned r hr, h.seen r hr, h.advance_exact hr⟩
    · exact .inl hr
  · rw [hstep, hsome]
    exact ⟨h.commit ht (halone t ht rfl), h.commit_contents ht htodo⟩
  · rw [hstep, hnone]
    exact ⟨h.of_running fun u hu => .inl (Table.mem_delete.mp hu).1, rfl⟩

theorem run {s : State ρ ω τ} (h : Serial schema s) {events : List (Event ρ ω τ)}
    (halone : Throughout (State.step schema) Alone s events) :
    Serial schema (run (State.step schema) s events) ∧
      (run (State.step schema) s events).contents schema =
        (commits schema s events).foldl (fun contents d => d.apply schema contents)
          (s.contents schema) := by
  induction events generalizing s with
  | nil => exact ⟨h, rfl⟩
  | cons e events ih =>
    obtain ⟨hnext, hcontents⟩ := h.step halone.1
    obtain ⟨hserial, hrest⟩ := ih hnext halone.2
    refine ⟨hserial, ?_⟩
    rw [run_cons, hrest, hcontents, commits, List.foldl_append]

end Serial

omit [DecidableEq ω] in
theorem serial_initial : Serial schema ({} : State ρ ω τ) :=
  ⟨by simp, by simp [Table.empty], by simp, by simp [Table.empty]⟩

def Quiet (owner : ω) (number : ℕ) (s : State ρ ω τ) (e : Event ρ ω τ) : Prop :=
  e ≠ .abort number ∧ ∀ d ∈ committing s e, d.owner ≠ owner

/-- A transaction in flight that does not see what a later commit has put there. -/
structure Overtaken (s : State ρ ω τ) (u : Swap ρ ω τ) (added : List (Version ρ)) : Prop where
  flying : ∃ u' ∈ s.running.rows, u'.number = u.number ∧ u'.owner = u.owner ∧
    u'.label = u.label ∧ u'.snapshot = u.snapshot
  there : ∀ c ∈ added, c ∈ s.committed
  unseen : ∀ c ∈ added, u.snapshot < c.stamp

namespace Overtaken
variable {s : State ρ ω τ} {u : Swap ρ ω τ} {added : List (Version ρ)}

theorem step (h : Overtaken s u added) (hown : ∀ c ∈ added, schema.owner c.row = u.owner)
    {e : Event ρ ω τ} (hquiet : Quiet u.owner u.number s e) :
    Overtaken (s.step schema e) u added := by
  obtain ⟨⟨u', hu', hnumber, howner, hlabel, hsnapshot⟩, hthere, hunseen⟩ := h
  rcases step_cases schema s e with ⟨hstep, -⟩ | ⟨t, -, -, -, -, -, -, -, running, hrows, hstep⟩ |
    ⟨t, ht, -, -, hstep⟩ | ⟨t, ht, rfl, -, hsome, hstep⟩ | ⟨number, rfl, -, hstep⟩
  · rw [hstep]
    exact ⟨⟨u', hu', hnumber, howner, hlabel, hsnapshot⟩, hthere, hunseen⟩
  · rw [hstep]
    refine ⟨⟨u', ?_, hnumber, howner, hlabel, hsnapshot⟩, hthere, hunseen⟩
    simp [hrows, hu']
  · rw [hstep]
    refine ⟨⟨_, (s.mem_insertNext schema).mpr ⟨u', hu', rfl⟩, ?_⟩, hthere, hunseen⟩
    split
    · obtain ⟨hown', hlab, hsnap⟩ := s.advance_frame schema u'
      rw [s.advance_number, hown', hlab, hsnap]
      exact ⟨hnumber, howner, hlabel, hsnapshot⟩
    · exact ⟨hnumber, howner, hlabel, hsnapshot⟩
  · have hother : t.owner ≠ u.owner := hquiet.2 _ hsome
    rw [hstep]
    refine ⟨⟨u', Table.mem_delete.mpr ⟨hu', ?_⟩, hnumber, howner, hlabel, hsnapshot⟩,
      fun c hc => ?_, hunseen⟩
    · refine decide_eq_false fun heq => hother ?_
      rw [← howner, eq_of_number hu' ht heq]
    · refine List.mem_append_left _ (List.mem_filter.mpr ⟨hthere c hc, ?_⟩)
      simp [Swap.removes, hown c hc, Ne.symm hother]
  · rw [hstep]
    refine ⟨⟨u', Table.mem_delete.mpr ⟨hu', decide_eq_false fun heq => hquiet.1 ?_⟩, hnumber,
      howner, hlabel, hsnapshot⟩, hthere, hunseen⟩
    rw [← hnumber, heq]

variable (schema) in
omit [DecidableEq κ] in
theorem commit (h : Overtaken s u added) : ∃ u' ∈ s.running.rows, u'.number = u.number ∧
    u'.owner = u.owner ∧ (∀ c ∈ added, c ∈ (s.commit schema u').committed) ∧
    (∀ r ∈ u'.inserted, ⟨r, s.clock + 1⟩ ∈ (s.commit schema u').committed) ∧
    (s.commit schema u').label u.owner = some u.label := by
  obtain ⟨⟨u', hu', hnumber, howner, hlabel, hsnapshot⟩, hthere, hunseen⟩ := h
  refine ⟨u', hu', hnumber, howner, fun c hc => ?_, fun r hr => ?_, ?_⟩
  · refine List.mem_append_left _ (List.mem_filter.mpr ⟨hthere c hc, ?_⟩)
    have hlate : ¬ c.stamp ≤ u'.snapshot := by
      rw [hsnapshot]
      exact not_le.mpr (hunseen c hc)
    simp [Swap.removes, hlate]
  · exact List.mem_append_right _ (List.mem_map_of_mem hr)
  · rw [← howner, ← hlabel]
    exact Function.update_self ..

end Overtaken

omit [DecidableEq κ] in
theorem overtaken_by {s : State ρ ω τ} {t u : Swap ρ ω τ} (hu : u ∈ s.running.rows)
    (hne : u.number ≠ t.number) (hbegan : u.snapshot ≤ s.clock) :
    Overtaken (s.commit schema t) u (t.inserted.map fun r => ⟨r, s.clock + 1⟩) := by
  refine ⟨⟨u, Table.mem_delete.mpr ⟨hu, decide_eq_false hne⟩, rfl, rfl, rfl, rfl⟩,
    fun c hc => List.mem_append_right _ hc, fun c hc => ?_⟩
  obtain ⟨r, -, rfl⟩ := List.mem_map.mp hc
  exact Nat.lt_succ_of_le hbegan

structure Sound (schema : Schema ρ κ ω) (s : State ρ ω τ) : Prop where
  began : ∀ t ∈ s.running.rows, t.snapshot ≤ s.clock
  owned : ∀ t ∈ s.running.rows, ∀ r ∈ t.rows, schema.owner r = t.owner
  given : ∀ t ∈ s.running.rows, ∀ r ∈ t.inserted, r ∈ t.done

omit [DecidableEq κ] [DecidableEq ω] in
theorem sound_initial : Sound schema ({} : State ρ ω τ) :=
  ⟨by simp [Table.empty], by simp [Table.empty], by simp [Table.empty]⟩

theorem Sound.step {s : State ρ ω τ} (h : Sound schema s) (e : Event ρ ω τ) :
    Sound schema (s.step schema e) := by
  suffices hrunning : (s.clock ≤ (s.step schema e).clock) ∧
      ∀ t ∈ (s.step schema e).running.rows, t.snapshot ≤ s.clock ∧
        (∀ r ∈ t.rows, schema.owner r = t.owner) ∧ ∀ r ∈ t.inserted, r ∈ t.done from
    ⟨fun t ht => (hrunning.2 t ht).1.trans hrunning.1, fun t ht => (hrunning.2 t ht).2.1,
      fun t ht => (hrunning.2 t ht).2.2⟩
  have hold (t) (ht : t ∈ s.running.rows) : t.snapshot ≤ s.clock ∧
      (∀ r ∈ t.rows, schema.owner r = t.owner) ∧ ∀ r ∈ t.inserted, r ∈ t.done :=
    ⟨h.began t ht, h.owned t ht, h.given t ht⟩
  rcases step_cases schema s e with ⟨hstep, -⟩ |
    ⟨t, -, hsnapshot, hdone, hinserted, howned, -, -, running, hrows, hstep⟩ |
    ⟨t, -, -, -, hstep⟩ | ⟨t, -, -, -, -, hstep⟩ | ⟨number, -, -, hstep⟩ <;> rw [hstep]
  · exact ⟨le_rfl, hold⟩
  · refine ⟨le_rfl, fun u hu => ?_⟩
    rw [hrows, List.mem_append, List.mem_singleton] at hu
    rcases hu with hu | rfl
    · exact hold u hu
    · refine ⟨hsnapshot.le, ?_, by simp [hinserted]⟩
      simpa [Swap.rows, hdone] using howned
  · refine ⟨le_rfl, fun u hu => ?_⟩
    obtain ⟨r, hr, rfl⟩ := (s.mem_insertNext schema).mp hu
    obtain ⟨hsnapshot, howned, hgiven⟩ := hold r hr
    split
    · obtain ⟨howner, -, hsnap⟩ := s.advance_frame schema r
      rw [s.advance_rows, howner, hsnap]
      exact ⟨hsnapshot, howned, s.advance_given schema hgiven⟩
    · exact ⟨hsnapshot, howned, hgiven⟩
  · exact ⟨Nat.le_succ _, fun u hu => hold u (Table.mem_delete.mp hu).1⟩
  · exact ⟨le_rfl, fun u hu => hold u (Table.mem_delete.mp hu).1⟩

theorem step_commit {s : State ρ ω τ} {t : Swap ρ ω τ} (ht : t ∈ s.running.rows)
    (htodo : t.todo = []) : s.step schema (.commit t.number) = s.commit schema t := by
  simp [State.step, Table.find?_key ht, htodo]

theorem Sound.overlap {s : State ρ ω τ} (h : Sound schema s) {t u : Swap ρ ω τ}
    (ht : t ∈ s.running.rows) (hu : u ∈ s.running.rows) (howner : u.owner = t.owner)
    (hne : u.number ≠ t.number) (htodo : t.todo = []) {events : List (Event ρ ω τ)}
    (hquiet : Throughout (State.step schema) (Quiet t.owner u.number)
      (s.step schema (.commit t.number)) events) :
    let later := run (State.step schema) (s.step schema (.commit t.number)) events
    ∃ u' ∈ later.running.rows, u'.number = u.number ∧ (u'.todo = [] →
      ((later.step schema (.commit u.number)).contents schema t.owner).1 = some u.label ∧
      ∀ r ∈ t.inserted ++ u'.inserted,
        r ∈ ((later.step schema (.commit u.number)).contents schema t.owner).2) := by
  intro later
  have hsound : Sound schema later :=
    run_keeps (fun s e hs => hs.step e) (h.step (.commit t.number)) events
  have hinserted (s' : State ρ ω τ) (h' : Sound schema s') (v : Swap ρ ω τ)
      (hv : v ∈ s'.running.rows) (r : ρ) (hr : r ∈ v.inserted) : schema.owner r = v.owner :=
    h'.owned v hv r (List.mem_append_left _ (h'.given v hv r hr))
  let added := t.inserted.map fun r => (⟨r, s.clock + 1⟩ : Version ρ)
  have hadded : ∀ c ∈ added, schema.owner c.row = u.owner := by
    intro c hc
    obtain ⟨r, hr, rfl⟩ := List.mem_map.mp hc
    exact (hinserted s h t ht r hr).trans howner.symm
  have hstep (s' : State ρ ω τ) (e : Event ρ ω τ) (hq : Quiet t.owner u.number s' e)
      (ho : Overtaken s' u added) : Overtaken (s'.step schema e) u added :=
    ho.step hadded (howner ▸ hq)
  have hstart : Overtaken (s.step schema (.commit t.number)) u added := by
    rw [step_commit ht htodo]
    exact overtaken_by hu hne (h.began u hu)
  obtain ⟨u', hu', hnumber, hown', hold, hnew, hlabel⟩ :=
    (hquiet.run_keeps hstep hstart).commit schema
  refine ⟨u', hu', hnumber, fun hdone => ?_⟩
  rw [← hnumber, step_commit hu' hdone]
  refine ⟨by rw [← howner]; exact hlabel, fun r hr => ?_⟩
  rcases List.mem_append.mp hr with hr | hr
  · refine List.mem_map.mpr ⟨⟨r, s.clock + 1⟩, List.mem_filter.mpr ⟨?_, ?_⟩, rfl⟩
    · exact hold _ (List.mem_map_of_mem hr)
    · exact decide_eq_true (hinserted s h t ht r hr)
  · refine List.mem_map.mpr ⟨⟨r, later.clock + 1⟩, List.mem_filter.mpr ⟨hnew r hr, ?_⟩, rfl⟩
    exact decide_eq_true ((hinserted later hsound u' hu' r hr).trans (hown'.trans howner))

omit [DecidableEq ω] in
theorem committing_eq {s : State ρ ω τ} {e : Event ρ ω τ} {d : Done ρ ω τ}
    (h : committing s e = some d) :
    ∃ t ∈ s.running.rows, d = ⟨t.owner, t.label, t.rows⟩ := by
  cases e with
  | commit number =>
    obtain ⟨t, hfound, h⟩ := Option.bind_eq_some_iff.mp h
    split at h
    · exact ⟨t, (Table.mem_of_find? hfound).1, (Option.some.inj h).symm⟩
    · cases h
  | start | insert | abort => cases h

theorem commits_from {P : Done ρ ω τ → Prop} {s : State ρ ω τ} {events : List (Event ρ ω τ)}
    (hs : ∀ t ∈ s.running.rows, P ⟨t.owner, t.label, t.rows⟩)
    (hstart : ∀ number owner label rows, .start number owner label rows ∈ events →
      P ⟨owner, label, rows⟩) : ∀ d ∈ commits schema s events, P d := by
  induction events generalizing s with
  | nil => exact fun d hd => absurd hd List.not_mem_nil
  | cons e events ih =>
    intro d hd
    rcases List.mem_append.mp hd with hd | hd
    · obtain ⟨t, ht, rfl⟩ := committing_eq (Option.mem_toList.mp hd)
      exact hs t ht
    · refine ih (fun u hu => ?_) (fun number owner label rows hmem =>
        hstart number owner label rows (List.mem_cons_of_mem _ hmem)) d hd
      rcases step_cases schema s e with ⟨hstep, -⟩ |
        ⟨t, he, -, hdone, -, -, -, -, running, hrows, hstep⟩ | ⟨t, -, -, -, hstep⟩ |
        ⟨t, -, -, -, -, hstep⟩ | ⟨number, -, -, hstep⟩ <;> rw [hstep] at hu
      · exact hs u hu
      · rw [hrows, List.mem_append, List.mem_singleton] at hu
        rcases hu with hu | rfl
        · exact hs u hu
        · rw [Swap.rows, hdone, List.nil_append]
          refine hstart u.number _ _ _ ?_
          rw [he]
          exact List.mem_cons_self
      · obtain ⟨r, hr, rfl⟩ := (s.mem_insertNext schema).mp hu
        split
        · obtain ⟨howner, hlabel, -⟩ := s.advance_frame schema r
          rw [howner, hlabel, s.advance_rows]
          exact hs r hr
        · exact hs r hr
      · exact hs u (Table.mem_delete.mp hu).1
      · exact hs u (Table.mem_delete.mp hu).1

theorem foldl_apply (ds : List (Done ρ ω τ)) (contents : ω → Option τ × List ρ) (owner : ω) :
    ds.foldl (fun contents d => d.apply schema contents) contents owner =
      match (ds.filter fun d => d.owner = owner).getLast? with
      | none => contents owner
      | some d => (some d.label, firsts schema.key d.rows) := by
  induction ds using List.reverseRecOn with
  | nil => rfl
  | append_singleton ds d ih =>
    rw [List.foldl_append, List.filter_append]
    by_cases howner : d.owner = owner
    · subst howner
      simp [Done.apply]
    · rw [List.filter_singleton, decide_eq_false howner, Bool.cond_false, List.append_nil, ← ih]
      exact Function.update_of_ne (Ne.symm howner) ..

end Swaps
