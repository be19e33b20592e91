import Mathlib.Data.List.Perm.Basic
import PrSentinel.Crash
import PrSentinel.Runs
import PrSentinel.Storage

/-!
Decisions on the human queue. Each is two statements, one that closes the item and one
that records the feedback, and any number of them are under way at once.
-/

set_option autoImplicit false

namespace PrSentinel.Decisions
open Relational Crash

inductive ItemState where
  | opened | approved | rejected | expired
  deriving DecidableEq, Repr

structure QueueItem extends HitlItem where
  id : UUID
  state : ItemState := .opened
  decidedBy : Option String := none
  decidedAt : Option ℚ := none
  note : Option String := none

def feedbackSources : List String := ["hitl_gate", "pr_reply", "resolved_thread", "manual"]
def feedbackVerdicts : List String := ["accepted", "disputed", "duplicate", "wont_fix"]

/-- A row of `feedback`, with what its CHECKs say of it. -/
structure FeedbackRow where
  reviewId : Option ℕ
  findingId : Option UUID
  source : String
  verdict : String
  actor : Option String
  note : Option String
  checked : source ∈ feedbackSources ∧ verdict ∈ feedbackVerdicts
  /-- no column: the item whose decision the row records -/
  item : UUID

structure Request where
  itemId : UUID
  verdict : String
  actor : String := "operator"
  note : String := ""
  deriving DecidableEq, Repr

def Request.state (r : Request) : ItemState :=
  if r.verdict = "accepted" then .approved else .rejected

/-- A request, and the review id once the first statement has returned it. -/
structure Flight where
  request : Request
  row : Option ℕ
  deriving DecidableEq, Repr

structure Desk where
  items : Table QueueItem.id := .empty
  feedback : List FeedbackRow := []
  inFlight : List Flight := []

def closeItem (r : Request) (now : ℚ) (s : Desk) : Option ℕ × Desk :=
  let hit (i : QueueItem) : Bool := i.id = r.itemId && i.state = .opened
  ((s.items.rows.find? hit).map fun i => i.reviewId, { s with
    items := s.items.update hit (fun i => { i with
      state := r.state
      decidedBy := some r.actor
      decidedAt := some now
      note := some r.note }) fun _ => rfl })

def recordFeedback (item : UUID) (reviewId : Option ℕ) (findingId : Option UUID)
    (source verdict : String) (actor note : Option String) (fate : Fate) : Exec Desk Unit :=
  fun s =>
    if checked : source ∈ feedbackSources ∧ verdict ∈ feedbackVerdicts then
      Exec.call fate (fun s => ((), { s with
        feedback := s.feedback ++
          [{ reviewId, findingId, source, verdict, actor, note, checked, item }] })) s
    else (.error .raised, s)

/-- The next statement of `decide`, for a request taken out of those in flight. -/
def proceed (f : Flight) (now : ℚ) (fate : Fate) (s : Desk) : Desk :=
  match f.row with
  | none =>
    match Exec.call fate (closeItem f.request now) s with
    | (.ok (some reviewId), t) => { t with inFlight := t.inFlight ++ [⟨f.request, some reviewId⟩] }
    | (.ok none, t) => t
    | (.error _, t) => t
  | some reviewId =>
    let note := if f.request.note = "" then none else some f.request.note
    (recordFeedback f.request.itemId (some reviewId) none "hitl_gate" f.request.verdict
      (some f.request.actor) note fate s).2

inductive Event where
  | enqueue (id : UUID) (item : HitlItem)
  | submit (r : Request)
  | proceed (i : ℕ) (now : ℚ) (fate : Fate)
  | abandon (i : ℕ)

def step (s : Desk) : Event → Desk
  | .enqueue id item => { s with items := (s.items.insertNew { item with id }).2 }
  | .submit r => { s with inFlight := s.inFlight ++ [⟨r, none⟩] }
  | .proceed i now fate =>
    match s.inFlight[i]? with
    | some f => Decisions.proceed f now fate { s with inFlight := s.inFlight.eraseIdx i }
    | none => s
  | .abandon i => { s with inFlight := s.inFlight.eraseIdx i }

def Desk.stateOf (s : Desk) (id : UUID) : Option ItemState := (s.items.find? id).map QueueItem.state

def Desk.recorded (s : Desk) (id : UUID) : ℕ := s.feedback.countP fun r => r.item = id

def Desk.recording (s : Desk) (id : UUID) : ℕ :=
  s.inFlight.countP fun f => f.row.isSome && f.request.itemId = id

def Desk.answers (s : Desk) (id : UUID) : ℕ := s.recorded id + s.recording id

def Settled (s : Desk) : Prop :=
  ∀ i ∈ s.items.rows, s.recorded i.id = if i.state = .opened then 0 else 1

/-- The next statement of the request, if it lands, leaves nothing owing: the one that closes the
item returns its row, and the one that records it has a verdict the table takes. -/
def Flight.Safe (s : Desk) (fate : Fate) : Flight → Prop
  | ⟨r, none⟩ => s.stateOf r.itemId = some .opened → fate.applied = true → fate = .returns
  | ⟨r, some _⟩ => r.verdict ∈ feedbackVerdicts ∧ fate.applied = true

instance Flight.Safe.decidable (s : Desk) (fate : Fate) : ∀ f : Flight, Decidable (f.Safe s fate)
  | ⟨_, none⟩ => inferInstanceAs (Decidable (_ → _ → _))
  | ⟨_, some _⟩ => inferInstanceAs (Decidable (_ ∧ _))

/-- What a step may not do: lose a request that has closed its item. -/
def Harmless (s : Desk) : Event → Prop
  | .enqueue _ _ | .submit _ => True
  | .abandon i => ∀ f ∈ s.inFlight[i]?, f.row = none
  | .proceed i _ fate => ∀ f ∈ s.inFlight[i]?, f.Safe s fate

instance Harmless.decidable (s : Desk) : ∀ e, Decidable (Harmless s e)
  | .enqueue _ _ | .submit _ => .isTrue trivial
  | .abandon i => inferInstanceAs (Decidable (∀ f ∈ s.inFlight[i]?, f.row = none))
  | .proceed i _ fate => inferInstanceAs (Decidable (∀ f ∈ s.inFlight[i]?, f.Safe s fate))

/-- What a step does to the items and to what is recorded of them; the flag says that nothing
a request owes is lost. -/
inductive Moves (s t : Desk) : Bool → Prop where
  | same (hstate : ∀ id, t.stateOf id = s.stateOf id) (hcount : ∀ id, t.answers id = s.answers id) :
      Moves s t true
  | enqueued (x : UUID) (hnew : s.stateOf x = none)
      (hstate : ∀ id, t.stateOf id = if id = x then some .opened else s.stateOf id)
      (hcount : ∀ id, t.answers id = s.answers id) : Moves s t true
  | closed (x : UUID) (st : ItemState) (owed : Bool) (hopened : s.stateOf x = some .opened)
      (hst : st ≠ .opened) (hstate : ∀ id, t.stateOf id = if id = x then some st else s.stateOf id)
      (hcount : ∀ id, t.answers id = s.answers id + if owed && id = x then 1 else 0) :
      Moves s t owed
  | dropped (x : UUID) (hstate : ∀ id, t.stateOf id = s.stateOf id)
      (hcount : ∀ id, t.answers id + (if id = x then 1 else 0) = s.answers id) : Moves s t false

section Statements
variable {s : Desk} {r : Request} {now : ℚ} {id : UUID}

theorem find_hit : (closeItem r now s).1.isSome = true ↔ s.stateOf r.itemId = some .opened := by
  rw [closeItem, Option.isSome_map, List.find?_isSome, Desk.stateOf]
  constructor
  · rintro ⟨i, hi, hhit⟩
    obtain ⟨hid, hopened⟩ : i.id = r.itemId ∧ i.state = .opened := by simpa using hhit
    rw [← hid, Table.find?_key hi, Option.map_some, hopened]
  · intro h
    obtain ⟨i, hi, hopened⟩ := Option.map_eq_some_iff.mp h
    have hid : i.id = r.itemId := by simpa using List.find?_some hi
    exact ⟨i, List.mem_of_find?_eq_some hi, by simp [hid, hopened]⟩

theorem stateOf_closeItem : (closeItem r now s).2.stateOf id =
    (s.stateOf id).map fun st => if id = r.itemId ∧ st = .opened then r.state else st := by
  simp only [Desk.stateOf, closeItem, Table.find?_update_where, Option.map_map]
  cases hfound : s.items.find? id with
  | none => rfl
  | some i =>
    have hid : i.id = id := by simpa using List.find?_some hfound
    simp only [Option.map_some, Function.comp_apply, hid, Bool.and_eq_true, decide_eq_true_eq]
    split
    · rfl
    · rfl

theorem stateOf_closed (h : s.stateOf r.itemId = some .opened) :
    (closeItem r now s).2.stateOf id = if id = r.itemId then some r.state else s.stateOf id := by
  rw [stateOf_closeItem]
  split
  · rename_i hid
    simp [hid, h]
  · rename_i hid
    simp [hid]

theorem stateOf_unopened (h : s.stateOf r.itemId ≠ some .opened) :
    (closeItem r now s).2.stateOf id = s.stateOf id := by
  rw [stateOf_closeItem]
  cases hst : s.stateOf id with
  | none => rfl
  | some st =>
    have hnot : ¬ (id = r.itemId ∧ st = .opened) := by
      rintro ⟨rfl, rfl⟩
      exact h hst
    simp [hnot]

@[simp] theorem closeItem_answers : (closeItem r now s).2.answers id = s.answers id := rfl

theorem Request.state_ne (r : Request) : r.state ≠ .opened := by
  unfold Request.state
  split
  · simp
  · simp

theorem answers_take {i : ℕ} {f : Flight} (hf : s.inFlight[i]? = some f) :
    s.answers id = ({ s with inFlight := s.inFlight.eraseIdx i } : Desk).answers id +
      if f.row.isSome && f.request.itemId = id then 1 else 0 := by
  obtain ⟨hi, rfl⟩ := List.getElem?_eq_some_iff.mp hf
  have hperm := (List.getElem_cons_eraseIdx_perm hi).countP_eq fun f =>
    f.row.isSome && f.request.itemId = id
  simp only [Desk.answers, Desk.recorded, Desk.recording, ← hperm, List.countP_cons, Nat.add_assoc]

theorem answers_add (f : Flight) : ({ s with inFlight := s.inFlight ++ [f] } : Desk).answers id =
    s.answers id + if f.row.isSome && f.request.itemId = id then 1 else 0 := by
  simp [Desk.answers, Desk.recorded, Desk.recording, List.countP_append, List.countP_cons,
    Nat.add_assoc]

theorem answers_note (row : FeedbackRow) :
    ({ s with feedback := s.feedback ++ [row] } : Desk).answers id =
      s.answers id + if row.item = id then 1 else 0 := by
  simp [Desk.answers, Desk.recorded, Desk.recording, List.countP_append, List.countP_cons]
  omega

end Statements

section Step
variable {s : Desk} {f : Flight} {i : ℕ}

theorem first_moves (hf : s.inFlight[i]? = some f) (hrow : f.row = none) (now : ℚ) (fate : Fate) :
    ∃ b, Moves s (proceed f now fate { s with inFlight := s.inFlight.eraseIdx i }) b ∧
      (b = true ↔ (s.stateOf f.request.itemId = some .opened → fate.applied = true →
        fate = .returns)) := by
  let t : Desk := { s with inFlight := s.inFlight.eraseIdx i }
  have hcount (id : UUID) : t.answers id = s.answers id := by simp [t, answers_take hf, hrow]
  rw [proceed, hrow]
  by_cases hreturns : fate = .returns
  · refine ⟨true, ?_, iff_of_true rfl fun _ _ => hreturns⟩
    rw [hreturns, Exec.call_returns]
    cases hclosed : (closeItem f.request now t).1 with
    | some reviewId =>
      have hopened : s.stateOf f.request.itemId = some .opened :=
        find_hit (s := t).mp (by rw [hclosed, Option.isSome_some])
      refine .closed f.request.itemId f.request.state true hopened f.request.state_ne
        (fun id => stateOf_closed hopened) fun id => ?_
      rw [answers_add, closeItem_answers, hcount]
      simp [eq_comm]
    | none =>
      have hunopened : s.stateOf f.request.itemId ≠ some .opened := fun hopened => by
        have hsome : (closeItem f.request now t).1.isSome = true := find_hit.mpr hopened
        simp [hclosed] at hsome
      exact .same (fun id => stateOf_unopened hunopened) hcount
  · obtain ⟨e, hcall⟩ := Exec.call_lost hreturns (closeItem f.request now) t
    rw [hcall]
    by_cases hclosed : s.stateOf f.request.itemId = some .opened ∧ fate.applied = true
    · refine ⟨false, ?_, iff_of_false Bool.false_ne_true fun h =>
        hreturns (h hclosed.1 hclosed.2)⟩
      rw [if_pos hclosed.2]
      exact .closed f.request.itemId f.request.state false hclosed.1 f.request.state_ne
        (fun id => stateOf_closed hclosed.1) (by simpa using hcount)
    · refine ⟨true, ?_, iff_of_true rfl fun hopened happlied => absurd ⟨hopened, happlied⟩ hclosed⟩
      by_cases happlied : fate.applied = true
      · have hunopened : s.stateOf f.request.itemId ≠ some .opened := fun hopened =>
          hclosed ⟨hopened, happlied⟩
        rw [if_pos happlied]
        exact .same (fun id => stateOf_unopened hunopened) hcount
      · rw [if_neg happlied]
        exact .same (fun _ => rfl) hcount

theorem drop_moves (hf : s.inFlight[i]? = some f) (hrow : f.row.isSome = true) :
    Moves s { s with inFlight := s.inFlight.eraseIdx i } false := by
  refine .dropped f.request.itemId (fun _ => rfl) fun id => ?_
  rw [answers_take hf, hrow, Bool.true_and]
  simp [eq_comm]

theorem second_moves (hf : s.inFlight[i]? = some f) {reviewId : ℕ} (hrow : f.row = some reviewId)
    (now : ℚ) (fate : Fate) :
    ∃ b, Moves s (proceed f now fate { s with inFlight := s.inFlight.eraseIdx i }) b ∧
      (b = true ↔ f.request.verdict ∈ feedbackVerdicts ∧ fate.applied = true) := by
  have hdrop := drop_moves hf (hrow ▸ rfl)
  rw [proceed, hrow]
  dsimp only
  rw [recordFeedback]
  by_cases hverdict : f.request.verdict ∈ feedbackVerdicts
  · rw [dif_pos ⟨by decide, hverdict⟩]
    rw [Exec.call_state]
    by_cases happlied : fate.applied = true
    · refine ⟨true, ?_, iff_of_true rfl ⟨hverdict, happlied⟩⟩
      rw [if_pos happlied]
      refine .same (fun _ => rfl) fun id => ?_
      rw [answers_note, answers_take hf, hrow, Option.isSome_some, Bool.true_and]
      simp
    · refine ⟨false, ?_, iff_of_false Bool.false_ne_true fun h => happlied h.2⟩
      rw [if_neg happlied]
      exact hdrop
  · rw [dif_neg fun h => hverdict h.2]
    exact ⟨false, hdrop, iff_of_false Bool.false_ne_true fun h => hverdict h.1⟩

theorem moves_of_stateOf {t : Desk} (hitems : t.items = s.items)
    (hcount : ∀ id, t.answers id = s.answers id) : Moves s t true :=
  .same (fun id => by rw [Desk.stateOf, Desk.stateOf, hitems]) hcount

theorem enqueue_moves (s : Desk) (x : UUID) (item : HitlItem) :
    Moves s (step s (.enqueue x item)) true := by
  have hfind (id : UUID) : (step s (.enqueue x item)).stateOf id =
      if id = x then some ((s.stateOf id).getD .opened) else s.stateOf id := by
    simp only [Desk.stateOf, step, Table.find?_insertNew]
    split
    · cases s.items.find? id <;> rfl
    · rfl
  cases hx : s.stateOf x with
  | none =>
    refine .enqueued x hx (fun id => ?_) fun _ => rfl
    rw [hfind]
    split
    · rename_i hid
      rw [hid, hx, Option.getD_none]
    · rfl
  | some st =>
    refine .same (fun id => ?_) fun _ => rfl
    rw [hfind]
    split
    · rename_i hid
      rw [hid, hx, Option.getD_some]
    · rfl

theorem step_moves (s : Desk) (e : Event) :
    ∃ b, Moves s (step s e) b ∧ (b = true ↔ Harmless s e) := by
  cases e with
  | enqueue x item => exact ⟨true, enqueue_moves s x item, iff_of_true rfl trivial⟩
  | submit r =>
    refine ⟨true, moves_of_stateOf rfl fun id => ?_, iff_of_true rfl trivial⟩
    simp [step, answers_add]
  | proceed i now fate =>
    cases hf : s.inFlight[i]? with
    | none =>
      refine ⟨true, ?_, iff_of_true rfl (by simp [Harmless, hf])⟩
      simpa [step, hf] using moves_of_stateOf (s := s) rfl fun _ => rfl
    | some f =>
      simp only [step, Harmless, hf, Option.mem_some_iff, forall_eq']
      obtain ⟨r, row⟩ := f
      cases row with
      | none => exact first_moves hf rfl now fate
      | some reviewId => exact second_moves hf rfl now fate
  | abandon i =>
    cases hf : s.inFlight[i]? with
    | none =>
      refine ⟨true, ?_, iff_of_true rfl (by simp [Harmless, hf])⟩
      have hnone : s.inFlight.eraseIdx i = s.inFlight :=
        List.eraseIdx_of_length_le (List.getElem?_eq_none_iff.mp hf)
      simpa [step, hnone] using moves_of_stateOf (s := s) rfl fun _ => rfl
    | some f =>
      simp only [step, Harmless, hf, Option.mem_some_iff, forall_eq']
      cases hrow : f.row with
      | none =>
        refine ⟨true, moves_of_stateOf rfl fun id => ?_, iff_of_true rfl rfl⟩
        rw [answers_take hf, hrow]
        simp
      | some reviewId =>
        exact ⟨false, drop_moves hf (hrow ▸ rfl), iff_of_false Bool.false_ne_true (by simp)⟩

end Step

/-- What holds of the desk whatever is lost: no decision is recorded twice, or before it is made. -/
structure Sound (s : Desk) : Prop where
  unknown : ∀ id, s.stateOf id = none → s.answers id = 0
  unopened : ∀ id, s.stateOf id = some .opened → s.answers id = 0
  once : ∀ id, s.answers id ≤ 1

def Kept (s : Desk) : Prop := ∀ id st, s.stateOf id = some st → st ≠ .opened → s.answers id = 1

section Runs
variable {s t : Desk} {b : Bool}

theorem Moves.at (h : Moves s t b) (id : UUID) :
    (t.stateOf id = s.stateOf id ∧ t.answers id ≤ s.answers id) ∨
    (s.stateOf id = none ∧ t.stateOf id = some .opened ∧ t.answers id = s.answers id) ∨
    (s.stateOf id = some .opened ∧ (∃ st, t.stateOf id = some st ∧ st ≠ .opened) ∧
      t.answers id ≤ s.answers id + 1) := by
  cases h with
  | same hstate hcount => exact .inl ⟨hstate id, (hcount id).le⟩
  | enqueued x hnew hstate hcount =>
    by_cases hx : id = x
    · exact .inr (.inl ⟨hx ▸ hnew, by rw [hstate, if_pos hx], hcount id⟩)
    · exact .inl ⟨by rw [hstate, if_neg hx], (hcount id).le⟩
  | closed x st owed hopened hst hstate hcount =>
    by_cases hx : id = x
    · refine .inr (.inr ⟨hx ▸ hopened, ⟨st, by rw [hstate, if_pos hx], hst⟩, ?_⟩)
      rw [hcount]
      split
      · exact le_rfl
      · exact Nat.le_succ _
    · exact .inl ⟨by rw [hstate, if_neg hx], by simp [hcount, hx]⟩
  | dropped x hstate hcount => exact .inl ⟨hstate id, hcount id ▸ Nat.le_add_right _ _⟩

theorem Moves.sound (hs : Sound s) (h : Moves s t b) : Sound t := by
  refine ⟨fun id hid => ?_, fun id hid => ?_, fun id => ?_⟩
  · rcases h.at id with ⟨hstate, hle⟩ | ⟨-, hstate, -⟩ | ⟨-, ⟨st, hstate, -⟩, -⟩
    · have := hs.unknown id (hstate ▸ hid)
      omega
    · simp [hstate] at hid
    · simp [hstate] at hid
  · rcases h.at id with ⟨hstate, hle⟩ | ⟨hnone, -, heq⟩ | ⟨-, ⟨st, hstate, hst⟩, -⟩
    · have := hs.unopened id (hstate ▸ hid)
      omega
    · rw [heq, hs.unknown id hnone]
    · exact absurd (Option.some.inj (hstate.symm.trans hid)) hst
  · have honce := hs.once id
    rcases h.at id with ⟨-, hle⟩ | ⟨-, -, heq⟩ | ⟨hopened, -, hle⟩
    · omega
    · omega
    · have := hs.unopened id hopened
      omega

theorem Moves.kept_iff (hs : Sound s) (h : Moves s t b) : Kept t ↔ Kept s ∧ b = true := by
  cases h with
  | same hstate hcount => simp only [Kept, hstate, hcount, and_true]
  | enqueued x hnew hstate hcount =>
    rw [and_iff_left rfl]
    refine forall_congr' fun id => ?_
    rw [hstate, hcount]
    split
    · rename_i hx
      rw [hx, hnew]
      simp
    · exact Iff.rfl
  | closed x st owed hopened hst hstate hcount =>
    constructor
    · intro ht
      have hone := ht x st (by rw [hstate, if_pos rfl]) hst
      rw [hcount, hs.unopened x hopened] at hone
      refine ⟨fun id old hold hne => ?_, by simpa using hone⟩
      have hx : id ≠ x := by
        rintro rfl
        exact hne (Option.some.inj (hold.symm.trans hopened))
      have := ht id old (by rw [hstate, if_neg hx, hold]) hne
      simpa [hcount, hx] using this
    · rintro ⟨hkept, rfl⟩ id old hold hne
      rw [hcount]
      by_cases hx : id = x
      · simp [hx, hs.unopened x hopened]
      · rw [hstate, if_neg hx] at hold
        simpa [hx] using hkept id old hold hne
  | dropped x hstate hcount =>
    refine iff_of_false (fun ht => ?_) fun h => Bool.false_ne_true h.2
    have hx := hcount x
    have honce := hs.once x
    rw [if_pos rfl] at hx
    cases hst : s.stateOf x with
    | none =>
      have := hs.unknown x hst
      omega
    | some st =>
      by_cases hopened : st = .opened
      · have := hs.unopened x (hopened ▸ hst)
        omega
      · have := ht x st (by rw [hstate, hst]) hopened
        omega

theorem step_sound (hs : Sound s) (e : Event) : Sound (step s e) := by
  obtain ⟨b, hmoves, -⟩ := step_moves s e
  exact hmoves.sound hs

theorem step_kept_iff (hs : Sound s) (e : Event) : Kept (step s e) ↔ Kept s ∧ Harmless s e := by
  obtain ⟨b, hmoves, hb⟩ := step_moves s e
  rw [hmoves.kept_iff hs, hb]

theorem run_kept_iff (hs : Sound s) (events : List Event) :
    Kept (Runs.run step s events) ↔ Kept s ∧ Runs.Throughout step Harmless s events := by
  induction events generalizing s with
  | nil => exact (and_iff_left trivial).symm
  | cons e events ih =>
    rw [Runs.run_cons, ih (step_sound hs e), step_kept_iff hs e, and_assoc]
    rfl

theorem settled_iff (hs : Sound s) (hquiet : s.inFlight = []) : Settled s ↔ Kept s := by
  have hanswers (id : UUID) : s.answers id = s.recorded id := by
    simp [Desk.answers, Desk.recording, hquiet]
  constructor
  · intro h id st hst hne
    obtain ⟨i, hi, rfl⟩ := Option.map_eq_some_iff.mp hst
    have hid : i.id = id := by simpa using List.find?_some hi
    rw [hanswers, ← hid, h i (List.mem_of_find?_eq_some hi), if_neg hne]
  · intro h i hi
    have hst : s.stateOf i.id = some i.state := by
      rw [Desk.stateOf, Table.find?_key hi, Option.map_some]
    rw [← hanswers]
    split
    · rename_i hopened
      exact hs.unopened i.id (hopened ▸ hst)
    · rename_i hne
      exact h i.id i.state hst hne

theorem fresh_sound : Sound {} := by
  constructor <;> simp [Desk.answers, Desk.recorded, Desk.recording]

theorem fresh_kept : Kept {} := by simp [Kept, Desk.stateOf, Table.find?, Table.empty]

/-- Decision and feedback go together in every run that loses none of its closing requests, and
in no other that comes to rest. -/
theorem settled_iff_harmless (events : List Event) :
    (Runs.Throughout step Harmless {} events → ∀ before after, events = before ++ after →
      (Runs.run step {} before).inFlight = [] → Settled (Runs.run step {} before)) ∧
    ((Runs.run step {} events).inFlight = [] → Settled (Runs.run step {} events) →
      Runs.Throughout step Harmless {} events) := by
  have hstep (s : Desk) (e : Event) (hs : Sound s) : Sound (step s e) := step_sound hs e
  have hsound (before : List Event) : Sound (Runs.run step {} before) :=
    Runs.run_keeps hstep fresh_sound before
  constructor
  · rintro hharmless before after rfl hquiet
    have hbefore := (Runs.throughout_append.mp hharmless).1
    exact (settled_iff (hsound before) hquiet).mpr
      ((run_kept_iff fresh_sound before).mpr ⟨fresh_kept, hbefore⟩)
  · intro hquiet hsettled
    exact ((run_kept_iff fresh_sound events).mp
      ((settled_iff (hsound events) hquiet).mp hsettled)).2

end Runs

def waiting : HitlItem where
  reviewId := 3
  reason := .lowConfidence
  summary := "two findings"
  priority := 100

def twoDeciders : List Event := [.enqueue 7 waiting, .submit { itemId := 7, verdict := "accepted" },
  .submit { itemId := 7, verdict := "disputed" }, .proceed 0 0 .returns, .proceed 0 0 .returns,
  .proceed 0 0 .returns]

theorem two_deciders_settle : Settled (Runs.run step {} twoDeciders) ∧
    Runs.Throughout step Harmless {} twoDeciders := by
  have hquiet : (Runs.run step {} twoDeciders).inFlight = [] := by decide
  have hharmless : Runs.Throughout step Harmless {} twoDeciders := by
    decide
  have hsettled := (settled_iff_harmless twoDeciders).1 hharmless twoDeciders []
    (List.append_nil _).symm hquiet
  exact ⟨hsettled, (settled_iff_harmless twoDeciders).2 hquiet hsettled⟩

/-- A verdict the feedback table does not take: the item is closed, and nothing says by whom. -/
theorem rejected_unrecorded :
    ¬ ∀ events : List Event, (Runs.run step {} events).inFlight = [] →
      Settled (Runs.run step {} events) := by
  intro h
  have hsettled := h [.enqueue 7 waiting, .submit { itemId := 7, verdict := "rejected" },
    .proceed 0 0 .returns, .proceed 0 0 .returns] (by decide)
  exact absurd hsettled (by unfold Settled; decide)

end PrSentinel.Decisions
