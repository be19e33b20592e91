import PrSentinel.Crash
import PrSentinel.Runs
import PrSentinel.Storage

/-!
Webhook requests on their way from the signature to the queue. Each takes two
claims before it enqueues, one in Redis and one in the deliveries table, and any
number of requests take their steps in any order.
-/

set_option autoImplicit false

namespace PrSentinel
open Relational Crash Crash.Exec

/-- The call a request makes next. -/
inductive Phase where
  | claim | record | enqueue
  deriving DecidableEq, Repr

/-- A request that carries a reviewable, authenticated delivery. -/
structure Flight where
  job : WebhookJob
  phase : Phase
  deriving DecidableEq, Repr

inductive Answer where
  | duplicate | accepted | failed
  deriving DecidableEq, Repr

structure Ingress where
  /-- the deliveries whose Redis key is set -/
  keys : List String := []
  deliveries : Table DeliveryRow.deliveryId := .empty
  /-- the jobs arq has been given; it drops a second one with the same id -/
  queue : Table WebhookJob.deliveryId := .empty
  /-- every execution of `enqueue_review` so far -/
  executed : List WebhookJob := []
  inFlight : List Flight := []
  answers : List (String × Answer) := []

namespace Ingress

def seenDelivery (deliveryId : String) (s : Ingress) : Bool × Ingress :=
  if deliveryId ∈ s.keys then (true, s) else (false, { s with keys := deliveryId :: s.keys })

def recordDelivery (job : WebhookJob) (s : Ingress) : Bool × Ingress :=
  let (fresh, deliveries) := s.deliveries.insertNew (deliveryRow job)
  (fresh, { s with deliveries })

def enqueueReview (job : WebhookJob) (s : Ingress) : Unit × Ingress :=
  ((), { s with queue := (s.queue.insertNew job).2 })

def answer (deliveryId : String) (a : Answer) (s : Ingress) : Ingress :=
  { s with answers := (deliveryId, a) :: s.answers }

/-- A call did not return: the client sees a 500, or a lost connection. -/
def lose (deliveryId : String) (e : Abort) (s : Ingress) : Ingress :=
  match e with
  | .raised => s.answer deliveryId .failed
  | .crashed => s

def resume (job : WebhookJob) (phase : Phase) (s : Ingress) : Ingress :=
  { s with inFlight := ⟨job, phase⟩ :: s.inFlight }

def claim (job : WebhookJob) (fate : Fate) (s : Ingress) : Ingress :=
  match call fate (seenDelivery job.deliveryId) s with
  | (.ok true, t) => t.answer job.deliveryId .duplicate
  | (.ok false, t) => t.resume job .record
  | (.error e, t) => t.lose job.deliveryId e

def record (job : WebhookJob) (fate : Fate) (s : Ingress) : Ingress :=
  match call fate (recordDelivery job) s with
  | (.ok true, t) => t.resume job .enqueue
  | (.ok false, t) => t.answer job.deliveryId .duplicate
  | (.error e, t) => t.lose job.deliveryId e

def enqueue (job : WebhookJob) (fate : Fate) (s : Ingress) : Ingress :=
  match call fate (enqueueReview job) { s with executed := job :: s.executed } with
  | (.ok _, t) => t.answer job.deliveryId .accepted
  | (.error e, t) => t.lose job.deliveryId e

def proceed (f : Flight) (fate : Fate) (s : Ingress) : Ingress :=
  match f.phase with
  | .claim => claim f.job fate s
  | .record => record f.job fate s
  | .enqueue => enqueue f.job fate s

inductive Event where
  | arrive (job : WebhookJob)
  | advance (i : ℕ) (fate : Fate)
  | forget (deliveryId : String)
  | work (i : ℕ)

/-- A request arrives or makes its next call; a Redis key expires or is flushed;
the pipeline records the delivery of a job it was given. -/
def step (s : Ingress) : Event → Ingress
  | .arrive job => s.resume job .claim
  | .advance i fate =>
    match s.inFlight[i]? with
    | some f => proceed f fate { s with inFlight := s.inFlight.eraseIdx i }
    | none => s
  | .forget deliveryId => { s with keys := s.keys.filter (· ≠ deliveryId) }
  | .work i =>
    match s.queue.rows[i]? with
    | some job => (recordDelivery job s).2
    | none => s

theorem step_advance {s : Ingress} {i : ℕ} {f : Flight} (hf : s.inFlight[i]? = some f)
    (fate : Fate) : s.step (.advance i fate) =
      proceed f fate { s with inFlight := s.inFlight.eraseIdx i } := by
  simp only [step, hf]

def idle (keys : List String) (deliveries : Table DeliveryRow.deliveryId)
    (queue : Table WebhookJob.deliveryId) : Ingress :=
  { keys, deliveries, queue }

section Frame
variable (s : Ingress) (deliveryId : String) (e : Abort)

@[simp] theorem lose_keys : (s.lose deliveryId e).keys = s.keys := by cases e <;> rfl

@[simp] theorem lose_deliveries : (s.lose deliveryId e).deliveries = s.deliveries := by
  cases e <;> rfl

@[simp] theorem lose_queue : (s.lose deliveryId e).queue = s.queue := by cases e <;> rfl

@[simp] theorem lose_executed : (s.lose deliveryId e).executed = s.executed := by cases e <;> rfl

@[simp] theorem lose_inFlight : (s.lose deliveryId e).inFlight = s.inFlight := by cases e <;> rfl

theorem lose_duplicate {d : String} :
    (d, .duplicate) ∈ (s.lose deliveryId e).answers ↔ (d, .duplicate) ∈ s.answers := by
  cases e <;> simp [lose, answer]

end Frame

/-- The state after a request's call, case by case: it found a claim taken, took
one, or was lost before or after taking one. -/
inductive Move (f : Flight) (fate : Fate) (s : Ingress) : Ingress → Prop where
  | keySet : f.phase = .claim → f.job.deliveryId ∈ s.keys →
      Move f fate s (s.answer f.job.deliveryId .duplicate)
  | claimed : f.phase = .claim →
      Move f fate s ({ s with keys := f.job.deliveryId :: s.keys }.resume f.job .record)
  | claimLost (e : Abort) : f.phase = .claim → fate ≠ .returns →
      (fate.applied = false ∨ f.job.deliveryId ∈ s.keys) →
      Move f fate s (s.lose f.job.deliveryId e)
  | lostClaimed (e : Abort) : f.phase = .claim → fate ≠ .returns → fate.applied = true →
      f.job.deliveryId ∉ s.keys →
      Move f fate s ({ s with keys := f.job.deliveryId :: s.keys }.lose f.job.deliveryId e)
  | rowThere : f.phase = .record → s.deliveries.hasKey f.job.deliveryId = true →
      Move f fate s (s.answer f.job.deliveryId .duplicate)
  | recorded : f.phase = .record → s.deliveries.hasKey f.job.deliveryId = false →
      Move f fate s ((recordDelivery f.job s).2.resume f.job .enqueue)
  | recordLost (e : Abort) : f.phase = .record → fate ≠ .returns →
      (fate.applied = false ∨ s.deliveries.hasKey f.job.deliveryId = true) →
      Move f fate s (s.lose f.job.deliveryId e)
  | lostRecorded (e : Abort) : f.phase = .record → fate ≠ .returns → fate.applied = true →
      s.deliveries.hasKey f.job.deliveryId = false →
      Move f fate s ((recordDelivery f.job s).2.lose f.job.deliveryId e)
  | enqueued : f.phase = .enqueue →
      Move f fate s ((enqueueReview f.job { s with executed := f.job :: s.executed }).2.answer
        f.job.deliveryId .accepted)
  | enqueueLost (e : Abort) : f.phase = .enqueue → fate ≠ .returns → fate.applied = false →
      Move f fate s ({ s with executed := f.job :: s.executed }.lose f.job.deliveryId e)
  | lostEnqueued (e : Abort) : f.phase = .enqueue → fate ≠ .returns → fate.applied = true →
      Move f fate s ((enqueueReview f.job { s with executed := f.job :: s.executed }).2.lose
        f.job.deliveryId e)

theorem recordDelivery_fst (job : WebhookJob) (s : Ingress) :
    (recordDelivery job s).1 = !s.deliveries.hasKey job.deliveryId := by
  have hkey : (deliveryRow job).deliveryId = job.deliveryId := rfl
  rcases s.deliveries.insertNew_cases (deliveryRow job) with ⟨hnone, hfresh, _⟩ | ⟨hsome, hfresh, _⟩
  · rw [hkey] at hnone
    simp [recordDelivery, hfresh, hnone]
  · rw [hkey] at hsome
    simp [recordDelivery, hfresh, hsome]

theorem hasKey_recordDelivery {job : WebhookJob} {s : Ingress} {deliveryId : String} :
    (recordDelivery job s).2.deliveries.hasKey deliveryId = true ↔
      s.deliveries.hasKey deliveryId = true ∨ deliveryId = job.deliveryId :=
  Table.hasKey_insertNew

theorem recordDelivery_seen {job : WebhookJob} {s : Ingress}
    (h : s.deliveries.hasKey job.deliveryId = true) : (recordDelivery job s).2 = s := by
  rcases s.deliveries.insertNew_cases (deliveryRow job) with ⟨hnone, _, _⟩ | ⟨_, _, hsame⟩
  · cases hnone.symm.trans h
  · simp [recordDelivery, hsame]

theorem proceed_move (f : Flight) (fate : Fate) (s : Ingress) : Move f fate s (proceed f fate s) := by
  unfold proceed
  cases hphase : f.phase with
  | claim =>
    by_cases hfate : fate = .returns
    · rw [claim, hfate, call_returns]
      by_cases hkey : f.job.deliveryId ∈ s.keys
      · simpa [seenDelivery, hkey] using Move.keySet hphase hkey
      · simpa [seenDelivery, hkey] using Move.claimed hphase
    · obtain ⟨e, he⟩ := call_lost hfate (seenDelivery f.job.deliveryId) s
      rw [claim, he]
      by_cases hkey : f.job.deliveryId ∈ s.keys
      · simpa [seenDelivery, hkey] using Move.claimLost e hphase hfate (.inr hkey)
      · cases happlied : fate.applied with
        | true => simpa [seenDelivery, hkey] using Move.lostClaimed e hphase hfate happlied hkey
        | false => exact Move.claimLost e hphase hfate (.inl happlied)
  | record =>
    by_cases hfate : fate = .returns
    · rw [record, hfate, call_returns, recordDelivery_fst]
      cases hkey : s.deliveries.hasKey f.job.deliveryId with
      | true => simpa [recordDelivery_seen hkey] using Move.rowThere hphase hkey
      | false => exact Move.recorded hphase hkey
    · obtain ⟨e, he⟩ := call_lost hfate (recordDelivery f.job) s
      rw [record, he]
      cases hkey : s.deliveries.hasKey f.job.deliveryId with
      | true =>
        simpa [recordDelivery_seen hkey] using Move.recordLost e hphase hfate (.inr hkey)
      | false =>
        cases happlied : fate.applied with
        | true => exact Move.lostRecorded e hphase hfate happlied hkey
        | false => exact Move.recordLost e hphase hfate (.inl happlied)
  | enqueue =>
    by_cases hfate : fate = .returns
    · rw [enqueue, hfate, call_returns]
      exact Move.enqueued hphase
    · obtain ⟨e, he⟩ := call_lost hfate (enqueueReview f.job)
        { s with executed := f.job :: s.executed }
      rw [enqueue, he]
      cases happlied : fate.applied with
      | true => exact Move.lostEnqueued e hphase hfate happlied
      | false => exact Move.enqueueLost e hphase hfate happlied

section Once
variable {deliveryId : String} {s t : Ingress} {f : Flight} {fate : Fate}

/-- The executions of `enqueue_review` for a delivery, with those that are next. -/
def due (s : Ingress) (deliveryId : String) : ℕ :=
  s.executed.countP (fun job => job.deliveryId = deliveryId) +
    s.inFlight.countP (fun f => f.phase = .enqueue && f.job.deliveryId = deliveryId)

structure AtMostOnce (deliveryId : String) (s : Ingress) : Prop where
  once : s.due deliveryId ≤ 1
  recorded : s.deliveries.hasKey deliveryId = false → s.due deliveryId = 0

theorem AtMostOnce.of_le (h : AtMostOnce deliveryId s) (hdue : t.due deliveryId ≤ s.due deliveryId)
    (hrows : s.deliveries.hasKey deliveryId = true → t.deliveries.hasKey deliveryId = true) :
    AtMostOnce deliveryId t where
  once := hdue.trans h.once
  recorded := by
    intro hnone
    have hbefore : s.deliveries.hasKey deliveryId = false := by
      cases hs : s.deliveries.hasKey deliveryId with
      | false => rfl
      | true => rw [hrows hs] at hnone; cases hnone
    have := h.recorded hbefore
    omega

theorem atMostOnce_idle (keys : List String) (deliveries : Table DeliveryRow.deliveryId)
    (queue : Table WebhookJob.deliveryId) : AtMostOnce deliveryId (idle keys deliveries queue) :=
  ⟨by simp [idle, due], fun _ => by simp [idle, due]⟩

theorem due_eraseIdx {i : ℕ} (deliveryId : String) (hf : s.inFlight[i]? = some f) :
    s.due deliveryId = ({ s with inFlight := s.inFlight.eraseIdx i } : Ingress).due deliveryId +
      (if f.phase = .enqueue ∧ f.job.deliveryId = deliveryId then 1 else 0) := by
  obtain ⟨hi, rfl⟩ := List.getElem?_eq_some_iff.mp hf
  have hperm := (List.getElem_cons_eraseIdx_perm hi).countP_eq
    (fun f : Flight => f.phase = .enqueue && f.job.deliveryId = deliveryId)
  simp only [due, ← hperm, List.countP_cons, Bool.and_eq_true, decide_eq_true_eq]
  omega

theorem Move.due (h : Move f fate s t) (deliveryId : String) :
    t.due deliveryId = s.due deliveryId +
      (if f.phase = .enqueue ∧ f.job.deliveryId = deliveryId then 1 else 0) ∨
    (s.deliveries.hasKey deliveryId = false ∧ t.due deliveryId = s.due deliveryId + 1 ∧
      f.phase ≠ .enqueue ∧ t.deliveries.hasKey deliveryId = true) := by
  cases h with
  | recorded hphase hkey =>
    by_cases hid : f.job.deliveryId = deliveryId
    · subst hid
      refine .inr ⟨hkey, ?_, by rw [hphase]; decide, hasKey_recordDelivery.mpr (.inr rfl)⟩
      simp only [Ingress.due, resume, recordDelivery, List.countP_cons]
      simp
      omega
    · exact .inl (by simp [Ingress.due, resume, recordDelivery, hphase, hid])
  | enqueued hphase | enqueueLost e hphase | lostEnqueued e hphase =>
    refine .inl ?_
    simp [Ingress.due, answer, enqueueReview, hphase, List.countP_cons]
    omega
  | keySet hphase | claimed hphase | claimLost e hphase | lostClaimed e hphase | rowThere hphase
  | recordLost e hphase | lostRecorded e hphase =>
    exact .inl (by simp [Ingress.due, answer, resume, recordDelivery, hphase])

theorem Move.hasKey (h : Move f fate s t) (hkey : s.deliveries.hasKey deliveryId = true) :
    t.deliveries.hasKey deliveryId = true := by
  have hrecorded : (recordDelivery f.job s).2.deliveries.hasKey deliveryId = true :=
    hasKey_recordDelivery.mpr (.inl hkey)
  cases h with
  | recorded | lostRecorded => simpa [resume] using hrecorded
  | _ => simpa [answer, resume, enqueueReview] using hkey

theorem step_atMostOnce (h : AtMostOnce deliveryId s) (e : Event) :
    AtMostOnce deliveryId (s.step e) := by
  cases e with
  | arrive job => exact h.of_le (by simp [step, due, resume]) fun hkey => hkey
  | forget other => exact h.of_le (Nat.le_refl _) fun hkey => hkey
  | work i =>
    simp only [step]
    cases s.queue.rows[i]? with
    | none => exact h
    | some job =>
      exact h.of_le (Nat.le_refl _) fun hkey => hasKey_recordDelivery.mpr (.inl hkey)
  | advance i fate =>
    cases hf : s.inFlight[i]? with
    | none => simpa only [step, hf] using h
    | some f =>
      rw [step_advance hf]
      have hdue := due_eraseIdx deliveryId hf
      have hmove := proceed_move f fate { s with inFlight := s.inFlight.eraseIdx i }
      rcases hmove.due deliveryId with hsame | ⟨hnone, hmore, hphase, hrow⟩
      · exact h.of_le (by rw [hsame, hdue]) fun hkey => hmove.hasKey hkey
      · have hzero := h.recorded hnone
        refine ⟨by omega, fun hno => ?_⟩
        rw [hrow] at hno
        cases hno

/-- Whatever the interleaving, the failures and the keys that Redis forgets. -/
theorem enqueued_once (keys : List String) (deliveries : Table DeliveryRow.deliveryId)
    (queue : Table WebhookJob.deliveryId) (events : List Event) (deliveryId : String) :
    (Runs.run step (idle keys deliveries queue) events).executed.countP
      (fun job => job.deliveryId = deliveryId) ≤ 1 := by
  have hrun : AtMostOnce deliveryId (Runs.run step (idle keys deliveries queue) events) :=
    Runs.run_keeps (I := AtMostOnce deliveryId) (fun _ e h => step_atMostOnce h e)
      (atMostOnce_idle keys deliveries queue) events
  exact (Nat.le_add_right _ _).trans hrun.once

end Once

section Lost
variable {d : String} {s t : Ingress} {f : Flight} {fate : Fate}

/-- The delivery has its job, or a request past the INSERT will give it one. -/
def Covered (d : String) (s : Ingress) : Prop :=
  s.queue.hasKey d = true ∨ ∃ f ∈ s.inFlight, f.job.deliveryId = d ∧ f.phase = .enqueue

/-- Or a request that holds the key will, while nobody has inserted the row. -/
def Live (d : String) (s : Ingress) : Prop :=
  Covered d s ∨
    (s.deliveries.hasKey d = false ∧ ∃ f ∈ s.inFlight, f.job.deliveryId = d ∧ f.phase = .record)

def Taken (d : String) (s : Ingress) : Prop :=
  d ∈ s.keys ∨ s.deliveries.hasKey d = true ∨ (d, .duplicate) ∈ s.answers

def Safe (d : String) (s : Ingress) : Prop := Taken d s → Live d s

/-- Losing this call does not lose the delivery; `s` is without the request. -/
def Spared (d : String) (f : Flight) (fate : Fate) (s : Ingress) : Prop :=
  match f.phase with
  | .claim => fate.applied = false ∨ d ∈ s.keys ∨ Live d s
  | .record => if fate.applied then Covered d s else Live d s ∨ ¬ Taken d s
  | .enqueue => fate.applied = true ∨ Live d s

/-- No call that fails loses the delivery. -/
def Harmless (d : String) (s : Ingress) : Event → Prop
  | .advance i fate => fate = .returns ∨ ∀ f, s.inFlight[i]? = some f → f.job.deliveryId = d →
      Spared d f fate { s with inFlight := s.inFlight.eraseIdx i }
  | _ => True

theorem Covered.mono (h : Covered d s) (hqueue : s.queue.hasKey d = true → t.queue.hasKey d = true)
    (hflights : ∀ f ∈ s.inFlight, f ∈ t.inFlight) : Covered d t := by
  rcases h with h | ⟨f, hf, hd⟩
  · exact .inl (hqueue h)
  · exact .inr ⟨f, hflights f hf, hd⟩

theorem Live.mono (h : Live d s) (hqueue : s.queue.hasKey d = true → t.queue.hasKey d = true)
    (hrow : t.deliveries.hasKey d = s.deliveries.hasKey d)
    (hflights : ∀ f ∈ s.inFlight, f ∈ t.inFlight) : Live d t := by
  rcases h with h | ⟨hnone, f, hf, hd⟩
  · exact .inl (h.mono hqueue hflights)
  · exact .inr ⟨by rw [hrow, hnone], f, hflights f hf, hd⟩

theorem live_eraseIdx {i : ℕ} (hf : s.inFlight[i]? = some f) (h : Live d s) :
    Live d { s with inFlight := s.inFlight.eraseIdx i } ∨
      (f.job.deliveryId = d ∧ (f.phase = .enqueue ∨
        f.phase = .record ∧ s.deliveries.hasKey d = false)) := by
  obtain ⟨hi, rfl⟩ := List.getElem?_eq_some_iff.mp hf
  have hmem (g : Flight) (hg : g ∈ s.inFlight) : g = s.inFlight[i] ∨ g ∈ s.inFlight.eraseIdx i :=
    List.mem_cons.mp ((List.getElem_cons_eraseIdx_perm hi).mem_iff.mpr hg)
  rcases h with (hqueue | ⟨g, hg, hd, hphase⟩) | ⟨hnone, g, hg, hd, hphase⟩
  · exact .inl (.inl (.inl hqueue))
  · rcases hmem g hg with rfl | hg
    · exact .inr ⟨hd, .inl hphase⟩
    · exact .inl (.inl (.inr ⟨g, hg, hd, hphase⟩))
  · rcases hmem g hg with rfl | hg
    · exact .inr ⟨hd, .inr ⟨hphase, hnone⟩⟩
    · exact .inl (.inr ⟨hnone, g, hg, hd, hphase⟩)

theorem enqueueReview_hasKey {job : WebhookJob} :
    (enqueueReview job s).2.queue.hasKey d = true ↔ s.queue.hasKey d = true ∨ d = job.deliveryId :=
  Table.hasKey_insertNew

theorem hasKey_recordDelivery_ne {job : WebhookJob} (h : d ≠ job.deliveryId) :
    (recordDelivery job s).2.deliveries.hasKey d = s.deliveries.hasKey d :=
  Bool.eq_iff_iff.mpr (hasKey_recordDelivery.trans (or_iff_left h))

theorem Move.other (h : Move f fate s t) (hid : d ≠ f.job.deliveryId) :
    (Taken d t → Taken d s) ∧ (Live d s → Live d t) := by
  have hrow := hasKey_recordDelivery_ne (s := s) hid
  have hqueue {u : Ingress} : u.queue.hasKey d = true →
      (enqueueReview f.job u).2.queue.hasKey d = true := fun h => enqueueReview_hasKey.mpr (.inl h)
  cases h with
  | keySet | rowThere =>
    exact ⟨by simp [Taken, answer, hid], fun h => h.mono id rfl fun _ hg => hg⟩
  | claimed =>
    exact ⟨by simp [Taken, resume, hid], fun h => h.mono id rfl fun _ hg => List.mem_cons_of_mem _ hg⟩
  | claimLost | recordLost =>
    exact ⟨by simp [Taken, lose_duplicate],
      fun h => h.mono (by simp) (by simp) fun _ hg => by simpa using hg⟩
  | lostClaimed =>
    exact ⟨by simp [Taken, lose_duplicate, hid],
      fun h => h.mono (by simp) (by simp) fun _ hg => by simpa using hg⟩
  | recorded =>
    refine ⟨?_, fun h => h.mono id hrow fun _ hg => List.mem_cons_of_mem _ hg⟩
    simp only [Taken, resume, hrow]
    exact id
  | lostRecorded =>
    refine ⟨?_, fun h => h.mono (by simp [recordDelivery]) (by simpa using hrow)
      fun _ hg => by simpa [recordDelivery] using hg⟩
    simp only [Taken, lose_keys, lose_deliveries, hrow, lose_duplicate]
    exact id
  | enqueued =>
    exact ⟨by simp [Taken, answer, enqueueReview], fun h => h.mono hqueue rfl fun _ hg => hg⟩
  | enqueueLost =>
    exact ⟨by simp [Taken, lose_duplicate],
      fun h => h.mono (by simp) (by simp) fun _ hg => by simpa using hg⟩
  | lostEnqueued =>
    exact ⟨by simp [Taken, lose_duplicate, enqueueReview],
      fun h => h.mono (by simpa using hqueue (u := { s with executed := f.job :: s.executed }))
        (by simp [enqueueReview])
        fun _ hg => by simpa [enqueueReview] using hg⟩

theorem Move.own (h : Move f fate s t) (hid : f.job.deliveryId = d)
    (hsafe : Taken d s → Live d s ∨ f.phase = .enqueue ∨
      f.phase = .record ∧ s.deliveries.hasKey d = false)
    (hspared : fate = .returns ∨ Spared d f fate s) : Safe d t := by
  subst hid
  have hlost (hfate : fate ≠ .returns) : Spared f.job.deliveryId f fate s :=
    hspared.resolve_left hfate
  -- the flights are the same, and so is what is taken, after a call that changed nothing
  have hsame (e : Abort) (h : Live f.job.deliveryId s) :
      Live f.job.deliveryId (s.lose f.job.deliveryId e) :=
    h.mono (by simp) (by simp) fun _ hg => by simpa using hg
  intro htaken
  cases h with
  | keySet hphase hkey =>
    rcases hsafe (.inl hkey) with h | h | ⟨h, _⟩
    · exact h.mono id rfl fun _ hg => hg
    · cases hphase.symm.trans h
    · cases hphase.symm.trans h
  | claimed hphase =>
    cases hrow : s.deliveries.hasKey f.job.deliveryId with
    | false => exact .inr ⟨hrow, ⟨f.job, .record⟩, List.mem_cons_self, rfl, rfl⟩
    | true =>
      rcases hsafe (.inr (.inl hrow)) with h | h | ⟨h, _⟩
      · exact h.mono id rfl fun _ hg => List.mem_cons_of_mem _ hg
      · cases hphase.symm.trans h
      · cases hphase.symm.trans h
  | claimLost e hphase hfate hnone =>
    have hbefore : Taken f.job.deliveryId s := by
      simpa [Taken, lose_duplicate] using htaken
    rcases hsafe hbefore with h | h | ⟨h, _⟩
    · exact hsame e h
    · cases hphase.symm.trans h
    · cases hphase.symm.trans h
  | lostClaimed e hphase hfate happlied hkey =>
    have hs := hlost hfate
    simp only [Spared, hphase, happlied, hkey, false_or, Bool.true_eq_false] at hs
    exact hs.mono (by simp) (by simp) fun _ hg => by simpa using hg
  | rowThere hphase hrow =>
    rcases hsafe (.inr (.inl hrow)) with h | h | ⟨_, h⟩
    · exact h.mono id rfl fun _ hg => hg
    · cases hphase.symm.trans h
    · cases hrow.symm.trans h
  | recorded hphase hrow =>
    exact .inl (.inr ⟨⟨f.job, .enqueue⟩, List.mem_cons_self, rfl, rfl⟩)
  | recordLost e hphase hfate hnone =>
    have hs := hlost hfate
    have hbefore : Taken f.job.deliveryId s := by
      simpa [Taken, lose_duplicate] using htaken
    simp only [Spared, hphase] at hs
    split_ifs at hs with happlied
    · exact hsame e (.inl hs)
    · exact hsame e (hs.resolve_right fun h => h hbefore)
  | lostRecorded e hphase hfate happlied hrow =>
    have hs := hlost hfate
    simp only [Spared, hphase, happlied, if_true] at hs
    exact .inl (hs.mono (by simp [recordDelivery]) fun _ hg => by simpa [recordDelivery] using hg)
  | enqueued hphase => exact .inl (.inl (enqueueReview_hasKey.mpr (.inr rfl)))
  | enqueueLost e hphase hfate happlied =>
    have hs := hlost hfate
    simp only [Spared, hphase, happlied, false_or, Bool.false_eq_true] at hs
    exact hs.mono (by simp) (by simp) fun _ hg => by simpa using hg
  | lostEnqueued e hphase hfate happlied =>
    refine .inl (.inl ?_)
    rw [lose_queue]
    exact enqueueReview_hasKey.mpr (.inr rfl)

theorem step_safe (h : Safe d s) (e : Event) (hharmless : Harmless d s e) : Safe d (s.step e) := by
  cases e with
  | arrive job =>
    exact fun htaken => (h htaken).mono id rfl fun _ hg => List.mem_cons_of_mem _ hg
  | forget other =>
    refine fun htaken => (h ?_).mono id rfl fun _ hg => hg
    rcases htaken with hkey | htaken
    · exact .inl (List.mem_filter.mp hkey).1
    · exact .inr htaken
  | work i =>
    simp only [step]
    cases hjob : s.queue.rows[i]? with
    | none => exact h
    | some job =>
      by_cases hid : d = job.deliveryId
      · exact fun _ => .inl (.inl (Table.hasKey_iff.mpr ⟨job, List.mem_of_getElem? hjob, hid.symm⟩))
      · have hrow := hasKey_recordDelivery_ne (s := s) hid
        intro htaken
        refine (h ?_).mono id hrow fun _ hg => hg
        simp only [Taken, hrow] at htaken
        exact htaken
  | advance i fate =>
    cases hf : s.inFlight[i]? with
    | none => simpa only [step, hf] using h
    | some f =>
      rw [step_advance hf]
      have hmove := proceed_move f fate { s with inFlight := s.inFlight.eraseIdx i }
      by_cases hid : f.job.deliveryId = d
      · refine hmove.own hid (fun htaken => ?_) (hharmless.imp_right fun hs => hs f hf hid)
        exact (live_eraseIdx hf (h htaken)).imp_right And.right
      · obtain ⟨htaken, hlive⟩ := hmove.other (Ne.symm hid)
        intro hafter
        refine hlive ((live_eraseIdx hf (h (htaken hafter))).resolve_right ?_)
        exact fun hown => hid hown.1

/-- A duplicate is answered for good once nothing is left in flight: while no call
that fails loses the delivery, it has its job. -/
theorem duplicate_has_job (d : String) (events : List Event)
    (hharmless : Runs.Throughout step (Harmless d) {} events) (before after : List Event)
    (hsplit : events = before ++ after)
    (hanswer : (d, .duplicate) ∈ (Runs.run step {} before).answers)
    (hdone : ∀ f ∈ (Runs.run step {} before).inFlight, f.job.deliveryId ≠ d) :
    (Runs.run step {} before).queue.hasKey d = true := by
  subst hsplit
  have hsafe : Safe d (Runs.run step {} before) :=
    (Runs.throughout_append.mp hharmless).1.run_keeps (I := Safe d) (fun _ e hok h => step_safe h e hok)
      (by simp [Safe, Taken, Table.hasKey, Table.empty])
  rcases hsafe (.inr (.inr hanswer)) with (hqueue | ⟨f, hf, hid, _⟩) | ⟨_, f, hf, hid, _⟩
  · exact hqueue
  · exact absurd hid (hdone f hf)
  · exact absurd hid (hdone f hf)

end Lost

def someJob : WebhookJob where
  deliveryId := "d-1"
  event := "pull_request"
  action := "opened"
  repoFullName := "acme/app"
  repoGithubId := 1
  prNumber := 7
  headSha := "c1"
  baseSha := "b1"

/-- The request claims the key and its INSERT fails; the redelivery is a duplicate. -/
theorem duplicate_without_job :
    let s := Runs.run step {} [.arrive someJob, .advance 0 .returns, .advance 0 (.raises false),
      .arrive someJob, .advance 0 .returns]
    ("d-1", Answer.duplicate) ∈ s.answers ∧ s.inFlight = [] ∧ s.queue.rows = [] := by
  decide +kernel

/-- The claim fails without the key; the redelivery enqueues; the next is a duplicate. -/
theorem duplicate_has_job_redelivered :
    (Runs.run step {} [.arrive someJob, .advance 0 (.raises false), .arrive someJob,
      .advance 0 .returns, .advance 0 .returns, .advance 0 .returns, .arrive someJob,
      .advance 0 .returns]).queue.hasKey "d-1" = true := by
  refine duplicate_has_job "d-1" _ ?_ _ [] (List.append_nil _).symm (by decide +kernel)
    (by decide +kernel)
  refine ⟨trivial, .inr fun f hf _ => ?_, trivial, .inl rfl, .inl rfl, .inl rfl, trivial, .inl rfl,
    trivial⟩
  obtain rfl : ⟨someJob, .claim⟩ = f := Option.some.inj hf
  exact .inl rfl

end Ingress

end PrSentinel
