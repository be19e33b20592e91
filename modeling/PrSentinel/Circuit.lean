import Mathlib.Data.Rat.Defs
import Mathlib.Algebra.Order.Ring.Unbundled.Rat
import Mathlib.Tactic.Linarith
import PrSentinel.Retry
import PrSentinel.Runs

/-!
A circuit breaker, per external dependency: the breaker itself, and what any number
of concurrent calls make of it.
-/

set_option autoImplicit false

namespace PrSentinel.Circuit

inductive State where
  | closed
  | opened
  | halfOpen
  deriving DecidableEq, Repr

structure Thresholds where
  failureThreshold : ℕ := 5
  recoveryTime : ℚ := 30
  successThreshold : ℕ := 2
  deriving DecidableEq, Repr

structure CircuitBreaker where
  state : State := .closed
  failures : ℕ := 0
  successes : ℕ := 0
  openedAt : ℚ := 0
  deriving DecidableEq, Repr

namespace Thresholds
variable (t : Thresholds)

def look (b : CircuitBreaker) (now : ℚ) : CircuitBreaker :=
  if b.state = .opened ∧ t.recoveryTime ≤ now - b.openedAt then
    { b with state := .halfOpen, successes := 0 }
  else b

def onSuccess (b : CircuitBreaker) : CircuitBreaker :=
  if b.state = .halfOpen then
    if t.successThreshold ≤ b.successes + 1 then
      { b with state := .closed, failures := 0, successes := b.successes + 1 }
    else { b with successes := b.successes + 1 }
  else { b with failures := 0 }

def onFailure (b : CircuitBreaker) (now : ℚ) : CircuitBreaker :=
  if b.state = .halfOpen ∨ t.failureThreshold ≤ b.failures + 1 then
    { b with state := .opened, failures := b.failures + 1, openedAt := now }
  else { b with failures := b.failures + 1 }

universe u v

/-- `call` with nothing else going on: the clock is read on the way in, and again if
the call fails. A cancelled call is not an `Exception`. -/
def call {ε : Type u} {α : Type v} (circuitOpen : ε) (b : CircuitBreaker) (now : ℚ)
    (fn : Outcome ε α) (later : ℚ) : Outcome ε α × CircuitBreaker :=
  let b := t.look b now
  if b.state = .opened then (.raised circuitOpen, b)
  else
    match fn with
    | .returned a => (.returned a, t.onSuccess b)
    | .raised e => (.raised e, t.onFailure b later)
    | .cancelled => (.cancelled, b)

end Thresholds

/-- A step of the program: a reading of `state`, the entry of a call, or the end of
the i-th of the calls in flight. -/
inductive Event where
  | read (now : ℚ)
  | call (now : ℚ)
  | succeed (i : ℕ)
  | fail (i : ℕ) (now : ℚ)
  | cancel (i : ℕ)
  deriving DecidableEq, Repr

inductive Happening where
  | read (now : ℚ)
  | admitted (now : ℚ)
  | turnedAway (now : ℚ)
  | succeeded (call : ℕ)
  | failed (call : ℕ) (now : ℚ)
  | cancelled (call : ℕ)
  deriving DecidableEq, Repr

structure Moment where
  what : Happening
  before : State
  after : State
  deriving DecidableEq, Repr

/-- The breaker, the calls past its gate, and all that happened, latest first. -/
structure Watched where
  breaker : CircuitBreaker := {}
  inFlight : List ℕ := []
  past : List Moment := []
  deriving DecidableEq, Repr

def Watched.note (w : Watched) (what : Happening) (b : CircuitBreaker) (inFlight : List ℕ) :
    Watched :=
  ⟨b, inFlight, ⟨what, w.breaker.state, b.state⟩ :: w.past⟩

def step (t : Thresholds) (w : Watched) : Event → Watched
  | .read now => w.note (.read now) (t.look w.breaker now) w.inFlight
  | .call now =>
    if (t.look w.breaker now).state = .opened then
      w.note (.turnedAway now) (t.look w.breaker now) w.inFlight
    else w.note (.admitted now) (t.look w.breaker now) (w.inFlight ++ [w.past.length])
  | .succeed i =>
    match w.inFlight[i]? with
    | some call => w.note (.succeeded call) (t.onSuccess w.breaker) (w.inFlight.eraseIdx i)
    | none => w
  | .fail i now =>
    match w.inFlight[i]? with
    | some call => w.note (.failed call now) (t.onFailure w.breaker now) (w.inFlight.eraseIdx i)
    | none => w
  | .cancel i =>
    match w.inFlight[i]? with
    | some call => w.note (.cancelled call) w.breaker (w.inFlight.eraseIdx i)
    | none => w

def ending {ε α : Type} : Outcome ε α → ℚ → Event
  | .returned _, _ => .succeed 0
  | .raised _, later => .fail 0 later
  | .cancelled, _ => .cancel 0

theorem call_eq_run {ε α : Type} (t : Thresholds) (circuitOpen : ε) (b : CircuitBreaker)
    (now later : ℚ) (fn : Outcome ε α) : (t.call circuitOpen b now fn later).2 =
      (Runs.run (step t) { breaker := b } [.call now, ending fn later]).breaker := by
  by_cases hopen : (t.look b now).state = .opened
  · cases fn <;> simp [Thresholds.call, hopen, Runs.run, step, ending, Watched.note]
  · cases fn <;> simp [Thresholds.call, hopen, Runs.run, step, ending, Watched.note]

namespace Moment

def succeeds (m : Moment) : Bool :=
  match m.what with
  | .succeeded _ => true
  | _ => false

def fails (m : Moment) : Bool :=
  match m.what with
  | .failed _ _ => true
  | _ => false

/-- What the counter of failures is reset by: a success outside a half-open period, or a close. -/
def resets (m : Moment) : Bool :=
  (m.succeeds = true ∧ m.before ≠ .halfOpen) ∨ (m.before ≠ .closed ∧ m.after = .closed)

def enters (m : Moment) : Bool := m.before ≠ .halfOpen ∧ m.after = .halfOpen

def isProbe (since : ℕ) (m : Moment) : Bool :=
  match m.what with
  | .succeeded call => since ≤ call
  | _ => false

end Moment

def failuresSinceReset : List Moment → ℕ
  | [] => 0
  | m :: past =>
    if m.resets then 0
    else if m.fails then failuresSinceReset past + 1 else failuresSinceReset past

/-- When the latest failure was that set the breaker open: one in a half-open period,
or one that brought the failures since the last reset to the threshold. -/
def lastOpening (t : Thresholds) : List Moment → Option ℚ
  | [] => none
  | m :: past =>
    match m.what with
    | .failed _ now =>
      if m.before = .halfOpen ∨ t.failureThreshold ≤ failuresSinceReset past + 1 then some now
      else lastOpening t past
    | _ => lastOpening t past

def enteredAt : List Moment → ℕ
  | [] => 0
  | m :: past => if m.enters then past.length else enteredAt past

def period : List Moment → List Moment
  | [] => []
  | m :: past => if m.enters then [] else m :: period past

/-- The latest period has seen as many probes succeed as it takes, and none of its calls fail. -/
def OnEvidence (t : Thresholds) (past : List Moment) : Prop :=
  t.successThreshold ≤ (period past).countP (Moment.isProbe (enteredAt past)) ∧
    ∀ m ∈ period past, m.fails = false

instance (t : Thresholds) (past : List Moment) : Decidable (OnEvidence t past) :=
  inferInstanceAs (Decidable (_ ∧ _))

section Steps
variable {t : Thresholds} {w : Watched} {b : CircuitBreaker} {past : List Moment}

inductive Becomes (t : Thresholds) (b : CircuitBreaker) : Happening → CircuitBreaker → Prop where
  | read (now : ℚ) : Becomes t b (.read now) (t.look b now)
  | admitted (now : ℚ) (h : (t.look b now).state ≠ .opened) :
      Becomes t b (.admitted now) (t.look b now)
  | turnedAway (now : ℚ) (h : (t.look b now).state = .opened) :
      Becomes t b (.turnedAway now) (t.look b now)
  | succeeded (call : ℕ) : Becomes t b (.succeeded call) (t.onSuccess b)
  | failed (call : ℕ) (now : ℚ) : Becomes t b (.failed call now) (t.onFailure b now)
  | cancelled (call : ℕ) : Becomes t b (.cancelled call) b

theorem step_cases (t : Thresholds) (w : Watched) (e : Event) :
    step t w e = w ∨ ∃ what b inFlight, Becomes t w.breaker what b ∧
      step t w e = w.note what b inFlight := by
  cases e with
  | read now => exact .inr ⟨_, _, _, .read now, rfl⟩
  | call now =>
    simp only [step]
    split
    · exact .inr ⟨_, _, _, .turnedAway now ‹_›, rfl⟩
    · exact .inr ⟨_, _, _, .admitted now ‹_›, rfl⟩
  | succeed i =>
    simp only [step]
    split
    · exact .inr ⟨_, _, _, .succeeded _, rfl⟩
    · exact .inl rfl
  | fail i now =>
    simp only [step]
    split
    · exact .inr ⟨_, _, _, .failed _ now, rfl⟩
    · exact .inl rfl
  | cancel i =>
    simp only [step]
    split
    · exact .inr ⟨_, _, _, .cancelled _, rfl⟩
    · exact .inl rfl

theorem look_cases (t : Thresholds) (b : CircuitBreaker) (now : ℚ) : t.look b now = b ∨
    (b.state = .opened ∧ t.recoveryTime ≤ now - b.openedAt ∧
      t.look b now = { b with state := .halfOpen, successes := 0 }) := by
  unfold Thresholds.look
  split
  · exact .inr ⟨(‹_ ∧ _› : _ ∧ _).1, (‹_ ∧ _› : _ ∧ _).2, rfl⟩
  · exact .inl rfl

structure Kept (t : Thresholds) (b : CircuitBreaker) (past : List Moment) : Prop where
  failures_eq : b.failures = failuresSinceReset past
  closed : b.state = .closed → b.failures < t.failureThreshold
  halfOpen : b.state = .halfOpen → b.successes < t.successThreshold
  openedAt : b.state = .opened → lastOpening t past = some b.openedAt

theorem Kept.look (hs : 1 ≤ t.successThreshold) (h : Kept t b past) {what : Happening} (now : ℚ)
    (hwhat : what = .read now ∨ what = .admitted now ∨ what = .turnedAway now) :
    Kept t (t.look b now) (⟨what, b.state, (t.look b now).state⟩ :: past) := by
  have hresets : (Moment.mk what b.state (t.look b now).state).resets = false := by
    rcases look_cases t b now with heq | ⟨hopen, -, heq⟩ <;>
      rcases hwhat with rfl | rfl | rfl <;> simp_all [Moment.resets, Moment.succeeds]
  have hcount : failuresSinceReset (⟨what, b.state, (t.look b now).state⟩ :: past) =
      failuresSinceReset past := by
    rcases hwhat with rfl | rfl | rfl <;> simp [failuresSinceReset, hresets, Moment.fails]
  have hopening : lastOpening t (⟨what, b.state, (t.look b now).state⟩ :: past) =
      lastOpening t past := by
    rcases hwhat with rfl | rfl | rfl <;> rfl
  rcases look_cases t b now with heq | ⟨hopen, -, heq⟩
  · exact ⟨by rw [hcount, heq, h.failures_eq], by rw [heq]; exact h.closed,
      by rw [heq]; exact h.halfOpen, by rw [hopening, heq]; exact h.openedAt⟩
  · exact ⟨by rw [hcount, heq]; exact h.failures_eq, by simp [heq], by simp [heq]; omega,
      by simp [heq]⟩

theorem Kept.onSuccess (hf : 1 ≤ t.failureThreshold) (h : Kept t b past) (call : ℕ) :
    Kept t (t.onSuccess b) (⟨.succeeded call, b.state, (t.onSuccess b).state⟩ :: past) := by
  cases hstate : b.state with
  | halfOpen =>
    by_cases hlast : t.successThreshold ≤ b.successes + 1
    · have heq : t.onSuccess b =
          { b with state := .closed, failures := 0, successes := b.successes + 1 } := by
        simp [Thresholds.onSuccess, hstate, hlast]
      rw [heq]
      exact ⟨by simp [failuresSinceReset, Moment.resets], fun _ => hf, by simp, by simp⟩
    · have heq : t.onSuccess b = { b with successes := b.successes + 1 } := by
        simp [Thresholds.onSuccess, hstate, hlast]
      rw [heq]
      refine ⟨?_, by simp [hstate], fun _ => Nat.lt_of_not_le hlast, by simp [hstate]⟩
      simp [failuresSinceReset, Moment.resets, Moment.fails, hstate, h.failures_eq]
  | closed =>
    have heq : t.onSuccess b = { b with failures := 0 } := by
      simp [Thresholds.onSuccess, hstate]
    rw [heq]
    exact ⟨by simp [failuresSinceReset, Moment.resets, Moment.succeeds], fun _ => hf,
      by simp [hstate], by simp [hstate]⟩
  | opened =>
    have heq : t.onSuccess b = { b with failures := 0 } := by
      simp [Thresholds.onSuccess, hstate]
    rw [heq]
    exact ⟨by simp [failuresSinceReset, Moment.resets, Moment.succeeds], by simp [hstate],
      by simp [hstate], fun _ => h.openedAt hstate⟩

theorem Kept.onFailure (h : Kept t b past) (call : ℕ) (now : ℚ) :
    Kept t (t.onFailure b now)
      (⟨.failed call now, b.state, (t.onFailure b now).state⟩ :: past) := by
  by_cases hopens : b.state = .halfOpen ∨ t.failureThreshold ≤ b.failures + 1
  · have heq : t.onFailure b now =
        { b with state := .opened, failures := b.failures + 1, openedAt := now } := by
      simp [Thresholds.onFailure, hopens]
    rw [heq]
    refine ⟨?_, by simp, by simp, fun _ => ?_⟩
    · simp [failuresSinceReset, Moment.resets, Moment.succeeds, Moment.fails, h.failures_eq]
    · simp [lastOpening, ← h.failures_eq, hopens]
  · have heq : t.onFailure b now = { b with failures := b.failures + 1 } := by
      simp [Thresholds.onFailure, hopens]
    rw [not_or] at hopens
    rw [heq]
    refine ⟨?_, fun _ => Nat.lt_of_not_le hopens.2, fun hhalf => absurd hhalf hopens.1,
      fun hopen => ?_⟩
    · simp [failuresSinceReset, Moment.resets, Moment.succeeds, Moment.fails, h.failures_eq]
    · simpa [lastOpening, ← h.failures_eq, hopens.1, hopens.2] using h.openedAt hopen

theorem Kept.step (hf : 1 ≤ t.failureThreshold) (hs : 1 ≤ t.successThreshold) (e : Event)
    (h : Kept t w.breaker w.past) : Kept t (step t w e).breaker (step t w e).past := by
  rcases step_cases t w e with heq | ⟨what, b, inFlight, hbecomes, heq⟩
  · rwa [heq]
  rw [heq]
  cases hbecomes with
  | read now => exact h.look hs now (.inl rfl)
  | admitted now _ => exact h.look hs now (.inr (.inl rfl))
  | turnedAway now _ => exact h.look hs now (.inr (.inr rfl))
  | succeeded call => exact h.onSuccess hf call
  | failed call now => exact h.onFailure call now
  | cancelled call =>
    refine ⟨?_, h.closed, h.halfOpen, h.openedAt⟩
    simp [Watched.note, failuresSinceReset, Moment.resets, Moment.succeeds, Moment.fails,
      h.failures_eq]

theorem kept_run (hf : 1 ≤ t.failureThreshold) (hs : 1 ≤ t.successThreshold)
    (events : List Event) :
    Kept t (Runs.run (Circuit.step t) {} events).breaker
      (Runs.run (Circuit.step t) {} events).past := by
  have hstart : Kept t ({} : Watched).breaker ({} : Watched).past :=
    ⟨rfl, fun _ => hf, by simp, by simp⟩
  exact Runs.run_keeps (I := fun w : Watched => Kept t w.breaker w.past)
    (fun _ e => Kept.step hf hs e) hstart events

structure TripsInTime (t : Thresholds) (w : Watched) : Prop where
  closed : w.breaker.state = .closed → w.breaker.failures < t.failureThreshold
  halfOpen : w.breaker.state = .halfOpen → w.breaker.successes < t.successThreshold
  leaves : w.breaker.state = .closed → ∀ e, (Circuit.step t w e).breaker.state ≠ .closed ↔
    ∃ i now, e = .fail i now ∧ i < w.inFlight.length ∧
      failuresSinceReset w.past + 1 = t.failureThreshold
  reopens : w.breaker.state = .halfOpen → ∀ i now, i < w.inFlight.length →
    (Circuit.step t w (.fail i now)).breaker.state = .opened
  waits : w.breaker.state = .opened → ∀ e,
    (Circuit.step t w e).breaker.state ≠ .opened ∨
      w.inFlight.length < (Circuit.step t w e).inFlight.length →
    ∃ now since, (e = .read now ∨ e = .call now) ∧ lastOpening t w.past = some since ∧
      t.recoveryTime ≤ now - since

theorem look_of_ne (h : b.state ≠ .opened) (now : ℚ) : t.look b now = b := by
  simp [Thresholds.look, h]

theorem look_leaves {now : ℚ} (h : (t.look b now).state ≠ .opened) (hopen : b.state = .opened) :
    t.recoveryTime ≤ now - b.openedAt := by
  rcases look_cases t b now with heq | ⟨-, hpassed, -⟩
  · rw [heq] at h
    exact absurd hopen h
  · exact hpassed

theorem step_fail {i : ℕ} (hi : i < w.inFlight.length) (now : ℚ) :
    (Circuit.step t w (.fail i now)).breaker = t.onFailure w.breaker now := by
  simp [Circuit.step, List.getElem?_eq_getElem hi, Watched.note]

theorem Kept.leaves_closed (h : Kept t w.breaker w.past) (hclosed : w.breaker.state = .closed)
    (e : Event) : (Circuit.step t w e).breaker.state ≠ .closed ↔
      ∃ i now, e = .fail i now ∧ i < w.inFlight.length ∧
        failuresSinceReset w.past + 1 = t.failureThreshold := by
  have hfew := h.closed hclosed
  rw [h.failures_eq] at hfew
  constructor
  · intro hleaves
    cases e with
    | read now => simp [Circuit.step, Watched.note, look_of_ne, hclosed] at hleaves
    | call now => simp [Circuit.step, Watched.note, look_of_ne, hclosed] at hleaves
    | succeed i =>
      simp only [Circuit.step] at hleaves
      split at hleaves
      · simp [Watched.note, Thresholds.onSuccess, hclosed] at hleaves
      · exact absurd hclosed hleaves
    | fail i now =>
      by_cases hi : i < w.inFlight.length
      · refine ⟨i, now, rfl, hi, ?_⟩
        rw [step_fail hi] at hleaves
        by_contra hne
        have hnot : ¬ t.failureThreshold ≤ w.breaker.failures + 1 := by
          rw [h.failures_eq]
          omega
        simp [Thresholds.onFailure, hclosed, hnot] at hleaves
      · simp only [Circuit.step, List.getElem?_eq_none (Nat.le_of_not_lt hi)] at hleaves
        exact absurd hclosed hleaves
    | cancel i =>
      simp only [Circuit.step] at hleaves
      split at hleaves <;> exact absurd hclosed hleaves
  · rintro ⟨i, now, rfl, hi, hcount⟩
    rw [step_fail hi]
    simp [Thresholds.onFailure, h.failures_eq, hcount]

theorem Kept.waits (h : Kept t w.breaker w.past) (hopen : w.breaker.state = .opened) (e : Event)
    (hgone : (Circuit.step t w e).breaker.state ≠ .opened ∨
      w.inFlight.length < (Circuit.step t w e).inFlight.length) :
    ∃ now since, (e = .read now ∨ e = .call now) ∧ lastOpening t w.past = some since ∧
      t.recoveryTime ≤ now - since := by
  cases e with
  | read now =>
    have hleaves : (t.look w.breaker now).state ≠ .opened := by
      simpa [Circuit.step, Watched.note] using hgone
    exact ⟨now, _, .inl rfl, h.openedAt hopen, look_leaves hleaves hopen⟩
  | call now =>
    have hleaves : (t.look w.breaker now).state ≠ .opened := by
      intro heq
      simp [Circuit.step, Watched.note, heq] at hgone
    exact ⟨now, _, .inr rfl, h.openedAt hopen, look_leaves hleaves hopen⟩
  | succeed i =>
    simp only [Circuit.step] at hgone
    split at hgone
    · have hlength := List.length_eraseIdx_le w.inFlight i
      simp only [Watched.note, Thresholds.onSuccess, hopen] at hgone
      simp at hgone
      omega
    · exact absurd hgone (by simp [hopen])
  | fail i now =>
    simp only [Circuit.step] at hgone
    split at hgone
    · have hlength := List.length_eraseIdx_le w.inFlight i
      have hstays : (t.onFailure w.breaker now).state = .opened := by
        simp only [Thresholds.onFailure]
        split <;> simp [hopen]
      exact absurd hgone (by simp [Watched.note, hstays]; omega)
    · exact absurd hgone (by simp [hopen])
  | cancel i =>
    simp only [Circuit.step] at hgone
    split at hgone
    · have hlength := List.length_eraseIdx_le w.inFlight i
      exact absurd hgone (by simp [Watched.note, hopen]; omega)
    · exact absurd hgone (by simp [hopen])

/-- In every state that any interleaving of calls reaches. -/
theorem trips_in_time (t : Thresholds) (hf : 1 ≤ t.failureThreshold) (hs : 1 ≤ t.successThreshold)
    (events : List Event) : TripsInTime t (Runs.run (Circuit.step t) {} events) := by
  have hkept := kept_run hf hs events
  refine ⟨hkept.closed, hkept.halfOpen, hkept.leaves_closed, ?_, hkept.waits⟩
  intro hhalf i now hi
  rw [step_fail hi]
  simp [Thresholds.onFailure, hhalf]

theorem trips_in_time_outage :
    TripsInTime {} (Runs.run (Circuit.step {}) {}
      (List.replicate 5 (.call 0) ++ List.replicate 5 (.fail 0 1))) ∧
    (Runs.run (Circuit.step {}) {}
      (List.replicate 5 (.call 0) ++ List.replicate 5 (.fail 0 1))).breaker.state = .opened :=
  ⟨trips_in_time {} (by decide) (by decide) _, by decide +kernel⟩

theorem enteredAt_cons {m : Moment} (h : m.enters = false) (past : List Moment) :
    enteredAt (m :: past) = enteredAt past := by
  simp [enteredAt, h]

theorem period_cons {m : Moment} (h : m.enters = false) (past : List Moment) :
    period (m :: past) = m :: period past := by
  simp [period, h]

theorem enters_of_halfOpen {m : Moment} (h : m.before = .halfOpen) : m.enters = false := by
  simp [Moment.enters, h]

structure Counted (b : CircuitBreaker) (past : List Moment) : Prop where
  successes_eq : (period past).countP Moment.succeeds = b.successes
  quiet : ∀ m ∈ period past, m.fails = false

theorem Becomes.halfOpen {what : Happening} {b' : CircuitBreaker}
    (h : Becomes t b what b') (hhalf : b.state = .halfOpen) :
    (b' = b ∧ ∀ after, (Moment.mk what b.state after).succeeds = false ∧
      (Moment.mk what b.state after).fails = false) ∨
    (∃ call, what = .succeeded call ∧ b' = t.onSuccess b) ∨ b'.state = .opened := by
  have hlook (now : ℚ) : t.look b now = b := look_of_ne (by simp [hhalf]) now
  cases h with
  | read now => exact .inl ⟨hlook now, fun _ => ⟨rfl, rfl⟩⟩
  | admitted now _ => exact .inl ⟨hlook now, fun _ => ⟨rfl, rfl⟩⟩
  | turnedAway now _ => exact .inl ⟨hlook now, fun _ => ⟨rfl, rfl⟩⟩
  | succeeded call => exact .inr (.inl ⟨call, rfl, rfl⟩)
  | failed call now => exact .inr (.inr (by simp [Thresholds.onFailure, hhalf]))
  | cancelled call => exact .inl ⟨rfl, fun _ => ⟨rfl, rfl⟩⟩

theorem Becomes.enters {what : Happening} {b' : CircuitBreaker}
    (h : Becomes t b what b') (hnot : b.state ≠ .halfOpen) (hhalf : b'.state = .halfOpen) :
    b'.successes = 0 := by
  have hlook (now : ℚ) (hnow : (t.look b now).state = .halfOpen) :
      (t.look b now).successes = 0 := by
    rcases look_cases t b now with heq | ⟨-, -, heq⟩
    · rw [heq] at hnow
      exact absurd hnow hnot
    · rw [heq]
  cases h with
  | read now => exact hlook now hhalf
  | admitted now _ => exact hlook now hhalf
  | turnedAway now _ => exact hlook now hhalf
  | succeeded call => simp [Thresholds.onSuccess, hnot] at hhalf
  | failed call now =>
    simp only [Thresholds.onFailure] at hhalf
    split at hhalf
    · cases hhalf
    · exact absurd hhalf hnot
  | cancelled call => exact absurd hhalf hnot

theorem onSuccess_successes (hhalf : b.state = .halfOpen) :
    (t.onSuccess b).successes = b.successes + 1 := by
  simp only [Thresholds.onSuccess, hhalf, if_true]
  split <;> rfl

theorem period_begins {e : Event} (hnot : w.breaker.state ≠ .halfOpen)
    (hhalf : (Circuit.step t w e).breaker.state = .halfOpen) :
    period (Circuit.step t w e).past = [] ∧ (Circuit.step t w e).breaker.successes = 0 := by
  rcases step_cases t w e with heq | ⟨what, b, inFlight, hbecomes, heq⟩
  · rw [heq] at hhalf
    exact absurd hhalf hnot
  · rw [heq] at hhalf ⊢
    have henters : (Moment.mk what w.breaker.state b.state).enters = true := by
      simpa [Moment.enters, Watched.note, hnot] using hhalf
    exact ⟨by simp [Watched.note, period, henters], hbecomes.enters hnot hhalf⟩

theorem Counted.step (h : w.breaker.state = .halfOpen → Counted w.breaker w.past) (e : Event)
    (hhalf : (Circuit.step t w e).breaker.state = .halfOpen) :
    Counted (Circuit.step t w e).breaker (Circuit.step t w e).past := by
  by_cases hbefore : w.breaker.state = .halfOpen
  · obtain ⟨hcount, hquiet⟩ := h hbefore
    rcases step_cases t w e with heq | ⟨what, b, inFlight, hbecomes, heq⟩
    · rw [heq]
      exact h hbefore
    rw [heq] at hhalf ⊢
    simp only [Watched.note] at hhalf ⊢
    have henters : (Moment.mk what w.breaker.state b.state).enters = false :=
      enters_of_halfOpen hbefore
    rcases hbecomes.halfOpen hbefore with ⟨rfl, hnothing⟩ | ⟨call, rfl, rfl⟩ | hopened
    · constructor
      · rw [period_cons henters, List.countP_cons_of_neg (by simp [(hnothing _).1]), hcount]
      · rw [period_cons henters]
        exact List.forall_mem_cons.mpr ⟨(hnothing _).2, hquiet⟩
    · constructor
      · rw [period_cons henters, List.countP_cons_of_pos rfl, hcount, onSuccess_successes hbefore]
      · rw [period_cons henters]
        exact List.forall_mem_cons.mpr ⟨rfl, hquiet⟩
    · simp [hopened] at hhalf
  · obtain ⟨hperiod, hzero⟩ := period_begins hbefore hhalf
    exact ⟨by rw [hperiod, hzero]; rfl, by simp [hperiod]⟩

theorem Moment.succeeds_of_isProbe {m : Moment} {since : ℕ} (h : m.isProbe since = true) :
    m.succeeds = true := by
  cases hwhat : m.what <;> simp_all [Moment.isProbe, Moment.succeeds]

theorem countP_le_iff {α : Type} {p q : α → Bool} (h : ∀ a, p a = true → q a = true)
    (l : List α) : l.countP q ≤ l.countP p ↔ ∀ a ∈ l, q a = true → p a = true := by
  induction l with
  | nil => simp
  | cons a l ih =>
    have hle : l.countP p ≤ l.countP q := List.countP_mono_left fun x _ => h x
    rw [List.forall_mem_cons, ← ih]
    cases hq : q a with
    | false =>
      have hp : ¬ p a = true := fun hp => by simp [h a hp] at hq
      rw [List.countP_cons_of_neg (by simp [hq]), List.countP_cons_of_neg hp]
      simp
    | true =>
      rw [List.countP_cons_of_pos hq]
      by_cases hp : p a = true
      · rw [List.countP_cons_of_pos hp]
        simp [hp]
      · rw [List.countP_cons_of_neg hp]
        exact iff_of_false (by omega) (by simp [hp])

def OnlyProbes (past : List Moment) : Prop :=
  ∀ m ∈ period past, m.succeeds = true → m.isProbe (enteredAt past) = true

theorem onlyProbes_iff (past : List Moment) : OnlyProbes past ↔
    (period past).countP Moment.succeeds ≤
      (period past).countP (Moment.isProbe (enteredAt past)) :=
  (countP_le_iff (fun _ => Moment.succeeds_of_isProbe) _).symm

/-- A success that completes in a half-open period is of a call admitted in it. -/
def Fresh (w : Watched) : Event → Prop
  | .succeed i =>
    w.breaker.state = .halfOpen → ∀ call ∈ w.inFlight[i]?, enteredAt w.past ≤ call
  | _ => True

instance (w : Watched) : ∀ e, Decidable (Fresh w e)
  | .succeed _ => inferInstanceAs (Decidable (_ → _))
  | .read _ | .call _ | .fail _ _ | .cancel _ => .isTrue trivial

def ClosesOnEvidence (t : Thresholds) (w : Watched) (e : Event) : Prop :=
  w.breaker.state = .halfOpen → (Circuit.step t w e).breaker.state = .closed →
    OnEvidence t (Circuit.step t w e).past

instance (t : Thresholds) (w : Watched) (e : Event) : Decidable (ClosesOnEvidence t w e) :=
  inferInstanceAs (Decidable (_ → _))

def ClosesUnmixed (t : Thresholds) (w : Watched) (e : Event) : Prop :=
  w.breaker.state = .halfOpen → (Circuit.step t w e).breaker.state = .closed →
    OnlyProbes (Circuit.step t w e).past

theorem OnlyProbes.step {e : Event} (hfresh : Fresh w e)
    (h : w.breaker.state = .halfOpen → OnlyProbes w.past)
    (hhalf : w.breaker.state = .halfOpen) : OnlyProbes (Circuit.step t w e).past := by
  have hcons {what : Happening} {after : State}
      (hwhat : ∀ call, what = .succeeded call → enteredAt w.past ≤ call) :
      OnlyProbes (⟨what, w.breaker.state, after⟩ :: w.past) := by
    rw [OnlyProbes, period_cons (enters_of_halfOpen hhalf), enteredAt_cons (enters_of_halfOpen hhalf)]
    refine List.forall_mem_cons.mpr ⟨fun hsucceeds => ?_, h hhalf⟩
    cases what <;> simp_all [Moment.succeeds, Moment.isProbe]
  cases e with
  | read now => exact hcons (by simp)
  | call now =>
    simp only [Circuit.step]
    split <;> exact hcons (by simp)
  | succeed i =>
    simp only [Circuit.step]
    split
    · rename_i call hcall
      exact hcons (by simpa using hfresh hhalf call hcall)
    · exact h hhalf
  | fail i now =>
    simp only [Circuit.step]
    split
    · exact hcons (by simp)
    · exact h hhalf
  | cancel i =>
    simp only [Circuit.step]
    split
    · exact hcons (by simp)
    · exact h hhalf

theorem Counted.closing (h : w.breaker.state = .halfOpen → Counted w.breaker w.past) {e : Event}
    (hhalf : w.breaker.state = .halfOpen) (hclosed : (Circuit.step t w e).breaker.state = .closed) :
    t.successThreshold ≤ w.breaker.successes + 1 ∧
      (period (Circuit.step t w e).past).countP Moment.succeeds = w.breaker.successes + 1 ∧
      ∀ m ∈ period (Circuit.step t w e).past, m.fails = false := by
  rcases step_cases t w e with heq | ⟨what, b, inFlight, hbecomes, heq⟩
  · rw [heq, hhalf] at hclosed
    cases hclosed
  rw [heq] at hclosed ⊢
  simp only [Watched.note] at hclosed ⊢
  rw [period_cons (enters_of_halfOpen hhalf)]
  obtain ⟨hcount, hquiet⟩ := h hhalf
  rcases hbecomes.halfOpen hhalf with ⟨rfl, -⟩ | ⟨call, rfl, rfl⟩ | hopened
  · simp [hhalf] at hclosed
  · refine ⟨?_, by rw [List.countP_cons_of_pos rfl, hcount], List.forall_mem_cons.mpr ⟨rfl, hquiet⟩⟩
    by_contra hnot
    simp [Thresholds.onSuccess, hhalf, hnot] at hclosed
  · simp [hopened] at hclosed

theorem Counted.onEvidence (h : w.breaker.state = .halfOpen → Counted w.breaker w.past)
    {e : Event} (honly : ClosesUnmixed t w e) : ClosesOnEvidence t w e := by
  intro hhalf hclosed
  obtain ⟨hthreshold, hcount, hquiet⟩ := Counted.closing h hhalf hclosed
  refine ⟨?_, hquiet⟩
  have hprobes := (onlyProbes_iff _).mp (honly hhalf hclosed)
  omega

theorem Counted.onEvidence_iff (h : w.breaker.state = .halfOpen → Counted w.breaker w.past)
    (hfew : w.breaker.state = .halfOpen → w.breaker.successes < t.successThreshold) (e : Event) :
    ClosesOnEvidence t w e ↔ ClosesUnmixed t w e := by
  refine ⟨fun hevidence hhalf hclosed => ?_, Counted.onEvidence h⟩
  obtain ⟨hthreshold, hcount, hquiet⟩ := Counted.closing h hhalf hclosed
  apply (onlyProbes_iff _).mpr
  have hprobes := (hevidence hhalf hclosed).1
  have hone := hfew hhalf
  omega

/-- Over every interleaving of calls: a run in which no call succeeds in a half-open
period it was not admitted in closes the breaker on the evidence of probes alone, and
it is the periods that end in a close where it matters. -/
theorem closes_on_evidence (t : Thresholds) (events : List Event) :
    (Runs.Throughout (Circuit.step t) Fresh {} events →
      Runs.Throughout (Circuit.step t) (ClosesOnEvidence t) {} events) ∧
    (1 ≤ t.failureThreshold → 1 ≤ t.successThreshold →
      (Runs.Throughout (Circuit.step t) (ClosesOnEvidence t) {} events ↔
        Runs.Throughout (Circuit.step t) (ClosesUnmixed t) {} events)) := by
  have hcounted (w : Watched) (e : Event)
      (h : w.breaker.state = .halfOpen → Counted w.breaker w.past) :
      (Circuit.step t w e).breaker.state = .halfOpen →
        Counted (Circuit.step t w e).breaker (Circuit.step t w e).past := Counted.step h e
  constructor
  · refine Runs.Throughout.mono (I := fun w => w.breaker.state = .halfOpen →
      Counted w.breaker w.past ∧ OnlyProbes w.past) ?_ ?_ (by simp)
    · intro w e hfresh h hhalf
      refine ⟨hcounted w e (fun hbefore => (h hbefore).1) hhalf, ?_⟩
      by_cases hbefore : w.breaker.state = .halfOpen
      · exact OnlyProbes.step hfresh (fun hhalf => (h hhalf).2) hbefore
      · simp [OnlyProbes, (period_begins hbefore hhalf).1]
    · intro w e hfresh h
      exact Counted.onEvidence (fun hhalf => (h hhalf).1) fun hhalf _ =>
        OnlyProbes.step hfresh (fun hhalf => (h hhalf).2) hhalf
  · intro hf hs
    refine Runs.throughout_congr (I := fun w => Kept t w.breaker w.past ∧
      (w.breaker.state = .halfOpen → Counted w.breaker w.past)) ?_ ?_ ?_ events
    · exact fun w e h => ⟨h.1.step hf hs e, hcounted w e h.2⟩
    · exact fun w e h => Counted.onEvidence_iff h.2 h.1.halfOpen e
    · exact ⟨⟨rfl, fun _ => hf, by simp, by simp⟩, by simp⟩

end Steps

def outage : List Event := List.replicate 7 (.call 0) ++ List.replicate 5 (.fail 0 1)

/-- The other two come back with what they asked for before the outage. -/
theorem stale_successes_close :
    ¬ Runs.Throughout (step {}) (ClosesOnEvidence {}) {}
      (outage ++ [.read 31, .succeed 0, .succeed 0]) := by
  decide +kernel

theorem probes_close :
    let events := outage ++ [.call 31, .call 32, .succeed 3, .succeed 2]
    Runs.Throughout (step {}) (ClosesOnEvidence {}) {} events ∧
      Runs.Throughout (step {}) (ClosesUnmixed {}) {} events ∧
      (Runs.run (step {}) {} events).breaker.state = .closed := by
  intro events
  obtain ⟨hfresh, hexact⟩ := closes_on_evidence {} events
  have hcloses := hfresh (by decide +kernel)
  exact ⟨hcloses, (hexact (by decide) (by decide)).mp hcloses, by decide +kernel⟩

end PrSentinel.Circuit
