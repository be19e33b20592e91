import Mathlib.Data.ENat.Lattice
import PrSentinel.PythonText

set_option autoImplicit false

namespace PrSentinel
open Python

universe u v
variable {ε : Type u} {α : Type v}

inductive Outcome (ε : Type u) (α : Type v) where
  | returned (a : α)
  | raised (e : ε)
  | cancelled

structure RetryPolicy (ε : Type u) where
  attempts : ℕ := 3
  baseDelay : ℚ := 1 / 2
  maxDelay : ℚ := 20
  retryOn : ε → Bool
  giveUpOn : ε → Bool

/-- `delay_for`; `draw` is where between 0 and the ceiling the random number fell, in [0, 1].
The power becomes a float before it is multiplied with one. -/
def RetryPolicy.delayFor (policy : RetryPolicy ε) (attempt : ℕ) (draw : ℚ) : Except Exc ℚ :=
  (floatOfInt (2 ^ attempt)).map fun _ =>
    draw * min policy.maxDelay (policy.baseDelay * 2 ^ attempt)

/-- What is slept after a failed attempt: the server's hint, or a point of our curve. -/
def RetryPolicy.wait (policy : RetryPolicy ε) (retryAfter : ε → Option Flt) (draw : ℕ → ℚ)
    (attempt : ℕ) (e : ε) : Except Exc Flt :=
  match retryAfter e with
  | some hinted => .ok hinted
  | none => (policy.delayFor attempt (draw attempt)).map .fin

inductive RetryFailure (ε : Type u) where
  | raised (e : ε)
  | cancelled
  | exhausted (attempts : ℕ) (last : ε)
  | unwaited (e : Exc)
  | assertionError

inductive RetryEvent where
  | call
  | sleep (delay : Flt)
  deriving DecidableEq

/-- What `with_retry` comes to, and what it did in this order. -/
structure RetryRun (ε : Type u) (α : Type v) where
  result : Except (RetryFailure ε) α
  events : List RetryEvent

def RetryEvent.slept? : RetryEvent → Option Flt
  | .call => none
  | .sleep delay => some delay

namespace RetryRun

def calls (run : RetryRun ε α) : ℕ := run.events.count .call

def sleeps (run : RetryRun ε α) : List Flt := run.events.filterMap RetryEvent.slept?

def after (run : RetryRun ε α) (delay : Flt) : RetryRun ε α :=
  { run with events := .call :: .sleep delay :: run.events }

@[simp] theorem calls_after (run : RetryRun ε α) (delay : Flt) :
    (run.after delay).calls = run.calls + 1 := by
  simp [calls, after]

@[simp] theorem sleeps_after (run : RetryRun ε α) (delay : Flt) :
    (run.after delay).sleeps = delay :: run.sleeps := rfl

end RetryRun

section WithRetry
variable (policy : RetryPolicy ε) (retryAfter : ε → Option Flt) (draw : ℕ → ℚ)
  (fn : ℕ → Outcome ε α)

/-- The loop from this attempt on, with `left` attempts to go. -/
def retryFrom (attempt : ℕ) : (left : ℕ) → RetryRun ε α
  | 0 => ⟨.error .assertionError, []⟩
  | left + 1 =>
    match fn attempt with
    | .returned a => ⟨.ok a, [.call]⟩
    | .cancelled => ⟨.error .cancelled, [.call]⟩
    | .raised e =>
      if policy.giveUpOn e then ⟨.error (.raised e), [.call]⟩
      else if !policy.retryOn e then ⟨.error (.raised e), [.call]⟩
      else if left = 0 then ⟨.error (.exhausted policy.attempts e), [.call]⟩
      else match policy.wait retryAfter draw attempt e with
        | .error e => ⟨.error (.unwaited e), [.call]⟩
        | .ok delay => (retryFrom (attempt + 1) left).after delay

def withRetry : RetryRun ε α := retryFrom policy retryAfter draw fn 0 policy.attempts

def RetryPolicy.retries : Outcome ε α → Bool
  | .raised e => !policy.giveUpOn e && policy.retryOn e
  | _ => false

/-- What an outcome that is not retried makes of the whole run. -/
def Outcome.final : Outcome ε α → Except (RetryFailure ε) α
  | .returned a => .ok a
  | .cancelled => .error .cancelled
  | .raised e => .error (.raised e)

variable {policy retryAfter draw fn}

theorem retryFrom_of_final {attempt left : ℕ} (h : policy.retries (fn attempt) = false) :
    retryFrom policy retryAfter draw fn attempt (left + 1) = ⟨(fn attempt).final, [.call]⟩ := by
  unfold retryFrom
  cases hfn : fn attempt with
  | returned a => rfl
  | cancelled => rfl
  | raised e =>
    simp only [RetryPolicy.retries, hfn] at h
    cases hgive : policy.giveUpOn e <;> simp_all [Outcome.final]

theorem withRetry_first (hattempts : 0 < policy.attempts) (h : policy.retries (fn 0) = false) :
    (withRetry policy retryAfter draw fn).result = (fn 0).final ∧
      (withRetry policy retryAfter draw fn).calls = 1 := by
  obtain ⟨left, hleft⟩ := Nat.exists_eq_add_of_lt hattempts
  rw [withRetry, hleft, Nat.zero_add, retryFrom_of_final h]
  exact ⟨rfl, rfl⟩

theorem retryFrom_of_retries {attempt left : ℕ} {e : ε} (hfn : fn attempt = .raised e)
    (h : policy.retries (fn attempt) = true) :
    retryFrom policy retryAfter draw fn attempt (left + 1) =
      if left = 0 then ⟨.error (.exhausted policy.attempts e), [.call]⟩
      else match policy.wait retryAfter draw attempt e with
        | .error e => ⟨.error (.unwaited e), [.call]⟩
        | .ok delay => (retryFrom policy retryAfter draw fn (attempt + 1) left).after delay := by
  simp only [RetryPolicy.retries, hfn, Bool.and_eq_true, Bool.not_eq_true'] at h
  rw [retryFrom]
  simp [hfn, h.1, h.2]

variable (policy retryAfter draw fn)

inductive Ends (n : ℕ) : Except (RetryFailure ε) α → Prop where
  | final (h : policy.retries (fn n) = false) : Ends n (fn n).final
  | exhausted {e : ε} (hfn : fn n = .raised e) (h : policy.retries (fn n) = true)
      (hlast : n + 1 = policy.attempts) : Ends n (.error (.exhausted policy.attempts e))
  | unwaited {e : ε} {x : Exc} (hfn : fn n = .raised e) (h : policy.retries (fn n) = true)
      (hmore : n + 1 < policy.attempts) (hwait : policy.wait retryAfter draw n e = .error x) :
      Ends n (.error (.unwaited x))

/-- The attempt failed, another one follows, and this is slept in between. -/
def WaitsAfter (attempt : ℕ) (delay : Flt) : Prop := ∃ e, fn attempt = .raised e ∧
  policy.retries (fn attempt) = true ∧ policy.wait retryAfter draw attempt e = .ok delay

variable {policy retryAfter draw fn}

def alternating (delays : List Flt) : List RetryEvent :=
  .call :: delays.flatMap fun delay => [.sleep delay, .call]

theorem alternating_cons (delay : Flt) (delays : List Flt) :
    alternating (delay :: delays) = .call :: .sleep delay :: alternating delays := rfl

theorem retryFrom_spec {attempt left : ℕ} (h : attempt + left = policy.attempts)
    (hleft : left ≠ 0) : ∃ delays result,
      retryFrom policy retryAfter draw fn attempt left = ⟨result, alternating delays⟩ ∧
      (∀ i delay, delays[i]? = some delay →
        WaitsAfter policy retryAfter draw fn (attempt + i) delay) ∧
      attempt + delays.length < policy.attempts ∧
      Ends policy retryAfter draw fn (attempt + delays.length) result := by
  induction left generalizing attempt with
  | zero => exact absurd rfl hleft
  | succ left ih =>
    have hnone : ∀ i delay, ([] : List Flt)[i]? = some delay →
        WaitsAfter policy retryAfter draw fn (attempt + i) delay := by simp
    cases hretries : policy.retries (fn attempt) with
    | false =>
      exact ⟨[], _, retryFrom_of_final hretries, hnone, by simp; omega, .final hretries⟩
    | true =>
      obtain ⟨e, hfn⟩ : ∃ e, fn attempt = .raised e := by
        cases hfn : fn attempt with
        | raised e => exact ⟨e, rfl⟩
        | _ => simp [RetryPolicy.retries, hfn] at hretries
      have hstep := @retryFrom_of_retries _ _ _ retryAfter draw _ _ left e hfn hretries
      by_cases hlast : left = 0
      · rw [if_pos hlast] at hstep
        exact ⟨[], _, hstep, hnone, by simp; omega, .exhausted hfn hretries (by simp; omega)⟩
      · rw [if_neg hlast] at hstep
        cases hwait : policy.wait retryAfter draw attempt e with
        | error x =>
          rw [hwait] at hstep
          exact ⟨[], _, hstep, hnone, by simp; omega,
            .unwaited hfn hretries (by simp; omega) hwait⟩
        | ok delay =>
          obtain ⟨delays, result, hrun, hwaits, hlt, hends⟩ :=
            ih (show attempt + 1 + left = policy.attempts by omega) hlast
          rw [hwait] at hstep
          have hlength : attempt + (delay :: delays).length = attempt + 1 + delays.length := by
            rw [List.length_cons]
            omega
          refine ⟨delay :: delays, result, ?_, ?_, hlength ▸ hlt, hlength ▸ hends⟩
          · rw [hstep, hrun]
            rfl
          · intro i later hlater
            cases i with
            | zero =>
              obtain rfl := Option.some.inj hlater
              exact ⟨e, hfn, hretries, hwait⟩
            | succ i =>
              rw [Nat.add_comm i, ← Nat.add_assoc]
              exact hwaits i later hlater

variable (policy retryAfter fn)

/-- Where the first outcome stands that is not retried, counted from one. -/
noncomputable def stopAt : ℕ∞ := ⨅ i : {i // policy.retries (fn i) = false}, (i.val + 1 : ℕ∞)

/-- What bounded retry promises of a run. -/
structure BoundedRetry (run : RetryRun ε α) : Prop where
  calls : (run.calls : ℕ∞) = min (policy.attempts : ℕ∞) (stopAt policy fn)
  result : ∀ k : ℕ, stopAt policy fn = k → k ≤ policy.attempts → run.result = (fn (k - 1)).final
  exhausted : ∀ n last, run.result = .error (.exhausted n last) ↔ n = policy.attempts ∧
    (∀ i < policy.attempts, policy.retries (fn i) = true) ∧ fn (policy.attempts - 1) = .raised last
  sleeps : run.events = alternating run.sleeps
  hinted : ∀ i < run.sleeps.length, ∀ e delay, fn i = .raised e → retryAfter e = some delay →
    run.sleeps[i]? = some delay

variable {policy retryAfter fn}

theorem stopAt_of_final {n : ℕ} (h : policy.retries (fn n) = false)
    (hretried : ∀ i < n, policy.retries (fn i) = true) : stopAt policy fn = n + 1 := by
  refine le_antisymm (iInf_le_of_le ⟨n, h⟩ le_rfl) (le_iInf fun i => ?_)
  have hle : n ≤ i.val := by
    by_contra hlt
    have hboth := hretried i.val (by omega)
    rw [i.property] at hboth
    cases hboth
  gcongr

theorem lt_stopAt {n : ℕ} (h : ∀ i < n, policy.retries (fn i) = true) :
    (n : ℕ∞) < stopAt policy fn := by
  by_cases hall : ∀ i, policy.retries (fn i) = true
  · have hempty : IsEmpty {i // policy.retries (fn i) = false} :=
      ⟨fun i => by simpa [hall i.val] using i.property⟩
    rw [stopAt, iInf_of_empty]
    exact ENat.natCast_lt_top n
  · push Not at hall
    classical
    have hfinal := Nat.find_spec hall
    have hbefore := fun i (hi : i < Nat.find hall) => not_not.mp (Nat.find_min hall hi)
    rw [stopAt_of_final (by simpa using hfinal) hbefore]
    have hle : n ≤ Nat.find hall := by
      by_contra hlt
      exact hfinal (h _ (by omega))
    exact_mod_cast Nat.lt_succ_of_le hle

theorem calls_alternating (delays : List Flt) :
    (alternating delays).count .call = delays.length + 1 := by
  induction delays with
  | nil => rfl
  | cons delay delays ih => simp [alternating_cons, ih]

theorem sleeps_alternating (delays : List Flt) :
    (alternating delays).filterMap RetryEvent.slept? = delays := by
  induction delays with
  | nil => rfl
  | cons delay delays ih =>
    rw [alternating_cons]
    exact congrArg (delay :: ·) ih

theorem floatOfInt_pow (attempt : ℕ) :
    (∃ x, floatOfInt (2 ^ attempt) = .error x) ↔ 1024 ≤ attempt := by
  have hcast : |((2 ^ attempt : ℤ) : ℚ)| = 2 ^ attempt := by
    rw [Int.cast_pow, Int.cast_ofNat, abs_of_nonneg (by positivity)]
  simp only [floatOfInt_error, exists_eq_left, hcast, floatBound]
  constructor
  · intro h
    by_contra hlt
    have hle : (2 : ℚ) ^ attempt ≤ 2 ^ 1023 := pow_le_pow_right₀ (by norm_num) (by omega)
    have hsmall : (2 : ℚ) ^ 970 < 2 ^ 1023 := pow_lt_pow_right₀ (by norm_num) (by norm_num)
    have hbound : (2 : ℚ) ^ 1023 < 2 ^ 1024 - 2 ^ 970 := by
      rw [lt_sub_iff_add_lt, pow_succ _ 1023, mul_two]
      exact (add_lt_add_iff_left _).mpr hsmall
    exact absurd h (not_le.mpr (hle.trans_lt hbound))
  · intro h
    have hle : (2 : ℚ) ^ 1024 ≤ 2 ^ attempt := pow_le_pow_right₀ (by norm_num) h
    exact (sub_le_self _ (by positivity)).trans hle

theorem wait_error {attempt : ℕ} {e : ε} :
    (∃ x, policy.wait retryAfter draw attempt e = .error x) ↔
      retryAfter e = none ∧ 1024 ≤ attempt := by
  rw [← floatOfInt_pow, RetryPolicy.wait]
  cases retryAfter e with
  | some delay => simp
  | none =>
    rw [RetryPolicy.delayFor]
    cases floatOfInt (2 ^ attempt) <;> simp [Except.map]

theorem withRetry_spec (hattempts : 1 ≤ policy.attempts) : ∃ delays result,
    withRetry policy retryAfter draw fn = ⟨result, alternating delays⟩ ∧
    (∀ i delay, delays[i]? = some delay → WaitsAfter policy retryAfter draw fn i delay) ∧
    delays.length < policy.attempts ∧ Ends policy retryAfter draw fn delays.length result := by
  simpa only [Nat.zero_add, withRetry] using
    retryFrom_spec (Nat.zero_add policy.attempts) (by omega)

theorem retried_before {delays : List Flt}
    (h : ∀ i delay, delays[i]? = some delay → WaitsAfter policy retryAfter draw fn i delay) :
    ∀ i < delays.length, policy.retries (fn i) = true := by
  intro i hi
  obtain ⟨e, -, hretries, -⟩ := h i delays[i] (List.getElem?_eq_getElem hi)
  exact hretries

theorem retried_through {delays : List Flt}
    (h : ∀ i delay, delays[i]? = some delay → WaitsAfter policy retryAfter draw fn i delay)
    (hlast : policy.retries (fn delays.length) = true) :
    ∀ i < delays.length + 1, policy.retries (fn i) = true := by
  intro i hi
  rcases Nat.lt_succ_iff_lt_or_eq.mp hi with hi | rfl
  · exact retried_before h i hi
  · exact hlast

theorem calls_of_events (result : Except (RetryFailure ε) α) (delays : List Flt) :
    (⟨result, alternating delays⟩ : RetryRun ε α).calls = delays.length + 1 :=
  calls_alternating delays

theorem hinted_of_waits {delays : List Flt}
    (h : ∀ i delay, delays[i]? = some delay → WaitsAfter policy retryAfter draw fn i delay) :
    ∀ i < delays.length, ∀ e delay, fn i = .raised e → retryAfter e = some delay →
      delays[i]? = some delay := by
  intro i hi e delay hfn hhint
  obtain ⟨e', hfn', -, hwait⟩ := h i delays[i] (List.getElem?_eq_getElem hi)
  rw [hfn] at hfn'
  cases hfn'
  rw [RetryPolicy.wait, hhint] at hwait
  rw [List.getElem?_eq_getElem hi, Except.ok.inj hwait]

theorem boundedRetry_of_final {delays : List Flt}
    (hdelays : ∀ i delay, delays[i]? = some delay → WaitsAfter policy retryAfter draw fn i delay)
    (hlt : delays.length < policy.attempts) (h : policy.retries (fn delays.length) = false) :
    BoundedRetry policy retryAfter fn ⟨(fn delays.length).final, alternating delays⟩ := by
  have hstop := stopAt_of_final h (retried_before hdelays)
  have hsleeps := sleeps_alternating delays
  refine ⟨?_, ?_, ?_, by rw [RetryRun.sleeps, hsleeps], ?_⟩
  · rw [calls_of_events, hstop, min_eq_right (by exact_mod_cast hlt)]
    rfl
  · intro k hk _
    have hlength : k = delays.length + 1 := by exact_mod_cast hk.symm.trans hstop
    rw [hlength, Nat.add_sub_cancel]
  · refine fun n last => iff_of_false ?_ fun hall => ?_
    · cases fn delays.length <;> simp [Outcome.final]
    · rw [hall.2.1 _ hlt] at h
      cases h
  · rw [RetryRun.sleeps, hsleeps]
    exact hinted_of_waits hdelays

theorem boundedRetry_of_exhausted {delays : List Flt} {e : ε}
    (hdelays : ∀ i delay, delays[i]? = some delay → WaitsAfter policy retryAfter draw fn i delay)
    (hfn : fn delays.length = .raised e) (h : policy.retries (fn delays.length) = true)
    (hlast : delays.length + 1 = policy.attempts) :
    BoundedRetry policy retryAfter fn
      ⟨.error (.exhausted policy.attempts e), alternating delays⟩ := by
  have hall : ∀ i < policy.attempts, policy.retries (fn i) = true :=
    hlast ▸ retried_through hdelays h
  have hstop := lt_stopAt hall
  have hsleeps := sleeps_alternating delays
  refine ⟨?_, ?_, ?_, by rw [RetryRun.sleeps, hsleeps], ?_⟩
  · rw [calls_of_events, ← hlast, min_eq_left (hlast ▸ hstop.le)]
  · intro k hk hle
    rw [hk] at hstop
    have hk : policy.attempts < k := by exact_mod_cast hstop
    omega
  · intro n last
    have hindex : policy.attempts - 1 = delays.length := by omega
    rw [hindex, hfn]
    constructor
    · rintro ⟨⟩
      exact ⟨rfl, hall, rfl⟩
    · rintro ⟨rfl, -, ⟨⟩⟩
      rfl
  · rw [RetryRun.sleeps, hsleeps]
    exact hinted_of_waits hdelays

theorem boundedRetry_of_waits (hattempts : 1 ≤ policy.attempts)
    (hwaits : ∀ i, 1024 ≤ i → i + 1 < policy.attempts → (∀ j ≤ i, policy.retries (fn j) = true) →
      ∃ e delay, fn i = .raised e ∧ retryAfter e = some delay) :
    BoundedRetry policy retryAfter fn (withRetry policy retryAfter draw fn) := by
  obtain ⟨delays, result, hrun, hdelays, hlt, hends⟩ :=
    withRetry_spec hattempts
  rw [hrun]
  cases hends with
  | final h => exact boundedRetry_of_final hdelays hlt h
  | exhausted hfn h hlast => exact boundedRetry_of_exhausted hdelays hfn h hlast
  | @unwaited e x hfn h hmore hwait =>
    obtain ⟨hnone, hlate⟩ := wait_error.mp ⟨x, hwait⟩
    obtain ⟨e', delay, hfn', hhint⟩ := hwaits _ hlate hmore fun j hj =>
      retried_through hdelays h j (Nat.lt_succ_of_le hj)
    rw [hfn] at hfn'
    cases hfn'
    rw [hnone] at hhint
    cases hhint

theorem BoundedRetry.waits (hattempts : 1 ≤ policy.attempts)
    (h : BoundedRetry policy retryAfter fn (withRetry policy retryAfter draw fn)) {i : ℕ}
    (hlate : 1024 ≤ i) (hmore : i + 1 < policy.attempts)
    (hretried : ∀ j ≤ i, policy.retries (fn j) = true) :
    ∃ e delay, fn i = .raised e ∧ retryAfter e = some delay := by
  obtain ⟨delays, result, hrun, hdelays, hlt, hends⟩ :=
    withRetry_spec hattempts
  have hreached : i < delays.length := by
    cases hends with
    | final hfinal =>
      by_contra hle
      rw [hretried _ (by omega)] at hfinal
      cases hfinal
    | exhausted _ _ hlast => omega
    | unwaited _ hlast hmore' =>
      have hcalls := h.calls
      rw [hrun, calls_of_events] at hcalls
      have hstop : ((delays.length + 1 : ℕ) : ℕ∞) < stopAt policy fn :=
        lt_stopAt (retried_through hdelays hlast)
      have hmin := lt_min (show ((delays.length + 1 : ℕ) : ℕ∞) < policy.attempts by
        exact_mod_cast hmore') hstop
      rw [← hcalls] at hmin
      exact absurd hmin (lt_irrefl _)
  obtain ⟨e, hfn, -, hwait⟩ := hdelays i delays[i] (List.getElem?_eq_getElem hreached)
  cases hhint : retryAfter e with
  | some delay => exact ⟨e, delay, hfn, hhint⟩
  | none =>
    obtain ⟨x, herror⟩ := wait_error.mpr ⟨hhint, hlate⟩
    rw [hwait] at herror
    cases herror

/-- The power of two that scales the delay has to be a float, also where the maximum is
reached long before. -/
theorem bounded_retry_iff (hattempts : 1 ≤ policy.attempts) :
    BoundedRetry policy retryAfter fn (withRetry policy retryAfter draw fn) ↔
      ∀ i, 1024 ≤ i → i + 1 < policy.attempts → (∀ j ≤ i, policy.retries (fn j) = true) →
        ∃ e delay, fn i = .raised e ∧ retryAfter e = some delay :=
  ⟨fun h _ hlate hmore hretried => h.waits hattempts hlate hmore hretried,
    boundedRetry_of_waits hattempts⟩

end WithRetry

def thirdTime : ℕ → Outcome Unit Unit
  | 2 => .returned ()
  | _ => .raised ()

def tirelessPolicy (attempts : ℕ) : RetryPolicy Unit where
  attempts := attempts
  retryOn _ := true
  giveUpOn _ := false

theorem third_time_bounded : BoundedRetry (tirelessPolicy 3) (fun _ => none) thirdTime
    (withRetry (tirelessPolicy 3) (fun _ => none) (fun _ => 1) thirdTime) :=
  (bounded_retry_iff (by decide)).mpr fun i hlate hmore => by
    have hattempts : (tirelessPolicy 3).attempts = 3 := rfl
    omega

theorem attempts_cut_short : ¬ ∀ (policy : RetryPolicy Unit) (retryAfter : Unit → Option Flt)
    (draw : ℕ → ℚ) (fn : ℕ → Outcome Unit Unit), 1 ≤ policy.attempts →
      BoundedRetry policy retryAfter fn (withRetry policy retryAfter draw fn) := by
  intro h
  have hattempts : (tirelessPolicy 1026).attempts = 1026 := rfl
  obtain ⟨_, _, _, hhint⟩ := (h (tirelessPolicy 1026) (fun _ => none) (fun _ => 1)
    (fun _ => .raised ()) (by omega)).waits (by omega) le_rfl (by omega) fun _ _ => rfl
  cases hhint

end PrSentinel
