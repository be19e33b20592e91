import PrSentinel.PythonJson
import PrSentinel.Retry

/-!
A request to GitHub under its retry policy. The class of exceptions worth another
attempt is a subclass of the class the policy gives up on.
-/

set_option autoImplicit false

namespace PrSentinel
open Python

structure Response where
  status : ℕ
  text : String := ""
  retryAfter : Option String := none
  rateLimitRemaining : Option String := none
  deriving DecidableEq, Repr

/-- How the HTTP client comes back: with a response, or an `httpx.HTTPError`. -/
inductive HttpOutcome where
  | response (r : Response)
  | httpError (message : String)
  deriving DecidableEq, Repr

inductive RequestError where
  | gitHubError (status : ℕ) (message : String)
  | retryableGitHubError (status : ℕ) (message : String) (response : Option Response)
  | circuitOpen
  | unreadable (e : Exc)
  deriving DecidableEq, Repr

/-- `RetryableGitHubError` extends `GitHubError`. -/
def RequestError.isGitHubError : RequestError → Bool
  | .gitHubError _ _ | .retryableGitHubError _ _ _ => true
  | _ => false

def RequestError.isRetryable : RequestError → Bool
  | .retryableGitHubError _ _ _ => true
  | _ => false

def capped (cap : ℚ) : Flt → Flt
  | .fin q => .fin (min q cap)
  | .inf false => .fin cap
  | x => x

def retryableStatuses : List ℕ := [429, 500, 502, 503, 504]

section Interp
variable [Interp]

def retryAfter : RequestError → Option Flt
  | .retryableGitHubError _ _ (some r) =>
    match r.retryAfter with
    | some header =>
      if header ≠ "" then
        match floatOfStr header with
        | .ok x => some (capped 60 x)
        | .error _ => none
      else if r.rateLimitRemaining = some "0" then some (.fin 60) else none
    | none => if r.rateLimitRemaining = some "0" then some (.fin 60) else none
  | _ => none

def once : HttpOutcome → Outcome RequestError (Option Json)
  | .httpError message => .raised (.retryableGitHubError 0 message none)
  | .response r =>
    if r.status ∈ retryableStatuses then
      .raised (.retryableGitHubError r.status (upto 300 r.text) (some r))
    else if 400 ≤ r.status then .raised (.gitHubError r.status (upto 300 r.text))
    else if r.text = "" then .returned none
    else
      match loads r.text.toList with
      | .ok value => .returned (some value)
      | .error e => .raised (.unreadable e)

/-- `CircuitBreaker.call`, as far as the call is concerned. -/
def throughBreaker (isOpen : Bool) (call : Outcome RequestError (Option Json)) :
    Outcome RequestError (Option Json) :=
  if isOpen then .raised .circuitOpen else call

def requestPolicy : RetryPolicy RequestError where
  attempts := 4
  baseDelay := 1
  maxDelay := 30
  retryOn := RequestError.isRetryable
  giveUpOn := RequestError.isGitHubError

/-- `_request`; the breaker and the server are asked anew for every attempt. -/
def request (isOpen : ℕ → Bool) (draw : ℕ → ℚ) (outcomes : ℕ → HttpOutcome) :
    RetryRun RequestError (Option Json) :=
  withRetry requestPolicy retryAfter draw fun k => throughBreaker (isOpen k) (once (outcomes k))

def HttpOutcome.transient : HttpOutcome → Bool
  | .httpError _ => true
  | .response r => r.status ∈ retryableStatuses

def HttpOutcome.success? : HttpOutcome → Option (Option Json)
  | .httpError _ => none
  | .response r =>
    if 400 ≤ r.status then none
    else if r.text = "" then some none
    else (loads r.text.toList).toOption.map some

def HttpOutcome.refusal? : HttpOutcome → Option ℕ
  | .httpError _ => none
  | .response r =>
    if 400 ≤ r.status ∧ r.status < 500 ∧ r.status ∉ retryableStatuses then some r.status else none

def HttpOutcome.askedWait? : HttpOutcome → Option ℚ
  | .httpError _ => none
  | .response r =>
    match r.retryAfter.map floatOfStr with
    | some (.ok (.fin q)) => if 0 ≤ q then some q else none
    | _ => none

/-- Up to three transient failures before it do not keep the first answer from the
caller, the server's wait is kept between attempts, and a refusal ends them. -/
structure Survives (outcomes : ℕ → HttpOutcome) (run : RetryRun RequestError (Option Json)) :
    Prop where
  answered : ∀ k ≤ 3, (∀ i < k, (outcomes i).transient = true) →
    ∀ value, (outcomes k).success? = some value → run.result = .ok value
  waited : ∀ i, i + 1 < run.calls → ∀ q, (outcomes i).askedWait? = some q →
    run.sleeps[i]? = some (.fin (min q 60))
  refused : ∀ k ≤ 3, (∀ i < k, (outcomes i).transient = true) →
    ∀ status, (outcomes k).refusal? = some status →
      run.calls = k + 1 ∧ ∃ message, run.result = .error (.raised (.gitHubError status message))

variable {o : HttpOutcome}

theorem once_of_transient (h : o.transient = true) :
    ∃ e, once o = .raised e ∧ e.isRetryable = true ∧ e.isGitHubError = true := by
  cases o with
  | httpError message => exact ⟨_, rfl, rfl, rfl⟩
  | response r =>
    have hstatus : r.status ∈ retryableStatuses := by simpa [HttpOutcome.transient] using h
    refine ⟨.retryableGitHubError r.status (upto 300 r.text) (some r), ?_, rfl, rfl⟩
    simp [once, hstatus]

theorem once_of_success {value : Option Json} (h : o.success? = some value) :
    once o = .returned value := by
  cases o with
  | httpError message => cases h
  | response r =>
    simp only [HttpOutcome.success?] at h
    split_ifs at h with hstatus htext
    · have hnot : r.status ∉ retryableStatuses := by simp [retryableStatuses]; omega
      simp_all [once]
    · have hnot : r.status ∉ retryableStatuses := by simp [retryableStatuses]; omega
      cases hloads : loads r.text.toList with
      | error e => simp [hloads, Except.toOption] at h
      | ok x => simp_all [once, Except.toOption]

theorem once_of_refusal {status : ℕ} (h : o.refusal? = some status) :
    ∃ message, once o = .raised (.gitHubError status message) := by
  cases o with
  | httpError message => cases h
  | response r =>
    simp only [HttpOutcome.refusal?] at h
    split_ifs at h with hstatus
    obtain ⟨hlow, -, hnot⟩ := hstatus
    cases h
    exact ⟨upto 300 r.text, by simp [once, hnot, hlow]⟩

omit [Interp] in
theorem requestPolicy_retries (call : Outcome RequestError (Option Json)) :
    requestPolicy.retries call = false := by
  cases call with
  | raised e => cases e <;> rfl
  | _ => rfl

theorem request_first (draw : ℕ → ℚ) (outcomes : ℕ → HttpOutcome) :
    (request (fun _ => false) draw outcomes).result = (once (outcomes 0)).final ∧
      (request (fun _ => false) draw outcomes).calls = 1 :=
  withRetry_first (by decide) (requestPolicy_retries _)

/-- A request gives its caller what it owes exactly when nothing worth having
follows a transient failure. -/
theorem survives_iff (draw : ℕ → ℚ) (outcomes : ℕ → HttpOutcome) :
    Survives outcomes (request (fun _ => false) draw outcomes) ↔
      ∀ k ≤ 3, 0 < k → (∀ i < k, (outcomes i).transient = true) →
        (outcomes k).success? = none ∧ (outcomes k).refusal? = none := by
  obtain ⟨hresult, hcalls⟩ := request_first draw outcomes
  constructor
  · intro h k hk hpos htransient
    obtain ⟨e, honce, hretryable, -⟩ := once_of_transient (htransient 0 hpos)
    rw [honce] at hresult
    constructor
    · refine Option.eq_none_iff_forall_ne_some.mpr fun value hvalue => ?_
      have hanswer := h.answered k hk htransient value hvalue
      rw [hresult] at hanswer
      cases hanswer
    · refine Option.eq_none_iff_forall_ne_some.mpr fun status hstatus => ?_
      have hone := (h.refused k hk htransient status hstatus).1
      omega
  · intro h
    constructor
    · intro k hk htransient value hvalue
      rcases Nat.eq_zero_or_pos k with rfl | hpos
      · rw [hresult, once_of_success hvalue]
        rfl
      · simp [(h k hk hpos htransient).1] at hvalue
    · intro i hi
      omega
    · intro k hk htransient status hstatus
      rcases Nat.eq_zero_or_pos k with rfl | hpos
      · obtain ⟨message, honce⟩ := once_of_refusal hstatus
        exact ⟨hcalls, message, by rw [hresult, honce]; rfl⟩
      · simp [(h k hk hpos htransient).2] at hstatus

end Interp

/-- GitHub is away for one request and back for the next. -/
theorem transient_not_survived :
    let _ := asciiInterp
    let outcomes : ℕ → HttpOutcome
      | 0 => .response { status := 503, retryAfter := some "1" }
      | _ => .response { status := 200 }
    ¬ Survives outcomes (request (fun _ => false) (fun _ => 0) outcomes) := by
  intro _ outcomes h
  have hanswer := h.answered 1 (by decide) (by decide) none (by simp [outcomes, HttpOutcome.success?])
  have hresult := (request_first (fun _ => 0) outcomes).1
  rw [hanswer] at hresult
  cases hresult

end PrSentinel
