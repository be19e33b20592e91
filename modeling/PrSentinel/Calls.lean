import PrSentinel.Budget
import PrSentinel.Circuit
import PrSentinel.Requests

/-!
The doors to the model and to GitHub: a retry policy around a circuit breaker around
the call. The breaker is under the policy, and sees the answers that are not retried.
-/

set_option autoImplicit false

namespace PrSentinel
open Python Circuit

universe u v
variable {ε : Type u} {α : Type v}

/-- One attempt: when the breaker is asked, what the dependency says, and when it has said so. -/
structure CallAttempt (ε : Type u) (α : Type v) where
  asked : ℚ
  answer : Outcome ε α
  back : ℚ

section WithBreaker
variable (t : Thresholds) (circuitOpen : ε) (b : CircuitBreaker) (attempts : ℕ → CallAttempt ε α)

/-- The breaker as each attempt finds it. -/
def breakerAt : ℕ → CircuitBreaker
  | 0 => b
  | k + 1 =>
    (t.call circuitOpen (breakerAt k) (attempts k).asked (attempts k).answer (attempts k).back).2

/-- `with_retry` around `CircuitBreaker.call`, and the breaker it leaves behind. -/
def withBreaker (policy : RetryPolicy ε) (retryAfter : ε → Option Flt) (draw : ℕ → ℚ) :
    RetryRun ε α × CircuitBreaker :=
  let run := withRetry policy retryAfter draw fun k =>
    (t.call circuitOpen (breakerAt t circuitOpen b attempts k) (attempts k).asked
      (attempts k).answer (attempts k).back).1
  (run, breakerAt t circuitOpen b attempts run.calls)

end WithBreaker

/-- What an attempt at a model call can raise. -/
inductive LlmRaised where
  | llmRefusal (category explanation : Option String)
  | llmError (message : String)
  | circuitOpen
  | other (exception message : String)
  deriving DecidableEq, Repr

/-- `LLMRefusal` extends `LLMError`. -/
def LlmRaised.isLLMError : LlmRaised → Bool
  | .llmRefusal _ _ | .llmError _ => true
  | _ => false

def LlmRaised.isLLMRefusal : LlmRaised → Bool
  | .llmRefusal _ _ => true
  | _ => false

def llmPolicy : RetryPolicy LlmRaised where
  attempts := 3
  baseDelay := 1
  maxDelay := 20
  retryOn := LlmRaised.isLLMError
  giveUpOn := LlmRaised.isLLMRefusal

def llmThresholds : Thresholds where
  failureThreshold := 5
  recoveryTime := 30

inductive CallFailure where
  | budgetExceeded (e : BudgetExceeded)
  | failed (e : RetryFailure LlmRaised)

structure Invocation where
  request : LLMRequest
  budget : Option BudgetGuard := none
  draw : ℕ → ℚ := fun _ => 0
  attempts : ℕ → CallAttempt LlmRaised LLMResponse

/-- The check made before the provider is asked for anything. -/
def Invocation.check (caps : Caps) (i : Invocation) : Except BudgetExceeded Unit :=
  match i.budget with
  | some guard => guard.check caps (worstCaseCost i.request)
  | none => .ok ()

def callLlm (caps : Caps) (b : CircuitBreaker) (i : Invocation) :
    Except CallFailure LLMResponse × CircuitBreaker × Option BudgetGuard :=
  match i.check caps with
  | .error e => (.error (.budgetExceeded e), b, i.budget)
  | .ok _ =>
    let (run, b) :=
      withBreaker llmThresholds .circuitOpen b i.attempts llmPolicy (fun _ => none) i.draw
    match run.result with
    | .ok response => (.ok response, b, i.budget.map (·.charge response.costUsd))
    | .error e => (.error (.failed e), b, i.budget)

def githubThresholds : Thresholds where
  failureThreshold := 5
  recoveryTime := 30

structure GithubRequest where
  draw : ℕ → ℚ := fun _ => 0
  asked : ℕ → ℚ
  outcomes : ℕ → HttpOutcome
  back : ℕ → ℚ

section Interp
variable [Interp]

def GithubRequest.attempts (r : GithubRequest) (k : ℕ) : CallAttempt RequestError (Option Json) :=
  ⟨r.asked k, once (r.outcomes k), r.back k⟩

def requestGuarded (b : CircuitBreaker) (r : GithubRequest) :
    RetryRun RequestError (Option Json) × CircuitBreaker :=
  withBreaker githubThresholds .circuitOpen b r.attempts requestPolicy retryAfter r.draw

omit [Interp] in
theorem call_throughBreaker (t : Thresholds) (b : CircuitBreaker) (now later : ℚ)
    (answer : Outcome RequestError (Option Json)) :
    (t.call .circuitOpen b now answer later).1 =
      throughBreaker ((t.look b now).state = .opened) answer := by
  simp only [Thresholds.call, throughBreaker, decide_eq_true_eq]
  split
  · rfl
  · cases answer <;> rfl

/-- The breaker turns an attempt away when its state, as then read, is open. -/
theorem requestGuarded_eq (b : CircuitBreaker) (r : GithubRequest) :
    (requestGuarded b r).1 = request
      (fun k => (githubThresholds.look
        (breakerAt githubThresholds .circuitOpen b r.attempts k) (r.asked k)).state = .opened)
      r.draw r.outcomes := by
  simp only [requestGuarded, withBreaker, request, call_throughBreaker]
  rfl

end Interp

theorem replicate_infix_append {n k : ℕ} (hk : k < n) (verdicts : List Bool) :
    List.replicate n true <:+: List.replicate k true ++ false :: verdicts ↔
      List.replicate n true <:+: verdicts := by
  induction k with
  | zero =>
    rw [List.replicate_zero, List.nil_append, List.infix_cons_iff]
    refine or_iff_right fun hprefix => ?_
    cases n with
    | zero => omega
    | succ n => simp [List.replicate_succ, List.cons_prefix_cons] at hprefix
  | succ k ih =>
    rw [List.replicate_succ, List.cons_append, List.infix_cons_iff, ih (by omega)]
    refine or_iff_right fun hprefix => ?_
    rw [← List.cons_append, ← List.replicate_succ] at hprefix
    have hbroken : List.replicate (k + 1) true ++ [false] <+: List.replicate n true :=
      List.prefix_of_prefix_length_le ⟨verdicts, by simp⟩ hprefix (by simp; omega)
    have hmem : false ∈ List.replicate n true := hbroken.subset (by simp)
    simp at hmem

section StaysClosed
variable {ι : Type u} {t : Thresholds} {step : CircuitBreaker → ι → CircuitBreaker}
  {legal : ι → Prop} {verdict : ι → Option Bool}

theorem stays_closed_iff {P : State → Prop} (hP : P .closed) (hnot : ¬ P .opened)
    (hnone : ∀ b i, legal i → b.state = .closed → verdict i = none → step b i = b)
    (hreturned : ∀ b i, legal i → b.state = .closed → verdict i = some false →
      step b i = t.onSuccess b)
    (hrefused : ∀ b i, legal i → b.state = .closed → verdict i = some true →
      ∃ later, step b i = t.onFailure b later)
    {b : CircuitBreaker} (hclosed : b.state = .closed) (hfew : b.failures < t.failureThreshold)
    {l : List ι} (hlegal : ∀ i ∈ l, legal i) :
    (∀ before after, l = before ++ after → P (Runs.run step b before).state) ↔
      ¬ List.replicate t.failureThreshold true <:+:
        List.replicate b.failures true ++ l.filterMap verdict := by
  induction l generalizing b with
  | nil =>
    constructor
    · intro _ hinfix
      have hlength := hinfix.length_le
      simp at hlength
      omega
    · intro _ before after heq
      rw [(List.append_eq_nil_iff.mp heq.symm).1]
      exact hclosed ▸ hP
  | cons i l ih =>
    obtain ⟨hi, hlegal⟩ := List.forall_mem_cons.mp hlegal
    rw [Runs.forall_prefix_cons (P := fun b : CircuitBreaker => P b.state),
      and_iff_right (hclosed ▸ hP)]
    cases hverdict : verdict i with
    | none =>
      rw [hnone b i hi hclosed hverdict, List.filterMap_cons_none hverdict]
      exact ih hclosed hfew hlegal
    | some refused =>
      rw [List.filterMap_cons_some hverdict]
      cases refused with
      | false =>
        have hstep : step b i = { b with failures := 0 } := by
          rw [hreturned b i hi hclosed hverdict]
          simp [Thresholds.onSuccess, hclosed]
        rw [hstep, replicate_infix_append hfew]
        exact ih (b := { b with failures := 0 }) hclosed (Nat.zero_lt_of_lt hfew) hlegal
      | true =>
        obtain ⟨later, hstep⟩ := hrefused b i hi hclosed hverdict
        have hrow : List.replicate b.failures true ++ true :: l.filterMap verdict =
            List.replicate (b.failures + 1) true ++ l.filterMap verdict := by
          rw [List.replicate_succ', List.append_assoc]
          rfl
        rw [hrow]
        by_cases hopens : t.failureThreshold ≤ b.failures + 1
        · have hfull : t.failureThreshold = b.failures + 1 := by omega
          refine iff_of_false (fun h => ?_) (fun h => h ?_)
          · have hfirst := h [] l rfl
            rw [hstep] at hfirst
            simp [Runs.run, Thresholds.onFailure, hopens, hnot] at hfirst
          · rw [hfull]
            exact (List.prefix_append _ _).isInfix
        · have hstep' : step b i = { b with failures := b.failures + 1 } := by
            rw [hstep]
            simp [Thresholds.onFailure, hclosed, hopens]
          rw [hstep']
          exact ih (b := { b with failures := b.failures + 1 }) hclosed (Nat.lt_of_not_le hopens)
            hlegal

end StaysClosed

theorem withBreaker_first (t : Thresholds) (circuitOpen : ε) (b : CircuitBreaker)
    (attempts : ℕ → CallAttempt ε α) {policy : RetryPolicy ε} (retryAfter : ε → Option Flt)
    (draw : ℕ → ℚ) (hattempts : 0 < policy.attempts)
    (hfinal : policy.retries (t.call circuitOpen b (attempts 0).asked (attempts 0).answer
      (attempts 0).back).1 = false) :
    let first := t.call circuitOpen b (attempts 0).asked (attempts 0).answer (attempts 0).back
    (withBreaker t circuitOpen b attempts policy retryAfter draw).1.result = first.1.final ∧
      (withBreaker t circuitOpen b attempts policy retryAfter draw).2 = first.2 := by
  intro first
  let fn (k : ℕ) : Outcome ε α :=
    (t.call circuitOpen (breakerAt t circuitOpen b attempts k) (attempts k).asked
      (attempts k).answer (attempts k).back).1
  have hrun : (withRetry policy retryAfter draw fn).result = (fn 0).final ∧
      (withRetry policy retryAfter draw fn).calls = 1 :=
    withRetry_first hattempts hfinal
  refine ⟨hrun.1, ?_⟩
  change breakerAt t circuitOpen b attempts (withRetry policy retryAfter draw fn).calls = _
  rw [hrun.2]
  rfl

def Invocation.Answered (i : Invocation) : Prop :=
  ∀ k, (∃ response, (i.attempts k).answer = .returned response) ∨
    ∃ category explanation, (i.attempts k).answer = .raised (.llmRefusal category explanation)

/-- The provider's verdict on an invocation that gets past the budget: is it a refusal? -/
def Invocation.verdict (caps : Caps) (i : Invocation) : Option Bool :=
  match i.check caps, (i.attempts 0).answer with
  | .error _, _ => none
  | .ok _, .raised _ => some true
  | .ok _, _ => some false

def FailsOpen (caps : Caps) (b : CircuitBreaker) (i : Invocation) : Prop :=
  (callLlm caps b i).1 = .error (.failed (.raised .circuitOpen))

theorem callLlm_error {caps : Caps} {b : CircuitBreaker} {i : Invocation} {e : BudgetExceeded}
    (h : i.check caps = .error e) :
    callLlm caps b i = (.error (.budgetExceeded e), b, i.budget) := by
  simp [callLlm, h]

theorem call_turnedAway {t : Thresholds} {circuitOpen : ε} {b : CircuitBreaker} {now later : ℚ}
    {answer : Outcome ε α} (h : answer ≠ .raised circuitOpen) :
    (t.call circuitOpen b now answer later).1 = .raised circuitOpen ↔
      (t.look b now).state = .opened := by
  simp only [Thresholds.call]
  split
  · simp_all
  · cases answer <;> simp_all

theorem callLlm_ok {caps : Caps} {b : CircuitBreaker} {i : Invocation}
    (hcheck : i.check caps = .ok ()) (hanswered : i.Answered) :
    let first := llmThresholds.call .circuitOpen b (i.attempts 0).asked (i.attempts 0).answer
      (i.attempts 0).back
    (callLlm caps b i).2.1 = first.2 ∧
      (FailsOpen caps b i ↔ (llmThresholds.look b (i.attempts 0).asked).state = .opened) := by
  intro first
  have hfinal : llmPolicy.retries first.1 = false := by
    simp only [first, Thresholds.call]
    split
    · rfl
    · rcases hanswered 0 with ⟨response, hresponse⟩ | ⟨category, explanation, hrefusal⟩
      · rw [hresponse]
        rfl
      · rw [hrefusal]
        rfl
  have hanswer : (i.attempts 0).answer ≠ .raised .circuitOpen := by
    rcases hanswered 0 with ⟨response, hresponse⟩ | ⟨category, explanation, hrefusal⟩
    · simp [hresponse]
    · simp [hrefusal]
  obtain ⟨hresult, hbreaker⟩ := withBreaker_first llmThresholds .circuitOpen b i.attempts
    (fun _ => none) i.draw (by decide) hfinal
  rw [FailsOpen, ← call_turnedAway hanswer]
  simp only [callLlm, hcheck, hresult, hbreaker]
  change _ ∧ (_ ↔ first.1 = _)
  cases hfirst : first.1 <;> simp [first, Outcome.final]

theorem Thresholds.call_of_closed {t : Thresholds} {circuitOpen : ε} {b : CircuitBreaker}
    (hclosed : b.state = .closed) (now later : ℚ) (answer : Outcome ε α) :
    (t.call circuitOpen b now answer later).2 =
      match answer with
      | .returned _ => t.onSuccess b
      | .raised _ => t.onFailure b later
      | .cancelled => b := by
  have hlook : t.look b now = b := look_of_ne (by simp [hclosed]) now
  cases answer <;> simp [Thresholds.call, hlook, hclosed]

def afterInvocations (caps : Caps) (b : CircuitBreaker) (l : List Invocation) : CircuitBreaker :=
  Runs.run (fun b i => (callLlm caps b i).2.1) b l

theorem llm_not_opened_iff (caps : Caps) {l : List Invocation} (hl : ∀ i ∈ l, i.Answered) :
    (∀ before after, l = before ++ after → (afterInvocations caps {} before).state ≠ .opened) ↔
      ¬ List.replicate 5 true <:+: l.filterMap (Invocation.verdict caps) := by
  refine stays_closed_iff (t := llmThresholds) (P := fun s => s ≠ .opened) (by simp) (by simp)
    ?_ ?_ ?_ rfl (by decide) hl
  · intro b i hi hclosed hverdict
    cases hcheck : i.check caps with
    | error e => rw [callLlm_error hcheck]
    | ok u => cases hanswer : (i.attempts 0).answer <;> simp [Invocation.verdict, hcheck, hanswer] at hverdict
  · intro b i hi hclosed hverdict
    cases hcheck : i.check caps with
    | error e => simp [Invocation.verdict, hcheck] at hverdict
    | ok u =>
      rw [(callLlm_ok hcheck hi).1, Thresholds.call_of_closed hclosed]
      rcases hi 0 with ⟨response, hresponse⟩ | ⟨category, explanation, hrefusal⟩
      · rw [hresponse]
      · simp [Invocation.verdict, hcheck, hrefusal] at hverdict
  · intro b i hi hclosed hverdict
    cases hcheck : i.check caps with
    | error e => simp [Invocation.verdict, hcheck] at hverdict
    | ok u =>
      rw [(callLlm_ok hcheck hi).1, Thresholds.call_of_closed hclosed]
      rcases hi 0 with ⟨response, hresponse⟩ | ⟨category, explanation, hrefusal⟩
      · simp [Invocation.verdict, hcheck, hresponse] at hverdict
      · rw [hrefusal]
        exact ⟨_, rfl⟩

theorem failsOpen_iff (caps : Caps) (b : CircuitBreaker) :
    (∃ i : Invocation, i.Answered ∧ FailsOpen caps b i) ↔ b.state = .opened := by
  constructor
  · rintro ⟨i, hanswered, hfails⟩
    cases hcheck : i.check caps with
    | error e => simp [FailsOpen, callLlm_error hcheck] at hfails
    | ok u =>
      have hopen := (callLlm_ok hcheck hanswered).2.mp hfails
      by_contra hnot
      rw [look_of_ne hnot] at hopen
      exact hnot hopen
  · intro hopen
    let i : Invocation :=
      { request := opusRequest
        attempts := fun _ => ⟨b.openedAt, .raised (.llmRefusal none none), b.openedAt⟩ }
    have hanswered : i.Answered := fun _ => .inr ⟨none, none, rfl⟩
    have hcheck : i.check caps = .ok () := rfl
    refine ⟨i, hanswered, (callLlm_ok hcheck hanswered).2.mpr ?_⟩
    have hwait : ¬ (30 : ℚ) ≤ 0 := by norm_num
    simp [i, Thresholds.look, hopen, llmThresholds, hwait]

def GithubRequest.refused (r : GithubRequest) : Bool := (r.outcomes 0).refusal?.isSome

/-- GitHub answers with success or with a 4xx that another attempt would not change. -/
def GithubRequest.Answered [Interp] (r : GithubRequest) : Prop :=
  ∀ k, (r.outcomes k).success?.isSome = true ∨ (r.outcomes k).refusal?.isSome = true

def afterRequests [Interp] (b : CircuitBreaker) (l : List GithubRequest) : CircuitBreaker :=
  Runs.run (fun b r => (requestGuarded b r).2) b l

theorem requestGuarded_first [Interp] (b : CircuitBreaker) (r : GithubRequest) :
    (requestGuarded b r).2 = (githubThresholds.call .circuitOpen b (r.asked 0)
      (once (r.outcomes 0)) (r.back 0)).2 :=
  (withBreaker_first githubThresholds RequestError.circuitOpen b r.attempts retryAfter r.draw (by decide)
    (requestPolicy_retries _)).2

theorem github_closed_iff [Interp] {l : List GithubRequest} (hl : ∀ r ∈ l, r.Answered) :
    (∀ before after, l = before ++ after → (afterRequests {} before).state = .closed) ↔
      ¬ List.replicate 5 true <:+: l.map GithubRequest.refused := by
  rw [← List.filterMap_eq_map]
  refine stays_closed_iff (t := githubThresholds) (P := fun s => s = .closed) rfl (by simp)
    ?_ ?_ ?_ rfl (by decide) hl
  · intro b r hr hclosed hverdict
    cases hverdict
  · intro b r hr hclosed hverdict
    have hnot : (r.outcomes 0).refusal?.isSome = false := by simpa [GithubRequest.refused] using hverdict
    obtain ⟨value, hvalue⟩ := Option.isSome_iff_exists.mp ((hr 0).resolve_right (by simp [hnot]))
    rw [requestGuarded_first, Thresholds.call_of_closed hclosed, once_of_success hvalue]
  · intro b r hr hclosed hverdict
    have hrefused : (r.outcomes 0).refusal?.isSome = true := by simpa [GithubRequest.refused] using hverdict
    obtain ⟨status, hstatus⟩ := Option.isSome_iff_exists.mp hrefused
    obtain ⟨message, honce⟩ := once_of_refusal hstatus
    rw [requestGuarded_first, Thresholds.call_of_closed hclosed, honce]
    exact ⟨_, rfl⟩

/-- Of sequences that are all answered: no answered invocation would be turned away at
any point, and GitHub's breaker stays closed, exactly if no five answers in a row are
refusals. -/
theorem verdicts_open_iff [Interp] (caps : Caps) {l : List Invocation}
    (hl : ∀ i ∈ l, i.Answered) {rs : List GithubRequest} (hrs : ∀ r ∈ rs, r.Answered) :
    ((∀ before after, l = before ++ after → ∀ i : Invocation, i.Answered →
        ¬ FailsOpen caps (afterInvocations caps {} before) i) ↔
      ¬ List.replicate 5 true <:+: l.filterMap (Invocation.verdict caps)) ∧
    ((∀ before after, rs = before ++ after → (afterRequests {} before).state = .closed) ↔
      ¬ List.replicate 5 true <:+: rs.map GithubRequest.refused) := by
  refine ⟨?_, github_closed_iff hrs⟩
  rw [← llm_not_opened_iff caps hl]
  refine forall_congr' fun before => forall_congr' fun after => imp_congr_right fun _ => ?_
  rw [ne_eq, ← failsOpen_iff caps]
  simp

/-- Then no invocation of the sequence itself is turned away. -/
theorem not_turned_away (caps : Caps) {l : List Invocation} (hl : ∀ i ∈ l, i.Answered)
    (hverdicts : ¬ List.replicate 5 true <:+: l.filterMap (Invocation.verdict caps))
    {before after : List Invocation} {i : Invocation} (hi : l = before ++ i :: after) :
    ¬ FailsOpen caps (afterInvocations caps {} before) i := by
  intro hfails
  have hanswered : i.Answered := hl i (by simp [hi])
  exact (llm_not_opened_iff caps hl).mpr hverdicts before (i :: after) hi
    ((failsOpen_iff caps _).mp ⟨i, hanswered, hfails⟩)

def invocationAt (now : ℚ) (answer : Outcome LlmRaised LLMResponse) : Invocation where
  request := opusRequest
  attempts := fun _ => ⟨now, answer, now⟩

def llmRefused : Invocation := invocationAt 0 (.raised (.llmRefusal none none))

theorem llmRefused_answered : llmRefused.Answered := fun _ => .inr ⟨none, none, rfl⟩

def unprocessable : GithubRequest where
  asked := fun _ => 0
  outcomes := fun _ => .response { status := 422 }
  back := fun _ => 0

theorem unprocessable_answered [Interp] : unprocessable.Answered := by
  intro k
  refine .inr ?_
  simp [unprocessable, HttpOutcome.refusal?, retryableStatuses]

/-- Five verdicts, and nobody gets to ask any more. -/
theorem verdicts_open :
    let _ := asciiInterp
    llmRefused.Answered ∧ unprocessable.Answered ∧
      FailsOpen {} (afterInvocations {} {} (List.replicate 5 llmRefused)) llmRefused ∧
      (afterRequests {} (List.replicate 5 unprocessable)).state = .opened := by
  intro _
  refine ⟨llmRefused_answered, unprocessable_answered, ?_, ?_⟩
  · have hone (b : CircuitBreaker) : (callLlm {} b llmRefused).2.1 =
        (llmThresholds.call LlmRaised.circuitOpen b 0
          (.raised (.llmRefusal none none) : Outcome LlmRaised LLMResponse) 0).2 :=
      (callLlm_ok rfl llmRefused_answered).1
    refine (callLlm_ok rfl llmRefused_answered).2.mpr ?_
    simp only [afterInvocations, Runs.run, List.replicate, List.foldl, hone]
    decide +kernel
  · have hone (b : CircuitBreaker) : (requestGuarded b unprocessable).2 =
        (githubThresholds.call RequestError.circuitOpen b 0
          (once (.response { status := 422 })) 0).2 := requestGuarded_first b unprocessable
    have honce : once (.response { status := 422 }) = .raised (.gitHubError 422 (upto 300 "")) := by
      simp [once, retryableStatuses]
    simp only [afterRequests, Runs.run, List.replicate, List.foldl, hone, honce]
    rfl

theorem verdicts_open_four :
    let _ := asciiInterp
    let l := List.replicate 4 llmRefused ++
      invocationAt 1 (.returned ⟨"ok", "claude-opus-5", 1, 1, 0, 0⟩) :: List.replicate 4 llmRefused
    (∀ before after, l = before ++ after → ∀ i : Invocation, i.Answered →
        ¬ FailsOpen {} (afterInvocations {} {} before) i) ∧
      ∀ before after, List.replicate 4 unprocessable = before ++ after →
        (afterRequests {} before).state = .closed := by
  intro _ l
  have hl : ∀ i ∈ l, i.Answered := by
    intro i hi
    simp only [l, List.mem_append, List.mem_cons, List.mem_replicate] at hi
    rcases hi with ⟨-, rfl⟩ | rfl | ⟨-, rfl⟩
    · exact llmRefused_answered
    · exact fun _ => .inl ⟨_, rfl⟩
    · exact llmRefused_answered
  have hrs : ∀ r ∈ List.replicate 4 unprocessable, r.Answered := by
    intro r hr
    rw [List.eq_of_mem_replicate hr]
    exact unprocessable_answered
  obtain ⟨hllm, hgithub⟩ := verdicts_open_iff {} hl hrs
  refine ⟨hllm.mpr ?_, hgithub.mpr ?_⟩
  · decide +kernel
  · intro hrow
    have hlength := hrow.length_le
    simp at hlength

end PrSentinel
