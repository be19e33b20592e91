import Mathlib.Data.List.InsertIdx
import PrSentinel.Llm
import PrSentinel.Reserve

/-!
The cost guard: two ceilings checked before every model call, against a total that
is only charged when the call has come back.
-/

set_option autoImplicit false

namespace PrSentinel

structure LLMRequest where
  system : String
  user : String
  model : String
  maxTokens : ℕ := 16000
  deriving DecidableEq, Repr

/-- `_worst_case_cost`: four characters of prompt to a token. -/
def worstCaseCost (r : LLMRequest) : ℚ :=
  let approxInput : ℕ := r.system.length / 4 + r.user.length / 4
  estimateCost r.model approxInput r.maxTokens 0 0

structure Caps where
  reviewCostCapUsd : ℚ := 150 / 100
  dailyCostCapUsd : ℚ := 25

structure BudgetExceeded where
  scope : String
  spent : ℚ
  cap : ℚ
  deriving DecidableEq, Repr

structure BudgetGuard where
  daySpent : ℚ := 0
  reviewSpent : ℚ := 0
  enabled : Bool := true
  deriving DecidableEq, Repr

namespace BudgetGuard

/-- `load`: a failed read of today's spending fails open. -/
def load (spentToday : Option ℚ) : BudgetGuard := { daySpent := spentToday.getD 0 }

def check (caps : Caps) (guard : BudgetGuard) (estimatedUsd : ℚ) : Except BudgetExceeded Unit :=
  if !guard.enabled then .ok ()
  else if caps.reviewCostCapUsd < guard.reviewSpent + estimatedUsd then
    .error ⟨"review", guard.reviewSpent, caps.reviewCostCapUsd⟩
  else if caps.dailyCostCapUsd < guard.daySpent + guard.reviewSpent + estimatedUsd then
    .error ⟨"daily", guard.daySpent + guard.reviewSpent, caps.dailyCostCapUsd⟩
  else .ok ()

def charge (guard : BudgetGuard) (usd : ℚ) : BudgetGuard :=
  { guard with reviewSpent := guard.reviewSpent + usd }

end BudgetGuard

theorem specFor_nonneg (model : String) :
    0 ≤ (specFor model).inputPerMtok ∧ 0 ≤ (specFor model).outputPerMtok := by
  unfold specFor
  split
  · rename_i m hm
    have hall : ∀ m ∈ models, 0 ≤ m.2.inputPerMtok ∧ 0 ≤ m.2.outputPerMtok := by
      simp [models]
    exact hall m (List.mem_of_find?_eq_some hm)
  · norm_num

theorem worstCaseCost_nonneg (r : LLMRequest) : 0 ≤ worstCaseCost r := by
  obtain ⟨hin, hout⟩ := specFor_nonneg r.model
  simp only [worstCaseCost, estimateCost, Int.cast_natCast, Int.cast_zero, zero_mul, add_zero]
  positivity

def LLMRequest.approxInput (r : LLMRequest) : ℕ := r.system.length / 4 + r.user.length / 4

def LLMResponse.promptTokens (x : LLMResponse) : ℤ :=
  x.inputTokens + x.cachedReadTokens + x.cacheWriteTokens

/-- The response stays under the worst case of its request, and past the check it keeps the cap. -/
structure Foreseen (r : LLMRequest) (x : LLMResponse) : Prop where
  cost : x.costUsd ≤ worstCaseCost r
  cap : ∀ (caps : Caps) (guard : BudgetGuard), guard.enabled = true →
    guard.check caps (worstCaseCost r) = .ok () →
    (guard.charge x.costUsd).reviewSpent ≤ caps.reviewCostCapUsd

theorem specFor_ratio (model : String) : 0 < (specFor model).inputPerMtok ∧
    (specFor model).outputPerMtok = 5 * (specFor model).inputPerMtok := by
  unfold specFor
  split
  · rename_i m hm
    have hall : ∀ m ∈ models, 0 < m.2.inputPerMtok ∧ m.2.outputPerMtok = 5 * m.2.inputPerMtok := by
      decide +kernel
    exact hall m (List.mem_of_find?_eq_some hm)
  · norm_num

theorem costUsd_eq (x : LLMResponse) : x.costUsd = (x.inputTokens + 5 * x.outputTokens +
    x.cachedReadTokens / 10 + 5 * x.cacheWriteTokens / 4) *
      ((specFor x.model).inputPerMtok / 1000000) := by
  simp only [LLMResponse.costUsd, estimateCost, (specFor_ratio x.model).2, cacheReadMultiplier,
    cacheWriteMultiplier]
  ring

theorem worstCaseCost_eq (r : LLMRequest) : worstCaseCost r =
    (r.approxInput + 5 * r.maxTokens) * ((specFor r.model).inputPerMtok / 1000000) := by
  simp only [worstCaseCost, estimateCost, (specFor_ratio r.model).2, LLMRequest.approxInput,
    Int.cast_natCast, Int.cast_zero, zero_mul, add_zero]
  ring

theorem check_spares {caps : Caps} {guard : BudgetGuard} {estimate : ℚ}
    (henabled : guard.enabled = true) (h : guard.check caps estimate = .ok ()) :
    guard.reviewSpent + estimate ≤ caps.reviewCostCapUsd := by
  rw [BudgetGuard.check, henabled] at h
  by_contra hover
  simp [not_le.mp hover] at h

/-- The estimate forgets that writing the cache costs a quarter more than input: it holds
as long as that much is saved elsewhere. -/
theorem foreseen_iff {r : LLMRequest} {x : LLMResponse} (hmodel : x.model = r.model) :
    Foreseen r x ↔ 5 * x.cacheWriteTokens ≤ 20 * (r.approxInput - x.promptTokens) +
      18 * x.cachedReadTokens + 100 * (r.maxTokens - x.outputTokens) := by
  have hprice := div_pos (specFor_ratio r.model).1 (by norm_num : (0 : ℚ) < 1000000)
  have hcost : x.costUsd ≤ worstCaseCost r ↔ 5 * x.cacheWriteTokens ≤
      20 * (r.approxInput - x.promptTokens) + 18 * x.cachedReadTokens +
        100 * (r.maxTokens - x.outputTokens) := by
    rw [costUsd_eq, worstCaseCost_eq, hmodel, mul_le_mul_iff_left₀ hprice, LLMResponse.promptTokens,
      ← Int.cast_le (R := ℚ)]
    push_cast
    constructor <;> intro h <;> linarith
  rw [← hcost]
  refine ⟨Foreseen.cost, fun h => ⟨h, fun caps guard henabled hcheck => ?_⟩⟩
  have hspares := check_spares henabled hcheck
  rw [BudgetGuard.charge]
  dsimp only
  linarith

/-- Half of the prompt is read from the cache, and little is written to it. -/
theorem cached_prompt_foreseen :
    Foreseen ⟨"You are a reviewer.", "# Pull request", "claude-opus-5", 100⟩
      { text := "", model := "claude-opus-5", cachedReadTokens := 4, cacheWriteTokens := 3,
        outputTokens := 100 } :=
  (foreseen_iff rfl).mpr (by decide)

/-- The whole prompt is written to the cache, and the output goes to its limit. -/
theorem cache_write_unforeseen : ¬ ∀ (r : LLMRequest) (x : LLMResponse), x.model = r.model →
    x.promptTokens ≤ r.approxInput → x.outputTokens ≤ r.maxTokens → Foreseen r x := by
  intro h
  have hcost := (h ⟨"You are a reviewer.", "# Pull request", "claude-opus-5", 100⟩
    { text := "", model := "claude-opus-5", cacheWriteTokens := 7, outputTokens := 100 }
    rfl (by decide) le_rfl).cost
  exact absurd hcost (by decide +kernel)

/-- A guard, and the calls past its check that have not come back. -/
structure SharedGuard where
  guard : BudgetGuard := {}
  inFlight : List LLMRequest := []

/-- A step of some `call_llm`: its check, its charge, or an exception of the provider. -/
inductive CallEvent where
  | check (request : LLMRequest)
  | charge (i : ℕ) (costUsd : ℚ)
  | fail (i : ℕ)

namespace SharedGuard

def step (caps : Caps) (s : SharedGuard) : CallEvent → SharedGuard
  | .check r =>
    match s.guard.check caps (worstCaseCost r) with
    | .ok _ => { s with inFlight := s.inFlight ++ [r] }
    | .error _ => s
  | .charge i costUsd =>
    match s.inFlight[i]? with
    | some _ => ⟨s.guard.charge costUsd, s.inFlight.eraseIdx i⟩
    | none => s
  | .fail i => { s with inFlight := s.inFlight.eraseIdx i }

def Honest (s : SharedGuard) : CallEvent → Prop
  | .charge i costUsd => ∀ r ∈ s.inFlight[i]?, costUsd ≤ worstCaseCost r
  | _ => True

instance (s : SharedGuard) : ∀ e, Decidable (s.Honest e)
  | .charge i costUsd => inferInstanceAs (Decidable (∀ r ∈ s.inFlight[i]?, costUsd ≤ worstCaseCost r))
  | .check _ | .fail _ => .isTrue trivial

def mayCost (s : SharedGuard) : ℚ := (s.inFlight.map worstCaseCost).sum

def Roomy (caps : Caps) (s : SharedGuard) : CallEvent → Prop
  | .check r => (s.guard.check caps (worstCaseCost r)).isOk = true →
    s.guard.reviewSpent + s.mayCost + worstCaseCost r ≤ caps.reviewCostCapUsd
  | _ => True

instance (caps : Caps) (s : SharedGuard) : ∀ e, Decidable (s.Roomy caps e)
  | .check _ => inferInstanceAs (Decidable (_ = true → _ ≤ _))
  | .charge _ _ | .fail _ => .isTrue trivial

/-- The account the guard keeps, after these earlier charges. -/
def account (earlier : ℚ) (s : SharedGuard) : Reserve.Account ℚ :=
  ⟨earlier + s.guard.reviewSpent, s.inFlight.map worstCaseCost⟩

def reserves (caps : Caps) (s : SharedGuard) : CallEvent → Option (Reserve.Event ℚ)
  | .check r =>
    match s.guard.check caps (worstCaseCost r) with
    | .ok _ => some (.hold (worstCaseCost r))
    | .error _ => none
  | .charge i costUsd => some (.settle i costUsd)
  | .fail i => some (.release i)

theorem account_step (caps : Caps) (earlier : ℚ) (s : SharedGuard) (e : CallEvent) :
    (s.step caps e).account earlier =
      (s.reserves caps e).elim (s.account earlier) (s.account earlier).step := by
  cases e with
  | check r =>
    simp only [step, reserves]
    split <;> simp [account, Reserve.Account.step]
  | charge i costUsd =>
    simp only [step, reserves, account, Option.elim_some, Reserve.Account.step, List.getElem?_map]
    cases s.inFlight[i]? with
    | none => rfl
    | some r => simp [BudgetGuard.charge, List.eraseIdx_map, add_assoc]
  | fail i => simp [step, reserves, account, Reserve.Account.step, List.eraseIdx_map]

theorem honest_reserves (caps : Caps) (earlier : ℚ) {s : SharedGuard} {e : CallEvent}
    {x : Reserve.Event ℚ} (h : s.Honest e) (hx : s.reserves caps e = some x) :
    (s.account earlier).Honest x := by
  cases e with
  | check r =>
    simp only [reserves] at hx
    split at hx
    · cases hx
      exact worstCaseCost_nonneg r
    · cases hx
  | charge i costUsd =>
    cases hx
    intro y hy
    simp only [account, List.getElem?_map, Option.map_eq_some_iff] at hy
    obtain ⟨r, hr, rfl⟩ := hy
    exact h r hr
  | fail i =>
    cases hx
    trivial

theorem honest_charge {earlier : ℚ} {s : SharedGuard} {i : ℕ} {costUsd : ℚ}
    (h : (s.account earlier).Honest (.settle i costUsd)) : s.Honest (.charge i costUsd) := by
  intro r hr
  refine h (worstCaseCost r) ?_
  rw [account, List.getElem?_map, Option.mem_def.mp hr]
  rfl

def simulation (caps : Caps) : Reserve.Simulation (step caps) Honest ℚ where
  account := account 0
  event := reserves caps
  settle := .charge
  account_step := account_step caps 0
  honest _ _ _ := honest_reserves caps 0
  event_settle _ _ _ := rfl
  legal_settle _ _ _ := honest_charge

theorem roomy_iff_reserves (caps : Caps) (s : SharedGuard) (e : CallEvent) :
    s.Roomy caps e ↔ ∀ x, s.reserves caps e = some x →
      (s.account 0).Roomy caps.reviewCostCapUsd x := by
  cases e with
  | check r =>
    simp only [Roomy, reserves]
    cases hcheck : s.guard.check caps (worstCaseCost r) with
    | ok u => simp [Except.isOk, Except.toBool, Reserve.Account.Roomy, Reserve.Account.committed, account, mayCost]
    | error e => simp [Except.isOk, Except.toBool]
  | charge i costUsd => simp [Roomy, reserves, Reserve.Account.Roomy]
  | fail i => simp [Roomy, reserves, Reserve.Account.Roomy]

/-- Over every interleaving of calls that cost at most their worst case: the cap is
kept in every state, however the calls then in flight turn out, exactly when every
check that passes leaves room for the calls already in flight. -/
theorem panel_cap_iff (caps : Caps) (start : SharedGuard) (hidle : start.inFlight = [])
    (hcap : start.guard.reviewSpent ≤ caps.reviewCostCapUsd) (events : List CallEvent)
    (hhonest : Runs.Throughout (step caps) Honest start events) :
    (∀ before after, events = before ++ after → ∀ charges : List (ℕ × ℚ),
      Runs.Throughout (step caps) Honest (Runs.run (step caps) start before)
        (charges.map fun c => .charge c.1 c.2) →
      (Runs.run (step caps) (Runs.run (step caps) start before)
        (charges.map fun c => .charge c.1 c.2)).guard.reviewSpent ≤ caps.reviewCostCapUsd) ↔
    Runs.Throughout (step caps) (Roomy caps) start events := by
  have hwithin := (simulation caps).within_iff (fun s e _ => roomy_iff_reserves caps s e) ?_ ?_
    hhonest
  · simpa [simulation, account] using hwithin
  · simp [simulation, account, hidle, Reserve.Account.Covered]
  · simpa [simulation, account, hidle, Reserve.Account.committed] using hcap

end SharedGuard

def opusRequest : LLMRequest where
  system := "You are a security reviewer."
  user := "# Pull request"
  model := "claude-opus-5"

/-- Four agents ask at once; each of them alone would have been within the cap. -/
theorem cap_exceeded :
    let events := List.replicate 4 (CallEvent.check opusRequest) ++
      List.replicate 4 (.charge 0 (4 / 10))
    Runs.Throughout (SharedGuard.step {}) SharedGuard.Honest {} events ∧
      ({} : Caps).reviewCostCapUsd < (Runs.run (SharedGuard.step {}) {} events).guard.reviewSpent := by
  decide +kernel

/-- Three of them fit together. -/
theorem cap_kept_together :
    let events := List.replicate 3 (CallEvent.check opusRequest) ++
      List.replicate 3 (.charge 0 (4 / 10))
    (Runs.run (SharedGuard.step {}) {} events).guard.reviewSpent = 12 / 10 ∧
      ∀ before after, events = before ++ after →
        (Runs.run (SharedGuard.step {}) {} before).guard.reviewSpent ≤
          ({} : Caps).reviewCostCapUsd := by
  intro events
  refine ⟨by decide +kernel, fun before after heq => ?_⟩
  exact (SharedGuard.panel_cap_iff {} {} rfl (by norm_num) events (by decide +kernel)).mpr
    (by decide +kernel) before after heq [] trivial

/-- What earlier attempts at the review were charged, and the guard of this one. -/
structure Spending where
  earlier : ℚ := 0
  current : SharedGuard := {}

/-- An attempt begins with a guard of its own, which the last one's crash leaves behind. -/
inductive AttemptEvent where
  | load (spentToday : Option ℚ)
  | call (e : CallEvent)

namespace Spending

def step (caps : Caps) (s : Spending) : AttemptEvent → Spending
  | .load spentToday => ⟨s.earlier + s.current.guard.reviewSpent, { guard := .load spentToday }⟩
  | .call e => { s with current := s.current.step caps e }

def total (s : Spending) : ℚ := s.earlier + s.current.guard.reviewSpent

def InTurn (s : Spending) : AttemptEvent → Prop
  | .load _ => True
  | .call (.check _) => s.current.inFlight = []
  | .call e => s.current.Honest e

instance (s : Spending) : ∀ e, Decidable (s.InTurn e)
  | .load _ => .isTrue trivial
  | .call (.check _) => inferInstanceAs (Decidable (s.current.inFlight = []))
  | .call (.charge i costUsd) => inferInstanceAs (Decidable (s.current.Honest (.charge i costUsd)))
  | .call (.fail _) => .isTrue trivial

/-- A check that passes would pass against the charges of every attempt. -/
def Reloaded (caps : Caps) (s : Spending) : AttemptEvent → Prop
  | .call (.check r) => (s.current.guard.check caps (worstCaseCost r)).isOk = true →
    s.total + worstCaseCost r ≤ caps.reviewCostCapUsd
  | _ => True

instance (caps : Caps) (s : Spending) : ∀ e, Decidable (s.Reloaded caps e)
  | .call (.check _) => inferInstanceAs (Decidable (_ = true → _ ≤ _))
  | .call (.charge _ _) | .call (.fail _) | .load _ => .isTrue trivial

def reserves (caps : Caps) (s : Spending) : AttemptEvent → Option (Reserve.Event ℚ)
  | .load _ => some .clear
  | .call e => s.current.reserves caps e

theorem InTurn.honest {s : Spending} {e : CallEvent} (h : s.InTurn (.call e)) :
    s.current.Honest e := by
  cases e with
  | check r => trivial
  | charge i costUsd => exact h
  | fail i => trivial

def simulation (caps : Caps) : Reserve.Simulation (step caps) InTurn ℚ where
  account s := s.current.account s.earlier
  event := reserves caps
  settle i costUsd := .call (.charge i costUsd)
  account_step s e := by
    cases e with
    | load spentToday => simp [step, reserves, SharedGuard.account, Reserve.Account.step, BudgetGuard.load]
    | call e => exact SharedGuard.account_step caps s.earlier s.current e
  honest s e x h hx := by
    cases e with
    | load spentToday =>
      cases hx
      trivial
    | call e => exact SharedGuard.honest_reserves caps s.earlier h.honest hx
  event_settle _ _ _ := rfl
  legal_settle _ _ _ := SharedGuard.honest_charge

theorem reloaded_iff_reserves (caps : Caps) {s : Spending} {e : AttemptEvent} (h : s.InTurn e) :
    s.Reloaded caps e ↔ ∀ x, s.reserves caps e = some x →
      (s.current.account s.earlier).Roomy caps.reviewCostCapUsd x := by
  cases e with
  | load spentToday => simp [Reloaded, reserves, Reserve.Account.Roomy]
  | call e =>
    cases e with
    | check r =>
      have hidle : s.current.inFlight = [] := h
      simp only [Reloaded, reserves, SharedGuard.reserves, total]
      cases hcheck : s.current.guard.check caps (worstCaseCost r) with
      | ok u => simp [Except.isOk, Except.toBool, Reserve.Account.Roomy, Reserve.Account.committed,
          SharedGuard.account, hidle]
      | error e => simp [Except.isOk, Except.toBool]
    | charge i costUsd => simp [Reloaded, reserves, SharedGuard.reserves, Reserve.Account.Roomy]
    | fail i => simp [Reloaded, reserves, SharedGuard.reserves, Reserve.Account.Roomy]

/-- Over every sequence of attempts at a review, each making its calls in turn: all
charges together stay under the cap, however the call then in flight turns out,
exactly when every check that passes would have passed against all earlier charges. -/
theorem review_cap_iff (caps : Caps) (start : Spending) (hidle : start.current.inFlight = [])
    (hcap : start.total ≤ caps.reviewCostCapUsd) (events : List AttemptEvent)
    (hturn : Runs.Throughout (step caps) InTurn start events) :
    (∀ before after, events = before ++ after → ∀ charges : List (ℕ × ℚ),
      Runs.Throughout (step caps) InTurn (Runs.run (step caps) start before)
        (charges.map fun c => .call (.charge c.1 c.2)) →
      (Runs.run (step caps) (Runs.run (step caps) start before)
        (charges.map fun c => .call (.charge c.1 c.2))).total ≤ caps.reviewCostCapUsd) ↔
    Runs.Throughout (step caps) (Reloaded caps) start events := by
  refine (simulation caps).within_iff (fun s e h => reloaded_iff_reserves caps h) ?_ ?_ hturn
  · simp [simulation, SharedGuard.account, hidle, Reserve.Account.Covered]
  · simpa [simulation, SharedGuard.account, hidle, Reserve.Account.committed, total] using hcap

end Spending

def crashedAttempt : List AttemptEvent :=
  .load none :: (List.replicate 3 [.call (.check opusRequest), .call (.charge 0 (4 / 10))]).flatten

/-- Each of the two attempts stays within the cap by its own count. -/
theorem cap_exceeded_by_retry :
    let events := crashedAttempt ++ crashedAttempt
    Runs.Throughout (Spending.step {}) Spending.InTurn {} events ∧
      ({} : Caps).reviewCostCapUsd < (Runs.run (Spending.step {}) {} events).total := by
  decide +kernel

theorem cap_kept_by_cheap_retry :
    let events : List AttemptEvent := [.load none, .call (.check opusRequest),
      .call (.charge 0 (4 / 10)), .load none, .call (.check opusRequest)]
    (Runs.run (Spending.step {}) {} events).total ≤ ({} : Caps).reviewCostCapUsd := by
  intro events
  exact (Spending.review_cap_iff {} {} rfl (by decide +kernel) events (by decide +kernel)).mpr
    (by decide +kernel) events [] (List.append_nil _).symm [] trivial

end PrSentinel
