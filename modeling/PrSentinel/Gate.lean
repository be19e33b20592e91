import PrSentinel.Aggregator

set_option autoImplicit false

namespace PrSentinel
open Python

structure GateResult where
  decision : Decision
  reason : Option EscalationReason
  postable : List Finding
  priority : ℕ
  explanation : String
  deriving DecidableEq, Repr

def criticalSecurity (f : Finding) : Bool := f.severity = .critical && f.isSecurity

/-- Both bars: the confidence floor and the severity floor. -/
def clears (settings : Settings) (f : Finding) : Bool :=
  settings.findingPostConfidence ≤ f.confidence && settings.postMinSeverity.index ≤ f.severity.index

def heldBack (settings : Settings) (findings : List Finding) : String :=
  let lowConfidence := findings.filter (fun f => f.confidence < settings.findingPostConfidence)
  let lowSeverity := findings.filter (fun f =>
    settings.findingPostConfidence ≤ f.confidence &&
      f.severity.index < settings.postMinSeverity.index)
  let reasons :=
    (if lowConfidence = [] then []
      else [toString lowConfidence.length ++ " below the confidence threshold"]) ++
    (if lowSeverity = [] then []
      else [toString lowSeverity.length ++ " below " ++ settings.postMinSeverity.value ++
        " severity"])
  if reasons = [] then "." else "; held back: " ++ join ", " reasons ++ "."

def disclosedTo (isPublicRepo : Bool) : String :=
  if isPublicRepo then "public repository" else "pull request"

def evaluate (settings : Settings) (findings : List Finding) (verdicts : List AgentVerdict)
    (overall : ℚ) (budgetExhausted isPublicRepo : Bool) : GateResult :=
  let failed := verdicts.filter (fun v => !v.ok)
  let critical := findings.filter criticalSecurity
  let postable := findings.filter (clears settings)
  if budgetExhausted then
    ⟨.escalate, some .budgetExceeded, [], 10,
      "Cost cap reached before the panel finished; review is incomplete."⟩
  else if failed ≠ [] then
    ⟨.escalate, some .agentFailure, [], 20,
      "Incomplete panel — " ++ join ", " (failed.map fun v => v.agent.value) ++ " did not return."⟩
  else if critical ≠ [] ∧ settings.escalateCriticalSecurity then
    ⟨.escalate, some .criticalSecurity, [], 1,
      toString critical.length ++ " critical security finding(s); not posted to the " ++
        disclosedTo isPublicRepo ++
        " to avoid disclosure. Route through the security channel."⟩
  else if postable = [] then
    -- before the confidence test: with nothing to post there is nothing to route to a human
    ⟨.suppress, none, [], 100, "Nothing cleared the per-finding posting threshold. Staying quiet."⟩
  else if overall < settings.autoPostConfidence then
    ⟨.escalate, some .lowConfidence, [], 50,
      "Overall confidence " ++ fixed2 overall ++ " is below the " ++
        fixed2 settings.autoPostConfidence ++ " auto-post threshold."⟩
  else
    ⟨.autoPost, none, postable, 100,
      "Posting " ++ toString postable.length ++ " finding(s)" ++ heldBack settings findings⟩

section Evaluate
variable {settings : Settings} {findings : List Finding} {verdicts : List AgentVerdict}
  {overall : ℚ} {budgetExhausted isPublicRepo : Bool}

/-- The three vetoes come before any confidence is looked at. -/
theorem evaluate_decision :
    (evaluate settings findings verdicts overall budgetExhausted isPublicRepo).decision =
      if budgetExhausted = true ∨ (∃ v ∈ verdicts, v.ok = false) ∨
          ((∃ f ∈ findings, criticalSecurity f = true) ∧
            settings.escalateCriticalSecurity = true) then .escalate
      else if ∀ f ∈ findings, clears settings f = false then .suppress
      else if overall < settings.autoPostConfidence then .escalate
      else .autoPost := by
  have hfailed : verdicts.filter (fun v => !v.ok) ≠ [] ↔ ∃ v ∈ verdicts, v.ok = false := by
    simp [List.filter_eq_nil_iff]
  have hcritical : findings.filter criticalSecurity ≠ [] ↔
      ∃ f ∈ findings, criticalSecurity f = true := by
    simp [List.filter_eq_nil_iff]
  have hpostable : findings.filter (clears settings) = [] ↔
      ∀ f ∈ findings, clears settings f = false := by
    simp [List.filter_eq_nil_iff]
  simp only [evaluate, hfailed, hcritical, hpostable]
  cases budgetExhausted with
  | true => simp
  | false =>
    by_cases hf : ∃ v ∈ verdicts, v.ok = false
    · simp [hf]
    by_cases hc : (∃ f ∈ findings, criticalSecurity f = true) ∧
        settings.escalateCriticalSecurity = true
    · simp only [hf, hc, Bool.false_eq_true, and_self, or_true, reduceIte]
    · simp only [hf, hc, Bool.false_eq_true, or_self, reduceIte]
      split_ifs <;> rfl

theorem evaluate_postable :
    (evaluate settings findings verdicts overall budgetExhausted isPublicRepo).postable =
      if (evaluate settings findings verdicts overall budgetExhausted isPublicRepo).decision =
        .autoPost then findings.filter (clears settings) else [] := by
  simp only [evaluate]
  split_ifs <;> first | rfl | contradiction

theorem evaluate_of_failed {v : AgentVerdict} (hv : v ∈ verdicts) (hfailed : v.ok = false) :
    (evaluate settings findings verdicts overall budgetExhausted isPublicRepo).decision =
      .escalate := by
  rw [evaluate_decision, if_pos (.inr (.inl ⟨v, hv, hfailed⟩))]

theorem ok_of_not_escalate
    (h : (evaluate settings findings verdicts overall budgetExhausted isPublicRepo).decision ≠
      .escalate) : ∀ v ∈ verdicts, v.ok = true := by
  intro v hv
  cases hok : v.ok with
  | true => rfl
  | false => exact absurd (evaluate_of_failed hv hok) h

end Evaluate

def gate [Interp] (settings : Settings) (verdicts : List AgentVerdict)
    (budgetExhausted isPublicRepo : Bool) : GateResult :=
  let report := aggregate settings verdicts
  evaluate settings report.1 verdicts report.2 budgetExhausted isPublicRepo

theorem gate_postable [Interp] (settings : Settings) (verdicts : List AgentVerdict)
    (budgetExhausted isPublicRepo : Bool) :
    (gate settings verdicts budgetExhausted isPublicRepo).postable =
      if (gate settings verdicts budgetExhausted isPublicRepo).decision = .autoPost then
        (aggregate settings verdicts).1.filter (clears settings) else [] :=
  evaluate_postable

/-- As `_run` asks for it: a verdict that was denied its budget exhausts the review's. -/
def panelGate [Interp] (settings : Settings) (verdicts : List AgentVerdict)
    (budgetExhausted isPublicRepo : Bool) : GateResult :=
  gate settings verdicts (budgetExhausted || verdicts.any (fun v => v.status = .budgetDenied))
    isPublicRepo

theorem panelGate_postable_ne_nil [Interp] {settings : Settings} {verdicts : List AgentVerdict}
    {budgetExhausted isPublicRepo : Bool}
    (h : (panelGate settings verdicts budgetExhausted isPublicRepo).decision = .autoPost) :
    (panelGate settings verdicts budgetExhausted isPublicRepo).postable ≠ [] := by
  rw [panelGate] at h ⊢
  rw [gate_postable, if_pos h]
  intro hnone
  rw [gate, evaluate_decision] at h
  split_ifs at h with hveto hsilent
  exact hsilent fun f hf => by simpa using List.filter_eq_nil_iff.mp hnone f hf

theorem panelGate_budgetExhausted [Interp] (settings : Settings) (verdicts : List AgentVerdict)
    (isPublicRepo : Bool) : (panelGate settings verdicts true isPublicRepo).decision = .escalate := by
  simp [panelGate, gate, evaluate_decision]

def renderReviewBody (postable : List Finding) (summary : String) (heldBack : ℤ) (bundle : String) :
    String :=
  let agreed := postable.filter (fun f => 1 < f.agreeing.length)
  "### pr-sentinel review\n\n" ++ summary ++ ". " ++ toString postable.length ++
    " comment(s) below." ++
    (if heldBack = 0 then ""
      else " " ++ toString heldBack ++ " lower-confidence observation(s) withheld.") ++
    (if agreed = [] then ""
      else "\n\n" ++ toString agreed.length ++ " finding(s) were raised independently by more " ++
        "than one specialist, which is the strongest signal this tool produces.") ++
    "\n\n<sub>Advisory only — this review never blocks a merge. " ++
    "Reply to any comment to dispute it; disputes are recorded. Prompt bundle `" ++ bundle ++
    "`.</sub>"

end PrSentinel
