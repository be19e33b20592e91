import PrSentinel.FullPanel

set_option autoImplicit false

namespace PrSentinel.EvalRuns
open Python PrSentinel

inductive EvalRunFailed where
  | outage (dead cases : ℕ)
  | degraded (lost calls : ℕ)
  deriving DecidableEq, Repr

def EvalRunFailed.message : EvalRunFailed → String
  | .outage dead cases =>
    toString dead ++ " of " ++ toString cases ++ " case(s) lost their whole panel — this is an " ++
      "outage, not a result, and the cases that did run are whichever ones got " ++
      "in first. Nothing was scored or saved. Check the worker log for the " ++
      "provider error (an exhausted credit balance looks exactly like this)."
  | .degraded lost calls =>
    toString lost ++ " of " ++ toString calls ++ " agent call(s) failed (" ++
      toString (roundHalfEven (lost / calls * 100 : ℚ)) ++ "%) — the panel was " ++
      "degraded across the run, so the findings are whichever agents happened to " ++
      "answer. Nothing was scored or saved. Check the worker log for the provider " ++
      "error (an exhausted credit balance looks exactly like this)."

def outageThreshold : ℚ := 1 / 4
def degradedThreshold : ℚ := 1 / 10

/-- The cases whose whole panel was lost. -/
def dead (results : List CaseResult) : ℕ :=
  results.countP fun r => r.failedAgents.length = allAgents.length

def lostCalls (results : List CaseResult) : ℕ := (results.map fun r => r.failedAgents.length).sum

def callsOf (results : List CaseResult) : ℕ := results.length * allAgents.length

/-- `_refuse_if_everything_failed`; `none` where it lets the run pass. -/
def refusal (results : List CaseResult) : Option EvalRunFailed :=
  if results = [] then none
  else if dead results ≠ 0 ∧ outageThreshold < (dead results : ℚ) / results.length then
    some (.outage (dead results) results.length)
  else if callsOf results ≠ 0 ∧ degradedThreshold < (lostCalls results : ℚ) / callsOf results then
    some (.degraded (lostCalls results) (callsOf results))
  else none

inductive RunError where
  | outage (e : EvalRunFailed)
  | raised (e : Exc)
  deriving DecidableEq, Repr

section Loop
variable (provider : String) (models : List (String × String))

/-- The loop of `run_eval`, with the reports there are so far; a run is what its cases gave, or
what one of them raised. -/
def runLoop (reports : List EvalReport) :
    List (Except Exc (List CaseResult)) → Except RunError (List EvalReport)
  | [] => .ok reports
  | .error e :: _ => .error (.raised e)
  | .ok results :: runs =>
    match refusal results with
    | some e => if reports = [] then .error (.outage e) else .ok reports
    | none => runLoop (reports ++ [score results provider models]) runs

def runEval (runs : List (Except Exc (List CaseResult))) : Except RunError (List EvalReport) :=
  runLoop provider models [] runs

end Loop

theorem dead_le_lost (results : List CaseResult) : 4 * dead results ≤ lostCalls results := by
  induction results with
  | nil => exact le_rfl
  | cons r results ih =>
    have hpanel : allAgents.length = 4 := rfl
    simp only [dead, lostCalls, List.countP_cons, List.map_cons, List.sum_cons] at ih ⊢
    split
    · rename_i hdead
      have hdead := of_decide_eq_true hdead
      omega
    · omega

theorem lost_share_iff {results : List CaseResult} (hne : results ≠ []) :
    degradedThreshold < (lostCalls results : ℚ) / callsOf results ↔
      4 * results.length < 10 * lostCalls results := by
  have hpanel : callsOf results = results.length * 4 := rfl
  have hpos : (0 : ℚ) < callsOf results := by
    rw [hpanel]
    exact_mod_cast Nat.mul_pos (List.length_pos_of_ne_nil hne) (by decide)
  rw [degradedThreshold, lt_div_iff₀ hpos, hpanel, ← Nat.cast_lt (α := ℚ)]
  push_cast
  constructor <;> intro h <;> linarith

/-- The whole-panel test only words the refusal: what it would refuse is refused anyway. -/
theorem refused_iff (results : List CaseResult) :
    refusal results ≠ none ↔ 4 * results.length < 10 * lostCalls results := by
  by_cases hne : results = []
  · subst hne
    simp [refusal, lostCalls]
  · have hlength : 0 < results.length := List.length_pos_of_ne_nil hne
    have hcalls : callsOf results ≠ 0 := (Nat.mul_pos hlength (by decide)).ne'
    unfold refusal
    rw [if_neg hne]
    split
    · rename_i hout
      have hquarter : (results.length : ℚ) < 4 * dead results := by
        have hshare := (lt_div_iff₀ (by exact_mod_cast hlength)).mp hout.2
        rw [outageThreshold] at hshare
        linarith
      have hcount : results.length < 4 * dead results := by exact_mod_cast hquarter
      have hdead := dead_le_lost results
      exact iff_of_true (Option.some_ne_none _) (by omega)
    · rw [← lost_share_iff hne]
      split
      · rename_i hlost
        exact iff_of_true (Option.some_ne_none _) hlost.2
      · rename_i hkept
        exact iff_of_false (not_not.mpr rfl) fun hlost => hkept ⟨hcalls, hlost⟩

def Accepted (results : List CaseResult) : Prop := refusal results = none

/-- Where a run ends without all of its repetitions: behind the first that was refused, unless
that is the very first. -/
def Stopped (kept : List (List CaseResult)) : List (Except Exc (List CaseResult)) → Prop
  | [] => True
  | .error _ :: _ => False
  | .ok results :: _ => kept ≠ [] ∧ ¬ Accepted results

section Loop
variable (provider : String) (models : List (String × String))

theorem runLoop_ok_iff {before : List (List CaseResult)}
    {runs : List (Except Exc (List CaseResult))} {reports : List EvalReport} :
    runLoop provider models (before.map fun results => score results provider models) runs =
      .ok reports ↔
    ∃ kept rest, runs = kept.map .ok ++ rest ∧ (∀ results ∈ kept, Accepted results) ∧
      Stopped (before ++ kept) rest ∧
      reports = (before ++ kept).map fun results => score results provider models := by
  induction runs generalizing before with
  | nil =>
    constructor
    · rintro h
      cases h
      exact ⟨[], [], rfl, by simp, trivial, by simp⟩
    · rintro ⟨kept, rest, hruns, -, -, rfl⟩
      obtain ⟨hkept, -⟩ := List.append_eq_nil_iff.mp hruns.symm
      obtain rfl := List.map_eq_nil_iff.mp hkept
      simp [runLoop]
  | cons run runs ih =>
    cases run with
    | error e =>
      refine iff_of_false (fun h => by cases h) ?_
      rintro ⟨kept, rest, hruns, -, hstopped, -⟩
      cases kept with
      | nil =>
        rw [List.map_nil, List.nil_append] at hruns
        subst hruns
        exact hstopped
      | cons => cases (List.cons.inj hruns).1
    | ok results =>
      cases hrefused : refusal results with
      | none =>
        have hnext : runLoop provider models
            (before.map fun results => score results provider models) (.ok results :: runs) =
            runLoop provider models
              ((before ++ [results]).map fun results => score results provider models) runs := by
          simp [runLoop, hrefused]
        rw [hnext, ih]
        constructor
        · rintro ⟨kept, rest, rfl, hkept, hstopped, hreports⟩
          refine ⟨results :: kept, rest, rfl, ?_, ?_, ?_⟩
          · simpa [Accepted, hrefused] using hkept
          · simpa using hstopped
          · simpa using hreports
        · rintro ⟨kept, rest, hruns, hkept, hstopped, hreports⟩
          cases kept with
          | nil =>
            rw [List.map_nil, List.nil_append] at hruns
            subst hruns
            exact absurd hrefused hstopped.2
          | cons first kept =>
            obtain ⟨hfirst, htail⟩ := List.cons.inj hruns
            cases hfirst
            refine ⟨kept, rest, htail, fun r hr => hkept r (List.mem_cons_of_mem _ hr), ?_, ?_⟩
            · simpa using hstopped
            · simpa using hreports
      | some e =>
        have hstop : runLoop provider models
            (before.map fun results => score results provider models) (.ok results :: runs) =
            if before = [] then .error (.outage e)
            else .ok (before.map fun results => score results provider models) := by
          simp [runLoop, hrefused]
        have hnot : ¬ Accepted results := by simp [Accepted, hrefused]
        rw [hstop]
        constructor
        · intro h
          split at h
          · cases h
          · rename_i hbefore
            cases h
            exact ⟨[], .ok results :: runs, rfl, by simp, ⟨by simpa using hbefore, hnot⟩, by simp⟩
        · rintro ⟨kept, rest, hruns, hkept, hstopped, hreports⟩
          cases kept with
          | nil =>
            rw [List.map_nil, List.nil_append] at hruns
            subst hruns
            rw [List.append_nil] at hstopped hreports
            rw [if_neg hstopped.1, hreports]
          | cons first kept =>
            cases (List.cons.inj hruns).1
            exact absurd (hkept results List.mem_cons_self) hnot

/-- What `run_eval` returns are the scores of the runs up to the first that was refused. The
first run is not kept when it is, and nothing is when a case raises. -/
theorem runEval_ok_iff (runs : List (Except Exc (List CaseResult))) (reports : List EvalReport) :
    runEval provider models runs = .ok reports ↔
      ∃ kept rest, runs = kept.map .ok ++ rest ∧ (∀ results ∈ kept, Accepted results) ∧
        Stopped kept rest ∧ reports = kept.map fun results => score results provider models :=
  @runLoop_ok_iff provider models [] runs reports

theorem length_le_intact (results : List CaseResult) :
    results.length ≤ (results.filter fun r => r.failedAgents.isEmpty).length +
      lostCalls results := by
  induction results with
  | nil => exact le_rfl
  | cons r results ih =>
    simp only [lostCalls, List.length_cons, List.map_cons, List.sum_cons, List.filter_cons] at ih ⊢
    cases hfailed : r.failedAgents with
    | nil =>
      simp only [List.isEmpty_nil, if_true, List.length_cons]
      omega
    | cons agent agents =>
      simp only [List.isEmpty_cons, Bool.false_eq_true, if_false, List.length_cons]
      omega

/-- At least six in ten panels of a kept report were complete, at most one in ten was lost as a
whole, and at most a tenth of the calls failed. -/
theorem kept_report_holds {runs : List (Except Exc (List CaseResult))} {reports : List EvalReport}
    (h : runEval provider models runs = .ok reports) {report : EvalReport}
    (hreport : report ∈ reports) :
    10 * lostCalls report.cases ≤ callsOf report.cases ∧
    10 * dead report.cases ≤ report.cases.length ∧
    6 * report.cases.length ≤ 10 * report.intact.length ∧
    ∀ panels ∈ fullPanels report, 0 < panels.intact := by
  obtain ⟨kept, rest, -, hkept, -, rfl⟩ := (@runLoop_ok_iff provider models [] runs reports).mp h
  obtain ⟨results, hresults, rfl⟩ := List.mem_map.mp hreport
  change 10 * lostCalls results ≤ results.length * 4 ∧ 10 * dead results ≤ results.length ∧
    6 * results.length ≤ 10 * (results.filter fun r => r.failedAgents.isEmpty).length ∧ _
  have hlost : ¬ 4 * results.length < 10 * lostCalls results :=
    fun hlt => (refused_iff results).mpr hlt (hkept results hresults)
  have hdead := dead_le_lost results
  have hintact := length_le_intact results
  refine ⟨by omega, by omega, by omega, fun panels hpanels => ?_⟩
  unfold fullPanels at hpanels
  dsimp only at hpanels
  split at hpanels
  · cases hpanels
  · rename_i hdegraded
    cases hpanels
    change 0 < (results.filter fun r => r.failedAgents.isEmpty).length
    have hlength : 0 < results.length := by
      refine List.length_pos_of_ne_nil fun hnil => hdegraded ?_
      subst hnil
      rfl
    omega

end Loop

def sampleRuns : List (Except Exc (List CaseResult)) :=
  [.ok [describedOften, describedOften, describedOften, lostAgent],
   .ok [{ lostAgent with failedAgents := ["security", "correctness", "tests", "docs"] }]]

theorem kept_report_holds_sample : ∃ report, runEval "echo" [] sampleRuns = .ok [report] ∧
    10 * dead report.cases ≤ report.cases.length ∧ ∃ panels ∈ fullPanels report, 0 < panels.intact := by
  have hfirst : refusal [describedOften, describedOften, describedOften, lostAgent] = none := by
    decide +kernel
  have hsecond : refusal [{ lostAgent with
      failedAgents := ["security", "correctness", "tests", "docs"] }] = some (.outage 1 1) := by
    decide +kernel
  have hrun : runEval "echo" [] sampleRuns =
      .ok [score [describedOften, describedOften, describedOften, lostAgent] "echo" []] := by
    simp [runEval, runLoop, sampleRuns, hfirst, hsecond]
  have hpanels : (fullPanels (score [describedOften, describedOften, describedOften, lostAgent]
      "echo" [])).isSome = true := by decide +kernel
  obtain ⟨panels, hsome⟩ := Option.isSome_iff_exists.mp hpanels
  obtain ⟨-, hdead, -, hintact⟩ := kept_report_holds "echo" [] hrun (List.mem_singleton_self _)
  exact ⟨_, hrun, hdead, panels, hsome, hintact panels hsome⟩

end PrSentinel.EvalRuns
