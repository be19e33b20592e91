import PrSentinel.Rescore

set_option autoImplicit false

namespace PrSentinel.Baselines
open Python PrSentinel

theorem abs_roundHalfEven_sub (q : ℚ) : |(roundHalfEven q : ℚ) - q| ≤ 1 / 2 := by
  have hlow := Int.floor_le q
  have hhigh := Int.lt_floor_add_one q
  rw [abs_le]
  simp only [roundHalfEven]
  split_ifs <;> push_cast <;> constructor <;> linarith

theorem abs_pyRound_sub (digits : ℕ) (q : ℚ) : |pyRound digits q - q| ≤ 1 / 2 / 10 ^ digits := by
  have hpos : (0 : ℚ) < 10 ^ digits := by positivity
  have hscaled : pyRound digits q - q =
      ((roundHalfEven (q * 10 ^ digits) : ℚ) - q * 10 ^ digits) / 10 ^ digits := by
    rw [pyRound, sub_div, mul_div_cancel_right₀ q hpos.ne']
  rw [hscaled, abs_div, abs_of_pos hpos]
  exact div_le_div_of_nonneg_right (abs_roundHalfEven_sub _) hpos.le

/-- What `compare` reads of a saved report; `none` where the file has no such entry. -/
structure Baseline where
  precisionStrict : Option ℚ := none
  recallRate : Option ℚ := none
  f1 : Option ℚ := none
  expectedCalibrationError : Option ℚ := none
  perCaseUsd : Option ℚ := none
  deriving DecidableEq

def baselineOf (saved : ReportRecord) : Baseline where
  precisionStrict := some saved.overall.precisionStrict
  recallRate := some saved.overall.recallRate
  f1 := some saved.overall.f1
  expectedCalibrationError := some saved.expectedCalibrationError
  perCaseUsd := some saved.perCaseUsd

structure MetricRow where
  name : String
  before : ℚ
  after : ℚ
  direction : ℚ
  deriving DecidableEq, Repr

def MetricRow.delta (r : MetricRow) : ℚ := r.after - r.before

/-- Small wobble is noise. The difference is exact here: in binary64 one of 0.02 sharp can come
out on either side. -/
def MetricRow.regression (r : MetricRow) : Bool := r.direction * r.delta < -1 / 50

def metricRows (current : EvalReport) (base : Baseline) : List MetricRow :=
  [⟨"precision (strict)", base.precisionStrict.getD 0, current.overall.precisionStrict, 1⟩,
   ⟨"recall", base.recallRate.getD 0, current.overall.recallRate, 1⟩,
   ⟨"f1", base.f1.getD 0, current.overall.f1, 1⟩,
   -- lower is better
   ⟨"calibration error", base.expectedCalibrationError.getD 0, current.ece, -1⟩,
   ⟨"cost per case", base.perCaseUsd.getD 0, current.costPerCaseUsd, -1⟩]

def compare (current : EvalReport) (base : Baseline) : List (MetricRow × String) × Bool :=
  let rows := metricRows current base
  (rows.map fun r => (r, if r.regression then "  ← regression" else ""),
    rows.any MetricRow.regression)

/-- How bad a report is, metric by metric. -/
def badness : List (EvalReport → ℚ) :=
  [fun r => -r.overall.precisionStrict, fun r => -r.overall.recallRate, fun r => -r.overall.f1,
   fun r => r.ece, fun r => r.costPerCaseUsd]

theorem saved_rounds {old : EvalReport} {saved : ReportRecord} (h : old.asDict = .ok saved) :
    baselineOf saved = { precisionStrict := some (pyRound 3 old.overall.precisionStrict)
                         recallRate := some (pyRound 3 old.overall.recallRate)
                         f1 := some (pyRound 3 old.overall.f1)
                         expectedCalibrationError := some (pyRound 3 old.ece)
                         perCaseUsd := some (pyRound 4 old.costPerCaseUsd) } := by
  obtain ⟨perCase, -, h⟩ := ok_of_bind h
  cases h
  rfl

theorem row_near {r : MetricRow} {old new : ℚ} {direction : ℚ} {digits : ℕ}
    (hr : r = ⟨r.name, pyRound digits old, new, direction⟩) (hdigits : 3 ≤ digits)
    (hdirection : direction = 1 ∨ direction = -1) :
    |r.direction * r.delta - direction * (new - old)| ≤ 1 / 2000 := by
  have hround := abs_pyRound_sub digits old
  have hpow : (1 : ℚ) / 2 / 10 ^ digits ≤ 1 / 2000 := by
    have hle : (10 : ℚ) ^ 3 ≤ 10 ^ digits := pow_le_pow_right₀ (by norm_num) hdigits
    calc (1 : ℚ) / 2 / 10 ^ digits ≤ 1 / 2 / 10 ^ 3 := by gcongr
      _ = 1 / 2000 := by norm_num
  rw [hr, MetricRow.delta]
  rcases hdirection with rfl | rfl
  · rw [show (1 : ℚ) * (new - pyRound digits old) - 1 * (new - old) = -(pyRound digits old - old) by
      ring, abs_neg]
    exact hround.trans hpow
  · rw [show (-1 : ℚ) * (new - pyRound digits old) - -1 * (new - old) = pyRound digits old - old by
      ring]
    exact hround.trans hpow

theorem rows_near {old new : EvalReport} {saved : ReportRecord} (h : old.asDict = .ok saved) :
    List.Forall₂ (fun (r : MetricRow) (b : EvalReport → ℚ) =>
      |r.direction * r.delta - (b old - b new)| ≤ 1 / 2000) (metricRows new (baselineOf saved))
        badness := by
  rw [saved_rounds h]
  have hup (name : String) (o n : ℚ) : |(⟨name, pyRound 3 o, n, 1⟩ : MetricRow).direction *
      (⟨name, pyRound 3 o, n, 1⟩ : MetricRow).delta - (-o - -n)| ≤ 1 / 2000 := by
    have hnear := @row_near ⟨name, pyRound 3 o, n, 1⟩ o n 1 3 rfl le_rfl (.inl rfl)
    rwa [show (1 : ℚ) * (n - o) = -o - -n by ring] at hnear
  have hdown (name : String) (digits : ℕ) (hdigits : 3 ≤ digits) (o n : ℚ) :
      |(⟨name, pyRound digits o, n, -1⟩ : MetricRow).direction *
        (⟨name, pyRound digits o, n, -1⟩ : MetricRow).delta - (o - n)| ≤ 1 / 2000 := by
    have hnear := @row_near ⟨name, pyRound digits o, n, -1⟩ o n (-1) digits rfl hdigits (.inr rfl)
    rwa [show (-1 : ℚ) * (n - o) = o - n by ring] at hnear
  exact .cons (hup ..) (.cons (hup ..) (.cons (hup ..) (.cons (hdown _ 3 le_rfl ..)
    (.cons (hdown _ 4 (by decide) ..) .nil))))

theorem regressed_iff (current : EvalReport) (base : Baseline) :
    (compare current base).2 = true ↔
      ∃ r ∈ metricRows current base, r.direction * r.delta < -1 / 50 := by
  simp [compare, MetricRow.regression]

theorem regressed_of_worse {old new : EvalReport} {saved : ReportRecord}
    (h : old.asDict = .ok saved) {b : EvalReport → ℚ} (hb : b ∈ badness)
    (hworse : 41 / 2000 < b new - b old) : (compare new (baselineOf saved)).2 = true := by
  obtain ⟨r, hr, hnear⟩ := exists_mem_of_forall₂ (rows_near h).flip hb
  refine (regressed_iff _ _).mpr ⟨r, hr, ?_⟩
  have hupper := (abs_le.mp hnear).2
  linarith

theorem not_regressed_of_close {old new : EvalReport} {saved : ReportRecord}
    (h : old.asDict = .ok saved) (hclose : ∀ b ∈ badness, b new - b old < 39 / 2000) :
    (compare new (baselineOf saved)).2 = false := by
  rw [Bool.eq_false_iff, ne_eq, regressed_iff]
  rintro ⟨r, hr, hregression⟩
  obtain ⟨b, hb, hnear⟩ := exists_mem_of_forall₂ (rows_near h) hr
  have hlower := (abs_le.mp hnear).1
  have hb' := hclose b hb
  linarith

/-- What `eval` saves and reads back: the last report, and every run where there are several. -/
structure SavedFile where
  baseline : Baseline
  runs : List ReportRecord := []

abbrev Files := String → Option SavedFile

structure EvalOptions where
  save : Option String
  baseline : Option String
  deriving DecidableEq, Repr

inductive EvalError where
  | raised (e : Exc)
  | indexError
  | fileNotFound (path : String)
  deriving DecidableEq, Repr

def savedRuns (reports : List EvalReport) : Except Exc (List ReportRecord) :=
  if 1 < reports.length then reports.mapM EvalReport.asDict else .ok []

/-- `eval`, from the reports of `run_eval` on: the files it leaves, and its exit code. -/
def evalCommand (files : Files) (options : EvalOptions) (reports : List EvalReport) :
    Files × Except EvalError ℕ :=
  match reports.getLast? with
  | none => (files, .error .indexError)
  | some report =>
    match report.asDict, savedRuns reports with
    | .error e, _ => (files, .error (.raised e))
    | .ok _, .error e => (files, .error (.raised e))
    | .ok last, .ok runs =>
      let files := match options.save with
        | some path => Function.update files path (some { baseline := baselineOf last, runs })
        | none => files
      match options.baseline with
      | none => (files, .ok 0)
      | some path =>
        match files path with
        | none => (files, .error (.fileNotFound path))
        | some saved => (files, .ok (if (compare report saved.baseline).2 then 1 else 0))

theorem evalCommand_exits {files files' : Files} {options : EvalOptions}
    {reports : List EvalReport} {code : ℕ}
    (h : evalCommand files options reports = (files', .ok code)) :
    ∃ report last runs, reports.getLast? = some report ∧ report.asDict = .ok last ∧
      savedRuns reports = .ok runs ∧
      (∀ path, options.save = some path →
        files' = Function.update files path (some { baseline := baselineOf last, runs })) ∧
      (options.save = none → files' = files) ∧
      ∀ path, options.baseline = some path → ∃ saved, files' path = some saved ∧
        code = if (compare report saved.baseline).2 then 1 else 0 := by
  unfold evalCommand at h
  split at h
  · cases h
  · rename_i report hreport
    split at h
    · cases h
    · cases h
    · rename_i last runs hlast hruns
      refine ⟨report, last, runs, hreport, hlast, hruns, ?_⟩
      dsimp only at h
      split at h
      · rename_i hbaseline
        cases h
        refine ⟨?_, ?_, ?_⟩
        · intro path hsave
          rw [hsave]
        · intro hsave
          rw [hsave]
        · intro path hpath
          rw [hbaseline] at hpath
          cases hpath
      · rename_i path hbaseline
        split at h
        · cases h
        · rename_i saved hsaved
          cases h
          refine ⟨?_, ?_, ?_⟩
          · intro path hsave
            rw [hsave]
          · intro hsave
            rw [hsave]
          · intro path' hpath
            rw [hbaseline] at hpath
            cases hpath
            exact ⟨saved, hsaved, rfl⟩

/-- What the exit code of a comparison says. A report saved over its own baseline is compared
with itself. -/
theorem exit_code_of_baseline {files files' : Files} {options : EvalOptions}
    {reports : List EvalReport} {report : EvalReport} {path : String} {code : ℕ}
    (h : evalCommand files options reports = (files', .ok code))
    (hreport : reports.getLast? = some report) (hbaseline : options.baseline = some path) :
    (options.save = some path → code = 0) ∧
    (options.save ≠ some path → ∀ old saved runs, old.asDict = .ok saved →
      files path = some { baseline := baselineOf saved, runs } →
      ((∃ b ∈ badness, 41 / 2000 < b report - b old) → code = 1) ∧
      ((∀ b ∈ badness, b report - b old < 39 / 2000) → code = 0)) := by
  obtain ⟨report', last, runs, hreport', hlast, -, hsave, hkeep, hcode⟩ := evalCommand_exits h
  obtain rfl : report = report' := Option.some.inj (hreport.symm.trans hreport')
  obtain ⟨saved, hsaved, hcode⟩ := hcode path hbaseline
  constructor
  · intro hsame
    rw [hsave path hsame, Function.update_self] at hsaved
    cases hsaved
    rw [hcode, not_regressed_of_close hlast (by intro b _; norm_num)]
    rfl
  · intro hother old record oldRuns hold hfile
    have hsaved' : files' path = files path := by
      cases hoption : options.save with
      | none => rw [hkeep hoption]
      | some other =>
        rw [hsave other hoption, Function.update_of_ne]
        rintro rfl
        exact hother hoption
    rw [hsaved', hfile] at hsaved
    cases hsaved
    constructor
    · rintro ⟨b, hb, hworse⟩
      rw [hcode, regressed_of_worse hold hb hworse]
      rfl
    · intro hclose
      rw [hcode, not_regressed_of_close hold hclose]
      rfl

def reportWithEce (ece : ℚ) : EvalReport := { score [] "echo" [] with ece }

def savedWithEce (ece : ℚ) : SavedFile :=
  { baseline := { precisionStrict := some 0, recallRate := some 0, f1 := some 0
                  expectedCalibrationError := some ece, perCaseUsd := some 0 } }

/-- 0.10 saved, 0.13 measured: exit 1 against the other file, exit 0 over the same one. -/
theorem exit_code_of_baseline_sample :
    let files : Files := Function.update (fun _ => none) "a.json" (some (savedWithEce (1 / 10)))
    (∃ files', evalCommand files ⟨some "b.json", some "a.json"⟩ [reportWithEce (13 / 100)] =
      (files', .ok 1)) ∧
    ∀ files' code, evalCommand files ⟨some "a.json", some "a.json"⟩ [reportWithEce (13 / 100)] =
      (files', .ok code) → code = 0 := by
  refine ⟨⟨_, Prod.ext rfl (by decide +kernel)⟩, ?_⟩
  intro files' code h
  exact (exit_code_of_baseline h rfl rfl).1 rfl

abbrev EvalCall := EvalOptions × List EvalReport

def evalCalls (files : Files) : List EvalCall → Files × List (Except EvalError ℕ)
  | [] => (files, [])
  | (options, reports) :: calls =>
    let (files, result) := evalCommand files options reports
    let (files, results) := evalCalls files calls
    (files, result :: results)

/-- Each call is compared with what the one before it saved, and saves somewhere else. -/
def Ratchets (path : String) : List EvalCall → Prop
  | [] => True
  | (options, _) :: calls =>
    options.baseline = some path ∧ ∃ next, options.save = some next ∧ next ≠ path ∧
      Ratchets next calls

theorem passing_call {files files' : Files} {options : EvalOptions} {reports : List EvalReport}
    {path next : String} {old : EvalReport} {saved : ReportRecord} {runs : List ReportRecord}
    (h : evalCommand files options reports = (files', .ok 0)) (hold : old.asDict = .ok saved)
    (hfile : files path = some { baseline := baselineOf saved, runs })
    (hbaseline : options.baseline = some path) (hsave : options.save = some next)
    (hnext : next ≠ path) :
    ∃ new record newRuns, reports.getLast? = some new ∧ new.asDict = .ok record ∧
      files' next = some { baseline := baselineOf record, runs := newRuns } ∧
      ∀ b ∈ badness, b new - b old ≤ 41 / 2000 := by
  obtain ⟨new, record, newRuns, hreport, hrecord, -, hfiles, -, hcode⟩ := evalCommand_exits h
  obtain ⟨compared, hcompared, hcode⟩ := hcode path hbaseline
  rw [hfiles next hsave, Function.update_of_ne hnext.symm, hfile] at hcompared
  cases hcompared
  refine ⟨new, record, newRuns, hreport, hrecord, ?_, ?_⟩
  · rw [hfiles next hsave, Function.update_self]
  · intro b hb
    by_contra hworse
    rw [regressed_of_worse hold hb (not_le.mp hworse)] at hcode
    cases hcode

/-- Calls that all pass can still lose: in the `n`-th of a chain no metric is more than
`0.0205 * n` worse than in the first baseline. -/
theorem baselines_drift {calls : List EvalCall} {files : Files} {path : String}
    {first : EvalReport} {saved : ReportRecord} {runs : List ReportRecord}
    (hfirst : first.asDict = .ok saved)
    (hfile : files path = some { baseline := baselineOf saved, runs })
    (hchain : Ratchets path calls) (hpass : ∀ r ∈ (evalCalls files calls).2, r = .ok 0)
    {before after : List EvalCall} {options : EvalOptions} {reports : List EvalReport}
    (hcall : calls = before ++ (options, reports) :: after) {report : EvalReport}
    (hreport : reports.getLast? = some report) :
    ∀ b ∈ badness, b report - b first ≤ (before.length + 1) * (41 / 2000) := by
  induction before generalizing calls files path first saved runs with
  | nil =>
    subst hcall
    obtain ⟨hbaseline, next, hsave, hnext, -⟩ := hchain
    have hcommand : evalCommand files options reports =
        ((evalCommand files options reports).1, .ok 0) :=
      Prod.ext rfl (hpass _ List.mem_cons_self)
    obtain ⟨new, record, newRuns, hnew, -, -, hclose⟩ :=
      passing_call hcommand hfirst hfile hbaseline hsave hnext
    obtain rfl : report = new := Option.some.inj (hreport.symm.trans hnew)
    simpa using hclose
  | cons call before ih =>
    subst hcall
    obtain ⟨callOptions, callReports⟩ := call
    obtain ⟨hbaseline, next, hsave, hnext, hrest⟩ := hchain
    have hcommand : evalCommand files callOptions callReports =
        ((evalCommand files callOptions callReports).1, .ok 0) :=
      Prod.ext rfl (hpass _ List.mem_cons_self)
    obtain ⟨new, record, newRuns, -, hrecord, hfile', hclose⟩ :=
      passing_call hcommand hfirst hfile hbaseline hsave hnext
    have hlater := ih hrecord hfile' hrest
      (fun r hr => hpass r (List.mem_cons_of_mem _ hr)) rfl
    intro b hb
    have hstep := hclose b hb
    have htail := hlater b hb
    rw [List.length_cons]
    push_cast
    linarith

def driftingCalls : List EvalCall :=
  [(⟨some "b.json", some "a.json"⟩, [reportWithEce (12 / 100)]),
   (⟨some "c.json", some "b.json"⟩, [reportWithEce (14 / 100)])]

/-- Two passing calls from 0.10 to 0.14, which is a regression against the first baseline. -/
theorem baselines_drift_sample :
    let files : Files := Function.update (fun _ => none) "a.json" (some (savedWithEce (1 / 10)))
    (evalCalls files driftingCalls).2 = [.ok 0, .ok 0] ∧
    (compare (reportWithEce (14 / 100)) (savedWithEce (1 / 10)).baseline).2 = true ∧
    (reportWithEce (14 / 100)).ece - (reportWithEce (1 / 10)).ece ≤
      (([driftingCalls[0]] : List EvalCall).length + 1) * (41 / 2000) := by
  intro files
  have hresults : (evalCalls files driftingCalls).2 = [.ok 0, .ok 0] := by decide +kernel
  refine ⟨hresults, by decide +kernel, ?_⟩
  obtain ⟨saved, hsaved, hbaseline⟩ : ∃ saved, (reportWithEce (1 / 10)).asDict = .ok saved ∧
      baselineOf saved = (savedWithEce (1 / 10)).baseline :=
    ⟨_, rfl, by decide +kernel⟩
  refine @baselines_drift driftingCalls files "a.json" (reportWithEce (1 / 10)) saved [] hsaved
    ?_ ?_ ?_ [driftingCalls[0]] [] _ _ rfl (reportWithEce (14 / 100)) rfl _ ?_
  · exact congrArg (fun b => some (SavedFile.mk b [])) hbaseline.symm
  · exact ⟨rfl, "b.json", rfl, by decide, rfl, "c.json", rfl, by decide, trivial⟩
  · rw [hresults]
    simp
  · simp [badness]

end PrSentinel.Baselines
