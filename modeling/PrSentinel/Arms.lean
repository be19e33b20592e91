import PrSentinel.Baselines
import PrSentinel.Calibration
import PrSentinel.Gate
import Mathlib.Algebra.Order.Group.MinMax

set_option autoImplicit false

namespace PrSentinel.Arms
open Python PrSentinel Baselines

def noisePhrases : List (String × List String) :=
  [("docs", ["lacks", "missing", "no docstring", "undocumented", "has no", "not documented"])]

def docsCategories : List String := ["documentation", "readability", "convention"]

inductive Metric where
  | findingsTotal | noiseNotes | outOfLane | posted | precision | recallRate | calibrationError
  | costPerCase
  deriving DecidableEq, Repr

def Metric.key : Metric → String
  | .findingsTotal => "findings_total"
  | .noiseNotes => "noise_notes"
  | .outOfLane => "out_of_lane"
  | .posted => "posted"
  | .precision => "precision"
  | .recallRate => "recall"
  | .calibrationError => "calibration_error"
  | .costPerCase => "cost_per_case"

def metrics : List Metric :=
  [.findingsTotal, .noiseNotes, .outOfLane, .posted, .precision, .recallRate, .calibrationError,
   .costPerCase]

def lowerIsBetter : List Metric :=
  [.findingsTotal, .noiseNotes, .outOfLane, .posted, .calibrationError, .costPerCase]

def minConfidence : ℚ := 60 / 100

def postable (f : RecordedFinding) : Bool := minConfidence ≤ f.confidence && f.severity ≠ "info"

abbrev RunRow := Metric → ℚ

section Interp
variable [Interp]

def noisy (phrases : List String) (f : RecordedFinding) : Bool :=
  phrases.any fun w => w.toList <:+: (lower f.title).toList

/-- The findings of a run that the scope takes in. -/
def scopedTo (report : ReportRecord) (agent : Option String) : List RecordedFinding :=
  (report.perCase.flatMap CaseRecord.findings).filter fun f => agent = none ∨ agent = some f.agent

/-- `bucket.get(…, 0.0)`: an agent that was silent all run has no bucket. -/
def bucketRate (report : ReportRecord) (agent : Option String) (rateOf : BucketRecord → ℚ) : ℚ :=
  match agent with
  | none => rateOf report.overall
  | some name => ((List.lookup name report.byAgent).map rateOf).getD 0

def perRun (report : ReportRecord) (agent : Option String) : RunRow
  | .findingsTotal => (scopedTo report agent).length
  | .noiseNotes =>
    -- minus one: not defined for this agent
    match agent.bind (List.lookup · noisePhrases) with
    | some phrases => (scopedTo report agent).countP (noisy phrases)
    | none => -1
  | .outOfLane =>
    (scopedTo report agent).countP fun f => agent = some "docs" ∧ f.category ∉ docsCategories
  | .posted => (scopedTo report agent).countP postable
  | .precision => bucketRate report agent BucketRecord.precisionStrict
  | .recallRate => bucketRate report agent BucketRecord.recallRate
  | .calibrationError => report.expectedCalibrationError
  | .costPerCase => report.perCaseUsd

/-- `none` where the file holds a single run: one sample against one is no comparison. -/
def load (file : SavedFile) (agent : Option String) : Option (List RunRow) :=
  if file.runs = [] then none else some (file.runs.map (perRun · agent))

end Interp

inductive Verdict where
  | withinNoise | better | worse
  deriving DecidableEq, Repr

def Verdict.text : Verdict → String
  | .withinNoise => "within noise"
  | .better => "separated, better"
  | .worse => "separated, WORSE"

def mean (xs : List ℚ) : ℚ := xs.sum / xs.length

def low (x : ℚ) (xs : List ℚ) : ℚ := xs.foldl min x
def high (x : ℚ) (xs : List ℚ) : ℚ := xs.foldl max x

/-- The verdict on one metric, from its values in the two arms; the first of each apart. -/
def verdict (key : Metric) (a : ℚ) (as : List ℚ) (b : ℚ) (bs : List ℚ) : Verdict :=
  if ¬ (high a as < low b bs ∨ high b bs < low a as) then .withinNoise
  else if (if key ∈ lowerIsBetter then mean (b :: bs) < mean (a :: as)
    else mean (a :: as) < mean (b :: bs)) then .better
  else .worse

def render (a : RunRow) (as : List RunRow) (b : RunRow) (bs : List RunRow) :
    List (Metric × Verdict) :=
  (metrics.filter fun key => ¬ (a key = -1 ∨ b key = -1)).map fun key =>
    (key, verdict key (a key) (as.map (· key)) (b key) (bs.map (· key)))

theorem low_le {x y : ℚ} {xs : List ℚ} (hy : y ∈ x :: xs) : low x xs ≤ y := by
  induction xs generalizing x y with
  | nil => exact (List.mem_singleton.mp hy).ge
  | cons z xs ih =>
    have hfirst : low (min x z) xs ≤ min x z := ih List.mem_cons_self
    rw [low, List.foldl_cons]
    rcases List.mem_cons.mp hy with rfl | hy
    · exact hfirst.trans (min_le_left _ _)
    · rcases List.mem_cons.mp hy with rfl | hy
      · exact hfirst.trans (min_le_right _ _)
      · exact ih (List.mem_cons_of_mem _ hy)

theorem low_mem (x : ℚ) (xs : List ℚ) : low x xs ∈ x :: xs := by
  induction xs generalizing x with
  | nil => exact List.mem_singleton.mpr rfl
  | cons z xs ih =>
    rw [low, List.foldl_cons]
    rcases List.mem_cons.mp (ih (min x z)) with heq | hmem
    · rcases min_choice x z with hmin | hmin
      · exact List.mem_cons.mpr (.inl (heq.trans hmin))
      · exact List.mem_cons_of_mem _ (List.mem_cons.mpr (.inl (heq.trans hmin)))
    · exact List.mem_cons_of_mem _ (List.mem_cons_of_mem _ hmem)

theorem high_neg (x : ℚ) (xs : List ℚ) : high x xs = -low (-x) (xs.map (-·)) := by
  induction xs generalizing x with
  | nil => simp [high, low]
  | cons z xs ih =>
    have hfold := ih (max x z)
    simp only [high, low] at hfold ⊢
    rw [List.foldl_cons, hfold, List.map_cons, List.foldl_cons, min_neg_neg]

theorem le_high {x y : ℚ} {xs : List ℚ} (hy : y ∈ x :: xs) : y ≤ high x xs := by
  rw [high_neg, le_neg]
  exact low_le (by simpa using hy)

theorem high_mem (x : ℚ) (xs : List ℚ) : high x xs ∈ x :: xs := by
  have hmem := low_mem (-x) (xs.map (-·))
  rw [high_neg]
  simpa [neg_eq_iff_eq_neg] using hmem

theorem high_lt_low_iff {a b : ℚ} {as bs : List ℚ} :
    high a as < low b bs ↔ ∀ x ∈ a :: as, ∀ y ∈ b :: bs, x < y := by
  constructor
  · intro h x hx y hy
    exact (le_high hx).trans_lt (h.trans_le (low_le hy))
  · intro h
    exact h _ (high_mem a as) _ (low_mem b bs)

theorem mean_le_high (x : ℚ) (xs : List ℚ) : mean (x :: xs) ≤ high x xs := by
  have hsum := List.sum_le_card_nsmul (x :: xs) (high x xs) fun y hy => le_high hy
  rw [nsmul_eq_mul, mul_comm] at hsum
  exact (div_le_iff₀ (by exact_mod_cast Nat.succ_pos _)).mpr hsum

theorem low_le_mean (x : ℚ) (xs : List ℚ) : low x xs ≤ mean (x :: xs) := by
  have hsum := List.card_nsmul_le_sum (x :: xs) (low x xs) fun y hy => low_le hy
  rw [nsmul_eq_mul, mul_comm] at hsum
  exact (le_div_iff₀ (by exact_mod_cast Nat.succ_pos _)).mpr hsum

theorem mean_lt {a b : ℚ} {as bs : List ℚ} (h : high a as < low b bs) :
    mean (a :: as) < mean (b :: bs) :=
  (mean_le_high a as).trans_lt (h.trans_le (low_le_mean b bs))

def Improves (key : Metric) (before after : ℚ) : Prop :=
  if key ∈ lowerIsBetter then after < before else before < after

theorem verdict_below {key : Metric} {a b : ℚ} {as bs : List ℚ} (h : high a as < low b bs) :
    verdict key a as b bs = if key ∈ lowerIsBetter then .worse else .better := by
  have hmean := mean_lt h
  rw [verdict, if_neg (not_not_intro (.inl h))]
  by_cases hkey : key ∈ lowerIsBetter
  · simp only [if_pos hkey, if_neg hmean.not_gt]
  · simp only [if_neg hkey, if_pos hmean]

theorem verdict_above {key : Metric} {a b : ℚ} {as bs : List ℚ} (h : high b bs < low a as) :
    verdict key a as b bs = if key ∈ lowerIsBetter then .better else .worse := by
  have hmean := mean_lt h
  rw [verdict, if_neg (not_not_intro (.inr h))]
  by_cases hkey : key ∈ lowerIsBetter
  · simp only [if_pos hkey, if_pos hmean]
  · simp only [if_neg hkey, if_neg hmean.not_gt]

theorem not_both_ways {a b : ℚ} {as bs : List ℚ} (hab : high a as < low b bs) :
    ¬ high b bs < low a as := by
  intro hba
  exact absurd (high_lt_low_iff.mp hab a List.mem_cons_self b List.mem_cons_self)
    (high_lt_low_iff.mp hba b List.mem_cons_self a List.mem_cons_self).not_gt

theorem verdict_iff (key : Metric) (a b : ℚ) (as bs : List ℚ) :
    (verdict key a as b bs = .better ↔ ∀ x ∈ a :: as, ∀ y ∈ b :: bs, Improves key x y) ∧
    (verdict key a as b bs = .worse ↔ ∀ x ∈ a :: as, ∀ y ∈ b :: bs, Improves key y x) := by
  have hup : (∀ x ∈ a :: as, ∀ y ∈ b :: bs, x < y) ↔ high a as < low b bs := high_lt_low_iff.symm
  have hdown : (∀ x ∈ a :: as, ∀ y ∈ b :: bs, y < x) ↔ high b bs < low a as :=
    ⟨fun h => high_lt_low_iff.mpr fun y hy x hx => h x hx y hy,
      fun h x hx y hy => high_lt_low_iff.mp h y hy x hx⟩
  have hsides : (∀ x ∈ a :: as, ∀ y ∈ b :: bs, Improves key x y) =
        (if key ∈ lowerIsBetter then high b bs < low a as else high a as < low b bs) ∧
      (∀ x ∈ a :: as, ∀ y ∈ b :: bs, Improves key y x) =
        (if key ∈ lowerIsBetter then high a as < low b bs else high b bs < low a as) := by
    by_cases hkey : key ∈ lowerIsBetter
    · simp only [Improves, if_pos hkey, hup, hdown, and_self]
    · simp only [Improves, if_neg hkey, hup, hdown, and_self]
  rw [hsides.1, hsides.2]
  by_cases hbelow : high a as < low b bs
  · have hother := not_both_ways hbelow
    rw [verdict_below hbelow]
    split <;> simp [hbelow, hother]
  · by_cases habove : high b bs < low a as
    · rw [verdict_above habove]
      split <;> simp [hbelow, habove]
    · rw [verdict, if_pos (not_or.mpr ⟨hbelow, habove⟩)]
      split <;> simp [hbelow, habove]

/-- The recorded confidence is rounded before it is held against the bar. -/
theorem minConfidence_le_round {q : ℚ} : minConfidence ≤ pyRound 3 q ↔ 5995 / 10000 ≤ q := by
  have hbar : ⌈minConfidence * 10 ^ 3⌉ = 600 := by
    rw [minConfidence, show (60 / 100 : ℚ) * 10 ^ 3 = (600 : ℤ) by norm_num, Int.ceil_intCast]
  rw [le_pyRound_iff, hbar]
  constructor
  · intro h
    by_contra hlow
    refine absurd h (not_le.mpr (roundHalfEven_lt ?_))
    push_cast
    linarith
  · intro h
    rcases h.eq_or_lt with rfl | hlt
    · decide +kernel
    · refine le_roundHalfEven ?_
      push_cast
      linarith

def roundedUp (f : Finding) : Bool :=
  5995 / 10000 ≤ f.confidence && f.confidence < 6 / 10 && f.severity ≠ .info

theorem severity_bar (s : Severity) :
    (s.value ≠ "info" ↔ s ≠ .info) ∧ (Severity.minor.index ≤ s.index ↔ s ≠ .info) := by
  cases s <;> decide

theorem asDict_postable {m : Match} {r : RecordedFinding} (h : m.asDict = .ok r) :
    postable r = (clears {} m.finding || roundedUp m.finding) := by
  obtain ⟨location, -, h⟩ := ok_of_bind h
  obtain ⟨label, -, h⟩ := ok_of_bind h
  obtain ⟨labels, -, h⟩ := ok_of_bind h
  obtain ⟨cites, -, h⟩ := ok_of_bind h
  cases h
  rw [Bool.eq_iff_iff]
  simp only [postable, clears, roundedUp, Bool.and_eq_true, Bool.or_eq_true, decide_eq_true_eq,
    minConfidence_le_round, severity_bar]
  constructor
  · rintro ⟨hround, hseverity⟩
    rcases le_or_gt (60 / 100) m.finding.confidence with hclear | hbelow
    · exact .inl ⟨hclear, hseverity⟩
    · exact .inr ⟨⟨hround, by linarith⟩, hseverity⟩
  · rintro (⟨hclear, hseverity⟩ | ⟨⟨hround, -⟩, hseverity⟩)
    · exact ⟨by linarith, hseverity⟩
    · exact ⟨hround, hseverity⟩

theorem not_both_counted (f : Finding) : ¬ (clears {} f = true ∧ roundedUp f = true) := by
  simp only [clears, roundedUp, Bool.and_eq_true, decide_eq_true_eq]
  rintro ⟨⟨hclear, -⟩, ⟨-, hbelow⟩, -⟩
  linarith

theorem countP_postable {ms : List Match} {rs : List RecordedFinding}
    (h : List.Forall₂ (fun m r => m.asDict = .ok r) ms rs) :
    rs.countP postable = (ms.map Match.finding).countP (clears {}) +
      (ms.map Match.finding).countP roundedUp := by
  induction h with
  | nil => rfl
  | @cons m r ms rs hm _ ih =>
    have hone := asDict_postable hm
    have hboth := not_both_counted m.finding
    simp only [List.map_cons, List.countP_cons, ih, hone]
    cases hclear : clears {} m.finding <;> cases hround : roundedUp m.finding
    · rfl
    · simp only [Bool.or_true, if_true, Bool.false_eq_true, if_false]
      omega
    · simp only [Bool.or_false, if_true, Bool.false_eq_true, if_false]
      omega
    · exact absurd ⟨hclear, hround⟩ hboth

/-- `posted` is what clears the gate's two bars, and what only rounding lifts over the first. -/
theorem posted_eq [Interp] {report : EvalReport} {saved : ReportRecord}
    (h : report.asDict = .ok saved) :
    let findings := report.cases.flatMap fun c => c.matched.map Match.finding
    perRun saved none .posted = findings.countP (clears {}) + findings.countP roundedUp := by
  obtain ⟨perCase, hcases, h⟩ := ok_of_bind h
  cases h
  have hall : List.Forall₂ (fun m r => Match.asDict m = .ok r)
      (report.cases.flatMap CaseResult.matched) (perCase.flatMap CaseRecord.findings) := by
    refine List.rel_flatMap (forall₂_of_mapM hcases) ?_
    intro c record hrecord
    obtain ⟨findings, hfindings, hrecord⟩ := ok_of_bind hrecord
    cases hrecord
    exact forall₂_of_mapM hfindings
  have hcount := countP_postable hall
  simp only [List.map_flatMap] at hcount
  simp only [perRun, scopedTo]
  rw [List.filter_eq_self.mpr (by simp)]
  exact_mod_cast hcount

def nearlySure : Match :=
  { kind := .unlabelled
    label := none
    finding := { Finding.brief 0 .docs .documentation .minor 1 1 6 with
      confidence := 5998 / 10000, confidenceRange := by norm_num } }

/-- One finding the gate withholds, counted as posted. -/
theorem posted_eq_sample :
    let report := score [{ caseId := "case", matched := [nearlySure], missed := []
                           expectedDecision := none, decision := "suppress", confidence := 0
                           costUsd := 0, durationMs := 0 }] "echo" []
    ∃ saved, report.asDict = .ok saved ∧ @perRun asciiInterp saved none .posted = 0 + 1 := by
  intro report
  obtain ⟨saved, hsaved⟩ : ∃ saved, report.asDict = .ok saved := ⟨_, rfl⟩
  exact ⟨saved, hsaved, (@posted_eq asciiInterp report saved hsaved).trans (by decide +kernel)⟩

def Scored (report : EvalReport) : Prop :=
  ∃ results provider models, (∀ r ∈ results, 0 ≤ r.costUsd) ∧
    report = score results provider models

theorem Scored.cost_nonneg {report : EvalReport} (h : Scored report) :
    0 ≤ report.costPerCaseUsd := by
  obtain ⟨results, provider, models, hcosts, rfl⟩ := h
  have hsum : 0 ≤ (results.map fun r => r.costUsd).sum := by
    refine List.sum_nonneg ?_
    intro x hx
    obtain ⟨r, hr, rfl⟩ := List.mem_map.mp hx
    exact hcosts r hr
  simp only [score]
  split
  · exact le_rfl
  · exact div_nonneg hsum (Nat.cast_nonneg _)

theorem Scored.ece_nonneg {report : EvalReport} (h : Scored report) : 0 ≤ report.ece := by
  obtain ⟨results, provider, models, -, rfl⟩ := h
  exact PrSentinel.ece_nonneg _

theorem noise_defined (agent : Option String) :
    (agent.bind (List.lookup · noisePhrases)).isSome = true ↔ agent = some "docs" := by
  cases agent with
  | none => simp
  | some name =>
    simp only [noisePhrases, Option.bind_some, List.lookup_cons, List.lookup_nil, Option.some.injEq]
    by_cases hname : name = "docs"
    · simp [hname]
    · simp [hname, beq_eq_false_iff_ne.mpr hname]

theorem bucketRate_nonneg {report : EvalReport} {saved : ReportRecord}
    (h : report.asDict = .ok saved) (agent : Option String) {rateOf : BucketRecord → ℚ}
    (hrate : ∀ b : Bucket, 0 ≤ rateOf b.asDict) : 0 ≤ bucketRate saved agent rateOf := by
  obtain ⟨perCase, -, h⟩ := ok_of_bind h
  cases h
  cases agent with
  | none => exact hrate _
  | some name =>
    simp only [bucketRate]
    cases hlookup : List.lookup name (report.byAgent.map fun a => (a.agent, a.bucket.asDict)) with
    | none => exact le_rfl
    | some bucket =>
      obtain ⟨before, after, hsplit, -⟩ := List.lookup_eq_some_iff.mp hlookup
      have hmem : (name, bucket) ∈ report.byAgent.map fun a => (a.agent, a.bucket.asDict) := by
        rw [hsplit]
        simp
      obtain ⟨a, -, heq⟩ := List.mem_map.mp hmem
      cases heq
      exact hrate _

theorem perRun_defined [Interp] {report : EvalReport} {saved : ReportRecord}
    (h : report.asDict = .ok saved) (hscored : Scored report) (agent : Option String)
    (key : Metric) :
    perRun saved agent key ≠ -1 ↔ key ≠ .noiseNotes ∨ agent = some "docs" := by
  have hnonneg {q : ℚ} (hq : 0 ≤ q) : q ≠ -1 := by
    rintro rfl
    norm_num at hq
  have hrates (b : Bucket) : 0 ≤ b.asDict.precisionStrict ∧ 0 ≤ b.asDict.recallRate :=
    ⟨pyRound_nonneg 3 b.rates.strict.1, pyRound_nonneg 3 b.rates.recallRate.1⟩
  cases key with
  | noiseNotes =>
    have hdefined := noise_defined agent
    simp only [perRun, ne_eq, not_true_eq_false, false_or]
    cases hphrases : agent.bind (List.lookup · noisePhrases) with
    | none =>
      rw [hphrases] at hdefined
      simpa using hdefined
    | some phrases =>
      rw [hphrases] at hdefined
      simp only [← hdefined, Option.isSome_some, iff_true]
      exact hnonneg (Nat.cast_nonneg _)
  | findingsTotal => exact iff_of_true (hnonneg (Nat.cast_nonneg _)) (.inl (by decide))
  | outOfLane => exact iff_of_true (hnonneg (Nat.cast_nonneg _)) (.inl (by decide))
  | posted => exact iff_of_true (hnonneg (Nat.cast_nonneg _)) (.inl (by decide))
  | precision =>
    exact iff_of_true (hnonneg (bucketRate_nonneg h agent fun b => (hrates b).1)) (.inl (by decide))
  | recallRate =>
    exact iff_of_true (hnonneg (bucketRate_nonneg h agent fun b => (hrates b).2)) (.inl (by decide))
  | calibrationError =>
    obtain ⟨perCase, -, h⟩ := ok_of_bind h
    cases h
    exact iff_of_true (hnonneg (pyRound_nonneg 3 hscored.ece_nonneg)) (.inl (by decide))
  | costPerCase =>
    obtain ⟨perCase, -, h⟩ := ok_of_bind h
    cases h
    exact iff_of_true (hnonneg (pyRound_nonneg 4 hscored.cost_nonneg)) (.inl (by decide))

/-- What `eval` left at the path it saved these reports to. -/
def SavedBy (file : SavedFile) (reports : List EvalReport) : Prop :=
  ∃ files options files' code path, evalCommand files options reports = (files', .ok code) ∧
    options.save = some path ∧ files' path = some file

theorem SavedBy.runs {file : SavedFile} {reports : List EvalReport} (h : SavedBy file reports) :
    savedRuns reports = .ok file.runs := by
  obtain ⟨files, options, files', code, path, hcommand, hsave, hfile⟩ := h
  obtain ⟨report, last, runs, -, -, hruns, hfiles, -⟩ := evalCommand_exits hcommand
  rw [hfiles path hsave, Function.update_self] at hfile
  cases hfile
  exact hruns

theorem SavedBy.forall₂ {file : SavedFile} {reports : List EvalReport} (h : SavedBy file reports)
    (hruns : file.runs ≠ []) :
    List.Forall₂ (fun report saved => EvalReport.asDict report = .ok saved) reports file.runs := by
  have hsaved := h.runs
  unfold savedRuns at hsaved
  split at hsaved
  · exact forall₂_of_mapM hsaved
  · exact absurd (Except.ok.inj hsaved).symm hruns

theorem SavedBy.runs_eq_nil {file : SavedFile} {reports : List EvalReport}
    (h : SavedBy file reports) : file.runs = [] ↔ reports.length ≤ 1 := by
  have hsaved := h.runs
  unfold savedRuns at hsaved
  split at hsaved
  · rename_i hmany
    have hlength := (forall₂_of_mapM hsaved).length_eq
    refine iff_of_false ?_ (by omega)
    intro hnil
    rw [hnil, List.length_nil] at hlength
    omega
  · rename_i hfew
    exact iff_of_true (Except.ok.inj hsaved).symm (not_lt.mp hfew)

theorem SavedBy.row_defined [Interp] {file : SavedFile} {reports : List EvalReport}
    (h : SavedBy file reports) (hscored : ∀ r ∈ reports, Scored r) {agent : Option String}
    {rows : List RunRow}
    (hrows : load file agent = some rows) {row : RunRow} (hrow : row ∈ rows) (key : Metric) :
    row key ≠ -1 ↔ key ≠ .noiseNotes ∨ agent = some "docs" := by
  unfold load at hrows
  split at hrows
  · cases hrows
  · rename_i hruns
    cases hrows
    obtain ⟨saved, hsaved, rfl⟩ := List.mem_map.mp hrow
    obtain ⟨report, hreport, hdict⟩ := exists_mem_of_forall₂ (h.forall₂ hruns).flip hsaved
    exact perRun_defined hdict (hscored report hreport) agent key

/-- Two saved arms: one with a single run is refused; else every metric the scope has is in the
table, and is separated where each run of one arm beats each run of the other. -/
theorem compared_arms [Interp] {fileA fileB : SavedFile} {reportsA reportsB : List EvalReport}
    (hA : SavedBy fileA reportsA) (hB : SavedBy fileB reportsB)
    (hscoredA : ∀ r ∈ reportsA, Scored r) (hscoredB : ∀ r ∈ reportsB, Scored r)
    (agent : Option String) :
    (load fileA agent = none ↔ reportsA.length ≤ 1) ∧
    ∀ a as b bs, load fileA agent = some (a :: as) → load fileB agent = some (b :: bs) →
      ∀ key, ((∃ v, (key, v) ∈ render a as b bs) ↔ key ≠ .noiseNotes ∨ agent = some "docs") ∧
        ∀ v, (key, v) ∈ render a as b bs →
          (v = .better ↔ ∀ x ∈ a :: as, ∀ y ∈ b :: bs, Improves key (x key) (y key)) ∧
          (v = .worse ↔ ∀ x ∈ a :: as, ∀ y ∈ b :: bs, Improves key (y key) (x key)) := by
  constructor
  · rw [← hA.runs_eq_nil]
    unfold load
    split <;> simp_all
  · intro a as b bs hloadA hloadB key
    have hdefinedA := hA.row_defined hscoredA hloadA List.mem_cons_self key
    have hdefinedB := hB.row_defined hscoredB hloadB List.mem_cons_self key
    constructor
    · constructor
      · rintro ⟨v, hv⟩
        obtain ⟨key', hkey, heq⟩ := List.mem_map.mp hv
        cases heq
        have hshown := (List.mem_filter.mp hkey).2
        simp only [decide_eq_true_eq, not_or] at hshown
        exact hdefinedA.mp hshown.1
      · intro hkey
        refine ⟨_, List.mem_map.mpr ⟨key, List.mem_filter.mpr ⟨by cases key <;> decide, ?_⟩, rfl⟩⟩
        simp only [decide_eq_true_eq, not_or]
        exact ⟨hdefinedA.mpr hkey, hdefinedB.mpr hkey⟩
    · intro v hv
      obtain ⟨key', -, heq⟩ := List.mem_map.mp hv
      cases heq
      obtain ⟨hbetter, hworse⟩ :=
        verdict_iff key (a key) (b key) (as.map (· key)) (bs.map (· key))
      rw [hbetter, hworse]
      simp only [← List.map_cons (f := fun row : RunRow => row key), List.forall_mem_map, and_self]

def costed (usd : ℚ) : EvalReport :=
  score [{ caseId := "case", matched := [], missed := [], expectedDecision := none
           decision := "suppress", confidence := 0, costUsd := usd, durationMs := 0 }] "echo" []

def armOf (reports : List EvalReport) : SavedFile :=
  ((evalCommand (fun _ => none) ⟨some "arm.json", none⟩ reports).1 "arm.json").getD
    { baseline := {} }

theorem compared_arms_sample :
    let _ := asciiInterp
    load (armOf [costed 1]) none = none ∧
    (load (armOf [costed 1, costed 2]) none).map List.length = some 2 ∧
    ∀ a as b bs, load (armOf [costed 1, costed 2]) none = some (a :: as) →
      load (armOf [costed 3, costed 4]) none = some (b :: bs) →
      (Metric.costPerCase, .worse) ∈ render a as b bs ∧
        ¬ ∃ v, (Metric.noiseNotes, v) ∈ render a as b bs := by
  intro interp
  have hone : SavedBy (armOf [costed 1]) [costed 1] :=
    ⟨fun _ => none, ⟨some "arm.json", none⟩, _, 0, "arm.json", rfl, rfl, rfl⟩
  have hfirst : SavedBy (armOf [costed 1, costed 2]) [costed 1, costed 2] :=
    ⟨fun _ => none, ⟨some "arm.json", none⟩, _, 0, "arm.json", rfl, rfl, rfl⟩
  have hsecond : SavedBy (armOf [costed 3, costed 4]) [costed 3, costed 4] :=
    ⟨fun _ => none, ⟨some "arm.json", none⟩, _, 0, "arm.json", rfl, rfl, rfl⟩
  have hscored (usd : ℚ) (husd : 0 ≤ usd) : Scored (costed usd) :=
    ⟨_, _, _, by simpa using husd, rfl⟩
  have hscoredA : ∀ r ∈ [costed 1, costed 2], Scored r :=
    List.forall_mem_cons.mpr ⟨hscored 1 (by norm_num), by simpa using hscored 2 (by norm_num)⟩
  have hscoredB : ∀ r ∈ [costed 3, costed 4], Scored r :=
    List.forall_mem_cons.mpr ⟨hscored 3 (by norm_num), by simpa using hscored 4 (by norm_num)⟩
  refine ⟨?_, by decide +kernel, ?_⟩
  · have hscoredOne : ∀ r ∈ [costed 1], Scored r := by simpa using hscored 1 (by norm_num)
    exact (compared_arms hone hone hscoredOne hscoredOne none).1.mpr le_rfl
  · intro a as b bs ha hb
    have hcompared := (compared_arms hfirst hsecond hscoredA hscoredB none).2 a as b bs ha hb
    have hcostA : (load (armOf [costed 1, costed 2]) none).map
        (List.map fun row => row .costPerCase) = some [1, 2] := by decide +kernel
    have hcostB : (load (armOf [costed 3, costed 4]) none).map
        (List.map fun row => row .costPerCase) = some [3, 4] := by decide +kernel
    rw [ha, Option.map_some, Option.some.injEq] at hcostA
    rw [hb, Option.map_some, Option.some.injEq] at hcostB
    obtain ⟨v, hv⟩ := (hcompared .costPerCase).1.mpr (.inl (by decide))
    have hworse : v = .worse := by
      refine ((hcompared .costPerCase).2 v hv).2.mpr fun x hx y hy => ?_
      have hxs : x .costPerCase ∈ ([1, 2] : List ℚ) := hcostA ▸ List.mem_map_of_mem hx
      have hys : y .costPerCase ∈ ([3, 4] : List ℚ) := hcostB ▸ List.mem_map_of_mem hy
      rw [Improves, if_pos (by decide)]
      have hlow : x .costPerCase ≤ 2 := by
        rcases List.mem_pair.mp hxs with h | h <;> norm_num [h]
      have hhigh : 3 ≤ y .costPerCase := by
        rcases List.mem_pair.mp hys with h | h <;> norm_num [h]
      linarith
    exact ⟨hworse ▸ hv, (hcompared .noiseNotes).1.not.mpr (by decide)⟩

end PrSentinel.Arms
