import PrSentinel.Numerals
import PrSentinel.Scoring

/-!
Recorded runs, scored again from the findings as they were recorded: locations are
text, and a citation is only its first line.
-/

set_option autoImplicit false

namespace PrSentinel
open Python

structure RecordedFinding where
  matchKind : String
  agent : String
  category : String
  severity : String
  confidence : ℚ
  location : String
  title : String
  body : String
  agreeing : List String
  categories : List String
  matchedLabel : Option String
  matchedLabels : List String
  cites : List String

def placeOf (path : String) (line : ℤ) : Except Exc String := do
  let line ← strOfInt line
  pure (path ++ .singleton ':' ++ line)

/-- `where`: the first line, and the last one where it is another. -/
def Finding.location (f : Finding) : Except Exc String := do
  let start ← placeOf f.filePath f.lineStart
  if f.lineEnd ≠ f.lineStart then
    let stop ← strOfInt f.lineEnd
    pure (start ++ .singleton '-' ++ stop)
  else pure start

def Label.place (x : Label) : Except Exc String := placeOf x.filePath x.line

/-- What a finding cites, as far as it says where. -/
def citedLines (evidence : List Evidence) : List (String × ℤ) :=
  evidence.filterMap fun e => e.lineStart.map (e.filePath, ·)

def Match.matchedLabel (m : Match) : Except Exc (Option String) :=
  match m.label with
  | some label => label.place.map some
  | none => .ok none

def Match.asDict (m : Match) : Except Exc RecordedFinding := do
  let f := m.finding
  let location ← f.location
  let matchedLabel ← m.matchedLabel
  let matchedLabels ← m.labels.mapM Label.place
  let cites ← (citedLines f.evidence).mapM fun cited => placeOf cited.1 cited.2
  pure {
    matchKind := m.kind.value
    agent := f.agent.value
    category := f.category.value
    severity := f.severity.value
    confidence := pyRound 3 f.confidence
    location
    title := f.title
    body := f.body
    agreeing := f.agreeing
    categories := f.categories
    matchedLabel
    matchedLabels
    cites }

structure CaseRecord where
  id : String
  hits : ℕ
  missed : ℕ
  falsePositives : ℕ
  unlabelled : ℕ
  decision : String
  expectedDecision : Option String
  confidence : ℚ
  costUsd : ℚ
  failedAgents : List String
  error : Option String
  findings : List RecordedFinding

def CaseResult.asDict (r : CaseResult) : Except Exc CaseRecord := do
  let findings ← r.matched.mapM Match.asDict
  pure {
    id := r.caseId
    hits := (r.ofKind .hit).length
    missed := r.missed.length
    falsePositives := (r.ofKind .falsePositive).length
    unlabelled := (r.ofKind .unlabelled).length
    decision := r.decision
    expectedDecision := r.expectedDecision
    confidence := pyRound 3 r.confidence
    costUsd := pyRound 4 r.costUsd
    failedAgents := r.failedAgents
    error := r.error
    findings }

structure BucketRecord where
  hits : ℕ
  allowed : ℕ
  labelsFound : ℕ
  concerns : ℕ
  duplicateRate : ℚ
  falsePositives : ℕ
  unlabelled : ℕ
  misses : ℕ
  precisionStrict : ℚ
  precisionLenient : ℚ
  recallRate : ℚ
  f1 : ℚ

def Bucket.asDict (b : Bucket) : BucketRecord where
  hits := b.hits
  allowed := b.allowed
  labelsFound := b.labelsFound
  concerns := b.concerns
  duplicateRate := pyRound 2 b.duplicateRate
  falsePositives := b.falsePositives
  unlabelled := b.unlabelled
  misses := b.misses
  precisionStrict := pyRound 3 b.precisionStrict
  precisionLenient := pyRound 3 b.precisionLenient
  recallRate := pyRound 3 b.recallRate
  f1 := pyRound 3 b.f1

structure BinRecord where
  range : String
  n : ℕ
  meanConfidence : ℚ
  observedHitRate : ℚ
  gap : ℚ

def CalibrationBin.asDict (b : CalibrationBin) : BinRecord where
  range := fixed2 b.low ++ "-" ++ fixed2 b.high
  n := b.count
  meanConfidence := pyRound 3 b.meanConfidence
  observedHitRate := pyRound 3 b.hitRate
  gap := pyRound 3 (b.hitRate - b.meanConfidence)

structure ReportRecord where
  provider : String
  models : List (String × String)
  cases : ℕ
  overall : BucketRecord
  byAgent : List (String × BucketRecord)
  bins : List BinRecord
  expectedCalibrationError : ℚ
  categoryAgreement : ℚ
  agentAttribution : ℚ
  decisionAccuracy : Option ℚ
  totalUsd : ℚ
  perCaseUsd : ℚ
  perCase : List CaseRecord

def EvalReport.asDict (r : EvalReport) : Except Exc ReportRecord := do
  let perCase ← r.cases.mapM CaseResult.asDict
  pure {
    provider := r.provider
    models := r.models
    cases := r.cases.length
    overall := r.overall.asDict
    byAgent := r.byAgent.map fun a => (a.agent, a.bucket.asDict)
    bins := (r.calibration.filter fun b => b.count ≠ 0).map CalibrationBin.asDict
    expectedCalibrationError := pyRound 3 r.ece
    categoryAgreement := pyRound 3 r.categoryAgreement
    agentAttribution := pyRound 3 r.agentAttribution
    decisionAccuracy := r.decisionAccuracy.map (pyRound 3)
    totalUsd := pyRound 4 r.totalCostUsd
    perCaseUsd := pyRound 4 r.costPerCaseUsd
    perCase }

def enumerated {α : Type} : Option α → Except Exc α
  | some a => .ok a
  | none => .error .valueError

section Interp
variable [Interp]

def nonEmpty (s : String) : Except Exc String :=
  if strip s = "" then .error .valueError else .ok (strip s)

def rebuildCite (cite : String) : Except Exc Evidence := do
  let (path, _, line) := rpartitionAt ':' cite
  let line ← intOfStr line
  pure { kind := "diff", filePath := path, lineStart := some line, lineEnd := some line }

/-- The path and the lines of a `where`. -/
def readLocation (location : String) : Except Exc (String × ℤ × ℤ) := do
  let (path, _, span) := rpartitionAt ':' location
  let (start, _, stop) := partitionAt '-' span
  let lineStart ← intOfStr start
  let lineEnd ← if stop = "" then pure lineStart else intOfStr stop
  pure (path, lineStart, lineEnd)

def rebuild (id : UUID) (raw : RecordedFinding) : Except Exc Finding := do
  let (path, lineStart, lineEnd) ← readLocation raw.location
  let evidence ← raw.cites.mapM rebuildCite
  let agent ← enumerated (AgentType.ofValue? raw.agent)
  let category ← enumerated (Category.ofValue? raw.category)
  let severity ← enumerated (Severity.ofValue? raw.severity)
  let title ← nonEmpty raw.title
  let rationale ← nonEmpty raw.title
  if h : 0 ≤ raw.confidence ∧ raw.confidence ≤ 1 then
    pure {
      id, agent, category, severity
      filePath := path
      lineStart
      lineEnd := max lineEnd lineStart
      title
      body := if raw.body = "" then raw.title else raw.body
      rationale
      confidence := raw.confidence
      evidence
      agreeing := raw.agreeing
      categories := raw.categories
      lineOrder := le_max_right _ _
      confidenceRange := h }
  else .error .valueError

def rebuildAll (ids : ℕ → UUID) : List RecordedFinding → Except Exc (List Finding)
  | [] => .ok []
  | raw :: raws => do
    let f ← rebuild (ids raws.length) raw
    let fs ← rebuildAll ids raws
    pure (f :: fs)

def rescoreCase (ids : ℕ → UUID) (c : EvalCase) (recorded : CaseRecord) : Except Exc CaseResult := do
  let findings ← rebuildAll ids recorded.findings
  scoreCase c findings {
    decision := recorded.decision
    confidence := recorded.confidence
    costUsd := recorded.costUsd
    durationMs := 0
    failedAgents := recorded.failedAgents }

def rescore (ids : ℕ → UUID) (cases : List EvalCase) (recorded : ReportRecord) :
    Except Exc (List CaseResult) :=
  (cases.zip recorded.perCase).mapM fun p => rescoreCase ids p.1 p.2

end Interp

section Read

theorem placeOf_ok_iff {path : String} {line : ℤ} :
    (∃ s, placeOf path line = .ok s) ↔ Printable line := by
  rw [← strOfInt_ok_iff]
  simp only [placeOf, ok_bind_iff]
  exact ⟨fun ⟨_, s, hs, _⟩ => ⟨s, hs⟩, fun ⟨s, hs⟩ => ⟨_, s, hs, rfl⟩⟩

theorem location_ok_iff {f : Finding} :
    (∃ s, f.location = .ok s) ↔ Printable f.lineStart ∧ Printable f.lineEnd := by
  rw [← strOfInt_ok_iff, ← strOfInt_ok_iff]
  simp only [Finding.location, placeOf, ok_bind_iff]
  constructor
  · rintro ⟨s, _, ⟨start, hstart, _⟩, h⟩
    refine ⟨⟨start, hstart⟩, ?_⟩
    split at h
    · obtain ⟨stop, hstop, -⟩ := ok_of_bind h
      exact ⟨stop, hstop⟩
    · rename_i heq
      rw [not_not.mp heq]
      exact ⟨start, hstart⟩
  · rintro ⟨⟨start, hstart⟩, stop, hstop⟩
    by_cases heq : f.lineEnd = f.lineStart
    · exact ⟨_, _, ⟨start, hstart, rfl⟩, if_neg (not_not.mpr heq)⟩
    · exact ⟨_, _, ⟨start, hstart, rfl⟩, (if_pos heq).trans (ok_bind_iff.mpr ⟨stop, hstop, rfl⟩)⟩

theorem location_ok {f : Finding} {s : String} (h : f.location = .ok s) :
    ∃ start, strOfInt f.lineStart = .ok start ∧
      ((f.lineEnd = f.lineStart ∧ s = f.filePath ++ .singleton ':' ++ start) ∨
        ∃ stop, strOfInt f.lineEnd = .ok stop ∧
          s = f.filePath ++ .singleton ':' ++ (start ++ .singleton '-' ++ stop)) := by
  obtain ⟨place, hplace, h⟩ := ok_of_bind h
  obtain ⟨start, hstart, hplace⟩ := ok_of_bind hplace
  cases hplace
  refine ⟨start, hstart, ?_⟩
  split at h
  · obtain ⟨stop, hstop, h⟩ := ok_of_bind h
    cases h
    exact .inr ⟨stop, hstop, by simp only [String.append_assoc]⟩
  · rename_i heq
    cases h
    exact .inl ⟨not_not.mp heq, rfl⟩

theorem partitionAt_minus {s : String} {rest : List Char} (h : s.toList = '-' :: rest) :
    partitionAt '-' s = ("", .singleton '-', .ofList rest) := by
  simp only [partitionAt, h, cutAt, if_true]

theorem strOfInt_negative {n : ℤ} {s : String} (h : strOfInt n = .ok s) (hneg : n < 0) :
    s.toList = '-' :: numeral n.natAbs := by
  simpa [hneg] using (strOfInt_chars h).1

theorem strOfInt_ne_empty {n : ℤ} {s : String} (h : strOfInt n = .ok s) : s ≠ "" := by
  rintro rfl
  have hchars := (strOfInt_chars h).1
  simp [numeral] at hchars

variable [Interp]

theorem rebuildCite_placeOf {path : String} {line : ℤ} {s : String}
    (h : placeOf path line = .ok s) : rebuildCite s =
      .ok { kind := "diff", filePath := path, lineStart := some line, lineEnd := some line } := by
  obtain ⟨text, htext, h⟩ := ok_of_bind h
  cases h
  have hcolon : ':' ∉ text.toList := strOfInt_free htext (by decide) (by simp)
  simp only [rebuildCite, rpartitionAt_found path hcolon, intOfStr_strOfInt htext]
  rfl

theorem intOfStr_empty : intOfStr "" = .error .valueError := rfl

theorem readLocation_location {f : Finding} {s : String} (h : f.location = .ok s) :
    readLocation s =
      if 0 ≤ f.lineStart then .ok (f.filePath, f.lineStart, f.lineEnd) else .error .valueError := by
  obtain ⟨start, hstart, ⟨heq, rfl⟩ | ⟨stop, hstop, rfl⟩⟩ := location_ok h
  · have hcolon : ':' ∉ start.toList := strOfInt_free hstart (by decide) (by simp)
    simp only [readLocation, rpartitionAt_found f.filePath hcolon]
    by_cases hsign : 0 ≤ f.lineStart
    · rw [if_pos hsign]
      have hminus : '-' ∉ start.toList := strOfInt_free hstart (by decide) fun _ => hsign
      simp only [partitionAt_absent hminus, intOfStr_strOfInt hstart, heq]
      rfl
    · rw [if_neg hsign]
      simp only [partitionAt_minus (strOfInt_negative hstart (by omega)), intOfStr_empty]
      rfl
  · have hcolon : ':' ∉ (start ++ .singleton '-' ++ stop).toList := by
      have hfirst : ':' ∉ start.toList := strOfInt_free hstart (by decide) (by simp)
      have hlast : ':' ∉ stop.toList := strOfInt_free hstop (by decide) (by simp)
      simp [hfirst, hlast]
    simp only [readLocation, rpartitionAt_found f.filePath hcolon]
    by_cases hsign : 0 ≤ f.lineStart
    · rw [if_pos hsign]
      have hminus : '-' ∉ start.toList := strOfInt_free hstart (by decide) fun _ => hsign
      simp only [partitionAt_found stop hminus, intOfStr_strOfInt hstart, intOfStr_strOfInt hstop,
        strOfInt_ne_empty hstop, if_false]
      rfl
    · rw [if_neg hsign]
      have hchars : (start ++ .singleton '-' ++ stop).toList =
          '-' :: (numeral f.lineStart.natAbs ++ '-' :: stop.toList) := by
        simp [strOfInt_negative hstart (by omega)]
      simp only [partitionAt_minus hchars, intOfStr_empty]
      rfl

def firstLines (evidence : List Evidence) : List Evidence :=
  (citedLines evidence).map fun cited =>
    { kind := "diff", filePath := cited.1, lineStart := some cited.2, lineEnd := some cited.2 }

/-- The finding whose citations are cut to their first lines. -/
def Finding.cut (f : Finding) : Finding := { f with evidence := firstLines f.evidence }

structure Rebuilt (f g : Finding) : Prop where
  agent : g.agent = f.agent
  category : g.category = f.category
  severity : g.severity = f.severity
  filePath : g.filePath = f.filePath
  lineStart : g.lineStart = f.lineStart
  lineEnd : g.lineEnd = f.lineEnd
  evidence : g.evidence = firstLines f.evidence
  agreeing : g.agreeing = f.agreeing
  categories : g.categories = f.categories

theorem rebuildCites {cited : List (String × ℤ)} {cites : List String}
    (h : cited.mapM (fun c => placeOf c.1 c.2) = .ok cites) :
    cites.mapM rebuildCite = .ok (cited.map fun c =>
      { kind := "diff", filePath := c.1, lineStart := some c.2, lineEnd := some c.2 }) := by
  induction cited generalizing cites with
  | nil =>
    cases h
    rfl
  | cons c cited ih =>
    obtain ⟨cite, rest, hcite, hrest, rfl⟩ := mapM_cons_ok_iff.mp h
    exact mapM_cons_ok_iff.mpr ⟨_, _, rebuildCite_placeOf hcite, ih hrest, rfl⟩

omit [Interp] in
theorem asDict_ok {m : Match} {raw : RecordedFinding} (h : m.asDict = .ok raw) :
    m.finding.location = .ok raw.location ∧
    (citedLines m.finding.evidence).mapM (fun c => placeOf c.1 c.2) = .ok raw.cites ∧
    raw.agent = m.finding.agent.value ∧ raw.category = m.finding.category.value ∧
    raw.severity = m.finding.severity.value ∧ raw.confidence = pyRound 3 m.finding.confidence ∧
    raw.title = m.finding.title ∧ raw.agreeing = m.finding.agreeing ∧
    raw.categories = m.finding.categories := by
  obtain ⟨location, hlocation, h⟩ := ok_of_bind h
  obtain ⟨_, -, h⟩ := ok_of_bind h
  obtain ⟨_, -, h⟩ := ok_of_bind h
  obtain ⟨cites, hcites, h⟩ := ok_of_bind h
  cases h
  exact ⟨hlocation, hcites, rfl, rfl, rfl, rfl, rfl, rfl, rfl⟩

theorem rebuild_asDict {m : Match} {raw : RecordedFinding} (id : UUID) (h : m.asDict = .ok raw)
    (htitle : strip m.finding.title ≠ "") :
    if 0 ≤ m.finding.lineStart then ∃ g, rebuild id raw = .ok g ∧ Rebuilt m.finding g
    else rebuild id raw = .error .valueError := by
  obtain ⟨hlocation, hcites, hagent, hcategory, hseverity, hconfidence, htitle', hagreeing,
    hcategories⟩ := asDict_ok h
  have hread := readLocation_location hlocation
  split
  · rename_i hsign
    rw [if_pos hsign] at hread
    have hrange : 0 ≤ raw.confidence ∧ raw.confidence ≤ 1 := by
      rw [hconfidence]
      exact ⟨pyRound_nonneg 3 m.finding.confidenceRange.1, pyRound_le_one 3 m.finding.confidenceRange.2⟩
    have hname : nonEmpty raw.title = .ok (strip m.finding.title) := by
      rw [htitle', nonEmpty, if_neg htitle]
    simp only [rebuild, hread, rebuildCites hcites, hagent, hcategory, hseverity,
      AgentType.ofValue?_value, Category.ofValue?_value, Severity.ofValue?_value, enumerated, hname]
    refine ⟨_, dif_pos hrange, ?_⟩
    exact
      { agent := rfl
        category := rfl
        severity := rfl
        filePath := rfl
        lineStart := rfl
        lineEnd := max_eq_left m.finding.lineOrder
        evidence := rfl
        agreeing := hagreeing
        categories := hcategories }
  · rename_i hsign
    rw [if_neg hsign] at hread
    rw [rebuild, hread]
    rfl

omit [Interp] in
theorem matchedLabel_ok_iff {m : Match} :
    (∃ s, m.matchedLabel = .ok s) ↔ ∀ x, m.label = some x → Printable x.line := by
  unfold Match.matchedLabel
  cases m.label with
  | none => simp
  | some label =>
    have hplace : (∃ s, label.place = .ok s) ↔ Printable label.line := placeOf_ok_iff
    simp only [Option.some.injEq, forall_eq', ← hplace]
    cases label.place with
    | error e => simp [Except.map]
    | ok s => simp [Except.map]

omit [Interp] in
theorem asDict_ok_iff {m : Match} : (∃ raw, m.asDict = .ok raw) ↔
    (Printable m.finding.lineStart ∧ Printable m.finding.lineEnd) ∧
    (∀ x, m.label = some x → Printable x.line) ∧ (∀ x ∈ m.labels, Printable x.line) ∧
    ∀ cited ∈ citedLines m.finding.evidence, Printable cited.2 := by
  have hlabels : (∃ s, m.labels.mapM Label.place = .ok s) ↔ ∀ x ∈ m.labels, Printable x.line := by
    rw [mapM_ok_iff]
    exact forall₂_congr fun x _ => placeOf_ok_iff
  have hcites : (∃ s, (citedLines m.finding.evidence).mapM (fun c => placeOf c.1 c.2) = .ok s) ↔
      ∀ cited ∈ citedLines m.finding.evidence, Printable cited.2 := by
    rw [mapM_ok_iff]
    exact forall₂_congr fun x _ => placeOf_ok_iff
  rw [← location_ok_iff, ← matchedLabel_ok_iff, ← hlabels, ← hcites]
  simp only [Match.asDict, ok_bind_iff]
  constructor
  · rintro ⟨_, location, hlocation, label, hlabel, labels, hlabels, cites, hcites, -⟩
    exact ⟨⟨location, hlocation⟩, ⟨label, hlabel⟩, ⟨labels, hlabels⟩, cites, hcites⟩
  · rintro ⟨⟨location, hlocation⟩, ⟨label, hlabel⟩, ⟨labels, hlabels⟩, cites, hcites⟩
    exact ⟨_, location, hlocation, label, hlabel, labels, hlabels, cites, hcites, rfl⟩

end Read

section Again

theorem near_first {path : String} {lo hi : ℤ} {label : Label} (h : near path lo lo label = true) :
    near path lo hi label = true := by
  unfold near at h ⊢
  split at h
  · cases h
  · rename_i hpath
    rw [if_neg hpath]
    split
    · rfl
    · split at h
      · have hline : lo = label.line := by omega
        simp [hline, lineTolerance]
      · simp only [min_self, decide_eq_true_eq] at h
        exact decide_eq_true (min_le_of_left_le h)

theorem cites_eq (f : Finding) (p : String → ℤ → ℤ → Bool) :
    f.cites p = true ↔ ∃ e ∈ f.evidence, ∃ n, e.lineStart = some n ∧
      p e.filePath n (e.lastLine n) = true := by
  simp only [Finding.cites, List.any_eq_true]
  refine exists_congr fun e => and_congr_right fun _ => ?_
  cases e.lineStart with
  | none => simp
  | some n => simp

theorem mem_firstLines {evidence : List Evidence} {e : Evidence} (h : e ∈ firstLines evidence) :
    ∃ e' ∈ evidence, ∃ n, e'.lineStart = some n ∧ e.filePath = e'.filePath ∧
      e.lineStart = some n ∧ e.lineEnd = some n := by
  simp only [firstLines, citedLines, List.mem_map, List.mem_filterMap, Option.map_eq_some_iff] at h
  obtain ⟨_, ⟨e', he', n, hn, rfl⟩, rfl⟩ := h
  exact ⟨e', he', n, hn, rfl, rfl, rfl⟩

variable {f g : Finding}

theorem Rebuilt.narrows (h : Rebuilt f g) : Narrows g f where
  agent := h.agent
  category := h.category
  severity := h.severity
  agreeing := h.agreeing
  categories := h.categories
  reaches := by
    intro x hx
    simp only [locates, Bool.or_eq_true, cites_eq, h.filePath, h.lineStart, h.lineEnd,
      h.evidence] at hx ⊢
    refine hx.imp_right ?_
    rintro ⟨e, he, n, hn, hnear⟩
    obtain ⟨e', he', n', hn', hpath, hstart, hend⟩ := mem_firstLines he
    cases hn.symm.trans hstart
    have hlast : e.lastLine n = n := by simp [Evidence.lastLine, hend]
    rw [hlast, hpath] at hnear
    exact ⟨e', he', n, hn', near_first hnear⟩

theorem Rebuilt.locates (h : Rebuilt f g) (x : Label) : locates g x = locates f.cut x := by
  simp only [PrSentinel.locates, Finding.cites, h.filePath, h.lineStart, h.lineEnd, h.evidence]
  rfl

theorem Rebuilt.firingTrap (h : Rebuilt f g) (expected forbidden : List Label) :
    firingTrap expected forbidden g = firingTrap expected forbidden f.cut := by
  have hcovers (x : Label) : covers g x = covers f.cut x := by
    simp only [covers, Finding.cites, h.filePath, h.lineStart, h.lineEnd, h.evidence]
    rfl
  have htraps : traps g = traps f.cut := by
    funext x
    simp only [traps, hcovers, h.agent, h.category]
    rfl
  have hlocates : PrSentinel.locates g = PrSentinel.locates f.cut := funext h.locates
  simp only [PrSentinel.firingTrap, htraps, hlocates]

/-- The label can be written down, and is still reached from the first lines alone. -/
def Stays (f : Finding) (x : Label) : Prop := locates f.cut x = true ∧ Printable x.line

/-- What a finding must be for its record to score as it did. -/
structure Rescorable (c : EvalCase) (f : Finding) : Prop where
  start : 0 ≤ f.lineStart
  stop : Printable f.lineEnd
  cites : ∀ cited ∈ citedLines f.evidence, Printable cited.2
  expected : ∀ x ∈ credited c.expected f, Stays f x
  trapped : credited c.expected f = [] → ∀ x,
    firingTrap c.expected c.mustNotFind f = some x → Printable x.line
  freed : credited c.expected f = [] →
    firingTrap c.expected c.mustNotFind f.cut = firingTrap c.expected c.mustNotFind f
  permitted : credited c.expected f = [] → firingTrap c.expected c.mustNotFind f = none →
    ∀ x, first (claims f) c.mayFind = .ok (some x) → Stays f x

theorem rescorable_iff {c : EvalCase} : Rescorable c f ↔
    0 ≤ f.lineStart ∧ Printable f.lineEnd ∧ (∀ cited ∈ citedLines f.evidence, Printable cited.2) ∧
    ((∀ x ∈ credited c.expected f, Printable x.line) ∧ (credited c.expected f = [] →
      (∀ x, firingTrap c.expected c.mustNotFind f = some x → Printable x.line) ∧
      (firingTrap c.expected c.mustNotFind f = none →
        ∀ x, first (claims f) c.mayFind = .ok (some x) → Printable x.line))) ∧
    (∀ x ∈ credited c.expected f, locates f.cut x = true) ∧ (credited c.expected f = [] →
      firingTrap c.expected c.mustNotFind f.cut = firingTrap c.expected c.mustNotFind f ∧
      (firingTrap c.expected c.mustNotFind f = none →
        ∀ x, first (claims f) c.mayFind = .ok (some x) → locates f.cut x = true)) := by
  constructor
  · rintro ⟨hstart, hstop, hcites, hexpected, htrapped, hfreed, hpermitted⟩
    exact ⟨hstart, hstop, hcites,
      ⟨fun x hx => (hexpected x hx).2, fun hnone => ⟨htrapped hnone,
        fun hfree x hx => (hpermitted hnone hfree x hx).2⟩⟩,
      fun x hx => (hexpected x hx).1, fun hnone => ⟨hfreed hnone,
        fun hfree x hx => (hpermitted hnone hfree x hx).1⟩⟩
  · rintro ⟨hstart, hstop, hcites, ⟨hprint, hprint'⟩, hkeep, hkeep'⟩
    exact ⟨hstart, hstop, hcites, fun x hx => ⟨hkeep x hx, hprint x hx⟩,
      fun hnone => (hprint' hnone).1, fun hnone => (hkeep' hnone).1,
      fun hnone hfree x hx => ⟨(hkeep' hnone).2 hfree x hx, (hprint' hnone).2 hfree x hx⟩⟩

structure SameScoring (r r' : CaseResult) : Prop where
  matched : List.Forall₂ SameMatch r.matched r'.matched
  missed : r'.missed = r.missed

theorem missed_congr {matched matched' : List Match} (expected : List Label)
    (h : List.Forall₂ SameMatch matched matched') :
    missed expected matched' = missed expected matched := by
  have hrefs (ref : ℕ) : ref ∈ matched'.flatMap hitRefs ↔ ref ∈ matched.flatMap hitRefs := by
    induction h with
    | nil => exact Iff.rfl
    | @cons m m' _ _ hsame _ ih =>
      have hhead : ref ∈ hitRefs m' ↔ ref ∈ hitRefs m := by
        simp only [hitRefs, hsame.1]
        split
        · simp only [List.mem_map, hsame.2]
        · exact Iff.rfl
      simp only [List.flatMap_cons, List.mem_append, hhead, ih]
  simp only [missed, found_eq, hrefs]

variable [Interp]

theorem finding_again_iff {c : EvalCase} {m : Match} (id : UUID)
    (hf : judge c.expected c.mustNotFind c.mayFind c.permittedConcerns f = .ok m)
    (htitle : strip f.title ≠ "") :
    (∃ raw g m', m.asDict = .ok raw ∧ rebuild id raw = .ok g ∧
      judge c.expected c.mustNotFind c.mayFind c.permittedConcerns g = .ok m' ∧ SameMatch m m') ↔
    Rescorable c f := by
  have hfinding := (judge_ok hf).1
  have hagain (g : Finding) (h : Rebuilt f g) := judge_again_iff h.narrows hf
  rw [rescorable_iff, ← judge_labels hf]
  constructor
  · rintro ⟨raw, g, m', hraw, hg, hm', hsame⟩
    obtain ⟨⟨_, hstop⟩, -, hlabels, hcites⟩ := asDict_ok_iff.mp ⟨raw, hraw⟩
    have hrebuild := rebuild_asDict id hraw (hfinding ▸ htitle)
    rw [hfinding] at hstop hcites hrebuild
    split at hrebuild
    · rename_i hstart
      obtain ⟨g', hg', hrebuilt⟩ := hrebuild
      cases hg.symm.trans hg'
      have hkept := (hagain g hrebuilt).mp ⟨m', hm', hsame⟩
      simp only [hrebuilt.locates, hrebuilt.firingTrap] at hkept
      exact ⟨hstart, hstop, hcites, hlabels, hkept⟩
    · cases hrebuild.symm.trans hg
  · rintro ⟨hstart, hstop, hcites, hlabels, hkept⟩
    have hbegin : Printable f.lineStart := by
      have := f.lineOrder
      unfold Printable at hstop ⊢
      omega
    obtain ⟨raw, hraw⟩ := asDict_ok_iff.mpr ⟨by rw [hfinding]; exact ⟨hbegin, hstop⟩,
      fun x hx => hlabels x (judge_label hf hx), hlabels, by rwa [hfinding]⟩
    have hrebuild := rebuild_asDict id hraw (hfinding ▸ htitle)
    rw [hfinding, if_pos hstart] at hrebuild
    obtain ⟨g, hg, hrebuilt⟩ := hrebuild
    simp only [← hrebuilt.locates, ← hrebuilt.firingTrap] at hkept
    obtain ⟨m', hm', hsame⟩ := (hagain g hrebuilt).mpr hkept
    exact ⟨raw, g, m', hraw, hg, hm', hsame⟩

theorem rebuildAll_cons_ok_iff {ids : ℕ → UUID} {raw : RecordedFinding}
    {raws : List RecordedFinding} {gs : List Finding} :
    rebuildAll ids (raw :: raws) = .ok gs ↔ ∃ g gs', rebuild (ids raws.length) raw = .ok g ∧
      rebuildAll ids raws = .ok gs' ∧ gs = g :: gs' := by
  simp only [rebuildAll, ok_bind_iff, pure, Except.pure, Except.ok.injEq, exists_and_left]
  exact exists_congr fun g => and_congr_right fun _ => by simp only [eq_comm]

theorem findings_again_iff {c : EvalCase} {fs : List Finding} {ms : List Match} (ids : ℕ → UUID)
    (hjudged : List.Forall₂ (fun f m =>
      judge c.expected c.mustNotFind c.mayFind c.permittedConcerns f = .ok m) fs ms)
    (htitles : ∀ f ∈ fs, strip f.title ≠ "") :
    (∃ raws gs ms', ms.mapM Match.asDict = .ok raws ∧ rebuildAll ids raws = .ok gs ∧
      classify c.expected c.mustNotFind c.mayFind c.permittedConcerns gs = .ok ms' ∧
      List.Forall₂ SameMatch ms ms') ↔ ∀ f ∈ fs, Rescorable c f := by
  induction hjudged with
  | nil => exact iff_of_true ⟨[], [], [], rfl, rfl, rfl, .nil⟩ (by simp)
  | @cons f m fs ms hf _ ih =>
    obtain ⟨htitle, htitles⟩ := List.forall_mem_cons.mp htitles
    rw [List.forall_mem_cons]
    refine Iff.trans ?_ (and_congr_right' (ih htitles))
    constructor
    · rintro ⟨_, _, _, hrecorded, hrebuilt, hrescored, hsame⟩
      obtain ⟨raw, raws, hraw, hraws, rfl⟩ := mapM_cons_ok_iff.mp hrecorded
      obtain ⟨g, gs, hg, hgs, rfl⟩ := rebuildAll_cons_ok_iff.mp hrebuilt
      obtain ⟨m', ms', hm', hms', rfl⟩ := mapM_cons_ok_iff.mp hrescored
      obtain ⟨hhead, htail⟩ := List.forall₂_cons.mp hsame
      exact ⟨(finding_again_iff _ hf htitle).mp ⟨raw, g, m', hraw, hg, hm', hhead⟩,
        raws, gs, ms', hraws, hgs, hms', htail⟩
    · rintro ⟨hrescorable, raws, gs, ms', hraws, hgs, hms', htail⟩
      obtain ⟨raw, g, m', hraw, hg, hm', hhead⟩ :=
        (finding_again_iff (ids raws.length) hf htitle).mpr hrescorable
      exact ⟨raw :: raws, g :: gs, m' :: ms', mapM_cons_ok_iff.mpr ⟨raw, raws, hraw, hraws, rfl⟩,
        rebuildAll_cons_ok_iff.mpr ⟨g, gs, hg, hgs, rfl⟩,
        mapM_cons_ok_iff.mpr ⟨m', ms', hm', hms', rfl⟩, .cons hhead htail⟩

theorem case_again_iff {c : EvalCase} {findings : List Finding} {scored : CaseMeta}
    {r : CaseResult} (ids : ℕ → UUID) (hr : scoreCase c findings scored = .ok r)
    (htitles : ∀ f ∈ findings, strip f.title ≠ "") :
    (∃ recorded r', r.asDict = .ok recorded ∧ rescoreCase ids c recorded = .ok r' ∧
      SameScoring r r') ↔ ∀ f ∈ findings, Rescorable c f := by
  obtain ⟨matched, hmatched, hr⟩ := ok_of_bind hr
  cases hr
  rw [← findings_again_iff ids (forall₂_of_mapM hmatched) htitles]
  constructor
  · rintro ⟨recorded, r', hrecorded, hr', hsame⟩
    obtain ⟨raws, hraws, hrecorded⟩ := ok_of_bind hrecorded
    cases hrecorded
    obtain ⟨gs, hgs, hr'⟩ := ok_of_bind hr'
    obtain ⟨matched', hmatched', hr'⟩ := ok_of_bind hr'
    cases hr'
    exact ⟨raws, gs, matched', hraws, hgs, hmatched', hsame.matched⟩
  · rintro ⟨raws, gs, matched', hraws, hgs, hmatched', hsame⟩
    refine ⟨_, _, ok_bind_iff.mpr ⟨raws, hraws, rfl⟩, ok_bind_iff.mpr ⟨gs, hgs,
      ok_bind_iff.mpr ⟨matched', hmatched', rfl⟩⟩, hsame, missed_congr c.expected hsame⟩

/-- The recorded run is scored as it was, just when every finding survives its record. -/
theorem rescoring_iff (ids : ℕ → UUID) (run : EvalRun) (results : List CaseResult)
    (provider : String) (models : List (String × String)) (hscored : scoreRun run = .ok results)
    (htitles : ∀ entry ∈ run, ∀ f ∈ entry.2.1, strip f.title ≠ "") :
    (∃ recorded rescored, (score results provider models).asDict = .ok recorded ∧
      rescore ids (run.map Prod.fst) recorded = .ok rescored ∧
      List.Forall₂ SameScoring results rescored) ↔
    ∀ entry ∈ run, ∀ f ∈ entry.2.1, Rescorable entry.1 f := by
  have hcases : (∃ recorded rescored, (score results provider models).asDict = .ok recorded ∧
      rescore ids (run.map Prod.fst) recorded = .ok rescored ∧
      List.Forall₂ SameScoring results rescored) ↔
      ∃ perCase rescored, results.mapM CaseResult.asDict = .ok perCase ∧
        ((run.map Prod.fst).zip perCase).mapM (fun p => rescoreCase ids p.1 p.2) = .ok rescored ∧
        List.Forall₂ SameScoring results rescored := by
    constructor
    · rintro ⟨recorded, rescored, hrecorded, hrescored, hsame⟩
      obtain ⟨perCase, hperCase, hrecorded⟩ := ok_of_bind hrecorded
      cases hrecorded
      exact ⟨perCase, rescored, hperCase, hrescored, hsame⟩
    · rintro ⟨perCase, rescored, hperCase, hrescored, hsame⟩
      exact ⟨_, rescored, ok_bind_iff.mpr ⟨perCase, hperCase, rfl⟩, hrescored, hsame⟩
  rw [hcases]
  have hjudged := forall₂_of_mapM hscored
  clear hcases hscored
  induction hjudged with
  | nil => exact iff_of_true ⟨[], [], rfl, rfl, .nil⟩ (by simp)
  | @cons entry r run results hr _ ih =>
    obtain ⟨htitle, htitles⟩ := List.forall_mem_cons.mp htitles
    rw [List.forall_mem_cons]
    refine Iff.trans ?_ (and_congr_right' (ih htitles))
    constructor
    · rintro ⟨_, _, hall, hagain, hsame⟩
      obtain ⟨recorded, perCase, hrecorded, hperCase, rfl⟩ := mapM_cons_ok_iff.mp hall
      obtain ⟨r', rescored, hr', hrescored, rfl⟩ := mapM_cons_ok_iff.mp hagain
      obtain ⟨hhead, htail⟩ := List.forall₂_cons.mp hsame
      exact ⟨(case_again_iff ids hr htitle).mp ⟨recorded, r', hrecorded, hr', hhead⟩,
        perCase, rescored, hperCase, hrescored, htail⟩
    · rintro ⟨hrescorable, perCase, rescored, hperCase, hrescored, htail⟩
      obtain ⟨recorded, r', hrecorded, hr', hhead⟩ := (case_again_iff ids hr htitle).mpr hrescorable
      exact ⟨recorded :: perCase, r' :: rescored,
        mapM_cons_ok_iff.mpr ⟨recorded, perCase, hrecorded, hperCase, rfl⟩,
        mapM_cons_ok_iff.mpr ⟨r', rescored, hr', hrescored, rfl⟩, .cons hhead htail⟩

end Again

def citedLabel : Label where
  ref := 0
  filePath := "b.py"
  line := 18

def citedCase : EvalCase where
  id := "cited"
  expected := [citedLabel]

def citingFinding : Finding :=
  { Finding.brief 0 .correctness .logic .minor 5 5 8 with
    evidence := [{ kind := "diff", filePath := "b.py", lineStart := some 10, lineEnd := some 20 }] }

def kindsAndMissed (results : List CaseResult) : List (List MatchKind × List Label) :=
  results.map fun r => (r.matched.map Match.kind, r.missed)

/-- The range is recorded as its first line: the hit is lost, and its label is missed. -/
theorem cited_range_lost :
    let _ := asciiInterp
    let scored := scoreRun [(citedCase, [citingFinding], plainMeta)]
    let rescored := do
      let results ← scored
      let recorded ← (score results "openai" []).asDict
      rescore id [citedCase] recorded
    scored.toOption.map kindsAndMissed = some [([.hit], [])] ∧
      rescored.toOption.map kindsAndMissed = some [([.unlabelled], [citedLabel])] := by
  decide +kernel

theorem logic_rescored :
    let _ := asciiInterp
    let run : EvalRun := [(logicCase, [Finding.brief 0 .correctness .logic .minor 10 12 8], plainMeta)]
    ∃ results, scoreRun run = .ok results ∧ ∃ recorded rescored,
      (score results "openai" []).asDict = .ok recorded ∧
      rescore id (run.map Prod.fst) recorded = .ok rescored ∧
      List.Forall₂ SameScoring results rescored := by
  intro _ run
  let finding := Finding.brief 0 .correctness .logic .minor 10 12 8
  have hcredited : credited logicCase.expected finding = [logicLabel] := by rfl
  have hrescorable : Rescorable logicCase finding := by
    refine ⟨by decide, by decide +kernel, by simp [finding, Finding.brief, citedLines], ?_, ?_, ?_, ?_⟩
    · rw [hcredited]
      simp only [List.mem_singleton, forall_eq]
      exact ⟨by decide, by decide +kernel⟩
    · simp [hcredited]
    · simp [hcredited]
    · simp [hcredited]
  refine ⟨_, rfl, (rescoring_iff id run _ "openai" [] rfl ?_).mpr ?_⟩
  · simp only [run, List.mem_singleton, forall_eq]
    decide +kernel
  · simpa only [run, List.mem_singleton, forall_eq] using hrescorable

end PrSentinel
