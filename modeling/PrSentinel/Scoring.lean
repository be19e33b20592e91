import PrSentinel.Matching
import PrSentinel.Table

set_option autoImplicit false

namespace PrSentinel
open Python Relational

/-- What a case was scored with besides its findings. -/
structure CaseMeta where
  decision : String
  confidence : ℚ
  costUsd : ℚ
  durationMs : ℤ
  failedAgents : List String := []
  error : Option String := none

structure CaseResult extends CaseMeta where
  caseId : String
  matched : List Match
  missed : List Label
  expectedDecision : Option String

def CaseResult.ofKind (r : CaseResult) (kind : MatchKind) : List Match :=
  r.matched.filter fun m => m.kind = kind

def CaseResult.decisionCorrect (r : CaseResult) : Option Bool :=
  r.expectedDecision.map fun expected => r.decision = expected

def scoreCase (c : EvalCase) (findings : List Finding) (scored : CaseMeta) :
    Except Exc CaseResult := do
  let matched ← classify c.expected c.mustNotFind c.mayFind c.permittedConcerns findings
  pure { scored with
    caseId := c.id
    matched
    missed := missed c.expected matched
    expectedDecision := c.expectedDecision }

structure Bucket where
  hits : ℕ := 0
  allowed : ℕ := 0
  labelsFound : ℕ := 0
  concerns : ℕ := 0
  falsePositives : ℕ := 0
  unlabelled : ℕ := 0
  misses : ℕ := 0

def rate (n total : ℕ) : ℚ := if total = 0 then 0 else n / total

namespace Bucket

def precisionStrict (b : Bucket) : ℚ := rate b.hits (b.hits + b.falsePositives + b.unlabelled)

def precisionLenient (b : Bucket) : ℚ := rate b.hits (b.hits + b.falsePositives)

def recallRate (b : Bucket) : ℚ := rate b.labelsFound (b.labelsFound + b.misses)

def f1 (b : Bucket) : ℚ :=
  let p := b.precisionStrict
  let r := b.recallRate
  if p + r = 0 then 0 else 2 * p * r / (p + r)

def duplicateRate (b : Bucket) : ℚ := rate b.hits b.concerns

def ofKind (kind : MatchKind) (b : Bucket) : ℕ :=
  match kind with
  | .hit => b.hits
  | .falsePositive => b.falsePositives
  | .allowed => b.allowed
  | .unlabelled => b.unlabelled

def add (kind : MatchKind) (b : Bucket) : Bucket :=
  match kind with
  | .hit => { b with hits := b.hits + 1 }
  | .falsePositive => { b with falsePositives := b.falsePositives + 1 }
  | .allowed => { b with allowed := b.allowed + 1 }
  | .unlabelled => { b with unlabelled := b.unlabelled + 1 }

def findLabel (b : Bucket) : Bucket := { b with labelsFound := b.labelsFound + 1 }
def nameConcern (b : Bucket) : Bucket := { b with concerns := b.concerns + 1 }
def missLabel (b : Bucket) : Bucket := { b with misses := b.misses + 1 }

end Bucket

structure AgentBucket where
  agent : String
  bucket : Bucket

structure Books where
  overall : Bucket := {}
  byAgent : Table AgentBucket.agent := .empty

def Books.forAgent (agent : String) (change : Bucket → Bucket) (b : Books) : Books :=
  { b with
    byAgent := b.byAgent.upsert ⟨agent, change {}⟩ (fun r => { r with bucket := change r.bucket })
      fun _ => rfl }

def Books.forAll (change : Bucket → Bucket) (b : Books) : Books :=
  { b with overall := change b.overall }

/-- The labels and concerns met so far in one case. -/
structure Seen where
  labels : List ℕ := []
  concerns : List (ℕ × String) := []
  perAgent : List (String × ℕ) := []

def countLabel (agent : String) (family : String) (state : Books × Seen) (label : Label) :
    Books × Seen :=
  let (books, seen) := state
  let (books, seen) :=
    if label.ref ∈ seen.labels then (books, seen)
    else (books.forAll .findLabel, { seen with labels := label.ref :: seen.labels })
  let (books, seen) :=
    if (label.ref, family) ∈ seen.concerns then (books, seen)
    else (books.forAll .nameConcern,
      { seen with concerns := (label.ref, family) :: seen.concerns })
  if (agent, label.ref) ∈ seen.perAgent then (books, seen)
  else (books.forAgent agent .findLabel,
    { seen with perAgent := (agent, label.ref) :: seen.perAgent })

def countMatch (state : Books × Seen) (m : Match) : Books × Seen :=
  let agent := m.finding.agent.value
  let books := (state.1.forAll (.add m.kind)).forAgent agent (.add m.kind)
  if m.kind = .hit then
    m.labels.foldl (countLabel agent (familyOf m.finding.category)) (books, state.2)
  else (books, state.2)

def countMissed (books : Books) (label : Label) : Books :=
  let books := books.forAll .missLabel
  match label.agent with
  | none | some "" => books
  | some agent => books.forAgent agent .missLabel

def countResult (books : Books) (r : CaseResult) : Books :=
  r.missed.foldl countMissed (r.matched.foldl countMatch (books, {})).1

def countResults (results : List CaseResult) : Books := results.foldl countResult {}

namespace Books
variable {change : Bucket → Bucket} {kind : MatchKind} {agent : String} {d : ℕ}

def counts (kind : MatchKind) (b : Books) : ℕ × ℕ :=
  (b.overall.ofKind kind, b.byAgent.total fun r => r.bucket.ofKind kind)

theorem counts_forAll (h : ∀ b, (change b).ofKind kind = b.ofKind kind + d) (b : Books) :
    (b.forAll change).counts kind = ((b.counts kind).1 + d, (b.counts kind).2) := by
  simp [counts, forAll, h]

theorem counts_forAgent (h : ∀ b, (change b).ofKind kind = b.ofKind kind + d) (b : Books) :
    (b.forAgent agent change).counts kind = ((b.counts kind).1, (b.counts kind).2 + d) := by
  have hnew : (change {}).ofKind kind = d := by
    have hzero : ({} : Bucket).ofKind kind = 0 := by cases kind <;> rfl
    rw [h, hzero, Nat.zero_add]
  simp only [counts, forAgent]
  exact congrArg _ (Table.total_upsert hnew fun s => h s.bucket)

end Books

theorem Bucket.ofKind_add (kind other : MatchKind) (b : Bucket) :
    (b.add kind).ofKind other = b.ofKind other + if kind = other then 1 else 0 := by
  cases kind <;> cases other <;> rfl

section Counts
variable (kind : MatchKind)

theorem ofKind_findLabel (b : Bucket) : b.findLabel.ofKind kind = b.ofKind kind + 0 := by
  cases kind <;> rfl

theorem ofKind_nameConcern (b : Bucket) : b.nameConcern.ofKind kind = b.ofKind kind + 0 := by
  cases kind <;> rfl

theorem ofKind_missLabel (b : Bucket) : b.missLabel.ofKind kind = b.ofKind kind + 0 := by
  cases kind <;> rfl

theorem counts_countLabel (agent family : String) (state : Books × Seen) (label : Label) :
    (countLabel agent family state label).1.counts kind = state.1.counts kind := by
  simp only [countLabel]
  split_ifs <;>
    simp [Books.counts_forAll (ofKind_findLabel kind), Books.counts_forAll (ofKind_nameConcern kind),
      Books.counts_forAgent (ofKind_findLabel kind)]

theorem counts_countLabels (agent family : String) (state : Books × Seen) (labels : List Label) :
    (labels.foldl (countLabel agent family) state).1.counts kind = state.1.counts kind := by
  induction labels generalizing state with
  | nil => rfl
  | cons label labels ih => rw [List.foldl_cons, ih, counts_countLabel]

theorem counts_countMatch (state : Books × Seen) (m : Match) :
    (countMatch state m).1.counts kind =
      ((state.1.counts kind).1 + (if m.kind = kind then 1 else 0),
        (state.1.counts kind).2 + if m.kind = kind then 1 else 0) := by
  have hadd := Bucket.ofKind_add m.kind kind
  simp only [countMatch]
  split
  · rw [counts_countLabels, Books.counts_forAgent hadd, Books.counts_forAll hadd]
  · rw [Books.counts_forAgent hadd, Books.counts_forAll hadd]

theorem counts_countMatches (state : Books × Seen) (matched : List Match) :
    (matched.foldl countMatch state).1.counts kind =
      ((state.1.counts kind).1 + matched.countP (fun m => m.kind = kind),
        (state.1.counts kind).2 + matched.countP fun m => m.kind = kind) := by
  induction matched generalizing state with
  | nil => rfl
  | cons m matched ih =>
    rw [List.foldl_cons, ih, counts_countMatch, List.countP_cons]
    simp only [decide_eq_true_eq, Prod.mk.injEq]
    omega

theorem counts_countMissed (books : Books) (labels : List Label) :
    (labels.foldl countMissed books).counts kind = books.counts kind := by
  induction labels generalizing books with
  | nil => rfl
  | cons label labels ih =>
    rw [List.foldl_cons, ih]
    unfold countMissed
    split <;>
      simp [Books.counts_forAll (ofKind_missLabel kind), Books.counts_forAgent (ofKind_missLabel kind)]

theorem counts_countResults (books : Books) (results : List CaseResult) :
    (results.foldl countResult books).counts kind =
      ((books.counts kind).1 + (results.flatMap CaseResult.matched).countP (fun m => m.kind = kind),
        (books.counts kind).2 +
          (results.flatMap CaseResult.matched).countP fun m => m.kind = kind) := by
  induction results generalizing books with
  | nil => rfl
  | cons r results ih =>
    rw [List.foldl_cons, ih, countResult, counts_countMissed, counts_countMatches]
    simp only [List.flatMap_cons, List.countP_append, Prod.mk.injEq]
    omega

end Counts

theorem seen_again {P : ℕ → Prop} {refs : List ℕ} (h : ∀ ref, P ref ↔ ref ∈ refs) {ref : ℕ}
    (href : P ref) (other : ℕ) : P other ↔ other ∈ refs ++ [ref] := by
  have hold : ref ∈ refs := (h ref).mp href
  rw [h other, List.mem_append, List.mem_singleton]
  exact ⟨.inl, fun hother => hother.elim id fun heq => heq ▸ hold⟩

/-- The counters of labels against what one case has seen so far. -/
structure Tracks (before : Bucket) (refs : List ℕ) (state : Books × Seen) : Prop where
  found : state.1.overall.labelsFound = before.labelsFound + state.2.labels.length
  concerns : state.1.overall.concerns = before.concerns + state.2.concerns.length
  misses : state.1.overall.misses = before.misses
  distinct : state.2.labels.Nodup
  fewer : state.2.labels.length ≤ state.2.concerns.length
  named : ∀ c ∈ state.2.concerns, c.1 ∈ state.2.labels
  seen : ∀ ref, ref ∈ state.2.labels ↔ ref ∈ refs

section Tracks
variable {before : Bucket} {refs : List ℕ} {state : Books × Seen}

theorem tracks_start (books : Books) : Tracks books.overall [] (books, {}) := by
  constructor <;> simp

theorem Tracks.congr {after : Books × Seen} (h : Tracks before refs state)
    (hoverall : after.1.overall = state.1.overall) (hlabels : after.2.labels = state.2.labels)
    (hconcerns : after.2.concerns = state.2.concerns) : Tracks before refs after := by
  constructor
  · rw [hoverall, hlabels, h.found]
  · rw [hoverall, hconcerns, h.concerns]
  · rw [hoverall, h.misses]
  · rw [hlabels]
    exact h.distinct
  · rw [hlabels, hconcerns]
    exact h.fewer
  · rw [hlabels, hconcerns]
    exact h.named
  · rw [hlabels]
    exact h.seen

theorem Tracks.newLabel {books : Books} {seen : Seen} {ref : ℕ} {family : String}
    (h : Tracks before refs (books, seen)) (href : ref ∉ seen.labels) :
    Tracks before (refs ++ [ref]) ((books.forAll .findLabel).forAll .nameConcern,
      { seen with labels := ref :: seen.labels, concerns := (ref, family) :: seen.concerns }) where
  found := by
    have := h.found
    simp only [Books.forAll, Bucket.findLabel, Bucket.nameConcern, List.length_cons] at this ⊢
    omega
  concerns := by
    have := h.concerns
    simp only [Books.forAll, Bucket.findLabel, Bucket.nameConcern, List.length_cons] at this ⊢
    omega
  misses := h.misses
  distinct := List.nodup_cons.mpr ⟨href, h.distinct⟩
  fewer := Nat.succ_le_succ h.fewer
  named := by
    intro c hc
    rcases List.mem_cons.mp hc with rfl | hc
    · exact List.mem_cons_self
    · exact List.mem_cons_of_mem ref (h.named c hc)
  seen := by simp [← h.seen, or_comm]

theorem Tracks.newConcern {books : Books} {seen : Seen} {ref : ℕ} {family : String}
    (h : Tracks before refs (books, seen)) (href : ref ∈ seen.labels) :
    Tracks before refs (books.forAll .nameConcern,
      { seen with concerns := (ref, family) :: seen.concerns }) where
  found := h.found
  concerns := by
    have := h.concerns
    simp only [Books.forAll, Bucket.nameConcern, List.length_cons] at this ⊢
    omega
  misses := h.misses
  distinct := h.distinct
  fewer := Nat.le_succ_of_le h.fewer
  named := by
    intro c hc
    rcases List.mem_cons.mp hc with rfl | hc
    · exact href
    · exact h.named c hc
  seen := h.seen

theorem Tracks.again {ref : ℕ} (h : Tracks before refs state) (href : ref ∈ state.2.labels) :
    Tracks before (refs ++ [ref]) state :=
  { h with seen := seen_again h.seen href }

theorem countLabel_tracks (h : Tracks before refs state) (agent family : String) (label : Label) :
    Tracks before (refs ++ [label.ref]) (countLabel agent family state label) := by
  obtain ⟨books, seen⟩ := state
  have hagent {books : Books} {seen : Seen}
      (h : Tracks before (refs ++ [label.ref]) (books, seen)) :
      Tracks before (refs ++ [label.ref])
        (if (agent, label.ref) ∈ seen.perAgent then (books, seen)
        else (books.forAgent agent .findLabel,
          { seen with perAgent := (agent, label.ref) :: seen.perAgent })) := by
    split
    · exact h
    · exact h.congr rfl rfl rfl
  simp only [countLabel]
  by_cases href : label.ref ∈ seen.labels
  · have hagain := h.again href
    by_cases hconcern : (label.ref, family) ∈ seen.concerns
    · simpa only [if_pos href, if_pos hconcern] using hagent hagain
    · simpa only [if_pos href, if_neg hconcern] using hagent (hagain.newConcern href)
  · have hconcern : (label.ref, family) ∉ seen.concerns := fun hc => href (h.named _ hc)
    simpa only [if_neg href, if_neg hconcern] using hagent (h.newLabel href)

theorem countLabels_tracks (h : Tracks before refs state) (agent family : String)
    (labels : List Label) :
    Tracks before (refs ++ labels.map Label.ref) (labels.foldl (countLabel agent family) state) := by
  induction labels generalizing refs state with
  | nil => simpa using h
  | cons label labels ih => simpa using ih (countLabel_tracks h agent family label)

def hitRefs (m : Match) : List ℕ := if m.kind = .hit then m.labels.map Label.ref else []

theorem countMatch_tracks (h : Tracks before refs state) (m : Match) :
    Tracks before (refs ++ hitRefs m) (countMatch state m) := by
  have hcounted (agent : String) :
      Tracks before refs ((state.1.forAll (.add m.kind)).forAgent agent (.add m.kind), state.2) := by
    refine { h with found := ?_, concerns := ?_, misses := ?_ }
    · rw [← h.found]
      cases m.kind <;> rfl
    · rw [← h.concerns]
      cases m.kind <;> rfl
    · rw [← h.misses]
      cases m.kind <;> rfl
  unfold hitRefs
  simp only [countMatch]
  split
  · exact countLabels_tracks (hcounted _) _ _ _
  · simpa using hcounted _

theorem countMatches_tracks (h : Tracks before refs state) (matched : List Match) :
    Tracks before (refs ++ matched.flatMap hitRefs) (matched.foldl countMatch state) := by
  induction matched generalizing refs state with
  | nil => simpa using h
  | cons m matched ih => simpa using ih (countMatch_tracks h m)

end Tracks

structure Scored (c : EvalCase) (findings : List Finding) (r : CaseResult) : Prop where
  findings : r.matched.map Match.finding = findings
  missed : r.missed = missed c.expected r.matched
  labels : ∀ m ∈ r.matched, m.kind = .hit → ∀ x ∈ m.labels, x ∈ c.expected

theorem scoreCase_ok {c : EvalCase} {findings : List Finding} {scored : CaseMeta} {r : CaseResult}
    (h : scoreCase c findings scored = .ok r) : Scored c findings r := by
  obtain ⟨matched, hmatched, h⟩ := ok_of_bind h
  cases h
  obtain ⟨hfindings, hlabels⟩ := classify_ok hmatched
  refine ⟨hfindings, rfl, fun m hm hkind x hx => ?_⟩
  rw [hlabels m hm hkind] at hx
  exact (List.mem_filter.mp hx).1

theorem scoreCase_answers {c : EvalCase} {findings : List Finding} (scored : CaseMeta)
    (hnamed : ∀ f ∈ findings, f.Named) (hranks : ∀ x ∈ c.expected, x.minSeverity ∈ severityNames) :
    ∃ r, scoreCase c findings scored = .ok r := by
  obtain ⟨matched, hmatched⟩ : ∃ matched,
      classify c.expected c.mustNotFind c.mayFind c.permittedConcerns findings = .ok matched :=
    mapM_ok_iff.mpr fun f hf => judge_answers (hnamed f hf) hranks
  exact ⟨_, ok_bind_iff.mpr ⟨matched, hmatched, rfl⟩⟩

theorem found_eq (matched : List Match) :
    ((matched.filter fun m => m.kind = .hit).flatMap fun m => m.labels.map Label.ref) =
      matched.flatMap hitRefs := by
  induction matched with
  | nil => rfl
  | cons m matched ih =>
    by_cases hkind : m.kind = .hit
    · simp [hitRefs, hkind, ih]
    · simp [hitRefs, hkind, ih]

theorem found_add_missed {c : EvalCase} {findings : List Finding} {r : CaseResult} {refs : List ℕ}
    (h : Scored c findings r) (hdistinct : (c.expected.map Label.ref).Nodup) (hrefs : refs.Nodup)
    (hmem : ∀ ref, ref ∈ refs ↔ ref ∈ r.matched.flatMap hitRefs) :
    refs.length + r.missed.length = c.expected.length := by
  have hfound : refs.Perm ((c.expected.filter fun x => x.ref ∈ refs).map Label.ref) := by
    refine (List.perm_ext_iff_of_nodup hrefs ?_).mpr fun ref => ?_
    · exact hdistinct.sublist ((List.filter_sublist).map _)
    · simp only [List.mem_map, List.mem_filter, decide_eq_true_eq]
      constructor
      · intro href
        obtain ⟨m, hm, hin⟩ := List.mem_flatMap.mp ((hmem ref).mp href)
        unfold hitRefs at hin
        split at hin
        · rename_i hkind
          obtain ⟨x, hx, rfl⟩ := List.mem_map.mp hin
          exact ⟨x, ⟨h.labels m hm hkind x hx, href⟩, rfl⟩
        · cases hin
      · rintro ⟨x, ⟨-, hx⟩, rfl⟩
        exact hx
  have hmissed : r.missed = c.expected.filter fun x => !decide (x.ref ∈ refs) := by
    rw [h.missed, missed, found_eq]
    exact List.filter_congr fun x _ => by simp only [hmem x.ref, decide_not]
  have hsplit := c.expected.length_eq_length_filter_add fun x => decide (x.ref ∈ refs)
  rw [hfound.length_eq, List.length_map, hmissed]
  exact hsplit.symm

theorem countMissed_overall (books : Books) (labels : List Label) :
    (labels.foldl countMissed books).overall =
      { books.overall with misses := books.overall.misses + labels.length } := by
  induction labels generalizing books with
  | nil => rfl
  | cons label labels ih =>
    have hone : (countMissed books label).overall = books.overall.missLabel := by
      unfold countMissed
      split <;> rfl
    rw [List.foldl_cons, ih, hone, List.length_cons]
    simp only [Bucket.missLabel]
    congr 1
    omega

theorem countResult_labels {c : EvalCase} {findings : List Finding} {r : CaseResult}
    (h : Scored c findings r) (hdistinct : (c.expected.map Label.ref).Nodup) (books : Books) :
    (countResult books r).overall.labelsFound + (countResult books r).overall.misses =
      books.overall.labelsFound + books.overall.misses + c.expected.length ∧
    (books.overall.labelsFound ≤ books.overall.concerns →
      (countResult books r).overall.labelsFound ≤ (countResult books r).overall.concerns) := by
  have htracks := countMatches_tracks (tracks_start books) r.matched
  have hall := found_add_missed h hdistinct htracks.distinct (by simpa using htracks.seen)
  have hfound := htracks.found
  have hconcerns := htracks.concerns
  have hmisses := htracks.misses
  have hfewer := htracks.fewer
  simp only [countResult, countMissed_overall]
  omega

structure CalibrationBin where
  low : ℚ
  high : ℚ
  count : ℕ := 0
  meanConfidence : ℚ := 0
  hitRate : ℚ := 0

def confidenceBins : List (ℚ × ℚ) :=
  [(0, 1 / 2), (1 / 2, 6 / 10), (6 / 10, 7 / 10), (7 / 10, 8 / 10), (8 / 10, 9 / 10),
    (9 / 10, 101 / 100)]

def scoreable (matched : List Match) : List Match :=
  matched.filter fun m => m.kind = .hit || m.kind = .falsePositive

def binOf (matched : List Match) (range : ℚ × ℚ) : CalibrationBin :=
  let members := matched.filter fun m =>
    range.1 ≤ m.finding.confidence && m.finding.confidence < range.2
  if members.isEmpty then { low := range.1, high := range.2 }
  else {
    low := range.1
    high := range.2
    count := members.length
    meanConfidence := (members.map fun m => m.finding.confidence).sum / members.length
    hitRate := (members.filter fun m => m.kind = .hit).length / members.length }

def calibration (matched : List Match) : List CalibrationBin :=
  confidenceBins.map (binOf (scoreable matched))

def ece (matched : List Match) : ℚ :=
  let judged := scoreable matched
  if judged.isEmpty then 0
  else (((calibration judged).filter fun b => b.count ≠ 0).map fun b =>
    (b.count / judged.length : ℚ) * |b.hitRate - b.meanConfidence|).sum

structure EvalReport where
  overall : Bucket
  byAgent : List AgentBucket
  calibration : List CalibrationBin
  ece : ℚ
  categoryAgreement : ℚ
  agentAttribution : ℚ
  decisionAccuracy : Option ℚ
  totalCostUsd : ℚ
  costPerCaseUsd : ℚ
  cases : List CaseResult
  provider : String
  models : List (String × String)

def score (results : List CaseResult) (provider : String) (models : List (String × String)) :
    EvalReport :=
  let books := countResults results
  let allMatches := results.flatMap CaseResult.matched
  let hits := allMatches.filter fun m => m.kind = .hit
  let decided := results.filterMap CaseResult.decisionCorrect
  let totalCost := (results.map fun r => r.costUsd).sum
  {
    overall := books.overall
    byAgent := books.byAgent.rows.insertionSort fun a b => a.agent ≤ b.agent
    calibration := PrSentinel.calibration allMatches
    ece := PrSentinel.ece allMatches
    categoryAgreement := rate (hits.filter Match.categoryCorrect).length hits.length
    agentAttribution := rate (hits.filter Match.agentCorrect).length hits.length
    decisionAccuracy :=
      if decided.isEmpty then none else some (rate (decided.filter id).length decided.length)
    totalCostUsd := totalCost
    costPerCaseUsd := if results.isEmpty then 0 else totalCost / results.length
    cases := results
    provider
    models }

theorem rate_mem {n total : ℕ} (h : n ≤ total) : 0 ≤ rate n total ∧ rate n total ≤ 1 := by
  unfold rate
  split
  · simp
  · have hle : (n : ℚ) ≤ total := by exact_mod_cast h
    exact ⟨by positivity, div_le_one_of_le₀ hle (Nat.cast_nonneg total)⟩

/-- A rate is a rate, in whichever bucket. -/
structure Bucket.Rates (b : Bucket) : Prop where
  strict : 0 ≤ b.precisionStrict ∧ b.precisionStrict ≤ 1
  lenient : 0 ≤ b.precisionLenient ∧ b.precisionLenient ≤ 1
  recallRate : 0 ≤ b.recallRate ∧ b.recallRate ≤ 1

theorem Bucket.rates (b : Bucket) : b.Rates where
  strict := rate_mem (by omega)
  lenient := rate_mem (by omega)
  recallRate := rate_mem (by omega)

abbrev EvalRun := List (EvalCase × List Finding × CaseMeta)

def scoreRun (run : EvalRun) : Except Exc (List CaseResult) :=
  run.mapM fun entry => scoreCase entry.1 entry.2.1 entry.2.2

/-- What is to be expected of a scored run's books. -/
structure Balances (run : EvalRun) (results : List CaseResult) (report : EvalReport) : Prop where
  inOrder : List.Forall₂ (fun entry r => r.matched.map Match.finding = entry.2.1) run results
  findings : report.overall.hits + report.overall.allowed + report.overall.falsePositives +
    report.overall.unlabelled = (run.map fun entry => entry.2.1.length).sum
  labels : report.overall.labelsFound + report.overall.misses =
    (run.map fun entry => entry.1.expected.length).sum
  concerns : report.overall.labelsFound ≤ report.overall.concerns
  byAgent : ∀ kind, (report.byAgent.map fun a => a.bucket.ofKind kind).sum =
    report.overall.ofKind kind
  rates : report.overall.Rates ∧ ∀ a ∈ report.byAgent, a.bucket.Rates

theorem countResults_labels {run : EvalRun} {results : List CaseResult}
    (h : List.Forall₂ (fun entry r => Scored entry.1 entry.2.1 r) run results)
    (hdistinct : ∀ entry ∈ run, (entry.1.expected.map Label.ref).Nodup) (books : Books) :
    (results.foldl countResult books).overall.labelsFound +
        (results.foldl countResult books).overall.misses =
      books.overall.labelsFound + books.overall.misses +
        (run.map fun entry => entry.1.expected.length).sum ∧
    (books.overall.labelsFound ≤ books.overall.concerns →
      (results.foldl countResult books).overall.labelsFound ≤
        (results.foldl countResult books).overall.concerns) := by
  induction h generalizing books with
  | nil => exact ⟨rfl, id⟩
  | @cons entry r _ _ hscored _ ih =>
    obtain ⟨hentry, hrest⟩ := List.forall_mem_cons.mp hdistinct
    obtain ⟨hlabels, hconcerns⟩ := countResult_labels hscored hentry books
    obtain ⟨hlabels', hconcerns'⟩ := ih hrest (countResult books r)
    simp only [List.foldl_cons, List.map_cons, List.sum_cons]
    exact ⟨by omega, fun h => hconcerns' (hconcerns h)⟩

theorem length_eq_kinds (matched : List Match) :
    matched.countP (fun m => m.kind = .hit) + matched.countP (fun m => m.kind = .allowed) +
      matched.countP (fun m => m.kind = .falsePositive) +
      matched.countP (fun m => m.kind = .unlabelled) = matched.length := by
  induction matched with
  | nil => rfl
  | cons m matched ih =>
    simp only [List.countP_cons, List.length_cons, decide_eq_true_eq]
    cases m.kind <;> simp <;> omega

theorem findings_length {run : EvalRun} {results : List CaseResult}
    (h : List.Forall₂ (fun entry r => Scored entry.1 entry.2.1 r) run results) :
    (results.flatMap CaseResult.matched).length = (run.map fun entry => entry.2.1.length).sum := by
  induction h with
  | nil => rfl
  | cons hscored _ ih =>
    simp only [List.flatMap_cons, List.length_append, List.map_cons, List.sum_cons, ih]
    rw [← hscored.findings, List.length_map]

theorem balances_of_scored {run : EvalRun} {results : List CaseResult}
    (hscored : List.Forall₂ (fun entry r => Scored entry.1 entry.2.1 r) run results)
    (hdistinct : ∀ entry ∈ run, (entry.1.expected.map Label.ref).Nodup) (provider : String)
    (models : List (String × String)) : Balances run results (score results provider models) := by
  have hcounts (kind : MatchKind) : (countResults results).counts kind =
      ((results.flatMap CaseResult.matched).countP (fun m => m.kind = kind),
        (results.flatMap CaseResult.matched).countP fun m => m.kind = kind) := by
    have hzero : ({} : Books).counts kind = (0, 0) := by cases kind <;> rfl
    have hrun := counts_countResults kind {} results
    rw [hzero] at hrun
    simp only [Nat.zero_add] at hrun
    exact hrun
  have hoverall (kind : MatchKind) : (countResults results).overall.ofKind kind =
      (results.flatMap CaseResult.matched).countP fun m => m.kind = kind :=
    congrArg Prod.fst (hcounts kind)
  obtain ⟨hlabels, hconcerns⟩ := countResults_labels hscored hdistinct {}
  refine
    { inOrder := hscored.imp fun _ _ h => h.findings
      findings := ?_
      labels := ?_
      concerns := hconcerns (Nat.le_refl 0)
      byAgent := fun kind => ?_
      rates := ⟨Bucket.rates _, fun a _ => Bucket.rates _⟩ }
  · rw [← findings_length hscored, ← length_eq_kinds]
    have hhit := hoverall .hit
    have hallowed := hoverall .allowed
    have hfalse := hoverall .falsePositive
    have hunlabelled := hoverall .unlabelled
    simp only [Bucket.ofKind] at hhit hallowed hfalse hunlabelled
    simp only [score, hhit, hallowed, hfalse, hunlabelled]
  · exact hlabels.trans (Nat.zero_add _)
  · have hsorted : ((score results provider models).byAgent.map fun a => a.bucket.ofKind kind).Perm
        ((countResults results).byAgent.rows.map fun a => a.bucket.ofKind kind) :=
      (List.perm_insertionSort _ _).map _
    rw [hsorted.sum_eq]
    exact (congrArg Prod.snd (hcounts kind)).trans (hoverall kind).symm

/-- Whatever is scored balances, and what carries category and severity names is scored. -/
theorem books_balance (run : EvalRun)
    (hdistinct : ∀ entry ∈ run, (entry.1.expected.map Label.ref).Nodup) :
    (∀ results, scoreRun run = .ok results → ∀ provider models,
      Balances run results (score results provider models)) ∧
    ((∀ entry ∈ run, (∀ f ∈ entry.2.1, f.Named) ∧
        ∀ x ∈ entry.1.expected, x.minSeverity ∈ severityNames) →
      ∃ results, scoreRun run = .ok results) := by
  constructor
  · intro results hresults
    have hscored := (forall₂_of_mapM hresults).imp fun _ _ h => scoreCase_ok h
    exact balances_of_scored hscored hdistinct
  · intro h
    exact mapM_ok_iff.mpr fun entry hentry =>
      scoreCase_answers entry.2.2 (h entry hentry).1 (h entry hentry).2

def plainMeta : CaseMeta where
  decision := "escalate"
  confidence := 7 / 10
  costUsd := 0
  durationMs := 0

def logicLabel : Label where
  ref := 0
  filePath := "app.py"
  line := 10
  agent := some "correctness"
  category := some "logic"

def logicCase : EvalCase where
  id := "off-by-one"
  expected := [logicLabel]

/-- The category is none, where the finding's own is asked for. -/
theorem bogus_category_raises :
    let finding := { Finding.brief 0 .correctness .logic .minor 10 10 8 with
      categories := ["bogus"] }
    scoreRun [(logicCase, [finding], plainMeta)] = .error .valueError := rfl

theorem logic_balances :
    let run : EvalRun := [(logicCase, [Finding.brief 0 .correctness .logic .minor 10 12 8,
      Finding.brief 1 .docs .readability .info 40 40 5], plainMeta)]
    ∃ results, scoreRun run = .ok results ∧ Balances run results (score results "openai" []) := by
  intro run
  have hrun := books_balance run (by decide)
  obtain ⟨results, hresults⟩ := hrun.2 (by simp [run, Finding.Named, Finding.brief, logicCase,
    logicLabel, severityNames])
  exact ⟨results, hresults, hrun.1 results hresults "openai" []⟩

end PrSentinel
