import Mathlib.Data.Finset.Card
import PrSentinel.Scoring

/-!
The second recall a report prints once some case has lost agents: what the reviewer found
where its whole panel answered.
-/

set_option autoImplicit false

namespace PrSentinel

/-- What the report says of its panels. -/
structure FullPanels where
  recallRate : ℚ
  intact : ℕ
  cases : ℕ
  answered : ℤ
  calls : ℕ
  whole : ℕ
  deriving DecidableEq

def EvalReport.degraded (report : EvalReport) : List CaseResult :=
  report.cases.filter fun c => !c.failedAgents.isEmpty

def EvalReport.intact (report : EvalReport) : List CaseResult :=
  report.cases.filter fun c => c.failedAgents.isEmpty

/-- One turn of the loop over labels: the labels met, and how many were new. -/
def meetLabel (state : List ℕ × ℕ) (label : Label) : List ℕ × ℕ :=
  if label.ref ∈ state.1 then state else (label.ref :: state.1, state.2 + 1)

def meetCase (state : List ℕ × ℕ) (c : CaseResult) : List ℕ × ℕ :=
  (c.ofKind .hit).foldl (fun state m => m.labels.foldl meetLabel state) state

def fullPanels (report : EvalReport) : Option FullPanels :=
  let degraded := report.degraded
  if degraded.isEmpty then none
  else
    let whole := degraded.countP fun c => allAgents.length ≤ c.failedAgents.length
    let lost := (degraded.map fun c => c.failedAgents.length).sum
    let totalCalls := report.cases.length * allAgents.length
    let intact := report.intact
    let found := (intact.foldl meetCase ([], 0)).2
    let missed := (intact.map fun c => c.missed.length).sum
    some {
      recallRate := rate found (found + missed)
      intact := intact.length
      cases := report.cases.length
      answered := totalCalls - lost
      calls := totalCalls
      whole }

/-- The labels a case's hits reach, each as often as they do. -/
def CaseResult.hitRefs (c : CaseResult) : List ℕ := c.matched.flatMap PrSentinel.hitRefs

structure Meets (refs : List ℕ) (state : List ℕ × ℕ) : Prop where
  counted : state.2 = state.1.length
  distinct : state.1.Nodup
  seen : ∀ ref, ref ∈ state.1 ↔ ref ∈ refs

section Meets
variable {refs : List ℕ} {state : List ℕ × ℕ}

theorem meets_start : Meets [] ([], 0) := by
  constructor <;> simp

theorem meetLabel_meets (h : Meets refs state) (label : Label) :
    Meets (refs ++ [label.ref]) (meetLabel state label) := by
  unfold meetLabel
  split
  · rename_i hseen
    exact { h with seen := seen_again h.seen hseen }
  · rename_i hnew
    refine ⟨congrArg (· + 1) h.counted, List.nodup_cons.mpr ⟨hnew, h.distinct⟩, fun ref => ?_⟩
    rw [List.mem_cons, h.seen, List.mem_append, List.mem_singleton, or_comm]

theorem meetLabels_meets (h : Meets refs state) (labels : List Label) :
    Meets (refs ++ labels.map Label.ref) (labels.foldl meetLabel state) := by
  induction labels generalizing refs state with
  | nil => simpa using h
  | cons label labels ih => simpa using ih (meetLabel_meets h label)

theorem meetCase_meets (h : Meets refs state) (c : CaseResult) :
    Meets (refs ++ c.hitRefs) (meetCase state c) := by
  rw [CaseResult.hitRefs, ← found_eq, ← List.map_flatMap, meetCase, ← List.foldl_flatMap]
  exact meetLabels_meets h _

theorem meetCases_meets (h : Meets refs state) (cases : List CaseResult) :
    Meets (refs ++ cases.flatMap CaseResult.hitRefs) (cases.foldl meetCase state) := by
  induction cases generalizing refs state with
  | nil => simpa using h
  | cons c cases ih => simpa using ih (meetCase_meets h c)

theorem length_eq_card {labels : List ℕ} (hdistinct : labels.Nodup)
    (hseen : ∀ ref, ref ∈ labels ↔ ref ∈ refs) : labels.length = refs.toFinset.card := by
  rw [← List.toFinset_card_of_nodup hdistinct]
  exact congrArg Finset.card (Finset.ext fun ref => by simp [hseen])

theorem found_card (cases : List CaseResult) :
    (cases.foldl meetCase ([], 0)).2 = (cases.flatMap CaseResult.hitRefs).toFinset.card := by
  have h : Meets (cases.flatMap CaseResult.hitRefs) (cases.foldl meetCase ([], 0)) := by
    simpa using meetCases_meets meets_start cases
  rw [h.counted, length_eq_card h.distinct h.seen]

end Meets

theorem countResult_recall (books : Books) (c : CaseResult) :
    (countResult books c).overall.labelsFound =
        books.overall.labelsFound + c.hitRefs.toFinset.card ∧
      (countResult books c).overall.misses = books.overall.misses + c.missed.length := by
  have h : Tracks books.overall c.hitRefs (c.matched.foldl countMatch (books, {})) := by
    simpa [CaseResult.hitRefs] using countMatches_tracks (tracks_start books) c.matched
  rw [countResult, countMissed_overall]
  exact ⟨by rw [h.found, length_eq_card h.distinct h.seen], by rw [h.misses]⟩

theorem countResults_recall (books : Books) (cases : List CaseResult) :
    (cases.foldl countResult books).overall.labelsFound =
        books.overall.labelsFound + (cases.map fun c => c.hitRefs.toFinset.card).sum ∧
      (cases.foldl countResult books).overall.misses =
        books.overall.misses + (cases.map fun c => c.missed.length).sum := by
  induction cases generalizing books with
  | nil => exact ⟨rfl, rfl⟩
  | cons c cases ih =>
    obtain ⟨hfound, hmisses⟩ := ih (countResult books c)
    obtain ⟨hfound', hmisses'⟩ := countResult_recall books c
    simp only [List.foldl_cons, List.map_cons, List.sum_cons]
    omega

/-- The hits of no two cases reach the same label object. -/
def Apart (cases : List CaseResult) : Prop :=
  cases.Pairwise fun a b => a.hitRefs.Disjoint b.hitRefs

theorem card_apart {cases : List CaseResult} (h : Apart cases) :
    (cases.flatMap CaseResult.hitRefs).toFinset.card =
      (cases.map fun c => c.hitRefs.toFinset.card).sum := by
  induction cases with
  | nil => rfl
  | cons c cases ih =>
    obtain ⟨hfirst, hrest⟩ := List.pairwise_cons.mp h
    have hdisjoint : Disjoint c.hitRefs.toFinset (cases.flatMap CaseResult.hitRefs).toFinset := by
      rw [List.disjoint_toFinset_iff_disjoint]
      intro ref hc hcases
      obtain ⟨other, hother, href⟩ := List.mem_flatMap.mp hcases
      exact hfirst other hother hc href
    rw [List.flatMap_cons, List.toFinset_append, Finset.card_union_of_disjoint hdisjoint, ih hrest,
      List.map_cons, List.sum_cons]

/-- The recall over full panels is the recall of the cases whose panels were full. -/
theorem full_panels_agree (report : EvalReport)
    (hdegraded : ∃ c ∈ report.cases, c.failedAgents ≠ []) (hapart : Apart report.cases)
    (provider : String) (models : List (String × String)) :
    ∃ panels, fullPanels report = some panels ∧
      panels.recallRate = (score report.intact provider models).overall.recallRate := by
  obtain ⟨c, hc, hfailed⟩ := hdegraded
  have hsome : report.degraded.isEmpty = false := by
    rw [List.isEmpty_eq_false_iff_exists_mem]
    exact ⟨c, List.mem_filter.mpr ⟨hc, by simpa using hfailed⟩⟩
  have hintact : Apart report.intact := hapart.filter _
  obtain ⟨hfound, hmisses⟩ := countResults_recall {} report.intact
  refine ⟨_, by rw [fullPanels, hsome, if_neg Bool.false_ne_true], ?_⟩
  simp only [score, Bucket.recallRate, countResults, hfound, hmisses, found_card,
    card_apart hintact, Nat.zero_add]

def describedOften : CaseResult where
  toCaseMeta := plainMeta
  caseId := "intact"
  matched := List.replicate 4 {
    finding := Finding.brief 0 .correctness .logic .minor 10 12 8
    label := some logicLabel
    kind := .hit
    labels := [logicLabel] }
  missed := [{ logicLabel with ref := 1 }]
  expectedDecision := none

def lostAgent : CaseResult where
  toCaseMeta := { plainMeta with failedAgents := ["security"] }
  caseId := "broken"
  matched := []
  missed := [{ logicLabel with ref := 2 }]
  expectedDecision := none

theorem described_often_agrees :
    let report := score [describedOften, lostAgent] "openai" []
    (∃ panels, fullPanels report = some panels ∧
      panels.recallRate = (score report.intact "openai" []).overall.recallRate) ∧
    (fullPanels report).map FullPanels.recallRate = some (1 / 2) := by
  intro report
  have hlost : lostAgent ∈ report.cases := by simp [report, score]
  refine ⟨full_panels_agree report ⟨lostAgent, hlost, by decide⟩ ?_ "openai" [], ?_⟩
  · simp [Apart, report, score, CaseResult.hitRefs, lostAgent]
  · decide +kernel

end PrSentinel
