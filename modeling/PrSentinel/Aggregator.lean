import Mathlib.Algebra.BigOperators.Group.List.Basic
import Mathlib.Data.Finset.Card
import Mathlib.Data.Finset.Dedup
import Mathlib.Data.Prod.Lex
import Mathlib.Order.Bounds.Basic
import Mathlib.Tactic.Linarith
import PrSentinel.Clusters
import PrSentinel.Models

set_option autoImplicit false

namespace PrSentinel
open Python Greedy

def titleSimilarityThreshold : ℚ := 45 / 100

def stopWords : List String :=
  ["the", "a", "an", "is", "in", "of", "to", "on", "and", "for", "this", "that", "with"]

section Interp
variable [Interp]

def words (text : String) : Finset String :=
  let spaced := text.toList.flatMap fun c => if Interp.isAlnum c then Interp.lower [c] else [' ']
  let split := splitWords Interp.isSpace [] spaced
  ((split.filter (fun w => 2 < w.length)).map String.ofList).toFinset

def titleSimilarity (a b : String) : ℚ :=
  let ta := (words a).filter (fun w => w ∉ stopWords)
  let tb := (words b).filter (fun w => w ∉ stopWords)
  if ta = ∅ ∨ tb = ∅ then 0 else ((ta ∩ tb).card : ℚ) / (ta ∪ tb).card

theorem titleSimilarity_comm (a b : String) : titleSimilarity a b = titleSimilarity b a := by
  simp only [titleSimilarity, Finset.inter_comm, Finset.union_comm, or_comm]

def sameFamily (a b : Category) : Bool :=
  a ≠ .other && b ≠ .other && familyOf a = familyOf b

/-- `_same_issue`: two findings describing one defect. -/
def sameIssue (a b : Finding) : Bool :=
  a.overlaps b && (a.category = b.category || sameFamily a.category b.category ||
    titleSimilarityThreshold ≤ titleSimilarity a.title b.title)

theorem sameIssue_refl (f : Finding) : sameIssue f f = true := by
  simp [sameIssue, f.overlaps_self]

theorem sameIssue_symm {a b : Finding} (h : sameIssue a b = true) : sameIssue b a = true := by
  have hfamily : sameFamily b.category a.category = sameFamily a.category b.category := by
    simp only [sameFamily, eq_comm (a := familyOf b.category)]
    rw [Bool.and_comm (decide (b.category ≠ .other))]
  simp only [sameIssue] at h ⊢
  simp only [b.overlaps_comm, hfamily, titleSimilarity_comm b.title, eq_comm (a := b.category)]
  exact h

theorem sameIssue_path {a b : Finding} (h : sameIssue a b = true) : a.filePath = b.filePath := by
  simp only [sameIssue, Bool.and_eq_true] at h
  exact Finding.overlaps_path h.1

end Interp

def strength (f : Finding) : ℕ ×ₗ ℚ := toLex (f.severity.index, f.confidence)

def primary (c : Cluster Finding) : Finding := c.winner strength

theorem primary_mem (c : Cluster Finding) : primary c ∈ c.members := c.winner_mem strength

/-- `max(f.confidence for f in fs)`; confidences are never negative. -/
def bestConfidence (fs : List Finding) : ℚ := (fs.map Finding.confidence).foldl max 0

theorem foldl_max_le {qs : List ℚ} {a x : ℚ} :
    qs.foldl max a ≤ x ↔ a ≤ x ∧ ∀ q ∈ qs, q ≤ x := by
  induction qs generalizing a with
  | nil => simp
  | cons q qs ih => simp [ih, and_assoc]

theorem bestConfidence_le {fs : List Finding} {x : ℚ} :
    bestConfidence fs ≤ x ↔ 0 ≤ x ∧ ∀ f ∈ fs, f.confidence ≤ x := by
  simp [bestConfidence, foldl_max_le]

theorem bestConfidence_range (fs : List Finding) :
    0 ≤ bestConfidence fs ∧ bestConfidence fs ≤ 1 :=
  ⟨(bestConfidence_le.mp le_rfl).1,
    bestConfidence_le.mpr ⟨zero_le_one, fun f _ => f.confidenceRange.2⟩⟩

theorem le_bestConfidence {fs : List Finding} {f : Finding} (hf : f ∈ fs) :
    f.confidence ≤ bestConfidence fs := (bestConfidence_le.mp le_rfl).2 f hf

def bestOf (a : AgentType) (fs : List Finding) : ℚ :=
  bestConfidence (fs.filter (fun f => f.agent = a))

section Interp
variable [Interp]

def agentsOf (fs : List Finding) : List AgentType := Interp.setOrder (fs.map Finding.agent)

def doubtOver (agents : List AgentType) (fs : List Finding) : ℚ :=
  agents.foldl (fun product a => Interp.round (product * Interp.round (1 - bestOf a fs))) 1

def doubt (fs : List Finding) : ℚ := doubtOver (agentsOf fs) fs

theorem round_one_sub_bestOf (a : AgentType) (fs : List Finding) :
    0 ≤ Interp.round (1 - bestOf a fs) ∧ Interp.round (1 - bestOf a fs) ≤ 1 := by
  obtain ⟨hlo, hhi⟩ := bestConfidence_range (fs.filter (fun f => f.agent = a))
  exact Interp.round_unit _ (sub_nonneg.mpr hhi) (sub_le_self 1 hlo)

theorem doubt_range (fs : List Finding) : 0 ≤ doubt fs ∧ doubt fs ≤ 1 := by
  suffices h : ∀ (agents : List AgentType) (p : ℚ), 0 ≤ p ∧ p ≤ 1 →
      0 ≤ agents.foldl (fun p a => Interp.round (p * Interp.round (1 - bestOf a fs))) p ∧
        agents.foldl (fun p a => Interp.round (p * Interp.round (1 - bestOf a fs))) p ≤ 1 from
    h _ 1 ⟨zero_le_one, le_rfl⟩
  intro agents
  induction agents with
  | nil => exact fun _ hp => hp
  | cons a agents ih =>
    intro p hp
    obtain ⟨hlo, hhi⟩ := round_one_sub_bestOf a fs
    exact ih _ (Interp.round_unit _ (mul_nonneg hp.1 hlo) (mul_le_one₀ hp.2 hlo hhi))

theorem length_agentsOf (fs : List Finding) :
    (agentsOf fs).length = (fs.map Finding.agent).dedup.length :=
  (Interp.setOrder_perm _).length_eq

/-- Noisy-OR across distinct agents; an agent repeating itself earns nothing. -/
def mergedConfidence (c : Cluster Finding) : ℚ :=
  if 1 < (agentsOf c.members).length then
    min (Interp.round (99 / 100)) (Interp.round (1 - doubt c.members))
  else (primary c).confidence

theorem mergedConfidence_range (c : Cluster Finding) :
    0 ≤ mergedConfidence c ∧ mergedConfidence c ≤ 1 := by
  obtain ⟨hlo, hhi⟩ := doubt_range c.members
  unfold mergedConfidence
  split
  · obtain ⟨hcap, -⟩ := Interp.round_unit (99 / 100) (by norm_num) (by norm_num)
    obtain ⟨hsure, hone⟩ := Interp.round_unit (1 - doubt c.members) (by linarith) (by linarith)
    exact ⟨le_min hcap hsure, (min_le_right _ _).trans hone⟩
  · exact (primary c).confidenceRange

end Interp

def minStart (c : Cluster Finding) : ℤ :=
  c.rest.foldl (fun m f => min m f.lineStart) c.first.lineStart

def maxEnd (c : Cluster Finding) : ℤ :=
  c.rest.foldl (fun m f => max m f.lineEnd) c.first.lineEnd

theorem isLeast_foldl {α β : Type} [LinearOrder β] (key : α → β) (first : α) (xs : List α) :
    IsLeast (key '' {x | x ∈ first :: xs}) (xs.foldl (fun m x => min m (key x)) (key first)) := by
  induction xs generalizing first with
  | nil => simp
  | cons x xs ih =>
    rw [List.foldl_cons]
    rcases le_total (key first) (key x) with hle | hle
    · rw [min_eq_left hle]
      obtain ⟨⟨y, hy, heq⟩, hlower⟩ := ih first
      refine ⟨⟨y, ?_, heq⟩, ?_⟩
      · rcases List.mem_cons.mp hy with rfl | hy <;> simp [*]
      · rintro _ ⟨z, hz, rfl⟩
        rcases List.mem_cons.mp hz with rfl | hz
        · exact hlower ⟨z, List.mem_cons_self, rfl⟩
        · rcases List.mem_cons.mp hz with rfl | hz
          · exact (hlower ⟨first, List.mem_cons_self, rfl⟩).trans hle
          · exact hlower ⟨z, List.mem_cons_of_mem _ hz, rfl⟩
    · rw [min_eq_right hle]
      obtain ⟨⟨y, hy, heq⟩, hlower⟩ := ih x
      refine ⟨⟨y, List.mem_cons_of_mem _ hy, heq⟩, ?_⟩
      rintro _ ⟨z, hz, rfl⟩
      rcases List.mem_cons.mp hz with rfl | hz
      · exact (hlower ⟨x, List.mem_cons_self, rfl⟩).trans hle
      · exact hlower ⟨z, hz, rfl⟩

theorem minStart_least (c : Cluster Finding) :
    IsLeast (Finding.lineStart '' {f | f ∈ c.members}) (minStart c) :=
  isLeast_foldl Finding.lineStart c.first c.rest

theorem maxEnd_greatest (c : Cluster Finding) :
    IsGreatest (Finding.lineEnd '' {f | f ∈ c.members}) (maxEnd c) :=
  isLeast_foldl (β := ℤᵒᵈ) Finding.lineEnd c.first c.rest

theorem minStart_le (c : Cluster Finding) : minStart c ≤ c.first.lineStart :=
  (minStart_least c).2 ⟨c.first, c.first_mem, rfl⟩

theorem le_maxEnd (c : Cluster Finding) : c.first.lineEnd ≤ maxEnd c :=
  (maxEnd_greatest c).2 ⟨c.first, c.first_mem, rfl⟩

theorem maxEnd_mem (c : Cluster Finding) : ∃ f ∈ c.members, maxEnd c = f.lineEnd := by
  obtain ⟨⟨f, hf, heq⟩, -⟩ := maxEnd_greatest c
  exact ⟨f, hf, heq.symm⟩

def dedupeEvidence (c : Cluster Finding) : List Evidence :=
  let all := c.members.flatMap Finding.evidence
  let keep := all.foldl (fun (out : List Evidence) e =>
    if out.any (fun o => o.filePath = e.filePath && o.lineStart = e.lineStart &&
      upto 80 o.excerpt = upto 80 e.excerpt) then out else out ++ [e]) []
  keep.take 6

def mergeBodies (p : Finding) (c : Cluster Finding) : String :=
  let others := c.members.filter (fun f => f.id ≠ p.id && f.agent ≠ p.agent)
  let extra := others.map fun f => "\n\n_Also raised by the " ++ f.agent.value ++ " agent:_ " ++ f.title
  p.body ++ join "" extra.eraseDups

section Collapse
variable [Interp]

def collapse (c : Cluster Finding) : Finding :=
  match c.rest with
  | [] => c.first
  | _ :: _ =>
    { primary c with
      confidence := mergedConfidence c
      agreeing := sortedSet (c.members.map fun f => f.agent.value)
      categories := sortedSet (c.members.map fun f => f.category.value)
      lineStart := minStart c
      lineEnd := maxEnd c
      evidence := dedupeEvidence c
      body := mergeBodies (primary c) c
      lineOrder := le_trans (minStart_le c) (le_trans c.first.lineOrder (le_maxEnd c))
      confidenceRange := mergedConfidence_range c }

variable (c : Cluster Finding)

@[simp] theorem collapse_agent : (collapse c).agent = (primary c).agent := by
  obtain ⟨first, _ | ⟨f, fs⟩⟩ := c <;> rfl

@[simp] theorem collapse_category : (collapse c).category = (primary c).category := by
  obtain ⟨first, _ | ⟨f, fs⟩⟩ := c <;> rfl

@[simp] theorem collapse_severity : (collapse c).severity = (primary c).severity := by
  obtain ⟨first, _ | ⟨f, fs⟩⟩ := c <;> rfl

@[simp] theorem collapse_filePath : (collapse c).filePath = (primary c).filePath := by
  obtain ⟨first, _ | ⟨f, fs⟩⟩ := c <;> rfl

@[simp] theorem collapse_id : (collapse c).id = (primary c).id := by
  obtain ⟨first, _ | ⟨f, fs⟩⟩ := c <;> rfl

@[simp] theorem collapse_title : (collapse c).title = (primary c).title := by
  obtain ⟨first, _ | ⟨f, fs⟩⟩ := c <;> rfl

@[simp] theorem collapse_rationale : (collapse c).rationale = (primary c).rationale := by
  obtain ⟨first, _ | ⟨f, fs⟩⟩ := c <;> rfl

@[simp] theorem collapse_lineStart : (collapse c).lineStart = minStart c := by
  obtain ⟨first, _ | ⟨f, fs⟩⟩ := c <;> rfl

@[simp] theorem collapse_lineEnd : (collapse c).lineEnd = maxEnd c := by
  obtain ⟨first, _ | ⟨f, fs⟩⟩ := c <;> rfl

@[simp] theorem collapse_confidence : (collapse c).confidence = mergedConfidence c := by
  obtain ⟨first, _ | ⟨f, fs⟩⟩ := c
  · have hone : (agentsOf [first]).length = 1 := length_agentsOf [first]
    have hcollapse : (collapse ⟨first, []⟩).confidence = first.confidence := rfl
    have hprimary : primary ⟨first, []⟩ = first := rfl
    simp [mergedConfidence, Cluster.members, hone, hcollapse, hprimary]
  · rfl

end Collapse

def merge [Interp] (findings : List Finding) : List Finding :=
  (clusters sameIssue findings).map collapse

def sameAsk (f g : Finding) : Bool := f.agent = g.agent && f.category = g.category

def collapsible (f : Finding) : Bool := f.category ∈ collapsibleCategories

def foldedEvidence (f : Finding) : Evidence where
  kind := "diff"
  filePath := f.filePath
  lineStart := some f.lineStart
  lineEnd := some f.lineEnd
  excerpt := upto 200 f.title

def placeKey (f : Finding) : String ×ₗ ℤ := toLex (f.filePath, f.lineStart)

/-- `_fold`: one finding standing for several. -/
def fold (group : Cluster Finding) : Finding :=
  let p := primary group
  let others := group.members.filter (fun f => f.id ≠ p.id)
  let inPlace := others.insertionSort (fun f g => placeKey f ≤ placeKey g)
  let listing := join "\n" (inPlace.map fun f =>
    "- `" ++ f.filePath ++ ":" ++ toString f.lineStart ++ "` — " ++ f.title)
  { p with
    body := p.body ++ "\n\nThe same gap appears at " ++ toString others.length ++
      " other place(s) in this change:\n\n" ++ listing ++
      "\n\n_Collapsed into one comment: this is one piece of work, not " ++
      toString group.members.length ++ " separate ones._"
    evidence := (p.evidence ++ others.map foldedEvidence).take 12
    confidence := bestConfidence group.members
    title := p.title ++ " (and " ++ toString others.length ++ " more)"
    confidenceRange := bestConfidence_range group.members }

def repeated (findings : List Finding) : List (Cluster Finding) :=
  clusters sameAsk (findings.filter collapsible)

def collapseRepeated (threshold : ℤ) (findings : List Finding) : List Finding :=
  let passthrough := findings.filter (fun f => !collapsible f)
  passthrough ++ (repeated findings).flatMap fun group =>
    if (group.members.length : ℤ) < threshold then group.members else [fold group]

section Fold
variable (group : Cluster Finding)

@[simp] theorem fold_filePath : (fold group).filePath = (primary group).filePath := rfl

@[simp] theorem fold_lineEnd : (fold group).lineEnd = (primary group).lineEnd := rfl

end Fold

theorem mem_collapseRepeated {threshold : ℤ} {findings : List Finding} {f : Finding} :
    f ∈ collapseRepeated threshold findings ↔
      (f ∈ findings ∧ collapsible f = false) ∨
      ∃ group ∈ repeated findings,
        if (group.members.length : ℤ) < threshold then f ∈ group.members else f = fold group := by
  simp only [collapseRepeated, List.mem_append, List.mem_filter, Bool.not_eq_true',
    List.mem_flatMap]
  refine or_congr Iff.rfl (exists_congr fun group => and_congr Iff.rfl ?_)
  split <;> simp

def reportKey (f : Finding) : ℤ ×ₗ ℚ ×ₗ String :=
  toLex (-(f.severity.index : ℤ), toLex (-f.confidence, f.filePath))

def panelHealth (verdicts : List AgentVerdict) : ℚ :=
  if verdicts = [] then 0 else ((verdicts.filter AgentVerdict.ok).length : ℚ) / verdicts.length

/-- `overall_confidence`: the severity-weighted mean, discounted by the share of
the panel that failed. -/
def overallConfidence (findings : List Finding) (verdicts : List AgentVerdict) : ℚ :=
  match findings with
  | [] => pyRound 3 (panelHealth verdicts)
  | findings =>
    let weightSum := (findings.map fun f => f.severity.weight).sum
    let weighted := (findings.map fun f => f.confidence * f.severity.weight).sum / weightSum
    pyRound 3 (weighted * panelHealth verdicts)

theorem panelHealth_nonneg (verdicts : List AgentVerdict) : 0 ≤ panelHealth verdicts := by
  unfold panelHealth
  split
  · exact le_rfl
  · exact div_nonneg (Nat.cast_nonneg _) (Nat.cast_nonneg _)

theorem overallConfidence_nonneg (findings : List Finding) (verdicts : List AgentVerdict) :
    0 ≤ overallConfidence findings verdicts := by
  have hpanel := panelHealth_nonneg verdicts
  have hsum : ∀ g : Finding → ℚ, (∀ f, 0 ≤ g f) → 0 ≤ (findings.map g).sum := fun g hg =>
    List.sum_nonneg (by simpa using fun f _ => hg f)
  unfold overallConfidence
  cases findings with
  | nil => exact pyRound_nonneg 3 hpanel
  | cons f fs =>
    have hweights := hsum (fun f => f.severity.weight) fun f => f.severity.weight_pos.le
    have hweighted := hsum (fun f => f.confidence * f.severity.weight) fun f =>
      mul_nonneg f.confidenceRange.1 f.severity.weight_pos.le
    exact pyRound_nonneg 3 (mul_nonneg (div_nonneg hweighted hweights) hpanel)

def aggregate [Interp] (settings : Settings) (verdicts : List AgentVerdict) : List Finding × ℚ :=
  let merged := collapseRepeated settings.collapseRepeatedAfter (merge (okFindings verdicts))
  let report := merged.insertionSort (fun f g => reportKey f ≤ reportKey g)
  (report, overallConfidence report verdicts)

theorem aggregate_perm [Interp] (settings : Settings) (verdicts : List AgentVerdict) :
    (aggregate settings verdicts).1.Perm
      (collapseRepeated settings.collapseRepeatedAfter (merge (okFindings verdicts))) :=
  List.perm_insertionSort _ _

def summarise (findings : List Finding) (verdicts : List AgentVerdict) : String :=
  let parts := severityOrder.reverse.filterMap fun s =>
    match (findings.filter (fun f => f.severity = s)).length with
    | 0 => none
    | n => some (toString n ++ " " ++ s.value)
  let head := if parts = [] then "no findings" else join ", " parts
  let failed := (verdicts.filter (fun v => !v.ok)).map fun v => v.agent.value
  head ++ if failed = [] then "" else " (agents unavailable: " ++ join ", " failed ++ ")"

end PrSentinel
