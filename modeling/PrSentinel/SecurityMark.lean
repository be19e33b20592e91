import PrSentinel.Gate
import PrSentinel.Merging

/-!
Where the mark "some contributor called this a security concern" survives the
merge and the fold, and where it is lost.
-/

set_option autoImplicit false

namespace PrSentinel
open Python Greedy

/-- A cluster of one passes its finding on. A merged one keeps the winner's
agent and the members' own categories, and drops the other agents and whatever
categories the members had inherited. -/
def marked (c : Cluster Finding) : Bool :=
  match c.rest with
  | [] => c.first.isSecurity
  | _ :: _ => (primary c).agent = .security || c.members.any (fun f => isSecurityCategory f.category)

def alarming (c : Cluster Finding) : Bool := (primary c).severity = .critical && marked c

/-- Some alarming cluster stands for itself in the report or wins its fold. -/
def MarkSurvives [Interp] (threshold : ℤ) (findings : List Finding) : Prop :=
  (∃ c ∈ clusters sameIssue findings, collapsible (primary c) = false ∧ alarming c = true) ∨
  ∃ group ∈ repeatedClusters findings,
    if (group.members.length : ℤ) < threshold then ∃ c ∈ group.members, alarming c = true
    else alarming (group.winner mergedStrength) = true

def Withheld (r : GateResult) : Prop := r.decision ≠ .autoPost ∧ r.postable = []

theorem collapse_isSecurity [Interp] (c : Cluster Finding) : (collapse c).isSecurity = marked c := by
  obtain ⟨first, _ | ⟨f, fs⟩⟩ := c
  · rfl
  · generalize hc : Cluster.mk first (f :: fs) = c
    have hcategories : (collapse c).categories =
        sortedSet (c.members.map fun f => f.category.value) := by
      subst hc; rfl
    have hmarked : marked c = ((primary c).agent = .security ||
        c.members.any (fun f => isSecurityCategory f.category)) := by
      subst hc; rfl
    have hmember : isSecurityCategory (primary c).category = true →
        c.members.any (fun f => isSecurityCategory f.category) = true := fun h =>
      List.any_eq_true.mpr ⟨primary c, primary_mem c, h⟩
    have hnames : (sortedSet (c.members.map fun f => f.category.value)).any isSecurityName =
        c.members.any (fun f => isSecurityCategory f.category) := by
      rw [Bool.eq_iff_iff]
      simp [List.any_eq_true]
    rw [hmarked]
    simp only [Finding.isSecurity, collapse_agent, collapse_category, hcategories, hnames]
    cases h : isSecurityCategory (primary c).category with
    | true => simp [hmember h]
    | false => simp

theorem collapse_criticalSecurity [Interp] (c : Cluster Finding) :
    criticalSecurity (collapse c) = alarming c := by
  simp [criticalSecurity, alarming, collapse_isSecurity]

theorem fold_criticalSecurity [Interp] (group : Cluster (Cluster Finding)) :
    criticalSecurity (fold (group.map collapse)) = alarming (group.winner mergedStrength) := by
  have hfold : criticalSecurity (fold (group.map collapse)) =
      criticalSecurity (primary (group.map collapse)) := rfl
  rw [hfold, primary_map_collapse, collapse_criticalSecurity]

theorem exists_criticalSecurity_iff [Interp] (threshold : ℤ) (findings : List Finding) :
    (∃ f ∈ collapseRepeated threshold (merge findings), criticalSecurity f = true) ↔
      MarkSurvives threshold findings := by
  rw [MarkSurvives]
  constructor
  · rintro ⟨f, hf, hcrit⟩
    rcases mem_collapseRepeated.mp hf with ⟨hmem, hcoll⟩ | ⟨group, hgroup, hf⟩
    · obtain ⟨c, hc, rfl⟩ := List.mem_map.mp hmem
      exact .inl ⟨c, hc, collapsible_collapse c ▸ hcoll, collapse_criticalSecurity c ▸ hcrit⟩
    · rw [repeated_merge] at hgroup
      obtain ⟨clustered, hclustered, rfl⟩ := List.mem_map.mp hgroup
      refine .inr ⟨clustered, hclustered, ?_⟩
      rw [Cluster.members_map, List.length_map] at hf
      split at hf
      · obtain ⟨c, hc, rfl⟩ := List.mem_map.mp hf
        rw [if_pos (by assumption)]
        exact ⟨c, hc, collapse_criticalSecurity c ▸ hcrit⟩
      · rw [if_neg (by assumption), ← fold_criticalSecurity, ← hf]
        exact hcrit
  · rintro (⟨c, hc, hcoll, halarm⟩ | ⟨group, hgroup, h⟩)
    · refine ⟨collapse c, mem_collapseRepeated.mpr (.inl ⟨List.mem_map_of_mem hc, ?_⟩), ?_⟩
      · rwa [collapsible_collapse]
      · rwa [collapse_criticalSecurity]
    · have hmem : group.map collapse ∈ repeated (merge findings) := by
        rw [repeated_merge]
        exact List.mem_map_of_mem hgroup
      split at h
      · obtain ⟨c, hc, halarm⟩ := h
        refine ⟨collapse c, mem_collapseRepeated.mpr (.inr ⟨_, hmem, ?_⟩), ?_⟩
        · rw [Cluster.members_map, List.length_map, if_pos (by assumption)]
          exact List.mem_map_of_mem hc
        · rwa [collapse_criticalSecurity]
      · refine ⟨fold (group.map collapse), mem_collapseRepeated.mpr (.inr ⟨_, hmem, ?_⟩), ?_⟩
        · rw [Cluster.members_map, List.length_map, if_neg (by assumption)]
        · rwa [fold_criticalSecurity]

theorem report_criticalSecurity_iff [Interp] (settings : Settings) (verdicts : List AgentVerdict) :
    (∃ f ∈ (aggregate settings verdicts).1, criticalSecurity f = true) ↔
      MarkSurvives settings.collapseRepeatedAfter (okFindings verdicts) := by
  rw [← exists_criticalSecurity_iff]
  exact exists_congr fun f => and_congr_left fun _ => (aggregate_perm settings verdicts).mem_iff

theorem gate_withheld [Interp] {settings : Settings} {verdicts : List AgentVerdict}
    (hescalate : settings.escalateCriticalSecurity = true)
    (h : (∃ v ∈ verdicts, v.ok = false) ∨
      MarkSurvives settings.collapseRepeatedAfter (okFindings verdicts))
    (budgetExhausted isPublicRepo : Bool) :
    Withheld (gate settings verdicts budgetExhausted isPublicRepo) := by
  have hdecision : (gate settings verdicts budgetExhausted isPublicRepo).decision = .escalate := by
    rw [← report_criticalSecurity_iff] at h
    rw [gate, evaluate_decision, if_pos]
    rcases h with hfailed | hcrit
    · exact .inr (.inl hfailed)
    · exact .inr (.inr ⟨hcrit, hescalate⟩)
  refine ⟨by rw [hdecision]; decide, ?_⟩
  rw [gate_postable, hdecision, if_neg (by decide)]

def permissive (threshold : ℤ) : Settings where
  autoPostConfidence := 0
  findingPostConfidence := 0
  postMinSeverity := .info
  collapseRepeatedAfter := threshold

theorem clears_permissive (threshold : ℤ) (f : Finding) : clears (permissive threshold) f = true := by
  have hinfo : Severity.info.index = 0 := by decide
  simp [clears, permissive, hinfo, f.confidenceRange.1]

theorem aggregate_nonempty [Interp] (settings : Settings) {verdicts : List AgentVerdict}
    {f : Finding} (hf : f ∈ okFindings verdicts) : ∃ g, g ∈ (aggregate settings verdicts).1 := by
  obtain ⟨c, hc, _⟩ := exists_cluster (r := sameIssue) hf
  obtain ⟨g, hg⟩ := collapseRepeated_nonempty settings.collapseRepeatedAfter
    (List.mem_map_of_mem (f := collapse) hc)
  exact ⟨g, (aggregate_perm settings verdicts).mem_iff.mpr hg⟩

theorem gate_permissive [Interp] {threshold : ℤ} {verdicts : List AgentVerdict} {f : Finding}
    (hf : f ∈ okFindings verdicts) (hok : ∀ v ∈ verdicts, v.ok = true)
    (hlost : ¬ MarkSurvives threshold (okFindings verdicts)) :
    (gate (permissive threshold) verdicts false false).decision = .autoPost := by
  have hcrit : ¬ ∃ g ∈ (aggregate (permissive threshold) verdicts).1, criticalSecurity g = true :=
    fun h => hlost ((report_criticalSecurity_iff _ _).mp h)
  have hveto : ¬ (false = true ∨ (∃ v ∈ verdicts, v.ok = false) ∨
      ((∃ g ∈ (aggregate (permissive threshold) verdicts).1, criticalSecurity g = true) ∧
        (permissive threshold).escalateCriticalSecurity = true)) := by
    rintro (h | ⟨v, hv, h⟩ | ⟨h, _⟩)
    · cases h
    · rw [hok v hv] at h
      cases h
    · exact hcrit h
  obtain ⟨g, hg⟩ := aggregate_nonempty (permissive threshold) hf
  rw [gate, evaluate_decision, if_neg hveto, if_neg, if_neg]
  · exact not_lt.mpr (overallConfidence_nonneg _ _)
  · intro h
    have hclear := h g hg
    rw [clears_permissive] at hclear
    cases hclear

/-- A critical security finding of a reporting agent is kept off GitHub, whatever
the other settings, exactly when the panel is incomplete or the mark survives. -/
theorem critical_security_withheld_iff [Interp] (verdicts : List AgentVerdict) (threshold : ℤ) :
    ((∃ f ∈ okFindings verdicts, criticalSecurity f = true) →
      ∀ (settings : Settings) (budgetExhausted isPublicRepo : Bool),
        settings.escalateCriticalSecurity = true → settings.collapseRepeatedAfter = threshold →
          Withheld (gate settings verdicts budgetExhausted isPublicRepo)) ↔
    ((∃ f ∈ okFindings verdicts, criticalSecurity f = true) →
      (∃ v ∈ verdicts, v.ok = false) ∨ MarkSurvives threshold (okFindings verdicts)) := by
  constructor
  · intro h hcrit
    by_contra hnot
    obtain ⟨hpanel, hlost⟩ := not_or.mp hnot
    have hok : ∀ v ∈ verdicts, v.ok = true := fun v hv => by
      by_contra hv'
      exact hpanel ⟨v, hv, by simpa using hv'⟩
    have ⟨f, hf, _⟩ := hcrit
    exact (h hcrit (permissive threshold) false false rfl rfl).1 (gate_permissive hf hok hlost)
  · rintro h hcrit settings budgetExhausted isPublicRepo hescalate rfl
    exact gate_withheld hescalate (h hcrit) budgetExhausted isPublicRepo

/-- The security agent and the correctness agent call one defect `logic`; the
second is surer of it. -/
def outworded : List AgentVerdict :=
  [{ agent := .security, findings := [.brief 1 .security .logic .critical 10 12 8] },
   { agent := .correctness, findings := [.brief 2 .correctness .logic .critical 10 12 9] },
   { agent := .tests }, { agent := .docs }]

def foldedAway : List AgentVerdict :=
  [{ agent := .security,
     findings := [.brief 1 .security .injection .critical 10 12 8] },
   { agent := .correctness },
   { agent := .tests,
     findings := [.brief 2 .tests .testCoverage .critical 10 12 9,
       .brief 3 .tests .testCoverage .critical 30 32 10,
       .brief 4 .tests .testCoverage .critical 50 52 9] },
   { agent := .docs }]

theorem critical_security_posted :
    let _ := asciiInterp
    (okFindings outworded).any criticalSecurity = true ∧
    (gate .default outworded false true).decision = .autoPost ∧
    (okFindings foldedAway).any criticalSecurity = true ∧
    (gate .default foldedAway false true).decision = .autoPost := by
  decide +kernel

end PrSentinel
