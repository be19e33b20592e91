import Mathlib.Algebra.BigOperators.Group.Finset.Basic
import Mathlib.Algebra.BigOperators.Ring.List
import Mathlib.Algebra.Order.BigOperators.Group.List
import Mathlib.Algebra.Order.BigOperators.GroupWithZero.Finset
import PrSentinel.Merging

set_option autoImplicit false

namespace PrSentinel
open Python Greedy

def OneAgent (c : Cluster Finding) : Prop := ∀ f ∈ c.members, f.agent = c.first.agent

instance (c : Cluster Finding) : Decidable (OneAgent c) :=
  inferInstanceAs (Decidable (∀ f ∈ c.members, f.agent = c.first.agent))

theorem mem_agentsOf [Interp] {fs : List Finding} {a : AgentType} :
    a ∈ agentsOf fs ↔ ∃ f ∈ fs, f.agent = a := by
  rw [agentsOf, Interp.mem_setOrder, List.mem_map]

theorem agentsOf_nodup [Interp] (fs : List Finding) : (agentsOf fs).Nodup :=
  (Interp.setOrder_perm _).nodup_iff.mpr (List.nodup_dedup _)

theorem oneAgent_iff [Interp] (c : Cluster Finding) :
    OneAgent c ↔ ¬ 1 < (agentsOf c.members).length := by
  have hfirst : c.first.agent ∈ agentsOf c.members := mem_agentsOf.mpr ⟨_, c.first_mem, rfl⟩
  constructor
  · intro h hlong
    obtain ⟨a, b, hne, hab⟩ : ∃ a b, a ≠ b ∧ a ∈ agentsOf c.members ∧ b ∈ agentsOf c.members := by
      refine ⟨(agentsOf c.members)[0], (agentsOf c.members)[1], ?_, List.getElem_mem _,
        List.getElem_mem _⟩
      exact fun heq =>
        absurd ((List.Nodup.getElem_inj_iff (agentsOf_nodup c.members)).mp heq) (by omega)
    have hall : ∀ x ∈ agentsOf c.members, x = c.first.agent := by
      intro x hx
      obtain ⟨f, hf, rfl⟩ := mem_agentsOf.mp hx
      exact h f hf
    exact hne ((hall a hab.1).trans (hall b hab.2).symm)
  · intro hshort f hf
    have hagent : f.agent ∈ agentsOf c.members := mem_agentsOf.mpr ⟨f, hf, rfl⟩
    obtain ⟨a, ha⟩ := List.length_eq_one_iff.mp
      (le_antisymm (not_lt.mp hshort) (List.length_pos_of_mem hfirst))
    rw [ha, List.mem_singleton] at hfirst hagent
    rw [hfirst, hagent]

theorem doubtOver_exact [ExactInterp] (agents : List AgentType) (fs : List Finding) :
    doubtOver agents fs = (agents.map fun a => 1 - bestOf a fs).prod := by
  simp only [doubtOver, ExactInterp.round_eq]
  rw [List.prod_eq_foldl, List.foldl_map]

theorem doubt_eq_prod [ExactInterp] (fs : List Finding) :
    doubt fs = ∏ a ∈ (fs.map Finding.agent).toFinset, (1 - bestOf a fs) := by
  have hagents : (fs.map Finding.agent).toFinset = (agentsOf fs).toFinset := by
    ext a
    simp [mem_agentsOf]
  rw [hagents, List.prod_toFinset _ (agentsOf_nodup fs)]
  exact doubtOver_exact _ fs

theorem bestOf_range (a : AgentType) (fs : List Finding) :
    0 ≤ 1 - bestOf a fs ∧ 1 - bestOf a fs ≤ 1 := by
  obtain ⟨hlo, hhi⟩ := bestConfidence_range (fs.filter (fun f => f.agent = a))
  rw [bestOf]
  constructor <;> linarith

def doubtBeside (a : AgentType) (fs : List Finding) : ℚ :=
  ∏ b ∈ (fs.map Finding.agent).toFinset.erase a, (1 - bestOf b fs)

theorem doubtBeside_range (a : AgentType) (fs : List Finding) :
    0 ≤ doubtBeside a fs ∧ doubtBeside a fs ≤ 1 :=
  ⟨Finset.prod_nonneg fun b _ => (bestOf_range b fs).1,
    Finset.prod_le_one (fun b _ => (bestOf_range b fs).1) fun b _ => (bestOf_range b fs).2⟩

theorem doubt_eq [ExactInterp] {a : AgentType} {fs : List Finding} (ha : ∃ f ∈ fs, f.agent = a) :
    doubt fs = (1 - bestOf a fs) * doubtBeside a fs := by
  have hmem : a ∈ (fs.map Finding.agent).toFinset := by simpa using ha
  rw [doubt_eq_prod, doubtBeside, Finset.mul_prod_erase _ (fun b => 1 - bestOf b fs) hmem]

theorem le_bestOf {fs : List Finding} {f : Finding} (hf : f ∈ fs) :
    f.confidence ≤ bestOf f.agent fs :=
  le_bestConfidence (List.mem_filter.mpr ⟨hf, by simp⟩)

theorem doubt_le [ExactInterp] {fs : List Finding} {f : Finding} (hf : f ∈ fs) :
    doubt fs ≤ 1 - f.confidence := by
  have hbeside := doubtBeside_range f.agent fs
  calc doubt fs = (1 - bestOf f.agent fs) * doubtBeside f.agent fs := doubt_eq ⟨f, hf, rfl⟩
    _ ≤ 1 - bestOf f.agent fs := mul_le_of_le_one_right (bestOf_range f.agent fs).1 hbeside.2
    _ ≤ 1 - f.confidence := sub_le_sub_left (le_bestOf hf) 1

/-- Agreement earns no more than this. -/
def confidenceCap : ℚ := 99 / 100

theorem mergedConfidence_of_many [ExactInterp] {c : Cluster Finding} (h : ¬ OneAgent c) :
    mergedConfidence c = min confidenceCap (1 - doubt c.members) := by
  rw [oneAgent_iff, not_not] at h
  rw [mergedConfidence, if_pos h, ExactInterp.round_eq, ExactInterp.round_eq]
  rfl

theorem mergedConfidence_of_one [Interp] {c : Cluster Finding} (h : OneAgent c) :
    mergedConfidence c = (primary c).confidence := if_neg ((oneAgent_iff c).mp h)

theorem mergedConfidence_le_cap [ExactInterp] (c : Cluster Finding) :
    mergedConfidence c ≤ confidenceCap ↔ (OneAgent c → (primary c).confidence ≤ confidenceCap) := by
  by_cases h : OneAgent c
  · rw [mergedConfidence_of_one h]
    simp [h]
  · rw [mergedConfidence_of_many h]
    simp [h]

theorem le_mergedConfidence [ExactInterp] {c : Cluster Finding} (h : ¬ OneAgent c) {f : Finding}
    (hf : f ∈ c.members) : min confidenceCap f.confidence ≤ mergedConfidence c := by
  have hdoubt := doubt_le hf
  rw [mergedConfidence_of_many h]
  exact min_le_min_left confidenceCap (by linarith)

theorem report_confidence_le [Interp] (settings : Settings) (verdicts : List AgentVerdict) {x : ℚ}
    (hx : 0 ≤ x) : (∀ g ∈ (aggregate settings verdicts).1, g.confidence ≤ x) ↔
      ∀ c ∈ clusters sameIssue (okFindings verdicts), mergedConfidence c ≤ x := by
  have hmerge : (∀ g ∈ merge (okFindings verdicts), g.confidence ≤ x) ↔
      ∀ c ∈ clusters sameIssue (okFindings verdicts), mergedConfidence c ≤ x := by
    simp [merge]
  have hreport (g : Finding) : g ∈ (aggregate settings verdicts).1 ↔ _ :=
    (aggregate_perm settings verdicts).mem_iff.trans mem_collapseRepeated
  rw [← hmerge]
  constructor
  · intro h g hg
    by_cases hcoll : collapsible g = true
    · obtain ⟨group, hgroup, hmem⟩ :=
        exists_cluster (r := sameAsk) (List.mem_filter.mpr ⟨hg, hcoll⟩)
      by_cases hfew : (group.members.length : ℤ) < settings.collapseRepeatedAfter
      · exact h g ((hreport g).mpr (.inr ⟨group, hgroup, by rwa [if_pos hfew]⟩))
      · have hfold := h (fold group) ((hreport _).mpr (.inr ⟨group, hgroup, by rw [if_neg hfew]⟩))
        exact (le_bestConfidence hmem).trans hfold
    · exact h g ((hreport g).mpr (.inl ⟨hg, by simpa using hcoll⟩))
  · intro h g hg
    have hmember {group : Cluster Finding}
        (hgroup : group ∈ repeated (merge (okFindings verdicts))) :
        ∀ f ∈ group.members, f.confidence ≤ x := fun f hf =>
      h f (List.mem_filter.mp (mem_of_mem_clusters hgroup hf)).1
    rcases (hreport g).mp hg with ⟨hg, -⟩ | ⟨group, hgroup, hg⟩
    · exact h g hg
    · split at hg
      · exact hmember hgroup g hg
      · rw [hg]
        exact bestConfidence_le.mpr ⟨hx, hmember hgroup⟩

/-- Nothing in the report exceeds the cap exactly if no agent alone makes a finding that
does; and whoever agrees is not outdone by the agreement. -/
theorem capped_iff [ExactInterp] (settings : Settings) (verdicts : List AgentVerdict) :
    ((∀ g ∈ (aggregate settings verdicts).1, 0 ≤ g.confidence ∧ g.confidence ≤ confidenceCap) ∧
      ∀ c : Cluster Finding, (∃ f ∈ c.members, ∃ g ∈ c.members, f.agent ≠ g.agent) →
        ∀ f ∈ c.members, min confidenceCap f.confidence ≤ (collapse c).confidence) ↔
      ∀ c ∈ clusters sameIssue (okFindings verdicts), OneAgent c →
        (primary c).confidence ≤ confidenceCap := by
  have hagree (c : Cluster Finding) (h : ∃ f ∈ c.members, ∃ g ∈ c.members, f.agent ≠ g.agent) :
      ∀ f ∈ c.members, min confidenceCap f.confidence ≤ (collapse c).confidence := by
    have hmany : ¬ OneAgent c := by
      intro hone
      obtain ⟨f, hf, g, hg, hne⟩ := h
      exact hne ((hone f hf).trans (hone g hg).symm)
    intro f hf
    rw [collapse_confidence]
    exact le_mergedConfidence hmany hf
  rw [and_iff_left hagree]
  simp only [← mergedConfidence_le_cap]
  rw [← report_confidence_le settings verdicts (by norm_num [confidenceCap])]
  exact forall₂_congr fun g _ => and_iff_right g.confidenceRange.1

/-- One agent, entirely sure. -/
theorem certain_alone :
    let _ := exactInterp
    let verdicts : List AgentVerdict :=
      [{ agent := .security, findings := [.brief 1 .security .injection .major 3 4 10] }]
    ¬ ∀ g ∈ (aggregate .default verdicts).1, 0 ≤ g.confidence ∧ g.confidence ≤ confidenceCap := by
  intro _ _ h
  have hreport := h (.brief 1 .security .injection .major 3 4 10) (by decide +kernel)
  revert hreport
  decide +kernel

theorem bestConfidence_append (fs : List Finding) (d : Finding) :
    bestConfidence (fs ++ [d]) = max (bestConfidence fs) d.confidence := by
  simp [bestConfidence, List.foldl_append]

theorem bestOf_append (a : AgentType) (fs : List Finding) (d : Finding) :
    bestOf a (fs ++ [d]) = if d.agent = a then max (bestOf a fs) d.confidence else bestOf a fs := by
  by_cases h : d.agent = a
  · simp [bestOf, h, bestConfidence_append]
  · simp [bestOf, h]

theorem doubtBeside_append (fs : List Finding) (d : Finding) :
    doubtBeside d.agent (fs ++ [d]) = doubtBeside d.agent fs := by
  have hothers : ((fs ++ [d]).map Finding.agent).toFinset.erase d.agent =
      (fs.map Finding.agent).toFinset.erase d.agent := by
    ext a
    by_cases ha : a = d.agent <;> simp [ha]
  rw [doubtBeside, hothers]
  refine Finset.prod_congr rfl fun a ha => ?_
  rw [bestOf_append, if_neg (Finset.ne_of_mem_erase ha).symm]

theorem doubt_append [ExactInterp] {fs : List Finding} {d : Finding} :
    doubt (fs ++ [d]) = (1 - max (bestOf d.agent fs) d.confidence) * doubtBeside d.agent fs := by
  rw [doubt_eq ⟨d, by simp, rfl⟩, doubtBeside_append, bestOf_append, if_pos rfl]

theorem oneAgent_add {c : Cluster Finding} {d : Finding}
    (hagent : ∃ f ∈ c.members, f.agent = d.agent) : OneAgent (c.add d) ↔ OneAgent c := by
  obtain ⟨f, hf, hfd⟩ := hagent
  constructor
  · exact fun h g hg => h g (Cluster.mem_add.mpr (.inl hg))
  · intro h g hg
    rcases Cluster.mem_add.mp hg with hg | rfl
    · exact h g hg
    · exact hfd.symm.trans (h f hf)

theorem primary_add {c : Cluster Finding} {d : Finding}
    (hsevere : ∃ f ∈ c.members, d.severity.index < f.severity.index) :
    primary (c.add d) = primary c := by
  obtain ⟨f, hf, hlt⟩ := hsevere
  have hprimary : d.severity.index < (primary c).severity.index := hlt.trans_le (primary_severe hf)
  have hstrength : strength d < strength (primary c) := Prod.Lex.toLex_lt_toLex.mpr (.inl hprimary)
  rw [primary, Cluster.winner_add]
  exact if_neg hstrength.not_gt

/-- A finding that an agent adds to its own leaves the merged confidence exactly if no
other agent is in the cluster, or it is not the agent's surest, or the cap is reached. -/
theorem repetition_raises_nothing_iff [ExactInterp] {c : Cluster Finding} {d : Finding}
    (hagent : ∃ f ∈ c.members, f.agent = d.agent)
    (hsevere : ∃ f ∈ c.members, d.severity.index < f.severity.index) :
    (collapse (c.add d)).confidence = (collapse c).confidence ↔
      OneAgent c ∨ d.confidence ≤ bestOf d.agent c.members ∨
        doubt c.members ≤ 1 - confidenceCap := by
  rw [collapse_confidence, collapse_confidence]
  by_cases hone : OneAgent c
  · rw [mergedConfidence_of_one hone, mergedConfidence_of_one ((oneAgent_add hagent).mpr hone),
      primary_add hsevere]
    simp [hone]
  · rw [mergedConfidence_of_many hone, mergedConfidence_of_many (mt (oneAgent_add hagent).mp hone),
      Cluster.members_add, doubt_append, doubt_eq hagent, or_iff_right hone]
    have hrange := doubtBeside_range d.agent c.members
    set best := bestOf d.agent c.members
    set beside := doubtBeside d.agent c.members
    have hless : (1 - max best d.confidence) * beside ≤ (1 - best) * beside :=
      mul_le_mul_of_nonneg_right (sub_le_sub_left (le_max_left _ _) 1) hrange.1
    constructor
    · intro heq
      by_contra hnot
      obtain ⟨hsurer, hbelow⟩ := not_or.mp hnot
      rw [not_le] at hsurer hbelow
      have hcap : (0 : ℚ) < 1 - confidenceCap := by norm_num [confidenceCap]
      have hbeside : 0 < beside := by
        refine hrange.1.lt_of_ne fun hzero => ?_
        rw [← hzero, mul_zero] at hbelow
        linarith
      have hstrict : (1 - d.confidence) * beside < (1 - best) * beside :=
        mul_lt_mul_of_pos_right (sub_lt_sub_left hsurer 1) hbeside
      rw [max_eq_right hsurer.le, min_eq_right (by linarith : 1 - (1 - best) * beside ≤ _)] at heq
      rcases min_choice confidenceCap (1 - (1 - d.confidence) * beside) with hmin | hmin
      · linarith
      · linarith
    · rintro (hbest | hreached)
      · rw [max_eq_left hbest]
      · rw [min_eq_left (by linarith), min_eq_left (by linarith)]

def agreed : Cluster Finding :=
  ⟨.brief 1 .security .injection .major 3 4 5, [.brief 2 .correctness .injection .major 3 4 5]⟩

theorem surer_repetition_raises :
    let _ := exactInterp
    let d : Finding := .brief 3 .security .injection .minor 3 4 8
    (∃ f ∈ agreed.members, f.agent = d.agent) ∧
      (∃ f ∈ agreed.members, d.severity.index < f.severity.index) ∧
      (collapse (agreed.add d)).confidence ≠ (collapse agreed).confidence := by
  decide +kernel

theorem unsure_repetition_raises_nothing :
    let _ := exactInterp
    (collapse (agreed.add (.brief 3 .security .injection .minor 3 4 2))).confidence =
      (collapse agreed).confidence :=
  let _ := exactInterp
  (repetition_raises_nothing_iff (by decide) (by decide)).mpr (.inr (.inl (by decide +kernel)))

/-- The severity-weighted mean; nothing to say is a confident outcome. -/
def meanConfidence : List Finding → ℚ
  | [] => 1
  | f :: fs => ((f :: fs).map fun g => g.confidence * g.severity.weight).sum /
      ((f :: fs).map fun g => g.severity.weight).sum

theorem overallConfidence_eq (findings : List Finding) (verdicts : List AgentVerdict) :
    overallConfidence findings verdicts =
      pyRound 3 (meanConfidence findings * panelHealth verdicts) := by
  cases findings with
  | nil => rw [overallConfidence, meanConfidence, one_mul]
  | cons f fs => rfl

theorem weights_pos {findings : List Finding} (hne : findings ≠ []) :
    0 < (findings.map fun f => f.severity.weight).sum := by
  refine List.sum_pos _ (fun w hw => ?_) (by simpa using hne)
  obtain ⟨f, -, rfl⟩ := List.mem_map.mp hw
  exact f.severity.weight_pos

theorem meanConfidence_of_ne_nil {findings : List Finding} (hne : findings ≠ []) :
    meanConfidence findings = (findings.map fun f => f.confidence * f.severity.weight).sum /
      (findings.map fun f => f.severity.weight).sum := by
  obtain ⟨f, fs, rfl⟩ := List.exists_cons_of_ne_nil hne
  rfl

theorem meanConfidence_lt {findings : List Finding} (hne : findings ≠ []) {x : ℚ}
    (h : ∀ f ∈ findings, f.confidence < x) : meanConfidence findings < x := by
  have hsum : (findings.map fun f => f.confidence * f.severity.weight).sum <
      (findings.map fun f => x * f.severity.weight).sum :=
    List.sum_lt_sum_of_ne_nil hne _ _ fun f hf =>
      mul_lt_mul_of_pos_right (h f hf) f.severity.weight_pos
  rw [List.sum_map_mul_left] at hsum
  rw [meanConfidence_of_ne_nil hne]
  exact (div_lt_iff₀ (weights_pos hne)).mpr hsum

theorem meanConfidence_nonneg (findings : List Finding) : 0 ≤ meanConfidence findings := by
  cases findings with
  | nil => exact zero_le_one
  | cons f fs =>
    have hne : f :: fs ≠ [] := List.cons_ne_nil f fs
    rw [meanConfidence_of_ne_nil hne]
    refine div_nonneg (List.sum_nonneg fun x hx => ?_) (weights_pos hne).le
    obtain ⟨g, -, rfl⟩ := List.mem_map.mp hx
    exact mul_nonneg g.confidenceRange.1 g.severity.weight_pos.le

theorem meanConfidence_le_one (findings : List Finding) : meanConfidence findings ≤ 1 := by
  cases findings with
  | nil => exact le_rfl
  | cons f fs =>
    have hne : f :: fs ≠ [] := List.cons_ne_nil f fs
    rw [meanConfidence_of_ne_nil hne, div_le_one (weights_pos hne)]
    refine List.sum_le_sum fun g _ => ?_
    exact mul_le_of_le_one_left g.severity.weight_pos.le g.confidenceRange.2

theorem panelHealth_le_one (verdicts : List AgentVerdict) : panelHealth verdicts ≤ 1 := by
  unfold panelHealth
  split
  · exact zero_le_one
  · refine div_le_one_of_le₀ ?_ (Nat.cast_nonneg _)
    exact_mod_cast List.length_filter_le _ _

/-- Above this a mean is rounded to the threshold, or beyond. -/
def roundsTo (threshold : ℚ) : ℚ := (⌈threshold * 10 ^ 3⌉ - 1 / 2) / 10 ^ 3

theorem pyRound_lt_of_le_roundsTo {threshold q : ℚ} (h : q < roundsTo threshold) :
    pyRound 3 q < threshold := by
  rw [← not_le, le_pyRound_iff, not_le]
  refine roundHalfEven_lt ?_
  rwa [roundsTo, lt_div_iff₀ (by positivity)] at h

theorem le_pyRound_of_roundsTo_lt {threshold q : ℚ} (h : roundsTo threshold < q) :
    threshold ≤ pyRound 3 q := by
  rw [le_pyRound_iff]
  refine le_roundHalfEven ?_
  rwa [roundsTo, div_lt_iff₀ (by positivity)] at h

def sureOf (q : ℚ) (h : 0 ≤ q ∧ q ≤ 1) : Finding :=
  { Finding.brief 1 .docs .other .minor 1 1 0 with confidence := q, confidenceRange := h }

theorem overallConfidence_sureOf (q : ℚ) (h : 0 ≤ q ∧ q ≤ 1) :
    overallConfidence [sureOf q h] [{ agent := .docs }] = pyRound 3 q := by
  have hhealth : panelHealth [{ agent := .docs }] = 1 := by decide +kernel
  have hweight : (sureOf q h).severity.weight ≠ 0 := (sureOf q h).severity.weight_pos.ne'
  rw [overallConfidence_eq, hhealth, mul_one, meanConfidence_of_ne_nil (List.cons_ne_nil _ _)]
  simp only [List.map_cons, List.map_nil, List.sum_cons, List.sum_nil, add_zero]
  rw [mul_div_cancel_right₀ _ hweight]
  rfl

/-- The ordering of the thresholds leaves something to say exactly if half a thousandth
is kept between them, or the lower one is zero. -/
theorem gate_ordering_suffices_iff (settings : Settings) :
    (∀ (findings : List Finding) (verdicts : List AgentVerdict), findings ≠ [] →
      settings.autoPostConfidence ≤ overallConfidence findings verdicts →
        ∃ f ∈ findings, settings.findingPostConfidence ≤ f.confidence) ↔
      settings.findingPostConfidence = 0 ∨
        settings.findingPostConfidence ≤ roundsTo settings.autoPostConfidence := by
  obtain ⟨hnonneg, hle⟩ := settings.findingPostRange
  constructor
  · intro h
    by_contra hnot
    obtain ⟨hzero, hbelow⟩ := not_or.mp hnot
    have hpos : 0 < settings.findingPostConfidence := hnonneg.lt_of_ne' hzero
    obtain ⟨q, hq, hlt⟩ := exists_between (max_lt hpos (not_le.mp hbelow))
    have hrange : 0 ≤ q ∧ q ≤ 1 := ⟨(le_max_left _ _).trans hq.le, hlt.le.trans hle⟩
    have hrounds : settings.autoPostConfidence ≤ pyRound 3 q :=
      le_pyRound_of_roundsTo_lt ((le_max_right _ _).trans_lt hq)
    rw [← overallConfidence_sureOf q hrange] at hrounds
    obtain ⟨f, hf, hconfidence⟩ := h _ _ (List.cons_ne_nil _ _) hrounds
    rw [List.mem_singleton.mp hf] at hconfidence
    exact absurd hconfidence (not_le.mpr hlt)
  · rintro hcond findings verdicts hne hoverall
    by_contra hnone
    push Not at hnone
    have hmean : meanConfidence findings * panelHealth verdicts < settings.findingPostConfidence :=
      (mul_le_of_le_one_right (meanConfidence_nonneg findings) (panelHealth_le_one verdicts)).trans_lt
        (meanConfidence_lt hne hnone)
    rcases hcond with hzero | hbelow
    · obtain ⟨f, hf⟩ := List.exists_mem_of_ne_nil findings hne
      have hlow := hnone f hf
      rw [hzero] at hlow
      exact absurd hlow (not_lt.mpr f.confidenceRange.1)
    · rw [overallConfidence_eq] at hoverall
      exact absurd hoverall (not_le.mpr (pyRound_lt_of_le_roundsTo (hmean.trans_le hbelow)))

def levelSettings : Settings :=
  { Settings.default with
    findingPostConfidence := 7 / 10
    findingPostRange := by norm_num
    gateOrdering := by norm_num [Settings.default] }

theorem level_settings_nothing_left :
    ¬ ∀ (findings : List Finding) (verdicts : List AgentVerdict), findings ≠ [] →
      levelSettings.autoPostConfidence ≤ overallConfidence findings verdicts →
        ∃ f ∈ findings, levelSettings.findingPostConfidence ≤ f.confidence := by
  intro h
  have hfound := h [sureOf (6996 / 10000) (by norm_num)] [{ agent := .docs }] (by simp)
    (by decide +kernel)
  revert hfound
  decide +kernel

def totalWeight (ps : List (ℚ × ℚ)) : ℚ := (ps.map Prod.fst).sum

def sureness (ps : List (ℚ × ℚ)) : ℚ := (ps.map fun p => p.2 * p.1).sum

def meanOf (ps : List (ℚ × ℚ)) : ℚ := if ps = [] then 1 else sureness ps / totalWeight ps

theorem meanConfidence_eq_meanOf (findings : List Finding) :
    meanConfidence findings = meanOf (findings.map fun f => (f.severity.weight, f.confidence)) := by
  cases findings with
  | nil => rfl
  | cons f fs => simp [meanConfidence, meanOf, totalWeight, sureness, Function.comp_def]

theorem meanOf_perm {ps qs : List (ℚ × ℚ)} (h : ps.Perm qs) : meanOf ps = meanOf qs := by
  have hnil : ps = [] ↔ qs = [] := ⟨fun hps => (hps ▸ h).nil_eq.symm, fun hqs => (hqs ▸ h).eq_nil⟩
  have hweight : totalWeight ps = totalWeight qs := (h.map _).sum_eq
  have hsure : sureness ps = sureness qs := (h.map _).sum_eq
  simp only [meanOf, hnil, hweight, hsure]

section Weighings
variable [Interp]

/-- What a cluster that is left alone brings to the mean: weight and confidence. -/
def weighed (c : Cluster Finding) : ℚ × ℚ := ((primary c).severity.weight, mergedConfidence c)

/-- A group that is folded weighs as much as its strongest cluster and is as sure as
its surest. -/
def weighedTogether (group : Cluster (Cluster Finding)) : ℚ × ℚ :=
  ((primary (group.winner mergedStrength)).severity.weight,
    (group.members.map mergedConfidence).foldl max 0)

def weighings (threshold : ℤ) (findings : List Finding) : List (ℚ × ℚ) :=
  ((clusters sameIssue findings).filter fun c => !collapsible (primary c)).map weighed ++
    (repeatedClusters findings).flatMap fun group =>
      if (group.members.length : ℤ) < threshold then group.members.map weighed
      else [weighedTogether group]

theorem collapseRepeated_weighings (threshold : ℤ) (findings : List Finding) :
    (collapseRepeated threshold (merge findings)).map
      (fun f => (f.severity.weight, f.confidence)) = weighings threshold findings := by
  have hfold (group : Cluster (Cluster Finding)) :
      ((fold (group.map collapse)).severity.weight, (fold (group.map collapse)).confidence) =
        weighedTogether group := by
    have hseverity : (fold (group.map collapse)).severity = (primary (group.map collapse)).severity :=
      rfl
    have hconfidence : (fold (group.map collapse)).confidence =
      bestConfidence (group.map collapse).members := rfl
    rw [hseverity, hconfidence, primary_map_collapse, collapse_severity, bestConfidence,
      Cluster.members_map, List.map_map]
    simp only [weighedTogether, Function.comp_def, collapse_confidence]
  rw [collapseRepeated_merge, weighings, List.map_append, List.map_map, List.map_flatMap]
  simp only [Function.comp_def, collapse_severity, collapse_confidence]
  refine congrArg₂ _ rfl (congrArg (fun f => List.flatMap f _) (funext fun group => ?_))
  split
  · simp [weighed]
  · rw [List.map_singleton, hfold]

theorem aggregate_confidence (settings : Settings) (verdicts : List AgentVerdict) :
    (aggregate settings verdicts).2 =
      pyRound 3 (meanOf (weighings settings.collapseRepeatedAfter (okFindings verdicts)) *
        panelHealth verdicts) := by
  have hmean : meanConfidence (aggregate settings verdicts).1 =
      meanOf (weighings settings.collapseRepeatedAfter (okFindings verdicts)) := by
    rw [meanConfidence_eq_meanOf, ← collapseRepeated_weighings]
    exact meanOf_perm ((aggregate_perm settings verdicts).map _)
  rw [← hmean]
  exact overallConfidence_eq _ _

end Weighings

theorem weighings_eq_nil_iff [Interp] {threshold : ℤ} {findings : List Finding} :
    weighings threshold findings = [] ↔ findings = [] := by
  constructor
  · intro hnil
    by_contra hne
    obtain ⟨f, hf⟩ := List.exists_mem_of_ne_nil findings hne
    obtain ⟨c, hc, -⟩ := exists_cluster (r := sameIssue) hf
    obtain ⟨g, hg⟩ := collapseRepeated_nonempty threshold (List.mem_map_of_mem (f := collapse) hc)
    rw [← collapseRepeated_weighings, List.map_eq_nil_iff] at hnil
    rw [← merge, hnil] at hg
    cases hg
  · rintro rfl
    rfl

theorem totalWeight_pos [Interp] {threshold : ℤ} {findings : List Finding} (hne : findings ≠ []) :
    0 < totalWeight (weighings threshold findings) := by
  have hreport : collapseRepeated threshold (merge findings) ≠ [] := by
    intro hnil
    have hnone : weighings threshold findings = [] := by
      rw [← collapseRepeated_weighings threshold findings, hnil]
      rfl
    exact hne (weighings_eq_nil_iff.mp hnone)
  have hpos := weights_pos hreport
  rw [← collapseRepeated_weighings, totalWeight, List.map_map]
  exact hpos

theorem meanOf_range [Interp] (threshold : ℤ) (findings : List Finding) :
    0 ≤ meanOf (weighings threshold findings) ∧ meanOf (weighings threshold findings) ≤ 1 := by
  rw [← collapseRepeated_weighings, ← meanConfidence_eq_meanOf]
  exact ⟨meanConfidence_nonneg _, meanConfidence_le_one _⟩

theorem weighings_split [Interp] (threshold : ℤ) (xs : List Finding) (p : Finding → Bool)
    (hissue : ∀ f ∈ xs, ∀ g ∈ xs, p f ≠ p g → sameIssue f g = false)
    (hask : ∀ f ∈ xs, ∀ g ∈ xs, p f ≠ p g → sameAsk f g = false) :
    (weighings threshold xs).Perm
      (weighings threshold (xs.filter p) ++ weighings threshold (xs.filter fun f => !p f)) := by
  have hnot {f g : Finding} : (!p f) ≠ (!p g) ↔ p f ≠ p g := by simp
  have hown := clusters_filter (r := sameIssue) hissue
  have hothers := clusters_filter (r := sameIssue) (p := fun f => !p f)
    fun f hf g hg hne => hissue f hf g hg (hnot.mp hne)
  have hclusters : (clusters sameIssue xs).Perm
      (clusters sameIssue (xs.filter p) ++ clusters sameIssue (xs.filter fun f => !p f)) := by
    rw [← hown, ← hothers]
    exact (List.filter_append_perm _ _).symm
  -- the primary of a cluster is of the kind of all its members
  have happart : ∀ c ∈ (clusters sameIssue xs).filter (fun c => collapsible (primary c)),
      ∀ d ∈ (clusters sameIssue xs).filter (fun c => collapsible (primary c)),
        p c.first ≠ p d.first → sameAsk (primary c) (primary d) = false := by
    intro c hc d hd hne
    have hc' := (List.mem_filter.mp hc).1
    have hd' := (List.mem_filter.mp hd).1
    refine hask _ (mem_of_mem_clusters hc' (primary_mem c)) _
      (mem_of_mem_clusters hd' (primary_mem d)) ?_
    rwa [clusters_kind hissue c hc' _ (primary_mem c), clusters_kind hissue d hd' _ (primary_mem d)]
  have hgroups : (repeatedClusters xs).Perm
      (repeatedClusters (xs.filter p) ++ repeatedClusters (xs.filter fun f => !p f)) := by
    have hmine := clusters_filter (p := fun c : Cluster Finding => p c.first) happart
    have hyours := clusters_filter (p := fun c : Cluster Finding => !p c.first)
      fun c hc d hd hne => happart c hc d hd (by simpa using hne)
    rw [List.filter_comm, hown] at hmine
    rw [List.filter_comm, hothers] at hyours
    rw [repeatedClusters, repeatedClusters, repeatedClusters, ← hmine, ← hyours]
    exact (List.filter_append_perm _ _).symm
  rw [weighings, weighings, weighings]
  refine (((hclusters.filter _).map _).append (hgroups.flatMap_right _)).trans ?_
  rw [List.filter_append, List.map_append, List.flatMap_append, ← Multiset.coe_eq_coe]
  simp only [← Multiset.coe_add]
  exact add_add_add_comm _ _ _ _

section Loss
variable {before after : List AgentVerdict} {v w : AgentVerdict}

variable (before after) in
theorem panelHealth_loss (hv : v.ok = true) (hw : w.ok = false) :
    panelHealth (before ++ v :: after) =
        ((before ++ v :: after).filter AgentVerdict.ok).length / (before ++ v :: after).length ∧
      panelHealth (before ++ w :: after) =
        (((before ++ v :: after).filter AgentVerdict.ok).length - 1) /
          (before ++ v :: after).length := by
  constructor
  · simp [panelHealth]
  · have hheard : (((before ++ w :: after).filter AgentVerdict.ok).length : ℚ) =
        ((before ++ v :: after).filter AgentVerdict.ok).length - 1 := by
      simp only [List.filter_append, List.filter_cons, hv, hw, if_true, List.length_append,
        List.length_cons, Bool.false_eq_true, if_false]
      push_cast
      ring
    have hlength : (before ++ w :: after).length = (before ++ v :: after).length := by simp
    rw [panelHealth, if_neg (by simp), hheard, hlength]

theorem okFindings_failed (hw : w.ok = false) :
    okFindings (before ++ w :: after) = okFindings (before ++ after) := by
  simp [okFindings, List.filter_append, hw]

theorem okFindings_silent (hsilent : v.findings = []) :
    okFindings (before ++ v :: after) = okFindings (before ++ after) := by
  simp only [okFindings, List.filter_append, List.filter_cons]
  split <;> simp [hsilent]

/-- What the agent adds to the report, taken at the mean of the rest, does not outweigh
the confidence that it adds. -/
def Outweighed (heard : ℚ) (full rest : List (ℚ × ℚ)) : Prop :=
  (heard - 1) * meanOf rest * (totalWeight full - totalWeight rest) ≤
    sureness rest + heard * (sureness full - sureness rest)

theorem outweighed_iff [Interp] {threshold : ℤ} {xs ys : List Finding} (hsub : xs = [] → ys = [])
    (heard : ℚ) :
    Outweighed heard (weighings threshold xs) (weighings threshold ys) ↔
      (heard - 1) * meanOf (weighings threshold ys) ≤ heard * meanOf (weighings threshold xs) := by
  by_cases hxs : xs = []
  · rw [hsub hxs, hxs]
    simp [Outweighed, weighings_eq_nil_iff.mpr rfl, meanOf, totalWeight, sureness]
  · have hfull : 0 < totalWeight (weighings threshold xs) := totalWeight_pos hxs
    have hmean : meanOf (weighings threshold xs) =
        sureness (weighings threshold xs) / totalWeight (weighings threshold xs) :=
      if_neg (mt weighings_eq_nil_iff.mp hxs)
    have hrest : sureness (weighings threshold ys) =
        meanOf (weighings threshold ys) * totalWeight (weighings threshold ys) := by
      by_cases hys : ys = []
      · rw [weighings_eq_nil_iff.mpr hys]
        simp [totalWeight, sureness]
      · rw [meanOf, if_neg (mt weighings_eq_nil_iff.mp hys),
          div_mul_cancel₀ _ (totalWeight_pos hys).ne']
    rw [hmean, ← mul_div_assoc, le_div_iff₀ hfull, Outweighed, hrest]
    constructor <;> intro h <;> linarith

theorem discounted_le {panel share share' mean mean' : ℚ} (hpanel : 0 < panel)
    (h : share * mean ≤ share' * mean') :
    pyRound 3 (mean * (share / panel)) ≤ pyRound 3 (mean' * (share' / panel)) := by
  refine pyRound_mono 3 ?_
  rw [← mul_div_assoc, ← mul_div_assoc, div_le_div_iff_of_pos_right hpanel]
  linarith

/-- The findings of the agent have nothing to do with those of the others. -/
structure SetApart [Interp] (before after : List AgentVerdict) (v : AgentVerdict) : Prop where
  own : ∀ f ∈ v.findings, f.agent = v.agent
  others : ∀ g ∈ okFindings (before ++ after), g.agent ≠ v.agent
  issues : ∀ f ∈ v.findings, ∀ g ∈ okFindings (before ++ after), sameIssue f g = false

theorem okFindings_insert (hv : v.ok = true) : okFindings (before ++ v :: after) =
    okFindings before ++ v.findings ++ okFindings after := by
  simp [okFindings, List.filter_append, hv]

theorem okFindings_append (us vs : List AgentVerdict) :
    okFindings (us ++ vs) = okFindings us ++ okFindings vs := by
  simp [okFindings, List.filter_append]

theorem SetApart.others_filter [Interp] (h : SetApart before after v) :
    (∀ g ∈ okFindings before, g.agent ≠ v.agent) ∧ ∀ g ∈ okFindings after, g.agent ≠ v.agent := by
  have hothers := h.others
  rw [okFindings_append] at hothers
  exact List.forall_mem_append.mp hothers

theorem SetApart.filter_own [Interp] (h : SetApart before after v) (hv : v.ok = true) :
    (okFindings (before ++ v :: after)).filter (fun f => f.agent = v.agent) = v.findings := by
  have hnone {gs : List Finding} (hgs : ∀ g ∈ gs, g.agent ≠ v.agent) :
      gs.filter (fun f => f.agent = v.agent) = [] :=
    List.filter_eq_nil_iff.mpr (by simpa using hgs)
  have hall : v.findings.filter (fun f => f.agent = v.agent) = v.findings :=
    List.filter_eq_self.mpr (by simpa using h.own)
  rw [okFindings_insert hv, List.filter_append, List.filter_append, hnone h.others_filter.1,
    hnone h.others_filter.2, hall, List.nil_append, List.append_nil]

theorem SetApart.filter_others [Interp] (h : SetApart before after v) (hv : v.ok = true) :
    (okFindings (before ++ v :: after)).filter (fun f => !(f.agent = v.agent : Bool)) =
      okFindings (before ++ after) := by
  have hall {gs : List Finding} (hgs : ∀ g ∈ gs, g.agent ≠ v.agent) :
      gs.filter (fun f => !(f.agent = v.agent : Bool)) = gs :=
    List.filter_eq_self.mpr (by simpa using hgs)
  have hnone : v.findings.filter (fun f => !(f.agent = v.agent : Bool)) = [] :=
    List.filter_eq_nil_iff.mpr (by simpa using h.own)
  rw [okFindings_insert hv, List.filter_append, List.filter_append, hall h.others_filter.1,
    hall h.others_filter.2, hnone, List.append_nil, okFindings_append]

theorem SetApart.weighings [Interp] (h : SetApart before after v) (hv : v.ok = true) (threshold : ℤ) :
    (PrSentinel.weighings threshold (okFindings (before ++ v :: after))).Perm
      (PrSentinel.weighings threshold v.findings ++
        PrSentinel.weighings threshold (okFindings (before ++ after))) := by
  have hown := h.filter_own hv
  have hothers := h.filter_others hv
  have hmem (f : Finding) (hf : f ∈ okFindings (before ++ v :: after)) :
      f.agent = v.agent ∧ f ∈ v.findings ∨ f.agent ≠ v.agent ∧ f ∈ okFindings (before ++ after) := by
    by_cases hagent : f.agent = v.agent
    · exact .inl ⟨hagent, hown ▸ List.mem_filter.mpr ⟨hf, by simpa using hagent⟩⟩
    · exact .inr ⟨hagent, hothers ▸ List.mem_filter.mpr ⟨hf, by simpa using hagent⟩⟩
  have hsplit := weighings_split threshold (okFindings (before ++ v :: after))
    (fun f => f.agent = v.agent) ?_ ?_
  · rwa [hown, hothers] at hsplit
  · intro f hf g hg hne
    rcases hmem f hf with ⟨hfv, hf⟩ | ⟨hfv, hf⟩
    · rcases hmem g hg with ⟨hgv, -⟩ | ⟨-, hg⟩
      · simp [hfv, hgv] at hne
      · exact h.issues f hf g hg
    · rcases hmem g hg with ⟨-, hg⟩ | ⟨hgv, -⟩
      · rw [sameIssue_comm]
        exact h.issues g hg f hf
      · simp [hfv, hgv] at hne
  · intro f _ g _ hne
    by_contra hsame
    simp only [sameAsk, Bool.not_eq_false, Bool.and_eq_true, decide_eq_true_eq] at hsame
    rw [hsame.1] at hne
    exact hne rfl

end Loss

def sureOne : List AgentVerdict :=
  [{ agent := .security, findings := [.brief 1 .security .injection .major 3 4 9] }]

def elsewhere (tenths : ℕ) : AgentVerdict :=
  { agent := .correctness, findings := [.brief 2 .correctness .logic .major 40 41 tenths] }

def timedOut : AgentVerdict := { agent := .correctness, status := .timeout }

def silentTwo : List AgentVerdict := [{ agent := .tests }, { agent := .docs }]

end PrSentinel
