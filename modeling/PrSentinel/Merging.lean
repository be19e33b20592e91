import PrSentinel.Aggregator

/-!
What merging makes of the findings it is given: each output stands for a cluster of
them, and is put together from its members.
-/

set_option autoImplicit false

namespace PrSentinel
open Python Greedy

/-- The members as `_collapse` leaves them: all but the primary point to it. -/
def absorb (c : Cluster Finding) : List Finding :=
  match c.rest with
  | [] => [c.first]
  | _ :: _ =>
    c.members.map fun f =>
      if f.id ≠ (primary c).id then { f with mergedInto := some (primary c).id } else f

/-- `_merge`, with the findings of each cluster as they are left. -/
def mergeInPlace [Interp] (findings : List Finding) : List (Finding × List Finding) :=
  (clusters sameIssue findings).map fun c => (collapse c, absorb c)

theorem mergeInPlace_outputs [Interp] (findings : List Finding) :
    (mergeInPlace findings).map Prod.fst = merge findings := by
  simp [mergeInPlace, merge]

/-- What one output says of the part of the findings it stands for. -/
structure StandsFor [Interp] (part : List Finding) (out : Finding) (after : List Finding) :
    Prop where
  sameFile : ∀ f ∈ part, ∀ g ∈ part, f.filePath = g.filePath
  linked : ∀ f ∈ part, ∀ g ∈ part, Chained sameIssue part f g
  starts : IsLeast (Finding.lineStart '' {f | f ∈ part}) out.lineStart
  ends : IsGreatest (Finding.lineEnd '' {f | f ∈ part}) out.lineEnd
  severe : (∃ f ∈ part, f.severity = out.severity) ∧
    ∀ f ∈ part, f.severity.index ≤ out.severity.index
  alone : ∀ f, part = [f] → out = f
  agents : part.length ≠ 1 →
    out.agreeing.Nodup ∧ ∀ name, name ∈ out.agreeing ↔ ∃ f ∈ part, f.agent.value = name
  concerns : part.length ≠ 1 →
    out.categories.Nodup ∧ ∀ name, name ∈ out.categories ↔ ∃ f ∈ part, f.category.value = name
  spoken : ∃ p ∈ part, out.id = p.id ∧ out.agent = p.agent ∧ out.category = p.category ∧
    out.title = p.title ∧ out.rationale = p.rationale ∧
    after = part.map fun f => if f = p then f else { f with mergedInto := some p.id }

theorem sortedSet_nodup (xs : List String) : (sortedSet xs).Nodup :=
  (List.perm_insertionSort _ _).nodup_iff.mpr (List.nodup_dedup xs)

theorem primary_severe {c : Cluster Finding} {f : Finding} (hf : f ∈ c.members) :
    f.severity.index ≤ (primary c).severity.index := by
  have hle := c.le_winner strength hf
  rcases (Prod.Lex.toLex_le_toLex.mp hle) with hlt | ⟨heq, -⟩
  · exact hlt.le
  · exact heq.le

theorem sameIssue_comm [Interp] (a b : Finding) : sameIssue a b = sameIssue b a :=
  Bool.eq_iff_iff.mpr ⟨sameIssue_symm, sameIssue_symm⟩

theorem length_members (c : Cluster Finding) (h : c.members.length ≠ 1) : c.rest ≠ [] := by
  intro hrest
  simp [Cluster.members, hrest] at h

theorem collapse_agreeing [Interp] {c : Cluster Finding} (h : c.members.length ≠ 1) :
    (collapse c).agreeing = sortedSet (c.members.map fun f => f.agent.value) := by
  have hrest := length_members c h
  obtain ⟨first, _ | ⟨f, fs⟩⟩ := c
  · exact absurd rfl hrest
  · rfl

theorem collapse_categories_many [Interp] {c : Cluster Finding} (h : c.members.length ≠ 1) :
    (collapse c).categories = sortedSet (c.members.map fun f => f.category.value) := by
  have hrest := length_members c h
  obtain ⟨first, _ | ⟨f, fs⟩⟩ := c
  · exact absurd rfl hrest
  · rfl

theorem absorb_eq {c : Cluster Finding}
    (hids : ∀ f ∈ c.members, f.id = (primary c).id → f = primary c) :
    absorb c = c.members.map fun f =>
      if f = primary c then f else { f with mergedInto := some (primary c).id } := by
  have hid (f : Finding) (hf : f ∈ c.members) : f.id ≠ (primary c).id ↔ ¬ f = primary c :=
    not_congr ⟨hids f hf, congrArg Finding.id⟩
  obtain ⟨first, _ | ⟨g, fs⟩⟩ := c
  · simp [absorb, Cluster.members, primary, Cluster.winner]
  · refine List.map_congr_left fun f hf => ?_
    simp only [hid f hf, ite_not]

theorem collapse_standsFor [Interp] {findings : List Finding}
    (hids : (findings.map Finding.id).Nodup) {c : Cluster Finding}
    (hc : c ∈ clusters sameIssue findings) : StandsFor c.members (collapse c) (absorb c) where
  sameFile f hf g hg := clusters_share Finding.filePath (fun _ _ => sameIssue_path) hc hf hg
  linked := clusters_chained sameIssue_comm c hc
  starts := by
    rw [collapse_lineStart]
    exact minStart_least c
  ends := by
    rw [collapse_lineEnd]
    exact maxEnd_greatest c
  severe := by
    rw [collapse_severity]
    exact ⟨⟨primary c, primary_mem c, rfl⟩, fun f => primary_severe⟩
  alone f hf := by
    obtain ⟨first, rest⟩ := c
    obtain ⟨rfl, rfl⟩ := List.cons.inj hf
    rfl
  agents h := by
    rw [collapse_agreeing h]
    exact ⟨sortedSet_nodup _, by simp⟩
  concerns h := by
    rw [collapse_categories_many h]
    exact ⟨sortedSet_nodup _, by simp⟩
  spoken := by
    refine ⟨primary c, primary_mem c, by simp, by simp, by simp, by simp, by simp, ?_⟩
    refine absorb_eq fun f hf hid => ?_
    exact List.inj_on_of_nodup_map hids (mem_of_mem_clusters hc hf)
      (mem_of_mem_clusters hc (primary_mem c)) hid

/-- Nothing is lost in a merge and nothing is invented. -/
theorem merge_partitions [Interp] (findings : List Finding)
    (hids : (findings.map Finding.id).Nodup) :
    ∃ parts : List (List Finding), (∀ part ∈ parts, part ≠ []) ∧ parts.flatten.Perm findings ∧
      List.Forall₂ (fun part out => StandsFor part out.1 out.2) parts (mergeInPlace findings) ∧
      (mergeInPlace findings).map Prod.fst = merge findings := by
  refine ⟨(clusters sameIssue findings).map Cluster.members, ?_, ?_, ?_,
    mergeInPlace_outputs findings⟩
  · simp [Cluster.members]
  · rw [← List.flatMap_def]
    exact clusters_perm sameIssue findings
  · rw [mergeInPlace, List.forall₂_map_left_iff, List.forall₂_map_right_iff, List.forall₂_same]
    exact fun c hc => collapse_standsFor hids hc

theorem collapseRepeated_nonempty (threshold : ℤ) {findings : List Finding} {f : Finding}
    (hf : f ∈ findings) : ∃ g, g ∈ collapseRepeated threshold findings := by
  cases hcoll : collapsible f with
  | false => exact ⟨f, mem_collapseRepeated.mpr (.inl ⟨hf, hcoll⟩)⟩
  | true =>
    obtain ⟨group, hgroup, hmem⟩ := exists_cluster (r := sameAsk)
      (List.mem_filter.mpr ⟨hf, hcoll⟩)
    by_cases hlen : (group.members.length : ℤ) < threshold
    · exact ⟨f, mem_collapseRepeated.mpr (.inr ⟨group, hgroup, by rwa [if_pos hlen]⟩)⟩
    · exact ⟨fold group, mem_collapseRepeated.mpr (.inr ⟨group, hgroup, by rw [if_neg hlen]⟩)⟩

section Groups
variable [Interp]

def mergedStrength (c : Cluster Finding) : ℕ ×ₗ ℚ :=
  toLex ((primary c).severity.index, mergedConfidence c)

/-- The clusters whose merged findings are repeated asks, by ask. -/
def repeatedClusters (findings : List Finding) : List (Cluster (Cluster Finding)) :=
  clusters (fun c d => sameAsk (primary c) (primary d))
    ((clusters sameIssue findings).filter fun c => collapsible (primary c))

theorem strength_collapse (c : Cluster Finding) : strength (collapse c) = mergedStrength c := by
  simp [strength, mergedStrength]

theorem sameAsk_collapse (c d : Cluster Finding) :
    sameAsk (collapse c) (collapse d) = sameAsk (primary c) (primary d) := by
  simp [sameAsk]

theorem collapsible_collapse (c : Cluster Finding) :
    collapsible (collapse c) = collapsible (primary c) := by
  simp [collapsible]

theorem repeated_merge (findings : List Finding) :
    repeated (merge findings) = (repeatedClusters findings).map (Cluster.map collapse) := by
  simp only [repeated, merge, repeatedClusters, List.filter_map, clusters_map, sameAsk_collapse,
    Function.comp_def, collapsible_collapse]

theorem primary_map_collapse (group : Cluster (Cluster Finding)) :
    primary (group.map collapse) = collapse (group.winner mergedStrength) := by
  rw [primary, Cluster.winner_map]
  simp only [strength_collapse]

theorem collapseRepeated_merge (threshold : ℤ) (findings : List Finding) :
    collapseRepeated threshold (merge findings) =
      ((clusters sameIssue findings).filter fun c => !collapsible (primary c)).map collapse ++
        (repeatedClusters findings).flatMap fun group =>
          if (group.members.length : ℤ) < threshold then group.members.map collapse
          else [fold (group.map collapse)] := by
  have hplain : (merge findings).filter (fun f => !collapsible f) =
      ((clusters sameIssue findings).filter fun c => !collapsible (primary c)).map collapse := by
    rw [merge, List.filter_map]
    simp only [Function.comp_def, collapsible_collapse]
  rw [collapseRepeated, hplain, repeated_merge, List.flatMap_map]
  simp only [Cluster.members_map, List.length_map]

end Groups

def injectionAt (id : UUID) (agent : AgentType) (lineStart lineEnd : ℤ)
    (h : lineStart ≤ lineEnd) : Finding where
  id := id
  agent := agent
  category := .injection
  severity := .major
  filePath := "db.py"
  lineStart := lineStart
  lineEnd := lineEnd
  title := "SQL built by string interpolation"
  body := ""
  rationale := "The query is built from the request."
  confidence := 1 / 2
  lineOrder := h
  confidenceRange := ⟨by norm_num, by norm_num⟩

def bridgedLast : List Finding :=
  [injectionAt 1 .security 1 2 (by decide), injectionAt 2 .correctness 5 6 (by decide),
    injectionAt 3 .security 1 6 (by decide)]

def bridgedFirst : List Finding :=
  [injectionAt 3 .security 1 6 (by decide), injectionAt 1 .security 1 2 (by decide),
    injectionAt 2 .correctness 5 6 (by decide)]

theorem merge_partitions_bridged :
    let _ := asciiInterp
    ∃ parts : List (List Finding), (∀ part ∈ parts, part ≠ []) ∧ parts.flatten.Perm bridgedFirst ∧
      List.Forall₂ (fun part out => StandsFor part out.1 out.2) parts (mergeInPlace bridgedFirst) ∧
      (mergeInPlace bridgedFirst).map Prod.fst = merge bridgedFirst := by
  intro _
  exact merge_partitions bridgedFirst (by decide)

/-- No issue is reported twice exactly if no finding arrives that is the same issue as
two findings not yet connected; and then the clusters are the connected components. -/
theorem merge_complete_iff [Interp] (findings : List Finding) :
    ((clusters sameIssue findings).Pairwise (Unrelated sameIssue) ↔ Gathered sameIssue findings) ∧
    (Gathered sameIssue findings → ∀ c ∈ clusters sameIssue findings, ∀ f ∈ c.members, ∀ g,
      g ∈ c.members ↔ g ∈ findings ∧ Chained sameIssue findings f g) := by
  have hiff := clusters_unrelated_iff sameIssue_refl sameIssue_comm findings
  exact ⟨hiff, fun h c hc f hf => mem_iff_chained sameIssue_comm (hiff.mpr h) hc hf⟩

theorem bridged_twice :
    let _ := asciiInterp
    ¬ (clusters sameIssue bridgedLast).Pairwise (Unrelated sameIssue) ∧
      (merge bridgedLast).length = 2 := by
  intro _
  have hclusters : clusters sameIssue bridgedLast =
      [⟨injectionAt 1 .security 1 2 (by decide), [injectionAt 3 .security 1 6 (by decide)]⟩,
        ⟨injectionAt 2 .correctness 5 6 (by decide), []⟩] := by decide +kernel
  constructor
  · intro h
    rw [hclusters] at h
    have hapart := (List.pairwise_cons.mp h).1 _ List.mem_cons_self
      (injectionAt 3 .security 1 6 (by decide)) (by simp [Cluster.members])
      (injectionAt 2 .correctness 5 6 (by decide)) (by simp [Cluster.members])
    revert hapart
    decide +kernel
  · rw [merge, hclusters]
    rfl

theorem bridged_once :
    let _ := asciiInterp
    (clusters sameIssue bridgedFirst).Pairwise (Unrelated sameIssue) ∧
      ∀ c ∈ clusters sameIssue bridgedFirst, ∀ f ∈ c.members, ∀ g,
        g ∈ c.members ↔ g ∈ bridgedFirst ∧ Chained sameIssue bridgedFirst f g := by
  intro _
  have hclusters : clusters sameIssue bridgedFirst =
      [⟨injectionAt 3 .security 1 6 (by decide), [injectionAt 1 .security 1 2 (by decide),
        injectionAt 2 .correctness 5 6 (by decide)]⟩] := by decide +kernel
  obtain ⟨hiff, hcomponents⟩ := merge_complete_iff bridgedFirst
  have hapart : (clusters sameIssue bridgedFirst).Pairwise (Unrelated sameIssue) := by
    rw [hclusters]
    simp
  exact ⟨hapart, hcomponents (hiff.mp hapart)⟩

end PrSentinel
