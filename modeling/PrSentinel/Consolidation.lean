import PrSentinel.Merging

/-!
What consolidation keeps of the findings it takes together: who contributed to them,
and the places they are about.
-/

set_option autoImplicit false

namespace PrSentinel
open Python Greedy

def Finding.contributors (f : Finding) : List String := f.agent.value :: f.agreeing

def Finding.concerns (f : Finding) : List String := f.category.value :: f.categories

/-- What `_collapse_repeated` puts in a finding's place. -/
def StandsIn (threshold : ℤ) (findings : List Finding) (f out : Finding) : Prop :=
  (collapsible f = false ∧ out = f) ∨
  ∃ group ∈ repeated findings, f ∈ group.members ∧
    out = if (group.members.length : ℤ) < threshold then f else fold group

theorem exists_standsIn (threshold : ℤ) {findings : List Finding} {f : Finding}
    (hf : f ∈ findings) :
    ∃ out ∈ collapseRepeated threshold findings, StandsIn threshold findings f out := by
  by_cases hcoll : collapsible f = true
  · obtain ⟨group, hgroup, hmem⟩ := exists_cluster (r := sameAsk) (List.mem_filter.mpr ⟨hf, hcoll⟩)
    refine ⟨_, ?_, .inr ⟨group, hgroup, hmem, rfl⟩⟩
    refine mem_collapseRepeated.mpr (.inr ⟨group, hgroup, ?_⟩)
    by_cases hfew : (group.members.length : ℤ) < threshold
    · rwa [if_pos hfew, if_pos hfew]
    · rw [if_neg hfew, if_neg hfew]
  · have hplain : collapsible f = false := by simpa using hcoll
    exact ⟨f, mem_collapseRepeated.mpr (.inl ⟨hf, hplain⟩), .inl ⟨hplain, rfl⟩⟩

theorem repeated_ask {findings : List Finding} {group : Cluster Finding}
    (hgroup : group ∈ repeated findings) {f g : Finding} (hf : f ∈ group.members)
    (hg : g ∈ group.members) : (f.agent, f.category) = (g.agent, g.category) :=
  clusters_share (fun f => (f.agent, f.category)) (fun x y h => by simpa [sameAsk] using h)
    hgroup hf hg

/-- Nobody is left out exactly if, in every group that is folded, the strongest finding
names everyone and everything that any of them does. -/
theorem contributors_kept_iff (threshold : ℤ) (findings : List Finding) :
    (∀ f ∈ findings,
      (∃ out ∈ collapseRepeated threshold findings, StandsIn threshold findings f out) ∧
      ∀ out, StandsIn threshold findings f out →
        f.contributors ⊆ out.contributors ∧ f.concerns ⊆ out.concerns) ↔
      ∀ group ∈ repeated findings, threshold ≤ group.members.length → ∀ f ∈ group.members,
        f.agreeing ⊆ (primary group).contributors ∧ f.categories ⊆ (primary group).concerns := by
  have hfold {group : Cluster Finding} (hgroup : group ∈ repeated findings) {f : Finding}
      (hf : f ∈ group.members) :
      (f.contributors ⊆ (fold group).contributors ∧ f.concerns ⊆ (fold group).concerns) ↔
        f.agreeing ⊆ (primary group).contributors ∧ f.categories ⊆ (primary group).concerns := by
    have hask := repeated_ask hgroup hf (primary_mem group)
    have hagent : f.agent = (primary group).agent := congrArg Prod.fst hask
    have hcategory : f.category = (primary group).category := congrArg Prod.snd hask
    have hcontributors : (fold group).contributors = (primary group).contributors := rfl
    have hconcerns : (fold group).concerns = (primary group).concerns := rfl
    rw [hcontributors, hconcerns, Finding.contributors, Finding.concerns, List.cons_subset,
      List.cons_subset, hagent, hcategory]
    simp [Finding.contributors, Finding.concerns]
  constructor
  · intro h group hgroup hmany f hf
    have hmem := (List.mem_filter.mp (mem_of_mem_clusters hgroup hf)).1
    have hkept := (h f hmem).2 (fold group)
      (.inr ⟨group, hgroup, hf, by rw [if_neg (not_lt.mpr hmany)]⟩)
    exact (hfold hgroup hf).mp hkept
  · intro h f hf
    refine ⟨exists_standsIn threshold hf, ?_⟩
    rintro out (⟨-, rfl⟩ | ⟨group, hgroup, hmem, rfl⟩)
    · exact ⟨List.Subset.refl _, List.Subset.refl _⟩
    · by_cases hfew : (group.members.length : ℤ) < threshold
      · rw [if_pos hfew]
        exact ⟨List.Subset.refl _, List.Subset.refl _⟩
      · rw [if_neg hfew]
        exact (hfold hgroup hmem).mpr (h group hgroup (not_lt.mp hfew) f hmem)

def asksForTests : List Finding :=
  [.brief 1 .tests .testCoverage .minor 1 2 5,
   { Finding.brief 2 .tests .testCoverage .minor 11 12 5 with
     agreeing := ["docs", "tests"], categories := ["documentation", "test_coverage"] },
   .brief 3 .tests .testCoverage .major 21 22 5]

theorem agreement_lost :
    ¬ ∀ f ∈ asksForTests, ∃ out ∈ collapseRepeated 3 asksForTests,
      f.contributors ⊆ out.contributors ∧ f.concerns ⊆ out.concerns := by
  decide +kernel

abbrev Location := String × ℤ

def Evidence.location? (e : Evidence) : Option Location := e.lineStart.map fun n => (e.filePath, n)

def Finding.locations (f : Finding) : List Location :=
  (f.filePath, f.lineStart) :: f.evidence.filterMap Evidence.location?

def Finding.Covers (f : Finding) (l : Location) : Prop :=
  (f.filePath = l.1 ∧ f.lineStart ≤ l.2 ∧ l.2 ≤ f.lineEnd) ∨
    ∃ e ∈ f.evidence, e.location? = some l

instance (f : Finding) (l : Location) : Decidable (f.Covers l) :=
  inferInstanceAs (Decidable (_ ∨ ∃ e ∈ f.evidence, e.location? = some l))

def evidenceKey (e : Evidence) : String × Option ℤ × String :=
  (e.filePath, e.lineStart, upto 80 e.excerpt)

theorem location_of_key {l : Location} (x y : Evidence) (h : evidenceKey x = evidenceKey y)
    (hx : x.location? = some l) : y.location? = some l := by
  simp only [evidenceKey, Prod.mk.injEq] at h
  rwa [Evidence.location?, ← h.1, ← h.2.1]

def entries (c : Cluster Finding) : List Evidence := c.members.flatMap Finding.evidence

theorem dedupeEvidence_eq (c : Cluster Finding) :
    dedupeEvidence c = (firsts evidenceKey (entries c)).take 6 := by
  have hseen (out : List Evidence) (e : Evidence) : (out.any fun o =>
      o.filePath = e.filePath && o.lineStart = e.lineStart && upto 80 o.excerpt = upto 80 e.excerpt)
        = true ↔ evidenceKey e ∈ out.map evidenceKey := by
    simp [evidenceKey, and_assoc]
  refine congrArg (fun step => (List.foldl step [] (entries c)).take 6) ?_
  funext out e
  by_cases hkey : evidenceKey e ∈ out.map evidenceKey
  · rw [if_pos ((hseen out e).mpr hkey), if_pos hkey]
  · rw [if_neg (mt (hseen out e).mp hkey), if_neg hkey]

/-- A member cites the place. Of one finding alone the first `room` entries count, of
several together six different ones. -/
def Cites (room : ℕ) (c : Cluster Finding) (l : Location) : Prop :=
  ∃ before e after, entries c = before ++ e :: after ∧ e.location? = some l ∧
    if c.rest = [] then before.length < room else different evidenceKey before < 6

def kept (c : Cluster Finding) : ℕ :=
  if c.rest = [] then (entries c).length else min 6 (different evidenceKey (entries c))

def InSpan (c : Cluster Finding) (l : Location) : Prop :=
  (primary c).filePath = l.1 ∧ minStart c ≤ l.2 ∧ l.2 ≤ maxEnd c

theorem collapse_evidence [Interp] (c : Cluster Finding) :
    (collapse c).evidence = if c.rest = [] then entries c else dedupeEvidence c := by
  obtain ⟨first, _ | ⟨f, fs⟩⟩ := c
  · simp [collapse, entries, Cluster.members]
  · rfl

theorem length_collapse_evidence [Interp] (c : Cluster Finding) : (collapse c).evidence.length = kept c := by
  rw [collapse_evidence, kept, dedupeEvidence_eq]
  split
  · rfl
  · rw [List.length_take, length_firsts]

theorem cites_iff [Interp] {room : ℕ} (hroom : 6 ≤ room) (c : Cluster Finding) (l : Location) :
    (∃ e ∈ (collapse c).evidence.take room, e.location? = some l) ↔ Cites room c l := by
  rw [collapse_evidence, Cites]
  split
  · exact exists_take_iff room (entries c)
  · rw [dedupeEvidence_eq, List.take_take, min_eq_right hroom]
    exact exists_take_firsts evidenceKey location_of_key 6 (entries c)

theorem covers_collapse [Interp] (c : Cluster Finding) (l : Location) :
    (collapse c).Covers l ↔ InSpan c l ∨ ∃ room, Cites room c l := by
  have hmore {room more : ℕ} (hle : room ≤ more) : Cites room c l → Cites more c l := by
    rintro ⟨before, e, after, hentries, he, hroom⟩
    refine ⟨before, e, after, hentries, he, ?_⟩
    split at hroom <;> rename_i hrest
    · rw [if_pos hrest]
      omega
    · rwa [if_neg hrest]
  have hcites : (∃ e ∈ (collapse c).evidence, e.location? = some l) ↔ ∃ room, Cites room c l := by
    constructor
    · rintro ⟨e, he, hl⟩
      refine ⟨max 6 (collapse c).evidence.length, (cites_iff (le_max_left _ _) c l).mp ⟨e, ?_, hl⟩⟩
      rwa [List.take_of_length_le (le_max_right _ _)]
    · rintro ⟨room, hroom⟩
      obtain ⟨e, he, hl⟩ :=
        (cites_iff (le_max_left 6 room) c l).mpr (hmore (le_max_right 6 room) hroom)
      exact ⟨e, List.mem_of_mem_take he, hl⟩
  rw [Finding.Covers, hcites, collapse_filePath, collapse_lineStart, collapse_lineEnd]
  rfl

def others [Interp] (group : Cluster (Cluster Finding)) : List (Cluster Finding) :=
  group.members.filter fun c => (primary c).id ≠ (primary (group.winner mergedStrength)).id

def opening (c : Cluster Finding) : Location := ((primary c).filePath, minStart c)

theorem fold_evidence [Interp] (group : Cluster (Cluster Finding)) : (fold (group.map collapse)).evidence =
    ((collapse (group.winner mergedStrength)).evidence ++
      (others group).map fun c => foldedEvidence (collapse c)).take 12 := by
  have hothers : (group.map collapse).members.filter (fun f =>
      f.id ≠ (collapse (group.winner mergedStrength)).id) = (others group).map collapse := by
    simp only [Cluster.members_map, List.filter_map, others, Function.comp_def, collapse_id]
  have hevidence (g : Cluster Finding) : (fold g).evidence = ((primary g).evidence ++
    (g.members.filter fun f => f.id ≠ (primary g).id).map foldedEvidence).take 12 := rfl
  rw [hevidence, primary_map_collapse, hothers, List.map_map]
  rfl

theorem covers_fold [Interp] (group : Cluster (Cluster Finding)) (l : Location) :
    (fold (group.map collapse)).Covers l ↔ InSpan (group.winner mergedStrength) l ∨
      Cites 12 (group.winner mergedStrength) l ∨
      ∃ c ∈ (others group).take (12 - kept (group.winner mergedStrength)), opening c = l := by
  have hspan : ((fold (group.map collapse)).filePath = l.1 ∧
      (fold (group.map collapse)).lineStart ≤ l.2 ∧ l.2 ≤ (fold (group.map collapse)).lineEnd) ↔
        InSpan (group.winner mergedStrength) l := by
    have hstart : (fold (group.map collapse)).lineStart =
        (primary (group.map collapse)).lineStart := rfl
    rw [fold_filePath, hstart, fold_lineEnd, primary_map_collapse, collapse_filePath, collapse_lineStart,
      collapse_lineEnd]
    rfl
  have hopening (c : Cluster Finding) :
      (foldedEvidence (collapse c)).location? = some (opening c) := by
    simp [foldedEvidence, Evidence.location?, opening]
  rw [Finding.Covers, hspan, fold_evidence, List.take_append, length_collapse_evidence,
    ← cites_iff (by decide)]
  refine or_congr_right ?_
  rw [← List.map_take]
  constructor
  · rintro ⟨e, he, hl⟩
    rcases List.mem_append.mp he with he | he
    · exact .inl ⟨e, he, hl⟩
    · obtain ⟨c, hc, rfl⟩ := List.mem_map.mp he
      exact .inr ⟨c, hc, Option.some.inj ((hopening c).symm.trans hl)⟩
  · rintro (⟨e, he, hl⟩ | ⟨c, hc, rfl⟩)
    · exact ⟨e, List.mem_append_left _ he, hl⟩
    · exact ⟨_, List.mem_append_right _ (List.mem_map_of_mem hc), hopening c⟩

section Report
variable [Interp]

/-- The finding of this cluster is left where it is. -/
def Alone (threshold : ℤ) (findings : List Finding) (c : Cluster Finding) : Prop :=
  collapsible (primary c) = false ∨
  ∃ group ∈ repeatedClusters findings, c ∈ group.members ∧ (group.members.length : ℤ) < threshold

theorem mem_report (settings : Settings) (verdicts : List AgentVerdict) (g : Finding) :
    g ∈ (aggregate settings verdicts).1 ↔
      (∃ c ∈ clusters sameIssue (okFindings verdicts),
        Alone settings.collapseRepeatedAfter (okFindings verdicts) c ∧ g = collapse c) ∨
      ∃ group ∈ repeatedClusters (okFindings verdicts),
        settings.collapseRepeatedAfter ≤ group.members.length ∧ g = fold (group.map collapse) := by
  have hmember {group : Cluster (Cluster Finding)}
      (hgroup : group ∈ repeatedClusters (okFindings verdicts)) :
      ∀ c ∈ group.members, c ∈ clusters sameIssue (okFindings verdicts) := fun c hc =>
    (List.mem_filter.mp (mem_of_mem_clusters hgroup hc)).1
  rw [(aggregate_perm settings verdicts).mem_iff, collapseRepeated_merge, List.mem_append]
  simp only [List.mem_map, List.mem_filter, List.mem_flatMap, Bool.not_eq_true']
  constructor
  · rintro (⟨c, ⟨hc, hplain⟩, rfl⟩ | ⟨group, hgroup, hg⟩)
    · exact .inl ⟨c, hc, .inl hplain, rfl⟩
    · split at hg
      · rename_i hfew
        obtain ⟨c, hc, rfl⟩ := List.mem_map.mp hg
        exact .inl ⟨c, hmember hgroup c hc, .inr ⟨group, hgroup, hc, hfew⟩, rfl⟩
      · rename_i hmany
        exact .inr ⟨group, hgroup, not_lt.mp hmany, List.mem_singleton.mp hg⟩
  · rintro (⟨c, hc, hplain | ⟨group, hgroup, hmem, hfew⟩, rfl⟩ | ⟨group, hgroup, hmany, rfl⟩)
    · exact .inl ⟨c, ⟨hc, hplain⟩, rfl⟩
    · refine .inr ⟨group, hgroup, ?_⟩
      rw [if_pos hfew]
      exact List.mem_map_of_mem hmem
    · refine .inr ⟨group, hgroup, ?_⟩
      rw [if_neg (not_lt.mpr hmany)]
      exact List.mem_singleton_self _

/-- All places of a finding are with one cluster that is left alone, or all with the
strongest of a group and the first lines of the others, while twelve entries last. -/
def Placed (threshold : ℤ) (findings : List Finding) (f : Finding) : Prop :=
  (∃ c ∈ clusters sameIssue findings, Alone threshold findings c ∧
    ∀ l ∈ f.locations, InSpan c l ∨ ∃ room, Cites room c l) ∨
  ∃ group ∈ repeatedClusters findings, threshold ≤ group.members.length ∧
    ∀ l ∈ f.locations, InSpan (group.winner mergedStrength) l ∨ Cites 12 (group.winner mergedStrength) l ∨
      ∃ c ∈ (others group).take (12 - kept (group.winner mergedStrength)), opening c = l

/-- No place is lost exactly if those of every finding stay together. -/
theorem locations_kept_iff (settings : Settings) (verdicts : List AgentVerdict) :
    (∀ f ∈ okFindings verdicts, ∃ g ∈ (aggregate settings verdicts).1,
      ∀ l ∈ f.locations, g.Covers l) ↔
      ∀ f ∈ okFindings verdicts, Placed settings.collapseRepeatedAfter (okFindings verdicts) f := by
  refine forall₂_congr fun f _ => ?_
  constructor
  · rintro ⟨g, hg, hcovers⟩
    rcases (mem_report settings verdicts g).mp hg with
      ⟨c, hc, halone, rfl⟩ | ⟨group, hgroup, hmany, rfl⟩
    · exact .inl ⟨c, hc, halone, fun l hl => (covers_collapse c l).mp (hcovers l hl)⟩
    · exact .inr ⟨group, hgroup, hmany, fun l hl => (covers_fold group l).mp (hcovers l hl)⟩
  · rintro (⟨c, hc, halone, hplaced⟩ | ⟨group, hgroup, hmany, hplaced⟩)
    · exact ⟨collapse c, (mem_report settings verdicts _).mpr (.inl ⟨c, hc, halone, rfl⟩),
        fun l hl => (covers_collapse c l).mpr (hplaced l hl)⟩
    · exact ⟨_, (mem_report settings verdicts _).mpr (.inr ⟨group, hgroup, hmany, rfl⟩),
        fun l hl => (covers_fold group l).mpr (hplaced l hl)⟩

end Report

def citingAsks : List AgentVerdict :=
  [{ agent := .tests
     findings := [.brief 1 .tests .testCoverage .major 1 2 5,
       { Finding.brief 2 .tests .testCoverage .minor 11 12 5 with
         evidence := [{ kind := "diff", filePath := "other.py", lineStart := some 7 }] },
       .brief 3 .tests .testCoverage .minor 21 22 5] }]

theorem cited_place_lost :
    let _ := asciiInterp
    ¬ ∀ f ∈ okFindings citingAsks, ∃ g ∈ (aggregate .default citingAsks).1,
      ∀ l ∈ f.locations, g.Covers l := by
  decide +kernel

end PrSentinel
