import Mathlib.Algebra.BigOperators.Group.Multiset.Basic
import Mathlib.Data.List.Permutation
import PrSentinel.Merging
import PrSentinel.SecurityMark

/-!
How much of the report depends on the order in which the agents are heard. Each
finding of the report is traced back to the findings it stands for, and then
stripped to what the gate reads.
-/

set_option autoImplicit false

namespace PrSentinel
open Python Greedy

section FoldRepeats
universe u v
variable {α : Type u} {β : Type v}

abbrev Ask := AgentType × Category

def asks (ask : α → Option Ask) (xs : List α) : List (Cluster α) :=
  clusters (fun x y => decide (ask x = ask y)) (xs.filter (fun x => (ask x).isSome))

/-- `_collapse_repeated` over anything that may carry an ask and can be combined. -/
def foldRepeats (ask : α → Option Ask) (combine : Cluster α → α) (threshold : ℤ) (xs : List α) :
    List α :=
  xs.filter (fun x => (ask x).isNone) ++ (asks ask xs).flatMap fun group =>
    if (group.members.length : ℤ) < threshold then group.members else [combine group]

theorem asks_map (ask : α → Option Ask) (ask' : β → Option Ask) (f : α → β)
    (hask : ∀ x, ask' (f x) = ask x) (xs : List α) :
    asks ask' (xs.map f) = (asks ask xs).map (Cluster.map f) := by
  simp only [asks, List.filter_map, clusters_map, Function.comp_def, hask]

theorem foldRepeats_map (ask : α → Option Ask) (ask' : β → Option Ask) (combine : Cluster α → α)
    (combine' : Cluster β → β) (f : α → β) (hask : ∀ x, ask' (f x) = ask x)
    (hcombine : ∀ g, f (combine g) = combine' (g.map f)) (threshold : ℤ) (xs : List α) :
    (foldRepeats ask combine threshold xs).map f =
      foldRepeats ask' combine' threshold (xs.map f) := by
  simp only [foldRepeats, asks_map ask ask' f hask, List.map_append, List.map_flatMap, List.filter_map,
    List.flatMap_map, Function.comp_def, hask]
  congr 2
  funext g
  simp only [Cluster.members_map, List.length_map, ← hcombine]
  split <;> rfl

theorem coe_flatMap (g : α → List β) (xs : List α) :
    ((xs.flatMap g : List β) : Multiset β) = (xs.map fun x => (g x : Multiset β)).sum := by
  induction xs with
  | nil => rfl
  | cons x xs ih => simp [← ih]

theorem foldRepeats_perm {ask : α → Option Ask} {combine : Cluster α → α} {threshold : ℤ}
    {xs ys : List α} (hp : xs.Perm ys)
    (hcombine : ∀ g ∈ asks ask xs, ∀ h ∈ asks ask ys, threshold ≤ g.members.length →
      g.members.Perm h.members → combine g = combine h) :
    (foldRepeats ask combine threshold xs).Perm (foldRepeats ask combine threshold ys) := by
  have hrefl (x : α) : decide (ask x = ask x) = true := decide_eq_true rfl
  have hcomm (x y : α) : decide (ask x = ask y) = decide (ask y = ask x) := by simp only [eq_comm]
  have hgathered (zs : List α) : Gathered (fun x y => decide (ask x = ask y)) zs :=
    gathered_of_trans hcomm fun x _ y _ z _ hxy hyz =>
      decide_eq_true ((of_decide_eq_true hxy).trans (of_decide_eq_true hyz))
  have hgroups := clusters_map_perm hrefl hcomm (hp.filter fun x => (ask x).isSome)
    (hgathered _) (hgathered _)
    (f := fun g => ((if (g.members.length : ℤ) < threshold then g.members else [combine g] :
      List α) : Multiset α)) ?_
  · rw [foldRepeats, foldRepeats, ← Multiset.coe_eq_coe, ← Multiset.coe_add, ← Multiset.coe_add,
      coe_flatMap, coe_flatMap]
    congr 1
    · exact Multiset.coe_eq_coe.mpr (hp.filter _)
    · exact hgroups.sum_eq
  · intro g hg h hh hgh
    rw [hgh.length_eq]
    split
    · exact Multiset.coe_eq_coe.mpr hgh
    · have hlarge : threshold ≤ g.members.length := by
        rw [hgh.length_eq]
        omega
      rw [hcombine g hg h hh hlarge hgh]

end FoldRepeats

def Finding.ask? (f : Finding) : Option Ask :=
  if collapsible f then some (f.agent, f.category) else none

theorem isSome_ask? (f : Finding) : f.ask?.isSome = collapsible f := by
  unfold Finding.ask?
  cases collapsible f <;> rfl

theorem isNone_ask? (f : Finding) : f.ask?.isNone = !collapsible f := by
  unfold Finding.ask?
  cases collapsible f <;> rfl

theorem repeated_eq_asks (findings : List Finding) :
    repeated findings = asks Finding.ask? findings := by
  rw [repeated, asks]
  simp only [isSome_ask?]
  refine clusters_congr fun f hf g hg => ?_
  have hf' : collapsible f = true := (List.mem_filter.mp hf).2
  have hg' : collapsible g = true := (List.mem_filter.mp hg).2
  rw [Bool.eq_iff_iff]
  simp [sameAsk, Finding.ask?, hf', hg']

theorem collapseRepeated_eq (threshold : ℤ) (findings : List Finding) :
    collapseRepeated threshold findings = foldRepeats Finding.ask? fold threshold findings := by
  simp only [collapseRepeated, foldRepeats, repeated_eq_asks, isNone_ask?]

/-- A finding of the report with the findings it stands for. -/
abbrev Traced := Finding × Multiset Finding

def foldTraced (group : Cluster Traced) : Traced :=
  (fold (group.map Prod.fst), (group.members.map Prod.snd).sum)

def traceCluster [Interp] (c : Cluster Finding) : Traced := (collapse c, c.members)

def traced [Interp] (threshold : ℤ) (findings : List Finding) : List Traced :=
  foldRepeats (fun t => t.1.ask?) foldTraced threshold
    ((clusters sameIssue findings).map traceCluster)

theorem traced_fst [Interp] (threshold : ℤ) (findings : List Finding) :
    (traced threshold findings).map Prod.fst = collapseRepeated threshold (merge findings) := by
  rw [traced, foldRepeats_map _ Finding.ask? _ fold Prod.fst
    (fun _ => rfl) (fun _ => rfl), collapseRepeated_eq, merge, List.map_map]
  rfl

/-- The partition of the input findings into findings of the report. -/
def partition [Interp] (threshold : ℤ) (findings : List Finding) : Multiset (Multiset Finding) :=
  ((traced threshold findings).map Prod.snd : List (Multiset Finding))

structure Core where
  ask? : Option Ask
  severity : Severity
  confidence : ℚ
  critical : Bool

def Finding.core (f : Finding) : Core := ⟨f.ask?, f.severity, f.confidence, criticalSecurity f⟩

def Core.strength (c : Core) : ℕ ×ₗ ℚ := toLex (c.severity.index, c.confidence)

def Core.clears (settings : Settings) (c : Core) : Bool :=
  settings.findingPostConfidence ≤ c.confidence && settings.postMinSeverity.index ≤ c.severity.index

section SameCores
variable {findings others : List Finding} {vs ws : List AgentVerdict}

theorem exists_iff_of_cores (h : (findings.map Finding.core).Perm (others.map Finding.core))
    {p : Finding → Bool} {q : Core → Bool} (hpq : ∀ f, p f = q f.core) :
    (∃ f ∈ findings, p f = true) ↔ ∃ f ∈ others, p f = true := by
  have hvia : ∀ fs : List Finding, (∃ f ∈ fs, p f = true) ↔
      ∃ c ∈ fs.map Finding.core, q c = true := by
    intro fs
    simp [hpq]
  rw [hvia, hvia]
  exact exists_congr fun c => and_congr_left fun _ => h.mem_iff

theorem panelHealth_perm (hvs : vs.Perm ws) : panelHealth vs = panelHealth ws := by
  have hnil : vs = [] ↔ ws = [] := by
    rw [← List.length_eq_zero_iff, ← List.length_eq_zero_iff, hvs.length_eq]
  simp only [panelHealth, hnil, hvs.length_eq, (hvs.filter AgentVerdict.ok).length_eq]

theorem overallConfidence_congr
    (h : (findings.map Finding.core).Perm (others.map Finding.core)) (hvs : vs.Perm ws) :
    overallConfidence findings vs = overallConfidence others ws := by
  have hsum : ∀ g : Core → ℚ,
      (findings.map fun f => g f.core).sum = (others.map fun f => g f.core).sum := by
    intro g
    have hg := (h.map g).sum_eq
    simpa only [List.map_map, Function.comp_def] using hg
  have hweight := hsum fun c => c.severity.weight
  have hweighted := hsum fun c => c.confidence * c.severity.weight
  have hlen : findings.length = others.length := by simpa using h.length_eq
  simp only [Finding.core] at hweight hweighted
  cases findings with
  | nil =>
    cases others with
    | nil => simp only [overallConfidence, panelHealth_perm hvs]
    | cons g gs => cases hlen
  | cons f fs =>
    cases others with
    | nil => cases hlen
    | cons g gs => simp only [overallConfidence, hweight, hweighted, panelHealth_perm hvs]

theorem evaluate_decision_congr (settings : Settings)
    (h : (findings.map Finding.core).Perm (others.map Finding.core)) (hvs : vs.Perm ws)
    (overall : ℚ) (budgetExhausted isPublicRepo : Bool) :
    (evaluate settings findings vs overall budgetExhausted isPublicRepo).decision =
      (evaluate settings others ws overall budgetExhausted isPublicRepo).decision := by
  have hfailed : (∃ v ∈ vs, v.ok = false) ↔ ∃ v ∈ ws, v.ok = false :=
    exists_congr fun v => and_congr_left fun _ => hvs.mem_iff
  have hcrit := exists_iff_of_cores h (p := criticalSecurity) (q := Core.critical) fun _ => rfl
  have hclear := exists_iff_of_cores h (p := clears settings) (q := Core.clears settings)
    fun _ => rfl
  have hnone : (∀ f ∈ findings, clears settings f = false) ↔
      ∀ f ∈ others, clears settings f = false := by
    simpa using not_congr hclear
  simp only [evaluate_decision, hfailed, hcrit, hnone]

theorem gate_decision_congr [Interp] (settings : Settings)
    (h : ((collapseRepeated settings.collapseRepeatedAfter (merge (okFindings vs))).map
      Finding.core).Perm
      ((collapseRepeated settings.collapseRepeatedAfter (merge (okFindings ws))).map Finding.core))
    (hvs : vs.Perm ws) (budgetExhausted isPublicRepo : Bool) :
    (gate settings vs budgetExhausted isPublicRepo).decision =
      (gate settings ws budgetExhausted isPublicRepo).decision := by
  have hreport : ((aggregate settings vs).1.map Finding.core).Perm
      ((aggregate settings ws).1.map Finding.core) :=
    (((aggregate_perm settings vs).map _).trans h).trans ((aggregate_perm settings ws).map _).symm
  have hoverall : (aggregate settings vs).2 = (aggregate settings ws).2 :=
    overallConfidence_congr hreport hvs
  simp only [gate, hoverall]
  exact evaluate_decision_congr settings hreport hvs _ _ _

end SameCores

/-- The mark that is left on a critical finding if this member of several wins. -/
def markedBy (c : Cluster Finding) (f : Finding) : Bool :=
  f.severity = .critical &&
    (f.agent = .security || c.members.any fun g => isSecurityCategory g.category)

/-- Whoever ties for the win of a merge or a fold makes the same ask and leaves the
same mark. -/
structure TiesAgree [Interp] (threshold : ℤ) (findings : List Finding) : Prop where
  merges : ∀ c ∈ clusters sameIssue findings,
    c.AgreesOn strength fun f => (f.ask?, markedBy c f)
  folds : ∀ group ∈ repeated (merge findings), threshold ≤ group.members.length →
    group.AgreesOn strength criticalSecurity

/-- The doubts of the agents multiply to the same number in every order. -/
def RoundsAlike [Interp] (fs : List Finding) : Prop :=
  ∀ agents, agents.Perm (agentsOf fs) → doubtOver agents fs = doubt fs

theorem bestConfidence_perm {fs gs : List Finding} (h : fs.Perm gs) :
    bestConfidence fs = bestConfidence gs := by
  refine le_antisymm (bestConfidence_le.mpr ⟨(bestConfidence_range _).1, fun f hf => ?_⟩)
    (bestConfidence_le.mpr ⟨(bestConfidence_range _).1, fun f hf => ?_⟩)
  · exact le_bestConfidence (h.mem_iff.mp hf)
  · exact le_bestConfidence (h.mem_iff.mpr hf)

section Merged
variable [Interp] {c d : Cluster Finding}

theorem agentsOf_perm {fs gs : List Finding} (h : fs.Perm gs) :
    (agentsOf fs).Perm (agentsOf gs) :=
  (Interp.setOrder_perm _).trans ((h.map Finding.agent).dedup.trans (Interp.setOrder_perm _).symm)

theorem doubt_perm {fs gs : List Finding} (hrounds : RoundsAlike fs) (h : fs.Perm gs) :
    doubt fs = doubt gs := by
  have hbest : ∀ a, bestOf a gs = bestOf a fs := fun a => bestConfidence_perm (h.symm.filter _)
  have hover : doubt gs = doubtOver (agentsOf gs) fs := by simp only [doubt, doubtOver, hbest]
  rw [hover, hrounds _ (agentsOf_perm h).symm]

theorem mergedConfidence_perm (hrounds : RoundsAlike c.members) (h : c.members.Perm d.members)
    (hstrength : strength (primary d) = strength (primary c)) :
    mergedConfidence c = mergedConfidence d := by
  have hconfidence : (primary d).confidence = (primary c).confidence :=
    congrArg (fun key => (ofLex key).2) hstrength
  simp only [mergedConfidence, (agentsOf_perm h).length_eq, doubt_perm hrounds h, hconfidence]

theorem collapse_ask? (c : Cluster Finding) : (collapse c).ask? = (primary c).ask? := by
  simp [Finding.ask?, collapsible]

theorem criticalSecurity_collapse (hmany : c.rest ≠ []) :
    criticalSecurity (collapse c) = markedBy c (primary c) := by
  obtain ⟨first, _ | ⟨f, fs⟩⟩ := c
  · exact absurd rfl hmany
  · exact collapse_criticalSecurity _

theorem collapse_core_perm (hties : c.AgreesOn strength fun f => (f.ask?, markedBy c f))
    (hrounds : RoundsAlike c.members) (h : c.members.Perm d.members) :
    (collapse c).core = (collapse d).core := by
  have hstrength : strength (primary d) = strength (primary c) :=
    le_antisymm (c.le_winner strength (h.mem_iff.mpr (primary_mem d)))
      (d.le_winner strength (h.mem_iff.mp (primary_mem c)))
  have hagree := hties (primary d) (h.mem_iff.mpr (primary_mem d)) hstrength
  obtain ⟨hask, hmark⟩ := Prod.mk.inj hagree
  have hseverity : (primary d).severity = (primary c).severity :=
    Severity.index_injective (congrArg (fun key => (ofLex key).1) hstrength)
  have hmarked : criticalSecurity (collapse c) = criticalSecurity (collapse d) := by
    by_cases hone : c.rest = []
    · have hlength := h.length_eq
      obtain ⟨x, _⟩ := c
      obtain ⟨y, _ | ⟨g, gs⟩⟩ := d
      · subst hone
        have hxy : x = y := by simpa [Cluster.members] using h
        rw [hxy]
      · subst hone
        simp [Cluster.members] at hlength
    · have hmany : d.rest ≠ [] := by
        intro hrest
        have hlength := h.length_eq
        simp [Cluster.members, hrest, hone] at hlength
      have hsame : markedBy c (primary d) = markedBy d (primary d) := by
        simp only [markedBy, h.any_eq]
      rw [criticalSecurity_collapse hone, criticalSecurity_collapse hmany, ← hsame]
      exact hmark.symm
  simp only [Finding.core, collapse_ask?, collapse_severity, collapse_confidence, hmarked]
  rw [mergedConfidence_perm hrounds h hstrength, hseverity]
  exact congrArg (fun ask => Core.mk ask _ _ _) hask.symm

end Merged

def foldCore (group : Cluster Core) : Core :=
  { group.winner Core.strength with
    confidence := (group.members.map Core.confidence).foldl max 0 }

theorem fold_core (group : Cluster Finding) : (fold group).core = foldCore (group.map Finding.core) := by
  have hwinner : (group.map Finding.core).winner Core.strength = (primary group).core :=
    Cluster.winner_map Core.strength Finding.core group
  simp only [foldCore, hwinner, Cluster.members_map, List.map_map]
  rfl

theorem foldCore_perm {g h : Cluster Core} (hg : g.AgreesOn Core.strength id)
    (hgh : g.members.Perm h.members) : foldCore g = foldCore h := by
  have hwinner : h.winner Core.strength = g.winner Core.strength := hg.winner_eq hgh
  have hbest : (g.members.map Core.confidence).foldl max 0 =
      (h.members.map Core.confidence).foldl max 0 :=
    (hgh.map Core.confidence).foldl_eq 0
  simp only [foldCore, hwinner, hbest]

abbrev Entry := Core × Multiset Finding

def entry (t : Traced) : Entry := (t.1.core, t.2)

def foldEntry (group : Cluster Entry) : Entry :=
  (foldCore (group.map Prod.fst), (group.members.map Prod.snd).sum)

theorem entry_foldTraced (group : Cluster Traced) :
    entry (foldTraced group) = foldEntry (group.map entry) := by
  have hcores : (group.map entry).map Prod.fst = (group.map Prod.fst).map Finding.core := by
    simp [Cluster.map, entry]
  simp only [foldEntry, hcores, ← fold_core, entry, foldTraced, Cluster.members_map, List.map_map]
  rfl

theorem traced_entries [Interp] (threshold : ℤ) (findings : List Finding) :
    (traced threshold findings).map entry = foldRepeats (fun e => e.1.ask?) foldEntry threshold
      ((clusters sameIssue findings).map fun c => entry (traceCluster c)) := by
  have hmap := foldRepeats_map (fun t : Traced => t.1.ask?) (fun e : Entry => e.1.ask?) foldTraced
    foldEntry entry (fun _ => rfl) entry_foldTraced threshold
    ((clusters sameIssue findings).map traceCluster)
  rwa [List.map_map] at hmap

theorem agreesOn_core {group : Cluster Finding} {findings : List Finding}
    (hgroup : group ∈ asks Finding.ask? findings)
    (hties : group.AgreesOn strength criticalSecurity) : group.AgreesOn strength Finding.core := by
  intro f hf hstrength
  have hask : f.ask? = (group.winner strength).ask? :=
    clusters_share Finding.ask? (fun x y h => by simpa using h) hgroup hf (group.winner_mem strength)
  have hseverity := Severity.index_injective (congrArg (fun key => (ofLex key).1) hstrength)
  have hconfidence : f.confidence = (group.winner strength).confidence :=
    congrArg (fun key => (ofLex key).2) hstrength
  simp only [Finding.core, hask, hseverity, hconfidence, hties f hf hstrength]

theorem asks_entries_agree [Interp] {threshold : ℤ} {findings : List Finding}
    (hties : TiesAgree threshold findings) {g : Cluster Entry}
    (hg : g ∈ asks (fun e => e.1.ask?)
      ((clusters sameIssue findings).map fun c => entry (traceCluster c)))
    (hlarge : threshold ≤ g.members.length) :
    (g.map Prod.fst).AgreesOn Core.strength id := by
  have hentries := asks_map (fun c => (collapse c).ask?) (fun e : Entry => e.1.ask?)
    (fun c => entry (traceCluster c)) (fun _ => rfl) (clusters sameIssue findings)
  have hfindings := asks_map (fun c => (collapse c).ask?) Finding.ask? collapse (fun _ => rfl)
    (clusters sameIssue findings)
  rw [hentries] at hg
  obtain ⟨group, hgroup, rfl⟩ := List.mem_map.mp hg
  have hrepeated : group.map collapse ∈ repeated (merge findings) := by
    rw [repeated_eq_asks, merge, hfindings]
    exact List.mem_map_of_mem hgroup
  have hmap : (group.map fun c => entry (traceCluster c)).map Prod.fst =
      (group.map collapse).map Finding.core := by
    simp [Cluster.map, entry, traceCluster]
  rw [hmap]
  refine Cluster.AgreesOn.map ?_
  exact agreesOn_core (repeated_eq_asks _ ▸ hrepeated)
    (hties.folds _ hrepeated (by simpa using hlarge))

theorem traced_perm [Interp] {threshold : ℤ} {xs ys : List Finding} (hxs : Gathered sameIssue xs)
    (hys : Gathered sameIssue ys) (hties : TiesAgree threshold xs)
    (hrounds : ∀ c ∈ clusters sameIssue xs, RoundsAlike c.members) (hp : xs.Perm ys) :
    ((traced threshold xs).map entry).Perm ((traced threshold ys).map entry) := by
  rw [traced_entries, traced_entries]
  apply foldRepeats_perm
  · refine clusters_map_perm sameIssue_refl sameIssue_comm hp hxs hys fun c hc d _ hcd => ?_
    simp only [entry, traceCluster, collapse_core_perm (hties.merges c hc) (hrounds c hc) hcd,
      Multiset.coe_eq_coe.mpr hcd]
  · intro g hg k _ hlarge hgk
    have hcores := foldCore_perm (h := k.map Prod.fst) (asks_entries_agree hties hg hlarge)
      (hgk.map Prod.fst)
    have horigins := (hgk.map Prod.snd).sum_eq
    simp only [foldEntry, hcores, horigins]

theorem okFindings_perm {vs ws : List AgentVerdict} (h : vs.Perm ws) :
    (okFindings vs).Perm (okFindings ws) :=
  (h.filter _).flatMap_right _

/-- Three findings, each overlapping the next, in the order of the panel and in
the order of the agents' names. -/
def chain : List AgentVerdict :=
  [{ agent := .security },
   { agent := .correctness, findings := [.brief 1 .correctness .logic .major 1 2 5] },
   { agent := .tests, findings := [.brief 2 .tests .logic .major 2 3 5] },
   { agent := .docs, findings := [.brief 3 .docs .logic .major 3 4 5] }]

def chainByName : List AgentVerdict :=
  [{ agent := .correctness, findings := [.brief 1 .correctness .logic .major 1 2 5] },
   { agent := .docs, findings := [.brief 3 .docs .logic .major 3 4 5] },
   { agent := .security },
   { agent := .tests, findings := [.brief 2 .tests .logic .major 2 3 5] }]

def tie : List AgentVerdict :=
  [{ agent := .security, findings := [.brief 1 .security .logic .critical 10 12 9] },
   { agent := .correctness, findings := [.brief 2 .correctness .logic .critical 10 12 9] },
   { agent := .tests }, { agent := .docs }]

def tieByName : List AgentVerdict :=
  [{ agent := .correctness, findings := [.brief 2 .correctness .logic .critical 10 12 9] },
   { agent := .docs },
   { agent := .security, findings := [.brief 1 .security .logic .critical 10 12 9] },
   { agent := .tests }]

def unsureOf (id : UUID) (agent : AgentType) (q : ℚ) (hlow : 0 ≤ q) (hhigh : q ≤ 1) : Finding :=
  { Finding.brief id agent .logic .major 3 4 0 with
    confidence := toBinary64 q
    confidenceRange := toBinary64_unit hlow hhigh }

/-- Three agents that leave doubts of 0.8, 0.8 and 0.625, which multiply to 0.4 or to a
little more. -/
def unsure : List AgentVerdict :=
  [{ agent := .security, findings := [unsureOf 1 .security (1 / 5) (by norm_num) (by norm_num)] },
   { agent := .correctness,
     findings := [unsureOf 2 .correctness (1 / 5) (by norm_num) (by norm_num)] },
   { agent := .tests },
   { agent := .docs, findings := [unsureOf 3 .docs (3 / 8) (by norm_num) (by norm_num)] }]

def unsureByName : List AgentVerdict :=
  [{ agent := .correctness,
     findings := [unsureOf 2 .correctness (1 / 5) (by norm_num) (by norm_num)] },
   { agent := .docs, findings := [unsureOf 3 .docs (3 / 8) (by norm_num) (by norm_num)] },
   { agent := .security, findings := [unsureOf 1 .security (1 / 5) (by norm_num) (by norm_num)] },
   { agent := .tests }]

/-- The default thresholds as `float` literals. -/
def literalSettings : Settings :=
  { Settings.default with
    autoPostConfidence := toBinary64 (70 / 100)
    findingPostConfidence := toBinary64 (60 / 100)
    autoPostRange := toBinary64_unit (by norm_num) (by norm_num)
    findingPostRange := toBinary64_unit (by norm_num) (by norm_num)
    gateOrdering := by decide +kernel }

theorem gathered_of_transitive [Interp] {vs : List AgentVerdict}
    (htrans : ∀ f ∈ okFindings vs, ∀ g ∈ okFindings vs, ∀ h ∈ okFindings vs,
      sameIssue f g = true → sameIssue g h = true → sameIssue f h = true) :
    ∀ us, vs.Perm us → Gathered sameIssue (okFindings us) := by
  intro us hp
  have hmem (f : Finding) : f ∈ okFindings us → f ∈ okFindings vs := (okFindings_perm hp).mem_iff.mpr
  exact gathered_of_trans sameIssue_comm fun f hf g hg h hh =>
    htrans f (hmem f hf) g (hmem g hg) h (hmem h hh)

def onePair : List AgentVerdict :=
  [{ agent := .security, findings := [.brief 1 .security .injection .major 10 12 8] },
   { agent := .correctness,
     findings := [.brief 2 .correctness .injection .major 11 14 7,
       .brief 3 .correctness .logic .minor 40 40 6] }]

end PrSentinel
