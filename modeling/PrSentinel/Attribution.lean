import PrSentinel.Consolidation
import PrSentinel.FullPanel

/-!
What the labels make of a finding that several agents contributed to. A found label is
put down to the agent whose finding won the merge, and a trap looks at that one only.
-/

set_option autoImplicit false

namespace PrSentinel
open Python Relational

def EvalReport.forAgent (report : EvalReport) (agent : String) : Bucket :=
  ((report.byAgent.find? fun r => r.agent = agent).map AgentBucket.bucket).getD {}

/-- `seen_per_agent[agent]`, when the matches of a case have been gone through. -/
def CaseResult.seenFor (r : CaseResult) (agent : String) : List ℕ :=
  ((r.matched.foldl countMatch ({}, {})).2.perAgent.filter fun p => p.1 = agent).map Prod.snd

/-- An expected label that names the agent, reached by a hit the agent contributed to. -/
def Owed (r : CaseResult) (agent : String) (x : Label) : Prop :=
  x.agent = some agent ∧
    ∃ m ∈ r.matched, m.kind = .hit ∧ agent ∈ m.finding.contributors ∧ x ∈ m.labels

/-- The label is reached by a hit that is the agent's own finding. -/
def Won (r : CaseResult) (agent : String) (x : Label) : Prop :=
  ∃ m ∈ r.matched, m.kind = .hit ∧ m.finding.agent.value = agent ∧ x.ref ∈ m.labels.map Label.ref

def Books.bucketOf (b : Books) (agent : String) : Bucket :=
  ((b.byAgent.find? agent).map AgentBucket.bucket).getD {}

section Bucket
variable (agent : String) (change : Bucket → Bucket) (b : Books)

@[simp] theorem Books.bucketOf_forAll : (b.forAll change).bucketOf agent = b.bucketOf agent := rfl

theorem Books.bucketOf_forAgent (other : String) : (b.forAgent other change).bucketOf agent =
    if agent = other then change (b.bucketOf agent) else b.bucketOf agent := by
  simp only [bucketOf, forAgent, Table.find?_upsert]
  by_cases hagent : agent = other
  · subst hagent
    cases hfound : b.byAgent.find? agent with
    | none => simp
    | some r => simp
  · simp [hagent]

theorem score_forAgent (results : List CaseResult) (provider : String)
    (models : List (String × String)) :
    (score results provider models).forAgent agent = (countResults results).bucketOf agent := by
  have hperm := List.perm_insertionSort (fun a b : AgentBucket => a.agent ≤ b.agent)
    (countResults results).byAgent.rows
  have hfind : (score results provider models).byAgent.find? (fun r => r.agent = agent) =
      (countResults results).byAgent.find? agent := by
    cases hfound : (score results provider models).byAgent.find? fun r => r.agent = agent with
    | none =>
      rw [eq_comm, Table.find?, List.find?_eq_none]
      exact fun r hr => List.find?_eq_none.mp hfound r (hperm.mem_iff.mpr hr)
    | some r =>
      have hr : r ∈ (countResults results).byAgent.rows :=
        hperm.mem_iff.mp (List.mem_of_find?_eq_some hfound)
      obtain rfl : r.agent = agent := by simpa using List.find?_some hfound
      exact (Table.find?_key hr).symm
  rw [EvalReport.forAgent, Books.bucketOf, hfind]

end Bucket

def wonRefs (agent : String) (m : Match) : List ℕ :=
  if m.finding.agent.value = agent then hitRefs m else []

structure Tallies (agent : String) (before : ℕ) (refs : List ℕ) (state : Books × Seen) : Prop where
  found : (state.1.bucketOf agent).labelsFound =
    before + (state.2.perAgent.filter fun p => p.1 = agent).length
  distinct : state.2.perAgent.Nodup
  seen : ∀ ref, (agent, ref) ∈ state.2.perAgent ↔ ref ∈ refs

section Tallies
variable {agent : String} {before : ℕ} {refs : List ℕ} {state : Books × Seen}

theorem tallies_start (agent : String) (books : Books) :
    Tallies agent (books.bucketOf agent).labelsFound [] (books, {}) := by
  constructor <;> simp

theorem Tallies.congr {after : Books × Seen} (h : Tallies agent before refs state)
    (hbucket : (after.1.bucketOf agent).labelsFound = (state.1.bucketOf agent).labelsFound)
    (hseen : after.2.perAgent = state.2.perAgent) : Tallies agent before refs after where
  found := by rw [hbucket, hseen, h.found]
  distinct := hseen ▸ h.distinct
  seen := hseen ▸ h.seen

theorem Tallies.credit {books : Books} {seen : Seen} (h : Tallies agent before refs (books, seen))
    (winner : String) (ref : ℕ) :
    Tallies agent before (refs ++ if winner = agent then [ref] else [])
      (if (winner, ref) ∈ seen.perAgent then (books, seen)
      else (books.forAgent winner .findLabel,
        { seen with perAgent := (winner, ref) :: seen.perAgent })) := by
  by_cases hwinner : winner = agent
  · subst hwinner
    rw [if_pos rfl]
    split
    · rename_i hseen
      exact { h with seen := seen_again h.seen hseen }
    · rename_i hnew
      refine ⟨?_, List.nodup_cons.mpr ⟨hnew, h.distinct⟩, fun other => ?_⟩
      · have hfound := h.found
        simp only [Books.bucketOf_forAgent, if_true, Bucket.findLabel, decide_true,
          List.filter_cons_of_pos, List.length_cons] at hfound ⊢
        omega
      · have hseen : (winner, other) ∈ seen.perAgent ↔ other ∈ refs := h.seen other
        rw [List.mem_cons, hseen, List.mem_append, List.mem_singleton, Prod.mk.injEq, or_comm]
        simp
  · rw [if_neg hwinner, List.append_nil]
    split
    · exact h
    · refine ⟨?_, List.nodup_cons.mpr ⟨‹_›, h.distinct⟩, fun other => ?_⟩
      · simpa [Books.bucketOf_forAgent, Ne.symm hwinner, hwinner] using h.found
      · simpa [Ne.symm hwinner] using h.seen other

theorem countLabel_tallies (h : Tallies agent before refs state) (winner family : String)
    (label : Label) : Tallies agent before (refs ++ if winner = agent then [label.ref] else [])
      (countLabel winner family state label) := by
  obtain ⟨books, seen⟩ := state
  simp only [countLabel]
  by_cases href : label.ref ∈ seen.labels
  · by_cases hconcern : (label.ref, family) ∈ seen.concerns
    · simpa only [if_pos href, if_pos hconcern] using h.credit winner label.ref
    · have hnamed : Tallies agent before refs (books.forAll .nameConcern,
          { seen with concerns := (label.ref, family) :: seen.concerns }) := h.congr rfl rfl
      simpa only [if_pos href, if_neg hconcern] using hnamed.credit winner label.ref
  · have hfound : Tallies agent before refs (books.forAll .findLabel,
        { seen with labels := label.ref :: seen.labels }) := h.congr rfl rfl
    by_cases hconcern : (label.ref, family) ∈ seen.concerns
    · simpa only [if_neg href, if_pos hconcern] using hfound.credit winner label.ref
    · have hnamed : Tallies agent before refs ((books.forAll .findLabel).forAll .nameConcern,
          { seen with
            labels := label.ref :: seen.labels
            concerns := (label.ref, family) :: seen.concerns }) := h.congr rfl rfl
      simpa only [if_neg href, if_neg hconcern] using hnamed.credit winner label.ref

theorem countLabels_tallies (h : Tallies agent before refs state) (winner family : String)
    (labels : List Label) :
    Tallies agent before (refs ++ if winner = agent then labels.map Label.ref else [])
      (labels.foldl (countLabel winner family) state) := by
  induction labels generalizing refs state with
  | nil => simpa using h
  | cons label labels ih =>
    have hlabels := ih (countLabel_tallies h winner family label)
    by_cases hwinner : winner = agent
    · simpa [hwinner] using hlabels
    · simpa [hwinner] using hlabels

theorem countMatch_tallies (h : Tallies agent before refs state) (m : Match) :
    Tallies agent before (refs ++ wonRefs agent m) (countMatch state m) := by
  have hadded (other : String) (b : Books) : (((b.forAll (.add m.kind)).forAgent other
      (.add m.kind)).bucketOf agent).labelsFound = (b.bucketOf agent).labelsFound := by
    rw [Books.bucketOf_forAgent, Books.bucketOf_forAll]
    split
    · cases m.kind <;> rfl
    · rfl
  have hcounted : Tallies agent before refs
      ((state.1.forAll (.add m.kind)).forAgent m.finding.agent.value (.add m.kind), state.2) :=
    h.congr (hadded _ _) rfl
  by_cases hkind : m.kind = .hit
  · have hlabels := countLabels_tallies hcounted m.finding.agent.value
      (familyOf m.finding.category) m.labels
    simpa only [countMatch, wonRefs, hitRefs, if_pos hkind] using hlabels
  · have hnone : wonRefs agent m = [] := by simp [wonRefs, hitRefs, hkind]
    rw [hnone, List.append_nil]
    simpa only [countMatch, if_neg hkind] using hcounted

theorem countMatches_tallies (h : Tallies agent before refs state) (matched : List Match) :
    Tallies agent before (refs ++ matched.flatMap (wonRefs agent))
      (matched.foldl countMatch state) := by
  induction matched generalizing refs state with
  | nil => simpa using h
  | cons m matched ih => simpa using ih (countMatch_tallies h m)

theorem Tallies.length_eq (h : Tallies agent before refs state) :
    (state.2.perAgent.filter fun p => p.1 = agent).length = refs.toFinset.card := by
  have hdistinct : ((state.2.perAgent.filter fun p => p.1 = agent).map Prod.snd).Nodup := by
    refine (h.distinct.filter _).map_on fun p hp q hq heq => Prod.ext ?_ heq
    rw [of_decide_eq_true (List.mem_filter.mp hp).2, of_decide_eq_true (List.mem_filter.mp hq).2]
  rw [← List.length_map Prod.snd, length_eq_card hdistinct fun ref => ?_]
  rw [← h.seen]
  simp

theorem mem_seenFor {r : CaseResult} {ref : ℕ} :
    ref ∈ r.seenFor agent ↔ ref ∈ r.matched.flatMap (wonRefs agent) := by
  have h := countMatches_tallies (tallies_start agent {}) r.matched
  rw [List.nil_append] at h
  rw [CaseResult.seenFor, ← h.seen]
  simp

theorem bucketOf_countMissed (books : Books) (labels : List Label) :
    ((labels.foldl countMissed books).bucketOf agent).labelsFound =
      (books.bucketOf agent).labelsFound := by
  induction labels generalizing books with
  | nil => rfl
  | cons label labels ih =>
    rw [List.foldl_cons, ih, countMissed]
    split
    · rfl
    · rfl
    · rw [Books.bucketOf_forAgent, Books.bucketOf_forAll]
      split
      · rfl
      · rfl

theorem countResult_bucketOf (books : Books) (r : CaseResult) :
    ((countResult books r).bucketOf agent).labelsFound =
      (books.bucketOf agent).labelsFound + (r.seenFor agent).length := by
  have h := countMatches_tallies (tallies_start agent books) r.matched
  have hcase := countMatches_tallies (tallies_start agent {}) r.matched
  rw [countResult, bucketOf_countMissed, h.found, CaseResult.seenFor, List.length_map, h.length_eq,
    hcase.length_eq]

theorem countResults_bucketOf (books : Books) (results : List CaseResult) :
    ((results.foldl countResult books).bucketOf agent).labelsFound =
      (books.bucketOf agent).labelsFound + (results.map fun r => (r.seenFor agent).length).sum := by
  induction results generalizing books with
  | nil => rfl
  | cons r results ih =>
    rw [List.foldl_cons, ih, countResult_bucketOf, List.map_cons, List.sum_cons, Nat.add_assoc]

theorem mem_seenFor_iff {r : CaseResult} {x : Label} : x.ref ∈ r.seenFor agent ↔ Won r agent x := by
  rw [mem_seenFor, List.mem_flatMap]
  refine exists_congr fun m => and_congr_right fun _ => ?_
  unfold wonRefs hitRefs
  by_cases hagent : m.finding.agent.value = agent
  · by_cases hkind : m.kind = .hit
    · simp [hagent, hkind]
    · simp [hagent, hkind]
  · simp [hagent]

end Tallies

/-- A specialist's recall counts the labels seen for it, and those are the ones its own findings
reach. -/
theorem credited_iff_won (results : List CaseResult) (provider : String)
    (models : List (String × String)) (agent : String) :
    ((score results provider models).forAgent agent).labelsFound =
        (results.map fun r => (r.seenFor agent).length).sum ∧
      ((∀ r ∈ results, ∀ x, Owed r agent x → x.ref ∈ r.seenFor agent) ↔
        ∀ r ∈ results, ∀ x, Owed r agent x → Won r agent x) := by
  constructor
  · rw [score_forAgent, countResults, countResults_bucketOf]
    exact Nat.zero_add _
  · exact forall₂_congr fun r _ => forall_congr' fun x => imp_congr_right fun _ => mem_seenFor_iff

def cryptoLabel : Label where
  ref := 0
  filePath := "app.py"
  line := 10
  agent := some "security"
  category := some "crypto"

def mergedFinding : Finding :=
  { Finding.brief 0 .correctness .inputValidation .major 10 12 8 with
    agreeing := ["correctness", "security"]
    categories := ["crypto", "input_validation"] }

def mergedCase : CaseResult where
  toCaseMeta := plainMeta
  caseId := "advisory"
  matched := [{
    finding := mergedFinding
    label := some cryptoLabel
    kind := .hit
    labels := [cryptoLabel]
    agentCorrect := true
    categoryCorrect := true
    severitySufficient := true }]
  missed := []
  expectedDecision := none

/-- Security found the one label that names it, and has found none. -/
theorem contributor_uncredited :
    scoreCase { id := "advisory", expected := [cryptoLabel] } [mergedFinding] plainMeta =
        .ok mergedCase ∧
      Owed mergedCase "security" cryptoLabel ∧
      ((score [mergedCase] "openai" []).forAgent "security").labelsFound = 0 ∧
      ¬ ∀ (results : List CaseResult) (agent : String), ∀ r ∈ results, ∀ x,
        Owed r agent x → x.ref ∈ r.seenFor agent := by
  have howed : Owed mergedCase "security" cryptoLabel :=
    ⟨rfl, _, List.mem_cons_self, rfl, by decide, List.mem_cons_self⟩
  refine ⟨rfl, howed, rfl, fun h => ?_⟩
  have hseen := h [mergedCase] "security" mergedCase List.mem_cons_self cryptoLabel howed
  exact absurd hseen (by decide)

/-- The finding is on the trap's line, and within its scope as the other labels' is read: whoever
contributed, and any of the alternatives. -/
def InScope (f : Finding) (trap : Label) : Prop :=
  covers f trap = true ∧ (∀ agent, trap.agent = some agent → agent ∈ f.contributors) ∧
    ∃ category, trap.category = some category ∧ ∃ name ∈ f.concerns, name ∈ split '|' category

/-- The trap's scope, read against the winner of the merge alone. -/
def OnWinner (f : Finding) (trap : Label) : Prop :=
  covers f trap = true ∧ (∀ agent, trap.agent = some agent → agent = f.agent.value) ∧
    ∀ category, trap.category = some category → category = f.category.value

section Traps
variable {expected forbidden allowed : List Label} {permittedConcerns : List (String × String)}
  {f : Finding} {m : Match}

theorem traps_iff {trap : Label} : traps f trap = true ↔ OnWinner f trap := by
  simp only [traps, OnWinner, Bool.and_eq_true, Option.all_eq_true, decide_eq_true_eq, and_assoc]

theorem judge_unreached (h : ∀ x ∈ expected, locates f x = false) :
    judge expected forbidden allowed permittedConcerns f =
      unhit expected forbidden allowed permittedConcerns f := by
  have hclaims : ∀ x ∈ expected, claims f x = .ok false := fun x hx => by
    rw [claims, h x hx, if_neg Bool.false_ne_true]
  have hselect : select (claims f) expected = .ok [] := by
    refine select_ok_iff.mpr ⟨fun x hx => ⟨false, hclaims x hx⟩, ?_⟩
    rw [eq_comm, List.filter_eq_nil_iff]
    intro x hx
    rw [hclaims x hx]
    simp [holds]
  rw [judge, hselect]
  rfl

theorem firingTrap_isSome (h : ∀ x ∈ expected, locates f x = false) :
    (firingTrap expected forbidden f).isSome = true ↔ ∃ trap ∈ forbidden, OnWinner f trap := by
  have hreached : expected.any (locates f) = false := by simpa using h
  rw [firingTrap, hreached, if_neg Bool.false_ne_true, List.find?_isSome]
  simp only [traps_iff]

theorem unreached_kind (h : ∀ x ∈ expected, locates f x = false)
    (hm : judge expected forbidden allowed permittedConcerns f = .ok m) :
    m.kind = .falsePositive ↔ ∃ trap ∈ forbidden, OnWinner f trap := by
  rw [judge_unreached h] at hm
  rw [← firingTrap_isSome h]
  cases htrap : firingTrap expected forbidden f with
  | some trap =>
    cases (unhit_trapped htrap).symm.trans hm
    simp
  | none =>
    obtain ⟨permitted, -, rfl⟩ := (unhit_free_iff htrap).mp hm
    simpa using excused_kind f permitted

theorem classify_at {findings : List Finding} {matched : List Match} {i : ℕ}
    (h : classify expected forbidden allowed permittedConcerns findings = .ok matched)
    (hf : findings[i]? = some f) : ∃ m, matched[i]? = some m ∧
      judge expected forbidden allowed permittedConcerns f = .ok m := by
  obtain ⟨hlength, hjudged⟩ := List.forall₂_iff_get.mp (forall₂_of_mapM h)
  obtain ⟨hi, rfl⟩ := List.getElem?_eq_some_iff.mp hf
  have hi' : i < matched.length := hlength ▸ hi
  exact ⟨matched[i], List.getElem?_eq_getElem hi', hjudged i hi hi'⟩

end Traps

/-- Traps catch the findings in their scope as far as they fire on the winner of the merge. -/
theorem caught_iff_onWinner (expected forbidden allowed : List Label)
    (permittedConcerns : List (String × String)) (findings : List Finding) :
    (∀ matched : List Match,
      classify expected forbidden allowed permittedConcerns findings = .ok matched →
      ∀ (i : ℕ) (f : Finding), findings[i]? = some f → (∀ x ∈ expected, locates f x = false) →
      ∃ m, matched[i]? = some m ∧
        ((∀ trap ∈ forbidden, InScope f trap → m.kind = .falsePositive) ↔
          ∀ trap ∈ forbidden, InScope f trap → ∃ y ∈ forbidden, OnWinner f y)) ∧
    ((∀ f ∈ findings, f.Named) → (∀ x ∈ expected, x.minSeverity ∈ severityNames) →
      ∃ matched, classify expected forbidden allowed permittedConcerns findings = .ok matched) := by
  constructor
  · intro matched hmatched i f hf hunreached
    obtain ⟨m, hm, hjudge⟩ := classify_at hmatched hf
    refine ⟨m, hm, forall₂_congr fun trap _ => imp_congr_right fun _ => ?_⟩
    exact unreached_kind hunreached hjudge
  · intro hnamed hranks
    exact mapM_ok_iff.mpr fun f hf => judge_answers (hnamed f hf) hranks

def cleanLine : Label := { cryptoLabel with agent := none, category := some "input_validation" }

theorem clean_line_caught :
    let classified := classify [] [cleanLine] [] [] [mergedFinding]
    (∃ matched, classified = .ok matched) ∧ ∀ matched : List Match, classified = .ok matched →
      ∃ m, matched[0]? = some m ∧ m.kind = .falsePositive := by
  intro classified
  have hcaught := caught_iff_onWinner [] [cleanLine] [] [] [mergedFinding]
  refine ⟨hcaught.2 ?_ (by simp), fun matched hmatched => ?_⟩
  · simp only [List.mem_singleton, forall_eq, Finding.Named]
    decide
  · obtain ⟨m, hm, hiff⟩ := hcaught.1 matched hmatched 0 mergedFinding rfl (by simp)
    have honWinner : OnWinner mergedFinding cleanLine := traps_iff.mp (by decide)
    have hscope : InScope mergedFinding cleanLine :=
      ⟨by decide, by simp [cleanLine], "input_validation", rfl, "input_validation", by decide,
        by decide⟩
    refine ⟨m, hm, hiff.mpr (fun trap htrap _ => ⟨trap, htrap, ?_⟩) cleanLine (by simp) hscope⟩
    rwa [List.mem_singleton.mp htrap]

def eitherName : Label := { cleanLine with category := some "crypto|input_validation" }

theorem alternatives_uncaught :
    ¬ ∀ (expected forbidden : List Label) (f : Finding), (∀ x ∈ expected, locates f x = false) →
      ∀ trap ∈ forbidden, InScope f trap → ∃ m,
        classify expected forbidden [] [] [f] = .ok [m] ∧ m.kind = .falsePositive := by
  intro h
  have hscope : InScope mergedFinding eitherName :=
    ⟨by decide, by simp [eitherName, cleanLine], "crypto|input_validation", rfl, "crypto",
      by decide, by decide⟩
  obtain ⟨m, hm, hkind⟩ := h [] [eitherName] mergedFinding (by simp) eitherName (by simp) hscope
  have hrun : classify [] [eitherName] [] [] [mergedFinding] =
      .ok [{ finding := mergedFinding, label := none, kind := .unlabelled }] := rfl
  cases hrun.symm.trans hm
  cases hkind

end PrSentinel
