import PrSentinel.Act
import PrSentinel.Ranking
import PrSentinel.Runs
import PrSentinel.Specialist

/-!
Retrieve, panel, aggregate, gate, and what a later attempt at the same review
finds of an earlier one: the verdicts that were stored before it stopped.
-/

set_option autoImplicit false

namespace PrSentinel
open Python Relational Crash Crash.Exec

/-- What an engine comes back with: one verdict for every agent it was given, in
any order and of any status, or the exception that ends the panel. -/
inductive PanelReply (todo : List AgentType) where
  | verdicts (vs : List AgentVerdict) (complete : (vs.map AgentVerdict.agent).Perm todo)
  | budgetExceeded

structure RunFates where
  retrieve : Fate := .returns
  completedAgents : Fate := .returns
  runPanel : Fate := .returns
  reply : ∀ todo, PanelReply todo
  saveVerdict : AgentType → Fate := fun _ => .returns
  loadVerdicts : Fate := .returns
  saveFindings : Fate := .returns

section Run
variable [Interp] (settings : Settings) (fates : RunFates) (pr : PullRequestContext) (reviewId : ℕ)

/-- The engine's part: whether the budget ran out, and the verdicts. -/
def askPanel (todo : List AgentType) : Exec World (Bool × List AgentVerdict) :=
  if todo = [] then pure (false, [])
  else
    match fates.reply todo with
    | .verdicts vs _ => call fates.runPanel fun w => ((false, vs), w)
    | .budgetExceeded => pure (true, [])

/-- Aggregate and gate: all of `_run` that talks to nobody. -/
def conclude (verdicts : List AgentVerdict) (budgetExhausted : Bool) : ReviewOutcome :=
  let (findings, confidence) := aggregate settings verdicts
  let result := panelGate settings verdicts budgetExhausted (!pr.isPrivate)
  { reviewId
    decision := result.decision
    reason := result.reason
    overallConfidence := confidence
    findings
    postable := result.postable
    verdicts
    summary := summarise findings verdicts
    totalCostUsd := (verdicts.map AgentVerdict.costUsd).sum }

def run : Exec World ReviewOutcome := do
  write fates.retrieve id
  let done ← call fates.completedAgents fun w => (w.completedAgents reviewId, w)
  let todo := allAgents.filter (fun a => a ∉ done)
  let (budgetExhausted, verdicts) ← askPanel fates todo
  forEach (fun v => write (fates.saveVerdict v.agent) (World.saveVerdict reviewId v)) verdicts
  let loaded ← call fates.loadVerdicts fun w => (w.loadVerdicts reviewId, w)
  let allVerdicts := if loaded = [] then verdicts else loaded
  let outcome := conclude settings pr reviewId allVerdicts budgetExhausted
  write fates.saveFindings (World.saveFindings reviewId outcome.findings)
  pure outcome

end Run

section Stored
variable (reviewId : ℕ)

/-- The panel of a review is complete: every agent's row says it returned. -/
structure CompletePanel (w : World) (outcome : ReviewOutcome) : Prop where
  stored : outcome.verdicts = w.loadVerdicts reviewId
  agents : (outcome.verdicts.map AgentVerdict.agent).Perm allAgents
  ok : ∀ v ∈ outcome.verdicts, v.ok = true

theorem mem_loadVerdicts {w : World} {v : AgentVerdict} :
    v ∈ w.loadVerdicts reviewId ↔ ⟨reviewId, v⟩ ∈ w.verdicts.rows := by
  simp only [World.loadVerdicts, List.mem_insertionSort, List.mem_map, List.mem_filter,
    decide_eq_true_eq]
  constructor
  · rintro ⟨⟨_, _⟩, ⟨hrow, rfl⟩, rfl⟩
    exact hrow
  · exact fun hrow => ⟨_, ⟨hrow, rfl⟩, rfl⟩

theorem loadVerdicts_nodup (w : World) :
    ((w.loadVerdicts reviewId).map AgentVerdict.agent).Nodup := by
  have hrows : ((w.verdicts.rows.filter (fun r => r.reviewId = reviewId)).map
      fun r : VerdictRow => (r.reviewId, r.verdict.agent)).Nodup :=
    (List.filter_sublist.map _).nodup w.verdicts.unique
  have hagents : ((w.verdicts.rows.filter (fun r => r.reviewId = reviewId)).map
      fun r : VerdictRow => r.verdict.agent).Nodup := by
    refine List.Nodup.of_map (fun a => (reviewId, a)) ?_
    rw [List.map_map]
    refine (List.map_congr_left fun r hr => ?_).symm ▸ hrows
    simp only [List.mem_filter, decide_eq_true_eq] at hr
    simp [hr.2]
  refine ((List.perm_insertionSort _ _).map AgentVerdict.agent).nodup_iff.mpr ?_
  rwa [List.map_map]

theorem mem_completedAgents {w : World} {a : AgentType} :
    a ∈ w.completedAgents reviewId ↔
      ∃ row ∈ w.verdicts.rows, row.reviewId = reviewId ∧ row.verdict.ok = true ∧
        row.verdict.agent = a := by
  simp [World.completedAgents, and_assoc]

def HasVerdict (w : World) (a : AgentType) : Prop := w.verdicts.hasKey (reviewId, a) = true

theorem loadVerdicts_agents {w : World} (h : ∀ a, HasVerdict reviewId w a) :
    ((w.loadVerdicts reviewId).map AgentVerdict.agent).Perm allAgents := by
  refine (List.perm_ext_iff_of_nodup (loadVerdicts_nodup reviewId w) (by decide)).mpr fun a => ?_
  refine ⟨fun _ => mem_allAgents a, fun _ => ?_⟩
  obtain ⟨row, hrow, hkey⟩ := Table.hasKey_iff.mp (h a)
  obtain ⟨rfl, rfl⟩ := Prod.mk.inj hkey
  exact List.mem_map.mpr ⟨row.verdict, (mem_loadVerdicts _).mpr hrow, rfl⟩

theorem hasVerdict_saveVerdict {w : World} {v : AgentVerdict} {a : AgentType}
    (h : a = v.agent ∨ HasVerdict reviewId w a) : HasVerdict reviewId (w.saveVerdict reviewId v) a := by
  rcases h with rfl | h
  · exact Table.upsert_hasKey _ _ _ _
  · exact Table.hasKey_upsert h

theorem mem_saveVerdict {w : World} {v : AgentVerdict} {row : VerdictRow}
    (hrow : row ∈ w.verdicts.rows) (h : row.reviewId = reviewId → row.verdict.agent ≠ v.agent) :
    row ∈ (w.saveVerdict reviewId v).verdicts.rows :=
  Table.mem_upsert_of_ne hrow fun hkey => h (Prod.mk.inj hkey).1 (Prod.mk.inj hkey).2

theorem mem_completedAgents_saveVerdict {w : World} {v : AgentVerdict} {a : AgentType} :
    a ∈ (w.saveVerdict reviewId v).completedAgents reviewId ↔
      (a = v.agent ∧ v.ok = true) ∨ (a ≠ v.agent ∧ a ∈ w.completedAgents reviewId) := by
  simp only [mem_completedAgents, World.saveVerdict, Table.mem_upsert, Prod.mk.injEq, ne_eq]
  constructor
  · rintro ⟨row, (⟨hrow, hne⟩ | ⟨-, rfl⟩ | ⟨q, -, ⟨-, hagent⟩, rfl⟩), hreview, hok, rfl⟩
    · exact .inr ⟨fun h => hne ⟨hreview, h⟩, row, hrow, hreview, hok, rfl⟩
    · exact .inl ⟨rfl, hok⟩
    · exact .inl ⟨hagent, hok⟩
  · rintro (⟨rfl, hok⟩ | ⟨hne, row, hrow, hreview, hok, rfl⟩)
    · cases hkey : w.verdicts.hasKey (reviewId, v.agent) with
      | false => exact ⟨_, .inr (.inl ⟨rfl, rfl⟩), rfl, hok, rfl⟩
      | true =>
        obtain ⟨q, hq, hqkey⟩ := Table.hasKey_iff.mp hkey
        obtain ⟨hreview, hagent⟩ := Prod.mk.inj hqkey
        exact ⟨_, .inr (.inr ⟨q, hq, ⟨hreview, hagent⟩, rfl⟩), hreview, hok, hagent⟩
    · exact ⟨row, .inl ⟨hrow, fun h => hne h.2⟩, hreview, hok, rfl⟩

end Stored

section Judged
variable (reviewId : ℕ)

def agentsByName : List AgentType := [.correctness, .docs, .security, .tests]

def World.verdictOf (w : World) (a : AgentType) : Option AgentVerdict :=
  (w.verdicts.find? (reviewId, a)).map VerdictRow.verdict

/-- The verdict as its row gives it back. -/
def AgentVerdict.stored (v : AgentVerdict) : AgentVerdict :=
  { v with costUsd := World.numeric 6 v.costUsd }

/-- The rows of a review once these answers have taken the place of their agents'. -/
def judged (answers : List AgentVerdict) (w : World) : List AgentVerdict :=
  agentsByName.filterMap fun a =>
    ((answers.find? fun v => v.agent = a).map AgentVerdict.stored).or (w.verdictOf reviewId a)

variable {reviewId}

theorem verdictOf_eq_some {w : World} {a : AgentType} {v : AgentVerdict} :
    w.verdictOf reviewId a = some v ↔ v.agent = a ∧ v ∈ w.loadVerdicts reviewId := by
  rw [mem_loadVerdicts, World.verdictOf, Option.map_eq_some_iff]
  constructor
  · rintro ⟨row, hfound, rfl⟩
    obtain ⟨hrow, hkey⟩ := Table.mem_of_find? hfound
    obtain ⟨rfl, rfl⟩ := Prod.mk.inj hkey
    exact ⟨rfl, hrow⟩
  · rintro ⟨rfl, hrow⟩
    exact ⟨_, Table.find?_key hrow, rfl⟩

theorem loadVerdicts_eq (w : World) :
    w.loadVerdicts reviewId = agentsByName.filterMap (w.verdictOf reviewId) := by
  have hmem (v : AgentVerdict) : v ∈ agentsByName.filterMap (w.verdictOf reviewId) ↔
      v ∈ w.loadVerdicts reviewId := by
    rw [List.mem_filterMap]
    constructor
    · rintro ⟨a, -, hv⟩
      exact (verdictOf_eq_some.mp hv).2
    · exact fun hv => ⟨v.agent, by cases v.agent <;> decide, verdictOf_eq_some.mpr ⟨rfl, hv⟩⟩
  have hnodup := loadVerdicts_nodup reviewId w
  have hbyName : agentsByName.Pairwise fun a b => a.value < b.value := by decide
  have hsorted : (agentsByName.filterMap (w.verdictOf reviewId)).Pairwise
      fun v u => v.agent.value < u.agent.value := by
    refine List.pairwise_filterMap.mpr (hbyName.imp fun hab v hv u hu => ?_)
    rwa [(verdictOf_eq_some.mp hv).1, (verdictOf_eq_some.mp hu).1]
  -- two rows with one agent are one row, so the order by name leaves no choice
  refine List.Perm.eq_of_pairwise (fun v u hv hu hle hge => ?_)
    (Ranking.inOrder_pairwise (fun v : AgentVerdict => v.agent.value) _)
    (hsorted.imp le_of_lt) ?_
  · exact List.inj_on_of_nodup_map hnodup hv ((hmem u).mp hu)
      (AgentType.value_injective (le_antisymm hle hge))
  · exact (List.perm_ext_iff_of_nodup (List.Nodup.of_map _ hnodup)
      (hsorted.imp fun h heq => h.ne (congrArg (fun v => v.agent.value) heq))).mpr
      fun v => (hmem v).symm

theorem verdictOf_saveVerdict (w : World) (v : AgentVerdict) (a : AgentType) :
    (w.saveVerdict reviewId v).verdictOf reviewId a =
      if a = v.agent then some v.stored else w.verdictOf reviewId a := by
  simp only [World.verdictOf, World.saveVerdict, Table.find?_upsert, Prod.mk.injEq, true_and]
  split_ifs with ha
  · subst ha
    cases hfound : w.verdicts.find? (reviewId, v.agent) with
    | none => rfl
    | some row =>
      obtain ⟨-, hagent⟩ := Prod.mk.inj (Table.mem_of_find? hfound).2
      simp [AgentVerdict.stored, hagent]
  · rfl

end Judged

section Attempt
variable (fates : RunFates) (reviewId : ℕ)

theorem askPanel_spec (todo : List AgentType) (I : World → Prop) :
    Triple I (askPanel fates todo)
      (fun reply w => I w ∧ (reply.1 = false → (reply.2.map AgentVerdict.agent).Perm todo) ∧
        ∀ v ∈ reply.2, v.agent ∈ todo)
      (fun _ => I) := by
  unfold askPanel
  split_ifs with htodo
  · exact Triple.ret fun w hw => ⟨hw, fun _ => by simp [htodo], by simp⟩
  · cases fates.reply todo with
    | verdicts vs complete =>
      refine Triple.call (fun w hw _ => ⟨hw, fun _ => complete, fun v hv => ?_⟩)
        (fun w hw _ _ => hw) (fun w hw _ _ => hw)
      exact complete.subset (List.mem_map_of_mem hv)
    | budgetExceeded => exact Triple.ret fun w hw => ⟨hw, by simp, by simp⟩

theorem saveAll_keeps_row (row : VerdictRow) (verdicts : List AgentVerdict) :
    Triple
      (fun w => row ∈ w.verdicts.rows ∧
        ∀ v ∈ verdicts, row.reviewId = reviewId → row.verdict.agent ≠ v.agent)
      (forEach (fun v => write (fates.saveVerdict v.agent) (World.saveVerdict reviewId v)) verdicts)
      (fun _ w => row ∈ w.verdicts.rows) (fun _ w => row ∈ w.verdicts.rows) := by
  refine (Triple.forEach (I := fun vs w => row ∈ w.verdicts.rows ∧
    ∀ v ∈ vs, row.reviewId = reviewId → row.verdict.agent ≠ v.agent) (fun v vs => ?_) verdicts).imp
    (fun _ h => h) (fun _ _ h => h.1) (fun _ _ h => h)
  refine Triple.call (fun w hw _ => ?_) (fun w hw _ _ => ?_) (fun w hw _ _ => hw.1)
  · exact ⟨mem_saveVerdict reviewId hw.1 (hw.2 v List.mem_cons_self),
      fun u hu => hw.2 u (List.mem_cons_of_mem _ hu)⟩
  · exact mem_saveVerdict reviewId hw.1 (hw.2 v List.mem_cons_self)

theorem saveAll_hasVerdict (verdicts : List AgentVerdict) :
    Triple (fun w => ∀ a, a ∈ verdicts.map AgentVerdict.agent ∨ HasVerdict reviewId w a)
      (forEach (fun v => write (fates.saveVerdict v.agent) (World.saveVerdict reviewId v)) verdicts)
      (fun _ w => ∀ a, HasVerdict reviewId w a) (fun _ _ => True) := by
  refine (Triple.forEach (I := fun vs w => ∀ a, a ∈ vs.map AgentVerdict.agent ∨
    HasVerdict reviewId w a) (fun v vs => ?_) verdicts).imp
    (fun _ h => h) (fun _ w h a => (h a).resolve_left (by simp)) (fun _ _ h => h)
  refine Triple.call (fun w hw _ a => ?_) (fun _ _ _ _ => trivial) (fun _ _ _ _ => trivial)
  rcases hw a with ha | ha
  · rcases List.mem_cons.mp ha with ha | ha
    · exact .inr (hasVerdict_saveVerdict reviewId (.inl ha))
    · exact .inl ha
  · exact .inr (hasVerdict_saveVerdict reviewId (.inr ha))

variable [Interp] (settings : Settings) (pr : PullRequestContext)

theorem conclude_budgetExhausted (verdicts : List AgentVerdict) :
    (conclude settings pr reviewId verdicts true).decision = .escalate :=
  panelGate_budgetExhausted settings verdicts (!pr.isPrivate)

theorem conclude_ok {verdicts : List AgentVerdict} {budgetExhausted : Bool}
    (h : (conclude settings pr reviewId verdicts budgetExhausted).decision ≠ .escalate) :
    ∀ v ∈ verdicts, v.ok = true :=
  ok_of_not_escalate h

theorem run_keeps {I : World → Prop} (hverdict : ∀ w v, I w → I (w.saveVerdict reviewId v))
    (hfindings : ∀ w fs, I w → I (w.saveFindings reviewId fs)) :
    Keeps I (run settings fates pr reviewId) := by
  unfold run
  refine Keeps.bind (Keeps.call fun _ h => h) fun _ => ?_
  refine Keeps.bind (Keeps.call fun _ h => h) fun done => ?_
  refine Keeps.bind (keeps_iff.mpr ((askPanel_spec fates _ I).imp (fun _ h => h)
    (fun _ _ h => h.1) fun _ _ h => h)) fun reply => ?_
  refine Keeps.bind (Keeps.forEach (fun v => Keeps.call fun w => hverdict w v) _) fun _ => ?_
  refine Keeps.bind (Keeps.call fun _ h => h) fun loaded => ?_
  exact Keeps.bind (Keeps.call fun w => hfindings w _) fun _ => Keeps.ret _

theorem run_keeps_row {row : VerdictRow} (hok : row.verdict.ok = true) :
    Keeps (fun w => row ∈ w.verdicts.rows) (run settings fates pr reviewId) := by
  refine keeps_iff.mpr ?_
  unfold run
  refine Triple.bind (Keeps.call fun _ h => h).triple fun _ => ?_
  refine Triple.bind (R := fun done w => row ∈ w.verdicts.rows ∧
      (row.reviewId = reviewId → row.verdict.agent ∈ done))
    (Triple.call (fun w hw _ => ⟨hw, fun h => (mem_completedAgents _).mpr ⟨row, hw, h, hok, rfl⟩⟩)
      (fun _ hw _ _ => hw) (fun _ hw _ _ => hw)) fun done => ?_
  refine Triple.bind ((askPanel_spec fates _ _).imp (fun _ h => h) (fun _ _ h => h)
    fun _ _ h => h.1) fun reply => ?_
  refine Triple.bind ((saveAll_keeps_row fates reviewId row reply.2).imp (fun w hw => ?_)
    (fun _ _ h => h) fun _ _ h => h) fun _ => ?_
  · obtain ⟨⟨hrow, hdone⟩, -, hasked⟩ := hw
    refine ⟨hrow, fun v hv hreview hagent => ?_⟩
    have hnew := (List.mem_filter.mp (hasked v hv)).2
    simp [← hagent, hdone hreview] at hnew
  refine Triple.bind (Keeps.call fun _ h => h).triple fun loaded => ?_
  refine (Keeps.bind (Keeps.call fun w hw => ?_) fun _ => Keeps.ret _).triple
  simpa using hw

theorem run_complete :
    Triple (fun _ => True) (run settings fates pr reviewId)
      (fun outcome w => outcome.decision ≠ .escalate → CompletePanel reviewId w outcome ∧
        outcome.decision = (panelGate settings outcome.verdicts false (!pr.isPrivate)).decision)
      (fun _ _ => True) := by
  unfold run
  refine Triple.bind (Keeps.call fun _ h => h).triple fun _ => ?_
  refine Triple.bind (R := fun done w => ∀ a ∈ done, HasVerdict reviewId w a)
    (Triple.call (fun w _ _ a ha => ?_) (fun _ _ _ _ => trivial) fun _ _ _ _ => trivial) fun done => ?_
  · obtain ⟨row, hrow, hreview, -, hagent⟩ := (mem_completedAgents _).mp ha
    exact Table.hasKey_iff.mpr ⟨row, hrow, by rw [hreview, hagent]⟩
  refine Triple.bind ((askPanel_spec fates _ _).imp (fun _ h => h) (fun _ _ h => h)
    fun _ _ _ => trivial) fun reply => ?_
  cases hbudget : reply.1 with
  | true =>
    simp only [hbudget]
    refine Triple.bind (R := fun _ _ => True) ?_ fun _ => ?_
    · exact (Keeps.forEach (I := fun _ => True) (fun _ _ _ => trivial) _).triple.imp
        (fun _ _ => trivial) (fun _ _ h => h) fun _ _ h => h
    refine Triple.bind (Keeps.call fun _ h => h).triple fun loaded => ?_
    refine Triple.bind (Keeps.call fun _ h => h).triple fun _ => ?_
    exact Triple.ret fun _ _ hdecision =>
      absurd (conclude_budgetExhausted reviewId settings pr _) hdecision
  | false =>
    simp only [hbudget]
    refine Triple.bind ((saveAll_hasVerdict fates reviewId reply.2).imp (fun w hw a => ?_)
      (fun _ _ h => h) fun _ _ h => h) fun _ => ?_
    · obtain ⟨hdone, hcomplete, -⟩ := hw
      by_cases ha : a ∈ done
      · exact .inr (hdone a ha)
      · refine .inl ((hcomplete trivial).mem_iff.mpr (List.mem_filter.mpr ⟨mem_allAgents a, ?_⟩))
        simpa using ha
    refine Triple.bind (R := fun loaded w => (∀ a, HasVerdict reviewId w a) ∧
        loaded = w.loadVerdicts reviewId)
      (Triple.call (fun w hw _ => ⟨hw, rfl⟩) (fun _ _ _ _ => trivial) fun _ _ _ _ => trivial)
      fun loaded => ?_
    refine Triple.bind (R := fun _ w => (∀ a, HasVerdict reviewId w a) ∧
        loaded = w.loadVerdicts reviewId)
      (Triple.call (fun w hw _ => ?_) (fun _ _ _ _ => trivial) fun _ _ _ _ => trivial) fun _ => ?_
    · simpa [HasVerdict, World.loadVerdicts] using hw
    refine Triple.ret fun w hw hdecision => ?_
    obtain ⟨hall, rfl⟩ := hw
    have hagents := loadVerdicts_agents reviewId hall
    have hloaded : w.loadVerdicts reviewId ≠ [] := by
      intro hnone
      rw [hnone] at hagents
      exact absurd hagents.length_eq (by decide)
    simp only [if_neg hloaded] at hdecision ⊢
    exact ⟨⟨rfl, hagents, conclude_ok reviewId settings pr hdecision⟩, rfl⟩

end Attempt

def stillToDo (reviewId : ℕ) (w : World) : List AgentType :=
  allAgents.filter (fun a => a ∉ w.completedAgents reviewId)

def RunFates.panel (fates : RunFates) (todo : List AgentType) : Bool × List AgentVerdict :=
  if todo = [] then (false, [])
  else
    match fates.reply todo with
    | .verdicts vs _ => (false, vs)
    | .budgetExceeded => (true, [])

/-- Every call that `_run` makes returns. -/
structure RunFates.Clear (fates : RunFates) (todo : List AgentType) : Prop where
  retrieve : fates.retrieve = .returns
  completedAgents : fates.completedAgents = .returns
  runPanel : (fates.panel todo).2 ≠ [] → fates.runPanel = .returns
  saveVerdict : ∀ v ∈ (fates.panel todo).2, fates.saveVerdict v.agent = .returns
  loadVerdicts : fates.loadVerdicts = .returns
  saveFindings : fates.saveFindings = .returns

instance (fates : RunFates) (todo : List AgentType) : Decidable (fates.Clear todo) :=
  decidable_of_iff
    (fates.retrieve = .returns ∧ fates.completedAgents = .returns ∧
      ((fates.panel todo).2 ≠ [] → fates.runPanel = .returns) ∧
      (∀ v ∈ (fates.panel todo).2, fates.saveVerdict v.agent = .returns) ∧
      fates.loadVerdicts = .returns ∧ fates.saveFindings = .returns)
    ⟨fun ⟨h₁, h₂, h₃, h₄, h₅, h₆⟩ => ⟨h₁, h₂, h₃, h₄, h₅, h₆⟩,
      fun ⟨h₁, h₂, h₃, h₄, h₅, h₆⟩ => ⟨h₁, h₂, h₃, h₄, h₅, h₆⟩⟩

def saveAll (reviewId : ℕ) (verdicts : List AgentVerdict) (w : World) : World :=
  verdicts.foldl (fun w v => w.saveVerdict reviewId v) w

section Saved
variable (reviewId : ℕ)

theorem stillToDo_nodup (w : World) : (stillToDo reviewId w).Nodup :=
  List.Nodup.filter _ (by decide)

theorem panel_nodup (fates : RunFates) (w : World) :
    ((fates.panel (stillToDo reviewId w)).2.map AgentVerdict.agent).Nodup := by
  unfold RunFates.panel
  split_ifs
  · exact List.nodup_nil
  · cases fates.reply (stillToDo reviewId w) with
    | verdicts vs complete => exact complete.nodup_iff.mpr (stillToDo_nodup reviewId w)
    | budgetExceeded => exact List.nodup_nil

variable {reviewId}

theorem verdictOf_saveAll {verdicts : List AgentVerdict}
    (hnodup : (verdicts.map AgentVerdict.agent).Nodup) (w : World) (a : AgentType) :
    (saveAll reviewId verdicts w).verdictOf reviewId a =
      ((verdicts.find? fun v => v.agent = a).map AgentVerdict.stored).or
        (w.verdictOf reviewId a) := by
  induction verdicts generalizing w with
  | nil => rfl
  | cons v vs ih =>
    obtain ⟨hv, hvs⟩ := List.nodup_cons.mp hnodup
    refine (ih hvs (w.saveVerdict reviewId v)).trans ?_
    rw [verdictOf_saveVerdict]
    by_cases ha : v.agent = a
    · subst ha
      have hnone : vs.find? (fun u => u.agent = v.agent) = none :=
        List.find?_eq_none.mpr fun u hu => by
          have hne : u.agent ≠ v.agent := fun heq => hv (heq ▸ List.mem_map_of_mem hu)
          simpa using hne
      simp [hnone]
    · simp [ha, Ne.symm ha]

theorem loadVerdicts_saveAll {verdicts : List AgentVerdict}
    (hnodup : (verdicts.map AgentVerdict.agent).Nodup) (w : World) :
    (saveAll reviewId verdicts w).loadVerdicts reviewId = judged reviewId verdicts w := by
  rw [loadVerdicts_eq, judged]
  exact List.filterMap_congr fun a _ => verdictOf_saveAll hnodup w a

theorem judged_ne_nil {answers : List AgentVerdict} (w : World) (h : answers ≠ []) :
    judged reviewId answers w ≠ [] := by
  obtain ⟨v, hv⟩ := List.exists_mem_of_ne_nil _ h
  obtain ⟨u, hu⟩ := Option.isSome_iff_exists.mp
    (List.find?_isSome.mpr ⟨v, hv, by simp⟩ : (answers.find? fun u => u.agent = v.agent).isSome)
  have hmem : u.stored ∈ judged reviewId answers w :=
    List.mem_filterMap.mpr ⟨v.agent, by cases v.agent <;> decide, by rw [hu]; rfl⟩
  exact List.ne_nil_of_mem hmem

end Saved

section Exact
variable (fates : RunFates) (reviewId : ℕ)

theorem askPanel_exact (todo : List AgentType) (w : World) :
    Triple (fun t => t = w) (askPanel fates todo)
      (fun reply t => t = w ∧ reply = fates.panel todo ∧
        ((fates.panel todo).2 ≠ [] → fates.runPanel = .returns))
      (fun _ _ => (fates.panel todo).2 ≠ [] ∧ fates.runPanel ≠ .returns) := by
  unfold askPanel RunFates.panel
  split_ifs with htodo
  · exact Triple.ret fun t ht => ⟨ht, rfl, fun h => absurd rfl h⟩
  · cases fates.reply todo with
    | verdicts vs complete =>
      have hvs : vs ≠ [] := by
        rintro rfl
        exact htodo (List.nil_perm.mp complete)
      exact Triple.call (fun t ht hreturns => ⟨ht, rfl, fun _ => hreturns⟩)
        (fun t _ hne _ => ⟨hvs, hne⟩) (fun t _ hne _ => ⟨hvs, hne⟩)
    | budgetExceeded => exact Triple.ret fun t ht => ⟨ht, rfl, fun h => absurd rfl h⟩

theorem saveAll_exact (verdicts : List AgentVerdict) (w : World) :
    Triple (fun t => t = w)
      (forEach (fun v => write (fates.saveVerdict v.agent) (World.saveVerdict reviewId v)) verdicts)
      (fun _ t => t = saveAll reviewId verdicts w ∧
        ∀ v ∈ verdicts, fates.saveVerdict v.agent = .returns)
      (fun _ _ => ∃ v ∈ verdicts, fates.saveVerdict v.agent ≠ .returns) := by
  induction verdicts generalizing w with
  | nil => exact Triple.ret fun t ht => ⟨ht, by simp⟩
  | cons v vs ih =>
    refine Triple.bind (R := fun _ t => t = w.saveVerdict reviewId v ∧
        fates.saveVerdict v.agent = .returns)
      (Triple.call (fun t ht hreturns => ⟨by rw [ht], hreturns⟩)
        (fun _ _ hne _ => ⟨v, List.mem_cons_self, hne⟩)
        fun _ _ hne _ => ⟨v, List.mem_cons_self, hne⟩) fun _ => ?_
    by_cases hreturns : fates.saveVerdict v.agent = .returns
    · refine (ih (w.saveVerdict reviewId v)).imp (fun t ht => ht.1) (fun _ t ht => ⟨ht.1, ?_⟩) ?_
      · simpa [hreturns] using ht.2
      · rintro _ _ ⟨u, hu, hne⟩
        exact ⟨u, List.mem_cons_of_mem v hu, hne⟩
    · exact fun t ht => absurd ht.2 hreturns

variable [Interp] (settings : Settings) (pr : PullRequestContext)

/-- What an undisturbed `_run` makes of the stored verdicts and the engine's. -/
def runOutcome (w : World) : ReviewOutcome :=
  let panel := fates.panel (stillToDo reviewId w)
  let loaded := (saveAll reviewId panel.2 w).loadVerdicts reviewId
  conclude settings pr reviewId (if loaded = [] then panel.2 else loaded) panel.1

theorem runOutcome_eq (w : World) : runOutcome fates reviewId settings pr w =
    conclude settings pr reviewId (judged reviewId (fates.panel (stillToDo reviewId w)).2 w)
      (fates.panel (stillToDo reviewId w)).1 := by
  have hloaded : (saveAll reviewId (fates.panel (stillToDo reviewId w)).2 w).loadVerdicts reviewId =
      judged reviewId (fates.panel (stillToDo reviewId w)).2 w :=
    loadVerdicts_saveAll (panel_nodup reviewId fates w) w
  simp only [runOutcome, hloaded]
  split_ifs with hnone
  · have hpanel : (fates.panel (stillToDo reviewId w)).2 = [] := by
      by_contra h
      exact judged_ne_nil w h hnone
    rw [hnone, hpanel]
  · rfl

theorem run_exact (w : World) :
    Triple (fun t => t = w) (run settings fates pr reviewId)
      (fun outcome _ => fates.Clear (stillToDo reviewId w) ∧
        outcome = runOutcome fates reviewId settings pr w)
      (fun _ _ => ¬ fates.Clear (stillToDo reviewId w)) := by
  unfold run
  apply Triple.call_then fun hne _ _ h => hne h.retrieve
  intro hretrieve
  apply Triple.call_then fun hne _ _ h => hne h.completedAgents
  intro hcompleted
  refine Triple.bind ((askPanel_exact fates (stillToDo reviewId w) w).imp (fun _ h => h)
    (fun _ _ h => h) fun _ _ hfailed h => hfailed.2 (h.runPanel hfailed.1)) fun reply =>
    Triple.assume fun hasked => ?_
  obtain ⟨hreply, hpanel⟩ := hasked
  subst hreply
  refine Triple.bind ((saveAll_exact fates reviewId (fates.panel (stillToDo reviewId w)).2 w).imp
    (fun _ h => h) (fun _ _ h => h) fun _ _ hunsaved h => ?_) fun _ =>
    Triple.assume fun hsaved => ?_
  · obtain ⟨v, hv, hne⟩ := hunsaved
    exact hne (h.saveVerdict v hv)
  apply Triple.call_then fun hne _ _ h => hne h.loadVerdicts
  intro hload
  apply Triple.call_then fun hne _ _ h => hne h.saveFindings
  intro hfindings
  exact Triple.ret fun _ _ =>
    ⟨⟨hretrieve, hcompleted, hpanel, hsaved, hload, hfindings⟩, rfl⟩

end Exact

structure Attempt where
  settings : Settings
  pr : PullRequestContext
  reviewId : ℕ
  fates : RunFates

section Attempts
variable [Interp]

def Attempt.run (attempt : Attempt) : Exec World ReviewOutcome :=
  PrSentinel.run attempt.settings attempt.fates attempt.pr attempt.reviewId

def Attempt.step (w : World) (attempt : Attempt) : World := (attempt.run w).2

/-- Verdicts in order outlive every later attempt, and no attempt decides for
itself on anything but the four of them. -/
theorem complete_panel (start : World) (before later : List Attempt) (attempt : Attempt) :
    (∀ row ∈ (Runs.run Attempt.step start before).verdicts.rows, row.verdict.ok = true →
      row ∈ (Runs.run Attempt.step start (before ++ later)).verdicts.rows) ∧
    ∀ outcome, (attempt.run (Runs.run Attempt.step start before)).1 = .ok outcome →
      outcome.decision ≠ .escalate →
      CompletePanel attempt.reviewId (attempt.run (Runs.run Attempt.step start before)).2 outcome ∧
      outcome.decision =
        (panelGate attempt.settings outcome.verdicts false (!attempt.pr.isPrivate)).decision := by
  constructor
  · intro row hrow hok
    rw [Runs.run_append]
    exact Runs.run_keeps (I := fun w : World => row ∈ w.verdicts.rows)
      (fun w a => run_keeps_row a.fates a.reviewId a.settings a.pr hok w) hrow later
  · intro outcome houtcome
    have hspec := run_complete attempt.fates attempt.reviewId attempt.settings attempt.pr
      (Runs.run Attempt.step start before) trivial
    cases hrun : attempt.run (Runs.run Attempt.step start before) with
    | mk result w =>
      rw [hrun] at houtcome
      obtain rfl : result = .ok outcome := houtcome
      rw [Attempt.run] at hrun
      rw [hrun] at hspec
      exact hspec

variable [Pydantic]

def localEngine (turns : AgentType → Turn) (pr : PullRequestContext) (todo : List AgentType) :
    PanelReply todo :=
  .verdicts (runPanel turns pr todo) (by rw [runPanel_agents])

end Attempts

def quietTurn : Turn where
  model := "claude-haiku-4-5"
  promptVersion := "v1"
  outcome := .response {
    text := "\x7b\"summary\": \"fine\", \"findings\": []\x7d", model := "claude-haiku-4-5" }
  ids := id

/-- The process dies between two verdicts; the next attempt asks for the others. -/
theorem complete_panel_resumed :
    let _ := asciiInterp
    let _ := strictPydantic
    let engine := localEngine (fun _ => quietTurn) postedPr
    let died : Attempt := ⟨.default, postedPr, 0, {
      reply := engine
      saveVerdict := fun a => if a = .tests then .crashes false else .returns }⟩
    let resumed : Attempt := ⟨.default, postedPr, 0, { reply := engine }⟩
    let w := Runs.run Attempt.step {} [died]
    w.completedAgents 0 = [.security, .correctness] ∧
    (∀ row ∈ w.verdicts.rows, row.verdict.ok = true →
      row ∈ (Runs.run Attempt.step {} ([died] ++ [resumed])).verdicts.rows) ∧
    ∃ outcome, (resumed.run w).1 = .ok outcome ∧ outcome.decision = .suppress ∧
      CompletePanel 0 (resumed.run w).2 outcome := by
  intro _ _ engine died resumed w
  have hstored : w.completedAgents 0 = [.security, .correctness] := by decide +kernel
  have hdecision : (resumed.run w).1.toOption.map ReviewOutcome.decision = some .suppress := by
    decide +kernel
  have hpanel := complete_panel {} [died] [resumed] resumed
  -- only what the general theorem says of the state is used from here on
  have hw : Runs.run Attempt.step {} [died] = w := rfl
  rw [hw] at hpanel
  clear_value w
  obtain ⟨outcome, hsome, hsuppress⟩ := Option.map_eq_some_iff.mp hdecision
  have houtcome : (resumed.run w).1 = .ok outcome := by
    cases hrun : (resumed.run w).1 with
    | error e => rw [hrun] at hsome; cases hsome
    | ok other => rw [hrun] at hsome; exact congrArg Except.ok (Option.some.inj hsome)
  exact ⟨hstored, hpanel.1, outcome, houtcome, hsuppress,
    (hpanel.2 outcome houtcome (by rw [hsuppress]; decide)).1⟩

end PrSentinel
