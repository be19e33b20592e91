import PrSentinel.Resume

/-!
The review, end to end, and any number of executions of it for one delivery. What
GitHub and the queue were told is counted over all of them.
-/

set_option autoImplicit false

namespace PrSentinel
open Python Relational Crash Crash.Exec

/-- One execution of `review_pull_request` and what the outside does to it. -/
structure ReviewAttempt where
  settings : Settings := .default
  post : Bool := true
  bundle : String := "unknown"
  /-- the pull request as GitHub describes it this time -/
  fetched : PullRequestContext
  recordDelivery : Fate := .returns
  upsertRepository : Fate := .returns
  fetch : Fate := .returns
  upsertPullRequest : Fate := .returns
  openReview : Fate := .returns
  loadBudget : Fate := .returns
  run : RunFates
  act : ActFates := {}

def buildContext (job : WebhookJob) (fetched : PullRequestContext) : PullRequestContext :=
  { fetched with
    repoFullName := job.repoFullName
    repoGithubId := job.repoGithubId
    number := job.prNumber
    body := upto 4000 fetched.body
    truncated := false }

namespace ReviewAttempt
variable (attempt : ReviewAttempt) (job : WebhookJob)

def opening : Exec World (PullRequestContext × ℕ) := do
  let _ ← call attempt.recordDelivery (World.recordDelivery job)
  let repoId ← call attempt.upsertRepository
    (World.upsertRepository job.repoFullName job.repoGithubId)
  let pr ← call attempt.fetch fun w => (buildContext job attempt.fetched, w)
  let prId ← call attempt.upsertPullRequest (World.upsertPullRequest repoId pr)
  let (reviewId, _) ← call attempt.openReview
    (World.openReview prId job.deliveryId attempt.bundle)
  guarded (write attempt.loadBudget id) (pure ())
  pure (pr, reviewId)

def review [Interp] : Exec World ReviewOutcome := do
  let (pr, reviewId) ← attempt.opening job
  let outcome ← PrSentinel.run attempt.settings attempt.run pr reviewId
  PrSentinel.act attempt.act pr reviewId attempt.bundle attempt.post outcome

def step [Interp] (w : World) (attempt : ReviewAttempt) : World := (attempt.review job w).2

/-- Every call on the way to the review's row returns; the budget's read may raise. -/
structure Opens : Prop where
  recordDelivery : attempt.recordDelivery = .returns
  upsertRepository : attempt.upsertRepository = .returns
  fetch : attempt.fetch = .returns
  upsertPullRequest : attempt.upsertPullRequest = .returns
  openReview : attempt.openReview = .returns
  loadBudget : ∀ applied, attempt.loadBudget ≠ .crashes applied

instance : Decidable attempt.Opens :=
  decidable_of_iff
    (attempt.recordDelivery = .returns ∧ attempt.upsertRepository = .returns ∧
      attempt.fetch = .returns ∧ attempt.upsertPullRequest = .returns ∧
      attempt.openReview = .returns ∧ ∀ applied, attempt.loadBudget ≠ .crashes applied)
    ⟨fun ⟨h₁, h₂, h₃, h₄, h₅, h₆⟩ => ⟨h₁, h₂, h₃, h₄, h₅, h₆⟩,
      fun ⟨h₁, h₂, h₃, h₄, h₅, h₆⟩ => ⟨h₁, h₂, h₃, h₄, h₅, h₆⟩⟩

def opened (w : World) : ℕ × World :=
  let (_, w) := w.recordDelivery job
  let (repoId, w) := w.upsertRepository job.repoFullName job.repoGithubId
  let (prId, w) := w.upsertPullRequest repoId (buildContext job attempt.fetched)
  let ((reviewId, _), w) := w.openReview prId job.deliveryId attempt.bundle
  (reviewId, w)

theorem opening_exact (w : World) :
    Triple (fun t => t = w) (attempt.opening job)
      (fun result t => t = (attempt.opened job w).2 ∧ attempt.Opens ∧
        result = (buildContext job attempt.fetched, (attempt.opened job w).1))
      (fun _ _ => ¬ attempt.Opens) := by
  unfold opening
  apply Triple.call_then fun hne _ _ h => hne h.recordDelivery
  intro hrecord
  apply Triple.call_then fun hne _ _ h => hne h.upsertRepository
  intro hrepository
  apply Triple.call_then fun hne _ _ h => hne h.fetch
  intro hfetch
  apply Triple.call_then fun hne _ _ h => hne h.upsertPullRequest
  intro hpullRequest
  apply Triple.call_then fun hne _ _ h => hne h.openReview
  intro hopen
  refine Triple.bind (R := fun _ t => t = (attempt.opened job w).2 ∧
    ∀ applied, attempt.loadBudget ≠ .crashes applied) ?_ fun _ => Triple.assume fun hbudget => ?_
  · intro t ht
    rw [guarded, write_eq]
    cases hfate : attempt.loadBudget with
    | returns => exact ⟨ht, by simp⟩
    | raises applied => cases applied <;> exact ⟨ht, by simp⟩
    | crashes applied => exact fun h => h.loadBudget applied hfate
  · exact Triple.ret fun t ht =>
      ⟨ht, ⟨hrecord, hrepository, hfetch, hpullRequest, hopen, hbudget⟩, rfl⟩

theorem opening_silent (w : World) : Keeps (World.Silent w) (attempt.opening job) := by
  unfold opening
  refine Keeps.bind (Keeps.call fun _ h => h.recordDelivery job) fun _ => ?_
  refine Keeps.bind (Keeps.call fun _ h => h.upsertRepository _ _) fun repoId => ?_
  refine Keeps.bind (Keeps.call fun _ h => h) fun pr => ?_
  refine Keeps.bind (Keeps.call fun _ h => h.upsertPullRequest _ _) fun prId => ?_
  refine Keeps.bind (Keeps.call fun _ h => h.openReview _ _ _) fun opened => ?_
  exact Keeps.bind (Keeps.guarded (Keeps.call fun _ h => h) (Keeps.ret _)) fun _ => Keeps.ret _

theorem deliveryOf_opened (w : World) :
    (attempt.opened job w).2.deliveryOf (attempt.opened job w).1 = some job.deliveryId :=
  World.deliveryOf_openReview ..

def Reaches (w : World) : Prop :=
  attempt.Opens ∧
    attempt.run.Clear (stillToDo (attempt.opened job w).1 (attempt.opened job w).2)

instance (w : World) : Decidable (attempt.Reaches job w) :=
  inferInstanceAs (Decidable (_ ∧ _))

section Told
variable [Interp]

/-- What the panel and the gate make of the state it starts from. -/
def outcome (w : World) : ReviewOutcome :=
  runOutcome attempt.run (attempt.opened job w).1 attempt.settings
    (buildContext job attempt.fetched) (attempt.opened job w).2

def posts (w : World) : Bool :=
  attempt.Reaches job w && postsReview attempt.act (attempt.outcome job w) attempt.post

def queues (w : World) : Bool :=
  attempt.Reaches job w && queuesReview attempt.act (attempt.outcome job w) attempt.post

theorem step_tally {w : World} (hw : w.Referential) :
    (step job w attempt).Referential ∧ (step job w attempt).tally job.deliveryId =
      w.tally job.deliveryId + ((attempt.posts job w).toNat + (attempt.queues job w).toNat) := by
  have hstopped (t : World) (ht : World.Silent w t) (hr : ¬ attempt.Reaches job w) :
      t.Referential ∧ t.tally job.deliveryId =
        w.tally job.deliveryId + ((attempt.posts job w).toNat + (attempt.queues job w).toNat) :=
    ⟨ht.referential hw, by simp [ht.tally hw, posts, queues, hr]⟩
  refine (triple_state (m := attempt.review job) (P := fun t => t = w)
    (G := fun t => t.Referential ∧ t.tally job.deliveryId =
      w.tally job.deliveryId + ((attempt.posts job w).toNat + (attempt.queues job w).toNat))).mp
    ?_ w rfl
  unfold review
  refine Triple.bind (((attempt.opening_exact job w).and (attempt.opening_silent job w).triple).imp
    (fun t ht => ⟨ht, ht ▸ World.Silent.refl w⟩) (fun _ _ h => h)
    fun _ t h => hstopped t h.2 fun hr => h.1 hr.1) fun result => ?_
  rintro t ⟨⟨rfl, hopens, rfl⟩, hopened⟩
  have hrun : Keeps (World.Silent (attempt.opened job w).2) (PrSentinel.run attempt.settings
      attempt.run (buildContext job attempt.fetched) (attempt.opened job w).1) :=
    run_keeps _ _ _ _ (fun _ v h => h.saveVerdict _ v) fun _ fs h => h.saveFindings _ fs
  refine Triple.bind (P := fun t => t = (attempt.opened job w).2)
    (((run_exact attempt.run _ attempt.settings _ _).and hrun.triple).imp
      (fun t ht => ⟨ht, ht ▸ World.Silent.refl _⟩) (fun _ _ h => h)
      fun _ t h => hstopped t (hopened.trans h.2) fun hr => h.1 hr.2) (fun outcome => ?_) _ rfl
  refine triple_state.mpr ?_
  rintro t ⟨⟨hclear, rfl⟩, hrun⟩
  have hreaches : attempt.Reaches job w := ⟨hopens, hclear⟩
  have hsilent := hopened.trans hrun
  have hreview : t.deliveryOf (attempt.opened job w).1 = some job.deliveryId := by
    rw [hrun.deliveryOf (by rw [deliveryOf_opened]; rfl), deliveryOf_opened]
  have hadds := act_adds attempt.act (buildContext job attempt.fetched) (attempt.opened job w).1
    attempt.bundle (attempt.outcome job w) attempt.post t
  refine ⟨hadds.referential (hsilent.referential hw) hreview, ?_⟩
  rw [← hsilent.tally hw, posts, queues, decide_eq_true hreaches, Bool.true_and, Bool.true_and]
  exact hadds.tally hreview

/-- The gate on the rows the review has, with the panel's answers in their place. -/
def gated (w : World) : GateResult :=
  let reviewId := (attempt.opened job w).1
  let answers := attempt.run.panel (stillToDo reviewId w)
  panelGate attempt.settings (judged reviewId answers.2 w) answers.1 (!attempt.fetched.isPrivate)

theorem outcome_eq (w : World) :
    attempt.outcome job w = conclude attempt.settings (buildContext job attempt.fetched)
      (attempt.opened job w).1
      (judged (attempt.opened job w).1
        (attempt.run.panel (stillToDo (attempt.opened job w).1 w)).2 w)
      (attempt.run.panel (stillToDo (attempt.opened job w).1 w)).1 :=
  runOutcome_eq ..

theorem outcome_decision (w : World) :
    (attempt.outcome job w).decision = (attempt.gated job w).decision := by
  rw [outcome_eq]
  rfl

theorem outcome_postable (w : World) (h : (attempt.gated job w).decision = .autoPost) :
    (attempt.outcome job w).postable ≠ [] := by
  rw [outcome_eq]
  exact panelGate_postable_ne_nil h

/-- One execution tells of the delivery twice: GitHub has the review, an exception follows, and
the handler's item goes in. -/
structure Doubled (w : World) : Prop where
  reaches : attempt.Reaches job w
  decision : (attempt.gated job w).decision = .autoPost
  post : attempt.post = true
  created : attempt.act.reply.creates = true
  fails : attempt.act.Fails
  queued : attempt.act.enqueueHitl.applied = true

/-- The ways for an execution to end without a word. -/
inductive Mute (w : World) : Prop
  | stopped (h : ¬ attempt.Reaches job w)
  | suppressed (h : (attempt.gated job w).decision = .suppress)
  | dryRun (h : (attempt.gated job w).decision = .autoPost) (hpost : attempt.post = false)
  | undelivered (h : (attempt.gated job w).decision = .autoPost)
      (hreply : attempt.act.reply.creates = false)
      (hqueue : attempt.act.reply = .crashed false ∨ attempt.act.enqueueHitl.applied = false)
  | unqueued (h : (attempt.gated job w).decision = .escalate)
      (hqueue : attempt.act.enqueueHitl.applied = false)

theorem doubled_iff (w : World) :
    attempt.Doubled job w ↔ attempt.posts job w = true ∧ attempt.queues job w = true := by
  simp only [posts, queues, postsReview, queuesReview, Bool.and_eq_true, Bool.or_eq_true,
    decide_eq_true_eq, outcome_decision]
  constructor
  · rintro ⟨hreaches, hdecision, hpost, hcreated, hfails, hqueued⟩
    have hpostable := attempt.outcome_postable job w hdecision
    rw [settling_of_postable _ hpostable, deliveryRaises_iff _ hpostable]
    exact ⟨⟨hreaches, ⟨hdecision, hpost⟩, hcreated⟩, hreaches, .inr ⟨⟨hdecision, hpost⟩, hfails⟩,
      hqueued⟩
  · rintro ⟨⟨hreaches, ⟨hdecision, hpost⟩, hcreated⟩, -, hfails, hqueued⟩
    have hpostable := attempt.outcome_postable job w hdecision
    rw [settling_of_postable _ hpostable] at hcreated
    rcases hfails with hescalate | ⟨-, hfails⟩
    · rw [hdecision] at hescalate
      cases hescalate
    · exact ⟨hreaches, hdecision, hpost, hcreated, (deliveryRaises_iff _ hpostable).mp hfails,
        hqueued⟩

theorem mute_iff (w : World) :
    attempt.Mute job w ↔ attempt.posts job w = false ∧ attempt.queues job w = false := by
  by_cases hreaches : attempt.Reaches job w
  swap
  · exact ⟨fun _ => by simp [posts, queues, hreaches], fun _ => .stopped hreaches⟩
  simp only [posts, queues, postsReview, queuesReview, hreaches, decide_true, Bool.true_and,
    outcome_decision]
  cases hdecision : (attempt.gated job w).decision with
  | autoPost =>
    have hpostable := attempt.outcome_postable job w hdecision
    rw [settling_of_postable _ hpostable]
    cases hpost : attempt.post with
    | false => exact ⟨fun _ => by simp, fun _ => .dryRun hdecision hpost⟩
    | true =>
      have hqueue := deliveryRaises_of_not_created attempt.act hpostable
      constructor
      · rintro (h | h | ⟨-, hdry⟩ | ⟨-, hreply, hsilent⟩ | ⟨h, -⟩)
        · exact absurd hreaches h
        · rw [hdecision] at h
          cases h
        · rw [hpost] at hdry
          cases hdry
        · refine ⟨by simp [hreply], ?_⟩
          rcases hsilent with hdied | hsilent
          · have hnone := (hqueue hreply).not_left.mpr hdied
            simp [hnone]
          · simp [hsilent]
        · rw [hdecision] at h
          cases h
      · rintro ⟨hcreates, hqueues⟩
        have hreply : attempt.act.reply.creates = false := by simpa using hcreates
        refine .undelivered hdecision hreply ?_
        by_contra! h
        simp [(hqueue hreply).mpr h.1, h.2] at hqueues
  | escalate =>
    constructor
    · rintro (h | h | ⟨h, -⟩ | ⟨h, -⟩ | ⟨-, hqueue⟩)
      · exact absurd hreaches h
      · rw [hdecision] at h
        cases h
      · rw [hdecision] at h
        cases h
      · rw [hdecision] at h
        cases h
      · simp [hqueue]
    · exact fun h => .unqueued hdecision (by simpa using h.2)
  | suppress => exact ⟨fun _ => by simp, fun _ => .suppressed hdecision⟩

instance (w : World) : Decidable (attempt.Doubled job w) :=
  decidable_of_iff _ (attempt.doubled_iff job w).symm

instance (w : World) : Decidable (attempt.Mute job w) :=
  decidable_of_iff _ (attempt.mute_iff job w).symm

/-- The condition on an execution: it does not tell twice, and says nothing of a delivery that
GitHub or the queue has heard of. -/
structure Careful (w : World) (attempt : ReviewAttempt) : Prop where
  once : ¬ attempt.Doubled job w
  alone : w.tally job.deliveryId ≠ 0 → attempt.Mute job w

theorem careful_iff {w : World} (hw : w.Referential) (hone : w.tally job.deliveryId ≤ 1) :
    Careful job w attempt ↔ (step job w attempt).tally job.deliveryId ≤ 1 := by
  rw [(attempt.step_tally job hw).2]
  constructor
  · rintro ⟨honce, halone⟩
    rw [doubled_iff] at honce
    rw [mute_iff] at halone
    by_cases hnone : w.tally job.deliveryId = 0
    · cases hposts : attempt.posts job w <;> cases hqueues : attempt.queues job w <;>
        simp_all
    · obtain ⟨hposts, hqueues⟩ := halone hnone
      simpa [hposts, hqueues] using hone
  · intro htold
    constructor
    · rw [doubled_iff]
      rintro ⟨hposts, hqueues⟩
      simp only [hposts, hqueues, Bool.toNat_true] at htold
      omega
    · intro hsome
      rw [mute_iff]
      cases hposts : attempt.posts job w <;> cases hqueues : attempt.queues job w <;>
        simp only [hposts, hqueues, Bool.toNat_true, Bool.toNat_false] at htold <;>
        first | exact ⟨rfl, rfl⟩ | omega

end Told

end ReviewAttempt

section Runs
variable [Interp] (job : WebhookJob)

end Runs

def openedJob : WebhookJob where
  deliveryId := "d-1"
  event := "pull_request"
  action := "opened"
  repoFullName := "acme/app"
  repoGithubId := 1
  prNumber := 7
  headSha := "c0"
  baseSha := "b0"

def pullRequestAt (headSha : String) : PullRequestContext where
  repoFullName := "acme/app"
  repoGithubId := 1
  number := 7
  headSha := headSha
  files := [{
    path := "app.py"
    hunks := [{ oldStart := 1, oldLines := 3, newStart := 1, newLines := 3, addedLines := [1, 2, 3] }] }]

def answerOf : AgentType → AgentVerdict
  | .correctness => {
      agent := .correctness
      findings := [Finding.brief 1 .correctness .logic .major 2 2 9]
      summary := "one defect" }
  | agent => { agent, summary := "fine" }

theorem answerOf_agent (agent : AgentType) : (answerOf agent).agent = agent := by
  cases agent <;> rfl

def reviewAt (headSha : String) (act : ActFates) : ReviewAttempt where
  fetched := pullRequestAt headSha
  run := { reply := fun todo => .verdicts (todo.map answerOf) (by
    rw [List.map_map]
    exact .of_eq (List.map_id'' answerOf_agent todo)) }
  act := act

end PrSentinel
