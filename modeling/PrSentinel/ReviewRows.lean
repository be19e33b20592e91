import PrSentinel.Pipeline

/-!
The review rows of one delivery. A row belongs to a pull request at a head commit,
and the head is fetched anew by every execution.
-/

set_option autoImplicit false

namespace PrSentinel
open Python Relational Crash Crash.Exec

def World.headOf (w : World) (reviewId : ℕ) : Option String := do
  let review ← w.reviews.keyOf reviewId
  let pullRequest ← w.pullRequests.keyOf review.1
  pure pullRequest.2.2

section Rows
variable (job : WebhookJob) (heads : List String)

/-- The delivery's rows are of the job's pull request, at heads that were fetched. -/
def RowsAt (w : World) : Prop :=
  ∀ i prId, w.reviews.keyOf i = some (prId, job.deliveryId) →
    ∃ head ∈ heads, ∃ repoId, w.repositories.keyOf repoId = some job.repoGithubId ∧
      w.pullRequests.keyOf prId = some (repoId, job.prNumber, head)

variable {job heads}

theorem RowsAt.mono {heads' : List String} {w : World} (h : RowsAt job heads w)
    (hsub : heads ⊆ heads') : RowsAt job heads' w := by
  intro i prId hkey
  obtain ⟨head, hhead, hrow⟩ := h i prId hkey
  exact ⟨head, hsub hhead, hrow⟩

theorem RowsAt.extend {w t : World} (h : RowsAt job heads w)
    (hreviews : ∀ i, t.reviews.keyOf i = w.reviews.keyOf i)
    (hrepositories : w.repositories.Extends t.repositories)
    (hpullRequests : w.pullRequests.Extends t.pullRequests) : RowsAt job heads t := by
  intro i prId hkey
  rw [hreviews] at hkey
  obtain ⟨head, hhead, repoId, hrepo, hpr⟩ := h i prId hkey
  exact ⟨head, hhead, repoId, hrepositories _ _ hrepo, hpullRequests _ _ hpr⟩

theorem RowsAt.upsertRepository {w : World} (h : RowsAt job heads w) (fullName : String)
    (githubId : ℤ) : RowsAt job heads (w.upsertRepository fullName githubId).2 :=
  h.extend (fun _ => rfl) (Table.upsert_extends _ _ _ _) (Table.Extends.refl _)

theorem RowsAt.upsertPullRequest {w : World} (h : RowsAt job heads w) (repoId : ℕ)
    (pr : PullRequestContext) : RowsAt job heads (w.upsertPullRequest repoId pr).2 :=
  h.extend (fun _ => rfl) (Table.Extends.refl _) (Table.upsert_extends _ _ _ _)

theorem RowsAt.saveFindings {w : World} (h : RowsAt job heads w) (reviewId : ℕ)
    (findings : List Finding) : RowsAt job heads (w.saveFindings reviewId findings) := by
  unfold World.saveFindings
  split_ifs
  · exact h
  · exact h

theorem RowsAt.openReview {w : World} {prId repoId : ℕ} {head bundle : String}
    (h : RowsAt job heads w) (hhead : head ∈ heads)
    (hrepo : w.repositories.keyOf repoId = some job.repoGithubId)
    (hpr : w.pullRequests.keyOf prId = some (repoId, job.prNumber, head)) :
    RowsAt job heads (w.openReview prId job.deliveryId bundle).2 := by
  intro i other hkey
  rcases Table.keyOf_insertNew hkey with hkey | heq
  · exact h i other hkey
  · obtain ⟨rfl, -⟩ := Prod.mk.inj heq
    exact ⟨head, hhead, repoId, hrepo, hpr⟩

theorem RowsAt.row {w : World} (h : RowsAt job heads w) {i : ℕ}
    (hi : w.deliveryOf i = some job.deliveryId) :
    ∃ head ∈ heads, w.headOf i = some head ∧ ∃ prId repoId,
      w.reviews.keyOf i = some (prId, job.deliveryId) ∧
      w.repositories.keyOf repoId = some job.repoGithubId ∧
      w.pullRequests.keyOf prId = some (repoId, job.prNumber, head) := by
  obtain ⟨⟨prId, deliveryId⟩, hkey, rfl⟩ := Option.map_eq_some_iff.mp hi
  obtain ⟨head, hhead, repoId, hrepo, hpr⟩ := h i prId hkey
  exact ⟨head, hhead, by simp [World.headOf, hkey, hpr], prId, repoId, hkey, hrepo, hpr⟩

theorem RowsAt.head_injective {w : World} (h : RowsAt job heads w) {i j : ℕ}
    (hi : w.deliveryOf i = some job.deliveryId) (hj : w.deliveryOf j = some job.deliveryId)
    (hheads : w.headOf i = w.headOf j) : i = j := by
  obtain ⟨head, _, hhead, prId, repoId, hkey, hrepo, hpr⟩ := h.row hi
  obtain ⟨head', _, hhead', prId', repoId', hkey', hrepo', hpr'⟩ := h.row hj
  obtain rfl : repoId = repoId' := Table.keyOf_inj hrepo hrepo'
  obtain rfl : head = head' := Option.some.inj (by rw [← hhead, ← hhead', hheads])
  obtain rfl : prId = prId' := Table.keyOf_inj hpr hpr'
  exact Table.keyOf_inj hkey hkey'

end Rows

section Executions
variable (job : WebhookJob) (attempt : ReviewAttempt) {heads : List String}

theorem opening_rowsAt :
    Keeps (RowsAt job (attempt.fetched.headSha :: heads)) (attempt.opening job) := by
  refine keeps_iff.mpr ?_
  unfold ReviewAttempt.opening
  refine Triple.bind (Keeps.call fun w hw => hw).triple fun _ => ?_
  refine Triple.bind (R := fun repoId w => RowsAt job (attempt.fetched.headSha :: heads) w ∧
      w.repositories.keyOf repoId = some job.repoGithubId)
    (Triple.call (fun w hw _ => ⟨hw.upsertRepository _ _, ?_⟩)
      (fun w hw _ _ => hw.upsertRepository _ _) fun w hw _ _ => hw) fun repoId => ?_
  · exact Table.keyOf_idOf (Table.upsert_hasKey _ _ _ _)
  refine Triple.bind (R := fun pr w => (RowsAt job (attempt.fetched.headSha :: heads) w ∧
      w.repositories.keyOf repoId = some job.repoGithubId) ∧ pr = buildContext job attempt.fetched)
    (Triple.call (fun w hw _ => ⟨hw, rfl⟩) (fun w hw _ _ => hw.1) fun w hw _ _ => hw.1)
    fun pr => Triple.assume fun hpr => ?_
  subst hpr
  refine Triple.bind (R := fun prId w => RowsAt job (attempt.fetched.headSha :: heads) w ∧
      w.repositories.keyOf repoId = some job.repoGithubId ∧
      w.pullRequests.keyOf prId = some (repoId, job.prNumber, attempt.fetched.headSha))
    (Triple.call (fun w hw _ => ⟨hw.1.upsertPullRequest _ _, hw.2, ?_⟩)
      (fun w hw _ _ => hw.1.upsertPullRequest _ _) fun w hw _ _ => hw.1) fun prId => ?_
  · exact Table.keyOf_idOf (Table.upsert_hasKey _ _ _ _)
  refine Triple.bind (R := fun _ w => RowsAt job (attempt.fetched.headSha :: heads) w)
    (Triple.call (fun w hw _ => hw.1.openReview List.mem_cons_self hw.2.1 hw.2.2)
      (fun w hw _ _ => hw.1.openReview List.mem_cons_self hw.2.1 hw.2.2)
      fun w hw _ _ => hw.1) fun row => ?_
  exact (Keeps.bind (Keeps.guarded (Keeps.call fun _ h => h) (Keeps.ret _)) fun _ =>
    Keeps.ret _).triple

variable [Interp]

theorem step_rowsAt {w : World} (hw : RowsAt job heads w) :
    RowsAt job (attempt.fetched.headSha :: heads) (attempt.step job w) := by
  have hreview : Keeps (RowsAt job (attempt.fetched.headSha :: heads)) (attempt.review job) := by
    unfold ReviewAttempt.review
    refine Keeps.bind (opening_rowsAt job attempt) fun opened => ?_
    refine Keeps.bind (run_keeps _ _ _ _ (fun w v h => h) fun w fs h => h.saveFindings _ fs)
      fun outcome w h => ?_
    have hadds := act_adds attempt.act opened.1 opened.2 attempt.bundle outcome attempt.post w
    exact h.extend hadds.keys (hadds.repositories ▸ Table.Extends.refl _)
      (hadds.pullRequests ▸ Table.Extends.refl _)
  exact hreview w (hw.mono (List.subset_cons_self _ _))

theorem run_rowsAt {w : World} (hw : RowsAt job heads w) {attempts : List ReviewAttempt}
    (hheads : ∀ a ∈ attempts, a.fetched.headSha ∈ heads) :
    RowsAt job heads (Runs.run (ReviewAttempt.step job) w attempts) := by
  induction attempts generalizing w with
  | nil => exact hw
  | cons a attempts ih =>
    have hfirst : a.fetched.headSha :: heads ⊆ heads :=
      List.cons_subset.mpr ⟨hheads a List.mem_cons_self, List.Subset.refl _⟩
    exact ih ((step_rowsAt job a hw).mono hfirst) fun b hb => hheads b (List.mem_cons_of_mem a hb)

/-- However the head moves between the executions, a delivery has at most one
review row for each head, and only for heads that were fetched. -/
theorem one_row_per_head (start : World)
    (hnew : ∀ i, start.deliveryOf i ≠ some job.deliveryId) (attempts : List ReviewAttempt) :
    (∀ i, (Runs.run (ReviewAttempt.step job) start attempts).deliveryOf i = some job.deliveryId →
      ∃ a ∈ attempts, (Runs.run (ReviewAttempt.step job) start attempts).headOf i =
        some a.fetched.headSha) ∧
    ∀ i j, (Runs.run (ReviewAttempt.step job) start attempts).deliveryOf i = some job.deliveryId →
      (Runs.run (ReviewAttempt.step job) start attempts).deliveryOf j = some job.deliveryId →
      (Runs.run (ReviewAttempt.step job) start attempts).headOf i =
        (Runs.run (ReviewAttempt.step job) start attempts).headOf j → i = j := by
  have hstart : RowsAt job (attempts.map fun a => a.fetched.headSha) start := fun i prId hkey =>
    absurd (by rw [World.deliveryOf, hkey]; rfl) (hnew i)
  have hrows := run_rowsAt job hstart fun a ha => List.mem_map_of_mem ha
  refine ⟨fun i hi => ?_, fun i j hi hj hheads => hrows.head_injective hi hj hheads⟩
  obtain ⟨head, hhead, heq, _⟩ := hrows.row hi
  obtain ⟨a, ha, rfl⟩ := List.mem_map.mp hhead
  exact ⟨a, ha, heq⟩

end Executions

/-- The first execution dies with its row open; a push moves the head; the retry
opens another row. -/
theorem two_rows_of_one_delivery :
    let _ := asciiInterp
    let died := { reviewAt "c1" {} with loadBudget := .crashes false }
    let w := Runs.run (ReviewAttempt.step openedJob) {} [died, reviewAt "c2" {}]
    w.deliveryOf 0 = some "d-1" ∧ w.deliveryOf 1 = some "d-1" ∧
      w.headOf 0 = some "c1" ∧ w.headOf 1 = some "c2" := by
  decide +kernel

/-- The same executions, had nobody pushed. -/
theorem one_row_same_head :
    let _ := asciiInterp
    let died := { reviewAt "c1" {} with loadBudget := .crashes false }
    ∀ i j, (Runs.run (ReviewAttempt.step openedJob) {} [died, reviewAt "c1" {}]).deliveryOf i =
        some "d-1" →
      (Runs.run (ReviewAttempt.step openedJob) {} [died, reviewAt "c1" {}]).deliveryOf j =
        some "d-1" → i = j := by
  intro _ died i j hi hj
  obtain ⟨hheads, hinjective⟩ := one_row_per_head openedJob {} (fun i h => by cases h)
    [died, reviewAt "c1" {}]
  have hsame : ∀ a ∈ [died, reviewAt "c1" {}], a.fetched.headSha = "c1" := by
    simp [died, reviewAt, pullRequestAt]
  obtain ⟨a, ha, hi'⟩ := hheads i hi
  obtain ⟨b, hb, hj'⟩ := hheads j hj
  exact hinjective i j hi hj (by rw [hi', hj', hsame a ha, hsame b hb])

end PrSentinel
