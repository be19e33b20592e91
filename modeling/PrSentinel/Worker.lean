import PrSentinel.Pipeline

set_option autoImplicit false

namespace PrSentinel
open Python Relational Crash Crash.Exec

def maxTries : ℕ := 3

def ReviewStatus.terminal : ReviewStatus → Bool
  | .pending | .running => false
  | .awaitingHuman | .posted | .suppressed | .failed => true

namespace World

/-- A human will see the review, or there is nothing left to see. -/
def Settled (w : World) (reviewId : ℕ) : Prop :=
  w.HasHitl reviewId ∨ ∃ row, w.reviews.rows[reviewId]? = some row ∧ row.status.terminal = true

/-- Reviews may have been opened since, none was settled. -/
structure Unsettled (w t : World) : Prop where
  hitl : t.hitl = w.hitl
  kept : ∀ (i : ℕ) row, w.reviews.rows[i]? = some row → t.reviews.rows[i]? = some row
  opened : ∀ (i : ℕ) row, t.reviews.rows[i]? = some row →
    w.reviews.rows[i]? = some row ∨ row.status = .running

section Unsettled
variable {w t : World}

theorem Unsettled.refl (w : World) : Unsettled w w := ⟨rfl, fun _ _ h => h, fun _ _ h => .inl h⟩

theorem Unsettled.of_eq (h : Unsettled w t) {u : World} (hhitl : u.hitl = t.hitl)
    (hreviews : u.reviews = t.reviews) : Unsettled w u :=
  ⟨hhitl.trans h.hitl, hreviews ▸ h.kept, hreviews ▸ h.opened⟩

theorem Unsettled.openReview (h : Unsettled w t) (prId : ℕ) (deliveryId bundle : String) :
    Unsettled w (t.openReview prId deliveryId bundle).2 := by
  rcases t.reviews.insertNew_cases { prId, deliveryId, promptBundle := bundle } with
    ⟨-, -, hrows⟩ | ⟨-, -, hsame⟩
  · refine ⟨h.hitl, fun i row hrow => ?_, fun i row hrow => ?_⟩
    · have hlt := (List.getElem?_eq_some_iff.mp (h.kept i row hrow)).1
      simp only [World.openReview, hrows]
      rw [List.getElem?_append_left hlt]
      exact h.kept i row hrow
    · simp only [World.openReview, hrows, List.getElem?_append] at hrow
      split_ifs at hrow
      · exact h.opened i row hrow
      · rw [List.mem_singleton.mp (List.mem_of_getElem? hrow)]
        exact .inr rfl
  · exact h.of_eq rfl hsame

theorem Unsettled.saveFindings (h : Unsettled w t) (i : ℕ) (fs : List Finding) :
    Unsettled w (t.saveFindings i fs) := by
  unfold World.saveFindings
  split_ifs
  · exact h
  · exact h.of_eq rfl rfl

theorem Unsettled.settled_iff (h : Unsettled w t) (reviewId : ℕ) :
    t.Settled reviewId ↔ w.Settled reviewId := by
  unfold Settled HasHitl
  rw [h.hitl]
  refine or_congr_right ⟨?_, ?_⟩
  · rintro ⟨row, hrow, hterminal⟩
    rcases h.opened reviewId row hrow with hrow | hrunning
    · exact ⟨row, hrow, hterminal⟩
    · simp [hrunning, ReviewStatus.terminal] at hterminal
  · rintro ⟨row, hrow, hterminal⟩
    exact ⟨row, h.kept reviewId row hrow, hterminal⟩

end Unsettled

theorem not_settled_of_new {w : World} (hw : w.Referential) {reviewId : ℕ}
    (hnew : w.reviews.rows[reviewId]? = none) : ¬ w.Settled reviewId := by
  rintro (⟨item, hitem, rfl⟩ | ⟨row, hrow, -⟩)
  · have hreview := hw.hitl item hitem
    simp [deliveryOf, Table.keyOf, hnew] at hreview
  · simp [hnew] at hrow

end World

structure ActFates.Writable (fates : ActFates) : Prop where
  enqueueHitl : fates.enqueueHitl = .returns
  finish : fates.finish = .returns

instance (fates : ActFates) : Decidable fates.Writable :=
  decidable_of_iff (fates.enqueueHitl = .returns ∧ fates.finish = .returns)
    ⟨fun ⟨h₁, h₂⟩ => ⟨h₁, h₂⟩, fun ⟨h₁, h₂⟩ => ⟨h₁, h₂⟩⟩

section Act
variable {fates : ActFates} (pr : PullRequestContext) (reviewId : ℕ) (outcome : ReviewOutcome)

theorem write_returns {fate : Fate} (h : fate = .returns) (effect : World → World)
    {E : Abort → World → Prop} :
    Triple (fun _ => True) (write fate effect) (fun _ _ => True) E :=
  Triple.call (fun _ _ _ => trivial) (fun _ _ hne => absurd h hne) fun _ _ hne => absurd h hne

theorem escalate_returns (h : fates.Writable) (reason : EscalationReason)
    {E : Abort → World → Prop} :
    Triple (fun _ => True) (escalate fates pr reviewId outcome reason) (fun _ _ => True) E :=
  Triple.bind (write_returns h.enqueueHitl _) fun _ => write_returns h.finish _

theorem act_not_raised (h : fates.Writable) (bundle : String) (post : Bool) :
    Triple (fun _ => True) (act fates pr reviewId bundle post outcome) (fun _ _ => True)
      (fun e _ => e ≠ .raised) := by
  unfold act
  split
  · split
    · refine Triple.guarded (C := fun _ => True) ?_ ?_
      · intro s _
        split
        · trivial
        · rename_i e t _
          cases e <;> simp
      · exact Triple.bind (escalate_returns pr reviewId outcome h _) fun _ => Triple.ret fun _ h => h
    · exact Triple.bind (write_returns h.finish _) fun _ => Triple.ret fun _ h => h
  · exact Triple.bind (escalate_returns pr reviewId outcome h _) fun _ => Triple.ret fun _ h => h
  · exact Triple.bind (write_returns h.finish _) fun _ => Triple.ret fun _ h => h

end Act

namespace ReviewAttempt
variable (job : WebhookJob)

theorem opening_unsettled (attempt : ReviewAttempt) (w : World) :
    Keeps (World.Unsettled w) (attempt.opening job) := by
  unfold opening
  refine Keeps.bind (Keeps.call fun _ h => h.of_eq rfl rfl) fun _ => ?_
  refine Keeps.bind (Keeps.call fun _ h => h.of_eq rfl rfl) fun repoId => ?_
  refine Keeps.bind (Keeps.call fun _ h => h) fun pr => ?_
  refine Keeps.bind (Keeps.call fun _ h => h.of_eq rfl rfl) fun prId => ?_
  refine Keeps.bind (Keeps.call fun _ h => h.openReview _ _ _) fun opened => ?_
  exact Keeps.bind (Keeps.guarded (Keeps.call fun _ h => h) (Keeps.ret _)) fun _ => Keeps.ret _

variable [Interp]

/-- The try ends in an exception, wherever it comes from, and the database is writable. -/
structure Fails (w : World) (attempt : ReviewAttempt) : Prop where
  writable : attempt.act.Writable
  raised : (attempt.review job w).1 = .error .raised

/-- How an execution ended is a matter of evaluation. -/
instance {α : Type} (result : Except Abort α) (e : Abort) : Decidable (result = .error e) :=
  match result with
  | .ok _ => .isFalse (by intro h; cases h)
  | .error e' => decidable_of_iff (e' = e) ⟨congrArg _, Except.error.inj⟩

theorem Fails.step {job : WebhookJob} {start w : World} {attempt : ReviewAttempt}
    (hfails : Fails job w attempt) (h : World.Unsettled start w) :
    World.Unsettled start (step job w attempt) := by
  have hreview : Triple (World.Unsettled start) (attempt.review job) (fun _ _ => True)
      (fun e t => e = .raised → World.Unsettled start t) := by
    unfold review
    refine Triple.bind ((attempt.opening_unsettled job start).triple.imp (fun _ h => h)
      (fun _ _ h => h) fun _ _ h _ => h) fun opened => ?_
    refine Triple.bind (R := fun _ _ => True) ((run_keeps attempt.run _ attempt.settings _
      (fun _ v h => h.of_eq rfl rfl) fun _ fs h => h.saveFindings _ fs).triple.imp (fun _ h => h)
      (fun _ _ _ => trivial) fun _ _ h _ => h) fun outcome => ?_
    exact (act_not_raised _ _ outcome hfails.writable _ _).imp (fun _ h => h) (fun _ _ h => h)
      fun _ _ hne he => absurd he hne
  have hend := hreview w h
  have hraised := hfails.raised
  unfold ReviewAttempt.step
  cases hrun : attempt.review job w with
  | mk result t =>
    rw [hrun] at hend hraised
    obtain rfl : result = .error .raised := hraised
    exact hend rfl

end ReviewAttempt

section Tries
variable [Interp] (job : WebhookJob)

/-- When every try at a job ends in an exception, a review is settled afterwards exactly
when it was before the first of them; one that they opened is not. -/
theorem failed_tries_settle_iff (start : World) (hstart : start.Referential)
    (tries : List ReviewAttempt)
    (hfail : Runs.Throughout (ReviewAttempt.step job) (ReviewAttempt.Fails job) start tries)
    (reviewId : ℕ) :
    ((Runs.run (ReviewAttempt.step job) start tries).Settled reviewId ↔ start.Settled reviewId) ∧
    (start.reviews.rows[reviewId]? = none →
      ¬ (Runs.run (ReviewAttempt.step job) start tries).Settled reviewId) := by
  have hend := hfail.run_keeps (I := World.Unsettled start) (fun _ _ => ReviewAttempt.Fails.step)
    (World.Unsettled.refl start)
  refine ⟨hend.settled_iff reviewId, fun hnew => ?_⟩
  rw [hend.settled_iff]
  exact World.not_settled_of_new hstart hnew

end Tries

def unretrieved : ReviewAttempt :=
  let opened := reviewAt "c1" {}
  { opened with run := { opened.run with retrieve := .raises false } }

/-- Three tries fail, and the review that the first of them opened is still running. -/
theorem left_running :
    let _ := asciiInterp
    ¬ ∀ tries : List ReviewAttempt, tries.length = maxTries →
      Runs.Throughout (ReviewAttempt.step openedJob) (ReviewAttempt.Fails openedJob) {} tries →
      ∀ (reviewId : ℕ) row,
        (Runs.run (ReviewAttempt.step openedJob) {} tries).reviews.rows[reviewId]? = some row →
        (Runs.run (ReviewAttempt.step openedJob) {} tries).Settled reviewId := by
  intro _ hclaim
  have hstate : (Runs.run (ReviewAttempt.step openedJob) {}
        (List.replicate maxTries unretrieved)).reviews.rows.map ReviewRow.status = [.running] ∧
      (Runs.run (ReviewAttempt.step openedJob) {}
        (List.replicate maxTries unretrieved)).hitl = [] := by decide +kernel
  obtain ⟨hrows, hhitl⟩ := hstate
  obtain ⟨row, hrow, hrunning⟩ := List.map_eq_singleton_iff.mp hrows
  have hfail : Runs.Throughout (ReviewAttempt.step openedJob) (ReviewAttempt.Fails openedJob) {}
      (List.replicate maxTries unretrieved) := by
    exact ⟨⟨by decide, by decide +kernel⟩, ⟨by decide, by decide +kernel⟩,
      ⟨by decide, by decide +kernel⟩, trivial⟩
  have hsettled := hclaim _ (by simp) hfail 0 row (by simp [hrow])
  rcases hsettled with ⟨item, hitem, -⟩ | ⟨other, hother, hterminal⟩
  · simp [hhitl] at hitem
  · obtain rfl : row = other := by simpa [hrow] using hother
    simp [hrunning, ReviewStatus.terminal] at hterminal

/-- A second delivery of a review that was posted fails three times over: it stays posted. -/
theorem stays_settled :
    let _ := asciiInterp
    let posted := Runs.run (ReviewAttempt.step openedJob) {} [reviewAt "c1" {}]
    posted.Settled 0 ∧
    (Runs.run (ReviewAttempt.step openedJob) posted
      (List.replicate maxTries unretrieved)).Settled 0 := by
  intro _ posted
  have hposted : posted.reviews.rows.map ReviewRow.status = [.posted] := by decide +kernel
  have hsettled : posted.Settled 0 := by
    obtain ⟨row, hrow, hstatus⟩ := List.map_eq_singleton_iff.mp hposted
    exact .inr ⟨row, by simp [hrow], by simp [hstatus, ReviewStatus.terminal]⟩
  have hstart : posted.Referential :=
    Runs.run_keeps (fun _ attempt hw => (attempt.step_tally openedJob hw).1) ⟨by simp, by simp⟩ _
  have hfail : Runs.Throughout (ReviewAttempt.step openedJob) (ReviewAttempt.Fails openedJob) posted
      (List.replicate maxTries unretrieved) := by
    exact ⟨⟨by decide, by decide +kernel⟩, ⟨by decide, by decide +kernel⟩,
      ⟨by decide, by decide +kernel⟩, trivial⟩
  exact ⟨hsettled, (failed_tries_settle_iff openedJob posted hstart _ hfail 0).1.mpr hsettled⟩

end PrSentinel
