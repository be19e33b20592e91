import PrSentinel.Gate
import PrSentinel.Storage

/-!
Carrying out the gate's decision: the only place that talks back to GitHub. One
`try` covers the request and the two writes that record it.
-/

set_option autoImplicit false

namespace PrSentinel
open Crash Crash.Exec

structure ReviewOutcome where
  reviewId : ℕ
  decision : Decision
  reason : Option EscalationReason := none
  overallConfidence : ℚ := 0
  findings : List Finding := []
  postable : List Finding := []
  verdicts : List AgentVerdict := []
  summary : String := ""
  totalCostUsd : ℚ := 0

/-- How one POST of a review ends. A status of 400 or more creates nothing; an
exception (a lost connection, a 5xx, an unreadable reply) may come after GitHub
created the review. None of them is retried. -/
inductive PostReply where
  | created (githubReviewId : Option ℤ)
  | rejected (status : ℕ)
  | lost (applied : Bool)
  | crashed (applied : Bool)
  deriving DecidableEq, Repr

def PostReply.creates : PostReply → Bool
  | .created _ => true
  | .rejected _ => false
  | .lost applied | .crashed applied => applied

/-- What the outside does to one execution of `_act`. -/
structure ActFates where
  first : PostReply := .created none
  fallback : PostReply := .created none
  markPosted : Fate := .returns
  finishPosted : Fate := .returns
  enqueueHitl : Fate := .returns
  finish : Fate := .returns

def write (fate : Fate) (effect : World → World) : Exec World Unit :=
  call fate fun w => ((), effect w)

def requestReview (reply : PostReply) (post : Post) : Exec World (Except ℕ (Option ℤ)) :=
  match reply with
  | .created id => call .returns fun w => (.ok id, w.createReview post)
  | .rejected status => pure (.error status)
  | .lost applied => call (.raises applied) fun w => (.ok none, w.createReview post)
  | .crashed applied => call (.crashes applied) fun w => (.ok none, w.createReview post)

section Act
variable (fates : ActFates) (pr : PullRequestContext) (reviewId : ℕ)

/-- `post_review`: rejected inline comments fall back to a summary-only review. -/
def postReview (body : String) (findings : List Finding) : Exec World (Option ℤ) := do
  let post := fun request => Post.mk reviewId pr.repoFullName pr.number request
  match ← requestReview fates.first (post (reviewRequest pr.headSha body findings)) with
  | .ok id => pure id
  | .error status =>
    if status = 422 ∧ findings ≠ [] then
      match ← requestReview fates.fallback (post (fallbackRequest pr.headSha body findings)) with
      | .ok id => pure id
      | .error _ => abort .raised
    else abort .raised

def priorityOf : EscalationReason → ℕ
  | .criticalSecurity => 1
  | .budgetExceeded => 10
  | .agentFailure => 20
  | .lowConfidence => 50
  | .policy => 30

def hitlItem (outcome : ReviewOutcome) (reason : EscalationReason) : HitlItem where
  reviewId := reviewId
  reason := reason
  summary := pr.repoFullName ++ "#" ++ toString pr.number ++ " — " ++ outcome.summary
  priority := priorityOf reason

def escalate (outcome : ReviewOutcome) (reason : EscalationReason) : Exec World Unit := do
  write fates.enqueueHitl fun w => w.enqueueHitl (hitlItem pr reviewId outcome reason)
  write fates.finish fun w => w.finishReview reviewId .awaitingHuman .escalate (some reason)
    outcome.overallConfidence outcome.totalCostUsd none

def marking (fates : ActFates) (outcome : ReviewOutcome) : Fate :=
  if outcome.postable = [] then .returns else fates.markPosted

def deliver (bundle : String) (outcome : ReviewOutcome) : Exec World Unit := do
  let heldBack : ℤ := outcome.findings.length - outcome.postable.length
  let body := renderReviewBody outcome.postable outcome.summary heldBack bundle
  let githubReviewId ← postReview fates pr reviewId body outcome.postable
  write (marking fates outcome) fun w => w.markPosted (outcome.postable.map Finding.id)
  write fates.finishPosted fun w => w.finishReview reviewId .posted .autoPost none
    outcome.overallConfidence outcome.totalCostUsd githubReviewId

/-- `_act`, with the outcome as the caller finds it afterwards. -/
def act (bundle : String) (post : Bool) (outcome : ReviewOutcome) : Exec World ReviewOutcome :=
  match outcome.decision with
  | .autoPost =>
    if post then
      guarded
        (do deliver fates pr reviewId bundle outcome
            pure outcome)
        -- the review is good, only delivery failed: escalating beats losing it
        (do escalate fates pr reviewId outcome .policy
            pure { outcome with decision := .escalate })
    else do
      write fates.finish fun w => w.finishReview reviewId .suppressed .autoPost none
        outcome.overallConfidence outcome.totalCostUsd none
      pure outcome
  | .escalate => do
    escalate fates pr reviewId outcome (outcome.reason.getD .lowConfidence)
    pure outcome
  | .suppress => do
    write fates.finish fun w => w.finishReview reviewId .suppressed .suppress none
      outcome.overallConfidence outcome.totalCostUsd none
    pure outcome

end Act

section Effects
variable (fates : ActFates) (pr : PullRequestContext) (reviewId : ℕ) (bundle : String)
  (outcome : ReviewOutcome)

/-- The reply that settles whether GitHub has a review. -/
def settling : PostReply :=
  if fates.first = .rejected 422 ∧ outcome.postable ≠ [] then fates.fallback else fates.first

def deliveryRaises : Bool :=
  match settling fates outcome with
  | .rejected _ | .lost _ => true
  | .crashed _ => false
  | .created _ =>
    match marking fates outcome, fates.finishPosted with
    | .raises _, _ => true
    | .returns, .raises _ => true
    | _, _ => false

def recordsPosted : Bool :=
  match settling fates outcome, marking fates outcome with
  | .created _, .returns => fates.finishPosted.applied
  | _, _ => false

def postsReview (post : Bool) : Bool :=
  outcome.decision = .autoPost && post && (settling fates outcome).creates

def queuesReview (post : Bool) : Bool :=
  (outcome.decision = .escalate || outcome.decision = .autoPost && post &&
    deliveryRaises fates outcome) && fates.enqueueHitl.applied

/-- The reply to the last request there is: a 422 sends the comments' text in the body. -/
def ActFates.reply : PostReply :=
  if fates.first = .rejected 422 then fates.fallback else fates.first

inductive ActFates.Fails : Prop
  | rejected (status : ℕ) (h : fates.reply = .rejected status)
  | lost (applied : Bool) (h : fates.reply = .lost applied)
  | marking (id : Option ℤ) (h : fates.reply = .created id) (applied : Bool)
      (hmark : fates.markPosted = .raises applied)
  | finishing (id : Option ℤ) (h : fates.reply = .created id) (hmark : fates.markPosted = .returns)
      (applied : Bool) (hfinish : fates.finishPosted = .raises applied)

theorem settling_of_postable {outcome : ReviewOutcome} (h : outcome.postable ≠ []) :
    settling fates outcome = fates.reply := by
  simp only [settling, ActFates.reply, h, ne_eq, not_false_eq_true, and_true]

theorem deliveryRaises_iff {outcome : ReviewOutcome} (h : outcome.postable ≠ []) :
    deliveryRaises fates outcome = true ↔ fates.Fails := by
  rw [deliveryRaises, settling_of_postable fates h, marking, if_neg h]
  constructor
  · intro hraises
    cases hreply : fates.reply with
    | rejected status => exact .rejected status hreply
    | lost applied => exact .lost applied hreply
    | crashed applied => simp [hreply] at hraises
    | created id =>
      rw [hreply] at hraises
      cases hmark : fates.markPosted with
      | raises applied => exact .marking id hreply applied hmark
      | crashes applied => simp [hmark] at hraises
      | returns =>
        cases hfinish : fates.finishPosted with
        | raises applied => exact .finishing id hreply hmark applied hfinish
        | returns => simp [hmark, hfinish] at hraises
        | crashes applied => simp [hmark, hfinish] at hraises
  · rintro (⟨status, hreply⟩ | ⟨applied, hreply⟩ | ⟨id, hreply, applied, hmark⟩ |
      ⟨id, hreply, hmark, applied, hfinish⟩)
    · rw [hreply]
    · rw [hreply]
    · rw [hreply, hmark]
    · rw [hreply, hmark, hfinish]

theorem deliveryRaises_of_not_created {outcome : ReviewOutcome} (h : outcome.postable ≠ [])
    (hreply : fates.reply.creates = false) :
    deliveryRaises fates outcome = true ↔ fates.reply ≠ .crashed false := by
  rw [deliveryRaises, settling_of_postable fates h]
  cases hcases : fates.reply with
  | created id => simp [hcases, PostReply.creates] at hreply
  | rejected status => simp
  | lost applied => simp
  | crashed applied =>
    rw [hcases] at hreply
    cases hreply
    simp

theorem write_eq (fate : Fate) (effect : World → World) (w : World) :
    write fate effect w =
      (match fate with
        | .returns => .ok ()
        | .raises _ => .error .raised
        | .crashes _ => .error .crashed,
      if fate.applied then effect w else w) := by
  cases fate <;> rfl

theorem postReview_eq (body : String) (w : World) :
    ∃ post, post.reviewId = reviewId ∧
      postReview fates pr reviewId body outcome.postable w =
        match settling fates outcome with
        | .created id => (.ok id, w.createReview post)
        | .rejected _ => (.error .raised, w)
        | .lost applied => (.error .raised, if applied then w.createReview post else w)
        | .crashed applied => (.error .crashed, if applied then w.createReview post else w) := by
  have hrequest : ∀ (reply : PostReply) (post : Post), requestReview reply post w =
      match reply with
      | .created id => (.ok (.ok id), w.createReview post)
      | .rejected status => (.ok (.error status), w)
      | .lost applied => (.error .raised, if applied then w.createReview post else w)
      | .crashed applied => (.error .crashed, if applied then w.createReview post else w) := by
    intro reply post
    cases reply <;> rfl
  by_cases hfallback : fates.first = .rejected 422 ∧ outcome.postable ≠ []
  · refine ⟨⟨reviewId, pr.repoFullName, pr.number,
      fallbackRequest pr.headSha body outcome.postable⟩, rfl, ?_⟩
    have hsettling : settling fates outcome = fates.fallback := if_pos hfallback
    simp only [hsettling, postReview, bind_apply, hrequest, hfallback.1, true_and,
      if_pos hfallback.2]
    cases fates.fallback <;> rfl
  · refine ⟨⟨reviewId, pr.repoFullName, pr.number,
      reviewRequest pr.headSha body outcome.postable⟩, rfl, ?_⟩
    have hsettling : settling fates outcome = fates.first := if_neg hfallback
    simp only [hsettling, postReview, bind_apply, hrequest]
    cases hfirst : fates.first with
    | rejected status =>
      have hno : ¬ (status = 422 ∧ outcome.postable ≠ []) := fun h =>
        hfallback ⟨by rw [hfirst, h.1], h.2⟩
      simp only [if_neg hno]
      rfl
    | _ => rfl

theorem write_adds (fate : Fate) {effect : World → World} {w : World} (queued : Bool)
    (h : World.Adds reviewId 0 queued.toNat w (effect w)) :
    World.Adds reviewId 0 (queued && fate.applied).toNat w (write fate effect w).2 := by
  rw [write_eq]
  cases fate.applied with
  | true => simpa using h
  | false => simpa using World.Adds.refl w reviewId

theorem escalate_adds (reason : EscalationReason) (w : World) :
    World.Adds reviewId 0 fates.enqueueHitl.applied.toNat w
      (escalate fates pr reviewId outcome reason w).2 := by
  have hqueued := World.adds_enqueueHitl w (rfl : (hitlItem pr reviewId outcome reason).reviewId = _)
  rw [escalate, bind_apply, write_eq]
  cases fates.enqueueHitl with
  | returns =>
    exact hqueued.trans (write_adds reviewId _ false (World.adds_finishReview ..))
  | raises applied | crashes applied =>
    cases applied with
    | true => exact hqueued
    | false => exact World.Adds.refl w reviewId

theorem deliver_adds (w : World) :
    World.Adds reviewId (settling fates outcome).creates.toNat 0 w
      (deliver fates pr reviewId bundle outcome w).2 := by
  obtain ⟨post, hpost, heq⟩ := postReview_eq fates pr reviewId outcome
    (renderReviewBody outcome.postable outcome.summary
      (outcome.findings.length - outcome.postable.length) bundle) w
  have hcreated := World.adds_createReview w hpost
  rw [deliver, bind_apply, heq]
  cases settling fates outcome with
  | created id =>
    have hrecord : Keeps (World.Adds reviewId 1 0 w) (do
        write (marking fates outcome) fun w => w.markPosted (outcome.postable.map Finding.id)
        write fates.finishPosted fun w => w.finishReview reviewId .posted .autoPost none
          outcome.overallConfidence outcome.totalCostUsd id) :=
      Keeps.bind (Keeps.call fun t ht => ht.trans (World.adds_markPosted ..)) fun _ =>
        Keeps.call fun t ht => ht.trans (World.adds_finishReview ..)
    exact hrecord _ hcreated
  | rejected status => exact World.Adds.refl w reviewId
  | lost applied | crashed applied =>
    cases applied with
    | true => exact hcreated
    | false => exact World.Adds.refl w reviewId

theorem deliver_raises (w : World) :
    (deliver fates pr reviewId bundle outcome w).1 = .error .raised ↔
      deliveryRaises fates outcome = true := by
  obtain ⟨post, -, heq⟩ := postReview_eq fates pr reviewId outcome
    (renderReviewBody outcome.postable outcome.summary
      (outcome.findings.length - outcome.postable.length) bundle) w
  rw [deliver, bind_apply, heq, deliveryRaises]
  cases settling fates outcome with
  | created id =>
    simp only [bind_apply, write_eq]
    cases marking fates outcome with
    | returns => cases fates.finishPosted <;> simp
    | raises applied | crashes applied => simp
  | rejected status => simp
  | lost applied | crashed applied => simp

theorem deliver_escalated (w : World) :
    (deliver fates pr reviewId bundle outcome w).2.Escalated reviewId ↔
      w.Escalated reviewId ∧ recordsPosted fates outcome = false := by
  obtain ⟨post, -, heq⟩ := postReview_eq fates pr reviewId outcome
    (renderReviewBody outcome.postable outcome.summary
      (outcome.findings.length - outcome.postable.length) bundle) w
  rw [deliver, bind_apply, heq, recordsPosted]
  cases settling fates outcome with
  | created id =>
    have hfinished : ¬ (((w.createReview post).markPosted
        (outcome.postable.map Finding.id)).finishReview reviewId .posted .autoPost none
          outcome.overallConfidence outcome.totalCostUsd id).Escalated reviewId :=
      World.escalated_finishReview _ _ _ _ _ _ _ _ (by decide) (by decide)
    simp only [bind_apply, write_eq]
    cases marking fates outcome with
    | returns => cases fates.finishPosted.applied <;> simp [hfinished]
    | raises applied | crashes applied => cases applied <;> simp
  | rejected status => simp
  | lost applied | crashed applied => cases applied <;> simp

theorem escalate_handed (reason : EscalationReason) (w : World) :
    (escalate fates pr reviewId outcome reason w).2.Handed reviewId ↔
      w.Handed reviewId ∨ fates.enqueueHitl.applied = true := by
  have hqueued := World.hasHitl_enqueueHitl w reviewId (hitlItem pr reviewId outcome reason) rfl
  rw [escalate, bind_apply, write_eq]
  cases fates.enqueueHitl with
  | returns =>
    simp only [Fate.applied_returns, if_true, write_eq, or_true, iff_true]
    cases fates.finish.applied with
    | true => exact .inl hqueued
    | false => exact .inl hqueued
  | raises applied | crashes applied => cases applied <;> simp [World.Handed, hqueued]

theorem act_autoPost_state (w : World) (hdecision : outcome.decision = .autoPost) :
    (act fates pr reviewId bundle true outcome w).2 =
      if deliveryRaises fates outcome = true then
        (escalate fates pr reviewId outcome .policy
          (deliver fates pr reviewId bundle outcome w).2).2
      else (deliver fates pr reviewId bundle outcome w).2 := by
  simp only [act, hdecision, if_true, guarded, bind_apply,
    ← deliver_raises fates pr reviewId bundle outcome w]
  cases deliver fates pr reviewId bundle outcome w with
  | mk result t =>
    cases result with
    | ok _ => rfl
    | error e =>
      cases e with
      | raised => exact bind_pure_state _ _ t
      | crashed => rfl

theorem act_adds (post : Bool) (w : World) :
    World.Adds reviewId (postsReview fates outcome post).toNat
      (queuesReview fates outcome post).toNat w
      (act fates pr reviewId bundle post outcome w).2 := by
  have hquiet (status : ReviewStatus) (decision : Decision) : World.Adds reviewId 0 0 w
      (write fates.finish (fun w => w.finishReview reviewId status decision none
        outcome.overallConfidence outcome.totalCostUsd none) w).2 :=
    write_adds reviewId _ false (World.adds_finishReview ..)
  cases hdecision : outcome.decision with
  | autoPost =>
    cases post with
    | true =>
      have hdelivered := deliver_adds fates pr reviewId bundle outcome w
      rw [act_autoPost_state fates pr reviewId bundle outcome w hdecision]
      split_ifs with hraises
      · simpa [postsReview, queuesReview, hdecision, hraises] using
          hdelivered.trans (escalate_adds fates pr reviewId outcome .policy _)
      · simpa [postsReview, queuesReview, hdecision, hraises] using hdelivered
    | false =>
      simp only [act, hdecision, Bool.false_eq_true, if_false, bind_pure_state]
      simpa [postsReview, queuesReview, hdecision] using hquiet .suppressed .autoPost
  | escalate =>
    simp only [act, hdecision, bind_pure_state]
    simpa [postsReview, queuesReview, hdecision] using
      escalate_adds fates pr reviewId outcome (outcome.reason.getD .lowConfidence) w
  | suppress =>
    simp only [act, hdecision, bind_pure_state]
    simpa [postsReview, queuesReview, hdecision] using hquiet .suppressed .suppress

theorem act_handed (w : World) (hdecision : outcome.decision = .autoPost) :
    (act fates pr reviewId bundle true outcome w).2.Handed reviewId ↔
      (deliver fates pr reviewId bundle outcome w).2.Handed reviewId ∨
        (deliveryRaises fates outcome = true ∧ fates.enqueueHitl.applied = true) := by
  rw [act_autoPost_state fates pr reviewId bundle outcome w hdecision]
  split_ifs with hraises
  · rw [escalate_handed]
    simp [hraises]
  · simp [hraises]

theorem deliver_handed (w : World) :
    (deliver fates pr reviewId bundle outcome w).2.Handed reviewId ↔
      w.HasHitl reviewId ∨ (w.Escalated reviewId ∧ recordsPosted fates outcome = false) := by
  rw [World.Handed, deliver_escalated, (deliver_adds fates pr reviewId bundle outcome w).hasHitl]
  simp

/-- The posted review is a human's too if one has it already, if its row says so
and is not told better, or if the delivery fails after GitHub accepted it and the
handler gets as far as the queue. -/
theorem act_exclusive_iff (post : Bool) (w : World) :
    ((act fates pr reviewId bundle post outcome w).2.Handed reviewId →
      (act fates pr reviewId bundle post outcome w).2.posts = w.posts) ↔
    ¬ (outcome.decision = .autoPost ∧ post = true ∧ (settling fates outcome).creates = true ∧
      (w.HasHitl reviewId ∨
        (w.Escalated reviewId ∧ recordsPosted fates outcome = false) ∨
        (deliveryRaises fates outcome = true ∧ fates.enqueueHitl.applied = true))) := by
  have hposts := (act_adds fates pr reviewId bundle outcome post w).posts_eq
  cases hposted : postsReview fates outcome post with
  | false =>
    have hno : ¬ (outcome.decision = .autoPost ∧ post = true ∧
        (settling fates outcome).creates = true) := by
      simpa [postsReview, and_assoc] using hposted
    rw [hposts, hposted]
    exact ⟨fun _ h => hno ⟨h.1, h.2.1, h.2.2.1⟩, fun _ _ => rfl⟩
  | true =>
    obtain ⟨hdecision, rfl, hcreates⟩ : outcome.decision = .autoPost ∧ post = true ∧
        (settling fates outcome).creates = true := by
      simpa [postsReview, and_assoc] using hposted
    rw [hposts, hposted, act_handed fates pr reviewId bundle outcome w hdecision, deliver_handed,
      or_assoc]
    simp [hdecision, hcreates]

end Effects

def confidentReview : ReviewOutcome where
  reviewId := 0
  decision := .autoPost
  overallConfidence := 9 / 10
  findings := [Finding.brief 1 .correctness .logic .major 4 6 9]
  postable := [Finding.brief 1 .correctness .logic .major 4 6 9]
  summary := "1 finding"

def postedPr : PullRequestContext where
  repoFullName := "acme/app"
  repoGithubId := 1
  number := 7

/-- GitHub has created the review when the database goes away for one call. -/
theorem posted_and_handed :
    let w := (World.openReview 0 "d-1" "v1" {}).2
    let after := (act { finishPosted := .raises false } postedPr 0 "v1" true confidentReview w).2
    (w.posts = [] ∧ after.posts.map Post.reviewId = [0]) ∧
    after.hitl.map HitlItem.reviewId = [0] ∧
    after.reviews.rows.map ReviewRow.status = [.awaitingHuman] ∧
    ¬ (after.Handed 0 → after.posts = w.posts) := by
  intro w after
  have hposts : w.posts = [] ∧ after.posts.map Post.reviewId = [0] := by decide +kernel
  have hhitl : after.hitl.map HitlItem.reviewId = [0] := by decide +kernel
  have hhanded : after.HasHitl 0 := List.mem_map.mp (hhitl ▸ List.mem_singleton_self 0)
  refine ⟨hposts, hhitl, by decide +kernel, fun h => ?_⟩
  have hsame := h (.inl hhanded)
  rw [hsame, hposts.1] at hposts
  exact absurd hposts.2 (by decide)

end PrSentinel
