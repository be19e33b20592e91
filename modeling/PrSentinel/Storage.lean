import PrSentinel.Crash
import PrSentinel.GitHub
import PrSentinel.Table

/-!
The relational truth of a review, as far as the pipeline reads or writes it, and
the reviews GitHub holds. A row is referred to by its surrogate id.
-/

set_option autoImplicit false

namespace PrSentinel
open Python Relational

structure DeliveryRow where
  deliveryId : String
  event : String
  action : String
  repoFullName : String
  prNumber : ℤ
  status : String
  deriving DecidableEq, Repr

def deliveryRow (job : WebhookJob) : DeliveryRow where
  deliveryId := job.deliveryId
  event := job.event
  action := job.action
  repoFullName := job.repoFullName
  prNumber := job.prNumber
  status := "accepted"

structure RepositoryRow where
  githubRepoId : ℤ
  fullName : String
  defaultBranch : String
  deriving DecidableEq, Repr

structure PullRequestRow where
  repoId : ℕ
  number : ℤ
  headSha : String
  baseSha : String
  title : String
  author : String
  isPrivate : Bool
  deriving DecidableEq, Repr

structure ReviewRow where
  prId : ℕ
  deliveryId : String
  promptBundle : String
  status : ReviewStatus := .running
  decision : Option Decision := none
  reason : Option EscalationReason := none
  overallConfidence : Option ℚ := none
  totalCostUsd : ℚ := 0
  githubReviewId : Option ℤ := none
  deriving DecidableEq, Repr

structure VerdictRow where
  reviewId : ℕ
  verdict : AgentVerdict
  deriving DecidableEq, Repr

structure FindingRow where
  id : UUID
  reviewId : ℕ
  posted : Bool := false
  deriving DecidableEq, Repr

structure HitlItem where
  reviewId : ℕ
  reason : EscalationReason
  summary : String
  priority : ℕ
  deriving DecidableEq, Repr

structure Post where
  reviewId : ℕ
  repo : String
  number : ℤ
  request : ReviewRequest
  deriving DecidableEq, Repr

structure World where
  deliveries : Table DeliveryRow.deliveryId := .empty
  repositories : Table RepositoryRow.githubRepoId := .empty
  pullRequests : Table (fun r : PullRequestRow => (r.repoId, r.number, r.headSha)) := .empty
  reviews : Table (fun r : ReviewRow => (r.prId, r.deliveryId)) := .empty
  verdicts : Table (fun r : VerdictRow => (r.reviewId, r.verdict.agent)) := .empty
  findings : List FindingRow := []
  hitl : List HitlItem := []
  posts : List Post := []

namespace World

def recordDelivery (job : WebhookJob) (w : World) : Bool × World :=
  let (fresh, deliveries) := w.deliveries.insertNew (deliveryRow job)
  (fresh, { w with deliveries })

def upsertRepository (fullName : String) (githubId : ℤ) (w : World) : ℕ × World :=
  let repositories := w.repositories.upsert ⟨githubId, fullName, "main"⟩
    (fun r => { r with fullName }) (fun _ => rfl)
  (repositories.idOf githubId, { w with repositories })

def upsertPullRequest (repoId : ℕ) (pr : PullRequestContext) (w : World) : ℕ × World :=
  let pullRequests := w.pullRequests.upsert
    ⟨repoId, pr.number, pr.headSha, pr.baseSha, pr.title, pr.author, pr.isPrivate⟩
    (fun r => { r with title := pr.title }) (fun _ => rfl)
  (pullRequests.idOf (repoId, pr.number, pr.headSha), { w with pullRequests })

def openReview (prId : ℕ) (deliveryId promptBundle : String) (w : World) : (ℕ × Bool) × World :=
  let (fresh, reviews) := w.reviews.insertNew { prId, deliveryId, promptBundle }
  ((reviews.idOf (prId, deliveryId), fresh), { w with reviews })

/-- `NUMERIC(_, digits)`: half away from zero. -/
def numeric (digits : ℕ) (q : ℚ) : ℚ :=
  let n := ⌊|q| * 10 ^ digits + 1 / 2⌋
  (if q < 0 then -n else n : ℚ) / 10 ^ digits

def completedAgents (reviewId : ℕ) (w : World) : List AgentType :=
  (w.verdicts.rows.filter (fun r => r.reviewId = reviewId && r.verdict.ok)).map
    (fun r => r.verdict.agent)

def loadVerdicts (reviewId : ℕ) (w : World) : List AgentVerdict :=
  ((w.verdicts.rows.filter (fun r => r.reviewId = reviewId)).map VerdictRow.verdict).insertionSort
    (fun v u => v.agent.value ≤ u.agent.value)

/-- `save_verdict`: a later verdict of the same agent replaces the row. -/
def saveVerdict (reviewId : ℕ) (verdict : AgentVerdict) (w : World) : World :=
  let stored := { verdict with costUsd := numeric 6 verdict.costUsd }
  { w with
    verdicts := w.verdicts.upsert ⟨reviewId, stored⟩
      (fun r => { r with verdict := { stored with agent := r.verdict.agent } }) (fun _ => rfl) }

def saveFindings (reviewId : ℕ) (findings : List Finding) (w : World) : World :=
  if findings = [] then w
  else { w with
    findings := w.findings.filter (fun r => r.reviewId ≠ reviewId) ++
      findings.map fun f => ⟨f.id, reviewId, false⟩ }

def markPosted (ids : List UUID) (w : World) : World :=
  { w with findings := w.findings.map fun r => if r.id ∈ ids then { r with posted := true } else r }

def finishReview (reviewId : ℕ) (status : ReviewStatus) (decision : Decision)
    (reason : Option EscalationReason) (confidence costUsd : ℚ) (githubReviewId : Option ℤ)
    (w : World) : World :=
  { w with
    reviews := w.reviews.updateId reviewId (fun r => { r with
      status, decision := some decision, reason
      overallConfidence := some (pyRound 3 confidence)
      totalCostUsd := pyRound 6 costUsd
      githubReviewId }) (fun _ => rfl) }

def enqueueHitl (item : HitlItem) (w : World) : World := { w with hitl := w.hitl ++ [item] }

/-- GitHub creates a review. -/
def createReview (post : Post) (w : World) : World := { w with posts := w.posts ++ [post] }

def HasHitl (w : World) (reviewId : ℕ) : Prop := ∃ item ∈ w.hitl, item.reviewId = reviewId

/-- The review's row says that a human has it. -/
def Escalated (w : World) (reviewId : ℕ) : Prop :=
  ∃ row, w.reviews.rows[reviewId]? = some row ∧
    (row.status = .awaitingHuman ∨ row.decision = some .escalate)

/-- A human has the review, or is about to see it in the queue. -/
def Handed (w : World) (reviewId : ℕ) : Prop := w.HasHitl reviewId ∨ w.Escalated reviewId

section Frame
variable (w : World) (reviewId : ℕ)

@[simp] theorem escalated_createReview (post : Post) :
    (w.createReview post).Escalated reviewId ↔ w.Escalated reviewId := Iff.rfl

@[simp] theorem escalated_markPosted (ids : List UUID) :
    (w.markPosted ids).Escalated reviewId ↔ w.Escalated reviewId := Iff.rfl

@[simp] theorem posts_markPosted (ids : List UUID) : (w.markPosted ids).posts = w.posts := rfl

@[simp] theorem verdicts_saveFindings (findings : List Finding) :
    (w.saveFindings reviewId findings).verdicts = w.verdicts := by
  unfold saveFindings
  split_ifs <;> rfl

@[simp] theorem posts_enqueueHitl (item : HitlItem) : (w.enqueueHitl item).posts = w.posts := rfl

@[simp] theorem escalated_enqueueHitl (item : HitlItem) :
    (w.enqueueHitl item).Escalated reviewId ↔ w.Escalated reviewId := Iff.rfl

theorem hasHitl_enqueueHitl (item : HitlItem) (h : item.reviewId = reviewId) :
    (w.enqueueHitl item).HasHitl reviewId :=
  ⟨item, by simp [enqueueHitl], h⟩

variable (status : ReviewStatus) (decision : Decision) (reason : Option EscalationReason)
  (confidence costUsd : ℚ) (githubReviewId : Option ℤ)

@[simp] theorem posts_finishReview : (w.finishReview reviewId status decision reason confidence
    costUsd githubReviewId).posts = w.posts := rfl

theorem escalated_finishReview (hstatus : status ≠ .awaitingHuman) (hdecision : decision ≠ .escalate) :
    ¬ (w.finishReview reviewId status decision reason confidence costUsd
      githubReviewId).Escalated reviewId := by
  rintro ⟨row, hrow, h⟩
  simp only [finishReview, Relational.Table.updateId, List.getElem?_modify, if_true] at hrow
  obtain ⟨old, _, rfl⟩ := Option.map_eq_some_iff.mp hrow
  rcases h with h | h
  · exact hstatus h
  · exact hdecision (Option.some.inj h)

end Frame

/-- `t` is `w` with that many reviews on GitHub and that many items in the queue
added for one review. Nothing else happened, except to what the rows of reviews and
findings say beside their keys. -/
structure Adds (reviewId posted queued : ℕ) (w t : World) : Prop where
  posts : ∃ new : List Post, t.posts = w.posts ++ new ∧ new.length = posted ∧
    ∀ p ∈ new, p.reviewId = reviewId
  hitl : ∃ new : List HitlItem, t.hitl = w.hitl ++ new ∧ new.length = queued ∧
    ∀ i ∈ new, i.reviewId = reviewId
  keys : ∀ i, t.reviews.keyOf i = w.reviews.keyOf i
  repositories : t.repositories = w.repositories
  pullRequests : t.pullRequests = w.pullRequests

section Adds
variable {w t u : World} {reviewId posted queued posted' queued' : ℕ}

theorem Adds.refl (w : World) (reviewId : ℕ) : Adds reviewId 0 0 w w :=
  ⟨⟨[], by simp⟩, ⟨[], by simp⟩, fun _ => rfl, rfl, rfl⟩

theorem Adds.trans (h : Adds reviewId posted queued w t) (h' : Adds reviewId posted' queued' t u) :
    Adds reviewId (posted + posted') (queued + queued') w u := by
  obtain ⟨⟨ps, hps, hpn, hpr⟩, ⟨hs, hhs, hhn, hhr⟩, hkeys, hrepos, hprs⟩ := h
  obtain ⟨⟨ps', hps', hpn', hpr'⟩, ⟨hs', hhs', hhn', hhr'⟩, hkeys', hrepos', hprs'⟩ := h'
  refine ⟨⟨ps ++ ps', ?_, ?_, ?_⟩, ⟨hs ++ hs', ?_, ?_, ?_⟩,
    fun i => (hkeys' i).trans (hkeys i), hrepos'.trans hrepos, hprs'.trans hprs⟩
  · rw [hps', hps, List.append_assoc]
  · rw [List.length_append, hpn, hpn']
  · exact fun p hp => (List.mem_append.mp hp).elim (hpr p) (hpr' p)
  · rw [hhs', hhs, List.append_assoc]
  · rw [List.length_append, hhn, hhn']
  · exact fun i hi => (List.mem_append.mp hi).elim (hhr i) (hhr' i)

theorem adds_createReview (w : World) {post : Post} (h : post.reviewId = reviewId) :
    Adds reviewId 1 0 w (w.createReview post) :=
  ⟨⟨[post], rfl, rfl, by simpa using h⟩, ⟨[], by simp [createReview]⟩, fun _ => rfl, rfl, rfl⟩

theorem adds_enqueueHitl (w : World) {item : HitlItem} (h : item.reviewId = reviewId) :
    Adds reviewId 0 1 w (w.enqueueHitl item) :=
  ⟨⟨[], by simp⟩, ⟨[item], rfl, rfl, by simpa using h⟩, fun _ => rfl, rfl, rfl⟩

theorem adds_markPosted (w : World) (ids : List UUID) : Adds reviewId 0 0 w (w.markPosted ids) :=
  ⟨⟨[], by simp⟩, ⟨[], by simp [markPosted]⟩, fun _ => rfl, rfl, rfl⟩

theorem adds_finishReview (w : World) (i : ℕ) (status : ReviewStatus) (decision : Decision)
    (reason : Option EscalationReason) (confidence costUsd : ℚ) (githubReviewId : Option ℤ) :
    Adds reviewId 0 0 w
      (w.finishReview i status decision reason confidence costUsd githubReviewId) :=
  ⟨⟨[], by simp⟩, ⟨[], by simp [finishReview]⟩,
    fun j => by simp only [finishReview, Table.keyOf_updateId], rfl, rfl⟩

theorem Adds.posts_eq (h : Adds reviewId posted queued w t) : t.posts = w.posts ↔ posted = 0 := by
  obtain ⟨⟨new, hnew, hlength, -⟩, -, -, -, -⟩ := h
  rw [hnew, List.append_right_eq_self, ← hlength, List.length_eq_zero_iff]

theorem Adds.hasHitl (h : Adds reviewId posted queued w t) :
    t.HasHitl reviewId ↔ w.HasHitl reviewId ∨ queued ≠ 0 := by
  obtain ⟨-, ⟨new, hnew, hlength, hreview⟩, -, -, -⟩ := h
  simp only [HasHitl, hnew, List.mem_append, or_and_right, exists_or]
  refine or_congr_right ⟨?_, fun hn => ?_⟩
  · rintro ⟨item, hitem, -⟩ hn
    rw [List.length_eq_zero_iff.mp (hlength.trans hn)] at hitem
    cases hitem
  · obtain ⟨item, hitem⟩ := List.exists_mem_of_length_pos (by omega : 0 < new.length)
    exact ⟨item, hitem, hreview item hitem⟩

end Adds

def deliveryOf (w : World) (reviewId : ℕ) : Option String :=
  (w.reviews.keyOf reviewId).map Prod.snd

def tally (w : World) (deliveryId : String) : ℕ :=
  w.posts.countP (fun p => w.deliveryOf p.reviewId = some deliveryId) +
    w.hitl.countP (fun i => w.deliveryOf i.reviewId = some deliveryId)

structure Referential (w : World) : Prop where
  posts : ∀ p ∈ w.posts, (w.deliveryOf p.reviewId).isSome
  hitl : ∀ i ∈ w.hitl, (w.deliveryOf i.reviewId).isSome

/-- Nothing was told, and no review changed its key. -/
structure Silent (w t : World) : Prop where
  posts : t.posts = w.posts
  hitl : t.hitl = w.hitl
  reviews : w.reviews.Extends t.reviews

section Tally
variable {w t : World} {reviewId posted queued : ℕ} {deliveryId : String}

theorem Silent.refl (w : World) : Silent w w := ⟨rfl, rfl, Table.Extends.refl _⟩

theorem Silent.trans {u : World} (h : Silent w t) (h' : Silent t u) : Silent w u :=
  ⟨h'.posts.trans h.posts, h'.hitl.trans h.hitl, h.reviews.trans h'.reviews⟩

theorem Silent.recordDelivery (h : Silent w t) (job : WebhookJob) :
    Silent w (t.recordDelivery job).2 := ⟨h.posts, h.hitl, h.reviews⟩

theorem Silent.upsertRepository (h : Silent w t) (fullName : String) (githubId : ℤ) :
    Silent w (t.upsertRepository fullName githubId).2 := ⟨h.posts, h.hitl, h.reviews⟩

theorem Silent.upsertPullRequest (h : Silent w t) (repoId : ℕ) (pr : PullRequestContext) :
    Silent w (t.upsertPullRequest repoId pr).2 := ⟨h.posts, h.hitl, h.reviews⟩

theorem Silent.openReview (h : Silent w t) (prId : ℕ) (deliveryId bundle : String) :
    Silent w (t.openReview prId deliveryId bundle).2 :=
  ⟨h.posts, h.hitl, h.reviews.trans (Table.insertNew_extends _ _)⟩

theorem Silent.saveVerdict (h : Silent w t) (i : ℕ) (v : AgentVerdict) :
    Silent w (t.saveVerdict i v) := ⟨h.posts, h.hitl, h.reviews⟩

theorem Silent.saveFindings (h : Silent w t) (i : ℕ) (fs : List Finding) :
    Silent w (t.saveFindings i fs) := by
  unfold World.saveFindings
  split_ifs
  · exact h
  · exact ⟨h.posts, h.hitl, h.reviews⟩

theorem deliveryOf_openReview (w : World) (prId : ℕ) (deliveryId bundle : String) :
    (w.openReview prId deliveryId bundle).2.deliveryOf
      (w.openReview prId deliveryId bundle).1.1 = some deliveryId := by
  simp only [openReview, World.deliveryOf]
  rw [Table.keyOf_idOf (Table.insertNew_hasKey _ _)]
  rfl

theorem Silent.deliveryOf (h : Silent w t) (hw : (w.deliveryOf reviewId).isSome) :
    t.deliveryOf reviewId = w.deliveryOf reviewId := by
  obtain ⟨deliveryId, hid⟩ := Option.isSome_iff_exists.mp hw
  obtain ⟨key, hkey, _⟩ := Option.map_eq_some_iff.mp hid
  rw [World.deliveryOf, World.deliveryOf, hkey, h.reviews _ _ hkey]

theorem Silent.referential (h : Silent w t) (hw : w.Referential) : t.Referential := by
  constructor
  · intro p hp
    rw [h.posts] at hp
    rw [h.deliveryOf (hw.posts p hp)]
    exact hw.posts p hp
  · intro i hi
    rw [h.hitl] at hi
    rw [h.deliveryOf (hw.hitl i hi)]
    exact hw.hitl i hi

theorem Silent.tally (h : Silent w t) (hw : w.Referential) :
    t.tally deliveryId = w.tally deliveryId := by
  unfold World.tally
  rw [h.posts, h.hitl]
  congr 1
  · exact List.countP_congr fun p hp => by rw [h.deliveryOf (hw.posts p hp)]
  · exact List.countP_congr fun i hi => by rw [h.deliveryOf (hw.hitl i hi)]

theorem Adds.deliveryOf (h : Adds reviewId posted queued w t) (i : ℕ) :
    t.deliveryOf i = w.deliveryOf i := by
  rw [World.deliveryOf, h.keys, World.deliveryOf]

theorem Adds.referential (h : Adds reviewId posted queued w t) (hw : w.Referential)
    (hreview : w.deliveryOf reviewId = some deliveryId) : t.Referential := by
  have hkeys := h.deliveryOf
  obtain ⟨⟨ps, hps, -, hpr⟩, ⟨is, his, -, hir⟩, -, -, -⟩ := h
  constructor
  · intro p hp
    rw [hps] at hp
    rw [hkeys]
    rcases List.mem_append.mp hp with hp | hp
    · exact hw.posts p hp
    · rw [hpr p hp, hreview]
      rfl
  · intro i hi
    rw [his] at hi
    rw [hkeys]
    rcases List.mem_append.mp hi with hi | hi
    · exact hw.hitl i hi
    · rw [hir i hi, hreview]
      rfl

theorem Adds.tally (h : Adds reviewId posted queued w t)
    (hreview : w.deliveryOf reviewId = some deliveryId) :
    t.tally deliveryId = w.tally deliveryId + (posted + queued) := by
  have hkeys := h.deliveryOf
  obtain ⟨⟨ps, hps, rfl, hpr⟩, ⟨is, his, rfl, hir⟩, -, -, -⟩ := h
  have hposts : ps.countP (fun p => w.deliveryOf p.reviewId = some deliveryId) = ps.length :=
    List.countP_eq_length.mpr fun p hp => by simp [hpr p hp, hreview]
  have hitems : is.countP (fun i => w.deliveryOf i.reviewId = some deliveryId) = is.length :=
    List.countP_eq_length.mpr fun i hi => by simp [hir i hi, hreview]
  simp only [World.tally, hkeys, hps, his, List.countP_append, hposts, hitems]
  omega

end Tally

end World

end PrSentinel
