import PrSentinel.Pipeline
import PrSentinel.SecurityMark

/-!
The findings table beside what became of a review. `save_findings` replaces the review's rows
and leaves them as they are when there is nothing to save; `mark_posted` comes after the POST.
-/

set_option autoImplicit false

namespace PrSentinel.SavedFindings
open Python Relational Crash Crash.Exec

def rowsOf (reviewId : ℕ) (w : World) : List FindingRow :=
  w.findings.filter fun r => r.reviewId = reviewId

/-- Behind every finding of a review stands a stored verdict with findings. -/
def Backed (w : World) : Prop :=
  ∀ r ∈ w.findings, ∃ row ∈ w.verdicts.rows,
    row.reviewId = r.reviewId ∧ row.verdict.ok = true ∧ row.verdict.findings ≠ []

/-- What is marked as posted belongs to a review that GitHub has. -/
def Marked (w : World) : Prop :=
  ∀ r ∈ w.findings, r.posted = true → ∃ post ∈ w.posts, post.reviewId = r.reviewId

section Panel
variable [Interp] (settings : Settings) (fates : RunFates) (pr : PullRequestContext) (reviewId : ℕ)

/-- The verdicts an outcome rests on are stored, and no older one is missing. -/
structure Rests (w t : World) (outcome : ReviewOutcome) : Prop where
  review : outcome.reviewId = reviewId
  findings : outcome.findings = (aggregate settings outcome.verdicts).1
  postable : ∀ f ∈ outcome.postable, f ∈ outcome.findings
  stored : ∀ v ∈ outcome.verdicts, ⟨reviewId, v⟩ ∈ t.verdicts.rows
  older : ∀ row ∈ w.verdicts.rows, row.reviewId = reviewId → row.verdict.ok = true →
    row.verdict ∈ outcome.verdicts

omit [Interp] in
theorem saveAll_has (a : AgentType) (verdicts : List AgentVerdict) :
    Triple (fun w => a ∈ verdicts.map AgentVerdict.agent ∨ HasVerdict reviewId w a)
      (forEach (fun v => write (fates.saveVerdict v.agent) (World.saveVerdict reviewId v)) verdicts)
      (fun _ w => HasVerdict reviewId w a) (fun _ _ => True) := by
  refine (Triple.forEach (I := fun vs w => a ∈ vs.map AgentVerdict.agent ∨
    HasVerdict reviewId w a) (fun v vs => ?_) verdicts).imp
    (fun _ h => h) (fun _ w h => h.resolve_left (by simp)) (fun _ _ h => h)
  refine Triple.call (fun w hw _ => ?_) (fun _ _ _ _ => trivial) (fun _ _ _ _ => trivial)
  rcases hw with ha | ha
  · rcases List.mem_cons.mp ha with ha | ha
    · exact .inr (hasVerdict_saveVerdict reviewId (.inl ha))
    · exact .inl ha
  · exact .inr (hasVerdict_saveVerdict reviewId (.inr ha))

/-- When the panel's verdicts are saved: they are there, and so is every older one in order. -/
structure Stored (w t : World) (verdicts : List AgentVerdict) : Prop where
  findings : t.findings = w.findings
  posts : t.posts = w.posts
  older : ∀ row ∈ w.verdicts.rows, row.verdict.ok = true → row ∈ t.verdicts.rows
  present : ∀ v ∈ verdicts, HasVerdict reviewId t v.agent

omit [Interp] in
theorem saveAll_stored {w : World} {verdicts : List AgentVerdict}
    (hnew : ∀ v ∈ verdicts, v.agent ∉ w.completedAgents reviewId) :
    Triple (fun t => t = w)
      (forEach (fun v => write (fates.saveVerdict v.agent) (World.saveVerdict reviewId v)) verdicts)
      (fun _ t => Stored reviewId w t verdicts)
      (fun _ t => t.findings = w.findings ∧ t.posts = w.posts) := by
  have hkeeps : Keeps (fun t => t.findings = w.findings ∧ t.posts = w.posts)
      (forEach (fun v => write (fates.saveVerdict v.agent) (World.saveVerdict reviewId v)) verdicts) :=
    Keeps.forEach (fun v => Keeps.call fun t ht => ht) _
  have holder (row : VerdictRow) (hrow : row ∈ w.verdicts.rows ∧ row.verdict.ok = true) :
      Triple (fun t => t = w)
        (forEach (fun v => write (fates.saveVerdict v.agent) (World.saveVerdict reviewId v)) verdicts)
        (fun _ t => row ∈ t.verdicts.rows) (fun _ t => row ∈ t.verdicts.rows) := by
    refine (saveAll_keeps_row fates reviewId row verdicts).imp (fun t ht => ?_) (fun _ _ h => h)
      fun _ _ h => h
    subst ht
    refine ⟨hrow.1, fun v hv hreview hagent => hnew v hv ?_⟩
    exact (mem_completedAgents reviewId).mpr ⟨row, hrow.1, hreview, hrow.2, hagent⟩
  have hpresent (v : AgentVerdict) (hv : v ∈ verdicts) : Triple (fun t => t = w)
      (forEach (fun v => write (fates.saveVerdict v.agent) (World.saveVerdict reviewId v)) verdicts)
      (fun _ t => HasVerdict reviewId t v.agent) (fun _ _ => True) :=
    (saveAll_has fates reviewId v.agent verdicts).imp
      (fun _ _ => .inl (List.mem_map_of_mem hv)) (fun _ _ h => h) fun _ _ h => h
  refine ((hkeeps.triple.and (Triple.all fun row => Triple.all (holder row))).and
    (Triple.all fun v => Triple.all (hpresent v))).imp ?_ ?_ ?_
  · rintro t rfl
    exact ⟨⟨⟨rfl, rfl⟩, rfl⟩, rfl⟩
  · rintro _ t ⟨⟨⟨hfindings, hposts⟩, holder⟩, hpresent⟩
    exact ⟨hfindings, hposts, fun row hrow hok => holder row ⟨hrow, hok⟩, hpresent⟩
  · exact fun _ t h => h.1.1

theorem conclude_postable (verdicts : List AgentVerdict) (exhausted : Bool) :
    ∀ f ∈ (conclude settings pr reviewId verdicts exhausted).postable,
      f ∈ (conclude settings pr reviewId verdicts exhausted).findings := by
  intro f hf
  have hpostable : (conclude settings pr reviewId verdicts exhausted).postable =
      (panelGate settings verdicts exhausted (!pr.isPrivate)).postable := rfl
  rw [hpostable, panelGate, gate_postable] at hf
  split_ifs at hf
  · exact List.mem_of_mem_filter hf
  · cases hf

theorem Stored.rests {w t : World} {verdicts : List AgentVerdict}
    (h : Stored reviewId w t verdicts) {u : World} (hu : u.verdicts = t.verdicts) (exhausted : Bool) :
    Rests settings reviewId w u (conclude settings pr reviewId
      (if t.loadVerdicts reviewId = [] then verdicts else t.loadVerdicts reviewId) exhausted) := by
  have hnone (hempty : t.loadVerdicts reviewId = []) : verdicts = [] := by
    refine List.eq_nil_iff_forall_not_mem.mpr fun v hv => ?_
    obtain ⟨row, hrow, hkey⟩ := Table.hasKey_iff.mp (h.present v hv)
    obtain ⟨rfl, -⟩ := Prod.mk.inj hkey
    have hmem := (mem_loadVerdicts row.reviewId).mpr hrow
    rw [hempty] at hmem
    cases hmem
  refine ⟨rfl, rfl, conclude_postable settings pr reviewId _ _, fun v hv => ?_, ?_⟩
  · change v ∈ (if t.loadVerdicts reviewId = [] then verdicts else t.loadVerdicts reviewId) at hv
    rw [hu]
    refine (mem_loadVerdicts reviewId).mp ?_
    split_ifs at hv with hempty
    · rw [hnone hempty] at hv
      cases hv
    · exact hv
  · intro row hrow hreview hok
    have hmem : row.verdict ∈ t.loadVerdicts reviewId :=
      (mem_loadVerdicts reviewId).mpr (hreview ▸ h.older row hrow hok)
    change row.verdict ∈
      (if t.loadVerdicts reviewId = [] then verdicts else t.loadVerdicts reviewId)
    rwa [if_neg (List.ne_nil_of_mem hmem)]

omit [Interp] in
theorem findings_saveFindings {w t : World} (h : t.findings = w.findings) (fs : List Finding) :
    (t.saveFindings reviewId fs).findings = (w.saveFindings reviewId fs).findings := by
  unfold World.saveFindings
  split_ifs
  · exact h
  · rw [h]

omit [Interp] in
theorem posts_saveFindings (t : World) (fs : List Finding) :
    (t.saveFindings reviewId fs).posts = t.posts := by
  unfold World.saveFindings
  split_ifs <;> rfl

structure Saves (w t : World) (outcome : ReviewOutcome) : Prop where
  posts : t.posts = w.posts
  rests : Rests settings reviewId w t outcome
  findings : t.findings = (w.saveFindings reviewId outcome.findings).findings

theorem run_saves (w : World) :
    Triple (fun t => t = w) (run settings fates pr reviewId)
      (fun outcome t => Saves settings reviewId w t outcome)
      (fun _ t => (t.findings = w.findings ∧ t.posts = w.posts) ∨
        ∃ outcome, Saves settings reviewId w t outcome) := by
  have hsame (t : World) (h : t = w) : (t.findings = w.findings ∧ t.posts = w.posts) ∨
      ∃ outcome, Saves settings reviewId w t outcome := .inl (h ▸ ⟨rfl, rfl⟩)
  unfold run
  refine Triple.bind (R := fun _ t => t = w) (Triple.call (fun t ht _ => ht)
    (fun t ht _ _ => hsame t ht) fun t ht _ _ => hsame t ht) fun _ => ?_
  refine Triple.bind (R := fun done t => t = w ∧ done = w.completedAgents reviewId)
    (Triple.call (fun t ht _ => ⟨ht, by rw [ht]⟩) (fun t ht _ _ => hsame t ht)
      fun t ht _ _ => hsame t ht) fun done => ?_
  refine Triple.bind ((askPanel_spec fates _ _).imp (fun _ h => h) (fun _ _ h => h)
    fun _ t h => hsame t h.1) fun reply => ?_
  refine Triple.bind (R := fun _ t => Stored reviewId w t reply.2) ?_ fun _ => ?_
  · rintro t ⟨⟨rfl, rfl⟩, -, hasked⟩
    refine (saveAll_stored fates reviewId fun v hv => ?_).imp (fun _ h => h) (fun _ _ h => h)
      (fun _ _ h => .inl h) t rfl
    simpa using (List.mem_filter.mp (hasked v hv)).2
  refine Triple.bind (R := fun loaded t => Stored reviewId w t reply.2 ∧
      loaded = t.loadVerdicts reviewId)
    (Triple.call (fun t ht _ => ⟨ht, rfl⟩) (fun t ht _ _ => .inl ⟨ht.findings, ht.posts⟩)
      fun t ht _ _ => .inl ⟨ht.findings, ht.posts⟩) fun loaded => ?_
  have hsaves (t : World) (h : Stored reviewId w t reply.2 ∧ loaded = t.loadVerdicts reviewId) :
      Saves settings reviewId w (t.saveFindings reviewId (conclude settings pr reviewId
          (if loaded = [] then reply.2 else loaded) reply.1).findings)
        (conclude settings pr reviewId (if loaded = [] then reply.2 else loaded) reply.1) := by
    obtain ⟨hstored, rfl⟩ := h
    exact ⟨(posts_saveFindings reviewId t _).trans hstored.posts,
      hstored.rests settings pr reviewId (World.verdicts_saveFindings ..) reply.1,
      findings_saveFindings reviewId hstored.findings _⟩
  refine Triple.bind (R := fun _ t => Saves settings reviewId w t (conclude settings pr reviewId
      (if loaded = [] then reply.2 else loaded) reply.1))
    (Triple.call (fun t ht _ => hsaves t ht) (fun t ht _ _ => .inr ⟨_, hsaves t ht⟩)
      fun t ht _ _ => .inl ⟨ht.1.findings, ht.1.posts⟩) fun _ => Triple.ret fun t ht => ht

theorem aggregate_eq_nil_iff (verdicts : List AgentVerdict) :
    (aggregate settings verdicts).1 = [] ↔ okFindings verdicts = [] := by
  constructor
  · intro h
    refine List.eq_nil_iff_forall_not_mem.mpr fun f hf => ?_
    obtain ⟨g, hg⟩ := aggregate_nonempty settings hf
    rw [h] at hg
    cases hg
  · intro h
    have hperm := aggregate_perm settings verdicts
    rw [h] at hperm
    exact hperm.eq_nil

variable {settings reviewId} {w t : World} {outcome : ReviewOutcome}

theorem Rests.none_iff (h : Rests settings reviewId w t outcome) :
    outcome.findings = [] ↔ ∀ v ∈ outcome.verdicts, v.ok = true → v.findings = [] := by
  rw [h.findings, aggregate_eq_nil_iff, okFindings, List.flatMap_eq_nil_iff]
  simp only [List.mem_filter, and_imp]

theorem Rests.backs (h : Rests settings reviewId w t outcome) (hsome : outcome.findings ≠ []) :
    ∃ row ∈ t.verdicts.rows,
      row.reviewId = reviewId ∧ row.verdict.ok = true ∧ row.verdict.findings ≠ [] := by
  rw [ne_eq, h.none_iff] at hsome
  push Not at hsome
  obtain ⟨v, hv, hok, hfindings⟩ := hsome
  exact ⟨⟨reviewId, v⟩, h.stored v hv, rfl, hok, hfindings⟩

theorem Saves.mem (h : Saves settings reviewId w t outcome) {r : FindingRow} (hr : r ∈ t.findings) :
    r ∈ w.findings ∨ outcome.findings ≠ [] ∧ r.reviewId = reviewId ∧ r.posted = false := by
  rw [h.findings, World.saveFindings] at hr
  split_ifs at hr with hnone
  · exact .inl hr
  · rcases List.mem_append.mp hr with hr | hr
    · exact .inl (List.mem_of_mem_filter hr)
    · obtain ⟨f, -, rfl⟩ := List.mem_map.mp hr
      exact .inr ⟨hnone, rfl, rfl⟩

theorem Saves.rows (h : Saves settings reviewId w t outcome) (hw : Backed w) :
    rowsOf reviewId t = outcome.findings.map fun f => ⟨f.id, reviewId, false⟩ := by
  rw [rowsOf, h.findings, World.saveFindings]
  split_ifs with hnone
  · rw [hnone]
    refine List.filter_eq_nil_iff.mpr fun r hr hreview => ?_
    obtain ⟨row, hrow, heq, hok, hfindings⟩ := hw r hr
    have holder := h.rests.older row hrow (heq.trans (of_decide_eq_true hreview)) hok
    exact hfindings (h.rests.none_iff.mp hnone row.verdict holder hok)
  · rw [List.filter_append, List.filter_filter, List.filter_map]
    have hold : w.findings.filter (fun r => decide (r.reviewId = reviewId) &&
        decide (r.reviewId ≠ reviewId)) = [] := List.filter_eq_nil_iff.mpr fun r _ => by simp
    rw [hold, List.nil_append]
    exact congrArg _ (List.filter_eq_self.mpr fun f _ => decide_eq_true rfl)

theorem Saves.saved (h : Saves settings reviewId w t outcome) {f : Finding}
    (hf : f ∈ outcome.findings) : ⟨f.id, reviewId, false⟩ ∈ t.findings := by
  rw [h.findings, World.saveFindings, if_neg (List.ne_nil_of_mem hf)]
  exact List.mem_append_right _ (List.mem_map_of_mem hf)

theorem Saves.marked (h : Saves settings reviewId w t outcome) (hw : Marked w) : Marked t := by
  intro r hr hposted
  rcases h.mem hr with hr | ⟨-, -, hunposted⟩
  · rw [h.posts]
    exact hw r hr hposted
  · rw [hunposted] at hposted
    cases hposted

theorem Saves.backed (h : Saves settings reviewId w t outcome) (hw : Backed w)
    (hkept : ∀ row ∈ w.verdicts.rows, row.verdict.ok = true → row ∈ t.verdicts.rows) : Backed t := by
  intro r hr
  rcases h.mem hr with hr | ⟨hsome, hreview, -⟩
  · obtain ⟨row, hrow, hreview, hok, hfindings⟩ := hw r hr
    exact ⟨row, hkept row hrow hok, hreview, hok, hfindings⟩
  · rw [hreview]
    exact h.rests.backs hsome

theorem run_backed : Keeps Backed (run settings fates pr reviewId) := by
  intro w hw
  have hkept (row : VerdictRow) (hrow : row ∈ w.verdicts.rows) (hok : row.verdict.ok = true) :=
    run_keeps_row fates reviewId settings pr hok w hrow
  have hrun := run_saves settings fates pr reviewId w w rfl
  cases hresult : run settings fates pr reviewId w with
  | mk result t =>
    rw [hresult] at hrun hkept
    have hunsaved (h : t.findings = w.findings) : Backed t := by
      intro r hr
      rw [h] at hr
      obtain ⟨row, hrow, hreview, hok, hfindings⟩ := hw r hr
      exact ⟨row, hkept row hrow hok, hreview, hok, hfindings⟩
    cases result with
    | ok outcome => exact Saves.backed hrun hw hkept
    | error e =>
      rcases hrun with h | ⟨outcome, h⟩
      · exact hunsaved h.1
      · exact h.backed hw hkept

end Panel

section Delivery
variable (fates : ActFates) (pr : PullRequestContext) (reviewId : ℕ) (bundle : String)
  (outcome : ReviewOutcome)

/-- Findings change by what is marked, and that only after GitHub has the review. -/
structure Follows (w t : World) : Prop where
  verdicts : t.verdicts = w.verdicts
  posts : ∀ post ∈ w.posts, post ∈ t.posts
  findings : t.findings = w.findings ∨
    t.findings = (w.markPosted (outcome.postable.map Finding.id)).findings ∧
      ∃ post ∈ t.posts, post.reviewId = reviewId

theorem Follows.refl (w : World) : Follows reviewId outcome w w := ⟨rfl, fun _ h => h, .inl rfl⟩

variable {outcome} {reviewId} in
theorem Follows.of_eq {w t u : World} (h : Follows reviewId outcome w t)
    (hverdicts : u.verdicts = t.verdicts) (hposts : u.posts = t.posts)
    (hfindings : u.findings = t.findings) : Follows reviewId outcome w u := by
  obtain ⟨hv, hp, hf⟩ := h
  refine ⟨hverdicts.trans hv, ?_, ?_⟩
  · rw [hposts]
    exact hp
  · rw [hfindings, hposts]
    exact hf

theorem escalate_follows (reason : EscalationReason) (w : World) :
    Keeps (Follows reviewId outcome w) (escalate fates pr reviewId outcome reason) := by
  unfold escalate
  exact Keeps.bind (Keeps.call fun t ht => ht.of_eq rfl rfl rfl) fun _ =>
    Keeps.call fun t ht => ht.of_eq rfl rfl rfl

theorem deliver_follows (w : World) :
    Triple (fun t => t = w) (deliver fates pr reviewId bundle outcome)
      (fun _ t => Follows reviewId outcome w t ∧
        t.findings = (w.markPosted (outcome.postable.map Finding.id)).findings)
      (fun _ t => Follows reviewId outcome w t) := by
  rintro t rfl
  obtain ⟨post, hpost, heq⟩ := postReview_eq fates pr reviewId outcome
    (renderReviewBody outcome.postable outcome.summary
      (outcome.findings.length - outcome.postable.length) bundle) t
  have hcreated : Follows reviewId outcome t (t.createReview post) :=
    ⟨rfl, fun _ h => List.mem_append_left _ h, .inl rfl⟩
  have hmarked : Follows reviewId outcome t
      ((t.createReview post).markPosted (outcome.postable.map Finding.id)) :=
    ⟨rfl, hcreated.posts, .inr ⟨rfl, post, List.mem_append_right _ List.mem_cons_self, hpost⟩⟩
  rw [deliver, bind_apply, heq]
  cases settling fates outcome with
  | created id =>
    refine Triple.bind (P := fun u => u = t.createReview post)
      (R := fun _ u => u = (t.createReview post).markPosted (outcome.postable.map Finding.id))
      (Triple.call (fun u hu _ => by rw [hu]) (fun u hu _ _ => ?_) fun u hu _ _ => ?_) (fun _ =>
      Triple.call (fun u hu _ => ?_) (fun u hu _ _ => ?_) fun u hu _ _ => ?_) _ rfl
    · subst hu
      exact hmarked
    · subst hu
      exact hcreated
    · subst hu
      exact ⟨hmarked.of_eq rfl rfl rfl, rfl⟩
    · subst hu
      exact hmarked.of_eq rfl rfl rfl
    · subst hu
      exact hmarked
  | rejected status => exact Follows.refl reviewId outcome t
  | lost applied | crashed applied =>
    cases applied with
    | true => exact hcreated
    | false => exact Follows.refl reviewId outcome t

structure Acted (post : Bool) (w t : World) (out : ReviewOutcome) : Prop where
  follows : Follows reviewId outcome w t
  review : out.reviewId = outcome.reviewId
  findings : out.findings = outcome.findings
  postable : out.postable = outcome.postable
  marked : out.decision = .autoPost → post = true →
    t.findings = (w.markPosted (outcome.postable.map Finding.id)).findings

theorem act_follows (post : Bool) (w : World) :
    Triple (fun t => t = w) (act fates pr reviewId bundle post outcome)
      (fun out t => Acted reviewId outcome post w t out)
      (fun _ t => Follows reviewId outcome w t) := by
  have hfinish (status : ReviewStatus) (decision : Decision) (hout : outcome.decision = .autoPost →
      post = true → False) : Triple (fun t => t = w) (do
        write fates.finish fun w => w.finishReview reviewId status decision none
          outcome.overallConfidence outcome.totalCostUsd none
        pure outcome)
      (fun out t => Acted reviewId outcome post w t out)
      (fun _ t => Follows reviewId outcome w t) := by
    refine Triple.bind (Keeps.triple (Keeps.call fun t ht => ht.of_eq rfl rfl rfl) |>.imp
      (fun t ht => ht ▸ Follows.refl reviewId outcome w) (fun _ _ h => h) fun _ _ h => h)
      fun _ => Triple.ret fun t ht => ⟨ht, rfl, rfl, rfl, fun h h' => (hout h h').elim⟩
  unfold act
  cases hdecision : outcome.decision with
  | autoPost =>
    cases post with
    | true =>
      refine Triple.guarded (C := Follows reviewId outcome w) ?_ ?_
      · refine Triple.bind ((deliver_follows fates pr reviewId bundle outcome w).imp
          (fun _ h => h) (fun _ _ h => h) fun e t h => ?_) fun _ => Triple.ret fun t ht =>
            ⟨ht.1, rfl, rfl, rfl, fun _ _ => ht.2⟩
        cases e <;> exact h
      · refine Triple.bind (escalate_follows fates pr reviewId outcome .policy w).triple fun _ =>
          Triple.ret fun t ht => ⟨ht, rfl, rfl, rfl, fun h => by cases h⟩
    | false => exact hfinish _ _ fun _ h => by cases h
  | escalate =>
    refine Triple.bind ((escalate_follows fates pr reviewId outcome _ w).triple.imp
      (fun t ht => ht ▸ Follows.refl reviewId outcome w) (fun _ _ h => h) fun _ _ h => h) fun _ =>
      Triple.ret fun t ht => ⟨ht, rfl, rfl, rfl, fun h => by rw [hdecision] at h; cases h⟩
  | suppress => exact hfinish _ _ fun h => by rw [hdecision] at h; cases h

end Delivery

theorem ids_markPosted (ids : List UUID) (w : World) :
    (w.markPosted ids).findings.map FindingRow.id = w.findings.map FindingRow.id := by
  rw [World.markPosted, List.map_map]
  refine List.map_congr_left fun r _ => ?_
  rw [Function.comp_apply]
  split <;> rfl

theorem mem_markPosted {ids : List UUID} {w : World} {r : FindingRow}
    (hr : r ∈ (w.markPosted ids).findings) :
    ∃ old ∈ w.findings, old.id = r.id ∧ old.reviewId = r.reviewId ∧
      (r.posted = true → old.posted = true ∨ old.id ∈ ids) := by
  obtain ⟨old, hold, rfl⟩ := List.mem_map.mp hr
  refine ⟨old, hold, ?_⟩
  split_ifs with hid
  · exact ⟨rfl, rfl, fun _ => .inr hid⟩
  · exact ⟨rfl, rfl, .inl⟩

section Invariants
variable {reviewId : ℕ} {outcome : ReviewOutcome} {w t : World}

theorem Follows.backed (h : Follows reviewId outcome w t) (hw : Backed w) : Backed t := by
  intro r hr
  rw [h.verdicts]
  rcases h.findings with heq | ⟨heq, -⟩
  · exact hw r (heq ▸ hr)
  · rw [heq] at hr
    obtain ⟨old, hold, -, hreview, -⟩ := mem_markPosted hr
    rw [← hreview]
    exact hw old hold

theorem Follows.marked (h : Follows reviewId outcome w t) (hw : Marked w)
    (hkey : (t.findings.map FindingRow.id).Nodup)
    (hrows : ∀ f ∈ outcome.postable, ⟨f.id, reviewId, false⟩ ∈ w.findings) : Marked t := by
  intro r hr hposted
  rcases h.findings with heq | ⟨heq, post, hpost, hreview⟩
  · obtain ⟨post, hpost, hreview⟩ := hw r (heq ▸ hr) hposted
    exact ⟨post, h.posts post hpost, hreview⟩
  · rw [heq] at hr hkey
    rw [ids_markPosted] at hkey
    obtain ⟨old, hold, -, hsame, hmark⟩ := mem_markPosted hr
    rcases hmark hposted with hbefore | hid
    · obtain ⟨post, hpost, hreview⟩ := hw old hold hbefore
      exact ⟨post, h.posts post hpost, hreview.trans hsame⟩
    · obtain ⟨f, hf, hfid⟩ := List.mem_map.mp hid
      obtain rfl := List.inj_on_of_nodup_map hkey (hrows f hf) hold hfid
      exact ⟨post, hpost, hreview.trans hsame⟩

theorem Acted.rows {post : Bool} {out : ReviewOutcome} (h : Acted reviewId outcome post w t out)
    (hrows : rowsOf reviewId w = outcome.findings.map fun f => ⟨f.id, reviewId, false⟩) :
    (rowsOf reviewId t).map FindingRow.id = out.findings.map Finding.id ∧
      (out.decision = .autoPost → post = true → rowsOf reviewId t = out.findings.map fun f =>
        ⟨f.id, reviewId, f.id ∈ out.postable.map Finding.id⟩) := by
  have hmarked : rowsOf reviewId (w.markPosted (outcome.postable.map Finding.id)) =
      outcome.findings.map fun f =>
        ⟨f.id, reviewId, f.id ∈ outcome.postable.map Finding.id⟩ := by
    rw [rowsOf, World.markPosted, List.filter_map]
    have hfilter : w.findings.filter ((fun r => decide (r.reviewId = reviewId)) ∘ fun r =>
        if r.id ∈ outcome.postable.map Finding.id then { r with posted := true } else r) =
          rowsOf reviewId w := by
      refine List.filter_congr fun r _ => ?_
      rw [Function.comp_apply]
      split <;> rfl
    rw [hfilter, hrows, List.map_map]
    refine List.map_congr_left fun f _ => ?_
    rw [Function.comp_apply]
    by_cases hid : f.id ∈ outcome.postable.map Finding.id
    · rw [if_pos hid, decide_eq_true hid]
    · rw [if_neg hid, decide_eq_false hid]
  rw [h.findings, h.postable]
  refine ⟨?_, fun hdecision hpost => ?_⟩
  · rcases h.follows.findings with heq | ⟨heq, -⟩
    · rw [rowsOf, heq, ← rowsOf, hrows, List.map_map]
      rfl
    · rw [rowsOf, heq, ← rowsOf, hmarked, List.map_map]
      rfl
  · rw [rowsOf, h.marked hdecision hpost, ← rowsOf, hmarked]

end Invariants

section Executions
variable [Interp] (job : WebhookJob) (attempt : ReviewAttempt)

omit [Interp] in
theorem opening_untouched (w : World) :
    Keeps (fun t => t.findings = w.findings ∧ t.posts = w.posts ∧ t.verdicts = w.verdicts)
      (attempt.opening job) := by
  unfold ReviewAttempt.opening
  refine Keeps.bind (Keeps.call fun t ht => ht) fun _ => ?_
  refine Keeps.bind (Keeps.call fun t ht => ht) fun repoId => ?_
  refine Keeps.bind (Keeps.call fun t ht => ht) fun pr => ?_
  refine Keeps.bind (Keeps.call fun t ht => ht) fun prId => ?_
  refine Keeps.bind (Keeps.call fun t ht => ht) fun opened => ?_
  exact Keeps.bind (Keeps.guarded (Keeps.call fun t ht => ht) (Keeps.ret _)) fun _ => Keeps.ret _

/-- The table shows the outcome's findings, and as posted what was posted of them. -/
def Shows (post : Bool) (t : World) (out : ReviewOutcome) : Prop :=
  (rowsOf out.reviewId t).map FindingRow.id = out.findings.map Finding.id ∧
    (out.decision = .autoPost → post = true → rowsOf out.reviewId t = out.findings.map fun f =>
      ⟨f.id, out.reviewId, f.id ∈ out.postable.map Finding.id⟩)

structure Sound (w t : World) : Prop where
  backed : Backed w → Backed t
  marked : (t.findings.map FindingRow.id).Nodup → Marked w → Marked t

theorem review_sound (w : World) : Triple (fun t => t = w) (attempt.review job)
    (fun out t => Sound w t ∧ (Backed w → Shows attempt.post t out)) (fun _ t => Sound w t) := by
  unfold ReviewAttempt.review
  have hopened (t : World)
      (ht : t.findings = w.findings ∧ t.posts = w.posts ∧ t.verdicts = w.verdicts) :
      (Backed w → Backed t) ∧ (Marked w → Marked t) := by
    obtain ⟨hfindings, hposts, hverdicts⟩ := ht
    unfold Backed Marked
    rw [hfindings, hposts, hverdicts]
    exact ⟨id, id⟩
  refine Triple.bind (R := fun _ t => (Backed w → Backed t) ∧ (Marked w → Marked t))
    ((opening_untouched job attempt w).triple.imp (fun t ht => ht ▸ ⟨rfl, rfl, rfl⟩)
      (fun _ t ht => hopened t ht) fun _ t ht => ⟨(hopened t ht).1, fun _ => (hopened t ht).2⟩)
    fun opened => ?_
  rintro u ⟨hbacked, hmarked⟩
  have hkeeps : Keeps (fun t => Backed w → Backed t)
      (PrSentinel.run attempt.settings attempt.run opened.1 opened.2) :=
    fun v hv hw => run_backed attempt.run opened.1 v (hv hw)
  refine Triple.bind (P := fun t => t = u) (R := fun outcome t =>
      Saves attempt.settings opened.2 u t outcome ∧ (Backed w → Backed t)) ?_ (fun outcome => ?_)
      u rfl
  · refine ((run_saves attempt.settings attempt.run opened.1 opened.2 u).and hkeeps.triple).imp
      (fun t ht => ⟨ht, ht ▸ hbacked⟩) (fun _ _ h => h) ?_
    rintro _ t ⟨⟨hfindings, hposts⟩ | ⟨outcome, hsaves⟩, hstored⟩
    · refine ⟨hstored, fun _ hold => ?_⟩
      unfold Marked
      rw [hfindings, hposts]
      exact hmarked hold
    · exact ⟨hstored, fun _ hold => hsaves.marked (hmarked hold)⟩
  · rintro t ⟨hsaves, hstored⟩
    have hposted : ∀ f ∈ outcome.postable, ⟨f.id, opened.2, false⟩ ∈ t.findings :=
      fun f hf => hsaves.saved (hsaves.rests.postable f hf)
    have hsound {t' : World} (h : Follows opened.2 outcome t t') : Sound w t' :=
      ⟨fun hw => h.backed (hstored hw),
        fun hkey hold => h.marked (hsaves.marked (hmarked hold)) hkey hposted⟩
    refine (act_follows attempt.act opened.1 opened.2 attempt.bundle outcome attempt.post t).imp
      (fun _ h => h) (fun out _ h => ⟨hsound h.follows, fun hw => ?_⟩) (fun _ _ h => hsound h) t rfl
    rw [Shows, h.review, hsaves.rests.review]
    exact h.rows (hsaves.rows (hbacked hw))

/-- What an execution leaves of a delivery's job. -/
def step (w : World) (e : WebhookJob × ReviewAttempt) : World := e.2.step e.1 w

theorem step_sound (w : World) (e : WebhookJob × ReviewAttempt) : Sound w (step w e) :=
  triple_state.mp ((review_sound e.1 e.2 w).imp (fun _ h => h) (fun _ _ h => h.1)
    fun _ _ h => h) w rfl

theorem history_backed {start : World} (hstart : Backed start)
    (history : List (WebhookJob × ReviewAttempt)) : Backed (Runs.run step start history) := by
  refine Runs.run_keeps (I := Backed) (fun w e hw => ?_) hstart history
  exact (step_sound w e).backed hw

/-- Whatever stopped the executions before it: one that returns has the table show what it
found, and what it posted of that. -/
theorem table_shows {start : World} (hstart : Backed start)
    (history : List (WebhookJob × ReviewAttempt)) (job : WebhookJob) (attempt : ReviewAttempt)
    (out : ReviewOutcome)
    (hout : (attempt.review job (Runs.run step start history)).1 = .ok out) :
    Shows attempt.post (attempt.review job (Runs.run step start history)).2 out := by
  have hreview := review_sound job attempt (Runs.run step start history) _ rfl
  cases hresult : attempt.review job (Runs.run step start history) with
  | mk result t =>
    rw [hresult] at hreview hout
    subst hout
    exact hreview.2 (history_backed hstart history)

/-- In whatever order deliveries are reviewed and wherever that stops, a finding is marked as
posted only if GitHub has a review of its review. -/
theorem posted_on_github {start : World} (hmarked : Marked start)
    (history : List (WebhookJob × ReviewAttempt))
    (hkey : ∀ before after, history = before ++ after →
      ((Runs.run step start before).findings.map FindingRow.id).Nodup) :
    ∀ r ∈ (Runs.run step start history).findings, r.posted = true →
      ∃ post ∈ (Runs.run step start history).posts, post.reviewId = r.reviewId := by
  induction history generalizing start with
  | nil => exact hmarked
  | cons e history ih =>
    obtain ⟨-, hrest⟩ := (Runs.forall_prefix_cons
      (P := fun w : World => (w.findings.map FindingRow.id).Nodup)).mp hkey
    exact ih ((step_sound start e).marked (hrest [] history rfl) hmarked) hrest

end Executions

def died : ReviewAttempt := reviewAt "c1" { markPosted := .crashes false }

def retried : ReviewAttempt := reviewAt "c1" {}

theorem retry_returns :
    let _ := asciiInterp
    ((retried.review openedJob (Runs.run step {} [(openedJob, died)])).1.toOption.map
      fun out => (out.reviewId, out.findings.map Finding.id)) = some (0, [1]) := by
  decide +kernel

theorem table_shows_sample :
    let _ := asciiInterp
    ∃ out, (retried.review openedJob (Runs.run step {} [(openedJob, died)])).1 = .ok out ∧
      Shows true (retried.review openedJob (Runs.run step {} [(openedJob, died)])).2 out := by
  intro _
  have hreturns := retry_returns
  cases hout : (retried.review openedJob (Runs.run step {} [(openedJob, died)])).1 with
  | ok out =>
    exact ⟨out, rfl, table_shows (fun _ h => by cases h) [(openedJob, died)] openedJob retried out hout⟩
  | error e =>
    simp only [hout] at hreturns
    cases hreturns

/-- Nothing is marked when the first execution dies; then the second marks what it posts. -/
theorem posted_on_github_sample :
    let _ := asciiInterp
    (Runs.run step {} [(openedJob, died)]).findings = [⟨1, 0, false⟩] ∧
      (Runs.run step {} [(openedJob, died), (openedJob, retried)]).findings = [⟨1, 0, true⟩] ∧
      ∃ post ∈ (Runs.run step {} [(openedJob, died), (openedJob, retried)]).posts,
        post.reviewId = 0 := by
  intro _
  have hfindings : (Runs.run step {} [(openedJob, died), (openedJob, retried)]).findings =
      [⟨1, 0, true⟩] := by decide +kernel
  refine ⟨by decide +kernel, hfindings, ?_⟩
  have hkey : ∀ before after, [(openedJob, died), (openedJob, retried)] = before ++ after →
      ((Runs.run step {} before).findings.map FindingRow.id).Nodup := by
    refine (Runs.forall_prefix_cons (P := fun w : World =>
      (w.findings.map FindingRow.id).Nodup)).mpr ⟨List.nodup_nil, ?_⟩
    refine (Runs.forall_prefix_cons (P := fun w : World =>
      (w.findings.map FindingRow.id).Nodup)).mpr ⟨by decide +kernel, fun before after heq => ?_⟩
    rw [(List.append_eq_nil_iff.mp heq.symm).1]
    decide +kernel
  exact posted_on_github (fun _ h => by cases h)
    [(openedJob, died), (openedJob, retried)] hkey ⟨1, 0, true⟩ (by rw [hfindings]; exact .head _) rfl

end PrSentinel.SavedFindings
