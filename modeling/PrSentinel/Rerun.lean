import PrSentinel.Resume

/-!
One review over all its attempts, with the panel taken apart: each agent starts
and returns on its own, the verdicts are saved after the last of them, and an
attempt may be over at any moment in between.
-/

set_option autoImplicit false

namespace PrSentinel
open Relational Crash

/-- Where the attempt at the review stands. -/
inductive Stage where
  | idle
  | panel (todo started : List AgentType) (returned : List AgentVerdict)
  | saving (rest : List AgentVerdict)

/-- Verdicts that exist in the process and not yet in the database. -/
def Stage.pending : Stage → List AgentVerdict
  | .idle => []
  | .panel _ _ returned => returned
  | .saving rest => rest

inductive Happening where
  | started (agent : AgentType)
  | returned (agent : AgentType) (ok : Bool)
  deriving DecidableEq, Repr

/-- The review's rows, the attempt under way, and what happened so far, newest first. -/
structure Progress where
  world : World := {}
  stage : Stage := .idle
  log : List Happening := []

inductive PanelEvent where
  | begin
  | start (agent : AgentType)
  | returns (verdict : AgentVerdict)
  | gathered
  | save (fate : Fate)
  | stop

def gather (todo : List AgentType) (returned : List AgentVerdict) : List AgentVerdict :=
  todo.filterMap fun a => returned.find? (fun v => v.agent = a)

namespace Progress
variable (reviewId : ℕ)

/-- One step of `_run` and of the `gather` inside it. An attempt that nothing
stops is over with its last verdict: what follows it starts no agent. -/
def step (s : Progress) (event : PanelEvent) : Progress :=
  match event, s.stage with
  | .begin, .idle => { s with stage := .panel (stillToDo reviewId s.world) [] [] }
  | .start a, .panel todo started returned =>
    if a ∈ todo ∧ a ∉ started then
      { s with stage := .panel todo (a :: started) returned, log := .started a :: s.log }
    else s
  | .returns v, .panel todo started returned =>
    if v.agent ∈ started ∧ v.agent ∉ returned.map AgentVerdict.agent then
      { s with stage := .panel todo started (v :: returned)
               log := .returned v.agent v.ok :: s.log }
    else s
  | .gathered, .panel todo _ returned =>
    if ∀ a ∈ todo, a ∈ returned.map AgentVerdict.agent then
      { s with stage := .saving (gather todo returned) }
    else s
  | .save fate, .saving (v :: rest) =>
    { s with
      world := if fate.applied then s.world.saveVerdict reviewId v else s.world
      stage := if fate = .returns then .saving rest else .idle }
  | .save _, .saving [] => { s with stage := .idle }
  | .stop, _ => { s with stage := .idle }
  | _, _ => s

/-- Nobody starts an agent that has once returned with an OK verdict. -/
def NoRerun (log : List Happening) : Prop :=
  log.Pairwise fun later earlier => ∀ a, earlier = .returned a true → later ≠ .started a

def dropped (s : Progress) (event : PanelEvent) : List AgentVerdict :=
  match event, s.stage with
  | .stop, stage => stage.pending
  | .save fate, .saving rest =>
    if fate = .returns then [] else if fate.applied then rest.tail else rest
  | _, _ => []

/-- An attempt that is over too early drops no OK verdict. -/
def Spared (s : Progress) (event : PanelEvent) : Prop := ∀ v ∈ s.dropped event, v.ok = false

instance (s : Progress) (event : PanelEvent) : Decidable (s.Spared event) :=
  inferInstanceAs (Decidable (∀ v ∈ _, _))

def Sound (w : World) : Stage → Prop
  | .idle => True
  | .panel todo started returned =>
    todo = stillToDo reviewId w ∧ (∀ a ∈ started, a ∈ todo) ∧
      (∀ v ∈ returned, v.agent ∈ started) ∧ (returned.map AgentVerdict.agent).Nodup
  | .saving rest =>
    (∀ v ∈ rest, v.agent ∉ w.completedAgents reviewId) ∧ (rest.map AgentVerdict.agent).Nodup

/-- Every agent that returned with an OK verdict has its row, or its verdict is at hand. -/
def Kept (s : Progress) : Prop :=
  ∀ a, .returned a true ∈ s.log → a ∈ s.world.completedAgents reviewId ∨
    ∃ v ∈ s.stage.pending, v.agent = a ∧ v.ok = true

structure Consistent (s : Progress) : Prop where
  sound : Sound reviewId s.world s.stage
  logged : ∀ v ∈ s.stage.pending, .returned v.agent v.ok ∈ s.log

inductive Move (s : Progress) : PanelEvent → Progress → Prop
  | stay (event : PanelEvent) : Move s event s
  | begin (hstage : s.stage = .idle) :
      Move s .begin { s with stage := .panel (stillToDo reviewId s.world) [] [] }
  | start {a todo started returned} (hstage : s.stage = .panel todo started returned)
      (htodo : a ∈ todo) (hnew : a ∉ started) : Move s (.start a)
        { s with stage := .panel todo (a :: started) returned, log := .started a :: s.log }
  | returns {v todo started returned} (hstage : s.stage = .panel todo started returned)
      (hstarted : v.agent ∈ started) (hfirst : v.agent ∉ returned.map AgentVerdict.agent) :
      Move s (.returns v) { s with stage := .panel todo started (v :: returned)
                                   log := .returned v.agent v.ok :: s.log }
  | gathered {todo started returned} (hstage : s.stage = .panel todo started returned) :
      Move s .gathered { s with stage := .saving (gather todo returned) }
  | saves {v rest} (hstage : s.stage = .saving (v :: rest)) : Move s (.save .returns)
      { s with world := s.world.saveVerdict reviewId v, stage := .saving rest }
  | breaks {v rest fate} (hstage : s.stage = .saving (v :: rest)) (hfate : fate ≠ .returns) :
      Move s (.save fate)
        { s with world := if fate.applied then s.world.saveVerdict reviewId v else s.world
                 stage := .idle }
  | ends {fate} (hstage : s.stage = .saving []) : Move s (.save fate) { s with stage := .idle }
  | stops : Move s .stop { s with stage := .idle }

theorem step_move (s : Progress) (event : PanelEvent) :
    Move reviewId s event (s.step reviewId event) := by
  unfold step
  split
  · rename_i hstage
    exact .begin hstage
  · rename_i hstage
    split
    · rename_i h
      exact .start hstage h.1 h.2
    · exact .stay _
  · rename_i hstage
    split
    · rename_i h
      exact .returns hstage h.1 h.2
    · exact .stay _
  · rename_i hstage
    split
    · exact .gathered hstage
    · exact .stay _
  · rename_i fate v rest hstage
    by_cases hfate : fate = .returns
    · subst hfate
      exact .saves hstage
    · simp only [if_neg hfate]
      exact .breaks hstage hfate
  · rename_i hstage
    exact .ends hstage
  · exact .stops
  · exact .stay _

variable {reviewId}

theorem mem_stillToDo {w : World} {a : AgentType} :
    a ∈ stillToDo reviewId w ↔ a ∉ w.completedAgents reviewId := by
  simp [stillToDo, mem_allAgents]

theorem find_agent {returned : List AgentVerdict} {v : AgentVerdict}
    (hnodup : (returned.map AgentVerdict.agent).Nodup) (hv : v ∈ returned) :
    returned.find? (fun u => u.agent = v.agent) = some v := by
  cases hfind : returned.find? (fun u => u.agent = v.agent) with
  | none => simpa using List.find?_eq_none.mp hfind v hv
  | some u =>
    have hagent : u.agent = v.agent := by simpa using List.find?_some hfind
    rw [List.inj_on_of_nodup_map hnodup (List.mem_of_find?_eq_some hfind) hv hagent]

theorem mem_gather {todo : List AgentType} {returned : List AgentVerdict} {v : AgentVerdict}
    (hnodup : (returned.map AgentVerdict.agent).Nodup) :
    v ∈ gather todo returned ↔ v ∈ returned ∧ v.agent ∈ todo := by
  simp only [gather, List.mem_filterMap]
  constructor
  · rintro ⟨a, ha, hfind⟩
    have hagent : v.agent = a := by simpa using List.find?_some hfind
    exact ⟨List.mem_of_find?_eq_some hfind, hagent ▸ ha⟩
  · rintro ⟨hv, htodo⟩
    exact ⟨v.agent, htodo, find_agent hnodup hv⟩

theorem gather_perm {verdicts returned : List AgentVerdict}
    (hnodup : (verdicts.map AgentVerdict.agent).Nodup) (hperm : returned.Perm verdicts) :
    gather (verdicts.map AgentVerdict.agent) returned = verdicts := by
  have hreturned := (hperm.map AgentVerdict.agent).nodup_iff.mpr hnodup
  have hfind : ∀ v ∈ verdicts, returned.find? (fun u => u.agent = v.agent) = some v :=
    fun v hv => find_agent hreturned (hperm.mem_iff.mpr hv)
  rw [gather, List.filterMap_map]
  exact (List.filterMap_congr hfind).trans List.filterMap_some

theorem gather_agents (todo : List AgentType) (returned : List AgentVerdict) :
    ((gather todo returned).map AgentVerdict.agent).Sublist todo := by
  induction todo with
  | nil => simp [gather]
  | cons a todo ih =>
    cases hfind : returned.find? (fun v => v.agent = a) with
    | none => simpa [gather, hfind] using ih.cons a
    | some v =>
      have hagent : v.agent = a := by simpa using List.find?_some hfind
      simpa [gather, hfind, hagent] using ih.cons_cons a

theorem Consistent.pending_unsaved {s : Progress} (h : Consistent reviewId s) {v : AgentVerdict}
    (hv : v ∈ s.stage.pending) : v.agent ∉ s.world.completedAgents reviewId := by
  have hsound := h.sound
  cases hstage : s.stage with
  | idle => simp [hstage, Stage.pending] at hv
  | panel todo started returned =>
    rw [hstage] at hsound hv
    obtain ⟨rfl, hasked, hstarted, -⟩ := hsound
    exact mem_stillToDo.mp (hasked _ (hstarted v hv))
  | saving rest =>
    rw [hstage] at hsound hv
    exact hsound.1 v hv

theorem Consistent.step {s : Progress} (h : Consistent reviewId s) (event : PanelEvent) :
    Consistent reviewId (s.step reviewId event) := by
  obtain ⟨hsound, hlogged⟩ := h
  have hmove := step_move reviewId s event
  generalize s.step reviewId event = t at hmove ⊢
  cases hmove with
  | stay => exact ⟨hsound, hlogged⟩
  | begin => exact ⟨⟨rfl, by simp, by simp, by simp⟩, by simp [Stage.pending]⟩
  | start hstage htodo hnew =>
    rw [hstage] at hsound hlogged
    obtain ⟨htodo', hasked, hstarted, hnodup⟩ := hsound
    refine ⟨⟨htodo', ?_, ?_, hnodup⟩, ?_⟩
    · simpa [htodo] using hasked
    · exact fun v hv => List.mem_cons_of_mem _ (hstarted v hv)
    · exact fun v hv => List.mem_cons_of_mem _ (hlogged v hv)
  | returns hstage hagent hfirst =>
    rw [hstage] at hsound hlogged
    obtain ⟨htodo, hasked, hstarted, hnodup⟩ := hsound
    refine ⟨⟨htodo, hasked, ?_, ?_⟩, ?_⟩
    · simpa [hagent] using hstarted
    · exact List.nodup_cons.mpr ⟨hfirst, hnodup⟩
    · intro v hv
      rcases List.mem_cons.mp hv with rfl | hv
      · exact List.mem_cons_self
      · exact List.mem_cons_of_mem _ (hlogged v hv)
  | gathered hstage =>
    rw [hstage] at hsound hlogged
    obtain ⟨rfl, hasked, hstarted, hnodup⟩ := hsound
    refine ⟨⟨?_, ?_⟩, ?_⟩
    · exact fun v hv => mem_stillToDo.mp ((mem_gather hnodup).mp hv).2
    · exact (gather_agents _ _).nodup (stillToDo_nodup _ _)
    · exact fun v hv => hlogged v ((mem_gather hnodup).mp hv).1
  | saves hstage =>
    rw [hstage] at hsound hlogged
    obtain ⟨hunsaved, hnodup⟩ := hsound
    obtain ⟨hother, hrest⟩ := List.nodup_cons.mp hnodup
    refine ⟨⟨?_, hrest⟩, fun u hu => hlogged u (List.mem_cons_of_mem _ hu)⟩
    intro u hu hdone
    rcases (mem_completedAgents_saveVerdict reviewId).mp hdone with ⟨hagent, -⟩ | ⟨-, hdone⟩
    · exact hother (hagent ▸ List.mem_map_of_mem hu)
    · exact hunsaved u (List.mem_cons_of_mem _ hu) hdone
  | breaks | ends | stops => exact ⟨trivial, by simp [Stage.pending]⟩

theorem Consistent.run {s : Progress} (h : Consistent reviewId s) (events : List PanelEvent) :
    Consistent reviewId (Runs.run (Progress.step reviewId) s events) :=
  Runs.run_keeps (I := Consistent reviewId) (fun _ event h => h.step event) h events

theorem Kept.step {s : Progress} {event : PanelEvent} (hs : Consistent reviewId s)
    (h : Kept reviewId s) (hspared : s.Spared event) : Kept reviewId (s.step reviewId event) := by
  have hmove := step_move reviewId s event
  generalize s.step reviewId event = t at hmove ⊢
  intro a ha
  cases hmove with
  | stay => exact h a ha
  | begin hstage => simpa [hstage, Stage.pending] using h a ha
  | start hstage =>
    have hbefore := h a (by simpa using ha)
    simpa [hstage, Stage.pending] using hbefore
  | @returns v _ _ returned hstage =>
    rcases List.mem_cons.mp ha with heq | ha
    · obtain ⟨rfl, hok⟩ := Happening.returned.inj heq
      exact .inr ⟨v, List.mem_cons_self, rfl, hok.symm⟩
    · rcases h a ha with hdone | ⟨u, hu, hown⟩
      · exact .inl hdone
      · rw [hstage] at hu
        exact .inr ⟨u, List.mem_cons_of_mem v hu, hown⟩
  | gathered hstage =>
    rcases h a ha with hdone | ⟨u, hu, hown⟩
    · exact .inl hdone
    · have hsound := hs.sound
      rw [hstage] at hu hsound
      obtain ⟨-, hasked, hstarted, hnodup⟩ := hsound
      exact .inr ⟨u, (mem_gather hnodup).mpr ⟨hu, hasked _ (hstarted u hu)⟩, hown⟩
  | @saves v rest hstage =>
    simp only [mem_completedAgents_saveVerdict]
    have hunsaved := hs.pending_unsaved (v := v) (by rw [hstage]; exact List.mem_cons_self)
    rcases h a ha with hdone | ⟨u, hu, rfl, hok⟩
    · exact .inl (.inr ⟨fun heq => hunsaved (heq ▸ hdone), hdone⟩)
    · rw [hstage] at hu
      rcases List.mem_cons.mp hu with rfl | hu
      · exact .inl (.inl ⟨rfl, hok⟩)
      · exact .inr ⟨u, hu, rfl, hok⟩
  | @breaks v rest fate hstage hfate =>
    have hunsaved := hs.pending_unsaved (v := v) (by rw [hstage]; exact List.mem_cons_self)
    simp only [Spared, dropped, hstage, if_neg hfate] at hspared
    rcases h a ha with hdone | ⟨u, hu, rfl, hok⟩
    · left
      split
      · exact (mem_completedAgents_saveVerdict reviewId).mpr
          (.inr ⟨fun heq => hunsaved (heq ▸ hdone), hdone⟩)
      · exact hdone
    · left
      rw [hstage] at hu
      split at hspared
      · rename_i happlied
        rcases List.mem_cons.mp hu with rfl | hu
        · rw [if_pos happlied]
          exact (mem_completedAgents_saveVerdict reviewId).mpr (.inl ⟨rfl, hok⟩)
        · rw [hspared u hu] at hok
          cases hok
      · rw [hspared u hu] at hok
        cases hok
  | ends hstage => simpa [hstage, Stage.pending] using h a ha
  | stops =>
    rcases h a ha with hdone | ⟨u, hu, -, hok⟩
    · exact .inl hdone
    · rw [hspared u hu] at hok
      cases hok

theorem NoRerun.step {s : Progress} (hs : Consistent reviewId s) (hkept : Kept reviewId s)
    (h : NoRerun s.log) (event : PanelEvent) : NoRerun (s.step reviewId event).log := by
  have hmove := step_move reviewId s event
  generalize s.step reviewId event = t at hmove ⊢
  cases hmove with
  | @start a todo started returned hstage htodo hnew =>
    have hsound := hs.sound
    rw [hstage] at hsound
    obtain ⟨rfl, -, hstarted, -⟩ := hsound
    refine List.pairwise_cons.mpr ⟨?_, h⟩
    rintro _ hlogged b rfl heq
    obtain rfl := Happening.started.inj heq
    rcases hkept a hlogged with hdone | ⟨v, hv, rfl, -⟩
    · exact mem_stillToDo.mp htodo hdone
    · rw [hstage] at hv
      exact hnew (hstarted v hv)
  | returns => exact List.pairwise_cons.mpr ⟨fun _ _ _ _ => Happening.noConfusion, h⟩
  | stay | begin | gathered | saves | breaks | ends | stops => exact h

section Undisturbed
variable (reviewId) (w : World) (todo : List AgentType)

theorem run_starts (agents started : List AgentType) (returned : List AgentVerdict)
    (log : List Happening) (htodo : ∀ a ∈ agents, a ∈ todo)
    (hdisjoint : ∀ a ∈ agents, a ∉ started) (hnodup : agents.Nodup) : ∃ log',
    Runs.run (Progress.step reviewId) ⟨w, .panel todo started returned, log⟩
      (agents.map .start) = ⟨w, .panel todo (agents.reverse ++ started) returned, log'⟩ := by
  induction agents generalizing started log with
  | nil => exact ⟨log, rfl⟩
  | cons a agents ih =>
    obtain ⟨hnew, hnodup⟩ := List.nodup_cons.mp hnodup
    have hstep : Progress.step reviewId ⟨w, .panel todo started returned, log⟩ (.start a) =
        ⟨w, .panel todo (a :: started) returned, .started a :: log⟩ :=
      if_pos ⟨htodo a List.mem_cons_self, hdisjoint a List.mem_cons_self⟩
    have hothers : ∀ b ∈ agents, b ∉ a :: started := by
      intro b hb
      rw [List.mem_cons, not_or]
      exact ⟨fun heq => hnew (heq ▸ hb), hdisjoint b (List.mem_cons_of_mem a hb)⟩
    rw [List.map_cons, Runs.run_cons, hstep, List.reverse_cons, List.append_assoc,
      List.singleton_append]
    exact ih (a :: started) _ (fun b hb => htodo b (List.mem_cons_of_mem a hb)) hothers hnodup

theorem run_returns (verdicts returned : List AgentVerdict) (started : List AgentType)
    (log : List Happening) (hstarted : ∀ v ∈ verdicts, v.agent ∈ started)
    (hdisjoint : ∀ v ∈ verdicts, v.agent ∉ returned.map AgentVerdict.agent)
    (hnodup : (verdicts.map AgentVerdict.agent).Nodup) : ∃ log',
    Runs.run (Progress.step reviewId) ⟨w, .panel todo started returned, log⟩
      (verdicts.map .returns) = ⟨w, .panel todo started (verdicts.reverse ++ returned), log'⟩ := by
  induction verdicts generalizing returned log with
  | nil => exact ⟨log, rfl⟩
  | cons v verdicts ih =>
    obtain ⟨hnew, hnodup⟩ := List.nodup_cons.mp hnodup
    have hstep : Progress.step reviewId ⟨w, .panel todo started returned, log⟩ (.returns v) =
        ⟨w, .panel todo started (v :: returned), .returned v.agent v.ok :: log⟩ :=
      if_pos ⟨hstarted v List.mem_cons_self, hdisjoint v List.mem_cons_self⟩
    have hothers : ∀ u ∈ verdicts, u.agent ∉ (v :: returned).map AgentVerdict.agent := by
      intro u hu
      rw [List.map_cons, List.mem_cons, not_or]
      exact ⟨fun heq => hnew (heq ▸ List.mem_map_of_mem hu),
        hdisjoint u (List.mem_cons_of_mem v hu)⟩
    rw [List.map_cons, Runs.run_cons, hstep, List.reverse_cons, List.append_assoc,
      List.singleton_append]
    exact ih (v :: returned) _ (fun u hu => hstarted u (List.mem_cons_of_mem v hu)) hothers hnodup

theorem run_saves (verdicts : List AgentVerdict) (log : List Happening) :
    (Runs.run (Progress.step reviewId) ⟨w, .saving verdicts, log⟩
      (verdicts.map fun _ => .save .returns)).world = saveAll reviewId verdicts w := by
  induction verdicts generalizing w with
  | nil => rfl
  | cons v verdicts ih => exact ih (w.saveVerdict reviewId v)

theorem attempt_undisturbed (log : List Happening) (verdicts order : List AgentVerdict)
    (hreply : verdicts.map AgentVerdict.agent = stillToDo reviewId w)
    (horder : order.Perm verdicts) :
    (Runs.run (Progress.step reviewId) ⟨w, .idle, log⟩
      (.begin :: (stillToDo reviewId w).map .start ++ order.map .returns ++ .gathered ::
        verdicts.map fun _ => .save .returns)).world = saveAll reviewId verdicts w := by
  have htodo := stillToDo_nodup reviewId w
  have hagents : (order.map AgentVerdict.agent).Perm (stillToDo reviewId w) :=
    hreply ▸ horder.map AgentVerdict.agent
  obtain ⟨log₁, hstarts⟩ := run_starts reviewId w (stillToDo reviewId w) (stillToDo reviewId w)
    [] [] log (fun _ ha => ha) (by simp) htodo
  obtain ⟨log₂, hreturns⟩ := run_returns reviewId w (stillToDo reviewId w) order []
    ((stillToDo reviewId w).reverse ++ []) log₁
    (fun v hv => by simpa using hagents.subset (List.mem_map_of_mem hv)) (by simp)
    (hagents.nodup_iff.mpr htodo)
  have hgather : gather (stillToDo reviewId w) (order.reverse ++ []) = verdicts := by
    rw [← hreply, List.append_nil]
    exact gather_perm (hreply ▸ htodo) ((List.reverse_perm order).trans horder)
  have hcomplete : ∀ a ∈ stillToDo reviewId w,
      a ∈ (order.reverse ++ []).map AgentVerdict.agent := by
    intro a ha
    simpa using hagents.mem_iff.mpr ha
  rw [Runs.run_append, Runs.run_append, Runs.run_cons]
  simp only [step, hstarts, hreturns, Runs.run_cons, if_pos hcomplete, hgather]
  exact run_saves reviewId w verdicts log₂

end Undisturbed

theorem dropped_asked_again {s : Progress} (hs : Consistent reviewId s) {event : PanelEvent}
    {v : AgentVerdict} (hv : v ∈ s.dropped event) :
    (s.step reviewId event).stage = .idle ∧ (s.step reviewId event).log = s.log ∧
      .returned v.agent v.ok ∈ s.log ∧ v.agent ∈ stillToDo reviewId (s.step reviewId event).world := by
  unfold dropped at hv
  split at hv
  · exact ⟨rfl, rfl, hs.logged v hv, mem_stillToDo.mpr (hs.pending_unsaved hv)⟩
  · rename_i fate rest hstage
    split_ifs at hv with hreturns happlied
    · simp at hv
    · cases rest with
      | nil => simp at hv
      | cons u rest =>
        have hpending : v ∈ s.stage.pending := by
          rw [hstage]
          exact List.mem_cons_of_mem u hv
        simp only [step, hstage, if_neg hreturns, if_pos happlied]
        refine ⟨trivial, trivial, hs.logged v hpending, mem_stillToDo.mpr fun hdone => ?_⟩
        rcases (mem_completedAgents_saveVerdict reviewId).mp hdone with ⟨hagent, -⟩ | ⟨-, hdone⟩
        · have hsound := hs.sound
          rw [hstage] at hsound
          exact (List.nodup_cons.mp hsound.2).1 (hagent ▸ List.mem_map_of_mem hv)
        · exact hs.pending_unsaved hpending hdone
    · have hpending : v ∈ s.stage.pending := by
        rw [hstage]
        exact hv
      cases rest with
      | nil => simp at hv
      | cons u rest =>
        simp only [step, hstage, if_neg hreturns, if_neg happlied]
        exact ⟨trivial, trivial, hs.logged v hpending,
          mem_stillToDo.mpr (hs.pending_unsaved hpending)⟩
  · simp at hv

theorem log_restart {s : Progress} {a : AgentType} (hstage : s.stage = .idle)
    (htodo : a ∈ stillToDo reviewId s.world) :
    (Runs.run (Progress.step reviewId) s [.begin, .start a]).log = .started a :: s.log := by
  simp [Runs.run, step, hstage, htodo]

theorem rerun_of_dropped {s : Progress} (hs : Consistent reviewId s) {event : PanelEvent}
    {v : AgentVerdict} (hv : v ∈ s.dropped event) (hok : v.ok = true) :
    ¬ NoRerun (Runs.run (Progress.step reviewId) s [event, .begin, .start v.agent]).log := by
  obtain ⟨hstage, hlog, hreturned, htodo⟩ := dropped_asked_again hs hv
  have hrestart : (Runs.run (Progress.step reviewId) s [event, .begin, .start v.agent]).log =
      .started v.agent :: s.log := by
    rw [← hlog]
    exact log_restart hstage htodo
  rw [hrestart]
  intro hclean
  rw [hok] at hreturned
  exact (List.pairwise_cons.mp hclean).1 _ hreturned v.agent rfl rfl

theorem no_rerun_of_throughout {s : Progress} (hs : Consistent reviewId s) (hkept : Kept reviewId s)
    (hclean : NoRerun s.log) {events : List PanelEvent}
    (hspared : Runs.Throughout (Progress.step reviewId) Spared s events) :
    NoRerun (Runs.run (Progress.step reviewId) s events).log := by
  have hall := hspared.run_keeps (I := fun s => Consistent reviewId s ∧ Kept reviewId s ∧ NoRerun s.log)
    (fun s event hevent h => ⟨h.1.step event, h.2.1.step h.1 hevent, h.2.2.step h.1 h.2.1 event⟩)
    ⟨hs, hkept, hclean⟩
  exact hall.2.2

variable (reviewId)

/-- A review whose attempts drop no OK verdict never asks an agent again that gave
one, and the first event to drop one makes the next attempt do so. -/
theorem no_rerun_iff (w : World) (before : List PanelEvent)
    (hspared : Runs.Throughout (Progress.step reviewId) Spared { world := w } before) :
    NoRerun (Runs.run (Progress.step reviewId) { world := w } before).log ∧
    ∀ event, (Runs.run (Progress.step reviewId) { world := w } before).Spared event ↔
      ∀ a, NoRerun (Runs.run (Progress.step reviewId) { world := w }
        (before ++ [event, .begin, .start a])).log := by
  have hstart : Consistent reviewId { world := w } := ⟨trivial, by simp [Stage.pending]⟩
  have hkept : Kept reviewId { world := w } := by simp [Kept]
  have hempty : NoRerun ({ world := w } : Progress).log := .nil
  refine ⟨no_rerun_of_throughout hstart hkept hempty hspared, fun event => ⟨fun hevent a => ?_, ?_⟩⟩
  · apply no_rerun_of_throughout hstart hkept hempty
    refine Runs.throughout_append.mpr ⟨hspared, hevent, ?_, ?_, trivial⟩ <;> simp [Spared, dropped]
  · intro hclean v hv
    by_contra hok
    rw [Bool.not_eq_false] at hok
    have hnext := hclean v.agent
    rw [Runs.run_append] at hnext
    exact rerun_of_dropped (hstart.run before) hv hok hnext

/-- Two of the four have answered when the process dies: the first is asked again. -/
theorem rerun_after_crash : ¬ ∀ events, NoRerun (Runs.run (Progress.step 0) {} events).log := by
  intro hclean
  have hlog : ∃ events, (Runs.run (Progress.step 0) {} events).log =
      [.started .security, .returned .correctness true, .returned .security true, .started .docs,
        .started .correctness, .started .tests, .started .security] :=
    ⟨[.begin, .start .security, .start .tests, .start .correctness, .start .docs,
      .returns { agent := .security }, .returns { agent := .correctness }, .stop, .begin,
      .start .security], by decide +kernel⟩
  obtain ⟨events, hlog⟩ := hlog
  have hrun := hclean events
  rw [hlog] at hrun
  exact (List.pairwise_cons.mp hrun).1 (.returned .security true) (by simp) .security rfl rfl

/-- All four answer, one of them with a failure, and the process dies over its row. -/
theorem no_rerun_resumed :
    let failed : AgentVerdict := { agent := .docs, status := .failed }
    let before : List PanelEvent := [.begin, .start .security, .start .correctness, .start .tests,
      .start .docs, .returns failed, .returns { agent := .tests },
      .returns { agent := .security }, .returns { agent := .correctness }, .gathered,
      .save .returns, .save .returns, .save .returns, .save (.crashes false), .begin,
      .start .docs]
    (Runs.run (Progress.step 0) {} before).world.completedAgents 0 =
      [.security, .correctness, .tests] ∧
    NoRerun (Runs.run (Progress.step 0) {} before).log := by
  intro failed before
  refine ⟨by decide +kernel, (no_rerun_iff 0 {} before ?_).1⟩
  decide +kernel

end Progress
end PrSentinel
