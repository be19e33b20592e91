import Mathlib.Data.List.Basic
import Mathlib.Logic.Function.Basic
import PrSentinel.Runs

/-!
The event spine under concurrent tasks. All of them push to and pop from one
stack of open spans; a row is made up before its write is awaited, so that an
event is one step.
-/

set_option autoImplicit false

namespace PrSentinel

abbrev TaskId := ℕ
abbrev SpanId := ℕ

structure EventRow where
  kind : String
  name : String
  spanId : Option SpanId
  parentSpanId : Option SpanId := none
  agent : Option String := none
  status : Option String := none
  deriving DecidableEq, Repr

structure Span where
  spanId : SpanId
  name : String
  agent : Option String := none
  deriving DecidableEq, Repr

/-- A span that a task has entered and not left, with the `parent` that the
context manager keeps for the second row. -/
structure Frame where
  task : TaskId
  span : Span
  parent : Option SpanId
  deriving DecidableEq, Repr

inductive TraceEntry where
  | llmCall (name : String) (agent : Option String) (status : String)
  | decision (name : String)
  | retrieval (name : String)
  | error (name : String)
  deriving DecidableEq, Repr

def TraceEntry.row (current : Option SpanId) : TraceEntry → EventRow
  | .llmCall name agent status =>
    { kind := "llm_call", name, spanId := current, agent, status := some status }
  | .decision name => { kind := "decision", name, spanId := current, status := some "ok" }
  | .retrieval name => { kind := "retrieval", name, spanId := current, status := some "ok" }
  | .error name => { kind := "error", name, spanId := current, status := some "error" }

theorem TraceEntry.row_spanId (entry : TraceEntry) (current : Option SpanId) :
    (entry.row current).spanId = current := by
  cases entry <;> rfl

def Frame.startRow (f : Frame) : EventRow where
  kind := "span_start"
  name := f.span.name
  spanId := some f.span.spanId
  parentSpanId := f.parent
  agent := f.span.agent

def Frame.endRow (f : Frame) (raised : Bool) : EventRow where
  kind := "span_end"
  name := f.span.name
  spanId := some f.span.spanId
  parentSpanId := f.parent
  agent := f.span.agent
  status := some (if raised then "error" else "ok")

inductive SpineEvent where
  | spawn (task child : TaskId)
  | enter (task : TaskId) (name : String) (agent : Option String)
  | exit (task : TaskId) (raised : Bool)
  | write (task : TaskId) (entry : TraceEntry)
  deriving DecidableEq, Repr

/-- The spine's `_stack`, top first, and around it what the tasks are in the middle
of: the spans not yet left, newest first, and the span each task was spawned in. -/
structure EventSpine where
  stack : List SpanId := []
  frames : List Frame := []
  spawnedIn : TaskId → Option SpanId := fun _ => none
  fresh : SpanId := 0
  rows : List EventRow := []

namespace EventSpine

def frameOf (s : EventSpine) (task : TaskId) : Option Frame :=
  s.frames.find? (fun f => f.task = task)

/-- The innermost span open in the task, or the one it was spawned in. -/
def innermost (s : EventSpine) (task : TaskId) : Option SpanId :=
  ((s.frameOf task).map fun f => f.span.spanId).or (s.spawnedIn task)

/-- The span entered last, by any task, of those still open. -/
def newest (s : EventSpine) : Option SpanId := s.frames.head?.map fun f => f.span.spanId

def stepWith (current : EventSpine → TaskId → Option SpanId) (s : EventSpine) :
    SpineEvent → EventSpine
  | .spawn task child =>
    { s with spawnedIn := Function.update s.spawnedIn child (s.innermost task) }
  | .enter task name agent =>
    let frame : Frame := ⟨task, ⟨s.fresh, name, agent⟩, current s task⟩
    { s with
      stack := s.fresh :: s.stack
      frames := frame :: s.frames
      fresh := s.fresh + 1
      rows := frame.startRow :: s.rows }
  | .exit task raised =>
    match s.frameOf task with
    | none => s
    | some frame =>
      { s with
        stack := s.stack.tail
        frames := s.frames.eraseP (fun f => f.task = task)
        rows := frame.endRow raised :: s.rows }
  | .write task entry => { s with rows := entry.row (current s task) :: s.rows }

def step : EventSpine → SpineEvent → EventSpine := stepWith fun s _ => s.stack.head?

/-- What a trace is for: every task has a context of its own. -/
def ownStep : EventSpine → SpineEvent → EventSpine := stepWith innermost

/-- The rows written are those that each task's own context calls for. -/
def Attributed (events : List SpineEvent) : Prop :=
  (Runs.run step {} events).rows = (Runs.run ownStep {} events).rows

instance (events : List SpineEvent) : Decidable (Attributed events) :=
  inferInstanceAs (Decidable (_ = _))

/-- The task that acts is the one that entered the newest open span, or has none of
its own open and was spawned in that one; it leaves no span but the newest. -/
def InTurn (s : EventSpine) : SpineEvent → Prop
  | .spawn _ _ => True
  | .enter task _ _ | .write task _ => s.innermost task = s.newest
  | .exit task _ => s.frameOf task = none ∨ s.frameOf task = s.frames.head?

instance (s : EventSpine) : ∀ event, Decidable (s.InTurn event)
  | .spawn _ _ => .isTrue trivial
  | .enter task _ _ | .write task _ => inferInstanceAs (Decidable (s.innermost task = s.newest))
  | .exit task _ =>
    inferInstanceAs (Decidable (s.frameOf task = none ∨ s.frameOf task = s.frames.head?))

structure Nested (s : EventSpine) : Prop where
  stack : s.stack = s.frames.map fun f => f.span.spanId
  older : s.frames.Pairwise fun f g => g.span.spanId < f.span.spanId
  used : ∀ f ∈ s.frames, f.span.spanId < s.fresh

variable {s : EventSpine}

theorem Nested.top (hs : Nested s) : s.stack.head? = s.newest := by
  rw [hs.stack, List.head?_map, newest]

theorem frameOf_some {task : TaskId} {f : Frame} (h : s.frameOf task = some f) :
    f ∈ s.frames ∧ f.task = task :=
  ⟨List.mem_of_find?_eq_some h, by simpa using List.find?_some h⟩

theorem Nested.step_eq (hs : Nested s) {event : SpineEvent} (h : s.InTurn event) :
    s.step event = s.ownStep event := by
  cases event with
  | spawn task child => rfl
  | enter task name agent | write task entry =>
    simp only [step, ownStep, stepWith, hs.top]
    rw [show s.innermost task = s.newest from h]
  | exit task raised => rfl

theorem Nested.step (hs : Nested s) {event : SpineEvent} (h : s.InTurn event) :
    Nested (s.step event) := by
  obtain ⟨hstack, holder, hused⟩ := hs
  cases event with
  | spawn task child | write task entry => exact ⟨hstack, holder, hused⟩
  | enter task name agent =>
    refine ⟨by simp [EventSpine.step, stepWith, hstack], ?_, ?_⟩
    · exact List.pairwise_cons.mpr ⟨hused, holder⟩
    · intro f hf
      rcases List.mem_cons.mp hf with rfl | hf
      · exact Nat.lt_succ_self s.fresh
      · exact Nat.lt_succ_of_lt (hused f hf)
  | exit task raised =>
    cases hframe : s.frameOf task with
    | none =>
      simp only [EventSpine.step, stepWith, hframe]
      exact ⟨hstack, holder, hused⟩
    | some f =>
      have hhead : s.frames.head? = some f := by
        rcases h with hnone | hnewest
        · rw [hframe] at hnone
          cases hnone
        · rw [← hnewest, hframe]
      obtain ⟨rest, hframes⟩ := List.head?_eq_some_iff.mp hhead
      have htask : f.task = task := (frameOf_some hframe).2
      have herase : s.frames.eraseP (fun g => g.task = task) = rest := by
        rw [hframes, List.eraseP_cons_of_pos (by simpa using htask)]
      simp only [EventSpine.step, stepWith, hframe, herase]
      rw [hframes] at hstack holder hused
      exact ⟨by simp [hstack], (List.pairwise_cons.mp holder).2,
        fun g hg => hused g (List.mem_cons_of_mem f hg)⟩

theorem Nested.run (hs : Nested s) {events : List SpineEvent}
    (h : Runs.Throughout EventSpine.step InTurn s events) :
    Nested (Runs.run EventSpine.step s events) ∧
      Runs.run EventSpine.step s events = Runs.run ownStep s events := by
  induction events generalizing s with
  | nil => exact ⟨hs, rfl⟩
  | cons event events ih =>
    rw [Runs.run_cons, Runs.run_cons, ← hs.step_eq h.1]
    exact ih (hs.step h.1) h.2

theorem innermost_of_head {f : Frame} (h : s.frames.head? = some f) :
    s.innermost f.task = some f.span.spanId ∧ s.newest = some f.span.spanId := by
  obtain ⟨rest, hframes⟩ := List.head?_eq_some_iff.mp h
  simp [innermost, frameOf, newest, hframes]

theorem Nested.inTurn_of_rows (hs : Nested s) {event : SpineEvent}
    (hrow : (s.step event).rows = (s.ownStep event).rows)
    (hnext : ∀ f entry, (s.step event).frames.head? = some f →
      ((s.step event).step (.write f.task entry)).rows =
        ((s.ownStep event).ownStep (.write f.task entry)).rows) : s.InTurn event := by
  cases event with
  | spawn task child => trivial
  | enter task name agent =>
    have hparent : s.stack.head? = s.innermost task :=
      congrArg EventRow.parentSpanId (List.cons.inj hrow).1
    exact hparent.symm.trans hs.top
  | write task entry =>
    have hspan := congrArg EventRow.spanId (List.cons.inj hrow).1
    rw [entry.row_spanId, entry.row_spanId] at hspan
    exact hspan.symm.trans hs.top
  | exit task raised =>
    cases hframe : s.frameOf task with
    | none => exact .inl hframe
    | some f =>
      by_contra hturn
      have hmem := (frameOf_some hframe).1
      cases hframes : s.frames with
      | nil => simp [hframes] at hmem
      | cons g rest =>
        -- the newest span `g` stays open, but it is what the exit took off the stack
        have htask : g.task ≠ task := by
          intro htask
          refine hturn (.inr ?_)
          simp [frameOf, hframes, htask]
        have hhead : (s.step (.exit task raised)).frames.head? = some g := by
          simp [EventSpine.step, stepWith, hframe, hframes, htask]
        have hwrong := hnext g (.decision "") hhead
        have hspan := congrArg EventRow.spanId (List.cons.inj hwrong).1
        have hown : (s.ownStep (.exit task raised)).innermost g.task = some g.span.spanId :=
          (innermost_of_head hhead).1
        rw [TraceEntry.row_spanId, TraceEntry.row_spanId, hown] at hspan
        have holder := hs.older
        have hstack := hs.stack
        rw [hframes] at holder hstack
        simp only [EventSpine.step, stepWith, hframe, hstack, List.map_cons, List.tail_cons,
          List.head?_map, Option.map_eq_some_iff] at hspan
        obtain ⟨u, hu, heq⟩ := hspan
        have hlt := (List.pairwise_cons.mp holder).1 u (List.mem_of_head? hu)
        exact absurd heq (Nat.ne_of_lt hlt)

/-- While tasks act in turn every row is attributed as their own contexts say, and the
first event out of turn spoils its own row or the next one inside the newest span. -/
theorem attributed_iff (before : List SpineEvent)
    (h : Runs.Throughout EventSpine.step InTurn {} before) :
    Attributed before ∧ ∀ event, (Runs.run EventSpine.step {} before).InTurn event ↔
      Attributed (before ++ [event]) ∧ ∀ f entry,
        (Runs.run EventSpine.step {} (before ++ [event])).frames.head? = some f →
        Attributed (before ++ [event, .write f.task entry]) := by
  have hstart : Nested {} := ⟨rfl, .nil, by simp⟩
  obtain ⟨hs, hrun⟩ := hstart.run h
  refine ⟨congrArg rows hrun, fun event => ?_⟩
  simp only [Attributed, Runs.run_append, ← hrun]
  constructor
  · intro hturn
    have heq := hs.step_eq hturn
    refine ⟨congrArg rows heq, fun f entry hhead => ?_⟩
    have hwrite : ((Runs.run EventSpine.step {} before).step event).InTurn (.write f.task entry) := by
      obtain ⟨hown, hnewest⟩ := innermost_of_head hhead
      exact hown.trans hnewest.symm
    have hlast := (hs.step hturn).step_eq hwrite
    simp only [Runs.run_cons, ← heq]
    exact congrArg rows hlast
  · intro hrows
    exact hs.inTurn_of_rows hrows.1 hrows.2

/-- Two agents at work in one fan-out: the second one's span gets the first one's for a
parent, and the first one's call is booked on the second. -/
theorem misattributed : ¬ ∀ events, Attributed events := by
  intro h
  have hrun := h [.enter 0 "panel.fan_out" none, .spawn 0 1, .spawn 0 2,
    .enter 1 "agent.security" (some "security"), .enter 2 "agent.tests" (some "tests"),
    .write 1 (.llmCall "agent.security" (some "security") "ok")]
  revert hrun
  decide

/-- The same two agents, one after the other. -/
theorem attributed_in_turn :
    let events : List SpineEvent := [.enter 0 "panel.fan_out" none, .spawn 0 1, .spawn 0 2,
      .enter 1 "agent.security" (some "security"),
      .write 1 (.llmCall "agent.security" (some "security") "ok"), .exit 1 false,
      .enter 2 "agent.tests" (some "tests"), .write 2 (.error "agent.tests.failed"), .exit 2 false,
      .exit 0 false, .write 0 (.decision "gate.decided")]
    Runs.Throughout EventSpine.step InTurn {} events ∧ Attributed events := by
  intro events
  have hturn : Runs.Throughout EventSpine.step InTurn {} events := by decide
  exact ⟨hturn, (attributed_iff events hturn).1⟩

end EventSpine
end PrSentinel
