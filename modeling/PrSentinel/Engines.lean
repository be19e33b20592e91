import PrSentinel.Gate
import PrSentinel.Specialist

/-!
Three engines behind one interface: fan the panel out, fan the verdicts in. What
becomes of an agent's run is given; what an engine makes of it is not.
-/

set_option autoImplicit false

namespace PrSentinel
open Python

structure Raised where
  exception : String
  message : String
  deriving DecidableEq, Repr

/-- What `run` came to for this agent: a verdict of its own, or an exception. -/
structure AgentRun (agent : AgentType) where
  result : Except Raised AgentVerdict
  own : ∀ v, result = .ok v → v.agent = agent

def crashedVerdict (agent : AgentType) (e : Raised) : AgentVerdict where
  agent := agent
  status := .failed
  error := some (e.exception ++ ": " ++ e.message)

section Engines
variable (outcome : ∀ a, AgentRun a) (agents : List AgentType)

/-- One agent's place in the fan-in of the local engine, or in a node of the graph. -/
def standIn (agent : AgentType) : AgentVerdict :=
  match (outcome agent).result with
  | .ok verdict => verdict
  | .error e => crashedVerdict agent e

def LocalEngine.runPanel : List AgentVerdict := agents.map (standIn outcome)

/-- The graph library: one run of the node for every `Send`, and a reducer that
concatenates what the runs return, in an order of its own. -/
class LangGraph where
  ainvoke : (String → Except Raised (List AgentVerdict)) → List String →
    Except Raised (List AgentVerdict)
  reduce : ∀ node sends outs, (∀ name ∈ sends, node name = .ok (outs name)) →
    ∃ order, List.Perm order sends ∧ ainvoke node sends = .ok (order.flatMap outs)

def specialist (name : String) : Except Raised (List AgentVerdict) :=
  match AgentType.ofValue? name with
  | some agent => .ok [standIn outcome agent]
  | none => .error ⟨"ValueError", "'" ++ name ++ "' is not a valid AgentType"⟩

def LangGraphEngine.runPanel [LangGraph] : Except Raised (List AgentVerdict) := do
  let verdicts ← LangGraph.ainvoke (specialist outcome) (agents.map AgentType.value)
  let missing := agents.filter (fun a => a ∉ verdicts.map AgentVerdict.agent)
  pure (verdicts ++ missing.map fun a =>
    { agent := a, status := .failed, error := some "no verdict returned" })

/-- The verdict of a crashed agent takes its status from the default. -/
def TemporalEngine.runPanel : List AgentVerdict :=
  agents.map fun a =>
    match (outcome a).result with
    | .ok verdict => verdict
    | .error e => { agent := a, findings := [], error := some e.message, costUsd := 0, durationMs := 0 }

inductive Engine where
  | local | langgraph | temporal
  deriving DecidableEq, Repr

def Engine.runPanel [LangGraph] : Engine → Except Raised (List AgentVerdict)
  | .local => .ok (LocalEngine.runPanel outcome agents)
  | .langgraph => LangGraphEngine.runPanel outcome agents
  | .temporal => .ok (TemporalEngine.runPanel outcome agents)

/-- One verdict for every agent asked: its own if it returned one, else one that is not ok. -/
structure Represents (verdicts : List AgentVerdict) : Prop where
  agents : (verdicts.map AgentVerdict.agent).Perm agents
  returned : ∀ v ∈ verdicts, ∀ own, (outcome v.agent).result = .ok own → v = own
  raised : ∀ v ∈ verdicts, ∀ e, (outcome v.agent).result = .error e → v.ok = false

variable {outcome agents}

theorem standIn_of_ok {a : AgentType} {v : AgentVerdict} (h : (outcome a).result = .ok v) :
    standIn outcome a = v := by simp [standIn, h]

theorem standIn_of_error {a : AgentType} {e : Raised} (h : (outcome a).result = .error e) :
    standIn outcome a = crashedVerdict a e := by simp [standIn, h]

@[simp] theorem standIn_agent (a : AgentType) : (standIn outcome a).agent = a := by
  cases h : (outcome a).result with
  | ok v => rw [standIn_of_ok h, (outcome a).own v h]
  | error e => rw [standIn_of_error h]; rfl

theorem represents_of_perm {verdicts : List AgentVerdict}
    (h : verdicts.Perm (agents.map (standIn outcome))) : Represents outcome agents verdicts := by
  constructor
  · have hagents := h.map AgentVerdict.agent
    rw [List.map_map] at hagents
    exact hagents.trans (.of_eq (List.map_id'' standIn_agent agents))
  · intro v hv own hown
    obtain ⟨a, _, rfl⟩ := List.mem_map.mp (h.mem_iff.mp hv)
    rw [standIn_agent] at hown
    exact standIn_of_ok hown
  · intro v hv e he
    obtain ⟨a, _, rfl⟩ := List.mem_map.mp (h.mem_iff.mp hv)
    rw [standIn_agent] at he
    rw [standIn_of_error he]
    rfl

def nodeVerdicts (outcome : ∀ a, AgentRun a) (name : String) : List AgentVerdict :=
  ((AgentType.ofValue? name).map (standIn outcome)).toList

theorem specialist_value (a : AgentType) :
    specialist outcome a.value = .ok (nodeVerdicts outcome a.value) := by
  simp [specialist, nodeVerdicts]

theorem flatMap_nodeVerdicts :
    (agents.map AgentType.value).flatMap (nodeVerdicts outcome) = agents.map (standIn outcome) := by
  induction agents with
  | nil => rfl
  | cons a as ih => simp [nodeVerdicts, ← ih]

theorem langGraph_represents [LangGraph] : ∃ verdicts,
    LangGraphEngine.runPanel outcome agents = .ok verdicts ∧ Represents outcome agents verdicts := by
  obtain ⟨order, horder, hinvoke⟩ := LangGraph.reduce (specialist outcome)
    (agents.map AgentType.value) (nodeVerdicts outcome) fun name hname => by
      obtain ⟨a, _, rfl⟩ := List.mem_map.mp hname
      exact specialist_value a
  have hperm : (order.flatMap (nodeVerdicts outcome)).Perm (agents.map (standIn outcome)) :=
    flatMap_nodeVerdicts ▸ horder.flatMap_right (nodeVerdicts outcome)
  have hrep := represents_of_perm hperm
  have hmissing : agents.filter
      (fun a => a ∉ (order.flatMap (nodeVerdicts outcome)).map AgentVerdict.agent) = [] := by
    refine List.filter_eq_nil_iff.mpr fun a ha => ?_
    have hin := hrep.agents.mem_iff.mpr ha
    simp only [hin, not_true_eq_false, decide_false, Bool.false_eq_true, not_false_eq_true]
  refine ⟨order.flatMap (nodeVerdicts outcome), ?_, hrep⟩
  simp only [LangGraphEngine.runPanel, hinvoke, bind, Except.bind, pure, Except.pure, hmissing,
    List.map_nil, List.append_nil]

theorem temporal_represents_iff : Represents outcome agents (TemporalEngine.runPanel outcome agents) ↔
    ∀ a ∈ agents, ∃ v, (outcome a).result = .ok v := by
  constructor
  · intro h a ha
    cases hrun : (outcome a).result with
    | ok v => exact ⟨v, rfl⟩
    | error e =>
      let v : AgentVerdict := { agent := a, error := some e.message }
      have hv : v ∈ TemporalEngine.runPanel outcome agents :=
        List.mem_map.mpr ⟨a, ha, by simp [hrun, v]⟩
      cases h.raised v hv e hrun
  · intro h
    refine represents_of_perm (.of_eq (List.map_congr_left fun a ha => ?_))
    obtain ⟨v, hv⟩ := h a ha
    simp [hv, standIn_of_ok hv]

end Engines

@[reducible] def inOrder : LangGraph where
  ainvoke node sends := (sends.mapM node).map List.flatten
  reduce node sends outs h := ⟨sends, .refl _, by
    have hmap : sends.mapM node = .ok (sends.map outs) := by
      induction sends with
      | nil => rfl
      | cons name names ih =>
        rw [List.mapM_cons, h name List.mem_cons_self,
          ih fun n hn => h n (List.mem_cons_of_mem name hn)]
        rfl
    rw [hmap]
    rfl⟩

def unreachable (agent : AgentType) : AgentRun agent where
  result := .error ⟨"ConnectionError", "connection refused"⟩
  own _ h := by cases h

theorem runPanel_eq_local [Interp] [Pydantic] (turns : AgentType → Turn) (pr : PullRequestContext)
    (agents : List AgentType) (outcome : ∀ a, AgentRun a)
    (h : ∀ a, (outcome a).result =
      (runAgent a (turns a) pr).mapError fun e => ⟨e.name, Interp.message e⟩) :
    runPanel turns pr agents = LocalEngine.runPanel outcome agents := by
  refine List.map_congr_left fun a _ => ?_
  cases hrun : runAgent a (turns a) pr with
  | ok v => rw [standIn_of_ok ((h a).trans (by rw [hrun]; rfl))]; rfl
  | error e => rw [standIn_of_error ((h a).trans (by rw [hrun]; rfl))]; rfl

end PrSentinel
