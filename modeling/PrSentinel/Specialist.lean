import PrSentinel.Llm
import PrSentinel.PythonJson

set_option autoImplicit false

namespace PrSentinel
open Python

/-- What pydantic makes of a value for an `int | None` field: `none` where it
raises a `ValidationError`. -/
class Pydantic where
  optionalInt : Json → Option (Option ℤ)
  optionalInt_null : optionalInt .null = some none
  optionalInt_int : ∀ n, optionalInt (.int n) = some (some n)

@[reducible] def strictPydantic : Pydantic where
  optionalInt
    | .null => some none
    | .int n => some (some n)
    | _ => none
  optionalInt_null := rfl
  optionalInt_int _ := rfl

def snapWindow : ℤ := 3
def maxEvidence : ℕ := 12

/-- The file a cited path stands for: its own, or else the only one whose path
ends the way the citation does, or the other way round. -/
def resolve (pr : PullRequestContext) (cited : String) : Option DiffFile :=
  let path := lstrip ['.', '/'] cited
  match pr.file path with
  | some f => some f
  | none =>
    match pr.files.filter (fun f => endswith f.path path || endswith path f.path) with
    | [f] => some f
    | _ => none

def nearest (start : ℤ) : List ℤ → Option ℤ
  | [] => none
  | n :: ns => some (ns.foldl (fun best m => if |m - start| < |best - start| then m else best) n)

section Interp
variable [Interp]

/-- Where a finding goes: first line, last line, and whether it was snapped.
`top` is the last addressable line. -/
def anchor (addressable : List ℤ) (top start stop : ℤ) : Option (ℤ × ℤ × Bool) :=
  if start ∈ addressable then some (start, max start (min stop top), false)
  else
    match nearest start (Interp.setOrder addressable) with
    | none => none
    | some near =>
      if snapWindow < |near - start| then none
      else
        let stop := max near (min stop top)
        some (near, max near (min stop top), true)

structure Numbers where
  start : ℤ
  stop : ℤ
  confidence : Flt

def readNumbers (raw : List (String × Json)) : Except Exc Numbers := do
  let start ← (Json.getD raw "line_start" (.int 0)).toInt
  let stop ← (Json.getD raw "line_end" (.int start)).toInt
  let confidence ← (Json.getD raw "confidence" (.float (.fin 0))).toFloat
  pure ⟨start, stop, confidence⟩

def coerce {ε : Type} (ofValue? : String → Option ε) (value : Json) (default : ε) : ε :=
  (ofValue? (lower value.toStr)).getD default

variable [Pydantic]

def evidenceItem (item : List (String × Json)) (defaultPath : String) : Option Evidence := do
  let lineStart ← Pydantic.optionalInt (Json.getD item "line_start" .null)
  let lineEnd ← Pydantic.optionalInt (Json.getD item "line_end" .null)
  let path := Json.getD item "file_path" .null
  pure {
    kind := (Json.getD item "kind" (.str "diff")).toStr
    filePath := if path.truthy then path.toStr else defaultPath
    lineStart, lineEnd
    excerpt := upto 500 (Json.getD item "excerpt" (.str "")).toStr }

def evidence (raw : Json) (defaultPath : String) : Except Exc (List Evidence) := do
  let items ← raw.items
  let out := items.filterMap fun
    | .obj item => evidenceItem item defaultPath
    | _ => none
  pure (out.take maxEvidence)

/-- `_ground`: `none` where the finding is dropped. -/
def ground (agent : AgentType) (id : UUID) (raw : List (String × Json)) (pr : PullRequestContext) :
    Except Exc (Option (Finding × Bool)) :=
  match resolve pr (Json.getD raw "file_path" (.str "")).toStr with
  | none => .ok none
  | some file =>
    match file.addressableLines.max? with
    | none => .ok none
    | some top =>
      match readNumbers raw with
      | .error e => if e = .typeError ∨ e.isValueError then .ok none else .error e
      | .ok numbers =>
        match anchor file.addressableLines top numbers.start numbers.stop with
        | none => .ok none
        | some (start, stop, snapped) => do
          let evidence ← evidence (Json.getD raw "evidence" .null) file.path
          let title := strip (upto 200 (Json.getD raw "title" (.str "")).toStr)
          let rationale := strip (upto 4000 (Json.getD raw "rationale" (.str "")).toStr)
          if title = "" ∨ rationale = "" then pure none
          else
            pure (some ({
              id, agent, title, rationale, evidence
              category := coerce Category.ofValue? (Json.getD raw "category" .null) .other
              severity := coerce Severity.ofValue? (Json.getD raw "severity" .null) .minor
              filePath := file.path
              lineStart := start
              lineEnd := max stop start
              body := upto 4000 (Json.getD raw "body" (.str "")).toStr
              confidence := numbers.confidence.clamp
              lineOrder := le_max_right _ _
              confidenceRange := numbers.confidence.clamp_mem }, snapped))

structure Parsed where
  findings : List Finding := []
  dropped : ℕ := 0
  snapped : ℕ := 0
  summary : String := ""

def groundItem (agent : AgentType) (id : UUID) (raw : Json) (pr : PullRequestContext) :
    Except Exc (Option (Finding × Bool)) :=
  match raw with
  | .obj pairs => ground agent id pairs pr
  | _ => .ok none

/-- The loop of `_parse`; `ids` holds an identifier for each element still to come. -/
def groundAll (agent : AgentType) (pr : PullRequestContext) :
    (ids : ℕ → UUID) → List Json → Except Exc Parsed
  | _, [] => pure {}
  | ids, raw :: raws => do
    let grounded ← groundItem agent (ids 0) raw pr
    let rest ← groundAll agent pr (fun k => ids (k + 1)) raws
    match grounded with
    | none => pure { rest with dropped := rest.dropped + 1 }
    | some (finding, snapped) =>
      pure { rest with
        findings := finding :: rest.findings
        snapped := rest.snapped + snapped.toNat }

def parsePayload (agent : AgentType) (pr : PullRequestContext) (ids : ℕ → UUID) :
    Json → Except Exc Parsed
  | .obj pairs => do
    let summary := upto 1000 (Json.getD pairs "summary" (.str "")).toStr
    let raws ← (Json.getD pairs "findings" (.arr [])).items
    let parsed ← groundAll agent pr ids raws
    pure { parsed with summary }
  | _ => .error .attributeError

omit [Pydantic] in
def braced (text : List Char) : Option (List Char) :=
  match text.findIdx? (· = '{'), text.reverse.findIdx? (· = '}') with
  | some start, some back =>
    let stop := text.length - 1 - back
    if stop ≤ start then none else some ((text.take (stop + 1)).drop start)
  | _, _ => none

def salvageJson (text : List Char) : Except Exc (Option Json) :=
  match braced text with
  | none => .ok none
  | some slice =>
    match loads slice with
    | .ok (.obj pairs) => .ok (some (.obj pairs))
    | .ok _ => .ok none
    | .error .jsonDecodeError => .ok none
    | .error e => .error e

/-- The value `_parse` goes on with: `none` where nothing could be read. -/
def readPayload (text : List Char) : Except Exc (Option Json) :=
  match loads text with
  | .ok payload => .ok (some payload)
  | .error .jsonDecodeError => salvageJson text
  | .error e => .error e

def parse (agent : AgentType) (pr : PullRequestContext) (ids : ℕ → UUID) (text : List Char) :
    Except Exc Parsed := do
  match ← readPayload text with
  | none => pure { summary := "(model returned unparseable output)" }
  | some payload => parsePayload agent pr ids payload

structure Turn where
  model : String
  promptVersion : String
  outcome : CallOutcome
  durationMs : ℤ := 0
  ids : ℕ → UUID

def failed (agent : AgentType) (turn : Turn) (status : VerdictStatus) (exception message : String) :
    AgentVerdict where
  agent := agent
  status := status
  model := turn.model
  promptVersion := turn.promptVersion
  error := some (exception ++ ": " ++ message)
  durationMs := turn.durationMs

/-- `SpecialistAgent.run`: what the call raised is a verdict, what `_parse` raises is not. -/
def runAgent (agent : AgentType) (turn : Turn) (pr : PullRequestContext) :
    Except Exc AgentVerdict :=
  match turn.outcome with
  | .budgetExceeded message => .ok (failed agent turn .budgetDenied "BudgetExceeded" message)
  | .timeout message => .ok (failed agent turn .timeout "TimeoutError" message)
  | .refusal message => .ok (failed agent turn .failed "LLMRefusal" message)
  | .failure exception message => .ok (failed agent turn .failed exception message)
  | .response r => do
    let parsed ← parse agent pr turn.ids r.text.toList
    pure {
      agent
      status := .ok
      findings := parsed.findings
      summary := parsed.summary
      model := r.model
      promptVersion := turn.promptVersion
      inputTokens := r.inputTokens
      outputTokens := r.outputTokens
      cachedTokens := r.cachedReadTokens
      costUsd := r.costUsd
      durationMs := turn.durationMs }

/-- `LocalEngine.run_panel`, agent by agent: an exception costs that agent's verdict only. -/
def seat (agent : AgentType) (result : Except Exc AgentVerdict) : AgentVerdict :=
  match result with
  | .ok verdict => verdict
  | .error e =>
    { agent, status := .failed, error := some (e.name ++ ": " ++ Interp.message e) }

def runPanel (turns : AgentType → Turn) (pr : PullRequestContext) (agents : List AgentType) :
    List AgentVerdict :=
  agents.map fun a => seat a (runAgent a (turns a) pr)

theorem seat_agent (agent : AgentType) (turn : Turn) (pr : PullRequestContext) :
    (seat agent (runAgent agent turn pr)).agent = agent := by
  unfold runAgent
  cases turn.outcome with
  | response r =>
    cases hparse : parse agent pr turn.ids r.text.toList with
    | ok parsed => simp only [hparse]; rfl
    | error e => simp only [hparse]; rfl
  | _ => rfl

theorem runPanel_agents (turns : AgentType → Turn) (pr : PullRequestContext)
    (agents : List AgentType) : (runPanel turns pr agents).map AgentVerdict.agent = agents := by
  rw [runPanel, List.map_map]
  exact List.map_id'' (fun a => seat_agent a (turns a) pr) agents

end Interp

end PrSentinel
