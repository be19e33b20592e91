import PrSentinel.Models

set_option autoImplicit false

namespace PrSentinel

structure ModelSpec where
  inputPerMtok : ℚ
  outputPerMtok : ℚ
  deriving DecidableEq, Repr

def models : List (String × ModelSpec) :=
  [("claude-fable-5-1", ⟨10, 50⟩), ("claude-fable-5", ⟨10, 50⟩), ("claude-opus-5", ⟨5, 25⟩),
   ("claude-opus-4-8", ⟨5, 25⟩), ("claude-opus-4-7", ⟨5, 25⟩), ("claude-opus-4-6", ⟨5, 25⟩),
   ("claude-sonnet-5", ⟨2, 10⟩), ("claude-sonnet-4-6", ⟨3, 15⟩), ("claude-haiku-4-5", ⟨1, 5⟩)]

/-- `spec_for`: an unknown model is priced as if it were Sonnet. -/
def specFor (model : String) : ModelSpec :=
  match models.find? (fun m => m.1 = model) with
  | some m => m.2
  | none => ⟨2, 10⟩

def cacheReadMultiplier : ℚ := 10 / 100
def cacheWriteMultiplier : ℚ := 125 / 100

def estimateCost (model : String) (inputTokens outputTokens cachedReadTokens cacheWriteTokens : ℤ) :
    ℚ :=
  let s := specFor model
  (inputTokens * s.inputPerMtok + outputTokens * s.outputPerMtok +
    cachedReadTokens * s.inputPerMtok * cacheReadMultiplier +
    cacheWriteTokens * s.inputPerMtok * cacheWriteMultiplier) / 1000000

structure LLMResponse where
  text : String
  model : String
  inputTokens : ℤ := 0
  outputTokens : ℤ := 0
  cachedReadTokens : ℤ := 0
  cacheWriteTokens : ℤ := 0
  deriving DecidableEq, Repr

def LLMResponse.costUsd (r : LLMResponse) : ℚ :=
  estimateCost r.model r.inputTokens r.outputTokens r.cachedReadTokens r.cacheWriteTokens

/-- How `call_llm` under a timeout can end, with the message of its exception. -/
inductive CallOutcome where
  | response (r : LLMResponse)
  | budgetExceeded (message : String)
  | timeout (message : String)
  | refusal (message : String)
  | failure (exception message : String)
  deriving DecidableEq, Repr

end PrSentinel
