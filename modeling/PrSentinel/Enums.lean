import Mathlib.Data.List.Basic
import Mathlib.Data.Rat.Defs

set_option autoImplicit false

namespace PrSentinel

inductive AgentType where
  | security | correctness | tests | docs
  deriving DecidableEq, Repr

def AgentType.value : AgentType → String
  | .security => "security"
  | .correctness => "correctness"
  | .tests => "tests"
  | .docs => "docs"

def allAgents : List AgentType := [.security, .correctness, .tests, .docs]

theorem mem_allAgents (a : AgentType) : a ∈ allAgents := by cases a <;> decide

theorem AgentType.value_injective {a b : AgentType} (h : a.value = b.value) : a = b := by
  cases a <;> cases b <;> first | rfl | exact absurd h (by decide)

def AgentType.ofValue? (name : String) : Option AgentType :=
  allAgents.find? (fun a => a.value = name)

@[simp] theorem AgentType.ofValue?_value (a : AgentType) : AgentType.ofValue? a.value = some a := by
  cases h : AgentType.ofValue? a.value with
  | none => simpa using List.find?_eq_none.mp h a (mem_allAgents a)
  | some b =>
    have hvalue : b.value = a.value := by simpa using List.find?_some h
    rw [AgentType.value_injective hvalue]

inductive Severity where
  | critical | major | minor | info
  deriving DecidableEq, Repr

def Severity.value : Severity → String
  | .critical => "critical"
  | .major => "major"
  | .minor => "minor"
  | .info => "info"

def Severity.all : List Severity := [.critical, .major, .minor, .info]

def Severity.ofValue? (name : String) : Option Severity := Severity.all.find? (fun s => s.value = name)

@[simp] theorem Severity.ofValue?_value (s : Severity) : Severity.ofValue? s.value = some s := by
  cases s <;> decide

def Severity.weight : Severity → ℚ
  | .critical => 1
  | .major => 7 / 10
  | .minor => 4 / 10
  | .info => 15 / 100

theorem Severity.weight_pos (s : Severity) : 0 < s.weight := by cases s <;> decide +kernel

def severityOrder : List Severity := [.info, .minor, .major, .critical]

def Severity.index (s : Severity) : ℕ := severityOrder.idxOf s

theorem Severity.index_injective {s t : Severity} (h : s.index = t.index) : s = t := by
  cases s <;> cases t <;> first | rfl | exact absurd h (by decide)

inductive Category where
  | injection | authz | secrets | crypto | inputValidation
  | logic | concurrency | errorHandling | resourceLeak | apiContract
  | testCoverage | testQuality
  | documentation | readability | convention
  | other
  deriving DecidableEq, Repr

def Category.value : Category → String
  | .injection => "injection"
  | .authz => "authz"
  | .secrets => "secrets"
  | .crypto => "crypto"
  | .inputValidation => "input_validation"
  | .logic => "logic"
  | .concurrency => "concurrency"
  | .errorHandling => "error_handling"
  | .resourceLeak => "resource_leak"
  | .apiContract => "api_contract"
  | .testCoverage => "test_coverage"
  | .testQuality => "test_quality"
  | .documentation => "documentation"
  | .readability => "readability"
  | .convention => "convention"
  | .other => "other"

def Category.all : List Category :=
  [.injection, .authz, .secrets, .crypto, .inputValidation, .logic, .concurrency, .errorHandling,
   .resourceLeak, .apiContract, .testCoverage, .testQuality, .documentation, .readability,
   .convention, .other]

def Category.ofValue? (name : String) : Option Category := Category.all.find? (fun c => c.value = name)

@[simp] theorem Category.ofValue?_value (c : Category) : Category.ofValue? c.value = some c := by
  cases c <;> decide

def securityCategories : List Category := [.injection, .authz, .secrets, .crypto, .inputValidation]

def categoryFamily : Category → String
  | .injection | .authz | .secrets | .crypto | .inputValidation => "security"
  | .logic | .concurrency | .errorHandling | .resourceLeak | .apiContract => "correctness"
  | .testCoverage | .testQuality => "testing"
  | .documentation | .readability | .convention => "docs"
  | .other => "other"

def familyOf (category : Category) : String := categoryFamily category

def collapsibleCategories : List Category := [.testCoverage]

inductive Decision where
  | autoPost | escalate | suppress
  deriving DecidableEq, Repr

inductive EscalationReason where
  | lowConfidence | criticalSecurity | agentFailure | budgetExceeded | policy
  deriving DecidableEq, Repr

inductive VerdictStatus where
  | ok | failed | timeout | skipped | budgetDenied
  deriving DecidableEq, Repr

inductive ReviewStatus where
  | pending | running | awaitingHuman | posted | suppressed | failed
  deriving DecidableEq, Repr

end PrSentinel
