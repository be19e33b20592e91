import Mathlib.Tactic.NormNum
import PrSentinel.Enums
import PrSentinel.PythonText

set_option autoImplicit false

namespace PrSentinel
open Python

abbrev UUID := ℕ

structure Hunk where
  oldStart : ℤ
  oldLines : ℤ
  newStart : ℤ
  newLines : ℤ
  header : String := ""
  addedLines : List ℤ := []
  contextLines : List ℤ := []
  text : String := ""
  deriving DecidableEq, Repr

structure DiffFile where
  path : String
  previousPath : Option String := none
  status : String := "modified"
  additions : ℤ := 0
  deletions : ℤ := 0
  hunks : List Hunk := []
  patch : String := ""
  binary : Bool := false
  deriving DecidableEq, Repr

/-- The lines an inline comment may attach to: a set, given by its elements. -/
def DiffFile.addressableLines (f : DiffFile) : List ℤ :=
  f.hunks.flatMap fun h => h.addedLines ++ h.contextLines

structure PullRequestContext where
  repoFullName : String
  repoGithubId : ℤ
  isPrivate : Bool := true
  number : ℤ
  title : String := ""
  body : String := ""
  author : String := ""
  headSha : String := ""
  baseSha : String := ""
  baseRef : String := "main"
  files : List DiffFile := []
  truncated : Bool := false
  deriving DecidableEq, Repr

def PullRequestContext.file (pr : PullRequestContext) (path : String) : Option DiffFile :=
  pr.files.find? (fun f => f.path = path)

structure CodeChunk where
  filePath : String
  startLine : ℤ
  endLine : ℤ
  content : String
  symbol : Option String := none
  language : Option String := none
  score : ℚ := 0

structure Evidence where
  kind : String
  filePath : String
  lineStart : Option ℤ := none
  lineEnd : Option ℤ := none
  excerpt : String := ""
  deriving DecidableEq, Repr

/-- What the validators guarantee of every finding is part of it: the lines are
in order and the confidence is a probability. -/
structure Finding where
  id : UUID
  agent : AgentType
  category : Category := .other
  severity : Severity := .minor
  filePath : String
  lineStart : ℤ
  lineEnd : ℤ
  title : String
  body : String
  rationale : String
  confidence : ℚ
  evidence : List Evidence := []
  agreeing : List String := []
  categories : List String := []
  mergedInto : Option UUID := none
  lineOrder : lineStart ≤ lineEnd
  confidenceRange : 0 ≤ confidence ∧ confidence ≤ 1
  deriving DecidableEq, Repr

def isSecurityCategory (c : Category) : Bool := c ∈ securityCategories

def isSecurityName (name : String) : Bool :=
  match Category.ofValue? name with
  | some c => isSecurityCategory c
  | none => false

@[simp] theorem isSecurityName_value (c : Category) :
    isSecurityName c.value = isSecurityCategory c := by
  simp [isSecurityName]

def Finding.isSecurity (f : Finding) : Bool :=
  f.agent = .security || isSecurityCategory f.category ||
    f.categories.any isSecurityName

def Finding.overlaps (f g : Finding) : Bool :=
  f.filePath = g.filePath && f.lineStart ≤ g.lineEnd && g.lineStart ≤ f.lineEnd

/-- A finding with little to say, for worked examples; its confidence is given in tenths. -/
def Finding.brief (id : UUID) (agent : AgentType) (category : Category) (severity : Severity)
    (lineStart lineEnd : ℤ) (tenths : ℕ) (title : String := "issue") : Finding where
  id := id
  agent := agent
  category := category
  severity := severity
  filePath := "app.py"
  lineStart := lineStart
  lineEnd := max lineStart lineEnd
  title := title
  body := ""
  rationale := "seen"
  confidence := (min tenths 10 : ℕ) / 10
  lineOrder := le_max_left _ _
  confidenceRange := by
    have htenths : ((min tenths 10 : ℕ) : ℚ) ≤ 10 := by exact_mod_cast min_le_right tenths 10
    constructor
    · positivity
    · linarith

theorem Finding.overlaps_self (f : Finding) : f.overlaps f = true := by
  simp [overlaps, f.lineOrder]

theorem Finding.overlaps_comm (f g : Finding) : f.overlaps g = g.overlaps f := by
  simp only [overlaps, eq_comm (a := f.filePath), Bool.and_assoc]
  congr 1
  exact Bool.and_comm _ _

theorem Finding.overlaps_path {f g : Finding} (h : f.overlaps g = true) :
    f.filePath = g.filePath := by
  simp only [overlaps, Bool.and_eq_true, decide_eq_true_eq] at h
  exact h.1.1

structure AgentVerdict where
  agent : AgentType
  status : VerdictStatus := .ok
  findings : List Finding := []
  summary : String := ""
  model : String := ""
  promptVersion : String := ""
  inputTokens : ℤ := 0
  outputTokens : ℤ := 0
  cachedTokens : ℤ := 0
  costUsd : ℚ := 0
  durationMs : ℤ := 0
  error : Option String := none
  deriving DecidableEq, Repr

def AgentVerdict.ok (v : AgentVerdict) : Bool := v.status = .ok

def okFindings (verdicts : List AgentVerdict) : List Finding :=
  (verdicts.filter AgentVerdict.ok).flatMap AgentVerdict.findings

theorem mem_okFindings {verdicts : List AgentVerdict} {f : Finding} :
    f ∈ okFindings verdicts ↔ ∃ v ∈ verdicts, v.ok = true ∧ f ∈ v.findings := by
  simp [okFindings, and_assoc]

structure WebhookJob where
  deliveryId : String
  event : String
  action : String
  repoFullName : String
  repoGithubId : ℤ
  isPrivate : Bool := true
  prNumber : ℤ
  headSha : String
  baseSha : String
  title : String := ""
  author : String := ""
  deriving DecidableEq, Repr

/-- The settings the modelled code reads, as the validators accept them. -/
structure Settings where
  autoPostConfidence : ℚ := 70 / 100
  findingPostConfidence : ℚ := 60 / 100
  escalateCriticalSecurity : Bool := true
  postMinSeverity : Severity := .minor
  collapseRepeatedAfter : ℤ := 3
  autoPostRange : 0 ≤ autoPostConfidence ∧ autoPostConfidence ≤ 1 := by norm_num
  findingPostRange : 0 ≤ findingPostConfidence ∧ findingPostConfidence ≤ 1 := by norm_num
  gateOrdering : findingPostConfidence ≤ autoPostConfidence := by norm_num

def Settings.default : Settings := {}

end PrSentinel
