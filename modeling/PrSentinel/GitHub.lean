import PrSentinel.Models

set_option autoImplicit false

namespace PrSentinel
open Python

structure Comment where
  path : String
  line : ℤ
  side : String
  body : String
  deriving DecidableEq, Repr

def severityBadge : Severity → String
  | .critical => "🔴 **critical**"
  | .major => "🟠 **major**"
  | .minor => "🟡 minor"
  | .info => "🔵 info"

def renderComment (f : Finding) : String :=
  severityBadge f.severity ++ " · `" ++ f.category.value ++ "` · " ++ f.agent.value ++
    " agent · confidence " ++ fixed2 f.confidence ++ "\n\n**" ++ f.title ++ "**\n\n" ++ f.body ++
    "\n\n<details><summary>Why this was raised</summary>\n\n" ++ f.rationale ++ "\n\n</details>"

def fallbackAppendix (findings : List Finding) : String :=
  join "\n" ("\n\n---\n\n_Inline comments were rejected; findings listed here instead._\n" ::
    findings.map fun f => "- `" ++ f.filePath ++ ":" ++ toString f.lineStart ++ "` — **" ++
      f.title ++ "** (" ++ f.severity.value ++ ", " ++ fixed2 f.confidence ++ ")")

/-- An inline comment is anchored where the finding ends. -/
def comment (f : Finding) : Comment where
  path := f.filePath
  line := f.lineEnd
  side := "RIGHT"
  body := renderComment f

structure ReviewRequest where
  commitId : String
  body : String
  event : String := "COMMENT"
  comments : List Comment := []
  deriving DecidableEq, Repr

def reviewRequest (commitSha body : String) (findings : List Finding) : ReviewRequest where
  commitId := commitSha
  body := body
  comments := findings.map comment

def fallbackRequest (commitSha body : String) (findings : List Finding) : ReviewRequest where
  commitId := commitSha
  body := body ++ fallbackAppendix findings

end PrSentinel
