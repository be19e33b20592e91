import PrSentinel.Gate
import PrSentinel.Specialist

set_option autoImplicit false

namespace PrSentinel
open Python

section Text
variable [Interp]

/-- Neither the whole text nor the braced part of it is an object. -/
structure NoObject (text : List Char) : Prop where
  whole : ∀ pairs, loads text ≠ .ok (.obj pairs)
  slice : ∀ slice, braced text = some slice → ∀ pairs, loads slice ≠ .ok (.obj pairs)

/-- The text is a value, or decoding it, or the braced part, fails with something
other than a `JSONDecodeError`. -/
def Loud (text : List Char) : Prop :=
  (∃ value, loads text = .ok value) ∨
  (∃ e, e ≠ .jsonDecodeError ∧ loads text = .error e) ∨
  ∃ slice e, braced text = some slice ∧ e ≠ .jsonDecodeError ∧ loads slice = .error e

theorem readPayload_of_quiet {text : List Char} (h : NoObject text) (hquiet : ¬ Loud text) :
    readPayload text = .ok none := by
  simp only [Loud, not_or, not_exists] at hquiet
  obtain ⟨hvalue, herror, hslice⟩ := hquiet
  cases hload : loads text with
  | ok value => exact absurd hload (hvalue value)
  | error e =>
    have he : e = .jsonDecodeError := by
      by_contra hne
      exact herror e ⟨hne, hload⟩
    subst he
    simp only [readPayload, hload, salvageJson]
    cases hbraced : braced text with
    | none => rfl
    | some slice =>
      cases hpart : loads slice with
      | ok value =>
        cases value with
        | obj pairs => exact absurd hpart (h.slice slice hbraced pairs)
        | _ => simp [hpart]
      | error e =>
        have he : e = .jsonDecodeError := by
          by_contra hne
          exact hslice slice e ⟨hbraced, hne, hpart⟩
        subst he
        simp [hpart]

theorem readPayload_of_loud {text : List Char} (h : NoObject text) (hloud : Loud text) :
    (∃ e, readPayload text = .error e) ∨
      ∃ value, readPayload text = .ok (some value) ∧ ∀ pairs, value ≠ .obj pairs := by
  cases hload : loads text with
  | ok value =>
    refine .inr ⟨value, by simp [readPayload, hload], ?_⟩
    rintro pairs rfl
    exact h.whole pairs hload
  | error e =>
    by_cases he : e = .jsonDecodeError
    · subst he
      rcases hloud with ⟨value, hvalue⟩ | ⟨e, hne, herror⟩ | ⟨slice, e, hbraced, hne, hpart⟩
      · rw [hload] at hvalue
        cases hvalue
      · rw [hload] at herror
        cases herror
        exact absurd rfl hne
      · refine .inl ⟨e, ?_⟩
        simp only [readPayload, hload, salvageJson, hbraced, hpart]
    · refine .inl ⟨e, ?_⟩
      simp only [readPayload, hload]

variable [Pydantic]

theorem parse_of_quiet {text : List Char} (h : NoObject text) (hquiet : ¬ Loud text)
    (agent : AgentType) (pr : PullRequestContext) (ids : ℕ → UUID) :
    parse agent pr ids text = .ok { summary := "(model returned unparseable output)" } := by
  simp [parse, readPayload_of_quiet h hquiet, bind, Except.bind, pure, Except.pure]

theorem parse_of_loud {text : List Char} (h : NoObject text) (hloud : Loud text)
    (agent : AgentType) (pr : PullRequestContext) (ids : ℕ → UUID) :
    ∃ e, parse agent pr ids text = .error e := by
  rcases readPayload_of_loud h hloud with ⟨e, he⟩ | ⟨value, hvalue, hobj⟩
  · exact ⟨e, by simp [parse, he, bind, Except.bind]⟩
  · refine ⟨.attributeError, ?_⟩
    simp only [parse, hvalue, bind, Except.bind]
    cases value with
    | obj pairs => exact absurd rfl (hobj pairs)
    | _ => rfl

end Text

def Unreadable [Interp] (turn : Turn) : Prop :=
  ∃ r, turn.outcome = .response r ∧ NoObject r.text.toList

section Panel
variable [Interp] [Pydantic] {agent : AgentType} {turn : Turn} {r : LLMResponse}
  {pr : PullRequestContext}

theorem seat_of_quiet (hresponse : turn.outcome = .response r) (h : NoObject r.text.toList)
    (hquiet : ¬ Loud r.text.toList) : (seat agent (runAgent agent turn pr)).ok = true := by
  simp [runAgent, hresponse, parse_of_quiet h hquiet, bind, Except.bind, pure, Except.pure, seat,
    AgentVerdict.ok]

theorem seat_of_loud (hresponse : turn.outcome = .response r) (h : NoObject r.text.toList)
    (hloud : Loud r.text.toList) : (seat agent (runAgent agent turn pr)).ok = false := by
  obtain ⟨e, he⟩ := parse_of_loud h hloud agent pr turn.ids
  simp [runAgent, hresponse, he, bind, Except.bind, seat, AgentVerdict.ok]

/-- An answer without an object fails its agent and escalates the review exactly
when every such answer of the panel is loud. -/
theorem unreadable_escalates_iff (settings : Settings) (turns : AgentType → Turn)
    (pr : PullRequestContext) (agents : List AgentType) (isPublicRepo : Bool) :
    ((∃ a ∈ agents, Unreadable (turns a)) →
      (∀ a ∈ agents, Unreadable (turns a) → (seat a (runAgent a (turns a) pr)).ok = false) ∧
      (panelGate settings (runPanel turns pr agents) false isPublicRepo).decision = .escalate) ↔
    ∀ a ∈ agents, ∀ r, (turns a).outcome = .response r → NoObject r.text.toList →
      Loud r.text.toList := by
  constructor
  · intro h a ha r hresponse hno
    by_contra hquiet
    have hfailed := (h ⟨a, ha, r, hresponse, hno⟩).1 a ha ⟨r, hresponse, hno⟩
    rw [seat_of_quiet hresponse hno hquiet] at hfailed
    cases hfailed
  · rintro h ⟨a, ha, hunreadable⟩
    have hfailed : ∀ a ∈ agents, Unreadable (turns a) →
        (seat a (runAgent a (turns a) pr)).ok = false := by
      rintro a ha ⟨r, hresponse, hno⟩
      exact seat_of_loud hresponse hno (h a ha r hresponse hno)
    exact ⟨hfailed, evaluate_of_failed (List.mem_map_of_mem ha) (hfailed a ha hunreadable)⟩

end Panel

def cutOff : LLMResponse where
  text := "\x7b\"summary\": \"SQL injection\", \"findings\": [\x7b\"file_path\": \"app.py\""
  model := "claude-opus-5"

def cutOffTurn : Turn where
  model := "claude-opus-5"
  promptVersion := "v1"
  outcome := .response cutOff
  ids := id

def somePr : PullRequestContext where
  repoFullName := "acme/app"
  repoGithubId := 1
  number := 7

def isDecodeError : Except Exc Json → Bool
  | .error .jsonDecodeError => true
  | _ => false

theorem eq_of_isDecodeError {x : Except Exc Json} (h : isDecodeError x = true) :
    x = .error .jsonDecodeError := by
  unfold isDecodeError at h
  split at h
  · rfl
  · cases h

theorem cutOff_noObject : @NoObject asciiInterp cutOff.text.toList := by
  have hload := @eq_of_isDecodeError (@loads asciiInterp cutOff.text.toList) (by decide +kernel)
  have hbraced : braced cutOff.text.toList = none := by decide +kernel
  refine @NoObject.mk asciiInterp _ ?_ ?_
  · intro pairs h
    rw [hload] at h
    cases h
  · intro slice h
    rw [hbraced] at h
    cases h

/-- Four such answers make a complete panel with nothing to say. -/
theorem cutOff_suppressed :
    let _ := asciiInterp
    let _ := strictPydantic
    let panel := runPanel (fun _ => cutOffTurn) somePr allAgents
    (∀ a ∈ allAgents, Unreadable cutOffTurn ∧ (seat a (runAgent a cutOffTurn somePr)).ok = true) ∧
    (panelGate .default panel false false).decision = .suppress :=
  ⟨fun a ha => ⟨⟨cutOff, rfl, cutOff_noObject⟩, by revert a; decide +kernel⟩, by decide +kernel⟩

end PrSentinel
