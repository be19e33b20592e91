import Mathlib.Data.List.Basic

/-!
Runs of a deterministic machine under a list of events: what one step preserves,
and what is preserved by a run all of whose steps meet a condition.
-/

set_option autoImplicit false

namespace Runs

universe u v
variable {σ : Type u} {ε : Type v} (step : σ → ε → σ)

def run (s : σ) (events : List ε) : σ := events.foldl step s

theorem run_cons (s : σ) (e : ε) (events : List ε) :
    run step s (e :: events) = run step (step s e) events := rfl

theorem run_append (s : σ) (before after : List ε) :
    run step s (before ++ after) = run step (run step s before) after :=
  List.foldl_append

variable {step}

theorem forall_prefix_cons {P : σ → Prop} {s : σ} {e : ε} {events : List ε} :
    (∀ before after, e :: events = before ++ after → P (run step s before)) ↔
      P s ∧ ∀ before after, events = before ++ after → P (run step (step s e) before) := by
  constructor
  · intro h
    refine ⟨h [] (e :: events) rfl, fun before after heq => ?_⟩
    exact h (e :: before) after (by rw [heq]; rfl)
  · intro h before after heq
    cases before with
    | nil => exact h.1
    | cons b before =>
      obtain ⟨rfl, hevents⟩ := List.cons.inj heq
      exact h.2 before after hevents

/-- The rule for invariants: true at the start, kept by every step. -/
theorem run_keeps {I : σ → Prop} (h : ∀ s e, I s → I (step s e)) {s : σ} (hs : I s)
    (events : List ε) : I (run step s events) := by
  induction events generalizing s with
  | nil => exact hs
  | cons e events ih => exact ih (h s e hs)

variable (step)

/-- Every step of the run meets the condition where it is taken. -/
def Throughout (ok : σ → ε → Prop) : σ → List ε → Prop
  | _, [] => True
  | s, e :: events => ok s e ∧ Throughout ok (step s e) events

instance Throughout.decidable {ok : σ → ε → Prop} [∀ s e, Decidable (ok s e)] :
    ∀ s events, Decidable (Throughout step ok s events)
  | _, [] => .isTrue trivial
  | s, e :: events =>
    have : Decidable (Throughout step ok (step s e) events) := Throughout.decidable _ _
    inferInstanceAs (Decidable (ok s e ∧ Throughout step ok (step s e) events))

variable {step}

theorem Throughout.run_keeps {ok : σ → ε → Prop} {I : σ → Prop}
    (h : ∀ s e, ok s e → I s → I (step s e)) {s : σ} (hs : I s) {events : List ε}
    (hrun : Throughout step ok s events) : I (run step s events) := by
  induction events generalizing s with
  | nil => exact hs
  | cons e events ih => exact ih (h s e hrun.1 hs) hrun.2

theorem Throughout.of_forall {ok : σ → ε → Prop} (h : ∀ s e, ok s e) (s : σ) (events : List ε) :
    Throughout step ok s events := by
  induction events generalizing s with
  | nil => trivial
  | cons e events ih => exact ⟨h s e, ih (step s e)⟩

theorem Throughout.mono {ok ok' : σ → ε → Prop} {I : σ → Prop}
    (hI : ∀ s e, ok s e → I s → I (step s e)) (h : ∀ s e, ok s e → I s → ok' s e) {s : σ}
    (hs : I s) {events : List ε} (hrun : Throughout step ok s events) :
    Throughout step ok' s events := by
  induction events generalizing s with
  | nil => trivial
  | cons e events ih => exact ⟨h s e hrun.1 hs, ih (hI s e hrun.1 hs) hrun.2⟩

theorem throughout_congr {ok ok' : σ → ε → Prop} {I : σ → Prop}
    (hI : ∀ s e, I s → I (step s e)) (h : ∀ s e, I s → (ok s e ↔ ok' s e)) {s : σ} (hs : I s)
    (events : List ε) : Throughout step ok s events ↔ Throughout step ok' s events :=
  ⟨Throughout.mono (fun s e _ => hI s e) (fun s e hok hs => (h s e hs).mp hok) hs,
    Throughout.mono (fun s e _ => hI s e) (fun s e hok hs => (h s e hs).mpr hok) hs⟩

theorem throughout_append {ok : σ → ε → Prop} {s : σ} {before after : List ε} :
    Throughout step ok s (before ++ after) ↔
      Throughout step ok s before ∧ Throughout step ok (run step s before) after := by
  induction before generalizing s with
  | nil => simp [Throughout, run]
  | cons e before ih => exact (and_congr_right fun _ => ih).trans and_assoc.symm

/-- Where the condition is what it takes for a step to keep the invariant, the
runs that keep it throughout are those whose steps all meet the condition. -/
theorem throughout_iff {ok legal : σ → ε → Prop} {I J : σ → Prop}
    (hJ : ∀ s e, legal s e → J s → J (step s e))
    (h : ∀ s e, legal s e → J s → I s → (ok s e ↔ I (step s e))) {s : σ} (hs : J s) (hI : I s)
    {events : List ε} (hlegal : Throughout step legal s events) : Throughout step ok s events ↔
      ∀ before after, events = before ++ after → I (run step s before) := by
  induction events generalizing s with
  | nil =>
    refine ⟨fun _ before after heq => ?_, fun _ => trivial⟩
    rw [(List.append_eq_nil_iff.mp heq.symm).1]
    exact hI
  | cons e events ih =>
    rw [forall_prefix_cons]
    constructor
    · intro hok
      have hnext : I (step s e) := (h s e hlegal.1 hs hI).mp hok.1
      exact ⟨hI, (ih (hJ s e hlegal.1 hs) hnext hlegal.2).mp hok.2⟩
    · intro hruns
      have hnext : I (step s e) := hruns.2 [] events rfl
      exact ⟨(h s e hlegal.1 hs hI).mpr hnext,
        (ih (hJ s e hlegal.1 hs) hnext hlegal.2).mpr hruns.2⟩

end Runs
