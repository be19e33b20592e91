import Mathlib.Algebra.BigOperators.Group.List.Basic
import Mathlib.Algebra.Order.BigOperators.Group.List
import Mathlib.Tactic.Abel
import PrSentinel.Runs

/-!
An account under a cap: what was used, and what is held back for work under way.
Work is admitted by holding its estimate, and settled for at most that.
-/

set_option autoImplicit false

namespace Reserve

universe u
variable {α : Type u}

structure Account (α : Type u) where
  used : α
  held : List α

inductive Event (α : Type u) where
  | hold (amount : α)
  | settle (i : ℕ) (amount : α)
  | release (i : ℕ)
  | clear

section Order
variable [AddCommGroup α] [LinearOrder α] [IsOrderedAddMonoid α]

/-- What will have been used if everything held is. -/
def Account.committed (a : Account α) : α := a.used + a.held.sum

def Account.step (a : Account α) : Event α → Account α
  | .hold x => { a with held := a.held ++ [x] }
  | .settle i x =>
    match a.held[i]? with
    | some _ => ⟨a.used + x, a.held.eraseIdx i⟩
    | none => a
  | .release i => { a with held := a.held.eraseIdx i }
  | .clear => { a with held := [] }

def Account.Honest (a : Account α) : Event α → Prop
  | .hold x => 0 ≤ x
  | .settle i x => ∀ y, a.held[i]? = some y → x ≤ y
  | _ => True

def Account.Covered (a : Account α) : Prop := ∀ x ∈ a.held, 0 ≤ x

/-- What is admitted fits beside everything that is held. -/
def Account.Roomy (cap : α) (a : Account α) : Event α → Prop
  | .hold x => a.committed + x ≤ cap
  | _ => True

variable {a : Account α} {cap : α}

theorem Account.Covered.used_le (h : a.Covered) : a.used ≤ a.committed :=
  le_add_of_nonneg_right (List.sum_nonneg h)

omit [LinearOrder α] [IsOrderedAddMonoid α] in
theorem sum_eraseIdx {xs : List α} {i : ℕ} {x : α} (h : xs[i]? = some x) :
    x + (xs.eraseIdx i).sum = xs.sum := by
  obtain ⟨hi, rfl⟩ := List.getElem?_eq_some_iff.mp h
  rw [← List.sum_cons]
  exact (List.getElem_cons_eraseIdx_perm hi).sum_eq

theorem sum_eraseIdx_le {xs : List α} (h : ∀ x ∈ xs, 0 ≤ x) (i : ℕ) :
    (xs.eraseIdx i).sum ≤ xs.sum := by
  cases hx : xs[i]? with
  | none => rw [List.eraseIdx_of_length_le (List.getElem?_eq_none_iff.mp hx)]
  | some x =>
    rw [← sum_eraseIdx hx]
    exact le_add_of_nonneg_left (h x (List.mem_of_getElem? hx))

omit [IsOrderedAddMonoid α] in
theorem Account.Covered.step {e : Event α} (h : a.Covered) (hhonest : a.Honest e) :
    (a.step e).Covered := by
  have herase (i : ℕ) : ∀ x ∈ a.held.eraseIdx i, 0 ≤ x :=
    fun x hx => h x (List.mem_of_mem_eraseIdx hx)
  cases e with
  | hold x =>
    intro y hy
    rcases List.mem_append.mp hy with hy | hy
    · exact h y hy
    · rw [List.mem_singleton.mp hy]
      exact hhonest
  | settle i x =>
    simp only [Account.step]
    split
    · exact herase i
    · exact h
  | release i => exact herase i
  | clear => simp [Account.step, Covered]

theorem roomy_iff {e : Event α} (h : a.Covered) (hhonest : a.Honest e)
    (hcap : a.committed ≤ cap) : a.Roomy cap e ↔ (a.step e).committed ≤ cap := by
  cases e with
  | hold x => simp [Account.Roomy, Account.step, Account.committed, add_assoc]
  | settle i x =>
    refine iff_of_true trivial (le_trans ?_ hcap)
    simp only [Account.step, Account.committed]
    cases hy : a.held[i]? with
    | none => exact le_rfl
    | some y =>
      rw [← sum_eraseIdx hy, add_assoc]
      exact add_le_add_right (add_le_add_left (hhonest y hy) _) _
  | release i =>
    refine iff_of_true trivial (le_trans ?_ hcap)
    exact add_le_add_right (sum_eraseIdx_le h i) _
  | clear =>
    refine iff_of_true trivial (le_trans ?_ hcap)
    simpa [Account.step, Account.committed] using List.sum_nonneg h

omit [LinearOrder α] [IsOrderedAddMonoid α] in
theorem run_settle_all (used : α) (held : List α) :
    Runs.run Account.step ⟨used, held⟩ (held.map (Event.settle 0)) = ⟨used + held.sum, []⟩ := by
  induction held generalizing used with
  | nil => simp [Runs.run]
  | cons x xs ih =>
    have h := ih (used + x)
    simp only [Runs.run, List.map_cons, List.foldl_cons, Account.step] at h ⊢
    simpa [add_assoc] using h

omit [IsOrderedAddMonoid α] in
theorem honest_settle_all (used : α) (held : List α) :
    Runs.Throughout Account.step Account.Honest ⟨used, held⟩ (held.map (Event.settle 0)) := by
  induction held generalizing used with
  | nil => trivial
  | cons x xs ih => exact ⟨by simp [Account.Honest], by simpa [Account.step] using ih (used + x)⟩

theorem settled_within_iff (h : a.Covered) :
    (∀ settled : List (ℕ × α),
      Runs.Throughout Account.step Account.Honest a (settled.map fun s => .settle s.1 s.2) →
      (Runs.run Account.step a (settled.map fun s => .settle s.1 s.2)).used ≤ cap) ↔
    a.committed ≤ cap := by
  constructor
  · intro hsettled
    have hall := hsettled (a.held.map fun x => (0, x))
    simp only [List.map_map, Function.comp_def] at hall
    have hrun := hall (honest_settle_all a.used a.held)
    rwa [run_settle_all a.used a.held] at hrun
  · intro hcap settled hhonest
    induction settled generalizing a with
    | nil => exact h.used_le.trans hcap
    | cons s settled ih =>
      have hstep := (roomy_iff h hhonest.1 hcap).mp trivial
      exact ih (h.step hhonest.1) hstep hhonest.2

/-- A machine whose steps are events of an account, or none. -/
structure Simulation {σ ε : Type u} (step : σ → ε → σ) (legal : σ → ε → Prop) (α : Type u)
    [AddCommGroup α] [LinearOrder α] where
  account : σ → Account α
  event : σ → ε → Option (Event α)
  settle : ℕ → α → ε
  account_step : ∀ s e, account (step s e) = (event s e).elim (account s) (account s).step
  honest : ∀ s e x, legal s e → event s e = some x → (account s).Honest x
  event_settle : ∀ s i x, event s (settle i x) = some (.settle i x)
  legal_settle : ∀ s i x, (account s).Honest (.settle i x) → legal s (settle i x)

section Simulation
variable {σ ε : Type u} {step : σ → ε → σ} {legal : σ → ε → Prop}
  (sim : Simulation step legal α)

omit [IsOrderedAddMonoid α] in
theorem Simulation.run_settled (s : σ) (settled : List (ℕ × α)) :
    sim.account (Runs.run step s (settled.map fun x => sim.settle x.1 x.2)) =
      Runs.run Account.step (sim.account s) (settled.map fun x => .settle x.1 x.2) := by
  induction settled generalizing s with
  | nil => rfl
  | cons x settled ih =>
    simp only [Runs.run, List.map_cons, List.foldl_cons] at ih ⊢
    rw [ih, sim.account_step, sim.event_settle]
    rfl

omit [IsOrderedAddMonoid α] in
theorem Simulation.legal_settled (s : σ) (settled : List (ℕ × α)) :
    Runs.Throughout step legal s (settled.map fun x => sim.settle x.1 x.2) ↔
      Runs.Throughout Account.step Account.Honest (sim.account s)
        (settled.map fun x => .settle x.1 x.2) := by
  induction settled generalizing s with
  | nil => exact Iff.rfl
  | cons x settled ih =>
    have hstep : sim.account (step s (sim.settle x.1 x.2)) =
        (sim.account s).step (.settle x.1 x.2) := by rw [sim.account_step, sim.event_settle]; rfl
    refine and_congr ⟨fun h => sim.honest s _ _ h (sim.event_settle s x.1 x.2),
      sim.legal_settle s x.1 x.2⟩ ?_
    rw [← hstep]
    exact ih (step s (sim.settle x.1 x.2))

/-- Over the legal runs of such a machine: the cap is kept in every state, whatever
the work then under way turns out to cost, exactly when all that is admitted finds room. -/
theorem Simulation.within_iff {ok : σ → ε → Prop}
    (hok : ∀ s e, legal s e →
      (ok s e ↔ ∀ x, sim.event s e = some x → (sim.account s).Roomy cap x))
    {start : σ} (hcovered : (sim.account start).Covered)
    (hcap : (sim.account start).committed ≤ cap) {events : List ε}
    (hlegal : Runs.Throughout step legal start events) :
    (∀ before after, events = before ++ after → ∀ settled : List (ℕ × α),
      Runs.Throughout step legal (Runs.run step start before)
        (settled.map fun x => sim.settle x.1 x.2) →
      (sim.account (Runs.run step (Runs.run step start before)
        (settled.map fun x => sim.settle x.1 x.2))).used ≤ cap) ↔
    Runs.Throughout step ok start events := by
  have hstep (s : σ) (e : ε) (h : legal s e) (hs : (sim.account s).Covered) :
      (sim.account (step s e)).Covered := by
    rw [sim.account_step]
    cases hx : sim.event s e with
    | none => exact hs
    | some x => exact hs.step (sim.honest s e x h hx)
  rw [Runs.throughout_iff (I := fun s => (sim.account s).committed ≤ cap) hstep
    (fun s e h hs hc => ?_) hcovered hcap hlegal]
  · refine forall_congr' fun before => forall_congr' fun after => forall_congr' fun hsplit => ?_
    subst hsplit
    have hbefore := (Runs.throughout_append.mp hlegal).1.run_keeps hstep hcovered
    simp only [sim.run_settled, sim.legal_settled]
    exact settled_within_iff hbefore
  · rw [hok s e h, sim.account_step]
    cases hx : sim.event s e with
    | none => simpa using hc
    | some x => simpa using roomy_iff hs (sim.honest s e x h hx) hc

end Simulation

end Order

end Reserve
