import Mathlib.Data.List.Basic

/-!
Straight-line effectful code whose every call may return, raise an exception or
take the process down, in the last two cases before or after its effect landed.
An exception can be caught; a crash cannot. The state outlives both.
-/

set_option autoImplicit false

namespace Crash

universe u
variable {σ α β : Type u}

inductive Abort where
  | raised | crashed
  deriving DecidableEq, Repr

/-- What the environment decides for one call. -/
inductive Fate where
  | returns
  | raises (applied : Bool)
  | crashes (applied : Bool)
  deriving DecidableEq, Repr

def Fate.applied : Fate → Bool
  | .returns => true
  | .raises b | .crashes b => b

@[simp] theorem Fate.applied_returns : Fate.returns.applied = true := rfl
@[simp] theorem Fate.applied_raises (b : Bool) : (Fate.raises b).applied = b := rfl
@[simp] theorem Fate.applied_crashes (b : Bool) : (Fate.crashes b).applied = b := rfl

def Exec (σ α : Type u) := σ → Except Abort α × σ

namespace Exec

def ret (a : α) : Exec σ α := fun s => (.ok a, s)

def andThen (m : Exec σ α) (f : α → Exec σ β) : Exec σ β := fun s =>
  match m s with
  | (.ok a, t) => f a t
  | (.error e, t) => (.error e, t)

instance : Monad (Exec σ) where
  pure := ret
  bind := andThen

theorem bind_apply (m : Exec σ α) (f : α → Exec σ β) (s : σ) :
    (m >>= f) s = match m s with
      | (.ok a, t) => f a t
      | (.error e, t) => (.error e, t) := rfl

theorem bind_pure_state (m : Exec σ α) (b : β) (s : σ) :
    ((m >>= fun _ => pure b) s).2 = (m s).2 := by
  rw [bind_apply]
  cases m s with
  | mk r t => cases r <;> rfl

def abort (e : Abort) : Exec σ α := fun s => (.error e, s)

def call (fate : Fate) (effect : σ → α × σ) : Exec σ α := fun s =>
  let t := if fate.applied then (effect s).2 else s
  match fate with
  | .returns => (.ok (effect s).1, t)
  | .raises _ => (.error .raised, t)
  | .crashes _ => (.error .crashed, t)

theorem call_returns (effect : σ → α × σ) (s : σ) :
    call .returns effect s = (.ok (effect s).1, (effect s).2) := rfl

theorem call_state (fate : Fate) (effect : σ → α × σ) (s : σ) :
    (call fate effect s).2 = if fate.applied then (effect s).2 else s := by
  cases fate <;> rfl

theorem call_lost {fate : Fate} (h : fate ≠ .returns) (effect : σ → α × σ) (s : σ) :
    ∃ e, call fate effect s = (.error e, if fate.applied then (effect s).2 else s) := by
  cases fate with
  | returns => exact absurd rfl h
  | raises b => exact ⟨.raised, rfl⟩
  | crashes b => exact ⟨.crashed, rfl⟩

def guarded (body handler : Exec σ α) : Exec σ α := fun s =>
  match body s with
  | (.error .raised, t) => handler t
  | r => r

def forEach (body : α → Exec σ PUnit.{u+1}) : List α → Exec σ PUnit.{u+1}
  | [] => pure ⟨⟩
  | a :: as => do
    body a
    forEach body as

/-- From a state in `P` the program returns in `Q` or leaves early in `E`. -/
def Triple (P : σ → Prop) (m : Exec σ α) (Q : α → σ → Prop) (E : Abort → σ → Prop) : Prop :=
  ∀ s, P s → match m s with
    | (.ok a, t) => Q a t
    | (.error e, t) => E e t

variable {P P' : σ → Prop} {E E' : Abort → σ → Prop}

theorem Triple.ret {a : α} {Q : α → σ → Prop} (h : ∀ s, P s → Q a s) :
    Triple P (pure a) Q E := h

theorem Triple.bind {m : Exec σ α} {f : α → Exec σ β} {R : α → σ → Prop} {Q : β → σ → Prop}
    (hm : Triple P m R E) (hf : ∀ a, Triple (R a) (f a) Q E) : Triple P (m >>= f) Q E := by
  intro s hs
  have h := hm s hs
  change match andThen m f s with
    | (.ok a, t) => Q a t
    | (.error e, t) => E e t
  unfold andThen
  cases hr : m s with
  | mk r t =>
    rw [hr] at h
    cases r with
    | ok a => exact hf a t h
    | error e => exact h

theorem Triple.call {fate : Fate} {effect : σ → α × σ} {Q : α → σ → Prop}
    (ok : ∀ s, P s → fate = .returns → Q (effect s).1 (effect s).2)
    (applied : ∀ s, P s → fate ≠ .returns → ∀ e, E e (effect s).2)
    (skipped : ∀ s, P s → fate ≠ .returns → ∀ e, E e s) :
    Triple P (Exec.call fate effect) Q E := by
  intro s hs
  unfold Exec.call
  cases fate with
  | returns => exact ok s hs rfl
  | raises b => cases b <;> simp [Fate.applied, applied s hs, skipped s hs]
  | crashes b => cases b <;> simp [Fate.applied, applied s hs, skipped s hs]

theorem Triple.call_then {fate : Fate} {effect : σ → α × σ} {f : α → Exec σ β}
    {Q : β → σ → Prop} {s₀ : σ} (hstop : fate ≠ .returns → ∀ e s, E e s)
    (hrest : fate = .returns → Triple (fun s => s = (effect s₀).2) (f (effect s₀).1) Q E) :
    Triple (fun s => s = s₀) (Exec.call fate effect >>= f) Q E := by
  apply Triple.bind (R := fun a s => fate = .returns ∧ a = (effect s₀).1 ∧ s = (effect s₀).2)
  · refine Triple.call (fun s hs hreturns => ?_) (fun _ _ hne e => hstop hne e _)
      fun _ _ hne e => hstop hne e _
    subst hs
    exact ⟨hreturns, rfl, rfl⟩
  · intro a s h
    obtain ⟨hreturns, rfl, hs⟩ := h
    exact hrest hreturns s hs

theorem Triple.guarded {body handler : Exec σ α} {Q : α → σ → Prop} {C : σ → Prop}
    (hbody : Triple P body Q (fun e s => match e with | .raised => C s | .crashed => E .crashed s))
    (hhandler : Triple C handler Q E) : Triple P (Exec.guarded body handler) Q E := by
  intro s hs
  have h := hbody s hs
  unfold Exec.guarded
  cases hr : body s with
  | mk r t =>
    rw [hr] at h
    cases r with
    | ok a => exact h
    | error e =>
      cases e with
      | raised => exact hhandler t h
      | crashed => exact h

theorem Triple.imp {m : Exec σ α} {Q Q' : α → σ → Prop} (h : Triple P m Q E)
    (hP : ∀ s, P' s → P s) (hQ : ∀ a s, Q a s → Q' a s) (hE : ∀ e s, E e s → E' e s) :
    Triple P' m Q' E' := by
  intro s hs
  have h := h s (hP s hs)
  cases hr : m s with
  | mk r t =>
    rw [hr] at h
    cases r with
    | ok a => exact hQ a t h
    | error e => exact hE e t h

theorem Triple.assume {φ : Prop} {m : Exec σ α} {Q : α → σ → Prop} (h : φ → Triple P m Q E) :
    Triple (fun s => P s ∧ φ) m Q E := fun s hs => h hs.2 s hs.1

/-- The loop rule: the invariant is indexed by the elements still to come. -/
theorem Triple.forEach {body : α → Exec σ PUnit.{u+1}} {I : List α → σ → Prop}
    (h : ∀ a as, Triple (I (a :: as)) (body a) (fun _ => I as) E) (as : List α) :
    Triple (I as) (Exec.forEach body as) (fun _ => I []) E := by
  induction as with
  | nil => exact fun s hs => hs
  | cons a as ih => exact Triple.bind (h a as) fun _ => ih

theorem triple_state {m : Exec σ α} {G : σ → Prop} :
    Triple P m (fun _ => G) (fun _ => G) ↔ ∀ s, P s → G (m s).2 := by
  refine forall_congr' fun s => imp_congr_right fun _ => ?_
  cases m s with
  | mk r t => cases r <;> rfl

theorem Triple.and {m : Exec σ α} {Q Q' : α → σ → Prop} (h : Triple P m Q E)
    (h' : Triple P' m Q' E') : Triple (fun s => P s ∧ P' s) m (fun a s => Q a s ∧ Q' a s)
      (fun e s => E e s ∧ E' e s) := by
  intro s hs
  have h := h s hs.1
  have h' := h' s hs.2
  cases hr : m s with
  | mk r t =>
    rw [hr] at h h'
    cases r with
    | ok a => exact ⟨h, h'⟩
    | error e => exact ⟨h, h'⟩

theorem Triple.all {ι : Sort*} {m : Exec σ α} {Q : ι → α → σ → Prop} {E : ι → Abort → σ → Prop}
    (h : ∀ i, Triple P m (Q i) (E i)) :
    Triple P m (fun a s => ∀ i, Q i a s) (fun e s => ∀ i, E i e s) := by
  intro s hs
  cases hr : m s with
  | mk r t =>
    cases r with
    | ok a =>
      intro i
      have hi := h i s hs
      rw [hr] at hi
      exact hi
    | error e =>
      intro i
      have hi := h i s hs
      rw [hr] at hi
      exact hi

def Keeps (I : σ → Prop) (m : Exec σ α) : Prop := ∀ s, I s → I (m s).2

theorem keeps_iff {I : σ → Prop} {m : Exec σ α} :
    Keeps I m ↔ Triple I m (fun _ => I) (fun _ => I) := triple_state.symm

theorem Keeps.triple {I : σ → Prop} {m : Exec σ α} (h : Keeps I m) :
    Triple I m (fun _ => I) (fun _ => I) := keeps_iff.mp h

theorem Keeps.ret {I : σ → Prop} (a : α) : Keeps I (pure a : Exec σ α) := fun _ h => h

theorem Keeps.bind {I : σ → Prop} {m : Exec σ α} {f : α → Exec σ β} (hm : Keeps I m)
    (hf : ∀ a, Keeps I (f a)) : Keeps I (m >>= f) :=
  keeps_iff.mpr (Triple.bind hm.triple fun a => (hf a).triple)

theorem Keeps.call {I : σ → Prop} {fate : Fate} {effect : σ → α × σ}
    (h : ∀ s, I s → I (effect s).2) : Keeps I (Exec.call fate effect) :=
  keeps_iff.mpr (Triple.call (fun s hs _ => h s hs) (fun s hs _ _ => h s hs) fun _ hs _ _ => hs)

theorem Keeps.guarded {I : σ → Prop} {body handler : Exec σ α} (hb : Keeps I body)
    (hh : Keeps I handler) : Keeps I (Exec.guarded body handler) := by
  refine keeps_iff.mpr (Triple.guarded (C := I) (hb.triple.imp (fun _ h => h) (fun _ _ h => h) ?_)
    hh.triple)
  intro e s h
  cases e <;> exact h

theorem Keeps.forEach {I : σ → Prop} {body : α → Exec σ PUnit.{u+1}} (h : ∀ a, Keeps I (body a))
    (as : List α) : Keeps I (Exec.forEach body as) :=
  keeps_iff.mpr (Triple.forEach (I := fun _ => I) (fun a _ => (h a).triple) as)

end Exec

end Crash
