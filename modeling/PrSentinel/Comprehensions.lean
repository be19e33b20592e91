import PrSentinel.PythonText

/-!
Comprehensions whose condition may raise: which elements are asked, and what comes of
asking others.
-/

set_option autoImplicit false

namespace Python

universe u
variable {α : Type u}

def select (p : α → Except Exc Bool) : List α → Except Exc (List α)
  | [] => .ok []
  | x :: xs =>
    match p x with
    | .error e => .error e
    | .ok keep =>
      match select p xs with
      | .error e => .error e
      | .ok rest => .ok (if keep then x :: rest else rest)

def first (p : α → Except Exc Bool) : List α → Except Exc (Option α)
  | [] => .ok none
  | x :: xs =>
    match p x with
    | .error e => .error e
    | .ok true => .ok (some x)
    | .ok false => first p xs

def anyOf (p : α → Except Exc Bool) (xs : List α) : Except Exc Bool :=
  match first p xs with
  | .error e => .error e
  | .ok found => .ok found.isSome

def holds (b : Except Exc Bool) : Bool :=
  match b with
  | .ok b => b
  | .error _ => false

theorem holds_iff {b : Except Exc Bool} : holds b = true ↔ b = .ok true := by
  cases b with
  | error e => simp [holds]
  | ok b => simp [holds]

/-- It does not raise. -/
def Answers (p : α → Except Exc Bool) (x : α) : Prop := ∃ b, p x = .ok b

theorem Answers.cases {p : α → Except Exc Bool} {x : α} (h : Answers p x) :
    p x = .ok true ∨ p x = .ok false := by
  obtain ⟨b, hb⟩ := h
  cases b with
  | true => exact .inl hb
  | false => exact .inr hb

theorem mapM_cons_ok_iff {α β : Type} {f : α → Except Exc β} {x : α} {xs : List α} {zs : List β} :
    (x :: xs).mapM f = .ok zs ↔ ∃ y ys, f x = .ok y ∧ xs.mapM f = .ok ys ∧ zs = y :: ys := by
  rw [List.mapM_cons, ok_bind_iff]
  simp only [ok_bind_iff, pure, Except.pure, Except.ok.injEq, exists_and_left]
  exact exists_congr fun y => and_congr_right fun _ => by simp only [eq_comm]

theorem mapM_ok_iff {α β : Type} {f : α → Except Exc β} {xs : List α} :
    (∃ ys, xs.mapM f = .ok ys) ↔ ∀ x ∈ xs, ∃ y, f x = .ok y := by
  induction xs with
  | nil => exact iff_of_true ⟨[], rfl⟩ (by simp)
  | cons x xs ih =>
    simp only [mapM_cons_ok_iff, List.forall_mem_cons, ← ih]
    constructor
    · rintro ⟨_, y, ys, hy, hys, -⟩
      exact ⟨⟨y, hy⟩, ys, hys⟩
    · rintro ⟨⟨y, hy⟩, ys, hys⟩
      exact ⟨_, y, ys, hy, hys, rfl⟩

variable {p q : α → Except Exc Bool} {xs : List α}

theorem select_ok_iff {ys : List α} :
    select p xs = .ok ys ↔ (∀ x ∈ xs, Answers p x) ∧ ys = xs.filter fun x => holds (p x) := by
  induction xs generalizing ys with
  | nil => simp [select, eq_comm]
  | cons x xs ih =>
    simp only [select, List.forall_mem_cons, List.filter_cons]
    cases hx : p x with
    | error e => simp [Answers, hx]
    | ok keep =>
      have hanswers : Answers p x := ⟨keep, hx⟩
      cases hrest : select p xs with
      | error e =>
        refine iff_of_false (by simp) ?_
        rintro ⟨⟨-, hall⟩, -⟩
        rw [ih.mpr ⟨hall, rfl⟩] at hrest
        cases hrest
      | ok rest =>
        obtain ⟨hall, rfl⟩ := ih.mp hrest
        simp only [Except.ok.injEq, holds]
        exact ⟨fun h => ⟨⟨hanswers, hall⟩, h.symm⟩, fun h => h.2.symm⟩

theorem first_some {x : α} (h : first p xs = .ok (some x)) : x ∈ xs ∧ p x = .ok true := by
  induction xs with
  | nil => cases h
  | cons y ys ih =>
    unfold first at h
    split at h
    · cases h
    · rename_i hy
      cases h
      exact ⟨List.mem_cons_self, hy⟩
    · exact (ih h).imp_left (List.mem_cons_of_mem y)

theorem first_answers (h : ∀ x ∈ xs, Answers p x) : ∃ found, first p xs = .ok found := by
  induction xs with
  | nil => exact ⟨none, rfl⟩
  | cons x xs ih =>
    obtain ⟨hx, hxs⟩ := List.forall_mem_cons.mp h
    rcases hx.cases with hx | hx
    · exact ⟨some x, by simp [first, hx]⟩
    · simpa [first, hx] using ih hxs

theorem anyOf_answers (h : ∀ x ∈ xs, Answers p x) : ∃ b, anyOf p xs = .ok b := by
  obtain ⟨found, hfound⟩ := first_answers h
  exact ⟨found.isSome, by simp [anyOf, hfound]⟩

/-- `q` asks `p`, unless it can say no by itself. -/
def Weaker (q p : α → Except Exc Bool) : Prop := ∀ x, q x = p x ∨ q x = .ok false

theorem Weaker.answers {x : α} (h : Weaker q p) (hx : Answers p x) : Answers q x := by
  rcases h x with hq | hq
  · rwa [Answers, hq]
  · exact ⟨false, hq⟩

theorem Weaker.select_iff {ys : List α} (h : Weaker q p) (hp : select p xs = .ok ys) :
    select q xs = .ok ys ↔ ∀ x ∈ ys, q x = .ok true := by
  obtain ⟨hall, rfl⟩ := select_ok_iff.mp hp
  rw [select_ok_iff, and_iff_right fun x hx => h.answers (hall x hx)]
  constructor
  · intro heq x hx
    rw [heq] at hx
    exact holds_iff.mp (List.mem_filter.mp hx).2
  · intro hkeep
    refine List.filter_congr fun x hx => ?_
    rcases h x with hq | hq
    · rw [hq]
    · cases hpx : holds (p x) with
      | false => rw [hq, holds]
      | true =>
        have := hkeep x (List.mem_filter.mpr ⟨hx, hpx⟩)
        rw [this, holds]

theorem Weaker.first_iff {found : Option α} (h : Weaker q p) (hp : first p xs = .ok found) :
    first q xs = .ok found ↔ ∀ x ∈ found, q x = .ok true := by
  constructor
  · rintro hq x hx
    cases hx
    exact (first_some hq).2
  · intro hkeep
    induction xs with
    | nil => exact hp
    | cons y ys ih =>
      unfold first at hp
      split at hp
      · cases hp
      · cases hp
        simp [first, hkeep y rfl]
      · rename_i hy
        have hno : q y = .ok false := (h y).elim (fun hq => hq.trans hy) id
        simpa [first, hno] using ih hp

end Python
