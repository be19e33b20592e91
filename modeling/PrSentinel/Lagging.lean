import Mathlib.Algebra.Order.BigOperators.Group.List
import Mathlib.Algebra.Order.Monoid.Unbundled.Pow
import Mathlib.Data.List.Forall2
import Mathlib.Tactic.Abel

/-!
Members that draw on a common total. Each has read the total once, when it joined, and has not
seen since what the members beside it draw.
-/

set_option autoImplicit false

namespace Lagging

universe u
variable {α : Type u}

structure Member (α : Type u) where
  number : ℕ
  base : α
  drawn : α
  beside : List ℕ := []
  live : Bool := true

section Sums
variable [AddCommGroup α] [LinearOrder α] [IsOrderedAddMonoid α]

def drawnBy (members : List (Member α)) : α := (members.map Member.drawn).sum

/-- Those a member had beside it when it joined, of these. -/
def Member.company (a : Member α) (members : List (Member α)) : List (Member α) :=
  members.filter fun b => b.number ∈ a.beside

def Member.past (a : Member α) (members : List (Member α)) : List (Member α) :=
  members.filter fun b => b.number ∉ a.beside

omit [LinearOrder α] [IsOrderedAddMonoid α] in
theorem drawnBy_split (a : Member α) (members : List (Member α)) :
    drawnBy members = drawnBy (a.past members) + drawnBy (a.company members) := by
  induction members with
  | nil => simp [drawnBy, Member.past, Member.company]
  | cons b members ih =>
    by_cases hb : b.number ∈ a.beside
    · simp_all [drawnBy, Member.past, Member.company]
      abel
    · simp_all [drawnBy, Member.past, Member.company]
      abel

/-- Newest first: each has read at least what was drawn by those done before it, who draw no
more, and has fewer than `k` beside it. -/
def Seen (k : ℕ) (before : α) : List (Member α) → Prop
  | [] => True
  | a :: older => before + drawnBy (a.past older) ≤ a.base ∧ (a.company older).length + 1 ≤ k ∧
      (∀ b ∈ a.past older, b.live = false) ∧ Seen k before older

/-- No member draws a negative amount or more than `most`, and with what it has read none that
draws comes above `cap`. -/
structure Bounded (most cap : α) (a : Member α) : Prop where
  nonneg : 0 ≤ a.drawn
  most : a.drawn ≤ most
  cap : 0 < a.drawn → a.base + a.drawn ≤ cap

theorem drawnBy_le {most : α} {members : List (Member α)} (h : ∀ a ∈ members, a.drawn ≤ most) :
    drawnBy members ≤ members.length • most := by
  have hsum := List.sum_le_card_nsmul (members.map Member.drawn) most
    (fun x hx => by
      obtain ⟨a, ha, rfl⟩ := List.mem_map.mp hx
      exact h a ha)
  rwa [List.length_map] at hsum

theorem total_le {k : ℕ} {before most cap : α} (hmost : 0 ≤ most) {members : List (Member α)}
    (hseen : Seen k before members) (hbounded : ∀ a ∈ members, Bounded most cap a) :
    before + drawnBy members ≤ max before (cap + (k - 1) • most) := by
  induction members with
  | nil => simp [drawnBy]
  | cons a older ih =>
    obtain ⟨hbase, hcompany, -, hrest⟩ := hseen
    obtain ⟨ha, hbounded⟩ := List.forall_mem_cons.mp hbounded
    have hcons : drawnBy (a :: older) = a.drawn + drawnBy older := by simp [drawnBy]
    rcases ha.nonneg.eq_or_lt with hnone | hsome
    · rw [hcons, ← hnone, zero_add]
      exact ih hrest hbounded
    · refine le_max_of_le_right ?_
      have hbeside : drawnBy (a.company older) ≤ (k - 1) • most := by
        refine (drawnBy_le fun b hb => (hbounded b (List.mem_of_mem_filter hb)).most).trans ?_
        exact nsmul_le_nsmul_left hmost (Nat.le_sub_of_add_le hcompany)
      calc before + drawnBy (a :: older)
          = (before + drawnBy (a.past older)) + a.drawn + drawnBy (a.company older) := by
            rw [hcons, drawnBy_split a older]
            abel
        _ ≤ a.base + a.drawn + (k - 1) • most := by gcongr
        _ ≤ cap + (k - 1) • most := by
            gcongr
            exact ha.cap hsome

structure Carried (a b : Member α) : Prop where
  number : b.number = a.number
  base : b.base = a.base
  beside : b.beside = a.beside
  done : a.live = false → b = a

omit [AddCommGroup α] [LinearOrder α] [IsOrderedAddMonoid α] in
theorem past_carried {a b : Member α} (hab : Carried a b) {xs ys : List (Member α)}
    (h : List.Forall₂ Carried xs ys) (hdone : ∀ x ∈ a.past xs, x.live = false) :
    b.past ys = a.past xs := by
  induction h with
  | nil => rfl
  | @cons x y xs ys hxy _ ih =>
    by_cases hx : x.number ∈ a.beside
    · have hskip : a.past (x :: xs) = a.past xs := by simp [Member.past, hx]
      have hskip' : b.past (y :: ys) = b.past ys := by
        simp [Member.past, hxy.number, hab.beside, hx]
      rw [hskip] at hdone ⊢
      rw [hskip', ih hdone]
    · have hkeep : a.past (x :: xs) = x :: a.past xs := by simp [Member.past, hx]
      have hkeep' : b.past (y :: ys) = y :: b.past ys := by
        simp [Member.past, hxy.number, hab.beside, hx]
      rw [hkeep] at hdone ⊢
      obtain ⟨hxdone, hdone⟩ := List.forall_mem_cons.mp hdone
      rw [hkeep', ih hdone, hxy.done hxdone]

omit [AddCommGroup α] [LinearOrder α] [IsOrderedAddMonoid α] in
theorem company_carried {a b : Member α} (hab : Carried a b) {xs ys : List (Member α)}
    (h : List.Forall₂ Carried xs ys) : (b.company ys).length = (a.company xs).length := by
  induction h with
  | nil => rfl
  | @cons x y xs ys hxy _ ih =>
    by_cases hx : x.number ∈ a.beside
    · have hy : y.number ∈ b.beside := by rwa [hxy.number, hab.beside]
      simpa [Member.company, hx, hy] using ih
    · have hy : y.number ∉ b.beside := by rwa [hxy.number, hab.beside]
      simpa [Member.company, hx, hy] using ih

omit [IsOrderedAddMonoid α] in
theorem Seen.carried {k : ℕ} {before : α} {xs ys : List (Member α)}
    (hxy : List.Forall₂ Carried xs ys) (h : Seen k before xs) : Seen k before ys := by
  induction hxy with
  | nil => trivial
  | cons hab hrest ih =>
    obtain ⟨hbase, hcompany, hdone, h⟩ := h
    have hpast := past_carried hab hrest hdone
    exact ⟨by rwa [hpast, hab.base], by rwa [company_carried hab hrest], by rwa [hpast], ih h⟩

end Sums

end Lagging
