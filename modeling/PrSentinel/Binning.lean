import Mathlib.Algebra.BigOperators.Group.List.Basic
import Mathlib.Algebra.Order.BigOperators.Group.List
import Mathlib.Algebra.Order.BigOperators.Group.Multiset
import Mathlib.Algebra.BigOperators.Group.Multiset.Basic
import Mathlib.Data.Multiset.Bind

/-!
Values sorted into half-open bins laid end to end. What is summed bin by bin is summed
once, so the error of the bins bounds the error of the whole.
-/

set_option autoImplicit false

namespace Binning

universe u v w
variable {α : Type u} {κ : Type v} {M : Type w} [LinearOrder κ]

def holds (bin : κ × κ) (x : κ) : Bool := bin.1 ≤ x && x < bin.2

/-- Bins from `lo` to `hi`, each beginning where the one before ends. -/
inductive Tiles : κ → List (κ × κ) → κ → Prop where
  | nil (lo : κ) : Tiles lo [] lo
  | cons {lo mid hi : κ} {bins : List (κ × κ)} :
      lo ≤ mid → Tiles mid bins hi → Tiles lo ((lo, mid) :: bins) hi

theorem holds_iff {bin : κ × κ} {x : κ} : holds bin x = true ↔ bin.1 ≤ x ∧ x < bin.2 := by
  simp [holds]

namespace Tiles
variable {lo hi x : κ} {bins : List (κ × κ)}

theorem le (h : Tiles lo bins hi) : lo ≤ hi := by
  induction h with
  | nil => exact le_rfl
  | cons hle _ ih => exact hle.trans ih

theorem starts (h : Tiles lo bins hi) : ∀ bin ∈ bins, lo ≤ bin.1 := by
  induction h with
  | nil => simp
  | cons hle _ ih =>
    exact List.forall_mem_cons.mpr ⟨le_rfl, fun bin hbin => hle.trans (ih bin hbin)⟩

theorem not_holds (h : Tiles lo bins hi) (hx : x < lo) : ∀ bin ∈ bins, holds bin x = false := by
  intro bin hbin
  have hstart : x < bin.1 := hx.trans_le (h.starts bin hbin)
  simp [holds, hstart]

variable [AddCommMonoid M]

theorem sum_not_holds (h : Tiles lo bins hi) (hx : x < lo) (c : M) :
    (bins.map fun bin => if holds bin x then c else 0).sum = 0 := by
  refine List.sum_eq_zero fun y hy => ?_
  obtain ⟨bin, hbin, rfl⟩ := List.mem_map.mp hy
  simp [h.not_holds hx bin hbin]

theorem sum_holds (h : Tiles lo bins hi) (hlo : lo ≤ x) (hhi : x < hi) (c : M) :
    (bins.map fun bin => if holds bin x then c else 0).sum = c := by
  induction h with
  | nil => exact absurd hhi hlo.not_gt
  | @cons lo mid hi bins hle htiles ih =>
    rw [List.map_cons, List.sum_cons]
    rcases lt_or_ge x mid with hx | hx
    · rw [htiles.sum_not_holds hx, if_pos (holds_iff.mpr ⟨hlo, hx⟩), add_zero]
    · have hout : holds (lo, mid) x = false := by simp [holds, hx.not_gt]
      rw [ih hx hhi, hout, if_neg Bool.false_ne_true, zero_add]

theorem existsUnique (h : Tiles lo bins hi) (hlo : lo ≤ x) (hhi : x < hi) :
    ∃! bin, bin ∈ bins ∧ holds bin x = true := by
  induction h with
  | nil => exact absurd hhi hlo.not_gt
  | @cons lo mid hi bins hle htiles ih =>
    rcases lt_or_ge x mid with hx | hx
    · refine ⟨(lo, mid), ⟨List.mem_cons_self, holds_iff.mpr ⟨hlo, hx⟩⟩, ?_⟩
      rintro bin ⟨hbin, hholds⟩
      rcases List.mem_cons.mp hbin with rfl | hbin
      · rfl
      · exact absurd hholds (by simp [htiles.not_holds hx bin hbin])
    · obtain ⟨bin, ⟨hbin, hholds⟩, honly⟩ := ih hx hhi
      refine ⟨bin, ⟨List.mem_cons_of_mem _ hbin, hholds⟩, ?_⟩
      rintro other ⟨hother, hin⟩
      rcases List.mem_cons.mp hother with rfl | hother
      · exact absurd (holds_iff.mp hin).2 hx.not_gt
      · exact honly other ⟨hother, hin⟩

end Tiles

section Sums
variable (key : α → κ)

def members (xs : List α) (bin : κ × κ) : List α := xs.filter fun x => holds bin (key x)

variable {key} {lo hi : κ} {bins : List (κ × κ)} {xs : List α} {x : α}

theorem mem_members {bin : κ × κ} : x ∈ members key xs bin ↔ x ∈ xs ∧ holds bin (key x) = true :=
  List.mem_filter

theorem sum_members_cons [AddCommMonoid M] (g : α → M) :
    (bins.map fun bin => ((members key (x :: xs) bin).map g).sum).sum =
      (bins.map fun bin => if holds bin (key x) then g x else 0).sum +
        (bins.map fun bin => ((members key xs bin).map g).sum).sum := by
  rw [← List.sum_map_add]
  refine congrArg List.sum (List.map_congr_left fun bin _ => ?_)
  cases hin : holds bin (key x) with
  | true => simp [members, hin]
  | false => simp [members, hin]

theorem sum_bins [AddCommMonoid M] (h : Tiles lo bins hi) (g : α → M)
    (hxs : ∀ x ∈ xs, lo ≤ key x ∧ key x < hi) :
    (bins.map fun bin => ((members key xs bin).map g).sum).sum = (xs.map g).sum := by
  induction xs with
  | nil => exact List.sum_eq_zero (by simp [members])
  | cons x xs ih =>
    obtain ⟨hx, hxs⟩ := List.forall_mem_cons.mp hxs
    rw [sum_members_cons, h.sum_holds hx.1 hx.2, ih hxs, List.map_cons, List.sum_cons]

theorem sum_singletons (xs : List α) : (xs.map fun x => ({x} : Multiset α)).sum = xs := by
  simpa using Multiset.sum_map_singleton (xs : Multiset α)

theorem members_perm (h : Tiles lo bins hi) (hxs : ∀ x ∈ xs, lo ≤ key x ∧ key x < hi) :
    (bins.flatMap (members key xs)).Perm xs := by
  refine Multiset.coe_eq_coe.mp ?_
  calc ((bins.flatMap (members key xs) : List α) : Multiset α)
      = (bins.map fun bin => (members key xs bin : Multiset α)).sum := by
        rw [← Multiset.coe_bind]
        rfl
    _ = (bins.map fun bin => ((members key xs bin).map fun x => ({x} : Multiset α)).sum).sum := by
        simp only [sum_singletons]
    _ = (xs.map fun x => ({x} : Multiset α)).sum := sum_bins h (fun x => ({x} : Multiset α)) hxs
    _ = xs := sum_singletons xs

end Sums

section Error
variable [AddCommGroup M] [LinearOrder M] (key : α → κ) (g : α → M)

/-- What the bins are off by, each on its own. -/
def binned (bins : List (κ × κ)) (xs : List α) : M :=
  (bins.map fun bin => |((members key xs bin).map g).sum|).sum

variable {key g} {lo hi : κ} {bins : List (κ × κ)} {xs ys : List α}

theorem binned_perm (h : xs.Perm ys) : binned key g bins xs = binned key g bins ys := by
  refine congrArg List.sum (List.map_congr_left fun bin _ => ?_)
  rw [members, members, ((h.filter _).map g).sum_eq]

variable [IsOrderedAddMonoid M]

theorem abs_sum_le (xs : List M) : |xs.sum| ≤ (xs.map abs).sum := by
  simpa using Multiset.abs_sum_le_sum_abs (s := (xs : Multiset M))

theorem binned_nonneg : 0 ≤ binned key g bins xs := by
  refine List.sum_nonneg fun y hy => ?_
  obtain ⟨bin, -, rfl⟩ := List.mem_map.mp hy
  exact abs_nonneg _

theorem abs_sum_le_binned (h : Tiles lo bins hi) (hxs : ∀ x ∈ xs, lo ≤ key x ∧ key x < hi) :
    |(xs.map g).sum| ≤ binned key g bins xs := by
  rw [← sum_bins h g hxs]
  refine (abs_sum_le _).trans_eq ?_
  rw [List.map_map]
  rfl

theorem binned_le (h : Tiles lo bins hi) (hxs : ∀ x ∈ xs, lo ≤ key x ∧ key x < hi) :
    binned key g bins xs ≤ (xs.map fun x => |g x|).sum := by
  rw [← sum_bins h (fun x => |g x|) hxs]
  refine List.sum_le_sum fun bin _ => ?_
  refine (abs_sum_le _).trans_eq ?_
  rw [List.map_map]
  rfl

end Error

end Binning
