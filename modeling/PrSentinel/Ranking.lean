import Mathlib.Data.List.Sort
import Mathlib.Order.RelIso.Set

/-!
The first few of a list in the order of their keys: who is among them, said by how many
come before.
-/

set_option autoImplicit false

namespace Ranking

universe u v
variable {α : Type u} {κ : Type v} [LinearOrder κ] (key : α → κ)

def inOrder (xs : List α) : List α := xs.insertionSort fun x y => key x ≤ key y

def leading (n : ℕ) (xs : List α) : List α := (inOrder key xs).take n

def ahead (xs : List α) (k : κ) : ℕ := xs.countP fun y => key y < k

theorem inOrder_perm (xs : List α) : (inOrder key xs).Perm xs := List.perm_insertionSort _ _

theorem inOrder_pairwise (xs : List α) : (inOrder key xs).Pairwise fun x y => key x ≤ key y := by
  have : Std.Total fun x y : α => key x ≤ key y := ⟨fun x y => le_total (key x) (key y)⟩
  have : IsTrans α fun x y => key x ≤ key y := ⟨fun _ _ _ => le_trans⟩
  exact List.pairwise_insertionSort _ xs

@[simp] theorem mem_inOrder {xs : List α} {x : α} : x ∈ inOrder key xs ↔ x ∈ xs :=
  (inOrder_perm key xs).mem_iff

theorem mem_of_mem_leading {n : ℕ} {xs : List α} {x : α} (h : x ∈ leading key n xs) : x ∈ xs :=
  (mem_inOrder key).mp (List.mem_of_mem_take h)

@[simp] theorem length_leading (n : ℕ) (xs : List α) :
    (leading key n xs).length = min n xs.length := by
  rw [leading, List.length_take, (inOrder_perm key xs).length_eq]

theorem leading_sublist (n : ℕ) (xs : List α) :
    ∃ ys, (leading key n xs).Sublist ys ∧ ys.Perm xs :=
  ⟨inOrder key xs, List.take_sublist n _, inOrder_perm key xs⟩

/-- Nobody left out comes before anybody who leads. -/
theorem le_of_left_out {n : ℕ} {xs : List α} {x y : α} (hx : x ∈ leading key n xs) (hy : y ∈ xs)
    (hout : y ∉ leading key n xs) : key x ≤ key y := by
  have hmem : y ∈ (inOrder key xs).take n ++ (inOrder key xs).drop n := by
    rw [List.take_append_drop]
    exact (mem_inOrder key).mpr hy
  have hrest : y ∈ (inOrder key xs).drop n := (List.mem_append.mp hmem).resolve_left hout
  have hsorted := inOrder_pairwise key xs
  rw [← List.take_append_drop n (inOrder key xs)] at hsorted
  exact (List.pairwise_append.mp hsorted).2.2 x hx y hrest

theorem ahead_eq {xs before after : List α} {x : α} (hkeys : (xs.map key).Nodup)
    (hsplit : inOrder key xs = before ++ x :: after) : ahead key xs (key x) = before.length := by
  have hsorted := inOrder_pairwise key xs
  have hnodup : ((inOrder key xs).map key).Nodup := ((inOrder_perm key xs).map key).nodup_iff.mpr hkeys
  rw [hsplit, List.pairwise_append] at hsorted
  rw [hsplit, List.map_append, List.nodup_append] at hnodup
  have hbefore : before.countP (fun y => key y < key x) = before.length := by
    refine List.countP_eq_length.mpr fun y hy => decide_eq_true ?_
    refine lt_of_le_of_ne (hsorted.2.2 y hy x List.mem_cons_self) ?_
    exact hnodup.2.2 _ (List.mem_map_of_mem hy) _ (List.mem_map_of_mem List.mem_cons_self)
  have hafter : after.countP (fun y => key y < key x) = 0 := by
    refine List.countP_eq_zero.mpr fun y hy => ?_
    simpa using (List.pairwise_cons.mp hsorted.2.1).1 y hy
  rw [ahead, ← (inOrder_perm key xs).countP_eq, hsplit, List.countP_append, List.countP_cons, hbefore,
    hafter]
  simp

/-- Among different keys, one leads if fewer than `n` are smaller. -/
theorem mem_leading_iff {n : ℕ} {xs : List α} (hkeys : (xs.map key).Nodup) {x : α} :
    x ∈ leading key n xs ↔ x ∈ xs ∧ ahead key xs (key x) < n := by
  constructor
  · intro h
    refine ⟨mem_of_mem_leading key h, ?_⟩
    obtain ⟨before, after, htake⟩ := List.append_of_mem h
    have hsplit : inOrder key xs = before ++ x :: (after ++ (inOrder key xs).drop n) := by
      rw [← List.cons_append, ← List.append_assoc, ← htake]
      exact (List.take_append_drop n _).symm
    have hlength := List.length_take_le n (inOrder key xs)
    rw [← leading, htake, List.length_append, List.length_cons] at hlength
    rw [ahead_eq key hkeys hsplit]
    omega
  · rintro ⟨hx, hlt⟩
    obtain ⟨before, after, hsplit⟩ := List.append_of_mem ((mem_inOrder key).mpr hx)
    rw [ahead_eq key hkeys hsplit] at hlt
    obtain ⟨k, hk⟩ : ∃ k, n - before.length = k + 1 := ⟨n - before.length - 1, by omega⟩
    rw [leading, hsplit, List.take_append, hk, List.take_succ_cons]
    exact List.mem_append_right _ List.mem_cons_self

variable {key} {xs : List α}

theorem mem_before (hsorted : xs.Pairwise fun x y => key x ≤ key y) {before after : List α}
    {x y : α} (hsplit : xs = before ++ y :: after) (hx : x ∈ xs) (hlt : key x < key y) :
    x ∈ before := by
  rw [hsplit] at hsorted hx
  have hbehind := (List.pairwise_cons.mp (List.pairwise_append.mp hsorted).2.1).1
  rcases List.mem_append.mp hx with hx | hx
  · exact hx
  · rcases List.mem_cons.mp hx with rfl | hx
    · exact absurd hlt (lt_irrefl _)
    · exact absurd (hbehind x hx) hlt.not_ge

theorem take_split {n : ℕ} {before after : List α} {y : α} (h : xs.take n = before ++ y :: after) :
    xs = before ++ y :: (after ++ xs.drop n) :=
  calc xs = xs.take n ++ xs.drop n := (List.take_append_drop n xs).symm
    _ = before ++ y :: (after ++ xs.drop n) := by rw [h, List.append_assoc, List.cons_append]

theorem sublist_take (hsorted : xs.Pairwise fun x y => key x ≤ key y) {n : ℕ} {x y : α}
    (hx : x ∈ xs) (hy : y ∈ xs.take n) (hlt : key x < key y) : [x, y].Sublist (xs.take n) := by
  obtain ⟨before, after, htake⟩ := List.append_of_mem hy
  have hbefore := mem_before hsorted (take_split htake) hx hlt
  rw [htake]
  exact (List.singleton_sublist.mpr hbefore).append ((List.nil_sublist after).cons_cons y)

theorem number_lt (hsorted : xs.Pairwise fun x y => key x ≤ key y) {ident : α → ℕ}
    (hids : (xs.map ident).Nodup) {limit n : ℕ} {x y : α} (hx : x ∈ xs) (hy : y ∈ xs)
    (hlt : key x < key y) (hn : (ident y, n) ∈ ((xs.take limit).map ident).zipIdx 1) :
    ∃ m < n, (ident x, m) ∈ ((xs.take limit).map ident).zipIdx 1 := by
  obtain ⟨hpos, hat⟩ := List.mk_mem_zipIdx_iff_le_and_getElem?_sub.mp hn
  have hmem : y ∈ xs.take limit := by
    obtain ⟨z, hz, heq⟩ := List.mem_map.mp (List.mem_of_getElem? hat)
    rwa [← List.inj_on_of_nodup_map hids (List.mem_of_mem_take hz) hy heq]
  obtain ⟨before, after, htake⟩ := List.append_of_mem hmem
  have hnumber : n - 1 = before.length := by
    have hnodup : ((xs.take limit).map ident).Nodup :=
      hids.sublist ((List.take_sublist limit xs).map ident)
    have hplace : ((xs.take limit).map ident)[before.length]? = some (ident y) := by
      rw [htake]
      simp
    obtain ⟨hlength, -⟩ := List.getElem?_eq_some_iff.mp hplace
    exact ((List.getElem?_inj hlength hnodup).mp (hplace.trans hat.symm)).symm
  obtain ⟨m, hm⟩ := List.mem_iff_getElem?.mp (mem_before hsorted (take_split htake) hx hlt)
  obtain ⟨hm', -⟩ := List.getElem?_eq_some_iff.mp hm
  refine ⟨m + 1, by omega, List.mk_mem_zipIdx_iff_le_and_getElem?_sub.mpr ⟨by omega, ?_⟩⟩
  rw [Nat.add_sub_cancel, List.getElem?_map, htake, List.getElem?_append_left hm', hm]
  rfl

end Ranking
