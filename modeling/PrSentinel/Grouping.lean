import Mathlib.Data.List.Dedup
import Mathlib.Data.List.Perm.Basic

/-!
Rows in groups, with one row for each group. An aggregate that can be taken in stages comes
out the same over groups of groups as over what is in them.
-/

set_option autoImplicit false

namespace Grouping

universe u v w z
variable {α : Type u} {κ : Type v} {β : Type w} {ι : Type z} [DecidableEq κ] [DecidableEq ι]

def keys (key : α → κ) (xs : List α) : List κ := (xs.map key).dedup

def members (key : α → κ) (xs : List α) (k : κ) : List α := xs.filter fun x => key x = k

def groupBy (key : α → κ) (agg : List α → β) (xs : List α) : List (κ × β) :=
  (keys key xs).map fun k => (k, agg (members key xs k))

theorem mem_keys {key : α → κ} {xs : List α} {k : κ} : k ∈ keys key xs ↔ ∃ x ∈ xs, key x = k := by
  rw [keys, List.mem_dedup, List.mem_map]

theorem keys_nodup (key : α → κ) (xs : List α) : (keys key xs).Nodup := List.nodup_dedup _

theorem flatMap_members {key : α → κ} {xs : List α} {ks : List κ} (hks : ks.Nodup) :
    (ks.flatMap (members key xs)).Perm (xs.filter fun x => key x ∈ ks) := by
  induction ks with
  | nil => simp
  | cons k ks ih =>
    obtain ⟨hk, hks⟩ := List.nodup_cons.mp hks
    rw [List.flatMap_cons]
    refine ((ih hks).append_left _).trans ?_
    have hsplit := List.filter_append_perm (fun x => decide (key x = k))
      (xs.filter fun x => key x ∈ k :: ks)
    rw [List.filter_filter, List.filter_filter] at hsplit
    have hfirst : (fun x => decide (key x = k) && decide (key x ∈ k :: ks)) =
        fun x => decide (key x = k) := by
      funext x
      by_cases hx : key x = k <;> simp [hx]
    have hrest : (fun x => !decide (key x = k) && decide (key x ∈ k :: ks)) =
        fun x => decide (key x ∈ ks) := by
      funext x
      by_cases hx : key x = k
      · simp [hx, hk]
      · simp [hx]
    rwa [hfirst, hrest] at hsplit

/-- An aggregate that does not look at the order, taken in stages by another. -/
structure Staged (agg : List α → β) (merge : List β → β) : Prop where
  flatten : ∀ xss : List (List α), merge (xss.map agg) = agg xss.flatten
  perm : ∀ {xs ys : List α}, xs.Perm ys → agg xs = agg ys

section Staged
variable {agg : List α → β} {merge : List β → β} (h : Staged agg merge)
include h

theorem Staged.merge_groups (key : α → κ) (p : κ → Bool) (xs : List α) :
    merge (((groupBy key agg xs).filter fun r => p r.1).map Prod.snd) =
      agg (xs.filter fun x => p (key x)) := by
  have hgroups : ((groupBy key agg xs).filter fun r => p r.1).map Prod.snd =
      (((keys key xs).filter p).map (members key xs)).map agg := by
    rw [groupBy, List.filter_map, List.map_map, List.map_map]
    rfl
  rw [hgroups, h.flatten]
  refine h.perm ((flatMap_members ((keys_nodup key xs).filter p)).trans (.of_eq ?_))
  refine List.filter_congr fun x hx => ?_
  have hkey : key x ∈ keys key xs := mem_keys.mpr ⟨x, hx, rfl⟩
  cases hp : p (key x) with
  | false => simp [hp]
  | true => exact decide_eq_true (List.mem_filter.mpr ⟨hkey, hp⟩)

theorem Staged.rollup (key : α → κ) (outer : κ → ι) (p : κ → Bool) (xs : List α) :
    (groupBy (fun r : κ × β => outer r.1) (fun rows => merge (rows.map Prod.snd))
      ((groupBy key agg xs).filter fun r => p r.1)).Perm
    (groupBy (fun x => outer (key x)) agg (xs.filter fun x => p (key x))) := by
  have hmerge (i : ι) : merge ((members (fun r : κ × β => outer r.1)
      ((groupBy key agg xs).filter fun r => p r.1) i).map Prod.snd) =
        agg (members (fun x => outer (key x)) (xs.filter fun x => p (key x)) i) := by
    rw [members, List.filter_filter, members, List.filter_filter]
    exact h.merge_groups key (fun k => decide (outer k = i) && p k) xs
  have hkeys : (keys (fun r : κ × β => outer r.1)
      ((groupBy key agg xs).filter fun r => p r.1)).Perm
        (keys (fun x => outer (key x)) (xs.filter fun x => p (key x))) := by
    refine (List.perm_ext_iff_of_nodup (keys_nodup _ _) (keys_nodup _ _)).mpr fun i => ?_
    rw [mem_keys, mem_keys]
    constructor
    · rintro ⟨r, hr, rfl⟩
      obtain ⟨hr, hp⟩ := List.mem_filter.mp hr
      obtain ⟨k, hk, rfl⟩ := List.mem_map.mp hr
      obtain ⟨x, hx, rfl⟩ := mem_keys.mp hk
      exact ⟨x, List.mem_filter.mpr ⟨hx, hp⟩, rfl⟩
    · rintro ⟨x, hx, rfl⟩
      obtain ⟨hx, hp⟩ := List.mem_filter.mp hx
      refine ⟨(key x, agg (members key xs (key x))), List.mem_filter.mpr ⟨?_, hp⟩, rfl⟩
      exact List.mem_map_of_mem (mem_keys.mpr ⟨x, hx, rfl⟩)
  have hrows : groupBy (fun r : κ × β => outer r.1) (fun rows => merge (rows.map Prod.snd))
      ((groupBy key agg xs).filter fun r => p r.1) =
        (keys (fun r : κ × β => outer r.1) ((groupBy key agg xs).filter fun r => p r.1)).map fun i =>
          (i, agg (members (fun x => outer (key x)) (xs.filter fun x => p (key x)) i)) :=
    List.map_congr_left fun i _ => congrArg (Prod.mk i) (hmerge i)
  rw [hrows]
  exact hkeys.map _

end Staged

end Grouping
