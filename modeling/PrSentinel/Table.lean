import Mathlib.Algebra.Ring.Nat
import Mathlib.Data.List.Basic
import Mathlib.Data.List.Nodup

/-!
A relational table with one unique key. The constraint is a field, so no
statement below can leave a table that violates it.
-/

set_option autoImplicit false

namespace Relational

universe u v w
variable {ρ : Type u} {κ : Type v} [DecidableEq κ]

structure Table {ρ : Type u} {κ : Type v} (key : ρ → κ) where
  rows : List ρ
  unique : (rows.map key).Nodup

namespace Table
variable {key : ρ → κ}

def empty : Table key := ⟨[], List.nodup_nil⟩

def hasKey (t : Table key) (k : κ) : Bool := t.rows.any (fun r => key r = k)

theorem hasKey_iff {t : Table key} {k : κ} : t.hasKey k = true ↔ ∃ r ∈ t.rows, key r = k := by
  simp [hasKey]

theorem hasKey_false {t : Table key} {k : κ} :
    t.hasKey k = false ↔ ∀ r ∈ t.rows, key r ≠ k := by
  simp [hasKey]

def append (t : Table key) (r : ρ) (h : t.hasKey (key r) = false) : Table key :=
  ⟨t.rows ++ [r], by
    have hfresh := hasKey_false.mp h
    simp only [List.map_append, List.map_cons, List.map_nil]
    refine List.nodup_append.mpr ⟨t.unique, by simp, ?_⟩
    intro a ha b hb
    obtain ⟨s, hs, rfl⟩ := List.mem_map.mp ha
    rw [List.mem_singleton.mp hb]
    exact hfresh s hs⟩

/-- `INSERT … ON CONFLICT DO NOTHING RETURNING`: the table, and whether the
row went in. -/
def insertNew (t : Table key) (r : ρ) : Bool × Table key :=
  if h : t.hasKey (key r) = false then (true, t.append r h) else (false, t)

/-- The surrogate id of a row is the number of rows inserted before it: rows are
never deleted. -/
def idOf (t : Table key) (k : κ) : ℕ := t.rows.findIdx (fun r => key r = k)

def updateId (t : Table key) (i : ℕ) (f : ρ → ρ) (hf : ∀ r, key (f r) = key r) : Table key :=
  ⟨t.rows.modify i f, by
    have hkeys : (t.rows.modify i f).map key = t.rows.map key := by
      apply List.ext_getElem
      · simp
      · intro n _ _
        simp only [List.getElem_map, List.getElem_modify]
        split
        · exact hf _
        · rfl
    rw [hkeys]
    exact t.unique⟩

/-- `UPDATE … SET f WHERE p`; `f` leaves the key alone. -/
def update (t : Table key) (p : ρ → Bool) (f : ρ → ρ) (hf : ∀ r, key (f r) = key r) : Table key :=
  ⟨t.rows.map (fun r => if p r then f r else r), by
    have hkey : ∀ r, key (if p r then f r else r) = key r := by
      intro r
      split
      · exact hf r
      · rfl
    rw [List.map_map]
    simpa [Function.comp_def, hkey] using t.unique⟩

def upsert (t : Table key) (r : ρ) (f : ρ → ρ) (hf : ∀ r, key (f r) = key r) : Table key :=
  if h : t.hasKey (key r) = false then t.append r h
  else t.update (fun s => key s = key r) f hf

def delete (t : Table key) (p : ρ → Bool) : Table key :=
  ⟨t.rows.filter fun r => !p r, t.unique.sublist (List.filter_sublist.map key)⟩

@[simp] theorem rows_append (t : Table key) (r : ρ) (h : t.hasKey (key r) = false) :
    (t.append r h).rows = t.rows ++ [r] := rfl

theorem insertNew_cases (t : Table key) (r : ρ) :
    (t.hasKey (key r) = false ∧ (t.insertNew r).1 = true ∧
      (t.insertNew r).2.rows = t.rows ++ [r]) ∨
    (t.hasKey (key r) = true ∧ (t.insertNew r).1 = false ∧ (t.insertNew r).2 = t) := by
  cases hk : t.hasKey (key r) with
  | false => exact .inl ⟨rfl, by simp [insertNew, hk], by simp [insertNew, hk]⟩
  | true => exact .inr ⟨rfl, by simp [insertNew, hk], by simp [insertNew, hk]⟩

theorem mem_insertNew {t : Table key} {r s : ρ} (h : s ∈ (t.insertNew r).2.rows) :
    s ∈ t.rows ∨ s = r := by
  rcases t.insertNew_cases r with ⟨_, _, hrows⟩ | ⟨_, _, ht⟩
  · rw [hrows] at h
    simpa using h
  · rw [ht] at h
    exact .inl h

theorem mem_insertNew_of_mem {t : Table key} {r s : ρ} (h : s ∈ t.rows) :
    s ∈ (t.insertNew r).2.rows := by
  rcases t.insertNew_cases r with ⟨_, _, hrows⟩ | ⟨_, _, ht⟩
  · simp [hrows, h]
  · rwa [ht]

theorem insertNew_hasKey (t : Table key) (r : ρ) : (t.insertNew r).2.hasKey (key r) = true := by
  rcases t.insertNew_cases r with ⟨_, _, hrows⟩ | ⟨hk, _, ht⟩
  · exact hasKey_iff.mpr ⟨r, by simp [hrows], rfl⟩
  · rwa [ht]

theorem hasKey_insertNew {t : Table key} {r : ρ} {k : κ} :
    (t.insertNew r).2.hasKey k = true ↔ t.hasKey k = true ∨ k = key r := by
  constructor
  · intro h
    obtain ⟨s, hs, rfl⟩ := hasKey_iff.mp h
    rcases mem_insertNew hs with hs | rfl
    · exact .inl (hasKey_iff.mpr ⟨s, hs, rfl⟩)
    · exact .inr rfl
  · rintro (h | rfl)
    · obtain ⟨s, hs, rfl⟩ := hasKey_iff.mp h
      exact hasKey_iff.mpr ⟨s, mem_insertNew_of_mem hs, rfl⟩
    · exact t.insertNew_hasKey r

omit [DecidableEq κ] in
theorem mem_update {t : Table key} {p : ρ → Bool} {f : ρ → ρ} {hf : ∀ r, key (f r) = key r}
    {s : ρ} : s ∈ (t.update p f hf).rows ↔
      ∃ r ∈ t.rows, (if p r then f r else r) = s := by
  simp [update]

omit [DecidableEq κ] in
theorem mem_delete {t : Table key} {p : ρ → Bool} {r : ρ} :
    r ∈ (t.delete p).rows ↔ r ∈ t.rows ∧ p r = false := by
  simp [delete]

theorem mem_upsert_of_ne {t : Table key} {r : ρ} {f : ρ → ρ} {hf : ∀ r, key (f r) = key r} {s : ρ}
    (h : s ∈ t.rows) (hne : key s ≠ key r) : s ∈ (t.upsert r f hf).rows := by
  unfold upsert
  split
  · simp [h]
  · exact mem_update.mpr ⟨s, h, by simp [hne]⟩

theorem mem_upsert {t : Table key} {r : ρ} {f : ρ → ρ} {hf : ∀ r, key (f r) = key r} {s : ρ} :
    s ∈ (t.upsert r f hf).rows ↔ (s ∈ t.rows ∧ key s ≠ key r) ∨
      (t.hasKey (key r) = false ∧ s = r) ∨ ∃ q ∈ t.rows, key q = key r ∧ s = f q := by
  unfold upsert
  split
  · rename_i hnone
    have hkey := hasKey_false.mp hnone
    simp only [rows_append, List.mem_append, List.mem_singleton, hnone, true_and]
    constructor
    · rintro (h | h)
      · exact .inl ⟨h, hkey s h⟩
      · exact .inr (.inl h)
    · rintro (h | h | ⟨q, hq, heq, _⟩)
      · exact .inl h.1
      · exact .inr h
      · exact absurd heq (hkey q hq)
  · rename_i hsome
    rw [mem_update]
    constructor
    · rintro ⟨q, hq, rfl⟩
      by_cases heq : key q = key r
      · exact .inr (.inr ⟨q, hq, heq, by simp [heq]⟩)
      · exact .inl ⟨by simpa [heq] using hq, by simp [heq]⟩
    · rintro (⟨h, hne⟩ | ⟨hnone, -⟩ | ⟨q, hq, heq, rfl⟩)
      · exact ⟨s, h, by simp [hne]⟩
      · exact absurd hnone hsome
      · exact ⟨q, hq, by simp [heq]⟩

theorem upsert_hasKey (t : Table key) (r : ρ) (f : ρ → ρ) (hf : ∀ r, key (f r) = key r) :
    (t.upsert r f hf).hasKey (key r) = true := by
  unfold upsert
  split
  · exact hasKey_iff.mpr ⟨r, by simp, rfl⟩
  · rename_i hk
    obtain ⟨q, hq, hkey⟩ := hasKey_iff.mp (by simpa using hk)
    exact hasKey_iff.mpr ⟨f q, mem_update.mpr ⟨q, hq, by simp [hkey]⟩, by rw [hf, hkey]⟩

theorem hasKey_upsert {t : Table key} {r : ρ} {f : ρ → ρ} {hf : ∀ r, key (f r) = key r} {k : κ}
    (h : t.hasKey k = true) : (t.upsert r f hf).hasKey k = true := by
  obtain ⟨s, hs, rfl⟩ := hasKey_iff.mp h
  by_cases hkey : key s = key r
  · rw [hkey]
    exact t.upsert_hasKey r f hf
  · exact hasKey_iff.mpr ⟨s, mem_upsert_of_ne hs hkey, rfl⟩

theorem mem_upsert_value {β : Type w} {t : Table (Prod.fst : κ × β → κ)} {k k' : κ} {v v' : β} :
    (k', v') ∈ (t.upsert (k, v) (fun old => (old.1, v)) fun _ => rfl).rows ↔
      ((k', v') ∈ t.rows ∧ k' ≠ k) ∨ (k' = k ∧ v' = v) := by
  rw [mem_upsert]
  refine or_congr_right ?_
  constructor
  · rintro (⟨-, heq⟩ | ⟨q, -, hkey, heq⟩)
    · exact Prod.mk.inj heq
    · obtain ⟨rfl, rfl⟩ := Prod.mk.inj heq
      exact ⟨hkey, rfl⟩
  · rintro ⟨rfl, rfl⟩
    cases hhas : t.hasKey k' with
    | false => exact .inl ⟨rfl, rfl⟩
    | true =>
      obtain ⟨q, hq, hkey⟩ := hasKey_iff.mp hhas
      exact .inr ⟨q, hq, hkey, by rw [hkey]⟩

theorem keys_upsert (t : Table key) (r : ρ) (f : ρ → ρ) (hf : ∀ r, key (f r) = key r) :
    (t.upsert r f hf).rows.map key =
      if key r ∈ t.rows.map key then t.rows.map key else t.rows.map key ++ [key r] := by
  have hiff : key r ∈ t.rows.map key ↔ ¬ t.hasKey (key r) = false := by
    rw [Bool.not_eq_false, hasKey_iff, List.mem_map]
  unfold upsert
  split
  · rename_i hnone
    rw [if_neg (fun h => hiff.mp h hnone), rows_append, List.map_append]
    rfl
  · rename_i hsome
    rw [if_pos (hiff.mpr hsome), update, List.map_map]
    refine List.map_congr_left fun s _ => ?_
    rw [Function.comp_apply]
    split
    · exact hf s
    · rfl

def find? (t : Table key) (k : κ) : Option ρ := t.rows.find? fun r => key r = k

theorem hasKey_find? {t : Table key} {k : κ} : t.hasKey k = (t.find? k).isSome := by
  rw [hasKey, find?, List.isSome_find?]

theorem find?_key {t : Table key} {r : ρ} (h : r ∈ t.rows) : t.find? (key r) = some r := by
  cases hfound : t.find? (key r) with
  | none => simpa using List.find?_eq_none.mp hfound r h
  | some s =>
    have hs : key s = key r := by simpa using List.find?_some hfound
    rw [List.inj_on_of_nodup_map t.unique (List.mem_of_find?_eq_some hfound) h hs]

theorem mem_of_find? {t : Table key} {k : κ} {r : ρ} (h : t.find? k = some r) :
    r ∈ t.rows ∧ key r = k :=
  ⟨List.mem_of_find?_eq_some h, by simpa using List.find?_some h⟩

theorem find?_update_where {t : Table key} {p : ρ → Bool} {f : ρ → ρ} {hf : ∀ r, key (f r) = key r}
    (k : κ) : (t.update p f hf).find? k = (t.find? k).map fun s => if p s then f s else s := by
  have hkey (s : ρ) : key (if p s then f s else s) = key s := by
    split
    · exact hf s
    · rfl
  simp only [find?, update, List.find?_map, Function.comp_def, hkey]

theorem find?_update {t : Table key} {f : ρ → ρ} {hf : ∀ r, key (f r) = key r} (k k' : κ) :
    (t.update (fun s => key s = k) f hf).find? k' =
      (t.find? k').map fun s => if k' = k then f s else s := by
  rw [find?_update_where]
  cases hfound : t.find? k' with
  | none => rfl
  | some s =>
    have hs : key s = k' := by simpa using List.find?_some hfound
    simp [hs]

theorem find?_upsert {t : Table key} {r : ρ} {f : ρ → ρ} {hf : ∀ r, key (f r) = key r} (k : κ) :
    (t.upsert r f hf).find? k =
      if k = key r then some (((t.find? k).map f).getD r) else t.find? k := by
  unfold upsert
  split
  · rename_i hnone
    have hfresh : t.find? (key r) = none := by simpa [hasKey_find?] using hnone
    by_cases hk : k = key r
    · subst hk
      rw [find?] at hfresh
      simp [find?, List.find?_append, hfresh]
    · simp [find?, List.find?_append, hk, Ne.symm hk]
  · rename_i hsome
    rw [find?_update]
    by_cases hk : k = key r
    · subst hk
      have hfound : t.find? (key r) ≠ none := by simpa [hasKey_find?] using hsome
      obtain ⟨s, hs⟩ := Option.ne_none_iff_exists'.mp hfound
      simp [hs]
    · simp [hk]

theorem find?_insertNew {t : Table key} {r : ρ} (k : κ) : (t.insertNew r).2.find? k =
    if k = key r then some ((t.find? k).getD r) else t.find? k := by
  rcases t.insertNew_cases r with ⟨hfresh, -, hrows⟩ | ⟨hkey, -, ht⟩
  · have hnone : t.find? (key r) = none := by simpa [hasKey_find?] using hfresh
    rw [find?, hrows, List.find?_append]
    by_cases hk : k = key r
    · subst hk
      rw [find?] at hnone
      simp [find?, hnone]
    · simp [find?, hk, Ne.symm hk]
  · rw [ht]
    by_cases hk : k = key r
    · subst hk
      rw [hasKey_find?] at hkey
      obtain ⟨s, hs⟩ := Option.isSome_iff_exists.mp hkey
      simp [hs]
    · simp [hk]

def total (m : ρ → ℕ) (t : Table key) : ℕ := (t.rows.map m).sum

theorem total_update {t : Table key} {m : ρ → ℕ} {f : ρ → ρ} {hf : ∀ r, key (f r) = key r} {d : ℕ}
    {k : κ} (hk : t.hasKey k = true) (hm : ∀ s, m (f s) = m s + d) :
    total m (t.update (fun s => key s = k) f hf) = total m t + d := by
  obtain ⟨rows, hunique⟩ := t
  simp only [total, update, hasKey, decide_eq_true_eq] at hk ⊢
  induction rows with
  | nil => simp at hk
  | cons r rows ih =>
    simp only [List.map_cons, List.nodup_cons] at hunique
    simp only [List.map_cons, List.sum_cons]
    by_cases hr : key r = k
    · have hrest : (rows.map fun s => if key s = k then f s else s) = rows := by
        refine (List.map_congr_left fun s hs => ?_).trans (List.map_id rows)
        refine if_neg fun hkey => hunique.1 ?_
        rw [hr, ← hkey]
        exact List.mem_map_of_mem hs
      rw [if_pos hr, hm, hrest]
      omega
    · have hk : rows.any (fun s => key s = k) = true := by simpa [hr] using hk
      rw [if_neg hr, ih hunique.2 hk]
      omega

theorem total_upsert {t : Table key} {m : ρ → ℕ} {r : ρ} {f : ρ → ρ} {hf : ∀ r, key (f r) = key r}
    {d : ℕ} (hr : m r = d) (hm : ∀ s, m (f s) = m s + d) :
    total m (t.upsert r f hf) = total m t + d := by
  unfold upsert
  split
  · simp [total, hr]
  · rename_i hsome
    exact total_update (by simpa using hsome) hm

def keyOf (t : Table key) (i : ℕ) : Option κ := (t.rows[i]?).map key

theorem keyOf_idOf {t : Table key} {k : κ} (h : t.hasKey k = true) : t.keyOf (t.idOf k) = some k := by
  obtain ⟨r, hr, hk⟩ := hasKey_iff.mp h
  have hlt : t.idOf k < t.rows.length := List.findIdx_lt_length_of_exists ⟨r, hr, by simpa using hk⟩
  have hkey : key t.rows[t.idOf k] = k :=
    of_decide_eq_true (List.findIdx_getElem (p := fun r => decide (key r = k)) (w := hlt))
  rw [keyOf, List.getElem?_eq_getElem hlt, Option.map_some, hkey]

omit [DecidableEq κ] in
theorem keyOf_inj {t : Table key} {i j : ℕ} {k : κ} (hi : t.keyOf i = some k)
    (hj : t.keyOf j = some k) : i = j := by
  have hkeys (n : ℕ) : t.keyOf n = (t.rows.map key)[n]? := List.getElem?_map.symm
  rw [hkeys] at hi hj
  exact (List.getElem?_inj (List.getElem?_eq_some_iff.mp hi).1 t.unique).mp (hi.trans hj.symm)

/-- No statement changes the key under an id. -/
def Extends (t u : Table key) : Prop := ∀ i k, t.keyOf i = some k → u.keyOf i = some k

omit [DecidableEq κ] in
theorem Extends.refl (t : Table key) : t.Extends t := fun _ _ h => h

omit [DecidableEq κ] in
theorem Extends.trans {t u v : Table key} (h : t.Extends u) (h' : u.Extends v) : t.Extends v :=
  fun i k hk => h' i k (h i k hk)

theorem keyOf_append {t : Table key} {r : ρ} (h : t.hasKey (key r) = false) :
    t.Extends (t.append r h) := by
  intro i k hk
  obtain ⟨s, hs, hkey⟩ := Option.map_eq_some_iff.mp hk
  rw [keyOf, rows_append, List.getElem?_append_left (List.getElem?_eq_some_iff.mp hs).1, hs,
    Option.map_some, hkey]

theorem keyOf_insertNew {t : Table key} {r : ρ} {i : ℕ} {k : κ}
    (h : (t.insertNew r).2.keyOf i = some k) : t.keyOf i = some k ∨ k = key r := by
  obtain ⟨s, hs, rfl⟩ := Option.map_eq_some_iff.mp h
  rcases t.insertNew_cases r with ⟨_, _, hrows⟩ | ⟨_, _, ht⟩
  · rw [hrows, List.getElem?_append] at hs
    split_ifs at hs with hlt
    · exact .inl (by rw [keyOf, hs]; rfl)
    · rw [List.mem_singleton.mp (List.mem_of_getElem? hs)]
      exact .inr rfl
  · exact .inl (by rw [← ht]; exact h)

omit [DecidableEq κ] in
theorem keyOf_updateId {t : Table key} (i : ℕ) {f : ρ → ρ} {hf : ∀ r, key (f r) = key r} (j : ℕ) :
    (t.updateId i f hf).keyOf j = t.keyOf j := by
  simp only [keyOf, updateId, List.getElem?_modify]
  cases t.rows[j]? with
  | none => rfl
  | some r => by_cases hij : i = j <;> simp [hij, hf]

omit [DecidableEq κ] in
theorem keyOf_update {t : Table key} {p : ρ → Bool} {f : ρ → ρ} {hf : ∀ r, key (f r) = key r}
    (j : ℕ) : (t.update p f hf).keyOf j = t.keyOf j := by
  simp only [keyOf, update, List.getElem?_map, Option.map_map]
  cases t.rows[j]? with
  | none => rfl
  | some r => by_cases hp : p r = true <;> simp [hp, hf]

theorem insertNew_extends (t : Table key) (r : ρ) : t.Extends (t.insertNew r).2 := by
  unfold insertNew
  split
  · exact keyOf_append (by assumption)
  · exact Extends.refl t

theorem upsert_extends (t : Table key) (r : ρ) (f : ρ → ρ) (hf : ∀ r, key (f r) = key r) :
    t.Extends (t.upsert r f hf) := by
  unfold upsert
  split
  · exact keyOf_append (by assumption)
  · exact fun i k hk => (keyOf_update i).trans hk

end Table

end Relational
