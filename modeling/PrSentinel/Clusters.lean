import Mathlib.Data.List.Basic
import Mathlib.Data.List.Induction
import Mathlib.Data.List.Dedup
import Mathlib.Data.List.Pairwise
import Mathlib.Data.Multiset.Filter
import Mathlib.Logic.Relation
import Mathlib.Order.Defs.LinearOrder
import Mathlib.Tactic.ByContra

/-!
First-fit clustering. Elements arrive one at a time and each joins the first
cluster that holds an element it is related to, or opens a cluster of its own.
Of a relation that is an equivalence on the input the clusters are the classes; of
one that is only reflexive and symmetric they are the components, unless an element
arrives that bridges two of them.
-/

set_option autoImplicit false

namespace Greedy

universe u v w
variable {α : Type u} {κ : Type v} {β : Type w}

/-- A nonempty list, in the order in which the members joined. -/
structure Cluster (α : Type u) where
  first : α
  rest : List α
  deriving DecidableEq, Repr

namespace Cluster

def members (c : Cluster α) : List α := c.first :: c.rest

def single (x : α) : Cluster α := ⟨x, []⟩

def add (c : Cluster α) (x : α) : Cluster α := ⟨c.first, c.rest ++ [x]⟩

@[simp] theorem members_single (x : α) : (single x).members = [x] := rfl

@[simp] theorem members_add (c : Cluster α) (x : α) : (c.add x).members = c.members ++ [x] := rfl

@[simp] theorem first_mem (c : Cluster α) : c.first ∈ c.members := List.mem_cons_self

theorem mem_add {c : Cluster α} {x y : α} : y ∈ (c.add x).members ↔ y ∈ c.members ∨ y = x := by
  simp

/-- The first member of greatest key. -/
def winner [LinearOrder κ] (key : α → κ) (c : Cluster α) : α :=
  c.rest.foldl (fun best x => if key best < key x then x else best) c.first

theorem winner_spec [LinearOrder κ] (key : α → κ) (first : α) (rest : List α) :
    (Cluster.mk first rest).winner key ∈ first :: rest ∧
      ∀ y ∈ first :: rest, key y ≤ key ((Cluster.mk first rest).winner key) := by
  induction rest generalizing first with
  | nil => simp [winner]
  | cons x rest ih =>
    obtain ⟨hmem, hle⟩ := ih (if key first < key x then x else first)
    have hw : (Cluster.mk first (x :: rest)).winner key =
        (Cluster.mk (if key first < key x then x else first) rest).winner key := rfl
    rw [hw]
    constructor
    · rcases List.mem_cons.mp hmem with h | h
      · rw [h]; split <;> simp
      · simp [h]
    · have hbase := hle _ List.mem_cons_self
      intro y hy
      rcases List.mem_cons.mp hy with rfl | hy
      · refine le_trans ?_ hbase
        split
        · exact le_of_lt (by assumption)
        · exact le_rfl
      · rcases List.mem_cons.mp hy with rfl | hy
        · refine le_trans ?_ hbase
          split
          · exact le_rfl
          · exact le_of_not_gt (by assumption)
        · exact hle y (List.mem_cons_of_mem _ hy)

theorem winner_mem [LinearOrder κ] (key : α → κ) (c : Cluster α) : c.winner key ∈ c.members :=
  (winner_spec key c.first c.rest).1

theorem le_winner [LinearOrder κ] (key : α → κ) (c : Cluster α) {y : α} (hy : y ∈ c.members) :
    key y ≤ key (c.winner key) :=
  (winner_spec key c.first c.rest).2 y hy

theorem winner_add [LinearOrder κ] (key : α → κ) (c : Cluster α) (x : α) :
    (c.add x).winner key = if key (c.winner key) < key x then x else c.winner key := by
  rw [winner, add, List.foldl_append]
  rfl

def AgreesOn [LinearOrder κ] (key : α → κ) (f : α → β) (c : Cluster α) : Prop :=
  ∀ x ∈ c.members, key x = key (c.winner key) → f x = f (c.winner key)

instance [LinearOrder κ] [DecidableEq β] (key : α → κ) (f : α → β) (c : Cluster α) :
    Decidable (c.AgreesOn key f) :=
  inferInstanceAs (Decidable (∀ x ∈ c.members, key x = key (c.winner key) →
    f x = f (c.winner key)))

theorem AgreesOn.winner_eq [LinearOrder κ] {key : α → κ} {f : α → β} {c d : Cluster α}
    (hc : c.AgreesOn key f) (h : c.members.Perm d.members) :
    f (d.winner key) = f (c.winner key) := by
  have hd := winner_mem key d
  apply hc _ (h.mem_iff.mpr hd)
  exact le_antisymm (le_winner key c (h.mem_iff.mpr hd))
    (le_winner key d (h.mem_iff.mp (winner_mem key c)))

def map (f : α → β) (c : Cluster α) : Cluster β := ⟨f c.first, c.rest.map f⟩

@[simp] theorem members_map (f : α → β) (c : Cluster α) :
    (c.map f).members = c.members.map f := rfl

theorem winner_map [LinearOrder κ] (key : β → κ) (f : α → β) (c : Cluster α) :
    (c.map f).winner key = f (c.winner (fun x => key (f x))) := by
  obtain ⟨first, rest⟩ := c
  induction rest generalizing first with
  | nil => rfl
  | cons x rest ih =>
    have hstep := ih (if key (f first) < key (f x) then x else first)
    simp only [winner, map, List.map_cons, List.foldl_cons] at hstep ⊢
    rw [← hstep]
    split <;> rfl

theorem AgreesOn.map [LinearOrder κ] {γ : Type w} {key : β → κ} {h : β → γ} {f : α → β}
    {c : Cluster α} (hc : c.AgreesOn (fun x => key (f x)) (fun x => h (f x))) :
    (c.map f).AgreesOn key h := by
  intro y hy hkey
  rw [members_map] at hy
  obtain ⟨x, hx, rfl⟩ := List.mem_map.mp hy
  rw [winner_map] at hkey ⊢
  exact hc x hx hkey

end Cluster

/-- Put `x` into the first cluster holding an element it is related to. -/
def place (r : α → α → Bool) (x : α) : List (Cluster α) → List (Cluster α)
  | [] => [.single x]
  | c :: cs => if c.members.any (r x) then c.add x :: cs else c :: place r x cs

def clusters (r : α → α → Bool) (xs : List α) : List (Cluster α) :=
  xs.foldl (fun cs x => place r x cs) []

theorem place_map (r : β → β → Bool) (f : α → β) (x : α) (cs : List (Cluster α)) :
    place r (f x) (cs.map (Cluster.map f)) =
      (place (fun a b => r (f a) (f b)) x cs).map (Cluster.map f) := by
  induction cs with
  | nil => rfl
  | cons c cs ih =>
    simp only [List.map_cons, place, Cluster.members_map, List.any_map, Function.comp_def]
    split
    · simp [Cluster.add, Cluster.map]
    · simp [ih]

theorem clusters_map (r : β → β → Bool) (f : α → β) (xs : List α) :
    clusters r (xs.map f) = (clusters (fun a b => r (f a) (f b)) xs).map (Cluster.map f) := by
  induction xs using List.reverseRecOn with
  | nil => rfl
  | append_singleton xs x ih =>
    simp only [clusters, List.map_append, List.map_cons, List.map_nil, List.foldl_append,
      List.foldl_cons, List.foldl_nil] at ih ⊢
    rw [ih, place_map]

theorem clusters_snoc (r : α → α → Bool) (xs : List α) (x : α) :
    clusters r (xs ++ [x]) = place r x (clusters r xs) := by
  simp [clusters]

def allMembers (cs : List (Cluster α)) : List α := cs.flatMap Cluster.members

theorem place_perm (r : α → α → Bool) (x : α) (cs : List (Cluster α)) :
    (allMembers (place r x cs)).Perm (allMembers cs ++ [x]) := by
  induction cs with
  | nil => exact List.Perm.refl _
  | cons c cs ih =>
    simp only [place]
    split
    · simp only [allMembers, List.flatMap_cons, Cluster.members_add, List.append_assoc]
      exact List.Perm.append_left _ List.perm_append_comm
    · simp only [allMembers, List.flatMap_cons, List.append_assoc]
      exact List.Perm.append_left _ ih

theorem clusters_perm (r : α → α → Bool) (xs : List α) :
    (allMembers (clusters r xs)).Perm xs := by
  induction xs using List.reverseRecOn with
  | nil => exact List.Perm.refl _
  | append_singleton xs x ih =>
    rw [clusters_snoc]
    exact (place_perm r x _).trans (ih.append_right [x])

theorem mem_place {r : α → α → Bool} {x : α} {cs : List (Cluster α)} {c : Cluster α}
    (h : c ∈ place r x cs) :
    c ∈ cs ∨ c = .single x ∨ ∃ d ∈ cs, d.members.any (r x) = true ∧ c = d.add x := by
  induction cs with
  | nil => exact .inr (.inl (by simpa [place] using h))
  | cons d cs ih =>
    simp only [place] at h
    split at h
    · rename_i hd
      rcases List.mem_cons.mp h with rfl | h
      · exact .inr (.inr ⟨d, List.mem_cons_self, hd, rfl⟩)
      · exact .inl (List.mem_cons_of_mem _ h)
    · rcases List.mem_cons.mp h with rfl | h
      · exact .inl List.mem_cons_self
      · rcases ih h with h | h | ⟨e, he, hr, hc⟩
        · exact .inl (List.mem_cons_of_mem _ h)
        · exact .inr (.inl h)
        · exact .inr (.inr ⟨e, List.mem_cons_of_mem _ he, hr, hc⟩)

/-- The induction rule: what holds of a fresh cluster and survives each join
holds of every cluster. -/
theorem clusters_rule (r : α → α → Bool) (xs : List α) (P : Cluster α → Prop)
    (fresh : ∀ x ∈ xs, P (.single x))
    (join : ∀ (c : Cluster α) (x y : α), x ∈ xs → y ∈ c.members → r x y = true → P c → P (c.add x)) :
    ∀ c ∈ clusters r xs, P c := by
  induction xs using List.reverseRecOn with
  | nil => intro c hc; cases hc
  | append_singleton xs x ih =>
    have hprev := ih (fun y hy => fresh y (by simp [hy]))
      (fun c y z hy => join c y z (by simp [hy]))
    intro c hc
    rw [clusters_snoc] at hc
    rcases mem_place hc with hc | rfl | ⟨d, hd, hr, rfl⟩
    · exact hprev c hc
    · exact fresh x (by simp)
    · obtain ⟨y, hy, hxy⟩ := List.any_eq_true.mp hr
      exact join d x y (by simp) hy hxy (hprev d hd)

theorem mem_of_mem_clusters {r : α → α → Bool} {xs : List α} {c : Cluster α}
    (hc : c ∈ clusters r xs) {x : α} (hx : x ∈ c.members) : x ∈ xs :=
  (clusters_perm r xs).mem_iff.mp (List.mem_flatMap.mpr ⟨c, hc, hx⟩)

theorem place_congr {r s : α → α → Bool} {x : α} {cs : List (Cluster α)}
    (h : ∀ c ∈ cs, ∀ y ∈ c.members, r x y = s x y) : place r x cs = place s x cs := by
  induction cs with
  | nil => rfl
  | cons c cs ih =>
    obtain ⟨hc, hrest⟩ := List.forall_mem_cons.mp h
    have hany : c.members.any (r x) = c.members.any (s x) := by
      rw [Bool.eq_iff_iff, List.any_eq_true, List.any_eq_true]
      exact exists_congr fun y => and_congr_right fun hy => by rw [hc y hy]
    rw [place, place, hany, ih hrest]

theorem clusters_congr {r s : α → α → Bool} {xs : List α}
    (h : ∀ x ∈ xs, ∀ y ∈ xs, r x y = s x y) : clusters r xs = clusters s xs := by
  induction xs using List.reverseRecOn with
  | nil => rfl
  | append_singleton xs x ih =>
    have hbefore : ∀ y ∈ xs, y ∈ xs ++ [x] := fun y hy => List.mem_append_left _ hy
    rw [clusters_snoc, clusters_snoc,
      ih fun y hy z hz => h y (hbefore y hy) z (hbefore z hz)]
    exact place_congr fun c hc y hy => h x (by simp) y (hbefore y (mem_of_mem_clusters hc hy))

theorem exists_cluster {r : α → α → Bool} {xs : List α} {x : α} (hx : x ∈ xs) :
    ∃ c ∈ clusters r xs, x ∈ c.members :=
  List.mem_flatMap.mp ((clusters_perm r xs).mem_iff.mpr hx)

theorem clusters_share {r : α → α → Bool} (f : α → κ) (hf : ∀ x y, r x y = true → f x = f y)
    {xs : List α} {c : Cluster α} (hc : c ∈ clusters r xs) {x y : α}
    (hx : x ∈ c.members) (hy : y ∈ c.members) : f x = f y := by
  have hfirst : ∀ c ∈ clusters r xs, ∀ z ∈ c.members, f z = f c.first := by
    apply clusters_rule
    · intro x _ z hz
      rw [List.mem_singleton.mp hz]
    · intro c x y _ hy hxy ih z hz
      rcases Cluster.mem_add.mp hz with hz | rfl
      · exact ih z hz
      · rw [hf z y hxy]
        exact ih y hy
  rw [hfirst c hc x hx, hfirst c hc y hy]

section Apart

variable {r : α → α → Bool} {p : α → Bool}

theorem place_filter {x : α} {cs : List (Cluster α)}
    (hcs : ∀ c ∈ cs, p x ≠ p c.first → ∀ y ∈ c.members, r x y = false) :
    (place r x cs).filter (fun c => p c.first) =
      if p x then place r x (cs.filter fun c => p c.first) else cs.filter fun c => p c.first := by
  induction cs with
  | nil => cases hx : p x <;> simp [place, Cluster.single, hx]
  | cons c cs ih =>
    obtain ⟨hc, hrest⟩ := List.forall_mem_cons.mp hcs
    have ih := ih hrest
    by_cases hany : c.members.any (r x) = true
    · obtain ⟨y, hy, hxy⟩ := List.any_eq_true.mp hany
      have hsame : p x = p c.first := by
        by_contra hne
        rw [hc hne y hy] at hxy
        cases hxy
      have hfirst : (c.add x).first = c.first := rfl
      cases hfirst' : p c.first <;> simp [place, hany, hsame, hfirst', hfirst]
    · have hplace : place r x (c :: cs) = c :: place r x cs := by simp [place, hany]
      rw [hplace]
      cases hfirst : p c.first <;> cases hx : p x <;>
        simp [hfirst, hx, place, hany] at ih ⊢ <;> exact ih

variable {xs : List α} (h : ∀ x ∈ xs, ∀ y ∈ xs, p x ≠ p y → r x y = false)
include h

theorem clusters_kind : ∀ c ∈ clusters r xs, ∀ x ∈ c.members, p x = p c.first := by
  have hkind : ∀ c ∈ clusters r xs, (∀ x ∈ c.members, x ∈ xs) ∧
      ∀ x ∈ c.members, p x = p c.first := by
    apply clusters_rule
    · intro x hx
      simp only [Cluster.members_single, List.mem_singleton]
      exact ⟨by rintro _ rfl; exact hx, by rintro _ rfl; rfl⟩
    · rintro c x y hx hy hxy ⟨hin, hkind⟩
      have hxc : p x = p c.first := by
        by_contra hne
        rw [h x hx y (hin y hy) (hkind y hy ▸ hne)] at hxy
        cases hxy
      refine ⟨fun z hz => ?_, fun z hz => ?_⟩
      · rcases Cluster.mem_add.mp hz with hz | rfl
        · exact hin z hz
        · exact hx
      · rcases Cluster.mem_add.mp hz with hz | rfl
        · exact hkind z hz
        · exact hxc
  exact fun c hc => (hkind c hc).2

theorem clusters_filter : (clusters r xs).filter (fun c => p c.first) = clusters r (xs.filter p) := by
  induction xs using List.reverseRecOn with
  | nil => rfl
  | append_singleton xs x ih =>
    have hbefore : ∀ y ∈ xs, y ∈ xs ++ [x] := fun y hy => List.mem_append_left _ hy
    have hxs : ∀ y ∈ xs, ∀ z ∈ xs, p y ≠ p z → r y z = false := fun y hy z hz =>
      h y (hbefore y hy) z (hbefore z hz)
    rw [clusters_snoc, place_filter, ih hxs, List.filter_append]
    · cases hx : p x <;> simp [hx, clusters_snoc]
    · intro c hc hne y hy
      refine h x (by simp) y (hbefore y (mem_of_mem_clusters hc hy)) ?_
      rwa [clusters_kind hxs c hc y hy]

end Apart

section Similarity

variable {r : α → α → Bool}

def Unrelated (r : α → α → Bool) (c d : Cluster α) : Prop :=
  ∀ x ∈ c.members, ∀ y ∈ d.members, r x y = false

/-- A chain of related elements of the list leads from the one to the other. -/
def Chained (r : α → α → Bool) (xs : List α) : α → α → Prop :=
  Relation.ReflTransGen fun a b => a ∈ xs ∧ b ∈ xs ∧ r a b = true

theorem Chained.mono {xs ys : List α} (hs : ∀ x ∈ xs, x ∈ ys) {y z : α} (h : Chained r xs y z) :
    Chained r ys y z :=
  h.lift id fun _ _ hab => ⟨hs _ hab.1, hs _ hab.2.1, hab.2.2⟩

theorem unrelated_add {c d : Cluster α} {x : α} : Unrelated r (c.add x) d ↔
    Unrelated r c d ∧ ∀ z ∈ d.members, r x z = false := by
  constructor
  · intro h
    exact ⟨fun y hy => h y (Cluster.mem_add.mpr (.inl hy)), h x (Cluster.mem_add.mpr (.inr rfl))⟩
  · rintro ⟨hc, hx⟩ y hy
    rcases Cluster.mem_add.mp hy with hy | rfl
    · exact hc y hy
    · exact hx

theorem exists_place (r : α → α → Bool) (x : α) {cs : List (Cluster α)} {c : Cluster α}
    (hc : c ∈ cs) : ∃ d ∈ place r x cs, ∀ y ∈ c.members, y ∈ d.members := by
  induction cs with
  | nil => cases hc
  | cons e cs ih =>
    simp only [place]
    split
    · rcases List.mem_cons.mp hc with rfl | hc
      · exact ⟨_, List.mem_cons_self, fun y hy => Cluster.mem_add.mpr (.inl hy)⟩
      · exact ⟨c, List.mem_cons_of_mem _ hc, fun y hy => hy⟩
    · rcases List.mem_cons.mp hc with rfl | hc
      · exact ⟨_, List.mem_cons_self, fun y hy => hy⟩
      · obtain ⟨d, hd, hsub⟩ := ih hc
        exact ⟨d, List.mem_cons_of_mem _ hd, hsub⟩

theorem unrelated_of_place {x : α} {cs : List (Cluster α)}
    (h : (place r x cs).Pairwise (Unrelated r)) : cs.Pairwise (Unrelated r) := by
  induction cs with
  | nil => exact List.Pairwise.nil
  | cons c cs ih =>
    simp only [place] at h
    split at h
    · obtain ⟨hc, hcs⟩ := List.pairwise_cons.mp h
      exact List.pairwise_cons.mpr ⟨fun d hd => (unrelated_add.mp (hc d hd)).1, hcs⟩
    · obtain ⟨hc, hcs⟩ := List.pairwise_cons.mp h
      refine List.pairwise_cons.mpr ⟨fun d hd y hy z hz => ?_, ih hcs⟩
      obtain ⟨e, he, hsub⟩ := exists_place r x hd
      exact hc e he y hy z (hsub z hz)

section Symmetric
variable (hcomm : ∀ x y, r x y = r y x)
include hcomm

theorem Chained.symm {xs : List α} {y z : α} (h : Chained r xs y z) : Chained r xs z y := by
  induction h with
  | refl => exact .refl
  | tail _ hab ih => exact .head ⟨hab.2.1, hab.1, hcomm _ _ ▸ hab.2.2⟩ ih

theorem Unrelated.symm {c d : Cluster α} (h : Unrelated r c d) : Unrelated r d c :=
  fun y hy z hz => hcomm y z ▸ h z hz y hy

theorem clusters_chained {xs : List α} :
    ∀ c ∈ clusters r xs, ∀ x ∈ c.members, ∀ y ∈ c.members, Chained r c.members x y := by
  apply clusters_rule
  · intro x _ y hy z hz
    rw [List.mem_singleton.mp hy, List.mem_singleton.mp hz]
    exact .refl
  · intro c x w _ hw hxw ih y hy z hz
    have hkept : ∀ a ∈ c.members, a ∈ (c.add x).members := fun a ha => Cluster.mem_add.mpr (.inl ha)
    have hnew : x ∈ (c.add x).members := Cluster.mem_add.mpr (.inr rfl)
    -- everybody reaches the newcomer through the member it is related to
    have hreach : ∀ a ∈ (c.add x).members, Chained r (c.add x).members a x := by
      intro a ha
      rcases Cluster.mem_add.mp ha with ha | rfl
      · exact ((ih a ha w hw).mono hkept).tail ⟨hkept w hw, hnew, hcomm x w ▸ hxw⟩
      · exact .refl
    exact (hreach y hy).trans ((hreach z hz).symm hcomm)

theorem place_unrelated_from {x : α} {c : Cluster α} (hc : ∀ y ∈ c.members, r x y = false)
    {cs : List (Cluster α)} (hcs : ∀ d ∈ cs, Unrelated r c d) :
    ∀ d ∈ place r x cs, Unrelated r c d := by
  intro d hd
  rcases mem_place hd with hd | rfl | ⟨e, he, -, rfl⟩
  · exact hcs d hd
  · intro y hy z hz
    obtain rfl := List.mem_singleton.mp hz
    rw [hcomm]
    exact hc y hy
  · exact (unrelated_add.mpr ⟨(hcs e he).symm hcomm, hc⟩).symm hcomm

/-- A newcomer keeps the clusters apart exactly if it is related to one of them at most. -/
theorem place_unrelated_iff (hrefl : ∀ x, r x x = true) {x : α} {cs : List (Cluster α)}
    (hcs : cs.Pairwise (Unrelated r)) : (place r x cs).Pairwise (Unrelated r) ↔
      ∀ c ∈ cs, ∀ d ∈ cs, ∀ y ∈ c.members, ∀ z ∈ d.members,
        r x y = true → r x z = true → c = d := by
  induction cs with
  | nil => simp [place]
  | cons c cs ih =>
    obtain ⟨hc, hrest⟩ := List.pairwise_cons.mp hcs
    simp only [place]
    split
    · rename_i hany
      obtain ⟨y, hy, hxy⟩ := List.any_eq_true.mp hany
      simp only [List.pairwise_cons, hrest, and_true, unrelated_add]
      constructor
      · intro h a ha b hb v hv w hw hxv hxw
        have honly : ∀ e ∈ c :: cs, ∀ u ∈ e.members, r x u = true → e = c := by
          intro e he u hu hxu
          rcases List.mem_cons.mp he with rfl | he
          · rfl
          · simp [(h e he).2 u hu] at hxu
        rw [honly a ha v hv hxv, honly b hb w hw hxw]
      · intro h d hd
        refine ⟨hc d hd, fun z hz => ?_⟩
        by_contra hxz
        have heq := h c List.mem_cons_self d (List.mem_cons_of_mem _ hd) y hy z hz hxy
          (by simpa using hxz)
        have hself := hc d hd z (heq ▸ hz) z hz
        rw [hrefl z] at hself
        cases hself
    · rename_i hnone
      have hnot : ∀ y ∈ c.members, r x y = false := by simpa using hnone
      have hskip {y : α} {d : Cluster α} (hd : d ∈ c :: cs) (hy : y ∈ d.members)
          (hxy : r x y = true) : d ∈ cs := by
        rcases List.mem_cons.mp hd with rfl | hd
        · simp [hnot y hy] at hxy
        · exact hd
      rw [List.pairwise_cons, and_iff_right (place_unrelated_from hcomm hnot hc), ih hrest]
      constructor
      · intro h a ha b hb v hv w hw hxv hxw
        exact h a (hskip ha hv hxv) b (hskip hb hw hxw) v hv w hw hxv hxw
      · intro h a ha b hb
        exact h a (List.mem_cons_of_mem _ ha) b (List.mem_cons_of_mem _ hb)

theorem eq_of_related {cs : List (Cluster α)} (hcs : cs.Pairwise (Unrelated r)) {c d : Cluster α}
    (hc : c ∈ cs) (hd : d ∈ cs) {y z : α} (hy : y ∈ c.members) (hz : z ∈ d.members)
    (hyz : r y z = true) : c = d := by
  by_contra hcd
  have hsym : Std.Symm (Unrelated r) := ⟨fun _ _ => Unrelated.symm hcomm⟩
  have hapart := hcs.forall hc hd hcd y hy z hz
  rw [hyz] at hapart
  cases hapart

theorem chained_mem {xs : List α} (hcs : (clusters r xs).Pairwise (Unrelated r)) {c : Cluster α}
    (hc : c ∈ clusters r xs) {y z : α} (hy : y ∈ c.members) (h : Chained r xs y z) :
    z ∈ c.members := by
  induction h with
  | refl => exact hy
  | @tail v w _ hvw ih =>
    obtain ⟨d, hd, hw⟩ := exists_cluster (r := r) hvw.2.1
    rw [eq_of_related hcomm hcs hc hd ih hw hvw.2.2]
    exact hw

theorem mem_iff_chained {xs : List α} (hcs : (clusters r xs).Pairwise (Unrelated r))
    {c : Cluster α} (hc : c ∈ clusters r xs) {y : α} (hy : y ∈ c.members) (z : α) :
    z ∈ c.members ↔ z ∈ xs ∧ Chained r xs y z := by
  constructor
  · intro hz
    exact ⟨mem_of_mem_clusters hc hz,
      (clusters_chained hcomm c hc y hy z hz).mono fun _ => mem_of_mem_clusters hc⟩
  · exact fun hz => chained_mem hcomm hcs hc hy hz.2

end Symmetric

/-- Whoever arrives related to two elements finds them chained already. -/
def Gathered (r : α → α → Bool) (xs : List α) : Prop :=
  ∀ before x after, xs = before ++ x :: after →
    ∀ y ∈ before, ∀ z ∈ before, r x y = true → r x z = true → Chained r before y z

theorem gathered_snoc {xs : List α} {x : α} : Gathered r (xs ++ [x]) ↔ Gathered r xs ∧
    ∀ y ∈ xs, ∀ z ∈ xs, r x y = true → r x z = true → Chained r xs y z := by
  constructor
  · intro h
    exact ⟨fun before w after heq => h before w (after ++ [x]) (by simp [heq]), h xs x [] rfl⟩
  · rintro ⟨hxs, hx⟩ before w after heq
    induction after using List.reverseRecOn with
    | nil =>
      obtain ⟨rfl, hw⟩ := List.append_inj' heq rfl
      obtain rfl := List.head_eq_of_cons_eq hw
      exact hx
    | append_singleton after v _ =>
      rw [← List.cons_append, ← List.append_assoc] at heq
      exact hxs before w after (List.append_inj' heq rfl).1

/-- First-fit clusters are the components of the relation exactly if no element
arrives that bridges two of them. -/
theorem clusters_unrelated_iff (hrefl : ∀ x, r x x = true) (hcomm : ∀ x y, r x y = r y x)
    (xs : List α) : (clusters r xs).Pairwise (Unrelated r) ↔ Gathered r xs := by
  induction xs using List.reverseRecOn with
  | nil => simp [clusters, Gathered]
  | append_singleton xs x ih =>
    rw [clusters_snoc, gathered_snoc, ← ih]
    constructor
    · intro h
      have hcs := unrelated_of_place h
      refine ⟨hcs, fun y hy z hz hxy hxz => ?_⟩
      obtain ⟨c, hc, hyc⟩ := exists_cluster (r := r) hy
      obtain ⟨d, hd, hzd⟩ := exists_cluster (r := r) hz
      obtain rfl := (place_unrelated_iff hcomm hrefl hcs).mp h c hc d hd y hyc z hzd hxy hxz
      exact ((mem_iff_chained hcomm hcs hc hyc z).mp hzd).2
    · rintro ⟨hcs, hx⟩
      refine (place_unrelated_iff hcomm hrefl hcs).mpr fun c hc d hd y hy z hz hxy hxz => ?_
      have hchain := hx y (mem_of_mem_clusters hc hy) z (mem_of_mem_clusters hd hz) hxy hxz
      have hzc := chained_mem hcomm hcs hc hy hchain
      exact eq_of_related hcomm hcs hc hd hzc hz (hrefl z)

theorem gathered_of_trans (hcomm : ∀ x y, r x y = r y x) {xs : List α}
    (htrans : ∀ x ∈ xs, ∀ y ∈ xs, ∀ z ∈ xs, r x y = true → r y z = true → r x z = true) :
    Gathered r xs := by
  rintro before x after rfl y hy z hz hxy hxz
  have hin : ∀ w ∈ before, w ∈ before ++ x :: after := fun w hw => List.mem_append_left _ hw
  have hyz := htrans y (hin y hy) x (by simp) z (hin z hz) (hcomm x y ▸ hxy) hxz
  exact .single ⟨hy, hz, hyz⟩

end Similarity

section Order

variable {r : α → α → Bool} (hrefl : ∀ x, r x x = true) (hcomm : ∀ x y, r x y = r y x)
include hrefl

theorem not_mem_of_unrelated {c d : Cluster α} (h : Unrelated r c d) {x : α} (hc : x ∈ c.members) :
    x ∉ d.members := by
  intro hd
  have hself := h x hc x hd
  rw [hrefl] at hself
  cases hself

open Classical in
theorem filter_allMembers {cs : List (Cluster α)} (hcs : cs.Pairwise (Unrelated r)) {c : Cluster α}
    (hc : c ∈ cs) : (allMembers cs).filter (fun x => x ∈ c.members) = c.members := by
  induction cs with
  | nil => cases hc
  | cons d cs ih =>
    obtain ⟨hd, hrest⟩ := List.pairwise_cons.mp hcs
    simp only [allMembers, List.flatMap_cons, List.filter_append]
    rcases List.mem_cons.mp hc with rfl | hc
    · have hnone : (cs.flatMap Cluster.members).filter (fun x => x ∈ c.members) = [] := by
        refine List.filter_eq_nil_iff.mpr fun x hx => ?_
        obtain ⟨e, he, hxe⟩ := List.mem_flatMap.mp hx
        simpa using fun hxc => not_mem_of_unrelated hrefl (hd e he) hxc hxe
      rw [hnone, List.append_nil, List.filter_eq_self]
      simp
    · have hskip : d.members.filter (fun x => x ∈ c.members) = [] :=
        List.filter_eq_nil_iff.mpr fun x hx => by
          simpa using not_mem_of_unrelated hrefl (hd c hc) hx
      rw [hskip, List.nil_append]
      exact ih hrest hc

open Classical in
theorem members_perm_filter {xs : List α} (hcs : (clusters r xs).Pairwise (Unrelated r))
    {c : Cluster α} (hc : c ∈ clusters r xs) :
    c.members.Perm (xs.filter (fun x => x ∈ c.members)) := by
  have hall := (clusters_perm r xs).filter (fun x => decide (x ∈ c.members))
  rwa [filter_allMembers hrefl hcs hc] at hall

def classes (r : α → α → Bool) (xs : List α) : List (Multiset α) :=
  (clusters r xs).map (fun c => (c.members : Multiset α))

theorem classes_nodup {xs : List α} (hcs : (clusters r xs).Pairwise (Unrelated r)) :
    (classes r xs).Nodup := by
  refine List.pairwise_map.mpr (hcs.imp ?_)
  intro c d hcd heq
  have hfirst : c.first ∈ d.members := (Multiset.coe_eq_coe.mp heq).mem_iff.mp c.first_mem
  exact not_mem_of_unrelated hrefl hcd c.first_mem hfirst

include hcomm

theorem classes_subset {xs ys : List α} (hp : xs.Perm ys)
    (hxs : (clusters r xs).Pairwise (Unrelated r)) (hys : (clusters r ys).Pairwise (Unrelated r)) :
    classes r xs ⊆ classes r ys := by
  intro m hm
  obtain ⟨c, hc, rfl⟩ := List.mem_map.mp hm
  have hfirst : c.first ∈ ys := hp.mem_iff.mp (mem_of_mem_clusters hc c.first_mem)
  obtain ⟨d, hd, hmem⟩ := exists_cluster (r := r) hfirst
  have hsame : ∀ z, z ∈ c.members ↔ z ∈ d.members := by
    intro z
    rw [mem_iff_chained hcomm hxs hc c.first_mem, mem_iff_chained hcomm hys hd hmem]
    exact and_congr hp.mem_iff ⟨Chained.mono fun x hx => hp.mem_iff.mp hx,
      Chained.mono fun x hx => hp.mem_iff.mpr hx⟩
  refine List.mem_map.mpr ⟨d, hd, Multiset.coe_eq_coe.mpr ?_⟩
  classical
  have hfrom := members_perm_filter hrefl hxs hc
  simp only [hsame] at hfrom
  have hinto := members_perm_filter hrefl hys hd
  exact hinto.trans ((hp.symm.filter _).trans hfrom.symm)

theorem classes_perm {xs ys : List α} (hp : xs.Perm ys) (hxs : Gathered r xs)
    (hys : Gathered r ys) : (classes r xs).Perm (classes r ys) := by
  rw [← clusters_unrelated_iff hrefl hcomm] at hxs hys
  rw [List.perm_ext_iff_of_nodup (classes_nodup hrefl hxs) (classes_nodup hrefl hys)]
  exact fun m => ⟨fun hm => classes_subset hrefl hcomm hp hxs hys hm,
    fun hm => classes_subset hrefl hcomm hp.symm hys hxs hm⟩

omit hrefl hcomm in
theorem map_perm_of_map_perm {γ : Type v} {g : α → γ} {f : α → β} {l l' : List α}
    (h : (l.map g).Perm (l'.map g)) (hf : ∀ a ∈ l, ∀ b ∈ l', g a = g b → f a = f b) :
    (l.map f).Perm (l'.map f) := by
  induction l generalizing l' with
  | nil =>
    have hnil : l' = [] := List.map_eq_nil_iff.mp (List.nil_perm.mp h)
    rw [hnil]
  | cons a l ih =>
    obtain ⟨b, hb, hgb⟩ := List.mem_map.mp (h.mem_iff.mp (List.mem_cons_self))
    obtain ⟨s, t, rfl⟩ := List.append_of_mem hb
    have hswap : (s ++ b :: t).Perm (b :: (s ++ t)) := List.perm_middle
    have hrest : (l.map g).Perm ((s ++ t).map g) := by
      have hcons := h.trans (hswap.map g)
      rw [List.map_cons, List.map_cons, hgb] at hcons
      exact hcons.cons_inv
    have htail := ih hrest fun c hc d hd =>
      hf c (List.mem_cons_of_mem _ hc) d (hswap.mem_iff.mpr (List.mem_cons_of_mem _ hd))
    have hab : f a = f b := hf a List.mem_cons_self b hb hgb.symm
    rw [List.map_cons, hab]
    exact (htail.cons (f b)).trans (hswap.map f).symm

theorem clusters_map_perm {xs ys : List α} (hp : xs.Perm ys) (hxs : Gathered r xs)
    (hys : Gathered r ys) {f : Cluster α → β} (hf : ∀ c ∈ clusters r xs, ∀ d ∈ clusters r ys,
      c.members.Perm d.members → f c = f d) :
    ((clusters r xs).map f).Perm ((clusters r ys).map f) :=
  map_perm_of_map_perm (classes_perm hrefl hcomm hp hxs hys) fun c hc d hd hcd =>
    hf c hc d hd (Multiset.coe_eq_coe.mp hcd)

end Order

theorem exists_take_iff {p : α → Prop} (n : ℕ) (xs : List α) : (∃ x ∈ xs.take n, p x) ↔
    ∃ before x after, xs = before ++ x :: after ∧ p x ∧ before.length < n := by
  constructor
  · rintro ⟨x, hx, hp⟩
    obtain ⟨before, after, htake⟩ := List.append_of_mem hx
    have hlength := List.length_take_le n xs
    rw [htake, List.length_append, List.length_cons] at hlength
    refine ⟨before, x, after ++ xs.drop n, ?_, hp, by omega⟩
    rw [← List.cons_append, ← List.append_assoc, ← htake, List.take_append_drop]
  · rintro ⟨before, x, after, rfl, hp, hlt⟩
    obtain ⟨k, hk⟩ : ∃ k, n - before.length = k + 1 := ⟨n - before.length - 1, by omega⟩
    refine ⟨x, ?_, hp⟩
    rw [List.take_append, hk, List.take_succ_cons]
    exact List.mem_append_right _ List.mem_cons_self

section Firsts
variable [DecidableEq κ] (key : α → κ)

def firsts (xs : List α) : List α :=
  xs.foldl (fun out x => if key x ∈ out.map key then out else out ++ [x]) []

/-- How many different keys there are. -/
def different (xs : List α) : ℕ := (xs.map key).dedup.length

theorem firsts_snoc (xs : List α) (x : α) : firsts key (xs ++ [x]) =
    if key x ∈ (firsts key xs).map key then firsts key xs else firsts key xs ++ [x] := by
  rw [firsts, List.foldl_append]
  rfl

theorem mem_keys_firsts (xs : List α) (k : κ) : k ∈ (firsts key xs).map key ↔ k ∈ xs.map key := by
  induction xs using List.reverseRecOn with
  | nil => rfl
  | append_singleton xs x ih =>
    rw [firsts_snoc, List.map_append, List.mem_append, ← ih]
    split
    · rename_i hx
      refine ⟨.inl, fun h => h.elim id fun hk => ?_⟩
      rw [List.mem_singleton.mp hk]
      exact hx
    · rw [List.map_append, List.mem_append]

theorem keys_firsts_nodup (xs : List α) : ((firsts key xs).map key).Nodup := by
  induction xs using List.reverseRecOn with
  | nil => exact List.nodup_nil
  | append_singleton xs x ih =>
    rw [firsts_snoc]
    split
    · exact ih
    · rename_i hx
      rw [List.map_append]
      exact ih.append (List.nodup_singleton _) (by simpa using hx)

theorem firsts_append (xs ys : List α) :
    ∃ new, firsts key (xs ++ ys) = firsts key xs ++ new ∧ new.Sublist ys := by
  induction ys using List.reverseRecOn with
  | nil => exact ⟨[], by simp, .refl _⟩
  | append_singleton ys y ih =>
    obtain ⟨new, heq, hsub⟩ := ih
    rw [← List.append_assoc, firsts_snoc, heq]
    split
    · exact ⟨new, rfl, hsub.trans (List.sublist_append_left ys [y])⟩
    · exact ⟨new ++ [y], List.append_assoc _ _ _, hsub.append_right [y]⟩

theorem firsts_sublist (xs : List α) : (firsts key xs).Sublist xs := by
  obtain ⟨new, heq, hsub⟩ := firsts_append key [] xs
  rw [List.nil_append] at heq
  rwa [heq]

theorem firsts_eq_self {xs : List α} (h : (xs.map key).Nodup) : firsts key xs = xs := by
  induction xs using List.reverseRecOn with
  | nil => rfl
  | append_singleton xs x ih =>
    rw [List.map_append, List.map_singleton, List.nodup_append] at h
    have hfresh : key x ∉ xs.map key := fun hx => h.2.2 _ hx _ (List.mem_singleton_self _) rfl
    rw [firsts_snoc, ih h.1, if_neg hfresh]

omit key in
theorem firsts_ascend (ks : List κ) :
    (firsts id ks).Pairwise fun k l => ks.idxOf k < ks.idxOf l := by
  induction ks using List.reverseRecOn with
  | nil => exact .nil
  | append_singleton ks k ih =>
    have hmem (l : κ) : l ∈ firsts id ks ↔ l ∈ ks := by simpa using mem_keys_firsts id ks l
    have hold : (firsts id ks).Pairwise fun l m => (ks ++ [k]).idxOf l < (ks ++ [k]).idxOf m := by
      refine ih.imp_of_mem fun hl hm hlt => ?_
      rwa [List.idxOf_append_of_mem ((hmem _).mp hl), List.idxOf_append_of_mem ((hmem _).mp hm)]
    rw [firsts_snoc, List.map_id]
    split
    · exact hold
    · rename_i hnew
      refine List.pairwise_append.mpr ⟨hold, List.pairwise_singleton _ _, fun l hl m hm => ?_⟩
      have hl := (hmem l).mp hl
      rw [List.mem_singleton.mp hm, List.idxOf_append_of_mem hl,
        List.idxOf_append_of_notMem fun h => hnew ((hmem k).mpr h)]
      exact (List.idxOf_lt_length_of_mem hl).trans_le (Nat.le_add_right _ _)

theorem length_firsts (xs : List α) : (firsts key xs).length = different key xs := by
  have hperm : ((firsts key xs).map key).Perm (xs.map key).dedup :=
    (List.perm_ext_iff_of_nodup (keys_firsts_nodup key xs) (List.nodup_dedup _)).mpr fun k => by
      rw [mem_keys_firsts, List.mem_dedup]
  simpa [different] using hperm.length_eq

theorem exists_take_firsts {p : α → Prop} (hp : ∀ x y, key x = key y → p x → p y) (n : ℕ)
    (xs : List α) : (∃ x ∈ (firsts key xs).take n, p x) ↔
      ∃ before x after, xs = before ++ x :: after ∧ p x ∧ different key before < n := by
  induction xs using List.reverseRecOn with
  | nil => simp [firsts]
  | append_singleton xs x ih =>
    have hlater : (∃ before y after, xs ++ [x] = before ++ y :: after ∧ p y ∧
        different key before < n) ↔
        (∃ before y after, xs = before ++ y :: after ∧ p y ∧ different key before < n) ∨
          p x ∧ different key xs < n := by
      constructor
      · rintro ⟨before, y, after, hxs, hy⟩
        rcases List.eq_nil_or_concat after with rfl | ⟨after, z, rfl⟩
        · obtain ⟨rfl, heq⟩ := List.append_inj' hxs rfl
          obtain rfl := List.singleton_injective heq
          exact .inr hy
        · have hsplit : xs ++ [x] = (before ++ y :: after) ++ [z] := by simpa using hxs
          exact .inl ⟨before, y, after, (List.append_inj' hsplit rfl).1, hy⟩
      · rintro (⟨before, y, after, rfl, hy⟩ | hx)
        · exact ⟨before, y, after ++ [x], by simp, hy⟩
        · exact ⟨xs, x, [], rfl, hx⟩
    rw [hlater, ← ih, firsts_snoc]
    split
    · rename_i hkept
      refine ⟨.inl, fun h => h.elim id fun ⟨hx, hfew⟩ => ?_⟩
      obtain ⟨y, hy, hkey⟩ := List.mem_map.mp hkept
      rw [← length_firsts] at hfew
      rw [List.take_of_length_le hfew.le]
      exact ⟨y, hy, hp x y hkey.symm hx⟩
    · rw [List.take_append]
      constructor
      · rintro ⟨y, hy, hpy⟩
        rcases List.mem_append.mp hy with hy | hy
        · exact .inl ⟨y, hy, hpy⟩
        · have hroom : 0 < n - (firsts key xs).length := by
            by_contra hnone
            rw [Nat.eq_zero_of_not_pos hnone, List.take_zero] at hy
            cases hy
          rw [List.mem_singleton.mp (List.mem_of_mem_take hy)] at hpy
          refine .inr ⟨hpy, ?_⟩
          rw [← length_firsts]
          omega
      · rintro (⟨y, hy, hpy⟩ | ⟨hx, hfew⟩)
        · exact ⟨y, List.mem_append_left _ hy, hpy⟩
        · rw [← length_firsts] at hfew
          have hroom : 1 ≤ n - (firsts key xs).length := by omega
          refine ⟨x, List.mem_append_right _ ?_, hx⟩
          rw [List.take_of_length_le (by simpa using hroom)]
          exact List.mem_singleton_self x

end Firsts

end Greedy
