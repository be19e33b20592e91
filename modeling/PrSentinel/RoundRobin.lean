import Mathlib.Data.Prod.Lex
import PrSentinel.Ranking

/-!
Queues taken in rounds: everybody's first entry, then everybody's second, each round in
the order of the keys. It is one sort, by rank, then key, then owner.
-/

set_option autoImplicit false

namespace RoundRobin
open Ranking

universe u v w x y
variable {α : Type u} {κ : Type v} {ι : Type w} [LinearOrder κ] (key : α → κ)

/-- What everybody has at this rank. -/
def round (queues : List (List α)) (rank : ℕ) : List α :=
  inOrder key (queues.filterMap fun queue => queue[rank]?)

def longest (queues : List (List α)) : ℕ := (queues.map List.length).foldr max 0

def interleave (queues : List (List α)) : List α :=
  (List.range (longest queues)).flatMap (round key queues)

theorem length_le_longest {queues : List (List α)} {queue : List α} (h : queue ∈ queues) :
    queue.length ≤ longest queues := by
  induction queues with
  | nil => cases h
  | cons first queues ih =>
    rcases List.mem_cons.mp h with rfl | h
    · exact le_max_left _ _
    · exact (ih h).trans (le_max_right _ _)

structure Entry (α : Type u) (ι : Type w) where
  rank : ℕ
  owner : ι
  item : α

def entriesAt (queues : List (ι × List α)) (rank : ℕ) : List (Entry α ι) :=
  queues.filterMap fun queue => queue.2[rank]?.map (Entry.mk rank queue.1)

def entries (queues : List (ι × List α)) : List (Entry α ι) :=
  queues.flatMap fun queue => queue.2.zipIdx.map fun e => ⟨e.2, queue.1, e.1⟩

theorem mem_entriesAt {queues : List (ι × List α)} {rank : ℕ} {e : Entry α ι} :
    e ∈ entriesAt queues rank ↔ e.rank = rank ∧
      ∃ queue, (e.owner, queue) ∈ queues ∧ queue[rank]? = some e.item := by
  simp only [entriesAt, List.mem_filterMap, Option.map_eq_some_iff]
  constructor
  · rintro ⟨⟨owner, queue⟩, hqueue, item, hitem, rfl⟩
    exact ⟨rfl, queue, hqueue, hitem⟩
  · rintro ⟨rfl, queue, hqueue, hitem⟩
    exact ⟨_, hqueue, _, hitem, rfl⟩

theorem mem_entries {queues : List (ι × List α)} {e : Entry α ι} : e ∈ entries queues ↔
    ∃ queue, (e.owner, queue) ∈ queues ∧ queue[e.rank]? = some e.item := by
  simp only [entries, List.mem_flatMap, List.mem_map, List.mem_zipIdx_iff_getElem?]
  constructor
  · rintro ⟨⟨owner, queue⟩, hqueue, ⟨item, rank⟩, hitem, rfl⟩
    exact ⟨queue, hqueue, hitem⟩
  · rintro ⟨queue, hqueue, hitem⟩
    exact ⟨_, hqueue, (e.item, e.rank), hitem, rfl⟩

theorem map_inOrder {β : Type x} {κ' : Type y} [LinearOrder κ'] (key' : β → κ') (f : β → α)
    {xs : List β} (h : ∀ x ∈ xs, ∀ y ∈ xs, key' x ≤ key' y ↔ key (f x) ≤ key (f y)) :
    (inOrder key' xs).map f = inOrder key (xs.map f) := List.map_insertionSort _ _ f xs h

/-- A stable sort may break its ties by a second key in which the list ascends. -/
theorem inOrder_ties [LinearOrder ι] (owner : α → ι) {xs : List α}
    (h : xs.Pairwise fun x y => owner x < owner y) :
    inOrder key xs = inOrder (fun x => toLex (key x, owner x)) xs := by
  induction xs with
  | nil => rfl
  | cons x xs ih =>
    obtain ⟨hx, hxs⟩ := List.pairwise_cons.mp h
    have hinsert (ys : List α) (hys : ∀ y ∈ ys, owner x < owner y) :
        ys.orderedInsert (fun x y => key x ≤ key y) x =
          ys.orderedInsert (fun x y => toLex (key x, owner x) ≤ toLex (key y, owner y)) x := by
      induction ys with
      | nil => rfl
      | cons y ys ihys =>
        obtain ⟨hy, hys⟩ := List.forall_mem_cons.mp hys
        have hiff : toLex (key x, owner x) ≤ toLex (key y, owner y) ↔ key x ≤ key y := by
          rw [Prod.Lex.toLex_le_toLex, and_iff_left hy.le, le_iff_lt_or_eq]
        rw [List.orderedInsert_cons, List.orderedInsert_cons, ihys hys]
        simp only [hiff]
    unfold inOrder at ih ⊢
    rw [List.insertionSort_cons, ih hxs, List.insertionSort_cons]
    exact hinsert _ fun y hy => hx y ((List.mem_insertionSort _).mp hy)

variable [LinearOrder ι]

/-- When an entry has its turn. -/
def turn (e : Entry α ι) : ℕ ×ₗ κ ×ₗ ι := toLex (e.rank, toLex (key e.item, e.owner))

section Owners
variable {queues : List (ι × List α)} (howners : (queues.map Prod.fst).Pairwise (· < ·))
include howners

theorem entriesAt_owners (rank : ℕ) :
    (entriesAt queues rank).Pairwise fun d e => d.owner < e.owner := by
  refine List.Pairwise.filterMap (R := fun p q : ι × List α => p.1 < q.1) _ ?_
    (List.pairwise_map.mp howners)
  rintro p q hlt d hd e he
  obtain ⟨_, -, rfl⟩ := Option.map_eq_some_iff.mp hd
  obtain ⟨_, -, rfl⟩ := Option.map_eq_some_iff.mp he
  exact hlt

theorem round_eq (rank : ℕ) : round key (queues.map Prod.snd) rank =
    (inOrder (turn key) (entriesAt queues rank)).map Entry.item := by
  have hitems : (queues.map Prod.snd).filterMap (fun queue => queue[rank]?) =
      (entriesAt queues rank).map Entry.item := by
    rw [entriesAt, List.filterMap_map, List.map_filterMap]
    refine List.filterMap_congr fun queue _ => ?_
    cases hitem : queue.2[rank]? <;> simp [hitem]
  have hsame : ∀ d ∈ entriesAt queues rank, ∀ e ∈ entriesAt queues rank,
      turn key d ≤ turn key e ↔ toLex (key d.item, d.owner) ≤ toLex (key e.item, e.owner) := by
    intro d hd e he
    rw [turn, turn, (mem_entriesAt.mp hd).1, (mem_entriesAt.mp he).1,
      Prod.Lex.toLex_le_toLex (x := (rank, _))]
    simp
  have hturn := map_inOrder (fun e : Entry α ι => toLex (key e.item, e.owner)) (turn key) id hsame
  rw [List.map_id, List.map_id] at hturn
  rw [round, hitems, ← map_inOrder key (fun e => key e.item) Entry.item fun _ _ _ _ => Iff.rfl,
    inOrder_ties _ Entry.owner (entriesAt_owners howners rank), hturn]

omit [LinearOrder κ] in
theorem turns_nodup : ((entries queues).map (turn key)).Nodup := by
  have hturn (d e : Entry α ι) (h : turn key d = turn key e) :
      d.rank = e.rank ∧ d.owner = e.owner := by
    simp only [turn, EmbeddingLike.apply_eq_iff_eq, Prod.mk.injEq] at h
    exact ⟨h.1, h.2.2⟩
  rw [List.Nodup, List.pairwise_map]
  refine List.pairwise_flatMap.mpr ⟨fun queue _ => ?_, ?_⟩
  · have hranks : (queue.2.zipIdx.map Prod.snd).Nodup := by
      rw [List.zipIdx_map_snd]
      exact List.nodup_range'
    exact List.pairwise_map.mpr ((List.pairwise_map.mp hranks).imp fun hne h =>
      hne (hturn _ _ h).1)
  · refine (List.pairwise_map.mp howners).imp fun hlt d hd e he h => ?_
    obtain ⟨_, -, rfl⟩ := List.mem_map.mp hd
    obtain ⟨_, -, rfl⟩ := List.mem_map.mp he
    exact hlt.ne (hturn _ _ h).2

theorem round_ascends (rank : ℕ) : (inOrder (turn key) (entriesAt queues rank)).Pairwise
    fun d e => turn key d < turn key e := by
  have hsub : (entriesAt queues rank).Pairwise fun d e => d.owner ≠ e.owner :=
    (entriesAt_owners howners rank).imp ne_of_lt
  have hne : (inOrder (turn key) (entriesAt queues rank)).Pairwise fun d e => d.owner ≠ e.owner :=
    ((inOrder_perm _ _).pairwise_iff Ne.symm).mpr hsub
  refine ((inOrder_pairwise (turn key) _).and hne).imp fun ⟨hle, hne⟩ => lt_of_le_of_ne hle ?_
  intro heq
  simp only [turn, EmbeddingLike.apply_eq_iff_eq, Prod.mk.injEq] at heq
  exact hne heq.2.2

theorem interleave_eq : interleave key (queues.map Prod.snd) =
    (inOrder (turn key) (entries queues)).map Entry.item := by
  set ranks := List.range (longest (queues.map Prod.snd)) with hranks
  set rounds := ranks.flatMap fun rank => inOrder (turn key) (entriesAt queues rank) with hrounds
  have hascends : rounds.Pairwise fun d e => turn key d < turn key e := by
    refine List.pairwise_flatMap.mpr ⟨fun rank _ => round_ascends key howners rank, ?_⟩
    refine List.pairwise_lt_range.imp fun hlt d hd e he => ?_
    have hd := (mem_entriesAt.mp ((mem_inOrder _).mp hd)).1
    have he := (mem_entriesAt.mp ((mem_inOrder _).mp he)).1
    exact Prod.Lex.toLex_lt_toLex.mpr (.inl (by rwa [hd, he]))
  have hmem (e : Entry α ι) : e ∈ rounds ↔ e ∈ entries queues := by
    simp only [hrounds, List.mem_flatMap, mem_inOrder, mem_entriesAt, mem_entries, hranks,
      List.mem_range]
    constructor
    · rintro ⟨rank, -, rfl, h⟩
      exact h
    · rintro ⟨queue, hqueue, hitem⟩
      obtain ⟨hlt, -⟩ := List.getElem?_eq_some_iff.mp hitem
      have hlongest := length_le_longest (List.mem_map_of_mem (f := Prod.snd) hqueue)
      exact ⟨e.rank, hlt.trans_le hlongest, rfl, queue, hqueue, hitem⟩
  have hperm : rounds.Perm (entries queues) :=
    (List.perm_ext_iff_of_nodup (hascends.imp fun hlt heq => (heq ▸ hlt).false)
      (.of_map _ (turns_nodup key howners))).mpr hmem
  have heq : rounds = inOrder (turn key) (entries queues) := by
    refine (hperm.trans (inOrder_perm _ _).symm).eq_of_pairwise (fun d e hd he hde hed => ?_)
      (hascends.imp le_of_lt) (inOrder_pairwise _ _)
    exact List.inj_on_of_nodup_map (turns_nodup key howners) ((hmem d).mp hd)
      ((mem_inOrder _).mp he) (le_antisymm hde hed)
  rw [← heq, hrounds, List.map_flatMap, interleave]
  exact List.flatMap_congr fun rank _ => round_eq key howners rank

end Owners

end RoundRobin
