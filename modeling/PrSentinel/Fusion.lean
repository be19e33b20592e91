import PrSentinel.HybridSearch

/-!
What the fused order keeps of the two orders it is made of: a chunk that is behind another in
every half it takes part in is behind it in the result.
-/

set_option autoImplicit false

namespace PrSentinel.Fusion
open Python Relational Ranking

theorem rrf_of_mem {half : List (ℕ × ℕ)} (hnodup : (half.map Prod.fst).Nodup) {id n : ℕ}
    (h : (id, n) ∈ half) : rrf half id = 1 / (60 + n : ℚ) := by
  have hfilter : half.filter (fun e => e.1 = id) = [(id, n)] := by
    refine List.perm_singleton.mp ((List.perm_ext_iff_of_nodup ((List.Nodup.of_map _ hnodup).filter _)
      (List.nodup_singleton _)).mpr fun e => ?_)
    rw [List.mem_filter, List.mem_singleton, decide_eq_true_eq]
    constructor
    · rintro ⟨he, hid⟩
      exact List.inj_on_of_nodup_map hnodup he h hid
    · rintro rfl
      exact ⟨h, rfl⟩
  simp [rrf, hfilter]

theorem rrf_of_not_mem {half : List (ℕ × ℕ)} {id : ℕ} (h : id ∉ half.map Prod.fst) :
    rrf half id = 0 :=
  le_antisymm (not_lt.mp fun hpos => h ((rrf_pos_iff half id).mp hpos)) (rrf_nonneg half id)

/-- In a half that puts `a` before `b` if it has `b` at all, `a` scores at least as much, and
more if `b` scores. -/
structure Ahead (half : List (ℕ × ℕ)) (a b : ℕ) : Prop where
  le : rrf half b ≤ rrf half a
  lt : b ∈ half.map Prod.fst → rrf half b < rrf half a

theorem ahead_of_numbers {half : List (ℕ × ℕ)} (hnodup : (half.map Prod.fst).Nodup) {a b : ℕ}
    (h : ∀ n, (b, n) ∈ half → ∃ m < n, (a, m) ∈ half) : Ahead half a b := by
  have hlt : b ∈ half.map Prod.fst → rrf half b < rrf half a := by
    intro hb
    obtain ⟨⟨b', n⟩, hn, rfl⟩ := List.mem_map.mp hb
    obtain ⟨m, hm, ha⟩ := h n hn
    rw [rrf_of_mem hnodup hn, rrf_of_mem hnodup ha]
    have hcast : (m : ℚ) < n := by exact_mod_cast hm
    exact one_div_lt_one_div_of_lt (by positivity) (by linarith)
  refine ⟨?_, hlt⟩
  by_cases hb : b ∈ half.map Prod.fst
  · exact (hlt hb).le
  · rw [rrf_of_not_mem hb]
    exact rrf_nonneg half a

section Search
variable [Postgres] {chunks : CodeChunks} {repoId : ℤ} {q : Postgres.Vec}

theorem orderBy_pairwise {α κ : Type} [LinearOrder κ] (key : α → κ) (rows : List α) :
    (orderBy key rows).Pairwise fun x y => key x ≤ key y := inOrder_pairwise key _

/-- In every half that `b` takes part in, `a` does too, and comes strictly before it. -/
structure Outranks (chunks : CodeChunks) (repoId : ℤ) (q : Postgres.Vec) (text : Postgres.TsQuery)
    (a b : ChunkRow) : Prop where
  nearer : ∀ d, (d, b) ∈ embedded chunks repoId q → ∃ d' < d, (d', a) ∈ embedded chunks repoId q
  better : b ∈ matched chunks repoId text → a ∈ matched chunks repoId text ∧
    Postgres.tsRank b.content text < Postgres.tsRank a.content text

theorem embedded_sublist (chunks : CodeChunks) (repoId : ℤ) (q : Postgres.Vec) :
    ((embedded chunks repoId q).map Prod.snd).Sublist chunks.rows := by
  rw [embedded]
  induction chunks.rows with
  | nil => exact .slnil
  | cons c rows ih =>
    rw [List.filterMap_cons]
    cases hread : (if c.repoId = repoId then c.embedding.map fun v => (Postgres.distance v q, c)
        else none) with
    | none => exact ih.cons c
    | some r =>
      have hrow : r.2 = c := by
        split at hread
        · obtain ⟨v, -, rfl⟩ := Option.map_eq_some_iff.mp hread
          rfl
        · cases hread
      rw [List.map_cons, hrow]
      exact ih.cons_cons c

theorem vecHalf_eq (limit : ℕ) : vecHalf chunks repoId q limit =
    (((orderBy Prod.fst (embedded chunks repoId q)).take limit).map fun r => r.2.id).zipIdx 1 := by
  rw [vecHalf, rowNumbers, ← List.map_take, List.map_map]
  rfl

theorem embedded_of_number {b : ChunkRow} (hb : b ∈ chunks.rows) {limit : ℕ}
    (h : b.id ∈ (vecHalf chunks repoId q limit).map Prod.fst) :
    ∃ d, (d, b) ∈ embedded chunks repoId q := by
  rw [vecHalf_eq, List.zipIdx_map_fst] at h
  obtain ⟨⟨d, b'⟩, hr, hid⟩ := List.mem_map.mp h
  have hrow := (orderBy_perm _ _).mem_iff.mp (List.mem_of_mem_take hr)
  obtain rfl : b' = b :=
    List.inj_on_of_nodup_map chunks.unique (mem_embedded.mp hrow).1 hb hid
  exact ⟨d, hrow⟩

theorem matched_of_number {b : ChunkRow} (hb : b ∈ chunks.rows) {text : Postgres.TsQuery}
    {limit : ℕ} (h : b.id ∈ (txtHalf chunks repoId (some text) limit).map Prod.fst) :
    b ∈ matched chunks repoId text := by
  rw [txtHalf, rowNumbers_ids] at h
  obtain ⟨b', hr, hid⟩ := List.mem_map.mp h
  have hrow := (orderBy_perm _ _).mem_iff.mp (List.mem_of_mem_take hr)
  obtain rfl : b' = b :=
    List.inj_on_of_nodup_map chunks.unique (List.mem_of_mem_filter hrow) hb hid
  exact hrow

theorem vecHalf_ahead {text : Postgres.TsQuery} {a b : ChunkRow}
    (h : Outranks chunks repoId q text a b) (hb : b ∈ chunks.rows) (limit : ℕ) :
    Ahead (vecHalf chunks repoId q limit) a.id b.id := by
  have hperm := orderBy_perm Prod.fst (embedded chunks repoId q)
  have hids : ((orderBy Prod.fst (embedded chunks repoId q)).map fun r => r.2.id).Nodup := by
    refine (hperm.map _).nodup_iff.mpr ?_
    have hsub := ((embedded_sublist chunks repoId q).map ChunkRow.id)
    rw [List.map_map] at hsub
    exact chunks.unique.sublist hsub
  refine ahead_of_numbers ?_ fun n hn => ?_
  · rw [vecHalf_eq, List.zipIdx_map_fst]
    exact hids.sublist ((List.take_sublist _ _).map _)
  · obtain ⟨d, hrow⟩ := embedded_of_number hb (List.mem_map_of_mem hn)
    obtain ⟨d', hlt, ha⟩ := h.nearer d hrow
    rw [vecHalf_eq] at hn ⊢
    exact number_lt (orderBy_pairwise _ _) hids (hperm.mem_iff.mpr ha) (hperm.mem_iff.mpr hrow) hlt hn

theorem txtHalf_ahead {text : Postgres.TsQuery} {a b : ChunkRow}
    (h : Outranks chunks repoId q text a b) (hb : b ∈ chunks.rows) (limit : ℕ) :
    Ahead (txtHalf chunks repoId (some text) limit) a.id b.id := by
  have hperm := orderBy_perm (bestFirst text) (matched chunks repoId text)
  have hids : ((orderBy (bestFirst text) (matched chunks repoId text)).map ChunkRow.id).Nodup :=
    (hperm.map _).nodup_iff.mpr (chunks.unique.sublist (List.filter_sublist.map _))
  refine ahead_of_numbers ?_ fun n hn => ?_
  · rw [txtHalf, rowNumbers_ids]
    exact hids.sublist ((List.take_sublist _ _).map _)
  · have hrow := matched_of_number hb (List.mem_map_of_mem hn)
    obtain ⟨ha, hlt⟩ := h.better hrow
    exact number_lt (orderBy_pairwise _ _) hids (hperm.mem_iff.mpr ha) (hperm.mem_iff.mpr hrow)
      (neg_lt_neg hlt : bestFirst text a < bestFirst text b) hn

theorem Outranks.row {text : Postgres.TsQuery} {a b : ChunkRow}
    (h : Outranks chunks repoId q text a b) (hb : b ∈ chunks.rows) {limit : ℕ}
    (hid : b.id ∈ (vecHalf chunks repoId q limit ++
      txtHalf chunks repoId (some text) limit).map Prod.fst) : a ∈ chunks.rows := by
  rw [List.map_append, List.mem_append] at hid
  rcases hid with hid | hid
  · obtain ⟨d, hrow⟩ := embedded_of_number hb hid
    obtain ⟨d', -, ha⟩ := h.nearer d hrow
    exact (mem_embedded.mp ha).1
  · exact List.mem_of_mem_filter (h.better (matched_of_number hb hid)).1

/-- What both halves agree on stands: whatever breaks the ties, a chunk that another outranks is
found only behind it, unless that one's file is excluded. -/
theorem outranked_behind {text : String} {a b : ChunkRow}
    (h : Outranks chunks repoId q (Postgres.websearch (orElse text "code")) a b)
    {paths : List String} (hpath : a.filePath ∉ paths) {topK : ℕ} {score : ℚ}
    (hfound : (b, score) ∈ hybridRows chunks repoId q text topK paths) :
    ∃ higher, score < higher ∧ [a.toCodeChunk higher, b.toCodeChunk score].Sublist
      (hybridSearch chunks repoId q text topK paths) := by
  set limit := candidateLimit topK
  set query := Postgres.websearch (orElse text "code")
  set halves := vecHalf chunks repoId q limit ++ txtHalf chunks repoId (some query) limit
    with hhalves
  have hrows : hybridRows chunks repoId q text topK paths =
      outerQuery chunks halves (pathsOrNone paths) topK := hybridRows_eq q text topK paths
  rw [hrows] at hfound
  obtain ⟨hfused, -⟩ := mem_outerQuery hfound
  obtain ⟨hb, hid, rfl⟩ := mem_fused.mp hfused
  have hvec := vecHalf_ahead h hb limit
  have htxt := txtHalf_ahead h hb limit
  have hlt : rrf halves b.id < rrf halves a.id := by
    rw [hhalves, rrf_append, rrf_append]
    rw [hhalves, List.map_append, List.mem_append] at hid
    rcases hid with hid | hid
    · exact add_lt_add_of_lt_of_le (hvec.lt hid) htxt.le
    · exact add_lt_add_of_le_of_lt hvec.le (htxt.lt hid)
  have ha : a.id ∈ halves.map Prod.fst :=
    (rrf_pos_iff halves a.id).mp ((rrf_nonneg halves b.id).trans_lt hlt)
  have hleft : (a, rrf halves a.id) ∈
      (fused chunks halves).filter fun r => allowed (pathsOrNone paths) r.1 :=
    List.mem_filter.mpr ⟨mem_fused.mpr ⟨h.row hb hid, ha, rfl⟩, (allowed_iff paths a).mpr hpath⟩
  have hsub := sublist_take (orderBy_pairwise (fun r : ChunkRow × ℚ => -r.2) _)
    ((orderBy_perm _ _).mem_iff.mpr hleft) hfound (neg_lt_neg hlt)
  refine ⟨rrf halves a.id, hlt, ?_⟩
  rw [hybridSearch, hrows]
  exact hsub.map fun r : ChunkRow × ℚ => r.1.toCodeChunk r.2

end Search

def ledger : @ChunkRow wordSearch :=
  letI := wordSearch
  ⟨1, 1, "ledger.py", 1, 30, "a payment is charge and credit", none, none, some (1 : ℚ)⟩

def mail : @ChunkRow wordSearch :=
  letI := wordSearch
  ⟨2, 1, "mail.py", 1, 9, "thank for the payment", none, none, some (3 : ℚ)⟩

def payments : @CodeChunks wordSearch :=
  letI := wordSearch
  ⟨[⟨0, 1, "changed.py", 1, 20, "charge the payment", none, none, some (0 : ℚ)⟩, ledger, mail],
    by decide⟩

theorem outranked_behind_sample :
    letI := wordSearch
    ∃ higher, 2 / 63 < higher ∧ [ledger.toCodeChunk higher, mail.toCodeChunk (2 / 63)].Sublist
      (hybridSearch payments 1 (0 : ℚ) "charge or payment" 12 ["changed.py"]) := by
  let _ := wordSearch
  refine outranked_behind ⟨fun d hd => ?_, fun _ => ?_⟩ (by decide) ?_
  · obtain ⟨-, -, heq⟩ := mem_embedded.mp hd
    obtain rfl : |(3 : ℚ) - 0| = d := Option.some.inj heq
    exact ⟨|(1 : ℚ) - 0|, by norm_num, mem_embedded.mpr ⟨.tail _ (.head _), rfl, rfl⟩⟩
  · exact ⟨List.mem_filter.mpr ⟨.tail _ (.head _), by decide +kernel⟩, by decide +kernel⟩
  · have hrows : (hybridRows payments 1 (0 : ℚ) "charge or payment" 12 ["changed.py"]).map
        (fun r => (r.1.id, r.2)) = [(1, 2 / 62), (2, 2 / 63)] := by decide +kernel
    have hsecond : (2, 2 / 63) ∈ [((1 : ℕ), (2 / 62 : ℚ)), (2, 2 / 63)] := .tail _ (.head _)
    rw [← hrows] at hsecond
    obtain ⟨⟨c, score⟩, hr, heq⟩ := List.mem_map.mp hsecond
    obtain ⟨hid, rfl⟩ := Prod.mk.inj heq
    have hc : c ∈ payments.rows := (mem_fused.mp (mem_outerQuery hr).1).1
    obtain rfl : c = mail :=
      List.inj_on_of_nodup_map payments.unique hc (.tail _ (.tail _ (.head _))) hid
    exact hr

end PrSentinel.Fusion
