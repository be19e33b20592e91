import PrSentinel.Models
import PrSentinel.Ranking
import PrSentinel.Table

/-!
The hybrid search as its SQL states it: two ranked halves, each cut off on its own,
fused by reciprocal rank; only then are paths excluded.
-/

set_option autoImplicit false

namespace PrSentinel
open Python Relational Ranking

/-- What the database supplies: the distance of two vectors, the full-text operators of
the `english` configuration, and the order in which rows reach a sort, which decides ties. -/
class Postgres where
  Vec : Type
  TsQuery : Type
  distance : Vec → Vec → ℚ
  websearch : String → TsQuery
  hits : String → TsQuery → Bool
  tsRank : String → TsQuery → ℚ
  arrange : {α : Type} → List α → List α
  arrange_perm : ∀ {α : Type} (xs : List α), (arrange xs).Perm xs

section Search
variable [Postgres]

structure ChunkRow where
  id : ℕ
  repoId : ℤ
  filePath : String
  startLine : ℤ
  endLine : ℤ
  content : String
  symbol : Option String := none
  language : Option String := none
  embedding : Option Postgres.Vec := none

abbrev CodeChunks := Table ChunkRow.id

def ChunkRow.toCodeChunk (c : ChunkRow) (score : ℚ) : CodeChunk :=
  { c with score }

def orderBy {α κ : Type} [LinearOrder κ] (key : α → κ) (rows : List α) : List α :=
  Ranking.inOrder key (Postgres.arrange rows)

def rowNumbers (limit : ℕ) (rows : List ChunkRow) : List (ℕ × ℕ) :=
  ((rows.take limit).map ChunkRow.id).zipIdx 1

/-- The chunks of a repository that have an embedding, with how far it is from the query's. -/
def embedded (chunks : CodeChunks) (repoId : ℤ) (q : Postgres.Vec) : List (ℚ × ChunkRow) :=
  chunks.rows.filterMap fun c =>
    if c.repoId = repoId then c.embedding.map fun v => (Postgres.distance v q, c) else none

def vecHalf (chunks : CodeChunks) (repoId : ℤ) (q : Postgres.Vec) (limit : ℕ) : List (ℕ × ℕ) :=
  rowNumbers limit ((orderBy Prod.fst (embedded chunks repoId q)).map Prod.snd)

def matched (chunks : CodeChunks) (repoId : ℤ) (q : Postgres.TsQuery) : List ChunkRow :=
  chunks.rows.filter fun c => c.repoId = repoId && Postgres.hits c.content q

def bestFirst (q : Postgres.TsQuery) (c : ChunkRow) : ℚ := -Postgres.tsRank c.content q

def txtHalf (chunks : CodeChunks) (repoId : ℤ) (q : Option Postgres.TsQuery) (limit : ℕ) :
    List (ℕ × ℕ) :=
  match q with
  | none => []
  | some q => rowNumbers limit (orderBy (bestFirst q) (matched chunks repoId q))

/-- `sum(1.0 / (60 + rnk))` over the rows with this id. -/
def rrf (halves : List (ℕ × ℕ)) (id : ℕ) : ℚ :=
  ((halves.filter fun e => e.1 = id).map fun e => 1 / (60 + e.2 : ℚ)).sum

def fused (chunks : CodeChunks) (halves : List (ℕ × ℕ)) : List (ChunkRow × ℚ) :=
  (halves.map Prod.fst).dedup.filterMap fun id =>
    (chunks.find? id).map fun c => (c, rrf halves id)

def allowed (paths : Option (List String)) (c : ChunkRow) : Bool :=
  match paths with
  | none => true
  | some paths => c.filePath ∉ paths

/-- The outer query, over what the two halves came to. -/
def outerQuery (chunks : CodeChunks) (halves : List (ℕ × ℕ)) (paths : Option (List String))
    (topK : ℕ) : List (ChunkRow × ℚ) :=
  (orderBy (fun r => -r.2) ((fused chunks halves).filter fun r => allowed paths r.1)).take topK

def nullif (text : String) : Option String := if text = "" then none else some text

def pathsOrNone (paths : List String) : Option (List String) :=
  if paths = [] then none else some paths

def candidateLimit (topK : ℕ) : ℕ := max (topK * 4) 40

/-- The rows that the statement returns. -/
def hybridRows (chunks : CodeChunks) (repoId : ℤ) (embedding : Postgres.Vec) (queryText : String)
    (topK : ℕ) (excludePaths : List String) : List (ChunkRow × ℚ) :=
  let text := orElse queryText "code"
  let limit := candidateLimit topK
  outerQuery chunks
    (vecHalf chunks repoId embedding limit ++
      txtHalf chunks repoId ((nullif text).map Postgres.websearch) limit)
    (pathsOrNone excludePaths) topK

def hybridSearch (chunks : CodeChunks) (repoId : ℤ) (embedding : Postgres.Vec) (queryText : String)
    (topK : ℕ := 12) (excludePaths : List String := []) : List CodeChunk :=
  (hybridRows chunks repoId embedding queryText topK excludePaths).map fun r => r.1.toCodeChunk r.2

theorem orderBy_perm {α κ : Type} [LinearOrder κ] (key : α → κ) (rows : List α) :
    (orderBy key rows).Perm rows := (inOrder_perm key _).trans (Postgres.arrange_perm rows)

@[simp] theorem rowNumbers_ids (limit : ℕ) (rows : List ChunkRow) :
    (rowNumbers limit rows).map Prod.fst = (rows.take limit).map ChunkRow.id := by
  rw [rowNumbers, List.zipIdx_map_fst]

theorem mem_fused {chunks : CodeChunks} {halves : List (ℕ × ℕ)} {c : ChunkRow} {score : ℚ} :
    (c, score) ∈ fused chunks halves ↔
      c ∈ chunks.rows ∧ c.id ∈ halves.map Prod.fst ∧ score = rrf halves c.id := by
  simp only [fused, List.mem_filterMap, List.mem_dedup, Option.map_eq_some_iff, Prod.mk.injEq]
  constructor
  · rintro ⟨id, hid, row, hrow, rfl, rfl⟩
    have hkey : row.id = id := by simpa using List.find?_some hrow
    rw [← hkey] at hid ⊢
    exact ⟨List.mem_of_find?_eq_some hrow, hid, rfl⟩
  · rintro ⟨hc, hid, rfl⟩
    exact ⟨c.id, hid, c, Table.find?_key hc, rfl, rfl⟩

theorem fused_nodup (chunks : CodeChunks) (halves : List (ℕ × ℕ)) :
    ((fused chunks halves).map Prod.fst).Nodup := by
  have hnodup : (fused chunks halves).Nodup := by
    refine List.Nodup.filterMap (fun id id' r hr hr' => ?_) (List.nodup_dedup _)
    obtain ⟨c, hc, rfl⟩ := Option.map_eq_some_iff.mp hr
    obtain ⟨c', hc', heq⟩ := Option.map_eq_some_iff.mp hr'
    have hid : c.id = id := by simpa using List.find?_some hc
    have hid' : c'.id = id' := by simpa using List.find?_some hc'
    rw [← hid, ← hid', (Prod.mk.inj heq).1]
  refine hnodup.map_on fun r hr r' hr' heq => Prod.ext heq ?_
  rw [(mem_fused.mp hr).2.2, (mem_fused.mp hr').2.2, heq]

theorem length_outerQuery (chunks : CodeChunks) (halves : List (ℕ × ℕ))
    (paths : Option (List String)) (topK : ℕ) : (outerQuery chunks halves paths topK).length =
      min topK ((fused chunks halves).filter fun r => allowed paths r.1).length := by
  rw [outerQuery, List.length_take, (orderBy_perm _ _).length_eq]

theorem mem_outerQuery {chunks : CodeChunks} {halves : List (ℕ × ℕ)}
    {paths : Option (List String)} {topK : ℕ} {r : ChunkRow × ℚ}
    (h : r ∈ outerQuery chunks halves paths topK) :
    r ∈ fused chunks halves ∧ allowed paths r.1 = true :=
  List.mem_filter.mp ((orderBy_perm _ _).mem_iff.mp (List.mem_of_mem_take h))

theorem allowed_iff (paths : List String) (c : ChunkRow) :
    allowed (pathsOrNone paths) c = true ↔ c.filePath ∉ paths := by
  unfold pathsOrNone
  split
  · rename_i hnone
    simp [allowed, hnone]
  · simp [allowed]

theorem mem_take_orderBy {α κ : Type} [LinearOrder κ] {key : α → κ} {rows : List α}
    (hkeys : (rows.map key).Nodup) {n : ℕ} {x : α} :
    x ∈ (orderBy key rows).take n ↔ x ∈ rows ∧ ahead key rows (key x) < n := by
  have hperm := Postgres.arrange_perm rows
  have hahead : ahead key (Postgres.arrange rows) (key x) = ahead key rows (key x) :=
    hperm.countP_eq _
  rw [orderBy, ← leading, mem_leading_iff key ((hperm.map key).nodup_iff.mpr hkeys), hperm.mem_iff,
    hahead]

theorem id_mem_iff {chunks : CodeChunks} {rows : List ChunkRow} (hrows : rows ⊆ chunks.rows)
    {c : ChunkRow} (hc : c ∈ chunks.rows) : c.id ∈ rows.map ChunkRow.id ↔ c ∈ rows := by
  refine ⟨fun h => ?_, List.mem_map_of_mem⟩
  obtain ⟨d, hd, hid⟩ := List.mem_map.mp h
  rwa [← List.inj_on_of_nodup_map chunks.unique (hrows hd) hc hid]

theorem mem_embedded {chunks : CodeChunks} {repoId : ℤ} {q : Postgres.Vec} {d : ℚ} {c : ChunkRow} :
    (d, c) ∈ embedded chunks repoId q ↔ c ∈ chunks.rows ∧ c.repoId = repoId ∧
      c.embedding.map (fun v => Postgres.distance v q) = some d := by
  simp only [embedded, List.mem_filterMap]
  constructor
  · rintro ⟨row, hrow, h⟩
    split at h
    · rename_i hrepo
      obtain ⟨v, hv, heq⟩ := Option.map_eq_some_iff.mp h
      cases heq
      exact ⟨hrow, hrepo, by rw [hv]; rfl⟩
    · cases h
  · rintro ⟨hc, hrepo, hd⟩
    obtain ⟨v, hv, rfl⟩ := Option.map_eq_some_iff.mp hd
    exact ⟨c, hc, by simp [hrepo, hv]⟩

variable {chunks : CodeChunks} {repoId : ℤ}

/-- No two chunks of the repository are equally far, and no two match equally well. -/
structure Ordered (chunks : CodeChunks) (repoId : ℤ) (q : Postgres.Vec) (text : Postgres.TsQuery) :
    Prop where
  distances : ((embedded chunks repoId q).map Prod.fst).Nodup
  ranks : ((matched chunks repoId text).map (bestFirst text)).Nodup

/-- One of the nearest chunks, or of the best matches. -/
def Candidate (chunks : CodeChunks) (repoId : ℤ) (q : Postgres.Vec) (text : Postgres.TsQuery)
    (limit : ℕ) (c : ChunkRow) : Prop :=
  (∃ d, (d, c) ∈ embedded chunks repoId q ∧ ahead Prod.fst (embedded chunks repoId q) d < limit) ∨
  (c ∈ matched chunks repoId text ∧
    ahead (bestFirst text) (matched chunks repoId text) (bestFirst text c) < limit)

theorem candidate_iff {q : Postgres.Vec} {text : Postgres.TsQuery} {limit : ℕ} {c : ChunkRow}
    (hordered : Ordered chunks repoId q text) (hc : c ∈ chunks.rows) :
    c.id ∈ (vecHalf chunks repoId q limit ++ txtHalf chunks repoId (some text) limit).map Prod.fst ↔
      Candidate chunks repoId q text limit c := by
  have hnear : ((orderBy Prod.fst (embedded chunks repoId q)).map Prod.snd).take limit ⊆
      chunks.rows := by
    intro d hd
    obtain ⟨⟨x, d⟩, hmem, rfl⟩ := List.mem_map.mp (List.mem_of_mem_take hd)
    exact (mem_embedded.mp ((orderBy_perm _ _).mem_iff.mp hmem)).1
  have hbest : (orderBy (bestFirst text) (matched chunks repoId text)).take limit ⊆ chunks.rows :=
    fun d hd => List.mem_of_mem_filter ((orderBy_perm _ _).mem_iff.mp (List.mem_of_mem_take hd))
  rw [List.map_append, List.mem_append, vecHalf, txtHalf, rowNumbers_ids, rowNumbers_ids,
    id_mem_iff hnear hc, id_mem_iff hbest hc, mem_take_orderBy hordered.ranks, ← List.map_take,
    List.mem_map, Candidate]
  refine or_congr_left ?_
  simp only [mem_take_orderBy hordered.distances]
  constructor
  · rintro ⟨⟨d, c⟩, h, rfl⟩
    exact ⟨d, h⟩
  · rintro ⟨d, h⟩
    exact ⟨(d, c), h, rfl⟩

theorem Candidate.row {q : Postgres.Vec} {text : Postgres.TsQuery} {limit : ℕ} {c : ChunkRow}
    (h : Candidate chunks repoId q text limit c) : c ∈ chunks.rows := by
  rcases h with ⟨d, hd, -⟩ | ⟨hc, -⟩
  · exact (mem_embedded.mp hd).1
  · exact List.mem_of_mem_filter hc

def AtLeast (n : ℕ) (p : ChunkRow → Prop) : Prop :=
  ∃ cs : List ChunkRow, cs.Nodup ∧ cs.length = n ∧ ∀ c ∈ cs, p c

theorem atLeast_iff {n : ℕ} {p : ChunkRow → Prop} {cs : List ChunkRow} (hcs : cs.Nodup)
    (h : ∀ c, c ∈ cs ↔ p c) : AtLeast n p ↔ n ≤ cs.length := by
  constructor
  · rintro ⟨ds, hds, rfl, hp⟩
    exact (hds.subperm fun d hd => (h d).mpr (hp d hd)).length_le
  · intro hn
    refine ⟨cs.take n, hcs.sublist (List.take_sublist n cs), by simp [hn], fun c hc => ?_⟩
    exact (h c).mp (List.mem_of_mem_take hc)

theorem hybridRows_eq (q : Postgres.Vec) (text : String) (topK : ℕ) (paths : List String) :
    hybridRows chunks repoId q text topK paths = outerQuery chunks
      (vecHalf chunks repoId q (candidateLimit topK) ++ txtHalf chunks repoId
        (some (Postgres.websearch (orElse text "code"))) (candidateLimit topK))
      (pathsOrNone paths) topK := by
  have htext : nullif (orElse text "code") = some (orElse text "code") := by
    refine if_neg ?_
    unfold orElse
    split
    · decide
    · assumption
  rw [hybridRows, htext, Option.map_some]

def Outside (chunks : CodeChunks) (repoId : ℤ) (q : Postgres.Vec) (paths : List String)
    (c : ChunkRow) : Prop := (∃ d, (d, c) ∈ embedded chunks repoId q) ∧ c.filePath ∉ paths

/-- Enough results come back whenever they exist exactly if enough of them are among the
candidates, where the excluded files take places too. -/
theorem exclusion_costs_nothing_iff (q : Postgres.Vec) (text : String) (topK : ℕ)
    (paths : List String)
    (hordered : Ordered chunks repoId q (Postgres.websearch (orElse text "code"))) :
    (AtLeast topK (Outside chunks repoId q paths) →
      (hybridSearch chunks repoId q text topK paths).length = topK ∧
        ∀ r ∈ hybridSearch chunks repoId q text topK paths, r.filePath ∉ paths) ↔
    (AtLeast topK (Outside chunks repoId q paths) →
      AtLeast topK fun c => c.filePath ∉ paths ∧ Candidate chunks repoId q
        (Postgres.websearch (orElse text "code")) (candidateLimit topK) c) := by
  refine imp_congr_right fun _ => ?_
  set halves := vecHalf chunks repoId q (candidateLimit topK) ++ txtHalf chunks repoId
    (some (Postgres.websearch (orElse text "code"))) (candidateLimit topK) with hhalves
  have hrows : hybridRows chunks repoId q text topK paths =
      outerQuery chunks halves (pathsOrNone paths) topK := hybridRows_eq q text topK paths
  have hnone : ∀ r ∈ hybridSearch chunks repoId q text topK paths, r.filePath ∉ paths := by
    intro r hr
    obtain ⟨row, hrow, rfl⟩ := List.mem_map.mp hr
    rw [hrows] at hrow
    exact (allowed_iff paths row.1).mp (mem_outerQuery hrow).2
  set left := (fused chunks halves).filter fun r => allowed (pathsOrNone paths) r.1 with hleft
  have hmem (c : ChunkRow) : c ∈ left.map Prod.fst ↔ c.filePath ∉ paths ∧ Candidate chunks repoId q
      (Postgres.websearch (orElse text "code")) (candidateLimit topK) c := by
    rw [List.mem_map]
    constructor
    · rintro ⟨⟨c, score⟩, hr, rfl⟩
      obtain ⟨hfused, hallowed⟩ := List.mem_filter.mp hr
      obtain ⟨hc, hid, -⟩ := mem_fused.mp hfused
      exact ⟨(allowed_iff paths c).mp hallowed, (candidate_iff hordered hc).mp hid⟩
    · rintro ⟨hpath, hcandidate⟩
      have hid := (candidate_iff hordered hcandidate.row).mpr hcandidate
      refine ⟨(c, rrf halves c.id), List.mem_filter.mpr ⟨?_, (allowed_iff paths c).mpr hpath⟩, rfl⟩
      exact mem_fused.mpr ⟨hcandidate.row, hid, rfl⟩
  have hnodup : (left.map Prod.fst).Nodup :=
    (fused_nodup chunks halves).sublist (List.filter_sublist.map Prod.fst)
  have hlength : (hybridSearch chunks repoId q text topK paths).length =
      min topK (left.map Prod.fst).length := by
    rw [hybridSearch, List.length_map, hrows, length_outerQuery, List.length_map]
  rw [and_iff_left hnone, atLeast_iff hnodup hmem, hlength, min_eq_left_iff]

theorem mem_hybridSearch {q : Postgres.Vec} {text : String} {topK : ℕ} {paths : List String}
    {hit : CodeChunk} (h : hit ∈ hybridSearch chunks repoId q text topK paths) :
    ∃ c ∈ chunks.rows, c.repoId = repoId ∧ ∃ score, hit = c.toCodeChunk score := by
  obtain ⟨⟨c, score⟩, hr, rfl⟩ := List.mem_map.mp h
  obtain ⟨hc, hid, -⟩ := mem_fused.mp (mem_outerQuery hr).1
  suffices hsame : ∃ d ∈ chunks.rows, d.repoId = repoId ∧ d.id = c.id by
    obtain ⟨d, hd, hrepo, heq⟩ := hsame
    rw [List.inj_on_of_nodup_map chunks.unique hd hc heq] at hrepo
    exact ⟨c, hc, hrepo, score, rfl⟩
  rw [List.map_append, List.mem_append] at hid
  rcases hid with hid | hid
  · rw [vecHalf, rowNumbers_ids] at hid
    obtain ⟨d, hd, heq⟩ := List.mem_map.mp hid
    obtain ⟨⟨distance, d⟩, hpair, rfl⟩ := List.mem_map.mp (List.mem_of_mem_take hd)
    obtain ⟨hd, hrepo, -⟩ := mem_embedded.mp ((orderBy_perm _ _).mem_iff.mp hpair)
    exact ⟨d, hd, hrepo, heq⟩
  · unfold txtHalf at hid
    split at hid
    · cases hid
    · rw [rowNumbers_ids] at hid
      obtain ⟨d, hd, heq⟩ := List.mem_map.mp hid
      obtain ⟨hd, hmatch⟩ :=
        List.mem_filter.mp ((orderBy_perm _ _).mem_iff.mp (List.mem_of_mem_take hd))
      simp only [Bool.and_eq_true, decide_eq_true_eq] at hmatch
      exact ⟨d, hd, hmatch.1, heq⟩

end Search

@[reducible] def wordSearch : Postgres where
  Vec := ℚ
  TsQuery := List (List Char)
  distance v q := |v - q|
  websearch text := (text.toList.splitOn ' ').filter fun word => word ≠ ['o', 'r']
  hits content words := words.any fun word => word ∈ content.toList.splitOn ' '
  tsRank content words :=
    (words.filter fun word => word ∈ content.toList.splitOn ' ').length / words.length
  arrange xs := xs
  arrange_perm xs := .refl xs

def changedThen (changed id : ℕ) : @ChunkRow wordSearch :=
  letI := wordSearch
  { id, repoId := 1, filePath := if id < changed then "changed.py" else "caller.py",
    startLine := 1, endLine := 20, content := "rows of the ledger", embedding := some (id : ℚ) }

def indexOf (changed : ℕ) : @CodeChunks wordSearch :=
  letI := wordSearch
  ⟨(List.range (changed + 1)).map (changedThen changed), by
    rw [List.map_map, show ChunkRow.id ∘ changedThen changed = id from rfl, List.map_id]
    exact List.nodup_range⟩

theorem caller_outside (changed : ℕ) :
    letI := wordSearch
    Outside (indexOf changed) 1 (0 : ℚ) ["changed.py"] (changedThen changed changed) := by
  let _ := wordSearch
  refine ⟨⟨|(changed : ℚ) - 0|, mem_embedded.mpr ⟨?_, rfl, rfl⟩⟩, by simp [changedThen]⟩
  exact List.mem_map_of_mem (List.mem_range.mpr (Nat.lt_succ_self changed))

theorem exclusion_spares_caller :
    letI := wordSearch
    (hybridSearch (indexOf 2) 1 (0 : ℚ) "payment" 1 ["changed.py"]).length = 1 ∧
      ∀ r ∈ hybridSearch (indexOf 2) 1 (0 : ℚ) "payment" 1 ["changed.py"],
        r.filePath ∉ ["changed.py"] := by
  let _ := wordSearch
  have houtside := caller_outside 2
  have hordered : Ordered (indexOf 2) 1 (0 : ℚ) (Postgres.websearch (orElse "payment" "code")) :=
    ⟨by decide +kernel, by decide +kernel⟩
  refine (exclusion_costs_nothing_iff (0 : ℚ) "payment" 1 ["changed.py"] hordered).mpr
    (fun _ => ⟨[changedThen 2 2], List.nodup_singleton _, rfl, ?_⟩)
    ⟨[changedThen 2 2], List.nodup_singleton _, rfl, by simpa using houtside⟩
  intro c hc
  rw [List.mem_singleton.mp hc]
  obtain ⟨d, hd⟩ := houtside.1
  refine ⟨houtside.2, .inl ⟨d, hd, lt_of_le_of_lt List.countP_le_length ?_⟩⟩
  decide +kernel

/-- Forty chunks of the changed file come first, and then there is nothing left to return. -/
theorem changed_file_fills_candidates :
    letI := wordSearch
    Ordered (indexOf 40) 1 (0 : ℚ) (Postgres.websearch (orElse "payment" "code")) ∧
      AtLeast 1 (Outside (indexOf 40) 1 (0 : ℚ) ["changed.py"]) ∧
      (hybridSearch (indexOf 40) 1 (0 : ℚ) "payment" 1 ["changed.py"]).length = 0 := by
  let _ := wordSearch
  refine ⟨⟨by decide +kernel, by decide +kernel⟩, ?_, by decide +kernel⟩
  exact ⟨[changedThen 40 40], List.nodup_singleton _, rfl, by simpa using caller_outside 40⟩

section Search
variable [Postgres]

def vectorSearch (chunks : CodeChunks) (repoId : ℤ) (q : Postgres.Vec) (topK : ℕ)
    (paths : List String) : List CodeChunk :=
  (outerQuery chunks (vecHalf chunks repoId q (candidateLimit topK) ++
    txtHalf chunks repoId none (candidateLimit topK)) (pathsOrNone paths) topK).map
      fun r => r.1.toCodeChunk r.2

omit [Postgres] in
theorem rrf_append (xs ys : List (ℕ × ℕ)) (id : ℕ) : rrf (xs ++ ys) id = rrf xs id + rrf ys id := by
  simp [rrf]

omit [Postgres] in
theorem rrf_nonneg (halves : List (ℕ × ℕ)) (id : ℕ) : 0 ≤ rrf halves id := by
  refine List.sum_nonneg fun x hx => ?_
  obtain ⟨e, -, rfl⟩ := List.mem_map.mp hx
  positivity

omit [Postgres] in
theorem rrf_pos_iff (halves : List (ℕ × ℕ)) (id : ℕ) :
    0 < rrf halves id ↔ id ∈ halves.map Prod.fst := by
  constructor
  · intro h
    by_contra hnone
    have hfilter : halves.filter (fun e => e.1 = id) = [] := by
      refine List.filter_eq_nil_iff.mpr fun e he hid => hnone ?_
      rw [← of_decide_eq_true hid]
      exact List.mem_map_of_mem he
    simp [rrf, hfilter] at h
  · intro h
    obtain ⟨e, he, rfl⟩ := List.mem_map.mp h
    refine List.sum_pos _ (fun x hx => ?_) ?_
    · obtain ⟨e, -, rfl⟩ := List.mem_map.mp hx
      positivity
    · rw [ne_eq, List.map_eq_nil_iff]
      exact List.ne_nil_of_mem (List.mem_filter.mpr ⟨he, by simp⟩)

theorem chunks_fused (chunks : CodeChunks) (halves : List (ℕ × ℕ)) :
    ((fused chunks halves).map Prod.fst).Perm
      (chunks.rows.filter fun c => c.id ∈ halves.map Prod.fst) := by
  have hrows : chunks.rows.Nodup := List.Nodup.of_map _ chunks.unique
  refine (List.perm_ext_iff_of_nodup (fused_nodup chunks halves) (hrows.filter _)).mpr fun c => ?_
  rw [List.mem_map, List.mem_filter, decide_eq_true_eq]
  constructor
  · rintro ⟨⟨c, score⟩, hr, rfl⟩
    obtain ⟨hc, hid, -⟩ := mem_fused.mp hr
    exact ⟨hc, hid⟩
  · rintro ⟨hc, hid⟩
    exact ⟨(c, rrf halves c.id), mem_fused.mpr ⟨hc, hid, rfl⟩, rfl⟩

theorem sum_fused (chunks : CodeChunks) (halves : List (ℕ × ℕ)) :
    ((fused chunks halves).map Prod.snd).sum =
      (chunks.rows.map fun c => rrf halves c.id).sum := by
  have hscores : (fused chunks halves).map Prod.snd =
      ((fused chunks halves).map Prod.fst).map fun c => rrf halves c.id := by
    rw [List.map_map]
    exact List.map_congr_left fun r hr => (mem_fused.mp hr).2.2
  rw [hscores, ((chunks_fused chunks halves).map _).sum_eq]
  induction chunks.rows with
  | nil => rfl
  | cons c rows ih =>
    rw [List.filter_cons]
    split
    · rw [List.map_cons, List.sum_cons, ih, List.map_cons, List.sum_cons]
    · rename_i hid
      have hzero : rrf halves c.id = 0 := by
        refine le_antisymm (not_lt.mp fun hpos => hid ?_) (rrf_nonneg _ _)
        exact decide_eq_true ((rrf_pos_iff _ _).mp hpos)
      rw [ih, List.map_cons, List.sum_cons, hzero, zero_add]

theorem length_fused_le (chunks : CodeChunks) (halves : List (ℕ × ℕ)) :
    (fused chunks halves).length ≤ chunks.rows.length := by
  have hperm := (chunks_fused chunks halves).length_eq
  rw [List.length_map] at hperm
  exact hperm ▸ List.length_filter_le _ _

theorem sum_outerQuery (chunks : CodeChunks) (halves : List (ℕ × ℕ)) :
    (((outerQuery chunks halves (pathsOrNone []) chunks.rows.length).map fun r =>
      r.1.toCodeChunk r.2).map CodeChunk.score).sum =
        (chunks.rows.map fun c => rrf halves c.id).sum := by
  have hall : (fused chunks halves).filter (fun r => allowed (pathsOrNone []) r.1) =
      fused chunks halves := List.filter_eq_self.mpr fun r _ => (allowed_iff [] r.1).mpr (by simp)
  have hperm := orderBy_perm (fun r : ChunkRow × ℚ => -r.2) (fused chunks halves)
  have htake : outerQuery chunks halves (pathsOrNone []) chunks.rows.length =
      orderBy (fun r => -r.2) (fused chunks halves) := by
    rw [outerQuery, hall, List.take_of_length_le]
    rw [hperm.length_eq]
    exact length_fused_le chunks halves
  rw [List.map_map, htake, ← sum_fused]
  exact (hperm.map Prod.snd).sum_eq

/-- An empty list of terms leaves the search to the vectors exactly if no chunk matches
the word that stands in for it. -/
theorem empty_terms_disable_iff (chunks : CodeChunks) (repoId : ℤ) (q : Postgres.Vec) :
    (∀ (topK : ℕ) (paths : List String),
      hybridSearch chunks repoId q "" topK paths = vectorSearch chunks repoId q topK paths) ↔
    ∀ c ∈ chunks.rows, c.repoId = repoId →
      Postgres.hits c.content (Postgres.websearch "code") = false := by
  have hcode : orElse "" "code" = "code" := rfl
  have hperm := orderBy_perm (bestFirst (Postgres.websearch "code"))
    (matched chunks repoId (Postgres.websearch "code"))
  constructor
  · intro h c hc hrepo
    by_contra hhits
    have hmatched : c ∈ matched chunks repoId (Postgres.websearch "code") :=
      List.mem_filter.mpr ⟨hc, by simpa [hrepo] using hhits⟩
    set limit := candidateLimit chunks.rows.length with hlimit
    have hroom : (matched chunks repoId (Postgres.websearch "code")).length ≤ limit := by
      have hle := List.length_filter_le (fun c => c.repoId = repoId &&
        Postgres.hits c.content (Postgres.websearch "code")) chunks.rows
      have hmax := le_max_left (chunks.rows.length * 4) 40
      rw [hlimit, candidateLimit, matched]
      omega
    have hid : c.id ∈ (txtHalf chunks repoId (some (Postgres.websearch "code")) limit).map
        Prod.fst := by
      rw [txtHalf, rowNumbers_ids, List.take_of_length_le (hperm.length_eq ▸ hroom)]
      exact List.mem_map_of_mem (hperm.mem_iff.mpr hmatched)
    -- the scores differ by what the matches of the word add to them
    have hscores := congrArg (fun found => (found.map CodeChunk.score).sum)
      (h chunks.rows.length [])
    simp only [hybridSearch, hybridRows_eq, hcode, vectorSearch, sum_outerQuery, ← hlimit,
      rrf_append, List.sum_map_add] at hscores
    have hpos := (rrf_pos_iff _ c.id).mpr hid
    have hle := List.single_le_sum (l := chunks.rows.map fun c =>
      rrf (txtHalf chunks repoId (some (Postgres.websearch "code")) limit) c.id)
      (by simp [rrf_nonneg]) _ (List.mem_map_of_mem hc)
    have hnone : (chunks.rows.map fun c => rrf (txtHalf chunks repoId none limit) c.id).sum = 0 := by
      simp [txtHalf, rrf]
    linarith
  · intro h topK paths
    have hnone : matched chunks repoId (Postgres.websearch "code") = [] := by
      refine List.filter_eq_nil_iff.mpr fun c hc => ?_
      by_cases hrepo : c.repoId = repoId
      · simp [h c hc hrepo]
      · simp [hrepo]
    have hempty : txtHalf chunks repoId (some (Postgres.websearch "code")) (candidateLimit topK) =
        [] := by
      rw [hnone] at hperm
      rw [txtHalf, hnone, hperm.eq_nil, rowNumbers, List.take_nil]
      rfl
    rw [hybridSearch, hybridRows_eq, hcode, hempty]
    rfl

end Search

def docs : @CodeChunks wordSearch :=
  letI := wordSearch
  ⟨[{ id := 0, repoId := 1, filePath := "README.md", startLine := 1, endLine := 3,
      content := "how the code works" }], List.nodup_singleton _⟩

theorem empty_terms_find_code :
    letI := wordSearch
    ((hybridSearch docs 1 (0 : ℚ) "").map fun c => (c.filePath, c.score)) =
        [("README.md", 1 / 61)] ∧
      (vectorSearch docs 1 (0 : ℚ) 12 []).length = 0 := by
  decide +kernel

end PrSentinel
