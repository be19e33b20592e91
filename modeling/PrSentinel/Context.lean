import PrSentinel.Clusters
import PrSentinel.Disclosure
import PrSentinel.RoundRobin
import PrSentinel.Terms

set_option autoImplicit false

namespace PrSentinel
open Python Relational Ranking RoundRobin Greedy

def hitKey (hit : CodeChunk) : String × ℤ := (hit.filePath, hit.startLine)

def keepHit (s : List (String × ℤ) × List CodeChunk) (hit : CodeChunk) :
    List (String × ℤ) × List CodeChunk :=
  if hitKey hit ∈ s.1 then s else (s.1 ++ [hitKey hit], s.2 ++ [hit])

abbrev FileHits := Table (Prod.fst : String × List CodeChunk → String)

/-- The loop's `seen` and `per_file_hits`. -/
structure Gathered where
  seen : List (String × ℤ) := []
  perFileHits : FileHits := .empty

def gatherHits (s : Gathered) (found : String × List CodeChunk) : Gathered :=
  let (seen, kept) := found.2.foldl keepHit (s.seen, [])
  ⟨seen, s.perFileHits.upsert (found.1, kept) (fun old => (old.1, kept)) fun _ => rfl⟩

def gatheredHits (found : List (String × List CodeChunk)) : Gathered := found.foldl gatherHits {}

def byScore (hit : CodeChunk) : ℚ := -hit.score

def merged (found : List (String × List CodeChunk)) : List CodeChunk :=
  interleave byScore ((gatheredHits found).perFileHits.rows.map Prod.snd)

def mergeHits (retrievalTopK : ℕ) (found : List (String × List CodeChunk)) : List CodeChunk :=
  (merged found).take retrievalTopK

/-- A hit where it was found: in which search, and how far down. -/
structure Hit where
  search : ℕ
  path : String
  index : ℕ
  chunk : CodeChunk

def hitsOf (search : ℕ) (found : String × List CodeChunk) : List Hit :=
  found.2.zipIdx.map fun e => ⟨search, found.1, e.2, e.1⟩

def allHits (found : List (String × List CodeChunk)) : List Hit :=
  found.zipIdx.flatMap fun e => hitsOf e.2 e.1

def Hit.key (h : Hit) : String × ℤ := hitKey h.chunk

/-- The hits that found their chunk first, search after search. -/
def creditedHits (found : List (String × List CodeChunk)) : List Hit := firsts Hit.key (allHits found)

def standingHits (found : List (String × List CodeChunk)) : List Hit :=
  (creditedHits found).filter fun h => h.path ∉ (found.drop (h.search + 1)).map Prod.fst

def creditedRank (found : List (String × List CodeChunk)) (h : Hit) : ℕ :=
  (creditedHits found).countP fun h' => h'.search = h.search && h'.index < h.index

/-- Rounds go by rank, within a round by score, and ties by the order of the files. -/
def hitTurn (found : List (String × List CodeChunk)) (h : Hit) : ℕ ×ₗ ℚ ×ₗ ℕ :=
  toLex (creditedRank found h, toLex (byScore h.chunk, (found.map Prod.fst).idxOf h.path))

theorem allHits_snoc (found : List (String × List CodeChunk)) (f : String × List CodeChunk) :
    allHits (found ++ [f]) = allHits found ++ hitsOf found.length f := by
  simp [allHits, List.zipIdx_append]

theorem mem_hitsOf {search : ℕ} {f : String × List CodeChunk} {h : Hit} : h ∈ hitsOf search f ↔
    h.search = search ∧ h.path = f.1 ∧ f.2[h.index]? = some h.chunk := by
  simp only [hitsOf, List.mem_map, List.mem_zipIdx_iff_getElem?]
  constructor
  · rintro ⟨⟨chunk, index⟩, hchunk, rfl⟩
    exact ⟨rfl, rfl, hchunk⟩
  · rintro ⟨rfl, hpath, hchunk⟩
    exact ⟨(h.chunk, h.index), hchunk, by rw [← hpath]⟩

theorem mem_allHits {found : List (String × List CodeChunk)} {h : Hit} : h ∈ allHits found ↔
    ∃ hits, found[h.search]? = some (h.path, hits) ∧ hits[h.index]? = some h.chunk := by
  simp only [allHits, List.mem_flatMap, List.mem_zipIdx_iff_getElem?, mem_hitsOf]
  constructor
  · rintro ⟨⟨⟨path, hits⟩, search⟩, hfound, hsearch, hpath, hchunk⟩
    cases hsearch
    cases hpath
    exact ⟨hits, hfound, hchunk⟩
  · rintro ⟨hits, hfound, hchunk⟩
    exact ⟨⟨(h.path, hits), h.search⟩, hfound, rfl, rfl, hchunk⟩

theorem foldl_keepHit (before new : List Hit) :
    (new.map Hit.chunk).foldl keepHit ((firsts Hit.key before).map Hit.key, []) =
      ((firsts Hit.key (before ++ new)).map Hit.key,
        ((firsts Hit.key (before ++ new)).drop (firsts Hit.key before).length).map Hit.chunk) := by
  induction new using List.reverseRecOn with
  | nil => simp
  | append_singleton new h ih =>
    obtain ⟨rest, heq, -⟩ := firsts_append Hit.key before new
    rw [List.map_append, List.foldl_append, ih, ← List.append_assoc, firsts_snoc, heq]
    have hkey : hitKey h.chunk = h.key := rfl
    simp only [List.map_cons, List.map_nil, List.foldl_cons, List.foldl_nil, keepHit, hkey]
    split
    · rfl
    · simp

def creditedTo (found : List (String × List CodeChunk)) (search : ℕ) : List Hit :=
  (creditedHits found).filter fun h => h.search = search

theorem creditedHits_snoc (found : List (String × List CodeChunk)) (f : String × List CodeChunk) :
    creditedHits (found ++ [f]) = creditedHits found ++ creditedTo (found ++ [f]) found.length := by
  obtain ⟨new, heq, hsub⟩ := firsts_append Hit.key (allHits found) (hitsOf found.length f)
  have hcredited : creditedHits (found ++ [f]) = creditedHits found ++ new := by
    rw [creditedHits, allHits_snoc, heq]
    rfl
  have hold : (creditedHits found).filter (fun h => h.search = found.length) = [] := by
    refine List.filter_eq_nil_iff.mpr fun h hh hsearch => ?_
    obtain ⟨hits, hfound, -⟩ := mem_allHits.mp ((firsts_sublist _ _).subset hh)
    rw [of_decide_eq_true hsearch, List.getElem?_length] at hfound
    cases hfound
  have hnew : new.filter (fun h => h.search = found.length) = new :=
    List.filter_eq_self.mpr fun h hh => decide_eq_true (mem_hitsOf.mp (hsub.subset hh)).1
  rw [creditedTo, hcredited, List.filter_append, hold, hnew, List.nil_append]

theorem creditedTo_snoc_of_lt {found : List (String × List CodeChunk)}
    (f : String × List CodeChunk) {search : ℕ} (hlt : search < found.length) :
    creditedTo (found ++ [f]) search = creditedTo found search := by
  have hnone : (creditedTo (found ++ [f]) found.length).filter (fun h => h.search = search) = [] := by
    refine List.filter_eq_nil_iff.mpr fun h hh heq => hlt.ne ?_
    have hsearch := List.of_mem_filter hh
    rw [← of_decide_eq_true heq, ← of_decide_eq_true hsearch]
  rw [creditedTo, creditedHits_snoc, List.filter_append, hnone, List.append_nil]
  rfl

theorem gatheredHits_snoc (found : List (String × List CodeChunk)) (f : String × List CodeChunk) :
    gatheredHits (found ++ [f]) = gatherHits (gatheredHits found) f := by
  rw [gatheredHits, List.foldl_append]
  rfl

theorem gatherHits_eq {found : List (String × List CodeChunk)} (f : String × List CodeChunk)
    {s : Gathered} (hseen : s.seen = (creditedHits found).map Hit.key) :
    let kept := (creditedTo (found ++ [f]) found.length).map Hit.chunk
    gatherHits s f = ⟨(creditedHits (found ++ [f])).map Hit.key,
      s.perFileHits.upsert (f.1, kept) (fun old => (old.1, kept)) fun _ => rfl⟩ := by
  have hchunks : (hitsOf found.length f).map Hit.chunk = f.2 := by
    rw [hitsOf, List.map_map]
    exact List.zipIdx_map_fst 0 f.2
  have hloop := foldl_keepHit (allHits found) (hitsOf found.length f)
  rw [hchunks, ← allHits_snoc] at hloop
  change f.2.foldl keepHit ((creditedHits found).map Hit.key, []) =
    ((creditedHits (found ++ [f])).map Hit.key,
      ((creditedHits (found ++ [f])).drop (creditedHits found).length).map Hit.chunk) at hloop
  have hdrop : (creditedHits (found ++ [f])).drop (creditedHits found).length =
      creditedTo (found ++ [f]) found.length := by
    rw [creditedHits_snoc, List.drop_left]
  intro kept
  rw [gatherHits, hseen, hloop, hdrop]

theorem gatheredHits_spec (found : List (String × List CodeChunk)) :
    (gatheredHits found).seen = (creditedHits found).map Hit.key ∧
    (gatheredHits found).perFileHits.rows.map Prod.fst = firsts id (found.map Prod.fst) ∧
    ∀ path kept, (path, kept) ∈ (gatheredHits found).perFileHits.rows ↔
      ∃ i hits, found[i]? = some (path, hits) ∧ path ∉ (found.drop (i + 1)).map Prod.fst ∧
        kept = (creditedTo found i).map Hit.chunk := by
  induction found using List.reverseRecOn with
  | nil => exact ⟨rfl, rfl, by simp [gatheredHits, Table.empty]⟩
  | append_singleton found f ih =>
    obtain ⟨hseen, hkeys, hrows⟩ := ih
    rw [gatheredHits_snoc, gatherHits_eq f hseen]
    refine ⟨rfl, ?_, fun path kept => ?_⟩
    · simp only [Table.keys_upsert, hkeys, List.map_append, List.map_cons, List.map_nil,
        firsts_snoc, id, List.map_id]
    · rw [Table.mem_upsert_value, hrows]
      constructor
      · rintro (⟨⟨i, hits, hfound, hlater, rfl⟩, hne⟩ | ⟨rfl, rfl⟩)
        · obtain ⟨hlt, -⟩ := List.getElem?_eq_some_iff.mp hfound
          refine ⟨i, hits, by rwa [List.getElem?_append_left hlt], ?_, ?_⟩
          · rw [List.drop_append_of_le_length hlt, List.map_append, List.mem_append]
            exact fun h => h.elim hlater fun h => hne (List.mem_singleton.mp h)
          · rw [creditedTo_snoc_of_lt f hlt]
        · exact ⟨found.length, f.2, List.getElem?_concat_length, by simp, rfl⟩
      · rintro ⟨i, hits, hfound, hlater, rfl⟩
        obtain ⟨hlt, heq⟩ := List.getElem?_eq_some_iff.mp hfound
        rw [List.length_append, List.length_singleton, Nat.lt_succ_iff_lt_or_eq] at hlt
        rcases hlt with hlt | rfl
        · rw [List.drop_append_of_le_length hlt, List.map_append, List.mem_append] at hlater
          rw [List.getElem?_append_left hlt] at hfound
          refine .inl ⟨⟨i, hits, hfound, fun h => hlater (.inl h), ?_⟩, fun h => hlater (.inr ?_)⟩
          · rw [creditedTo_snoc_of_lt f hlt]
          · simp [h]
        · rw [List.getElem?_concat_length] at hfound
          exact .inr ⟨(congrArg Prod.fst (Option.some.inj hfound)).symm, rfl⟩

theorem creditedTo_ascends (found : List (String × List CodeChunk)) (search : ℕ) :
    (creditedTo found search).Pairwise fun h h' => h.index < h'.index := by
  have hall : (allHits found).Pairwise fun h h' => h.search = h'.search → h.index < h'.index := by
    refine List.pairwise_flatMap.mpr ⟨fun e _ => ?_, ?_⟩
    · have hindices : (e.1.2.zipIdx.map Prod.snd).Pairwise (· < ·) := by
        rw [List.zipIdx_map_snd]
        exact List.pairwise_lt_range'
      refine List.pairwise_map.mpr ((List.pairwise_map.mp hindices).imp ?_)
      exact fun hlt _ => hlt
    · have hsearches : (found.zipIdx.map Prod.snd).Pairwise (· < ·) := by
        rw [List.zipIdx_map_snd]
        exact List.pairwise_lt_range'
      refine (List.pairwise_map.mp hsearches).imp fun hlt h hh h' hh' heq => absurd heq ?_
      rw [(mem_hitsOf.mp hh).1, (mem_hitsOf.mp hh').1]
      exact hlt.ne
  have hcredited := (hall.sublist (firsts_sublist Hit.key _)).filter fun h => h.search = search
  refine hcredited.imp_of_mem fun hh hh' hlt => hlt ?_
  rw [of_decide_eq_true (List.mem_filter.mp hh).2, of_decide_eq_true (List.mem_filter.mp hh').2]

theorem creditedRank_eq {found : List (String × List CodeChunk)} {h : Hit} {r : ℕ}
    (hr : (creditedTo found h.search)[r]? = some h) : creditedRank found h = r := by
  have hascends := creditedTo_ascends found h.search
  have hsorted : Ranking.inOrder Hit.index (creditedTo found h.search) = creditedTo found h.search :=
    (hascends.imp le_of_lt).insertionSort_eq
  have hsplit : creditedTo found h.search =
      (creditedTo found h.search).take r ++ h :: (creditedTo found h.search).drop (r + 1) := by
    obtain ⟨hlt, heq⟩ := List.getElem?_eq_some_iff.mp hr
    conv_lhs => rw [← List.take_append_drop r (creditedTo found h.search)]
    rw [List.drop_eq_getElem_cons hlt, heq]
  have hkeys : ((creditedTo found h.search).map Hit.index).Nodup :=
    List.pairwise_map.mpr (hascends.imp ne_of_lt)
  have hahead := ahead_eq Hit.index hkeys (hsorted.trans hsplit)
  rw [List.length_take, min_eq_left (List.getElem?_eq_some_iff.mp hr).1.le] at hahead
  rw [← hahead, creditedRank, ahead, creditedTo, List.countP_filter]
  exact List.countP_congr fun h' _ => by simp [and_comm]

section Turns
variable (found : List (String × List CodeChunk))

def queuesOf : List (ℕ × List CodeChunk) :=
  (gatheredHits found).perFileHits.rows.map fun r => ((found.map Prod.fst).idxOf r.1, r.2)

theorem queues_ascend : ((queuesOf found).map Prod.fst).Pairwise (· < ·) := by
  have hkeys := (gatheredHits_spec found).2.1
  have hascend := firsts_ascend (found.map Prod.fst)
  rw [← hkeys, List.pairwise_map] at hascend
  rw [queuesOf, List.map_map, List.pairwise_map]
  exact hascend

def entryOf (h : Hit) : RoundRobin.Entry CodeChunk ℕ :=
  ⟨creditedRank found h, (found.map Prod.fst).idxOf h.path, h.chunk⟩

variable {found}

theorem mem_creditedHits {h : Hit} (hh : h ∈ creditedHits found) :
    h ∈ creditedTo found h.search ∧ ∃ hits, found[h.search]? = some (h.path, hits) := by
  obtain ⟨hits, hfound, -⟩ := mem_allHits.mp ((firsts_sublist _ _).subset hh)
  exact ⟨List.mem_filter.mpr ⟨hh, decide_eq_true rfl⟩, hits, hfound⟩

theorem mem_entries_iff {e : RoundRobin.Entry CodeChunk ℕ} :
    e ∈ RoundRobin.entries (queuesOf found) ↔ ∃ h ∈ standingHits found, entryOf found h = e := by
  rw [mem_entries]
  constructor
  · rintro ⟨kept, hqueue, hitem⟩
    obtain ⟨⟨path, kept⟩, hrow, heq⟩ := List.mem_map.mp hqueue
    obtain ⟨howner, rfl⟩ := Prod.mk.inj heq
    obtain ⟨i, hits, hfound, hlater, rfl⟩ := ((gatheredHits_spec found).2.2 _ _).mp hrow
    rw [List.getElem?_map, Option.map_eq_some_iff] at hitem
    obtain ⟨h, hplace, hchunk⟩ := hitem
    obtain ⟨hcredited, hsearch⟩ := List.mem_filter.mp (List.mem_of_getElem? hplace)
    obtain rfl : h.search = i := of_decide_eq_true hsearch
    obtain ⟨-, hits', hfound'⟩ := mem_creditedHits hcredited
    obtain rfl : path = h.path := (Prod.mk.inj (Option.some.inj (hfound.symm.trans hfound'))).1
    refine ⟨h, List.mem_filter.mpr ⟨hcredited, decide_eq_true hlater⟩, ?_⟩
    rw [entryOf, creditedRank_eq hplace, howner, hchunk]
  · rintro ⟨h, hstanding, rfl⟩
    obtain ⟨hcredited, hlater⟩ := List.mem_filter.mp hstanding
    obtain ⟨hmem, hits, hfound⟩ := mem_creditedHits hcredited
    obtain ⟨r, hplace⟩ := List.mem_iff_getElem?.mp hmem
    refine ⟨(creditedTo found h.search).map Hit.chunk, List.mem_map.mpr ⟨(h.path, _), ?_, rfl⟩, ?_⟩
    · exact ((gatheredHits_spec found).2.2 _ _).mpr
        ⟨h.search, hits, hfound, of_decide_eq_true hlater, rfl⟩
    · rw [entryOf, creditedRank_eq hplace, List.getElem?_map, hplace]
      rfl

theorem standing_keys_nodup : ((standingHits found).map Hit.key).Nodup :=
  (keys_firsts_nodup Hit.key _).sublist (List.filter_sublist.map _)

theorem entries_perm :
    (RoundRobin.entries (queuesOf found)).Perm ((standingHits found).map (entryOf found)) := by
  have hstanding : ((standingHits found).map (entryOf found)).Nodup := by
    refine .of_map (fun e => hitKey e.item) ?_
    rw [List.map_map]
    exact standing_keys_nodup
  refine (List.perm_ext_iff_of_nodup (.of_map _ (turns_nodup byScore (queues_ascend found)))
    hstanding).mpr fun e => ?_
  rw [mem_entries_iff, List.mem_map]

theorem merged_eq : merged found =
    (Ranking.inOrder (turn byScore) (RoundRobin.entries (queuesOf found))).map
      RoundRobin.Entry.item := by
  rw [← interleave_eq byScore (queues_ascend found), merged, queuesOf, List.map_map]
  rfl

theorem merged_keys_nodup : ((merged found).map hitKey).Nodup := by
  have hperm := (inOrder_perm (turn byScore) _).trans (@entries_perm found)
  rw [merged_eq, ((hperm.map RoundRobin.Entry.item).map hitKey).nodup_iff, List.map_map,
    List.map_map]
  exact standing_keys_nodup

theorem mem_mergeHits_keys {retrievalTopK : ℕ} {key : String × ℤ} :
    key ∈ (mergeHits retrievalTopK found).map hitKey ↔ ∃ h ∈ standingHits found, h.key = key ∧
      ahead (hitTurn found) (standingHits found) (hitTurn found h) < retrievalTopK := by
  have hahead (h : Hit) : ahead (turn byScore) (RoundRobin.entries (queuesOf found))
      (turn byScore (entryOf found h)) =
        ahead (hitTurn found) (standingHits found) (hitTurn found h) := by
    rw [ahead, entries_perm.countP_eq, List.countP_map]
    rfl
  have hturns := turns_nodup byScore (queues_ascend found)
  rw [mergeHits, merged_eq, ← List.map_take, ← leading, List.map_map, List.mem_map]
  simp only [mem_leading_iff _ hturns, mem_entries_iff]
  constructor
  · rintro ⟨_, ⟨⟨h, hh, rfl⟩, hlt⟩, hkey⟩
    exact ⟨h, hh, hkey, hahead h ▸ hlt⟩
  · rintro ⟨h, hh, hkey, hlt⟩
    exact ⟨entryOf found h, ⟨⟨h, hh, rfl⟩, (hahead h).symm ▸ hlt⟩, hkey⟩

theorem mem_mergeHits {retrievalTopK : ℕ} {hit : CodeChunk}
    (h : hit ∈ mergeHits retrievalTopK found) : ∃ f ∈ found, hit ∈ f.2 := by
  have hmerged : hit ∈ merged found := List.mem_of_mem_take h
  rw [merged_eq] at hmerged
  obtain ⟨e, he, rfl⟩ := List.mem_map.mp hmerged
  obtain ⟨standing, hstanding, rfl⟩ := mem_entries_iff.mp ((inOrder_perm _ _).mem_iff.mp he)
  have hall : standing ∈ allHits found :=
    (firsts_sublist _ _).subset (List.mem_filter.mp hstanding).1
  obtain ⟨hits, hfound, hchunk⟩ := mem_allHits.mp hall
  exact ⟨(standing.path, hits), List.mem_of_getElem? hfound, List.mem_of_getElem? hchunk⟩

end Turns

/-- Every file's best hit is kept exactly if, where it is credited, its turn comes in time. -/
theorem best_hits_kept_iff (retrievalTopK : ℕ) (found : List (String × List CodeChunk)) :
    (((mergeHits retrievalTopK found).map hitKey).Nodup ∧
      (mergeHits retrievalTopK found).length ≤ retrievalTopK ∧
      ∀ f ∈ found, ∀ best ∈ f.2.head?,
        hitKey best ∈ (mergeHits retrievalTopK found).map hitKey) ↔
    ∀ f ∈ found, ∀ best ∈ f.2.head?, ∃ h ∈ standingHits found, h.key = hitKey best ∧
      ahead (hitTurn found) (standingHits found) (hitTurn found h) < retrievalTopK := by
  have hnodup : ((mergeHits retrievalTopK found).map hitKey).Nodup :=
    merged_keys_nodup.sublist ((List.take_sublist _ _).map _)
  have hlength : (mergeHits retrievalTopK found).length ≤ retrievalTopK :=
    List.length_take_le _ _
  rw [and_iff_right hnodup, and_iff_right hlength]
  simp only [mem_mergeHits_keys]

def sampleHit (filePath : String) (startLine : ℤ) (score : ℚ) : CodeChunk :=
  { filePath, startLine, endLine := startLine + 9, content := "", score }

/-- The second file's best hit is the first one's second, and falls behind the cut. -/
theorem shared_hit_cut :
    ((mergeHits 2 [("a.py", [sampleHit "x.py" 1 9, sampleHit "y.py" 1 8]),
      ("b.py", [sampleHit "y.py" 1 8, sampleHit "z.py" 1 7])]).map hitKey) =
        [("x.py", 1), ("z.py", 1)] := by
  decide +kernel

section Build
variable [Interp]

def spaced (path : String) : String :=
  .ofList (path.toList.map fun c => if c ∈ ['/', '_', '.'] then ' ' else c)

def diffQueryText (files : List DiffFile) (limit : ℕ := 2000) : String :=
  upto limit (join " " (files.flatMap fun f =>
    spaced f.path :: f.hunks.flatMap fun h =>
      (if h.header = "" then [] else [h.header]) ++
        ((splitLines h.text.toList).filter fun line =>
          line.head? = some '+' && !"+++".toList.isPrefixOf line).map fun line =>
            strip (.ofList (line.drop 1))))

def indexDrift (indexedSha : Option String) (baseSha : String) : Option String :=
  if baseSha = "" then none
  else if indexedSha.getD "" = "" then some "unindexed"
  else if indexedSha ≠ some baseSha then some "stale"
  else none

structure Retrieval (Vec : Type) where
  indexedSha : ℤ → Option (Option String)
  embed : List String → Option (List Vec)
  hybridSearch : ℤ → Vec → String → ℕ → List String → Option (List CodeChunk)
  conventionsFor : ℤ → Option (List String)

variable {Vec : Type} (outside : Retrieval Vec)

def noteIndexDrift (repoId : ℤ) (baseSha : String) : Retrieved :=
  match outside.indexedSha repoId with
  | none => {}
  | some stored => { indexDrift := indexDrift stored baseSha, indexedSha := stored }

def sourceFiles (files : List DiffFile) : List DiffFile :=
  files.filter fun f => !f.binary && f.status ≠ "removed"

def searchFiles (repoId : ℤ) (retrievalTopK : ℕ) (changedPaths : List String)
    (queried : List (DiffFile × Vec)) : List (String × List CodeChunk) :=
  queried.filterMap fun q =>
    (outside.hybridSearch repoId q.2 (ftsQuery [q.1]) retrievalTopK changedPaths).map
      fun hits => (q.1.path, hits)

def Retrieval.buildContext (maxDiffBytes : ℤ) (retrievalTopK : ℕ) (pr : PullRequestContext)
    (repoId : Option ℤ) : Except Exc ReviewContext :=
  match repoId with
  | none => .ok (reviewContext pr maxDiffBytes {})
  | some repoId =>
    let noted := noteIndexDrift outside repoId pr.baseSha
    let queried := (sourceFiles pr.files).take 12
    if sourceFiles pr.files = [] then .ok (reviewContext pr maxDiffBytes noted)
    else match outside.embed (queried.map fun f => diffQueryText [f] 1200) with
      | none => .ok (reviewContext pr maxDiffBytes noted)
      | some vectors =>
        -- `zip(..., strict=True)`
        if vectors.length ≠ queried.length then .error .valueError
        else .ok (reviewContext pr maxDiffBytes { noted with
          chunks := mergeHits retrievalTopK (searchFiles outside repoId retrievalTopK
            (pr.files.map DiffFile.path) (queried.zip vectors))
          conventions := (outside.conventionsFor repoId).getD [] })

theorem searchFiles_paths (repoId : ℤ) (retrievalTopK : ℕ) (changedPaths : List String)
    (queried : List (DiffFile × Vec)) :
    ((searchFiles outside repoId retrievalTopK changedPaths queried).map Prod.fst).Sublist
      ((queried.map Prod.fst).map DiffFile.path) := by
  induction queried with
  | nil => exact .refl _
  | cons q queried ih =>
    rw [searchFiles, List.filterMap_cons, List.map_cons, List.map_cons]
    cases outside.hybridSearch repoId q.2 (ftsQuery [q.1]) retrievalTopK changedPaths with
    | none => exact ih.cons _
    | some hits => exact ih.cons_cons _

theorem Retrieval.buildContext_chunks {maxDiffBytes : ℤ} {retrievalTopK : ℕ}
    {pr : PullRequestContext} {repoId : Option ℤ} {ctx : ReviewContext}
    (h : outside.buildContext maxDiffBytes retrievalTopK pr repoId = .ok ctx) :
    ∃ found, ctx.retrieved.chunks = mergeHits retrievalTopK found ∧
      (found.map Prod.fst).Sublist (((sourceFiles pr.files).take 12).map DiffFile.path) := by
  have hnone : (noteIndexDrift outside (repoId.getD 0) pr.baseSha).chunks = [] := by
    unfold noteIndexDrift
    split <;> rfl
  have hempty : mergeHits retrievalTopK [] = [] := List.take_nil
  unfold Retrieval.buildContext at h
  split at h
  · cases h
    exact ⟨[], hempty.symm, List.nil_sublist _⟩
  · dsimp only at h
    split at h
    · cases h
      exact ⟨[], hnone.trans hempty.symm, List.nil_sublist _⟩
    · split at h
      · cases h
        exact ⟨[], hnone.trans hempty.symm, List.nil_sublist _⟩
      · rename_i repoId _ _ vectors _
        split at h
        · cases h
        · rename_i hlength
          cases h
          refine ⟨_, rfl, (searchFiles_paths outside _ _ _ _).trans ?_⟩
          rw [List.map_fst_zip (not_not.mp hlength).ge]

end Build

end PrSentinel
