import PrSentinel.Chunking
import PrSentinel.Context
import PrSentinel.HybridSearch
import PrSentinel.Swaps

set_option autoImplicit false

namespace PrSentinel.Indexer
open Python Relational Runs Swaps Greedy PrSentinel

/-- What the file system says of a file; `none` where it raises `OSError`. -/
structure SourceFile where
  size : Option ℕ
  text : Option String

/-- A directory, entry by entry. -/
inductive Listing where
  | nil
  | file (name : String) (file : SourceFile) (rest : Listing)
  | dir (name : String) (inside rest : Listing)

namespace Listing

def names : Listing → List String
  | .nil => []
  | .file name _ rest | .dir name _ rest => name :: rest.names

def Proper : Listing → Prop
  | .nil => True
  | .file name _ rest => '/' ∉ name.toList ∧ name ∉ rest.names ∧ rest.Proper
  | .dir name inside rest => '/' ∉ name.toList ∧ name ∉ rest.names ∧ inside.Proper ∧ rest.Proper

inductive At : Listing → List String → SourceFile → Prop
  | here (name : String) (f : SourceFile) (rest : Listing) : At (.file name f rest) [name] f
  | inside {name : String} {inside : Listing} (rest : Listing) {path : List String}
      {f : SourceFile} : At inside path f → At (.dir name inside rest) (name :: path) f
  | afterFile (name : String) (g : SourceFile) {rest : Listing} {path : List String}
      {f : SourceFile} : At rest path f → At (.file name g rest) path f
  | afterDir (name : String) (inside : Listing) {rest : Listing} {path : List String}
      {f : SourceFile} : At rest path f → At (.dir name inside rest) path f

end Listing

structure Checkout where
  root : Listing
  proper : root.Proper

def skipDirs : List String :=
  [".git", "node_modules", "venv", ".venv", "__pycache__", "dist", "build", "target", ".next",
   ".mypy_cache", ".pytest_cache", "vendor", ".terraform", "migrations/__pycache__"]

def indexableExt : List String :=
  [".py", ".ts", ".tsx", ".js", ".jsx", ".go", ".rs", ".java", ".kt", ".rb", ".php", ".cs", ".c",
   ".h", ".cc", ".cpp", ".hpp", ".sql", ".sh", ".tf", ".md", ".yaml", ".yml"]

def shouldIndex (path : String) (sizeBytes : ℕ) (maxBytes : ℕ := 400000) : Bool :=
  if (split '/' path).any (fun part => part ∈ skipDirs) then false
  else if sizeBytes > maxBytes then false
  else (if '.' ∈ path.toList then extOf path else "") ∈ indexableExt

def relative (path : List String) : String := join "/" path

def entered (name : String) : Bool := !startswith name "." || name = ".github"

def taken (path : List String) (f : SourceFile) : Bool :=
  f.size.any fun size => shouldIndex (relative path) size

namespace Listing

def here (above : List String) : Listing → List (List String × SourceFile)
  | .nil => []
  | .file name f rest =>
    (if taken (above ++ [name]) f then [(above ++ [name], f)] else []) ++ rest.here above
  | .dir _ _ rest => rest.here above

def under (above : List String) : Listing → List (List String × SourceFile)
  | .nil => []
  | .file _ _ rest => rest.under above
  | .dir name inside rest =>
    (if entered name then inside.here (above ++ [name]) ++ inside.under (above ++ [name])
      else []) ++ rest.under above

end Listing

/-- `_walk`: a directory's own files, then those below it. -/
def walk (root : Listing) : List (List String × SourceFile) := root.here [] ++ root.under []

namespace Listing

theorem At.ne_nil {l : Listing} {path : List String} {f : SourceFile} (h : l.At path f) :
    path ≠ [] := by
  induction h with
  | here => exact List.cons_ne_nil _ _
  | inside => exact List.cons_ne_nil _ _
  | afterFile _ _ _ ih => exact ih
  | afterDir _ _ _ ih => exact ih

theorem mem_here {l : Listing} {above path : List String} {f : SourceFile} :
    (path, f) ∈ l.here above ↔
      ∃ name, path = above ++ [name] ∧ l.At [name] f ∧ taken path f = true := by
  induction l with
  | nil =>
    simp only [here, List.not_mem_nil, false_iff]
    rintro ⟨name, -, hat, -⟩
    cases hat
  | file name g rest ih =>
    rw [here, List.mem_append, ih]
    constructor
    · rintro (h | ⟨name', hpath, hat, htaken⟩)
      · split at h
        · rename_i htaken
          obtain ⟨rfl, rfl⟩ := Prod.mk.inj (List.mem_singleton.mp h)
          exact ⟨name, rfl, .here .., htaken⟩
        · cases h
      · exact ⟨name', hpath, .afterFile _ _ hat, htaken⟩
    · rintro ⟨name', rfl, hat, htaken⟩
      cases hat with
      | here => exact .inl (by rw [if_pos htaken]; exact List.mem_singleton_self _)
      | afterFile _ _ hat => exact .inr ⟨name', rfl, hat, htaken⟩
  | dir name inside rest _ ih =>
    rw [here, ih]
    constructor
    · rintro ⟨name', hpath, hat, htaken⟩
      exact ⟨name', hpath, .afterDir _ _ hat, htaken⟩
    · rintro ⟨name', hpath, hat, htaken⟩
      refine ⟨name', hpath, ?_, htaken⟩
      cases hat with
      | inside _ hat => exact absurd rfl hat.ne_nil
      | afterDir _ _ hat => exact hat

theorem mem_under {l : Listing} {above path : List String} {f : SourceFile} :
    (path, f) ∈ l.under above ↔ ∃ name rest, path = above ++ name :: rest ∧ rest ≠ [] ∧
      l.At (name :: rest) f ∧ (∀ d ∈ (name :: rest).dropLast, entered d = true) ∧
        taken path f = true := by
  induction l generalizing above with
  | nil =>
    simp only [under, List.not_mem_nil, false_iff]
    rintro ⟨name, rest, -, -, hat, -⟩
    cases hat
  | file name g rest ih =>
    rw [under, ih]
    constructor
    · rintro ⟨name', path', hpath, hne, hat, hrest⟩
      exact ⟨name', path', hpath, hne, .afterFile _ _ hat, hrest⟩
    · rintro ⟨name', path', hpath, hne, hat, hrest⟩
      refine ⟨name', path', hpath, hne, ?_, hrest⟩
      cases hat with
      | here => exact absurd rfl hne
      | afterFile _ _ hat => exact hat
  | dir name inside rest ihinside ihrest =>
    rw [under, List.mem_append, ihrest]
    constructor
    · rintro (h | ⟨name', path', hpath, hne, hat, hrest⟩)
      · split at h
        · rename_i hentered
          rcases List.mem_append.mp h with h | h
          · obtain ⟨name', rfl, hat, htaken⟩ := mem_here.mp h
            refine ⟨name, [name'], by simp, List.cons_ne_nil _ _, .inside _ hat, ?_, htaken⟩
            simpa using hentered
          · obtain ⟨name', path', rfl, hne, hat, hdirs, htaken⟩ := ihinside.mp h
            refine ⟨name, name' :: path', by simp, List.cons_ne_nil _ _, .inside _ hat, ?_, htaken⟩
            intro d hd
            rcases List.mem_cons.mp hd with rfl | hd
            · exact hentered
            · exact hdirs d hd
        · cases h
      · exact ⟨name', path', hpath, hne, .afterDir _ _ hat, hrest⟩
    · rintro ⟨name', path', rfl, hne, hat, hdirs, htaken⟩
      cases hat with
      | inside _ hat =>
        refine .inl ?_
        have hentered : entered name = true := by
          refine hdirs name ?_
          obtain ⟨d, path', rfl⟩ := List.exists_cons_of_ne_nil hne
          exact List.mem_cons_self
        rw [if_pos hentered, List.mem_append]
        obtain ⟨d, path', rfl⟩ := List.exists_cons_of_ne_nil hne
        by_cases hlast : path' = []
        · subst hlast
          exact .inl (mem_here.mpr ⟨d, by simp, hat, htaken⟩)
        · refine .inr (ihinside.mpr ⟨d, path', by simp, hlast, hat, fun d' hd' => ?_, htaken⟩)
          exact hdirs d' (List.mem_cons_of_mem _ hd')
      | afterDir _ _ hat => exact .inr ⟨name', path', rfl, hne, hat, hdirs, htaken⟩

end Listing

/-- The walk comes to the files it takes, wherever they lie outside hidden directories. -/
theorem mem_walk {root : Listing} {path : List String} {f : SourceFile} :
    (path, f) ∈ walk root ↔ root.At path f ∧ (∀ d ∈ path.dropLast, entered d = true) ∧
      taken path f = true := by
  rw [walk, List.mem_append, Listing.mem_here, Listing.mem_under]
  constructor
  · rintro (⟨name, rfl, hat, htaken⟩ | ⟨name, rest, rfl, -, hat, hdirs, htaken⟩)
    · exact ⟨hat, by simp, htaken⟩
    · exact ⟨hat, hdirs, htaken⟩
  · rintro ⟨hat, hdirs, htaken⟩
    obtain ⟨name, rest, rfl⟩ := List.exists_cons_of_ne_nil hat.ne_nil
    by_cases hrest : rest = []
    · subst hrest
      exact .inl ⟨name, rfl, hat, htaken⟩
    · exact .inr ⟨name, rest, rfl, hrest, hat, hdirs, htaken⟩

namespace Listing

theorem At.mem_names {l : Listing} {name : String} {path : List String} {f : SourceFile}
    (h : l.At (name :: path) f) : name ∈ l.names := by
  generalize hfull : name :: path = full at h
  induction h with
  | here => exact (List.cons.inj hfull).1 ▸ List.mem_cons_self
  | inside => exact (List.cons.inj hfull).1 ▸ List.mem_cons_self
  | afterFile _ _ _ ih => exact List.mem_cons_of_mem _ (ih hfull)
  | afterDir _ _ _ ih => exact List.mem_cons_of_mem _ (ih hfull)

theorem mem_here_paths {l : Listing} {above path : List String}
    (h : path ∈ (l.here above).map Prod.fst) : ∃ name ∈ l.names, path = above ++ [name] := by
  obtain ⟨⟨_, f⟩, hmem, rfl⟩ := List.mem_map.mp h
  obtain ⟨name, rfl, hat, -⟩ := mem_here.mp hmem
  exact ⟨name, hat.mem_names, rfl⟩

theorem mem_under_paths {l : Listing} {above path : List String}
    (h : path ∈ (l.under above).map Prod.fst) :
    ∃ name ∈ l.names, ∃ rest, rest ≠ [] ∧ path = above ++ name :: rest := by
  obtain ⟨⟨_, f⟩, hmem, rfl⟩ := List.mem_map.mp h
  obtain ⟨name, rest, rfl, hne, hat, -⟩ := mem_under.mp hmem
  exact ⟨name, hat.mem_names, rest, hne, rfl⟩

theorem here_nodup {l : Listing} (h : l.Proper) (above : List String) :
    ((l.here above).map Prod.fst).Nodup := by
  induction l with
  | nil => exact List.nodup_nil
  | file name f rest ih =>
    rw [here, List.map_append]
    refine List.nodup_append.mpr ⟨?_, ih h.2.2, fun path hpath path' hpath' heq => ?_⟩
    · split
      · exact List.nodup_singleton _
      · exact List.nodup_nil
    · obtain ⟨name', hname, rfl⟩ := mem_here_paths hpath'
      have hsame : path = above ++ [name] := by
        split at hpath
        · exact List.mem_singleton.mp hpath
        · cases hpath
      rw [hsame] at heq
      obtain rfl := (List.cons.inj (List.append_cancel_left heq)).1
      exact h.2.1 hname
  | dir name inside rest _ ih => exact ih h.2.2.2

theorem here_under_disjoint (l l' : Listing) (above : List String) :
    ∀ path ∈ (l.here above).map Prod.fst, ∀ path' ∈ (l'.under above).map Prod.fst,
      path ≠ path' := by
  rintro path hpath path' hpath' rfl
  obtain ⟨name, -, rfl⟩ := mem_here_paths hpath
  obtain ⟨name', -, rest, hne, heq⟩ := mem_under_paths hpath'
  exact hne (List.cons.inj (List.append_cancel_left heq)).2.symm

theorem under_nodup {l : Listing} (h : l.Proper) (above : List String) :
    ((l.under above).map Prod.fst).Nodup := by
  induction l generalizing above with
  | nil => exact List.nodup_nil
  | file name f rest ih => exact ih h.2.2 above
  | dir name inside rest ihinside ihrest =>
    rw [under, List.map_append]
    refine List.nodup_append.mpr ⟨?_, ihrest h.2.2.2 above, fun path hpath path' hpath' heq => ?_⟩
    · split
      · rw [List.map_append]
        exact List.nodup_append.mpr ⟨here_nodup h.2.2.1 _, ihinside h.2.2.1 _,
          here_under_disjoint _ _ _⟩
      · exact List.nodup_nil
    · obtain ⟨name', hname, rest', -, rfl⟩ := mem_under_paths hpath'
      -- everything below this directory bears its name, and nothing beside it does
      have hbelow : ∃ rest'', path = above ++ name :: rest'' := by
        split at hpath
        · rw [List.map_append, List.mem_append] at hpath
          rcases hpath with hpath | hpath
          · obtain ⟨d, -, rfl⟩ := mem_here_paths hpath
            exact ⟨[d], by simp⟩
          · obtain ⟨d, -, rest'', -, rfl⟩ := mem_under_paths hpath
            exact ⟨d :: rest'', by simp⟩
        · cases hpath
      obtain ⟨rest'', rfl⟩ := hbelow
      obtain rfl := (List.cons.inj (List.append_cancel_left heq)).1
      exact h.2.1 hname

theorem At.no_slash {l : Listing} (h : l.Proper) {path : List String} {f : SourceFile}
    (hat : l.At path f) : ∀ name ∈ path, '/' ∉ name.toList := by
  induction hat with
  | here => exact fun name hname => List.mem_singleton.mp hname ▸ h.1
  | inside _ _ ih =>
    intro name hname
    rcases List.mem_cons.mp hname with rfl | hname
    · exact h.1
    · exact ih h.2.2.1 name hname
  | afterFile _ _ _ ih => exact ih h.2.2
  | afterDir _ _ _ ih => exact ih h.2.2.2

end Listing

theorem walk_nodup (c : Checkout) : ((walk c.root).map Prod.fst).Nodup := by
  rw [walk, List.map_append]
  exact List.nodup_append.mpr ⟨Listing.here_nodup c.proper _, Listing.under_nodup c.proper _,
    Listing.here_under_disjoint _ _ _⟩

theorem split_relative {path : List String} (hne : path ≠ [])
    (hnames : ∀ name ∈ path, '/' ∉ name.toList) : split '/' (relative path) = path := by
  induction path with
  | nil => exact absurd rfl hne
  | cons name path ih =>
    have hname : '/' ∉ name.toList := hnames name List.mem_cons_self
    cases path with
    | nil =>
      change (name.toList.splitOn '/').map String.ofList = [name]
      rw [List.splitOn_eq_singleton hname, List.map_singleton, String.ofList_toList]
    | cons next path =>
      have hrest := ih (List.cons_ne_nil _ _) fun d hd => hnames d (List.mem_cons_of_mem _ hd)
      have hjoin : relative (name :: next :: path) = name ++ "/" ++ relative (next :: path) := rfl
      have hchars : (relative (name :: next :: path)).toList =
          name.toList ++ '/' :: (relative (next :: path)).toList := by
        rw [hjoin, String.toList_append, String.toList_append, List.append_assoc]
        rfl
      rw [split] at hrest ⊢
      rw [hchars, List.splitOn_append_cons_self_of_not_mem hname, List.map_cons, hrest,
        String.ofList_toList]

theorem relative_inj {path path' : List String} (hne : path ≠ []) (hne' : path' ≠ [])
    (h : ∀ name ∈ path, '/' ∉ name.toList) (h' : ∀ name ∈ path', '/' ∉ name.toList)
    (heq : relative path = relative path') : path = path' := by
  rw [← split_relative hne h, heq, split_relative hne' h']

theorem walk_paths_nodup (c : Checkout) :
    ((walk c.root).map fun found => relative found.1).Nodup := by
  have hnodup := walk_nodup c
  rw [show (fun found : List String × SourceFile => relative found.1) = relative ∘ Prod.fst from rfl,
    ← List.map_map]
  refine hnodup.map_on fun path hpath path' hpath' heq => ?_
  obtain ⟨⟨_, f⟩, hmem, rfl⟩ := List.mem_map.mp hpath
  obtain ⟨⟨_, f'⟩, hmem', rfl⟩ := List.mem_map.mp hpath'
  obtain ⟨hat, -⟩ := mem_walk.mp hmem
  obtain ⟨hat', -⟩ := mem_walk.mp hmem'
  exact relative_inj hat.ne_nil hat'.ne_nil (hat.no_slash c.proper) (hat'.no_slash c.proper) heq

theorem relative_snoc {path : List String} (hne : path ≠ []) (name : String) :
    relative (path ++ [name]) = relative path ++ "/" ++ name := by
  induction path with
  | nil => exact absurd rfl hne
  | cons first path ih =>
    cases path with
    | nil => rfl
    | cons next path =>
      calc relative (first :: next :: path ++ [name])
          = first ++ "/" ++ relative (next :: path ++ [name]) := rfl
        _ = first ++ "/" ++ (relative (next :: path) ++ "/" ++ name) := by
            rw [ih (List.cons_ne_nil _ _)]
        _ = relative (first :: next :: path) ++ "/" ++ name := by
            simp only [relative, join, String.append_assoc]

def extIndexed (path : String) : Bool :=
  (if '.' ∈ path.toList then extOf path else "") ∈ indexableExt

theorem indexableExt_plain : ∀ ext ∈ indexableExt, ext ≠ "" ∧ '/' ∉ ext.toList := by decide

theorem extIndexed_under (above name : String) :
    extIndexed (above ++ "/" ++ name) = extIndexed name := by
  have hchars : (above ++ "/" ++ name).toList = above.toList ++ '/' :: name.toList := by
    rw [String.toList_append, String.toList_append, List.append_assoc]
    rfl
  have hreverse : (above ++ "/" ++ name).toList.reverse =
      name.toList.reverse ++ '/' :: above.toList.reverse := by
    rw [hchars, List.reverse_append, List.reverse_cons, List.append_assoc]
    rfl
  by_cases hdot : '.' ∈ name.toList
  · have hstop : ¬ (name.toList.reverse.takeWhile fun c => c ≠ '.').length =
        name.toList.reverse.length := by
      intro hall
      have heq := (List.takeWhile_prefix _).eq_of_length hall
      have hmem := List.takeWhile_eq_self_iff.mp heq '.' (List.mem_reverse.mpr hdot)
      simp at hmem
    have hext : extOf (above ++ "/" ++ name) = extOf name := by
      rw [extOf, extOf, hreverse, List.takeWhile_append, if_neg hstop]
    have hdot' : '.' ∈ (above ++ "/" ++ name).toList := by simp [hchars, hdot]
    simp only [extIndexed, if_pos hdot, if_pos hdot', hext]
  · have hnone : extIndexed name = false := by
      simp only [extIndexed, if_neg hdot]
      decide
    have hslash : '/' ∈ (extOf (above ++ "/" ++ name)).toList := by
      have hall : (name.toList.reverse.takeWhile fun c => c ≠ '.') = name.toList.reverse := by
        refine List.takeWhile_eq_self_iff.mpr fun c hc => decide_eq_true ?_
        rintro rfl
        exact hdot (List.mem_reverse.mp hc)
      rw [extOf, hreverse, List.takeWhile_append, hall, if_pos rfl]
      simp
    rw [hnone, extIndexed, decide_eq_false_iff_not]
    intro hmem
    split at hmem
    · exact (indexableExt_plain _ hmem).2 hslash
    · exact (indexableExt_plain _ hmem).1 rfl

theorem taken_iff {path : List String} {f : SourceFile} (hne : path ≠ [])
    (hnames : ∀ name ∈ path, '/' ∉ name.toList) : taken path f = true ↔
      (∀ name ∈ path, name ∉ skipDirs) ∧ (∃ size, f.size = some size ∧ size ≤ 400000) ∧
        ∃ name ∈ path.getLast?, extIndexed name = true := by
  have hlast : extIndexed (relative path) = true ↔
      ∃ name ∈ path.getLast?, extIndexed name = true := by
    induction path using List.reverseRecOn with
    | nil => exact absurd rfl hne
    | append_singleton above name _ =>
      rw [List.getLast?_concat]
      by_cases habove : above = []
      · subst habove
        simp [relative, join]
      · rw [relative_snoc habove, extIndexed_under]
        simp
  rw [← hlast]
  unfold taken shouldIndex
  rw [split_relative hne hnames]
  cases f.size with
  | none => simp
  | some size =>
    simp only [Option.any_some, Option.some.injEq, exists_eq_left']
    by_cases hskip : path.any fun part => part ∈ skipDirs
    · rw [if_pos hskip]
      refine iff_of_false Bool.false_ne_true fun h => ?_
      obtain ⟨name, hname, hmem⟩ := List.any_eq_true.mp hskip
      exact h.1 name hname (of_decide_eq_true hmem)
    · have hclean : ∀ name ∈ path, name ∉ skipDirs := by simpa using hskip
      rw [if_neg hskip, and_iff_right hclean]
      by_cases hsize : size > 400000
      · rw [if_pos hsize]
        exact iff_of_false Bool.false_ne_true fun h => not_lt.mpr h.1 hsize
      · rw [if_neg hsize, and_iff_right (not_lt.mp hsize)]
        rfl

/-- `_walk` finds each file once that lies in no skipped and no hidden directory (`.github` is
none), can be looked at, is small enough, and is named like source. -/
theorem walk_exact (c : Checkout) :
    ((walk c.root).map fun found => relative found.1).Nodup ∧
    ∀ path f, (path, f) ∈ walk c.root ↔ c.root.At path f ∧
      (∀ d ∈ path.dropLast, entered d = true) ∧ (∀ name ∈ path, name ∉ skipDirs) ∧
      (∃ size, f.size = some size ∧ size ≤ 400000) ∧
        ∃ name ∈ path.getLast?, extIndexed name = true := by
  refine ⟨walk_paths_nodup c, fun path f => mem_walk.trans (and_congr_right fun hat => ?_)⟩
  exact and_congr_right fun _ => taken_iff hat.ne_nil (hat.no_slash c.proper)

/-- `content_hash`: the first half of a SHA-256, in hex. -/
class Digest where
  contentHash : String → String

section Rows
variable [Interp] [Postgres] [Digest]

structure IndexRow where
  repoId : ℤ
  commitSha : String
  filePath : String
  language : Option String
  symbol : Option String
  startLine : ℕ
  endLine : ℕ
  content : String
  contentHash : String
  embedding : Postgres.Vec

def asRow (repoId : ℤ) (commitSha : String) (c : Chunk) (embedding : Postgres.Vec) : IndexRow where
  repoId := repoId
  commitSha := commitSha
  filePath := c.filePath
  language := c.language
  symbol := c.symbol
  startLine := c.startLine
  endLine := c.endLine
  content := c.content
  contentHash := Digest.contentHash c.content
  embedding := embedding

def allChunks (c : Checkout) : List Chunk :=
  (walk c.root).flatMap fun found =>
    match found.2.text with
    | none => []
    | some text => chunkFile (relative found.1) text

/-- One batch: `zip(batch, vectors, strict=True)`. -/
def embedBatch (embed : List String → Except Exc (List Postgres.Vec)) (repoId : ℤ)
    (commitSha : String) (batch : List Chunk) : Except Exc (List IndexRow) := do
  let vectors ← embed (batch.map Chunk.content)
  if vectors.length = batch.length then
    .ok ((batch.zip vectors).map fun e => asRow repoId commitSha e.1 e.2)
  else .error .valueError

structure IndexCall where
  repoId : ℤ
  commitSha : String
  checkout : Checkout
  embed : List String → Except Exc (List Postgres.Vec)
  batchSize : ℕ := 64

def batches (batchSize : ℕ) (chunks : List Chunk) : List (List Chunk) :=
  (List.range ((chunks.length + batchSize - 1) / batchSize)).map fun i =>
    (chunks.drop (i * batchSize)).take batchSize

def IndexCall.rows (call : IndexCall) : Except Exc (List IndexRow) :=
  if call.batchSize = 0 then .error .valueError
  else do
    let rows ← (batches call.batchSize (allChunks call.checkout)).mapM
      (embedBatch call.embed call.repoId call.commitSha)
    .ok rows.flatten

def IndexRow.key (r : IndexRow) : ℤ × String × String × ℕ × String :=
  (r.repoId, r.commitSha, r.filePath, r.startLine, r.contentHash)

def indexSchema : Schema IndexRow (ℤ × String × String × ℕ × String) ℤ :=
  ⟨IndexRow.key, IndexRow.repoId, fun _ _ h => congrArg Prod.fst h⟩

def IndexRow.chunk (r : IndexRow) : Chunk :=
  ⟨r.filePath, r.startLine, r.endLine, r.content, r.symbol, r.language⟩

structure IndexRow.Of (repoId : ℤ) (commitSha : String) (r : IndexRow) : Prop where
  repo : r.repoId = repoId
  commit : r.commitSha = commitSha
  hash : r.contentHash = Digest.contentHash r.content

omit [Interp] in
theorem embedBatch_ok {embed : List String → Except Exc (List Postgres.Vec)} {repoId : ℤ}
    {commitSha : String} {batch : List Chunk} {rows : List IndexRow}
    (h : embedBatch embed repoId commitSha batch = .ok rows) :
    rows.map IndexRow.chunk = batch ∧ ∀ r ∈ rows, r.Of repoId commitSha := by
  obtain ⟨vectors, -, h⟩ := ok_of_bind h
  split at h
  · rename_i hlength
    cases h
    refine ⟨?_, fun r hr => ?_⟩
    · rw [List.map_map]
      exact List.map_fst_zip hlength.ge
    · obtain ⟨e, -, rfl⟩ := List.mem_map.mp hr
      exact ⟨rfl, rfl, rfl⟩
  · cases h

omit [Interp] [Postgres] [Digest] in
theorem flatten_slices {α : Type} (n : ℕ) (xs : List α) (k : ℕ) :
    ((List.range k).map fun i => (xs.drop (i * n)).take n).flatten = xs.take (k * n) := by
  induction k with
  | zero => simp
  | succ k ih =>
    rw [List.range_succ, List.map_append, List.flatten_append, ih, Nat.succ_mul, List.take_add]
    simp

omit [Interp] [Postgres] [Digest] in
theorem batches_flatten {n : ℕ} (hn : 0 < n) (chunks : List Chunk) :
    (batches n chunks).flatten = chunks := by
  rw [batches, flatten_slices]
  refine List.take_of_length_le ?_
  have hdiv := Nat.div_add_mod (chunks.length + n - 1) n
  have hmod := Nat.mod_lt (chunks.length + n - 1) hn
  rw [Nat.mul_comm] at hdiv
  omega

omit [Interp] in
theorem embedBatches_ok {embed : List String → Except Exc (List Postgres.Vec)} {repoId : ℤ}
    {commitSha : String} {batched : List (List Chunk)} {rows : List (List IndexRow)}
    (h : List.Forall₂ (fun batch rows => embedBatch embed repoId commitSha batch = .ok rows)
      batched rows) :
    rows.flatten.map IndexRow.chunk = batched.flatten ∧
      ∀ r ∈ rows.flatten, r.Of repoId commitSha := by
  induction h with
  | nil => exact ⟨rfl, by simp⟩
  | cons hbatch _ ih =>
    obtain ⟨hchunks, hof⟩ := embedBatch_ok hbatch
    simp only [List.flatten_cons, List.map_append, List.mem_append]
    exact ⟨congrArg₂ _ hchunks ih.1, fun r hr => hr.elim (hof r) (ih.2 r)⟩

theorem IndexCall.rows_ok {call : IndexCall} {rows : List IndexRow} (h : call.rows = .ok rows) :
    rows.map IndexRow.chunk = allChunks call.checkout ∧
      ∀ r ∈ rows, r.Of call.repoId call.commitSha := by
  unfold IndexCall.rows at h
  split at h
  · cases h
  · rename_i hsize
    obtain ⟨batched, hbatched, hrows⟩ := ok_of_bind h
    obtain rfl := Except.ok.inj hrows
    rw [← batches_flatten (Nat.pos_of_ne_zero hsize) (allChunks call.checkout)]
    exact embedBatches_ok (forall₂_of_mapM hbatched)

omit [Postgres] [Digest] in
theorem chunkFile_path {path text : String} {language : Option String} {c : Chunk}
    (h : c ∈ chunkFile path text language) : c.filePath = path := by
  obtain ⟨-, -, -, -, -, rfl, -⟩ := (mem_chunkFile rfl).mp h
  rfl

omit [Postgres] [Digest] in
theorem chunkFile_quotes {path text : String} {language : Option String} {c : Chunk}
    (h : c ∈ chunkFile path text language) :
    1 ≤ c.startLine ∧ c.startLine ≤ c.endLine ∧ c.endLine ≤ (splitLines text.toList).length ∧
      c.content = linesOf (splitLines text.toList) c.startLine c.endLine := by
  obtain ⟨hne, r, hr, w, hw, rfl, -⟩ := (mem_chunkFile rfl).mp h
  have hlayout := regionsOf_layout (List.length_pos_of_ne_nil hne)
    (boundaries_located (splitLines text.toList) (languageOf path language))
  obtain ⟨hone, -, hlast⟩ := hlayout.bounds r hr
  obtain ⟨hfirst, hle, hend, -⟩ := windowsOf_bounds hw
  exact ⟨hone.trans hfirst, hle, hend.trans hlast, rfl⟩

omit [Postgres] [Digest] in
theorem chunkFile_ascends (path text : String) (language : Option String) :
    (chunkFile path text language).Pairwise fun c d => c.startLine < d.startLine := by
  by_cases hne : splitLines text.toList = []
  · simp [chunkFile, hne]
  · rw [chunkFile_eq path text language rfl hne]
    refine List.Pairwise.filter _ (List.pairwise_map.mpr ?_)
    exact regions_windows_ascend (regionsOf_layout (List.length_pos_of_ne_nil hne)
      (boundaries_located _ _))

omit [Postgres] [Digest] in
theorem allChunks_nodup (c : Checkout) :
    ((allChunks c).map fun chunk => (chunk.filePath, chunk.startLine)).Nodup := by
  have hpaths : (walk c.root).Pairwise fun found found' =>
      relative found.1 ≠ relative found'.1 := List.pairwise_map.mp (walk_paths_nodup c)
  refine List.pairwise_map.mpr (List.pairwise_flatMap.mpr ⟨fun found _ => ?_, ?_⟩)
  · split
    · exact .nil
    · rename_i text _
      refine (chunkFile_ascends (relative found.1) text none).imp fun hlt heq => ?_
      exact hlt.ne (Prod.mk.inj heq).2
  · refine hpaths.imp fun hne chunk hchunk chunk' hchunk' heq => hne ?_
    split at hchunk
    · cases hchunk
    · split at hchunk'
      · cases hchunk'
      · rw [← chunkFile_path hchunk, ← chunkFile_path hchunk', (Prod.mk.inj heq).1]

theorem IndexCall.rows_keys_nodup {call : IndexCall} {rows : List IndexRow}
    (h : call.rows = .ok rows) : (rows.map IndexRow.key).Nodup := by
  obtain ⟨hchunks, -⟩ := IndexCall.rows_ok h
  have hnodup := allChunks_nodup call.checkout
  rw [← hchunks, List.map_map] at hnodup
  refine List.pairwise_map.mpr ((List.pairwise_map.mp hnodup).imp fun hne hkey => hne ?_)
  simp only [IndexRow.key, Prod.mk.injEq] at hkey
  exact Prod.ext hkey.2.2.1 hkey.2.2.2.1

/-- What happens to the database: a call has its rows and begins its transaction, or a
transaction under way gets on, commits, or is rolled back by whatever ends it. -/
inductive IndexEvent where
  | indexed (number : ℕ) (call : IndexCall)
  | insert (number : ℕ)
  | commit (number : ℕ)
  | abort (number : ℕ)

def IndexEvent.statements : IndexEvent → List (Event IndexRow ℤ String)
  | .indexed number call =>
    match call.rows with
    | .error _ => []
    | .ok rows => [.start number call.repoId call.commitSha rows]
  | .insert number => [.insert number]
  | .commit number => [.commit number]
  | .abort number => [.abort number]

abbrev Database := State IndexRow ℤ String

def statementsOf (events : List IndexEvent) : List (Event IndexRow ℤ String) :=
  events.flatMap IndexEvent.statements

def indexed (events : List IndexEvent) : Database :=
  Runs.run (State.step indexSchema) {} (statementsOf events)

def contentsOf (s : Database) (repoId : ℤ) : Option String × List IndexRow :=
  s.contents indexSchema repoId

def lastCommit (events : List IndexEvent) (repoId : ℤ) : Option (Done IndexRow ℤ String) :=
  ((commits indexSchema ({} : Database) (statementsOf events)).filter
    fun d => d.owner = repoId).getLast?

theorem mem_statementsOf {events : List IndexEvent} {number : ℕ} {repoId : ℤ}
    {commitSha : String} {rows : List IndexRow}
    (h : .start number repoId commitSha rows ∈ statementsOf events) :
    ∃ call, .indexed number call ∈ events ∧ call.repoId = repoId ∧ call.commitSha = commitSha ∧
      call.rows = .ok rows := by
  obtain ⟨e, he, h⟩ := List.mem_flatMap.mp h
  cases e with
  | indexed number' call =>
    unfold IndexEvent.statements at h
    dsimp only at h
    split at h
    · cases h
    · rename_i rows' hrows
      cases List.mem_singleton.mp h
      exact ⟨call, he, rfl, rfl, hrows⟩
  | insert | commit | abort =>
    cases List.mem_singleton.mp h

/-- What is in the index came from this call. -/
structure MadeBy (call : IndexCall) (d : Done IndexRow ℤ String) : Prop where
  repo : call.repoId = d.owner
  commit : call.commitSha = d.label
  rows : call.rows = .ok d.rows

theorem lastCommit_made {events : List IndexEvent} {repoId : ℤ} {d : Done IndexRow ℤ String}
    (h : lastCommit events repoId = some d) :
    d.owner = repoId ∧ ∃ number call, .indexed number call ∈ events ∧ MadeBy call d := by
  obtain ⟨hd, howner⟩ := List.mem_filter.mp (List.mem_of_getLast? h)
  refine ⟨of_decide_eq_true howner, ?_⟩
  let made (d : Done IndexRow ℤ String) : Prop :=
    ∃ number call, .indexed number call ∈ events ∧ MadeBy call d
  refine commits_from (P := made)
    (by simp [Table.empty]) (fun number repoId commitSha rows hmem => ?_) d hd
  obtain ⟨call, hcall, hrepo, hcommit, hrows⟩ := mem_statementsOf hmem
  exact ⟨number, call, hcall, hrepo, hcommit, hrows⟩

theorem contents_lastCommit {events : List IndexEvent}
    (halone : Throughout (State.step indexSchema) Swaps.Alone ({} : Database) (statementsOf events))
    (repoId : ℤ) : contentsOf (indexed events) repoId =
      ((lastCommit events repoId).map fun d => (some d.label, d.rows)).getD (none, []) := by
  have hcontents := congrFun (serial_initial.run halone).2 repoId
  rw [foldl_apply] at hcontents
  cases hlast : lastCommit events repoId with
  | none =>
    unfold lastCommit at hlast
    rw [hlast] at hcontents
    exact hcontents
  | some d =>
    obtain ⟨-, _, call, -, hmade⟩ := lastCommit_made hlast
    unfold lastCommit at hlast
    rw [hlast] at hcontents
    have hrows : firsts indexSchema.key d.rows = d.rows :=
      firsts_eq_self IndexRow.key (IndexCall.rows_keys_nodup hmade.rows)
    exact hcontents.trans (congrArg (Prod.mk (some d.label)) hrows)

/-- An index holds every chunk that a call found in its checkout and nothing else, as many rows
as that call reports, under its commit. -/
def IndexedBy (events : List IndexEvent) (repoId : ℤ) : Option (Done IndexRow ℤ String) → Prop
  | none => contentsOf (indexed events) repoId = (none, [])
  | some d => ∃ number call rows, .indexed number call ∈ events ∧ MadeBy call d ∧
      call.rows = .ok rows ∧ contentsOf (indexed events) repoId = (some call.commitSha, rows) ∧
        rows.map IndexRow.chunk = allChunks call.checkout

/-- Whatever is interleaved, rolled back or crashes on the way, an index is by the last call for
its repository that committed. -/
theorem index_is_last_commit {events : List IndexEvent}
    (halone : Throughout (State.step indexSchema) Swaps.Alone ({} : Database) (statementsOf events))
    (repoId : ℤ) : IndexedBy events repoId (lastCommit events repoId) := by
  have hcontents := contents_lastCommit halone repoId
  cases hlast : lastCommit events repoId with
  | none =>
    rw [hlast] at hcontents
    exact hcontents
  | some d =>
    rw [hlast] at hcontents
    obtain ⟨-, number, call, hcall, hmade⟩ := lastCommit_made hlast
    refine ⟨number, call, d.rows, hcall, hmade, hmade.rows, ?_, (IndexCall.rows_ok hmade.rows).1⟩
    rw [hmade.commit]
    exact hcontents

theorem indexed_sound (events : List IndexEvent) : Sound indexSchema (indexed events) :=
  Runs.run_keeps (fun _ e hs => hs.step e) sound_initial (statementsOf events)

/-- Two calls for one repository whose transactions overlap: neither removes what the other put
in, and the index has the rows of both under the commit of the later one. -/
theorem overlapping_calls_both_stay {events : List IndexEvent} (later : List IndexEvent)
    {t u : Swap IndexRow ℤ String} (ht : t ∈ (indexed events).running.rows)
    (hu : u ∈ (indexed events).running.rows) (hrepo : u.owner = t.owner)
    (hne : u.number ≠ t.number) (htodo : t.todo = [])
    (hquiet : Throughout (State.step indexSchema) (Quiet t.owner u.number)
      (indexed (events ++ [.commit t.number])) (statementsOf later)) :
    ∃ u' ∈ (indexed (events ++ .commit t.number :: later)).running.rows,
      u'.number = u.number ∧ (u'.todo = [] →
        let both := contentsOf (indexed (events ++ .commit t.number :: later ++ [.commit u.number]))
          t.owner
        both.1 = some u.label ∧ ∀ r ∈ t.inserted ++ u'.inserted, r ∈ both.2) := by
  have hstep (events : List IndexEvent) (number : ℕ) : indexed (events ++ [.commit number]) =
      (indexed events).step indexSchema (.commit number) := by
    rw [indexed, statementsOf, List.flatMap_append, run_append]
    rfl
  have hlater : indexed (events ++ .commit t.number :: later) =
      Runs.run (State.step indexSchema) (indexed (events ++ [.commit t.number]))
        (statementsOf later) := by
    rw [List.append_cons, indexed, statementsOf, List.flatMap_append, run_append]
    rfl
  rw [hstep] at hquiet hlater
  simp only [hstep, hlater]
  exact (indexed_sound events).overlap ht hu hrepo hne htodo hquiet

end Rows

def sampleCheckout (text : String) : Checkout where
  root := .dir "src" (.file "a.py" ⟨some 6, some text⟩ .nil)
    (.dir ".cache" (.file "b.py" ⟨some 6, some text⟩ .nil) .nil)
  proper := by simp [Listing.Proper, Listing.names]

@[reducible] def plainDigest : Digest := ⟨id⟩

def sampleCall (repoId : ℤ) (commitSha text : String) : @IndexCall wordSearch :=
  letI := wordSearch
  { repoId, commitSha, checkout := sampleCheckout text
    embed := fun texts => .ok (texts.map fun _ => (0 : ℚ)) }

def twoRepositories : @List (@IndexEvent wordSearch) :=
  letI := wordSearch
  [.indexed 1 (sampleCall 7 "a1" "x = 1\n"), .indexed 2 (sampleCall 8 "b2" "x = 2\n"), .insert 2,
   .insert 1, .commit 2, .commit 1]

theorem index_is_last_commit_interleaved :
    letI := asciiInterp; letI := wordSearch; letI := plainDigest
    (lastCommit twoRepositories 7).map Done.label = some "a1" ∧
      IndexedBy twoRepositories 7 (lastCommit twoRepositories 7) := by
  let _ := asciiInterp; let _ := wordSearch; let _ := plainDigest
  have halone : Throughout (State.step indexSchema) Swaps.Alone ({} : Database)
      (statementsOf twoRepositories) := by decide +kernel
  exact ⟨by decide +kernel, index_is_last_commit halone 7⟩

def twoCommits : @List (@IndexEvent wordSearch) :=
  letI := wordSearch
  [.indexed 1 (sampleCall 7 "a1" "x = 1\n"), .indexed 2 (sampleCall 7 "b2" "x = 2\n"), .insert 1,
   .insert 2]

/-- A row of the first commit is in the index of the second. -/
theorem overlapping_calls_stale_row :
    letI := asciiInterp; letI := wordSearch; letI := plainDigest
    let both := contentsOf (indexed (twoCommits ++ .commit 1 :: [] ++ [.commit 2])) 7
    both.1 = some "b2" ∧ ∃ r ∈ both.2, r.commitSha = "a1" := by
  let _ := asciiInterp; let _ := wordSearch; let _ := plainDigest
  have hrunning : ((indexed twoCommits).running.rows.map fun t =>
      (t.number, t.owner, t.label, t.todo.length, t.inserted.map IndexRow.commitSha)) =
      [(1, 7, "a1", 0, ["a1"]), (2, 7, "b2", 0, ["b2"])] := by decide +kernel
  have hdone : ∀ t ∈ (indexed (twoCommits ++ .commit 1 :: [])).running.rows,
      t.todo.isEmpty = true := by decide +kernel
  obtain ⟨t, ht, heq⟩ := List.mem_map.mp (hrunning ▸ List.mem_cons_self)
  obtain ⟨u, hu, heq'⟩ := List.mem_map.mp
    (hrunning ▸ List.mem_cons_of_mem _ List.mem_cons_self)
  simp only [Prod.mk.injEq, List.length_eq_zero_iff] at heq heq'
  obtain ⟨hnumber, howner, -, htodo, hinserted⟩ := heq
  obtain ⟨hnumber', howner', hlabel, -⟩ := heq'
  obtain ⟨u', hu', -, hboth⟩ := overlapping_calls_both_stay [] ht hu
    (howner'.trans howner.symm) (by omega) htodo trivial
  rw [hnumber] at hu'
  have hfinal := hboth (List.isEmpty_iff.mp (hdone u' hu'))
  rw [hnumber, hnumber', howner, hlabel] at hfinal
  obtain ⟨r, hr, hcommit⟩ := List.mem_map.mp (hinserted ▸ List.mem_singleton_self "a1")
  exact ⟨hfinal.1, r, hfinal.2 r (List.mem_append_left _ hr), hcommit⟩

section Rows
variable [Interp] [Postgres] [Digest]

def IndexRow.stored (id : ℕ) (r : IndexRow) : ChunkRow where
  id := id
  repoId := r.repoId
  filePath := r.filePath
  startLine := r.startLine
  endLine := r.endLine
  content := r.content
  symbol := r.symbol
  language := r.language
  embedding := some r.embedding

def codeChunks (s : Database) : CodeChunks where
  rows := s.committed.zipIdx.map fun e => e.1.row.stored e.2
  unique := by
    rw [List.map_map]
    change (s.committed.zipIdx.map Prod.snd).Nodup
    rw [List.zipIdx_map_snd]
    exact List.nodup_range'

structure Outages where
  indexedSha : ℤ → Bool := fun _ => false
  hybridSearch : ℤ → Postgres.Vec → String → Bool := fun _ _ _ => false

def readings (s : Database) (outages : Outages) (embed : List String → Option (List Postgres.Vec))
    (conventionsFor : ℤ → Option (List String)) : Retrieval Postgres.Vec where
  indexedSha repoId := if outages.indexedSha repoId then none else some (contentsOf s repoId).1
  embed := embed
  hybridSearch repoId vector terms topK paths :=
    if outages.hybridSearch repoId vector terms then none
    else some (hybridSearch (codeChunks s) repoId vector terms topK paths)
  conventionsFor := conventionsFor

omit [Interp] [Digest] in
theorem mem_codeChunks {s : Database} {c : ChunkRow} {repoId : ℤ} (h : c ∈ (codeChunks s).rows)
    (hrepo : c.repoId = repoId) :
    ∃ id, ∃ r ∈ (contentsOf s repoId).2, c = r.stored id := by
  obtain ⟨⟨version, id⟩, he, rfl⟩ := List.mem_map.mp h
  refine ⟨id, version.row, List.mem_map_of_mem (List.mem_filter.mpr ⟨?_, ?_⟩), rfl⟩
  · exact (List.mem_zipIdx' he).2 ▸ List.getElem_mem _
  · exact decide_eq_true hrepo

omit [Digest] in
theorem mem_searchFiles {s : Database} {outages : Outages}
    {embed : List String → Option (List Postgres.Vec)}
    {conventionsFor : ℤ → Option (List String)} {repoId : ℤ} {topK : ℕ} {paths : List String}
    {queried : List (DiffFile × Postgres.Vec)} {f : String × List CodeChunk}
    (hf : f ∈ searchFiles (readings s outages embed conventionsFor) repoId topK paths queried)
    {hit : CodeChunk} (hhit : hit ∈ f.2) :
    ∃ r ∈ (contentsOf s repoId).2, ∃ id score, hit = (r.stored id).toCodeChunk score := by
  obtain ⟨q, -, hq⟩ := List.mem_filterMap.mp hf
  obtain ⟨hits, hfound, rfl⟩ := Option.map_eq_some_iff.mp hq
  change (if outages.hybridSearch repoId q.2 (ftsQuery [q.1]) then none
    else some (hybridSearch (codeChunks s) repoId q.2 (ftsQuery [q.1]) topK paths)) = some hits
    at hfound
  split at hfound
  · cases hfound
  · obtain rfl := Option.some.inj hfound
    obtain ⟨c, hc, hrepo, score, rfl⟩ := mem_hybridSearch hhit
    obtain ⟨id, r, hr, rfl⟩ := mem_codeChunks hc hrepo
    exact ⟨r, hr, id, score, rfl⟩

omit [Digest] in
theorem buildContext_reads {s : Database} {outages : Outages}
    {embed : List String → Option (List Postgres.Vec)}
    {conventionsFor : ℤ → Option (List String)} {maxDiffBytes : ℤ} {topK : ℕ}
    {pr : PullRequestContext} {repoId : ℤ} {ctx : ReviewContext}
    (h : (readings s outages embed conventionsFor).buildContext maxDiffBytes topK pr
      (some repoId) = .ok ctx) :
    (∀ hit ∈ ctx.retrieved.chunks, ∃ r ∈ (contentsOf s repoId).2, ∃ id score,
      hit = (r.stored id).toCodeChunk score) ∧
    ctx.retrieved.indexedSha =
      (if outages.indexedSha repoId then none else (contentsOf s repoId).1) ∧
    (outages.indexedSha repoId = false →
      ctx.retrieved.indexDrift = indexDrift (contentsOf s repoId).1 pr.baseSha) := by
  have hnoted : (noteIndexDrift (readings s outages embed conventionsFor) repoId
      pr.baseSha).chunks = [] ∧
      (noteIndexDrift (readings s outages embed conventionsFor) repoId pr.baseSha).indexedSha =
        (if outages.indexedSha repoId then none else (contentsOf s repoId).1) ∧
      (outages.indexedSha repoId = false →
        (noteIndexDrift (readings s outages embed conventionsFor) repoId pr.baseSha).indexDrift =
          indexDrift (contentsOf s repoId).1 pr.baseSha) := by
    unfold noteIndexDrift readings
    dsimp only
    cases outages.indexedSha repoId with
    | true => exact ⟨rfl, rfl, fun h => absurd h Bool.noConfusion⟩
    | false => exact ⟨rfl, rfl, fun _ => rfl⟩
  obtain ⟨hchunks, hnoted⟩ := hnoted
  unfold Retrieval.buildContext at h
  dsimp only at h
  split at h
  · cases h
    refine ⟨fun hit hhit => ?_, hnoted⟩
    change hit ∈ (noteIndexDrift _ repoId pr.baseSha).chunks at hhit
    rw [hchunks] at hhit
    cases hhit
  · split at h
    · cases h
      refine ⟨fun hit hhit => ?_, hnoted⟩
      change hit ∈ (noteIndexDrift _ repoId pr.baseSha).chunks at hhit
      rw [hchunks] at hhit
      cases hhit
    · split at h
      · cases h
      · cases h
        refine ⟨fun hit hhit => ?_, hnoted⟩
        obtain ⟨f, hf, hhit⟩ := mem_mergeHits hhit
        exact mem_searchFiles hf hhit

/-- A chunk that quotes a file of a checkout, at the lines it names. -/
def Quotes (c : Checkout) (hit : CodeChunk) : Prop :=
  ∃ path f text, c.root.At path f ∧ (∀ d ∈ path.dropLast, entered d = true) ∧
    f.text = some text ∧ hit.filePath = relative path ∧
    ∃ start stop : ℕ, hit.startLine = start ∧ hit.endLine = stop ∧ 1 ≤ start ∧ start ≤ stop ∧
      stop ≤ (splitLines text.toList).length ∧
      hit.content = linesOf (splitLines text.toList) start stop

omit [Postgres] [Digest] in
theorem mem_allChunks {c : Checkout} {chunk : Chunk} (h : chunk ∈ allChunks c) :
    ∃ path f text, c.root.At path f ∧ (∀ d ∈ path.dropLast, entered d = true) ∧
      f.text = some text ∧ chunk ∈ chunkFile (relative path) text := by
  obtain ⟨⟨path, f⟩, hfound, h⟩ := List.mem_flatMap.mp h
  obtain ⟨hat, hdirs, -⟩ := mem_walk.mp hfound
  cases htext : f.text with
  | none => simp [htext] at h
  | some text => exact ⟨path, f, text, hat, hdirs, htext, by simpa [htext] using h⟩

/-- Where a review found the index of its base and noted no drift, all the code it is shown
stands in the checkout that was indexed as that base, word for word. -/
theorem undrifted_context_quotes_base {events : List IndexEvent}
    (halone : Throughout (State.step indexSchema) Swaps.Alone ({} : Database) (statementsOf events))
    (outages : Outages) (embed : List String → Option (List Postgres.Vec))
    (conventionsFor : ℤ → Option (List String)) (maxDiffBytes : ℤ) (topK : ℕ)
    {pr : PullRequestContext} {repoId : ℤ} {ctx : ReviewContext}
    (h : (readings (indexed events) outages embed conventionsFor).buildContext maxDiffBytes topK pr
      (some repoId) = .ok ctx) (hbase : pr.baseSha ≠ "")
    (hsha : ctx.retrieved.indexedSha ≠ none) (hdrift : ctx.retrieved.indexDrift = none) :
    ∃ number call, .indexed number call ∈ events ∧ call.repoId = repoId ∧
      call.commitSha = pr.baseSha ∧ ∀ hit ∈ ctx.retrieved.chunks, Quotes call.checkout hit := by
  obtain ⟨hread, hindexed, hdrifted⟩ := buildContext_reads h
  have hindex := contents_lastCommit halone repoId
  rw [hindexed] at hsha
  cases hout : outages.indexedSha repoId with
  | true => simp [hout] at hsha
  | false =>
    simp only [hout, Bool.false_eq_true, if_false] at hsha
    rw [hdrifted hout] at hdrift
    cases hlast : lastCommit events repoId with
    | none =>
      rw [hlast] at hindex
      exact absurd (congrArg Prod.fst hindex) hsha
    | some d =>
      rw [hlast] at hindex
      obtain ⟨howner, number, call, hcall, hmade⟩ := lastCommit_made hlast
      have hcontents : contentsOf (indexed events) repoId = (some d.label, d.rows) := hindex
      have hchunks := (IndexCall.rows_ok hmade.rows).1
      have hlabel : d.label = pr.baseSha := by
        rw [hcontents] at hdrift
        unfold indexDrift at hdrift
        rw [if_neg hbase] at hdrift
        split at hdrift
        · cases hdrift
        · split at hdrift
          · cases hdrift
          · rename_i heq
            exact Option.some.inj (not_not.mp heq)
      refine ⟨number, call, hcall, hmade.repo.trans howner, hmade.commit.trans hlabel, ?_⟩
      intro hit hhit
      obtain ⟨r, hr, id, score, rfl⟩ := hread hit hhit
      rw [hcontents] at hr
      have hchunk : r.chunk ∈ allChunks call.checkout := hchunks ▸ List.mem_map_of_mem hr
      obtain ⟨path, f, text, hat, hdirs, htext, hmem⟩ := mem_allChunks hchunk
      refine ⟨path, f, text, hat, hdirs, htext, chunkFile_path hmem, r.startLine, r.endLine, rfl,
        rfl, ?_⟩
      exact chunkFile_quotes hmem

end Rows

def addedPr (baseSha : String) : PullRequestContext where
  repoFullName := "acme/app"
  repoGithubId := 7
  number := 1
  baseSha := baseSha
  files := [{ path := "src/new.py", status := "added", additions := 0, deletions := 0, hunks := [] }]

theorem undrifted_context_quotes_sample :
    letI := asciiInterp; letI := wordSearch; letI := plainDigest
    ∃ ctx, (readings (indexed twoRepositories) {} (fun texts => some (texts.map fun _ => (0 : ℚ)))
        (fun _ => none)).buildContext 1000 12 (addedPr "a1") (some 7) = .ok ctx ∧
      ctx.retrieved.chunks.length = 1 ∧
      ∃ number call, .indexed number call ∈ twoRepositories ∧ call.repoId = 7 ∧
        call.commitSha = "a1" ∧ ∀ hit ∈ ctx.retrieved.chunks, Quotes call.checkout hit := by
  let _ := asciiInterp; let _ := wordSearch; let _ := plainDigest
  have halone : Throughout (State.step indexSchema) Swaps.Alone ({} : Database)
      (statementsOf twoRepositories) := by decide +kernel
  have hnoted : ((readings (indexed twoRepositories) {}
      (fun texts => some (texts.map fun _ => (0 : ℚ))) (fun _ => none)).buildContext 1000 12
        (addedPr "a1") (some 7)).toOption.map (fun ctx => (ctx.retrieved.indexedSha,
          ctx.retrieved.indexDrift, ctx.retrieved.chunks.length)) = some (some "a1", none, 1) := by
    decide +kernel
  cases hctx : (readings (indexed twoRepositories) {}
      (fun texts => some (texts.map fun _ => (0 : ℚ))) (fun _ => none)).buildContext 1000 12
        (addedPr "a1") (some 7) with
  | error e =>
    rw [hctx] at hnoted
    cases hnoted
  | ok ctx =>
    rw [hctx] at hnoted
    simp only [Except.toOption, Option.map_some, Option.some.injEq, Prod.mk.injEq] at hnoted
    obtain ⟨hsha, hdrift, hlength⟩ := hnoted
    exact ⟨ctx, rfl, hlength, undrifted_context_quotes_base halone {} _ _ 1000 12 hctx (by decide)
      (by simp [hsha]) hdrift⟩

end PrSentinel.Indexer
