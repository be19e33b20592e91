import Mathlib.Data.Prod.Lex
import PrSentinel.Diff
import PrSentinel.Ranking
import PrSentinel.Table

/-!
The full-text half of a retrieval query: identifiers of a change, weighed and joined.
Paths give terms too, by another tokeniser that lets more through.
-/

set_option autoImplicit false

namespace PrSentinel
open Python Relational Ranking

def opensIdentifier (c : Char) : Bool := c.isAlpha || c = '_'

def inIdentifier (c : Char) : Bool := c.isAlphanum || c = '_'

/-- `_IDENTIFIER.findall(line)`, with the run under way kept in reverse. A run that is too
short holds no match further in, which would be shorter still. -/
def identifiersFrom : List Char → List Char → List (List Char)
  | run, [] => if run.length < 4 then [] else [run.reverse]
  | [], c :: cs => identifiersFrom (if opensIdentifier c then [c] else []) cs
  | d :: run, c :: cs =>
    if inIdentifier c then identifiersFrom (c :: d :: run) cs
    else if (d :: run).length < 4 then identifiersFrom [] cs
    else (d :: run).reverse :: identifiersFrom [] cs

def identifiers (line : List Char) : List (List Char) := identifiersFrom [] line

def segments (path : String) : List (List Char) :=
  path.toList.splitOnP fun c => c ∈ ['/', '.', '_', '-']

def stopwords : List String :=
  ["self", "none", "true", "false", "null", "this", "return", "import", "from", "class", "def",
   "func", "function", "const", "type", "interface", "struct", "public", "private", "static",
   "async", "await", "with", "else", "elif", "then", "when", "case", "while", "for", "and", "not",
   "the", "that", "value", "data", "item", "items", "args", "kwargs", "test", "tests", "assert",
   "raise", "throw", "catch", "except", "finally", "print", "string", "number", "boolean",
   "object", "list", "dict", "array", "param", "params"]

structure TermCount where
  term : String
  count : ℕ
  deriving DecidableEq, Repr

abbrev Counts := Table TermCount.term

def bump (n : ℕ) (counts : Counts) (term : String) : Counts :=
  counts.upsert ⟨term, n⟩ (fun r => { r with count := r.count + n }) fun _ => rfl

section Interp
variable [Interp]

def distinctive (tokens : List (List Char)) : List String :=
  (tokens.map fun token => lower (.ofList token)).filter (· ∉ stopwords)

def pathTerms (path : String) : List String :=
  distinctive ((segments path).filter fun segment => 4 ≤ segment.length)

def lineTerms (line : List Char) : List String := distinctive (identifiers line)

def countLine (counts : Counts) (line : List Char) : Counts :=
  if line.head? ≠ some '+' ∨ "+++".toList.isPrefixOf line then counts
  else (lineTerms line).foldl (bump 1) counts

def countFile (counts : Counts) (f : DiffFile) : Counts :=
  f.hunks.foldl (fun counts h => (splitLines h.text.toList).foldl countLine counts)
    ((pathTerms f.path).foldl (bump 3) counts)

def termCounts (files : List DiffFile) : Counts := files.foldl countFile .empty

def sliceTo {α : Type} (n : ℤ) (xs : List α) : List α :=
  xs.take (if 0 ≤ n then n.toNat else xs.length - n.natAbs)

def rankKey (r : TermCount) : ℤ ×ₗ String := toLex (-(r.count : ℤ), r.term)

def ftsTerms (files : List DiffFile) (maxTerms : ℤ) : List String :=
  (sliceTo maxTerms (Ranking.inOrder rankKey (termCounts files).rows)).map TermCount.term

def ftsQuery (files : List DiffFile) (maxTerms : ℤ := 24) : String :=
  join " or " (ftsTerms files maxTerms)

def countOf (counts : Counts) (term : String) : ℕ :=
  ((counts.find? term).map TermCount.count).getD 0

def diffLines (files : List DiffFile) : List (List Char) :=
  files.flatMap fun f => f.hunks.flatMap fun h => splitLines h.text.toList

/-- The loop takes an added line whose code begins with two plus signs for a file's header. -/
def imitates (line : List Char) : Bool := "+++".toList.isPrefixOf line

def isAdded (line : List Char) : Bool := markOf line = .added

omit [Interp] in
theorem countOf_bump (n : ℕ) (counts : Counts) (s t : String) :
    countOf (bump n counts s) t = countOf counts t + if s = t then n else 0 := by
  rw [countOf, bump, Table.find?_upsert]
  by_cases h : t = s
  · subst h
    cases hfound : counts.find? t <;> simp [countOf, hfound]
  · simp [countOf, h, Ne.symm h]

omit [Interp] in
theorem countOf_bumps (n : ℕ) (counts : Counts) (terms : List String) (t : String) :
    countOf (terms.foldl (bump n) counts) t = countOf counts t + n * terms.count t := by
  induction terms generalizing counts with
  | nil => simp
  | cons s terms ih =>
    rw [List.foldl_cons, ih, countOf_bump, List.count_cons]
    by_cases h : s = t
    · simp only [h, if_true, beq_self_eq_true]
      ring
    · simp [h]

omit [Interp] in
theorem isAdded_iff (line : List Char) : isAdded line = true ↔ line.head? = some '+' := by
  rw [isAdded, decide_eq_true_eq]
  unfold markOf
  split <;> simp_all

theorem countOf_line (counts : Counts) (line : List Char) (t : String) :
    countOf (countLine counts line) t = countOf counts t +
      if isAdded line && !imitates line then (lineTerms line).count t else 0 := by
  have hskip : (line.head? ≠ some '+' ∨ "+++".toList.isPrefixOf line) ↔
      ¬ (isAdded line && !imitates line) = true := by
    rw [Bool.and_eq_true, isAdded_iff, not_and_or, imitates]
    simp
  rw [countLine, if_congr hskip rfl rfl, ite_not]
  split
  · rw [countOf_bumps, one_mul]
  · rfl

theorem countOf_lines (counts : Counts) (lines : List (List Char)) (t : String) :
    countOf (lines.foldl countLine counts) t = countOf counts t +
      ((lines.filter fun line => isAdded line && !imitates line).flatMap lineTerms).count t := by
  induction lines generalizing counts with
  | nil => simp
  | cons line lines ih =>
    rw [List.foldl_cons, ih, countOf_line, List.filter_cons]
    split
    · rw [List.flatMap_cons, List.count_append]
      ring
    · ring

theorem countOf_file (counts : Counts) (f : DiffFile) (t : String) :
    countOf (countFile counts f) t = countOf counts t + 3 * (pathTerms f.path).count t +
      (((f.hunks.flatMap fun h => splitLines h.text.toList).filter fun line =>
        isAdded line && !imitates line).flatMap lineTerms).count t := by
  rw [countFile, ← List.foldl_flatMap, countOf_lines, countOf_bumps]

theorem countOf_termCounts (files : List DiffFile) (t : String) :
    countOf (termCounts files) t = 3 * (files.flatMap fun f => pathTerms f.path).count t +
      (((diffLines files).filter fun line => isAdded line && !imitates line).flatMap
        lineTerms).count t := by
  have hfold (counts : Counts) : countOf (files.foldl countFile counts) t = countOf counts t +
      3 * (files.flatMap fun f => pathTerms f.path).count t +
      (((diffLines files).filter fun line => isAdded line && !imitates line).flatMap
        lineTerms).count t := by
    induction files generalizing counts with
    | nil => simp [diffLines]
    | cons f files ih =>
      rw [List.foldl_cons, ih, countOf_file]
      simp only [diffLines, List.flatMap_cons, List.filter_append, List.flatMap_append,
        List.count_append]
      ring
  have hempty : countOf .empty t = 0 := rfl
  rw [termCounts, hfold, hempty, Nat.zero_add]

/-- What a term weighs if every added line counts. -/
def weight (files : List DiffFile) (t : String) : ℕ :=
  3 * (files.flatMap fun f => pathTerms f.path).count t +
    (((diffLines files).filter isAdded).flatMap lineTerms).count t

/-- Every occurrence of a term, in a path or in an added line. -/
def mentions (files : List DiffFile) : List String :=
  (files.flatMap fun f => pathTerms f.path) ++ ((diffLines files).filter isAdded).flatMap lineTerms

omit [Interp] in
theorem imitates_added {line : List Char} (h : imitates line = true) : isAdded line = true := by
  obtain ⟨rest, rfl⟩ := List.isPrefixOf_iff_prefix.mp h
  rfl

theorem count_added (lines : List (List Char)) (t : String) :
    ((lines.filter isAdded).flatMap lineTerms).count t =
      ((lines.filter fun line => isAdded line && !imitates line).flatMap lineTerms).count t +
        ((lines.filter imitates).flatMap lineTerms).count t := by
  induction lines with
  | nil => rfl
  | cons line lines ih =>
    simp only [List.filter_cons]
    cases himitates : imitates line with
    | true =>
      simp only [imitates_added himitates, Bool.not_true, Bool.and_false, Bool.false_eq_true,
        if_true, if_false, List.flatMap_cons, List.count_append, ih]
      ring
    | false =>
      cases hadded : isAdded line with
      | true =>
        simp only [Bool.not_false, Bool.and_true, Bool.false_eq_true, if_true, if_false,
          List.flatMap_cons, List.count_append, ih]
        ring
      | false => simpa using ih

theorem weight_eq (files : List DiffFile) (t : String) : weight files t =
    countOf (termCounts files) t +
      (((diffLines files).filter imitates).flatMap lineTerms).count t := by
  rw [weight, count_added, countOf_termCounts]
  ring

theorem counts_exact_iff (files : List DiffFile) :
    (∀ t, countOf (termCounts files) t = weight files t) ↔
      ∀ line ∈ diffLines files, imitates line = true → lineTerms line = [] := by
  have hmissed : (∀ t, countOf (termCounts files) t = weight files t) ↔
      ∀ t, t ∉ ((diffLines files).filter imitates).flatMap lineTerms := by
    refine forall_congr' fun t => ?_
    rw [weight_eq, left_eq_add, List.count_eq_zero]
  rw [hmissed, ← List.eq_nil_iff_forall_not_mem, List.flatMap_eq_nil_iff]
  simp only [List.mem_filter, and_imp]

def WellFormed (t : String) : Prop :=
  4 ≤ t.toList.length ∧ ∀ c ∈ t.toList, Interp.isAlnum c = true ∨ c = '_'

omit [Interp] in
theorem identifiersFrom_run {run line : List Char} (hrun : ∀ c ∈ run, inIdentifier c = true) :
    ∀ token ∈ identifiersFrom run line,
      4 ≤ token.length ∧ ∀ c ∈ token, inIdentifier c = true := by
  induction run, line using identifiersFrom.induct with
  | case1 run hshort => simp [identifiersFrom, hshort]
  | case2 run hlong =>
    simp only [identifiersFrom, if_neg hlong, List.mem_singleton, forall_eq, List.length_reverse,
      List.mem_reverse]
    exact ⟨not_lt.mp hlong, hrun⟩
  | case3 c cs ih =>
    rw [identifiersFrom]
    refine ih ?_
    split
    · rename_i hopens
      simp only [opensIdentifier, Bool.or_eq_true, decide_eq_true_eq] at hopens
      simp only [inIdentifier, Char.isAlphanum, Bool.or_eq_true, decide_eq_true_eq, List.mem_singleton,
        forall_eq]
      exact hopens.imp_left .inl
    · simp
  | case4 d run c cs hc ih =>
    rw [identifiersFrom, if_pos hc]
    exact ih (List.forall_mem_cons.mpr ⟨hc, hrun⟩)
  | case5 d run c cs hc hshort ih =>
    rw [identifiersFrom, if_neg hc, if_pos hshort]
    exact ih (by simp)
  | case6 d run c cs hc hlong ih =>
    rw [identifiersFrom, if_neg hc, if_neg hlong]
    refine List.forall_mem_cons.mpr ⟨?_, ih (by simp)⟩
    rw [List.length_reverse]
    exact ⟨not_lt.mp hlong, fun x hx => hrun x (List.mem_reverse.mp hx)⟩

omit [Interp] in
theorem inIdentifier_ascii {c : Char} (h : inIdentifier c = true) :
    isAscii c = true ∧ (c.toLower.isAlphanum = true ∨ c.toLower = '_') ∧ isAscii c.toLower = true := by
  have hascii : c.toNat < 128 := (word_range h).2.trans_lt (by decide)
  have htable : ∀ n : Fin 128, inIdentifier (Char.ofNat n) = true →
      isAscii (Char.ofNat n) = true ∧
        ((Char.ofNat n).toLower.isAlphanum = true ∨ (Char.ofNat n).toLower = '_') ∧
        isAscii (Char.ofNat n).toLower = true := by
    decide +kernel
  have hc := htable ⟨c.toNat, hascii⟩
  rw [Char.ofNat_toNat] at hc
  exact hc h

theorem wellFormed_of_line {line : List Char} {t : String} (h : t ∈ lineTerms line) :
    WellFormed t := by
  obtain ⟨token, htoken, rfl⟩ := List.mem_map.mp (List.mem_of_mem_filter h)
  obtain ⟨hlong, hchars⟩ := identifiersFrom_run (by simp) token htoken
  have hlower : (lower (.ofList token)).toList = token.map Char.toLower := by
    rw [lower, String.toList_ofList, String.toList_ofList,
      Interp.lower_ascii token fun c hc => (inIdentifier_ascii (hchars c hc)).1]
  rw [WellFormed, hlower, List.length_map]
  refine ⟨hlong, fun c hc => ?_⟩
  obtain ⟨d, hd, rfl⟩ := List.mem_map.mp hc
  obtain ⟨-, hword, hascii⟩ := inIdentifier_ascii (hchars d hd)
  rwa [Interp.isAlnum_ascii _ hascii]

theorem not_stopword {tokens : List (List Char)} {t : String} (h : t ∈ distinctive tokens) :
    t ∉ stopwords := by simpa using List.of_mem_filter h

omit [Interp] in
theorem countOf_row {counts : Counts} {r : TermCount} (hr : r ∈ counts.rows) :
    countOf counts r.term = r.count := by
  rw [countOf, Table.find?_key hr]
  rfl

/-- Nothing is in the dictionary that was not counted. -/
def Positive (counts : Counts) : Prop := ∀ r ∈ counts.rows, 0 < r.count

omit [Interp] in
theorem Positive.bumps {n : ℕ} (hn : 0 < n) (terms : List String) {counts : Counts}
    (h : Positive counts) : Positive (terms.foldl (bump n) counts) := by
  refine List.foldlRecOn terms _ h fun counts h term _ => ?_
  intro r hr
  rcases Table.mem_upsert.mp hr with ⟨hr, -⟩ | ⟨-, rfl⟩ | ⟨q, hq, -, rfl⟩
  · exact h r hr
  · exact hn
  · exact Nat.add_pos_left (h q hq) n

theorem termCounts_positive (files : List DiffFile) : Positive (termCounts files) := by
  have hempty : Positive .empty := fun r hr => absurd hr List.not_mem_nil
  refine List.foldlRecOn files _ hempty fun counts h f _ => ?_
  refine List.foldlRecOn f.hunks _ (h.bumps (by decide) _) fun counts h hunk _ => ?_
  refine List.foldlRecOn _ _ h fun counts h line _ => ?_
  unfold countLine
  split
  · exact h
  · exact h.bumps (by decide) _

omit [Interp] in
theorem Positive.mem_iff {counts : Counts} (h : Positive counts) (t : String) :
    t ∈ counts.rows.map TermCount.term ↔ countOf counts t ≠ 0 := by
  constructor
  · intro ht
    obtain ⟨r, hr, rfl⟩ := List.mem_map.mp ht
    rw [countOf_row hr]
    exact (h r hr).ne'
  · intro ht
    cases hfound : counts.find? t with
    | none => simp [countOf, hfound] at ht
    | some r =>
      have hr : r.term = t := by simpa using List.find?_some hfound
      rw [← hr]
      exact List.mem_map_of_mem (List.mem_of_find?_eq_some hfound)

theorem mem_mentions (files : List DiffFile) (t : String) :
    t ∈ mentions files ↔ weight files t ≠ 0 := by
  rw [mentions, weight, ← List.count_pos_iff, List.count_append]
  omega

def rankOf (files : List DiffFile) (t : String) : ℤ ×ₗ String := toLex (-(weight files t : ℤ), t)

section Exact
variable {files : List DiffFile} (hexact : ∀ t, countOf (termCounts files) t = weight files t)
include hexact

theorem rankKey_row {r : TermCount} (hr : r ∈ (termCounts files).rows) :
    rankKey r = rankOf files r.term := by
  rw [rankKey, rankOf, ← hexact, countOf_row hr]

theorem terms_perm :
    ((termCounts files).rows.map TermCount.term).Perm (mentions files).dedup := by
  refine (List.perm_ext_iff_of_nodup (termCounts files).unique (List.nodup_dedup _)).mpr fun t => ?_
  rw [(termCounts_positive files).mem_iff, List.mem_dedup, mem_mentions, hexact]

theorem ahead_rows (k : ℤ ×ₗ String) : ahead rankKey (termCounts files).rows k =
    ahead (rankOf files) (mentions files).dedup k := by
  have hmap : ahead rankKey (termCounts files).rows k =
      ahead (rankOf files) ((termCounts files).rows.map TermCount.term) k := by
    rw [ahead, ahead, List.countP_map]
    exact List.countP_congr fun r hr => by simp [rankKey_row hexact hr]
  rw [hmap]
  exact (terms_perm hexact).countP_eq _

theorem mem_ftsTerms {maxTerms : ℤ} (hmax : 0 ≤ maxTerms) (t : String) :
    t ∈ ftsTerms files maxTerms ↔ t ∈ mentions files ∧
      ahead (rankOf files) (mentions files).dedup (rankOf files t) < maxTerms := by
  have hslice : ftsTerms files maxTerms =
      (leading rankKey maxTerms.toNat (termCounts files).rows).map TermCount.term := by
    rw [ftsTerms, sliceTo, if_pos hmax]
    rfl
  have hkeys : ((termCounts files).rows.map rankKey).Nodup := by
    refine List.Nodup.of_map (fun k : ℤ ×ₗ String => (ofLex k).2) ?_
    rw [List.map_map]
    exact (termCounts files).unique
  rw [hslice, ← List.mem_dedup (l := mentions files), ← (terms_perm hexact).mem_iff]
  simp only [List.mem_map, mem_leading_iff rankKey hkeys, ahead_rows hexact]
  constructor
  · rintro ⟨r, ⟨hr, hlt⟩, rfl⟩
    rw [rankKey_row hexact hr] at hlt
    exact ⟨⟨r, hr, rfl⟩, by omega⟩
  · rintro ⟨⟨r, hr, rfl⟩, hlt⟩
    refine ⟨r, ⟨hr, ?_⟩, rfl⟩
    rw [rankKey_row hexact hr]
    omega

end Exact

/-- The query as it is meant: its terms are few, fit for a query, counted in full and
the heaviest there are. -/
structure FtsExact (files : List DiffFile) (maxTerms : ℤ) : Prop where
  joined : ftsQuery files maxTerms = join " or " (ftsTerms files maxTerms)
  few : ((ftsTerms files maxTerms).length : ℤ) ≤ maxTerms
  distinct : (ftsTerms files maxTerms).Nodup
  formed : ∀ t ∈ ftsTerms files maxTerms, WellFormed t ∧ t ∉ stopwords
  counted : ∀ t, countOf (termCounts files) t = weight files t
  heaviest : ∀ t ∈ ftsTerms files maxTerms, ∀ r ∈ (termCounts files).rows,
    r.term ∉ ftsTerms files maxTerms → r.count ≤ countOf (termCounts files) t

theorem ftsTerms_eq (files : List DiffFile) (maxTerms : ℤ) : ∃ n, ftsTerms files maxTerms =
    (leading rankKey n (termCounts files).rows).map TermCount.term ∧
      (0 ≤ maxTerms → n = maxTerms.toNat) := by
  refine ⟨_, rfl, fun h => if_pos h⟩

theorem ftsTerms_nodup (files : List DiffFile) (maxTerms : ℤ) :
    (ftsTerms files maxTerms).Nodup := by
  obtain ⟨n, hterms, -⟩ := ftsTerms_eq files maxTerms
  obtain ⟨rows, hsub, hperm⟩ := leading_sublist rankKey n (termCounts files).rows
  rw [hterms]
  exact ((hperm.map TermCount.term).nodup_iff.mpr (termCounts files).unique).sublist (hsub.map _)

theorem ftsTerms_heaviest (files : List DiffFile) (maxTerms : ℤ) :
    ∀ t ∈ ftsTerms files maxTerms, ∀ r ∈ (termCounts files).rows,
      r.term ∉ ftsTerms files maxTerms → r.count ≤ countOf (termCounts files) t := by
  obtain ⟨n, hterms, -⟩ := ftsTerms_eq files maxTerms
  rw [hterms]
  intro t ht r hr hout
  obtain ⟨s, hs, rfl⟩ := List.mem_map.mp ht
  have hle := le_of_left_out rankKey hs hr fun h => hout (List.mem_map_of_mem h)
  rw [countOf_row (mem_of_mem_leading rankKey hs)]
  rcases Prod.Lex.toLex_le_toLex.mp hle with hlt | ⟨heq, -⟩
  · simp only at hlt
    omega
  · simp only at heq
    omega

theorem mem_path_or_wellFormed {files : List DiffFile} {t : String} (h : t ∈ mentions files) :
    (∃ f ∈ files, t ∈ pathTerms f.path) ∨ WellFormed t := by
  rcases List.mem_append.mp h with h | h
  · exact .inl (List.mem_flatMap.mp h)
  · obtain ⟨line, -, ht⟩ := List.mem_flatMap.mp h
    exact .inr (wellFormed_of_line ht)

/-- The query is what it is meant to be exactly if the cap is one, no added line passes
for a file's header, and what a path alone lets through is outranked. -/
theorem fts_exact_iff (files : List DiffFile) (maxTerms : ℤ) :
    FtsExact files maxTerms ↔ 0 ≤ maxTerms ∧
      (∀ line ∈ diffLines files, imitates line = true → lineTerms line = []) ∧
      ∀ f ∈ files, ∀ t ∈ pathTerms f.path, ¬ WellFormed t →
        maxTerms ≤ ahead (rankOf files) (mentions files).dedup (rankOf files t) := by
  constructor
  · intro h
    have hmax : 0 ≤ maxTerms := (Int.natCast_nonneg _).trans h.few
    refine ⟨hmax, (counts_exact_iff files).mp h.counted, fun f hf t ht hbad => ?_⟩
    by_contra hlt
    have hmention : t ∈ mentions files := List.mem_append_left _ (List.mem_flatMap.mpr ⟨f, hf, ht⟩)
    exact hbad (h.formed t ((mem_ftsTerms h.counted hmax t).mpr ⟨hmention, not_le.mp hlt⟩)).1
  · rintro ⟨hmax, himitates, hpaths⟩
    have hcounted := (counts_exact_iff files).mpr himitates
    refine ⟨rfl, ?_, ftsTerms_nodup files maxTerms, fun t ht => ?_, hcounted,
      ftsTerms_heaviest files maxTerms⟩
    · obtain ⟨n, hterms, hn⟩ := ftsTerms_eq files maxTerms
      rw [hterms, List.length_map, length_leading, hn hmax]
      omega
    · obtain ⟨hmention, hlt⟩ := (mem_ftsTerms hcounted hmax t).mp ht
      refine ⟨?_, ?_⟩
      · by_contra hbad
        obtain ⟨f, hf, hpath⟩ := (mem_path_or_wellFormed hmention).resolve_right hbad
        exact absurd hlt (not_lt.mpr (hpaths f hf t hpath hbad))
      · rcases List.mem_append.mp hmention with h | h
        · obtain ⟨f, -, hpath⟩ := List.mem_flatMap.mp h
          exact not_stopword hpath
        · obtain ⟨line, -, hline⟩ := List.mem_flatMap.mp h
          exact not_stopword hline

end Interp

def spacedPath : DiffFile where
  path := "docs/release notes.md"

def incremented : DiffFile where
  path := "a.c"
  hunks := [{ oldStart := 1, oldLines := 0, newStart := 1, newLines := 1,
              text := "@@ -1,0 +1 @@\n+++retry_count;" }]

theorem change_misread :
    let _ := asciiInterp
    ¬ FtsExact [spacedPath] 24 ∧ ¬ FtsExact [incremented] 24 := by
  intro _
  constructor
  · intro h
    have hterm : "release notes" ∈ ftsTerms [spacedPath] 24 := by decide +kernel
    have hword := (h.formed _ hterm).1.2 ' ' (by decide)
    revert hword
    decide +kernel
  · intro h
    have hcount := h.counted "retry_count"
    revert hcount
    decide +kernel

end PrSentinel
