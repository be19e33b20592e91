import PrSentinel.Prompt

/-!
What the agents are told of a pull request. Files are lost in two places: the page
loop stops at a cap, and the prompt leaves out what its budget does not hold. Only
the second is disclosed.
-/

set_option autoImplicit false

namespace PrSentinel
open Python

def perPage : ℕ := 100
def maxFiles : ℕ := 300

section Listing
variable [Interp]

/-- The loop of `list_files`, from a page on; `request` is what GitHub answers. -/
def listFrom (request : ℕ → List PullFile) (cap page : ℕ) (files : List DiffFile) :
    Except Exc (List DiffFile) :=
  if _ : files.length < cap then
    if _ : request page = [] then .ok files
    else
      match _ : (request page).mapM buildDiffFile with
      | .error e => .error e
      | .ok built =>
        if (request page).length < perPage then .ok (files ++ built)
        else listFrom request cap (page + 1) (files ++ built)
  else .ok files
termination_by cap - files.length
decreasing_by
  rename_i _ hbatch hbuilt _
  have hlength := (forall₂_of_mapM hbuilt).length_eq
  have hpos := List.length_pos_of_ne_nil hbatch
  rw [List.length_append]
  omega

def listFiles (request : ℕ → List PullFile) (cap : ℕ := maxFiles) :
    Except Exc (List DiffFile) := do
  let files ← listFrom request cap 1 []
  pure (files.take cap)

/-- GitHub gives a listing out page by page, every page full but for the last. -/
def Serves (request : ℕ → List PullFile) (listing : List PullFile) : Prop :=
  ∀ k, request (k + 1) = (listing.drop (perPage * k)).take perPage

theorem listFrom_eq {request : ℕ → List PullFile} {listing : List PullFile}
    (hserves : Serves request listing) (cap k rounds : ℕ) (files : List DiffFile)
    (hlength : files.length = perPage * k) (hcap : cap ≤ perPage * (k + rounds))
    (hlast : perPage * (k + rounds) < cap + perPage) :
    listFrom request cap (k + 1) files = (do
      let more ← ((listing.drop (perPage * k)).take (perPage * rounds)).mapM buildDiffFile
      pure (files ++ more)) := by
  induction rounds generalizing k files with
  | zero =>
    have hfull : ¬ files.length < cap := by rw [hlength]; exact Nat.not_lt.mpr hcap
    rw [listFrom, dif_neg hfull]
    simp [pure, Except.pure, bind, Except.bind]
  | succ rounds ih =>
    have hroom : files.length < cap := by
      rw [hlength]
      simp only [perPage] at hlast ⊢
      omega
    have hpage := hserves k
    -- what is still to come is this page and what the later rounds ask for
    have hsplit : (listing.drop (perPage * k)).take (perPage * (rounds + 1)) =
        request (k + 1) ++ (listing.drop (perPage * (k + 1))).take (perPage * rounds) := by
      rw [hpage, Nat.mul_succ, Nat.add_comm, List.take_add, List.drop_drop, Nat.mul_succ]
    have hshort : (request (k + 1)).length < perPage →
        (listing.drop (perPage * (k + 1))).take (perPage * rounds) = [] := by
      intro hlt
      have hlength : listing.length ≤ perPage * (k + 1) := by
        rw [hpage, List.length_take, List.length_drop] at hlt
        simp only [perPage] at hlt ⊢
        omega
      rw [List.drop_eq_nil_of_le hlength, List.take_nil]
    rw [hsplit, List.mapM_append, listFrom, dif_pos hroom]
    split
    · rename_i hnil
      have hlt : (request (k + 1)).length < perPage := by simp [hnil, perPage]
      rw [hshort hlt, hnil]
      simp [pure, Except.pure, bind, Except.bind]
    · split
      · rename_i hbuilt
        rw [hbuilt]
        rfl
      · rename_i built hbuilt
        rw [hbuilt]
        split
        · rename_i hlt
          rw [hshort hlt]
          simp [pure, Except.pure, bind, Except.bind]
        · rename_i hfull
          have hbatch : built.length = perPage := by
            have hle : (request (k + 1)).length ≤ perPage := by
              rw [hpage]
              exact List.length_take_le _ _
            rw [← (forall₂_of_mapM hbuilt).length_eq]
            omega
          have hrest := ih (k + 1) (files ++ built)
            (by rw [List.length_append, hlength, hbatch, Nat.mul_succ])
            (by rwa [Nat.add_right_comm, Nat.add_assoc]) (by rwa [Nat.add_right_comm, Nat.add_assoc])
          have hok (rest : List DiffFile → Except Exc (List DiffFile)) :
              (Except.ok built >>= rest) = rest built := rfl
          rw [hrest]
          simp [hok]

theorem listFiles_eq {request : ℕ → List PullFile} {listing : List PullFile}
    (hserves : Serves request listing) :
    listFiles request = (listing.take maxFiles).mapM buildDiffFile := by
  have hloop := listFrom_eq hserves maxFiles 0 3 [] rfl (by decide) (by decide)
  rw [listFiles, hloop]
  have hasked : (listing.drop (perPage * 0)).take (perPage * 3) = listing.take maxFiles := rfl
  rw [hasked]
  cases hbuilt : (listing.take maxFiles).mapM buildDiffFile with
  | error e => rfl
  | ok built =>
    have hle : built.length ≤ maxFiles := by
      rw [← (forall₂_of_mapM hbuilt).length_eq]
      exact List.length_take_le _ _
    exact congrArg Except.ok (List.take_of_length_le hle)

end Listing

structure PullPayload where
  basePrivate : Option Bool := none
  title : Option String := none
  body : Option String := none
  login : Option String := none
  headSha : String
  baseSha : String
  baseRef : Option String := none

def pullRequestContext [Interp] (pull : PullPayload) (request : ℕ → List PullFile) (repo : String)
    (number repoGithubId : ℤ) : Except Exc PullRequestContext := do
  let files ← listFiles request
  pure {
    repoFullName := repo
    repoGithubId, number, files
    isPrivate := pull.basePrivate.getD true
    title := pull.title.getD ""
    body := upto 4000 (pull.body.getD "")
    author := pull.login.getD ""
    headSha := pull.headSha
    baseSha := pull.baseSha
    baseRef := pull.baseRef.getD "main" }

structure Retrieved where
  chunks : List CodeChunk := []
  conventions : List String := []
  indexDrift : Option String := none
  indexedSha : Option String := none

structure ReviewContext where
  pr : PullRequestContext
  diff : List Block
  truncated : Bool := false
  retrieved : Retrieved := {}

def ReviewContext.diffText (ctx : ReviewContext) : String :=
  join "\n\n" (ctx.diff.map Block.text)

def reviewContext (pr : PullRequestContext) (maxDiffBytes : ℤ) (retrieved : Retrieved) :
    ReviewContext :=
  let (diff, truncated) := renderBlocks maxDiffBytes 0 pr.files
  { pr, diff, truncated, retrieved }

theorem reviewContext_diffText (pr : PullRequestContext) (maxDiffBytes : ℤ)
    (retrieved : Retrieved) :
    ((reviewContext pr maxDiffBytes retrieved).diffText,
      (reviewContext pr maxDiffBytes retrieved).truncated) =
        renderForPrompt pr.files maxDiffBytes := rfl

def truncationNotice : String := "**This diff was truncated; unseen files exist.**"

def diffNotice (ctx : ReviewContext) : String := if ctx.truncated then truncationNotice else ""

def PullRequestContext.totalChanges (pr : PullRequestContext) : ℤ :=
  (pr.files.map fun f => f.additions + f.deletions).sum

def CodeChunk.render (c : CodeChunk) (maxChars : ℕ := 2400) : String :=
  let symbol := match c.symbol with
    | none => ""
    | some s => if s = "" then "" else "  (" ++ s ++ ")"
  let body := if c.content.toList.length ≤ maxChars then c.content
    else upto maxChars c.content ++ "\n… [truncated]"
  "--- " ++ c.filePath ++ ":" ++ toString c.startLine ++ "-" ++ toString c.endLine ++ symbol ++
    "\n" ++ body

def indexDriftNote (kind indexedSha : Option String) (baseSha : String) : Option String :=
  if kind = some "unindexed" then
    some ("This repository has no semantic index. " ++
      "Anything not in the diff is unknown; do not invent callers or conventions.")
  else if kind = some "stale" then
    some ("The semantic index is commit " ++ upto 12 (indexedSha.getD "") ++
      ", not this pull request's base " ++ upto 12 baseSha ++ ". " ++
      "Retrieved code may be stale. A disagreement between it and the diff is unresolved.")
  else none

/-- The blocks up to the first that does not fit. -/
def takeBlocks (maxChars : ℤ) : ℤ → List String → List String
  | _, [] => []
  | used, block :: blocks =>
    if maxChars < used + block.toList.length then []
    else block :: takeBlocks maxChars (used + block.toList.length) blocks

def ReviewContext.renderRepositoryContext (ctx : ReviewContext) (maxChars : ℤ) : String :=
  let body := if ctx.retrieved.chunks = [] then
      "(no repository context retrieved — treat unseen code as unknown)"
    else join "\n\n" (takeBlocks maxChars 0 (ctx.retrieved.chunks.map fun c => c.render))
  match indexDriftNote ctx.retrieved.indexDrift ctx.retrieved.indexedSha ctx.pr.baseSha with
  | none => body
  | some note => note ++ "\n\n" ++ body

def ReviewContext.renderConventions (ctx : ReviewContext) : String :=
  if ctx.retrieved.conventions = [] then "(none recorded)"
  else join "\n" (ctx.retrieved.conventions.map fun c => "- " ++ c)

def messageHead (retrievalContextChars : ℤ) (ctx : ReviewContext) : String :=
  "# Pull request\n" ++
  ctx.pr.repoFullName ++ "#" ++ toString ctx.pr.number ++ " — " ++ ctx.pr.title ++ "\n" ++
  "Author: " ++ orElse ctx.pr.author "unknown" ++ " · " ++ toString ctx.pr.files.length ++
    " file(s) · " ++ toString ctx.pr.totalChanges ++ " changed line(s)\n\n" ++
  upto 1500 (orElse ctx.pr.body "(no description)") ++ "\n\n" ++
  "# Team conventions\n" ++ ctx.renderConventions ++ "\n\n" ++
  "# Repository context (retrieved, not part of this change)\n" ++
  ctx.renderRepositoryContext retrievalContextChars ++ "\n\n" ++
  "# The diff under review\n" ++
  "Line numbers in the left gutter are new-file line numbers. Cite those.\n"

def messageTail (focus : ReviewContext → String) (ctx : ReviewContext) : String :=
  "\n\n```diff\n" ++ ctx.diffText ++ "\n```\n\n# Your focus\n" ++ focus ctx ++ "\n"

def userMessage (focus : ReviewContext → String) (retrievalContextChars : ℤ)
    (ctx : ReviewContext) : String :=
  messageHead retrievalContextChars ctx ++ diffNotice ctx ++ messageTail focus ctx

def Warned (focus : ReviewContext → String) (retrievalContextChars : ℤ) (ctx : ReviewContext) :
    Prop :=
  userMessage focus retrievalContextChars ctx =
    messageHead retrievalContextChars ctx ++ truncationNotice ++ messageTail focus ctx

theorem warned_iff (focus : ReviewContext → String) (retrievalContextChars : ℤ)
    (ctx : ReviewContext) : Warned focus retrievalContextChars ctx ↔ ctx.truncated = true := by
  have hcancel : Warned focus retrievalContextChars ctx ↔ diffNotice ctx = truncationNotice := by
    rw [Warned, userMessage, ← String.toList_inj, ← String.toList_inj]
    simp only [String.toList_append, List.append_cancel_right_eq, List.append_cancel_left_eq]
  have hne : ¬ "" = truncationNotice := by decide +kernel
  rw [hcancel]
  cases h : ctx.truncated <;> simp [diffNotice, h, hne]

def isMarker (line : List Char) : Bool := line.head? = some '\\'

section Rendering
variable [Interp]

/-- The line of the block that a line of the patch is rendered as. -/
inductive Renders : List Char → PromptLine → Prop where
  | header {line : List Char} {m : HeaderMatch} {h : Hunk} (hmatch : matchHeader line = some m)
      (hopen : openHunk m = .ok h.bare) : Renders line (.hunk h)
  | added (n : ℤ) (code : List Char) : Renders ('+' :: code) (.gutter n " + " code)
  | removed (code : List Char) : Renders ('-' :: code) (.removed code)
  | context (n : ℤ) (code : List Char) : Renders (' ' :: code) (.gutter n "   " code)
  | bare {line : List Char} (n : ℤ) (hplain : matchHeader line = none)
      (hhead : line.head? ∉ [some '+', some '-', some '\\', some ' ']) :
      Renders line (.gutter n "   " line)

/-- Every line of the patch is in the block, but for the markers of a missing line feed. -/
def RenderedWhole (f : DiffFile) : Prop :=
  List.Forall₂ Renders ((splitLines f.patch.toList).filter (!isMarker ·)) (renderFile f)

/-- Nothing comes before the first header, and no hunk ends in an empty line. -/
def DiffFile.Complete (f : DiffFile) : Prop :=
  (∀ line ∈ (splitLines f.patch.toList).takeWhile (matchHeader · |>.isNone), isMarker line = true) ∧
    ∀ h ∈ f.hunks, endswith h.text "\n" = false

omit [Interp] in
theorem isMarker_skipped {line : List Char} (h : isMarker line = true) :
    markOf line = .skipped := mark_skipped.mpr (.inr (by simpa [isMarker] using h))

theorem isMarker_header {line : List Char} {m : HeaderMatch} (h : matchHeader line = some m) :
    isMarker line = false := by
  cases hmarker : isMarker line with
  | false => rfl
  | true =>
    have hmark := mark_of_header h
    rw [isMarker_skipped hmarker] at hmark
    cases hmark

theorem renderLines_renders (n : ℤ) {lines : List (List Char)}
    (hplain : ∀ line ∈ lines, matchHeader line = none) :
    List.Forall₂ Renders (lines.filter (!isMarker ·)) (renderLines n lines) := by
  induction lines generalizing n with
  | nil => exact .nil
  | cons line lines ih =>
    rw [List.forall_mem_cons] at hplain
    obtain ⟨hline, hrest⟩ := hplain
    simp only [renderLines]
    split
    · exact .cons (.added _ _) (ih _ hrest)
    · exact .cons (.removed _) (ih _ hrest)
    · exact ih _ hrest
    · exact .cons (.context _ _) (ih _ hrest)
    · rename_i hadded hremoved hmarker hblank
      have hhead : line.head? ∉ [some '+', some '-', some '\\', some ' '] := by
        cases line with
        | nil => simp
        | cons c cs =>
          simp only [List.head?_cons, List.mem_cons, Option.some.injEq, List.not_mem_nil, or_false]
          rintro (rfl | rfl | rfl | rfl)
          · exact hadded cs rfl
          · exact hremoved cs rfl
          · exact hmarker cs rfl
          · exact hblank cs rfl
      have hkept : (!isMarker line) = true := by simp_all [isMarker]
      rw [List.filter_cons_of_pos (p := (!isMarker ·)) hkept]
      exact .cons (.bare _ hline hhead) (ih _ hrest)

theorem Hunk.Reads.renders {h : Hunk} {first : List Char} {body : List (List Char)}
    (hreads : h.Reads first body) :
    ∃ shown, List.Forall₂ Renders shown (renderHunk h) ∧
      (first :: body).filter (!isMarker ·) =
        shown ++ if endswith h.text "\n" then [[]] else [] := by
  obtain ⟨m, hmatch, hopen⟩ := hreads.header
  have hplain : ∀ line ∈ (splitLines h.text.toList).tail, matchHeader line = none := by
    intro line hline
    exact hreads.plain line (by rw [hreads.tail]; exact List.mem_append_left _ hline)
  have hfirst : (!isMarker first) = true := by simp [isMarker_header hmatch]
  have hempty : [([] : List Char)].filter (!isMarker ·) = [[]] := rfl
  refine ⟨_, .cons (.header hmatch hopen) (renderLines_renders (h.newStart - 1) hplain), ?_⟩
  have htail := congrArg (List.filter (!isMarker ·)) hreads.tail
  rw [List.filter_cons_of_pos (p := (!isMarker ·)) hfirst, htail, List.filter_append, List.cons_append]
  split
  · rw [hempty]
  · rfl

theorem pieces_render {hunks : List Hunk} {pieces : List (List Char × List (List Char))}
    (h : List.Forall₂ (fun h p => Hunk.Reads h p.1 p.2) hunks pieces) :
    ((pieces.flatMap fun p => p.1 :: p.2).filter (!isMarker ·)).length =
        (hunks.flatMap renderHunk).length + hunks.countP (fun h => endswith h.text "\n") ∧
      ((∀ hunk ∈ hunks, endswith hunk.text "\n" = false) →
        List.Forall₂ Renders ((pieces.flatMap fun p => p.1 :: p.2).filter (!isMarker ·))
          (hunks.flatMap renderHunk)) := by
  induction h with
  | nil => exact ⟨rfl, fun _ => .nil⟩
  | cons hreads _ ih =>
    obtain ⟨shown, hshown, hfilter⟩ := hreads.renders
    obtain ⟨hlength, hwhole⟩ := ih
    rw [List.flatMap_cons, List.flatMap_cons, List.filter_append, hfilter]
    constructor
    · rw [List.length_append, List.length_append, List.length_append, List.countP_cons, hlength,
        hshown.length_eq]
      split <;> simp <;> omega
    · intro hends
      rw [List.forall_mem_cons] at hends
      rw [hends.1]
      simp only [Bool.false_eq_true, if_false, List.append_nil]
      exact List.rel_append hshown (hwhole hends.2)

theorem takeWhile_prelude {prelude : List (List Char)}
    {pieces : List (List Char × List (List Char))} {hunks : List Hunk}
    (hprelude : ∀ line ∈ prelude, matchHeader line = none)
    (h : List.Forall₂ (fun h p => Hunk.Reads h p.1 p.2) hunks pieces) :
    (prelude ++ pieces.flatMap fun p => p.1 :: p.2).takeWhile (matchHeader · |>.isNone) =
      prelude := by
  have hrest : (pieces.flatMap fun p => p.1 :: p.2).takeWhile (matchHeader · |>.isNone) = [] := by
    cases h with
    | nil => rfl
    | cons hreads _ =>
      obtain ⟨m, hmatch, -⟩ := hreads.header
      rw [List.flatMap_cons, List.cons_append, List.takeWhile_cons_of_neg (by simp [hmatch])]
  rw [List.takeWhile_append_of_pos (by simpa using hprelude), hrest, List.append_nil]

theorem renderedWhole_iff {f : DiffFile} (h : Divides f.hunks (splitLines f.patch.toList)) :
    RenderedWhole f ↔ f.Complete := by
  obtain ⟨prelude, pieces, hprelude, hlines, hpieces⟩ := h
  obtain ⟨hlength, hwhole⟩ := pieces_render hpieces
  have htake := takeWhile_prelude hprelude hpieces
  rw [RenderedWhole, DiffFile.Complete, hlines, htake, List.filter_append, renderFile]
  constructor
  · intro hrendered
    have htotal := hrendered.length_eq
    rw [List.length_append, hlength] at htotal
    have hnone : (prelude.filter (!isMarker ·)).length = 0 := by omega
    have hends : f.hunks.countP (fun h => endswith h.text "\n") = 0 := by omega
    constructor
    · simpa using List.filter_eq_nil_iff.mp (List.eq_nil_of_length_eq_zero hnone)
    · simpa using List.countP_eq_zero.mp hends
  · rintro ⟨hmarkers, hends⟩
    have hnone : prelude.filter (!isMarker ·) = [] :=
      List.filter_eq_nil_iff.mpr (by simpa using hmarkers)
    rw [hnone, List.nil_append]
    exact hwhole hends

end Rendering

def totalSize (files : List DiffFile) : ℤ :=
  ((files.filter fun f => !f.binary).map renderedSize).sum

def OverBudget (maxBytes : ℤ) (files : List DiffFile) : Prop :=
  (∃ f ∈ files, f.binary = false) ∧ maxBytes < totalSize files

theorem renderedSize_nonneg (f : DiffFile) : 0 ≤ renderedSize f := Int.natCast_nonneg _

theorem totalSize_nonneg (files : List DiffFile) : 0 ≤ totalSize files := by
  refine List.sum_nonneg fun n hn => ?_
  obtain ⟨f, -, rfl⟩ := List.mem_map.mp hn
  exact renderedSize_nonneg f

theorem totalSize_binary {files : List DiffFile} (h : ¬ ∃ f ∈ files, f.binary = false) :
    totalSize files = 0 := by
  have hnone : files.filter (fun f => !f.binary) = [] := by
    refine List.filter_eq_nil_iff.mpr fun f hf => ?_
    have hbinary : f.binary ≠ false := fun hb => h ⟨f, hf, hb⟩
    simpa using hbinary
  rw [totalSize, hnone]
  rfl

theorem truncated_iff (maxBytes used : ℤ) (files : List DiffFile) :
    (renderBlocks maxBytes used files).2 = true ↔
      (∃ f ∈ files, f.binary = false) ∧ maxBytes < used + totalSize files := by
  induction files generalizing used with
  | nil => simp [renderBlocks]
  | cons f files ih =>
    have hrest := totalSize_nonneg files
    rw [renderBlocks]
    by_cases hbinary : f.binary = true
    · have htotal : totalSize (f :: files) = totalSize files := by simp [totalSize, hbinary]
      simp only [hbinary, if_true, ih, htotal, List.exists_mem_cons_iff, Bool.true_eq_false,
        false_or]
    · have htotal : totalSize (f :: files) = renderedSize f + totalSize files := by
        simp [totalSize, hbinary]
      have hsome : ∃ g ∈ f :: files, g.binary = false :=
        ⟨f, List.mem_cons_self, by simpa using hbinary⟩
      by_cases hover : maxBytes < used + renderedSize f
      · simp only [hbinary, hover, Bool.false_eq_true, if_true, if_false, hsome, true_and, true_iff]
        omega
      · simp only [hbinary, hover, Bool.false_eq_true, if_false, ih, hsome, true_and, htotal]
        constructor
        · rintro ⟨-, h⟩
          omega
        · intro h
          refine ⟨?_, by omega⟩
          by_contra hnone
          rw [totalSize_binary hnone] at h
          omega

def wholeBlock (f : DiffFile) : Block := if f.binary then .binary f else .shown f

theorem renderBlocks_whole {maxBytes used : ℤ} {files : List DiffFile}
    (h : (renderBlocks maxBytes used files).2 = false) :
    (renderBlocks maxBytes used files).1 = files.map wholeBlock := by
  induction files generalizing used with
  | nil => rfl
  | cons f files ih =>
    rw [renderBlocks] at h ⊢
    by_cases hbinary : f.binary = true
    · simp only [hbinary, if_true] at h ⊢
      simp [ih h, wholeBlock, hbinary]
    · by_cases hover : maxBytes < used + renderedSize f
      · simp [hbinary, hover] at h
      · simp only [hbinary, hover, Bool.false_eq_true, if_false] at h ⊢
        simp [ih h, wholeBlock, hbinary]

theorem reviewContext_truncated (pr : PullRequestContext) (maxDiffBytes : ℤ)
    (retrieved : Retrieved) : (reviewContext pr maxDiffBytes retrieved).truncated = true ↔
      OverBudget maxDiffBytes pr.files := by
  have hrender := truncated_iff maxDiffBytes 0 pr.files
  rwa [Int.zero_add] at hrender

theorem reviewContext_length (pr : PullRequestContext) (maxDiffBytes : ℤ) (retrieved : Retrieved) :
    (reviewContext pr maxDiffBytes retrieved).diff.length = pr.files.length :=
  length_renderBlocks maxDiffBytes 0 pr.files

section Disclosure
variable [Interp]

/-- The listed file has this block, with its whole patch if it has one. -/
def BlockOf (payload : PullFile) (block : Block) : Prop :=
  buildDiffFile payload = .ok block.file ∧
    (block.file.patch ≠ "" → block = .shown block.file ∧ RenderedWhole block.file)

/-- Every listed file has its block, or the agents are told that some have not. -/
def Disclosed (listing : List PullFile) (focus : ReviewContext → String)
    (retrievalContextChars : ℤ) (ctx : ReviewContext) : Prop :=
  List.Forall₂ BlockOf listing ctx.diff ∨ Warned focus retrievalContextChars ctx

theorem complete_of_no_patch {payload : PullFile} {f : DiffFile}
    (h : buildDiffFile payload = .ok f) (hpatch : f.patch = "") : f.Complete := by
  have hdivides := buildDiffFile_divides h
  rw [DiffFile.Complete, hpatch]
  rw [hpatch] at hdivides
  obtain ⟨prelude, pieces, -, hlines, hpieces⟩ := hdivides
  have hnone : pieces = [] := by
    cases pieces with
    | nil => rfl
    | cons p pieces => simp [splitLines] at hlines
  rw [hnone, List.forall₂_nil_right_iff] at hpieces
  simp [hpieces, splitLines]

theorem blockOf_wholeBlock {payload : PullFile} {f : DiffFile} (h : buildDiffFile payload = .ok f)
    (hcomplete : f.Complete) : BlockOf payload (wholeBlock f) := by
  have hfile : (wholeBlock f).file = f := by
    unfold wholeBlock
    split <;> rfl
  rw [BlockOf, hfile]
  refine ⟨h, fun hpatch => ⟨?_, (renderedWhole_iff (buildDiffFile_divides h)).mpr hcomplete⟩⟩
  obtain ⟨hunks, -, hbuild⟩ := ok_of_bind h
  cases hbuild
  simp only at hpatch
  simp [wholeBlock, hpatch]

theorem complete_of_blockOf {payload : PullFile} {block : Block} (h : BlockOf payload block) :
    block.file.Complete := by
  by_cases hpatch : block.file.patch = ""
  · exact complete_of_no_patch h.1 hpatch
  · exact (renderedWhole_iff (buildDiffFile_divides h.1)).mp (h.2 hpatch).2

def PullFile.Whole (payload : PullFile) : Prop :=
  ∀ f, buildDiffFile payload = .ok f → f.Complete

theorem pullRequestContext_files {request : ℕ → List PullFile} {listing : List PullFile}
    (hserves : Serves request listing) {files : List DiffFile}
    (hbuilt : (listing.take maxFiles).mapM buildDiffFile = .ok files) (pull : PullPayload)
    (repo : String) (number repoGithubId : ℤ) :
    ∃ pr, pullRequestContext pull request repo number repoGithubId = .ok pr ∧ pr.files = files := by
  rw [pullRequestContext, listFiles_eq hserves, hbuilt]
  exact ⟨_, rfl, rfl⟩

/-- The files are disclosed exactly when those asked for overrun the budget, so that
the notice is given, or when none was left unasked for and no patch loses a line. -/
theorem disclosed_iff {request : ℕ → List PullFile} {listing : List PullFile}
    (hserves : Serves request listing) {files : List DiffFile}
    (hbuilt : (listing.take maxFiles).mapM buildDiffFile = .ok files) (pull : PullPayload)
    (repo : String) (number repoGithubId maxDiffBytes : ℤ) (retrieved : Retrieved)
    (focus : ReviewContext → String) (retrievalContextChars : ℤ) :
    ∃ pr, pullRequestContext pull request repo number repoGithubId = .ok pr ∧
      (Disclosed listing focus retrievalContextChars (reviewContext pr maxDiffBytes retrieved) ↔
        OverBudget maxDiffBytes files ∨
          (listing.length ≤ maxFiles ∧ ∀ payload ∈ listing, payload.Whole)) := by
  obtain ⟨pr, hpr, rfl⟩ := pullRequestContext_files hserves hbuilt pull repo number repoGithubId
  refine ⟨pr, hpr, ?_⟩
  have htruncated := reviewContext_truncated pr maxDiffBytes retrieved
  have hfiles := forall₂_of_mapM hbuilt
  rw [Disclosed, warned_iff, htruncated, or_comm]
  constructor
  · rintro (hover | hshown)
    · exact .inl hover
    · refine .inr ⟨?_, ?_⟩
      · rw [hshown.length_eq, reviewContext_length, ← hfiles.length_eq]
        exact List.length_take_le _ _
      · intro payload hpayload f hbuild
        obtain ⟨block, -, hblock⟩ := exists_mem_of_forall₂ hshown hpayload
        obtain rfl : block.file = f := Except.ok.inj (hblock.1.symm.trans hbuild)
        exact complete_of_blockOf hblock
  · rintro (hover | ⟨hlength, hwhole⟩)
    · exact .inl hover
    · by_cases hover : OverBudget maxDiffBytes pr.files
      · exact .inl hover
      · right
        have hkept := Bool.eq_false_iff.mpr (mt htruncated.mp hover)
        have hdiff : (reviewContext pr maxDiffBytes retrieved).diff = pr.files.map wholeBlock :=
          renderBlocks_whole hkept
        rw [List.take_of_length_le hlength] at hfiles
        rw [hdiff, List.forall₂_map_right_iff]
        refine (List.forall₂_and_left _ _ |>.mpr ⟨hwhole, hfiles⟩).imp ?_
        rintro payload f ⟨hpayload, hbuild⟩
        exact blockOf_wholeBlock hbuild (hpayload f hbuild)

end Disclosure

def serve (listing : List PullFile) (page : ℕ) : List PullFile :=
  (listing.drop (perPage * (page - 1))).take perPage

theorem serve_serves (listing : List PullFile) : Serves (serve listing) listing := fun _ => rfl

theorem short_disclosed :
    let _ := asciiInterp
    ∃ pr, pullRequestContext { headSha := "h", baseSha := "b" } (serve [shortPayload]) "acme/app" 7 1 =
        .ok pr ∧
      Disclosed [shortPayload] (fun _ => "") 24000 (reviewContext pr 400000 {}) := by
  intro _
  have hbuild : buildDiffFile shortPayload = .ok shortFile := by decide +kernel
  have hbuilt : ([shortPayload].take maxFiles).mapM buildDiffFile = .ok [shortFile] := by
    decide +kernel
  obtain ⟨pr, hpr, hiff⟩ := disclosed_iff (serve_serves [shortPayload]) hbuilt
    { headSha := "h", baseSha := "b" } "acme/app" 7 1 400000 {} (fun _ => "") 24000
  refine ⟨pr, hpr, hiff.mpr (.inr ⟨by decide, fun payload hpayload f hf => ?_⟩)⟩
  rw [List.mem_singleton.mp hpayload, hbuild] at hf
  cases hf
  have hmarkers : (splitLines shortFile.patch.toList).takeWhile (matchHeader · |>.isNone) = [] := by
    decide +kernel
  have hends : ∀ h ∈ shortFile.hunks, endswith h.text "\n" = false := by decide +kernel
  exact ⟨by simp [hmarkers], hends⟩

def image (k : ℕ) : PullFile where
  filename := toString k ++ ".png"

theorem buildDiffFile_image [Interp] (k : ℕ) :
    buildDiffFile (image k) = .ok { path := (image k).filename, binary := true } := by
  simp [buildDiffFile, parsePatch, splitLines, ParseState.flush, image, pure, Except.pure, bind,
    Except.bind]

def crowded : List PullFile := (List.range maxFiles).map image ++ [shortPayload]

/-- The code is never asked for, and nothing says so. -/
theorem undisclosed_file :
    let _ := asciiInterp
    ¬ ∀ (request : ℕ → List PullFile) (listing : List PullFile) (pull : PullPayload) (repo : String)
      (number repoGithubId maxDiffBytes : ℤ) (retrieved : Retrieved)
      (focus : ReviewContext → String) (retrievalContextChars : ℤ) (pr : PullRequestContext),
      Serves request listing →
        pullRequestContext pull request repo number repoGithubId = .ok pr →
          Disclosed listing focus retrievalContextChars
            (reviewContext pr maxDiffBytes retrieved) := by
  intro _ h
  have hfirst : crowded.take maxFiles = (List.range maxFiles).map image :=
    List.take_left' (by simp)
  have hbuilt : (crowded.take maxFiles).mapM buildDiffFile =
      .ok ((List.range maxFiles).map fun k => { path := (image k).filename, binary := true }) := by
    have hbuild : buildDiffFile ∘ image =
        fun k => .ok { path := (image k).filename, binary := true } :=
      funext buildDiffFile_image
    rw [hfirst, List.mapM_map, hbuild]
    exact List.mapM_pure
  obtain ⟨pr, hpr, hfiles⟩ := pullRequestContext_files (serve_serves crowded) hbuilt
    { headSha := "h", baseSha := "b" } "acme/app" 7 1
  rcases h _ crowded _ "acme/app" 7 1 400000 {} (fun _ => "") 24000 pr (serve_serves crowded) hpr
    with hshown | hnotice
  · have hlength := hshown.length_eq
    rw [reviewContext_length, hfiles] at hlength
    simp [crowded] at hlength
  · rw [warned_iff, reviewContext_truncated] at hnotice
    obtain ⟨⟨f, hf, hbinary⟩, -⟩ := hnotice
    rw [hfiles] at hf
    obtain ⟨k, -, rfl⟩ := List.mem_map.mp hf
    cases hbinary

end PrSentinel
