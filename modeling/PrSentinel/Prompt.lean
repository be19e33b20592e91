import PrSentinel.Anchoring
import PrSentinel.Diff

/-!
What the prompt shows against what grounding accepts. Grounding looks a line up in
the parsed hunks of all files; the prompt walks the text of the hunks again, and of
the files that fit its budget only.
-/

set_option autoImplicit false

namespace PrSentinel
open Python

def Numbered (lines : List PromptLine) (n : ℤ) : Prop :=
  ∃ sign code, .gutter n sign code ∈ lines

def PromptLine.gutter? : PromptLine → Option (ℤ × String)
  | .gutter number sign _ => some (number, sign)
  | _ => none

def gutters (lines : List PromptLine) : List (ℤ × String) := lines.filterMap PromptLine.gutter?

theorem numbered_iff (lines : List PromptLine) (n : ℤ) :
    Numbered lines n ↔ ∃ sign, (n, sign) ∈ gutters lines := by
  have hgutter (line : PromptLine) (sign : String) :
      line.gutter? = some (n, sign) ↔ ∃ code, line = .gutter n sign code := by
    cases line <;> simp [PromptLine.gutter?]
  simp only [Numbered, gutters, List.mem_filterMap, hgutter]
  exact exists_congr fun sign => ⟨fun ⟨code, h⟩ => ⟨_, h, code, rfl⟩, fun ⟨_, h, code, heq⟩ =>
    ⟨code, heq ▸ h⟩⟩

/-- What stands in the gutter of a line, when `n` was the last number given out. -/
def gutterAt (n : ℤ) (line : List Char) : List (ℤ × String) :=
  match markOf line with
  | .added => [(n + 1, " + ")]
  | .skipped => []
  | .context => [(n + 1, "   ")]

theorem gutters_cons (n : ℤ) (line : List Char) (lines : List (List Char)) :
    gutters (renderLines n (line :: lines)) =
      gutterAt n line ++ gutters (renderLines (numberAfter n line) lines) := by
  simp only [renderLines]
  split
  · simp [gutters, PromptLine.gutter?, gutterAt, numberAfter, markOf]
  · simp [gutters, List.filterMap_cons, PromptLine.gutter?, gutterAt, numberAfter, markOf]
  · simp [gutters, gutterAt, numberAfter, markOf]
  · simp [gutters, PromptLine.gutter?, gutterAt, numberAfter, markOf]
  · rename_i hadded hremoved hmarker hblank
    have hmark : markOf line = .context := by
      cases line with
      | nil => rfl
      | cons c cs =>
        unfold markOf
        split <;> simp_all
    simp [gutters, PromptLine.gutter?, gutterAt, numberAfter, hmark]

theorem mem_gutterAt (n i : ℤ) (line : List Char) :
    (∃ sign, (i, sign) ∈ gutterAt n line) ↔ counted line = true ∧ i = n + 1 := by
  unfold gutterAt counted
  split <;> rename_i hmark <;> simp [hmark]

theorem numbered_renderLines (n i : ℤ) (lines : List (List Char)) :
    Numbered (renderLines n lines) i ↔ n < i ∧ i ≤ n + lines.countP counted := by
  induction lines generalizing n with
  | nil =>
    simp only [renderLines, Numbered, List.not_mem_nil, exists_false, List.countP_nil, false_iff]
    omega
  | cons line lines ih =>
    rw [numbered_iff, gutters_cons]
    simp only [List.mem_append, exists_or]
    rw [mem_gutterAt, ← numbered_iff, ih, List.countP_cons]
    by_cases hcounted : counted line = true
    · have hafter : numberAfter n line = n + 1 := if_neg (by simpa [counted] using hcounted)
      simp only [hcounted, hafter, true_and, if_true]
      push_cast
      omega
    · have hafter : numberAfter n line = n := if_pos (by simpa [counted] using hcounted)
      simp [hcounted, hafter]

theorem endswith_newline (s : String) : endswith s "\n" = true ↔ s.toList.getLast? = some '\n' := by
  rw [endswith, List.isSuffixOf_iff_suffix]
  constructor
  · rintro ⟨start, hstart⟩
    rw [← hstart]
    exact List.getLast?_concat
  · intro h
    obtain ⟨start, hstart⟩ := List.getLast?_eq_some_iff.mp h
    exact ⟨start, hstart.symm⟩

/-- The last number a hunk is shown with. An empty line at its end is lost with the line feed. -/
def Hunk.lastShown (h : Hunk) : ℤ :=
  h.newStart - 1 + h.addedLines.length + h.contextLines.length -
    if endswith h.text "\n" then 1 else 0

def Hunk.Numbers (h : Hunk) (n : ℤ) : Prop := h.newStart ≤ n ∧ n ≤ h.lastShown

theorem Hunk.Reads.tail [Interp] {h : Hunk} {first : List Char} {body : List (List Char)}
    (hreads : h.Reads first body) :
    body = (splitLines h.text.toList).tail ++ if endswith h.text "\n" then [[]] else [] := by
  have htext : h.text.toList = (textLines false (first :: body)).flatten := by
    rw [hreads.text, toList_join_lines]
  have hends : endswith h.text "\n" = true ↔ (first :: body).getLast? = some [] := by
    rw [endswith_newline, htext, getLast?_join hreads.first_ne_nil hreads.clean]
  rw [htext, splitLines_join hreads.clean]
  by_cases hlast : (first :: body).getLast? = some []
  · rw [if_pos hlast, if_pos (hends.mpr hlast)]
    obtain ⟨start, hstart⟩ := List.getLast?_eq_some_iff.mp hlast
    cases start with
    | nil => exact absurd (List.cons.inj hstart).1 hreads.first_ne_nil
    | cons head start =>
      rw [List.cons_append] at hstart
      obtain ⟨rfl, rfl⟩ := List.cons.inj hstart
      simp [List.dropLast_cons_of_ne_nil]
  · rw [if_neg hlast, if_neg (mt hends.mp hlast), List.append_nil]
    rfl

theorem Hunk.Reads.numbered [Interp] {h : Hunk} {first : List Char} {body : List (List Char)}
    (hreads : h.Reads first body) (n : ℤ) : Numbered (renderHunk h) n ↔ h.Numbers n := by
  have hcount : (h.addedLines.length + h.contextLines.length : ℤ) = body.countP counted := by
    rw [hreads.added, hreads.context]
    exact_mod_cast numbersAt_length (h.newStart - 1) body
  have hempty : counted [] = true := rfl
  have hlines : (body.countP counted : ℤ) = (splitLines h.text.toList).tail.countP counted +
      if endswith h.text "\n" then 1 else 0 := by
    have htail := congrArg (List.countP counted) hreads.tail
    rw [htail, List.countP_append]
    split <;> simp [hempty]
  have hheader (lines : List PromptLine) : Numbered (.hunk h :: lines) n ↔ Numbered lines n := by
    simp [Numbered]
  rw [renderHunk, hheader, numbered_renderLines, Hunk.Numbers, Hunk.lastShown]
  omega

theorem numbered_renderFile [Interp] {f : DiffFile} {lines : List (List Char)}
    (h : Divides f.hunks lines) (n : ℤ) :
    Numbered (renderFile f) n ↔ ∃ hunk ∈ f.hunks, hunk.Numbers n := by
  have hnumbered : Numbered (renderFile f) n ↔ ∃ hunk ∈ f.hunks, Numbered (renderHunk hunk) n := by
    constructor
    · rintro ⟨sign, code, hmem⟩
      obtain ⟨hunk, hhunk, hmem⟩ := List.mem_flatMap.mp hmem
      exact ⟨hunk, hhunk, sign, code, hmem⟩
    · rintro ⟨hunk, hhunk, sign, code, hmem⟩
      exact ⟨sign, code, List.mem_flatMap.mpr ⟨hunk, hhunk, hmem⟩⟩
  rw [hnumbered]
  refine exists_congr fun hunk => and_congr_right fun hmem => ?_
  obtain ⟨first, body, hreads⟩ := h.reads hunk hmem
  exact hreads.numbered n

def Block.file : Block → DiffFile
  | .binary f | .omitted f | .shown f => f

theorem renderBlocks_files (maxBytes used : ℤ) (files : List DiffFile) :
    (renderBlocks maxBytes used files).1.map Block.file = files := by
  induction files generalizing used with
  | nil => rfl
  | cons f files ih =>
    rw [renderBlocks]
    split
    · exact congrArg (f :: ·) (ih used)
    · split
      · exact congrArg (f :: ·) (ih used)
      · exact congrArg (f :: ·) (ih (used + renderedSize f))

theorem length_renderBlocks (maxBytes used : ℤ) (files : List DiffFile) :
    (renderBlocks maxBytes used files).1.length = files.length := by
  have hfiles := congrArg List.length (renderBlocks_files maxBytes used files)
  rwa [List.length_map] at hfiles

/-- What is taken once these files are through. -/
def usedAfter (maxBytes : ℤ) : ℤ → List DiffFile → ℤ
  | used, [] => used
  | used, f :: files =>
    usedAfter maxBytes (if f.binary ∨ maxBytes < used + renderedSize f then used
      else used + renderedSize f) files

def Fits (maxBytes used : ℤ) (files : List DiffFile) (f : DiffFile) : Prop :=
  ∃ before after, files = before ++ f :: after ∧ f.binary = false ∧
    usedAfter maxBytes used before + renderedSize f ≤ maxBytes

theorem fits_nil (maxBytes used : ℤ) (f : DiffFile) : ¬ Fits maxBytes used [] f := by
  rintro ⟨before, after, hfiles, -⟩
  simp at hfiles

theorem fits_cons (maxBytes used : ℤ) (first : DiffFile) (files : List DiffFile) (f : DiffFile) :
    Fits maxBytes used (first :: files) f ↔
      (f = first ∧ f.binary = false ∧ used + renderedSize f ≤ maxBytes) ∨
        Fits maxBytes (usedAfter maxBytes used [first]) files f := by
  constructor
  · rintro ⟨before, after, hfiles, hfits⟩
    cases before with
    | nil =>
      obtain ⟨rfl, rfl⟩ := List.cons.inj hfiles
      exact .inl ⟨rfl, hfits⟩
    | cons head before =>
      obtain ⟨rfl, rfl⟩ := List.cons.inj hfiles
      exact .inr ⟨before, after, rfl, hfits⟩
  · rintro (⟨rfl, hfits⟩ | ⟨before, after, rfl, hfits⟩)
    · exact ⟨[], files, rfl, hfits⟩
    · exact ⟨first :: before, after, rfl, hfits⟩

theorem shown_iff (maxBytes used : ℤ) (files : List DiffFile) (f : DiffFile) :
    .shown f ∈ (renderBlocks maxBytes used files).1 ↔ Fits maxBytes used files f := by
  induction files generalizing used with
  | nil => simp [renderBlocks, fits_nil]
  | cons first files ih =>
    rw [fits_cons, renderBlocks]
    by_cases hbinary : first.binary = true
    · have hused : usedAfter maxBytes used [first] = used := by simp [usedAfter, hbinary]
      have hfirst : ¬ (f = first ∧ f.binary = false ∧ used + renderedSize f ≤ maxBytes) := by
        rintro ⟨rfl, hf, -⟩
        simp [hbinary] at hf
      simp [hbinary, ih, hused, hfirst]
    · by_cases hover : maxBytes < used + renderedSize first
      · have hused : usedAfter maxBytes used [first] = used := by simp [usedAfter, hover]
        have hfirst : ¬ (f = first ∧ f.binary = false ∧ used + renderedSize f ≤ maxBytes) := by
          rintro ⟨rfl, -, hf⟩
          omega
        simp [hbinary, hover, ih, hused, hfirst]
      · have hused : usedAfter maxBytes used [first] = used + renderedSize first := by
          simp [usedAfter, hbinary, hover]
        have hfirst : f = first → f.binary = false ∧ used + renderedSize f ≤ maxBytes := by
          rintro rfl
          exact ⟨by simpa using hbinary, by omega⟩
        simp only [hbinary, hover, if_false, Bool.false_eq_true, List.mem_cons, Block.shown.injEq,
          ih, hused]
        constructor
        · rintro (h | h)
          · exact .inl ⟨h, hfirst h⟩
          · exact .inr h
        · rintro (⟨h, -⟩ | h)
          · exact .inl h
          · exact .inr h

def Built [Interp] (files : List DiffFile) : Prop := ∀ f ∈ files, ∃ payload, buildDiffFile payload = .ok f

/-- A block of the path shows the line under its number. -/
def Shows (files : List DiffFile) (maxBytes : ℤ) (path : String) (n : ℤ) : Prop :=
  ∃ f, .shown f ∈ (renderBlocks maxBytes 0 files).1 ∧ f.path = path ∧ Numbered (renderFile f) n

/-- A listed file of the path fits, and one of its hunks reaches to the line. -/
def InView (files : List DiffFile) (maxBytes : ℤ) (path : String) (n : ℤ) : Prop :=
  ∃ f, Fits maxBytes 0 files f ∧ f.path = path ∧ ∃ hunk ∈ f.hunks, hunk.Numbers n

theorem Fits.mem {maxBytes used : ℤ} {files : List DiffFile} {f : DiffFile}
    (h : Fits maxBytes used files f) : f ∈ files := by
  obtain ⟨before, after, rfl, -⟩ := h
  simp

section Accepted
variable [Interp]

theorem shows_iff {files : List DiffFile} (hbuilt : Built files) (maxBytes : ℤ) (path : String)
    (n : ℤ) : Shows files maxBytes path n ↔ InView files maxBytes path n := by
  refine exists_congr fun f => ?_
  rw [shown_iff]
  refine and_congr_right fun hfits => and_congr_right fun _ => ?_
  obtain ⟨payload, hbuild⟩ := hbuilt f hfits.mem
  exact numbered_renderFile (buildDiffFile_divides hbuild) n

/-- Every accepted finding is about a line that was shown exactly when all lines of
the files a citation can name are in view. -/
theorem accepted_shown_iff [Pydantic] (pr : PullRequestContext) (maxBytes : ℤ)
    (hbuilt : Built pr.files) :
    (∀ (agent : AgentType) (id : UUID) (raw : List (String × Json)) (f : Finding) (snapped : Bool),
        ground agent id raw pr = .ok (some (f, snapped)) →
          Shows pr.files maxBytes f.filePath f.lineStart) ↔
      ∀ cited file, resolve pr cited = some file →
        ∀ n ∈ file.addressableLines, InView pr.files maxBytes file.path n := by
  constructor
  · intro h cited file hresolve n hn
    obtain ⟨f, hground, -, -, -, -, -, hpath, hstart, -⟩ := ground_straying hresolve hn hn le_rfl
      le_rfl .correctness 0
    have hshows := h .correctness 0 _ f false hground
    rw [hpath, hstart] at hshows
    exact (shows_iff hbuilt maxBytes file.path n).mp hshows
  · intro h agent id raw f snapped hground
    obtain ⟨cited, file, top, hresolve, hpath, -, hstart, -⟩ := ground_grounded hground
    rw [hpath]
    exact (shows_iff hbuilt maxBytes file.path f.lineStart).mpr (h cited file hresolve _ hstart)

end Accepted

def shortHunk : Hunk where
  oldStart := 1
  oldLines := 1
  newStart := 1
  newLines := 2
  addedLines := [2]
  contextLines := [1]
  text := "@@ -1 +1,2 @@\n a\n+b"

def shortFile : DiffFile where
  path := "app.py"
  additions := 1
  patch := "@@ -1 +1,2 @@\n a\n+b"
  hunks := [shortHunk]

def shortPayload : PullFile where
  filename := "app.py"
  additions := some 1
  patch := some "@@ -1 +1,2 @@\n a\n+b"

def shortPr : PullRequestContext where
  repoFullName := "acme/app"
  repoGithubId := 1
  number := 7
  files := [shortFile]

theorem shortPr_built :
    let _ := asciiInterp
    Built shortPr.files := by
  intro _ f hf
  rw [List.mem_singleton.mp hf]
  refine ⟨shortPayload, ?_⟩
  decide +kernel

/-- Under the default budget everything can be seen. -/
theorem short_accepted_shown :
    let _ := asciiInterp
    let _ := strictPydantic
    shortFile.addressableLines = [2, 1] ∧
      ∀ (agent : AgentType) (id : UUID) (raw : List (String × Json)) (f : Finding) (snapped : Bool),
        ground agent id raw shortPr = .ok (some (f, snapped)) →
          Shows shortPr.files 400000 f.filePath f.lineStart := by
  intro _ _
  refine ⟨rfl, (accepted_shown_iff shortPr 400000 shortPr_built).mpr ?_⟩
  intro cited file hresolve n hn
  have hfile : file = shortFile := List.mem_singleton.mp (file_eq_some (resolve_file hresolve)).1
  subst hfile
  have hfits : usedAfter 400000 0 [] + renderedSize shortFile ≤ 400000 := by decide +kernel
  have hlines : ∀ n ∈ shortFile.addressableLines, 1 ≤ n ∧ n ≤ shortHunk.lastShown := by
    decide +kernel
  exact ⟨shortFile, ⟨[], [], rfl, rfl, hfits⟩, rfl, shortHunk, List.mem_singleton_self _, hlines n hn⟩

/-- The file's block takes more than twenty characters; a finding about its new line is
accepted all the same. -/
theorem unseen_accepted :
    let _ := asciiInterp
    let _ := strictPydantic
    ¬ ∀ (pr : PullRequestContext) (maxBytes : ℤ), Built pr.files →
      ∀ (agent : AgentType) (id : UUID) (raw : List (String × Json)) (f : Finding) (snapped : Bool),
        ground agent id raw pr = .ok (some (f, snapped)) →
          Shows pr.files maxBytes f.filePath f.lineStart := by
  intro _ _ h
  have hresolve : resolve shortPr "app.py" = some shortFile := by decide +kernel
  have hline : (2 : ℤ) ∈ shortFile.addressableLines := by decide
  obtain ⟨f, hground, -⟩ := ground_straying hresolve hline hline le_rfl le_rfl .correctness 0
  obtain ⟨g, hshown, -⟩ := h shortPr 20 shortPr_built .correctness 0 _ f false hground
  obtain ⟨before, after, hfiles, -, hfits⟩ := (shown_iff 20 0 shortPr.files g).mp hshown
  have hlarge : 20 < renderedSize shortFile := by decide +kernel
  cases before with
  | nil =>
    obtain ⟨rfl, -⟩ := List.cons.inj hfiles
    simp only [usedAfter] at hfits
    omega
  | cons first before => simp [shortPr] at hfiles

end PrSentinel
