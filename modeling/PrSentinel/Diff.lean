import PrSentinel.Models
import PrSentinel.PythonLines

set_option autoImplicit false

namespace PrSentinel
open Python

structure HeaderMatch where
  oldStart : List ℕ
  oldLines : Option (List ℕ)
  newStart : List ℕ
  newLines : Option (List ℕ)
  header : List Char

def dropLiteral : List Char → List Char → Option (List Char)
  | [], cs => some cs
  | x :: xs, c :: cs => if x = c then dropLiteral xs cs else none
  | _ :: _, [] => none

section Parse
variable [Interp]

def takeDigits : List Char → List ℕ × List Char
  | [] => ([], [])
  | c :: cs =>
    match Interp.decimal c with
    | some d => (d :: (takeDigits cs).1, (takeDigits cs).2)
    | none => ([], c :: cs)

def takeCount (cs : List Char) : Option (List ℕ) × List Char :=
  match cs with
  | ',' :: rest => if (takeDigits rest).1 = [] then (none, cs) else
      (some (takeDigits rest).1, (takeDigits rest).2)
  | _ => (none, cs)

/-- `_HUNK_HEADER.match(line)`. What follows a run of digits is no digit, so there
is nothing to backtrack to; a line holds no line feed, so the last group takes the rest. -/
def matchHeader (line : List Char) : Option HeaderMatch := do
  let cs ← dropLiteral "@@ -".toList line
  let (oldStart, cs) := takeDigits cs
  guard (oldStart ≠ [])
  let (oldLines, cs) := takeCount cs
  let cs ← dropLiteral " +".toList cs
  let (newStart, cs) := takeDigits cs
  guard (newStart ≠ [])
  let (newLines, cs) := takeCount cs
  let header ← dropLiteral " @@".toList cs
  pure { oldStart, oldLines, newStart, newLines, header }

def intOfDigits (ds : List ℕ) : Except Exc ℤ :=
  if maxStrDigits < ds.length then .error .valueError else .ok (ofDigits ds)

def openHunk (m : HeaderMatch) : Except Exc Hunk := do
  let oldStart ← intOfDigits m.oldStart
  let oldLines ← intOfDigits (m.oldLines.getD [1])
  let newStart ← intOfDigits m.newStart
  let newLines ← intOfDigits (m.newLines.getD [1])
  pure { oldStart, oldLines, newStart, newLines, header := strip (.ofList m.header) }

structure ParseState where
  hunks : List Hunk := []
  current : Option Hunk := none
  newLine : ℤ := 0
  buf : List String := []

def ParseState.flush (s : ParseState) : List Hunk :=
  match s.current with
  | none => s.hunks
  | some current => s.hunks ++ [{ current with text := join "\n" s.buf }]

def parseLine (s : ParseState) (line : List Char) : Except Exc ParseState :=
  match matchHeader line with
  | some m => do
    let current ← openHunk m
    pure { hunks := s.flush, current := some current, newLine := current.newStart - 1,
           buf := [.ofList line] }
  | none =>
    match s.current with
    | none => .ok s
    | some current =>
      let s := { s with buf := s.buf ++ [.ofList line] }
      match line.head? with
      | some '+' => .ok { s with
          newLine := s.newLine + 1
          current := some { current with addedLines := current.addedLines ++ [s.newLine + 1] } }
      | some '-' => .ok s
      | some '\\' => .ok s
      -- context: a leading space, or an empty line in some diffs
      | _ => .ok { s with
          newLine := s.newLine + 1
          current := some { current with contextLines := current.contextLines ++ [s.newLine + 1] } }

def parsePatch (patch : String) : Except Exc (List Hunk) := do
  let s ← (splitLines patch.toList).foldlM parseLine {}
  pure s.flush

/-- One element of `GET /pulls/{n}/files`, as far as it is read. -/
structure PullFile where
  filename : String
  previousFilename : Option String := none
  status : Option String := none
  additions : Option ℤ := none
  deletions : Option ℤ := none
  patch : Option String := none

def buildDiffFile (payload : PullFile) : Except Exc DiffFile := do
  let patch := payload.patch.getD ""
  let hunks ← parsePatch patch
  pure {
    path := payload.filename
    previousPath := payload.previousFilename
    status := payload.status.getD "modified"
    additions := payload.additions.getD 0
    deletions := payload.deletions.getD 0
    patch, hunks
    binary := patch = "" && payload.status ≠ some "removed" }

end Parse

def rightAlign (width : ℕ) (s : String) : String :=
  .ofList (List.replicate (width - s.toList.length) ' ' ++ s.toList)

inductive PromptLine where
  | hunk (h : Hunk)
  | gutter (number : ℤ) (sign : String) (code : List Char)
  | removed (code : List Char)

def PromptLine.text : PromptLine → String
  | .hunk h => "@@ -" ++ toString h.oldStart ++ "," ++ toString h.oldLines ++ " +" ++
      toString h.newStart ++ "," ++ toString h.newLines ++ " @@ " ++ h.header
  | .gutter number sign code => rightAlign 6 (toString number) ++ sign ++ .ofList code
  | .removed code => "       - " ++ .ofList code

/-- The lines of a hunk, when `n` was the last number given out. -/
def renderLines : ℤ → List (List Char) → List PromptLine
  | _, [] => []
  | n, line :: lines =>
    match line with
    | '+' :: code => .gutter (n + 1) " + " code :: renderLines (n + 1) lines
    | '-' :: code => .removed code :: renderLines n lines
    | '\\' :: _ => renderLines n lines
    | ' ' :: code => .gutter (n + 1) "   " code :: renderLines (n + 1) lines
    | code => .gutter (n + 1) "   " code :: renderLines (n + 1) lines

def renderHunk (h : Hunk) : List PromptLine :=
  .hunk h :: renderLines (h.newStart - 1) (splitLines h.text.toList).tail

def renderFile (f : DiffFile) : List PromptLine := f.hunks.flatMap renderHunk

def fileHeader (f : DiffFile) : String :=
  "+++ " ++ f.path ++ "  (" ++ f.status ++ ", +" ++ toString f.additions ++ "/-" ++
    toString f.deletions ++ ")"

def renderedText (f : DiffFile) : String :=
  join "\n" (fileHeader f :: (renderFile f).map PromptLine.text)

inductive Block where
  | binary (f : DiffFile)
  | omitted (f : DiffFile)
  | shown (f : DiffFile)

def Block.text : Block → String
  | .binary f => "+++ " ++ f.path ++ "\n[binary file, " ++ toString f.additions ++ " additions]"
  | .omitted f => "+++ " ++ f.path ++ "\n[omitted: diff budget exhausted]"
  | .shown f => renderedText f

def renderedSize (f : DiffFile) : ℤ := (renderedText f).toList.length

/-- The loop of `render_for_prompt`, when `used` characters are taken: the blocks,
and whether one had to be left out. -/
def renderBlocks (maxBytes : ℤ) : ℤ → List DiffFile → List Block × Bool
  | _, [] => ([], false)
  | used, f :: files =>
    if f.binary then
      let (blocks, truncated) := renderBlocks maxBytes used files
      (.binary f :: blocks, truncated)
    else if maxBytes < used + renderedSize f then
      (.omitted f :: (renderBlocks maxBytes used files).1, true)
    else
      let (blocks, truncated) := renderBlocks maxBytes (used + renderedSize f) files
      (.shown f :: blocks, truncated)

def renderForPrompt (files : List DiffFile) (maxBytes : ℤ) : String × Bool :=
  let (blocks, truncated) := renderBlocks maxBytes 0 files
  (join "\n\n" (blocks.map Block.text), truncated)

inductive Mark where
  | added | skipped | context
  deriving DecidableEq, Repr

def markOf (line : List Char) : Mark :=
  match line.head? with
  | some '+' => .added
  | some '-' => .skipped
  | some '\\' => .skipped
  | _ => .context

/-- The last number given out, when it was `n` before the line. -/
def numberAfter (n : ℤ) (line : List Char) : ℤ := if markOf line = .skipped then n else n + 1

def numbersAt (m : Mark) : ℤ → List (List Char) → List ℤ
  | _, [] => []
  | n, line :: lines =>
    (if markOf line = m then [n + 1] else []) ++ numbersAt m (numberAfter n line) lines

def counted (line : List Char) : Bool := markOf line ≠ .skipped

theorem mark_skipped {line : List Char} :
    markOf line = .skipped ↔ line.head? = some '-' ∨ line.head? = some '\\' := by
  unfold markOf
  split <;> simp_all

theorem numbersAt_skipped {m : Mark} (hm : m ≠ .skipped) (n : ℤ) {lines : List (List Char)}
    (h : ∀ line ∈ lines, markOf line = .skipped) (rest : List (List Char)) :
    numbersAt m n (lines ++ rest) = numbersAt m n rest := by
  induction lines with
  | nil => rfl
  | cons line lines ih =>
    have hline := h line List.mem_cons_self
    simp only [List.cons_append, numbersAt, numberAfter, hline, if_true, if_neg hm.symm,
      List.nil_append]
    exact ih fun l hl => h l (List.mem_cons_of_mem line hl)

theorem numbersAt_append (m : Mark) (n : ℤ) (lines rest : List (List Char)) :
    numbersAt m n (lines ++ rest) =
      numbersAt m n lines ++ numbersAt m (lines.foldl numberAfter n) rest := by
  induction lines generalizing n with
  | nil => rfl
  | cons line lines ih => simp [numbersAt, ih]

theorem numbersAt_length (n : ℤ) (lines : List (List Char)) :
    (numbersAt .added n lines).length + (numbersAt .context n lines).length =
      lines.countP counted := by
  induction lines generalizing n with
  | nil => rfl
  | cons line lines ih =>
    have hrest := ih (numberAfter n line)
    simp only [numbersAt, List.length_append, List.countP_cons, ← hrest]
    cases hmark : markOf line <;> simp [counted, hmark] <;> omega

section Loop
variable [Interp] {s : ParseState} {current : Hunk}

theorem mark_of_header {line : List Char} {m : HeaderMatch} (h : matchHeader line = some m) :
    markOf line = .context := by
  cases line with
  | nil => simp [matchHeader, dropLiteral] at h
  | cons c cs =>
    by_cases hc : c = '@'
    · subst hc
      rfl
    · simp [matchHeader, dropLiteral, Ne.symm hc] at h

theorem parseLine_body {line : List Char} (hs : s.current = some current)
    (hline : matchHeader line = none) :
    parseLine s line = .ok { s with
      buf := s.buf ++ [.ofList line]
      newLine := numberAfter s.newLine line
      current := some { current with
        addedLines := current.addedLines ++ numbersAt .added s.newLine [line]
        contextLines := current.contextLines ++ numbersAt .context s.newLine [line] } } := by
  simp only [parseLine, hline, hs]
  split
  · rename_i hhead
    have hmark : markOf line = .added := by simp [markOf, hhead]
    simp [numbersAt, numberAfter, hmark]
  · rename_i hhead
    have hmark : markOf line = .skipped := by simp [markOf, hhead]
    simp [numbersAt, numberAfter, hmark]
  · rename_i hhead
    have hmark : markOf line = .skipped := by simp [markOf, hhead]
    simp [numbersAt, numberAfter, hmark]
  · rename_i hadded hremoved hmarker
    have hmark : markOf line = .context := by
      unfold markOf
      split <;> simp_all
    simp [numbersAt, numberAfter, hmark]

theorem parseLine_header {line : List Char} {m : HeaderMatch} (hline : matchHeader line = some m)
    {hunk : Hunk} (hopen : openHunk m = .ok hunk) :
    parseLine s line = .ok { hunks := s.flush, current := some hunk,
                             newLine := hunk.newStart - 1, buf := [.ofList line] } := by
  simp only [parseLine, hline, hopen]
  rfl

theorem openHunk_empty {m : HeaderMatch} {hunk : Hunk} (h : openHunk m = .ok hunk) :
    hunk.addedLines = [] ∧ hunk.contextLines = [] ∧ hunk.text = "" := by
  obtain ⟨_, _, h⟩ := ok_of_bind h
  obtain ⟨_, _, h⟩ := ok_of_bind h
  obtain ⟨_, _, h⟩ := ok_of_bind h
  obtain ⟨_, _, h⟩ := ok_of_bind h
  cases h
  exact ⟨rfl, rfl, rfl⟩

omit [Interp] in
theorem flush_some (hs : s.current = some current) :
    s.flush = s.hunks ++ [{ current with text := join "\n" s.buf }] := by
  simp [ParseState.flush, hs]

theorem foldlM_body {lines : List (List Char)} (hs : s.current = some current)
    (hlines : ∀ line ∈ lines, matchHeader line = none) :
    lines.foldlM parseLine s = .ok { s with
      buf := s.buf ++ lines.map .ofList
      newLine := lines.foldl numberAfter s.newLine
      current := some { current with
        addedLines := current.addedLines ++ numbersAt .added s.newLine lines
        contextLines := current.contextLines ++ numbersAt .context s.newLine lines } } := by
  induction lines generalizing s current with
  | nil =>
    obtain ⟨hunks, cur, newLine, buf⟩ := s
    subst hs
    simp [numbersAt, pure, Except.pure]
  | cons line lines ih =>
    have hstep := parseLine_body hs (hlines line List.mem_cons_self)
    rw [List.foldlM_cons, hstep]
    simp only [bind, Except.bind]
    rw [ih rfl fun l hl => hlines l (List.mem_cons_of_mem line hl)]
    simp [numbersAt]

end Loop

section Parse
variable [Interp]

def Hunk.bare (h : Hunk) : Hunk := { h with addedLines := [], contextLines := [], text := "" }

/-- A hunk is its lines, a header and those below it: joined they are its text, and
its numbers are theirs. -/
structure Hunk.Reads (h : Hunk) (first : List Char) (body : List (List Char)) : Prop where
  header : ∃ m, matchHeader first = some m ∧ openHunk m = .ok h.bare
  plain : ∀ line ∈ body, matchHeader line = none
  text : h.text = join "\n" ((first :: body).map .ofList)
  added : h.addedLines = numbersAt .added (h.newStart - 1) body
  context : h.contextLines = numbersAt .context (h.newStart - 1) body
  clean : ∀ line ∈ first :: body, ∀ c ∈ line, isLineBreak c = false

theorem Hunk.Reads.first_ne_nil {h : Hunk} {first : List Char} {body : List (List Char)}
    (hreads : h.Reads first body) : first ≠ [] := by
  obtain ⟨m, hmatch, -⟩ := hreads.header
  rintro rfl
  simp [matchHeader, dropLiteral] at hmatch

/-- What comes before the first header belongs to no hunk; the rest is the hunks' lines. -/
def Divides (hunks : List Hunk) (lines : List (List Char)) : Prop :=
  ∃ (prelude : List (List Char)) (pieces : List (List Char × List (List Char))),
    (∀ line ∈ prelude, matchHeader line = none) ∧
    lines = prelude ++ pieces.flatMap (fun p => p.1 :: p.2) ∧
    List.Forall₂ (fun h p => Hunk.Reads h p.1 p.2) hunks pieces

theorem Divides.concat {hunks : List Hunk} {lines : List (List Char)} (h : Divides hunks lines)
    {hunk : Hunk} {first : List Char} {body : List (List Char)} (hreads : hunk.Reads first body) :
    Divides (hunks ++ [hunk]) (lines ++ first :: body) := by
  obtain ⟨prelude, pieces, hprelude, rfl, hpieces⟩ := h
  refine ⟨prelude, pieces ++ [(first, body)], hprelude, by simp, ?_⟩
  exact List.rel_append hpieces (.cons hreads .nil)

structure ParseState.Under (s : ParseState) (current : Hunk) (first : List Char)
    (body : List (List Char)) : Prop where
  buf : s.buf = (first :: body).map .ofList
  newLine : s.newLine = body.foldl numberAfter (current.newStart - 1)
  reads : { current with text := join "\n" s.buf }.Reads first body

/-- What the state says of the lines that were read. -/
def ParseState.Consistent (s : ParseState) (seen : List (List Char)) : Prop :=
  match s.current with
  | none => s.hunks = [] ∧ ∀ line ∈ seen, matchHeader line = none
  | some current => ∃ earlier first body, seen = earlier ++ first :: body ∧
      Divides s.hunks earlier ∧ s.Under current first body

theorem consistent_flush {s : ParseState} {seen : List (List Char)} (h : s.Consistent seen) :
    Divides s.flush seen := by
  unfold ParseState.Consistent at h
  cases hcurrent : s.current with
  | none =>
    rw [hcurrent] at h
    have hflush : s.flush = [] := by simp [ParseState.flush, hcurrent, h.1]
    rw [hflush]
    exact ⟨seen, [], h.2, by simp, .nil⟩
  | some current =>
    rw [hcurrent] at h
    obtain ⟨earlier, first, body, rfl, hearlier, hunder⟩ := h
    rw [flush_some hcurrent]
    exact hearlier.concat hunder.reads

theorem parseLine_consistent {s t : ParseState} {seen : List (List Char)} (h : s.Consistent seen)
    {line : List Char} (hclean : ∀ c ∈ line, isLineBreak c = false)
    (hstep : parseLine s line = .ok t) : t.Consistent (seen ++ [line]) := by
  cases hmatch : matchHeader line with
  | some m =>
    cases hopen : openHunk m with
    | error e => simp [parseLine, hmatch, hopen, bind, Except.bind] at hstep
    | ok hunk =>
      rw [parseLine_header hmatch hopen] at hstep
      cases hstep
      obtain ⟨hadded, hcontext, htext⟩ := openHunk_empty hopen
      have hbare : Hunk.bare { hunk with text := join "\n" [.ofList line] } = hunk := by
        cases hunk
        simp_all [Hunk.bare]
      refine ⟨seen, line, [], rfl, consistent_flush h, rfl, rfl, ?_⟩
      exact ⟨⟨m, hmatch, by rw [hbare]; exact hopen⟩, by simp, rfl, hadded, hcontext,
        by simpa using hclean⟩
  | none =>
    unfold ParseState.Consistent at h
    cases hcurrent : s.current with
    | none =>
      simp only [parseLine, hmatch, hcurrent] at hstep
      cases hstep
      rw [hcurrent] at h
      unfold ParseState.Consistent
      rw [hcurrent]
      refine ⟨h.1, fun l hl => ?_⟩
      rcases List.mem_append.mp hl with hl | hl
      · exact h.2 l hl
      · rw [List.mem_singleton.mp hl]
        exact hmatch
    | some current =>
      rw [parseLine_body hcurrent hmatch] at hstep
      cases hstep
      rw [hcurrent] at h
      obtain ⟨earlier, first, body, rfl, hearlier, hunder⟩ := h
      have hbuf : s.buf ++ [.ofList line] = (first :: (body ++ [line])).map .ofList := by
        simp [hunder.buf]
      have hreads := hunder.reads
      refine ⟨earlier, first, body ++ [line], by simp, hearlier, hbuf, ?_, hreads.header, ?_,
        congrArg _ hbuf, ?_, ?_, ?_⟩
      · simp [hunder.newLine]
      · intro l hl
        rcases List.mem_append.mp hl with hl | hl
        · exact hreads.plain l hl
        · rw [List.mem_singleton.mp hl]
          exact hmatch
      · have hadded := hreads.added
        simp only at hadded ⊢
        rw [numbersAt_append, ← hunder.newLine, hadded]
      · have hcontext := hreads.context
        simp only at hcontext ⊢
        rw [numbersAt_append, ← hunder.newLine, hcontext]
      · intro l hl
        rw [← List.cons_append] at hl
        rcases List.mem_append.mp hl with hl | hl
        · exact hreads.clean l hl
        · rw [List.mem_singleton.mp hl]
          exact hclean

theorem foldlM_consistent {s t : ParseState} {seen lines : List (List Char)}
    (h : s.Consistent seen) (hclean : ∀ line ∈ lines, ∀ c ∈ line, isLineBreak c = false)
    (hfold : lines.foldlM parseLine s = .ok t) : t.Consistent (seen ++ lines) := by
  induction lines generalizing s seen with
  | nil =>
    cases hfold
    rwa [List.append_nil]
  | cons line lines ih =>
    obtain ⟨u, hstep, hrest⟩ := ok_of_bind hfold
    have hu := parseLine_consistent h (hclean line List.mem_cons_self) hstep
    have ht := ih hu (fun l hl => hclean l (List.mem_cons_of_mem line hl)) hrest
    rwa [List.append_assoc] at ht

theorem parsePatch_divides {patch : String} {hunks : List Hunk}
    (h : parsePatch patch = .ok hunks) : Divides hunks (splitLines patch.toList) := by
  obtain ⟨t, hfold, hflush⟩ := ok_of_bind h
  cases hflush
  have hempty : ({} : ParseState).Consistent [] := ⟨rfl, by simp⟩
  exact consistent_flush (foldlM_consistent hempty (splitLines_pieces _) hfold)

theorem Divides.reads {hunks : List Hunk} {lines : List (List Char)} (h : Divides hunks lines) :
    ∀ hunk ∈ hunks, ∃ first body, hunk.Reads first body := by
  obtain ⟨-, pieces, -, -, hpieces⟩ := h
  intro hunk hmem
  obtain ⟨p, -, hreads⟩ := exists_mem_of_forall₂ hpieces hmem
  exact ⟨p.1, p.2, hreads⟩

theorem Divides.opens {hunks : List Hunk} {lines : List (List Char)} (h : Divides hunks lines)
    {line : List Char} (hline : line ∈ lines) {m : HeaderMatch}
    (hmatch : matchHeader line = some m) : ∃ hunk, openHunk m = .ok hunk := by
  obtain ⟨prelude, pieces, hprelude, rfl, hpieces⟩ := h
  rcases List.mem_append.mp hline with hline | hline
  · simp [hprelude line hline] at hmatch
  · obtain ⟨p, hp, hline⟩ := List.mem_flatMap.mp hline
    obtain ⟨hunk, -, hreads⟩ := exists_mem_of_forall₂ hpieces.flip hp
    rcases List.mem_cons.mp hline with rfl | hline
    · obtain ⟨m', hmatch', hopen⟩ := hreads.header
      obtain rfl : m' = m := Option.some.inj (hmatch'.symm.trans hmatch)
      exact ⟨hunk.bare, hopen⟩
    · simp [hreads.plain line hline] at hmatch

theorem buildDiffFile_divides {payload : PullFile} {f : DiffFile}
    (h : buildDiffFile payload = .ok f) : Divides f.hunks (splitLines f.patch.toList) := by
  obtain ⟨hunks, hparse, hfile⟩ := ok_of_bind h
  cases hfile
  exact parsePatch_divides hparse

end Parse

end PrSentinel
