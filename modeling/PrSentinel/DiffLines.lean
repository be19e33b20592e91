import PrSentinel.Diff
import PrSentinel.Numerals

/-!
The line numbers a patch is parsed into, against those of the diff it was written
from. The diff counts lines that end in line feeds, the parser those of `splitlines`.
-/

set_option autoImplicit false

namespace PrSentinel
open Python

inductive BodyLine where
  | context (text : List Char)
  | added (text : List Char)
  | removed (text : List Char)
  | noNewline
  deriving DecidableEq, Repr

def BodyLine.chars : BodyLine → List Char
  | .context text => ' ' :: text
  | .added text => '+' :: text
  | .removed text => '-' :: text
  | .noNewline => '\\' :: " No newline at end of file".toList

def BodyLine.isAdded : BodyLine → Bool
  | .added _ => true
  | _ => false

def BodyLine.isContext : BodyLine → Bool
  | .context _ => true
  | _ => false

def BodyLine.inOld : BodyLine → Bool
  | .context _ | .removed _ => true
  | _ => false

def BodyLine.inNew : BodyLine → Bool
  | .context _ | .added _ => true
  | _ => false

/-- The new file's numbers, from `n` on, of the lines that are picked. -/
def numbersOf (pick : BodyLine → Bool) : ℤ → List BodyLine → List ℤ
  | _, [] => []
  | n, l :: ls => (if pick l then [n] else []) ++ numbersOf pick (if l.inNew then n + 1 else n) ls

/-- A hunk whose counts are those of its lines; a count of one may be left out. -/
structure UnifiedHunk where
  oldStart : ℕ
  newStart : ℕ
  body : List BodyLine
  heading : List Char := []
  oldOmitted : Bool := false
  newOmitted : Bool := false
  oldOne : oldOmitted = true → body.countP BodyLine.inOld = 1
  newOne : newOmitted = true → body.countP BodyLine.inNew = 1
  headingLine : '\n' ∉ heading
  bodyLines : ∀ l ∈ body, '\n' ∉ l.chars

/-- The pieces of a line but for the first begin as a removed line or a marker does. -/
def OnePiece (line : List Char) : Prop :=
  ∀ piece ∈ (splitLines line).tail, piece.head? = some '-' ∨ piece.head? = some '\\'

structure UnifiedDiff where
  hunks : List UnifiedHunk
  finalNewline : Bool := true

def rangeChars (start count : ℕ) (omitted : Bool) : List Char :=
  numeral start ++ if omitted then [] else ',' :: numeral count

namespace UnifiedHunk
variable (h : UnifiedHunk)

def oldLines : ℕ := h.body.countP BodyLine.inOld
def newLines : ℕ := h.body.countP BodyLine.inNew
def addedLines : List ℤ := numbersOf BodyLine.isAdded h.newStart h.body
def contextLines : List ℤ := numbersOf BodyLine.isContext h.newStart h.body

def ranges : List Char :=
  ['@', '@', ' ', '-'] ++ rangeChars h.oldStart h.oldLines h.oldOmitted ++ [' ', '+'] ++
    rangeChars h.newStart h.newLines h.newOmitted ++ [' ', '@', '@']

def lines : List (List Char) := (h.ranges ++ h.heading) :: h.body.map BodyLine.chars

def Numeric : Prop :=
  ∀ n ∈ [h.oldStart, h.oldLines, h.newStart, h.newLines], n < 10 ^ maxStrDigits

end UnifiedHunk

namespace UnifiedDiff
variable (d : UnifiedDiff)

def lines : List (List Char) := textLines d.finalNewline (d.hunks.flatMap UnifiedHunk.lines)

def patch : String := .ofList d.lines.flatten

/-- One parsed hunk for each hunk, with the numbers of its lines. -/
structure Exact [Interp] : Prop where
  parsed : ∃ hunks, parsePatch d.patch = .ok hunks ∧
    hunks.map (fun h => (h.addedLines, h.contextLines)) =
      d.hunks.map (fun h => (h.addedLines, h.contextLines))
  addressable : ∀ file : DiffFile, parsePatch d.patch = .ok file.hunks →
    ∀ n, n ∈ file.addressableLines ↔
      ∃ h ∈ d.hunks, (h.newStart : ℤ) ≤ n ∧ n ≤ (h.newStart : ℤ) + h.newLines - 1

def Numeric : Prop := ∀ h ∈ d.hunks, h.Numeric

/-- What follows another line boundary inside a line is passed over by the parser. -/
def Unbroken : Prop := ∀ line ∈ d.lines, OnePiece line

end UnifiedDiff

section Header

theorem dropLiteral_append (literal cs : List Char) :
    dropLiteral literal (literal ++ cs) = some cs := by
  induction literal with
  | nil => rfl
  | cons x literal ih => simp [dropLiteral, ih]

theorem intOfDigits_digitsOf (n : ℕ) :
    intOfDigits (digitsOf n) = if n < 10 ^ maxStrDigits then .ok (n : ℤ) else .error .valueError := by
  have hlength : (digitsOf n).length ≤ maxStrDigits ↔ n < 10 ^ maxStrDigits := by
    rw [digitsOf, List.length_map]
    exact numeral_length
  rw [intOfDigits, ofDigits_digitsOf]
  by_cases h : n < 10 ^ maxStrDigits
  · rw [if_neg (Nat.not_lt.mpr (hlength.mpr h)), if_pos h]
  · rw [if_pos (Nat.lt_of_not_le (mt hlength.mp h)), if_neg h]

variable [Interp]

theorem takeDigits_stop {c : Char} (hascii : isAscii c = true) (h : c.isDigit = false)
    (cs : List Char) : takeDigits (c :: cs) = ([], c :: cs) := by
  have hdecimal : Interp.decimal c = none := by
    rw [Interp.decimal_ascii c hascii, asciiDecimal, h]
    rfl
  simp [takeDigits, hdecimal]

theorem takeDigits_digits {cs rest : List Char} (hcs : ∀ c ∈ cs, c.isDigit = true)
    (hrest : takeDigits rest = ([], rest)) :
    takeDigits (cs ++ rest) = (cs.map fun c => c.toNat - '0'.toNat, rest) := by
  induction cs with
  | nil => exact hrest
  | cons c cs ih =>
    have hdecimal := decimal_digit (hcs c List.mem_cons_self)
    simp only [List.cons_append, takeDigits, hdecimal,
      ih fun x hx => hcs x (List.mem_cons_of_mem c hx), List.map_cons]

theorem takeDigits_numeral (n : ℕ) {c : Char} (hascii : isAscii c = true) (h : c.isDigit = false)
    (cs : List Char) : takeDigits (numeral n ++ c :: cs) = (digitsOf n, c :: cs) :=
  takeDigits_digits (fun _ => Nat.isDigit_of_mem_toDigits (by decide) (by decide))
    (takeDigits_stop hascii h cs)

theorem takeRange (start count : ℕ) (omitted : Bool) (cs : List Char) :
    ∃ rest, takeDigits (rangeChars start count omitted ++ ' ' :: cs) = (digitsOf start, rest) ∧
      takeCount rest = (if omitted then none else some (digitsOf count), ' ' :: cs) := by
  cases omitted with
  | true =>
    have hstart := takeDigits_numeral start (c := ' ') (by decide) (by decide) cs
    exact ⟨' ' :: cs, by simpa [rangeChars] using hstart, rfl⟩
  | false =>
    have hstart := takeDigits_numeral start (c := ',') (by decide) (by decide)
      (numeral count ++ ' ' :: cs)
    have hcount := takeDigits_numeral count (c := ' ') (by decide) (by decide) cs
    refine ⟨',' :: (numeral count ++ ' ' :: cs), by simpa [rangeChars] using hstart, ?_⟩
    simp [takeCount, hcount, digitsOf_ne_nil]

namespace UnifiedHunk
variable (h : UnifiedHunk)

def headerMatch (rest : List Char) : HeaderMatch where
  oldStart := digitsOf h.oldStart
  oldLines := if h.oldOmitted then none else some (digitsOf h.oldLines)
  newStart := digitsOf h.newStart
  newLines := if h.newOmitted then none else some (digitsOf h.newLines)
  header := rest

theorem matchHeader_ranges (rest : List Char) :
    matchHeader (h.ranges ++ rest) = some (h.headerMatch rest) := by
  obtain ⟨rest₁, hdigits₁, hcount₁⟩ := takeRange h.oldStart h.oldLines h.oldOmitted ('+' ::
    (rangeChars h.newStart h.newLines h.newOmitted ++ ' ' :: '@' :: '@' :: rest))
  obtain ⟨rest₂, hdigits₂, hcount₂⟩ := takeRange h.newStart h.newLines h.newOmitted ('@' :: '@' :: rest)
  have hchars : h.ranges ++ rest = "@@ -".toList ++ (rangeChars h.oldStart h.oldLines h.oldOmitted ++
      ' ' :: '+' :: (rangeChars h.newStart h.newLines h.newOmitted ++
        ' ' :: '@' :: '@' :: rest)) := by
    simp [ranges]
  have hplus (cs : List Char) : dropLiteral " +".toList (' ' :: '+' :: cs) = some cs :=
    dropLiteral_append [' ', '+'] cs
  have hat (cs : List Char) : dropLiteral " @@".toList (' ' :: '@' :: '@' :: cs) = some cs :=
    dropLiteral_append [' ', '@', '@'] cs
  have hguard (n : ℕ) : guard (f := Option) (digitsOf n ≠ []) = some () :=
    if_pos (digitsOf_ne_nil n)
  rw [hchars, matchHeader, dropLiteral_append]
  simp only [Option.bind_eq_bind, Option.bind_some, hdigits₁, hcount₁, hguard, hplus, hdigits₂,
    hcount₂, hat]
  rfl

theorem openHunk_headerMatch (rest : List Char) :
    (h.Numeric → openHunk (h.headerMatch rest) = .ok {
      oldStart := h.oldStart, oldLines := h.oldLines, newStart := h.newStart
      newLines := h.newLines, header := strip (.ofList rest) }) ∧
    ∀ hunk, openHunk (h.headerMatch rest) = .ok hunk → h.Numeric := by
  have hone : digitsOf 1 = [1] := by decide
  have hold : (h.headerMatch rest).oldLines.getD [1] = digitsOf h.oldLines := by
    cases homitted : h.oldOmitted with
    | false => simp [headerMatch, homitted]
    | true => simp [headerMatch, homitted, oldLines, h.oldOne homitted, hone]
  have hnew : (h.headerMatch rest).newLines.getD [1] = digitsOf h.newLines := by
    cases homitted : h.newOmitted with
    | false => simp [headerMatch, homitted]
    | true => simp [headerMatch, homitted, newLines, h.newOne homitted, hone]
  unfold openHunk
  rw [hold, hnew]
  constructor
  · intro hnumeric
    have hint {n : ℕ} (hn : n ∈ [h.oldStart, h.oldLines, h.newStart, h.newLines]) :
        intOfDigits (digitsOf n) = .ok (n : ℤ) := by
      rw [intOfDigits_digitsOf, if_pos (hnumeric n hn)]
    have hstarts : intOfDigits (h.headerMatch rest).oldStart = .ok (h.oldStart : ℤ) ∧
        intOfDigits (h.headerMatch rest).newStart = .ok (h.newStart : ℤ) :=
      ⟨hint (by simp), hint (by simp)⟩
    rw [hstarts.1, hstarts.2, hint (n := h.oldLines) (by simp), hint (n := h.newLines) (by simp)]
    rfl
  · intro hunk hok
    obtain ⟨a, ha, hok⟩ := ok_of_bind hok
    obtain ⟨b, hb, hok⟩ := ok_of_bind hok
    obtain ⟨c, hc, hok⟩ := ok_of_bind hok
    obtain ⟨e, he, -⟩ := ok_of_bind hok
    have hbound {n : ℕ} {m : ℤ} (hn : intOfDigits (digitsOf n) = .ok m) : n < 10 ^ maxStrDigits := by
      by_contra hlarge
      rw [intOfDigits_digitsOf, if_neg hlarge] at hn
      cases hn
    simp only [Numeric, List.forall_mem_cons, List.not_mem_nil, false_implies, implies_true, and_true]
    exact ⟨hbound ha, hbound hb, hbound hc, hbound he⟩

end UnifiedHunk

end Header

theorem splitLines_head {c : Char} (hc : isLineBreak c = false) (cs : List Char) :
    ∃ rest extra, splitLines (c :: cs) = (c :: rest) :: extra :=
  ⟨_, _, splitLines_cons hc cs⟩

theorem BodyLine.chars_head (l : BodyLine) : ∃ c cs, l.chars = c :: cs ∧
    isLineBreak c = false ∧ c ≠ '@' := by
  cases l with
  | context text | added text | removed text => exact ⟨_, text, rfl, by decide, by decide⟩
  | noNewline => exact ⟨'\\', " No newline at end of file".toList, rfl, by decide, by decide⟩

theorem OnePiece.marks {line : List Char} (h : OnePiece line) :
    ∀ piece ∈ (splitLines line).tail, markOf piece = .skipped :=
  fun piece hpiece => mark_skipped.mpr (h piece hpiece)

section Pieces
variable {m : Mark} {pick : BodyLine → Bool}

theorem numbersAt_pieces (hm : m ≠ .skipped) (hpick : ∀ l, markOf (BodyLine.chars l) = m ↔ pick l = true)
    (hnew : ∀ l, markOf (BodyLine.chars l) = .skipped ↔ l.inNew = false) (final : Bool)
    (body : List BodyLine) (n : ℤ)
    (hpieces : ∀ line ∈ textLines final (body.map BodyLine.chars), OnePiece line) :
    numbersAt m n ((textLines final (body.map BodyLine.chars)).flatMap splitLines) =
      numbersOf pick (n + 1) body := by
  induction body generalizing n with
  | nil => rfl
  | cons l body ih =>
    obtain ⟨c, cs, hchars, hbreak, -⟩ := l.chars_head
    obtain ⟨ending, hlines⟩ := textLines_cons final l.chars (body.map BodyLine.chars)
    rw [List.map_cons, hlines, List.forall_mem_cons] at hpieces
    obtain ⟨hline, hrest⟩ := hpieces
    rw [List.map_cons, hlines, List.flatMap_cons]
    obtain ⟨rest, extra, hsplit⟩ := splitLines_head hbreak (cs ++ ending)
    have hskipped : ∀ piece ∈ extra, markOf piece = .skipped := by
      have hmarks := hline.marks
      rwa [hchars, List.cons_append, hsplit] at hmarks
    rw [hchars, List.cons_append, hsplit]
    have hmark : markOf (c :: rest) = markOf l.chars := by rw [hchars]; rfl
    rw [List.cons_append, numbersAt, numbersAt_skipped hm _ hskipped, ih _ hrest, numbersOf,
      numberAfter, hmark]
    have hnext : (if markOf l.chars = .skipped then n else n + 1) + 1 =
        if l.inNew = true then n + 1 + 1 else n + 1 := by
      by_cases hl : l.inNew = true
      · simp [hl, hnew]
      · simp [(hnew l).mpr (by simpa using hl), hl]
    rw [hnext]
    simp only [hpick]

end Pieces

theorem mark_added (l : BodyLine) : markOf l.chars = .added ↔ l.isAdded = true := by
  cases l <;> simp [BodyLine.chars, markOf, BodyLine.isAdded]

theorem mark_context (l : BodyLine) : markOf l.chars = .context ↔ l.isContext = true := by
  cases l <;> simp [BodyLine.chars, markOf, BodyLine.isContext]

theorem mark_not_inNew (l : BodyLine) : markOf l.chars = .skipped ↔ l.inNew = false := by
  cases l <;> simp [BodyLine.chars, markOf, BodyLine.inNew]

section Parsing
variable [Interp]

theorem matchHeader_none {c : Char} (hc : c ≠ '@') (cs : List Char) :
    matchHeader (c :: cs) = none := by
  simp [matchHeader, dropLiteral, hc.symm]

theorem matchHeader_of_skipped {line : List Char} (h : markOf line = .skipped) :
    matchHeader line = none := by
  cases hmatch : matchHeader line with
  | none => rfl
  | some m => rw [mark_of_header hmatch] at h; cases h

theorem matchHeader_body {final : Bool} {body : List BodyLine}
    (hpieces : ∀ line ∈ textLines final (body.map BodyLine.chars), OnePiece line) :
    ∀ piece ∈ (textLines final (body.map BodyLine.chars)).flatMap splitLines,
      matchHeader piece = none := by
  intro piece hpiece
  obtain ⟨line, hline, hpiece⟩ := List.mem_flatMap.mp hpiece
  have hskipped := (hpieces line hline).marks
  obtain ⟨_, hl, ending, rfl⟩ := mem_textLines hline
  obtain ⟨l, -, rfl⟩ := List.mem_map.mp hl
  obtain ⟨c, cs, hchars, hbreak, hc⟩ := l.chars_head
  obtain ⟨rest, extra, hsplit⟩ := splitLines_head hbreak (cs ++ ending)
  rw [hchars, List.cons_append, hsplit] at hskipped hpiece
  rcases List.mem_cons.mp hpiece with rfl | hextra
  · exact matchHeader_none hc rest
  · exact matchHeader_of_skipped (hskipped piece hextra)

omit [Interp] in
theorem isLineBreak_digit {c : Char} (h : c.isDigit = true) : isLineBreak c = false := by
  obtain ⟨hlow, hhigh⟩ := Char.isDigit_iff_toNat.mp h
  have hbounds : 48 ≤ c.toNat ∧ c.toNat ≤ 57 := ⟨hlow, hhigh⟩
  simp only [isLineBreak, List.mem_cons, List.not_mem_nil, or_false, decide_eq_false_iff_not]
  omega

namespace UnifiedHunk
variable (h : UnifiedHunk)

omit [Interp] in
theorem ranges_clean : ∀ c ∈ h.ranges, isLineBreak c = false := by
  have hnumeral (n : ℕ) : ∀ c ∈ numeral n, isLineBreak c = false := fun c hc =>
    isLineBreak_digit (Nat.isDigit_of_mem_toDigits (by decide) (by decide) hc)
  have hrange (start count : ℕ) (omitted : Bool) :
      ∀ c ∈ rangeChars start count omitted, isLineBreak c = false := by
    intro c hc
    rcases List.mem_append.mp hc with hc | hc
    · exact hnumeral start c hc
    · cases omitted with
      | true => cases hc
      | false =>
        rcases List.mem_cons.mp hc with rfl | hc
        · decide
        · exact hnumeral count c hc
  have hopen : ∀ c ∈ ['@', '@', ' ', '-'], isLineBreak c = false := by simp [isLineBreak]
  have hplus : ∀ c ∈ [' ', '+'], isLineBreak c = false := by simp [isLineBreak]
  have hclose : ∀ c ∈ [' ', '@', '@'], isLineBreak c = false := by simp [isLineBreak]
  intro c hc
  simp only [ranges, List.mem_append] at hc
  rcases hc with (((hc | hc) | hc) | hc) | hc
  · exact hopen c hc
  · exact hrange _ _ _ c hc
  · exact hplus c hc
  · exact hrange _ _ _ c hc
  · exact hclose c hc

omit [Interp] in
theorem splitLines_header (ending : List Char) : ∃ rest extra,
    splitLines ((h.ranges ++ h.heading) ++ ending) = (h.ranges ++ rest) :: extra := by
  rw [List.append_assoc]
  exact ⟨_, _, splitLines_clean h.ranges_clean (by simp [ranges]) _⟩

theorem foldlM_hunk (hnumeric : h.Numeric) {final : Bool}
    (hpieces : ∀ line ∈ textLines final h.lines, OnePiece line) (s : ParseState) :
    ∃ t hunk, ((textLines final h.lines).flatMap splitLines).foldlM parseLine s = .ok t ∧
      t.flush = s.flush ++ [hunk] ∧
      (hunk.addedLines, hunk.contextLines) = (h.addedLines, h.contextLines) := by
  obtain ⟨ending, hlines⟩ :=
    textLines_cons final (h.ranges ++ h.heading) (h.body.map BodyLine.chars)
  rw [lines, hlines, List.forall_mem_cons] at hpieces
  obtain ⟨hheader, hbody⟩ := hpieces
  rw [lines, hlines, List.flatMap_cons]
  obtain ⟨rest, extra, hsplit⟩ := h.splitLines_header ending
  have hskipped : ∀ piece ∈ extra, markOf piece = .skipped := by
    have hmarks := hheader.marks
    rwa [hsplit] at hmarks
  rw [hsplit]
  obtain ⟨hopen, -⟩ := h.openHunk_headerMatch rest
  have hmatches : ∀ piece ∈ extra ++
      (textLines final (h.body.map BodyLine.chars)).flatMap splitLines, matchHeader piece = none := by
    intro piece hpiece
    rcases List.mem_append.mp hpiece with hextra | hpiece
    · exact matchHeader_of_skipped (hskipped piece hextra)
    · exact matchHeader_body hbody piece hpiece
  have hnumbers {m : Mark} {pick : BodyLine → Bool} (hm : m ≠ .skipped)
      (hpick : ∀ l, markOf (BodyLine.chars l) = m ↔ pick l = true) :
      numbersAt m ((h.newStart : ℤ) - 1) (extra ++
        (textLines final (h.body.map BodyLine.chars)).flatMap splitLines) =
      numbersOf pick h.newStart h.body := by
    rw [numbersAt_skipped hm _ hskipped, numbersAt_pieces hm hpick mark_not_inNew final h.body _ hbody,
      Int.sub_add_cancel]
  rw [List.cons_append, List.foldlM_cons,
    parseLine_header (h.matchHeader_ranges rest) (hopen hnumeric)]
  simp only [bind, Except.bind]
  rw [foldlM_body rfl hmatches]
  refine ⟨_, _, rfl, flush_some rfl, ?_⟩
  simp only [List.nil_append]
  rw [hnumbers (by simp) mark_added, hnumbers (by simp) mark_context]
  rfl

end UnifiedHunk

theorem foldlM_hunks (final : Bool) (hunks : List UnifiedHunk) (hnumeric : ∀ h ∈ hunks, h.Numeric)
    (hpieces : ∀ line ∈ textLines final (hunks.flatMap UnifiedHunk.lines), OnePiece line)
    (s : ParseState) :
    ∃ t parsed, ((textLines final (hunks.flatMap UnifiedHunk.lines)).flatMap splitLines).foldlM
        parseLine s = .ok t ∧ t.flush = s.flush ++ parsed ∧
      parsed.map (fun h => (h.addedLines, h.contextLines)) =
        hunks.map (fun h => (h.addedLines, h.contextLines)) := by
  induction hunks generalizing s with
  | nil => exact ⟨s, [], rfl, by simp, rfl⟩
  | cons h hunks ih =>
    simp only [List.flatMap_cons, textLines_append, List.mem_append, or_imp, forall_and] at hpieces
    obtain ⟨t, hunk, hfold, hflush, hnumbers⟩ :=
      h.foldlM_hunk (hnumeric h List.mem_cons_self) hpieces.1 s
    obtain ⟨u, parsed, hrest, hflush', hnumbers'⟩ :=
      ih (fun g hg => hnumeric g (List.mem_cons_of_mem h hg)) hpieces.2 t
    refine ⟨u, hunk :: parsed, ?_, by simp [hflush', hflush], by simp [hnumbers, hnumbers']⟩
    simp only [List.flatMap_cons, textLines_append, List.flatMap_append, List.foldlM_append]
    rw [hfold]
    exact hrest

def tally (hunks : List Hunk) : ℕ :=
  (hunks.map fun h => 1 + h.addedLines.length + h.contextLines.length).sum

theorem tally_of_divides {hunks : List Hunk} {first : List Char} {lines : List (List Char)}
    (h : Divides hunks (first :: lines)) (hfirst : matchHeader first ≠ none) :
    tally hunks = (first :: lines).countP counted := by
  obtain ⟨prelude, pieces, hprelude, hlines, hpieces⟩ := h
  have hnone : prelude = [] := by
    cases prelude with
    | nil => rfl
    | cons line prelude =>
      obtain ⟨rfl, -⟩ := List.cons.inj hlines
      exact absurd (hprelude first List.mem_cons_self) hfirst
  rw [hlines, hnone, List.nil_append]
  clear hlines
  induction hpieces with
  | nil => rfl
  | @cons hunk p hunks pieces hreads _ ih =>
    obtain ⟨m, hmatch, -⟩ := hreads.header
    have hheader : counted p.1 = true := by simp [counted, mark_of_header hmatch]
    have hbody := numbersAt_length (hunk.newStart - 1) p.2
    rw [← hreads.added, ← hreads.context] at hbody
    have htally : tally (hunk :: hunks) =
        1 + hunk.addedLines.length + hunk.contextLines.length + tally hunks := List.sum_cons
    rw [htally, ih, List.flatMap_cons, List.countP_append, List.countP_cons_of_pos hheader]
    omega

omit [Interp] in
theorem countP_pieces (final : Bool) {lines : List (List Char)}
    (hheads : ∀ line ∈ lines, ∃ c cs, line = c :: cs ∧ isLineBreak c = false) :
    ((textLines final lines).flatMap splitLines).countP counted = lines.countP counted +
      ((textLines final lines).flatMap fun line => (splitLines line).tail).countP counted := by
  induction lines with
  | nil => rfl
  | cons line lines ih =>
    obtain ⟨c, cs, rfl, hbreak⟩ := hheads line List.mem_cons_self
    have hrest := ih fun l hl => hheads l (List.mem_cons_of_mem _ hl)
    obtain ⟨ending, hlines⟩ := textLines_cons final (c :: cs) lines
    rw [hlines, List.flatMap_cons, List.flatMap_cons, List.countP_append, List.countP_append, hrest]
    obtain ⟨rest, extra, hsplit⟩ := splitLines_head hbreak (cs ++ ending)
    have hfirst : counted (c :: rest) = counted (c :: cs) := rfl
    rw [List.cons_append, hsplit, List.countP_cons, List.countP_cons, hfirst, List.tail_cons]
    omega

end Parsing

theorem UnifiedHunk.lines_heads (h : UnifiedHunk) :
    ∀ line ∈ h.lines, ∃ c cs, line = c :: cs ∧ isLineBreak c = false := by
  intro line hline
  rcases List.mem_cons.mp hline with rfl | hline
  · exact ⟨'@', _, rfl, by decide⟩
  · obtain ⟨l, -, rfl⟩ := List.mem_map.mp hline
    obtain ⟨c, cs, hchars, hbreak, -⟩ := l.chars_head
    exact ⟨c, cs, hchars, hbreak⟩

theorem UnifiedHunk.countP_lines (h : UnifiedHunk) : h.lines.countP counted = 1 + h.newLines := by
  have hbody : ∀ l : BodyLine, counted l.chars = l.inNew := by
    intro l
    cases hnew : l.inNew with
    | true => simp [counted, mark_not_inNew, hnew]
    | false => simp [counted, (mark_not_inNew l).mpr hnew]
  have hheader : counted (h.ranges ++ h.heading) = true := rfl
  rw [lines, List.countP_cons_of_pos hheader, List.countP_map, newLines, Nat.add_comm]
  simp only [Function.comp_def, hbody]

theorem numbersOf_length (n : ℤ) (body : List BodyLine) :
    (numbersOf BodyLine.isAdded n body).length + (numbersOf BodyLine.isContext n body).length =
      body.countP BodyLine.inNew := by
  induction body generalizing n with
  | nil => rfl
  | cons l body ih =>
    have hrest := ih (if l.inNew then n + 1 else n)
    simp only [numbersOf, List.length_append, List.countP_cons, ← hrest]
    cases l <;> simp [BodyLine.isAdded, BodyLine.isContext, BodyLine.inNew] <;> omega

theorem mem_numbersOf (n i : ℤ) (body : List BodyLine) :
    i ∈ numbersOf BodyLine.isAdded n body ∨ i ∈ numbersOf BodyLine.isContext n body ↔
      n ≤ i ∧ i ≤ n + body.countP BodyLine.inNew - 1 := by
  induction body generalizing n with
  | nil =>
    simp only [numbersOf, List.not_mem_nil, or_self, List.countP_nil, false_iff]
    omega
  | cons l body ih =>
    have hnew := ih (n + 1)
    have hold := ih n
    simp only [numbersOf, List.mem_append, List.countP_cons]
    cases l with
    | context text =>
      simp only [BodyLine.isAdded, BodyLine.isContext, BodyLine.inNew, if_true, if_false,
        Bool.false_eq_true, List.not_mem_nil, false_or, List.mem_singleton]
      rw [or_left_comm, hnew]
      push_cast
      omega
    | added text =>
      simp only [BodyLine.isAdded, BodyLine.isContext, BodyLine.inNew, if_true, if_false,
        Bool.false_eq_true, List.not_mem_nil, false_or, List.mem_singleton]
      rw [or_assoc, hnew]
      push_cast
      omega
    | removed text | noNewline =>
      simpa [BodyLine.isAdded, BodyLine.isContext, BodyLine.inNew] using hold

namespace UnifiedDiff
variable (d : UnifiedDiff) [Interp]

omit [Interp] in
theorem splitLines_patch : splitLines d.patch.toList = d.lines.flatMap splitLines := by
  rw [patch, String.toList_ofList]
  exact splitLines_textLines _ _

theorem parsePatch_eq : parsePatch d.patch =
    ((d.lines.flatMap splitLines).foldlM parseLine {}).map ParseState.flush := by
  rw [parsePatch, splitLines_patch]
  cases (d.lines.flatMap splitLines).foldlM parseLine {} <;> rfl

theorem exact_of_unbroken (hnumeric : d.Numeric) (hpieces : d.Unbroken) : d.Exact := by
  obtain ⟨t, parsed, hfold, hflush, hnumbers⟩ :=
    foldlM_hunks d.finalNewline d.hunks hnumeric hpieces {}
  have hparse : parsePatch d.patch = .ok parsed := by
    have hlines : (d.lines.flatMap splitLines).foldlM parseLine {} = .ok t := hfold
    rw [parsePatch_eq, hlines]
    exact congrArg Except.ok hflush
  refine ⟨⟨parsed, hparse, hnumbers⟩, fun file hfile n => ?_⟩
  obtain rfl : parsed = file.hunks := Except.ok.inj (hparse.symm.trans hfile)
  have hlines : file.addressableLines =
      (d.hunks.map fun h => (h.addedLines, h.contextLines)).flatMap fun p => p.1 ++ p.2 := by
    rw [← hnumbers, List.flatMap_map]
    rfl
  simp only [hlines, List.mem_flatMap, List.mem_map, exists_exists_and_eq_and, List.mem_append,
    UnifiedHunk.addedLines, UnifiedHunk.contextLines, mem_numbersOf, UnifiedHunk.newLines]

variable {d}

theorem divides_of_parsed {hunks : List Hunk} (hparse : parsePatch d.patch = .ok hunks) :
    Divides hunks (d.lines.flatMap splitLines) := by
  rw [← splitLines_patch]
  exact parsePatch_divides hparse

theorem numeric_of_parsed {hunks : List Hunk} (hparse : parsePatch d.patch = .ok hunks) :
    d.Numeric := by
  intro h hh
  have hline : h.ranges ++ h.heading ∈ d.hunks.flatMap UnifiedHunk.lines :=
    List.mem_flatMap.mpr ⟨h, hh, List.mem_cons_self⟩
  obtain ⟨ending, hmem⟩ := exists_mem_textLines d.finalNewline hline
  obtain ⟨rest, extra, hsplit⟩ := h.splitLines_header ending
  have hpiece : h.ranges ++ rest ∈ d.lines.flatMap splitLines :=
    List.mem_flatMap.mpr ⟨_, hmem, by rw [hsplit]; exact List.mem_cons_self⟩
  obtain ⟨hunk, hopen⟩ := (divides_of_parsed hparse).opens hpiece (h.matchHeader_ranges rest)
  exact (h.openHunk_headerMatch rest).2 hunk hopen

theorem tally_of_parsed {hunks : List Hunk} (hparse : parsePatch d.patch = .ok hunks) :
    tally hunks = (d.lines.flatMap splitLines).countP counted := by
  cases hhunks : d.hunks with
  | nil =>
    have hlines : d.lines = [] := by simp [lines, hhunks, textLines]
    rw [parsePatch_eq, hlines] at hparse
    rw [hlines]
    cases hparse
    rfl
  | cons h others =>
    obtain ⟨ending, hlines⟩ := textLines_cons d.finalNewline (h.ranges ++ h.heading)
      (h.body.map BodyLine.chars ++ others.flatMap UnifiedHunk.lines)
    obtain ⟨rest, extra, hsplit⟩ := h.splitLines_header ending
    have hdivides := divides_of_parsed hparse
    rw [lines, hhunks, List.flatMap_cons, UnifiedHunk.lines, List.cons_append, hlines,
      List.flatMap_cons, hsplit, List.cons_append] at hdivides ⊢
    exact tally_of_divides hdivides (by simp [h.matchHeader_ranges])

theorem unbroken_of_exact (h : d.Exact) : d.Unbroken := by
  obtain ⟨hunks, hparse, hnumbers⟩ := h.parsed
  have hwritten : tally hunks = (d.hunks.flatMap UnifiedHunk.lines).countP counted := by
    have hpairs : tally hunks = ((hunks.map fun h => (h.addedLines, h.contextLines)).map
        fun p => 1 + p.1.length + p.2.length).sum := by
      rw [tally, List.map_map]
      rfl
    rw [hpairs, hnumbers, List.map_map, List.countP_flatMap]
    refine congrArg List.sum (List.map_congr_left fun g _ => ?_)
    simp only [Function.comp_apply, UnifiedHunk.countP_lines]
    rw [Nat.add_assoc]
    exact congrArg (1 + ·) (numbersOf_length g.newStart g.body)
  have hheads : ∀ line ∈ d.hunks.flatMap UnifiedHunk.lines,
      ∃ c cs, line = c :: cs ∧ isLineBreak c = false := by
    intro line hline
    obtain ⟨g, -, hline⟩ := List.mem_flatMap.mp hline
    exact g.lines_heads line hline
  have hcount := countP_pieces d.finalNewline hheads
  have hextra : (d.lines.flatMap fun line => (splitLines line).tail).countP counted = 0 := by
    have htotal := tally_of_parsed hparse
    rw [hwritten] at htotal
    have hsplit : (d.lines.flatMap splitLines).countP counted = _ := hcount
    rw [hsplit] at htotal
    exact Nat.left_eq_add.mp htotal
  intro line hline piece hpiece
  have hskipped := List.countP_eq_zero.mp hextra piece (List.mem_flatMap.mpr ⟨line, hline, hpiece⟩)
  exact mark_skipped.mp (by simpa [counted] using hskipped)

variable (d)

/-- The parser's numbers are exact when `int` takes those of the headers and no line
has another line boundary in it with something after it that the parser heeds. -/
theorem exact_iff : d.Exact ↔ d.Numeric ∧ d.Unbroken := by
  constructor
  · intro h
    obtain ⟨hunks, hparse, -⟩ := h.parsed
    exact ⟨numeric_of_parsed hparse, unbroken_of_exact h⟩
  · intro h
    exact d.exact_of_unbroken h.1 h.2

end UnifiedDiff

def formFeedDiff : UnifiedDiff where
  hunks := [{
    oldStart := 1
    newStart := 1
    body := [.context ['o', 'l', 'd'], .added ['a', Char.ofNat 0x0c, 'b']]
    oldOne := by decide
    newOne := by decide
    headingLine := by decide
    bodyLines := by decide }]

/-- The added line is line 2; the parser goes on to a line 3. -/
theorem form_feed_inexact :
    let _ := asciiInterp
    ¬ ∀ d : UnifiedDiff, d.Exact := by
  intro _ hexact
  obtain ⟨hunks, hparse, hnumbers⟩ := (hexact formFeedDiff).parsed
  have hparsed : (parsePatch formFeedDiff.patch).toOption.map
      (fun hunks => hunks.map fun h => (h.addedLines, h.contextLines)) = some [([2], [1, 3])] := by
    decide +kernel
  have hwritten : formFeedDiff.hunks.map (fun h => (h.addedLines, h.contextLines)) =
      [([2], [1])] := by
    decide +kernel
  rw [hparse, Except.toOption, Option.map_some, hnumbers, hwritten] at hparsed
  simp at hparsed

end PrSentinel
