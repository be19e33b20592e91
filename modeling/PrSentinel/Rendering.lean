import PrSentinel.Disclosure

/-!
The prompt against the parser and against its budget: the numbers two walks over a hunk
give its lines, and the bytes of a text whose bodies are counted in characters.
-/

set_option autoImplicit false

namespace PrSentinel
open Python

def printed (sign : String) (lines : List PromptLine) : List ℤ :=
  ((gutters lines).filter fun g => g.2 = sign).map Prod.fst

/-- The renderer gives the lines of a hunk the numbers the parser gave them. -/
structure NumberedAlike (h : Hunk) : Prop where
  added : printed " + " (renderHunk h) = h.addedLines
  context : printed "   " (renderHunk h) = h.contextLines
  order : ((gutters (renderHunk h)).map Prod.fst).Pairwise (· < ·)

theorem printed_renderLines (n : ℤ) (lines : List (List Char)) :
    printed " + " (renderLines n lines) = numbersAt .added n lines ∧
      printed "   " (renderLines n lines) = numbersAt .context n lines := by
  induction lines generalizing n with
  | nil => exact ⟨rfl, rfl⟩
  | cons line lines ih =>
    obtain ⟨hadded, hcontext⟩ := ih (numberAfter n line)
    simp only [printed, gutters_cons, List.filter_append, List.map_append,
      numbersAt] at hadded hcontext ⊢
    rw [hadded, hcontext]
    cases hmark : markOf line <;> simp [gutterAt, hmark]

theorem gutters_ordered (n : ℤ) (lines : List (List Char)) :
    ((gutters (renderLines n lines)).map Prod.fst).Pairwise (· < ·) := by
  induction lines generalizing n with
  | nil => exact List.Pairwise.nil
  | cons line lines ih =>
    have hlater : ∀ i ∈ (gutters (renderLines (numberAfter n line) lines)).map Prod.fst,
        numberAfter n line < i := by
      intro i hi
      obtain ⟨⟨j, sign⟩, hmem, rfl⟩ := List.mem_map.mp hi
      exact ((numbered_renderLines _ _ _).mp ((numbered_iff _ _).mpr ⟨sign, hmem⟩)).1
    rw [gutters_cons, List.map_append, List.pairwise_append]
    refine ⟨?_, ih _, ?_⟩
    · unfold gutterAt
      split <;> simp
    · intro i hi j hj
      have hj' := hlater j hj
      obtain ⟨⟨k, sign⟩, hmem, rfl⟩ := List.mem_map.mp hi
      obtain ⟨hcounted, rfl⟩ := (mem_gutterAt n k line).mp ⟨sign, hmem⟩
      rwa [numberAfter, if_neg (by simpa [counted] using hcounted)] at hj'

theorem gutters_renderHunk (h : Hunk) : gutters (renderHunk h) =
    gutters (renderLines (h.newStart - 1) (splitLines h.text.toList).tail) := by
  simp [renderHunk, gutters, List.filterMap_cons, PromptLine.gutter?]

section Interp
variable [Interp]

theorem Hunk.Reads.alike_iff {h : Hunk} {first : List Char} {body : List (List Char)}
    (hreads : h.Reads first body) : NumberedAlike h ↔ body.getLast? ≠ some [] := by
  obtain ⟨hadded, hcontext⟩ :=
    printed_renderLines (h.newStart - 1) (splitLines h.text.toList).tail
  have hends : endswith h.text "\n" = true ↔ body.getLast? = some [] := by
    rw [endswith_newline, hreads.text, toList_join_lines,
      getLast?_join hreads.first_ne_nil hreads.clean, List.getLast?_cons]
    cases body.getLast? with
    | none => simpa using hreads.first_ne_nil
    | some line => simp
  have htail := hreads.tail
  have hprinted (sign : String) : printed sign (renderHunk h) =
      printed sign (renderLines (h.newStart - 1) (splitLines h.text.toList).tail) := by
    rw [printed, gutters_renderHunk]
    rfl
  by_cases hlast : body.getLast? = some []
  · rw [if_pos (hends.mpr hlast)] at htail
    refine iff_of_false (fun halike => ?_) (by simp [hlast])
    have hcount := congrArg List.length (halike.context.symm.trans ((hprinted _).trans hcontext))
    rw [hreads.context, htail, numbersAt_append, List.length_append] at hcount
    simp [numbersAt, markOf] at hcount
  · rw [if_neg (mt hends.mp hlast), List.append_nil] at htail
    refine iff_of_true ⟨?_, ?_, ?_⟩ hlast
    · rw [hprinted, hadded, hreads.added, ← htail]
    · rw [hprinted, hcontext, hreads.context, ← htail]
    · rw [gutters_renderHunk]
      exact gutters_ordered _ _

def Opens (line : List Char) : Prop := ∃ m, matchHeader line = some m

/-- Below a header there is an empty line with nothing or another header after it. -/
def EndsEmpty (lines : List (List Char)) : Prop :=
  ∃ before after, lines = before ++ [] :: after ∧ (∃ line ∈ before, Opens line) ∧
    ∀ next ∈ after.head?, Opens next

theorem opens_iff {line : List Char} : ¬ Opens line ↔ matchHeader line = none := by
  cases h : matchHeader line <;> simp [Opens, h]

theorem not_opens_nil : ¬ Opens [] := opens_iff.mpr (by simp [matchHeader, dropLiteral])

def joinPieces (pieces : List (List Char × List (List Char))) : List (List Char) :=
  pieces.flatMap fun p => p.1 :: p.2

section Pieces
variable {prelude : List (List Char)} {pieces : List (List Char × List (List Char))}

theorem head_joinPieces (hpieces : ∀ p ∈ pieces, Opens p.1 ∧ ∀ line ∈ p.2, ¬ Opens line) :
    ∀ next ∈ (joinPieces pieces).head?, Opens next := by
  cases pieces with
  | nil => simp [joinPieces]
  | cons p pieces =>
    intro next hnext
    obtain rfl : p.1 = next := by simpa [joinPieces] using hnext
    exact (hpieces p List.mem_cons_self).1

theorem last_of_split {before after : List (List Char)}
    (hprelude : ∀ line ∈ prelude, ¬ Opens line)
    (hpieces : ∀ p ∈ pieces, Opens p.1 ∧ ∀ line ∈ p.2, ¬ Opens line)
    (hsplit : prelude ++ joinPieces pieces = before ++ [] :: after)
    (hbefore : ∃ line ∈ before, Opens line) (hafter : ∀ next ∈ after.head?, Opens next) :
    ∃ p ∈ pieces, p.2.getLast? = some [] := by
  induction pieces generalizing prelude before with
  | nil =>
    obtain ⟨line, hline, hopens⟩ := hbefore
    have hmem : line ∈ prelude := by
      rw [joinPieces, List.flatMap_nil, List.append_nil] at hsplit
      rw [hsplit]
      exact List.mem_append_left _ hline
    exact absurd hopens (hprelude line hmem)
  | cons p pieces ih =>
    obtain ⟨⟨hopens, hbody⟩, hrest⟩ := List.forall_mem_cons.mp hpieces
    have hhead := head_joinPieces hrest
    have hjoin : (prelude ++ p.1 :: p.2) ++ joinPieces pieces = before ++ [] :: after := by
      simpa [joinPieces] using hsplit
    rcases List.append_eq_append_iff.mp hjoin with ⟨later, rfl, hlater⟩ | ⟨shown, hshown, htail⟩
    · -- the line is beyond the first piece, so the next one begins before it
      cases later with
      | nil => exact absurd (hhead [] (by rw [hlater]; rfl)) not_opens_nil
      | cons line later =>
        have hline : Opens line := hhead line (by rw [hlater]; rfl)
        obtain ⟨q, hq, hlast⟩ := @ih [] (line :: later) (by simp) hrest hlater
          ⟨line, List.mem_cons_self, hline⟩
        exact ⟨q, List.mem_cons_of_mem p hq, hlast⟩
    · cases shown with
      | nil =>
        have hnext : joinPieces pieces = [] :: after := htail.symm
        exact absurd (hhead [] (by rw [hnext]; rfl)) not_opens_nil
      | cons line shown =>
        obtain ⟨rfl, rfl⟩ := List.cons.inj htail
        rcases List.append_eq_append_iff.mp hshown with ⟨later, rfl, hlater⟩ | ⟨later, rfl, -⟩
        · cases later with
          | nil => exact absurd ((List.cons.inj hlater).1 ▸ hopens) not_opens_nil
          | cons first later =>
            have hlines : p.2 = later ++ [] :: shown := (List.cons.inj hlater).2
            cases shown with
            | nil => exact ⟨p, List.mem_cons_self, by rw [hlines]; exact List.getLast?_concat⟩
            | cons next shown =>
              exact absurd (hafter next rfl) (hbody next (by rw [hlines]; simp))
        · obtain ⟨line, hline, hline'⟩ := hbefore
          exact absurd hline' (hprelude line (List.mem_append_left _ hline))

theorem endsEmpty_iff (hprelude : ∀ line ∈ prelude, ¬ Opens line)
    (hpieces : ∀ p ∈ pieces, Opens p.1 ∧ ∀ line ∈ p.2, ¬ Opens line) :
    EndsEmpty (prelude ++ joinPieces pieces) ↔ ∃ p ∈ pieces, p.2.getLast? = some [] := by
  constructor
  · rintro ⟨before, after, hsplit, hbefore, hafter⟩
    exact last_of_split hprelude hpieces hsplit hbefore hafter
  · rintro ⟨p, hp, hlast⟩
    obtain ⟨earlier, later, rfl⟩ := List.append_of_mem hp
    obtain ⟨body, hbody⟩ := List.getLast?_eq_some_iff.mp hlast
    refine ⟨prelude ++ joinPieces earlier ++ p.1 :: body, joinPieces later, ?_, ?_, ?_⟩
    · simp [joinPieces, hbody]
    · exact ⟨p.1, by simp, (hpieces p hp).1⟩
    · exact head_joinPieces fun q hq => hpieces q (by simp [hq])

end Pieces

/-- The prompt and the parser number all hunks of a patch alike exactly if none of them
ends in an empty line. -/
theorem numbered_alike_iff {payload : PullFile} {f : DiffFile} (h : buildDiffFile payload = .ok f) :
    (∀ hunk ∈ f.hunks, NumberedAlike hunk) ↔ ¬ EndsEmpty (splitLines f.patch.toList) := by
  obtain ⟨prelude, pieces, hprelude, hlines, hreads⟩ := buildDiffFile_divides h
  have hpieces : ∀ p ∈ pieces, Opens p.1 ∧ ∀ line ∈ p.2, ¬ Opens line := by
    intro p hp
    obtain ⟨hunk, -, hhunk⟩ := exists_mem_of_forall₂ hreads.flip hp
    obtain ⟨m, hmatch, -⟩ := hhunk.header
    exact ⟨⟨m, hmatch⟩, fun line hline => opens_iff.mpr (hhunk.plain line hline)⟩
  have hclean : ∀ line ∈ prelude, ¬ Opens line :=
    fun line hline => opens_iff.mpr (hprelude line hline)
  rw [hlines]
  refine Iff.trans ?_ (not_congr (endsEmpty_iff hclean hpieces)).symm
  rw [not_exists]
  simp only [not_and]
  clear hlines hpieces
  generalize f.hunks = hunks at hreads ⊢
  induction hreads with
  | nil => simp
  | cons hread _ ih => rw [List.forall_mem_cons, List.forall_mem_cons, hread.alike_iff, ih]

end Interp

theorem short_numbered_alike :
    let _ := asciiInterp
    ∀ hunk ∈ shortFile.hunks, NumberedAlike hunk := by
  intro _
  have hbuild : buildDiffFile shortPayload = .ok shortFile := by decide +kernel
  refine (numbered_alike_iff hbuild).mpr ?_
  rintro ⟨before, after, hlines, -⟩
  have hmem : [] ∈ splitLines shortFile.patch.toList := by
    rw [hlines]
    simp
  revert hmem
  decide +kernel

def emptyEnd : PullFile where
  filename := "app.py"
  patch := some "@@ -1,2 +1,2 @@\n a\n\n@@ -9 +9 @@\n b"

theorem empty_end_numbered_apart :
    let _ := asciiInterp
    ¬ ∀ payload f, buildDiffFile payload = .ok f → ∀ hunk ∈ f.hunks, NumberedAlike hunk := by
  intro _ h
  have hapart : ((buildDiffFile emptyEnd).toOption.map fun f =>
      f.hunks.map fun hunk => (printed "   " (renderHunk hunk), hunk.contextLines)) =
        some [([1], [1, 2]), ([9], [9])] := by
    decide +kernel
  cases hbuild : buildDiffFile emptyEnd with
  | error e => simp [hbuild, Except.toOption] at hapart
  | ok f =>
    have halike := h emptyEnd f hbuild
    simp only [hbuild, Except.toOption, Option.map_some, Option.some.injEq] at hapart
    have hsame : f.hunks.map (fun hunk => (printed "   " (renderHunk hunk), hunk.contextLines)) =
        f.hunks.map fun hunk => (hunk.contextLines, hunk.contextLines) :=
      List.map_congr_left fun hunk hhunk => by rw [(halike hunk hhunk).context]
    rw [hsame] at hapart
    have hdiagonal := congrArg (List.all · fun p => decide (p.1 = p.2)) hapart
    simp at hdiagonal

def byteSize (s : String) : ℤ := s.utf8ByteSize

theorem byteSize_append (s t : String) : byteSize (s ++ t) = byteSize s + byteSize t := by
  simp [byteSize]

theorem byteSize_join (sep : String) (parts : List String) : byteSize (join sep parts) =
    (parts.map byteSize).sum + byteSize sep * (parts.length - 1 : ℕ) := by
  induction parts with
  | nil => rfl
  | cons s parts ih =>
    cases parts with
    | nil => simp [join]
    | cons t parts =>
      have hjoin : join sep (s :: t :: parts) = s ++ sep ++ join sep (t :: parts) := rfl
      rw [hjoin, byteSize_append, byteSize_append, ih]
      simp only [List.map_cons, List.sum_cons, List.length_cons, Nat.add_sub_cancel]
      push_cast
      ring

/-- What stands for a file whose body is not shown. -/
def notice (f : DiffFile) : String :=
  if f.binary then (Block.binary f).text else (Block.omitted f).text

def noticesText (files : List DiffFile) : String := join "\n\n" (files.map notice)

theorem byteSize_noticesText (files : List DiffFile) : byteSize (noticesText files) =
    (files.map fun f => byteSize (notice f)).sum + 2 * (files.length - 1 : ℕ) := by
  have hsep : byteSize "\n\n" = 2 := by decide +kernel
  rw [noticesText, byteSize_join, List.map_map, List.length_map, hsep]
  rfl

theorem length_le_byteSize (s : String) : (s.toList.length : ℤ) ≤ byteSize s := by
  have hchars (cs : List Char) : cs.length ≤ (String.ofList cs).utf8ByteSize := by
    induction cs with
    | nil => simp
    | cons c cs ih =>
      have hpos := c.utf8Size_pos
      have hfirst : (String.ofList [c]).utf8ByteSize = c.utf8Size :=
        String.utf8ByteSize_singleton
      rw [← List.singleton_append, String.ofList_append, String.utf8ByteSize_append, hfirst]
      simp only [List.length_append, List.length_singleton]
      omega
  have hs := hchars s.toList
  rw [String.ofList_toList] at hs
  exact Int.ofNat_le.mpr hs

/-- The text files that get in behind `used` characters. -/
def fitting (maxBytes : ℤ) : ℤ → List DiffFile → List DiffFile
  | _, [] => []
  | used, f :: files =>
    if f.binary ∨ maxBytes < used + renderedSize f then fitting maxBytes used files
    else f :: fitting maxBytes (used + renderedSize f) files

/-- What a body takes more than the notice in its place. -/
def gain (f : DiffFile) : ℤ := byteSize (renderedText f) - byteSize (notice f)

def totalGain (files : List DiffFile) : ℤ := (files.map gain).sum

theorem fitting_whole {maxBytes used : ℤ} {files : List DiffFile}
    (h : used + totalSize files ≤ maxBytes) :
    fitting maxBytes used files = files.filter fun f => !f.binary := by
  induction files generalizing used with
  | nil => rfl
  | cons f files ih =>
    have hrest := totalSize_nonneg files
    cases hbinary : f.binary with
    | true =>
      have htotal : totalSize (f :: files) = totalSize files := by simp [totalSize, hbinary]
      simp [fitting, hbinary, ih (htotal ▸ h)]
    | false =>
      have htotal : totalSize (f :: files) = renderedSize f + totalSize files := by
        simp [totalSize, hbinary]
      have hfits : ¬ maxBytes < used + renderedSize f := by omega
      have hwhole := @ih (used + renderedSize f) (by omega)
      simp [fitting, hbinary, hfits, hwhole]

theorem blocks_byteSize (maxBytes used : ℤ) (files : List DiffFile) :
    ((renderBlocks maxBytes used files).1.map fun b => byteSize b.text).sum =
      (files.map fun f => byteSize (notice f)).sum + totalGain (fitting maxBytes used files) := by
  induction files generalizing used with
  | nil => rfl
  | cons f files ih =>
    by_cases hbinary : f.binary = true
    · have hnotice : notice f = (Block.binary f).text := by simp [notice, hbinary]
      simp only [renderBlocks, fitting, hbinary, true_or, if_true, List.map_cons, List.sum_cons,
        ih, hnotice]
      ring
    have hnotice : notice f = (Block.omitted f).text := by simp [notice, hbinary]
    by_cases hover : maxBytes < used + renderedSize f
    · simp only [renderBlocks, fitting, hbinary, hover, or_true, if_true, if_false,
        Bool.false_eq_true, List.map_cons, List.sum_cons, ih, hnotice]
      ring
    · have hshown : byteSize (Block.shown f).text = byteSize (notice f) + gain f := by
        rw [gain]
        exact (add_sub_cancel _ _).symm
      simp only [renderBlocks, fitting, hbinary, hover, or_self, if_false, Bool.false_eq_true,
        List.map_cons, List.sum_cons, ih, hshown, totalGain]
      ring

theorem renderForPrompt_byteSize (files : List DiffFile) (maxBytes : ℤ) :
    byteSize (renderForPrompt files maxBytes).1 =
      byteSize (noticesText files) + totalGain (fitting maxBytes 0 files) := by
  have hsep : byteSize "\n\n" = 2 := by decide +kernel
  have hblocks := blocks_byteSize maxBytes 0 files
  rw [renderForPrompt, byteSize_join, List.map_map, List.length_map, length_renderBlocks, hsep,
    byteSize_noticesText]
  simp only [Function.comp_def, hblocks]
  ring

theorem binary_of_omitted {maxBytes used : ℤ} {files : List DiffFile} {f : DiffFile}
    (h : .omitted f ∈ (renderBlocks maxBytes used files).1) : f.binary = false := by
  induction files generalizing used with
  | nil => cases h
  | cons first files ih =>
    unfold renderBlocks at h
    split at h
    · exact ih (by simpa using h)
    · rename_i hbinary
      split at h
      · rcases List.mem_cons.mp h with heq | hmem
        · cases heq
          simpa using hbinary
        · exact ih hmem
      · exact ih (by simpa using h)

theorem mem_of_omitted {maxBytes used : ℤ} {files : List DiffFile} {f : DiffFile}
    (h : .omitted f ∈ (renderBlocks maxBytes used files).1) : f ∈ files := by
  have hfile := List.mem_map_of_mem (f := Block.file) h
  rwa [renderBlocks_files] at hfile

theorem truncated_iff_omitted (maxBytes used : ℤ) (files : List DiffFile) :
    (renderBlocks maxBytes used files).2 = true ↔
      ∃ f, .omitted f ∈ (renderBlocks maxBytes used files).1 := by
  induction files generalizing used with
  | nil => simp [renderBlocks]
  | cons f files ih =>
    unfold renderBlocks
    split
    · simp [ih]
    · split
      · simp
      · simp [ih]

theorem totalSize_le_whole (files : List DiffFile) :
    totalSize files ≤ (files.map fun f => byteSize (notice f)).sum +
      totalGain (files.filter fun f => !f.binary) := by
  induction files with
  | nil => exact le_rfl
  | cons f files ih =>
    have hbody : renderedSize f ≤ byteSize (renderedText f) := length_le_byteSize _
    have hnotice : 0 ≤ byteSize (notice f) := Int.natCast_nonneg _
    cases hbinary : f.binary with
    | true =>
      simp only [totalSize, totalGain, hbinary, Bool.not_true, Bool.false_eq_true,
        not_false_eq_true, List.filter_cons_of_neg, List.map_cons, List.sum_cons] at ih ⊢
      linarith
    | false =>
      simp only [totalSize, totalGain, gain, hbinary, Bool.not_false, List.filter_cons_of_pos,
        List.map_cons, List.sum_cons] at ih ⊢
      linarith

theorem byteSize_whole {files : List DiffFile} {maxBytes : ℤ} (h : totalSize files ≤ maxBytes) :
    byteSize (renderForPrompt files maxBytes).1 =
      byteSize (noticesText files) + totalGain (files.filter fun f => !f.binary) := by
  rw [renderForPrompt_byteSize, fitting_whole (by rwa [zero_add])]

/-- The files whose text keeps to every budget: their bodies are no longer than their notices,
or it is one file and a byte a character. -/
def Capped (files : List DiffFile) : Prop :=
  totalGain (files.filter fun f => !f.binary) ≤ 0 ∨
    ∃ f, files = [f] ∧ byteSize (renderedText f) = renderedSize f

theorem Capped.caps {files : List DiffFile} (h : Capped files) {maxBytes : ℤ}
    (hnotices : byteSize (noticesText files) ≤ maxBytes) :
    byteSize (renderForPrompt files maxBytes).1 ≤ maxBytes := by
  have hshort (hgain : totalGain (files.filter fun f => !f.binary) ≤ 0) :
      byteSize (renderForPrompt files maxBytes).1 ≤ maxBytes := by
    have hwhole := totalSize_le_whole files
    have hsum := byteSize_noticesText files
    rw [byteSize_whole (by omega)]
    omega
  rcases h with hgain | ⟨f, rfl, hascii⟩
  · exact hshort hgain
  cases hbinary : f.binary with
  | true => exact hshort (by simp [hbinary, totalGain])
  | false =>
    by_cases hover : maxBytes < renderedSize f
    · have hnone : fitting maxBytes 0 [f] = [] := by simp [fitting, hover]
      rw [renderForPrompt_byteSize, hnone]
      exact (add_zero _).trans_le hnotices
    · have htotal : totalSize [f] = renderedSize f := by simp [totalSize, hbinary]
      have hgain : totalGain ([f].filter fun f => !f.binary) = gain f := by
        simp [totalGain, hbinary]
      have hsum := byteSize_noticesText [f]
      simp only [List.map_cons, List.map_nil, List.sum_cons, List.sum_nil, List.length_cons,
        List.length_nil] at hsum
      rw [byteSize_whole (by omega), hgain, gain, hascii]
      omega

theorem capped_iff_caps (files : List DiffFile) :
    Capped files ↔ ∀ maxBytes : ℤ, byteSize (noticesText files) ≤ maxBytes →
      byteSize (renderForPrompt files maxBytes).1 ≤ maxBytes := by
  refine ⟨fun h _ => h.caps, fun hcap => ?_⟩
  by_contra hnot
  obtain ⟨hgain, hone⟩ := not_or.mp hnot
  -- the least budget that all bodies and the notices are within
  have htext := hcap (max (byteSize (noticesText files)) (totalSize files)) (le_max_left _ _)
  rw [byteSize_whole (le_max_right _ _)] at htext
  have hover : byteSize (noticesText files) + totalGain (files.filter fun f => !f.binary) ≤
      totalSize files := by
    rcases max_choice (byteSize (noticesText files)) (totalSize files) with heq | heq
    · rw [heq] at htext
      exact absurd (by linarith) hgain
    · rwa [heq] at htext
  have hwhole := totalSize_le_whole files
  have hsum := byteSize_noticesText files
  match files with
  | [] => exact hgain le_rfl
  | f :: g :: files =>
    simp only [List.length_cons] at hsum
    omega
  | [f] =>
    cases hbinary : f.binary with
    | true => exact hgain (by simp [hbinary, totalGain])
    | false =>
      have hbody : renderedSize f ≤ byteSize (renderedText f) := length_le_byteSize _
      have hone' : byteSize (renderedText f) ≠ renderedSize f := fun h => hone ⟨f, rfl, h⟩
      simp only [totalSize, totalGain, gain, hbinary, Bool.not_false, List.filter_cons_of_pos,
        List.filter_nil, List.map_cons, List.map_nil, List.sum_cons, List.sum_nil,
        List.length_cons, List.length_nil] at hover hsum
      omega

/-- The text keeps to every budget its notices keep to exactly if its bodies are no longer than
their notices or it is of one file in ASCII; and to a given one if what the bodies that get in
take more than their notices is within what the notices leave of it. -/
theorem budget_caps_iff (files : List DiffFile) :
    ((∀ maxBytes : ℤ,
        (byteSize (noticesText files) ≤ maxBytes →
          byteSize (renderForPrompt files maxBytes).1 ≤ maxBytes) ∧
        ((renderForPrompt files maxBytes).2 = true ↔ ∃ f ∈ files, f.binary = false ∧
          .omitted f ∈ (renderBlocks maxBytes 0 files).1)) ↔ Capped files) ∧
    ∀ maxBytes : ℤ,
      (byteSize (noticesText files) ≤ maxBytes →
        byteSize (renderForPrompt files maxBytes).1 ≤ maxBytes) ↔
      (byteSize (noticesText files) ≤ maxBytes →
        totalGain (fitting maxBytes 0 files) ≤ maxBytes - byteSize (noticesText files)) := by
  have htruncated (maxBytes : ℤ) : (renderForPrompt files maxBytes).2 = true ↔
      ∃ f ∈ files, f.binary = false ∧ .omitted f ∈ (renderBlocks maxBytes 0 files).1 := by
    refine (truncated_iff_omitted maxBytes 0 files).trans (exists_congr fun f => ?_)
    constructor
    · exact fun h => ⟨mem_of_omitted h, binary_of_omitted h, h⟩
    · exact fun h => h.2.2
  refine ⟨?_, fun maxBytes => imp_congr_right fun _ => ?_⟩
  · rw [capped_iff_caps]
    exact forall_congr' fun maxBytes => and_iff_left (htruncated maxBytes)
  · rw [renderForPrompt_byteSize]
    constructor <;> intro h <;> linarith

def logo : DiffFile where
  path := "logo.png"
  binary := true

/-- The body fits and so do the notices, but not the body beside a notice. -/
theorem budget_exceeded :
    ¬ ∀ (files : List DiffFile) (maxBytes : ℤ), byteSize (noticesText files) ≤ maxBytes →
      byteSize (renderForPrompt files maxBytes).1 ≤ maxBytes := by
  intro h
  have hnotices : byteSize (noticesText [logo, shortFile]) ≤ 90 := by decide +kernel
  have htext : byteSize (renderForPrompt [logo, shortFile] 90).1 = 109 := by decide +kernel
  have hcap := h [logo, shortFile] 90 hnotices
  omega

end PrSentinel
