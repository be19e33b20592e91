import PrSentinel.DiffLines
import PrSentinel.Fixtures
import PrSentinel.Rendering

/-!
The offline reviewer reads the rendered diff back: which lines it takes for added ones, and
under which path and number.
-/

set_option autoImplicit false

namespace PrSentinel.Echo
open Python PrSentinel

structure AddedLine where
  path : String
  number : ℤ
  code : List Char
  deriving DecidableEq, Repr

/-- `path`, `raw_line` and `out` of `_added_lines`. -/
structure Scan where
  path : String := "unknown"
  rawLine : ℤ := 0
  out : List AddedLine := []

section Interp
variable [Interp]

def headerPath (line : List Char) : Option (List Char) := do
  let rest ← dropLiteral "+++ ".toList line
  let path := rest.takeWhile fun c => !Interp.isSpace c
  guard (path ≠ [])
  pure path

def renderedAdd (line : List Char) : Option (List ℕ × List Char) := do
  let (digits, rest) := takeDigits (line.dropWhile Interp.isSpace)
  guard (digits ≠ [])
  let code ← dropLiteral " + ".toList rest
  pure (digits, code)

def withoutStart (start cs : List Char) : List Char := (dropLiteral start cs).getD cs

/-- One turn of the loop of `_added_lines`; `_RAW_HUNK` is the hunk header of the parser
without its last group. -/
def scanLine (s : Scan) (line : List Char) : Except Exc Scan :=
  match headerPath line with
  | some path => .ok { s with path := .ofList (withoutStart "b/".toList path) }
  | none =>
    match renderedAdd line with
    | some (digits, code) => do
      let number ← intOfDigits digits
      pure { s with out := s.out ++ [⟨s.path, number, code⟩] }
    | none =>
      match matchHeader line with
      | some m => do
        let newStart ← intOfDigits m.newStart
        pure { s with rawLine := newStart - 1 }
      | none =>
        match line with
        | '+' :: code =>
          if "+++".toList.isPrefixOf line then .ok s
          else
            .ok { s with
              rawLine := s.rawLine + 1
              out := s.out ++ [⟨s.path, s.rawLine + 1, code⟩] }
        | ' ' :: _ => .ok { s with rawLine := s.rawLine + 1 }
        | _ => .ok s

def scanLines (s : Scan) (lines : List (List Char)) : Except Exc Scan := lines.foldlM scanLine s

def addedLines (prompt : String) : Except Exc (List AddedLine) := do
  let s ← scanLines {} (splitLines prompt.toList)
  pure s.out

end Interp

/-- Nothing but the counter of raw lines has changed, and these lines have been found. -/
def Finds (s t : Scan) (found : List AddedLine) : Prop :=
  t.path = s.path ∧ t.out = s.out ++ found

theorem Finds.trans {s t u : Scan} {found more : List AddedLine} (h : Finds s t found)
    (h' : Finds t u more) : Finds s u (found ++ more) :=
  ⟨h'.1.trans h.1, by rw [h'.2, h.2, List.append_assoc]⟩

theorem toString_nonneg {n : ℤ} (h : 0 ≤ n) : (toString n).toList = numeral n.toNat := by
  obtain ⟨k, rfl⟩ := Int.eq_ofNat_of_zero_le h
  rw [Int.toNat_natCast]
  exact Nat.toList_repr

theorem intOfDigits_printed {n : ℤ} (h : 0 ≤ n) (hsize : n < 10 ^ maxStrDigits) :
    intOfDigits (digitsOf n.toNat) = .ok n := by
  have hnat : n.toNat < 10 ^ maxStrDigits := by
    have hcast : ((n.toNat : ℕ) : ℤ) < ((10 ^ maxStrDigits : ℕ) : ℤ) := by
      rw [Int.toNat_of_nonneg h]
      exact_mod_cast hsize
    exact_mod_cast hcast
  rw [intOfDigits_digitsOf, if_pos hnat, Int.toNat_of_nonneg h]

theorem dropLiteral_head {x : Char} {literal line : List Char} (h : line.head? ≠ some x) :
    dropLiteral (x :: literal) line = none := by
  cases line with
  | nil => rfl
  | cons c cs =>
    have hc : x ≠ c := fun heq => h (by rw [heq]; rfl)
    simp [dropLiteral, hc]

section Interp
variable [Interp]

theorem headerPath_other {line : List Char} (h : line.head? ≠ some '+') :
    headerPath line = none := by
  rw [headerPath, show "+++ ".toList = '+' :: ['+', '+', ' '] from rfl, dropLiteral_head h]
  rfl

theorem matchHeader_other {line : List Char} (h : line.head? ≠ some '@') :
    matchHeader line = none := by
  rw [matchHeader, show "@@ -".toList = '@' :: ['@', ' ', '-'] from rfl, dropLiteral_head h]
  rfl

theorem isSpace_blank : Interp.isSpace ' ' = true := by
  rw [Interp.isSpace_ascii ' ' (by decide)]
  rfl

theorem renderedAdd_other {c : Char} (hascii : isAscii c = true) (hdigit : c.isDigit = false)
    (hspace : asciiSpace c = false) (k : ℕ) (cs : List Char) :
    renderedAdd (List.replicate k ' ' ++ c :: cs) = none := by
  have hhead : ∃ x ∈ (c :: cs).head?, Interp.isSpace x = false :=
    ⟨c, rfl, by rw [Interp.isSpace_ascii c hascii, hspace]⟩
  have hlead : ∀ x ∈ List.replicate k ' ', Interp.isSpace x = true := by
    intro x hx
    rw [List.eq_of_mem_replicate hx]
    exact isSpace_blank
  rw [renderedAdd, dropWhile_pad hlead hhead, takeDigits_stop hascii hdigit]
  rfl

omit [Interp] in
theorem gutter_chars {n : ℤ} (h : 0 ≤ n) (sign : String) (code : List Char) :
    ∃ k, (PromptLine.gutter n sign code).text.toList =
      List.replicate k ' ' ++ (numeral n.toNat ++ (sign.toList ++ code)) := by
  refine ⟨6 - (toString n).toList.length, ?_⟩
  simp only [PromptLine.text, rightAlign, String.toList_append, String.toList_ofList,
    toString_nonneg h, List.append_assoc]

theorem numeral_head (n : ℕ) (rest : List Char) :
    ∃ c ∈ (numeral n ++ rest).head?, c.isDigit = true ∧ Interp.isSpace c = false := by
  cases hdigits : numeral n with
  | nil => simp [numeral] at hdigits
  | cons c cs =>
    have hc : c.isDigit = true := numeral_digit (n := n) (hdigits ▸ List.mem_cons_self)
    exact ⟨c, rfl, hc, isSpace_printed (.inl hc)⟩

theorem takeDigits_gutter {n : ℤ} (h : 0 ≤ n) (sign : String) (code : List Char) {cs : List Char}
    (hrest : sign.toList = ' ' :: cs) :
    takeDigits ((PromptLine.gutter n sign code).text.toList.dropWhile Interp.isSpace) =
      (digitsOf n.toNat, sign.toList ++ code) := by
  obtain ⟨k, hchars⟩ := gutter_chars h sign code
  obtain ⟨c, hc, -, hspace⟩ := numeral_head n.toNat (sign.toList ++ code)
  have hlead : ∀ x ∈ List.replicate k ' ', Interp.isSpace x = true := by
    intro x hx
    rw [List.eq_of_mem_replicate hx]
    exact isSpace_blank
  rw [hchars, dropWhile_pad hlead ⟨c, hc, hspace⟩, hrest, List.cons_append]
  exact takeDigits_numeral n.toNat (by decide) (by decide) _

theorem gutter_head {n : ℤ} (h : 0 ≤ n) (sign : String) (code : List Char) :
    ∃ c cs, (PromptLine.gutter n sign code).text.toList = c :: cs ∧
      (c = ' ' ∨ c.isDigit = true) := by
  obtain ⟨k, hchars⟩ := gutter_chars h sign code
  obtain ⟨c, hc, hdigit, -⟩ := numeral_head n.toNat (sign.toList ++ code)
  cases k with
  | zero =>
    obtain ⟨cs, hcs⟩ := List.head?_eq_some_iff.mp hc
    exact ⟨c, cs, by rw [hchars, ← hcs]; rfl, .inr hdigit⟩
  | succ k => exact ⟨' ', _, by rw [hchars]; rfl, .inl rfl⟩

theorem scanLine_added {n : ℤ} (h : 0 ≤ n) (hsize : n < 10 ^ maxStrDigits) (code : List Char)
    (s : Scan) : scanLine s (PromptLine.gutter n " + " code).text.toList =
      .ok { s with out := s.out ++ [⟨s.path, n, code⟩] } := by
  obtain ⟨c, cs, hhead, hc⟩ := gutter_head h " + " code
  have hplus : (PromptLine.gutter n " + " code).text.toList.head? ≠ some '+' := by
    rw [hhead]
    rintro ⟨⟩
    rcases hc with hc | hc <;> exact absurd hc (by decide)
  have hadd : renderedAdd (PromptLine.gutter n " + " code).text.toList =
      some (digitsOf n.toNat, code) := by
    have hsign : (" + ".toList ++ code) = [' ', '+', ' '] ++ code := rfl
    have hblank : " + ".toList = ' ' :: ['+', ' '] := rfl
    rw [renderedAdd, takeDigits_gutter h " + " code hblank]
    simp only [dropLiteral_append, Option.bind_eq_bind, Option.bind_some]
    rw [guard, if_pos (digitsOf_ne_nil _)]
    rfl
  simp only [scanLine, headerPath_other hplus, hadd, intOfDigits_printed h hsize, bind, Except.bind,
    pure, Except.pure]

theorem scanLine_plain {line : List Char} (hadd : renderedAdd line = none)
    (hplus : line.head? ≠ some '+') (hat : line.head? ≠ some '@') (s : Scan) :
    ∃ t, scanLine s line = .ok t ∧ Finds s t [] := by
  have hkept (t : Scan) (hpath : t.path = s.path) (hout : t.out = s.out) : Finds s t [] :=
    ⟨hpath, by rw [hout, List.append_nil]⟩
  simp only [scanLine, headerPath_other hplus, hadd, matchHeader_other hat]
  split
  · exact absurd rfl hplus
  · exact ⟨_, rfl, hkept _ rfl rfl⟩
  · exact ⟨s, rfl, hkept s rfl rfl⟩

theorem scanLine_context {n : ℤ} (h : 0 ≤ n) (code : List Char) (s : Scan) :
    ∃ t, scanLine s (PromptLine.gutter n "   " code).text.toList = .ok t ∧ Finds s t [] := by
  obtain ⟨c, cs, hhead, hc⟩ := gutter_head h "   " code
  have hnot (x : Char) (hx : x ≠ ' ') (hdigit : x.isDigit = false) :
      (PromptLine.gutter n "   " code).text.toList.head? ≠ some x := by
    rw [hhead]
    rintro ⟨⟩
    rcases hc with hc | hc
    · exact hx hc
    · rw [hdigit] at hc
      cases hc
  refine scanLine_plain ?_ (hnot '+' (by decide) (by decide)) (hnot '@' (by decide) (by decide)) s
  rw [renderedAdd, takeDigits_gutter h "   " code (show "   ".toList = ' ' :: [' ', ' '] from rfl)]
  simp [dropLiteral]

theorem scanLine_removed (code : List Char) (s : Scan) :
    ∃ t, scanLine s (PromptLine.removed code).text.toList = .ok t ∧ Finds s t [] := by
  have hchars : (PromptLine.removed code).text.toList =
      List.replicate 7 ' ' ++ '-' :: (' ' :: code) := by
    simp [PromptLine.text]
  rw [hchars]
  exact scanLine_plain (renderedAdd_other (by decide) (by decide) (by decide) 7 _) (by simp)
    (by simp) s

theorem scanLine_text {c : Char} (hascii : isAscii c = true) (hdigit : c.isDigit = false)
    (hspace : asciiSpace c = false) (hplus : c ≠ '+') (hat : c ≠ '@') (cs : List Char) (s : Scan) :
    ∃ t, scanLine s (c :: cs) = .ok t ∧ Finds s t [] :=
  scanLine_plain (renderedAdd_other hascii hdigit hspace 0 cs) (by simpa using hplus)
    (by simpa using hat) s

theorem scanLine_nil (s : Scan) : ∃ t, scanLine s [] = .ok t ∧ Finds s t [] :=
  scanLine_plain (by simp [renderedAdd, takeDigits]) (by simp) (by simp) s

theorem matchHeader_printed (a b c d : ℕ) (rest : List Char) :
    ∃ m, matchHeader ("@@ -".toList ++ (rangeChars a b false ++ ' ' :: '+' ::
      (rangeChars c d false ++ ' ' :: '@' :: '@' :: rest))) = some m ∧ m.newStart = digitsOf c := by
  obtain ⟨rest₁, hdigits₁, hcount₁⟩ := takeRange a b false ('+' ::
    (rangeChars c d false ++ ' ' :: '@' :: '@' :: rest))
  obtain ⟨rest₂, hdigits₂, hcount₂⟩ := takeRange c d false ('@' :: '@' :: rest)
  have hplus (cs : List Char) : dropLiteral " +".toList (' ' :: '+' :: cs) = some cs :=
    dropLiteral_append [' ', '+'] cs
  have hat (cs : List Char) : dropLiteral " @@".toList (' ' :: '@' :: '@' :: cs) = some cs :=
    dropLiteral_append [' ', '@', '@'] cs
  have hguard (n : ℕ) : guard (f := Option) (digitsOf n ≠ []) = some () :=
    if_pos (digitsOf_ne_nil n)
  rw [matchHeader, dropLiteral_append]
  simp only [Option.bind_eq_bind, Option.bind_some, hdigits₁, hcount₁, hguard, hplus, hdigits₂,
    hcount₂, hat]
  exact ⟨_, rfl, rfl⟩

theorem scanLine_hunk {h : Hunk} (hold : 0 ≤ h.oldStart ∧ 0 ≤ h.oldLines)
    (hnew : 0 ≤ h.newStart ∧ 0 ≤ h.newLines) (hsize : h.newStart < 10 ^ maxStrDigits) (s : Scan) :
    ∃ t, scanLine s (PromptLine.hunk h).text.toList = .ok t ∧ Finds s t [] := by
  obtain ⟨m, hmatch, hstart⟩ := matchHeader_printed h.oldStart.toNat h.oldLines.toNat
    h.newStart.toNat h.newLines.toNat (' ' :: h.header.toList)
  have hchars : (PromptLine.hunk h).text.toList =
      "@@ -".toList ++ (rangeChars h.oldStart.toNat h.oldLines.toNat false ++ ' ' :: '+' ::
        (rangeChars h.newStart.toNat h.newLines.toNat false ++
          ' ' :: '@' :: '@' :: (' ' :: h.header.toList))) := by
    simp only [PromptLine.text, String.toList_append, toString_nonneg hold.1,
      toString_nonneg hold.2, toString_nonneg hnew.1, toString_nonneg hnew.2, rangeChars]
    simp
  have hplus : (PromptLine.hunk h).text.toList.head? ≠ some '+' := by
    rw [hchars]
    simp
  have hadd : renderedAdd (PromptLine.hunk h).text.toList = none := by
    rw [hchars]
    exact renderedAdd_other (c := '@') (by decide) (by decide) (by decide) 0 _
  rw [← hchars] at hmatch
  refine ⟨{ s with rawLine := h.newStart - 1 }, ?_, rfl, (List.append_nil _).symm⟩
  simp only [scanLine, headerPath_other hplus, hadd, hmatch, hstart,
    intOfDigits_printed hnew.1 hsize, bind, Except.bind, pure, Except.pure]

/-- A path a header can be read back from. -/
structure Legible (path : String) : Prop where
  ne_nil : path.toList ≠ []
  black : ∀ c ∈ path.toList, Interp.isSpace c = false
  oneLine : ∀ c ∈ path.toList, isLineBreak c = false
  bare : ¬ "b/".toList <+: path.toList

omit [Interp] in
theorem dropLiteral_eq_some {literal line rest : List Char}
    (h : dropLiteral literal line = some rest) : line = literal ++ rest := by
  induction literal generalizing line with
  | nil =>
    cases h
    rfl
  | cons x literal ih =>
    cases line with
    | nil => cases h
    | cons c cs =>
      simp only [dropLiteral] at h
      split at h
      · rename_i hx
        rw [hx, ih h]
        rfl
      · cases h

theorem scanLine_header {path : String} (h : Legible path) {tail : List Char}
    (htail : ∀ c ∈ tail.head?, Interp.isSpace c = true) (s : Scan) :
    scanLine s ("+++ ".toList ++ (path.toList ++ tail)) = .ok { s with path } := by
  have htake : (path.toList ++ tail).takeWhile (fun c => !Interp.isSpace c) = path.toList := by
    rw [List.takeWhile_append_of_pos (by simpa using h.black)]
    cases tail with
    | nil => simp
    | cons c tail => simp [htail c rfl]
  have hheader : headerPath ("+++ ".toList ++ (path.toList ++ tail)) = some path.toList := by
    rw [headerPath, dropLiteral_append]
    simp only [Option.bind_eq_bind, Option.bind_some, htake]
    rw [guard, if_pos h.ne_nil]
    rfl
  have hbare : withoutStart "b/".toList path.toList = path.toList := by
    rw [withoutStart]
    cases hdrop : dropLiteral "b/".toList path.toList with
    | none => rfl
    | some rest => exact absurd ⟨rest, (dropLiteral_eq_some hdrop).symm⟩ h.bare
  simp only [scanLine, hheader, hbare, String.ofList_toList]

end Interp

def addedCode : ℤ → List (List Char) → List (ℤ × List Char)
  | _, [] => []
  | n, line :: lines =>
    match line with
    | '+' :: code => (n + 1, code) :: addedCode (n + 1) lines
    | '-' :: _ => addedCode n lines
    | '\\' :: _ => addedCode n lines
    | _ => addedCode (n + 1) lines

def addedIn (path : String) (h : Hunk) : List AddedLine :=
  (addedCode (h.newStart - 1) (splitLines h.text.toList).tail).map fun p => ⟨path, p.1, p.2⟩

def addedInFile (f : DiffFile) : List AddedLine := f.hunks.flatMap (addedIn f.path)

section Interp
variable [Interp]

/-- Read under this path, the lines give these findings. -/
def ScansTo (path : String) (lines : List (List Char)) (found : List AddedLine) : Prop :=
  ∀ s : Scan, s.path = path → ∃ t, scanLines s lines = .ok t ∧ Finds s t found

theorem ScansTo.nil (path : String) : ScansTo path [] [] :=
  fun s _ => ⟨s, rfl, rfl, (List.append_nil _).symm⟩

theorem ScansTo.cons {path : String} {line : List Char} {lines : List (List Char)}
    {found more : List AddedLine}
    (h : ∀ s : Scan, s.path = path → ∃ t, scanLine s line = .ok t ∧ Finds s t found)
    (hmore : ScansTo path lines more) : ScansTo path (line :: lines) (found ++ more) := by
  intro s hs
  obtain ⟨t, ht, hfinds⟩ := h s hs
  obtain ⟨u, hu, hmore⟩ := hmore t (hfinds.1.trans hs)
  refine ⟨u, ?_, hfinds.trans hmore⟩
  rw [scanLines, List.foldlM_cons, ht]
  exact hu

theorem ScansTo.pass {path : String} {line : List Char} {lines : List (List Char)}
    {more : List AddedLine} (h : ∀ s : Scan, ∃ t, scanLine s line = .ok t ∧ Finds s t [])
    (hmore : ScansTo path lines more) : ScansTo path (line :: lines) more :=
  ScansTo.cons (fun s _ => h s) hmore

theorem ScansTo.append {path : String} {xs ys : List (List Char)} {found more : List AddedLine}
    (h : ScansTo path xs found) (h' : ScansTo path ys more) :
    ScansTo path (xs ++ ys) (found ++ more) := by
  intro s hs
  obtain ⟨t, ht, hfinds⟩ := h s hs
  obtain ⟨u, hu, hmore⟩ := h' t (hfinds.1.trans hs)
  refine ⟨u, ?_, hfinds.trans hmore⟩
  rw [scanLines, List.foldlM_append]
  rw [scanLines] at ht
  rw [ht]
  exact hu

theorem scans_renderLines (path : String) {bound : ℤ} (hbound : bound ≤ 10 ^ maxStrDigits) {n : ℤ}
    (hn : -1 ≤ n) (lines : List (List Char)) (hsize : n + lines.length < bound) :
    ScansTo path ((renderLines n lines).map fun l => l.text.toList)
      ((addedCode n lines).map fun p => ⟨path, p.1, p.2⟩) := by
  induction lines generalizing n with
  | nil => exact .nil path
  | cons line lines ih =>
    rw [List.length_cons] at hsize
    push_cast at hsize
    have hnonneg : 0 ≤ n + 1 := by omega
    have hfits : n + 1 < bound := by omega
    have hnext : ScansTo path ((renderLines (n + 1) lines).map fun l => l.text.toList)
        ((addedCode (n + 1) lines).map fun p => ⟨path, p.1, p.2⟩) := ih (by omega) (by omega)
    have hsame : ScansTo path ((renderLines n lines).map fun l => l.text.toList)
        ((addedCode n lines).map fun p => ⟨path, p.1, p.2⟩) := ih hn (by omega)
    have hcontext (code : List Char) : ScansTo path
        ((PromptLine.gutter (n + 1) "   " code :: renderLines (n + 1) lines).map fun l =>
          l.text.toList) ((addedCode (n + 1) lines).map fun p => ⟨path, p.1, p.2⟩) :=
      .pass (scanLine_context hnonneg code) hnext
    unfold renderLines addedCode
    split
    · rename_i code
      have hadded : ScansTo path ((PromptLine.gutter (n + 1) " + " code).text.toList ::
          (renderLines (n + 1) lines).map fun l => l.text.toList)
          ([⟨path, n + 1, code⟩] ++ (addedCode (n + 1) lines).map fun p => ⟨path, p.1, p.2⟩) := by
        refine .cons (fun s hs => ?_) hnext
        exact ⟨_, scanLine_added hnonneg (hfits.trans_le hbound) code s, rfl, by rw [hs]⟩
      exact hadded
    · rename_i code
      exact .pass (scanLine_removed code) hsame
    · exact hsame
    · exact hcontext _
    · rename_i hnotPlus hnotMinus hnotMark _
      split
      · exact absurd rfl (hnotPlus _)
      · exact absurd rfl (hnotMinus _)
      · exact absurd rfl (hnotMark _)
      · exact hcontext _

structure Sized (h : Hunk) : Prop where
  old : 0 ≤ h.oldStart ∧ 0 ≤ h.oldLines
  new : 0 ≤ h.newStart ∧ 0 ≤ h.newLines
  last : h.newStart + (splitLines h.text.toList).length < 10 ^ maxStrDigits

theorem scans_hunk (path : String) {h : Hunk} (hsized : Sized h) :
    ScansTo path ((renderHunk h).map fun l => l.text.toList) (addedIn path h) := by
  obtain ⟨bound, hbound⟩ : ∃ bound : ℤ, bound = 10 ^ maxStrDigits := ⟨_, rfl⟩
  have hlast := hsized.last
  have hnew := hsized.new.1
  rw [← hbound] at hlast
  have htail : ((splitLines h.text.toList).tail.length : ℤ) ≤
      (splitLines h.text.toList).length := by
    rw [List.length_tail]
    omega
  have hstart : h.newStart < bound := by omega
  refine .pass (scanLine_hunk hsized.old hsized.new (hbound ▸ hstart)) ?_
  exact scans_renderLines path hbound.le (by omega) _ (by omega)

theorem scans_file {f : DiffFile} (hsized : ∀ h ∈ f.hunks, Sized h) :
    ScansTo f.path ((renderFile f).map fun l => l.text.toList) (addedInFile f) := by
  rw [renderFile, addedInFile]
  generalize f.hunks = hunks at hsized
  induction hunks with
  | nil => exact .nil _
  | cons h hunks ih =>
    rw [List.flatMap_cons, List.flatMap_cons, List.map_append]
    exact (scans_hunk f.path (hsized h List.mem_cons_self)).append
      (ih fun h' hh' => hsized h' (List.mem_cons_of_mem h hh'))

omit [Interp] in
def blockLines : Block → List (List Char)
  | .binary f => [("+++ " ++ f.path).toList,
      ("[binary file, " ++ toString f.additions ++ " additions]").toList]
  | .omitted f => [("+++ " ++ f.path).toList, "[omitted: diff budget exhausted]".toList]
  | .shown f => (fileHeader f).toList :: (renderFile f).map fun l => l.text.toList

def foundIn : Block → List AddedLine
  | .shown f => addedInFile f
  | _ => []

theorem scans_headed {path : String} (h : Legible path) (tail : List Char)
    (htail : ∀ c ∈ tail.head?, Interp.isSpace c = true) {lines : List (List Char)}
    {found : List AddedLine} (hlines : ScansTo path lines found) (s : Scan) :
    ∃ t, scanLines s (("+++ ".toList ++ (path.toList ++ tail)) :: lines) = .ok t ∧
      t.out = s.out ++ found := by
  obtain ⟨t, ht, -, hout⟩ := hlines { s with path } rfl
  refine ⟨t, ?_, hout⟩
  rw [scanLines, List.foldlM_cons, scanLine_header h htail]
  exact ht

theorem scans_block {b : Block} (hpath : Legible b.file.path) (hsized : ∀ h ∈ b.file.hunks, Sized h)
    (s : Scan) : ∃ t, scanLines s (blockLines b) = .ok t ∧ t.out = s.out ++ foundIn b := by
  have hnotice (text : List Char) : ScansTo b.file.path [('[' :: text)] [] :=
    .pass (scanLine_text (by decide) (by decide) (by decide) (by decide) (by decide) text) (.nil _)
  cases b with
  | binary f =>
    have hscan := scans_headed hpath [] (by simp) (hnotice
      ("binary file, " ++ toString f.additions ++ " additions]").toList) s
    simpa [blockLines, foundIn, Block.file] using hscan
  | omitted f =>
    have hscan := scans_headed hpath [] (by simp) (hnotice
      "omitted: diff budget exhausted]".toList) s
    simpa [blockLines, foundIn, Block.file] using hscan
  | shown f =>
    have hscan := scans_headed hpath ("  (" ++ f.status ++ ", +" ++ toString f.additions ++
      "/-" ++ toString f.deletions ++ ")").toList (by simpa using isSpace_blank)
      (scans_file hsized) s
    simpa [blockLines, foundIn, fileHeader, Block.file] using hscan

end Interp

def allLines : List Block → List (List Char)
  | [] => []
  | [b] => blockLines b
  | b :: bs => blockLines b ++ [] :: allLines bs

theorem join_append (sep : String) {xs ys : List String} (hxs : xs ≠ []) (hys : ys ≠ []) :
    join sep (xs ++ ys) = join sep xs ++ sep ++ join sep ys := by
  induction xs with
  | nil => exact absurd rfl hxs
  | cons x xs ih =>
    cases xs with
    | nil =>
      obtain ⟨y, ys, rfl⟩ := List.exists_cons_of_ne_nil hys
      rfl
    | cons x' xs =>
      have hrest := ih (List.cons_ne_nil x' xs)
      have hcons : join sep (x :: x' :: xs ++ ys) = x ++ sep ++ join sep (x' :: xs ++ ys) := rfl
      have hcons' : join sep (x :: x' :: xs) = x ++ sep ++ join sep (x' :: xs) := rfl
      simp only [hcons, hrest, hcons', String.append_assoc]

theorem blockLines_ne_nil (b : Block) : blockLines b ≠ [] := by
  cases b <;> simp [blockLines]

theorem allLines_ne_nil {bs : List Block} (h : bs ≠ []) : allLines bs ≠ [] := by
  cases bs with
  | nil => exact absurd rfl h
  | cons b bs =>
    cases bs with
    | nil => exact blockLines_ne_nil b
    | cons b' bs => simp [allLines, blockLines_ne_nil]

theorem block_text (b : Block) : b.text = join "\n" ((blockLines b).map .ofList) := by
  cases b with
  | binary f =>
    have hbreak : "\n[binary file, " = "\n" ++ "[binary file, " := rfl
    simp only [Block.text, blockLines, List.map_cons, List.map_nil, String.ofList_toList, join,
      hbreak, String.append_assoc]
  | omitted f =>
    have hbreak : "\n[omitted: diff budget exhausted]" =
        "\n" ++ "[omitted: diff budget exhausted]" := rfl
    simp only [Block.text, blockLines, List.map_cons, List.map_nil, String.ofList_toList, join,
      hbreak, String.append_assoc]
  | shown f =>
    simp only [Block.text, blockLines, renderedText, List.map_cons, List.map_map,
      Function.comp_def, String.ofList_toList]

theorem blocks_text (bs : List Block) :
    join "\n\n" (bs.map Block.text) = join "\n" ((allLines bs).map .ofList) := by
  induction bs with
  | nil => rfl
  | cons b bs ih =>
    cases bs with
    | nil => exact block_text b
    | cons b' bs =>
      have hcons : join "\n\n" ((b :: b' :: bs).map Block.text) =
          b.text ++ "\n\n" ++ join "\n\n" ((b' :: bs).map Block.text) := rfl
      have hall : allLines (b :: b' :: bs) = blockLines b ++ ([] :: allLines (b' :: bs)) := rfl
      have hlines : (allLines (b' :: bs)).map String.ofList ≠ [] := by
        simpa using allLines_ne_nil (List.cons_ne_nil b' bs)
      have hblock : (blockLines b).map String.ofList ≠ [] := by simpa using blockLines_ne_nil b
      rw [hcons, ih, block_text, hall, List.map_append, join_append _ hblock (by simp),
        List.map_cons, show String.ofList [] :: (allLines (b' :: bs)).map String.ofList =
          [String.ofList []] ++ (allLines (b' :: bs)).map String.ofList from rfl,
        join_append _ (by simp) hlines]
      have hbreaks : "\n\n" = "\n" ++ (String.ofList [] ++ "\n") := rfl
      simp only [join, hbreaks, String.append_assoc]

def Clean (line : List Char) : Prop := ∀ c ∈ line, isLineBreak c = false

instance (line : List Char) : Decidable (Clean line) :=
  List.decidableBAll (fun c => isLineBreak c = false) line

theorem clean_append {xs ys : List Char} : Clean (xs ++ ys) ↔ Clean xs ∧ Clean ys := by
  simp only [Clean, List.mem_append, or_imp, forall_and]

theorem clean_int (n : ℤ) : Clean (toString n).toList := by
  have hnat (k : ℕ) : Clean (numeral k) := fun c hc => isLineBreak_digit (numeral_digit hc)
  cases n with
  | ofNat k =>
    rw [show (Int.ofNat k) = (k : ℤ) from rfl, toString_nonneg (Int.natCast_nonneg k)]
    exact hnat _
  | negSucc k =>
    have htext : (toString (Int.negSucc k)).toList = '-' :: numeral (k + 1) := by
      rw [show toString (Int.negSucc k) = "-" ++ (k + 1).repr from rfl, String.toList_append,
        Nat.toList_repr]
      rfl
    rw [htext, ← List.singleton_append, clean_append]
    exact ⟨by simp [Clean, isLineBreak], hnat _⟩

section Interp
variable [Interp]

theorem takeDigits_suffix (cs : List Char) : (takeDigits cs).2 <:+ cs := by
  induction cs with
  | nil => exact List.suffix_refl _
  | cons c cs ih =>
    unfold takeDigits
    split
    · exact ih.trans (List.suffix_cons c cs)
    · exact List.suffix_refl _

theorem takeCount_suffix (cs : List Char) : (takeCount cs).2 <:+ cs := by
  unfold takeCount
  split
  · split
    · exact List.suffix_refl _
    · exact (takeDigits_suffix _).trans (List.suffix_cons _ _)
  · exact List.suffix_refl _

omit [Interp] in
theorem dropLiteral_suffix {literal line rest : List Char}
    (h : dropLiteral literal line = some rest) : rest <:+ line :=
  ⟨literal, (dropLiteral_eq_some h).symm⟩

theorem header_suffix {line : List Char} {m : HeaderMatch} (h : matchHeader line = some m) :
    m.header <:+ line := by
  obtain ⟨rest, hfirst, h⟩ := Option.bind_eq_some_iff.mp h
  dsimp only at h
  obtain ⟨⟨⟩, -, h⟩ := Option.bind_eq_some_iff.mp h
  obtain ⟨rest', hplus, h⟩ := Option.bind_eq_some_iff.mp h
  obtain ⟨⟨⟩, -, h⟩ := Option.bind_eq_some_iff.mp h
  obtain ⟨header, hat, h⟩ := Option.bind_eq_some_iff.mp h
  cases h
  calc header <:+ _ := dropLiteral_suffix hat
    _ <:+ _ := takeCount_suffix _
    _ <:+ _ := takeDigits_suffix _
    _ <:+ _ := dropLiteral_suffix hplus
    _ <:+ _ := takeCount_suffix _
    _ <:+ _ := takeDigits_suffix _
    _ <:+ line := dropLiteral_suffix hfirst

theorem mem_strip {s : String} {c : Char} (h : c ∈ (strip s).toList) : c ∈ s.toList := by
  obtain ⟨lead, trail, hsplit, -⟩ := stripList_split Interp.isSpace s.toList
  rw [strip, String.toList_ofList] at h
  rw [hsplit]
  simp [h]

theorem Reads.plain {h : Hunk} {first : List Char} {body : List (List Char)}
    (hreads : h.Reads first body) :
    (0 ≤ h.oldStart ∧ 0 ≤ h.oldLines) ∧ (0 ≤ h.newStart ∧ 0 ≤ h.newLines) ∧
      Clean h.header.toList := by
  obtain ⟨m, hmatch, hopen⟩ := hreads.header
  obtain ⟨oldStart, hone, hopen⟩ := ok_of_bind hopen
  obtain ⟨oldLines, htwo, hopen⟩ := ok_of_bind hopen
  obtain ⟨newStart, hthree, hopen⟩ := ok_of_bind hopen
  obtain ⟨newLines, hfour, hopen⟩ := ok_of_bind hopen
  have hnonneg {ds : List ℕ} {n : ℤ} (hn : intOfDigits ds = .ok n) : 0 ≤ n := by
    unfold intOfDigits at hn
    split at hn
    · cases hn
    · cases hn
      exact Int.natCast_nonneg _
  have hbare := Except.ok.inj hopen
  have hfields : oldStart = h.oldStart ∧ oldLines = h.oldLines ∧ newStart = h.newStart ∧
      newLines = h.newLines ∧ strip (.ofList m.header) = h.header := by
    simp only [Hunk.bare, Hunk.mk.injEq] at hbare
    exact ⟨hbare.1, hbare.2.1, hbare.2.2.1, hbare.2.2.2.1, hbare.2.2.2.2.1⟩
  obtain ⟨rfl, rfl, rfl, rfl, hheader⟩ := hfields
  refine ⟨⟨hnonneg hone, hnonneg htwo⟩, ⟨hnonneg hthree, hnonneg hfour⟩, ?_⟩
  intro c hc
  rw [← hheader] at hc
  have hmem : c ∈ m.header := by simpa using mem_strip hc
  exact hreads.clean first List.mem_cons_self c ((header_suffix hmatch).subset hmem)

omit [Interp] in
theorem clean_gutter (k : ℤ) {sign : String} (hsign : Clean sign.toList) {code : List Char}
    (hcode : Clean code) : Clean (PromptLine.gutter k sign code).text.toList := by
  simp only [PromptLine.text, rightAlign, String.toList_append, String.toList_ofList, clean_append]
  refine ⟨⟨⟨?_, clean_int k⟩, hsign⟩, hcode⟩
  intro c hc
  rw [List.eq_of_mem_replicate hc]
  decide

omit [Interp] in
theorem clean_removed {code : List Char} (hcode : Clean code) :
    Clean (PromptLine.removed code).text.toList := by
  simp only [PromptLine.text, String.toList_append, String.toList_ofList, clean_append]
  exact ⟨by decide, hcode⟩

omit [Interp] in
theorem clean_renderLines (n : ℤ) {lines : List (List Char)} (h : ∀ line ∈ lines, Clean line) :
    ∀ l ∈ renderLines n lines, Clean l.text.toList := by
  induction lines generalizing n with
  | nil => simp [renderLines]
  | cons line lines ih =>
    have hline := h line List.mem_cons_self
    have hrest (k : ℤ) := ih k fun l hl => h l (List.mem_cons_of_mem line hl)
    have htail {c : Char} {code : List Char} (hcode : line = c :: code) : Clean code :=
      fun x hx => hline x (hcode ▸ List.mem_cons_of_mem c hx)
    unfold renderLines
    split
    · exact List.forall_mem_cons.mpr ⟨clean_gutter _ (by decide) (htail rfl), hrest _⟩
    · exact List.forall_mem_cons.mpr ⟨clean_removed (htail rfl), hrest _⟩
    · exact hrest _
    · exact List.forall_mem_cons.mpr ⟨clean_gutter _ (by decide) (htail rfl), hrest _⟩
    · exact List.forall_mem_cons.mpr ⟨clean_gutter _ (by decide) hline, hrest _⟩

omit [Interp] in
theorem clean_renderHunk {h : Hunk} (hheader : Clean h.header.toList) :
    ∀ l ∈ renderHunk h, Clean l.text.toList := by
  refine List.forall_mem_cons.mpr ⟨?_, clean_renderLines _ fun line hline =>
    splitLines_pieces _ line (List.mem_of_mem_tail hline)⟩
  simp only [PromptLine.text, String.toList_append, clean_append]
  have hmarks : Clean "@@ -".toList ∧ Clean ",".toList ∧ Clean " +".toList ∧
      Clean " @@ ".toList := by
    decide
  obtain ⟨hopen, hcomma, hplus, hclose⟩ := hmarks
  exact ⟨⟨⟨⟨⟨⟨⟨⟨⟨hopen, clean_int _⟩, hcomma⟩, clean_int _⟩, hplus⟩, clean_int _⟩, hcomma⟩,
    clean_int _⟩, hclose⟩, hheader⟩

/-- A file whose block is read back as it was written. -/
structure Plain (f : DiffFile) : Prop where
  path : Legible f.path
  status : Clean f.status.toList
  numbers : ∀ h ∈ f.hunks, h.newStart + (splitLines h.text.toList).length < 10 ^ maxStrDigits

theorem clean_block {b : Block} (hplain : Plain b.file)
    (hheaders : ∀ h ∈ b.file.hunks, Clean h.header.toList) : ∀ line ∈ blockLines b, Clean line := by
  have hpath : Clean ("+++ " ++ b.file.path).toList := by
    rw [String.toList_append, clean_append]
    exact ⟨by decide, hplain.path.oneLine⟩
  cases b with
  | binary f =>
    refine List.forall_mem_cons.mpr ⟨hpath, List.forall_mem_singleton.mpr ?_⟩
    simp only [String.toList_append, clean_append]
    exact ⟨⟨by decide, clean_int _⟩, by decide⟩
  | omitted f => exact List.forall_mem_cons.mpr ⟨hpath, List.forall_mem_singleton.mpr (by decide)⟩
  | shown f =>
    refine List.forall_mem_cons.mpr ⟨?_, ?_⟩
    · have hheader : fileHeader f = "+++ " ++ f.path ++ ("  (" ++ f.status ++ ", +" ++
          toString f.additions ++ "/-" ++ toString f.deletions ++ ")") := by
        simp only [fileHeader, String.append_assoc]
      rw [hheader, String.toList_append, clean_append]
      refine ⟨hpath, ?_⟩
      simp only [String.toList_append, clean_append]
      have hmarks : Clean "  (".toList ∧ Clean ", +".toList ∧ Clean "/-".toList ∧
          Clean ")".toList := by
        decide
      obtain ⟨hopen, hplus, hminus, hclose⟩ := hmarks
      exact ⟨⟨⟨⟨⟨⟨hopen, hplain.status⟩, hplus⟩, clean_int _⟩, hminus⟩, clean_int _⟩, hclose⟩
    · intro line hline
      obtain ⟨l, hl, rfl⟩ := List.mem_map.mp hline
      obtain ⟨h, hh, hl⟩ := List.mem_flatMap.mp hl
      exact clean_renderHunk (hheaders h hh) l hl

omit [Interp] in
theorem clean_allLines {bs : List Block} (h : ∀ b ∈ bs, ∀ line ∈ blockLines b, Clean line) :
    ∀ line ∈ allLines bs, Clean line := by
  induction bs with
  | nil => simp [allLines]
  | cons b bs ih =>
    obtain ⟨hblock, hrest⟩ := List.forall_mem_cons.mp h
    cases bs with
    | nil => exact hblock
    | cons b' bs =>
      intro line hline
      rcases List.mem_append.mp hline with hline | hline
      · exact hblock line hline
      · rcases List.mem_cons.mp hline with rfl | hline
        · simp [Clean]
        · exact ih hrest line hline

theorem scans_blocks {bs : List Block} (hpaths : ∀ b ∈ bs, Legible b.file.path)
    (hsized : ∀ b ∈ bs, ∀ h ∈ b.file.hunks, Sized h) (s : Scan) :
    ∃ t, scanLines s (allLines bs) = .ok t ∧ t.out = s.out ++ bs.flatMap foundIn := by
  induction bs generalizing s with
  | nil => exact ⟨s, rfl, (List.append_nil _).symm⟩
  | cons b bs ih =>
    obtain ⟨hpath, hpaths⟩ := List.forall_mem_cons.mp hpaths
    obtain ⟨hsize, hsized⟩ := List.forall_mem_cons.mp hsized
    obtain ⟨t, ht, hout⟩ := scans_block hpath hsize s
    cases bs with
    | nil => exact ⟨t, ht, by rw [hout, List.flatMap_singleton]⟩
    | cons b' bs =>
      obtain ⟨u, hu, -, hempty⟩ := scanLine_nil t
      obtain ⟨v, hv, hmore⟩ := ih hpaths hsized u
      refine ⟨v, ?_, ?_⟩
      · rw [scanLines] at ht hv ⊢
        rw [show allLines (b :: b' :: bs) = blockLines b ++ [] :: allLines (b' :: bs) from rfl,
          List.foldlM_append, ht]
        show ([] :: allLines (b' :: bs)).foldlM scanLine t = .ok v
        rw [List.foldlM_cons, hu]
        exact hv
      · rw [hmore, hempty, hout, List.append_nil, List.append_assoc]
        rfl

theorem scanLine_extends {s t : Scan} {line : List Char} (h : scanLine s line = .ok t) :
    s.out <+: t.out := by
  unfold scanLine at h
  split at h
  · cases h
    exact List.prefix_refl _
  · split at h
    · obtain ⟨number, -, h⟩ := ok_of_bind h
      cases h
      exact List.prefix_append _ _
    · split at h
      · obtain ⟨newStart, -, h⟩ := ok_of_bind h
        cases h
        exact List.prefix_refl _
      · split at h
        · split at h <;> cases h
          · exact List.prefix_refl _
          · exact List.prefix_append _ _
        · cases h
          exact List.prefix_refl _
        · cases h
          exact List.prefix_refl _

theorem scanLines_extends {s t : Scan} {lines : List (List Char)} (h : scanLines s lines = .ok t) :
    s.out <+: t.out := by
  induction lines generalizing s with
  | nil =>
    cases h
    exact List.prefix_refl _
  | cons line lines ih =>
    rw [scanLines, List.foldlM_cons] at h
    obtain ⟨u, hline, hrest⟩ := ok_of_bind h
    exact (scanLine_extends hline).trans (ih hrest)

omit [Interp] in
theorem addedCode_numbers (n : ℤ) (lines : List (List Char)) :
    (addedCode n lines).map Prod.fst = numbersAt .added n lines := by
  induction lines generalizing n with
  | nil => rfl
  | cons line lines ih =>
    unfold addedCode
    split
    · simp [numbersAt, numberAfter, markOf, ih]
    · simp [numbersAt, numberAfter, markOf, ih]
    · simp [numbersAt, numberAfter, markOf, ih]
    · rename_i hplus hminus hmark
      have hcontext : markOf line = .context := by
        unfold markOf
        split <;> rename_i hhead
        · obtain ⟨cs, rfl⟩ := List.head?_eq_some_iff.mp hhead
          exact absurd rfl (hplus cs)
        · obtain ⟨cs, rfl⟩ := List.head?_eq_some_iff.mp hhead
          exact absurd rfl (hminus cs)
        · obtain ⟨cs, rfl⟩ := List.head?_eq_some_iff.mp hhead
          exact absurd rfl (hmark cs)
        · rfl
      simp [numbersAt, numberAfter, hcontext, ih]

omit [Interp] in
theorem mem_addedCode {n : ℤ} {lines : List (List Char)} {p : ℤ × List Char}
    (h : p ∈ addedCode n lines) : '+' :: p.2 ∈ lines := by
  induction lines generalizing n with
  | nil => cases h
  | cons line lines ih =>
    unfold addedCode at h
    split at h
    · rcases List.mem_cons.mp h with rfl | h
      · exact List.mem_cons_self
      · exact List.mem_cons_of_mem _ (ih h)
    · exact List.mem_cons_of_mem _ (ih h)
    · exact List.mem_cons_of_mem _ (ih h)
    · exact List.mem_cons_of_mem _ (ih h)

theorem addedIn_reads (path : String) {h : Hunk} {first : List Char} {body : List (List Char)}
    (hreads : h.Reads first body) : (addedIn path h).map AddedLine.number = h.addedLines ∧
      ∀ a ∈ addedIn path h, a.path = path ∧ '+' :: a.code ∈ body := by
  have htail := hreads.tail
  constructor
  · have hnumbers : (addedIn path h).map AddedLine.number =
        numbersAt .added (h.newStart - 1) (splitLines h.text.toList).tail := by
      rw [addedIn, List.map_map, ← addedCode_numbers]
      rfl
    rw [hnumbers, hreads.added, htail, numbersAt_append]
    split <;> simp [numbersAt, markOf]
  · intro a ha
    obtain ⟨p, hp, rfl⟩ := List.mem_map.mp ha
    refine ⟨rfl, ?_⟩
    rw [htail]
    exact List.mem_append_left _ (mem_addedCode hp)

theorem addedInFile_built {payload : PullFile} {f : DiffFile} (h : buildDiffFile payload = .ok f) :
    (addedInFile f).map AddedLine.number = f.hunks.flatMap Hunk.addedLines ∧
      ∀ a ∈ addedInFile f, a.path = f.path ∧ a.number ∈ f.addressableLines ∧
        '+' :: a.code ∈ splitLines f.patch.toList := by
  obtain ⟨prelude, pieces, -, hlines, hpieces⟩ := buildDiffFile_divides h
  have hread : ∀ hunk ∈ f.hunks, ∃ p ∈ pieces, hunk.Reads p.1 p.2 :=
    fun _ => exists_mem_of_forall₂ hpieces
  constructor
  · rw [addedInFile, List.map_flatMap]
    refine List.flatMap_congr fun hunk hhunk => ?_
    obtain ⟨p, -, hreads⟩ := hread hunk hhunk
    exact (addedIn_reads f.path hreads).1
  · intro a ha
    obtain ⟨hunk, hhunk, ha⟩ := List.mem_flatMap.mp ha
    obtain ⟨p, hp, hreads⟩ := hread hunk hhunk
    obtain ⟨hnumbers, hadded⟩ := addedIn_reads f.path hreads
    obtain ⟨hpath, hcode⟩ := hadded a ha
    refine ⟨hpath, ?_, ?_⟩
    · rw [DiffFile.addressableLines, List.mem_flatMap]
      refine ⟨hunk, hhunk, List.mem_append_left _ ?_⟩
      rw [← hnumbers]
      exact List.mem_map_of_mem ha
    · rw [hlines, List.mem_append, List.mem_flatMap]
      exact .inr ⟨p, hp, List.mem_cons_of_mem _ hcode⟩

theorem Plain.sized {f : DiffFile} (hplain : Plain f) {payload : PullFile}
    (h : buildDiffFile payload = .ok f) :
    ∀ hunk ∈ f.hunks, Sized hunk ∧ Clean hunk.header.toList := by
  intro hunk hhunk
  obtain ⟨first, body, hreads⟩ := (buildDiffFile_divides h).reads hunk hhunk
  obtain ⟨hold, hnew, hheader⟩ := Reads.plain hreads
  exact ⟨⟨hold, hnew, hplain.numbers hunk hhunk⟩, hheader⟩

/-- The added lines of the files that are shown, in the order of the prompt. -/
def shownLines (files : List DiffFile) (maxBytes : ℤ) : List AddedLine :=
  (renderBlocks maxBytes 0 files).1.flatMap foundIn

omit [Interp] in
theorem mem_blocks {files : List DiffFile} {maxBytes : ℤ} {b : Block}
    (h : b ∈ (renderBlocks maxBytes 0 files).1) : b.file ∈ files := by
  have hfile := List.mem_map_of_mem (f := Block.file) h
  rwa [renderBlocks_files] at hfile

theorem scans_diff {files : List DiffFile} (hbuilt : Built files) (hplain : ∀ f ∈ files, Plain f)
    (maxBytes : ℤ) (s : Scan) :
    ∃ t, scanLines s (splitLines ((renderForPrompt files maxBytes).1.toList ++ ['\n'])) = .ok t ∧
      t.out = s.out ++ shownLines files maxBytes := by
  have hsized : ∀ b ∈ (renderBlocks maxBytes 0 files).1, ∀ h ∈ b.file.hunks,
      Sized h ∧ Clean h.header.toList := by
    intro b hb
    obtain ⟨payload, hbuild⟩ := hbuilt b.file (mem_blocks hb)
    exact (hplain b.file (mem_blocks hb)).sized hbuild
  have htext : (renderForPrompt files maxBytes).1 =
      join "\n\n" ((renderBlocks maxBytes 0 files).1.map Block.text) := rfl
  rw [htext, blocks_text, toList_join_lines, shownLines]
  by_cases hempty : (renderBlocks maxBytes 0 files).1 = []
  · obtain ⟨t, ht, -, hout⟩ := scanLine_nil s
    refine ⟨t, ?_, by rw [hempty, hout]; rfl⟩
    rw [hempty, scanLines]
    show [[]].foldlM scanLine s = .ok t
    rw [List.foldlM_cons, ht]
    rfl
  · rw [splitLines_ended (allLines_ne_nil hempty) (clean_allLines fun b hb =>
      clean_block (hplain b.file (mem_blocks hb)) fun h hh => (hsized b hb h hh).2)]
    exact scans_blocks (fun b hb => (hplain b.file (mem_blocks hb)).path)
      (fun b hb h hh => (hsized b hb h hh).1) s

theorem shownLines_built {files : List DiffFile} (hbuilt : Built files) {maxBytes : ℤ}
    {a : AddedLine} (ha : a ∈ shownLines files maxBytes) : ∃ f ∈ files, f.path = a.path ∧
      a.number ∈ f.addressableLines ∧ '+' :: a.code ∈ splitLines f.patch.toList := by
  obtain ⟨b, hb, ha⟩ := List.mem_flatMap.mp ha
  have hmem := mem_blocks hb
  cases b with
  | binary f => cases ha
  | omitted f => cases ha
  | shown f =>
    obtain ⟨payload, hbuild⟩ := hbuilt f hmem
    obtain ⟨hpath, hline, hcode⟩ := (addedInFile_built hbuild).2 a ha
    exact ⟨f, hmem, hpath.symm, hline, hcode⟩

def numberedLines (files : List DiffFile) (maxBytes : ℤ) : List (String × ℤ) :=
  (renderBlocks maxBytes 0 files).1.flatMap fun
    | .shown f => (f.hunks.flatMap Hunk.addedLines).map fun n => (f.path, n)
    | _ => []

theorem shownLines_numbers {files : List DiffFile} (hbuilt : Built files) (maxBytes : ℤ) :
    (shownLines files maxBytes).map (fun a => (a.path, a.number)) =
      numberedLines files maxBytes := by
  rw [shownLines, numberedLines, List.map_flatMap]
  refine List.flatMap_congr fun b hb => ?_
  cases b with
  | binary f => rfl
  | omitted f => rfl
  | shown f =>
    obtain ⟨payload, hbuild⟩ := hbuilt f (mem_blocks hb)
    obtain ⟨hnumbers, hfound⟩ := addedInFile_built hbuild
    calc (addedInFile f).map (fun a => (a.path, a.number))
        = (addedInFile f).map fun a => (f.path, a.number) :=
          List.map_congr_left fun a ha => by rw [(hfound a ha).1]
      _ = ((addedInFile f).map AddedLine.number).map fun n => (f.path, n) := by
          rw [List.map_map]
          rfl
      _ = (f.hunks.flatMap Hunk.addedLines).map fun n => (f.path, n) := by rw [hnumbers]

/-- Whatever the prompt says around it, the diff is read back as the parser read the patches:
the added lines of the files that are shown, each with its path and its number. -/
theorem diff_read_back {files : List DiffFile} (hbuilt : Built files)
    (hplain : ∀ f ∈ files, Plain f) (maxBytes : ℤ) :
    ∃ found, found.map (fun a => (a.path, a.number)) = numberedLines files maxBytes ∧
      (∀ a ∈ found, ∃ f ∈ files, f.path = a.path ∧ a.number ∈ f.addressableLines ∧
        '+' :: a.code ∈ splitLines f.patch.toList) ∧
      addedLines ((renderForPrompt files maxBytes).1 ++ "\n") = .ok found ∧
      ∀ (before after : String) (out : List AddedLine),
        addedLines (before ++ "\n" ++ (renderForPrompt files maxBytes).1 ++ "\n" ++ after) =
          .ok out →
            ∃ pre post, addedLines (before ++ "\n") = .ok pre ∧ out = pre ++ found ++ post := by
  have hfeed : "\n".toList = ['\n'] := rfl
  refine ⟨shownLines files maxBytes, shownLines_numbers hbuilt maxBytes,
    fun a => shownLines_built hbuilt, ?_, ?_⟩
  · obtain ⟨t, ht, hout⟩ := scans_diff hbuilt hplain maxBytes {}
    rw [addedLines, String.toList_append, hfeed, ht]
    exact congrArg Except.ok hout
  · intro before after out hread
    have hchars : (before ++ "\n" ++ (renderForPrompt files maxBytes).1 ++ "\n" ++ after).toList =
        before.toList ++ '\n' ::
          ((renderForPrompt files maxBytes).1.toList ++ '\n' :: after.toList) := by
      simp [hfeed]
    obtain ⟨u, hscan, hout⟩ := ok_of_bind hread
    cases hout
    rw [hchars, splitLines_append before.toList, splitLines_append _ after.toList, scanLines,
      List.foldlM_append] at hscan
    obtain ⟨s, hbefore, hscan⟩ := ok_of_bind hscan
    rw [List.foldlM_append] at hscan
    obtain ⟨t, hdiff, hafter⟩ := ok_of_bind hscan
    obtain ⟨t', ht', hout⟩ := scans_diff hbuilt hplain maxBytes s
    obtain rfl : t' = t := Except.ok.inj (ht'.symm.trans hdiff)
    obtain ⟨post, hpost⟩ := scanLines_extends hafter
    refine ⟨s.out, post, ?_, by rw [← hout, hpost]⟩
    rw [addedLines, String.toList_append, hfeed]
    exact congrArg (fun r => r >>= fun s => pure s.out) hbefore

def rawFinding (path : String) (line : ℤ) (category severity : String) (confidence : ℚ)
    (title body rationale excerpt : String) : List (String × Json) :=
  [("file_path", .str path), ("line_start", .int line), ("line_end", .int line),
    ("category", .str category), ("severity", .str severity),
    ("confidence", .float (.fin confidence)), ("title", .str title), ("body", .str body),
    ("rationale", .str rationale),
    ("evidence", .arr [.obj [("kind", .str "diff"), ("file_path", .str path),
      ("line_start", .int line), ("line_end", .int line),
      ("excerpt", .str (upto 200 (strip excerpt)))]])]

theorem rawFinding_typed (path : String) (line : ℤ) (category severity : String) (confidence : ℚ)
    (title body rationale excerpt : String) :
    WellTyped (rawFinding path line category severity confidence title body rationale excerpt)
      path title rationale line line confidence :=
  ⟨rfl, rfl, ⟨body, rfl⟩, rfl, rfl, rfl, ⟨.float (.fin confidence), rfl, rfl⟩, ⟨_, rfl⟩⟩

/-- A finding on a line that was read back from the diff is kept, where it was put. -/
theorem reported_in_place [Pydantic] {pr : PullRequestContext} (hbuilt : Built pr.files)
    (hplain : ∀ f ∈ pr.files, Plain f) (hpaths : (pr.files.map DiffFile.path).Nodup) {maxBytes : ℤ}
    {found : List AddedLine}
    (hread : addedLines ((renderForPrompt pr.files maxBytes).1 ++ "\n") = .ok found) :
    ∀ a ∈ found, (∀ c ∈ a.path.toList.head?, c ≠ '.' ∧ c ≠ '/') →
      ∀ (category severity title body rationale : String) (confidence : ℚ),
        strip (upto 200 title) ≠ "" → strip (upto 4000 rationale) ≠ "" →
        ∀ agent id, ∃ f, ground agent id (rawFinding a.path a.number category severity confidence
          title body rationale (.ofList a.code)) pr = .ok (some (f, false)) ∧
            f.filePath = a.path ∧ f.lineStart = a.number := by
  intro a ha hpath category severity title body rationale confidence htitle hrationale agent id
  obtain ⟨t, ht, hout⟩ := scans_diff hbuilt hplain maxBytes {}
  have hfound : found = shownLines pr.files maxBytes := by
    rw [addedLines, String.toList_append, show "\n".toList = ['\n'] from rfl, ht] at hread
    rw [← Except.ok.inj hread]
    exact hout
  obtain ⟨file, hmem, hfilePath, hline, -⟩ := shownLines_built hbuilt (hfound ▸ ha)
  have hfile : pr.file a.path = some file := (file_eq_some_iff hpaths).mpr ⟨hmem, hfilePath⟩
  obtain ⟨f, hground, hat, hstart, -⟩ := Fixtures.ground_on_line agent id hfile hpath
    (rawFinding_typed a.path a.number category severity confidence title body rationale
      (.ofList a.code)) hline htitle hrationale
  exact ⟨f, hground, hat.trans hfilePath, hstart⟩

end Interp

theorem short_plain : ∀ f ∈ shortPr.files, @Plain asciiInterp f := by
  let _ := asciiInterp
  intro f hf
  obtain rfl : f = shortFile := List.mem_singleton.mp hf
  have hblack : shortFile.path.toList.all (fun c => !Interp.isSpace c) = true := by decide
  have honeLine : Clean shortFile.path.toList ∧ Clean shortFile.status.toList := by decide
  refine ⟨⟨by decide, fun c hc => ?_, honeLine.1, by decide⟩, honeLine.2, ?_⟩
  · simpa using List.all_eq_true.mp hblack c hc
  · intro h hh
    obtain rfl : h = shortHunk := List.mem_singleton.mp hh
    have hlines : (splitLines shortHunk.text.toList).length = 3 := by decide
    have hbound : (10 : ℤ) ^ 1 ≤ 10 ^ maxStrDigits :=
      pow_le_pow_right₀ (by norm_num) (by decide)
    rw [hlines]
    refine lt_of_lt_of_le ?_ hbound
    decide

theorem short_numbered : numberedLines shortPr.files 1000 = [("app.py", 2)] := by decide +kernel

theorem diff_read_back_sample :
    let _ := asciiInterp
    ∃ found, found.map (fun a => (a.path, a.number)) = [("app.py", 2)] ∧
      addedLines ((renderForPrompt shortPr.files 1000).1 ++ "\n") = .ok found := by
  intro _
  obtain ⟨found, hnumbers, -, hread, -⟩ := diff_read_back shortPr_built short_plain 1000
  exact ⟨found, hnumbers.trans short_numbered, hread⟩

theorem short_found : @addedLines asciiInterp ((renderForPrompt shortPr.files 1000).1 ++ "\n") =
    .ok [⟨"app.py", 2, ['b']⟩] := by
  decide +kernel

theorem reported_in_place_sample :
    let _ := asciiInterp
    let _ := strictPydantic
    ∃ f, ground .security 7 (rawFinding "app.py" 2 "secrets" "critical" (82 / 100) "t" "" "r" "b")
      shortPr = .ok (some (f, false)) ∧ f.filePath = "app.py" ∧ f.lineStart = 2 := by
  intro _ _
  exact reported_in_place shortPr_built short_plain (by decide) short_found ⟨"app.py", 2, ['b']⟩
    List.mem_cons_self Fixtures.sample_path "secrets" "critical" "t" "" "r" (82 / 100)
    Fixtures.sample_texts.1 Fixtures.sample_texts.2 .security 7

end PrSentinel.Echo
