import PrSentinel.PythonLines
import PrSentinel.Regex
import PrSentinel.Windows

set_option autoImplicit false

namespace PrSentinel
open Python Regex

def minChunkLines : ℕ := 5

def frame : Windows.Frame := ⟨120, 15, by decide⟩

def languageByExt : List (String × String) :=
  [(".py", "python"), (".ts", "typescript"), (".tsx", "typescript"), (".js", "javascript"),
   (".jsx", "javascript"), (".go", "go"), (".rs", "rust"), (".java", "java"), (".kt", "kotlin"),
   (".rb", "ruby"), (".php", "php"), (".cs", "csharp"), (".c", "c"), (".h", "c"), (".cc", "cpp"),
   (".cpp", "cpp"), (".hpp", "cpp"), (".sql", "sql"), (".sh", "shell"), (".tf", "terraform"),
   (".md", "markdown"), (".yaml", "yaml"), (".yml", "yaml")]

structure Chunk where
  filePath : String
  startLine : ℕ
  endLine : ℕ
  content : String
  symbol : Option String := none
  language : Option String := none

def extOf (path : String) : String :=
  "." ++ .ofList (path.toList.reverse.takeWhile fun c => c ≠ '.').reverse

def languageOf (path : String) (language : Option String) : Option String :=
  match language with
  | none | some "" => languageByExt.lookup (extOf path)
  | some language => some language

section Interp
variable [Interp]

def pyDef : Pattern :=
  .seq (.alt (.seq (.lit "async") (.seq (.more Interp.isSpace) (.lit "def")))
      (.oneOf ["def", "class"]))
    (.seq (.more Interp.isSpace) (.capture (.more inWord)))

def braceDef : Pattern :=
  .seq (.many Interp.isSpace true) <|
  .seq (.opt (.seq (.lit "export") (.more Interp.isSpace))) <|
  .seq (.opt (.oneOf ["public", "private", "protected", "static", "final", "async", "func", "fn",
      "pub"])) <|
  .seq (.many (fun c => Interp.isSpace c || inWord c || c ∈ "<>,[]*&:".toList) false) <|
  .seq (.boundary inWord) <|
  .seq (.oneOf ["function", "func", "fn", "class", "interface", "struct", "type", "impl",
      "def"]) <|
  .seq (.more Interp.isSpace) (.capture (.more inWord))

/-- The lines, counted from one, in which a definition begins, with the name it gives. -/
def boundariesOf (definition : List Char → Option (List Char)) (lines : List (List Char)) :
    List (ℕ × String) :=
  (lines.zipIdx 1).filterMap fun e => (definition e.1).map fun symbol => (e.2, .ofList symbol)

def pythonBoundaries (lines : List (List Char)) : List (ℕ × String) :=
  boundariesOf (fun line =>
    if line.dropWhile Interp.isSpace ≠ line then none else pyDef.captureOf line) lines

def braceBoundaries (lines : List (List Char)) : List (ℕ × String) :=
  boundariesOf braceDef.captureOf lines

def boundaries (lines : List (List Char)) (language : Option String) : List (ℕ × String) :=
  if language = some "python" then pythonBoundaries lines else braceBoundaries lines

/-- A range of lines, counted from one, its last line included. -/
structure Region where
  first : ℕ
  last : ℕ
  symbol : Option String := none

def linesOf (lines : List (List Char)) (start stop : ℕ) : String :=
  join "\n" (((lines.take stop).drop (start - 1)).map .ofList)

def chunkOf (path : String) (lines : List (List Char)) (language : Option String) (r : Region) :
    Chunk :=
  ⟨path, r.first, r.last, linesOf lines r.first r.last, r.symbol, language⟩

/-- Each definition goes as far as the line before the next one. -/
def definitions (n : ℕ) : List (ℕ × String) → List Region
  | [] => []
  | (start, symbol) :: rest =>
    let stop := match rest with
      | [] => n
      | (next, _) :: _ => next - 1
    if stop < start then definitions n rest
    else ⟨start, stop, some symbol⟩ :: definitions n rest

def header : List (ℕ × String) → List Region
  | [] => []
  | (start, _) :: _ => if minChunkLines < start then [⟨1, start - 1, some "<module>"⟩] else []

def fromBoundaries (path : String) (lines : List (List Char)) (boundaries : List (ℕ × String))
    (language : Option String) : List Chunk :=
  (header boundaries ++ definitions lines.length boundaries).map (chunkOf path lines language)

def windows (path : String) (lines : List (List Char)) (language : Option String) (start : ℕ := 1)
    (stop : Option ℕ := none) (symbol : Option String := none) : List Chunk :=
  let stop := if stop.getD 0 = 0 then lines.length else stop.getD 0
  (frame.spans start stop).map fun s => chunkOf path lines language ⟨s.1, s.2, symbol⟩

def chunkFile (path text : String) (language : Option String := none) : List Chunk :=
  let lines := splitLines text.toList
  if lines = [] then []
  else
    let language := languageOf path language
    let found := boundaries lines language
    let chunks := if found = [] then windows path lines language
      else fromBoundaries path lines found language
    let out := chunks.flatMap fun c =>
      if c.endLine + 1 - c.startLine ≤ frame.size then [c]
      else windows path lines language c.startLine (some c.endLine) c.symbol
    out.filter fun c => strip c.content ≠ ""

structure Located (n : ℕ) (found : List (ℕ × String)) : Prop where
  within : ∀ b ∈ found, 1 ≤ b.1 ∧ b.1 ≤ n
  ascends : found.Pairwise fun b b' => b.1 < b'.1

omit [Interp] in
theorem boundariesOf_located (definition : List Char → Option (List Char))
    (lines : List (List Char)) : Located lines.length (boundariesOf definition lines) := by
  constructor
  · intro b hb
    obtain ⟨⟨line, i⟩, hi, hsome⟩ := List.mem_filterMap.mp hb
    obtain ⟨symbol, -, rfl⟩ := Option.map_eq_some_iff.mp hsome
    have hle := List.le_snd_of_mem_zipIdx hi
    have hlt := List.snd_lt_add_of_mem_zipIdx hi
    exact ⟨hle, by omega⟩
  · have hlines : (lines.zipIdx 1).Pairwise fun e e' => e.2 < e'.2 := by
      rw [← List.pairwise_map, List.zipIdx_map_snd]
      exact List.pairwise_lt_range'
    refine hlines.filterMap _ fun e e' hlt b hb b' hb' => ?_
    obtain ⟨symbol, -, rfl⟩ := Option.map_eq_some_iff.mp hb
    obtain ⟨symbol', -, rfl⟩ := Option.map_eq_some_iff.mp hb'
    exact hlt

theorem boundaries_located (lines : List (List Char)) (language : Option String) :
    Located lines.length (boundaries lines language) := by
  unfold boundaries
  split
  · exact boundariesOf_located _ _
  · exact boundariesOf_located _ _

omit [Interp] in
theorem boundariesOf_symbol {definition : List Char → Option (List Char)}
    (hpart : ∀ line symbol, definition line = some symbol → symbol <:+: line)
    {lines : List (List Char)} {b : ℕ × String} (hb : b ∈ boundariesOf definition lines) :
    ∃ line, lines[b.1 - 1]? = some line ∧ b.2.toList <:+: line := by
  obtain ⟨⟨line, i⟩, hi, hsome⟩ := List.mem_filterMap.mp hb
  obtain ⟨symbol, hsymbol, rfl⟩ := Option.map_eq_some_iff.mp hsome
  refine ⟨line, ?_, by simpa using hpart line symbol hsymbol⟩
  exact (List.mem_zipIdx_iff_le_and_getElem?_sub.mp hi).2

theorem boundary_symbol {lines : List (List Char)} {language : Option String} {b : ℕ × String}
    (hb : b ∈ boundaries lines language) :
    ∃ line, lines[b.1 - 1]? = some line ∧ b.2.toList <:+: line := by
  unfold boundaries at hb
  split at hb
  · refine boundariesOf_symbol (fun line symbol h => ?_) hb
    split at h
    · cases h
    · exact Pattern.captureOf_infix h
  · exact boundariesOf_symbol (fun line symbol h => Pattern.captureOf_infix h) hb

structure Layout (n : ℕ) (regions : List Region) : Prop where
  bounds : ∀ r ∈ regions, 1 ≤ r.first ∧ r.first ≤ r.last ∧ r.last ≤ n
  apart : regions.Pairwise fun r r' => r.last < r'.first

def Region.Holds (r : Region) (line : ℕ) : Prop := r.first ≤ line ∧ line ≤ r.last

omit [Interp] in
theorem definitions_cons {n start : ℕ} {symbol : String} {found : List (ℕ × String)}
    (h : Located n ((start, symbol) :: found)) :
    ∃ stop, start ≤ stop ∧ stop ≤ n ∧
      definitions n ((start, symbol) :: found) =
        ⟨start, stop, some symbol⟩ :: definitions n found ∧
      (found = [] → stop = n) ∧ ∀ b ∈ found.head?, b.1 = stop + 1 := by
  have hstart := (h.within _ List.mem_cons_self).2
  cases found with
  | nil =>
    refine ⟨n, hstart, le_rfl, ?_, fun _ => rfl, by simp⟩
    rw [definitions]
    exact if_neg (not_lt.mpr hstart)
  | cons next found =>
    have hnext : start < next.1 := (List.pairwise_cons.mp h.ascends).1 _ List.mem_cons_self
    have hbound := (h.within next (by simp)).2
    refine ⟨next.1 - 1, by omega, by omega, ?_, by simp, ?_⟩
    · rw [definitions]
      exact if_neg (show ¬ next.1 - 1 < start by omega)
    · rintro b hb
      cases hb
      omega

omit [Interp] in
/-- Definitions lie behind one another and leave no line out. -/
theorem definitions_layout {n : ℕ} {found : List (ℕ × String)} (h : Located n found) :
    Layout n (definitions n found) ∧
    (∀ r ∈ definitions n found, ∃ b ∈ found.head?, b.1 ≤ r.first) ∧
    ∀ line, (∃ r ∈ definitions n found, r.Holds line) ↔ ∃ b ∈ found.head?, b.1 ≤ line ∧ line ≤ n := by
  induction found with
  | nil => exact ⟨⟨by simp [definitions], .nil⟩, by simp [definitions], by simp [definitions]⟩
  | cons b found ih =>
    obtain ⟨start, symbol⟩ := b
    obtain ⟨stop, hle, hstop, hcons, hlast, hnext⟩ := definitions_cons h
    obtain ⟨hlayout, hfirst, hcover⟩ := ih ⟨fun b hb => h.within b (List.mem_cons_of_mem _ hb),
      (List.pairwise_cons.mp h.ascends).2⟩
    have hbehind : ∀ r ∈ definitions n found, stop < r.first := by
      intro r hr
      obtain ⟨b, hb, hbr⟩ := hfirst r hr
      have := hnext b hb
      omega
    rw [hcons]
    refine ⟨⟨?_, List.pairwise_cons.mpr ⟨hbehind, hlayout.apart⟩⟩, ?_, fun line => ?_⟩
    · intro r hr
      rcases List.mem_cons.mp hr with rfl | hr
      · exact ⟨(h.within _ List.mem_cons_self).1, hle, hstop⟩
      · exact hlayout.bounds r hr
    · intro r hr
      refine ⟨(start, symbol), rfl, ?_⟩
      rcases List.mem_cons.mp hr with rfl | hr
      · exact le_rfl
      · exact hle.trans (hbehind r hr).le
    · have hrest : (∃ b ∈ found.head?, b.1 ≤ line ∧ line ≤ n) ↔ stop < line ∧ line ≤ n := by
        cases found with
        | nil =>
          have := hlast rfl
          simp
          omega
        | cons next found =>
          have := hnext next rfl
          simp
          omega
      rw [List.exists_mem_cons_iff, hcover, hrest]
      simp [Region.Holds]
      omega

def regionsOf (n : ℕ) (found : List (ℕ × String)) : List Region :=
  if found = [] then [⟨1, n, none⟩] else header found ++ definitions n found

omit [Interp] in
theorem mem_header {found : List (ℕ × String)} {r : Region} : r ∈ header found ↔
    ∃ b ∈ found.head?, minChunkLines < b.1 ∧ r = ⟨1, b.1 - 1, some "<module>"⟩ := by
  cases found with
  | nil => simp [header]
  | cons b found =>
    rw [header]
    split
    · rename_i hlong
      simp [hlong]
    · rename_i hshort
      simp [hshort]

omit [Interp] in
theorem regionsOf_layout {n : ℕ} (hn : 0 < n) {found : List (ℕ × String)} (h : Located n found) :
    Layout n (regionsOf n found) := by
  unfold regionsOf
  split
  · exact ⟨by simpa using Nat.succ_le_of_lt hn, List.pairwise_singleton _ _⟩
  · obtain ⟨hlayout, hfirst, -⟩ := definitions_layout h
    have hheader (r : Region) (hr : r ∈ header found) :
        r.first = 1 ∧ ∃ b ∈ found.head?, minChunkLines < b.1 ∧ r.last = b.1 - 1 := by
      obtain ⟨b, hb, hlong, rfl⟩ := mem_header.mp hr
      exact ⟨rfl, b, hb, hlong, rfl⟩
    refine ⟨fun r hr => ?_, List.pairwise_append.mpr ⟨?_, hlayout.apart, fun r hr r' hr' => ?_⟩⟩
    · rcases List.mem_append.mp hr with hr | hr
      · obtain ⟨hone, b, hb, hlong, hlast⟩ := hheader r hr
        have hbound := h.within b (List.mem_of_mem_head? hb)
        unfold minChunkLines at hlong
        omega
      · exact hlayout.bounds r hr
    · cases found with
      | nil => exact .nil
      | cons b found =>
        rw [header]
        split
        · exact List.pairwise_singleton _ _
        · exact .nil
    · obtain ⟨-, b, hb, hlong, hlast⟩ := hheader r hr
      obtain ⟨b', hb', hle⟩ := hfirst r' hr'
      obtain rfl : b = b' := Option.some.inj (hb.symm.trans hb')
      omega

omit [Interp] in
theorem regionsOf_cover {n : ℕ} {found : List (ℕ × String)} (h : Located n found) {line : ℕ}
    (hline : 1 ≤ line ∧ line ≤ n) : (∃ r ∈ regionsOf n found, r.Holds line) ↔
      ∀ b ∈ found.head?, b.1 ≤ minChunkLines → b.1 ≤ line := by
  obtain ⟨-, -, hcover⟩ := definitions_layout h
  unfold regionsOf
  cases found with
  | nil =>
    rw [if_pos rfl]
    simpa [Region.Holds] using hline
  | cons b found =>
    have hdefinitions := hcover line
    rw [if_neg (List.cons_ne_nil _ _)]
    simp only [List.mem_append, or_and_right, exists_or, hdefinitions, mem_header]
    simp only [List.head?_cons, Option.mem_some_iff, exists_eq_left', forall_eq', and_assoc,
      exists_and_left, exists_eq_left, Region.Holds]
    omega

/-- The windows of a region; one that is short enough is its own. -/
def windowsOf (r : Region) : List Region :=
  (frame.spans r.first r.last).map fun s => ⟨s.1, s.2, r.symbol⟩

omit [Interp] in
theorem windows_eq (path : String) (lines : List (List Char)) (language : Option String)
    {start stop : ℕ} (hstop : 0 < stop) (symbol : Option String) :
    windows path lines language start (some stop) symbol =
      (windowsOf ⟨start, stop, symbol⟩).map (chunkOf path lines language) := by
  rw [windows, windowsOf, List.map_map]
  simp only [Option.getD_some, if_neg hstop.ne']
  rfl

structure Tile (start stop : ℕ) (chunks : List Chunk) : Prop where
  first : ∃ c ∈ chunks.head?, c.startLine = start
  last : ∃ c ∈ chunks.getLast?, c.endLine = stop
  size : ∀ c ∈ chunks, c.startLine ≤ c.endLine ∧ c.endLine + 1 - c.startLine ≤ 120
  covered : ∀ line, (∃ c ∈ chunks, c.startLine ≤ line ∧ line ≤ c.endLine) ↔
    start ≤ line ∧ line ≤ stop
  advance : chunks.IsChain fun c d =>
    d.startLine = c.startLine + 105 ∧ c.endLine + 1 = d.startLine + 15
  apart : chunks.Pairwise fun c d => c.startLine < d.startLine ∧ c.endLine < d.endLine

omit [Interp] in
/-- From any line to any later one, `_windows` stops and leaves out no line, repeats none more
than the overlap says, and lays no window into another. -/
theorem windows_tile (path : String) (lines : List (List Char)) (language symbol : Option String)
    {start stop : ℕ} (hstart : 1 ≤ start) (hle : start ≤ stop) :
    Tile start stop (windows path lines language start (some stop) symbol) := by
  have hwindows : windows path lines language start (some stop) symbol =
      (frame.spans start stop).map fun s => chunkOf path lines language ⟨s.1, s.2, symbol⟩ := by
    rw [windows, if_neg (by simp; omega)]
    rfl
  have hchain : (frame.spans start stop).IsChain frame.Next := Windows.Frame.spans_chain
  rw [hwindows]
  refine ⟨?_, ?_, ?_, fun line => ⟨?_, fun hline => ?_⟩, ?_, ?_⟩
  · obtain ⟨rest, hrest⟩ := frame.spans_head hle
    rw [hrest]
    exact ⟨_, rfl, rfl⟩
  · obtain ⟨s, hs, hlast⟩ := Windows.Frame.spans_last (w := frame) hle
    rw [List.getLast?_map]
    exact ⟨_, Option.mem_map_of_mem _ hs, hlast⟩
  · intro c hc
    obtain ⟨s, hs, rfl⟩ := List.mem_map.mp hc
    obtain ⟨k, hk⟩ := Windows.Frame.mem_spans.mp hs
    exact ⟨hk.bounds.2.1, hk.bounds.2.2.2⟩
  · rintro ⟨c, hc, hline⟩
    obtain ⟨s, hs, rfl⟩ := List.mem_map.mp hc
    obtain ⟨k, hk⟩ := Windows.Frame.mem_spans.mp hs
    exact ⟨hk.bounds.1.trans hline.1, hline.2.trans hk.bounds.2.2.1⟩
  · obtain ⟨s, hs, hin⟩ := Windows.Frame.exists_span (w := frame) hline
    exact ⟨_, List.mem_map_of_mem hs, hin⟩
  · exact (List.isChain_map _).mpr (hchain.imp fun s t h => ⟨h.step, h.overlap⟩)
  · exact List.pairwise_map.mpr Windows.Frame.spans_apart

omit [Interp] in
/-- One line more than a window holds. -/
theorem windows_tile_long : Tile 1 121 (windows "a.py" [] none 1 (some 121)) :=
  windows_tile "a.py" [] none none (by decide) (by decide)

omit [Interp] in
theorem mem_windowsOf {r c : Region} : c ∈ windowsOf r ↔
    c.symbol = r.symbol ∧ ∃ k, frame.At r.first r.last k (c.first, c.last) := by
  simp only [windowsOf, List.mem_map, Windows.Frame.mem_spans]
  constructor
  · rintro ⟨s, hs, rfl⟩
    exact ⟨rfl, hs⟩
  · rintro ⟨hsymbol, hs⟩
    exact ⟨_, hs, by rw [← hsymbol]⟩

omit [Interp] in
theorem windowsOf_short {r : Region} (hle : r.first ≤ r.last)
    (hshort : r.last + 1 - r.first ≤ frame.size) : windowsOf r = [r] := by
  rw [windowsOf, Windows.Frame.spans_short hle hshort]
  rfl

omit [Interp] in
theorem windowsOf_bounds {r c : Region} (hc : c ∈ windowsOf r) :
    r.first ≤ c.first ∧ c.first ≤ c.last ∧ c.last ≤ r.last ∧
      c.last + 1 - c.first ≤ frame.size := by
  obtain ⟨-, k, hk⟩ := mem_windowsOf.mp hc
  exact hk.bounds

omit [Interp] in
theorem flatMap_windows (path : String) (lines : List (List Char)) (language : Option String)
    {regions : List Region} (hbounds : ∀ r ∈ regions, 1 ≤ r.first ∧ r.first ≤ r.last) :
    ((regions.map (chunkOf path lines language)).flatMap fun c =>
      if c.endLine + 1 - c.startLine ≤ frame.size then [c]
      else windows path lines language c.startLine (some c.endLine) c.symbol) =
    (regions.flatMap windowsOf).map (chunkOf path lines language) := by
  rw [List.flatMap_map, List.map_flatMap]
  refine List.flatMap_congr fun r hr => ?_
  obtain ⟨hone, hle⟩ := hbounds r hr
  change (if r.last + 1 - r.first ≤ frame.size then [chunkOf path lines language r]
    else windows path lines language r.first (some r.last) r.symbol) = _
  split
  · rename_i hshort
    rw [windowsOf_short hle hshort]
    rfl
  · exact windows_eq path lines language (by omega) r.symbol

theorem chunkFile_eq (path text : String) (language : Option String) {lines : List (List Char)}
    (hlines : splitLines text.toList = lines) (hne : lines ≠ []) :
    chunkFile path text language =
      (((regionsOf lines.length (boundaries lines (languageOf path language))).flatMap
        windowsOf).map (chunkOf path lines (languageOf path language))).filter
          fun c => strip c.content ≠ "" := by
  have hpos : 0 < lines.length := List.length_pos_of_ne_nil hne
  have hlayout := regionsOf_layout hpos (boundaries_located lines (languageOf path language))
  simp only [chunkFile, hlines, if_neg hne]
  congr 1
  unfold regionsOf at hlayout ⊢
  split
  · have hwhole : windows path lines (languageOf path language) =
        (windowsOf ⟨1, lines.length, none⟩).map (chunkOf path lines (languageOf path language)) := by
      rw [windows, windowsOf, List.map_map]
      rfl
    rw [hwhole, flatMap_windows, List.flatMap_singleton]
    · congr 1
      calc (windowsOf ⟨1, lines.length, none⟩).flatMap windowsOf
          = (windowsOf ⟨1, lines.length, none⟩).flatMap fun c => [c] :=
            List.flatMap_congr fun c hc => windowsOf_short (windowsOf_bounds hc).2.1
              (windowsOf_bounds hc).2.2.2
        _ = windowsOf ⟨1, lines.length, none⟩ := List.flatMap_singleton' _
    · exact fun c hc => ⟨(windowsOf_bounds hc).1, (windowsOf_bounds hc).2.1⟩
  · rename_i hfound
    rw [if_neg hfound] at hlayout
    exact flatMap_windows path lines _ fun r hr =>
      ⟨(hlayout.bounds r hr).1, (hlayout.bounds r hr).2.1⟩

omit [Interp] in
theorem regions_windows_ascend {n : ℕ} {regions : List Region} (h : Layout n regions) :
    (regions.flatMap windowsOf).Pairwise fun c d => c.first < d.first := by
  refine List.pairwise_flatMap.mpr ⟨fun r _ => ?_, h.apart.imp fun hlt c hc d hd => ?_⟩
  · exact List.pairwise_map.mpr Windows.Frame.spans_ascend
  · have hc := windowsOf_bounds hc
    have hd := windowsOf_bounds hd
    omega

omit [Interp] in
theorem windows_meet {n : ℕ} {regions : List Region} (h : Layout n regions) {r r' c d : Region}
    (hr : r ∈ regions) (hr' : r' ∈ regions) (hc : c ∈ windowsOf r) (hd : d ∈ windowsOf r')
    (hlt : c.first < d.first) (hmeet : d.first ≤ c.last) :
    r' = r ∧ ∃ k, frame.At r.first r.last k (c.first, c.last) ∧
      frame.At r.first r.last (k + 1) (d.first, d.last) ∧ c.last + 1 - d.first = frame.overlap ∧
        c.last ≤ d.last := by
  have hcr := windowsOf_bounds hc
  have hdr := windowsOf_bounds hd
  have hsame : r' = r := by
    by_contra hne
    have : Std.Symm fun r r' : Region => r.last < r'.first ∨ r'.last < r.first :=
      ⟨fun _ _ => Or.symm⟩
    have hapart : regions.Pairwise fun r r' => r.last < r'.first ∨ r'.last < r.first :=
      h.apart.imp .inl
    rcases hapart.forall hr hr' (Ne.symm hne) with hlt | hlt
    · omega
    · omega
  subst hsame
  obtain ⟨-, k, hk⟩ := mem_windowsOf.mp hc
  obtain ⟨-, l, hl⟩ := mem_windowsOf.mp hd
  obtain ⟨rfl, hshared, hle⟩ := hk.overlap (by decide) hl hlt hmeet
  exact ⟨rfl, k, hk, hl, hshared, hle⟩

theorem mem_chunkFile {path text : String} {language : Option String} {lines : List (List Char)}
    (hlines : splitLines text.toList = lines) {c : Chunk} :
    c ∈ chunkFile path text language ↔ lines ≠ [] ∧
      ∃ r ∈ regionsOf lines.length (boundaries lines (languageOf path language)),
        ∃ w ∈ windowsOf r, c = chunkOf path lines (languageOf path language) w ∧
          strip c.content ≠ "" := by
  by_cases hne : lines = []
  · simp [chunkFile, hlines, hne]
  · rw [chunkFile_eq path text language hlines hne, List.mem_filter, List.mem_map,
      and_iff_right hne]
    simp only [List.mem_flatMap, decide_eq_true_eq]
    constructor
    · rintro ⟨⟨w, ⟨r, hr, hw⟩, rfl⟩, hblank⟩
      exact ⟨r, hr, w, hw, rfl, hblank⟩
    · rintro ⟨r, hr, w, hw, rfl, hblank⟩
      exact ⟨⟨w, ⟨r, hr, hw⟩, rfl⟩, hblank⟩

def lineAt (lines : List (List Char)) (i : ℕ) : String := .ofList (lines.getD (i - 1) [])

omit [Interp] in
theorem linesOf_eq {lines : List (List Char)} {start stop : ℕ} (hstart : 1 ≤ start)
    (hle : start ≤ stop) (hstop : stop ≤ lines.length) : linesOf lines start stop =
      join "\n" ((List.range' start (stop + 1 - start)).map (lineAt lines)) := by
  unfold linesOf
  congr 1
  refine List.ext_getElem (by simp; omega) fun i hi hi' => ?_
  simp only [List.length_map, List.length_drop, List.length_take] at hi
  simp only [List.getElem_map, List.getElem_drop, List.getElem_take, List.getElem_range', lineAt]
  rw [List.getD_eq_getElem?_getD, List.getElem?_eq_getElem (by omega), Option.getD_some]
  congr 2
  omega

/-- One is a window of a region that is too long for a chunk, the other the next one. -/
def Adjacent (regions : List Region) (c d : Chunk) : Prop :=
  ∃ r ∈ regions, frame.size < r.last + 1 - r.first ∧ ∃ k,
    frame.At r.first r.last k (c.startLine, c.endLine) ∧
      frame.At r.first r.last (k + 1) (d.startLine, d.endLine)

/-- Where a chunk says it comes from, it comes from. -/
theorem chunks_truthful (path text : String) (language : Option String) :
    let lines := splitLines text.toList
    (∀ c ∈ chunkFile path text language,
      1 ≤ c.startLine ∧ c.startLine ≤ c.endLine ∧ c.endLine ≤ lines.length ∧
        c.endLine - c.startLine + 1 ≤ 120 ∧
        c.content = join "\n"
          ((List.range' c.startLine (c.endLine - c.startLine + 1)).map (lineAt lines))) ∧
    ((chunkFile path text language).map Chunk.startLine).Nodup ∧
    ∀ c ∈ chunkFile path text language, ∀ d ∈ chunkFile path text language,
      c.startLine < d.startLine → d.startLine ≤ c.endLine →
        Adjacent (regionsOf lines.length (boundaries lines (languageOf path language))) c d ∧
          c.endLine - d.startLine + 1 = 15 ∧ c.endLine ≤ d.endLine := by
  intro lines
  have hlines : splitLines text.toList = lines := rfl
  by_cases hne : lines = []
  · simp [chunkFile, hlines, hne]
  have hlayout := regionsOf_layout (List.length_pos_of_ne_nil hne)
    (boundaries_located lines (languageOf path language))
  refine ⟨fun c hc => ?_, ?_, fun c hc d hd hlt hmeet => ?_⟩
  · obtain ⟨-, r, hr, w, hw, rfl, -⟩ := (mem_chunkFile hlines).mp hc
    obtain ⟨hone, -, hlast⟩ := hlayout.bounds r hr
    obtain ⟨hfirst, hle, hend, hsize⟩ := windowsOf_bounds hw
    have hstart : 1 ≤ w.first := hone.trans hfirst
    have hstop : w.last ≤ lines.length := hend.trans hlast
    have hspan : w.last + 1 - w.first = w.last - w.first + 1 := by omega
    refine ⟨hstart, hle, hstop, hspan ▸ hsize, ?_⟩
    rw [chunkOf, linesOf_eq hstart hle hstop, hspan]
  · rw [chunkFile_eq path text language hlines hne]
    refine List.Nodup.sublist (List.filter_sublist.map _) ?_
    rw [List.map_map]
    exact List.pairwise_map.mpr ((regions_windows_ascend hlayout).imp ne_of_lt)
  · obtain ⟨-, r, hr, w, hw, rfl, -⟩ := (mem_chunkFile hlines).mp hc
    obtain ⟨-, r', hr', w', hw', rfl, -⟩ := (mem_chunkFile hlines).mp hd
    obtain ⟨rfl, k, hk, hk', hshared, hle⟩ := windows_meet hlayout hr hr' hw hw' hlt hmeet
    refine ⟨⟨r', hr', hk'.long, k, hk, hk'⟩, ?_, hle⟩
    · have hoverlap : w.last + 1 - w'.first = 15 := hshared
      change w.last - w'.first + 1 = 15
      change w'.first ≤ w.last at hmeet
      omega

/-- Every line with something on it lies in a chunk exactly if the lines before a first
definition that comes early are blank. -/
theorem chunks_cover_iff (path text : String) (language : Option String) :
    let lines := splitLines text.toList
    (∀ i line, lines[i]? = some line → (∃ c ∈ line, Interp.isSpace c = false) →
      ∃ c ∈ chunkFile path text language, c.startLine ≤ i + 1 ∧ i + 1 ≤ c.endLine) ↔
    ∀ b ∈ (boundaries lines (languageOf path language)).head?, b.1 ≤ minChunkLines →
      ∀ i line, i + 1 < b.1 → lines[i]? = some line → ∀ c ∈ line, Interp.isSpace c = true := by
  intro lines
  have hlines : splitLines text.toList = lines := rfl
  have hlocated := boundaries_located lines (languageOf path language)
  have hcover (i : ℕ) (hi : i < lines.length) :=
    regionsOf_cover hlocated (show 1 ≤ i + 1 ∧ i + 1 ≤ lines.length from ⟨Nat.succ_pos i, hi⟩)
  constructor
  · intro h b hb hearly i line hbefore hline c hc
    obtain ⟨hi, -⟩ := List.getElem?_eq_some_iff.mp hline
    by_contra hspace
    obtain ⟨d, hd, hin⟩ := h i line hline ⟨c, hc, Bool.not_eq_true _ ▸ hspace⟩
    obtain ⟨-, r, hr, w, hw, rfl, -⟩ := (mem_chunkFile hlines).mp hd
    have hbounds := windowsOf_bounds hw
    have hholds : r.Holds (i + 1) := ⟨hbounds.1.trans hin.1, hin.2.trans hbounds.2.2.1⟩
    exact absurd ((hcover i hi).mp ⟨r, hr, hholds⟩ b hb hearly) (not_le.mpr hbefore)
  · rintro h i line hline ⟨c, hc, hspace⟩
    obtain ⟨hi, hget⟩ := List.getElem?_eq_some_iff.mp hline
    obtain ⟨r, hr, hholds⟩ := (hcover i hi).mpr fun b hb hearly => by
      by_contra hbefore
      have hblank := h b hb hearly i line (not_le.mp hbefore) hline c hc
      rw [hspace] at hblank
      cases hblank
    obtain ⟨s, hs, hin⟩ := Windows.Frame.exists_span (w := frame) hholds
    have hw : ⟨s.1, s.2, r.symbol⟩ ∈ windowsOf r := List.mem_map.mpr ⟨s, hs, rfl⟩
    have hbounds := (regionsOf_layout (Nat.zero_lt_of_lt hi) hlocated).bounds r hr
    have hwindow := windowsOf_bounds hw
    refine ⟨_, (mem_chunkFile hlines).mpr
      ⟨List.ne_nil_of_length_pos (Nat.zero_lt_of_lt hi), r, hr, _, hw, rfl, ?_⟩, hin⟩
    rw [ne_eq, strip_eq_empty_iff]
    intro hblank
    have hmem : lineAt lines (i + 1) ∈
        (List.range' s.1 (s.2 + 1 - s.1)).map (lineAt lines) :=
      List.mem_map_of_mem (List.mem_range'_1.mpr (by omega))
    rw [chunkOf, linesOf_eq (hbounds.1.trans hwindow.1) hwindow.2.1
      (hwindow.2.2.1.trans hbounds.2.2)] at hblank
    have hspace' := hblank c (mem_join hmem (by simpa [lineAt, hline] using hc))
    rw [hspace] at hspace'
    cases hspace'

end Interp

/-- The one import of a small module is in no chunk. -/
theorem short_header_dropped :
    letI := asciiInterp
    let text := "import os\n\ndef alpha():\n    return os.sep\n"
    (splitLines text.toList)[0]? = some "import os".toList ∧
      ∀ c ∈ chunkFile "m.py" text, ¬ c.startLine ≤ 1 := by
  decide +kernel

end PrSentinel
