import PrSentinel.Diff
import PrSentinel.Grounding
import PrSentinel.Matching
import PrSentinel.PythonLines
import PrSentinel.Regex

set_option autoImplicit false

namespace PrSentinel.Fixtures
open Python PrSentinel Regex

/-- A `dict` of strings, the key set last in front. -/
abbrev Attrs := List (String × String)

def Attrs.put (attrs : Attrs) (key value : String) : Attrs :=
  (key, value) :: attrs.filter fun pair => pair.1 ≠ key

def Attrs.get? (attrs : Attrs) (key : String) : Option String := List.lookup key attrs

inductive BuildError where
  | unknownCategory (name : String) (marker : List Char)
  | needsAgent (marker : List Char)
  | unknownSeverity (value : String)
  | dangling (pending : List Attrs)
  | emptyPatch (case path : String)
  | notInDiff (case path : String) (line : ℕ) (kind : String)
  | keyError (key : String)
  | raised (e : Exc)
  deriving DecidableEq, Repr

theorem built_of_bind {α β : Type} {x : Except BuildError α} {f : α → Except BuildError β} {b : β}
    (h : (x >>= f) = .ok b) : ∃ a, x = .ok a ∧ f a = .ok b := by
  cases x with
  | error e => cases h
  | ok a => exact ⟨a, rfl, h⟩

structure MarkerMatch where
  whole : List Char
  kind : List Char
  attrs : List Char
  note : Option (List Char)

inductive Group where
  | kind | attrs | note
  deriving DecidableEq

def markerKinds : List String := ["EXPECT", "CLEAN", "ALLOW"]

section Interp
variable [Interp]

/-- `MARKER`, but for the `$`, with one of its groups. -/
def markerPattern (group : Group) : Pattern :=
  let grouped (g : Group) (a : Pattern) : Pattern := if g = group then .capture a else a
  .seq (.many Interp.isSpace true) <|
  .seq (.oneOf ["#!", "//!"]) <|
  .seq (.many Interp.isSpace true) <|
  .seq (grouped .kind (.oneOf markerKinds)) <|
  .seq (.boundary inWord) <|
  .seq (grouped .attrs (.many (fun c => c ≠ ':') false)) <|
  .opt <|
  .seq (.many Interp.isSpace true) <|
  .seq (.lit "::") <|
  .seq (.many Interp.isSpace true) <|
  grouped .note (.many (fun c => c ≠ '\n') true)

/-- The preferred match that ends where the line does. -/
def toTheEnd (a : Pattern) (line : List Char) : Option Cursor :=
  (a.run ⟨[], line, none⟩).find? fun place => place.rest.isEmpty

def matchMarker (line : List Char) : Option MarkerMatch := do
  let kind ← toTheEnd (markerPattern .kind) line
  let attrs ← toTheEnd (markerPattern .attrs) line
  let note ← toTheEnd (markerPattern .note) line
  pure ⟨line, kind.captured.getD [], attrs.captured.getD [], note.captured⟩

def cutSeq (sep : List Char) : List Char → Option (List Char × List Char)
  | [] => none
  | c :: cs =>
    if sep.isPrefixOf (c :: cs) then some ([], (c :: cs).drop sep.length)
    else (cutSeq sep cs).map (Prod.map (c :: ·) id)

def readToken (attrs : Attrs) (token : List Char) : Attrs :=
  match cutSeq [Char.ofNat 62, '='] token with
  | some (key, value) => attrs.put ("min_" ++ .ofList key) (.ofList value)
  | none =>
    match cutAt '=' token with
    | some (key, value) => attrs.put (.ofList key) (.ofList value)
    | none => attrs

def checkCategory (m : MarkerMatch) (attrs : Attrs) : Except BuildError Unit :=
  match attrs.get? "category" with
  | none => .ok ()
  | some names =>
    match (split '|' names).find? fun name => (Category.ofValue? name).isNone with
    | some name => .error (.unknownCategory name m.whole)
    | none => .ok ()

def checkExpect (m : MarkerMatch) (attrs : Attrs) : Except BuildError Attrs :=
  if String.ofList m.kind ≠ "EXPECT" then .ok attrs
  else if attrs.get? "agent" = none then .error (.needsAgent m.whole)
  else
    match attrs.get? "min_severity" with
    | none => .ok (attrs.put "min_severity" "info")
    | some severity =>
      if severity ∈ severityNames then .ok attrs else .error (.unknownSeverity severity)

def parseMarker (m : MarkerMatch) : Except BuildError Attrs := do
  let note := strip (.ofList (m.note.getD []))
  let tokens := splitWords Interp.isSpace [] (stripList Interp.isSpace m.attrs)
  let attrs := tokens.foldl readToken (Attrs.put [("kind", .ofList m.kind)] "note" note)
  checkCategory m attrs
  checkExpect m attrs

structure Tag where
  attrs : Attrs
  line : ℕ
  deriving DecidableEq, Repr

/-- The loop of `strip_markers`, `count` lines of code in. -/
def stripFrom (count : ℕ) (pending : List Attrs) :
    List (List Char) → Except BuildError (List (List Char) × List Tag)
  | [] => if pending = [] then .ok ([], []) else .error (.dangling pending)
  | raw :: rest =>
    match matchMarker raw with
    | some m => do
      let label ← parseMarker m
      stripFrom count (pending ++ [label]) rest
    | none => do
      let (out, labels) ← stripFrom (count + 1) [] rest
      pure (raw :: out, pending.map (Tag.mk · (count + 1)) ++ labels)

def stripMarkers (text : String) : Except BuildError (String × List Tag) := do
  let (out, labels) ← stripFrom 0 [] (splitLines text.toList)
  pure (join "\n" (out.map .ofList) ++ (if endswith text "\n" then "\n" else ""), labels)

structure RawCase where
  id : String
  title : String
  summary : String := ""
  body : String := ""
  provenance : Option String := none
  expectedDecision : Option String := none
  before : List (String × String) := []
  after : List (String × String)
  context : List (String × String) := []

structure Entry where
  filePath : String
  line : ℕ
  attrs : Attrs
  deriving DecidableEq, Repr

structure Labelled where
  expected : List Entry := []
  forbidden : List Entry := []
  allowed : List Entry := []

def Labelled.add (labelled : Labelled) (kind : String) (entry : Entry) :
    Except BuildError Labelled :=
  if kind = "EXPECT" then .ok { labelled with expected := labelled.expected ++ [entry] }
  else if kind = "CLEAN" then .ok { labelled with forbidden := labelled.forbidden ++ [entry] }
  else if kind = "ALLOW" then .ok { labelled with allowed := labelled.allowed ++ [entry] }
  else .error (.keyError kind)

structure Fixture where
  id : String
  title : String
  provenance : Option String
  summary : String
  body : String
  expectedDecision : Option String
  files : List PullFile
  contextFiles : List (String × String)
  labelled : Labelled
  permittedConcerns : List (String × String)

def permitted : List (String × String) := [("tests", "test_coverage"), ("docs", "documentation")]

/-- One label of a file goes to the labels of its kind, if it is in the diff. -/
def addTag (case path : String) (addressable : List ℤ) (labelled : Labelled) (tag : Tag) :
    Except BuildError Labelled :=
  let kind := (tag.attrs.get? "kind").getD ""
  if (tag.line : ℤ) ∉ addressable then .error (.notInDiff case path tag.line kind)
  else labelled.add kind ⟨path, tag.line, tag.attrs.filter fun pair => pair.1 ≠ "kind"⟩

def orRaised {α : Type} : Except Exc α → Except BuildError α
  | .ok a => .ok a
  | .error e => .error (.raised e)

def payloadOf (path : String) (isNew : Bool) (patch : String) : PullFile :=
  let lines := splitLines patch.toList
  { filename := path
    status := some (if isNew then "added" else "modified")
    additions := some (lines.countP fun line => line.head? = some '+')
    deletions := some (lines.countP fun line => line.head? = some '-')
    patch := some patch }

variable (makePatch : String → String → String → String)

def addFile (case : RawCase) (state : List PullFile × Labelled) (item : String × String) :
    Except BuildError (List PullFile × Labelled) := do
  let (path, rawAfter) := item
  let (after, labels) ← stripMarkers rawAfter
  let patch := makePatch path ((List.lookup path case.before).getD "") after
  if strip patch = "" then throw (.emptyPatch case.id path)
  let payload := payloadOf path (List.lookup path case.before).isNone patch
  let file ← orRaised (buildDiffFile payload)
  let labelled ← labels.foldlM (addTag case.id path file.addressableLines) state.2
  pure (state.1 ++ [payload], labelled)

def buildCase (case : RawCase) : Except BuildError Fixture := do
  let (files, labelled) ← case.after.foldlM (addFile makePatch case) ([], {})
  pure {
    id := case.id
    title := case.title
    provenance := case.provenance
    summary := case.summary
    body := case.body
    expectedDecision := case.expectedDecision
    files, labelled
    contextFiles := case.context
    permittedConcerns := permitted }

structure GoldenCase extends EvalCase where
  title : String
  summary : String
  body : String
  provenance : Option String
  files : List DiffFile
  contextChunks : List CodeChunk

def labelOf (ref : ℕ) (entry : Entry) : Label where
  ref
  filePath := entry.filePath
  line := entry.line
  note := (entry.attrs.get? "note").getD ""
  agent := entry.attrs.get? "agent"
  category := entry.attrs.get? "category"
  minSeverity := (entry.attrs.get? "min_severity").getD "info"

/-- Each label is an object of its own. -/
def labelsOf (first : ℕ) (entries : List Entry) : List Label :=
  entries.mapIdx fun i entry => labelOf (first + i) entry

def chunkOf (item : String × String) : CodeChunk where
  filePath := item.1
  startLine := 1
  endLine := (splitLines item.2.toList).length
  content := item.2
  score := 1

def loadCase (fixture : Fixture) : Except Exc GoldenCase := do
  let files ← fixture.files.mapM buildDiffFile
  let labelled := fixture.labelled
  pure {
    id := fixture.id
    title := fixture.title
    summary := fixture.summary
    body := fixture.body
    provenance := fixture.provenance
    expectedDecision := fixture.expectedDecision
    files
    contextChunks := fixture.contextFiles.map chunkOf
    expected := labelsOf 0 labelled.expected
    mustNotFind := labelsOf labelled.expected.length labelled.forbidden
    mayFind := labelsOf (labelled.expected.length + labelled.forbidden.length) labelled.allowed
    permittedConcerns := fixture.permittedConcerns }

/-- `load_cases`, from the fixtures in the order of their paths; `none` where there are none. -/
def loadCases (directory : List Fixture) (only : List String) :
    Except Exc (Option (List GoldenCase)) := do
  let chosen := directory.filter fun fixture => only = [] ∨ fixture.id ∈ only
  let cases ← chosen.mapM loadCase
  pure (if cases = [] then none else some cases)

def GoldenCase.pullRequest (c : GoldenCase) : PullRequestContext where
  repoFullName := "eval/" ++ c.id
  repoGithubId := 0
  isPrivate := true
  number := 1
  title := c.title
  body := c.body
  author := "eval"
  headSha := .ofList (List.replicate 40 'e')
  baseSha := .ofList (List.replicate 40 'b')
  files := c.files

end Interp

/-- A line of code under the marker lines above it, each with what it says. -/
structure Piece where
  marks : List (List Char × Attrs)
  code : List Char

def Piece.lines (p : Piece) : List (List Char) := p.marks.map Prod.fst ++ [p.code]

def tagsOf : ℕ → List Piece → List Tag
  | _, [] => []
  | count, p :: pieces =>
    p.marks.map (fun mark => ⟨mark.2, count + 1⟩) ++ tagsOf (count + 1) pieces

section Interp
variable [Interp]

def Reads (raw : List Char) (attrs : Attrs) : Prop :=
  ∃ m, matchMarker raw = some m ∧ parseMarker m = .ok attrs

structure Piece.Valid (p : Piece) : Prop where
  marks : ∀ mark ∈ p.marks, Reads mark.1 mark.2
  code : matchMarker p.code = none

theorem stripFrom_mark {count : ℕ} {pending : List Attrs} {raw : List Char} {attrs : Attrs}
    (h : Reads raw attrs) (rest : List (List Char)) :
    stripFrom count pending (raw :: rest) = stripFrom count (pending ++ [attrs]) rest := by
  obtain ⟨m, hmatch, hparse⟩ := h
  simp only [stripFrom, hmatch, hparse, bind, Except.bind]

theorem stripFrom_code {count : ℕ} {pending : List Attrs} {code : List Char}
    (h : matchMarker code = none) {rest out : List (List Char)} {labels : List Tag}
    (hrest : stripFrom (count + 1) [] rest = .ok (out, labels)) :
    stripFrom count pending (code :: rest) =
      .ok (code :: out, pending.map (Tag.mk · (count + 1)) ++ labels) := by
  simp only [stripFrom, h, hrest, bind, Except.bind, pure, Except.pure]

theorem stripFrom_piece {p : Piece} (hp : p.Valid) {count : ℕ} {pending : List Attrs}
    {rest out : List (List Char)} {labels : List Tag}
    (hrest : stripFrom (count + 1) [] rest = .ok (out, labels)) :
    stripFrom count pending (p.lines ++ rest) =
      .ok (p.code :: out,
        (pending ++ p.marks.map Prod.snd).map (Tag.mk · (count + 1)) ++ labels) := by
  obtain ⟨marks, code⟩ := p
  obtain ⟨hmarks, hcode⟩ := hp
  simp only [Piece.lines] at hmarks hcode ⊢
  induction marks generalizing pending with
  | nil => simpa using stripFrom_code hcode hrest
  | cons mark marks ih =>
    have hmark := hmarks mark List.mem_cons_self
    simp only [List.map_cons, List.cons_append]
    rw [stripFrom_mark hmark, ih fun m hm => hmarks m (List.mem_cons_of_mem mark hm)]
    simp

theorem stripFrom_pieces {pieces : List Piece} (h : ∀ p ∈ pieces, p.Valid) (count : ℕ) :
    stripFrom count [] (pieces.flatMap Piece.lines) =
      .ok (pieces.map Piece.code, tagsOf count pieces) := by
  induction pieces generalizing count with
  | nil => rfl
  | cons p pieces ih =>
    have hrest := ih (fun q hq => h q (List.mem_cons_of_mem p hq)) (count + 1)
    rw [List.flatMap_cons, stripFrom_piece (h p List.mem_cons_self) hrest]
    simp [tagsOf]

theorem pieces_of_stripFrom {count : ℕ} {pending : List Attrs} {lines out : List (List Char)}
    {labels : List Tag} (h : stripFrom count pending lines = .ok (out, labels)) :
    (lines = [] ∧ pending = []) ∨
    ∃ (p : Piece) (pieces : List Piece), lines = p.lines ++ pieces.flatMap Piece.lines ∧
      p.Valid ∧ ∀ q ∈ pieces, q.Valid := by
  induction lines generalizing count pending out labels with
  | nil =>
    simp only [stripFrom] at h
    split at h
    · rename_i hpending
      exact .inl ⟨rfl, hpending⟩
    · cases h
  | cons raw rest ih =>
    right
    simp only [stripFrom] at h
    split at h
    · rename_i m hmatch
      obtain ⟨attrs, hparse, h⟩ := built_of_bind h
      rcases ih h with ⟨-, hpending⟩ | ⟨p, pieces, hlines, hp, hpieces⟩
      · simp at hpending
      · refine ⟨⟨(raw, attrs) :: p.marks, p.code⟩, pieces, ?_, ⟨?_, hp.code⟩, hpieces⟩
        · rw [hlines]
          rfl
        · exact List.forall_mem_cons.mpr ⟨⟨m, hmatch, hparse⟩, hp.marks⟩
    · rename_i hmatch
      obtain ⟨⟨out', labels'⟩, hrest, -⟩ := built_of_bind h
      rcases ih hrest with ⟨rfl, -⟩ | ⟨p, pieces, hlines, hp, hpieces⟩
      · exact ⟨⟨[], raw⟩, [], rfl, ⟨by simp, hmatch⟩, by simp⟩
      · refine ⟨⟨[], raw⟩, p :: pieces, ?_, ⟨by simp, hmatch⟩,
          List.forall_mem_cons.mpr ⟨hp, hpieces⟩⟩
        rw [hlines]
        rfl

theorem stripFrom_ok_iff {count : ℕ} {lines out : List (List Char)} {labels : List Tag} :
    stripFrom count [] lines = .ok (out, labels) ↔ ∃ pieces : List Piece,
      lines = pieces.flatMap Piece.lines ∧ (∀ p ∈ pieces, p.Valid) ∧
        out = pieces.map Piece.code ∧ labels = tagsOf count pieces := by
  constructor
  · intro h
    obtain ⟨pieces, hlines, hvalid⟩ : ∃ pieces : List Piece,
        lines = pieces.flatMap Piece.lines ∧ ∀ p ∈ pieces, p.Valid := by
      rcases pieces_of_stripFrom h with ⟨rfl, -⟩ | ⟨p, pieces, hlines, hp, hpieces⟩
      · exact ⟨[], rfl, by simp⟩
      · exact ⟨p :: pieces, hlines, List.forall_mem_cons.mpr ⟨hp, hpieces⟩⟩
    rw [hlines, stripFrom_pieces hvalid] at h
    cases h
    exact ⟨pieces, hlines, hvalid, rfl, rfl⟩
  · rintro ⟨pieces, rfl, hvalid, rfl, rfl⟩
    exact stripFrom_pieces hvalid count

omit [Interp] in
theorem textLines_final {lines : List (List Char)} (hne : lines ≠ []) :
    (textLines true lines).flatten = (textLines false lines).flatten ++ ['\n'] := by
  induction lines with
  | nil => exact absurd rfl hne
  | cons line lines ih =>
    cases lines with
    | nil => simp [textLines]
    | cons next lines =>
      have hrest := ih (List.cons_ne_nil next lines)
      have hcons (final : Bool) : textLines final (line :: next :: lines) =
          (line ++ ['\n']) :: textLines final (next :: lines) := by simp [textLines]
      rw [hcons, hcons]
      simp [hrest]

theorem stripMarkers_pieces {text after : String} {labels : List Tag} :
    stripMarkers text = .ok (after, labels) ↔ ∃ pieces : List Piece,
      splitLines text.toList = pieces.flatMap Piece.lines ∧ (∀ p ∈ pieces, p.Valid) ∧
        after = join "\n" ((pieces.map Piece.code).map .ofList) ++
          (if endswith text "\n" then "\n" else "") ∧
        labels = tagsOf 0 pieces := by
  constructor
  · intro h
    obtain ⟨⟨out, labels'⟩, hstrip, h⟩ := built_of_bind h
    obtain ⟨pieces, hlines, hvalid, rfl, rfl⟩ := stripFrom_ok_iff.mp hstrip
    cases h
    exact ⟨pieces, hlines, hvalid, rfl, rfl⟩
  · rintro ⟨pieces, hlines, hvalid, rfl, rfl⟩
    simp only [stripMarkers, hlines, stripFrom_pieces hvalid, bind, Except.bind, pure, Except.pure]

omit [Interp] in
theorem tagsOf_bare (codes : List (List Char)) (count : ℕ) :
    tagsOf count (codes.map (Piece.mk [])) = [] := by
  induction codes generalizing count with
  | nil => rfl
  | cons code codes ih => simp [tagsOf, ih]

omit [Interp] in
theorem mem_tagsOf {count : ℕ} {pieces : List Piece} {tag : Tag} (h : tag ∈ tagsOf count pieces) :
    ∃ p, pieces[tag.line - count - 1]? = some p ∧ count < tag.line ∧
      ∃ raw, (raw, tag.attrs) ∈ p.marks := by
  induction pieces generalizing count with
  | nil => cases h
  | cons p pieces ih =>
    rcases List.mem_append.mp h with h | h
    · obtain ⟨mark, hmark, rfl⟩ := List.mem_map.mp h
      exact ⟨p, by simp, Nat.lt_succ_self count, mark.1, hmark⟩
    · obtain ⟨q, hq, hlt, hraw⟩ := ih h
      refine ⟨q, ?_, by omega, hraw⟩
      rw [show tag.line - count - 1 = tag.line - (count + 1) - 1 + 1 by omega]
      exact hq

theorem tag_reads {text after : String} {labels : List Tag}
    (h : stripMarkers text = .ok (after, labels)) :
    ∀ tag ∈ labels, ∃ raw ∈ splitLines text.toList, Reads raw tag.attrs := by
  obtain ⟨pieces, hlines, hvalid, -, rfl⟩ := stripMarkers_pieces.mp h
  intro tag htag
  obtain ⟨p, hp, -, raw, hraw⟩ := mem_tagsOf htag
  have hmem : p ∈ pieces := List.mem_of_getElem? hp
  refine ⟨raw, ?_, (hvalid p hmem).marks _ hraw⟩
  rw [hlines, List.mem_flatMap]
  exact ⟨p, hmem, List.mem_append_left _ (List.mem_map.mpr ⟨_, hraw, rfl⟩)⟩

/-- What a fixture's source may look like, and what is left of it: code lines under their
markers; text that ends in a line feed has the code lines left, and nothing more to strip. -/
theorem stripMarkers_exact (text after : String) (labels : List Tag) :
    (stripMarkers text = .ok (after, labels) ↔ ∃ pieces : List Piece,
      splitLines text.toList = pieces.flatMap Piece.lines ∧ (∀ p ∈ pieces, p.Valid) ∧
        after = join "\n" ((pieces.map Piece.code).map .ofList) ++
          (if endswith text "\n" then "\n" else "") ∧
        labels = tagsOf 0 pieces) ∧
    (stripMarkers text = .ok (after, labels) → endswith text "\n" = true →
      stripMarkers after = .ok (after, []) ∧
      ∀ tag ∈ labels, ∃ code, (splitLines after.toList)[tag.line - 1]? = some code ∧
        ∃ raw ∈ splitLines text.toList, Reads raw tag.attrs) := by
  refine ⟨stripMarkers_pieces, ?_⟩
  intro h hended
  obtain ⟨pieces, hlines, hvalid, rfl, rfl⟩ := stripMarkers_pieces.mp h
  simp only [hended, if_true]
  have hne : pieces.map Piece.code ≠ [] := by
    intro hnil
    rw [List.map_eq_nil_iff.mp hnil, List.flatMap_nil] at hlines
    have htext : text.toList ≠ [] := by
      intro hempty
      rw [endswith, hempty] at hended
      exact absurd hended (by decide)
    exact splitLines_ne_nil htext hlines
  have hclean : ∀ line ∈ pieces.map Piece.code, ∀ c ∈ line, isLineBreak c = false := by
    intro line hline
    obtain ⟨p, hp, rfl⟩ := List.mem_map.mp hline
    refine splitLines_pieces text.toList p.code ?_
    rw [hlines, List.mem_flatMap]
    exact ⟨p, hp, by simp [Piece.lines]⟩
  have hsplit : splitLines (join "\n" ((pieces.map Piece.code).map .ofList) ++ "\n").toList =
      pieces.map Piece.code := by
    rw [String.toList_append, toList_join_lines]
    exact splitLines_ended hne hclean
  constructor
  · refine stripMarkers_pieces.mpr ⟨(pieces.map Piece.code).map (Piece.mk []), ?_, ?_, ?_, ?_⟩
    · rw [hsplit, List.flatMap_map]
      simp [Piece.lines]
    · intro p hp
      obtain ⟨code, hcode, rfl⟩ := List.mem_map.mp hp
      obtain ⟨q, hq, rfl⟩ := List.mem_map.mp hcode
      exact ⟨by simp, (hvalid q hq).code⟩
    · have hnewline : endswith (join "\n" ((pieces.map Piece.code).map .ofList) ++ "\n") "\n" =
          true := endswith_iff.mpr (by rw [String.toList_append]; exact List.suffix_append _ _)
      have hcodes : ((pieces.map Piece.code).map (Piece.mk [])).map Piece.code =
          pieces.map Piece.code := by simp [Function.comp_def]
      rw [hnewline, if_pos rfl, hcodes]
    · rw [tagsOf_bare]
  · intro tag htag
    obtain ⟨p, hp, -⟩ := mem_tagsOf htag
    rw [Nat.sub_zero] at hp
    refine ⟨p.code, ?_, tag_reads h tag htag⟩
    rw [hsplit, List.getElem?_map, hp]
    rfl

omit [Interp] in
theorem lookup_filter_ne {attrs : Attrs} {key other : String} (h : other ≠ key) :
    List.lookup other (attrs.filter fun pair => pair.1 ≠ key) = List.lookup other attrs := by
  induction attrs with
  | nil => rfl
  | cons pair attrs ih =>
    obtain ⟨name, value⟩ := pair
    by_cases hname : name = key
    · have hskip : (other == name) = false := beq_eq_false_iff_ne.mpr (hname ▸ h)
      simp only [List.filter_cons, hname, ne_eq, not_true_eq_false, decide_false,
        Bool.false_eq_true, if_false, ih]
      rw [← hname, List.lookup_cons, hskip]
    · simp only [List.filter_cons, ne_eq, hname, not_false_eq_true, decide_true, if_true,
        List.lookup_cons, ih]

omit [Interp] in
theorem Attrs.get?_put (attrs : Attrs) (key value other : String) :
    (attrs.put key value).get? other = if other = key then some value else attrs.get? other := by
  rw [Attrs.put, Attrs.get?, List.lookup_cons]
  by_cases hother : other = key
  · rw [beq_iff_eq.mpr hother, if_pos hother]
  · rw [beq_eq_false_iff_ne.mpr hother, if_neg hother]
    exact lookup_filter_ne hother

def Attrs.Checked (attrs : Attrs) : Prop :=
  ∀ names, attrs.get? "category" = some names →
    ∀ name ∈ split '|' names, Category.ofValue? name ≠ none

omit [Interp] in
theorem checkCategory_ok {m : MarkerMatch} {attrs : Attrs} (h : checkCategory m attrs = .ok ()) :
    attrs.Checked := by
  intro names hnames name hname hnone
  rw [checkCategory, hnames] at h
  dsimp only at h
  split at h
  · cases h
  · rename_i hfind
    have hsome := List.find?_eq_none.mp hfind name hname
    simp [hnone] at hsome

omit [Interp] in
theorem checkExpect_ok {m : MarkerMatch} {attrs attrs' : Attrs}
    (h : checkExpect m attrs = .ok attrs') :
    attrs'.get? "category" = attrs.get? "category" ∧
    (String.ofList m.kind = "EXPECT" → ∃ severity ∈ severityNames,
      attrs'.get? "min_severity" = some severity) := by
  unfold checkExpect at h
  split at h
  · rename_i hkind
    cases h
    exact ⟨rfl, fun hexpect => absurd hexpect hkind⟩
  · split at h
    · cases h
    · split at h
      · cases h
        exact ⟨by simp [Attrs.get?_put], fun _ => ⟨"info", by decide, by simp [Attrs.get?_put]⟩⟩
      · rename_i severity hgiven
        split at h
        · rename_i hknown
          cases h
          exact ⟨rfl, fun _ => ⟨severity, hknown, hgiven⟩⟩
        · cases h

theorem Reads.checked {raw : List Char} {attrs : Attrs} (h : Reads raw attrs) : attrs.Checked := by
  obtain ⟨m, -, hparse⟩ := h
  obtain ⟨⟨⟩, hcategory, hexpect⟩ := built_of_bind hparse
  intro names hnames
  rw [(checkExpect_ok hexpect).1] at hnames
  exact checkCategory_ok hcategory names hnames

/-- A marker with a `kind=` of its own, that is of another kind. -/
def forged (raw : List Char) : Bool :=
  match matchMarker raw with
  | none => false
  | some m =>
    match parseMarker m with
    | .error _ => false
    | .ok attrs => attrs.get? "kind" ≠ some (.ofList m.kind)

def Unforged (text : String) : Prop := ∀ raw ∈ splitLines text.toList, forged raw = false

instance (text : String) : Decidable (Unforged text) :=
  inferInstanceAs (Decidable (∀ raw ∈ splitLines text.toList, forged raw = false))

theorem Unforged.severity {text : String} (h : Unforged text) {raw : List Char} {attrs : Attrs}
    (hraw : raw ∈ splitLines text.toList) (hreads : Reads raw attrs)
    (hkind : attrs.get? "kind" = some "EXPECT") :
    ∃ severity ∈ severityNames, attrs.get? "min_severity" = some severity := by
  obtain ⟨m, hmatch, hparse⟩ := hreads
  have hown : attrs.get? "kind" = some (.ofList m.kind) := by
    simpa [forged, hmatch, hparse] using h raw hraw
  rw [hkind] at hown
  obtain ⟨⟨⟩, -, hexpect⟩ := built_of_bind hparse
  exact (checkExpect_ok hexpect).2 (Option.some.inj hown).symm

omit [Interp] in
theorem foldlM_keeps {σ α : Type} {f : σ → α → Except BuildError σ} {I : σ → Prop} {xs : List α}
    (hstep : ∀ s a s', a ∈ xs → f s a = .ok s' → I s → I s') {s t : σ}
    (h : xs.foldlM f s = .ok t) (hs : I s) : I t := by
  induction xs generalizing s with
  | nil =>
    cases h
    exact hs
  | cons a xs ih =>
    rw [List.foldlM_cons] at h
    obtain ⟨s', hone, h⟩ := built_of_bind h
    exact ih (fun s a s' ha => hstep s a s' (List.mem_cons_of_mem _ ha)) h
      (hstep s a s' List.mem_cons_self hone hs)

def Labelled.all (labelled : Labelled) : List Entry :=
  labelled.expected ++ labelled.forbidden ++ labelled.allowed

/-- The files have the line of the label, and its categories are categories. -/
structure Held (files : List PullFile) (entry : Entry) : Prop where
  addressed : ∃ payload ∈ files, payload.filename = entry.filePath ∧
    ∃ file, buildDiffFile payload = .ok file ∧ (entry.line : ℤ) ∈ file.addressableLines
  checked : entry.attrs.Checked

theorem Held.mono {files more : List PullFile} {entry : Entry} (h : Held files entry) :
    Held (files ++ more) entry := by
  obtain ⟨payload, hpayload, hfile⟩ := h.addressed
  exact ⟨⟨payload, List.mem_append_left _ hpayload, hfile⟩, h.checked⟩

def Entry.Ranked (entry : Entry) : Prop :=
  ∃ severity ∈ severityNames, entry.attrs.get? "min_severity" = some severity

structure Sound (files : List PullFile) (labelled : Labelled) : Prop where
  held : ∀ entry ∈ labelled.all, Held files entry
  ranked : ∀ entry ∈ labelled.expected, entry.Ranked

omit [Interp] in
theorem Labelled.add_ok {labelled labelled' : Labelled} {kind : String} {entry : Entry}
    (h : labelled.add kind entry = .ok labelled') :
    (∀ e ∈ labelled'.all, e ∈ labelled.all ∨ e = entry) ∧
    ∀ e ∈ labelled'.expected, e ∈ labelled.expected ∨ kind = "EXPECT" ∧ e = entry := by
  unfold Labelled.add at h
  split at h
  · rename_i hkind
    cases h
    constructor
    · intro e he
      simp only [Labelled.all, List.mem_append, List.mem_singleton] at he ⊢
      tauto
    · intro e he
      rcases List.mem_append.mp he with he | he
      · exact .inl he
      · exact .inr ⟨hkind, List.mem_singleton.mp he⟩
  · split at h
    · cases h
      refine ⟨?_, fun e he => .inl he⟩
      intro e he
      simp only [Labelled.all, List.mem_append, List.mem_singleton] at he ⊢
      tauto
    · split at h
      · cases h
        refine ⟨?_, fun e he => .inl he⟩
        intro e he
        simp only [Labelled.all, List.mem_append, List.mem_singleton] at he ⊢
        tauto
      · cases h

theorem Sound.addTag {files : List PullFile} {labelled labelled' : Labelled} {case path : String}
    {payload : PullFile} {file : DiffFile} {tag : Tag} (h : Sound files labelled)
    (hadd : addTag case path file.addressableLines labelled tag = .ok labelled')
    (hpayload : payload ∈ files) (hpath : payload.filename = path)
    (hfile : buildDiffFile payload = .ok file) (hchecked : tag.attrs.Checked)
    (hranked : tag.attrs.get? "kind" = some "EXPECT" → ∃ severity ∈ severityNames,
      tag.attrs.get? "min_severity" = some severity) : Sound files labelled' := by
  unfold Fixtures.addTag at hadd
  dsimp only at hadd
  split at hadd
  · cases hadd
  · rename_i hline
    obtain ⟨hall, hexpected⟩ := Labelled.add_ok hadd
    have hkept {key : String} (hkey : key ≠ "kind") :
        Attrs.get? (tag.attrs.filter fun pair => pair.1 ≠ "kind") key = tag.attrs.get? key :=
      lookup_filter_ne hkey
    constructor
    · intro e he
      rcases hall e he with he | rfl
      · exact h.held e he
      · refine ⟨⟨payload, hpayload, hpath, file, hfile, not_not.mp hline⟩, ?_⟩
        intro names hnames
        rw [hkept (by decide)] at hnames
        exact hchecked names hnames
    · intro e he
      rcases hexpected e he with he | ⟨hkind, rfl⟩
      · exact h.ranked e he
      · have hexpect : tag.attrs.get? "kind" = some "EXPECT" := by
          cases hget : tag.attrs.get? "kind" with
          | none => simp [hget] at hkind
          | some kind => simpa [hget] using hkind
        obtain ⟨severity, hmem, hseverity⟩ := hranked hexpect
        exact ⟨severity, hmem, by rw [hkept (by decide)]; exact hseverity⟩

variable {makePatch : String → String → String → String}

omit [Interp] in
theorem orRaised_ok {α : Type} {x : Except Exc α} {a : α} (h : orRaised x = .ok a) : x = .ok a := by
  cases x with
  | error e => cases h
  | ok b =>
    cases h
    rfl

theorem addFile_ok {case : RawCase} {state state' : List PullFile × Labelled}
    {item : String × String} (h : addFile makePatch case state item = .ok state')
    (hunforged : Unforged item.2) (hsound : Sound state.1 state.2) :
    Sound state'.1 state'.2 ∧ state'.1.map PullFile.filename =
      state.1.map PullFile.filename ++ [item.1] := by
  obtain ⟨path, rawAfter⟩ := item
  obtain ⟨⟨after, labels⟩, hstrip, h⟩ := built_of_bind h
  dsimp only at h
  split at h
  · cases h
  · obtain ⟨file, hfile, h⟩ := built_of_bind h
    obtain ⟨labelled, hlabelled, h⟩ := built_of_bind h
    cases h
    have hgrown (payload : PullFile) : Sound (state.1 ++ [payload]) state.2 :=
      ⟨fun e he => (hsound.held e he).mono, hsound.ranked⟩
    refine ⟨foldlM_keeps (fun l tag l' htag hadd hl => ?_) hlabelled (hgrown _),
      by simp [payloadOf]⟩
    obtain ⟨raw, hraw, hreads⟩ := tag_reads hstrip tag htag
    exact hl.addTag hadd (List.mem_append_right _ List.mem_cons_self) rfl (orRaised_ok hfile)
      hreads.checked (hunforged.severity hraw hreads)

theorem buildCase_ok {case : RawCase} {fixture : Fixture}
    (h : buildCase makePatch case = .ok fixture)
    (hunforged : ∀ item ∈ case.after, Unforged item.2) :
    Sound fixture.files fixture.labelled ∧
      fixture.files.map PullFile.filename = case.after.map Prod.fst := by
  obtain ⟨⟨files, labelled⟩, hfold, h⟩ := built_of_bind h
  cases h
  have hstart : Sound [] {} := ⟨by simp [Labelled.all], by simp⟩
  suffices hrun : ∀ (items : List (String × String)) (state : List PullFile × Labelled),
      (∀ item ∈ items, Unforged item.2) → Sound state.1 state.2 →
      items.foldlM (addFile makePatch case) state = .ok (files, labelled) →
      Sound files labelled ∧ files.map PullFile.filename =
        state.1.map PullFile.filename ++ items.map Prod.fst by
    simpa using hrun case.after ([], {}) hunforged hstart hfold
  intro items
  induction items with
  | nil =>
    rintro state - hstate hdone
    cases hdone
    exact ⟨hstate, by simp⟩
  | cons item items ih =>
    intro state hitems hstate hmore
    rw [List.foldlM_cons] at hmore
    obtain ⟨next, hone, hmore⟩ := built_of_bind hmore
    obtain ⟨hnext, hnames⟩ := addFile_ok hone (hitems item List.mem_cons_self) hstate
    obtain ⟨hdone, hall⟩ := ih next (fun i hi => hitems i (List.mem_cons_of_mem _ hi)) hnext hmore
    exact ⟨hdone, by rw [hall, hnames]; simp⟩

omit [Interp] in
theorem mem_labelsOf {first : ℕ} {entries : List Entry} {x : Label}
    (h : x ∈ labelsOf first entries) :
    ∃ entry ∈ entries, ∃ ref, x = labelOf ref entry := by
  obtain ⟨i, hi, rfl⟩ := List.mem_mapIdx.mp h
  exact ⟨_, List.getElem_mem hi, _, rfl⟩

structure Loaded (fixture : Fixture) (c : GoldenCase) : Prop where
  files : List.Forall₂ (fun payload file => buildDiffFile payload = .ok file) fixture.files c.files
  expected : c.expected = labelsOf 0 fixture.labelled.expected
  mustNotFind : c.mustNotFind =
    labelsOf fixture.labelled.expected.length fixture.labelled.forbidden
  mayFind : c.mayFind = labelsOf
    (fixture.labelled.expected.length + fixture.labelled.forbidden.length) fixture.labelled.allowed

theorem loadCase_ok {fixture : Fixture} {c : GoldenCase} (h : loadCase fixture = .ok c) :
    Loaded fixture c := by
  obtain ⟨files, hfiles, h⟩ := Python.ok_of_bind h
  cases h
  exact ⟨forall₂_of_mapM hfiles, rfl, rfl, rfl⟩

theorem mem_loadCases {directory : List Fixture} {only : List String} {cases : List GoldenCase}
    (h : loadCases directory only = .ok (some cases)) {c : GoldenCase} (hc : c ∈ cases) :
    ∃ fixture ∈ directory, (only = [] ∨ fixture.id ∈ only) ∧ loadCase fixture = .ok c := by
  obtain ⟨loaded, hloaded, h⟩ := Python.ok_of_bind h
  have hcases : loaded = cases := by
    by_cases hnone : loaded = [] <;> simp_all [pure, Except.pure]
  subst hcases
  obtain ⟨fixture, hfixture, hload⟩ := exists_mem_of_forall₂ (forall₂_of_mapM hloaded).flip hc
  obtain ⟨hmem, hchosen⟩ := List.mem_filter.mp hfixture
  exact ⟨fixture, hmem, by simpa using hchosen, hload⟩

theorem buildDiffFile_path {payload : PullFile} {file : DiffFile}
    (h : buildDiffFile payload = .ok file) : file.path = payload.filename := by
  obtain ⟨hunks, -, h⟩ := Python.ok_of_bind h
  cases h
  rfl

theorem mem_labels {fixture : Fixture} {c : GoldenCase} (hloaded : Loaded fixture c) {x : Label}
    (hx : x ∈ c.expected ++ c.mustNotFind ++ c.mayFind) :
    ∃ entry ∈ fixture.labelled.all, ∃ ref, x = labelOf ref entry := by
  rw [hloaded.expected, hloaded.mustNotFind, hloaded.mayFind] at hx
  simp only [Labelled.all, List.mem_append] at hx ⊢
  rcases hx with (hx | hx) | hx
  · obtain ⟨entry, hentry, ref⟩ := mem_labelsOf hx
    exact ⟨entry, .inl (.inl hentry), ref⟩
  · obtain ⟨entry, hentry, ref⟩ := mem_labelsOf hx
    exact ⟨entry, .inl (.inr hentry), ref⟩
  · obtain ⟨entry, hentry, ref⟩ := mem_labelsOf hx
    exact ⟨entry, .inr hentry, ref⟩

theorem Held.loaded {fixture : Fixture} {c : GoldenCase} (hloaded : Loaded fixture c)
    {entry : Entry} (h : Held fixture.files entry) :
    ∃ file ∈ c.files, file.path = entry.filePath ∧ (entry.line : ℤ) ∈ file.addressableLines := by
  obtain ⟨payload, hpayload, hpath, file, hfile, hline⟩ := h.addressed
  obtain ⟨loaded, hmem, hbuilt⟩ := exists_mem_of_forall₂ hloaded.files hpayload
  obtain rfl : file = loaded := Except.ok.inj (hfile.symm.trans hbuilt)
  exact ⟨file, hmem, (buildDiffFile_path hfile).trans hpath, hline⟩

theorem Loaded.paths {fixture : Fixture} {c : GoldenCase} (h : Loaded fixture c) :
    c.files.map DiffFile.path = fixture.files.map PullFile.filename := by
  have hfiles := h.files
  generalize c.files = files at hfiles
  generalize fixture.files = payloads at hfiles
  induction hfiles with
  | nil => rfl
  | cons hfile _ ih => rw [List.map_cons, List.map_cons, ih, buildDiffFile_path hfile]

omit [Interp] in
theorem families_of_checked {names : List String}
    (h : ∀ name ∈ names, Category.ofValue? name ≠ none) :
    ∃ found, names.mapM (fun name => (Category.ofValue? name).map familyOf) = some found ∧
      ∀ category : Category, category.value ∈ names → familyOf category ∈ found := by
  induction names with
  | nil => exact ⟨[], rfl, by simp⟩
  | cons name names ih =>
    obtain ⟨found, hfound, hall⟩ := ih fun n hn => h n (List.mem_cons_of_mem name hn)
    obtain ⟨first, hfirst⟩ := Option.ne_none_iff_exists'.mp (h name List.mem_cons_self)
    refine ⟨familyOf first :: found, by simp [List.mapM_cons, hfirst, hfound], ?_⟩
    intro category hcategory
    rcases List.mem_cons.mp hcategory with rfl | hcategory
    · rw [Category.ofValue?_value] at hfirst
      cases hfirst
      exact List.mem_cons_self
    · exact List.mem_cons_of_mem _ (hall category hcategory)

omit [Interp] in
theorem sameConcern_of_named {f : Finding} {x : Label} (hcategories : f.categories = [])
    (hchecked : ∀ names, x.category = some names → ∀ name ∈ split '|' names,
      Category.ofValue? name ≠ none)
    (hnamed : ∀ names, x.category = some names → f.category.value ∈ split '|' names) :
    sameConcern f x = .ok true := by
  unfold sameConcern
  cases hcategory : x.category with
  | none => rfl
  | some names =>
    obtain ⟨found, hfound, hall⟩ := families_of_checked (hchecked names hcategory)
    have hmem := hall f.category (hnamed names hcategory)
    have hfamilies : families names = some found := hfound
    simp [hfamilies, Finding.found, hcategories, anyOf, first, inFamilies, hmem]

omit [Interp] in
theorem judge_hit {expected forbidden allowed : List Label} {concerns : List (String × String)}
    {f : Finding} (hnamed : f.Named) (hranks : ∀ x ∈ expected, x.minSeverity ∈ severityNames)
    {x : Label} (hx : x ∈ expected) (hclaims : claims f x = .ok true) :
    ∃ m, judge expected forbidden allowed concerns f = .ok m ∧ m.kind = .hit ∧ x ∈ m.labels := by
  have hcredit : x ∈ credited expected f := List.mem_filter.mpr ⟨hx, holds_iff.mpr hclaims⟩
  have hselect : select (claims f) expected = .ok (credited expected f) :=
    select_ok_iff.mpr ⟨fun x _ => claims_answers hnamed x, rfl⟩
  cases hcredited : credited expected f with
  | nil =>
    rw [hcredited] at hcredit
    cases hcredit
  | cons primary rest =>
    have hprimary : primary ∈ credited expected f := hcredited ▸ List.mem_cons_self
    have hrank := hranks primary (List.mem_filter.mp hprimary).1
    rw [hcredited] at hselect hcredit
    exact ⟨_, ok_bind_iff.mpr ⟨_, hselect, ok_bind_iff.mpr ⟨_, if_pos hrank, rfl⟩⟩, rfl, hcredit⟩

theorem ground_on_line [Pydantic] {pr : PullRequestContext} {file : DiffFile}
    {path title rationale : String} {line : ℤ} {confidence : ℚ} {raw : List (String × Json)}
    (agent : AgentType) (id : UUID) (hfile : pr.file path = some file)
    (hpath : ∀ c ∈ path.toList.head?, c ≠ '.' ∧ c ≠ '/')
    (hraw : WellTyped raw path title rationale line line confidence)
    (hline : line ∈ file.addressableLines)
    (htitle : strip (upto 200 title) ≠ "") (hrationale : strip (upto 4000 rationale) ≠ "") :
    ∃ f, ground agent id raw pr = .ok (some (f, false)) ∧ f.filePath = file.path ∧
      f.lineStart = line ∧ f.categories = [] ∧
      f.category = coerce Category.ofValue? (Json.getD raw "category" .null) .other := by
  have htitle' : (Json.getD raw "title" (.str "")).toStr = title := by
    simp [Json.getD, hraw.title, Json.toStr]
  have hrationale' : (Json.getD raw "rationale" (.str "")).toStr = rationale := by
    simp [Json.getD, hraw.rationale, Json.toStr]
  obtain ⟨items, hitems⟩ := hraw.evidence_ok file.path
  have htop : ∃ top, file.addressableLines.max? = some top := by
    cases hmax : file.addressableLines.max? with
    | none =>
      rw [List.max?_eq_none_iff.mp hmax] at hline
      cases hline
    | some top => exact ⟨top, rfl⟩
  obtain ⟨top, htop⟩ := htop
  have hanchor : anchor file.addressableLines top line line =
      some (line, max line (min line top), false) := by rw [anchor, if_pos hline]
  unfold ground
  rw [resolve_cited hraw.filePath hfile hpath]
  simp only [htop, hraw.numbers, hanchor, hitems, htitle', hrationale', bind, Except.bind,
    htitle, hrationale, or_self, if_false]
  exact ⟨_, rfl, rfl, rfl, rfl, rfl⟩

/-- Every label of the golden set can be found: what an agent reports on its line, under one
of its categories, is grounded where it was put and is a hit on the label. -/
theorem label_reachable [Pydantic] {case : RawCase} {fixture : Fixture} {c : GoldenCase}
    (hbuild : buildCase makePatch case = .ok fixture) (hload : loadCase fixture = .ok c)
    (hkeys : (case.after.map Prod.fst).Nodup) (hunforged : ∀ item ∈ case.after, Unforged item.2) :
    (∀ x ∈ c.expected ++ c.mustNotFind ++ c.mayFind,
      ∃ file ∈ c.files, file.path = x.filePath ∧ x.line ∈ file.addressableLines) ∧
    ∀ x ∈ c.expected, (∀ ch ∈ x.filePath.toList.head?, ch ≠ '.' ∧ ch ≠ '/') →
      ∀ (raw : List (String × Json)) (title rationale : String) (confidence : ℚ),
        WellTyped raw x.filePath title rationale x.line x.line confidence →
        strip (upto 200 title) ≠ "" → strip (upto 4000 rationale) ≠ "" →
        (∀ names, x.category = some names →
          (coerce Category.ofValue? (Json.getD raw "category" .null) .other).value ∈
            split '|' names) →
        ∀ agent id, ∃ f m, ground agent id raw c.pullRequest = .ok (some (f, false)) ∧
          f.filePath = x.filePath ∧ f.lineStart = x.line ∧
          judge c.expected c.mustNotFind c.mayFind c.permittedConcerns f = .ok m ∧
          m.kind = .hit ∧ x ∈ m.labels := by
  obtain ⟨hsound, hnames⟩ := buildCase_ok hbuild hunforged
  have hloaded := loadCase_ok hload
  have hall : ∀ x ∈ c.expected ++ c.mustNotFind ++ c.mayFind,
      ∃ file ∈ c.files, file.path = x.filePath ∧ x.line ∈ file.addressableLines := by
    intro x hx
    obtain ⟨entry, hentry, ref, rfl⟩ := mem_labels hloaded hx
    exact (hsound.held entry hentry).loaded hloaded
  refine ⟨hall, ?_⟩
  intro x hx hpath raw title rationale confidence hraw htitle hrationale hcategory agent id
  obtain ⟨file, hmem, hfilePath, hline⟩ :=
    hall x (List.mem_append_left _ (List.mem_append_left _ hx))
  have hpaths : (c.pullRequest.files.map DiffFile.path).Nodup := by
    change (c.files.map DiffFile.path).Nodup
    rw [hloaded.paths, hnames]
    exact hkeys
  have hfile : c.pullRequest.file x.filePath = some file :=
    (file_eq_some_iff hpaths).mpr ⟨hmem, hfilePath⟩
  obtain ⟨f, hground, hat, hstart, hcategories, hcoerced⟩ :=
    ground_on_line agent id hfile hpath hraw hline htitle hrationale
  have hranks : ∀ y ∈ c.expected, y.minSeverity ∈ severityNames := by
    intro y hy
    rw [hloaded.expected] at hy
    obtain ⟨entry, hentry, ref, rfl⟩ := mem_labelsOf hy
    obtain ⟨severity, hknown, hseverity⟩ := hsound.ranked entry hentry
    simpa [labelOf, hseverity] using hknown
  have hchecked : ∀ names, x.category = some names → ∀ name ∈ split '|' names,
      Category.ofValue? name ≠ none := by
    rw [hloaded.expected] at hx
    obtain ⟨entry, hentry, ref, rfl⟩ := mem_labelsOf hx
    exact (hsound.held entry (by simp [Labelled.all, hentry])).checked
  have hlocates : locates f x = true := by
    have horder := f.lineOrder
    simp only [locates, near, hat, hfilePath, hstart] at horder ⊢
    simp [horder]
  have hclaims : claims f x = .ok true := by
    rw [claims, if_pos hlocates]
    exact sameConcern_of_named hcategories hchecked (by rw [hcoerced]; exact hcategory)
  have hnamed : f.Named := by simp [Finding.Named, hcategories]
  obtain ⟨m, hjudge, hkind, hlabels⟩ := judge_hit hnamed hranks hx hclaims
  exact ⟨f, m, hground, hat.trans hfilePath, hstart, hjudge, hkind, hlabels⟩

end Interp

def sampleMarker : String :=
  "#!EXPECT agent=security category=injection severity>=major :: eval of what it is given"

def sampleCase : RawCase where
  id := "sec-eval"
  title := "Add eval"
  after := [("app.py", "import os\n" ++ sampleMarker ++ "\neval(x)\n")]

def samplePatch (_ _ _ : String) : String := "@@ -0,0 +1,2 @@\n+import os\n+eval(x)"

def sampleRaw : List (String × Json) :=
  [("file_path", .str "app.py"), ("line_start", .int 2), ("line_end", .int 2),
    ("confidence", .float (.fin (9 / 10))), ("title", .str "t"), ("body", .str ""),
    ("rationale", .str "r"), ("evidence", .arr []), ("category", .str "injection")]

theorem sample_unforged : ∀ item ∈ sampleCase.after, @Unforged asciiInterp item.2 := by
  decide +kernel

def labelFields (x : Label) : String × ℤ × Option String := (x.filePath, x.line, x.category)

def loadedLabels [Interp] (case : RawCase) :
    Except BuildError (List (String × ℤ × Option String)) := do
  let fixture ← buildCase samplePatch case
  let c ← orRaised (loadCase fixture)
  pure (c.expected.map labelFields)

theorem sample_labels :
    @loadedLabels asciiInterp sampleCase = .ok [("app.py", 2, some "injection")] := by
  decide +kernel

theorem sample_category :
    (@coerce asciiInterp _ Category.ofValue? (Json.getD sampleRaw "category" .null) .other).value ∈
      split '|' "injection" := by
  decide +kernel

theorem sample_texts : @strip asciiInterp (upto 200 "t") ≠ "" ∧
    @strip asciiInterp (upto 4000 "r") ≠ "" := by
  decide +kernel

theorem sample_path : ∀ c ∈ "app.py".toList.head?, c ≠ '.' ∧ c ≠ '/' := by
  intro c hc
  obtain rfl : 'a' = c := Option.some.inj hc
  decide

theorem sample_typed : @WellTyped asciiInterp sampleRaw "app.py" "t" "r" 2 2 (9 / 10) :=
  let _ := asciiInterp
  ⟨rfl, rfl, ⟨"", rfl⟩, rfl, rfl, rfl, ⟨.float (.fin (9 / 10)), rfl, rfl⟩, ⟨[], rfl⟩⟩

theorem label_reachable_sample :
    let _ := asciiInterp
    let _ := strictPydantic
    ∃ fixture c, buildCase samplePatch sampleCase = .ok fixture ∧ loadCase fixture = .ok c ∧
      ∃ x ∈ c.expected, x.line = 2 ∧
        ∃ f m, ground .security 7 sampleRaw c.pullRequest = .ok (some (f, false)) ∧
          judge c.expected c.mustNotFind c.mayFind c.permittedConcerns f = .ok m ∧ m.kind = .hit ∧
          x ∈ m.labels := by
  intro _ _
  obtain ⟨fixture, hbuild, hrest⟩ := built_of_bind sample_labels
  obtain ⟨c, hload, hlabels⟩ := built_of_bind hrest
  have hload := orRaised_ok hload
  obtain ⟨x, hx, hfields⟩ : ∃ x ∈ c.expected, labelFields x = ("app.py", 2, some "injection") :=
    List.mem_map.mp (Except.ok.inj hlabels ▸ List.mem_cons_self)
  obtain ⟨hpath, hline, hcategory⟩ : x.filePath = "app.py" ∧ x.line = 2 ∧
      x.category = some "injection" := by simpa [labelFields] using hfields
  have hfound := (label_reachable hbuild hload (by decide) sample_unforged).2 x hx
  rw [hpath, hline, hcategory] at hfound
  obtain ⟨f, m, hground, -, -, hjudge, hkind, hcredited⟩ := hfound sample_path sampleRaw
    "t" "r" (9 / 10) sample_typed sample_texts.1 sample_texts.2
    (fun names hnames => Option.some.inj hnames ▸ sample_category) .security 7
  exact ⟨fixture, c, hbuild, hload, x, hx, hline, f, m, hground, hjudge, hkind, hcredited⟩

end PrSentinel.Fixtures
