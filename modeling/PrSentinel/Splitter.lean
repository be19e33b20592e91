import PrSentinel.PythonLines

set_option autoImplicit false

namespace PrSentinel.Splitter
open Python

def quote : Char := Char.ofNat 39
def doubleQuote : Char := Char.ofNat 34

def inTag (c : Char) : Bool := c.isAlphanum || c = '_'

structure Tag where
  name : List Char
  legal : ∀ c ∈ name, inTag c = true
  deriving DecidableEq

def Tag.delimiter (tag : Tag) : List Char := '$' :: (tag.name ++ ['$'])

/-- Which of the scanner's flags is set; at most one is. -/
inductive Mode where
  | top | lineComment | blockComment | dollar (tag : Tag) | single | double
  deriving DecidableEq

def dollarTag (cs : List Char) : Option Tag :=
  let name := cs.takeWhile inTag
  if (cs.drop name.length).head? = some '$' && !name.head?.any Char.isDigit then
    some ⟨name, fun _ hc => List.mem_takeWhile_imp hc⟩
  else none

/-- What one round of the loop comes to: text appended to the buffer, or the buffer emptied. -/
inductive Round where
  | keep (text : List Char) (mode : Mode) (rest : List Char)
  | cut (rest : List Char)

/-- One round, on the character under the index and those behind it; there is none where
`sql[i + 1]` would raise. -/
def advance (mode : Mode) (c : Char) (cs : List Char) : Option Round :=
  let two := (c :: cs).take 2
  match mode with
  | .lineComment => some (.keep [c] (if c = '\n' then .top else .lineComment) cs)
  | .blockComment =>
    if two = ['*', '/'] then cs.head?.map fun d => .keep [c, d] .top (cs.drop 1)
    else some (.keep [c] .blockComment cs)
  | .dollar tag =>
    if tag.delimiter.isPrefixOf (c :: cs) then
      some (.keep tag.delimiter .top ((c :: cs).drop tag.delimiter.length))
    else some (.keep [c] (.dollar tag) cs)
  | .single => some (.keep [c] (if c = quote then .top else .single) cs)
  | .double => some (.keep [c] (if c = doubleQuote then .top else .double) cs)
  | .top =>
    if two = ['-', '-'] then some (.keep two .lineComment (cs.drop 1))
    else if two = ['/', '*'] then some (.keep two .blockComment (cs.drop 1))
    else if c = quote then some (.keep [c] .single cs)
    else if c = doubleQuote then some (.keep [c] .double cs)
    else match if c = '$' then dollarTag cs else none with
      | some tag => some (.keep tag.delimiter (.dollar tag) ((c :: cs).drop tag.delimiter.length))
      | none => if c = ';' then some (.cut cs) else some (.keep [c] .top cs)

theorem dollarTag_spec {cs : List Char} {tag : Tag} (h : dollarTag cs = some tag) :
    ∃ rest, '$' :: cs = tag.delimiter ++ rest := by
  unfold dollarTag at h
  dsimp only at h
  split at h
  · rename_i hmatch
    obtain rfl := Option.some.inj h
    have hnext := of_decide_eq_true (Bool.and_eq_true_iff.mp hmatch).1
    obtain ⟨rest, hrest⟩ := List.head?_eq_some_iff.mp hnext
    have hsplit := List.prefix_iff_eq_append.mp (List.takeWhile_prefix (l := cs) inTag)
    rw [hrest] at hsplit
    exact ⟨rest, by simp [Tag.delimiter, hsplit]⟩
  · cases h

theorem Tag.delimiter_chars (tag : Tag) : ∀ c ∈ tag.delimiter, inTag c = true ∨ c = '$' := by
  intro c hc
  rcases List.mem_cons.mp hc with rfl | hc
  · exact .inr rfl
  · rcases List.mem_append.mp hc with hc | hc
    · exact .inl (tag.legal c hc)
    · exact .inr (List.mem_singleton.mp hc)

theorem advance_spec (mode : Mode) (c : Char) (cs : List Char) :
    (∃ text mode' rest, advance mode c cs = some (.keep text mode' rest) ∧ text ≠ [] ∧
      text ++ rest = c :: cs) ∨
    (mode = .top ∧ c = ';' ∧ advance mode c cs = some (.cut cs)) := by
  have hpair {a b : Char} (h : (c :: cs).take 2 = [a, b]) : c = a ∧ cs = b :: cs.drop 1 := by
    cases cs with
    | nil => simp at h
    | cons d cs => simpa using h
  cases mode with
  | lineComment => exact .inl ⟨[c], _, cs, rfl, by simp, rfl⟩
  | blockComment =>
    by_cases htwo : (c :: cs).take 2 = ['*', '/']
    · obtain ⟨rfl, hcs⟩ := hpair htwo
      refine .inl ⟨['*', '/'], .top, cs.drop 1, ?_, by simp, congrArg _ hcs.symm⟩
      rw [hcs]
      rfl
    · exact .inl ⟨[c], .blockComment, cs, by simp only [advance, if_neg htwo], by simp, rfl⟩
  | dollar tag =>
    by_cases hclose : tag.delimiter.isPrefixOf (c :: cs) = true
    · obtain ⟨rest, hrest⟩ := List.isPrefixOf_iff_prefix.mp hclose
      refine .inl ⟨tag.delimiter, .top, rest, ?_, by simp [Tag.delimiter], hrest⟩
      simp only [advance, if_pos hclose]
      rw [← hrest, List.drop_left]
    · exact .inl ⟨[c], .dollar tag, cs, by simp only [advance, if_neg hclose], by simp, rfl⟩
  | single => exact .inl ⟨[c], _, cs, rfl, by simp, rfl⟩
  | double => exact .inl ⟨[c], _, cs, rfl, by simp, rfl⟩
  | top =>
    simp only [advance]
    split
    · rename_i htwo
      obtain ⟨rfl, hcs⟩ := hpair htwo
      exact .inl ⟨_, _, _, rfl, by simp, List.take_append_drop 2 _⟩
    · split
      · rename_i htwo
        exact .inl ⟨_, _, _, rfl, by simp, List.take_append_drop 2 _⟩
      · split
        · exact .inl ⟨[c], _, cs, rfl, by simp, rfl⟩
        · split
          · exact .inl ⟨[c], _, cs, rfl, by simp, rfl⟩
          · split
            · rename_i tag htag
              refine .inl ⟨_, _, _, rfl, by simp [Tag.delimiter], ?_⟩
              split at htag
              · rename_i hdollar
                obtain ⟨rest, hrest⟩ := dollarTag_spec htag
                rw [hdollar, hrest, List.drop_left]
              · cases htag
            · split
              · rename_i hsemicolon
                exact .inr ⟨trivial, hsemicolon, rfl⟩
              · exact .inl ⟨[c], .top, cs, rfl, by simp, rfl⟩

def scan (mode : Mode) (buf : List Char) : List Char → Option (List (List Char))
  | [] => some [buf]
  | c :: cs =>
    match _ : advance mode c cs with
    | none => none
    | some (.keep text mode' rest) => scan mode' (buf ++ text) rest
    | some (.cut rest) => (scan .top [] rest).map fun segments => buf :: segments
termination_by cs => cs.length
decreasing_by
  · rename_i hround
    rcases advance_spec mode c cs with ⟨_, _, _, heq, hne, hcs⟩ | ⟨_, _, heq⟩
    · rw [hround] at heq
      cases heq
      have hlength := congrArg List.length hcs
      have hpos := List.length_pos_of_ne_nil hne
      rw [List.length_append, List.length_cons] at hlength
      rw [List.length_cons]
      omega
    · rw [hround] at heq
      cases heq
  · rename_i hround
    rcases advance_spec mode c cs with ⟨_, _, _, heq, _⟩ | ⟨_, _, heq⟩
    · rw [hround] at heq
      cases heq
    · rw [hround] at heq
      cases heq
      exact Nat.lt_succ_self _

section Interp
variable [Interp]

def isOnlyComments (stmt : String) : Bool :=
  let kept := ((splitLines stmt.toList).map String.ofList).filter fun line =>
    strip line ≠ "" && !startswith (strip line) "--"
  strip (join "\n" kept) = ""

def splitStatements (sql : String) : Option (List String) :=
  (scan .top [] sql.toList).map fun segments =>
    let out := (segments.map fun segment => strip (.ofList segment)).filter fun stmt => stmt ≠ ""
    out.filter fun stmt => !isOnlyComments stmt

end Interp

theorem scan_keep {mode mode' : Mode} {c : Char} {cs text rest : List Char}
    (h : advance mode c cs = some (.keep text mode' rest)) (buf : List Char) :
    scan mode buf (c :: cs) = scan mode' (buf ++ text) rest := by
  rw [scan]
  split
  · rename_i heq
    rw [h] at heq
    cases heq
  · rename_i heq
    rw [h] at heq
    cases heq
    rfl
  · rename_i heq
    rw [h] at heq
    cases heq

theorem advance_semicolon (cs : List Char) : advance .top ';' cs = some (.cut cs) := by
  cases cs <;> rfl

theorem scan_semicolon (buf cs : List Char) :
    scan .top buf (';' :: cs) = (scan .top [] cs).map fun segments => buf :: segments := by
  rw [scan]
  split
  · rename_i heq
    rw [advance_semicolon] at heq
    cases heq
  · rename_i heq
    rw [advance_semicolon] at heq
    cases heq
  · rename_i heq
    rw [advance_semicolon] at heq
    cases heq
    rfl

/-- Text passed without a cut, and what is left of the input then. -/
inductive Scans : Mode → List Char → List Char → Mode → List Char → Prop where
  | refl (mode : Mode) (rest : List Char) : Scans mode rest [] mode rest
  | step {mode mode' mode'' : Mode} {c : Char} {cs text rest more rest' : List Char}
      (h : advance mode c cs = some (.keep text mode' rest))
      (hs : Scans mode' rest more mode'' rest') :
      Scans mode (c :: cs) (text ++ more) mode'' rest'

theorem Scans.one {mode mode' : Mode} {c : Char} {cs text rest : List Char}
    (h : advance mode c cs = some (.keep text mode' rest)) :
    Scans mode (c :: cs) text mode' rest := by
  simpa using Scans.step h (.refl mode' rest)

theorem Scans.trans {m m' m'' : Mode} {cs text rest more rest' : List Char}
    (h : Scans m cs text m' rest) (h' : Scans m' rest more m'' rest') :
    Scans m cs (text ++ more) m'' rest' := by
  induction h with
  | refl => exact h'
  | step hround _ ih =>
    rw [List.append_assoc]
    exact .step hround (ih h')

theorem keep_text {mode mode' : Mode} {c : Char} {cs text rest : List Char}
    (h : advance mode c cs = some (.keep text mode' rest)) :
    text ≠ [] ∧ text ++ rest = c :: cs := by
  rcases advance_spec mode c cs with ⟨_, _, _, heq, hne, hcs⟩ | ⟨_, _, heq⟩
  · rw [h] at heq
    cases heq
    exact ⟨hne, hcs⟩
  · rw [h] at heq
    cases heq

theorem Scans.input {m m' : Mode} {cs text rest : List Char} (h : Scans m cs text m' rest) :
    text ++ rest = cs := by
  induction h with
  | refl => rfl
  | step hround _ ih => rw [List.append_assoc, ih, (keep_text hround).2]

theorem Scans.scan_eq {m m' : Mode} {cs text rest : List Char} (h : Scans m cs text m' rest)
    (buf : List Char) : scan m buf cs = scan m' (buf ++ text) rest := by
  induction h generalizing buf with
  | refl => rw [List.append_nil]
  | step hround _ ih => rw [scan_keep hround, ih, List.append_assoc]

theorem exists_scans (mode : Mode) (cs : List Char) :
    (∃ mode', Scans mode cs cs mode' []) ∨ ∃ text rest, Scans mode cs text .top (';' :: rest) := by
  induction hn : cs.length using Nat.strongRecOn generalizing mode cs with
  | ind n ih =>
    cases cs with
    | nil => exact .inl ⟨mode, .refl mode []⟩
    | cons c cs =>
      rcases advance_spec mode c cs with ⟨text, mode', rest, hround, hne, hcs⟩ | ⟨rfl, rfl, _⟩
      · have hlength := congrArg List.length hcs
        have hpos := List.length_pos_of_ne_nil hne
        rw [List.length_append] at hlength
        rcases ih rest.length (by omega) mode' rest rfl with ⟨mode'', hs⟩ | ⟨more, rest', hs⟩
        · exact .inl ⟨mode'', hcs ▸ .step hround hs⟩
        · exact .inr ⟨text ++ more, rest', .step hround hs⟩
      · exact .inr ⟨[], cs, .refl _ _⟩

def TagEnds (after : List Char) : Prop := ∀ c ∈ after.head?, inTag c = false ∧ c ≠ '$'

theorem takeWhile_after {after : List Char} (hafter : TagEnds after) (cs : List Char) :
    (cs ++ after).takeWhile inTag = cs.takeWhile inTag := by
  have hnone : after.takeWhile inTag = [] := by
    cases after with
    | nil => rfl
    | cons c after => rw [List.takeWhile_cons_of_neg (by simp [(hafter c rfl).1])]
  rw [List.takeWhile_append]
  split
  · rename_i hall
    rw [hnone, List.append_nil, (List.takeWhile_prefix inTag).eq_of_length hall]
  · rfl

theorem dollarTag_append {after : List Char} (hafter : TagEnds after) (cs : List Char) :
    dollarTag (cs ++ after) = dollarTag cs := by
  have hhead : ((cs ++ after).drop (cs.takeWhile inTag).length).head? = some '$' ↔
      (cs.drop (cs.takeWhile inTag).length).head? = some '$' := by
    have hle := (List.takeWhile_prefix (l := cs) inTag).length_le
    rw [List.drop_append_of_le_length hle]
    cases cs.drop (cs.takeWhile inTag).length with
    | nil =>
      refine iff_of_false (fun h => ?_) (by simp)
      exact (hafter '$' h).2 rfl
    | cons c rest => simp
  simp only [dollarTag, takeWhile_after hafter, hhead]

/-- Text whose first character does not belong to what the scanner looks ahead for. -/
def Neutral (after : List Char) : Prop :=
  ∀ c ∈ after.head?, inTag c = false ∧ c ∉ ['$', '-', '*', '/']

theorem Neutral.tagEnds {after : List Char} (h : Neutral after) : TagEnds after :=
  fun c hc => ⟨(h c hc).1, fun hdollar => (h c hc).2 (by simp [hdollar])⟩

def Round.append (after : List Char) : Round → Round
  | .keep text mode rest => .keep text mode (rest ++ after)
  | .cut rest => .cut (rest ++ after)

section Neutral
variable {after : List Char} (hafter : Neutral after)
include hafter

theorem pair_append {a b c : Char} (hb : b ∈ ['$', '-', '*', '/']) (cs : List Char) :
    (c :: (cs ++ after)).take 2 = [a, b] ↔ (c :: cs).take 2 = [a, b] := by
  cases cs with
  | nil =>
    cases after with
    | nil => rfl
    | cons d after =>
      have hne : d ≠ b := fun heq => (hafter d rfl).2 (heq ▸ hb)
      simp [hne]
  | cons d cs => simp

theorem prefix_append {text : List Char} (htext : ∀ c ∈ text, inTag c = true ∨ c = '$')
    (cs : List Char) : text <+: cs ++ after ↔ text <+: cs := by
  induction text generalizing cs with
  | nil => exact iff_of_true List.nil_prefix List.nil_prefix
  | cons c text ih =>
    cases cs with
    | nil =>
      refine iff_of_false (fun h => ?_) (by simp)
      obtain ⟨rest, rfl⟩ := h
      obtain ⟨htag, hdollar⟩ := hafter c rfl
      rcases htext c List.mem_cons_self with hc | rfl
      · rw [htag] at hc
        cases hc
      · exact hdollar List.mem_cons_self
    | cons d cs =>
      rw [List.cons_append, List.cons_prefix_cons, List.cons_prefix_cons,
        ih fun e he => htext e (List.mem_cons_of_mem c he)]

theorem advance_append (mode : Mode) (c : Char) (cs : List Char) :
    advance mode c (cs ++ after) = (advance mode c cs).map (Round.append after) := by
  have hdrop {a b : Char} (h : (c :: cs).take 2 = [a, b]) :
      (cs ++ after).drop 1 = cs.drop 1 ++ after := by
    cases cs with
    | nil => simp at h
    | cons d cs => rfl
  cases mode with
  | lineComment => rfl
  | blockComment =>
    simp only [advance, pair_append hafter (show '/' ∈ ['$', '-', '*', '/'] by simp)]
    split
    · rename_i htwo
      rw [hdrop htwo]
      cases cs with
      | nil => simp at htwo
      | cons d cs => rfl
    · rfl
  | dollar tag =>
    have hclose : tag.delimiter.isPrefixOf (c :: (cs ++ after)) =
        tag.delimiter.isPrefixOf (c :: cs) := by
      rw [Bool.eq_iff_iff, List.isPrefixOf_iff_prefix, List.isPrefixOf_iff_prefix]
      exact prefix_append hafter tag.delimiter_chars (c :: cs)
    simp only [advance, hclose]
    split
    · rename_i hprefix
      have hle := (List.isPrefixOf_iff_prefix.mp hprefix).length_le
      rw [← List.cons_append, List.drop_append_of_le_length hle]
      rfl
    · rfl
  | single => rfl
  | double => rfl
  | top =>
    simp only [advance, pair_append hafter (show '-' ∈ ['$', '-', '*', '/'] by simp),
      pair_append hafter (show '*' ∈ ['$', '-', '*', '/'] by simp), dollarTag_append hafter.tagEnds]
    split
    · rename_i htwo
      rw [htwo, hdrop htwo, (pair_append hafter (by simp) cs).mpr htwo]
      rfl
    · split
      · rename_i htwo
        rw [htwo, hdrop htwo, (pair_append hafter (by simp) cs).mpr htwo]
        rfl
      · split
        · rfl
        · split
          · rfl
          · split
            · rename_i tag htag
              have hle : tag.delimiter.length ≤ (c :: cs).length := by
                split at htag
                · rename_i hdollar
                  obtain ⟨rest, hrest⟩ := dollarTag_spec htag
                  rw [hdollar, hrest, List.length_append]
                  exact Nat.le_add_right _ _
                · cases htag
              rw [← List.cons_append, List.drop_append_of_le_length hle]
              rfl
            · split <;> rfl

end Neutral

theorem Scans.append {after : List Char} (hafter : Neutral after) {m m' : Mode}
    {cs text rest : List Char} (h : Scans m cs text m' rest) :
    Scans m (cs ++ after) text m' (rest ++ after) := by
  induction h with
  | refl => exact .refl _ _
  | step hround _ ih =>
    refine .step ((advance_append hafter _ _ _).trans ?_) ih
    rw [hround]
    rfl

theorem Scans.of_append {after : List Char} (hafter : Neutral after) {m m' : Mode}
    {text rest : List Char} {cs : List Char} (h : Scans m (cs ++ after) text m' (rest ++ after)) :
    Scans m cs text m' rest := by
  generalize hcs : cs ++ after = input at h
  generalize hrest : rest ++ after = output at h
  induction h generalizing cs rest with
  | refl =>
    obtain rfl : cs = rest := List.append_cancel_right (hcs.trans hrest.symm)
    exact .refl _ _
  | @step mode mode' mode'' c tail text mid more output hround hs ih =>
    subst hrest
    cases cs with
    | nil =>
      have hinput := hs.input
      obtain ⟨hne, hmid⟩ := keep_text hround
      have hlength := congrArg List.length (hmid.trans hcs.symm)
      have hmore := congrArg List.length hinput
      have hpos := List.length_pos_of_ne_nil hne
      simp only [List.length_append, List.nil_append] at hlength hmore
      omega
    | cons d cs =>
      obtain ⟨rfl, rfl⟩ := List.cons.inj hcs
      obtain ⟨round, hfound, heq⟩ := Option.map_eq_some_iff.mp
        ((advance_append hafter mode d cs).symm.trans hround)
      cases round with
      | keep text' mode₁ mid' =>
        cases heq
        exact .step hfound (ih rfl rfl)
      | cut mid' => cases heq

theorem Scans.rest {m m' m'' : Mode} {cs text all rest : List Char}
    (h : Scans m cs text m' rest) (hall : Scans m cs all m'' []) : Scans m' rest rest m'' [] := by
  induction h generalizing all with
  | refl =>
    have hinput := hall.input
    rw [List.append_nil] at hinput
    exact hinput ▸ hall
  | step hround _ ih =>
    cases hall with
    | step hround' hs =>
      rw [hround] at hround'
      cases hround'
      exact ih hs

/-- A text in its segments: each but the last ends where a semicolon is met at the top. -/
inductive Cuts : List Char → List (List Char) → Prop where
  | last {cs : List Char} {mode : Mode} (h : Scans .top cs cs mode []) : Cuts cs [cs]
  | cut {text rest : List Char} {segments : List (List Char)} (h : Scans .top text text .top [])
      (hrest : Cuts rest segments) : Cuts (text ++ ';' :: rest) (text :: segments)

theorem neutral_semicolon (cs : List Char) : Neutral (';' :: cs) := by
  rintro c hc
  cases hc
  decide

theorem Cuts.scan_eq {cs : List Char} {segments : List (List Char)} (h : Cuts cs segments) :
    scan .top [] cs = some segments := by
  induction h with
  | last h =>
    rw [h.scan_eq, List.nil_append, scan]
  | cut h _ ih =>
    rw [(h.append (neutral_semicolon _)).scan_eq, List.nil_append, List.nil_append, scan_semicolon,
      ih]
    rfl

theorem exists_cuts (cs : List Char) : ∃ segments, Cuts cs segments := by
  induction hn : cs.length using Nat.strongRecOn generalizing cs with
  | ind n ih =>
    rcases exists_scans .top cs with ⟨mode, h⟩ | ⟨text, rest, h⟩
    · exact ⟨[cs], .last h⟩
    · have hinput := h.input
      have hlength := congrArg List.length hinput
      rw [List.length_append, List.length_cons] at hlength
      obtain ⟨segments, hrest⟩ := ih rest.length (by omega) rest rfl
      rw [← hinput] at h ⊢
      have hpassed : Scans .top text text .top [] := h.of_append (neutral_semicolon rest)
      exact ⟨text :: segments, .cut hpassed hrest⟩

theorem Cuts.ne_nil {cs : List Char} {segments : List (List Char)} (h : Cuts cs segments) :
    segments ≠ [] := by
  cases h <;> exact List.cons_ne_nil _ _

theorem Cuts.intercalate {cs : List Char} {segments : List (List Char)} (h : Cuts cs segments) :
    [';'].intercalate segments = cs := by
  induction h with
  | last => exact List.intercalate_singleton
  | cut _ hrest ih =>
    have hne : _ ≠ [] := hrest.ne_nil
    rw [List.intercalate_cons_of_ne_nil hne, ih]
    simp

theorem inTag_ascii {c : Char} (h : inTag c = true) : isAscii c = true ∧ asciiSpace c = false := by
  have hrange := word_range h
  have hne : c ≠ ' ' := by
    rintro rfl
    exact absurd hrange.1 (by decide)
  simp [isAscii, asciiSpace, hne]
  omega

section Interp
variable [Interp]

theorem space_plain {c : Char} (h : Interp.isSpace c = true) :
    inTag c = false ∧ c ∉ ['$', '-', '*', '/', ';', quote, doubleQuote] := by
  constructor
  · by_contra htag
    obtain ⟨hascii, hspace⟩ := inTag_ascii (Bool.not_eq_false _ ▸ htag)
    rw [Interp.isSpace_ascii c hascii, hspace] at h
    cases h
  · intro hmem
    have hnone : ['$', '-', '*', '/', ';', quote, doubleQuote].all
        (fun d => isAscii d && !asciiSpace d) = true := by decide
    obtain ⟨hascii, hspace⟩ := Bool.and_eq_true_iff.mp (List.all_eq_true.mp hnone c hmem)
    rw [Interp.isSpace_ascii c hascii] at h
    simp [h] at hspace

theorem neutral_space {c : Char} (h : Interp.isSpace c = true) (cs : List Char) :
    Neutral (c :: cs) := by
  rintro d hd
  cases hd
  obtain ⟨htag, hplain⟩ := space_plain h
  exact ⟨htag, fun hmem => hplain (by simp at hmem ⊢; tauto)⟩

theorem advance_space {c : Char} (h : Interp.isSpace c = true) {mode : Mode}
    (hmode : mode ≠ .lineComment) (cs : List Char) :
    advance mode c cs = some (.keep [c] mode cs) := by
  obtain ⟨-, hplain⟩ := space_plain h
  simp only [List.mem_cons, List.not_mem_nil, or_false, not_or] at hplain
  obtain ⟨hdollar, hminus, hstar, hslash, hsemicolon, hquote, hdouble⟩ := hplain
  have htwo (a b : Char) (ha : c ≠ a) : (c :: cs).take 2 ≠ [a, b] := by
    intro heq
    exact ha (List.cons.inj heq).1
  cases mode with
  | lineComment => exact absurd rfl hmode
  | blockComment => simp only [advance, if_neg (htwo '*' '/' hstar)]
  | dollar tag =>
    have hclose : ¬ tag.delimiter.isPrefixOf (c :: cs) = true := by
      intro hprefix
      obtain ⟨rest, hrest⟩ := List.isPrefixOf_iff_prefix.mp hprefix
      exact hdollar (List.cons.inj hrest).1.symm
    simp only [advance, if_neg hclose]
  | single => simp only [advance, if_neg hquote]
  | double => simp only [advance, if_neg hdouble]
  | top =>
    simp only [advance, if_neg (htwo '-' '-' hminus), if_neg (htwo '/' '*' hslash), if_neg hquote,
      if_neg hdouble, if_neg hdollar, if_neg hsemicolon]

theorem Scans.spaces {mode : Mode} (hmode : mode ≠ .lineComment) {lead : List Char}
    (hlead : ∀ c ∈ lead, Interp.isSpace c = true) (rest : List Char) :
    Scans mode (lead ++ rest) lead mode rest := by
  induction lead with
  | nil => exact .refl _ _
  | cons c lead ih =>
    exact .step (advance_space (hlead c List.mem_cons_self) hmode _)
      (ih fun d hd => hlead d (List.mem_cons_of_mem c hd))

theorem neutral_spaces {trail : List Char} (h : ∀ c ∈ trail, Interp.isSpace c = true) :
    Neutral trail := by
  cases trail with
  | nil => exact fun c hc => by cases hc
  | cons c trail => exact neutral_space (h c List.mem_cons_self) trail

omit [Interp] in
theorem Scans.nil_mode {m m' : Mode} {text : List Char} (h : Scans m [] text m' []) : m' = m := by
  cases h
  rfl

omit [Interp] in
theorem not_scans_semicolon {m : Mode} {rest text : List Char} :
    ¬ Scans .top (';' :: rest) text m [] := by
  rintro (_ | ⟨hround, _⟩)
  rw [advance_semicolon] at hround
  cases hround

theorem core_scans {lead core trail text : List Char} {m : Mode}
    (hlead : ∀ c ∈ lead, Interp.isSpace c = true) (htrail : ∀ c ∈ trail, Interp.isSpace c = true)
    (h : Scans .top (lead ++ core ++ trail) text m []) :
    ∃ m', Scans .top core core m' [] ∧ (m = .top → m' = .top ∨ m' = .lineComment) := by
  rw [List.append_assoc] at h
  have hmiddle := (Scans.spaces (by decide) hlead (core ++ trail)).rest h
  rcases exists_scans .top core with ⟨m', hcore⟩ | ⟨before, behind, hcore⟩
  · refine ⟨m', hcore, fun htop => ?_⟩
    subst htop
    have hend := (hcore.append (neutral_spaces htrail)).rest hmiddle
    by_cases hcomment : m' = .lineComment
    · exact .inr hcomment
    · have hspaces := Scans.spaces hcomment htrail []
      rw [List.append_nil] at hspaces
      exact .inl (hspaces.rest hend).nil_mode.symm
  · have hcut := (hcore.append (neutral_spaces htrail)).rest hmiddle
    exact absurd hcut not_scans_semicolon

/-- What `out` gets for a segment, and what is left of it at the end. -/
def emit (segment : List Char) : Option String :=
  let stmt := strip (.ofList segment)
  if stmt = "" || isOnlyComments stmt then none else some stmt

theorem splitStatements_eq (sql : String) :
    splitStatements sql =
      (scan .top [] sql.toList).map fun segments => segments.filterMap emit := by
  unfold splitStatements
  congr 1
  funext segments
  induction segments with
  | nil => rfl
  | cons segment segments ih =>
    simp only at ih
    rw [List.map_cons, List.filterMap_cons, emit, ← ih]
    by_cases hblank : strip (.ofList segment) = ""
    · simp [hblank]
    · by_cases hcomments : isOnlyComments (strip (.ofList segment)) = true
      · simp [hblank, hcomments]
      · simp [hblank, hcomments]

theorem emit_eq_some {segment : List Char} {stmt : String} : emit segment = some stmt ↔
    stripList Interp.isSpace segment = stmt.toList ∧ stmt.toList ≠ [] ∧
      isOnlyComments stmt = false := by
  have hstrip : strip (.ofList segment) = .ofList (stripList Interp.isSpace segment) := by
    rw [strip, String.toList_ofList]
  unfold emit
  dsimp only
  split
  · rename_i hnone
    refine iff_of_false (by simp) ?_
    rintro ⟨heq, hne, hcomments⟩
    rw [hstrip, heq, String.ofList_toList] at hnone
    simp [hcomments] at hnone
    exact hne (by rw [hnone]; rfl)
  · rename_i hsome
    simp only [Bool.or_eq_true, decide_eq_true_eq, not_or, Bool.not_eq_true] at hsome
    rw [Option.some.injEq]
    constructor
    · rintro rfl
      refine ⟨by rw [hstrip, String.toList_ofList], fun hnil => hsome.1 ?_, hsome.2⟩
      rwa [← String.toList_inj]
    · rintro ⟨heq, -, -⟩
      rw [hstrip, heq, String.ofList_toList]

theorem emit_pad {segment lead trail : List Char} {stmt : String} (h : emit segment = some stmt)
    (hlead : ∀ c ∈ lead, Interp.isSpace c = true) (htrail : ∀ c ∈ trail, Interp.isSpace c = true) :
    emit (lead ++ stmt.toList ++ trail) = some stmt := by
  obtain ⟨hstrip, hne, hcomments⟩ := emit_eq_some.mp h
  refine emit_eq_some.mpr ⟨?_, hne, hcomments⟩
  rw [← hstrip] at hne ⊢
  exact (Stripped.of_strip hne).strip hlead htrail

/-- Statements that may stand one behind the other: each but the last ends at the top, or in
a comment that a line feed ends. -/
inductive Joinable : List String → Prop where
  | nil : Joinable []
  | last {stmt : String} {m : Mode} (hemit : emit stmt.toList = some stmt)
      (h : Scans .top stmt.toList stmt.toList m []) : Joinable [stmt]
  | more {stmt : String} {stmts : List String} {m : Mode} (hemit : emit stmt.toList = some stmt)
      (h : Scans .top stmt.toList stmt.toList m []) (hmode : m = .top ∨ m = .lineComment)
      (hrest : Joinable stmts) : Joinable (stmt :: stmts)

theorem emit_scans {segment text : List Char} {stmt : String} {m : Mode}
    (hemit : emit segment = some stmt) (h : Scans .top segment text m []) :
    emit stmt.toList = some stmt ∧ ∃ m', Scans .top stmt.toList stmt.toList m' [] ∧
      (m = .top → m' = .top ∨ m' = .lineComment) := by
  obtain ⟨lead, trail, hsplit, hlead, htrail⟩ := stripList_split Interp.isSpace segment
  rw [(emit_eq_some.mp hemit).1] at hsplit
  rw [hsplit] at h
  have hself := emit_pad hemit (List.forall_mem_nil _) (List.forall_mem_nil _)
  rw [List.nil_append, List.append_nil] at hself
  exact ⟨hself, core_scans hlead htrail h⟩

theorem Cuts.joinable {cs : List Char} {segments : List (List Char)} (h : Cuts cs segments) :
    Joinable (segments.filterMap emit) := by
  induction h with
  | @last cs m h =>
    cases hemit : emit cs with
    | none =>
      rw [List.filterMap_cons_none hemit]
      exact .nil
    | some stmt =>
      obtain ⟨hself, m', hscans, -⟩ := emit_scans hemit h
      rw [List.filterMap_cons_some hemit]
      exact .last hself hscans
  | @cut text rest segments h _ ih =>
    cases hemit : emit text with
    | none => rwa [List.filterMap_cons_none hemit]
    | some stmt =>
      obtain ⟨hself, m', hscans, hmode⟩ := emit_scans hemit h
      rw [List.filterMap_cons_some hemit]
      exact .more hself hscans (hmode rfl) ih

def separator : String := "\n;\n"

omit [Interp] in
theorem scans_feed {mode : Mode} (h : mode = .top ∨ mode = .lineComment) (rest : List Char) :
    Scans mode ('\n' :: rest) ['\n'] .top rest := by
  rcases h with rfl | rfl
  · exact .one (by cases rest <;> rfl)
  · exact .one rfl

theorem emit_blank {segment : List Char} (h : ∀ c ∈ segment, Interp.isSpace c = true) :
    emit segment = none := by
  refine Option.eq_none_iff_forall_ne_some.mpr fun stmt hemit => ?_
  obtain ⟨hstrip, hne, -⟩ := emit_eq_some.mp hemit
  exact hne (hstrip ▸ stripList_eq_nil_iff.mpr h)

theorem cuts_last {stmt : String} {m : Mode} (hemit : emit stmt.toList = some stmt)
    (hscans : Scans .top stmt.toList stmt.toList m []) {lead : List Char}
    (hlead : ∀ c ∈ lead, Interp.isSpace c = true) :
    ∃ segments, Cuts (lead ++ (join separator [stmt]).toList) segments ∧
      segments.filterMap emit = [stmt] := by
  refine ⟨[lead ++ stmt.toList], .last ((Scans.spaces (by decide) hlead _).trans hscans), ?_⟩
  have hpad := emit_pad hemit hlead (List.forall_mem_nil _)
  rw [List.append_nil] at hpad
  rw [List.filterMap_cons_some hpad]
  rfl

theorem Joinable.cuts {stmts : List String} (h : Joinable stmts) {lead : List Char}
    (hlead : ∀ c ∈ lead, Interp.isSpace c = true) :
    ∃ segments, Cuts (lead ++ (join separator stmts).toList) segments ∧
      segments.filterMap emit = stmts := by
  have hfeed : Interp.isSpace '\n' = true := Interp.isSpace_ascii '\n' rfl
  have hfeeds : ∀ c ∈ ['\n'], Interp.isSpace c = true := by simpa using hfeed
  induction h generalizing lead with
  | nil =>
    have hspaces : Scans .top (lead ++ []) lead .top [] := .spaces (by decide) hlead []
    rw [List.append_nil] at hspaces
    refine ⟨[lead], by simpa [join] using Cuts.last hspaces, ?_⟩
    rw [List.filterMap_cons_none (emit_blank hlead), List.filterMap_nil]
  | last hemit hscans => exact cuts_last hemit hscans hlead
  | @more stmt stmts m hemit hscans hmode hrest ih =>
    cases stmts with
    | nil => exact cuts_last hemit hscans hlead
    | cons next stmts =>
      obtain ⟨segments, hcuts, hsegments⟩ := ih hfeeds
      have hjoin : lead ++ (join separator (stmt :: next :: stmts)).toList =
          (lead ++ stmt.toList ++ ['\n']) ++
            ';' :: (['\n'] ++ (join separator (next :: stmts)).toList) := by
        simp [join, separator]
      have hscan :
          Scans .top (lead ++ stmt.toList ++ ['\n']) (lead ++ stmt.toList ++ ['\n']) .top [] := by
        have hbehind := hscans.append (neutral_space hfeed [])
        rw [List.append_assoc lead]
        exact (Scans.spaces (by decide) hlead _).trans (hbehind.trans (scans_feed hmode []))
      refine ⟨(lead ++ stmt.toList ++ ['\n']) :: segments, hjoin ▸ .cut hscan hcuts, ?_⟩
      rw [List.filterMap_cons_some (emit_pad hemit hlead hfeeds), hsegments]

/-- A line that `_is_only_comments` passes over. -/
def CommentLine (line : List Char) : Prop :=
  (∀ c ∈ line, Interp.isSpace c = true) ∨ ['-', '-'] <+: line.dropWhile Interp.isSpace

inductive LineState where
  | blank | dash | comment | code
  deriving DecidableEq

namespace LineState

def next : LineState → Char → LineState
  | blank, c =>
    if isLineBreak c || Interp.isSpace c then blank else if c = '-' then dash else code
  | dash, c => if c = '-' then comment else code
  | comment, c => if isLineBreak c then blank else comment
  | code, _ => code

def Fine (s : LineState) : Prop := s = blank ∨ s = comment

theorem code_stays (cs : List Char) : cs.foldl next code = code := by
  induction cs with
  | nil => rfl
  | cons c cs ih => exact ih

theorem comment_stays {cs : List Char} (h : ∀ c ∈ cs, isLineBreak c = false) :
    cs.foldl next comment = comment := by
  induction cs with
  | nil => rfl
  | cons c cs ih =>
    have hc : next comment c = comment := by simp [next, h c List.mem_cons_self]
    rw [List.foldl_cons, hc]
    exact ih fun d hd => h d (List.mem_cons_of_mem c hd)

theorem blank_stays {cs : List Char} (h : ∀ c ∈ cs, Interp.isSpace c = true) :
    cs.foldl next blank = blank := by
  induction cs with
  | nil => rfl
  | cons c cs ih =>
    have hc : next blank c = blank := by simp [next, h c List.mem_cons_self]
    rw [List.foldl_cons, hc]
    exact ih fun d hd => h d (List.mem_cons_of_mem c hd)

theorem fine_spaces {cs : List Char} (h : ∀ c ∈ cs, Interp.isSpace c = true) (s : LineState) :
    (cs.foldl next s).Fine ↔ s.Fine := by
  induction cs generalizing s with
  | nil => rfl
  | cons c cs ih =>
    rw [List.foldl_cons, ih fun d hd => h d (List.mem_cons_of_mem c hd)]
    have hc := h c List.mem_cons_self
    have hdash : c ≠ '-' := fun heq => (space_plain hc).2 (by simp [heq])
    cases s with
    | blank => simp [next, hc]
    | dash => simp [next, hdash, Fine]
    | comment =>
      simp only [next, Fine]
      split <;> simp
    | code => rfl

theorem fine_line {line : List Char} (h : ∀ c ∈ line, isLineBreak c = false) :
    (line.foldl next blank).Fine ↔ CommentLine line := by
  have hsplit := List.takeWhile_append_dropWhile (p := Interp.isSpace) (l := line)
  have hfold : line.foldl next blank = (line.dropWhile Interp.isSpace).foldl next blank := by
    conv_lhs => rw [← hsplit]
    rw [List.foldl_append, blank_stays fun c hc => List.mem_takeWhile_imp hc]
  rw [hfold, CommentLine, ← List.dropWhile_eq_nil_iff]
  cases hrest : line.dropWhile Interp.isSpace with
  | nil => simp [Fine]
  | cons c cs =>
    have hclean : ∀ d ∈ c :: cs, isLineBreak d = false := fun d hd =>
      h d ((List.dropWhile_sublist _).subset (hrest ▸ hd))
    have hspace : Interp.isSpace c = false := by
      have hhead := dropWhile_head (p := Interp.isSpace) (show line.dropWhile _ ≠ [] by simp [hrest])
      rw [hrest] at hhead
      obtain ⟨d, hd, hspace⟩ := hhead
      cases hd
      exact hspace
    have hfirst : next blank c = if c = '-' then dash else code := by
      simp [next, hspace, hclean c List.mem_cons_self]
    rw [List.foldl_cons, hfirst]
    by_cases hdash : c = '-'
    · cases cs with
      | nil => simp [hdash, Fine]
      | cons d cs =>
        by_cases hdash' : d = '-'
        · have hbody := comment_stays fun e he =>
            hclean e (List.mem_cons_of_mem c (List.mem_cons_of_mem d he))
          simp [hdash, hdash', next, hbody, Fine]
        · simp [hdash, hdash', Ne.symm hdash', next, code_stays, Fine]
    · simp [hdash, Ne.symm hdash, code_stays, Fine]

theorem next_break {c : Char} (hc : isLineBreak c = true) (s : LineState) :
    (s.Fine → next s c = blank) ∧ (¬ s.Fine → next s c = code) := by
  have hdash : c ≠ '-' := by
    rintro rfl
    exact absurd hc (by decide)
  cases s <;> simp [next, Fine, hc, hdash]

theorem fine_break {c : Char} (hc : isLineBreak c = true) (s : LineState) (cs : List Char) :
    ((c :: cs).foldl next s).Fine ↔ s.Fine ∧ (cs.foldl next blank).Fine := by
  rw [List.foldl_cons]
  by_cases hs : s.Fine
  · rw [(next_break hc s).1 hs, and_iff_right hs]
  · rw [(next_break hc s).2 hs, code_stays]
    exact iff_of_false (by simp [Fine]) fun h => hs h.1

theorem fine_lines_of {cs : List Char} (h : (cs.foldl next blank).Fine ↔
    (((splitLines cs).headD []).foldl next blank).Fine ∧
      ∀ line ∈ (splitLines cs).tail, CommentLine line) :
    (cs.foldl next blank).Fine ↔ ∀ line ∈ splitLines cs, CommentLine line := by
  rw [h]
  have hclean := splitLines_pieces cs
  cases hsplit : splitLines cs with
  | nil => simp [Fine]
  | cons line lines =>
    rw [hsplit] at hclean
    rw [List.headD_cons, fine_line (hclean line List.mem_cons_self), List.tail_cons,
      List.forall_mem_cons]

theorem fine_iff (cs : List Char) (s : LineState) : (cs.foldl next s).Fine ↔
    (((splitLines cs).headD []).foldl next s).Fine ∧
      ∀ line ∈ (splitLines cs).tail, CommentLine line := by
  induction cs using splitLines.induct generalizing s with
  | case1 => simp [splitLines]
  | case2 cs ih =>
    rw [fine_break (by decide), fine_break (by decide),
      and_iff_right (show blank.Fine from .inl rfl), fine_lines_of (ih blank), splitLines]
    rfl
  | case3 c cs hpair hc ih =>
    rw [fine_break hc, fine_lines_of (ih blank), splitLines_break hc cs fun hreturn rest heq =>
      hpair rest hreturn heq]
    rfl
  | case4 c cs _ hc _ ih | case5 c cs _ hc _ _ _ ih =>
    have hbreak : isLineBreak c = false := by simpa using hc
    rw [List.foldl_cons, splitLines_cons hbreak]
    exact ih (next s c)

theorem fine_lines (cs : List Char) :
    (cs.foldl next blank).Fine ↔ ∀ line ∈ splitLines cs, CommentLine line :=
  fine_lines_of (fine_iff cs blank)

end LineState

theorem fine_strip (cs : List Char) :
    ((stripList Interp.isSpace cs).foldl LineState.next .blank).Fine ↔
    (cs.foldl LineState.next .blank).Fine := by
  obtain ⟨lead, trail, hsplit, hlead, htrail⟩ := stripList_split Interp.isSpace cs
  conv_rhs => rw [hsplit]
  rw [List.foldl_append, List.foldl_append, LineState.blank_stays hlead,
    LineState.fine_spaces htrail]

theorem dashes_prefix (line : List Char) :
    ['-', '-'] <+: stripList Interp.isSpace line ↔ ['-', '-'] <+: line.dropWhile Interp.isSpace := by
  have hdash : Interp.isSpace '-' = false := Interp.isSpace_ascii '-' rfl
  unfold stripList
  set rest := line.dropWhile Interp.isSpace
  constructor
  · intro h
    refine h.trans (List.reverse_suffix.mp ?_)
    rw [List.reverse_reverse]
    exact List.dropWhile_suffix _
  · rintro ⟨more, hmore⟩
    rw [← hmore, List.reverse_append, List.dropWhile_append]
    split
    · simp [hdash]
    · simp

theorem commentLine_iff (line : List Char) : CommentLine line ↔
    (strip (.ofList line) ≠ "" && !startswith (strip (.ofList line)) "--") = false := by
  have hstrip : (strip (.ofList line)).toList = stripList Interp.isSpace line := by
    rw [strip, String.toList_ofList, String.toList_ofList]
  have hblank := strip_eq_empty_iff (.ofList line)
  rw [String.toList_ofList] at hblank
  rw [CommentLine, ← hblank, ← dashes_prefix, ← hstrip, Bool.and_eq_false_iff, Bool.not_eq_false',
    startswith, List.isPrefixOf_iff_prefix, decide_eq_false_iff_not, not_not]
  rfl

theorem isOnlyComments_iff (stmt : String) : isOnlyComments stmt = true ↔
    (stmt.toList.foldl LineState.next .blank).Fine := by
  rw [LineState.fine_lines]
  simp only [commentLine_iff, isOnlyComments, decide_eq_true_eq, strip_eq_empty_iff]
  constructor
  · intro h line hline
    by_contra hkept
    rw [Bool.not_eq_false] at hkept
    have hnonblank := of_decide_eq_true (Bool.and_eq_true_iff.mp hkept).1
    rw [ne_eq, strip_eq_empty_iff] at hnonblank
    refine hnonblank fun c hc => h c (mem_join (s := .ofList line) ?_ hc)
    exact List.mem_filter.mpr ⟨List.mem_map_of_mem hline, hkept⟩
  · intro h
    have hnone : ((splitLines stmt.toList).map String.ofList).filter (fun line =>
        strip line ≠ "" && !startswith (strip line) "--") = [] := by
      refine List.filter_eq_nil_iff.mpr fun line hline => ?_
      obtain ⟨cs, hcs, rfl⟩ := List.mem_map.mp hline
      rw [h cs hcs]
      exact Bool.false_ne_true
    simp only [hnone, join]
    exact List.forall_mem_nil _

theorem emit_eq_none {segment : List Char} : emit segment = none ↔
    ∀ line ∈ splitLines segment, CommentLine line := by
  have hstrip : (strip (.ofList segment)).toList = stripList Interp.isSpace segment := by
    rw [strip, String.toList_ofList, String.toList_ofList]
  have hcomments : isOnlyComments (strip (.ofList segment)) = true ↔
      ∀ line ∈ splitLines segment, CommentLine line := by
    rw [isOnlyComments_iff, hstrip, fine_strip, LineState.fine_lines]
  rw [← hcomments, emit]
  by_cases hblank : strip (.ofList segment) = ""
  · have hempty : isOnlyComments "" = true := (isOnlyComments_iff "").mpr (.inl rfl)
    simp [hblank, hempty]
  · simp [hblank]

inductive Emitted : List (List Char) → List String → Prop where
  | nil : Emitted [] []
  | drop {segment : List Char} {segments : List (List Char)} {stmts : List String}
      (h : ∀ line ∈ splitLines segment, CommentLine line) (hrest : Emitted segments stmts) :
      Emitted (segment :: segments) stmts
  | keep {lead trail : List Char} {stmt : String} {segments : List (List Char)} {stmts : List String}
      (hlead : ∀ c ∈ lead, Interp.isSpace c = true) (htrail : ∀ c ∈ trail, Interp.isSpace c = true)
      (hrest : Emitted segments stmts) :
      Emitted ((lead ++ stmt.toList ++ trail) :: segments) (stmt :: stmts)

theorem emitted (segments : List (List Char)) : Emitted segments (segments.filterMap emit) := by
  induction segments with
  | nil => exact .nil
  | cons segment segments ih =>
    cases hemit : emit segment with
    | none =>
      rw [List.filterMap_cons_none hemit]
      exact .drop (emit_eq_none.mp hemit) ih
    | some stmt =>
      obtain ⟨lead, trail, hsplit, hlead, htrail⟩ := stripList_split Interp.isSpace segment
      rw [(emit_eq_some.mp hemit).1] at hsplit
      rw [List.filterMap_cons_some hemit, hsplit]
      exact .keep hlead htrail ih

/-- Nothing raises; the text is cut at the semicolons that stand at the top, and nothing but these,
white space and comments is lost; and statements that are joined are split into themselves. -/
theorem split_lossless (sql : String) : ∃ segments stmts,
    Cuts sql.toList segments ∧ splitStatements sql = some stmts ∧
      [';'].intercalate segments = sql.toList ∧ Emitted segments stmts ∧
      splitStatements (join "\n;\n" stmts) = some stmts := by
  obtain ⟨segments, hcuts⟩ := exists_cuts sql.toList
  obtain ⟨segments', hcuts', hstmts⟩ := hcuts.joinable.cuts (List.forall_mem_nil _)
  refine ⟨segments, segments.filterMap emit, hcuts, ?_, hcuts.intercalate, emitted segments, ?_⟩
  · rw [splitStatements_eq, hcuts.scan_eq]
    rfl
  · have hscan := hcuts'.scan_eq
    rw [List.nil_append, separator] at hscan
    rw [splitStatements_eq, hscan, Option.map_some, hstmts]

end Interp

end PrSentinel.Splitter
