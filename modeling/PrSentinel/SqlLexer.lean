import PrSentinel.Splitter

/-!
PostgreSQL's lexical structure, as far as it decides which semicolons end a statement, and
where the splitter keeps to it.
-/

set_option autoImplicit false

namespace PrSentinel.SqlLexer
open Python Splitter

inductive Kind where
  | space | semicolon | lineComment | blockComment | string | escapeString | quotedIdent
  | dollarString | word | other
  deriving DecidableEq, Repr

structure Lexeme where
  kind : Kind
  text : List Char

def isBlank (c : Char) : Bool := c = ' ' || (9 ≤ c.toNat && c.toNat ≤ 13)

def backslash : Char := Char.ofNat 92

def startsWord (c : Char) : Bool := c.isAlpha || c = '_' || 128 ≤ c.toNat

def inWord (c : Char) : Bool := startsWord c || c.isDigit || c = '$'

def inDollarTag (c : Char) : Bool := startsWord c || c.isDigit

def passing (more : List Char) (p : List Char × List Char) : List Char × List Char :=
  (more ++ p.1, p.2)

/-- Up to the closing quote; a doubled one closes nothing. -/
def quoted (q : Char) : List Char → List Char × List Char
  | [] => ([], [])
  | [c] => ([c], [])
  | c :: d :: cs =>
    if c = q then if d = q then passing [c, d] (quoted q cs) else ([c], d :: cs)
    else passing [c] (quoted q (d :: cs))

def escaped : List Char → List Char × List Char
  | [] => ([], [])
  | [c] => ([c], [])
  | c :: d :: cs =>
    if c = backslash then passing [c, d] (escaped cs)
    else if c = quote then
      if d = quote then passing [c, d] (escaped cs) else ([c], d :: cs)
    else passing [c] (escaped (d :: cs))

/-- Up to the end of a comment with so many more open around it. -/
def nested : ℕ → List Char → List Char × List Char
  | _, [] => ([], [])
  | _, [c] => ([c], [])
  | depth, c :: d :: cs =>
    if c = '*' && d = '/' then
      match depth with
      | 0 => ([c, d], cs)
      | depth + 1 => passing [c, d] (nested depth cs)
    else if c = '/' && d = '*' then passing [c, d] (nested (depth + 1) cs)
    else passing [c] (nested depth (d :: cs))

/-- Up to the end of the line, which a carriage return ends too. -/
def restOfLine : List Char → List Char × List Char
  | [] => ([], [])
  | '\r' :: '\n' :: cs => (['\r', '\n'], cs)
  | c :: cs => if c = '\n' || c = '\r' then ([c], cs) else passing [c] (restOfLine cs)

def upToDelimiter (delimiter : List Char) : List Char → List Char × List Char
  | [] => ([], [])
  | c :: cs =>
    if delimiter.isPrefixOf (c :: cs) then (delimiter, (c :: cs).drop delimiter.length)
    else passing [c] (upToDelimiter delimiter cs)

def dollarName (cs : List Char) : Option (List Char) :=
  let name := cs.takeWhile inDollarTag
  if (cs.drop name.length).head? = some '$' && !name.head?.any Char.isDigit then some name
  else none

def lexemeOf (kind : Kind) (p : List Char × List Char) : Lexeme × List Char := (⟨kind, p.1⟩, p.2)

/-- The lexeme that begins here, and what follows it. -/
def firstLexeme (c : Char) (cs : List Char) : Lexeme × List Char :=
  let two := (c :: cs).take 2
  if isBlank c then (⟨.space, [c]⟩, cs)
  else if c = ';' then (⟨.semicolon, [c]⟩, cs)
  else if two = ['-', '-'] then lexemeOf .lineComment (passing two (restOfLine (cs.drop 1)))
  else if two = ['/', '*'] then lexemeOf .blockComment (passing two (nested 0 (cs.drop 1)))
  else if c = quote then lexemeOf .string (passing [c] (quoted quote cs))
  else if c = doubleQuote then lexemeOf .quotedIdent (passing [c] (quoted doubleQuote cs))
  else if c ∈ ['e', 'E'] && cs.head? = some quote then
    lexemeOf .escapeString (passing [c, quote] (escaped (cs.drop 1)))
  else match if c = '$' then dollarName cs else none with
    | some name =>
      let delimiter := '$' :: (name ++ ['$'])
      lexemeOf .dollarString
        (passing delimiter (upToDelimiter delimiter ((c :: cs).drop delimiter.length)))
    | none =>
      if startsWord c then (⟨.word, c :: cs.takeWhile inWord⟩, cs.dropWhile inWord)
      else (⟨.other, [c]⟩, cs)

inductive Reads : List Char → Lexeme → List Char → Prop where
  | space {c : Char} (hc : isBlank c = true) (cs : List Char) : Reads (c :: cs) ⟨.space, [c]⟩ cs
  | semicolon (cs : List Char) : Reads (';' :: cs) ⟨.semicolon, [';']⟩ cs
  | lineComment (cs : List Char) : Reads ('-' :: '-' :: cs)
      ⟨.lineComment, '-' :: '-' :: (restOfLine cs).1⟩ (restOfLine cs).2
  | blockComment (cs : List Char) : Reads ('/' :: '*' :: cs)
      ⟨.blockComment, '/' :: '*' :: (nested 0 cs).1⟩ (nested 0 cs).2
  | string (cs : List Char) : Reads (quote :: cs)
      ⟨.string, quote :: (quoted quote cs).1⟩ (quoted quote cs).2
  | quotedIdent (cs : List Char) : Reads (doubleQuote :: cs)
      ⟨.quotedIdent, doubleQuote :: (quoted doubleQuote cs).1⟩ (quoted doubleQuote cs).2
  | escapeString {e : Char} (he : e ∈ ['e', 'E']) (cs : List Char) : Reads (e :: quote :: cs)
      ⟨.escapeString, e :: quote :: (escaped cs).1⟩ (escaped cs).2
  | dollarString {name delimiter : List Char} (hdelimiter : delimiter = '$' :: (name ++ ['$']))
      (hname : ∀ c ∈ name, inDollarTag c = true) (hdigit : name.head?.any Char.isDigit = false)
      (cs : List Char) : Reads (delimiter ++ cs)
      ⟨.dollarString, delimiter ++ (upToDelimiter delimiter cs).1⟩ (upToDelimiter delimiter cs).2
  | word {c : Char} (hc : startsWord c = true) {more rest : List Char}
      (hmore : ∀ d ∈ more, inWord d = true) (hrest : ∀ d ∈ rest.head?, inWord d = false) :
      Reads (c :: (more ++ rest)) ⟨.word, c :: more⟩ rest
  | other {c : Char} (hc : c ∉ [';', quote, doubleQuote]) {cs : List Char}
      (hdash : (c :: cs).take 2 ≠ ['-', '-']) (hslash : (c :: cs).take 2 ≠ ['/', '*'])
      (hdollar : c = '$' → dollarName cs = none) : Reads (c :: cs) ⟨.other, [c]⟩ cs

theorem take_two {a b c : Char} {cs : List Char} (h : (c :: cs).take 2 = [a, b]) :
    c = a ∧ cs = b :: cs.drop 1 := by
  cases cs with
  | nil => simp at h
  | cons d cs => simpa using h

theorem dollarName_some {cs name : List Char} (h : dollarName cs = some name) :
    (∃ rest, cs = name ++ '$' :: rest) ∧ (∀ c ∈ name, inDollarTag c = true) ∧
      name.head?.any Char.isDigit = false := by
  unfold dollarName at h
  dsimp only at h
  split at h
  · rename_i hmatch
    obtain rfl := Option.some.inj h
    obtain ⟨hnext, hdigit⟩ := Bool.and_eq_true_iff.mp hmatch
    obtain ⟨rest, hrest⟩ := List.head?_eq_some_iff.mp (of_decide_eq_true hnext)
    have hsplit := List.prefix_iff_eq_append.mp (List.takeWhile_prefix (l := cs) inDollarTag)
    rw [hrest] at hsplit
    exact ⟨⟨rest, hsplit.symm⟩, fun c hc => List.mem_takeWhile_imp hc, by simpa using hdigit⟩
  · cases h

theorem firstLexeme_reads (c : Char) (cs : List Char) :
    Reads (c :: cs) (firstLexeme c cs).1 (firstLexeme c cs).2 := by
  unfold firstLexeme
  dsimp only
  split
  · exact .space ‹_› cs
  split
  · rename_i hsemicolon
    exact hsemicolon ▸ .semicolon cs
  rename_i hsemicolon
  split
  · rename_i htwo
    obtain ⟨rfl, hcs⟩ := take_two htwo
    rw [htwo, hcs]
    exact .lineComment _
  rename_i hdash
  split
  · rename_i htwo
    obtain ⟨rfl, hcs⟩ := take_two htwo
    rw [htwo, hcs]
    exact .blockComment _
  rename_i hslash
  split
  · rename_i hquote
    exact hquote ▸ .string cs
  rename_i hquote
  split
  · rename_i hdouble
    exact hdouble ▸ .quotedIdent cs
  rename_i hdouble
  split
  · rename_i hescape
    obtain ⟨he, hnext⟩ := Bool.and_eq_true_iff.mp hescape
    obtain ⟨rest, rfl⟩ := List.head?_eq_some_iff.mp (of_decide_eq_true hnext)
    exact .escapeString (of_decide_eq_true he) rest
  split
  · rename_i name hname
    split at hname
    · rename_i hdollar
      subst hdollar
      obtain ⟨⟨rest, rfl⟩, hchars, hdigit⟩ := dollarName_some hname
      have hinput : '$' :: (name ++ '$' :: rest) = ('$' :: (name ++ ['$'])) ++ rest := by simp
      rw [hinput, List.drop_left]
      exact .dollarString rfl hchars hdigit rest
    · cases hname
  · rename_i hname
    split
    · rename_i hstart
      have hrest : ∀ d ∈ (cs.dropWhile inWord).head?, inWord d = false := fun d hd => by
        have hnot := List.head?_dropWhile_not inWord cs
        rw [Option.mem_def.mp hd] at hnot
        simpa using hnot
      conv => enter [1]; rw [← List.takeWhile_append_dropWhile (p := inWord) (l := cs)]
      exact .word hstart (fun d hd => List.mem_takeWhile_imp hd) hrest
    · refine .other ?_ hdash hslash fun hdollar => ?_
      · simp [hsemicolon, hquote, hdouble]
      · rwa [if_pos hdollar] at hname

theorem passing_split {more cs : List Char} {p : List Char × List Char} (h : p.1 ++ p.2 = cs) :
    (passing more p).1 ++ (passing more p).2 = more ++ cs := by
  rw [passing, List.append_assoc, h]

theorem quoted_split (q : Char) (cs : List Char) : (quoted q cs).1 ++ (quoted q cs).2 = cs := by
  induction cs using quoted.induct q with
  | case1 => rfl
  | case2 => rfl
  | case3 cs ih =>
    rw [quoted, if_pos rfl, if_pos rfl]
    exact passing_split ih
  | case4 d cs hd =>
    rw [quoted, if_pos rfl, if_neg hd]
    rfl
  | case5 c d cs hc ih =>
    rw [quoted, if_neg hc]
    exact passing_split ih

theorem escaped_split (cs : List Char) : (escaped cs).1 ++ (escaped cs).2 = cs := by
  induction cs using escaped.induct with
  | case1 => rfl
  | case2 => rfl
  | case3 d cs ih =>
    rw [escaped, if_pos rfl]
    exact passing_split ih
  | case4 cs hescape ih =>
    rw [escaped, if_neg hescape, if_pos rfl, if_pos rfl]
    exact passing_split ih
  | case5 d cs hd hescape =>
    rw [escaped, if_neg hescape, if_pos rfl, if_neg hd]
    rfl
  | case6 c d cs hescape hc ih =>
    rw [escaped, if_neg hescape, if_neg hc]
    exact passing_split ih

theorem nested_split (depth : ℕ) (cs : List Char) :
    (nested depth cs).1 ++ (nested depth cs).2 = cs := by
  induction depth, cs using nested.induct with
  | case1 => rw [nested]; rfl
  | case2 => rw [nested]; rfl
  | case3 c d cs hclose =>
    rw [nested.eq_def]
    simp only [if_pos hclose]
    rfl
  | case4 c d cs hclose depth ih =>
    rw [nested.eq_def]
    simp only [if_pos hclose]
    exact passing_split ih
  | case5 depth c d cs hclose hopen ih =>
    rw [nested.eq_def]
    simp only [if_neg hclose, if_pos hopen]
    exact passing_split ih
  | case6 depth c d cs hclose hopen ih =>
    rw [nested.eq_def]
    simp only [if_neg hclose, if_neg hopen]
    exact passing_split ih

theorem restOfLine_spec (cs : List Char) : ∃ body trail, (restOfLine cs).1 = body ++ trail ∧
    body ++ trail ++ (restOfLine cs).2 = cs ∧ (∀ c ∈ body, c ≠ '\n' ∧ c ≠ '\r') ∧
    (trail ∈ [['\n'], ['\r'], ['\r', '\n']] ∨ trail = [] ∧ (restOfLine cs).2 = []) := by
  induction cs using restOfLine.induct with
  | case1 => exact ⟨[], [], rfl, rfl, List.forall_mem_nil _, .inr ⟨rfl, rfl⟩⟩
  | case2 cs => exact ⟨[], ['\r', '\n'], rfl, rfl, List.forall_mem_nil _, .inl (by simp)⟩
  | case3 c cs hpair hc =>
    rw [restOfLine, if_pos hc]
    · exact ⟨[], [c], rfl, rfl, List.forall_mem_nil _, .inl (by simpa using hc)⟩
    · exact hpair
  | case4 c cs hpair hc ih =>
    obtain ⟨body, trail, htext, hcs, hbody, htrail⟩ := ih
    rw [restOfLine, if_neg hc]
    · refine ⟨c :: body, trail, ?_, ?_, ?_, htrail⟩
      · rw [passing, htext]
        rfl
      · exact congrArg (c :: ·) hcs
      · simp only [Bool.or_eq_true, decide_eq_true_eq, not_or] at hc
        exact List.forall_mem_cons.mpr ⟨hc, hbody⟩
    · exact hpair

theorem upToDelimiter_split (delimiter cs : List Char) :
    (upToDelimiter delimiter cs).1 ++ (upToDelimiter delimiter cs).2 = cs := by
  induction cs with
  | nil => rfl
  | cons c cs ih =>
    rw [upToDelimiter]
    split
    · rename_i hprefix
      exact List.prefix_iff_eq_append.mp (List.isPrefixOf_iff_prefix.mp hprefix)
    · exact passing_split ih

theorem Reads.split {cs rest : List Char} {l : Lexeme} (h : Reads cs l rest) :
    l.text ≠ [] ∧ l.text ++ rest = cs := by
  have hcons (c : Char) {more rest cs : List Char} (h : more ++ rest = cs) :
      c :: more ≠ [] ∧ c :: more ++ rest = c :: cs :=
    ⟨List.cons_ne_nil _ _, congrArg (c :: ·) h⟩
  cases h with
  | space | semicolon | other => exact hcons _ rfl
  | lineComment cs =>
    obtain ⟨body, trail, htext, hcs, -⟩ := restOfLine_spec cs
    exact hcons _ (hcons _ (htext ▸ hcs)).2
  | blockComment cs => exact hcons _ (hcons _ (nested_split 0 cs)).2
  | string cs => exact hcons _ (quoted_split quote cs)
  | quotedIdent cs => exact hcons _ (quoted_split doubleQuote cs)
  | escapeString _ cs => exact hcons _ (hcons _ (escaped_split cs)).2
  | dollarString hdelimiter _ _ cs =>
    refine ⟨?_, by rw [List.append_assoc, upToDelimiter_split]⟩
    rw [hdelimiter]
    exact List.cons_ne_nil _ _
  | word => exact hcons _ rfl

theorem Reads.shorter {cs rest : List Char} {l : Lexeme} (h : Reads cs l rest) :
    rest.length < cs.length := by
  obtain ⟨hne, rfl⟩ := h.split
  have hpos := List.length_pos_of_ne_nil hne
  rw [List.length_append]
  omega

def lex : List Char → List Lexeme
  | [] => []
  | c :: cs => (firstLexeme c cs).1 :: lex (firstLexeme c cs).2
termination_by cs => cs.length
decreasing_by exact (firstLexeme_reads c cs).shorter

def textOf (lexemes : List Lexeme) : List Char := lexemes.flatMap Lexeme.text

def Lexeme.isToken (l : Lexeme) : Bool := l.kind ∉ [.space, .lineComment, .blockComment]

def hasToken (segment : List Lexeme) : Bool := segment.any Lexeme.isToken

def Lexeme.isSemicolon (l : Lexeme) : Bool := l.kind = .semicolon

/-- What stands between the semicolons at the top. -/
def segments (sql : String) : List (List Lexeme) := (lex sql.toList).splitOnP Lexeme.isSemicolon

/-- What the script says: the texts between those semicolons, without the blank around them,
where there is a token at all. -/
def statements (sql : String) : List String :=
  ((segments sql).filter hasToken).map fun segment => .ofList (stripList isBlank (textOf segment))

def noTag : List Char → Bool
  | [] => true
  | c :: cs => (c ≠ '$' || (dollarTag cs).isNone) && noTag cs

def noEscapedQuote : List Char → Bool
  | [] => true
  | [_] => true
  | c :: d :: cs =>
    if c = backslash then d ≠ quote && noEscapedQuote cs else noEscapedQuote (d :: cs)

def Lexeme.plain (l : Lexeme) : Bool :=
  match l.kind with
  | .word => noTag l.text
  | .escapeString => noEscapedQuote (l.text.drop 2)
  | .blockComment => ¬ ['/', '*'] <:+: l.text.drop 2
  | .dollarString => (l.text.tail.takeWhile inDollarTag).all inTag
  | _ => true

def Passes (mode : Mode) (cs : List Char) (p : List Char × List Char) : Prop :=
  ∃ m, Scans mode cs p.1 m p.2 ∧ (m = .top ∨ p.2 = [])

theorem Passes.behind {mode mode' : Mode} {cs more rest : List Char} {p : List Char × List Char}
    (h : Scans mode cs more mode' rest) (hp : Passes mode' rest p) :
    Passes mode cs (passing more p) := by
  obtain ⟨m, hscans, hm⟩ := hp
  exact ⟨m, h.trans hscans, hm⟩

theorem Passes.nil (mode : Mode) : Passes mode [] ([], []) := ⟨mode, .refl mode [], .inr rfl⟩

theorem advance_ordinary {c : Char} (hc : c ∉ [';', quote, doubleQuote]) {cs : List Char}
    (hdash : (c :: cs).take 2 ≠ ['-', '-']) (hslash : (c :: cs).take 2 ≠ ['/', '*'])
    (hdollar : c = '$' → dollarTag cs = none) :
    advance .top c cs = some (.keep [c] .top cs) := by
  simp only [List.mem_cons, List.not_mem_nil, or_false, not_or] at hc
  have hnone : (if c = '$' then dollarTag cs else none) = none := by
    split
    · exact hdollar ‹_›
    · rfl
  simp only [advance, if_neg hdash, if_neg hslash, if_neg hc.2.1, if_neg hc.2.2, hnone, if_neg hc.1]

theorem quoted_passes {q : Char} {mode : Mode}
    (hmode : ∀ c cs, advance mode c cs = some (.keep [c] (if c = q then .top else mode) cs))
    (htop : ∀ cs, advance .top q cs = some (.keep [q] mode cs)) (cs : List Char) :
    Passes mode cs (quoted q cs) := by
  have hclose (cs : List Char) : advance mode q cs = some (.keep [q] .top cs) := by
    rw [hmode, if_pos rfl]
  induction cs using quoted.induct q with
  | case1 => exact .nil mode
  | case2 c => exact ⟨_, .one (hmode c []), .inr rfl⟩
  | case3 cs ih =>
    rw [quoted, if_pos rfl, if_pos rfl]
    exact .behind (.step (hclose _) (.one (htop cs))) ih
  | case4 d cs hd =>
    rw [quoted, if_pos rfl, if_neg hd]
    exact ⟨.top, .one (hclose _), .inl rfl⟩
  | case5 c d cs hc ih =>
    rw [quoted, if_neg hc]
    exact .behind (.one (by rw [hmode, if_neg hc])) ih

theorem advance_quote (cs : List Char) : advance .top quote cs = some (.keep [quote] .single cs) := by
  cases cs <;> rfl

theorem advance_doubleQuote (cs : List Char) :
    advance .top doubleQuote cs = some (.keep [doubleQuote] .double cs) := by
  cases cs <;> rfl

theorem noEscapedQuote_cons {c : Char} (hc : c ≠ backslash) (cs : List Char) :
    noEscapedQuote (c :: cs) = noEscapedQuote cs := by
  cases cs with
  | nil => rfl
  | cons d cs => rw [noEscapedQuote, if_neg hc]

theorem escaped_passes (cs : List Char) (h : noEscapedQuote (escaped cs).1 = true) :
    Passes .single cs (escaped cs) := by
  have hkeep {c : Char} (hc : c ≠ quote) (cs : List Char) :
      advance .single c cs = some (.keep [c] .single cs) := by
    simp only [advance, if_neg hc]
  have hclose (cs : List Char) : advance .single quote cs = some (.keep [quote] .top cs) := rfl
  have hbackslash : quote ≠ backslash := by decide
  induction cs using escaped.induct with
  | case1 => exact .nil _
  | case2 c => exact ⟨_, .one rfl, .inr rfl⟩
  | case3 d cs ih =>
    rw [escaped, if_pos rfl] at h ⊢
    simp only [passing, List.cons_append, List.nil_append, noEscapedQuote, if_pos,
      Bool.and_eq_true, decide_eq_true_eq] at h
    exact .behind (.step (hkeep hbackslash.symm _) (.one (hkeep h.1 cs))) (ih h.2)
  | case4 cs hescape ih =>
    rw [escaped, if_neg hescape, if_pos rfl, if_pos rfl] at h ⊢
    simp only [passing, List.cons_append, List.nil_append, noEscapedQuote_cons hbackslash] at h
    exact .behind (.step (hclose _) (.one (advance_quote cs))) (ih h)
  | case5 d cs hd hescape =>
    rw [escaped, if_neg hescape, if_pos rfl, if_neg hd]
    exact ⟨.top, .one (hclose _), .inl rfl⟩
  | case6 c d cs hescape hc ih =>
    rw [escaped, if_neg hescape, if_neg hc] at h ⊢
    simp only [passing, List.cons_append, List.nil_append, noEscapedQuote_cons hescape] at h
    exact .behind (.one (hkeep hc _)) (ih h)

theorem nested_passes (cs : List Char) (h : ¬ ['/', '*'] <:+: (nested 0 cs).1) :
    Passes .blockComment cs (nested 0 cs) := by
  induction cs with
  | nil =>
    rw [nested]
    exact .nil _
  | cons c cs ih =>
    cases cs with
    | nil =>
      have hround : advance .blockComment c [] = some (.keep [c] .blockComment []) := by
        simp [advance]
      rw [nested]
      exact ⟨_, .one hround, .inr rfl⟩
    | cons d cs =>
      rw [nested.eq_def] at h ⊢
      simp only [Bool.and_eq_true, decide_eq_true_eq] at h ⊢
      by_cases hclose : c = '*' ∧ d = '/'
      · rw [if_pos hclose]
        obtain ⟨rfl, rfl⟩ := hclose
        exact ⟨.top, .one rfl, .inl rfl⟩
      by_cases hopen : c = '/' ∧ d = '*'
      · rw [if_neg hclose, if_pos hopen] at h
        obtain ⟨rfl, rfl⟩ := hopen
        exact absurd (List.prefix_append _ _).isInfix h
      · rw [if_neg hclose, if_neg hopen] at h ⊢
        have htwo : (c :: d :: cs).take 2 ≠ ['*', '/'] := by simpa using hclose
        refine .behind (.one ?_) (ih fun hpart => h (hpart.trans (List.suffix_append _ _).isInfix))
        simp only [advance, if_neg htwo]

theorem comment_scans {body : List Char} (h : ∀ c ∈ body, c ≠ '\n') (rest : List Char) :
    Scans .lineComment (body ++ rest) body .lineComment rest := by
  induction body with
  | nil => exact .refl _ _
  | cons c body ih =>
    have hround : advance .lineComment c (body ++ rest) =
        some (.keep [c] .lineComment (body ++ rest)) := by
      simp only [advance, if_neg (h c List.mem_cons_self)]
    exact .step hround (ih fun d hd => h d (List.mem_cons_of_mem c hd))

theorem restOfLine_passes (cs : List Char)
    (h : (restOfLine cs).1.getLast? ≠ some '\r' ∨ (restOfLine cs).2 = []) :
    Passes .lineComment cs (restOfLine cs) := by
  obtain ⟨body, trail, htext, hcs, hbody, htrail⟩ := restOfLine_spec cs
  have hscans := comment_scans (fun c hc => (hbody c hc).1) (trail ++ (restOfLine cs).2)
  rw [← List.append_assoc, hcs] at hscans
  rw [Passes, htext]
  rw [htext] at h
  rcases htrail with htrail | ⟨rfl, hend⟩
  · simp only [List.mem_cons, List.not_mem_nil, or_false] at htrail
    rcases htrail with rfl | rfl | rfl
    · exact ⟨.top, hscans.trans (.one rfl), .inl rfl⟩
    · refine ⟨.lineComment, hscans.trans (.one rfl), .inr (h.resolve_left ?_)⟩
      simp
    · have hreturn (cs : List Char) :
          advance .lineComment '\r' cs = some (.keep ['\r'] .lineComment cs) := rfl
      exact ⟨.top, hscans.trans (.step (hreturn _) (.one rfl)), .inl rfl⟩
  · exact ⟨.lineComment, hscans.trans (.refl _ _), .inr hend⟩

theorem upToDelimiter_passes (tag : Tag) (cs : List Char) :
    Passes (.dollar tag) cs (upToDelimiter tag.delimiter cs) := by
  induction cs with
  | nil => exact .nil _
  | cons c cs ih =>
    rw [upToDelimiter]
    split
    · rename_i hclose
      exact ⟨.top, .one (by simp only [advance, if_pos hclose]), .inl rfl⟩
    · rename_i hclose
      exact .behind (.one (by simp only [advance, if_neg hclose])) ih

theorem inTag_inDollarTag {c : Char} (h : inTag c = true) : inDollarTag c = true := by
  simp only [inTag, Char.isAlphanum, Bool.or_eq_true, decide_eq_true_eq] at h
  simp only [inDollarTag, startsWord, Bool.or_eq_true, decide_eq_true_eq]
  tauto

theorem inDollarTag_inWord {c : Char} (h : inDollarTag c = true) : inWord c = true := by
  rw [inWord, Bool.or_eq_true]
  exact .inl h

theorem takeWhile_name {p : Char → Bool} (hp : p '$' = false) {name : List Char}
    (hname : ∀ c ∈ name, p c = true) (rest : List Char) :
    (name ++ '$' :: rest).takeWhile p = name := by
  rw [List.takeWhile_append_of_pos hname, List.takeWhile_cons_of_neg (by simp [hp]), List.append_nil]

theorem dollarTag_dollarName {cs : List Char} {tag : Tag} (h : dollarTag cs = some tag) :
    dollarName cs = some tag.name := by
  unfold dollarTag at h
  dsimp only at h
  split at h
  · rename_i hmatch
    obtain rfl := Option.some.inj h
    obtain ⟨hnext, hdigit⟩ := Bool.and_eq_true_iff.mp hmatch
    obtain ⟨rest, hrest⟩ := List.head?_eq_some_iff.mp (of_decide_eq_true hnext)
    have hsplit := List.prefix_iff_eq_append.mp (List.takeWhile_prefix (l := cs) inTag)
    rw [hrest] at hsplit
    have hname : cs.takeWhile inDollarTag = cs.takeWhile inTag := by
      conv_lhs => rw [← hsplit]
      exact takeWhile_name rfl (fun c hc => inTag_inDollarTag (List.mem_takeWhile_imp hc)) rest
    simp only [dollarName, hname, hmatch, if_pos]
  · cases h

theorem dollarTag_name {name : List Char} (hname : ∀ c ∈ name, inTag c = true)
    (hdigit : name.head?.any Char.isDigit = false) (rest : List Char) :
    dollarTag (name ++ '$' :: rest) = some ⟨name, hname⟩ := by
  have htake := takeWhile_name (by decide : inTag '$' = false) hname rest
  simp [dollarTag, htake, hdigit]

theorem advance_dollar {cs : List Char} {tag : Tag} (h : dollarTag cs = some tag) :
    advance .top '$' cs =
      some (.keep tag.delimiter (.dollar tag) (('$' :: cs).drop tag.delimiter.length)) := by
  have htwo {a : Char} (ha : '$' ≠ a) (b : Char) : ('$' :: cs).take 2 ≠ [a, b] :=
    fun htake => ha (take_two htake).1
  have hquote : '$' ≠ quote := by decide
  have hdouble : '$' ≠ doubleQuote := by decide
  simp only [advance, if_neg (htwo (by decide : '$' ≠ '-') '-'),
    if_neg (htwo (by decide : '$' ≠ '/') '*'), if_neg hquote, if_neg hdouble, h, if_pos]

theorem word_scans {w rest : List Char} (hw : ∀ c ∈ w, inWord c = true) (htag : noTag w = true)
    (hrest : ∀ c ∈ rest.head?, inWord c = false) : Scans .top (w ++ rest) w .top rest := by
  have hends : TagEnds rest := fun c hc => by
    have hout := hrest c hc
    refine ⟨Bool.eq_false_iff.mpr fun hin => ?_, ?_⟩
    · rw [inDollarTag_inWord (inTag_inDollarTag hin)] at hout
      cases hout
    · rintro rfl
      cases hout
  induction w with
  | nil => exact .refl _ _
  | cons c w ih =>
    obtain ⟨hc, hw⟩ := List.forall_mem_cons.mp hw
    rw [noTag, Bool.and_eq_true] at htag
    have hother {d : Char} (hd : inWord d = false) : c ≠ d := by
      rintro rfl
      rw [hc] at hd
      cases hd
    have htwo {a : Char} (ha : inWord a = false) (b : Char) : (c :: (w ++ rest)).take 2 ≠ [a, b] :=
      fun htake => hother ha (take_two htake).1
    have hround : advance .top c (w ++ rest) = some (.keep [c] .top (w ++ rest)) := by
      refine advance_ordinary ?_ (htwo rfl _) (htwo rfl _) fun hdollar => ?_
      · simp [hother (d := ';') rfl, hother (d := quote) rfl, hother (d := doubleQuote) rfl]
      · rw [dollarTag_append hends]
        simpa [hdollar] using htag.1
    exact .step hround (ih hw htag.2)

/-- One lexeme is passed as a whole. -/
theorem Reads.passes {cs rest : List Char} {l : Lexeme} (h : Reads cs l rest)
    (hkind : l.kind ≠ .semicolon) (hplain : l.plain = true)
    (hline : l.kind = .lineComment → l.text.getLast? ≠ some '\r' ∨ rest = []) :
    Passes .top cs (l.text, rest) := by
  cases h with
  | @space c hc =>
    have hother {d : Char} (hd : isBlank d = false) : c ≠ d := by
      rintro rfl
      rw [hc] at hd
      cases hd
    refine ⟨.top, .one (advance_ordinary ?_ ?_ ?_ ?_), .inl rfl⟩
    · simp [hother (d := ';') rfl, hother (d := quote) rfl, hother (d := doubleQuote) rfl]
    · exact fun htake => hother rfl (take_two htake).1
    · exact fun htake => hother rfl (take_two htake).1
    · exact fun hdollar => absurd hdollar (hother rfl)
  | semicolon => exact absurd rfl hkind
  | lineComment cs =>
    have hend : (restOfLine cs).1.getLast? ≠ some '\r' ∨ (restOfLine cs).2 = [] := by
      refine (hline rfl).imp_left fun hlast hbody => hlast ?_
      simp [List.getLast?_cons, hbody]
    have hround : advance .top '-' ('-' :: cs) = some (.keep ['-', '-'] .lineComment cs) := rfl
    exact .behind (p := restOfLine cs) (.one hround) (restOfLine_passes cs hend)
  | blockComment cs =>
    have hround : advance .top '/' ('*' :: cs) = some (.keep ['/', '*'] .blockComment cs) := rfl
    exact .behind (p := nested 0 cs) (.one hround) (nested_passes cs (of_decide_eq_true hplain))
  | string cs =>
    exact .behind (p := quoted quote cs) (.one (advance_quote cs))
      (quoted_passes (fun _ _ => rfl) advance_quote cs)
  | quotedIdent cs =>
    exact .behind (p := quoted doubleQuote cs) (.one (advance_doubleQuote cs))
      (quoted_passes (fun _ _ => rfl) advance_doubleQuote cs)
  | @escapeString e he cs =>
    have hround : advance .top e (quote :: cs) = some (.keep [e] .top (quote :: cs)) := by
      simp only [List.mem_cons, List.not_mem_nil, or_false] at he
      rcases he with rfl | rfl <;> rfl
    exact .behind (p := escaped cs) (.step hround (.one (advance_quote cs)))
      (escaped_passes cs hplain)
  | @dollarString name delimiter hdelimiter hname hdigit cs =>
    have htail (body : List Char) : (delimiter ++ body).tail = name ++ '$' :: body := by
      simp [hdelimiter]
    have htake := takeWhile_name (by decide : inDollarTag '$' = false) hname
      (upToDelimiter delimiter cs).1
    have hlegal : ∀ c ∈ name, inTag c = true := by
      simpa only [Lexeme.plain, htail, htake, List.all_eq_true] using hplain
    have hround := advance_dollar (dollarTag_name hlegal hdigit cs)
    have hinput : '$' :: (name ++ '$' :: cs) = delimiter ++ cs := by simp [hdelimiter]
    have hbody := upToDelimiter_passes ⟨name, hlegal⟩ cs
    rw [Tag.delimiter, ← hdelimiter] at hround hbody
    rw [hinput, List.drop_left] at hround
    exact hinput ▸ .behind (p := upToDelimiter delimiter cs) (.one hround) hbody
  | @word c hc more _ hmore hrest =>
    have hfirst : inWord c = true := by simp [inWord, hc]
    exact ⟨.top, word_scans (List.forall_mem_cons.mpr ⟨hfirst, hmore⟩) hplain hrest, .inl rfl⟩
  | other hc hdash hslash hdollar =>
    refine ⟨.top, .one (advance_ordinary hc hdash hslash fun hd => ?_), .inl rfl⟩
    refine Option.eq_none_iff_forall_ne_some.mpr fun tag htag => ?_
    have hname := dollarTag_dollarName htag
    rw [hdollar hd] at hname
    cases hname

theorem Reads.of_semicolon {cs rest : List Char} {l : Lexeme} (h : Reads cs l rest)
    (hkind : l.kind = .semicolon) : cs = ';' :: rest := by
  cases h with
  | semicolon => rfl
  | _ => cases hkind

def Lexeme.seenToEnd (l : Lexeme) : Prop := l.kind = .lineComment → l.text.getLast? ≠ some '\r'

theorem map_modifyHead {α β : Type} (f : α → β) {g : α → α} {k : β → β} (h : ∀ a, f (g a) = k (f a))
    (l : List α) : (l.modifyHead g).map f = (l.map f).modifyHead k := by
  cases l with
  | nil => rfl
  | cons a l => exact congrArg (· :: l.map f) (h a)

theorem scan_lex {cs : List Char} (hplain : ∀ l ∈ lex cs, l.plain = true)
    (hlines : ∀ l ∈ (lex cs).dropLast, l.seenToEnd) (buf : List Char) :
    scan .top buf cs =
      some ((((lex cs).splitOnP Lexeme.isSemicolon).map textOf).modifyHead (buf ++ ·)) := by
  induction cs using lex.induct generalizing buf with
  | case1 => simp [lex, scan, textOf]
  | case2 c cs ih =>
    have hreads := firstLexeme_reads c cs
    rw [lex] at hplain hlines ⊢
    generalize (firstLexeme c cs).1 = l at hreads hplain hlines ⊢
    generalize (firstLexeme c cs).2 = rest at hreads hplain hlines ih ⊢
    obtain ⟨hl, hplain⟩ := List.forall_mem_cons.mp hplain
    have hlast : rest ≠ [] → l.seenToEnd ∧ ∀ l' ∈ (lex rest).dropLast, l'.seenToEnd := by
      intro hrest
      cases rest with
      | nil => exact absurd rfl hrest
      | cons d rest =>
        rw [lex, List.dropLast_cons_cons, ← lex] at hlines
        exact List.forall_mem_cons.mp hlines
    have htail : ∀ l' ∈ (lex rest).dropLast, l'.seenToEnd := by
      by_cases hrest : rest = []
      · rw [hrest, lex]
        exact List.forall_mem_nil _
      · exact (hlast hrest).2
    rw [List.splitOnP_cons_eq_if_modifyHead]
    by_cases hsemicolon : l.kind = .semicolon
    · rw [if_pos (by simpa [Lexeme.isSemicolon] using hsemicolon)]
      rw [hreads.of_semicolon hsemicolon, scan_semicolon, ih hplain htail]
      simp only [List.map_cons, List.modifyHead_cons, textOf, List.flatMap_nil, List.append_nil,
        Option.map_some, List.nil_append]
      exact congrArg (some <| buf :: ·) (congrFun List.modifyHead_id _)
    · rw [if_neg (by simpa [Lexeme.isSemicolon] using hsemicolon)]
      obtain ⟨m, hscans, hm⟩ := hreads.passes hsemicolon hl fun hkind => by
        by_cases hrest : rest = []
        · exact .inr hrest
        · exact .inl ((hlast hrest).1 hkind)
      rw [hscans.scan_eq, map_modifyHead textOf (k := (l.text ++ ·)) fun segment => rfl]
      rcases hm with rfl | hrest
      · rw [ih hplain htail, List.modifyHead_modifyHead]
        simp [Function.comp_def]
      · rw [show rest = [] from hrest]
        simp [lex, scan, textOf]

def Lexeme.counts (l : Lexeme) : Bool := l.kind ∉ [.space, .lineComment]

structure Lexeme.Shaped (l : Lexeme) : Prop where
  ne_nil : l.text ≠ []
  space : l.kind = .space → ∀ c ∈ l.text, isBlank c = true
  line : l.kind = .lineComment → ∃ body trail, l.text = '-' :: '-' :: (body ++ trail) ∧
    (∀ c ∈ body, c ∉ ['\n', '\r']) ∧ ∀ c ∈ trail, c ∈ ['\n', '\r']
  dash : l.kind ≠ .lineComment → l.text.head? = some '-' → l.text = ['-']

/-- What a lexeme says about the next one's being there. -/
structure Follows (l l' : Lexeme) : Prop where
  line : l.kind = .lineComment → ∃ c ∈ l.text.getLast?, c ∈ ['\n', '\r']
  dash : l.text = ['-'] → l'.text.head? ≠ some '-'

theorem startsWord_dash {c : Char} (h : startsWord c = true) : c ≠ '-' := by
  rintro rfl
  cases h

theorem Reads.shaped {cs rest : List Char} {l : Lexeme} (h : Reads cs l rest) : l.Shaped := by
  refine ⟨h.split.1, ?_, ?_, ?_⟩
  · intro hkind
    cases h with
    | space hc => simpa using hc
    | _ => cases hkind
  · intro hkind
    cases h with
    | lineComment cs =>
      obtain ⟨body, trail, htext, -, hbody, htrail⟩ := restOfLine_spec cs
      refine ⟨body, trail, by rw [htext], fun c hc => by simpa using hbody c hc, ?_⟩
      simp only [List.mem_cons, List.not_mem_nil, or_false] at htrail
      rcases htrail with (rfl | rfl | rfl) | ⟨rfl, -⟩ <;> simp
    | _ => cases hkind
  · intro hkind hhead
    cases h with
    | lineComment => exact absurd rfl hkind
    | space | other => simpa using hhead
    | semicolon => simp at hhead
    | blockComment => simp at hhead
    | string => exact absurd (Option.some.inj hhead) (by decide)
    | quotedIdent => exact absurd (Option.some.inj hhead) (by decide)
    | escapeString he =>
      rw [show _ = '-' from Option.some.inj hhead] at he
      simp at he
    | dollarString hdelimiter => simp [hdelimiter] at hhead
    | word hc => exact absurd (Option.some.inj hhead) (startsWord_dash hc)

theorem Reads.next {cs rest : List Char} {d : Char} {l : Lexeme} (h : Reads cs l (d :: rest)) :
    (l.kind = .lineComment → ∃ c ∈ l.text.getLast?, c ∈ ['\n', '\r']) ∧
      (l.text = ['-'] → d ≠ '-') := by
  generalize hnext : d :: rest = behind at h
  constructor
  · intro hkind
    cases h with
    | lineComment cs =>
      obtain ⟨body, trail, htext, -, -, htrail | ⟨-, hend⟩⟩ := restOfLine_spec cs
      · rw [htext]
        simp only [List.mem_cons, List.not_mem_nil, or_false] at htrail
        rcases htrail with rfl | rfl | rfl <;> simp [List.getLast?_cons]
      · rw [hend] at hnext
        cases hnext
    | _ => cases hkind
  · rintro htext rfl
    cases h with
    | other _ hdash =>
      obtain rfl := (List.cons.inj htext).1
      exact hdash (by rw [← hnext]; rfl)
    | space hc =>
      obtain rfl := (List.cons.inj htext).1
      cases hc
    | word hc => exact startsWord_dash hc (List.cons.inj htext).1
    | dollarString hdelimiter => simp [hdelimiter] at htext
    | _ => cases htext

theorem lex_shaped (cs : List Char) : ∀ l ∈ lex cs, l.Shaped := by
  induction cs using lex.induct with
  | case1 =>
    rw [lex]
    exact List.forall_mem_nil _
  | case2 c cs ih =>
    rw [lex]
    exact List.forall_mem_cons.mpr ⟨(firstLexeme_reads c cs).shaped, ih⟩

theorem lex_follows (cs : List Char) : (lex cs).IsChain Follows := by
  induction cs using lex.induct with
  | case1 =>
    rw [lex]
    exact .nil
  | case2 c cs ih =>
    have hreads := firstLexeme_reads c cs
    rw [lex]
    generalize (firstLexeme c cs).1 = l at hreads ⊢
    generalize (firstLexeme c cs).2 = rest at hreads ih ⊢
    cases rest with
    | nil =>
      rw [lex]
      exact .singleton l
    | cons d rest =>
      rw [lex] at ih ⊢
      refine .cons_cons ?_ ih
      obtain ⟨hline, hdash⟩ := hreads.next
      obtain ⟨hne, hsplit⟩ := (firstLexeme_reads d rest).split
      refine ⟨hline, fun htext hhead => ?_⟩
      obtain ⟨more, hmore⟩ := List.head?_eq_some_iff.mp hhead
      rw [hmore] at hsplit
      exact hdash htext (List.cons.inj hsplit).1.symm

theorem splitOnP_pieces {α : Type} (p : α → Bool) (xs : List α) : ∃ first more,
    xs.splitOnP p = first :: more ∧ first <+: xs ∧ ∀ piece ∈ more, piece <:+: xs := by
  induction xs with
  | nil => exact ⟨[], [], List.splitOnP_nil, List.nil_prefix, List.forall_mem_nil _⟩
  | cons x xs ih =>
    obtain ⟨first, more, hsplit, hfirst, hmore⟩ := ih
    have hcons : ∀ piece ∈ more, piece <:+: x :: xs := fun piece hpiece =>
      List.infix_cons (hmore piece hpiece)
    rw [List.splitOnP_cons_eq_if_modifyHead, hsplit]
    split
    · exact ⟨[], first :: more, rfl, List.nil_prefix,
        List.forall_mem_cons.mpr ⟨List.infix_cons hfirst.isInfix, hcons⟩⟩
    · exact ⟨x :: first, more, rfl, (List.cons_prefix_cons).mpr ⟨rfl, hfirst⟩, hcons⟩

theorem segments_infix {sql : String} {segment : List Lexeme} (h : segment ∈ segments sql) :
    segment <:+: lex sql.toList := by
  obtain ⟨first, more, hsplit, hfirst, hmore⟩ :=
    splitOnP_pieces Lexeme.isSemicolon (lex sql.toList)
  rw [segments, hsplit] at h
  rcases List.mem_cons.mp h with rfl | h
  · exact hfirst.isInfix
  · exact hmore segment h

theorem textOf_cons (l : Lexeme) (segment : List Lexeme) :
    textOf (l :: segment) = l.text ++ textOf segment := List.flatMap_cons

section Interp
variable [Interp]
open LineState

theorem isBlank_isSpace {c : Char} (h : isBlank c = true) : Interp.isSpace c = true := by
  have hascii : isAscii c = true ∧ asciiSpace c = true := by
    simp only [isBlank, Bool.or_eq_true, decide_eq_true_eq, Bool.and_eq_true] at h
    rcases h with rfl | h
    · exact ⟨rfl, rfl⟩
    · simp [isAscii, asciiSpace, h]
      omega
  rw [Interp.isSpace_ascii c hascii.1, hascii.2]

def Lexeme.oneLine (l : Lexeme) : Bool :=
  l.kind = .lineComment && l.text.all fun c => !isLineBreak c || c ∈ ['\n', '\r']

def Lexeme.startsPlain (l : Lexeme) : Bool :=
  l.text.head?.all fun c => !Interp.isSpace c && !isLineBreak c

theorem fine_comment {l : Lexeme} (hshape : l.Shaped) (h : l.oneLine = true) {s : LineState}
    (hs : s.Fine) : (l.text.foldl next s).Fine := by
  obtain ⟨hkind, hbreaks⟩ := Bool.and_eq_true_iff.mp h
  obtain ⟨body, trail, htext, hbody, htrail⟩ := hshape.line (of_decide_eq_true hkind)
  have hdashes : next (next s '-') '-' = .comment := by
    have hbreak : isLineBreak '-' = false := by decide
    have hspace : Interp.isSpace '-' = false := Interp.isSpace_ascii '-' rfl
    rcases hs with rfl | rfl <;> simp [next, hbreak, hspace]
  have hclean : ∀ c ∈ body, isLineBreak c = false := fun c hc => by
    have hends := List.all_eq_true.mp hbreaks c (by rw [htext]; simp [hc])
    simpa [hbody c hc] using hends
  have hspaces : ∀ c ∈ trail, Interp.isSpace c = true := fun c hc => by
    have hend := htrail c hc
    simp only [List.mem_cons, List.not_mem_nil, or_false] at hend
    rcases hend with rfl | rfl <;> exact isBlank_isSpace (by decide)
  rw [htext, List.foldl_cons, List.foldl_cons, hdashes, List.foldl_append, comment_stays hclean,
    fine_spaces hspaces]
  exact .inr rfl

theorem fine_comments {segment : List Lexeme} (hshape : ∀ l ∈ segment, l.Shaped)
    (h : ∀ l ∈ segment, l.kind = .space ∨ l.oneLine = true) {s : LineState} (hs : s.Fine) :
    ((textOf segment).foldl next s).Fine := by
  induction segment generalizing s with
  | nil => exact hs
  | cons l segment ih =>
    obtain ⟨hl, hshape⟩ := List.forall_mem_cons.mp hshape
    obtain ⟨hkind, h⟩ := List.forall_mem_cons.mp h
    rw [textOf_cons, List.foldl_append]
    refine ih hshape h ?_
    rcases hkind with hspace | hline
    · exact (fine_spaces (fun c hc => isBlank_isSpace (hl.space hspace c hc)) s).mpr hs
    · exact fine_comment hl hline hs

theorem dash_not_fine {cs : List Char} (h : cs.head? ≠ some '-') : ¬ (cs.foldl next dash).Fine := by
  cases cs with
  | nil => simp [Fine]
  | cons c cs =>
    have hc : c ≠ '-' := fun heq => h (congrArg some heq)
    rw [List.foldl_cons, show next dash c = code by simp [next, hc], code_stays]
    simp [Fine]

theorem not_fine_of_counts {l : Lexeme} {segment : List Lexeme}
    (hshape : ∀ l' ∈ l :: segment, l'.Shaped) (hchain : (l :: segment).IsChain Follows)
    (hl : l.counts = true)
    (hfirst : l.startsPlain = true) {s : LineState} (hs : s = blank ∨ s = code) :
    ¬ ((textOf (l :: segment)).foldl next s).Fine := by
  obtain ⟨hself, hshape⟩ := List.forall_mem_cons.mp hshape
  have hcode (cs : List Char) : ¬ (cs.foldl next code).Fine := by
    rw [code_stays]
    simp [Fine]
  rcases hs with rfl | rfl
  · obtain ⟨c, more, htext⟩ := List.exists_cons_of_ne_nil hself.ne_nil
    obtain ⟨hspace, hbreak⟩ : Interp.isSpace c = false ∧ isLineBreak c = false := by
      simpa [Lexeme.startsPlain, htext] using hfirst
    by_cases hdash : c = '-'
    · have hkind : l.kind ≠ .lineComment := by
        rintro hkind
        simp [Lexeme.counts, hkind] at hl
      have hself := hself.dash hkind (by rw [htext, hdash]; rfl)
      have hnext : next blank '-' = dash := by simp [next, hdash ▸ hspace, hdash ▸ hbreak]
      rw [textOf_cons, hself, List.cons_append, List.nil_append, List.foldl_cons, hnext]
      refine dash_not_fine ?_
      cases segment with
      | nil => simp [textOf]
      | cons l' segment =>
        have hfollows := (List.isChain_cons_cons.mp hchain).1.dash hself
        have hne := (hshape l' List.mem_cons_self).ne_nil
        rwa [textOf_cons, List.head?_append_of_ne_nil _ hne]
    · have hnext : next blank c = code := by simp [next, hspace, hbreak, hdash]
      rw [textOf_cons, htext, List.cons_append, List.foldl_cons, hnext]
      exact hcode _
  · exact hcode _

theorem not_fine_of_find {segment : List Lexeme} (hshape : ∀ l ∈ segment, l.Shaped)
    (hchain : segment.IsChain Follows) {l : Lexeme} (hfind : segment.find? Lexeme.counts = some l)
    (hfirst : l.startsPlain = true) {s : LineState} (hs : s = blank ∨ s = code) :
    ¬ ((textOf segment).foldl next s).Fine := by
  induction segment generalizing s with
  | nil => cases hfind
  | cons l' segment ih =>
    by_cases hcounts : l'.counts = true
    · rw [List.find?_cons_of_pos hcounts] at hfind
      obtain rfl := Option.some.inj hfind
      exact not_fine_of_counts hshape hchain hcounts hfirst hs
    · rw [List.find?_cons_of_neg hcounts] at hfind
      obtain ⟨hself, hshape⟩ := List.forall_mem_cons.mp hshape
      rw [textOf_cons, List.foldl_append]
      refine ih hshape hchain.of_cons hfind ?_
      simp only [Lexeme.counts, List.mem_cons, List.not_mem_nil, or_false, decide_eq_true_eq,
        not_not] at hcounts
      rcases hcounts with hspace | hline
      · have hspaces := fun c hc => isBlank_isSpace (hself.space hspace c hc)
        rcases hs with rfl | rfl
        · exact .inl (blank_stays hspaces)
        · exact .inr (code_stays _)
      · cases segment with
        | nil => cases hfind
        | cons next segment =>
          obtain ⟨c, hlast, hc⟩ := (List.isChain_cons_cons.mp hchain).1.line hline
          have hbreak : isLineBreak c = true := by
            simp only [List.mem_cons, List.not_mem_nil, or_false] at hc
            rcases hc with rfl | rfl <;> decide
          obtain ⟨before, hbefore⟩ := List.getLast?_eq_some_iff.mp hlast
          obtain ⟨hfine, hcode⟩ := next_break hbreak (before.foldl LineState.next s)
          rw [hbefore, List.foldl_append]
          by_cases hdone : (before.foldl LineState.next s).Fine
          · exact .inl (hfine hdone)
          · exact .inr (hcode hdone)

/-- A segment that Python's white space and line ends leave what it is: where it says nothing,
every line of it is blank or a comment; where it says something, that is what it begins with. -/
def PlainSegment (segment : List Lexeme) : Prop :=
  if hasToken segment then
    (∀ l ∈ segment.find? Lexeme.counts, l.startsPlain = true) ∧
    stripList Interp.isSpace (textOf segment) = stripList isBlank (textOf segment)
  else ∀ l ∈ segment, l.kind = .space ∨ l.oneLine = true

/-- A script in which the splitter finds its way. -/
structure Plain (sql : String) : Prop where
  lexemes : ∀ l ∈ lex sql.toList, l.plain = true
  lines : ∀ l ∈ (lex sql.toList).dropLast, l.seenToEnd
  segments : ∀ segment ∈ segments sql, PlainSegment segment

instance (l : Lexeme) : Decidable l.seenToEnd := inferInstanceAs (Decidable (_ → _))

instance (segment : List Lexeme) : Decidable (PlainSegment segment) :=
  inferInstanceAs (Decidable (@ite Prop _ _ _ _))

theorem plain_iff (sql : String) : Plain sql ↔ (∀ l ∈ lex sql.toList, l.plain = true) ∧
    (∀ l ∈ (lex sql.toList).dropLast, l.seenToEnd) ∧
      ∀ segment ∈ segments sql, PlainSegment segment :=
  ⟨fun h => ⟨h.lexemes, h.lines, h.segments⟩, fun h => ⟨h.1, h.2.1, h.2.2⟩⟩

instance (sql : String) : Decidable (Plain sql) := decidable_of_iff' _ (plain_iff sql)

theorem emit_segment {sql : String} {segment : List Lexeme} (hsegment : segment ∈ segments sql)
    (h : PlainSegment segment) : emit (textOf segment) =
      if hasToken segment then some (.ofList (stripList isBlank (textOf segment)))
      else none := by
  have hpart := segments_infix hsegment
  have hshape : ∀ l ∈ segment, l.Shaped := fun l hl => lex_shaped _ l (hpart.subset hl)
  have hchain := List.IsChain.infix (lex_follows sql.toList) hpart
  have hnone : emit (textOf segment) = none ↔ ((textOf segment).foldl next blank).Fine := by
    rw [emit_eq_none, fine_lines]
  unfold PlainSegment at h
  split at h
  · rename_i htoken
    obtain ⟨hfirst, hstrip⟩ := h
    obtain ⟨l, hl, hkind⟩ := List.any_eq_true.mp htoken
    have hcounts : l.counts = true := by
      simp only [Lexeme.isToken, Lexeme.counts, List.mem_cons, List.not_mem_nil, or_false,
        decide_eq_true_eq, not_or] at hkind ⊢
      exact ⟨hkind.1, hkind.2.1⟩
    obtain ⟨l', hfind⟩ := Option.isSome_iff_exists.mp (List.find?_isSome.mpr ⟨l, hl, hcounts⟩)
    have hcode := not_fine_of_find hshape hchain hfind (hfirst l' hfind) (.inl rfl)
    obtain ⟨stmt, hemit⟩ := Option.ne_none_iff_exists'.mp (mt hnone.mp hcode)
    rw [if_pos htoken, hemit, ← hstrip, (emit_eq_some.mp hemit).1, String.ofList_toList]
  · rename_i htoken
    rw [if_neg htoken]
    exact hnone.mpr (fine_comments hshape h (.inl rfl))

theorem emit_segments {sql : String} (h : ∀ segment ∈ segments sql, PlainSegment segment) :
    ((segments sql).map textOf).filterMap emit = statements sql := by
  have hemits (l : List (List Lexeme)) (hl : l ⊆ segments sql) :
      (l.map textOf).filterMap emit =
        (l.filter hasToken).map fun segment => .ofList (stripList isBlank (textOf segment)) := by
    induction l with
    | nil => rfl
    | cons segment l ih =>
      obtain ⟨hsegment, hl⟩ := List.cons_subset.mp hl
      have hemit := emit_segment hsegment (h segment hsegment)
      by_cases htoken : hasToken segment = true
      · rw [if_pos htoken] at hemit
        rw [List.map_cons, List.filterMap_cons_some hemit, List.filter_cons_of_pos htoken, ih hl,
          List.map_cons]
      · rw [if_neg htoken] at hemit
        rw [List.map_cons, List.filterMap_cons_none hemit, List.filter_cons_of_neg htoken, ih hl]
  exact hemits _ (List.Subset.refl _)

/-- In such a script the statements are those between the semicolons at the top. -/
theorem split_follows_lexer {sql : String} (h : Plain sql) :
    splitStatements sql = some (statements sql) := by
  have hmodify : (fun x : List Char => [] ++ x) = id := rfl
  rw [splitStatements_eq, scan_lex h.lexemes h.lines, hmodify, List.modifyHead_id]
  exact congrArg some (emit_segments h.segments)

end Interp

def plainScript : String :=
  "SELECT 'it''s;' AS \"a;\" -- one; two\n;\nDO $b$ BEGIN; END $b$ /* ; */;\n-- end\n"

theorem plain_script_follows : @splitStatements asciiInterp plainScript =
    some ["SELECT 'it''s;' AS \"a;\" -- one; two", "DO $b$ BEGIN; END $b$ /* ; */"] := by
  let _ := asciiInterp
  have hstatements : statements plainScript =
      ["SELECT 'it''s;' AS \"a;\" -- one; two", "DO $b$ BEGIN; END $b$ /* ; */"] := by
    decide +kernel
  exact (split_follows_lexer (by decide +kernel)).trans (congrArg some hstatements)

/-- An identifier with two dollars in it swallows what is behind it. -/
theorem identifier_swallows : ¬ ∀ sql, @splitStatements asciiInterp sql = some (statements sql) := by
  intro h
  exact absurd (h "SELECT a$b$c; SELECT 2") (by decide +kernel)

end PrSentinel.SqlLexer
