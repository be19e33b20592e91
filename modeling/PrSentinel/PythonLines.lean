import PrSentinel.PythonText

/-!
`str.splitlines`. A line feed is one of eleven line boundaries; text that was put
together from lines that end in line feeds falls apart further at the others.
-/

set_option autoImplicit false

namespace Python

def isLineBreak (c : Char) : Bool :=
  c.toNat ∈ [0x0a, 0x0b, 0x0c, 0x0d, 0x1c, 0x1d, 0x1e, 0x85, 0x2028, 0x2029]

def splitLines : List Char → List (List Char)
  | [] => []
  | '\r' :: '\n' :: cs => [] :: splitLines cs
  | c :: cs =>
    if isLineBreak c then [] :: splitLines cs
    else
      match splitLines cs with
      | [] => [[c]]
      | line :: lines => (c :: line) :: lines

theorem splitLines_break {c : Char} (hc : isLineBreak c = true) (cs : List Char)
    (hpair : c = '\r' → ∀ rest, cs ≠ '\n' :: rest) :
    splitLines (c :: cs) = [] :: splitLines cs := by
  rw [splitLines.eq_def]
  split
  · rename_i heq
    cases heq
  · rename_i heq
    obtain ⟨hreturn, hfeed⟩ := List.cons.inj heq
    exact absurd hfeed (hpair hreturn _)
  · rename_i heq
    obtain ⟨rfl, rfl⟩ := List.cons.inj heq
    rw [if_pos hc]

theorem splitLines_newline (cs : List Char) : splitLines ('\n' :: cs) = [] :: splitLines cs :=
  splitLines_break (by decide) cs (by simp)

theorem splitLines_cons {c : Char} (hc : isLineBreak c = false) (cs : List Char) :
    splitLines (c :: cs) =
      (c :: (splitLines cs).headD []) :: (splitLines cs).tail := by
  rw [splitLines.eq_def]
  split
  · rename_i heq
    cases heq
  · rename_i heq
    obtain ⟨rfl, -⟩ := List.cons.inj heq
    simp [isLineBreak] at hc
  · rename_i heq
    obtain ⟨rfl, rfl⟩ := List.cons.inj heq
    rw [hc]
    cases splitLines cs <;> rfl

theorem splitLines_ne_nil {cs : List Char} (h : cs ≠ []) : splitLines cs ≠ [] := by
  rw [splitLines.eq_def]
  split
  · exact absurd rfl h
  · exact List.cons_ne_nil _ _
  · split
    · exact List.cons_ne_nil _ _
    · split <;> exact List.cons_ne_nil _ _

theorem splitLines_append (cs rest : List Char) :
    splitLines (cs ++ '\n' :: rest) = splitLines (cs ++ ['\n']) ++ splitLines rest := by
  induction cs using splitLines.induct with
  | case1 => simp [splitLines_newline, splitLines]
  | case2 cs ih => simp [splitLines, ih]
  | case3 c cs hpair hc ih =>
    cases cs with
    | nil =>
      by_cases hreturn : c = '\r'
      · subst hreturn
        simp [splitLines]
      · have hne (tail : List Char) : c = '\r' → ∀ rest, '\n' :: tail ≠ '\n' :: rest :=
          fun h => absurd h hreturn
        simp [splitLines_break hc _ (hne _), splitLines_newline, splitLines]
    | cons x cs =>
      have hne (tail : List Char) : c = '\r' → ∀ rest, (x :: cs) ++ tail ≠ '\n' :: rest := by
        intro hreturn rest heq
        exact hpair cs hreturn (by rw [(List.cons.inj heq).1])
      calc splitLines (c :: ((x :: cs) ++ '\n' :: rest))
          = [] :: splitLines ((x :: cs) ++ '\n' :: rest) := splitLines_break hc _ (hne _)
        _ = [] :: splitLines ((x :: cs) ++ ['\n']) ++ splitLines rest := by
          rw [ih]
          rfl
        _ = splitLines (c :: ((x :: cs) ++ ['\n'])) ++ splitLines rest := by
          rw [splitLines_break hc _ (hne _)]
  | case4 c cs _ hc _ ih | case5 c cs _ hc _ _ _ ih =>
    have hne : splitLines (cs ++ ['\n']) ≠ [] := splitLines_ne_nil (by simp)
    obtain ⟨line, lines, hlines⟩ := List.exists_cons_of_ne_nil hne
    have hbreak : isLineBreak c = false := by simpa using hc
    rw [List.cons_append, List.cons_append, splitLines_cons hbreak, splitLines_cons hbreak, ih,
      hlines]
    rfl

/-- The lines of a text with the line feeds that end them; the last may be without. -/
def textLines (final : Bool) : List (List Char) → List (List Char)
  | [] => []
  | line :: lines =>
    (line ++ if lines = [] ∧ final = false then [] else ['\n']) :: textLines final lines

theorem textLines_cons (final : Bool) (line : List Char) (lines : List (List Char)) :
    ∃ ending, textLines final (line :: lines) = (line ++ ending) :: textLines final lines :=
  ⟨_, rfl⟩

theorem mem_textLines {final : Bool} {lines : List (List Char)} {chunk : List Char}
    (h : chunk ∈ textLines final lines) : ∃ line ∈ lines, ∃ ending, chunk = line ++ ending := by
  induction lines with
  | nil => cases h
  | cons line lines ih =>
    rcases List.mem_cons.mp h with rfl | h
    · exact ⟨line, List.mem_cons_self, _, rfl⟩
    · obtain ⟨other, hother, hchunk⟩ := ih h
      exact ⟨other, List.mem_cons_of_mem line hother, hchunk⟩

theorem exists_mem_textLines (final : Bool) {lines : List (List Char)} {line : List Char}
    (h : line ∈ lines) : ∃ ending, line ++ ending ∈ textLines final lines := by
  induction lines with
  | nil => cases h
  | cons other lines ih =>
    rcases List.mem_cons.mp h with rfl | h
    · exact ⟨_, List.mem_cons_self⟩
    · obtain ⟨ending, hmem⟩ := ih h
      exact ⟨ending, List.mem_cons_of_mem _ hmem⟩

theorem splitLines_textLines (final : Bool) (lines : List (List Char)) :
    splitLines (textLines final lines).flatten = (textLines final lines).flatMap splitLines := by
  induction lines with
  | nil => rfl
  | cons line lines ih =>
    simp only [textLines, List.flatten_cons, List.flatMap_cons, ← ih]
    split
    · rename_i hlast
      simp [hlast.1, textLines, splitLines]
    · rw [List.append_assoc, List.singleton_append]
      exact splitLines_append line _

theorem textLines_append (final : Bool) (xs ys : List (List Char)) :
    textLines final (xs ++ ys) = textLines (final || ys ≠ []) xs ++ textLines final ys := by
  induction xs with
  | nil => rfl
  | cons line xs ih =>
    simp only [List.cons_append, textLines, ih]
    congr 2
    by_cases hys : ys = [] <;> simp [hys]

theorem splitLines_clean {start : List Char} (hclean : ∀ c ∈ start, isLineBreak c = false)
    (hne : start ≠ []) (cs : List Char) :
    splitLines (start ++ cs) = (start ++ (splitLines cs).headD []) :: (splitLines cs).tail := by
  induction start with
  | nil => exact absurd rfl hne
  | cons c start ih =>
    rw [List.cons_append, splitLines_cons (hclean c List.mem_cons_self)]
    cases start with
    | nil => rfl
    | cons d start =>
      rw [ih (fun x hx => hclean x (List.mem_cons_of_mem c hx)) (List.cons_ne_nil d start)]
      rfl

theorem splitLines_pieces (cs : List Char) :
    ∀ line ∈ splitLines cs, ∀ c ∈ line, isLineBreak c = false := by
  induction cs using splitLines.induct with
  | case1 => simp [splitLines]
  | case2 cs ih =>
    intro line hline
    rcases List.mem_cons.mp hline with rfl | hline
    · simp
    · exact ih line hline
  | case3 c cs hpair hc ih =>
    rw [splitLines_break hc cs fun hreturn rest heq => hpair rest hreturn heq]
    intro line hline
    rcases List.mem_cons.mp hline with rfl | hline
    · simp
    · exact ih line hline
  | case4 c cs _ hc _ ih | case5 c cs _ hc _ _ _ ih =>
    have hbreak : isLineBreak c = false := by simpa using hc
    rw [splitLines_cons hbreak]
    intro line hline d hd
    rcases List.mem_cons.mp hline with rfl | hline
    · rcases List.mem_cons.mp hd with rfl | hd
      · exact hbreak
      · cases hsplit : splitLines cs with
        | nil => simp [hsplit] at hd
        | cons first lines => exact ih first (by simp [hsplit]) d (by simpa [hsplit] using hd)
    · exact ih line (List.mem_of_mem_tail hline) d hd

theorem splitLines_line {line : List Char} (hclean : ∀ c ∈ line, isLineBreak c = false) :
    splitLines (line ++ ['\n']) = [line] ∧ (line ≠ [] → splitLines line = [line]) := by
  cases line with
  | nil => exact ⟨rfl, fun h => absurd rfl h⟩
  | cons c cs =>
    have hne : c :: cs ≠ [] := List.cons_ne_nil c cs
    constructor
    · rw [splitLines_clean hclean hne]
      simp [splitLines_newline, splitLines]
    · intro _
      have hsplit := splitLines_clean hclean hne []
      simpa [splitLines] using hsplit

theorem toList_join_lines (lines : List (List Char)) :
    (join "\n" (lines.map .ofList)).toList = (textLines false lines).flatten := by
  induction lines with
  | nil => rfl
  | cons line lines ih =>
    cases lines with
    | nil => simp [join, textLines]
    | cons next lines =>
      have hjoin : join "\n" ((line :: next :: lines).map .ofList) =
          .ofList line ++ "\n" ++ join "\n" ((next :: lines).map .ofList) := rfl
      rw [hjoin, String.toList_append, String.toList_append, ih]
      simp [textLines]

/-- With a line feed behind them, lines that are joined come apart again. -/
theorem splitLines_ended {lines : List (List Char)} (hne : lines ≠ [])
    (hclean : ∀ line ∈ lines, ∀ c ∈ line, isLineBreak c = false) :
    splitLines ((textLines false lines).flatten ++ ['\n']) = lines := by
  induction lines with
  | nil => exact absurd rfl hne
  | cons line lines ih =>
    obtain ⟨hline, hrest⟩ := List.forall_mem_cons.mp hclean
    cases lines with
    | nil => simpa [textLines] using (splitLines_line hline).1
    | cons next lines =>
      have hchars : (textLines false (line :: next :: lines)).flatten ++ ['\n'] =
          line ++ '\n' :: ((textLines false (next :: lines)).flatten ++ ['\n']) := by
        simp [textLines]
      rw [hchars, splitLines_append, (splitLines_line hline).1, ih (List.cons_ne_nil _ _) hrest]
      rfl

theorem splitLines_join {lines : List (List Char)}
    (hclean : ∀ line ∈ lines, ∀ c ∈ line, isLineBreak c = false) :
    splitLines (textLines false lines).flatten =
      if lines.getLast? = some [] then lines.dropLast else lines := by
  rw [splitLines_textLines]
  induction lines with
  | nil => rfl
  | cons line lines ih =>
    have hline := splitLines_line (hclean line List.mem_cons_self)
    cases lines with
    | nil =>
      by_cases hempty : line = []
      · simp [hempty, textLines, splitLines]
      · simp [hempty, textLines, hline.2 hempty]
    | cons next lines =>
      have hrest := ih fun l hl => hclean l (List.mem_cons_of_mem line hl)
      have hcons : textLines false (line :: next :: lines) =
          (line ++ ['\n']) :: textLines false (next :: lines) := by simp [textLines]
      rw [hcons, List.flatMap_cons, hline.1, hrest, List.getLast?_cons_cons, List.singleton_append]
      split <;> rfl

theorem getLast?_newline_join {lines : List (List Char)} (hne : lines ≠ [])
    (hclean : ∀ line ∈ lines, ∀ c ∈ line, isLineBreak c = false) :
    ('\n' :: (textLines false lines).flatten).getLast? = some '\n' ↔ lines.getLast? = some [] := by
  induction lines with
  | nil => exact absurd rfl hne
  | cons line lines ih =>
    cases lines with
    | nil =>
      cases line with
      | nil => simp [textLines]
      | cons c cs =>
        have hlast : (c :: cs).getLast? ≠ some '\n' := by
          intro h
          have hbreak := hclean _ List.mem_cons_self _ (List.mem_of_getLast? h)
          simp [isLineBreak] at hbreak
        simpa [textLines] using hlast
    | cons next lines =>
      have hrest := ih (List.cons_ne_nil next lines)
        fun l hl => hclean l (List.mem_cons_of_mem line hl)
      have hcons : '\n' :: (textLines false (line :: next :: lines)).flatten =
          ('\n' :: line) ++ '\n' :: (textLines false (next :: lines)).flatten := by
        simp [textLines]
      rw [hcons, List.getLast?_append_of_ne_nil _ (List.cons_ne_nil _ _), hrest,
        List.getLast?_cons_cons]

theorem getLast?_join {line : List Char} {lines : List (List Char)} (hline : line ≠ [])
    (hclean : ∀ l ∈ line :: lines, ∀ c ∈ l, isLineBreak c = false) :
    (textLines false (line :: lines)).flatten.getLast? = some '\n' ↔
      (line :: lines).getLast? = some [] := by
  have hne : (textLines false (line :: lines)).flatten ≠ [] := by simp [textLines, hline]
  obtain ⟨c, cs, htext⟩ := List.exists_cons_of_ne_nil hne
  rw [← getLast?_newline_join (List.cons_ne_nil line lines) hclean, htext, List.getLast?_cons_cons]

end Python
