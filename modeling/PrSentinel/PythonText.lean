import Mathlib.Data.List.Basic
import Mathlib.Data.List.Dedup
import Mathlib.Data.List.DropRight
import Mathlib.Data.List.Sort
import Mathlib.Data.String.Basic
import PrSentinel.Rounding

/-!
The part of the Python language and library that the reviewer's code leans on:
exceptions, strings and numbers. A `float` is a rational, an infinity or NaN; what is
read from a text or an integer is rounded to binary64, the sign of a zero is not kept.
-/

set_option autoImplicit false

namespace Python

inductive Exc where
  | typeError | valueError | overflowError | attributeError | keyError
  | jsonDecodeError | recursionError
  deriving DecidableEq, Repr

def Exc.name : Exc → String
  | .typeError => "TypeError"
  | .valueError => "ValueError"
  | .overflowError => "OverflowError"
  | .attributeError => "AttributeError"
  | .keyError => "KeyError"
  | .jsonDecodeError => "JSONDecodeError"
  | .recursionError => "RecursionError"

/-- `except ValueError` also catches `json.JSONDecodeError`. -/
def Exc.isValueError : Exc → Bool
  | .valueError | .jsonDecodeError => true
  | _ => false

theorem ok_of_bind {α β : Type} {x : Except Exc α} {f : α → Except Exc β} {b : β}
    (h : (x >>= f) = .ok b) : ∃ a, x = .ok a ∧ f a = .ok b := by
  cases x with
  | error e => cases h
  | ok a => exact ⟨a, rfl, h⟩

theorem ok_bind_iff {α β : Type} {x : Except Exc α} {f : α → Except Exc β} {b : β} :
    (x >>= f) = .ok b ↔ ∃ a, x = .ok a ∧ f a = .ok b := by
  constructor
  · exact ok_of_bind
  · rintro ⟨a, rfl, h⟩
    exact h

theorem error_bind_iff {α β : Type} {x : Except Exc α} {f : α → Except Exc β} {e : Exc} :
    (x >>= f) = .error e ↔ x = .error e ∨ ∃ a, x = .ok a ∧ f a = .error e := by
  cases x with
  | error e' => simp [bind, Except.bind]
  | ok a => simp [bind, Except.bind]

theorem exists_mem_of_forall₂ {α β : Type} {R : α → β → Prop} {xs : List α} {ys : List β}
    (h : List.Forall₂ R xs ys) {x : α} (hx : x ∈ xs) : ∃ y ∈ ys, R x y := by
  induction h with
  | nil => cases hx
  | cons hxy _ ih =>
    rcases List.mem_cons.mp hx with rfl | hx
    · exact ⟨_, List.mem_cons_self, hxy⟩
    · obtain ⟨y, hy, hrelated⟩ := ih hx
      exact ⟨y, List.mem_cons_of_mem _ hy, hrelated⟩

theorem forall₂_of_mapM {α β : Type} {f : α → Except Exc β} {xs : List α} {ys : List β}
    (h : xs.mapM f = .ok ys) : List.Forall₂ (fun x y => f x = .ok y) xs ys := by
  induction xs generalizing ys with
  | nil =>
    rw [List.mapM_nil] at h
    cases h
    exact .nil
  | cons x xs ih =>
    rw [List.mapM_cons] at h
    obtain ⟨y, hy, h⟩ := ok_of_bind h
    obtain ⟨rest, hrest, h⟩ := ok_of_bind h
    cases h
    exact .cons hy (ih hrest)

inductive Flt where
  | fin (q : ℚ)
  | inf (negative : Bool)
  | nan
  deriving DecidableEq, Repr

/-- From here on a decimal literal reads as infinity. -/
def floatBound : ℚ := 2 ^ 1024 - 2 ^ 970

def Flt.ofRat (q : ℚ) : Flt :=
  if floatBound ≤ q then .inf false
  else if q ≤ -floatBound then .inf true
  else .fin (toBinary64 q)

def isAscii (c : Char) : Bool := c.toNat < 128

theorem word_range {c : Char} (h : (c.isAlphanum || decide (c = '_')) = true) :
    48 ≤ c.toNat ∧ c.toNat ≤ 122 := by
  have hrange {a z : Char} (hlow : a.val ≤ c.val) (hhigh : c.val ≤ z.val) :
      a.toNat ≤ c.toNat ∧ c.toNat ≤ z.toNat :=
    ⟨UInt32.le_iff_toNat_le.mp hlow, UInt32.le_iff_toNat_le.mp hhigh⟩
  rcases Bool.or_eq_true_iff.mp h with halnum | hunderscore
  · rcases Bool.or_eq_true_iff.mp halnum with halpha | hdigit
    · rcases Bool.or_eq_true_iff.mp halpha with hupper | hlower
      · obtain ⟨hlow, hhigh⟩ : 'A'.val ≤ c.val ∧ c.val ≤ 'Z'.val := of_decide_eq_true hupper
        obtain ⟨hA, hZ⟩ := hrange hlow hhigh
        exact ⟨le_trans (by decide) hA, hZ.trans (by decide)⟩
      · obtain ⟨hlow, hhigh⟩ := Bool.and_eq_true_iff.mp hlower
        obtain ⟨ha, hz⟩ := hrange (of_decide_eq_true hlow) (of_decide_eq_true hhigh)
        exact ⟨le_trans (by decide) ha, hz⟩
    · obtain ⟨hlow, hhigh⟩ := Bool.and_eq_true_iff.mp hdigit
      obtain ⟨h0, h9⟩ := hrange (of_decide_eq_true hlow) (of_decide_eq_true hhigh)
      exact ⟨h0, h9.trans (by decide)⟩
  · obtain rfl := of_decide_eq_true hunderscore
    decide

def asciiSpace (c : Char) : Bool :=
  c = ' ' || (9 ≤ c.toNat && c.toNat ≤ 13) || (28 ≤ c.toNat && c.toNat ≤ 31)

def asciiDecimal (c : Char) : Option ℕ := if c.isDigit then some (c.toNat - '0'.toNat) else none

/-- What the running interpreter supplies: Unicode tables, printers, the texts of
its exceptions, the order in which it walks a set filled from a list, its recursion
limit, the rounding of its arithmetic. Only ASCII behaviour is pinned. -/
class Interp where
  isSpace : Char → Bool
  isAlnum : Char → Bool
  decimal : Char → Option ℕ
  lower : List Char → List Char
  reprFloat : Flt → String
  reprStr : String → String
  reprLone : List ℕ → String
  message : Exc → String
  setOrder : {α : Type} → [DecidableEq α] → List α → List α
  recursionLimit : ℕ
  round : ℚ → ℚ
  isSpace_ascii : ∀ c, isAscii c = true → isSpace c = asciiSpace c
  isAlnum_ascii : ∀ c, isAscii c = true → isAlnum c = c.isAlphanum
  decimal_ascii : ∀ c, isAscii c = true → decimal c = asciiDecimal c
  lower_ascii : ∀ cs, (∀ c ∈ cs, isAscii c = true) → lower cs = cs.map Char.toLower
  setOrder_perm : ∀ {α : Type} [DecidableEq α] (xs : List α), (setOrder xs).Perm xs.dedup
  round_unit : ∀ q, 0 ≤ q → q ≤ 1 → 0 ≤ round q ∧ round q ≤ 1

theorem Interp.mem_setOrder [Interp] {α : Type} [DecidableEq α] (xs : List α) (x : α) :
    x ∈ Interp.setOrder xs ↔ x ∈ xs :=
  (Interp.setOrder_perm xs).mem_iff.trans List.mem_dedup

/-- An interpreter that knows ASCII only. -/
@[reducible] def asciiInterp : Interp where
  isSpace := asciiSpace
  isAlnum := Char.isAlphanum
  decimal := asciiDecimal
  lower := List.map Char.toLower
  reprFloat
    | .fin q => if q.den = 1 then toString q.num ++ ".0" else toString q
    | .inf false => "inf"
    | .inf true => "-inf"
    | .nan => "nan"
  reprStr s := "'" ++ s ++ "'"
  reprLone points := "'" ++ .ofList (points.map Char.ofNat) ++ "'"
  message e := e.name
  setOrder xs := xs.dedup
  recursionLimit := 1000
  round := toBinary64
  isSpace_ascii _ _ := rfl
  isAlnum_ascii _ _ := rfl
  decimal_ascii _ _ := rfl
  lower_ascii _ _ := rfl
  setOrder_perm _ := .refl _
  round_unit _ := toBinary64_unit

/-- An interpreter whose arithmetic does not round. -/
class ExactInterp extends Interp where
  round_eq : ∀ q, round q = q

@[reducible] def exactInterp : ExactInterp where
  toInterp := { asciiInterp with
    round := id
    round_unit := fun _ hlow hhigh => ⟨hlow, hhigh⟩ }
  round_eq _ := rfl

def stripList (p : Char → Bool) (cs : List Char) : List Char :=
  ((cs.dropWhile p).reverse.dropWhile p).reverse

theorem stripList_eq_nil_iff {p : Char → Bool} {cs : List Char} :
    stripList p cs = [] ↔ ∀ c ∈ cs, p c = true := by
  rw [stripList, List.reverse_eq_nil_iff, List.dropWhile_eq_nil_iff]
  simp only [List.mem_reverse]
  rw [← List.dropWhile_eq_nil_iff, List.dropWhile_idempotent, List.dropWhile_eq_nil_iff]

theorem stripList_split (p : Char → Bool) (cs : List Char) : ∃ lead trail,
    cs = lead ++ stripList p cs ++ trail ∧ (∀ c ∈ lead, p c = true) ∧ ∀ c ∈ trail, p c = true := by
  refine ⟨cs.takeWhile p, ((cs.dropWhile p).reverse.takeWhile p).reverse, ?_, ?_, ?_⟩
  · rw [stripList, List.append_assoc, ← List.reverse_append, List.takeWhile_append_dropWhile,
      List.reverse_reverse, List.takeWhile_append_dropWhile]
  · exact fun c hc => List.mem_takeWhile_imp hc
  · exact fun c hc => List.mem_takeWhile_imp (List.mem_reverse.mp hc)

def Stripped (p : Char → Bool) (cs : List Char) : Prop :=
  (∃ c ∈ cs.head?, p c = false) ∧ ∃ c ∈ cs.getLast?, p c = false

theorem dropWhile_head {p : Char → Bool} {cs : List Char} (h : cs.dropWhile p ≠ []) :
    ∃ c ∈ (cs.dropWhile p).head?, p c = false :=
  ⟨_, List.head?_eq_some_head h, List.head_dropWhile_not p h⟩

theorem dropWhile_pad {p : Char → Bool} {lead core : List Char} (hlead : ∀ c ∈ lead, p c = true)
    (hcore : ∃ c ∈ core.head?, p c = false) : (lead ++ core).dropWhile p = core := by
  obtain ⟨c, hc, hp⟩ := hcore
  cases core with
  | nil => cases hc
  | cons d core =>
    cases hc
    rw [List.dropWhile_append_of_pos hlead, List.dropWhile_cons_of_neg (by simp [hp])]

theorem Stripped.of_strip {p : Char → Bool} {cs : List Char} (h : stripList p cs ≠ []) :
    Stripped p (stripList p cs) := by
  have hlast : (cs.dropWhile p).reverse.dropWhile p ≠ [] := fun hnil => h (by rw [stripList, hnil]; rfl)
  have hfirst : cs.dropWhile p ≠ [] := fun hnil => hlast (by rw [hnil]; rfl)
  have hsuffix := List.dropWhile_suffix (l := (cs.dropWhile p).reverse) p
  refine ⟨?_, ?_⟩
  · have hend : ((cs.dropWhile p).reverse.dropWhile p).getLast? = (cs.dropWhile p).head? := by
      rw [List.getLast?_eq_some_getLast hlast, hsuffix.getLast hlast, List.getLast_reverse,
        List.head?_eq_some_head hfirst]
    rw [stripList, List.head?_reverse, hend]
    exact dropWhile_head hfirst
  · rw [stripList, List.getLast?_reverse]
    exact dropWhile_head hlast

theorem Stripped.strip {p : Char → Bool} {lead core trail : List Char} (h : Stripped p core)
    (hlead : ∀ c ∈ lead, p c = true) (htrail : ∀ c ∈ trail, p c = true) :
    stripList p (lead ++ core ++ trail) = core := by
  have hhead : ∃ c ∈ (core ++ trail).head?, p c = false := by
    obtain ⟨c, hc, hp⟩ := h.1
    exact ⟨c, by rw [List.head?_append, Option.mem_def.mp hc]; rfl, hp⟩
  rw [stripList, List.append_assoc, dropWhile_pad hlead hhead, List.reverse_append,
    dropWhile_pad (by simpa using htrail) (by simpa using h.2), List.reverse_reverse]

def lstrip (chars : List Char) (s : String) : String :=
  .ofList (s.toList.dropWhile (fun c => c ∈ chars))

def endswith (s t : String) : Bool := t.toList.isSuffixOf s.toList

def startswith (s t : String) : Bool := t.toList.isPrefixOf s.toList

def upto (n : ℕ) (s : String) : String := .ofList (s.toList.take n)

def join (sep : String) : List String → String
  | [] => ""
  | [s] => s
  | s :: rest => s ++ sep ++ join sep rest

theorem mem_join {sep s : String} {parts : List String} (hs : s ∈ parts) {c : Char}
    (hc : c ∈ s.toList) : c ∈ (join sep parts).toList := by
  induction parts with
  | nil => cases hs
  | cons first parts ih =>
    cases parts with
    | nil =>
      rw [List.mem_singleton.mp hs] at hc
      exact hc
    | cons next parts =>
      have hjoin : join sep (first :: next :: parts) = first ++ sep ++ join sep (next :: parts) := rfl
      rw [hjoin, String.toList_append, List.mem_append]
      rcases List.mem_cons.mp hs with rfl | hs
      · exact .inl (by rw [String.toList_append]; exact List.mem_append_left _ hc)
      · exact .inr (ih hs)

def splitWords (p : Char → Bool) : List Char → List Char → List (List Char)
  | [], [] => []
  | word, [] => [word.reverse]
  | word, c :: cs =>
    if p c then
      match word with
      | [] => splitWords p [] cs
      | word => word.reverse :: splitWords p [] cs
    else splitWords p (c :: word) cs

def split (sep : Char) (s : String) : List String := (s.toList.splitOn sep).map .ofList

def cutAt (sep : Char) : List Char → Option (List Char × List Char)
  | [] => none
  | c :: cs => if c = sep then some ([], cs) else (cutAt sep cs).map (Prod.map (c :: ·) id)

def partitionAt (sep : Char) (s : String) : String × String × String :=
  match cutAt sep s.toList with
  | none => (s, "", "")
  | some (before, after) => (.ofList before, .singleton sep, .ofList after)

def rpartitionAt (sep : Char) (s : String) : String × String × String :=
  match cutAt sep s.toList.reverse with
  | none => ("", "", s)
  | some (after, before) => (.ofList before.reverse, .singleton sep, .ofList after.reverse)

theorem cutAt_found {sep : Char} {before : List Char} (after : List Char) (h : sep ∉ before) :
    cutAt sep (before ++ sep :: after) = some (before, after) := by
  induction before with
  | nil => simp [cutAt]
  | cons c before ih =>
    have hc : c ≠ sep := fun hc => h (by simp [hc])
    have hrest := fun hmem => h (List.mem_cons_of_mem c hmem)
    simp [cutAt, hc, ih hrest]

theorem cutAt_absent {sep : Char} {cs : List Char} (h : sep ∉ cs) : cutAt sep cs = none := by
  induction cs with
  | nil => rfl
  | cons c cs ih =>
    have hc : c ≠ sep := fun hc => h (by simp [hc])
    have hrest := fun hmem => h (List.mem_cons_of_mem c hmem)
    simp [cutAt, hc, ih hrest]

theorem partitionAt_found {sep : Char} {before : String} (after : String) (h : sep ∉ before.toList) :
    partitionAt sep (before ++ .singleton sep ++ after) = (before, .singleton sep, after) := by
  have hchars : (before ++ .singleton sep ++ after).toList =
      before.toList ++ sep :: after.toList := by simp
  simp only [partitionAt, hchars, cutAt_found _ h, String.ofList_toList]

theorem partitionAt_absent {sep : Char} {s : String} (h : sep ∉ s.toList) :
    partitionAt sep s = (s, "", "") := by
  simp only [partitionAt, cutAt_absent h]

theorem rpartitionAt_found {sep : Char} {after : String} (before : String) (h : sep ∉ after.toList) :
    rpartitionAt sep (before ++ .singleton sep ++ after) = (before, .singleton sep, after) := by
  have hchars : (before ++ .singleton sep ++ after).toList.reverse =
      after.toList.reverse ++ sep :: before.toList.reverse := by simp
  have habsent : sep ∉ after.toList.reverse := by simpa using h
  simp only [rpartitionAt, hchars, cutAt_found _ habsent, List.reverse_reverse, String.ofList_toList]

def orElse (s default : String) : String := if s = "" then default else s

def indexOf (xs : List String) (s : String) : Except Exc ℕ :=
  if s ∈ xs then .ok (xs.idxOf s) else .error .valueError

def sortedSet (xs : List String) : List String := (xs.dedup).insertionSort (· ≤ ·)

@[simp] theorem mem_sortedSet {xs : List String} {x : String} : x ∈ sortedSet xs ↔ x ∈ xs := by
  simp [sortedSet]

section Interp
variable [Interp]

def strip (s : String) : String := .ofList (stripList Interp.isSpace s.toList)

theorem strip_eq_empty_iff (s : String) :
    strip s = "" ↔ ∀ c ∈ s.toList, Interp.isSpace c = true := by
  rw [strip, ← String.toList_inj, String.toList_ofList]
  exact stripList_eq_nil_iff

def lower (s : String) : String := .ofList (Interp.lower s.toList)

def inWord (c : Char) : Bool := Interp.isAlnum c || c = '_'

def digitRun : List Char → Option (List ℕ)
  | [] => none
  | [c] => (Interp.decimal c).map fun d => [d]
  | c :: '_' :: cs => do
      let d ← Interp.decimal c
      let ds ← digitRun cs
      pure (d :: ds)
  | c :: cs => do
      let d ← Interp.decimal c
      let ds ← digitRun cs
      pure (d :: ds)

end Interp

def ofDigits (ds : List ℕ) : ℕ := ds.foldl (fun n d => 10 * n + d) 0

/-- `int` refuses to convert longer digit strings. -/
def maxStrDigits : ℕ := 4300

def signOf : List Char → Bool × List Char
  | '-' :: cs => (true, cs)
  | '+' :: cs => (false, cs)
  | cs => (false, cs)

def withSign (negative : Bool) (n : ℤ) : ℤ := if negative then -n else n

def scaled (negative : Bool) (digits fraction : List ℕ) (exponent : ℤ) : Flt :=
  let m : ℚ := ofDigits (digits ++ fraction)
  let q := m * (10 : ℚ) ^ (exponent - (fraction.length : ℤ))
  .ofRat (if negative then -q else q)

section Interp
variable [Interp]

def intOfStr (s : String) : Except Exc ℤ :=
  let (negative, cs) := signOf (stripList Interp.isSpace s.toList)
  match digitRun cs with
  | none => .error .valueError
  | some ds =>
    if maxStrDigits < ds.length then .error .valueError
    else .ok (withSign negative (ofDigits ds))

def digitsOrNone (cs : List Char) : Option (List ℕ) :=
  match cs with
  | [] => some []
  | cs => digitRun cs

def floatOfStr (s : String) : Except Exc Flt :=
  let (negative, cs) := signOf (stripList Interp.isSpace s.toList)
  let folded := cs.map Char.toLower
  if folded = "inf".toList ∨ folded = "infinity".toList then .ok (.inf negative)
  else if folded = "nan".toList then .ok .nan
  else
    let mantissa := cs.takeWhile (fun c => c ≠ 'e' && c ≠ 'E')
    let whole := mantissa.takeWhile (· ≠ '.')
    let fraction := (mantissa.drop whole.length).drop 1
    let exponent : Option ℤ :=
      match cs.drop mantissa.length with
      | [] => some 0
      | _ :: tail =>
        let (negative, ds) := signOf tail
        (digitRun ds).map fun ds => withSign negative (ofDigits ds)
    match digitsOrNone whole, digitsOrNone fraction, exponent with
    | some [], some [], _ => .error .valueError
    | some ds, some fs, some e => .ok (scaled negative ds fs e)
    | _, _, _ => .error .valueError

end Interp

def Flt.trunc : Flt → Except Exc ℤ
  | .fin q => .ok (if 0 ≤ q then ⌊q⌋ else ⌈q⌉)
  | .inf _ => .error .overflowError
  | .nan => .error .valueError

def floatOfInt (n : ℤ) : Except Exc Flt :=
  match Flt.ofRat n with
  | .fin q => .ok (.fin q)
  | _ => .error .overflowError

theorem floatOfInt_error {n : ℤ} {e : Exc} :
    floatOfInt n = .error e ↔ e = .overflowError ∧ floatBound ≤ |(n : ℚ)| := by
  have hpos : (0 : ℚ) < floatBound := sub_pos.mpr (pow_lt_pow_right₀ (by norm_num) (by norm_num))
  unfold floatOfInt Flt.ofRat
  by_cases hhigh : floatBound ≤ (n : ℚ)
  · have habs : floatBound ≤ |(n : ℚ)| := hhigh.trans (le_abs_self _)
    simp [hhigh, habs, eq_comm]
  · by_cases hlow : (n : ℚ) ≤ -floatBound
    · have habs : floatBound ≤ |(n : ℚ)| := (le_neg.mp hlow).trans (neg_le_abs _)
      simp [hhigh, hlow, habs, eq_comm]
    · have habs : ¬ floatBound ≤ |(n : ℚ)| := by
        rw [le_abs, not_or]
        exact ⟨hhigh, fun h => hlow (le_neg.mpr h)⟩
      simp [hhigh, hlow, habs]

/-- `max(0.0, min(1.0, x))`; a NaN loses the comparison with `1.0`. -/
def Flt.clamp : Flt → ℚ
  | .fin q => max 0 (min 1 q)
  | .inf false | .nan => 1
  | .inf true => 0

theorem Flt.clamp_mem (x : Flt) : 0 ≤ x.clamp ∧ x.clamp ≤ 1 := by
  cases x with
  | fin q => simp [clamp]
  | inf negative => cases negative <;> simp [clamp]
  | nan => simp [clamp]

def padLeft (width : ℕ) (s : String) : String :=
  .ofList (List.replicate (width - s.toList.length) '0' ++ s.toList)

def fixed2 (q : ℚ) : String :=
  let n := roundHalfEven (q * 100)
  (if n < 0 then "-" else "") ++ toString (n.natAbs / 100) ++ "." ++
    padLeft 2 (toString (n.natAbs % 100))

example : (@intOfStr asciiInterp " -1_204\n").toOption = some (-1204) := by decide +kernel

end Python
