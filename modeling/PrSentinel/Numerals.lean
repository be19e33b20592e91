import PrSentinel.PythonText

set_option autoImplicit false

namespace PrSentinel
open Python

def numeral (n : ℕ) : List Char := Nat.toDigits 10 n

def digitsOf (n : ℕ) : List ℕ := (numeral n).map fun c => c.toNat - '0'.toNat

theorem digitsOf_ne_nil (n : ℕ) : digitsOf n ≠ [] := by simp [digitsOf, numeral]

theorem ofDigits_digitsOf (n : ℕ) : ofDigits (digitsOf n) = n := by
  rw [digitsOf, ofDigits, List.foldl_map, ← Nat.ofDigitChars_eq_foldl]
  exact Nat.ofDigitChars_ten_toDigits

theorem numeral_digit {n : ℕ} {c : Char} (h : c ∈ numeral n) : c.isDigit = true :=
  Nat.isDigit_of_mem_toDigits (by decide) (by decide) h

theorem numeral_length {n : ℕ} : (numeral n).length ≤ maxStrDigits ↔ n < 10 ^ maxStrDigits :=
  Nat.length_toDigits_le_iff (by decide) (by decide)

theorem isAscii_digit {c : Char} (h : c.isDigit = true) : isAscii c = true := by
  have hle := (Char.isDigit_iff_toNat.mp h).2
  simp only [isAscii, decide_eq_true_eq]
  exact Nat.lt_of_le_of_lt hle (by decide)

def strOfInt (n : ℤ) : Except Exc String :=
  if maxStrDigits < (numeral n.natAbs).length then .error .valueError
  else .ok (.ofList ((if n < 0 then ['-'] else []) ++ numeral n.natAbs))

/-- The integers that are written out. -/
def Printable (n : ℤ) : Prop := n.natAbs < 10 ^ maxStrDigits

instance (n : ℤ) : Decidable (Printable n) := inferInstanceAs (Decidable (_ < _))

theorem strOfInt_ok_iff {n : ℤ} : (∃ s, strOfInt n = .ok s) ↔ Printable n := by
  have hlength : (numeral n.natAbs).length ≤ maxStrDigits ↔ Printable n := numeral_length
  unfold strOfInt
  split
  · exact iff_of_false (by simp) fun h => absurd (hlength.mpr h) (by omega)
  · exact iff_of_true ⟨_, rfl⟩ (hlength.mp (by omega))

theorem strOfInt_chars {n : ℤ} {s : String} (h : strOfInt n = .ok s) :
    s.toList = (if n < 0 then ['-'] else []) ++ numeral n.natAbs ∧
      (numeral n.natAbs).length ≤ maxStrDigits := by
  unfold strOfInt at h
  split at h
  · cases h
  · cases h
    exact ⟨String.toList_ofList, by omega⟩

theorem strOfInt_free {n : ℤ} {s : String} {c : Char} (h : strOfInt n = .ok s)
    (hc : c.isDigit = false) (hminus : c = '-' → 0 ≤ n) : c ∉ s.toList := by
  intro hmem
  rw [(strOfInt_chars h).1, List.mem_append] at hmem
  rcases hmem with hmem | hmem
  · split at hmem
    · have := hminus (List.mem_singleton.mp hmem)
      omega
    · cases hmem
  · rw [numeral_digit hmem] at hc
    cases hc

theorem signOf_digits {cs : List Char} (h : ∀ c ∈ cs, c.isDigit = true) : signOf cs = (false, cs) := by
  unfold signOf
  split
  · cases h '-' List.mem_cons_self
  · cases h '+' List.mem_cons_self
  · rfl

theorem stripList_clean {p : Char → Bool} {cs : List Char} (h : ∀ c ∈ cs, p c = false) :
    stripList p cs = cs := by
  have hdrop {cs : List Char} (h : ∀ c ∈ cs, p c = false) : cs.dropWhile p = cs := by
    cases cs with
    | nil => rfl
    | cons c cs => simp [h c List.mem_cons_self]
  rw [stripList, hdrop h, hdrop (by simpa using h), List.reverse_reverse]

section Interp
variable [Interp]

theorem decimal_digit {c : Char} (h : c.isDigit = true) :
    Interp.decimal c = some (c.toNat - '0'.toNat) := by
  rw [Interp.decimal_ascii c (isAscii_digit h), asciiDecimal, if_pos h]

theorem digitRun_digits {cs : List Char} (hne : cs ≠ []) (h : ∀ c ∈ cs, c.isDigit = true) :
    digitRun cs = some (cs.map fun c => c.toNat - '0'.toNat) := by
  fun_induction digitRun cs with
  | case1 => exact absurd rfl hne
  | case2 c => simp [decimal_digit (h c List.mem_cons_self)]
  | case3 c cs ih =>
    have hunderscore := h '_' (by simp)
    cases hunderscore
  | case4 c cs hmore _ ih =>
    have hrest : cs ≠ [] := fun hnil => hmore hnil
    rw [decimal_digit (h c List.mem_cons_self), ih hrest fun x hx => h x (List.mem_cons_of_mem c hx)]
    rfl

theorem isSpace_printed {c : Char} (h : c.isDigit = true ∨ c = '-') : Interp.isSpace c = false := by
  rcases h with h | rfl
  · have hrange := Char.isDigit_iff_toNat.mp h
    have hlow : '0'.toNat = 48 := rfl
    have hne : c ≠ ' ' := by
      rintro rfl
      cases h
    rw [Interp.isSpace_ascii c (isAscii_digit h)]
    simp only [asciiSpace, hne, decide_false, Bool.false_or, Bool.or_eq_false_iff,
      Bool.and_eq_false_iff, decide_eq_false_iff_not]
    omega
  · rw [Interp.isSpace_ascii '-' rfl]
    rfl

theorem intOfStr_strOfInt {n : ℤ} {s : String} (h : strOfInt n = .ok s) : intOfStr s = .ok n := by
  obtain ⟨hchars, hlength⟩ := strOfInt_chars h
  have hdigits : ∀ c ∈ numeral n.natAbs, c.isDigit = true := fun _ => numeral_digit
  have hne : numeral n.natAbs ≠ [] := by simp [numeral]
  have hrun := digitRun_digits hne hdigits
  have hprinted : ∀ c ∈ s.toList, Interp.isSpace c = false := by
    intro c hc
    rw [hchars, List.mem_append] at hc
    refine isSpace_printed (hc.elim (fun hsign => .inr ?_) fun hc => .inl (hdigits c hc))
    split at hsign
    · exact List.mem_singleton.mp hsign
    · cases hsign
  have hsign : signOf s.toList = (decide (n < 0), numeral n.natAbs) := by
    rw [hchars]
    by_cases hneg : n < 0
    · simp [hneg, signOf]
    · simpa [hneg] using signOf_digits hdigits
  have hvalue : withSign (decide (n < 0)) (ofDigits (digitsOf n.natAbs)) = n := by
    rw [ofDigits_digitsOf, withSign]
    split_ifs with hneg
    · have := of_decide_eq_true hneg
      omega
    · have : ¬ n < 0 := by simpa using hneg
      omega
  simp only [intOfStr, stripList_clean hprinted, hsign, hrun]
  rw [if_neg (by simpa using hlength)]
  exact congrArg Except.ok hvalue

end Interp

end PrSentinel
