import Mathlib.Algebra.Order.Field.Basic
import Mathlib.Algebra.Order.Floor.Ring
import Mathlib.Data.Rat.Floor
import Mathlib.Tactic.FieldSimp
import Mathlib.Tactic.NormNum
import Mathlib.Tactic.Positivity
import Mathlib.Tactic.SplitIfs

/-!
Rounding: a rational to the nearest integer, to a number of decimals, and to the
nearest binary64 value, halves to the even neighbour.
-/

set_option autoImplicit false

namespace Python

def roundHalfEven (q : ℚ) : ℤ :=
  let r := q - ⌊q⌋
  if r < 1 / 2 then ⌊q⌋
  else if 1 / 2 < r then ⌊q⌋ + 1
  else if ⌊q⌋ % 2 = 0 then ⌊q⌋ else ⌊q⌋ + 1

def pyRound (digits : ℕ) (q : ℚ) : ℚ := (roundHalfEven (q * 10 ^ digits) : ℚ) / 10 ^ digits

theorem roundHalfEven_nonneg {q : ℚ} (hq : 0 ≤ q) : 0 ≤ roundHalfEven q := by
  have hfloor : 0 ≤ ⌊q⌋ := Int.floor_nonneg.mpr hq
  simp only [roundHalfEven]
  split_ifs <;> omega

theorem pyRound_nonneg (digits : ℕ) {q : ℚ} (hq : 0 ≤ q) : 0 ≤ pyRound digits q := by
  have hround : (0 : ℚ) ≤ roundHalfEven (q * 10 ^ digits) :=
    Int.cast_nonneg (roundHalfEven_nonneg (mul_nonneg hq (by positivity)))
  exact div_nonneg hround (by positivity)

theorem roundHalfEven_le {q : ℚ} {n : ℤ} (hq : q ≤ n) : roundHalfEven q ≤ n := by
  have hfloor : ⌊q⌋ ≤ n := Int.floor_le_iff.mpr (by linarith)
  by_cases heq : ⌊q⌋ = n
  · have hq' : q = n := le_antisymm hq (heq ▸ Int.floor_le q)
    simp [roundHalfEven, hq']
  · simp only [roundHalfEven]
    split_ifs <;> omega

theorem pyRound_le_one (digits : ℕ) {q : ℚ} (hq : q ≤ 1) : pyRound digits q ≤ 1 := by
  have hscaled : q * 10 ^ digits ≤ ((10 ^ digits : ℤ) : ℚ) := by
    push_cast
    exact mul_le_of_le_one_left (by positivity) hq
  have hround : ((roundHalfEven (q * 10 ^ digits) : ℤ) : ℚ) ≤ ((10 ^ digits : ℤ) : ℚ) :=
    Int.cast_le.mpr (roundHalfEven_le hscaled)
  refine div_le_one_of_le₀ ?_ (by positivity)
  simpa using hround

theorem floor_le_roundHalfEven (q : ℚ) : ⌊q⌋ ≤ roundHalfEven q ∧ roundHalfEven q ≤ ⌊q⌋ + 1 := by
  simp only [roundHalfEven]
  split_ifs <;> omega

theorem roundHalfEven_mono {p q : ℚ} (h : p ≤ q) : roundHalfEven p ≤ roundHalfEven q := by
  have hfloor : ⌊p⌋ ≤ ⌊q⌋ := Int.floor_le_floor h
  rcases hfloor.eq_or_lt with heq | hlt
  · simp only [roundHalfEven, heq]
    split_ifs <;> first | omega | linarith
  · have hp := (floor_le_roundHalfEven p).2
    have hq := (floor_le_roundHalfEven q).1
    omega

theorem pyRound_mono (digits : ℕ) {p q : ℚ} (h : p ≤ q) : pyRound digits p ≤ pyRound digits q := by
  have hscaled : p * 10 ^ digits ≤ q * 10 ^ digits := mul_le_mul_of_nonneg_right h (by positivity)
  have hround : (roundHalfEven (p * 10 ^ digits) : ℚ) ≤ roundHalfEven (q * 10 ^ digits) :=
    Int.cast_le.mpr (roundHalfEven_mono hscaled)
  exact div_le_div_of_nonneg_right hround (by positivity)

/-- Above the half an integer is reached, below it is not. -/
theorem le_roundHalfEven {q : ℚ} {n : ℤ} (h : (n : ℚ) - 1 / 2 < q) : n ≤ roundHalfEven q := by
  have hlow := Int.floor_le q
  have hhigh := Int.lt_floor_add_one q
  have hfloor : n - 1 ≤ ⌊q⌋ := Int.le_floor.mpr (by push_cast; linarith)
  rcases hfloor.eq_or_lt with heq | hlt
  · have hcast : (⌊q⌋ : ℚ) = n - 1 := by rw [← heq]; push_cast; ring
    have hhalf : ¬ q - ⌊q⌋ < 1 / 2 ∧ 1 / 2 < q - ⌊q⌋ := by
      rw [hcast]
      constructor <;> linarith
    simp only [roundHalfEven, if_neg hhalf.1, if_pos hhalf.2]
    omega
  · have hround := (floor_le_roundHalfEven q).1
    omega

theorem roundHalfEven_lt {q : ℚ} {n : ℤ} (h : q < (n : ℚ) - 1 / 2) : roundHalfEven q < n := by
  have hround := (floor_le_roundHalfEven q).2
  have hfloor : ⌊q⌋ < n := Int.floor_lt.mpr (by linarith)
  by_cases heq : ⌊q⌋ = n - 1
  · have hcast : (⌊q⌋ : ℚ) = n - 1 := by rw [heq]; push_cast; ring
    have hhalf : q - ⌊q⌋ < 1 / 2 := by
      rw [hcast]
      linarith
    simp only [roundHalfEven, if_pos hhalf]
    omega
  · omega

theorem le_pyRound_iff {digits : ℕ} {a q : ℚ} :
    a ≤ pyRound digits q ↔ ⌈a * 10 ^ digits⌉ ≤ roundHalfEven (q * 10 ^ digits) := by
  rw [pyRound, le_div_iff₀ (by positivity), Int.ceil_le]

def binade (q : ℚ) : ℤ :=
  let e : ℤ := (q.num.natAbs.log2 : ℤ) - q.den.log2
  if (2 : ℚ) ^ e ≤ |q| then e else e - 1

/-- The distance between neighbours: 53 significant bits, none below `2 ^ (-1074)`. -/
def ulp (q : ℚ) : ℚ := 2 ^ max (binade q - 52) (-1074)

/-- The nearest binary64 value. Where that would be infinite, `q` is past `floatBound`. -/
def toBinary64 (q : ℚ) : ℚ := roundHalfEven (q / ulp q) * ulp q

theorem ulp_pos (q : ℚ) : 0 < ulp q := zpow_pos (by norm_num) _

theorem two_pow_binade_le {q : ℚ} (hq : q ≠ 0) : (2 : ℚ) ^ binade q ≤ |q| := by
  set a := q.num.natAbs.log2 with ha
  set b := q.den.log2 with hb
  have hnum : (2 : ℚ) ^ a ≤ q.num.natAbs := by
    exact_mod_cast Nat.log2_self_le (Int.natAbs_ne_zero.mpr (Rat.num_ne_zero.mpr hq))
  have hden : (q.den : ℚ) < 2 ^ (b + 1) := by
    exact_mod_cast Nat.lt_log2_self
  have habs : |q| = q.num.natAbs / q.den := by
    rw [Nat.cast_natAbs, Int.cast_abs, ← abs_of_pos (Nat.cast_pos.mpr q.den_pos : (0 : ℚ) < q.den),
      ← abs_div, Rat.num_div_den]
  have hbelow : (2 : ℚ) ^ ((a : ℤ) - b - 1) ≤ |q| := by
    have hsplit : (2 : ℚ) ^ ((a : ℤ) - b - 1) = 2 ^ a / 2 ^ (b + 1) := by
      rw [sub_sub, zpow_sub₀ (by norm_num)]
      norm_cast
    rw [hsplit, habs]
    exact div_le_div₀ (by positivity) hnum (Nat.cast_pos.mpr q.den_pos) hden.le
  unfold binade
  simp only [← ha, ← hb]
  split
  · assumption
  · exact hbelow

/-- A grid that is fine enough holds one itself. -/
theorem exists_mul_ulp {q : ℚ} (hfine : max (binade q - 52) (-1074) ≤ 0) :
    ∃ n : ℤ, n * ulp q = 1 := by
  obtain ⟨k, hk⟩ : ∃ k : ℕ, max (binade q - 52) (-1074) = -(k : ℤ) :=
    ⟨(-max (binade q - 52) (-1074)).toNat, by omega⟩
  refine ⟨2 ^ k, ?_⟩
  rw [ulp, hk, zpow_neg, zpow_natCast]
  push_cast
  exact mul_inv_cancel₀ (by positivity)

theorem toBinary64_unit {q : ℚ} (hlow : 0 ≤ q) (hhigh : q ≤ 1) :
    0 ≤ toBinary64 q ∧ toBinary64 q ≤ 1 := by
  have hulp := ulp_pos q
  constructor
  · have hround : (0 : ℚ) ≤ roundHalfEven (q / ulp q) :=
      Int.cast_nonneg (roundHalfEven_nonneg (div_nonneg hlow hulp.le))
    exact mul_nonneg hround hulp.le
  · rcases hlow.eq_or_lt with rfl | hpos
    · simp [toBinary64, roundHalfEven]
    · have hbinade : binade q ≤ 0 := by
        have hle := two_pow_binade_le hpos.ne'
        rw [abs_of_pos hpos] at hle
        exact (zpow_le_one_iff_right₀ (by norm_num : (1 : ℚ) < 2)).mp (hle.trans hhigh)
      obtain ⟨n, hn⟩ : ∃ n : ℤ, n * ulp q = 1 := exists_mul_ulp (by omega)
      have hscaled : q / ulp q ≤ n := by
        rw [div_le_iff₀ hulp, hn]
        exact hhigh
      have hround : (roundHalfEven (q / ulp q) : ℚ) ≤ n :=
        Int.cast_le.mpr (roundHalfEven_le hscaled)
      calc toBinary64 q ≤ n * ulp q := mul_le_mul_of_nonneg_right hround hulp.le
        _ = 1 := hn

theorem roundHalfEven_intCast (n : ℤ) : roundHalfEven n = n := by
  simp [roundHalfEven]

theorem one_le_toBinary64 {q : ℚ} (hq : 1 ≤ q) : 1 ≤ toBinary64 q := by
  have hulp := ulp_pos q
  have hreach {n : ℤ} (hn : (n : ℚ) ≤ q / ulp q) : n * ulp q ≤ toBinary64 q := by
    have hround : n ≤ roundHalfEven (q / ulp q) := by
      have hmono := roundHalfEven_mono hn
      rwa [roundHalfEven_intCast] at hmono
    exact mul_le_mul_of_nonneg_right (Int.cast_le.mpr hround) hulp.le
  by_cases hfine : max (binade q - 52) (-1074) ≤ 0
  · obtain ⟨n, hn⟩ := exists_mul_ulp hfine
    have hgrid := hreach (n := n) (by rwa [le_div_iff₀ hulp, hn])
    rwa [hn] at hgrid
  · -- the grid is coarser than one, and `q` is at least a step above zero
    have hcoarse : 1 ≤ ulp q := one_le_zpow₀ (by norm_num) (by omega)
    have hbinade := two_pow_binade_le (zero_lt_one.trans_le hq).ne'
    rw [abs_of_pos (zero_lt_one.trans_le hq)] at hbinade
    have hstep : ulp q ≤ q :=
      (zpow_le_zpow_right₀ (by norm_num) (by omega)).trans hbinade
    have hgrid := hreach (n := 1) (by rwa [Int.cast_one, one_le_div₀ hulp])
    rw [Int.cast_one, one_mul] at hgrid
    exact hcoarse.trans hgrid

theorem toBinary64_nonpos {q : ℚ} (hq : q ≤ 0) : toBinary64 q ≤ 0 := by
  have hulp := ulp_pos q
  have hround : roundHalfEven (q / ulp q) ≤ 0 :=
    roundHalfEven_le (by exact_mod_cast div_nonpos_of_nonpos_of_nonneg hq hulp.le)
  exact mul_nonpos_of_nonpos_of_nonneg (by exact_mod_cast hround) hulp.le

example : toBinary64 (1 / 10) = 3602879701896397 / 2 ^ 55 := by decide +kernel

end Python
