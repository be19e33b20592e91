import Mathlib.Algebra.BigOperators.Ring.List
import Mathlib.Tactic.FieldSimp
import Mathlib.Tactic.Positivity
import PrSentinel.Binning
import PrSentinel.Scoring

/-!
What the calibration of a list of matches adds up to: its bins hold every judged match
once, and its error lies between the gap of the whole list and one.
-/

set_option autoImplicit false

namespace PrSentinel
open Binning

theorem confidenceBins_tile : Tiles 0 confidenceBins (101 / 100) := by
  unfold confidenceBins
  repeat' constructor
  all_goals norm_num

def Match.confidence (m : Match) : ℚ := m.finding.confidence

/-- What a match adds to the gap between how often a finding is right and how often it says so. -/
def Match.gap (m : Match) : ℚ := (if m.kind = .hit then 1 else 0) - m.confidence

def binMembers (matched : List Match) (range : ℚ × ℚ) : List Match :=
  members Match.confidence (scoreable matched) range

def averageConfidence (ms : List Match) : ℚ := (ms.map Match.confidence).sum / ms.length

def hitShare (ms : List Match) : ℚ := (ms.filter fun m => m.kind = .hit).length / ms.length

section Means
variable {ms : List Match}

theorem sum_gap (ms : List Match) : (ms.map Match.gap).sum =
    (ms.filter fun m => m.kind = .hit).length - (ms.map Match.confidence).sum := by
  induction ms with
  | nil => simp
  | cons m ms ih =>
    rw [List.map_cons, List.sum_cons, ih, List.map_cons, List.sum_cons, List.filter_cons, Match.gap]
    by_cases hkind : m.kind = .hit
    · simp only [hkind, decide_true, if_true, List.length_cons]
      push_cast
      ring
    · simp only [hkind, decide_false, Bool.false_eq_true, if_false]
      ring

theorem hitShare_sub (ms : List Match) :
    hitShare ms - averageConfidence ms = (ms.map Match.gap).sum / ms.length := by
  rw [hitShare, averageConfidence, ← sub_div, sum_gap]

theorem hitShare_mem (ms : List Match) : 0 ≤ hitShare ms ∧ hitShare ms ≤ 1 := by
  have hle : ((ms.filter fun m => m.kind = .hit).length : ℚ) ≤ ms.length := by
    exact_mod_cast List.length_filter_le _ ms
  exact ⟨by unfold hitShare; positivity, div_le_one_of_le₀ hle (Nat.cast_nonneg _)⟩

theorem averageConfidence_mem {lo hi : ℚ} (hms : ms ≠ [])
    (h : ∀ m ∈ ms, lo ≤ m.confidence ∧ m.confidence ≤ hi) :
    lo ≤ averageConfidence ms ∧ averageConfidence ms ≤ hi := by
  have hpos : (0 : ℚ) < ms.length := by exact_mod_cast List.length_pos_of_ne_nil hms
  have hlow : ms.length * lo ≤ (ms.map Match.confidence).sum := by
    have := List.card_nsmul_le_sum (ms.map Match.confidence) lo
      (by simpa using fun m hm => (h m hm).1)
    simpa using this
  have hhigh : (ms.map Match.confidence).sum ≤ ms.length * hi := by
    have := List.sum_le_card_nsmul (ms.map Match.confidence) hi
      (by simpa using fun m hm => (h m hm).2)
    simpa using this
  constructor
  · rwa [averageConfidence, le_div_iff₀ hpos, mul_comm]
  · rwa [averageConfidence, div_le_iff₀ hpos, mul_comm]

theorem abs_gap_le (m : Match) : |m.gap| ≤ 1 := by
  obtain ⟨hlow, hhigh⟩ := m.finding.confidenceRange
  rw [Match.gap, Match.confidence, abs_le]
  split
  · constructor <;> linarith
  · constructor <;> linarith

end Means

/-- What a bin says of its members. -/
def summaryOf (range : ℚ × ℚ) (ms : List Match) : CalibrationBin where
  low := range.1
  high := range.2
  count := ms.length
  meanConfidence := averageConfidence ms
  hitRate := hitShare ms

section Calibration
variable (matched : List Match)

theorem binOf_eq (range : ℚ × ℚ) :
    binOf (scoreable matched) range = summaryOf range (binMembers matched range) := by
  have hmembers : ((scoreable matched).filter fun m =>
      range.1 ≤ m.finding.confidence && m.finding.confidence < range.2) =
        binMembers matched range := rfl
  simp only [binOf, hmembers]
  split
  · rename_i hempty
    rw [List.isEmpty_iff.mp hempty]
    simp [summaryOf, averageConfidence, hitShare]
  · rfl

theorem scoreable_again : scoreable (scoreable matched) = scoreable matched := by
  simp [scoreable]

theorem scoreable_within : ∀ m ∈ scoreable matched,
    0 ≤ m.confidence ∧ m.confidence < 101 / 100 := by
  intro m _
  obtain ⟨hlow, hhigh⟩ := m.finding.confidenceRange
  exact ⟨hlow, lt_of_le_of_lt hhigh (by norm_num)⟩

theorem weight_binOf (total : ℚ) (range : ℚ × ℚ) :
    ((binOf (scoreable matched) range).count / total : ℚ) *
        |(binOf (scoreable matched) range).hitRate -
          (binOf (scoreable matched) range).meanConfidence| =
      |((binMembers matched range).map Match.gap).sum| / total := by
  rw [binOf_eq]
  dsimp only [summaryOf]
  rw [hitShare_sub]
  rcases List.eq_nil_or_concat (binMembers matched range) with hnil | ⟨ms, m, hms⟩
  · simp [hnil]
  · have hpos : (0 : ℚ) < (binMembers matched range).length := by
      rw [hms]
      exact_mod_cast List.length_pos_of_ne_nil (by simp)
    rw [abs_div, abs_of_pos hpos]
    field_simp

theorem sum_filter_counted {f : CalibrationBin → ℚ} (bins : List CalibrationBin)
    (hf : ∀ b ∈ bins, b.count = 0 → f b = 0) :
    ((bins.filter fun b => b.count ≠ 0).map f).sum = (bins.map f).sum := by
  induction bins with
  | nil => rfl
  | cons b bins ih =>
    obtain ⟨hb, hf⟩ := List.forall_mem_cons.mp hf
    by_cases hcount : b.count = 0
    · simp [hcount, hb hcount, ← ih hf]
    · simp [hcount, ← ih hf]

theorem ece_eq : ece matched =
    binned Match.confidence Match.gap confidenceBins (scoreable matched) /
      (scoreable matched).length := by
  unfold ece
  dsimp only
  split
  · rename_i hempty
    rw [List.isEmpty_iff.mp hempty]
    simp
  · rw [sum_filter_counted _ fun b _ hcount => by simp [hcount], calibration, scoreable_again,
      List.map_map, binned, div_eq_mul_inv, ← List.sum_map_mul_right]
    refine congrArg List.sum (List.map_congr_left fun range _ => ?_)
    exact (weight_binOf matched _ range).trans (div_eq_mul_inv _ _)

structure Calibrated (matched : List Match) : Prop where
  judged : ∀ m ∈ matched, m.kind = .hit ∨ m.kind = .falsePositive →
    ∃! range, range ∈ confidenceBins ∧ m ∈ binMembers matched range
  others : ∀ m, m.kind ≠ .hit → m.kind ≠ .falsePositive →
    ∀ range ∈ confidenceBins, m ∉ binMembers matched range
  once : (confidenceBins.flatMap (binMembers matched)).Perm (scoreable matched)
  bins : calibration matched =
    confidenceBins.map fun range => summaryOf range (binMembers matched range)
  counts : ((calibration matched).map CalibrationBin.count).sum = (scoreable matched).length
  means : ∀ b ∈ calibration matched, b.count ≠ 0 →
    b.low ≤ b.meanConfidence ∧ b.meanConfidence ≤ b.high ∧ 0 ≤ b.hitRate ∧ b.hitRate ≤ 1
  error : 0 ≤ ece matched ∧ ece matched ≤ 1
  whole : |hitShare (scoreable matched) - averageConfidence (scoreable matched)| ≤ ece matched
  reordered : ∀ other : List Match, other.Perm matched → ece other = ece matched

theorem mem_binMembers {matched : List Match} {m : Match} {range : ℚ × ℚ} :
    m ∈ binMembers matched range ↔
      m ∈ matched ∧ (m.kind = .hit ∨ m.kind = .falsePositive) ∧
        holds range m.confidence = true := by
  rw [binMembers, mem_members, scoreable, List.mem_filter, Bool.or_eq_true, decide_eq_true_eq,
    decide_eq_true_eq, and_assoc]

theorem calibration_eq : calibration matched =
    confidenceBins.map fun range => summaryOf range (binMembers matched range) :=
  List.map_congr_left fun range _ => binOf_eq matched range

theorem ece_nonneg : 0 ≤ ece matched := by
  rw [ece_eq]
  exact div_nonneg binned_nonneg (Nat.cast_nonneg _)

theorem ece_le_one : ece matched ≤ 1 := by
  have hgaps : ((scoreable matched).map fun m => |m.gap|).sum ≤ (scoreable matched).length := by
    have := List.sum_le_card_nsmul ((scoreable matched).map fun m => |m.gap|) 1
      (by simpa using fun m _ => abs_gap_le m)
    simpa using this
  rw [ece_eq]
  exact div_le_one_of_le₀ ((binned_le confidenceBins_tile (scoreable_within matched)).trans hgaps)
    (Nat.cast_nonneg _)

theorem whole_le_ece :
    |hitShare (scoreable matched) - averageConfidence (scoreable matched)| ≤ ece matched := by
  rw [hitShare_sub, ece_eq, abs_div, Nat.abs_cast]
  exact div_le_div_of_nonneg_right
    (abs_sum_le_binned confidenceBins_tile (scoreable_within matched)) (Nat.cast_nonneg _)

theorem ece_perm {matched other : List Match} (h : other.Perm matched) :
    ece other = ece matched := by
  have hjudged : (scoreable other).Perm (scoreable matched) := h.filter _
  rw [ece_eq, ece_eq, binned_perm hjudged, hjudged.length_eq]

/-- Every judged finding is in one bin, and the bins err no less than the whole does. -/
theorem calibration_counts_once : Calibrated matched where
  judged := by
    intro m hm hkind
    obtain ⟨hlow, hhigh⟩ := m.finding.confidenceRange
    have hbelow : m.confidence < 101 / 100 := lt_of_le_of_lt hhigh (by norm_num)
    obtain ⟨range, ⟨hrange, hin⟩, honly⟩ := confidenceBins_tile.existsUnique hlow hbelow
    refine ⟨range, ⟨hrange, mem_binMembers.mpr ⟨hm, hkind, hin⟩⟩, ?_⟩
    rintro other ⟨hother, hmember⟩
    exact honly other ⟨hother, (mem_binMembers.mp hmember).2.2⟩
  others := by
    intro m hhit hfalse range _ hmember
    rcases (mem_binMembers.mp hmember).2.1 with hkind | hkind
    · exact hhit hkind
    · exact hfalse hkind
  once := members_perm confidenceBins_tile (scoreable_within matched)
  bins := calibration_eq matched
  counts := by
    have honce := (members_perm confidenceBins_tile (scoreable_within matched)).length_eq
    rw [← honce, calibration_eq, List.map_map, List.length_flatMap]
    rfl
  means := by
    intro b hb hcount
    rw [calibration_eq] at hb
    obtain ⟨range, -, rfl⟩ := List.mem_map.mp hb
    have hne : binMembers matched range ≠ [] := fun hnil => hcount (by simp [summaryOf, hnil])
    obtain ⟨hlow, hhigh⟩ := averageConfidence_mem hne fun m hm => by
      have := holds_iff.mp (mem_binMembers.mp hm).2.2
      exact ⟨this.1, this.2.le⟩
    exact ⟨hlow, hhigh, hitShare_mem _⟩
  error := ⟨ece_nonneg matched, ece_le_one matched⟩
  whole := whole_le_ece matched
  reordered := fun _ h => ece_perm h

end Calibration

end PrSentinel
