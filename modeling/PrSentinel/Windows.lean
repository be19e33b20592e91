import Mathlib.Data.List.Chain
import Mathlib.Tactic.ByContra
import Mathlib.Data.Nat.Basic
import Mathlib.Order.Basic

set_option autoImplicit false

namespace Windows

structure Frame where
  size : ℕ
  overlap : ℕ
  fits : overlap < size

namespace Frame
variable (w : Frame)

def step : ℕ := w.size - w.overlap

theorem step_pos : 0 < w.step := Nat.sub_pos_of_lt w.fits

theorem step_add : w.step + w.overlap = w.size := Nat.sub_add_cancel w.fits.le

def spans (cursor stop : ℕ) : List (ℕ × ℕ) :=
  if _ : cursor ≤ stop then
    let last := min (cursor + w.size - 1) stop
    if stop ≤ last then [(cursor, last)] else (cursor, last) :: spans (cursor + w.step) stop
  else []
termination_by stop + 1 - cursor
decreasing_by
  have := w.step_pos
  omega

variable {w} {cursor stop : ℕ}

/-- Where a window lies, and when there is another one. -/
def At (w : Frame) (cursor stop k : ℕ) (s : ℕ × ℕ) : Prop :=
  s.1 = cursor + k * w.step ∧ s.2 = min (s.1 + w.size - 1) stop ∧ s.1 ≤ stop ∧
    (k = 0 ∨ s.1 + w.overlap ≤ stop)

theorem At.zero_or_succ {k : ℕ} {s : ℕ × ℕ} (hroom : cursor + w.size ≤ stop) :
    w.At cursor stop (k + 1) s ↔ w.At (cursor + w.step) stop k s := by
  have hadd := w.step_add
  have hstart : cursor + (k + 1) * w.step = cursor + w.step + k * w.step := by
    rw [Nat.succ_mul, Nat.add_assoc, Nat.add_comm w.step]
  rw [At, At, hstart]
  refine and_congr_right fun hfirst => and_congr_right fun _ => and_congr_right fun _ => ?_
  constructor
  · rintro (h | h)
    · cases h
    · exact .inr h
  · rintro (rfl | h)
    · exact .inr (by omega)
    · exact .inr h

theorem mem_spans {s : ℕ × ℕ} : s ∈ w.spans cursor stop ↔ ∃ k, w.At cursor stop k s := by
  have hpos := w.step_pos
  have hadd := w.step_add
  have hmul (k : ℕ) : w.step ≤ (k + 1) * w.step := Nat.le_mul_of_pos_left _ k.succ_pos
  induction cursor using spans.induct w stop with
  | case1 cursor hle last hlast =>
    rw [spans, dif_pos hle, if_pos hlast, List.mem_singleton]
    constructor
    · rintro rfl
      exact ⟨0, by simp, rfl, hle, .inl rfl⟩
    · rintro ⟨k, hfirst, hlast', hle', hk⟩
      cases k with
      | zero =>
        obtain rfl : s.1 = cursor := by simpa using hfirst
        exact Prod.ext rfl hlast'
      | succ k =>
        have := hmul k
        omega
  | case2 cursor hle last hlast ih =>
    rw [spans, dif_pos hle, if_neg hlast, List.mem_cons]
    refine (or_congr_right ih).trans ?_
    constructor
    · rintro (rfl | ⟨k, hk⟩)
      · exact ⟨0, by simp, rfl, hle, .inl rfl⟩
      · exact ⟨k + 1, (At.zero_or_succ (by omega)).mpr hk⟩
    · rintro ⟨k, hk⟩
      cases k with
      | zero =>
        obtain ⟨hfirst, hlast', -⟩ := hk
        obtain rfl : s.1 = cursor := by simpa using hfirst
        exact .inl (Prod.ext rfl hlast')
      | succ k => exact .inr ⟨k, (At.zero_or_succ (by omega)).mp hk⟩
  | case3 cursor hle =>
    rw [spans, dif_neg hle]
    refine iff_of_false List.not_mem_nil ?_
    rintro ⟨k, hfirst, -, hle', -⟩
    exact hle (le_trans (by omega) hle')

theorem spans_head (hle : cursor ≤ stop) : ∃ rest,
    w.spans cursor stop = (cursor, min (cursor + w.size - 1) stop) :: rest := by
  rw [spans, dif_pos hle]
  dsimp only
  split
  · exact ⟨[], rfl⟩
  · exact ⟨_, rfl⟩

theorem spans_last (hle : cursor ≤ stop) : ∃ s ∈ (w.spans cursor stop).getLast?, s.2 = stop := by
  induction cursor using spans.induct w stop with
  | case1 cursor hle last hlast =>
    rw [spans, dif_pos hle, if_pos hlast]
    exact ⟨_, rfl, le_antisymm (min_le_right _ _) hlast⟩
  | case2 cursor hle last hlast ih =>
    have hadd := w.step_add
    have hnext : cursor + w.step ≤ stop := by omega
    obtain ⟨rest, hrest⟩ := w.spans_head hnext
    have htail := ih hnext
    rw [spans, dif_pos hle, if_neg hlast]
    rwa [hrest, List.getLast?_cons_cons, ← hrest]
  | case3 cursor hgt => exact absurd hle hgt

structure Next (w : Frame) (s t : ℕ × ℕ) : Prop where
  step : t.1 = s.1 + w.step
  overlap : s.2 + 1 = t.1 + w.overlap
  further : s.2 < t.2

theorem spans_chain : (w.spans cursor stop).IsChain w.Next := by
  induction cursor using spans.induct w stop with
  | case1 cursor hle last hlast =>
    rw [spans, dif_pos hle, if_pos hlast]
    exact .singleton _
  | case2 cursor hle last hlast ih =>
    have hadd := w.step_add
    have hpos := w.step_pos
    obtain ⟨rest, hrest⟩ := w.spans_head (show cursor + w.step ≤ stop by omega)
    rw [spans, dif_pos hle, if_neg hlast]
    rw [hrest] at ih ⊢
    refine .cons_cons ⟨rfl, ?_, ?_⟩ ih
    all_goals omega
  | case3 cursor hle =>
    rw [spans, dif_neg hle]
    exact .nil

theorem spans_apart : (w.spans cursor stop).Pairwise fun s t => s.1 < t.1 ∧ s.2 < t.2 := by
  have hpos := w.step_pos
  let later (s t : ℕ × ℕ) : Prop := s.1 < t.1 ∧ s.2 < t.2
  have htrans : Trans later later later :=
    ⟨fun hst htu => ⟨hst.1.trans htu.1, hst.2.trans htu.2⟩⟩
  refine List.isChain_iff_pairwise.mp (spans_chain.imp fun s t hnext => ?_)
  have hstep := hnext.step
  exact ⟨by omega, hnext.further⟩

theorem spans_ascend : (w.spans cursor stop).Pairwise fun s t => s.1 < t.1 :=
  spans_apart.imp And.left

theorem spans_short (hle : cursor ≤ stop) (hshort : stop + 1 - cursor ≤ w.size) :
    w.spans cursor stop = [(cursor, stop)] := by
  have hmin : min (cursor + w.size - 1) stop = stop := min_eq_right (by omega)
  rw [spans, dif_pos hle, hmin, if_pos le_rfl]

theorem At.bounds {k : ℕ} {s : ℕ × ℕ} (h : w.At cursor stop k s) :
    cursor ≤ s.1 ∧ s.1 ≤ s.2 ∧ s.2 ≤ stop ∧ s.2 + 1 - s.1 ≤ w.size := by
  obtain ⟨hfirst, hlast, hle, -⟩ := h
  have hfits := w.fits
  omega

theorem exists_span {line : ℕ} (hline : cursor ≤ line ∧ line ≤ stop) :
    ∃ s ∈ w.spans cursor stop, s.1 ≤ line ∧ line ≤ s.2 := by
  have hadd := w.step_add
  induction cursor using spans.induct w stop with
  | case1 cursor hle last hlast =>
    rw [spans, dif_pos hle, if_pos hlast]
    exact ⟨_, List.mem_singleton_self _, hline.1, hline.2.trans hlast⟩
  | case2 cursor hle last hlast ih =>
    rw [spans, dif_pos hle, if_neg hlast]
    by_cases hnext : cursor + w.step ≤ line
    · obtain ⟨s, hs, hin⟩ := ih ⟨hnext, hline.2⟩
      exact ⟨s, List.mem_cons_of_mem _ hs, hin⟩
    · exact ⟨_, List.mem_cons_self, hline.1, by omega⟩
  | case3 cursor hle => exact absurd (hline.1.trans hline.2) hle

theorem At.overlap {k l : ℕ} {s t : ℕ × ℕ} (hsize : 2 * w.overlap ≤ w.size)
    (hs : w.At cursor stop k s) (ht : w.At cursor stop l t) (hlt : s.1 < t.1) (hmeet : t.1 ≤ s.2) :
    l = k + 1 ∧ s.2 + 1 - t.1 = w.overlap ∧ s.2 ≤ t.2 := by
  have hadd := w.step_add
  obtain ⟨hs₁, hs₂, hsle, -⟩ := hs
  obtain ⟨ht₁, ht₂, htle, hnext⟩ := ht
  have hk : k < l := by
    by_contra hle
    have := Nat.mul_le_mul_right w.step (not_lt.mp hle)
    omega
  obtain ⟨d, rfl⟩ := Nat.exists_eq_add_of_lt hk
  have hmul : (k + d + 1) * w.step = k * w.step + (d + 1) * w.step := by
    rw [Nat.add_assoc, Nat.add_mul]
  have hd : d = 0 := by
    by_contra hne
    have := Nat.mul_le_mul_right w.step (show 2 ≤ d + 1 by omega)
    omega
  subst hd
  refine ⟨rfl, ?_, ?_⟩
  all_goals rw [Nat.zero_add, Nat.one_mul] at hmul
  all_goals omega

theorem At.long {k : ℕ} {s : ℕ × ℕ} (h : w.At cursor stop (k + 1) s) :
    w.size < stop + 1 - cursor := by
  have hadd := w.step_add
  obtain ⟨hfirst, -, -, hroom⟩ := h
  have hmul : w.step ≤ (k + 1) * w.step := Nat.le_mul_of_pos_left _ k.succ_pos
  have hnext : s.1 + w.overlap ≤ stop := hroom.resolve_left k.succ_ne_zero
  omega

end Frame

end Windows
