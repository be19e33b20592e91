import PrSentinel.Budget
import PrSentinel.Lagging

/-!
The daily cap over everything a day brings: attempts at reviews that read the day's spending
once, when they begin, and keep count of their own calls only.
-/

set_option autoImplicit false

namespace PrSentinel.DailyBudget
open Lagging Runs

/-- An attempt with its guard, the charges whose rows are still to be written, and the
attempts that were under way when it began. -/
structure Attempt where
  number : ℕ
  shared : SharedGuard
  unrecorded : List ℚ := []
  beside : List ℕ := []
  live : Bool := true

structure Day where
  recorded : ℚ := 0
  attempts : List Attempt := []

/-- `BudgetGuard.load`, the steps of `call_llm` and its row, and the end of an attempt. -/
inductive DayEvent where
  | load (readable : Bool)
  | call (number : ℕ) (e : CallEvent)
  | record (number i : ℕ) (kept : Bool)
  | finish (number : ℕ)

namespace Attempt
variable (a : Attempt)

def spent : ℚ := a.shared.guard.reviewSpent

def charged : CallEvent → List ℚ
  | .charge i costUsd => if (a.shared.inFlight[i]?).isSome then [costUsd] else []
  | .check _ | .fail _ => []

def call (caps : Caps) (e : CallEvent) : Attempt :=
  { a with shared := a.shared.step caps e, unrecorded := a.unrecorded ++ a.charged e }

def member : Member ℚ where
  number := a.number
  base := a.shared.guard.daySpent
  drawn := a.spent
  beside := a.beside
  live := a.live

def settled : ℚ := a.spent - a.unrecorded.sum

end Attempt

namespace Day
variable (s : Day)

def touch (number : ℕ) (f : Attempt → Attempt) : List Attempt :=
  s.attempts.map fun a => if a.number = number ∧ a.live = true then f a else a

def row (number i : ℕ) : ℚ :=
  ((s.attempts.find? fun a => a.number = number ∧ a.live = true).bind fun a =>
    a.unrecorded[i]?).getD 0

def begun (readable : Bool) : Attempt where
  number := s.attempts.length
  shared := { guard := .load (if readable then some s.recorded else none) }
  beside := (s.attempts.filter Attempt.live).map Attempt.number

def step (caps : Caps) (s : Day) : DayEvent → Day
  | .load readable => { s with attempts := s.begun readable :: s.attempts }
  | .call number e => { s with attempts := s.touch number fun a => a.call caps e }
  | .record number i kept =>
    { recorded := s.recorded + if kept then s.row number i else 0
      attempts := s.touch number fun a => { a with unrecorded := a.unrecorded.eraseIdx i } }
  | .finish number => { s with attempts := s.touch number fun a => { a with live := false } }

def charged (initial : ℚ) : ℚ := initial + drawnBy (s.attempts.map Attempt.member)

end Day

/-- How much goes on at once: attempts, calls of one attempt, and what a call can cost. -/
structure Load where
  attempts : ℕ
  calls : ℕ
  call : ℚ

variable (caps : Caps) (load : Load)

def Load.slack : ℚ := (load.calls - 1) • load.call

/-- A call is checked when there is room for one more, and costs at most its worst case. -/
def Attempt.Orderly (a : Attempt) : CallEvent → Prop
  | .check r => a.shared.inFlight.length < load.calls ∧ worstCaseCost r ≤ load.call
  | .charge i costUsd => 0 ≤ costUsd ∧ a.shared.Honest (.charge i costUsd)
  | .fail _ => True

/-- The day's spending can be read, every charge is written, and no attempt ends before that. -/
def Orderly (s : Day) : DayEvent → Prop
  | .load readable => readable = true ∧ (s.attempts.filter Attempt.live).length < load.attempts
  | .call number e => ∀ a ∈ s.attempts, a.number = number → a.Orderly load e
  | .record _ _ kept => kept = true
  | .finish number => ∀ a ∈ s.attempts, a.number = number → a.unrecorded = []

instance (a : Attempt) : ∀ e, Decidable (a.Orderly load e)
  | .check r => inferInstanceAs (Decidable (_ < _ ∧ worstCaseCost r ≤ load.call))
  | .charge i costUsd =>
    inferInstanceAs (Decidable (0 ≤ costUsd ∧ a.shared.Honest (.charge i costUsd)))
  | .fail _ => .isTrue trivial

instance (s : Day) : ∀ e, Decidable (Orderly load s e)
  | .load readable => inferInstanceAs (Decidable (readable = true ∧ _ < load.attempts))
  | .call number e =>
    inferInstanceAs (Decidable (∀ a ∈ s.attempts, a.number = number → a.Orderly load e))
  | .record _ _ kept => inferInstanceAs (Decidable (kept = true))
  | .finish number =>
    inferInstanceAs (Decidable (∀ a ∈ s.attempts, a.number = number → a.unrecorded = []))

structure Attempt.Kept (a : Attempt) : Prop where
  enabled : a.shared.guard.enabled = true
  charges : ∀ x ∈ a.unrecorded, 0 ≤ x
  nonneg : 0 ≤ a.settled
  done : a.live = false → a.unrecorded = []
  light : ∀ r ∈ a.shared.inFlight, worstCaseCost r ≤ load.call
  fits : (a.spent = 0 ∧ a.shared.inFlight = []) ∨
    (a.spent + a.shared.mayCost ≤ caps.reviewCostCapUsd + load.slack ∧
      a.shared.guard.daySpent + a.spent + a.shared.mayCost ≤ caps.dailyCostCapUsd + load.slack)

variable {caps load}

theorem mayCost_nonneg (s : SharedGuard) : 0 ≤ s.mayCost := by
  refine List.sum_nonneg fun x hx => ?_
  obtain ⟨r, -, rfl⟩ := List.mem_map.mp hx
  exact worstCaseCost_nonneg r

theorem check_day {guard : BudgetGuard} {estimate : ℚ} (henabled : guard.enabled = true)
    (h : guard.check caps estimate = .ok ()) :
    guard.daySpent + guard.reviewSpent + estimate ≤ caps.dailyCostCapUsd := by
  rw [BudgetGuard.check, henabled] at h
  by_contra hover
  simp [not_le.mp hover] at h
  split at h <;> cases h

theorem mayCost_le {s : SharedGuard} {most : ℚ} (h : ∀ r ∈ s.inFlight, worstCaseCost r ≤ most) :
    s.mayCost ≤ s.inFlight.length • most := by
  have hsum := List.sum_le_card_nsmul (s.inFlight.map worstCaseCost) most fun x hx => by
    obtain ⟨r, hr, rfl⟩ := List.mem_map.mp hx
    exact h r hr
  rwa [List.length_map] at hsum

section Kept
variable {a : Attempt} (ha : a.Kept caps load)
include ha

theorem kept_check {r : LLMRequest} (hfew : a.shared.inFlight.length < load.calls)
    (hlight : worstCaseCost r ≤ load.call) (hcall : 0 ≤ load.call) :
    (a.call caps (.check r)).Kept caps load := by
  have hcharged : a.unrecorded ++ a.charged (.check r) = a.unrecorded := List.append_nil _
  cases hcheck : a.shared.guard.check caps (worstCaseCost r) with
  | error e =>
    have hcall' : a.call caps (.check r) = a := by
      simp only [Attempt.call, hcharged, SharedGuard.step, hcheck]
    rwa [hcall']
  | ok u =>
    have hcall' : a.call caps (.check r) =
        { a with shared := { a.shared with inFlight := a.shared.inFlight ++ [r] } } := by
      simp only [Attempt.call, hcharged, SharedGuard.step, hcheck]
    have hslack : a.shared.mayCost ≤ load.slack := by
      refine (mayCost_le ha.light).trans ?_
      exact nsmul_le_nsmul_left hcall (Nat.le_sub_of_add_le hfew)
    have hmay : ({ a.shared with inFlight := a.shared.inFlight ++ [r] } : SharedGuard).mayCost =
        a.shared.mayCost + worstCaseCost r := by simp [SharedGuard.mayCost]
    have hreview := check_spares ha.enabled hcheck
    have hday := check_day ha.enabled hcheck
    rw [hcall']
    refine { ha with light := ?_, fits := .inr ⟨?_, ?_⟩ }
    · intro r' hr'
      rcases List.mem_append.mp hr' with hr' | hr'
      · exact ha.light r' hr'
      · rw [List.mem_singleton.mp hr']
        exact hlight
    · show a.spent + SharedGuard.mayCost _ ≤ _
      rw [hmay]
      simp only [Attempt.spent]
      linarith
    · show _ + a.spent + SharedGuard.mayCost _ ≤ _
      rw [hmay]
      simp only [Attempt.spent]
      linarith

theorem kept_charge {i : ℕ} {costUsd : ℚ} (hcost : 0 ≤ costUsd)
    (hhonest : a.shared.Honest (.charge i costUsd)) (hlive : a.live = true) :
    (a.call caps (.charge i costUsd)).Kept caps load ∧
      (a.call caps (.charge i costUsd)).settled = a.settled := by
  cases hr : a.shared.inFlight[i]? with
  | none =>
    have hcall : a.call caps (.charge i costUsd) = a := by
      simp [Attempt.call, Attempt.charged, SharedGuard.step, hr]
    rw [hcall]
    exact ⟨ha, rfl⟩
  | some r =>
    have hcall : a.call caps (.charge i costUsd) = { a with
        shared := ⟨a.shared.guard.charge costUsd, a.shared.inFlight.eraseIdx i⟩
        unrecorded := a.unrecorded ++ [costUsd] } := by
      simp [Attempt.call, Attempt.charged, SharedGuard.step, hr]
    have hsettled : (a.call caps (.charge i costUsd)).settled = a.settled := by
      rw [hcall]
      simp only [Attempt.settled, Attempt.spent, BudgetGuard.charge, List.sum_append,
        List.sum_singleton]
      ring
    have hmay : worstCaseCost r + SharedGuard.mayCost ⟨a.shared.guard.charge costUsd,
        a.shared.inFlight.eraseIdx i⟩ = a.shared.mayCost := by
      have hat : (a.shared.inFlight.map worstCaseCost)[i]? = some (worstCaseCost r) := by
        rw [List.getElem?_map, hr]
        rfl
      have hsum := Reserve.sum_eraseIdx hat
      rwa [List.eraseIdx_map] at hsum
    have hworst : costUsd ≤ worstCaseCost r := hhonest r hr
    refine ⟨?_, hsettled⟩
    have hnonneg : 0 ≤ (a.call caps (.charge i costUsd)).settled := hsettled ▸ ha.nonneg
    rw [hcall] at hnonneg ⊢
    refine { enabled := ha.enabled, charges := ?_, nonneg := hnonneg, done := ?_, light := ?_,
             fits := ?_ }
    · intro x hx
      rcases List.mem_append.mp hx with hx | hx
      · exact ha.charges x hx
      · rw [List.mem_singleton.mp hx]
        exact hcost
    · intro hdone
      exact absurd (hlive.symm.trans hdone) (by decide)
    · exact fun r' hr' => ha.light r' (List.mem_of_mem_eraseIdx hr')
    · rcases ha.fits with ⟨-, hnone⟩ | ⟨hreview, hday⟩
      · rw [hnone] at hr
        cases hr
      · simp only [Attempt.spent] at hreview hday
        refine .inr ⟨?_, ?_⟩
        · simp only [Attempt.spent, BudgetGuard.charge] at hmay ⊢
          linarith
        · simp only [Attempt.spent, BudgetGuard.charge] at hmay ⊢
          linarith

theorem kept_fail (i : ℕ) : (a.call caps (.fail i)).Kept caps load := by
  have hcall : a.call caps (.fail i) =
      { a with shared := { a.shared with inFlight := a.shared.inFlight.eraseIdx i } } := by
    simp [Attempt.call, Attempt.charged, SharedGuard.step]
  have hmay : ({ a.shared with inFlight := a.shared.inFlight.eraseIdx i } : SharedGuard).mayCost ≤
      a.shared.mayCost := by
    rw [SharedGuard.mayCost, SharedGuard.mayCost, ← List.eraseIdx_map]
    refine Reserve.sum_eraseIdx_le (fun x hx => ?_) i
    obtain ⟨r, -, rfl⟩ := List.mem_map.mp hx
    exact worstCaseCost_nonneg r
  rw [hcall]
  refine { ha with light := fun r hr => ha.light r (List.mem_of_mem_eraseIdx hr), fits := ?_ }
  rcases ha.fits with ⟨hspent, hnone⟩ | ⟨hreview, hday⟩
  · exact .inl ⟨hspent, by simp [hnone]⟩
  · refine .inr ⟨?_, ?_⟩
    · exact (add_le_add_right hmay _).trans hreview
    · exact (add_le_add_right hmay _).trans hday

theorem kept_record {i : ℕ} {x : ℚ} (hx : a.unrecorded[i]? = some x) :
    ({ a with unrecorded := a.unrecorded.eraseIdx i } : Attempt).Kept caps load ∧
      ({ a with unrecorded := a.unrecorded.eraseIdx i } : Attempt).settled = a.settled + x := by
  have hsum := Reserve.sum_eraseIdx hx
  have hsettled : ({ a with unrecorded := a.unrecorded.eraseIdx i } : Attempt).settled =
      a.settled + x := by
    simp only [Attempt.settled, Attempt.spent]
    linarith
  have hpos := ha.charges x (List.mem_of_getElem? hx)
  refine ⟨?_, hsettled⟩
  refine { ha with charges := fun y hy => ha.charges y (List.mem_of_mem_eraseIdx hy),
                   nonneg := hsettled ▸ add_nonneg ha.nonneg hpos, done := fun hdone => ?_ }
  rw [ha.done hdone]
  rfl

end Kept

def settledBy (attempts : List Attempt) : ℚ := (attempts.map Attempt.settled).sum

/-- The books of a day: its rows are what was charged and is not still to be written, and no
attempt has overlooked one that was done before it. -/
structure Books (caps : Caps) (load : Load) (initial : ℚ) (s : Day) : Prop where
  numbers : (s.attempts.map Attempt.number).Nodup
  fresh : ∀ a ∈ s.attempts, a.number < s.attempts.length
  ledger : s.recorded = initial + settledBy s.attempts
  seen : Seen load.attempts initial (s.attempts.map Attempt.member)
  kept : ∀ a ∈ s.attempts, a.Kept caps load

theorem member_past (a : Attempt) (older : List Attempt) :
    a.member.past (older.map Attempt.member) =
      (older.filter fun b => b.number ∉ a.beside).map Attempt.member := by
  rw [Member.past, List.filter_map]
  rfl

theorem member_company (a : Attempt) (older : List Attempt) :
    a.member.company (older.map Attempt.member) =
      (older.filter fun b => b.number ∈ a.beside).map Attempt.member := by
  rw [Member.company, List.filter_map]
  rfl

theorem beside_live {attempts : List Attempt} (hnumbers : (attempts.map Attempt.number).Nodup)
    {b : Attempt} (hb : b ∈ attempts) :
    b.number ∈ (attempts.filter Attempt.live).map Attempt.number ↔ b.live = true := by
  rw [List.mem_map]
  constructor
  · rintro ⟨c, hc, heq⟩
    obtain ⟨hc, hlive⟩ := List.mem_filter.mp hc
    rwa [← List.inj_on_of_nodup_map hnumbers hc hb heq]
  · exact fun hlive => ⟨b, List.mem_filter.mpr ⟨hb, hlive⟩, rfl⟩

variable {initial : ℚ} {s : Day}

theorem books_load (hs : Books caps load initial s)
    (hfew : (s.attempts.filter Attempt.live).length < load.attempts) :
    Books caps load initial (s.step caps (.load true)) := by
  obtain ⟨a, ha⟩ : ∃ a, a = s.begun true := ⟨_, rfl⟩
  have hstep : s.step caps (.load true) = { s with attempts := a :: s.attempts } := by rw [ha]; rfl
  have hbeside {b : Attempt} (hb : b ∈ s.attempts) : b.number ∈ a.beside ↔ b.live = true := by
    rw [ha]
    exact beside_live hs.numbers hb
  have hpast : ∀ b ∈ s.attempts.filter (fun b => b.number ∉ a.beside),
      b ∈ s.attempts ∧ b.live = false := by
    intro b hb
    obtain ⟨hb, hnot⟩ := List.mem_filter.mp hb
    exact ⟨hb, by simpa [hbeside hb] using hnot⟩
  have hspent : drawnBy (a.member.past (s.attempts.map Attempt.member)) ≤ settledBy s.attempts := by
    rw [member_past, drawnBy, List.map_map]
    calc ((s.attempts.filter fun b => b.number ∉ a.beside).map (Member.drawn ∘ Attempt.member)).sum
        = ((s.attempts.filter fun b => b.number ∉ a.beside).map Attempt.settled).sum := by
          refine congrArg List.sum (List.map_congr_left fun b hb => ?_)
          obtain ⟨hb, hdone⟩ := hpast b hb
          simp [Attempt.settled, (hs.kept b hb).done hdone, Attempt.member]
      _ ≤ settledBy s.attempts := by
          refine (List.filter_sublist.map Attempt.settled).sum_le_sum fun x hx => ?_
          obtain ⟨b, hb, rfl⟩ := List.mem_map.mp hx
          exact (hs.kept b hb).nonneg
  rw [hstep]
  refine ⟨?_, ?_, ?_, ⟨?_, ?_, ?_, hs.seen⟩, ?_⟩
  · refine List.nodup_cons.mpr ⟨fun hmem => ?_, hs.numbers⟩
    obtain ⟨b, hb, hnumber⟩ := List.mem_map.mp hmem
    have hlt := hs.fresh b hb
    rw [hnumber, ha] at hlt
    exact absurd hlt (lt_irrefl _)
  · refine List.forall_mem_cons.mpr ⟨?_, fun b hb => ?_⟩
    · rw [ha]
      exact Nat.lt_succ_self _
    · exact (hs.fresh b hb).trans (Nat.lt_succ_self _)
  · have hnew : a.settled = 0 := by rw [ha]; exact sub_zero _
    show s.recorded = initial + settledBy (a :: s.attempts)
    rw [settledBy, List.map_cons, List.sum_cons, hnew, zero_add]
    exact hs.ledger
  · have hbase : a.member.base = s.recorded := by rw [ha]; rfl
    rw [hbase, hs.ledger]
    exact add_le_add_right hspent _
  · rw [member_company, List.length_map]
    have hlive : s.attempts.filter (fun b => b.number ∈ a.beside) =
        s.attempts.filter Attempt.live :=
      List.filter_congr fun b hb => by simp [hbeside hb]
    rw [hlive]
    exact hfew
  · intro b hb
    rw [member_past] at hb
    obtain ⟨c, hc, rfl⟩ := List.mem_map.mp hb
    exact (hpast c hc).2
  · refine List.forall_mem_cons.mpr ⟨?_, hs.kept⟩
    rw [ha]
    exact { enabled := rfl, charges := List.forall_mem_nil _, nonneg := (sub_zero 0).ge,
            done := fun _ => rfl, light := List.forall_mem_nil _, fits := .inl ⟨rfl, rfl⟩ }

theorem touch_carried (s : Day) (number : ℕ) {f : Attempt → Attempt}
    (hf : ∀ a, (f a).number = a.number ∧ (f a).beside = a.beside ∧
      (f a).shared.guard.daySpent = a.shared.guard.daySpent) :
    List.Forall₂ Carried (s.attempts.map Attempt.member)
      ((s.touch number f).map Attempt.member) := by
  rw [Day.touch, List.map_map]
  induction s.attempts with
  | nil => exact .nil
  | cons a attempts ih =>
    refine .cons ?_ ih
    obtain ⟨hnumber, hbeside, hday⟩ := hf a
    show Carried a.member (if a.number = number ∧ a.live = true then f a else a).member
    split
    · rename_i htouched
      refine ⟨hnumber, hday, hbeside, fun hdone => ?_⟩
      exact absurd (htouched.2.symm.trans hdone) (by decide)
    · exact ⟨rfl, rfl, rfl, fun _ => rfl⟩

theorem books_touch (hs : Books caps load initial s) {number : ℕ} {f : Attempt → Attempt}
    (hf : ∀ a, (f a).number = a.number ∧ (f a).beside = a.beside ∧
      (f a).shared.guard.daySpent = a.shared.guard.daySpent)
    (hkept : ∀ a ∈ s.attempts, a.number = number → a.live = true → (f a).Kept caps load)
    {recorded : ℚ} (hledger : recorded = initial + settledBy (s.touch number f)) :
    Books caps load initial ⟨recorded, s.touch number f⟩ := by
  have hnumbers : (s.touch number f).map Attempt.number = s.attempts.map Attempt.number := by
    rw [Day.touch, List.map_map]
    refine List.map_congr_left fun a _ => ?_
    show (if a.number = number ∧ a.live = true then f a else a).number = a.number
    split
    · exact (hf a).1
    · rfl
  have hlength : (s.touch number f).length = s.attempts.length := List.length_map _
  have hmem {b : Attempt} (hb : b ∈ s.touch number f) : ∃ a ∈ s.attempts,
      (if a.number = number ∧ a.live = true then f a else a) = b := List.mem_map.mp hb
  refine ⟨hnumbers.symm ▸ hs.numbers, fun b hb => ?_, hledger,
    hs.seen.carried (touch_carried s number hf), fun b hb => ?_⟩
  · show b.number < (s.touch number f).length
    rw [hlength]
    have hnumber : b.number ∈ s.attempts.map Attempt.number :=
      hnumbers ▸ List.mem_map_of_mem hb
    obtain ⟨a, ha, heq⟩ := List.mem_map.mp hnumber
    exact heq ▸ hs.fresh a ha
  · obtain ⟨a, ha, rfl⟩ := hmem hb
    split
    · rename_i htouched
      exact hkept a ha htouched.1 htouched.2
    · exact hs.kept a ha

theorem sum_touched {attempts : List Attempt} (hnumbers : (attempts.map Attempt.number).Nodup)
    (number : ℕ) (d : Attempt → ℚ) :
    (attempts.map fun a => if a.number = number ∧ a.live = true then d a else 0).sum =
      ((attempts.find? fun a => a.number = number ∧ a.live = true).map d).getD 0 := by
  induction attempts with
  | nil => rfl
  | cons a attempts ih =>
    obtain ⟨hnew, hnumbers⟩ := List.nodup_cons.mp hnumbers
    rw [List.map_cons, List.sum_cons, ih hnumbers, List.find?_cons]
    by_cases ha : a.number = number ∧ a.live = true
    · have hnone : attempts.find? (fun b => decide (b.number = number ∧ b.live = true)) = none := by
        refine List.find?_eq_none.mpr fun b hb heq => hnew ?_
        have hb' : b.number = number := (of_decide_eq_true heq).1
        rw [ha.1, ← hb']
        exact List.mem_map_of_mem hb
      rw [if_pos ha, hnone, decide_eq_true ha]
      exact add_zero _
    · rw [if_neg ha, decide_eq_false ha, zero_add]

theorem settledBy_touch (s : Day) (hnumbers : (s.attempts.map Attempt.number).Nodup) (number : ℕ)
    {f : Attempt → Attempt} {d : Attempt → ℚ}
    (hf : ∀ a ∈ s.attempts, a.number = number → a.live = true → (f a).settled = a.settled + d a) :
    settledBy (s.touch number f) = settledBy s.attempts +
      ((s.attempts.find? fun a => a.number = number ∧ a.live = true).map d).getD 0 := by
  rw [← sum_touched hnumbers, settledBy, settledBy, Day.touch, List.map_map, ← List.sum_map_add]
  refine congrArg List.sum (List.map_congr_left fun a ha => ?_)
  show (if a.number = number ∧ a.live = true then f a else a).settled = _
  split
  · rename_i htouched
    exact hf a ha htouched.1 htouched.2
  · exact (add_zero _).symm

theorem call_frame (a : Attempt) (e : CallEvent) : (a.call caps e).number = a.number ∧
    (a.call caps e).beside = a.beside ∧
      (a.call caps e).shared.guard.daySpent = a.shared.guard.daySpent := by
  refine ⟨rfl, rfl, ?_⟩
  cases e with
  | check r =>
    simp only [Attempt.call, SharedGuard.step]
    split <;> rfl
  | charge i costUsd =>
    simp only [Attempt.call, SharedGuard.step]
    split <;> rfl
  | fail i => rfl

theorem kept_call {a : Attempt} (ha : a.Kept caps load) (hcall : 0 ≤ load.call) {e : CallEvent}
    (he : a.Orderly load e) (hlive : a.live = true) :
    (a.call caps e).Kept caps load ∧ (a.call caps e).settled = a.settled := by
  cases e with
  | check r =>
    refine ⟨kept_check ha he.1 he.2 hcall, ?_⟩
    simp only [Attempt.settled, Attempt.spent, Attempt.call, Attempt.charged, SharedGuard.step,
      List.append_nil]
    split <;> rfl
  | charge i costUsd => exact kept_charge ha he.1 he.2 hlive
  | fail i =>
    refine ⟨kept_fail ha i, ?_⟩
    simp [Attempt.settled, Attempt.spent, Attempt.call, Attempt.charged, SharedGuard.step]

theorem step_books (hcall : 0 ≤ load.call) (hs : Books caps load initial s) {e : DayEvent}
    (he : Orderly load s e) : Books caps load initial (s.step caps e) := by
  cases e with
  | load readable =>
    obtain ⟨rfl, hfew⟩ := he
    exact books_load hs hfew
  | call number e =>
    refine books_touch hs (fun a => call_frame a e)
      (fun a ha hnumber hlive => (kept_call (hs.kept a ha) hcall (he a ha hnumber) hlive).1) ?_
    have hsame := settledBy_touch s hs.numbers number (f := fun a => a.call caps e)
      (d := fun _ => 0) fun a ha hnumber hlive => by
        rw [add_zero]
        exact (kept_call (hs.kept a ha) hcall (he a ha hnumber) hlive).2
    rw [hsame, hs.ledger]
    cases s.attempts.find? _ <;> simp
  | record number i kept =>
    obtain rfl : kept = true := he
    have hrow (a : Attempt) (ha : a ∈ s.attempts) :
        ({ a with unrecorded := a.unrecorded.eraseIdx i } : Attempt).Kept caps load ∧
          ({ a with unrecorded := a.unrecorded.eraseIdx i } : Attempt).settled =
            a.settled + (a.unrecorded[i]?).getD 0 := by
      cases hx : a.unrecorded[i]? with
      | none =>
        have hsame := List.eraseIdx_of_length_le (List.getElem?_eq_none_iff.mp hx)
        rw [hsame]
        exact ⟨hs.kept a ha, (add_zero _).symm⟩
      | some x => exact kept_record (hs.kept a ha) hx
    refine books_touch hs (f := fun a => { a with unrecorded := a.unrecorded.eraseIdx i })
      (fun a => ⟨rfl, rfl, rfl⟩) (fun a ha _ _ => (hrow a ha).1) ?_
    have hadded := settledBy_touch s hs.numbers number
      (f := fun a => { a with unrecorded := a.unrecorded.eraseIdx i })
      (d := fun a => (a.unrecorded[i]?).getD 0) fun a ha _ _ => (hrow a ha).2
    rw [hadded, hs.ledger, if_pos rfl, Day.row, add_assoc]
    cases s.attempts.find? _ <;> rfl
  | finish number =>
    have hdone (a : Attempt) (ha : a ∈ s.attempts) (hnumber : a.number = number) :
        ({ a with live := false } : Attempt).Kept caps load :=
      { hs.kept a ha with done := fun _ => he a ha hnumber }
    refine books_touch hs (f := fun a => { a with live := false })
      (fun a => ⟨rfl, rfl, rfl⟩) (fun a ha hnumber _ => hdone a ha hnumber) ?_
    have hsame := settledBy_touch s hs.numbers number (f := fun a => { a with live := false })
      (d := fun _ => 0) fun a _ _ _ => (add_zero _).symm
    rw [hsame, hs.ledger]
    cases s.attempts.find? _ <;> simp

theorem slack_nonneg (hcall : 0 ≤ load.call) : 0 ≤ load.slack := nsmul_nonneg hcall _

theorem Attempt.Kept.bounded {a : Attempt} (ha : a.Kept caps load)
    (hreview : 0 ≤ caps.reviewCostCapUsd) (hcall : 0 ≤ load.call) :
    Bounded (caps.reviewCostCapUsd + load.slack) (caps.dailyCostCapUsd + load.slack) a.member := by
  have hslack := slack_nonneg hcall
  have hmay := mayCost_nonneg a.shared
  have hunrecorded : 0 ≤ a.unrecorded.sum := List.sum_nonneg ha.charges
  have hsettled := ha.nonneg
  rw [Attempt.settled] at hsettled
  refine ⟨show 0 ≤ a.spent by linarith, ?_, fun hsome => ?_⟩
  · show a.spent ≤ _
    rcases ha.fits with ⟨hspent, -⟩ | ⟨hfits, -⟩ <;> linarith
  · have hspent : 0 < a.spent := hsome
    show a.shared.guard.daySpent + a.spent ≤ _
    rcases ha.fits with ⟨hnone, -⟩ | ⟨-, hfits⟩
    · exact absurd hnone hspent.ne'
    · linarith

def besideEachOther : List DayEvent :=
  [.load true, .load true, .call 0 (.check opusRequest), .call 1 (.check opusRequest),
    .call 0 (.charge 0 (4 / 10)), .call 1 (.charge 0 (4 / 10)), .record 0 0 true, .record 1 0 true,
    .finish 0, .finish 1]

end PrSentinel.DailyBudget
