import Mathlib.Algebra.BigOperators.Group.List.Lemmas
import Mathlib.Algebra.Order.BigOperators.Group.List
import PrSentinel.Grouping
import PrSentinel.HybridSearch

/-!
What a day has cost, and who spent it: both are read off the hourly rollup, which answers for
the current hour as well (migration 004), and not off the events.
-/

set_option autoImplicit false

namespace PrSentinel.CostViews
open Grouping

/-- A column, or a sum over one: NULL is what a sum leaves out. -/
abbrev Nullable (α : Type) := WithZero α

def coalesce : Nullable ℚ →+ ℚ where
  toFun x := WithZero.recZeroCoe 0 id x
  map_zero' := rfl
  map_add' x y := by
    match x, y with
    | none, none => exact (zero_add (0 : ℚ)).symm
    | none, some b => exact (zero_add (b : ℚ)).symm
    | some a, none => exact (add_zero (a : ℚ)).symm
    | some a, some b => rfl

structure CostEvent where
  ts : ℤ
  kind : String
  agent : Option String
  model : Option String
  inputTokens : Nullable ℤ := 0
  outputTokens : Nullable ℤ := 0
  cachedTokens : Nullable ℤ := 0
  costUsd : Nullable ℚ := 0

structure Columns where
  calls : ℕ
  costUsd : Nullable ℚ
  inputTokens : Nullable ℤ
  outputTokens : Nullable ℤ
  cachedTokens : Nullable ℤ

namespace Columns

def ofEvents (events : List CostEvent) : Columns where
  calls := events.length
  costUsd := (events.map CostEvent.costUsd).sum
  inputTokens := (events.map CostEvent.inputTokens).sum
  outputTokens := (events.map CostEvent.outputTokens).sum
  cachedTokens := (events.map CostEvent.cachedTokens).sum

def sum (rows : List Columns) : Columns where
  calls := (rows.map calls).sum
  costUsd := (rows.map costUsd).sum
  inputTokens := (rows.map inputTokens).sum
  outputTokens := (rows.map outputTokens).sum
  cachedTokens := (rows.map cachedTokens).sum

theorem staged : Staged ofEvents sum where
  flatten xss := by
    simp only [ofEvents, sum, List.map_map, List.length_flatten, List.map_flatten,
      List.sum_flatten]
    rfl
  perm h := by
    simp only [ofEvents, h.length_eq, (h.map _).sum_eq]

end Columns

def hour : ℤ := 3600000000

theorem hour_pos : 0 < hour := by decide

def day : ℤ := 24 * hour

/-- `time_bucket('1 hour', _)`: the full hour, by UTC, that a time is in. -/
class Timescale where
  bucket : ℤ → ℤ
  aligned : ∀ ts, hour ∣ bucket ts
  within : ∀ ts, bucket ts ≤ ts ∧ ts < bucket ts + hour

instance : Nonempty Timescale :=
  ⟨{ bucket := fun ts => ts / hour * hour
     aligned := fun ts => Dvd.intro_left _ rfl
     within := fun ts => ⟨Int.ediv_mul_le ts (by decide), by
       have hmod := Int.emod_lt_of_pos ts hour_pos
       have hsplit := Int.mul_ediv_add_emod ts hour
       linarith⟩ }⟩

section Timescale
variable [Timescale]

/-- `date_trunc('day', now())` in a session whose time zone is so far ahead of UTC. -/
def midnight (zone now : ℤ) : ℤ := (now + zone) / day * day - zone

def llmCalls (events : List CostEvent) : List CostEvent :=
  events.filter fun e => e.kind = "llm_call"

def agentCostHourly (events : List CostEvent) :
    List ((ℤ × Option String × Option String) × Columns) :=
  groupBy (fun e => (Timescale.bucket e.ts, e.agent, e.model)) Columns.ofEvents (llmCalls events)

def spendTodayUsd (zone now : ℤ) (events : List CostEvent) : ℚ :=
  let today := (agentCostHourly events).filter fun r => midnight zone now ≤ r.1.1
  coalesce (today.map fun r => r.2.costUsd).sum

/-- `ORDER BY cost_usd DESC`, where NULL comes first. -/
def costliest : Nullable ℚ → WithBot ℚᵒᵈ
  | none => ⊥
  | some q => some (OrderDual.toDual q)

def costByAgent [Postgres] (now : ℤ) (hours : ℤ := 24) (events : List CostEvent) :
    List ((Option String × Option String) × Columns) :=
  let recent := (agentCostHourly events).filter fun r => now - hours * hour < r.1.1
  orderBy (fun r => costliest r.2.costUsd)
    (groupBy (fun r => r.1.2) (fun rows => Columns.sum (rows.map Prod.snd)) recent)

def spentSince (since : ℤ) (events : List CostEvent) : ℚ :=
  (((llmCalls events).filter fun e => since ≤ e.ts).map fun e => coalesce e.costUsd).sum

def opening (now hours : ℤ) : ℤ := ((now - hours * hour) / hour + 1) * hour

theorem bucket_eq (ts : ℤ) : Timescale.bucket ts = ts / hour * hour := by
  obtain ⟨m, hm⟩ := Timescale.aligned ts
  have hwithin := Timescale.within ts
  rw [hm, mul_comm] at hwithin
  rw [hm, (Int.ediv_eq_iff_of_pos hour_pos).mpr hwithin, mul_comm]

theorem le_bucket_iff {since : ℤ} (h : hour ∣ since) (ts : ℤ) :
    since ≤ Timescale.bucket ts ↔ since ≤ ts := by
  obtain ⟨m, rfl⟩ := h
  rw [bucket_eq, mul_comm, mul_le_mul_iff_of_pos_right hour_pos, Int.le_ediv_iff_mul_le hour_pos]

theorem lt_bucket_iff (now hours ts : ℤ) :
    now - hours * hour < Timescale.bucket ts ↔ opening now hours ≤ ts := by
  rw [bucket_eq, opening, ← Int.ediv_lt_iff_lt_mul hour_pos, ← Int.le_ediv_iff_mul_le hour_pos]
  exact Int.lt_iff_add_one_le

theorem spendTodayUsd_eq (zone now : ℤ) (events : List CostEvent) : spendTodayUsd zone now events =
    (((llmCalls events).filter fun e => midnight zone now ≤ Timescale.bucket e.ts).map fun e =>
      coalesce e.costUsd).sum := by
  have hrows : ((((agentCostHourly events).filter fun r => midnight zone now ≤ r.1.1).map
      Prod.snd).map Columns.costUsd).sum =
        (((llmCalls events).filter fun e => midnight zone now ≤ Timescale.bucket e.ts).map
          CostEvent.costUsd).sum :=
    congrArg Columns.costUsd (Columns.staged.merge_groups
      (fun e => (Timescale.bucket e.ts, e.agent, e.model)) (fun k => midnight zone now ≤ k.1)
      (llmCalls events))
  rw [List.map_map] at hrows
  refine (congrArg coalesce hrows).trans ?_
  rw [map_list_sum, List.map_map]
  rfl

def atMidnight (zone : ℤ) : CostEvent where
  ts := midnight zone 0
  kind := "llm_call"
  agent := none
  model := none
  costUsd := ((1 : ℚ) : WithZero ℚ)

/-- The day's spending is what was spent since midnight exactly where midnight is on the hour:
elsewhere the first part of an hour is left out. -/
theorem spend_today_exact_iff (zone : ℤ) :
    (∀ now events, spendTodayUsd zone now events = spentSince (midnight zone now) events) ↔
      hour ∣ zone := by
  have hdays (now : ℤ) : hour ∣ midnight zone now ↔ hour ∣ zone := by
    have hday : hour ∣ (now + zone) / day * day := ⟨(now + zone) / day * 24, by rw [day]; ring⟩
    rw [midnight, dvd_sub_right hday]
  constructor
  · intro h
    have hone := h 0 [atMidnight zone]
    rw [spendTodayUsd_eq, spentSince] at hone
    by_contra hzone
    have hlt : Timescale.bucket (midnight zone 0) < midnight zone 0 := by
      refine lt_of_le_of_ne (Timescale.within _).1 fun heq => hzone ?_
      rw [← hdays 0, ← heq]
      exact Timescale.aligned _
    simp [llmCalls, atMidnight, hlt.not_ge] at hone
    exact zero_ne_one hone
  · intro hzone now events
    rw [spendTodayUsd_eq, spentSince]
    simp only [le_bucket_iff ((hdays now).mpr hzone)]

/-- The table by agent is what grouping the calls since the first full hour would give. -/
theorem cost_by_agent_direct [Postgres] (now hours : ℤ) (events : List CostEvent) :
    (costByAgent now hours events).Perm
      (groupBy (fun e => (e.agent, e.model)) Columns.ofEvents
        ((llmCalls events).filter fun e => opening now hours ≤ e.ts)) ∧
    (costByAgent now hours events).Pairwise fun r r' =>
      costliest r.2.costUsd ≤ costliest r'.2.costUsd := by
  constructor
  · refine (orderBy_perm _ _).trans ?_
    have hrollup := Columns.staged.rollup
      (fun e => (Timescale.bucket e.ts, e.agent, e.model)) Prod.snd
      (fun k => now - hours * hour < k.1) (llmCalls events)
    simp only [lt_bucket_iff] at hrollup
    exact hrollup
  · exact Ranking.inOrder_pairwise _ _

end Timescale

end PrSentinel.CostViews
