import Omen.Process.Table
import Mathlib.Algebra.Order.Ring.Int
import Mathlib.Algebra.Order.Group.Abs
import Mathlib.Tactic.Ring
import Mathlib.Tactic.Linarith

/- The conversions of `pit.c` between ticks and time, and the clock of `time.c` over them. -/
namespace OmenSleep

def ticksToNs (hertz ticks : Nat) : Option Nat :=
  if hertz = 0 then some 0
  else if ticks = 0 then some 0
  else if ticks < hertz then some 1000000
  else
    let ns := ticks * 1000000 % 2 ^ 64 / hertz
    if ns = 0 then none else some ns

def nsToTicks (hertz ns : Nat) : Option Nat :=
  if ns < 1000000 then none
  else
    let cuak := ns / 1000000 * hertz % 2 ^ 64
    if cuak < 1000 then some 1 else some (cuak / 1000)

def ticksToSeconds (hertz ticks : Nat) : Nat :=
  if hertz = 0 then 0
  else if ticks = 0 then 0
  else if ticks < hertz then 1
  else ticks / hertz

def ticksToMs (hertz ticks : Nat) : Nat :=
  if hertz = 0 then 0
  else if ticks = 0 then 0
  else if ticks * 1000 % 2 ^ 64 < hertz then 1000
  else ticks * 1000 % 2 ^ 64 / hertz

def getEpoch (bootEpoch hertz ticks : Nat) : Nat :=
  (bootEpoch + ticksToSeconds hertz ticks) % 2 ^ 64

structure Timeval where
  tv_sec : Nat
  tv_usec : Nat

def Timeval.micros (tv : Timeval) : Nat := tv.tv_sec * 1000000 + tv.tv_usec

def timevalNow (bootEpoch hertz ticks : Nat) : Option Timeval :=
  (ticksToNs hertz ticks).map fun ns =>
    ⟨(ns / 1000000000 + getEpoch bootEpoch hertz ticks) % 2 ^ 64, ns % 1000000000 / 1000⟩

/-- A frequency that the timer can have, and values that fit in 64 bits. -/
structure InRange (bootEpoch hertz ticks : Nat) : Prop where
  low : 1 ≤ hertz
  high : hertz ≤ 1000000
  product : ticks * 1000000 < 2 ^ 64
  sum : bootEpoch + ticksToSeconds hertz ticks + ticks * 1000000 / hertz / 1000000000 < 2 ^ 64

/- The parts of a consistent clock, at a number of ticks. Times are compared in units of the
   length of a tick over 10^9 or 10^6, so that a tick is 10^9 or 10^6 of them. -/

def NsMonotone (hertz ticks : Nat) : Prop :=
  ∀ later, ticks ≤ later → later * 1000000 < 2 ^ 64 →
    ∃ ns ns', ticksToNs hertz ticks = some ns ∧ ticksToNs hertz later = some ns' ∧ ns ≤ ns'

def MsMonotone (hertz ticks : Nat) : Prop :=
  ∀ later, ticks ≤ later → later * 1000 < 2 ^ 64 → ticksToMs hertz ticks ≤ ticksToMs hertz later

def NsAccurate (hertz ticks : Nat) : Prop :=
  ∃ ns, ticksToNs hertz ticks = some ns ∧
    |(ns * hertz : Int) - ticks * 1000000000| < 1000000000

def RoundTrip (hertz ticks : Nat) : Prop :=
  ∀ ns, ticksToNs hertz ticks = some ns → 1000000 ≤ ns →
    ∃ back, nsToTicks hertz ns = some back ∧ 1000 * |(back : Int) - ticks| ≤ max 1000 hertz

def TimevalMonotone (bootEpoch hertz ticks : Nat) : Prop :=
  InRange bootEpoch hertz (ticks + 1) →
    ∃ tv tv', timevalNow bootEpoch hertz ticks = some tv ∧
      timevalNow bootEpoch hertz (ticks + 1) = some tv' ∧ tv.micros ≤ tv'.micros

def TimevalAccurate (bootEpoch hertz ticks : Nat) : Prop :=
  ∃ tv, timevalNow bootEpoch hertz ticks = some tv ∧
    |(tv.micros * hertz : Int) - (bootEpoch * 1000000 * hertz + ticks * 1000000)| ≤ 1000000

structure ClockConsistent (bootEpoch hertz ticks : Nat) : Prop where
  ns_monotone : NsMonotone hertz ticks
  ms_monotone : MsMonotone hertz ticks
  ns_accurate : NsAccurate hertz ticks
  round_trip : RoundTrip hertz ticks
  timeval_monotone : TimevalMonotone bootEpoch hertz ticks
  timeval_accurate : TimevalAccurate bootEpoch hertz ticks

section Conversions
variable {bootEpoch hertz ticks : Nat}

/-- `ticks_to_ns` without overflow. It counts microseconds. -/
def nsOf (hertz ticks : Nat) : Nat :=
  if ticks = 0 then 0 else if ticks < hertz then 1000000 else ticks * 1000000 / hertz

theorem ticksToNs_eq (low : 1 ≤ hertz) (product : ticks * 1000000 < 2 ^ 64)
    (high : hertz ≤ 1000000) :
    ticksToNs hertz ticks = some (nsOf hertz ticks) := by
  rw [ticksToNs, nsOf, Nat.mod_eq_of_lt product]
  by_cases none : ticks = 0
  · simp [none]
  by_cases early : ticks < hertz
  · simp [none, early, show hertz ≠ 0 by omega]
  have some_ns : ticks * 1000000 / hertz ≠ 0 := by
    have : 1 ≤ ticks * 1000000 / hertz := (Nat.le_div_iff_mul_le low).mpr (by omega)
    omega
  simp [none, early, some_ns, show hertz ≠ 0 by omega]

theorem nsOf_mono {later : Nat} (low : 1 ≤ hertz) (ordered : ticks ≤ later) :
    nsOf hertz ticks ≤ nsOf hertz later := by
  unfold nsOf
  have second : hertz ≤ later → 1000000 ≤ later * 1000000 / hertz :=
    fun reached => (Nat.le_div_iff_mul_le low).mpr (by omega)
  have divided : ticks * 1000000 / hertz ≤ later * 1000000 / hertz :=
    Nat.div_le_div_right (by omega)
  split_ifs <;> omega

def msOf (hertz ticks : Nat) : Nat :=
  if ticks = 0 then 0 else if ticks * 1000 < hertz then 1000 else ticks * 1000 / hertz

theorem ticksToMs_eq (low : 1 ≤ hertz) (product : ticks * 1000 < 2 ^ 64) :
    ticksToMs hertz ticks = msOf hertz ticks := by
  rw [ticksToMs, Nat.mod_eq_of_lt product, if_neg (Nat.ne_of_gt low), msOf]

theorem first_ms (high : hertz ≤ 1000000) (some_ticks : ticks ≠ 0) (early : 1000 * ticks < hertz) :
    ∃ later, ticks ≤ later ∧ later * 1000 ≤ 1000999 ∧ msOf hertz later = 1 := by
  refine ⟨(hertz + 999) / 1000, by omega, by omega, ?_⟩
  have one : (hertz + 999) / 1000 * 1000 / hertz = 1 :=
    Nat.div_eq_of_lt_le (by omega) (by omega)
  rw [msOf, if_neg (by omega), if_neg (by omega), one]

theorem msMonotone_iff (low : 1 ≤ hertz) (high : hertz ≤ 1000000)
    (product : ticks * 1000 < 2 ^ 64) :
    MsMonotone hertz ticks ↔ ticks = 0 ∨ hertz ≤ 1000 * ticks := by
  constructor
  · intro monotone
    by_contra early
    rw [not_or, Nat.not_le] at early
    obtain ⟨later, ordered, small, one⟩ := first_ms high early.1 early.2
    have fits : later * 1000 < 2 ^ 64 := Nat.lt_of_le_of_lt small (by decide)
    have here : msOf hertz ticks = 1000 := by
      rw [msOf, if_neg early.1, if_pos (by rw [Nat.mul_comm]; exact early.2)]
    have step := monotone later ordered fits
    rw [ticksToMs_eq low product, ticksToMs_eq low fits, here, one] at step
    exact absurd step (by decide)
  · intro none_or_late later ordered fits
    rw [ticksToMs_eq low product, ticksToMs_eq low fits, msOf]
    rcases none_or_late with none | late
    · rw [if_pos none]
      exact Nat.zero_le _
    · rw [msOf, if_neg (by omega), if_neg (by omega), if_neg (by omega), if_neg (by omega)]
      exact Nat.div_le_div_right (by omega)

theorem nsAccurate_iff (low : 1 ≤ hertz) (high : hertz ≤ 1000000)
    (product : ticks * 1000000 < 2 ^ 64) :
    NsAccurate hertz ticks ↔
      ticks = 0 ∨ 1000 * ticks < hertz + 1000 ∧ hertz < 1000 * ticks + 1000 := by
  have exact_ns : NsAccurate hertz ticks ↔
      |(nsOf hertz ticks * hertz : Int) - ticks * 1000000000| < 1000000000 := by
    unfold NsAccurate
    rw [ticksToNs_eq low product high]
    simp only [Option.some.injEq, exists_eq_left']
  rw [exact_ns, abs_lt, nsOf]
  split_ifs with none early
  · omega
  · omega
  · have whole := Nat.div_add_mod (ticks * 1000000) hertz
    have rest := Nat.mod_lt (ticks * 1000000) low
    have product : ((ticks * 1000000 / hertz : Nat) * hertz : Int) =
        ((hertz * (ticks * 1000000 / hertz) : Nat) : Int) := by
      push_cast
      exact mul_comm _ _
    rw [product]
    omega

theorem nsOf_millis (some_ticks : ticks ≠ 0) :
    nsOf hertz ticks / 1000000 = if ticks < hertz then 1 else ticks / hertz := by
  rw [nsOf, if_neg some_ticks]
  split_ifs
  · rfl
  · rw [Nat.div_div_eq_div_mul, Nat.mul_div_mul_right _ _ (by decide)]

theorem nsOf_enough (low : 1 ≤ hertz) (some_ticks : ticks ≠ 0) : 1000000 ≤ nsOf hertz ticks := by
  rw [nsOf, if_neg some_ticks]
  split_ifs
  · exact Nat.le_refl _
  · exact (Nat.le_div_iff_mul_le low).mpr (by omega)

theorem nsToTicks_nsOf (low : 1 ≤ hertz) (high : hertz ≤ 1000000)
    (product : ticks * 1000000 < 2 ^ 64) (some_ticks : ticks ≠ 0) :
    nsToTicks hertz (nsOf hertz ticks) =
      some (max 1 ((if ticks < hertz then 1 else ticks / hertz) * hertz / 1000)) := by
  have fits : (if ticks < hertz then 1 else ticks / hertz) * hertz < 2 ^ 64 := by
    split_ifs
    · omega
    · exact Nat.lt_of_le_of_lt (Nat.div_mul_le_self ticks hertz) (by omega)
  rw [nsToTicks, if_neg (Nat.not_lt.mpr (nsOf_enough low some_ticks)), nsOf_millis some_ticks,
    Nat.mod_eq_of_lt fits]
  generalize (if ticks < hertz then 1 else ticks / hertz) * hertz = cuak
  dsimp only
  split_ifs with few
  · rw [Nat.div_eq_of_lt few, Nat.max_eq_left (Nat.zero_le 1)]
  · rw [Nat.max_eq_right (by omega)]

theorem roundTrip_iff (low : 1 ≤ hertz) (high : hertz ≤ 1000000)
    (product : ticks * 1000000 < 2 ^ 64) :
    RoundTrip hertz ticks ↔ ticks ≤ 2 * max 1 (hertz / 1000) := by
  unfold RoundTrip
  rw [ticksToNs_eq low product high]
  simp only [Option.some.injEq, forall_eq']
  by_cases none : ticks = 0
  · simp [none, nsOf]
  simp only [nsOf_enough low none, forall_const, nsToTicks_nsOf low high product none,
    Option.some.injEq,
    exists_eq_left', Int.abs_eq_natAbs]
  by_cases early : ticks < hertz
  · rw [if_pos early, Nat.one_mul]
    omega
  · rw [if_neg early]
    have below := Nat.div_mul_le_self ticks hertz
    generalize ticks / hertz * hertz = whole at below ⊢
    omega

end Conversions

section Now
variable {bootEpoch hertz ticks : Nat}

theorem InRange.nonzero (r : InRange bootEpoch hertz ticks) : hertz ≠ 0 := Nat.ne_of_gt r.low

theorem nsOf_seconds (hertz ticks : Nat) :
    nsOf hertz ticks / 1000000000 ≤ ticks * 1000000 / hertz / 1000000000 := by
  rw [nsOf]
  split_ifs
  · simp
  · simp
  · exact Nat.le_refl _

/-- The clock counts the elapsed seconds and the value of `ticks_to_ns` together. -/
theorem timevalNow_micros (r : InRange bootEpoch hertz ticks) : ∃ tv,
    timevalNow bootEpoch hertz ticks = some tv ∧
      tv.micros = (bootEpoch + ticksToSeconds hertz ticks) * 1000000 + nsOf hertz ticks / 1000 := by
  have sum := r.sum
  have seconds := nsOf_seconds hertz ticks
  refine ⟨_, by rw [timevalNow, ticksToNs_eq r.low r.product r.high]; rfl, ?_⟩
  have epoch : getEpoch bootEpoch hertz ticks = bootEpoch + ticksToSeconds hertz ticks :=
    Nat.mod_eq_of_lt (by omega)
  simp only [Timeval.micros, epoch]
  rw [Nat.mod_eq_of_lt (by omega)]
  omega

theorem ticksToSeconds_mono (ticks : Nat) (low : 1 ≤ hertz) :
    ticksToSeconds hertz ticks ≤ ticksToSeconds hertz (ticks + 1) := by
  have divided : ticks / hertz ≤ (ticks + 1) / hertz := Nat.div_le_div_right (Nat.le_succ ticks)
  have reached : hertz ≤ ticks + 1 → 1 ≤ (ticks + 1) / hertz :=
    fun late => (Nat.le_div_iff_mul_le low).mpr (by omega)
  rw [ticksToSeconds, ticksToSeconds, if_neg (Nat.ne_of_gt low), if_neg (Nat.ne_of_gt low),
    if_neg (Nat.succ_ne_zero ticks)]
  by_cases none : ticks = 0
  · rw [if_pos none]
    exact Nat.zero_le _
  · rw [if_neg none]
    split_ifs <;> omega

theorem timeval_monotone (r : InRange bootEpoch hertz ticks) :
    TimevalMonotone bootEpoch hertz ticks := by
  intro next
  obtain ⟨tv, now, value⟩ := timevalNow_micros r
  obtain ⟨tv', now', value'⟩ := timevalNow_micros next
  refine ⟨tv, tv', now, now', ?_⟩
  have seconds := ticksToSeconds_mono ticks r.low
  have parts := nsOf_mono r.low (Nat.le_add_right ticks 1)
  rw [value, value']
  omega

/-- After the first tick and before the first second the clock is a second ahead; from then on
    it runs ahead by a thousandth and has lost the part of the second. -/
theorem timevalAccurate_iff (r : InRange bootEpoch hertz ticks) :
    TimevalAccurate bootEpoch hertz ticks ↔ ticks = 0 ∨ hertz ≤ ticks ∧
      |(hertz * (1000 * ticks / hertz) : Int) - 1000000 * (ticks % hertz)| ≤ 1000000 := by
  obtain ⟨tv, now, value⟩ := timevalNow_micros r
  unfold TimevalAccurate
  rw [now]
  simp only [Option.some.injEq, exists_eq_left', value]
  have split : (((bootEpoch + ticksToSeconds hertz ticks) * 1000000 + nsOf hertz ticks / 1000 : Nat)
      * hertz : Int) - (bootEpoch * 1000000 * hertz + ticks * 1000000) =
      1000000 * ((ticksToSeconds hertz ticks * hertz : Nat) : Int) +
        ((nsOf hertz ticks / 1000 * hertz : Nat) : Int) - 1000000 * ticks := by
    push_cast
    ring
  rw [split]
  by_cases none : ticks = 0
  · simp [none, ticksToSeconds, nsOf]
  have low := r.low
  by_cases early : ticks < hertz
  · rw [ticksToSeconds, nsOf, if_neg r.nonzero, if_neg none, if_pos early, if_neg none,
      if_pos early]
    refine iff_of_false (fun near => ?_) (by omega)
    rw [abs_le] at near
    omega
  · have whole := Nat.div_add_mod ticks hertz
    have thousandth : ticks * 1000000 / hertz / 1000 * hertz = hertz * (1000 * ticks / hertz) := by
      rw [Nat.div_div_eq_div_mul, show ticks * 1000000 = 1000 * ticks * 1000 by ring,
        Nat.mul_div_mul_right _ _ (by decide), Nat.mul_comm]
    rw [ticksToSeconds, nsOf, if_neg r.nonzero, if_neg none, if_neg early, if_neg none,
      if_neg early, thousandth, Nat.mul_comm (ticks / hertz)]
    have cast : (hertz * (ticks / hertz) + ticks % hertz : Int) = ticks := by exact_mod_cast whole
    have same : 1000000 * ((hertz * (ticks / hertz) : Nat) : Int) +
        ((hertz * (1000 * ticks / hertz) : Nat) : Int) - 1000000 * ticks =
        hertz * (1000 * ticks / hertz) - 1000000 * (ticks % hertz) := by
      push_cast
      linarith
    rw [same]
    exact ⟨fun near => Or.inr ⟨Nat.not_lt.mp early, near⟩,
      fun either => either.elim (fun zero => absurd zero none) (fun both => both.2)⟩

theorem ns_monotone (r : InRange bootEpoch hertz ticks) : NsMonotone hertz ticks :=
  fun _ ordered fits => ⟨_, _, ticksToNs_eq r.low r.product r.high, ticksToNs_eq r.low fits r.high,
    nsOf_mono r.low ordered⟩

/-- The clock is consistent just when no time has passed, or at the first tick of a timer with
    one tick a second. -/
theorem clock_consistent_iff (bootEpoch hertz ticks : Nat) (range : InRange bootEpoch hertz ticks) :
    ClockConsistent bootEpoch hertz ticks ↔ ticks = 0 ∨ hertz = 1 ∧ ticks = 1 := by
  have ms := msMonotone_iff range.low range.high
    (Nat.lt_of_le_of_lt (Nat.mul_le_mul_left ticks (by decide)) range.product)
  have ns := nsAccurate_iff range.low range.high range.product
  have back := roundTrip_iff range.low range.high range.product
  have timeval := timevalAccurate_iff range
  constructor
  · intro consistent
    have near := ns.mp consistent.ns_accurate
    have late := (timeval.mp consistent.timeval_accurate).imp_right And.left
    have low := range.low
    omega
  · intro either
    refine ⟨ns_monotone range, ms.mpr (by omega), ns.mpr (by omega), back.mpr (by omega),
      timeval_monotone range, timeval.mpr ?_⟩
    rcases either with none | ⟨rfl, rfl⟩
    · exact Or.inl none
    · exact Or.inr ⟨Nat.le_refl 1, by decide⟩

theorem clock_consistent_first : InRange 1700000000 1 1 ∧ ClockConsistent 1700000000 1 1 := by
  have range : InRange 1700000000 1 1 := ⟨by decide, by decide, by decide, by decide⟩
  exact ⟨range, (clock_consistent_iff 1700000000 1 1 range).mpr (Or.inr ⟨rfl, rfl⟩)⟩

/-- At 1000 ticks a second, two seconds after boot: 2 ms for 2 s, 2 ticks for 2000, and a clock
    2 ms ahead; and at 10000 ticks a second 9 ticks count as 1000 ms and 10 as 1. -/
theorem clock_inconsistent :
    ticksToNs 1000 2000 = some 2000000 ∧ nsToTicks 1000 2000000 = some 2 ∧
      (timevalNow 0 1000 2000).map (·.micros) = some 2002000 ∧
      ticksToMs 10000 9 = 1000 ∧ ticksToMs 10000 10 = 1 := by
  decide

end Now

end OmenSleep
