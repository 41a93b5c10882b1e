import Omen.Library.Bitmap
import Mathlib.Algebra.Order.BigOperators.Group.Finset
import Mathlib.Data.Fintype.BigOperators

/- Units kept in groups: the units of a group that are in use, and a counter of the free
   ones beside it. A pool has one more counter for all groups. Units are taken and given
   back one at a time; the counters stay exact over every such move. -/
namespace UnitPool
open Bitmap

structure Units (ι : Type) where
  used : ι → Nat → Bool
  free : ι → Nat

structure Pool (ι : Type) extends Units ι where
  total : Nat

section Moves
variable {ι : Type} [DecidableEq ι]

namespace Units

def take (s : Units ι) (g : ι) (i : Nat) : Units ι where
  used := Function.update s.used g (Function.update (s.used g) i true)
  free := Function.update s.free g (s.free g - 1)

def give (s : Units ι) (g : ι) (i : Nat) : Units ι where
  used := Function.update s.used g (Function.update (s.used g) i false)
  free := Function.update s.free g (s.free g + 1)

end Units

inductive Move (size : Nat) : Pool ι → Pool ι → Prop
  | stay (s : Pool ι) : Move size s s
  | take (s : Pool ι) {g : ι} {i : Nat} (inside : i < size) (clear : s.used g i = false) :
      Move size s ⟨s.toUnits.take g i, s.total - 1⟩
  | give (s : Pool ι) {g : ι} {i : Nat} (inside : i < size) (used : s.used g i = true) :
      Move size s ⟨s.toUnits.give g i, s.total + 1⟩

end Moves

/-- The counters agree with the units, and what lies past the units counts as used. -/
structure Counted {ι : Type} (size capacity : Nat) (s : Units ι) : Prop where
  counted : ∀ g, s.free g = clearCount (s.used g) size
  spare : ∀ g i, size ≤ i → i < capacity → s.used g i = true

structure Balanced {ι : Type} [Fintype ι] (size capacity : Nat) (s : Pool ι) : Prop extends
    Counted size capacity s.toUnits where
  summed : s.total = ∑ g, s.free g

namespace Counted
variable {ι : Type} {size capacity : Nat} {s : Units ι}

section Bounds
variable (counted : Counted size capacity s)
include counted

theorem free_le (g : ι) : s.free g ≤ size := by
  rw [counted.counted g]
  exact clearCount_le _ _

theorem free_positive {g : ι} {i : Nat} (inside : i < size) (clear : s.used g i = false) :
    0 < s.free g := by
  rw [counted.counted g]
  exact clearCount_positive inside clear

theorem free_exists {g : ι} (some : s.free g ≠ 0) : ∃ i, i < size ∧ s.used g i = false := by
  rw [counted.counted g] at some
  exact clear_exists (Nat.pos_of_ne_zero some)

theorem inside {g : ι} {i : Nat} (low : i < capacity) (clear : s.used g i = false) : i < size := by
  by_contra past
  have used := counted.spare g i (Nat.le_of_not_lt past) low
  rw [clear] at used
  cases used

theorem take_free {g : ι} {i : Nat} (inside : i < size)
    (clear : s.used g i = false) :
    s.free g - 1 = clearCount (Function.update (s.used g) i true) size ∧ 0 < s.free g := by
  have one := clearCount_set inside clear
  have free := counted.counted g
  omega

theorem give_free {g : ι} {i : Nat} (inside : i < size)
    (used : s.used g i = true) :
    s.free g + 1 = clearCount (Function.update (s.used g) i false) size := by
  rw [clearCount_clear inside used, counted.counted g]

end Bounds

variable [DecidableEq ι]

theorem replace (counted : Counted size capacity s) {g : ι} {bits : Nat → Bool}
    (spare : ∀ i, size ≤ i → i < capacity → bits i = true) :
    Counted size capacity
      ⟨Function.update s.used g bits, Function.update s.free g (clearCount bits size)⟩ := by
  constructor
  · intro h
    by_cases same : h = g
    · subst same
      simp
    · simp [same, counted.counted h]
  · intro h i past low
    by_cases same : h = g
    · subst same
      simpa using spare i past low
    · simpa [same] using counted.spare h i past low

theorem take (counted : Counted size capacity s) {g : ι} {i : Nat} (inside : i < size)
    (clear : s.used g i = false) : Counted size capacity (s.take g i) := by
  rw [Units.take, (counted.take_free inside clear).1]
  refine counted.replace (fun k past low => ?_)
  rw [Function.update_of_ne (by omega)]
  exact counted.spare g k past low

theorem give (counted : Counted size capacity s) {g : ι} {i : Nat} (inside : i < size)
    (used : s.used g i = true) : Counted size capacity (s.give g i) := by
  rw [Units.give, counted.give_free inside used]
  refine counted.replace (fun k past low => ?_)
  rw [Function.update_of_ne (by omega)]
  exact counted.spare g k past low

end Counted

namespace Balanced
variable {ι : Type} [Fintype ι] {size capacity : Nat} {s t : Pool ι}

theorem free_le_total (balanced : Balanced size capacity s) (g : ι) : s.free g ≤ s.total := by
  rw [balanced.summed]
  exact Finset.single_le_sum (fun _ _ => Nat.zero_le _) (Finset.mem_univ g)

theorem total_le (balanced : Balanced size capacity s) : s.total ≤ Fintype.card ι * size := by
  rw [balanced.summed]
  have bound := Finset.sum_le_card_nsmul Finset.univ s.free size (fun g _ => balanced.free_le g)
  simpa using bound

variable [DecidableEq ι]

theorem sum_update (balanced : Balanced size capacity s) (g : ι) (count : Nat) :
    (∑ h, Function.update s.free g count h) + s.free g = s.total + count := by
  have all := Finset.sum_erase_add Finset.univ s.free (Finset.mem_univ g)
  have before := balanced.summed
  rw [Finset.sum_update_of_mem (Finset.mem_univ g), Finset.sdiff_singleton_eq_erase]
  omega

theorem move (balanced : Balanced size capacity s) (step : Move size s t) :
    Balanced size capacity t := by
  cases step with
  | stay => exact balanced
  | @take g i inside clear =>
    refine ⟨balanced.take inside clear, ?_⟩
    have sum := balanced.sum_update g (s.free g - 1)
    have some := (balanced.take_free inside clear).2
    dsimp only [Units.take]
    omega
  | @give g i inside used =>
    refine ⟨balanced.give inside used, ?_⟩
    have sum := balanced.sum_update g (s.free g + 1)
    dsimp only [Units.give]
    omega

end Balanced

end UnitPool
