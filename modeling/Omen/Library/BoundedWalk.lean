import Mathlib.Data.Fintype.Pigeonhole
import Mathlib.Data.Fintype.Card

/- Walks of a deterministic step that may end. Below a bound a walk ends exactly if it
   never comes back to a place where it has been. -/
namespace BoundedWalk

section General
variable {α : Type} (next : α → Option α)

/-- Where the walk stands after some steps, unless it has ended before. -/
def after : Nat → α → Option α
  | 0, x => some x
  | n + 1, x => (next x).bind (after n)

def Halts (x : α) : Prop := ∃ n, after next n x = none

def Returns (x : α) : Prop :=
  ∃ i j y, i < j ∧ after next i x = some y ∧ after next j x = some y

variable {next}

theorem after_add (m n : Nat) (x : α) :
    after next (m + n) x = (after next m x).bind (after next n) := by
  induction m generalizing x with
  | zero => simp [after]
  | succ m ih =>
    rw [Nat.add_right_comm]
    cases first : next x with
    | none => simp [after, first]
    | some y => simp [after, first, ih]

theorem after_succ (n : Nat) (x : α) : after next (n + 1) x = (after next n x).bind next := by
  rw [after_add]
  congr 1
  funext y
  cases first : next y <;> simp [after, first]

theorem after_none {m n : Nat} {x : α} (ended : after next m x = none) (later : m ≤ n) :
    after next n x = none := by
  obtain ⟨k, rfl⟩ := Nat.exists_eq_add_of_le later
  rw [after_add, ended, Option.bind_none]

theorem after_before {m n : Nat} {x z : α} (stands : after next n x = some z) (earlier : m < n) :
    ∃ y y', after next m x = some y ∧ next y = some y' := by
  obtain ⟨k, rfl⟩ := Nat.exists_eq_add_of_lt earlier
  rw [Nat.add_right_comm, Nat.add_assoc, after_add] at stands
  obtain ⟨y, here, rest⟩ := Option.bind_eq_some_iff.mp stands
  rw [Nat.add_comm, after] at rest
  obtain ⟨y', step, -⟩ := Option.bind_eq_some_iff.mp rest
  exact ⟨y, y', here, step⟩

theorem not_halts_of_returns {x : α} (returns : Returns next x) : ¬ Halts next x := by
  obtain ⟨i, j, y, less, first, second⟩ := returns
  obtain ⟨c, rfl⟩ := Nat.exists_eq_add_of_lt less
  rw [Nat.add_assoc, after_add, first, Option.bind_some] at second
  rintro ⟨n, ended⟩
  -- `c + 1` steps lead from `y` to `y`, as often as one likes
  have round : ∀ k, after next (k * (c + 1)) y = some y := by
    intro k
    induction k with
    | zero => rw [Nat.zero_mul, after]
    | succ k ih => rw [Nat.add_mul, Nat.one_mul, after_add, ih, Option.bind_some, second]
  have far : n ≤ i + n * (c + 1) :=
    Nat.le_trans (Nat.le_mul_of_pos_right n (Nat.succ_pos c)) (Nat.le_add_left _ _)
  have stands := after_none ended far
  rw [after_add, first, Option.bind_some, round n] at stands
  cases stands

end General

variable {next : Nat → Option Nat} {bound x : Nat}

/-- With at most `bound` places that lead on, a walk that never comes back is over soon. -/
theorem ended_of_not_returns (inside : ∀ y z, next y = some z → y < bound)
    (fresh : ¬ Returns next x) : after next (bound + 1) x = none := by
  by_contra walking
  obtain ⟨z, stands⟩ := Option.ne_none_iff_exists'.mp walking
  have step : ∀ i : Fin (bound + 1), ∃ y : Fin bound, after next i x = some y.val := by
    intro i
    obtain ⟨y, y', here, leads⟩ := after_before stands i.isLt
    exact ⟨⟨y, inside y y' leads⟩, here⟩
  choose place at_place using step
  obtain ⟨i, j, differ, same⟩ := Fintype.exists_ne_map_eq_of_card_lt place (by simp)
  rcases Nat.lt_or_gt_of_ne (Fin.val_ne_of_ne differ) with less | more
  · exact fresh ⟨i, j, (place i).val, less, at_place i, same ▸ at_place j⟩
  · exact fresh ⟨j, i, (place j).val, more, at_place j, same ▸ at_place i⟩

theorem halts_iff (inside : ∀ y z, next y = some z → y < bound) :
    Halts next x ↔ ¬ Returns next x :=
  ⟨fun halts returns => not_halts_of_returns returns halts,
    fun fresh => ⟨bound + 1, ended_of_not_returns inside fresh⟩⟩

theorem not_returns_of_increasing
    (up : ∀ i y z, after next i x = some y → next y = some z → y < z) : ¬ Returns next x := by
  have above : ∀ i k y z, after next i x = some y → after next (i + k + 1) x = some z → y < z := by
    intro i k
    induction k with
    | zero =>
      intro y z first second
      rw [Nat.add_zero, after_succ, first] at second
      exact up i y z first second
    | succ k ih =>
      intro y z first second
      obtain ⟨w, middle, last⟩ := Option.bind_eq_some_iff.mp ((after_succ _ x).symm.trans second)
      exact Nat.lt_trans (ih y w first middle) (up _ w z middle last)
  rintro ⟨i, j, y, less, first, second⟩
  obtain ⟨k, rfl⟩ := Nat.exists_eq_add_of_lt less
  exact Nat.lt_irrefl y (above i k y y first second)

end BoundedWalk
