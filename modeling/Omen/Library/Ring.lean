import Mathlib.Data.List.DropRight
import Mathlib.Logic.Function.Basic
import Mathlib.Tactic.Common

/- A queue kept in a ring of n cells between a reading and a writing index. One cell stays free,
   so that equal indices mean that the queue is empty. -/
namespace Ring

variable {α : Type*} {cells : Nat → α} {n head tail k : Nat} {l : List α}

structure Shows (cells : Nat → α) (n head tail : Nat) (l : List α) : Prop where
  inside : head < n
  room : l.length < n
  stop : tail = (head + l.length) % n
  cell : ∀ i x, l[i]? = some x → cells ((head + i) % n) = x

theorem shows_nil (inside : head < n) : Shows cells n head head [] where
  inside := inside
  room := by simpa using Nat.zero_lt_of_lt inside
  stop := by rw [List.length_nil, Nat.add_zero, Nat.mod_eq_of_lt inside]
  cell := by simp

theorem index_ne (head : Nat) {i : Nat} (early : i < k) (below : k < n) :
    (head + i) % n ≠ (head + k) % n := by
  intro same
  have apart := Nat.dvd_of_mod_eq_zero (Nat.sub_mod_eq_zero_of_mod_eq same.symm)
  have := Nat.le_of_dvd (by omega) apart
  omega

namespace Shows

variable (s : Shows cells n head tail l)
include s

theorem tail_lt : tail < n := by
  rw [s.stop]
  exact Nat.mod_lt _ (Nat.zero_lt_of_lt s.inside)

theorem empty_iff : head = tail ↔ l = [] := by
  rw [s.stop]
  constructor
  · intro same
    by_contra more
    have some_entry := List.length_pos_iff.mpr more
    refine index_ne head some_entry s.room ?_
    rw [← same, Nat.add_zero, Nat.mod_eq_of_lt s.inside]
  · rintro rfl
    rw [List.length_nil, Nat.add_zero, Nat.mod_eq_of_lt s.inside]

theorem length_eq : l.length = if head ≤ tail then tail - head else n - (head - tail) := by
  have inside := s.inside
  have room := s.room
  have stop := s.stop
  rcases Nat.lt_or_ge (head + l.length) n with below | beyond
  · rw [Nat.mod_eq_of_lt below] at stop
    rw [if_pos (by omega)]
    omega
  · rw [Nat.mod_eq_sub_mod beyond, Nat.mod_eq_of_lt (by omega)] at stop
    rw [if_neg (by omega)]
    omega

theorem listed : (List.range l.length).map (fun i => cells ((head + i) % n)) = l := by
  apply List.ext_getElem?
  intro i
  rw [List.getElem?_map]
  rcases Nat.lt_or_ge i l.length with below | beyond
  · rw [List.getElem?_range below, Option.map_some, List.getElem?_eq_getElem below,
      s.cell i _ (List.getElem?_eq_getElem below)]
  · rw [List.getElem?_eq_none (by simpa using beyond), List.getElem?_eq_none beyond,
      Option.map_none]

theorem drop (some_of : k ≤ l.length) : Shows cells n ((head + k) % n) tail (l.drop k) where
  inside := Nat.mod_lt _ (Nat.zero_lt_of_lt s.inside)
  room := by
    have := s.room
    rw [List.length_drop]
    omega
  stop := by rw [Nat.mod_add_mod, List.length_drop, Nat.add_assoc,
    Nat.add_sub_cancel' some_of, s.stop]
  cell i x here := by
    rw [List.getElem?_drop] at here
    rw [Nat.mod_add_mod, Nat.add_assoc]
    exact s.cell _ _ here

theorem take (some_of : k ≤ l.length) : Shows cells n head ((head + k) % n) (l.take k) where
  inside := s.inside
  room := by
    have := s.room
    rw [List.length_take]
    omega
  stop := by rw [List.length_take, Nat.min_eq_left some_of]
  cell i x here := by
    rw [List.getElem?_take] at here
    split at here
    · exact s.cell _ _ here
    · cases here

theorem dropLast (some_entry : l ≠ []) (later : tail ≠ 0) :
    Shows cells n head (tail - 1) l.dropLast := by
  have more := List.length_pos_iff.mpr some_entry
  have fewer := s.take (Nat.sub_le l.length 1)
  have back : (head + (l.length - 1)) % n = tail - 1 := by
    have whole : ((head + (l.length - 1)) % n + 1) % n = tail := by
      rw [s.stop, Nat.mod_add_mod, Nat.add_assoc, Nat.sub_add_cancel more]
    have below := Nat.mod_lt (head + (l.length - 1)) (Nat.zero_lt_of_lt s.inside)
    by_cases last : (head + (l.length - 1)) % n + 1 = n
    · rw [last, Nat.mod_self] at whole
      exact absurd whole.symm later
    · rw [Nat.mod_eq_of_lt (by omega)] at whole
      omega
  rwa [back, ← List.dropLast_eq_take] at fewer

theorem append (more : l.length + 1 < n) (x : α) :
    Shows (Function.update cells tail x) n head ((tail + 1) % n) (l ++ [x]) where
  inside := s.inside
  room := by simpa using more
  stop := by rw [s.stop, Nat.mod_add_mod, List.length_append, List.length_singleton, Nat.add_assoc]
  cell i y here := by
    by_cases last : i = l.length
    · subst last
      rw [List.getElem?_concat_length, Option.some_inj] at here
      rw [← s.stop, Function.update_self, here]
    · have early : i < l.length := by
        have := (List.getElem?_eq_some_iff.mp here).1
        rw [List.length_append, List.length_singleton] at this
        omega
      rw [List.getElem?_append_left early] at here
      rw [Function.update_of_ne, s.cell i y here]
      rw [s.stop]
      exact index_ne head early s.room

theorem meets : (tail + 1) % n = head ↔ l.length + 1 = n := by
  rw [s.stop, Nat.mod_add_mod, Nat.add_assoc]
  constructor
  · intro same
    by_contra other
    have := s.room
    refine index_ne head (Nat.succ_pos l.length) (by omega : l.length + 1 < n) ?_
    rw [same, Nat.add_zero, Nat.mod_eq_of_lt s.inside]
  · intro full
    rw [full, Nat.add_mod_right, Nat.mod_eq_of_lt s.inside]

/-- A store that moves the reading index on where it has been met keeps the last n - 1 entries. -/
theorem push (two : 2 ≤ n) (x : α) :
    Shows (Function.update cells tail x) n
      (if (tail + 1) % n = head then (head + 1) % n else head) ((tail + 1) % n)
      ((l ++ [x]).rtake (n - 1)) := by
  by_cases full : l.length + 1 = n
  · have one : 1 ≤ l.length := by omega
    have shorter := (s.drop one).append (by rw [List.length_drop]; omega) x
    rw [if_pos (s.meets.mpr full)]
    convert shorter using 1
    rw [List.rtake, List.length_append, List.length_singleton, full,
      Nat.sub_sub_self (by omega), List.drop_append_of_le_length one]
  · have := s.room
    rw [if_neg fun same => full (s.meets.mp same), List.rtake,
      show (l ++ [x]).length - (n - 1) = 0 by simp; omega]
    exact s.append (by omega) x

theorem slice (some_of : k ≤ l.length) (piece : head + k ≤ n) :
    (List.range k).map (fun i => cells (head + i)) = l.take k := by
  apply List.ext_getElem?
  intro i
  rw [List.getElem?_map, List.getElem?_take]
  by_cases below : i < k
  · have early : i < l.length := by omega
    rw [List.getElem?_range below, if_pos below, List.getElem?_eq_getElem early, Option.map_some,
      ← s.cell i _ (List.getElem?_eq_getElem early), Nat.mod_eq_of_lt (by omega)]
  · rw [if_neg below, List.getElem?_eq_none (by simpa using below), Option.map_none]

end Shows
end Ring
