import Omen.Library.PointerTree

/- Trees of pointers that are filled from the left: the leaves stand at the first indices,
   and every pointer behind the last of them is 0. -/
namespace PointerTree

def RowFilled (tree : Nat → Nat → Prop) (size : Nat) : List Nat → Nat → Prop
  | [], count => count = 0
  | root :: rest, count => tree root (min count size) ∧ RowFilled tree size rest (count - size)

section Trees
variable (entry : Nat → Nat → Nat) (fanout : Nat) (node used : Nat → Prop)

def Filled : Nat → Nat → Nat → Prop
  | _, root, 0 => root = 0
  | 0, root, count + 1 => count = 0 ∧ used root
  | level + 1, root, count + 1 => node root ∧
      RowFilled (Filled level) (fanout ^ level) ((List.range fanout).map (entry root)) (count + 1)

def ForestFilled : Forest → Nat → Prop
  | [], count => count = 0
  | (level, roots) :: rest, count =>
    RowFilled (Filled entry fanout node used level) (fanout ^ level) roots
        (min count (rowSize fanout level roots)) ∧
      ForestFilled rest (count - rowSize fanout level roots)

end Trees

variable {entry : Nat → Nat → Nat} {fanout : Nat} {node used : Nat → Prop}

theorem RowFilled.le {tree : Nat → Nat → Prop} {size : Nat} {roots : List Nat} {count : Nat}
    (filled : RowFilled tree size roots count) : count ≤ roots.length * size := by
  induction roots generalizing count with
  | nil => simp [RowFilled] at filled; omega
  | cons root rest ih =>
    have tail := ih filled.2
    rw [List.length_cons, Nat.add_mul]
    omega

theorem Filled.le {level root count : Nat}
    (filled : Filled entry fanout node used level root count) : count ≤ fanout ^ level := by
  cases count with
  | zero => exact Nat.zero_le _
  | succ count =>
    cases level with
    | zero =>
      have last := filled.1
      rw [Nat.pow_zero]
      omega
    | succ level =>
      have row := RowFilled.le filled.2
      rwa [List.length_map, List.length_range, Nat.mul_comm, ← Nat.pow_succ] at row

theorem ForestFilled.le {rows : Forest} {count : Nat}
    (filled : ForestFilled entry fanout node used rows count) : count ≤ forestSize fanout rows := by
  induction rows generalizing count with
  | nil => simp [ForestFilled] at filled; omega
  | cons row rest ih =>
    have tail := ih filled.2
    rw [forestSize]
    omega

theorem RowFilled.leaf_used {roots : List Nat} {count k : Nat}
    (filled : RowFilled (Filled entry fanout node used 0) 1 roots count) (inside : k < count) :
    used (roots.getD k 0) := by
  induction roots generalizing count k with
  | nil => simp [RowFilled] at filled; omega
  | cons root rest ih =>
    cases k with
    | zero =>
      have first := filled.1
      rw [Nat.min_eq_right (by omega)] at first
      exact first.2
    | succ k => exact ih filled.2 (by omega)

theorem filled_empty (level : Nat) : Filled entry fanout node used level 0 0 := by
  cases level <;> rfl

theorem rowFilled_leaves {roots : List Nat} {count : Nat} (short : count ≤ roots.length)
    (first : ∀ k, k < count → used (roots.getD k 0))
    (rest : ∀ k, count ≤ k → k < roots.length → roots.getD k 0 = 0) :
    RowFilled (Filled entry fanout node used 0) 1 roots count := by
  induction roots generalizing count with
  | nil => exact Nat.le_zero.mp short
  | cons root roots ih =>
    cases count with
    | zero =>
      have zero : root = 0 := rest 0 (Nat.le_refl 0) (Nat.succ_pos _)
      refine ⟨zero, ih (Nat.zero_le _) (fun k low => absurd low (Nat.not_lt_zero k)) ?_⟩
      intro k low inside
      exact rest (k + 1) (Nat.zero_le _) (Nat.succ_lt_succ inside)
    | succ count =>
      constructor
      · rw [Nat.min_eq_right (by omega)]
        exact ⟨rfl, first 0 (Nat.succ_pos _)⟩
      · apply ih (Nat.le_of_succ_le_succ short)
        · intro k low
          exact first (k + 1) (Nat.succ_lt_succ low)
        · intro k low inside
          exact rest (k + 1) (Nat.succ_le_succ low) (Nat.succ_lt_succ inside)

theorem range_map_split {whole first second : Nat → Nat} {size : Nat} (count : Nat)
    (before : ∀ i, i < size → whole i = first i) (behind : ∀ i, whole (size + i) = second i) :
    (List.range count).map whole =
      (List.range (min count size)).map first ++ (List.range (count - size)).map second := by
  by_cases inside : count ≤ size
  · rw [Nat.min_eq_left inside, Nat.sub_eq_zero_of_le inside, List.range_zero, List.map_nil,
      List.append_nil]
    apply List.map_congr_left
    intro i member
    exact before i (by have := List.mem_range.mp member; omega)
  · have split : count = size + (count - size) := by omega
    rw [Nat.min_eq_right (by omega), split, List.range_add, List.map_append, List.map_map,
      Nat.add_sub_cancel_left]
    congr 1
    · apply List.map_congr_left
      intro i member
      exact before i (List.mem_range.mp member)
    · apply List.map_congr_left
      intro i _
      exact behind i

theorem row_split (positive : 0 < fanout) (level root : Nat) (rest : List Nat) (count : Nat) :
    (List.range count).map (rowLeaf entry fanout level (root :: rest)) =
      (List.range (min count (fanout ^ level))).map (leaf entry fanout level root) ++
        (List.range (count - fanout ^ level)).map (rowLeaf entry fanout level rest) :=
  range_map_split count (fun _ inside => (row_first inside).1) (fun _ => (row_rest positive).1)

theorem forest_split (level : Nat) (roots : List Nat) (rest : Forest) (count : Nat) :
    (List.range count).map (forestLeaf entry fanout ((level, roots) :: rest)) =
      (List.range (min count (rowSize fanout level roots))).map
        (rowLeaf entry fanout level roots) ++
        (List.range (count - rowSize fanout level roots)).map (forestLeaf entry fanout rest) := by
  apply range_map_split count
  · intro i inside
    exact (forest_first inside).1
  · intro i
    rw [(forest_rest (Nat.le_add_right _ _)).1, Nat.add_sub_cancel_left]

end PointerTree
