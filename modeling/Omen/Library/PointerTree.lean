import Mathlib.Data.List.GetD
import Mathlib.Tactic.Ring

/- Radix trees of pointers. A node at level `n + 1` holds `fanout` pointers to nodes
   of level `n`; a node at level 0 is a leaf and is its own pointer. Nothing here
   says where the pointers are stored: `entry` reads pointer `k` of node `b`. -/
namespace PointerTree

variable (entry : Nat → Nat → Nat) (fanout : Nat)

def leaf : Nat → Nat → Nat → Nat
  | 0, root, _ => root
  | level + 1, root, i =>
      leaf level (entry root (i / fanout ^ level)) (i % fanout ^ level)

def path : Nat → Nat → Nat → List Nat
  | 0, _, _ => []
  | level + 1, root, i =>
      root :: path level (entry root (i / fanout ^ level)) (i % fanout ^ level)

def Mapped (valid : Nat → Prop) (level root i : Nat) : Prop :=
  (∀ b ∈ path entry fanout level root i, valid b) ∧ valid (leaf entry fanout level root i)

def rowLeaf (level : Nat) (roots : List Nat) (i : Nat) : Nat :=
  leaf entry fanout level (roots.getD (i / fanout ^ level) 0) (i % fanout ^ level)

def RowMapped (valid : Nat → Prop) (level : Nat) (roots : List Nat) (i : Nat) : Prop :=
  Mapped entry fanout valid level (roots.getD (i / fanout ^ level) 0) (i % fanout ^ level)

variable {entry fanout} {valid : Nat → Prop} {level root i : Nat} {roots : List Nat}

theorem leaf_congr {other : Nat → Nat → Nat}
    (same : ∀ b ∈ path entry fanout level root i, other b = entry b) :
    leaf other fanout level root i = leaf entry fanout level root i ∧
      path other fanout level root i = path entry fanout level root i := by
  induction level generalizing root i with
  | zero => exact ⟨rfl, rfl⟩
  | succ level ih =>
    have here : other root = entry root := same root (by simp [path])
    have below := @ih (entry root (i / fanout ^ level)) (i % fanout ^ level)
      (fun b member => same b (by simp [path, member]))
    simp only [leaf, path, here]
    exact ⟨below.1, by rw [below.2]⟩

theorem mapped_root (mapped : Mapped entry fanout valid level root i) : valid root := by
  cases level with
  | zero => exact mapped.2
  | succ level => exact mapped.1 root (by simp [path])

theorem mapped_child (mapped : Mapped entry fanout valid (level + 1) root i) :
    Mapped entry fanout valid level (entry root (i / fanout ^ level)) (i % fanout ^ level) :=
  ⟨fun b member => mapped.1 b (by simp [path, member]), mapped.2⟩

theorem row_first (inside : i < fanout ^ level) :
    rowLeaf entry fanout level (root :: roots) i = leaf entry fanout level root i ∧
      ∀ valid, RowMapped entry fanout valid level (root :: roots) i ↔
        Mapped entry fanout valid level root i := by
  have zero : i / fanout ^ level = 0 := Nat.div_eq_of_lt inside
  have whole : i % fanout ^ level = i := Nat.mod_eq_of_lt inside
  constructor
  · rw [rowLeaf, zero, whole]; rfl
  · intro valid; rw [RowMapped, zero, whole]; rfl

theorem row_rest (positive : 0 < fanout) :
    rowLeaf entry fanout level (root :: roots) (fanout ^ level + i) =
        rowLeaf entry fanout level roots i ∧
      ∀ valid, RowMapped entry fanout valid level (root :: roots) (fanout ^ level + i) ↔
        RowMapped entry fanout valid level roots i := by
  have size : 0 < fanout ^ level := Nat.pow_pos positive
  have next : (fanout ^ level + i) / fanout ^ level = i / fanout ^ level + 1 := by
    rw [Nat.add_comm, Nat.add_div_right i size]
  have place : (fanout ^ level + i) % fanout ^ level = i % fanout ^ level := by
    rw [Nat.add_mod_left]
  constructor
  · rw [rowLeaf, rowLeaf, next, place]; rfl
  · intro valid; rw [RowMapped, RowMapped, next, place]; rfl

theorem row_children (inside : i < fanout ^ (level + 1)) :
    rowLeaf entry fanout level ((List.range fanout).map (entry root)) i =
        leaf entry fanout (level + 1) root i ∧
      (Mapped entry fanout valid (level + 1) root i →
        RowMapped entry fanout valid level ((List.range fanout).map (entry root)) i) := by
  have slot : i / fanout ^ level < fanout := by
    rw [Nat.pow_succ, Nat.mul_comm] at inside
    exact Nat.div_lt_of_lt_mul (by rw [Nat.mul_comm]; exact inside)
  have child : ((List.range fanout).map (entry root)).getD (i / fanout ^ level) 0 =
      entry root (i / fanout ^ level) := by
    simp [List.getD, slot]
  constructor
  · rw [rowLeaf, child]; rfl
  · intro mapped
    rw [RowMapped, child]
    exact mapped_child mapped

theorem leaf_self (self : ∀ k, k < fanout → entry root k = root) (inside : i < fanout ^ level) :
    leaf entry fanout level root i = root ∧ ∀ b ∈ path entry fanout level root i, b = root := by
  induction level generalizing i with
  | zero => simp [leaf, path]
  | succ level ih =>
    have slot : i / fanout ^ level < fanout := Nat.div_lt_of_lt_mul (by rwa [← Nat.pow_succ])
    have size : 0 < fanout ^ level := Nat.pow_pos (Nat.zero_lt_of_lt slot)
    have below := ih (Nat.mod_lt i size)
    simp only [leaf, path, self _ slot, List.mem_cons, forall_eq_or_imp, true_and]
    exact below

def rowSize (fanout level : Nat) (roots : List Nat) : Nat := roots.length * fanout ^ level

theorem rowSize_nil (level : Nat) : rowSize fanout level [] = 0 := by
  simp [rowSize]

theorem rowSize_cons (level root : Nat) (roots : List Nat) :
    rowSize fanout level (root :: roots) = fanout ^ level + rowSize fanout level roots := by
  rw [rowSize, rowSize, List.length_cons, Nat.add_mul, Nat.one_mul, Nat.add_comm]

theorem rowSize_children (level root : Nat) :
    rowSize fanout level ((List.range fanout).map (entry root)) = fanout ^ (level + 1) := by
  rw [rowSize, List.length_map, List.length_range, Nat.pow_succ, Nat.mul_comm]

theorem rowSize_leaves (roots : List Nat) : rowSize fanout 0 roots = roots.length := by
  simp [rowSize]

theorem row_leaves (roots : List Nat) (i : Nat) :
    rowLeaf entry fanout 0 roots i = roots.getD i 0 ∧
      ∀ valid, RowMapped entry fanout valid 0 roots i ↔ valid (roots.getD i 0) := by
  constructor
  · simp [rowLeaf, leaf]
  · intro valid
    simp [RowMapped, Mapped, path, leaf]

abbrev Forest := List (Nat × List Nat)

variable {rest : Forest}

def forestSize (fanout : Nat) : Forest → Nat
  | [] => 0
  | (level, roots) :: rest => rowSize fanout level roots + forestSize fanout rest

def forestLeaf (entry : Nat → Nat → Nat) (fanout : Nat) : Forest → Nat → Nat
  | [], _ => 0
  | (level, roots) :: rest, i =>
    if i < rowSize fanout level roots then rowLeaf entry fanout level roots i
    else forestLeaf entry fanout rest (i - rowSize fanout level roots)

def ForestMapped (entry : Nat → Nat → Nat) (fanout : Nat) (valid : Nat → Prop) :
    Forest → Nat → Prop
  | [], _ => False
  | (level, roots) :: rest, i =>
    if i < rowSize fanout level roots then RowMapped entry fanout valid level roots i
    else ForestMapped entry fanout valid rest (i - rowSize fanout level roots)

theorem forest_first (inside : i < rowSize fanout level roots) :
    forestLeaf entry fanout ((level, roots) :: rest) i = rowLeaf entry fanout level roots i ∧
      ∀ valid, ForestMapped entry fanout valid ((level, roots) :: rest) i ↔
        RowMapped entry fanout valid level roots i := by
  simp [forestLeaf, ForestMapped, inside]

theorem forest_rest (far : rowSize fanout level roots ≤ i) :
    forestLeaf entry fanout ((level, roots) :: rest) i =
        forestLeaf entry fanout rest (i - rowSize fanout level roots) ∧
      ∀ valid, ForestMapped entry fanout valid ((level, roots) :: rest) i ↔
        ForestMapped entry fanout valid rest (i - rowSize fanout level roots) := by
  have no : ¬ i < rowSize fanout level roots := by omega
  simp [forestLeaf, ForestMapped, no]

theorem rowSize_tree (level root : Nat) : rowSize fanout level [root] = fanout ^ level := by
  simp [rowSize]

def rowPath (entry : Nat → Nat → Nat) (fanout level : Nat) (roots : List Nat) (i : Nat) :
    List Nat :=
  path entry fanout level (roots.getD (i / fanout ^ level) 0) (i % fanout ^ level)

def forestPath (entry : Nat → Nat → Nat) (fanout : Nat) : Forest → Nat → List Nat
  | [], _ => []
  | (level, roots) :: rest, i =>
    if i < rowSize fanout level roots then rowPath entry fanout level roots i
    else forestPath entry fanout rest (i - rowSize fanout level roots)

theorem rowPath_first (inside : i < fanout ^ level) :
    rowPath entry fanout level (root :: roots) i = path entry fanout level root i := by
  rw [rowPath, Nat.div_eq_of_lt inside, Nat.mod_eq_of_lt inside]
  rfl

theorem rowPath_rest (positive : 0 < fanout) :
    rowPath entry fanout level (root :: roots) (fanout ^ level + i) =
      rowPath entry fanout level roots i := by
  have size : 0 < fanout ^ level := Nat.pow_pos positive
  rw [rowPath, rowPath, Nat.add_comm, Nat.add_div_right i size, Nat.add_mod_right]
  rfl

theorem rowPath_children (inside : i < fanout ^ (level + 1)) :
    path entry fanout (level + 1) root i =
      root :: rowPath entry fanout level ((List.range fanout).map (entry root)) i := by
  have slot : i / fanout ^ level < fanout := Nat.div_lt_of_lt_mul (by rwa [← Nat.pow_succ])
  have child : ((List.range fanout).map (entry root)).getD (i / fanout ^ level) 0 =
      entry root (i / fanout ^ level) := by
    simp [List.getD, slot]
  rw [rowPath, child]
  rfl

theorem row_congr {other : Nat → Nat → Nat}
    (same : ∀ b ∈ rowPath entry fanout level roots i, other b = entry b) :
    rowLeaf other fanout level roots i = rowLeaf entry fanout level roots i ∧
      rowPath other fanout level roots i = rowPath entry fanout level roots i :=
  leaf_congr same

theorem forest_congr {other : Nat → Nat → Nat} {rows : Forest} {i : Nat}
    (same : ∀ b ∈ forestPath entry fanout rows i, other b = entry b) :
    forestLeaf other fanout rows i = forestLeaf entry fanout rows i ∧
      forestPath other fanout rows i = forestPath entry fanout rows i := by
  induction rows generalizing i with
  | nil => exact ⟨rfl, rfl⟩
  | cons row rest ih =>
    obtain ⟨level, roots⟩ := row
    simp only [forestLeaf, forestPath] at same ⊢
    split
    · rename_i inside
      rw [if_pos inside] at same
      exact row_congr same
    · rename_i outside
      rw [if_neg outside] at same
      exact ih same

theorem leaf_bound {bound : Nat} (below : ∀ b k, entry b k < bound)
    (start : root < bound) : leaf entry fanout level root i < bound := by
  induction level generalizing root i with
  | zero => exact start
  | succ level ih => exact ih (below _ _)

theorem forestPath_first (inside : i < rowSize fanout level roots) :
    forestPath entry fanout ((level, roots) :: rest) i = rowPath entry fanout level roots i := by
  simp [forestPath, inside]

theorem forestPath_rest (far : rowSize fanout level roots ≤ i) :
    forestPath entry fanout ((level, roots) :: rest) i =
      forestPath entry fanout rest (i - rowSize fanout level roots) := by
  have no : ¬ i < rowSize fanout level roots := by omega
  simp [forestPath, no]

theorem forest_tree (inside : i < fanout ^ level) :
    forestLeaf entry fanout ((level, [root]) :: rest) i = leaf entry fanout level root i ∧
      forestPath entry fanout ((level, [root]) :: rest) i = path entry fanout level root i := by
  have row : i < rowSize fanout level [root] := by rwa [rowSize_tree]
  rw [(forest_first row).1, forestPath_first row, (row_first inside).1, rowPath_first inside]
  exact ⟨rfl, rfl⟩

theorem forestMapped_iff {rows : Forest} {i : Nat} (inside : i < forestSize fanout rows) :
    ForestMapped entry fanout valid rows i ↔
      (∀ b ∈ forestPath entry fanout rows i, valid b) ∧ valid (forestLeaf entry fanout rows i) := by
  induction rows generalizing i with
  | nil => exact absurd inside (Nat.not_lt_zero i)
  | cons row rest ih =>
    obtain ⟨level, roots⟩ := row
    rw [forestSize] at inside
    simp only [ForestMapped, forestPath, forestLeaf]
    by_cases first : i < rowSize fanout level roots
    · rw [if_pos first, if_pos first, if_pos first]
      rfl
    · rw [if_neg first, if_neg first, if_neg first]
      exact ih (by omega)

theorem forest_drop {first : Nat} (near : first ≤ roots.length) (k : Nat) :
    forestLeaf entry fanout ((0, roots.drop first) :: rest) k =
        forestLeaf entry fanout ((0, roots) :: rest) (first + k) ∧
      forestPath entry fanout ((0, roots.drop first) :: rest) k =
        forestPath entry fanout ((0, roots) :: rest) (first + k) := by
  have whole : rowSize fanout 0 roots = roots.length := rowSize_leaves roots
  have less : rowSize fanout 0 (roots.drop first) = (roots.drop first).length :=
    rowSize_leaves _
  rw [List.length_drop] at less
  by_cases inside : first + k < roots.length
  · have row : k < rowSize fanout 0 (roots.drop first) := by omega
    have row' : first + k < rowSize fanout 0 roots := by omega
    rw [(forest_first row).1, (forest_first row').1, forestPath_first row, forestPath_first row',
      (row_leaves _ _).1, (row_leaves _ _).1]
    simp [List.getD, rowPath, path]
  · have shift : k - rowSize fanout 0 (roots.drop first) =
        first + k - rowSize fanout 0 roots := by omega
    rw [(forest_rest (by omega)).1, (forest_rest (by omega)).1, forestPath_rest (by omega),
      forestPath_rest (by omega), shift]
    exact ⟨rfl, rfl⟩

/-- The first `n` leaves can be rewritten one after the other without touching a pointer
    on the way to any of them: all nodes are in `valid`, the leaves differ from each other
    and from the inner nodes. -/
structure Separate (leafAt : Nat → Nat) (pathAt : Nat → List Nat) (valid : Nat → Prop)
    (n : Nat) : Prop where
  leaf_valid : ∀ {i}, i < n → valid (leafAt i)
  path_valid : ∀ {i}, i < n → ∀ b ∈ pathAt i, valid b
  distinct : ∀ {i j}, i < n → j < n → i ≠ j → leafAt i ≠ leafAt j
  apart : ∀ {i j}, i < n → j < n → leafAt i ∉ pathAt j

theorem Separate.part {leafAt leafAt' : Nat → Nat} {pathAt pathAt' : Nat → List Nat}
    {n m : Nat} (first : Nat) (separate : Separate leafAt pathAt valid n)
    (fits : first + m ≤ n) (sameLeaf : ∀ i, i < m → leafAt' i = leafAt (first + i))
    (lessPath : ∀ i, i < m → ∀ b ∈ pathAt' i, b ∈ pathAt (first + i)) :
    Separate leafAt' pathAt' valid m where
  leaf_valid := fun low => by
    rw [sameLeaf _ low]
    exact separate.leaf_valid (by omega)
  path_valid := fun low b member => separate.path_valid (by omega) b (lessPath _ low b member)
  distinct := fun {i j} low high other => by
    rw [sameLeaf i low, sameLeaf j high]
    exact separate.distinct (by omega) (by omega) (by omega)
  apart := fun {i j} low high member => by
    rw [sameLeaf i low] at member
    exact separate.apart (by omega) (by omega) (lessPath j high _ member)

end PointerTree
