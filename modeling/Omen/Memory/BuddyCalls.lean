import Omen.Memory.BuddyBlocks
import Mathlib.Algebra.BigOperators.Group.Finset.Basic
import Mathlib.Algebra.BigOperators.Intervals

/- What the two calls of the buddy allocator do to the tree of blocks: `buddy_level_alloc`
   halves a free block until it has the wanted size, `buddy_level_free` joins a block with its
   buddies as long as these are free. -/
namespace OmenMemory
open BuddyTree Status Words

/-- An allocator in memory stands for a tree. A call may have a live block in hand, whose pair
    counts it as unused, and one whose split bit it has yet to clear. -/
structure Stands (g : BuddyShape) (e : Nat) (nodes : Nat → Prop) (st : Nat → Status) (s : Buddy)
    (lists : Nat → List Nat) (held dirty : Nat) : Prop where
  shape : s.toBuddyShape = g
  tree : Tree g.num_levels st
  joined : NoFreePair st
  free : FreeLists g e nodes st s.memory lists
  bits : BlockBits (2 ^ (g.num_levels - 1)) st s.block_info held dirty

def freeBytes (g : BuddyShape) (e : Nat) (lists : Nat → List Nat) : Nat :=
  ∑ l ∈ Finset.range g.num_levels, (lists l).length * 2 ^ (e - l)

def halveDown (st : Nat → Status) : Nat → Nat → Nat → Status
  | 0, _ => st
  | count + 1, j => halveDown (halve st j) count (2 * j)

section Operations
variable {g : BuddyShape} {e p l j : Nat} {s : Buddy}

theorem Shaped.two_halves (shaped : Shaped g e p) :
    2 ^ g.num_levels = 2 * 2 ^ (g.num_levels - 1) := by
  have levels := shaped.levels
  rw [← Nat.pow_succ']
  congr 1
  omega

theorem blockInfoLen_eq (levels : Nat) : buddyBlockInfoLen levels = 2 ^ levels := rfl

theorem Buddy.onBit_inside {operation : BitmapWords → Nat → BitmapWords} {index : Nat}
    (inside : index < 2 * 2 ^ s.num_levels) :
    s.onBit operation index = some { s with block_info := operation s.block_info index } := by
  refine if_pos ?_
  rw [blockInfoLen_eq, bitmapNumBits]
  omega

theorem Buddy.getBit_inside {index : Nat} (inside : index < 2 * 2 ^ s.num_levels) :
    s.getBit index = some (bitmapGet s.block_info index) := by
  refine if_pos ?_
  rw [blockInfoLen_eq, bitmapNumBits]
  omega

theorem Shaped.splitBit_inside (shaped : Shaped g e p) (shape : s.toBuddyShape = g)
    (level : At l j) (low : l < g.num_levels) :
    s.splitBit (j - 1) = j - 1 + 2 ^ (g.num_levels - 1) ∧
      s.splitBit (j - 1) < 2 * 2 ^ s.num_levels := by
  have below := level.below low
  have halves := shaped.two_halves
  rw [shape, shaped.splitBit]
  exact ⟨rfl, by omega⟩

theorem Shaped.freeBit (shaped : Shaped g e p) (level : At (l + 1) j)
    (low : l + 1 < g.num_levels) : freeBit (j - 1) = j / 2 - 1 ∧ j / 2 - 1 < 2 ^ g.num_levels := by
  have below := level.below low
  have levels := shaped.levels
  have wide := shaped.wide
  have small : 2 ^ g.num_levels ≤ 2 ^ 64 := Nat.pow_le_pow_right (by decide) (by omega)
  exact ⟨freeBit_node level.two_le (by omega), by omega⟩

theorem Shaped.toggleFree (shaped : Shaped g e p) (shape : s.toBuddyShape = g) (level : At l j)
    (low : l < g.num_levels) :
    s.toggleFree (j - 1) l = some { s with block_info := togglePair s.block_info j } := by
  unfold Buddy.toggleFree
  cases l with
  | zero =>
    have root : ¬ 2 ≤ j := by
      have high := level.2
      omega
    rw [if_neg (Nat.lt_irrefl 0), togglePair, if_neg root]
  | succ l =>
    obtain ⟨bit, inside⟩ := shaped.freeBit level low
    rw [if_pos (Nat.succ_pos l), bit, togglePair, if_pos level.two_le]
    exact Buddy.onBit_inside (by rw [shape]; omega)

end Operations

section Weights
variable {g : BuddyShape} {e l : Nat} {lists : Nat → List Nat}

theorem freeBytes_update (low : l < g.num_levels) (new : List Nat) :
    freeBytes g e (Function.update lists l new) + (lists l).length * 2 ^ (e - l) =
      freeBytes g e lists + new.length * 2 ^ (e - l) := by
  have member : l ∈ Finset.range g.num_levels := Finset.mem_range.mpr low
  have rest : ∑ k ∈ (Finset.range g.num_levels).erase l,
      (Function.update lists l new k).length * 2 ^ (e - k) =
      ∑ k ∈ (Finset.range g.num_levels).erase l, (lists k).length * 2 ^ (e - k) := by
    refine Finset.sum_congr rfl ?_
    intro k other
    rw [Function.update_of_ne (Finset.ne_of_mem_erase other)]
  unfold freeBytes
  rw [← Finset.add_sum_erase _ _ member, ← Finset.add_sum_erase _ _ member, rest,
    Function.update_self]
  omega

end Weights

section Allocation
variable {g : BuddyShape} {e p l j : Nat} {nodes : Nat → Prop} {st : Nat → Status} {s : Buddy}
  {lists : Nat → List Nat}

def splitOnce (s : Buddy) (e l j : Nat) : Buddy :=
  { s with
    block_info := togglePair (bitmapSet s.block_info (j - 1 + 2 ^ (s.num_levels - 1))) j
    memory := listAdd s.memory (s.place e (l + 1) (2 * j + 1)) (s.head (l + 1)) }

theorem Stands.splitOnce (stands : Stands g e nodes st s lists j 0) (shaped : Shaped g e p)
    (site : Site g nodes) (level : At l j) (low : l + 1 < g.num_levels) (here : st j = live)
    (isNode : nodes (g.place e (l + 1) (2 * j + 1))) :
    Stands g e nodes (halve st j) (splitOnce s e l j)
      (Function.update lists (l + 1) (g.place e (l + 1) (2 * j + 1) :: lists (l + 1)))
      (2 * j) 0 := by
  have tree := stands.tree
  have some := level.one_le
  have below : j < 2 ^ (g.num_levels - 1) := level.below (by omega)
  have room : 2 * j < 2 ^ g.num_levels := by
    rw [shaped.two_halves]
    omega
  have whole : st j ≠ split := by
    rw [here]
    decide
  have left := tree.childless whole some (c := 2 * j) (by omega)
  have right := tree.childless whole some (c := 2 * j + 1) (by omega)
  refine ⟨stands.shape, tree.halve here room, stands.joined.halve j, ?_, ?_⟩
  · have right_at := level.child (c := 2 * j + 1) (by omega)
    have fresh : ∀ m < g.num_levels, g.place e (l + 1) (2 * j + 1) ∉ lists m := by
      intro m small member
      have start := offset_right level (shaped.deep low)
      have power := power_half (shaped.deep low)
      have positive : 0 < 2 ^ (e - (l + 1)) := Nat.pow_pos (by decide)
      have isFree := (stands.free.unlisted shaped tree level (by omega) (Or.inr here)
        (by omega) (by omega) small member).2
      rw [here] at isFree
      cases isFree
    have added : FreeLists g e nodes (halve st j) _ _ :=
      stands.free.add shaped tree site low right_at isNode fresh (by
        intro i
        rw [halve_apply]
        grind)
    rw [← stands.shape] at added ⊢
    exact added
  · have bits := stands.bits.halve some below left right
    rw [← stands.shape] at bits ⊢
    exact bits

theorem Shaped.splitDown_succ (shaped : Shaped g e p) (shape : s.toBuddyShape = g)
    (level : At l j) (low : l + 1 < g.num_levels) (count : Nat) :
    Buddy.splitDown (g.place e l j) (count + 1) l (j - 1) s =
      Buddy.splitDown (g.place e l j) count (l + 1) (2 * j - 1) (splitOnce s e l j) := by
  subst shape
  have some := level.one_le
  obtain ⟨bit, inside⟩ := shaped.splitBit_inside rfl level (Nat.lt_of_succ_lt low)
  have buddy := shaped.toBuddy_left level low
  rw [shaped.place_left low] at buddy
  have index : 2 * (j - 1) + 1 = 2 * j - 1 := by omega
  have toggled := fun info => shaped.toggleFree (s := { s with block_info := info }) rfl level
    (Nat.lt_of_succ_lt low)
  rw [bit] at inside
  rw [Buddy.splitDown, bit, Buddy.onBit_inside inside, Option.bind_eq_bind, Option.bind_some,
    toggled, Option.bind_some, index]
  dsimp only
  rw [buddy]
  rfl

theorem Stands.splitDown (count : Nat) (stands : Stands g e nodes st s lists j 0)
    (shaped : Shaped g e p) (site : Site g nodes) (level : At l j)
    (low : l + count < g.num_levels) (here : st j = live)
    (near : ∀ k, l < k → k ≤ l + count → nodes (g.place e l j + g.size >>> k)) :
    ∃ s' lists', Buddy.splitDown (g.place e l j) count l (j - 1) s =
        some (j * 2 ^ count - 1, s') ∧
      At (l + count) (j * 2 ^ count) ∧ g.place e (l + count) (j * 2 ^ count) = g.place e l j ∧
      Stands g e nodes (halveDown st count j) s' lists' (j * 2 ^ count) 0 ∧
      halveDown st count j (j * 2 ^ count) = live ∧
      freeBytes g e lists' + 2 ^ (e - (l + count)) = freeBytes g e lists + 2 ^ (e - l) := by
  induction count generalizing l j s st lists with
  | zero =>
    rw [Nat.pow_zero, Nat.mul_one, Nat.add_zero]
    exact ⟨s, lists, rfl, level, rfl, stands, here, rfl⟩
  | succ count ih =>
    have deep : l + 1 < g.num_levels := by omega
    have sizeRight := shaped.place_right level deep
    have sizeLeft := @Shaped.place_left g e p l j shaped deep
    have isNode : nodes (g.place e (l + 1) (2 * j + 1)) := by
      rw [sizeRight]
      exact near (l + 1) (by omega) (by omega)
    have once := stands.splitOnce shaped site level deep here isNode
    have kept : halve st j (2 * j) = live := by
      rw [halve_apply, if_neg (by omega), if_pos rfl]
    have left_at := level.child (c := 2 * j) (by omega)
    obtain ⟨s', lists', run, at_end, place_end, stands', live_end, bytes⟩ :=
      ih once left_at (by omega) kept (by
        intro k low high
        rw [sizeLeft]
        exact near k (by omega) (by omega))
    have index : 2 * j * 2 ^ count = j * 2 ^ (count + 1) := by
      rw [Nat.pow_succ, Nat.mul_comm 2 j, Nat.mul_assoc, Nat.mul_comm 2]
    have height : l + 1 + count = l + (count + 1) := by omega
    rw [index, height] at at_end place_end
    rw [index] at stands' live_end run
    rw [sizeLeft] at place_end run
    refine ⟨s', lists', ?_, at_end, place_end, stands', live_end, ?_⟩
    · rw [shaped.splitDown_succ stands.shape level deep, run]
    · have update := @freeBytes_update g e _ lists deep
        (g.place e (l + 1) (2 * j + 1) :: lists (l + 1))
      have power := power_half (shaped.deep deep)
      rw [List.length_cons, Nat.add_mul, Nat.one_mul] at update
      rw [height] at bytes
      omega

theorem Stands.listEmpty_iff (stands : Stands g e nodes st s lists 0 0) (site : Site g nodes)
    (low : l < g.num_levels) : listEmpty s.memory (s.head l) = true ↔ lists l = [] := by
  have ring := stands.free.ring l low
  rw [stands.shape]
  exact ring.empty_iff (stands.free.head_outside site low low)

theorem Stands.findLevel (stands : Stands g e nodes st s lists 0 0) (site : Site g nodes)
    {level : Nat} (low : level < g.num_levels) :
    (s.findLevel level = none ∧ ∀ l ≤ level, lists l = []) ∨
      ∃ b ≤ level, s.findLevel level = some b ∧ lists b ≠ [] ∧
        ∀ k, b < k → k ≤ level → lists k = [] := by
  induction level with
  | zero =>
    have empty := stands.listEmpty_iff site low
    rw [Buddy.findLevel]
    split
    · rename_i none
      left
      refine ⟨rfl, ?_⟩
      intro l zero
      rw [Nat.le_zero.mp zero]
      exact empty.mp none
    · rename_i some
      exact Or.inr ⟨0, Nat.le_refl 0, rfl, fun none => some (empty.mpr none),
        fun k low high => by omega⟩
  | succ level ih =>
    have empty := stands.listEmpty_iff site low
    rw [Buddy.findLevel]
    split
    · rename_i none
      have here := empty.mp none
      have upTo : ∀ k ≤ level + 1, k ≤ level ∨ lists k = [] := by
        intro k high
        by_cases top : k = level + 1
        · exact Or.inr (top ▸ here)
        · exact Or.inl (by omega)
      rcases ih (by omega) with ⟨missing, all⟩ | ⟨b, less, found, some, between⟩
      · left
        exact ⟨missing, fun l high => (upTo l high).elim (all l) id⟩
      · right
        exact ⟨b, by omega, found, some, fun k low high => (upTo k high).elim (between k low) id⟩
    · rename_i some
      exact Or.inr ⟨level + 1, Nat.le_refl _, rfl, fun none => some (empty.mpr none),
        fun k low high => by omega⟩

theorem Stands.take (stands : Stands g e nodes st s lists 0 0) (shaped : Shaped g e p)
    (site : Site g nodes) (low : l < g.num_levels) (level : At l j) {rest : List Nat}
    (first : lists l = g.place e l j :: rest) :
    st j = Status.free ∧
    Stands g e nodes (Function.update st j live)
      { s with memory := listDel s.memory (g.place e l j) } (Function.update lists l rest) j 0 ∧
    freeBytes g e (Function.update lists l rest) + 2 ^ (e - l) = freeBytes g e lists := by
  have isFree : st j = Status.free := by
    obtain ⟨i, at_i, isFree, same⟩ := (stands.free.listed l low (g.place e l j)).mp
      (first ▸ List.mem_cons_self)
    rw [place_inj level at_i same]
    exact isFree
  have removed : FreeLists g e nodes (Function.update st j live) _
      (Function.update lists l ([] ++ rest)) :=
    stands.free.remove shaped stands.tree site low level first (by
      intro i
      rw [Function.update_apply]
      grind)
  have update := @freeBytes_update g e l lists low rest
  rw [first, List.length_cons, Nat.add_mul, Nat.one_mul] at update
  refine ⟨isFree, ⟨stands.shape, stands.tree.relabel (Or.inl isFree) (Or.inr rfl),
    stands.joined.take j, removed, stands.bits.take isFree⟩, by omega⟩

theorem Stands.settle (stands : Stands g e nodes st s lists j 0) (shaped : Shaped g e p)
    (level : At l j) (low : l < g.num_levels) (here : st j = live) :
    Stands g e nodes st { s with block_info := togglePair s.block_info j } lists 0 0 := by
  have below := level.below low
  rw [shaped.two_halves] at below
  exact ⟨stands.shape, stands.tree, stands.joined, stands.free,
    stands.bits.settle level.one_le below here⟩

/-- `buddy_level_alloc` takes the nearest free block that is large enough, or returns NULL. -/
theorem Stands.levelAlloc (stands : Stands g e nodes st s lists 0 0) (shaped : Shaped g e p)
    (site : Site g nodes) {level : Nat} (low : level < g.num_levels)
    (near : ∀ b i, At b i → st i = Status.free → (∀ k, b < k → k ≤ level → lists k = []) →
      ∀ k, b < k → k ≤ level → nodes (g.place e b i + g.size >>> k)) :
    (s.levelAlloc level = some (none, s) ∧ ∀ l ≤ level, lists l = []) ∨
      ∃ b i s' lists', b ≤ level ∧ At b i ∧ st i = Status.free ∧
        (∀ k, b < k → k ≤ level → lists k = []) ∧
        s.levelAlloc level = some (some (g.place e b i), s') ∧
        At level (i * 2 ^ (level - b)) ∧
        g.place e level (i * 2 ^ (level - b)) = g.place e b i ∧
        Stands g e nodes (halveDown (Function.update st i live) (level - b) i) s' lists' 0 0 ∧
        freeBytes g e lists' + 2 ^ (e - level) = freeBytes g e lists := by
  rcases stands.findLevel site low with ⟨missing, empty⟩ | ⟨b, less, found, nonempty, between⟩
  · left
    refine ⟨?_, empty⟩
    rw [Buddy.levelAlloc, missing]
  · right
    have small : b < g.num_levels := by omega
    obtain ⟨a, rest, first⟩ := List.exists_cons_of_ne_nil nonempty
    obtain ⟨i, at_i, _, rfl⟩ := (stands.free.listed b small a).mp (first ▸ List.mem_cons_self)
    obtain ⟨isFree, taken, popped⟩ := stands.take shaped site small at_i first
    obtain ⟨s', lists', run, at_end, place_end, split, live_end, bytes⟩ :=
      taken.splitDown (level - b) shaped site at_i (by omega) (Function.update_self i live st)
        (fun k below high => near b i at_i isFree between k below (by omega))
    have height : b + (level - b) = level := by omega
    rw [height] at at_end place_end bytes
    have ring := stands.free.ring b small
    rw [first] at ring
    have head : s.memory.next (s.head b) = g.place e b i := by
      rw [stands.shape]
      exact ring.first
    have index : s.blockIndex (g.place e b i) b = i - 1 := by
      rw [stands.shape]
      exact shaped.blockIndex at_i small
    refine ⟨b, i, { s' with block_info := togglePair s'.block_info (i * 2 ^ (level - b)) }, lists',
      less, at_i, isFree, between, ?_, at_end, place_end,
      split.settle shaped at_end low live_end, by omega⟩
    rw [Buddy.levelAlloc, found]
    dsimp only
    rw [head]
    change (Buddy.splitDown (g.place e b i) (level - b) b (s.blockIndex (g.place e b i) b)
      { s with memory := listDel s.memory (g.place e b i) }).bind _ = _
    rw [index, run, Option.bind_some, shaped.toggleFree split.shape at_end low]
    rfl

end Allocation

section Release
variable {g : BuddyShape} {e p l c : Nat} {nodes : Nat → Prop} {st : Nat → Status} {s : Buddy}
  {lists : Nat → List Nat}

def mergeOnce (s : Buddy) (e l c : Nat) : Buddy :=
  { s with
    block_info := togglePair (bitmapClear s.block_info (c - 1 + 2 ^ (s.num_levels - 1))) (c / 2)
    memory := listDel s.memory (s.place e (l + 1) (sibling c)) }

theorem joinLevel_join {i : Nat} (level : At l i) :
    joinLevel (join st i) l i = joinLevel st l i := by
  have same : ∀ k c, At k c → c = i ∨ 2 * c ≤ i →
      joinLevel (join st i) k c = joinLevel st k c := by
    intro k
    induction k with
    | zero =>
      intro c _ _
      rfl
    | succ k ih =>
      intro c at_c above
      have two := at_c.two_le
      have beside : join st i (sibling c) = st (sibling c) := by
        unfold sibling
        rw [join_apply]
        split <;> rw [if_neg (by omega), if_neg (by omega), if_neg (by omega)]
      rw [joinLevel, joinLevel, beside, ih (c / 2) at_c.parent (by omega)]
  exact same l i level (Or.inl rfl)

theorem Shaped.mergeUp_succ (shaped : Shaped g e p) (shape : s.toBuddyShape = g)
    (level : At (l + 1) c) (low : l + 1 < g.num_levels) :
    Buddy.mergeUp (l + 1) (c - 1) (g.place e (l + 1) c) s =
      if bitmapGet s.block_info (c / 2 - 1) then some (l + 1, c - 1, g.place e (l + 1) c, s)
      else Buddy.mergeUp l (c / 2 - 1) (g.place e l (c / 2)) (mergeOnce s e l c) := by
  subst shape
  obtain ⟨bit, inside⟩ := shaped.splitBit_inside rfl level low
  obtain ⟨pair, small⟩ := shaped.freeBit level low
  obtain ⟨buddy, lower⟩ := shaped.buddy level low
  have toggled := fun info memory => shaped.toggleFree
    (s := { s with block_info := info, memory := memory }) rfl level.parent
    (Nat.lt_of_succ_lt low)
  rw [bit] at inside
  rw [Buddy.mergeUp, pair, Buddy.getBit_inside (Nat.lt_of_lt_of_le small (by omega)),
    Option.bind_eq_bind, Option.bind_some]
  split
  · rfl
  · rw [bit, Buddy.onBit_inside inside, Option.bind_eq_bind, Option.bind_some]
    dsimp only
    rw [buddy, lower, toggled, Option.bind_some]
    rfl

section Stands
variable (stands : Stands g e nodes st s lists c c) (shaped : Shaped g e p)
include stands shaped

theorem Stands.buddy_free (level : At (l + 1) c) (low : l + 1 < g.num_levels) (here : st c = live) :
    st (c / 2) = split ∧
      (bitmapGet s.block_info (c / 2 - 1) = false ↔ st (sibling c) = Status.free) := by
  have two := level.two_le
  have below := level.below low
  rw [shaped.two_halves] at below
  have parent : st (c / 2) = split := (stands.tree.child c two).mp (by rw [here]; decide)
  obtain ⟨half, other⟩ := sibling_half c two
  have there : st (sibling c) ≠ absent := by
    refine (stands.tree.child (sibling c) ?_).mpr (half ▸ parent)
    omega
  refine ⟨parent, ?_⟩
  rw [stands.bits.pair_held two below, inUse, decide_eq_false_iff_not]
  cases status : st (sibling c) with
  | absent => exact absurd status there
  | free => simp
  | live => simp [other]
  | split => simp [other]

theorem Stands.mergeOnce (site : Site g nodes) (level : At (l + 1) c) (low : l + 1 < g.num_levels)
    (here : st c = live) (parent : st (c / 2) = split) (buddy : st (sibling c) = Status.free)
    {xs ys : List Nat} (cut : lists (l + 1) = xs ++ g.place e (l + 1) (sibling c) :: ys) :
    Stands g e nodes (join st (c / 2)) (mergeOnce s e l c)
      (Function.update lists (l + 1) (xs ++ ys)) (c / 2) (c / 2) := by
  have two := level.two_le
  obtain ⟨half, other⟩ := sibling_half c two
  have halves : ∀ b, b / 2 = c / 2 → b = c ∨ b = sibling c := by
    intro b same
    by_cases mine : b = c
    · exact Or.inl mine
    · exact Or.inr (sibling_other same mine)
  have unsplit : ∀ b, b / 2 = c / 2 → st b ≠ split := by
    intro b same
    rcases halves b same with rfl | rfl
    · rw [here]
      decide
    · rw [buddy]
      decide
  have below : c / 2 < 2 ^ (g.num_levels - 1) := level.parent.below (by omega)
  refine ⟨stands.shape, stands.tree.join parent (unsplit _ (by omega)) (unsplit _ (by omega)),
    stands.joined.join _, ?_, ?_⟩
  · have removed : FreeLists g e nodes (join st (c / 2)) _ _ :=
      stands.free.remove shaped stands.tree site low (level.parent.child half) cut (by
        intro i
        have left := halves (2 * (c / 2)) (by omega)
        have right := halves (2 * (c / 2) + 1) (by omega)
        rw [join_apply]
        grind)
    rw [← stands.shape] at removed ⊢
    exact removed
  · have bits := stands.bits.join rfl (by omega) below here parent (by
      intro b same mine
      rw [sibling_other same mine]
      exact buddy)
    rw [← stands.shape] at bits ⊢
    exact bits

/-- The merging loop ends with a block whose buddy is not free. -/
theorem Stands.mergeUp (site : Site g nodes) (level : At l c) (low : l < g.num_levels)
    (here : st c = live) (isNode : nodes (g.place e l c)) :
    ∃ m j s' lists' st', Buddy.mergeUp l (c - 1) (g.place e l c) s =
        some (m, j - 1, g.place e m j, s') ∧
      m ≤ l ∧ At m j ∧ st' j = live ∧ nodes (g.place e m j) ∧
      Stands g e nodes st' s' lists' j j ∧
      (2 ≤ j → st' (sibling j) ≠ Status.free) ∧ (j = c ∨ st j = split) ∧
      (∀ i, st' i = live ↔ (st i = live ∧ i ≠ c) ∨ i = j) ∧
      m = joinLevel st l c ∧ lists' m = lists m ∧
      (∀ k, (lists' k).length ≤ (lists k).length) ∧
      freeBytes g e lists' + 2 ^ (e - m) = freeBytes g e lists + 2 ^ (e - l) := by
  induction l generalizing c s st lists with
  | zero =>
    refine ⟨0, c, s, lists, st, rfl, Nat.le_refl 0, level, here, isNode, stands, ?_, Or.inl rfl, ?_,
      rfl, rfl, fun _ => Nat.le_refl _, rfl⟩
    · intro two
      have root := level.2
      omega
    · intro i
      grind
  | succ l ih =>
    obtain ⟨parent, free_iff⟩ := stands.buddy_free shaped level low here
    have step := shaped.mergeUp_succ stands.shape level low
    cases taken : bitmapGet s.block_info (c / 2 - 1) with
    | true =>
      rw [taken, if_pos rfl] at step
      have used : st (sibling c) ≠ Status.free := by
        intro isFree
        rw [free_iff.mpr isFree] at taken
        cases taken
      refine ⟨l + 1, c, s, lists, st, step, Nat.le_refl _, level, here, isNode, stands,
        fun _ => used, Or.inl rfl, ?_, ?_, rfl, fun _ => Nat.le_refl _, rfl⟩
      · intro i
        grind
      · rw [joinLevel, if_neg used]
    | false =>
      have buddy := free_iff.mp taken
      obtain ⟨half, other⟩ := sibling_half c level.two_le
      have sibling_at := level.parent.child half
      obtain ⟨xs, ys, cut⟩ := List.append_of_mem
        ((stands.free.listed (l + 1) low _).mpr ⟨sibling c, sibling_at, buddy, rfl⟩)
      have once := stands.mergeOnce shaped site level low here parent buddy cut
      have whole : join st (c / 2) (c / 2) = live := by
        rw [join_apply, if_neg (by omega), if_neg, if_pos rfl]
        have two := level.two_le
        omega
      have lower : nodes (g.place e l (c / 2)) := by
        have min := (shaped.buddy level low).2
        have listed := stands.free.node (l + 1) low (g.place e (l + 1) (sibling c))
          (by rw [cut]; simp)
        rw [← min]
        split
        · exact listed
        · exact isNode
      obtain ⟨m, j, s', lists', st', run, less, at_j, live_j, node_j, stands', alone, above, lives,
        top, same, lengths, bytes⟩ := ih once level.parent (by omega) whole lower
      rw [taken, if_neg (by decide), run] at step
      refine ⟨m, j, s', lists', st', step, by omega, at_j, live_j, node_j, stands', alone, ?_, ?_,
        ?_, ?_, ?_, ?_⟩
      · right
        rcases above with rfl | isSplit
        · exact parent
        · rw [join_apply] at isSplit
          grind
      · intro i
        rw [lives, join_apply]
        have left := @sibling_other c (2 * (c / 2)) (by omega)
        have right := @sibling_other c (2 * (c / 2) + 1) (by omega)
        grind
      · rw [joinLevel, if_pos buddy, top, joinLevel_join level.parent]
      · rw [same, Function.update_of_ne (by omega)]
      · intro k
        refine Nat.le_trans (lengths k) ?_
        rw [Function.update_apply]
        split
        · rename_i eq
          rw [eq, cut]
          simp
        · exact Nat.le_refl _
      · have update := @freeBytes_update g e (l + 1) lists low (xs ++ ys)
        have power := power_half (shaped.deep low)
        rw [cut, List.length_append, List.length_cons, List.length_append, ← Nat.add_assoc,
          Nat.add_mul _ 1, Nat.one_mul] at update
        omega

end Stands

theorem Stands.grasp (stands : Stands g e nodes st s lists 0 0) (shaped : Shaped g e p)
    (level : At l c) (low : l < g.num_levels) (here : st c = live) :
    Stands g e nodes st { s with block_info := togglePair s.block_info c } lists c c := by
  have below := level.below low
  rw [shaped.two_halves] at below
  exact ⟨stands.shape, stands.tree, stands.joined, stands.free,
    stands.bits.grasp level.one_le below here⟩

theorem Stands.give (stands : Stands g e nodes st s lists c c) (shaped : Shaped g e p)
    (site : Site g nodes) (level : At l c) (low : l < g.num_levels) (here : st c = live)
    (isNode : nodes (g.place e l c)) (alone : 2 ≤ c → st (sibling c) ≠ Status.free) :
    Stands g e nodes (Function.update st c Status.free)
      { s with
        block_info := bitmapClear s.block_info (c - 1 + 2 ^ (g.num_levels - 1))
        memory := listAdd s.memory (g.place e l c) (g.head l) }
      (Function.update lists l (g.place e l c :: lists l)) 0 0 := by
  have some := level.one_le
  have power : 0 < 2 ^ (e - l) := Nat.pow_pos (by decide)
  have fresh : ∀ m < g.num_levels, g.place e l c ∉ lists m := by
    intro m small member
    have isFree := (stands.free.unlisted shaped stands.tree level low (Or.inr here)
      (Nat.le_refl _) (by omega) small member).2
    rw [here] at isFree
    cases isFree
  have below := level.below low
  rw [shaped.two_halves] at below
  refine ⟨stands.shape, stands.tree.relabel (Or.inr here) (Or.inl rfl),
    stands.joined.give ?_ ?_, ?_, stands.bits.give some below⟩
  · intro i even
    have other := alone (by omega)
    rw [even, sibling, if_pos (by omega)] at other
    exact other
  · intro i odd isFree
    have two : 2 ≤ c := by
      by_contra root
      have zero : i = 0 := by omega
      rw [zero, Nat.mul_zero, stands.tree.zero] at isFree
      cases isFree
    have other := alone two
    rw [odd, sibling, if_neg (by omega), Nat.add_sub_cancel] at other
    exact other isFree
  · refine stands.free.add shaped stands.tree site low level isNode fresh ?_
    intro i
    rw [Function.update_apply]
    grind

/-- `buddy_level_free` of a live block at its own level. -/
theorem Stands.levelFree (stands : Stands g e nodes st s lists 0 0) (shaped : Shaped g e p)
    (site : Site g nodes) (level : At l c) (low : l < g.num_levels) (here : st c = live)
    (isNode : nodes (g.place e l c)) :
    ∃ m s' lists' st', s.levelFree (g.place e l c) l = some s' ∧
      Stands g e nodes st' s' lists' 0 0 ∧
      (∀ i, st' i = live ↔ st i = live ∧ i ≠ c) ∧
      m = joinLevel st l c ∧ (lists' m).length = (lists m).length + 1 ∧
      (∀ k, k ≠ m → (lists' k).length ≤ (lists k).length) ∧
      freeBytes g e lists' = freeBytes g e lists + 2 ^ (e - l) := by
  obtain ⟨m, j, s', lists', st', run, less, at_j, live_j, node_j, stands', alone, above, lives, top,
    same, lengths, bytes⟩ :=
      (stands.grasp shaped level low here).mergeUp shaped site level low here isNode
  have small : m < g.num_levels := by omega
  have given := stands'.give shaped site at_j small live_j node_j alone
  refine ⟨m, _, _, _, ?_, given, ?_, top, ?_, ?_, ?_⟩
  · obtain ⟨bit, inside⟩ := shaped.splitBit_inside stands'.shape at_j small
    have index : s.blockIndex (g.place e l c) l = c - 1 := by
      rw [stands.shape]
      exact shaped.blockIndex level low
    rw [bit] at inside
    rw [Buddy.levelFree, index, shaped.toggleFree stands.shape level low, Option.bind_eq_bind,
      Option.bind_some, run, Option.bind_eq_bind, Option.bind_some]
    dsimp only
    rw [bit, Buddy.onBit_inside inside, Option.bind_some, stands'.shape]
  · intro i
    rw [Function.update_apply]
    have was := lives i
    grind
  · rw [Function.update_self, List.length_cons, same]
  · intro k other
    rw [Function.update_of_ne other]
    exact lengths k
  · have update := @freeBytes_update g e m lists' small (g.place e m j :: lists' m)
    rw [List.length_cons, Nat.add_mul, Nat.one_mul] at update
    omega

end Release

end OmenMemory
