import Mathlib.Algebra.Order.BigOperators.Group.Finset
import Omen.Memory.BuddyCreate
import Omen.Memory.BuddySound

/- `buddy_alloc` rounds a request up to the blocks of a level. `buddy_free` knows a block by its
   address only: it climbs from the page at that address to the first split block and takes the
   level below. `buddy_used` counts the listed blocks. -/
namespace OmenMemory
open BuddyTree Status Words

/-- The level of a request has the smallest blocks that hold it, and `buddy_alloc` takes one
    of them. -/
def BestFit (g : BuddyShape) (request : Nat) : Prop :=
  ∃ level, g.sizeToLevel request = some level ∧ level < g.num_levels ∧
    request ≤ g.size >>> level ∧
    (∀ m < g.num_levels, request ≤ g.size >>> m → m ≤ level) ∧
    ∀ s : Buddy, s.toBuddyShape = g → s.alloc request = s.levelAlloc level

section Sizes
variable {g : BuddyShape} {e p request : Nat}

theorem sizeToLevel_small (small : request < g.page_size) :
    g.sizeToLevel request = some (g.num_levels - 1) := if_pos small

theorem ilog2_rounds (two : 2 ≤ request) :
    2 ^ ilog2 (request - 1) < request ∧ request ≤ 2 ^ (ilog2 (request - 1) + 1) := by
  have low := Nat.log2_self_le (n := request - 1) (by omega)
  have high := Nat.lt_log2_self (n := request - 1)
  unfold ilog2
  omega

theorem Shaped.sizeToLevel (shaped : Shaped g e p) (large : g.page_size ≤ request)
    (two : 2 ≤ request) (most : request ≤ g.size) :
    g.sizeToLevel request =
      if request ≤ 2 ^ 30 then some (e - (ilog2 (request - 1) + 1)) else none := by
  obtain ⟨above, below⟩ := ilog2_rounds two
  have wide := shaped.wide
  rw [BuddyShape.sizeToLevel, if_neg (by omega), if_neg (by omega)]
  dsimp only
  generalize ilog2 (request - 1) = k at above below
  have deep : k < e := by
    rw [shaped.size] at most
    exact (Nat.pow_lt_pow_iff_right (a := 2) (by decide)).mp (Nat.lt_of_lt_of_le above most)
  have bound : k + 1 < 31 ↔ request ≤ 2 ^ 30 := by
    constructor
    · intro small
      exact Nat.le_trans below (Nat.pow_le_pow_right (by decide) (by omega))
    · intro small
      have less := (Nat.pow_lt_pow_iff_right (a := 2) (by decide)).mp
        (Nat.lt_of_lt_of_le above small)
      omega
  refine if_congr bound (congrArg some ?_) rfl
  rw [shaped.size, Nat.one_shiftLeft, ilog2, ilog2, Nat.log2_two_pow, Nat.log2_two_pow]
  omega

theorem Buddy.alloc_eq {s : Buddy} (shape : s.toBuddyShape = g) (most : request ≤ g.size)
    {level : Nat} (found : g.sizeToLevel request = some level) :
    s.alloc request = s.levelAlloc level := by
  subst shape
  rw [Buddy.alloc, if_neg (by omega), found]
  rfl

theorem Shaped.bestFit_small (shaped : Shaped g e p) (small : request < g.page_size)
    (most : request ≤ g.size) : BestFit g request := by
  have levels := shaped.levels
  have le := shaped.le
  refine ⟨_, sizeToLevel_small small, by omega, ?_, fun m low _ => by omega,
    fun s shape => Buddy.alloc_eq shape most (sizeToLevel_small small)⟩
  rw [shaped.sizeAt (by omega), levels, show e - (e - p + 1 - 1) = p by omega, ← shaped.page]
  omega

theorem Shaped.bestFit_large (shaped : Shaped g e p) (large : g.page_size ≤ request)
    (two : 2 ≤ request) (most : request ≤ g.size) (small : request ≤ 2 ^ 30) :
    BestFit g request := by
  have found := shaped.sizeToLevel large two most
  rw [if_pos small] at found
  obtain ⟨above, below⟩ := ilog2_rounds two
  generalize ilog2 (request - 1) = k at above below found
  have levels := shaped.levels
  have page : p ≤ k + 1 := by
    rw [shaped.page] at large
    exact (Nat.pow_le_pow_iff_right (a := 2) (by decide)).mp (Nat.le_trans large below)
  have deep : k < e := by
    rw [shaped.size] at most
    exact (Nat.pow_lt_pow_iff_right (a := 2) (by decide)).mp (Nat.lt_of_lt_of_le above most)
  refine ⟨_, found, by omega, ?_, ?_, fun s shape => Buddy.alloc_eq shape most found⟩
  · rw [shaped.sizeAt (by omega), show e - (e - (k + 1)) = k + 1 by omega]
    exact below
  · intro m low holds
    rw [shaped.sizeAt (by omega)] at holds
    have less := (Nat.pow_lt_pow_iff_right (a := 2) (by decide)).mp
      (Nat.lt_of_lt_of_le above holds)
    omega

theorem bestFit_iff (shaped : Shaped g e p) (some : 1 ≤ request) (most : request ≤ g.size) :
    BestFit g request ↔ request < g.page_size ∨ 2 ≤ request ∧ request ≤ 2 ^ 30 := by
  constructor
  · rintro ⟨level, found, -⟩
    by_contra missed
    by_cases two : 2 ≤ request
    · rw [shaped.sizeToLevel (by omega) two most, if_neg (by omega)] at found
      cases found
    · rw [BuddyShape.sizeToLevel, if_neg (by omega), if_pos (by omega)] at found
      cases found
  · rintro (small | ⟨two, small⟩)
    · exact shaped.bestFit_small small most
    · by_cases page : request < g.page_size
      · exact shaped.bestFit_small page most
      · exact shaped.bestFit_large (by omega) two most small

theorem bestFit_three_hundred :
    BestFit (buddyInit 0x1000 0x100000 (2 ^ 12) (2 ^ 8) (fun _ => 0) (fun _ => 0)).toBuddyShape
      300 :=
  (bestFit_iff (buddyInit_shaped (by decide) (by decide)) (by decide) (by decide)).mpr
    (Or.inr ⟨by decide, by decide⟩)

/-- 2 GiB of a region of 4 GiB: the shifted `int` overflows. -/
theorem two_gigabytes_unfit :
    ¬ ∀ (g : BuddyShape) (e p request : Nat), Shaped g e p → 1 ≤ request → request ≤ g.size →
      BestFit g request := by
  intro all
  obtain ⟨level, found, -⟩ := all
    (buddyInit 0x1000 0x100000 (2 ^ 32) (2 ^ 12) (fun _ => 0) (fun _ => 0)).toBuddyShape 32 12
    (2 ^ 31) (buddyInit_shaped (by decide) (by decide)) (by decide) (by decide)
  have lost : BuddyShape.sizeToLevel
      (buddyInit 0x1000 0x100000 (2 ^ 32) (2 ^ 12) (fun _ => 0) (fun _ => 0)).toBuddyShape
      (2 ^ 31) = none := by
    decide +kernel
  rw [lost] at found
  cases found

end Sizes

namespace Buddy

/-- The level on which the block of a release ends up: a pair whose bit is set has its other
    half free. -/
def mergeLevel (s : Buddy) : Nat → Nat → Nat
  | 0, _ => 0
  | level + 1, index =>
    if s.getBit (freeBit index) = some true then s.mergeLevel level (freeBit index)
    else level + 1

/-- `buddy_free` releases the block at its level, and `buddy_used` falls by its size. -/
def Recovers (s : Buddy) (b : BuddyBlock) : Prop :=
  s.freeLevel b.ptr = some (some b.level) ∧
    ∃ s' before after, s.free b.ptr = some s' ∧ s.used = some before ∧ s'.used = some after ∧
      after + s.size >>> b.level = before

/-- The block is not the whole region (or `block_info` is so long that the wrapped index of
    the root's parent is inside), its address is not that of `NULL`, and an `int` counts the
    blocks of every list, the released one included. -/
structure Recoverable (s : Buddy) (b : BuddyBlock) : Prop where
  below : 1 ≤ b.level ∨ 58 ≤ s.num_levels
  address : b.ptr ≠ 0
  counts : ∀ l < s.num_levels, ∀ nodes, s.freeNodes l = some nodes → nodes.length < 2 ^ 31
  merged : ∀ nodes, s.freeNodes (s.mergeLevel b.level (s.blockIndex b.ptr b.level)) = some nodes →
    nodes.length + 1 < 2 ^ 31

end Buddy

section Climb
variable {g : BuddyShape} {e p l j : Nat} {nodes : Nat → Prop} {st : Nat → Status} {s : Buddy}
  {lists : Nat → List Nat}

theorem leftmost_whole {levels : Nat} (tree : Tree levels st) (some : 1 ≤ j)
    (whole : st j ≠ split) (count : Nat) : st (j * 2 ^ count) ≠ split := by
  induction count with
  | zero => rwa [Nat.pow_zero, Nat.mul_one]
  | succ count ih =>
    have positive : 1 ≤ j * 2 ^ count := Nat.mul_pos some (Nat.pow_pos (by decide))
    have double : j * 2 ^ (count + 1) = 2 * (j * 2 ^ count) := by
      rw [Nat.pow_succ, ← Nat.mul_assoc, Nat.mul_comm]
    rw [double, tree.childless ih positive (by omega)]
    decide

section Stands
variable (stands : Stands g e nodes st s lists 0 0) (shaped : Shaped g e p)
include stands shaped

theorem Stands.splitBit_read (level : At l j) (low : l < g.num_levels) :
    s.getBit (s.splitBit (j - 1)) = some (decide (st j = split)) := by
  obtain ⟨bit, inside⟩ := shaped.splitBit_inside stands.shape level low
  have below := level.below low
  have halves := shaped.two_halves
  have some := level.one_le
  rw [Buddy.getBit_inside inside, bit, stands.bits.splits j some (by omega) (by omega)]

theorem Stands.climb_succ (level : At (l + 1) j) (low : l + 1 < g.num_levels) (height : Nat) :
    s.climb (height + 1) (j - 1) =
      if st (j / 2) = split then some height else s.climb height (j / 2 - 1) := by
  rw [Buddy.climb, (shaped.freeBit level low).1,
    stands.splitBit_read shaped level.parent (Nat.lt_of_succ_lt low), Option.bind_eq_bind,
    Option.bind_some]
  simp only [decide_eq_true_eq]

theorem Stands.climb_block (level : At l j) (whole : st j ≠ split) (count : Nat)
    (low : l + count < g.num_levels) :
    s.climb (l + count + 1) (j * 2 ^ count - 1) = s.climb (l + 1) (j - 1) := by
  induction count with
  | zero => rw [Nat.pow_zero, Nat.mul_one, Nat.add_zero]
  | succ count ih =>
    have half : j * 2 ^ (count + 1) / 2 = j * 2 ^ count := by
      rw [Nat.pow_succ, ← Nat.mul_assoc, Nat.mul_div_cancel _ (by decide)]
    have chain := (shaped.place_chain level (count + 1) low).1
    rw [← Nat.add_assoc] at chain low ⊢
    rw [stands.climb_succ shaped chain low, half,
      if_neg (leftmost_whole stands.tree level.one_le whole count), ih (by omega)]

theorem Stands.climb_live (level : At (l + 1) j) (low : l + 1 < g.num_levels) (here : st j = live) :
    s.climb (l + 1 + 1) (j - 1) = some (l + 1) := by
  have there : st j ≠ absent := by
    rw [here]
    decide
  rw [stands.climb_succ shaped level low,
    if_pos ((stands.tree.child j level.two_le).mp there)]

/-- At the root the index wraps, to a bit behind those of all blocks. -/
theorem Stands.climb_root (node : 4 ≤ p) :
    s.climb 1 0 = if 58 ≤ g.num_levels then some 0 else none := by
  have levels := shaped.levels
  have wide := shaped.wide
  have halves := shaped.two_halves
  have bit : s.splitBit (freeBit 0) = 2 ^ 63 - 1 + 2 ^ (g.num_levels - 1) := by
    rw [stands.shape, shaped.splitBit]
    rfl
  have length : bitmapNumBits * buddyBlockInfoLen s.num_levels =
      128 * 2 ^ (g.num_levels - 1) := by
    rw [stands.shape, blockInfoLen_eq, bitmapNumBits, halves]
    omega
  rw [Buddy.climb, Buddy.getBit, bit, length]
  by_cases long : 58 ≤ g.num_levels
  · have power : 2 ^ 57 ≤ 2 ^ (g.num_levels - 1) := Nat.pow_le_pow_right (by decide) (by omega)
    have most : 2 ^ (g.num_levels - 1) ≤ 2 ^ 59 := Nat.pow_le_pow_right (by decide) (by omega)
    have clear := stands.bits.rest (2 ^ 63 - 1 + 2 ^ (g.num_levels - 1)) (by omega) (by omega)
    rw [if_pos (by omega), clear, if_pos long]
    rfl
  · have power : 2 ^ (g.num_levels - 1) ≤ 2 ^ 56 := Nat.pow_le_pow_right (by decide) (by omega)
    rw [if_neg (by omega), if_neg long]
    rfl

end Stands

theorem Kept.freeLevel {live : List BuddyBlock} (kept : Kept g e nodes st s lists live)
    (shaped : Shaped g e p) (node : 4 ≤ p) {b : BuddyBlock} (member : b ∈ live) :
    s.freeLevel b.ptr =
      if b.ptr = 0 then some none
      else if b.level = 0 ∧ g.num_levels < 58 then none else some (some b.level) := by
  obtain ⟨low, j, level, here, place⟩ := (kept.lives b).mp member
  obtain ⟨ptr, height⟩ := b
  dsimp only at low level place ⊢
  have stands := kept.stands
  have inside := offset_inside level (shaped.deep low)
  have power : 0 < 2 ^ (e - height) := Nat.pow_pos (by decide)
  have bounds : ¬ (ptr < s.address ∨ s.address + s.size < ptr) := by
    rw [stands.shape, shaped.size, place]
    unfold BuddyShape.place
    omega
  have whole : st j ≠ split := by
    rw [here]
    decide
  obtain ⟨count, last⟩ : ∃ count, g.num_levels = height + count + 1 :=
    ⟨g.num_levels - height - 1, by omega⟩
  have climb : s.climb s.num_levels (s.blockIndex ptr (s.num_levels - 1)) =
      s.climb (height + 1) (j - 1) := by
    obtain ⟨chain, start⟩ := shaped.place_chain level count (by omega)
    rw [stands.shape, place, ← start]
    have index := shaped.blockIndex chain (by omega)
    rw [show g.num_levels - 1 = height + count by omega, index, last]
    exact stands.climb_block shaped level whole count (by omega)
  rw [Buddy.freeLevel, if_neg bounds, climb]
  refine if_congr Iff.rfl rfl ?_
  cases height with
  | zero =>
    rw [level.of_root, stands.climb_root shaped node]
    by_cases long : 58 ≤ g.num_levels
    · rw [if_pos long, if_neg (by omega)]
      rfl
    · rw [if_neg long, if_pos ⟨rfl, by omega⟩]
      rfl
  | succ l =>
    rw [stands.climb_live shaped level low here, if_neg (by omega)]
    rfl

end Climb

section Counts
variable {s : Buddy} {level n : Nat}

theorem Buddy.availableFrom_eq {counts : Nat → Nat} {sum : Nat}
    (each : ∀ k, level ≤ k → k < level + n → s.count k = some (counts k))
    (small : sum + ∑ k ∈ Finset.Ico level (level + n), counts k * s.size >>> k < 2 ^ 64) :
    s.availableFrom level n sum =
      some (sum + ∑ k ∈ Finset.Ico level (level + n), counts k * s.size >>> k) := by
  induction n generalizing level sum with
  | zero => rw [Nat.add_zero, Finset.Ico_self, Finset.sum_empty, Nat.add_zero, availableFrom]
  | succ n ih =>
    rw [Finset.sum_eq_sum_Ico_succ_bot (by omega), ← Nat.add_assoc] at small ⊢
    rw [availableFrom, each level (Nat.le_refl _) (by omega), Option.bind_eq_bind,
      Option.bind_some, Nat.mod_eq_of_lt (by omega)]
    have shift : level + (n + 1) = level + 1 + n := by omega
    rw [shift] at small ⊢
    exact ih (fun k first last => each k (by omega) (by omega)) small

theorem Buddy.availableFrom_counts {sum total : Nat}
    (found : s.availableFrom level n sum = some total) {k : Nat} (first : level ≤ k)
    (last : k < level + n) :
    ∃ count, s.count k = some count := by
  induction n generalizing level sum with
  | zero => omega
  | succ n ih =>
    rw [availableFrom, Option.bind_eq_bind, Option.bind_eq_some_iff] at found
    obtain ⟨count, here, rest⟩ := found
    by_cases same : k = level
    · exact ⟨count, same ▸ here⟩
    · exact ih rest (by omega) (by omega)

variable {g : BuddyShape} {e p l : Nat} {nodes : Nat → Prop} {st : Nat → Status}
  {lists : Nat → List Nat} {live : List BuddyBlock}
  (kept : Kept g e nodes st s lists live) (shaped : Shaped g e p)
include kept shaped

theorem Kept.length_le (low : l < g.num_levels) : (lists l).length ≤ 2 ^ l := by
  have one : (lists l).length * 2 ^ (e - l) ≤ freeBytes g e lists :=
    Finset.single_le_sum (f := fun l => (lists l).length * 2 ^ (e - l))
      (fun _ _ => Nat.zero_le _) (Finset.mem_range.mpr low)
  have all := kept.bytes
  have power : 2 ^ l * 2 ^ (e - l) = 2 ^ e := by
    rw [← Nat.pow_add, Nat.add_sub_cancel' (shaped.deep low)]
  exact Nat.le_of_mul_le_mul_right (by omega) (Nat.pow_pos (by decide) : 0 < 2 ^ (e - l))

theorem Kept.freeNodes (site : Site g nodes) (low : l < g.num_levels) :
    s.freeNodes l = some (lists l) := by
  have short := kept.length_le shaped low
  have wide := Nat.pow_lt_pow_right (a := 2) (by decide) low
  rw [Buddy.freeNodes, kept.stands.shape]
  refine Linked.listNodes (kept.stands.free.ring l low) ?_ (by omega)
  intro member
  exact site.heads l low (kept.stands.free.node l low _ member)

theorem Kept.count (site : Site g nodes) (low : l < g.num_levels) :
    s.count l = if (lists l).length < 2 ^ 31 then some (lists l).length else none := by
  rw [Buddy.count, kept.freeNodes shaped site low, Option.bind_eq_bind, Option.bind_some]

theorem Kept.used_iff (site : Site g nodes) {used : Nat} :
    s.used = some used ↔ (∀ l < g.num_levels, (lists l).length < 2 ^ 31) ∧
      used + freeBytes g e lists = 2 ^ e := by
  have size : s.size = 2 ^ e := by
    rw [kept.stands.shape, shaped.size]
  have wide : 2 ^ e < 2 ^ 64 := Nat.pow_lt_pow_right (by decide) shaped.wide
  have most := kept.bytes
  have total : (∀ l < g.num_levels, (lists l).length < 2 ^ 31) →
      s.available = some (freeBytes g e lists) := by
    intro small
    have sum : ∑ k ∈ Finset.Ico 0 (0 + g.num_levels), (lists k).length * s.size >>> k =
        freeBytes g e lists := by
      rw [Nat.zero_add, ← Finset.range_eq_Ico]
      refine Finset.sum_congr rfl ?_
      intro k member
      rw [kept.stands.shape, shaped.sizeAt (shaped.deep (Finset.mem_range.mp member))]
    have found := @Buddy.availableFrom_eq s 0 g.num_levels (fun k => (lists k).length) 0 (by
      intro k _ last
      rw [kept.count shaped site (by omega), if_pos (small k (by omega))]) (by omega)
    rw [sum, Nat.zero_add] at found
    rw [Buddy.available, kept.stands.shape]
    exact found
  constructor
  · intro found
    rw [Buddy.used, Option.bind_eq_bind, Option.bind_eq_some_iff] at found
    obtain ⟨available, sum, rest⟩ := found
    have small : ∀ l < g.num_levels, (lists l).length < 2 ^ 31 := by
      intro l low
      rw [Buddy.available, kept.stands.shape] at sum
      obtain ⟨count, here⟩ := Buddy.availableFrom_counts sum (Nat.zero_le l) (by omega)
      rw [kept.count shaped site low] at here
      by_contra long
      rw [if_neg long] at here
      cases here
    rw [total small] at sum
    cases sum
    rw [size, Option.some.injEq] at rest
    refine ⟨small, ?_⟩
    omega
  · rintro ⟨small, same⟩
    rw [Buddy.used, total small, Option.bind_eq_bind, Option.bind_some, size, Option.some.injEq]
    omega

end Counts

section Recovery
variable {g : BuddyShape} {e p l c : Nat} {nodes : Nat → Prop} {st : Nat → Status} {s : Buddy}
  {lists : Nat → List Nat} {live : List BuddyBlock}

theorem Stands.pair_read (stands : Stands g e nodes st s lists 0 0) (shaped : Shaped g e p)
    (level : At (l + 1) c) (low : l + 1 < g.num_levels)
    (used : st c = Status.live ∨ st c = split) :
    s.getBit (freeBit (c - 1)) = some true ↔ st (sibling c) = Status.free := by
  have two := level.two_le
  have halves := shaped.two_halves
  have below := level.below low
  obtain ⟨bit, inside⟩ := shaped.freeBit level low
  obtain ⟨half, other⟩ := sibling_half c two
  have there : st c ≠ absent := by
    rcases used with same | same <;> rw [same] <;> decide
  have present : st (sibling c) ≠ absent := by
    refine (stands.tree.child _ (by omega)).mpr ?_
    rw [half]
    exact (stands.tree.child c two).mp there
  have free : inUse st 0 (sibling c) = false ↔ st (sibling c) = Status.free := by
    rw [inUse, decide_eq_false_iff_not]
    cases status : st (sibling c) with
    | absent => exact absurd status present
    | free => simp
    | live => simp; omega
    | split => simp; omega
  have mine : inUse st 0 c = true := decide_eq_true ⟨by omega, used⟩
  rw [bit, Buddy.getBit_inside (by rw [stands.shape]; omega), Option.some.injEq,
    stands.bits.pairs (c / 2) (by omega) (by omega), ← free]
  unfold sibling
  split
  · rename_i even
    rw [show 2 * (c / 2) = c by omega, mine]
    simp
  · rename_i odd
    rw [show 2 * (c / 2) + 1 = c by omega, show 2 * (c / 2) = c - 1 by omega, mine]
    simp

theorem Stands.mergeLevel (stands : Stands g e nodes st s lists 0 0) (shaped : Shaped g e p)
    (level : At l c) (low : l < g.num_levels) (used : st c = Status.live ∨ st c = split) :
    s.mergeLevel l (c - 1) = joinLevel st l c := by
  induction l generalizing c with
  | zero => rfl
  | succ l ih =>
    have there : st c ≠ absent := by
      rcases used with same | same <;> rw [same] <;> decide
    have parent := (stands.tree.child c level.two_le).mp there
    rw [Buddy.mergeLevel, joinLevel, (shaped.freeBit level low).1,
      ih level.parent (Nat.lt_of_succ_lt low) (Or.inr parent)]
    refine if_congr ?_ rfl rfl
    rw [← (shaped.freeBit level low).1]
    exact stands.pair_read shaped level low used

theorem joinLevel_le (st : Nat → Status) (l c : Nat) : joinLevel st l c ≤ l := by
  induction l generalizing c with
  | zero => exact Nat.le_refl 0
  | succ l ih =>
    have rest := ih (c / 2)
    rw [joinLevel]
    split <;> omega

theorem Kept.recovers_iff (kept : Kept g e nodes st s lists live) (shaped : Shaped g e p)
    (site : Site g nodes) (node : 4 ≤ p) {b : BuddyBlock} (member : b ∈ live)
    (isNode : nodes b.ptr) : s.Recovers b ↔ s.Recoverable b := by
  obtain ⟨low, c, level, here, place⟩ := (kept.lives b).mp member
  obtain ⟨s', st', lists', call, kept', lengths⟩ := kept.free shaped site member isNode
  obtain ⟨longer, others⟩ := lengths c level place
  have freeLevel := kept.freeLevel shaped node member
  have shape := kept.stands.shape
  have levels : s.num_levels = g.num_levels := by rw [shape]
  have merge : s.mergeLevel b.level (s.blockIndex b.ptr b.level) = joinLevel st b.level c := by
    rw [shape, place, shaped.blockIndex level low]
    exact kept.stands.mergeLevel shaped level low (Or.inl here)
  have top := joinLevel_le st b.level c
  generalize joinLevel st b.level c = m at merge top longer others
  have released : s.freeLevel b.ptr = some (some b.level) → s.free b.ptr = some s' := by
    intro found
    rw [Buddy.free, found]
    exact call
  constructor
  · rintro ⟨found, _, before, after, result, first, second, -⟩
    rw [released found, Option.some.injEq] at result
    subst result
    have counts := ((kept.used_iff shaped site).mp first).1
    have counts' := ((kept'.used_iff shaped site).mp second).1
    rw [found] at freeLevel
    constructor
    · by_contra whole
      rw [levels] at whole
      split at freeLevel
      · cases freeLevel
      · rw [if_pos (by omega)] at freeLevel
        cases freeLevel
    · intro null
      rw [if_pos null] at freeLevel
      cases freeLevel
    · intro l small list
      rw [levels] at small
      rw [kept.freeNodes shaped site small, Option.some.injEq]
      rintro rfl
      exact counts l small
    · intro list
      rw [merge, kept.freeNodes shaped site (by omega), Option.some.injEq]
      rintro rfl
      rw [← longer]
      exact counts' m (by omega)
  · rintro ⟨below, address, counts, merged⟩
    rw [levels] at below counts
    have found : s.freeLevel b.ptr = some (some b.level) := by
      rw [freeLevel, if_neg address, if_neg (by omega)]
    have before : ∀ l < g.num_levels, (lists l).length < 2 ^ 31 := fun l small =>
      counts l small _ (kept.freeNodes shaped site small)
    have after : ∀ l < g.num_levels, (lists' l).length < 2 ^ 31 := by
      intro l small
      by_cases same : l = m
      · rw [same, longer]
        exact merged _ (merge ▸ kept.freeNodes shaped site (by omega))
      · exact Nat.lt_of_le_of_lt (others l same) (before l small)
    have sum := ((List.perm_cons_erase member).map fun b => 2 ^ (e - b.level)).sum_eq
    rw [List.map_cons, List.sum_cons] at sum
    have old := kept.bytes
    have new := kept'.bytes
    refine ⟨found, s', 2 ^ e - freeBytes g e lists, 2 ^ e - freeBytes g e lists', released found,
      (kept.used_iff shaped site).mpr ⟨before, by omega⟩,
      (kept'.used_iff shaped site).mpr ⟨after, by omega⟩, ?_⟩
    rw [shape, shaped.sizeAt (shaped.deep low)]
    omega

end Recovery

/-- In every state of an allocator that `buddy_init` or `buddy_create` made. -/
theorem free_recovers_iff {start s : Buddy} (made : Made start) {live : List BuddyBlock}
    (run : BuddyRun start s live) {b : BuddyBlock} (member : b ∈ live) :
    s.Recovers b ↔ s.Recoverable b := by
  obtain ⟨k, e, p, fresh⟩ := made.fresh
  obtain ⟨st, lists, kept⟩ := run.kept fresh
  exact kept.recovers_iff fresh.shaped fresh.site fresh.node (List.mem_append_left _ member)
    (fresh.live_node kept member)

theorem free_recovers_quarter :
    ∃ s, (buddyInit 0x1000 0x100000 4096 256 (fun _ => 0) (fun _ => 0)).levelAlloc 2 =
        some (some 0x100000, s) ∧ s.used = some 1024 ∧
      s.Recovers ⟨0x100000, 2⟩ ∧ s.Recoverable ⟨0x100000, 2⟩ := by
  have calls : ((buddyInit 0x1000 0x100000 4096 256 (fun _ => 0) (fun _ => 0)).levelAlloc 2).map
      (Prod.map id fun s => (s.size >>> 2, s.freeLevel 0x100000, s.used,
        (s.free 0x100000).map Buddy.used)) =
        some (some 0x100000, 1024, some (some 2), some 1024, some (some 0)) := by
    decide +kernel
  obtain ⟨⟨ptr, s⟩, call, seen⟩ := Option.map_eq_some_iff.mp calls
  simp only [Prod.map_apply, id_eq, Prod.mk.injEq] at seen
  obtain ⟨rfl, size, level, before, after⟩ := seen
  obtain ⟨s', free, after⟩ := Option.map_eq_some_iff.mp after
  have recovers : s.Recovers ⟨0x100000, 2⟩ :=
    ⟨level, s', 1024, 0, free, before, after, by rw [size]⟩
  have run := BuddyRun.alloc .init (by decide +kernel) call
  exact ⟨s, call, before, recovers,
    (free_recovers_iff (.init usable_4096) run List.mem_cons_self).mp recovers⟩

/-- The whole region as one block: the climb goes past the root. -/
theorem whole_region_unrecovered :
    ¬ ∀ start, Made start → ∀ s live, BuddyRun start s live → ∀ b ∈ live, s.Recovers b := by
  intro all
  have calls : ((buddyInit 0x1000 0x100000 4096 256 (fun _ => 0) (fun _ => 0)).levelAlloc 0).map
      (Prod.map id fun s => s.freeLevel 0x100000) = some (some 0x100000, none) := by
    decide +kernel
  obtain ⟨⟨ptr, s⟩, call, seen⟩ := Option.map_eq_some_iff.mp calls
  simp only [Prod.map_apply, id_eq, Prod.mk.injEq] at seen
  obtain ⟨rfl, lost⟩ := seen
  have run := BuddyRun.alloc .init (by decide +kernel) call
  have recovers := all _ (.init usable_4096) s _ run _ List.mem_cons_self
  rw [Buddy.Recovers, lost] at recovers
  cases recovers.1

end OmenMemory
