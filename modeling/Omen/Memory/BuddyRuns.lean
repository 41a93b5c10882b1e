import Omen.Memory.BuddyCalls

/- Runs of the buddy allocator from `buddy_init` on: requests and releases by level, and in
   between whatever the holders of live blocks write into them. -/
namespace OmenMemory
open BuddyTree Status Words

structure BuddyBlock where
  ptr : Nat
  level : Nat
  deriving DecidableEq

def BuddyBlock.Has (g : BuddyShape) (b : BuddyBlock) (a : Nat) : Prop :=
  b.ptr ≤ a ∧ a < b.ptr + g.size >>> b.level

inductive BuddyRun (start : Buddy) : Buddy → List BuddyBlock → Prop
  | init : BuddyRun start start []
  | alloc {s s' live level ptr} : BuddyRun start s live → level < s.num_levels →
      s.levelAlloc level = some (some ptr, s') → BuddyRun start s' (⟨ptr, level⟩ :: live)
  | full {s s' live level} : BuddyRun start s live → level < s.num_levels →
      s.levelAlloc level = some (none, s') → BuddyRun start s' live
  | free {s s' live b} : BuddyRun start s live → b ∈ live →
      s.levelFree b.ptr b.level = some s' → BuddyRun start s' (live.erase b)
  | write {s live memory} : BuddyRun start s live →
      (∀ a, (∀ b ∈ live, ¬ b.Has s.toBuddyShape a) → memory a = s.memory a) →
      BuddyRun start { s with memory := memory } live

/-- Sizes and page sizes for which `buddy_init` sets up an allocator, with its metadata
    outside the region. -/
structure Usable (allocator address size pageSize : Nat) : Prop where
  power : ∃ e, size = 2 ^ e ∧ e < 64
  pages : ∃ p, pageSize = 2 ^ p
  node : sizeofListHead ≤ pageSize
  fits : pageSize ≤ size
  apart : allocator + buddySizeofMetadata (numLevels size pageSize) ≤ address ∨
    address + size ≤ allocator

def BuddyShape.IsPage (g : BuddyShape) (a : Nat) : Prop :=
  ∃ k, k < 2 ^ (g.num_levels - 1) ∧ a = g.address + k * g.page_size

/-- The pages whose list node is between two addresses. -/
def BuddyShape.PageIn (g : BuddyShape) (low high a : Nat) : Prop :=
  g.IsPage a ∧ low ≤ a ∧ a + sizeofListHead ≤ high

/-- The first `k` pages, each a block of the last level. -/
def firstPages (g : BuddyShape) (k : Nat) : List BuddyBlock :=
  (List.range k).reverse.map fun t => ⟨g.address + t * g.page_size, g.num_levels - 1⟩

def BuddyShape.Later (g : BuddyShape) (k : Nat) : Nat → Prop :=
  g.PageIn (g.address + k * g.page_size) (g.address + g.size)

structure Kept (g : BuddyShape) (e : Nat) (nodes : Nat → Prop) (st : Nat → Status) (s : Buddy)
    (lists : Nat → List Nat) (live : List BuddyBlock) : Prop where
  stands : Stands g e nodes st s lists 0 0
  lives : ∀ b, b ∈ live ↔ b.level < g.num_levels ∧
    ∃ j, At b.level j ∧ st j = Status.live ∧ b.ptr = g.place e b.level j
  distinct : live.Nodup
  bytes : freeBytes g e lists + (live.map fun b => 2 ^ (e - b.level)).sum = 2 ^ e

section Statuses
variable {levels l j : Nat} {st : Nat → Status}

theorem halveDown_live (tree : Tree levels st) (count : Nat) (level : At l j)
    (deep : l + count < levels) (here : st j = live) (k : Nat) :
    halveDown st count j k = live ↔ (st k = live ∧ k ≠ j) ∨ k = j * 2 ^ count := by
  induction count generalizing l j st with
  | zero =>
    rw [halveDown, Nat.pow_zero, Nat.mul_one]
    grind
  | succ count ih =>
    have room : 2 * j < 2 ^ levels := by
      have below : l + 1 < levels := by omega
      exact (level.child (by omega)).below below
    have kept : halve st j (2 * j) = live := by
      have some := level.one_le
      rw [halve_apply, if_neg (by omega), if_pos rfl]
    have whole : st j ≠ split := by
      rw [here]
      decide
    have left := tree.childless whole level.one_le (c := 2 * j) (by omega)
    have right := tree.childless whole level.one_le (c := 2 * j + 1) (by omega)
    have index : 2 * j * 2 ^ count = j * 2 ^ (count + 1) := by
      rw [Nat.pow_succ, Nat.mul_comm 2 j, Nat.mul_assoc, Nat.mul_comm 2]
    rw [halveDown, ih (tree.halve here room) (level.child (by omega)) (by omega) kept, index,
      halve_apply]
    grind

end Statuses

section Start
variable {allocator address size pageSize e p : Nat} {memory : Words} {info : BitmapWords}

theorem numLevels_power (le : p ≤ e) (wide : e < 64) : numLevels (2 ^ e) (2 ^ p) = e - p + 1 := by
  rw [numLevels, ilog2, ilog2, Nat.log2_two_pow, Nat.log2_two_pow]
  omega

theorem buddyInit_shaped (le : p ≤ e) (wide : e < 64) :
    Shaped (buddyInit allocator address (2 ^ e) (2 ^ p) memory info).toBuddyShape e p :=
  ⟨rfl, rfl, le, wide, numLevels_power le wide⟩

theorem initHeads_other {heads i n a : Nat}
    (other : ∀ k, i ≤ k → k < i + n →
      a ≠ heads + sizeofListHead * k ∧ a ≠ heads + sizeofListHead * k + 8) :
    initHeads heads memory i n a = memory a := by
  induction n generalizing i memory with
  | zero => rfl
  | succ n ih =>
    obtain ⟨first, second⟩ := other i (by omega) (by omega)
    rw [initHeads, ih (fun k low high => other k (by omega) (by omega)), initListHead, setNext,
      setPrev, Function.update_of_ne second, Function.update_of_ne first]

theorem initHeads_ring {heads i n k : Nat} (low : i ≤ k) (high : k < i + n) :
    Ring (initHeads heads memory i n) (heads + sizeofListHead * k) [] := by
  induction n generalizing i memory with
  | zero => omega
  | succ n ih =>
    rw [initHeads]
    by_cases first : k = i
    · subst first
      have ring := @ring_initListHead (heads + sizeofListHead * k) memory (by omega)
      unfold sizeofListHead at ring ⊢
      refine ⟨(initHeads_other ?_).trans ring.1, (initHeads_other ?_).trans ring.2⟩ <;>
      · intro t low high
        unfold sizeofListHead
        omega
    · exact ih (by omega) (by omega)

def freshTree : Nat → Status := Function.update (fun _ => absent) 1 Status.free

theorem tree_root {levels : Nat} {status : Status} (terminal : Terminal status) :
    Tree levels (Function.update (fun _ => absent) 1 status) := by
  have none : ∀ i, Function.update (fun _ => absent) 1 status i ≠ split := by
    intro i
    rw [Function.update_apply]
    split
    · exact terminal.not_split
    · decide
  constructor
  · rfl
  · rw [Function.update_self]
    exact terminal.there
  · intro c two
    rw [Function.update_of_ne (by omega)]
    exact iff_of_false (fun there => there rfl) (none _)
  · intro j isSplit
    exact absurd isSplit (none j)

end Start

section Pages
variable {g : BuddyShape} {e p l j : Nat}

theorem Shaped.place_isPage (shaped : Shaped g e p) (level : At l j) (low : l < g.num_levels) :
    g.IsPage (g.place e l j) := by
  have levels := shaped.levels
  have le := shaped.le
  have power : 2 ^ (e - l) = 2 ^ (e - p - l) * 2 ^ p := by
    rw [← Nat.pow_add]
    congr 1
    omega
  have total : 2 ^ l * 2 ^ (e - p - l) = 2 ^ (g.num_levels - 1) := by
    rw [← Nat.pow_add]
    congr 1
    omega
  refine ⟨(j - 2 ^ l) * 2 ^ (e - p - l), ?_, ?_⟩
  · rw [← total]
    refine Nat.mul_lt_mul_of_pos_right ?_ (Nat.pow_pos (by decide))
    have high := level.2
    rw [Nat.pow_succ] at high
    omega
  · rw [BuddyShape.place, offset, power, shaped.page, Nat.mul_assoc]

theorem Shaped.right_isPage (shaped : Shaped g e p) (level : At l j) {k : Nat} (deeper : l < k)
    (low : k < g.num_levels) : g.IsPage (g.place e l j + g.size >>> k) := by
  obtain ⟨count, rfl⟩ : ∃ count, k = l + count + 1 := ⟨k - l - 1, by omega⟩
  obtain ⟨at_left, place⟩ := shaped.place_chain level count (by omega)
  rw [← place, ← shaped.place_right at_left low]
  exact shaped.place_isPage (at_left.child (by omega)) low

theorem Shaped.page_unit (shaped : Shaped g e p) (node : 4 ≤ p) {a : Nat} (page : g.IsPage a) :
    ∃ k, a = g.address + 16 * k ∧ a + 16 ≤ g.address + g.size := by
  obtain ⟨q, rfl⟩ : ∃ q, p = q + 4 := ⟨p - 4, by omega⟩
  obtain ⟨k, below, rfl⟩ := page
  have page : g.page_size = 16 * 2 ^ q := by
    rw [shaped.page, Nat.pow_add, Nat.mul_comm]
  have step := Nat.mul_le_mul_right g.page_size (Nat.succ_le_of_lt below)
  have total : 2 ^ (g.num_levels - 1) * g.page_size = g.size := by
    have levels := shaped.levels
    have le := shaped.le
    rw [shaped.page, shaped.size, ← Nat.pow_add]
    congr 1
    omega
  have positive : 0 < 2 ^ q := Nat.pow_pos (by decide)
  rw [total, Nat.succ_mul] at step
  refine ⟨k * 2 ^ q, ?_, by omega⟩
  rw [page, Nat.mul_left_comm]

theorem Shaped.site (shaped : Shaped g e p) (node : 4 ≤ p) {low high : Nat}
    (apart : g.free_blocks + sizeofListHead * g.num_levels ≤ low ∨ high ≤ g.free_blocks) :
    Site g (g.PageIn low high) := by
  unfold sizeofListHead at apart
  refine ⟨?_, ?_⟩
  · rintro a b (⟨first, start, stop⟩ | ⟨l, small, rfl⟩) (⟨second, start', stop'⟩ | ⟨m, less, rfl⟩)
    · obtain ⟨k, rfl, -⟩ := shaped.page_unit node first
      obtain ⟨t, rfl, -⟩ := shaped.page_unit node second
      omega
    all_goals
      unfold BuddyShape.head sizeofListHead at *
      omega
  · rintro l small ⟨-, start, stop⟩
    unfold BuddyShape.head sizeofListHead at *
    omega

end Pages

section Initial
variable {allocator address e p : Nat} {memory : Words} {info : BitmapWords}
  {nodes : Nat → Prop}
  (le : p ≤ e) (wide : e < 64)
  (site : Site (buddyInit allocator address (2 ^ e) (2 ^ p) memory info).toBuddyShape nodes)
  (isNode : nodes address)
include le wide site isNode

theorem buddyInit_stands :
    Stands (buddyInit allocator address (2 ^ e) (2 ^ p) memory info).toBuddyShape e nodes freshTree
      (buddyInit allocator address (2 ^ e) (2 ^ p) memory info)
      (Function.update (fun _ => []) 0 [address]) 0 0 := by
  have shaped := @buddyInit_shaped allocator address e p memory info le wide
  generalize shape :
    (buddyInit allocator address (2 ^ e) (2 ^ p) memory info).toBuddyShape = g at *
  have some : 0 < g.num_levels := by
    rw [shaped.levels]
    omega
  have place : g.place e 0 1 = address := by
    rw [BuddyShape.place, offset, ← shape]
    change address + (1 - 1) * 2 ^ (e - 0) = address
    rw [Nat.sub_self, Nat.zero_mul, Nat.add_zero]
  -- the lists before the whole block is added
  have empty : FreeLists g e nodes (Function.update (fun _ => absent) 1 live)
      (initHeads g.free_blocks memory 0 g.num_levels) (fun _ => []) := by
    constructor
    · intro l low
      exact initHeads_ring (Nat.zero_le l) (by omega)
    · intro l low
      exact List.nodup_nil
    · intro l low a member
      exact absurd member List.not_mem_nil
    · intro l low a
      refine iff_of_false List.not_mem_nil ?_
      rintro ⟨j, -, isFree, -⟩
      rw [Function.update_apply] at isFree
      split at isFree <;> cases isFree
  refine ⟨shape, tree_root (Or.inl rfl), ?_, ?_, ?_⟩
  · intro j some both
    rw [freshTree, Function.update_of_ne (by omega)] at both
    cases both.1
  · have added : FreeLists g e nodes freshTree _ _ :=
      empty.add shaped (tree_root (Or.inr rfl)) site some At.root (place ▸ isNode)
        (fun m _ => List.not_mem_nil) (by
          intro i
          rw [freshTree, Function.update_apply, Function.update_apply]
          grind)
    rw [place, ← shape] at added
    rw [← shape]
    exact added
  · have clear : ∀ i, i < 64 * 2 ^ g.num_levels →
        bitmapGet (buddyInit allocator address (2 ^ e) (2 ^ p) memory info).block_info i =
          false := by
      intro i small
      rw [bitmapGet_eq]
      change (if i / 64 < buddyBlockInfoLen
        (buddyInit allocator address (2 ^ e) (2 ^ p) memory info).num_levels then 0
        else info (i / 64)).testBit (i % 64) = false
      rw [shape, blockInfoLen_eq, if_pos (by omega), Nat.zero_testBit]
    have halves := shaped.two_halves
    constructor
    · intro j one small _
      rw [clear _ (by omega), freshTree, Function.update_apply]
      split <;> rfl
    · intro j one small
      have unused : ∀ i, 2 ≤ i → inUse freshTree 0 i = false := by
        intro i two
        rw [inUse, freshTree, Function.update_of_ne (by omega)]
        simp
      rw [clear _ (by omega), unused _ (by omega), unused _ (by omega)]
      rfl
    · intro i _ inside
      exact clear i (by omega)

theorem buddyInit_kept :
    Kept (buddyInit allocator address (2 ^ e) (2 ^ p) memory info).toBuddyShape e nodes freshTree
      (buddyInit allocator address (2 ^ e) (2 ^ p) memory info)
      (Function.update (fun _ => []) 0 [address]) [] := by
  refine ⟨buddyInit_stands le wide site isNode, ?_, List.nodup_nil, ?_⟩
  · intro b
    refine iff_of_false List.not_mem_nil ?_
    rintro ⟨-, j, -, isLive, -⟩
    rw [freshTree, Function.update_apply] at isLive
    split at isLive <;> cases isLive
  · have shaped := @buddyInit_shaped allocator address e p memory info le wide
    have some : 0 < (buddyInit allocator address (2 ^ e) (2 ^ p) memory info).num_levels := by
      rw [shaped.levels]
      omega
    have whole := @freeBytes_update _ e 0 (fun _ => []) some [address]
    have none : freeBytes (buddyInit allocator address (2 ^ e) (2 ^ p) memory info).toBuddyShape e
        (fun _ => []) = 0 := by
      unfold freeBytes
      simp
    rw [none, List.length_nil, Nat.zero_mul, List.length_singleton, Nat.one_mul,
      Nat.zero_add] at whole
    rw [List.map_nil, List.sum_nil]
    exact whole

end Initial

section Steps
variable {g : BuddyShape} {e p : Nat} {nodes : Nat → Prop} {st : Nat → Status} {s : Buddy}
  {lists : Nat → List Nat} {live : List BuddyBlock}

theorem Kept.alloc (kept : Kept g e nodes st s lists live) (shaped : Shaped g e p)
    (site : Site g nodes) {level : Nat} (low : level < g.num_levels)
    (near : ∀ b i, At b i → st i = Status.free → (∀ k, b < k → k ≤ level → lists k = []) →
      ∀ k, b < k → k ≤ level → nodes (g.place e b i + g.size >>> k)) :
    (s.levelAlloc level = some (none, s) ∧ ∀ l ≤ level, lists l = []) ∨
      ∃ b i s' st' lists', b ≤ level ∧ At b i ∧ st i = Status.free ∧
        (∀ k, b < k → k ≤ level → lists k = []) ∧
        s.levelAlloc level = some (some (g.place e b i), s') ∧
        Kept g e nodes st' s' lists' (⟨g.place e b i, level⟩ :: live) := by
  rcases kept.stands.levelAlloc shaped site low near with missing | ⟨b, i, s', lists', less,
    at_i, isFree, between, call, at_end, place_end, stands, bytes⟩
  · exact Or.inl missing
  · right
    have tree := kept.stands.tree.relabel (Or.inl isFree) (Or.inr rfl : Terminal Status.live)
    have lives := halveDown_live tree (level - b) at_i (by omega) (Function.update_self i _ st)
    have fresh : st (i * 2 ^ (level - b)) ≠ Status.live := by
      intro isLive
      have power : 0 < 2 ^ (e - level) := Nat.pow_pos (by decide)
      have positive : 0 < 2 ^ (e - b) := Nat.pow_pos (by decide)
      have start : offset e level (i * 2 ^ (level - b)) = offset e b i :=
        Nat.add_left_cancel place_end
      have levels := shaped.levels
      obtain ⟨same, -⟩ := kept.stands.tree.apart (e := e) (by omega) at_end (Or.inr isLive) at_i
        (Or.inl isFree) low (by omega) ⟨Nat.le_refl _, by omega⟩ ⟨by omega, by omega⟩
      rw [same, isFree] at isLive
      cases isLive
    refine ⟨b, i, s', _, lists', less, at_i, isFree, between, call, stands, ?_, ?_, ?_⟩
    · intro c
      rw [List.mem_cons, kept.lives]
      constructor
      · rintro (rfl | ⟨small, j, at_j, isLive, place⟩)
        · exact ⟨low, _, at_end, (lives _).mpr (Or.inr rfl), place_end.symm⟩
        · refine ⟨small, j, at_j, (lives j).mpr (Or.inl ⟨?_, ?_⟩), place⟩
          · rw [Function.update_apply]
            split
            · rfl
            · exact isLive
          · rintro rfl
            rw [isFree] at isLive
            cases isLive
      · rintro ⟨small, j, at_j, isLive, place⟩
        rcases (lives j).mp isLive with ⟨old, other⟩ | rfl
        · rw [Function.update_of_ne other] at old
          exact Or.inr ⟨small, j, at_j, old, place⟩
        · left
          have same := at_j.unique at_end
          obtain ⟨ptr, height⟩ := c
          subst same
          rw [BuddyBlock.mk.injEq]
          exact ⟨place.trans place_end, rfl⟩
    · refine List.nodup_cons.mpr ⟨?_, kept.distinct⟩
      intro member
      obtain ⟨-, j, at_j, isLive, place⟩ := (kept.lives _).mp member
      rw [place_inj at_end at_j (place_end.trans place)] at fresh
      exact fresh isLive
    · rw [List.map_cons, List.sum_cons]
      have old := kept.bytes
      dsimp only
      omega

theorem Kept.free (kept : Kept g e nodes st s lists live) (shaped : Shaped g e p)
    (site : Site g nodes) {b : BuddyBlock} (member : b ∈ live) (isNode : nodes b.ptr) :
    ∃ s' st' lists', s.levelFree b.ptr b.level = some s' ∧
      Kept g e nodes st' s' lists' (live.erase b) ∧
      ∀ c, At b.level c → b.ptr = g.place e b.level c →
        (lists' (joinLevel st b.level c)).length = (lists (joinLevel st b.level c)).length + 1 ∧
          ∀ k, k ≠ joinLevel st b.level c → (lists' k).length ≤ (lists k).length := by
  obtain ⟨low, c, level, here, place⟩ := (kept.lives b).mp member
  obtain ⟨m, s', lists', st', call, stands, lives, top, longer, others, bytes⟩ :=
    kept.stands.levelFree shaped site level low here (place ▸ isNode)
  refine ⟨s', st', lists', place ▸ call, ⟨stands, ?_, kept.distinct.erase b, ?_⟩, ?_⟩
  · intro d
    rw [kept.distinct.mem_erase_iff, kept.lives]
    constructor
    · rintro ⟨other, small, j, at_j, isLive, place'⟩
      refine ⟨small, j, at_j, (lives j).mpr ⟨isLive, ?_⟩, place'⟩
      rintro rfl
      have same := at_j.unique level
      apply other
      obtain ⟨ptr, height⟩ := d
      obtain ⟨ptr', height'⟩ := b
      dsimp only at same place place'
      subst same
      rw [BuddyBlock.mk.injEq]
      exact ⟨place'.trans place.symm, rfl⟩
    · rintro ⟨small, j, at_j, isLive, place'⟩
      obtain ⟨was, other⟩ := (lives j).mp isLive
      refine ⟨?_, small, j, at_j, was, place'⟩
      rintro rfl
      exact other (place_inj at_j level (place'.symm.trans place))
  · have split := List.perm_cons_erase member
    have sum := (split.map fun b => 2 ^ (e - b.level)).sum_eq
    rw [List.map_cons, List.sum_cons] at sum
    have old := kept.bytes
    omega
  · intro i at_i same
    rw [← place_inj level at_i (place.symm.trans same), ← top]
    exact ⟨longer, others⟩

theorem Shaped.has_iff (shaped : Shaped g e p) {l j o : Nat} (low : l < g.num_levels) :
    BuddyBlock.Has g ⟨g.place e l j, l⟩ (g.address + o) ↔
      offset e l j ≤ o ∧ o < offset e l j + 2 ^ (e - l) := by
  unfold BuddyBlock.Has BuddyShape.place
  dsimp only
  rw [shaped.sizeAt (shaped.deep low)]
  omega

/-- What holders write into their blocks is not on any list. -/
theorem Kept.write (kept : Kept g e nodes st s lists live) (shaped : Shaped g e p)
    (node : 4 ≤ p) {memory : Words} {holders : List BuddyBlock} (held : holders ⊆ live)
    (heads : ∀ l < g.num_levels, ∀ b ∈ holders, ¬ b.Has g (g.head l) ∧ ¬ b.Has g (g.head l + 8))
    (same : ∀ a, (∀ b ∈ holders, ¬ b.Has s.toBuddyShape a) → memory a = s.memory a) :
    Kept g e nodes st { s with memory := memory } lists live := by
  have stands := kept.stands
  rw [stands.shape] at same
  -- the two words of a list node are in a free block
  have words : ∀ l < g.num_levels, ∀ c ∈ g.head l :: lists l, ∀ d, d = 0 ∨ d = 8 →
      ∀ b ∈ holders, ¬ b.Has g (c + d) := by
    intro l low c member d word b holder has
    rcases List.mem_cons.mp member with rfl | listed
    · obtain ⟨first, second⟩ := heads l low b holder
      rcases word with rfl | rfl
      · exact first has
      · exact second has
    · obtain ⟨j, at_j, isFree, rfl⟩ := (stands.free.listed l low c).mp listed
      obtain ⟨small, i, at_i, isLive, place⟩ := (kept.lives b).mp (held holder)
      have levels := shaped.levels
      have le := shaped.le
      have power : 2 ^ 4 ≤ 2 ^ (e - l) := Nat.pow_le_pow_right (by decide) (by omega)
      have mine := (shaped.has_iff (l := b.level) (j := i) (o := offset e l j + d) small).mp (by
        rw [← place, ← Nat.add_assoc]
        exact has)
      obtain ⟨same, -⟩ := stands.tree.apart (e := e) (by omega) at_i (Or.inr isLive) at_j
        (Or.inl isFree) small low mine ⟨by omega, by omega⟩
      rw [same, isFree] at isLive
      cases isLive
  refine ⟨⟨stands.shape, stands.tree, stands.joined, ?_, stands.bits⟩, kept.lives, kept.distinct,
    kept.bytes⟩
  refine ⟨?_, stands.free.distinct, stands.free.node, stands.free.listed⟩
  intro l low
  refine (stands.free.ring l low).frame ?_ ?_
  · intro c member
    exact same _ (words l low c member 8 (Or.inr rfl))
  · intro c member
    exact same _ (words l low c member 0 (Or.inl rfl))

theorem firstPages_zero : firstPages g 0 = [] := rfl

theorem mem_firstPages {k : Nat} {b : BuddyBlock} : b ∈ firstPages g k ↔
    ∃ t < k, (⟨g.address + t * g.page_size, g.num_levels - 1⟩ : BuddyBlock) = b := by
  simp [firstPages]

/-- A free or live node before the end of the first pages is one of them. -/
theorem Kept.first_page (kept : Kept g e nodes st s lists live) (shaped : Shaped g e p) {k : Nat}
    (own : firstPages g k ⊆ live) {l j o : Nat} (level : At l j) (low : l < g.num_levels)
    (terminal : Terminal (st j)) (first : offset e l j ≤ o) (last : o < offset e l j + 2 ^ (e - l))
    (front : o < k * 2 ^ p) : st j = Status.live ∧ ⟨g.place e l j, l⟩ ∈ firstPages g k := by
  have levels := shaped.levels
  have le := shaped.le
  have positive : 0 < 2 ^ p := Nat.pow_pos (by decide)
  have page := (@mem_firstPages g k _).mpr
    ⟨o / 2 ^ p, (Nat.div_lt_iff_lt_mul positive).mpr front, rfl⟩
  obtain ⟨small, i, at_i, isLive, ptr⟩ := (kept.lives _).mp (own page)
  dsimp only at small at_i ptr
  have start : o / 2 ^ p * 2 ^ p = offset e (g.num_levels - 1) i := by
    rw [shaped.page] at ptr
    exact Nat.add_left_cancel ptr
  have size : 2 ^ (e - (g.num_levels - 1)) = 2 ^ p := by
    congr 1
    omega
  have parts := Nat.div_add_mod o (2 ^ p)
  have less := Nat.mod_lt o positive
  rw [Nat.mul_comm] at parts
  obtain ⟨rfl, rfl⟩ := kept.stands.tree.apart (e := e) (by omega) level terminal at_i
    (Or.inr isLive) low small ⟨first, last⟩ ⟨by omega, by omega⟩
  exact ⟨isLive, ptr ▸ page⟩

end Steps

section Runs
variable {allocator address size pageSize : Nat} {memory : Words} {info : BitmapWords}

theorem Usable.shaped (usable : Usable allocator address size pageSize) :
    ∃ e p, size = 2 ^ e ∧ pageSize = 2 ^ p ∧ p ≤ e ∧ e < 64 ∧ 4 ≤ p := by
  obtain ⟨e, rfl, wide⟩ := usable.power
  obtain ⟨p, rfl⟩ := usable.pages
  refine ⟨e, p, rfl, rfl, ?_, wide, ?_⟩
  · exact (Nat.pow_le_pow_iff_right (by decide)).mp usable.fits
  · exact (Nat.pow_le_pow_iff_right (by decide)).mp (show 2 ^ 4 ≤ 2 ^ p from usable.node)

/-- An allocator without live blocks, but for its first pages, which hold the list heads if
    these are in the region. -/
structure Fresh (start : Buddy) (k e p : Nat) : Prop where
  shaped : Shaped start.toBuddyShape e p
  node : 4 ≤ p
  outside : start.free_blocks + sizeofListHead * start.num_levels ≤
      start.address + k * start.page_size ∨
    start.address + start.size ≤ start.free_blocks
  kept : ∃ st lists, Kept start.toBuddyShape e (start.Later k) st start lists
    (firstPages start.toBuddyShape k)

theorem Usable.fresh (usable : Usable allocator address size pageSize) :
    ∃ e p, Fresh (buddyInit allocator address size pageSize memory info) 0 e p := by
  obtain ⟨e, p, rfl, rfl, le, wide, node⟩ := usable.shaped
  have shaped := @buddyInit_shaped allocator address e p memory info le wide
  have outside : allocator + sizeofBuddyAllocator +
      sizeofListHead * numLevels (2 ^ e) (2 ^ p) ≤ address + 0 * 2 ^ p ∨
      address + 2 ^ e ≤ allocator + sizeofBuddyAllocator := by
    have apart := usable.apart
    unfold buddySizeofMetadata at apart
    omega
  have first : (buddyInit allocator address (2 ^ e) (2 ^ p) memory info).IsPage address :=
    ⟨0, Nat.pow_pos (by decide), by rw [Nat.zero_mul]; rfl⟩
  obtain ⟨-, -, inside⟩ := shaped.page_unit node first
  exact ⟨e, p, shaped, node, outside, _, _, buddyInit_kept le wide (shaped.site node outside)
    ⟨first, (Nat.zero_mul (2 ^ p)).symm ▸ Nat.le_refl _, inside⟩⟩

variable {start s : Buddy} {live : List BuddyBlock} {k e p : Nat} {st : Nat → Status}
  {lists : Nat → List Nat}

theorem Fresh.site (fresh : Fresh start k e p) : Site start.toBuddyShape (start.Later k) :=
  fresh.shaped.site fresh.node fresh.outside

section Fresh
variable (fresh : Fresh start k e p)
  (kept : Kept start.toBuddyShape e (start.Later k) st s lists
    (live ++ firstPages start.toBuddyShape k))
include fresh kept

theorem Fresh.live_node {b : BuddyBlock} (member : b ∈ live) : start.Later k b.ptr := by
  have shaped := fresh.shaped
  obtain ⟨low, j, level, isLive, place⟩ := (kept.lives b).mp (List.mem_append_left _ member)
  have power : 0 < 2 ^ (e - b.level) := Nat.pow_pos (by decide)
  have page := shaped.place_isPage level low
  obtain ⟨-, -, inside⟩ := shaped.page_unit fresh.node page
  rw [place]
  refine ⟨page, ?_, inside⟩
  by_contra early
  rw [shaped.page, BuddyShape.place] at early
  obtain ⟨-, own⟩ := kept.first_page (k := k) shaped (List.subset_append_right _ _) level low
    (Or.inr isLive) (Nat.le_refl _) (by omega) (by omega)
  rw [← place] at own
  exact List.disjoint_of_nodup_append kept.distinct member own

theorem Fresh.heads :
    ∀ l < start.num_levels, ∀ b ∈ live, ¬ b.Has start.toBuddyShape (start.head l) ∧
      ¬ b.Has start.toBuddyShape (start.head l + 8) := by
  intro l low b member
  obtain ⟨small, j, level, -, place⟩ := (kept.lives b).mp (List.mem_append_left _ member)
  have inside := offset_inside level (fresh.shaped.deep small)
  obtain ⟨-, later, -⟩ := fresh.live_node kept member
  have outside := fresh.outside
  have size := fresh.shaped.size
  have sizeAt := fresh.shaped.sizeAt (fresh.shaped.deep small)
  unfold BuddyShape.place at place
  unfold BuddyBlock.Has BuddyShape.head sizeofListHead at *
  omega

end Fresh

theorem Kept.levelAlloc (fresh : Fresh start k e p)
    (kept : Kept start.toBuddyShape e (start.Later k) st s lists live) {level : Nat}
    (low : level < s.num_levels) :
    s.levelAlloc level = some (none, s) ∨ ∃ st' lists' ptr s',
      s.levelAlloc level = some (some ptr, s') ∧
        Kept start.toBuddyShape e (start.Later k) st' s' lists' (⟨ptr, level⟩ :: live) := by
  have shaped := fresh.shaped
  rw [kept.stands.shape] at low
  have near : ∀ b i, At b i → st i = Status.free →
      (∀ m, b < m → m ≤ level → lists m = []) → ∀ m, b < m → m ≤ level →
      start.Later k (start.place e b i + start.size >>> m) := by
    intro b i at_i isFree _ m deeper high
    have listed := (kept.stands.free.listed b (by omega) _).mpr ⟨i, at_i, isFree, rfl⟩
    obtain ⟨-, later, -⟩ := kept.stands.free.node b (by omega) _ listed
    have page := shaped.right_isPage at_i deeper (by omega)
    obtain ⟨-, -, inside⟩ := shaped.page_unit fresh.node page
    exact ⟨page, Nat.le_trans later (Nat.le_add_right _ _), inside⟩
  rcases kept.alloc shaped fresh.site low near with
    ⟨full, -⟩ | ⟨b, i, s', st', lists', -, -, -, -, found, kept'⟩
  · exact .inl full
  · exact .inr ⟨st', lists', _, s', found, kept'⟩

theorem BuddyRun.kept (run : BuddyRun start s live) (fresh : Fresh start k e p) :
    ∃ st lists, Kept start.toBuddyShape e (start.Later k) st s lists
      (live ++ firstPages start.toBuddyShape k) := by
  have shaped := fresh.shaped
  induction run with
  | init => exact fresh.kept
  | alloc before low call ih =>
    obtain ⟨st, lists, kept⟩ := ih
    rcases Kept.levelAlloc fresh kept low with full | ⟨st', lists', ptr, s', found, kept'⟩
    · rw [full] at call
      cases call
    · rw [found] at call
      cases call
      exact ⟨st', lists', kept'⟩
  | full before low call ih =>
    obtain ⟨st, lists, kept⟩ := ih
    rcases Kept.levelAlloc fresh kept low with full | ⟨st', lists', ptr, s', found, kept'⟩
    · rw [full] at call
      cases call
      exact ⟨st, lists, kept⟩
    · rw [found] at call
      cases call
  | free before member call ih =>
    obtain ⟨st, lists, kept⟩ := ih
    obtain ⟨s', st', lists', found, kept', -⟩ :=
      kept.free shaped fresh.site (List.mem_append_left _ member) (fresh.live_node kept member)
    rw [found] at call
    cases call
    rw [List.erase_append_left _ member] at kept'
    exact ⟨st', lists', kept'⟩
  | write before same ih =>
    obtain ⟨st, lists, kept⟩ := ih
    exact ⟨st, lists, kept.write shaped fresh.node (List.subset_append_left _ _)
      (fresh.heads kept) same⟩

end Runs

end OmenMemory
