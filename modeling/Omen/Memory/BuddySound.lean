import Omen.Memory.BuddyRuns

/- The invariant of the buddy allocator in terms of addresses: live blocks and listed blocks
   tile the region, and the two kinds of bits say which blocks are in use and which divided. -/
namespace OmenMemory
open BuddyTree Status Words

def freeBlocks (levels : Nat) (lists : Nat → List Nat) : List BuddyBlock :=
  (List.range levels).flatMap fun l => (lists l).map fun a => ⟨a, l⟩

structure Tiled (g : BuddyShape) (blocks : List BuddyBlock) : Prop where
  aligned : ∀ b ∈ blocks, b.level < g.num_levels ∧ g.address ≤ b.ptr ∧
    b.ptr + g.size >>> b.level ≤ g.address + g.size ∧ g.size >>> b.level ∣ b.ptr - g.address
  apart : blocks.Pairwise fun b c => ∀ a, b.Has g a → ¬ c.Has g a
  covers : ∀ a, g.address ≤ a → a < g.address + g.size → ∃ b ∈ blocks, b.Has g a

def BuddyShape.block (g : BuddyShape) (l k : Nat) : BuddyBlock :=
  ⟨g.address + k * (g.size >>> l), l⟩

def BuddyBlock.Divided (g : BuddyShape) (blocks : List BuddyBlock) (b : BuddyBlock) : Prop :=
  ∃ c ∈ blocks, b.level < c.level ∧ ∀ a, c.Has g a → b.Has g a

def BuddyBlock.InUse (g : BuddyShape) (live blocks : List BuddyBlock) (b : BuddyBlock) : Prop :=
  b ∈ live ∨ b.Divided g blocks

structure BuddySound (s : Buddy) (live : List BuddyBlock) (lists : Nat → List Nat) : Prop where
  rings : ∀ l < s.num_levels, Ring s.memory (s.head l) (lists l)
  tiled : Tiled s.toBuddyShape (live ++ freeBlocks s.num_levels lists)
  pairs : ∀ l k, l + 1 < s.num_levels → k < 2 ^ l →
    ∃ bit, s.getBit (freeBit (s.blockIndex (s.block (l + 1) (2 * k)).ptr (l + 1))) = some bit ∧
      (bit = true ↔
        ¬ ((s.block (l + 1) (2 * k)).InUse s.toBuddyShape live
            (live ++ freeBlocks s.num_levels lists) ↔
          (s.block (l + 1) (2 * k + 1)).InUse s.toBuddyShape live
            (live ++ freeBlocks s.num_levels lists)))
  splits : ∀ l k, l < s.num_levels → k < 2 ^ l →
    ∃ bit, s.getBit (s.splitBit (s.blockIndex (s.block l k).ptr l)) = some bit ∧
      (bit = true ↔
        (s.block l k).Divided s.toBuddyShape (live ++ freeBlocks s.num_levels lists))
  merged : ∀ l, l + 1 < s.num_levels → ∀ a ∈ lists (l + 1), s.toBuddy a (l + 1) ∉ lists (l + 1)

section Soundness
variable {g : BuddyShape} {e p l k : Nat} {nodes : Nat → Prop} {st : Nat → Status} {s : Buddy}
  {lists : Nat → List Nat} {live : List BuddyBlock}

theorem mem_freeBlocks {levels : Nat} {b : BuddyBlock} :
    b ∈ freeBlocks levels lists ↔ b.level < levels ∧ b.ptr ∈ lists b.level := by
  rw [freeBlocks, List.mem_flatMap]
  constructor
  · rintro ⟨l, low, member⟩
    obtain ⟨a, listed, rfl⟩ := List.mem_map.mp member
    exact ⟨List.mem_range.mp low, listed⟩
  · rintro ⟨low, listed⟩
    exact ⟨b.level, List.mem_range.mpr low, List.mem_map.mpr ⟨b.ptr, listed, rfl⟩⟩

theorem Kept.mem_blocks (kept : Kept g e nodes st s lists live) {b : BuddyBlock} :
    b ∈ live ++ freeBlocks g.num_levels lists ↔ b.level < g.num_levels ∧
      ∃ j, At b.level j ∧ Terminal (st j) ∧ b.ptr = g.place e b.level j := by
  rw [List.mem_append, kept.lives, mem_freeBlocks]
  constructor
  · rintro (⟨low, j, level, isLive, place⟩ | ⟨low, listed⟩)
    · exact ⟨low, j, level, Or.inr isLive, place⟩
    · obtain ⟨j, level, isFree, place⟩ := (kept.stands.free.listed _ low _).mp listed
      exact ⟨low, j, level, Or.inl isFree, place⟩
  · rintro ⟨low, j, level, isFree | isLive, place⟩
    · exact Or.inr ⟨low, (kept.stands.free.listed _ low _).mpr ⟨j, level, isFree, place⟩⟩
    · exact Or.inl ⟨low, j, level, isLive, place⟩

theorem Shaped.block_node (shaped : Shaped g e p) (low : l < g.num_levels) (inside : k < 2 ^ l) :
    At l (2 ^ l + k) ∧ g.block l k = ⟨g.place e l (2 ^ l + k), l⟩ := by
  refine ⟨⟨by omega, by rw [Nat.pow_succ]; omega⟩, ?_⟩
  rw [BuddyShape.block, BuddyShape.place, offset, shaped.sizeAt (shaped.deep low),
    Nat.add_sub_cancel_left]

variable (kept : Kept g e nodes st s lists live) (shaped : Shaped g e p)
include kept shaped

theorem Kept.blocks_apart {b c : BuddyBlock} (one : b ∈ live ++ freeBlocks g.num_levels lists)
    (two : c ∈ live ++ freeBlocks g.num_levels lists) {a : Nat} (mine : b.Has g a)
    (yours : c.Has g a) : b = c := by
  obtain ⟨low, j, at_j, first, place⟩ := kept.mem_blocks.mp one
  obtain ⟨small, i, at_i, second, place'⟩ := kept.mem_blocks.mp two
  obtain ⟨ptr, height⟩ := b
  obtain ⟨ptr', height'⟩ := c
  dsimp only at low at_j place small at_i place'
  subst place place'
  obtain ⟨o, rfl⟩ : ∃ o, a = g.address + o := by
    refine ⟨a - g.address, ?_⟩
    have start := mine.1
    unfold BuddyShape.place at start
    dsimp only at start
    omega
  have levels := shaped.levels
  obtain ⟨same, eq⟩ := kept.stands.tree.apart (e := e) (by omega) at_j first at_i second low small
    ((shaped.has_iff low).mp mine) ((shaped.has_iff small).mp yours)
  rw [same, eq]

theorem Kept.tiled : Tiled g (live ++ freeBlocks g.num_levels lists) := by
  have levels := shaped.levels
  constructor
  · intro b member
    obtain ⟨low, j, level, -, place⟩ := kept.mem_blocks.mp member
    have inside := offset_inside level (shaped.deep low)
    rw [shaped.sizeAt (shaped.deep low), shaped.size, place]
    unfold BuddyShape.place
    refine ⟨low, by omega, by omega, ?_⟩
    rw [Nat.add_sub_cancel_left, offset]
    exact Nat.dvd_mul_left _ _
  · have distinct : (live ++ freeBlocks g.num_levels lists).Nodup := by
      refine List.Nodup.append kept.distinct ?_ ?_
      · refine List.nodup_flatMap.mpr ⟨?_, ?_⟩
        · intro l low
          refine (kept.stands.free.distinct l (List.mem_range.mp low)).map ?_
          intro a b same
          exact (BuddyBlock.mk.injEq .. ▸ same).1
        · refine List.nodup_range.imp ?_
          intro l m other b first second
          obtain ⟨_, -, rfl⟩ := List.mem_map.mp first
          obtain ⟨_, -, same⟩ := List.mem_map.mp second
          exact other (BuddyBlock.mk.injEq .. ▸ same).2.symm
      · intro b holder listed
        obtain ⟨-, j, level, isLive, place⟩ := (kept.lives b).mp holder
        obtain ⟨low, member⟩ := mem_freeBlocks.mp listed
        obtain ⟨i, at_i, isFree, place'⟩ := (kept.stands.free.listed _ low _).mp member
        rw [place_inj level at_i (place.symm.trans place'), isFree] at isLive
        cases isLive
    refine distinct.pairwise_of_forall_ne ?_
    intro b one c two other a mine yours
    exact other (kept.blocks_apart shaped one two mine yours)
  · intro a low high
    obtain ⟨o, rfl⟩ : ∃ o, a = g.address + o := ⟨a - g.address, by omega⟩
    obtain ⟨l, j, small, level, terminal, inside⟩ :=
      kept.stands.tree.covers (e := e) (o := o) (by omega) (by omega)
        (by rw [← shaped.size]; omega)
    exact ⟨⟨g.place e l j, l⟩, kept.mem_blocks.mpr ⟨small, j, level, terminal, rfl⟩,
      (shaped.has_iff small).mpr inside⟩

theorem Kept.divided_iff (low : l < g.num_levels) {j : Nat} (level : At l j) :
    BuddyBlock.Divided g (live ++ freeBlocks g.num_levels lists) ⟨g.place e l j, l⟩ ↔
      st j = split := by
  have levels := shaped.levels
  rw [kept.stands.tree.split_iff (e := e) (by omega) level low]
  constructor
  · rintro ⟨⟨ptr, m⟩, member, lower, inside⟩
    obtain ⟨small, i, at_i, terminal, place⟩ := kept.mem_blocks.mp member
    dsimp only at small at_i place lower
    subst place
    refine ⟨m, i, lower, small, at_i, terminal, ?_⟩
    intro o mine
    exact (shaped.has_iff low).mp (inside _ ((shaped.has_iff small).mpr mine))
  · rintro ⟨m, i, lower, small, at_i, terminal, inside⟩
    refine ⟨⟨g.place e m i, m⟩, kept.mem_blocks.mpr ⟨small, i, at_i, terminal, rfl⟩, lower, ?_⟩
    intro a mine
    obtain ⟨o, rfl⟩ : ∃ o, a = g.address + o := by
      refine ⟨a - g.address, ?_⟩
      have start := mine.1
      unfold BuddyShape.place at start
      dsimp only at start
      omega
    exact (shaped.has_iff low).mpr (inside o ((shaped.has_iff small).mp mine))

theorem Kept.inUse_iff (low : l < g.num_levels) {j : Nat} (level : At l j) :
    BuddyBlock.InUse g live (live ++ freeBlocks g.num_levels lists) ⟨g.place e l j, l⟩ ↔
      inUse st 0 j = true := by
  rw [BuddyBlock.InUse, kept.divided_iff shaped low level, kept.lives, inUse, decide_eq_true_iff]
  have some := level.one_le
  constructor
  · rintro (⟨-, i, at_i, isLive, place⟩ | isSplit)
    · rw [place_inj level at_i place]
      exact ⟨by have := at_i.one_le; omega, Or.inl isLive⟩
    · exact ⟨by omega, Or.inr isSplit⟩
  · rintro ⟨-, isLive | isSplit⟩
    · exact Or.inl ⟨low, j, level, isLive, rfl⟩
    · exact Or.inr isSplit

theorem Kept.sound : BuddySound s live lists := by
  have stands := kept.stands
  have shape := stands.shape
  have halves := shaped.two_halves
  constructor
  · rw [shape]
    exact stands.free.ring
  · rw [shape]
    exact kept.tiled shaped
  · intro l k low inside
    rw [shape] at low ⊢
    have parent : At l (2 ^ l + k) := (shaped.block_node (Nat.lt_of_succ_lt low) inside).1
    have left := shaped.block_node low (k := 2 * k) (by rw [Nat.pow_succ]; omega)
    have right := shaped.block_node low (k := 2 * k + 1) (by rw [Nat.pow_succ]; omega)
    have leftIndex : 2 ^ (l + 1) + 2 * k = 2 * (2 ^ l + k) := by
      rw [Nat.pow_succ]
      omega
    rw [← Nat.add_assoc, leftIndex] at right
    rw [leftIndex] at left
    obtain ⟨leftAt, leftBlock⟩ := left
    obtain ⟨rightAt, rightBlock⟩ := right
    have below : 2 ^ l + k < 2 ^ (g.num_levels - 1) := parent.below (by omega)
    obtain ⟨bit, -⟩ := shaped.freeBit leftAt low
    have index : 2 * (2 ^ l + k) / 2 - 1 = 2 ^ l + k - 1 := by omega
    rw [leftBlock, rightBlock, kept.inUse_iff shaped low leftAt,
      kept.inUse_iff shaped low rightAt, shaped.blockIndex leftAt low, bit, index]
    refine ⟨_, Buddy.getBit_inside (by rw [shape]; omega), ?_⟩
    rw [stands.bits.pairs _ parent.one_le below, bne_iff_ne, ne_eq, Bool.eq_iff_iff]
  · intro l k low inside
    rw [shape] at low ⊢
    obtain ⟨level, block⟩ := shaped.block_node low inside
    have below := level.below low
    rw [block, kept.divided_iff shaped low level, shaped.blockIndex level low, shaped.splitBit]
    refine ⟨_, Buddy.getBit_inside (by rw [shape]; omega), ?_⟩
    rw [stands.bits.splits _ level.one_le (by omega) (by have := level.one_le; omega),
      decide_eq_true_iff]
  · intro l low a listed buddy
    rw [shape] at low buddy
    obtain ⟨j, level, isFree, rfl⟩ := (stands.free.listed (l + 1) low a).mp listed
    rw [(shaped.buddy level low).1] at buddy
    have two := level.two_le
    obtain ⟨half, other⟩ := sibling_half j two
    obtain ⟨i, at_i, buddyFree, place⟩ := (stands.free.listed (l + 1) low _).mp buddy
    rw [← place_inj (level.parent.child half) at_i place] at buddyFree
    refine stands.joined (j / 2) (by omega) ?_
    unfold sibling at buddyFree
    split at buddyFree
    · rw [show 2 * (j / 2) = j by omega]
      exact ⟨isFree, buddyFree⟩
    · rw [show 2 * (j / 2) + 1 = j by omega, show 2 * (j / 2) = j - 1 by omega]
      exact ⟨buddyFree, isFree⟩

end Soundness

def Answers (s : Buddy) (live : List BuddyBlock) : Prop :=
  (∀ level < s.num_levels, (s.levelAlloc level).isSome = true) ∧
    ∀ b ∈ live, (s.levelFree b.ptr b.level).isSome = true

theorem Kept.answers {start s : Buddy} {k e p : Nat} {st : Nat → Status} {lists : Nat → List Nat}
    {live : List BuddyBlock} (fresh : Fresh start k e p)
    (kept : Kept start.toBuddyShape e (start.Later k) st s lists
      (live ++ firstPages start.toBuddyShape k)) : Answers s live := by
  refine ⟨?_, ?_⟩
  · intro level low
    rcases Kept.levelAlloc fresh kept low with full | ⟨_, _, _, _, found, -⟩
    · rw [full]
      rfl
    · rw [found]
      rfl
  · intro b member
    obtain ⟨_, _, _, found, -⟩ := kept.free fresh.shaped fresh.site
      (List.mem_append_left _ member) (fresh.live_node kept member)
    rw [found]
    rfl

theorem buddy_invariant {allocator address size pageSize : Nat} {memory : Words}
    {info : BitmapWords} (usable : Usable allocator address size pageSize) {s : Buddy}
    {live : List BuddyBlock}
    (run : BuddyRun (buddyInit allocator address size pageSize memory info) s live) :
    (∃ lists, BuddySound s live lists) ∧ Answers s live := by
  obtain ⟨e, p, fresh⟩ := @Usable.fresh _ _ _ _ memory info usable
  obtain ⟨st, lists, kept⟩ := run.kept fresh
  have answers := kept.answers fresh
  rw [firstPages_zero, List.append_nil] at kept
  exact ⟨⟨lists, kept.sound fresh.shaped⟩, answers⟩

theorem usable_4096 : Usable 0x1000 0x100000 4096 256 := by
  refine ⟨⟨12, rfl, by decide⟩, ⟨8, rfl⟩, by decide, by decide, Or.inl ?_⟩
  decide +kernel

theorem buddy_invariant_after_split :
    ∃ s, (buddyInit 0x1000 0x100000 4096 256 (fun _ => 0) (fun _ => 0)).levelAlloc 2 =
        some (some 0x100000, s) ∧
      (∃ lists, BuddySound s [⟨0x100000, 2⟩] lists) ∧ Answers s [⟨0x100000, 2⟩] := by
  have returned : ((buddyInit 0x1000 0x100000 4096 256 (fun _ => 0) (fun _ => 0)).levelAlloc
      2).map Prod.fst = some (some 0x100000) := by
    decide +kernel
  obtain ⟨⟨ptr, s⟩, call, rfl⟩ := Option.map_eq_some_iff.mp returned
  exact ⟨s, call, buddy_invariant usable_4096 (.alloc .init (by decide +kernel) call)⟩

/-- A page larger than the region leaves an allocator without levels. -/
theorem region_below_page_untiled :
    ¬ ∀ (allocator address size pageSize : Nat) (memory : Words) (info : BitmapWords),
      (∃ e, size = 2 ^ e ∧ e < 64) → (∃ p, pageSize = 2 ^ p ∧ p < 64) →
      sizeofListHead ≤ pageSize →
      (allocator + buddySizeofMetadata (numLevels size pageSize) ≤ address ∨
        address + size ≤ allocator) →
      ∀ s live, BuddyRun (buddyInit allocator address size pageSize memory info) s live →
        ∃ lists, BuddySound s live lists := by
  intro all
  obtain ⟨lists, sound⟩ := all 0x1000 0x100 16 32 (fun _ => 0) (fun _ => 0) ⟨4, rfl, by decide⟩
    ⟨5, rfl, by decide⟩ (by decide) (Or.inr (by decide)) _ _ .init
  obtain ⟨b, member, -⟩ := sound.tiled.covers 0x100 (by decide) (by decide)
  exact absurd member List.not_mem_nil

end OmenMemory
