import Omen.Ext2.BlockAlloc

/- The free-block counters over sequences of allocations and releases. The bitmaps with
   their counters are a pool of units; a call makes one move of it, as long as a group
   has fewer blocks than its 16-bit counter can count. -/
namespace OmenExt2
open ByteMemory Bitmap UnitPool OmenDisk

variable {σ : Type}

inductive BlockCall
  | allocate
  | deallocate (block : Nat)

namespace BlockCall

def run (dev : Dev σ) (p : Partition) (fs : Fs σ) : BlockCall → Fs σ
  | allocate => (ext2AllocateBlock dev p fs).2
  | deallocate block => (ext2DeallocateBlock dev p block fs).2

def InRange (p : Partition) : BlockCall → Prop
  | allocate => True
  | deallocate block => 1 ≤ block ∧ block ≤ p.group_number * p.s_blocks_per_group

end BlockCall

def blockPool (p : Partition) (view : σ → Nat → Mem) (fs : Fs σ) : Pool (Fin p.group_number) where
  used := fun g => groupBits p.bg_block_bitmap view fs.disk g
  free := fun g => fs.bg_free_blocks_count g
  total := fs.s_free_blocks_count

/-- Every group's counter is the number of its clear bits, the bits past the group are set,
    and the superblock has the sum. -/
def ExactCounts (p : Partition) (view : σ → Nat → Mem) (fs : Fs σ) : Prop :=
  Balanced p.s_blocks_per_group (8 * p.blockSize) (blockPool p view fs)

/-- The block numbers fit in 32 bits and a group's bits in its bitmap. -/
structure BlockNumbers (p : Partition) : Prop where
  capacity : p.s_blocks_per_group ≤ 8 * p.blockSize
  numbers : p.group_number * p.s_blocks_per_group < 2 ^ 32

section Moves
variable {dev : Dev σ} {p : Partition} {valid : Nat → Prop} {view : σ → Nat → Mem} {fs fs' : Fs σ}

theorem TakenBit.inside_group {g i : Nat} (taken : TakenBit p view g i fs fs')
    (counts : ExactCounts p view fs) : i < p.s_blocks_per_group :=
  @Counted.inside _ _ _ _ counts.toCounted ⟨g, taken.group⟩ i taken.inside taken.clear

theorem TakenBit.pool {g i : Nat} (taken : TakenBit p view g i fs fs')
    (bitmaps : BlockBitmaps p valid) (numbers : BlockNumbers p)
    (narrow : p.s_blocks_per_group < 2 ^ 16) (counts : ExactCounts p view fs) :
    blockPool p view fs' =
      ⟨(blockPool p view fs).toUnits.take ⟨g, taken.group⟩ i, fs.s_free_blocks_count - 1⟩ := by
  have some : 0 < fs.bg_free_blocks_count g := Nat.pos_of_ne_zero taken.counted
  have low : fs.bg_free_blocks_count g ≤ _ := counts.free_le ⟨g, taken.group⟩
  have part : fs.bg_free_blocks_count g ≤ fs.s_free_blocks_count :=
    counts.free_le_total ⟨g, taken.group⟩
  have all : fs.s_free_blocks_count ≤ _ := counts.total_le
  rw [Fintype.card_fin] at all
  have few := numbers.numbers
  have bits := taken.stored.table taken.group bitmaps
  have count : (fs.bg_free_blocks_count g + (2 ^ 16 - 1)) % 2 ^ 16 =
      fs.bg_free_blocks_count g - 1 := by omega
  have total : (fs.s_free_blocks_count + (2 ^ 32 - 1)) % 2 ^ 32 = fs.s_free_blocks_count - 1 := by
    omega
  simp only [blockPool, Units.take, bits, taken.free, taken.total, count, total,
    update_group taken.group]

theorem GivenBit.pool {g i : Nat} (given : GivenBit p view g i fs fs')
    (group : g < p.group_number) (inside : i < p.s_blocks_per_group)
    (used : groupBits p.bg_block_bitmap view fs.disk g i = true) (bitmaps : BlockBitmaps p valid)
    (numbers : BlockNumbers p) (narrow : p.s_blocks_per_group < 2 ^ 16)
    (counts : ExactCounts p view fs) :
    blockPool p view fs' =
      ⟨(blockPool p view fs).toUnits.give ⟨g, group⟩ i, fs.s_free_blocks_count + 1⟩ := by
  -- the counters after the move are those of a balanced pool, and so small
  have after := Balanced.move counts
    (Move.give (blockPool p view fs) (g := ⟨g, group⟩) (i := i) inside used)
  have low : fs.bg_free_blocks_count g + 1 ≤ p.s_blocks_per_group := by
    have le := after.free_le ⟨g, group⟩
    dsimp only [Units.give] at le
    rwa [Function.update_self] at le
  have all : fs.s_free_blocks_count + 1 ≤ _ := after.total_le
  rw [Fintype.card_fin] at all
  have few := numbers.numbers
  have bits := given.stored.table group bitmaps
  have count : (fs.bg_free_blocks_count g + 1) % 2 ^ 16 = fs.bg_free_blocks_count g + 1 := by omega
  have total : (fs.s_free_blocks_count + 1) % 2 ^ 32 = fs.s_free_blocks_count + 1 := by omega
  simp only [blockPool, Units.give, bits, given.free, given.total, count, total,
    update_group group]

theorem block_place (numbers : BlockNumbers p) {block : Nat} (low : 1 ≤ block)
    (high : block ≤ p.group_number * p.s_blocks_per_group) :
    ∃ g i, g < p.group_number ∧ i < p.s_blocks_per_group ∧
      block = i + 1 + g * p.s_blocks_per_group ∧ block < 2 ^ 32 := by
  have few := numbers.numbers
  have some : 0 < p.s_blocks_per_group := by
    by_contra zero
    rw [Nat.eq_zero_of_not_pos zero, Nat.mul_zero] at high
    omega
  have split := Nat.div_add_mod (block - 1) p.s_blocks_per_group
  rw [Nat.mul_comm] at split
  refine ⟨(block - 1) / p.s_blocks_per_group, (block - 1) % p.s_blocks_per_group,
    (Nat.div_lt_iff_lt_mul some).mpr (by omega), Nat.mod_lt _ some, by omega, by omega⟩

variable (stores : Stores dev p p.blockSize valid view) (bitmaps : BlockBitmaps p valid)
  (numbers : BlockNumbers p) (narrow : p.s_blocks_per_group < 2 ^ 16)
include stores bitmaps numbers narrow

theorem BlockCall.move (counts : ExactCounts p view fs) (call : BlockCall)
    (range : call.InRange p) :
    Move p.s_blocks_per_group (blockPool p view fs) (blockPool p view (call.run dev p fs)) := by
  cases call with
  | allocate =>
    rcases ext2AllocateBlock_cases stores bitmaps fs with ⟨run, _⟩ | ⟨g, i, fs', run, taken⟩
    · rw [BlockCall.run, run]
      exact Move.stay _
    · rw [BlockCall.run, run, taken.pool bitmaps numbers narrow counts]
      exact Move.take _ (taken.inside_group counts) taken.clear
  | deallocate block =>
    obtain ⟨g, i, group, inside, place, small⟩ := block_place numbers range.1 range.2
    subst place
    rcases ext2DeallocateBlock_cases stores bitmaps fs group inside numbers.capacity small with
      ⟨_, run⟩ | ⟨used, fs', run, given⟩
    · rw [BlockCall.run, run]
      exact Move.stay _
    · rw [BlockCall.run, run, given.pool group inside used bitmaps numbers narrow counts]
      exact Move.give _ inside used

theorem exactCounts_run {calls : List BlockCall} (ranges : ∀ call ∈ calls, call.InRange p)
    (counts : ExactCounts p view fs) :
    ExactCounts p view (calls.foldl (BlockCall.run dev p) fs) := by
  induction calls generalizing fs with
  | nil => exact counts
  | cons call rest ih =>
    have move := call.move stores bitmaps numbers narrow counts
      (ranges call List.mem_cons_self)
    exact ih (fun later member => ranges later (List.mem_cons_of_mem call member))
      (Balanced.move counts move)

theorem deallocate_allocated (counts : ExactCounts p view fs) {block : Nat}
    (run : ext2AllocateBlock dev p fs = (block, fs')) (given : block ≠ 0) :
    ∃ fs'', ext2DeallocateBlock dev p block fs' = (1, fs'') ∧ view fs''.disk = view fs.disk ∧
      fs''.bg_free_blocks_count = fs.bg_free_blocks_count ∧
      fs''.s_free_blocks_count = fs.s_free_blocks_count := by
  rcases ext2AllocateBlock_cases stores bitmaps fs with ⟨none, _⟩ | ⟨g, i, fs1, took, taken⟩
  · rw [none] at run
    exact absurd (Prod.mk.inj run).1.symm given
  rw [took] at run
  obtain ⟨number, rfl⟩ := Prod.mk.inj run
  have inside := taken.inside_group counts
  have few := numbers.numbers
  have bound : (g + 1) * p.s_blocks_per_group ≤ p.group_number * p.s_blocks_per_group :=
    Nat.mul_le_mul_right _ taken.group
  rw [Nat.add_mul, Nat.one_mul] at bound
  rw [← number, Nat.mod_eq_of_lt (by omega)]
  have set : groupBits p.bg_block_bitmap view fs1.disk g i = true := by
    rw [taken.stored.bit bitmaps taken.group taken.group, if_pos ⟨rfl, rfl⟩]
  rcases ext2DeallocateBlock_cases stores bitmaps fs1 taken.group inside numbers.capacity
    (by omega) with ⟨clear, _⟩ | ⟨_, fs2, back, released⟩
  · rw [set] at clear
    cases clear
  have low : fs.bg_free_blocks_count g ≤ p.s_blocks_per_group :=
    counts.free_le ⟨g, taken.group⟩
  have all : fs.s_free_blocks_count ≤ _ := counts.total_le
  rw [Fintype.card_fin] at all
  refine ⟨fs2, back, taken.stored.undo released.stored taken.clear, ?_, ?_⟩
  · rw [released.free, taken.free, Function.update_self, Function.update_idem]
    have count : ((fs.bg_free_blocks_count g + (2 ^ 16 - 1)) % 2 ^ 16 + 1) % 2 ^ 16 =
        fs.bg_free_blocks_count g := by omega
    rw [count, Function.update_eq_self]
  · rw [released.total, taken.total]
    omega

end Moves

structure AccountsExactly (dev : Dev σ) (p : Partition) (view : σ → Nat → Mem) (fs : Fs σ) :
    Prop where
  counts : ExactCounts p view fs
  undone : ∀ block fs', ext2AllocateBlock dev p fs = (block, fs') → block ≠ 0 →
    ∃ fs'', ext2DeallocateBlock dev p block fs' = (1, fs'') ∧ view fs''.disk = view fs.disk ∧
      fs''.bg_free_blocks_count = fs.bg_free_blocks_count ∧
      fs''.s_free_blocks_count = fs.s_free_blocks_count

theorem free_block_accounting {dev : Dev σ} {p : Partition} {valid : Nat → Prop}
    {view : σ → Nat → Mem} {fs : Fs σ} {calls : List BlockCall}
    (stores : Stores dev p p.blockSize valid view) (bitmaps : BlockBitmaps p valid)
    (numbers : BlockNumbers p) (narrow : p.s_blocks_per_group < 2 ^ 16)
    (counts : ExactCounts p view fs) (ranges : ∀ call ∈ calls, call.InRange p) :
    AccountsExactly dev p view (calls.foldl (BlockCall.run dev p) fs) := by
  have after := exactCounts_run stores bitmaps numbers narrow ranges counts
  exact ⟨after, fun block fs' run given =>
    deallocate_allocated stores bitmaps numbers narrow after run given⟩

theorem oneGroup_counts {logSize size first count free : Nat} {bitmap : Mem} (small : logSize ≤ 3)
    (whole : size = 8 * (1024 * 2 ^ logSize)) (fits : first < 2 ^ 32) (fits' : count < 2 ^ 32)
    (clear : clearCount (bitAt bitmap) size = free) :
    BlockNumbers (oneGroup logSize size first count) ∧
      ExactCounts (oneGroup logSize size first count)
        (reachView (oneGroup logSize size first count))
        (groupState (oneGroup logSize size first count) bitmap free) := by
  obtain ⟨same, power⟩ := @oneGroup_size logSize size first count small
  obtain ⟨_, groupSize, _⟩ := @oneGroup_fields logSize size first count fits (by omega) fits'
  refine ⟨⟨by omega, ?_⟩, ⟨?_, ?_⟩, ?_⟩
  · rw [groupSize]
    change 1 * size < 2 ^ 32
    omega
  · intro g
    have zero : (g : Nat) = 0 := Nat.lt_one_iff.mp g.isLt
    rw [groupSize, ← clear]
    refine clearCount_congr (fun i low => ?_)
    dsimp only [blockPool]
    rw [zero, oneGroup_bits small _ _ (by omega)]
  · intro g i past low
    omega
  · change free = ∑ _ : Fin 1, free
    simp

/-- The last free block of a group is taken and a used one given back. -/
theorem free_block_accounting_pair :
    AccountsExactly reliable (lastFree 0 1) (reachView (lastFree 0 1))
      ([BlockCall.allocate, BlockCall.deallocate 3].foldl (BlockCall.run reliable (lastFree 0 1))
        (groupState (lastFree 0 1) bitFourClear 1)) := by
  have bits : bitAt bitFourClear = Function.update (fun _ => true) 4 false := by
    funext i
    rw [bitFourClear_bits]
    by_cases four : i = 4 <;> simp [four]
  have clear : clearCount (bitAt bitFourClear) 8192 = 1 := by
    rw [bits, clearCount_clear (by decide) rfl, clearCount_none (fun _ _ => rfl)]
  obtain ⟨numbers, counts⟩ := @oneGroup_counts 0 8192 1 6 1 bitFourClear (by decide) (by decide)
    (by decide) (by decide) clear
  have size : (lastFree 0 1).s_blocks_per_group = 8192 :=
    (oneGroup_fields (by decide) (by decide) (by decide)).2.1
  refine free_block_accounting (byte_stores (oneGroup_aligned (by decide)) rfl)
    (oneGroup_bitmaps (by decide)) numbers (by rw [size]; decide) counts ?_
  intro call member
  rcases List.mem_pair.mp member with rfl | rfl
  · trivial
  · refine ⟨by decide, ?_⟩
    change 3 ≤ 1 * _
    rw [size]
    decide

/-- 8 KiB blocks and 65536 blocks in the group: with the last used block given back the
    16-bit counter is 0 and 65536 bits are clear. -/
theorem free_block_accounting_wraps :
    ¬ ∀ (σ : Type) (dev : Dev σ) (p : Partition) (valid : Nat → Prop) (view : σ → Nat → Mem)
      (fs : Fs σ) (calls : List BlockCall), Stores dev p p.blockSize valid view →
      BlockBitmaps p valid → BlockNumbers p → ExactCounts p view fs →
      (∀ call ∈ calls, call.InRange p) →
      AccountsExactly dev p view (calls.foldl (BlockCall.run dev p) fs) := by
  intro all
  -- the bitmap in which only bit 0 is set
  obtain ⟨bitmap, bits⟩ : ∃ bitmap : Mem, bitAt bitmap = Function.update (bitAt blank) 0 true :=
    ⟨_, word_set_bit blank 0 (show 0 < 32 by decide)⟩
  have clear : clearCount (bitAt bitmap) 65536 = 65535 := by
    have one := @clearCount_set (bitAt blank) 65536 0 (by decide) (bitAt_blank 0)
    rw [clearCount_all (fun i _ => bitAt_blank i)] at one
    rw [bits]
    omega
  obtain ⟨numbers, counts⟩ := @oneGroup_counts 3 65536 0 65536 65535 bitmap (by decide) (by decide)
    (by decide) (by decide) clear
  have bitmaps := @oneGroup_bitmaps 3 65536 0 65536 (by decide)
  have stores := byte_stores (@oneGroup_aligned 3 65536 0 65536 (by decide)) rfl
  have size := (@oneGroup_fields 3 65536 0 65536 (by decide) (by decide) (by decide)).2.1
  have used : groupBits (oneGroup 3 65536 0 65536).bg_block_bitmap
      (reachView (oneGroup 3 65536 0 65536))
      (groupState (oneGroup 3 65536 0 65536) bitmap 65535).disk 0 0 = true := by
    rw [oneGroup_bits (by decide) bitmap 65535 (by rw [(oneGroup_size (by decide)).1]; decide),
      bits, Function.update_self]
  have exactly := all _ _ _ _ _ _ [BlockCall.deallocate 1] stores bitmaps numbers counts ?_
  · rcases ext2DeallocateBlock_cases stores bitmaps _ (i := 0) Nat.zero_lt_one
      (by rw [size]; decide)
      numbers.capacity (by omega) with ⟨free, _⟩ | ⟨_, fs', run, given⟩
    · rw [used] at free
      cases free
    · rw [Nat.zero_mul] at run
      have counted := exactly.counts.counted ⟨0, Nat.zero_lt_one⟩
      dsimp only [blockPool, List.foldl, BlockCall.run] at counted
      rw [run, given.free, Function.update_self, size] at counted
      have positive := @clearCount_positive (groupBits (oneGroup 3 65536 0 65536).bg_block_bitmap
        (reachView (oneGroup 3 65536 0 65536)) fs'.disk 0) 65536 0 (by decide) (by
          rw [given.stored.bit bitmaps Nat.zero_lt_one Nat.zero_lt_one, if_pos ⟨rfl, rfl⟩])
      rw [← counted] at positive
      exact absurd positive (show ¬ 0 < (65535 + 1) % 2 ^ 16 by decide)
  · intro call member
    rw [List.mem_singleton.mp member]
    refine ⟨by decide, ?_⟩
    change 1 ≤ 1 * _
    rw [size]
    decide

end OmenExt2
