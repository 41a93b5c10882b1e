import Omen.Ext2.WriteInodeBlocks

/- The inode tables as a store indexed by inode number: the place of an inode in its table
   determines the number, so a written inode is read back and no other one changes. -/
namespace OmenExt2
open ByteMemory OmenDisk

variable {σ : Type} {dev : Dev σ} {p : Partition} {valid : Nat → Prop} {view : σ → Nat → Mem}
  {blocks n m : Nat} {d d' : σ} {inode : Mem}

/-- Every group has an inode table of `blocks` blocks, with room for the inodes of the group
    and disjoint from the other tables; byte offsets inside the tables fit in 32 bits. -/
structure InodeTableLayout (p : Partition) (blocks : Nat) (valid : Nat → Prop) : Prop where
  aligned : Aligned p
  sized : 0 < p.inodeSize
  divides : p.inodeSize ∣ p.blockSize
  inodes : 0 < p.s_inodes_per_group
  room : p.s_inodes_per_group * p.inodeSize ≤ blocks * p.blockSize
  disjoint : ∀ g h, g < p.group_number → h < p.group_number → g ≠ h → ∀ b c, b < blocks →
    c < blocks → p.bg_inode_table g + b ≠ p.bg_inode_table h + c
  fits : ∀ g, g < p.group_number → (p.bg_inode_table g + blocks) * p.blockSize ≤ 2 ^ 32
  usable : ∀ g, g < p.group_number → ∀ b, b < blocks → valid (p.bg_inode_table g + b)

structure GroupedInode (p : Partition) (n : Nat) : Prop where
  positive : 0 < n
  small : n < 2 ^ 32
  grouped : p.inodeGroup n < p.group_number

/-- A write of a block that reports success has stored all of it and nothing else. -/
def WholeWrites (dev : Dev σ) (p : Partition) (valid : Nat → Prop) (view : σ → Nat → Mem) : Prop :=
  ∀ b, valid b → ∀ source d,
    (dev.writeDisk (p.blockSector b) p.blockBytes source d).1 ≠ 0 →
      view (dev.writeDisk (p.blockSector b) p.blockBytes source d).2 =
        Function.update (view d) b (memcpy (view d b) 0 source p.blockSize)

theorem Puts.whole (puts : Puts dev p valid view) : WholeWrites dev p valid view := by
  intro b ok source d _
  obtain ⟨done, d', _, run, after⟩ := puts.put ok source d
  rw [run]
  exact after

theorem GroupedInode.place (number : GroupedInode p n) : Partition.inodePlace n = n - 1 := by
  have low := number.positive
  have high := number.small
  rw [Partition.inodePlace]
  omega

namespace InodeTableLayout
variable (tables : InodeTableLayout p blocks valid)

include tables

theorem perBlock : ∃ k, 0 < k ∧ p.blockSize = p.inodeSize * k := by
  obtain ⟨k, whole⟩ := tables.divides
  have low := (blockSize_bounds tables.aligned.fits).1
  refine ⟨k, Nat.pos_of_ne_zero ?_, whole⟩
  rintro rfl
  omega

theorem within (n : Nat) : p.inodeIndex n * p.inodeSize < blocks * p.blockSize := by
  have index : p.inodeIndex n < p.s_inodes_per_group := Nat.mod_lt _ tables.inodes
  have sized := tables.sized
  calc p.inodeIndex n * p.inodeSize
      < p.s_inodes_per_group * p.inodeSize := Nat.mul_lt_mul_of_pos_right index sized
    _ ≤ blocks * p.blockSize := tables.room

section Number
variable (number : GroupedInode p n)
include number

theorem offset_exact : p.inodeIndex n * p.inodeSize % 2 ^ 32 = p.inodeIndex n * p.inodeSize := by
  have within := tables.within n
  have fits := tables.fits _ number.grouped
  rw [Nat.add_mul] at fits
  apply Nat.mod_eq_of_lt
  omega

theorem inodeBlock_lt : p.inodeBlock n < blocks := by
  have low := (blockSize_bounds tables.aligned.fits).1
  rw [Partition.inodeBlock, tables.offset_exact number, Nat.div_lt_iff_lt_mul (by omega)]
  exact tables.within n

theorem tableBlock_valid : valid (p.inodeTableBlock n) :=
  tables.usable _ number.grouped _ (tables.inodeBlock_lt number)

theorem sector : p.inodeSector n = p.blockSector (p.inodeTableBlock n) := by
  apply inodeSector_eq tables.aligned
  have low := (blockSize_bounds tables.aligned.fits).1
  have before : p.inodeTableBlock n < p.bg_inode_table (p.inodeGroup n) + blocks :=
    Nat.add_lt_add_left (tables.inodeBlock_lt number) _
  calc p.inodeTableBlock n * p.blockSize
      < (p.bg_inode_table (p.inodeGroup n) + blocks) * p.blockSize :=
        Nat.mul_lt_mul_of_pos_right before (by omega)
    _ ≤ 2 ^ 32 := tables.fits _ number.grouped

theorem in_block {k : Nat} (whole : p.blockSize = p.inodeSize * k) :
    p.inodeBlock n = p.inodeIndex n / k ∧ p.inodeOffset n = p.inodeSize * (p.inodeIndex n % k) := by
  rw [Partition.inodeBlock, Partition.inodeOffset, tables.offset_exact number, whole,
    Nat.mul_comm (p.inodeIndex n)]
  exact ⟨Nat.mul_div_mul_left _ _ tables.sized, Nat.mul_mod_mul_left _ _ _⟩

theorem offset_inside : p.inodeOffset n + p.inodeSize ≤ p.blockSize := by
  obtain ⟨k, positive, whole⟩ := tables.perBlock
  have below : p.inodeIndex n % k + 1 ≤ k := Nat.mod_lt _ positive
  have scaled := Nat.mul_le_mul_left p.inodeSize below
  rw [(tables.in_block number whole).2, whole]
  simpa [Nat.mul_add] using scaled

theorem apart (other : GroupedInode p m) (ne : m ≠ n)
    (same : p.inodeTableBlock m = p.inodeTableBlock n) :
    p.inodeOffset m + p.inodeSize ≤ p.inodeOffset n ∨
      p.inodeOffset n + p.inodeSize ≤ p.inodeOffset m := by
  obtain ⟨k, -, whole⟩ := tables.perBlock
  have group : p.inodeGroup m = p.inodeGroup n := by
    by_contra differ
    exact tables.disjoint _ _ other.grouped number.grouped differ _ _
      (tables.inodeBlock_lt other) (tables.inodeBlock_lt number) same
  have block : p.inodeBlock m = p.inodeBlock n := by
    rw [Partition.inodeTableBlock, Partition.inodeTableBlock, group] at same
    exact Nat.add_left_cancel same
  have index : p.inodeIndex m ≠ p.inodeIndex n := by
    intro equal
    apply ne
    have low := number.positive
    have low' := other.positive
    have places := Nat.div_add_mod (Partition.inodePlace m) p.s_inodes_per_group
    have places' := Nat.div_add_mod (Partition.inodePlace n) p.s_inodes_per_group
    rw [Partition.inodeGroup, Partition.inodeGroup] at group
    rw [Partition.inodeIndex, Partition.inodeIndex] at equal
    rw [group, equal, places', number.place, other.place] at places
    omega
  -- equal quotients by `k`, so the remainders differ
  rw [(tables.in_block number whole).1, (tables.in_block other whole).1] at block
  have rest : p.inodeIndex m % k ≠ p.inodeIndex n % k := by
    intro equal
    apply index
    rw [← Nat.div_add_mod (p.inodeIndex m) k, block, equal, Nat.div_add_mod]
  rw [(tables.in_block number whole).2, (tables.in_block other whole).2]
  rcases Nat.lt_or_gt_of_ne rest with less | more
  · left
    simpa [Nat.mul_add] using Nat.mul_le_mul_left p.inodeSize (Nat.succ_le_of_lt less)
  · right
    simpa [Nat.mul_add] using Nat.mul_le_mul_left p.inodeSize (Nat.succ_le_of_lt more)

end Number

theorem read (reads : Reads dev p valid view) (number : GroupedInode p n) (d : σ) :
    ext2ReadInode dev p n d = (some (memcpy blank 0
      (advance (view d (p.inodeTableBlock n)) (p.inodeOffset n)) p.inodeSize), d) :=
  ext2ReadInode_valid reads (tables.tableBlock_valid number) (tables.sector number) d

theorem written (reads : Reads dev p valid view) (writes : WholeWrites dev p valid view)
    (number : GroupedInode p n) (success : ext2WriteInode dev p n inode d = (0, d')) :
    view d' = Function.update (view d) (p.inodeTableBlock n)
      (memcpy (view d (p.inodeTableBlock n)) (p.inodeOffset n) inode p.inodeSize) := by
  have ok := tables.tableBlock_valid number
  obtain ⟨done, nonzero, run⟩ := reads.read ok blank 0 d
  rw [memcpy_blank (reads.tail d _)] at run
  have stored := writes _ ok
    (memcpy (view d (p.inodeTableBlock n)) (p.inodeOffset n) inode p.inodeSize) d
  simp only [ext2WriteInode, tables.sector number, run, nonzero, if_false] at success
  split at success
  · simp at success
  case isFalse nonzero' =>
    obtain ⟨-, rfl⟩ := Prod.mk.inj success
    rw [stored nonzero']
    congr 1
    funext i
    have inside := tables.offset_inside number
    by_cases low : i < p.blockSize
    · rw [memcpy_inside (Nat.zero_le _) (by omega), Nat.sub_zero]
    · rw [memcpy_outside (by omega), memcpy_outside (by omega)]

end InodeTableLayout

/-- Inode table access is a store: after a successful `ext2_write_inode` the inode reads back
    as written, and every other one as before. -/
theorem inode_store (tables : InodeTableLayout p blocks valid) (reads : Reads dev p valid view)
    (writes : WholeWrites dev p valid view) (number : GroupedInode p n)
    (success : ext2WriteInode dev p n inode d = (0, d')) :
    (∃ found, ext2ReadInode dev p n d' = (some found, d') ∧
      ∀ i, i < p.inodeSize → found i = inode i) ∧
    ∀ m, GroupedInode p m → m ≠ n →
      (ext2ReadInode dev p m d').1 = (ext2ReadInode dev p m d).1 := by
  have after := tables.written reads writes number success
  constructor
  · refine ⟨_, tables.read reads number d', ?_⟩
    intro i inside
    rw [memcpy_inside (Nat.zero_le _) (by omega), Nat.sub_zero, advance, after,
      Function.update_self, memcpy_inside (by omega) (by omega), Nat.add_sub_cancel_left]
  · intro m other ne
    rw [tables.read reads other, tables.read reads other]
    apply congrArg some
    funext i
    by_cases inside : i < p.inodeSize
    · rw [memcpy_inside (Nat.zero_le _) (by omega), memcpy_inside (Nat.zero_le _) (by omega),
        Nat.sub_zero, advance, advance, after]
      by_cases same : p.inodeTableBlock m = p.inodeTableBlock n
      · have apart := tables.apart number other ne same
        rw [same, Function.update_self, memcpy_outside (by omega)]
      · rw [Function.update_of_ne same]
    · rw [memcpy_outside (by omega), memcpy_outside (by omega)]

theorem thirteen_tables : InodeTableLayout thirteenPartition 128 (InReach thirteenPartition) := by
  have size : thirteenPartition.inodeSize = 128 := by
    simp [Partition.inodeSize, thirteenPartition, bytePartition_rev]
  have table : thirteenPartition.bg_inode_table 0 = 40 := by decide +kernel
  have inodes : thirteenPartition.s_inodes_per_group = 1024 := by decide +kernel
  have groups : ∀ g, g < thirteenPartition.group_number → g = 0 := fun g => Nat.lt_one_iff.mp
  exact {
    aligned := thirteen_aligned
    sized := by omega
    divides := by rw [size, thirteen_size]; decide
    inodes := by omega
    room := by rw [size, thirteen_size, inodes]
    disjoint := by
      intro g h first second ne
      rw [groups g first, groups h second] at ne
      exact absurd rfl ne
    fits := by
      intro g first
      rw [groups g first, table, thirteen_size]
      omega
    usable := by
      intro g first b low
      rw [groups g first, table, InReach, thirteen_size]
      omega }

theorem thirteen_number {n : Nat} (positive : 0 < n) (small : n ≤ 1024) :
    GroupedInode thirteenPartition n where
  positive := positive
  small := by omega
  grouped := by
    have inodes : thirteenPartition.s_inodes_per_group = 1024 := by decide +kernel
    have place : Partition.inodePlace n = n - 1 := by rw [Partition.inodePlace]; omega
    rw [Partition.inodeGroup, place, inodes, Nat.div_eq_of_lt (by omega)]
    exact Nat.zero_lt_one

theorem inode_store_second : ∃ d',
    ext2WriteInode reliable thirteenPartition 2 thirteenInode thirteenDisk = (0, d') ∧
    (∃ found, ext2ReadInode reliable thirteenPartition 2 d' = (some found, d') ∧
      ∀ i, i < thirteenPartition.inodeSize → found i = thirteenInode i) ∧
    (ext2ReadInode reliable thirteenPartition 1 d').1 =
      (ext2ReadInode reliable thirteenPartition 1 thirteenDisk).1 := by
  have reads := reliable_reads thirteen_aligned
  have puts := reliable_puts thirteen_aligned (by decide)
  have second := thirteen_number (n := 2) (by decide) (by decide)
  obtain ⟨d', success, -⟩ := ext2WriteInode_valid reads puts
    (thirteen_tables.tableBlock_valid second) (thirteen_tables.sector second) thirteenInode
    thirteenDisk
  have store := inode_store thirteen_tables reads puts.whole second success
  exact ⟨d', success, store.1,
    store.2 1 (thirteen_number (by decide) (by decide)) (by decide)⟩

end OmenExt2
