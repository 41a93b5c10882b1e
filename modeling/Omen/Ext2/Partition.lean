import Omen.Disk.Driver

/- The in-memory partition of `ext2_structs.h`. `sb` and `gd` are the bytes that
   registration read from the disk, seen through the packed structures. The counters
   that the allocators change live in `Fs`, next to the disk; everything else in the
   two structures never changes after registration. -/
namespace OmenExt2
open ByteMemory OmenDisk

structure Partition where
  lba : Nat
  group_number : Nat
  sector_size : Nat
  bgdt_block : Nat
  sb_block : Nat
  backup_bgs : Nat → Int
  backup_bgs_count : Nat
  sb : Mem
  gd : Mem

structure Fs (σ : Type) where
  disk : σ
  bg_free_blocks_count : Nat → Nat
  bg_free_inodes_count : Nat → Nat
  bg_used_dirs_count : Nat → Nat
  s_free_blocks_count : Nat
  s_free_inodes_count : Nat
  flush_required : Bool

/-- `ext2_operate_on_bg` from group `i` on, over `n` groups: the first group whose callback
    returns non-zero, `none` for `EXT2_BG_ERROR`. -/
def ext2OperateOnBg {α : Type} (callback : Nat → α → Bool × α) (i : Nat) :
    Nat → α → Option Nat × α
  | 0, s => (none, s)
  | n + 1, s =>
    let (stop, s') := callback i s
    if stop then (some i, s') else ext2OperateOnBg callback (i + 1) n s'

def divideRoundedUp (modulus x y : Nat) : Nat :=
  if x % y ≠ 0 then (x + y - 1) % modulus / y else x / y

theorem divideRoundedUp_bounds {modulus x y : Nat} (positive : 0 < y) (fits : x + y ≤ modulus) :
    x ≤ divideRoundedUp modulus x y * y ∧ divideRoundedUp modulus x y * y < x + y := by
  unfold divideRoundedUp
  split
  · have whole := Nat.div_add_mod (x + y - 1) y
    have rest := Nat.mod_lt (x + y - 1) positive
    rw [Nat.mod_eq_of_lt (by omega), Nat.mul_comm]
    omega
  · have whole := Nat.div_add_mod x y
    rw [Nat.mul_comm]
    omega

namespace Partition
variable (p : Partition)

def s_blocks_count : Nat := getLE p.sb 4 4
def s_first_sb_block : Nat := getLE p.sb 20 4
def s_log_block_size : Nat := getLE p.sb 24 4
def s_blocks_per_group : Nat := getLE p.sb 32 4
def s_inodes_per_group : Nat := getLE p.sb 40 4
def s_rev_level : Nat := getLE p.sb 76 4
def s_inode_size : Nat := getLE p.sb 88 2

def bg_block_bitmap (group : Nat) : Nat := getLE p.gd (32 * group) 4
def bg_inode_bitmap (group : Nat) : Nat := getLE p.gd (32 * group + 4) 4
def bg_inode_table (group : Nat) : Nat := getLE p.gd (32 * group + 8) 4

def blockSize : Nat := 1024 <<< p.s_log_block_size % 2 ^ 32

def entriesPerBlock : Nat := p.blockSize / 4

def blockSectors : Nat := divideRoundedUp (2 ^ 32) p.blockSize p.sector_size

def blockBytes : Nat := p.blockSectors * p.sector_size % 2 ^ 32

def blockLba (block : Nat) : Nat := block * p.blockSize % 2 ^ 32 / p.sector_size

def blockSector (block : Nat) : Nat := (p.lba + p.blockLba block) % 2 ^ 32

def Covers (block sector : Nat) : Prop :=
  p.blockSector block ≤ sector ∧ sector < p.blockSector block + p.blockSectors

/-- The sectors of a block, with no bound on the size of a number. -/
def sectorsPerBlock : Nat := 1024 <<< p.s_log_block_size / 512

end Partition

variable {p : Partition}

/-- The shift `1024 << s_log_block_size` stays inside an `int`. -/
def ShiftFits (p : Partition) : Prop := p.s_log_block_size ≤ 20

section Fits
variable (fits : ShiftFits p)
include fits

theorem blockSize_eq : p.blockSize = 1024 * 2 ^ p.s_log_block_size := by
  have small : (2 : Nat) ^ p.s_log_block_size ≤ 2 ^ 20 := Nat.pow_le_pow_right (by omega) fits
  unfold Partition.blockSize
  rw [Nat.shiftLeft_eq, Nat.mod_eq_of_lt (by omega)]

theorem blockSize_bounds : 1024 ≤ p.blockSize ∧ p.blockSize ≤ 2 ^ 30 := by
  have small : (2 : Nat) ^ p.s_log_block_size ≤ 2 ^ 20 := Nat.pow_le_pow_right (by omega) fits
  have positive : 0 < (2 : Nat) ^ p.s_log_block_size := Nat.pow_pos (by omega)
  rw [blockSize_eq fits]
  omega

theorem blockSize_sectors : 512 * (p.blockSize / 512) = p.blockSize := by
  rw [blockSize_eq fits]
  omega

theorem blockSize_entries : 4 * p.entriesPerBlock = p.blockSize := by
  unfold Partition.entriesPerBlock
  rw [blockSize_eq fits]
  omega

theorem entriesPerBlock_eq : p.entriesPerBlock = 256 * 2 ^ p.s_log_block_size := by
  rw [Partition.entriesPerBlock, blockSize_eq fits]
  omega

theorem entries_positive : 0 < p.entriesPerBlock := by
  have size := blockSize_entries fits
  have low := (blockSize_bounds fits).1
  omega

theorem blockSize_divides : p.blockSize * 2 ^ (22 - p.s_log_block_size) = 2 ^ 32 := by
  rw [blockSize_eq fits, Nat.mul_assoc, ← Nat.pow_add]
  have whole : p.s_log_block_size + (22 - p.s_log_block_size) = 22 := by
    unfold ShiftFits at fits; omega
  rw [whole]
  decide

end Fits

structure Aligned (p : Partition) : Prop where
  fits : ShiftFits p
  positive : 0 < p.sector_size
  divides : p.blockSize % p.sector_size = 0

theorem blockSectors_eq (aligned : Aligned p) : p.blockSectors = p.blockSize / p.sector_size := by
  simp [Partition.blockSectors, divideRoundedUp, aligned.divides]

theorem blockSectors_mul (aligned : Aligned p) : p.blockSectors * p.sector_size = p.blockSize := by
  rw [blockSectors_eq aligned]
  exact Nat.div_mul_cancel (Nat.dvd_of_mod_eq_zero aligned.divides)

theorem blockBytes_eq (aligned : Aligned p) : p.blockBytes = p.blockSize := by
  have bound := (blockSize_bounds aligned.fits).2
  rw [Partition.blockBytes, blockSectors_mul aligned, Nat.mod_eq_of_lt (by omega)]

theorem blockSectors_le (aligned : Aligned p) : p.blockSectors ≤ p.blockSize := by
  rw [blockSectors_eq aligned]
  exact Nat.div_le_self _ _

theorem blockLba_eq (aligned : Aligned p) {x : Nat} (fits : x * p.blockSize < 2 ^ 32) :
    p.blockLba x = x * p.blockSectors := by
  rw [Partition.blockLba, Nat.mod_eq_of_lt fits]
  exact Nat.div_eq_of_eq_mul_left aligned.positive
    (by rw [Nat.mul_assoc, blockSectors_mul aligned])

def InReach (p : Partition) (b : Nat) : Prop := b ≠ 0 ∧ b * p.blockSize < 2 ^ 32

instance (b : Nat) : Decidable (InReach p b) :=
  inferInstanceAs (Decidable (b ≠ 0 ∧ b * p.blockSize < 2 ^ 32))

theorem sectorsPerBlock_mul (p : Partition) :
    p.sectorsPerBlock * 512 = 1024 <<< p.s_log_block_size := by
  rw [Partition.sectorsPerBlock, Nat.shiftLeft_eq]
  omega

theorem sectorsPerBlock_positive (p : Partition) : 0 < p.sectorsPerBlock := by
  have positive : 0 < (2 : Nat) ^ p.s_log_block_size := Nat.pow_pos (by omega)
  rw [Partition.sectorsPerBlock, Nat.shiftLeft_eq]
  omega

theorem blockLba_wraps (sectors : p.sector_size = 512) (b : Nat) :
    p.blockLba b = b * p.sectorsPerBlock % 2 ^ 23 := by
  rw [Partition.blockLba, Partition.blockSize, Nat.mul_mod_mod, sectors,
    ← sectorsPerBlock_mul, ← Nat.mul_assoc]
  omega

theorem blockSectors_sectors (sectors : p.sector_size = 512)
    (fits : 1024 <<< p.s_log_block_size < 2 ^ 32) : p.blockSectors = p.sectorsPerBlock := by
  have whole := sectorsPerBlock_mul p
  rw [Partition.blockSectors, Partition.blockSize, Nat.mod_eq_of_lt fits, sectors, divideRoundedUp,
    ← whole, if_neg (by omega)]
  omega

/-- The 32 bits of the byte offset leave 23 for the sector. -/
theorem blockSector_eq_iff (sectors : p.sector_size = 512) {b : Nat}
    (inside : p.lba + b * p.sectorsPerBlock < 2 ^ 32) :
    p.blockSector b = p.lba + b * p.sectorsPerBlock ↔
      b * 1024 <<< p.s_log_block_size < 2 ^ 32 := by
  rw [Partition.blockSector, blockLba_wraps sectors, ← sectorsPerBlock_mul, ← Nat.mul_assoc]
  generalize b * p.sectorsPerBlock = start at inside ⊢
  omega

theorem covers_disjoint {b c : Nat} (sizes : p.blockSectors = p.sectorsPerBlock)
    (first : p.blockSector b = p.lba + b * p.sectorsPerBlock)
    (second : p.blockSector c = p.lba + c * p.sectorsPerBlock) (before : b < c) (sector : Nat) :
    ¬ (p.Covers b sector ∧ p.Covers c sector) := by
  have apart : (b + 1) * p.sectorsPerBlock ≤ c * p.sectorsPerBlock := Nat.mul_le_mul_right _ before
  rw [Nat.add_mul] at apart
  rw [Partition.Covers, Partition.Covers, sizes, first, second]
  omega

/-- Blocks are apart, and where they should be, as long as their byte offsets fit in 32 bits. -/
theorem block_sectors_iff (sectors : p.sector_size = 512)
    (range : p.lba + p.s_blocks_count * p.sectorsPerBlock ≤ 2 ^ 32) {b c : Nat}
    (first : 1 ≤ b ∧ b < p.s_blocks_count) (second : 1 ≤ c ∧ c < p.s_blocks_count)
    (distinct : b ≠ c) :
    ((∀ sector, ¬ (p.Covers b sector ∧ p.Covers c sector)) ∧
      p.blockSector b = p.lba + b * p.sectorsPerBlock ∧
      p.blockSector c = p.lba + c * p.sectorsPerBlock) ↔
    b * 1024 <<< p.s_log_block_size < 2 ^ 32 ∧ c * 1024 <<< p.s_log_block_size < 2 ^ 32 := by
  have inside {x : Nat} (below : x < p.s_blocks_count) :
      p.lba + x * p.sectorsPerBlock < 2 ^ 32 := by
    have less := Nat.mul_lt_mul_of_pos_right below (sectorsPerBlock_positive p)
    omega
  rw [blockSector_eq_iff sectors (inside first.2), blockSector_eq_iff sectors (inside second.2)]
  refine ⟨And.right, fun fit => ⟨fun sector both => ?_, fit⟩⟩
  have whole : 1024 <<< p.s_log_block_size < 2 ^ 32 :=
    Nat.lt_of_le_of_lt (Nat.le_mul_of_pos_left _ first.1) fit.1
  have sizes := blockSectors_sectors sectors whole
  have starts := (blockSector_eq_iff sectors (inside first.2)).2 fit.1
  have starts' := (blockSector_eq_iff sectors (inside second.2)).2 fit.2
  rcases Nat.lt_or_gt_of_ne distinct with before | after
  · exact covers_disjoint sizes starts starts' before sector both
  · exact covers_disjoint sizes starts' starts after sector both.symm

def fourGiB : Partition where
  lba := 2048
  group_number := 513
  sector_size := 512
  bgdt_block := 2
  sb_block := 1
  backup_bgs := fun _ => -1
  backup_bgs_count := 0
  sb := putLE blank 4 4 0x400002
  gd := blank

theorem block_sectors_neighbours :
    fourGiB.sector_size = 512 ∧ fourGiB.blockSector 1 = 2050 ∧ fourGiB.blockSector 2 = 2052 := by
  have apart := (block_sectors_iff (p := fourGiB) rfl (by decide) (b := 1) (c := 2)
    (by decide) (by decide) (by decide)).2 (by decide)
  exact ⟨rfl, apart.2.1, apart.2.2⟩

/-- The first block and the last are transferred to the same sectors. -/
theorem block_sectors_overlap :
    fourGiB.s_blocks_count = 0x400002 ∧ fourGiB.Covers 1 2050 ∧ fourGiB.Covers 0x400001 2050 := by
  refine ⟨by decide, ⟨?_, ?_⟩, ?_, ?_⟩ <;> decide

end OmenExt2
