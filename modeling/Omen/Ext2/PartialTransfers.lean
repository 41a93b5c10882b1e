import Omen.Ext2.BlockAlloc

/- Block transfers that stop at a failing sector. The driver returns the bytes moved before
   the failure, and the block layer takes every result but 0 for success. -/
namespace OmenExt2
open ByteMemory OmenDisk

variable {p : Partition} {b : Nat} {faults : List Bool}

structure Mounted (p : Partition) : Prop where
  fits : ShiftFits p
  positive : 0 < p.sector_size
  small : p.sector_size ≤ 4096

theorem Mounted.blockBytes_bounds (mounted : Mounted p) :
    0 < p.blockBytes ∧ p.blockBytes < 2 ^ 31 := by
  have size := blockSize_bounds mounted.fits
  have positive := mounted.positive
  have small := mounted.small
  have bounds := @divideRoundedUp_bounds (2 ^ 32) p.blockSize p.sector_size positive (by omega)
  unfold Partition.blockBytes Partition.blockSectors
  rw [Nat.mod_eq_of_lt (by omega)]
  omega

def sectorsRead (p : Partition) : Nat := sizeToBlocks (widen p.blockBytes)

/-- With these outcomes of its transfers, a read that returns 1 has put every sector of the
    block into the buffer, whatever the disk holds. -/
def ReadsWhole (p : Partition) (b : Nat) (faults : List Bool) : Prop :=
  ∀ (sectors : Nat → Mem) (dest : Mem) (pos : Nat),
    (ext2ReadBlock ata p b dest pos ⟨sectors, faults⟩).1 = 1 →
      ∀ t, t < p.blockSize / 512 → ∀ k, k < 512 →
        (ext2ReadBlock ata p b dest pos ⟨sectors, faults⟩).2.1 (pos + 512 * t + k) =
          sectors (sectorOf p b t) k

def WritesWhole (p : Partition) (b : Nat) (faults : List Bool) : Prop :=
  ∀ (sectors : Nat → Mem) (source : Mem),
    (ext2WriteBlock ata p b source ⟨sectors, faults⟩).1 = 1 →
      ∀ t, t < p.blockSize / 512 → ∀ k, k < 512 →
        (ext2WriteBlock ata p b source ⟨sectors, faults⟩).2.sectors (sectorOf p b t) k =
          source (512 * t + k)

theorem returned_zero_iff {bytes : Nat} (some : 0 < bytes) (short : bytes < 2 ^ 31) :
    (if moved faults (sizeToBlocks bytes) = sizeToBlocks bytes then bytes
      else blockToSize (moved faults (sizeToBlocks bytes))) % 2 ^ 32 = 0 ↔
      moved faults (sizeToBlocks bytes) = 0 := by
  have few := moved_le faults (sizeToBlocks bytes)
  have asked : sizeToBlocks bytes = (bytes + 511) / 512 := by
    rw [sizeToBlocks, Nat.mod_eq_of_lt (by omega)]
  unfold blockToSize
  split <;> omega

theorem Mounted.blockSectors_bounds (mounted : Mounted p) :
    0 < p.blockSectors ∧ p.blockSectors < 2 ^ 31 := by
  have size := blockSize_bounds mounted.fits
  have positive := mounted.positive
  have small := mounted.small
  have bounds := @divideRoundedUp_bounds (2 ^ 32) p.blockSize p.sector_size positive (by omega)
  change p.blockSize ≤ p.blockSectors * p.sector_size ∧
    p.blockSectors * p.sector_size < p.blockSize + p.sector_size at bounds
  have larger := Nat.le_mul_of_pos_right p.blockSectors positive
  refine ⟨Nat.pos_of_ne_zero ?_, by omega⟩
  intro zero
  rw [zero, Nat.zero_mul] at bounds
  omega

theorem ext2ReadBlock_moved (mounted : Mounted p) (nonzero : b ≠ 0) (sectors : Nat → Mem)
    (dest : Mem) (pos : Nat) :
    ext2ReadBlock ata p b dest pos ⟨sectors, faults⟩ =
      (if moved faults (sectorsRead p) = 0 then ext2ReadFailed else 1,
        fetched sectors (widen (p.blockSector b)) dest pos 0 (moved faults (sectorsRead p)),
        ⟨sectors, left faults (sectorsRead p)⟩) := by
  have bounds := mounted.blockBytes_bounds
  have bytes : widen p.blockBytes = p.blockBytes := widen_small bounds.2
  have positive : 0 < b := Nat.pos_of_ne_zero nonzero
  have zero := @returned_zero_iff faults _ bounds.1 bounds.2
  simp only [ext2ReadBlock, positive, if_true, ata, ddDiskRead, bytes, ddDiskReadFrom_spec,
    sectorsRead, Nat.zero_add]
  by_cases none : moved faults (sizeToBlocks p.blockBytes) = 0
  · rw [if_pos (zero.mpr none), if_pos none]
  · rw [if_neg (mt zero.mp none), if_neg none]

theorem ext2WriteBlock_moved (mounted : Mounted p) (nonzero : b ≠ 0) (sectors : Nat → Mem)
    (source : Mem) :
    (ext2WriteBlock ata p b source ⟨sectors, faults⟩).1 =
        (if moved faults (sectorsAsked p) = 0 then ext2WriteFailed else 1) ∧
      Wrote (widen (p.blockSector b)) source sectors
        (ext2WriteBlock ata p b source ⟨sectors, faults⟩).2.sectors 0
        (moved faults (sectorsAsked p)) ∧
      (ext2WriteBlock ata p b source ⟨sectors, faults⟩).2.faults =
        left faults (sectorsAsked p) := by
  have bounds := mounted.blockSectors_bounds
  have bytes : widen p.blockSectors = p.blockSectors := widen_small bounds.2
  have short : sizeToBlocks p.blockSectors ≤ 2 ^ 64 := by
    unfold sizeToBlocks
    omega
  have spec := ddDiskWriteFrom_spec p.blockSectors (widen (p.blockSector b)) source
    ⟨sectors, faults⟩ 0 (sizeToBlocks p.blockSectors) short
  have rest := ddDiskWriteFrom_left p.blockSectors (widen (p.blockSector b)) source
    ⟨sectors, faults⟩ 0 (sizeToBlocks p.blockSectors)
  have zero := @returned_zero_iff faults _ bounds.1 bounds.2
  rw [Nat.zero_add] at spec
  simp only [ext2WriteBlock, nonzero, ne_eq, not_false_eq_true, if_true, ata, ddDiskWrite, bytes,
    sectorsAsked, spec.1]
  by_cases none : moved faults (sizeToBlocks p.blockSectors) = 0
  · rw [if_pos (zero.mpr none), if_pos none]
    exact ⟨rfl, spec.2, rest⟩
  · rw [if_neg (mt zero.mp none), if_neg none]
    exact ⟨rfl, spec.2, rest⟩

theorem reads_whole_iff (mounted : Mounted p) :
    ReadsWhole p b faults ↔ b = 0 ∨ moved faults (sectorsRead p) = 0 ∨
      p.blockSize / 512 ≤ moved faults (sectorsRead p) := by
  constructor
  · intro whole
    by_contra other
    obtain ⟨nonzero, some, short⟩ := not_or.mp other |>.imp_right not_or.mp
    -- a disk of ones, read into a buffer of zeros
    have run := @ext2ReadBlock_moved p b faults mounted nonzero (fun _ _ => 1) blank 0
    have fetch := whole (fun _ _ => 1) blank 0 (by rw [run, if_neg some]) _
      (Nat.lt_of_not_le short) 0 (by decide)
    rw [run] at fetch
    dsimp only at fetch
    rw [fetched, if_neg (by omega), blank] at fetch
    exact absurd fetch (by decide)
  · intro enough sectors dest pos success t inside k low
    by_cases zero : b = 0
    · simp [ext2ReadBlock, zero] at success
    · have run := @ext2ReadBlock_moved p b faults mounted zero sectors dest pos
      rw [run] at success ⊢
      dsimp only at success ⊢
      have some : moved faults (sectorsRead p) ≠ 0 := by
        intro none
        rw [if_pos none] at success
        exact absurd success (by decide)
      have all : pos + 512 * 0 ≤ pos + 512 * t + k ∧
          pos + 512 * t + k < pos + 512 * moved faults (sectorsRead p) := by omega
      have index : (pos + 512 * t + k - pos) / 512 = t := by omega
      have place : (pos + 512 * t + k - pos) % 512 = k := by omega
      rw [fetched, if_pos all, index, place, sectorOf]

theorem writes_whole_iff (mounted : Mounted p) :
    WritesWhole p b faults ↔ b = 0 ∨ moved faults (sectorsAsked p) = 0 ∨
      p.blockSize / 512 ≤ moved faults (sectorsAsked p) := by
  constructor
  · intro whole
    by_contra other
    obtain ⟨nonzero, some, short⟩ := not_or.mp other |>.imp_right not_or.mp
    -- a buffer of ones, written to a disk of zeros
    have run := @ext2WriteBlock_moved p b faults mounted nonzero (fun _ => blank) (fun _ => 1)
    have store := whole (fun _ => blank) (fun _ => 1) (by rw [run.1, if_neg some]) _
      (Nat.lt_of_not_le short) 0 (by decide)
    have bound := (blockSize_bounds mounted.fits).2
    rw [sectorOf, run.2.1.kept] at store
    · exact absurd store (by decide)
    · intro t _ high same
      have equal := sectorAt_injective (by omega) (by omega) same
      omega
  · intro enough sectors source success t inside k low
    by_cases zero : b = 0
    · simp [ext2WriteBlock, zero] at success
    · have run := @ext2WriteBlock_moved p b faults mounted zero sectors source
      rw [run.1] at success
      have some : moved faults (sectorsAsked p) ≠ 0 := by
        intro none
        rw [if_pos none] at success
        exact absurd success (by decide)
      exact run.2.1.stored t (Nat.zero_le t) (by omega) k low

/-- A result of 1 stands for the whole block only where the transfers fail from the first
    sector on or reach the last one; a write asks for `block_sectors` bytes, so that it
    reaches the last one only with sectors of one byte. -/
theorem partial_transfers_iff (mounted : Mounted p) (b : Nat) (faults : List Bool) :
    (ReadsWhole p b faults ↔ b = 0 ∨ moved faults (sectorsRead p) = 0 ∨
      p.blockSize / 512 ≤ moved faults (sectorsRead p)) ∧
    (WritesWhole p b faults ↔ b = 0 ∨ moved faults (sectorsAsked p) = 0 ∨
      p.blockSize / 512 ≤ moved faults (sectorsAsked p)) :=
  ⟨reads_whole_iff mounted, writes_whole_iff mounted⟩

theorem lastFree_mounted : Mounted (lastFree 0 1) where
  fits := (@oneGroup_aligned 0 8192 1 6 (by decide)).fits
  positive := Nat.zero_lt_one
  small := by decide

theorem whole_transfers : ReadsWhole (lastFree 0 1) 1 [] ∧ WritesWhole (lastFree 0 1) 1 [] := by
  have size : (lastFree 0 1).blockSize = 1024 := (oneGroup_size (by decide)).1
  have aligned : Aligned (lastFree 0 1) := oneGroup_aligned (by decide)
  have sectors : (lastFree 0 1).blockSectors = 1024 := by
    rw [blockSectors_eq aligned, size]
    exact Nat.div_one _
  have both := partial_transfers_iff lastFree_mounted 1 []
  rw [moved_no_faults, moved_no_faults, sectorsRead, sectorsRead_eq aligned,
    sectorsAsked_eq aligned, size, sectors] at both
  exact ⟨both.1.mpr (by decide), both.2.mpr (by decide)⟩

/-- Of a block of two sectors the second cannot be read, and the read returns 1. -/
theorem second_sector_lost : ¬ ∀ (p : Partition) (b : Nat) (faults : List Bool), Mounted p →
    ReadsWhole p b faults ∧ WritesWhole p b faults := by
  intro whole
  have aligned : Aligned (plainPartition 0 1 8192 1024 1 blank) :=
    plainPartition_aligned (by decide)
  have mounted : Mounted (plainPartition 0 1 8192 1024 1 blank) :=
    ⟨aligned.fits, aligned.positive, by decide⟩
  have size : (plainPartition 0 1 8192 1024 1 blank).blockSize = 1024 := by
    rw [blockSize_eq aligned.fits, plainPartition_log (by decide), Nat.pow_zero]
  have read := (reads_whole_iff mounted).mp (whole _ 1 [false, true] mounted).1
  rw [sectorsRead, sectorsRead_eq aligned, size] at read
  exact absurd read (by decide)

end OmenExt2
