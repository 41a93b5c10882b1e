import Omen.Ext2.PartialTransfers

/- The block allocator over a disk that fails. `ext2_read_block` and `ext2_write_block` report a
   failed transfer by a large positive number, which the tests of the allocator (`!result` and
   `result <= 0`) take for success; a transfer that fails behind its first sector is not even
   reported. All transfers of the two calls are of bitmaps. -/
namespace OmenExt2
open ByteMemory Bitmap OmenDisk

/-- Whole sectors make up a block, as on the disks of the repository, whose sectors have 512
    bytes, and a block has a bit for each block of a group. -/
structure BitmapBlocks (p : Partition) : Prop extends Mounted p where
  divides : p.blockSize % p.sector_size = 0
  per_group : 0 < p.s_blocks_per_group
  capacity : p.s_blocks_per_group ≤ 8 * p.blockSize

theorem BitmapBlocks.sectorsRead_eq {p : Partition} (blocks : BitmapBlocks p) :
    sectorsRead p = p.blockSize / 512 :=
  OmenExt2.sectorsRead_eq ⟨blocks.fits, blocks.positive, blocks.divides⟩

def SectorFailed (before after : Port) : Prop := after.faults.count true < before.faults.count true

def SameCounters (fs fs' : Fs Port) : Prop :=
  fs'.bg_free_blocks_count = fs.bg_free_blocks_count ∧
    fs'.s_free_blocks_count = fs.s_free_blocks_count

def Noticed (fs : Fs Port) (run : Nat × Fs Port) : Prop :=
  run.1 = 0 ∧ SameCounters fs run.2 ∧ run.2.disk.sectors = fs.disk.sectors

def FaultNoticed (fs : Fs Port) (run : Nat × Fs Port) : Prop :=
  SectorFailed fs.disk run.2.disk → Noticed fs run

def bitmapOn (p : Partition) (sectors : Nat → Mem) (group : Nat) : Mem :=
  fetched sectors (widen (p.blockSector (p.bg_block_bitmap group))) blank 0 0 (sectorsRead p)

def transfersFrom (p : Partition) (free : Nat → Nat) (sectors : Nat → Mem) (i : Nat) : Nat → Nat
  | 0 => 0
  | n + 1 =>
    if free i = 0 then transfersFrom p free sectors (i + 1) n
    else if p.bg_block_bitmap i = 0 then 0
    else
      match scanWords (bitmapOn p sectors i) 0 p.entriesPerBlock with
      | none => sectorsRead p + transfersFrom p free sectors (i + 1) n
      | some _ => sectorsRead p + sectorsAsked p

def allocateTransfers (p : Partition) (fs : Fs Port) : Nat :=
  transfersFrom p fs.bg_free_blocks_count fs.disk.sectors 0 p.group_number

namespace Partition
variable (p : Partition)

-- the group and the bit of a block as `ext2_deallocate_block` computes them
def groupOf (block : Nat) : Nat := (block + (2 ^ 32 - 1)) % 2 ^ 32 / p.s_blocks_per_group

def indexOf (block : Nat) : Nat := (block + (2 ^ 32 - 1)) % 2 ^ 32 % p.s_blocks_per_group

def UsedOnDisk (sectors : Nat → Mem) (block : Nat) : Prop :=
  p.bg_block_bitmap (p.groupOf block) ≠ 0 ∧
    bitAt (bitmapOn p sectors (p.groupOf block)) (p.indexOf block) = true

end Partition

section Bitmaps
variable {p : Partition} {b i n t : Nat} {fs : Fs Port}

theorem read_bitmap (mounted : Mounted p) (nonzero : b ≠ 0) (port : Port) :
    ∃ code, code ≠ 0 ∧ ext2ReadBlock ata p b blank 0 port =
      (code, fetched port.sectors (widen (p.blockSector b)) blank 0 0
        (moved port.faults (sectorsRead p)), ⟨port.sectors, left port.faults (sectorsRead p)⟩) := by
  refine ⟨_, ?_, ext2ReadBlock_moved mounted nonzero port.sectors blank 0⟩
  split <;> decide

theorem write_bitmap (mounted : Mounted p) (nonzero : b ≠ 0) (source : Mem) (port : Port) :
    ∃ code sectors, code ≠ 0 ∧ ext2WriteBlock ata p b source port =
      (code, ⟨sectors, left port.faults (sectorsAsked p)⟩) := by
  obtain ⟨code, -, rest⟩ :=
    @ext2WriteBlock_moved p b port.faults mounted nonzero port.sectors source
  refine ⟨(ext2WriteBlock ata p b source port).1, (ext2WriteBlock ata p b source port).2.sectors,
    ?_, ?_⟩
  · rw [code]
    split <;> decide
  · rw [← rest]

theorem scan_few (blocks : BitmapBlocks p) {sectors : Nat → Mem} {offset few : Nat}
    (less : few < sectorsRead p) :
    ∃ place, scanWords (fetched sectors offset blank 0 0 few) 0 p.entriesPerBlock = some place := by
  rw [blocks.sectorsRead_eq] at less
  cases found : scanWords (fetched sectors offset blank 0 0 few) 0 p.entriesPerBlock with
  | some place => exact ⟨place, rfl⟩
  | none =>
    rw [scanWords_eq, Option.map_eq_none_iff, bitmap_bits blocks.fits] at found
    have bit := firstClear_none found (8 * (512 * few)) (by omega) (by omega)
    rw [bitAt, fetched, if_neg (by omega)] at bit
    exact absurd bit (by rw [blank, UInt8.toNat_zero, Nat.zero_testBit]; decide)

theorem allocateFrom_next (mounted : Mounted p) (counted : fs.bg_free_blocks_count i ≠ 0)
    (nonzero : p.bg_block_bitmap i ≠ 0)
    (full : scanWords (fetched fs.disk.sectors (widen (p.blockSector (p.bg_block_bitmap i))) blank
      0 0 (moved fs.disk.faults (sectorsRead p))) 0 p.entriesPerBlock = none) :
    allocateFrom ata p i (n + 1) fs = allocateFrom ata p (i + 1) n
      { fs with disk := ⟨fs.disk.sectors, left fs.disk.faults (sectorsRead p)⟩ } := by
  obtain ⟨code, some_code, read⟩ := read_bitmap mounted nonzero fs.disk
  simp only [allocateFrom, counted, ↓reduceIte, read, some_code, full]

theorem allocateFrom_found (mounted : Mounted p) (counted : fs.bg_free_blocks_count i ≠ 0)
    (nonzero : p.bg_block_bitmap i ≠ 0) {place : Nat × Nat}
    (found : scanWords (fetched fs.disk.sectors (widen (p.blockSector (p.bg_block_bitmap i))) blank
      0 0 (moved fs.disk.faults (sectorsRead p))) 0 p.entriesPerBlock = some place) :
    ¬ SameCounters fs (allocateFrom ata p i (n + 1) fs).2 ∧
      (allocateFrom ata p i (n + 1) fs).2.disk.faults =
        left (left fs.disk.faults (sectorsRead p)) (sectorsAsked p) := by
  obtain ⟨j, k⟩ := place
  obtain ⟨code, some_code, read⟩ := read_bitmap mounted nonzero fs.disk
  generalize bitmap : fetched _ _ _ _ _ _ = m at read found
  obtain ⟨code', sectors, some_code', write⟩ := write_bitmap mounted nonzero
    (putWord m j (word m j ||| 1 <<< k))
    ⟨fs.disk.sectors, left fs.disk.faults (sectorsRead p)⟩
  simp only [allocateFrom, counted, ↓reduceIte, read, some_code, found, write, some_code']
  refine ⟨fun same => ?_, trivial⟩
  have here := congrFun same.1 i
  simp only [Fs.countTaken, Function.update_self] at here
  omega

/-- A failure in the search moves the counters: a sector that was not read looks free, and the
    outcome of the write is not looked at. -/
theorem allocateFrom_faults (blocks : BitmapBlocks p) (n i : Nat) (fs : Fs Port) :
    (SectorFailed fs.disk (allocateFrom ata p i n fs).2.disk ↔ true ∈ fs.disk.faults.take
        (transfersFrom p fs.bg_free_blocks_count fs.disk.sectors i n)) ∧
      (SectorFailed fs.disk (allocateFrom ata p i n fs).2.disk →
        ¬ SameCounters fs (allocateFrom ata p i n fs).2) := by
  induction n generalizing i fs with
  | zero =>
    have none : ¬ SectorFailed fs.disk fs.disk := Nat.lt_irrefl _
    rw [transfersFrom, List.take_zero]
    exact ⟨iff_of_false none (by simp), fun failed => absurd failed none⟩
  | succ n ih =>
    by_cases empty : fs.bg_free_blocks_count i = 0
    · rw [allocateFrom, transfersFrom, if_pos empty, if_pos empty]
      exact ih (i + 1) fs
    by_cases zero : p.bg_block_bitmap i = 0
    · have stays : allocateFrom ata p i (n + 1) fs = (0, fs) := by
        simp only [allocateFrom, empty, ↓reduceIte, zero, ext2ReadBlock_zero]
      have none : ¬ SectorFailed fs.disk fs.disk := Nat.lt_irrefl _
      rw [stays, transfersFrom, if_neg empty, if_pos zero, List.take_zero]
      exact ⟨iff_of_false none (by simp), fun failed => absurd failed none⟩
    rw [transfersFrom, if_neg empty, if_neg zero]
    by_cases broken : true ∈ fs.disk.faults.take (sectorsRead p)
    · obtain ⟨place, found⟩ := @scan_few p blocks fs.disk.sectors
        (widen (p.blockSector (p.bg_block_bitmap i))) _ (transfers_fail broken).1
      obtain ⟨moves, faults⟩ :=
        @allocateFrom_found p i n fs blocks.toMounted empty zero place found
      have failed : SectorFailed fs.disk (allocateFrom ata p i (n + 1) fs).2.disk := by
        rw [SectorFailed, faults]
        exact Nat.lt_of_le_of_lt left_count_le (transfers_fail broken).2.1
      refine ⟨iff_of_true failed ?_, fun _ => moves⟩
      split
      all_goals exact List.mem_of_mem_take (by
        rw [List.take_take, Nat.min_eq_left (Nat.le_add_right _ _)]
        exact broken)
    · -- the bitmap is read as it is on the disk
      obtain ⟨all, rest⟩ := transfers_sound broken
      cases scan : scanWords (bitmapOn p fs.disk.sectors i) 0 p.entriesPerBlock with
      | some place =>
        obtain ⟨moves, faults⟩ := @allocateFrom_found p i n fs blocks.toMounted empty zero place
          (by rw [all]; exact scan)
        refine ⟨?_, fun _ => moves⟩
        rw [SectorFailed, faults, left_left_count]
      | none =>
        rw [allocateFrom_next blocks.toMounted empty zero (by rw [all]; exact scan), rest]
        obtain ⟨meets, moves⟩ := ih (i + 1)
          { fs with disk := ⟨fs.disk.sectors, fs.disk.faults.drop (sectorsRead p)⟩ }
        have same : (fs.disk.faults.drop (sectorsRead p)).count true =
            fs.disk.faults.count true := by
          have whole := congrArg (List.count true)
            (List.take_append_drop (sectorsRead p) fs.disk.faults)
          rwa [List.count_append, List.count_eq_zero_of_not_mem broken, Nat.zero_add] at whole
        rw [SectorFailed, same] at meets moves
        refine ⟨?_, moves⟩
        dsimp only
        rw [List.take_add, List.mem_append, or_iff_right broken]
        exact meets

theorem bitAt_fetched {sectors : Nat → Mem} {offset few : Nat} :
    bitAt (fetched sectors offset blank 0 0 few) t =
      (decide (t / 4096 < few) && (sectors (sectorAt offset (t / 4096)) (t / 8 % 512)).toNat.testBit
        (t % 8)) := by
  rw [bitAt, fetched, Nat.sub_zero, Nat.div_div_eq_div_mul]
  by_cases inside : t / 4096 < few
  · rw [if_pos (by omega), decide_eq_true inside, Bool.true_and]
  · rw [if_neg (by omega), decide_eq_false inside, Bool.false_and]
    exact Nat.zero_testBit _

theorem deallocate_noticed_iff (blocks : BitmapBlocks p) (block : Nat) :
    FaultNoticed fs (ext2DeallocateBlock ata p block fs) ↔
      (p.UsedOnDisk fs.disk.sectors block →
        true ∈ fs.disk.faults.take (p.indexOf block / 4096 + 1) ∨
          true ∉ fs.disk.faults.take (sectorsRead p + sectorsAsked p)) := by
  by_cases zero : p.bg_block_bitmap (p.groupOf block) = 0
  · have stays : ext2DeallocateBlock ata p block fs = (0, fs) := by
      unfold Partition.groupOf at zero
      simp only [ext2DeallocateBlock, zero, ext2ReadBlock_zero, ↓reduceIte]
    rw [stays]
    exact iff_of_true (fun failed => absurd failed (Nat.lt_irrefl _))
      fun used => absurd zero used.1
  obtain ⟨code, some_code, read⟩ := read_bitmap blocks.toMounted zero fs.disk
  have index : p.indexOf block < 8 * p.blockSize :=
    Nat.lt_of_lt_of_le (Nat.mod_lt _ blocks.per_group) blocks.capacity
  have whole := blockSize_sectors blocks.fits
  have inside : p.indexOf block / 4096 < sectorsRead p := by
    rw [blocks.sectorsRead_eq]
    omega
  have used : p.UsedOnDisk fs.disk.sectors block ↔
      (fs.disk.sectors (sectorAt (widen (p.blockSector (p.bg_block_bitmap (p.groupOf block))))
        (p.indexOf block / 4096)) (p.indexOf block / 8 % 512)).toNat.testBit
          (p.indexOf block % 8) = true := by
    rw [Partition.UsedOnDisk, bitmapOn, bitAt_fetched, decide_eq_true inside, Bool.true_and]
    exact and_iff_right zero
  have bit := @bitAt_fetched (p.indexOf block) fs.disk.sectors
    (widen (p.blockSector (p.bg_block_bitmap (p.groupOf block))))
    (moved fs.disk.faults (sectorsRead p))
  rw [← show 32 * (p.indexOf block / 32) + p.indexOf block % 32 = p.indexOf block by omega,
    ← andBit_word _ _ (Nat.mod_lt _ (by decide)),
    show 32 * (p.indexOf block / 32) + p.indexOf block % 32 = p.indexOf block by omega] at bit
  generalize bitmap : fetched _ _ _ _ _ (moved fs.disk.faults (sectorsRead p)) = m at read bit
  cases seen : andBit (word m (p.indexOf block / 32)) (p.indexOf block % 32) with
  | false =>
    have run : ext2DeallocateBlock ata p block fs = (0, { fs with
        disk := ⟨fs.disk.sectors, left fs.disk.faults (sectorsRead p)⟩ }) := by
      unfold Partition.groupOf at read
      unfold Partition.indexOf at seen
      simp only [ext2DeallocateBlock, read, some_code, ↓reduceIte, seen, Bool.false_eq_true]
    rw [run]
    refine iff_of_true (fun _ => ⟨rfl, ⟨rfl, rfl⟩, rfl⟩) fun marked => Or.inl ?_
    rw [seen, used.mp marked, Bool.and_true, eq_comm, decide_eq_false_iff_not] at bit
    have broken : true ∈ fs.disk.faults.take (sectorsRead p) := by
      by_contra sound
      rw [(transfers_sound sound).1] at bit
      exact bit inside
    exact List.take_subset_take_left _ (by omega) (transfers_fail broken).2.2
  | true =>
    rw [seen, eq_comm, Bool.and_eq_true, decide_eq_true_eq] at bit
    obtain ⟨code', sectors, some_code', write⟩ := write_bitmap blocks.toMounted zero
      (putWord m (p.indexOf block / 32) (word m (p.indexOf block / 32) &&&
        (0xFFFFFFFF ^^^ 1 <<< (p.indexOf block % 32))))
      ⟨fs.disk.sectors, left fs.disk.faults (sectorsRead p)⟩
    have run : (ext2DeallocateBlock ata p block fs).1 = 1 ∧
        (ext2DeallocateBlock ata p block fs).2.disk.faults =
          left (left fs.disk.faults (sectorsRead p)) (sectorsAsked p) := by
      unfold Partition.groupOf at read write
      unfold Partition.indexOf at seen write
      simp only [ext2DeallocateBlock, read, some_code, ↓reduceIte, seen, write, some_code',
        and_self]
    have early : true ∉ fs.disk.faults.take (p.indexOf block / 4096 + 1) := moved_sound bit.1
    rw [FaultNoticed, SectorFailed, run.2, left_left_count]
    constructor
    · intro noticed _
      refine Or.inr fun broken => ?_
      have zero := (noticed broken).1
      rw [run.1] at zero
      cases zero
    · intro sound broken
      rcases sound (used.mpr bit.2) with first | none
      · exact absurd first early
      · exact absurd broken none

end Bitmaps

/-- An allocation comes to no harm just if none of the sector transfers fails that it makes on a
    sound disk. A release comes to none if the bit of the block is clear, if the bitmap cannot be
    read up to that bit, or if nothing fails. -/
theorem bitmap_faults_noticed_iff {p : Partition} (blocks : BitmapBlocks p) (fs : Fs Port)
    (block : Nat) :
    (FaultNoticed fs (ext2AllocateBlock ata p fs) ↔
      true ∉ fs.disk.faults.take (allocateTransfers p fs)) ∧
    (FaultNoticed fs (ext2DeallocateBlock ata p block fs) ↔
      (p.UsedOnDisk fs.disk.sectors block →
        true ∈ fs.disk.faults.take (p.indexOf block / 4096 + 1) ∨
          true ∉ fs.disk.faults.take (sectorsRead p + sectorsAsked p))) := by
  refine ⟨?_, deallocate_noticed_iff blocks block⟩
  obtain ⟨meets, moves⟩ := allocateFrom_faults blocks p.group_number 0 fs
  rw [allocateTransfers, ← meets]
  constructor
  · intro noticed failed
    exact moves failed (noticed failed).2.1
  · intro sound failed
    exact absurd failed sound

def ataGroup : Partition := plainPartition 0 1 8192 1024 1 (putLE blank 0 4 3)

def faultyState (faults : List Bool) : Fs Port :=
  { groupState ataGroup bitFourClear 1 with
    disk := ⟨(groupState ataGroup bitFourClear 1).disk, faults⟩ }

theorem ataGroup_blocks : BitmapBlocks ataGroup where
  fits := (plainPartition_aligned (by decide)).fits
  positive := by decide
  small := by decide
  divides := (plainPartition_aligned (by decide)).divides
  per_group := by decide +kernel
  capacity := by decide +kernel

/-- Failures that come behind the transfers of an allocation, or before the bit of a release. -/
theorem bitmap_faults_noticed_late :
    FaultNoticed (faultyState [false, false, false, true])
        (ext2AllocateBlock ata ataGroup (faultyState [false, false, false, true])) ∧
      FaultNoticed (faultyState [true]) (ext2DeallocateBlock ata ataGroup 1 (faultyState [true])) :=
  ⟨(bitmap_faults_noticed_iff ataGroup_blocks _ 1).1.mpr (by decide +kernel),
    (bitmap_faults_noticed_iff ataGroup_blocks _ 1).2.mpr fun _ => Or.inl (by decide +kernel)⟩

def lateBitmap : Mem := fun i => if i = 1023 then 0x7F else 0xFF

def lateState : Fs Port :=
  { groupState ataGroup lateBitmap 1 with
    disk := ⟨(groupState ataGroup lateBitmap 1).disk, [false, true]⟩ }

/-- If the first sector of the bitmap cannot be read, block 1 is handed out, and if the second
    one cannot, block 4097; both are in use. -/
theorem bitmap_fault_missed :
    (ext2AllocateBlock ata ataGroup (faultyState [true])).1 = 1 ∧
      ¬ FaultNoticed (faultyState [true]) (ext2AllocateBlock ata ataGroup (faultyState [true])) ∧
      ataGroup.UsedOnDisk (faultyState [true]).disk.sectors 1 ∧
      (ext2AllocateBlock ata ataGroup lateState).1 = 4097 ∧
      ¬ FaultNoticed lateState (ext2AllocateBlock ata ataGroup lateState) ∧
      ataGroup.UsedOnDisk lateState.disk.sectors 4097 := by
  have first : (ext2AllocateBlock ata ataGroup (faultyState [true])).1 = 1 := by decide +kernel
  have second : (ext2AllocateBlock ata ataGroup lateState).1 = 4097 := by decide +kernel
  have faults : SectorFailed (faultyState [true]).disk
      (ext2AllocateBlock ata ataGroup (faultyState [true])).2.disk ∧
      SectorFailed lateState.disk (ext2AllocateBlock ata ataGroup lateState).2.disk := by
    unfold SectorFailed
    decide +kernel
  have used : ataGroup.UsedOnDisk (faultyState [true]).disk.sectors 1 ∧
      ataGroup.UsedOnDisk lateState.disk.sectors 4097 := by
    unfold Partition.UsedOnDisk
    decide +kernel
  refine ⟨first, fun noticed => ?_, used.1, second, fun noticed => ?_, used.2⟩
  · have zero := (noticed faults.1).1
    rw [first] at zero
    cases zero
  · have zero := (noticed faults.2).1
    rw [second] at zero
    cases zero

end OmenExt2
