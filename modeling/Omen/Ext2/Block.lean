import Omen.Ext2.Partition

/- Block transfers. The reader passes a byte count to the disk, the writer passes the
   number of sectors of the block in its place; both take only 0 for a failure. What
   the code above may rely on is stated as a store of blocks whose writes keep the
   first `stored` bytes. -/
namespace OmenExt2
open ByteMemory OmenDisk

variable {σ : Type}

def ext2ReadFailed : Nat := 0xFFFFFFFE
def ext2WriteFailed : Nat := 0xFFFFFFFD

def ext2ReadBlock (dev : Dev σ) (p : Partition) (block : Nat) (dest : Mem) (pos : Nat) (d : σ) :
    Nat × Mem × σ :=
  if 0 < block then
    let (done, dest', d') := dev.readDisk (p.blockSector block) p.blockBytes dest pos d
    if done = 0 then (ext2ReadFailed, dest', d') else (1, dest', d')
  else (0, dest, d)

def ext2WriteBlock (dev : Dev σ) (p : Partition) (block : Nat) (source : Mem) (d : σ) :
    Nat × σ :=
  if block ≠ 0 then
    -- the count is `block_sectors`, where the reader has `block_sectors * sector_size`
    let (done, d') := dev.writeDisk (p.blockSector block) p.blockSectors source d
    if done = 0 then (ext2WriteFailed, d') else (1, d')
  else (0, d)

structure Reads (dev : Dev σ) (p : Partition) (valid : Nat → Prop) (view : σ → Nat → Mem) :
    Prop where
  fits : ShiftFits p
  nonzero : ∀ {b}, valid b → b ≠ 0
  tail : ∀ d b i, p.blockSize ≤ i → view d b i = 0
  read : ∀ {b}, valid b → ∀ dest pos d, ∃ done, done ≠ 0 ∧
    dev.readDisk (p.blockSector b) p.blockBytes dest pos d =
      (done, memcpy dest pos (view d b) p.blockSize, d)

/-- Block writes succeed as well, keep the first `stored` bytes and touch no other block. -/
structure Stores (dev : Dev σ) (p : Partition) (stored : Nat) (valid : Nat → Prop)
    (view : σ → Nat → Mem) : Prop extends Reads dev p valid view where
  stored_le : stored ≤ p.blockSize
  write : ∀ {b}, valid b → ∀ source d, ∃ done d', done ≠ 0 ∧
    dev.writeDisk (p.blockSector b) p.blockSectors source d = (done, d') ∧
      view d' = Function.update (view d) b (memcpy (view d b) 0 source stored)

structure Puts (dev : Dev σ) (p : Partition) (valid : Nat → Prop) (view : σ → Nat → Mem) :
    Prop where
  put : ∀ {b}, valid b → ∀ source d, ∃ done d', done ≠ 0 ∧
    dev.writeDisk (p.blockSector b) p.blockBytes source d = (done, d') ∧
      view d' = Function.update (view d) b (memcpy (view d b) 0 source p.blockSize)

variable {dev : Dev σ} {p : Partition} {valid : Nat → Prop} {view : σ → Nat → Mem} {stored : Nat}

theorem ext2ReadBlock_valid (reads : Reads dev p valid view) {b : Nat} (ok : valid b)
    (dest : Mem) (pos : Nat) (d : σ) :
    ext2ReadBlock dev p b dest pos d = (1, memcpy dest pos (view d b) p.blockSize, d) := by
  obtain ⟨done, nonzero, run⟩ := reads.read ok dest pos d
  have positive : 0 < b := Nat.pos_of_ne_zero (reads.nonzero ok)
  simp [ext2ReadBlock, positive, run, nonzero]

theorem ext2ReadBlock_buffer (reads : Reads dev p valid view) {b : Nat} (ok : valid b) (d : σ) :
    ext2ReadBlock dev p b blank 0 d = (1, view d b, d) := by
  rw [ext2ReadBlock_valid reads ok, memcpy_blank (reads.tail d b)]

theorem ext2ReadBlock_zero (dest : Mem) (pos : Nat) (d : σ) :
    ext2ReadBlock dev p 0 dest pos d = (0, dest, d) := by
  simp [ext2ReadBlock]

theorem ext2WriteBlock_valid (stores : Stores dev p stored valid view) {b : Nat} (ok : valid b)
    (source : Mem) (d : σ) :
    ∃ d', ext2WriteBlock dev p b source d = (1, d') ∧
      view d' = Function.update (view d) b (memcpy (view d b) 0 source stored) := by
  obtain ⟨done, d', nonzero, run, after⟩ := stores.write ok source d
  exact ⟨d', by simp [ext2WriteBlock, stores.nonzero ok, run, nonzero], after⟩

theorem ext2WriteBlock_disk {b : Nat} (nonzero : b ≠ 0) (source : Mem) (d : σ) :
    (ext2WriteBlock dev p b source d).2 =
      (dev.writeDisk (p.blockSector b) p.blockSectors source d).2 := by
  simp only [ext2WriteBlock, nonzero, ne_eq, not_false_eq_true, ↓reduceIte]
  by_cases failed : (dev.writeDisk (p.blockSector b) p.blockSectors source d).1 = 0
  · rw [if_pos failed]
  · rw [if_neg failed]

theorem ext2WriteBlock_whole (stores : Stores dev p p.blockSize valid view) {b : Nat}
    (ok : valid b) {source : Mem} (cut : ∀ i, p.blockSize ≤ i → source i = 0) (d : σ) :
    ∃ d', ext2WriteBlock dev p b source d = (1, d') ∧
      view d' = Function.update (view d) b source := by
  obtain ⟨d', run, after⟩ := ext2WriteBlock_valid stores ok source d
  refine ⟨d', run, ?_⟩
  rw [after]
  congr 1
  funext i
  by_cases inside : i < p.blockSize
  · simp [memcpy, inside]
  · simp [memcpy, inside, cut i (by omega), stores.tail d b i (by omega)]

end OmenExt2
