import Omen.Ext2.Block

/- `ext2_write_block` and `ext2_read_block` over the driver of the repository. A block
   is read whole; of a block that is written, only the sectors covered by
   `block_sectors` bytes reach the disk. -/
namespace OmenExt2
open ByteMemory OmenDisk

variable {p : Partition}

theorem widen_small {x : Nat} (small : x < 2 ^ 31) : widen x = x := by
  rw [widen, if_pos small]

def sectorsAsked (p : Partition) : Nat := sizeToBlocks (widen p.blockSectors)

theorem sectorsAsked_eq (aligned : Aligned p) : sectorsAsked p = (p.blockSectors + 511) / 512 := by
  have bound := (blockSize_bounds aligned.fits).2
  have le := blockSectors_le aligned
  rw [sectorsAsked, widen_small (by omega), sizeToBlocks, Nat.mod_eq_of_lt (by omega)]

theorem sectorsAsked_le (aligned : Aligned p) : sectorsAsked p ≤ p.blockSize / 512 := by
  have whole := blockSize_sectors aligned.fits
  have le := blockSectors_le aligned
  rw [sectorsAsked_eq aligned]
  omega

theorem sectorsRead_eq (aligned : Aligned p) :
    sizeToBlocks (widen p.blockBytes) = p.blockSize / 512 := by
  have bounds := blockSize_bounds aligned.fits
  have whole := blockSize_sectors aligned.fits
  rw [blockBytes_eq aligned, widen_small (by omega), sizeToBlocks, Nat.mod_eq_of_lt (by omega)]
  omega

def sectorOf (p : Partition) (b t : Nat) : Nat := sectorAt (widen (p.blockSector b)) t

def blockView (p : Partition) (sectors : Nat → Mem) (b : Nat) : Mem :=
  fun i => if i < p.blockSize then sectors (sectorOf p b (i / 512)) (i % 512) else 0

theorem reliable_read (aligned : Aligned p) (b : Nat) (dest : Mem) (pos : Nat)
    (sectors : Nat → Mem) :
    reliable.readDisk (p.blockSector b) p.blockBytes dest pos sectors =
      (p.blockSize, memcpy dest pos (blockView p sectors b) p.blockSize, sectors) := by
  have bounds := blockSize_bounds aligned.fits
  have whole := blockSize_sectors aligned.fits
  have bytes : widen p.blockBytes = p.blockSize := by
    rw [blockBytes_eq aligned, widen_small (by omega)]
  simp only [reliable, ata, ddDiskRead, ddDiskReadFrom_reliable, sectorsRead_eq aligned]
  rw [bytes, Nat.mod_eq_of_lt (by omega)]
  congr 2
  funext k
  simp only [Nat.mul_zero, Nat.add_zero, Nat.zero_add, whole, memcpy, blockView]
  by_cases inside : pos ≤ k ∧ k < pos + p.blockSize
  · have low : k - pos < p.blockSize := by omega
    simp only [inside, and_self, ↓reduceIte, low, sectorOf]
  · rw [if_neg inside, if_neg inside]

def readBack (p : Partition) (sectors : Nat → Mem) (b : Nat) : Mem :=
  (ext2ReadBlock reliable p b blank 0 sectors).2.1

theorem readBack_eq (aligned : Aligned p) {b : Nat} (nonzero : b ≠ 0) (sectors : Nat → Mem) :
    readBack p sectors b = blockView p sectors b := by
  have low := (blockSize_bounds aligned.fits).1
  have size : p.blockSize ≠ 0 := by omega
  have positive : 0 < b := Nat.pos_of_ne_zero nonzero
  simp only [readBack, ext2ReadBlock, positive, ↓reduceIte, reliable_read aligned, size]
  apply memcpy_blank
  intro i out
  have no : ¬ i < p.blockSize := by omega
  simp [blockView, no]

theorem block_write_sectors (aligned : Aligned p) {b : Nat} (nonzero : b ≠ 0) (buffer : Mem)
    (port : Port) :
    Wrote (widen (p.blockSector b)) buffer port.sectors
      (ext2WriteBlock ata p b buffer port).2.sectors 0 (moved port.faults (sectorsAsked p)) := by
  have short : sectorsAsked p ≤ 2 ^ 64 := by
    have le := sectorsAsked_le aligned
    have bound := (blockSize_bounds aligned.fits).2
    omega
  have spec := (ddDiskWriteFrom_spec (widen p.blockSectors) (widen (p.blockSector b)) buffer port
    0 (sectorsAsked p) short).2
  rw [Nat.zero_add] at spec
  rw [ext2WriteBlock_disk nonzero]
  exact spec

theorem sectors_apart (aligned : Aligned p) (small : p.sector_size ≤ 512) {b c t u : Nat}
    (distinct : b ≠ c) (fitsB : b * p.blockSize < 2 ^ 32) (fitsC : c * p.blockSize < 2 ^ 32)
    (inB : t < p.blockSize / 512) (inC : u < p.blockSize / 512) :
    sectorOf p b t ≠ sectorOf p c u := by
  have divides := blockSize_divides aligned.fits
  have longer : p.blockSize / 512 ≤ p.blockSectors := by
    rw [blockSectors_eq aligned]
    exact Nat.div_le_div_left small aligned.positive
  -- a block whose first byte is below 2^32 ends there at the latest
  have room : ∀ {x k}, x * p.blockSize < 2 ^ 32 → k < p.blockSectors →
      x * p.blockSectors + k < 2 ^ 32 := by
    intro x k fitsX inX
    have below : x < 2 ^ (22 - p.s_log_block_size) := by
      rw [← divides, Nat.mul_comm p.blockSize] at fitsX
      exact Nat.lt_of_mul_lt_mul_right fitsX
    have stop : (x + 1) * p.blockSectors ≤ 2 ^ 32 := by
      calc (x + 1) * p.blockSectors
          ≤ 2 ^ (22 - p.s_log_block_size) * p.blockSize :=
            Nat.mul_le_mul below (blockSectors_le aligned)
        _ = 2 ^ 32 := by rw [Nat.mul_comm]; exact divides
    rw [Nat.add_mul, Nat.one_mul] at stop
    omega
  have endB := room fitsB (Nat.lt_of_lt_of_le inB longer)
  have endC := room fitsC (Nat.lt_of_lt_of_le inC longer)
  intro same
  have equal : b * p.blockSectors + t = c * p.blockSectors + u := by
    simp only [sectorOf, sectorAt, Partition.blockSector, widen, blockLba_eq aligned fitsB,
      blockLba_eq aligned fitsC] at same
    generalize b * p.blockSectors = x at *
    generalize c * p.blockSectors = y at *
    split at same <;> split at same <;> omega
  have quotient : ∀ {x k}, k < p.blockSectors → (x * p.blockSectors + k) / p.blockSectors = x := by
    intro x k inX
    rw [Nat.mul_comm, Nat.mul_add_div (by omega), Nat.div_eq_of_lt inX, Nat.add_zero]
  apply distinct
  rw [← quotient (x := b) (Nat.lt_of_lt_of_le inB longer), equal,
    quotient (Nat.lt_of_lt_of_le inC longer)]

/-- The bytes of block `b` that a write leaves alone already are those of the buffer, and
    so is every sector it fills that block `c` has as well. Sectors are shared only where
    the partition claims sectors longer than the 512 bytes of the driver. -/
structure AlreadyThere (p : Partition) (port : Port) (b c : Nat) (buffer : Mem) : Prop where
  rest : ∀ i, 512 * moved port.faults (sectorsAsked p) ≤ i → i < p.blockSize →
    readBack p port.sectors b i = buffer i
  shared : 512 < p.sector_size → ∀ t u, t < moved port.faults (sectorsAsked p) →
    u < p.blockSize / 512 → sectorOf p b t = sectorOf p c u →
      ∀ k, k < 512 → readBack p port.sectors b (512 * t + k) = buffer (512 * t + k)

/-- `ext2_write_block` has stored its buffer, and nothing else. -/
structure StoredExactly (p : Partition) (before after : Nat → Mem) (b c : Nat) (buffer : Mem) :
    Prop where
  same : ∀ i, i < p.blockSize → readBack p after b i = buffer i
  other : ∀ i, i < p.blockSize → readBack p after c i = readBack p before c i

theorem view_inside {sectors : Nat → Mem} {b i : Nat} (inside : i < p.blockSize) :
    blockView p sectors b i = sectors (sectorOf p b (i / 512)) (i % 512) := by
  simp [blockView, inside]

theorem written_view (aligned : Aligned p) {b sent : Nat} {buffer : Mem} {before after : Nat → Mem}
    (wrote : Wrote (widen (p.blockSector b)) buffer before after 0 sent)
    {i : Nat} (inside : i < p.blockSize) :
    blockView p after b i = if i < 512 * sent then buffer i else blockView p before b i := by
  have bound := (blockSize_bounds aligned.fits).2
  rw [view_inside inside]
  split
  · rw [sectorOf, wrote.stored (i / 512) (by omega) (by omega) _ (Nat.mod_lt i (by omega)),
      Nat.div_add_mod]
  · rw [view_inside inside, wrote.kept]
    intro t _ high same
    have eq := sectorAt_injective (by omega) (by omega) same
    omega

theorem write_block_stores_iff {b c : Nat} {buffer : Mem} {port : Port} (aligned : Aligned p)
    (nonzeroB : b ≠ 0) (nonzeroC : c ≠ 0) (distinct : b ≠ c)
    (fitsB : b * p.blockSize < 2 ^ 32) (fitsC : c * p.blockSize < 2 ^ 32)
    (_returned : (ext2WriteBlock ata p b buffer port).1 = 1) :
    StoredExactly p port.sectors (ext2WriteBlock ata p b buffer port).2.sectors b c buffer ↔
      AlreadyThere p port b c buffer := by
  have wrote := block_write_sectors aligned nonzeroB buffer port
  have whole := blockSize_sectors aligned.fits
  have asked := sectorsAsked_le aligned
  have le := moved_le port.faults (sectorsAsked p)
  have short : 512 * moved port.faults (sectorsAsked p) ≤ p.blockSize := by omega
  constructor
  · intro exact
    constructor
    · intro i low inside
      have h := exact.same i inside
      rw [readBack_eq aligned nonzeroB, written_view aligned wrote inside,
        if_neg (by omega)] at h
      rw [readBack_eq aligned nonzeroB, h]
    · intro _ t u sent inC same k small
      have h := exact.other (512 * u + k) (by omega)
      have index : (512 * u + k) / 512 = u ∧ (512 * u + k) % 512 = k := by omega
      have index' : (512 * t + k) / 512 = t ∧ (512 * t + k) % 512 = k := by omega
      rw [readBack_eq aligned nonzeroC, readBack_eq aligned nonzeroC, view_inside (by omega),
        view_inside (by omega), index.1, index.2, ← same] at h
      rw [readBack_eq aligned nonzeroB, view_inside (by omega), index'.1, index'.2, ← h]
      exact wrote.stored t (by omega) sent k small
  · intro ready
    constructor
    · intro i inside
      rw [readBack_eq aligned nonzeroB, written_view aligned wrote inside]
      split
      · rfl
      · rw [← readBack_eq aligned nonzeroB]
        exact ready.rest i (by omega) inside
    · intro i inside
      rw [readBack_eq aligned nonzeroC, readBack_eq aligned nonzeroC, view_inside inside,
        view_inside inside]
      by_cases hit : ∃ t, t < moved port.faults (sectorsAsked p) ∧
          sectorOf p c (i / 512) = sectorOf p b t
      · obtain ⟨t, sent, same⟩ := hit
        have long : 512 < p.sector_size := by
          by_contra small
          exact sectors_apart aligned (by omega) distinct.symm fitsC fitsB
            (by omega) (by omega) same
        have index : (512 * t + i % 512) / 512 = t ∧ (512 * t + i % 512) % 512 = i % 512 := by
          omega
        have old := ready.shared long t (i / 512) sent (by omega) same.symm (i % 512) (by omega)
        rw [readBack_eq aligned nonzeroB, view_inside (by omega), index.1, index.2] at old
        rw [same, old]
        exact wrote.stored t (by omega) sent _ (by omega)
      · rw [wrote.kept]
        intro t _ sent same
        exact hit ⟨t, sent, same⟩

def plainPartition (logSize groups blocksPerGroup inodesPerGroup first : Nat) (gd : Mem) :
    Partition where
  lba := 0
  group_number := groups
  sector_size := 512
  bgdt_block := if logSize = 0 then 2 else 1
  sb_block := 2
  backup_bgs := fun _ => 0
  backup_bgs_count := 1
  sb := putLE (putLE (putLE (putLE blank 20 4 first) 24 4 logSize) 32 4 blocksPerGroup)
    40 4 inodesPerGroup
  gd := gd

section Plain
variable {logSize groups blocksPerGroup inodesPerGroup first : Nat} {gd : Mem}

theorem plainPartition_log (fits : logSize ≤ 20) :
    (plainPartition logSize groups blocksPerGroup inodesPerGroup first gd).s_log_block_size =
      logSize := by
  unfold plainPartition Partition.s_log_block_size
  rw [getLE_putLE_apart _ _ (by decide), getLE_putLE_apart _ _ (by decide),
    getLE_putLE _ _ _ _ (by omega)]

theorem plainPartition_aligned (fits : logSize ≤ 20) :
    Aligned (plainPartition logSize groups blocksPerGroup inodesPerGroup first gd) where
  fits := by rw [ShiftFits, plainPartition_log fits]; exact fits
  positive := Nat.zero_lt_succ 511
  divides := by
    rw [blockSize_eq (by rw [ShiftFits, plainPartition_log fits]; exact fits)]
    change _ % 512 = 0
    omega

theorem plainPartition_rev :
    (plainPartition logSize groups blocksPerGroup inodesPerGroup first gd).s_rev_level = 0 := by
  unfold plainPartition Partition.s_rev_level
  rw [getLE_putLE_apart _ _ (by decide), getLE_putLE_apart _ _ (by decide),
    getLE_putLE_apart _ _ (by decide), getLE_putLE_apart _ _ (by decide)]
  decide

end Plain

def halfOnes : Mem := fun i => if i < 512 then 255 else 0

/-- Half a block of ones and half a block of zeros is written over zeros. -/
theorem write_block_stores_same :
    StoredExactly (plainPartition 0 1 8192 1024 1 blank) (fun _ => blank)
      (ext2WriteBlock ata (plainPartition 0 1 8192 1024 1 blank) 1 halfOnes
        ⟨fun _ => blank, []⟩).2.sectors 1 2 halfOnes := by
  refine (@write_block_stores_iff _ 1 2 halfOnes ⟨fun _ => blank, []⟩
    (plainPartition_aligned (by decide))
    (by decide) (by decide) (by decide) (by decide) (by decide) (by decide)).mpr ⟨?_, ?_⟩
  · intro i low inside
    have past : 512 ≤ i := le_trans (by decide) low
    rw [readBack_eq (plainPartition_aligned (by decide)) (by decide), view_inside inside]
    exact (if_neg (Nat.not_lt.mpr past)).symm
  · intro long
    exact absurd long (by decide)

/-- A block of ones written over zeros comes back with zeros from byte 512 on. -/
theorem write_block_loses_tail :
    ¬ ∀ (p : Partition) (b c : Nat) (buffer : Mem) (port : Port), Aligned p → b ≠ 0 → c ≠ 0 →
      b ≠ c → b * p.blockSize < 2 ^ 32 → c * p.blockSize < 2 ^ 32 →
      (ext2WriteBlock ata p b buffer port).1 = 1 →
      StoredExactly p port.sectors (ext2WriteBlock ata p b buffer port).2.sectors b c buffer := by
  intro all
  have stored := all (plainPartition 0 1 8192 1024 1 blank) 1 2 (fun _ => 255)
    ⟨fun _ => blank, []⟩ (plainPartition_aligned (by decide)) (by decide) (by decide) (by decide)
    (by decide) (by decide) (by decide)
  exact absurd (stored.same 512 (by decide)) (by decide)

def reachView (p : Partition) (sectors : Nat → Mem) (b : Nat) : Mem :=
  if InReach p b then blockView p sectors b else blank

theorem reliable_reads (aligned : Aligned p) :
    Reads reliable p (InReach p) (reachView p) where
  fits := aligned.fits
  nonzero := fun reach => reach.1
  tail := by
    intro sectors b i out
    have no : ¬ i < p.blockSize := by omega
    by_cases reach : InReach p b
    · simp [reachView, reach, blockView, no]
    · simp [reachView, reach, blank]
  read := by
    intro b reach dest pos sectors
    have low := (blockSize_bounds aligned.fits).1
    exact ⟨p.blockSize, by omega, by rw [reliable_read aligned, reachView, if_pos reach]⟩

theorem reliable_wrote {count : Nat} (short : count < 2 ^ 31) (sector : Nat) (source : Mem)
    (sectors : Nat → Mem) :
    ∃ sectors', reliable.writeDisk sector count source sectors = (count, sectors') ∧
      Wrote (widen sector) source sectors sectors' 0 ((count + 511) / 512) := by
  have asked : sizeToBlocks count = (count + 511) / 512 := by
    rw [sizeToBlocks, Nat.mod_eq_of_lt (by omega)]
  obtain ⟨done, wrote⟩ := ddDiskWriteFrom_spec (widen count) (widen sector) source ⟨sectors, []⟩ 0
    (sizeToBlocks count) (by omega)
  rw [moved_no_faults, if_pos rfl, widen_small short] at done
  rw [moved_no_faults, Nat.zero_add, widen_small short, asked] at wrote
  refine ⟨_, ?_, wrote⟩
  simp only [reliable, ata, ddDiskWrite, widen_small short, done]
  rw [asked, Nat.mod_eq_of_lt (by omega)]

theorem reliable_write (aligned : Aligned p) (small : p.sector_size ≤ 512) {b count : Nat}
    (reach : InReach p b) (short : count ≤ p.blockSize) (source : Mem) (sectors : Nat → Mem) :
    ∃ sectors', reliable.writeDisk (p.blockSector b) count source sectors = (count, sectors') ∧
      reachView p sectors' = Function.update (reachView p sectors) b
        (memcpy (reachView p sectors b) 0 source (512 * ((count + 511) / 512))) := by
  have bounds := blockSize_bounds aligned.fits
  have whole := blockSize_sectors aligned.fits
  obtain ⟨after, run, wrote⟩ := @reliable_wrote count (by omega) (p.blockSector b) source sectors
  refine ⟨after, run, ?_⟩
  funext c i
  by_cases here : c = b
  · subst here
    rw [Function.update_self, reachView, reachView, if_pos reach, if_pos reach]
    by_cases inside : i < p.blockSize
    · rw [written_view aligned wrote inside]
      simp [memcpy]
    · have late : ¬ i < 512 * ((count + 511) / 512) := by omega
      simp [memcpy, blockView, inside, late]
  · rw [Function.update_of_ne here]
    by_cases other : InReach p c
    · rw [reachView, reachView, if_pos other, if_pos other]
      by_cases inside : i < p.blockSize
      · rw [view_inside inside, view_inside inside, wrote.kept]
        intro t _ sent
        exact sectors_apart aligned small here other.2 reach.2 (by omega) (by omega)
      · simp [blockView, inside]
    · rw [reachView, reachView, if_neg other, if_neg other]

/-- The driver of the repository is a store of blocks that keeps the first
    `512 * sectorsAsked` bytes of each write. -/
theorem reliable_stores (aligned : Aligned p) (small : p.sector_size ≤ 512) :
    Stores reliable p (512 * sectorsAsked p) (InReach p) (reachView p) where
  toReads := reliable_reads aligned
  stored_le := by
    have le := sectorsAsked_le aligned
    have whole := blockSize_sectors aligned.fits
    omega
  write := by
    intro b reach source sectors
    have low := (blockSize_bounds aligned.fits).1
    have mul := blockSectors_mul aligned
    obtain ⟨after, run, view⟩ := reliable_write aligned small reach (blockSectors_le aligned) source
      sectors
    rw [← sectorsAsked_eq aligned] at view
    refine ⟨p.blockSectors, after, ?_, run, view⟩
    intro zero
    rw [zero, Nat.zero_mul] at mul
    omega

theorem reliable_puts (aligned : Aligned p) (small : p.sector_size ≤ 512) :
    Puts reliable p (InReach p) (reachView p) where
  put := by
    intro b reach source sectors
    have bounds := blockSize_bounds aligned.fits
    have whole := blockSize_sectors aligned.fits
    obtain ⟨after, run, view⟩ := reliable_write aligned small reach (Nat.le_refl _) source sectors
    rw [← blockBytes_eq aligned] at run
    have round : 512 * ((p.blockSize + 511) / 512) = p.blockSize := by omega
    rw [round] at view
    exact ⟨p.blockBytes, after, by rw [blockBytes_eq aligned]; omega, run, view⟩

def layout (p : Partition) (blocks : Nat → Mem) : Nat → Mem :=
  fun s k => blocks (s / p.blockSectors) (512 * (s % p.blockSectors) + k)

theorem layout_view (aligned : Aligned p) (start : p.lba = 0) (small : p.sector_size ≤ 512)
    {blocks : Nat → Mem} {b i : Nat} (reach : InReach p b) (low : b * p.blockSectors < 2 ^ 31)
    (inside : i < p.blockSize) : reachView p (layout p blocks) b i = blocks b i := by
  have longer : p.blockSize / 512 ≤ p.blockSectors := by
    rw [blockSectors_eq aligned]
    exact Nat.div_le_div_left small aligned.positive
  have bound := (blockSize_bounds aligned.fits).2
  have whole := blockSize_sectors aligned.fits
  have lba : p.blockSector b = b * p.blockSectors := by
    rw [Partition.blockSector, start, blockLba_eq aligned reach.2, Nat.zero_add,
      Nat.mod_eq_of_lt (by omega)]
  have place : i / 512 < p.blockSectors := by omega
  have sector : sectorOf p b (i / 512) = p.blockSectors * b + i / 512 := by
    rw [sectorOf, lba, widen_small low, sectorAt, Nat.mul_comm]
    rw [Nat.mul_comm] at low
    exact Nat.mod_eq_of_lt (by omega)
  rw [reachView, if_pos reach, view_inside inside, sector, layout, Nat.mul_add_div (by omega),
    Nat.mul_add_mod, Nat.div_eq_of_lt place, Nat.mod_eq_of_lt place, Nat.add_zero,
    Nat.div_add_mod]

/-- Where a sector is one byte, `block_sectors` is a byte count and the driver stores whole
    blocks. -/
theorem byte_stores (aligned : Aligned p) (one : p.sector_size = 1) :
    Stores reliable p p.blockSize (InReach p) (reachView p) := by
  have stores := reliable_stores aligned (by omega)
  have whole := blockSize_sectors aligned.fits
  have sectors := blockSectors_mul aligned
  rw [one, Nat.mul_one] at sectors
  have round : 512 * sectorsAsked p = p.blockSize := by
    rw [sectorsAsked_eq aligned]
    omega
  rwa [round] at stores

/-- The same partition with sectors of one byte: `block_sectors` then is a byte count, and
    the driver stores whole blocks. -/
def bytePartition (logSize groups blocksPerGroup inodesPerGroup first : Nat) (gd : Mem) :
    Partition :=
  { plainPartition logSize groups blocksPerGroup inodesPerGroup first gd with sector_size := 1 }

section Byte
variable {logSize groups blocksPerGroup inodesPerGroup first : Nat} {gd : Mem}

theorem bytePartition_aligned (fits : logSize ≤ 20) :
    Aligned (bytePartition logSize groups blocksPerGroup inodesPerGroup first gd) where
  fits := (@plainPartition_aligned _ groups _ _ _ gd fits).fits
  positive := Nat.zero_lt_one
  divides := Nat.mod_one _

theorem bytePartition_log (fits : logSize ≤ 20) :
    (bytePartition logSize groups blocksPerGroup inodesPerGroup first gd).s_log_block_size =
      logSize :=
  @plainPartition_log _ groups _ _ _ gd fits

theorem bytePartition_rev :
    (bytePartition logSize groups blocksPerGroup inodesPerGroup first gd).s_rev_level = 0 :=
  @plainPartition_rev _ groups _ _ _ gd

theorem bytePartition_sectors (fits : logSize ≤ 20) :
    (bytePartition logSize groups blocksPerGroup inodesPerGroup first gd).blockSectors =
      (bytePartition logSize groups blocksPerGroup inodesPerGroup first gd).blockSize := by
  rw [blockSectors_eq (bytePartition_aligned fits)]
  exact Nat.div_one _

theorem bytePartition_stores (fits : logSize ≤ 20) :
    Stores reliable (bytePartition logSize groups blocksPerGroup inodesPerGroup first gd)
      (bytePartition logSize groups blocksPerGroup inodesPerGroup first gd).blockSize
      (InReach (bytePartition logSize groups blocksPerGroup inodesPerGroup first gd))
      (reachView (bytePartition logSize groups blocksPerGroup inodesPerGroup first gd)) :=
  byte_stores (bytePartition_aligned fits) rfl

end Byte

end OmenExt2
