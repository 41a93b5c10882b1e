import Omen.Ext2.InodeAlloc

/- `ext2_delete_inode`. The index of the inode, which numbers bits, is used to address a
   byte of the bitmap. -/
namespace OmenExt2
open ByteMemory Bitmap UnitPool OmenDisk

variable {σ : Type}

def ext2ReadInodeBitmap (dev : Dev σ) (p : Partition) (inodeNumber : Nat) (d : σ) :
    Option Mem × σ :=
  let (done, buffer, d') :=
    dev.readDisk (p.blockSector (p.bg_inode_bitmap (p.inodeGroup inodeNumber)))
    (p.blockSize / p.sector_size * p.sector_size % 2 ^ 32) blank 0 d
  if done = 0 then (none, d') else (some buffer, d')

/-- `ext2_write_inode_bitmap`: 1 for a failure. The count is a number of sectors again. -/
def ext2WriteInodeBitmap (dev : Dev σ) (p : Partition) (inodeNumber : Nat) (bitmap : Mem) (d : σ) :
    Nat × σ :=
  let (done, d') := dev.writeDisk (p.blockSector (p.bg_inode_bitmap (p.inodeGroup inodeNumber)))
    (p.blockSize / p.sector_size) bitmap d
  if done = 0 then (1, d') else (0, d')

def deletedInode (epoch : Nat) (inode : Mem) : Mem :=
  putLE (putLE (putLE (putLE (putLE inode 20 4 epoch) 26 2 0) 4 4 0) 0 2 0) 28 4 0

def ext2DeleteInode (dev : Dev σ) (p : Partition) (epoch inodeNumber : Nat) (fs : Fs σ) :
    Nat × Fs σ :=
  match ext2ReadInode dev p inodeNumber fs.disk with
  | (none, d) => (1, { fs with disk := d })
  | (some inode, d) =>
    let (failed, d1) := ext2WriteInode dev p inodeNumber (deletedInode epoch inode) d
    if failed ≠ 0 then (1, { fs with disk := d1 })
    else
      match ext2ReadInodeBitmap dev p inodeNumber d1 with
      | (none, d2) => (1, { fs with disk := d2 })
      | (some bitmap, d2) =>
        let (failed, d3) := ext2WriteInodeBitmap dev p inodeNumber
          (Function.update bitmap (p.inodeIndex inodeNumber) 0) d2
        if failed ≠ 0 then (1, { fs with disk := d3 })
        else
          let g := p.inodeGroup inodeNumber
          (0, { fs with
            disk := d3
            bg_free_inodes_count := Function.update fs.bg_free_inodes_count g
              ((fs.bg_free_inodes_count g + 1) % 2 ^ 16)
            bg_used_dirs_count := if i_mode inode &&& 0x4000 ≠ 0 then
              Function.update fs.bg_used_dirs_count g
                ((fs.bg_used_dirs_count g + (2 ^ 16 - 1)) % 2 ^ 16)
              else fs.bg_used_dirs_count
            s_free_inodes_count := (fs.s_free_inodes_count + 1) % 2 ^ 32
            flush_required := true })

def InodeNumber (p : Partition) (inodeNumber : Nat) : Prop :=
  1 ≤ inodeNumber ∧ inodeNumber ≤ p.group_number * p.s_inodes_per_group

structure InodeTables (p : Partition) (valid : Nat → Prop) : Prop where
  few : p.group_number * p.s_inodes_per_group < 2 ^ 32
  fits : ∀ n, InodeNumber p n → p.inodeTableBlock n * p.blockSize < 2 ^ 32
  valid : ∀ n, InodeNumber p n → valid (p.inodeTableBlock n)
  apart : ∀ n, InodeNumber p n → ∀ g, g < p.group_number →
    p.bg_inode_bitmap g ≠ p.inodeTableBlock n

/-- The byte of the inode's index has been cleared, if a write keeps it, and the inode has
    been counted as free. -/
structure DeletedInode (p : Partition) (view : σ → Nat → Mem) (stored n : Nat) (fs fs' : Fs σ) :
    Prop where
  bits : ∀ g k, g < p.group_number → groupBits p.bg_inode_bitmap view fs'.disk g k =
    if g = p.inodeGroup n ∧ k / 8 = p.inodeIndex n ∧ p.inodeIndex n < stored then false
    else groupBits p.bg_inode_bitmap view fs.disk g k
  free : fs'.bg_free_inodes_count = Function.update fs.bg_free_inodes_count (p.inodeGroup n)
    ((fs.bg_free_inodes_count (p.inodeGroup n) + 1) % 2 ^ 16)

section Delete
variable {dev : Dev σ} {p : Partition} {valid : Nat → Prop} {view : σ → Nat → Mem} {stored : Nat}

theorem inode_place (tables : InodeTables p valid) {n : Nat} (number : InodeNumber p n) :
    p.inodeGroup n < p.group_number ∧ p.inodeIndex n < p.s_inodes_per_group := by
  obtain ⟨low, high⟩ := number
  have few := tables.few
  have some : 0 < p.s_inodes_per_group := by
    by_contra zero
    rw [Nat.eq_zero_of_not_pos zero, Nat.mul_zero] at high
    omega
  have place : Partition.inodePlace n = n - 1 := by
    unfold Partition.inodePlace
    omega
  rw [Partition.inodeGroup, Partition.inodeIndex, place]
  exact ⟨(Nat.div_lt_iff_lt_mul some).mpr (by omega), Nat.mod_lt _ some⟩

theorem cleared_byte_bits {bitmap : Nat → Nat} {groups g j table : Nat} {d d1 d2 : σ} {m : Mem}
    (bitmaps : OwnBitmaps bitmap groups valid) (group : g < groups)
    (apart : ∀ h, h < groups → bitmap h ≠ table)
    (first : view d1 = Function.update (view d) table m)
    (second : view d2 = if j < stored then
      Function.update (view d1) (bitmap g) (Function.update (view d1 (bitmap g)) j 0) else view d1)
    {h k : Nat} (other : h < groups) :
    groupBits bitmap view d2 h k =
      if h = g ∧ k / 8 = j ∧ j < stored then false else groupBits bitmap view d h k := by
  have same : ∀ h, h < groups → view d1 (bitmap h) = view d (bitmap h) := by
    intro h low
    rw [first, Function.update_of_ne (apart h low)]
  rw [groupBits, groupBits, second]
  by_cases kept : j < stored
  · rw [if_pos kept]
    by_cases here : h = g
    · subst here
      rw [Function.update_self, byte_zero_bits, same h group]
      simp only [true_and, kept, and_true]
    · have away : bitmap h ≠ bitmap g := fun equal => here (bitmaps.distinct h g other group equal)
      rw [Function.update_of_ne away, same h other, if_neg (fun all => here all.1)]
  · rw [if_neg kept, same h other, if_neg (fun all => kept all.2.2)]

theorem ext2DeleteInode_spec (aligned : Aligned p) (stores : Stores dev p stored valid view)
    (puts : Puts dev p valid view)
    (bitmaps : OwnBitmaps p.bg_inode_bitmap p.group_number valid) (tables : InodeTables p valid)
    (epoch : Nat) {n : Nat} (number : InodeNumber p n) (fs : Fs σ) :
    ∃ fs', ext2DeleteInode dev p epoch n fs = (0, fs') ∧ DeletedInode p view stored n fs fs' := by
  obtain ⟨group, _⟩ := inode_place tables number
  have table := tables.valid n number
  have sector := inodeSector_eq aligned (tables.fits n number)
  have ok := bitmaps.valid _ group
  have whole : p.blockSize / p.sector_size * p.sector_size % 2 ^ 32 = p.blockBytes := by
    rw [← blockSectors_eq aligned]
    rfl
  have read := ext2ReadInode_valid stores.toReads table sector fs.disk
  obtain ⟨d1, write, after1⟩ := ext2WriteInode_valid stores.toReads puts table sector
    (deletedInode epoch (memcpy blank 0
      (advance (view fs.disk (p.inodeTableBlock n)) (p.inodeOffset n)) p.inodeSize)) fs.disk
  obtain ⟨done, nonzero, readBitmap⟩ := stores.read ok blank 0 d1
  rw [memcpy_blank (stores.tail d1 _)] at readBitmap
  obtain ⟨done', d2, nonzero', writeBitmap, after2⟩ := stores.write_byte ok (p.inodeIndex n) 0 d1
  rw [blockSectors_eq aligned] at writeBitmap
  have run : ext2DeleteInode dev p epoch n fs = (0, (ext2DeleteInode dev p epoch n fs).2) ∧
      (ext2DeleteInode dev p epoch n fs).2.disk = d2 ∧
      (ext2DeleteInode dev p epoch n fs).2.bg_free_inodes_count =
        Function.update fs.bg_free_inodes_count (p.inodeGroup n)
          ((fs.bg_free_inodes_count (p.inodeGroup n) + 1) % 2 ^ 16) := by
    simp only [ext2DeleteInode, read, write, ext2ReadInodeBitmap, whole, readBitmap, nonzero,
      ↓reduceIte, ext2WriteInodeBitmap, writeBitmap, nonzero', ne_eq, not_true_eq_false, and_self]
  refine ⟨_, run.1, ⟨fun g k other => ?_, run.2.2⟩⟩
  rw [run.2.1]
  exact cleared_byte_bits bitmaps group (tables.apart n number) after1 after2 other

end Delete

def ClearsInode (p : Partition) (view : σ → Nat → Mem) (n : Nat) (d d' : σ) : Prop :=
  ∀ g k, g < p.group_number → groupBits p.bg_inode_bitmap view d' g k =
    if g = p.inodeGroup n ∧ k = p.inodeIndex n then false
    else groupBits p.bg_inode_bitmap view d g k

def FirstAndAlone (p : Partition) (view : σ → Nat → Mem) (n : Nat) (d : σ) : Prop :=
  p.inodeIndex n = 0 ∧
    ∀ k, 1 ≤ k → k < 8 → groupBits p.bg_inode_bitmap view d (p.inodeGroup n) k = false

section Effect
variable {p : Partition} {view : σ → Nat → Mem} {stored n : Nat} {fs fs' : Fs σ}

theorem DeletedInode.clears_iff (deleted : DeletedInode p view stored n fs fs')
    (group : p.inodeGroup n < p.group_number) (positive : 0 < stored)
    (used : inodeBit p view fs.disk n = true) :
    ClearsInode p view n fs.disk fs'.disk ↔ FirstAndAlone p view n fs.disk := by
  constructor
  · intro clears
    have first : p.inodeIndex n = 0 := by
      have bit := clears _ (p.inodeIndex n) group
      rw [if_pos ⟨rfl, rfl⟩, deleted.bits _ _ group] at bit
      split at bit
      · rename_i hit
        omega
      · rw [show groupBits _ _ _ _ _ = true from used] at bit
        cases bit
    refine ⟨first, fun k low high => ?_⟩
    have bit := clears _ k group
    rw [if_neg (by omega), deleted.bits _ _ group, if_pos ⟨rfl, by omega, by omega⟩] at bit
    exact bit.symm
  · rintro ⟨first, alone⟩ g k other
    rw [deleted.bits g k other, first]
    by_cases here : g = p.inodeGroup n
    · subst here
      by_cases byte : k / 8 = 0
      · rw [if_pos ⟨rfl, byte, positive⟩]
        split
        · rfl
        · exact (alone k (by omega) (by omega)).symm
      · rw [if_neg (fun all => byte all.2.1), if_neg (by omega)]
    · rw [if_neg (fun all => here all.1), if_neg (fun all => here all.1)]

theorem DeletedInode.counts (deleted : DeletedInode p view stored n fs fs')
    (group : p.inodeGroup n < p.group_number) (inside : p.inodeIndex n < p.s_inodes_per_group)
    (narrow : p.s_inodes_per_group < 2 ^ 16) (used : inodeBit p view fs.disk n = true)
    (clears : ClearsInode p view n fs.disk fs'.disk) (state : InodeCounts p view fs) :
    InodeCounts p view fs' := by
  have bits : (fun g : Fin p.group_number => groupBits p.bg_inode_bitmap view fs'.disk g) =
      Function.update (fun g : Fin p.group_number => groupBits p.bg_inode_bitmap view fs.disk g)
        ⟨p.inodeGroup n, group⟩ (Function.update
          (groupBits p.bg_inode_bitmap view fs.disk (p.inodeGroup n)) (p.inodeIndex n) false) := by
    rw [← update_group group]
    funext g k
    rw [clears g k g.isLt]
    by_cases same : (g : Nat) = p.inodeGroup n
    · by_cases here : k = p.inodeIndex n <;> simp [same, here]
    · simp [same]
  have after := state.counts.give (g := ⟨p.inodeGroup n, group⟩) inside used
  have low : fs.bg_free_inodes_count (p.inodeGroup n) + 1 ≤ p.s_inodes_per_group := by
    have le := after.free_le ⟨p.inodeGroup n, group⟩
    dsimp only [Units.give] at le
    rwa [Function.update_self] at le
  have count : (fs.bg_free_inodes_count (p.inodeGroup n) + 1) % 2 ^ 16 =
      fs.bg_free_inodes_count (p.inodeGroup n) + 1 := by omega
  constructor
  · have same : inodeUnits p view fs' =
        (inodeUnits p view fs).give ⟨p.inodeGroup n, group⟩ (p.inodeIndex n) := by
      simp only [inodeUnits, Units.give, bits, deleted.free, count, update_group group]
    rwa [same]
  · intro g low
    rw [deleted.free]
    by_cases same : g = p.inodeGroup n
    · rw [same, Function.update_self]
      exact Nat.mod_lt _ (by decide)
    · rw [Function.update_of_ne same]
      exact state.narrow g low

end Effect

inductive InodeOp
  | allocate
  | delete (epoch inodeNumber : Nat)

namespace InodeOp

def run (dev : Dev σ) (p : Partition) (fs : Fs σ) : InodeOp → Fs σ
  | allocate => (ext2AllocateInode dev p fs).2
  | delete epoch inodeNumber => (ext2DeleteInode dev p epoch inodeNumber fs).2

/-- An allocation finds a clear bit that a write keeps; a deletion is one of an inode in use
    that clears exactly its bit. -/
def Safe (p : Partition) (view : σ → Nat → Mem) (stored : Nat) (fs : Fs σ) : InodeOp → Prop
  | allocate => ∀ g, g < p.group_number → (∀ h, h < g → fs.bg_free_inodes_count h = 0) →
      fs.bg_free_inodes_count g ≠ 0 →
      ∃ i, i < 8 * stored ∧ groupBits p.bg_inode_bitmap view fs.disk g i = false
  | delete _ n => InodeNumber p n ∧ inodeBit p view fs.disk n = true ∧
      FirstAndAlone p view n fs.disk

def SafeRun (dev : Dev σ) (p : Partition) (view : σ → Nat → Mem) (stored : Nat) :
    List InodeOp → Fs σ → Prop
  | [], _ => True
  | op :: ops, fs => op.Safe p view stored fs ∧ SafeRun dev p view stored ops (op.run dev p fs)

end InodeOp

section Runs
variable {dev : Dev σ} {p : Partition} {valid : Nat → Prop} {view : σ → Nat → Mem} {stored : Nat}
  {fs : Fs σ}
  (aligned : Aligned p) (stores : Stores dev p stored valid view)
  (puts : Puts dev p valid view) (bitmaps : OwnBitmaps p.bg_inode_bitmap p.group_number valid)
  (tables : InodeTables p valid) (capacity : p.s_inodes_per_group ≤ 8 * p.blockSize)
  (positive : 0 < stored) (narrow : p.s_inodes_per_group < 2 ^ 16)
include aligned stores puts bitmaps tables capacity positive narrow

theorem InodeOp.Safe.counts {op : InodeOp} (safe : op.Safe p view stored fs)
    (state : InodeCounts p view fs) : InodeCounts p view (op.run dev p fs) := by
  cases op with
  | allocate =>
    rcases ext2AllocateInode_cases stores bitmaps capacity state with
      ⟨run, _⟩ | ⟨g, i, fs', run, taken⟩
    · rw [InodeOp.run, run]
      exact state
    · rw [InodeOp.run, run]
      obtain ⟨k, kept, clear⟩ := safe g taken.group taken.before taken.some
      refine taken.counts bitmaps state ?_
      by_contra past
      have used := taken.first k (by omega)
      rw [clear] at used
      cases used
  | delete epoch n =>
    obtain ⟨number, used, alone⟩ := safe
    obtain ⟨group, inside⟩ := inode_place tables number
    obtain ⟨fs', run, deleted⟩ := ext2DeleteInode_spec aligned stores puts bitmaps tables epoch
      number fs
    rw [InodeOp.run, run]
    exact deleted.counts group inside narrow used
      ((deleted.clears_iff group positive used).mpr alone) state

theorem safeRun_counts {ops : List InodeOp} (safe : InodeOp.SafeRun dev p view stored ops fs)
    (state : InodeCounts p view fs) : InodeCounts p view (ops.foldl (InodeOp.run dev p) fs) := by
  induction ops generalizing fs with
  | nil => exact state
  | cons op ops ih =>
    exact ih safe.2
      (safe.1.counts aligned stores puts bitmaps tables capacity positive narrow state)

end Runs

theorem delete_inode_iff {dev : Dev σ} {p : Partition} {valid : Nat → Prop}
    {view : σ → Nat → Mem} {stored : Nat} (aligned : Aligned p)
    (stores : Stores dev p stored valid view) (puts : Puts dev p valid view)
    (bitmaps : OwnBitmaps p.bg_inode_bitmap p.group_number valid) (tables : InodeTables p valid)
    (capacity : p.s_inodes_per_group ≤ 8 * p.blockSize) (positive : 0 < stored) :
    (∀ epoch n fs fs', InodeNumber p n → inodeBit p view fs.disk n = true →
      ext2DeleteInode dev p epoch n fs = (0, fs') →
      (ClearsInode p view n fs.disk fs'.disk ↔ FirstAndAlone p view n fs.disk)) ∧
    (p.s_inodes_per_group < 2 ^ 16 → ∀ ops fs, InodeCounts p view fs →
      InodeOp.SafeRun dev p view stored ops fs →
      InodeCounts p view (ops.foldl (InodeOp.run dev p) fs)) := by
  constructor
  · intro epoch n fs fs' number used run
    obtain ⟨fs1, same, deleted⟩ := ext2DeleteInode_spec aligned stores puts bitmaps tables epoch
      number fs
    obtain rfl : fs1 = fs' := (Prod.mk.inj (same.symm.trans run)).2
    exact deleted.clears_iff (inode_place tables number).1 positive used
  · intro narrow ops fs state safe
    exact safeRun_counts aligned stores puts bitmaps tables capacity positive narrow safe state

theorem two_tables : InodeTables twoGroups (InReach twoGroups) := by
  have all : ∀ n, n < 17 → 1 ≤ n → InReach twoGroups (twoGroups.inodeTableBlock n) ∧
      ∀ g, g < 2 → twoGroups.bg_inode_bitmap g ≠ twoGroups.inodeTableBlock n := by decide
  refine ⟨by decide, ?_, ?_, ?_⟩
  · exact fun n number => (all n (Nat.lt_succ_of_le number.2) number.1).1.2
  · exact fun n number => (all n (Nat.lt_succ_of_le number.2) number.1).1
  · exact fun n number => (all n (Nat.lt_succ_of_le number.2) number.1).2

/-- Inode 1, the only one in use, is deleted and allocated again. -/
theorem delete_inode_first :
    ClearsInode twoGroups (reachView twoGroups) 1 (twoState 0x01 0xFF).disk
        (ext2DeleteInode reliable twoGroups 0 1 (twoState 0x01 0xFF)).2.disk ∧
      InodeCounts twoGroups (reachView twoGroups)
        ([InodeOp.delete 0 1, InodeOp.allocate].foldl (InodeOp.run reliable twoGroups)
          (twoState 0x01 0xFF)) := by
  obtain ⟨clears, counts⟩ := delete_inode_iff two_aligned
    (reliable_stores two_aligned (by decide)) (reliable_puts two_aligned (by decide)) two_bitmaps
    two_tables (by decide) (by decide)
  have bits : ∀ k, k < 8 → 1 ≤ k → groupBits twoGroups.bg_inode_bitmap (reachView twoGroups)
      (twoState 0x01 0xFF).disk (twoGroups.inodeGroup 1) k = false := by decide
  have alone : FirstAndAlone twoGroups (reachView twoGroups) 1 (twoState 0x01 0xFF).disk :=
    ⟨by decide, fun k low high => bits k high low⟩
  have number : InodeNumber twoGroups 1 := ⟨by decide, by decide⟩
  have free : ((ext2DeleteInode reliable twoGroups 0 1
      (twoState 0x01 0xFF)).2.bg_free_inodes_count 0) ≠ 0 := by decide
  have clear : groupBits twoGroups.bg_inode_bitmap (reachView twoGroups)
      (ext2DeleteInode reliable twoGroups 0 1 (twoState 0x01 0xFF)).2.disk 0 0 = false := by decide
  have run := clears 0 1 (twoState 0x01 0xFF) _ number (by decide) (Prod.ext (by decide) rfl)
  refine ⟨run.mpr alone,
    counts (by decide) _ _ (two_counts 0x01 0xFF) ⟨⟨number, by decide, alone⟩, ?_, trivial⟩⟩
  intro g _ before _
  cases g with
  | zero => exact ⟨0, by decide, clear⟩
  | succ g => exact absurd (before 0 (Nat.succ_pos g)) free

/-- Deleting inode 2 clears the bits 8 to 15 of the bitmap and not bit 1. -/
theorem delete_inode_misses :
    ¬ ∀ (σ : Type) (dev : Dev σ) (p : Partition) (valid : Nat → Prop) (view : σ → Nat → Mem)
      (stored : Nat), Aligned p → Stores dev p stored valid view → Puts dev p valid view →
      OwnBitmaps p.bg_inode_bitmap p.group_number valid → InodeTables p valid →
      p.s_inodes_per_group ≤ 8 * p.blockSize → 0 < stored →
      ∀ epoch n fs fs', InodeNumber p n → inodeBit p view fs.disk n = true →
        ext2DeleteInode dev p epoch n fs = (0, fs') → ClearsInode p view n fs.disk fs'.disk := by
  intro all
  have clears := all _ _ _ _ _ _ two_aligned (reliable_stores two_aligned (by decide))
    (reliable_puts two_aligned (by decide)) two_bitmaps two_tables (by decide) (by decide) 0 2
    (twoState 0x03 0xFF) _ ⟨by decide, by decide⟩ (by decide) (Prod.ext (by decide) rfl)
  exact absurd (clears 0 1 (by decide)) (by decide)

end OmenExt2
