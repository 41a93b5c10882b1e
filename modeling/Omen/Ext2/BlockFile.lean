import Omen.Ext2.ReadInodeBlocks
import Omen.Ext2.WriteInodeBlocks

/- What the byte-level functions expect of the block-level ones: a file is an array of
   blocks. The functions of the repository are such an array for files that use direct
   blocks only. -/
namespace OmenExt2
open ByteMemory OmenDisk PointerTree

variable {σ : Type}

/-- The two block-level functions of one inode. Both take a buffer with a place in it, a
    block count and the number of blocks to skip. -/
structure FileOps (σ : Type) where
  readBlocks : Mem → Nat → Nat → Nat → σ → Nat × Mem × σ
  writeBlocks : Mem → Nat → Nat → Nat → σ → Nat × σ

def inodeOps (dev : Dev σ) (p : Partition) (inodeNumber : Nat) : FileOps σ where
  readBlocks := ext2ReadInodeBlocks dev p inodeNumber
  writeBlocks := ext2WriteInodeBlocks dev p inodeNumber

structure ReadArray (ops : FileOps σ) (good : σ → Prop) (size blocks : Nat)
    (file : σ → Nat → Mem) : Prop where
  read : ∀ {d}, good d → ∀ dest pos count skip, skip + count ≤ blocks →
    ops.readBlocks dest pos count skip d =
      (count, putBlocks size dest pos (fun k => file d (skip + k)) count, d)

structure BlockArray (ops : FileOps σ) (good : σ → Prop) (size blocks : Nat)
    (file : σ → Nat → Mem) : Prop extends ReadArray ops good size blocks file where
  write : ∀ {d}, good d → ∀ source pos count skip, skip + count ≤ blocks →
    ∃ d', good d' ∧ ops.writeBlocks source pos count skip d = (count, d') ∧
      StoredRun size source pos (fun k => skip + k) count (file d) (file d')

def arrayOps (size : Nat) : FileOps (Nat → Mem) where
  readBlocks dest pos count skip file :=
    (count, putBlocks size dest pos (fun k => file (skip + k)) count, file)
  writeBlocks source pos count skip file :=
    (count, fun b => if skip ≤ b ∧ b < skip + count then advance source (pos + (b - skip) * size)
      else file b)

theorem arrayOps_array (size blocks : Nat) :
    BlockArray (arrayOps size) (fun _ => True) size blocks id where
  read := fun _ _ _ _ _ _ => rfl
  write := by
    intro file _ source pos count skip _
    refine ⟨_, trivial, rfl, ?_, ?_⟩
    · intro k j low _
      have inside : skip ≤ skip + k ∧ skip + k < skip + count := by omega
      simp [inside, advance]
    · intro b other
      have outside : ¬ (skip ≤ b ∧ b < skip + count) := by
        rintro ⟨low, high⟩
        exact other (b - skip) (by omega) (by omega)
      simp [outside]

def fileByte (size : Nat) (file : Nat → Mem) (i : Nat) : UInt8 := file (i / size) (i % size)

theorem fileByte_from {size : Nat} (positive : 0 < size) (file : Nat → Mem) (block i : Nat) :
    fileByte size file (block * size + i) = file (block + i / size) (i % size) := by
  rw [fileByte, Nat.mul_comm, Nat.mul_add_div positive, Nat.mul_add_mod]

theorem fileByte_block {size : Nat} (file : Nat → Mem) (block : Nat) {j : Nat} (inside : j < size) :
    fileByte size file (block * size + j) = file block j := by
  rw [fileByte_from (by omega), Nat.div_eq_of_lt inside, Nat.mod_eq_of_lt inside, Nat.add_zero]

theorem ReadArray.block {ops : FileOps σ} {good : σ → Prop} {size blocks : Nat}
    {file : σ → Nat → Mem} (array : ReadArray ops good size blocks file) {d : σ} (start : good d)
    {skip : Nat} (inside : skip < blocks) :
    ops.readBlocks blank 0 1 skip d = (1, memcpy blank 0 (file d skip) size, d) := by
  rw [array.read start blank 0 1 skip (by omega), putBlocks_one, Nat.add_zero]

section Direct
variable {dev : Dev σ} {p : Partition} {valid : Nat → Prop} {view : σ → Nat → Mem}

theorem direct_map {fanout i : Nat} (blocks : Nat → Mem) (inode : Mem) (low : i < 12) :
    blockMap fanout blocks inode i = i_block inode i ∧ blockMapPath fanout blocks inode i = [] := by
  simp [blockMap, blockMapPath, mapPlace, low, leaf, path]

/-- The blocks of such a file; past its end there is nothing. -/
def directFile (view : σ → Nat → Mem) (inode : Mem) (n : Nat) (d : σ) (k : Nat) : Mem :=
  if k < n then view d (i_block inode k) else blank

/-- A file of at most twelve blocks, kept apart from each other and from the block of the
    inode table that holds its inode, is an array of blocks. -/
theorem direct_array (stores : Stores dev p p.blockSize valid view) {inodeNumber table n : Nat}
    {inode : Mem} (few : n ≤ 12) (place : p.inodeSector inodeNumber = p.blockSector table)
    (tableOk : valid table) (ok : ∀ {i}, i < n → valid (i_block inode i))
    (distinct : ∀ {i j}, i < n → j < n → i ≠ j → i_block inode i ≠ i_block inode j)
    (away : ∀ {i}, i < n → table ≠ i_block inode i) :
    BlockArray (inodeOps dev p inodeNumber)
      (fun d => ext2ReadInode dev p inodeNumber d = (some inode, d)) p.blockSize n
      (directFile view inode n) := by
  have sized : 12 ≤ mapCapacity p.entriesPerBlock := by
    unfold mapCapacity
    omega
  constructor
  · constructor
    intro d found dest pos count skip room
    by_cases none : count = 0
    · subst none
      simp [inodeOps, ext2ReadInodeBlocks, putBlocks_none]
    · have off : ¬ SkipsToEdge p.entriesPerBlock skip := by
        intro edge
        have far := edge.1
        omega
      have mapped : ∀ i, i < n → FileMapped p.entriesPerBlock valid (view d) inode i := by
        intro i low
        rw [FileMapped, (direct_map _ _ (by omega)).1, (direct_map _ _ (by omega)).2]
        exact ⟨by omega, fun b member => absurd member List.not_mem_nil, ok low⟩
      have limit : count ≤ ext2ReadFailed := by
        unfold ext2ReadFailed
        omega
      refine (ext2ReadInodeBlocks_map stores.toReads found (by omega) limit room off mapped dest
        pos).trans ?_
      rw [putBlocks_congr]
      intro k low
      rw [(direct_map _ _ (by omega)).1, directFile, if_pos (by omega)]
  · intro d found source pos count skip room
    by_cases none : count = 0
    · subst none
      exact ⟨d, found, rfl, storedRun_none _ _ _ _ _⟩
    · have separate : Separate (blockMap p.entriesPerBlock (view d) inode)
          (blockMapPath p.entriesPerBlock (view d) inode) valid n := by
        constructor
        · intro i low
          rw [(direct_map _ _ (by omega)).1]
          exact ok low
        · intro i low b member
          rw [(direct_map _ _ (by omega)).2] at member
          exact absurd member List.not_mem_nil
        · intro i j low high other
          rw [(direct_map _ _ (by omega)).1, (direct_map _ _ (by omega)).1]
          exact distinct low high other
        · intro i j low high member
          rw [(direct_map _ _ (by omega)).2] at member
          exact absurd member List.not_mem_nil
      have limit : count ≤ ext2WriteFailed := by
        unfold ext2WriteFailed
        omega
      obtain ⟨d', run, stored⟩ := ext2WriteInodeBlocks_near stores found (by omega) limit
        (by omega) room (by omega) separate source pos
      have target := stored.congr (fun k low => (direct_map (view d) inode (by omega)).1)
      refine ⟨d', ?_, run, ?_⟩
      · have same : view d' table = view d table :=
          target.kept table (fun k low => away (by omega))
        have before := ext2ReadInode_valid stores.toReads tableOk place d
        rw [ext2ReadInode_valid stores.toReads tableOk place, same]
        rw [found] at before
        rw [← (Prod.mk.inj before).1]
      · constructor
        · intro k j low inside
          rw [directFile, if_pos (by omega)]
          exact target.stored k j low inside
        · intro b other
          unfold directFile
          split
          · refine target.kept _ (fun k low => distinct (by assumption) (by omega) (other k low))
          · rfl

end Direct

end OmenExt2
