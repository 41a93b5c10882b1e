import Omen.Ext2.BlockDriver
import Omen.Library.PointerTree

/- Inodes as the bytes of `ext2_inode_descriptor_generic`, their place in the inode
   tables, and the meaning of the fifteen pointers: which disk block holds which block
   of the file. -/
namespace OmenExt2
open ByteMemory OmenDisk PointerTree

variable {σ : Type}

def i_mode (inode : Mem) : Nat := getLE inode 0 2
def i_size (inode : Mem) : Nat := getLE inode 4 4
def i_block (inode : Mem) (k : Nat) : Nat := getLE inode (40 + 4 * k) 4

theorem i_size_bound (inode : Mem) : i_size inode < 2 ^ 32 := by
  have h := getLE_bound inode 4 4
  simpa [i_size] using h

theorem i_block_bound (inode : Mem) (k : Nat) : i_block inode k < 2 ^ 32 := by
  have h := getLE_bound inode (40 + 4 * k) 4
  simpa [i_block] using h

namespace Partition
variable (p : Partition) (inodeNumber : Nat)

def inodeSize : Nat := if p.s_rev_level < 1 then 128 else p.s_inode_size

def inodePlace : Nat := (inodeNumber + 2 ^ 32 - 1) % 2 ^ 32

def inodeGroup : Nat := inodePlace inodeNumber / p.s_inodes_per_group

def inodeIndex : Nat := inodePlace inodeNumber % p.s_inodes_per_group

def inodeBlock : Nat := p.inodeIndex inodeNumber * p.inodeSize % 2 ^ 32 / p.blockSize

def inodeOffset : Nat := p.inodeIndex inodeNumber * p.inodeSize % 2 ^ 32 % p.blockSize

def inodeSector : Nat :=
  (p.lba + p.blockLba (p.bg_inode_table (p.inodeGroup inodeNumber)) +
    p.inodeBlock inodeNumber * p.blockSectors) % 2 ^ 32

end Partition

def ext2ReadInode (dev : Dev σ) (p : Partition) (inodeNumber : Nat) (d : σ) : Option Mem × σ :=
  let (done, buffer, d') := dev.readDisk (p.inodeSector inodeNumber) p.blockBytes blank 0 d
  if done = 0 then (none, d')
  else (some (memcpy blank 0 (advance buffer (p.inodeOffset inodeNumber)) p.inodeSize), d')

def Partition.inodeTableBlock (p : Partition) (inodeNumber : Nat) : Nat :=
  p.bg_inode_table (p.inodeGroup inodeNumber) + p.inodeBlock inodeNumber

theorem inodeSector_eq {p : Partition} (aligned : Aligned p) {inodeNumber : Nat}
    (fits : p.inodeTableBlock inodeNumber * p.blockSize < 2 ^ 32) :
    p.inodeSector inodeNumber = p.blockSector (p.inodeTableBlock inodeNumber) := by
  have table : p.bg_inode_table (p.inodeGroup inodeNumber) * p.blockSize < 2 ^ 32 :=
    Nat.lt_of_le_of_lt (Nat.mul_le_mul_right _ (Nat.le_add_right _ _)) fits
  rw [Partition.inodeSector, Partition.blockSector, blockLba_eq aligned table,
    blockLba_eq aligned fits, Partition.inodeTableBlock, Nat.add_mul, Nat.add_assoc]

theorem ext2ReadInode_valid {dev : Dev σ} {p : Partition} {valid : Nat → Prop}
    {view : σ → Nat → Mem} (reads : Reads dev p valid view) {inodeNumber b : Nat} (ok : valid b)
    (place : p.inodeSector inodeNumber = p.blockSector b) (d : σ) :
    ext2ReadInode dev p inodeNumber d =
      (some (memcpy blank 0 (advance (view d b) (p.inodeOffset inodeNumber)) p.inodeSize), d) := by
  obtain ⟨done, nonzero, run⟩ := reads.read ok blank 0 d
  simp [ext2ReadInode, place, run, nonzero, memcpy_blank (reads.tail d b)]

theorem layout_inode_at {p : Partition} (aligned : Aligned p) (start : p.lba = 0)
    (small : p.sector_size ≤ 512) {inodeNumber table : Nat}
    (block : p.inodeTableBlock inodeNumber = table)
    (whole : p.inodeOffset inodeNumber + p.inodeSize ≤ p.blockSize) (reach : InReach p table)
    (low : table * p.blockSectors < 2 ^ 31) (blocks : Nat → Mem) :
    ext2ReadInode reliable p inodeNumber (layout p blocks) =
      (some (memcpy blank 0 (advance (blocks table) (p.inodeOffset inodeNumber)) p.inodeSize),
        layout p blocks) := by
  have sector := @inodeSector_eq p aligned inodeNumber (by rw [block]; exact reach.2)
  rw [block] at sector
  rw [ext2ReadInode_valid (reliable_reads aligned) reach sector]
  congr 2
  funext i
  simp only [memcpy, advance, Nat.sub_zero, Nat.zero_add, Nat.zero_le, true_and]
  split
  · rw [layout_view aligned start small reach low (by omega)]
  · rfl

theorem layout_inode {p : Partition} (aligned : Aligned p) (start : p.lba = 0)
    (small : p.sector_size ≤ 512) (old : p.s_rev_level = 0) {table : Nat}
    (place : p.bg_inode_table 0 = table) (reach : InReach p table)
    (low : table * p.blockSectors < 2 ^ 31) (blocks : Nat → Mem) :
    ext2ReadInode reliable p 1 (layout p blocks) =
      (some (memcpy blank 0 (blocks table) 128), layout p blocks) := by
  have size := (blockSize_bounds aligned.fits).1
  have first : Partition.inodePlace 1 = 0 := by decide
  have block : p.inodeTableBlock 1 = table := by
    simp [Partition.inodeTableBlock, Partition.inodeGroup, Partition.inodeBlock,
      Partition.inodeIndex, first, place]
  have offset : p.inodeOffset 1 = 0 := by
    simp [Partition.inodeOffset, Partition.inodeIndex, first]
  have length : p.inodeSize = 128 := by
    simp [Partition.inodeSize, old]
  have whole : p.inodeOffset 1 + p.inodeSize ≤ p.blockSize := by omega
  have here : advance (blocks table) 0 = blocks table := by
    funext i
    simp [advance]
  rw [layout_inode_at aligned start small block whole reach low, offset, length, here]

def ext2WriteInode (dev : Dev σ) (p : Partition) (inodeNumber : Nat) (inode : Mem) (d : σ) :
    Nat × σ :=
  let (done, buffer, d1) := dev.readDisk (p.inodeSector inodeNumber) p.blockBytes blank 0 d
  if done = 0 then (1, d1)
  else
    let buffer' := memcpy buffer (p.inodeOffset inodeNumber) inode p.inodeSize
    let (done', d2) := dev.writeDisk (p.inodeSector inodeNumber) p.blockBytes buffer' d1
    if done' = 0 then (1, d2) else (0, d2)

theorem ext2WriteInode_valid {dev : Dev σ} {p : Partition} {valid : Nat → Prop}
    {view : σ → Nat → Mem} (reads : Reads dev p valid view) (puts : Puts dev p valid view)
    {inodeNumber b : Nat} (ok : valid b) (place : p.inodeSector inodeNumber = p.blockSector b)
    (inode : Mem) (d : σ) :
    ∃ d', ext2WriteInode dev p inodeNumber inode d = (0, d') ∧
      view d' = Function.update (view d) b (memcpy (view d b) 0
        (memcpy (view d b) (p.inodeOffset inodeNumber) inode p.inodeSize) p.blockSize) := by
  obtain ⟨done, nonzero, run⟩ := reads.read ok blank 0 d
  rw [memcpy_blank (reads.tail d b)] at run
  obtain ⟨done', d', nonzero', run', after⟩ := puts.put ok
    (memcpy (view d b) (p.inodeOffset inodeNumber) inode p.inodeSize) d
  refine ⟨d', ?_, after⟩
  simp [ext2WriteInode, place, run, nonzero, run', nonzero']

def entries (p : Partition) (buffer : Mem) : List Nat :=
  (List.range p.entriesPerBlock).map (word buffer)

theorem rowSize_entries (p : Partition) (level : Nat) (buffer : Mem) :
    rowSize p.entriesPerBlock level (entries p buffer) = p.entriesPerBlock ^ (level + 1) :=
  @rowSize_children (fun _ => word buffer) _ level 0

/-- A loop over pointers that lowers `*skip` instead of using the pointer drops the first
    `skip` of them. -/
theorem skip_pointers {ρ : Type} {loop : List Nat → Nat → ρ}
    (step : ∀ block rest skip, loop (block :: rest) (skip + 1) = loop rest skip)
    (blocks : List Nat) (skip : Nat) :
    loop blocks skip = loop (blocks.drop skip) (skip - blocks.length) := by
  induction blocks generalizing skip with
  | nil => rw [List.drop_nil, List.length_nil, Nat.sub_zero]
  | cons block rest ih =>
    cases skip with
    | zero => rw [List.drop_zero, Nat.zero_sub]
    | succ skip => rw [step, ih, List.drop_succ_cons, List.length_cons, Nat.add_sub_add_right]

def pointer (view : σ → Nat → Mem) (d : σ) (b k : Nat) : Nat := word (view d b) k

theorem entries_row {p : Partition} (view : σ → Nat → Mem) (d : σ) {level root i : Nat}
    (rest : List Nat) (inside : i < p.entriesPerBlock ^ (level + 1)) :
    rowLeaf (pointer view d) p.entriesPerBlock level (entries p (view d root)) i =
        rowLeaf (pointer view d) p.entriesPerBlock (level + 1) (root :: rest) i ∧
      rowPath (pointer view d) p.entriesPerBlock (level + 1) (root :: rest) i =
        root :: rowPath (pointer view d) p.entriesPerBlock level (entries p (view d root)) i := by
  constructor
  · rw [(row_first inside).1, ← (@row_children _ _ (fun _ => True) _ _ _ inside).1]
    rfl
  · rw [rowPath_first inside, rowPath_children inside]
    rfl

theorem pointer_congr {view : σ → Nat → Mem} {d d' : σ} {b : Nat} (same : view d' b = view d b) :
    pointer view d' b = pointer view d b := by
  funext k
  rw [pointer, pointer, same]

/-- The slot of `i_block`, the number of levels below it and the index there at which the
    format keeps block `i` of a file, with `fanout` pointers in a block. -/
def mapPlace (fanout i : Nat) : Nat × Nat × Nat :=
  if i < 12 then (i, 0, 0)
  else if i < 12 + fanout then (12, 1, i - 12)
  else if i < 12 + fanout + fanout ^ 2 then (13, 2, i - 12 - fanout)
  else (14, 3, i - 12 - fanout - fanout ^ 2)

def mapCapacity (fanout : Nat) : Nat := 12 + fanout + fanout ^ 2 + fanout ^ 3

theorem mapPlace_bounds {fanout i : Nat} (inside : i < mapCapacity fanout) :
    (mapPlace fanout i).1 < 15 ∧
      (mapPlace fanout i).2.2 < fanout ^ (mapPlace fanout i).2.1 ∧
        ((mapPlace fanout i).1 < 14 ↔ i < 12 + fanout + fanout ^ 2) := by
  unfold mapCapacity at inside
  unfold mapPlace
  split
  · simp only [Nat.pow_zero]; omega
  · split
    · simp only [Nat.pow_one]; omega
    · split <;> dsimp only <;> omega

def blockMap (fanout : Nat) (blocks : Nat → Mem) (inode : Mem) (i : Nat) : Nat :=
  let (slot, level, index) := mapPlace fanout i
  leaf (fun b => word (blocks b)) fanout level (i_block inode slot) index

def blockMapPath (fanout : Nat) (blocks : Nat → Mem) (inode : Mem) (i : Nat) : List Nat :=
  let (slot, level, index) := mapPlace fanout i
  path (fun b => word (blocks b)) fanout level (i_block inode slot) index

/-- File block `i` is mapped: it is one the format can address, and every pointer on the
    way to it and the one to the block itself are in `valid`. -/
def FileMapped (fanout : Nat) (valid : Nat → Prop) (blocks : Nat → Mem) (inode : Mem) (i : Nat) :
    Prop :=
  i < mapCapacity fanout ∧ (∀ b ∈ blockMapPath fanout blocks inode i, valid b) ∧
    valid (blockMap fanout blocks inode i)

def inodeForest (inode : Mem) : Forest :=
  [(0, (List.range 12).map (i_block inode)), (1, [i_block inode 12]), (2, [i_block inode 13]),
    (3, [i_block inode 14])]

theorem rowSize_direct (fanout : Nat) (inode : Mem) :
    rowSize fanout 0 ((List.range 12).map (i_block inode)) = 12 := by
  simp [rowSize]

theorem forestSize_inode (fanout : Nat) (inode : Mem) :
    forestSize fanout (inodeForest inode) = mapCapacity fanout := by
  simp [inodeForest, forestSize, rowSize, mapCapacity, Nat.add_assoc]

/-- The block map is the forest of the inode, read leaf by leaf. -/
theorem blockMap_forest {fanout : Nat} {blocks : Nat → Mem} {inode : Mem} {i : Nat}
    (inside : i < mapCapacity fanout) :
    blockMap fanout blocks inode i =
        forestLeaf (fun b => word (blocks b)) fanout (inodeForest inode) i ∧
      blockMapPath fanout blocks inode i =
        forestPath (fun b => word (blocks b)) fanout (inodeForest inode) i := by
  unfold mapCapacity at inside
  unfold inodeForest blockMap blockMapPath mapPlace
  by_cases direct : i < 12
  · have row : i < rowSize fanout 0 ((List.range 12).map (i_block inode)) := by
      rwa [rowSize_direct]
    have pointer : ((List.range 12).map (i_block inode)).getD i 0 = i_block inode i := by
      simp [List.getD, direct]
    rw [if_pos direct, (forest_first row).1, forestPath_first row, (row_leaves _ i).1, pointer]
    exact ⟨rfl, rfl⟩
  · have behind : rowSize fanout 0 ((List.range 12).map (i_block inode)) ≤ i := by
      rw [rowSize_direct]; omega
    rw [if_neg direct, (forest_rest behind).1, forestPath_rest behind, rowSize_direct]
    by_cases single : i < 12 + fanout
    · have tree : i - 12 < fanout ^ 1 := by rw [Nat.pow_one]; omega
      rw [if_pos single, (forest_tree tree).1, (forest_tree tree).2]
      exact ⟨rfl, rfl⟩
    · have behind : rowSize fanout 1 [i_block inode 12] ≤ i - 12 := by
        rw [rowSize_tree, Nat.pow_one]; omega
      rw [if_neg single, (forest_rest behind).1, forestPath_rest behind, rowSize_tree,
        Nat.pow_one]
      by_cases double : i < 12 + fanout + fanout ^ 2
      · have tree : i - 12 - fanout < fanout ^ 2 := by omega
        rw [if_pos double, (forest_tree tree).1, (forest_tree tree).2]
        exact ⟨rfl, rfl⟩
      · have behind : rowSize fanout 2 [i_block inode 13] ≤ i - 12 - fanout := by
          rw [rowSize_tree]; omega
        have tree : i - 12 - fanout - fanout ^ 2 < fanout ^ 3 := by omega
        rw [if_neg double, (forest_rest behind).1, forestPath_rest behind, rowSize_tree,
          (forest_tree tree).1, (forest_tree tree).2]
        exact ⟨rfl, rfl⟩

theorem fileMapped_forest {fanout : Nat} {blocks : Nat → Mem} {inode : Mem} {i : Nat}
    {valid : Nat → Prop} (mapped : FileMapped fanout valid blocks inode i) :
    ForestMapped (fun b => word (blocks b)) fanout valid (inodeForest inode) i := by
  rw [forestMapped_iff (by rw [forestSize_inode]; exact mapped.1),
    ← (blockMap_forest mapped.1).1, ← (blockMap_forest mapped.1).2]
  exact mapped.2

end OmenExt2
