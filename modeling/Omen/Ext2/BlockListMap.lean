import Omen.Ext2.BlockList
import Omen.Library.FilledTree

/- `ext2_load_block_list` against the block map: of a file without holes the list is the map,
   block by block, as long as the number of blocks is rounded up inside 32 bits. -/
namespace OmenExt2
open ByteMemory OmenDisk PointerTree

variable {σ : Type} {dev : Dev σ} {p : Partition} {valid : Nat → Prop} {view : σ → Nat → Mem}

def Numbered (block : Nat) : Prop := endsList block = false

instance (block : Nat) : Decidable (Numbered block) := inferInstanceAs (Decidable (_ = _))

abbrev TreeFilled (p : Partition) (valid : Nat → Prop) (view : σ → Nat → Mem) (d : σ) :
    Nat → Nat → Nat → Prop :=
  Filled (pointer view d) p.entriesPerBlock (fun b => valid b ∧ Numbered b) Numbered

/-- A file without holes: its trees hold exactly as many blocks as its size asks for, in
    order, and all pointers behind the last block are 0. -/
def FileFilled (p : Partition) (valid : Nat → Prop) (view : σ → Nat → Mem) (d : σ)
    (inode : Mem) : Prop :=
  ForestFilled (pointer view d) p.entriesPerBlock (fun b => valid b ∧ Numbered b) Numbered
    (inodeForest inode) (sizeBlocks p (i_size inode))

def ListsTree (p : Partition) (valid : Nat → Prop) (view : σ → Nat → Mem) (level : Nat)
    (load : ListLoader σ) : Prop :=
  ∀ root d count, 0 < count → TreeFilled p valid view d level root count →
    load root d = (some ((List.range count).map
      (leaf (pointer view d) p.entriesPerBlock level root)), d)

def ListsRow (p : Partition) (valid : Nat → Prop) (view : σ → Nat → Mem) (level : Nat)
    (load : List Nat → σ → Option (List Nat) × σ) : Prop :=
  ∀ roots d count,
    RowFilled (TreeFilled p valid view d level) (p.entriesPerBlock ^ level) roots count →
      load roots d = (some ((List.range count).map
        (rowLeaf (pointer view d) p.entriesPerBlock level roots)), d)

theorem filled_root {d : σ} {level root count : Nat} (some : 0 < count)
    (filled : TreeFilled p valid view d level root count) : endsList root = false := by
  obtain ⟨count, rfl⟩ := Nat.exists_eq_succ_of_ne_zero (Nat.pos_iff_ne_zero.mp some)
  cases level with
  | zero => exact filled.2
  | succ level => exact filled.1.2

theorem loadLists_row (fits : ShiftFits p) {level : Nat} {below : ListLoader σ}
    (lists : ListsTree p valid view level below) :
    ListsRow p valid view level (loadLists below) := by
  have positive := entries_positive fits
  have size : 0 < p.entriesPerBlock ^ level := Nat.pow_pos positive
  intro roots d
  induction roots with
  | nil =>
    intro count filled
    have none : count = 0 := filled
    simp [loadLists, none]
  | cons root rest ih =>
    intro count filled
    cases count with
    | zero =>
      have none : root = 0 := by
        have first := filled.1
        rw [Nat.zero_min] at first
        cases level <;> exact first
      simp [loadLists, endsList, none]
    | succ count =>
      have some : 0 < min (count + 1) (p.entriesPerBlock ^ level) := by omega
      simp only [loadLists, filled_root some filled.1, Bool.false_eq_true, if_false,
        lists root d _ some filled.1, ih _ filled.2, Option.map_some, row_split positive]

theorem loadBlock_tree (reads : Reads dev p valid view) {level : Nat}
    {load : List Nat → σ → Option (List Nat) × σ} (lists : ListsRow p valid view level load) :
    ListsTree p valid view (level + 1) (loadBlock dev p load) := by
  intro root d count some filled
  have short := filled.le
  obtain ⟨count, rfl⟩ := Nat.exists_eq_succ_of_ne_zero (Nat.pos_iff_ne_zero.mp some)
  simp only [loadBlock, ext2ReadBlock_buffer reads filled.1.1]
  rw [if_neg (by decide), lists (entries p (view d root)) d _ filled.2]
  congr 2
  apply List.map_congr_left
  intro i member
  have inside := List.mem_range.mp member
  exact (@row_children _ _ valid _ _ _ (by omega)).1

theorem single_tree (p : Partition) (valid : Nat → Prop) (view : σ → Nat → Mem) :
    ListsTree p valid view 0 (fun block d => (some [block], d)) := by
  intro root d count some filled
  have one := filled.le
  obtain rfl : count = 1 := by rw [Nat.pow_zero] at one; omega
  rfl

section Loaders
variable (reads : Reads dev p valid view)
include reads

theorem ext2LoadIndirectBlockList_tree :
    ListsTree p valid view 1 (ext2LoadIndirectBlockList dev p) := by
  have single : loadLists (fun block (d : σ) => (some [block], d)) =
      fun pointers d => (some (pointers.takeWhile (! endsList ·)), d) := by
    funext roots d
    exact loadLists_single roots d
  have lists := loadBlock_tree reads (loadLists_row reads.fits (single_tree p valid view))
  rwa [single] at lists

theorem ext2LoadDoubleIndirectBlockList_tree :
    ListsTree p valid view 2 (ext2LoadDoubleIndirectBlockList dev p) :=
  loadBlock_tree reads (loadLists_row reads.fits (ext2LoadIndirectBlockList_tree reads))

theorem ext2LoadTripleIndirectBlockList_tree :
    ListsTree p valid view 3 (ext2LoadTripleIndirectBlockList dev p) :=
  loadBlock_tree reads (loadLists_row reads.fits (ext2LoadDoubleIndirectBlockList_tree reads))

end Loaders

inductive ListsTrees (p : Partition) (valid : Nat → Prop) (view : σ → Nat → Mem) :
    List (ListLoader σ × Nat) → Forest → Prop
  | nil : ListsTrees p valid view [] []
  | cons {level root : Nat} {load : ListLoader σ} {rest : List (ListLoader σ × Nat)}
      {rows : Forest} (lists : ListsTree p valid view level load)
      (others : ListsTrees p valid view rest rows) :
      ListsTrees p valid view ((load, root) :: rest) ((level, [root]) :: rows)

theorem loadSlots_trees {slots : List (ListLoader σ × Nat)} {rows : Forest}
    (fits : ShiftFits p) (all : ListsTrees p valid view slots rows) {number : Nat}
    {found : List Nat} {d : σ}
    (filled : ForestFilled (pointer view d) p.entriesPerBlock (fun b => valid b ∧ Numbered b)
      Numbered rows (number - found.length)) :
    loadSlots number slots found d = (some (found ++ (List.range (number - found.length)).map
      (forestLeaf (pointer view d) p.entriesPerBlock rows)), d) := by
  have positive := entries_positive fits
  induction all generalizing found with
  | nil =>
    have none : number - found.length = 0 := filled
    simp [loadSlots, none]
  | @cons level root load rest rows lists others ih =>
    obtain ⟨tree, behind⟩ := filled
    rw [rowSize_tree] at tree behind
    rw [loadSlots]
    by_cases short : found.length < number
    · have size : 0 < p.entriesPerBlock ^ level := Nat.pow_pos positive
      have held := tree.1
      rw [Nat.min_assoc, Nat.min_self] at held
      have left : number - (found ++ (List.range (min (number - found.length)
          (p.entriesPerBlock ^ level))).map (leaf (pointer view d) p.entriesPerBlock level
            root)).length = number - found.length - p.entriesPerBlock ^ level := by
        rw [List.length_append, List.length_map, List.length_range]
        omega
      rw [if_pos short, lists root d _ (by omega) held]
      simp only
      rw [ih (by rw [left]; exact behind), left, forest_split, rowSize_tree, row_split positive,
        Nat.min_assoc, Nat.min_self, List.append_assoc]
      congr 4
      have none : min (number - found.length) (p.entriesPerBlock ^ level) -
          p.entriesPerBlock ^ level = 0 := by omega
      rw [none, List.range_zero, List.map_nil, List.append_nil]
    · have none : number - found.length = 0 := by omega
      rw [if_neg short, ih (by rw [none, Nat.zero_sub] at behind; rw [none]; exact behind), none,
        List.range_zero, List.map_nil, List.map_nil]

theorem directList_filled {d : σ} {inode : Mem} {number : Nat}
    (filled : ForestFilled (pointer view d) p.entriesPerBlock (fun b => valid b ∧ Numbered b)
      Numbered (inodeForest inode) number) :
    directList inode number = (List.range (min number 12)).map
      (rowLeaf (pointer view d) p.entriesPerBlock 0 ((List.range 12).map (i_block inode))) := by
  have row := filled.1
  rw [rowSize_direct, Nat.pow_zero] at row
  have slot : ∀ k, k < 12 → ((List.range 12).map (i_block inode)).getD k 0 = i_block inode k := by
    intro k inside
    simp [List.getD, inside]
  rw [directList_starts, ← List.map_take, List.take_range]
  · apply List.map_congr_left
    intro k member
    have inside := List.mem_range.mp member
    rw [(row_leaves _ k).1, slot k (by omega)]
  · intro k low inside zero
    have usable := row.leaf_used (k := k) (by omega)
    rw [slot k low, zero] at usable
    exact absurd usable (by decide)

theorem loadSlots_filled (reads : Reads dev p valid view) {d : σ} {inode : Mem} {number : Nat}
    (filled : ForestFilled (pointer view d) p.entriesPerBlock (fun b => valid b ∧ Numbered b)
      Numbered (inodeForest inode) number) :
    loadSlots number (listLoaders dev p inode) (directList inode number) d =
      (some ((List.range number).map (forestLeaf (pointer view d) p.entriesPerBlock
        (inodeForest inode))), d) := by
  have slots : ListsTrees p valid view (listLoaders dev p inode) (inodeForest inode).tail :=
    .cons (ext2LoadIndirectBlockList_tree reads)
      (.cons (ext2LoadDoubleIndirectBlockList_tree reads)
        (.cons (ext2LoadTripleIndirectBlockList_tree reads) .nil))
  have direct := directList_filled filled
  have rest : number - (directList inode number).length = number - 12 := by
    rw [direct, List.length_map, List.length_range]
    omega
  have behind := filled.2
  rw [rowSize_direct, ← rest] at behind
  rw [loadSlots_trees reads.fits slots behind, rest, direct, inodeForest, forest_split,
    rowSize_direct]
  rfl

theorem blockNumber_eq_iff (fits : ShiftFits p) (inode : Mem) :
    blockNumber p inode = sizeBlocks p (i_size inode) ↔
      i_size inode % p.blockSize = 0 ∨ i_size inode + p.blockSize - 1 < 2 ^ 32 := by
  have bounds := blockSize_bounds fits
  have size := i_size_bound inode
  unfold blockNumber divideRoundedUp sizeBlocks
  by_cases whole : i_size inode % p.blockSize = 0
  · rw [if_neg (by omega)]
    apply iff_of_true _ (Or.inl whole)
    obtain ⟨k, multiple⟩ := Nat.dvd_of_mod_eq_zero whole
    have below : (p.blockSize - 1) / p.blockSize = 0 := Nat.div_eq_of_lt (by omega)
    rw [multiple, Nat.add_sub_assoc (by omega), Nat.mul_add_div (by omega), below, Nat.add_zero,
      Nat.mul_div_cancel_left _ (by omega)]
  · rw [if_pos whole]
    by_cases inside : i_size inode + p.blockSize - 1 < 2 ^ 32
    · rw [Nat.mod_eq_of_lt inside]
      exact iff_of_true rfl (Or.inr inside)
    · apply iff_of_false _ (by omega)
      have some : 0 < i_size inode := by
        apply Nat.pos_of_ne_zero
        intro zero
        rw [zero, Nat.zero_mod] at whole
        exact whole rfl
      have wrapped : (i_size inode + p.blockSize - 1) % 2 ^ 32 < p.blockSize := by omega
      rw [Nat.div_eq_of_lt wrapped]
      have positive : 0 < (i_size inode + p.blockSize - 1) / p.blockSize :=
        Nat.div_pos (by omega) (by omega)
      omega

/-- The list of a call is the map of the file, block by block, and no more has been stored in
    its buffer. -/
structure ListedAsMap (dev : Dev σ) (p : Partition) (view : σ → Nat → Mem) (inodeNumber : Nat)
    (inode : Mem) (d : σ) : Prop where
  returned : (ext2LoadBlockList dev p inodeNumber d).1 =
    some ((List.range (sizeBlocks p (i_size inode))).map
      (blockMap p.entriesPerBlock (view d) inode))
  stored : ∀ blocks, (loadSlots (blockNumber p inode) (listLoaders dev p inode)
    (directList inode (blockNumber p inode)) d).1 = some blocks →
      blocks.length ≤ sizeBlocks p (i_size inode)

theorem ListedAsMap.number {inodeNumber : Nat} {inode : Mem} {d : σ}
    (listed : ListedAsMap dev p view inodeNumber inode d)
    (found : ext2ReadInode dev p inodeNumber d = (some inode, d)) :
    blockNumber p inode = sizeBlocks p (i_size inode) := by
  have result := listed.returned
  simp only [ext2LoadBlockList, found] at result
  split at result
  · cases result
  · split at result
    · rename_i counted
      cases result
      simpa using counted.symm
    · cases result

/-- The block list is the block map, except that the number of blocks is rounded up in 32
    bits: for a file that ends in the last block they can count, an empty list is returned. -/
theorem block_list_is_map_iff (reads : Reads dev p valid view) {inodeNumber : Nat} {inode : Mem}
    {d : σ} (found : ext2ReadInode dev p inodeNumber d = (some inode, d))
    (filled : FileFilled p valid view d inode) :
    ListedAsMap dev p view inodeNumber inode d ↔
      i_size inode % p.blockSize = 0 ∨ i_size inode + p.blockSize - 1 < 2 ^ 32 := by
  rw [← blockNumber_eq_iff reads.fits]
  constructor
  · intro listed
    exact listed.number found
  · intro exact_number
    have loaded := loadSlots_filled reads filled
    have short := filled.le
    rw [forestSize_inode] at short
    constructor
    · simp only [ext2LoadBlockList, found, exact_number, loaded, List.length_map,
        List.length_range, if_true]
      apply congrArg some
      apply List.map_congr_left
      intro i member
      have inside := List.mem_range.mp member
      exact (blockMap_forest (by omega)).1.symm
    · intro blocks run
      rw [exact_number, loaded] at run
      cases run
      simp

theorem fileFilled_direct {d : σ} {inode : Mem} {count : Nat} (few : count ≤ 12)
    (sized : sizeBlocks p (i_size inode) = count)
    (used : ∀ k, k < count → Numbered (i_block inode k))
    (rest : ∀ k, count ≤ k → k < 15 → i_block inode k = 0) : FileFilled p valid view d inode := by
  have slot : ∀ k, k < 12 → ((List.range 12).map (i_block inode)).getD k 0 = i_block inode k := by
    intro k inside
    simp [List.getD, inside]
  have trees : count - 12 = 0 := by omega
  rw [FileFilled, sized, inodeForest]
  refine ⟨?_, ?_⟩
  · rw [rowSize_direct, Nat.pow_zero, Nat.min_eq_left few]
    apply rowFilled_leaves
    · simpa using few
    · intro k low
      rw [slot k (by omega)]
      exact used k low
    · intro k low inside
      rw [List.length_map, List.length_range] at inside
      rw [slot k inside]
      exact rest k low (by omega)
  · rw [rowSize_direct, trees, rest 12 few (by decide), rest 13 (by omega) (by decide),
      rest 14 (by omega) (by decide)]
    simp [ForestFilled, RowFilled, filled_empty]

def widePartition : Partition := bytePartition 20 1 8192 1024 0 (putLE blank 8 4 1)

def wideInode (size count : Nat) : Mem :=
  (List.range count).foldl (fun inode k => putLE inode (40 + 4 * k) 4 (4 + k))
    (putLE blank 4 4 size)

def wideDisk (size count : Nat) : Nat → Mem := layout widePartition fun _ => wideInode size count

theorem wide_aligned : Aligned widePartition := bytePartition_aligned (by decide)

theorem wide_size : widePartition.blockSize = 2 ^ 30 := by
  have log : widePartition.s_log_block_size = 20 := bytePartition_log (by decide)
  rw [blockSize_eq wide_aligned.fits, log]
  decide

theorem wide_inode (size count : Nat) :
    ext2ReadInode reliable widePartition 1 (wideDisk size count) =
      (some (memcpy blank 0 (wideInode size count) 128), wideDisk size count) := by
  have sectors : widePartition.blockSectors = 2 ^ 30 :=
    (bytePartition_sectors (by decide)).trans wide_size
  exact layout_inode wide_aligned rfl (by decide) bytePartition_rev
    (getLE_putLE blank 8 4 1 (by decide)) (by rw [InReach, wide_size]; decide)
    (by rw [sectors]; decide) _

theorem wide_filled {size count : Nat} (few : count ≤ 12)
    (sized : sizeBlocks widePartition (i_size (memcpy blank 0 (wideInode size count) 128)) = count)
    (blocks : ∀ k, k < 15 → i_block (memcpy blank 0 (wideInode size count) 128) k =
      if k < count then 4 + k else 0) :
    FileFilled widePartition (InReach widePartition) (reachView widePartition)
      (wideDisk size count) (memcpy blank 0 (wideInode size count) 128) := by
  apply fileFilled_direct few sized
  · intro k low
    rw [blocks k (by omega), if_pos low]
    have other : 4 + k ≠ inodeBlockEnd := by unfold inodeBlockEnd; omega
    simp [Numbered, endsList, other]
  · intro k low inside
    rw [blocks k inside, if_neg (by omega)]

theorem wide_three : i_size (memcpy blank 0 (wideInode (3 * 2 ^ 30) 3) 128) = 3 * 2 ^ 30 ∧
    FileFilled widePartition (InReach widePartition) (reachView widePartition)
      (wideDisk (3 * 2 ^ 30) 3) (memcpy blank 0 (wideInode (3 * 2 ^ 30) 3) 128) := by
  have size : i_size (memcpy blank 0 (wideInode (3 * 2 ^ 30) 3) 128) = 3 * 2 ^ 30 := by
    decide +kernel
  refine ⟨size, wide_filled (by decide) ?_ (by decide +kernel)⟩
  rw [sizeBlocks, size, wide_size]
  decide

theorem block_list_three : ListedAsMap reliable widePartition (reachView widePartition) 1
    (memcpy blank 0 (wideInode (3 * 2 ^ 30) 3) 128) (wideDisk (3 * 2 ^ 30) 3) := by
  have whole : i_size (memcpy blank 0 (wideInode (3 * 2 ^ 30) 3) 128) %
      widePartition.blockSize = 0 := by
    rw [wide_three.1, wide_size]
    decide
  exact (block_list_is_map_iff (reliable_reads wide_aligned) (wide_inode (3 * 2 ^ 30) 3)
    wide_three.2).mpr (Or.inl whole)

/-- The file ends one byte before 4 GiB, in its fourth block: the list is empty. -/
theorem block_list_empty : ¬ ∀ (p : Partition) (valid : Nat → Prop)
    (view : (Nat → Mem) → Nat → Mem) (inodeNumber : Nat) (inode : Mem) (d : Nat → Mem),
    Reads reliable p valid view → ext2ReadInode reliable p inodeNumber d = (some inode, d) →
      FileFilled p valid view d inode → ListedAsMap reliable p view inodeNumber inode d := by
  intro all
  have size : i_size (memcpy blank 0 (wideInode (2 ^ 32 - 1) 4) 128) = 2 ^ 32 - 1 := by
    decide +kernel
  have blocks : sizeBlocks widePartition
      (i_size (memcpy blank 0 (wideInode (2 ^ 32 - 1) 4) 128)) = 4 := by
    rw [sizeBlocks, size, wide_size]
    decide
  have listed := all widePartition (InReach widePartition) (reachView widePartition) 1
    (memcpy blank 0 (wideInode (2 ^ 32 - 1) 4) 128) (wideDisk (2 ^ 32 - 1) 4)
    (reliable_reads wide_aligned) (wide_inode (2 ^ 32 - 1) 4)
    (wide_filled (by decide) blocks (by decide +kernel))
  have number := listed.number (wide_inode (2 ^ 32 - 1) 4)
  rw [blocks, blockNumber, divideRoundedUp, size, wide_size] at number
  exact absurd number (by decide)

end OmenExt2
