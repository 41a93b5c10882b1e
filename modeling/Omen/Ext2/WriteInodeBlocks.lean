import Omen.Ext2.WriteBlocks
import Omen.Ext2.BlockDriver
import Mathlib.Data.Finset.Card
import Mathlib.Order.Interval.Finset.Nat

/- `ext2_write_inode_blocks` against the block map. A direct stage that has nothing to
   write ends the call, so that only offsets inside the twelve direct blocks work. -/
namespace OmenExt2
open ByteMemory OmenDisk PointerTree

variable {σ : Type}

def writeStages (p : Partition) (count : Nat) (source : Mem) :
    List (Writer σ × List Nat) → Nat → Nat → Nat → σ → WriteOut σ
  | [], _, _, skip, d => ⟨ext2WriteFailed, skip, d⟩
  | (writer, blocks) :: rest, blocksWritten, pos, skip, d =>
    let out := writer (count - blocksWritten) blocks source pos skip d
    if out.result = ext2WriteFailed ∨ out.result = 0 then out
    else
      let blocksWritten' := (blocksWritten + out.result) % 2 ^ 32
      if count ≤ blocksWritten' then ⟨blocksWritten', out.skip, out.disk⟩
      else writeStages p count source rest blocksWritten' (pos + out.result * p.blockSize)
        out.skip out.disk

def indirectWriters (dev : Dev σ) (p : Partition) (inode : Mem) : List (Writer σ × List Nat) :=
  [(ext2WriteIndirectBlocks dev p, [i_block inode 12]),
    (ext2WriteDoubleIndirectBlocks dev p, [i_block inode 13]),
    (ext2WriteTripleIndirectBlocks dev p, [i_block inode 14])]

def ext2WriteInodeBlocks (dev : Dev σ) (p : Partition) (inodeNumber : Nat) (source : Mem)
    (pos count skip : Nat) (d : σ) : Nat × σ :=
  if count = 0 then (0, d)
  else
    match ext2ReadInode dev p inodeNumber d with
    | (none, d') => (ext2WriteFailed, d')
    | (some inode, d') =>
      let out := writeStages p count source
        ((ext2WriteDirectBlocks dev p, (List.range 12).map (i_block inode)) ::
          indirectWriters dev p inode) 0 pos skip d'
      (out.result, out.disk)

section Stages
variable {dev : Dev σ} {p : Partition} {valid : Nat → Prop} {view : σ → Nat → Mem}

def WritersFit (p : Partition) (valid : Nat → Prop) (view : σ → Nat → Mem)
    (stages : List (Writer σ × List Nat)) (rows : Forest) : Prop :=
  List.Forall₂ (fun stage row => stage.2 = row.2 ∧ 0 < rowSize p.entriesPerBlock row.1 row.2 ∧
    WriterSpec p valid view row.1 stage.1) stages rows

theorem writeStages_head {count written pos skip skip' : Nat} {source : Mem} {d : σ}
    {writer : Writer σ} {blocks blocks' : List Nat} (rest : List (Writer σ × List Nat))
    (same : writer (count - written) blocks source pos skip d =
      writer (count - written) blocks' source pos skip' d) :
    writeStages p count source ((writer, blocks) :: rest) written pos skip d =
      writeStages p count source ((writer, blocks') :: rest) written pos skip' d := by
  simp only [writeStages, same]

theorem writeStages_run {stages : List (Writer σ × List Nat)} {rows : Forest}
    (fit : WritersFit p valid view stages rows) {count : Nat} (limit : count ≤ ext2WriteFailed)
    (source : Mem) {written : Nat} (pos : Nat) (d : σ) (more : written < count)
    (room : count - written ≤ forestSize p.entriesPerBlock rows)
    (separate : Separate (forestLeaf (pointer view d) p.entriesPerBlock rows)
      (forestPath (pointer view d) p.entriesPerBlock rows) valid (count - written)) :
    ∃ d', writeStages p count source stages written pos 0 d = ⟨count, 0, d'⟩ ∧
      StoredRun p.blockSize source pos (forestLeaf (pointer view d) p.entriesPerBlock rows)
        (count - written) (view d) (view d') := by
  induction fit generalizing written pos d with
  | nil => rw [forestSize] at room; omega
  | @cons stage row stages rows here rest ih =>
    obtain ⟨writer, blocks⟩ := stage
    obtain ⟨level, roots⟩ := row
    obtain ⟨same, some, spec⟩ := here
    dsimp only at same some spec
    subst same
    rw [forestSize] at room
    obtain ⟨d1, run, stored⟩ := spec (count - written) blocks source pos d
      (by omega) (by omega)
      (separate.part 0 (by omega)
        (fun i low => by rw [Nat.zero_add, (forest_first (by omega)).1])
        (fun i low b member => by rwa [Nat.zero_add, forestPath_first (by omega)]))
    have one := stored.congr
      (fun k low => ((@forest_first _ _ _ _ _ rows (by omega)).1).symm)
    rw [writeStages]
    simp only [run]
    unfold ext2WriteFailed at limit ⊢
    by_cases all : count - written ≤ rowSize p.entriesPerBlock level blocks
    · have now : min (count - written) (rowSize p.entriesPerBlock level blocks) =
          count - written := by omega
      have done : (written + (count - written)) % 2 ^ 32 = count := by omega
      rw [now] at one
      rw [now, done, if_pos (Nat.le_refl count)]
      refine ⟨d1, ?_, one⟩
      split
      · -- a count equal to the failure code comes back as that code
        congr 1
        omega
      · rfl
    · have now : min (count - written) (rowSize p.entriesPerBlock level blocks) =
          rowSize p.entriesPerBlock level blocks := by omega
      have sum : (written + rowSize p.entriesPerBlock level blocks) % 2 ^ 32 =
          written + rowSize p.entriesPerBlock level blocks := by omega
      have split : count - written = rowSize p.entriesPerBlock level blocks +
          (count - (written + rowSize p.entriesPerBlock level blocks)) := by omega
      rw [now] at one
      rw [split] at separate
      have after : ∀ i, i < count - (written + rowSize p.entriesPerBlock level blocks) →
          forestLeaf (pointer view d1) p.entriesPerBlock rows i =
              forestLeaf (pointer view d) p.entriesPerBlock ((level, blocks) :: rows)
                (rowSize p.entriesPerBlock level blocks + i) ∧
            forestPath (pointer view d1) p.entriesPerBlock rows i =
              forestPath (pointer view d) p.entriesPerBlock ((level, blocks) :: rows)
                (rowSize p.entriesPerBlock level blocks + i) := by
        intro i low
        have behind := @forestPath_rest (pointer view d) _ _ _ _ rows
          (Nat.le_add_right (rowSize p.entriesPerBlock level blocks) i)
        rw [Nat.add_sub_cancel_left] at behind
        rw [(forest_rest (Nat.le_add_right _ i)).1, Nat.add_sub_cancel_left, behind]
        refine forest_congr (fun b member => pointer_congr (one.kept b (fun k high hit => ?_)))
        refine separate.apart (i := k) (j := rowSize p.entriesPerBlock level blocks + i)
          (by omega) (by omega) ?_
        rw [← hit, behind]
        exact member
      obtain ⟨d2, run2, two⟩ := ih
        (pos + rowSize p.entriesPerBlock level blocks * p.blockSize) d1 (by omega) (by omega)
        (separate.part _ (Nat.le_refl _) (fun i low => (after i low).1)
          (fun i low b member => by rwa [(after i low).2] at member))
      rw [now, sum, if_neg (by omega), if_neg (by omega), run2, split]
      exact ⟨d2, rfl, one.append two (fun t low => (after t low).1)
        (fun i t low high => separate.distinct (by omega) (by omega) (by omega))⟩

theorem indirectWriters_fit (stores : Stores dev p p.blockSize valid view) (inode : Mem)
    {skip : Nat} (near : skip < 12) :
    WritersFit p valid view
      ((ext2WriteDirectBlocks dev p, ((List.range 12).map (i_block inode)).drop skip) ::
        indirectWriters dev p inode)
      ((0, ((List.range 12).map (i_block inode)).drop skip) :: (inodeForest inode).tail) := by
  have fanout := entries_positive stores.fits
  refine .cons ⟨rfl, ?_, ext2WriteDirectBlocks_spec stores⟩
    (.cons ⟨rfl, ?_, ext2WriteIndirectBlocks_spec stores⟩
      (.cons ⟨rfl, ?_, ext2WriteDoubleIndirectBlocks_spec stores⟩
        (.cons ⟨rfl, ?_, ext2WriteTripleIndirectBlocks_spec stores⟩ .nil)))
  · simp only [rowSize_leaves, List.length_drop, List.length_map, List.length_range]
    omega
  all_goals
    rw [rowSize_tree]
    exact Nat.pow_pos fanout

end Stages

/-- A file with separate blocks leaves at least its first two indirect blocks and block 0
    out of the 2^32 numbers a pointer can hold. -/
theorem separate_bound {fanout n : Nat} {blocks : Nat → Mem} {inode : Mem} {valid : Nat → Prop}
    (positive : 0 < fanout) (few : fanout ≤ 2 ^ 28) (nonzero : ∀ {b}, valid b → b ≠ 0)
    (separate : Separate (blockMap fanout blocks inode) (blockMapPath fanout blocks inode) valid
      n) : n ≤ ext2WriteFailed := by
  unfold ext2WriteFailed
  by_cases small : n ≤ 12 + fanout
  · omega
  have single : mapPlace fanout 12 = (12, 1, 0) := by simp [mapPlace, positive]
  have double : mapPlace fanout (12 + fanout) = (13, 2, 0) := by
    have square : 0 < fanout ^ 2 := Nat.pow_pos positive
    unfold mapPlace
    rw [if_neg (by omega), if_neg (by omega), if_pos (by omega)]
    simp
  have first : i_block inode 12 ∈ blockMapPath fanout blocks inode 12 := by
    simp [blockMapPath, single, path]
  have second : i_block inode 13 ∈ blockMapPath fanout blocks inode (12 + fanout) := by
    simp [blockMapPath, double, path]
  have below : word (blocks (i_block inode 13)) 0 ∈
      blockMapPath fanout blocks inode (12 + fanout) := by
    simp [blockMapPath, double, path]
  have data : blockMap fanout blocks inode 12 = word (blocks (i_block inode 12)) 0 := by
    simp [blockMap, single, leaf]
  have other : i_block inode 12 ≠ i_block inode 13 := by
    intro same
    rw [← same, ← data] at below
    exact separate.apart (by omega) (by omega) below
  have bound : ∀ i, blockMap fanout blocks inode i < 2 ^ 32 := fun i =>
    leaf_bound (fun b k => word_bound (blocks b) k) (i_block_bound inode _)
  have inside : insert (i_block inode 12) (insert (i_block inode 13)
      ((Finset.range n).image (blockMap fanout blocks inode))) ⊆ Finset.Ico 1 (2 ^ 32) := by
    intro b member
    simp only [Finset.mem_insert, Finset.mem_image, Finset.mem_range] at member
    rw [Finset.mem_Ico]
    rcases member with rfl | rfl | ⟨i, low, rfl⟩
    · have h := nonzero (separate.path_valid (by omega) _ first)
      exact ⟨by omega, i_block_bound inode 12⟩
    · have h := nonzero (separate.path_valid (by omega) _ second)
      exact ⟨by omega, i_block_bound inode 13⟩
    · have h := nonzero (separate.leaf_valid low)
      exact ⟨by omega, bound i⟩
  have card := Finset.card_le_card inside
  have distinct : Set.InjOn (blockMap fanout blocks inode) (Finset.range n) := by
    intro i low j high same
    by_contra differ
    exact separate.distinct (by simpa using low) (by simpa using high) differ same
  rw [Finset.card_insert_of_notMem, Finset.card_insert_of_notMem,
    Finset.card_image_of_injOn distinct, Finset.card_range, Nat.card_Ico] at card
  · omega
  · intro member
    obtain ⟨i, low, same⟩ := Finset.mem_image.mp member
    exact separate.apart (by simpa using low) (by omega) (same ▸ second)
  · intro member
    rcases Finset.mem_insert.mp member with same | inFile
    · exact other same
    · obtain ⟨i, low, same⟩ := Finset.mem_image.mp inFile
      exact separate.apart (by simpa using low) (by omega) (same ▸ first)

section Inode
variable {dev : Dev σ} {p : Partition} {valid : Nat → Prop} {view : σ → Nat → Mem}

/-- From the twelfth block on, the call returns 0 and leaves the disk alone. -/
theorem ext2WriteInodeBlocks_far {inodeNumber count skip : Nat} {inode : Mem} {d : σ}
    (found : ext2ReadInode dev p inodeNumber d = (some inode, d)) (positive : 0 < count)
    (far : 12 ≤ skip) (source : Mem) (pos : Nat) :
    ext2WriteInodeBlocks dev p inodeNumber source pos count skip d = (0, d) := by
  have some : count ≠ 0 := by omega
  have direct := @writeDirectFrom_drop _ dev p count source
    ((List.range 12).map (i_block inode)) 0 pos skip d
  rw [List.drop_eq_nil_of_le (by simpa using far), writeDirectFrom] at direct
  simp only [ext2WriteInodeBlocks, some, ↓reduceIte, found, writeStages, ext2WriteDirectBlocks,
    Nat.sub_zero, direct, or_true]

theorem ext2WriteInodeBlocks_near (stores : Stores dev p p.blockSize valid view)
    {inodeNumber count skip n : Nat} {inode : Mem} {d : σ}
    (found : ext2ReadInode dev p inodeNumber d = (some inode, d)) (positive : 0 < count)
    (limit : count ≤ ext2WriteFailed) (near : skip < 12) (room : skip + count ≤ n)
    (sized : n ≤ mapCapacity p.entriesPerBlock)
    (separate : Separate (blockMap p.entriesPerBlock (view d) inode)
      (blockMapPath p.entriesPerBlock (view d) inode) valid n) (source : Mem)
    (pos : Nat) :
    ∃ d', ext2WriteInodeBlocks dev p inodeNumber source pos count skip d = (count, d') ∧
      StoredRun p.blockSize source pos
        (fun k => blockMap p.entriesPerBlock (view d) inode (skip + k)) count (view d)
        (view d') := by
  have some : count ≠ 0 := by omega
  have short : skip ≤ ((List.range 12).map (i_block inode)).length := by simp; omega
  have dropped := @writeDirectFrom_drop _ dev p (count - 0) source
    ((List.range 12).map (i_block inode)) 0 pos skip d
  rw [Nat.sub_eq_zero_of_le short] at dropped
  have places := fun k =>
    @forest_drop (pointer view d) p.entriesPerBlock _ (inodeForest inode).tail _ short k
  have same : ∀ k, k < count →
      forestLeaf (pointer view d) p.entriesPerBlock
          ((0, ((List.range 12).map (i_block inode)).drop skip) :: (inodeForest inode).tail) k =
        blockMap p.entriesPerBlock (view d) inode (skip + k) ∧
      forestPath (pointer view d) p.entriesPerBlock
          ((0, ((List.range 12).map (i_block inode)).drop skip) :: (inodeForest inode).tail) k =
        blockMapPath p.entriesPerBlock (view d) inode (skip + k) := by
    intro k low
    rw [(places k).1, (places k).2, (blockMap_forest (by omega)).1,
      (blockMap_forest (by omega)).2]
    exact ⟨rfl, rfl⟩
  obtain ⟨d', run, stored⟩ := writeStages_run (indirectWriters_fit stores inode near) limit source
    pos d positive
    (by
      have size := forestSize_inode p.entriesPerBlock inode
      simp only [inodeForest, forestSize, List.tail_cons, rowSize_leaves, List.length_drop,
        List.length_map, List.length_range] at size ⊢
      omega)
    (separate.part skip (by omega) (fun k low => (same k (by omega)).1)
      (fun k low b member => by rwa [(same k (by omega)).2] at member))
  have head := @writeStages_head _ p count 0 pos _ _ _ _ (ext2WriteDirectBlocks dev p) _ _
    (indirectWriters dev p inode)
    dropped
  refine ⟨d', ?_, stored.congr (fun k low => (same k (by omega)).1)⟩
  simp only [ext2WriteInodeBlocks, some, ↓reduceIte, found]
  rw [head, run]

end Inode

/-- The write has returned `count`, the blocks that the map assigns to file blocks `skip`
    to `skip + count - 1` hold the source in order, and all others are as before. -/
structure WritesFileBlocks (p : Partition) (before after : Nat → Mem) (inode source : Mem)
    (pos skip count result : Nat) : Prop where
  returned : result = count
  stored : ∀ k j, k < count → j < p.blockSize →
    after (blockMap p.entriesPerBlock before inode (skip + k)) j =
      source (pos + k * p.blockSize + j)
  kept : ∀ b, (∀ k, k < count → b ≠ blockMap p.entriesPerBlock before inode (skip + k)) →
    after b = before b

/- A file of thirteen blocks on a disk that stores whole blocks: blocks 1 to 12 through
   the direct pointers, block 14 through the indirect block 13. Block 40 is the inode
   table. -/
section Thirteen

def thirteenBlocks (b : Nat) : Mem :=
  if b = 13 then fun i => if i = 0 then 14 else 0
  else if b = 40 then fun i => if i % 4 = 0 then UInt8.ofNat ((i - 36) / 4) else 0
  else blank

def thirteenPartition : Partition := bytePartition 0 1 8192 1024 1 (putLE blank 8 4 40)

def thirteenDisk : Nat → Mem := layout thirteenPartition thirteenBlocks

def thirteenInode : Mem := memcpy blank 0 (thirteenBlocks 40) 128

theorem thirteen_aligned : Aligned thirteenPartition := bytePartition_aligned (by decide)

theorem thirteen_size : thirteenPartition.blockSize = 1024 := by
  have log : thirteenPartition.s_log_block_size = 0 := bytePartition_log (by decide)
  rw [blockSize_eq thirteen_aligned.fits, log, Nat.pow_zero]

theorem thirteen_sectors : thirteenPartition.blockSectors = 1024 :=
  (bytePartition_sectors (by decide)).trans thirteen_size

theorem thirteen_entries : thirteenPartition.entriesPerBlock = 256 := by
  rw [Partition.entriesPerBlock, thirteen_size]

theorem thirteen_reach {b : Nat} (low : 0 < b) (high : b ≤ 40) : InReach thirteenPartition b := by
  rw [InReach, thirteen_size]
  omega

theorem thirteen_view {b i : Nat} (low : 0 < b) (high : b ≤ 40) (inside : i < 1024) :
    reachView thirteenPartition thirteenDisk b i = thirteenBlocks b i :=
  layout_view thirteen_aligned rfl (by decide) (thirteen_reach low high)
    (by rw [thirteen_sectors]; omega) (by rw [thirteen_size]; exact inside)

theorem thirteen_inode :
    ext2ReadInode reliable thirteenPartition 1 thirteenDisk =
      (some thirteenInode, thirteenDisk) :=
  layout_inode thirteen_aligned rfl (by decide) bytePartition_rev
    (getLE_putLE blank 8 4 40 (by decide)) (thirteen_reach (by decide) (by decide))
    (by rw [thirteen_sectors]; decide) thirteenBlocks

theorem thirteenFile_map {blocks : Nat → Mem} {inode : Mem}
    (pointers : ∀ k, k < 13 → i_block inode k = k + 1) (entry : word (blocks 13) 0 = 14) {i : Nat}
    (inside : i < 13) :
    blockMap 256 blocks inode i = (if i < 12 then i + 1 else 14) ∧
      blockMapPath 256 blocks inode i = (if i < 12 then [] else [13]) := by
  unfold blockMap blockMapPath mapPlace
  by_cases direct : i < 12
  · rw [if_pos direct, if_pos direct, if_pos direct]
    exact ⟨pointers i inside, rfl⟩
  · obtain rfl : i = 12 := by omega
    have root := pointers 12 (by decide)
    simp [leaf, path, root, entry]

theorem thirteen_map {i : Nat} (inside : i < 13) :
    blockMap 256 (reachView thirteenPartition thirteenDisk) thirteenInode i =
        (if i < 12 then i + 1 else 14) ∧
      blockMapPath 256 (reachView thirteenPartition thirteenDisk) thirteenInode i =
        (if i < 12 then [] else [13]) := by
  refine thirteenFile_map (by decide) ?_ inside
  rw [word_congr (b := thirteenBlocks 13)
    (fun i _ high => thirteen_view (by decide) (by decide) (by omega))]
  decide

theorem thirteen_separate :
    Separate
      (blockMap thirteenPartition.entriesPerBlock (reachView thirteenPartition thirteenDisk)
        thirteenInode)
      (blockMapPath thirteenPartition.entriesPerBlock (reachView thirteenPartition thirteenDisk)
        thirteenInode) (InReach thirteenPartition) 13 := by
  rw [thirteen_entries]
  constructor
  · intro i low
    rw [(thirteen_map low).1]
    exact thirteen_reach (by split <;> omega) (by split <;> omega)
  · intro i low b member
    rw [(thirteen_map low).2] at member
    split at member
    · exact absurd member List.not_mem_nil
    · rw [List.mem_singleton.mp member]
      exact thirteen_reach (by decide) (by decide)
  · intro i j low high other
    rw [(thirteen_map low).1, (thirteen_map high).1]
    split <;> split <;> omega
  · intro i j low high member
    rw [(thirteen_map low).1, (thirteen_map high).2] at member
    split at member
    · exact absurd member List.not_mem_nil
    · have same := List.mem_singleton.mp member
      split at same <;> omega

theorem thirteen_sized : 13 ≤ mapCapacity thirteenPartition.entriesPerBlock := by
  rw [thirteen_entries]
  decide

end Thirteen

theorem write_inode_blocks_iff {dev : Dev σ} {p : Partition} {valid : Nat → Prop}
    {view : σ → Nat → Mem} {inodeNumber count skip n : Nat} {inode : Mem} {d : σ}
    (stores : Stores dev p p.blockSize valid view)
    (found : ext2ReadInode dev p inodeNumber d = (some inode, d))
    (sized : n ≤ mapCapacity p.entriesPerBlock)
    (separate : Separate (blockMap p.entriesPerBlock (view d) inode)
      (blockMapPath p.entriesPerBlock (view d) inode) valid n)
    (positive : 0 < count) (room : skip + count ≤ n) (source : Mem) (pos : Nat) :
    WritesFileBlocks p (view d) (view (ext2WriteInodeBlocks dev p inodeNumber source pos
        count skip d).2) inode source pos skip count
        (ext2WriteInodeBlocks dev p inodeNumber source pos count skip d).1 ↔ skip < 12 := by
  constructor
  · intro right
    by_contra far
    have returned := right.returned
    rw [ext2WriteInodeBlocks_far found positive (by omega)] at returned
    dsimp only at returned
    omega
  · intro near
    have few : p.entriesPerBlock ≤ 2 ^ 28 := by
      have size := blockSize_entries stores.fits
      have bound := (blockSize_bounds stores.fits).2
      omega
    have bound := separate_bound (entries_positive stores.fits) few stores.nonzero separate
    obtain ⟨d', run, stored⟩ := ext2WriteInodeBlocks_near stores found positive (by omega) near
      room sized separate source pos
    rw [run]
    exact ⟨rfl, stored.stored, stored.kept⟩

/-- Two blocks across the end of the direct pointers. -/
theorem write_inode_blocks_eleven :
    WritesFileBlocks thirteenPartition (reachView thirteenPartition thirteenDisk)
      (reachView thirteenPartition
        (ext2WriteInodeBlocks reliable thirteenPartition 1 blank 0 2 11 thirteenDisk).2)
      thirteenInode blank 0 11 2
      (ext2WriteInodeBlocks reliable thirteenPartition 1 blank 0 2 11 thirteenDisk).1 :=
  (@write_inode_blocks_iff _ reliable thirteenPartition _ _ 1 2 11 13 thirteenInode thirteenDisk
    (bytePartition_stores (by decide)) thirteen_inode thirteen_sized thirteen_separate
    (by decide) (by decide) blank 0).mpr (by decide)

/-- The first block behind the direct ones cannot be written. -/
theorem write_inode_blocks_refuses :
    ¬ ∀ (σ : Type) (dev : Dev σ) (p : Partition) (valid : Nat → Prop) (view : σ → Nat → Mem)
      (inodeNumber pos count skip n : Nat) (inode source : Mem) (d : σ),
      Stores dev p p.blockSize valid view →
      ext2ReadInode dev p inodeNumber d = (some inode, d) →
      n ≤ mapCapacity p.entriesPerBlock →
      Separate (blockMap p.entriesPerBlock (view d) inode)
        (blockMapPath p.entriesPerBlock (view d) inode) valid n →
      0 < count → skip + count ≤ n →
      WritesFileBlocks p (view d) (view (ext2WriteInodeBlocks dev p inodeNumber source pos
        count skip d).2) inode source pos skip count
        (ext2WriteInodeBlocks dev p inodeNumber source pos count skip d).1 := by
  intro all
  have right := all (Nat → Mem) reliable thirteenPartition _ _ 1 0 1 12 13 thirteenInode blank
    thirteenDisk (bytePartition_stores (by decide)) thirteen_inode thirteen_sized
    thirteen_separate (by decide) (by decide)
  have returned := right.returned
  rw [ext2WriteInodeBlocks_far thirteen_inode (by decide) (by decide)] at returned
  exact absurd returned (by decide)

end OmenExt2
