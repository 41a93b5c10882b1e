import Omen.Ext2.ReadBlocks
import Omen.Ext2.BlockDriver

/- `ext2_read_inode_blocks` against the block map. The map is followed from every offset
   but those that start exactly at an indirect block below the double or the triple
   indirect one: there a reader ends its caller's loop, and the rest of the file is
   looked for behind the tree. -/
namespace OmenExt2
open ByteMemory OmenDisk PointerTree

variable {σ : Type}

def readStages (p : Partition) (count : Nat) :
    List (Reader σ × List Nat) → Nat → Nat → Mem → Nat → σ → ReadOut σ
  | [], _, _, dest, skip, d => ⟨ext2ReadFailed, dest, skip, d⟩
  | (reader, blocks) :: rest, blocksRead, pos, dest, skip, d =>
    let out := reader (count - blocksRead) blocks pos dest skip d
    if out.result = ext2ReadFailed then out
    else
      let blocksRead' := (blocksRead + out.result) % 2 ^ 32
      if count ≤ blocksRead' then ⟨blocksRead', out.dest, out.skip, out.disk⟩
      else readStages p count rest blocksRead' (pos + out.result * p.blockSize) out.dest out.skip
        out.disk

def inodeStages (dev : Dev σ) (p : Partition) (inode : Mem) : List (Reader σ × List Nat) :=
  [(ext2ReadDirectBlocks dev p, (List.range 12).map (i_block inode)),
    (ext2ReadIndirectBlocks dev p, [i_block inode 12]),
    (ext2ReadDoubleIndirectBlocks dev p, [i_block inode 13]),
    (ext2ReadTripleIndirectBlocks dev p, [i_block inode 14])]

def ext2ReadInodeBlocks (dev : Dev σ) (p : Partition) (inodeNumber : Nat) (dest : Mem)
    (pos count skip : Nat) (d : σ) : Nat × Mem × σ :=
  if count = 0 then (0, dest, d)
  else
    match ext2ReadInode dev p inodeNumber d with
    | (none, d') => (ext2ReadFailed, dest, d')
    | (some inode, d') =>
      let out := readStages p count (inodeStages dev p inode) 0 pos dest skip d'
      (out.result, out.dest, out.disk)

section Stages
variable {dev : Dev σ} {p : Partition} {valid : Nat → Prop} {view : σ → Nat → Mem}

def StagesFit (p : Partition) (valid : Nat → Prop) (view : σ → Nat → Mem)
    (stages : List (Reader σ × List Nat)) (rows : Forest) : Prop :=
  List.Forall₂ (fun stage row => stage.2 = row.2 ∧ 0 < rowSize p.entriesPerBlock row.1 row.2 ∧
    ReaderSpec p valid view row.1 stage.1) stages rows

/-- Block `i` of a forest starts an indirect block, and is not the first of its row. -/
def OnEdge (fanout : Nat) : Forest → Nat → Prop
  | [], _ => False
  | (level, roots) :: rest, i =>
    if i < rowSize fanout level roots then 0 < level ∧ 0 < i ∧ i % fanout = 0
    else OnEdge fanout rest (i - rowSize fanout level roots)

theorem onEdge_zero (fanout : Nat) (rows : Forest) : ¬ OnEdge fanout rows 0 := by
  induction rows with
  | nil => exact id
  | cons row rest ih =>
    obtain ⟨level, roots⟩ := row
    rw [OnEdge, Nat.zero_sub]
    split
    · omega
    · exact ih

theorem readStages_none {count read : Nat} (same : read % 2 ^ 32 = read) (more : read < count)
    {reader : Reader σ} {blocks : List Nat} {rest : List (Reader σ × List Nat)} {pos : Nat}
    {dest dest' : Mem} {skip skip' : Nat} {d d' : σ}
    (call : reader (count - read) blocks pos dest skip d = ⟨0, dest', skip', d'⟩) :
    readStages p count ((reader, blocks) :: rest) read pos dest skip d =
      readStages p count rest read pos dest' skip' d' := by
  have zero : (0 : Nat) ≠ ext2ReadFailed := by decide
  have short : ¬ count ≤ read := by omega
  simp only [readStages, call, zero, ↓reduceIte, Nat.add_zero, Nat.zero_mul, same, short]

theorem readStages_run {stages : List (Reader σ × List Nat)} {rows : Forest}
    (reads : Reads dev p valid view) (fit : StagesFit p valid view stages rows) {count : Nat}
    (limit : count ≤ ext2ReadFailed) {read : Nat} (pos : Nat) (dest : Mem) (skip : Nat) (d : σ)
    (more : read < count) (room : skip + (count - read) ≤ forestSize p.entriesPerBlock rows)
    (off : ¬ OnEdge p.entriesPerBlock rows skip)
    (mapped : ∀ i, i < skip + (count - read) →
      ForestMapped (pointer view d) p.entriesPerBlock valid rows i) :
    readStages p count stages read pos dest skip d =
      ⟨count, putBlocks p.blockSize dest pos
        (fun k => view d (forestLeaf (pointer view d) p.entriesPerBlock rows (skip + k)))
        (count - read), 0, d⟩ := by
  induction fit generalizing read pos dest skip with
  | nil => rw [forestSize] at room; omega
  | @cons stage row stages rows here rest ih =>
    obtain ⟨reader, blocks⟩ := stage
    obtain ⟨level, roots⟩ := row
    obtain ⟨same, some, spec⟩ := here
    dsimp only at same some spec
    subst same
    have block := (blockSize_bounds reads.fits).1
    have bound : count < 2 ^ 32 := by
      unfold ext2ReadFailed at limit
      omega
    have inRow : ∀ i, i < skip + (count - read) → i < rowSize p.entriesPerBlock level blocks →
        RowMapped (pointer view d) p.entriesPerBlock valid level blocks i :=
      fun i low high => ((forest_first high).2 valid).mp (mapped i low)
    have behind : ∀ i, rowSize p.entriesPerBlock level blocks + i < skip + (count - read) →
        ForestMapped (pointer view d) p.entriesPerBlock valid rows i := by
      intro i low
      have h := mapped _ low
      rwa [(forest_rest (Nat.le_add_right _ i)).2, Nat.add_sub_cancel_left] at h
    rw [forestSize] at room
    by_cases far : rowSize p.entriesPerBlock level blocks ≤ skip
    · have call := spec.past (count - read) blocks pos dest skip d far
        (fun i low => inRow i (by omega) low) (by omega)
      rw [OnEdge, if_neg (by omega)] at off
      rw [readStages_none (Nat.mod_eq_of_lt (by omega)) more call,
        ih _ _ _ more (by omega) off (fun i low => behind i (by omega))]
      congr 2
      funext k
      rw [(forest_rest (by omega)).1]
      congr 2
      omega
    · have away : level = 0 ∨ skip = 0 ∨ skip % p.entriesPerBlock ≠ 0 := by
        rw [OnEdge, if_pos (by omega)] at off
        omega
      have call := spec.inside (count - read) blocks pos dest skip d
        (by omega) inRow (by omega) (by omega) away
      have first : ∀ k, skip + k < rowSize p.entriesPerBlock level blocks →
          rowBlock p view d level blocks (skip + k) = view d (forestLeaf (pointer view d)
            p.entriesPerBlock ((level, blocks) :: rows) (skip + k)) := by
        intro k low
        rw [(forest_first low).1]
        rfl
      rw [putBlocks_congr (fun k low => first k (by omega))] at call
      rw [readStages, call]
      unfold ext2ReadFailed at limit ⊢
      dsimp only
      by_cases all : count - read ≤ rowSize p.entriesPerBlock level blocks - skip
      · have now : min (count - read) (rowSize p.entriesPerBlock level blocks - skip) =
            count - read := by omega
        have done : (read + (count - read)) % 2 ^ 32 = count := by omega
        rw [now, done, if_pos (Nat.le_refl count)]
        split
        · -- a count equal to the failure code comes back as that code
          have start : count - read = count := by omega
          rw [start]
        · rfl
      · have now : min (count - read) (rowSize p.entriesPerBlock level blocks - skip) =
            rowSize p.entriesPerBlock level blocks - skip := by omega
        have sum : (read + (rowSize p.entriesPerBlock level blocks - skip)) % 2 ^ 32 =
            read + (rowSize p.entriesPerBlock level blocks - skip) := by omega
        have split : count - read = rowSize p.entriesPerBlock level blocks - skip +
            (count - (read + (rowSize p.entriesPerBlock level blocks - skip))) := by omega
        rw [now, sum, if_neg (by omega), if_neg (by omega), ih _ _ _ (by omega) (by omega)
          (onEdge_zero _ _) (fun i low => behind i (by omega)), split,
          ← putBlocks_append (by omega)]
        congr 2
        funext k
        rw [(forest_rest (by omega)).1]
        congr 2
        omega

def rowOf (fanout : Nat) : Forest → Nat → Nat
  | [], _ => 0
  | (level, roots) :: rest, i =>
    if i < rowSize fanout level roots then 0
    else rowOf fanout rest (i - rowSize fanout level roots) + 1

/-- On an edge the stage that should read gives up, and the next one starts at its own
    first block. -/
theorem readStages_edge {stages : List (Reader σ × List Nat)} {rows : Forest}
    (fit : StagesFit p valid view stages rows) {count : Nat} (positive : 0 < count) (pos : Nat)
    (dest : Mem) {skip : Nat} (d : σ) (edge : OnEdge p.entriesPerBlock rows skip)
    (mapped : ∀ i, i < skip → ForestMapped (pointer view d) p.entriesPerBlock valid rows i) :
    readStages p count stages 0 pos dest skip d =
      readStages p count (stages.drop (rowOf p.entriesPerBlock rows skip + 1)) 0 pos dest 0 d := by
  induction fit generalizing skip with
  | nil => exact absurd edge id
  | @cons stage row stages rows here rest ih =>
    obtain ⟨reader, blocks⟩ := stage
    obtain ⟨level, roots⟩ := row
    obtain ⟨same, -, spec⟩ := here
    dsimp only at same spec
    subst same
    have inRow : ∀ i, i < skip → i < rowSize p.entriesPerBlock level blocks →
        RowMapped (pointer view d) p.entriesPerBlock valid level blocks i :=
      fun i low high => ((forest_first high).2 valid).mp (mapped i low)
    by_cases far : rowSize p.entriesPerBlock level blocks ≤ skip
    · have call := spec.past (count - 0) blocks pos dest skip d far
        (fun i low => inRow i (by omega) low) (by omega)
      rw [OnEdge, if_neg (by omega)] at edge
      rw [readStages_none (Nat.zero_mod _) positive call, rowOf, if_neg (by omega),
        ih edge, List.drop_succ_cons]
      intro i low
      have h := mapped (rowSize p.entriesPerBlock level blocks + i) (by omega)
      rwa [(forest_rest (Nat.le_add_right _ i)).2, Nat.add_sub_cancel_left] at h
    · rw [OnEdge, if_pos (by omega)] at edge
      have call := spec.edge (count - 0) blocks pos dest skip d (by omega)
        (fun i low => inRow i low (by omega)) (by omega) edge.1 edge.2.1 edge.2.2
      rw [readStages_none (Nat.zero_mod _) positive call, rowOf, if_pos (by omega),
        List.drop_succ_cons, List.drop_zero]

theorem readStages_last (count read pos : Nat) (reader : Reader σ) (blocks : List Nat)
    (dest : Mem) (skip : Nat) (d : σ) :
    (readStages p count [(reader, blocks)] read pos dest skip d).dest =
      (reader (count - read) blocks pos dest skip d).dest := by
  simp only [readStages]
  split
  · rfl
  · split <;> rfl

theorem readStages_bound (count : Nat) (stages : List (Reader σ × List Nat)) (read pos : Nat)
    (dest : Mem) (skip : Nat) (d : σ) :
    (readStages p count stages read pos dest skip d).result < 2 ^ 32 := by
  induction stages generalizing read pos dest skip d with
  | nil => exact (by decide : ext2ReadFailed < 2 ^ 32)
  | cons stage rest ih =>
    rw [readStages]
    dsimp only
    split
    · rename_i failed
      rw [failed]
      decide
    · split
      · exact Nat.mod_lt _ (by decide)
      · exact ih _ _ _ _ _

theorem inodeStages_fit (reads : Reads dev p valid view) (inode : Mem) :
    StagesFit p valid view (inodeStages dev p inode) (inodeForest inode) := by
  have fanout := entries_positive reads.fits
  refine .cons ⟨rfl, ?_, ext2ReadDirectBlocks_spec reads⟩
    (.cons ⟨rfl, ?_, ext2ReadIndirectBlocks_spec reads⟩
      (.cons ⟨rfl, ?_, ext2ReadDoubleIndirectBlocks_spec reads⟩
        (.cons ⟨rfl, ?_, ext2ReadTripleIndirectBlocks_spec reads⟩ .nil)))
  · rw [rowSize_direct]; decide
  all_goals
    rw [rowSize_tree]
    exact Nat.pow_pos fanout

end Stages

/-- The offsets that start exactly at an indirect block other than the first one below
    the double or the triple indirect block. -/
def SkipsToEdge (fanout skip : Nat) : Prop :=
  12 + fanout < skip ∧ skip ≠ 12 + fanout + fanout ^ 2 ∧ (skip - 12) % fanout = 0

theorem onEdge_inode {fanout skip : Nat} (inside : skip < mapCapacity fanout) (inode : Mem) :
    OnEdge fanout (inodeForest inode) skip ↔ SkipsToEdge fanout skip := by
  unfold mapCapacity at inside
  simp only [inodeForest, OnEdge, rowSize_direct, rowSize_tree, Nat.pow_one, SkipsToEdge]
  by_cases direct : skip < 12
  · rw [if_pos direct]
    omega
  rw [if_neg direct]
  by_cases single : skip - 12 < fanout
  · rw [if_pos single, Nat.mod_eq_of_lt single]
    omega
  rw [if_neg single]
  by_cases double : skip - 12 - fanout < fanout ^ 2
  · have same : (skip - 12) % fanout = (skip - 12 - fanout) % fanout :=
      Nat.mod_eq_sub_mod (by omega)
    rw [if_pos double, same]
    omega
  · have same : (skip - 12) % fanout = (skip - 12 - fanout - fanout ^ 2) % fanout := by
      have behind : fanout ^ (1 + 1) ≤ skip - 12 - fanout := Nat.le_of_not_lt double
      rw [Nat.mod_eq_sub_mod (by omega), ← sub_power_mod behind]
    rw [if_neg double, if_pos (by omega), same]
    omega

theorem rowOf_inode {fanout skip : Nat} (inside : skip < mapCapacity fanout) (inode : Mem)
    (edge : SkipsToEdge fanout skip) :
    rowOf fanout (inodeForest inode) skip = if skip < 12 + fanout + fanout ^ 2 then 2 else 3 := by
  unfold mapCapacity at inside
  have start := edge.1
  simp only [inodeForest, rowOf, rowSize_direct, rowSize_tree, Nat.pow_one]
  rw [if_neg (by omega), if_neg (by omega)]
  by_cases double : skip < 12 + fanout + fanout ^ 2
  · rw [if_pos (by omega), if_pos double]
  · rw [if_neg (by omega), if_pos (by omega), if_neg double]

section Inode
variable {dev : Dev σ} {p : Partition} {valid : Nat → Prop} {view : σ → Nat → Mem}

theorem ext2ReadInodeBlocks_stages {inodeNumber count : Nat} {inode : Mem} {d : σ}
    (positive : 0 < count) (found : ext2ReadInode dev p inodeNumber d = (some inode, d))
    (dest : Mem) (pos skip : Nat) :
    ext2ReadInodeBlocks dev p inodeNumber dest pos count skip d =
      ((readStages p count (inodeStages dev p inode) 0 pos dest skip d).result,
        (readStages p count (inodeStages dev p inode) 0 pos dest skip d).dest,
        (readStages p count (inodeStages dev p inode) 0 pos dest skip d).disk) := by
  have some : count ≠ 0 := by omega
  simp only [ext2ReadInodeBlocks, some, ↓reduceIte, found]

theorem ext2ReadInodeBlocks_map (reads : Reads dev p valid view) {inodeNumber count skip n : Nat}
    {inode : Mem} {d : σ} (found : ext2ReadInode dev p inodeNumber d = (some inode, d))
    (positive : 0 < count) (limit : count ≤ ext2ReadFailed) (room : skip + count ≤ n)
    (off : ¬ SkipsToEdge p.entriesPerBlock skip)
    (mapped : ∀ i, i < n → FileMapped p.entriesPerBlock valid (view d) inode i) (dest : Mem)
    (pos : Nat) :
    ext2ReadInodeBlocks dev p inodeNumber dest pos count skip d =
      (count, putBlocks p.blockSize dest pos
        (fun k => view d (blockMap p.entriesPerBlock (view d) inode (skip + k))) count, d) := by
  have sized : ∀ i, i < n → i < mapCapacity p.entriesPerBlock := fun i low => (mapped i low).1
  have last := sized (skip + count - 1) (by omega)
  have run := readStages_run reads (inodeStages_fit reads inode) limit pos dest skip d
    positive (by rw [forestSize_inode]; omega)
    (by rw [onEdge_inode (by omega)]; exact off)
    (fun i low => fileMapped_forest (mapped i (by omega)))
  have same : putBlocks p.blockSize dest pos (fun k => view d (forestLeaf (pointer view d)
      p.entriesPerBlock (inodeForest inode) (skip + k))) count =
      putBlocks p.blockSize dest pos
        (fun k => view d (blockMap p.entriesPerBlock (view d) inode (skip + k))) count := by
    apply putBlocks_congr
    intro k low
    rw [(blockMap_forest (sized (skip + k) (by omega))).1]
    rfl
  rw [Nat.sub_zero, same] at run
  rw [ext2ReadInodeBlocks_stages positive found, run]

/-- On an edge the destination gets the first blocks below the triple indirect pointer,
    or nothing at all. -/
theorem ext2ReadInodeBlocks_edge (reads : Reads dev p valid view) {inodeNumber count skip : Nat}
    {inode : Mem} {d : σ} (found : ext2ReadInode dev p inodeNumber d = (some inode, d))
    (positive : 0 < count) (edge : SkipsToEdge p.entriesPerBlock skip)
    (inside : skip < mapCapacity p.entriesPerBlock)
    (mapped : ∀ i, i < skip → FileMapped p.entriesPerBlock valid (view d) inode i) (dest : Mem)
    (pos : Nat) :
    (ext2ReadInodeBlocks dev p inodeNumber dest pos count skip d).2.1 =
      if skip < 12 + p.entriesPerBlock + p.entriesPerBlock ^ 2 then
        (ext2ReadTripleIndirectBlocks dev p count [i_block inode 14] pos dest 0 d).dest
      else dest := by
  have run := readStages_edge (inodeStages_fit reads inode) positive pos dest d
    ((onEdge_inode inside inode).mpr edge)
    (fun i low => fileMapped_forest (mapped i low))
  rw [ext2ReadInodeBlocks_stages positive found, run, rowOf_inode inside inode edge]
  dsimp only
  split
  · exact readStages_last count 0 pos _ _ dest 0 d
  · rfl

end Inode

/-- The read has returned `count`, and the destination holds the blocks that the map
    assigns to file blocks `skip` to `skip + count - 1`. -/
def ReadsFileBlocks (p : Partition) (blocks : Nat → Mem) (inode : Mem) (pos skip count : Nat)
    (out : Nat × Mem × σ) : Prop :=
  out.1 = count ∧ ∀ k j, k < count → j < p.blockSize →
    out.2.1 (pos + (k * p.blockSize + j)) =
      blocks (blockMap p.entriesPerBlock blocks inode (skip + k)) j

/- A file on a disk of the repository's driver: every pointer but the last leads to block
   1, a block full of pointers to itself, and the last one to block 2, which is the same
   with itself. Block 3 is the inode table. -/
section TwoBlocks
variable {logSize : Nat}

def flatWords (v : UInt8) : Mem := fun i => if i % 4 = 0 then v else 0

theorem word_flatWords (v : UInt8) (j : Nat) : word (flatWords v) j = v.toNat := by
  have bytes : 4 * j % 4 = 0 ∧ (4 * j + 1) % 4 ≠ 0 ∧ (4 * j + 1 + 1) % 4 ≠ 0 ∧
      (4 * j + 1 + 1 + 1) % 4 ≠ 0 := by omega
  simp [word, getLE, flatWords, bytes]

theorem flat_mapped {fanout : Nat} {blocks : Nat → Mem} {inode : Mem} {valid : Nat → Prop}
    (roots : ∀ {k}, k < 15 → i_block inode k = if k < 14 then 1 else 2)
    (good : ∀ {b}, b = 1 ∨ b = 2 → valid b)
    (self : ∀ {b}, b = 1 ∨ b = 2 → ∀ k, k < fanout → word (blocks b) k = b) {i : Nat}
    (inside : i < mapCapacity fanout) :
    FileMapped fanout valid blocks inode i ∧
      blockMap fanout blocks inode i = if i < 12 + fanout + fanout ^ 2 then 1 else 2 := by
  obtain ⟨slot, low, last⟩ := mapPlace_bounds inside
  have root := roots slot
  have which : i_block inode (mapPlace fanout i).1 = 1 ∨
      i_block inode (mapPlace fanout i).1 = 2 := by
    rw [root]
    split <;> simp
  have leaves := @leaf_self (fun b => word (blocks b)) _ _ _ _ (self which) low
  have found : blockMap fanout blocks inode i = i_block inode (mapPlace fanout i).1 := leaves.1
  refine ⟨⟨inside, fun b member => ?_, ?_⟩, ?_⟩
  · rw [leaves.2 b member]
    exact good which
  · rw [found]
    exact good which
  · rw [found, root]
    simp only [last]

def twoBlocks : Nat → Mem
  | 1 => flatWords 1
  | 2 => flatWords 2
  | _ => fun i => if i < 96 then flatWords 1 i else flatWords 2 i

def twoPartition (logSize : Nat) : Partition :=
  plainPartition logSize 1 8192 1024 1 (putLE blank 8 4 3)

def twoDisk (logSize : Nat) : Nat → Mem := layout (twoPartition logSize) twoBlocks

def twoInode : Mem := memcpy blank 0 (twoBlocks 3) 128

section Fits
variable (fits : logSize ≤ 20)
include fits

theorem twoPartition_aligned : Aligned (twoPartition logSize) :=
  plainPartition_aligned fits

theorem twoPartition_entries : (twoPartition logSize).entriesPerBlock = 256 * 2 ^ logSize := by
  rw [entriesPerBlock_eq (twoPartition_aligned fits).fits]
  congr 2
  exact plainPartition_log fits

theorem two_reach {b : Nat} (low : 0 < b) (high : b ≤ 3) : InReach (twoPartition logSize) b := by
  have bound := (blockSize_bounds (twoPartition_aligned fits).fits).2
  have less : b * (twoPartition logSize).blockSize ≤ 3 * (twoPartition logSize).blockSize :=
    Nat.mul_le_mul_right _ high
  exact ⟨by omega, by omega⟩

theorem two_low {b : Nat} (high : b ≤ 3) : b * (twoPartition logSize).blockSectors < 2 ^ 31 := by
  have aligned := twoPartition_aligned fits
  have bound := (blockSize_bounds aligned.fits).2
  have sectors : (twoPartition logSize).blockSectors * 512 = (twoPartition logSize).blockSize :=
    blockSectors_mul aligned
  have less : b * (twoPartition logSize).blockSectors ≤ 3 * (twoPartition logSize).blockSectors :=
    Nat.mul_le_mul_right _ high
  omega

theorem two_view {b i : Nat} (low : 0 < b) (high : b ≤ 3)
    (inside : i < (twoPartition logSize).blockSize) :
    reachView (twoPartition logSize) (twoDisk logSize) b i = twoBlocks b i :=
  layout_view (twoPartition_aligned fits) rfl (Nat.le_refl 512) (two_reach fits low high)
    (two_low fits high) inside

theorem two_pointer {b k : Nat} (low : 0 < b) (high : b ≤ 2)
    (inside : k < (twoPartition logSize).entriesPerBlock) :
    word (reachView (twoPartition logSize) (twoDisk logSize) b) k = b := by
  have size := blockSize_entries (twoPartition_aligned fits).fits
  have same : word (reachView (twoPartition logSize) (twoDisk logSize) b) k =
      word (twoBlocks b) k :=
    word_congr (fun i _ last => two_view fits low (by omega) (by omega))
  have which : b = 1 ∨ b = 2 := by omega
  rw [same]
  rcases which with rfl | rfl
  · exact word_flatWords 1 k
  · exact word_flatWords 2 k

end Fits

theorem two_i_block {k : Nat} (slot : k < 15) : i_block twoInode k = if k < 14 then 1 else 2 := by
  revert k
  decide

theorem two_inode (fits : logSize ≤ 20) :
    ext2ReadInode reliable (twoPartition logSize) 1 (twoDisk logSize) =
      (some twoInode, twoDisk logSize) :=
  layout_inode (twoPartition_aligned fits) rfl (Nat.le_refl 512) plainPartition_rev
    (getLE_putLE blank 8 4 3 (by decide)) (two_reach fits (by decide) (by decide))
    (two_low fits (Nat.le_refl 3)) twoBlocks

theorem two_mapped (fits : logSize ≤ 20) {i : Nat}
    (inside : i < mapCapacity (twoPartition logSize).entriesPerBlock) :
    FileMapped (twoPartition logSize).entriesPerBlock (InReach (twoPartition logSize))
        (reachView (twoPartition logSize) (twoDisk logSize)) twoInode i ∧
      blockMap (twoPartition logSize).entriesPerBlock
        (reachView (twoPartition logSize) (twoDisk logSize)) twoInode i =
          if i < 12 + (twoPartition logSize).entriesPerBlock +
            (twoPartition logSize).entriesPerBlock ^ 2 then 1 else 2 :=
  flat_mapped two_i_block (fun which => two_reach fits (by omega) (by omega))
    (fun which _ low => two_pointer fits (by omega) (by omega) low) inside

theorem two_triple (fits : logSize ≤ 20) {count : Nat} (positive : 0 < count)
    (limit : count ≤ ext2ReadFailed) (dest : Mem) :
    (ext2ReadTripleIndirectBlocks reliable (twoPartition logSize) count [i_block twoInode 14] 0
      dest 0 (twoDisk logSize)).dest 0 = 2 := by
  have aligned := twoPartition_aligned fits
  have size := (blockSize_bounds aligned.fits).1
  have cube : 0 < (twoPartition logSize).entriesPerBlock ^ 3 :=
    Nat.pow_pos (entries_positive aligned.fits)
  have root : i_block twoInode 14 = 2 := two_i_block (by decide)
  have leaves := fun {i} (low : i < (twoPartition logSize).entriesPerBlock ^ 3) =>
    @leaf_self (pointer (reachView (twoPartition logSize)) (twoDisk logSize)) _ _ _ _
      (fun k inside => two_pointer fits (b := 2) (by decide) (by decide) inside) low
  have run := (ext2ReadTripleIndirectBlocks_spec (reliable_reads aligned)).inside
    count [i_block twoInode 14] 0 dest 0 (twoDisk logSize) (by rw [rowSize_tree]; exact cube)
    (by
      intro i _ high
      rw [rowSize_tree] at high
      have reach := two_reach fits (b := 2) (by decide) (by decide)
      rw [(row_first high).2, root]
      exact ⟨fun b member => by rw [(leaves high).2 b member]; exact reach,
        by rw [(leaves high).1]; exact reach⟩)
    positive limit (Or.inr (Or.inl rfl))
  have first := @putBlocks_at (twoPartition logSize).blockSize dest 0
    (fun k => rowBlock (twoPartition logSize) (reachView (twoPartition logSize))
      (twoDisk logSize) 3 [i_block twoInode 14] (0 + k))
    (min count (rowSize (twoPartition logSize).entriesPerBlock 3 [i_block twoInode 14] - 0))
    0 0 (by rw [rowSize_tree]; omega) (by omega)
  simp only [Nat.zero_mul, Nat.add_zero] at first
  rw [run]
  dsimp only
  rw [first, rowBlock, (row_first cube).1, root, (leaves cube).1, two_view fits (by decide)
    (by decide) (by omega)]
  rfl

theorem two_edge (fits : logSize ≤ 20) {skip count : Nat} (positive : 0 < count)
    (limit : count ≤ ext2ReadFailed)
    (inside : skip < mapCapacity (twoPartition logSize).entriesPerBlock)
    (edge : SkipsToEdge (twoPartition logSize).entriesPerBlock skip) :
    ¬ ReadsFileBlocks (twoPartition logSize)
      (reachView (twoPartition logSize) (twoDisk logSize)) twoInode 0 skip count
      (ext2ReadInodeBlocks reliable (twoPartition logSize) 1 blank 0 count skip
        (twoDisk logSize)) := by
  have aligned := twoPartition_aligned fits
  have size := (blockSize_bounds aligned.fits).1
  intro right
  have byte := right.2 0 0 positive (by omega)
  rw [ext2ReadInodeBlocks_edge (reliable_reads aligned) (two_inode fits) positive edge inside
    (fun i low => (two_mapped fits (by omega)).1), Nat.zero_mul, Nat.add_zero, Nat.add_zero,
    (two_mapped fits inside).2] at byte
  by_cases double : skip < 12 + (twoPartition logSize).entriesPerBlock +
      (twoPartition logSize).entriesPerBlock ^ 2
  · rw [if_pos double, if_pos double, two_triple fits positive limit,
      two_view fits (by decide) (by decide) (by omega)] at byte
    exact absurd byte (by decide)
  · rw [if_neg double, if_neg double, two_view fits (by decide) (by decide) (by omega)] at byte
    exact absurd byte (by decide)

end TwoBlocks

theorem read_inode_blocks_iff {logSize skip count n : Nat} (fits : logSize ≤ 20)
    (positive : 0 < count) (room : skip + count ≤ n)
    (sized : n ≤ mapCapacity (256 * 2 ^ logSize)) (other : count ≠ 2 ^ 32 - 1) :
    (∀ (σ : Type) (dev : Dev σ) (p : Partition) (valid : Nat → Prop) (view : σ → Nat → Mem)
      (inodeNumber : Nat) (inode dest : Mem) (pos : Nat) (d : σ), p.s_log_block_size = logSize →
      Reads dev p valid view → ext2ReadInode dev p inodeNumber d = (some inode, d) →
      (∀ i, i < n → FileMapped p.entriesPerBlock valid (view d) inode i) →
      ReadsFileBlocks p (view d) inode pos skip count
        (ext2ReadInodeBlocks dev p inodeNumber dest pos count skip d)) ↔
    count < 2 ^ 32 ∧ ¬ SkipsToEdge (256 * 2 ^ logSize) skip := by
  constructor
  · intro right
    have entries := twoPartition_entries fits
    rw [← entries] at sized ⊢
    have sample := right (Nat → Mem) reliable (twoPartition logSize) (InReach _)
      (reachView (twoPartition logSize)) 1 twoInode blank 0 (twoDisk logSize)
      (plainPartition_log fits) (reliable_reads (twoPartition_aligned fits)) (two_inode fits)
      (fun i low => (two_mapped fits (by omega)).1)
    have bound : count < 2 ^ 32 := by
      have returned := sample.1
      rw [ext2ReadInodeBlocks_stages positive (two_inode fits)] at returned
      rw [← returned]
      exact readStages_bound _ _ _ _ _ _ _
    refine ⟨bound, fun edge => two_edge fits positive ?_ (by omega) edge sample⟩
    unfold ext2ReadFailed
    omega
  · rintro ⟨bound, off⟩ σ dev p valid view inodeNumber inode dest pos d rfl reads found mapped
    rw [← entriesPerBlock_eq reads.fits] at off
    have limit : count ≤ ext2ReadFailed := by
      unfold ext2ReadFailed
      omega
    rw [ext2ReadInodeBlocks_map reads found positive limit room off mapped]
    refine ⟨rfl, fun k j low inside => ?_⟩
    have block := putBlocks_at dest pos
      (fun k => view d (blockMap p.entriesPerBlock (view d) inode (skip + k))) low inside
    dsimp only
    rw [block]

/-- Two blocks across the end of the direct pointers. -/
theorem read_inode_blocks_eleven :
    ReadsFileBlocks (twoPartition 0) (reachView (twoPartition 0) (twoDisk 0)) twoInode 0 11 2
      (ext2ReadInodeBlocks reliable (twoPartition 0) 1 blank 0 2 11 (twoDisk 0)) :=
  (@read_inode_blocks_iff 0 11 2 13 (by decide) (by decide) (by decide) (by decide)
    (by decide)).mpr ⟨by decide, fun edge => absurd edge.1 (by decide)⟩ (Nat → Mem) reliable
    (twoPartition 0) (InReach _) (reachView (twoPartition 0)) 1 twoInode blank 0 (twoDisk 0)
    (plainPartition_log (by decide)) (reliable_reads (twoPartition_aligned (by decide)))
    (two_inode (by decide))
    (fun i low => (two_mapped (by decide) (by
      rw [twoPartition_entries (by decide)]
      exact Nat.lt_of_lt_of_le low (by decide))).1)

/-- With blocks of 1 KiB, file block 524 is the first one below the second pointer of the
    double indirect block, and cannot be read. -/
theorem read_inode_blocks_misses :
    ¬ ∀ (σ : Type) (dev : Dev σ) (p : Partition) (valid : Nat → Prop) (view : σ → Nat → Mem)
      (inodeNumber : Nat) (inode dest : Mem) (d : σ) (pos skip count n : Nat),
      Reads dev p valid view → ext2ReadInode dev p inodeNumber d = (some inode, d) →
      (∀ i, i < n → FileMapped p.entriesPerBlock valid (view d) inode i) →
      0 < count → skip + count ≤ n →
      ReadsFileBlocks p (view d) inode pos skip count
        (ext2ReadInodeBlocks dev p inodeNumber dest pos count skip d) := by
  intro all
  have entries := @twoPartition_entries 0 (by decide)
  have inside : 525 ≤ mapCapacity (twoPartition 0).entriesPerBlock := by
    rw [entries]
    decide
  have edge : SkipsToEdge (twoPartition 0).entriesPerBlock 524 := by
    rw [entries]
    unfold SkipsToEdge
    decide
  exact two_edge (by decide) (by decide) (by decide) (by omega) edge
    (all (Nat → Mem) reliable (twoPartition 0) (InReach _) (reachView (twoPartition 0)) 1
      twoInode blank (twoDisk 0) 0 524 1 525 (reliable_reads (twoPartition_aligned (by decide)))
      (two_inode (by decide)) (fun i low => (two_mapped (by decide) (by omega)).1) (by decide)
      (by decide))

end OmenExt2
