import Omen.Ext2.Inode

/- The four readers below `ext2_read_inode_blocks`. They share one skip counter, and a
   reader that returns 0 with the counter at 0 ends the loop of its caller: it may have
   had nothing to read, or it may just have skipped its last block. -/
namespace OmenExt2
open ByteMemory OmenDisk PointerTree

variable {σ : Type}

structure ReadOut (σ : Type) where
  result : Nat
  dest : Mem
  skip : Nat
  disk : σ

abbrev Reader (σ : Type) := Nat → List Nat → Nat → Mem → Nat → σ → ReadOut σ

def readDirectFrom (dev : Dev σ) (p : Partition) (count : Nat) :
    List Nat → Nat → Nat → Mem → Nat → σ → ReadOut σ
  | [], blocksRead, _, dest, skip, d => ⟨blocksRead, dest, skip, d⟩
  | block :: rest, blocksRead, pos, dest, skip, d =>
    if 0 < skip then readDirectFrom dev p count rest blocksRead pos dest (skip - 1) d
    else
      let (readResult, dest', d') := ext2ReadBlock dev p block dest pos d
      if readResult = ext2ReadFailed then ⟨ext2ReadFailed, dest', skip, d'⟩
      else if readResult = 0 then ⟨blocksRead, dest', skip, d'⟩
      else if blocksRead + readResult = count then ⟨blocksRead + readResult, dest', skip, d'⟩
      else readDirectFrom dev p count rest (blocksRead + readResult) (pos + p.blockSize) dest'
        skip d'

def ext2ReadDirectBlocks (dev : Dev σ) (p : Partition) : Reader σ :=
  fun count blocks pos dest skip d => readDirectFrom dev p count blocks 0 pos dest skip d

/-- The loop of the three indirect readers over pointers to pointer blocks. `modulus` is
    that of the type of `blocks_read`, `inner` the reader of the level below. -/
def readNestedFrom (dev : Dev σ) (p : Partition) (modulus : Nat) (inner : Reader σ) (count : Nat) :
    List Nat → Nat → Nat → Mem → Nat → σ → ReadOut σ
  | [], blocksRead, _, dest, skip, d => ⟨blocksRead, dest, skip, d⟩
  | block :: rest, blocksRead, pos, dest, skip, d =>
    let (got, buffer, d') := ext2ReadBlock dev p block blank 0 d
    -- `<= 0` lets the failure code through: only block 0 stops here
    if got = 0 then ⟨ext2ReadFailed, dest, skip, d'⟩
    else
      let out := inner (count - blocksRead) (entries p buffer) pos dest skip d'
      if out.result = ext2ReadFailed ∨ (out.result = 0 ∧ out.skip = 0) then out
      else
        let blocksRead' := (blocksRead + out.result) % modulus
        if blocksRead' = count then ⟨blocksRead', out.dest, out.skip, out.disk⟩
        else readNestedFrom dev p modulus inner count rest blocksRead'
          (pos + out.result * p.blockSize) out.dest out.skip out.disk

def readNested (dev : Dev σ) (p : Partition) (modulus : Nat) (inner : Reader σ) : Reader σ :=
  fun count blocks pos dest skip d =>
    readNestedFrom dev p modulus inner count blocks 0 pos dest skip d

def ext2ReadIndirectBlocks (dev : Dev σ) (p : Partition) : Reader σ :=
  readNested dev p (2 ^ 64) (ext2ReadDirectBlocks dev p)

def ext2ReadDoubleIndirectBlocks (dev : Dev σ) (p : Partition) : Reader σ :=
  readNested dev p (2 ^ 32) (ext2ReadIndirectBlocks dev p)

def ext2ReadTripleIndirectBlocks (dev : Dev σ) (p : Partition) : Reader σ :=
  readNested dev p (2 ^ 32) (ext2ReadDoubleIndirectBlocks dev p)

section Spec
variable {dev : Dev σ} {p : Partition} {valid : Nat → Prop} {view : σ → Nat → Mem}

def rowBlock (p : Partition) (view : σ → Nat → Mem) (d : σ) (level : Nat) (roots : List Nat)
    (i : Nat) : Mem :=
  view d (rowLeaf (pointer view d) p.entriesPerBlock level roots i)

/-- What a reader of trees of `level` levels does on a disk whose reads succeed. Its
    callers misread the last case: skipping ended exactly behind an indirect block. -/
structure ReaderSpec (p : Partition) (valid : Nat → Prop) (view : σ → Nat → Mem) (level : Nat)
    (reader : Reader σ) : Prop where
  past : ∀ count blocks pos dest skip d, rowSize p.entriesPerBlock level blocks ≤ skip →
    (∀ i, i < rowSize p.entriesPerBlock level blocks →
      RowMapped (pointer view d) p.entriesPerBlock valid level blocks i) →
    0 < count →
    reader count blocks pos dest skip d =
      ⟨0, dest, skip - rowSize p.entriesPerBlock level blocks, d⟩
  inside : ∀ count blocks pos dest skip d, skip < rowSize p.entriesPerBlock level blocks →
    (∀ i, i < skip + count → i < rowSize p.entriesPerBlock level blocks →
      RowMapped (pointer view d) p.entriesPerBlock valid level blocks i) →
    0 < count → count ≤ ext2ReadFailed →
    (level = 0 ∨ skip = 0 ∨ skip % p.entriesPerBlock ≠ 0) →
    reader count blocks pos dest skip d =
      ⟨min count (rowSize p.entriesPerBlock level blocks - skip),
        putBlocks p.blockSize dest pos
          (fun k => rowBlock p view d level blocks (skip + k))
          (min count (rowSize p.entriesPerBlock level blocks - skip)), 0, d⟩
  edge : ∀ count blocks pos dest skip d, skip < rowSize p.entriesPerBlock level blocks →
    (∀ i, i < skip → RowMapped (pointer view d) p.entriesPerBlock valid level blocks i) →
    0 < count → 0 < level → 0 < skip → skip % p.entriesPerBlock = 0 →
    reader count blocks pos dest skip d = ⟨0, dest, 0, d⟩

theorem readDirectFrom_drop (count : Nat) (blocks : List Nat) (read pos : Nat) (dest : Mem)
    (skip : Nat) (d : σ) :
    readDirectFrom dev p count blocks read pos dest skip d =
      readDirectFrom dev p count (blocks.drop skip) read pos dest (skip - blocks.length) d :=
  @skip_pointers _ (fun blocks skip => readDirectFrom dev p count blocks read pos dest skip d)
    (fun _ _ skip => by rw [readDirectFrom, if_pos (Nat.succ_pos skip), Nat.add_sub_cancel])
    blocks skip

theorem readDirectFrom_reading (reads : Reads dev p valid view) {count : Nat}
    {blocks : List Nat} {read : Nat} (pos : Nat) (dest : Mem) (d : σ) (more : read < count)
    (mapped : ∀ i, i < count - read → i < blocks.length → valid (blocks.getD i 0)) :
    readDirectFrom dev p count blocks read pos dest 0 d =
      ⟨read + min (count - read) blocks.length,
        putBlocks p.blockSize dest pos (fun k => view d (blocks.getD k 0))
          (min (count - read) blocks.length), 0, d⟩ := by
  induction blocks generalizing read pos dest with
  | nil => simp [readDirectFrom, putBlocks_none]
  | cons block rest ih =>
    have size := (blockSize_bounds reads.fits).1
    have ok : valid block := mapped 0 (by omega) (by simp)
    have step : (1 : Nat) ≠ ext2ReadFailed := by decide
    rw [readDirectFrom, if_neg (Nat.lt_irrefl 0), ext2ReadBlock_valid reads ok]
    simp only [step, ↓reduceIte, Nat.one_ne_zero]
    by_cases last : read + 1 = count
    · have one : min (count - read) (block :: rest).length = 1 := by
        rw [List.length_cons]; omega
      rw [if_pos last, one, putBlocks_one]
      rfl
    · have rest_mapped : ∀ i, i < count - (read + 1) → i < rest.length →
          valid (rest.getD i 0) := by
        intro i low high
        have h := mapped (i + 1) (by omega) (by rw [List.length_cons]; omega)
        simpa using h
      have many : min (count - read) (block :: rest).length =
          1 + min (count - (read + 1)) rest.length := by
        rw [List.length_cons]; omega
      have run := putBlocks_append (by omega : 0 < p.blockSize) dest pos
        (fun k => view d ((block :: rest).getD k 0)) 1 (min (count - (read + 1)) rest.length)
      rw [if_neg last, ih _ _ (by omega) rest_mapped, many, ← run, putBlocks_one]
      simp only [Nat.one_mul, Nat.add_comm 1, List.getD_cons_succ, List.getD_cons_zero]
      congr 1
      omega

theorem ext2ReadDirectBlocks_spec (reads : Reads dev p valid view) :
    ReaderSpec p valid view 0 (ext2ReadDirectBlocks dev p) where
  past := by
    intro count blocks pos dest skip d far _ _
    simp only [rowSize, Nat.pow_zero, Nat.mul_one] at far ⊢
    rw [ext2ReadDirectBlocks, readDirectFrom_drop, List.drop_eq_nil_of_le far, readDirectFrom]
  inside := by
    intro count blocks pos dest skip d near mapped positive _ _
    simp only [rowSize, Nat.pow_zero, Nat.mul_one] at near mapped ⊢
    have dropped : ∀ i, (blocks.drop skip).getD i 0 = blocks.getD (skip + i) 0 := by
      intro i
      simp [List.getD]
    rw [ext2ReadDirectBlocks, readDirectFrom_drop, Nat.sub_eq_zero_of_le (Nat.le_of_lt near),
      readDirectFrom_reading reads _ _ _ positive]
    · simp only [List.length_drop, dropped, Nat.sub_zero, Nat.zero_add, rowBlock, row_leaves]
    · intro i low high
      rw [List.length_drop] at high
      rw [dropped, ← (row_leaves blocks (skip + i)).2 valid]
      exact mapped _ (by omega) (by omega)
  edge := by
    intro count blocks pos dest skip d _ _ _ level
    exact absurd level (Nat.lt_irrefl 0)

theorem first_children (d : σ) {level root i : Nat} (rest : List Nat)
    (inside : i < p.entriesPerBlock ^ (level + 1)) :
    rowBlock p view d level (entries p (view d root)) i =
        rowBlock p view d (level + 1) (root :: rest) i ∧
      (RowMapped (pointer view d) p.entriesPerBlock valid (level + 1) (root :: rest) i →
        RowMapped (pointer view d) p.entriesPerBlock valid level (entries p (view d root)) i) := by
  have first := @row_first (pointer view d) _ _ root _ rest inside
  have children := @row_children (pointer view d) _ valid _ root _ inside
  constructor
  · rw [rowBlock, rowBlock, first.1, ← children.1]
    rfl
  · intro mapped
    exact children.2 ((first.2 valid).mp mapped)

theorem rowBlock_rest (reads : Reads dev p valid view) (d : σ) (level root : Nat)
    (rest : List Nat) (i : Nat) :
    rowBlock p view d level (root :: rest) (p.entriesPerBlock ^ level + i) =
      rowBlock p view d level rest i := by
  rw [rowBlock, rowBlock, (row_rest (entries_positive reads.fits)).1]

theorem readNestedFrom_cons (reads : Reads dev p valid view) {modulus : Nat} {reader : Reader σ}
    {count root : Nat} {rest : List Nat} {read pos : Nat} {dest : Mem} {skip : Nat} {d : σ}
    {out : ReadOut σ} (ok : valid root)
    (call : reader (count - read) (entries p (view d root)) pos dest skip d = out) :
    readNestedFrom dev p modulus reader count (root :: rest) read pos dest skip d =
      if out.result = ext2ReadFailed ∨ (out.result = 0 ∧ out.skip = 0) then out
      else if (read + out.result) % modulus = count then
        ⟨(read + out.result) % modulus, out.dest, out.skip, out.disk⟩
      else readNestedFrom dev p modulus reader count rest ((read + out.result) % modulus)
        (pos + out.result * p.blockSize) out.dest out.skip out.disk := by
  rw [readNestedFrom, ext2ReadBlock_buffer reads ok]
  simp only [Nat.one_ne_zero, ↓reduceIte, call]

section Nested
variable {level modulus : Nat} {reader : Reader σ}

section Reads
variable (reads : Reads dev p valid view) (below : ReaderSpec p valid view level reader)
include reads below

theorem readNestedFrom_first (wide : 2 ^ 32 ≤ modulus) {count : Nat}
    (limit : count ≤ ext2ReadFailed) {root : Nat} {rest : List Nat} {read : Nat} (pos : Nat)
    (dest : Mem) {skip : Nat} (d : σ) (more : read < count)
    (near : skip < p.entriesPerBlock ^ (level + 1))
    (off : level = 0 ∨ skip = 0 ∨ skip % p.entriesPerBlock ≠ 0)
    (mapped : ∀ i, i < skip + (count - read) → i < p.entriesPerBlock ^ (level + 1) →
      RowMapped (pointer view d) p.entriesPerBlock valid (level + 1) (root :: rest) i) :
    readNestedFrom dev p modulus reader count (root :: rest) read pos dest skip d =
      if count - read ≤ p.entriesPerBlock ^ (level + 1) - skip then
        ⟨count, putBlocks p.blockSize dest pos
          (fun k => rowBlock p view d (level + 1) (root :: rest) (skip + k)) (count - read), 0, d⟩
      else readNestedFrom dev p modulus reader count rest
        (read + (p.entriesPerBlock ^ (level + 1) - skip))
        (pos + (p.entriesPerBlock ^ (level + 1) - skip) * p.blockSize)
        (putBlocks p.blockSize dest pos
          (fun k => rowBlock p view d (level + 1) (root :: rest) (skip + k))
          (p.entriesPerBlock ^ (level + 1) - skip)) 0 d := by
  have size : 0 < p.entriesPerBlock ^ (level + 1) := Nat.pow_pos (entries_positive reads.fits)
  have ok : valid root :=
    mapped_root (((row_first size).2 valid).mp (mapped 0 (by omega) size))
  have whole := rowSize_entries p level (view d root)
  have call := below.inside (count - read) (entries p (view d root)) pos dest skip d (by omega)
    (fun i low high => (first_children d rest (by omega)).2 (mapped i (by omega) (by omega)))
    (by omega) (by omega) off
  rw [whole, putBlocks_congr
    (b := fun k => rowBlock p view d (level + 1) (root :: rest) (skip + k))
    (fun k low => (@first_children _ _ valid _ d _ _ _ rest (by omega)).1)] at call
  rw [readNestedFrom_cons reads ok call]
  dsimp only
  unfold ext2ReadFailed at limit ⊢
  by_cases all : count - read ≤ p.entriesPerBlock ^ (level + 1) - skip
  · have now : min (count - read) (p.entriesPerBlock ^ (level + 1) - skip) = count - read := by
      omega
    have done : (read + (count - read)) % modulus = count := by
      rw [Nat.mod_eq_of_lt (by omega)]; omega
    rw [if_pos all, now, done, if_pos rfl]
    split
    · -- a count equal to the failure code comes back as that code
      have start : count - read = count := by omega
      rw [start]
    · rfl
  · have now : min (count - read) (p.entriesPerBlock ^ (level + 1) - skip) =
        p.entriesPerBlock ^ (level + 1) - skip := by omega
    have sum : (read + (p.entriesPerBlock ^ (level + 1) - skip)) % modulus =
        read + (p.entriesPerBlock ^ (level + 1) - skip) := Nat.mod_eq_of_lt (by omega)
    rw [if_neg all, now, sum, if_neg (by omega), if_neg (by omega)]

/-- Skipping: a pointer whose blocks are all to be skipped is passed over, unless they
    are exactly the blocks to be skipped. -/
theorem readNestedFrom_pass {count root : Nat} {rest : List Nat} {read : Nat}
    (same : read % modulus = read) (more : read < count) (pos : Nat) (dest : Mem) {skip : Nat}
    (d : σ) (far : p.entriesPerBlock ^ (level + 1) ≤ skip)
    (mapped : ∀ i, i < p.entriesPerBlock ^ (level + 1) →
      RowMapped (pointer view d) p.entriesPerBlock valid (level + 1) (root :: rest) i) :
    readNestedFrom dev p modulus reader count (root :: rest) read pos dest skip d =
      if skip = p.entriesPerBlock ^ (level + 1) then ⟨0, dest, 0, d⟩
      else readNestedFrom dev p modulus reader count rest read pos dest
        (skip - p.entriesPerBlock ^ (level + 1)) d := by
  have size : 0 < p.entriesPerBlock ^ (level + 1) := Nat.pow_pos (entries_positive reads.fits)
  have ok : valid root := mapped_root (((row_first size).2 valid).mp (mapped 0 size))
  have whole := rowSize_entries p level (view d root)
  have call := below.past (count - read) (entries p (view d root)) pos dest skip d (by omega)
    (fun i high => (first_children d rest (by omega)).2 (mapped i (by omega))) (by omega)
  have zero : (0 : Nat) ≠ ext2ReadFailed := by decide
  rw [readNestedFrom_cons reads ok call, whole]
  simp only [zero, false_or, true_and, Nat.zero_mul, Nat.add_zero, same]
  by_cases exactly : skip = p.entriesPerBlock ^ (level + 1)
  · rw [if_pos exactly, if_pos (by omega), exactly, Nat.sub_self]
  · rw [if_neg exactly, if_neg (by omega), if_neg (by omega)]

theorem readNestedFrom_past {count : Nat} (positive : 0 < count) {roots : List Nat} (pos : Nat)
    (dest : Mem) {skip : Nat} (d : σ) (far : rowSize p.entriesPerBlock (level + 1) roots ≤ skip)
    (mapped : ∀ i, i < rowSize p.entriesPerBlock (level + 1) roots →
      RowMapped (pointer view d) p.entriesPerBlock valid (level + 1) roots i) :
    readNestedFrom dev p modulus reader count roots 0 pos dest skip d =
      ⟨0, dest, skip - rowSize p.entriesPerBlock (level + 1) roots, d⟩ := by
  induction roots generalizing skip with
  | nil => rw [rowSize_nil]; rfl
  | cons root rest ih =>
    have fanout := entries_positive reads.fits
    rw [rowSize_cons] at far mapped ⊢
    rw [readNestedFrom_pass reads below (Nat.zero_mod _) positive pos dest d (by omega)
      (fun i low => mapped i (by omega))]
    split
    · congr 1
      omega
    · rw [ih (by omega)]
      · congr 1
        omega
      · intro i low
        rw [← ((row_rest fanout).2 valid)]
        exact mapped _ (by omega)

end Reads

theorem power_mod (fanout level : Nat) : fanout ^ (level + 1) % fanout = 0 := by
  rw [Nat.pow_succ, Nat.mul_mod_left]

theorem sub_power_mod {fanout level skip : Nat} (far : fanout ^ (level + 1) ≤ skip) :
    (skip - fanout ^ (level + 1)) % fanout = skip % fanout := by
  rw [Nat.pow_succ, Nat.mul_comm] at far ⊢
  exact Nat.sub_mul_mod far

variable (reads : Reads dev p valid view) (below : ReaderSpec p valid view level reader)
include reads below

theorem readNestedFrom_inside (wide : 2 ^ 32 ≤ modulus) {count : Nat}
    (limit : count ≤ ext2ReadFailed) {roots : List Nat} {read : Nat} (pos : Nat) (dest : Mem)
    {skip : Nat} (d : σ) (more : read < count)
    (near : skip ≤ rowSize p.entriesPerBlock (level + 1) roots)
    (off : skip = 0 ∨ skip % p.entriesPerBlock ≠ 0)
    (mapped : ∀ i, i < skip + (count - read) → i < rowSize p.entriesPerBlock (level + 1) roots →
      RowMapped (pointer view d) p.entriesPerBlock valid (level + 1) roots i) :
    readNestedFrom dev p modulus reader count roots read pos dest skip d =
      ⟨read + min (count - read) (rowSize p.entriesPerBlock (level + 1) roots - skip),
        putBlocks p.blockSize dest pos
          (fun k => rowBlock p view d (level + 1) roots (skip + k))
          (min (count - read) (rowSize p.entriesPerBlock (level + 1) roots - skip)), 0, d⟩ := by
  induction roots generalizing read pos dest skip with
  | nil =>
    rw [rowSize_nil, Nat.le_zero_eq] at near
    simp [readNestedFrom, rowSize_nil, near, putBlocks_none]
  | cons root rest ih =>
    have fanout := entries_positive reads.fits
    have size : 0 < p.entriesPerBlock ^ (level + 1) := Nat.pow_pos fanout
    have block := (blockSize_bounds reads.fits).1
    have behind : ∀ i, p.entriesPerBlock ^ (level + 1) + i < skip + (count - read) →
        i < rowSize p.entriesPerBlock (level + 1) rest →
        RowMapped (pointer view d) p.entriesPerBlock valid (level + 1) rest i := by
      intro i low high
      rw [← ((row_rest fanout).2 valid)]
      exact mapped _ low (by rw [rowSize_cons]; omega)
    rw [rowSize_cons] at near mapped ⊢
    by_cases far : p.entriesPerBlock ^ (level + 1) ≤ skip
    · have other : skip ≠ p.entriesPerBlock ^ (level + 1) := by
        intro exactly
        rw [exactly, power_mod] at off
        omega
      have small : read % modulus = read := by
        unfold ext2ReadFailed at limit
        exact Nat.mod_eq_of_lt (by omega)
      have shift : ∀ k, skip + k = p.entriesPerBlock ^ (level + 1) +
          (skip - p.entriesPerBlock ^ (level + 1) + k) := by omega
      have left : p.entriesPerBlock ^ (level + 1) + rowSize p.entriesPerBlock (level + 1) rest -
          skip = rowSize p.entriesPerBlock (level + 1) rest -
            (skip - p.entriesPerBlock ^ (level + 1)) := by omega
      rw [readNestedFrom_pass reads below small more pos dest d far
        (fun i low => mapped i (by omega) (by omega)), if_neg other, ih _ _ more (by omega)
        (Or.inr (by rw [sub_power_mod far]; omega)) (fun i low => behind i (by omega)), left]
      simp only [shift, rowBlock_rest reads]
    · rw [readNestedFrom_first reads below wide limit pos dest d more (by omega)
        (Or.inr off) (fun i low high => mapped i (by omega) (by omega))]
      split
      · have final : min (count - read) (p.entriesPerBlock ^ (level + 1) +
            rowSize p.entriesPerBlock (level + 1) rest - skip) = count - read := by omega
        rw [final]
        congr 1
        omega
      · have final : min (count - read) (p.entriesPerBlock ^ (level + 1) +
            rowSize p.entriesPerBlock (level + 1) rest - skip) =
            p.entriesPerBlock ^ (level + 1) - skip +
              min (count - (read + (p.entriesPerBlock ^ (level + 1) - skip)))
                (rowSize p.entriesPerBlock (level + 1) rest) := by omega
        have shift : ∀ k, skip + (p.entriesPerBlock ^ (level + 1) - skip + k) =
            p.entriesPerBlock ^ (level + 1) + k := by omega
        rw [ih _ _ (by omega) (Nat.zero_le _) (Or.inl rfl) (fun i low => behind i (by omega)),
          final, ← putBlocks_append (by omega), Nat.sub_zero, Nat.add_assoc]
        simp only [shift, rowBlock_rest reads, Nat.zero_add]

theorem readNestedFrom_edge {count : Nat} (positive : 0 < count) {roots : List Nat} (pos : Nat)
    (dest : Mem) {skip : Nat} (d : σ) (near : skip < rowSize p.entriesPerBlock (level + 1) roots)
    (some : 0 < skip) (even : skip % p.entriesPerBlock = 0)
    (mapped : ∀ i, i < skip →
      RowMapped (pointer view d) p.entriesPerBlock valid (level + 1) roots i) :
    readNestedFrom dev p modulus reader count roots 0 pos dest skip d = ⟨0, dest, 0, d⟩ := by
  induction roots generalizing skip with
  | nil => rw [rowSize_nil] at near; omega
  | cons root rest ih =>
    have fanout := entries_positive reads.fits
    have size : 0 < p.entriesPerBlock ^ (level + 1) := Nat.pow_pos fanout
    rw [rowSize_cons] at near
    by_cases far : p.entriesPerBlock ^ (level + 1) ≤ skip
    · rw [readNestedFrom_pass reads below (Nat.zero_mod _) positive pos dest d far
        (fun i low => mapped i (by omega))]
      split
      · rfl
      · refine ih (by omega) (by omega) (by rw [sub_power_mod far, even]) ?_
        intro i low
        rw [← ((row_rest fanout).2 valid)]
        exact mapped _ (by omega)
    · have deep : 0 < level := by
        by_contra flat
        have zero : level = 0 := by omega
        rw [zero, Nat.zero_add, Nat.pow_one] at far
        rw [Nat.mod_eq_of_lt (by omega)] at even
        omega
      have ok : valid root := mapped_root (((row_first size).2 valid).mp (mapped 0 some))
      have call := below.edge (count - 0) (entries p (view d root)) pos dest skip d
        (by rw [rowSize_entries]; omega)
        (fun i low => (first_children d rest (by omega)).2 (mapped i low)) (by omega) deep some even
      rw [readNestedFrom_cons reads ok call, if_pos (Or.inr ⟨rfl, rfl⟩)]

theorem readNested_spec (wide : 2 ^ 32 ≤ modulus) :
    ReaderSpec p valid view (level + 1) (readNested dev p modulus reader) where
  past := fun _ _ pos dest _ d far mapped positive =>
    readNestedFrom_past reads below positive pos dest d far mapped
  inside := by
    intro count blocks pos dest skip d near mapped positive limit off
    have run := readNestedFrom_inside reads below wide limit pos dest d positive (Nat.le_of_lt near)
      (off.resolve_left (Nat.succ_ne_zero level)) mapped
    rw [Nat.zero_add, Nat.sub_zero] at run
    exact run
  edge := fun _ _ pos dest _ d near mapped positive _ some even =>
    readNestedFrom_edge reads below positive pos dest d near some even mapped

end Nested

theorem ext2ReadIndirectBlocks_spec (reads : Reads dev p valid view) :
    ReaderSpec p valid view 1 (ext2ReadIndirectBlocks dev p) :=
  readNested_spec reads (ext2ReadDirectBlocks_spec reads) (by decide)

theorem ext2ReadDoubleIndirectBlocks_spec (reads : Reads dev p valid view) :
    ReaderSpec p valid view 2 (ext2ReadDoubleIndirectBlocks dev p) :=
  readNested_spec reads (ext2ReadIndirectBlocks_spec reads) (by decide)

theorem ext2ReadTripleIndirectBlocks_spec (reads : Reads dev p valid view) :
    ReaderSpec p valid view 3 (ext2ReadTripleIndirectBlocks dev p) :=
  readNested_spec reads (ext2ReadDoubleIndirectBlocks_spec reads) (by decide)

end Spec

end OmenExt2
