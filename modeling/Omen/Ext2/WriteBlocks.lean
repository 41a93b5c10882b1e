import Omen.Ext2.Inode

/- The four writers below `ext2_write_inode_blocks`. They mirror the readers but for one
   rule: a result of 0 always ends the loop of the caller, so that no writer above the
   direct one can skip a whole indirect block. -/
namespace OmenExt2
open ByteMemory OmenDisk PointerTree

variable {σ : Type}

structure WriteOut (σ : Type) where
  result : Nat
  skip : Nat
  disk : σ

/-- A writer takes the block count, an array of pointers, a place in the source and `*skip`. -/
abbrev Writer (σ : Type) := Nat → List Nat → Mem → Nat → Nat → σ → WriteOut σ

def writeDirectFrom (dev : Dev σ) (p : Partition) (count : Nat) (source : Mem) :
    List Nat → Nat → Nat → Nat → σ → WriteOut σ
  | [], blocksWritten, _, skip, d => ⟨blocksWritten, skip, d⟩
  | block :: rest, blocksWritten, pos, skip, d =>
    if 0 < skip then writeDirectFrom dev p count source rest blocksWritten pos (skip - 1) d
    else
      let (writeResult, d') := ext2WriteBlock dev p block (advance source pos) d
      if writeResult = ext2WriteFailed then ⟨ext2WriteFailed, skip, d'⟩
      else if writeResult = 0 then ⟨blocksWritten, skip, d'⟩
      else if blocksWritten + writeResult = count then ⟨blocksWritten + writeResult, skip, d'⟩
      else writeDirectFrom dev p count source rest (blocksWritten + writeResult)
        (pos + p.blockSize) skip d'

def ext2WriteDirectBlocks (dev : Dev σ) (p : Partition) : Writer σ :=
  fun count blocks source pos skip d => writeDirectFrom dev p count source blocks 0 pos skip d

def writeNestedFrom (dev : Dev σ) (p : Partition) (modulus : Nat) (inner : Writer σ)
    (count : Nat) (source : Mem) : List Nat → Nat → Nat → Nat → σ → WriteOut σ
  | [], blocksWritten, _, skip, d => ⟨blocksWritten, skip, d⟩
  | block :: rest, blocksWritten, pos, skip, d =>
    let (got, buffer, d') := ext2ReadBlock dev p block blank 0 d
    if got = 0 then ⟨ext2WriteFailed, skip, d'⟩
    else
      let out := inner (count - blocksWritten) (entries p buffer) source pos skip d'
      -- unlike the readers, without a look at `*skip`
      if out.result = ext2WriteFailed ∨ out.result = 0 then out
      else
        let blocksWritten' := (blocksWritten + out.result) % modulus
        if blocksWritten' = count then ⟨blocksWritten', out.skip, out.disk⟩
        else writeNestedFrom dev p modulus inner count source rest blocksWritten'
          (pos + out.result * p.blockSize) out.skip out.disk

def writeNested (dev : Dev σ) (p : Partition) (modulus : Nat) (inner : Writer σ) : Writer σ :=
  fun count blocks source pos skip d =>
    writeNestedFrom dev p modulus inner count source blocks 0 pos skip d

def ext2WriteIndirectBlocks (dev : Dev σ) (p : Partition) : Writer σ :=
  writeNested dev p (2 ^ 64) (ext2WriteDirectBlocks dev p)

def ext2WriteDoubleIndirectBlocks (dev : Dev σ) (p : Partition) : Writer σ :=
  writeNested dev p (2 ^ 32) (ext2WriteIndirectBlocks dev p)

def ext2WriteTripleIndirectBlocks (dev : Dev σ) (p : Partition) : Writer σ :=
  writeNested dev p (2 ^ 32) (ext2WriteDoubleIndirectBlocks dev p)

section Spec
variable {dev : Dev σ} {p : Partition} {valid : Nat → Prop} {view : σ → Nat → Mem}

/-- What a writer of trees of `level` levels does once nothing is left to skip, on a disk
    that stores whole blocks. -/
def WriterSpec (p : Partition) (valid : Nat → Prop) (view : σ → Nat → Mem) (level : Nat)
    (writer : Writer σ) : Prop :=
  ∀ (count : Nat) (blocks : List Nat) (source : Mem) (pos : Nat) (d : σ), 0 < count →
    count ≤ ext2WriteFailed →
    Separate (rowLeaf (pointer view d) p.entriesPerBlock level blocks)
      (rowPath (pointer view d) p.entriesPerBlock level blocks) valid
      (min count (rowSize p.entriesPerBlock level blocks)) →
    ∃ d', writer count blocks source pos 0 d =
        ⟨min count (rowSize p.entriesPerBlock level blocks), 0, d'⟩ ∧
      StoredRun p.blockSize source pos (rowLeaf (pointer view d) p.entriesPerBlock level blocks)
        (min count (rowSize p.entriesPerBlock level blocks)) (view d) (view d')

theorem writeDirectFrom_drop (count : Nat) (source : Mem) (blocks : List Nat) (written pos : Nat)
    (skip : Nat) (d : σ) :
    writeDirectFrom dev p count source blocks written pos skip d =
      writeDirectFrom dev p count source (blocks.drop skip) written pos (skip - blocks.length) d :=
  @skip_pointers _ (fun blocks skip => writeDirectFrom dev p count source blocks written pos skip d)
    (fun _ _ skip => by rw [writeDirectFrom, if_pos (Nat.succ_pos skip), Nat.add_sub_cancel])
    blocks skip

variable (stores : Stores dev p p.blockSize valid view)
include stores

theorem writeDirectFrom_writing {count : Nat} (source : Mem) (blocks : List Nat) {written : Nat}
    (pos : Nat) (d : σ) (more : written < count)
    (separate : Separate (fun i => blocks.getD i 0) (fun _ => []) valid
      (min (count - written) blocks.length)) :
    ∃ d', writeDirectFrom dev p count source blocks written pos 0 d =
        ⟨written + min (count - written) blocks.length, 0, d'⟩ ∧
      StoredRun p.blockSize source pos (fun i => blocks.getD i 0)
        (min (count - written) blocks.length) (view d) (view d') := by
  induction blocks generalizing written pos d with
  | nil =>
    rw [List.length_nil, Nat.min_zero]
    exact ⟨d, rfl, storedRun_none _ _ _ _ _⟩
  | cons block rest ih =>
    rw [List.length_cons] at separate ⊢
    have ok : valid block := separate.leaf_valid (i := 0) (by omega)
    have step : (1 : Nat) ≠ ext2WriteFailed := by decide
    obtain ⟨d1, run, after⟩ := ext2WriteBlock_valid stores ok (advance source pos) d
    have one : StoredRun p.blockSize source pos (fun i => (block :: rest).getD i 0) 1 (view d)
        (view d1) := storedRun_one after
    rw [writeDirectFrom, if_neg (Nat.lt_irrefl 0), run]
    simp only [step, ↓reduceIte, Nat.one_ne_zero]
    by_cases last : written + 1 = count
    · have only : min (count - written) (rest.length + 1) = 1 := by omega
      rw [if_pos last, only]
      exact ⟨d1, rfl, one⟩
    · have many : min (count - written) (rest.length + 1) =
          1 + min (count - (written + 1)) rest.length := by omega
      rw [many] at separate ⊢
      have behind : ∀ t, rest.getD t 0 = (block :: rest).getD (1 + t) 0 := by
        intro t
        rw [Nat.add_comm, List.getD_cons_succ]
      obtain ⟨d2, run2, two⟩ := ih (pos + p.blockSize) d1 (by omega)
        (separate.part 1 (Nat.le_refl _) (fun t _ => behind t) (fun _ _ _ member => member))
      rw [if_neg last]
      refine ⟨d2, ?_, one.append (by rwa [Nat.one_mul]) (fun t _ => behind t)
        (fun i t low high => separate.distinct (by omega) (by omega) (by omega))⟩
      rw [run2, Nat.add_assoc]

theorem ext2WriteDirectBlocks_spec : WriterSpec p valid view 0 (ext2WriteDirectBlocks dev p) := by
  intro count blocks source pos d positive _ separate
  have leaves : rowLeaf (pointer view d) p.entriesPerBlock 0 blocks = fun i => blocks.getD i 0 :=
    funext fun i => (row_leaves blocks i).1
  simp only [rowSize, Nat.pow_zero, Nat.mul_one, leaves] at separate ⊢
  obtain ⟨d', run, stored⟩ := writeDirectFrom_writing stores source blocks pos d
    positive (separate.part 0 (by omega) (fun i _ => by rw [Nat.zero_add])
      (fun _ _ _ member => absurd member List.not_mem_nil))
  rw [Nat.zero_add] at run
  exact ⟨d', run, stored⟩

theorem writeNestedFrom_writing {level : Nat} {writer : Writer σ}
    (below : WriterSpec p valid view level writer) {modulus : Nat} (wide : 2 ^ 32 ≤ modulus)
    {count : Nat} (limit : count ≤ ext2WriteFailed) (source : Mem) (roots : List Nat)
    {written : Nat} (pos : Nat) (d : σ) (more : written < count)
    (separate : Separate (rowLeaf (pointer view d) p.entriesPerBlock (level + 1) roots)
      (rowPath (pointer view d) p.entriesPerBlock (level + 1) roots) valid
      (min (count - written) (rowSize p.entriesPerBlock (level + 1) roots))) :
    ∃ d', writeNestedFrom dev p modulus writer count source roots written pos 0 d =
        ⟨written + min (count - written) (rowSize p.entriesPerBlock (level + 1) roots), 0, d'⟩ ∧
      StoredRun p.blockSize source pos
        (rowLeaf (pointer view d) p.entriesPerBlock (level + 1) roots)
        (min (count - written) (rowSize p.entriesPerBlock (level + 1) roots)) (view d)
        (view d') := by
  induction roots generalizing written pos d with
  | nil =>
    rw [rowSize_nil, Nat.min_zero]
    exact ⟨d, rfl, storedRun_none _ _ _ _ _⟩
  | cons root rest ih =>
    have fanout := entries_positive stores.fits
    have size : 0 < p.entriesPerBlock ^ (level + 1) := Nat.pow_pos fanout
    rw [rowSize_cons] at separate ⊢
    have ok : valid root := separate.path_valid (i := 0) (by omega) root
      (by rw [(entries_row view d rest size).2]; exact List.mem_cons_self)
    have here : Separate
        (rowLeaf (pointer view d) p.entriesPerBlock level (entries p (view d root)))
        (rowPath (pointer view d) p.entriesPerBlock level (entries p (view d root))) valid
        (min (count - written) (rowSize p.entriesPerBlock level (entries p (view d root)))) := by
      rw [rowSize_entries]
      refine separate.part 0 (by omega) (fun i low => ?_) (fun i low b member => ?_)
      · rw [Nat.zero_add, (entries_row view d rest (by omega)).1]
      · rw [Nat.zero_add, (entries_row view d rest (by omega)).2]
        exact List.mem_cons_of_mem root member
    obtain ⟨d1, run, stored⟩ := below _ _ source pos d (by omega) (by omega) here
    rw [rowSize_entries] at run stored
    have one := stored.congr (fun k low => (entries_row view d rest (by omega)).1)
    rw [writeNestedFrom, ext2ReadBlock_buffer stores.toReads ok]
    simp only [Nat.one_ne_zero, ↓reduceIte, run]
    unfold ext2WriteFailed at limit ⊢
    by_cases all : count - written ≤ p.entriesPerBlock ^ (level + 1)
    · have now : min (count - written) (p.entriesPerBlock ^ (level + 1)) = count - written := by
        omega
      have final : min (count - written) (p.entriesPerBlock ^ (level + 1) +
          rowSize p.entriesPerBlock (level + 1) rest) = count - written := by omega
      have done : (written + (count - written)) % modulus = count := by
        rw [Nat.mod_eq_of_lt (by omega)]; omega
      rw [now] at one
      rw [now, final, done, if_pos rfl]
      refine ⟨d1, ?_, one⟩
      split
      · -- a count equal to the failure code comes back as that code
        congr 1
        omega
      · congr 1
        omega
    · have now : min (count - written) (p.entriesPerBlock ^ (level + 1)) =
          p.entriesPerBlock ^ (level + 1) := by omega
      have final : min (count - written) (p.entriesPerBlock ^ (level + 1) +
          rowSize p.entriesPerBlock (level + 1) rest) = p.entriesPerBlock ^ (level + 1) +
          min (count - (written + p.entriesPerBlock ^ (level + 1)))
            (rowSize p.entriesPerBlock (level + 1) rest) := by omega
      have sum : (written + p.entriesPerBlock ^ (level + 1)) % modulus =
          written + p.entriesPerBlock ^ (level + 1) := Nat.mod_eq_of_lt (by omega)
      rw [now] at one
      rw [final] at separate
      -- the pointers still to be followed are in none of the blocks just written
      have same : ∀ i, i < min (count - (written + p.entriesPerBlock ^ (level + 1)))
          (rowSize p.entriesPerBlock (level + 1) rest) →
          rowLeaf (pointer view d1) p.entriesPerBlock (level + 1) rest i =
              rowLeaf (pointer view d) p.entriesPerBlock (level + 1) (root :: rest)
                (p.entriesPerBlock ^ (level + 1) + i) ∧
            rowPath (pointer view d1) p.entriesPerBlock (level + 1) rest i =
              rowPath (pointer view d) p.entriesPerBlock (level + 1) (root :: rest)
                (p.entriesPerBlock ^ (level + 1) + i) := by
        intro i low
        rw [(row_rest fanout).1, rowPath_rest fanout]
        refine row_congr (fun b member => pointer_congr (one.kept b (fun k high hit => ?_)))
        refine separate.apart (i := k) (j := p.entriesPerBlock ^ (level + 1) + i) (by omega)
          (by omega) ?_
        rw [← hit, rowPath_rest fanout]
        exact member
      obtain ⟨d2, run2, two⟩ := ih (pos + p.entriesPerBlock ^ (level + 1) * p.blockSize) d1
        (by omega) (separate.part _ (Nat.le_refl _) (fun i low => (same i low).1)
          (fun i low b member => by rwa [(same i low).2] at member))
      rw [now, final, sum, if_neg (by omega), if_neg (by omega), run2, Nat.add_assoc]
      exact ⟨d2, rfl, one.append two (fun t low => (same t low).1)
        (fun i t low high => separate.distinct (by omega) (by omega) (by omega))⟩

theorem writeNested_spec {level : Nat} {writer : Writer σ}
    (below : WriterSpec p valid view level writer) {modulus : Nat} (wide : 2 ^ 32 ≤ modulus) :
    WriterSpec p valid view (level + 1) (writeNested dev p modulus writer) := by
  intro count blocks source pos d positive limit separate
  have run := writeNestedFrom_writing stores below wide limit source blocks pos d
    positive (by rwa [Nat.sub_zero])
  rwa [Nat.sub_zero, Nat.zero_add] at run

theorem ext2WriteIndirectBlocks_spec : WriterSpec p valid view 1 (ext2WriteIndirectBlocks dev p) :=
  writeNested_spec stores (ext2WriteDirectBlocks_spec stores) (by decide)

theorem ext2WriteDoubleIndirectBlocks_spec :
    WriterSpec p valid view 2 (ext2WriteDoubleIndirectBlocks dev p) :=
  writeNested_spec stores (ext2WriteIndirectBlocks_spec stores) (by decide)

theorem ext2WriteTripleIndirectBlocks_spec :
    WriterSpec p valid view 3 (ext2WriteTripleIndirectBlocks dev p) :=
  writeNested_spec stores (ext2WriteDoubleIndirectBlocks_spec stores) (by decide)

end Spec

end OmenExt2
