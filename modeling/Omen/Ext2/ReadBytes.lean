import Omen.Ext2.BlockFile

/- `ext2_read_inode_bytes` over an array of blocks: the rest of the first block, whole
   blocks, the start of the last one. The number of whole blocks is taken from the count
   alone, so that an unaligned read may run past the end of its range. -/
namespace OmenExt2
open ByteMemory

variable {σ : Type}

def remainingBytes (count moved : Nat) : Int := ((count : Int) - moved).bmod (2 ^ 64)

theorem remainingBytes_eq {count moved : Nat} (small : count < 2 ^ 62) (near : moved < 2 ^ 62) :
    remainingBytes count moved = (count : Int) - moved := by
  unfold remainingBytes
  exact Int.bmod_eq_of_le (by omega) (by omega)

/-- Where a byte-level read stands: `destination_buffer` and its distance from the start,
    `skip_blocks`, `read_bytes` and the disk. -/
structure ByteRead (σ : Type) where
  dest : Mem
  pos : Nat
  skipBlocks : Nat
  readBytes : Nat
  disk : σ

def readHead (ops : FileOps σ) (size skip : Nat) (dest : Mem) (d : σ) :
    Except (Nat × Mem × σ) (ByteRead σ) :=
  if skip % size ≠ 0 then
    let (result, temp, d') := ops.readBlocks blank 0 1 (skip / size) d
    if result ≠ 1 then .error (ext2ReadFailed, dest, d')
    else .ok ⟨memcpy dest 0 (advance temp (skip % size)) (size - skip % size), size - skip % size,
      skip / size + 1, size - skip % size, d'⟩
  else .ok ⟨dest, 0, skip / size, 0, d⟩

def readMiddle (ops : FileOps σ) (size count : Nat) (s : ByteRead σ) :
    Except (Nat × Mem × σ) (ByteRead σ) :=
  if 0 < remainingBytes count s.readBytes then
    let (result, dest', d') := ops.readBlocks s.dest s.pos
      (divideRoundedUp (2 ^ 64) count size - 1) s.skipBlocks s.disk
    if result = ext2ReadFailed then .error (ext2ReadFailed, dest', d')
    else .ok ⟨dest', s.pos + result * size, s.skipBlocks + result, s.readBytes + result * size, d'⟩
  else .ok s

def readTail (ops : FileOps σ) (count : Nat) (s : ByteRead σ) :
    Except (Nat × Mem × σ) (ByteRead σ) :=
  if 0 < remainingBytes count s.readBytes then
    let (result, temp, d') := ops.readBlocks blank 0 1 s.skipBlocks s.disk
    if result ≠ 1 then .error (ext2ReadFailed, s.dest, d')
    else .ok { s with
      dest := memcpy s.dest s.pos temp (remainingBytes count s.readBytes).toNat
      readBytes := s.readBytes + (remainingBytes count s.readBytes).toNat
      disk := d' }
  else .ok s

def ext2ReadInodeBytes (ops : FileOps σ) (p : Partition) (dest : Mem) (count skip : Nat) (d : σ) :
    Nat × Mem × σ :=
  let run := do
    let head ← readHead ops p.blockSize skip dest d
    let middle ← readMiddle ops p.blockSize count head
    readTail ops count middle
  match run with
  | .ok s => (s.readBytes, s.dest, s.disk)
  | .error out => out

structure DeliversBytes (size : Nat) (file : Nat → Mem) (dest : Mem) (skip count : Nat)
    (out : Nat × Mem × σ) : Prop where
  returned : out.1 = count
  filled : ∀ i, i < count → out.2.1 i = fileByte size file (skip + i)
  rest : ∀ i, count ≤ i → out.2.1 i = dest i

/-- Between the stages: what has been read so far is in place, and ends at a block. -/
structure Delivered (size : Nat) (file : Nat → Mem) (dest : Mem) (skip : Nat) (d : σ)
    (s : ByteRead σ) : Prop where
  place : s.pos = s.readBytes
  block : s.skipBlocks * size = skip + s.readBytes
  disk : s.disk = d
  filled : ∀ i, i < s.readBytes → s.dest i = fileByte size file (skip + i)
  rest : ∀ i, s.readBytes ≤ i → s.dest i = dest i

section Stages
variable {ops : FileOps σ} {good : σ → Prop} {size blocks : Nat} {file : σ → Nat → Mem} {d : σ}
  (array : ReadArray ops good size blocks file) (start : good d)
include array start

theorem readHead_delivered (positive : 0 < size) {skip : Nat} (inside : skip < blocks * size)
    (dest : Mem) :
    ∃ s, readHead ops size skip dest d = .ok s ∧ Delivered size (file d) dest skip d s ∧
      s.readBytes = if skip % size = 0 then 0 else size - skip % size := by
  have split := Nat.div_add_mod skip size
  have small := Nat.mod_lt skip positive
  by_cases aligned : skip % size = 0
  · refine ⟨⟨dest, 0, skip / size, 0, d⟩, by simp [readHead, aligned], ?_, by simp [aligned]⟩
    refine ⟨rfl, ?_, rfl, fun i low => absurd low (Nat.not_lt_zero i), fun _ _ => rfl⟩
    dsimp only
    rw [Nat.mul_comm]
    omega
  · have first : skip / size < blocks := (Nat.div_lt_iff_lt_mul positive).mpr inside
    refine ⟨_, by simp [readHead, aligned, array.block start first]; rfl, ?_,
      by simp [aligned]⟩
    refine ⟨rfl, ?_, rfl, ?_, ?_⟩
    · dsimp only
      rw [Nat.add_mul, Nat.one_mul, Nat.mul_comm]
      omega
    · intro i low
      dsimp only at low ⊢
      have place : skip + i = skip / size * size + (skip % size + i) := by
        rw [Nat.mul_comm]
        omega
      rw [memcpy_inside (by omega) (by omega), advance, memcpy_inside (by omega) (by omega), place,
        fileByte_block _ _ (by omega)]
      simp
    · intro i low
      dsimp only at low ⊢
      rw [memcpy_outside (by omega)]

theorem readMiddle_delivered (large : 2 ≤ size) (fits : size ≤ 2 ^ 30) {skip count : Nat}
    (small : count < 2 ^ 32) (positive : 0 < count) (room : skip + count ≤ blocks * size)
    {dest : Mem} {s : ByteRead σ} (before : Delivered size (file d) dest skip d s)
    (short : s.readBytes < size) :
    ∃ s', readMiddle ops size count s = .ok s' ∧ Delivered size (file d) dest skip d s' ∧
      s'.readBytes = if s.readBytes < count then
        s.readBytes + (divideRoundedUp (2 ^ 64) count size - 1) * size else s.readBytes := by
  obtain ⟨covers, under⟩ := @divideRoundedUp_bounds (2 ^ 64) count size (by omega) (by omega)
  by_cases more : s.readBytes < count
  · have left : 0 < remainingBytes count s.readBytes := by
      rw [remainingBytes_eq (by omega) (by omega)]
      omega
    rw [readMiddle, if_pos left, if_pos more]
    generalize divideRoundedUp (2 ^ 64) count size = rounded at covers under ⊢
    have some : 0 < rounded := by
      by_contra zero
      have none : rounded = 0 := by omega
      rw [none, Nat.zero_mul] at covers
      omega
    obtain ⟨whole, rfl⟩ : ∃ whole, rounded = whole + 1 := ⟨rounded - 1, by omega⟩
    rw [Nat.add_mul, Nat.one_mul] at under
    have fewer : whole * 2 ≤ whole * size := Nat.mul_le_mul_left whole large
    have inside : s.skipBlocks + whole ≤ blocks := by
      have block := before.block
      have bound : (s.skipBlocks + whole) * size < (blocks + 1) * size := by
        rw [Nat.add_mul, Nat.add_mul, Nat.one_mul]
        omega
      have less := Nat.lt_of_mul_lt_mul_right bound
      omega
    have other : whole ≠ ext2ReadFailed := by
      unfold ext2ReadFailed
      omega
    rw [before.disk, Nat.add_sub_cancel, array.read start _ _ _ _ inside]
    simp only [other, ↓reduceIte]
    refine ⟨_, rfl, ⟨?_, ?_, rfl, ?_, ?_⟩, rfl⟩
    · rw [before.place]
    · rw [Nat.add_mul, before.block, Nat.add_assoc]
    · intro i low
      dsimp only at low ⊢
      by_cases old : i < s.readBytes
      · have out : ¬ (s.pos ≤ i ∧ i < s.pos + whole * size) := by
          rw [before.place]
          omega
        rw [putBlocks, if_neg out, before.filled i old]
      · have here : s.pos ≤ i ∧ i < s.pos + whole * size := by
          rw [before.place]
          omega
        have place : skip + i = s.skipBlocks * size + (i - s.pos) := by
          rw [before.block, before.place]
          omega
        rw [putBlocks, if_pos here, place, fileByte_from (by omega)]
    · intro i late
      dsimp only at late ⊢
      have out : ¬ (s.pos ≤ i ∧ i < s.pos + whole * size) := by
        rw [before.place]
        omega
      rw [putBlocks, if_neg out, before.rest i (by omega)]
  · have left : ¬ 0 < remainingBytes count s.readBytes := by
      rw [remainingBytes_eq (by omega) (by omega)]
      omega
    rw [readMiddle, if_neg left, if_neg more]
    exact ⟨s, rfl, before, rfl⟩

theorem readTail_delivered {skip count : Nat} (small : count < 2 ^ 32)
    (room : skip + count ≤ blocks * size) {dest : Mem} {s : ByteRead σ}
    (before : Delivered size (file d) dest skip d s) (near : s.readBytes < 2 ^ 62)
    (last : count ≤ s.readBytes + size) :
    ∃ s', readTail ops count s = .ok s' ∧ s'.disk = d ∧
      if s.readBytes ≤ count then DeliversBytes size (file d) dest skip count
        (s'.readBytes, s'.dest, s'.disk)
      else s'.readBytes = s.readBytes := by
  by_cases more : s.readBytes < count
  · have left : remainingBytes count s.readBytes = ((count - s.readBytes : Nat) : Int) := by
      rw [remainingBytes_eq (by omega) near]
      omega
    have inside : s.skipBlocks < blocks := by
      have block := before.block
      exact Nat.lt_of_mul_lt_mul_right (show s.skipBlocks * size < blocks * size by omega)
    rw [readTail, left, if_pos (by omega), before.disk, array.block start inside,
      Int.toNat_natCast]
    refine ⟨_, by simp; rfl, rfl, ?_⟩
    rw [if_pos (by omega)]
    refine ⟨?_, ?_, ?_⟩
    · dsimp only
      omega
    · intro i low
      dsimp only
      by_cases old : i < s.readBytes
      · rw [memcpy_outside (by rw [before.place]; omega), before.filled i old]
      · have place : skip + i = s.skipBlocks * size + (i - s.pos) := by
          rw [before.block, before.place]
          omega
        have here : i - s.pos < size := by
          rw [before.place]
          omega
        rw [memcpy_inside (by rw [before.place]; omega) (by rw [before.place]; omega),
          memcpy_inside (by omega) (by omega), Nat.sub_zero, place, fileByte_block _ _ here]
    · intro i late
      dsimp only
      rw [memcpy_outside (by rw [before.place]; omega), before.rest i (by omega)]
  · have left : ¬ 0 < remainingBytes count s.readBytes := by
      rw [remainingBytes_eq (by omega) near]
      omega
    rw [readTail, if_neg left]
    refine ⟨s, rfl, before.disk, ?_⟩
    split
    · have all : s.readBytes = count := by omega
      rw [← all]
      exact ⟨rfl, before.filled, before.rest⟩
    · rfl

end Stages

theorem last_bytes {count size rounded : Nat} (positive : 0 < count)
    (covers : count ≤ rounded * size) (under : rounded * size < count + size) :
    (rounded - 1) * size + ((count - 1) % size + 1) = count ∧ 0 < rounded := by
  have some : 0 < rounded := by
    by_contra zero
    have none : rounded = 0 := by omega
    rw [none, Nat.zero_mul] at covers
    omega
  obtain ⟨whole, rfl⟩ : ∃ whole, rounded = whole + 1 := ⟨rounded - 1, by omega⟩
  rw [Nat.add_mul, Nat.one_mul] at covers under
  have place : count - 1 = size * whole + (count - 1 - whole * size) := by
    rw [Nat.mul_comm size whole]
    omega
  have rest : (count - 1) % size = count - 1 - whole * size := by
    rw [place, Nat.mul_add_mod, Nat.mod_eq_of_lt]
    · omega
    · omega
  rw [rest, Nat.add_sub_cancel]
  omega

/-- The three stages in one: the range is delivered unless the whole blocks of the second
    stage go past it. -/
theorem ext2ReadInodeBytes_stages {ops : FileOps σ} {good : σ → Prop} {p : Partition}
    {blocks : Nat} {file : σ → Nat → Mem} {d : σ} {count skip : Nat} (fits : ShiftFits p)
    (array : ReadArray ops good p.blockSize blocks file) (start : good d) (positive : 0 < count)
    (small : count < 2 ^ 32) (room : skip + count ≤ blocks * p.blockSize) (dest : Mem) :
    ∃ reached done dest', ext2ReadInodeBytes ops p dest count skip d = (done, dest', d) ∧
      (reached ≤ count ↔ skip % p.blockSize = 0 ∨
        p.blockSize ≤ skip % p.blockSize + ((count - 1) % p.blockSize + 1)) ∧
      if reached ≤ count then DeliversBytes p.blockSize (file d) dest skip count (done, dest', d)
      else done = reached := by
  have bounds := blockSize_bounds fits
  have inside := Nat.mod_lt skip (show 0 < p.blockSize by omega)
  have part := Nat.mod_lt (count - 1) (show 0 < p.blockSize by omega)
  obtain ⟨covers, under⟩ :=
    @divideRoundedUp_bounds (2 ^ 64) count p.blockSize (by omega) (by omega)
  obtain ⟨whole, some⟩ := last_bytes positive covers under
  obtain ⟨s1, head, at1, read1⟩ := readHead_delivered array start (show 0 < p.blockSize by omega)
    (show skip < blocks * p.blockSize by omega) dest
  have short : s1.readBytes < p.blockSize := by
    rw [read1]
    split <;> omega
  obtain ⟨s2, middle, at2, read2⟩ := readMiddle_delivered array start (by omega) (by omega)
    (by omega) positive (by omega) at1 short
  have last : count ≤ s2.readBytes + p.blockSize := by
    rw [read2]
    split <;> omega
  obtain ⟨s3, tail, disk, result⟩ := readTail_delivered array start (by omega) (by omega) at2
    (by rw [read2]; split <;> omega) last
  rw [disk] at result
  refine ⟨s2.readBytes, s3.readBytes, s3.dest, ?_, ?_, result⟩
  · simp only [ext2ReadInodeBytes, head, middle, tail, disk, bind, Except.bind]
  · rw [read2, read1]
    by_cases aligned : skip % p.blockSize = 0
    · simp only [aligned, ↓reduceIte, true_or, iff_true]
      split <;> omega
    · simp only [aligned, ↓reduceIte, false_or]
      split
      · omega
      · have one : (count - 1) % p.blockSize = count - 1 := Nat.mod_eq_of_lt (by omega)
        rw [one]
        omega

theorem read_inode_bytes_iff {ops : FileOps σ} {good : σ → Prop} {p : Partition} {blocks : Nat}
    {file : σ → Nat → Mem} {d : σ} {inode : Mem} {count skip : Nat} (fits : ShiftFits p)
    (array : ReadArray ops good p.blockSize blocks file) (start : good d)
    (sized : i_size inode ≤ blocks * p.blockSize) (positive : 0 < count)
    (room : skip + count ≤ i_size inode) (dest : Mem) :
    DeliversBytes p.blockSize (file d) dest skip count
        (ext2ReadInodeBytes ops p dest count skip d) ↔
      skip % p.blockSize = 0 ∨
        p.blockSize ≤ skip % p.blockSize + ((count - 1) % p.blockSize + 1) := by
  have bound := i_size_bound inode
  obtain ⟨reached, done, dest', run, within, result⟩ :=
    @ext2ReadInodeBytes_stages _ ops good p blocks file d count skip fits array start positive
      (by omega) (by omega) dest
  rw [run, ← within]
  by_cases fitting : reached ≤ count
  · rw [if_pos fitting] at result
    exact iff_of_true result fitting
  · rw [if_neg fitting] at result
    refine iff_of_false (fun delivered => ?_) fitting
    have returned := delivered.returned
    dsimp only at returned
    omega

/-- An unaligned read that ends where a block ends. -/
theorem read_inode_bytes_to_block_end :
    DeliversBytes (plainPartition 0 1 8192 1024 1 blank).blockSize (fun _ => blank) blank 1 1023
      (ext2ReadInodeBytes (arrayOps (plainPartition 0 1 8192 1024 1 blank).blockSize)
        (plainPartition 0 1 8192 1024 1 blank) blank 1023 1 (fun _ => blank)) :=
  (@read_inode_bytes_iff _ _ _ (plainPartition 0 1 8192 1024 1 blank) 2 id (fun _ => blank)
    (putLE blank 4 4 2048) 1023 1 (by unfold ShiftFits; decide) (arrayOps_array _ 2).toReadArray
    trivial (by decide) (by decide) (by decide) blank).mpr (by decide)

/-- One byte at offset 1 comes back as 1023 bytes. -/
theorem read_inode_bytes_overruns :
    ¬ ∀ (σ : Type) (ops : FileOps σ) (good : σ → Prop) (p : Partition) (blocks : Nat)
      (file : σ → Nat → Mem) (d : σ) (inode dest : Mem) (count skip : Nat), ShiftFits p →
      ReadArray ops good p.blockSize blocks file → good d →
      i_size inode ≤ blocks * p.blockSize → 0 < count → skip + count ≤ i_size inode →
      DeliversBytes p.blockSize (file d) dest skip count
        (ext2ReadInodeBytes ops p dest count skip d) := by
  intro all
  have delivered := all _ (arrayOps (plainPartition 0 1 8192 1024 1 blank).blockSize) _
    (plainPartition 0 1 8192 1024 1 blank) 2 id (fun _ => blank) (putLE blank 4 4 2048) blank 1 1
    (by unfold ShiftFits; decide) (arrayOps_array _ 2).toReadArray trivial (by decide) (by decide)
    (by decide)
  exact absurd delivered.returned (by decide)

end OmenExt2
