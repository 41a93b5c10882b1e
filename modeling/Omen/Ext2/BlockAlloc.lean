import Omen.Ext2.GroupBitmap
import Mathlib.Data.Nat.Bitwise

/- `ext2_allocate_block` and `ext2_deallocate_block`. The allocator scans the bitmap of
   every group that has free blocks, word by word and bit by bit, and numbers the bit it
   finds from 1, whatever `s_first_sb_block` is. The counters are a 16-bit and a 32-bit
   field. -/
namespace OmenExt2
open ByteMemory Bitmap OmenDisk

variable {σ : Type}

def scanWords (bitmap : Mem) (j : Nat) : Nat → Option (Nat × Nat)
  | 0 => none
  | n + 1 =>
    if word bitmap j = 0xFFFFFFFF then scanWords bitmap (j + 1) n
    else
      match firstClear (andBit (word bitmap j)) 0 32 with
      | some k => some (j, k)
      | none => scanWords bitmap (j + 1) n

namespace Fs

def countTaken (fs : Fs σ) (group : Nat) : Fs σ :=
  { fs with
    bg_free_blocks_count := Function.update fs.bg_free_blocks_count group
      ((fs.bg_free_blocks_count group + (2 ^ 16 - 1)) % 2 ^ 16)
    s_free_blocks_count := (fs.s_free_blocks_count + (2 ^ 32 - 1)) % 2 ^ 32 }

def countGiven (fs : Fs σ) (group : Nat) : Fs σ :=
  { fs with
    bg_free_blocks_count := Function.update fs.bg_free_blocks_count group
      ((fs.bg_free_blocks_count group + 1) % 2 ^ 16)
    s_free_blocks_count := (fs.s_free_blocks_count + 1) % 2 ^ 32 }

end Fs

def allocateFrom (dev : Dev σ) (p : Partition) (i : Nat) : Nat → Fs σ → Nat × Fs σ
  | 0, fs => (0, fs)
  | n + 1, fs =>
    if fs.bg_free_blocks_count i = 0 then allocateFrom dev p (i + 1) n fs
    else
      let (read, bitmap, d) := ext2ReadBlock dev p (p.bg_block_bitmap i) blank 0 fs.disk
      if read = 0 then (0, { fs with disk := d })
      else
        match scanWords bitmap 0 p.entriesPerBlock with
        | none => allocateFrom dev p (i + 1) n { fs with disk := d }
        | some (j, k) =>
          let bitmap' := putWord bitmap j (word bitmap j ||| 1 <<< k)
          let fs1 := Fs.countTaken { fs with disk := d } i
          let (written, d') := ext2WriteBlock dev p (p.bg_block_bitmap i) bitmap' d
          if written = 0 then (0, Fs.countGiven { fs1 with disk := d' } i)
          else
            ((j * 32 + k + 1 + i * p.s_blocks_per_group) % 2 ^ 32,
              { fs1 with disk := d', flush_required := true })

def ext2AllocateBlock (dev : Dev σ) (p : Partition) (fs : Fs σ) : Nat × Fs σ :=
  allocateFrom dev p 0 p.group_number fs

def ext2DeallocateBlock (dev : Dev σ) (p : Partition) (block : Nat) (fs : Fs σ) : Nat × Fs σ :=
  let group := (block + (2 ^ 32 - 1)) % 2 ^ 32 / p.s_blocks_per_group
  let index := (block + (2 ^ 32 - 1)) % 2 ^ 32 % p.s_blocks_per_group
  let (read, bitmap, d) := ext2ReadBlock dev p (p.bg_block_bitmap group) blank 0 fs.disk
  if read = 0 then (0, { fs with disk := d })
  else if andBit (word bitmap (index / 32)) (index % 32) then
    let bitmap' := putWord bitmap (index / 32)
      (word bitmap (index / 32) &&& (0xFFFFFFFF ^^^ 1 <<< (index % 32)))
    let fs1 := Fs.countGiven { fs with disk := d } group
    let (written, d') := ext2WriteBlock dev p (p.bg_block_bitmap group) bitmap' d
    if written = 0 then (0, Fs.countTaken { fs1 with disk := d' } group)
    else (1, { fs1 with disk := d', flush_required := true })
  else (0, { fs with disk := d })

def BlockBitmaps (p : Partition) (valid : Nat → Prop) : Prop :=
  OwnBitmaps p.bg_block_bitmap p.group_number valid

/-- The scan over words finds the first clear bit; skipping full words changes nothing. -/
theorem scanWords_eq (m : Mem) (j n : Nat) :
    scanWords m j n = (firstClear (bitAt m) (32 * j) (32 * n)).map fun t => (t / 32, t % 32) := by
  induction n generalizing j with
  | zero => rfl
  | succ n ih =>
    have shift : firstClear (bitAt m) (32 * j) 32 =
        (firstClear (andBit (word m j)) 0 32).map (32 * j + ·) := by
      refine @firstClear_shift _ _ (32 * j) 0 32 ?_
      intro k _ high
      exact andBit_word m j (by omega)
    have split : 32 * (n + 1) = 32 + 32 * n := by omega
    rw [split, firstClear_append, shift, ← Nat.mul_succ, scanWords, ih]
    by_cases full : word m j = 0xFFFFFFFF
    · have none : firstClear (andBit (word m j)) 0 32 = none := by
        rw [full]
        decide
      rw [if_pos full, none]
      simp
    · rw [if_neg full]
      cases hit : firstClear (andBit (word m j)) 0 32 with
      | none => simp
      | some k =>
        have small := (firstClear_some hit).2.1
        have place : (32 * j + k) / 32 = j ∧ (32 * j + k) % 32 = k := by omega
        simp [place]

structure TakenBit (p : Partition) (view : σ → Nat → Mem) (g i : Nat) (fs fs' : Fs σ) : Prop where
  group : g < p.group_number
  counted : fs.bg_free_blocks_count g ≠ 0
  inside : i < 8 * p.blockSize
  clear : groupBits p.bg_block_bitmap view fs.disk g i = false
  stored : BitStored p.bg_block_bitmap view g i true fs.disk fs'.disk
  rest : fs' = { Fs.countTaken fs g with disk := fs'.disk, flush_required := true }

structure GivenBit (p : Partition) (view : σ → Nat → Mem) (g i : Nat) (fs fs' : Fs σ) : Prop where
  stored : BitStored p.bg_block_bitmap view g i false fs.disk fs'.disk
  rest : fs' = { Fs.countGiven fs g with disk := fs'.disk, flush_required := true }

section Counters
variable {p : Partition} {view : σ → Nat → Mem} {g i : Nat} {fs fs' : Fs σ}

theorem TakenBit.free (taken : TakenBit p view g i fs fs') :
    fs'.bg_free_blocks_count = Function.update fs.bg_free_blocks_count g
      ((fs.bg_free_blocks_count g + (2 ^ 16 - 1)) % 2 ^ 16) := by
  have same := congrArg Fs.bg_free_blocks_count taken.rest
  simpa only [Fs.countTaken] using same

theorem TakenBit.total (taken : TakenBit p view g i fs fs') :
    fs'.s_free_blocks_count = (fs.s_free_blocks_count + (2 ^ 32 - 1)) % 2 ^ 32 := by
  have same := congrArg Fs.s_free_blocks_count taken.rest
  simpa only [Fs.countTaken] using same

theorem GivenBit.free (given : GivenBit p view g i fs fs') :
    fs'.bg_free_blocks_count = Function.update fs.bg_free_blocks_count g
      ((fs.bg_free_blocks_count g + 1) % 2 ^ 16) := by
  have same := congrArg Fs.bg_free_blocks_count given.rest
  simpa only [Fs.countGiven] using same

theorem GivenBit.total (given : GivenBit p view g i fs fs') :
    fs'.s_free_blocks_count = (fs.s_free_blocks_count + 1) % 2 ^ 32 := by
  have same := congrArg Fs.s_free_blocks_count given.rest
  simpa only [Fs.countGiven] using same

end Counters

section Calls
variable {dev : Dev σ} {p : Partition} {valid : Nat → Prop} {view : σ → Nat → Mem}

theorem bitmap_bits (fits : ShiftFits p) : 32 * p.entriesPerBlock = 8 * p.blockSize := by
  have size := blockSize_entries fits
  omega

theorem ext2WriteBlock_word (stores : Stores dev p p.blockSize valid view) {b j : Nat}
    (ok : valid b) (inside : j < p.entriesPerBlock) (v : Nat) (d : σ) :
    ∃ d', ext2WriteBlock dev p b (putWord (view d b) j v) d = (1, d') ∧
      view d' = Function.update (view d) b (putWord (view d b) j v) := by
  refine ext2WriteBlock_whole stores ok ?_ d
  intro i past
  have size := blockSize_entries stores.fits
  rw [putWord_outside _ v (by omega), stores.tail d b i past]

def GroupFull (p : Partition) (view : σ → Nat → Mem) (fs : Fs σ) (g : Nat) : Prop :=
  fs.bg_free_blocks_count g = 0 ∨
    ∀ i, i < 8 * p.blockSize → groupBits p.bg_block_bitmap view fs.disk g i = true

variable (stores : Stores dev p p.blockSize valid view)
include stores

theorem allocateFrom_skip {g : Nat} (ok : valid (p.bg_block_bitmap g)) {fs : Fs σ}
    (full : GroupFull p view fs g) (n : Nat) :
    allocateFrom dev p g (n + 1) fs = allocateFrom dev p (g + 1) n fs := by
  by_cases empty : fs.bg_free_blocks_count g = 0
  · rw [allocateFrom, if_pos empty]
  · have none : firstClear (bitAt (view fs.disk (p.bg_block_bitmap g))) (32 * 0)
        (8 * p.blockSize) = none :=
      firstClear_full (fun i _ high => full.resolve_left empty i (by omega))
    simp only [allocateFrom, empty, ↓reduceIte, ext2ReadBlock_buffer stores.toReads ok,
      Nat.one_ne_zero, scanWords_eq, bitmap_bits stores.fits, none, Option.map_none]

theorem allocateFrom_take {g : Nat} (ok : valid (p.bg_block_bitmap g)) (group : g < p.group_number)
    {fs : Fs σ} (free : ¬ GroupFull p view fs g) (n : Nat) :
    ∃ i fs', allocateFrom dev p g (n + 1) fs =
        ((i + 1 + g * p.s_blocks_per_group) % 2 ^ 32, fs') ∧ TakenBit p view g i fs fs' := by
  obtain ⟨counted, some⟩ := not_or.mp free
  have bits := bitmap_bits stores.fits
  cases found : firstClear (bitAt (view fs.disk (p.bg_block_bitmap g))) (32 * 0)
      (8 * p.blockSize) with
  | none =>
    exact absurd (fun i low => firstClear_none found i (by omega) (by omega)) some
  | some i =>
    obtain ⟨_, inside, clear, _⟩ := firstClear_some found
    obtain ⟨d, write, after⟩ := ext2WriteBlock_word stores ok
      (show i / 32 < p.entriesPerBlock by omega)
      (word (view fs.disk (p.bg_block_bitmap g)) (i / 32) ||| 1 <<< (i % 32)) fs.disk
    have number : i / 32 * 32 + i % 32 + 1 = i + 1 := by omega
    have place : 32 * (i / 32) + i % 32 = i := by omega
    refine ⟨i, { Fs.countTaken fs g with disk := d, flush_required := true }, ?_,
      ⟨group, counted, by omega, clear, ⟨_, after, ?_⟩, rfl⟩⟩
    · simp only [allocateFrom, counted, ↓reduceIte, ext2ReadBlock_buffer stores.toReads ok,
        Nat.one_ne_zero, scanWords_eq, bits, found, Option.map_some, write, number]
    · rw [word_set_bit _ _ (Nat.mod_lt i (by omega)), place]
      rfl

theorem allocateFrom_cases (bitmaps : BlockBitmaps p valid) (fs : Fs σ) {i n : Nat}
    (all : i + n = p.group_number) :
    (allocateFrom dev p i n fs = (0, fs) ∧
      ∀ g, i ≤ g → g < p.group_number → GroupFull p view fs g) ∨
    ∃ g t fs', allocateFrom dev p i n fs = ((t + 1 + g * p.s_blocks_per_group) % 2 ^ 32, fs') ∧
      TakenBit p view g t fs fs' := by
  induction n generalizing i with
  | zero => exact Or.inl ⟨rfl, fun g low high => by omega⟩
  | succ n ih =>
    have ok := bitmaps.valid i (by omega)
    by_cases full : GroupFull p view fs i
    · rw [allocateFrom_skip stores ok full]
      rcases @ih (i + 1) (by omega) with ⟨run, later⟩ | taken
      · refine Or.inl ⟨run, fun g low high => ?_⟩
        by_cases here : g = i
        · rwa [here]
        · exact later g (by omega) high
      · exact Or.inr taken
    · obtain ⟨t, fs', run, taken⟩ := allocateFrom_take stores ok (by omega) full n
      exact Or.inr ⟨i, t, fs', run, taken⟩

/-- What an allocation can do: nothing, where every group is full, or take one bit. -/
theorem ext2AllocateBlock_cases (bitmaps : BlockBitmaps p valid) (fs : Fs σ) :
    (ext2AllocateBlock dev p fs = (0, fs) ∧ ∀ g, g < p.group_number → GroupFull p view fs g) ∨
    ∃ g i fs', ext2AllocateBlock dev p fs =
        ((i + 1 + g * p.s_blocks_per_group) % 2 ^ 32, fs') ∧ TakenBit p view g i fs fs' := by
  rcases allocateFrom_cases stores bitmaps fs (Nat.zero_add p.group_number) with
    ⟨run, full⟩ | taken
  · exact Or.inl ⟨run, fun g inside => full g (Nat.zero_le g) inside⟩
  · exact Or.inr taken

theorem ext2DeallocateBlock_cases (bitmaps : BlockBitmaps p valid) (fs : Fs σ) {g i : Nat}
    (group : g < p.group_number) (inside : i < p.s_blocks_per_group)
    (capacity : p.s_blocks_per_group ≤ 8 * p.blockSize)
    (small : i + 1 + g * p.s_blocks_per_group < 2 ^ 32) :
    (groupBits p.bg_block_bitmap view fs.disk g i = false ∧
      ext2DeallocateBlock dev p (i + 1 + g * p.s_blocks_per_group) fs = (0, fs)) ∨
    (groupBits p.bg_block_bitmap view fs.disk g i = true ∧ ∃ fs',
      ext2DeallocateBlock dev p (i + 1 + g * p.s_blocks_per_group) fs = (1, fs') ∧
        GivenBit p view g i fs fs') := by
  have bits := bitmap_bits stores.fits
  have ok := bitmaps.valid g group
  have back : (i + 1 + g * p.s_blocks_per_group + (2 ^ 32 - 1)) % 2 ^ 32 =
      i + g * p.s_blocks_per_group := by omega
  have quotient : (i + g * p.s_blocks_per_group) / p.s_blocks_per_group = g := by
    rw [Nat.add_mul_div_right _ _ (by omega), Nat.div_eq_of_lt inside, Nat.zero_add]
  have rest : (i + g * p.s_blocks_per_group) % p.s_blocks_per_group = i := by
    rw [Nat.add_mul_mod_self_right, Nat.mod_eq_of_lt inside]
  have place : 32 * (i / 32) + i % 32 = i := by omega
  have bit : andBit (word (view fs.disk (p.bg_block_bitmap g)) (i / 32)) (i % 32) =
      groupBits p.bg_block_bitmap view fs.disk g i := by
    rw [andBit_word _ _ (Nat.mod_lt i (by omega)), place]
    rfl
  cases used : groupBits p.bg_block_bitmap view fs.disk g i with
  | false =>
    refine Or.inl ⟨rfl, ?_⟩
    simp only [ext2DeallocateBlock, back, quotient, rest,
      ext2ReadBlock_buffer stores.toReads ok, Nat.one_ne_zero, ↓reduceIte, bit, used,
      Bool.false_eq_true]
  | true =>
    obtain ⟨d, write, after⟩ := ext2WriteBlock_word stores ok
      (show i / 32 < p.entriesPerBlock by omega)
      (word (view fs.disk (p.bg_block_bitmap g)) (i / 32) &&& (0xFFFFFFFF ^^^ 1 <<< (i % 32)))
      fs.disk
    refine Or.inr ⟨rfl, { Fs.countGiven fs g with disk := d, flush_required := true }, ?_,
      ⟨⟨_, after, ?_⟩, rfl⟩⟩
    · simp only [ext2DeallocateBlock, back, quotient, rest,
        ext2ReadBlock_buffer stores.toReads ok, Nat.one_ne_zero, ↓reduceIte, bit, used, write]
    · rw [word_clear_bit _ _ (Nat.mod_lt i (by omega)), place]
      rfl

end Calls

def StandsFor (p : Partition) (g i b : Nat) : Prop :=
  g < p.group_number ∧ i < p.s_blocks_per_group ∧
    b = p.s_first_sb_block + g * p.s_blocks_per_group + i ∧ b < p.s_blocks_count

def SpareBitsSet (p : Partition) (view : σ → Nat → Mem) (d : σ) : Prop :=
  ∀ g i, g < p.group_number → i < 8 * p.blockSize → (∀ b, ¬ StandsFor p g i b) →
    groupBits p.bg_block_bitmap view d g i = true

/-- The bit that stands for `b` was clear and is set; no other bit has changed. -/
def TookFreeBlock (p : Partition) (view : σ → Nat → Mem) (b : Nat) (d d' : σ) : Prop :=
  ∃ g i, StandsFor p g i b ∧ groupBits p.bg_block_bitmap view d g i = false ∧
    groupBits p.bg_block_bitmap view d' g i = true ∧
    ∀ h k, h < p.group_number → ¬ (h = g ∧ k = i) →
      groupBits p.bg_block_bitmap view d' h k = groupBits p.bg_block_bitmap view d h k

theorem TakenBit.free_iff {p : Partition} {valid : Nat → Prop} {view : σ → Nat → Mem}
    {fs fs' : Fs σ} {g i : Nat} (taken : TakenBit p view g i fs fs')
    (bitmaps : BlockBitmaps p valid) (spare : SpareBitsSet p view fs.disk) :
    TookFreeBlock p view ((i + 1 + g * p.s_blocks_per_group) % 2 ^ 32) fs.disk fs'.disk ↔
      p.s_first_sb_block = 1 := by
  have change := fun h k (other : h < p.group_number) =>
    @BitStored.bit _ _ _ _ _ _ _ _ _ _ taken.stored bitmaps taken.group h k other
  -- the bit was clear, so that it stands for a block
  obtain ⟨c, _, inside, place, low⟩ : ∃ c, StandsFor p g i c := by
    by_contra none
    have used := spare g i taken.group taken.inside (fun c stands => none ⟨c, stands⟩)
    rw [taken.clear] at used
    cases used
  have bound : p.s_blocks_count < 2 ^ 32 := by
    have h := getLE_bound p.sb 4 4
    simpa [Partition.s_blocks_count] using h
  rw [Nat.mod_eq_of_lt (by omega)]
  constructor
  · rintro ⟨h, k, ⟨group, _, same, _⟩, clear, set, _⟩
    rw [change h k group] at set
    split at set
    · rename_i equal
      obtain ⟨rfl, rfl⟩ := equal
      omega
    · rw [clear] at set
      cases set
  · intro first
    refine ⟨g, i, ⟨taken.group, inside, by omega, by omega⟩, taken.clear, ?_, ?_⟩
    · rw [change g i taken.group, if_pos ⟨rfl, rfl⟩]
    · intro h k other apart
      rw [change h k other, if_neg apart]

theorem allocate_block_free_iff {dev : Dev σ} {p : Partition} {valid : Nat → Prop}
    {view : σ → Nat → Mem} {fs fs' : Fs σ} {b : Nat}
    (stores : Stores dev p p.blockSize valid view) (bitmaps : BlockBitmaps p valid)
    (spare : SpareBitsSet p view fs.disk) (run : ext2AllocateBlock dev p fs = (b, fs'))
    (given : b ≠ 0) :
    TookFreeBlock p view b fs.disk fs'.disk ↔ p.s_first_sb_block = 1 := by
  rcases ext2AllocateBlock_cases stores bitmaps fs with ⟨none, _⟩ | ⟨g, i, fs1, took, taken⟩
  · rw [none] at run
    exact absurd (Prod.mk.inj run).1.symm given
  · rw [took] at run
    obtain ⟨number, rfl⟩ := Prod.mk.inj run
    rw [← number]
    exact taken.free_iff bitmaps spare

/- One group with its bitmap in block 3. -/
section Sample
variable {logSize size first count : Nat}

def oneGroup (logSize size first count : Nat) : Partition :=
  let p := bytePartition logSize 1 size 1024 first (putLE blank 0 4 3)
  { p with sb := putLE p.sb 4 4 count }

def groupState (p : Partition) (bitmap : Mem) (free : Nat) : Fs (Nat → Mem) where
  disk := layout p fun _ => bitmap
  bg_free_blocks_count := fun _ => free
  bg_free_inodes_count := fun _ => 0
  bg_used_dirs_count := fun _ => 0
  s_free_blocks_count := free
  s_free_inodes_count := 0
  flush_required := false

theorem oneGroup_log (fits : logSize ≤ 20) :
    (oneGroup logSize size first count).s_log_block_size = logSize :=
  (@getLE_putLE_apart _ 4 4 24 4 _ (by decide)).trans (bytePartition_log fits)

theorem oneGroup_fields (first_fits : first < 2 ^ 32) (size_fits : size < 2 ^ 32)
    (count_fits : count < 2 ^ 32) :
    (oneGroup logSize size first count).s_first_sb_block = first ∧
      (oneGroup logSize size first count).s_blocks_per_group = size ∧
      (oneGroup logSize size first count).s_blocks_count = count := by
  simp only [oneGroup, bytePartition, plainPartition, Partition.s_first_sb_block,
    Partition.s_blocks_per_group, Partition.s_blocks_count]
  simp (disch := omega) only [getLE_putLE_apart, getLE_putLE, and_self]

theorem oneGroup_aligned (fits : logSize ≤ 20) : Aligned (oneGroup logSize size first count) where
  fits := by rw [ShiftFits, oneGroup_log fits]; exact fits
  positive := Nat.zero_lt_one
  divides := Nat.mod_one _

theorem oneGroup_size (small : logSize ≤ 3) :
    (oneGroup logSize size first count).blockSize = 1024 * 2 ^ logSize ∧ 2 ^ logSize ≤ 8 := by
  rw [blockSize_eq (oneGroup_aligned (by omega)).fits, oneGroup_log (by omega)]
  exact ⟨rfl, Nat.pow_le_pow_right (by decide) small⟩

theorem oneGroup_bitmaps (small : logSize ≤ 3) :
    BlockBitmaps (oneGroup logSize size first count) (InReach (oneGroup logSize size first count))
    where
  valid := by
    intro g group
    obtain rfl : g = 0 := Nat.lt_one_iff.mp group
    have bitmap : (oneGroup logSize size first count).bg_block_bitmap 0 = 3 :=
      getLE_putLE blank 0 4 3 (by decide)
    have bound := @oneGroup_size logSize size first count small
    rw [bitmap]
    exact ⟨by decide, by omega⟩
  distinct := by
    intro g h group other _
    exact (Nat.lt_one_iff.mp group).trans (Nat.lt_one_iff.mp other).symm

theorem oneGroup_bits (small : logSize ≤ 3) (bitmap : Mem) (free : Nat) {i : Nat}
    (inside : i < 8 * (oneGroup logSize size first count).blockSize) :
    groupBits (oneGroup logSize size first count).bg_block_bitmap
      (reachView (oneGroup logSize size first count))
      (groupState (oneGroup logSize size first count) bitmap free).disk 0 i = bitAt bitmap i := by
  have aligned := @oneGroup_aligned logSize size first count (by omega)
  have bound := @oneGroup_size logSize size first count small
  have sectors := blockSectors_le aligned
  have place : (oneGroup logSize size first count).bg_block_bitmap 0 = 3 :=
    getLE_putLE blank 0 4 3 (by decide)
  have reach := (@oneGroup_bitmaps logSize size first count small).valid 0 Nat.zero_lt_one
  rw [place] at reach
  rw [groupBits, place, bitAt, groupState,
    layout_view aligned rfl (Nat.le_of_ble_eq_true rfl) reach (by omega) (by omega)]
  rfl

def bitFourClear : Mem := fun i => if i = 0 then 0xEF else 0xFF

theorem bitFourClear_bits (i : Nat) : bitAt bitFourClear i = decide (i ≠ 4) := by
  have place : i % 8 < 8 := Nat.mod_lt i (by decide)
  rw [bitAt, bitFourClear]
  by_cases start : i / 8 = 0
  · have byte : ∀ k, k < 8 → (UInt8.toNat 0xEF).testBit k = decide (k ≠ 4) := by decide
    rw [if_pos start, byte _ place, Nat.mod_eq_of_lt (by omega)]
  · have byte : ∀ k, k < 8 → (UInt8.toNat 0xFF).testBit k = true := by decide
    rw [if_neg start, byte _ place]
    exact (decide_eq_true (by omega)).symm

def lastFree (logSize first : Nat) : Partition := oneGroup logSize 8192 first (first + 5)

theorem lastFree_spare (small : logSize ≤ 3) (low : first + 5 < 2 ^ 32) :
    SpareBitsSet (lastFree logSize first) (reachView (lastFree logSize first))
      (groupState (lastFree logSize first) bitFourClear 1).disk := by
  unfold lastFree
  intro g i group inside none
  obtain rfl : g = 0 := Nat.lt_one_iff.mp group
  rw [oneGroup_bits small _ _ inside, bitFourClear_bits]
  refine decide_eq_true ?_
  rintro rfl
  obtain ⟨start, size, count⟩ := @oneGroup_fields logSize 8192 first (first + 5) (by omega)
    (by decide) low
  exact none (first + 4) ⟨group, by omega, by omega, by omega⟩

theorem lastFree_run (small : logSize ≤ 3) :
    ∃ fs', ext2AllocateBlock reliable (lastFree logSize first)
        (groupState (lastFree logSize first) bitFourClear 1) = (5, fs') ∧
      TakenBit (lastFree logSize first) (reachView (lastFree logSize first)) 0 4
        (groupState (lastFree logSize first) bitFourClear 1) fs' := by
  unfold lastFree
  have aligned := @oneGroup_aligned logSize 8192 first (first + 5) (by omega)
  have bitmaps := @oneGroup_bitmaps logSize 8192 first (first + 5) small
  have bounds := blockSize_bounds aligned.fits
  have free : ¬ GroupFull (oneGroup logSize 8192 first (first + 5))
      (reachView (oneGroup logSize 8192 first (first + 5)))
      (groupState (oneGroup logSize 8192 first (first + 5)) bitFourClear 1) 0 := by
    rintro (empty | full)
    · exact absurd empty Nat.one_ne_zero
    · have bit := full 4 (by omega)
      rw [oneGroup_bits small _ _ (by omega), bitFourClear_bits] at bit
      exact absurd bit (by decide)
  obtain ⟨i, fs', run, taken⟩ := allocateFrom_take (byte_stores aligned rfl)
    (bitmaps.valid 0 Nat.zero_lt_one) Nat.zero_lt_one free 0
  have clear := taken.clear
  rw [oneGroup_bits small _ _ taken.inside, bitFourClear_bits, decide_eq_false_iff_not,
    not_not] at clear
  subst clear
  refine ⟨fs', ?_, taken⟩
  rwa [Nat.zero_mul] at run

end Sample

/-- With 1 KiB blocks the last block of the partition is handed out. -/
theorem allocate_block_free_first :
    ∃ fs', ext2AllocateBlock reliable (lastFree 0 1) (groupState (lastFree 0 1) bitFourClear 1) =
        (5, fs') ∧
      TookFreeBlock (lastFree 0 1) (reachView (lastFree 0 1)) 5
        (groupState (lastFree 0 1) bitFourClear 1).disk fs'.disk := by
  obtain ⟨fs', run, _⟩ := @lastFree_run 0 1 (by decide)
  have free := @allocate_block_free_iff _ _ _ _ _ _ fs' 5
    (byte_stores (oneGroup_aligned (by decide)) rfl) (oneGroup_bitmaps (by decide))
    (lastFree_spare (by decide) (by decide)) run (by decide)
  exact ⟨fs', run, free.mpr (oneGroup_fields (by decide) (by decide) (by decide)).1⟩

/-- With 2 KiB blocks, numbered from 0, the block behind the free one is handed out: here
    one that the partition does not have. -/
theorem allocate_block_shifts :
    ¬ ∀ (σ : Type) (dev : Dev σ) (p : Partition) (valid : Nat → Prop) (view : σ → Nat → Mem)
      (fs fs' : Fs σ) (b : Nat), Stores dev p p.blockSize valid view → BlockBitmaps p valid →
      SpareBitsSet p view fs.disk → ext2AllocateBlock dev p fs = (b, fs') → b ≠ 0 →
      TookFreeBlock p view b fs.disk fs'.disk := by
  intro all
  obtain ⟨fs', run, taken⟩ := @lastFree_run 1 0 (by decide)
  have bitmaps := @oneGroup_bitmaps 1 8192 0 5 (by decide)
  have spare := @lastFree_spare 1 0 (by decide) (by decide)
  have took := all _ _ _ _ _ _ fs' 5
    (byte_stores (oneGroup_aligned (by decide)) rfl) bitmaps spare run (by decide)
  have first := (taken.free_iff bitmaps spare).mp (by rwa [Nat.zero_mul])
  have zero := (@oneGroup_fields 1 8192 0 5 (by decide) (by decide) (by decide)).1
  exact absurd (zero.symm.trans first) (by decide)

end OmenExt2
