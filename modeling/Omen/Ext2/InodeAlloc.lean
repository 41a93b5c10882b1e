import Omen.Ext2.GroupBitmap
import Omen.Ext2.Inode

/- `ext2_allocate_inode`. The group is the first one whose counter is not 0; the number
   returned is that of the bit inside the group, without the group's own offset. -/
namespace OmenExt2
open ByteMemory Bitmap UnitPool OmenDisk

variable {σ : Type}

def ext2BgHasFreeInodes (group : Nat) (fs : Fs σ) : Bool × Fs σ :=
  (decide (fs.bg_free_inodes_count group > 0), fs)

/-- The scan of an inode bitmap from byte `i` on, over `n` bytes; it ends at the first byte
    that is not `0xFF`. -/
def scanBytes (bitmap : Mem) (i : Nat) : Nat → Nat
  | 0 => 0
  | n + 1 =>
    if bitmap i ≠ 0xFF then
      match firstClear (andBit (bitmap i).toNat) 0 8 with
      | some j => (i * 8 + j + 1) % 2 ^ 32
      | none => 0
    else scanBytes bitmap (i + 1) n

def ext2AllocateInode (dev : Dev σ) (p : Partition) (fs : Fs σ) : Nat × Fs σ :=
  match ext2OperateOnBg ext2BgHasFreeInodes 0 p.group_number fs with
  | (none, fs) => (0, fs)
  | (some g, fs) =>
    let (read, bitmap, d) := ext2ReadBlock dev p (p.bg_inode_bitmap g) blank 0 fs.disk
    if read ≠ 1 then (0, { fs with disk := d })
    else
      let inodeNumber := scanBytes bitmap 0 p.blockSize
      if inodeNumber = 0 then (0, { fs with disk := d })
      else
        let place := Partition.inodePlace inodeNumber
        let bitmap' := Function.update bitmap (place / 8)
          (UInt8.ofNat ((bitmap (place / 8)).toNat ||| 1 <<< (place % 8)))
        let (written, d') := ext2WriteBlock dev p (p.bg_inode_bitmap g) bitmap' d
        if written = 0 then (0, { fs with disk := d' })
        else
          (inodeNumber,
            { fs with
              disk := d'
              bg_free_inodes_count := Function.update fs.bg_free_inodes_count g
                ((fs.bg_free_inodes_count g + (2 ^ 16 - 1)) % 2 ^ 16)
              s_free_inodes_count := (fs.s_free_inodes_count + (2 ^ 32 - 1)) % 2 ^ 32
              flush_required := true })

def inodeBit (p : Partition) (view : σ → Nat → Mem) (d : σ) (inodeNumber : Nat) : Bool :=
  groupBits p.bg_inode_bitmap view d (p.inodeGroup inodeNumber) (p.inodeIndex inodeNumber)

def inodeUnits (p : Partition) (view : σ → Nat → Mem) (fs : Fs σ) : Units (Fin p.group_number) where
  used := fun g => groupBits p.bg_inode_bitmap view fs.disk g
  free := fun g => fs.bg_free_inodes_count g

/-- Every group counts its free inodes in 16 bits, and the bits past a group's inodes are
    set. -/
structure InodeCounts (p : Partition) (view : σ → Nat → Mem) (fs : Fs σ) : Prop where
  counts : Counted p.s_inodes_per_group (8 * p.blockSize) (inodeUnits p view fs)
  narrow : ∀ g, g < p.group_number → fs.bg_free_inodes_count g < 2 ^ 16

theorem operateOnBg_inodes (fs : Fs σ) (i n : Nat) :
    (ext2OperateOnBg ext2BgHasFreeInodes i n fs = (none, fs) ∧
      ∀ h, i ≤ h → h < i + n → fs.bg_free_inodes_count h = 0) ∨
    ∃ g, ext2OperateOnBg ext2BgHasFreeInodes i n fs = (some g, fs) ∧ g < i + n ∧
      fs.bg_free_inodes_count g ≠ 0 ∧ ∀ h, i ≤ h → h < g → fs.bg_free_inodes_count h = 0 := by
  induction n generalizing i with
  | zero => exact Or.inl ⟨rfl, fun h low high => by omega⟩
  | succ n ih =>
    by_cases some : fs.bg_free_inodes_count i = 0
    · have next : ext2OperateOnBg ext2BgHasFreeInodes i (n + 1) fs =
          ext2OperateOnBg ext2BgHasFreeInodes (i + 1) n fs := by
        simp [ext2OperateOnBg, ext2BgHasFreeInodes, some]
      have step : ∀ {h}, i ≤ h → (i + 1 ≤ h → fs.bg_free_inodes_count h = 0) →
          fs.bg_free_inodes_count h = 0 := by
        intro h low later
        by_cases here : h = i
        · rwa [here]
        · exact later (by omega)
      rw [next]
      rcases ih (i + 1) with ⟨run, all⟩ | ⟨g, run, high, free, before⟩
      · exact Or.inl ⟨run, fun h low high => step low (fun later => all h later (by omega))⟩
      · exact Or.inr ⟨g, run, by omega, free,
          fun h low high => step low (fun later => before h later high)⟩
    · have positive : fs.bg_free_inodes_count i > 0 := Nat.pos_of_ne_zero some
      exact Or.inr ⟨i, by simp [ext2OperateOnBg, ext2BgHasFreeInodes, positive], by omega, some,
        fun h low high => by omega⟩

theorem firstClear_byte (b : UInt8) : firstClear (andBit b.toNat) 0 8 = none ↔ b = 0xFF := by
  constructor
  · intro none
    apply UInt8.toNat_inj.mp
    apply Nat.eq_of_testBit_eq
    intro k
    rw [show (UInt8.toNat 0xFF) = 2 ^ 8 - 1 by decide, Nat.testBit_two_pow_sub_one]
    by_cases inside : k < 8
    · have bit := firstClear_none none k (by omega) (by omega)
      rw [andBit_eq] at bit
      simp [bit, inside]
    · have far : 2 ^ 8 ≤ 2 ^ k := Nat.pow_le_pow_right (by omega) (by omega)
      have low := b.toNat_lt
      rw [Nat.testBit_lt_two_pow (by omega)]
      simp [inside]
  · rintro rfl
    decide

theorem scanBytes_eq (m : Mem) (i n : Nat) :
    scanBytes m i n = match firstClear (bitAt m) (8 * i) (8 * n) with
      | some t => (t + 1) % 2 ^ 32
      | none => 0 := by
  induction n generalizing i with
  | zero => rfl
  | succ n ih =>
    have shift : firstClear (bitAt m) (8 * i) 8 =
        (firstClear (andBit (m i).toNat) 0 8).map (8 * i + ·) := by
      refine @firstClear_shift _ _ (8 * i) 0 8 ?_
      intro k _ high
      exact andBit_byte m i (by omega)
    have split : 8 * (n + 1) = 8 + 8 * n := by omega
    rw [split, firstClear_append, shift, ← Nat.mul_succ, scanBytes, ih]
    by_cases full : m i = 0xFF
    · rw [if_neg (not_not_intro full), (firstClear_byte (m i)).mpr full]
      rfl
    · rw [if_pos full]
      cases hit : firstClear (andBit (m i).toNat) 0 8 with
      | none => exact absurd ((firstClear_byte (m i)).mp hit) full
      | some j =>
        rw [Nat.mul_comm i 8]
        rfl

/-- Bit `i` of group `g`, the first group with free inodes, was its first clear one and has
    been counted as taken. It is set on the disk when its byte is one that a write keeps. -/
structure TakenInode (p : Partition) (view : σ → Nat → Mem) (stored g i : Nat) (fs fs' : Fs σ) :
    Prop where
  group : g < p.group_number
  before : ∀ h, h < g → fs.bg_free_inodes_count h = 0
  some : fs.bg_free_inodes_count g ≠ 0
  inside : i < 8 * p.blockSize
  clear : groupBits p.bg_inode_bitmap view fs.disk g i = false
  first : ∀ k, k < i → groupBits p.bg_inode_bitmap view fs.disk g k = true
  kept : i < 8 * stored → BitStored p.bg_inode_bitmap view g i true fs.disk fs'.disk
  lost : ¬ i < 8 * stored → view fs'.disk = view fs.disk
  free : fs'.bg_free_inodes_count = Function.update fs.bg_free_inodes_count g
    ((fs.bg_free_inodes_count g + (2 ^ 16 - 1)) % 2 ^ 16)

section Step
variable {dev : Dev σ} {p : Partition} {valid : Nat → Prop} {view : σ → Nat → Mem} {stored : Nat}
  {fs fs' : Fs σ}

theorem inodesPerGroup_bound (p : Partition) : p.s_inodes_per_group < 2 ^ 32 := by
  have h := getLE_bound p.sb 40 4
  simpa [Partition.s_inodes_per_group] using h

/-- What an allocation can do: nothing, where no group has a free inode, or take one bit. -/
theorem ext2AllocateInode_cases (stores : Stores dev p stored valid view)
    (bitmaps : OwnBitmaps p.bg_inode_bitmap p.group_number valid)
    (capacity : p.s_inodes_per_group ≤ 8 * p.blockSize) (state : InodeCounts p view fs) :
    (ext2AllocateInode dev p fs = (0, fs) ∧
      ∀ g, g < p.group_number → fs.bg_free_inodes_count g = 0) ∨
    ∃ g i fs', ext2AllocateInode dev p fs = (i + 1, fs') ∧
      TakenInode p view stored g i fs fs' := by
  rcases operateOnBg_inodes fs 0 p.group_number with ⟨none, all⟩ | ⟨g, found, high, free, before⟩
  · left
    exact ⟨by simp only [ext2AllocateInode, none], fun g low => all g (by omega) (by omega)⟩
  right
  rw [Nat.zero_add] at high
  have ok := bitmaps.valid g high
  obtain ⟨k, small, open'⟩ := state.counts.free_exists (g := ⟨g, high⟩) free
  cases hit : firstClear (bitAt (view fs.disk (p.bg_inode_bitmap g))) (8 * 0) (8 * p.blockSize) with
  | none =>
    have used := firstClear_none hit k (by omega) (by omega)
    rw [show bitAt _ k = false from open'] at used
    cases used
  | some i =>
    obtain ⟨_, inside, clear, first⟩ := firstClear_some hit
    have low : i < p.s_inodes_per_group :=
      @Counted.inside _ _ _ _ state.counts ⟨g, high⟩ i (by omega) clear
    have bound := inodesPerGroup_bound p
    have number : scanBytes (view fs.disk (p.bg_inode_bitmap g)) 0 p.blockSize = i + 1 := by
      rw [scanBytes_eq, hit]
      exact Nat.mod_eq_of_lt (by omega)
    have place : Partition.inodePlace (i + 1) = i := by
      unfold Partition.inodePlace
      omega
    obtain ⟨d', write, kept, lost⟩ := ext2WriteBlock_bit stores ok i fs.disk
    refine ⟨g, i, { fs with
        disk := d'
        bg_free_inodes_count := Function.update fs.bg_free_inodes_count g
          ((fs.bg_free_inodes_count g + (2 ^ 16 - 1)) % 2 ^ 16)
        s_free_inodes_count := (fs.s_free_inodes_count + (2 ^ 32 - 1)) % 2 ^ 32
        flush_required := true }, ?_,
      ⟨high, fun h below => before h (by omega) below, free, by omega, clear,
        fun k below => first k (by omega) below, kept, lost, rfl⟩⟩
    simp only [ext2AllocateInode, found, ext2ReadBlock_buffer stores.toReads ok, ne_eq,
      not_true_eq_false, ↓reduceIte, number, place, write, Nat.add_eq_zero_iff, Nat.one_ne_zero,
      and_false]

/-- The number an allocation returns is one of the first group, wherever its bit is. -/
theorem first_group_place {i : Nat} (inside : i < p.s_inodes_per_group) :
    p.inodeGroup (i + 1) = 0 ∧ p.inodeIndex (i + 1) = i := by
  have bound := inodesPerGroup_bound p
  have place : Partition.inodePlace (i + 1) = i := by
    unfold Partition.inodePlace
    omega
  rw [Partition.inodeGroup, Partition.inodeIndex, place]
  exact ⟨Nat.div_eq_of_lt inside, Nat.mod_eq_of_lt inside⟩

end Step

def FirstGroupServes (p : Partition) (view : σ → Nat → Mem) (stored : Nat) (fs : Fs σ) : Prop :=
  ∃ i, i < 8 * stored ∧ groupBits p.bg_inode_bitmap view fs.disk 0 i = false

section Fresh
variable {p : Partition} {valid : Nat → Prop} {view : σ → Nat → Mem} {stored g i : Nat}
  {fs fs' : Fs σ}
  (taken : TakenInode p view stored g i fs fs')
include taken

theorem TakenInode.low (state : InodeCounts p view fs) : i < p.s_inodes_per_group :=
  @Counted.inside _ _ _ _ state.counts ⟨g, taken.group⟩ i taken.inside taken.clear

theorem TakenInode.zero (state : InodeCounts p view fs) {k : Nat}
    (inside : k < p.s_inodes_per_group)
    (clear : groupBits p.bg_inode_bitmap view fs.disk 0 k = false) : g = 0 := by
  by_contra later
  have groups : 0 < p.group_number := Nat.lt_of_le_of_lt (Nat.zero_le g) taken.group
  have some := state.counts.free_positive (g := ⟨0, groups⟩) inside clear
  exact absurd (taken.before 0 (Nat.pos_of_ne_zero later)) (Nat.ne_of_gt some)

theorem TakenInode.serves_iff (state : InodeCounts p view fs) (short : stored ≤ p.blockSize) :
    FirstGroupServes p view stored fs ↔ g = 0 ∧ i < 8 * stored := by
  constructor
  · rintro ⟨k, low, clear⟩
    have groups : 0 < p.group_number := Nat.lt_of_le_of_lt (Nat.zero_le g) taken.group
    have inside := @Counted.inside _ _ _ _ state.counts ⟨0, groups⟩ k (by omega) clear
    obtain rfl := taken.zero state inside clear
    refine ⟨rfl, ?_⟩
    by_contra past
    have used := taken.first k (by omega)
    rw [clear] at used
    cases used
  · rintro ⟨rfl, low⟩
    exact ⟨i, low, taken.clear⟩

theorem TakenInode.fresh_iff (bitmaps : OwnBitmaps p.bg_inode_bitmap p.group_number valid)
    (state : InodeCounts p view fs) (short : stored ≤ p.blockSize) :
    (inodeBit p view fs.disk (i + 1) = false ∧ inodeBit p view fs'.disk (i + 1) = true) ↔
      FirstGroupServes p view stored fs := by
  have low := taken.low state
  obtain ⟨group, index⟩ := first_group_place low
  rw [taken.serves_iff state short, inodeBit, inodeBit, group, index]
  constructor
  · rintro ⟨clear, used⟩
    refine ⟨taken.zero state low clear, ?_⟩
    by_contra past
    rw [groupBits, taken.lost past] at used
    rw [groupBits] at clear
    rw [clear] at used
    cases used
  · rintro ⟨rfl, kept⟩
    refine ⟨taken.clear, ?_⟩
    rw [(taken.kept kept).bit bitmaps taken.group taken.group, if_pos ⟨rfl, rfl⟩]

theorem TakenInode.units (bitmaps : OwnBitmaps p.bg_inode_bitmap p.group_number valid)
    (state : InodeCounts p view fs) (kept : i < 8 * stored) :
    inodeUnits p view fs' = (inodeUnits p view fs).take ⟨g, taken.group⟩ i := by
  have narrow := state.narrow g taken.group
  have some := taken.some
  have count : (fs.bg_free_inodes_count g + (2 ^ 16 - 1)) % 2 ^ 16 =
      fs.bg_free_inodes_count g - 1 := by omega
  simp only [inodeUnits, Units.take, (taken.kept kept).table taken.group bitmaps, taken.free, count,
    update_group taken.group]

theorem TakenInode.counts (bitmaps : OwnBitmaps p.bg_inode_bitmap p.group_number valid)
    (state : InodeCounts p view fs) (kept : i < 8 * stored) : InodeCounts p view fs' := by
  constructor
  · rw [taken.units bitmaps state kept]
    exact state.counts.take (taken.low state) taken.clear
  · intro h low
    rw [taken.free]
    by_cases same : h = g
    · rw [same, Function.update_self]
      exact Nat.mod_lt _ (by decide)
    · rw [Function.update_of_ne same]
      exact state.narrow h low

end Fresh

structure InodeCall (σ : Type) where
  number : Nat
  before : Fs σ
  after : Fs σ

/-- `k` calls of `ext2_allocate_inode` with nothing in between. -/
def allocateInodes (dev : Dev σ) (p : Partition) : Nat → Fs σ → List (InodeCall σ)
  | 0, _ => []
  | k + 1, fs =>
    let (number, fs') := ext2AllocateInode dev p fs
    ⟨number, fs, fs'⟩ :: allocateInodes dev p k fs'

/-- Every number was free before its call and is used after it, and no two are the same. -/
structure FreshNumbers (p : Partition) (view : σ → Nat → Mem) (calls : List (InodeCall σ)) :
    Prop where
  free : ∀ call ∈ calls, inodeBit p view call.before.disk call.number = false
  used : ∀ call ∈ calls, inodeBit p view call.after.disk call.number = true
  distinct : (calls.map InodeCall.number).Nodup

section Runs
variable {dev : Dev σ} {p : Partition} {valid : Nat → Prop} {view : σ → Nat → Mem} {stored : Nat}
  (stores : Stores dev p stored valid view)
  (bitmaps : OwnBitmaps p.bg_inode_bitmap p.group_number valid)
  (capacity : p.s_inodes_per_group ≤ 8 * p.blockSize)
include stores bitmaps capacity

theorem allocateInodes_succ {k : Nat} {fs : Fs σ} (state : InodeCounts p view fs)
    (success : ∀ call ∈ allocateInodes dev p (k + 1) fs, call.number ≠ 0) :
    ∃ g i fs', TakenInode p view stored g i fs fs' ∧
      allocateInodes dev p (k + 1) fs = ⟨i + 1, fs, fs'⟩ :: allocateInodes dev p k fs' := by
  rcases ext2AllocateInode_cases stores bitmaps capacity state with
    ⟨run, _⟩ | ⟨g, i, fs', run, taken⟩
  · rw [allocateInodes, run] at success
    exact absurd rfl (success _ List.mem_cons_self)
  · exact ⟨g, i, fs', taken, by rw [allocateInodes, run]⟩

theorem fresh_run {k : Nat} {fs : Fs σ} (state : InodeCounts p view fs)
    (success : ∀ call ∈ allocateInodes dev p k fs, call.number ≠ 0)
    (serves : ∀ call ∈ allocateInodes dev p k fs, FirstGroupServes p view stored call.before) :
    FreshNumbers p view (allocateInodes dev p k fs) ∧
      ∀ call ∈ allocateInodes dev p k fs, inodeBit p view fs.disk call.number = false := by
  induction k generalizing fs with
  | zero => exact ⟨⟨nofun, nofun, List.nodup_nil⟩, nofun⟩
  | succ k ih =>
    obtain ⟨g, i, fs', taken, run⟩ := allocateInodes_succ stores bitmaps capacity state success
    rw [run] at success serves ⊢
    have first := serves _ List.mem_cons_self
    obtain ⟨clear, used⟩ := (taken.fresh_iff bitmaps state stores.stored_le).mpr first
    have kept := ((taken.serves_iff state stores.stored_le).mp first).2
    obtain ⟨later, start⟩ := ih (taken.counts bitmaps state kept)
      (List.forall_mem_cons.mp success).2 (List.forall_mem_cons.mp serves).2
    refine ⟨⟨?_, ?_, ?_⟩, ?_⟩
    · exact List.forall_mem_cons.mpr ⟨clear, later.free⟩
    · exact List.forall_mem_cons.mpr ⟨used, later.used⟩
    · -- a number that is returned again would have been free after the first call
      refine List.nodup_cons.mpr ⟨fun again => ?_, later.distinct⟩
      obtain ⟨call, member, same⟩ := List.mem_map.mp again
      have free := start call member
      rw [same, used] at free
      cases free
    · refine List.forall_mem_cons.mpr ⟨clear, fun call member => ?_⟩
      by_contra set
      have still := (taken.kept kept).mono (Bool.of_not_eq_false set)
      have free := start call member
      rw [show inodeBit p view fs'.disk call.number = true from still] at free
      cases free

theorem served_run {k : Nat} {fs : Fs σ} (state : InodeCounts p view fs)
    (success : ∀ call ∈ allocateInodes dev p k fs, call.number ≠ 0)
    (fresh : FreshNumbers p view (allocateInodes dev p k fs)) :
    ∀ call ∈ allocateInodes dev p k fs, FirstGroupServes p view stored call.before := by
  induction k generalizing fs with
  | zero => exact nofun
  | succ k ih =>
    obtain ⟨g, i, fs', taken, run⟩ := allocateInodes_succ stores bitmaps capacity state success
    rw [run] at success fresh ⊢
    obtain ⟨clear, free⟩ := List.forall_mem_cons.mp fresh.free
    obtain ⟨set, used⟩ := List.forall_mem_cons.mp fresh.used
    have first := (taken.fresh_iff bitmaps state stores.stored_le).mp ⟨clear, set⟩
    have kept := ((taken.serves_iff state stores.stored_le).mp first).2
    refine List.forall_mem_cons.mpr ⟨first, ih (taken.counts bitmaps state kept)
      (List.forall_mem_cons.mp success).2
      ⟨free, used, (List.nodup_cons.mp fresh.distinct).2⟩⟩

end Runs

theorem fresh_inodes_iff {dev : Dev σ} {p : Partition} {valid : Nat → Prop}
    {view : σ → Nat → Mem} {stored k : Nat} {fs : Fs σ} (stores : Stores dev p stored valid view)
    (bitmaps : OwnBitmaps p.bg_inode_bitmap p.group_number valid)
    (capacity : p.s_inodes_per_group ≤ 8 * p.blockSize) (state : InodeCounts p view fs)
    (success : ∀ call ∈ allocateInodes dev p k fs, call.number ≠ 0) :
    FreshNumbers p view (allocateInodes dev p k fs) ↔
      ∀ call ∈ allocateInodes dev p k fs, FirstGroupServes p view stored call.before :=
  ⟨served_run stores bitmaps capacity state success,
    fun serves => (fresh_run stores bitmaps capacity state success serves).1⟩

/- Two groups of eight inodes with their bitmaps in blocks 3 and 4 and their inode tables in
   blocks 5 and 6. Each bitmap has one byte of its own; the bits past the inodes are set. -/
section TwoGroups

def twoGroups : Partition :=
  plainPartition 0 2 8192 8 1
    (putLE (putLE (putLE (putLE blank 4 4 3) 36 4 4) 8 4 5) 40 4 6)

def twoBitmap (byte : UInt8) : Mem := fun i => if i = 0 then byte else 0xFF

def twoState (first second : UInt8) : Fs (Nat → Mem) where
  disk := layout twoGroups fun b => twoBitmap (if b = 3 then first else second)
  bg_free_blocks_count := fun _ => 0
  bg_free_inodes_count := fun g =>
    clearCount (bitAt (twoBitmap (if g = 0 then first else second))) 8
  bg_used_dirs_count := fun _ => 0
  s_free_blocks_count := 0
  s_free_inodes_count := 0
  flush_required := false

theorem two_aligned : Aligned twoGroups := plainPartition_aligned (by decide)

theorem two_bitmaps : OwnBitmaps twoGroups.bg_inode_bitmap twoGroups.group_number
    (InReach twoGroups) where
  valid := by decide
  distinct := by
    have distinct : ∀ g, g < 2 → ∀ h, h < 2 →
        twoGroups.bg_inode_bitmap g = twoGroups.bg_inode_bitmap h → g = h := by decide
    exact fun g h group other => distinct g group h other

theorem two_bits (first second : UInt8) {g i : Nat} (group : g < 2) (inside : i < 8 * 1024) :
    groupBits twoGroups.bg_inode_bitmap (reachView twoGroups) (twoState first second).disk g i =
      bitAt (twoBitmap (if g = 0 then first else second)) i := by
  have place : ∀ g, g < 2 → twoGroups.bg_inode_bitmap g = 3 + g := by decide
  have reach := two_bitmaps.valid g group
  have size : twoGroups.blockSize = 1024 := by decide
  have sectors : twoGroups.blockSectors = 2 := by decide
  rw [place g group] at reach
  rw [groupBits, place g group, bitAt, twoState,
    layout_view two_aligned rfl (by decide) reach (by rw [sectors]; omega) (by rw [size]; omega)]
  simp [bitAt]

theorem two_counts (first second : UInt8) :
    InodeCounts twoGroups (reachView twoGroups) (twoState first second) := by
  have size : twoGroups.blockSize = 1024 := by decide
  have inodes : twoGroups.s_inodes_per_group = 8 := by decide
  refine ⟨⟨?_, ?_⟩, ?_⟩
  · intro g
    rw [inodes]
    refine clearCount_congr (fun i low => ?_)
    exact (two_bits first second g.isLt (by omega)).symm
  · intro g i past low
    rw [size] at low
    rw [inodes] at past
    refine (two_bits first second g.isLt low).trans ?_
    have byte : ∀ k, k < 8 → (UInt8.toNat 0xFF).testBit k = true := by decide
    rw [bitAt, twoBitmap, if_neg (by omega), byte _ (Nat.mod_lt i (by omega))]
  · intro g _
    have le := clearCount_le (bitAt (twoBitmap (if g = 0 then first else second))) 8
    dsimp only [twoState]
    omega

end TwoGroups

/-- Two inodes from the first group. -/
theorem fresh_inodes_pair :
    FreshNumbers twoGroups (reachView twoGroups)
      (allocateInodes reliable twoGroups 2 (twoState 0x0F 0)) := by
  refine (fresh_inodes_iff (reliable_stores two_aligned (by decide)) two_bitmaps (by decide)
    (two_counts 0x0F 0) (by decide)).mpr ?_
  exact List.forall_mem_cons.mpr ⟨⟨4, by decide, by decide⟩,
    List.forall_mem_cons.mpr ⟨⟨5, by decide, by decide⟩, nofun⟩⟩

/-- With the first group full, inode 1 is handed out although it is in use. -/
theorem fresh_inodes_repeat :
    ¬ ∀ (σ : Type) (dev : Dev σ) (p : Partition) (valid : Nat → Prop) (view : σ → Nat → Mem)
      (stored k : Nat) (fs : Fs σ), Stores dev p stored valid view →
      OwnBitmaps p.bg_inode_bitmap p.group_number valid →
      p.s_inodes_per_group ≤ 8 * p.blockSize → InodeCounts p view fs →
      (∀ call ∈ allocateInodes dev p k fs, call.number ≠ 0) →
      FreshNumbers p view (allocateInodes dev p k fs) := by
  intro all
  have fresh := all _ _ _ _ _ _ 1 (twoState 0xFF 0) (reliable_stores two_aligned (by decide))
    two_bitmaps (by decide) (two_counts 0xFF 0) (by decide)
  exact absurd (fresh.free _ List.mem_cons_self) (by decide)

end OmenExt2
