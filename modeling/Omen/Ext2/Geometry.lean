import Omen.Ext2.Registration

/- `ext2_partition_register_partition` with the faults that the source does not guard against: a
   shift by 32 or more, a division by zero, and a store behind the 64 entries for copies of the
   superblock. -/
namespace OmenExt2
open ByteMemory OmenDisk

variable {σ : Type}

inductive GeometryFault
  | wideShift
  | zeroDivisor
  | copyOverflow
  deriving DecidableEq

def storeCopies (dev : Dev σ) (p : Partition) (i : Nat) :
    Nat → List Nat → σ → Except GeometryFault (Option (List Nat)) × σ
  | 0, found, d => (.ok (some found), d)
  | n + 1, found, d =>
    let (done, sb, d') := dev.readDisk (p.backupSector i) 1024 blank 0 d
    if done = 0 then (.ok none, d')
    else if sMagic sb = superMagic then
      if found.length < 64 then storeCopies dev p (i + 1) n (found ++ [i]) d'
      else (.error .copyOverflow, d')
    else storeCopies dev p (i + 1) n found d'

def groupsRegistration (dev : Dev σ) (p : Partition) (d : σ) :
    Except GeometryFault (Option Partition) × σ :=
  match storeCopies dev p 0 p.group_number [] d with
  | (.error fault, d1) => (.error fault, d1)
  | (.ok none, d1) => (.ok none, d1)
  | (.ok (some copies), d1) =>
    let (done, gd, d2) := dev.readDisk p.descriptorSector p.descriptorBytes blank 0 d1
    if done = 0 then (.ok none, d2)
    else
      (.ok (some { p with
          backup_bgs := backupTable copies
          backup_bgs_count := copies.length
          gd := memcpy blank 0 gd p.descriptorBytes }), d2)

def superblockRegistration (dev : Dev σ) (p : Partition) (d : σ) :
    Except GeometryFault (Option Partition) × σ :=
  if 32 ≤ p.s_log_block_size then (.error .wideShift, d)
  else if p.s_blocks_per_group = 0 ∨ p.s_inodes_per_group = 0 then (.error .zeroDivisor, d)
  else if p.group_number ≠ p.groupsByInodes then (.ok none, d)
  else groupsRegistration dev p d

def registration (dev : Dev σ) (lba sector_size : Nat) (d : σ) :
    Except GeometryFault (Option Partition) × σ :=
  if sector_size = 0 ∨ 4096 < sector_size then (.ok none, d)
  else
    let (done, sb, d1) := dev.readDisk ((lba + sbOffsetLba) % 2 ^ 32) 1024 blank 0 d
    if done = 0 then (.ok none, d1)
    else if sMagic sb ≠ superMagic then (.ok none, d1)
    else superblockRegistration dev (superblockPartition lba sector_size sb) d1

/-- The groups, up to the first one that cannot be read, at whose start the magic number is
    found. -/
def copiesFound (dev : Dev σ) (p : Partition) (i : Nat) : Nat → σ → Nat
  | 0, _ => 0
  | n + 1, d =>
    let (done, sb, d') := dev.readDisk (p.backupSector i) 1024 blank 0 d
    if done = 0 then 0
    else (if sMagic sb = superMagic then 1 else 0) + copiesFound dev p (i + 1) n d'

section Copies
variable {dev : Dev σ} {p : Partition}

theorem storeCopies_few {i n : Nat} {found : List Nat} {d : σ}
    (few : found.length + copiesFound dev p i n d ≤ 64) :
    ∃ copies d', storeCopies dev p i n found d = (.ok copies, d') ∧
      ∀ all, copies = some all → all.length ≤ 64 := by
  induction n generalizing i found d with
  | zero =>
    refine ⟨some found, d, rfl, fun all same => ?_⟩
    cases same
    exact few
  | succ n ih =>
    rcases read : dev.readDisk (p.backupSector i) 1024 blank 0 d with ⟨done, sb, d'⟩
    simp only [storeCopies, copiesFound, read] at few ⊢
    by_cases failed : done = 0
    · rw [if_pos failed]
      exact ⟨none, d', rfl, fun _ same => by cases same⟩
    · rw [if_neg failed] at few ⊢
      by_cases copy : sMagic sb = superMagic
      · rw [if_pos copy] at few ⊢
        rw [if_pos (by omega)]
        exact ih (by rw [List.length_append, List.length_singleton]; omega)
      · rw [if_neg copy] at few ⊢
        exact ih (by omega)

theorem storeCopies_many {i n : Nat} {found : List Nat} {d : σ} (room : found.length ≤ 64)
    (many : 64 < found.length + copiesFound dev p i n d) :
    (storeCopies dev p i n found d).1 = .error .copyOverflow := by
  induction n generalizing i found d with
  | zero =>
    rw [copiesFound] at many
    omega
  | succ n ih =>
    rcases read : dev.readDisk (p.backupSector i) 1024 blank 0 d with ⟨done, sb, d'⟩
    simp only [storeCopies, copiesFound, read] at many ⊢
    by_cases failed : done = 0
    · rw [if_pos failed] at many
      omega
    · rw [if_neg failed] at many ⊢
      by_cases copy : sMagic sb = superMagic
      · rw [if_pos copy] at many ⊢
        by_cases full : found.length < 64
        · rw [if_pos full]
          apply ih
          · rw [List.length_append, List.length_singleton]
            omega
          · rw [List.length_append, List.length_singleton]
            omega
        · rw [if_neg full]
      · rw [if_neg copy] at many ⊢
        exact ih room (by omega)

theorem groupsRegistration_many {d : σ} (many : 64 < copiesFound dev p 0 p.group_number d) :
    (groupsRegistration dev p d).1 = .error .copyOverflow := by
  have stored := @storeCopies_many σ dev p 0 p.group_number [] d (by simp) (by simpa using many)
  rcases run : storeCopies dev p 0 p.group_number [] d with ⟨result, d1⟩
  rw [run] at stored
  cases stored
  simp [groupsRegistration, run]

end Copies

def Partition.descriptorSpan (p : Partition) : Nat :=
  divideRoundedUp (2 ^ 64) (p.group_number * 32) p.sector_size * p.sector_size

/-- The bytes that the driver is asked for, behind the `int` of `read_disk`, are just the whole
    sectors that hold the descriptors of the groups of the partition. -/
def DescriptorsExact (p : Partition) : Prop :=
  32 * p.group_number ≤ widen p.descriptorBytes ∧
    widen p.descriptorBytes < 32 * p.group_number + p.sector_size

theorem descriptorsExact_iff {p : Partition} (positive : 0 < p.sector_size)
    (small : p.sector_size ≤ 4096) (groups : p.group_number < 2 ^ 32) :
    DescriptorsExact p ↔ p.descriptorSpan < 2 ^ 31 := by
  have bounds := @divideRoundedUp_bounds (2 ^ 64) (p.group_number * 32) p.sector_size positive
    (by omega)
  have bytes : p.descriptorBytes = p.descriptorSpan % 2 ^ 32 := by
    rw [Partition.descriptorBytes, Partition.descriptorSectors, Partition.descriptorSpan,
      Nat.mod_mul_mod]
  change p.group_number * 32 ≤ p.descriptorSpan ∧
    p.descriptorSpan < p.group_number * 32 + p.sector_size at bounds
  rw [DescriptorsExact, bytes, widen]
  generalize p.descriptorSpan = span at bounds ⊢
  split
  · omega
  · omega

/-- The call has refused the partition, or it has completed without fault, with at most 64
    copies of the superblock and the descriptors of exactly its groups. -/
def SoundlyRegistered : Except GeometryFault (Option Partition) → Prop
  | .error _ => False
  | .ok none => True
  | .ok (some p) => p.backup_bgs_count ≤ 64 ∧ DescriptorsExact p

def GroupsRead (dev : Dev σ) (p : Partition) (d : σ) : Prop :=
  ∃ copies d', storeCopies dev p 0 p.group_number [] d = (.ok (some copies), d') ∧
    (dev.readDisk p.descriptorSector p.descriptorBytes blank 0 d').1 ≠ 0

/-- A superblock with a geometry that registration can compute with. Where the two counts of
    groups differ it refuses the partition. -/
structure PossibleGeometry (dev : Dev σ) (p : Partition) (d : σ) : Prop where
  shift : p.s_log_block_size < 32
  divisors : p.s_blocks_per_group ≠ 0 ∧ p.s_inodes_per_group ≠ 0
  copies : p.group_number = p.groupsByInodes → copiesFound dev p 0 p.group_number d ≤ 64
  descriptors : p.group_number = p.groupsByInodes → GroupsRead dev p d →
    p.descriptorSpan < 2 ^ 31

section Sound
variable {dev : Dev σ} {p : Partition} {d : σ}

theorem groupsRegistration_sound_iff (sectors : 0 < p.sector_size ∧ p.sector_size ≤ 4096)
    (small : p.group_number < 2 ^ 32) (few : copiesFound dev p 0 p.group_number d ≤ 64) :
    SoundlyRegistered (groupsRegistration dev p d).1 ↔
      (GroupsRead dev p d → p.descriptorSpan < 2 ^ 31) := by
  obtain ⟨found, d1, stored, short⟩ :=
    @storeCopies_few σ dev p 0 p.group_number [] d (by simpa using few)
  rw [groupsRegistration, stored]
  cases found with
  | none =>
    apply iff_of_true trivial
    rintro ⟨copies, d', run, -⟩
    rw [stored] at run
    cases run
  | some copies =>
    rcases read : dev.readDisk p.descriptorSector p.descriptorBytes blank 0 d1 with ⟨done, gd, d2⟩
    simp only [read]
    have reads : GroupsRead dev p d ↔ done ≠ 0 := by
      constructor
      · rintro ⟨copies', d', run, success⟩
        rw [stored] at run
        cases run
        rwa [read] at success
      · intro success
        exact ⟨copies, d1, stored, by rwa [read]⟩
    rw [reads]
    by_cases failed : done = 0
    · rw [if_pos failed]
      exact iff_of_true trivial fun success => absurd failed success
    · rw [if_neg failed, ← descriptorsExact_iff sectors.1 sectors.2 small]
      constructor
      · intro sound _
        exact sound.2
      · intro exactly
        exact ⟨short copies rfl, exactly failed⟩

theorem superblockRegistration_sound_iff (sectors : 0 < p.sector_size ∧ p.sector_size ≤ 4096)
    (small : p.group_number < 2 ^ 32) :
    SoundlyRegistered (superblockRegistration dev p d).1 ↔ PossibleGeometry dev p d := by
  rw [superblockRegistration]
  by_cases wide : 32 ≤ p.s_log_block_size
  · rw [if_pos wide]
    exact iff_of_false id fun possible => by have := possible.shift; omega
  rw [if_neg wide]
  by_cases zero : p.s_blocks_per_group = 0 ∨ p.s_inodes_per_group = 0
  · rw [if_pos zero]
    refine iff_of_false id fun possible => ?_
    rcases zero with blocks | inodes
    · exact possible.divisors.1 blocks
    · exact possible.divisors.2 inodes
  rw [if_neg zero]
  obtain ⟨blocks, inodes⟩ := not_or.mp zero
  by_cases groups : p.group_number = p.groupsByInodes
  · rw [if_neg (not_not.mpr groups)]
    by_cases few : copiesFound dev p 0 p.group_number d ≤ 64
    · rw [groupsRegistration_sound_iff sectors small few]
      constructor
      · intro exactly
        exact ⟨by omega, ⟨blocks, inodes⟩, fun _ => few, fun _ => exactly⟩
      · intro possible
        exact possible.descriptors groups
    · rw [groupsRegistration_many (by omega)]
      exact iff_of_false id fun possible => few (possible.copies groups)
  · rw [if_pos groups]
    exact iff_of_true trivial ⟨by omega, ⟨blocks, inodes⟩, fun same => absurd same groups,
      fun same => absurd same groups⟩

end Sound

theorem superblock_groups_bound (lba sector_size : Nat) (sb : Mem) :
    (superblockPartition lba sector_size sb).group_number < 2 ^ 32 := by
  have blocks := getLE_bound sb 4 4
  change divideRoundedUp (2 ^ 32) (getLE sb 4 4) (getLE sb 32 4) < 2 ^ 32
  rw [divideRoundedUp]
  split
  · exact Nat.lt_of_le_of_lt (Nat.div_le_self _ _) (Nat.mod_lt _ (by decide))
  · exact Nat.lt_of_le_of_lt (Nat.div_le_self _ _) (by simpa using blocks)

def smallSuperblock (log : Nat) : Mem :=
  putLE (putLE (putLE (putLE (putLE (putLE blank 0 4 16) 4 4 16) 24 4 log) 32 4 16) 40 4 16)
    56 2 superMagic

def smallDisk (log : Nat) : Nat → Mem :=
  Function.update (fun _ => blank) 2 (smallSuperblock log)

theorem small_geometry : PossibleGeometry reliable
    (superblockPartition 0 512 (superblockAt (smallDisk 0) 0)) (smallDisk 0) where
  shift := by decide +kernel
  divisors := by decide +kernel
  copies := by decide +kernel
  descriptors := by
    intro _ _
    decide +kernel

end OmenExt2
