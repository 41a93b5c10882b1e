import Omen.Library.RecordChain
import Omen.Ext2.ReadBytes

/- Directory contents as chains of `ext2_directory_entry` records in a buffer, and the C
   strings that names are compared as. A name in a record ends where `name_len` says; a
   name given by a caller ends at its NUL. -/
namespace OmenExt2
open ByteMemory RecordChain OmenDisk PointerTree

variable {σ : Type}

def strMaxSize : Nat := 65536

def cString (s : List UInt8) : Mem := fun i => s.getD i 0

def strlen (s : List UInt8) : Nat := min s.length strMaxSize

def strncmp (s1 s2 : Mem) (i : Nat) : Nat → Int
  | 0 => 0
  | n + 1 =>
    if s1 i ≠ s2 i then ((s1 i).toNat : Int) - (s2 i).toNat
    else if s1 i = 0 then 0
    else strncmp s1 s2 (i + 1) n

def entryInode (m : Mem) (pos : Nat) : Nat := getLE m pos 4
def recLen (m : Mem) (pos : Nat) : Nat := getLE m (pos + 4) 2
def nameLen (m : Mem) (pos : Nat) : Nat := (m (pos + 6)).toNat
def fileType (m : Mem) (pos : Nat) : Nat := (m (pos + 7)).toNat

def entryName (m : Mem) (pos : Nat) : List UInt8 :=
  (List.range (nameLen m pos)).map fun i => m (pos + 8 + i)

structure Entry where
  inode : Nat
  file_type : Nat
  name : List UInt8
  deriving DecidableEq

def entryAt (m : Mem) (pos : Nat) : Entry := ⟨entryInode m pos, fileType m pos, entryName m pos⟩

def Live (m : Mem) (pos : Nat) : Prop := entryInode m pos ≠ 0

instance (m : Mem) (pos : Nat) : Decidable (Live m pos) :=
  inferInstanceAs (Decidable (entryInode m pos ≠ 0))

theorem recLen_bound (m : Mem) (pos : Nat) : recLen m pos < 2 ^ 16 := by
  have h := getLE_bound m (pos + 4) 2
  simpa [recLen] using h

theorem entryInode_bound (m : Mem) (pos : Nat) : entryInode m pos < 2 ^ 32 := by
  have h := getLE_bound m pos 4
  simpa [entryInode] using h

theorem nameLen_bound (m : Mem) (pos : Nat) : nameLen m pos < 256 := (m (pos + 6)).toNat_lt

theorem entryName_length (m : Mem) (pos : Nat) : (entryName m pos).length = nameLen m pos := by
  simp [entryName]

theorem entryAt_congr {a b : Mem} {pos : Nat}
    (same : ∀ i, pos ≤ i → i < pos + 8 + nameLen a pos → i < pos + 4 ∨ pos + 6 ≤ i → a i = b i) :
    entryAt a pos = entryAt b pos := by
  have length : nameLen a pos = nameLen b pos := by
    rw [nameLen, nameLen, same (pos + 6) (by omega) (by omega) (by omega)]
  have inode : entryInode a pos = entryInode b pos :=
    getLE_congr (fun i low high => same i (by omega) (by omega) (by omega))
  have type : fileType a pos = fileType b pos := by
    rw [fileType, fileType, same (pos + 7) (by omega) (by omega) (by omega)]
  have name : entryName a pos = entryName b pos := by
    rw [entryName, entryName, ← length]
    refine List.map_congr_left ?_
    intro i member
    have low := List.mem_range.mp member
    exact same (pos + 8 + i) (by omega) (by omega) (by omega)
  rw [entryAt, entryAt, inode, type, name]

theorem entryAt_advance (m : Mem) (start pos : Nat) :
    entryAt (advance m start) pos = entryAt m (start + pos) := by
  simp only [entryAt, entryInode, fileType, entryName, nameLen, getLE_advance, advance,
    Nat.add_assoc]

theorem entryAt_copy (target m : Mem) (pos : Nat) :
    entryAt (memcpy target 0 (advance m pos) 263) 0 = entryAt m pos := by
  have long := nameLen_bound m pos
  have length : nameLen (memcpy target 0 (advance m pos) 263) 0 = nameLen m pos := by
    rw [nameLen, memcpy_inside (by omega) (by omega)]
    rfl
  rw [entryAt_congr (b := advance m pos), entryAt_advance, Nat.add_zero]
  intro i low high _
  rw [length] at high
  rw [memcpy_inside (by omega) (by omega), Nat.sub_zero]

def entryHeader (inode length nameLength type : Nat) : Mem :=
  putLE (putLE (putLE (putLE blank 0 4 inode) 4 2 length) 6 1 nameLength) 7 1 type

def putRecord (m : Mem) (pos inode length type : Nat) (name : List UInt8) : Mem :=
  memcpy (memcpy m pos (entryHeader inode length name.length type) 8) (pos + 8) (cString name)
    name.length

structure NamedEntries (m : Mem) (offsets : List Nat) : Prop where
  unique : ∀ a ∈ offsets, ∀ b ∈ offsets, Live m a → Live m b → entryName m a = entryName m b → a = b
  nonempty : ∀ a ∈ offsets, Live m a → entryName m a ≠ []
  string : ∀ a ∈ offsets, Live m a → (0 : UInt8) ∉ entryName m a
  number : ∀ a ∈ offsets, entryInode m a < 2 ^ 32 - 2

instance (m : Mem) (offsets : List Nat) : Decidable (NamedEntries m offsets) :=
  decidable_of_iff ((∀ a ∈ offsets, ∀ b ∈ offsets, Live m a → Live m b →
      entryName m a = entryName m b → a = b) ∧ (∀ a ∈ offsets, Live m a → entryName m a ≠ []) ∧
      (∀ a ∈ offsets, Live m a → (0 : UInt8) ∉ entryName m a) ∧
      ∀ a ∈ offsets, entryInode m a < 2 ^ 32 - 2)
    ⟨fun ⟨unique, nonempty, string, number⟩ => ⟨unique, nonempty, string, number⟩,
      fun ⟨unique, nonempty, string, number⟩ => ⟨unique, nonempty, string, number⟩⟩

/-- The stored bytes and the name do not differ before the end of the stored ones or the
    NUL of the name. -/
def EqualUpTo (stored name : List UInt8) : Prop := stored <+: name ∨ name ++ [0] <+: stored

instance (stored name : List UInt8) : Decidable (EqualUpTo stored name) :=
  inferInstanceAs (Decidable (stored <+: name ∨ name ++ [0] <+: stored))

theorem bytes_differ {a b : UInt8} (other : a ≠ b) : (a.toNat : Int) - b.toNat ≠ 0 := by
  intro zero
  exact other (UInt8.toNat_inj.mp (by omega))

theorem strncmp_equalUpTo (s : Mem) {name : List UInt8} (string : (0 : UInt8) ∉ name) (i n : Nat) :
    strncmp s (cString name) i n = 0 ↔
      EqualUpTo ((List.range n).map fun k => s (i + k)) (name.drop i) := by
  induction n generalizing i with
  | zero => simp [strncmp, EqualUpTo]
  | succ n ih =>
    have step : (List.range (n + 1)).map (fun k => s (i + k)) =
        s i :: (List.range n).map fun k => s (i + 1 + k) := by
      rw [List.range_succ_eq_map, List.map_cons, List.map_map]
      congr 1
      refine List.map_congr_left ?_
      intro k _
      simp [Nat.add_comm, Nat.add_left_comm]
    rw [strncmp, step]
    by_cases past : name.length ≤ i
    · have zero : cString name i = 0 := by simp [cString, past]
      rw [zero, List.drop_eq_nil_of_le past]
      by_cases stop : s i = 0
      · simp [stop, EqualUpTo]
      · have differ := bytes_differ stop
        simp only [stop, ne_eq, not_false_eq_true, ↓reduceIte, differ, false_iff]
        simp only [EqualUpTo, List.prefix_nil, reduceCtorEq, List.nil_append, List.cons_prefix_cons,
          List.nil_prefix, and_true, false_or]
        exact fun h => stop h.symm
    · have inside : i < name.length := by omega
      have char : cString name i = name[i] := by simp [cString, inside]
      have nonzero : name[i] ≠ 0 := fun zero => string (zero ▸ List.getElem_mem inside)
      rw [char, List.drop_eq_getElem_cons inside]
      by_cases same : s i = name[i]
      · simp only [same, ne_eq, not_true_eq_false, ↓reduceIte, nonzero]
        rw [ih (i + 1)]
        simp only [EqualUpTo, List.cons_append, List.cons_prefix_cons, true_and]
      · have differ := bytes_differ same
        simp only [same, ne_eq, not_false_eq_true, ↓reduceIte, differ, false_iff]
        simp only [EqualUpTo, List.cons_append, List.cons_prefix_cons, same, false_and, false_or,
          Ne.symm same, not_false_eq_true]

theorem strncmp_entry (m : Mem) (pos : Nat) {name : List UInt8} (string : (0 : UInt8) ∉ name) :
    strncmp (advance m (pos + 8)) (cString name) 0 (nameLen m pos) = 0 ↔
      EqualUpTo (entryName m pos) name := by
  have bytes : (List.range (nameLen m pos)).map (fun k => advance m (pos + 8) (0 + k)) =
      entryName m pos := by
    simp [entryName, advance]
  rw [strncmp_equalUpTo _ string, bytes, List.drop_zero]

theorem bytes_prefix {name stored : List UInt8} (string : (0 : UInt8) ∉ name) :
    (List.range name.length).map (fun k => stored.getD k 0) = name ↔ name <+: stored := by
  induction name generalizing stored with
  | nil => simp
  | cons c rest ih =>
    obtain ⟨first, others⟩ := not_or.mp (fun h => string (List.mem_cons.mpr h))
    rw [List.length_cons, List.range_succ_eq_map, List.map_cons, List.map_map]
    cases stored with
    | nil =>
      simp only [List.getD_nil, List.cons.injEq, List.prefix_nil, reduceCtorEq, iff_false, not_and]
      intro zero
      exact absurd zero first
    | cons d tail =>
      have shift : (List.range rest.length).map ((fun k => (d :: tail).getD k 0) ∘ Nat.succ) =
          (List.range rest.length).map fun k => tail.getD k 0 := by
        refine List.map_congr_left ?_
        intro k _
        simp
      rw [shift, List.cons_prefix_cons, ← ih others, List.getD_cons_zero, List.cons.injEq]
      exact and_congr_left (fun _ => eq_comm)

theorem strncmp_iff {name stored : List UInt8} (string : (0 : UInt8) ∉ name)
    (short : stored.length < 256) :
    strncmp (cString stored) (cString name) 0 (strlen name) = 0 ↔ name <+: stored := by
  have bytes : (List.range (strlen name)).map (fun k => cString stored (0 + k)) =
      (List.range (strlen name)).map fun k => stored.getD k 0 := by
    simp [cString]
  rw [strncmp_equalUpTo _ string, List.drop_zero, bytes]
  by_cases whole : name.length ≤ strMaxSize
  · have length : strlen name = name.length := Nat.min_eq_left whole
    rw [length, ← bytes_prefix string, EqualUpTo]
    constructor
    · rintro (start | longer)
      · exact start.eq_of_length (by simp)
      · have bound := longer.length_le
        simp at bound
    · intro same
      exact Or.inl (same.symm ▸ List.prefix_refl name)
  · have length : strlen name = strMaxSize := Nat.min_eq_right (by omega)
    rw [length]
    refine iff_of_false ?_ ?_
    · rintro (start | longer)
      · -- the stored name ends long before the part of the name that is compared
        refine string (start.subset (List.mem_map.mpr ⟨stored.length, ?_, ?_⟩))
        · exact List.mem_range.mpr (by unfold strMaxSize; omega)
        · simp
      · have bound := longer.length_le
        simp only [List.length_append, List.length_map, List.length_range] at bound
        omega
    · intro start
      have bound := start.length_le
      unfold strMaxSize at whole
      omega

def contents (size total : Nat) (file : Nat → Mem) : Mem :=
  memcpy blank 0 (fileByte size file) total

def inodeTypeDir : Nat := 0x4000

structure ReadableDirectory (dev : Dev σ) (p : Partition) (n : Nat) (inode : Mem) (d : σ)
    (m : Mem) : Prop where
  found : ext2ReadInode dev p n d = (some inode, d)
  directory : i_mode inode &&& inodeTypeDir ≠ 0
  read : ext2ReadInodeBytes (inodeOps dev p n) p blank (i_size inode) 0 d = (i_size inode, m, d)
  past : ∀ i, i_size inode ≤ i → m i = 0

theorem ext2ReadInodeBytes_contents {ops : FileOps σ} {good : σ → Prop} {p : Partition}
    {blocks : Nat} {file : σ → Nat → Mem} {d : σ} {total : Nat} (fits : ShiftFits p)
    (array : ReadArray ops good p.blockSize blocks file) (start : good d)
    (small : total < 2 ^ 32) (sized : total ≤ blocks * p.blockSize) :
    ext2ReadInodeBytes ops p blank total 0 d = (total, contents p.blockSize total (file d), d) := by
  by_cases none : total = 0
  · subst none
    have nothing : ¬ 0 < remainingBytes 0 0 := by decide
    simp only [ext2ReadInodeBytes, readHead, readMiddle, readTail, Nat.zero_mod, ne_eq,
      not_true_eq_false, ↓reduceIte, nothing, bind, Except.bind]
    congr 2
  · obtain ⟨reached, done, dest, run, within, result⟩ :=
      @ext2ReadInodeBytes_stages _ ops good p blocks file d total 0 fits array start (by omega)
        small (by omega) blank
    rw [if_pos (within.mpr (Or.inl (Nat.zero_mod _)))] at result
    have returned : done = total := result.returned
    have bytes : dest = contents p.blockSize total (file d) := by
      funext i
      by_cases low : i < total
      · have filled := result.filled i low
        rw [Nat.zero_add] at filled
        rw [contents, memcpy_inside (by omega) (by omega), Nat.sub_zero]
        exact filled
      · rw [contents, memcpy_outside (by omega)]
        exact result.rest i (by omega)
    rw [run, returned, bytes]

def onRead {α : Type} (result : Option Mem × σ) (failed : σ → α) (next : Mem → σ → α) : α :=
  match result with
  | (none, d) => failed d
  | (some buffer, d) => next buffer d

@[simp] theorem onRead_some {α : Type} (buffer : Mem) (d : σ) (failed : σ → α)
    (next : Mem → σ → α) : onRead (some buffer, d) failed next = next buffer d := rfl

/-- The buffer of a read that did not return `EXT2_READ_FAILED`. -/
def bufferRead : Nat × Mem × σ → Option Mem × σ
  | (done, buffer, d) => if done = ext2ReadFailed then (none, d) else (some buffer, d)

def readEntries (dev : Dev σ) (p : Partition) (inodeNumber : Nat) (inode : Mem) (d : σ) :
    Option Mem × σ :=
  bufferRead (ext2ReadInodeBytes (inodeOps dev p inodeNumber) p blank (i_size inode) 0 d)

theorem readEntries_done {dev : Dev σ} {p : Partition} {n done : Nat} {inode buffer : Mem}
    {d d' : σ}
    (run : ext2ReadInodeBytes (inodeOps dev p n) p blank (i_size inode) 0 d = (done, buffer, d'))
    (ok : done ≠ ext2ReadFailed) : readEntries dev p n inode d = (some buffer, d') := by
  rw [readEntries, run, bufferRead, if_neg ok]

theorem ReadableDirectory.entries {dev : Dev σ} {p : Partition} {n : Nat} {inode m : Mem} {d : σ}
    (readable : ReadableDirectory dev p n inode d m) (words : i_size inode % 4 = 0) :
    readEntries dev p n inode d = (some m, d) := by
  refine readEntries_done readable.read ?_
  unfold ext2ReadFailed
  omega

/- A root directory of one block on the disk of the thirteen blocks: inode 2 stands in
   block 40 and its only block is 20. -/
section Root
variable (dir : Mem)

def rootTable : Mem := putLE (putLE (putLE blank 128 2 inodeTypeDir) 132 4 1024) 168 4 20

def rootBlocks (b : Nat) : Mem := if b = 20 then dir else if b = 40 then rootTable else blank

def rootDisk : Nat → Mem := layout thirteenPartition (rootBlocks dir)

def rootFile : Mem := memcpy blank 0 (advance rootTable 128) 128

theorem layout_root_found {blocks : Nat → Mem}
    (stored : memcpy blank 0 (advance (blocks 40) 128) 128 = rootFile) :
    ext2ReadInode reliable thirteenPartition 2 (layout thirteenPartition blocks) =
      (some rootFile, layout thirteenPartition blocks) := by
  have offset : thirteenPartition.inodeOffset 2 = 128 := by decide
  have length : thirteenPartition.inodeSize = 128 := by decide
  have run := @layout_inode_at thirteenPartition thirteen_aligned rfl (by decide) 2 40 (by decide)
    (by rw [thirteen_size]; decide) (thirteen_reach (by decide) (by decide))
    (by rw [thirteen_sectors]; decide) blocks
  rw [offset, length, stored] at run
  exact run

theorem root_array :
    BlockArray (inodeOps reliable thirteenPartition 2)
      (fun d => ext2ReadInode reliable thirteenPartition 2 d = (some rootFile, d))
      thirteenPartition.blockSize 1 (directFile (reachView thirteenPartition) rootFile 1) := by
  have pointer : ∀ {i}, i < 1 → i_block rootFile i = 20 := by
    intro i low
    rw [Nat.lt_one_iff.mp low]
    decide
  refine @direct_array _ reliable thirteenPartition _ _ (bytePartition_stores (by decide)) 2 40 1
    rootFile (by decide) (by decide) (thirteen_reach (by decide) (by decide)) ?_ ?_ ?_
  · intro i low
    rw [pointer low]
    exact thirteen_reach (by decide) (by decide)
  · intro i j low high other
    omega
  · intro i low
    rw [pointer low]
    decide

theorem layout_root_byte (blocks : Nat → Mem) {i : Nat} (inside : i < 1024) :
    fileByte 1024 (directFile (reachView thirteenPartition) rootFile 1
      (layout thirteenPartition blocks)) i = blocks 20 i := by
  have pointer : i_block rootFile 0 = 20 := by decide
  rw [fileByte, Nat.div_eq_of_lt inside, Nat.mod_eq_of_lt inside, directFile, if_pos (by decide),
    pointer, layout_view thirteen_aligned rfl (by decide)
      (thirteen_reach (by decide) (by decide)) (by rw [thirteen_sectors]; decide)
      (by rw [thirteen_size]; exact inside)]

theorem layout_root_readable {blocks : Nat → Mem}
    (stored : memcpy blank 0 (advance (blocks 40) 128) 128 = rootFile) :
    ReadableDirectory reliable thirteenPartition 2 rootFile (layout thirteenPartition blocks)
      (memcpy blank 0 (blocks 20) 1024) := by
  have size : i_size rootFile = 1024 := by decide
  have found := layout_root_found stored
  refine ⟨found, by decide, ?_, ?_⟩
  · rw [ext2ReadInodeBytes_contents thirteen_aligned.fits root_array.toReadArray found
      (i_size_bound rootFile) (by rw [thirteen_size]; decide)]
    congr 2
    rw [contents, size, thirteen_size]
    funext i
    by_cases inside : i < 1024
    · rw [memcpy_inside (by omega) (by omega), memcpy_inside (by omega) (by omega), Nat.sub_zero,
        layout_root_byte blocks inside]
    · rw [memcpy_outside (by omega), memcpy_outside (by omega)]
  · intro i far
    rw [memcpy_outside (by omega)]
    rfl

theorem root_readable :
    ReadableDirectory reliable thirteenPartition 2 rootFile (rootDisk dir)
      (memcpy blank 0 dir 1024) :=
  layout_root_readable rfl

end Root

end OmenExt2
