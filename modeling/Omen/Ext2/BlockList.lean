import Omen.Ext2.Inode

/- `ext2_load_block_list`: the blocks of a file in order, from the direct slots and the
   lists below the indirect ones. A list of pointers ends at the first 0 or at the end mark;
   what a slot leads to is loaded whole, whether or not the file is that long. -/
namespace OmenExt2
open ByteMemory OmenDisk PointerTree

variable {σ : Type}

def inodeBlockEnd : Nat := 0xFFFFFFFF

def endsList (block : Nat) : Bool := block == 0 || block == inodeBlockEnd

abbrev ListLoader (σ : Type) := Nat → σ → Option (List Nat) × σ

def loadBlock (dev : Dev σ) (p : Partition) (load : List Nat → σ → Option (List Nat) × σ) :
    ListLoader σ := fun block d =>
  let (read, buffer, d') := ext2ReadBlock dev p block blank 0 d
  if read = ext2ReadFailed then (none, d') else load (entries p buffer) d'

def ext2LoadIndirectBlockList (dev : Dev σ) (p : Partition) : ListLoader σ :=
  loadBlock dev p fun pointers d => (some (pointers.takeWhile (! endsList ·)), d)

def loadLists (below : ListLoader σ) : List Nat → σ → Option (List Nat) × σ
  | [], d => (some [], d)
  | block :: rest, d =>
    if endsList block then (some [], d)
    else
      match below block d with
      | (none, d') => (none, d')
      | (some blocks, d') =>
        let (more, d'') := loadLists below rest d'
        (more.map (blocks ++ ·), d'')

def ext2LoadDoubleIndirectBlockList (dev : Dev σ) (p : Partition) : ListLoader σ :=
  loadBlock dev p (loadLists (ext2LoadIndirectBlockList dev p))

def ext2LoadTripleIndirectBlockList (dev : Dev σ) (p : Partition) : ListLoader σ :=
  loadBlock dev p (loadLists (ext2LoadDoubleIndirectBlockList dev p))

def loadSlots (number : Nat) : List (ListLoader σ × Nat) → List Nat → σ → Option (List Nat) × σ
  | [], blocks, d => (some blocks, d)
  | (load, block) :: rest, blocks, d =>
    if blocks.length < number then
      match load block d with
      | (none, d') => (none, d')
      | (some more, d') => loadSlots number rest (blocks ++ more) d'
    else loadSlots number rest blocks d

def blockNumber (p : Partition) (inode : Mem) : Nat :=
  divideRoundedUp (2 ^ 32) (i_size inode) p.blockSize

def sizeBlocks (p : Partition) (size : Nat) : Nat := (size + p.blockSize - 1) / p.blockSize

def directList (inode : Mem) (number : Nat) : List Nat :=
  (((List.range 12).map (i_block inode)).filter (0 < ·)).take number

def listLoaders (dev : Dev σ) (p : Partition) (inode : Mem) : List (ListLoader σ × Nat) :=
  [(ext2LoadIndirectBlockList dev p, i_block inode 12),
    (ext2LoadDoubleIndirectBlockList dev p, i_block inode 13),
    (ext2LoadTripleIndirectBlockList dev p, i_block inode 14)]

/-- `none` for 0. The list is kept in a buffer of its own length; what is loaded past that
    length makes the count at the end differ. -/
def ext2LoadBlockList (dev : Dev σ) (p : Partition) (inodeNumber : Nat) (d : σ) :
    Option (List Nat) × σ :=
  match ext2ReadInode dev p inodeNumber d with
  | (none, d1) => (none, d1)
  | (some inode, d1) =>
    match loadSlots (blockNumber p inode) (listLoaders dev p inode)
        (directList inode (blockNumber p inode)) d1 with
    | (none, d2) => (none, d2)
    | (some blocks, d2) => (if blocks.length = blockNumber p inode then some blocks else none, d2)

section Lists
variable {dev : Dev σ} {p : Partition} {valid : Nat → Prop} {view : σ → Nat → Mem}

theorem loadLists_single (roots : List Nat) (d : σ) :
    loadLists (fun block d => (some [block], d)) roots d =
      (some (roots.takeWhile (! endsList ·)), d) := by
  induction roots with
  | nil => rfl
  | cons root rest ih =>
    rw [loadLists]
    cases stop : endsList root with
    | true => simp [stop]
    | false => simp [stop, ih]

theorem take_filter (keep : Nat → Bool) (blocks : List Nat) (count : Nat)
    (all : ∀ i, i < count → i < blocks.length → keep (blocks.getD i 0) = true) :
    (blocks.filter keep).take count = blocks.take count := by
  induction blocks generalizing count with
  | nil => rfl
  | cons block rest ih =>
    cases count with
    | zero => rfl
    | succ count =>
      have first := all 0 (by omega) (Nat.succ_pos _)
      rw [List.getD_cons_zero] at first
      rw [List.filter_cons_of_pos first, List.take_succ_cons, List.take_succ_cons, ih count]
      intro i low inside
      have next := all (i + 1) (by omega) (by rw [List.length_cons]; omega)
      rwa [List.getD_cons_succ] at next

theorem directList_starts {inode : Mem} {number : Nat}
    (used : ∀ k, k < 12 → k < number → i_block inode k ≠ 0) :
    directList inode number = ((List.range 12).map (i_block inode)).take number := by
  apply take_filter
  intro i low inside
  rw [List.length_map, List.length_range] at inside
  have slot : ((List.range 12).map (i_block inode)).getD i 0 = i_block inode i := by
    simp [List.getD, inside]
  rw [slot]
  exact decide_eq_true (Nat.pos_of_ne_zero (used i inside low))

end Lists

end OmenExt2
