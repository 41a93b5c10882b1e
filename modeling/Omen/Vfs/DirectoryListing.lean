import Omen.Ext2.Directory
import Omen.Process.Descriptors

/- An open directory (`vfs_compat.c`): its entries, which `add_file_to_dirfd` puts in, and the
   cursor that reads and seeks move. One open directory is looked at; its mount is found. -/
namespace OmenVfs
open OmenExt2 (strlen)

def vfsFdeNameMaxLen : Nat := 256

structure CString where
  chars : List UInt8
  plain : 0 ∉ chars
  deriving DecidableEq

structure Dentry where
  name : List UInt8
  name_len : Nat
  inode : Nat
  type : Nat
  deriving DecidableEq, Repr

/-- A `dir_t`: the list of entries is known without its empty head, and is missing while the
    pointer is null. -/
structure DirEntry where
  loaded : UInt8
  dentries : Option (List Dentry)
  number : Int
  index : Int

def DirEntry.emptied (entry : DirEntry) : DirEntry :=
  { entry with index := 0, number := 0, dentries := some [] }

def intMax : Int := 2 ^ 31 - 1

/-- `add_file_to_dirfd` of a descriptor in range: the answer and the directory. There is no
    result for a null list and for an overflow of the number. -/
def DirEntry.addFile (dir : DirEntry) (name : CString) (inode type name_len : Nat) :
    Option (Nat × DirEntry) :=
  if strlen name.chars > vfsFdeNameMaxLen then some (0, dir)
  else if dir.loaded = 0 then some (0, dir)
  else match dir.dentries with
    | none => none
    | some dentries =>
      if dir.number ≥ intMax then none
      else
        -- the zero behind a name of 256 bytes is written over the low byte of the length
        let stored :=
          if strlen name.chars = vfsFdeNameMaxLen then name_len / 256 * 256 else name_len
        some (1, { dir with
          dentries := some (dentries ++ [⟨name.chars, stored, inode, type⟩])
          number := dir.number + 1 })

/-- An `int` as the `uint32_t` that counts the links to follow. -/
def asUint32 (index : Int) : Nat :=
  if index < 0 then (index + 2 ^ 32).toNat else index.toNat

/-- `read_dirfd`: the answer with the entry that is read, and the directory. There is no result
    when the links end before the entry. -/
def DirEntry.read (dir : DirEntry) : Option (Int × Option Dentry × DirEntry) :=
  if dir.loaded = 0 then some (-1, none, dir)
  else if dir.index ≥ dir.number then some (0, none, dir)
  else match dir.dentries with
    | none => some (0, none, dir)
    | some [] => some (0, none, dir)
    | some dentries => do
      let dentry ← dentries[asUint32 dir.index]?
      some (1, some { dentry with name := dentry.name.take dentry.name_len },
        { dir with index := dir.index + 1 })

inductive Whence
  | set
  | cur
  | end_
  deriving DecidableEq, Repr

def DirEntry.clamp (dir : DirEntry) : DirEntry :=
  let index := if dir.index < 0 then 0 else dir.index
  { dir with index := if index ≥ dir.number then dir.number - 1 else index }

def DirEntry.seek (dir : DirEntry) (offset : Int) (whence : Whence) : Int × DirEntry :=
  if dir.loaded = 0 then (-1, dir)
  else match whence with
    | .set =>
      if offset < 0 ∨ offset ≥ dir.number then (-1, dir)
      else (1, { dir with index := offset }.clamp)
    | .cur =>
      if offset < 0 ∧ dir.index + offset < 0 then (-1, dir)
      else if offset > 0 ∧ dir.index + offset ≥ dir.number then (-1, dir)
      else (1, { dir with index := dir.index + offset }.clamp)
    | .end_ =>
      if offset > 0 ∨ dir.number + offset < 0 then (-1, dir)
      else (1, { dir with index := dir.number + offset }.clamp)

def DirEntry.tell (dir : DirEntry) : Int := if dir.loaded = 0 then -1 else dir.index

end OmenVfs
