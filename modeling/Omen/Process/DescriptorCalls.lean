import Omen.Process.Descriptors
import Mathlib.Algebra.Group.Nat.Defs
import Mathlib.Algebra.Group.Int.Defs

/- Reads, writes and seeks of a descriptor in the table of all files, as the file systems make
   them. The table is seen with the memory around it. A call through a null pointer has no result,
   and what it did before that stays. -/
namespace OmenProcess
namespace Lookups

structure Tables where
  entries_table : Int → FileEntry

abbrev Kernel := OptionT (StateM Tables)

def vfsError : Int := -1

def loadEntry (i : Int) : Kernel FileEntry := do return (← get).entries_table i

def Tables.changeEntry (i : Int) (change : FileEntry → FileEntry) (t : Tables) : Tables :=
  { t with entries_table := Function.update t.entries_table i (change (t.entries_table i)) }

def storeEntry (i : Int) (change : FileEntry → FileEntry) : Kernel Unit :=
  modify (.changeEntry i change)

/-- `vfs_compat_get_file_descriptor` and what is done with the entry or with a null pointer. -/
def withEntry {α : Type} (fd : Int) (missing : Kernel α) (use : FileEntry → Kernel α) : Kernel α :=
  if vfsCompatMaxOpenFiles ≤ fd then missing else loadEntry fd >>= use

inductive Fst where
  | ext2
  | tty
  | fifo
  deriving DecidableEq, Repr

/-- A mount, and whether its partition or device is registered. -/
structure Mount where
  fst : Fst
  present : Bool
  deriving DecidableEq, Repr

/-- What the file system answers to a read, a write and a question for the size. -/
structure FileAnswers where
  readFile : FileEntry → Nat → Int
  writeFile : FileEntry → Nat → Int
  fileSize : FileEntry → Nat

section Files
variable (w : FileAnswers)

def seekSet : Int := 0
def seekCur : Int := 1
def seekEnd : Int := 2

def seekEntry (fd : Int) (offset : Nat) (whence bad : Int) (e : FileEntry) : Kernel Int :=
  let move (place : Nat) : Kernel Int := do
    storeEntry fd fun e => { e with offset := place }
    pure ((place : Int).bmod (2 ^ 64))
  if whence = seekSet then move offset
  else if whence = seekCur then move ((e.offset + offset) % 2 ^ 64)
  else if whence = seekEnd then move ((w.fileSize e + offset) % 2 ^ 64)
  else pure bad

/-- Only the file systems of devices look at `loaded`. -/
def fileSeek (m : Mount) (fd : Int) (offset : Nat) (whence : Int) : Kernel Int :=
  if !m.present then pure vfsError
  else
    match m.fst with
    | .ext2 => withEntry fd failure (seekEntry w fd offset whence vfsError)
    | _ => withEntry fd (pure vfsError) fun e =>
      if e.loaded then seekEntry w fd offset whence 0 e else pure vfsError

def fileRead (m : Mount) (fd : Int) (size : Nat) : Kernel Int :=
  if !m.present then pure vfsError
  else
    match m.fst with
    | .ext2 => withEntry fd (pure 1) fun e =>
      if e.loaded then do
        if 0 < w.readFile e size then
          let _ ← fileSeek w m fd (w.readFile e size).toNat seekCur
        pure (w.readFile e size)
      else pure 1
    | _ => withEntry fd (pure vfsError) fun e =>
      pure (if e.loaded then w.readFile e size else vfsError)

def fileWrite (m : Mount) (fd : Int) (size : Nat) : Kernel Int :=
  if !m.present then pure vfsError
  else
    match m.fst with
    | .ext2 => withEntry fd failure fun e => do
      let _ ← fileSeek w m fd size seekCur
      pure (w.writeFile e size)
    | _ => withEntry fd (pure vfsError) fun e =>
      pure (if e.loaded then w.writeFile e size else vfsError)

end Files

end Lookups
end OmenProcess
