import Omen.Library.Ring
import Mathlib.Algebra.Group.Nat.Defs

/- The terminal's line discipline: a line is kept in a ring of bytes until a carriage return or
   an end of transmission hands it to the flush callback. An access outside the ring's buffer
   has no result here. Bytes are read as the signed characters of the source. -/
namespace OmenTerminal

inductive Mode
  | raw
  | canonical
  deriving DecidableEq

inductive Echo
  | on
  | off
  deriving DecidableEq

inductive Action
  | ignore
  | bell
  | eof
  | erase
  | htab
  | lfeed
  | vtab
  | newpage
  | cret
  | restartOut
  | stopOut
  | sigint
  | sigstop
  | del
  deriving DecidableEq

structure ActionTableEntry where
  output : List UInt8
  inserti : List UInt8
  action : Action

def plainEntry (action : Action) : ActionTableEntry := ⟨[0, 0, 0, 0], [0, 0, 0, 0], action⟩

def defaultLdTable : List ActionTableEntry :=
  [plainEntry .ignore, plainEntry .ignore, plainEntry .ignore, plainEntry .sigint,
   plainEntry .eof, plainEntry .ignore, plainEntry .ignore, plainEntry .bell,
   ⟨[8, 32, 8, 0], [0, 0, 0, 0], .erase⟩, plainEntry .htab,
   ⟨[10, 0, 0, 0], [0, 0, 0, 0], .lfeed⟩, plainEntry .vtab, plainEntry .newpage,
   ⟨[13, 10, 0, 0], [10, 0, 0, 0], .cret⟩, plainEntry .ignore, plainEntry .ignore,
   plainEntry .ignore, plainEntry .restartOut, plainEntry .ignore, plainEntry .stopOut,
   plainEntry .ignore, plainEntry .ignore, plainEntry .ignore, plainEntry .ignore,
   plainEntry .ignore, plainEntry .ignore, plainEntry .sigstop, plainEntry .del]

structure LineDiscipline where
  mode : Mode
  echo : Echo
  buffer : Nat → UInt8
  size : Int
  head : Int
  tail : Int

/- What the callbacks are given. -/
inductive Effect
  | flush (bytes : List UInt8)
  | echo (byte : UInt8)
  deriving DecidableEq

def ldDel : UInt8 := 127

def lineDisciplineCreate (mode : Mode) (echo : Echo) (bufferSize : Nat) (buffer : Nat → UInt8) :
    LineDiscipline := ⟨mode, echo, buffer, bufferSize, 0, 0⟩

def lineDisciplineSetMode (ld : LineDiscipline) (mode : Mode) : LineDiscipline :=
  { ld with mode := mode }

def lineDisciplineDeleteLast (ld : LineDiscipline) : LineDiscipline :=
  if ld.tail = ld.head then ld else { ld with tail := (ld.tail - 1).tmod ld.size }

def lineDisciplineInsert (ld : LineDiscipline) (c : UInt8) : Option LineDiscipline :=
  if c = 0 then some ld
  else if 0 ≤ ld.tail ∧ ld.tail < ld.size then
    let tail := (ld.tail + 1).tmod ld.size
    some { ld with
      buffer := Function.update ld.buffer ld.tail.toNat c
      tail := tail
      head := if tail = ld.head then (ld.head + 1).tmod ld.size else ld.head }
  else none

/- The bytes that the flush callback reads from the place it is given. -/
def flushedBytes (ld : LineDiscipline) (size : Int) : Option (List UInt8) :=
  if size ≤ 0 then some []
  else if 0 ≤ ld.head ∧ ld.head + size ≤ ld.size then
    some ((List.range size.toNat).map fun i => ld.buffer (ld.head.toNat + i))
  else none

def lineDisciplineForceFlush (ld : LineDiscipline) : Option (LineDiscipline × List Effect) :=
  if ld.mode = .canonical then
    let size := ((ld.tail - ld.head + ld.size).bmod (2 ^ 32)).tmod ld.size
    (flushedBytes ld size).map fun bytes => ({ ld with head := ld.tail }, [.flush bytes])
  else some (ld, [])

def Action.apply (action : Action) (ld : LineDiscipline) :
    Option (LineDiscipline × List Effect) :=
  match action with
  | .eof | .cret => lineDisciplineForceFlush ld
  | .erase => some (lineDisciplineDeleteLast ld, [])
  | _ => some (ld, [])

def lineDisciplineApply (ld : LineDiscipline) (c : UInt8) :
    Option (LineDiscipline × List Effect) :=
  if c ≠ ldDel ∧ 27 < c then
    (lineDisciplineInsert ld c).map fun ld =>
      (ld, if ld.echo = .on then [.echo c] else [])
  else if c = ldDel then
    some (lineDisciplineDeleteLast ld, [.echo 8, .echo 32, .echo 8])
  else
    let entry := defaultLdTable.getD c.toNat (plainEntry .ignore)
    (entry.inserti.foldlM lineDisciplineInsert ld).bind fun ld =>
      let shown := if ld.echo = .on then (entry.output.takeWhile (· ≠ 0)).map .echo else []
      (entry.action.apply ld).map fun done => (done.1, shown ++ done.2)

def lineDisciplineRead (ld : LineDiscipline) (c : UInt8) :
    Option (LineDiscipline × List Effect) :=
  match ld.mode with
  | .raw => some (ld, (if ld.echo = .on then [.echo c] else []) ++ [.flush [c]])
  | .canonical => lineDisciplineApply ld c

end OmenTerminal
