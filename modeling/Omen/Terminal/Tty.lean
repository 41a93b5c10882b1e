import Omen.Terminal.LineEditing
import Omen.Library.RotatingSearch

/- A terminal: an input ring that the line discipline fills and readers empty, and an output ring
   that is flushed to the output device. Subscribers and the device's own flush are left out. -/
namespace OmenTerminal
open RotatingSearch

structure Termios where
  c_lflag : UInt32
  c_line : UInt8
  deriving DecidableEq

/- The bytes that the output device has been given are part of the state. -/
structure Tty where
  echo : UInt8
  israw : UInt8
  lineDiscipline : LineDiscipline
  termios : Termios
  inb : Nat → UInt8
  inbSize : Nat
  inbWrite : Nat
  inbRead : Nat
  outb : Nat → UInt8
  outbSize : Nat
  outbWrite : Nat
  outbRead : Nat
  written : List UInt8

def ECHO : UInt32 := 8
def ICANON : UInt32 := 2
def ttyFlushChar : UInt8 := 13
def ldDefaultTable : UInt8 := 0

/- The memory for the line comes from kmalloc as it is. -/
def ttyInit (inbs outbs : Nat) (line : Nat → UInt8) : Tty where
  echo := 1
  israw := 0
  lineDiscipline := lineDisciplineCreate .canonical .on 1024 line
  termios := ⟨ECHO ||| ICANON, ldDefaultTable⟩
  inb _ := 0
  inbSize := inbs
  inbWrite := 0
  inbRead := 0
  outb _ := 0
  outbSize := outbs
  outbWrite := 0
  outbRead := 0
  written := []

def ttyFlush (device : Tty) : Tty :=
  if device.outbRead = device.outbWrite then device
  else
    let len := if device.outbWrite < device.outbRead then device.outbSize - device.outbRead
      else device.outbWrite - device.outbRead
    { device with
      written := device.written ++ (List.range len).map fun i => device.outb (device.outbRead + i)
      outbRead := if device.outbRead + len ≥ device.outbSize then 0 else device.outbRead + len }

def ttyWriteInb (device : Tty) (c : UInt8) : Tty :=
  let write := next device.inbSize device.inbWrite
  { device with
    inb := Function.update device.inb device.inbWrite c
    inbWrite := write
    inbRead := if write = device.inbRead then next device.inbSize device.inbRead
      else device.inbRead }

def ttyStoreOutb (device : Tty) (c : UInt8) : Tty :=
  let write := next device.outbSize device.outbWrite
  { device with
    outb := Function.update device.outb device.outbWrite c
    outbWrite := write
    outbRead := if write = device.outbRead then next device.outbSize device.outbRead
      else device.outbRead }

def ttyWriteOutb (device : Tty) (c : UInt8) : Tty :=
  if c = ttyFlushChar then ttyFlush (ttyStoreOutb device c) else ttyStoreOutb device c

def ttyReadInb (device : Tty) : UInt8 × Tty :=
  if device.inbRead = device.inbWrite then (0, device)
  else (device.inb device.inbRead,
    { device with inbRead := next device.inbSize device.inbRead })

def ttyGetSize (device : Tty) : Int := device.inbWrite - device.inbRead

def ttyHasInput (device : Tty) : Nat := if device.inbWrite ≠ device.inbRead then 1 else 0

/- The two callbacks that the line discipline is given, and the one for an input byte. -/
def flushCb (tty : Tty) (bytes : List UInt8) : Tty := bytes.foldl ttyWriteInb tty

def echoCb (tty : Tty) (c : UInt8) : Tty :=
  if tty.echo = 0 then tty else { tty with written := tty.written ++ [c] }

def Tty.callBack (tty : Tty) : Effect → Tty
  | .flush bytes => flushCb tty bytes
  | .echo c => echoCb tty c

def ttyReadCb (tty : Tty) (c : UInt8) : Option Tty :=
  (lineDisciplineRead tty.lineDiscipline c).map fun r =>
    r.2.foldl Tty.callBack { tty with lineDiscipline := r.1 }

inductive TtyMode
  | raw
  | echo

def ttyModes (tty : Tty) (mode : TtyMode) (value : UInt32) : Tty :=
  match mode with
  | .raw => { tty with
      israw := value.toUInt8
      lineDiscipline :=
        if value ≠ 0 then lineDisciplineSetMode tty.lineDiscipline .raw
        else lineDisciplineSetMode tty.lineDiscipline .canonical }
  | .echo => { tty with echo := value.toUInt8 }

/- Another line discipline than the default one is a panic. -/
def ttySetTermios (tty : Tty) (termios : Termios) : Option Tty :=
  if termios.c_line ≠ ldDefaultTable then none
  else
    let tty := { tty with termios := termios }
    let tty := ttyModes tty .echo (termios.c_lflag &&& ECHO)
    some (ttyModes tty .raw (termios.c_lflag &&& ICANON))

end OmenTerminal
