import Mathlib.Logic.Function.Basic
import Omen.Library.Halting
import Omen.Library.Ring
import Omen.Library.RotatingSearch
import Omen.Library.Simulation

/- The serial ports (`serial.c`): their rings, the interrupt of a received byte, and the overflow
   interrupt that a full ring raises on the spot, which is a panic within another interrupt. The
   driver is written over any byte queue, so that the one with the source's rings and the one with
   plain lists are the same program. What a call does outside the driver is logged; a call is one
   step. -/
namespace OmenDevices.Serial
open Halting RotatingSearch Simulation

/-- `store` says whether it has filled the queue up; `load` gives nothing if there is no data. -/
class ByteQueue (Q : Type) where
  size : Q → Nat
  store : Q → UInt8 → Q × Bool
  load : Q → Option (UInt8 × Q)
  discard : Q → Q

structure Buffer where
  cells : Nat → UInt8
  size : Nat
  write : Nat
  read : Nat

namespace Buffer

def store (b : Buffer) (c : UInt8) : Buffer × Bool :=
  let write := next b.size b.write
  ({ b with cells := Function.update b.cells b.write c, write := write }, write = b.read)

def load (b : Buffer) : Option (UInt8 × Buffer) :=
  if b.read = b.write then none
  else some (b.cells b.read, { b with read := next b.size b.read })

def discard (b : Buffer) : Buffer :=
  { b with cells := fun i => if i < b.size then 0 else b.cells i, read := b.write }

instance : ByteQueue Buffer := ⟨size, store, load, discard⟩

end Buffer

structure Subscriber where
  parent : UInt64
  handler : UInt64
  deriving DecidableEq

structure SerialDevice (Q : Type) where
  valid : Bool
  echo : Bool
  readSubscribers : List Subscriber
  writeSubscribers : List Subscriber
  inb : Q
  outb : Q

/-- What a driver does to the world: bytes that go out on a port, from a flush or as an echo, the
    calls of subscribers, and the results of `_serial_read`. -/
inductive Effect where
  | sent (port : Nat) (c : UInt8)
  | echoed (port : Nat) (c : UInt8)
  | told (subscriber : Subscriber) (c : UInt8) (port : Nat)
  | returned (port : Nat) (c : UInt8)
  deriving DecidableEq

structure Driver (Q : Type) where
  devices : Fin 4 → SerialDevice Q
  interrupted : Option (Fin 4)
  effects : List Effect

/-- `DEFAULT_COM1_PORT` to `DEFAULT_COM4_PORT`, which no code changes. -/
def comPort : Fin 4 → Nat
  | 0 => 0x3f8
  | 1 => 0x2f8
  | 2 => 0x3e8
  | 3 => 0x2e8

section Code
variable {Q : Type} [ByteQueue Q]

def Driver.modify (s : Driver Q) (i : Fin 4) (f : SerialDevice Q → SerialDevice Q) : Driver Q :=
  { s with devices := Function.update s.devices i (f (s.devices i)) }

def Driver.emit (s : Driver Q) (effects : List Effect) : Driver Q :=
  { s with effects := s.effects ++ effects }

def getSerial (s : Driver Q) (port : Nat) : Option (Fin 4) :=
  [0, 1].find? fun i => (s.devices i).valid && comPort i = port

def runSubscribers (s : Driver Q) (subscribers : List Subscriber) (c : UInt8) (port : Nat) :
    Driver Q :=
  s.emit (subscribers.map fun subscriber => .told subscriber c port)

def readOutb (s : Driver Q) (i : Fin 4) : UInt8 × Driver Q :=
  match ByteQueue.load (s.devices i).outb with
  | none => (0, s)
  | some (c, outb) =>
    (c, runSubscribers (s.modify i ({ · with outb := outb })) (s.devices i).writeSubscribers c
      (comPort i))

def flushLoop (i : Fin 4) : Nat → Driver Q → Except Halt (Driver Q)
  | 0, _ => .error .endless
  | turns + 1, s =>
    let (c, s) := readOutb s i
    if c = 0 then .ok s else flushLoop i turns (s.emit [.sent (comPort i) c])

def serialFlush (s : Driver Q) (port : Nat) : Except Halt (Driver Q) :=
  match getSerial s port with
  | none => .ok s
  | some i => flushLoop i (ByteQueue.size (s.devices i).outb) s

def serialDiscard (s : Driver Q) (port : Nat) : Driver Q :=
  match getSerial s port with
  | none => s
  | some i => s.modify i fun d =>
    { d with inb := ByteQueue.discard d.inb, outb := ByteQueue.discard d.outb }

/-- `SERIAL_OF_HANDLER`: it empties the device that has been interrupted last, which need not be
    the one whose ring is full. -/
def overflow (s : Driver Q) : Except Halt (Driver Q) :=
  match s.interrupted with
  | none => .ok s
  | some i => do
    let s ← serialFlush s (comPort i)
    return serialDiscard s (comPort i)

/-- `raise_interrupt` when a ring is full: the handler runs before the store goes on, but within an
    interrupt handler `notify_eoi_required` panics, since an EOI is required already. -/
def checkFull (s : Driver Q) (full nested : Bool) : Except Halt (Driver Q) :=
  if full then if nested then .error .panic else overflow s
  else .ok s

def announce (s : Driver Q) (i : Fin 4) (c : UInt8) : Driver Q :=
  let echoed := if (s.devices i).echo then s.emit [.echoed (comPort i) c] else s
  runSubscribers echoed (s.devices i).readSubscribers c (comPort i)

def writeInb (s : Driver Q) (i : Fin 4) (c : UInt8) : Except Halt (Driver Q) := do
  let stored := ByteQueue.store (s.devices i).inb c
  let s ← checkFull (s.modify i ({ · with inb := stored.1 })) stored.2 true
  return announce s i c

def readInb (s : Driver Q) (i : Fin 4) : UInt8 × Driver Q :=
  match ByteQueue.load (s.devices i).inb with
  | none => (0, s)
  | some (c, inb) => (c, s.modify i ({ · with inb := inb }))

def writeOutb (s : Driver Q) (i : Fin 4) (c : UInt8) (nested : Bool) : Except Halt (Driver Q) :=
  let stored := ByteQueue.store (s.devices i).outb c
  checkFull (s.modify i ({ · with outb := stored.1 })) stored.2 nested

def comHandler (s : Driver Q) (i : Fin 4) (c : UInt8) : Except Halt (Driver Q) :=
  if (s.devices i).valid then writeInb { s with interrupted := some i } i c else .ok s

def serialWrite (s : Driver Q) (port : Nat) (c : UInt8) (nested : Bool) : Except Halt (Driver Q) :=
  match getSerial s port with
  | none => .ok s
  | some i => writeOutb s i c nested

def serialRead (s : Driver Q) (port : Nat) : UInt8 × Driver Q :=
  match getSerial s port with
  | none => (0, s)
  | some i => readInb s i

def serialEcho (s : Driver Q) (port : Nat) (echo : Bool) : Driver Q :=
  match getSerial s port with
  | none => s
  | some i => s.modify i ({ · with echo := echo })

def serialEvent (s : Driver Q) (port : Nat) (reads : Bool)
    (change : List Subscriber → List Subscriber) : Driver Q :=
  match getSerial s port with
  | none => s
  | some i => s.modify i fun d =>
    if reads then { d with readSubscribers := change d.readSubscribers }
    else { d with writeSubscribers := change d.writeSubscribers }

def addSubscriber (subscriber : Subscriber) (l : List Subscriber) : List Subscriber :=
  l ++ [subscriber]

def removeSubscriber (subscriber : Subscriber) (l : List Subscriber) : List Subscriber :=
  l.erase subscriber

inductive SerialCall where
  | receive (i : Fin 4) (c : UInt8)
  | write (port : Nat) (c : UInt8) (nested : Bool)
  | read (port : Nat)
  | flush (port : Nat)
  | discard (port : Nat)
  | echo (port : Nat) (on : Bool)
  | add (port : Nat) (reads : Bool) (subscriber : Subscriber)
  | remove (port : Nat) (reads : Bool) (subscriber : Subscriber)

def Driver.call (s : Driver Q) : SerialCall → Except Halt (Driver Q)
  | .receive i c => comHandler s i c
  | .write port c nested => serialWrite s port c nested
  | .read port =>
    let (c, s) := serialRead s port
    .ok (s.emit [.returned port c])
  | .flush port => serialFlush s port
  | .discard port => .ok (serialDiscard s port)
  | .echo port on => .ok (serialEcho s port on)
  | .add port reads subscriber => .ok (serialEvent s port reads (addSubscriber subscriber))
  | .remove port reads subscriber => .ok (serialEvent s port reads (removeSubscriber subscriber))

def Driver.calls (s : Driver Q) (calls : List SerialCall) : Except Halt (Driver Q) :=
  calls.foldlM Driver.call s

/-- The driver as `init_serial` leaves it; the devices behind the first two are never set up. -/
def initSerial (up : Fin 4 → Bool) (inb outb : Q) : Driver Q :=
  ⟨fun i => ⟨up i && i < 2, false, [], [], inb, outb⟩, none, []⟩

end Code

def emptyBuffer (size : Nat) : Buffer := ⟨fun _ => 0, size, 0, 0⟩

/- The plain queue: it holds less than `size` bytes, and the byte that would fill it up empties
   it. -/
structure Queue where
  size : Nat
  entries : List UInt8
  room : entries.length < size

namespace Queue

def none (q : Queue) : Queue := ⟨q.size, [], Nat.zero_lt_of_lt q.room⟩

def store (q : Queue) (c : UInt8) : Queue × Bool :=
  if more : (q.entries ++ [c]).length < q.size then (⟨q.size, q.entries ++ [c], more⟩, false)
  else (q.none, true)

def load (q : Queue) : Option (UInt8 × Queue) :=
  match q with
  | ⟨_, [], _⟩ => Option.none
  | ⟨size, c :: rest, room⟩ => some (c, ⟨size, rest, Nat.lt_of_succ_lt room⟩)

instance : ByteQueue Queue := ⟨size, store, load, none⟩

end Queue

def emptyQueue (size : Nat) (some_room : 0 < size) : Queue := ⟨size, [], some_room⟩

structure Holds (b : Buffer) (q : Queue) : Prop where
  size : b.size = q.size
  shows : Ring.Shows b.cells q.size b.read b.write q.entries

section Queues
variable {b : Buffer} {q : Queue}

theorem holds_empty {size : Nat} (some_room : 0 < size) :
    Holds (emptyBuffer size) (emptyQueue size some_room) :=
  ⟨rfl, Ring.shows_nil some_room⟩

theorem Holds.store (h : Holds b q) (c : UInt8) :
    Holds (b.store c).1 (q.store c).1 ∧ (b.store c).2 = (q.store c).2 := by
  obtain ⟨size, shows⟩ := h
  have met := shows.meets
  have moved : next b.size b.write = (b.write + 1) % q.size := by
    rw [size, next_eq shows.tail_lt]
  simp only [Buffer.store, Queue.store, moved]
  by_cases more : (q.entries ++ [c]).length < q.size
  · rw [dif_pos more]
    rw [List.length_append, List.length_singleton] at more
    exact ⟨⟨size, shows.append more c⟩, decide_eq_false fun same => by
      have := met.mp same
      omega⟩
  · rw [dif_neg more]
    rw [List.length_append, List.length_singleton] at more
    have full := met.mpr (by have := shows.room; omega)
    exact ⟨⟨size, by rw [full]; exact Ring.shows_nil shows.inside⟩, decide_eq_true full⟩

theorem Holds.load (h : Holds b q) :
    Option.Rel (fun x y => x.1 = y.1 ∧ Holds x.2 y.2) b.load q.load := by
  obtain ⟨bsize, shows⟩ := h
  obtain ⟨size, entries, room⟩ := q
  have empty := shows.empty_iff
  cases entries with
  | nil =>
    rw [Buffer.load, if_pos (empty.mpr rfl)]
    exact .none
  | cons c rest =>
    have first := shows.cell 0 c rfl
    rw [Nat.add_zero, Nat.mod_eq_of_lt shows.inside] at first
    have later := @Ring.Shows.drop _ _ _ _ _ 1 _ shows (by simp)
    rw [Buffer.load, if_neg fun same => by simpa using empty.mp same]
    refine .some ⟨first, bsize, ?_⟩
    rw [show b.size = size from bsize, next_eq shows.inside]
    exact later

theorem Holds.discard (h : Holds b q) : Holds b.discard q.none :=
  ⟨h.size, Ring.shows_nil h.shows.tail_lt⟩

end Queues

/- The two drivers side by side. -/
structure SameDevice (d : SerialDevice Buffer) (e : SerialDevice Queue) : Prop where
  valid : d.valid = e.valid
  echo : d.echo = e.echo
  readSubscribers : d.readSubscribers = e.readSubscribers
  writeSubscribers : d.writeSubscribers = e.writeSubscribers
  inb : Holds d.inb e.inb
  outb : Holds d.outb e.outb

structure Same (s : Driver Buffer) (t : Driver Queue) : Prop where
  devices : ∀ i, SameDevice (s.devices i) (t.devices i)
  interrupted : s.interrupted = t.interrupted
  effects : s.effects = t.effects

namespace Same
variable {s : Driver Buffer} {t : Driver Queue} {i : Fin 4} {port : Nat} {c : UInt8}
  (same : Same s t)
include same

theorem modify {f : SerialDevice Buffer → SerialDevice Buffer}
    {g : SerialDevice Queue → SerialDevice Queue}
    (changed : SameDevice (f (s.devices i)) (g (t.devices i))) :
    Same (s.modify i f) (t.modify i g) := by
  refine ⟨fun j => ?_, same.interrupted, same.effects⟩
  by_cases here : j = i
  · subst here
    simpa only [Driver.modify, Function.update_self] using changed
  · simpa only [Driver.modify, Function.update_of_ne here] using same.devices j

theorem setInb {b : Buffer} {q : Queue} (i : Fin 4) (holds : Holds b q) :
    Same (s.modify i ({ · with inb := b })) (t.modify i ({ · with inb := q })) :=
  have d := same.devices i
  same.modify ⟨d.valid, d.echo, d.readSubscribers, d.writeSubscribers, holds, d.outb⟩

theorem setOutb {b : Buffer} {q : Queue} (i : Fin 4) (holds : Holds b q) :
    Same (s.modify i ({ · with outb := b })) (t.modify i ({ · with outb := q })) :=
  have d := same.devices i
  same.modify ⟨d.valid, d.echo, d.readSubscribers, d.writeSubscribers, d.inb, holds⟩

theorem emit (effects : List Effect) : Same (s.emit effects) (t.emit effects) :=
  ⟨same.devices, same.interrupted, congrArg (· ++ effects) same.effects⟩

theorem getSerial (port : Nat) : getSerial s port = getSerial t port := by
  simp only [Serial.getSerial, (same.devices _).valid]

theorem readOutb (i : Fin 4) :
    (readOutb s i).1 = (readOutb t i).1 ∧ Same (readOutb s i).2 (readOutb t i).2 := by
  have loaded := (same.devices i).outb.load
  simp only [Serial.readOutb, ByteQueue.load]
  revert loaded
  generalize (s.devices i).outb.load = x, (t.devices i).outb.load = y
  intro loaded
  cases loaded with
  | none => exact ⟨rfl, same⟩
  | some related =>
    refine ⟨related.1, ?_⟩
    dsimp only
    rw [related.1, (same.devices i).writeSubscribers]
    exact (same.setOutb i related.2).emit _

theorem flushLoop (i : Fin 4) (turns : Nat) :
    Both Same (flushLoop i turns s) (flushLoop i turns t) := by
  induction turns generalizing s t with
  | zero => exact .error _
  | succ turns ih =>
    obtain ⟨read, after⟩ := same.readOutb i
    rw [Serial.flushLoop, Serial.flushLoop]
    dsimp only
    rw [read]
    split
    · exact .ok after
    · exact ih (after.emit _)

theorem serialFlush (port : Nat) : Both Same (serialFlush s port) (serialFlush t port) := by
  rw [Serial.serialFlush, Serial.serialFlush, same.getSerial]
  cases Serial.getSerial t port with
  | none => exact .ok same
  | some i =>
    have size : ByteQueue.size (s.devices i).outb = ByteQueue.size (t.devices i).outb :=
      (same.devices i).outb.size
    dsimp only
    rw [size]
    exact same.flushLoop i _

theorem serialDiscard (port : Nat) : Same (serialDiscard s port) (serialDiscard t port) := by
  rw [Serial.serialDiscard, Serial.serialDiscard, same.getSerial]
  cases Serial.getSerial t port with
  | none => exact same
  | some i =>
    obtain ⟨valid, echo, readers, writers, inb, outb⟩ := same.devices i
    exact same.modify ⟨valid, echo, readers, writers, inb.discard, outb.discard⟩

theorem overflow : Both Same (overflow s) (overflow t) := by
  rw [Serial.overflow, Serial.overflow, same.interrupted]
  cases t.interrupted with
  | none => exact .ok same
  | some i =>
    exact (same.serialFlush _).bind fun s t flushed => .ok (flushed.serialDiscard _)

theorem checkFull {full full' : Bool} (agree : full = full') (nested : Bool) :
    Both Same (checkFull s full nested) (checkFull t full' nested) := by
  subst agree
  cases full with
  | true =>
    cases nested with
    | true => exact .error _
    | false => exact same.overflow
  | false => exact .ok same

theorem announce (i : Fin 4) (c : UInt8) : Same (announce s i c) (announce t i c) := by
  rw [Serial.announce, Serial.announce, (same.devices i).readSubscribers, (same.devices i).echo]
  split
  · exact (same.emit _).emit _
  · exact same.emit _

theorem writeInb (i : Fin 4) (c : UInt8) : Both Same (writeInb s i c) (writeInb t i c) := by
  obtain ⟨stored, full⟩ := (same.devices i).inb.store c
  exact ((same.setInb i stored).checkFull full true).bind fun s t emptied =>
    .ok (emptied.announce i c)

theorem readInb (i : Fin 4) :
    (readInb s i).1 = (readInb t i).1 ∧ Same (readInb s i).2 (readInb t i).2 := by
  have loaded := (same.devices i).inb.load
  simp only [Serial.readInb, ByteQueue.load]
  revert loaded
  generalize (s.devices i).inb.load = x, (t.devices i).inb.load = y
  intro loaded
  cases loaded with
  | none => exact ⟨rfl, same⟩
  | some related =>
    exact ⟨related.1, same.setInb i related.2⟩

theorem writeOutb (i : Fin 4) (c : UInt8) (nested : Bool) :
    Both Same (writeOutb s i c nested) (writeOutb t i c nested) := by
  obtain ⟨stored, full⟩ := (same.devices i).outb.store c
  exact (same.setOutb i stored).checkFull full nested

theorem comHandler (i : Fin 4) (c : UInt8) : Both Same (comHandler s i c) (comHandler t i c) := by
  rw [Serial.comHandler, Serial.comHandler, (same.devices i).valid]
  split
  · have marked : Same { s with interrupted := some i } { t with interrupted := some i } :=
      ⟨same.devices, rfl, same.effects⟩
    exact marked.writeInb i c
  · exact .ok same

theorem serialEvent (port : Nat) (reads : Bool) (change : List Subscriber → List Subscriber) :
    Same (serialEvent s port reads change) (serialEvent t port reads change) := by
  rw [Serial.serialEvent, Serial.serialEvent, same.getSerial]
  cases Serial.getSerial t port with
  | none => exact same
  | some i =>
    obtain ⟨valid, echo, readers, writers, inb, outb⟩ := same.devices i
    apply same.modify
    cases reads with
    | true => exact ⟨valid, echo, congrArg change readers, writers, inb, outb⟩
    | false => exact ⟨valid, echo, readers, congrArg change writers, inb, outb⟩

theorem call (call : SerialCall) : Both Same (s.call call) (t.call call) := by
  cases call with
  | receive i c => exact same.comHandler i c
  | write port c nested =>
    rw [Driver.call, Driver.call, serialWrite, serialWrite, same.getSerial]
    cases Serial.getSerial t port with
    | none => exact .ok same
    | some i => exact same.writeOutb i c nested
  | read port =>
    rw [Driver.call, Driver.call, serialRead, serialRead, same.getSerial]
    cases Serial.getSerial t port with
    | none => exact .ok (same.emit _)
    | some i =>
      obtain ⟨read, after⟩ := same.readInb i
      dsimp only
      rw [read]
      exact .ok (after.emit _)
  | flush port => exact same.serialFlush port
  | discard port => exact .ok (same.serialDiscard port)
  | echo port on =>
    rw [Driver.call, Driver.call, serialEcho, serialEcho, same.getSerial]
    cases Serial.getSerial t port with
    | none => exact .ok same
    | some i =>
      obtain ⟨valid, -, readers, writers, inb, outb⟩ := same.devices i
      exact .ok (same.modify ⟨valid, rfl, readers, writers, inb, outb⟩)
  | add port reads subscriber => exact .ok (same.serialEvent port reads _)
  | remove port reads subscriber => exact .ok (same.serialEvent port reads _)

end Same

/-- The rings and the plain queues give the same driver: the same bytes on the lines, the same
    calls of subscribers and the same results, in the same order, whatever is called. -/
theorem serial_same (up : Fin 4 → Bool) {inbs outbs : Nat} (inRoom : 0 < inbs)
    (outRoom : 0 < outbs) (calls : List SerialCall) :
    Both Same ((initSerial up (emptyBuffer inbs) (emptyBuffer outbs)).calls calls)
      ((initSerial up (emptyQueue inbs inRoom) (emptyQueue outbs outRoom)).calls calls) := by
  refine Both.foldlM (fun _ _ call same => same.call call) ?_ calls
  exact ⟨fun i => ⟨rfl, rfl, rfl, rfl, holds_empty inRoom, holds_empty outRoom⟩, rfl, rfl⟩

end OmenDevices.Serial
