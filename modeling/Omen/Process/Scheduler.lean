import Omen.Process.Table

/- `sched` and `sched_thread` of `process.c`. Nothing in the source postpones task switches, and
   the counter for that is left out. -/
namespace OmenProcess

def nsig : Nat := 65

def sigKill : Nat := 9

def sigStop : Nat := 19

def processPriorities : Nat := 20

/-- `1 << i` of type `int`, widened to a set of signals. The shift sees five bits of `i`. -/
def sigBit (i : Nat) : SigSet := ((1 : BitVec 32) <<< (i % 32)).signExtend 64

def schedSigsuspendCheck (p : Process) (t : Thread) : Option Nat × Thread :=
  if t.sigsuspend_mask ≠ 0 then
    match (List.range' 1 (nsig - 1)).find? fun i =>
        p.signal_queue i != 0 && t.sigprocmask &&& sigBit i != 0 with
    | some i => (some i, t)
    | none =>
      if p.signal_queue sigKill ≠ 0 then (some sigKill, { t with unsuspend_signal := sigKill })
      else if p.signal_queue sigStop ≠ 0 then
        (some sigStop, { t with unsuspend_signal := sigStop })
      else (none, t)
  else (none, t)

def Thread.canRun (t : Thread) : Bool :=
  (t.status == .ready || t.status == .running) && t.waiting != 1

/-- What the loop does to a thread that cannot run: it passes it, or it stops at it. -/
def resumeThread (p : Process) (t : Thread) : Option Thread :=
  if t.status = .interruptibleSleep then
    match schedSigsuspendCheck p t with
    | (none, _) => none
    | (some signal, t) =>
      if signal = sigKill then some { t with status := .zombie }
      else if signal = sigStop then some { t with status := .uninterruptibleSleep }
      else some { t with
        status := .ready
        sigprocmask := t.sigsuspend_mask
        sigsuspend_mask := 0
        unsuspend_signal := signal }
  else none

def Process.nextThread (p : Process) (index : Nat) : Nat :=
  if index + 1 ≥ p.thread_count then 0 else index + 1

def Process.makeCurrent (p : Process) (index : Nat) (t : Thread) : Process :=
  { p.setThread index { t with status := .running } with current_thread := index }

/-- The loop of `sched_thread` with the number of rounds it may take. -/
def schedThreadLoop : Nat → Process → Nat → Option (Bool × Process)
  | 0, _, _ => none
  | rounds + 1, p, index =>
    let t := p.threads index
    if t.canRun then some (true, p.makeCurrent index t)
    else match resumeThread p t with
      | some t => some (true, p.makeCurrent index t)
      | none =>
        let index := p.nextThread index
        if index = p.current_thread then some (false, p) else schedThreadLoop rounds p index

/-- One round for each thread, and no result where the loop goes on after that. -/
def schedThread (p : Process) : Option (Bool × Process) :=
  schedThreadLoop p.thread_count p (p.nextThread p.current_thread)

inductive SchedFailure
  | queueOverflow
  | noReturn
  | noProcess
  deriving DecidableEq, Repr

namespace Table

/-- A queue holds slots. Only behind the first one is it compared with `process_count`. -/
def insertInPrioQueue (s : Table) (queue : List Nat) (task : Nat) :
    Except SchedFailure (List Nat) :=
  if queue = [] then .ok [task]
  else
    let older := fun i => decide
      ((s.process_list i).last_scheduled < (s.process_list task).last_scheduled)
    let queue := queue.takeWhile older ++ task :: queue.dropWhile older
    if queue.length > s.process_count then .error .queueOverflow else .ok queue

def agedNice (nice : Int) : Int :=
  if nice - 1 < 0 then 0
  else if nice - 1 > processPriorities - 1 then processPriorities - 1
  else nice - 1

def queueSlot (r : Table × (Nat → List Nat)) (i : Nat) :
    Except SchedFailure (Table × (Nat → List Nat)) :=
  let (s, queues) := r
  let p := s.process_list i
  if p.pid = -1 then .ok (s, queues)
  else do
    let s := s.setProcess i { p with current_nice := agedNice p.current_nice }
    let nice := (agedNice p.current_nice).toNat
    let queue ← s.insertInPrioQueue (queues nice) i
    .ok (s, Function.update queues nice queue)

def buildQueues (s : Table) : Except SchedFailure (Table × (Nat → List Nat)) :=
  slots.foldlM queueSlot (s, fun _ => [])

def pickProcess : List Nat → Table → Except SchedFailure (Nat × Table)
  | [], _ => .error .noProcess
  | slot :: rest, s =>
    match schedThread (s.process_list slot) with
    | none => .error .noReturn
    | some (true, p) => .ok (slot, s.setProcess slot p)
    | some (false, p) => pickProcess rest (s.setProcess slot p)

def sched (s : Table) (ticks : Nat) : Except SchedFailure (Nat × Table) := do
  let (s, queues) ← s.buildQueues
  let (slot, s) ← pickProcess ((List.range processPriorities).flatMap queues) s
  let p := s.process_list slot
  let s := s.setProcess slot { p with last_scheduled := ticks, current_nice := p.nice }
  .ok (slot, { s with current_process := some slot })

end Table

end OmenProcess
