import Mathlib.Logic.Function.Basic

/- The process table of `process.c`: creation, `fork`, `exec` and deletion. A process is known by
   its slot. Memory, files and contexts of a process are left out. A panic has no result. -/
namespace OmenProcess

def maxProcesses : Nat := 256

def maxThreads : Nat := 32

inductive ProcessStatus
  | alive
  | zombie
  | sigstop
  | sigcont
  deriving DecidableEq, Repr

inductive ThreadStatus
  | ready
  | running
  | uninterruptibleSleep
  | interruptibleSleep
  | zombie
  deriving DecidableEq, Repr

abbrev SigSet := BitVec 64

structure Thread where
  status : ThreadStatus := .ready
  waiting : Nat := 0
  sigprocmask : SigSet := 0
  sigsuspend_mask : SigSet := 0
  unsuspend_signal : Nat := 0

structure Process where
  threads : Nat → Thread := fun _ => {}
  thread_count : Nat := 0
  current_thread : Nat := 0
  nice : Int := 0
  current_nice : Int := 0
  exit_code : Int := 0
  global_status : ProcessStatus := .alive
  last_scheduled : Nat := 0
  signal_queue : Nat → Nat := fun _ => 0
  pid : Int := 0
  ppid : Int := 0
  parent : Option Nat := none

structure Table where
  process_list : Nat → Process
  process_count : Nat
  current_process : Option Nat

def Process.setThread (p : Process) (thread : Nat) (t : Thread) : Process :=
  { p with threads := Function.update p.threads thread t }

namespace Table

def setProcess (s : Table) (slot : Nat) (p : Process) : Table :=
  { s with process_list := Function.update s.process_list slot p }

def setThread (s : Table) (slot thread : Nat) (t : Thread) : Table :=
  s.setProcess slot ((s.process_list slot).setThread thread t)

def slots : List Nat := List.range maxProcesses

def getFreeProcessSlot (s : Table) : Option Nat :=
  slots.find? fun i => (s.process_list i).pid == -1

def getNextPid (s : Table) : Int :=
  match (List.range' 1 (maxProcesses - 1)).find? fun npid : Nat =>
      !slots.any fun i => (s.process_list i).pid == npid with
  | some npid => npid
  | none => -1

def initThread (p : Process) : Option Process :=
  if p.thread_count ≥ maxThreads then none
  else some { p.setThread p.thread_count {} with thread_count := p.thread_count + 1 }

def createUserProcess (s : Table) : Option (Nat × Table) := do
  let slot ← s.getFreeProcessSlot
  let s := { s with process_count := s.process_count + 1 }
  let task : Process := { nice := 10, current_nice := 10 }
  -- the cleared slot has pid 0 while a pid is looked for
  let pid := (s.setProcess slot task).getNextPid
  if pid < 0 then none
  else do
    let ppid := match s.current_process with
      | some parent => (s.process_list parent).pid
      | none => 0
    let task ← initThread { task with pid := pid, ppid := ppid, parent := s.current_process }
    some (slot, s.setProcess slot task)

/-- The new process of `duplicate_process`, but for its pid. -/
def childOf (s : Table) (parent thread : Nat) : Process :=
  let p := s.process_list parent
  { p with
    threads := Function.update (fun _ => {}) 0 (p.threads thread)
    thread_count := 1
    current_thread := 0
    current_nice := p.nice
    exit_code := 0
    ppid := p.pid
    parent := some parent }

def duplicateProcess (s : Table) (parent thread : Nat) : Option (Nat × Table) :=
  if s.process_count ≥ maxProcesses then none
  else do
    let slot ← s.getFreeProcessSlot
    let s := { s with process_count := s.process_count + 1 }
    -- the new slot has the pid of the parent while a pid is looked for
    let pid := (s.setProcess slot (s.process_list parent)).getNextPid
    some (slot, s.setProcess slot { s.childOf parent thread with pid := pid })

def fork (s : Table) (parent thread : Nat) : Option (Int × Nat × Table) := do
  let (slot, s) ← s.duplicateProcess parent thread
  let child := s.process_list slot
  let s := s.setThread slot 0 { child.threads 0 with status := .ready }
  some (child.pid, slot, s)

def deleteProcess (s : Table) (slot : Nat) : Table := s.setProcess slot { pid := -1 }

def alterProcessOnExec (s : Table) (slot : Nat) : Option Table := do
  let saved := s.process_list slot
  let task ← initThread
    { nice := saved.nice, current_nice := saved.nice, pid := saved.pid, ppid := saved.ppid,
      parent := saved.parent }
  some (s.setProcess slot task)

def emptyTable : Table where
  process_list _ := { pid := -1 }
  process_count := 0
  current_process := none

def initProcess : Option Table := do
  let (slot, s) ← emptyTable.createUserProcess
  let s := s.setProcess slot { s.process_list slot with pid := 0 }
  let s := { s with current_process := some slot }
  let s ← s.alterProcessOnExec slot
  some (s.setThread slot 0 { (s.process_list slot).threads 0 with status := .running })

def live (s : Table) (slot : Nat) : Bool := (s.process_list slot).pid != -1

def liveSlots (s : Table) : List Nat := slots.filter s.live

end Table

end OmenProcess
