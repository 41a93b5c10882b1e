import Omen.Process.Scheduler

/- Sending a signal and the choice of a pending one, on the table of processes: `kill` and
   `dequeue_signal` of `signal.c` and `select_signal` of `process.c`. -/
namespace OmenProcess

namespace Table

def kill (p : Process) (signal : Int) : Option Process :=
  if signal > nsig ∨ signal < 0 then none
  else
    let queued := p.signal_queue signal.toNat + 1
    some { p with signal_queue := Function.update p.signal_queue signal.toNat queued }

def dequeueSignal (p : Process) (signo : Nat) : Process :=
  { p with signal_queue := Function.update p.signal_queue signo (p.signal_queue signo - 1) }

def selectSignal (s : Table) (slot thread : Nat) : Option (Option Nat × Table) :=
  let p := s.process_list slot
  let t := p.threads thread
  if t.unsuspend_signal ≠ 0 then
    if p.signal_queue t.unsuspend_signal = 0 then none
    else
      let p := (dequeueSignal p t.unsuspend_signal).setThread thread
        { t with unsuspend_signal := 0, sigprocmask := t.sigsuspend_mask, sigsuspend_mask := 0 }
      some (some t.unsuspend_signal, s.setProcess slot p)
  else
    match (List.range' 1 (nsig - 1)).find? fun i =>
        p.signal_queue i != 0 && t.sigprocmask &&& sigBit i == 0 with
    | some i => some (some i, s.setProcess slot (dequeueSignal p i))
    | none => some (none, s)

theorem threads_self {thread : Nat} (p : Process) (x : Thread) :
    (p.setThread thread x).threads thread = x := Function.update_self ..

end Table

end OmenProcess
