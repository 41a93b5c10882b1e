import Omen.Devices.Serial
import Omen.Library.Runs

/- What goes through the serial driver in whole runs: flushes send bytes in the order they were
   written, none is made up or sent twice, and none is lost unless a ring fills up. -/
namespace OmenDevices.Serial
open Halting Simulation

def sentOn (port : Nat) (effects : List Effect) : List UInt8 :=
  effects.filterMap fun
    | .sent p c => if p = port then some c else none
    | _ => none

/-- The bytes that reads of a port have given; a 0 stands for no data. -/
def returnedBy (port : Nat) (effects : List Effect) : List UInt8 :=
  effects.filterMap fun
    | .returned p c => if p = port ∧ c ≠ 0 then some c else none
    | _ => none

def writtenTo (port : Nat) (calls : List SerialCall) : List UInt8 :=
  calls.filterMap fun
    | .write p c _ => if p = port then some c else none
    | _ => none

def received (i : Fin 4) (calls : List SerialCall) : List UInt8 :=
  calls.filterMap fun
    | .receive j c => if j = i then some c else none
    | _ => none

def inUse (up : Fin 4 → Bool) (i : Fin 4) : Bool := up i && i.val < 2

-- how many bytes wait in either direction when none is lost
def outStep (port count : Nat) : SerialCall → Nat
  | .write p _ _ => if p = port then count + 1 else count
  | .flush p => if p = port then 0 else count
  | _ => count

def inStep (i : Fin 4) (count : Nat) : SerialCall → Nat
  | .receive j _ => if j = i then count + 1 else count
  | .read p => if p = comPort i then count - 1 else count
  | _ => count

def waitingOut (port : Nat) (calls : List SerialCall) : Nat := calls.foldl (outStep port) 0

def waitingIn (i : Fin 4) (calls : List SerialCall) : Nat := calls.foldl (inStep i) 0

/-- On the ports in use nothing is discarded, no byte is a zero, and at no time do as many bytes
    wait as a ring has cells. -/
structure Clean (up : Fin 4 → Bool) (inbs outbs : Nat) (calls : List SerialCall) : Prop where
  kept : ∀ i, inUse up i = true → .discard (comPort i) ∉ calls
  written : ∀ i, inUse up i = true → 0 ∉ writtenTo (comPort i) calls
  arrived : ∀ i, inUse up i = true → 0 ∉ received i calls
  room : Runs.Along (fun before call => ∀ i, inUse up i = true →
    waitingOut (comPort i) (before ++ [call]) < outbs ∧ waitingIn i (before ++ [call]) < inbs) calls

/-- In its order and with nothing made up; with nothing lost if `clean` holds. -/
def Kept (clean : Prop) (some_of all : List UInt8) : Prop :=
  List.Sublist some_of all ∧ (clean → some_of = all)

structure Line (clean : Prop) (gone waiting all : List UInt8) (count : Nat) : Prop where
  kept : Kept clean (gone ++ waiting) all
  few : clean → waiting.length ≤ count

structure Account (up : Fin 4 → Bool) (inbs outbs : Nat) (clean : Prop) (calls : List SerialCall)
    (t : Driver Queue) : Prop where
  valid : ∀ i, (t.devices i).valid = inUse up i
  inSize : ∀ i, (t.devices i).inb.size = inbs
  outSize : ∀ i, (t.devices i).outb.size = outbs
  sent : ∀ i, Line (clean ∧ (t.devices i).valid) (sentOn (comPort i) t.effects)
    (t.devices i).outb.entries (writtenTo (comPort i) calls) (waitingOut (comPort i) calls)
  read : ∀ i, Line (clean ∧ (t.devices i).valid) (returnedBy (comPort i) t.effects)
    (t.devices i).inb.entries (received i calls) (waitingIn i calls)

structure Still (j : Fin 4) (es : List Effect) (calls calls' : List SerialCall) : Prop where
  unsent : sentOn (comPort j) es = []
  unread : returnedBy (comPort j) es = []
  unwritten : writtenTo (comPort j) calls' = writtenTo (comPort j) calls
  unreceived : received j calls' = received j calls
  out : waitingOut (comPort j) calls' = waitingOut (comPort j) calls
  into : waitingIn j calls' = waitingIn j calls

/-- How a call ends: with the account in order or in a panic, and without one if `clean` holds. -/
structure Ends (clean : Prop) (r : Except Halt (Driver Queue)) (post : Driver Queue → Prop) :
    Prop where
  leads : Leads r post
  safe : clean → r ≠ .error .panic

theorem Ends.ok {clean : Prop} {t : Driver Queue} {post : Driver Queue → Prop} (holds : post t) :
    Ends clean (.ok t) post :=
  ⟨holds, by simp⟩

theorem Ends.bind {clean : Prop} {r : Except Halt (Driver Queue)}
    {f : Driver Queue → Except Halt (Driver Queue)} {post wanted : Driver Queue → Prop}
    (first : Ends clean r post) (next : ∀ t, post t → Ends clean (f t) wanted) :
    Ends clean (r >>= f) wanted := by
  obtain ⟨leads, safe⟩ := first
  cases r with
  | ok t => exact next t leads
  | error halt =>
    cases halt with
    | panic => exact ⟨trivial, safe⟩
    | endless => exact leads.elim

theorem comPort_injective : ∀ i j : Fin 4, comPort i = comPort j → i = j := by decide

section Lines
variable {up : Fin 4 → Bool} {inbs outbs : Nat} {clean : Prop} {calls calls' : List SerialCall}
  {t : Driver Queue} {i : Fin 4} {c : UInt8} {port : Nat} {es es' : List Effect}

theorem Clean.before {call : SerialCall} (holds : Clean up inbs outbs (calls ++ [call])) :
    Clean up inbs outbs calls := by
  have written : ∀ p, List.Sublist (writtenTo p calls) (writtenTo p (calls ++ [call])) :=
    fun p => (List.sublist_append_left calls [call]).filterMap _
  have arrived : ∀ i, List.Sublist (received i calls) (received i (calls ++ [call])) :=
    fun i => (List.sublist_append_left calls [call]).filterMap _
  exact ⟨fun i used member => holds.kept i used (List.mem_append_left _ member),
    fun i used zero => holds.written i used ((written _).subset zero),
    fun i used zero => holds.arrived i used ((arrived i).subset zero),
    (Runs.along_snoc.mp holds.room).1⟩

theorem Line.lost {x y z w : List UInt8} {v : Prop} {n m : Nat} (line : Line (clean ∧ v) x y z n)
    (lossy : ¬ clean) (more : List.Sublist z w) : Line (clean ∧ v) x [] w m :=
  ⟨⟨(((List.nil_sublist y).append_left x).trans line.kept.1).trans more,
    fun holds => absurd holds.1 lossy⟩, fun holds => absurd holds.1 lossy⟩

theorem Line.stored {q : Queue} {x z : List UInt8} {v : Prop} {n : Nat}
    (line : Line (clean ∧ v) x q.entries z n) (valid : v) (room : clean → n + 1 < q.size)
    (c : UInt8) :
    Line (clean ∧ v) x (q.store c).1.entries (z ++ [c]) (n + 1) ∧ (q.store c).1.size = q.size ∧
      ((q.store c).2 = true → ¬ clean) := by
  rw [Queue.store]
  by_cases more : (q.entries ++ [c]).length < q.size
  · rw [dif_pos more]
    refine ⟨⟨?_, fun holds => ?_⟩, rfl, fun full => absurd full Bool.false_ne_true⟩
    · rw [← List.append_assoc]
      exact ⟨line.kept.1.append_right [c], fun holds => congrArg (· ++ [c]) (line.kept.2 holds)⟩
    · rw [List.length_append, List.length_singleton]
      exact Nat.succ_le_succ (line.few holds)
  · have lossy : ¬ clean := by
      intro holds
      have fits := room holds
      have fewer := line.few ⟨holds, valid⟩
      rw [List.length_append, List.length_singleton] at more
      omega
    rw [dif_neg more]
    exact ⟨line.lost lossy (List.sublist_append_left z [c]), rfl, fun _ => lossy⟩

theorem sentOn_append : sentOn port (es ++ es') = sentOn port es ++ sentOn port es' :=
  List.filterMap_append

theorem returnedBy_append :
    returnedBy port (es ++ es') = returnedBy port es ++ returnedBy port es' :=
  List.filterMap_append

theorem sentOn_told (l : List Subscriber) (p : Nat) :
    sentOn port (l.map fun subscriber => .told subscriber c p) = [] := by
  simp [sentOn]

theorem returnedBy_told (l : List Subscriber) (p : Nat) :
    returnedBy port (l.map fun subscriber => .told subscriber c p) = [] := by
  simp [returnedBy]

theorem sentOn_sent (p : Nat) : sentOn port [.sent p c] = if p = port then [c] else [] := by
  simp only [sentOn, List.filterMap_cons, List.filterMap_nil]
  split <;> simp_all

theorem returnedBy_returned (p : Nat) :
    returnedBy port [.returned p c] = if p = port ∧ c ≠ 0 then [c] else [] := by
  by_cases given : p = port ∧ c ≠ 0
  · simp [returnedBy, given]
  · rw [if_neg given]
    simp only [returnedBy, List.filterMap_cons, if_neg given, List.filterMap_nil]

theorem emit_nil : t.emit [] = t := by
  rw [Driver.emit, List.append_nil]

theorem emit_emit : (t.emit es).emit es' = t.emit (es ++ es') := by
  rw [Driver.emit, Driver.emit, Driver.emit, List.append_assoc]

theorem readOutb_nil {n : Nat} {room : [].length < n} (queue : (t.devices i).outb = ⟨n, [], room⟩) :
    readOutb t i = (0, t) := by
  simp only [readOutb, ByteQueue.load, queue, Queue.load]

theorem readOutb_cons {n : Nat} {rest : List UInt8} {room : (c :: rest).length < n}
    (queue : (t.devices i).outb = ⟨n, c :: rest, room⟩) :
    readOutb t i = (c, runSubscribers
      (t.modify i ({ · with outb := ⟨n, rest, Nat.lt_of_succ_lt room⟩ }))
      (t.devices i).writeSubscribers c (comPort i)) := by
  simp only [readOutb, ByteQueue.load, queue, Queue.load]

theorem readInb_nil {n : Nat} {room : [].length < n} (queue : (t.devices i).inb = ⟨n, [], room⟩) :
    readInb t i = (0, t) := by
  simp only [readInb, ByteQueue.load, queue, Queue.load]

theorem readInb_cons {n : Nat} {rest : List UInt8} {room : (c :: rest).length < n}
    (queue : (t.devices i).inb = ⟨n, c :: rest, room⟩) :
    readInb t i = (c, t.modify i ({ · with inb := ⟨n, rest, Nat.lt_of_succ_lt room⟩ })) := by
  simp only [readInb, ByteQueue.load, queue, Queue.load]

theorem getSerial_some (found : getSerial t port = some i) :
    (t.devices i).valid = true ∧ comPort i = port := by
  have fits := List.find?_some found
  rwa [Bool.and_eq_true, decide_eq_true_eq] at fits

theorem writtenTo_snoc (call : SerialCall) :
    writtenTo port (calls ++ [call]) = writtenTo port calls ++ writtenTo port [call] :=
  List.filterMap_append

theorem writtenTo_write (p : Nat) (nested : Bool) :
    writtenTo port [.write p c nested] = if p = port then [c] else [] := by
  simp only [writtenTo, List.filterMap_cons, List.filterMap_nil]
  split <;> simp_all

theorem received_receive (j : Fin 4) :
    received i [.receive j c] = if j = i then [c] else [] := by
  simp only [received, List.filterMap_cons, List.filterMap_nil]
  split <;> simp_all

theorem received_snoc (call : SerialCall) :
    received i (calls ++ [call]) = received i calls ++ received i [call] :=
  List.filterMap_append

theorem waitingOut_snoc (call : SerialCall) :
    waitingOut port (calls ++ [call]) = outStep port (waitingOut port calls) call :=
  List.foldl_concat _ _ _ _

theorem waitingIn_snoc (call : SerialCall) :
    waitingIn i (calls ++ [call]) = inStep i (waitingIn i calls) call :=
  List.foldl_concat _ _ _ _

namespace Account

variable (a : Account up inbs outbs clean calls t)
include a

theorem change {f : SerialDevice Queue → SerialDevice Queue}
    (valid : (f (t.devices i)).valid = (t.devices i).valid)
    (inSize : (f (t.devices i)).inb.size = inbs) (outSize : (f (t.devices i)).outb.size = outbs)
    (sent : Line (clean ∧ (t.devices i).valid)
      (sentOn (comPort i) t.effects ++ sentOn (comPort i) es) (f (t.devices i)).outb.entries
      (writtenTo (comPort i) calls') (waitingOut (comPort i) calls'))
    (read : Line (clean ∧ (t.devices i).valid)
      (returnedBy (comPort i) t.effects ++ returnedBy (comPort i) es)
      (f (t.devices i)).inb.entries (received i calls') (waitingIn i calls'))
    (still : ∀ j, j ≠ i → Still j es calls calls') :
    Account up inbs outbs clean calls' ((t.modify i f).emit es) := by
  have at_i : ∀ j, ((t.modify i f).emit es).devices j =
      if j = i then f (t.devices i) else t.devices j :=
    fun j => Function.update_apply _ _ _ _
  refine ⟨fun j => ?_, fun j => ?_, fun j => ?_, fun j => ?_, fun j => ?_⟩
  all_goals rw [at_i]
  all_goals by_cases here : j = i
  all_goals simp only [here, if_true, if_false, Driver.emit, Driver.modify, sentOn_append,
    returnedBy_append]
  · exact valid.trans (a.valid i)
  · exact a.valid j
  · exact inSize
  · exact a.inSize j
  · exact outSize
  · exact a.outSize j
  · rw [valid]
    exact sent
  · rw [(still j here).unsent, (still j here).unwritten, (still j here).out, List.append_nil]
    exact a.sent j
  · rw [valid]
    exact read
  · rw [(still j here).unread, (still j here).unreceived, (still j here).into, List.append_nil]
    exact a.read j

theorem emit (unsent : ∀ j, sentOn (comPort j) es = [])
    (unread : ∀ j, returnedBy (comPort j) es = []) :
    Account up inbs outbs clean calls (t.emit es) := by
  refine ⟨a.valid, a.inSize, a.outSize, fun j => ?_, fun j => ?_⟩
  · rw [Driver.emit, sentOn_append, unsent, List.append_nil]
    exact a.sent j
  · rw [Driver.emit, returnedBy_append, unread, List.append_nil]
    exact a.read j

theorem ignored {call : SerialCall}
    (skips : ∀ i, (t.devices i).valid = true →
      writtenTo (comPort i) [call] = [] ∧ received i [call] = [])
    (out : ∀ i, clean ∧ (t.devices i).valid = true →
      (t.devices i).outb.entries.length ≤ outStep (comPort i) (waitingOut (comPort i) calls) call)
    (into : ∀ i, clean ∧ (t.devices i).valid = true →
      (t.devices i).inb.entries.length ≤ inStep i (waitingIn i calls) call) :
    Account up inbs outbs clean (calls ++ [call]) t := by
  refine ⟨a.valid, a.inSize, a.outSize, fun j => ⟨⟨?_, fun holds => ?_⟩, ?_⟩,
    fun j => ⟨⟨?_, fun holds => ?_⟩, ?_⟩⟩
  · rw [writtenTo_snoc]
    exact (a.sent j).kept.1.trans (List.sublist_append_left _ _)
  · rw [writtenTo_snoc, (skips j holds.2).1, List.append_nil]
    exact (a.sent j).kept.2 holds
  · rw [waitingOut_snoc]
    exact out j
  · rw [received_snoc]
    exact (a.read j).kept.1.trans (List.sublist_append_left _ _)
  · rw [received_snoc, (skips j holds.2).2, List.append_nil]
    exact (a.read j).kept.2 holds
  · rw [waitingIn_snoc]
    exact into j

theorem unmoved {call : SerialCall}
    (skips : ∀ i, (t.devices i).valid = true →
      (writtenTo (comPort i) [call] = [] ∧ received i [call] = []) ∧
      ∀ n, outStep (comPort i) n call = n ∧ inStep i n call = n) :
    Account up inbs outbs clean (calls ++ [call]) t := by
  refine a.ignored (fun i valid => (skips i valid).1) (fun i holds => ?_) fun i holds => ?_
  · rw [((skips i holds.2).2 _).1]
    exact (a.sent i).few holds
  · rw [((skips i holds.2).2 _).2]
    exact (a.read i).few holds

theorem adjust {f : SerialDevice Queue → SerialDevice Queue}
    (valid : (f (t.devices i)).valid = (t.devices i).valid)
    (inb : (f (t.devices i)).inb = (t.devices i).inb)
    (outb : (f (t.devices i)).outb = (t.devices i).outb) :
    Account up inbs outbs clean calls (t.modify i f) := by
  have changed := @change _ _ _ _ _ calls _ i [] a f valid (by rw [inb]; exact a.inSize i)
    (by rw [outb]; exact a.outSize i)
    (by rw [outb]; exact (List.append_nil (sentOn _ _)).symm ▸ a.sent i)
    (by rw [inb]; exact (List.append_nil (returnedBy _ _)).symm ▸ a.read i)
    fun j _ => ⟨rfl, rfl, rfl, rfl, rfl, rfl⟩
  rwa [emit_nil] at changed

theorem entries_written (i : Fin 4) :
    List.Sublist (t.devices i).outb.entries (writtenTo (comPort i) calls) :=
  (List.sublist_append_right _ _).trans (a.sent i).kept.1

theorem entries_received (i : Fin 4) : List.Sublist (t.devices i).inb.entries (received i calls) :=
  (List.sublist_append_right _ _).trans (a.read i).kept.1

theorem flushLoop (i : Fin 4) (nonzero : clean → 0 ∉ writtenTo (comPort i) calls) {turns : Nat}
    (enough : (t.devices i).outb.entries.length < turns) :
    ∃ t', flushLoop i turns t = .ok t' ∧ Account up inbs outbs clean calls t' ∧
      (clean → (t'.devices i).outb.entries = []) := by
  induction turns generalizing t with
  | zero => exact absurd enough (Nat.not_lt_zero _)
  | succ turns ih =>
    have size := a.outSize i
    have sent := a.sent i
    have waiting := a.entries_written i
    rw [Serial.flushLoop]
    revert enough size sent waiting
    generalize queue : (t.devices i).outb = q
    obtain ⟨n, entries, room⟩ := q
    intro enough size sent waiting
    cases entries with
    | nil =>
      rw [readOutb_nil queue]
      exact ⟨t, rfl, a, fun _ => by rw [queue]⟩
    | cons c rest =>
      rw [readOutb_cons queue]
      dsimp only
      have fewer : clean ∧ (t.devices i).valid → rest.length ≤ waitingOut (comPort i) calls :=
        fun holds => Nat.le_of_succ_le (sent.few holds)
      by_cases zero : c = 0
      · -- the zero ends the loop and goes nowhere
        subst zero
        have dirty : ¬ clean := fun holds =>
          nonzero holds (waiting.subset List.mem_cons_self)
        rw [if_pos rfl]
        refine ⟨_, rfl, a.change rfl (a.inSize i) size ⟨⟨?_, fun holds => ?_⟩, fewer⟩ ?_
          fun j _ => ⟨sentOn_told _ _, returnedBy_told _ _, rfl, rfl, rfl, rfl⟩,
          fun holds => absurd holds dirty⟩
        · rw [sentOn_told, List.append_nil]
          exact ((List.sublist_cons_self 0 rest).append_left _).trans sent.kept.1
        · exact absurd holds.1 dirty
        · rw [returnedBy_told, List.append_nil]
          exact a.read i
      · rw [if_neg zero, runSubscribers, emit_emit]
        have unread : ∀ p, returnedBy p ((t.devices i).writeSubscribers.map (fun subscriber =>
            .told subscriber c (comPort i)) ++ [.sent (comPort i) c]) = [] := fun p => by
          rw [returnedBy_append, returnedBy_told, List.nil_append]
          rfl
        refine ih (a.change rfl (a.inSize i) size ⟨?_, fewer⟩ ?_
          fun j other => ⟨?_, unread _, rfl, rfl, rfl, rfl⟩) ?_
        · rw [sentOn_append, sentOn_told, List.nil_append, sentOn_sent, if_pos rfl,
            List.append_assoc]
          exact sent.kept
        · rw [unread, List.append_nil]
          exact a.read i
        · rw [sentOn_append, sentOn_told, List.nil_append, sentOn_sent,
            if_neg fun same => other (comPort_injective _ _ same).symm]
        · simp only [Driver.emit, Driver.modify, Function.update_self]
          exact Nat.lt_of_succ_lt_succ enough

theorem serialDiscard (port : Nat) (lossy : ∀ i, getSerial t port = some i → ¬ clean) :
    Account up inbs outbs clean calls (serialDiscard t port) := by
  rw [Serial.serialDiscard]
  cases found : getSerial t port with
  | none => exact a
  | some i =>
    have lost := lossy i found
    have emptied := @change _ _ _ _ _ calls _ i [] a (fun d => { d with
      inb := ByteQueue.discard d.inb, outb := ByteQueue.discard d.outb }) rfl (a.inSize i)
      (a.outSize i)
      ((List.append_nil (sentOn _ _)).symm ▸ (a.sent i).lost lost (List.Sublist.refl _))
      ((List.append_nil (returnedBy _ _)).symm ▸ (a.read i).lost lost (List.Sublist.refl _))
      fun j _ => ⟨rfl, rfl, rfl, rfl, rfl, rfl⟩
    rwa [emit_nil] at emptied

theorem overflow (lossy : ¬ clean) :
    ∃ t', overflow t = .ok t' ∧ Account up inbs outbs clean calls t' := by
  rw [Serial.overflow]
  cases t.interrupted with
  | none => exact ⟨t, rfl, a⟩
  | some i =>
    have flushed : ∃ t', serialFlush t (comPort i) = .ok t' ∧
        Account up inbs outbs clean calls t' := by
      rw [serialFlush]
      cases getSerial t (comPort i) with
      | none => exact ⟨t, rfl, a⟩
      | some j =>
        obtain ⟨t', done, account, -⟩ :=
          a.flushLoop j (fun holds => absurd holds lossy) (t.devices j).outb.room
        exact ⟨t', done, account⟩
    obtain ⟨t', done, account⟩ := flushed
    refine ⟨_, ?_, account.serialDiscard (comPort i) fun _ _ => lossy⟩
    dsimp only
    rw [done]
    rfl

theorem checkFull {full : Bool} (lossy : full = true → ¬ clean) (nested : Bool) :
    Ends clean (checkFull t full nested) (Account up inbs outbs clean calls) := by
  cases full with
  | false => exact .ok a
  | true =>
    cases nested with
    | true => exact ⟨trivial, fun holds => absurd holds (lossy rfl)⟩
    | false =>
      obtain ⟨t', emptied, account⟩ := a.overflow (lossy rfl)
      change Ends clean (Serial.overflow t) _
      rw [emptied]
      exact .ok account

theorem writeOutb (valid : (t.devices i).valid = true) (nested : Bool)
    (few : clean → waitingOut (comPort i) calls + 1 < outbs) :
    Ends clean (writeOutb t i c nested)
      (Account up inbs outbs clean (calls ++ [.write (comPort i) c nested])) := by
  have unreceived : ∀ j, received j (calls ++ [.write (comPort i) c nested]) = received j calls :=
    fun j => by
      rw [received_snoc]
      exact List.append_nil _
  obtain ⟨line, size, lossy⟩ := (a.sent i).stored valid (by rw [a.outSize i]; exact few) c
  have stored : Account up inbs outbs clean (calls ++ [.write (comPort i) c nested])
      ((t.modify i fun d => { d with outb := ((t.devices i).outb.store c).1 }).emit []) := by
    refine a.change rfl (a.inSize i) (size.trans (a.outSize i)) ?_ ?_ fun j other =>
      ⟨rfl, rfl, ?_, unreceived j, ?_, waitingIn_snoc _⟩
    · rw [writtenTo_snoc, writtenTo_write, if_pos rfl, waitingOut_snoc, outStep, if_pos rfl]
      exact (List.append_nil (sentOn _ _)).symm ▸ line
    · rw [unreceived, waitingIn_snoc]
      exact (List.append_nil (returnedBy _ _)).symm ▸ a.read i
    · rw [writtenTo_snoc, writtenTo_write,
        if_neg fun same => other (comPort_injective _ _ same).symm, List.append_nil]
    · rw [waitingOut_snoc, outStep, if_neg fun same => other (comPort_injective _ _ same).symm]
  rw [emit_nil] at stored
  exact stored.checkFull lossy nested

theorem announce : Account up inbs outbs clean calls (announce t i c) := by
  rw [Serial.announce, runSubscribers]
  split
  · rw [emit_emit]
    refine a.emit (fun j => ?_) fun j => ?_
    · rw [sentOn_append, sentOn_told]
      rfl
    · rw [returnedBy_append, returnedBy_told]
      rfl
  · exact a.emit (fun j => sentOn_told _ _) fun j => returnedBy_told _ _

theorem writeInb (valid : (t.devices i).valid = true) (few : clean → waitingIn i calls + 1 < inbs) :
    Ends clean (writeInb t i c) (Account up inbs outbs clean (calls ++ [.receive i c])) := by
  have unwritten : ∀ p, writtenTo p (calls ++ [.receive i c]) = writtenTo p calls := fun p => by
    rw [writtenTo_snoc]
    exact List.append_nil _
  obtain ⟨line, size, lossy⟩ := (a.read i).stored valid (by rw [a.inSize i]; exact few) c
  have stored : Account up inbs outbs clean (calls ++ [.receive i c])
      ((t.modify i fun d => { d with inb := ((t.devices i).inb.store c).1 }).emit []) := by
    refine a.change rfl (size.trans (a.inSize i)) (a.outSize i) ?_ ?_ fun j other =>
      ⟨rfl, rfl, unwritten _, ?_, waitingOut_snoc _, ?_⟩
    · rw [unwritten, waitingOut_snoc]
      exact (List.append_nil (sentOn _ _)).symm ▸ a.sent i
    · rw [received_snoc, received_receive, if_pos rfl, waitingIn_snoc, inStep, if_pos rfl]
      exact (List.append_nil (returnedBy _ _)).symm ▸ line
    · rw [received_snoc, received_receive, if_neg (Ne.symm other), List.append_nil]
    · rw [waitingIn_snoc, inStep, if_neg (Ne.symm other)]
  rw [emit_nil] at stored
  exact (stored.checkFull lossy true).bind fun t' account => .ok account.announce

theorem readInb (nonzero : clean → 0 ∉ received i calls) :
    Account up inbs outbs clean (calls ++ [.read (comPort i)])
      ((readInb t i).2.emit [.returned (comPort i) (readInb t i).1]) := by
  have size := a.inSize i
  have read := a.read i
  have waiting := a.entries_received i
  have others : ∀ j, j ≠ i → ∀ n, inStep j n (.read (comPort i)) = n := fun j other n => by
    rw [inStep, if_neg fun same => other (comPort_injective _ _ same).symm]
  revert size read waiting
  generalize queue : (t.devices i).inb = q
  obtain ⟨n, entries, room⟩ := q
  intro size read waiting
  cases entries with
  | nil =>
    rw [readInb_nil queue]
    refine ignored (a.emit (fun j => rfl) fun j => ?_) (fun _ _ => ⟨rfl, rfl⟩)
      (fun j holds => (a.sent j).few holds) fun j holds => ?_
    · rw [returnedBy_returned, if_neg fun both => both.2 rfl]
    · by_cases here : j = i
      · subst here
        rw [Driver.emit, queue]
        exact Nat.zero_le _
      · rw [others j here]
        exact (a.read j).few holds
  | cons c rest =>
    rw [readInb_cons queue]
    refine a.change rfl size (a.outSize i) ?_ ⟨?_, fun holds => ?_⟩ fun j other =>
      ⟨rfl, ?_, ?_, ?_, waitingOut_snoc _, ?_⟩
    · rw [waitingOut_snoc, writtenTo_snoc]
      exact (List.append_nil (sentOn _ _)).symm ▸ (List.append_nil (writtenTo _ _)).symm ▸ a.sent i
    · rw [returnedBy_returned, received_snoc, List.append_assoc]
      change Kept _ _ (received i calls ++ [])
      rw [List.append_nil]
      by_cases zero : c = 0
      · rw [if_neg fun both => both.2 zero]
        refine ⟨((List.sublist_cons_self c rest).append_left _).trans read.kept.1, fun holds => ?_⟩
        rw [zero] at waiting
        exact absurd (waiting.subset List.mem_cons_self) (nonzero holds.1)
      · rw [if_pos ⟨rfl, zero⟩]
        exact read.kept
    · rw [waitingIn_snoc, inStep, if_pos rfl]
      exact Nat.le_sub_one_of_lt (read.few holds)
    · rw [returnedBy_returned, if_neg fun both => other (comPort_injective _ _ both.1).symm]
    · rw [writtenTo_snoc]
      exact List.append_nil _
    · rw [received_snoc]
      exact List.append_nil _
    · rw [waitingIn_snoc, others j other]

theorem serialEvent (port : Nat) (reads : Bool) (change : List Subscriber → List Subscriber) :
    Account up inbs outbs clean calls (serialEvent t port reads change) := by
  rw [Serial.serialEvent]
  split
  · exact a
  · cases reads with
    | true => exact a.adjust rfl rfl rfl
    | false => exact a.adjust rfl rfl rfl

theorem getSerial_none (none : getSerial t port = none) (valid : (t.devices i).valid = true) :
    port ≠ comPort i := by
  have first : i ∈ [0, 1] := by
    have known := a.valid i
    rw [valid, eq_comm, inUse, Bool.and_eq_true, decide_eq_true_eq] at known
    have all : ∀ j : Fin 4, j < 2 → j ∈ [0, 1] := by decide
    exact all i known.2
  have failed := List.find?_eq_none.mp none i first
  rintro rfl
  simp [valid] at failed

theorem call (call : SerialCall) (holds : clean → Clean up inbs outbs (calls ++ [call])) :
    Ends clean (t.call call) (Account up inbs outbs clean (calls ++ [call])) := by
  have used : ∀ {i}, (t.devices i).valid = true → inUse up i = true :=
    fun valid => (a.valid _).symm.trans valid
  have last : ∀ {i}, (t.devices i).valid = true → clean →
      waitingOut (comPort i) (calls ++ [call]) < outbs ∧ waitingIn i (calls ++ [call]) < inbs :=
    fun valid h => (Runs.along_snoc.mp (holds h).room).2 _ (used valid)
  cases call with
  | receive i c =>
    rw [Driver.call, comHandler]
    by_cases valid : (t.devices i).valid = true
    · rw [if_pos valid]
      have marked : Account up inbs outbs clean calls { t with interrupted := some i } :=
        ⟨a.valid, a.inSize, a.outSize, a.sent, a.read⟩
      refine marked.writeInb valid fun h => ?_
      have few := (last valid h).2
      rwa [waitingIn_snoc, inStep, if_pos rfl] at few
    · rw [if_neg valid]
      have other : ∀ j, (t.devices j).valid = true → i ≠ j := by
        rintro j here rfl
        exact valid here
      refine .ok (a.unmoved fun j here => ⟨⟨rfl, ?_⟩, fun n => ⟨rfl, ?_⟩⟩)
      · rw [received_receive, if_neg (other j here)]
      · rw [inStep, if_neg (other j here)]
  | write port c nested =>
    rw [Driver.call, serialWrite]
    cases found : getSerial t port with
    | none =>
      refine .ok (a.unmoved fun j here => ⟨⟨?_, rfl⟩, fun n => ⟨?_, rfl⟩⟩)
      · rw [writtenTo_write, if_neg (a.getSerial_none found here)]
      · rw [outStep, if_neg (a.getSerial_none found here)]
    | some i =>
      obtain ⟨valid, rfl⟩ := getSerial_some found
      refine a.writeOutb valid nested fun h => ?_
      have few := (last valid h).1
      rwa [waitingOut_snoc, outStep, if_pos rfl] at few
  | read port =>
    rw [Driver.call, serialRead]
    cases found : getSerial t port with
    | none =>
      refine .ok (unmoved (a.emit (fun j => rfl) fun j => ?_) fun j here =>
        ⟨⟨rfl, rfl⟩, fun n => ⟨rfl, ?_⟩⟩)
      · rw [returnedBy_returned, if_neg fun both => both.2 rfl]
      · rw [inStep, if_neg (a.getSerial_none found here)]
    | some i =>
      obtain ⟨valid, rfl⟩ := getSerial_some found
      refine .ok (a.readInb fun h zero => (holds h).arrived i (used valid) ?_)
      rw [received_snoc]
      exact List.mem_append_left _ zero
  | flush port =>
    rw [Driver.call, serialFlush]
    cases found : getSerial t port with
    | none =>
      refine .ok (a.unmoved fun j here => ⟨⟨rfl, rfl⟩, fun n => ⟨?_, rfl⟩⟩)
      rw [outStep, if_neg (a.getSerial_none found here)]
    | some i =>
      obtain ⟨valid, rfl⟩ := getSerial_some found
      have nonzero : clean → 0 ∉ writtenTo (comPort i) calls := fun h zero =>
        (holds h).written i (used valid) (by rw [writtenTo_snoc]; exact List.mem_append_left _ zero)
      obtain ⟨t', flushed, account, drained⟩ :=
        a.flushLoop i nonzero (t.devices i).outb.room
      dsimp only
      rw [show ByteQueue.size (t.devices i).outb = (t.devices i).outb.size from rfl, flushed]
      refine .ok (account.ignored (fun _ _ => ⟨rfl, rfl⟩) (fun j both => ?_)
        fun j both => (account.read j).few both)
      by_cases here : j = i
      · rw [here, drained both.1]
        exact Nat.zero_le _
      · rw [outStep, if_neg fun same => here (comPort_injective _ _ same).symm]
        exact (account.sent j).few both
  | discard port =>
    have lossy : ∀ i, getSerial t port = some i → ¬ clean := by
      intro i found h
      obtain ⟨valid, rfl⟩ := getSerial_some found
      exact (holds h).kept i (used valid) (by simp)
    exact .ok ((a.serialDiscard port lossy).unmoved fun _ _ => ⟨⟨rfl, rfl⟩, fun _ => ⟨rfl, rfl⟩⟩)
  | echo port on =>
    refine .ok (unmoved ?_ fun _ _ => ⟨⟨rfl, rfl⟩, fun _ => ⟨rfl, rfl⟩⟩)
    rw [serialEcho]
    split
    · exact a
    · exact a.adjust rfl rfl rfl
  | add port reads subscriber =>
    exact .ok ((a.serialEvent _ _ _).unmoved fun _ _ => ⟨⟨rfl, rfl⟩, fun _ => ⟨rfl, rfl⟩⟩)
  | remove port reads subscriber =>
    exact .ok ((a.serialEvent _ _ _).unmoved fun _ _ => ⟨⟨rfl, rfl⟩, fun _ => ⟨rfl, rfl⟩⟩)

end Account

theorem account_calls (inRoom : 0 < inbs) (outRoom : 0 < outbs)
    (holds : clean → Clean up inbs outbs calls) :
    Ends clean ((initSerial up (emptyQueue inbs inRoom) (emptyQueue outbs outRoom)).calls calls)
      (Account up inbs outbs clean calls) := by
  induction calls using List.reverseRecOn with
  | nil =>
    refine .ok ⟨fun i => rfl, fun i => rfl, fun i => rfl, fun i => ?_, fun i => ?_⟩
    all_goals exact ⟨⟨List.Sublist.refl [], fun _ => rfl⟩, fun _ => Nat.le_refl 0⟩
  | append_singleton calls call ih =>
    have before := ih fun h => (holds h).before
    rw [Driver.calls, List.foldlM_append]
    simp only [List.foldlM_cons, List.foldlM_nil, bind_pure]
    exact before.bind fun t account => account.call call holds

/-- A byte that is received panics just if it fills the ring up. -/
theorem receive_panics_iff (valid : (t.devices i).valid = true) :
    t.call (.receive i c) = .error .panic ↔
      (t.devices i).inb.entries.length + 1 = (t.devices i).inb.size := by
  have room := (t.devices i).inb.room
  rw [Driver.call, comHandler, if_pos valid, writeInb]
  simp only [ByteQueue.store, Queue.store]
  by_cases more : ((t.devices i).inb.entries ++ [c]).length < (t.devices i).inb.size
  · rw [dif_pos more]
    rw [List.length_append, List.length_singleton] at more
    refine iff_of_false (fun panics => ?_) (by omega)
    cases panics
  · rw [dif_neg more]
    rw [List.length_append, List.length_singleton] at more
    exact iff_of_true rfl (by omega)

end Lines

/-- In any run of receive interrupts, reads, writes, flushes, discards and changes of the
    settings no call is endless. What flushes send on a port and what waits for it is, in this
    order, part of what was written to it, and the same holds of what is read and was received;
    the next byte that comes in panics just if it fills its ring. As long as no ring fills up,
    nothing is discarded and no byte is a zero, there is no panic and nothing is lost. -/
theorem serial_in_order (up : Fin 4 → Bool) (inbs outbs : Nat) (inRoom : 0 < inbs)
    (outRoom : 0 < outbs) (calls : List SerialCall) :
    let run := (initSerial up (emptyBuffer inbs) (emptyBuffer outbs)).calls calls
    run ≠ .error .endless ∧ (Clean up inbs outbs calls → run ≠ .error .panic) ∧
      ∀ s, run = .ok s → ∀ i, ∃ waiting unread,
        Ring.Shows (s.devices i).outb.cells outbs (s.devices i).outb.read
          (s.devices i).outb.write waiting ∧
        Ring.Shows (s.devices i).inb.cells inbs (s.devices i).inb.read
          (s.devices i).inb.write unread ∧
        Kept (Clean up inbs outbs calls ∧ (s.devices i).valid)
          (sentOn (comPort i) s.effects ++ waiting) (writtenTo (comPort i) calls) ∧
        Kept (Clean up inbs outbs calls ∧ (s.devices i).valid)
          (returnedBy (comPort i) s.effects ++ unread) (received i calls) ∧
        ((s.devices i).valid = true → ∀ c,
          s.call (.receive i c) = .error .panic ↔ unread.length + 1 = inbs) := by
  have ends := @account_calls up inbs outbs (Clean up inbs outbs calls) calls inRoom outRoom id
  have related := serial_same up inRoom outRoom calls
  refine ⟨fun endless => ends.leads.ends ((related.error_iff _).mp endless),
    fun clean panics => ends.safe clean ((related.error_iff _).mp panics), fun s ran i => ?_⟩
  obtain ⟨t, run, same⟩ := related.of_ok ran
  have account := ends.leads.of_ok run
  have device := same.devices i
  refine ⟨(t.devices i).outb.entries, (t.devices i).inb.entries, ?_, ?_, ?_, ?_, fun valid c => ?_⟩
  · rw [← account.outSize i]
    exact device.outb.shows
  · rw [← account.inSize i]
    exact device.inb.shows
  · rw [same.effects, device.valid]
    exact (account.sent i).kept
  · rw [same.effects, device.valid]
    exact (account.read i).kept
  · rw [(same.call (.receive i c)).error_iff, receive_panics_iff (device.valid ▸ valid),
      account.inSize i]

/-- More bytes than the rings have cells, one at a time, in both directions. -/
theorem serial_in_order_two :
    let run := (initSerial (fun _ => true) (emptyBuffer 2) (emptyBuffer 2)).calls
      [.write 0x3f8 97 false, .flush 0x3f8, .receive 0 99, .read 0x3f8, .receive 0 100,
        .write 0x3f8 98 false, .flush 0x3f8]
    run ≠ .error .panic ∧ ∀ s, run = .ok s → (s.devices 0).valid = true →
      (∃ waiting, sentOn 0x3f8 s.effects ++ waiting = [97, 98]) ∧
        ∃ unread, returnedBy 0x3f8 s.effects ++ unread = [99, 100] := by
  have clean : Clean (fun _ => true) 2 2 [.write 0x3f8 97 false, .flush 0x3f8, .receive 0 99,
      .read 0x3f8, .receive 0 100, .write 0x3f8 98 false, .flush 0x3f8] :=
    ⟨by simp, by decide, by decide, by decide⟩
  obtain ⟨-, safe, lines⟩ := serial_in_order (fun _ => true) 2 2 (by decide) (by decide)
    [.write 0x3f8 97 false, .flush 0x3f8, .receive 0 99, .read 0x3f8, .receive 0 100,
      .write 0x3f8 98 false, .flush 0x3f8]
  refine ⟨safe clean, fun s run valid => ?_⟩
  obtain ⟨waiting, unread, -, -, sent, read, -⟩ := lines s run 0
  exact ⟨⟨waiting, sent.2 ⟨clean, valid⟩⟩, unread, read.2 ⟨clean, valid⟩⟩

end OmenDevices.Serial
