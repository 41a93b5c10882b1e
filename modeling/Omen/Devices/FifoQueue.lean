import Omen.Devices.Fifo
import Omen.Library.Runs

/- The ring of `managers/dev/fifo.c` against a first-in first-out queue that holds one byte less
   than the ring has cells. -/
namespace OmenDevices

def fifoFlush (fifo : Fifo) : Fifo := { fifo with head := 0, tail := 0 }

inductive FifoOp where
  | put (data : UInt8)
  | get
  | flush

structure Queueing where
  fifo : Fifo
  queue : List UInt8

def Queueing.step (q : Queueing) : FifoOp → Queueing
  | .put data => ⟨(fifoPut q.fifo data).1, (q.queue ++ [data]).take (q.fifo.size - 1)⟩
  | .get => ⟨(fifoGet q.fifo).1, q.queue.tail⟩
  | .flush => ⟨fifoFlush q.fifo, []⟩

/-- The FIFO holds the queue, measures it, refuses a byte just when the queue is full, and gives
    out its oldest byte. -/
structure Queueing.Agrees (q : Queueing) : Prop where
  contents : inRing q.fifo = q.queue
  bounded : q.queue.length ≤ q.fifo.size - 1
  size : fifoSize q.fifo = q.queue.length
  refuses : ∀ data, fifoPut q.fifo data = (q.fifo, 0) ↔ q.queue.length = q.fifo.size - 1
  answers : ∀ data, (fifoPut q.fifo data).2 = 0 ↔ q.queue.length = q.fifo.size - 1
  oldest : ∀ data, q.queue.head? = some data → (fifoGet q.fifo).2 = data

section Queue
variable {fifo : Fifo} {l : List UInt8} {q : Queueing} {size : Nat}

theorem Holds.size_eq (h : Holds fifo l) (half : fifo.size ≤ 2 ^ 63) :
    fifoSize fifo = l.length := by
  have inside := h.ring.inside
  have room := h.ring.room
  have below := h.ring.tail_lt
  have between := h.ring.length_eq
  rw [fifoSize]
  split at between
  · rw [show fifo.tail + (2 ^ 64 - fifo.head) + fifo.size = l.length + fifo.size + 2 ^ 64 by omega,
      Nat.add_mod_right, Nat.mod_eq_of_lt (show l.length + fifo.size < 2 ^ 64 by omega),
      Nat.add_mod_right, Nat.mod_eq_of_lt room]
  · rw [show fifo.tail + (2 ^ 64 - fifo.head) + fifo.size = l.length + 2 ^ 64 by omega,
      Nat.add_mod_right, Nat.mod_eq_of_lt (show l.length < 2 ^ 64 by omega),
      Nat.mod_eq_of_lt room]

theorem Holds.put_full (h : Holds fifo l) (data : UInt8) (full : l.length + 1 = fifo.size) :
    fifoPut fifo data = (fifo, 0) := by
  rw [fifoPut, h.next_index h.ring.tail_lt, if_pos (h.ring.meets.mpr full).symm]

theorem Holds.put_answer (h : Holds fifo l) (data : UInt8) :
    (fifoPut fifo data).2 = 0 ↔ l.length + 1 = fifo.size := by
  constructor
  · intro refused
    by_contra other
    rw [fifoPut, h.next_index h.ring.tail_lt,
      if_neg fun met => other (h.ring.meets.mp met.symm)] at refused
    have one : (1 : UInt8) = 0 := refused
    exact absurd one (by decide)
  · intro full
    rw [h.put_full data full]

theorem Holds.get_any (h : Holds fifo l) : Holds (fifoGet fifo).1 l.tail := by
  cases l with
  | nil =>
    rw [fifoGet, if_pos (h.ring.empty_iff.mpr rfl)]
    exact h
  | cons data l => exact h.get.1

theorem Holds.flush (h : Holds fifo l) : Holds (fifoFlush fifo) [] :=
  ⟨h.small, Ring.shows_nil (Nat.zero_lt_of_lt h.ring.inside)⟩

theorem fifoGet_size (fifo : Fifo) : (fifoGet fifo).1.size = fifo.size := by
  rw [fifoGet]
  split <;> rfl

theorem Holds.step (h : Holds q.fifo q.queue) (op : FifoOp) :
    Holds (q.step op).fifo (q.step op).queue ∧ (q.step op).fifo.size = q.fifo.size := by
  cases op with
  | put data => exact h.put data
  | get => exact ⟨h.get_any, fifoGet_size q.fifo⟩
  | flush => exact ⟨h.flush, rfl⟩

theorem Holds.agrees (h : Holds q.fifo q.queue) (half : q.fifo.size ≤ 2 ^ 63) : q.Agrees := by
  have room := h.ring.room
  have full : q.queue.length + 1 = q.fifo.size ↔ q.queue.length = q.fifo.size - 1 := by omega
  refine ⟨h.inRing_eq, by omega, h.size_eq half, fun data => ?_, fun data => ?_, ?_⟩
  · rw [← full]
    exact ⟨fun refused => (h.put_answer data).mp (by rw [refused]), h.put_full data⟩
  · rw [← full]
    exact h.put_answer data
  · intro data first
    obtain ⟨rest, split⟩ := List.head?_eq_some_iff.mp first
    rw [split] at h
    exact h.get.2

/-- No memory has more than 2^63 bytes; beyond that the sum of `fifo_size` could wrap. -/
theorem fifo_queue {available : Nat} (two : 2 ≤ size) (memory : available ≤ 2 ^ 63)
    (made : fifoAlloc available size = some fifo) (ops : List FifoOp) :
    Runs.Throughout Queueing.step Queueing.Agrees ⟨fifo, []⟩ ops := by
  obtain ⟨fits, -⟩ := Option.ite_none_right_eq_some.mp made
  obtain ⟨empty, cells, -⟩ := fifoAlloc_holds (by omega) (by omega) made
  have agree : ∀ q : Queueing, Holds q.fifo q.queue ∧ q.fifo.size = size → q.Agrees :=
    fun q kept => kept.1.agrees (by omega)
  have each : Runs.Each Queueing.step (fun _ _ => True) ⟨fifo, []⟩ ops := Runs.each_true
  apply Runs.throughout_of_each agree _ ⟨empty, cells⟩ each
  intro q op kept _
  obtain ⟨holds, same⟩ := kept.1.step op
  exact ⟨holds, same.trans kept.2⟩

/-- The FIFO that `register_fifo` makes. -/
theorem fifo_queue_registered :
    ∃ fifo, fifoAlloc 0x100000 1024 = some fifo ∧
      Runs.Throughout Queueing.step Queueing.Agrees ⟨fifo, []⟩
        [.put 1, .put 2, .get, .flush, .get] :=
  ⟨_, rfl, @fifo_queue ⟨fun _ => 0, 1024, 0, 0⟩ 1024 0x100000 (by decide) (by decide) rfl _⟩

end Queue
end OmenDevices
