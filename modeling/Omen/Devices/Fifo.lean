import Omen.Library.Ring
import Mathlib.Data.List.TakeDrop
import Mathlib.Algebra.Group.Nat.Defs

/- The FIFO devices: the ring of `managers/dev/fifo.c` and the driver over it of
   `drivers/fifo/fifo.c`. The indices are 64-bit words. -/
namespace OmenDevices

structure Fifo where
  buf : Nat → UInt8
  size : Nat
  head : Nat
  tail : Nat

-- `kmalloc` clears the memory that it gives, and panics beyond what is available
def fifoAlloc (available size : Nat) : Option Fifo :=
  if size ≤ available then some ⟨fun _ => 0, size, 0, 0⟩ else none

def fifoPut (fifo : Fifo) (data : UInt8) : Fifo × UInt8 :=
  if fifo.head = (fifo.tail + 1) % 2 ^ 64 % fifo.size then (fifo, 0)
  else
    ({ fifo with
        buf := Function.update fifo.buf fifo.tail data
        tail := (fifo.tail + 1) % 2 ^ 64 % fifo.size }, 1)

def fifoGet (fifo : Fifo) : Fifo × UInt8 :=
  if fifo.head = fifo.tail then (fifo, 0)
  else ({ fifo with head := (fifo.head + 1) % 2 ^ 64 % fifo.size }, fifo.buf fifo.head)

def fifoSize (fifo : Fifo) : Nat :=
  (fifo.tail + (2 ^ 64 - fifo.head) + fifo.size) % 2 ^ 64 % fifo.size

def fifoDdRead (fifo : Fifo) (size skip : Nat) : Fifo × List UInt8 :=
  if 0 < size ∧ 0 < fifoSize fifo then
    if 0 < skip then fifoDdRead (fifoGet fifo).1 size (skip - 1)
    else
      let rest := fifoDdRead (fifoGet fifo).1 (size - 1) skip
      (rest.1, (fifoGet fifo).2 :: rest.2)
  else (fifo, [])
termination_by size + skip

def fifoDdWrite (fifo : Fifo) (buffer : List UInt8) : Fifo × Nat :=
  (buffer.foldl (fun fifo data => (fifoPut fifo data).1) fifo, buffer.length)

def inRing (fifo : Fifo) : List UInt8 :=
  (List.range ((fifo.tail + fifo.size - fifo.head) % fifo.size)).map fun i =>
    fifo.buf ((fifo.head + i) % fifo.size)

inductive FifoCall where
  | write (buffer : List UInt8)
  | read (size : Nat)

structure Transfers where
  fifo : Fifo
  reported : List UInt8
  returned : List UInt8

def fifoRun (fifo : Fifo) : List FifoCall → Transfers
  | [] => ⟨fifo, [], []⟩
  | .write buffer :: calls =>
    let later := fifoRun (fifoDdWrite fifo buffer).1 calls
    { later with reported := buffer.take (fifoDdWrite fifo buffer).2 ++ later.reported }
  | .read size :: calls =>
    let later := fifoRun (fifoDdRead fifo size 0).1 calls
    { later with returned := (fifoDdRead fifo size 0).2 ++ later.returned }

def WritesFit (fifo : Fifo) : List FifoCall → Prop
  | [] => True
  | .write buffer :: calls =>
    (inRing fifo).length + buffer.length < fifo.size ∧ WritesFit (fifoDdWrite fifo buffer).1 calls
  | .read size :: calls => WritesFit (fifoDdRead fifo size 0).1 calls

structure Holds (fifo : Fifo) (l : List UInt8) : Prop where
  small : fifo.size < 2 ^ 64
  ring : Ring.Shows fifo.buf fifo.size fifo.head fifo.tail l

section Calls
variable {fifo : Fifo} {l : List UInt8}

theorem Holds.next_index (h : Holds fifo l) {i : Nat} (inside : i < fifo.size) :
    (i + 1) % 2 ^ 64 % fifo.size = (i + 1) % fifo.size := by
  have small := h.small
  rw [Nat.mod_eq_of_lt (by omega : i + 1 < 2 ^ 64)]

theorem Holds.inRing_eq (h : Holds fifo l) : inRing fifo = l := by
  have room := h.ring.room
  have inside := h.ring.inside
  have count : (fifo.tail + fifo.size - fifo.head) % fifo.size = l.length := by
    have between := h.ring.length_eq
    split at between
    · rw [show fifo.tail + fifo.size - fifo.head = l.length + fifo.size by omega,
        Nat.add_mod_right, Nat.mod_eq_of_lt room]
    · rw [show fifo.tail + fifo.size - fifo.head = l.length by omega, Nat.mod_eq_of_lt room]
  rw [inRing, count]
  exact h.ring.listed

theorem fifoAlloc_holds {available size : Nat} (some_cell : 0 < size) (small : size < 2 ^ 64)
    (made : fifoAlloc available size = some fifo) :
    Holds fifo [] ∧ fifo.size = size ∧ size ≤ available := by
  rw [fifoAlloc, Option.ite_none_right_eq_some] at made
  obtain ⟨fits, same⟩ := made
  cases same
  exact ⟨⟨small, Ring.shows_nil some_cell⟩, rfl, fits⟩

theorem Holds.put (h : Holds fifo l) (data : UInt8) :
    Holds (fifoPut fifo data).1 ((l ++ [data]).take (fifo.size - 1)) ∧
      (fifoPut fifo data).1.size = fifo.size := by
  have room := h.ring.room
  rw [fifoPut, h.next_index h.ring.tail_lt]
  by_cases full : l.length + 1 = fifo.size
  · rw [if_pos (h.ring.meets.mpr full).symm, List.take_left' (by omega)]
    exact ⟨h, rfl⟩
  · rw [if_neg (fun met => full (h.ring.meets.mp met.symm)),
      List.take_of_length_le (by rw [List.length_append, List.length_singleton]; omega)]
    exact ⟨⟨h.small, h.ring.append (by omega) data⟩, rfl⟩

theorem Holds.get {x : UInt8} (h : Holds fifo (x :: l)) :
    Holds (fifoGet fifo).1 l ∧ (fifoGet fifo).2 = x := by
  have some_byte : fifo.head ≠ fifo.tail := fun same => by simpa using h.ring.empty_iff.mp same
  rw [fifoGet, if_neg some_byte, h.next_index h.ring.inside]
  have first := h.ring.cell 0 x rfl
  rw [Nat.add_zero, Nat.mod_eq_of_lt h.ring.inside] at first
  exact ⟨⟨h.small, h.ring.drop (k := 1) (by simp)⟩, first⟩

theorem Holds.size_empty (h : Holds fifo []) : fifoSize fifo = 0 := by
  have inside := h.ring.inside
  have small := h.small
  rw [fifoSize, ← h.ring.empty_iff.mpr rfl,
    show fifo.head + (2 ^ 64 - fifo.head) + fifo.size = fifo.size + 2 ^ 64 by omega,
    Nat.add_mod_right, Nat.mod_eq_of_lt small, Nat.mod_self]

theorem take_append_take {k : Nat} (a b : List UInt8) :
    (a.take k ++ b).take k = (a ++ b).take k := by
  rw [List.take_append, List.take_append, List.take_take, Nat.min_self, List.length_take]
  congr 2
  omega

theorem Holds.write (h : Holds fifo l) (buffer : List UInt8) :
    Holds (fifoDdWrite fifo buffer).1 ((l ++ buffer).take (fifo.size - 1)) := by
  unfold fifoDdWrite
  induction buffer generalizing fifo l with
  | nil =>
    have room := h.ring.room
    rw [List.append_nil, List.take_of_length_le (by omega)]
    exact h
  | cons data buffer ih =>
    obtain ⟨stored, same⟩ := h.put data
    have rest := ih stored
    rw [same, take_append_take, List.append_assoc] at rest
    exact rest

theorem Holds.read (h : Holds fifo l) (size : Nat) : ∃ rest,
    l = (fifoDdRead fifo size 0).2 ++ rest ∧ Holds (fifoDdRead fifo size 0).1 rest := by
  induction size generalizing fifo l with
  | zero =>
    rw [fifoDdRead]
    exact ⟨l, rfl, h⟩
  | succ size ih =>
    rw [fifoDdRead]
    split
    · next goes =>
      cases l with
      | nil => exact absurd h.size_empty (Nat.pos_iff_ne_zero.mp goes.2)
      | cons x l =>
        obtain ⟨kept, byte⟩ := h.get
        obtain ⟨rest, split, holds⟩ := ih kept
        refine ⟨rest, ?_, holds⟩
        rw [if_neg (Nat.lt_irrefl 0), byte, Nat.add_sub_cancel, List.cons_append, ← split]
    · exact ⟨l, rfl, h⟩

/-- The bytes that callers get or that are still inRing are never more than was reported, and
    they are the same bytes just when every write has found room. -/
theorem fifoRun_conserves (h : Holds fifo l) (calls : List FifoCall) :
    (fifoRun fifo calls).returned.length + (inRing (fifoRun fifo calls).fifo).length ≤
        l.length + (fifoRun fifo calls).reported.length ∧
      (l ++ (fifoRun fifo calls).reported =
          (fifoRun fifo calls).returned ++ inRing (fifoRun fifo calls).fifo ↔
        WritesFit fifo calls) := by
  induction calls generalizing fifo l with
  | nil => simp [fifoRun, WritesFit, h.inRing_eq]
  | cons call calls ih =>
    cases call with
    | write buffer =>
      obtain ⟨fewer, same⟩ := ih (h.write buffer)
      have all : buffer.take (fifoDdWrite fifo buffer).2 = buffer := List.take_length
      simp only [fifoRun, WritesFit, h.inRing_eq, all, List.length_append]
      rw [List.length_take, List.length_append] at fewer
      refine ⟨by omega, ?_⟩
      by_cases fits : l.length + buffer.length < fifo.size
      · rw [List.take_of_length_le (by rw [List.length_append]; omega)] at same
        rw [← List.append_assoc, same]
        exact (and_iff_right fits).symm
      · -- a byte that found no room makes the two sides differ in length
        refine iff_of_false (fun equal => ?_) (fun both => fits both.1)
        have lengths := congrArg List.length equal
        have some_cell := Nat.zero_lt_of_lt h.ring.inside
        simp only [List.length_append] at lengths
        omega
    | read size =>
      obtain ⟨rest, split, holds⟩ := h.read size
      obtain ⟨fewer, same⟩ := ih holds
      simp only [fifoRun, WritesFit, List.length_append]
      refine ⟨by rw [split, List.length_append]; omega, ?_⟩
      rw [← same, List.append_assoc]
      nth_rewrite 1 [split]
      rw [List.append_assoc, List.append_cancel_left_eq]

/-- What writes report is what reads return and what is left, in this order, just when every
    write of the sequence finds room for all of its bytes. -/
theorem fifo_reports_iff {available size : Nat} (some_cell : 0 < size) (small : size < 2 ^ 64)
    (made : fifoAlloc available size = some fifo) (calls : List FifoCall) :
    (fifoRun fifo calls).reported =
        (fifoRun fifo calls).returned ++ inRing (fifoRun fifo calls).fifo ↔
      WritesFit fifo calls :=
  (fifoRun_conserves (fifoAlloc_holds some_cell small made).1 calls).2

/-- Two bytes into the FIFO that `register_fifo` makes, and the first of them out. -/
theorem fifo_reports_byte :
    ∃ fifo, fifoAlloc 0x100000 1024 = some fifo ∧
      (fifoRun fifo [.write [7, 8], .read 1]).returned = [7] ∧
      [7, 8] = [7] ++ inRing (fifoRun fifo [.write [7, 8], .read 1]).fifo := by
  have one : (fifoRun ⟨fun _ => 0, 1024, 0, 0⟩ [.write [7, 8], .read 1]).returned = [7] := by
    rw [fifoRun, fifoRun, fifoRun, fifoDdRead, if_pos (by decide), if_neg (by decide), fifoDdRead,
      if_neg (by decide)]
    decide
  have same := (@fifo_reports_iff ⟨fun _ => 0, 1024, 0, 0⟩ 0x100000 1024 (by decide) (by decide)
    rfl [.write [7, 8], .read 1]).mpr ⟨by decide, trivial⟩
  rw [one] at same
  exact ⟨_, rfl, one, same⟩

theorem one_write {available size : Nat} (some_cell : 0 < size) (small : size < 2 ^ 64)
    (made : fifoAlloc available size = some fifo) (buffer : List UInt8) :
    (fifoRun fifo [.write buffer]).reported = buffer ∧
      (fifoRun fifo [.write buffer]).returned = [] ∧
      inRing (fifoRun fifo [.write buffer]).fifo = buffer.take (size - 1) := by
  obtain ⟨holds, same, -⟩ := fifoAlloc_holds some_cell small made
  have kept := (holds.write buffer).inRing_eq
  rw [same] at kept
  exact ⟨(List.append_nil _).trans List.take_length, rfl, kept⟩

/-- The FIFO that `register_fifo` makes keeps 1023 of 1024 bytes and reports all. -/
theorem fifo_drops_byte :
    ∃ fifo, fifoAlloc 0x100000 1024 = some fifo ∧
      (fifoRun fifo [.write (List.replicate 1024 7)]).reported = List.replicate 1024 7 ∧
      (fifoRun fifo [.write (List.replicate 1024 7)]).returned = [] ∧
      inRing (fifoRun fifo [.write (List.replicate 1024 7)]).fifo = List.replicate 1023 7 := by
  obtain ⟨reported, returned, kept⟩ :=
    @one_write ⟨fun _ => 0, 1024, 0, 0⟩ 0x100000 1024 (by decide) (by decide) rfl
      (List.replicate 1024 7)
  rw [List.take_replicate] at kept
  exact ⟨_, rfl, reported, returned, kept⟩

end Calls

end OmenDevices
