import Omen.Terminal.Tty

/- The two rings of a terminal over whole sequences of calls. -/
namespace OmenTerminal
open RotatingSearch Runs

section Input

/- A queue that drops its oldest bytes, and how many bytes have left it. -/
structure Queue where
  gone : Nat
  unread : List UInt8

inductive InputCall
  | write (c : UInt8)
  | read

def Queue.call (n : Nat) (q : Queue) : InputCall → Queue × List UInt8
  | .write c => (⟨if q.unread.length + 1 = n then q.gone + 1 else q.gone,
      (q.unread ++ [c]).rtake (n - 1)⟩, [])
  | .read => match q.unread with
    | [] => (q, [0])
    | c :: rest => (⟨q.gone + 1, rest⟩, [c])

def Tty.input (t : Tty) : InputCall → Tty × List UInt8
  | .write c => (ttyWriteInb t c, [])
  | .read => ((ttyReadInb t).2, [(ttyReadInb t).1])

def queued (n : Nat) (calls : List InputCall) : Queue × List UInt8 :=
  calls.foldl (fun s call => ((s.1.call n call).1, s.2 ++ (s.1.call n call).2)) (⟨0, []⟩, [])

def inputs (t : Tty) (calls : List InputCall) : Tty × List UInt8 :=
  calls.foldl (fun s call => ((s.1.input call).1, s.2 ++ (s.1.input call).2)) (t, [])

variable {n : Nat} {t : Tty} {q : Queue}

structure HoldsQueue (n : Nat) (t : Tty) (q : Queue) : Prop where
  size : t.inbSize = n
  read : t.inbRead = q.gone % n
  shows : Ring.Shows t.inb n t.inbRead t.inbWrite q.unread

theorem input_holdsQueue (h : HoldsQueue n t q) (two : 2 ≤ n) (call : InputCall) :
    HoldsQueue n (t.input call).1 (q.call n call).1 ∧ (t.input call).2 = (q.call n call).2 := by
  obtain ⟨size, read, shows⟩ := h
  have write_next := next_eq shows.tail_lt
  have read_next := next_eq shows.inside
  cases call with
  | write c =>
    have met := shows.meets
    refine ⟨⟨size, ?_, ?_⟩, rfl⟩
    · simp only [Tty.input, ttyWriteInb, size, write_next, read_next, Queue.call]
      by_cases full : q.unread.length + 1 = n
      · rw [if_pos (met.mpr full), if_pos full, read, Nat.mod_add_mod]
      · rw [if_neg fun same => full (met.mp same), if_neg full, read]
    · simpa only [Tty.input, ttyWriteInb, size, write_next, read_next, Queue.call] using
        shows.push two c
  | read =>
    have empty := shows.empty_iff
    cases unread : q.unread with
    | nil =>
      have none_left := empty.mpr unread
      simp only [Tty.input, ttyReadInb, if_pos none_left, Queue.call, unread, and_true]
      exact ⟨size, read, shows⟩
    | cons c rest =>
      have some_left : t.inbRead ≠ t.inbWrite := fun same => by
        rw [empty.mp same] at unread
        cases unread
      have first := shows.cell 0 c (by rw [unread]; rfl)
      rw [Nat.add_zero, Nat.mod_eq_of_lt shows.inside] at first
      have later := shows.drop (k := 1) (by rw [unread]; simp)
      simp only [Tty.input, ttyReadInb, if_neg some_left, Queue.call, unread, size, read_next,
        first, and_true]
      refine ⟨rfl, ?_, ?_⟩
      · simp only [read, Nat.mod_add_mod]
      · rwa [unread] at later

theorem inputs_holdsQueue (two : 2 ≤ n) (outbs : Nat) (line : Nat → UInt8)
    (calls : List InputCall) :
    HoldsQueue n (inputs (ttyInit n outbs line) calls).1 (queued n calls).1 ∧
      (inputs (ttyInit n outbs line) calls).2 = (queued n calls).2 := by
  induction calls using List.reverseRecOn with
  | nil => exact ⟨⟨rfl, (Nat.zero_mod n).symm, Ring.shows_nil (Nat.zero_lt_of_lt two)⟩, rfl⟩
  | append_singleton calls call ih =>
    obtain ⟨holds, same⟩ := ih
    obtain ⟨holds', same'⟩ := input_holdsQueue holds two call
    simp only [inputs, queued, List.foldl_append, List.foldl_cons, List.foldl_nil] at *
    exact ⟨holds', by rw [same, same']⟩

theorem ttyHasInput_iff (h : HoldsQueue n t q) : ttyHasInput t ≠ 0 ↔ q.unread ≠ [] := by
  rw [ne_eq, ne_eq, ← h.shows.empty_iff, ttyHasInput]
  split <;> simp_all [eq_comm]

theorem ttyGetSize_iff (h : HoldsQueue n t q) :
    ttyGetSize t = q.unread.length ↔ q.gone % n + q.unread.length < n := by
  obtain ⟨size, read, shows⟩ := h
  have stop := shows.stop
  have inside := shows.inside
  have room := shows.room
  rw [← read, ttyGetSize]
  rcases Nat.lt_or_ge (t.inbRead + q.unread.length) n with before | behind
  · rw [Nat.mod_eq_of_lt before] at stop
    omega
  · rw [Nat.mod_eq_sub_mod behind, Nat.mod_eq_of_lt (by omega)] at stop
    omega

/-- The input ring is the queue; its reported size is right exactly while the unread bytes do not
    reach the ring's end. -/
theorem input_ring_iff (two : 2 ≤ n) (outbs : Nat) (line : Nat → UInt8) (calls : List InputCall) :
    let t := (inputs (ttyInit n outbs line) calls).1
    let q := (queued n calls).1
    Ring.Shows t.inb n t.inbRead t.inbWrite q.unread ∧ q.unread.length ≤ n - 1 ∧
      (inputs (ttyInit n outbs line) calls).2 = (queued n calls).2 ∧
      (ttyHasInput t ≠ 0 ↔ q.unread ≠ []) ∧
      (ttyGetSize t = q.unread.length ↔ q.gone % n + q.unread.length < n) := by
  intro t q
  obtain ⟨holds, same⟩ := inputs_holdsQueue two outbs line calls
  exact ⟨holds.shows, Nat.le_sub_one_of_lt holds.shows.room, same, ttyHasInput_iff holds,
    ttyGetSize_iff holds⟩

theorem input_ring_three :
    ttyHasInput (inputs (ttyInit 4 4 fun _ => 0) [.write 97, .write 98, .read, .write 99]).1 ≠ 0 ∧
      ttyGetSize (inputs (ttyInit 4 4 fun _ => 0) [.write 97, .write 98, .read, .write 99]).1 =
        2 :=
  have ring := input_ring_iff (n := 4) (by decide) 4 (fun _ => 0)
    [.write 97, .write 98, .read, .write 99]
  ⟨ring.2.2.2.1.mpr (by decide), ring.2.2.2.2.mpr (by decide)⟩

theorem input_ring_wrapped_size :
    ttyGetSize (inputs (ttyInit 2 2 fun _ => 0) [.write 97, .read, .write 98]).1 = -1 ∧
      (queued 2 [.write 97, .read, .write 98]).1.unread = [98] := by
  decide

end Input

section Output

inductive OutputCall
  | write (c : UInt8)
  | flush
  deriving DecidableEq

/- What is to be on the device, and what waits for a flush. -/
structure Output where
  flushed : List UInt8
  waiting : List UInt8

def Output.store (o : Output) : OutputCall → Output
  | .write c => { o with waiting := o.waiting ++ [c] }
  | .flush => o

def OutputCall.flushes : OutputCall → Bool
  | .write c => c = ttyFlushChar
  | .flush => true

def Output.call (o : Output) (call : OutputCall) : Output :=
  if call.flushes then ⟨(o.store call).flushed ++ (o.store call).waiting, []⟩ else o.store call

def Tty.output (t : Tty) : OutputCall → Tty
  | .write c => ttyWriteOutb t c
  | .flush => ttyFlush t

def outputs (t : Tty) (calls : List OutputCall) : Tty := calls.foldl Tty.output t

def given (calls : List OutputCall) : Output := calls.foldl Output.call ⟨[], []⟩

def givenBytes (calls : List OutputCall) : List UInt8 :=
  calls.filterMap fun
    | .write c => some c
    | .flush => none

def Bounded (n : Nat) (calls : List OutputCall) : Prop :=
  Along (fun u call => ((given u).store call).waiting.length ≤ n - 1) calls

def FlushesAll (t : Tty) (calls : List OutputCall) : Prop :=
  Along (fun u call => call.flushes = true →
    (outputs t (u ++ [call])).written = givenBytes (u ++ [call]) ∧
      (outputs t (u ++ [call])).outbRead = (outputs t (u ++ [call])).outbWrite) calls

def Straight (n : Nat) (calls : List OutputCall) : Prop :=
  Along (fun u call => call.flushes = true →
    (given u).flushed.length % n + ((given u).store call).waiting.length ≤ n) calls

structure HoldsOutput (n : Nat) (t : Tty) (o : Output) : Prop where
  size : t.outbSize = n
  read : t.outbRead = o.flushed.length % n
  written : t.written = o.flushed
  shows : Ring.Shows t.outb n t.outbRead t.outbWrite o.waiting

variable {n : Nat} {t : Tty} {o : Output}

theorem store_holdsOutput (h : HoldsOutput n t o) (two : 2 ≤ n) (c : UInt8)
    (room : o.waiting.length + 1 ≤ n - 1) :
    HoldsOutput n (ttyStoreOutb t c) (o.store (.write c)) := by
  obtain ⟨size, read, written, shows⟩ := h
  have open_cell : next t.outbSize t.outbWrite ≠ t.outbRead := by
    rw [size, next_eq shows.tail_lt, ne_eq, shows.meets]
    omega
  have stored := shows.append (by omega) c
  refine ⟨size, ?_, written, ?_⟩
  · rw [ttyStoreOutb, if_neg open_cell]
    exact read
  · rw [ttyStoreOutb, if_neg open_cell, size, next_eq shows.tail_lt]
    exact stored

theorem ttyFlush_eq (h : HoldsOutput n t o) {k : Nat}
    (piece : k = min o.waiting.length (n - t.outbRead)) :
    ttyFlush t = { t with
      written := t.written ++ o.waiting.take k
      outbRead := (t.outbRead + k) % n } := by
  obtain ⟨size, read, written, shows⟩ := h
  have stop := shows.stop
  have inside := shows.inside
  have room := shows.room
  have bytes := shows.slice (k := k) (by omega) (by omega)
  rw [ttyFlush]
  by_cases empty : o.waiting = []
  · rw [if_pos (shows.empty_iff.mpr empty), show k = 0 by simp [piece, empty], List.take_zero,
      List.append_nil, Nat.add_zero, Nat.mod_eq_of_lt inside]
  · have more := List.length_pos_iff.mpr empty
    have len : (if t.outbWrite < t.outbRead then t.outbSize - t.outbRead
        else t.outbWrite - t.outbRead) = k := by
      rcases Nat.lt_or_ge (t.outbRead + o.waiting.length) n with before | behind
      · rw [Nat.mod_eq_of_lt before] at stop
        rw [if_neg (by omega)]
        omega
      · rw [Nat.mod_eq_sub_mod behind, Nat.mod_eq_of_lt (by omega)] at stop
        rw [if_pos (by omega)]
        omega
    have turn : (if t.outbRead + k ≥ t.outbSize then 0 else t.outbRead + k) =
        (t.outbRead + k) % n := by
      split
      · rw [show t.outbRead + k = n by omega, Nat.mod_self]
      · rw [Nat.mod_eq_of_lt (by omega)]
    simp only [if_neg (mt shows.empty_iff.mp empty), len, turn, bytes]

/-- A flush empties the ring exactly when the waiting bytes do not go around its end. -/
theorem flush_holdsOutput (h : HoldsOutput n t o) :
    (o.flushed.length % n + o.waiting.length ≤ n →
      HoldsOutput n (ttyFlush t) ⟨o.flushed ++ o.waiting, []⟩) ∧
    ((ttyFlush t).outbRead = (ttyFlush t).outbWrite →
      o.flushed.length % n + o.waiting.length ≤ n) := by
  have inside := h.shows.inside
  have rest := h.shows.drop (Nat.min_le_left o.waiting.length (n - t.outbRead))
  rw [ttyFlush_eq h rfl, ← h.read]
  constructor
  · intro straight
    rw [Nat.min_eq_left (by omega), List.drop_length] at rest
    rw [Nat.min_eq_left (by omega), List.take_length]
    refine ⟨h.size, ?_, ?_, rest⟩
    · simp only [List.length_append, h.read, Nat.mod_add_mod]
    · rw [h.written]
  · intro done
    have := List.drop_eq_nil_iff.mp (rest.empty_iff.mp done)
    omega

theorem given_snoc (calls : List OutputCall) (call : OutputCall) :
    given (calls ++ [call]) = (given calls).call call := by
  rw [given, List.foldl_append]
  rfl

theorem outputs_snoc (t : Tty) (calls : List OutputCall) (call : OutputCall) :
    outputs t (calls ++ [call]) = (outputs t calls).output call := by
  rw [outputs, List.foldl_append]
  rfl

theorem output_holdsOutput (h : HoldsOutput n t o) (two : 2 ≤ n) (call : OutputCall)
    (room : (o.store call).waiting.length ≤ n - 1) :
    ((call.flushes = true →
        o.flushed.length % n + (o.store call).waiting.length ≤ n) →
      HoldsOutput n (t.output call) (o.call call)) ∧
    (call.flushes = true → (t.output call).outbRead = (t.output call).outbWrite →
      o.flushed.length % n + (o.store call).waiting.length ≤ n) := by
  have stored : ∃ t', HoldsOutput n t' (o.store call) ∧
      t.output call = if call.flushes then ttyFlush t' else t' := by
    cases call with
    | write c =>
      have room : o.waiting.length + 1 ≤ n - 1 := by simpa [Output.store] using room
      exact ⟨_, store_holdsOutput h two c room,
        by simp [Tty.output, ttyWriteOutb, OutputCall.flushes]⟩
    | flush => exact ⟨t, h, rfl⟩
  obtain ⟨t', holds, same⟩ := stored
  have flushed : (o.store call).flushed = o.flushed := by cases call <;> rfl
  have both := flush_holdsOutput holds
  rw [flushed] at both
  rw [same, Output.call, flushed]
  cases call.flushes with
  | false => exact ⟨fun _ => holds, fun no => by cases no⟩
  | true => exact ⟨fun straight => both.1 (straight rfl), fun _ => both.2⟩

theorem given_bytes (calls : List OutputCall) :
    (given calls).flushed ++ (given calls).waiting = givenBytes calls := by
  induction calls using List.reverseRecOn with
  | nil => rfl
  | append_singleton calls call ih =>
    rw [given_snoc, givenBytes, List.filterMap_append, ← givenBytes, ← ih, Output.call]
    cases call <;> split <;> simp [Output.store]

theorem given_waiting {call : OutputCall} (flushes : call.flushes = true)
    (calls : List OutputCall) : (given (calls ++ [call])).waiting = [] := by
  rw [given_snoc, Output.call, if_pos flushes]

theorem outputs_holdsOutput (two : 2 ≤ n) (inbs : Nat) (line : Nat → UInt8)
    {calls : List OutputCall} (bounded : Bounded n calls) (straight : Straight n calls) :
    HoldsOutput n (outputs (ttyInit inbs n line) calls) (given calls) := by
  induction calls using List.reverseRecOn with
  | nil => exact ⟨rfl, (Nat.zero_mod n).symm, rfl, Ring.shows_nil (Nat.zero_lt_of_lt two)⟩
  | append_singleton calls call ih =>
    obtain ⟨bounded, room⟩ := along_snoc.mp bounded
    obtain ⟨straight, here⟩ := along_snoc.mp straight
    rw [outputs_snoc, given_snoc]
    exact (output_holdsOutput (ih bounded straight) two call room).1 here

/-- Flushing loses and reorders nothing exactly when no flush finds its bytes around the ring's
    end. -/
theorem output_flushed_iff (two : 2 ≤ n) (inbs : Nat) (line : Nat → UInt8)
    {calls : List OutputCall} (bounded : Bounded n calls) :
    FlushesAll (ttyInit inbs n line) calls ↔ Straight n calls := by
  constructor
  · intro all
    induction calls using List.reverseRecOn with
    | nil => exact along_nil
    | append_singleton calls call ih =>
      obtain ⟨all, last⟩ := along_snoc.mp all
      obtain ⟨bounded, room⟩ := along_snoc.mp bounded
      have straight := ih bounded all
      have holds := outputs_holdsOutput two inbs line bounded straight
      rw [outputs_snoc] at last
      exact along_snoc.mpr ⟨straight, fun flushes =>
        (output_holdsOutput holds two call room).2 flushes (last flushes).2⟩
  · intro straight u call part flushes
    have holds := outputs_holdsOutput two inbs line (bounded.of_prefix part)
      (straight.of_prefix part)
    have empty := given_waiting flushes u
    refine ⟨?_, holds.shows.empty_iff.mpr empty⟩
    rw [holds.written, ← given_bytes, empty, List.append_nil]

theorem output_flushed_short :
    FlushesAll (ttyInit 2 4 fun _ => 0) [.write 97, .write 98, .flush, .write 13] :=
  have bounded : Bounded 4 [.write 97, .write 98, .flush, .write 13] := by
    unfold Bounded
    decide
  (output_flushed_iff (by decide) 2 _ bounded).mpr (by unfold Straight; decide)

theorem output_wraps_pending :
    Bounded 4 [.write 97, .write 98, .write 99, .flush, .write 100, .write 101, .flush] ∧
      (outputs (ttyInit 2 4 fun _ => 0) [.write 97, .write 98, .write 99, .flush, .write 100,
        .write 101, .flush]).written = [97, 98, 99, 100] := by
  unfold Bounded
  decide

end Output
end OmenTerminal
