import Omen.Terminal.TtyRings

/- Blocking reads of a terminal through its file: the bytes that are taken out of the ring are
   counted by their terminating zero, the count is narrowed to a byte, and the result is cut at a
   newline. The reader's memory is a list that starts at the place being read into; a string
   without a zero in it has no length here. -/
namespace OmenTerminal

def ttyRead (t : Tty) : Nat → List UInt8 × Tty
  | 0 => ([], t)
  | size + 1 =>
    let (c, t) := ttyReadInb t
    if c = 0 then ([0], t) else ((c :: (ttyRead t size).1), (ttyRead t size).2)

def strlen (memory : List UInt8) : Option Nat :=
  if 0 ∈ memory then some (memory.takeWhile (· ≠ 0)).length else none

/- A 32-bit size as the int that bounds the loop. -/
def intSize (size : Nat) : Nat := if size % 2 ^ 32 < 2 ^ 31 then size % 2 ^ 32 else 0

/- At offset 0 nothing is skipped. -/
def ttyDdReadBlock (t : Tty) (size : Nat) (memory : List UInt8) :
    Option (Nat × List UInt8 × Tty) :=
  let (stored, t) := ttyRead t (intSize size)
  let memory := stored ++ memory.drop stored.length
  (strlen memory).map fun length => (length, memory, t)

def vfsTtyRead (t : Tty) (size : Nat) (memory : List UInt8) : Option (Nat × List UInt8 × Tty) :=
  (ttyDdReadBlock t size memory).map fun (length, rest) => (length % 256, rest)

/- What a read returns, the reader's memory and the terminal after it, and what has arrived while
   it slept. -/
structure ReadResult where
  read : Nat
  memory : List UInt8
  tty : Tty
  arrived : List UInt8

/-- The blocking read from `read` bytes on. Every round but the last reads a byte. -/
def readLoop (arriving : List UInt8) (size : Nat) : Nat → Nat → List UInt8 → Tty →
    Option ReadResult
  | 0, read, memory, t => some ⟨read, memory, t, []⟩
  | rounds + 1, read, memory, t =>
    if size ≤ read then some ⟨read, memory, t, []⟩
    else (vfsTtyRead t (size - read) (memory.drop read)).bind fun (res, rest, t) =>
      if res = 0 then
        (vfsTtyRead (flushCb t arriving) (size - read) rest).map fun (res, rest, t) =>
          ⟨read + res, memory.take read ++ rest, t, arriving⟩
      else match (rest.take res).findIdx? (· = 10) with
        | some i => some ⟨read + i + 1, memory.take read ++ rest, t, []⟩
        | none => readLoop arriving size rounds (read + res) (memory.take read ++ rest) t

def ttyCompatFileRead (t : Tty) (size : Nat) (memory arriving : List UInt8) : Option ReadResult :=
  readLoop arriving size size 0 memory t

def OneLine (bytes : List UInt8) : Prop := 10 ∉ bytes.dropLast

/-- What `vfs_tty_read` returns with q in the ring. A buffer that is not filled gets its zero from
    the ring, and behind a filled one the bytes up to the next zero are counted too. -/
def counted (q : List UInt8) (room : Nat) (behind : List UInt8) : Option Nat :=
  if q.length < room then some (q.length % 256)
  else (strlen behind).map fun length => (room + length) % 256

/-- When a read of q is right: no second line is taken, a line that ends with its newline is
    counted as far as it goes, and other bytes exactly; so is what arrives if it has to sleep. -/
structure Sound (q : List UInt8) (size : Nat) (memory arriving : List UInt8) : Prop where
  line : OneLine (q.take size)
  ended : 10 ∈ q.take size →
    ∃ count, counted q size (memory.drop size) = some count ∧ min size q.length ≤ count
  count : 10 ∉ q.take size → counted q size (memory.drop size) = some (min size q.length)
  slept : 10 ∉ q.take size → q.length < size →
    counted arriving (size - q.length) (memory.drop size) =
      some (min (size - q.length) arriving.length) ∧ OneLine (arriving.take (size - q.length))

section OneRead
variable {n : Nat} {t : Tty} {gone : Nat} {q memory : List UInt8}

theorem ttyRead_eq (h : HoldsQueue n t ⟨gone, q⟩) (two : 2 ≤ n) (nonzero : 0 ∉ q) (size : Nat) :
    (ttyRead t size).1 = q.take size ++ (if q.length < size then [0] else []) ∧
      HoldsQueue n (ttyRead t size).2 ⟨gone + min size q.length, q.drop size⟩ := by
  induction size generalizing t gone q with
  | zero => exact ⟨by simp [ttyRead], by simpa [ttyRead] using h⟩
  | succ size ih =>
    obtain ⟨holds, same⟩ := input_holdsQueue h two .read
    cases q with
    | nil =>
      have zero : (ttyReadInb t).1 = 0 := by simpa [Tty.input, Queue.call] using same
      simp only [ttyRead, zero, if_true]
      exact ⟨by simp, by simpa [Tty.input, Queue.call] using holds⟩
    | cons c q =>
      have first : (ttyReadInb t).1 = c := by simpa [Tty.input, Queue.call] using same
      have c_ne : c ≠ 0 := fun zero => nonzero (by simp [zero])
      have later : HoldsQueue n (ttyReadInb t).2 ⟨gone + 1, q⟩ := by
        simpa [Tty.input, Queue.call] using holds
      obtain ⟨stored, rest⟩ := ih later fun member => nonzero (by simp [member])
      simp only [ttyRead, first, if_neg c_ne]
      refine ⟨by simp [stored], ?_⟩
      have : gone + 1 + min size q.length = gone + min (size + 1) (q.length + 1) := by omega
      simpa [this] using rest

theorem flushCb_holdsQueue (h : HoldsQueue n t ⟨gone, q⟩) (two : 2 ≤ n) {bytes : List UInt8}
    (room : q.length + bytes.length ≤ n - 1) :
    HoldsQueue n (flushCb t bytes) ⟨gone, q ++ bytes⟩ := by
  induction bytes generalizing t q with
  | nil => simpa [flushCb] using h
  | cons c bytes ih =>
    rw [List.length_cons] at room
    have stored : HoldsQueue n (ttyWriteInb t c) ⟨gone, q ++ [c]⟩ := by
      have := (input_holdsQueue h two (.write c)).1
      simp only [Queue.call, List.rtake, List.length_append, List.length_singleton,
        if_neg (by omega : ¬ q.length + 1 = n)] at this
      rwa [show q.length + 1 - (n - 1) = 0 by omega, List.drop_zero] at this
    have := ih stored (by simp; omega)
    simpa [flushCb] using this

theorem strlen_append (nonzero : 0 ∉ q) (rest : List UInt8) :
    strlen (q ++ rest) = (strlen rest).map (q.length + ·) := by
  have whole : (q ++ rest).takeWhile (· ≠ 0) = q ++ rest.takeWhile (· ≠ 0) := by
    rw [List.takeWhile_append_of_pos]
    intro c member
    simpa using fun zero : c = 0 => nonzero (zero ▸ member)
  by_cases zero : 0 ∈ rest
  · rw [strlen, strlen, if_pos zero, if_pos (List.mem_append_right q zero), whole,
      List.length_append, Option.map_some]
  · rw [strlen, strlen, if_neg zero, if_neg, Option.map_none]
    exact fun member => (List.mem_append.mp member).elim nonzero zero

def stored (q : List UInt8) (room : Nat) (memory : List UInt8) : List UInt8 :=
  q.take room ++ if q.length < room then 0 :: memory.drop (q.length + 1) else memory.drop room

theorem stored_take (q : List UInt8) (room : Nat) (memory : List UInt8) :
    (stored q room memory).take (min room q.length) = q.take room := by
  rw [stored, ← List.length_take, List.take_left]

theorem stored_drop (q : List UInt8) (room : Nat) (memory : List UInt8) :
    (stored q room memory).drop room = memory.drop room := by
  rw [stored]
  by_cases short : q.length < room
  · rw [if_pos short, List.take_of_length_le short.le, List.drop_append,
      List.drop_eq_nil_of_le short.le, List.nil_append,
      show room - q.length = (room - q.length - 1) + 1 by omega, List.drop_succ_cons,
      List.drop_drop]
    congr 1
    omega
  · have full : (q.take room).length = room := by
      rw [List.length_take]
      omega
    rw [if_neg short]
    nth_rewrite 1 [← full]
    exact List.drop_left

theorem counted_le {room count : Nat} {behind : List UInt8}
    (found : counted q room behind = some count) (small : count ≤ room) :
    count ≤ min room q.length := by
  rw [counted] at found
  split at found
  · cases found
    have := Nat.mod_le q.length 256
    omega
  · omega

theorem vfsTtyRead_eq (h : HoldsQueue n t ⟨gone, q⟩) (two : 2 ≤ n) (nonzero : 0 ∉ q)
    {room : Nat} (int : room < 2 ^ 31) (memory : List UInt8) :
    vfsTtyRead t room memory = (counted q room (memory.drop room)).map fun count =>
      (count, stored q room memory, (ttyRead t room).2) := by
  obtain ⟨bytes, -⟩ := ttyRead_eq h two nonzero room
  have taken : 0 ∉ q.take room := fun member => nonzero (List.mem_of_mem_take member)
  rw [vfsTtyRead, ttyDdReadBlock, intSize, Nat.mod_eq_of_lt (by omega), if_pos int]
  dsimp only
  rw [bytes, counted, stored]
  by_cases short : q.length < room
  · simp only [if_pos short, List.take_of_length_le short.le] at taken ⊢
    rw [List.append_assoc, strlen_append taken]
    simp [strlen]
  · have full : (q.take room).length = room := by
      rw [List.length_take]
      omega
    simp only [if_neg short, List.append_nil, full, strlen_append taken, Option.map_map]
    rfl

section Rounds
variable {size read rounds : Nat} {arriving : List UInt8}

theorem readLoop_done (done : size ≤ read) :
    readLoop arriving size rounds read memory t = some ⟨read, memory, t, []⟩ := by
  cases rounds with
  | zero => rfl
  | succ rounds => rw [readLoop, if_pos done]

structure Reading (n : Nat) (t : Tty) (gone : Nat) (q arriving : List UInt8) (size read : Nat) :
    Prop where
  holds : HoldsQueue n t ⟨gone, q⟩
  two : 2 ≤ n
  nonzero : 0 ∉ q
  later : 0 ∉ arriving
  int : size < 2 ^ 31
  fits : q.length - (size - read) + arriving.length ≤ n - 1

variable (h : Reading n t gone q arriving size read) (more : read < size)
include h more

theorem Reading.first_eq :
    vfsTtyRead t (size - read) (memory.drop read) =
      (counted q (size - read) (memory.drop size)).map fun count =>
        (count, stored q (size - read) (memory.drop read), (ttyRead t (size - read)).2) := by
  have int := h.int
  rw [vfsTtyRead_eq h.holds h.two h.nonzero (by omega), List.drop_drop,
    Nat.add_sub_cancel' more.le]

omit more in
theorem Reading.left :
    HoldsQueue n (ttyRead t (size - read)).2
      ⟨gone + min (size - read) q.length, q.drop (size - read)⟩ :=
  (ttyRead_eq h.holds h.two h.nonzero _).2

omit more in
theorem Reading.next {res : Nat} : Reading n (ttyRead t (size - read)).2
    (gone + min (size - read) q.length) (q.drop (size - read)) arriving size (read + res) := by
  have fits := h.fits
  refine ⟨h.left, h.two, fun zero => h.nonzero (List.mem_of_mem_drop zero), h.later, h.int, ?_⟩
  rw [List.length_drop]
  omega

omit more in
theorem Reading.woken :
    HoldsQueue n (flushCb (ttyRead t (size - read)).2 arriving)
      ⟨gone + min (size - read) q.length, q.drop (size - read) ++ arriving⟩ := by
  have fits := h.fits
  refine flushCb_holdsQueue h.left h.two ?_
  rw [List.length_drop]
  exact fits

omit more in
theorem Reading.woken_nonzero : 0 ∉ q.drop (size - read) ++ arriving := fun zero =>
  (List.mem_append.mp zero).elim (fun zero => h.nonzero (List.mem_of_mem_drop zero)) h.later

theorem Reading.round_fails (none_found : counted q (size - read) (memory.drop size) = none) :
    readLoop arriving size (rounds + 1) read memory t = none := by
  rw [readLoop, if_neg (Nat.not_le.mpr more), h.first_eq more, none_found]
  rfl

theorem Reading.round_sleeps (found : counted q (size - read) (memory.drop size) = some 0) :
    readLoop arriving size (rounds + 1) read memory t =
      (counted (q.drop (size - read) ++ arriving) (size - read) (memory.drop size)).map
        fun count => ⟨read + count,
          memory.take read ++ stored (q.drop (size - read) ++ arriving) (size - read)
            (stored q (size - read) (memory.drop read)),
          (ttyRead (flushCb (ttyRead t (size - read)).2 arriving) (size - read)).2, arriving⟩ := by
  have int := h.int
  have again := vfsTtyRead_eq h.woken h.two h.woken_nonzero (show size - read < 2 ^ 31 by omega)
    (stored q (size - read) (memory.drop read))
  rw [stored_drop, List.drop_drop, Nat.add_sub_cancel' more.le] at again
  rw [readLoop, if_neg (Nat.not_le.mpr more), h.first_eq more, found, Option.map_some,
    Option.bind_some]
  simp only [if_true, again, Option.map_map]
  rfl

theorem Reading.round_line {res i : Nat} (some_read : res ≠ 0)
    (found : counted q (size - read) (memory.drop size) = some res)
    (newline : ((stored q (size - read) (memory.drop read)).take res).findIdx? (· = 10) = some i) :
    readLoop arriving size (rounds + 1) read memory t =
      some ⟨read + i + 1, memory.take read ++ stored q (size - read) (memory.drop read),
        (ttyRead t (size - read)).2, []⟩ := by
  rw [readLoop, if_neg (Nat.not_le.mpr more), h.first_eq more, found, Option.map_some,
    Option.bind_some]
  simp only [if_neg some_read, newline]

theorem Reading.round_more {res : Nat} (some_read : res ≠ 0)
    (found : counted q (size - read) (memory.drop size) = some res)
    (newline : ((stored q (size - read) (memory.drop read)).take res).findIdx? (· = 10) = none) :
    readLoop arriving size (rounds + 1) read memory t =
      readLoop arriving size rounds (read + res)
        (memory.take read ++ stored q (size - read) (memory.drop read))
        (ttyRead t (size - read)).2 := by
  rw [readLoop, if_neg (Nat.not_le.mpr more), h.first_eq more, found, Option.map_some,
    Option.bind_some]
  simp only [if_neg some_read, newline]

end Rounds

theorem readLoop_counts {size read rounds : Nat} {arriving : List UInt8} {r : ReadResult}
    (h : Reading n t gone q arriving size read)
    (run : readLoop arriving size rounds read memory t = some r) (small : r.read ≤ size) :
    ∃ gone' rest, HoldsQueue n r.tty ⟨gone', rest⟩ ∧
      r.read + rest.length ≤ read + q.length + r.arrived.length := by
  induction rounds generalizing read memory t gone q with
  | zero =>
    cases run
    exact ⟨gone, q, h.holds, Nat.le_refl _⟩
  | succ rounds ih =>
    rcases Nat.lt_or_ge read size with more | done
    swap
    · rw [readLoop_done done] at run
      cases run
      exact ⟨gone, q, h.holds, Nat.le_refl _⟩
    cases found : counted q (size - read) (memory.drop size) with
    | none =>
      rw [h.round_fails more found] at run
      cases run
    | some res =>
      have bound := counted_le found
      by_cases slept : res = 0
      · subst slept
        rw [h.round_sleeps more found] at run
        obtain ⟨count, again, rfl⟩ := Option.map_eq_some_iff.mp run
        have bound := counted_le again
        dsimp only at small ⊢
        refine ⟨_, _, (ttyRead_eq h.woken h.two h.woken_nonzero _).2, ?_⟩
        rw [List.length_append, List.length_drop] at bound
        rw [List.length_drop, List.length_append, List.length_drop]
        omega
      · cases newline : ((stored q (size - read) (memory.drop read)).take res).findIdx?
            (· = 10) with
        | some i =>
          rw [h.round_line more slept found newline] at run
          cases run
          obtain ⟨inside, -⟩ := List.findIdx?_eq_some_iff_getElem.mp newline
          rw [List.length_take] at inside
          dsimp only at small ⊢
          refine ⟨_, _, h.left, ?_⟩
          have unfilled : q.length < size - read → res ≤ q.length := fun short => by
            rw [counted, if_pos short] at found
            have := Nat.mod_le q.length 256
            cases found
            exact this
          rw [List.length_drop]
          simp only [List.length_nil]
          omega
        | none =>
          rw [h.round_more more slept found newline] at run
          rcases Nat.lt_or_ge size (read + res) with beyond | within
          · rw [readLoop_done beyond.le] at run
            cases run
            dsimp only at small
            omega
          · obtain ⟨gone', rest, holds, total⟩ := ih h.next run
            refine ⟨gone', rest, holds, ?_⟩
            rw [List.length_drop] at total
            omega

theorem oneLine_append {a b : List UInt8} (none_first : 10 ∉ a) (line : OneLine b) :
    OneLine (a ++ b) := by
  rw [OneLine] at *
  by_cases empty : b = []
  · rw [empty, List.append_nil]
    exact fun member => none_first (List.dropLast_subset a member)
  · rw [List.dropLast_append_of_ne_nil empty, List.mem_append, not_or]
    exact ⟨none_first, line⟩

theorem OneLine.of_append {a b : List UInt8} (line : OneLine (a ++ b)) : OneLine b := by
  by_cases empty : b = []
  · rw [empty]
    exact List.not_mem_nil
  · rw [OneLine, List.dropLast_append_of_ne_nil empty] at line
    exact fun member => line (List.mem_append_right a member)

theorem OneLine.newline_last {a : List UInt8} (line : OneLine a) {i : Nat}
    (newline : a[i]? = some 10) : i + 1 = a.length := by
  obtain ⟨inside, here⟩ := List.getElem?_eq_some_iff.mp newline
  by_contra early
  have below : i < a.dropLast.length := by
    rw [List.length_dropLast]
    omega
  apply line
  rw [← here, ← List.getElem_dropLast below]
  exact List.getElem_mem below

def Right (n size : Nat) (q : List UInt8) (r : ReadResult) : Prop :=
  (r.memory.take r.read).length = r.read ∧ r.read ≤ size ∧ OneLine (r.memory.take r.read) ∧
    ∃ gone rest, HoldsQueue n r.tty ⟨gone, rest⟩ ∧
      r.memory.take r.read ++ rest = q ++ r.arrived ∧ 0 ∉ rest

theorem Right.total {size : Nat} {r : ReadResult} (right : Right n size q r) {gone : Nat}
    {rest : List UInt8} (holds : HoldsQueue n r.tty ⟨gone, rest⟩) :
    r.read + rest.length = q.length + r.arrived.length := by
  obtain ⟨length, -, -, gone', rest', holds', whole, -⟩ := right
  have same : rest.length = rest'.length := holds.shows.length_eq.trans holds'.shows.length_eq.symm
  have lengths := congrArg List.length whole
  rw [List.length_append, List.length_append, length] at lengths
  omega

section Whole
variable {size : Nat} {arriving : List UInt8}

theorem newline_index {i : Nat} {bytes : List UInt8}
    (newline : bytes.findIdx? (· = 10) = some i) : bytes[i]? = some 10 := by
  obtain ⟨inside, here, -⟩ := List.findIdx?_eq_some_iff_getElem.mp newline
  exact List.getElem?_eq_some_iff.mpr ⟨inside, by simpa using here⟩

theorem newline_none {bytes : List UInt8} (plain : 10 ∉ bytes) :
    bytes.findIdx? (· = 10) = none := by
  refine List.findIdx?_eq_none_iff.mpr fun c member => ?_
  simpa using fun same : c = 10 => plain (same ▸ member)

theorem stored_seen {res : Nat} (all : min size q.length ≤ res) (memory : List UInt8) :
    ∃ more, (stored q size memory).take res = q.take size ++ more := by
  have length : (q.take size).length ≤ res := List.length_take.trans_le all
  rw [stored, List.take_append, List.take_of_length_le length]
  exact ⟨_, rfl⟩

theorem Reading.right_line (h : Reading n t gone q arriving size 0) (positive : 0 < size)
    (line : OneLine (q.take size)) (newline : 10 ∈ q.take size)
    {res : Nat} (found : counted q size (memory.drop size) = some res)
    (all : min size q.length ≤ res) :
    ∃ r, ttyCompatFileRead t size memory arriving = some r ∧ Right n size q r := by
  obtain ⟨rounds, rfl⟩ : ∃ rounds, size = rounds + 1 := ⟨size - 1, by omega⟩
  have some_byte := List.length_pos_of_mem newline
  rw [List.length_take] at some_byte
  obtain ⟨extra, seen⟩ := stored_seen all memory
  -- the first newline among the bytes looked at is the last byte taken
  have first : ((stored q (rounds + 1) memory).take res).findIdx? (· = 10) =
      some ((q.take (rounds + 1)).length - 1) := by
    rw [seen, List.findIdx?_append]
    cases index : (q.take (rounds + 1)).findIdx? (· = 10) with
    | none => simpa using List.findIdx?_eq_none_iff.mp index 10 newline
    | some i =>
      have last := line.newline_last (newline_index index)
      rw [Option.some_or, ← last, Nat.add_sub_cancel]
  have round : readLoop arriving (rounds + 1) (rounds + 1) 0 memory t = _ :=
    h.round_line positive (by omega) found first
  refine ⟨_, round, ?_⟩
  have read : 0 + ((q.take (rounds + 1)).length - 1) + 1 = (q.take (rounds + 1)).length := by
    rw [List.length_take]
    omega
  have taken : (stored q (rounds + 1) memory).take (q.take (rounds + 1)).length =
      q.take (rounds + 1) := by
    rw [List.length_take, stored_take]
  simp only [Right, List.take_zero, List.nil_append, List.drop_zero, Nat.sub_zero, read, taken,
    List.append_nil]
  exact ⟨trivial, List.length_take_le _ _, line, _, _, h.left, List.take_append_drop _ _,
    fun zero => h.nonzero (List.mem_of_mem_drop zero)⟩

theorem Reading.slept_iff {read rounds : Nat} {before : List UInt8}
    (h : Reading n t gone [] arriving size read) (more : read < size)
    (long : memory.take read = before) (length : before.length = read) (plain : 10 ∉ before) :
    (∃ r, readLoop arriving size (rounds + 1) read memory t = some r ∧ Right n size before r) ↔
      counted arriving (size - read) (memory.drop size) =
        some (min (size - read) arriving.length) ∧ OneLine (arriving.take (size - read)) := by
  have round : readLoop arriving size (rounds + 1) read memory t = _ :=
    h.round_sleeps more (if_pos (Nat.sub_pos_of_lt more))
  have rest := (ttyRead_eq h.woken h.two h.woken_nonzero (size - read)).2
  have handed : (before ++ stored arriving (size - read)
      (stored [] (size - read) (memory.drop read))).take
        (read + min (size - read) arriving.length) = before ++ arriving.take (size - read) := by
    nth_rewrite 1 [← length]
    rw [List.take_length_add_append, stored_take]
  simp only [List.drop_nil, List.nil_append, long] at round rest
  rw [round]
  constructor
  · rintro ⟨r, run, right⟩
    obtain ⟨count, found, rfl⟩ := Option.map_eq_some_iff.mp run
    have total := right.total rest
    have small := right.2.1
    have line := right.2.2.1
    dsimp only at total small line
    rw [List.length_drop] at total
    obtain rfl : count = min (size - read) arriving.length := by omega
    rw [handed] at line
    exact ⟨found, line.of_append⟩
  · rintro ⟨found, line⟩
    rw [found]
    refine ⟨_, rfl, ?_⟩
    simp only [Right, handed]
    refine ⟨by simp [length], by omega, oneLine_append plain line, _, _, rest, ?_,
      fun zero => h.later (List.mem_of_mem_drop zero)⟩
    rw [List.append_assoc, List.take_append_drop]

/-- All that waited has been taken and there is room for more: the read sleeps once. -/
theorem Reading.short_iff (h : Reading n t gone q arriving size 0) (short : q.length < size)
    (plain : 10 ∉ q) (found : counted q size (memory.drop size) = some q.length) :
    (∃ r, ttyCompatFileRead t size memory arriving = some r ∧ Right n size q r) ↔
      counted arriving (size - q.length) (memory.drop size) =
          some (min (size - q.length) arriving.length) ∧
        OneLine (arriving.take (size - q.length)) := by
  obtain ⟨rounds, rfl⟩ : ∃ rounds, size = rounds + 1 := ⟨size - 1, by omega⟩
  by_cases empty : q = []
  · subst empty
    exact h.slept_iff (Nat.succ_pos _) List.take_zero rfl List.not_mem_nil
  · have some_byte := List.length_pos_iff.mpr empty
    obtain ⟨rounds, rfl⟩ : ∃ k, rounds = k + 1 := ⟨rounds - 1, by omega⟩
    have taken := stored_take q (rounds + 1 + 1) memory
    rw [Nat.min_eq_right short.le, List.take_of_length_le short.le] at taken
    have next : Reading n _ _ _ arriving (rounds + 1 + 1) (0 + q.length) := h.next
    rw [ttyCompatFileRead,
      h.round_more (Nat.succ_pos _) some_byte.ne' found (newline_none (taken.symm ▸ plain))]
    simp only [Nat.sub_zero, Nat.zero_add, List.drop_eq_nil_of_le short.le, List.take_zero,
      List.nil_append, List.drop_zero] at next ⊢
    rw [next.slept_iff short taken rfl plain, stored_drop]

theorem Reading.right_of_sound (h : Reading n t gone q arriving size 0) (positive : 0 < size)
    (sound : Sound q size memory arriving) :
    ∃ r, ttyCompatFileRead t size memory arriving = some r ∧ Right n size q r := by
  by_cases newline : 10 ∈ q.take size
  · obtain ⟨res, found, all⟩ := sound.ended newline
    exact h.right_line positive sound.line newline found all
  · have found := sound.count newline
    by_cases short : q.length < size
    · have whole := List.take_of_length_le short.le
      rw [Nat.min_eq_right short.le] at found
      exact (h.short_iff short (whole ▸ newline) found).mpr (sound.slept newline short)
    · obtain ⟨rounds, rfl⟩ : ∃ rounds, size = rounds + 1 := ⟨size - 1, by omega⟩
      have full : min (rounds + 1) q.length = rounds + 1 := by omega
      have length : (q.take (rounds + 1)).length = rounds + 1 := by rw [List.length_take, full]
      have taken := stored_take q (rounds + 1) memory
      rw [full] at taken found
      rw [ttyCompatFileRead,
        h.round_more positive (by omega) found (newline_none (taken.symm ▸ newline)),
        readLoop_done (by omega)]
      refine ⟨_, rfl, ?_⟩
      simp only [Right, List.take_zero, List.nil_append, List.drop_zero, Nat.sub_zero,
        Nat.zero_add, taken, List.append_nil]
      exact ⟨length, Nat.le_refl _, sound.line, _, _, h.left, List.take_append_drop _ _,
        fun zero => h.nonzero (List.mem_of_mem_drop zero)⟩

/-- A round that counts fewer bytes than it takes is not made good later. -/
theorem Reading.short_count (h : Reading n t gone q arriving size 0) (positive : 0 < size)
    {res : Nat} (found : counted q size (memory.drop size) = some res)
    (few : res < min size q.length)
    (unseen : ((stored q size memory).take res).findIdx? (· = 10) = none) {r : ReadResult}
    (run : ttyCompatFileRead t size memory arriving = some r) : ¬ Right n size q r := by
  intro right
  obtain ⟨rounds, rfl⟩ : ∃ rounds, size = rounds + 1 := ⟨size - 1, by omega⟩
  rw [ttyCompatFileRead] at run
  by_cases slept : res = 0
  · subst slept
    rw [h.round_sleeps positive found] at run
    obtain ⟨count, again, rfl⟩ := Option.map_eq_some_iff.mp run
    have total := right.total (ttyRead_eq h.woken h.two h.woken_nonzero _).2
    have small := right.2.1
    have bound := counted_le again
    dsimp only [Nat.sub_zero] at total small bound
    rw [List.length_append, List.length_drop] at bound
    rw [List.length_drop, List.length_append, List.length_drop] at total
    omega
  · rw [h.round_more positive slept found unseen] at run
    obtain ⟨gone', rest, holds, most⟩ := readLoop_counts h.next run right.2.1
    have total := right.total holds
    rw [List.length_drop] at most
    omega

theorem Reading.sound_of_right (h : Reading n t gone q arriving size 0) (positive : 0 < size)
    {r : ReadResult} (run : ttyCompatFileRead t size memory arriving = some r)
    (right : Right n size q r) : Sound q size memory arriving := by
  obtain ⟨rounds, rfl⟩ : ∃ rounds, size = rounds + 1 := ⟨size - 1, by omega⟩
  have length : (q.take (rounds + 1)).length = min (rounds + 1) q.length := List.length_take
  cases found : counted q (rounds + 1) (memory.drop (rounds + 1)) with
  | none =>
    rw [ttyCompatFileRead, h.round_fails positive found] at run
    cases run
  | some res =>
    cases newline : ((stored q (rounds + 1) memory).take res).findIdx? (· = 10) with
    | some i =>
      have some_read : res ≠ 0 := by
        rintro rfl
        cases newline
      rw [ttyCompatFileRead, h.round_line positive some_read found newline] at run
      cases run
      have total := right.total h.left
      dsimp only [List.length_nil, Nat.sub_zero] at total
      rw [List.length_drop] at total
      -- the newline that ends the read is the last byte taken
      have last : i + 1 = min (rounds + 1) q.length := by omega
      have line := right.2.2.1
      simp only [List.take_zero, List.nil_append, List.drop_zero, Nat.sub_zero, Nat.zero_add,
        last, stored_take] at line
      have here := newline_index newline
      have seen : i < res := by
        obtain ⟨inside, -⟩ := List.getElem?_eq_some_iff.mp here
        rw [List.length_take] at inside
        omega
      have member : 10 ∈ q.take (rounds + 1) := by
        rw [← stored_take q (rounds + 1) memory]
        rw [List.getElem?_take_of_lt seen] at here
        refine List.mem_of_getElem? (i := i) ?_
        rwa [List.getElem?_take_of_lt (by omega)]
      exact ⟨line, fun _ => ⟨res, found, by omega⟩, fun plain => absurd member plain,
        fun plain => absurd member plain⟩
    | none =>
      have enough : min (rounds + 1) q.length ≤ res := by
        by_contra few
        exact h.short_count positive found (Nat.not_le.mp few) newline run right
      have plain : 10 ∉ q.take (rounds + 1) := by
        intro member
        obtain ⟨more, seen⟩ := stored_seen enough memory
        rw [seen] at newline
        simpa using List.findIdx?_eq_none_iff.mp newline 10 (List.mem_append_left more member)
      obtain rfl : res = min (rounds + 1) q.length := by
        by_contra other
        have beyond : rounds + 1 < res := by
          by_contra within
          have bound := counted_le found (Nat.not_lt.mp within)
          omega
        rw [ttyCompatFileRead, h.round_more positive (by omega) found newline,
          readLoop_done (by omega)] at run
        cases run
        have small := right.2.1
        dsimp only at small
        omega
      refine ⟨fun member => plain (List.dropLast_subset _ member),
        fun member => absurd member plain, fun _ => found, fun _ short => ?_⟩
      have whole := List.take_of_length_le short.le
      rw [Nat.min_eq_right short.le] at found
      exact (h.short_iff short (whole ▸ plain) found).mp ⟨r, run, right⟩

theorem Reading.right_iff (h : Reading n t gone q arriving size 0) (positive : 0 < size) :
    (∃ r, ttyCompatFileRead t size memory arriving = some r ∧ Right n size q r) ↔
      Sound q size memory arriving :=
  ⟨fun ⟨_, run, right⟩ => h.sound_of_right positive run right, h.right_of_sound positive⟩

end Whole

end OneRead

section Sessions

/- A terminal with all that was delivered to it, and its reads: the size asked for, the number
   returned and the bytes handed over. -/
structure Session where
  tty : Tty
  delivered : List UInt8
  reads : List (Nat × Nat × List UInt8)

inductive SessionEvent
  | deliver (bytes : List UInt8)
  | read (size : Nat) (memory arriving : List UInt8)

def Session.event (s : Session) : SessionEvent → Option Session
  | .deliver bytes => some ⟨flushCb s.tty bytes, s.delivered ++ bytes, s.reads⟩
  | .read size memory arriving => (ttyCompatFileRead s.tty size memory arriving).map fun r =>
      ⟨r.tty, s.delivered ++ r.arrived, s.reads ++ [(size, r.read, r.memory.take r.read)]⟩

def session (n outbs : Nat) (line : Nat → UInt8) (events : List SessionEvent) : Option Session :=
  events.foldlM Session.event ⟨ttyInit n outbs line, [], []⟩

def Session.handed (s : Session) : List UInt8 := s.reads.flatMap fun r => r.2.2

def Session.unread (s : Session) : List UInt8 := s.delivered.drop s.handed.length

/-- Bytes are not zero and never more than the ring holds; sizes are positive and fit an `int`. -/
def Allowed (n : Nat) (s : Session) : SessionEvent → Prop
  | .deliver bytes => 0 ∉ bytes ∧ s.unread.length + bytes.length ≤ n - 1
  | .read size _ arriving => 0 < size ∧ size < 2 ^ 31 ∧ 0 ∉ arriving ∧
      s.unread.length - size + arriving.length ≤ n - 1

def SoundEvent (s : Session) : SessionEvent → Prop
  | .deliver _ => True
  | .read size memory arriving => Sound s.unread size memory arriving

/-- Every read returned what it handed over, and what was delivered is what was handed over and
    then what waits in the ring. -/
structure LosesNothing (n : Nat) (s : Session) : Prop where
  reads : ∀ r ∈ s.reads, r.2.2.length = r.2.1 ∧ r.2.1 ≤ r.1 ∧ OneLine r.2.2
  handed : s.handed <+: s.delivered
  waiting : ∃ gone, HoldsQueue n s.tty ⟨gone, s.unread⟩
  nonzero : 0 ∉ s.unread

variable {n outbs : Nat} {line : Nat → UInt8} {s : Session}

theorem read_losesNothing_iff (h : LosesNothing n s) {size : Nat} {r : ReadResult} :
    LosesNothing n ⟨r.tty, s.delivered ++ r.arrived,
      s.reads ++ [(size, r.read, r.memory.take r.read)]⟩ ↔ Right n size s.unread r := by
  obtain ⟨reads, ⟨rest, whole⟩, -, -⟩ := h
  have unread : s.unread = rest := by rw [Session.unread, ← whole, List.drop_left]
  have handed : Session.handed ⟨r.tty, s.delivered ++ r.arrived,
      s.reads ++ [(size, r.read, r.memory.take r.read)]⟩ = s.handed ++ r.memory.take r.read := by
    simp [Session.handed]
  have left : Session.unread ⟨r.tty, s.delivered ++ r.arrived,
      s.reads ++ [(size, r.read, r.memory.take r.read)]⟩ =
        (s.unread ++ r.arrived).drop (r.memory.take r.read).length := by
    rw [Session.unread, handed, List.length_append, ← List.drop_drop, ← whole, unread,
      List.append_assoc, List.drop_left]
  constructor
  · rintro ⟨all, ahead, ⟨gone, holds⟩, nonzero⟩
    obtain ⟨length, small, line⟩ := all _ (List.mem_append_right _ (List.mem_singleton_self _))
    rw [left] at holds nonzero
    refine ⟨length, small, line, gone, _, holds, ?_, nonzero⟩
    rw [handed, ← whole, List.append_assoc, ← unread, List.prefix_append_right_inj] at ahead
    obtain ⟨later, same⟩ := ahead
    rw [← same, List.drop_left]
  · rintro ⟨length, small, line, gone, later, holds, same, nonzero⟩
    have after : (s.unread ++ r.arrived).drop (r.memory.take r.read).length = later := by
      rw [← same, List.drop_left]
    refine ⟨?_, ⟨later, ?_⟩, ⟨gone, ?_⟩, ?_⟩
    · intro one_read member
      rcases List.mem_append.mp member with member | member
      · exact reads one_read member
      · rw [List.mem_singleton.mp member]
        exact ⟨length, small, line⟩
    · rw [handed, List.append_assoc, same, unread, ← List.append_assoc, whole]
    · rwa [left, after]
    · rwa [left, after]

theorem deliver_losesNothing (two : 2 ≤ n) (h : LosesNothing n s) {bytes : List UInt8}
    (allowed : Allowed n s (.deliver bytes)) :
    LosesNothing n ⟨flushCb s.tty bytes, s.delivered ++ bytes, s.reads⟩ := by
  obtain ⟨reads, ⟨rest, whole⟩, ⟨gone, holds⟩, nonzero⟩ := h
  obtain ⟨nonzero', room⟩ := allowed
  have unread : s.unread = rest := by rw [Session.unread, ← whole, List.drop_left]
  have after : Session.unread ⟨flushCb s.tty bytes, s.delivered ++ bytes, s.reads⟩ =
      s.unread ++ bytes := by
    rw [unread, Session.unread, ← whole, List.append_assoc]
    exact List.drop_left
  refine ⟨reads, ?_, ⟨gone, ?_⟩, ?_⟩
  · exact ⟨rest ++ bytes, by rw [← List.append_assoc]; exact congrArg (· ++ bytes) whole⟩
  · rw [after]
    exact flushCb_holdsQueue holds two room
  · rw [after]
    simp [nonzero, nonzero']

/-- An event keeps everything exactly when it is sound. -/
theorem event_losesNothing_iff (two : 2 ≤ n) (h : LosesNothing n s) {event : SessionEvent}
    (allowed : Allowed n s event) :
    (∃ s', s.event event = some s' ∧ LosesNothing n s') ↔ SoundEvent s event := by
  cases event with
  | deliver bytes =>
    exact iff_of_true ⟨_, rfl, deliver_losesNothing two h allowed⟩ trivial
  | read size memory arriving =>
    obtain ⟨positive, int, nonzero', fits⟩ := allowed
    obtain ⟨gone, holds⟩ := h.waiting
    have reading : Reading n s.tty gone s.unread arriving size 0 :=
      ⟨holds, two, h.nonzero, nonzero', int, fits⟩
    rw [SoundEvent, ← reading.right_iff positive]
    constructor
    · rintro ⟨s', step, keeps⟩
      obtain ⟨r, run, rfl⟩ := Option.map_eq_some_iff.mp step
      exact ⟨r, run, (read_losesNothing_iff h).mp keeps⟩
    · rintro ⟨r, run, right⟩
      exact ⟨_, by rw [Session.event, run, Option.map_some],
        (read_losesNothing_iff h).mpr right⟩

theorem session_snoc {events : List SessionEvent} {event : SessionEvent}
    (reached : session n outbs line events = some s) :
    session n outbs line (events ++ [event]) = s.event event := by
  rw [session, List.foldlM_append, ← session, reached]
  simp

theorem prefixes_snoc {α : Type} {P : List α → Prop} {xs : List α} {x : α} :
    (∀ u, u <+: xs ++ [x] → P u) ↔ (∀ u, u <+: xs → P u) ∧ P (xs ++ [x]) := by
  constructor
  · intro all
    exact ⟨fun u part => all u (part.trans (List.prefix_append _ _)), all _ List.prefix_rfl⟩
  · rintro ⟨earlier, last⟩ u part
    rcases List.prefix_concat_iff.mp part with rfl | part
    · exact last
    · exact earlier u part

end Sessions
end OmenTerminal
