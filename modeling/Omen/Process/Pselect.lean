import Omen.Process.Clock
import Mathlib.Data.List.Count

/- `pselect_syscall_handler` of `syscall.c` down to the events of terminals, the only files that
   have any. What changes while the call polls is given for each round. -/
namespace OmenProcess.Pselect
open OmenSleep (Timeval)

def maxOpenFiles : Nat := 32

abbrev FdSet := Nat → Bool

structure Timespec where
  tv_sec : Int
  tv_nsec : Int

def timespecNow (tv : Timeval) : Timespec := ⟨tv.tv_sec, tv.tv_usec * 1000⟩

/-- What the rounds of a call find: the words of the process from `open_files` on, the terminal
    behind an open file and whether it has input, and the clock after the polls. -/
structure World where
  open_files : Nat → Nat → Int
  terminal : Nat → Int → Option Bool
  clock : Nat → Timeval

structure Request where
  nfds : Int
  readfds : Option FdSet
  writefds : Option FdSet
  exceptfds : Option FdSet
  timeout : Option Timespec
  start : Timeval

structure Sets where
  read : FdSet
  write : FdSet
  except : FdSet
  event_count : Nat

def cleared : Sets := ⟨fun _ => false, fun _ => false, fun _ => false, 0⟩

namespace Request

def reads (r : Request) (fd : Nat) : Bool := decide (fd < 1024) && (r.readfds.elim false (· fd))

def writes (r : Request) (fd : Nat) : Bool := decide (fd < 1024) && (r.writefds.elim false (· fd))

def polled (r : Request) : Nat := min 1024 r.nfds.toNat

def endTime (r : Request) : Timespec :=
  match r.timeout with
  | none => ⟨0, 0⟩
  | some timeout =>
    let now := timespecNow r.start
    if now.tv_nsec + timeout.tv_nsec ≥ 1000000000 then
      ⟨now.tv_sec + timeout.tv_sec + 1, now.tv_nsec + timeout.tv_nsec - 1000000000⟩
    else ⟨now.tv_sec + timeout.tv_sec, now.tv_nsec + timeout.tv_nsec⟩

def timedOut (r : Request) (clock : Timeval) : Bool :=
  let now := timespecNow clock
  (r.endTime.tv_sec != 0 || r.endTime.tv_nsec == 0) &&
    (decide (now.tv_sec > r.endTime.tv_sec) ||
      now.tv_sec == r.endTime.tv_sec && decide (now.tv_nsec ≥ r.endTime.tv_nsec))

/-- `tty_compat_file_event` of the terminal behind an open file; other files have no events. -/
def pollFd (r : Request) (w : World) (round : Nat) (s : Sets) (fd : Nat) : Sets :=
  let pfd := w.open_files round fd
  if pfd < 0 then s
  else match w.terminal round pfd with
    | none => s
    | some input =>
      { s with
        read := if r.reads fd && input then Function.update s.read fd true else s.read
        write := if r.writes fd then Function.update s.write fd true else s.write
        event_count := s.event_count + (r.reads fd && input).toNat + (r.writes fd).toNat }

def poll (r : Request) (w : World) (round : Nat) (s : Sets) : Sets :=
  (List.range r.polled).foldl (r.pollFd w round) s

def select (r : Request) (w : World) : Nat → Nat → Sets → Option (Sets × Nat)
  | 0, _, _ => none
  | rounds + 1, round, s =>
    if 0 < s.event_count then some (s, round - 1)
    else
      let s := r.poll w round { s with event_count := 0 }
      if r.timedOut (w.clock round) then some (s, round) else select r w rounds (round + 1) s

/-- The call, when it returns in the given number of rounds. -/
def pselect (r : Request) (w : World) (rounds : Nat) : Option (Sets × Nat) :=
  r.select w rounds 0 cleared

end Request

def bits (set : FdSet) : Nat := (List.range 1024).countP set

section Reports
variable (r : Request) (w : World) (round fd : Nat)

/-- The descriptor is in the table of the process and not free. -/
def World.Open : Prop := fd < maxOpenFiles ∧ 0 ≤ w.open_files round fd

def World.readReady : Bool :=
  decide (0 ≤ w.open_files round fd) && (w.terminal round (w.open_files round fd) == some true)

def World.writeReady : Bool :=
  decide (0 ≤ w.open_files round fd) && (w.terminal round (w.open_files round fd)).isSome

/-- The sets and the count are exactly what the last poll found for open descriptors, and there
    is an event when there is no timeout. -/
structure Exact (s : Sets) (last : Nat) : Prop where
  read : ∀ fd, s.read fd = true ↔
    r.reads fd = true ∧ (fd : Int) < r.nfds ∧ w.Open last fd ∧ w.readReady last fd = true
  write : ∀ fd, s.write fd = true ↔
    r.writes fd = true ∧ (fd : Int) < r.nfds ∧ w.Open last fd ∧ w.writeReady last fd = true
  except : ∀ fd, s.except fd = false
  count : s.event_count = bits s.read + bits s.write + bits s.except
  waits : r.timeout = none → 1 ≤ s.event_count

def Request.readEvent : Bool := r.reads fd && w.readReady round fd

def Request.writeEvent : Bool := r.writes fd && w.writeReady round fd

def Request.Event : Prop :=
  (fd : Int) < r.nfds ∧ (r.readEvent w round fd = true ∨ r.writeEvent w round fd = true)

end Reports

section Polls
variable {r : Request} {w : World} {round fd : Nat} {s : Sets}

theorem pollFd_eq (r : Request) (w : World) (round : Nat) (s : Sets) (fd : Nat) :
    r.pollFd w round s fd =
      { s with
        read := if r.readEvent w round fd then Function.update s.read fd true else s.read
        write := if r.writeEvent w round fd then Function.update s.write fd true else s.write
        event_count := s.event_count + (r.readEvent w round fd).toNat +
          (r.writeEvent w round fd).toNat } := by
  by_cases free : w.open_files round fd < 0
  · have out : ¬ 0 ≤ w.open_files round fd := Int.not_le.mpr free
    have no_read : r.readEvent w round fd = false := by
      simp [Request.readEvent, World.readReady, out]
    have no_write : r.writeEvent w round fd = false := by
      simp [Request.writeEvent, World.writeReady, out]
    simp [Request.pollFd, free, no_read, no_write]
  · have taken : 0 ≤ w.open_files round fd := Int.not_lt.mp free
    cases found : w.terminal round (w.open_files round fd) with
    | none =>
      have no_read : r.readEvent w round fd = false := by
        simp [Request.readEvent, World.readReady, found]
      have no_write : r.writeEvent w round fd = false := by
        simp [Request.writeEvent, World.writeReady, found]
      simp [Request.pollFd, free, found, no_read, no_write]
    | some input =>
      have read : r.readEvent w round fd = (r.reads fd && input) := by
        simp [Request.readEvent, World.readReady, taken, found]
      have write : r.writeEvent w round fd = r.writes fd := by
        simp [Request.writeEvent, World.writeReady, taken, found]
      simp [Request.pollFd, free, found, read, write]

theorem marked (p : Nat → Bool) (set : FdSet) (x fd : Nat) (l : List Nat) :
    ((if p x then Function.update set x true else set) fd || decide (fd ∈ l) && p fd) =
      (set fd || decide (fd ∈ x :: l) && p fd) := by
  by_cases here : fd = x
  · subst here
    cases found : p fd <;> simp
  · split <;> simp [here]

theorem pollList (r : Request) (w : World) (round : Nat) (l : List Nat) (s : Sets) :
    (∀ fd, (l.foldl (r.pollFd w round) s).read fd =
        (s.read fd || decide (fd ∈ l) && r.readEvent w round fd)) ∧
      (∀ fd, (l.foldl (r.pollFd w round) s).write fd =
        (s.write fd || decide (fd ∈ l) && r.writeEvent w round fd)) ∧
      (l.foldl (r.pollFd w round) s).except = s.except ∧
      (l.foldl (r.pollFd w round) s).event_count = s.event_count +
        l.countP (r.readEvent w round) + l.countP (r.writeEvent w round) := by
  induction l generalizing s with
  | nil => simp
  | cons x l ih =>
    obtain ⟨read, write, except, count⟩ := ih (r.pollFd w round s x)
    rw [List.foldl_cons]
    refine ⟨fun fd => ?_, fun fd => ?_, ?_, ?_⟩
    · rw [read, pollFd_eq, marked]
    · rw [write, pollFd_eq, marked]
    · rw [except, pollFd_eq]
    · rw [count, pollFd_eq, List.countP_cons, List.countP_cons]
      cases r.readEvent w round x <;> cases r.writeEvent w round x <;> simp <;> omega

theorem countP_range_and {n m : Nat} (p : Nat → Bool) (within : n ≤ m) :
    (List.range m).countP (fun i => decide (i < n) && p i) = (List.range n).countP p := by
  obtain ⟨k, rfl⟩ := Nat.exists_eq_add_of_le within
  rw [List.range_add, List.countP_append]
  have beyond : ((List.range k).map (n + ·)).countP (fun i => decide (i < n) && p i) = 0 := by
    rw [List.countP_eq_zero]
    intro i member
    obtain ⟨j, -, rfl⟩ := List.mem_map.mp member
    simp
  rw [beyond, Nat.add_zero]
  apply List.countP_congr
  intro i member
  simp [List.mem_range.mp member]

structure Found (r : Request) (w : World) (round : Nat) (s : Sets) : Prop where
  read : s.read = fun fd => decide (fd < r.polled) && r.readEvent w round fd
  write : s.write = fun fd => decide (fd < r.polled) && r.writeEvent w round fd
  except : s.except = fun _ => false
  count : s.event_count = bits s.read + bits s.write

theorem poll_found (r : Request) (w : World) (round : Nat) :
    Found r w round (r.poll w round cleared) := by
  obtain ⟨read, write, except, count⟩ := pollList r w round (List.range r.polled) cleared
  have reads : (r.poll w round cleared).read =
      fun fd => decide (fd < r.polled) && r.readEvent w round fd := by
    funext fd
    rw [Request.poll, read]
    simp [cleared]
  have writes : (r.poll w round cleared).write =
      fun fd => decide (fd < r.polled) && r.writeEvent w round fd := by
    funext fd
    rw [Request.poll, write]
    simp [cleared]
  refine ⟨reads, writes, except, ?_⟩
  have within : r.polled ≤ 1024 := Nat.min_le_left _ _
  rw [reads, writes, bits, bits, countP_range_and _ within, countP_range_and _ within,
    Request.poll, count]
  simp [cleared]

theorem bits_zero {p : FdSet} (none : bits p = 0) (within : ∀ fd, p fd = true → fd < 1024) :
    p = fun _ => false := by
  funext fd
  cases bit : p fd with
  | false => rfl
  | true =>
    exact absurd bit (List.countP_eq_zero.mp none fd (List.mem_range.mpr (within fd bit)))

theorem poll_idle (idle : (r.poll w round cleared).event_count = 0) :
    r.poll w round cleared = cleared := by
  obtain ⟨read, write, except, count⟩ := poll_found r w round
  have within : r.polled ≤ 1024 := Nat.min_le_left _ _
  have no_read := bits_zero (p := (r.poll w round cleared).read) (by omega) (by
    rw [read]
    intro fd bit
    simp at bit
    omega)
  have no_write := bits_zero (p := (r.poll w round cleared).write) (by omega) (by
    rw [write]
    intro fd bit
    simp at bit
    omega)
  cases all : r.poll w round cleared
  rw [all] at no_read no_write except idle
  subst no_read no_write except idle
  rfl

/-- The sets are always those of the last poll alone. -/
theorem select_last {rounds last : Nat} {start : Sets}
    (clean : start = cleared ∨ ∃ before, round = before + 1 ∧ start = r.poll w before cleared)
    (run : r.select w rounds round start = some (s, last)) : s = r.poll w last cleared := by
  induction rounds generalizing round start with
  | zero => cases run
  | succ rounds ih =>
    rw [Request.select] at run
    by_cases events : 0 < start.event_count
    · rw [if_pos events] at run
      obtain ⟨rfl, rfl⟩ := Prod.mk.inj (Option.some.inj run)
      rcases clean with rfl | ⟨before, rfl, same⟩
      · exact absurd events (by decide)
      · exact same
    · have fresh : { start with event_count := 0 } = cleared := by
        rcases clean with rfl | ⟨before, rfl, same⟩
        · rfl
        · rw [same, poll_idle (same ▸ Nat.eq_zero_of_not_pos events)]
          rfl
      rw [if_neg events, fresh] at run
      dsimp only at run
      split at run
      · obtain ⟨rfl, rfl⟩ := Prod.mk.inj (Option.some.inj run)
        rfl
      · exact ih (Or.inr ⟨round, rfl, rfl⟩) run

/-- Without a timeout the end is 0, and the clock is never before it. -/
theorem timedOut_none (r : Request) (none : r.timeout = none) (clock : Timeval) :
    r.timedOut clock = true := by
  have ends : r.endTime = ⟨0, 0⟩ := by
    rw [Request.endTime, none]
  have within : (0 : Int) ≤ clock.tv_usec * 1000 := by omega
  simp only [Request.timedOut, ends, timespecNow]
  simp [within]
  omega

theorem select_none (none : r.timeout = none) {rounds last : Nat}
    (returned : r.pselect w rounds = some (s, last)) : last = 0 := by
  cases rounds with
  | zero => cases returned
  | succ rounds =>
    rw [Request.pselect, Request.select, if_neg (by decide)] at returned
    dsimp only at returned
    rw [if_pos (timedOut_none r none _)] at returned
    exact (Prod.mk.inj (Option.some.inj returned)).2.symm

theorem polled_and {p : Bool} (small : p = true → fd < 1024) :
    (decide (fd < r.polled) && p) = true ↔ (fd : Int) < r.nfds ∧ p = true := by
  rw [Bool.and_eq_true, decide_eq_true_iff, Request.polled]
  refine and_congr_left fun set => ?_
  have := small set
  omega

theorem readEvent_small (event : r.readEvent w round fd = true) : fd < 1024 := by
  simp only [Request.readEvent, Request.reads, Bool.and_eq_true, decide_eq_true_iff] at event
  exact event.1.1

theorem writeEvent_small (event : r.writeEvent w round fd = true) : fd < 1024 := by
  simp only [Request.writeEvent, Request.writes, Bool.and_eq_true, decide_eq_true_iff] at event
  exact event.1.1

theorem ready_open (small : fd < maxOpenFiles)
    (ready : w.readReady round fd = true ∨ w.writeReady round fd = true) : w.Open round fd := by
  refine ⟨small, ?_⟩
  rcases ready with ready | ready
  all_goals
    simp only [World.readReady, World.writeReady, Bool.and_eq_true, decide_eq_true_iff] at ready
    exact ready.1

theorem event_open (none_behind : ∀ fd, maxOpenFiles ≤ fd → ¬ r.Event w round fd)
    (event : r.Event w round fd) : w.Open round fd := by
  refine ready_open (Nat.lt_of_not_le fun high => none_behind fd high event) ?_
  refine event.2.imp (fun read => ?_) (fun write => ?_)
  · rw [Request.readEvent, Bool.and_eq_true] at read
    exact read.2
  · rw [Request.writeEvent, Bool.and_eq_true] at write
    exact write.2

theorem bits_pos {set : FdSet} : 0 < bits set ↔ ∃ fd < 1024, set fd = true := by
  simp only [bits, List.countP_pos_iff, List.mem_range]

/-- When the call returns, it reports exactly what the last poll found just when that poll has
    come to no terminal through the words behind the table of open files, and, without a
    timeout, an open descriptor was ready at once. -/
theorem pselect_exact_iff (r : Request) (w : World) (rounds : Nat) (s : Sets) (last : Nat)
    (returned : r.pselect w rounds = some (s, last)) :
    Exact r w s last ↔
      (∀ fd, maxOpenFiles ≤ fd → ¬ r.Event w last fd) ∧
        (r.timeout = none → ∃ fd < maxOpenFiles, r.Event w 0 fd) := by
  have same := select_last (Or.inl rfl) returned
  obtain ⟨read, write, except, count⟩ := same ▸ poll_found r w last
  have read_iff (fd : Nat) :
      s.read fd = true ↔ (fd : Int) < r.nfds ∧ r.readEvent w last fd = true := by
    rw [read]
    exact polled_and readEvent_small
  have write_iff (fd : Nat) :
      s.write fd = true ↔ (fd : Int) < r.nfds ∧ r.writeEvent w last fd = true := by
    rw [write]
    exact polled_and writeEvent_small
  constructor
  · intro exact
    constructor
    · rintro fd high ⟨asked, event | event⟩
      · have opened := ((exact.read fd).mp ((read_iff fd).mpr ⟨asked, event⟩)).2.2.1
        exact Nat.not_lt.mpr high opened.1
      · have opened := ((exact.write fd).mp ((write_iff fd).mpr ⟨asked, event⟩)).2.2.1
        exact Nat.not_lt.mpr high opened.1
    · intro none
      have some_event := exact.waits none
      rw [select_none none returned] at exact read_iff write_iff
      rcases Nat.eq_zero_or_pos (bits s.read) with no_read | some_read
      · obtain ⟨fd, -, bit⟩ := bits_pos.mp (by omega : 0 < bits s.write)
        have event := (write_iff fd).mp bit
        exact ⟨fd, ((exact.write fd).mp bit).2.2.1.1, event.1, Or.inr event.2⟩
      · obtain ⟨fd, -, bit⟩ := bits_pos.mp some_read
        have event := (read_iff fd).mp bit
        exact ⟨fd, ((exact.read fd).mp bit).2.2.1.1, event.1, Or.inl event.2⟩
  · rintro ⟨none_behind, at_once⟩
    refine ⟨fun fd => ?_, fun fd => ?_, fun fd => by rw [except], ?_, fun none => ?_⟩
    · rw [read_iff, Request.readEvent, Bool.and_eq_true]
      constructor
      · rintro ⟨asked, wanted, ready⟩
        exact ⟨wanted, asked, event_open none_behind
          ⟨asked, Or.inl (Bool.and_eq_true_iff.mpr ⟨wanted, ready⟩)⟩, ready⟩
      · rintro ⟨wanted, asked, -, ready⟩
        exact ⟨asked, wanted, ready⟩
    · rw [write_iff, Request.writeEvent, Bool.and_eq_true]
      constructor
      · rintro ⟨asked, wanted, ready⟩
        exact ⟨wanted, asked, event_open none_behind
          ⟨asked, Or.inr (Bool.and_eq_true_iff.mpr ⟨wanted, ready⟩)⟩, ready⟩
      · rintro ⟨wanted, asked, -, ready⟩
        exact ⟨asked, wanted, ready⟩
    · have none_bits : bits s.except = 0 := by
        rw [except, bits, List.countP_false, Function.const_apply]
      omega
    · obtain ⟨fd, -, asked, event⟩ := at_once none
      rw [select_none none returned] at read_iff write_iff
      rw [count]
      rcases event with event | event
      · have := bits_pos.mpr ⟨fd, readEvent_small event, (read_iff fd).mpr ⟨asked, event⟩⟩
        omega
      · have := bits_pos.mpr ⟨fd, writeEvent_small event, (write_iff fd).mpr ⟨asked, event⟩⟩
        omega

end Polls

def readOne (fd : Nat) : Request where
  nfds := fd + 1
  readfds := some (fun i => i == fd)
  writefds := none
  exceptfds := none
  timeout := none
  start := ⟨1, 0⟩

/-- One file, a terminal, is open as descriptor 0. The word behind the table is the number of
    open files. -/
def oneTerminal (input : Bool) : World where
  open_files _ i := if i = 0 then 0 else if i = maxOpenFiles then 1 else -1
  terminal _ _ := some input
  clock _ := ⟨1, 0⟩

theorem pselect_exact_one :
    Exact (readOne 0) (oneTerminal true) ((readOne 0).poll (oneTerminal true) 0 cleared) 0 := by
  refine (pselect_exact_iff (readOne 0) (oneTerminal true) 1 _ 0 rfl).mpr
    ⟨fun fd high event => ?_, fun _ => ⟨0, by decide, by decide, by decide⟩⟩
  have asked : (fd : Int) < 1 := event.1
  unfold maxOpenFiles at high
  omega

/-- Without a timeout the call returns at once when nothing is ready, and descriptor 32, which no
    process can have, is reported as ready. -/
theorem pselect_inexact :
    ((readOne 0).pselect (oneTerminal false) 1).map (fun out => (out.1.event_count, out.2)) =
        some (0, 0) ∧
      ((readOne 32).pselect (oneTerminal true) 1).map (fun out => out.1.read 32) = some true := by
  decide

end OmenProcess.Pselect
