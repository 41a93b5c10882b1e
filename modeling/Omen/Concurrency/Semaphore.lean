import Omen.Library.Runs
import Mathlib.Logic.Function.Basic
import Mathlib.Data.List.Basic
import Mathlib.Algebra.Group.Nat.Defs
import Mathlib.Algebra.Group.Int.Defs

/- The mutexes and semaphores of `mutex.c` under any schedule. A step of a thread is one atomic
   access: a test-and-set, a clear, a read or a change of a counter. What a caller does between
   two calls is an action on data of its own, and an action can lead to further calls. A counter
   is an `atomic_int`, whose sums wrap. -/
namespace OmenConcurrency

inductive Call (S A : Type) where
  | wait (s : S)
  | signal (s : S)
  | act (a : A)

inductive Pc (S : Type) where
  | ready
  | waitLock (s : S)
  | waitTest (s : S)
  | waitUnlock (s : S)
  | waitTake (s : S)
  | signalLock (s : S)
  | signalGive (s : S)
  | unlock (s : S)

inductive Event (S : Type) where
  | took (s : S)
  | gave (s : S)
  deriving DecidableEq

structure Thread (S A : Type) where
  pc : Pc S
  calls : List (Call S A)

structure Shared (S D : Type) where
  locked : S → Bool
  count : S → Int
  data : D
  history : List (Event S)

section Code
variable {S A D : Type} [DecidableEq S] (perform : A → D → D × List (Call S A))

/-- `atomic_flag_test_and_set` in the loop of `mutex_lock`: the thread goes on once the flag was
    clear. -/
def mutexLock (m : Shared S D) (s : S) (t : Thread S A) (next : Pc S) : Shared S D × Thread S A :=
  if m.locked s then (m, t)
  else ({ m with locked := Function.update m.locked s true }, { t with pc := next })

def mutexUnlock (m : Shared S D) (s : S) (t : Thread S A) (next : Pc S) :
    Shared S D × Thread S A :=
  ({ m with locked := Function.update m.locked s false }, { t with pc := next })

def change (m : Shared S D) (s : S) (by_ : Int) (e : Event S) : Shared S D :=
  { m with
    count := Function.update m.count s ((m.count s + by_).bmod (2 ^ 32))
    history := e :: m.history }

def Thread.step (m : Shared S D) (t : Thread S A) : Shared S D × Thread S A :=
  match t.pc with
  | .ready =>
    match t.calls with
    | [] => (m, t)
    | .wait s :: rest => (m, ⟨.waitLock s, rest⟩)
    | .signal s :: rest => (m, ⟨.signalLock s, rest⟩)
    | .act a :: rest =>
      ({ m with data := (perform a m.data).1 }, ⟨.ready, (perform a m.data).2 ++ rest⟩)
  | .waitLock s => mutexLock m s t (.waitTest s)
  | .waitTest s =>
    if m.count s ≤ 0 then (m, { t with pc := .waitUnlock s }) else (m, { t with pc := .waitTake s })
  | .waitUnlock s => mutexUnlock m s t (.waitLock s)
  | .waitTake s => (change m s (-1) (.took s), { t with pc := .unlock s })
  | .signalLock s => mutexLock m s t (.signalGive s)
  | .signalGive s => (change m s 1 (.gave s), { t with pc := .unlock s })
  | .unlock s => mutexUnlock m s t .ready

variable {ι : Type} [DecidableEq ι]

structure State (ι S A D : Type) where
  shared : Shared S D
  threads : ι → Thread S A

def State.step (x : State ι S A D) (i : ι) : State ι S A D :=
  let (m, t) := (x.threads i).step perform x.shared
  ⟨m, Function.update x.threads i t⟩

def State.start (count : S → Int) (data : D) (programs : ι → List (Call S A)) : State ι S A D :=
  ⟨⟨fun _ => false, count, data, []⟩, fun i => ⟨.ready, programs i⟩⟩

end Code

section Safety
variable {S A D ι : Type} [DecidableEq S] [DecidableEq ι] {perform : A → D → D × List (Call S A)}
  {x : State ι S A D} {start : S → Int}

def Pc.Holds (s : S) : Pc S → Prop
  | .ready | .waitLock _ | .signalLock _ => False
  | .waitTest r | .waitUnlock r | .waitTake r | .signalGive r | .unlock r => r = s

def Thread.Has (t : Thread S A) (s : S) : Prop := t.pc.Holds s

structure Flags (locked : S → Bool) (holds : ι → S → Prop) : Prop where
  held : ∀ s, locked s = true ↔ ∃ i, holds i s
  once : ∀ s i j, holds i s → holds j s → i = j

section Flags
variable {locked : S → Bool} {holds : ι → S → Prop} {own : S → Prop} {i : ι} {s : S}

theorem Flags.lock (flags : Flags locked holds) (free : locked s = false)
    (none : ∀ r, ¬ holds i r) (new : ∀ r, own r ↔ s = r) :
    Flags (Function.update locked s true) (Function.update holds i own) := by
  have nobody : ∀ j, ¬ holds j s := by
    intro j here
    rw [(flags.held s).mpr ⟨j, here⟩] at free
    cases free
  refine ⟨fun r => ?_, fun r j k first second => ?_⟩
  · by_cases same : r = s
    · subst same
      rw [Function.update_self]
      exact iff_of_true rfl ⟨i, by rw [Function.update_self]; exact (new r).mpr rfl⟩
    · rw [Function.update_of_ne same, flags.held r]
      refine exists_congr fun j => ?_
      by_cases here : j = i
      · subst here
        rw [Function.update_self]
        exact iff_of_false (none r) fun mine => same ((new r).mp mine).symm
      · rw [Function.update_of_ne here]
  · rw [Function.update_apply] at first second
    grind [flags.once r j k]

theorem Flags.unlock (flags : Flags locked holds) (old : ∀ r, holds i r ↔ s = r)
    (none : ∀ r, ¬ own r) :
    Flags (Function.update locked s false) (Function.update holds i own) := by
  have mine : holds i s := (old s).mpr rfl
  refine ⟨fun r => ?_, fun r j k first second => ?_⟩
  · by_cases same : r = s
    · subst same
      rw [Function.update_self]
      refine iff_of_false Bool.false_ne_true ?_
      rintro ⟨j, here⟩
      by_cases own_thread : j = i
      · subst own_thread
        rw [Function.update_self] at here
        exact none r here
      · rw [Function.update_of_ne own_thread] at here
        exact own_thread (flags.once r j i here mine)
    · rw [Function.update_of_ne same, flags.held r]
      refine exists_congr fun j => ?_
      by_cases here : j = i
      · subst here
        rw [Function.update_self]
        exact iff_of_false (fun other => same ((old r).mp other).symm) (none r)
      · rw [Function.update_of_ne here]
  · rw [Function.update_apply] at first second
    grind [flags.once r j k]

end Flags

/-- A signal does not find its counter at the largest `int`. -/
def State.HasRoom (x : State ι S A D) (i : ι) : Prop :=
  match (x.threads i).pc with
  | .signalGive s => x.shared.count s < 2 ^ 31 - 1
  | _ => True

/-- A flag is set by one thread, a thread that is about to take finds something to take, and a
    counter is what was there at the start with all that was given and taken since. -/
structure Guarded (start : S → Int) (x : State ι S A D) : Prop where
  flags : Flags x.shared.locked (Thread.Has ∘ x.threads)
  enough : ∀ s i, (x.threads i).pc = .waitTake s → 0 < x.shared.count s
  natural : ∀ s, 0 ≤ x.shared.count s
  small : ∀ s, x.shared.count s < 2 ^ 31
  counted : ∀ s, x.shared.count s + x.shared.history.count (.took s) =
    start s + x.shared.history.count (.gave s)

inductive Move (m : Shared S D) (t : Thread S A) : Shared S D → Thread S A → Prop where
  | quiet {m' : Shared S D} {t' : Thread S A} (locked : m'.locked = m.locked)
      (count : m'.count = m.count) (history : m'.history = m.history)
      (holds : ∀ s, t'.pc.Holds s ↔ t.pc.Holds s)
      (enough : ∀ s, t'.pc = .waitTake s → 0 < m.count s) : Move m t m' t'
  | lock {t' : Thread S A} (s : S) (free : m.locked s = false) (none : ∀ r, ¬ t.pc.Holds r)
      (holds : ∀ r, t'.pc.Holds r ↔ s = r) (enough : ∀ r, t'.pc ≠ .waitTake r) :
      Move m t { m with locked := Function.update m.locked s true } t'
  | unlock {t' : Thread S A} (s : S) (holds : ∀ r, t.pc.Holds r ↔ s = r)
      (none : ∀ r, ¬ t'.pc.Holds r) :
      Move m t { m with locked := Function.update m.locked s false } t'
  | take (s : S) (here : t.pc = .waitTake s) :
      Move m t (change m s (-1) (.took s)) { t with pc := .unlock s }
  | give (s : S) (here : t.pc = .signalGive s) :
      Move m t (change m s 1 (.gave s)) { t with pc := .unlock s }

theorem mutexLock_move {m : Shared S D} {t : Thread S A} {s : S} {next : Pc S}
    (none : ∀ r, ¬ t.pc.Holds r) (holds : ∀ r, next.Holds r ↔ s = r)
    (enough : ∀ r, next ≠ .waitTake r) (idle : ∀ r, t.pc ≠ .waitTake r) :
    Move m t (mutexLock m s t next).1 (mutexLock m s t next).2 := by
  unfold mutexLock
  split
  · exact .quiet rfl rfl rfl (fun _ => Iff.rfl) fun r here => absurd here (idle r)
  · exact .lock s (eq_false_of_ne_true ‹_›) none holds enough

variable (perform) in
theorem step_move (m : Shared S D) (t : Thread S A) :
    Move m t (t.step perform m).1 (t.step perform m).2 := by
  obtain ⟨pc, calls⟩ := t
  cases pc with
  | ready =>
    rcases calls with _ | ⟨s | s | a, rest⟩
    all_goals exact .quiet rfl rfl rfl (fun _ => Iff.rfl) (fun _ here => by cases here)
  | waitLock s =>
    exact mutexLock_move (fun _ => id) (fun _ => Iff.rfl) (fun _ here => by cases here)
      (fun _ here => by cases here)
  | waitTest s =>
    unfold Thread.step
    dsimp only
    split
    · exact .quiet rfl rfl rfl (fun _ => Iff.rfl) (fun _ here => by cases here)
    · refine .quiet rfl rfl rfl (fun _ => Iff.rfl) (fun r here => ?_)
      cases here
      omega
  | waitUnlock s => exact .unlock s (fun _ => Iff.rfl) (fun _ => id)
  | waitTake s => exact .take s rfl
  | signalLock s =>
    exact mutexLock_move (fun _ => id) (fun _ => Iff.rfl) (fun _ here => by cases here)
      (fun _ here => by cases here)
  | signalGive s => exact .give s rfl
  | unlock s => exact .unlock s (fun _ => Iff.rfl) (fun _ => id)

theorem change_count (m : Shared S D) (s r : S) (d : Int) (e : Event S) :
    (change m s d e).count r = if r = s then (m.count s + d).bmod (2 ^ 32) else m.count r :=
  Function.update_apply _ _ _ _

theorem Guarded.change (guarded : Guarded start x) {i : ι} {s : S} {d : Int} {e : Event S}
    (mine : ∀ r, (x.threads i).Has r ↔ s = r) (natural : 0 ≤ x.shared.count s + d)
    (small : x.shared.count s + d < 2 ^ 31)
    (counted : ∀ r, (if r = s then x.shared.count s + d else x.shared.count r) +
      (e :: x.shared.history).count (.took r) = start r + (e :: x.shared.history).count (.gave r)) :
    Guarded start ⟨OmenConcurrency.change x.shared s d e,
      Function.update x.threads i { x.threads i with pc := .unlock s }⟩ := by
  have kept : (x.shared.count s + d).bmod (2 ^ 32) = x.shared.count s + d :=
    Int.bmod_eq_of_le (by omega) (by omega)
  refine ⟨?_, fun r j here => ?_, fun r => ?_, fun r => ?_, fun r => ?_⟩
  · have same : Thread.Has ∘ Function.update x.threads i { x.threads i with pc := .unlock s } =
        Thread.Has ∘ x.threads := by
      rw [Function.comp_update]
      refine Function.update_eq_self_iff.mpr (funext fun r => propext ?_)
      exact Iff.trans Iff.rfl (mine r).symm
    rw [same]
    exact guarded.flags
  · dsimp only at here ⊢
    by_cases own : j = i
    · subst own
      rw [Function.update_self] at here
      cases here
    · rw [Function.update_of_ne own] at here
      have other : r ≠ s := by
        rintro rfl
        have his : (x.threads j).Has r := by rw [Thread.Has, here]; rfl
        exact own (guarded.flags.once r j i his ((mine r).mpr rfl))
      rw [change_count, if_neg other]
      exact guarded.enough r j here
  · dsimp only
    rw [change_count, kept]
    split
    · exact natural
    · exact guarded.natural r
  · dsimp only
    rw [change_count, kept]
    split
    · exact small
    · exact guarded.small r
  · dsimp only
    rw [change_count, kept]
    exact counted r

theorem Guarded.move (guarded : Guarded start x) {i : ι} {m : Shared S D} {t : Thread S A}
    (room : x.HasRoom i) (move : Move x.shared (x.threads i) m t) :
    Guarded start ⟨m, Function.update x.threads i t⟩ := by
  have others {r : S} {j : ι} (new : t.pc = .waitTake r → 0 < x.shared.count r)
      (here : (Function.update x.threads i t j).pc = .waitTake r) : 0 < x.shared.count r := by
    by_cases own : j = i
    · subst own
      rw [Function.update_self] at here
      exact new here
    · rw [Function.update_of_ne own] at here
      exact guarded.enough r j here
  cases move with
  | quiet locked count history holds enough =>
    refine ⟨?_, ?_, ?_, ?_, ?_⟩
    · have same : Thread.Has ∘ Function.update x.threads i t = Thread.Has ∘ x.threads := by
        rw [Function.comp_update]
        exact Function.update_eq_self_iff.mpr (funext fun r => propext (holds r))
      rw [locked, same]
      exact guarded.flags
    · intro r j here
      rw [count]
      exact others (enough r) here
    · rw [count]
      exact guarded.natural
    · rw [count]
      exact guarded.small
    · rw [count, history]
      exact guarded.counted
  | lock s free none holds enough =>
    refine ⟨?_, fun r j here => ?_, guarded.natural, guarded.small, guarded.counted⟩
    · rw [Function.comp_update]
      exact guarded.flags.lock free none holds
    · exact others (fun new => absurd new (enough r)) here
  | unlock s holds none =>
    refine ⟨?_, fun r j here => ?_, guarded.natural, guarded.small, guarded.counted⟩
    · rw [Function.comp_update]
      exact guarded.flags.unlock holds none
    · exact others (fun new => absurd (show t.pc.Holds r by rw [new]; rfl) (none r)) here
  | take s here =>
    have left := guarded.enough s i here
    have small := guarded.small s
    refine guarded.change (fun r => by rw [Thread.Has, here]; rfl) (by omega) (by omega)
      fun r => ?_
    have before := guarded.counted r
    grind
  | give s here =>
    have left := guarded.natural s
    rw [State.HasRoom, here] at room
    dsimp only at room
    refine guarded.change (fun r => by rw [Thread.Has, here]; rfl) (by omega) (by omega)
      fun r => ?_
    have before := guarded.counted r
    grind

theorem Guarded.step (guarded : Guarded start x) {i : ι} (room : x.HasRoom i) :
    Guarded start (x.step perform i) :=
  guarded.move room (step_move perform x.shared (x.threads i))

omit [DecidableEq ι] in
theorem start_guarded (natural : ∀ s, 0 ≤ start s) (small : ∀ s, start s < 2 ^ 31) (data : D)
    (programs : ι → List (Call S A)) : Guarded start (State.start start data programs) where
  flags := ⟨fun _ => iff_of_false Bool.false_ne_true fun ⟨_, here⟩ => here,
    fun _ _ _ here => here.elim⟩
  enough := by
    intro s i here
    cases here
  natural := natural
  small := small
  counted _ := rfl

/-- Any threads, any programs, any schedule in which no signal overflows its counter: a flag has
    one owner, no counter falls below 0, and no change of a counter is lost, so no more waits
    get through than there were tokens. -/
theorem semaphores_safe (start : S → Int) (natural : ∀ s, 0 ≤ start s)
    (small : ∀ s, start s < 2 ^ 31) (data : D) (programs : ι → List (Call S A))
    (schedule : List ι)
    (room : Runs.Each (State.step perform) State.HasRoom (State.start start data programs)
      schedule) :
    let x := schedule.foldl (State.step perform) (State.start start data programs)
    (∀ s i j, (x.threads i).Has s → (x.threads j).Has s → i = j) ∧
      ∀ s, 0 ≤ x.shared.count s ∧ x.shared.count s =
        start s + x.shared.history.count (.gave s) - x.shared.history.count (.took s) := by
  have guarded := (Runs.throughout_of_each (fun _ => id)
    (fun _ _ kept meets => kept.step meets) (start_guarded natural small data programs) room).last
  refine ⟨guarded.flags.once, fun s => ⟨guarded.natural s, ?_⟩⟩
  have counted := guarded.counted s
  omega

/-- Two threads at the one token of a semaphore, and one of them gives it back. -/
theorem semaphores_safe_two :
    let schedule : List (Fin 2) := [0, 1, 0, 1, 0, 0, 1, 0, 0, 0, 0, 0, 1, 1, 1]
    let x := schedule.foldl (State.step fun (a : Empty) (_ : Unit) => a.elim)
      (State.start (fun _ => 1) () fun i => if i = 0 then [.wait (), .signal ()] else [.wait ()])
    (∀ s i j, (x.threads i).Has s → (x.threads j).Has s → i = j) ∧
      ∀ s, 0 ≤ x.shared.count s ∧ x.shared.count s =
        1 + x.shared.history.count (.gave s) - x.shared.history.count (.took s) := by
  refine semaphores_safe (fun _ => 1) (fun _ => by decide) (fun _ => by decide) () _ _ ?_
  have room : (0 : Int) < 2 ^ 31 - 1 := by decide
  exact ⟨trivial, trivial, trivial, trivial, trivial, trivial, trivial, trivial, trivial, trivial,
    room, trivial, trivial, trivial, trivial, trivial⟩

end Safety
end OmenConcurrency
