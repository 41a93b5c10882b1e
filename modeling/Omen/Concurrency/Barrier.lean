import Omen.Concurrency.Semaphore

/- Condition variables and barriers of `mutex.c`. A `wait_count++` or a `total++` is a read and a
   store, with steps of other threads between them. -/
namespace OmenConcurrency

inductive Sem where
  | mutex
  | wait
  deriving DecidableEq

structure Counters where
  wait_count : Int
  total : Int

inductive Action where
  | addWaiters (d : Int)
  | setWaiters (v : Int)
  | wakeFrom (i : Int)
  | addTotal
  | setTotal (v : Int)
  | arrived

def conditionWait : List (Call Sem Action) :=
  [.wait .mutex, .act (.addWaiters 1), .signal .mutex, .wait .wait, .act (.addWaiters (-1))]

def conditionBroadcast : List (Call Sem Action) :=
  [.wait .mutex, .act (.wakeFrom 0), .act (.setWaiters 0), .signal .mutex]

def perform (count : Int) : Action → Counters → Counters × List (Call Sem Action)
  | .addWaiters d, c => (c, [.act (.setWaiters (c.wait_count + d))])
  | .setWaiters v, c => ({ c with wait_count := v }, [])
  | .wakeFrom i, c =>
    (c, if i < c.wait_count then [.signal .wait, .act (.wakeFrom (i + 1))] else [])
  | .addTotal, c => (c, [.act (.setTotal (c.total + 1))])
  | .setTotal v, c => ({ c with total := v }, [])
  | .arrived, c =>
    (c, if c.total = count then .act (.setTotal 0) :: conditionBroadcast else conditionWait)

def arrival : List (Call Sem Action) := [.act .addTotal, .act .arrived, .signal .mutex]

def barrierWait : List (Call Sem Action) := .wait .mutex :: arrival

def tokens : Sem → Int
  | .mutex => 1
  | .wait => 0

def barrierInit {ι : Type} (later : ι → List (Call Sem Action)) : State ι Sem Action Counters :=
  State.start tokens ⟨0, 0⟩ fun i => barrierWait ++ later i

section Barrier
variable {ι : Type} [DecidableEq ι] {count : Int} {m : Shared Sem Counters}
  {t : Thread Sem Action} {after : List (Call Sem Action)}

/-- A thread that has not got through the first `semaphore_wait`. -/
inductive Outside (after : List (Call Sem Action)) : Thread Sem Action → Prop where
  | comes : Outside after ⟨.ready, .wait .mutex :: (arrival ++ after)⟩
  | locks : Outside after ⟨.waitLock .mutex, arrival ++ after⟩
  | tests : Outside after ⟨.waitTest .mutex, arrival ++ after⟩
  | unlocks : Outside after ⟨.waitUnlock .mutex, arrival ++ after⟩
  | takes : Outside after ⟨.waitTake .mutex, arrival ++ after⟩

/-- The thread that got through: whether it is the last one or not, it waits for the same
    semaphore again, before anything gives it back. -/
inductive Inside (after : List (Call Sem Action)) : Thread Sem Action → Prop where
  | leaves : Inside after ⟨.unlock .mutex, arrival ++ after⟩
  | adds : Inside after ⟨.ready, arrival ++ after⟩
  | sets (v : Int) : Inside after
      ⟨.ready, .act (.setTotal v) :: .act .arrived :: .signal .mutex :: after⟩
  | arrives : Inside after ⟨.ready, .act .arrived :: .signal .mutex :: after⟩
  | resets : Inside after
      ⟨.ready, .act (.setTotal 0) :: (conditionBroadcast ++ .signal .mutex :: after)⟩
  | comes (front : List (Call Sem Action)) : Inside after
      ⟨.ready, .wait .mutex :: (front ++ .signal .mutex :: after)⟩
  | locks (front : List (Call Sem Action)) : Inside after
      ⟨.waitLock .mutex, front ++ .signal .mutex :: after⟩
  | tests (front : List (Call Sem Action)) : Inside after
      ⟨.waitTest .mutex, front ++ .signal .mutex :: after⟩
  | unlocks (front : List (Call Sem Action)) : Inside after
      ⟨.waitUnlock .mutex, front ++ .signal .mutex :: after⟩

theorem Outside.step (outside : Outside after t) :
    (Outside after (t.step (perform count) m).2 ∧
      (t.step (perform count) m).1.count .mutex = m.count .mutex) ∨
    (t.pc = .waitTake .mutex ∧ Inside after (t.step (perform count) m).2 ∧
      (t.step (perform count) m).1.count .mutex = (m.count .mutex - 1).bmod (2 ^ 32)) := by
  cases outside with
  | comes => exact .inl ⟨.locks, rfl⟩
  | locks =>
    simp only [Thread.step, mutexLock]
    split
    · exact .inl ⟨.locks, rfl⟩
    · exact .inl ⟨.tests, rfl⟩
  | tests =>
    simp only [Thread.step]
    split
    · exact .inl ⟨.unlocks, rfl⟩
    · exact .inl ⟨.takes, rfl⟩
  | unlocks => exact .inl ⟨.locks, rfl⟩
  | takes => exact .inr ⟨rfl, .leaves, by rw [Thread.step, change_count, if_pos rfl]; rfl⟩

omit [DecidableEq ι] in
theorem Outside.room {x : State ι Sem Action Counters} {i : ι}
    (outside : Outside after (x.threads i)) : x.HasRoom i := by
  unfold State.HasRoom
  generalize x.threads i = t at outside ⊢
  cases outside <;> trivial

theorem Inside.step (inside : Inside after t) (none : m.count .mutex ≤ 0) :
    Inside after (t.step (perform count) m).2 ∧
      (t.step (perform count) m).1.count .mutex = m.count .mutex := by
  cases inside with
  | leaves => exact ⟨.adds, rfl⟩
  | adds => exact ⟨.sets (m.data.total + 1), rfl⟩
  | sets v => exact ⟨.arrives, rfl⟩
  | arrives =>
    simp only [Thread.step, perform]
    split
    · exact ⟨.resets, trivial⟩
    · exact ⟨.comes _, trivial⟩
  | resets => exact ⟨.comes _, rfl⟩
  | comes front => exact ⟨.locks front, rfl⟩
  | locks front =>
    simp only [Thread.step, mutexLock]
    split
    · exact ⟨.locks front, rfl⟩
    · exact ⟨.tests front, rfl⟩
  | tests front =>
    simp only [Thread.step, if_pos none]
    exact ⟨.unlocks front, trivial⟩
  | unlocks front => exact ⟨.locks front, rfl⟩

omit [DecidableEq ι] in
theorem Inside.room {x : State ι Sem Action Counters} {i : ι}
    (inside : Inside after (x.threads i)) : x.HasRoom i := by
  unfold State.HasRoom
  generalize x.threads i = t at inside ⊢
  cases inside <;> trivial

/-- Either the token is there and all threads are outside, or one thread has it and waits. -/
structure Jammed (later : ι → List (Call Sem Action)) (x : State ι Sem Action Counters) :
    Prop where
  guarded : Guarded tokens x
  token : (x.shared.count .mutex = 1 ∧ ∀ i, Outside (later i) (x.threads i)) ∨
    (x.shared.count .mutex = 0 ∧ ∃ k, Inside (later k) (x.threads k) ∧
      ∀ i, i ≠ k → Outside (later i) (x.threads i))

theorem Jammed.step {later : ι → List (Call Sem Action)} {x : State ι Sem Action Counters}
    (jammed : Jammed later x) (i : ι) : Jammed later (x.step (perform count) i) := by
  -- nobody is about to signal
  have room : x.HasRoom i := by
    rcases jammed.token with ⟨-, outside⟩ | ⟨-, k, inside, outside⟩
    · exact (outside i).room
    · by_cases here : i = k
      · subst here
        exact inside.room
      · exact (outside i here).room
  refine ⟨jammed.guarded.step room, ?_⟩
  have others {j : ι} (other : j ≠ i) : (x.step (perform count) i).threads j = x.threads j :=
    Function.update_of_ne other _ _
  have own : (x.step (perform count) i).threads i =
      ((x.threads i).step (perform count) x.shared).2 := Function.update_self _ _ _
  rcases jammed.token with ⟨one, outside⟩ | ⟨zero, k, inside, outside⟩
  · rcases (outside i).step with ⟨stays, same⟩ | ⟨-, enters, less⟩
    · refine .inl ⟨same.trans one, fun j => ?_⟩
      by_cases here : j = i
      · rw [here, own]
        exact stays
      · rw [others here]
        exact outside j
    · refine .inr ⟨less.trans (by rw [one]; decide), i, by rw [own]; exact enters, fun j here => ?_⟩
      rw [others here]
      exact outside j
  · by_cases here : i = k
    · subst here
      obtain ⟨stays, same⟩ := inside.step (show x.shared.count .mutex ≤ 0 by omega)
      refine .inr ⟨same.trans zero, i, by rw [own]; exact stays, fun j other => ?_⟩
      rw [others other]
      exact outside j other
    · rcases (outside i here).step with ⟨stays, same⟩ | ⟨takes, -⟩
      · refine .inr ⟨same.trans zero, k, by rw [others (Ne.symm here)]; exact inside, ?_⟩
        intro j other
        by_cases mine : j = i
        · rw [mine, own]
          exact stays
        · rw [others mine]
          exact outside j other
      · -- a thread that takes finds a token
        have positive := jammed.guarded.enough .mutex i takes
        omega

variable (count) in
theorem Jammed.run {later : ι → List (Call Sem Action)} {x : State ι Sem Action Counters}
    (jammed : Jammed later x) (schedule : List ι) :
    Jammed later (schedule.foldl (State.step (perform count)) x) := by
  induction schedule generalizing x with
  | nil => exact jammed
  | cons i schedule ih => exact ih (jammed.step i)

theorem Outside.before (outside : Outside after t) :
    ∃ front, t.calls = front ++ .signal .mutex :: after := by
  cases outside with
  | comes => exact ⟨[.wait .mutex, .act .addTotal, .act .arrived], rfl⟩
  | locks | tests | unlocks | takes => exact ⟨[.act .addTotal, .act .arrived], rfl⟩

theorem Inside.before (inside : Inside after t) :
    ∃ front, t.calls = front ++ .signal .mutex :: after := by
  cases inside with
  | leaves | adds => exact ⟨[.act .addTotal, .act .arrived], rfl⟩
  | sets v => exact ⟨[.act (.setTotal v), .act .arrived], rfl⟩
  | arrives => exact ⟨[.act .arrived], rfl⟩
  | resets => exact ⟨.act (.setTotal 0) :: conditionBroadcast, rfl⟩
  | comes front => exact ⟨.wait .mutex :: front, rfl⟩
  | locks front | tests front | unlocks front => exact ⟨front, rfl⟩

/-- No thread ever returns from `barrier_wait`: for a barrier of any count, any threads and any
    schedule, each of them still has the last `semaphore_signal` of the call before it. -/
theorem barrier_never_opens (count : Int) (later : ι → List (Call Sem Action))
    (schedule : List ι) (i : ι) :
    ∃ front, ((schedule.foldl (State.step (perform count)) (barrierInit later)).threads i).calls =
      front ++ .signal .mutex :: later i := by
  have start : Jammed later (barrierInit later) := by
    refine ⟨start_guarded (fun s => ?_) (fun s => ?_) _ _, .inl ⟨rfl, fun _ => .comes⟩⟩
    · cases s <;> decide
    · cases s <;> decide
  rcases (start.run count schedule).token with ⟨-, outside⟩ | ⟨-, k, inside, outside⟩
  · exact (outside i).before
  · by_cases here : i = k
    · rw [here]
      exact inside.before
    · exact (outside i here).before

end Barrier
end OmenConcurrency
