import Omen.Process.Scheduler

/- What `sched_thread` looks at: with one thread that thread, with more of them all but the
   current one. -/
namespace OmenProcess

/-- A thread that is ready or running and does not wait, or a sleeper that a pending signal
    resumes. -/
def Process.runnable (p : Process) (i : Nat) : Bool :=
  (p.threads i).canRun || (p.threads i).status == .interruptibleSleep &&
    (schedSigsuspendCheck p (p.threads i)).1.isSome

def Process.Examined (p : Process) (i : Nat) : Prop :=
  i < p.thread_count ∧ (p.thread_count = 1 ∨ i ≠ p.current_thread)

def Process.Chosen (p p' : Process) (i : Nat) : Prop :=
  (p.threads i).canRun = true ∧ p' = p.makeCurrent i (p.threads i) ∨
    ∃ t, (p.threads i).canRun = false ∧ resumeThread p (p.threads i) = some t ∧
      p' = p.makeCurrent i t

section Loop
variable {p p' : Process} {i k rounds : Nat}

theorem resumeThread_isSome (p : Process) (t : Thread) :
    (resumeThread p t).isSome =
      (t.status == .interruptibleSleep && (schedSigsuspendCheck p t).1.isSome) := by
  unfold resumeThread
  by_cases asleep : t.status = .interruptibleSleep
  · rw [if_pos asleep, asleep]
    rcases schedSigsuspendCheck p t with ⟨_ | signal, t'⟩
    · rfl
    · dsimp only
      split
      · rfl
      · split <;> rfl
  · rw [if_neg asleep, beq_eq_false_iff_ne.mpr asleep]
    rfl

def Process.after (p : Process) (k : Nat) : Nat := (p.current_thread + k) % p.thread_count

theorem nextThread_after (valid : p.current_thread < p.thread_count) :
    p.nextThread (p.after k) = p.after (k + 1) := by
  have positive : 0 < p.thread_count := by omega
  have small : p.after k < p.thread_count := Nat.mod_lt _ positive
  have step : p.after (k + 1) = (p.after k + 1) % p.thread_count := by
    unfold Process.after
    rw [Nat.mod_add_mod, Nat.add_assoc]
  rw [step]
  unfold Process.nextThread
  split
  · have last : p.after k + 1 = p.thread_count := by omega
    rw [last, Nat.mod_self]
  · rw [Nat.mod_eq_of_lt (by omega)]

theorem after_value (valid : p.current_thread < p.thread_count) (short : k ≤ p.thread_count) :
    p.after k = if p.current_thread + k < p.thread_count then p.current_thread + k
      else p.current_thread + k - p.thread_count := by
  unfold Process.after
  split
  · rename_i before
    exact Nat.mod_eq_of_lt before
  · rw [Nat.mod_eq_sub_mod (by omega), Nat.mod_eq_of_lt (by omega)]

theorem after_single (single : p.thread_count = 1) : p.after k = 0 := by
  unfold Process.after
  rw [single, Nat.mod_one]

def Process.others (p : Process) : Nat := max 1 (p.thread_count - 1)

theorem after_current (valid : p.current_thread < p.thread_count) (first : 1 ≤ k)
    (last : k ≤ p.others) : p.after (k + 1) = p.current_thread ↔ k = p.others := by
  unfold Process.others at *
  by_cases single : p.thread_count = 1
  · rw [after_single single, single]
    rw [single] at last
    omega
  · rw [after_value valid (by omega)]
    split <;> omega

theorem examined_iff (valid : p.current_thread < p.thread_count) :
    p.Examined i ↔ ∃ k, 1 ≤ k ∧ k ≤ p.others ∧ p.after k = i := by
  unfold Process.Examined Process.others
  by_cases single : p.thread_count = 1
  · constructor
    · rintro ⟨small, -⟩
      exact ⟨1, Nat.le_refl 1, by omega, by rw [after_single single]; omega⟩
    · rintro ⟨k, -, -, rfl⟩
      exact ⟨by rw [after_single single]; omega, Or.inl single⟩
  · constructor
    · rintro ⟨small, one | other⟩
      · exact absurd one single
      · by_cases later : p.current_thread < i
        · refine ⟨i - p.current_thread, by omega, by omega, ?_⟩
          rw [after_value valid (by omega), if_pos (by omega)]
          omega
        · refine ⟨i + p.thread_count - p.current_thread, by omega, by omega, ?_⟩
          rw [after_value valid (by omega), if_neg (by omega)]
          omega
    · rintro ⟨k, first, last, rfl⟩
      rw [after_value valid (by omega)]
      split <;> omega

theorem runnable_eq (p : Process) (i : Nat) :
    p.runnable i = ((p.threads i).canRun || (resumeThread p (p.threads i)).isSome) := by
  rw [resumeThread_isSome]
  rfl

theorem schedThreadLoop_spec (valid : p.current_thread < p.thread_count) (first : 1 ≤ k)
    (last : k ≤ p.others) (enough : p.others < k + rounds) :
    (∃ j p', k ≤ j ∧ j ≤ p.others ∧ p.runnable (p.after j) = true ∧ p.Chosen p' (p.after j) ∧
      schedThreadLoop rounds p (p.after k) = some (true, p')) ∨
    (∀ j, k ≤ j → j ≤ p.others → p.runnable (p.after j) = false) ∧
      schedThreadLoop rounds p (p.after k) = some (false, p) := by
  induction rounds generalizing k with
  | zero => omega
  | succ rounds ih =>
    rw [schedThreadLoop]
    dsimp only
    have here := runnable_eq p (p.after k)
    cases ready : (p.threads (p.after k)).canRun with
    | true =>
      rw [ready, Bool.true_or] at here
      exact Or.inl ⟨k, _, Nat.le_refl k, last, here, Or.inl ⟨ready, rfl⟩, rfl⟩
    | false =>
      rw [ready, Bool.false_or] at here
      rw [if_neg (by decide)]
      cases resumed : resumeThread p (p.threads (p.after k)) with
      | some t =>
        rw [resumed] at here
        exact Or.inl ⟨k, _, Nat.le_refl k, last, here, Or.inr ⟨t, ready, resumed, rfl⟩, rfl⟩
      | none =>
        rw [resumed] at here
        dsimp only
        rw [nextThread_after valid]
        by_cases back : p.after (k + 1) = p.current_thread
        · have all := (after_current valid first last).mp back
          rw [if_pos back]
          refine Or.inr ⟨?_, rfl⟩
          intro j from_k upto
          obtain rfl : j = k := by omega
          exact here
        · have more : k ≠ p.others := fun all => back ((after_current valid first last).mpr all)
          rw [if_neg back]
          rcases ih (Nat.le_add_left 1 k) (by omega) (by omega) with
            ⟨j, p', from_k, upto, runs, chosen, found⟩ | ⟨none, found⟩
          · exact Or.inl ⟨j, p', by omega, upto, runs, chosen, found⟩
          · refine Or.inr ⟨?_, found⟩
            intro j from_k upto
            rcases Nat.eq_or_lt_of_le from_k with rfl | later
            · exact here
            · exact none j later upto

/-- `sched_thread` returns, with a thread that it has looked at and that can run, or, when
    there is none, without any change. -/
theorem schedThread_spec (valid : p.current_thread < p.thread_count) :
    (∃ i p', p.Examined i ∧ p.runnable i = true ∧ p.Chosen p' i ∧
      schedThread p = some (true, p')) ∨
    (∀ i, p.Examined i → p.runnable i = false) ∧ schedThread p = some (false, p) := by
  have current : p.after 0 = p.current_thread := Nat.mod_eq_of_lt valid
  have start : p.nextThread p.current_thread = p.after 1 := by
    rw [← current]
    exact nextThread_after valid
  have rounds : p.others < 1 + p.thread_count := by
    unfold Process.others
    omega
  have some : 1 ≤ p.others := Nat.le_max_left ..
  unfold schedThread
  rw [start]
  rcases schedThreadLoop_spec valid (Nat.le_refl 1) some rounds with
    ⟨j, p', first, last, runs, chosen, found⟩ | ⟨none, found⟩
  · have examined := (examined_iff valid).mpr ⟨j, first, last, rfl⟩
    exact Or.inl ⟨p.after j, p', examined, runs, chosen, found⟩
  · refine Or.inr ⟨?_, found⟩
    intro i examined
    obtain ⟨k, first, last, rfl⟩ := (examined_iff valid).mp examined
    exact none k first last

/-- Some thread can run, but it is the current one of several. -/
def Process.OnlyCurrent (p : Process) : Prop :=
  2 ≤ p.thread_count ∧ p.runnable p.current_thread = true ∧
    ∀ i < p.thread_count, i ≠ p.current_thread → p.runnable i = false

theorem examined_enough (valid : p.current_thread < p.thread_count) :
    ((∃ i, p.Examined i ∧ p.runnable i = true) ↔ ∃ i < p.thread_count, p.runnable i = true) ↔
      ¬ p.OnlyCurrent := by
  constructor
  · rintro same ⟨several, current, others⟩
    obtain ⟨i, ⟨small, one | other⟩, runs⟩ := same.mpr ⟨_, valid, current⟩
    · omega
    · rw [others i small other] at runs
      cases runs
  · intro more
    constructor
    · rintro ⟨i, ⟨small, -⟩, runs⟩
      exact ⟨i, small, runs⟩
    · rintro ⟨i, small, runs⟩
      by_contra none
      have unseen : ∀ j, p.Examined j → p.runnable j = false := by
        intro j examined
        by_contra other
        exact none ⟨j, examined, by simpa using other⟩
      have current : i = p.current_thread := by
        by_contra other
        rw [unseen i ⟨small, Or.inr other⟩] at runs
        cases runs
      refine more ⟨?_, current ▸ runs, fun j less other => unseen j ⟨less, Or.inr other⟩⟩
      by_contra single
      rw [unseen i ⟨small, Or.inl (by omega)⟩] at runs
      cases runs

end Loop

end OmenProcess
