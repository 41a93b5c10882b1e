import Omen.Process.SchedThread
import Omen.Process.SignalQueues

/- A thread in `sigsuspend`: the call, the check of the scheduler, the branch that resumes the
   thread and `select_signal`, each of which moves masks. The call itself leaves the thread
   running. -/
namespace OmenProcess

def Process.sigsuspend (p : Process) (thread : Nat) (mask : SigSet) : Process :=
  p.setThread thread { p.threads thread with sigsuspend_mask := mask }

def Blocks (mask : SigSet) (i : Nat) : Prop :=
  i ≠ sigKill ∧ i ≠ sigStop ∧ mask.getLsbD i = true

def Process.Pending (p : Process) (i : Nat) : Prop := 1 ≤ i ∧ i < nsig ∧ p.signal_queue i ≠ 0

/-- What is asked of a thread that has called `sigsuspend`: when `sched_thread` lets it run, the
    signal that it gets is one that the mask of the call does not block, and then it has its
    mask of before the call. -/
def Table.SuspendsRightly (s : Table) (slot thread : Nat) (mask : SigSet) : Prop :=
  ∀ p', ((s.process_list slot).sigsuspend thread mask).Chosen p' thread →
    ∃ i s', (s.setProcess slot p').selectSignal slot thread = some (some i, s') ∧
      (s.process_list slot).Pending i ∧ ¬ Blocks mask i ∧
      ((s'.process_list slot).threads thread).sigprocmask =
        ((s.process_list slot).threads thread).sigprocmask

def Process.Lowest (p : Process) (mask : SigSet) (i : Nat) : Prop :=
  (p.Pending i ∧ mask &&& sigBit i = 0) ∧ ∀ j < i, p.Pending j → mask &&& sigBit j ≠ 0

def Process.LowestIn (p : Process) (mask : SigSet) (i : Nat) : Prop :=
  (p.Pending i ∧ mask &&& sigBit i ≠ 0) ∧ ∀ j < i, p.Pending j → mask &&& sigBit j = 0

/-- A thread that goes on with the masks it has gets a signal that the mask of the call does not
    block, by its own mask or as one left in `unsuspend_signal`. -/
def Process.SelectsWell (p : Process) (t : Thread) (mask : SigSet) : Prop :=
  if t.unsuspend_signal = 0 then ∃ i, p.Lowest t.sigprocmask i ∧ ¬ Blocks mask i
  else p.Pending t.unsuspend_signal ∧ ¬ Blocks mask t.unsuspend_signal ∧ mask = t.sigprocmask

/-- The threads of which the property holds: one that can run gets a signal by itself; a sleeper
    must not be resumed by a signal of its own mask other than the two that end or stop it, and
    when these two resume it as the only ones, the masks must be the same. -/
def Process.SuspendsWell (p : Process) (thread : Nat) (mask : SigSet) : Prop :=
  let t := p.threads thread
  (t.canRun = true → p.SelectsWell t mask) ∧
  (t.status = .interruptibleSleep → mask ≠ 0 →
    (∀ i, p.LowestIn t.sigprocmask i → (i = sigKill ∨ i = sigStop) ∧ p.SelectsWell t mask) ∧
    ((∀ i, p.Pending i → t.sigprocmask &&& sigBit i = 0) →
      p.Pending sigKill ∨ p.Pending sigStop → mask = t.sigprocmask))

section Selection
variable {s : Table} {p p' : Process} {slot thread i : Nat} {mask before : SigSet}

def Table.Delivers (s : Table) (slot thread : Nat) (mask before : SigSet) : Prop :=
  ∃ i s', s.selectSignal slot thread = some (some i, s') ∧ (s.process_list slot).Pending i ∧
    ¬ Blocks mask i ∧ ((s'.process_list slot).threads thread).sigprocmask = before

theorem first_pending {test : Nat → Bool} :
    (List.range' 1 (nsig - 1)).find? (fun i => p.signal_queue i != 0 && test i) = some i ↔
      (p.Pending i ∧ test i = true) ∧ ∀ j < i, p.Pending j → test j = false := by
  rw [SignalQueues.first_signal, Bool.and_eq_true, bne_iff_ne]
  unfold Process.Pending
  constructor
  · rintro ⟨⟨low, high, pending, passes⟩, least⟩
    refine ⟨⟨⟨low, high, pending⟩, passes⟩, ?_⟩
    rintro j less ⟨first, -, waits⟩
    have fails := least j less first
    rwa [bne_iff_ne.mpr waits, Bool.true_and] at fails
  · rintro ⟨⟨⟨low, high, pending⟩, passes⟩, least⟩
    refine ⟨⟨low, high, pending, passes⟩, ?_⟩
    intro j less first
    by_cases waits : p.signal_queue j = 0
    · rw [waits]
      rfl
    · rw [least j less ⟨first, by omega, waits⟩, Bool.and_false]

theorem no_pending {test : Nat → Bool} :
    (List.range' 1 (nsig - 1)).find? (fun i => p.signal_queue i != 0 && test i) = none ↔
      ∀ i, p.Pending i → test i = false := by
  rw [SignalQueues.no_signal]
  constructor
  · rintro none i ⟨low, high, pending⟩
    have fails := none i low high
    rwa [bne_iff_ne.mpr pending, Bool.true_and] at fails
  · intro none i low high
    by_cases pending : p.signal_queue i = 0
    · rw [pending]
      rfl
    · rw [none i ⟨low, high, pending⟩, Bool.and_false]

theorem lowest_iff : (List.range' 1 (nsig - 1)).find? (fun i =>
      p.signal_queue i != 0 && mask &&& sigBit i == 0) = some i ↔ p.Lowest mask i := by
  rw [first_pending]
  simp only [beq_iff_eq, beq_eq_false_iff_ne]
  rfl

theorem lowestIn_iff : (List.range' 1 (nsig - 1)).find? (fun i =>
      p.signal_queue i != 0 && mask &&& sigBit i != 0) = some i ↔ p.LowestIn mask i := by
  rw [first_pending]
  simp only [bne_iff_ne, bne_eq_false_iff_eq]
  rfl

theorem lowestIn_none : (List.range' 1 (nsig - 1)).find? (fun i =>
      p.signal_queue i != 0 && mask &&& sigBit i != 0) = none ↔
    ∀ i, p.Pending i → mask &&& sigBit i = 0 := by
  rw [no_pending]
  simp only [bne_eq_false_iff_eq]

theorem selectSignal_plain
    (plain : ((s.process_list slot).threads thread).unsuspend_signal = 0) :
    s.Delivers slot thread mask before ↔
      ((s.process_list slot).threads thread).sigprocmask = before ∧
      ∃ i, (s.process_list slot).Lowest ((s.process_list slot).threads thread).sigprocmask i ∧
        ¬ Blocks mask i := by
  unfold Table.Delivers Table.selectSignal
  dsimp only
  rw [if_neg (not_not.mpr plain)]
  simp only [← lowest_iff]
  cases found : (List.range' 1 (nsig - 1)).find? (fun i =>
      (s.process_list slot).signal_queue i != 0 &&
        ((s.process_list slot).threads thread).sigprocmask &&& sigBit i == 0) with
  | none =>
    refine iff_of_false ?_ ?_
    · rintro ⟨i, s', selected, -⟩
      cases selected
    · rintro ⟨-, i, lowest, -⟩
      cases lowest
  | some k =>
    have pending := (lowest_iff.mp found).1.1
    constructor
    · rintro ⟨i, s', selected, -, free, same⟩
      cases selected
      rw [Table.setProcess_self] at same
      exact ⟨same, k, rfl, free⟩
    · rintro ⟨same, i, lowest, free⟩
      cases lowest
      refine ⟨k, _, rfl, pending, free, ?_⟩
      rw [Table.setProcess_self]
      exact same

theorem selectSignal_ending
    (ends : ((s.process_list slot).threads thread).unsuspend_signal ≠ 0) :
    s.Delivers slot thread mask before ↔
      ((s.process_list slot).threads thread).sigsuspend_mask = before ∧
      (s.process_list slot).Pending ((s.process_list slot).threads thread).unsuspend_signal ∧
      ¬ Blocks mask ((s.process_list slot).threads thread).unsuspend_signal := by
  unfold Table.Delivers Table.selectSignal
  dsimp only
  rw [if_pos ends]
  split
  · rename_i empty
    refine iff_of_false ?_ fun holds => holds.2.1.2.2 empty
    rintro ⟨i, s', selected, -⟩
    cases selected
  · constructor
    · rintro ⟨i, s', selected, pending, free, same⟩
      cases selected
      rw [Table.setProcess_self, Table.threads_self] at same
      exact ⟨same, pending, free⟩
    · rintro ⟨same, pending, free⟩
      refine ⟨_, _, rfl, pending, free, ?_⟩
      rw [Table.setProcess_self, Table.threads_self]
      exact same

theorem delivers_current (s : Table) (slot thread : Nat) (mask before : SigSet) (t : Thread) :
    (s.setProcess slot
        (((s.process_list slot).sigsuspend thread mask).makeCurrent thread t)).Delivers
      slot thread mask before ↔
    if t.unsuspend_signal = 0 then
      t.sigprocmask = before ∧
        ∃ i, (s.process_list slot).Lowest t.sigprocmask i ∧ ¬ Blocks mask i
    else
      t.sigsuspend_mask = before ∧ (s.process_list slot).Pending t.unsuspend_signal ∧
        ¬ Blocks mask t.unsuspend_signal := by
  have thread_eq : (((s.process_list slot).sigsuspend thread mask).makeCurrent thread t).threads
      thread = { t with status := .running } := Table.threads_self ..
  split
  · rename_i plain
    rw [selectSignal_plain (by rw [Table.setProcess_self, thread_eq]; exact plain),
      Table.setProcess_self, thread_eq]
    exact Iff.rfl
  · rename_i ends
    rw [selectSignal_ending (by rw [Table.setProcess_self, thread_eq]; exact ends),
      Table.setProcess_self, thread_eq]
    exact Iff.rfl

theorem delivers_kept {t : Thread} (own : t.sigsuspend_mask = mask) (s : Table) :
    (s.setProcess slot
        (((s.process_list slot).sigsuspend thread mask).makeCurrent thread t)).Delivers
      slot thread mask t.sigprocmask ↔ (s.process_list slot).SelectsWell t mask := by
  rw [delivers_current, own]
  unfold Process.SelectsWell
  split
  · exact and_iff_right rfl
  · exact ⟨fun ⟨same, pending, free⟩ => ⟨pending, free, same⟩,
      fun ⟨pending, free, same⟩ => ⟨same, pending, free⟩⟩

theorem suspendsRightly_iff : s.SuspendsRightly slot thread mask ↔
    ∀ t, ((s.process_list slot).sigsuspend thread mask).Chosen
        (((s.process_list slot).sigsuspend thread mask).makeCurrent thread t) thread →
      (s.setProcess slot
        (((s.process_list slot).sigsuspend thread mask).makeCurrent thread t)).Delivers slot thread
        mask ((s.process_list slot).threads thread).sigprocmask := by
  constructor
  · intro rightly t chosen
    obtain ⟨i, s', selected, pending, free, same⟩ := rightly _ chosen
    refine ⟨i, s', selected, ?_, free, same⟩
    rw [Table.setProcess_self]
    exact pending
  · rintro delivers p' chosen
    have shape : ∃ t, p' =
        ((s.process_list slot).sigsuspend thread mask).makeCurrent thread t := by
      rcases chosen with ⟨-, current⟩ | ⟨t, -, -, current⟩
      · exact ⟨_, current⟩
      · exact ⟨t, current⟩
    obtain ⟨t, rfl⟩ := shape
    obtain ⟨i, s', selected, pending, free, same⟩ := delivers t chosen
    rw [Table.setProcess_self] at pending
    exact ⟨i, s', selected, pending, free, same⟩

end Selection

section Suspension
variable {p : Process} {t : Thread} {thread i : Nat} {mask : SigSet}

theorem resumeThread_some (asleep : t.status = .interruptibleSleep)
    (suspended : t.sigsuspend_mask ≠ 0) :
    (∃ i, p.LowestIn t.sigprocmask i ∧
      ((i = sigKill ∨ i = sigStop) ∧
        (∃ status, resumeThread p t = some { t with status := status }) ∨
        i ≠ sigKill ∧ i ≠ sigStop ∧ resumeThread p t = some { t with
          status := .ready
          sigprocmask := t.sigsuspend_mask
          sigsuspend_mask := 0
          unsuspend_signal := i })) ∨
    (∀ i, p.Pending i → t.sigprocmask &&& sigBit i = 0) ∧
      ((∃ i status, (i = sigKill ∨ i = sigStop) ∧ p.Pending i ∧
          resumeThread p t = some { t with status := status, unsuspend_signal := i }) ∨
        ¬ p.Pending sigKill ∧ ¬ p.Pending sigStop ∧ resumeThread p t = none) := by
  unfold resumeThread schedSigsuspendCheck
  rw [if_pos asleep, if_pos suspended]
  cases found : (List.range' 1 (nsig - 1)).find? (fun i =>
      p.signal_queue i != 0 && t.sigprocmask &&& sigBit i != 0) with
  | some i =>
    refine Or.inl ⟨i, lowestIn_iff.mp found, ?_⟩
    dsimp only
    by_cases kill : i = sigKill
    · rw [if_pos kill]
      exact Or.inl ⟨Or.inl kill, _, rfl⟩
    · by_cases stop : i = sigStop
      · rw [if_neg kill, if_pos stop]
        exact Or.inl ⟨Or.inr stop, _, rfl⟩
      · rw [if_neg kill, if_neg stop]
        exact Or.inr ⟨kill, stop, rfl⟩
  | none =>
    refine Or.inr ⟨lowestIn_none.mp found, ?_⟩
    dsimp only
    by_cases kill : p.signal_queue sigKill = 0
    · rw [if_neg (not_not.mpr kill)]
      by_cases stop : p.signal_queue sigStop = 0
      · rw [if_neg (not_not.mpr stop)]
        exact Or.inr ⟨fun pending => pending.2.2 kill, fun pending => pending.2.2 stop, rfl⟩
      · rw [if_pos stop]
        exact Or.inl ⟨sigStop, _, Or.inr rfl, ⟨by decide, by decide, stop⟩, rfl⟩
    · rw [if_pos kill]
      exact Or.inl ⟨sigKill, _, Or.inl rfl, ⟨by decide, by decide, kill⟩, rfl⟩

theorem lowestIn_unique {j : Nat} (first : p.LowestIn mask i) (second : p.LowestIn mask j) :
    i = j := by
  rcases Nat.lt_trichotomy i j with less | same | more
  · exact absurd (second.2 i less first.1.1) first.1.2
  · exact same
  · exact absurd (first.2 j more second.1.1) second.1.2

theorem sigsuspend_thread (p : Process) (thread : Nat) (mask : SigSet) :
    (p.sigsuspend thread mask).threads thread =
      { p.threads thread with sigsuspend_mask := mask } := Table.threads_self ..

theorem rightly_running {s : Table} {slot : Nat}
    (runs : ((s.process_list slot).threads thread).canRun = true) :
    s.SuspendsRightly slot thread mask ↔
      (s.process_list slot).SelectsWell ((s.process_list slot).threads thread) mask := by
  have same := @delivers_kept slot thread mask
    { (s.process_list slot).threads thread with sigsuspend_mask := mask } rfl s
  rw [suspendsRightly_iff]
  constructor
  · intro delivers
    refine same.mp (delivers _ (Or.inl ⟨?_, ?_⟩))
    · rw [sigsuspend_thread]
      exact runs
    · rw [sigsuspend_thread]
  · rintro well t (⟨-, current⟩ | ⟨t', stuck, -⟩)
    · rw [current, sigsuspend_thread]
      exact same.mpr well
    · rw [sigsuspend_thread] at stuck
      exact absurd (runs.symm.trans stuck) (by decide)

theorem rightly_resumed {s : Table} {slot : Nat}
    (stuck : ((s.process_list slot).threads thread).canRun = false) :
    s.SuspendsRightly slot thread mask ↔
      ∀ t, resumeThread ((s.process_list slot).sigsuspend thread mask)
          { (s.process_list slot).threads thread with sigsuspend_mask := mask } = some t →
        (s.setProcess slot
          (((s.process_list slot).sigsuspend thread mask).makeCurrent thread t)).Delivers
            slot thread
          mask ((s.process_list slot).threads thread).sigprocmask := by
  rw [suspendsRightly_iff]
  constructor
  · intro delivers t resumed
    refine delivers t (Or.inr ⟨t, ?_, ?_, rfl⟩)
    · rw [sigsuspend_thread]
      exact stuck
    · rw [sigsuspend_thread]
      exact resumed
  · rintro delivers t (⟨runs, -⟩ | ⟨t', -, resumed, current⟩)
    · rw [sigsuspend_thread] at runs
      exact absurd (stuck.symm.trans runs) (by decide)
    · rw [sigsuspend_thread] at resumed
      rw [current]
      exact delivers t' resumed

theorem resumed_iff {s : Table} {slot : Nat} (asleep : t.status = .interruptibleSleep)
    (suspended : mask ≠ 0) :
    (∀ t', resumeThread ((s.process_list slot).sigsuspend thread mask)
        { t with sigsuspend_mask := mask } = some t' →
      (s.setProcess slot
        (((s.process_list slot).sigsuspend thread mask).makeCurrent thread t')).Delivers slot thread
        mask t.sigprocmask) ↔
    (∀ i, (s.process_list slot).LowestIn t.sigprocmask i →
      (i = sigKill ∨ i = sigStop) ∧ (s.process_list slot).SelectsWell t mask) ∧
    ((∀ i, (s.process_list slot).Pending i → t.sigprocmask &&& sigBit i = 0) →
      (s.process_list slot).Pending sigKill ∨ (s.process_list slot).Pending sigStop →
        mask = t.sigprocmask) := by
  rcases @resumeThread_some ((s.process_list slot).sigsuspend thread mask)
      { t with sigsuspend_mask := mask } asleep suspended with
    ⟨i, lowest, ⟨deadly, status, resumed⟩ | ⟨kill, stop, resumed⟩⟩ |
    ⟨none, ⟨i, status, deadly, pending, resumed⟩ | ⟨kill, stop, resumed⟩⟩
  · -- a signal of the own mask that ends or stops the thread leaves the masks alone
    have own : (s.process_list slot).LowestIn t.sigprocmask i := lowest
    have same := @delivers_kept slot thread mask
      { t with sigsuspend_mask := mask, status := status } rfl s
    rw [resumed]
    constructor
    · intro delivers
      refine ⟨fun j other => ?_, fun none => absurd (none i own.1.1) own.1.2⟩
      rw [lowestIn_unique other own]
      exact ⟨deadly, same.mp (delivers _ rfl)⟩
    · rintro ⟨well, -⟩ t' ⟨⟩
      exact same.mpr (well i own).2
  · -- any other signal of the own mask leaves the thread with an empty mask
    have own : (s.process_list slot).LowestIn t.sigprocmask i := lowest
    refine iff_of_false ?_ ?_
    · intro delivers
      have bad := (delivers_current s slot thread mask t.sigprocmask _).mp (delivers _ resumed)
      have positive : i ≠ 0 := Nat.ne_of_gt own.1.1.1
      rw [if_neg positive] at bad
      refine own.1.2 ?_
      rw [← bad.1]
      exact BitVec.zero_and
    · rintro ⟨well, -⟩
      rcases (well i own).1 with here | here
      · exact kill here
      · exact stop here
  · rw [resumed]
    have positive : i ≠ 0 := Nat.ne_of_gt pending.1
    have free : ¬ Blocks mask i := fun blocks => deadly.elim blocks.1 blocks.2.1
    constructor
    · intro delivers
      have here := (delivers_current s slot thread mask t.sigprocmask _).mp (delivers _ rfl)
      rw [if_neg positive] at here
      exact ⟨fun j lowest => absurd (none j lowest.1.1) lowest.1.2, fun _ _ => here.1⟩
    · rintro ⟨-, kept⟩ t' ⟨⟩
      refine (delivers_current s slot thread mask t.sigprocmask _).mpr ?_
      rw [if_neg positive]
      refine ⟨kept none ?_, pending, free⟩
      rcases deadly with rfl | rfl
      · exact Or.inl pending
      · exact Or.inr pending
  · rw [resumed]
    refine iff_of_true (fun t' found => by cases found) ⟨?_, ?_⟩
    · exact fun j lowest => absurd (none j lowest.1.1) lowest.1.2
    · rintro - (pending | pending)
      · exact absurd pending kill
      · exact absurd pending stop

/-- `sigsuspend` waits for the right signal and gives the mask back for these threads only. -/
theorem sigsuspend_restores_iff (s : Table) (slot thread : Nat) (mask : SigSet) :
    s.SuspendsRightly slot thread mask ↔ (s.process_list slot).SuspendsWell thread mask := by
  unfold Process.SuspendsWell
  dsimp only
  generalize own : (s.process_list slot).threads thread = t
  cases runs : t.canRun with
  | true =>
    rw [rightly_running (own ▸ runs), own]
    have awake : t.status ≠ .interruptibleSleep := by
      intro asleep
      unfold Thread.canRun at runs
      rw [asleep] at runs
      exact absurd runs (by simp)
    exact ⟨fun well => ⟨fun _ => well, fun asleep => absurd asleep awake⟩, fun both => both.1 rfl⟩
  | false =>
    rw [rightly_resumed (own ▸ runs), own]
    refine Iff.trans ?_ (and_iff_right (fun absurd => by cases absurd)).symm
    by_cases asleep : t.status = .interruptibleSleep
    · by_cases suspended : mask = 0
      · have none : resumeThread ((s.process_list slot).sigsuspend thread mask)
            { t with sigsuspend_mask := mask } = none := by
          unfold resumeThread schedSigsuspendCheck
          rw [if_pos asleep, if_neg (not_not.mpr suspended)]
        rw [none]
        exact iff_of_true (fun t found => by cases found) fun _ other => absurd suspended other
      · rw [resumed_iff asleep suspended]
        exact ⟨fun both _ _ => both, fun both => both asleep suspended⟩
    · have none : resumeThread ((s.process_list slot).sigsuspend thread mask)
          { t with sigsuspend_mask := mask } = none := by
        unfold resumeThread
        rw [if_neg asleep]
      rw [none]
      exact iff_of_true (fun t found => by cases found) fun here => absurd here asleep

/-- A process whose only thread has signal 10 in its mask. -/
def suspender (status : ThreadStatus) (pending : Nat) : Table where
  process_list _ :=
    { threads := fun _ => { status := status, sigprocmask := 0x400 }
      thread_count := 1
      signal_queue := fun i => if i = pending then 1 else 0 }
  process_count := 1
  current_process := some 0

/-- The call leaves the thread running with no signal at all; and a sleeper is resumed by a
    signal that both masks block, and then has no mask. -/
theorem sigsuspend_wakes_for_blocked :
    (((suspender .running 0).process_list 0).sigsuspend 0 0x400).runnable 0 = true ∧
    (∀ i, ¬ ((suspender .running 0).process_list 0).Pending i) ∧
    ¬ (suspender .running 0).SuspendsRightly 0 0 0x400 ∧
    Blocks 0x400 10 ∧
    (((suspender .interruptibleSleep 10).setProcess 0
        ((((suspender .interruptibleSleep 10).process_list 0).sigsuspend 0 0x400).makeCurrent 0
          { status := .ready, sigprocmask := 0x400, unsuspend_signal := 10 })).selectSignal 0 0).map
      (fun r => (r.1, ((r.2.process_list 0).threads 0).sigprocmask)) = some (some 10, 0) ∧
    ¬ (suspender .interruptibleSleep 10).SuspendsRightly 0 0 0x400 := by
  have none : ∀ i, ¬ ((suspender .running 0).process_list 0).Pending i := by
    rintro i ⟨low, -, pending⟩
    exact pending (if_neg (by omega))
  refine ⟨rfl, none, ?_, ⟨by decide, by decide, by decide⟩, by decide +kernel, ?_⟩
  · intro rightly
    obtain ⟨i, s', -, pending, -⟩ := rightly _ (Or.inl ⟨rfl, rfl⟩)
    exact none i pending
  · intro rightly
    obtain ⟨i, s', selected, -, free, -⟩ := rightly _ (Or.inr ⟨_, rfl, rfl, rfl⟩)
    have ten : i = 10 := by
      have same := congrArg (Option.map Prod.fst) selected
      exact (Option.some.inj (Option.some.inj same)).symm
    subst ten
    exact free ⟨by decide, by decide, by decide⟩

end Suspension

end OmenProcess
