import Mathlib.Data.List.Nodup
import Omen.Process.Table

/- Slots and pids over runs of creations, forks and reaps. `delete_process` leaves
   `process_count` as it is. -/
namespace OmenProcess

namespace Table

section Reading
variable (s : Table) (slot : Nat) (p : Process)

theorem setProcess_self : (s.setProcess slot p).process_list slot = p := Function.update_self ..

theorem setProcess_other {i : Nat} (other : i ≠ slot) :
    (s.setProcess slot p).process_list i = s.process_list i := Function.update_of_ne other ..

theorem setProcess_setProcess (q : Process) :
    (s.setProcess slot p).setProcess slot q = s.setProcess slot q := by
  unfold setProcess
  rw [Function.update_idem]

theorem setProcess_same : s.setProcess slot (s.process_list slot) = s := by
  unfold setProcess
  rw [Function.update_eq_self]

end Reading

def firstProcess : Process where
  threads := Function.update (fun _ => {}) 0 { status := .running }
  thread_count := 1
  nice := 10
  current_nice := 10

def startTable : Table where
  process_list := Function.update (fun _ => { pid := -1 }) 0 firstProcess
  process_count := 1
  current_process := some 0

theorem initProcess_eq : initProcess = some startTable := by
  have free : emptyTable.getFreeProcessSlot = some 0 := by decide
  have next : ({ emptyTable with process_count := 0 + 1 }.setProcess 0
      { nice := 10, current_nice := 10 }).getNextPid = 1 := by
    decide +kernel
  unfold initProcess createUserProcess
  rw [free]
  dsimp only [Option.bind_eq_bind, Option.bind_some, emptyTable] at next ⊢
  rw [next, if_neg (by decide)]
  simp [initThread, alterProcessOnExec, maxThreads, Process.setThread, setThread, setProcess,
    startTable, firstProcess]

section Counting
variable {s : Table} {slot : Nat} {p : Process}

theorem countP_range_flip {test test' : Nat → Bool} {n k : Nat} (small : k < n)
    (same : ∀ i, i ≠ k → test' i = test i) (before : test k = false) (after : test' k = true) :
    (List.range n).countP test' = (List.range n).countP test + 1 := by
  induction n with
  | zero => cases small
  | succ n ih =>
    rw [List.range_succ, List.countP_append, List.countP_append]
    by_cases last : k = n
    · subst last
      have equal : (List.range k).countP test' = (List.range k).countP test := by
        refine List.countP_congr ?_
        intro i member
        rw [same i (Nat.ne_of_lt (List.mem_range.mp member))]
      rw [equal]
      simp [before, after]
    · rw [ih (by omega)]
      simp only [List.countP_singleton, same n (Ne.symm last)]
      omega

theorem liveSlots_length (s : Table) : s.liveSlots.length = slots.countP s.live :=
  (List.countP_eq_length_filter ..).symm

theorem liveSlots_le (s : Table) : s.liveSlots.length ≤ maxProcesses := by
  have fewer := List.length_filter_le s.live slots
  rwa [slots, List.length_range] at fewer

theorem live_setProcess_other {i : Nat} (other : i ≠ slot) :
    (s.setProcess slot p).live i = s.live i := by
  unfold live
  rw [setProcess_other s slot p other]

theorem liveSlots_taken (small : slot < maxProcesses) (free : s.live slot = false)
    (used : p.pid ≠ -1) :
    (s.setProcess slot p).liveSlots.length = s.liveSlots.length + 1 := by
  rw [liveSlots_length, liveSlots_length]
  refine countP_range_flip small (fun i other => live_setProcess_other other) free ?_
  rw [live, setProcess_self]
  exact bne_iff_ne.mpr used

theorem liveSlots_freed (small : slot < maxProcesses) (used : s.live slot = true) :
    (s.deleteProcess slot).liveSlots.length + 1 = s.liveSlots.length := by
  rw [liveSlots_length, liveSlots_length]
  refine (countP_range_flip small (fun i other => ?_) ?_ used).symm
  · exact (live_setProcess_other other).symm
  · rw [live, deleteProcess, setProcess_self]
    rfl

theorem getFreeProcessSlot_some (found : s.getFreeProcessSlot = some slot) :
    slot < maxProcesses ∧ s.live slot = false := by
  have member := List.mem_of_find?_eq_some found
  have free := List.find?_some found
  rw [slots, List.mem_range] at member
  exact ⟨member, by simpa [live] using free⟩

theorem getFreeProcessSlot_none (none : s.getFreeProcessSlot = none) :
    s.liveSlots.length = maxProcesses := by
  have all : ∀ i ∈ slots, s.live i = true := by
    intro i member
    have used := List.find?_eq_none.mp none i member
    simpa [live] using used
  rw [liveSlots, List.filter_eq_self.mpr all, slots, List.length_range]

end Counting

section Searching
variable {s : Table}

theorem getNextPid_spec (s : Table) :
    (0 < s.getNextPid ∧ ∀ i < maxProcesses, (s.process_list i).pid ≠ s.getNextPid) ∨
      s.getNextPid = -1 ∧ ∀ n : Nat, 0 < n → n < maxProcesses →
        ∃ i < maxProcesses, (s.process_list i).pid = n := by
  unfold getNextPid
  split
  · rename_i npid found
    have member := List.mem_of_find?_eq_some found
    have unused := List.find?_some found
    rw [List.mem_range'_1] at member
    simp only [Bool.not_eq_true', List.any_eq_false, beq_iff_eq] at unused
    refine Or.inl ⟨by omega, fun i small => unused i (List.mem_range.mpr small)⟩
  · rename_i none
    refine Or.inr ⟨rfl, ?_⟩
    intro n positive small
    have used := List.find?_eq_none.mp none n (by rw [List.mem_range'_1]; omega)
    simp only [Bool.not_eq_true', Bool.not_eq_false, List.any_eq_true, beq_iff_eq] at used
    obtain ⟨i, member, same⟩ := used
    exact ⟨i, List.mem_range.mp member, same⟩

theorem getNextPid_found
    (few : slots.countP (fun i => decide (0 < (s.process_list i).pid)) < maxProcesses - 1) :
    0 < s.getNextPid ∧ ∀ i < maxProcesses, (s.process_list i).pid ≠ s.getNextPid := by
  refine (getNextPid_spec s).resolve_right ?_
  rintro ⟨-, used⟩
  have subset : (List.range' 1 (maxProcesses - 1)).map Int.ofNat ⊆
      (slots.filter fun i => decide (0 < (s.process_list i).pid)).map
        fun i => (s.process_list i).pid := by
    intro n member
    obtain ⟨k, inside, rfl⟩ := List.mem_map.mp member
    rw [List.mem_range'_1] at inside
    obtain ⟨i, small, same⟩ := used k (by omega) (by omega)
    refine List.mem_map.mpr ⟨i, List.mem_filter.mpr ⟨List.mem_range.mpr small, ?_⟩, same⟩
    rw [decide_eq_true_eq, same]
    omega
  have nodup : ((List.range' 1 (maxProcesses - 1)).map Int.ofNat).Nodup :=
    List.Nodup.map (fun a b same => Int.ofNat.inj same) List.nodup_range'
  have fits := nodup.length_le_of_subset subset
  rw [List.length_map, List.length_map, List.length_range', ← List.countP_eq_length_filter] at fits
  omega

end Searching

section Steps
variable {s s' : Table} {slot parent thread : Nat} {pid : Int}

theorem initThread_pid {p q : Process} (started : initThread p = some q) : q.pid = p.pid := by
  unfold initThread at started
  split at started
  · cases started
  · cases started
    rfl

theorem createUserProcess_cases (created : s.createUserProcess = some (slot, s')) :
    s.getFreeProcessSlot = some slot ∧ ∃ p : Process, p.pid ≠ -1 ∧
      p.pid = ({ s with process_count := s.process_count + 1 }.setProcess slot
        { nice := 10, current_nice := 10 }).getNextPid ∧
      s' = { s with process_count := s.process_count + 1 }.setProcess slot p := by
  unfold createUserProcess at created
  obtain ⟨found, free, created⟩ := Option.bind_eq_some_iff.mp created
  dsimp only at created
  split at created
  · cases created
  · rename_i valid
    obtain ⟨task, started, same⟩ := Option.bind_eq_some_iff.mp created
    cases same
    have same := initThread_pid started
    refine ⟨free, task, ?_, same, rfl⟩
    rw [same]
    dsimp only
    omega

def forkedProcess (s : Table) (parent thread : Nat) (pid : Int) : Process :=
  let child := { s.childOf parent thread with pid := pid }
  child.setThread 0 { child.threads 0 with status := .ready }

def forkedPid (s : Table) (parent slot : Nat) : Int :=
  ({ s with process_count := s.process_count + 1 }.setProcess slot
    (s.process_list parent)).getNextPid

theorem fork_free (room : s.process_count < maxProcesses)
    (free : s.getFreeProcessSlot = some slot) :
    s.fork parent thread = some (s.forkedPid parent slot, slot,
      { s with process_count := s.process_count + 1 }.setProcess slot
        (s.forkedProcess parent thread (s.forkedPid parent slot))) := by
  unfold fork duplicateProcess
  rw [if_neg (Nat.not_le.mpr room), free]
  dsimp only [Option.bind_eq_bind, Option.bind_some]
  unfold setThread
  rw [setProcess_setProcess, setProcess_self]
  rfl

theorem fork_cases (forked : s.fork parent thread = some (pid, slot, s')) :
    s.process_count < maxProcesses ∧ s.getFreeProcessSlot = some slot ∧
      pid = s.forkedPid parent slot ∧
      s' = { s with process_count := s.process_count + 1 }.setProcess slot
        (s.forkedProcess parent thread pid) := by
  by_cases room : s.process_count < maxProcesses
  · cases free : s.getFreeProcessSlot with
    | none =>
      unfold fork duplicateProcess at forked
      rw [if_neg (Nat.not_le.mpr room), free] at forked
      cases forked
    | some found =>
      rw [fork_free room free] at forked
      cases forked
      exact ⟨room, rfl, rfl, rfl⟩
  · unfold fork duplicateProcess at forked
    rw [if_pos (Nat.not_lt.mp room)] at forked
    cases forked

end Steps

def Unique (s : Table) : Prop :=
  ∀ i < maxProcesses, ∀ j < maxProcesses, s.live i = true →
    (s.process_list i).pid = (s.process_list j).pid → i = j

structure Sound (s : Table) : Prop where
  unique : s.Unique
  natural : ∀ i < maxProcesses, s.live i = true → 0 ≤ (s.process_list i).pid
  counted : s.liveSlots.length ≤ s.process_count
  first : (∃ i < maxProcesses, (s.process_list i).pid = 0) ∨ s.liveSlots.length < s.process_count

section Soundness
variable {s s' : Table} {slot parent thread : Nat} {pid : Int} {p : Process}

theorem live_iff {i : Nat} : s.live i = true ↔ (s.process_list i).pid ≠ -1 := bne_iff_ne

theorem taken_counts (small : slot < maxProcesses) (unused : s.live slot = false)
    (used : p.pid ≠ -1) :
    ({ s with process_count := s.process_count + 1 }.setProcess slot p).process_count +
        s.liveSlots.length =
      s.process_count +
        ({ s with process_count := s.process_count + 1 }.setProcess slot p).liveSlots.length := by
  have count :
      ({ s with process_count := s.process_count + 1 }.setProcess slot p).liveSlots.length =
      s.liveSlots.length + 1 := liveSlots_taken small unused used
  rw [count]
  exact Nat.add_right_comm s.process_count 1 s.liveSlots.length

theorem Sound.taken (sound : s.Sound) (free : s.getFreeProcessSlot = some slot)
    (positive : 0 < p.pid)
    (fresh : ∀ i < maxProcesses, (s.process_list i).pid ≠ p.pid) :
    Sound ({ s with process_count := s.process_count + 1 }.setProcess slot p) := by
  obtain ⟨small, unused⟩ := getFreeProcessSlot_some free
  have count := taken_counts small unused (show p.pid ≠ -1 by omega)
  have others : ∀ i, i ≠ slot →
      ({ s with process_count := s.process_count + 1 }.setProcess slot p).process_list i =
        s.process_list i := fun i other => setProcess_other _ slot p other
  refine ⟨?_, ?_, ?_, ?_⟩
  · intro i first j second used same
    by_cases mine : i = slot
    · by_cases its : j = slot
      · rw [mine, its]
      · rw [mine, setProcess_self, others j its] at same
        exact absurd same.symm (fresh j second)
    · by_cases its : j = slot
      · rw [its, setProcess_self, others i mine] at same
        exact absurd same (fresh i first)
      · rw [others i mine, others j its] at same
        rw [live_setProcess_other mine] at used
        exact sound.unique i first j second used same
  · intro i first used
    by_cases mine : i = slot
    · rw [mine, setProcess_self]
      omega
    · rw [others i mine]
      rw [live_setProcess_other mine] at used
      exact sound.natural i first used
  · have counted := sound.counted
    omega
  · rcases sound.first with ⟨i, first, zero⟩ | fewer
    · refine Or.inl ⟨i, first, ?_⟩
      rw [others i, zero]
      rintro rfl
      rw [live, zero] at unused
      cases unused
    · exact Or.inr (by omega)

theorem Sound.freed (sound : s.Sound) (small : slot < maxProcesses) (used : s.live slot = true) :
    (s.deleteProcess slot).Sound := by
  have count := liveSlots_freed small used
  have others : ∀ i, (s.deleteProcess slot).live i = true →
      i ≠ slot ∧ s.live i = true ∧
        (s.deleteProcess slot).process_list i = s.process_list i := by
    intro i used
    have other : i ≠ slot := by
      rintro rfl
      rw [live, deleteProcess, setProcess_self] at used
      cases used
    refine ⟨other, ?_, setProcess_other s slot _ other⟩
    rwa [deleteProcess, live_setProcess_other other] at used
  have counted := sound.counted
  have same_count : (s.deleteProcess slot).process_count = s.process_count := rfl
  refine ⟨?_, ?_, by omega, Or.inr (by omega)⟩
  · intro i first j second live same
    obtain ⟨-, was, kept⟩ := others i live
    have live' : (s.deleteProcess slot).live j = true := by
      rw [live_iff, ← same]
      exact live_iff.mp live
    obtain ⟨-, -, kept'⟩ := others j live'
    rw [kept, kept'] at same
    exact sound.unique i first j second was same
  · intro i first live
    obtain ⟨-, was, kept⟩ := others i live
    rw [kept]
    exact sound.natural i first was

theorem getNextPid_congr {t : Table}
    (same : ∀ n : Nat, (∃ i < maxProcesses, (t.process_list i).pid = n) ↔
      ∃ i < maxProcesses, (s.process_list i).pid = n) : t.getNextPid = s.getNextPid := by
  unfold getNextPid
  have tests : (fun npid : Nat => !slots.any fun i => (t.process_list i).pid == npid) =
      fun npid : Nat => !slots.any fun i => (s.process_list i).pid == npid := by
    funext n
    congr 1
    rw [Bool.eq_iff_iff]
    simpa [slots] using same n
  rw [tests]

theorem forkedPid_count (s : Table) (parent slot count : Nat) :
    { s with process_count := count }.forkedPid parent slot = s.forkedPid parent slot :=
  getNextPid_congr fun _ => Iff.rfl

theorem Sound.getNextPid_fresh (sound : s.Sound) (room : s.process_count < maxProcesses)
    (free : s.getFreeProcessSlot = some slot) (small : parent < maxProcesses)
    (used : s.live parent = true) :
    0 < s.forkedPid parent slot ∧
      ∀ i < maxProcesses, (s.process_list i).pid ≠ s.forkedPid parent slot := by
  obtain ⟨inside, unused⟩ := getFreeProcessSlot_some free
  have apart : parent ≠ slot := by
    rintro rfl
    rw [unused] at used
    cases used
  have same : s.forkedPid parent slot = s.getNextPid := by
    refine getNextPid_congr fun n => ⟨?_, ?_⟩
    · rintro ⟨i, first, pid⟩
      by_cases mine : i = slot
      · rw [mine, setProcess_self] at pid
        exact ⟨parent, small, pid⟩
      · rw [setProcess_other _ _ _ mine] at pid
        exact ⟨i, first, pid⟩
    · rintro ⟨i, first, pid⟩
      have other : i ≠ slot := by
        rintro rfl
        rw [live, pid] at unused
        simp at unused
      exact ⟨i, first, by rw [setProcess_other _ _ _ other]; exact pid⟩
  rw [same]
  refine getNextPid_found ?_
  have positive : ∀ i ∈ slots, decide (0 < (s.process_list i).pid) = true → s.live i = true := by
    intro i _ positive
    rw [decide_eq_true_eq] at positive
    rw [live_iff]
    omega
  have fewer := List.countP_mono_left positive
  rw [← liveSlots_length] at fewer
  rcases sound.first with ⟨z, first, zero⟩ | less
  · have more : slots.countP (fun i => decide (0 < (s.process_list i).pid) || decide (i = z)) =
        slots.countP (fun i => decide (0 < (s.process_list i).pid)) + 1 := by
      refine countP_range_flip first ?_ ?_ ?_
      · intro i other
        simp [other]
      · simp [zero]
      · simp
    have within : slots.countP (fun i => decide (0 < (s.process_list i).pid) || decide (i = z)) ≤
        s.liveSlots.length := by
      rw [liveSlots_length]
      refine List.countP_mono_left ?_
      intro i member either
      simp only [Bool.or_eq_true, decide_eq_true_eq] at either
      rcases either with large | rfl
      · exact positive i member (decide_eq_true large)
      · rw [live_iff, zero]
        decide
    have counted := sound.counted
    omega
  · omega

end Soundness

end Table

open Table

inductive TableOp
  | create
  | fork (parent thread : Nat)
  | reap (slot : Nat)

namespace TableOp

def run (s : Table) : TableOp → Option Table
  | create => s.createUserProcess.map Prod.snd
  | fork parent thread =>
    if parent < maxProcesses ∧ s.live parent then (s.fork parent thread).map fun r => r.2.2
    else none
  | reap slot => if slot < maxProcesses ∧ s.live slot then some (s.deleteProcess slot) else none

def isReap : TableOp → Bool
  | create | fork _ _ => false
  | reap _ => true

end TableOp

def runOps (s : Table) (ops : List TableOp) : Option Table := ops.foldlM TableOp.run s

section Runs
variable {s s' : Table} {op : TableOp} {ops : List TableOp}

theorem startTable_only {i : Nat} (used : startTable.live i = true) : i = 0 := by
  by_contra other
  refine live_iff.mp used ?_
  unfold startTable
  dsimp only
  rw [Function.update_of_ne other]

theorem startTable_sound : startTable.Sound := by
  refine ⟨?_, ?_, ?_, Or.inl ⟨0, by decide, rfl⟩⟩
  · intro i _ j _ used same
    rw [startTable_only used] at same ⊢
    have used' : startTable.live j = true := by
      rw [live_iff, ← same]
      decide
    exact (startTable_only used').symm
  · intro i _ used
    rw [startTable_only used]
    decide
  · decide +kernel

/-- One step: a sound table stays sound, and the count gets ahead of the slots in use by the
    slots reaped. -/
theorem TableOp.run_sound (sound : s.Sound) (done : op.run s = some s') :
    s'.Sound ∧ s'.process_count + s.liveSlots.length =
      s.process_count + s'.liveSlots.length + op.isReap.toNat := by
  cases op with
  | create =>
    obtain ⟨⟨slot, t⟩, created, rfl⟩ := Option.map_eq_some_iff.mp done
    obtain ⟨free, p, valid, pid, rfl⟩ := createUserProcess_cases created
    obtain ⟨small, unused⟩ := getFreeProcessSlot_some free
    have search := getNextPid_spec ({ s with process_count := s.process_count + 1 }.setProcess slot
      { nice := 10, current_nice := 10 })
    rw [← pid] at search
    obtain ⟨positive, fresh⟩ := search.resolve_right fun none => valid none.1
    refine ⟨sound.taken free positive ?_, ?_⟩
    · intro i first
      by_cases mine : i = slot
      · rw [live, mine.symm] at unused
        have free_pid : (s.process_list i).pid = -1 := by simpa using unused
        omega
      · have other := fresh i first
        rwa [setProcess_other _ _ _ mine] at other
    · exact taken_counts small unused valid
  | fork parent thread =>
    rw [TableOp.run] at done
    split at done
    · rename_i caller
      obtain ⟨⟨pid, slot, t⟩, forked, rfl⟩ := Option.map_eq_some_iff.mp done
      obtain ⟨room, free, found, rfl⟩ := fork_cases forked
      obtain ⟨small, unused⟩ := getFreeProcessSlot_some free
      obtain ⟨positive, fresh⟩ := sound.getNextPid_fresh room free caller.1 caller.2
      rw [← found] at positive fresh
      exact ⟨sound.taken free positive fresh,
        taken_counts small unused (show pid ≠ -1 by omega)⟩
    · cases done
  | reap slot =>
    rw [TableOp.run] at done
    split at done
    · rename_i used
      cases done
      refine ⟨sound.freed used.1 used.2, ?_⟩
      have count := liveSlots_freed used.1 used.2
      have same : (s.deleteProcess slot).process_count = s.process_count := rfl
      have one : (TableOp.reap slot).isReap.toNat = 1 := rfl
      omega
    · cases done

theorem runOps_sound (sound : s.Sound) (done : runOps s ops = some s') :
    s'.Sound ∧ s'.process_count + s.liveSlots.length =
      s.process_count + s'.liveSlots.length + ops.countP TableOp.isReap := by
  induction ops generalizing s with
  | nil =>
    cases done
    exact ⟨sound, rfl⟩
  | cons op ops ih =>
    rw [runOps, List.foldlM_cons] at done
    obtain ⟨t, first, rest⟩ := Option.bind_eq_some_iff.mp done
    obtain ⟨sound', count⟩ := TableOp.run_sound sound first
    obtain ⟨sound'', count'⟩ := ih sound' rest
    refine ⟨sound'', ?_⟩
    rw [List.countP_cons]
    cases reap : op.isReap with
    | false =>
      rw [reap] at count
      simp only [Bool.false_eq_true, if_false, Bool.toNat_false] at count ⊢
      omega
    | true =>
      rw [reap] at count
      simp only [if_true, Bool.toNat_true] at count ⊢
      omega

theorem start_liveSlots : startTable.liveSlots.length = 1 := by decide +kernel

/-- The count is the number of slots in use, and forks fail for want of a slot only. -/
def CountsLive (s : Table) : Prop :=
  s.process_count = s.liveSlots.length ∧
    ∀ parent thread, s.fork parent thread = none → s.liveSlots.length = maxProcesses

theorem fork_none {parent thread : Nat} (refused : s.fork parent thread = none) :
    maxProcesses ≤ s.process_count ∨ s.liveSlots.length = maxProcesses := by
  unfold Table.fork duplicateProcess at refused
  split at refused
  · rename_i full
    exact Or.inl full
  · cases free : s.getFreeProcessSlot with
    | none => exact Or.inr (getFreeProcessSlot_none free)
    | some slot =>
      rw [free] at refused
      cases refused

/-- After any run from the first process on, the count is right exactly when nothing was
    reaped. -/
theorem process_count_iff (start : initProcess = some s) (done : runOps s ops = some s') :
    CountsLive s' ↔ ∀ op ∈ ops, op.isReap = false := by
  obtain rfl := Option.some.inj (initProcess_eq.symm.trans start)
  obtain ⟨-, count⟩ := runOps_sound startTable_sound done
  rw [start_liveSlots, show startTable.process_count = 1 from rfl] at count
  have none : (∀ op ∈ ops, op.isReap = false) ↔ ops.countP TableOp.isReap = 0 := by
    simp [List.countP_eq_zero]
  rw [none]
  constructor
  · intro counts
    have equal := counts.1
    omega
  · intro zero
    refine ⟨by omega, ?_⟩
    intro parent thread refused
    have most := liveSlots_le s'
    rcases fork_none refused with full | all
    · omega
    · exact all

/-- The first process and one child. -/
theorem process_count_one_fork :
    ∃ s', runOps startTable [.fork 0 0] = some s' ∧ CountsLive s' := by
  have done : (runOps startTable [.fork 0 0]).isSome := by decide +kernel
  obtain ⟨s', forked⟩ := Option.isSome_iff_exists.mp done
  exact ⟨s', forked, (process_count_iff initProcess_eq forked).mpr (by simp [TableOp.isReap])⟩

def startCounted (count : Nat) : Table := { startTable with process_count := count }

/-- A child that comes and goes leaves the count higher and everything else as it was. -/
theorem fork_and_reap {count : Nat} (room : count < maxProcesses) :
    runOps (startCounted count) [.fork 0 0, .reap 1] = some (startCounted (count + 1)) := by
  have free : (startCounted count).getFreeProcessSlot = some 1 := by
    show startTable.getFreeProcessSlot = some 1
    decide +kernel
  have found : startTable.forkedPid 0 1 = 1 := by decide +kernel
  have next : (startCounted count).forkedPid 0 1 = 1 :=
    (forkedPid_count startTable 0 1 count).trans found
  have caller : 0 < maxProcesses ∧ (startCounted count).live 0 = true := ⟨by decide, rfl⟩
  have empty : (startCounted (count + 1)).process_list 1 = { pid := -1 } := rfl
  have used : 1 < maxProcesses ∧ ((startCounted (count + 1)).setProcess 1
      ((startCounted count).forkedProcess 0 0 1)).live 1 = true := by
    refine ⟨by decide, ?_⟩
    rw [live_iff, setProcess_self]
    exact show (1 : Int) ≠ -1 by decide
  have forked : TableOp.run (startCounted count) (.fork 0 0) =
      some ((startCounted (count + 1)).setProcess 1
        ((startCounted count).forkedProcess 0 0 1)) := by
    rw [TableOp.run, if_pos caller, fork_free room free, next]
    rfl
  have reaped : TableOp.run ((startCounted (count + 1)).setProcess 1
      ((startCounted count).forkedProcess 0 0 1)) (.reap 1) = some (startCounted (count + 1)) := by
    rw [TableOp.run, if_pos used, deleteProcess, setProcess_setProcess, setProcess, ← empty,
      Function.update_eq_self]
  rw [runOps, List.foldlM_cons, forked]
  exact congrArg (Option.bind · _) reaped

/-- Forks are refused after 255 children that are all gone. -/
theorem forks_run_out :
    ∃ ops s', runOps startTable ops = some s' ∧ s'.liveSlots.length = 1 ∧
      s'.fork 0 0 = none ∧ ¬ CountsLive s' := by
  have rounds : ∀ n ≤ 255, runOps startTable (List.replicate n [.fork 0 0, .reap 1]).flatten =
      some (startCounted (n + 1)) := by
    intro n few
    induction n with
    | zero => rfl
    | succ n ih =>
      rw [List.replicate_succ', List.flatten_append, runOps, List.foldlM_append]
      show (runOps startTable _).bind _ = _
      rw [ih (by omega), Option.bind_some, List.flatten_singleton]
      exact fork_and_reap (show n + 1 < 256 by omega)
  have one : (startCounted 256).liveSlots.length = 1 := start_liveSlots
  refine ⟨_, _, rounds 255 (Nat.le_refl _), one, rfl, ?_⟩
  rintro ⟨count, -⟩
  rw [one] at count
  cases count

/-- Live pids are distinct after any run, and a fork gives its child a positive pid that no
    slot had. -/
theorem pids_unique (start : initProcess = some s) (done : runOps s ops = some s') :
    s'.Unique ∧ ∀ parent thread pid slot t, parent < maxProcesses → s'.live parent = true →
      s'.fork parent thread = some (pid, slot, t) →
      (t.process_list slot).pid = pid ∧ 0 < pid ∧
        ∀ i < maxProcesses, (s'.process_list i).pid ≠ pid := by
  obtain rfl := Option.some.inj (initProcess_eq.symm.trans start)
  obtain ⟨sound, -⟩ := runOps_sound startTable_sound done
  refine ⟨sound.unique, ?_⟩
  intro parent thread pid slot t small used forked
  obtain ⟨room, free, found, rfl⟩ := fork_cases forked
  have fresh := sound.getNextPid_fresh room free small used
  rw [← found] at fresh
  exact ⟨by rw [setProcess_self]; rfl, fresh⟩

/-- Two children, the first of them reaped: the next child can have its pid. -/
theorem pids_unique_three :
    ∃ s' slot t, runOps startTable [.fork 0 0, .fork 1 0, .reap 1] = some s' ∧ s'.Unique ∧
      s'.fork 2 0 = some (1, slot, t) ∧ ∀ i < maxProcesses, (s'.process_list i).pid ≠ 1 := by
  have done : (runOps startTable [.fork 0 0, .fork 1 0, .reap 1]).bind
      (fun s' => (s'.fork 2 0).map fun r => (s'.live 2, r.1)) = some (true, 1) := by
    decide +kernel
  obtain ⟨s', ran, rest⟩ := Option.bind_eq_some_iff.mp done
  obtain ⟨⟨pid, slot, t⟩, forked, values⟩ := Option.map_eq_some_iff.mp rest
  obtain ⟨used, rfl⟩ := Prod.mk.inj values
  obtain ⟨unique, children⟩ := pids_unique initProcess_eq ran
  exact ⟨s', slot, t, ran, unique, forked, (children 2 0 1 slot t (by decide) used forked).2.2⟩

end Runs

end OmenProcess
