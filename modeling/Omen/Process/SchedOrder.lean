import Mathlib.Data.List.Sort
import Omen.Process.Pids
import Omen.Process.SchedThread

/- The queues of `sched` and the process that it takes from them. -/
namespace OmenProcess
namespace Table

variable {s s' : Table} {queues : Nat → List Nat} {seen rest : List Nat} {slot i n ticks : Nat}
  {p' : Process}

def NoLater (s : Table) (i j : Nat) : Prop :=
  (s.process_list i).last_scheduled ≤ (s.process_list j).last_scheduled

instance : DecidableRel s.NoLater := fun _ _ => inferInstanceAs (Decidable (_ ≤ _))

instance : Std.Total s.NoLater := ⟨fun _ _ => Nat.le_total ..⟩

instance : IsTrans Nat s.NoLater := ⟨fun _ _ _ => Nat.le_trans⟩

theorem insertInPrioQueue_eq (s : Table) (queue : List Nat) (task : Nat) :
    s.insertInPrioQueue queue task =
      if max 1 s.process_count < queue.length + 1 then .error .queueOverflow
      else .ok (queue.orderedInsert s.NoLater task) := by
  have older : (fun i => decide ((s.process_list i).last_scheduled <
      (s.process_list task).last_scheduled)) = fun i => decide (¬ s.NoLater task i) := by
    funext i
    exact decide_eq_decide.mpr Nat.not_le.symm
  unfold insertInPrioQueue
  cases queue with
  | nil => exact (if_neg (by simp)).symm
  | cons first queue =>
    have test : max 1 s.process_count < (first :: queue).length + 1 ↔
        (first :: queue).length + 1 > s.process_count := by
      rw [List.length_cons]
      omega
    rw [if_neg (List.cons_ne_nil _ _), older]
    dsimp only
    rw [← List.orderedInsert_eq_take_drop, List.orderedInsert_length]
    simp only [test]

theorem agedNice_eq (nice : Int) : agedNice nice = max 0 (min (nice - 1) 19) := by
  unfold agedNice processPriorities
  split
  · omega
  · split <;> omega

theorem agedNice_level (nice : Int) : ∃ n < processPriorities, agedNice nice = n := by
  rw [agedNice_eq]
  refine ⟨(max 0 (min (nice - 1) 19)).toNat, ?_, ?_⟩
  · unfold processPriorities
    omega
  · omega

def aged (p : Process) : Process :=
  if p.pid = -1 then p else { p with current_nice := agedNice p.current_nice }

def agedAt (s : Table) (seen : List Nat) : Table :=
  { s with process_list := fun i => if i ∈ seen then aged (s.process_list i) else s.process_list i }

def atLevel (s : Table) (n i : Nat) : Bool :=
  s.live i && decide (agedNice (s.process_list i).current_nice = n)

theorem aged_free {p : Process} (unused : p.pid = -1) : aged p = p := if_pos unused

theorem aged_used {p : Process} (used : p.pid ≠ -1) :
    aged p = { p with current_nice := agedNice p.current_nice } := if_neg used

theorem agedAt_scheduled :
    ((s.agedAt seen).process_list i).last_scheduled = (s.process_list i).last_scheduled := by
  unfold agedAt aged
  dsimp only
  split
  · split <;> rfl
  · rfl

theorem agedAt_unseen (unseen : i ∉ seen) :
    (s.agedAt seen).process_list i = s.process_list i := if_neg unseen

theorem agedAt_seen (member : i ∈ seen) :
    (s.agedAt seen).process_list i = aged (s.process_list i) := if_pos member

theorem agedAt_snoc (unseen : i ∉ seen) :
    s.agedAt (seen ++ [i]) = (s.agedAt seen).setProcess i (aged (s.process_list i)) := by
  unfold agedAt setProcess
  congr 1
  funext j
  by_cases here : j = i
  · subst here
    simp
  · simp [here]

theorem insertInPrioQueue_agedAt (queue : List Nat) :
    (s.agedAt seen).insertInPrioQueue queue i = s.insertInPrioQueue queue i := by
  unfold insertInPrioQueue
  simp only [agedAt_scheduled]
  rfl

structure Queued (s : Table) (seen : List Nat) (queues : Nat → List Nat) : Prop where
  members : ∀ n, (queues n).Perm (seen.filter (s.atLevel n))
  sorted : ∀ n, (queues n).Pairwise s.NoLater
  fits : ∀ n, (queues n).length ≤ max 1 s.process_count

theorem queued_nil (s : Table) : s.Queued [] fun _ => [] :=
  ⟨fun _ => List.Perm.refl [], fun _ => List.Pairwise.nil, fun _ => Nat.zero_le _⟩

theorem filter_atLevel_in (level : s.atLevel n i = true) :
    (seen ++ [i]).filter (s.atLevel n) = seen.filter (s.atLevel n) ++ [i] := by
  rw [List.filter_append, List.filter_cons_of_pos level, List.filter_nil]

theorem filter_atLevel_out (level : s.atLevel n i = false) :
    (seen ++ [i]).filter (s.atLevel n) = seen.filter (s.atLevel n) := by
  rw [List.filter_append, List.filter_cons_of_neg (by rw [level]; decide), List.filter_nil,
    List.append_nil]

theorem Queued.skip (queued : s.Queued seen queues) (level : ∀ n, s.atLevel n i = false) :
    s.Queued (seen ++ [i]) queues := by
  refine ⟨?_, queued.sorted, queued.fits⟩
  intro n
  rw [filter_atLevel_out (level n)]
  exact queued.members n

theorem Queued.insert (queued : s.Queued seen queues) (level : s.atLevel n i = true)
    (room : (queues n).length + 1 ≤ max 1 s.process_count) :
    s.Queued (seen ++ [i])
      (Function.update queues n ((queues n).orderedInsert s.NoLater i)) := by
  have elsewhere : ∀ m, m ≠ n → s.atLevel m i = false := by
    intro m other
    unfold atLevel at level ⊢
    rw [Bool.and_eq_true, decide_eq_true_eq] at level
    rw [level.2, decide_eq_false (by omega), Bool.and_false]
  refine ⟨?_, ?_, ?_⟩
  · intro m
    by_cases here : m = n
    · subst here
      rw [Function.update_self, filter_atLevel_in level]
      exact (List.perm_orderedInsert _ i _).trans
        (((queued.members m).cons i).trans (List.perm_append_singleton i _).symm)
    · rw [Function.update_of_ne here, filter_atLevel_out (elsewhere m here)]
      exact queued.members m
  · intro m
    by_cases here : m = n
    · subst here
      rw [Function.update_self]
      exact (queued.sorted m).orderedInsert i _
    · rw [Function.update_of_ne here]
      exact queued.sorted m
  · intro m
    by_cases here : m = n
    · subst here
      rw [Function.update_self, List.orderedInsert_length]
      exact room
    · rw [Function.update_of_ne here]
      exact queued.fits m

theorem queueSlot_spec (queued : s.Queued seen queues) (unseen : i ∉ seen) :
    (∃ n, max 1 s.process_count < ((seen ++ [i]).filter (s.atLevel n)).length) ∧
        queueSlot (s.agedAt seen, queues) i = .error .queueOverflow ∨
      ∃ queues', s.Queued (seen ++ [i]) queues' ∧
        queueSlot (s.agedAt seen, queues) i = .ok (s.agedAt (seen ++ [i]), queues') := by
  unfold queueSlot
  dsimp only
  rw [agedAt_unseen unseen]
  by_cases unused : (s.process_list i).pid = -1
  · refine Or.inr ⟨queues, queued.skip ?_, ?_⟩
    · intro n
      unfold atLevel live
      rw [unused]
      rfl
    · have same := setProcess_same (s.agedAt seen) i
      rw [agedAt_unseen unseen] at same
      rw [if_pos unused, agedAt_snoc unseen, aged_free unused, same]
  · obtain ⟨n, -, level⟩ := agedNice_level (s.process_list i).current_nice
    have here : s.atLevel n i = true := by
      unfold atLevel
      rw [level, live_iff.mpr unused, decide_eq_true rfl]
      rfl
    have count := (queued.members n).length_eq
    rw [if_neg unused, ← aged_used unused, ← agedAt_snoc unseen, level, Int.toNat_natCast,
      insertInPrioQueue_agedAt, insertInPrioQueue_eq]
    by_cases overflow : max 1 s.process_count < (queues n).length + 1
    · refine Or.inl ⟨⟨n, ?_⟩, ?_⟩
      · rw [filter_atLevel_in here, List.length_append, ← count]
        exact overflow
      · rw [if_pos overflow]
        rfl
    · refine Or.inr ⟨_, queued.insert here (Nat.not_lt.mp overflow), ?_⟩
      rw [if_neg overflow]
      rfl

theorem queueSlots_spec (queued : s.Queued seen queues) (once : (seen ++ rest).Nodup) :
    (∃ n, max 1 s.process_count < ((seen ++ rest).filter (s.atLevel n)).length) ∧
        rest.foldlM queueSlot (s.agedAt seen, queues) = .error .queueOverflow ∨
      ∃ queues', s.Queued (seen ++ rest) queues' ∧
        rest.foldlM queueSlot (s.agedAt seen, queues) =
          .ok (s.agedAt (seen ++ rest), queues') := by
  induction rest generalizing seen queues with
  | nil =>
    rw [List.append_nil]
    exact Or.inr ⟨queues, queued, rfl⟩
  | cons i rest ih =>
    have split : seen ++ i :: rest = (seen ++ [i]) ++ rest := List.append_cons ..
    have unseen : i ∉ seen := by
      intro member
      exact (List.nodup_append.mp once).2.2 i member i List.mem_cons_self rfl
    rw [split] at once ⊢
    rw [List.foldlM_cons]
    rcases queueSlot_spec queued unseen with ⟨⟨n, overflow⟩, failed⟩ | ⟨queues', queued', done⟩
    · refine Or.inl ⟨⟨n, ?_⟩, ?_⟩
      · rw [List.filter_append, List.length_append]
        omega
      · rw [failed]
        rfl
    · rw [done]
      exact ih queued' once

def agedTable (s : Table) : Table := s.agedAt slots

theorem buildQueues_spec (s : Table) :
    (∃ n, max 1 s.process_count < (slots.filter (s.atLevel n)).length) ∧
        s.buildQueues = .error .queueOverflow ∨
      ∃ queues, s.Queued slots queues ∧ s.buildQueues = .ok (s.agedTable, queues) := by
  have start : s.agedAt [] = s := by
    unfold agedAt
    simp
  have once : ([] ++ slots).Nodup := by
    rw [List.nil_append]
    exact List.nodup_range
  have loop := queueSlots_spec (s.queued_nil) once
  rw [List.nil_append, start] at loop
  exact loop

def tried (queues : Nat → List Nat) : List Nat := (List.range processPriorities).flatMap queues

theorem Queued.mem_tried (queued : s.Queued slots queues) :
    i ∈ tried queues ↔ i ∈ s.liveSlots := by
  unfold tried liveSlots
  rw [List.mem_flatMap, List.mem_filter]
  constructor
  · rintro ⟨n, -, member⟩
    have found := List.mem_filter.mp ((queued.members n).mem_iff.mp member)
    exact ⟨found.1, (Bool.and_eq_true_iff.mp found.2).1⟩
  · rintro ⟨member, used⟩
    obtain ⟨n, small, level⟩ := agedNice_level (s.process_list i).current_nice
    refine ⟨n, List.mem_range.mpr small, (queued.members n).mem_iff.mpr ?_⟩
    refine List.mem_filter.mpr ⟨member, ?_⟩
    unfold atLevel
    rw [used, level, decide_eq_true rfl]
    rfl

theorem schedThreadLoop_frame {rounds index : Nat} {p : Process} {found : Bool}
    (done : schedThreadLoop rounds p index = some (found, p')) :
    (found = false ∧ p' = p) ∨
      found = true ∧
        p' = { p with threads := p'.threads, current_thread := p'.current_thread } := by
  induction rounds generalizing index with
  | zero => cases done
  | succ rounds ih =>
    rw [schedThreadLoop] at done
    dsimp only at done
    split at done
    · cases done
      exact Or.inr ⟨rfl, rfl⟩
    · split at done
      · cases done
        exact Or.inr ⟨rfl, rfl⟩
      · split at done
        · cases done
          exact Or.inl ⟨rfl, rfl⟩
        · exact ih done

theorem pickProcess_ok {order : List Nat} (picked : pickProcess order s = .ok (slot, s')) :
    ∃ tried later, order = tried ++ slot :: later ∧
      (∀ i ∈ tried, schedThread (s.process_list i) = some (false, s.process_list i)) ∧
      ∃ p', schedThread (s.process_list slot) = some (true, p') ∧ s' = s.setProcess slot p' := by
  induction order with
  | nil => cases picked
  | cons i order ih =>
    rw [pickProcess] at picked
    cases result : schedThread (s.process_list i) with
    | none =>
      rw [result] at picked
      cases picked
    | some r =>
      obtain ⟨found, p'⟩ := r
      rw [result] at picked
      rcases schedThreadLoop_frame result with ⟨rfl, rfl⟩ | ⟨rfl, -⟩
      · dsimp only at picked
        rw [setProcess_same] at picked
        obtain ⟨tried, later, split, failed, found⟩ := ih picked
        refine ⟨i :: tried, later, by rw [split]; rfl, ?_, found⟩
        intro j member
        rcases List.mem_cons.mp member with rfl | member
        · exact result
        · exact failed j member
      · cases picked
        refine ⟨[], order, rfl, ?_, p', result, rfl⟩
        intro j member
        cases member

theorem pickProcess_none (order : List Nat) :
    pickProcess order s = .error .noProcess ↔
      ∀ i ∈ order, schedThread (s.process_list i) = some (false, s.process_list i) := by
  induction order with
  | nil =>
    rw [pickProcess]
    exact ⟨fun _ i member => (List.not_mem_nil member).elim, fun _ => rfl⟩
  | cons i order ih =>
    rw [pickProcess, List.forall_mem_cons]
    cases result : schedThread (s.process_list i) with
    | none => simp
    | some r =>
      obtain ⟨found, p'⟩ := r
      rcases schedThreadLoop_frame result with ⟨rfl, rfl⟩ | ⟨rfl, -⟩
      · dsimp only
        rw [setProcess_same, ih]
        simp
      · simp

theorem sched_ok (done : s.sched ticks = .ok (slot, s')) :
    ∃ queues p', s.Queued slots queues ∧ s.buildQueues = .ok (s.agedTable, queues) ∧
      (∃ before later, tried queues = before ++ slot :: later ∧ ∀ i ∈ before,
        schedThread (s.agedTable.process_list i) = some (false, s.agedTable.process_list i)) ∧
      schedThread (s.agedTable.process_list slot) = some (true, p') ∧
      s'.process_list = Function.update s.agedTable.process_list slot
        { p' with last_scheduled := ticks, current_nice := p'.nice } ∧
      s'.current_process = some slot ∧ s'.process_count = s.process_count := by
  unfold sched at done
  rcases s.buildQueues_spec with ⟨-, failed⟩ | ⟨queues, queued, built⟩
  · rw [failed] at done
    cases done
  · rw [built] at done
    cases picked : pickProcess (tried queues) s.agedTable with
    | error e =>
      unfold tried at picked
      simp only [bind, Except.bind, picked] at done
      cases done
    | ok r =>
      obtain ⟨slot', s₁⟩ := r
      obtain ⟨before, later, split, failed, p', found, rfl⟩ := pickProcess_ok picked
      unfold tried at picked
      simp only [bind, Except.bind, picked] at done
      cases done
      refine ⟨queues, p', queued, built, ⟨before, later, split, failed⟩, found, ?_, rfl, rfl⟩
      rw [setProcess_self, setProcess_setProcess]
      rfl

theorem sched_none :
    s.sched ticks = .error .noProcess ↔
      (∀ n, (slots.filter (s.atLevel n)).length ≤ max 1 s.process_count) ∧
      ∀ i ∈ s.liveSlots,
        schedThread (s.agedTable.process_list i) = some (false, s.agedTable.process_list i) := by
  unfold sched
  rcases s.buildQueues_spec with ⟨⟨n, overflow⟩, failed⟩ | ⟨queues, queued, built⟩
  · rw [failed]
    constructor
    · intro done
      cases done
    · rintro ⟨fits, -⟩
      exact absurd (fits n) (Nat.not_le.mpr overflow)
  · have fits : ∀ n, (slots.filter (s.atLevel n)).length ≤ max 1 s.process_count := by
      intro n
      rw [← (queued.members n).length_eq]
      exact queued.fits n
    have none := pickProcess_none (s := s.agedTable) (tried queues)
    simp only [queued.mem_tried] at none
    rw [built]
    simp only [bind, Except.bind]
    rw [← none]
    unfold tried
    cases picked : pickProcess ((List.range processPriorities).flatMap queues) s.agedTable with
    | error e => simp [fits]
    | ok r => simp

theorem schedThreadLoop_congr {p q : Process} {rounds index : Nat} (threads : q.threads = p.threads)
    (count : q.thread_count = p.thread_count) (current : q.current_thread = p.current_thread)
    (queue : q.signal_queue = p.signal_queue) :
    (schedThreadLoop rounds q index).map Prod.fst =
      (schedThreadLoop rounds p index).map Prod.fst := by
  have resumed : ∀ t, resumeThread q t = resumeThread p t := by
    intro t
    unfold resumeThread schedSigsuspendCheck
    rw [queue]
  have next : ∀ i, q.nextThread i = p.nextThread i := by
    intro i
    unfold Process.nextThread
    rw [count]
  induction rounds generalizing index with
  | zero => rfl
  | succ rounds ih =>
    rw [schedThreadLoop, schedThreadLoop, threads, resumed, next, current]
    dsimp only
    cases (p.threads index).canRun with
    | true => rfl
    | false =>
      cases resumeThread p (p.threads index) with
      | some t => rfl
      | none =>
        by_cases back : p.nextThread index = p.current_thread
        · simp [back]
        · simp [back, ih]

theorem schedThread_aged (p : Process) :
    (schedThread (aged p)).map Prod.fst = (schedThread p).map Prod.fst := by
  by_cases unused : p.pid = -1
  · rw [aged_free unused]
  · rw [aged_used unused]
    exact schedThreadLoop_congr rfl rfl rfl rfl

theorem agedTable_slot (member : i ∈ s.liveSlots) :
    s.agedTable.process_list i =
      { s.process_list i with current_nice := agedNice (s.process_list i).current_nice } := by
  obtain ⟨small, used⟩ := List.mem_filter.mp member
  unfold agedTable
  rw [agedAt_seen small, aged_used (live_iff.mp used)]

theorem agedTable_schedThread (member : i ∈ s.liveSlots) :
    (schedThread (s.agedTable.process_list i)).map Prod.fst =
      (schedThread (s.process_list i)).map Prod.fst := by
  unfold agedTable
  rw [agedAt_seen (List.mem_filter.mp member).1, schedThread_aged]

/-- The queues hold the live processes by level and by age. The process that runs next is the
    first in them that can, and the others age by one step within the levels. -/
theorem sched_in_order (fits : s.liveSlots.length ≤ s.process_count) :
    ∃ queues, s.buildQueues = .ok (s.agedTable, queues) ∧
      (∀ n : Nat, (queues n).Perm (s.liveSlots.filter fun i =>
          agedNice (s.process_list i).current_nice = n) ∧ (queues n).Pairwise s.NoLater) ∧
      ∀ ticks slot s', s.sched ticks = .ok (slot, s') →
        (∃ before later, (List.range processPriorities).flatMap queues = before ++ slot :: later ∧
          (∀ i ∈ before, (schedThread (s.process_list i)).map Prod.fst = some false) ∧
          (schedThread (s.process_list slot)).map Prod.fst = some true) ∧
        (s'.process_list slot).last_scheduled = ticks ∧
        (s'.process_list slot).current_nice = (s.process_list slot).nice ∧
        ∀ i ∈ s.liveSlots, i ≠ slot → (s'.process_list i).current_nice =
          max 0 (min ((s.process_list i).current_nice - 1) 19) := by
  have levels : ∀ n : Nat, slots.filter (s.atLevel n) = s.liveSlots.filter fun i =>
      agedNice (s.process_list i).current_nice = n := by
    intro n
    unfold liveSlots
    rw [List.filter_filter]
    congr 1
    funext i
    exact Bool.and_comm ..
  rcases s.buildQueues_spec with ⟨⟨n, overflow⟩, -⟩ | ⟨queues, queued, built⟩
  · rw [levels] at overflow
    have few := fits.trans (Nat.le_max_right 1 _)
    exact absurd (few.trans' (List.length_filter_le ..)) (Nat.not_le.mpr overflow)
  · refine ⟨queues, built, fun n => ⟨levels n ▸ queued.members n, queued.sorted n⟩, ?_⟩
    intro ticks slot s' done
    obtain ⟨queues', p', -, built', ⟨before, later, split, failed⟩, found, list, -⟩ := sched_ok done
    obtain rfl : queues = queues' := by
      rw [built] at built'
      cases built'
      rfl
    have live : ∀ i ∈ before ++ slot :: later, i ∈ s.liveSlots := by
      intro i member
      exact queued.mem_tried.mp (split ▸ member)
    have here : slot ∈ s.liveSlots :=
      live slot (List.mem_append_right _ List.mem_cons_self)
    refine ⟨⟨before, later, split, ?_, ?_⟩, ?_, ?_, ?_⟩
    · intro i member
      rw [← agedTable_schedThread (live i (List.mem_append_left _ member)), failed i member]
      rfl
    · rw [← agedTable_schedThread here, found]
      rfl
    · rw [list, Function.update_self]
    · rw [list, Function.update_self]
      rcases schedThreadLoop_frame found with ⟨no, -⟩ | ⟨-, frame⟩
      · cases no
      · rw [frame, agedTable_slot here]
    · intro i member other
      rw [list, Function.update_of_ne other, agedTable_slot member]
      exact agedNice_eq _

theorem sched_of_toOption (runs : (s.sched ticks).toOption.map Prod.fst = some slot) :
    ∃ s', s.sched ticks = .ok (slot, s') := by
  cases done : s.sched ticks with
  | error e =>
    rw [done] at runs
    cases runs
  | ok r =>
    rw [done] at runs
    cases runs
    exact ⟨r.2, rfl⟩

/-- Two processes with one thread each, the second with a level that no queue has. -/
def twoProcesses : Table where
  process_list
    | 0 => { thread_count := 1, nice := 10, current_nice := 10, pid := 0 }
    | 1 => { thread_count := 1, nice := 30, current_nice := 30, pid := 1 }
    | _ => { pid := -1 }
  process_count := 2
  current_process := some 0

theorem sched_in_order_two :
    ∃ queues, twoProcesses.buildQueues = .ok (twoProcesses.agedTable, queues) ∧
      queues 9 = [0] ∧ queues 19 = [1] ∧ ∃ s', twoProcesses.sched 5 = .ok (0, s') ∧
        (s'.process_list 0).last_scheduled = 5 ∧ (s'.process_list 1).current_nice = 19 := by
  have fits : twoProcesses.liveSlots.length ≤ twoProcesses.process_count := by decide +kernel
  obtain ⟨queues, built, levels, chosen⟩ := sched_in_order fits
  have first := (levels 9).1
  have last := (levels 19).1
  rw [show twoProcesses.liveSlots.filter (fun i =>
    agedNice (twoProcesses.process_list i).current_nice = (9 : Nat)) = [0]
      by decide +kernel] at first
  rw [show twoProcesses.liveSlots.filter (fun i =>
    agedNice (twoProcesses.process_list i).current_nice = (19 : Nat)) = [1]
      by decide +kernel] at last
  have runs : (twoProcesses.sched 5).toOption.map Prod.fst = some 0 := by decide +kernel
  obtain ⟨s', done⟩ := sched_of_toOption runs
  obtain ⟨-, scheduled, -, aged⟩ := chosen 5 0 s' done
  have second : 1 ∈ twoProcesses.liveSlots := by decide +kernel
  exact ⟨queues, built, first.eq_singleton, last.eq_singleton, s', done, scheduled,
    aged 1 second (by decide)⟩

/-- A nice value behind the last level ages by more than one step. -/
theorem sched_ages_by_eleven :
    twoProcesses.liveSlots.length ≤ twoProcesses.process_count ∧
      (twoProcesses.process_list 1).current_nice = 30 ∧
      (twoProcesses.sched 5).toOption.map (fun r => (r.1, (r.2.process_list 1).current_nice)) =
        some (0, 19) := by
  decide +kernel

def Threaded (s : Table) : Prop :=
  ∀ i ∈ s.liveSlots, (s.process_list i).current_thread < (s.process_list i).thread_count

theorem schedThread_found {p : Process} (valid : p.current_thread < p.thread_count) :
    ∃ found p', schedThread p = some (found, p') ∧
      (found = true ↔ ∃ i, p.Examined i ∧ p.runnable i = true) := by
  rcases schedThread_spec valid with ⟨i, p', examined, runs, -, done⟩ | ⟨none, done⟩
  · exact ⟨true, p', done, fun _ => ⟨i, examined, runs⟩, fun _ => rfl⟩
  · refine ⟨false, p, done, fun no => ?_, ?_⟩
    · cases no
    · rintro ⟨i, examined, runs⟩
      rw [none i examined] at runs
      cases runs

theorem schedThread_failed {p : Process} (valid : p.current_thread < p.thread_count) :
    (schedThread p).map Prod.fst = some false ↔ ∀ i, p.Examined i → p.runnable i = false := by
  obtain ⟨found, p', done, when⟩ := schedThread_found valid
  rw [done]
  cases found with
  | true =>
    obtain ⟨i, examined, runs⟩ := when.mp rfl
    constructor
    · intro no
      cases no
    · intro none
      rw [none i examined] at runs
      cases runs
  | false =>
    refine ⟨fun _ i examined => ?_, fun _ => rfl⟩
    by_contra runs
    cases when.mpr ⟨i, examined, by simpa using runs⟩

theorem sched_none_iff (threaded : s.Threaded) :
    s.sched ticks = .error .noProcess ↔
      (∀ n, (slots.filter (s.atLevel n)).length ≤ max 1 s.process_count) ∧
      ∀ i ∈ s.liveSlots, ∀ t, (s.process_list i).Examined t →
        (s.process_list i).runnable t = false := by
  rw [sched_none]
  refine and_congr_right fun _ => forall₂_congr fun i member => ?_
  rw [← schedThread_failed (threaded i member), ← agedTable_schedThread member]
  constructor
  · intro done
    rw [done]
    rfl
  · intro done
    obtain ⟨⟨found, p'⟩, result, rfl⟩ := Option.map_eq_some_iff.mp done
    rcases schedThreadLoop_frame result with ⟨-, rfl⟩ | ⟨no, -⟩
    · exact result
    · cases no

/-- `sched_thread` always returns, and it tells whether a thread can run but where the only
    such thread is the current one of several. `sched` gives up in vain where a process of
    that kind is all there is. -/
theorem runnable_found_iff (p : Process) (s : Table) (ticks : Nat) :
    (p.current_thread < p.thread_count → ∃ found p', schedThread p = some (found, p') ∧
      ((found = true ↔ ∃ t < p.thread_count, p.runnable t = true) ↔ ¬ p.OnlyCurrent)) ∧
    (s.Threaded →
      ((s.sched ticks = .error .noProcess → ∀ i ∈ s.liveSlots,
          ∀ t < (s.process_list i).thread_count, (s.process_list i).runnable t = false) ↔
        (∀ i ∈ s.liveSlots, ¬ (s.process_list i).OnlyCurrent) ∨
        (∃ i ∈ s.liveSlots, ∃ t, (s.process_list i).Examined t ∧
          (s.process_list i).runnable t = true) ∨
        ∃ n, max 1 s.process_count < (slots.filter (s.atLevel n)).length)) := by
  constructor
  · intro valid
    obtain ⟨found, p', done, when⟩ := schedThread_found valid
    refine ⟨found, p', done, ?_⟩
    rw [when]
    exact examined_enough valid
  · intro threaded
    rw [sched_none_iff threaded]
    constructor
    · intro gives_up
      by_contra never
      push Not at never
      obtain ⟨⟨i, member, only⟩, unseen, fits⟩ := never
      have none : ∀ i ∈ s.liveSlots, ∀ t, (s.process_list i).Examined t →
          (s.process_list i).runnable t = false := by
        intro i member t examined
        simpa using unseen i member t examined
      have idle := gives_up ⟨fits, none⟩ i member _ (threaded i member)
      rw [only.2.1] at idle
      cases idle
    · rintro holds ⟨fits, none⟩ i member t small
      rcases holds with more | ⟨j, here, k, examined, runs⟩ | ⟨n, overflow⟩
      · have enough := (examined_enough (threaded i member)).mpr (more i member)
        by_contra runs
        obtain ⟨k, examined, runs⟩ := enough.mpr ⟨t, small, by simpa using runs⟩
        rw [none i member k examined] at runs
        cases runs
      · rw [none j here k examined] at runs
        cases runs
      · exact absurd (fits n) (Nat.not_le.mpr overflow)

theorem runnable_found_two :
    (∃ found p', schedThread (twoProcesses.process_list 1) = some (found, p') ∧
      (found = true ↔ ∃ t < 1, (twoProcesses.process_list 1).runnable t = true)) ∧
    (twoProcesses.sched 5 = .error .noProcess → ∀ i ∈ twoProcesses.liveSlots,
      ∀ t < (twoProcesses.process_list i).thread_count,
        (twoProcesses.process_list i).runnable t = false) := by
  have single : ¬ (twoProcesses.process_list 1).OnlyCurrent := fun several => by
    cases several.1 with
    | step more => cases more
  have threaded : twoProcesses.Threaded := by
    unfold Threaded
    decide +kernel
  obtain ⟨thread, process⟩ := runnable_found_iff (twoProcesses.process_list 1) twoProcesses 5
  constructor
  · obtain ⟨found, p', done, when⟩ := thread (by decide)
    exact ⟨found, p', done, when.mpr single⟩
  · refine (process threaded).mpr (Or.inr (Or.inl ⟨0, ?_, 0, ?_, ?_⟩))
    · decide +kernel
    · exact ⟨by decide, Or.inl rfl⟩
    · rfl

def soleRunner : Table where
  process_list
    | 0 => { thread_count := 2, pid := 0, threads := fun
        | 0 => { status := .running }
        | _ => { status := .uninterruptibleSleep } }
    | _ => { pid := -1 }
  process_count := 1
  current_process := some 0

/-- The thread that is running is overlooked, and `sched` panics. -/
theorem sole_runner_overlooked :
    (soleRunner.process_list 0).runnable 0 = true ∧
      (schedThread (soleRunner.process_list 0)).map Prod.fst = some false ∧
      (match soleRunner.sched 5 with
        | .error e => some e
        | .ok _ => none) = some .noProcess := by
  decide +kernel

end Table
end OmenProcess
