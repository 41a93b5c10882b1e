import Mathlib.Data.Nat.Find
import Omen.Process.Pids
import Omen.Process.Signals

/- The queues of pending signals of one process: `kill` and `dequeue_signal` of `signal.c` and
   `select_signal` of `process.c`. The nodes of a queue are told apart by the call that made
   them. -/
namespace OmenProcess

structure TaskSignal where
  signo : Nat
  call : Nat
  deriving DecidableEq, Repr

/-- `signal_queue`, and whether a handler of signal 0 stands in the word behind it. Without one
    that word is empty or holds what `kill` has put there. -/
structure SignalQueues where
  squeue : Nat → List TaskSignal
  behind : Bool
  labelled : ∀ i, ∀ node ∈ squeue i, node.signo = i

namespace SignalQueues

def enqueue (q : SignalQueues) (signal call : Nat) : SignalQueues where
  squeue := Function.update q.squeue signal (q.squeue signal ++ [⟨signal, call⟩])
  behind := q.behind
  labelled i node member := by
    by_cases here : i = signal
    · rw [here, Function.update_self, List.mem_append, List.mem_singleton] at member
      rcases member with old | rfl
      · exact here ▸ q.labelled signal node old
      · exact here.symm
    · rw [Function.update_of_ne here] at member
      exact q.labelled i node member

/-- `kill`; no result where it panics, or where it takes the handler behind the array for a
    node. -/
def kill (q : SignalQueues) (signal : Int) (call : Nat) : Option SignalQueues :=
  if signal > nsig ∨ signal < 0 then none
  else if signal = nsig ∧ q.behind = true then none
  else some (q.enqueue signal.toNat call)

def dequeueSignal (q : SignalQueues) (signo : Nat) : Option TaskSignal × SignalQueues where
  fst := (q.squeue signo).head?
  snd :=
    { squeue := Function.update q.squeue signo (q.squeue signo).tail
      behind := q.behind
      labelled := by
        intro i node member
        by_cases here : i = signo
        · rw [here, Function.update_self] at member
          exact here ▸ q.labelled signo node (List.mem_of_mem_tail member)
        · rw [Function.update_of_ne here] at member
          exact q.labelled i node member }

def selectSignal (q : SignalQueues) (t : Thread) :
    Option (Option TaskSignal × SignalQueues × Thread) :=
  if t.unsuspend_signal ≠ 0 then
    match q.dequeueSignal t.unsuspend_signal with
    | (none, _) => none
    | (some node, q) => some (some node, q,
      { t with unsuspend_signal := 0, sigprocmask := t.sigsuspend_mask, sigsuspend_mask := 0 })
  else
    match (List.range' 1 (nsig - 1)).find? fun i =>
        q.squeue i != [] && t.sigprocmask &&& sigBit i == 0 with
    | some i =>
      match q.dequeueSignal i with
      | (none, _) => none
      | (some node, q) => some (some node, q, t)
    | none => some (none, q, t)

inductive Call
  | kill (signal : Int)
  | select (t : Thread)

inductive Outcome
  | accepted (node : TaskSignal)
  | selected (node : TaskSignal)
  | nothing
  | panic
  deriving DecidableEq, Repr

def act (q : SignalQueues) (number : Nat) : Call → Outcome × SignalQueues
  | .kill signal =>
    match q.kill signal number with
    | some q' => (.accepted ⟨signal.toNat, number⟩, q')
    | none => (.panic, q)
  | .select t =>
    match q.selectSignal t with
    | some (some node, q', _) => (.selected node, q')
    | some (none, q', _) => (.nothing, q')
    | none => (.panic, q)

def run : SignalQueues → Nat → List Call → List Outcome × SignalQueues
  | q, _, [] => ([], q)
  | q, number, call :: rest =>
    let (outcome, q) := q.act number call
    if outcome = .panic then ([.panic], q)
    else
      let (outcomes, q) := q.run (number + 1) rest
      (outcome :: outcomes, q)

def Along (holds : SignalQueues → Call → Prop) : SignalQueues → Nat → List Call → Prop
  | _, _, [] => True
  | q, number, call :: rest =>
    holds q call ∧
      ((q.act number call).1 ≠ .panic → (q.act number call).2.Along holds (number + 1) rest)

def Outcome.sent (n : Nat) : Outcome → List TaskSignal
  | .accepted node => if node.signo = n then [node] else []
  | _ => []

def Outcome.taken (n : Nat) : Outcome → List TaskSignal
  | .selected node => if node.signo = n then [node] else []
  | _ => []

def sentOf (n : Nat) (outcomes : List Outcome) : List TaskSignal :=
  outcomes.flatMap (Outcome.sent n)

def takenOf (n : Nat) (outcomes : List Outcome) : List TaskSignal :=
  outcomes.flatMap (Outcome.taken n)

def Pending (q : SignalQueues) (i : Nat) : Prop := 1 ≤ i ∧ i < nsig ∧ q.squeue i ≠ []

/-- What is asked of a call: only numbers from 1 to 64 are accepted, and of the pending numbers
    whose bit is clear the lowest is selected, and no other but the one that ends a
    `sigsuspend`. A set of 64 bits has none for signal 64. -/
def Handled (q : SignalQueues) : Call → Prop
  | .kill signal => (∃ number q', q.kill signal number = some q') → 1 ≤ signal ∧ signal < nsig
  | .select t =>
    (∀ i, q.Pending i → t.sigprocmask.getLsbD i = false →
      (∀ j < i, q.Pending j → t.sigprocmask.getLsbD j = true) →
      ∃ node q' t', q.selectSignal t = some (some node, q', t') ∧ node.signo = i) ∧
    ∀ node q' t', q.selectSignal t = some (some node, q', t') →
      t.sigprocmask.getLsbD node.signo = true → node.signo = t.unsuspend_signal

/-- Calls from a given number on: what is selected of a number is what was pending and sent of
    it, from the first on and each node once. -/
structure Faithful (q : SignalQueues) (number : Nat) (calls : List Call) : Prop where
  inOrder : ∀ n, takenOf n (q.run number calls).1 <+:
    q.squeue n ++ sentOf n (q.run number calls).1
  once : ∀ n, (q.squeue n).Pairwise (·.call < ·.call) →
    (∀ node ∈ q.squeue n, node.call < number) → (takenOf n (q.run number calls).1).Nodup
  handled : q.Along Handled number calls

section Order
variable {q q' : SignalQueues} {number n i : Nat} {node : TaskSignal} {t t' : Thread}

theorem dequeue_spec (taken : q.dequeueSignal i = (some node, q')) :
    node.signo = i ∧ q.squeue i = node :: q'.squeue i ∧
      ∀ j, j ≠ i → q'.squeue j = q.squeue j := by
  obtain ⟨head, rfl⟩ := Prod.ext_iff.mp taken
  have here : q.squeue i = node :: (q.squeue i).tail := List.eq_cons_of_mem_head? head
  refine ⟨q.labelled i node (here ▸ List.mem_cons_self), ?_, ?_⟩
  · dsimp only [dequeueSignal]
    rw [Function.update_self]
    exact here
  · intro j other
    exact Function.update_of_ne other ..

theorem selectSignal_cases {r : Option TaskSignal × SignalQueues × Thread}
    (selected : q.selectSignal t = some r) :
    r = (none, q, t) ∨ ∃ i node q', q.dequeueSignal i = (some node, q') ∧ r.1 = some node ∧
      r.2.1 = q' := by
  unfold selectSignal at selected
  split at selected
  · split at selected
    · cases selected
    · rename_i node q' taken
      cases selected
      exact Or.inr ⟨_, node, q', taken, rfl, rfl⟩
  · split at selected
    · split at selected
      · cases selected
      · rename_i node q' taken
        cases selected
        exact Or.inr ⟨_, node, q', taken, rfl, rfl⟩
    · cases selected
      exact Or.inl rfl

theorem act_cases (q : SignalQueues) (number : Nat) (call : Call) :
    q.act number call = (.panic, q) ∨ q.act number call = (.nothing, q) ∨
      (∃ signal : Nat,
        q.act number call = (.accepted ⟨signal, number⟩, q.enqueue signal number)) ∨
      ∃ i node q', q.dequeueSignal i = (some node, q') ∧
        q.act number call = (.selected node, q') := by
  cases call with
  | kill signal =>
    rw [act, kill]
    split
    · rename_i done
      split at done
      · cases done
      · split at done
        · cases done
        · cases done
          exact Or.inr (Or.inr (Or.inl ⟨signal.toNat, rfl⟩))
    · exact Or.inl rfl
  | select t =>
    rw [act]
    split
    · rename_i node q' t' done
      rcases selectSignal_cases done with nothing | ⟨i, node', queues, taken, first, second⟩
      · cases nothing
      · cases first
        cases second
        exact Or.inr (Or.inr (Or.inr ⟨i, _, _, taken, rfl⟩))
    · rename_i q' t' done
      rcases selectSignal_cases done with nothing | ⟨i, node', queues, taken, first, second⟩
      · cases nothing
        exact Or.inr (Or.inl rfl)
      · cases first
    · exact Or.inl rfl

theorem act_queue (q : SignalQueues) (number : Nat) (call : Call) (n : Nat) :
    (q.act number call).1.taken n ++ (q.act number call).2.squeue n =
      q.squeue n ++ (q.act number call).1.sent n := by
  rcases act_cases q number call with
    panic | nothing | ⟨signal, accepted⟩ | ⟨i, node, q', taken, selected⟩
  · simp [panic, Outcome.taken, Outcome.sent]
  · simp [nothing, Outcome.taken, Outcome.sent]
  · rw [accepted]
    dsimp only [Outcome.taken, Outcome.sent, enqueue]
    by_cases here : n = signal
    · subst here
      rw [Function.update_self, if_pos rfl, List.nil_append]
    · rw [Function.update_of_ne here, if_neg (Ne.symm here), List.append_nil, List.nil_append]
  · obtain ⟨signo, front, others⟩ := dequeue_spec taken
    rw [selected]
    dsimp only [Outcome.taken, Outcome.sent]
    rw [signo, List.append_nil]
    by_cases here : i = n
    · subst here
      rw [if_pos rfl, front]
      rfl
    · rw [if_neg here, others n (Ne.symm here), List.nil_append]

theorem run_queue (q : SignalQueues) (number : Nat) (calls : List Call) (n : Nat) :
    takenOf n (q.run number calls).1 ++ (q.run number calls).2.squeue n =
      q.squeue n ++ sentOf n (q.run number calls).1 := by
  induction calls generalizing q number with
  | nil => simp [run, takenOf, sentOf]
  | cons call rest ih =>
    have step := act_queue q number call n
    unfold run
    dsimp only
    split
    · rename_i panic
      rw [panic] at step
      simpa [takenOf, sentOf, Outcome.taken, Outcome.sent] using step
    · have later := ih (q.act number call).2 (number + 1)
      dsimp only [takenOf, sentOf] at later ⊢
      rw [List.flatMap_cons, List.flatMap_cons, List.append_assoc, later, ← List.append_assoc,
        step, List.append_assoc]

theorem run_sent (q : SignalQueues) (number : Nat) (calls : List Call) (n : Nat) :
    (sentOf n (q.run number calls).1).Pairwise (·.call < ·.call) ∧
      ∀ node ∈ sentOf n (q.run number calls).1, number ≤ node.call := by
  induction calls generalizing q number with
  | nil => simp [run, sentOf]
  | cons call rest ih =>
    unfold run
    dsimp only
    split
    · simp [sentOf, Outcome.sent]
    · obtain ⟨ordered, above⟩ := ih (q.act number call).2 (number + 1)
      dsimp only [sentOf] at ordered above ⊢
      have here : (q.act number call).1.sent n = [] ∨
          ∃ signo, (q.act number call).1.sent n = [⟨signo, number⟩] := by
        rcases act_cases q number call with
          panic | nothing | ⟨signal, accepted⟩ | ⟨i, node, q', -, selected⟩
        · exact Or.inl (by rw [panic]; rfl)
        · exact Or.inl (by rw [nothing]; rfl)
        · rw [accepted]
          dsimp only [Outcome.sent]
          split
          · exact Or.inr ⟨signal, rfl⟩
          · exact Or.inl rfl
        · exact Or.inl (by rw [selected]; rfl)
      rw [List.flatMap_cons]
      rcases here with none | ⟨signo, one⟩
      · rw [none, List.nil_append]
        exact ⟨ordered, fun node member => Nat.le_of_succ_le (above node member)⟩
      · rw [one, List.singleton_append]
        refine ⟨List.pairwise_cons.mpr ⟨above, ordered⟩, ?_⟩
        intro node member
        rcases List.mem_cons.mp member with rfl | later
        · exact Nat.le_refl number
        · exact Nat.le_of_succ_le (above node later)

theorem run_once (q : SignalQueues) (number : Nat) (calls : List Call) (n : Nat)
    (ordered : (q.squeue n).Pairwise (·.call < ·.call))
    (before : ∀ node ∈ q.squeue n, node.call < number) :
    (takenOf n (q.run number calls).1).Nodup := by
  obtain ⟨later, above⟩ := run_sent q number calls n
  have all : (q.squeue n ++ sentOf n (q.run number calls).1).Pairwise (·.call < ·.call) := by
    refine List.pairwise_append.mpr ⟨ordered, later, ?_⟩
    intro old pending new sent
    exact Nat.lt_of_lt_of_le (before old pending) (above new sent)
  have distinct : (q.squeue n ++ sentOf n (q.run number calls).1).Nodup := by
    refine all.imp ?_
    rintro a b less rfl
    exact Nat.lt_irrefl _ less
  rw [← run_queue] at distinct
  exact (List.nodup_append.mp distinct).1

end Order

/-- The bits of a set at which the test for a signal looks: one of the low 32, and from bit 31
    all above it too. -/
def Tested (i b : Nat) : Prop := b = i % 32 ∨ i % 32 = 31 ∧ 31 ≤ b

def Misread (mask : SigSet) (i : Nat) : Prop :=
  ¬ ((∀ b, Tested i b → mask.getLsbD b = false) ↔ mask.getLsbD i = false)

def Proper (q : SignalQueues) : Call → Prop
  | .kill signal => signal ≠ 0 ∧ (signal = nsig → q.behind = true)
  | .select t =>
    if t.unsuspend_signal = 0 then
      ∀ i, q.Pending i → Misread t.sigprocmask i →
        ∃ j < i, q.Pending j ∧ t.sigprocmask.getLsbD j = false ∧ ¬ Misread t.sigprocmask j
    else
      ∀ i, q.Pending i → t.sigprocmask.getLsbD i = false → q.Pending t.unsuspend_signal ∧
        t.sigprocmask.getLsbD t.unsuspend_signal = false ∧ t.unsuspend_signal ≤ i

section Masks
variable {q q' : SignalQueues} {mask : SigSet} {number i : Nat} {t : Thread}

theorem sigBit_bit : ∀ r < 32, ∀ b < 64,
    (sigBit r).getLsbD b = decide (b = r ∨ r = 31 ∧ 31 ≤ b) := by
  decide +kernel

theorem and_sigBit : mask &&& sigBit i = 0 ↔ ∀ b, Tested i b → mask.getLsbD b = false := by
  have low : i % 32 < 32 := Nat.mod_lt _ (by decide)
  have same : sigBit i = sigBit (i % 32) := by
    unfold sigBit
    rw [Nat.mod_mod]
  constructor
  · intro none b tested
    by_cases small : b < 64
    · have bit : (mask &&& sigBit i).getLsbD b = false := by
        rw [none]
        exact BitVec.getLsbD_zero
      unfold Tested at tested
      rw [BitVec.getLsbD_and, same, sigBit_bit _ low b small, decide_eq_true tested,
        Bool.and_true] at bit
      exact bit
    · exact BitVec.getLsbD_of_ge mask b (by omega)
  · intro clear
    refine BitVec.eq_of_getLsbD_eq fun b small => ?_
    have zero : (0 : SigSet).getLsbD b = false := BitVec.getLsbD_zero
    rw [BitVec.getLsbD_and, same, sigBit_bit _ low b small, zero]
    by_cases tested : b = i % 32 ∨ i % 32 = 31 ∧ 31 ≤ b
    · rw [clear b tested, Bool.false_and]
    · rw [decide_eq_false tested, Bool.and_false]

def Passes (q : SignalQueues) (mask : SigSet) (i : Nat) : Prop :=
  q.Pending i ∧ ∀ b, Tested i b → mask.getLsbD b = false

theorem first_signal {test : Nat → Bool} :
    (List.range' 1 (nsig - 1)).find? test = some i ↔
      (1 ≤ i ∧ i < nsig ∧ test i = true) ∧ ∀ j < i, 1 ≤ j → test j = false := by
  have within : i ∈ List.range' 1 (nsig - 1) ↔ 1 ≤ i ∧ i < nsig := by
    rw [List.mem_range'_1]
    unfold nsig
    omega
  simp only [List.find?_range'_eq_some, within, Bool.not_eq_true']
  constructor
  · rintro ⟨here, ⟨low, high⟩, least⟩
    exact ⟨⟨low, high, here⟩, fun j less first => least j first less⟩
  · rintro ⟨⟨low, high, here⟩, least⟩
    exact ⟨here, ⟨low, high⟩, fun j first less => least j less first⟩

theorem no_signal {test : Nat → Bool} :
    (List.range' 1 (nsig - 1)).find? test = none ↔ ∀ i, 1 ≤ i → i < nsig → test i = false := by
  simp only [List.find?_range'_eq_none, Bool.not_eq_true']
  exact Iff.rfl

theorem passes_iff : q.Passes mask i ↔
    1 ≤ i ∧ i < nsig ∧ (q.squeue i != [] && mask &&& sigBit i == 0) = true := by
  rw [Bool.and_eq_true, bne_iff_ne, beq_iff_eq, and_sigBit]
  unfold Passes Pending
  rw [and_assoc, and_assoc]

theorem dequeue_pending (pending : q.squeue i ≠ []) :
    ∃ node q', q.dequeueSignal i = (some node, q') ∧ node.signo = i := by
  obtain ⟨node, rest, queue⟩ := List.exists_cons_of_ne_nil pending
  have taken : q.dequeueSignal i = (some node, (q.dequeueSignal i).2) := by
    refine Prod.ext ?_ rfl
    dsimp only [dequeueSignal]
    rw [queue]
    rfl
  exact ⟨node, _, taken, (dequeue_spec taken).1⟩

theorem dequeue_empty (empty : q.squeue i = []) :
    q.dequeueSignal i = (none, (q.dequeueSignal i).2) := by
  refine Prod.ext ?_ rfl
  dsimp only [dequeueSignal]
  rw [empty]
  rfl

theorem selectSignal_lowest (plain : t.unsuspend_signal = 0) :
    (∃ i node q', q.Passes t.sigprocmask i ∧ (∀ j < i, ¬ q.Passes t.sigprocmask j) ∧
      node.signo = i ∧ q.selectSignal t = some (some node, q', t)) ∨
    (∀ i, ¬ q.Passes t.sigprocmask i) ∧ q.selectSignal t = some (none, q, t) := by
  unfold selectSignal
  rw [if_neg (not_not.mpr plain)]
  cases found : (List.range' 1 (nsig - 1)).find? (fun i =>
      q.squeue i != [] && t.sigprocmask &&& sigBit i == 0) with
  | none =>
    refine Or.inr ⟨fun i passes => ?_, rfl⟩
    obtain ⟨low, high, test⟩ := passes_iff.mp passes
    exact absurd test (by rw [no_signal.mp found i low high]; decide)
  | some i =>
    obtain ⟨here, least⟩ := first_signal.mp found
    have passes := passes_iff.mpr here
    obtain ⟨node, q', taken, signo⟩ := dequeue_pending passes.1.2.2
    refine Or.inl ⟨i, node, q', passes, fun j less earlier => ?_, signo, ?_⟩
    · obtain ⟨low, high, test⟩ := passes_iff.mp earlier
      exact absurd test (by rw [least j less low]; decide)
    · dsimp only
      rw [taken]

theorem selectSignal_unsuspend (ends : t.unsuspend_signal ≠ 0) :
    (∃ node q' t', node.signo = t.unsuspend_signal ∧ q.squeue t.unsuspend_signal ≠ [] ∧
      q.selectSignal t = some (some node, q', t')) ∨
    q.squeue t.unsuspend_signal = [] ∧ q.selectSignal t = none := by
  unfold selectSignal
  rw [if_pos ends]
  by_cases pending : q.squeue t.unsuspend_signal = []
  · refine Or.inr ⟨pending, ?_⟩
    rw [dequeue_empty pending]
  · obtain ⟨node, q', taken, signo⟩ := dequeue_pending pending
    rw [taken]
    exact Or.inl ⟨node, q', _, signo, pending, rfl⟩

theorem kill_handled_iff (q : SignalQueues) (signal : Int) :
    q.Handled (.kill signal) ↔ q.Proper (.kill signal) := by
  have accepted : (∃ number q', q.kill signal number = some q') ↔
      0 ≤ signal ∧ signal ≤ nsig ∧ ¬ (signal = nsig ∧ q.behind = true) := by
    unfold kill
    constructor
    · rintro ⟨number, q', done⟩
      split at done
      · cases done
      · split at done
        · cases done
        · exact ⟨by omega, by omega, by assumption⟩
    · rintro ⟨low, high, apart⟩
      exact ⟨0, _, by rw [if_neg (by omega), if_neg apart]⟩
  dsimp only [Handled, Proper]
  rw [accepted]
  unfold nsig
  cases q.behind <;> simp <;> omega

/-- The least number that passes one test is the least that passes another exactly when every
    number on which the tests differ is above one that passes both. -/
theorem lowest_agree_iff {pass clear : Nat → Prop} {chosen : Option Nat}
    (some_iff : ∀ i, chosen = some i ↔ pass i ∧ ∀ j < i, ¬ pass j) :
    ((∀ i, clear i → (∀ j < i, ¬ clear j) → chosen = some i) ∧
      ∀ i, chosen = some i → clear i) ↔
    ∀ i, ¬ (pass i ↔ clear i) → ∃ j < i, clear j ∧ pass j := by
  classical
  constructor
  · rintro ⟨lowest, only⟩ i differ
    have below : ∀ first, chosen = some first → first ≤ i →
        ∃ j < i, clear j ∧ pass j := by
      intro first found small
      have both : pass first ∧ clear first := ⟨((some_iff first).mp found).1, only first found⟩
      have other : first ≠ i := by
        rintro rfl
        exact differ (iff_of_true both.1 both.2)
      exact ⟨first, lt_of_le_of_ne small other, both.2, both.1⟩
    by_cases passes : pass i
    · have exists_pass : ∃ j, pass j := ⟨i, passes⟩
      exact below _ ((some_iff _).mpr ⟨Nat.find_spec exists_pass, fun j => Nat.find_min _⟩)
        (Nat.find_min' _ passes)
    · have here : clear i := by
        by_contra blocked
        exact differ (iff_of_false passes blocked)
      have exists_clear : ∃ j, clear j := ⟨i, here⟩
      exact below _ (lowest _ (Nat.find_spec exists_clear) fun j => Nat.find_min _)
        (Nat.find_min' _ here)
  · intro differ
    constructor
    · intro i here least
      refine (some_iff i).mpr ⟨?_, ?_⟩
      · by_contra fails
        obtain ⟨j, less, clear, -⟩ := differ i fun same => fails (same.mpr here)
        exact least j less clear
      · intro j less passes
        obtain ⟨k, lower, clear, -⟩ := differ j fun same => least j less (same.mp passes)
        exact least k (Nat.lt_trans lower less) clear
    · intro i found
      obtain ⟨passes, first⟩ := (some_iff i).mp found
      by_contra blocked
      obtain ⟨j, less, -, earlier⟩ := differ i fun same => blocked (same.mp passes)
      exact first j less earlier

def chosen (q : SignalQueues) (t : Thread) : Option Nat :=
  (q.selectSignal t).bind fun r => r.1.map (·.signo)

theorem chosen_eq_some : q.chosen t = some i ↔
    ∃ node q' t', q.selectSignal t = some (some node, q', t') ∧ node.signo = i := by
  unfold chosen
  rw [Option.bind_eq_some_iff]
  constructor
  · rintro ⟨⟨signal, q', t'⟩, selected, here⟩
    obtain ⟨node, rfl, signo⟩ := Option.map_eq_some_iff.mp here
    exact ⟨node, q', t', selected, signo⟩
  · rintro ⟨node, q', t', selected, signo⟩
    exact ⟨_, selected, by rw [Option.map_some, signo]⟩

theorem chosen_plain (plain : t.unsuspend_signal = 0) :
    q.chosen t = some i ↔ q.Passes t.sigprocmask i ∧ ∀ j < i, ¬ q.Passes t.sigprocmask j := by
  unfold chosen
  rcases @selectSignal_lowest q t plain with
    ⟨k, node, q', passes, lowest, signo, selected⟩ | ⟨none, selected⟩
  · rw [selected, Option.bind_some, Option.map_some, signo]
    constructor
    · rintro ⟨⟩
      exact ⟨passes, lowest⟩
    · rintro ⟨here, least⟩
      have same : k = i := by
        rcases Nat.lt_trichotomy k i with less | same | more
        · exact absurd passes (least k less)
        · exact same
        · exact absurd here (lowest i more)
      rw [same]
  · rw [selected]
    exact iff_of_false (by simp) fun found => none i found.1

theorem chosen_unsuspend (ends : t.unsuspend_signal ≠ 0) :
    q.chosen t = some i ↔ i = t.unsuspend_signal ∧ q.squeue i ≠ [] := by
  unfold chosen
  rcases @selectSignal_unsuspend q t ends with
    ⟨node, q', t', signo, pending, selected⟩ | ⟨empty, selected⟩
  · rw [selected, Option.bind_some, Option.map_some, signo, Option.some.injEq]
    constructor
    · rintro rfl
      exact ⟨rfl, pending⟩
    · rintro ⟨rfl, -⟩
      rfl
  · rw [selected]
    refine iff_of_false (by simp) ?_
    rintro ⟨rfl, pending⟩
    exact pending empty

theorem select_handled_iff (q : SignalQueues) (t : Thread) :
    q.Handled (.select t) ↔ q.Proper (.select t) := by
  have outcome : q.Handled (.select t) ↔
      (∀ i, q.Pending i → t.sigprocmask.getLsbD i = false →
        (∀ j < i, q.Pending j → t.sigprocmask.getLsbD j = true) → q.chosen t = some i) ∧
      ∀ i, q.chosen t = some i → t.sigprocmask.getLsbD i = true → i = t.unsuspend_signal := by
    dsimp only [Handled]
    simp only [chosen_eq_some]
    refine and_congr_right' ⟨?_, ?_⟩
    · rintro only i ⟨node, q', t', selected, rfl⟩
      exact only node q' t' selected
    · intro only node q' t' selected
      exact only node.signo ⟨node, q', t', selected, rfl⟩
  rw [outcome]
  dsimp only [Proper]
  by_cases plain : t.unsuspend_signal = 0
  · rw [if_pos plain, plain]
    have both := @lowest_agree_iff (q.Passes t.sigprocmask)
      (fun i => q.Pending i ∧ t.sigprocmask.getLsbD i = false) (q.chosen t)
      fun i => chosen_plain plain
    constructor
    · rintro ⟨lowest, only⟩ i pending misread
      have clear : ∀ i, q.chosen t = some i → q.Pending i ∧ t.sigprocmask.getLsbD i = false := by
        intro i found
        have pending := ((chosen_plain plain).mp found).1.1
        refine ⟨pending, ?_⟩
        by_contra set
        have zero := only i found (by simpa using set)
        exact absurd pending.1 (by omega)
      have first : ∀ i, q.Pending i ∧ t.sigprocmask.getLsbD i = false →
          (∀ j < i, ¬ (q.Pending j ∧ t.sigprocmask.getLsbD j = false)) →
          q.chosen t = some i := by
        rintro i ⟨pending, clear⟩ least
        refine lowest i pending clear fun j less waits => ?_
        by_contra set
        exact least j less ⟨waits, by simpa using set⟩
      obtain ⟨j, less, ⟨waits, unset⟩, passes⟩ := both.mp ⟨first, clear⟩ i fun same =>
        misread ⟨fun test => (same.mp ⟨pending, test⟩).2, fun unset =>
          (same.mpr ⟨pending, unset⟩).2⟩
      exact ⟨j, less, waits, unset, not_not.mpr (iff_of_true passes.2 unset)⟩
    · intro proper
      obtain ⟨lowest, clear⟩ := both.mpr fun i differ => by
        have pending : q.Pending i := by
          by_contra idle
          exact differ (iff_of_false (fun passes => idle passes.1) fun clear => idle clear.1)
        obtain ⟨j, less, waits, unset, read⟩ := proper i pending fun same =>
          differ (and_congr_right fun _ => same)
        exact ⟨j, less, ⟨waits, unset⟩, waits, (not_not.mp read).mpr unset⟩
      constructor
      · intro i pending unset least
        refine lowest i ⟨pending, unset⟩ ?_
        rintro j less ⟨waits, other⟩
        rw [least j less waits] at other
        cases other
      · intro i found set
        rw [(clear i found).2] at set
        cases set
  · rw [if_neg plain]
    constructor
    · rintro ⟨lowest, -⟩ i pending unset
      classical
      have some_clear : ∃ j, q.Pending j ∧ t.sigprocmask.getLsbD j = false :=
        ⟨i, pending, unset⟩
      obtain ⟨waits, clear⟩ := Nat.find_spec some_clear
      have found := lowest _ waits clear fun j less also => by
        by_contra set
        exact Nat.find_min some_clear less ⟨also, by simpa using set⟩
      have same := ((chosen_unsuspend plain).mp found).1
      rw [← same]
      exact ⟨waits, clear, Nat.find_min' some_clear ⟨pending, unset⟩⟩
    · intro proper
      constructor
      · intro i pending unset least
        obtain ⟨waits, clear, small⟩ := proper i pending unset
        have same : i = t.unsuspend_signal := by
          by_contra other
          have set := least _ (lt_of_le_of_ne small (Ne.symm other)) waits
          rw [clear] at set
          cases set
        exact (chosen_unsuspend plain).mpr ⟨same, pending.2.2⟩
      · intro i found _
        exact ((chosen_unsuspend plain).mp found).1

theorem along_iff {holds holds' : SignalQueues → Call → Prop}
    (same : ∀ q call, holds q call ↔ holds' q call) (q : SignalQueues) (number : Nat)
    (calls : List Call) : q.Along holds number calls ↔ q.Along holds' number calls := by
  induction calls generalizing q number with
  | nil => exact Iff.rfl
  | cons call rest ih =>
    unfold Along
    rw [same q call, ih]

theorem handled_iff (q : SignalQueues) (call : Call) : q.Handled call ↔ q.Proper call := by
  cases call with
  | kill signal => exact kill_handled_iff q signal
  | select t => exact select_handled_iff q t

/-- Every sequence of calls is faithful as far as each of its calls is proper. -/
theorem signals_faithful_iff (q : SignalQueues) (number : Nat) (calls : List Call) :
    q.Faithful number calls ↔ q.Along Proper number calls := by
  rw [← along_iff handled_iff]
  constructor
  · exact fun faithful => faithful.handled
  · intro handled
    refine ⟨?_, ?_, handled⟩
    · intro n
      exact ⟨_, run_queue q number calls n⟩
    · intro n ordered before
      exact run_once q number calls n ordered before

def idle : SignalQueues where
  squeue _ := []
  behind := false
  labelled _ _ member := by cases member

/-- Signal 0 and signal 65 are accepted; signal 33 is selected when it is blocked, and it is not
    when signal 1 is blocked instead. -/
theorem signals_misread :
    ¬ idle.Faithful 0 [.kill 0] ∧
    (idle.run 0 [.kill 0, .kill 65]).1 = [.accepted ⟨0, 0⟩, .accepted ⟨65, 1⟩] ∧
    ¬ idle.Faithful 0 [.kill 33, .select { sigprocmask := 0x200000000 }] ∧
    (idle.run 0 [.kill 33, .select { sigprocmask := 0x200000000 }]).1 =
      [.accepted ⟨33, 0⟩, .selected ⟨33, 0⟩] ∧
    (idle.run 0 [.kill 33, .select { sigprocmask := 2 }]).1 = [.accepted ⟨33, 0⟩, .nothing] := by
  refine ⟨?_, by decide +kernel, ?_, by decide +kernel, by decide +kernel⟩
  · intro faithful
    have low := (faithful.handled.1 ⟨0, _, rfl⟩).1
    exact absurd low (by decide)
  · intro faithful
    have only := (faithful.handled.2 (by decide)).1.2
    have same := only ⟨33, 0⟩ _ _ rfl (by decide)
    exact absurd same (by decide)

end Masks

section Table
variable {s : Table} {p : Process} {slot thread : Nat} {q : SignalQueues}

/-- The table knows the queues of a process by their lengths. -/
def Counted (q : SignalQueues) (p : Process) : Prop :=
  ∀ i, p.signal_queue i = (q.squeue i).length

theorem pending_iff (counted : q.Counted p) (i : Nat) :
    p.signal_queue i = 0 ↔ q.squeue i = [] := by
  rw [counted i, List.length_eq_zero_iff]

theorem kill_counted {q' : SignalQueues} {signal : Int} {call : Nat} (counted : q.Counted p)
    (sent : q.kill signal call = some q') :
    ∃ p', Table.kill p signal = some p' ∧ q'.Counted p' := by
  unfold kill at sent
  unfold Table.kill
  split at sent
  · cases sent
  · rename_i inside
    rw [if_neg inside]
    split at sent
    · cases sent
    · cases sent
      refine ⟨_, rfl, fun i => ?_⟩
      dsimp only [enqueue]
      by_cases here : i = signal.toNat
      · subst here
        rw [Function.update_self, Function.update_self, List.length_append, counted]
        rfl
      · rw [Function.update_of_ne here, Function.update_of_ne here, counted i]

theorem dequeue_counted (counted : q.Counted p) (signo : Nat) :
    (q.dequeueSignal signo).2.Counted (Table.dequeueSignal p signo) := by
  intro i
  dsimp only [Table.dequeueSignal, dequeueSignal]
  by_cases here : i = signo
  · subst here
    rw [Function.update_self, Function.update_self, List.length_tail, counted i]
  · rw [Function.update_of_ne here, Function.update_of_ne here, counted i]

theorem select_counted (counted : q.Counted (s.process_list slot)) :
    q.selectSignal ((s.process_list slot).threads thread) = none ∧
      s.selectSignal slot thread = none ∨
    ∃ signal q' t' p', q.selectSignal ((s.process_list slot).threads thread) =
        some (signal, q', t') ∧
      s.selectSignal slot thread = some (signal.map (·.signo), s.setProcess slot p') ∧
      q'.Counted p' ∧ p'.threads thread = t' := by
  unfold Table.selectSignal
  dsimp only
  by_cases ends : ((s.process_list slot).threads thread).unsuspend_signal = 0
  · rw [if_neg (not_not.mpr ends), selectSignal, if_neg (not_not.mpr ends)]
    have same : (fun i => q.squeue i != [] &&
          ((s.process_list slot).threads thread).sigprocmask &&& sigBit i == 0) =
        fun i => (s.process_list slot).signal_queue i != 0 &&
          ((s.process_list slot).threads thread).sigprocmask &&& sigBit i == 0 := by
      funext i
      congr 1
      rw [Bool.eq_iff_iff, bne_iff_ne, bne_iff_ne, ne_eq, ne_eq, pending_iff counted]
    rw [same]
    cases found : (List.range' 1 (nsig - 1)).find? (fun i =>
        (s.process_list slot).signal_queue i != 0 &&
          ((s.process_list slot).threads thread).sigprocmask &&& sigBit i == 0) with
    | none =>
      refine Or.inr ⟨none, q, _, s.process_list slot, rfl, ?_, counted, rfl⟩
      rw [Table.setProcess_same]
      rfl
    | some i =>
      have pending : q.squeue i ≠ [] := by
        have here := List.find?_some found
        rw [Bool.and_eq_true] at here
        exact fun empty => bne_iff_ne.mp here.1 ((pending_iff counted i).mpr empty)
      obtain ⟨node, q', taken, signo⟩ := dequeue_pending pending
      dsimp only
      rw [taken]
      refine Or.inr ⟨some node, q', _, Table.dequeueSignal (s.process_list slot) i, rfl, ?_, ?_, ?_⟩
      · rw [Option.map_some, signo]
      · have after := dequeue_counted counted i
        rw [taken] at after
        exact after
      · rfl
  · rw [if_pos ends, selectSignal, if_pos ends]
    by_cases empty : q.squeue ((s.process_list slot).threads thread).unsuspend_signal = []
    · refine Or.inl ⟨?_, if_pos ((pending_iff counted _).mpr empty)⟩
      rw [dequeue_empty empty]
    · obtain ⟨node, q', taken, signo⟩ := dequeue_pending empty
      rw [taken, if_neg (fun none => empty ((pending_iff counted _).mp none))]
      rw [← signo]
      refine Or.inr ⟨some node, q', _, _, rfl, rfl, ?_, ?_⟩
      · have after := dequeue_counted counted
          ((s.process_list slot).threads thread).unsuspend_signal
        rw [taken, ← signo] at after
        exact after
      · exact Table.threads_self ..

end Table

end SignalQueues

end OmenProcess
