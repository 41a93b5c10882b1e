import Omen.Process.SignalQueues

/- The pending signals as `sigpending` of `signal.c` reports them, beside the masks of
   `sigprocmask`. A set is one 64-bit word; the words behind the set are memory of the caller. -/
namespace OmenProcess
namespace SignalQueues

def pendingStores (q : SignalQueues) : List (Nat × SigSet) :=
  ((List.range nsig).filter (q.squeue · ≠ [])).map fun i =>
    (i / 8, ((1 : BitVec 32) <<< (i % 8)).signExtend 64)

def sigpending (q : SignalQueues) (set : Nat → SigSet) : Nat → SigSet :=
  q.pendingStores.foldl
    (fun words store => Function.update words store.1 (words store.1 ||| store.2)) set

inductive How
  | block
  | unblock
  | setmask

def sigprocmask (mask : SigSet) (how : How) (set : Option SigSet) : SigSet × SigSet :=
  match set with
  | none => (mask, mask)
  | some set =>
    match how with
    | .block => (mask ||| set, mask)
    | .unblock => (mask &&& ~~~set, mask)
    | .setmask => (set, mask)

/-- A zeroed set has a bit for the signals from 1 to 63 that are pending and for no others, the
    bit is the one that blocks the signal, and nothing is stored behind the set. -/
structure ReportsPending (q : SignalQueues) (behind : Nat → SigSet) : Prop where
  bits : ∀ i < 64, (q.sigpending (Function.update behind 0 0) 0).getLsbD i = true ↔
    1 ≤ i ∧ q.squeue i ≠ []
  numbering : ∀ i, 1 ≤ i → i < 64 → q.squeue i ≠ [] → ∀ mask,
    (sigprocmask mask .setmask (some (q.sigpending (Function.update behind 0 0) 0))).1 &&&
        sigBit i ≠ 0 ∧
      (sigprocmask mask .unblock (some (q.sigpending (Function.update behind 0 0) 0))).1 &&&
        sigBit i = 0
  inside : ∀ store ∈ q.pendingStores, store.1 = 0

section Report
variable {q : SignalQueues} {behind : Nat → SigSet} {i : Nat}

theorem fold_bits (stores : List (Nat × SigSet)) (inside : ∀ store ∈ stores, store.1 = 0)
    (words : Nat → SigSet) :
    (stores.foldl (fun words store => Function.update words store.1 (words store.1 ||| store.2))
        words 0).getLsbD i = true ↔
      (words 0).getLsbD i = true ∨ ∃ store ∈ stores, store.2.getLsbD i = true := by
  induction stores generalizing words with
  | nil => simp
  | cons store stores ih =>
    rw [List.foldl_cons, ih (fun later member => inside later (List.mem_cons_of_mem _ member)),
      inside store List.mem_cons_self, Function.update_self, BitVec.getLsbD_or]
    simp [or_assoc]

theorem stored_bit : ∀ r < 8, ∀ b < 64,
    (((1 : BitVec 32) <<< r).signExtend 64).getLsbD b = decide (b = r) := by
  decide +kernel

theorem mem_pendingStores {store : Nat × SigSet} : store ∈ q.pendingStores ↔
    ∃ i < nsig, q.squeue i ≠ [] ∧
      store = (i / 8, ((1 : BitVec 32) <<< (i % 8)).signExtend 64) := by
  simp only [pendingStores, List.mem_map, List.mem_filter, List.mem_range, decide_eq_true_eq]
  constructor
  · rintro ⟨i, ⟨below, pending⟩, rfl⟩
    exact ⟨i, below, pending, rfl⟩
  · rintro ⟨i, below, pending, rfl⟩
    exact ⟨i, ⟨below, pending⟩, rfl⟩

theorem stores_inside_iff : (∀ store ∈ q.pendingStores, store.1 = 0) ↔
    ∀ i, 8 ≤ i → i < nsig → q.squeue i = [] := by
  constructor
  · intro inside i high below
    by_contra pending
    have first := inside _ (mem_pendingStores.mpr ⟨i, below, pending, rfl⟩)
    dsimp only at first
    omega
  · intro empty store member
    obtain ⟨i, below, pending, rfl⟩ := mem_pendingStores.mp member
    have low : i < 8 := by
      by_contra high
      exact pending (empty i (by omega) below)
    exact Nat.div_eq_of_lt low

theorem sigpending_bits (behind : Nat → SigSet)
    (empty : ∀ i, 8 ≤ i → i < nsig → q.squeue i = []) (small : i < 64) :
    (q.sigpending (Function.update behind 0 0) 0).getLsbD i = true ↔ q.squeue i ≠ [] := by
  rw [sigpending, fold_bits _ (stores_inside_iff.mpr empty), Function.update_self]
  simp only [BitVec.ofNat_eq_ofNat, BitVec.getLsbD_zero, Bool.false_eq_true, false_or]
  constructor
  · rintro ⟨store, member, bit⟩
    obtain ⟨j, below, pending, rfl⟩ := mem_pendingStores.mp member
    have low : j < 8 := by
      by_contra high
      exact pending (empty j (by omega) below)
    rw [stored_bit _ (Nat.mod_lt _ (by decide)) i small, decide_eq_true_iff,
      Nat.mod_eq_of_lt low] at bit
    exact bit ▸ pending
  · intro pending
    have low : i < 8 := by
      by_contra high
      exact pending (empty i (by omega) (by unfold nsig; omega))
    refine ⟨_, mem_pendingStores.mpr ⟨i, by unfold nsig; omega, pending, rfl⟩, ?_⟩
    rw [stored_bit _ (Nat.mod_lt _ (by decide)) i small, Nat.mod_eq_of_lt low]
    simp

theorem and_sigBit_low {mask : SigSet} (low : i < 31) :
    mask &&& sigBit i = 0 ↔ mask.getLsbD i = false := by
  have only (b : Nat) : Tested i b ↔ b = i := by
    unfold Tested
    omega
  simp only [and_sigBit, only, forall_eq]

/-- The report is faithful just when no signal from 8 on is pending, and none with number 0. -/
theorem sigpending_faithful_iff (q : SignalQueues) (behind : Nat → SigSet) :
    q.ReportsPending behind ↔
      q.squeue 0 = [] ∧ ∀ i, 8 ≤ i → i < nsig → q.squeue i = [] := by
  constructor
  · intro report
    have empty := stores_inside_iff.mp report.inside
    refine ⟨?_, empty⟩
    by_contra pending
    have bit := (report.bits 0 (by decide)).mp
      ((sigpending_bits behind empty (by decide)).mpr pending)
    exact absurd bit.1 (by decide)
  · rintro ⟨none, empty⟩
    refine ⟨fun i small => ?_, fun i low small pending mask => ?_, stores_inside_iff.mpr empty⟩
    · rw [sigpending_bits behind empty small]
      refine ⟨fun pending => ⟨?_, pending⟩, fun both => both.2⟩
      by_contra zero
      obtain rfl : i = 0 := by omega
      exact pending none
    · have early : i < 8 := by
        by_contra high
        exact pending (empty i (by omega) (by unfold nsig; omega))
      have bit := (sigpending_bits behind empty small).mpr pending
      constructor
      · rw [ne_eq, and_sigBit_low (by omega), sigprocmask, bit]
        decide
      · rw [and_sigBit_low (by omega)]
        simp only [sigprocmask, BitVec.getLsbD_and, BitVec.getLsbD_not, bit, Bool.not_true,
          Bool.and_false]

/-- With signal 9 pending the set stays empty, and the word behind it is stored to. -/
theorem sigpending_elsewhere :
    (idle.enqueue 9 0).pendingStores = [(1, 2)] ∧
      (idle.enqueue 9 0).sigpending (fun _ => 0) 0 = 0 ∧
      (idle.enqueue 9 0).sigpending (fun _ => 0) 1 = 2 := by
  decide

end Report

end SignalQueues
end OmenProcess
