import Mathlib.Data.BitVec

/- `create_signal_context` for signals with a handler and `restore_signal_context`, with what a
   thread and the vdso keep for them. A context is copied with all its pointers lead to and is
   known by its value; areas and mappings are left out. -/
namespace OmenProcess

abbrev Word := BitVec 64

def processStackSize : Word := 0x10000

/-- The fields of a thread and the entries of the vdso that a delivery uses; a region that is
    not there is 0. -/
structure SignalState (Context : Type) where
  ustack : Word
  ustack_base : Word
  ustack_size : Word
  ustack_guard_size : Word
  altstack : Word
  altstack_base : Word
  altstack_size : Word
  altstack_guard_size : Word
  altstack_saved_stack : Word
  altstack_saved_base : Word
  user_context : Context
  signal_context : Option Context
  trampoline : Word
  signo_region : Word
  sigctxt_region : Word
  sigact_region : Word

/-- What the allocators hand out in a delivery. `vdso_allocate_region` panics rather than
    return 0. -/
structure Allocations where
  stack_top : Word
  stack_base : Word
  signo : Word
  sigctxt : Word
  sigact : Word
  given : signo ≠ 0 ∧ sigctxt ≠ 0 ∧ sigact ≠ 0

namespace SignalState
variable {Context : Type}

def altstackSize (s : SignalState Context) : Word :=
  let size := s.altstack - s.altstack_base
  if size % 0x1000 ≠ 0 then (size + 0x1000) &&& ~~~0xfff else size

/-- `create_signal_context`, which `newsctxcreat` ends with five words on the stack. -/
def createSignalContext (s : SignalState Context) (a : Allocations) : SignalState Context :=
  if s.trampoline = 0 then s
  else
    let s := { s with signal_context := some s.user_context }
    let (s, size) :=
      if s.altstack = 0 then
        ({ s with altstack := a.stack_top, altstack_base := a.stack_base }, processStackSize)
      else (s, s.altstackSize)
    let s := { s with
      altstack_saved_stack := s.ustack
      altstack_saved_base := s.ustack_base
      altstack_size := s.ustack_size
      altstack_guard_size := s.ustack_guard_size }
    let s := { s with
      ustack := s.altstack
      ustack_base := s.altstack_base
      ustack_size := size
      ustack_guard_size := s.altstack_guard_size }
    { s with
      signo_region := a.signo
      sigctxt_region := a.sigctxt
      sigact_region := a.sigact
      ustack := s.ustack - 40 }

/-- `restore_signal_context`; no result where it reads a context from nowhere. -/
def restoreSignalContext (s : SignalState Context) : Option (SignalState Context) :=
  let s := { s with
    ustack := s.altstack_saved_stack
    ustack_base := s.altstack_saved_base
    ustack_size := s.ustack_guard_size
    ustack_guard_size := s.altstack_guard_size
    altstack_saved_stack := 0
    altstack_saved_base := 0 }
  if s.signo_region = 0 ∨ s.sigctxt_region = 0 ∨ s.sigact_region = 0 then some s
  else do
    let context ← s.signal_context
    some { s with
      signo_region := 0
      sigctxt_region := 0
      sigact_region := 0
      user_context := context
      signal_context := none }

structure Interrupted (Context : Type) where
  ustack : Word
  ustack_base : Word
  ustack_size : Word
  ustack_guard_size : Word
  user_context : Context

def interrupted (s : SignalState Context) : Interrupted Context :=
  ⟨s.ustack, s.ustack_base, s.ustack_size, s.ustack_guard_size, s.user_context⟩

/-- A signal is delivered, a system call leaves its registers in the user context, or a handler
    returns. -/
inductive Event (Context : Type)
  | deliver (a : Allocations)
  | enter (c : Context)
  | sigreturn

/-- Every return undoes the latest delivery that has not been undone yet. -/
def Restored : SignalState Context → List (Interrupted Context) → List (Event Context) → Prop
  | _, _, [] => True
  | s, saved, .deliver a :: rest => Restored (s.createSignalContext a) (s.interrupted :: saved) rest
  | s, saved, .enter c :: rest => Restored { s with user_context := c } saved rest
  | _, [], .sigreturn :: _ => True
  | s, before :: saved, .sigreturn :: rest =>
    ∃ s', s.restoreSignalContext = some s' ∧ s'.interrupted = before ∧ Restored s' saved rest

def Closed : Nat → List (Event Context) → Prop
  | n, [] => n = 0
  | n, .deliver _ :: rest => Closed (n + 1) rest
  | n, .enter _ :: rest => Closed n rest
  | 0, .sigreturn :: _ => False
  | n + 1, .sigreturn :: rest => Closed n rest

/-- A signal is delivered only when no handler runs, on a stack as long as its guard. -/
def Flat : SignalState Context → Bool → List (Event Context) → Prop
  | _, _, [] => True
  | s, handling, .deliver a :: rest =>
    handling = false ∧ s.ustack_size = s.ustack_guard_size ∧
      Flat (s.createSignalContext a) true rest
  | s, handling, .enter c :: rest => Flat { s with user_context := c } handling rest
  | s, _, .sigreturn :: rest => ∀ s', s.restoreSignalContext = some s' → Flat s' false rest

def Stacked : SignalState Context → List (Event Context) → Prop
  | _, [] => True
  | s, .deliver a :: rest => s.ustack ≠ 0 ∧ Stacked (s.createSignalContext a) rest
  | s, .enter c :: rest => Stacked { s with user_context := c } rest
  | s, .sigreturn :: rest => ∀ s', s.restoreSignalContext = some s' → Stacked s' rest

structure Handling (s : SignalState Context) (before : Interrupted Context) : Prop where
  stack : s.altstack_saved_stack = before.ustack
  base : s.altstack_saved_base = before.ustack_base
  guard : s.ustack_guard_size = before.ustack_guard_size
  saved_guard : s.altstack_guard_size = before.ustack_guard_size
  context : s.signal_context = some before.user_context
  regions : s.signo_region ≠ 0 ∧ s.sigctxt_region ≠ 0 ∧ s.sigact_region ≠ 0
  trampoline : s.trampoline ≠ 0

section Delivery
variable {s s' : SignalState Context} {before : Interrupted Context}

theorem handling_create (handled : s.trampoline ≠ 0) (a : Allocations) :
    Handling (s.createSignalContext a) s.interrupted := by
  unfold createSignalContext
  rw [if_neg handled]
  dsimp only
  split <;> exact ⟨rfl, rfl, rfl, rfl, rfl, a.given, handled⟩

theorem Handling.enter (handling : Handling s before) (c : Context) :
    Handling { s with user_context := c } before :=
  ⟨handling.stack, handling.base, handling.guard, handling.saved_guard, handling.context,
    handling.regions, handling.trampoline⟩

theorem Handling.restore (handling : Handling s before) :
    ∃ s', s.restoreSignalContext = some s' ∧
      s'.interrupted = { before with ustack_size := before.ustack_guard_size } ∧
      s'.trampoline ≠ 0 := by
  obtain ⟨signo, sigctxt, sigact⟩ := handling.regions
  unfold restoreSignalContext
  dsimp only
  rw [if_neg (by rintro (none | none | none); exacts [signo none, sigctxt none, sigact none]),
    handling.context]
  refine ⟨_, rfl, ?_, handling.trampoline⟩
  dsimp only [interrupted]
  rw [handling.stack, handling.base, handling.guard, handling.saved_guard]

theorem restored_size_iff :
    { before with ustack_size := before.ustack_guard_size } = before ↔
      before.ustack_size = before.ustack_guard_size := by
  constructor
  · intro same
    exact (congrArg Interrupted.ustack_size same).symm
  · intro same
    obtain ⟨ustack, base, size, guard, context⟩ := before
    cases same
    rfl

theorem restore_stack (restored : s.restoreSignalContext = some s') :
    s'.ustack = s.altstack_saved_stack ∧ s'.altstack_saved_stack = 0 := by
  unfold restoreSignalContext at restored
  dsimp only at restored
  split at restored
  · cases restored
    exact ⟨rfl, rfl⟩
  · obtain ⟨context, -, same⟩ := Option.bind_eq_some_iff.mp restored
    cases same
    exact ⟨rfl, rfl⟩

theorem Handling.restored_iff (handling : Handling s before) (calls : List Context) :
    Restored s [before] (calls.map .enter ++ [.sigreturn]) ↔
      before.ustack_size = before.ustack_guard_size := by
  induction calls generalizing s with
  | nil =>
    obtain ⟨s', restored, back, -⟩ := handling.restore
    rw [← restored_size_iff, ← back]
    constructor
    · rintro ⟨s'', again, same, -⟩
      rw [restored] at again
      cases again
      exact same
    · intro same
      exact ⟨s', restored, same, trivial⟩
  | cons c rest ih => exact ih (handling.enter c)

theorem flat_restored (events : List (Event Context)) :
    (∀ s : SignalState Context, s.trampoline ≠ 0 → Flat s false events → Restored s [] events) ∧
    ∀ (s : SignalState Context) (before : Interrupted Context), Handling s before →
      before.ustack_size = before.ustack_guard_size → Flat s true events →
      Restored s [before] events := by
  induction events with
  | nil => exact ⟨fun _ _ _ => trivial, fun _ _ _ _ _ => trivial⟩
  | cons event rest ih =>
    cases event with
    | deliver a =>
      constructor
      · rintro s handled ⟨-, same, flat⟩
        exact ih.2 _ _ (handling_create handled a) same flat
      · rintro s before handling same ⟨nested, -⟩
        cases nested
    | enter c =>
      constructor
      · intro s handled flat
        exact ih.1 { s with user_context := c } handled flat
      · intro s before handling same flat
        exact ih.2 _ _ (handling.enter c) same flat
    | sigreturn =>
      constructor
      · intro s handled flat
        trivial
      · intro s before handling same flat
        obtain ⟨s', restored, back, handled⟩ := handling.restore
        refine ⟨s', restored, back.trans (restored_size_iff.mpr same), ?_⟩
        exact ih.1 s' handled (flat s' restored)

/-- Once a second delivery has come on top of a first, some return finds no stack pointer. -/
theorem nested_lost (events : List (Event Context)) (s : SignalState Context)
    (saved : List (Interrupted Context)) (pointed : ∀ before ∈ saved, before.ustack ≠ 0)
    (lost : saved ≠ [] ∧ s.altstack_saved_stack = 0 ∨ 2 ≤ saved.length)
    (closed : Closed saved.length events) (stacked : Stacked s events) :
    ¬ Restored s saved events := by
  induction events generalizing s saved with
  | nil =>
    rcases lost with ⟨some, -⟩ | two
    · exact absurd (List.length_eq_zero_iff.mp closed) some
    · have none : saved.length = 0 := closed
      omega
  | cons event rest ih =>
    cases event with
    | deliver a =>
      refine ih _ (s.interrupted :: saved) ?_ (Or.inr ?_) closed stacked.2
      · intro before member
        rcases List.mem_cons.mp member with rfl | old
        · exact stacked.1
        · exact pointed before old
      · have one : saved ≠ [] := by
          rcases lost with ⟨some, -⟩ | two
          · exact some
          · rintro rfl
            cases two
        exact Nat.succ_le_succ (List.length_pos_iff.mpr one)
    | enter c => exact ih { s with user_context := c } saved pointed lost closed stacked
    | sigreturn =>
      cases saved with
      | nil => exact closed.elim
      | cons before others =>
        rintro ⟨s', restored, back, later⟩
        obtain ⟨stack, none⟩ := restore_stack restored
        rcases lost with ⟨-, gone⟩ | two
        · refine pointed before List.mem_cons_self ?_
          rw [← back, ← gone]
          exact stack
        · refine ih s' others (fun b member => pointed b (List.mem_cons_of_mem _ member))
            (Or.inl ⟨?_, none⟩) closed (stacked s' restored) later
          rintro rfl
          cases two with
          | step less => cases less

theorem restored_flat (events : List (Event Context)) :
    (∀ s : SignalState Context, s.trampoline ≠ 0 → Closed 0 events → Stacked s events →
      Restored s [] events → Flat s false events) ∧
    ∀ (s : SignalState Context) (before : Interrupted Context), Handling s before →
      before.ustack ≠ 0 → Closed 1 events → Stacked s events → Restored s [before] events →
      before.ustack_size = before.ustack_guard_size ∧ Flat s true events := by
  induction events with
  | nil => exact ⟨fun _ _ _ _ _ => trivial, fun _ _ _ _ closed => by cases closed⟩
  | cons event rest ih =>
    cases event with
    | deliver a =>
      constructor
      · rintro s handled closed ⟨pointed, stacked⟩ restored
        obtain ⟨same, flat⟩ := ih.2 _ _ (handling_create handled a) pointed closed stacked restored
        exact ⟨rfl, same, flat⟩
      · rintro s before handling pointed closed ⟨here, stacked⟩ restored
        refine absurd restored (nested_lost rest _ [s.interrupted, before] ?_ (Or.inr ?_) closed
          stacked)
        · intro b member
          rcases List.mem_cons.mp member with rfl | other
          · exact here
          · rw [List.mem_singleton.mp other]
            exact pointed
        · exact Nat.le_refl 2
    | enter c =>
      constructor
      · intro s handled closed stacked restored
        exact ih.1 { s with user_context := c } handled closed stacked restored
      · intro s before handling pointed closed stacked restored
        exact ih.2 _ _ (handling.enter c) pointed closed stacked restored
    | sigreturn =>
      constructor
      · intro s handled closed
        exact closed.elim
      · rintro s before handling pointed closed stacked ⟨s', restored, back, later⟩
        obtain ⟨s'', again, guard, handled⟩ := handling.restore
        rw [restored] at again
        cases again
        refine ⟨restored_size_iff.mp (guard.symm.trans back), fun other same => ?_⟩
        rw [restored] at same
        cases same
        exact ih.1 s' handled closed (stacked s' restored) later

end Delivery

/-- A return gives back what its delivery has interrupted exactly when the user stack is as long
    as its guard; in longer sequences no delivery may come while a handler runs. -/
theorem signal_return_restores_iff {s : SignalState Context} (handled : s.trampoline ≠ 0) :
    (∀ a (calls : List Context),
      Restored s [] (.deliver a :: (calls.map .enter ++ [.sigreturn])) ↔
        s.ustack_size = s.ustack_guard_size) ∧
    (∀ events, Flat s false events → Restored s [] events) ∧
    ∀ events, Closed 0 events → Stacked s events →
      (Restored s [] events ↔ Flat s false events) := by
  refine ⟨?_, ?_, ?_⟩
  · intro a calls
    exact (handling_create handled a).restored_iff calls
  · intro events flat
    exact (flat_restored events).1 s handled flat
  · intro events closed stacked
    exact ⟨(restored_flat events).1 s handled closed stacked, (flat_restored events).1 s handled⟩

def plainThread (guard : Word) : SignalState Word where
  ustack := 0x7ff0
  ustack_base := 0x7000
  ustack_size := 0x1000
  ustack_guard_size := guard
  altstack := 0
  altstack_base := 0
  altstack_size := 0
  altstack_guard_size := 0
  altstack_saved_stack := 0
  altstack_saved_base := 0
  user_context := 5
  signal_context := none
  trampoline := 0x100
  signo_region := 0
  sigctxt_region := 0
  sigact_region := 0

def someAllocations : Allocations where
  stack_top := 0x9fe8
  stack_base := 0x8000
  signo := 0x200
  sigctxt := 0x300
  sigact := 0x400
  given := by decide

theorem signal_return_equal_guard :
    Restored (plainThread 0x1000) []
      (.deliver someAllocations :: ([6, 7].map .enter ++ [.sigreturn])) :=
  ((signal_return_restores_iff (by decide)).1 someAllocations [6, 7]).mpr rfl

/-- With a guard of another size the stack has another size after the return; and after two
    returns from nested handlers the stack pointer is 0. -/
theorem signal_return_loses_stack :
    ((plainThread 0x2000).createSignalContext someAllocations).restoreSignalContext.map
      (fun s => (s.ustack, s.ustack_size)) = some (0x7ff0, 0x2000) ∧
    ¬ Restored (plainThread 0x2000) [] [.deliver someAllocations, .sigreturn] ∧
    (do
      let inner := ((plainThread 0x1000).createSignalContext someAllocations).createSignalContext
        someAllocations
      let outer ← inner.restoreSignalContext
      let s ← outer.restoreSignalContext
      some (s.ustack, s.ustack_base)) = some (0, 0) ∧
    ¬ Restored (plainThread 0x1000) []
      [.deliver someAllocations, .deliver someAllocations, .sigreturn, .sigreturn] := by
  refine ⟨by decide +kernel, ?_, by decide +kernel, ?_⟩
  · rintro ⟨s', restored, back, -⟩
    cases restored
    exact absurd (congrArg Interrupted.ustack_size back) (by decide +kernel)
  · rintro ⟨inner, first, -, outer, second, back, -⟩
    cases first
    cases second
    exact absurd (congrArg Interrupted.ustack back) (by decide +kernel)

end SignalState

end OmenProcess
