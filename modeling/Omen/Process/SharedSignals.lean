import Omen.Process.SignalContext
import Mathlib.Logic.Function.Basic

/- Two threads of different processes. The signal regions are entries of the one vdso that all
   processes have, so what one thread does to them the other one finds. -/
namespace OmenProcess
namespace SignalState
variable {Context : Type}

def share (s : Bool → SignalState Context) (i : Bool) (t : SignalState Context) :
    Bool → SignalState Context := fun j =>
  if j = i then t
  else { s j with
    signo_region := t.signo_region
    sigctxt_region := t.sigctxt_region
    sigact_region := t.sigact_region }

def Undisturbed : (Bool → SignalState Context) → (Bool → Option Context) →
    List (Bool × Event Context) → Prop
  | _, _, [] => True
  | s, saved, (i, .deliver a) :: rest =>
    Undisturbed (share s i ((s i).createSignalContext a))
      (Function.update saved i (some (s i).user_context)) rest
  | s, saved, (i, .enter c) :: rest =>
    Undisturbed (share s i { s i with user_context := c }) saved rest
  | s, saved, (i, .sigreturn) :: rest =>
    ∃ t, (s i).restoreSignalContext = some t ∧ some t.user_context = saved i ∧
      Undisturbed (share s i t) saved rest

/-- In each thread a delivery comes when no handler runs, and a return when one does. -/
def Alternating : (Bool → Bool) → List (Bool × Event Context) → Prop
  | _, [] => True
  | handling, (i, .deliver _) :: rest =>
    handling i = false ∧ Alternating (Function.update handling i true) rest
  | handling, (_, .enter _) :: rest => Alternating handling rest
  | handling, (i, .sigreturn) :: rest =>
    handling i = true ∧ Alternating (Function.update handling i false) rest

/-- Before every return the latest delivery or return is a delivery, or the thread has the saved
    user context already. -/
def Kept : Bool → (Bool → SignalState Context) → (Bool → Option Context) →
    List (Bool × Event Context) → Prop
  | _, _, _, [] => True
  | _, s, saved, (i, .deliver a) :: rest =>
    Kept true (share s i ((s i).createSignalContext a))
      (Function.update saved i (some (s i).user_context)) rest
  | delivered, s, saved, (i, .enter c) :: rest =>
    Kept delivered (share s i { s i with user_context := c }) saved rest
  | delivered, s, saved, (i, .sigreturn) :: rest =>
    (delivered = true ∨ some (s i).user_context = saved i) ∧
      ∀ t, (s i).restoreSignalContext = some t → Kept false (share s i t) saved rest

/-- The regions are there after a delivery and not after a return. -/
structure Regions (delivered : Bool) (s : SignalState Context) : Prop where
  signo : s.signo_region = 0 ↔ delivered = false
  sigctxt : s.sigctxt_region = 0 ↔ delivered = false
  sigact : s.sigact_region = 0 ↔ delivered = false

structure Tracked (delivered : Bool) (handling : Bool → Bool) (s : Bool → SignalState Context)
    (saved : Bool → Option Context) : Prop where
  trampoline : ∀ i, (s i).trampoline ≠ 0
  regions : ∀ i, Regions delivered (s i)
  context : ∀ i, handling i = true → (s i).signal_context = saved i ∧ saved i ≠ none

section Steps
variable {delivered : Bool} {handling : Bool → Bool} {s : Bool → SignalState Context}
  {saved : Bool → Option Context} {i : Bool}

@[simp] theorem share_self (s : Bool → SignalState Context) (i : Bool) (t : SignalState Context) :
    share s i t i = t := if_pos rfl

theorem share_regions {t : SignalState Context} (h : Regions delivered t) (j : Bool) :
    Regions delivered (share s i t j) := by
  rw [share]
  split
  · exact h
  · exact ⟨h.signo, h.sigctxt, h.sigact⟩

theorem share_fields {t : SignalState Context} {j : Bool} (other : j ≠ i) :
    (share s i t j).trampoline = (s j).trampoline ∧
      (share s i t j).signal_context = (s j).signal_context := by
  rw [share, if_neg other]
  exact ⟨rfl, rfl⟩

theorem Tracked.step (h : Tracked delivered handling s saved) {delivered' : Bool}
    {handling' : Bool → Bool} {saved' : Bool → Option Context} {t : SignalState Context}
    (trampoline : t.trampoline ≠ 0) (regions : Regions delivered' t)
    (own : handling' i = true → t.signal_context = saved' i ∧ saved' i ≠ none)
    (others : ∀ j, j ≠ i → handling' j = handling j ∧ saved' j = saved j) :
    Tracked delivered' handling' (share s i t) saved' := by
  refine ⟨fun j => ?_, share_regions regions, fun j running => ?_⟩ <;> by_cases same : j = i
  · rw [same, share_self]
    exact trampoline
  · rw [(share_fields same).1]
    exact h.trampoline j
  · subst same
    rw [share_self]
    exact own running
  · obtain ⟨handling_eq, saved_eq⟩ := others j same
    rw [(share_fields same).2, saved_eq]
    exact h.context j (handling_eq ▸ running)

theorem create_cases (handled : (s i).trampoline ≠ 0) (a : Allocations) :
    ((s i).createSignalContext a).trampoline ≠ 0 ∧
      ((s i).createSignalContext a).signal_context = some (s i).user_context ∧
      Regions true ((s i).createSignalContext a) := by
  have made := handling_create handled a
  obtain ⟨signo, sigctxt, sigact⟩ := made.regions
  have none_false : ¬ true = false := by decide
  exact ⟨made.trampoline, made.context, iff_of_false signo none_false,
    iff_of_false sigctxt none_false, iff_of_false sigact none_false⟩

theorem restore_cases (h : Tracked delivered handling s saved) (running : handling i = true) :
    ∃ t, (s i).restoreSignalContext = some t ∧ t.trampoline ≠ 0 ∧ Regions false t ∧
      (some t.user_context = saved i ↔ delivered = true ∨ some (s i).user_context = saved i) := by
  obtain ⟨context, some_saved⟩ := h.context i running
  have regions := h.regions i
  unfold restoreSignalContext
  dsimp only
  cases delivered with
  | true =>
    obtain ⟨c, saved_eq⟩ := Option.ne_none_iff_exists'.mp some_saved
    have there : ¬ ((s i).signo_region = 0 ∨ (s i).sigctxt_region = 0 ∨
        (s i).sigact_region = 0) := by
      rw [regions.signo, regions.sigctxt, regions.sigact]
      decide
    rw [if_neg there, context, saved_eq]
    exact ⟨_, rfl, h.trampoline i, ⟨by simp, by simp, by simp⟩, by simp⟩
  | false =>
    rw [if_pos (Or.inl (regions.signo.mpr rfl))]
    exact ⟨_, rfl, h.trampoline i, ⟨regions.signo, regions.sigctxt, regions.sigact⟩, by simp⟩

theorem undisturbed_iff_kept (events : List (Bool × Event Context))
    (h : Tracked delivered handling s saved) (alternating : Alternating handling events) :
    Undisturbed s saved events ↔ Kept delivered s saved events := by
  induction events generalizing delivered handling s saved with
  | nil => exact Iff.rfl
  | cons event rest ih =>
    obtain ⟨i, event⟩ := event
    cases event with
    | deliver a =>
      obtain ⟨trampoline, context, regions⟩ := create_cases (h.trampoline i) a
      refine ih (h.step trampoline regions (fun _ => ?_) fun j other => ?_) alternating.2
      · simp [context]
      · simp [other]
    | enter c =>
      refine ih (h.step (h.trampoline i) ?_ (h.context i) fun _ _ => ⟨rfl, rfl⟩) alternating
      exact ⟨(h.regions i).signo, (h.regions i).sigctxt, (h.regions i).sigact⟩
    | sigreturn =>
      obtain ⟨running, later⟩ := alternating
      obtain ⟨t, restored, trampoline, regions, context⟩ := restore_cases h running
      have tracked : Tracked false (Function.update handling i false) (share s i t) saved :=
        h.step trampoline regions (fun no => by simp at no) fun j other => by simp [other]
      have after := ih tracked later
      rw [Undisturbed, Kept, ← context]
      constructor
      · rintro ⟨t', again, right, rest⟩
        rw [restored] at again
        cases again
        refine ⟨right, fun t' same => ?_⟩
        rw [restored] at same
        cases same
        exact after.mp rest
      · rintro ⟨right, rest⟩
        exact ⟨t, restored, right, after.mpr (rest t restored)⟩

end Steps

/-- Returns in one process are right exactly as long as no return of the other one has come since
    the latest delivery. -/
theorem signals_apart_iff {s : Bool → SignalState Context} (handled : ∀ i, (s i).trampoline ≠ 0)
    (fresh : ∀ i, Regions false (s i)) (events : List (Bool × Event Context))
    (alternating : Alternating (fun _ => false) events) :
    Undisturbed s (fun _ => none) events ↔ Kept false s (fun _ => none) events :=
  undisturbed_iff_kept events ⟨handled, fresh, fun _ no => by cases no⟩ alternating

theorem signals_in_turn : Undisturbed (fun _ => plainThread 0x1000) (fun _ => none)
    [(true, .deliver someAllocations), (true, .enter 6), (true, .sigreturn),
      (false, .deliver someAllocations), (false, .enter 7), (false, .sigreturn)] := by
  refine (signals_apart_iff (fun _ => by decide) (fun _ => ⟨by decide, by decide, by decide⟩) _
    ?_).mpr ?_
  · simp [Alternating]
  · exact ⟨Or.inl rfl, fun t _ => ⟨Or.inl rfl, fun t _ => trivial⟩⟩

/-- Both are delivered, then both return: the second to return keeps the handler's context. -/
theorem signals_overlap : ¬ Undisturbed (fun _ => plainThread 0x1000) (fun _ => none)
    [(true, .deliver someAllocations), (false, .deliver someAllocations), (true, .enter 6),
      (true, .sigreturn), (false, .enter 7), (false, .sigreturn)] := by
  rintro ⟨t, first, -, t', second, right, -⟩
  cases first
  cases second
  exact absurd right (by decide)

end SignalState
end OmenProcess
