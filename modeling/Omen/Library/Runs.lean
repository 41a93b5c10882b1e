import Mathlib.Data.List.Basic
import Mathlib.Data.List.Induction

/- What holds at every step of a run: of each step and of the steps before it. -/
namespace Runs

variable {α : Type*} {P : List α → α → Prop} {xs : List α} {x : α}

def Along (P : List α → α → Prop) (xs : List α) : Prop := ∀ u x, u ++ [x] <+: xs → P u x

theorem along_nil : Along P [] := by
  intro u x part
  have := part.length_le
  simp at this

theorem along_snoc : Along P (xs ++ [x]) ↔ Along P xs ∧ P xs x := by
  constructor
  · intro along
    exact ⟨fun u y part => along u y (part.trans (List.prefix_append xs [x])),
      along xs x List.prefix_rfl⟩
  · rintro ⟨along, last⟩ u y part
    rcases List.prefix_concat_iff.mp part with whole | part
    · obtain ⟨rfl, same⟩ := List.append_inj' whole rfl
      cases same
      exact last
    · exact along u y part

theorem Along.of_prefix {u : List α} (along : Along P xs) (part : u <+: xs) : Along P u :=
  fun v x before => along v x (before.trans part)

theorem along_iff_get : Along P xs ↔ ∀ i : Fin xs.length, P (xs.take i) (xs.get i) := by
  constructor
  · intro along i
    apply along
    rw [List.get_eq_getElem, List.take_append_getElem]
    exact List.take_prefix _ _
  · rintro every u x ⟨v, rfl⟩
    have here := every ⟨u.length, by simp⟩
    simpa using here

instance [∀ u x, Decidable (P u x)] : Decidable (Along P xs) :=
  decidable_of_iff _ along_iff_get.symm

section Steps
variable {σ κ : Type*} (step : σ → κ → σ)

def Throughout (P : σ → Prop) : σ → List κ → Prop
  | s, [] => P s
  | s, call :: calls => P s ∧ Throughout P (step s call) calls

def Each (fits : σ → κ → Prop) : σ → List κ → Prop
  | _, [] => True
  | s, call :: calls => fits s call ∧ Each fits (step s call) calls

variable {step} {P inv : σ → Prop} {fits : σ → κ → Prop} {s : σ} {calls : List κ}

theorem Throughout.first (all : Throughout step P s calls) : P s := by
  cases calls with
  | nil => exact all
  | cons call calls => exact all.1

theorem Throughout.last (all : Throughout step P s calls) : P (calls.foldl step s) := by
  induction calls generalizing s with
  | nil => exact all
  | cons call calls ih => exact ih all.2

theorem each_true : Each step (fun _ _ => True) s calls := by
  induction calls generalizing s with
  | nil => trivial
  | cons call calls ih => exact ⟨trivial, ih⟩

theorem throughout_of_each (holds : ∀ s, inv s → P s)
    (keeps : ∀ s call, inv s → fits s call → inv (step s call)) (start : inv s)
    (each : Each step fits s calls) : Throughout step P s calls := by
  induction calls generalizing s with
  | nil => exact holds s start
  | cons call calls ih => exact ⟨holds s start, ih (keeps s call start each.1) each.2⟩

/-- The rule for an exact condition: a call that does not meet it breaks the property at once. -/
theorem throughout_iff_each (holds : ∀ s, inv s → P s)
    (keeps : ∀ s call, inv s → fits s call → inv (step s call))
    (breaks : ∀ s call, inv s → P (step s call) → fits s call) (start : inv s) :
    Throughout step P s calls ↔ Each step fits s calls := by
  induction calls generalizing s with
  | nil => exact iff_of_true (holds s start) trivial
  | cons call calls ih =>
    constructor
    · rintro ⟨-, later⟩
      have meets := breaks s call start later.first
      exact ⟨meets, (ih (keeps s call start meets)).mp later⟩
    · rintro ⟨meets, later⟩
      exact ⟨holds s start, (ih (keeps s call start meets)).mpr later⟩

end Steps
end Runs
