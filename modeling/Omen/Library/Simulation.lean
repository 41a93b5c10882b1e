import Mathlib.Data.List.Basic

/- Two machines whose steps may stop, side by side: what one step keeps, a run keeps. -/
namespace Simulation

variable {ε σ τ σ' τ' : Type} {κ : Type*} {R : σ → τ → Prop} {R' : σ' → τ' → Prop}

inductive Both (R : σ → τ → Prop) : Except ε σ → Except ε τ → Prop
  | ok {s : σ} {t : τ} (related : R s t) : Both R (.ok s) (.ok t)
  | error (e : ε) : Both R (.error e) (.error e)

namespace Both

theorem bind {x : Except ε σ} {y : Except ε τ} {f : σ → Except ε σ'} {g : τ → Except ε τ'}
    (first : Both R x y) (next : ∀ s t, R s t → Both R' (f s) (g t)) :
    Both R' (x >>= f) (y >>= g) := by
  cases first with
  | ok related => exact next _ _ related
  | error e => exact .error e

theorem foldlM {f : σ → κ → Except ε σ} {g : τ → κ → Except ε τ}
    (step : ∀ s t k, R s t → Both R (f s k) (g t k)) {s : σ} {t : τ} (start : R s t)
    (calls : List κ) : Both R (calls.foldlM f s) (calls.foldlM g t) := by
  induction calls generalizing s t with
  | nil => exact .ok start
  | cons call calls ih =>
    rw [List.foldlM_cons, List.foldlM_cons]
    exact (step s t call start).bind fun s t related => ih related

theorem error_iff {x : Except ε σ} {y : Except ε τ} (both : Both R x y) (e : ε) :
    x = .error e ↔ y = .error e := by
  cases both with
  | ok related => simp
  | error e' => simp

theorem of_ok {x : Except ε σ} {y : Except ε τ} {s : σ} (both : Both R x y) (done : x = .ok s) :
    ∃ t, y = .ok t ∧ R s t := by
  subst done
  cases both with
  | ok related => exact ⟨_, rfl, related⟩

end Both
end Simulation
