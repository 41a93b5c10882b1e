import Mathlib.Init

/- Computations that can stop: in a panic, or at a loop that has not ended when its rounds are
   used up. `Leads` is what they do otherwise; no rounds may be used up. -/
namespace Halting

inductive Halt where
  | panic
  | endless
  deriving DecidableEq

variable {α β : Type}

def Leads (r : Except Halt α) (post : α → Prop) : Prop :=
  match r with
  | .ok a => post a
  | .error .panic => True
  | .error .endless => False

variable {r : Except Halt α} {post : α → Prop} {f : α → Except Halt β} {wanted : β → Prop}

theorem Leads.of_ok {a : α} (leads : Leads r post) (done : r = .ok a) : post a := by
  subst done
  exact leads

theorem Leads.ends (leads : Leads r post) : r ≠ .error .endless := by
  rintro rfl
  exact leads

end Halting
