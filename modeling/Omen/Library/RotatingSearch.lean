import Mathlib.Tactic.Common

/- Stepping through a ring of numbered places. The cursor may also stand behind the ring; the
   first step then brings it back to the start. -/
namespace RotatingSearch

section Search
variable (n : Nat)

def next (c : Nat) : Nat := if c + 1 ≥ n then 0 else c + 1

variable {n} {c : Nat}

theorem next_eq (inside : c < n) : next n c = (c + 1) % n := by
  rw [next]
  split
  · have last : c + 1 = n := by omega
    rw [last, Nat.mod_self]
  · rw [Nat.mod_eq_of_lt (by omega)]

end Search

end RotatingSearch
