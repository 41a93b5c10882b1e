import Mathlib.Data.List.Basic

/- A fold over blocks of one size, taken from input that comes in pieces. What is not a whole
   block yet waits; how the input was cut does not matter. -/
namespace BlockFold

variable {σ α : Type*} (f : σ → List α → σ) (size : Nat)

def blocks (s : σ) : Nat → List α → σ
  | 0, _ => s
  | n + 1, xs => blocks (f s (xs.take size)) n (xs.drop size)

variable {f size} {s start : σ} {n k : Nat} {xs ys front rest : List α}

theorem blocks_append (whole : xs.length = n * size) :
    blocks f size s (n + k) (xs ++ ys) = blocks f size (blocks f size s n xs) k ys := by
  induction n generalizing s xs with
  | zero =>
    rw [Nat.zero_mul] at whole
    rw [List.eq_nil_of_length_eq_zero whole, Nat.zero_add, List.nil_append, blocks]
  | succ n ih =>
    rw [Nat.succ_mul] at whole
    rw [Nat.succ_add, blocks, blocks, List.take_append_of_le_length (by omega),
      List.drop_append_of_le_length (by omega)]
    exact ih (by rw [List.length_drop]; omega)

variable (f size) in
def Absorbed (start : σ) (xs : List α) (s : σ) (rest : List α) : Prop :=
  ∃ n front, xs = front ++ rest ∧ front.length = n * size ∧ s = blocks f size start n front

namespace Absorbed

theorem nothing (start : σ) : Absorbed f size start [] start [] :=
  ⟨0, [], rfl, (Nat.zero_mul size).symm, rfl⟩

theorem wait (done : Absorbed f size start xs s rest) (ys : List α) :
    Absorbed f size start (xs ++ ys) s (rest ++ ys) := by
  obtain ⟨n, front, rfl, whole, state⟩ := done
  exact ⟨n, front, List.append_assoc front rest ys, whole, state⟩

theorem fold (done : Absorbed f size start xs s (ys ++ rest)) (whole : ys.length = k * size) :
    Absorbed f size start xs (blocks f size s k ys) rest := by
  obtain ⟨n, front, rfl, length, rfl⟩ := done
  refine ⟨n + k, front ++ ys, (List.append_assoc front ys rest).symm, ?_, ?_⟩
  · rw [List.length_append, length, whole, Nat.add_mul]
  · rw [blocks_append length]

theorem complete (done : Absorbed f size start xs s []) (positive : 0 < size) :
    s = blocks f size start (xs.length / size) xs := by
  obtain ⟨n, front, rfl, length, rfl⟩ := done
  rw [List.append_nil, length, Nat.mul_div_cancel n positive]

end Absorbed
end BlockFold
