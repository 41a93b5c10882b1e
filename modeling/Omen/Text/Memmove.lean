import Omen.Library.ByteMemory

/- `memmove` of `strings.c`. It copies upwards only, when the destination lies below the source,
   and clears each source byte behind itself; for any other destination it does nothing. -/
namespace OmenText
open ByteMemory

variable {m : Mem} {dest src n a i : Nat}

def moveTurn (dest src i : Nat) (m : Mem) : Mem :=
  Function.update (Function.update m (dest + i) (m (src + i))) (src + i) 0

def moveTurns (dest src : Nat) (m : Mem) : Nat → Mem
  | 0 => m
  | i + 1 => moveTurn dest src i (moveTurns dest src m i)

def memmove (m : Mem) (dest src n : Nat) : Mem :=
  if dest < src then moveTurns dest src m n else m

structure Moved (m after : Mem) (dest src n : Nat) : Prop where
  copied : ∀ i, i < n → after (dest + i) = m (src + i)
  others : ∀ a, a < dest ∨ dest + n ≤ a → after a = m a

/-- The destination runs behind the source, so a turn reads a byte that no earlier turn has
    written, and a cleared byte stays 0 until the destination comes to it. -/
theorem moveTurns_byte (below : dest < src) (n a : Nat) : moveTurns dest src m n a =
    if dest ≤ a ∧ a < dest + n then m (src + (a - dest))
    else if src ≤ a ∧ a < src + n then 0 else m a := by
  induction n generalizing a with
  | zero =>
    rw [if_neg (by omega), if_neg (by omega)]
    rfl
  | succ n ih =>
    rw [moveTurns, moveTurn]
    by_cases cleared : a = src + n
    · subst cleared
      rw [Function.update_self, if_neg (by omega), if_pos (by omega)]
    rw [Function.update_of_ne cleared]
    by_cases stored : a = dest + n
    · subst stored
      rw [Function.update_self, ih, if_neg (by omega), if_neg (by omega), if_pos (by omega),
        Nat.add_sub_cancel_left]
    · rw [Function.update_of_ne stored, ih]
      simp only [show (dest ≤ a ∧ a < dest + (n + 1)) ↔ dest ≤ a ∧ a < dest + n by omega,
        show (src ≤ a ∧ a < src + (n + 1)) ↔ src ≤ a ∧ a < src + n by omega]

theorem memmove_copied (below : dest < src) (inside : i < n) :
    memmove m dest src n (dest + i) = m (src + i) := by
  rw [memmove, if_pos below, moveTurns_byte below, if_pos (by omega), Nat.add_sub_cancel_left]

theorem memmove_cleared (below : dest < src) (inside : i < n) (beyond : n ≤ i + (src - dest)) :
    memmove m dest src n (src + i) = 0 := by
  rw [memmove, if_pos below, moveTurns_byte below, if_neg (by omega), if_pos (by omega)]

theorem memmove_others (out : a < dest ∨ dest + n ≤ a) (unread : a < src ∨ src + n ≤ a) :
    memmove m dest src n a = m a := by
  rw [memmove]
  split
  · next below => rw [moveTurns_byte below, if_neg (by omega), if_neg (by omega)]
  · rfl

theorem moved_of_below (below : dest < src)
    (blank : ∀ i, i < n → n ≤ i + (src - dest) → m (src + i) = 0) :
    Moved m (memmove m dest src n) dest src n where
  copied _ inside := memmove_copied below inside
  others a out := by
    by_cases read : src ≤ a ∧ a < src + n
    · obtain ⟨i, rfl⟩ := Nat.exists_eq_add_of_le read.1
      rw [memmove_cleared below (by omega) (by omega), blank i (by omega) (by omega)]
    · exact memmove_others out (by omega)

/-- The bytes are moved, and no other byte is changed, just when the source lies above and is
    already 0 where the destination does not reach it, or nothing had to be copied. -/
theorem memmove_moves_iff (m : Mem) (dest src n : Nat) :
    Moved m (memmove m dest src n) dest src n ↔
      (dest < src ∧ ∀ i, i < n → n ≤ i + (src - dest) → m (src + i) = 0) ∨
        (src ≤ dest ∧ ∀ i, i < n → m (dest + i) = m (src + i)) := by
  rcases Nat.lt_or_ge dest src with below | above
  · constructor
    · intro moved
      refine .inl ⟨below, fun i inside beyond => ?_⟩
      rw [← moved.others (src + i) (by omega), memmove_cleared below inside beyond]
    · rintro (⟨-, blank⟩ | ⟨above, -⟩)
      · exact moved_of_below below blank
      · omega
  · have idle : memmove m dest src n = m := if_neg (by omega)
    rw [idle]
    constructor
    · intro moved
      exact .inr ⟨above, moved.copied⟩
    · rintro (⟨below, -⟩ | ⟨-, same⟩)
      · omega
      · exact ⟨same, fun _ _ => rfl⟩

/-- One byte moved down by one is gone from its old place, which the destination does not hold;
    moved up by one it does not arrive. -/
theorem memmove_loses :
    ¬ Moved (Function.update blank 1 7) (memmove (Function.update blank 1 7) 0 1 1) 0 1 1 ∧
      ¬ Moved (Function.update blank 1 7) (memmove (Function.update blank 1 7) 2 1 1) 2 1 1 := by
  constructor
  · intro moved
    exact absurd (moved.others 1 (by decide)) (by decide)
  · intro moved
    exact absurd (moved.copied 0 (by decide)) (by decide)

end OmenText
