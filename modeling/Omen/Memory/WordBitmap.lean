import Mathlib.Data.Nat.Bitwise
import Mathlib.Logic.Function.Basic

/- `bitmap.h`: bits in an array of words. Each operation is one store into one word, and one
   update of the bits. -/
namespace OmenMemory

abbrev BitmapWords := Nat → Nat

def bitmapNumBits : Nat := 64

def bitmapIndexShift : Nat := 6

def bitmapIndexMask : Nat := bitmapNumBits - 1

def bitmapSet (bitmap : BitmapWords) (index : Nat) : BitmapWords :=
  Function.update bitmap (index >>> bitmapIndexShift)
    (bitmap (index >>> bitmapIndexShift) ||| 1 <<< (index &&& bitmapIndexMask))

def bitmapClear (bitmap : BitmapWords) (index : Nat) : BitmapWords :=
  Function.update bitmap (index >>> bitmapIndexShift)
    (bitmap (index >>> bitmapIndexShift) &&&
      (2 ^ bitmapNumBits - 1 - 1 <<< (index &&& bitmapIndexMask)))

def bitmapGet (bitmap : BitmapWords) (index : Nat) : Bool :=
  bitmap (index >>> bitmapIndexShift) &&& 1 <<< (index &&& bitmapIndexMask) != 0

def bitmapToggle (bitmap : BitmapWords) (index : Nat) : BitmapWords :=
  if bitmapGet bitmap index then bitmapClear bitmap index else bitmapSet bitmap index

theorem bitmapIndex_word (index : Nat) : index >>> bitmapIndexShift = index / 64 :=
  Nat.shiftRight_eq_div_pow index 6

theorem bitmapIndex_bit (index : Nat) : index &&& bitmapIndexMask = index % 64 :=
  Nat.and_two_pow_sub_one_eq_mod index 6

theorem bitmapGet_eq (bitmap : BitmapWords) (index : Nat) :
    bitmapGet bitmap index = (bitmap (index / 64)).testBit (index % 64) := by
  rw [bitmapGet, bitmapIndex_word, bitmapIndex_bit, Nat.one_shiftLeft, Nat.and_two_pow]
  cases (bitmap (index / 64)).testBit (index % 64) <;> simp

theorem bitmapGet_set (bitmap : BitmapWords) (index i : Nat) :
    bitmapGet (bitmapSet bitmap index) i = if i = index then true else bitmapGet bitmap i := by
  rw [bitmapGet_eq, bitmapGet_eq, bitmapSet, bitmapIndex_word, bitmapIndex_bit, Nat.one_shiftLeft,
    Function.update_apply]
  by_cases same : i / 64 = index / 64
  · rw [if_pos same, Nat.testBit_or, Nat.testBit_two_pow, ← same]
    by_cases here : i = index
    · simp [here]
    · rw [if_neg here, decide_eq_false (by omega), Bool.or_false]
  · rw [if_neg same, if_neg (by rintro rfl; exact same rfl)]

theorem bitmapGet_clear (bitmap : BitmapWords) (index i : Nat) :
    bitmapGet (bitmapClear bitmap index) i = if i = index then false else bitmapGet bitmap i := by
  have small : 2 ^ (index % 64) < 2 ^ 64 :=
    Nat.pow_lt_pow_right (by decide) (Nat.mod_lt index (by decide))
  rw [bitmapGet_eq, bitmapGet_eq, bitmapClear, bitmapIndex_word, bitmapIndex_bit,
    Nat.one_shiftLeft, bitmapNumBits, Function.update_apply, Nat.sub_sub, Nat.add_comm 1]
  by_cases same : i / 64 = index / 64
  · rw [if_pos same, Nat.testBit_and, Nat.testBit_two_pow_sub_succ small, Nat.testBit_two_pow,
      decide_eq_true (Nat.mod_lt i (by decide)), ← same, Bool.true_and]
    by_cases here : i = index
    · simp [here]
    · rw [if_neg here, decide_eq_false (by omega), Bool.not_false, Bool.and_true]
  · rw [if_neg same, if_neg (by rintro rfl; exact same rfl)]

theorem bitmapGet_toggle (bitmap : BitmapWords) (index i : Nat) :
    bitmapGet (bitmapToggle bitmap index) i =
      if i = index then !bitmapGet bitmap i else bitmapGet bitmap i := by
  unfold bitmapToggle
  split
  · rename_i isSet
    rw [bitmapGet_clear]
    split
    · rename_i here
      rw [here, isSet]
      rfl
    · rfl
  · rename_i isClear
    rw [bitmapGet_set]
    split
    · rename_i here
      have clear : bitmapGet bitmap index = false := Bool.not_eq_true _ ▸ isClear
      rw [here, clear]
      rfl
    · rfl

end OmenMemory
