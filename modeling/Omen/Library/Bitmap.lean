import Omen.Library.ByteMemory
import Mathlib.Data.Finset.Card
import Mathlib.Logic.Function.Basic

/- Bitmaps as bit functions. A store into a word or a byte of the buffer is one
   `Function.update` of its bits, and the number of clear bits below a limit moves
   by exactly one with each such update. -/
namespace Bitmap
open ByteMemory

def firstClear (isSet : Nat → Bool) : Nat → Nat → Option Nat
  | _, 0 => none
  | i, n + 1 => if isSet i then firstClear isSet (i + 1) n else some i

def clearCount (bits : Nat → Bool) (n : Nat) : Nat :=
  ((Finset.range n).filter fun i => bits i = false).card

theorem firstClear_some {isSet : Nat → Bool} {i n k : Nat}
    (found : firstClear isSet i n = some k) :
    i ≤ k ∧ k < i + n ∧ isSet k = false ∧ ∀ t, i ≤ t → t < k → isSet t = true := by
  induction n generalizing i with
  | zero => simp [firstClear] at found
  | succ n ih =>
    simp only [firstClear] at found
    split at found
    · rename_i used
      obtain ⟨low, high, clear, before⟩ := ih found
      refine ⟨by omega, by omega, clear, ?_⟩
      intro t lowT highT
      by_cases first : t = i
      · rw [first]; exact used
      · exact before t (by omega) highT
    · rename_i free
      cases found
      exact ⟨by omega, by omega, by simpa using free, fun t low high => by omega⟩

theorem firstClear_none {isSet : Nat → Bool} {i n : Nat}
    (missing : firstClear isSet i n = none) : ∀ t, i ≤ t → t < i + n → isSet t = true := by
  induction n generalizing i with
  | zero => intro t low high; omega
  | succ n ih =>
    simp only [firstClear] at missing
    split at missing
    · rename_i used
      intro t low high
      by_cases first : t = i
      · rw [first]; exact used
      · exact ih missing t (by omega) (by omega)
    · cases missing

theorem firstClear_full {isSet : Nat → Bool} {i n : Nat}
    (full : ∀ t, i ≤ t → t < i + n → isSet t = true) : firstClear isSet i n = none := by
  cases result : firstClear isSet i n with
  | none => rfl
  | some k =>
    obtain ⟨low, high, clear, _⟩ := firstClear_some result
    rw [full k low high] at clear
    cases clear

theorem firstClear_append (isSet : Nat → Bool) (i a b : Nat) :
    firstClear isSet i (a + b) = (firstClear isSet i a).or (firstClear isSet (i + a) b) := by
  induction a generalizing i with
  | zero => simp [firstClear]
  | succ a ih =>
    rw [Nat.succ_add, firstClear, firstClear, ih, Nat.add_right_comm i 1 a, ← Nat.add_assoc i a 1]
    split <;> simp

theorem firstClear_shift {isSet shifted : Nat → Bool} {c i n : Nat}
    (same : ∀ k, i ≤ k → k < i + n → shifted k = isSet (c + k)) :
    firstClear isSet (c + i) n = (firstClear shifted i n).map (c + ·) := by
  induction n generalizing i with
  | zero => rfl
  | succ n ih =>
    rw [firstClear, firstClear, same i (by omega) (by omega), Nat.add_assoc,
      ih (fun k low high => same k (by omega) (by omega))]
    split <;> rfl

theorem clearCount_le (bits : Nat → Bool) (n : Nat) : clearCount bits n ≤ n := by
  have h := Finset.card_filter_le (Finset.range n) (fun i => bits i = false)
  simpa [clearCount] using h

theorem clearCount_positive {bits : Nat → Bool} {n i : Nat} (inside : i < n)
    (clear : bits i = false) : 0 < clearCount bits n :=
  Finset.card_pos.mpr ⟨i, by simp [inside, clear]⟩

theorem clear_exists {bits : Nat → Bool} {n : Nat} (positive : 0 < clearCount bits n) :
    ∃ i, i < n ∧ bits i = false := by
  obtain ⟨i, member⟩ := Finset.card_pos.mp positive
  simp only [Finset.mem_filter, Finset.mem_range] at member
  exact ⟨i, member.1, member.2⟩

theorem clearCount_set {bits : Nat → Bool} {n i : Nat} (inside : i < n)
    (clear : bits i = false) :
    clearCount (Function.update bits i true) n + 1 = clearCount bits n := by
  have erased : (Finset.range n).filter (fun t => Function.update bits i true t = false) =
      ((Finset.range n).filter fun t => bits t = false).erase i := by
    ext t
    by_cases same : t = i
    · subst same; simp
    · simp [same]
  have member : i ∈ (Finset.range n).filter fun t => bits t = false := by simp [inside, clear]
  rw [clearCount, erased]
  exact Finset.card_erase_add_one member

theorem clearCount_clear {bits : Nat → Bool} {n i : Nat} (inside : i < n)
    (used : bits i = true) :
    clearCount (Function.update bits i false) n = clearCount bits n + 1 := by
  have h := @clearCount_set (Function.update bits i false) _ _ inside (by simp)
  rw [Function.update_idem, ← used, Function.update_eq_self] at h
  exact h.symm

theorem clearCount_congr {a b : Nat → Bool} {n : Nat} (same : ∀ i, i < n → a i = b i) :
    clearCount a n = clearCount b n := by
  unfold clearCount
  congr 1
  apply Finset.filter_congr
  intro i member
  rw [same i (Finset.mem_range.mp member)]

theorem clearCount_none {bits : Nat → Bool} {n : Nat} (full : ∀ i, i < n → bits i = true) :
    clearCount bits n = 0 := by
  by_contra some
  obtain ⟨i, inside, clear⟩ := clear_exists (Nat.pos_of_ne_zero some)
  rw [full i inside] at clear
  cases clear

theorem clearCount_all {bits : Nat → Bool} {n : Nat} (empty : ∀ i, i < n → bits i = false) :
    clearCount bits n = n := by
  unfold clearCount
  rw [Finset.filter_true_of_mem (fun i member => empty i (Finset.mem_range.mp member))]
  simp

theorem mem_ext {a b : Mem} (same : bitAt a = bitAt b) : a = b := by
  funext i
  apply UInt8.toNat_inj.mp
  apply Nat.eq_of_testBit_eq
  intro k
  by_cases inside : k < 8
  · have h := congrFun same (8 * i + k)
    have byte : (8 * i + k) / 8 = i := by omega
    have place : (8 * i + k) % 8 = k := by omega
    simpa [bitAt, byte, place] using h
  · have far : 2 ^ 8 ≤ 2 ^ k := Nat.pow_le_pow_right (by omega) (by omega)
    have la := (a i).toNat_lt
    have lb := (b i).toNat_lt
    rw [Nat.testBit_lt_two_pow (by omega), Nat.testBit_lt_two_pow (by omega)]

theorem bitAt_putWord (m : Mem) (j v i : Nat) :
    bitAt (putWord m j v) i =
      if 32 * j ≤ i ∧ i < 32 * j + 32 then v.testBit (i - 32 * j) else bitAt m i := by
  have start : 8 * (4 * j) = 32 * j := by omega
  have stop : 8 * (4 * j + 4) = 32 * j + 32 := by omega
  rw [putWord, bitAt_putLE, start, stop]

theorem testBit_set (v k b : Nat) :
    (v ||| 1 <<< k).testBit b = if b = k then true else v.testBit b := by
  rw [Nat.testBit_or, Nat.one_shiftLeft, Nat.testBit_two_pow]
  by_cases same : b = k
  · simp [same]
  · simp [same, Ne.symm same]

theorem testBit_clear {n b : Nat} (v k : Nat) (low : b < n) :
    (v &&& ((2 ^ n - 1) ^^^ 1 <<< k)).testBit b = if b = k then false else v.testBit b := by
  rw [Nat.testBit_and, Nat.testBit_xor, Nat.testBit_two_pow_sub_one, Nat.one_shiftLeft,
    Nat.testBit_two_pow]
  by_cases same : b = k
  · simp [same, same ▸ low]
  · simp [same, Ne.symm same, low]

theorem word_update_bit {m : Mem} {j k v : Nat} {value : Bool} (inside : k < 32)
    (bits : ∀ b < 32, v.testBit b = if b = k then value else (word m j).testBit b) :
    bitAt (putWord m j v) = Function.update (bitAt m) (32 * j + k) value := by
  funext i
  rw [bitAt_putWord]
  by_cases here : 32 * j ≤ i ∧ i < 32 * j + 32
  · have low : i - 32 * j < 32 := by omega
    have back : 32 * j + (i - 32 * j) = i := by omega
    rw [if_pos here, bits _ low, testBit_word m low, back]
    by_cases same : i = 32 * j + k
    · simp [same]
    · have other : ¬ i - 32 * j = k := by omega
      simp [same, other]
  · have same : i ≠ 32 * j + k := by omega
    simp [here, same]

theorem word_set_bit (m : Mem) (j : Nat) {k : Nat} (inside : k < 32) :
    bitAt (putWord m j (word m j ||| 1 <<< k)) = Function.update (bitAt m) (32 * j + k) true :=
  word_update_bit inside fun b _ => testBit_set _ k b

theorem word_clear_bit (m : Mem) (j : Nat) {k : Nat} (inside : k < 32) :
    bitAt (putWord m j (word m j &&& (0xFFFFFFFF ^^^ 1 <<< k))) =
      Function.update (bitAt m) (32 * j + k) false :=
  word_update_bit inside fun _ low => testBit_clear _ k low

theorem byte_update_bit {m : Mem} {j k : Nat} {byte : UInt8} {value : Bool} (inside : k < 8)
    (bits : ∀ b < 8, byte.toNat.testBit b = if b = k then value else (m j).toNat.testBit b) :
    bitAt (Function.update m j byte) = Function.update (bitAt m) (8 * j + k) value := by
  funext i
  by_cases here : i / 8 = j
  · have low : i % 8 < 8 := Nat.mod_lt i (by omega)
    simp only [bitAt, here, Function.update_self, bits _ low]
    by_cases same : i = 8 * j + k
    · have place : k % 8 = k := Nat.mod_eq_of_lt inside
      simp [same, place]
    · have other : ¬ i % 8 = k := by omega
      simp [same, other, bitAt, here]
  · have same : i ≠ 8 * j + k := by omega
    simp [bitAt, here, same]

theorem byte_set_bit (m : Mem) (j : Nat) {k : Nat} (inside : k < 8) :
    bitAt (Function.update m j (UInt8.ofNat ((m j).toNat ||| 1 <<< k))) =
      Function.update (bitAt m) (8 * j + k) true := by
  apply byte_update_bit inside
  intro b low
  rw [UInt8.toNat_ofNat', Nat.testBit_mod_two_pow, decide_eq_true low, Bool.true_and, testBit_set]

theorem byte_clear_bit (m : Mem) (j : Nat) {k : Nat} (inside : k < 8) :
    bitAt (Function.update m j (UInt8.ofNat ((m j).toNat &&& (0xFF ^^^ 1 <<< k)))) =
      Function.update (bitAt m) (8 * j + k) false := by
  apply byte_update_bit inside
  intro b low
  rw [UInt8.toNat_ofNat', Nat.testBit_mod_two_pow, decide_eq_true low, Bool.true_and]
  exact testBit_clear _ k low

theorem byte_zero_bits (m : Mem) (j i : Nat) :
    bitAt (Function.update m j 0) i = if i / 8 = j then false else bitAt m i := by
  by_cases here : i / 8 = j
  · simp [bitAt, here]
  · simp [bitAt, here]

def setRun (m : Mem) (i : Nat) : Nat → Mem
  | 0 => m
  | n + 1 =>
    setRun (Function.update m (i / 8) (UInt8.ofNat ((m (i / 8)).toNat ||| 1 <<< (i % 8)))) (i + 1) n

def clearRun (m : Mem) (i : Nat) : Nat → Mem
  | 0 => m
  | n + 1 =>
    clearRun (Function.update m (i / 8)
      (UInt8.ofNat ((m (i / 8)).toNat &&& (0xFF ^^^ 1 <<< (i % 8))))) (i + 1) n

theorem update_run (bits : Nat → Bool) (value : Bool) (i n k : Nat) :
    (if i + 1 ≤ k ∧ k < i + 1 + n then value else Function.update bits i value k) =
      if i ≤ k ∧ k < i + (n + 1) then value else bits k := by
  by_cases first : k = i
  · have here : i ≤ i ∧ i < i + (n + 1) := by omega
    rw [first, Function.update_self, ite_self, if_pos here]
  · have same : (i + 1 ≤ k ∧ k < i + 1 + n) ↔ (i ≤ k ∧ k < i + (n + 1)) := by omega
    simp only [Function.update_of_ne first, same]

theorem bitAt_setRun (m : Mem) (i n k : Nat) :
    bitAt (setRun m i n) k = if i ≤ k ∧ k < i + n then true else bitAt m k := by
  induction n generalizing m i with
  | zero =>
    have none : ¬ (i ≤ k ∧ k < i + 0) := by omega
    rw [setRun, if_neg none]
  | succ n ih =>
    have place : 8 * (i / 8) + i % 8 = i := Nat.div_add_mod i 8
    rw [setRun, ih, byte_set_bit m _ (Nat.mod_lt i (by decide)), place]
    exact update_run (bitAt m) true i n k

theorem bitAt_clearRun (m : Mem) (i n k : Nat) :
    bitAt (clearRun m i n) k = if i ≤ k ∧ k < i + n then false else bitAt m k := by
  induction n generalizing m i with
  | zero =>
    have none : ¬ (i ≤ k ∧ k < i + 0) := by omega
    rw [clearRun, if_neg none]
  | succ n ih =>
    have place : 8 * (i / 8) + i % 8 = i := Nat.div_add_mod i 8
    rw [clearRun, ih, byte_clear_bit m _ (Nat.mod_lt i (by decide)), place]
    exact update_run (bitAt m) false i n k

end Bitmap
