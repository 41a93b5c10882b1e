import Mathlib.Data.Nat.Bitwise
import Mathlib.Logic.Function.Basic
import Mathlib.Tactic.Ring

/- Byte buffers addressed from their own first byte. A buffer is total: what lies
   past its end is whatever the caller says it is, so lengths are stated beside it.
   Little-endian fields and single bits are two readings of the same bytes. -/
namespace ByteMemory

abbrev Mem := Nat → UInt8

def blank : Mem := fun _ => 0

def memcpy (dest : Mem) (pos : Nat) (source : Mem) (n : Nat) : Mem :=
  fun i => if pos ≤ i ∧ i < pos + n then source (i - pos) else dest i

def advance (m : Mem) (n : Nat) : Mem := fun i => m (n + i)

def getLE (m : Mem) : Nat → Nat → Nat
  | _, 0 => 0
  | pos, n + 1 => (m pos).toNat + 256 * getLE m (pos + 1) n

def putLE (m : Mem) (pos n v : Nat) : Mem :=
  fun i => if pos ≤ i ∧ i < pos + n then UInt8.ofNat (v / 256 ^ (i - pos)) else m i

def bitAt (m : Mem) (i : Nat) : Bool := (m (i / 8)).toNat.testBit (i % 8)

theorem bitAt_blank (i : Nat) : bitAt blank i = false :=
  Nat.zero_testBit (i % 8)

theorem memcpy_inside {dest source : Mem} {pos n i : Nat} (low : pos ≤ i) (high : i < pos + n) :
    memcpy dest pos source n i = source (i - pos) := by
  simp [memcpy, low, high]

theorem memcpy_outside {dest source : Mem} {pos n i : Nat} (out : i < pos ∨ pos + n ≤ i) :
    memcpy dest pos source n i = dest i := by
  have no : ¬ (pos ≤ i ∧ i < pos + n) := by omega
  simp [memcpy, no]

theorem memcpy_blank {source : Mem} {n : Nat} (tail : ∀ i, n ≤ i → source i = 0) :
    memcpy blank 0 source n = source := by
  funext i
  by_cases inside : i < n
  · simp [memcpy, inside]
  · simp [memcpy, inside, blank, tail i (by omega)]

theorem getLE_bound (m : Mem) (pos n : Nat) : getLE m pos n < 256 ^ n := by
  induction n generalizing pos with
  | zero => simp [getLE]
  | succ n ih =>
    have low := (m pos).toNat_lt
    have high := ih (pos + 1)
    simp only [getLE, Nat.pow_succ]
    omega

theorem getLE_congr {a b : Mem} {pos n : Nat}
    (same : ∀ i, pos ≤ i → i < pos + n → a i = b i) : getLE a pos n = getLE b pos n := by
  induction n generalizing pos with
  | zero => rfl
  | succ n ih =>
    simp only [getLE]
    rw [same pos (by omega) (by omega), ih (fun i low high => same i (by omega) (by omega))]

theorem getLE_advance (m : Mem) (start pos n : Nat) :
    getLE (advance m start) pos n = getLE m (start + pos) n := by
  induction n generalizing pos with
  | zero => rfl
  | succ n ih =>
    simp only [getLE]
    rw [ih (pos + 1), advance, Nat.add_assoc]

theorem getLE_putLE_apart (m : Mem) {pos n pos' n' : Nat} (v : Nat)
    (apart : pos' + n' ≤ pos ∨ pos + n ≤ pos') :
    getLE (putLE m pos n v) pos' n' = getLE m pos' n' := by
  apply getLE_congr
  intro i low high
  have no : ¬ (pos ≤ i ∧ i < pos + n) := by omega
  simp [putLE, no]

theorem testBit_getLE (m : Mem) {pos n k : Nat} (inside : k < 8 * n) :
    (getLE m pos n).testBit k = bitAt m (8 * pos + k) := by
  induction n generalizing pos k with
  | zero => omega
  | succ n ih =>
    have low := (m pos).toNat_lt
    have split : getLE m pos (n + 1) = 2 ^ 8 * getLE m (pos + 1) n + (m pos).toNat := by
      simp only [getLE]; omega
    rw [split, Nat.testBit_two_pow_mul_add _ (by simpa using low)]
    by_cases first : k < 8
    · have byte : (8 * pos + k) / 8 = pos := by omega
      have place : (8 * pos + k) % 8 = k := by omega
      simp [first, bitAt, byte, place]
    · have rest := @ih (pos + 1) (k - 8) (by omega)
      have same : 8 * (pos + 1) + (k - 8) = 8 * pos + k := by omega
      simp [first, rest, same]

theorem bitAt_putLE (m : Mem) (pos n v i : Nat) :
    bitAt (putLE m pos n v) i =
      if 8 * pos ≤ i ∧ i < 8 * (pos + n) then v.testBit (i - 8 * pos) else bitAt m i := by
  by_cases inside : pos ≤ i / 8 ∧ i / 8 < pos + n
  · have bits : 8 * pos ≤ i ∧ i < 8 * (pos + n) := by omega
    have power : 256 ^ (i / 8 - pos) = 2 ^ (8 * (i / 8 - pos)) := by
      rw [Nat.pow_mul]
    have place : i % 8 + 8 * (i / 8 - pos) = i - 8 * pos := by omega
    have small : i % 8 < 8 := Nat.mod_lt i (by omega)
    rw [if_pos bits]
    simp only [bitAt, putLE, if_pos inside, UInt8.toNat_ofNat', Nat.testBit_mod_two_pow, power,
      Nat.testBit_div_two_pow, place, small, decide_true, Bool.true_and]
  · have bits : ¬ (8 * pos ≤ i ∧ i < 8 * (pos + n)) := by omega
    simp [bitAt, putLE, inside, bits]

theorem getLE_putLE (m : Mem) (pos n v : Nat) (fits : v < 256 ^ n) :
    getLE (putLE m pos n v) pos n = v := by
  have power : (256 : Nat) ^ n = 2 ^ (8 * n) := by rw [Nat.pow_mul]
  apply Nat.eq_of_testBit_eq
  intro k
  by_cases inside : k < 8 * n
  · have bits : 8 * pos ≤ 8 * pos + k ∧ 8 * pos + k < 8 * (pos + n) := by omega
    rw [testBit_getLE _ inside, bitAt_putLE, if_pos bits, Nat.add_sub_cancel_left]
  · have far : 2 ^ (8 * n) ≤ 2 ^ k := Nat.pow_le_pow_right (by omega) (by omega)
    have bound := getLE_bound (putLE m pos n v) pos n
    rw [Nat.testBit_lt_two_pow (by omega), Nat.testBit_lt_two_pow (by omega)]

def word (m : Mem) (j : Nat) : Nat := getLE m (4 * j) 4

def putWord (m : Mem) (j v : Nat) : Mem := putLE m (4 * j) 4 v

theorem word_bound (m : Mem) (j : Nat) : word m j < 2 ^ 32 := by
  have h := getLE_bound m (4 * j) 4
  simpa [word] using h

theorem testBit_word (m : Mem) {j k : Nat} (inside : k < 32) :
    (word m j).testBit k = bitAt m (32 * j + k) := by
  have h := @testBit_getLE m (4 * j) 4 k (by omega)
  have same : 8 * (4 * j) + k = 32 * j + k := by omega
  rw [word, h, same]

theorem word_congr {a b : Mem} {j : Nat}
    (same : ∀ i, 4 * j ≤ i → i < 4 * j + 4 → a i = b i) : word a j = word b j :=
  getLE_congr same

theorem putWord_outside (m : Mem) {j i : Nat} (v : Nat) (out : i < 4 * j ∨ 4 * j + 4 ≤ i) :
    putWord m j v i = m i := by
  have no : ¬ (4 * j ≤ i ∧ i < 4 * j + 4) := by omega
  simp [putWord, putLE, no]

def putBlocks (size : Nat) (dest : Mem) (pos : Nat) (block : Nat → Mem) (n : Nat) : Mem :=
  fun i => if pos ≤ i ∧ i < pos + n * size then block ((i - pos) / size) ((i - pos) % size)
    else dest i

theorem putBlocks_none (size : Nat) (dest : Mem) (pos : Nat) (block : Nat → Mem) :
    putBlocks size dest pos block 0 = dest := by
  funext i
  have no : ¬ (pos ≤ i ∧ i < pos + 0 * size) := by omega
  simp only [putBlocks, if_neg no]

theorem putBlocks_one {size : Nat} (dest : Mem) (pos : Nat) (block : Nat → Mem) :
    putBlocks size dest pos block 1 = memcpy dest pos (block 0) size := by
  funext i
  simp only [putBlocks, memcpy, Nat.one_mul]
  by_cases inside : pos ≤ i ∧ i < pos + size
  · have low : i - pos < size := by omega
    rw [if_pos inside, if_pos inside, Nat.div_eq_of_lt low, Nat.mod_eq_of_lt low]
  · rw [if_neg inside, if_neg inside]

theorem putBlocks_at {size : Nat} (dest : Mem) (pos : Nat) (block : Nat → Mem) {n k j : Nat}
    (low : k < n) (inside : j < size) :
    putBlocks size dest pos block n (pos + (k * size + j)) = block k j := by
  have last : (k + 1) * size ≤ n * size := Nat.mul_le_mul_right size low
  rw [Nat.add_mul, Nat.one_mul] at last
  have range : pos ≤ pos + (k * size + j) ∧ pos + (k * size + j) < pos + n * size := by omega
  simp only [putBlocks, if_pos range, Nat.add_sub_cancel_left]
  rw [Nat.mul_comm k, Nat.mul_add_div (by omega), Nat.mul_add_mod, Nat.div_eq_of_lt inside,
    Nat.mod_eq_of_lt inside, Nat.add_zero]

theorem putBlocks_append {size : Nat} (positive : 0 < size) (dest : Mem) (pos : Nat)
    (block : Nat → Mem) (n k : Nat) :
    putBlocks size (putBlocks size dest pos block n) (pos + n * size) (fun t => block (n + t)) k =
      putBlocks size dest pos block (n + k) := by
  have sum : (n + k) * size = n * size + k * size := Nat.add_mul n k size
  funext i
  simp only [putBlocks, sum]
  by_cases second : pos + n * size ≤ i ∧ i < pos + n * size + k * size
  · have all : pos ≤ i ∧ i < pos + (n * size + k * size) := by omega
    have shift : i - pos = n * size + (i - (pos + n * size)) := by omega
    have index : (i - pos) / size = n + (i - (pos + n * size)) / size := by
      rw [shift, Nat.mul_comm n size, Nat.mul_add_div positive]
    have place : (i - pos) % size = (i - (pos + n * size)) % size := by
      rw [shift, Nat.mul_comm n size, Nat.mul_add_mod]
    rw [if_pos second, if_pos all, index, place]
  · rw [if_neg second]
    by_cases first : pos ≤ i ∧ i < pos + n * size
    · have all : pos ≤ i ∧ i < pos + (n * size + k * size) := by omega
      rw [if_pos first, if_pos all]
    · have all : ¬ (pos ≤ i ∧ i < pos + (n * size + k * size)) := by omega
      rw [if_neg first, if_neg all]

theorem putBlocks_congr {size : Nat} {dest : Mem} {pos n : Nat} {a b : Nat → Mem}
    (same : ∀ t, t < n → a t = b t) :
    putBlocks size dest pos a n = putBlocks size dest pos b n := by
  funext i
  simp only [putBlocks]
  by_cases inside : pos ≤ i ∧ i < pos + n * size
  · have index : (i - pos) / size < n := Nat.div_lt_of_lt_mul (by
      rw [Nat.mul_comm]; omega)
    rw [if_pos inside, if_pos inside, same _ index]
  · rw [if_neg inside, if_neg inside]

/-- Of a store of blocks, `target 0` to `target (n - 1)` now hold `n` pieces of the source
    from `source + pos` on, and every other block is as before. -/
structure StoredRun (size : Nat) (source : Mem) (pos : Nat) (target : Nat → Nat) (n : Nat)
    (before after : Nat → Mem) : Prop where
  stored : ∀ k j, k < n → j < size → after (target k) j = source (pos + k * size + j)
  kept : ∀ b, (∀ k, k < n → b ≠ target k) → after b = before b

theorem storedRun_none (size : Nat) (source : Mem) (pos : Nat) (target : Nat → Nat)
    (blocks : Nat → Mem) : StoredRun size source pos target 0 blocks blocks :=
  ⟨fun _ _ low => absurd low (Nat.not_lt_zero _), fun _ _ => rfl⟩

theorem storedRun_one {size : Nat} {source : Mem} {pos : Nat} {target : Nat → Nat}
    {before after : Nat → Mem}
    (write : after = Function.update before (target 0)
      (memcpy (before (target 0)) 0 (advance source pos) size)) :
    StoredRun size source pos target 1 before after := by
  constructor
  · intro k j low inside
    obtain rfl : k = 0 := by omega
    simp [write, memcpy, advance, inside]
  · intro b other
    rw [write, Function.update_of_ne (other 0 (by omega))]

theorem StoredRun.congr {size : Nat} {source : Mem} {pos : Nat} {target other : Nat → Nat}
    {n : Nat} {before after : Nat → Mem} (run : StoredRun size source pos target n before after)
    (same : ∀ k, k < n → target k = other k) :
    StoredRun size source pos other n before after :=
  ⟨fun k j low inside => by rw [← same k low]; exact run.stored k j low inside,
    fun b away => run.kept b (fun k low => by rw [same k low]; exact away k low)⟩

theorem StoredRun.append {size : Nat} {source : Mem} {pos : Nat} {target second : Nat → Nat}
    {n k : Nat} {before middle after : Nat → Mem}
    (one : StoredRun size source pos target n before middle)
    (two : StoredRun size source (pos + n * size) second k middle after)
    (next : ∀ t, t < k → second t = target (n + t))
    (distinct : ∀ i t, i < n → t < k → target i ≠ target (n + t)) :
    StoredRun size source pos target (n + k) before after := by
  constructor
  · intro i j low inside
    by_cases first : i < n
    · rw [two.kept (target i) (fun t high => by rw [next t high]; exact distinct i t first high)]
      exact one.stored i j first inside
    · have place : i = n + (i - n) := by omega
      have sum : pos + n * size + (i - n) * size + j = pos + i * size + j := by
        conv_rhs => rw [place, Nat.add_mul]
        omega
      have block := two.stored (i - n) j (by omega) inside
      rw [next _ (by omega), ← place, sum] at block
      exact block
  · intro b other
    rw [two.kept b (fun t high => by rw [next t high]; exact other (n + t) (by omega)),
      one.kept b (fun i high => other i (by omega))]

end ByteMemory
