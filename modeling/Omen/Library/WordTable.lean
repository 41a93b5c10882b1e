import Omen.Library.ByteMemory

/- Tables of 64-bit words and strings that end with a zero byte, in byte memory. Words are
   stored with the lowest byte first. -/
namespace WordTable
open ByteMemory

def load (m : Mem) (a : Nat) : Nat := getLE m a 8

def store (m : Mem) (a v : Nat) : Mem := putLE m a 8 v

def storeWords (m : Mem) : Nat → List Nat → Mem
  | _, [] => m
  | a, w :: ws => storeWords (store m a w) (a + 8) ws

def Holds (m : Mem) : Nat → List Nat → Prop
  | _, [] => True
  | a, w :: ws => load m a = w ∧ Holds m (a + 8) ws

def StringAt (m : Mem) (p : Nat) (s : List UInt8) : Prop :=
  ∀ i, i ≤ s.length → m (p + i) = s.getD i 0

variable {m m' : Mem} {a b i v : Nat} {ws vs : List Nat}

theorem store_outside (out : i < a ∨ a + 8 ≤ i) : store m a v i = m i := by
  have no : ¬ (a ≤ i ∧ i < a + 8) := by omega
  simp [store, putLE, no]

theorem load_store (fits : v < 2 ^ 64) : load (store m a v) a = v :=
  getLE_putLE m a 8 v (by simpa using fits)

theorem load_shift (same : ∀ i < 8, m' (b + i) = m (a + i)) : load m' b = load m a := by
  unfold load
  have moved := getLE_advance m' b 0 8
  have place := getLE_advance m a 0 8
  rw [Nat.add_zero] at moved place
  rw [← moved, ← place]
  refine getLE_congr fun i _ high => ?_
  exact same i (by omega)

theorem holds_append : Holds m a (ws ++ vs) ↔ Holds m a ws ∧ Holds m (a + 8 * ws.length) vs := by
  induction ws generalizing a with
  | nil => simp [Holds]
  | cons w ws ih =>
    have next : a + 8 + 8 * ws.length = a + 8 * (w :: ws).length := by
      rw [List.length_cons]
      omega
    rw [List.cons_append, Holds, Holds, ih, next, and_assoc]

theorem Holds.shift (here : Holds m a ws) (same : ∀ i < 8 * ws.length, m' (b + i) = m (a + i)) :
    Holds m' b ws := by
  induction ws generalizing a b with
  | nil => trivial
  | cons w ws ih =>
    rw [List.length_cons] at same
    refine ⟨(load_shift fun i low => same i (by omega)).trans here.1, ih here.2 fun i low => ?_⟩
    rw [Nat.add_assoc, Nat.add_assoc]
    exact same (8 + i) (by omega)

theorem Holds.congr (here : Holds m a ws) (same : ∀ i, a ≤ i → i < a + 8 * ws.length → m' i = m i) :
    Holds m' a ws :=
  here.shift fun i low => same (a + i) (Nat.le_add_right ..) (by omega)

/-- A part of the table is replaced by as many words, and the rest stays. -/
theorem Holds.splice {A B C : List Nat} (here : Holds m a (A ++ (ws ++ B)))
    (count : C.length = ws.length) (table : Holds m' (a + 8 * A.length) C)
    (same : ∀ i, a ≤ i → i < a + 8 * (A ++ (ws ++ B)).length →
      i < a + 8 * A.length ∨ a + 8 * A.length + 8 * ws.length ≤ i → m' i = m i) :
    Holds m' a (A ++ (C ++ B)) := by
  rw [List.length_append, List.length_append] at same
  rw [holds_append, holds_append] at here ⊢
  obtain ⟨before, -, after⟩ := here
  rw [count]
  exact ⟨before.congr fun i low high => same i (by omega) (by omega) (by omega), table,
    after.congr fun i low high => same i (by omega) (by omega) (by omega)⟩

theorem storeWords_outside (out : i < a ∨ a + 8 * ws.length ≤ i) : storeWords m a ws i = m i := by
  induction ws generalizing m a with
  | nil => rfl
  | cons w ws ih =>
    rw [List.length_cons] at out
    rw [storeWords, ih (by omega), store_outside (by omega)]

theorem storeWords_holds (fits : ∀ w ∈ ws, w < 2 ^ 64) : Holds (storeWords m a ws) a ws := by
  induction ws generalizing m a with
  | nil => trivial
  | cons w ws ih =>
    rw [storeWords]
    refine ⟨?_, ih fun v member => fits v (List.mem_cons_of_mem w member)⟩
    rw [load_shift fun i low => storeWords_outside (Or.inl (by omega)),
      load_store (fits w List.mem_cons_self)]

theorem storeWords_append :
    storeWords m a (ws ++ vs) = storeWords (storeWords m a ws) (a + 8 * ws.length) vs := by
  induction ws generalizing m a with
  | nil => rfl
  | cons w ws ih =>
    rw [List.cons_append, storeWords, storeWords, ih, List.length_cons]
    congr 1
    omega

theorem StringAt.shift {p q : Nat} {s : List UInt8} (here : StringAt m p s)
    (same : ∀ i ≤ s.length, m' (q + i) = m (p + i)) : StringAt m' q s := by
  intro i low
  rw [same i low]
  exact here i low

end WordTable
