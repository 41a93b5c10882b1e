import Omen.Library.Pool
import Omen.Ext2.BlockDriver
import Mathlib.Data.Nat.Bitwise

/- One bitmap block in every block group. The block bitmaps and the inode bitmaps are two
   families of such blocks; `bitmap g` is the block that group `g` has. -/
namespace OmenExt2
open ByteMemory Bitmap UnitPool OmenDisk

variable {σ : Type}

def andBit (w k : Nat) : Bool := w &&& 1 <<< k != 0

theorem andBit_eq (w k : Nat) : andBit w k = w.testBit k := by
  rw [andBit, Nat.one_shiftLeft, Nat.and_two_pow]
  cases w.testBit k <;> simp

theorem andBit_word (m : Mem) (j : Nat) {k : Nat} (inside : k < 32) :
    andBit (word m j) k = bitAt m (32 * j + k) := by
  rw [andBit_eq, testBit_word m inside]

theorem andBit_byte (m : Mem) (j : Nat) {k : Nat} (inside : k < 8) :
    andBit (m j).toNat k = bitAt m (8 * j + k) := by
  have place : (8 * j + k) / 8 = j ∧ (8 * j + k) % 8 = k := by omega
  rw [andBit_eq, bitAt, place.1, place.2]

def groupBits (bitmap : Nat → Nat) (view : σ → Nat → Mem) (d : σ) (group : Nat) : Nat → Bool :=
  bitAt (view d (bitmap group))

structure OwnBitmaps (bitmap : Nat → Nat) (groups : Nat) (valid : Nat → Prop) : Prop where
  valid : ∀ g, g < groups → valid (bitmap g)
  distinct : ∀ g h, g < groups → h < groups → bitmap g = bitmap h → g = h

/-- Bit `i` of a group's bitmap has got a value; nothing else has changed. -/
def BitStored (bitmap : Nat → Nat) (view : σ → Nat → Mem) (g i : Nat) (value : Bool) (d d' : σ) :
    Prop :=
  ∃ m, view d' = Function.update (view d) (bitmap g) m ∧
    bitAt m = Function.update (groupBits bitmap view d g) i value

section Bits
variable {bitmap : Nat → Nat} {groups : Nat} {valid : Nat → Prop} {view : σ → Nat → Mem} {g i : Nat}
  {value : Bool} {d d' : σ}

section Stored
variable (stored : BitStored bitmap view g i value d d') (bitmaps : OwnBitmaps bitmap groups valid)
  (group : g < groups)
include stored bitmaps group

theorem BitStored.bits {h : Nat} (other : h < groups) :
    groupBits bitmap view d' h = Function.update (groupBits bitmap view d) g
      (Function.update (groupBits bitmap view d g) i value) h := by
  obtain ⟨m, after, bits⟩ := stored
  by_cases same : h = g
  · subst same
    rw [Function.update_self, ← bits, groupBits, after, Function.update_self]
  · have apart : bitmap h ≠ bitmap g :=
      fun equal => same (bitmaps.distinct h g other group equal)
    rw [Function.update_of_ne same, groupBits, after, Function.update_of_ne apart]
    rfl

theorem BitStored.bit {h k : Nat} (other : h < groups) :
    groupBits bitmap view d' h k =
      if h = g ∧ k = i then value else groupBits bitmap view d h k := by
  rw [stored.bits bitmaps group other]
  by_cases same : h = g
  · subst same
    by_cases here : k = i
    · simp [here]
    · simp [here]
  · simp [same]

end Stored

theorem BitStored.undo {d'' : σ} (set : BitStored bitmap view g i true d d')
    (cleared : BitStored bitmap view g i false d' d'')
    (clear : groupBits bitmap view d g i = false) :
    view d'' = view d := by
  obtain ⟨m, after, bits⟩ := set
  obtain ⟨m', after', bits'⟩ := cleared
  have middle : groupBits bitmap view d' g = bitAt m := by
    rw [groupBits, after, Function.update_self]
  have same : m' = view d (bitmap g) := by
    apply mem_ext
    rw [bits', middle, bits, Function.update_idem, ← clear, Function.update_eq_self]
    rfl
  rw [after', after, Function.update_idem, same, Function.update_eq_self]

theorem BitStored.mono (stored : BitStored bitmap view g i true d d') {h k : Nat}
    (used : groupBits bitmap view d h k = true) : groupBits bitmap view d' h k = true := by
  obtain ⟨m, after, bits⟩ := stored
  rw [groupBits, after]
  by_cases same : bitmap h = bitmap g
  · rw [same, Function.update_self, bits]
    by_cases here : k = i
    · rw [here, Function.update_self]
    · rw [Function.update_of_ne here, groupBits, ← same]
      exact used
  · rw [Function.update_of_ne same]
    exact used

theorem update_group {α : Type} {n g : Nat} (group : g < n) (f : Nat → α) (v : α) :
    (fun h : Fin n => Function.update f g v h) =
      Function.update (fun h : Fin n => f h) ⟨g, group⟩ v := by
  funext h
  by_cases same : h = ⟨g, group⟩
  · subst same
    simp
  · have other : (h : Nat) ≠ g := fun equal => same (Fin.ext equal)
    simp [same, other]

theorem BitStored.table (stored : BitStored bitmap view g i value d d') (group : g < groups)
    (bitmaps : OwnBitmaps bitmap groups valid) :
    (fun h : Fin groups => groupBits bitmap view d' h) =
      Function.update (fun h : Fin groups => groupBits bitmap view d h) ⟨g, group⟩
        (Function.update (groupBits bitmap view d g) i value) := by
  rw [← update_group group]
  funext h
  rw [stored.bits bitmaps group h.isLt]

end Bits

section Bytes
variable {dev : Dev σ} {p : Partition} {valid : Nat → Prop} {view : σ → Nat → Mem} {stored : Nat}

theorem Stores.write_byte (stores : Stores dev p stored valid view) {b : Nat} (ok : valid b)
    (j : Nat) (v : UInt8) (d : σ) :
    ∃ done d', done ≠ 0 ∧ dev.writeDisk (p.blockSector b) p.blockSectors
        (Function.update (view d b) j v) d = (done, d') ∧
      view d' = if j < stored then Function.update (view d) b (Function.update (view d b) j v)
        else view d := by
  obtain ⟨done, d', nonzero, run, after⟩ := stores.write ok (Function.update (view d b) j v) d
  refine ⟨done, d', nonzero, run, ?_⟩
  rw [after]
  split
  · rename_i kept
    congr 1
    funext i
    by_cases inside : i < stored
    · simp [memcpy, inside]
    · have other : i ≠ j := by omega
      simp [memcpy, inside, other]
  · rename_i lost
    have same : memcpy (view d b) 0 (Function.update (view d b) j v) stored = view d b := by
      funext i
      by_cases inside : i < stored
      · have other : i ≠ j := by omega
        simp [memcpy, inside, other]
      · simp [memcpy, inside]
    rw [same, Function.update_eq_self]

theorem ext2WriteBlock_bit (stores : Stores dev p stored valid view) {bitmap : Nat → Nat}
    {g : Nat} (ok : valid (bitmap g)) (i : Nat) (d : σ) :
    ∃ d', ext2WriteBlock dev p (bitmap g) (Function.update (view d (bitmap g)) (i / 8)
        (UInt8.ofNat ((view d (bitmap g) (i / 8)).toNat ||| 1 <<< (i % 8)))) d = (1, d') ∧
      (i < 8 * stored → BitStored bitmap view g i true d d') ∧
      (¬ i < 8 * stored → view d' = view d) := by
  obtain ⟨done, d', nonzero, run, after⟩ := stores.write_byte ok (i / 8)
    (UInt8.ofNat ((view d (bitmap g) (i / 8)).toNat ||| 1 <<< (i % 8))) d
  refine ⟨d', ?_, ?_, ?_⟩
  · rw [ext2WriteBlock, if_pos (stores.nonzero ok), run]
    exact if_neg nonzero
  · intro kept
    rw [if_pos (by omega)] at after
    refine ⟨_, after, ?_⟩
    have place : 8 * (i / 8) + i % 8 = i := by omega
    rw [byte_set_bit _ _ (Nat.mod_lt i (by omega)), place]
    rfl
  · intro lost
    rw [after, if_neg (by omega)]

end Bytes

end OmenExt2
