import Omen.Memory.PageTables

/- What a walk reads from the entries that `init_entry` stores. -/
namespace OmenMemory
open RadixTable

section Fields
variable {e : VmEntry} {low width value : Nat}

theorem getLsbD_setBitField {i : Nat} (inside : low + width ≤ 64) :
    (setBitField e low width value).getLsbD i =
      if low ≤ i ∧ i < low + width then value.testBit (i - low) else e.getLsbD i := by
  unfold setBitField
  simp only [BitVec.getLsbD_or, BitVec.getLsbD_and, BitVec.getLsbD_not, BitVec.getLsbD_shiftLeft,
    BitVec.getLsbD_ofNat, Nat.testBit_two_pow_sub_one]
  by_cases range : low ≤ i ∧ i < low + width
  · obtain ⟨first, last⟩ := range
    have small : i < 64 := by omega
    simp [first, last, small, show ¬ i < low by omega, show i - low < width by omega,
      show i - low < 64 by omega]
  · rw [if_neg range]
    by_cases small : i < 64
    · by_cases before : i < low
      · simp [before, small]
      · simp [before, small, show ¬ i - low < width by omega]
    · simp [small, BitVec.getLsbD_of_ge e i (by omega)]

theorem getLsbD_setBitField_outside {i : Nat} (inside : low + width ≤ 64)
    (outside : i < low ∨ low + width ≤ i) :
    (setBitField e low width value).getLsbD i = e.getLsbD i := by
  rw [getLsbD_setBitField inside, if_neg (by omega)]

theorem testBit_bitField {k : Nat} :
    (bitField e low width).testBit k = (decide (k < width) && e.getLsbD (low + k)) := by
  rw [bitField, Nat.testBit_mod_two_pow, Nat.testBit_shiftRight, BitVec.getLsbD]

theorem bitField_one (i : Nat) : (bitField e i 1 == 1) = e.getLsbD i := by
  have bit := @testBit_bitField e i 1 0
  rw [Nat.add_zero] at bit
  have small : bitField e i 1 < 2 := Nat.mod_lt _ (by decide)
  generalize bitField e i 1 = b at bit small
  have cases : b = 0 ∨ b = 1 := by omega
  rcases cases with rfl | rfl
  · simpa using bit
  · simpa using bit

theorem bitField_setBitField (inside : low + width ≤ 64) :
    bitField (setBitField e low width value) low width = value % 2 ^ width := by
  refine Nat.eq_of_testBit_eq ?_
  intro k
  rw [testBit_bitField, getLsbD_setBitField inside, Nat.testBit_mod_two_pow]
  by_cases small : k < width
  · rw [if_pos ⟨by omega, by omega⟩, Nat.add_sub_cancel_left]
  · simp [small]

theorem bitField_bit (e : VmEntry) (i : Nat) : bitField e i 1 = (e.getLsbD i).toNat := by
  have bit := @bitField_one e i
  have small : bitField e i 1 < 2 := Nat.mod_lt _ (by decide)
  rw [← bit]
  generalize bitField e i 1 = b at small
  rcases (show b = 0 ∨ b = 1 by omega) with rfl | rfl <;> rfl

theorem bitField_setBitField_outside {first size : Nat} (inside : low + width ≤ 64)
    (outside : first + size ≤ low ∨ low + width ≤ first) :
    bitField (setBitField e low width value) first size = bitField e first size := by
  refine Nat.eq_of_testBit_eq ?_
  intro k
  rw [testBit_bitField, testBit_bitField]
  by_cases small : k < size
  · rw [getLsbD_setBitField_outside inside (by omega)]
  · simp [small]

theorem getLsbD_resetFields (perms : VmmPerms) :
    (resetFields e perms).getLsbD 0 = true ∧ (resetFields e perms).getLsbD 7 = false := by
  unfold resetFields
  simp (disch := decide) only [getLsbD_setBitField_outside]
  rw [getLsbD_setBitField (by decide), getLsbD_setBitField (by decide)]
  exact ⟨rfl, rfl⟩

theorem initEntry_reads {size ppn : Nat} {perms : VmmPerms} {new : VmEntry}
    (stored : initEntry e size ppn perms = some new) :
    isPresent new = true ∧ isPs new = decide (size = pageSize1GiB ∨ size = pageSize2MiB) ∧
      (size = pageSize1GiB → bitField new 30 10 = (ppn >>> 30) % 2 ^ 10) ∧
      (size = pageSize2MiB → bitField new 21 19 = (ppn >>> 21) % 2 ^ 19) ∧
      (size ≠ pageSize1GiB → size ≠ pageSize2MiB → bitField new 12 28 = (ppn >>> 12) % 2 ^ 28) := by
  obtain ⟨present, small⟩ := @getLsbD_resetFields e perms
  unfold initEntry at stored
  split at stored
  · cases stored
  split at stored
  · cases stored
  split at stored
  · cases stored
  rw [Option.some.injEq] at stored
  unfold isPresent isPs
  rw [bitField_one, bitField_one]
  by_cases huge : size = pageSize1GiB
  · rw [if_pos huge] at stored
    subst stored huge
    refine ⟨?_, ?_, fun _ => bitField_setBitField (by decide), fun other => ?_, fun other => ?_⟩
    · simp (disch := decide) only [getLsbD_setBitField]
      exact present
    · simp (disch := decide) only [getLsbD_setBitField]
      rfl
    · cases other
    · exact absurd rfl other
  · rw [if_neg huge] at stored
    by_cases big : size = pageSize2MiB
    · rw [if_pos big] at stored
      subst stored big
      refine ⟨?_, ?_, fun other => ?_, fun _ => bitField_setBitField (by decide),
        fun _ other => ?_⟩
      · simp (disch := decide) only [getLsbD_setBitField]
        exact present
      · simp (disch := decide) only [getLsbD_setBitField]
        rfl
      · cases other
      · exact absurd rfl other
    · rw [if_neg big] at stored
      subst stored
      refine ⟨?_, ?_, fun other => absurd other huge, fun other => absurd other big,
        fun _ _ => bitField_setBitField (by decide)⟩
      · simp (disch := decide) only [getLsbD_setBitField]
        exact present
      · simp (disch := decide) only [getLsbD_setBitField]
        rw [decide_eq_false (by simp [huge, big])]
        exact small

end Fields

/-- Entries of the four levels: the last has pages only, the first tables only. -/
def pageFormat : Format VmEntry where
  leaf l e := isPresent e && (l == 1 || l != 4 && isPs e)
  child l e := if isPresent e && l != 1 && (l == 4 || !isPs e) then some (getPdppDir e) else none
  exclusive := by
    intro l e t linked
    split at linked
    · rename_i table
      cases ps : isPs e <;> simp_all
    · cases linked

def pageIndices (address : Nat) : List Nat :=
  [pml4Index address, pdpIndex address, pdIndex address, ptIndex address]

def levelShift (l : Nat) : Nat := 12 + 9 * (l - 1)

def leafAddress (l : Nat) (e : VmEntry) (address : Nat) : Nat :=
  bitField e (levelShift l) (40 - levelShift l) <<< levelShift l |||
    address &&& (2 ^ levelShift l - 1)

section Translation
variable {tables : Tables VmEntry} {root address : Nat}

theorem leaf_root (e : VmEntry) : pageFormat.leaf 4 e = false := by
  simp [pageFormat]

theorem child_root (e : VmEntry) :
    pageFormat.child 4 e = if isPresent e then some (getPdppDir e) else none := by
  simp [pageFormat]

theorem leaf_middle {l : Nat} (e : VmEntry) (middle : l = 2 ∨ l = 3) :
    pageFormat.leaf l e = (isPresent e && isPs e) := by
  rcases middle with rfl | rfl <;> simp [pageFormat]

theorem child_middle {l : Nat} (e : VmEntry) (middle : l = 2 ∨ l = 3) :
    pageFormat.child l e = if isPresent e && !isPs e then some (getPdppDir e) else none := by
  rcases middle with rfl | rfl <;> simp [pageFormat]

theorem leaf_last (e : VmEntry) : pageFormat.leaf 1 e = isPresent e := by
  simp [pageFormat]

theorem child_last (e : VmEntry) : pageFormat.child 1 e = none := by
  simp [pageFormat]

theorem child_address {l t : Nat} {e : VmEntry} (linked : pageFormat.child l e = some t) :
    t = getPdppDir e := by
  unfold pageFormat at linked
  dsimp only at linked
  split at linked
  · exact (Option.some.inj linked).symm
  · cases linked

theorem child_some {l t : Nat} {e : VmEntry} (linked : pageFormat.child l e = some t) :
    isPresent e = true ∧ (l ≠ 4 → isPs e = false) ∧ t = getPdppDir e := by
  have address := child_address linked
  unfold pageFormat at linked
  dsimp only at linked
  split at linked
  · rename_i table
    simp only [Bool.and_eq_true, Bool.or_eq_true, beq_iff_eq, Bool.not_eq_true'] at table
    exact ⟨table.1.1, fun other => table.2.resolve_left other, address⟩
  · cases linked

theorem walkTables_eq :
    walkTables tables root address =
      (walk pageFormat tables 4 root (pageIndices address)).map fun r =>
        leafAddress r.1 r.2 address := by
  unfold walkTables pageIndices
  dsimp only
  rw [walk, leaf_root, child_root]
  generalize tables root (pml4Index address) = pml4
  cases isPresent pml4 with
  | false => rfl
  | true =>
    simp only [Bool.not_true, Bool.false_eq_true, if_false, if_true]
    rw [walk, leaf_middle _ (Or.inr rfl), child_middle _ (Or.inr rfl)]
    generalize tables (getPdppDir pml4) (pdpIndex address) = pdp
    cases isPresent pdp with
    | false => rfl
    | true =>
      cases isPs pdp with
      | true => rfl
      | false =>
        simp only [Bool.not_true, Bool.not_false, Bool.and_self, Bool.and_false,
          Bool.false_eq_true, if_false, if_true]
        rw [walk, leaf_middle _ (Or.inl rfl), child_middle _ (Or.inl rfl)]
        generalize tables (getPdppDir pdp) (pdIndex address) = pd
        cases isPresent pd with
        | false => rfl
        | true =>
          cases isPs pd with
          | true => rfl
          | false =>
            simp only [Bool.not_true, Bool.not_false, Bool.and_self, Bool.and_false,
              Bool.false_eq_true, if_false, if_true]
            rw [walk, leaf_last, child_last]
            cases isPresent (tables (getPdppDir pd) (ptIndex address)) <;> rfl

end Translation

/-- Addresses of one page of a level. Bits 48 to 63 of an address select no entry. -/
def SamePage (l virtual a : Nat) : Prop :=
  a % 2 ^ 48 / 2 ^ levelShift l = virtual % 2 ^ 48 / 2 ^ levelShift l

instance (l virtual a : Nat) : Decidable (SamePage l virtual a) :=
  inferInstanceAs (Decidable (_ = _))

section Indices

theorem pageIndices_eq (a : Nat) :
    pageIndices a = [a / 2 ^ 39 % 512, a / 2 ^ 30 % 512, a / 2 ^ 21 % 512, a / 2 ^ 12 % 512] := by
  unfold pageIndices pml4Index pdpIndex pdIndex ptIndex
  simp only [show 0x1ff = 2 ^ 9 - 1 by rfl, Nat.and_two_pow_sub_one_eq_mod,
    Nat.shiftRight_eq_div_pow]

theorem pageIndices_path (a : Nat) : RadixTable.Path 512 (pageIndices a) := by
  rw [pageIndices_eq]
  intro i member
  simp only [List.mem_cons, List.not_mem_nil, or_false] at member
  omega

theorem tablePaths (a : Nat) :
    RadixTable.Path 512 [pml4Index a] ∧ RadixTable.Path 512 [pml4Index a, pdpIndex a] ∧
      RadixTable.Path 512 [pml4Index a, pdpIndex a, pdIndex a] := by
  have indices := pageIndices_path a
  exact ⟨RadixTable.Path.left indices, RadixTable.Path.left indices, RadixTable.Path.left indices⟩

theorem pageIndices_prefix_iff {l : Nat} (level : l = 1 ∨ l = 2 ∨ l = 3) (virtual a : Nat) :
    (pageIndices virtual).take (5 - l) <+: pageIndices a ↔ SamePage l virtual a := by
  rw [pageIndices_eq, pageIndices_eq]
  unfold SamePage levelShift
  rcases level with rfl | rfl | rfl
  · simp only [List.take, List.cons_prefix_cons, List.nil_prefix, and_true]
    constructor
    · rintro ⟨one, two, three, four⟩
      omega
    · intro same
      omega
  · simp only [List.take, List.cons_prefix_cons, List.nil_prefix, and_true]
    constructor
    · rintro ⟨one, two, three⟩
      omega
    · intro same
      omega
  · simp only [List.take, List.cons_prefix_cons, List.nil_prefix, and_true]
    constructor
    · rintro ⟨one, two⟩
      omega
    · intro same
      omega

end Indices

section Stored
variable {e new : VmEntry} {perms : VmmPerms} {l : Nat}

theorem empty_entry (l : Nat) :
    pageFormat.leaf l (0 : VmEntry) = false ∧ pageFormat.child l (0 : VmEntry) = none := by
  have absent : isPresent 0#64 = false := by decide
  simp [pageFormat, absent]

theorem shift_back {x k : Nat} (aligned : x % 2 ^ k = 0) (small : x < 2 ^ 40) (low : k ≤ 40) :
    (x >>> k) % 2 ^ (40 - k) * 2 ^ k = x := by
  have parts := Nat.div_add_mod x (2 ^ k)
  have whole : 2 ^ 40 = 2 ^ (40 - k) * 2 ^ k := by
    rw [← Nat.pow_add]
    congr 1
    omega
  have less : x / 2 ^ k < 2 ^ (40 - k) := by
    refine (Nat.div_lt_iff_lt_mul (Nat.pow_pos (by decide))).mpr ?_
    omega
  rw [Nat.shiftRight_eq_div_pow, Nat.mod_eq_of_lt less, Nat.mul_comm]
  omega

theorem initEntry_leaf {physical : Nat} (level : l = 1 ∨ l = 2 ∨ l = 3)
    (stored : initEntry e (2 ^ levelShift l) physical perms = some new)
    (aligned : physical % 2 ^ levelShift l = 0) (small : physical < 2 ^ 40) :
    pageFormat.leaf l new = true ∧ pageFormat.child l new = none ∧
      ∀ a, leafAddress l new a = physical + a % 2 ^ levelShift l := by
  obtain ⟨present, ps, huge, big, regular⟩ := initEntry_reads stored
  have field : bitField new (levelShift l) (40 - levelShift l) =
      (physical >>> levelShift l) % 2 ^ (40 - levelShift l) := by
    rcases level with rfl | rfl | rfl
    · exact regular (by decide) (by decide)
    · exact big rfl
    · exact huge rfl
  have low : levelShift l ≤ 40 := by
    rcases level with rfl | rfl | rfl <;> decide
  have kind : pageFormat.leaf l new = true ∧ pageFormat.child l new = none := by
    rcases level with rfl | rfl | rfl
    · exact ⟨(leaf_last new).trans present, child_last new⟩
    · rw [leaf_middle new (Or.inl rfl), child_middle new (Or.inl rfl), present, ps]
      exact ⟨rfl, rfl⟩
    · rw [leaf_middle new (Or.inr rfl), child_middle new (Or.inr rfl), present, ps]
      exact ⟨rfl, rfl⟩
  refine ⟨kind.1, kind.2, ?_⟩
  intro a
  have less : a % 2 ^ levelShift l < 2 ^ levelShift l := Nat.mod_lt a (Nat.pow_pos (by decide))
  rw [leafAddress, field, Nat.and_two_pow_sub_one_eq_mod, ← Nat.shiftLeft_add_eq_or_of_lt less,
    Nat.shiftLeft_eq, shift_back aligned small low]

theorem initEntry_table {page : Nat} (level : l = 2 ∨ l = 3 ∨ l = 4)
    (stored : initEntry e pageSizeDir page perms = some new) (aligned : page % 2 ^ 12 = 0)
    (small : page < 2 ^ 40) : pageFormat.child l new = some page := by
  obtain ⟨present, ps, -, -, regular⟩ := initEntry_reads stored
  have address : getPdppDir new = page := by
    rw [getPdppDir, regular (by decide) (by decide), Nat.shiftLeft_eq]
    exact shift_back aligned small (by decide)
  have single : isPs new = false := ps
  rcases level with rfl | rfl | rfl
  · rw [child_middle new (Or.inl rfl), present, single, address]
    rfl
  · rw [child_middle new (Or.inr rfl), present, single, address]
    rfl
  · rw [child_root, present, address]
    rfl

end Stored

end OmenMemory
