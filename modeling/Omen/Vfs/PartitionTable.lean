import Omen.Library.ByteMemory
import Mathlib.Data.List.TakeWhile
import Mathlib.Data.List.Range

/- Reading a GPT: `read_gpt` of `gpt.c` and `add_partition` of `vfs.c`. A disk gives a sector for
   a block number, or nothing when the read fails. The array of entries on the stack is memory
   from its first byte on, with room for as many entries as the header counts. -/
namespace OmenVfs.Gpt
open ByteMemory

def mbrBootSigValue : Nat := 0xAA55
def gptSignature : Nat := 0x5452415020494645
def gptNoEntry : List Char := "00000000-0000-0000-0000-000000000000".toList

/- Fields of `struct gpt_header`. -/
def signature (header : Mem) : Nat := getLE header 0 8
def partitionTableLba (header : Mem) : Nat := getLE header 72 8
def partitionCount (header : Mem) : Nat := getLE header 80 4
def partitionEntrySize (header : Mem) : Nat := getLE header 84 4

/- Fields of `struct gpt_entry`. -/
def firstLba (entry : Mem) : Nat := getLE entry 32 8
def lastLba (entry : Mem) : Nat := getLE entry 40 8

def hex : Nat → Nat → List Char
  | 0, _ => []
  | w + 1, value => hex w (value / 16) ++ [Nat.digitChar (value % 16)]

def guidText (entry : Mem) : List Char :=
  hex 8 (getLE entry 0 4) ++ '-' :: (hex 4 (getLE entry 4 2) ++ '-' :: (hex 4 (getLE entry 6 2) ++
    '-' :: (hex 2 (entry 8).toNat ++ (hex 2 (entry 9).toNat ++ '-' :: (hex 2 (entry 10).toNat ++
      (hex 2 (entry 11).toNat ++ (hex 2 (entry 12).toNat ++ (hex 2 (entry 13).toNat ++
        (hex 2 (entry 14).toNat ++ hex 2 (entry 15).toNat)))))))))

structure Part where
  lba : Nat
  size : Nat
  status : UInt8
  type : UInt8
  deriving DecidableEq

def partOf (entry : Mem) : Part where
  lba := firstLba entry % 2 ^ 32
  size := (lastLba entry + 2 ^ 64 - firstLba entry) % 2 ^ 32
  status := 0
  type := 0

def entrySector (header : Mem) (i : Nat) : Nat :=
  (partitionTableLba header + i * partitionEntrySize header % 2 ^ 32 / 512) % 2 ^ 32

/-- The first loop: a sector for every fourth entry. Nothing while the rounds do not suffice or
    when a sector does not fit into the array, and no entries when a read fails. -/
def loadEntries (disk : Nat → Option Mem) (header : Mem) : Nat → Nat → Mem → Option (Option Mem)
  | 0, _, _ => none
  | rounds + 1, i, entries =>
    if i < partitionCount header then
      match disk (entrySector header i) with
      | none => some none
      | some sector =>
        -- `gpt_entries` has `partition_count` elements, and the read stores four
        if partitionCount header < i + 4 then none
        else loadEntries disk header rounds ((i + 4) % 2 ^ 32) (memcpy entries (128 * i) sector 512)
    else some (some entries)

def validPartitions (entries : Mem) : Nat → Nat → Nat
  | 0, _ => 0
  | left + 1, i =>
    if guidText (advance entries (128 * i)) = gptNoEntry then 0
    else validPartitions entries left (i + 1) + 1

section Read
variable {σ : Type} (addPart : σ → Part → σ)

def addParts (entries : Mem) (valid : Nat) : Nat → Nat → σ → Option σ
  | 0, _, _ => none
  | rounds + 1, i, s =>
    if i < valid then
      addParts entries valid rounds ((i + 1) % 256) (addPart s (partOf (advance entries (128 * i))))
    else some s

def readGpt (disk : Nat → Option Mem) (stack : Mem) (rounds : Nat) (s : σ) : Option (σ × Nat) :=
  match disk 0 with
  | none => some (s, 0)
  | some mbr =>
    if getLE mbr 510 2 ≠ mbrBootSigValue then some (s, 0)
    else
      match disk 1 with
      | none => some (s, 0)
      | some header =>
        if signature header ≠ gptSignature then some (s, 0)
        else
          match loadEntries disk header rounds 0 stack with
          | none => none
          | some none => some (s, 0)
          | some (some entries) =>
            let valid := validPartitions entries (partitionCount header) 0
            (addParts addPart entries valid rounds 0 s).map (·, valid)

end Read

def initPartitionHeader : Part := ⟨0, 0, 0, 0⟩

/-- The last node takes the values, and an empty one is hung behind it. Without a first node
    it panics, which the callers rule out. -/
def addPartition : List Part → Part → List Part
  | [], _ => []
  | [_], part => [part, initPartitionHeader]
  | node :: next :: rest, part => node :: addPartition (next :: rest) part

/-- An entry is in use when a byte of its type is not zero. -/
def Used (entry : Mem) : Prop := ∃ k < 16, entry k ≠ 0

instance (entry : Mem) : Decidable (Used entry) :=
  decidable_of_iff (∃ k ∈ List.range 16, entry k ≠ 0) (by simp [Used])

section Table
variable (sectors : Nat → Mem)

def tableEntry (i : Nat) : Mem := fun k =>
  sectors (partitionTableLba (sectors 1) + (i * partitionEntrySize (sectors 1) + k) / 512)
    ((i * partitionEntrySize (sectors 1) + k) % 512)

/-- Entry i as if a sector held four entries, from the sector of entry `i / 4 * 4` on. -/
def quarterEntry (i : Nat) : Mem := fun k =>
  sectors (entrySector (sectors 1) (i / 4 * 4)) (128 * (i % 4) + k)

def usedEntries (view : Nat → Mem) : List Mem :=
  ((List.range (partitionCount (sectors 1))).takeWhile (fun i => Used (view i))).map view

def firstBlocks : List Nat := (usedEntries sectors (tableEntry sectors)).map firstLba

/-- The calls of `add_part` tell the partitions in the order of the table, their number is
    returned, and with `add_partition` the list of partitions holds them in this order. -/
def TableRead (stack : Mem) : Prop :=
  (∃ rounds calls, readGpt (fun log part => log ++ [part]) (fun lba => some (sectors lba)) stack
      rounds [] = some (calls, (firstBlocks sectors).length) ∧
    calls.map (·.lba) = firstBlocks sectors) ∧
  ∃ rounds nodes, readGpt addPartition (fun lba => some (sectors lba)) stack rounds
      [initPartitionHeader] = some (nodes, (firstBlocks sectors).length) ∧
    nodes.dropLast.map (·.lba) = firstBlocks sectors

end Table

theorem digitChar_zero_iff {d : Nat} (digit : d < 16) : Nat.digitChar d = '0' ↔ d = 0 := by
  have all : ∀ d : Fin 16, Nat.digitChar d = '0' ↔ d.val = 0 := by decide
  exact all ⟨d, digit⟩

theorem hex_append_iff {w value : Nat} (fits : value < 16 ^ w) {rest rest' : List Char} :
    hex w value ++ rest = List.replicate w '0' ++ rest' ↔ value = 0 ∧ rest = rest' := by
  induction w generalizing value rest rest' with
  | zero =>
    obtain rfl : value = 0 := by simpa using fits
    simp [hex]
  | succ w ih =>
    have high : value / 16 < 16 ^ w := Nat.div_lt_of_lt_mul (by rwa [Nat.pow_succ'] at fits)
    rw [hex, List.replicate_succ', List.append_assoc, List.append_assoc, ih high,
      List.singleton_append, List.singleton_append, List.cons.injEq,
      digitChar_zero_iff (Nat.mod_lt _ (by decide)), ← and_assoc]
    exact and_congr_left fun _ => by omega

theorem guidText_iff (entry : Mem) : guidText entry = gptNoEntry ↔ ¬ Used entry := by
  have plain : gptNoEntry = List.replicate 8 '0' ++ '-' :: (List.replicate 4 '0' ++ '-' ::
      (List.replicate 4 '0' ++ '-' :: (List.replicate 2 '0' ++ (List.replicate 2 '0' ++ '-' ::
        (List.replicate 2 '0' ++ (List.replicate 2 '0' ++ (List.replicate 2 '0' ++
          (List.replicate 2 '0' ++ (List.replicate 2 '0' ++ List.replicate 2 '0'))))))))) := by
    decide
  have byte (k : Nat) : (entry k).toNat < 16 ^ 2 := (entry k).toNat_lt
  have last : hex 2 (entry 15).toNat = List.replicate 2 '0' ↔ (entry 15).toNat = 0 := by
    simpa using @hex_append_iff 2 (entry 15).toNat (byte 15) [] []
  have four : getLE entry 0 4 < 16 ^ 8 := getLE_bound entry 0 4
  have two (pos : Nat) : getLE entry pos 2 < 16 ^ 4 := getLE_bound entry pos 2
  rw [plain, guidText]
  simp only [hex_append_iff four, hex_append_iff (two _), hex_append_iff (byte _), List.cons.injEq,
    true_and, last]
  have each : ¬ Used entry ↔ ∀ k < 16, (entry k).toNat = 0 := by
    simp [Used, ← UInt8.toNat_inj]
  have bytes_four : getLE entry 0 4 = (entry 0).toNat + 256 * ((entry 1).toNat +
      256 * ((entry 2).toNat + 256 * ((entry 3).toNat + 256 * 0))) := rfl
  have bytes_two : getLE entry 4 2 = (entry 4).toNat + 256 * ((entry 5).toNat + 256 * 0) ∧
      getLE entry 6 2 = (entry 6).toNat + 256 * ((entry 7).toNat + 256 * 0) := ⟨rfl, rfl⟩
  rw [each, bytes_four, bytes_two.1, bytes_two.2]
  simp only [Nat.forall_lt_succ_right, Nat.not_lt_zero, false_implies, implies_true, true_and]
  omega

theorem partitionCount_bound (header : Mem) : partitionCount header < 2 ^ 32 :=
  getLE_bound header 80 4

section Loops
variable {sectors : Nat → Mem}

theorem loadEntries_next {rounds i : Nat} {stack : Mem}
    (room : i + 4 ≤ partitionCount (sectors 1)) :
    loadEntries (fun lba => some (sectors lba)) (sectors 1) (rounds + 1) i stack =
      loadEntries (fun lba => some (sectors lba)) (sectors 1) rounds (i + 4)
        (memcpy stack (128 * i) (sectors (entrySector (sectors 1) i)) 512) := by
  have word := partitionCount_bound (sectors 1)
  rw [loadEntries, if_pos (by omega)]
  exact (if_neg (by omega)).trans (by rw [Nat.mod_eq_of_lt (by omega)])

theorem loadEntries_stores {rounds i : Nat} {stack : Mem} {loaded : Option Mem}
    (quarter : i % 4 = 0) (fours : partitionCount (sectors 1) % 4 = 0)
    (run : loadEntries (fun lba => some (sectors lba)) (sectors 1) rounds i stack = some loaded) :
    ∃ entries, loaded = some entries ∧ ∀ j < partitionCount (sectors 1), ∀ k < 128,
      entries (128 * j + k) =
        if i ≤ j then quarterEntry sectors j k else stack (128 * j + k) := by
  induction rounds generalizing i stack with
  | zero => cases run
  | succ rounds ih =>
    by_cases more : i < partitionCount (sectors 1)
    · rw [loadEntries_next (by omega)] at run
      obtain ⟨entries, rfl, stored⟩ := ih (by omega) run
      refine ⟨entries, rfl, fun j below k small => ?_⟩
      rw [stored j below k small]
      by_cases later : i + 4 ≤ j
      · rw [if_pos later, if_pos (by omega)]
      · rw [if_neg later]
        by_cases here : i ≤ j
        · -- one of the four entries of the sector just read
          rw [if_pos here, memcpy_inside (by omega) (by omega), quarterEntry,
            show j / 4 * 4 = i by omega, show 128 * j + k - 128 * i = 128 * (j % 4) + k by omega]
        · rw [if_neg here, memcpy_outside (by omega)]
    · rw [loadEntries, if_neg more] at run
      obtain rfl := Option.some.inj run
      refine ⟨stack, rfl, fun j below k _ => ?_⟩
      rw [if_neg (by omega)]

theorem loadEntries_ends {rounds i : Nat} {stack : Mem}
    (fours : partitionCount (sectors 1) % 4 = 0) (quarter : i % 4 = 0)
    (enough : partitionCount (sectors 1) - i < rounds) :
    loadEntries (fun lba => some (sectors lba)) (sectors 1) rounds i stack ≠ none := by
  induction rounds generalizing i stack with
  | zero => omega
  | succ rounds ih =>
    by_cases more : i < partitionCount (sectors 1)
    · rw [loadEntries_next (by omega)]
      exact ih (by omega) (by omega)
    · rw [loadEntries, if_neg more]
      exact Option.some_ne_none _

theorem loadEntries_leaves {rounds i : Nat} {stack : Mem}
    (odd : partitionCount (sectors 1) % 4 ≠ 0) (quarter : i % 4 = 0)
    (within : i ≤ partitionCount (sectors 1)) :
    loadEntries (fun lba => some (sectors lba)) (sectors 1) rounds i stack = none := by
  induction rounds generalizing i stack with
  | zero => rfl
  | succ rounds ih =>
    rcases Nat.lt_or_ge (partitionCount (sectors 1)) (i + 4) with last | room
    · rw [loadEntries, if_pos (by omega)]
      exact if_pos last
    · rw [loadEntries_next room]
      exact ih (by omega) room

variable {entries : Mem}

theorem validPartitions_eq (view : Nat → Mem) {left i : Nat}
    (same : ∀ j, i ≤ j → j < i + left → ∀ k < 128, entries (128 * j + k) = view j k) :
    validPartitions entries left i =
      ((List.range' i left).takeWhile (fun j => Used (view j))).length := by
  induction left generalizing i with
  | zero => rfl
  | succ left ih =>
    have used : Used (advance entries (128 * i)) ↔ Used (view i) := by
      refine exists_congr fun k => and_congr_right fun small => ?_
      rw [advance, same i (Nat.le_refl i) (by omega) k (by omega)]
    rw [validPartitions, List.range'_succ, List.takeWhile_cons]
    simp only [guidText_iff, used]
    by_cases first : Used (view i)
    · rw [if_neg (not_not_intro first), ih fun j low high => same j (by omega) (by omega)]
      simp [first]
    · simp [first]

variable {σ : Type} {addPart : σ → Part → σ}

/-- The third loop ends just when its 8-bit counter can reach the number of partitions. -/
theorem addParts_eq {valid rounds i : Nat} (small : valid < 256) (within : i ≤ valid) (s : σ) :
    addParts addPart entries valid rounds i s =
      if valid - i < rounds then
        some ((List.range' i (valid - i)).foldl
          (fun s j => addPart s (partOf (advance entries (128 * j)))) s)
      else none := by
  induction rounds generalizing i s with
  | zero => rfl
  | succ rounds ih =>
    rw [addParts]
    by_cases more : i < valid
    · rw [if_pos more, Nat.mod_eq_of_lt (by omega), ih (by omega)]
      obtain ⟨left, split⟩ : ∃ left, valid - i = left + 1 := ⟨valid - i - 1, by omega⟩
      rw [show valid - (i + 1) = left by omega, split, List.range'_succ, List.foldl_cons]
      simp only [Nat.add_lt_add_iff_right]
    · rw [if_neg more, show valid - i = 0 by omega]
      simp

theorem addParts_endless {valid rounds i : Nat} (many : 256 ≤ valid) (byte : i < 256) (s : σ) :
    addParts addPart entries valid rounds i s = none := by
  induction rounds generalizing i s with
  | zero => rfl
  | succ rounds ih =>
    rw [addParts, if_pos (by omega)]
    exact ih (Nat.mod_lt _ (by decide)) _

end Loops

theorem takeWhile_range (p : Nat → Bool) (n : Nat) :
    (List.range n).takeWhile p = List.range ((List.range n).takeWhile p).length := by
  have first := List.prefix_iff_eq_take.mp (List.takeWhile_prefix p (l := List.range n))
  have shorter := (List.takeWhile_prefix p (l := List.range n)).length_le
  rw [List.length_range] at shorter
  rw [List.take_range, Nat.min_eq_left shorter] at first
  exact first

theorem partOf_congr {a b : Mem} (same : ∀ k < 128, a k = b k) : partOf a = partOf b := by
  have first : firstLba a = firstLba b := getLE_congr fun k _ high => same k (by omega)
  have last : lastLba a = lastLba b := getLE_congr fun k _ high => same k (by omega)
  rw [partOf, partOf, first, last]

section Outcome
variable {sectors : Nat → Mem} {σ : Type} {addPart : σ → Part → σ} {s s' : σ} {n : Nat}

theorem usedEntries_eq (sectors : Nat → Mem) (view : Nat → Mem) :
    usedEntries sectors view = (List.range (usedEntries sectors view).length).map view ∧
      (usedEntries sectors view).length ≤ partitionCount (sectors 1) := by
  have shorter := (List.takeWhile_prefix (fun i => decide (Used (view i)))
    (l := List.range (partitionCount (sectors 1)))).length_le
  rw [List.length_range] at shorter
  refine ⟨?_, by rwa [usedEntries, List.length_map]⟩
  rw [usedEntries, List.length_map, ← takeWhile_range]

theorem loaded_entries (addPart : σ → Part → σ) (s : σ) {rounds : Nat} {stack : Mem}
    {loaded : Option Mem}
    (fours : partitionCount (sectors 1) % 4 = 0)
    (run : loadEntries (fun lba => some (sectors lba)) (sectors 1) rounds 0 stack = some loaded) :
    ∃ entries, loaded = some entries ∧
      validPartitions entries (partitionCount (sectors 1)) 0 =
        (usedEntries sectors (quarterEntry sectors)).length ∧
      (List.range' 0 (usedEntries sectors (quarterEntry sectors)).length).foldl
          (fun s j => addPart s (partOf (advance entries (128 * j)))) s =
        ((usedEntries sectors (quarterEntry sectors)).map partOf).foldl addPart s := by
  obtain ⟨entries, rfl, stored⟩ := loadEntries_stores rfl fours run
  simp only [Nat.zero_le, if_true] at stored
  refine ⟨entries, rfl, ?_, ?_⟩
  · rw [validPartitions_eq (quarterEntry sectors) fun j _ high => stored j (by omega),
      usedEntries, List.length_map, List.range_eq_range']
  · obtain ⟨seen, within⟩ := usedEntries_eq sectors (quarterEntry sectors)
    conv_rhs => rw [seen, List.map_map, List.foldl_map]
    rw [← List.range_eq_range']
    apply List.foldl_ext
    intro t j member
    have below := List.mem_range.mp member
    rw [Function.comp_apply, partOf_congr (a := advance entries (128 * j))
      fun k small => stored j (by omega) k small]

theorem readGpt_iff (stack : Mem) (mbr : getLE (sectors 0) 510 2 = mbrBootSigValue)
    (gpt : signature (sectors 1) = gptSignature) :
    (∃ rounds, readGpt addPart (fun lba => some (sectors lba)) stack rounds s = some (s', n)) ↔
      partitionCount (sectors 1) % 4 = 0 ∧
        (usedEntries sectors (quarterEntry sectors)).length < 256 ∧
        s' = ((usedEntries sectors (quarterEntry sectors)).map partOf).foldl addPart s ∧
        n = (usedEntries sectors (quarterEntry sectors)).length := by
  simp only [readGpt, mbr, gpt, ne_eq, not_true_eq_false, if_false]
  by_cases fours : partitionCount (sectors 1) % 4 = 0
  case neg =>
    refine iff_of_false ?_ (fun both => fours both.1)
    rintro ⟨rounds, run⟩
    rw [loadEntries_leaves fours rfl (Nat.zero_le _)] at run
    cases run
  constructor
  · rintro ⟨rounds, run⟩
    cases load : loadEntries (fun lba => some (sectors lba)) (sectors 1) rounds 0 stack with
    | none =>
      rw [load] at run
      cases run
    | some loaded =>
      obtain ⟨entries, rfl, count, calls⟩ :=
        loaded_entries addPart s fours load
      rw [load] at run
      simp only [count] at run
      rcases Nat.lt_or_ge (usedEntries sectors (quarterEntry sectors)).length 256 with few | many
      · rw [addParts_eq few (Nat.zero_le _), Nat.sub_zero, calls] at run
        split at run
        · obtain ⟨rfl, rfl⟩ := Prod.mk.inj (Option.some.inj run)
          exact ⟨fours, few, rfl, rfl⟩
        · cases run
      · rw [addParts_endless many (by decide)] at run
        cases run
  · rintro ⟨-, few, rfl, rfl⟩
    refine ⟨partitionCount (sectors 1) + 256, ?_⟩
    cases load : loadEntries (fun lba => some (sectors lba)) (sectors 1)
        (partitionCount (sectors 1) + 256) 0 stack with
    | none => exact absurd load (loadEntries_ends fours rfl (by omega))
    | some loaded =>
      obtain ⟨entries, rfl, count, calls⟩ :=
        loaded_entries addPart s fours load
      simp only [count]
      rw [addParts_eq few (Nat.zero_le _), Nat.sub_zero, calls, if_pos (by omega)]
      rfl

theorem addPartition_last (front : List Part) (last part : Part) :
    addPartition (front ++ [last]) part = front ++ [part, initPartitionHeader] := by
  induction front with
  | nil => rfl
  | cons node front ih =>
    cases front with
    | nil => rfl
    | cons next front =>
      rw [List.cons_append, List.cons_append, addPartition, ← List.cons_append, ih]
      rfl

theorem addPartition_all (parts front : List Part) :
    parts.foldl addPartition (front ++ [initPartitionHeader]) =
      front ++ parts ++ [initPartitionHeader] := by
  induction parts generalizing front with
  | nil => simp
  | cons part parts ih =>
    have next := ih (front ++ [part])
    simpa [addPartition_last] using next

theorem log_all (parts front : List Part) :
    parts.foldl (fun log part => log ++ [part]) front = front ++ parts := by
  induction parts generalizing front with
  | nil => simp
  | cons part parts ih => simp [ih]

/-- The partitions are read in order and counted just when the sectors fill the array of entries,
    an 8-bit counter reaches their number and the table shows the same partitions with four
    entries to a sector. -/
theorem gpt_read_iff (sectors : Nat → Mem) (stack : Mem)
    (mbr : getLE (sectors 0) 510 2 = mbrBootSigValue) (gpt : signature (sectors 1) = gptSignature) :
    TableRead sectors stack ↔
      partitionCount (sectors 1) % 4 = 0 ∧ (firstBlocks sectors).length < 256 ∧
        (usedEntries sectors (quarterEntry sectors)).map (fun entry => firstLba entry % 2 ^ 32) =
          firstBlocks sectors := by
  have lbas : ((usedEntries sectors (quarterEntry sectors)).map partOf).map (·.lba) =
      (usedEntries sectors (quarterEntry sectors)).map (fun entry => firstLba entry % 2 ^ 32) := by
    rw [List.map_map]
    rfl
  constructor
  · rintro ⟨⟨rounds, calls, run, told⟩, -⟩
    obtain ⟨fours, few, rfl, count⟩ := (readGpt_iff stack mbr gpt).mp ⟨rounds, run⟩
    rw [log_all, List.nil_append, lbas] at told
    exact ⟨fours, count ▸ few, told⟩
  · rintro ⟨fours, few, shown⟩
    have count : (firstBlocks sectors).length =
        (usedEntries sectors (quarterEntry sectors)).length := by
      rw [← shown, List.length_map]
    rw [count] at few
    constructor
    · obtain ⟨rounds, run⟩ := (readGpt_iff stack mbr gpt).mpr ⟨fours, few, rfl, count⟩
      refine ⟨rounds, _, run, ?_⟩
      rw [log_all, List.nil_append, lbas, shown]
    · obtain ⟨rounds, run⟩ := (readGpt_iff stack mbr gpt).mpr ⟨fours, few, rfl, count⟩
      refine ⟨rounds, _, run, ?_⟩
      rw [show [initPartitionHeader] = [] ++ [initPartitionHeader] from rfl, addPartition_all,
        List.nil_append, List.dropLast_concat, lbas, shown]

end Outcome

section Plain
variable {sectors : Nat → Mem}

theorem takeWhile_congr {p q : Nat → Bool} {l : List Nat} (same : ∀ x ∈ l, p x = q x) :
    l.takeWhile p = l.takeWhile q := by
  induction l with
  | nil => rfl
  | cons x l ih =>
    rw [List.takeWhile_cons, List.takeWhile_cons, same x List.mem_cons_self,
      ih fun y member => same y (List.mem_cons_of_mem x member)]

theorem quarterEntry_plain {i k : Nat} (size : partitionEntrySize (sectors 1) = 128)
    (early : i < 2 ^ 25) (reached : partitionTableLba (sectors 1) + i / 4 < 2 ^ 32)
    (small : k < 128) :
    quarterEntry sectors i k = tableEntry sectors i k := by
  have sector : (partitionTableLba (sectors 1) + i / 4 * 4 * 128 % 2 ^ 32 / 512) % 2 ^ 32 =
      partitionTableLba (sectors 1) + (i * 128 + k) / 512 := by omega
  have place : 128 * (i % 4) + k = (i * 128 + k) % 512 := by omega
  rw [quarterEntry, entrySector, tableEntry, size, sector, place]

theorem plain_table (size : partitionEntrySize (sectors 1) = 128)
    (count : partitionCount (sectors 1) ≤ 2 ^ 25)
    (reached : partitionTableLba (sectors 1) + partitionCount (sectors 1) / 4 < 2 ^ 32)
    (blocks : ∀ block ∈ firstBlocks sectors, block < 2 ^ 32) :
    (usedEntries sectors (quarterEntry sectors)).map (fun entry => firstLba entry % 2 ^ 32) =
      firstBlocks sectors := by
  have agree {i : Nat} (below : i ∈ List.range (partitionCount (sectors 1))) :
      ∀ k < 128, quarterEntry sectors i k = tableEntry sectors i k := by
    intro k small
    have below := List.mem_range.mp below
    exact quarterEntry_plain size (by omega) (by omega) small
  have same := takeWhile_congr (l := List.range (partitionCount (sectors 1)))
    (p := fun i => Used (quarterEntry sectors i)) (q := fun i => Used (tableEntry sectors i))
    (fun i below => by
      have used : Used (quarterEntry sectors i) ↔ Used (tableEntry sectors i) :=
        exists_congr fun k => and_congr_right fun small => by rw [agree below k (by omega)]
      simp only [used])
  rw [firstBlocks, usedEntries, usedEntries, List.map_map, List.map_map, same]
  apply List.map_congr_left
  intro i member
  have below := (List.takeWhile_prefix _).subset member
  have first : firstLba (quarterEntry sectors i) = firstLba (tableEntry sectors i) :=
    getLE_congr fun k _ high => agree below k (by omega)
  have block : firstLba (tableEntry sectors i) < 2 ^ 32 :=
    blocks _ (List.mem_map.mpr ⟨_, List.mem_map.mpr ⟨i, member, rfl⟩, rfl⟩)
  rw [Function.comp_apply, Function.comp_apply, first, Nat.mod_eq_of_lt block]

end Plain

def diskWith (count size : Nat) (table : Nat → Mem) : Nat → Mem
  | 0 => putLE blank 510 2 mbrBootSigValue
  | 1 => putLE (putLE (putLE (putLE blank 0 8 gptSignature) 72 8 2) 80 4 count) 84 4 size
  | block + 2 => table block

def fourEntries : Nat → Mem := diskWith 4 128 fun block k =>
  if block = 0 ∧ k = 0 then 1 else if block = 0 ∧ k = 32 then 40 else 0

theorem gpt_read_one : firstBlocks fourEntries = [40] ∧ TableRead fourEntries blank := by
  have blocks : firstBlocks fourEntries = [40] := by decide
  refine ⟨blocks, (gpt_read_iff fourEntries blank (by decide) (by decide)).mpr ⟨by decide, ?_, ?_⟩⟩
  · rw [blocks]
    decide
  · apply plain_table (by decide) (by decide) (by decide)
    rw [blocks]
    decide

def manyPartitions : Nat → Mem := diskWith 256 128 fun _ k => if k % 128 < 16 then 1 else 0

def wideEntries : Nat → Mem := diskWith 4 256 fun block k =>
  if block = 0 ∧ k % 256 = 0 then 1
  else if block = 0 ∧ k = 32 then 40 else if block = 0 ∧ k = 288 then 80 else 0

theorem manyPartitions_length :
    (usedEntries manyPartitions (quarterEntry manyPartitions)).length = 256 := by
  have count : partitionCount (manyPartitions 1) = 256 := by decide
  have size : partitionEntrySize (manyPartitions 1) = 128 := by decide
  have table : partitionTableLba (manyPartitions 1) = 2 := by decide
  have all : ∀ i ∈ List.range 256, decide (Used (quarterEntry manyPartitions i)) = true := by
    intro i member
    have below := List.mem_range.mp member
    refine decide_eq_true ⟨0, by decide, ?_⟩
    rw [quarterEntry, entrySector, size, table,
      show (2 + i / 4 * 4 * 128 % 2 ^ 32 / 512) % 2 ^ 32 = i / 4 + 2 by omega]
    simp [manyPartitions, diskWith]
  rw [usedEntries, count, List.takeWhile_eq_self_iff.mpr all, List.length_map, List.length_range]

/-- With 256 partitions the call does not return; with entries of 256 bytes it finds one of two. -/
theorem gpt_read_fails :
    (¬ ∃ rounds outcome, readGpt (fun log part => log ++ [part])
      (fun lba => some (manyPartitions lba)) blank rounds [] = some outcome) ∧
    firstBlocks wideEntries = [40, 80] ∧
    readGpt (fun log part => log ++ [part]) (fun lba => some (wideEntries lba)) blank 3 [] =
      some ([partOf (tableEntry wideEntries 0)], 1) := by
  refine ⟨?_, by decide, by decide⟩
  rintro ⟨rounds, ⟨log, n⟩, run⟩
  obtain ⟨-, few, -⟩ := (readGpt_iff blank (by decide) (by decide)).mp ⟨rounds, run⟩
  rw [manyPartitions_length] at few
  exact absurd few (by decide)

end OmenVfs.Gpt
