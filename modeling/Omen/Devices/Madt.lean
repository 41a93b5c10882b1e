import Mathlib.Data.List.Induction
import Mathlib.Logic.Function.Basic
import Omen.Library.ByteMemory

/- The interrupt controllers that the firmware lists (`apic.c`): `register_apic` goes over the MADT
   twice, first to count the records and then to store a pointer to each of them in arrays of the
   counted size. The counters and the indices are bytes, and the indices are `static`. The arrays
   come from `kmalloc` and lie apart from the table. -/
namespace OmenApic
open ByteMemory

inductive Kind where
  | lapic
  | ioapic
  | iso
  deriving DecidableEq

def kindOf (m : Mem) (entry : Nat) : Option Kind :=
  if m entry = 0 then some .lapic
  else if m entry = 1 then some .ioapic
  else if m entry = 2 then some .iso
  else none

def apicId (m : Mem) (entry : Nat) : Nat := (m (entry + 3)).toNat

structure Counts where
  count : Kind → Nat
  maxApicId : Nat

def accountApicEntry (m : Mem) (c : Counts) (entry : Nat) : Counts :=
  match kindOf m entry with
  | none => c
  | some kind =>
    { count := Function.update c.count kind ((c.count kind + 1) % 256)
      maxApicId := if kind = .lapic ∧ c.maxApicId < apicId m entry then apicId m entry
        else c.maxApicId }

structure Slots where
  cells : Nat → Option Nat
  next : Nat

def Slots.store (s : Slots) (pointer : Nat) : Slots :=
  ⟨Function.update s.cells s.next (some pointer), (s.next + 1) % 256⟩

structure Tables where
  slots : Kind → Slots
  lapicAddress : Nat → Bool

def parseApicEntry (m : Mem) (t : Tables) (entry : Nat) : Tables :=
  match kindOf m entry with
  | none => t
  | some kind =>
    { slots := Function.update t.slots kind ((t.slots kind).store entry)
      lapicAddress := if kind = .lapic then Function.update t.lapicAddress (apicId m entry) true
        else t.lapicAddress }

/-- The loop of both passes: it ends behind the table or after a record of length 0; nothing if it
    has not ended after that many turns. -/
def pass {σ : Type} (m : Mem) (stop : Nat) (f : σ → Nat → σ) : Nat → Nat → σ → Option σ
  | 0, _, _ => none
  | turns + 1, entry, s =>
    if entry < stop then
      let s := f s entry
      let len := (m (entry + 1)).toNat
      if len = 0 then some s else pass m stop f turns (entry + len) s
    else some s

def madtHeaderSize : Nat := 44

def tableEnd (m : Mem) (madt : Nat) : Nat := madt + getLE m (madt + 4) 4

def registerApic (m : Mem) (madt : Nat) (indices : Kind → Nat) : Option (Counts × Tables) := do
  let turns := getLE m (madt + 4) 4 + 1
  let counts ← pass m (tableEnd m madt) (accountApicEntry m) turns (madt + madtHeaderSize)
    ⟨fun _ => 0, 0⟩
  let tables ← pass m (tableEnd m madt) (parseApicEntry m) turns (madt + madtHeaderSize)
    ⟨fun kind => ⟨fun _ => none, indices kind⟩, fun _ => false⟩
  return (counts, tables)

/-- The size of a record's structure, which `kmalloc` gets for each pointer. -/
def recordSize : Kind → Nat
  | .lapic => 8
  | .ioapic => 13
  | .iso => 10

def capacity (c : Counts) (kind : Kind) : Nat := recordSize kind * c.count kind / 8

/- What the passes are for. -/

def records (m : Mem) (stop : Nat) : Nat → Nat → List Nat
  | 0, _ => []
  | turns + 1, entry =>
    if entry < stop then
      entry :: if m (entry + 1) = 0 then []
        else records m stop turns (entry + (m (entry + 1)).toNat)
    else []

def madtRecords (m : Mem) (madt : Nat) : List Nat :=
  records m (tableEnd m madt) (getLE m (madt + 4) 4 + 1) (madt + madtHeaderSize)

def ofKind (m : Mem) (kind : Kind) (entries : List Nat) : List Nat :=
  entries.filter fun entry => kindOf m entry = some kind

/-- The array holds the records in their order, no more, and was made large enough. -/
structure Registered (c : Counts) (t : Tables) (kind : Kind) (entries : List Nat) : Prop where
  counted : c.count kind = entries.length
  stored : ∀ i, (t.slots kind).cells i = entries[i]?
  inside : ∀ i, (t.slots kind).cells i ≠ none → i < capacity c kind

section Passes
variable {m : Mem} {stop entry turns : Nat}

theorem pass_eq {σ : Type} {f : σ → Nat → σ} {s : σ} (enough : stop - entry < turns) :
    pass m stop f turns entry s = some ((records m stop turns entry).foldl f s) := by
  induction turns generalizing entry s with
  | zero => exact absurd enough (Nat.not_lt_zero _)
  | succ turns ih =>
    rw [pass, records]
    by_cases inside : entry < stop
    · rw [if_pos inside, if_pos inside, List.foldl_cons]
      by_cases last : m (entry + 1) = 0
      · rw [if_pos last, last]
        rfl
      · have positive : (m (entry + 1)).toNat ≠ 0 := fun zero => last (UInt8.toNat_inj.mp zero)
        rw [if_neg last]
        dsimp only
        rw [if_neg positive]
        exact ih (by omega)
    · rw [if_neg inside, if_neg inside]
      rfl

variable {kind : Kind} {entries : List Nat}

theorem ofKind_snoc (entry : Nat) : ofKind m kind (entries ++ [entry]) =
    ofKind m kind entries ++ if kindOf m entry = some kind then [entry] else [] := by
  rw [ofKind, List.filter_append]
  congr 1
  simp only [List.filter_cons, List.filter_nil, decide_eq_true_eq]

theorem account_count (kind : Kind) :
    (entries.foldl (accountApicEntry m) ⟨fun _ => 0, 0⟩).count kind =
    (ofKind m kind entries).length % 256 := by
  induction entries using List.reverseRecOn with
  | nil => rfl
  | append_singleton entries entry ih =>
    rw [List.foldl_append, ofKind_snoc, List.foldl_cons, List.foldl_nil, accountApicEntry]
    cases same : kindOf m entry with
    | none => simpa using ih
    | some other =>
      dsimp only
      by_cases here : other = kind
      · rw [here, Function.update_self, if_pos rfl, ih, List.length_append, List.length_singleton,
          Nat.mod_add_mod]
      · rw [Function.update_of_ne (Ne.symm here), if_neg (by simpa using here), List.append_nil, ih]

theorem account_max (inside : entry ∈ ofKind m .lapic entries) : apicId m entry ≤
    (entries.foldl (accountApicEntry m) ⟨fun _ => 0, 0⟩).maxApicId := by
  induction entries using List.reverseRecOn with
  | nil => cases inside
  | append_singleton entries last ih =>
    rw [ofKind_snoc, List.mem_append] at inside
    rw [List.foldl_append, List.foldl_cons, List.foldl_nil, accountApicEntry]
    cases same : kindOf m last with
    | none =>
      rw [same, if_neg (by simp)] at inside
      simpa using ih (by simpa using inside)
    | some kind =>
      rw [same] at inside
      dsimp only
      split
      · rcases inside with earlier | here
        · have := ih earlier
          omega
        · split at here
          · rw [List.mem_singleton.mp here]
          · cases here
      · rename_i small
        rcases inside with earlier | here
        · exact ih earlier
        · split at here
          · rename_i lapic
            rw [List.mem_singleton.mp here]
            exact Nat.le_of_not_lt fun large => small ⟨Option.some.inj lapic, large⟩
          · cases here

theorem parse_slots (t : Tables) (kind : Kind) :
    (entries.foldl (parseApicEntry m) t).slots kind =
      (ofKind m kind entries).foldl Slots.store (t.slots kind) := by
  induction entries using List.reverseRecOn with
  | nil => rfl
  | append_singleton entries entry ih =>
    rw [List.foldl_append, ofKind_snoc, List.foldl_append, List.foldl_cons, List.foldl_nil,
      parseApicEntry, ← ih]
    cases same : kindOf m entry with
    | none => simp
    | some other =>
      dsimp only
      by_cases here : other = kind
      · rw [here, Function.update_self, if_pos rfl]
        rfl
      · rw [Function.update_of_ne (Ne.symm here), if_neg (by simpa using here)]
        rfl

theorem parse_address (t : Tables) (id : Nat) :
    (entries.foldl (parseApicEntry m) t).lapicAddress id = true ↔
      t.lapicAddress id = true ∨ ∃ entry ∈ ofKind m .lapic entries, apicId m entry = id := by
  induction entries using List.reverseRecOn with
  | nil => simp [ofKind]
  | append_singleton entries entry ih =>
    rw [List.foldl_append, ofKind_snoc, List.foldl_cons, List.foldl_nil, parseApicEntry]
    cases same : kindOf m entry with
    | none => simpa using ih
    | some kind =>
      by_cases lapic : kind = .lapic
      · rw [lapic, if_pos rfl]
        dsimp only
        rw [if_pos rfl, Function.update_apply]
        by_cases here : id = apicId m entry
        · simp [here]
        · simp [here, Ne.symm here, ih]
      · rw [if_neg (by simpa using lapic), List.append_nil]
        dsimp only
        rw [if_neg lapic]
        exact ih

end Passes

section Storing
variable {s : Slots} {pointers : List Nat}

theorem store_next (below : s.next < 256) :
    (pointers.foldl Slots.store s).next = (s.next + pointers.length) % 256 := by
  induction pointers using List.reverseRecOn with
  | nil => exact (Nat.mod_eq_of_lt below).symm
  | append_singleton pointers p ih =>
    rw [List.foldl_append, List.foldl_cons, List.foldl_nil, Slots.store, ih, List.length_append,
      List.length_singleton, Nat.mod_add_mod, Nat.add_assoc]

theorem store_filled (below : s.next < 256) (i : Nat) :
    (pointers.foldl Slots.store s).cells i ≠ none ↔
      s.cells i ≠ none ∨ ∃ k < pointers.length, (s.next + k) % 256 = i := by
  induction pointers using List.reverseRecOn with
  | nil => simp
  | append_singleton pointers p ih =>
    rw [List.foldl_append, List.foldl_cons, List.foldl_nil, Slots.store, store_next below,
      List.length_append, List.length_singleton]
    dsimp only
    rw [Function.update_apply]
    split
    · rename_i here
      exact iff_of_true (Option.some_ne_none p) (.inr ⟨pointers.length, by omega, here.symm⟩)
    · rename_i other
      rw [ih]
      constructor
      · rintro (before | ⟨k, few, same⟩)
        · exact .inl before
        · exact .inr ⟨k, by omega, same⟩
      · rintro (before | ⟨k, few, same⟩)
        · exact .inl before
        · refine .inr ⟨k, ?_, same⟩
          by_contra many
          have last : k = pointers.length := by omega
          exact other (last ▸ same).symm

theorem store_in_order (few : pointers.length ≤ 256) (i : Nat) :
    (pointers.foldl Slots.store ⟨fun _ => none, 0⟩).cells i = pointers[i]? := by
  induction pointers using List.reverseRecOn with
  | nil => rfl
  | append_singleton pointers p ih =>
    rw [List.length_append, List.length_singleton] at few
    rw [List.foldl_append, List.foldl_cons, List.foldl_nil, Slots.store, store_next (by decide)]
    dsimp only
    rw [Nat.zero_add, Nat.mod_eq_of_lt (by omega), Function.update_apply, ih (by omega)]
    by_cases here : i = pointers.length
    · rw [if_pos here, here, List.getElem?_concat_length]
    · rw [if_neg here]
      rcases Nat.lt_or_ge i pointers.length with inside | beyond
      · rw [List.getElem?_append_left inside]
      · rw [List.getElem?_eq_none beyond, List.getElem?_eq_none (by simp; omega)]

/-- Stores in a ring of 256 cells that fill just the first ones began at the first one. -/
theorem store_starts (below : s.next < 256) (fresh : ∀ i, s.cells i = none)
    (some_pointer : pointers ≠ []) (few : pointers.length < 256)
    (filled : ∀ i, (pointers.foldl Slots.store s).cells i ≠ none ↔ i < pointers.length) :
    s.next = 0 := by
  have written : ∀ i, i < pointers.length ↔ ∃ k < pointers.length, (s.next + k) % 256 = i := by
    intro i
    rw [← filled, store_filled below]
    simp [fresh]
  have positive := List.length_pos_iff.mpr some_pointer
  by_contra later
  -- the first store is at `next`, so the cell before it is filled too, but by no store
  have first := (written s.next).mpr ⟨0, positive, Nat.mod_eq_of_lt below⟩
  obtain ⟨k, inside, same⟩ := (written (s.next - 1)).mp (by omega)
  omega

end Storing

def counted (m : Mem) (entries : List Nat) : Counts :=
  entries.foldl (accountApicEntry m) ⟨fun _ => 0, 0⟩

def parsed (m : Mem) (indices : Kind → Nat) (entries : List Nat) : Tables :=
  entries.foldl (parseApicEntry m) ⟨fun kind => ⟨fun _ => none, indices kind⟩, fun _ => false⟩

theorem registerApic_eq (m : Mem) (madt : Nat) (indices : Kind → Nat) :
    registerApic m madt indices =
      some (counted m (madtRecords m madt), parsed m indices (madtRecords m madt)) := by
  have enough : tableEnd m madt - (madt + madtHeaderSize) < getLE m (madt + 4) 4 + 1 := by
    rw [tableEnd]
    omega
  rw [registerApic, pass_eq enough, pass_eq enough]
  rfl

theorem le_capacity (c : Counts) (kind : Kind) : c.count kind ≤ capacity c kind := by
  rw [capacity]
  cases kind <;> simp only [recordSize] <;> omega

theorem registered_iff (m : Mem) (indices : Kind → Fin 256) (entries : List Nat) (kind : Kind) :
    Registered (counted m entries) (parsed m (fun kind => indices kind) entries) kind
        (ofKind m kind entries) ↔
      ofKind m kind entries = [] ∨ indices kind = 0 ∧ (ofKind m kind entries).length ≤ 255 := by
  have count : (counted m entries).count kind = _ := account_count kind
  have slots : (parsed m (fun kind => indices kind) entries).slots kind =
      (ofKind m kind entries).foldl Slots.store ⟨fun _ => none, indices kind⟩ := parse_slots _ kind
  constructor
  · rintro ⟨counted, stored, -⟩
    rw [count] at counted
    by_cases nothing : ofKind m kind entries = []
    · exact .inl nothing
    · refine .inr ⟨Fin.ext ?_, by omega⟩
      rw [slots] at stored
      refine @store_starts ⟨fun _ => none, indices kind⟩ _ (indices kind).isLt
        (fun _ => rfl) nothing
        (by omega) fun i => ?_
      rw [stored, ne_eq, List.getElem?_eq_none_iff, Nat.not_le]
  · intro fits
    have few : (ofKind m kind entries).length ≤ 255 := by
      rcases fits with nothing | ⟨-, few⟩
      · rw [nothing]
        decide
      · exact few
    have exact_count : (counted m entries).count kind = (ofKind m kind entries).length := by
      rw [count, Nat.mod_eq_of_lt (by omega)]
    have stored : ∀ i, ((parsed m (fun kind => indices kind) entries).slots kind).cells i =
        (ofKind m kind entries)[i]? := by
      intro i
      rw [slots]
      rcases fits with nothing | ⟨start, -⟩
      · rw [nothing]
        rfl
      · rw [start]
        exact store_in_order (by omega) i
    refine ⟨exact_count, stored, fun i filled => ?_⟩
    rw [stored, ne_eq, List.getElem?_eq_none_iff, Nat.not_le, ← exact_count] at filled
    exact Nat.lt_of_lt_of_le filled (le_capacity _ _)

/-- Both passes always come to an end, and every local controller has its address structure inside
    of that array. The array of a kind of records comes out right just when there are at most 255
    of them and, unless there are none, its static index is still 0: so on the first call only. -/
theorem registerApic_iff (m : Mem) (madt : Nat) (indices : Kind → Fin 256) :
    ∃ c t, registerApic m madt (fun kind => indices kind) = some (c, t) ∧
      (∀ id, t.lapicAddress id = true ↔
        ∃ entry ∈ ofKind m .lapic (madtRecords m madt), apicId m entry = id) ∧
      (∀ id, t.lapicAddress id = true → id < c.maxApicId + 1) ∧
      ∀ kind, Registered c t kind (ofKind m kind (madtRecords m madt)) ↔
        ofKind m kind (madtRecords m madt) = [] ∨
          indices kind = 0 ∧ (ofKind m kind (madtRecords m madt)).length ≤ 255 := by
  have address : ∀ id, (parsed m (fun kind => indices kind) (madtRecords m madt)).lapicAddress id =
      true ↔ ∃ entry ∈ ofKind m .lapic (madtRecords m madt), apicId m entry = id := fun id =>
    (parse_address _ id).trans (or_iff_right Bool.false_ne_true)
  refine ⟨_, _, registerApic_eq m madt _, address, fun id allocated => ?_,
    registered_iff m indices _⟩
  obtain ⟨entry, lapic, rfl⟩ := (address id).mp allocated
  exact Nat.lt_succ_of_le (account_max lapic)

end OmenApic
