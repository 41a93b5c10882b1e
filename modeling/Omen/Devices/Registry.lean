import Mathlib.Data.List.Nodup
import Omen.Library.Runs
import Mathlib.Logic.Function.Basic
import Mathlib.Tactic.Common

/- The table of devices. A major has its top bit set for a character device; the entry keeps that
   bit apart from the rest of the number. Devices are never destroyed. A major behind the table
   of identifiers has no result. -/
namespace OmenDevices
open Runs

def maxDevices : Nat := 256

def deviceIdentifiers : Nat → Option (List Char)
  | 0x8 => some "hd".toList
  | 0x9 => some "cd".toList
  | 0xa => some "semb".toList
  | 0xb => some "pm".toList
  | 0xc => some "sd".toList
  | 0xe => some "tty".toList
  | 0x10 => some "mouse".toList
  | 0x11 => some "net".toList
  | 0x12 => some "fb".toList
  | 0x8d => some "serial".toList
  | 0x8e => some "fifo".toList
  | 0x8f => some "kbd".toList
  | 0x90 => some "dcon".toList
  | major => if major < 0x14 then some "none".toList else none

structure Device where
  bc : Nat
  valid : Bool
  major : Nat
  minor : Nat
  name : List Char

structure Devices where
  devices : Nat → Device
  count : Nat

def initDevices : Devices := ⟨fun _ => ⟨0, false, 0, 0, []⟩, 0⟩

/- The minor so far, and the first entry that is not valid. -/
def scanDevice (devices : Nat → Device) (major : Nat) (s : Nat × Option Nat) (i : Nat) :
    Nat × Option Nat :=
  if (devices i).valid then
    (if (devices i).major = major ∧ s.1 ≤ (devices i).minor then (devices i).minor + 1 else s.1,
      s.2)
  else (s.1, s.2.or (some i))

def deviceName (identifier : List Char) (minor : Nat) : List Char :=
  identifier ++ Nat.toDigits 16 (minor + 0xA)

def deviceCreate (s : Devices) (major : Nat) : Option Devices :=
  if 0x90 < major then none
  else match deviceIdentifiers major with
    | none => some s
    | some identifier =>
      let scan := (List.range maxDevices).foldl (scanDevice s.devices major) (0, none)
      match scan.2 with
      | none => some s
      | some index => some {
          devices := Function.update s.devices index ⟨major / 0x80, true, major % 0x80,
            scan.1 % 256, deviceName identifier scan.1⟩
          count := s.count + 1 }

def deviceSearch (s : Devices) (name : List Char) : Option Nat :=
  (List.range s.count).find? fun i => (s.devices i).name = name

def Identified (s : Devices) : Prop :=
  (∀ i j, (s.devices i).valid → (s.devices j).valid → i ≠ j →
    (s.devices i).major = (s.devices j).major → (s.devices i).bc = (s.devices j).bc →
      (s.devices i).minor ≠ (s.devices j).minor ∧ (s.devices i).name ≠ (s.devices j).name) ∧
  ∀ i, (s.devices i).valid → deviceSearch s (s.devices i).name = some i

/-- The number that a device gets: character devices get 0, the others count their major from 0,
    or from 1 where the first device with the same low bits is a character device. -/
def number (before : List Nat) (major : Nat) : Nat :=
  if 0x80 ≤ major then 0
  else before.count major +
    if before.find? (· % 0x80 = major) = some (major + 0x80) then 1 else 0

def labelsFrom (before : List Nat) : List Nat → List (List Char × Nat)
  | [] => []
  | major :: rest => ((deviceIdentifiers major).getD [], number before major) ::
      labelsFrom (before ++ [major]) rest

def made (calls : List Nat) : List Nat :=
  (calls.filter fun major => (deviceIdentifiers major).isSome).take maxDevices

theorem length_labelsFrom (before majors : List Nat) :
    (labelsFrom before majors).length = majors.length := by
  induction majors generalizing before with
  | nil => rfl
  | cons m majors ih => simp [labelsFrom, ih]

section Numbering
variable {u : List Nat} {m m' : Nat}

theorem number_block (block : m < 0x80) (u : List Nat) : number u m =
    u.count m + if u.find? (· % 0x80 = m) = some (m + 0x80) then 1 else 0 := by
  rw [number, if_neg (by omega)]

theorem number_self (block : m < 0x80) : number (u ++ [m]) m = number u m + 1 := by
  have low : m % 0x80 = m := Nat.mod_eq_of_lt block
  rw [number_block block, number_block block, List.count_append,
    List.count_singleton_self, List.find?_append]
  cases u.find? (· % 0x80 = m) <;> (simp [low]; try omega)

theorem number_twin (block : m < 0x80) (bytes : ∀ x ∈ u, x < 0x100) :
    number (u ++ [m + 0x80]) m = max (number u m) 1 := by
  rw [number_block block, number_block block, List.count_append,
    List.count_singleton, List.find?_append]
  cases found : u.find? (· % 0x80 = m) with
  | none =>
    have none_before : u.count m = 0 := by
      rw [List.count_eq_zero]
      intro member
      exact absurd (Nat.mod_eq_of_lt block) (by simpa using List.find?_eq_none.mp found m member)
    simp [none_before, Nat.mod_eq_of_lt block]
  | some x =>
    have member := List.mem_of_find?_eq_some found
    have low : x % 0x80 = m := by simpa using List.find?_some found
    have := bytes x member
    have one : x = m + 0x80 ∨ 1 ≤ u.count m := by
      by_cases same : x = m
      · exact Or.inr (List.one_le_count_iff.mpr (same ▸ member))
      · omega
    rcases one with twin | counted
    · simp [twin]
    · simp
      omega

theorem number_other (block : m < 0x80) (other : m' % 0x80 ≠ m) :
    number (u ++ [m']) m = number u m := by
  have ne : m' ≠ m := fun same => other (by rw [same, Nat.mod_eq_of_lt block])
  simp [number, List.find?_append, other, ne]

theorem number_le (u : List Nat) (m : Nat) : number u m ≤ u.length := by
  rw [number]
  split
  · exact Nat.zero_le _
  · split
    · rename_i block twin
      have apart : u.count m ≠ u.length := fun whole => by
        have := List.count_eq_length.mp whole _ (List.mem_of_find?_eq_some twin)
        omega
      have := List.count_le_length (a := m) (l := u)
      omega
    · simpa using List.count_le_length

end Numbering

section Table
variable {s : Devices} {majors : List Nat} {major : Nat}

def entryFor (before : List Nat) (major : Nat) : Device :=
  ⟨major / 0x80, true, major % 0x80, number before major,
    deviceName ((deviceIdentifiers major).getD []) (number before major)⟩

structure Registered (s : Devices) (majors : List Nat) : Prop where
  count : s.count = majors.length
  full : majors.length ≤ maxDevices
  known : ∀ m ∈ majors, (deviceIdentifiers m).isSome ∧ m ≤ 0x90
  entry : Along (fun u m => s.devices u.length = entryFor u m) majors
  free : ∀ i, majors.length ≤ i → (s.devices i).valid = false

theorem scan_made {devices : Nat → Device} (bytes : ∀ m ∈ majors, m < 0x100)
    (entry : Along (fun u m => devices u.length = entryFor u m) majors) :
    (List.range majors.length).foldl (scanDevice devices major) (0, none) =
      (number majors major, none) := by
  induction majors using List.reverseRecOn with
  | nil => simp [number]
  | append_singleton u m ih =>
    obtain ⟨before, here⟩ := along_snoc.mp entry
    have bytes_before : ∀ x ∈ u, x < 0x100 := fun x member => bytes x (by simp [member])
    have byte := bytes m (by simp)
    rw [List.length_append, List.length_singleton, List.range_succ, List.foldl_append,
      ih bytes_before before]
    simp only [List.foldl_cons, List.foldl_nil, scanDevice, here, entryFor, if_true]
    by_cases block : major < 0x80
    · by_cases low : m % 0x80 = major
      · rcases (by omega : m = major ∨ m = major + 0x80) with same | twin
        · subst same
          simp [low, number_self block]
        · subst twin
          have : number u (major + 0x80) = 0 := by simp [number]
          rw [number_twin block bytes_before, this]
          split <;> simp <;> omega
      · simp [low, number_other block low]
    · have : m % 0x80 ≠ major := by omega
      simp [this, number, Nat.le_of_not_lt block]

theorem scan_free {devices : Nat → Device} {k : Nat} (free : ∀ i, k ≤ i → (devices i).valid = false)
    (v j : Nat) : ((List.range j).map (k + ·)).foldl (scanDevice devices major) (v, none) =
      (v, if j = 0 then none else some k) := by
  induction j with
  | zero => rfl
  | succ j ih =>
    rw [List.range_succ, List.map_append, List.foldl_append, ih]
    simp only [List.map_cons, List.map_nil, List.foldl_cons, List.foldl_nil, scanDevice,
      free (k + j) (by omega)]
    cases j <;> simp

theorem scan_eq (h : Registered s majors) (major : Nat) :
    (List.range maxDevices).foldl (scanDevice s.devices major) (0, none) =
      (number majors major, if majors.length < maxDevices then some majors.length else none) := by
  have bytes : ∀ m ∈ majors, m < 0x100 := fun m member => by have := (h.known m member).2; omega
  have full := h.full
  obtain ⟨j, whole⟩ := Nat.exists_eq_add_of_le full
  rw [whole, List.range_add, List.foldl_append, scan_made bytes h.entry, scan_free h.free]
  by_cases some_free : j = 0
  · simp [some_free]
  · simp [some_free, Nat.pos_of_ne_zero some_free]

theorem create_registered (h : Registered s majors) (major : Nat) {s' : Devices}
    (created : deviceCreate s major = some s') :
    Registered s' (if (deviceIdentifiers major).isSome ∧ majors.length < maxDevices then
      majors ++ [major] else majors) := by
  rw [deviceCreate] at created
  split at created
  · cases created
  · rename_i inside
    cases identifier : deviceIdentifiers major with
    | none =>
      simp only [identifier] at created
      cases created
      simpa using h
    | some name =>
      simp only [identifier, scan_eq h] at created
      by_cases room : majors.length < maxDevices
      · simp only [if_pos room] at created
        cases created
        simp only [Option.isSome_some, room, and_self, if_true]
        have fits := number_le majors major
        refine ⟨?_, ?_, ?_, ?_, ?_⟩
        · simp [h.count]
        · simpa [Nat.succ_le_iff] using room
        · intro m member
          rcases List.mem_append.mp member with member | member
          · exact h.known m member
          · rw [List.mem_singleton.mp member, identifier]
            exact ⟨rfl, by omega⟩
        · refine along_snoc.mpr ⟨fun u m part => ?_, ?_⟩
          · have short := part.length_le
            rw [List.length_append, List.length_singleton] at short
            dsimp only
            rw [Function.update_of_ne (by omega)]
            exact h.entry u m part
          · dsimp only
            rw [Function.update_self, entryFor, identifier, Option.getD_some,
              Nat.mod_eq_of_lt (by rw [maxDevices] at room; omega : number majors major < 256)]
        · intro i behind
          rw [List.length_append, List.length_singleton] at behind
          dsimp only
          rw [Function.update_of_ne (by omega)]
          exact h.free i (by omega)
      · simp only [if_neg room] at created
        cases created
        simpa [room] using h

theorem made_snoc (calls : List Nat) (major : Nat) : made (calls ++ [major]) =
    if (deviceIdentifiers major).isSome ∧ (made calls).length < maxDevices then
      made calls ++ [major] else made calls := by
  simp only [made, List.filter_append, List.take_append, List.length_take]
  cases known : (deviceIdentifiers major).isSome with
  | false => simp [known]
  | true =>
    by_cases room : (calls.filter fun m => (deviceIdentifiers m).isSome).length < maxDevices
    · obtain ⟨j, more⟩ := Nat.exists_eq_add_of_lt room
      simp [known, more, Nat.add_assoc]
    · have full := Nat.le_of_not_lt room
      simp [known, Nat.sub_eq_zero_of_le full, Nat.min_eq_left full]

theorem calls_registered {calls : List Nat}
    (reached : calls.foldlM deviceCreate initDevices = some s) : Registered s (made calls) := by
  induction calls using List.reverseRecOn generalizing s with
  | nil =>
    cases reached
    exact ⟨rfl, Nat.zero_le _, by simp [made], along_nil, fun _ _ => rfl⟩
  | append_singleton calls major ih =>
    rw [List.foldlM_append] at reached
    obtain ⟨mid, before, last⟩ := Option.bind_eq_some_iff.mp reached
    rw [made_snoc]
    exact create_registered (ih before) major (by simpa using last)

end Table

section Names

def identifiers : List (List Char) :=
  ["hd", "cd", "semb", "pm", "sd", "tty", "mouse", "net", "fb", "serial", "fifo", "kbd", "dcon",
    "none"].map String.toList

theorem mem_identifiers {major : Nat} {name : List Char}
    (known : deviceIdentifiers major = some name) : name ∈ identifiers := by
  unfold deviceIdentifiers at known
  split at known <;> (try split at known) <;> cases known <;> decide

theorem identifiers_prefix_eq : ∀ a ∈ identifiers, ∀ b ∈ identifiers, a <+: b → a = b := by
  decide

def hexValue (digits : List Char) : Nat :=
  digits.foldl (fun n c => n * 16 + if c.toNat < 97 then c.toNat - 48 else c.toNat - 87) 0

theorem hexValue_toDigits : ∀ i : Fin 256, hexValue (Nat.toDigits 16 (i + 10)) = i + 10 := by
  decide +kernel

theorem deviceName_inj {a b : List Char} (known : a ∈ identifiers) (known' : b ∈ identifiers)
    {i j : Nat} (small : i < 256) (small' : j < 256) :
    deviceName a i = deviceName b j ↔ a = b ∧ i = j := by
  constructor
  · intro same
    have identifier : a = b := by
      have behind : b <+: deviceName a i := same ▸ List.prefix_append b _
      rcases List.prefix_or_prefix_of_prefix (List.prefix_append a _) behind with part | part
      · exact identifiers_prefix_eq a known b known' part
      · exact (identifiers_prefix_eq b known' a known part).symm
    subst identifier
    have digits := congrArg hexValue (List.append_cancel_left same)
    rw [hexValue_toDigits ⟨i, small⟩, hexValue_toDigits ⟨j, small'⟩] at digits
    exact ⟨rfl, by simpa using digits⟩
  · rintro ⟨rfl, rfl⟩
    rfl

theorem labelsFrom_getElem? (before majors : List Nat) (i : Nat) :
    (labelsFrom before majors)[i]? = majors[i]?.map fun major =>
      ((deviceIdentifiers major).getD [], number (before ++ majors.take i) major) := by
  induction majors generalizing before i with
  | nil => simp [labelsFrom]
  | cons m majors ih =>
    cases i with
    | zero => simp [labelsFrom]
    | succ i => simp [labelsFrom, ih]

variable {s : Devices} {majors : List Nat}

theorem Registered.entry_at (h : Registered s majors) {i : Nat} (inside : i < majors.length) :
    s.devices i = entryFor (majors.take i) majors[i] := by
  have here := along_iff_get.mp h.entry ⟨i, inside⟩
  rwa [List.length_take, Nat.min_eq_left (Nat.le_of_lt inside)] at here

theorem Registered.valid_iff (h : Registered s majors) (i : Nat) :
    (s.devices i).valid = true ↔ i < majors.length := by
  constructor
  · intro valid
    by_contra behind
    rw [h.free i (by omega)] at valid
    cases valid
  · intro inside
    rw [h.entry_at inside]
    rfl

theorem Registered.name_eq_iff (h : Registered s majors) {i j : Nat} (inside : i < majors.length)
    (inside' : j < majors.length) : (s.devices i).name = (s.devices j).name ↔
      (labelsFrom [] majors)[i]? = (labelsFrom [] majors)[j]? := by
  have known (k : Nat) (below : k < majors.length) :
      (deviceIdentifiers majors[k]).getD [] ∈ identifiers := by
    obtain ⟨name, some_name⟩ := Option.isSome_iff_exists.mp (h.known _ (List.getElem_mem below)).1
    rw [some_name]
    exact mem_identifiers some_name
  have small (k : Nat) (below : k < majors.length) : number (majors.take k) majors[k] < 256 := by
    have := number_le (majors.take k) majors[k]
    have full := h.full
    rw [List.length_take] at this
    rw [maxDevices] at full
    omega
  rw [h.entry_at inside, h.entry_at inside', labelsFrom_getElem?, labelsFrom_getElem?]
  simp only [entryFor, List.getElem?_eq_getElem inside, List.getElem?_eq_getElem inside',
    Option.map_some, Option.some_inj, Prod.mk.injEq, List.nil_append]
  exact deviceName_inj (known i inside) (known j inside') (small i inside) (small j inside')

/-- Names identify devices exactly when no two devices made have identifier and number in
    common. -/
theorem identified_iff {calls : List Nat}
    (reached : calls.foldlM deviceCreate initDevices = some s) :
    Identified s ↔ (labelsFrom [] (made calls)).Nodup := by
  have h := calls_registered reached
  rw [List.nodup_iff_getElem?_ne_getElem?]
  constructor
  · rintro ⟨-, search⟩ i j before below same
    rw [length_labelsFrom] at below
    have found := search j ((h.valid_iff j).mpr below)
    rw [deviceSearch, List.find?_range_eq_some] at found
    have other := found.2.2 i before
    simp [(h.name_eq_iff (by omega) below).mpr same] at other
  · intro distinct
    have names (i j : Nat) (below : i < (made calls).length) (below' : j < (made calls).length)
        (same : (s.devices i).name = (s.devices j).name) : i = j := by
      rw [h.name_eq_iff below below'] at same
      rw [length_labelsFrom] at distinct
      rcases Nat.lt_trichotomy i j with less | equal | more
      · exact absurd same (distinct i j less below')
      · exact equal
      · exact absurd same.symm (distinct j i more below)
    refine ⟨?_, ?_⟩
    · intro i j valid valid' ne low bit
      rw [h.valid_iff] at valid valid'
      have differ : (s.devices i).name ≠ (s.devices j).name := mt (names i j valid valid') ne
      refine ⟨fun minor => differ ?_, differ⟩
      rw [h.entry_at valid, h.entry_at valid'] at low bit minor ⊢
      simp only [entryFor] at low bit minor ⊢
      rw [minor, show (made calls)[i] = (made calls)[j] by omega]
    · intro i valid
      rw [h.valid_iff] at valid
      rw [deviceSearch, List.find?_range_eq_some, h.count]
      refine ⟨by simp, by simpa using valid, fun j before => ?_⟩
      have := mt (names j i (by omega) valid) (by omega)
      simpa using this

theorem calls_defined {calls : List Nat} (inside : ∀ m ∈ calls, m ≤ 0x90) (s : Devices) :
    ∃ s', calls.foldlM deviceCreate s = some s' := by
  induction calls generalizing s with
  | nil => exact ⟨s, rfl⟩
  | cons m calls ih =>
    have below : ¬ 0x90 < m := Nat.not_lt.mpr (inside m (by simp))
    obtain ⟨s₁, first⟩ : ∃ s₁, deviceCreate s m = some s₁ := by
      rw [deviceCreate, if_neg below]
      split
      · exact ⟨s, rfl⟩
      · dsimp only
        split <;> exact ⟨_, rfl⟩
    rw [List.foldlM_cons, first]
    exact ih (fun x member => inside x (by simp [member])) s₁

theorem identified_three : ∃ s, [0x0e, 0x8d, 0x0e].foldlM deviceCreate initDevices = some s ∧
    Identified s := by
  obtain ⟨s, reached⟩ := calls_defined (by decide : ∀ m ∈ [0x0e, 0x8d, 0x0e], m ≤ 0x90) initDevices
  exact ⟨s, reached, (identified_iff reached).mpr (by decide)⟩

theorem serial_names_clash : ∃ s, [0x8d, 0x8d].foldlM deviceCreate initDevices = some s ∧
    (s.devices 0).valid ∧ (s.devices 1).valid ∧ (s.devices 0).name = (s.devices 1).name ∧
      ¬ Identified s := by
  obtain ⟨s, reached⟩ := calls_defined (by decide : ∀ m ∈ [0x8d, 0x8d], m ≤ 0x90) initDevices
  have h : Registered s [0x8d, 0x8d] := calls_registered reached
  have first := (h.valid_iff 0).mpr (by decide)
  have second := (h.valid_iff 1).mpr (by decide)
  have same := (h.name_eq_iff (i := 0) (j := 1) (by decide) (by decide)).mpr (by decide)
  refine ⟨s, reached, first, second, same, fun identified => ?_⟩
  refine (identified.1 0 1 first second (by decide) ?_ ?_).2 same
  · rw [h.entry_at (by decide), h.entry_at (by decide)]
    rfl
  · rw [h.entry_at (by decide), h.entry_at (by decide)]
    rfl

end Names
end OmenDevices
