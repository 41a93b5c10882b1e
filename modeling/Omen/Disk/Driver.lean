import Omen.Library.ByteMemory
import Mathlib.Logic.Function.Basic

/- The ATA path from `disk_interface.c` down to the AHCI port, one 512-byte sector a
   transfer. Device lookup by name is left out: the disk of a partition is taken to be
   registered. A port carries the outcomes of the transfers still to come, so that any
   pattern of failures inside one call is a list. -/
namespace OmenDisk
open ByteMemory

structure Port where
  sectors : Nat → Mem
  /-- `true` is a failed transfer; past the end of the list every transfer succeeds. -/
  faults : List Bool

def sizeToBlocks (size : Nat) : Nat := (size + 511) % 2 ^ 64 / 512

def blockToSize (blocks : Nat) : Nat := blocks * 512

def readPort (sector : Nat) (port : Port) : Option Mem × Port :=
  match port.faults with
  | [] => (some (port.sectors sector), port)
  | true :: rest => (none, { port with faults := rest })
  | false :: rest => (some (port.sectors sector), { port with faults := rest })

def storeSector (sectors : Nat → Mem) (sector : Nat) (bytes : Mem) : Nat → Mem :=
  Function.update sectors sector (memcpy (sectors sector) 0 bytes 512)

def writePort (sector : Nat) (bytes : Mem) (port : Port) : Bool × Port :=
  match port.faults with
  | [] => (true, { port with sectors := storeSector port.sectors sector bytes })
  | true :: rest => (false, { port with faults := rest })
  | false :: rest => (true, ⟨storeSector port.sectors sector bytes, rest⟩)

/-- Sector `i` of a transfer; `offset + i` is computed in 64 bits. -/
def sectorAt (offset i : Nat) : Nat := (offset + i) % 2 ^ 64

def ddDiskReadFrom (bytes offset : Nat) (buffer : Mem) (pos : Nat) (port : Port) :
    Nat → Nat → Nat × Mem × Port
  | _, 0 => (bytes, buffer, port)
  | i, n + 1 =>
    match readPort (sectorAt offset i) port with
    | (some hw, port') =>
        ddDiskReadFrom bytes offset (memcpy buffer (pos + 512 * i) hw 512) pos port' (i + 1) n
    | (none, port') => (blockToSize i, buffer, port')

def ddDiskRead (bytes offset : Nat) (buffer : Mem) (pos : Nat) (port : Port) :
    Nat × Mem × Port :=
  ddDiskReadFrom bytes offset buffer pos port 0 (sizeToBlocks bytes)

def ddDiskWriteFrom (bytes offset : Nat) (buffer : Mem) (port : Port) :
    Nat → Nat → Nat × Port
  | _, 0 => (bytes, port)
  | i, n + 1 =>
    match writePort (sectorAt offset i) (advance buffer (512 * i)) port with
    | (true, port') => ddDiskWriteFrom bytes offset buffer port' (i + 1) n
    | (false, port') => (blockToSize i, port')

def ddDiskWrite (bytes offset : Nat) (buffer : Mem) (port : Port) : Nat × Port :=
  ddDiskWriteFrom bytes offset buffer port 0 (sizeToBlocks bytes)

/-- A `uint32_t` handed over as `int` and widened to `uint64_t`. -/
def widen (x : Nat) : Nat := if x < 2 ^ 31 then x else x + (2 ^ 64 - 2 ^ 32)

/-- What the file system asks of a disk: `read_disk` and `write_disk`. The buffer of a
    read is given with the position of the first byte to fill. A result of 0 is the only
    one its callers take for a failure. -/
structure Dev (σ : Type) where
  readDisk : (sector count : Nat) → Mem → Nat → σ → Nat × Mem × σ
  writeDisk : (sector count : Nat) → Mem → σ → Nat × σ

/-- The driver of the repository. The transferred size comes back through an `int`. -/
def ata : Dev Port where
  readDisk sector count buffer pos port :=
    let (done, buffer', port') := ddDiskRead (widen count) (widen sector) buffer pos port
    (done % 2 ^ 32, buffer', port')
  writeDisk sector count buffer port :=
    let (done, port') := ddDiskWrite (widen count) (widen sector) buffer port
    (done % 2 ^ 32, port')

/-- The same driver over a port that has no failure ahead. -/
def reliable : Dev (Nat → Mem) where
  readDisk sector count buffer pos sectors :=
    let (done, buffer', port') := ata.readDisk sector count buffer pos ⟨sectors, []⟩
    (done, buffer', port'.sectors)
  writeDisk sector count buffer sectors :=
    let (done, port') := ata.writeDisk sector count buffer ⟨sectors, []⟩
    (done, port'.sectors)

def moved : List Bool → Nat → Nat
  | _, 0 => 0
  | [], n + 1 => n + 1
  | true :: _, _ + 1 => 0
  | false :: rest, n + 1 => moved rest n + 1

def left : List Bool → Nat → List Bool
  | faults, 0 => faults
  | [], _ + 1 => []
  | true :: rest, _ + 1 => rest
  | false :: rest, n + 1 => left rest n

theorem moved_le (faults : List Bool) (n : Nat) : moved faults n ≤ n := by
  induction n generalizing faults with
  | zero => cases faults <;> simp [moved]
  | succ n ih =>
    cases faults with
    | nil => simp [moved]
    | cons fault rest =>
      cases fault with
      | true => simp [moved]
      | false => have h := ih rest; simp only [moved]; omega

theorem moved_no_faults (n : Nat) : moved [] n = n := by
  cases n <;> simp [moved]

theorem moved_zero (faults : List Bool) : moved faults 0 = 0 := by
  cases faults <;> rfl

theorem left_zero (faults : List Bool) : left faults 0 = faults := by
  cases faults <;> rfl

theorem left_nil (n : Nat) : left [] n = [] := by
  cases n <;> rfl

section Outcomes
variable {faults : List Bool} {n m k w : Nat}

theorem left_count_le : (left faults n).count true ≤ faults.count true := by
  induction n generalizing faults with
  | zero => rw [left_zero]
  | succ n ih =>
    rcases faults with _ | ⟨_ | _, rest⟩
    · exact Nat.le_refl 0
    · rw [List.count_cons_of_ne (by decide)]
      exact ih
    · exact List.count_le_count_cons

theorem transfers_sound (sound : true ∉ faults.take n) :
    moved faults n = n ∧ left faults n = faults.drop n := by
  induction n generalizing faults with
  | zero => exact ⟨moved_zero faults, left_zero faults⟩
  | succ n ih =>
    rcases faults with _ | ⟨_ | _, rest⟩
    · exact ⟨rfl, rfl⟩
    · rw [List.take_succ_cons, List.mem_cons, not_or] at sound
      obtain ⟨all, behind⟩ := ih sound.2
      exact ⟨congrArg (· + 1) all, behind⟩
    · exact absurd List.mem_cons_self sound

theorem transfers_fail (failed : true ∈ faults.take n) :
    moved faults n < n ∧ (left faults n).count true < faults.count true ∧
      true ∈ faults.take (moved faults n + 1) := by
  induction n generalizing faults with
  | zero =>
    rw [List.take_zero] at failed
    cases failed
  | succ n ih =>
    rcases faults with _ | ⟨_ | _, rest⟩
    · cases failed
    · obtain ⟨less, fewer, first⟩ := ih (List.mem_of_ne_of_mem (by decide) failed)
      refine ⟨Nat.succ_lt_succ less, ?_, List.mem_cons_of_mem _ first⟩
      rw [List.count_cons_of_ne (by decide)]
      exact fewer
    · refine ⟨Nat.zero_lt_succ n, ?_, List.mem_cons_self⟩
      rw [List.count_cons_self]
      exact Nat.lt_succ_self _

theorem moved_sound (few : m ≤ moved faults n) : true ∉ faults.take m := by
  induction n generalizing faults m with
  | zero =>
    rw [moved_zero, Nat.le_zero] at few
    simp [few]
  | succ n ih =>
    rcases faults with _ | ⟨_ | _, rest⟩
    · simp
    · cases m with
      | zero => simp
      | succ m =>
        have later := ih (Nat.le_of_succ_le_succ few)
        simpa using later
    · rw [moved, Nat.le_zero] at few
      simp [few]

theorem left_left_count : (left (left faults k) w).count true < faults.count true ↔
    true ∈ faults.take (k + w) := by
  have more := @left_count_le (left faults k) w
  rw [List.take_add, List.mem_append]
  by_cases first : true ∈ faults.take k
  · have fewer := (transfers_fail first).2.1
    exact iff_of_true (by omega) (Or.inl first)
  · rw [(transfers_sound first).2]
    have same : (faults.drop k).count true = faults.count true := by
      have all := congrArg (List.count true) (List.take_append_drop k faults)
      rw [List.count_append, List.count_eq_zero_of_not_mem first, Nat.zero_add] at all
      exact all
    rw [← same]
    by_cases second : true ∈ (faults.drop k).take w
    · exact iff_of_true (transfers_fail second).2.1 (Or.inr second)
    · rw [(transfers_sound second).2]
      refine iff_of_false (fun fewer => ?_) (not_or.mpr ⟨first, second⟩)
      have all := congrArg (List.count true) (List.take_append_drop w (faults.drop k))
      rw [List.count_append, List.count_eq_zero_of_not_mem second] at all
      omega

end Outcomes

theorem sectorAt_injective {offset i j : Nat} (near : i < j + 2 ^ 64) (near' : j < i + 2 ^ 64)
    (same : sectorAt offset i = sectorAt offset j) : i = j := by
  unfold sectorAt at same
  omega

theorem storeSector_same (sectors : Nat → Mem) (sector : Nat) (bytes : Mem) {k : Nat}
    (inside : k < 512) : storeSector sectors sector bytes sector k = bytes k := by
  simp [storeSector, memcpy, inside]

theorem storeSector_other (sectors : Nat → Mem) {sector other : Nat} (bytes : Mem)
    (apart : other ≠ sector) : storeSector sectors sector bytes other = sectors other := by
  simp [storeSector, apart]

/-- Everything one write leaves behind: the sectors before the first failure hold the
    buffer, all others are as they were, and the size returned is that of the sectors
    moved unless all of them were. -/
structure Wrote (offset : Nat) (buffer : Mem) (before after : Nat → Mem) (first last : Nat) :
    Prop where
  stored : ∀ t, first ≤ t → t < last → ∀ k, k < 512 →
    after (sectorAt offset t) k = buffer (512 * t + k)
  kept : ∀ s, (∀ t, first ≤ t → t < last → s ≠ sectorAt offset t) → after s = before s

theorem wrote_nothing (offset : Nat) (buffer : Mem) (sectors : Nat → Mem) (first : Nat) :
    Wrote offset buffer sectors sectors first first :=
  ⟨fun t low high => by omega, fun _ _ => rfl⟩

theorem wrote_first {offset : Nat} {buffer : Mem} {before after : Nat → Mem} {i last : Nat}
    (short : last ≤ i + 2 ^ 64) (nonempty : i < last)
    (rest : Wrote offset buffer
      (storeSector before (sectorAt offset i) (advance buffer (512 * i))) after (i + 1) last) :
    Wrote offset buffer before after i last := by
  constructor
  · intro t low high k inside
    by_cases here : t = i
    · subst here
      rw [rest.kept (sectorAt offset t) ?_, storeSector_same _ _ _ inside]
      · rfl
      · intro u lowU highU same
        have eq := sectorAt_injective (by omega) (by omega) same
        omega
    · exact rest.stored t (by omega) high k inside
  · intro s clear
    rw [rest.kept s (fun t low high => clear t (by omega) high)]
    exact storeSector_other _ _ (clear i (by omega) (by omega))

theorem ddDiskWriteFrom_spec (bytes offset : Nat) (buffer : Mem) (port : Port) (i n : Nat)
    (short : n ≤ 2 ^ 64) :
    (ddDiskWriteFrom bytes offset buffer port i n).1 =
        (if moved port.faults n = n then bytes else blockToSize (i + moved port.faults n)) ∧
      Wrote offset buffer port.sectors (ddDiskWriteFrom bytes offset buffer port i n).2.sectors
        i (i + moved port.faults n) := by
  induction n generalizing i port with
  | zero =>
    simp only [ddDiskWriteFrom, moved_zero]
    exact ⟨rfl, wrote_nothing _ _ _ _⟩
  | succ n ih =>
    obtain ⟨sectors, faults⟩ := port
    cases faults with
    | nil =>
      have rest := ih ⟨storeSector sectors (sectorAt offset i) (advance buffer (512 * i)), []⟩
        (i + 1) (by omega)
      simp only [moved_no_faults] at rest ⊢
      have shift : i + 1 + n = i + (n + 1) := by omega
      simp only [ddDiskWriteFrom, writePort]
      rw [shift] at rest
      exact ⟨by simpa using rest.1, wrote_first (by omega) (by omega) rest.2⟩
    | cons fault faults =>
      cases fault with
      | true =>
        simp only [ddDiskWriteFrom, writePort, moved]
        exact ⟨by simp, wrote_nothing _ _ _ _⟩
      | false =>
        have rest := ih
          ⟨storeSector sectors (sectorAt offset i) (advance buffer (512 * i)), faults⟩
          (i + 1) (by omega)
        have shift : i + 1 + moved faults n = i + (moved faults n + 1) := by omega
        simp only [ddDiskWriteFrom, writePort, moved]
        rw [shift] at rest
        have bound := moved_le faults n
        refine ⟨?_, wrote_first (by omega) (by omega) rest.2⟩
        rw [rest.1]
        simp only [Nat.add_right_cancel_iff]

def fetched (sectors : Nat → Mem) (offset : Nat) (buffer : Mem) (pos first last : Nat) : Mem :=
  fun k => if pos + 512 * first ≤ k ∧ k < pos + 512 * last then
      sectors (sectorAt offset ((k - pos) / 512)) ((k - pos) % 512)
    else buffer k

theorem fetched_nothing (sectors : Nat → Mem) (offset : Nat) (buffer : Mem) (pos first : Nat) :
    fetched sectors offset buffer pos first first = buffer := by
  funext k
  have no : ¬ (pos + 512 * first ≤ k ∧ k < pos + 512 * first) := by omega
  rw [fetched, if_neg no]

theorem fetched_first {sectors : Nat → Mem} {offset : Nat} {buffer : Mem} {pos i last : Nat}
    (nonempty : i < last) :
    fetched sectors offset (memcpy buffer (pos + 512 * i) (sectors (sectorAt offset i)) 512) pos
      (i + 1) last = fetched sectors offset buffer pos i last := by
  funext k
  simp only [fetched]
  by_cases here : pos + 512 * i ≤ k ∧ k < pos + 512 * (i + 1)
  · have all : pos + 512 * i ≤ k ∧ k < pos + 512 * last := ⟨here.1, by omega⟩
    have later : ¬ (pos + 512 * (i + 1) ≤ k ∧ k < pos + 512 * last) := by omega
    have index : (k - pos) / 512 = i := by omega
    have place : (k - pos) % 512 = k - (pos + 512 * i) := by omega
    rw [if_neg later, if_pos all, memcpy_inside (by omega) (by omega), index, place]
  · have same : (pos + 512 * (i + 1) ≤ k ∧ k < pos + 512 * last) ↔
        (pos + 512 * i ≤ k ∧ k < pos + 512 * last) := by omega
    rw [memcpy_outside (by omega), if_congr same rfl rfl]

theorem ddDiskWriteFrom_left (bytes offset : Nat) (buffer : Mem) (port : Port) (i n : Nat) :
    (ddDiskWriteFrom bytes offset buffer port i n).2.faults = left port.faults n := by
  induction n generalizing i port with
  | zero =>
    rw [left_zero]
    rfl
  | succ n ih =>
    obtain ⟨sectors, _ | ⟨_ | _, faults⟩⟩ := port
    · exact (ih _ _).trans (left_nil n)
    · exact ih _ _
    · rfl

theorem ddDiskReadFrom_spec (bytes offset : Nat) (buffer : Mem) (pos : Nat) (port : Port)
    (i n : Nat) :
    ddDiskReadFrom bytes offset buffer pos port i n =
      (if moved port.faults n = n then bytes else blockToSize (i + moved port.faults n),
        fetched port.sectors offset buffer pos i (i + moved port.faults n),
        ⟨port.sectors, left port.faults n⟩) := by
  induction n generalizing buffer i port with
  | zero =>
    rw [moved_zero, left_zero, Nat.add_zero, fetched_nothing, if_pos rfl]
    rfl
  | succ n ih =>
    obtain ⟨sectors, faults⟩ := port
    have start : ∀ m, fetched sectors offset
        (memcpy buffer (pos + 512 * i) (sectors (sectorAt offset i)) 512) pos (i + 1)
          (i + (m + 1)) =
          fetched sectors offset buffer pos i (i + (m + 1)) := fun m => fetched_first (by omega)
    cases faults with
    | nil =>
      have shift : i + 1 + n = i + (n + 1) := by omega
      simp only [ddDiskReadFrom, readPort, ih, moved_no_faults, left_nil, shift, start, if_true]
    | cons fault faults =>
      cases fault with
      | true => simp [ddDiskReadFrom, readPort, moved, left, fetched_nothing]
      | false =>
        have shift : i + 1 + moved faults n = i + (moved faults n + 1) := by omega
        simp only [ddDiskReadFrom, readPort, ih, moved, left, shift, start,
          Nat.add_right_cancel_iff]

theorem ddDiskReadFrom_reliable (bytes offset : Nat) (buffer : Mem) (pos : Nat)
    (sectors : Nat → Mem) (i n : Nat) :
    ddDiskReadFrom bytes offset buffer pos ⟨sectors, []⟩ i n =
      (bytes, fun k => if pos + 512 * i ≤ k ∧ k < pos + 512 * (i + n) then
          sectors (sectorAt offset ((k - pos) / 512)) ((k - pos) % 512)
        else buffer k, ⟨sectors, []⟩) := by
  have run := ddDiskReadFrom_spec bytes offset buffer pos ⟨sectors, []⟩ i n
  rw [left_nil, moved_no_faults, if_pos rfl] at run
  exact run

end OmenDisk
