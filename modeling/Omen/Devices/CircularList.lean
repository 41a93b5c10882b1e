import Omen.Library.Ring
import Omen.Library.Runs

/- The byte ring of `circular_list.c`. The list and the buffers of its callers are not NULL. No
   index sum leaves a 64-bit word, as the indices stay below the size. -/
namespace OmenDevices

inductive CirclistStatus where
  | success
  | invalidArgument
  | failure
  deriving DecidableEq

structure Circlist where
  addr : Nat → UInt8
  size : Nat
  head : Nat
  tail : Nat

def circlistInit (addr : Nat → UInt8) (size : Nat) : Option Circlist :=
  if size = 0 then none else some ⟨addr, size, 0, 0⟩

def circlistFreeSpace (circ : Circlist) : Nat :=
  if circ.tail ≤ circ.head then circ.size - (circ.head - circ.tail) else circ.tail - circ.head

def circlistUsedSpace (circ : Circlist) : Nat := circ.size - circlistFreeSpace circ

def passByte (circ : Circlist) : Circlist := { circ with tail := (circ.tail + 1) % circ.size }

def makeSpace (size : Nat) : Nat → Circlist → Circlist
  | 0, circ => circ
  | turns + 1, circ =>
    if circlistFreeSpace circ < size then makeSpace size turns (passByte circ) else circ

def putByte (circ : Circlist) (byte : UInt8) : Circlist :=
  { circ with
    addr := Function.update circ.addr circ.head byte
    head := (circ.head + 1) % circ.size }

def circlistWrite (circ : Circlist) (data : List UInt8) : CirclistStatus × Circlist :=
  if data.length = 0 ∨ circ.size < data.length then (.invalidArgument, circ)
  else (.success, data.foldl putByte (makeSpace data.length circ.size circ))

def takeBytes : Nat → Circlist → List UInt8 × Circlist
  | 0, circ => ([], circ)
  | size + 1, circ =>
    let rest := takeBytes size (passByte circ)
    (circ.addr circ.tail :: rest.1, rest.2)

def circlistRead (circ : Circlist) (size : Nat) : CirclistStatus × List UInt8 × Circlist :=
  if size = 0 ∨ circ.size < size then (.invalidArgument, [], circ)
  else if circlistUsedSpace circ < size then (.failure, [], circ)
  else (.success, takeBytes size circ)

def stored (circ : Circlist) : List UInt8 :=
  (List.range (circlistUsedSpace circ)).map fun i => circ.addr ((circ.tail + i) % circ.size)

inductive CirclistCall where
  | write (data : List UInt8)
  | read (size : Nat)

/-- A list and the bytes that it should hold: the most recent ones that have been written and not
    been read, up to the size. -/
structure Followed where
  circ : Circlist
  bytes : List UInt8

def Followed.step (f : Followed) : CirclistCall → Followed
  | .write data =>
    ⟨(circlistWrite f.circ data).2,
      if f.circ.size < data.length then f.bytes else (f.bytes ++ data).rtake f.circ.size⟩
  | .read size =>
    ⟨(circlistRead f.circ size).2.2, if size ≤ f.bytes.length then f.bytes.drop size else f.bytes⟩

structure Followed.Exact (f : Followed) : Prop where
  contents : stored f.circ = f.bytes
  spaces : circlistUsedSpace f.circ + circlistFreeSpace f.circ = f.circ.size
  used : circlistUsedSpace f.circ = f.bytes.length
  reads : ∀ size, 0 < size → size ≤ f.circ.size →
    ((circlistRead f.circ size).1 = .success ↔ size ≤ f.bytes.length)
  gives : ∀ size, 0 < size → size ≤ f.bytes.length →
    (circlistRead f.circ size).2.1 = f.bytes.take size
  -- the loop that makes space for a write ends
  ends : ∀ size ≤ f.circ.size, size ≤ circlistFreeSpace (makeSpace size f.circ.size f.circ)

def Followed.Fits (f : Followed) : CirclistCall → Prop
  | .write data => data.length ≤ f.circ.size → f.bytes.length + data.length < f.circ.size
  | .read _ => True

structure Inside (circ : Circlist) : Prop where
  head : circ.head < circ.size
  tail : circ.tail < circ.size

section Calls
variable {circ : Circlist} {l : List UInt8} {f : Followed}

section Inside
variable (inside : Inside circ)
include inside

theorem Inside.used_eq : circlistUsedSpace circ =
    if circ.tail ≤ circ.head then circ.head - circ.tail
    else circ.size - (circ.tail - circ.head) := by
  have := inside.head
  have := inside.tail
  unfold circlistUsedSpace circlistFreeSpace
  split <;> omega

/-- Equal indices count as an empty list, so the list never counts as full. -/
theorem Inside.used_lt : circlistUsedSpace circ < circ.size := by
  have := inside.head
  have := inside.tail
  rw [inside.used_eq]
  split <;> omega

theorem Inside.spaces : circlistUsedSpace circ + circlistFreeSpace circ = circ.size := by
  have := inside.head
  have := inside.tail
  unfold circlistUsedSpace circlistFreeSpace
  split <;> omega

theorem Inside.passByte : Inside (passByte circ) where
  head := inside.head
  tail := Nat.mod_lt _ (Nat.zero_lt_of_lt inside.tail)

theorem Inside.putByte (byte : UInt8) : Inside (putByte circ byte) where
  head := Nat.mod_lt _ (Nat.zero_lt_of_lt inside.head)
  tail := inside.tail

theorem Inside.used_passByte (some_byte : 0 < circlistUsedSpace circ) :
    circlistUsedSpace (OmenDevices.passByte circ) + 1 = circlistUsedSpace circ := by
  have head := inside.head
  have tail := inside.tail
  have next : (OmenDevices.passByte circ).tail = 0 ∧ circ.tail + 1 = circ.size ∨
      (OmenDevices.passByte circ).tail = circ.tail + 1 ∧ circ.tail + 1 < circ.size := by
    dsimp only [OmenDevices.passByte]
    by_cases last : circ.tail + 1 = circ.size
    · exact .inl ⟨by rw [last, Nat.mod_self], last⟩
    · exact .inr ⟨Nat.mod_eq_of_lt (by omega), by omega⟩
  have same_head : (OmenDevices.passByte circ).head = circ.head := rfl
  have same_size : (OmenDevices.passByte circ).size = circ.size := rfl
  rw [inside.used_eq] at some_byte
  rw [inside.used_eq, inside.passByte.used_eq]
  split at some_byte <;> split <;> omega

theorem makeSpace_inside (size turns : Nat) :
    Inside (makeSpace size turns circ) ∧ (makeSpace size turns circ).size = circ.size := by
  induction turns generalizing circ with
  | zero => exact ⟨inside, rfl⟩
  | succ turns ih =>
    rw [makeSpace]
    split
    · exact ih inside.passByte
    · exact ⟨inside, rfl⟩

theorem makeSpace_ends {size turns : Nat} (fits : size ≤ circ.size)
    (enough : circlistUsedSpace circ ≤ turns) :
    size ≤ circlistFreeSpace (makeSpace size turns circ) := by
  induction turns generalizing circ with
  | zero =>
    have := inside.spaces
    rw [makeSpace]
    omega
  | succ turns ih =>
    rw [makeSpace]
    split
    · next short =>
      have spaces := inside.spaces
      have fewer := inside.used_passByte (by omega)
      exact ih inside.passByte fits (by omega)
    · omega

theorem foldl_putByte_inside (data : List UInt8) :
    Inside (data.foldl putByte circ) ∧ (data.foldl putByte circ).size = circ.size := by
  induction data generalizing circ with
  | nil => exact ⟨inside, rfl⟩
  | cons byte data ih => exact ih (inside.putByte byte)

theorem circlistWrite_inside (data : List UInt8) :
    Inside (circlistWrite circ data).2 ∧ (circlistWrite circ data).2.size = circ.size := by
  rw [circlistWrite]
  split
  · exact ⟨inside, rfl⟩
  · obtain ⟨spaced, same⟩ := makeSpace_inside inside data.length circ.size
    obtain ⟨written, kept⟩ := foldl_putByte_inside spaced data
    exact ⟨written, kept.trans same⟩

end Inside

def Keeps (circ : Circlist) (l : List UInt8) : Prop :=
  Ring.Shows circ.addr circ.size circ.tail circ.head l

namespace Keeps

section Keeping
variable (k : Keeps circ l)
include k

theorem inside : Inside circ := ⟨k.tail_lt, Ring.Shows.inside k⟩

theorem used : circlistUsedSpace circ = l.length := by
  rw [k.inside.used_eq, k.length_eq]

theorem stored_eq : stored circ = l := by
  rw [stored, k.used]
  exact k.listed

theorem putBytes {data : List UInt8} (fits : l.length + data.length < circ.size) :
    Keeps (data.foldl putByte circ) (l ++ data) := by
  induction data generalizing circ l with
  | nil => simpa using k
  | cons byte data ih =>
    rw [List.length_cons] at fits
    have stored : Keeps (putByte circ byte) (l ++ [byte]) := k.append (by omega) byte
    have room : (l ++ [byte]).length + data.length < (putByte circ byte).size := by
      rw [List.length_append, List.length_singleton]
      dsimp only [putByte]
      omega
    have rest := ih stored room
    rwa [List.append_assoc] at rest

theorem write {data : List UInt8} (fits : l.length + data.length < circ.size) :
    Keeps (circlistWrite circ data).2 (l ++ data) := by
  rw [circlistWrite]
  split
  · next refused =>
    have nothing : data = [] := by
      apply List.length_eq_zero_iff.mp
      omega
    simpa [nothing] using k
  · have spaces := k.inside.spaces
    have used := k.used
    have idle : makeSpace data.length circ.size circ = circ := by
      cases turns : circ.size with
      | zero => rfl
      | succ turns => exact if_neg (by omega)
    rw [idle]
    exact k.putBytes fits

theorem takeBytes {size : Nat} (some_of : size ≤ l.length) :
    (takeBytes size circ).1 = l.take size ∧ Keeps (takeBytes size circ).2 (l.drop size) := by
  induction size generalizing circ l with
  | zero => exact ⟨rfl, k⟩
  | succ size ih =>
    cases l with
    | nil => cases some_of
    | cons byte l =>
      have first := k.cell 0 byte rfl
      rw [Nat.add_zero, Nat.mod_eq_of_lt (Ring.Shows.inside k)] at first
      have passed : Keeps (passByte circ) l := Ring.Shows.drop k (k := 1) (by simp)
      obtain ⟨bytes, left⟩ := ih passed (Nat.le_of_succ_le_succ some_of)
      refine ⟨?_, left⟩
      rw [OmenDevices.takeBytes, bytes, first, List.take_succ_cons]

theorem read_success {size : Nat} (some_byte : 0 < size) (some_of : size ≤ l.length) :
    circlistRead circ size = (.success, OmenDevices.takeBytes size circ) := by
  have room := k.room
  have used := k.used
  rw [circlistRead, if_neg (by omega), if_neg (by omega)]

theorem read_failure {size : Nat} (more : l.length < size) :
    (circlistRead circ size).1 ≠ .success ∧ (circlistRead circ size).2.2 = circ := by
  have used := k.used
  rw [circlistRead]
  split
  · exact ⟨nofun, rfl⟩
  · rw [if_pos (by omega)]
    exact ⟨nofun, rfl⟩

theorem read (size : Nat) : Keeps (circlistRead circ size).2.2
    (if size ≤ l.length then l.drop size else l) := by
  split
  · next some_of =>
    rcases Nat.eq_zero_or_pos size with rfl | some_byte
    · exact k
    · rw [k.read_success some_byte some_of]
      exact (k.takeBytes some_of).2
  · next more =>
    rw [(k.read_failure (by omega)).2]
    exact k

end Keeping

theorem exact_followed (k : Keeps f.circ f.bytes) : f.Exact where
  contents := k.stored_eq
  spaces := k.inside.spaces
  used := k.used
  reads size some_byte _ := by
    constructor
    · intro done
      by_contra more
      exact (k.read_failure (by omega)).1 done
    · intro some_of
      rw [k.read_success some_byte some_of]
  gives size some_byte some_of := by
    rw [k.read_success some_byte some_of]
    exact (k.takeBytes some_of).1
  ends size fits := makeSpace_ends k.inside fits (Nat.le_of_lt k.inside.used_lt)

theorem step (k : Keeps f.circ f.bytes) (call : CirclistCall) (fits : f.Fits call) :
    Keeps (f.step call).circ (f.step call).bytes := by
  cases call with
  | write data =>
    dsimp only [Followed.step]
    split
    · next long =>
      rw [circlistWrite, if_pos (.inr long)]
      exact k
    · next short =>
      have room := fits (by omega)
      rw [List.rtake, Nat.sub_eq_zero_of_le (by rw [List.length_append]; omega), List.drop_zero]
      exact k.write room
  | read size => exact k.read size

/-- A write that reaches the size should leave a full list, and a full list does not exist. -/
theorem fits_of_exact (k : Keeps f.circ f.bytes) (call : CirclistCall)
    (exact_after : (f.step call).Exact) : f.Fits call := by
  cases call with
  | write data =>
    intro short
    by_contra full
    obtain ⟨inside, same⟩ := circlistWrite_inside k.inside data
    have used := exact_after.used
    have below := inside.used_lt
    dsimp only [Followed.step] at used
    rw [if_neg (by omega), List.rtake, List.length_drop, List.length_append] at used
    omega
  | read size => trivial

end Keeps

theorem circlistInit_keeps {addr : Nat → UInt8} {size : Nat}
    (made : circlistInit addr size = some circ) : Keeps circ [] := by
  rw [circlistInit] at made
  split at made
  · cases made
  · next some_byte =>
    cases made
    exact Ring.shows_nil (Nat.pos_of_ne_zero some_byte)

/-- From the initialised list on, through every sequence of calls, the list keeps track of its
    bytes just when no write fills the buffer. -/
theorem circlist_exact_iff (addr : Nat → UInt8) (size : Nat) (circ : Circlist)
    (made : circlistInit addr size = some circ) (calls : List CirclistCall) :
    Runs.Throughout Followed.step Followed.Exact ⟨circ, []⟩ calls ↔
      Runs.Each Followed.step Followed.Fits ⟨circ, []⟩ calls := by
  have follows : ∀ f : Followed, Keeps f.circ f.bytes → f.Exact := fun f k => k.exact_followed
  apply Runs.throughout_iff_each follows
  · exact fun f call k fits => k.step call fits
  · exact fun f call k exact_after => k.fits_of_exact call exact_after
  · exact circlistInit_keeps made

/-- One byte through a buffer of two. -/
theorem circlist_exact_byte :
    Runs.Throughout Followed.step Followed.Exact ⟨⟨fun _ => 0, 2, 0, 0⟩, []⟩
      [.write [7], .read 1] := by
  apply (circlist_exact_iff (fun _ => 0) 2 ⟨fun _ => 0, 2, 0, 0⟩ rfl _).mpr
  refine ⟨fun _ => ?_, trivial, trivial⟩
  decide

/-- Four bytes written to a buffer of four: the list counts them as none and reads none back. -/
theorem circlist_full_is_empty :
    circlistUsedSpace (circlistWrite ⟨fun _ => 0, 4, 0, 0⟩ [1, 2, 3, 4]).2 = 0 ∧
      ¬ Runs.Throughout Followed.step Followed.Exact ⟨⟨fun _ => 0, 4, 0, 0⟩, []⟩
        [.write [1, 2, 3, 4]] := by
  constructor
  · decide
  · intro tracked
    exact absurd tracked.2.used (by decide)

end Calls
end OmenDevices
