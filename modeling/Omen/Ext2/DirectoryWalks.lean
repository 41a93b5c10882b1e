import Omen.Ext2.Lookup
import Omen.Library.BoundedWalk

/- The loops over the records of a directory, on any bytes. Three of them stop at the size of
   the directory but trust the length of every record, the fourth stops at a record without
   length but does not look at the size. -/
namespace OmenExt2
open ByteMemory RecordChain OmenDisk BoundedWalk

/-- No inode, no name and no type; the length of the record is still there. -/
def clearEntry (buffer : Mem) (entry : Nat) : Mem :=
  putLE (putLE (putLE (putLE buffer entry 4 0) (entry + 6) 1 0) (entry + 7) 1 0) (entry + 8) 1 0

def removeEntry (buffer : Mem) (entry : Nat) (previous : Option Nat) : Mem :=
  let cleared := clearEntry buffer entry
  let merged := match previous with
    | none => cleared
    | some prev =>
      putLE cleared (prev + 4) 2 ((recLen cleared prev + recLen cleared entry) % 2 ^ 16)
  putLE merged (entry + 4) 2 0

def deleteFrom (buffer : Mem) (size target : Nat) : Nat → Nat → Option Nat → Option (Option Mem)
  | 0, _, _ => none
  | fuel + 1, parsed, previous =>
    if parsed < size then
      if entryInode buffer parsed = target then some (some (removeEntry buffer parsed previous))
      else deleteFrom buffer size target fuel ((parsed + recLen buffer parsed) % 2 ^ 32)
        (some parsed)
    else some none

def entriesFrom (buffer : Mem) (size : Nat) : Nat → Nat → Option (List Entry)
  | 0, _ => none
  | fuel + 1, parsed =>
    if parsed < size then
      (entriesFrom buffer size fuel ((parsed + recLen buffer parsed) % 2 ^ 32)).map fun rest =>
        if entryInode buffer parsed ≠ 0 then entryAt buffer parsed :: rest else rest
    else some []

/-- A loop over records: the offsets at which it interprets a header, and those of them where
    it ends. -/
structure RecordLoop where
  looks : Nat → Bool
  stops : Nat → Bool

def RecordLoop.next (loop : RecordLoop) (buffer : Mem) (parsed : Nat) : Option Nat :=
  if loop.looks parsed ∧ loop.stops parsed = false then
    some ((parsed + recLen buffer parsed) % 2 ^ 32)
  else none

namespace RecordLoop
variable {loop : RecordLoop} {buffer : Mem} {parsed : Nat}

theorem next_goes (looks : loop.looks parsed = true) (goes : loop.stops parsed = false) :
    loop.next buffer parsed = some ((parsed + recLen buffer parsed) % 2 ^ 32) := by
  simp [next, looks, goes]

theorem after_step (rounds : Nat) : after (loop.next buffer) (rounds + 1) parsed ≠ none ↔
    loop.looks parsed = true ∧ loop.stops parsed = false ∧
      after (loop.next buffer) rounds ((parsed + recLen buffer parsed) % 2 ^ 32) ≠ none := by
  rw [after, next]
  split
  · rename_i goes
    simp [goes.1, goes.2]
  · rename_i ends
    refine iff_of_false (by simp) ?_
    rintro ⟨looks, goes, -⟩
    exact ends ⟨looks, goes⟩

end RecordLoop

/-- In one of its first rounds the loop interprets the header at this offset. -/
def RecordLoop.Interprets (loop : RecordLoop) (buffer : Mem) (rounds parsed : Nat) : Prop :=
  ∃ k, k < rounds ∧ after (loop.next buffer) k 0 = some parsed ∧ loop.looks parsed = true

section Loops
variable (buffer : Mem) (size : Nat)

def lookupLoop (path : List UInt8) : RecordLoop where
  looks parsed := parsed < size
  stops parsed :=
    strncmp (advance buffer (parsed + 8)) (cString path) 0 (nameLen buffer parsed) = 0

def deleteLoop (target : Nat) : RecordLoop where
  looks parsed := parsed < size
  stops parsed := entryInode buffer parsed = target

def listLoop : RecordLoop where
  looks parsed := parsed < size
  stops _ := false

/-- The loop of `ext2_dentry_get_dentry`, which is left after `listMax` rounds as well. -/
def dentryLoop (name : List UInt8) : RecordLoop where
  looks _ := true
  stops parsed := (recLen buffer parsed = 0 ∨ entryInode buffer parsed = 0) ∨
    strncmp (cString ((entryName buffer parsed).takeWhile (· ≠ 0))) (cString name) 0
      (strlen name) = 0

variable {buffer size}

theorem lookupLoop_looks (path : List UInt8) (parsed : Nat) :
    (lookupLoop buffer size path).looks parsed = decide (parsed < size) := rfl

theorem deleteLoop_looks (target parsed : Nat) :
    (deleteLoop buffer size target).looks parsed = decide (parsed < size) := rfl

theorem listLoop_looks (parsed : Nat) : (listLoop size).looks parsed = decide (parsed < size) := rfl

theorem lookupFrom_none_iff (path : List UInt8) (fuel parsed : Nat) :
    lookupFrom buffer size path fuel parsed = none ↔
      after ((lookupLoop buffer size path).next buffer) fuel parsed ≠ none := by
  induction fuel generalizing parsed with
  | zero => simp [lookupFrom, after]
  | succ fuel ih =>
    rw [lookupFrom, RecordLoop.after_step, ← ih]
    by_cases inside : parsed < size
    · by_cases found : strncmp (advance buffer (parsed + 8)) (cString path) 0
          (nameLen buffer parsed) = 0
      · simp [lookupLoop, inside, found]
      · simp [lookupLoop, inside, found]
    · simp [lookupLoop, inside]

theorem deleteFrom_none_iff (target fuel parsed : Nat) (previous : Option Nat) :
    deleteFrom buffer size target fuel parsed previous = none ↔
      after ((deleteLoop buffer size target).next buffer) fuel parsed ≠ none := by
  induction fuel generalizing parsed previous with
  | zero => simp [deleteFrom, after]
  | succ fuel ih =>
    rw [deleteFrom, RecordLoop.after_step, ← ih _ (some parsed)]
    by_cases inside : parsed < size
    · by_cases found : entryInode buffer parsed = target
      · simp [deleteLoop, inside, found]
      · simp [deleteLoop, inside, found]
    · simp [deleteLoop, inside]

theorem entriesFrom_none_iff (fuel parsed : Nat) :
    entriesFrom buffer size fuel parsed = none ↔
      after ((listLoop size).next buffer) fuel parsed ≠ none := by
  induction fuel generalizing parsed with
  | zero => simp [entriesFrom, after]
  | succ fuel ih =>
    rw [entriesFrom, RecordLoop.after_step, ← ih]
    by_cases inside : parsed < size
    · simp [listLoop, inside]
    · simp [listLoop, inside]

/-- The entry that `ext2_dentry_get_dentry` finds is where its loop stands in one of its
    rounds. -/
theorem dentryFrom_after {name : List UInt8} {rounds parsed found : Nat}
    (run : dentryFrom buffer name rounds parsed = some found) :
    ∃ k < rounds, after ((dentryLoop buffer name).next buffer) k parsed = some found := by
  induction rounds generalizing parsed with
  | zero => cases run
  | succ rounds ih =>
    have stops : (dentryLoop buffer name).stops parsed =
      decide ((recLen buffer parsed = 0 ∨ entryInode buffer parsed = 0) ∨
        strncmp (cString ((entryName buffer parsed).takeWhile (· ≠ 0))) (cString name) 0
          (strlen name) = 0) := rfl
    rw [dentryFrom] at run
    split at run
    · cases run
    · rename_i live
      split at run
      · cases run
        exact ⟨0, Nat.succ_pos _, rfl⟩
      · rename_i other
        rw [decide_eq_false (not_or.mpr ⟨live, other⟩)] at stops
        obtain ⟨k, early, stands⟩ := ih run
        refine ⟨k + 1, Nat.succ_lt_succ early, ?_⟩
        rw [after, RecordLoop.next_goes rfl stops]
        exact stands

end Loops

variable {buffer : Mem} {inode : Mem} {path : List UInt8} {target : Nat} {name : List UInt8}

/-- The walks over the records of a directory come to an end and interpret only headers that
    start below its size. The loop of `ext2_dentry_get_dentry` ends by its count of rounds. -/
structure SafeWalks (inode buffer : Mem) (path : List UInt8) (target : Nat) (name : List UInt8) :
    Prop where
  lookup : ∃ fuel, lookupFrom buffer (i_size inode) path fuel 0 ≠ none
  listing : ∃ fuel, entriesFrom buffer (i_size inode) fuel 0 ≠ none
  deletion : ∃ fuel, deleteFrom buffer (i_size inode) target fuel 0 none ≠ none
  below : ∀ rounds parsed,
    (lookupLoop buffer (i_size inode) path).Interprets buffer rounds parsed ∨
      (listLoop (i_size inode)).Interprets buffer rounds parsed ∨
      (deleteLoop buffer (i_size inode) target).Interprets buffer rounds parsed →
        parsed < i_size inode
  dentry_below : ∀ parsed, (dentryLoop buffer name).Interprets buffer listMax parsed →
    parsed < i_size inode
  dentry_found : ∀ found, dentryFrom buffer name listMax 0 = some found → found < i_size inode

/-- No record of the first `listMax - 1` that `ext2_dentry_get_dentry` passes leads to the end
    of the directory or beyond. -/
def StaysBelow (inode buffer : Mem) (name : List UInt8) : Prop :=
  0 < i_size inode ∧ ∀ k parsed, k + 1 < listMax →
    after ((dentryLoop buffer name).next buffer) k 0 = some parsed →
      (dentryLoop buffer name).stops parsed = false →
        (parsed + recLen buffer parsed) % 2 ^ 32 < i_size inode

theorem after_listLoop {loop : RecordLoop} {size : Nat}
    (looks : ∀ parsed, loop.looks parsed = decide (parsed < size)) {k parsed parsed' : Nat}
    (stands : after (loop.next buffer) k parsed = some parsed') :
    after ((listLoop size).next buffer) k parsed = some parsed' := by
  induction k generalizing parsed with
  | zero => exact stands
  | succ k ih =>
    obtain ⟨middle, step, rest⟩ := Option.bind_eq_some_iff.mp stands
    rw [RecordLoop.next] at step
    split at step
    · rename_i goes
      cases step
      rw [after, RecordLoop.next_goes (by rw [← goes.1, looks]; rfl) rfl]
      exact ih rest
    · cases step

theorem returns_listLoop {loop : RecordLoop} {size : Nat}
    (looks : ∀ parsed, loop.looks parsed = decide (parsed < size))
    (returns : Returns (loop.next buffer) 0) : Returns ((listLoop size).next buffer) 0 := by
  obtain ⟨i, j, y, less, first, second⟩ := returns
  exact ⟨i, j, y, less, after_listLoop looks first, after_listLoop looks second⟩

theorem next_inside {loop : RecordLoop} {size : Nat}
    (looks : ∀ parsed, loop.looks parsed = decide (parsed < size)) (parsed parsed' : Nat)
    (step : loop.next buffer parsed = some parsed') : parsed < size := by
  rw [RecordLoop.next] at step
  split at step
  · rename_i goes
    exact of_decide_eq_true ((looks parsed).symm.trans goes.1)
  · cases step

theorem halts_of_listing {loop : RecordLoop} {size : Nat}
    (looks : ∀ parsed, loop.looks parsed = decide (parsed < size))
    (fresh : ¬ Returns ((listLoop size).next buffer) 0) : Halts (loop.next buffer) 0 :=
  (halts_iff (next_inside looks)).mpr fun returns => fresh (returns_listLoop looks returns)

theorem dentry_below_iff : (∀ parsed, (dentryLoop buffer name).Interprets buffer listMax parsed →
    parsed < i_size inode) ↔ StaysBelow inode buffer name := by
  constructor
  · intro below
    refine ⟨below 0 ⟨0, by decide, rfl, rfl⟩, ?_⟩
    intro k parsed early stands goes
    apply below _ ⟨k + 1, early, ?_, rfl⟩
    rw [after_succ, stands]
    exact RecordLoop.next_goes rfl goes
  · rintro ⟨some, stays⟩ parsed ⟨k, early, stands, -⟩
    cases k with
    | zero =>
      cases stands
      exact some
    | succ k =>
      obtain ⟨before, there, step⟩ :=
        Option.bind_eq_some_iff.mp ((after_succ k 0).symm.trans stands)
      rw [RecordLoop.next] at step
      split at step
      · rename_i goes
        cases step
        exact stays k before early there goes.2
      · cases step

/-- Below 4 GiB less one record, only a record without length brings the listing back. -/
theorem listing_returns_iff {size : Nat} (small : size + 65535 ≤ 2 ^ 32) :
    Returns ((listLoop size).next buffer) 0 ↔
      ∃ k parsed, after ((listLoop size).next buffer) k 0 = some parsed ∧
        parsed < size ∧ recLen buffer parsed = 0 := by
  have goes : ∀ parsed, parsed < size →
      (listLoop size).next buffer parsed = some (parsed + recLen buffer parsed) := by
    intro parsed inside
    have length := recLen_bound buffer parsed
    have looks : (listLoop size).looks parsed = true :=
      (listLoop_looks parsed).trans (decide_eq_true inside)
    rw [RecordLoop.next_goes looks rfl, Nat.mod_eq_of_lt (by omega)]
  constructor
  · intro returns
    by_contra none
    push Not at none
    apply not_returns_of_increasing _ returns
    intro i parsed parsed' stands step
    have inside := next_inside listLoop_looks parsed parsed' step
    rw [goes parsed inside] at step
    cases step
    have length := none i parsed stands inside
    omega
  · rintro ⟨k, parsed, stands, inside, zero⟩
    refine ⟨k, k + 1, parsed, by omega, stands, ?_⟩
    rw [after_succ, stands, Option.bind_some, goes parsed inside, zero, Nat.add_zero]

/-- The walks are safe exactly if no record sends the listing back to where it has been and
    no record that `ext2_dentry_get_dentry` passes leads beyond the directory. -/
theorem directory_walks_iff (inode buffer : Mem) (path : List UInt8) (target : Nat)
    (name : List UInt8) :
    (SafeWalks inode buffer path target name ↔
      ¬ Returns ((listLoop (i_size inode)).next buffer) 0 ∧ StaysBelow inode buffer name) ∧
    (i_size inode + 65535 ≤ 2 ^ 32 →
      (Returns ((listLoop (i_size inode)).next buffer) 0 ↔
        ∃ k parsed, after ((listLoop (i_size inode)).next buffer) k 0 = some parsed ∧
          parsed < i_size inode ∧ recLen buffer parsed = 0)) := by
  refine ⟨⟨?_, ?_⟩, listing_returns_iff⟩
  · intro safe
    refine ⟨?_, dentry_below_iff.mp safe.dentry_below⟩
    intro returns
    obtain ⟨fuel, ended⟩ := safe.listing
    apply not_halts_of_returns returns
    exact ⟨fuel, not_not.mp (mt (entriesFrom_none_iff fuel 0).mpr ended)⟩
  · rintro ⟨fresh, stays⟩
    constructor
    · obtain ⟨n, ended⟩ := @halts_of_listing buffer (lookupLoop buffer (i_size inode) path)
        (i_size inode) (lookupLoop_looks path) fresh
      exact ⟨n, fun none => (lookupFrom_none_iff path n 0).mp none ended⟩
    · obtain ⟨n, ended⟩ := @halts_of_listing buffer (listLoop (i_size inode)) (i_size inode)
        listLoop_looks fresh
      exact ⟨n, fun none => (entriesFrom_none_iff n 0).mp none ended⟩
    · obtain ⟨n, ended⟩ := @halts_of_listing buffer (deleteLoop buffer (i_size inode) target)
        (i_size inode) (deleteLoop_looks target) fresh
      exact ⟨n, fun none => (deleteFrom_none_iff target n 0 _).mp none ended⟩
    · rintro rounds parsed (⟨_, _, _, looks⟩ | ⟨_, _, _, looks⟩ | ⟨_, _, _, looks⟩)
      · exact of_decide_eq_true ((lookupLoop_looks path parsed).symm.trans looks)
      · exact of_decide_eq_true ((listLoop_looks parsed).symm.trans looks)
      · exact of_decide_eq_true ((deleteLoop_looks target parsed).symm.trans looks)
    · exact dentry_below_iff.mpr stays
    · intro found run
      obtain ⟨k, early, stands⟩ := dentryFrom_after run
      exact dentry_below_iff.mpr stays found ⟨k, early, stands, rfl⟩

/-- A directory of zeros: its first record has no length. -/
theorem directory_of_zeros : ¬ ∀ (inode buffer : Mem) (path : List UInt8) (target : Nat)
    (name : List UInt8), SafeWalks inode buffer path target name := by
  intro all
  obtain ⟨fuel, ended⟩ := (all (putLE blank 4 4 1024) blank [] 1 []).listing
  have size : i_size (putLE blank 4 4 1024) = 1024 := by decide +kernel
  rw [size] at ended
  have here : (listLoop 1024).next blank 0 = some 0 := by decide
  have returns : Returns ((listLoop 1024).next blank) 0 :=
    ⟨0, 1, 0, by decide, rfl, by rw [after, here]; rfl⟩
  apply not_halts_of_returns returns
  exact ⟨fuel, not_not.mp (mt (entriesFrom_none_iff fuel 0).mpr ended)⟩

end OmenExt2
