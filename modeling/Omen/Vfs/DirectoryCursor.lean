import Omen.Library.Runs
import Omen.Vfs.DirectoryListing

/- The cursor of an open directory along a sequence of calls. Positions are integers: the calls
   looked at do not overflow an `int`, and an addition that would is left out. Another `whence`
   than the three is refused and changes nothing. -/
namespace OmenVfs

variable {dir : DirEntry} {dentries : List Dentry}

inductive DirCall where
  | add (name : CString) (inode type name_len : Nat)
  | seek (offset : Int) (whence : Whence)
  | read
  | tell

/-- A directory, the position that a seek just made has asked for, and whether a read has
    followed a missing entry. -/
structure DirWalk where
  dir : DirEntry
  asked : Option Int
  missing : Bool

/-- Where a seek wants to go; what SEEK_END counts from is left to it. -/
def Whence.target (whence : Whence) (dir : DirEntry) (offset : Int) : Option Int :=
  match whence with
  | .set => some offset
  | .cur => some (dir.index + offset)
  | .end_ => none

def DirWalk.step (w : DirWalk) : DirCall → DirWalk
  | .add name inode type name_len =>
    match w.dir.addFile name inode type name_len with
    | none => { w with asked := none }
    | some (_, dir) => { w with dir := dir, asked := none }
  | .seek offset whence =>
    { w with
      dir := (w.dir.seek offset whence).2
      asked := if (w.dir.seek offset whence).1 = 1 then whence.target w.dir offset else none }
  | .read =>
    match w.dir.read with
    | none => { w with asked := none, missing := true }
    | some (_, _, dir) => { w with dir := dir, asked := none }
  | .tell => w

structure DirWalk.Sound (w : DirWalk) : Prop where
  low : 0 ≤ w.dir.index
  high : w.dir.index ≤ w.dir.number
  reached : ∀ position, w.asked = some position → w.dir.tell = position
  present : w.missing = false

/-- The two seeks that the last clamp moves off their target: by nothing from behind the last
    entry, and to the end of an empty directory. -/
def DirWalk.Fits (w : DirWalk) : DirCall → Prop
  | .seek offset .cur => ¬ (offset = 0 ∧ w.dir.index = w.dir.number)
  | .seek offset .end_ => ¬ (offset = 0 ∧ w.dir.number = 0)
  | _ => True

structure Within (dir : DirEntry) (dentries : List Dentry) : Prop where
  loaded : dir.loaded ≠ 0
  list : dir.dentries = some dentries
  number : dir.number = dentries.length
  low : 0 ≤ dir.index
  high : dir.index ≤ dir.number

theorem within_emptied (loaded : dir.loaded ≠ 0) : Within dir.emptied [] :=
  ⟨loaded, rfl, rfl, le_rfl, le_rfl⟩

theorem addFile_within (within : Within dir dentries) {name : CString} {inode type name_len : Nat}
    {answer : Nat} {later : DirEntry}
    (added : dir.addFile name inode type name_len = some (answer, later)) :
    ∃ more, Within later more := by
  rw [DirEntry.addFile, if_neg within.loaded, within.list] at added
  dsimp only at added
  split at added
  · cases added
    exact ⟨dentries, within⟩
  · split at added
    · cases added
    · cases added
      have number := within.number
      have high := within.high
      refine ⟨_, within.loaded, rfl, ?_, within.low, ?_⟩
      · simp [number]
      · exact high.trans (Int.le_add_of_nonneg_right (by decide))

theorem read_within (within : Within dir dentries) :
    ∃ answer entry later, dir.read = some (answer, entry, later) ∧ Within later dentries := by
  have number := within.number
  have low := within.low
  rw [DirEntry.read, if_neg within.loaded, within.list]
  split
  · exact ⟨_, _, _, rfl, within⟩
  · next below =>
    have inside : dir.index.toNat < dentries.length := by omega
    cases dentries with
    | nil => exact absurd inside (Nat.not_lt_zero _)
    | cons first others =>
      dsimp only
      rw [asUint32, if_neg (by omega), List.getElem?_eq_getElem inside]
      refine ⟨_, _, _, rfl, within.loaded, rfl, within.number, ?_, ?_⟩
      · dsimp only
        omega
      · dsimp only
        omega

theorem clamp_inside {position : Int} (low : 0 ≤ position) (below : position < dir.number) :
    { dir with index := position }.clamp = { dir with index := position } := by
  dsimp only [DirEntry.clamp]
  rw [if_neg (by omega), if_neg (by omega)]

theorem clamp_beyond {position : Int} (low : 0 ≤ position) (beyond : dir.number ≤ position) :
    { dir with index := position }.clamp = { dir with index := dir.number - 1 } := by
  dsimp only [DirEntry.clamp]
  rw [if_neg (show ¬ position < 0 by omega), if_pos beyond]

theorem seek_cases (w : DirWalk) (within : Within w.dir dentries) (offset : Int) (whence : Whence)
    (fits : w.Fits (.seek offset whence)) :
    w.dir.seek offset whence = (-1, w.dir) ∨
      ∃ position, w.dir.seek offset whence = (1, { w.dir with index := position }) ∧
        0 ≤ position ∧ position < w.dir.number ∧
        ∀ target, whence.target w.dir offset = some target → position = target := by
  have low := within.low
  have high := within.high
  cases whence with
  | set =>
    rw [DirEntry.seek, if_neg within.loaded]
    dsimp only
    split
    · exact .inl rfl
    · refine .inr ⟨offset, ?_, by omega, by omega, fun _ => Option.some.inj⟩
      rw [clamp_inside (by omega) (by omega)]
  | cur =>
    have moved : ¬ (offset = 0 ∧ w.dir.index = w.dir.number) := fits
    rw [DirEntry.seek, if_neg within.loaded]
    dsimp only
    split
    · exact .inl rfl
    split
    · exact .inl rfl
    · refine .inr ⟨w.dir.index + offset, ?_, by omega, by omega, fun _ => Option.some.inj⟩
      rw [clamp_inside (by omega) (by omega)]
  | end_ =>
    have some_entry : ¬ (offset = 0 ∧ w.dir.number = 0) := fits
    rw [DirEntry.seek, if_neg within.loaded]
    dsimp only
    have nowhere (position : Int) : ∀ target, Whence.end_.target w.dir offset = some target →
        position = target := by
      intro target reached
      cases reached
    split
    · exact .inl rfl
    · rcases Int.lt_or_le offset 0 with before | whole
      · refine .inr ⟨w.dir.number + offset, ?_, by omega, by omega, nowhere _⟩
        rw [clamp_inside (by omega) (by omega)]
      · refine .inr ⟨w.dir.number - 1, ?_, by omega, by omega, nowhere _⟩
        rw [clamp_beyond (by omega) (by omega)]

structure DirWalk.Kept (w : DirWalk) : Prop where
  within : ∃ dentries, Within w.dir dentries
  reached : ∀ position, w.asked = some position → w.dir.index = position
  present : w.missing = false

theorem DirWalk.Kept.sound {w : DirWalk} (kept : w.Kept) : w.Sound := by
  obtain ⟨dentries, within⟩ := kept.within
  refine ⟨within.low, within.high, fun position asked => ?_, kept.present⟩
  rw [DirEntry.tell, if_neg within.loaded, kept.reached position asked]

theorem DirWalk.Kept.step {w : DirWalk} (kept : w.Kept) (call : DirCall) (fits : w.Fits call) :
    (w.step call).Kept := by
  obtain ⟨dentries, within⟩ := kept.within
  cases call with
  | add name inode type name_len =>
    rw [DirWalk.step]
    split
    · exact ⟨⟨dentries, within⟩, nofun, kept.present⟩
    · next added => exact ⟨addFile_within within added, nofun, kept.present⟩
  | seek offset whence =>
    rw [DirWalk.step]
    rcases seek_cases w within offset whence fits with refused | ⟨position, done, low, below, there⟩
    · rw [refused]
      exact ⟨⟨dentries, within⟩, nofun, kept.present⟩
    · rw [done]
      exact ⟨⟨dentries, within.loaded, within.list, within.number, low, below.le⟩, there,
        kept.present⟩
  | read =>
    obtain ⟨answer, entry, later, got, after⟩ := read_within within
    rw [DirWalk.step, got]
    exact ⟨⟨dentries, after⟩, nofun, kept.present⟩
  | tell => exact kept

theorem DirWalk.Kept.fits {w : DirWalk} (kept : w.Kept) (call : DirCall)
    (sound : (w.step call).Sound) : w.Fits call := by
  obtain ⟨dentries, within⟩ := kept.within
  have low := within.low
  cases call with
  | seek offset whence =>
    cases whence with
    | set => trivial
    | cur =>
      rintro ⟨rfl, last⟩
      have reached := sound.reached w.dir.index
      have back : w.dir.seek 0 .cur = (1, { w.dir with index := w.dir.number - 1 }) := by
        rw [DirEntry.seek, if_neg within.loaded]
        dsimp only
        rw [if_neg (by omega), if_neg (by omega), clamp_beyond (by omega) (by omega)]
      rw [DirWalk.step, back] at reached
      have told := reached (by simp [Whence.target])
      rw [DirEntry.tell, if_neg within.loaded] at told
      dsimp only at told
      omega
    | end_ =>
      rintro ⟨rfl, none_there⟩
      have first := sound.low
      have before : w.dir.seek 0 .end_ = (1, { w.dir with index := w.dir.number - 1 }) := by
        rw [DirEntry.seek, if_neg within.loaded]
        dsimp only
        rw [if_neg (by omega), clamp_beyond (by omega) (by omega)]
      rw [DirWalk.step, before] at first
      dsimp only at first
      omega
  | add | read | tell => trivial

/-- From any open directory on, a sequence of calls keeps the cursor valid just when it makes
    neither of the two seeks. -/
theorem directory_cursor_iff (dir : DirEntry) (dentries : List Dentry)
    (within : Within dir dentries) (calls : List DirCall) :
    Runs.Throughout DirWalk.step DirWalk.Sound ⟨dir, none, false⟩ calls ↔
      Runs.Each DirWalk.step DirWalk.Fits ⟨dir, none, false⟩ calls := by
  have sound : ∀ w : DirWalk, w.Kept → w.Sound := fun w kept => kept.sound
  apply Runs.throughout_iff_each sound
  · exact fun w call kept fits => kept.step call fits
  · exact fun w call kept after => kept.fits call after
  · exact ⟨⟨dentries, within⟩, nofun, rfl⟩

def openedDirectory : DirEntry := DirEntry.emptied ⟨1, none, 0, 0⟩

theorem opened_within : Within openedDirectory [] := within_emptied (by decide)

/-- A file is added, read, and read again after a seek to the start. -/
theorem directory_cursor_rewound :
    Runs.Throughout DirWalk.step DirWalk.Sound ⟨openedDirectory, none, false⟩
      [.add ⟨[97], by decide⟩ 1 1 1, .read, .seek 0 .set, .read] := by
  apply (directory_cursor_iff openedDirectory [] opened_within _).mpr
  exact ⟨trivial, trivial, trivial, trivial, trivial⟩

/-- A seek to the end of an empty directory puts the cursor before the first entry. When a file
    has been added, a read follows 2^32 - 1 links. -/
theorem directory_cursor_lost :
    (openedDirectory.seek 0 .end_).2.tell = -1 ∧
      (∃ dir, (openedDirectory.seek 0 .end_).2.addFile ⟨[97], by decide⟩ 1 1 1 = some (1, dir) ∧
        dir.read = none) ∧
      ¬ Runs.Throughout DirWalk.step DirWalk.Sound ⟨openedDirectory, none, false⟩
        [.seek 0 .end_] := by
  refine ⟨by decide, ⟨_, rfl, rfl⟩, fun sound => ?_⟩
  exact absurd sound.2.low (by decide)

end OmenVfs
