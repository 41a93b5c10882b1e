import Omen.Process.DescriptorCalls

/- The offset of a descriptor on an ext2 file over a sequence of reads, writes and seeks. Each
   call comes with what the file system answers to it, so that any pattern of failures is a
   run. A read moves the offset by its result, a write by the size it was asked for. -/
namespace OmenProcess
namespace Lookups

variable {w : FileAnswers} {m : Mount} {fd : Int} {t : Tables}

def fileTell (m : Mount) (fd : Int) : Kernel Int :=
  if !m.present then pure vfsError
  else withEntry fd failure fun e => pure ((e.offset : Int).bmod (2 ^ 64))

inductive FileCall where
  | read (size : UInt64)
  | write (size : UInt64)
  | seek (offset : UInt64) (whence : Int)

def FileCall.run (w : FileAnswers) (m : Mount) (fd : Int) : FileCall → Kernel Int
  | .read size => fileRead w m fd size.toNat
  | .write size => fileWrite w m fd size.toNat
  | .seek offset whence => fileSeek w m fd offset.toNat whence

structure OnExt2 (m : Mount) (fd : Int) (t : Tables) : Prop where
  fst : m.fst = .ext2
  present : m.present = true
  entry : fd < vfsCompatMaxOpenFiles
  loaded : (t.entries_table fd).loaded = true
  offset : (t.entries_table fd).offset < 2 ^ 64

def grown (offset : Nat) (result : Int) : Nat :=
  if 0 < result then (offset + result.toNat) % 2 ^ 64 else offset

/-- After a read or a write the stored offset has grown by what the call reports, and it is
    what `tell` returns. -/
def Moved (w : FileAnswers) (m : Mount) (fd : Int) (call : FileCall) (t : Tables) : Prop :=
  match call with
  | .seek _ _ => True
  | _ => ∀ result, (call.run w m fd t).1 = some result →
      ((call.run w m fd t).2.entries_table fd).offset =
          grown (t.entries_table fd).offset result ∧
        (fileTell m fd (call.run w m fd t).2).1 =
          some ((grown (t.entries_table fd).offset result : Int).bmod (2 ^ 64))

/-- A write reports the size it was asked for, and an error only if there was nothing to
    write. -/
def Reports (w : FileAnswers) (fd : Int) (call : FileCall) (t : Tables) : Prop :=
  match call with
  | .write size =>
    if 0 < w.writeFile (t.entries_table fd) size.toNat then
      (w.writeFile (t.entries_table fd) size.toNat).toNat % 2 ^ 64 = size.toNat
    else size = 0
  | _ => True

def EachCall (m : Mount) (fd : Int) (holds : FileAnswers → FileCall → Tables → Prop) :
    List (FileAnswers × FileCall) → Tables → Prop
  | [], _ => True
  | (w, call) :: rest, t =>
    holds w call t ∧ EachCall m fd holds rest (call.run w m fd t).2

theorem eachCall_iff {holds holds' : FileAnswers → FileCall → Tables → Prop}
    (keeps : ∀ w (call : FileCall) t, OnExt2 m fd t → OnExt2 m fd (call.run w m fd t).2)
    (same : ∀ w call t, OnExt2 m fd t → (holds w call t ↔ holds' w call t))
    (calls : List (FileAnswers × FileCall)) (on : OnExt2 m fd t) :
    EachCall m fd holds calls t ↔ EachCall m fd holds' calls t := by
  induction calls generalizing t with
  | nil => exact Iff.rfl
  | cons first rest ih =>
    obtain ⟨w, call⟩ := first
    exact and_congr (same w call t on) (ih (keeps w call t on))

def Tables.moveTo (fd : Int) (place : Nat) (t : Tables) : Tables :=
  t.changeEntry fd fun e => { e with offset := place }

theorem moveTo_entry (place : Nat) : (t.moveTo fd place).entries_table fd =
    { t.entries_table fd with offset := place } := by
  simp [Tables.moveTo, Tables.changeEntry]

theorem moveTo_same : t.moveTo fd (t.entries_table fd).offset = t := by
  simp [Tables.moveTo, Tables.changeEntry]

theorem moveTo_on (on : OnExt2 m fd t) {place : Nat} (small : place < 2 ^ 64) :
    OnExt2 m fd (t.moveTo fd place) where
  fst := on.fst
  present := on.present
  entry := on.entry
  loaded := by rw [moveTo_entry]; exact on.loaded
  offset := by rw [moveTo_entry]; exact small

theorem bind_run {α β : Type} {first : Kernel α} {next : α → Kernel β} {a : α}
    (done : (first t).1 = some a) : (first >>= next) t = next a (first t).2 := by
  change (first.bind next) t = _
  rcases run : first t with ⟨result, after⟩
  rw [run] at done
  cases done
  simp only [OptionT.bind, OptionT.mk, Bind.bind, StateT.bind, run]

theorem withEntry_run {α : Type} (on : OnExt2 m fd t) (missing : Kernel α)
    (use : FileEntry → Kernel α) : withEntry fd missing use t = use (t.entries_table fd) t := by
  rw [withEntry, if_neg (by have := on.entry; omega)]
  rfl

theorem fileTell_run (on : OnExt2 m fd t) :
    (fileTell m fd t).1 = some (((t.entries_table fd).offset : Int).bmod (2 ^ 64)) := by
  rw [fileTell, on.present, if_neg (by simp), withEntry_run on]
  rfl

theorem fileSeek_run (on : OnExt2 m fd t) (offset : Nat) (whence : Int) :
    (fileSeek w m fd offset whence t).2 = t.moveTo fd (
      if whence = seekSet then offset
      else if whence = seekCur then ((t.entries_table fd).offset + offset) % 2 ^ 64
      else if whence = seekEnd then (w.fileSize (t.entries_table fd) + offset) % 2 ^ 64
      else (t.entries_table fd).offset) ∧
    (fileSeek w m fd offset whence t).1.isSome = true := by
  rw [fileSeek, on.present, on.fst, if_neg (by simp)]
  simp only
  rw [withEntry_run on]
  unfold seekEntry
  split
  · exact ⟨rfl, rfl⟩
  split
  · exact ⟨rfl, rfl⟩
  split
  · exact ⟨rfl, rfl⟩
  · exact ⟨moveTo_same.symm, rfl⟩

theorem fileRead_run (on : OnExt2 m fd t) (size : Nat) :
    (fileRead w m fd size t).1 = some (w.readFile (t.entries_table fd) size) ∧
      (fileRead w m fd size t).2 = t.moveTo fd
        (grown (t.entries_table fd).offset (w.readFile (t.entries_table fd) size)) := by
  have seek := @fileSeek_run w m fd t on (w.readFile (t.entries_table fd) size).toNat seekCur
  obtain ⟨place, sought⟩ := Option.isSome_iff_exists.mp seek.2
  rw [fileRead, on.present, on.fst, if_neg (by simp)]
  simp only
  rw [withEntry_run on, if_pos on.loaded, grown]
  by_cases some_bytes : 0 < w.readFile (t.entries_table fd) size
  · rw [if_pos some_bytes, if_pos some_bytes]
    rw [bind_run sought]
    exact ⟨rfl, seek.1⟩
  · rw [if_neg some_bytes, if_neg some_bytes]
    exact ⟨rfl, moveTo_same.symm⟩

theorem fileWrite_run (on : OnExt2 m fd t) (size : Nat) :
    (fileWrite w m fd size t).1 = some (w.writeFile (t.entries_table fd) size) ∧
      (fileWrite w m fd size t).2 =
        t.moveTo fd (((t.entries_table fd).offset + size) % 2 ^ 64) := by
  have seek := @fileSeek_run w m fd t on size seekCur
  obtain ⟨place, sought⟩ := Option.isSome_iff_exists.mp seek.2
  rw [fileWrite, on.present, on.fst, if_neg (by simp)]
  simp only
  rw [withEntry_run on, bind_run sought]
  exact ⟨rfl, seek.1⟩

theorem grown_bound {offset : Nat} (small : offset < 2 ^ 64) (result : Int) :
    grown offset result < 2 ^ 64 := by
  rw [grown]
  split
  · exact Nat.mod_lt _ (by decide)
  · exact small

theorem run_on (w : FileAnswers) (call : FileCall) (t : Tables) (on : OnExt2 m fd t) :
    OnExt2 m fd (call.run w m fd t).2 := by
  have small := on.offset
  cases call with
  | read size =>
    rw [FileCall.run, (fileRead_run on _).2]
    exact moveTo_on on (grown_bound small _)
  | write size =>
    rw [FileCall.run, (fileWrite_run on _).2]
    exact moveTo_on on (Nat.mod_lt _ (by decide))
  | seek offset whence =>
    rw [FileCall.run, (fileSeek_run on _ _).1]
    apply moveTo_on on
    split
    · exact offset.toNat_lt
    split
    · exact Nat.mod_lt _ (by decide)
    split
    · exact Nat.mod_lt _ (by decide)
    · exact small

/-- A read always moves the offset by what it reports, a write only if that is its size. -/
theorem moved_iff (w : FileAnswers) (call : FileCall) (t : Tables) (on : OnExt2 m fd t) :
    Moved w m fd call t ↔ Reports w fd call t := by
  have small := on.offset
  have after := run_on w call t on
  cases call with
  | read size =>
    apply iff_of_true _ trivial
    intro result run
    have read := @fileRead_run w m fd t on size.toNat
    have same : result = w.readFile (t.entries_table fd) size.toNat :=
      Option.some.inj (run.symm.trans read.1)
    rw [fileTell_run after]
    simp only [FileCall.run, read.2, moveTo_entry, same, and_self]
  | write size =>
    have write := @fileWrite_run w m fd t on size.toNat
    have limit := size.toNat_lt
    have zero : size = 0 ↔ size.toNat = 0 := UInt64.toNat_inj.symm
    constructor
    · intro moved
      have place := (moved _ write.1).1
      simp only [FileCall.run, write.2, moveTo_entry, grown] at place
      simp only [Reports]
      split
      · rename_i positive
        rw [if_pos positive] at place
        omega
      · rename_i failed
        rw [if_neg failed] at place
        rw [zero]
        omega
    · intro reports result run
      have same : result = w.writeFile (t.entries_table fd) size.toNat :=
        Option.some.inj (run.symm.trans write.1)
      have place : ((t.entries_table fd).offset + size.toNat) % 2 ^ 64 =
          grown (t.entries_table fd).offset result := by
        simp only [Reports, ← same] at reports
        rw [grown]
        split at reports
        · rename_i positive
          rw [if_pos positive]
          omega
        · rename_i failed
          rw [if_neg failed, zero.mp reports]
          omega
      rw [fileTell_run after]
      simp only [FileCall.run, write.2, moveTo_entry, place, and_self]
  | seek offset whence => exact Iff.rfl

/-- Over any run, the offset follows the data exactly if every write reports the size it was
    asked for: the adapter moves the offset by that size, whatever became of the write. -/
theorem file_position_iff (on : OnExt2 m fd t) (calls : List (FileAnswers × FileCall)) :
    EachCall m fd (fun w call t => Moved w m fd call t) calls t ↔
      EachCall m fd (fun w call t => Reports w fd call t) calls t :=
  eachCall_iff run_on moved_iff calls on

def answering (result : Int) : FileAnswers where
  readFile := fun _ _ => result
  writeFile := fun _ _ => result
  fileSize := fun _ => 0

def ext2Mount : Mount := ⟨.ext2, true⟩

def freshFile : Tables where
  entries_table := fun _ => ⟨"a", "hdap1", 0, 0, 0, true⟩

theorem freshFile_on : OnExt2 ext2Mount 0 freshFile := ⟨rfl, rfl, by decide, rfl, by decide⟩

/-- A write of three bytes and a read that fails. -/
theorem file_position_write : EachCall ext2Mount 0 (fun w call t => Moved w ext2Mount 0 call t)
    [(answering 3, .write 3), (answering (-1), .read 8)] freshFile :=
  (file_position_iff freshFile_on _).mpr ⟨rfl, trivial, trivial⟩

/-- A write of one byte fails: the offset is 1 all the same. -/
theorem file_position_failed_write : ¬ ∀ (m : Mount) (fd : Int) (t : Tables)
    (calls : List (FileAnswers × FileCall)), OnExt2 m fd t →
      EachCall m fd (fun w call t => Moved w m fd call t) calls t := by
  intro all
  have moved := (all ext2Mount 0 freshFile [(answering (-1), .write 1)] freshFile_on).1
  have nothing : (1 : UInt64) = 0 :=
    (moved_iff (answering (-1)) (.write 1) freshFile freshFile_on).mp moved
  exact absurd nothing (by decide)

end Lookups
end OmenProcess
