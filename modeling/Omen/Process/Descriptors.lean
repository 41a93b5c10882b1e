import Mathlib.Logic.Function.Basic
import Mathlib.Tactic.Common

/- Descriptors: the table of each process, the table of all open files in `vfs_compat.c`, and
   `dup2`. The strings of an entry are taken to fit their arrays. -/
namespace OmenProcess

def maxOpenFiles : Nat := 32

def vfsCompatMaxOpenFiles : Nat := 65536

structure FileEntry where
  name : String
  mount : String
  flags : Nat
  mode : Nat
  offset : Nat
  loaded : Bool
  deriving DecidableEq, Repr

abbrev FileTable := Nat → FileEntry

/-- A slot with -1 is free. -/
structure OpenFiles where
  open_files : Nat → Option Nat
  open_files_count : Nat

structure Descriptors where
  files : FileTable
  processes : Nat → OpenFiles

def FileEntry.copy (e : FileEntry) : FileEntry := { e with loaded := true }

def dup2Fd (files : FileTable) (oldfd newfd : Nat) : Option (Nat × FileTable) :=
  if oldfd ≥ vfsCompatMaxOpenFiles then none
  else if newfd ≥ vfsCompatMaxOpenFiles then none
  else if (files oldfd).loaded = false then none
  else some (newfd, Function.update files newfd (files oldfd).copy)

/-- `dup_fd`; without a new descriptor it takes the first free one. -/
def dupFd (files : FileTable) (oldfd : Nat) (newfd : Option Nat) : Option (Nat × FileTable) :=
  match newfd with
  | some newfd => dup2Fd files oldfd newfd
  | none =>
    if oldfd ≥ vfsCompatMaxOpenFiles then none
    else if (files oldfd).loaded = false then none
    else do
      let i ← (List.range vfsCompatMaxOpenFiles).find? fun i => !(files i).loaded
      some (i, Function.update files i (files oldfd).copy)

/-- The first free descriptor gets a file; no result where `add_open_file` panics. -/
def OpenFiles.addOpenFile (p : OpenFiles) (fd : Nat) : Option (Nat × OpenFiles) :=
  if p.open_files_count ≥ maxOpenFiles then none
  else do
    let i ← (List.range maxOpenFiles).find? fun i => (p.open_files i).isNone
    some (i, ⟨Function.update p.open_files i (some fd), p.open_files_count + 1⟩)

def OpenFiles.getOpenFile (p : OpenFiles) (fd : Nat) : Option Nat := p.open_files fd

section Mounts
-- whether the mount of a file is there and its file system duplicates descriptors
variable (mounted : String → String → Bool)

def vfsFileDup (files : FileTable) (old : Nat) (new : Option Nat) : Option (Nat × FileTable) :=
  if old ≥ vfsCompatMaxOpenFiles then none
  else if !mounted (files old).mount (files old).name then none
  else if (files old).loaded = false then none
  else dupFd files old new

namespace Descriptors

/-- `dup2_syscall_handler` of descriptors from 0 on: its value, none for `SYSCALL_ERROR`, and
    the state. A descriptor
    that is not open leads outside the table of files. -/
def dup2 (d : Descriptors) (slot oldfd newfd : Nat) : Option (Option Nat × Descriptors) :=
  let p := d.processes slot
  if p.open_files_count ≥ maxOpenFiles then some (none, d)
  else do
    let pfd ← p.getOpenFile oldfd
    match vfsFileDup mounted d.files pfd (some newfd) with
    | none => some (none, d)
    | some (ret, files) => do
      let (fd, p) ← p.addOpenFile ret
      some (some fd, ⟨files, Function.update d.processes slot p⟩)

end Descriptors

end Mounts

namespace Descriptors

def sees (d : Descriptors) (slot i : Nat) : Option FileEntry :=
  ((d.processes slot).open_files i).map d.files

structure Redirects (d d' : Descriptors) (slot oldfd newfd fd : Nat) : Prop where
  value : fd = newfd
  target : ∃ old new, d'.sees slot oldfd = some old ∧ d'.sees slot newfd = some new ∧
    new.name = old.name ∧ new.mount = old.mount
  own : ∀ i < maxOpenFiles, i ≠ newfd → d'.sees slot i = d.sees slot i
  others : ∀ p, p ≠ slot → ∀ i < maxOpenFiles, d'.sees p i = d.sees p i

/-- The descriptor is the first free one of the process, and as a place in the table of all
    files it is one that nobody refers to, or it holds the same file already. -/
def Lucky (d : Descriptors) (slot pfd newfd : Nat) : Prop :=
  (∀ i < newfd, (d.processes slot).open_files i ≠ none) ∧
  (d.processes slot).open_files newfd = none ∧
  ((∀ p, ∀ i < maxOpenFiles, (d.processes p).open_files i ≠ some newfd) ∨
    d.files newfd = (d.files pfd).copy)

section Redirection
variable {mounted : String → String → Bool} {d d' : Descriptors} {slot pfd oldfd newfd fd : Nat}

structure Accepts (mounted : String → String → Bool) (d : Descriptors) (slot pfd : Nat) : Prop where
  room : (d.processes slot).open_files_count < maxOpenFiles
  small : pfd < vfsCompatMaxOpenFiles
  mount : mounted (d.files pfd).mount (d.files pfd).name = true
  loaded : (d.files pfd).loaded = true

def redirected (d : Descriptors) (slot pfd newfd fd : Nat) : Descriptors where
  files := Function.update d.files newfd (d.files pfd).copy
  processes := Function.update d.processes slot
    ⟨Function.update (d.processes slot).open_files fd (some newfd),
      (d.processes slot).open_files_count + 1⟩

def FirstFree (p : OpenFiles) (fd : Nat) : Prop :=
  fd < maxOpenFiles ∧ p.open_files fd = none ∧ ∀ i < fd, p.open_files i ≠ none

theorem firstFree_iff {p : OpenFiles} :
    (List.range maxOpenFiles).find? (fun i => (p.open_files i).isNone) = some fd ↔
      FirstFree p fd := by
  rw [List.find?_range_eq_some, List.mem_range, Option.isNone_iff_eq_none]
  unfold FirstFree
  simp only [Bool.not_eq_true', Option.isNone_eq_false_iff, Option.isSome_iff_ne_none]
  exact ⟨fun ⟨free, small, used⟩ => ⟨small, free, used⟩,
    fun ⟨small, free, used⟩ => ⟨free, small, used⟩⟩

theorem addOpenFile_some {p p' : OpenFiles} {file : Nat} :
    p.addOpenFile file = some (fd, p') ↔ p.open_files_count < maxOpenFiles ∧ FirstFree p fd ∧
      p' = ⟨Function.update p.open_files fd (some file), p.open_files_count + 1⟩ := by
  unfold OpenFiles.addOpenFile
  split
  · rename_i full
    exact iff_of_false (by simp) fun holds => absurd holds.1 (Nat.not_lt.mpr full)
  · rename_i room
    rw [Option.bind_eq_bind, Option.bind_eq_some_iff]
    simp only [firstFree_iff]
    constructor
    · rintro ⟨i, free, same⟩
      cases same
      exact ⟨Nat.not_le.mp room, free, rfl⟩
    · rintro ⟨-, free, rfl⟩
      exact ⟨fd, free, rfl⟩

theorem vfsFileDup_newfd (small : newfd < vfsCompatMaxOpenFiles) {files files' : FileTable}
    {ret : Nat} : vfsFileDup mounted files pfd (some newfd) = some (ret, files') ↔
      (pfd < vfsCompatMaxOpenFiles ∧ mounted (files pfd).mount (files pfd).name = true ∧
        (files pfd).loaded = true) ∧
      ret = newfd ∧ files' = Function.update files newfd (files pfd).copy := by
  unfold vfsFileDup dupFd dup2Fd
  by_cases inside : pfd < vfsCompatMaxOpenFiles
  · cases mount : mounted (files pfd).mount (files pfd).name with
    | false => simp [inside]
    | true =>
      cases loaded : (files pfd).loaded with
      | false => simp [inside]
      | true => simp [inside, small, Nat.not_le.mpr, eq_comm]
  · simp [inside, Nat.not_lt.mp inside]

theorem dup2_some (opened : (d.processes slot).open_files oldfd = some pfd)
    (small : newfd < maxOpenFiles) :
    d.dup2 mounted slot oldfd newfd = some (some fd, d') ↔
      d.Accepts mounted slot pfd ∧ FirstFree (d.processes slot) fd ∧
        d' = d.redirected slot pfd newfd fd := by
  have inside : newfd < vfsCompatMaxOpenFiles := Nat.lt_trans small (by decide)
  unfold dup2 OpenFiles.getOpenFile
  dsimp only
  split
  · rename_i full
    exact iff_of_false (by simp) fun holds => absurd holds.1.room (Nat.not_lt.mpr full)
  · rename_i room
    rw [opened, Option.bind_eq_bind, Option.bind_some]
    cases duplicated : vfsFileDup mounted d.files pfd (some newfd) with
    | none =>
      refine iff_of_false (by simp) fun holds => ?_
      have some := (vfsFileDup_newfd inside).mpr
        ⟨⟨holds.1.small, holds.1.mount, holds.1.loaded⟩, rfl, rfl⟩
      rw [duplicated] at some
      cases some
    | some r =>
      obtain ⟨ret, files⟩ := r
      obtain ⟨⟨known, mount, loaded⟩, rfl, rfl⟩ := (vfsFileDup_newfd inside).mp duplicated
      dsimp only
      rw [Option.bind_eq_bind, Option.bind_eq_some_iff]
      constructor
      · rintro ⟨⟨i, p⟩, added, same⟩
        obtain ⟨-, free, rfl⟩ := addOpenFile_some.mp added
        cases same
        exact ⟨⟨Nat.not_le.mp room, known, mount, loaded⟩, free, rfl⟩
      · rintro ⟨-, free, rfl⟩
        exact ⟨_, addOpenFile_some.mpr ⟨Nat.not_le.mp room, free, rfl⟩, rfl⟩

theorem firstFree_unique {p : OpenFiles} {i j : Nat} (first : FirstFree p i)
    (second : FirstFree p j) : i = j := by
  rcases Nat.lt_trichotomy i j with less | same | more
  · exact absurd first.2.1 (second.2.2 i less)
  · exact same
  · exact absurd second.2.1 (first.2.2 j more)

theorem redirected_sees {p i : Nat} (other : p ≠ slot ∨ i ≠ fd) :
    (d.redirected slot pfd newfd fd).sees p i =
      ((d.processes p).open_files i).map (Function.update d.files newfd (d.files pfd).copy) := by
  unfold sees redirected
  dsimp only
  by_cases here : p = slot
  · subst here
    rcases other with absurd | other
    · exact (absurd rfl).elim
    · rw [Function.update_self]
      dsimp only
      rw [Function.update_of_ne other]
  · rw [Function.update_of_ne here]

theorem redirected_new : (d.redirected slot pfd newfd fd).sees slot fd =
    some (d.files pfd).copy := by
  unfold sees redirected
  dsimp only
  rw [Function.update_self]
  dsimp only
  rw [Function.update_self, Option.map_some, Function.update_self]

theorem redirected_kept_iff {p i : Nat} (other : p ≠ slot ∨ i ≠ fd) :
    (d.redirected slot pfd newfd fd).sees p i = d.sees p i ↔
      (d.processes p).open_files i ≠ some newfd ∨ d.files newfd = (d.files pfd).copy := by
  rw [redirected_sees other]
  unfold sees
  cases (d.processes p).open_files i with
  | none => simp
  | some file =>
    rw [Option.map_some, Option.map_some, Option.some.injEq]
    by_cases here : file = newfd
    · subst here
      rw [Function.update_self]
      simp [eq_comm]
    · simp [here]

/-- `dup2` from an open descriptor redirects the new descriptor and nothing else, when it
    succeeds at all, exactly in the lucky case. -/
theorem dup2_redirects_iff (opened : (d.processes slot).open_files oldfd = some pfd)
    (valid : oldfd < maxOpenFiles) (small : newfd < maxOpenFiles) :
    (∀ fd d', d.dup2 mounted slot oldfd newfd = some (some fd, d') →
      Redirects d d' slot oldfd newfd fd) ↔
    (d.Accepts mounted slot pfd → (∃ fd, FirstFree (d.processes slot) fd) →
      d.Lucky slot pfd newfd) := by
  constructor
  · rintro redirects accepts ⟨fd, free⟩
    have result := redirects fd _ ((dup2_some opened small).mpr ⟨accepts, free, rfl⟩)
    obtain rfl := result.value
    refine ⟨free.2.2, free.2.1, ?_⟩
    by_contra neither
    rw [not_or] at neither
    obtain ⟨shared, differs⟩ := neither
    push Not at shared
    obtain ⟨p, i, inside, same⟩ := shared
    have kept : (d.redirected slot pfd fd fd).sees p i = d.sees p i ∧ (p ≠ slot ∨ i ≠ fd) := by
      by_cases here : p = slot
      · subst here
        have other : i ≠ fd := by
          rintro rfl
          rw [free.2.1] at same
          cases same
        exact ⟨result.own i inside other, Or.inr other⟩
      · exact ⟨result.others p here i inside, Or.inl here⟩
    rcases (redirected_kept_iff kept.2).mp kept.1 with apart | equal
    · exact apart same
    · exact differs equal
  · rintro lucky fd d' done
    obtain ⟨accepts, free, rfl⟩ := (dup2_some opened small).mp done
    obtain ⟨before, unused, apart⟩ := lucky accepts ⟨fd, free⟩
    obtain rfl := firstFree_unique free ⟨small, unused, before⟩
    have kept : ∀ p i, (p ≠ slot ∨ i ≠ fd) → i < maxOpenFiles →
        (d.redirected slot pfd fd fd).sees p i = d.sees p i := by
      intro p i other inside
      refine (redirected_kept_iff other).mpr ?_
      rcases apart with nobody | equal
      · exact Or.inl (nobody p i inside)
      · exact Or.inr equal
    have different : oldfd ≠ fd := by
      rintro rfl
      rw [unused] at opened
      cases opened
    refine ⟨rfl, ?_, ?_, ?_⟩
    · refine ⟨d.files pfd, (d.files pfd).copy, ?_, redirected_new, rfl, rfl⟩
      rw [kept slot oldfd (Or.inr different) valid]
      unfold sees
      rw [opened, Option.map_some]
    · intro i inside other
      exact kept slot i (Or.inr other) inside
    · intro p other i inside
      exact kept p i (Or.inl other) inside

def twoFiles : Descriptors where
  files := fun i =>
    ⟨if i = 0 then "/log" else "/data", "hda", 0, 0, 0, decide (i < 2)⟩
  processes := fun p =>
    ⟨fun i => if p = 0 ∧ i = 0 then some 0 else if p = 1 ∧ i = 0 then some 1 else none, 1⟩

/-- The file at place 1 is the one that the second process duplicates. -/
theorem dup2_redirects_own :
    twoFiles.dup2 (fun _ _ => true) 1 0 1 = some (some 1, twoFiles.redirected 1 1 1 1) ∧
      Redirects twoFiles (twoFiles.redirected 1 1 1 1) 1 0 1 1 := by
  have done : twoFiles.dup2 (fun _ _ => true) 1 0 1 =
      some (some 1, twoFiles.redirected 1 1 1 1) := rfl
  have opened : (twoFiles.processes 1).open_files 0 = some 1 := rfl
  refine ⟨done, (dup2_redirects_iff opened (by decide) (by decide)).mpr (fun _ _ => ?_) 1 _ done⟩
  refine ⟨fun i less => ?_, rfl, Or.inr rfl⟩
  have zero : i = 0 := by omega
  subst zero
  decide

/-- `dup2(0, 1)` of the first process turns the file of the second into its own; `dup2(0, 3)`
    returns 1. -/
theorem dup2_changes_another :
    (twoFiles.dup2 (fun _ _ => true) 0 0 1).map (fun r => (r.1, (r.2.sees 1 0).map (·.name))) =
      some (some 1, some "/log") ∧
    twoFiles.sees 1 0 = some ⟨"/data", "hda", 0, 0, 0, true⟩ ∧
    (twoFiles.dup2 (fun _ _ => true) 0 0 3).map (·.1) = some (some 1) ∧
    ¬ ∀ fd d', twoFiles.dup2 (fun _ _ => true) 0 0 1 = some (some fd, d') →
      Redirects twoFiles d' 0 0 1 fd := by
  refine ⟨by decide +kernel, by decide +kernel, by decide +kernel, ?_⟩
  intro redirects
  have done : twoFiles.dup2 (fun _ _ => true) 0 0 1 =
      some (some 1, twoFiles.redirected 0 0 1 1) := rfl
  have same := (redirects _ _ done).others 1 (by decide) 0 (by decide)
  revert same
  decide +kernel

end Redirection

end Descriptors

end OmenProcess
