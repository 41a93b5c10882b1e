import Omen.Process.ElfLoader

/- `exec` of `process.c`: the old image is taken down between the read of the file and the
   loader, whose result is not looked at. Threads, descriptors and signal handlers are of any
   type; what `init_thread` does to a process is a parameter. The copies of the arguments are
   left out. -/
namespace OmenProcess
open ByteMemory RadixTable OmenMemory

structure ProcessImage (Threads Files Handlers : Type) where
  paging : Paging
  directories : Directories
  areas : List VmArea
  threads : Threads
  open_files : Files
  signal_handlers : Handlers

variable {Threads Files Handlers : Type}

def clearUserspace (tables : Tables VmEntry) (root : Nat) : Tables VmEntry :=
  fun t i => if t = root ∧ i < 256 then 0 else tables t i

def removePageDirectory (root : Nat) : Directories → Option Directories
  | [] => none
  | (pd, mappings) :: rest =>
    if pd = root then some rest else (removePageDirectory root rest).map ((pd, mappings) :: ·)

def insertPageDirectory (root : Nat) (directories : Directories) : Option Directories :=
  if directories.any fun d => d.1 == root then none else some ((root, []) :: directories)

namespace ProcessImage

def vmmUnmapUserspace (p : ProcessImage Threads Files Handlers) (root : Nat) :
    Option (ProcessImage Threads Files Handlers) := do
  let directories ← removePageDirectory root p.directories
  let directories ← insertPageDirectory root directories
  some { p with
    paging := { p.paging with tables := clearUserspace p.paging.tables root }, directories }

def space (p : ProcessImage Threads Files Handlers) (buffers : List HeapBuffer) : LoadState :=
  ⟨p.paging, p.directories, p.areas, buffers⟩

def withSpace (p : ProcessImage Threads Files Handlers) (s : LoadState) :
    ProcessImage Threads Files Handlers :=
  { p with paging := s.paging, directories := s.directories, areas := s.areas }

end ProcessImage

/-- What a new program starts with: no threads, no handlers, and what `init_thread` adds. -/
structure Restart (Threads Files Handlers : Type) where
  threads : Threads
  handlers : Handlers
  initThread : ProcessImage Threads Files Handlers → Nat → ProcessImage Threads Files Handlers

def alterProcessOnExec (restart : Restart Threads Files Handlers)
    (p : ProcessImage Threads Files Handlers) (ld : LoadedElf) :
    ProcessImage Threads Files Handlers :=
  restart.initThread
    { p with areas := [], threads := restart.threads, signal_handlers := restart.handlers } ld.entry

/-- How `exec` ends: it returns a code, or it goes on with a missing load result. -/
inductive ExecResult (Image : Type)
  | returned (code : Int) (image : Image)
  | missing (image : Image)

def exec (restart : Restart Threads Files Handlers) (files : List UInt8 → FileView)
    (path : List UInt8) (root : Nat) (buffers : List HeapBuffer)
    (p : ProcessImage Threads Files Handlers) :
    Option (ExecResult (ProcessImage Threads Files Handlers)) :=
  let f := files path
  if f.fd < 0 then some (.returned (-1) p)
  else if f.size < 0 then some (.returned (-1) p)
  -- the result of the read is not used
  else do
    let p ← p.vmmUnmapUserspace root
    let (s, ld) ← elfLoadElf files root f.fd f.contents (p.space buffers)
    let p := p.withSpace s
    match ld with
    | none => some (.missing p)
    | some ld => some (.returned 0 (alterProcessOnExec restart p ld))

def LoaderRejects (files : List UInt8 → FileView) (path : List UInt8) (root : Nat)
    (buffers : List HeapBuffer) (p : ProcessImage Threads Files Handlers) : Prop :=
  ∃ p' s, p.vmmUnmapUserspace root = some p' ∧
    elfLoadElf files root (files path).fd (files path).contents (p'.space buffers) = some (s, none)

/-- The file cannot be opened or read, or the loader does not take it. -/
def ExecFails (files : List UInt8 → FileView) (path : List UInt8) (root : Nat)
    (buffers : List HeapBuffer) (p : ProcessImage Threads Files Handlers) : Prop :=
  (files path).fd < 0 ∨ (files path).size < 0 ∨ (files path).result < 0 ∨
    LoaderRejects files path root buffers p

def FailsCleanly (restart : Restart Threads Files Handlers) (files : List UInt8 → FileView)
    (path : List UInt8) (root : Nat) (buffers : List HeapBuffer)
    (p : ProcessImage Threads Files Handlers) : Prop :=
  ExecFails files path root buffers p →
    ∃ code, code < 0 ∧ exec restart files path root buffers p = some (.returned code p)

def LoaderReturns (files : List UInt8 → FileView) (path : List UInt8) (root : Nat)
    (buffers : List HeapBuffer) (p : ProcessImage Threads Files Handlers) : Prop :=
  ∃ p' result, p.vmmUnmapUserspace root = some p' ∧
    elfLoadElf files root (files path).fd (files path).contents (p'.space buffers) = some result

section Failures
variable {restart : Restart Threads Files Handlers} {files : List UInt8 → FileView}
  {path : List UInt8} {root : Nat} {buffers : List HeapBuffer}
  {p : ProcessImage Threads Files Handlers}

theorem exec_unopened (closed : (files path).fd < 0 ∨ (files path).size < 0) :
    exec restart files path root buffers p = some (.returned (-1) p) := by
  unfold exec
  dsimp only
  split
  · rfl
  · rename_i opened
    rw [if_pos (closed.resolve_left opened)]

theorem exec_opened {code : Int} {p' : ProcessImage Threads Files Handlers}
    (opened : 0 ≤ (files path).fd) (sized : 0 ≤ (files path).size)
    (done : exec restart files path root buffers p = some (.returned code p')) : code = 0 := by
  unfold exec at done
  dsimp only at done
  rw [if_neg (by omega), if_neg (by omega)] at done
  obtain ⟨cleared, -, loading⟩ := Option.bind_eq_some_iff.mp done
  obtain ⟨⟨s, ld⟩, -, result⟩ := Option.bind_eq_some_iff.mp loading
  cases ld with
  | none => cases result
  | some ld =>
    cases result
    rfl

theorem loaderRejects_iff : LoaderRejects files path root buffers p ↔
    LoaderReturns files path root buffers p ∧ ¬ Acceptable files (files path).contents := by
  constructor
  · rintro ⟨p', s, cleared, loaded⟩
    refine ⟨⟨p', _, cleared, loaded⟩, fun fine => ?_⟩
    exact absurd ((elfLoadElf_accepts loaded).mpr fine) Bool.false_ne_true
  · rintro ⟨⟨p', ⟨s, ld⟩, cleared, loaded⟩, bad⟩
    cases ld with
    | none => exact ⟨p', s, cleared, loaded⟩
    | some ld => exact absurd ((elfLoadElf_accepts loaded).mp rfl) bad

/-- A failure is clean exactly when it comes before the old image is taken down: a file that is
    open and has a size must be readable and, where the loader returns, acceptable. -/
theorem exec_fails_cleanly_iff (restart : Restart Threads Files Handlers)
    (files : List UInt8 → FileView) (path : List UInt8) (root : Nat) (buffers : List HeapBuffer)
    (p : ProcessImage Threads Files Handlers) :
    FailsCleanly restart files path root buffers p ↔
      (0 ≤ (files path).fd → 0 ≤ (files path).size → 0 ≤ (files path).result ∧
        (LoaderReturns files path root buffers p → Acceptable files (files path).contents)) := by
  unfold FailsCleanly ExecFails
  rw [loaderRejects_iff]
  constructor
  · intro clean opened sized
    by_contra bad
    have fails : (files path).result < 0 ∨ LoaderReturns files path root buffers p ∧
        ¬ Acceptable files (files path).contents := by
      by_cases unread : (files path).result < 0
      · exact Or.inl unread
      · refine Or.inr ?_
        by_contra fine
        refine bad ⟨Int.not_lt.mp unread, fun returns => ?_⟩
        by_contra rejected
        exact fine ⟨returns, rejected⟩
    obtain ⟨code, negative, done⟩ := clean (Or.inr (Or.inr fails))
    have zero := exec_opened opened sized done
    omega
  · intro ready fails
    by_cases opened : 0 ≤ (files path).fd
    · by_cases sized : 0 ≤ (files path).size
      · obtain ⟨read, loads⟩ := ready opened sized
        rcases fails with closed | empty | unread | ⟨returns, rejected⟩
        · omega
        · omega
        · omega
        · exact absurd (loads returns) rejected
      · exact ⟨-1, by decide, exec_unopened (Or.inr (Int.not_le.mp sized))⟩
    · exact ⟨-1, by decide, exec_unopened (Or.inl (Int.not_le.mp opened))⟩

end Failures

def shmImage : ProcessImage Unit Unit Unit where
  paging := ⟨shmTables, []⟩
  directories := [(0x1000, [])]
  areas := [shmArea 0 2]
  threads := ()
  open_files := ()
  signal_handlers := ()

/-- A file of zeros: the loader rejects it when the pages of the process are gone, and `exec`
    goes on without a load result. -/
theorem exec_rejects_too_late :
    ∃ p', exec ⟨(), (), fun p _ => p⟩ (fun _ => ⟨3, 16, 16, blank⟩) [] 0x1000 [] shmImage =
        some (.missing p') ∧
      IsMapped shmImage.paging.tables 0x1000 vmmRegionUShmMmap ∧
      ¬ IsMapped p'.paging.tables 0x1000 vmmRegionUShmMmap ∧
      ¬ FailsCleanly ⟨(), (), fun p _ => p⟩ (fun _ => ⟨3, 16, 16, blank⟩) [] 0x1000 []
        shmImage := by
  refine ⟨{ shmImage with paging := ⟨clearUserspace shmTables 0x1000, []⟩ }, rfl, ?_, ?_, ?_⟩
  · unfold IsMapped
    decide +kernel
  · unfold IsMapped
    decide +kernel
  · intro clean
    obtain ⟨code, -, done⟩ := clean (Or.inr (Or.inr (Or.inr ⟨_, _, rfl, rfl⟩)))
    cases done

end OmenProcess
