import Omen.Library.ByteMemory
import Omen.Process.Munmap

/- `elf_load_elf`: the checks of an ELF file and of its dynamic linker, with the segments that
   are mapped on the way. The outer result is missing after a panic, the inner one where the
   source returns NULL. The contents of the segments are left out. -/
namespace OmenProcess
open ByteMemory RadixTable OmenMemory

/-- What the file system gives for a path: the results of opening, of asking for the size and
    of reading, and the buffer after the read. -/
structure FileView where
  fd : Int
  size : Int
  result : Int
  contents : Mem

structure ProgramHeader where
  p_type : Nat
  p_flags : Nat
  p_offset : Nat
  p_vaddr : Nat
  p_filesz : Nat
  p_memsz : Nat

def ptLoad : Nat := 1

def ptInterp : Nat := 3

def ptPhdr : Nat := 6

def etExec : Nat := 2

def etDyn : Nat := 3

def parseElfFile (buffer : Mem) : Bool :=
  buffer 0 == 0x7f && buffer 1 == 0x45 && buffer 2 == 0x4c && buffer 3 == 0x46

def isElfClass32 (buffer : Mem) : Bool := buffer 4 == 1

def eType (buffer : Mem) : Nat := getLE buffer 16 2

def eEntry (buffer : Mem) : Nat := getLE buffer 24 8

def ePhoff (buffer : Mem) : Nat := getLE buffer 32 8

def ePhentsize (buffer : Mem) : Nat := getLE buffer 54 2

def ePhnum (buffer : Mem) : Nat := getLE buffer 56 2

/-- A header of the table is 56 bytes long, whatever `e_phentsize` says. -/
def programHeader (buffer : Mem) (i : Nat) : ProgramHeader :=
  let place := ePhoff buffer + 56 * i
  { p_type := getLE buffer place 4
    p_flags := getLE buffer (place + 4) 4
    p_offset := getLE buffer (place + 8) 8
    p_vaddr := getLE buffer (place + 16) 8
    p_filesz := getLE buffer (place + 32) 8
    p_memsz := getLE buffer (place + 40) 8 }

def programHeaders (buffer : Mem) : List ProgramHeader :=
  (List.range (ePhnum buffer)).map (programHeader buffer)

def insertAllocation (root : Nat) (mapping : VmmMapping) : Directories → Option Directories
  | [] => none
  | (pd, mappings) :: rest =>
    if pd = root then
      if mappings.any fun m => m.virtual_address == mapping.virtual_address then none
      else some ((pd, mappings ++ [mapping]) :: rest)
    else (insertAllocation root mapping rest).map ((pd, mappings) :: ·)

/-- What a call of `kmalloc` finds: where the buffer is, and how many bytes it has at most. -/
structure HeapBuffer where
  physical : Nat
  bytes : Nat

/-- An address space, and what the next calls of `kmalloc` find. -/
structure LoadState where
  paging : Paging
  directories : Directories
  areas : List VmArea
  buffers : List HeapBuffer

namespace LoadState

/-- No result for the panic of `allocate_vmm` when there is no memory. -/
def kmalloc (s : LoadState) (size : Nat) : Option (Nat × LoadState) :=
  match s.buffers with
  | [] => none
  | buffer :: rest =>
    if buffer.bytes < size then none else some (buffer.physical, { s with buffers := rest })

def mapPage (root virtual physical flags : Nat) (paging : Paging) (i : Nat) : Option Paging :=
  paging.mapAddress root ((virtual + i * pageSize4KiB) % wordSize)
    ((physical + i * pageSize4KiB) % wordSize) pageSize4KiB flags

def mapRange (s : LoadState) (root virtual physical size flags : Nat) : Option LoadState := do
  let paging ← (List.range (pageCount size)).foldlM (mapPage root virtual physical flags) s.paging
  let directories ← insertAllocation root ⟨virtual, physical, size⟩ s.directories
  some { s with paging, directories }

def segmentPerms (h : ProgramHeader) : Nat :=
  0x2 ||| (if h.p_flags &&& 2 ≠ 0 then 0x1 else 0) ||| (if h.p_flags &&& 1 ≠ 0 then 0 else 0x20)

def segmentStart (h : ProgramHeader) (base : Nat) : Nat :=
  (h.p_vaddr / 0x1000 * 0x1000 + base) % wordSize

/-- The bytes of the pages of a segment, as a word of 64 bits. -/
def segmentSize (h : ProgramHeader) : Nat :=
  pageCount ((h.p_memsz + h.p_vaddr % 0x1000) % wordSize) * 0x1000 % wordSize

def allocateSegment (s : LoadState) (root : Nat) (fd : Int) (h : ProgramHeader) (base : Nat) :
    Option LoadState :=
  if h.p_type ≠ ptLoad then some s
  else
    let vaddr := segmentStart h base
    if vaddr ≥ 0x800000000000 then none
    else do
      let size := segmentSize h
      let (physical, s) ← s.kmalloc size
      let s ← s.mapRange root vaddr physical size (segmentPerms h)
      let area : VmArea :=
        ⟨vaddr, (vaddr + size) % wordSize, segmentPerms h, 0, pageSize4KiB, fd, 0⟩
      some { s with areas := createVmarea s.areas area }

end LoadState

structure ProcLd where
  at_phdr : Nat
  ld_path : Option (List UInt8)

def interpPath (buffer : Mem) (h : ProgramHeader) : List UInt8 :=
  (List.range h.p_filesz).map fun k => buffer (h.p_offset + k)

def loadHeaders (buffer : Mem) (root : Nat) (fd : Int) :
    List ProgramHeader → LoadState → ProcLd → Option (LoadState × Option ProcLd)
  | [], s, pld => some (s, some pld)
  | h :: rest, s, pld =>
    if h.p_type = ptLoad then do
      let s ← s.allocateSegment root fd h 0
      loadHeaders buffer root fd rest s pld
    else if h.p_type = ptPhdr then
      loadHeaders buffer root fd rest s { pld with at_phdr := h.p_vaddr }
    else if h.p_type = ptInterp then
      if pld.ld_path.isSome then some (s, none)
      else if h.p_filesz > 0x1000 then some (s, none)
      else do
        let (_, s) ← s.kmalloc h.p_filesz
        loadHeaders buffer root fd rest s { pld with ld_path := some (interpPath buffer h) }
    else loadHeaders buffer root fd rest s pld

def dynamicLinkerBaseAddress : Nat := 0x40000000

structure LoadedElf where
  entry : Nat
  auxv : List (Nat × Nat)

def auxVectors (buffer : Mem) (pld : ProcLd) : List (Nat × Nat) :=
  [(9, eEntry buffer), (3, pld.at_phdr), (4, ePhentsize buffer), (5, ePhnum buffer),
    (7, dynamicLinkerBaseAddress), (6, 0x1000), (33, vmmRegionUVdso)]

def sizeofVectors : Nat := 112

def sizeofLoadedElf : Nat := 40

/-- `elf_open_file`, with a buffer for the file. Its callers take the number 0 for a failure. -/
def elfOpenFile (f : FileView) (s : LoadState) : Option (Int × LoadState) :=
  if f.fd < 0 then some (0, s)
  else if f.size < 0 then some (0, s)
  else (s.kmalloc f.size.toNat).map fun given => (f.fd, given.2)

def loadLinker (root : Nat) (buffer : Mem) (f : FileView) (s : LoadState) (pld : ProcLd) :
    Option (LoadState × Option LoadedElf) := do
  let (fd, s) ← elfOpenFile f s
  if fd = 0 then some (s, none)
  else if !parseElfFile f.contents then some (s, none)
  -- the class is the one of the program
  else if isElfClass32 buffer then some (s, none)
  else if eType f.contents ≠ etDyn then some (s, none)
  else do
    let s ← (programHeaders f.contents).foldlM (fun s h =>
      s.allocateSegment root fd h dynamicLinkerBaseAddress) s
    let (_, s) ← s.kmalloc sizeofLoadedElf
    some (s, some ⟨(eEntry f.contents + dynamicLinkerBaseAddress) % wordSize,
      auxVectors buffer pld⟩)

def elfLoadElf (files : List UInt8 → FileView) (root : Nat) (fd : Int) (buffer : Mem)
    (s : LoadState) : Option (LoadState × Option LoadedElf) :=
  if !parseElfFile buffer then some (s, none)
  else if isElfClass32 buffer then some (s, none)
  else if eType buffer = etDyn then some (s, none)
  else if eType buffer ≠ etExec then some (s, none)
  else do
    let (s, pld) ← loadHeaders buffer root fd (programHeaders buffer) s ⟨0, none⟩
    match pld with
    | none => some (s, none)
    | some pld => do
      let (_, s) ← s.kmalloc sizeofVectors
      match pld.ld_path with
      | none => do
        let (_, s) ← s.kmalloc sizeofLoadedElf
        some (s, some ⟨eEntry buffer, auxVectors buffer pld⟩)
      | some path => loadLinker root buffer (files path) s pld

structure LinkerFile (f : FileView) : Prop where
  opened : 0 < f.fd
  sized : 0 ≤ f.size
  magic : parseElfFile f.contents = true
  type : eType f.contents = etDyn

structure Acceptable (files : List UInt8 → FileView) (buffer : Mem) : Prop where
  magic : parseElfFile buffer = true
  class64 : isElfClass32 buffer = false
  type : eType buffer = etExec
  one : ((programHeaders buffer).filter fun h => h.p_type == ptInterp).length ≤ 1
  short : ∀ h ∈ programHeaders buffer, h.p_type = ptInterp → h.p_filesz ≤ 0x1000
  linker : ∀ h ∈ programHeaders buffer, h.p_type = ptInterp →
    LinkerFile (files (interpPath buffer h))

section Loading
variable {files : List UInt8 → FileView} {buffer : Mem} {root : Nat} {fd : Int}
  {s s' : LoadState} {pld : ProcLd} {headers : List ProgramHeader}

theorem elfOpenFile_ne_zero {f : FileView} {number : Int}
    (opened : elfOpenFile f s = some (number, s')) :
    (number ≠ 0 ↔ 0 < f.fd ∧ 0 ≤ f.size) ∧ (number ≠ 0 → number = f.fd) := by
  unfold elfOpenFile at opened
  split at opened
  · cases opened
    omega
  · split at opened
    · cases opened
      omega
    · obtain ⟨given, -, same⟩ := Option.map_eq_some_iff.mp opened
      cases same
      omega

theorem loadLinker_accepts {f : FileView} {ld : Option LoadedElf}
    (class64 : isElfClass32 buffer = false)
    (done : loadLinker root buffer f s pld = some (s', ld)) : ld.isSome ↔ LinkerFile f := by
  unfold loadLinker at done
  rw [class64] at done
  obtain ⟨⟨number, space⟩, found, done⟩ := Option.bind_eq_some_iff.mp done
  have numbered := (elfOpenFile_ne_zero found).1
  dsimp only at done
  split at done
  · rename_i closed
    cases done
    refine ⟨fun some => absurd some Bool.false_ne_true, fun file => ?_⟩
    exact absurd closed (numbered.mpr ⟨file.opened, file.sized⟩)
  · rename_i opened
    split at done
    · rename_i bad
      cases done
      refine ⟨fun some => absurd some Bool.false_ne_true, fun file => ?_⟩
      rw [file.magic] at bad
      cases bad
    · rename_i magic
      rw [if_neg Bool.false_ne_true] at done
      split at done
      · rename_i bad
        cases done
        refine ⟨fun some => absurd some Bool.false_ne_true, fun file => absurd file.type bad⟩
      · rename_i type
        obtain ⟨after, -, done⟩ := Option.bind_eq_some_iff.mp done
        obtain ⟨last, -, result⟩ := Option.bind_eq_some_iff.mp done
        cases result
        obtain ⟨positive, sized⟩ := numbered.mp opened
        exact ⟨fun _ => ⟨positive, sized, by simpa using magic, not_not.mp type⟩, fun _ => rfl⟩

def linkerPath (buffer : Mem) : List ProgramHeader → Option (List UInt8) →
    Option (Option (List UInt8))
  | [], path => some path
  | h :: rest, path =>
    if h.p_type = ptInterp then
      if path.isSome ∨ h.p_filesz > 0x1000 then none
      else linkerPath buffer rest (some (interpPath buffer h))
    else linkerPath buffer rest path

theorem loadHeaders_path {result : Option ProcLd}
    (done : loadHeaders buffer root fd headers s pld = some (s', result)) :
    result.map ProcLd.ld_path = linkerPath buffer headers pld.ld_path := by
  induction headers generalizing s pld with
  | nil =>
    cases done
    rfl
  | cons h rest ih =>
    rw [loadHeaders] at done
    rw [linkerPath]
    split at done
    · rename_i load
      rw [if_neg (by rw [load]; decide)]
      obtain ⟨after, -, later⟩ := Option.bind_eq_some_iff.mp done
      exact ih later
    · split at done
      · rename_i phdr
        rw [if_neg (by rw [phdr]; decide)]
        have later := ih done
        exact later
      · split at done
        · rename_i interp
          rw [if_pos interp]
          split at done
          · rename_i given
            cases done
            rw [if_pos (Or.inl given)]
            rfl
          · rename_i fresh
            split at done
            · rename_i long
              cases done
              rw [if_pos (Or.inr long)]
              rfl
            · rename_i short
              rw [if_neg (not_or.mpr ⟨fresh, short⟩)]
              obtain ⟨given, -, later⟩ := Option.bind_eq_some_iff.mp done
              exact ih later
        · rename_i other
          rw [if_neg other]
          exact ih done

def interps (headers : List ProgramHeader) : List ProgramHeader :=
  headers.filter fun h => h.p_type == ptInterp

theorem interps_take {h : ProgramHeader} (interp : h.p_type = ptInterp) :
    interps (h :: headers) = h :: interps headers :=
  List.filter_cons_of_pos (by simpa using interp)

theorem interps_skip {h : ProgramHeader} (other : h.p_type ≠ ptInterp) :
    interps (h :: headers) = interps headers :=
  List.filter_cons_of_neg (by simpa using other)

theorem linkerPath_given (path : List UInt8) :
    linkerPath buffer headers (some path) =
      if interps headers = [] then some (some path) else none := by
  induction headers with
  | nil => rfl
  | cons h rest ih =>
    rw [linkerPath]
    by_cases interp : h.p_type = ptInterp
    · rw [if_pos interp, interps_take interp, if_pos (Or.inl Option.isSome_some),
        if_neg (List.cons_ne_nil h _)]
    · rw [if_neg interp, interps_skip interp, ih]

theorem linkerPath_none :
    linkerPath buffer headers none =
      match interps headers with
      | [] => some none
      | [h] => if h.p_filesz > 0x1000 then none else some (some (interpPath buffer h))
      | _ :: _ :: _ => none := by
  induction headers with
  | nil => rfl
  | cons h rest ih =>
    rw [linkerPath]
    by_cases interp : h.p_type = ptInterp
    · rw [if_pos interp, interps_take interp, linkerPath_given]
      cases interps rest with
      | nil => simp
      | cons => simp
    · rw [if_neg interp, interps_skip interp, ih]

theorem mem_interps {h : ProgramHeader} :
    h ∈ interps headers ↔ h ∈ headers ∧ h.p_type = ptInterp := by
  unfold interps
  rw [List.mem_filter, beq_iff_eq]

theorem acceptable_iff : Acceptable files buffer ↔
    (parseElfFile buffer = true ∧ isElfClass32 buffer = false ∧ eType buffer = etExec) ∧
      (interps (programHeaders buffer)).length ≤ 1 ∧ ∀ h ∈ interps (programHeaders buffer),
        h.p_filesz ≤ 0x1000 ∧ LinkerFile (files (interpPath buffer h)) := by
  constructor
  · rintro ⟨magic, class64, type, one, short, linker⟩
    refine ⟨⟨magic, class64, type⟩, one, fun h member => ?_⟩
    obtain ⟨held, interp⟩ := mem_interps.mp member
    exact ⟨short h held interp, linker h held interp⟩
  · rintro ⟨⟨magic, class64, type⟩, one, each⟩
    exact ⟨magic, class64, type, one,
      fun h member interp => (each h (mem_interps.mpr ⟨member, interp⟩)).1,
      fun h member interp => (each h (mem_interps.mpr ⟨member, interp⟩)).2⟩

theorem elfLoadElf_accepts {ld : Option LoadedElf}
    (done : elfLoadElf files root fd buffer s = some (s', ld)) :
    ld.isSome ↔ Acceptable files buffer := by
  rw [acceptable_iff]
  unfold elfLoadElf at done
  by_cases header : parseElfFile buffer = true ∧ isElfClass32 buffer = false ∧
      eType buffer = etExec
  · obtain ⟨magic, class64, type⟩ := header
    simp only [magic, class64, type, Bool.not_true, Bool.false_eq_true, if_false, ne_eq,
      not_true_eq_false, show ¬ etExec = etDyn by decide] at done
    obtain ⟨⟨after, pld⟩, loop, rest⟩ := Option.bind_eq_some_iff.mp done
    have path := (loadHeaders_path loop).trans linkerPath_none
    rw [and_iff_right ⟨magic, class64, type⟩]
    rcases found : interps (programHeaders buffer) with _ | ⟨h, _ | ⟨_, _⟩⟩ <;> rw [found] at path
    · obtain ⟨pld, rfl, missing⟩ := Option.map_eq_some_iff.mp path
      obtain ⟨vectors, -, rest⟩ := Option.bind_eq_some_iff.mp rest
      rw [missing] at rest
      obtain ⟨last, -, result⟩ := Option.bind_eq_some_iff.mp rest
      cases result
      simp
    · dsimp only at path
      split at path
      · rename_i long
        obtain rfl := Option.map_eq_none_iff.mp path
        cases rest
        simp [Nat.not_le.mpr long]
      · rename_i short
        obtain ⟨pld, rfl, given⟩ := Option.map_eq_some_iff.mp path
        obtain ⟨vectors, -, rest⟩ := Option.bind_eq_some_iff.mp rest
        rw [given] at rest
        rw [loadLinker_accepts class64 rest]
        simp [Nat.not_lt.mp short]
    · obtain rfl := Option.map_eq_none_iff.mp path
      cases rest
      simp
  · have rejected : (s, none) = (s', ld) := by
      split at done
      · exact Option.some.inj done
      split at done
      · exact Option.some.inj done
      split at done
      · exact Option.some.inj done
      split at done
      · exact Option.some.inj done
      · rename_i magic class64 _ type
        exact absurd ⟨by simpa using magic, by simpa using class64, not_not.mp type⟩ header
    cases rejected
    exact iff_of_false Bool.false_ne_true fun fine => header fine.1

end Loading

end OmenProcess
