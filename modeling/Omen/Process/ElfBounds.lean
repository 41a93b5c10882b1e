import Omen.Process.ElfLoader

/- What `elf_load_elf` touches: the bytes it reads from the buffer of the program and from that
   of the dynamic linker, the bytes it copies into the pages of a segment, and the addresses it
   maps. The size of the file is given to the loader, which compares it with nothing. -/
namespace OmenProcess.ElfBounds
open ByteMemory OmenMemory LoadState

section Turns
variable {σ β : Type}

def turns (step : σ → β → Option σ) : List β → σ → List (σ × β)
  | [], _ => []
  | b :: rest, s => (s, b) :: ((step s b).map (turns step rest)).getD []

theorem mem_turns_cons {step : σ → β → Option σ} {b : β} {rest : List β} {s : σ} {t : σ × β} :
    t ∈ turns step (b :: rest) s ↔
      t = (s, b) ∨ ∃ s', step s b = some s' ∧ t ∈ turns step rest s' := by
  rw [turns, List.mem_cons]
  cases step s b with
  | none => simp
  | some s' => simp

theorem turn_mem {step : σ → β → Option σ} {bs : List β} {s : σ} {t : σ × β}
    (turn : t ∈ turns step bs s) : t.2 ∈ bs := by
  induction bs generalizing s with
  | nil => cases turn
  | cons b rest ih =>
    rcases mem_turns_cons.mp turn with rfl | ⟨s', -, later⟩
    · exact List.mem_cons_self
    · exact List.mem_cons_of_mem b (ih later)

theorem turns_all {step : σ → β → Option σ} {bs : List β} {s s' : σ}
    (done : bs.foldlM step s = some s') : (turns step bs s).map Prod.snd = bs := by
  induction bs generalizing s with
  | nil => rfl
  | cons b rest ih =>
    rw [List.foldlM_cons] at done
    obtain ⟨next, stepped, later⟩ := Option.bind_eq_some_iff.mp done
    rw [turns, stepped, List.map_cons]
    exact congrArg (b :: ·) (ih later)

def turnsDone (step : σ → β → Option σ) : List β → σ → Nat
  | [], _ => 0
  | b :: rest, s => ((step s b).map fun s' => turnsDone step rest s' + 1).getD 0

theorem turnsDone_all {step : σ → β → Option σ} {bs : List β} {s s' : σ}
    (done : bs.foldlM step s = some s') : turnsDone step bs s = bs.length := by
  induction bs generalizing s with
  | nil => rfl
  | cons b rest ih =>
    rw [List.foldlM_cons] at done
    obtain ⟨next, stepped, later⟩ := Option.bind_eq_some_iff.mp done
    rw [turnsDone, stepped, List.length_cons, ← ih later]
    rfl

end Turns

inductive Access where
  | read (whole offset bytes : Nat)
  | copy (room offset bytes : Nat)
  | map (start bytes : Nat)
  deriving DecidableEq

def userLimit : Nat := 0x800000000000

/-- No byte of a file or of a segment's pages is touched outside of it, and no address of the
    kernel's half is mapped. -/
def Access.InBounds : Access → Prop
  | .read whole offset bytes => bytes = 0 ∨ offset + bytes ≤ whole
  | .copy room offset bytes => bytes = 0 ∨ offset + bytes ≤ room
  | .map start bytes => start + bytes ≤ userLimit

instance : (a : Access) → Decidable a.InBounds
  | .read whole offset bytes => inferInstanceAs (Decidable (bytes = 0 ∨ offset + bytes ≤ whole))
  | .copy room offset bytes => inferInstanceAs (Decidable (bytes = 0 ∨ offset + bytes ≤ room))
  | .map start bytes => inferInstanceAs (Decidable (start + bytes ≤ userLimit))

@[simp] theorem read_inBounds {whole offset bytes : Nat} :
    (Access.read whole offset bytes).InBounds ↔ bytes = 0 ∨ offset + bytes ≤ whole := Iff.rfl

@[simp] theorem copy_inBounds {room offset bytes : Nat} :
    (Access.copy room offset bytes).InBounds ↔ bytes = 0 ∨ offset + bytes ≤ room := Iff.rfl

@[simp] theorem map_inBounds {start bytes : Nat} :
    (Access.map start bytes).InBounds ↔ start + bytes ≤ userLimit := Iff.rfl

/-- The bytes of a segment that `map_range` maps: all of them, or those before its panic. -/
def mappedBytes (root physical : Nat) (s : LoadState) (h : ProgramHeader) (base : Nat) : Nat :=
  turnsDone (mapPage root (segmentStart h base) physical (segmentPerms h))
    (List.range (pageCount (segmentSize h))) s.paging * 0x1000

def segmentAccesses (whole root place : Nat) (s : LoadState) (h : ProgramHeader) (base : Nat) :
    List Access :=
  .read whole (place + 16) 8 ::
    if segmentStart h base ≥ userLimit then []
    else
      .read whole (place + 40) 8 :: .read whole (place + 4) 4 ::
        match s.kmalloc (segmentSize h) with
        | none => []
        | some (physical, s) =>
          [.read whole (place + 8) 8, .read whole (place + 32) 8,
            .read whole h.p_offset h.p_filesz,
            .copy (segmentSize h) (h.p_vaddr % 0x1000) h.p_filesz,
            .map (segmentStart h base) (mappedBytes root physical s h base)]

def headerPlace (buffer : Mem) (i : Nat) : Nat := ePhoff buffer + 56 * i

def headerAccesses (whole root : Nat) (buffer : Mem) (t : LoadState × ProcLd) (i : Nat) :
    List Access :=
  let h := programHeader buffer i
  let place := headerPlace buffer i
  .read whole place 4 ::
    if h.p_type = ptLoad then segmentAccesses whole root place t.1 h 0
    else if h.p_type = ptPhdr then [.read whole (place + 16) 8]
    else if h.p_type = ptInterp then
      if t.2.ld_path.isSome then []
      else
        .read whole (place + 32) 8 ::
          if h.p_filesz > 0x1000 then []
          else
            match t.1.kmalloc h.p_filesz with
            | none => []
            -- the path gets a buffer of just these bytes
            | some _ => [.read whole (place + 8) 8, .read whole h.p_offset h.p_filesz]
    else []

def headerStep (buffer : Mem) (root : Nat) (fd : Int) (t : LoadState × ProcLd) (i : Nat) :
    Option (LoadState × ProcLd) := do
  let (s, pld) ← loadHeaders buffer root fd [programHeader buffer i] t.1 t.2
  pld.map (Prod.mk s)

def headerTurns (buffer : Mem) (root : Nat) (fd : Int) (s : LoadState) :
    List ((LoadState × ProcLd) × Nat) :=
  turns (headerStep buffer root fd) (List.range (ePhnum buffer)) (s, ⟨0, none⟩)

def linkerHeaderAccesses (whole root : Nat) (buffer : Mem) (s : LoadState) (i : Nat) :
    List Access :=
  let h := programHeader buffer i
  let place := headerPlace buffer i
  .read whole place 4 ::
    if h.p_type = ptLoad then segmentAccesses whole root place s h dynamicLinkerBaseAddress else []

def linkerTurns (f : FileView) (root : Nat) (s : LoadState) : List (LoadState × Nat) :=
  turns (fun s i => s.allocateSegment root f.fd (programHeader f.contents i)
    dynamicLinkerBaseAddress) (List.range (ePhnum f.contents)) s

/-- What follows the opening of the linker: the headers until the loop over the segments, and
    `e_entry` behind it. -/
def linkerAccesses (size root : Nat) (f : FileView) (s : LoadState) : List Access :=
  .read f.size.toNat 0 4 ::
    if !parseElfFile f.contents then []
    else
      -- the class is read in the header of the program
      .read size 4 1 :: .read f.size.toNat 16 2 ::
        if eType f.contents ≠ etDyn then []
        else
          [.read f.size.toNat 32 8, .read f.size.toNat 56 2] ++
            (linkerTurns f root s).flatMap
              (fun t => linkerHeaderAccesses f.size.toNat root f.contents t.1 t.2) ++
            match (programHeaders f.contents).foldlM (fun s h =>
              s.allocateSegment root f.fd h dynamicLinkerBaseAddress) s with
            | none => []
            | some s =>
              if (s.kmalloc sizeofLoadedElf).isNone then [] else [.read f.size.toNat 24 8]

def tailAccesses (files : List UInt8 → FileView) (root size : Nat) (s : LoadState) (pld : ProcLd) :
    List Access :=
  match s.kmalloc sizeofVectors with
  | none => []
  | some (_, s) =>
    [.read size 24 8, .read size 54 2, .read size 56 2] ++
      match pld.ld_path with
      | none => []
      | some path =>
        match elfOpenFile (files path) s with
        | none => []
        | some (fd, s) => if fd = 0 then [] else linkerAccesses size root (files path) s

/-- Everything that `elf_load_elf` touches, for a program that is not refused on its class. -/
def loadAccesses (files : List UInt8 → FileView) (root : Nat) (fd : Int) (buffer : Mem)
    (size : Nat) (s : LoadState) : List Access :=
  .read size 0 4 ::
    if !parseElfFile buffer then []
    else
      .read size 4 1 :: .read size 16 2 ::
        if eType buffer ≠ etExec then []
        else
          [.read size 32 8, .read size 56 2] ++
            (headerTurns buffer root fd s).flatMap
              (fun t => headerAccesses size root buffer t.1 t.2) ++
            match loadHeaders buffer root fd (programHeaders buffer) s ⟨0, none⟩ with
            | some (s, some pld) => tailAccesses files root size s pld
            | _ => []

/-- The bytes of a segment are in the file and in its pages, and the pages that are mapped end in
    the user's half. -/
structure SegmentFits (whole root physical : Nat) (s : LoadState) (h : ProgramHeader)
    (base : Nat) : Prop where
  file : h.p_filesz = 0 ∨ h.p_offset + h.p_filesz ≤ whole
  pages : h.p_filesz = 0 ∨ h.p_vaddr % 0x1000 + h.p_filesz ≤ segmentSize h
  user : segmentStart h base + mappedBytes root physical s h base ≤ userLimit

def LoadableFits (whole root : Nat) (s : LoadState) (h : ProgramHeader) (base : Nat) : Prop :=
  segmentStart h base < userLimit → ∀ physical s',
    s.kmalloc (segmentSize h) = some (physical, s') → SegmentFits whole root physical s' h base

def segmentExtent (h : ProgramHeader) (base : Nat) : Nat :=
  if segmentStart h base ≥ userLimit then 24 else 48

def headerExtent (h : ProgramHeader) : Nat :=
  if h.p_type = ptLoad then segmentExtent h 0
  else if h.p_type = ptPhdr then 24
  else if h.p_type = ptInterp then 40
  else 4

structure HeaderFits (whole root : Nat) (buffer : Mem) (s : LoadState) (i : Nat) : Prop where
  table : headerPlace buffer i + headerExtent (programHeader buffer i) ≤ whole
  segment : (programHeader buffer i).p_type = ptLoad →
    LoadableFits whole root s (programHeader buffer i) 0
  interp : (programHeader buffer i).p_type = ptInterp →
    (s.kmalloc (programHeader buffer i).p_filesz).isSome →
      (programHeader buffer i).p_filesz = 0 ∨
        (programHeader buffer i).p_offset + (programHeader buffer i).p_filesz ≤ whole

structure LinkerHeaderFits (whole root : Nat) (buffer : Mem) (s : LoadState) (i : Nat) :
    Prop where
  table : headerPlace buffer i + (if (programHeader buffer i).p_type = ptLoad
    then segmentExtent (programHeader buffer i) dynamicLinkerBaseAddress else 4) ≤ whole
  segment : (programHeader buffer i).p_type = ptLoad →
    LoadableFits whole root s (programHeader buffer i) dynamicLinkerBaseAddress

def linkerOpened (files : List UInt8 → FileView) (s : LoadState) (pld : ProcLd) :
    Option (FileView × LoadState) := do
  let (_, s) ← s.kmalloc sizeofVectors
  let path ← pld.ld_path
  let (_, s) ← elfOpenFile (files path) s
  some (files path, s)

/-- What the loader would have to check of the program and of its linker: that the header ends
    inside the file, and that every header it comes to fits. -/
structure LoadFits (files : List UInt8 → FileView) (root : Nat) (fd : Int) (buffer : Mem)
    (size : Nat) (s : LoadState) : Prop where
  header : 58 ≤ size
  headers : ∀ t ∈ headerTurns buffer root fd s, HeaderFits size root buffer t.1.1 t.2
  linker : ∀ s' pld f space,
    loadHeaders buffer root fd (programHeaders buffer) s ⟨0, none⟩ = some (s', some pld) →
    linkerOpened files s' pld = some (f, space) →
      58 ≤ f.size.toNat ∧ ∀ t ∈ linkerTurns f root space,
        LinkerHeaderFits f.size.toNat root f.contents t.1 t.2

section Bounds
variable {whole place base size root i : Nat} {h : ProgramHeader} {buffer : Mem} {fd : Int}
  {s s' : LoadState} {pld pld' : ProcLd} {files : List UInt8 → FileView}

theorem mappedBytes_all {physical : Nat}
    (mapped : s.mapRange root (segmentStart h base) physical (segmentSize h) (segmentPerms h) =
      some s') : mappedBytes root physical s h base = segmentSize h := by
  obtain ⟨paging, loop, -⟩ := Option.bind_eq_some_iff.mp mapped
  have whole : segmentSize h % 0x1000 = 0 := by
    unfold segmentSize wordSize
    omega
  rw [mappedBytes, turnsDone_all loop, List.length_range, pageCount, pageSize4KiB,
    if_neg (not_not_intro whole)]
  omega

theorem segment_in_bounds :
    (∀ a ∈ segmentAccesses whole root place s h base, a.InBounds) ↔
      place + segmentExtent h base ≤ whole ∧ LoadableFits whole root s h base := by
  simp only [segmentAccesses, segmentExtent, LoadableFits, List.forall_mem_cons, read_inBounds]
  split
  · rename_i kernel
    simp only [List.not_mem_nil]
    constructor
    · rintro ⟨read, -⟩
      exact ⟨by omega, fun user => absurd user (Nat.not_lt.mpr kernel)⟩
    · rintro ⟨extent, -⟩
      exact ⟨by omega, fun _ member => member.elim⟩
  · rename_i user
    simp only [List.forall_mem_cons, read_inBounds]
    cases given : s.kmalloc (segmentSize h) with
    | none =>
      simp only [List.not_mem_nil]
      constructor
      · rintro ⟨-, memsz, -⟩
        refine ⟨by omega, ?_⟩
        rintro - physical s' ⟨⟩
      · rintro ⟨extent, -⟩
        exact ⟨by omega, by omega, by omega, fun _ member => member.elim⟩
    | some found =>
      obtain ⟨physical, space⟩ := found
      simp only [List.forall_mem_cons, List.not_mem_nil, false_implies, implies_true, and_true,
        read_inBounds, copy_inBounds, map_inBounds]
      constructor
      · rintro ⟨-, memsz, -, -, -, file, pages, mapped⟩
        refine ⟨by omega, ?_⟩
        rintro - _ _ ⟨⟩
        exact ⟨file, pages, mapped⟩
      · rintro ⟨extent, fits⟩
        obtain ⟨file, pages, mapped⟩ := fits (Nat.not_le.mp user) physical space rfl
        exact ⟨by omega, by omega, by omega, by omega, by omega, file, pages, mapped⟩

theorem extent_ge (h : ProgramHeader) (base : Nat) : 4 ≤ segmentExtent h base := by
  unfold segmentExtent
  split <;> decide

theorem linkerHeader_in_bounds :
    (∀ a ∈ linkerHeaderAccesses whole root buffer s i, a.InBounds) ↔
      LinkerHeaderFits whole root buffer s i := by
  simp only [linkerHeaderAccesses, List.forall_mem_cons, read_inBounds]
  by_cases load : (programHeader buffer i).p_type = ptLoad
  · rw [if_pos load, segment_in_bounds]
    constructor
    · rintro ⟨-, extent, fits⟩
      exact ⟨by rw [if_pos load]; exact extent, fun _ => fits⟩
    · rintro ⟨extent, fits⟩
      rw [if_pos load] at extent
      have least := extent_ge (programHeader buffer i) dynamicLinkerBaseAddress
      exact ⟨by omega, extent, fits load⟩
  · rw [if_neg load]
    simp only [List.not_mem_nil, false_implies, implies_true, and_true]
    constructor
    · intro read
      exact ⟨by rw [if_neg load]; omega, fun is => absurd is load⟩
    · rintro ⟨extent, -⟩
      rw [if_neg load] at extent
      exact Or.inr extent

theorem header_in_bounds {t : LoadState × ProcLd}
    (first : (programHeader buffer i).p_type = ptInterp →
      t.2.ld_path = none ∧ (programHeader buffer i).p_filesz ≤ 0x1000) :
    (∀ a ∈ headerAccesses whole root buffer t i, a.InBounds) ↔
      HeaderFits whole root buffer t.1 i := by
  simp only [headerAccesses, List.forall_mem_cons, read_inBounds]
  by_cases load : (programHeader buffer i).p_type = ptLoad
  · have extent : headerExtent (programHeader buffer i) =
        segmentExtent (programHeader buffer i) 0 := if_pos load
    have interp : (programHeader buffer i).p_type ≠ ptInterp := by rw [load]; decide
    rw [if_pos load, segment_in_bounds]
    constructor
    · rintro ⟨-, table, fits⟩
      exact ⟨by rw [extent]; exact table, fun _ => fits, fun is => absurd is interp⟩
    · rintro ⟨table, fits, -⟩
      rw [extent] at table
      have least := extent_ge (programHeader buffer i) 0
      exact ⟨by omega, table, fits load⟩
  · rw [if_neg load]
    by_cases phdr : (programHeader buffer i).p_type = ptPhdr
    · have extent : headerExtent (programHeader buffer i) = 24 := by
        simp only [headerExtent, if_neg load, if_pos phdr]
      have interp : (programHeader buffer i).p_type ≠ ptInterp := by rw [phdr]; decide
      rw [if_pos phdr, List.forall_mem_singleton]
      simp only [read_inBounds]
      constructor
      · rintro ⟨-, vaddr⟩
        exact ⟨by omega, fun is => absurd is load, fun is => absurd is interp⟩
      · rintro ⟨table, -, -⟩
        exact ⟨by omega, by omega⟩
    · rw [if_neg phdr]
      by_cases interp : (programHeader buffer i).p_type = ptInterp
      · have extent : headerExtent (programHeader buffer i) = 40 := by
          simp only [headerExtent, if_neg load, if_neg phdr, if_pos interp]
        obtain ⟨missing, short⟩ := first interp
        rw [if_pos interp, missing, if_neg (by simp), List.forall_mem_cons,
          if_neg (Nat.not_lt.mpr short)]
        cases given : t.1.kmalloc (programHeader buffer i).p_filesz with
        | none =>
          simp only [List.not_mem_nil, false_implies, implies_true, and_true, read_inBounds]
          constructor
          · rintro ⟨-, filesz⟩
            refine ⟨by omega, fun is => absurd is load, fun _ found => ?_⟩
            rw [given] at found
            cases found
          · rintro ⟨table, -, -⟩
            exact ⟨by omega, by omega⟩
        | some found =>
          simp only [List.forall_mem_cons, List.not_mem_nil, false_implies, implies_true,
            and_true, read_inBounds]
          constructor
          · rintro ⟨-, filesz, -, contents⟩
            exact ⟨by omega, fun is => absurd is load, fun _ _ => contents⟩
          · rintro ⟨table, -, contents⟩
            exact ⟨by omega, by omega, by omega, contents interp (by rw [given]; rfl)⟩
      · have extent : headerExtent (programHeader buffer i) = 4 := by
          simp only [headerExtent, if_neg load, if_neg phdr, if_neg interp]
        rw [if_neg interp]
        simp only [List.not_mem_nil, false_implies, implies_true, and_true]
        constructor
        · intro read
          exact ⟨by omega, fun is => absurd is load, fun is => absurd is interp⟩
        · rintro ⟨table, -, -⟩
          omega

theorem headerStep_path {t t' : LoadState × ProcLd}
    (step : headerStep buffer root fd t i = some t') :
    ((programHeader buffer i).p_type = ptInterp → t.2.ld_path = none) ∧
      ((programHeader buffer i).p_type ≠ ptInterp → t'.2.ld_path = t.2.ld_path) := by
  obtain ⟨⟨after, pld⟩, loop, given⟩ := Option.bind_eq_some_iff.mp step
  obtain ⟨found, rfl, rfl⟩ := Option.map_eq_some_iff.mp given
  have path := loadHeaders_path loop
  simp only [linkerPath, Option.map_some] at path
  constructor
  · intro interp
    rw [if_pos interp] at path
    split at path
    · cases path
    · rename_i fresh
      exact Option.not_isSome_iff_eq_none.mp (not_or.mp fresh).1
  · intro other
    rw [if_neg other] at path
    exact Option.some.inj path

theorem turns_path {is : List Nat} {start : LoadState × ProcLd}
    (one : (interps (is.map (programHeader buffer))).length ≤ 1)
    (given : start.2.ld_path ≠ none → interps (is.map (programHeader buffer)) = []) :
    ∀ t ∈ turns (headerStep buffer root fd) is start,
      (programHeader buffer t.2).p_type = ptInterp → t.1.2.ld_path = none := by
  induction is generalizing start with
  | nil =>
    intro t turn
    cases turn
  | cons i rest ih =>
    intro t turn interp
    rw [List.map_cons] at one given
    rcases mem_turns_cons.mp turn with rfl | ⟨next, step, later⟩
    · by_contra path
      have none := given path
      rw [interps_take interp] at none
      cases none
    · obtain ⟨taken, kept⟩ := headerStep_path step
      by_cases this : (programHeader buffer i).p_type = ptInterp
      · rw [interps_take this, List.length_cons] at one
        have empty : interps (rest.map (programHeader buffer)) = [] :=
          List.length_eq_zero_iff.mp (by omega)
        exact ih (by omega) (fun _ => empty) t later interp
      · rw [interps_skip this] at one given
        refine ih one (fun path => given ?_) t later interp
        rwa [← kept this]

theorem loadHeaders_foldlM {is : List Nat}
    (loop : loadHeaders buffer root fd (is.map (programHeader buffer)) s pld =
      some (s', some pld')) :
    is.foldlM (headerStep buffer root fd) (s, pld) = some (s', pld') := by
  induction is generalizing s pld with
  | nil =>
    cases loop
    rfl
  | cons i rest ih =>
    rw [List.map_cons, loadHeaders] at loop
    rw [List.foldlM_cons]
    simp only [headerStep, loadHeaders]
    split at loop
    · rename_i load
      obtain ⟨after, segment, later⟩ := Option.bind_eq_some_iff.mp loop
      simp only [if_pos load, segment, Option.bind_eq_bind, Option.bind_some, Option.map_some]
      exact ih later
    · rename_i load
      simp only [if_neg load]
      split at loop
      · rename_i phdr
        simp only [if_pos phdr, Option.bind_eq_bind, Option.bind_some, Option.map_some]
        exact ih loop
      · rename_i phdr
        simp only [if_neg phdr]
        split at loop
        · rename_i interp
          simp only [if_pos interp]
          split at loop
          · cases loop
          · rename_i fresh
            simp only [if_neg fresh]
            split at loop
            · cases loop
            · rename_i short
              obtain ⟨given, found, later⟩ := Option.bind_eq_some_iff.mp loop
              simp only [if_neg short, found, Option.bind_eq_bind, Option.bind_some,
                Option.map_some]
              exact ih later
        · rename_i other
          simp only [if_neg other, Option.bind_eq_bind, Option.bind_some, Option.map_some]
          exact ih loop

theorem headerTurns_all
    (loop : loadHeaders buffer root fd (programHeaders buffer) s ⟨0, none⟩ =
      some (s', some pld)) :
    (headerTurns buffer root fd s).map Prod.snd = List.range (ePhnum buffer) :=
  turns_all (loadHeaders_foldlM loop)

theorem linker_named {path : List UInt8}
    (loop : loadHeaders buffer root fd (programHeaders buffer) s ⟨0, none⟩ =
      some (s', some pld)) (given : pld.ld_path = some path) :
    ∃ h ∈ programHeaders buffer, h.p_type = ptInterp ∧ path = interpPath buffer h := by
  have found := (loadHeaders_path loop).trans linkerPath_none
  rw [Option.map_some, given] at found
  match which : interps (programHeaders buffer) with
  | [] =>
    rw [which] at found
    cases found
  | [h] =>
    rw [which] at found
    dsimp only at found
    split at found
    · cases found
    · have self := mem_interps.mp (which ▸ List.mem_singleton_self h)
      exact ⟨h, self.1, self.2, Option.some.inj (Option.some.inj found)⟩
  | _ :: _ :: _ =>
    rw [which] at found
    cases found

theorem flatMap_in_bounds {τ : Type} {ts : List τ} {f : τ → List Access} :
    (∀ a ∈ ts.flatMap f, a.InBounds) ↔ ∀ t ∈ ts, ∀ a ∈ f t, a.InBounds := by
  simp only [List.mem_flatMap, forall_exists_index, and_imp]
  exact ⟨fun all t turn a member => all a t turn member,
    fun all a t turn member => all t turn a member⟩

theorem linker_in_bounds {f : FileView} (file : LinkerFile f) (header : 58 ≤ size) :
    (∀ a ∈ linkerAccesses size root f s, a.InBounds) ↔
      58 ≤ f.size.toNat ∧ ∀ t ∈ linkerTurns f root s,
        LinkerHeaderFits f.size.toNat root f.contents t.1 t.2 := by
  simp only [linkerAccesses, file.magic, file.type, Bool.not_true,
    Bool.false_eq_true, if_false, ne_eq, not_true, List.forall_mem_cons, List.forall_mem_append,
    flatMap_in_bounds, linkerHeader_in_bounds, read_inBounds]
  constructor
  · rintro ⟨-, -, -, ⟨⟨-, phnum, -⟩, fits⟩, -⟩
    exact ⟨by omega, fits⟩
  · rintro ⟨whole, fits⟩
    refine ⟨by omega, by omega, by omega, ⟨⟨by omega, by omega, by simp⟩, fits⟩, ?_⟩
    split
    · simp
    · split
      · simp
      · rw [List.forall_mem_singleton, read_inBounds]
        omega

theorem tail_in_bounds (header : 58 ≤ size)
    (linker : ∀ path, pld.ld_path = some path → LinkerFile (files path)) :
    (∀ a ∈ tailAccesses files root size s pld, a.InBounds) ↔
      ∀ f space, linkerOpened files s pld = some (f, space) →
        58 ≤ f.size.toNat ∧ ∀ t ∈ linkerTurns f root space,
          LinkerHeaderFits f.size.toNat root f.contents t.1 t.2 := by
  rw [tailAccesses, linkerOpened]
  cases s.kmalloc sizeofVectors with
  | none => simp
  | some given =>
    obtain ⟨vectors, s⟩ := given
    have reads : ∀ a ∈ [Access.read size 24 8, .read size 54 2, .read size 56 2], a.InBounds := by
      simp only [List.forall_mem_cons, List.not_mem_nil, false_implies, implies_true, and_true,
        read_inBounds]
      omega
    dsimp only
    rw [List.forall_mem_append, and_iff_right reads, Option.bind_eq_bind, Option.bind_some]
    cases named : pld.ld_path with
    | none => simp
    | some path =>
      have file := linker path named
      dsimp only
      rw [Option.bind_eq_bind, Option.bind_some]
      cases opened : elfOpenFile (files path) s with
      | none => simp
      | some given =>
        obtain ⟨number, space⟩ := given
        have numbered := (elfOpenFile_ne_zero opened).1.mpr ⟨file.opened, file.sized⟩
        simp only [if_neg numbered, Option.bind_eq_bind, Option.bind_some, Option.some.injEq,
          Prod.mk.injEq, linker_in_bounds file header]
        constructor
        · rintro fits f s' ⟨rfl, rfl⟩
          exact fits
        · intro fits
          exact fits _ _ ⟨rfl, rfl⟩

/-- Loading an accepted file touches nothing out of bounds exactly when the file and its linker
    fit: the loader checks none of it but where a segment starts. -/
theorem elf_load_in_bounds_iff (accepted : Acceptable files buffer) :
    (∀ a ∈ loadAccesses files root fd buffer size s, a.InBounds) ↔
      LoadFits files root fd buffer size s := by
  have headers : (∀ t ∈ headerTurns buffer root fd s,
      ∀ a ∈ headerAccesses size root buffer t.1 t.2, a.InBounds) ↔
        ∀ t ∈ headerTurns buffer root fd s, HeaderFits size root buffer t.1.1 t.2 := by
    refine forall₂_congr fun t turn => header_in_bounds fun interp => ?_
    have member : programHeader buffer t.2 ∈ programHeaders buffer :=
      List.mem_map_of_mem (turn_mem turn)
    exact ⟨turns_path accepted.one (absurd rfl) t turn interp,
      accepted.short _ member interp⟩
  have tail {s' : LoadState} {pld : ProcLd} (header : 58 ≤ size)
      (loop : loadHeaders buffer root fd (programHeaders buffer) s ⟨0, none⟩ =
        some (s', some pld)) :=
    @tail_in_bounds size root s' pld files header fun path given => by
      obtain ⟨h, member, interp, rfl⟩ := linker_named loop given
      exact accepted.linker h member interp
  simp only [loadAccesses, accepted.magic, accepted.type, Bool.not_true, Bool.false_eq_true,
    if_false, ne_eq, not_true, List.forall_mem_cons, List.forall_mem_append, flatMap_in_bounds,
    headers, read_inBounds]
  constructor
  · rintro ⟨-, -, -, ⟨⟨-, phnum, -⟩, fits⟩, rest⟩
    refine ⟨by omega, fits, ?_⟩
    intro s' pld f space loop opened
    rw [loop] at rest
    exact (tail (by omega) loop).mp rest f space opened
  · rintro ⟨header, fits, linker⟩
    refine ⟨by omega, by omega, by omega, ⟨⟨by omega, by omega, by simp⟩, fits⟩, ?_⟩
    split
    · rename_i s' pld loop
      exact (tail header loop).mpr fun f space => linker s' pld f space loop
    · simp

theorem acceptable_of_plain (magic : parseElfFile buffer = true)
    (class64 : isElfClass32 buffer = false) (type : eType buffer = etExec)
    (plain : ∀ h ∈ programHeaders buffer, h.p_type ≠ ptInterp) : Acceptable files buffer where
  magic := magic
  class64 := class64
  type := type
  one := by
    rw [List.filter_eq_nil_iff.mpr fun h member => by simpa using plain h member]
    exact Nat.zero_le 1
  short := fun h member interp => absurd interp (plain h member)
  linker := fun h member interp => absurd interp (plain h member)

end Bounds

def oneSegment (vaddr filesz memsz : List UInt8) : Mem := fun a =>
  ([0x7f, 0x45, 0x4c, 0x46, 2, 1, 1, 0, 0, 0, 0, 0, 0, 0, 0, 0, 2, 0, 0x3e, 0, 1, 0, 0, 0,
    0, 0, 0x40, 0, 0, 0, 0, 0, 64, 0, 0, 0, 0, 0, 0, 0, 0, 0, 0, 0, 0, 0, 0, 0,
    0, 0, 0, 0, 64, 0, 56, 0, 1, 0, 0, 0, 0, 0, 0, 0,
    1, 0, 0, 0, 5, 0, 0, 0, 0, 0, 0, 0, 0, 0, 0, 0] ++ vaddr ++ vaddr ++ filesz ++ memsz ++
    [0, 0x10, 0, 0, 0, 0, 0, 0]).getD a 0

def newSpace : LoadState :=
  ⟨⟨fun _ _ => 0, [0x2000, 0x3000, 0x4000, 0x5000, 0x6000, 0x7000]⟩, [(0x1000, [])], [],
    [⟨0x100000, 0x2000⟩, ⟨0x102000, 0x1000⟩, ⟨0x103000, 0x1000⟩]⟩

def noFiles : List UInt8 → FileView := fun _ => ⟨-1, 0, 0, fun _ => 0⟩

def smallSegment : Mem :=
  oneSegment [0, 0, 0x40, 0, 0, 0, 0, 0] [120, 0, 0, 0, 0, 0, 0, 0] [120, 0, 0, 0, 0, 0, 0, 0]

def wideSegment : Mem :=
  oneSegment [0, 0xf0, 0xff, 0xff, 0xff, 0x7f, 0, 0] [0, 0x30, 0, 0, 0, 0, 0, 0]
    [0, 0x20, 0, 0, 0, 0, 0, 0]

theorem smallSegment_acceptable : Acceptable noFiles smallSegment :=
  acceptable_of_plain (by decide) (by decide) (by decide) (by decide)

theorem wideSegment_acceptable : Acceptable noFiles wideSegment :=
  acceptable_of_plain (by decide) (by decide) (by decide) (by decide)

theorem elf_load_in_bounds_small : Acceptable noFiles smallSegment ∧
    (elfLoadElf noFiles 0x1000 3 smallSegment newSpace).isSome ∧
    ∀ a ∈ loadAccesses noFiles 0x1000 3 smallSegment 120 newSpace, a.InBounds := by
  refine ⟨smallSegment_acceptable, by decide +kernel,
    (elf_load_in_bounds_iff smallSegment_acceptable).mpr ?_⟩
  refine ⟨by decide, ?_, ?_⟩
  · rintro t turn
    rw [headerTurns, show ePhnum smallSegment = 1 by decide] at turn
    rcases mem_turns_cons.mp turn with rfl | ⟨_, -, later⟩
    · refine ⟨by decide, fun _ _ physical s' given => ?_, by decide⟩
      rw [show segmentSize (programHeader smallSegment 0) = 0x1000 by decide +kernel] at given
      cases given
      exact ⟨by decide, by decide, by decide +kernel⟩
    · cases later
  · intro s' pld f space loop opened
    obtain ⟨_, -, opened⟩ := Option.bind_eq_some_iff.mp opened
    obtain ⟨path, given, -⟩ := Option.bind_eq_some_iff.mp opened
    obtain ⟨h, member, interp, -⟩ := linker_named loop given
    have plain : ∀ h ∈ programHeaders smallSegment, h.p_type ≠ ptInterp := by decide
    exact absurd interp (plain h member)

/-- The file ends long before the bytes that are copied, which do not fit the pages, and the
    second page is the first of the kernel's half. -/
theorem elf_load_out_of_bounds : Acceptable noFiles wideSegment ∧
    [.read 120 0 0x3000, .copy 0x2000 0 0x3000, .map 0x7ffffffff000 0x2000] ⊆
      loadAccesses noFiles 0x1000 3 wideSegment 120 newSpace ∧
    ¬ (Access.read 120 0 0x3000).InBounds ∧ ¬ (Access.copy 0x2000 0 0x3000).InBounds ∧
    ¬ (Access.map 0x7ffffffff000 0x2000).InBounds := by
  refine ⟨wideSegment_acceptable, ?_, by decide, by decide, by decide⟩
  have first : ((newSpace, ⟨0, none⟩), 0) ∈ headerTurns wideSegment 0x1000 3 newSpace := by
    rw [headerTurns, show ePhnum wideSegment = 1 by decide]
    exact mem_turns_cons.mpr (Or.inl rfl)
  have segment : headerAccesses 120 0x1000 wideSegment (newSpace, ⟨0, none⟩) 0 =
      [.read 120 64 4, .read 120 80 8, .read 120 104 8, .read 120 68 4, .read 120 72 8,
        .read 120 96 8] ++
      [.read 120 0 0x3000, .copy 0x2000 0 0x3000, .map 0x7ffffffff000 0x2000] := by
    decide +kernel
  intro a member
  have touched : a ∈ headerAccesses 120 0x1000 wideSegment (newSpace, ⟨0, none⟩) 0 := by
    rw [segment]
    exact List.mem_append_right _ member
  simp only [loadAccesses, wideSegment_acceptable.magic, wideSegment_acceptable.type,
    Bool.not_true, Bool.false_eq_true, if_false, ne_eq, not_true, List.mem_cons,
    List.mem_append]
  exact Or.inr (Or.inr (Or.inr (Or.inl (Or.inr (List.mem_flatMap.mpr ⟨_, first, touched⟩)))))

end OmenProcess.ElfBounds
