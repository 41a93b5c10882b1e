import Omen.Process.ForkMemory

/- The fault in the guard of a stack. `grow_stack` asks `vmm_grow_stack` for the size of the
   stack and `STACK_GROWTH_SIZE` on top of it, all of it below the old base, and then records
   only `STACK_GROWTH_SIZE` more: the stack moves down, and out of its old place. -/
namespace OmenProcess.StackGrowth
open RadixTable OmenMemory

structure GuardFault (areas : List VmArea) (address : Nat) (vma : VmArea) : Prop where
  found : isInVmarea areas address = some vma
  unshared : ¬ (vma.HasWrite ∧ vma.HasShared)
  uncopied : ¬ (vma.HasWrite ∧ vma.HasCow)
  user : vma.HasUser
  guard : vma.HasStackGuard

structure AlignedStack (t : Task) : Prop where
  aligned : t.ustack_base % 0x1000 = 0
  base : t.ustack_base < wordSize
  size : t.ustack_size < wordSize
  guard : t.ustack_guard_size < wordSize

def readByte (m : Machine) (root address : Nat) : Option UInt8 :=
  (walkTables m.paging.tables root address).map m.memory

structure RecordedStack (t : Task) (guard stack : VmArea) (others : List VmArea) : Prop where
  areas : t.vm_areas = guard :: stack :: others
  start : stack.start = t.ustack_base
  end_ : stack.end_ = t.ustack_base + t.ustack_size
  marked : guard.HasStackGuard
  below : guard.start + t.ustack_guard_size = t.ustack_base
  meets : guard.end_ = t.ustack_base
  apart : ∀ a ∈ stack :: others, a.Apart guard

structure GrownInPlace (m : Machine) (t : Task) (m' : Machine) (t' : Task) : Prop where
  top : t'.ustack_base + t'.ustack_size = t.ustack_base + t.ustack_size
  contents : ∀ address, t.ustack_base ≤ address → address < t.ustack_base + t.ustack_size →
    readByte m' t'.vmm address = readByte m t.vmm address
  extended : t'.ustack_base + stackGrowthSize = t.ustack_base
  recorded : ∃ guard stack others, RecordedStack t' guard stack others

def otherAreas (t : Task) : List VmArea :=
  removeVmarea (removeVmarea t.vm_areas
    ((t.ustack_base + wordSize - t.ustack_guard_size) % wordSize)) t.ustack_base

/-- Nothing is on the stack, and its new place and the guard below are free. -/
structure EmptyStack (t : Task) : Prop where
  empty : t.ustack_size = 0
  room : stackGrowthSize + t.ustack_guard_size ≤ t.ustack_base
  free : ∀ a ∈ otherAreas t, ∀ address,
    t.ustack_base ≤ address + stackGrowthSize + t.ustack_guard_size →
    address + stackGrowthSize < t.ustack_base → ¬ a.Contains address

def grownSize (t : Task) : Nat := (t.ustack_size + stackGrowthSize) % wordSize

def lowering (t : Task) : Nat := (grownSize t + 0xfff) % wordSize / 0x1000 * 0x1000

def grownBase (t : Task) : Nat :=
  if grownSize t = 0 then 0 else (t.ustack_base + wordSize - lowering t) % wordSize

def grownGuard (t : Task) : VmArea where
  start := (grownBase t + wordSize - t.ustack_guard_size) % wordSize
  end_ := grownBase t
  flags := 0x2
  extended_flags := 0x10
  page_size := pageSize4KiB
  fd := -1
  offset := 0

def grownArea (t : Task) : VmArea where
  start := grownBase t
  end_ := (grownBase t + grownSize t) % wordSize
  flags := 0x3
  extended_flags := 0
  page_size := pageSize4KiB
  fd := -1
  offset := 0

section Growth
variable {m m' : Machine} {t t' : Task} {address : Nat} {vma : VmArea}

theorem growStack_inv (grown : growStack m t = some (m', t')) :
    t' = { t with
      vm_areas := grownGuard t :: grownArea t :: otherAreas t
      ustack_base := grownBase t
      ustack_size := grownSize t } := by
  simp only [growStack, Option.bind_eq_bind, Option.bind_eq_some_iff, Option.some.injEq] at grown
  obtain ⟨⟨base, after⟩, moved, same⟩ := grown
  have lowered : base = grownBase t := by
    simp only [Machine.vmmGrowStack, Option.bind_eq_bind] at moved
    unfold grownBase lowering grownSize
    split at moved
    · rename_i none
      rw [if_pos none]
      exact (congrArg Prod.fst (Option.some.inj moved)).symm
    · rename_i some
      rw [if_neg some]
      simp only [Option.bind_eq_some_iff, Option.some.injEq] at moved
      obtain ⟨⟨physical, m₁⟩, -, m₂, -, m₃, -, moved⟩ := moved
      exact (congrArg Prod.fst moved).symm
  rw [grownGuard, grownArea, ← lowered]
  exact (congrArg Prod.snd same).symm

theorem guardFault_grows (fault : GuardFault t.vm_areas address vma)
    (handled : pageFaultHandler m t address = some (m', t')) : growStack m t = some (m', t') := by
  unfold pageFaultHandler at handled
  rw [fault.found] at handled
  dsimp only at handled
  rwa [if_neg fault.unshared, if_neg fault.uncopied, if_pos ⟨fault.user, fault.guard⟩] at handled

/-- The stack is extended by `STACK_GROWTH_SIZE` only when it was empty. -/
theorem grownBase_iff (stack : AlignedStack t) :
    grownBase t + stackGrowthSize = t.ustack_base ∧
      grownSize t = t.ustack_size + stackGrowthSize ↔
    t.ustack_size = 0 ∧ stackGrowthSize ≤ t.ustack_base := by
  have base := stack.base
  have size := stack.size
  unfold grownBase lowering grownSize
  unfold wordSize stackGrowthSize at *
  split
  · omega
  · omega

theorem below_iff {base guard : Nat} (word : base < wordSize) (less : guard < wordSize) :
    (base + wordSize - guard) % wordSize + guard = base ↔ guard ≤ base := by
  unfold wordSize at *
  omega

/-- A guard-page fault leaves the stack in its place exactly when the stack was empty and the
    place for the new guard is free. -/
theorem stack_in_place_iff (stack : AlignedStack t) (fault : GuardFault t.vm_areas address vma)
    (handled : pageFaultHandler m t address = some (m', t')) :
    GrownInPlace m t m' t' ↔ EmptyStack t := by
  obtain rfl := growStack_inv (guardFault_grows fault handled)
  have word := stack.base
  constructor
  · rintro ⟨top, -, extended, guard, area, others, recorded⟩
    dsimp only at top extended
    obtain ⟨empty, room⟩ := (grownBase_iff stack).mp ⟨extended, by omega⟩
    obtain ⟨areas, -, -, -, below, -, apart⟩ := recorded
    obtain ⟨rfl, rest⟩ := List.cons.inj areas
    obtain ⟨rfl, rfl⟩ := List.cons.inj rest
    dsimp only [grownGuard] at below
    have fits := (below_iff (by omega) stack.guard).mp below
    refine ⟨empty, by omega, ?_⟩
    intro a other address low high inside
    refine apart a (List.mem_cons_of_mem _ other) address ⟨inside, ?_⟩
    dsimp only [VmArea.Contains, grownGuard]
    omega
  · rintro ⟨empty, room, free⟩
    obtain ⟨extended, size⟩ := (grownBase_iff stack).mpr ⟨empty, by omega⟩
    have below := (below_iff (show grownBase t < wordSize by omega) stack.guard).mpr (by omega)
    refine ⟨?_, fun address low high => absurd low (by omega), ?_,
      grownGuard t, grownArea t, otherAreas t, ?_⟩
    · dsimp only
      omega
    · dsimp only
      omega
    have marked : (grownGuard t).HasStackGuard := (by decide : (0x10 &&& 0x10 : Nat) ≠ 0)
    refine ⟨rfl, rfl, ?_, marked, ?_, rfl, ?_⟩
    · dsimp only [grownArea]
      exact Nat.mod_eq_of_lt (by omega)
    · dsimp only [grownGuard]
      exact below
    · intro a member address both
      obtain ⟨inside, start, stop⟩ := both
      dsimp only [grownGuard] at start stop
      rcases List.mem_cons.mp member with rfl | other
      · obtain ⟨above, -⟩ := inside
        dsimp only [grownArea] at above
        omega
      · exact free a other address (by omega) (by omega) inside

end Growth

def stackMachine : Machine where
  paging := ⟨shmTables, [0x10000, 0x11000, 0x12000, 0x13000]⟩
  directories := [(0x1000, [⟨vmmRegionUShmMmap, 0x7000, 0x1000⟩])]
  memory := fun p => UInt8.ofNat p
  blocks := [(0x20000, 0x20000)]

def stackGuard : VmArea :=
  ⟨vmmRegionUShmMmap - 0x1000, vmmRegionUShmMmap, 0x2, 0x10, pageSize4KiB, -1, 0⟩

def stackTask (size : Nat) : Task where
  vmm := 0x1000
  vm_areas :=
    [stackGuard, ⟨vmmRegionUShmMmap, vmmRegionUShmMmap + size, 0x3, 0, pageSize4KiB, -1, 0⟩]
  ustack_base := vmmRegionUShmMmap
  ustack_size := size
  ustack_guard_size := 0x1000
  kstack_base := 0
  kstack_size := 0
  altstack_base := 0
  altstack_size := 0

theorem stackTask_fault (size : Nat) :
    GuardFault (stackTask size).vm_areas (vmmRegionUShmMmap - 8) stackGuard :=
  ⟨rfl, by decide, by decide, by decide, by decide⟩

/-- An empty stack. -/
theorem stack_in_place_empty : ∃ m' t',
    pageFaultHandler stackMachine (stackTask 0) (vmmRegionUShmMmap - 8) = some (m', t') ∧
      GrownInPlace stackMachine (stackTask 0) m' t' := by
  have found : (pageFaultHandler stackMachine (stackTask 0) (vmmRegionUShmMmap - 8)).isSome := by
    decide +kernel
  obtain ⟨⟨m', t'⟩, handled⟩ := Option.isSome_iff_exists.mp found
  have stack : AlignedStack (stackTask 0) := ⟨by decide, by decide, by decide, by decide⟩
  refine ⟨m', t', handled,
    (stack_in_place_iff stack (stackTask_fault 0) handled).mpr ⟨rfl, by decide, ?_⟩⟩
  intro a member
  cases member

/-- A stack of 24 bytes: they are left behind, above the stack that is recorded. -/
theorem stack_moves_down : ∃ m' t', AlignedStack (stackTask 0x18) ∧
    GuardFault (stackTask 0x18).vm_areas (vmmRegionUShmMmap - 8) stackGuard ∧
      pageFaultHandler stackMachine (stackTask 0x18) (vmmRegionUShmMmap - 8) = some (m', t') ∧
      t'.ustack_base + t'.ustack_size < (stackTask 0x18).ustack_base ∧
      ¬ GrownInPlace stackMachine (stackTask 0x18) m' t' := by
  have found : ((pageFaultHandler stackMachine (stackTask 0x18)
      (vmmRegionUShmMmap - 8)).map fun r => r.2.ustack_base + r.2.ustack_size) =
        some (vmmRegionUShmMmap - 0xfe8) := by
    decide +kernel
  obtain ⟨⟨m', t'⟩, handled, top⟩ := Option.map_eq_some_iff.mp found
  dsimp only at top
  have lower : t'.ustack_base + t'.ustack_size < (stackTask 0x18).ustack_base := by
    rw [top]
    decide
  have stack : AlignedStack (stackTask 0x18) := ⟨by decide, by decide, by decide, by decide⟩
  refine ⟨m', t', stack, stackTask_fault 0x18, handled, lower, fun grown => ?_⟩
  exact absurd (grown.top.symm.le.trans_lt lower) (by decide)

end OmenProcess.StackGrowth
