import Omen.Library.RadixTable
import Omen.Memory.PageWalkers
import Omen.Memory.PageMapping
import Omen.Memory.PageStores
import Omen.Process.ElfLoader

/- The memory of a process in `PageFault_Handler`: shared areas, areas that are copied when they
   are written, and the guard of the stack. A panic has no result. The file behind an area and the
   rest of the process are left out. -/
namespace OmenProcess
open ByteMemory RadixTable OmenMemory

/-- The memory of the machine. `pmm_alloc` will hand out the blocks, known by address and
    length; the nodes of the allocation lists are not taken from them. -/
structure Machine where
  paging : Paging
  directories : Directories
  memory : Mem
  blocks : List (Nat × Nat)

def alterMapping (mapping : VmmMapping) : List VmmMapping → Option (List VmmMapping)
  | [] => none
  | m :: rest =>
    if m.virtual_address = mapping.virtual_address then some (mapping :: rest)
    else (alterMapping mapping rest).map (m :: ·)

def alterAllocation (root : Nat) (mapping : VmmMapping) : Directories → Option Directories
  | [] => none
  | (pd, mappings) :: rest =>
    if pd = root then (alterMapping mapping mappings).map fun altered => (pd, altered) :: rest
    else (alterAllocation root mapping rest).map ((pd, mappings) :: ·)

def VmArea.size (a : VmArea) : Nat := (a.end_ + wordSize - a.start) % wordSize

def VmArea.HasWrite (a : VmArea) : Prop := a.flags &&& 0x1 ≠ 0

def VmArea.HasUser (a : VmArea) : Prop := a.flags &&& 0x2 ≠ 0

def VmArea.HasCow (a : VmArea) : Prop := a.extended_flags &&& 0x1 ≠ 0

def VmArea.HasShared (a : VmArea) : Prop := a.extended_flags &&& 0x2 ≠ 0

def VmArea.HasStackGuard (a : VmArea) : Prop := a.extended_flags &&& 0x10 ≠ 0

instance (a : VmArea) : Decidable a.HasWrite := inferInstanceAs (Decidable (_ ≠ _))

instance (a : VmArea) : Decidable a.HasUser := inferInstanceAs (Decidable (_ ≠ _))

instance (a : VmArea) : Decidable a.HasCow := inferInstanceAs (Decidable (_ ≠ _))

instance (a : VmArea) : Decidable a.HasShared := inferInstanceAs (Decidable (_ ≠ _))

instance (a : VmArea) : Decidable a.HasStackGuard := inferInstanceAs (Decidable (_ ≠ _))

namespace Machine

/-- A block of the right length, or no result where the source gets NULL. -/
def pmmAlloc (m : Machine) (size : Nat) : Option (Nat × Machine) :=
  match m.blocks with
  | [] => none
  | (physical, length) :: rest =>
    if size ≤ length then some (physical, { m with blocks := rest }) else none

def mapRange (m : Machine) (root virtual physical pageSize size flags : Nat) : Option Machine := do
  let paging ← m.paging.mapPages root virtual physical pageSize size flags
  let directories ← insertAllocation root ⟨virtual, physical, size⟩ m.directories
  some { m with paging, directories }

def remapRange (m : Machine) (root virtual physical pageSize size flags : Nat) :
    Option Machine := do
  let paging ← m.paging.mapPages root virtual physical pageSize size flags
  let directories ← alterAllocation root ⟨virtual, physical, size⟩ m.directories
  some { m with paging, directories }

def mprotect (m : Machine) (root address size flags : Nat) : Option Machine := do
  let tables ← OmenMemory.mprotect m.paging.tables root address size flags
  some { m with paging := { m.paging with tables } }

def copyFrom (m : Machine) (root physical virtual size : Nat) : Option Machine :=
  if ∀ k < size, (walkTables m.paging.tables root (virtual + k)).isSome then
    some { m with memory := memcpy m.memory physical (fun k =>
      m.memory ((walkTables m.paging.tables root (virtual + k)).getD 0)) size }
  else none

def remapAllocateCow (m : Machine) (root start size pageSize flags : Nat) : Option Machine := do
  let (physical, m) ← m.pmmAlloc size
  let old := (getPhysicalAddress m.paging.tables root start).getD 0
  let m := { m with memory := memcpy m.memory physical blank size }
  let m ← m.remapRange root start physical pageSize size (flags ||| 0x1)
  some { m with memory := memcpy m.memory physical (advance m.memory old) size }

end Machine

structure Task where
  vmm : Nat
  vm_areas : List VmArea
  ustack_base : Nat
  ustack_size : Nat
  ustack_guard_size : Nat
  kstack_base : Nat
  kstack_size : Nat
  altstack_base : Nat
  altstack_size : Nat

def stackGrowthSize : Nat := 0x10000

def Machine.vmmGrowStack (m : Machine) (root base originalSize guardSize sizeIncrease : Nat) :
    Option (Nat × Machine) :=
  let flags := getPagePerms m.paging.tables root base
  if sizeIncrease = 0 then some (0, m)
  else do
    let sizeIncrease := (sizeIncrease + 0xfff) % wordSize / 0x1000 * 0x1000
    let newSize := (originalSize + sizeIncrease) % wordSize
    let (physical, m) ← m.pmmAlloc ((newSize + guardSize) % wordSize)
    let m ← m.copyFrom root (physical + guardSize + sizeIncrease) base originalSize
    let newBase := (base + wordSize - sizeIncrease) % wordSize
    let m ← m.mapRange root newBase (physical + guardSize) pageSize4KiB newSize flags
    some (newBase, m)

def growStack (m : Machine) (task : Task) : Option (Machine × Task) := do
  let size := (task.ustack_size + stackGrowthSize) % wordSize
  let (base, m) ← m.vmmGrowStack task.vmm task.ustack_base task.ustack_size
    task.ustack_guard_size size
  let guard := (task.ustack_base + wordSize - task.ustack_guard_size) % wordSize
  let areas := removeVmarea (removeVmarea task.vm_areas guard) task.ustack_base
  let areas := createVmarea areas ⟨base, (base + size) % wordSize, 0x3, 0, pageSize4KiB, -1, 0⟩
  let areas := createVmarea areas
    ⟨(base + wordSize - task.ustack_guard_size) % wordSize, base, 0x2, 0x10, pageSize4KiB, -1, 0⟩
  some (m, { task with vm_areas := areas, ustack_base := base, ustack_size := size })

def updateVmarea (areas : List VmArea) (address extended_flags : Nat) : List VmArea :=
  areas.modify (areas.findIdx fun a => a.Contains address) fun a => { a with extended_flags }

def pageFaultHandler (m : Machine) (task : Task) (address : Nat) : Option (Machine × Task) :=
  match isInVmarea task.vm_areas address with
  | none => none
  | some vma =>
    if vma.HasWrite ∧ vma.HasShared then do
      let areas := updateVmarea task.vm_areas address (vma.extended_flags ||| 0x8)
      let m ← m.mprotect task.vmm address vma.page_size vma.flags
      some (m, { task with vm_areas := areas })
    else if vma.HasWrite ∧ vma.HasCow then do
      let m ← m.remapAllocateCow task.vmm vma.start vma.size vma.page_size vma.flags
      let areas := updateVmarea task.vm_areas address (vma.extended_flags &&& 0xfe)
      some (m, { task with vm_areas := areas })
    else if vma.HasUser ∧ vma.HasStackGuard then growStack m task
    else none

end OmenProcess
