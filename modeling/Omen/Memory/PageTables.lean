import Omen.Library.RadixTable
import Mathlib.Algebra.Group.Nat.Defs

/- `map_address` and `get_physical_address` of `vmm.c` over the entries of `vm.h`. Tables are
   known by their physical addresses, at which the identity map shows them. A panic has no
   result. -/
namespace OmenMemory
open RadixTable

abbrev VmEntry := BitVec 64

def bitField (e : VmEntry) (low width : Nat) : Nat := (e.toNat >>> low) % 2 ^ width

/-- The store of a bit field: the value loses the bits it has no room for. -/
def setBitField (e : VmEntry) (low width value : Nat) : VmEntry :=
  let mask := BitVec.ofNat 64 (2 ^ width - 1) <<< low
  (e &&& ~~~mask) ||| ((BitVec.ofNat 64 value <<< low) &&& mask)

def isPresent (e : VmEntry) : Bool := bitField e 0 1 == 1

def isPs (e : VmEntry) : Bool := bitField e 7 1 == 1

def getPdppDir (e : VmEntry) : Nat := bitField e 12 28 <<< 12

structure VmmPerms where
  read_write : Bool
  user : Bool
  write_through : Bool
  cache_disable : Bool
  no_execute : Bool

/-- The flag for global pages goes into no entry and is left out. -/
def flagsToPerms (flags : Nat) : VmmPerms where
  read_write := flags &&& 0x1 != 0
  user := flags &&& 0x2 != 0
  write_through := flags &&& 0x4 != 0
  cache_disable := flags &&& 0x8 != 0
  no_execute := flags &&& 0x20 != 0

def pageSize1GiB : Nat := 0x40000000

def pageSize2MiB : Nat := 0x200000

def pageSize4KiB : Nat := 0x1000

def pageSizeDir : Nat := 0x1

def resetFields (e : VmEntry) (perms : VmmPerms) : VmEntry :=
  let e := setBitField e 0 1 1
  let e := setBitField e 1 1 perms.read_write.toNat
  let e := setBitField e 2 1 perms.user.toNat
  let e := setBitField e 3 1 perms.write_through.toNat
  let e := setBitField e 4 1 perms.cache_disable.toNat
  let e := setBitField e 5 1 0
  let e := setBitField e 6 1 0
  let e := setBitField e 7 1 0
  let e := setBitField e 8 3 0
  let e := setBitField e 11 1 0
  let e := setBitField e 12 28 0
  let e := setBitField e 40 12 0
  let e := setBitField e 52 11 0
  setBitField e 63 1 perms.no_execute.toNat

def initEntry (e : VmEntry) (size pagePpn : Nat) (perms : VmmPerms) : Option VmEntry :=
  if size = pageSize1GiB ∧ pagePpn &&& 0x3fffffff ≠ 0 then none
  else if size = pageSize2MiB ∧ pagePpn &&& 0x1fffff ≠ 0 then none
  else if size = pageSize4KiB ∧ pagePpn &&& 0xfff ≠ 0 then none
  else
    let e := resetFields e perms
    some <|
      if size = pageSize1GiB then setBitField (setBitField e 7 1 1) 30 10 (pagePpn >>> 30)
      else if size = pageSize2MiB then setBitField (setBitField e 7 1 1) 21 19 (pagePpn >>> 21)
      -- regular and directory entries keep the address in the same bits
      else setBitField e 12 28 (pagePpn >>> 12)

def ptIndex (address : Nat) : Nat := address >>> 12 &&& 0x1ff

def pdIndex (address : Nat) : Nat := address >>> 21 &&& 0x1ff

def pdpIndex (address : Nat) : Nat := address >>> 30 &&& 0x1ff

def pml4Index (address : Nat) : Nat := address >>> 39 &&& 0x1ff

def vmmRegionKHeap : Nat := 0xFFFFA00000000000

def vmmRegionKIdent : Nat := 0xFFFFB00000000000

def vmmRegionDevices : Nat := 0xFFFFC00000000000

def vmmRegionUVdso : Nat := 0xFFFFD00000000000

def vmmRegionSize : Nat := 0x000000F000000000

def kRegions : List Nat := [vmmRegionKIdent, vmmRegionKHeap, vmmRegionDevices, vmmRegionUVdso]

def checkKRegions (address : Nat) : Nat :=
  match kRegions.find? fun region => region < address && address < region + vmmRegionSize with
  | some region => address - region
  | none => 0

def walkTables (tables : Tables VmEntry) (root address : Nat) : Option Nat :=
  let pml4 := tables root (pml4Index address)
  if !isPresent pml4 then none
  else
    let pdp := tables (getPdppDir pml4) (pdpIndex address)
    if !isPresent pdp then none
    else if isPs pdp then some (bitField pdp 30 10 <<< 30 ||| address &&& 0x3fffffff)
    else
      let pd := tables (getPdppDir pdp) (pdIndex address)
      if !isPresent pd then none
      else if isPs pd then some (bitField pd 21 19 <<< 21 ||| address &&& 0x1fffff)
      else
        let pt := tables (getPdppDir pd) (ptIndex address)
        if !isPresent pt then none
        else some (bitField pt 12 28 <<< 12 ||| address &&& 0xfff)

def getPhysicalAddress (tables : Tables VmEntry) (root address : Nat) : Option Nat :=
  if checkKRegions address ≠ 0 then some (checkKRegions address)
  else walkTables tables root address

structure Paging where
  tables : Tables VmEntry
  pages : List Nat

namespace Paging

def tablePerms : VmmPerms where
  read_write := true
  user := true
  write_through := false
  cache_disable := false
  no_execute := false

def storeEntry (s : Paging) (table index size pagePpn : Nat) (perms : VmmPerms) :
    Option Paging := do
  let e ← initEntry (s.tables table index) size pagePpn perms
  some { s with tables := setEntry s.tables table index e }

def addTable (s : Paging) (table index : Nat) : Option Paging :=
  match s.pages with
  | [] => none
  | page :: rest =>
    storeEntry { tables := Function.update s.tables page fun _ => 0, pages := rest } table index
      pageSizeDir page tablePerms

/-- What `map_address` does at the first level, which has tables only. -/
def enterRoot (s : Paging) (root index : Nat) : Option Paging :=
  if !isPresent (s.tables root index) then s.addTable root index else some s

/-- What `map_address` does at a level with pages of its own size: it maps the page, or it
    goes on to the next level. -/
def enter (s : Paging) (table index pageSize size physical : Nat) (perms : VmmPerms) :
    Option (Bool × Paging) :=
  let e := s.tables table index
  if !isPresent e then
    if size = pageSize then (s.storeEntry table index pageSize physical perms).map (true, ·)
    else (s.addTable table index).map (false, ·)
  else if isPs e then
    if size = pageSize then (s.storeEntry table index pageSize physical perms).map (true, ·)
    else none
  else some (false, s)

def mapTables (s : Paging) (root virtual physical size : Nat) (perms : VmmPerms) :
    Option Paging := do
  let s ← s.enterRoot root (pml4Index virtual)
  let pdpt := getPdppDir (s.tables root (pml4Index virtual))
  let (mapped, s) ← s.enter pdpt (pdpIndex virtual) pageSize1GiB size physical perms
  if mapped then some s
  else
    let pdt := getPdppDir (s.tables pdpt (pdpIndex virtual))
    let (mapped, s) ← s.enter pdt (pdIndex virtual) pageSize2MiB size physical perms
    if mapped then some s
    else
      let ptt := getPdppDir (s.tables pdt (pdIndex virtual))
      s.storeEntry ptt (ptIndex virtual) pageSize4KiB physical perms

def mapAddress (s : Paging) (root virtual physical size flags : Nat) : Option Paging :=
  if virtual % size ≠ 0 then none
  else if physical % size ≠ 0 then none
  else do
    let s ← s.mapTables root virtual physical size (flagsToPerms flags)
    let found ← getPhysicalAddress s.tables root virtual
    if found = physical then some s else none

end Paging

end OmenMemory
