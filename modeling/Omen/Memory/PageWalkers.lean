import Omen.Memory.PageTables

/- The other walks of `vmm.c` over the page tables. `get_page_perms`, `is_present`,
   `unmap_memory` and `mprotect_page` walk in the same way, and the walk is written once;
   `vmm_is_present` walks as `get_physical_address` does. -/
namespace OmenMemory
open RadixTable

/-- Where a walk ends, with the entries that it has read on its way. -/
inductive PageWalk
  | noPml4
  | noPdp (pml4 : VmEntry)
  | huge (pml4 pdp : VmEntry)
  | noPd (pml4 pdp : VmEntry)
  | big (pml4 pdp pd : VmEntry)
  | noPt (pml4 pdp pd : VmEntry)
  | regular (pml4 pdp pd pt : VmEntry)

def walkPages (tables : Tables VmEntry) (root address : Nat) : PageWalk :=
  let pml4 := tables root (pml4Index address)
  if !isPresent pml4 then .noPml4
  else
    let pdp := tables (getPdppDir pml4) (pdpIndex address)
    if !isPresent pdp then .noPdp pml4
    else if isPs pdp then .huge pml4 pdp
    else
      let pd := tables (getPdppDir pdp) (pdIndex address)
      if !isPresent pd then .noPd pml4 pdp
      -- the test for 2 MiB looks at the entry of the level above
      else if isPs pdp then .big pml4 pdp pd
      else
        let pt := tables (getPdppDir pd) (ptIndex address)
        if !isPresent pt then .noPt pml4 pdp pd else .regular pml4 pdp pd pt

def PageWalk.followed : PageWalk → List (Nat × VmEntry)
  | noPml4 => []
  | noPdp pml4 => [(4, pml4)]
  | huge pml4 _ => [(4, pml4)]
  | noPd pml4 pdp => [(4, pml4), (3, pdp)]
  | big pml4 pdp _ => [(4, pml4), (3, pdp)]
  | noPt pml4 pdp pd => [(4, pml4), (3, pdp), (2, pd)]
  | regular pml4 pdp pd _ => [(4, pml4), (3, pdp), (2, pd)]

def PageWalk.page : PageWalk → Option VmEntry
  | huge _ pdp => some pdp
  | big _ _ pd => some pd
  | regular _ _ _ pt => some pt
  | noPml4 | noPdp _ | noPd _ _ | noPt _ _ _ => none

def entryPerms (user : Nat) (e : VmEntry) : Nat :=
  bitField e 1 1 ||| user <<< 1 ||| bitField e 63 1 <<< 2 ||| bitField e 4 1 <<< 3

def getPagePerms (tables : Tables VmEntry) (root address : Nat) : Nat :=
  match walkPages tables root address with
  | .huge pml4 pdp => entryPerms (bitField pml4 2 1 &&& bitField pdp 2 1) pdp
  | .big pml4 pdp pd => entryPerms (bitField pml4 2 1 &&& bitField pdp 2 1 &&& bitField pd 2 1) pd
  | .regular pml4 pdp pd pt =>
    entryPerms (bitField pml4 2 1 &&& bitField pdp 2 1 &&& bitField pd 2 1 &&& bitField pt 2 1) pt
  | .noPml4 | .noPdp _ | .noPd _ _ | .noPt _ _ _ => 0

def isPresentPage (tables : Tables VmEntry) (root address : Nat) : Nat :=
  match walkPages tables root address with
  | .huge _ _ | .big _ _ _ | .regular _ _ _ _ => 1
  | .noPml4 | .noPdp _ | .noPd _ _ | .noPt _ _ _ => 0

def isExecutable (tables : Tables VmEntry) (root address : Nat) : Nat :=
  getPagePerms tables root address &&& 0x20

def vmmIsPresent (tables : Tables VmEntry) (root address : Nat) : Nat :=
  let pml4 := tables root (pml4Index address)
  if !isPresent pml4 then 0
  else
    let pdp := tables (getPdppDir pml4) (pdpIndex address)
    if !isPresent pdp then 0
    else if isPs pdp then pageSize1GiB
    else
      let pd := tables (getPdppDir pdp) (pdIndex address)
      if !isPresent pd then 0
      else if isPs pd then pageSize2MiB
      else
        let pt := tables (getPdppDir pd) (ptIndex address)
        if !isPresent pt then 0 else pageSize4KiB

def storeField (tables : Tables VmEntry) (table index low width value : Nat) : Tables VmEntry :=
  setEntry tables table index (setBitField (tables table index) low width value)

def unmapMemory (tables : Tables VmEntry) (root address : Nat) : Option (Tables VmEntry) :=
  match walkPages tables root address with
  | .huge _ _ | .big _ _ _ => none
  | .regular _ _ pd _ => some (storeField tables (getPdppDir pd) (ptIndex address) 0 1 0)
  | .noPml4 | .noPdp _ | .noPd _ _ | .noPt _ _ _ => some tables

/-- `set_permissions`: masked flags, not truth values, go into fields of one bit. -/
def setPermissions (tables : Tables VmEntry) (table index flags : Nat) : Tables VmEntry :=
  let tables := storeField tables table index 1 1 (flags &&& 0x1)
  let tables := storeField tables table index 2 1 (flags &&& 0x2)
  let tables := storeField tables table index 4 1 (flags &&& 0x8)
  storeField tables table index 63 1 (flags &&& 0x20)

/-- `mprotect_page`, which returns the size of a regular page or panics. -/
def mprotectPage (tables : Tables VmEntry) (root address flags : Nat) : Option (Tables VmEntry) :=
  match walkPages tables root address with
  | .regular pml4 pdp pd _ =>
    let tables := setPermissions tables (getPdppDir pd) (ptIndex address) flags
    if flags &&& 0x2 ≠ 0 then
      let tables := storeField tables root (pml4Index address) 2 1 1
      let tables := storeField tables (getPdppDir pml4) (pdpIndex address) 2 1 1
      let tables := storeField tables (getPdppDir pdp) (pdIndex address) 2 1 1
      some (storeField tables (getPdppDir pd) (ptIndex address) 2 1 1)
    else some tables
  | .huge _ _ | .big _ _ _ | .noPml4 | .noPdp _ | .noPd _ _ | .noPt _ _ _ => none

/-- The loop of `mprotect`: `next_address` has 64 bits and goes on at 0 behind the last page. -/
def mprotectLoop (root stop flags : Nat) : Nat → Tables VmEntry → Nat → Option (Tables VmEntry)
  | 0, _, _ => none
  | fuel + 1, tables, next =>
    if next < stop then do
      let tables ← mprotectPage tables root next flags
      mprotectLoop root stop flags fuel tables ((next + pageSize4KiB) % 2 ^ 64)
    else some tables

-- after as many rounds as there are pages the loop is where it began, and does not end
def mprotect (tables : Tables VmEntry) (root address size flags : Nat) : Option (Tables VmEntry) :=
  mprotectLoop root ((address + size) % 2 ^ 64) flags (2 ^ 52 + 1) tables (address >>> 12 <<< 12)

section Loop
variable {root stop flags fuel next address size : Nat} {tables : Tables VmEntry}

theorem mprotectLoop_pages (below : stop ≤ 2 ^ 64 - pageSize4KiB)
    (enough : (stop - next + (pageSize4KiB - 1)) / pageSize4KiB < fuel) :
    mprotectLoop root stop flags fuel tables next =
      (List.range ((stop - next + (pageSize4KiB - 1)) / pageSize4KiB)).foldlM
        (fun tables i => mprotectPage tables root (next + i * pageSize4KiB) flags) tables := by
  unfold pageSize4KiB at below
  induction fuel generalizing tables next with
  | zero => exact absurd enough (Nat.not_lt_zero _)
  | succ fuel ih =>
    unfold mprotectLoop
    by_cases more : next < stop
    · have onward : (next + pageSize4KiB) % 2 ^ 64 = next + pageSize4KiB := by
        unfold pageSize4KiB
        omega
      have rounds : (stop - next + (pageSize4KiB - 1)) / pageSize4KiB =
          (stop - (next + pageSize4KiB) + (pageSize4KiB - 1)) / pageSize4KiB + 1 := by
        unfold pageSize4KiB
        omega
      rw [if_pos more, onward, rounds, List.range_succ_eq_map, List.foldlM_cons,
        Nat.zero_mul, Nat.add_zero]
      refine bind_congr fun tables => ?_
      rw [ih (by omega), List.foldlM_map]
      simp only [Nat.succ_mul, Nat.add_assoc, Nat.add_comm]
    · have done : (stop - next + (pageSize4KiB - 1)) / pageSize4KiB = 0 := by
        unfold pageSize4KiB
        omega
      rw [if_neg more, done]
      rfl

-- every page starts below an end inside the last page
theorem mprotectLoop_wraps (inside : 2 ^ 64 - pageSize4KiB < stop)
    (aligned : next % pageSize4KiB = 0) (small : next < 2 ^ 64) :
    mprotectLoop root stop flags fuel tables next = none := by
  unfold pageSize4KiB at inside aligned
  induction fuel generalizing tables next with
  | zero => rfl
  | succ fuel ih =>
    unfold mprotectLoop
    rw [if_pos (by omega), Option.bind_eq_bind, Option.bind_eq_none_iff]
    intro tables' _
    exact ih (by unfold pageSize4KiB; omega) (by omega)

theorem page_below (address : Nat) :
    address >>> 12 <<< 12 = address - address % pageSize4KiB := by
  rw [Nat.shiftLeft_eq, Nat.shiftRight_eq_div_pow]
  unfold pageSize4KiB
  omega

theorem mprotect_pages (below : address + size ≤ 2 ^ 64 - pageSize4KiB) :
    mprotect tables root address size flags =
      (List.range ((address + size - (address - address % pageSize4KiB) + (pageSize4KiB - 1)) /
        pageSize4KiB)).foldlM (fun tables i => mprotectPage tables root
          (address - address % pageSize4KiB + i * pageSize4KiB) flags) tables := by
  have stop : (address + size) % 2 ^ 64 = address + size := by
    unfold pageSize4KiB at below
    omega
  have enough : (address + size - (address - address % pageSize4KiB) + (pageSize4KiB - 1)) /
      pageSize4KiB < 2 ^ 52 + 1 := by
    unfold pageSize4KiB at below ⊢
    omega
  unfold mprotect
  rw [page_below, stop, mprotectLoop_pages below enough]

theorem mprotect_wraps (inside : 2 ^ 64 - pageSize4KiB < address + size)
    (below : address + size < 2 ^ 64) : mprotect tables root address size flags = none := by
  unfold mprotect
  rw [page_below, Nat.mod_eq_of_lt below]
  refine mprotectLoop_wraps inside ?_ ?_
  · unfold pageSize4KiB
    omega
  · omega

theorem mprotect_to_end (last : address + size = 2 ^ 64) :
    mprotect tables root address size flags = some tables := by
  unfold mprotect
  rw [last, Nat.mod_self]
  rfl

end Loop

end OmenMemory
