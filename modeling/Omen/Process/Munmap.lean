import Omen.Memory.PageUnmapping
import Omen.Process.VmAreas

/- `munmap`: the area list, the page tables and the list of allocations of a process. The file
   that `vmarea_sync` writes to is left out; a panic has no result. -/
namespace OmenProcess
open RadixTable OmenMemory

structure VmmMapping where
  virtual_address : Nat
  physical_address : Nat
  size : Nat

/-- The loop of `remove_allocation` goes on behind a mapping that it has taken out, and what it
    takes out next is taken off that one. -/
def removeMappings (address : Nat) : Bool → List VmmMapping → List VmmMapping
  | _, [] => []
  | false, m :: rest =>
    if m.virtual_address = address then removeMappings address true rest
    else m :: removeMappings address false rest
  | true, m :: rest => m :: removeMappings address false rest

abbrev Directories := List (Nat × List VmmMapping)

def removeAllocation (root address : Nat) : Directories → Option Directories
  | [] => none
  | (pd, mappings) :: rest =>
    if pd = root then some ((pd, removeMappings address false mappings) :: rest)
    else (removeAllocation root address rest).map ((pd, mappings) :: ·)

structure MemoryMap where
  areas : List VmArea
  tables : Tables VmEntry
  directories : Directories

namespace MemoryMap

def unmapRange (m : MemoryMap) (root start size : Nat) : Option MemoryMap := do
  let tables ← unmapPages m.tables root start size
  let directories ← removeAllocation root start m.directories
  some { m with tables, directories }

def vmareaExtReqSync : Nat := 0x8

def vmareaSync (a : VmArea) : VmArea :=
  if a.fd ≠ 0 then { a with extended_flags := a.extended_flags &&& 0xf7 } else a

def munmapSyscallHandler (m : MemoryMap) (root addr length : Nat) : Option (Int × MemoryMap) :=
  if addr = 0 ∨ length = 0 then some (-1, m)
  else match isInVmarea m.areas addr with
    | none => none
    | some vma =>
      if vma.start ≠ addr then none
      else do
        let areas := if vma.extended_flags &&& vmareaExtReqSync ≠ 0 then
            m.areas.modify (m.areas.findIdx fun a => a.Contains addr) vmareaSync
          else m.areas
        let m ← { m with areas := removeVmarea areas addr }.unmapRange root addr length
        some (0, m)

end MemoryMap

def Belongs (areas : List VmArea) (v : Nat) : Prop := ∃ a ∈ areas, a.Contains v

def IsMapped (tables : Tables VmEntry) (root v : Nat) : Prop := (walkTables tables root v).isSome

def InShm (v : Nat) : Prop := vmmRegionUShmMmap ≤ v ∧ v < vmmRegionUShmMmap + vmmRegionSize

structure UnmapsArea (before after : MemoryMap) (root : Nat) : Prop where
  others : ∀ v, Belongs after.areas v → IsMapped before.tables root v →
    IsMapped after.tables root v
  whole : ∀ v, InShm v → IsMapped after.tables root v → Belongs before.areas v →
    Belongs after.areas v

/-- The range of the call against the areas: it holds no mapped page of an area that stays, and
    every mapped page of the one that goes. -/
structure MatchesArea (m : MemoryMap) (root addr length : Nat) : Prop where
  spares : ∀ v, Belongs (removeVmarea m.areas addr) v → IsMapped m.tables root v →
    ¬ Covered addr length v
  clears : ∀ v, InShm v → IsMapped m.tables root v → Belongs m.areas v →
    ¬ Belongs (removeVmarea m.areas addr) v → Covered addr length v

section Unmap
variable {m m' : MemoryMap} {root addr length v : Nat} {areas areas' : List VmArea}

theorem belongs_congr (same : areas.map VmArea.span = areas'.map VmArea.span) :
    Belongs areas v ↔ Belongs areas' v := by
  have through : ∀ l : List VmArea, Belongs l v ↔
      ∃ s ∈ l.map VmArea.span, s.start ≤ v ∧ v < s.stop := by
    intro l
    simp only [List.mem_map, exists_exists_and_eq_and]
    rfl
  rw [through, through, same]

theorem vmareaSync_span (k : Nat) :
    (areas.modify k MemoryMap.vmareaSync).map VmArea.span = areas.map VmArea.span := by
  have one : ∀ a, (MemoryMap.vmareaSync a).span = a.span := by
    intro a
    unfold MemoryMap.vmareaSync
    split <;> rfl
  refine List.ext_getElem? fun i => ?_
  rw [List.getElem?_map, List.getElem?_map, List.getElem?_modify]
  cases areas[i]? with
  | none => rfl
  | some a =>
    refine congrArg some ?_
    dsimp only
    split
    · exact one a
    · rfl

theorem removeVmarea_span (same : areas.map VmArea.span = areas'.map VmArea.span) :
    (removeVmarea areas addr).map VmArea.span = (removeVmarea areas' addr).map VmArea.span := by
  have through : ∀ l : List VmArea, (removeVmarea l addr).map VmArea.span =
      (l.map VmArea.span).eraseP fun s => s.start == addr := by
    intro l
    rw [List.eraseP_map]
    rfl
  rw [through, through, same]

theorem munmap_inv (done : m.munmapSyscallHandler root addr length = some (0, m')) :
    (∀ v, Belongs m'.areas v ↔ Belongs (removeVmarea m.areas addr) v) ∧
      unmapPages m.tables root addr length = some m'.tables := by
  unfold MemoryMap.munmapSyscallHandler at done
  split at done
  · cases done
  · split at done
    · cases done
    · rename_i vma found
      split at done
      · cases done
      · obtain ⟨after, range, result⟩ := Option.bind_eq_some_iff.mp done
        cases result
        unfold MemoryMap.unmapRange at range
        obtain ⟨tables, unmapped, range⟩ := Option.bind_eq_some_iff.mp range
        obtain ⟨directories, -, range⟩ := Option.bind_eq_some_iff.mp range
        cases range
        refine ⟨fun v => belongs_congr (removeVmarea_span ?_), unmapped⟩
        split
        · exact vmareaSync_span _
        · rfl

theorem isMapped_iff {tables : Tables VmEntry} :
    IsMapped tables root v ↔ (walk pageFormat tables 4 root (pageIndices v)).isSome := by
  unfold IsMapped
  rw [walkTables_eq, Option.isSome_map]

theorem unmapped_iff (tree : PlainTree m.tables root (Covered addr length))
    (done : unmapPages m.tables root addr length = some m'.tables) :
    IsMapped m'.tables root v ↔ IsMapped m.tables root v ∧ ¬ Covered addr length v := by
  obtain ⟨cleared, others⟩ := unmapPages_spec tree done
  rw [isMapped_iff, isMapped_iff]
  by_cases covered : Covered addr length v
  · rw [cleared v covered]
    exact ⟨fun none => absurd none (by simp), fun both => absurd covered both.2⟩
  · rw [others v covered]
    exact ⟨fun mapped => ⟨mapped, covered⟩, And.left⟩

/-- A call that succeeds is right exactly when its range matches the area. -/
theorem munmap_exact_iff (tree : PlainTree m.tables root (Covered addr length))
    (done : m.munmapSyscallHandler root addr length = some (0, m')) :
    UnmapsArea m m' root ↔ MatchesArea m root addr length := by
  obtain ⟨left, pages⟩ := munmap_inv done
  have mapped := fun v => @unmapped_iff m m' root addr length v tree pages
  constructor
  · intro right
    constructor
    · intro v stays here
      exact ((mapped v).mp (right.others v ((left v).mpr stays) here)).2
    · intro v shm here held gone
      by_contra free
      exact gone ((left v).mp (right.whole v shm ((mapped v).mpr ⟨here, free⟩) held))
  · intro fits
    constructor
    · intro v stays here
      exact (mapped v).mpr ⟨here, fits.spares v ((left v).mp stays) here⟩
    · intro v shm still held
      obtain ⟨here, free⟩ := (mapped v).mp still
      by_contra gone
      exact free (fits.clears v shm here held fun stays => gone ((left v).mpr stays))

theorem VmArea.Apart.symm {a b : VmArea} (apart : a.Apart b) : b.Apart a :=
  fun address both => apart address both.symm

theorem removeVmarea_apart {a : VmArea} (disjoint : areas.Pairwise VmArea.Apart)
    (solid : ∀ b ∈ areas, b.start < b.end_) (member : a ∈ areas) :
    (∀ b ∈ removeVmarea areas a.start, a.Apart b) ∧
      ∀ v, Belongs areas v → ¬ Belongs (removeVmarea areas a.start) v → a.Contains v := by
  obtain ⟨first, front, back, -, same, split, left⟩ :=
    List.exists_of_eraseP (p := fun b => b.start == a.start) member (beq_self_eq_true _)
  have apart : ∀ b ∈ front ++ back, first.Apart b := by
    rw [split, List.pairwise_append, List.pairwise_cons] at disjoint
    intro b held
    rcases List.mem_append.mp held with before | after
    · exact (disjoint.2.2 b before first List.mem_cons_self).symm
    · exact disjoint.2.1.1 b after
  -- two areas with one start have that address in common
  have only : first = a := by
    rw [split, List.mem_append, List.mem_cons] at member
    by_contra other
    have held : a ∈ front ++ back := by
      rcases member with before | rfl | after
      · exact List.mem_append_left _ before
      · exact absurd rfl other
      · exact List.mem_append_right _ after
    have start : first.start = a.start := eq_of_beq same
    refine apart a held a.start ⟨⟨start.le, ?_⟩, Nat.le_refl _, ?_⟩
    · rw [← start]
      exact solid first (split ▸ by simp)
    · exact solid a (split ▸ by simpa using member)
  subst only
  have rest : removeVmarea areas first.start = front ++ back := left
  rw [rest]
  refine ⟨apart, fun v ⟨b, held, inside⟩ gone => ?_⟩
  rw [split, List.mem_append, List.mem_cons] at held
  rcases held with before | rfl | after
  · exact absurd ⟨b, List.mem_append_left _ before, inside⟩ gone
  · exact inside
  · exact absurd ⟨b, List.mem_append_right _ after, inside⟩ gone

theorem matchesArea_whole {a : VmArea} (disjoint : m.areas.Pairwise VmArea.Apart)
    (solid : ∀ b ∈ m.areas, b.start < b.end_) (aligned : ∀ b ∈ m.areas, b.start % 0x1000 = 0)
    (user : ∀ b ∈ m.areas, b.end_ ≤ 2 ^ 47) (member : a ∈ m.areas) (root : Nat) :
    MatchesArea m root a.start (a.end_ - a.start) := by
  obtain ⟨apart, gone⟩ := removeVmarea_apart disjoint solid member
  have nonempty := solid a member
  have pages : ∀ i, i < pageCount (a.end_ - a.start) ↔ a.start + i * 0x1000 < a.end_ := by
    intro i
    unfold pageCount pageSize4KiB
    split <;> omega
  constructor
  · rintro v ⟨b, held, inside⟩ - ⟨i, less, same⟩
    have low := aligned a member
    have member' : b ∈ m.areas := List.mem_of_mem_eraseP held
    have high := user b member'
    have multiple := aligned b member'
    have page := (pages i).mp less
    have below := user a member
    unfold SamePage levelShift pageSize4KiB at same
    refine apart b held (a.start + i * 0x1000) ⟨⟨Nat.le_add_right .., page⟩, ?_, ?_⟩
    · have := inside.1
      have := inside.2
      omega
    · have := inside.2
      omega
  · intro v _ _ held left
    obtain ⟨low, high⟩ := gone v held left
    have below := user a member
    have multiple := aligned a member
    refine ⟨(v - a.start) / 0x1000, (pages _).mpr (by omega), ?_⟩
    unfold SamePage levelShift pageSize4KiB
    omega

end Unmap

def shmTables : Tables VmEntry := fun table index =>
  match table, index with
  | 0x1000, 160 => 0x2007
  | 0x2000, 0 => 0x3007
  | 0x3000, 0 => 0x4007
  | 0x4000, 0 => 0x7007
  | 0x4000, 1 => 0x8007
  | _, _ => 0

theorem tableAt_single {T : Tables VmEntry} {l t k next f : Nat} {p : List Nat}
    (link : ∀ i, pageFormat.child l (T t i) = if i = k then some next else none)
    (here : tableAt pageFormat T l t p = some f) :
    p = [] ∧ f = t ∨ ∃ rest, p = k :: rest ∧ tableAt pageFormat T (l - 1) next rest = some f := by
  cases p with
  | nil => exact Or.inl ⟨rfl, (Option.some.inj here).symm⟩
  | cons i p =>
    rw [tableAt, link] at here
    by_cases same : i = k
    · rw [if_pos same] at here
      exact Or.inr ⟨p, by rw [same], here⟩
    · rw [if_neg same] at here
      cases here

theorem shmTables_links :
    (∀ i, pageFormat.child 4 (shmTables 0x1000 i) = if i = 160 then some 0x2000 else none) ∧
    (∀ i, pageFormat.child 3 (shmTables 0x2000 i) = if i = 0 then some 0x3000 else none) ∧
    ∀ i, pageFormat.child 2 (shmTables 0x3000 i) = if i = 0 then some 0x4000 else none := by
  refine ⟨fun i => ?_, fun i => ?_, fun i => ?_⟩
  · unfold shmTables
    split <;> simp_all <;> decide
  · unfold shmTables
    split <;> simp_all <;> decide
  · unfold shmTables
    split <;> simp_all <;> decide

theorem shmTables_tree (addresses : Nat → Prop) : PlainTree shmTables 0x1000 addresses := by
  obtain ⟨first, second, third⟩ := shmTables_links
  have only : ∀ p t, tableAt pageFormat shmTables 4 0x1000 p = some t →
      (p, t) ∈ [([], 0x1000), ([160], 0x2000), ([160, 0], 0x3000), ([160, 0, 0], 0x4000)] := by
    intro p t here
    rcases tableAt_single first here with ⟨rfl, rfl⟩ | ⟨p, rfl, below⟩
    · decide
    rcases tableAt_single second below with ⟨rfl, rfl⟩ | ⟨p, rfl, lower⟩
    · decide
    rcases tableAt_single third lower with ⟨rfl, rfl⟩ | ⟨p, rfl, last⟩
    · decide
    cases p with
    | nil =>
      cases last
      decide
    | cons i p =>
      rw [tableAt, child_last] at last
      cases last
  refine ⟨fun p q t _ _ one two => ?_, fun a _ e found => ?_⟩
  · have left := only p t one
    have right := only q t two
    simp only [List.mem_cons, List.not_mem_nil, or_false, Prod.mk.injEq] at left right
    rcases left with ⟨rfl, rfl⟩ | ⟨rfl, rfl⟩ | ⟨rfl, rfl⟩ | ⟨rfl, rfl⟩ <;>
      simpa [eq_comm] using right
  · have small : ∀ i, pageFormat.leaf 2 (shmTables 0x3000 i) = false := by
      intro i
      unfold shmTables
      split <;> simp_all <;> decide
    rcases walk_cons found with ⟨-, level⟩ | ⟨next, child, found⟩
    · cases level
    rw [first] at child
    cases (Option.ite_none_right_eq_some.mp child).2
    rcases walk_cons found with ⟨-, level⟩ | ⟨next, child, found⟩
    · cases level
    rw [second] at child
    cases (Option.ite_none_right_eq_some.mp child).2
    rcases walk_cons found with ⟨leaf, -⟩ | ⟨next, child, found⟩
    · rw [small] at leaf
      cases leaf
    rcases walk_cons found with ⟨-, level⟩ | ⟨next, child, -⟩
    · cases level
    · rw [child_last] at child
      cases child

def shmMap (areas : List VmArea) : MemoryMap where
  areas := areas
  tables := shmTables
  directories := [(0x1000, [⟨vmmRegionUShmMmap, 0x7000, 0x2000⟩])]

def shmArea (page pages : Nat) : VmArea :=
  mmapArea (vmmRegionUShmMmap + page * 0x1000) (pages * 0x1000) 7 0 (-1) 0

theorem munmap_result {m : MemoryMap} {root addr length : Nat}
    (result : (m.munmapSyscallHandler root addr length).map Prod.fst = some 0) :
    ∃ m', m.munmapSyscallHandler root addr length = some (0, m') := by
  obtain ⟨⟨code, m'⟩, done, rfl⟩ := Option.map_eq_some_iff.mp result
  exact ⟨m', done⟩

theorem munmap_exact_page :
    ∃ m', (shmMap [shmArea 0 1, shmArea 1 1]).munmapSyscallHandler 0x1000 vmmRegionUShmMmap 0x1000 =
        some (0, m') ∧
      UnmapsArea (shmMap [shmArea 0 1, shmArea 1 1]) m' 0x1000 := by
  obtain ⟨m', done⟩ := @munmap_result (shmMap [shmArea 0 1, shmArea 1 1]) 0x1000
    vmmRegionUShmMmap 0x1000 (by decide +kernel)
  refine ⟨m', done, (munmap_exact_iff (shmTables_tree _) done).mpr ?_⟩
  have disjoint : [shmArea 0 1, shmArea 1 1].Pairwise VmArea.Apart := by
    refine List.pairwise_pair.mpr fun v both => ?_
    have stop : v < vmmRegionUShmMmap + 0x1000 := both.1.2
    have start : vmmRegionUShmMmap + 0x1000 ≤ v := both.2.1
    exact absurd stop (Nat.not_lt.mpr start)
  exact matchesArea_whole (a := shmArea 0 1) disjoint (by decide) (by decide) (by decide)
    List.mem_cons_self 0x1000

/-- A range that is too long takes the page of the next area, and one that is too short leaves
    a page that belongs to no area. -/
theorem munmap_inexact :
    (∃ m', (shmMap [shmArea 0 1, shmArea 1 1]).munmapSyscallHandler 0x1000 vmmRegionUShmMmap
        0x2000 = some (0, m') ∧
      ¬ UnmapsArea (shmMap [shmArea 0 1, shmArea 1 1]) m' 0x1000) ∧
    ∃ m', (shmMap [shmArea 0 2]).munmapSyscallHandler 0x1000 vmmRegionUShmMmap 0x1000 =
        some (0, m') ∧
      ¬ UnmapsArea (shmMap [shmArea 0 2]) m' 0x1000 := by
  have mapped : IsMapped shmTables 0x1000 (vmmRegionUShmMmap + 0x1000) := by
    unfold IsMapped
    decide +kernel
  constructor
  · obtain ⟨m', done⟩ := @munmap_result (shmMap [shmArea 0 1, shmArea 1 1]) 0x1000
      vmmRegionUShmMmap 0x2000 (by decide +kernel)
    refine ⟨m', done, fun right => ?_⟩
    obtain ⟨left, pages⟩ := munmap_inv done
    have held : Belongs m'.areas (vmmRegionUShmMmap + 0x1000) :=
      (left _).mpr ⟨shmArea 1 1, List.mem_singleton_self _, by decide⟩
    refine ((unmapped_iff (shmTables_tree _) pages).mp (right.others _ held mapped)).2 ⟨1, ?_, ?_⟩
    · decide
    · decide
  · obtain ⟨m', done⟩ := @munmap_result (shmMap [shmArea 0 2]) 0x1000
      vmmRegionUShmMmap 0x1000 (by decide +kernel)
    refine ⟨m', done, fun right => ?_⟩
    obtain ⟨left, pages⟩ := munmap_inv done
    have still : IsMapped m'.tables 0x1000 (vmmRegionUShmMmap + 0x1000) := by
      refine (unmapped_iff (shmTables_tree _) pages).mpr ⟨mapped, fun ⟨i, less, same⟩ => ?_⟩
      have zero : i = 0 := Nat.lt_one_iff.mp less
      subst zero
      revert same
      decide
    obtain ⟨a, member, -⟩ := (left _).mp (right.whole _ (by unfold InShm; decide) still
      ⟨shmArea 0 2, List.mem_singleton_self _, by decide⟩)
    cases member

end OmenProcess
