import Omen.Memory.PageAgreement
import Omen.Memory.PageMapping

/- The permissions that `get_page_perms` and `is_executable` report after `map_address` and
   after `mprotect`, for pages of 4 KiB. -/
namespace OmenMemory
open RadixTable

section Bits
variable {e : VmEntry}

theorem initEntry_perms {size physical : Nat} {perms : VmmPerms} {new : VmEntry}
    (regular : size ≠ pageSize1GiB ∧ size ≠ pageSize2MiB)
    (stored : initEntry e size physical perms = some new) :
    new.getLsbD 1 = perms.read_write ∧ new.getLsbD 2 = perms.user ∧
      new.getLsbD 4 = perms.cache_disable ∧ new.getLsbD 63 = perms.no_execute := by
  have bit : ∀ b : Bool, b.toNat.testBit 0 = b := by decide
  unfold initEntry at stored
  split at stored
  · cases stored
  split at stored
  · cases stored
  split at stored
  · cases stored
  rw [Option.some.injEq, if_neg regular.1, if_neg regular.2] at stored
  subst stored
  unfold resetFields
  dsimp only
  simp (disch := decide) only [getLsbD_setBitField_outside]
  refine ⟨?_, ?_, ?_, ?_⟩
  all_goals
    rw [getLsbD_setBitField (by decide), if_pos (by decide)]
    exact bit _

end Bits

structure RegularPath (tables : Tables VmEntry) (root address : Nat)
    (pml4 pdp pd pt : VmEntry) : Prop where
  first : tables root (pml4Index address) = pml4
  second : tables (getPdppDir pml4) (pdpIndex address) = pdp
  third : tables (getPdppDir pdp) (pdIndex address) = pd
  fourth : tables (getPdppDir pd) (ptIndex address) = pt
  present : isPresent pml4 ∧ isPresent pdp ∧ isPresent pd ∧ isPresent pt
  table : isPs pdp = false ∧ isPs pd = false

section Paths
variable {tables : Tables VmEntry} {root address : Nat} {pml4 pdp pd pt : VmEntry}

theorem walk_regular (found : walk pageFormat tables 4 root (pageIndices address) = some (1, pt)) :
    ∃ pml4 pdp pd, RegularPath tables root address pml4 pdp pd pt := by
  rcases walk_cons found with ⟨-, level⟩ | ⟨pdpt, child4, found⟩
  · cases level
  rcases walk_cons found with ⟨-, level⟩ | ⟨pdt, child3, found⟩
  · cases level
  rcases walk_cons found with ⟨-, level⟩ | ⟨ptt, child2, found⟩
  · cases level
  obtain ⟨one, -, rfl⟩ := child_some child4
  obtain ⟨two, ps2, rfl⟩ := child_some child3
  obtain ⟨three, ps3, rfl⟩ := child_some child2
  rcases walk_cons found with ⟨leaf, last⟩ | ⟨next, child1, -⟩
  · obtain rfl := (congrArg Prod.snd last : pt = _)
    exact ⟨_, _, _, rfl, rfl, rfl, rfl, ⟨one, two, three, (leaf_last _).symm.trans leaf⟩,
      ps2 (by decide), ps3 (by decide)⟩
  · rw [child_last] at child1
    cases child1

section Path
variable (path : RegularPath tables root address pml4 pdp pd pt)
include path

theorem RegularPath.children :
    pageFormat.child 4 (tables root (pml4Index address)) = some (getPdppDir pml4) ∧
      pageFormat.child 3 (tables (getPdppDir pml4) (pdpIndex address)) = some (getPdppDir pdp) ∧
      pageFormat.child 2 (tables (getPdppDir pdp) (pdIndex address)) = some (getPdppDir pd) := by
  rw [path.first, path.second, path.third, child_root, child_middle pdp (Or.inr rfl),
    child_middle pd (Or.inl rfl), path.present.1, path.present.2.1, path.present.2.2.1,
    path.table.1, path.table.2]
  exact ⟨rfl, rfl, rfl⟩

theorem RegularPath.along_eq (P : VmEntry → Bool) :
    along pageFormat tables P 4 root (pageIndices address) = (P pml4 && (P pdp && P pd)) := by
  obtain ⟨child4, child3, child2⟩ := path.children
  unfold pageIndices
  rw [along, child4]
  dsimp only
  rw [along, child3]
  dsimp only
  rw [along, child2]
  dsimp only
  rw [along, child_last, path.first, path.second, path.third, Bool.and_true]

theorem RegularPath.walk_eq :
    walk pageFormat tables 4 root (pageIndices address) = some (1, pt) := by
  obtain ⟨child4, child3, child2⟩ := path.children
  unfold pageIndices
  rw [walk, pageFormat.exclusive _ _ _ child4, child4, if_neg (by decide)]
  dsimp only
  rw [walk, pageFormat.exclusive _ _ _ child3, child3, if_neg (by decide)]
  dsimp only
  rw [walk, pageFormat.exclusive _ _ _ child2, child2, if_neg (by decide)]
  dsimp only
  rw [walk, leaf_last, path.fourth, path.present.2.2.2, if_pos rfl]

theorem RegularPath.walkPages_eq : walkPages tables root address = .regular pml4 pdp pd pt := by
  unfold walkPages
  simp [path.first, path.second, path.third, path.fourth, path.present, path.table]

end Path

def isUser (e : VmEntry) : Bool := e.getLsbD 2

/-- The permissions of a page: those of its last entry, and user access as far as all four
    entries give it. -/
theorem getPagePerms_regular
    (found : walk pageFormat tables 4 root (pageIndices address) = some (1, pt)) :
    getPagePerms tables root address =
      entryPerms (along pageFormat tables isUser 4 root (pageIndices address) && isUser pt).toNat
        pt := by
  obtain ⟨pml4, pdp, pd, path⟩ := walk_regular found
  have bits : ∀ a b : Bool, a.toNat &&& b.toNat = (a && b).toNat := by decide
  rw [getPagePerms, path.walkPages_eq, path.along_eq]
  dsimp only
  rw [bitField_bit, bitField_bit, bitField_bit, bitField_bit, bits, bits, bits, isUser, isUser,
    isUser, isUser, Bool.and_assoc (pml4.getLsbD 2) (pdp.getLsbD 2)]

end Paths

namespace Paging

section Mapping
variable {s s' : Paging} {root f i virtual physical size : Nat} {perms : VmmPerms}
  {p q : List Nat}

theorem addTable_along (ready : s.Ready root)
    (here : tableAt pageFormat s.tables 4 root p = some f) (above : RadixTable.Path 512 p)
    (high : p.length < 3) (unused : isPresent (s.tables f i) = false)
    (added : s.addTable f i = some s') (path : RadixTable.Path 512 q) :
    along pageFormat s'.tables isUser 4 root q = along pageFormat s.tables isUser 4 root q := by
  obtain ⟨tables, pages⟩ := s
  cases pages with
  | nil => cases added
  | cons page rest =>
    have supply := ready.supply
    dsimp only at here unused supply
    have level : 4 - p.length = 2 ∨ 4 - p.length = 3 ∨ 4 - p.length = 4 := by omega
    unfold addTable storeEntry at added
    dsimp only at added
    obtain ⟨e, stored, same⟩ := Option.bind_eq_some_iff.mp added
    cases same
    have link := initEntry_table level stored (supply.aligned page List.mem_cons_self)
      (supply.small page List.mem_cons_self)
    have closed : pageFormat.child (4 - p.length) (tables f i) = none := by
      simp [pageFormat, unused]
    have user : isUser e = true := (initEntry_perms (by decide) stored).2.1
    exact along_planted ready.distinct here above path (supply.fresh page List.mem_cons_self)
      (fun l _ => (empty_entry l).2) closed link user

theorem enterRoot_along (ready : s.Ready root) (entered : s.enterRoot root i = some s')
    (path : RadixTable.Path 512 q) :
    along pageFormat s'.tables isUser 4 root q = along pageFormat s.tables isUser 4 root q := by
  unfold enterRoot at entered
  split at entered
  · rename_i unused
    exact addTable_along ready rfl RadixTable.Path.nil (by decide)
      ((Bool.not_eq_true' _).mp unused) entered path
  · cases entered
    rfl

theorem enter_along {pageSize : Nat} (ready : s.Ready root)
    (here : tableAt pageFormat s.tables 4 root p = some f) (above : RadixTable.Path 512 p)
    (high : p.length < 3) (smaller : size ≠ pageSize)
    (entered : s.enter f i pageSize size physical perms = some (false, s'))
    (path : RadixTable.Path 512 q) :
    along pageFormat s'.tables isUser 4 root q = along pageFormat s.tables isUser 4 root q := by
  unfold enter at entered
  dsimp only at entered
  rw [if_neg smaller, if_neg smaller] at entered
  split at entered
  · rename_i unused
    obtain ⟨t, added, pair⟩ := Option.map_eq_some_iff.mp entered
    cases pair
    exact addTable_along ready here above high ((Bool.not_eq_true' _).mp unused) added path
  · split at entered
    · cases entered
    · cases entered
      rfl

theorem storeEntry_regular (ready : s.Ready root)
    (here : tableAt pageFormat s.tables 4 root
      [pml4Index virtual, pdpIndex virtual, pdIndex virtual] = some f)
    (above : RadixTable.Path 512 [pml4Index virtual, pdpIndex virtual, pdIndex virtual])
    (aligned : physical % pageSize4KiB = 0) (small : physical < 2 ^ 40)
    (done : s.storeEntry f (ptIndex virtual) pageSize4KiB physical perms = some s') :
    ∃ old e, initEntry old pageSize4KiB physical perms = some e ∧
      walk pageFormat s'.tables 4 root (pageIndices virtual) = some (1, e) ∧
      along pageFormat s'.tables isUser 4 root (pageIndices virtual) =
        along pageFormat s.tables isUser 4 root (pageIndices virtual) := by
  obtain ⟨e, stored, same⟩ := Option.bind_eq_some_iff.mp done
  cases same
  obtain ⟨leaf, closed, -⟩ := initEntry_leaf (l := 1) (Or.inl rfl) stored aligned small
  refine ⟨_, e, stored, ?_, ?_⟩
  · exact @walk_set_here _ pageFormat _ 512 4 root f (ptIndex virtual) _ [] e ready.distinct here
      above leaf
  · exact along_set_closed ready.distinct here above (pageIndices_path virtual)
      (child_last _) closed

theorem mapTables_regular (ready : s.Ready root) (aligned : physical % pageSize4KiB = 0)
    (small : physical < 2 ^ 40)
    (done : s.mapTables root virtual physical pageSize4KiB perms = some s') :
    ∃ old e, initEntry old pageSize4KiB physical perms = some e ∧
      walk pageFormat s'.tables 4 root (pageIndices virtual) = some (1, e) ∧
      along pageFormat s'.tables isUser 4 root (pageIndices virtual) =
        along pageFormat s.tables isUser 4 root (pageIndices virtual) := by
  have indices := pageIndices_path virtual
  obtain ⟨path1, path2, path3⟩ := tablePaths virtual
  unfold mapTables at done
  simp only [Option.bind_eq_bind, Option.bind_eq_some_iff] at done
  obtain ⟨s1, first, ⟨huge, s2⟩, second, done⟩ := done
  obtain ⟨grown1, table1⟩ := enterRoot_grown ready first
  have along1 := enterRoot_along ready first indices
  rcases enter_cases grown1.ready table1 path1 (Or.inr rfl) second with
    ⟨-, size3, -⟩ | ⟨rfl, grown2, table2, -⟩
  · exact absurd (show pageSize4KiB = 2 ^ levelShift 3 from size3) (by decide)
  have along2 := enter_along grown1.ready table1 path1 (show 1 < 3 by decide)
    (show pageSize4KiB ≠ pageSize1GiB by decide) second indices
  obtain ⟨⟨big, s3⟩, third, done⟩ := Option.bind_eq_some_iff.mp done
  rcases enter_cases grown2.ready table2 path2 (Or.inl rfl) third with
    ⟨-, size2, -⟩ | ⟨rfl, grown3, table3, -⟩
  · exact absurd (show pageSize4KiB = 2 ^ levelShift 2 from size2) (by decide)
  have along3 := enter_along grown2.ready table2 path2 (show 2 < 3 by decide)
    (show pageSize4KiB ≠ pageSize2MiB by decide) third indices
  rw [← along1, ← along2, ← along3]
  exact storeEntry_regular grown3.ready table3 path3 aligned small done

end Mapping

end Paging

/-- The flags for write, user, cache-disable and no-execute, as they were asked for. -/
def PermsReported (tables : Tables VmEntry) (root address flags : Nat) : Prop :=
  getPagePerms tables root address = flags &&& 0x2b

def ExecutableReported (tables : Tables VmEntry) (root address flags : Nat) : Prop :=
  isExecutable tables root address ≠ 0 ↔ flags &&& 0x20 = 0

def UserTables (tables : Tables VmEntry) (root address : Nat) : Prop :=
  along pageFormat tables isUser 4 root (pageIndices address) = true

section Flags
variable {tables : Tables VmEntry} {root address flags : Nat}

def permBits (write user cache noExecute : Bool) : Nat :=
  write.toNat ||| user.toNat <<< 1 ||| noExecute.toNat <<< 2 ||| cache.toNat <<< 3

theorem entryPerms_eq (user : Bool) (e : VmEntry) :
    entryPerms user.toNat e = permBits (e.getLsbD 1) user (e.getLsbD 4) (e.getLsbD 63) := by
  unfold entryPerms permBits
  rw [bitField_bit, bitField_bit, bitField_bit]

theorem flag_low (flags : Nat) {mask : Nat} (low : 63 &&& mask = mask) :
    flags &&& mask = flags % 64 &&& mask := by
  rw [show 64 = 2 ^ 6 from rfl, ← Nat.and_two_pow_sub_one_eq_mod, Nat.and_assoc]
  exact congrArg (flags &&& ·) low.symm

theorem mapped_bits_iff (flags : Nat) (user : Bool) :
    permBits (flags &&& 0x1 != 0) (user && (flags &&& 0x2 != 0)) (flags &&& 0x8 != 0)
        (flags &&& 0x20 != 0) = flags &&& 0x2b ↔
      flags &&& 0x20 = 0 ∧ (flags &&& 0x2 ≠ 0 → user = true) := by
  rw [@flag_low flags 0x1 rfl, @flag_low flags 0x2 rfl, @flag_low flags 0x8 rfl,
    @flag_low flags 0x20 rfl, @flag_low flags 0x2b rfl]
  have all : ∀ f < 64, ∀ user : Bool,
      permBits (f &&& 0x1 != 0) (user && (f &&& 0x2 != 0)) (f &&& 0x8 != 0) (f &&& 0x20 != 0) =
        f &&& 0x2b ↔ f &&& 0x20 = 0 ∧ (f &&& 0x2 ≠ 0 → user = true) := by
    decide +kernel
  exact all (flags % 64) (Nat.mod_lt _ (by decide)) user

theorem protected_bits_iff (flags : Nat) :
    permBits (flags &&& 0x1 != 0) (flags &&& 0x2 != 0) false false = flags &&& 0x2b ↔
      flags &&& 0x28 = 0 := by
  rw [@flag_low flags 0x1 rfl, @flag_low flags 0x2 rfl, @flag_low flags 0x28 rfl,
    @flag_low flags 0x2b rfl]
  have all : ∀ f < 64, permBits (f &&& 0x1 != 0) (f &&& 0x2 != 0) false false = f &&& 0x2b ↔
      f &&& 0x28 = 0 := by
    decide +kernel
  exact all (flags % 64) (Nat.mod_lt _ (by decide))

/-- `is_executable` looks at a bit that `get_page_perms` never sets. -/
theorem isExecutable_zero : isExecutable tables root address = 0 := by
  have bits : ∀ write user cache noExecute : Bool,
      permBits write user cache noExecute &&& 0x20 = 0 := by decide
  have reading : ∀ (user : Nat) (e : VmEntry), user ≤ 1 → entryPerms user e &&& 0x20 = 0 := by
    intro user e small
    rcases (show user = false.toNat ∨ user = true.toNat by simp; omega) with rfl | rfl
    · rw [entryPerms_eq, bits]
    · rw [entryPerms_eq, bits]
  unfold isExecutable
  cases page : (walkPages tables root address).page with
  | some e =>
    obtain ⟨user, small, perms⟩ := getPagePerms_of_page page
    rw [perms, reading user e small]
  | none =>
    rw [getPagePerms_of_none page, Nat.zero_and]

theorem executableReported_iff :
    ExecutableReported tables root address flags ↔ flags &&& 0x20 ≠ 0 := by
  unfold ExecutableReported
  rw [isExecutable_zero]
  simp

end Flags

theorem pageIndices_same {a b : Nat} (same : a / pageSize4KiB = b / pageSize4KiB) :
    pageIndices a = pageIndices b := by
  unfold pageSize4KiB at same
  rw [pageIndices_eq, pageIndices_eq]
  simp only [List.cons.injEq, and_true]
  omega

theorem getPagePerms_congr {tables : Tables VmEntry} {root a b : Nat} {e : VmEntry}
    (same : pageIndices a = pageIndices b)
    (found : walk pageFormat tables 4 root (pageIndices b) = some (1, e)) :
    getPagePerms tables root a =
      permBits (e.getLsbD 1) (along pageFormat tables isUser 4 root (pageIndices b) && isUser e)
        (e.getLsbD 4) (e.getLsbD 63) := by
  rw [getPagePerms_regular (same ▸ found), entryPerms_eq, same]

theorem Paging.mapAddress_perms {s s' : Paging} {root virtual physical flags a : Nat}
    (ready : s.Ready root) (small : physical < 2 ^ 40)
    (mapped : s.mapAddress root virtual physical pageSize4KiB flags = some s')
    (page : a / pageSize4KiB = virtual / pageSize4KiB) :
    PermsReported s'.tables root a flags ↔
      flags &&& 0x20 = 0 ∧ (flags &&& 0x2 ≠ 0 → UserTables s.tables root virtual) := by
  obtain ⟨-, aligned, done⟩ := mapAddress_inv mapped
  obtain ⟨old, e, stored, found, kept⟩ := mapTables_regular ready aligned small done
  obtain ⟨write, user, cache, noExecute⟩ := initEntry_perms (by decide) stored
  rw [PermsReported, getPagePerms_congr (pageIndices_same page) found, kept, write,
    cache, noExecute, isUser, user]
  exact mapped_bits_iff flags _

section Protecting
variable {tables : Tables VmEntry} {root address flags : Nat} {pml4 pdp pd pt : VmEntry}

def protectEntry (e : VmEntry) (flags : Nat) : VmEntry :=
  let e := setBitField e 1 1 (flags &&& 0x1)
  let e := setBitField e 2 1 (flags &&& 0x2)
  let e := setBitField e 4 1 (flags &&& 0x8)
  setBitField e 63 1 (flags &&& 0x20)

theorem setPermissions_eq (tables : Tables VmEntry) (table index flags : Nat) :
    setPermissions tables table index flags =
      setEntry tables table index (protectEntry (tables table index) flags) := by
  unfold setPermissions storeField protectEntry
  simp only [setEntry_here, setEntry_setEntry]

theorem user_store (e : VmEntry) (value : Nat) :
    isPresent (setBitField e 2 1 value) = isPresent e ∧
      isPs (setBitField e 2 1 value) = isPs e ∧
      getPdppDir (setBitField e 2 1 value) = getPdppDir e := by
  unfold isPresent isPs getPdppDir
  simp (disch := decide) only [bitField_setBitField_outside, and_self]

/-- A mask of one bit put into a field of one bit: only the lowest bit survives. -/
theorem protectEntry_perms (e : VmEntry) (flags : Nat) :
    isPresent (protectEntry e flags) = isPresent e ∧
      (protectEntry e flags).getLsbD 1 = (flags &&& 0x1 != 0) ∧
      (protectEntry e flags).getLsbD 2 = false ∧
      (protectEntry e flags).getLsbD 4 = false ∧ (protectEntry e flags).getLsbD 63 = false := by
  unfold protectEntry isPresent
  simp (disch := decide) only [bitField_setBitField_outside, getLsbD_setBitField_outside]
  refine ⟨trivial, ?_, ?_, ?_, ?_⟩
  all_goals rw [getLsbD_setBitField (by decide), if_pos (by decide), Nat.testBit_and]
  · rw [← Nat.testBit_and, Nat.sub_self, Nat.testBit_zero, Nat.and_one_is_mod]
    rcases Nat.mod_two_eq_zero_or_one flags with even | odd
    · rw [even]; rfl
    · rw [odd]; rfl
  · simp
  · simp
  · simp

theorem RegularPath.congr {a : Nat} (same : pageIndices a = pageIndices address)
    (path : RegularPath tables root address pml4 pdp pd pt) :
    RegularPath tables root a pml4 pdp pd pt := by
  unfold pageIndices at same
  simp only [List.cons.injEq, and_true] at same
  obtain ⟨one, two, three, four⟩ := same
  obtain ⟨first, second, third, fourth, present, table⟩ := path
  exact ⟨one ▸ first, two ▸ second, three ▸ third, four ▸ fourth, present, table⟩

section Distinct
variable (distinct : Distinct pageFormat tables 512 4 root)
  (path : RegularPath tables root address pml4 pdp pd pt)
include distinct path

theorem RegularPath.apart :
    (root ≠ getPdppDir pml4 ∧ root ≠ getPdppDir pdp ∧ root ≠ getPdppDir pd) ∧
      (getPdppDir pml4 ≠ getPdppDir pdp ∧ getPdppDir pml4 ≠ getPdppDir pd) ∧
      getPdppDir pdp ≠ getPdppDir pd := by
  obtain ⟨child4, child3, child2⟩ := path.children
  obtain ⟨path1, path2, path3⟩ := tablePaths address
  have table1 : tableAt pageFormat tables 4 root [pml4Index address] = some (getPdppDir pml4) :=
    (@tableAt_snoc _ pageFormat tables 4 root root (pml4Index address) [] rfl).trans child4
  have table2 : tableAt pageFormat tables 4 root [pml4Index address, pdpIndex address] =
      some (getPdppDir pdp) := (tableAt_snoc table1).trans child3
  have table3 : tableAt pageFormat tables 4 root
      [pml4Index address, pdpIndex address, pdIndex address] = some (getPdppDir pd) :=
    (tableAt_snoc table2).trans child2
  -- one address for two tables would be one path for both
  have apart : ∀ p q s t, p.length ≠ q.length → RadixTable.Path 512 p → RadixTable.Path 512 q →
      tableAt pageFormat tables 4 root p = some s → tableAt pageFormat tables 4 root q = some t →
      s ≠ t := by
    rintro p q s t lengths first second one two rfl
    exact lengths (congrArg List.length (distinct p q s first second one two))
  exact ⟨⟨apart [] _ _ _ (by simp) RadixTable.Path.nil path1 rfl table1,
      apart [] _ _ _ (by simp) RadixTable.Path.nil path2 rfl table2,
      apart [] _ _ _ (by simp) RadixTable.Path.nil path3 rfl table3⟩,
    ⟨apart _ _ _ _ (by simp) path1 path2 table1 table2,
      apart _ _ _ _ (by simp) path1 path3 table1 table3⟩,
    apart _ _ _ _ (by simp) path2 path3 table2 table3⟩

theorem mprotectPage_regular (flags : Nat) :
    ∃ tables' e, mprotectPage tables root address flags = some tables' ∧
      walk pageFormat tables' 4 root (pageIndices address) = some (1, e) ∧
      permBits (e.getLsbD 1)
          (along pageFormat tables' isUser 4 root (pageIndices address) && isUser e)
          (e.getLsbD 4) (e.getLsbD 63) =
        permBits (flags &&& 0x1 != 0) (flags &&& 0x2 != 0) false false := by
  obtain ⟨⟨r1, r2, r3⟩, ⟨s2, s3⟩, t3⟩ := path.apart distinct
  obtain ⟨present, write, user, cache, noExecute⟩ := protectEntry_perms pt flags
  obtain ⟨present4, present3, present2, present1⟩ := path.present
  unfold mprotectPage
  rw [path.walkPages_eq]
  dsimp only
  rw [setPermissions_eq, path.fourth]
  by_cases asked : flags &&& 0x2 = 0
  · have after : RegularPath (setEntry tables (getPdppDir pd) (ptIndex address)
        (protectEntry pt flags)) root address pml4 pdp pd (protectEntry pt flags) := by
      refine ⟨?_, ?_, ?_, setEntry_here _ _ _ _,
        ⟨present4, present3, present2, present.trans present1⟩, path.table⟩
      · rw [setEntry_apply, if_neg (fun both => r3 both.1), path.first]
      · rw [setEntry_apply, if_neg (fun both => s3 both.1), path.second]
      · rw [setEntry_apply, if_neg (fun both => t3 both.1), path.third]
    rw [if_neg (not_not.mpr asked)]
    refine ⟨_, _, rfl, after.walk_eq, ?_⟩
    rw [isUser, write, user, cache, noExecute, Bool.and_false, asked]
    rfl
  · rw [if_pos asked]
    have after : RegularPath
        (storeField (storeField (storeField (storeField (setEntry tables (getPdppDir pd)
          (ptIndex address) (protectEntry pt flags)) root (pml4Index address) 2 1 1)
          (getPdppDir pml4) (pdpIndex address) 2 1 1) (getPdppDir pdp) (pdIndex address) 2 1 1)
          (getPdppDir pd) (ptIndex address) 2 1 1) root address
        (setBitField pml4 2 1 1) (setBitField pdp 2 1 1) (setBitField pd 2 1 1)
        (setBitField (protectEntry pt flags) 2 1 1) := by
      refine ⟨?_, ?_, ?_, ?_, ?_, ?_⟩
      · simp [storeField, setEntry_apply, r1, r2, r3, path.first]
      · rw [(user_store pml4 1).2.2]
        simp [storeField, setEntry_apply, r1.symm, s2, s3, path.second]
      · rw [(user_store pdp 1).2.2]
        simp [storeField, setEntry_apply, r2.symm, s2.symm, t3, path.third]
      · rw [(user_store pd 1).2.2]
        simp [storeField, setEntry_apply, r3.symm, s3.symm, t3.symm]
      · simp only [(user_store _ 1).1, present]
        exact path.present
      · simp only [(user_store _ 1).2.1]
        exact path.table
    refine ⟨_, _, rfl, after.walk_eq, ?_⟩
    have stored : ∀ e : VmEntry, isUser (setBitField e 2 1 1) = true := by
      intro e
      rw [isUser, getLsbD_setBitField (by decide)]
      rfl
    rw [after.along_eq, stored, stored, stored, stored,
      getLsbD_setBitField_outside (by decide) (by decide),
      getLsbD_setBitField_outside (by decide) (by decide),
      getLsbD_setBitField_outside (by decide) (by decide), write, cache, noExecute,
      bne_iff_ne.mpr asked]
    rfl

end Distinct

theorem mprotect_one {size : Nat} (positive : 0 < size)
    (inside : address % pageSize4KiB + size ≤ pageSize4KiB)
    (below : address + size ≤ 2 ^ 64 - pageSize4KiB) :
    mprotect tables root address size flags =
      mprotectPage tables root (address - address % pageSize4KiB) flags := by
  have count : (address + size - (address - address % pageSize4KiB) + (pageSize4KiB - 1)) /
      pageSize4KiB = 1 := by
    unfold pageSize4KiB at inside ⊢
    omega
  rw [mprotect_pages below, count, List.range_one, List.foldlM_cons, Nat.zero_mul, Nat.add_zero]
  exact bind_pure _

theorem mprotect_perms {size : Nat} (distinct : Distinct pageFormat tables 512 4 root)
    (found : walk pageFormat tables 4 root (pageIndices address) = some (1, pt))
    (positive : 0 < size) (inside : address % pageSize4KiB + size ≤ pageSize4KiB)
    (below : address + size ≤ 2 ^ 64 - pageSize4KiB) (flags : Nat) :
    ∃ tables', mprotect tables root address size flags = some tables' ∧
      ∀ a, a / pageSize4KiB = address / pageSize4KiB →
        (PermsReported tables' root a flags ↔ flags &&& 0x28 = 0) := by
  have base : (address - address % pageSize4KiB) / pageSize4KiB = address / pageSize4KiB := by
    unfold pageSize4KiB
    omega
  obtain ⟨pml4, pdp, pd, path⟩ := walk_regular found
  obtain ⟨tables', e, done, after, perms⟩ :=
    mprotectPage_regular distinct (path.congr (pageIndices_same base)) flags
  refine ⟨tables', (mprotect_one positive inside below).trans done, ?_⟩
  intro a same
  rw [PermsReported, getPagePerms_congr (pageIndices_same (same.trans base.symm)) after, perms]
  exact protected_bits_iff flags

end Protecting

/-- After `map_address` of a page of 4 KiB the flags are reported exactly when no-execute was
    not asked for and user access was not held back by a table above; after `mprotect` of a
    mapped page, exactly when neither cache-disable nor no-execute was asked for. What
    `is_executable` says is right only where no-execute was asked for, so the two are never
    right together. In the last page of the address space `mprotect` does nothing to a range
    that ends with the page, and comes back from no other. -/
theorem perms_in_force_iff (root flags : Nat) :
    (∀ (s s' : Paging) (virtual physical a : Nat), s.Ready root → physical < 2 ^ 40 →
      s.mapAddress root virtual physical pageSize4KiB flags = some s' →
      a / pageSize4KiB = virtual / pageSize4KiB →
      (PermsReported s'.tables root a flags ↔
          flags &&& 0x20 = 0 ∧ (flags &&& 0x2 ≠ 0 → UserTables s.tables root virtual)) ∧
        (ExecutableReported s'.tables root a flags ↔ flags &&& 0x20 ≠ 0)) ∧
    (∀ (tables : Tables VmEntry) (address size : Nat) (pt : VmEntry),
      Distinct pageFormat tables 512 4 root →
      walk pageFormat tables 4 root (pageIndices address) = some (1, pt) →
      0 < size → address % pageSize4KiB + size ≤ pageSize4KiB →
      (address + size ≤ 2 ^ 64 - pageSize4KiB →
        ∃ tables', mprotect tables root address size flags = some tables' ∧
          ∀ a, a / pageSize4KiB = address / pageSize4KiB →
            (PermsReported tables' root a flags ↔ flags &&& 0x28 = 0) ∧
            (ExecutableReported tables' root a flags ↔ flags &&& 0x20 ≠ 0)) ∧
      (2 ^ 64 - pageSize4KiB < address + size → address + size < 2 ^ 64 →
        mprotect tables root address size flags = none) ∧
      (address + size = 2 ^ 64 → mprotect tables root address size flags = some tables)) ∧
    ∀ (tables : Tables VmEntry) (a : Nat),
      ¬ (PermsReported tables root a flags ∧ ExecutableReported tables root a flags) := by
  refine ⟨?_, ?_, ?_⟩
  · intro s s' virtual physical a ready small mapped page
    exact ⟨Paging.mapAddress_perms ready small mapped page, executableReported_iff⟩
  · intro tables address size pt distinct found positive inside
    refine ⟨fun below => ?_, mprotect_wraps, mprotect_to_end⟩
    obtain ⟨tables', done, perms⟩ := mprotect_perms distinct found positive inside below flags
    exact ⟨tables', done, fun a same => ⟨perms a same, executableReported_iff⟩⟩
  · rintro tables a ⟨perms, executable⟩
    have asked := executableReported_iff.mp executable
    have reported : getPagePerms tables root a &&& 0x20 = flags &&& 0x20 := by
      rw [perms, Nat.and_assoc]
      rfl
    rw [show getPagePerms tables root a &&& 0x20 = 0 from isExecutable_zero] at reported
    exact asked reported.symm

/-- A page for user code to write, and then the same page to read only. -/
theorem perms_in_force_blank :
    ∃ s' tables', blankPaging.mapAddress 0x1000 0x300000000000 0x7000 pageSize4KiB 3 = some s' ∧
      PermsReported s'.tables 0x1000 0x300000000000 3 ∧
      mprotect s'.tables 0x1000 0x300000000000 0x1000 2 = some tables' ∧
      PermsReported tables' 0x1000 0x300000000000 2 := by
  have found : ((blankPaging.mapAddress 0x1000 0x300000000000 0x7000 pageSize4KiB 3).map fun s' =>
      walk pageFormat s'.tables 4 0x1000 (pageIndices 0x300000000000)) =
        some (some (1, 0x7007)) := by
    decide +kernel
  obtain ⟨s', mapped, there⟩ := Option.map_eq_some_iff.mp found
  have ready := Paging.mapAddress_ready (Or.inl rfl) blank_ready (by decide) mapped
  have user : UserTables blankPaging.tables 0x1000 0x300000000000 := by
    unfold UserTables
    decide +kernel
  obtain ⟨tables', done, perms⟩ := ((perms_in_force_iff 0x1000 2).2.1 s'.tables 0x300000000000
    0x1000 _ ready.distinct there (by decide) (by decide)).1 (by decide)
  refine ⟨s', tables', mapped, ?_, done, (perms _ rfl).1.mpr (by decide)⟩
  exact ((perms_in_force_iff 0x1000 3).1 blankPaging s' _ _ _ blank_ready (by decide) mapped
    rfl).1.mpr ⟨by decide, fun _ => user⟩

/-- No-execute comes back as another flag after `map_address` and not at all after
    `mprotect`, and a page without it does not count as executable. -/
theorem perms_not_in_force :
    ∃ s s' tables',
      blankPaging.mapAddress 0x1000 0x300000000000 0x7000 pageSize4KiB 0x20 = some s ∧
      getPagePerms s.tables 0x1000 0x300000000000 = 0x4 ∧
      ¬ PermsReported s.tables 0x1000 0x300000000000 0x20 ∧
      blankPaging.mapAddress 0x1000 0x300000000000 0x7000 pageSize4KiB 0x1 = some s' ∧
      isExecutable s'.tables 0x1000 0x300000000000 = 0 ∧
      ¬ ExecutableReported s'.tables 0x1000 0x300000000000 0x1 ∧
      mprotect s'.tables 0x1000 0x300000000000 0x1000 0x20 = some tables' ∧
      getPagePerms tables' 0x1000 0x300000000000 = 0 ∧
      ¬ PermsReported tables' 0x1000 0x300000000000 0x20 := by
  have first : (blankPaging.mapAddress 0x1000 0x300000000000 0x7000 pageSize4KiB 0x20).map
      (fun s => getPagePerms s.tables 0x1000 0x300000000000) = some 0x4 := by
    decide +kernel
  have second : (blankPaging.mapAddress 0x1000 0x300000000000 0x7000 pageSize4KiB 0x1).bind
      (fun s => (mprotect s.tables 0x1000 0x300000000000 0x1000 0x20).map fun tables =>
        getPagePerms tables 0x1000 0x300000000000) = some 0 := by
    decide +kernel
  obtain ⟨s, mapped, perms⟩ := Option.map_eq_some_iff.mp first
  obtain ⟨s', mapped', rest⟩ := Option.bind_eq_some_iff.mp second
  obtain ⟨tables', done, cleared⟩ := Option.map_eq_some_iff.mp rest
  refine ⟨s, s', tables', mapped, perms, ?_, mapped', isExecutable_zero, ?_, done, cleared, ?_⟩
  · rw [PermsReported, perms]
    decide
  · rw [executableReported_iff]
    decide
  · rw [PermsReported, cleared]
    decide

end OmenMemory
