import Omen.Library.RadixTable
import Omen.Memory.PageUnmapping

/- Stores into the last table of a page of 4 KiB: `map_address` and `mprotect_page` where the
   page is there already. They change the page and no other one. -/
namespace OmenMemory
open RadixTable

def isWrite (e : VmEntry) : Bool := e.getLsbD 1

def mayWrite (tables : Tables VmEntry) (root address : Nat) : Bool :=
  match walk pageFormat tables 4 root (pageIndices address) with
  | some (_, e) => along pageFormat tables isWrite 4 root (pageIndices address) && isWrite e
  | none => false

/-- The level of the table in which the walk for an address ends. -/
def walkLevel (tables : Tables VmEntry) (root address : Nat) : Option Nat :=
  (walk pageFormat tables 4 root (pageIndices address)).map Prod.fst

/-- Entries of one tree were changed: its tables are the same ones, and addresses outside are
    translated as before. -/
structure Rewired (tables tables' : Tables VmEntry) (root : Nat) (inside : Nat → Prop) : Prop where
  others : ∀ a, ¬ inside a → walkTables tables' root a = walkTables tables root a ∧
    mayWrite tables' root a = mayWrite tables root a
  levels : ∀ a, walkLevel tables' root a = walkLevel tables root a
  tree : ∀ p, RadixTable.Path 512 p →
    tableAt pageFormat tables' 4 root p = tableAt pageFormat tables 4 root p
  frame : ∀ t, Fresh pageFormat tables 512 4 root t → tables' t = tables t

section Rewiring
variable {tables tables' tables'' : Tables VmEntry} {root other : Nat} {inside more : Nat → Prop}

theorem mayWrite_congr {T T' : Tables VmEntry} {a b : Nat} {address : Nat}
    (found : walk pageFormat T' 4 b (pageIndices address) =
      walk pageFormat T 4 a (pageIndices address))
    (links : along pageFormat T' isWrite 4 b (pageIndices address) =
      along pageFormat T isWrite 4 a (pageIndices address)) :
    mayWrite T' b address = mayWrite T a address := by
  unfold mayWrite
  rw [found, links]

theorem Rewired.refl (tables : Tables VmEntry) (root : Nat) (inside : Nat → Prop) :
    Rewired tables tables root inside :=
  ⟨fun _ _ => ⟨rfl, rfl⟩, fun _ => rfl, fun _ _ => rfl, fun _ _ => rfl⟩

theorem Rewired.trans (first : Rewired tables tables' root inside)
    (second : Rewired tables' tables'' root more) :
    Rewired tables tables'' root fun a => inside a ∨ more a := by
  refine ⟨fun a out => ?_, fun a => (second.levels a).trans (first.levels a),
    fun p path => (second.tree p path).trans (first.tree p path), fun t fresh => ?_⟩
  · rw [not_or] at out
    obtain ⟨place1, write1⟩ := first.others a out.1
    obtain ⟨place2, write2⟩ := second.others a out.2
    exact ⟨place2.trans place1, write2.trans write1⟩
  · rw [second.frame t fun p path there => fresh p path ?_, first.frame t fresh]
    rw [← first.tree p path, there]

theorem Rewired.weaken (first : Rewired tables tables' root inside)
    (wider : ∀ a, inside a → more a) : Rewired tables tables' root more :=
  ⟨fun a out => first.others a fun here => out (wider a here), first.levels, first.tree,
    first.frame⟩

theorem Rewired.distinct (first : Rewired tables tables' root inside)
    (distinct : Distinct pageFormat tables 512 4 root) :
    Distinct pageFormat tables' 512 4 root := by
  intro p q t path path' one two
  rw [first.tree p path] at one
  rw [first.tree q path'] at two
  exact distinct p q t path path' one two

end Rewiring

section Stores
variable {tables tables' : Tables VmEntry} {root address flags : Nat} {pml4 pdp pd pt e : VmEntry}

theorem bitField_congr {e' : VmEntry} {low width : Nat}
    (same : ∀ i, low ≤ i → e'.getLsbD i = e.getLsbD i) :
    bitField e' low width = bitField e low width := by
  refine Nat.eq_of_testBit_eq fun k => ?_
  rw [testBit_bitField, testBit_bitField, same _ (Nat.le_add_right low k)]

theorem RegularPath.last_table (path : RegularPath tables root address pml4 pdp pd pt) :
    tableAt pageFormat tables 4 root [pml4Index address, pdpIndex address, pdIndex address] =
      some (getPdppDir pd) := by
  obtain ⟨child4, child3, child2⟩ := path.children
  rw [tableAt, child4]
  dsimp only
  rw [tableAt, child3]
  dsimp only
  rw [tableAt, child2]
  rfl

theorem leaf_rewired (distinct : Distinct pageFormat tables 512 4 root)
    (path : RegularPath tables root address pml4 pdp pd pt) (present : isPresent e = true) :
    Rewired tables (setEntry tables (getPdppDir pd) (ptIndex address) e) root
        (SamePage 1 address) ∧
      ∀ a, SamePage 1 address a →
        walk pageFormat (setEntry tables (getPdppDir pd) (ptIndex address) e) 4 root
          (pageIndices a) = some (1, e) := by
  obtain ⟨-, -, above⟩ := tablePaths address
  have here := path.last_table
  have walked : ∀ a, SamePage 1 address a →
      walk pageFormat (setEntry tables (getPdppDir pd) (ptIndex address) e) 4 root
        (pageIndices a) = some (1, e) := by
    intro a same
    rw [samePage_iff.mp same]
    exact walk_set_here (q := []) distinct here above ((leaf_last e).trans present)
  have away : ∀ a, ¬ SamePage 1 address a → ¬ [pml4Index address, pdpIndex address,
      pdIndex address] ++ [ptIndex address] <+: pageIndices a :=
    fun a other through => other ((pageIndices_prefix_iff (Or.inl rfl) address a).mp through)
  refine ⟨⟨fun a other => ?_, fun a => ?_, fun p within => ?_, fun t fresh => ?_⟩, walked⟩
  · have found := (walk_set_other (e := e) distinct here above (pageIndices_path a)
      (away a other)).1
    rw [walkTables_eq, walkTables_eq, found]
    exact ⟨rfl, mayWrite_congr found (along_set_closed distinct here above (pageIndices_path a)
      (child_last _) (child_last e))⟩
  · by_cases same : SamePage 1 address a
    · rw [walkLevel, walkLevel, walked a same, samePage_iff.mp same, path.walk_eq]
      rfl
    · rw [walkLevel, walkLevel,
        (walk_set_other distinct here above (pageIndices_path a) (away a same)).1]
  · by_cases through : [pml4Index address, pdpIndex address, pdIndex address] ++
        [ptIndex address] <+: p
    · obtain ⟨rest, rfl⟩ := through
      rw [List.append_assoc, List.singleton_append, tableAt_set_here distinct here above,
        tableAt_append, here, Option.bind_some, tableAt]
      rw [show 4 - [pml4Index address, pdpIndex address, pdIndex address].length = 1 from rfl,
        child_last, child_last]
    · exact (walk_set_other distinct here above within through).2
  · refine setEntry_table_ne _ _ _ ?_
    rintro rfl
    exact fresh _ above here

theorem user_rewired {p : List Nat} {t i value : Nat}
    (here : tableAt pageFormat tables 4 root p = some t) (above : RadixTable.Path 512 p) :
    Rewired tables (storeField tables t i 2 1 value) root fun _ => False := by
  let alike (e e' : VmEntry) : Prop := ∀ i, i ≠ 2 → e'.getLsbD i = e.getLsbD i
  have kept : ∀ s k, alike (tables s k) (storeField tables t i 2 1 value s k) := by
    intro s k j other
    unfold storeField
    rw [setEntry_apply]
    split
    · rename_i both
      rw [both.1, both.2, getLsbD_setBitField_outside (by decide) (by omega)]
    · rfl
  have routes : ∀ l e e', alike e e' →
      pageFormat.child l e' = pageFormat.child l e ∧
        pageFormat.leaf l e' = pageFormat.leaf l e := by
    intro l e e' same
    have present : isPresent e' = isPresent e := by
      unfold isPresent
      rw [bitField_one, bitField_one, same 0 (by decide)]
    have ps : isPs e' = isPs e := by
      unfold isPs
      rw [bitField_one, bitField_one, same 7 (by decide)]
    have next : getPdppDir e' = getPdppDir e := by
      unfold getPdppDir
      rw [bitField_congr fun j high => same j (by omega)]
    unfold pageFormat
    dsimp only
    rw [present, ps, next]
    exact ⟨rfl, rfl⟩
  have address : ∀ l e e' a, alike e e' → leafAddress l e' a = leafAddress l e a := by
    intro l e e' a same
    unfold leafAddress
    rw [bitField_congr fun j high => same j (by unfold levelShift at high; omega)]
  have walks := fun a => (walk_alike (n := 4) (t := root) (q := pageIndices a) kept routes).2
  refine ⟨fun a _ => ?_, fun a => ?_, fun p _ => (walk_alike kept routes).1,
    fun s fresh => ?_⟩
  · have links := along_alike (n := 4) (t := root) (q := pageIndices a) (P := isWrite) kept
      (fun l e e' same => (routes l e e' same).1) (fun e e' same => same 1 (by decide))
    rw [walkTables_eq, walkTables_eq, mayWrite, mayWrite, links]
    rcases walks a with ⟨none1, none2⟩ | ⟨l, e, e', same, found, found'⟩
    · rw [none1, none2]
      exact ⟨rfl, rfl⟩
    · rw [found, found']
      dsimp only [Option.map_some]
      rw [address l e e' a same, isWrite, same 1 (by decide)]
      exact ⟨rfl, rfl⟩
  · rw [walkLevel, walkLevel]
    rcases walks a with ⟨none1, none2⟩ | ⟨l, e, e', -, found, found'⟩
    · rw [none1, none2]
    · rw [found, found']
      rfl
  · refine setEntry_table_ne _ _ _ ?_
    rintro rfl
    exact fresh p above here

theorem RegularPath.tables_above (path : RegularPath tables root address pml4 pdp pd pt) :
    tableAt pageFormat tables 4 root [pml4Index address] = some (getPdppDir pml4) ∧
      tableAt pageFormat tables 4 root [pml4Index address, pdpIndex address] =
        some (getPdppDir pdp) := by
  obtain ⟨child4, child3, -⟩ := path.children
  constructor
  · rw [tableAt, child4]
    rfl
  · rw [tableAt, child4]
    dsimp only
    rw [tableAt, child3]
    rfl

theorem protectEntry_address (e : VmEntry) (flags a : Nat) :
    leafAddress 1 (protectEntry e flags) a = leafAddress 1 e a := by
  unfold leafAddress protectEntry levelShift
  simp (disch := decide) only [bitField_setBitField_outside]

/-- `mprotect_page` translates every address as before; without the flag for writing the page
    cannot be written to. -/
theorem mprotectPage_rewired (distinct : Distinct pageFormat tables 512 4 root)
    (regular : walkLevel tables root address = some 1) (flags : Nat) :
    ∃ tables', mprotectPage tables root address flags = some tables' ∧
      Rewired tables tables' root (SamePage 1 address) ∧
      (∀ a, walkTables tables' root a = walkTables tables root a) ∧
      (flags &&& 0x1 = 0 → ∀ a, SamePage 1 address a → mayWrite tables' root a = false) := by
  obtain ⟨⟨l, pt⟩, found, level⟩ := Option.map_eq_some_iff.mp regular
  obtain rfl : l = 1 := level
  obtain ⟨pml4, pdp, pd, path⟩ := walk_regular found
  obtain ⟨kept, write, -⟩ := protectEntry_perms pt flags
  obtain ⟨stored, walked⟩ := leaf_rewired distinct path (kept.trans path.present.2.2.2)
  have places : ∀ a, walkTables (setEntry tables (getPdppDir pd) (ptIndex address)
      (protectEntry pt flags)) root a = walkTables tables root a := by
    intro a
    by_cases same : SamePage 1 address a
    · rw [walkTables_eq, walkTables_eq, walked a same, samePage_iff.mp same, found]
      exact congrArg some (protectEntry_address pt flags a)
    · exact (stored.others a same).1
  have closed : flags &&& 0x1 = 0 → ∀ a, SamePage 1 address a →
      mayWrite (setEntry tables (getPdppDir pd) (ptIndex address) (protectEntry pt flags)) root a =
        false := by
    intro without a same
    rw [mayWrite, walked a same]
    dsimp only
    rw [isWrite, write, without, bne_self_eq_false, Bool.and_false]
  unfold mprotectPage
  rw [path.walkPages_eq]
  dsimp only
  rw [setPermissions_eq, path.fourth]
  split
  · obtain ⟨path1, path2, path3⟩ := tablePaths address
    -- four stores of the user bit, each into a table of the tree
    have user1 := @user_rewired _ root [] root (pml4Index address) 1
      ((stored.tree [] RadixTable.Path.nil).trans rfl) RadixTable.Path.nil
    have after1 := stored.trans user1
    have user2 := @user_rewired _ root _ _ (pdpIndex address) 1
      ((after1.tree _ path1).trans path.tables_above.1) path1
    have after2 := after1.trans user2
    have user3 := @user_rewired _ root _ _ (pdIndex address) 1
      ((after2.tree _ path2).trans path.tables_above.2) path2
    have after3 := after2.trans user3
    have user4 := @user_rewired _ root _ _ (ptIndex address) 1
      ((after3.tree _ path3).trans path.last_table) path3
    have upper := ((user1.trans user2).trans user3).trans user4
    refine ⟨_, rfl, (after3.trans user4).weaken fun a => ?_, fun a => ?_, fun without a same => ?_⟩
    · rintro ((((here | none) | none) | none) | none)
      · exact here
      all_goals cases none
    · exact (upper.others a (by simp)).1.trans (places a)
    · exact (upper.others a (by simp)).2.trans (closed without a same)
  · exact ⟨_, rfl, stored, places, closed⟩

end Stores

def CoveredPages (start pages a : Nat) : Prop :=
  ∃ i < pages, SamePage 1 (start + i * pageSize4KiB) a

section Ranges
variable {tables tables' : Tables VmEntry} {root start pages flags : Nat}

theorem CoveredPages.succ {a : Nat} (covered : CoveredPages start (pages + 1) a) :
    CoveredPages start pages a ∨ SamePage 1 (start + pages * pageSize4KiB) a := by
  obtain ⟨i, less, here⟩ := covered
  rcases Nat.lt_succ_iff_lt_or_eq.mp less with earlier | rfl
  · exact Or.inl ⟨i, earlier, here⟩
  · exact Or.inr here

theorem coveredPages_succ_of {a : Nat}
    (covered : CoveredPages start pages a ∨ SamePage 1 (start + pages * pageSize4KiB) a) :
    CoveredPages start (pages + 1) a := by
  rcases covered with ⟨i, less, here⟩ | here
  · exact ⟨i, Nat.lt_succ_of_lt less, here⟩
  · exact ⟨pages, Nat.lt_succ_self pages, here⟩

theorem mprotectPages_rewired (distinct : Distinct pageFormat tables 512 4 root)
    (regular : ∀ i < pages, walkLevel tables root (start + i * pageSize4KiB) = some 1)
    (flags : Nat) :
    ∃ tables', (List.range pages).foldlM (fun tables i =>
        mprotectPage tables root (start + i * pageSize4KiB) flags) tables = some tables' ∧
      Rewired tables tables' root (CoveredPages start pages) ∧
      (∀ a, walkTables tables' root a = walkTables tables root a) ∧
      (flags &&& 0x1 = 0 → ∀ a, CoveredPages start pages a → mayWrite tables' root a = false) := by
  induction pages with
  | zero =>
    refine ⟨tables, rfl, Rewired.refl _ _ _, fun _ => rfl, fun _ a ⟨i, less, _⟩ => ?_⟩
    exact absurd less (Nat.not_lt_zero i)
  | succ pages ih =>
    obtain ⟨middle, done, before, places, closed⟩ :=
      ih fun i less => regular i (Nat.lt_succ_of_lt less)
    obtain ⟨after, step, last, same, shut⟩ := mprotectPage_rewired (before.distinct distinct)
      ((before.levels _).trans (regular pages (Nat.lt_succ_self pages))) flags
    refine ⟨after, ?_, (before.trans last).weaken fun a => coveredPages_succ_of,
      fun a => (same a).trans (places a), fun without a covered => ?_⟩
    · rw [foldlM_range_succ, done]
      exact step
    · by_cases here : SamePage 1 (start + pages * pageSize4KiB) a
      · exact shut without a here
      · rw [(last.others a here).2]
        exact closed without a (covered.succ.resolve_right here)

end Ranges

namespace Paging
variable {s s' : Paging} {root virtual physical flags : Nat} {pml4 pdp pd pt : VmEntry}

def pagesOf (pageSize size : Nat) : Nat :=
  if size % pageSize ≠ 0 then size / pageSize + 1 else size / pageSize

def mapPages (s : Paging) (root virtual physical pageSize size flags : Nat) : Option Paging :=
  -- a division by zero
  if pageSize = 0 then none
  else (List.range (pagesOf pageSize size)).foldlM (fun s i =>
    s.mapAddress root ((virtual + i * pageSize) % 2 ^ 64) ((physical + i * pageSize) % 2 ^ 64)
      pageSize flags) s

end Paging

end OmenMemory
