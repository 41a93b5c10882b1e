import Omen.Memory.PageStores

/- Which entries `mprotect` changes: the last ones of the pages that it covers, and above them
   user bits that no walk for an address comes to see. Pages are known by the four indices of
   their addresses. -/
namespace OmenMemory
open RadixTable

/-- The last entries of the pages inside have been written, and those of all other pages, large
    ones included, are what they were. -/
structure LeavesChanged (tables tables' : Tables VmEntry) (root : Nat) (inside : Nat → Prop)
    (write : Bool) : Prop where
  within : ∀ a, inside a → ∃ e, walk pageFormat tables' 4 root (pageIndices a) = some (1, e) ∧
    isWrite e = write
  outside : ∀ a, ¬ inside a → walk pageFormat tables' 4 root (pageIndices a) =
    walk pageFormat tables 4 root (pageIndices a)
  tree : ∀ p, RadixTable.Path 512 p →
    tableAt pageFormat tables' 4 root p = tableAt pageFormat tables 4 root p

section Stores
variable {tables tables' tables'' : Tables VmEntry} {root address flags t : Nat}
  {inside more : Nat → Prop} {write : Bool} {pml4 pdp pd pt e : VmEntry}

theorem LeavesChanged.distinct (changed : LeavesChanged tables tables' root inside write)
    (distinct : Distinct pageFormat tables 512 4 root) :
    Distinct pageFormat tables' 512 4 root := by
  intro p q s first second one two
  rw [changed.tree p first] at one
  rw [changed.tree q second] at two
  exact distinct p q s first second one two

theorem LeavesChanged.trans (first : LeavesChanged tables tables' root inside write)
    (second : LeavesChanged tables' tables'' root more write) :
    LeavesChanged tables tables'' root (fun a => inside a ∨ more a) write where
  within a either := by
    by_cases here : more a
    · exact second.within a here
    · obtain ⟨e, found, bit⟩ := first.within a (either.resolve_right here)
      exact ⟨e, (second.outside a here).trans found, bit⟩
  outside a neither := by
    rw [not_or] at neither
    exact (second.outside a neither.2).trans (first.outside a neither.1)
  tree p path := (second.tree p path).trans (first.tree p path)

theorem leaf_changed (distinct : Distinct pageFormat tables 512 4 root)
    (found : walk pageFormat tables 4 root (pageIndices address) = some (1, pt))
    (table : tableAt pageFormat tables 4 root
      [pml4Index address, pdpIndex address, pdIndex address] = some t)
    (present : isPresent e = true) :
    LeavesChanged tables (setEntry tables t (ptIndex address) e) root (SamePage 1 address)
      (isWrite e) := by
  obtain ⟨pml4, pdp, pd, path⟩ := walk_regular found
  obtain rfl : getPdppDir pd = t := Option.some.inj (path.last_table.symm.trans table)
  obtain ⟨rewired, walked⟩ := leaf_rewired distinct path present
  refine ⟨fun a same => ⟨e, walked a same, rfl⟩, fun a other => ?_, rewired.tree⟩
  refine (walk_set_other distinct table (RadixTable.Path.left (pageIndices_path address))
    (pageIndices_path a) fun through => other ?_).1
  exact (pageIndices_prefix_iff (Or.inl rfl) address a).mp through

theorem user_unseen (p : List Nat) (i : Nat) {f next : Nat}
    (distinct : Distinct pageFormat tables 512 4 root)
    (here : tableAt pageFormat tables 4 root p = some f)
    (behind : tableAt pageFormat tables 4 root (p ++ [i]) = some next)
    (path : RadixTable.Path 512 (p ++ [i])) :
    LeavesChanged tables (storeField tables f i 2 1 1) root (fun _ => False) write := by
  have was := (tableAt_snoc here).symm.trans behind
  have link : pageFormat.child (4 - p.length) (setBitField (tables f i) 2 1 1) = some next := by
    rw [← was]
    obtain ⟨present, ps, address⟩ := user_store (tables f i) 1
    unfold pageFormat
    dsimp only
    rw [present, ps, address]
  have unseen := fun q within => walk_set_link (q := q) distinct here
    (RadixTable.Path.left path) (path i (by simp)) was link within
  exact ⟨fun _ never => never.elim, fun a _ => (unseen _ (pageIndices_path a)).1,
    fun q within => (unseen q within).2⟩

theorem mprotectPage_leaves (distinct : Distinct pageFormat tables 512 4 root)
    (regular : walkLevel tables root address = some 1) (flags : Nat) :
    ∃ tables', mprotectPage tables root address flags = some tables' ∧
      LeavesChanged tables tables' root (SamePage 1 address) (flags &&& 0x1 != 0) := by
  obtain ⟨⟨l, pt⟩, found, level⟩ := Option.map_eq_some_iff.mp regular
  obtain rfl : l = 1 := level
  obtain ⟨pml4, pdp, pd, path⟩ := walk_regular found
  obtain ⟨kept, write, -⟩ := protectEntry_perms pt flags
  have stored := leaf_changed distinct found path.last_table (kept.trans path.present.2.2.2)
  rw [isWrite, write] at stored
  unfold mprotectPage
  rw [path.walkPages_eq]
  dsimp only
  rw [setPermissions_eq, path.fourth]
  split
  · obtain ⟨path1, path2, path3⟩ := tablePaths address
    obtain ⟨table1, table2⟩ := path.tables_above
    -- the user bits from the root down, each in an entry that leads on
    have after1 := stored.trans (user_unseen [] (pml4Index address) (stored.distinct distinct) rfl
      ((stored.tree _ path1).trans table1) path1)
    have after2 := after1.trans (user_unseen [pml4Index address] (pdpIndex address)
      (after1.distinct distinct) ((after1.tree _ path1).trans table1)
      ((after1.tree _ path2).trans table2) path2)
    have after3 := after2.trans (user_unseen [pml4Index address, pdpIndex address]
      (pdIndex address) (after2.distinct distinct) ((after2.tree _ path2).trans table2)
      ((after2.tree _ path3).trans path.last_table) path3)
    -- and the one of the page itself
    obtain ⟨e, there, bit⟩ := after3.within address (Or.inl (Or.inl (Or.inl rfl)))
    obtain ⟨pml4', pdp', pd', path'⟩ := walk_regular there
    have last := (after3.tree _ path3).trans path.last_table
    have fourth := path'.fourth
    rw [Option.some.inj (path'.last_table.symm.trans last)] at fourth
    have present := ((user_store e 1).1).trans path'.present.2.2.2
    have after4 := leaf_changed (after3.distinct distinct) there last present
    have untouched : isWrite (setBitField e 2 1 1) = (flags &&& 0x1 != 0) := by
      rw [isWrite, getLsbD_setBitField_outside (by decide) (by decide)]
      exact bit
    rw [untouched] at after4
    refine ⟨_, rfl, ?_⟩
    rw [storeField, fourth]
    have all := after3.trans after4
    exact ⟨fun a here => all.within a (Or.inr here),
      fun a other => all.outside a (by simp [other]), all.tree⟩
  · exact ⟨_, rfl, stored⟩

theorem mprotectPages_leaves {start pages : Nat} (distinct : Distinct pageFormat tables 512 4 root)
    (regular : ∀ i < pages, walkLevel tables root (start + i * pageSize4KiB) = some 1)
    (flags : Nat) :
    ∃ tables', (List.range pages).foldlM (fun tables i =>
        mprotectPage tables root (start + i * pageSize4KiB) flags) tables = some tables' ∧
      LeavesChanged tables tables' root (CoveredPages start pages) (flags &&& 0x1 != 0) := by
  induction pages with
  | zero =>
    have none : ∀ a, ¬ CoveredPages start 0 a := by
      rintro a ⟨i, less, -⟩
      exact Nat.not_lt_zero i less
    exact ⟨tables, rfl, fun a here => absurd here (none a), fun _ _ => rfl, fun _ _ => rfl⟩
  | succ pages ih =>
    obtain ⟨middle, done, before⟩ := ih fun i less => regular i (Nat.lt_succ_of_lt less)
    obtain ⟨other, again, rewired, -⟩ := mprotectPages_rewired distinct
      (fun i less => regular i (Nat.lt_succ_of_lt less)) flags
    obtain rfl : middle = other := Option.some.inj (done.symm.trans again)
    obtain ⟨after, step, last⟩ := mprotectPage_leaves (before.distinct distinct)
      ((rewired.levels _).trans (regular pages (Nat.lt_succ_self pages))) flags
    refine ⟨after, ?_, ?_⟩
    · rw [foldlM_range_succ, done]
      exact step
    · have all := before.trans last
      exact ⟨fun a here => all.within a here.succ,
        fun a other => all.outside a fun either => other (coveredPages_succ_of either), all.tree⟩

end Stores

def Overlaps (address size b : Nat) : Prop :=
  ∃ a, address ≤ a ∧ a < address + size ∧ SamePage 1 a b

section Ranges
variable {tables : Tables VmEntry} {root address size flags : Nat}

theorem samePage_of_div {a b : Nat} (same : a / pageSize4KiB = b / pageSize4KiB) :
    SamePage 1 a b := by
  unfold SamePage levelShift
  unfold pageSize4KiB at same
  omega

theorem round_inside {i : Nat} (less : i < (address + size - (address - address % pageSize4KiB) +
      (pageSize4KiB - 1)) / pageSize4KiB) (positive : 0 < size) :
    ∃ a, address ≤ a ∧ a < address + size ∧
      a / pageSize4KiB = (address - address % pageSize4KiB + i * pageSize4KiB) / pageSize4KiB := by
  refine ⟨max address (address - address % pageSize4KiB + i * pageSize4KiB), ?_⟩
  unfold pageSize4KiB at *
  omega

theorem overlaps_iff (positive : 0 < size) (b : Nat) :
    Overlaps address size b ↔ CoveredPages (address - address % pageSize4KiB)
      ((address + size - (address - address % pageSize4KiB) + (pageSize4KiB - 1)) / pageSize4KiB)
      b := by
  constructor
  · rintro ⟨a, low, high, same⟩
    refine ⟨(a - (address - address % pageSize4KiB)) / pageSize4KiB, ?_, ?_⟩
    · unfold pageSize4KiB
      omega
    · have page : SamePage 1 a (address - address % pageSize4KiB +
          (a - (address - address % pageSize4KiB)) / pageSize4KiB * pageSize4KiB) := by
        apply samePage_of_div
        unfold pageSize4KiB
        omega
      exact same.trans page.symm
  · rintro ⟨i, less, same⟩
    obtain ⟨a, low, high, page⟩ := round_inside less positive
    exact ⟨a, low, high, same.trans (samePage_of_div page)⟩

/-- For an end that does not wrap, `mprotect` does what it is asked for exactly when no page of
    the range is the last one of the address space: behind that one it goes on at page 0. -/
theorem mprotect_exact_iff (distinct : Distinct pageFormat tables 512 4 root)
    (positive : 0 < size) (below : address + size < 2 ^ 64)
    (mapped : ∀ a, address ≤ a → a < address + size → walkLevel tables root a = some 1)
    (flags : Nat) :
    (∃ tables', mprotect tables root address size flags = some tables' ∧
      (∀ b, Overlaps address size b →
        ∃ e, walk pageFormat tables' 4 root (pageIndices b) = some (1, e) ∧
          isWrite e = (flags &&& 0x1 != 0)) ∧
      (∀ b, ¬ Overlaps address size b → walk pageFormat tables' 4 root (pageIndices b) =
        walk pageFormat tables 4 root (pageIndices b)) ∧
      ∀ b, walkTables tables' root b = walkTables tables root b ∧
        getPhysicalAddress tables' root b = getPhysicalAddress tables root b) ↔
      address + size ≤ 2 ^ 64 - pageSize4KiB := by
  constructor
  · rintro ⟨tables', done, -⟩
    by_contra last
    rw [mprotect_wraps (Nat.lt_of_not_le last) below] at done
    cases done
  intro inner
  have regular : ∀ i < (address + size - (address - address % pageSize4KiB) +
      (pageSize4KiB - 1)) / pageSize4KiB,
      walkLevel tables root (address - address % pageSize4KiB + i * pageSize4KiB) = some 1 := by
    intro i less
    obtain ⟨a, low, high, page⟩ := round_inside less positive
    rw [walkLevel, ← samePage_iff.mp (samePage_of_div page.symm)]
    exact mapped a low high
  obtain ⟨tables', done, changed⟩ := mprotectPages_leaves distinct regular flags
  obtain ⟨other, again, -, places, -⟩ := mprotectPages_rewired distinct regular flags
  obtain rfl : tables' = other := Option.some.inj (done.symm.trans again)
  refine ⟨tables', (mprotect_pages inner).trans done,
    fun b here => changed.within b ((overlaps_iff positive b).mp here),
    fun b away => changed.outside b fun here => away ((overlaps_iff positive b).mpr here),
    fun b => ⟨places b, ?_⟩⟩
  unfold getPhysicalAddress
  rw [places b]

/-- Sixteen bytes in the middle of a page that user code may write, made read only. -/
theorem mprotect_exact_middle :
    ∃ s tables', blankPaging.mapAddress 0x1000 0x300000000000 0x7000 pageSize4KiB 3 = some s ∧
      mprotect s.tables 0x1000 0x300000000800 0x10 2 = some tables' ∧
      (∃ e, walk pageFormat tables' 4 0x1000 (pageIndices 0x300000000000) = some (1, e) ∧
        isWrite e = false) ∧
      walkTables tables' 0x1000 0x300000000000 = walkTables s.tables 0x1000 0x300000000000 := by
  have found : ((blankPaging.mapAddress 0x1000 0x300000000000 0x7000 pageSize4KiB 3).map fun s =>
      walk pageFormat s.tables 4 0x1000 (pageIndices 0x300000000000)) =
        some (some (1, 0x7007)) := by
    decide +kernel
  obtain ⟨s, mapped, there⟩ := Option.map_eq_some_iff.mp found
  have ready := Paging.mapAddress_ready (Or.inl rfl) blank_ready (by decide) mapped
  have level : ∀ a, 0x300000000800 ≤ a → a < 0x300000000800 + 0x10 →
      walkLevel s.tables 0x1000 a = some 1 := by
    intro a low high
    have page : SamePage 1 0x300000000000 a := samePage_of_div (by unfold pageSize4KiB; omega)
    rw [walkLevel, samePage_iff.mp page, there]
    rfl
  obtain ⟨tables', done, within, -, places⟩ :=
    (mprotect_exact_iff ready.distinct (by decide) (by decide) level 2).mpr (by decide)
  refine ⟨s, tables', mapped, done, within _ ⟨0x300000000800, ?_, ?_, ?_⟩, (places _).1⟩
  · decide
  · decide
  · decide

/-- The last page of the address space alone: page 0 is asked for next, and is not there. -/
theorem mprotect_last_page :
    ∃ s, blankPaging.mapAddress 0x1000 0xfffffffffffff000 0x7000 pageSize4KiB 3 = some s ∧
      Distinct pageFormat s.tables 512 4 0x1000 ∧
      (∀ a, 0xfffffffffffff000 ≤ a → a < 0xfffffffffffff000 + 0x10 →
        walkLevel s.tables 0x1000 a = some 1) ∧
      mprotectPage s.tables 0x1000 0 2 = none ∧
      mprotect s.tables 0x1000 0xfffffffffffff000 0x10 2 = none := by
  have found : ((blankPaging.mapAddress 0x1000 0xfffffffffffff000 0x7000 pageSize4KiB 3).map
      fun s => (walk pageFormat s.tables 4 0x1000 (pageIndices 0xfffffffffffff000),
        (mprotectPage s.tables 0x1000 0 2).isNone)) = some (some (1, 0x7007), true) := by
    decide +kernel
  obtain ⟨s, mapped, both⟩ := Option.map_eq_some_iff.mp found
  obtain ⟨there, absent⟩ := Prod.mk.inj both
  have ready := Paging.mapAddress_ready (Or.inl rfl) blank_ready (by decide) mapped
  refine ⟨s, mapped, ready.distinct, ?_, Option.isNone_iff_eq_none.mp absent,
    mprotect_wraps (by decide) (by decide)⟩
  intro a low high
  have page : SamePage 1 0xfffffffffffff000 a := samePage_of_div (by unfold pageSize4KiB; omega)
  rw [walkLevel, samePage_iff.mp page, there]
  rfl

end Ranges

end OmenMemory
