import Omen.Memory.PageEntries

/- What `map_address` does to the translation of every address: tables are added where the
   walks ended, then one page is stored. -/
namespace OmenMemory
open RadixTable

structure Supply (tables : Tables VmEntry) (root : Nat) (pages : List Nat) : Prop where
  nodup : pages.Nodup
  fresh : ∀ page ∈ pages, Fresh pageFormat tables 512 4 root page
  aligned : ∀ page ∈ pages, page % 2 ^ 12 = 0
  small : ∀ page ∈ pages, page < 2 ^ 40

namespace Paging

structure Ready (s : Paging) (root : Nat) : Prop where
  distinct : Distinct pageFormat s.tables 512 4 root
  supply : Supply s.tables root s.pages

structure Grown (s s' : Paging) (root depth : Nat) : Prop where
  ready : s'.Ready root
  walks : ∀ q, RadixTable.Path 512 q →
    walk pageFormat s'.tables 4 root q = walk pageFormat s.tables 4 root q
  deeper : ∀ q, RadixTable.Path 512 q → depth < q.length →
    tableAt pageFormat s'.tables 4 root q = tableAt pageFormat s.tables 4 root q

section Steps
variable {s s' s'' : Paging} {root f i depth : Nat} {p : List Nat}

theorem Ready.grown (ready : s.Ready root) : Grown s s root depth :=
  ⟨ready, fun _ _ => rfl, fun _ _ _ => rfl⟩

theorem Grown.trans (first : Grown s s' root depth) (second : Grown s' s'' root (depth + 1)) :
    Grown s s'' root (depth + 1) where
  ready := second.ready
  walks q path := (second.walks q path).trans (first.walks q path)
  deeper q path longer :=
    (second.deeper q path longer).trans (first.deeper q path (Nat.lt_of_succ_lt longer))

theorem addTable_grown (ready : s.Ready root)
    (here : tableAt pageFormat s.tables 4 root p = some f) (above : RadixTable.Path 512 p)
    (high : p.length < 3)
    (unused : pageFormat.leaf (4 - p.length) (s.tables f i) = false ∧
      pageFormat.child (4 - p.length) (s.tables f i) = none)
    (added : s.addTable f i = some s') :
    Grown s s' root (p.length + 1) ∧
      tableAt pageFormat s'.tables 4 root (p ++ [i]) = some (getPdppDir (s'.tables f i)) := by
  obtain ⟨tables, pages⟩ := s
  cases pages with
  | nil => cases added
  | cons page rest =>
    have supply := ready.supply
    dsimp only at here unused supply
    have fresh := supply.fresh page List.mem_cons_self
    have level : 4 - p.length = 2 ∨ 4 - p.length = 3 ∨ 4 - p.length = 4 := by omega
    unfold addTable storeEntry at added
    dsimp only at added
    cases stored : initEntry (Function.update tables page (fun _ => 0) f i) pageSizeDir page
        tablePerms with
    | none =>
      rw [stored] at added
      cases added
    | some e =>
      rw [stored] at added
      cases added
      have link := initEntry_table level stored (supply.aligned page List.mem_cons_self)
        (supply.small page List.mem_cons_self)
      have planting := planted ready.distinct here above fresh (fun l _ => empty_entry l) unused
        link
      refine ⟨⟨⟨planting.distinct, ?_⟩, planting.walks, ?_⟩, ?_⟩
      · refine ⟨supply.nodup.of_cons, ?_, ?_, ?_⟩
        · intro a member
          refine planting.fresh a ?_ (supply.fresh a (List.mem_cons_of_mem _ member))
          rintro rfl
          exact (List.nodup_cons.mp supply.nodup).1 member
        · exact fun a member => supply.aligned a (List.mem_cons_of_mem _ member)
        · exact fun a member => supply.small a (List.mem_cons_of_mem _ member)
      · intro q path longer
        refine planting.others q path ?_
        rintro rfl
        rw [List.length_append, List.length_singleton] at longer
        omega
      · dsimp only
        rw [setEntry_here, ← child_address link]
        exact planting.table

end Steps

end Paging

def Mapped (before after : Tables VmEntry) (root virtual physical l : Nat) : Prop :=
  ∀ a, walkTables after root a =
    if SamePage l virtual a then some (physical + a % 2 ^ levelShift l)
    else walkTables before root a

namespace Paging

section Pages
variable {s s' : Paging} {root f i l virtual physical size : Nat} {perms : VmmPerms}
  {p : List Nat}

theorem storeEntry_mapped (ready : s.Ready root)
    (here : tableAt pageFormat s.tables 4 root p = some f) (level : l = 1 ∨ l = 2 ∨ l = 3)
    (path : p ++ [i] = (pageIndices virtual).take (5 - l))
    (aligned : physical % 2 ^ levelShift l = 0) (small : physical < 2 ^ 40)
    (stored : s.storeEntry f i (2 ^ levelShift l) physical perms = some s') :
    s'.Ready root ∧ Mapped s.tables s'.tables root virtual physical l := by
  have depth : 4 - p.length = l := by
    have length := congrArg List.length path
    rw [List.length_append, List.length_singleton, List.length_take] at length
    have four : (pageIndices virtual).length = 4 := rfl
    omega
  have above : RadixTable.Path 512 p := by
    have whole : RadixTable.Path 512 ((pageIndices virtual).take (5 - l)) :=
      fun k member => pageIndices_path virtual k (List.mem_of_mem_take member)
    exact RadixTable.Path.left (path ▸ whole)
  unfold storeEntry at stored
  cases new : initEntry (s.tables f i) (2 ^ levelShift l) physical perms with
  | none =>
    rw [new] at stored
    cases stored
  | some e =>
    rw [new] at stored
    cases stored
    obtain ⟨leaf, closed, address⟩ := initEntry_leaf level new aligned small
    have supply := ready.supply
    refine ⟨⟨ready.distinct.set_closed here above (depth ▸ closed), supply.nodup, ?_,
      supply.aligned, supply.small⟩, ?_⟩
    · intro page member
      exact (supply.fresh page member).set_closed ready.distinct here above (depth ▸ closed)
    intro a
    rw [walkTables_eq, walkTables_eq]
    by_cases same : SamePage l virtual a
    · rw [if_pos same]
      obtain ⟨rest, split⟩ := path ▸ (pageIndices_prefix_iff level virtual a).mpr same
      rw [← split, List.append_assoc, List.singleton_append,
        walk_set_here ready.distinct here above (depth ▸ leaf), depth, Option.map_some, address]
    · rw [if_neg same]
      have away : ¬ p ++ [i] <+: pageIndices a := by
        rwa [path, pageIndices_prefix_iff level]
      rw [(walk_set_other ready.distinct here above (pageIndices_path a) away).1]

theorem next_table (here : tableAt pageFormat s.tables 4 root p = some f)
    (linked : pageFormat.child (4 - p.length) (s.tables f i) ≠ none) :
    tableAt pageFormat s.tables 4 root (p ++ [i]) = some (getPdppDir (s.tables f i)) := by
  obtain ⟨t, link⟩ := Option.ne_none_iff_exists'.mp linked
  rw [tableAt_snoc here, link, child_address link]

theorem enter_cases {mapped : Bool} (ready : s.Ready root)
    (here : tableAt pageFormat s.tables 4 root p = some f) (above : RadixTable.Path 512 p)
    (level : 4 - p.length = 2 ∨ 4 - p.length = 3)
    (entered : s.enter f i (2 ^ levelShift (4 - p.length)) size physical perms =
      some (mapped, s')) :
    mapped = true ∧ size = 2 ^ levelShift (4 - p.length) ∧
        tableAt pageFormat s.tables 4 root (p ++ [i]) = none ∧
        s.storeEntry f i size physical perms = some s' ∨
      mapped = false ∧ Grown s s' root (p.length + 1) ∧
        tableAt pageFormat s'.tables 4 root (p ++ [i]) = some (getPdppDir (s'.tables f i)) ∧
        (size = 2 ^ levelShift (4 - p.length) →
          tableAt pageFormat s.tables 4 root (p ++ [i]) ≠ none) := by
  have leaf := leaf_middle (s.tables f i) level
  have child := child_middle (s.tables f i) level
  have page : pageFormat.child (4 - p.length) (s.tables f i) = none →
      size = 2 ^ levelShift (4 - p.length) →
      (s.storeEntry f i size physical perms).map (true, ·) = some (mapped, s') →
      mapped = true ∧ size = 2 ^ levelShift (4 - p.length) ∧
        tableAt pageFormat s.tables 4 root (p ++ [i]) = none ∧
        s.storeEntry f i size physical perms = some s' := by
    intro closed whole found
    obtain ⟨t, stored, pair⟩ := Option.map_eq_some_iff.mp found
    cases pair
    exact ⟨rfl, whole, (tableAt_snoc here).trans closed, stored⟩
  unfold enter at entered
  dsimp only at entered
  cases present : isPresent (s.tables f i) with
  | false =>
    rw [present] at leaf child entered
    rw [if_pos (by decide)] at entered
    by_cases whole : size = 2 ^ levelShift (4 - p.length)
    · rw [if_pos whole, ← whole] at entered
      exact Or.inl (page child whole entered)
    · rw [if_neg whole] at entered
      obtain ⟨t, added, pair⟩ := Option.map_eq_some_iff.mp entered
      cases pair
      obtain ⟨grown, table⟩ := addTable_grown ready here above (by omega) ⟨leaf, child⟩ added
      exact Or.inr ⟨rfl, grown, table, fun same => absurd same whole⟩
  | true =>
    rw [present] at child entered
    rw [if_neg (by decide)] at entered
    cases ps : isPs (s.tables f i) with
    | true =>
      rw [ps] at child entered
      rw [if_pos rfl] at entered
      by_cases whole : size = 2 ^ levelShift (4 - p.length)
      · rw [if_pos whole, ← whole] at entered
        exact Or.inl (page child whole entered)
      · rw [if_neg whole] at entered
        cases entered
    | false =>
      rw [ps] at child entered
      rw [if_neg (by decide)] at entered
      cases entered
      have table := next_table here (fun closed => by cases child.symm.trans closed)
      refine Or.inr ⟨rfl, ready.grown, table, fun _ closed => ?_⟩
      rw [closed] at table
      cases table

theorem enterRoot_grown (ready : s.Ready root) (entered : s.enterRoot root i = some s') :
    Grown s s' root 1 ∧
      tableAt pageFormat s'.tables 4 root [i] = some (getPdppDir (s'.tables root i)) := by
  have child := child_root (s.tables root i)
  unfold enterRoot at entered
  cases present : isPresent (s.tables root i) with
  | false =>
    rw [present] at child entered
    rw [if_pos (by decide)] at entered
    exact addTable_grown ready rfl RadixTable.Path.nil (by decide) ⟨leaf_root _, child⟩ entered
  | true =>
    rw [present] at child entered
    rw [if_neg (by decide)] at entered
    cases entered
    refine ⟨ready.grown, @next_table s root root i [] rfl ?_⟩
    intro closed
    cases child.symm.trans closed

theorem Grown.mapped {depth : Nat} (grown : Grown s s' root depth) {after : Tables VmEntry}
    (mapped : Mapped s'.tables after root virtual physical l) :
    Mapped s.tables after root virtual physical l := by
  intro a
  rw [mapped a, walkTables_eq, walkTables_eq, grown.walks _ (pageIndices_path a)]

theorem no_fifth_level (T : Tables VmEntry) (i4 i3 i2 i1 : Nat) :
    tableAt pageFormat T 4 root [i4, i3, i2, i1] = none := by
  have split := @tableAt_append _ pageFormat T 4 root [i4, i3, i2] [i1]
  rw [List.cons_append, List.cons_append, List.cons_append, List.nil_append] at split
  rw [split]
  cases tableAt pageFormat T 4 root [i4, i3, i2] with
  | none => rfl
  | some f =>
    rw [Option.bind_some]
    show tableAt pageFormat T 1 f [i1] = none
    rw [tableAt, child_last]

theorem level_of_size {k : Nat} (positive : 0 < l) (other : 0 < k)
    (same : 2 ^ levelShift l = 2 ^ levelShift k) : l = k := by
  have shifts : levelShift l = levelShift k := Nat.pow_right_injective (Nat.le_refl 2) same
  unfold levelShift at shifts
  omega

/-- What `map_address` maps: the page it was asked for, or, where a table of smaller pages
    stands in its place, the first page of the last level. -/
theorem mapTables_mapped (ready : s.Ready root) (level : l = 1 ∨ l = 2 ∨ l = 3)
    (whole : size = 2 ^ levelShift l) (aligned : physical % size = 0) (small : physical < 2 ^ 40)
    (done : s.mapTables root virtual physical size perms = some s') :
    ∃ k, (k = l ∧
          tableAt pageFormat s.tables 4 root ((pageIndices virtual).take (5 - l)) = none ∨
        k = 1 ∧
          tableAt pageFormat s.tables 4 root ((pageIndices virtual).take (5 - l)) ≠ none) ∧
      s'.Ready root ∧ Mapped s.tables s'.tables root virtual physical k := by
  obtain ⟨path1, path2, path3⟩ := tablePaths virtual
  unfold mapTables at done
  simp only [Option.bind_eq_bind, Option.bind_eq_some_iff] at done
  obtain ⟨s1, first, ⟨huge, s2⟩, second, done⟩ := done
  obtain ⟨grown1, table1⟩ := enterRoot_grown ready first
  rcases enter_cases grown1.ready table1 path1 (Or.inr rfl) second with
    ⟨rfl, size3, closed, stored⟩ | ⟨rfl, grown2, table2, split2⟩
  · obtain rfl : l = 3 := level_of_size (by omega) (Nat.succ_pos 2) (whole.symm.trans size3)
    cases done
    rw [size3] at stored aligned
    obtain ⟨kept, mapping⟩ :=
      storeEntry_mapped grown1.ready table1 (Or.inr (Or.inr rfl)) rfl aligned small stored
    refine ⟨3, Or.inl ⟨rfl, ?_⟩, kept, grown1.mapped mapping⟩
    exact (grown1.deeper _ path2 Nat.one_lt_two).symm.trans closed
  · obtain ⟨⟨big, s3⟩, third, done⟩ := Option.bind_eq_some_iff.mp done
    have grown2 := grown1.trans grown2
    rcases enter_cases grown2.ready table2 path2 (Or.inl rfl) third with
      ⟨rfl, size2, closed, stored⟩ | ⟨rfl, grown3, table3, split3⟩
    · obtain rfl : l = 2 := level_of_size (by omega) Nat.two_pos (whole.symm.trans size2)
      cases done
      rw [size2] at stored aligned
      obtain ⟨kept, mapping⟩ :=
        storeEntry_mapped grown2.ready table2 (Or.inr (Or.inl rfl)) rfl aligned small stored
      refine ⟨2, Or.inl ⟨rfl, ?_⟩, kept, grown2.mapped mapping⟩
      exact (grown2.deeper _ path3 (Nat.lt_succ_self 2)).symm.trans closed
    · have grown3 := grown2.trans grown3
      have page : physical % 2 ^ levelShift 1 = 0 := by
        refine Nat.mod_eq_zero_of_dvd (Nat.dvd_trans ?_ (Nat.dvd_of_mod_eq_zero aligned))
        rw [whole]
        exact Nat.pow_dvd_pow 2 (by unfold levelShift; omega)
      obtain ⟨kept, mapping⟩ :=
        storeEntry_mapped grown3.ready table3 (Or.inl rfl) rfl page small done
      refine ⟨1, ?_, kept, grown3.mapped mapping⟩
      rcases level with rfl | rfl | rfl
      · exact Or.inl ⟨rfl, no_fifth_level _ _ _ _ _⟩
      · refine Or.inr ⟨rfl, fun closed => split3 whole ?_⟩
        exact (grown2.deeper _ path3 (Nat.lt_succ_self 2)).trans closed
      · refine Or.inr ⟨rfl, fun closed => split2 whole ?_⟩
        exact (grown1.deeper _ path2 Nat.one_lt_two).trans closed

theorem mapAddress_inv {flags : Nat}
    (mapped : s.mapAddress root virtual physical size flags = some s') :
    virtual % size = 0 ∧ physical % size = 0 ∧
      s.mapTables root virtual physical size (flagsToPerms flags) = some s' := by
  unfold mapAddress at mapped
  split at mapped
  · cases mapped
  rename_i virtualAligned
  split at mapped
  · cases mapped
  rename_i physicalAligned
  obtain ⟨t, done, checked⟩ := Option.bind_eq_some_iff.mp mapped
  obtain ⟨found, -, equal⟩ := Option.bind_eq_some_iff.mp checked
  split at equal
  · cases equal
    exact ⟨not_not.mp virtualAligned, not_not.mp physicalAligned, done⟩
  · cases equal

theorem level_exists
    (sizes : size = pageSize4KiB ∨ size = pageSize2MiB ∨ size = pageSize1GiB) :
    ∃ l, (l = 1 ∨ l = 2 ∨ l = 3) ∧ size = 2 ^ levelShift l := by
  rcases sizes with rfl | rfl | rfl
  · exact ⟨1, Or.inl rfl, rfl⟩
  · exact ⟨2, Or.inr (Or.inl rfl), rfl⟩
  · exact ⟨3, Or.inr (Or.inr rfl), rfl⟩

theorem mapAddress_ready {flags : Nat}
    (sizes : size = pageSize4KiB ∨ size = pageSize2MiB ∨ size = pageSize1GiB)
    (ready : s.Ready root) (small : physical < 2 ^ 40)
    (mapped : s.mapAddress root virtual physical size flags = some s') : s'.Ready root := by
  obtain ⟨l, level, whole⟩ := level_exists sizes
  obtain ⟨-, aligned, done⟩ := mapAddress_inv mapped
  obtain ⟨k, -, kept, -⟩ := mapTables_mapped ready level whole aligned small done
  exact kept

end Pages

end Paging

/-- The page is mapped from its first to its last address, and every other address is
    translated as before. Addresses that differ in bits 48 to 63 only are one address. -/
structure Covers (before after : Tables VmEntry) (root virtual physical size : Nat) : Prop where
  inside : ∀ a, virtual ≤ a → a < virtual + size →
    getPhysicalAddress after root a = some (physical + (a - virtual))
  outside : ∀ a, a % 2 ^ 48 / size ≠ virtual % 2 ^ 48 / size →
    getPhysicalAddress after root a = getPhysicalAddress before root a

def Unsplit (tables : Tables VmEntry) (root virtual size : Nat) : Prop :=
  (size = pageSize1GiB →
    tableAt pageFormat tables 4 root [pml4Index virtual, pdpIndex virtual] = none) ∧
  (size = pageSize2MiB →
    tableAt pageFormat tables 4 root [pml4Index virtual, pdpIndex virtual, pdIndex virtual] = none)

section Covering
variable {s s' : Paging} {root virtual physical size l : Nat}

section Level
variable (level : l = 1 ∨ l = 2 ∨ l = 3)
include level

theorem unsplit_iff {tables : Tables VmEntry} (whole : size = 2 ^ levelShift l) :
    Unsplit tables root virtual size ↔
      tableAt pageFormat tables 4 root ((pageIndices virtual).take (5 - l)) = none := by
  unfold Unsplit
  rcases level with rfl | rfl | rfl
  · have other : size ≠ pageSize1GiB ∧ size ≠ pageSize2MiB := by rw [whole]; decide
    exact ⟨fun _ => Paging.no_fifth_level _ _ _ _ _,
      fun _ => ⟨fun same => absurd same other.1, fun same => absurd same other.2⟩⟩
  · have other : size ≠ pageSize1GiB := by rw [whole]; decide
    exact ⟨fun unsplit => unsplit.2 whole, fun none =>
      ⟨fun same => absurd same other, fun _ => none⟩⟩
  · have other : size ≠ pageSize2MiB := by rw [whole]; decide
    exact ⟨fun unsplit => unsplit.1 whole, fun none =>
      ⟨fun _ => none, fun same => absurd same other⟩⟩

theorem checkKRegions_outside {a : Nat} (aligned : virtual % 2 ^ levelShift l = 0)
    (away : ∀ region ∈ kRegions, virtual < region ∨ region + vmmRegionSize ≤ virtual)
    (first : virtual ≤ a) (last : a < virtual + 2 ^ levelShift l) : checkKRegions a = 0 := by
  have none : kRegions.find? (fun region => region < a && a < region + vmmRegionSize) = none := by
    rw [List.find?_eq_none]
    intro region member
    have apart := away region member
    have multiple : region % 2 ^ levelShift l = 0 := by
      unfold kRegions at member
      simp only [List.mem_cons, List.not_mem_nil, or_false] at member
      rcases level with rfl | rfl | rfl <;> rcases member with rfl | rfl | rfl | rfl <;> rfl
    have before : virtual < region → virtual + 2 ^ levelShift l ≤ region := by
      intro less
      rcases level with rfl | rfl | rfl <;> unfold levelShift at * <;> omega
    simp only [Bool.and_eq_true, decide_eq_true_eq, not_and]
    omega
  rw [checkKRegions, none]

theorem samePage_inside {a : Nat} (aligned : virtual % 2 ^ levelShift l = 0) (first : virtual ≤ a)
    (last : a < virtual + 2 ^ levelShift l) :
    SamePage l virtual a ∧ a % 2 ^ levelShift l = a - virtual := by
  unfold SamePage
  rcases level with rfl | rfl | rfl <;> unfold levelShift at * <;> omega

theorem samePage_rest {a : Nat} (aligned : virtual % 2 ^ levelShift l = 0)
    (first : virtual + pageSize4KiB ≤ a) (last : a < virtual + 2 ^ levelShift l) :
    ¬ SamePage 1 virtual a := by
  unfold SamePage pageSize4KiB at *
  rcases level with rfl | rfl | rfl <;> unfold levelShift at * <;> omega

theorem samePage_coarser {a : Nat} (same : SamePage 1 virtual a) : SamePage l virtual a := by
  unfold SamePage at *
  rcases level with rfl | rfl | rfl <;> unfold levelShift at * <;> omega

end Level

section Translations
variable {before after : Tables VmEntry}

theorem Mapped.inside {a : Nat} (mapped : Mapped before after root virtual physical l)
    (level : l = 1 ∨ l = 2 ∨ l = 3) (aligned : virtual % 2 ^ levelShift l = 0)
    (away : ∀ region ∈ kRegions, virtual < region ∨ region + vmmRegionSize ≤ virtual)
    (first : virtual ≤ a) (last : a < virtual + 2 ^ levelShift l) :
    getPhysicalAddress after root a = some (physical + (a - virtual)) := by
  obtain ⟨same, offset⟩ := samePage_inside level aligned first last
  rw [getPhysicalAddress, checkKRegions_outside level aligned away first last,
    if_neg (fun different => different rfl), mapped a, if_pos same, offset]

theorem Mapped.outside {a : Nat} (mapped : Mapped before after root virtual physical l)
    (different : ¬ SamePage l virtual a) :
    getPhysicalAddress after root a = getPhysicalAddress before root a := by
  rw [getPhysicalAddress, getPhysicalAddress, mapped a, if_neg different]

end Translations

/-- A mapping that returned covers its page exactly when no table of smaller pages stood in
    its place, or the rest of the page was mapped to the same addresses already. -/
theorem mapAddress_covers_iff {flags : Nat}
    (sizes : size = pageSize4KiB ∨ size = pageSize2MiB ∨ size = pageSize1GiB)
    (ready : s.Ready root)
    (away : ∀ region ∈ kRegions, virtual < region ∨ region + vmmRegionSize ≤ virtual)
    (range : physical + size ≤ 2 ^ 40)
    (mapped : s.mapAddress root virtual physical size flags = some s') :
    Covers s.tables s'.tables root virtual physical size ↔
      Unsplit s.tables root virtual size ∨
        ∀ a, virtual + pageSize4KiB ≤ a → a < virtual + size →
          getPhysicalAddress s.tables root a = some (physical + (a - virtual)) := by
  obtain ⟨l, level, whole⟩ := Paging.level_exists sizes
  obtain ⟨virtualAligned, physicalAligned, done⟩ := Paging.mapAddress_inv mapped
  have positive : 0 < size := whole ▸ Nat.pow_pos (by decide)
  obtain ⟨k, place, -, mapping⟩ := Paging.mapTables_mapped ready level whole physicalAligned
    (by omega) done
  rw [unsplit_iff level whole]
  subst whole
  rcases place with ⟨rfl, none⟩ | ⟨rfl, table⟩
  · refine ⟨fun _ => Or.inl none, fun _ => ⟨?_, ?_⟩⟩
    · exact fun a first last => mapping.inside level virtualAligned away first last
    · exact fun a different => mapping.outside different
  · have page : virtual % 2 ^ levelShift 1 = 0 := by
      refine Nat.mod_eq_zero_of_dvd (Nat.dvd_trans ?_ (Nat.dvd_of_mod_eq_zero virtualAligned))
      exact Nat.pow_dvd_pow 2 (by unfold levelShift; omega)
    constructor
    · intro covers
      refine Or.inr fun a first last => ?_
      rw [← covers.inside a (by omega) last,
        mapping.outside (samePage_rest level virtualAligned first last)]
    · rintro (none | rest)
      · exact absurd none table
      · refine ⟨?_, ?_⟩
        · intro a first last
          by_cases low : a < virtual + pageSize4KiB
          · exact mapping.inside (Or.inl rfl) page away first low
          · rw [mapping.outside (samePage_rest level virtualAligned (by omega) last)]
            exact rest a (by omega) last
        · intro a different
          exact mapping.outside fun same => different (samePage_coarser level same)

def blankPaging : Paging where
  tables _ _ := 0
  pages := [0x2000, 0x3000, 0x4000]

theorem blank_ready : blankPaging.Ready 0x1000 := by
  have only : ∀ p t, tableAt pageFormat blankPaging.tables 4 0x1000 p = some t →
      p = [] ∧ t = 0x1000 := by
    intro p t there
    cases p with
    | nil => exact ⟨rfl, (Option.some.inj there).symm⟩
    | cons i p =>
      rw [tableAt, show blankPaging.tables 0x1000 i = 0 from rfl, (empty_entry 4).2] at there
      cases there
  refine ⟨?_, by decide, ?_, by decide, by decide⟩
  · intro p q t _ _ first second
    rw [(only p t first).1, (only q t second).1]
  · intro page member p _ there
    rw [(only p page there).2] at member
    revert member
    decide

/-- 2 MiB at an empty place. -/
theorem mapAddress_covers_blank :
    ∃ s', blankPaging.mapAddress 0x1000 0x300000000000 0x200000 pageSize2MiB 1 = some s' ∧
      Covers blankPaging.tables s'.tables 0x1000 0x300000000000 0x200000 pageSize2MiB := by
  have found : (blankPaging.mapAddress 0x1000 0x300000000000 0x200000 pageSize2MiB 1).isSome := by
    decide +kernel
  obtain ⟨s', mapped⟩ := Option.isSome_iff_exists.mp found
  refine ⟨s', mapped, (mapAddress_covers_iff (Or.inr (Or.inl rfl)) blank_ready (by decide)
    (by decide) mapped).mpr (Or.inl ⟨?_, ?_⟩)⟩
  · decide
  · decide +kernel

/-- 2 MiB where a page of 4 KiB is mapped: the second 4 KiB have no translation. -/
theorem mapAddress_leaves_hole :
    ∃ s s' : Paging, s.Ready 0x1000 ∧
      s.mapAddress 0x1000 0x300000000000 0x200000 pageSize2MiB 1 = some s' ∧
      getPhysicalAddress s'.tables 0x1000 0x300000001000 = none ∧
      ¬ Covers s.tables s'.tables 0x1000 0x300000000000 0x200000 pageSize2MiB := by
  have found : ((blankPaging.mapAddress 0x1000 0x300000000000 0x7000 pageSize4KiB 1).bind fun s =>
      (s.mapAddress 0x1000 0x300000000000 0x200000 pageSize2MiB 1).map fun s' =>
        getPhysicalAddress s'.tables 0x1000 0x300000001000) = some none := by
    decide +kernel
  obtain ⟨s, first, rest⟩ := Option.bind_eq_some_iff.mp found
  obtain ⟨s', second, hole⟩ := Option.map_eq_some_iff.mp rest
  have ready := Paging.mapAddress_ready (Or.inl rfl) blank_ready (by decide) first
  refine ⟨s, s', ready, second, hole, ?_⟩
  intro covers
  have whole := covers.inside 0x300000001000 (by decide) (by decide)
  rw [hole] at whole
  cases whole

end Covering

end OmenMemory
