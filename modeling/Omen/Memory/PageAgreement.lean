import Omen.Memory.PageEntries
import Omen.Memory.PageWalkers

/- Where the walks over the page tables agree: everywhere but in pages of 2 MiB, whose memory
   four of them take for a table. -/
namespace OmenMemory
open RadixTable

structure WalkersAgree (tables : Tables VmEntry) (root address : Nat) : Prop where
  present : isPresentPage tables root address = 1 ↔ vmmIsPresent tables root address ≠ 0
  translated :
    vmmIsPresent tables root address ≠ 0 ↔ (getPhysicalAddress tables root address).isSome
  perms : ∀ l e, walk pageFormat tables 4 root (pageIndices address) = some (l, e) →
    (walkPages tables root address).page = some e ∧
      ∃ user ≤ 1, getPagePerms tables root address = entryPerms user e
  tables_only : ∀ r ∈ (walkPages tables root address).followed, pageFormat.leaf r.1 r.2 = false

section Walks
variable {tables : Tables VmEntry} {root address : Nat}

theorem checkKRegions_away
    (away : ∀ region ∈ kRegions, address < region ∨ region + vmmRegionSize ≤ address) :
    checkKRegions address = 0 := by
  have none : kRegions.find? (fun region => region < address && address < region + vmmRegionSize) =
      none := by
    rw [List.find?_eq_none]
    intro region member
    have apart := away region member
    simp only [Bool.and_eq_true, decide_eq_true_eq, not_and]
    omega
  rw [checkKRegions, none]

theorem vmmIsPresent_iff :
    vmmIsPresent tables root address ≠ 0 ↔ (walkTables tables root address).isSome := by
  unfold vmmIsPresent walkTables
  dsimp only
  generalize tables root (pml4Index address) = pml4
  cases isPresent pml4 with
  | false => simp
  | true =>
    generalize tables (getPdppDir pml4) (pdpIndex address) = pdp
    cases isPresent pdp with
    | false => simp
    | true =>
      cases isPs pdp with
      | true => simp [pageSize1GiB]
      | false =>
        generalize tables (getPdppDir pdp) (pdIndex address) = pd
        cases isPresent pd with
        | false => simp
        | true =>
          cases isPs pd with
          | true => simp [pageSize2MiB]
          | false =>
            cases isPresent (tables (getPdppDir pd) (ptIndex address)) with
            | false => simp
            | true => simp [pageSize4KiB]

theorem isPresentPage_iff :
    isPresentPage tables root address = 1 ↔ (walkPages tables root address).page.isSome := by
  unfold isPresentPage PageWalk.page
  cases walkPages tables root address <;> simp

theorem getPagePerms_of_page {e : VmEntry} (page : (walkPages tables root address).page = some e) :
    ∃ user ≤ 1, getPagePerms tables root address = entryPerms user e := by
  unfold getPagePerms
  have bit : ∀ e : VmEntry, bitField e 2 1 ≤ 1 := by
    intro e
    exact Nat.le_of_lt_succ (Nat.mod_lt _ (by decide))
  cases ends : walkPages tables root address with
  | huge pml4 pdp =>
    rw [ends] at page
    cases page
    exact ⟨_, Nat.and_le_right.trans (bit e), rfl⟩
  | big pml4 pdp pd =>
    rw [ends] at page
    cases page
    exact ⟨_, Nat.and_le_right.trans (bit e), rfl⟩
  | regular pml4 pdp pd pt =>
    rw [ends] at page
    cases page
    exact ⟨_, Nat.and_le_right.trans (bit e), rfl⟩
  | noPml4 => rw [ends] at page; cases page
  | noPdp pml4 => rw [ends] at page; cases page
  | noPd pml4 pdp => rw [ends] at page; cases page
  | noPt pml4 pdp pd => rw [ends] at page; cases page

theorem getPagePerms_of_none (page : (walkPages tables root address).page = none) :
    getPagePerms tables root address = 0 := by
  revert page
  unfold getPagePerms
  cases walkPages tables root address <;> simp [PageWalk.page]

/-- How the end of a walk as four walkers do it stands to the end of the walk of
    `get_physical_address`: the same page, and only tables followed, or a page of 2 MiB that
    was followed. -/
def SideBySide (seen : PageWalk) (found : Option (Nat × VmEntry)) : Prop :=
  seen.page = found.map Prod.snd ∧ (∀ r ∈ seen.followed, pageFormat.leaf r.1 r.2 = false) ∧
      (∀ e, found ≠ some (2, e)) ∨
    ∃ e, found = some (2, e) ∧ (2, e) ∈ seen.followed ∧ pageFormat.leaf 2 e = true

theorem walkPages_beside :
    SideBySide (walkPages tables root address)
      (walk pageFormat tables 4 root (pageIndices address)) := by
  unfold walkPages pageIndices
  dsimp only
  have top := leaf_root (tables root (pml4Index address))
  rw [walk, leaf_root, child_root]
  generalize tables root (pml4Index address) = pml4 at top ⊢
  cases isPresent pml4 with
  | false => exact Or.inl (by simp [PageWalk.page, PageWalk.followed])
  | true =>
    simp only [Bool.not_true, Bool.false_eq_true, if_false, if_true]
    rw [walk]
    have leaf := leaf_middle (tables (getPdppDir pml4) (pdpIndex address)) (Or.inr rfl)
    have child := child_middle (tables (getPdppDir pml4) (pdpIndex address)) (Or.inr rfl)
    generalize tables (getPdppDir pml4) (pdpIndex address) = pdp at leaf child ⊢
    rw [leaf, child]
    cases isPresent pdp with
    | false => exact Or.inl (by simp [PageWalk.page, PageWalk.followed, top])
    | true =>
      cases ps : isPs pdp with
      | true => exact Or.inl (by simp [PageWalk.page, PageWalk.followed, top])
      | false =>
        rw [ps, Bool.and_false] at leaf
        simp only [Bool.not_true, Bool.not_false, Bool.and_self, Bool.and_false,
          Bool.false_eq_true, if_false, if_true]
        rw [walk]
        have leaf2 := leaf_middle (tables (getPdppDir pdp) (pdIndex address)) (Or.inl rfl)
        have child2 := child_middle (tables (getPdppDir pdp) (pdIndex address)) (Or.inl rfl)
        generalize tables (getPdppDir pdp) (pdIndex address) = pd at leaf2 child2 ⊢
        rw [leaf2, child2]
        cases pres2 : isPresent pd with
        | false => exact Or.inl (by simp [PageWalk.page, PageWalk.followed, top, leaf])
        | true =>
          cases ps2 : isPs pd with
          | true =>
            -- the walk has gone on through the page
            rw [pres2, ps2] at leaf2
            refine Or.inr ⟨pd, rfl, ?_, leaf2⟩
            simp only [Bool.not_true, Bool.false_eq_true, if_false]
            split <;> simp [PageWalk.followed]
          | false =>
            rw [ps2, Bool.and_false] at leaf2
            simp only [Bool.not_true, Bool.not_false, Bool.and_self, Bool.and_false,
              Bool.false_eq_true, if_false, if_true]
            rw [walk, leaf_last, child_last]
            cases isPresent (tables (getPdppDir pd) (ptIndex address)) with
            | false => exact Or.inl (by simp [PageWalk.page, PageWalk.followed, top, leaf, leaf2])
            | true => exact Or.inl (by simp [PageWalk.page, PageWalk.followed, top, leaf, leaf2])

/-- The walks over the page tables agree on an address outside the linear regions exactly
    when it is not in a page of 2 MiB. -/
theorem walkers_agree_iff
    (away : ∀ region ∈ kRegions, address < region ∨ region + vmmRegionSize ≤ address) :
    WalkersAgree tables root address ↔
      ∀ e, walk pageFormat tables 4 root (pageIndices address) ≠ some (2, e) := by
  have physical : getPhysicalAddress tables root address = walkTables tables root address := by
    rw [getPhysicalAddress, checkKRegions_away away, if_neg (fun zero => zero rfl)]
  constructor
  · intro agree e found
    rcases @walkPages_beside tables root address with ⟨-, -, other⟩ | ⟨e', -, followed, leaf⟩
    · exact other e found
    · rw [agree.tables_only _ followed] at leaf
      cases leaf
  · intro other
    rcases @walkPages_beside tables root address with ⟨page, tablesOnly, -⟩ | ⟨e, found, -⟩
    · have same : isPresentPage tables root address = 1 ↔
          (walkTables tables root address).isSome := by
        rw [isPresentPage_iff, page, walkTables_eq, Option.isSome_map, Option.isSome_map]
      refine ⟨same.trans vmmIsPresent_iff.symm, ?_, ?_, tablesOnly⟩
      · rw [physical]
        exact vmmIsPresent_iff
      · intro l e found
        have here : (walkPages tables root address).page = some e := by
          rw [page, found]
          rfl
        exact ⟨here, getPagePerms_of_page here⟩
    · exact absurd found (other e)

/-- 1 GiB, 2 MiB and 4 KiB: the first slots of the second table lead to a table and to a
    page, and so do those of the third. -/
def mixedTables : Tables VmEntry := fun table index =>
  match table, index with
  | 0x1000, 0 => 0x2003
  | 0x2000, 0 => 0x3003
  | 0x2000, 1 => 0x40000083
  | 0x3000, 0 => 0x4003
  | 0x3000, 1 => 0x200083
  | 0x4000, 0 => 0x7003
  | _, _ => 0

/-- Agreement on the page of 4 KiB and on the page of 1 GiB. -/
theorem walkers_agree_mixed :
    WalkersAgree mixedTables 0x1000 0 ∧ WalkersAgree mixedTables 0x1000 0x40000000 := by
  have away : ∀ address ≤ 0x40000000, ∀ region ∈ kRegions,
      address < region ∨ region + vmmRegionSize ≤ address := by
    intro address low region member
    have high : ∀ region ∈ kRegions, 0x40000000 < region := by decide
    exact Or.inl (low.trans_lt (high region member))
  have regular : walk pageFormat mixedTables 4 0x1000 (pageIndices 0) = some (1, 0x7003) := by
    decide +kernel
  have huge : walk pageFormat mixedTables 4 0x1000 (pageIndices 0x40000000) =
      some (3, 0x40000083) := by
    decide +kernel
  constructor
  · refine (walkers_agree_iff (away 0 (by decide))).mpr fun e => ?_
    rw [regular]
    simp
  · refine (walkers_agree_iff (away 0x40000000 (by decide))).mpr fun e => ?_
    rw [huge]
    simp

/-- The page of 2 MiB is there for `vmm_is_present` and `get_physical_address`, and
    `is_present`, which has read its memory as a table, does not see it. -/
theorem walkers_disagree_mixed :
    vmmIsPresent mixedTables 0x1000 0x200000 = pageSize2MiB ∧
      getPhysicalAddress mixedTables 0x1000 0x200000 = some 0x200000 ∧
      isPresentPage mixedTables 0x1000 0x200000 = 0 ∧
      (2, 0x200083) ∈ (walkPages mixedTables 0x1000 0x200000).followed ∧
      ¬ WalkersAgree mixedTables 0x1000 0x200000 := by
  have seen : vmmIsPresent mixedTables 0x1000 0x200000 = pageSize2MiB := by decide +kernel
  have missed : isPresentPage mixedTables 0x1000 0x200000 = 0 := by decide +kernel
  have followed : ((2 : Nat), (0x200083 : VmEntry)) ∈
      (walkPages mixedTables 0x1000 0x200000).followed := by
    decide +kernel
  refine ⟨seen, by decide +kernel, missed, followed, ?_⟩
  intro agree
  have leaf := agree.tables_only _ followed
  revert leaf
  decide +kernel

end Walks

end OmenMemory
