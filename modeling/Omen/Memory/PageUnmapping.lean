import Omen.Memory.PageAgreement
import Omen.Memory.PagePerms

/- What `unmap_memory` does to the translation of every address, and the loop of `unmap_range`
   over the pages of a range. -/
namespace OmenMemory
open RadixTable

/-- Tables that are distinct pages, and no page of 2 MiB at some addresses. -/
structure PlainTree (tables : Tables VmEntry) (root : Nat) (addresses : Nat → Prop) : Prop where
  distinct : Distinct pageFormat tables 512 4 root
  plain : ∀ a, addresses a → ∀ e, walk pageFormat tables 4 root (pageIndices a) ≠ some (2, e)

def pageCount (size : Nat) : Nat :=
  if size % pageSize4KiB ≠ 0 then size / pageSize4KiB + 1 else size / pageSize4KiB

def unmapPages (tables : Tables VmEntry) (root start size : Nat) : Option (Tables VmEntry) :=
  (List.range (pageCount size)).foldlM
    (fun tables i => unmapMemory tables root ((start + i * pageSize4KiB) % 2 ^ 64)) tables

def Covered (start size a : Nat) : Prop :=
  ∃ i < pageCount size, SamePage 1 (start + i * pageSize4KiB) a

theorem foldlM_range_succ {σ : Type*} (f : σ → Nat → Option σ) (s : σ) (n : Nat) :
    (List.range (n + 1)).foldlM f s = ((List.range n).foldlM f s).bind (f · n) := by
  rw [List.range_succ, List.foldlM_append]
  refine congrArg ((List.range n).foldlM f s).bind (funext fun middle => ?_)
  exact bind_pure (f middle n)

section Unmapping
variable {tables tables' : Tables VmEntry} {root address start size : Nat}
  {pml4 pdp pd pt : VmEntry} {addresses : Nat → Prop}

theorem samePage_iff {v a : Nat} : SamePage 1 v a ↔ pageIndices a = pageIndices v := by
  rw [← pageIndices_prefix_iff (Or.inl rfl)]
  constructor
  · intro same
    exact (same.eq_of_length rfl).symm
  · intro same
    rw [same]
    exact List.prefix_refl _

theorem samePage_word {v a : Nat} : SamePage 1 (v % 2 ^ 64) a ↔ SamePage 1 v a := by
  unfold SamePage
  rw [Nat.mod_mod_of_dvd v (Nat.pow_dvd_pow 2 (by decide))]

theorem walkPages_regular (plain : ∀ e, walk pageFormat tables 4 root (pageIndices address) ≠
      some (2, e)) (ends : walkPages tables root address = .regular pml4 pdp pd pt) :
    RegularPath tables root address pml4 pdp pd pt := by
  rcases @walkPages_beside tables root address with ⟨-, only, -⟩ | ⟨e, big, -⟩
  · rw [ends] at only
    have table := only (2, pd) (by simp [PageWalk.followed])
    rw [leaf_middle _ (Or.inl rfl)] at table
    unfold walkPages at ends
    dsimp only at ends
    cases one : isPresent (tables root (pml4Index address)) with
    | false => rw [one] at ends; cases ends
    | true =>
      rw [one] at ends
      cases two : isPresent (tables (getPdppDir (tables root (pml4Index address)))
          (pdpIndex address)) with
      | false => rw [two] at ends; cases ends
      | true =>
        rw [two] at ends
        cases three : isPs (tables (getPdppDir (tables root (pml4Index address)))
            (pdpIndex address)) with
        | true => rw [three] at ends; cases ends
        | false =>
          rw [three] at ends
          simp only [Bool.not_true, Bool.false_eq_true, if_false] at ends
          split at ends
          · cases ends
          · rename_i four
            split at ends
            · cases ends
            · rename_i five
              cases ends
              simp only [Bool.not_eq_true', Bool.not_eq_false] at four five
              refine ⟨rfl, rfl, rfl, rfl, ⟨one, two, four, five⟩, three, ?_⟩
              rw [four, Bool.true_and] at table
              exact table
  · exact absurd big (plain e)

section Tree
variable (tree : PlainTree tables root addresses) (among : addresses address)
  (done : unmapMemory tables root address = some tables')
include tree among done

theorem unmapMemory_spec :
    Distinct pageFormat tables' 512 4 root ∧
      ∀ a, walk pageFormat tables' 4 root (pageIndices a) =
        if SamePage 1 address a then none else walk pageFormat tables 4 root (pageIndices a) := by
  -- where nothing was mapped, nothing changes
  have idle : (walkPages tables root address).page = none → tables' = tables →
      Distinct pageFormat tables' 512 4 root ∧
        ∀ a, walk pageFormat tables' 4 root (pageIndices a) =
          if SamePage 1 address a then none
          else walk pageFormat tables 4 root (pageIndices a) := by
    rintro page rfl
    refine ⟨tree.distinct, fun a => ?_⟩
    split
    · rename_i same
      rw [samePage_iff.mp same]
      rcases @walkPages_beside tables' root address with
        ⟨seen, -⟩ | ⟨e, big, -⟩
      · rw [page] at seen
        exact Option.map_eq_none_iff.mp seen.symm
      · exact absurd big (tree.plain address among e)
    · rfl
  unfold unmapMemory at done
  cases ends : walkPages tables root address with
  | noPml4 => rw [ends] at done idle; exact idle rfl (Option.some.inj done).symm
  | noPdp pml4 => rw [ends] at done idle; exact idle rfl (Option.some.inj done).symm
  | noPd pml4 pdp => rw [ends] at done idle; exact idle rfl (Option.some.inj done).symm
  | noPt pml4 pdp pd => rw [ends] at done idle; exact idle rfl (Option.some.inj done).symm
  | huge pml4 pdp => rw [ends] at done; cases done
  | big pml4 pdp pd => rw [ends] at done; cases done
  | regular pml4 pdp pd pt =>
    rw [ends] at done
    cases done
    have path := walkPages_regular (tree.plain address among) ends
    obtain ⟨child4, child3, child2⟩ := path.children
    obtain ⟨-, -, above⟩ := tablePaths address
    have here : tableAt pageFormat tables 4 root
        [pml4Index address, pdpIndex address, pdIndex address] = some (getPdppDir pd) := by
      rw [tableAt, child4]
      dsimp only
      rw [tableAt, child3]
      dsimp only
      rw [tableAt, child2]
      rfl
    have gone :
        isPresent (setBitField (tables (getPdppDir pd) (ptIndex address)) 0 1 0) = false := by
      unfold isPresent
      rw [bitField_setBitField (by decide)]
      rfl
    refine ⟨tree.distinct.set_closed here above (child_last _), fun a => ?_⟩
    unfold storeField
    split
    · rename_i same
      rw [samePage_iff.mp same]
      have walked := walk_append (q := [ptIndex address])
        (tableAt_set (i := ptIndex address)
          (e := setBitField (tables (getPdppDir pd) (ptIndex address)) 0 1 0) tree.distinct here
            above)
      refine walked.trans ?_
      change walk pageFormat _ 1 _ _ = _
      rw [walk, setEntry_here, leaf_last, gone, child_last]
      rfl
    · rename_i other
      refine (walk_set_other tree.distinct here above (pageIndices_path a) fun through =>
        other ?_).1
      exact (pageIndices_prefix_iff (Or.inl rfl) address a).mp through

theorem PlainTree.unmapMemory : PlainTree tables' root addresses := by
  obtain ⟨distinct, walks⟩ := unmapMemory_spec tree among done
  refine ⟨distinct, fun a held e => ?_⟩
  rw [walks]
  split
  · exact (Option.some_ne_none _).symm
  · exact tree.plain a held e

end Tree

theorem unmapPages_upto (tree : PlainTree tables root addresses) {pages : Nat}
    (among : ∀ i < pages, addresses ((start + i * pageSize4KiB) % 2 ^ 64))
    (done : (List.range pages).foldlM (fun tables i =>
      OmenMemory.unmapMemory tables root ((start + i * pageSize4KiB) % 2 ^ 64)) tables =
        some tables') :
    PlainTree tables' root addresses ∧
      (∀ a, (∃ i < pages, SamePage 1 (start + i * pageSize4KiB) a) →
        walk pageFormat tables' 4 root (pageIndices a) = none) ∧
      ∀ a, (¬ ∃ i < pages, SamePage 1 (start + i * pageSize4KiB) a) →
        walk pageFormat tables' 4 root (pageIndices a) =
          walk pageFormat tables 4 root (pageIndices a) := by
  induction pages generalizing tables' with
  | zero =>
    cases done
    exact ⟨tree, fun a ⟨i, less, _⟩ => absurd less (Nat.not_lt_zero i), fun _ _ => rfl⟩
  | succ pages ih =>
    rw [foldlM_range_succ] at done
    obtain ⟨middle, before, step⟩ := Option.bind_eq_some_iff.mp done
    obtain ⟨kept, cleared, others⟩ :=
      ih (fun i less => among i (Nat.lt_succ_of_lt less)) before
    have last := among pages (Nat.lt_succ_self pages)
    obtain ⟨-, walks⟩ := unmapMemory_spec kept last step
    simp only [samePage_word] at walks
    refine ⟨kept.unmapMemory last step, fun a held => ?_, fun a free => ?_⟩
    · obtain ⟨i, less, here⟩ := held
      rw [walks]
      split
      · rfl
      · rename_i other
        refine cleared a ⟨i, ?_, here⟩
        refine Nat.lt_of_le_of_ne (Nat.le_of_lt_succ less) ?_
        rintro rfl
        exact other here
    · rw [walks, if_neg (fun here => free ⟨pages, Nat.lt_succ_self pages, here⟩)]
      exact others a fun ⟨i, less, here⟩ => free ⟨i, Nat.lt_succ_of_lt less, here⟩

theorem unmapPages_spec (tree : PlainTree tables root (Covered start size))
    (done : unmapPages tables root start size = some tables') :
    (∀ a, Covered start size a → walk pageFormat tables' 4 root (pageIndices a) = none) ∧
      ∀ a, ¬ Covered start size a → walk pageFormat tables' 4 root (pageIndices a) =
        walk pageFormat tables 4 root (pageIndices a) := by
  refine (unmapPages_upto tree (fun i less => ⟨i, less, ?_⟩) done).2
  exact samePage_word.mp (samePage_iff.mpr rfl)

end Unmapping

end OmenMemory
