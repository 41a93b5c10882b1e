import Mathlib.Data.List.Basic

/- Chains of records of varying length: each record is found by adding the length of the
   one before it. `len` gives the length that stands at an offset. -/
namespace RecordChain

inductive Chain (len : Nat → Nat) : Nat → Nat → List Nat → Prop where
  | nil (stop : Nat) : Chain len stop stop []
  | cons {pos stop : Nat} {rest : List Nat} (positive : 0 < len pos)
      (tail : Chain len (pos + len pos) stop rest) : Chain len pos stop (pos :: rest)

theorem chain_nil_iff {len : Nat → Nat} {pos stop : Nat} : Chain len pos stop [] ↔ pos = stop := by
  constructor
  · intro chain
    cases chain
    rfl
  · rintro rfl
    exact Chain.nil _

theorem chain_cons_iff {len : Nat → Nat} {pos stop q : Nat} {rest : List Nat} :
    Chain len pos stop (q :: rest) ↔
      q = pos ∧ 0 < len pos ∧ Chain len (pos + len pos) stop rest := by
  constructor
  · intro chain
    cases chain with
    | cons positive tail => exact ⟨rfl, positive, tail⟩
  · rintro ⟨rfl, positive, tail⟩
    exact Chain.cons positive tail

instance decidableChain (len : Nat → Nat) (stop : Nat) :
    (pos : Nat) → (offsets : List Nat) → Decidable (Chain len pos stop offsets)
  | _, [] => decidable_of_iff _ chain_nil_iff.symm
  | pos, _ :: rest =>
    have := decidableChain len stop (pos + len pos) rest
    decidable_of_iff _ chain_cons_iff.symm

section Facts
variable {len len' : Nat → Nat} {pos mid stop q k : Nat} {offsets a b : List Nat}

section Chain
variable (chain : Chain len pos stop offsets)
include chain

theorem Chain.le : pos ≤ stop := by
  induction chain with
  | nil => exact Nat.le_refl _
  | cons positive tail ih => omega

theorem Chain.bounds : ∀ q ∈ offsets, pos ≤ q ∧ q + len q ≤ stop ∧ 0 < len q := by
  induction chain with
  | nil =>
    intro q member
    cases member
  | cons positive tail ih =>
    intro q member
    rcases List.mem_cons.mp member with rfl | later
    · exact ⟨Nat.le_refl _, tail.le, positive⟩
    · have inside := ih q later
      exact ⟨by omega, inside.2⟩

theorem Chain.length_le : pos + offsets.length ≤ stop := by
  induction chain with
  | nil => exact Nat.le_refl _
  | cons positive tail ih =>
    rw [List.length_cons]
    omega

theorem Chain.sorted : offsets.Pairwise (· < ·) := by
  induction chain with
  | nil => exact List.Pairwise.nil
  | cons positive tail ih =>
    refine List.pairwise_cons.mpr ⟨?_, ih⟩
    intro q later
    have bound := tail.bounds q later
    omega

end Chain

theorem find_least {P : Nat → Prop} [DecidablePred P] (sorted : offsets.Pairwise (· < ·)) :
    offsets.find? (fun r => P r) = some q ↔
      q ∈ offsets ∧ P q ∧ ∀ r ∈ offsets, r < q → ¬ P r := by
  induction offsets with
  | nil => simp
  | cons first rest ih =>
    obtain ⟨least, sorted'⟩ := List.pairwise_cons.mp sorted
    by_cases here : P first
    · rw [List.find?_cons_of_pos (by simpa using here), Option.some.injEq]
      constructor
      · rintro rfl
        refine ⟨List.mem_cons_self, here, ?_⟩
        intro r member low
        rcases List.mem_cons.mp member with rfl | later
        · omega
        · have order := least r later
          omega
      · rintro ⟨member, holds, before⟩
        rcases List.mem_cons.mp member with rfl | later
        · rfl
        · exact absurd here (before first List.mem_cons_self (least q later))
    · rw [List.find?_cons_of_neg (by simpa using here), ih sorted']
      constructor
      · rintro ⟨member, holds, before⟩
        refine ⟨List.mem_cons_of_mem _ member, holds, ?_⟩
        exact List.forall_mem_cons.mpr ⟨fun _ => here, before⟩
      · rintro ⟨member, holds, before⟩
        rcases List.mem_cons.mp member with rfl | later
        · exact absurd holds here
        · exact ⟨later, holds, fun r member' => before r (List.mem_cons_of_mem _ member')⟩

end Facts

end RecordChain
