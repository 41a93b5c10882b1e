import Mathlib.Data.List.Basic
import Mathlib.Data.List.Perm.Basic

/- Holders of spans of units, with a mark for every unit in use. A span is handed out
   where all its marks are clear and given back by its holder; between holders no unit is
   shared. Some units are in use from the start and never handed out. -/
namespace SpanLedger

structure Span where
  first : Nat
  count : Nat

def Span.Has (s : Span) (i : Nat) : Prop := s.first ≤ i ∧ i < s.first + s.count

def Span.Apart (s t : Span) : Prop := ∀ i, s.Has i → ¬ t.Has i

theorem Span.Apart.symm {s t : Span} (apart : s.Apart t) : t.Apart s :=
  fun i mine yours => apart i yours mine

structure Ledger {α : Type} (span : α → Span) (reserved : Nat → Prop) (marks : Nat → Bool)
    (held : List α) : Prop where
  marked : ∀ a ∈ held, ∀ i, (span a).Has i → marks i = true
  kept : ∀ i, reserved i → marks i = true
  outside : ∀ a ∈ held, ∀ i, (span a).Has i → ¬ reserved i
  apart : held.Pairwise fun a b => (span a).Apart (span b)

section Rules
variable {α : Type} {span : α → Span} {reserved : Nat → Prop} {marks marks' : Nat → Bool}
  {held : List α}

theorem Ledger.start (kept : ∀ i, reserved i → marks i = true) :
    Ledger span reserved marks [] where
  marked := fun _ member => absurd member List.not_mem_nil
  kept := kept
  outside := fun _ member => absurd member List.not_mem_nil
  apart := List.Pairwise.nil

theorem Ledger.take (ledger : Ledger span reserved marks held) {a : α}
    (clear : ∀ i, (span a).Has i → marks i = false)
    (set : ∀ i, (span a).Has i → marks' i = true)
    (rest : ∀ i, ¬ (span a).Has i → marks' i = marks i) :
    Ledger span reserved marks' (a :: held) := by
  have mono : ∀ i, marks i = true → marks' i = true := by
    intro i used
    by_cases new : (span a).Has i
    · exact set i new
    · rw [rest i new, used]
  constructor
  · intro b member i inside
    rcases List.mem_cons.mp member with rfl | old
    · exact set i inside
    · exact mono i (ledger.marked b old i inside)
  · intro i away
    exact mono i (ledger.kept i away)
  · intro b member i inside away
    rcases List.mem_cons.mp member with rfl | old
    · have used := ledger.kept i away
      rw [clear i inside] at used
      cases used
    · exact ledger.outside b old i inside away
  · refine List.pairwise_cons.mpr ⟨?_, ledger.apart⟩
    intro b member i mine yours
    have used := ledger.marked b member i yours
    rw [clear i mine] at used
    cases used

theorem Ledger.give [DecidableEq α] (ledger : Ledger span reserved marks held) {a : α}
    (member : a ∈ held) (rest : ∀ i, ¬ (span a).Has i → marks' i = marks i) :
    Ledger span reserved marks' (held.erase a) := by
  have split := List.perm_cons_erase member
  have apart := (split.pairwise_iff (fun h => Span.Apart.symm h)).mp ledger.apart
  obtain ⟨others, remaining⟩ := List.pairwise_cons.mp apart
  constructor
  · intro b stays i inside
    rw [rest i (fun mine => others b stays i mine inside)]
    exact ledger.marked b (List.mem_of_mem_erase stays) i inside
  · intro i away
    rw [rest i (fun mine => ledger.outside a member i mine away)]
    exact ledger.kept i away
  · intro b stays
    exact ledger.outside b (List.mem_of_mem_erase stays)
  · exact remaining

/-- A ledger in which only reserved units and units of holders are marked. -/
structure Exact {α : Type} (span : α → Span) (reserved : Nat → Prop) (marks : Nat → Bool)
    (held : List α) : Prop extends Ledger span reserved marks held where
  only : ∀ i, marks i = true → reserved i ∨ ∃ a ∈ held, (span a).Has i

theorem Exact.start (kept : ∀ i, reserved i ↔ marks i = true) : Exact span reserved marks [] where
  toLedger := Ledger.start fun i away => (kept i).mp away
  only := fun i used => Or.inl ((kept i).mpr used)

theorem Exact.take (exact : Exact span reserved marks held) {a : α}
    (clear : ∀ i, (span a).Has i → marks i = false)
    (set : ∀ i, (span a).Has i → marks' i = true)
    (rest : ∀ i, ¬ (span a).Has i → marks' i = marks i) :
    Exact span reserved marks' (a :: held) where
  toLedger := exact.toLedger.take clear set rest
  only := by
    intro i used
    by_cases new : (span a).Has i
    · exact Or.inr ⟨a, List.mem_cons_self, new⟩
    · rw [rest i new] at used
      rcases exact.only i used with away | ⟨b, member, inside⟩
      · exact Or.inl away
      · exact Or.inr ⟨b, List.mem_cons_of_mem a member, inside⟩

theorem Exact.give [DecidableEq α] (exact : Exact span reserved marks held) {a : α}
    (member : a ∈ held) (cleared : ∀ i, (span a).Has i → marks' i = false)
    (rest : ∀ i, ¬ (span a).Has i → marks' i = marks i) :
    Exact span reserved marks' (held.erase a) where
  toLedger := exact.toLedger.give member rest
  only := by
    intro i used
    have away : ¬ (span a).Has i := by
      intro mine
      rw [cleared i mine] at used
      cases used
    rw [rest i away] at used
    rcases exact.only i used with kept | ⟨b, holder, inside⟩
    · exact Or.inl kept
    · have other : b ≠ a := by
        rintro rfl
        exact away inside
      exact Or.inr ⟨b, (List.mem_erase_of_ne other).mpr holder, inside⟩

/-- When everything has been given back the reserved units are the marked ones. -/
theorem Exact.all_back (exact : Exact span reserved marks []) (i : Nat) :
    marks i = true ↔ reserved i := by
  constructor
  · intro used
    rcases exact.only i used with kept | ⟨b, member, -⟩
    · exact kept
    · exact absurd member List.not_mem_nil
  · exact exact.kept i

end Rules

end SpanLedger
