import Mathlib.Data.List.Basic

/- Component-wise meaning of a path: names go on a stack, a step up takes the top one off. What
   the components are and which of them are names is left open. -/
namespace PathNames

inductive Kind
  | skip
  | up
  | name
  deriving DecidableEq, Repr

section Resolution
variable {α : Type} (kind : α → Kind)

def push (stack : List α) (c : α) : List α :=
  match kind c with
  | .skip => stack
  | .up => stack.dropLast
  | .name => stack ++ [c]

def resolve (cs : List α) : List α := cs.foldl (push kind) []

def count (k : Kind) (cs : List α) : Nat := cs.countP fun c => kind c = k

def Escapes (cs : List α) : Prop :=
  ∃ front back, cs = front ++ back ∧ count kind .name front < count kind .up front

theorem escapes_iff (cs : List α) : Escapes kind cs ↔
    ∃ n ∈ List.range (cs.length + 1),
      count kind .name (cs.take n) < count kind .up (cs.take n) := by
  constructor
  · rintro ⟨front, back, rfl, more⟩
    refine ⟨front.length, List.mem_range.mpr (by rw [List.length_append]; omega), ?_⟩
    rwa [List.take_left]
  · rintro ⟨n, -, more⟩
    exact ⟨cs.take n, cs.drop n, (List.take_append_drop n cs).symm, more⟩

instance (cs : List α) : Decidable (Escapes kind cs) :=
  decidable_of_iff _ (escapes_iff kind cs).symm

variable {kind} {cs stack : List α}

theorem foldl_push_sublist (stack : List α) :
    (cs.foldl (push kind) stack).Sublist (stack ++ cs.filter fun c => kind c = .name) := by
  induction cs generalizing stack with
  | nil => simp
  | cons c cs ih =>
    rw [List.foldl_cons, List.filter_cons]
    cases is : kind c with
    | skip =>
      have same : push kind stack c = stack := by simp only [push, is]
      rw [same, if_neg (by simp)]
      exact ih stack
    | up =>
      have less : push kind stack c = stack.dropLast := by simp only [push, is]
      rw [less, if_neg (by simp)]
      exact (ih _).trans (List.Sublist.append_right (List.dropLast_sublist stack) _)
    | name =>
      have more : push kind stack c = stack ++ [c] := by simp only [push, is]
      rw [more, if_pos (by simp)]
      have rest := ih (stack ++ [c])
      rwa [List.append_assoc, List.singleton_append] at rest

theorem resolve_sublist (cs : List α) :
    (resolve kind cs).Sublist (cs.filter fun c => kind c = .name) := foldl_push_sublist []

theorem resolve_names (cs : List α) : ∀ c ∈ resolve kind cs, kind c = .name := fun _ member =>
  of_decide_eq_true (List.mem_filter.mp ((resolve_sublist cs).subset member)).2

theorem foldl_push_of_names (plain : ∀ c ∈ cs, kind c ≠ .up) (stack : List α) :
    cs.foldl (push kind) stack = stack ++ cs.filter fun c => kind c = .name := by
  induction cs generalizing stack with
  | nil => simp
  | cons c cs ih =>
    have rest := ih (fun c later => plain c (List.mem_cons_of_mem _ later))
    have here := plain c List.mem_cons_self
    rw [List.foldl_cons, List.filter_cons, rest]
    cases is : kind c with
    | skip => simp [push, is]
    | up => exact absurd is here
    | name => simp [push, is]

theorem resolve_of_names (plain : ∀ c ∈ cs, kind c ≠ .up) :
    resolve kind cs = cs.filter fun c => kind c = .name := foldl_push_of_names plain []

/-- Where no prefix takes more off than there is, every step up has taken one name off. -/
theorem foldl_push_length (stays : ∀ front back, cs = front ++ back →
      count kind .up front ≤ stack.length + count kind .name front) :
    (cs.foldl (push kind) stack).length + count kind .up cs =
      stack.length + count kind .name cs := by
  induction cs generalizing stack with
  | nil => rfl
  | cons c cs ih =>
    -- what holds of `c :: front` holds of `front` over the stack with `c` pushed
    have first := stays [c] cs rfl
    have next : ∀ front back, cs = front ++ back → count kind .up front ≤
        (push kind stack c).length + count kind .name front := by
      rintro front back rfl
      have whole := stays (c :: front) back rfl
      cases is : kind c <;> simp [count, push, is] at first whole ⊢ <;> omega
    have rest := ih next
    rw [List.foldl_cons]
    cases is : kind c <;> simp [count, push, is] at first rest ⊢ <;> omega

theorem resolve_length (inside : ¬ Escapes kind cs) :
    (resolve kind cs).length + count kind .up cs = count kind .name cs := by
  have stays : ∀ front back, cs = front ++ back →
      count kind .up front ≤ ([] : List α).length + count kind .name front := by
    intro front back pieces
    rw [List.length_nil, Nat.zero_add]
    exact Nat.le_of_not_lt fun more => inside ⟨front, back, pieces, more⟩
  have total := foldl_push_length stays
  rwa [List.length_nil, Nat.zero_add] at total

theorem resolve_append (front back : List α) :
    resolve kind (front ++ back) = back.foldl (push kind) (resolve kind front) :=
  List.foldl_append

end Resolution

end PathNames
