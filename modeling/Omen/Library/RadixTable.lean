import Mathlib.Data.List.Infix
import Mathlib.Logic.Function.Basic

/- Trees of tables in memory. A table is an array of entries at an address; an entry ends the
   walk, names a table of the next level, or does neither. Tables of a tree are distinct when
   no two paths lead to the same one, and then a store into one entry is seen by the walks
   through that entry only. -/
namespace RadixTable

structure Format (E : Type) where
  leaf : Nat → E → Bool
  child : Nat → E → Option Nat
  exclusive : ∀ l e t, child l e = some t → leaf l e = false

abbrev Tables (E : Type) := Nat → Nat → E

variable {E : Type}

def setEntry (T : Tables E) (table index : Nat) (e : E) : Tables E :=
  Function.update T table (Function.update (T table) index e)

/-- The level and the entry at which the walk along a path ends. -/
def walk (F : Format E) (T : Tables E) : Nat → Nat → List Nat → Option (Nat × E)
  | _, _, [] => none
  | l, t, i :: path =>
    if F.leaf l (T t i) then some (l, T t i)
    else match F.child l (T t i) with
      | some next => walk F T (l - 1) next path
      | none => none

def tableAt (F : Format E) (T : Tables E) : Nat → Nat → List Nat → Option Nat
  | _, t, [] => some t
  | l, t, i :: path =>
    match F.child l (T t i) with
    | some next => tableAt F T (l - 1) next path
    | none => none

def Path (width : Nat) (p : List Nat) : Prop := ∀ i ∈ p, i < width

def Distinct (F : Format E) (T : Tables E) (width n root : Nat) : Prop :=
  ∀ p q t, Path width p → Path width q → tableAt F T n root p = some t →
    tableAt F T n root q = some t → p = q

def Fresh (F : Format E) (T : Tables E) (width n root page : Nat) : Prop :=
  ∀ p, Path width p → tableAt F T n root p ≠ some page

section Walks
variable {F : Format E} {T T' : Tables E} {width n l t root f i : Nat} {p q : List Nat} {e : E}

theorem setEntry_apply (T : Tables E) (f i : Nat) (e : E) (t k : Nat) :
    setEntry T f i e t k = if t = f ∧ k = i then e else T t k := by
  unfold setEntry
  by_cases table : t = f
  · subst table
    rw [Function.update_self, Function.update_apply]
    simp
  · rw [Function.update_of_ne table, if_neg (fun both => table both.1)]

theorem setEntry_here (T : Tables E) (f i : Nat) (e : E) : setEntry T f i e f i = e := by
  rw [setEntry_apply, if_pos ⟨rfl, rfl⟩]

theorem setEntry_table_ne (T : Tables E) {f t : Nat} (i : Nat) (e : E) (other : t ≠ f) :
    setEntry T f i e t = T t := Function.update_of_ne other _ _

theorem setEntry_setEntry (T : Tables E) (f i : Nat) (e e' : E) :
    setEntry (setEntry T f i e) f i e' = setEntry T f i e' := by
  unfold setEntry
  rw [Function.update_self, Function.update_idem, Function.update_idem]

theorem Path.append (first : Path width p) (low : i < width) (rest : Path width q) :
    Path width (p ++ i :: q) := by
  intro k member
  rcases List.mem_append.mp member with left | right
  · exact first k left
  · rcases List.mem_cons.mp right with rfl | right
    · exact low
    · exact rest k right

theorem Path.left (path : Path width (p ++ q)) : Path width p :=
  fun k member => path k (List.mem_append_left q member)

theorem Path.nil : Path width [] := fun _ member => absurd member List.not_mem_nil

theorem tableAt_append :
    tableAt F T n t (p ++ q) =
      (tableAt F T n t p).bind fun next => tableAt F T (n - p.length) next q := by
  induction p generalizing n t with
  | nil => rfl
  | cons i p ih =>
    rw [List.cons_append, tableAt, tableAt]
    cases F.child n (T t i) with
    | none => rfl
    | some next =>
      dsimp only
      rw [ih, List.length_cons, Nat.sub_sub, Nat.add_comm 1]

theorem tableAt_snoc (here : tableAt F T n t p = some f) :
    tableAt F T n t (p ++ [i]) = F.child (n - p.length) (T f i) := by
  rw [tableAt_append, here, Option.bind_some, tableAt]
  cases F.child (n - p.length) (T f i) <;> rfl

theorem walk_append (here : tableAt F T n t p = some f) :
    walk F T n t (p ++ q) = walk F T (n - p.length) f q := by
  induction p generalizing n t with
  | nil =>
    rw [tableAt, Option.some.injEq] at here
    rw [here]
    rfl
  | cons i p ih =>
    rw [tableAt] at here
    rw [List.cons_append, walk]
    cases child : F.child n (T t i) with
    | none =>
      rw [child] at here
      cases here
    | some next =>
      rw [child] at here
      rw [F.exclusive n _ next child, if_neg (by decide)]
      dsimp only
      rw [ih here, List.length_cons, Nat.sub_sub, Nat.add_comm 1]

theorem walk_cons {r : Nat × E} (found : walk F T l t (i :: q) = some r) :
    F.leaf l (T t i) = true ∧ r = (l, T t i) ∨
      ∃ next, F.child l (T t i) = some next ∧ walk F T (l - 1) next q = some r := by
  rw [walk] at found
  split at found
  · rename_i leaf
    exact Or.inl ⟨leaf, (Option.some.inj found).symm⟩
  · split at found
    · rename_i next child
      exact Or.inr ⟨next, child, found⟩
    · cases found

theorem walk_congr
    (same : ∀ r k rest, q = r ++ k :: rest → ∀ s, tableAt F T n t r = some s → T' s k = T s k) :
    walk F T' n t q = walk F T n t q ∧ tableAt F T' n t q = tableAt F T n t q := by
  induction q generalizing n t with
  | nil => exact ⟨rfl, rfl⟩
  | cons i q ih =>
    have first := same [] i q rfl t rfl
    rw [walk, walk, tableAt, tableAt, first]
    cases child : F.child n (T t i) with
    | none => exact ⟨rfl, rfl⟩
    | some next =>
      obtain ⟨walks, tables⟩ := ih (n := n - 1) (t := next) (by
        intro r k rest split s here
        refine same (i :: r) k rest (by rw [split, List.cons_append]) s ?_
        rw [tableAt, child]
        exact here)
      dsimp only
      rw [walks, tables]
      exact ⟨rfl, rfl⟩

theorem walk_off_tree (fresh : Fresh F T width n root f) (path : Path width q)
    (entries : Nat → E) :
    walk F (Function.update T f entries) n root q = walk F T n root q ∧
      tableAt F (Function.update T f entries) n root q = tableAt F T n root q := by
  refine walk_congr ?_
  intro r k rest split s here
  rw [Function.update_of_ne]
  rintro rfl
  exact fresh r (Path.left (split ▸ path)) here

theorem Distinct.off_tree (distinct : Distinct F T width n root)
    (fresh : Fresh F T width n root f) (entries : Nat → E) :
    Distinct F (Function.update T f entries) width n root := by
  intro a b s first second one two
  rw [(walk_off_tree fresh first entries).2] at one
  rw [(walk_off_tree fresh second entries).2] at two
  exact distinct a b s first second one two

section Distinct
variable (distinct : Distinct F T width n root) (here : tableAt F T n root p = some f)
  (above : Path width p) (path : Path width q) (away : ¬ p ++ [i] <+: q)
include distinct here above path away

theorem setEntry_off_way : ∀ r k rest, q = r ++ k :: rest →
      ∀ s, tableAt F T n root r = some s → setEntry T f i e s k = T s k := by
  intro r k rest split s there
  rw [setEntry_apply, if_neg]
  rintro ⟨rfl, rfl⟩
  have same := distinct r p s (Path.left (split ▸ path)) above there here
  subst same
  exact away ⟨rest, by rw [split, List.append_assoc]; rfl⟩

theorem walk_set_other :
    walk F (setEntry T f i e) n root q = walk F T n root q ∧
      tableAt F (setEntry T f i e) n root q = tableAt F T n root q :=
  walk_congr (setEntry_off_way distinct here above path away)

end Distinct

theorem not_prefix_self : ¬ p ++ [i] <+: p := by
  intro shorter
  have length := shorter.length_le
  rw [List.length_append, List.length_singleton] at length
  omega

section Distinct
variable (distinct : Distinct F T width n root) (here : tableAt F T n root p = some f)
  (above : Path width p)
include distinct here above

theorem tableAt_set : tableAt F (setEntry T f i e) n root p = some f := by
  rw [(walk_set_other distinct here above above not_prefix_self).2, here]

theorem walk_set_here (leaf : F.leaf (n - p.length) e) :
    walk F (setEntry T f i e) n root (p ++ i :: q) = some (n - p.length, e) := by
  rw [walk_append (tableAt_set distinct here above), walk, setEntry_here, if_pos leaf]

theorem walk_set_link {next : Nat} (low : i < width)
    (was : F.child (n - p.length) (T f i) = some next) (link : F.child (n - p.length) e = some next)
    (path : Path width q) :
    walk F (setEntry T f i e) n root q = walk F T n root q ∧
      tableAt F (setEntry T f i e) n root q = tableAt F T n root q := by
  by_cases through : p ++ [i] <+: q
  · obtain ⟨rest, rfl⟩ := through
    rw [List.append_assoc, List.singleton_append] at path ⊢
    have behind : Path width rest := fun k member => path k (by simp [member])
    -- the table of the entry is not met again behind it
    have same := @walk_congr E F T (setEntry T f i e) (n - p.length - 1) next rest (by
      intro r k more split s there
      rw [setEntry_apply, if_neg]
      rintro ⟨rfl, rfl⟩
      have again : tableAt F T n root (p ++ k :: r) = some s := by
        rw [tableAt_append, here, Option.bind_some, tableAt, was]
        exact there
      have longer := distinct _ _ _ (above.append low (Path.left (split ▸ behind))) above again here
      have length := congrArg List.length longer
      simp at length)
    rw [walk_append (tableAt_set distinct here above), walk_append here, walk, walk,
      tableAt_append, tableAt_append, tableAt_set distinct here above, here, Option.bind_some,
      Option.bind_some, tableAt, tableAt, setEntry_here, was, link, F.exclusive _ _ _ was,
      F.exclusive _ _ _ link]
    exact same
  · exact walk_set_other distinct here above path through

theorem tableAt_set_here :
    tableAt F (setEntry T f i e) n root (p ++ i :: q) =
      match F.child (n - p.length) e with
      | some next => tableAt F (setEntry T f i e) (n - p.length - 1) next q
      | none => none := by
  rw [tableAt_append, tableAt_set distinct here above, Option.bind_some, tableAt, setEntry_here]

theorem tableAt_set_closed (closed : F.child (n - p.length) e = none) (path : Path width q)
    (there : tableAt F (setEntry T f i e) n root q = some t) : tableAt F T n root q = some t := by
  by_cases through : p ++ [i] <+: q
  · obtain ⟨rest, rfl⟩ := through
    rw [List.append_assoc, List.singleton_append,
      tableAt_set_here distinct here above, closed] at there
    cases there
  · rwa [(walk_set_other distinct here above path through).2] at there

theorem Distinct.set_closed (closed : F.child (n - p.length) e = none) :
    Distinct F (setEntry T f i e) width n root := by
  intro a b s first second one two
  exact distinct a b s first second (tableAt_set_closed distinct here above closed first one)
    (tableAt_set_closed distinct here above closed second two)

end Distinct

theorem Fresh.set_closed {page : Nat} (fresh : Fresh F T width n root page)
    (distinct : Distinct F T width n root) (here : tableAt F T n root p = some f)
    (above : Path width p) (closed : F.child (n - p.length) e = none) :
    Fresh F (setEntry T f i e) width n root page := by
  intro q path there
  exact fresh q path (tableAt_set_closed distinct here above closed path there)

end Walks

structure Planted (F : Format E) (T T' : Tables E) (width n root page : Nat) (p : List Nat)
    (i : Nat) : Prop where
  distinct : Distinct F T' width n root
  walks : ∀ q, Path width q → walk F T' n root q = walk F T n root q
  table : tableAt F T' n root (p ++ [i]) = some page
  others : ∀ q, Path width q → q ≠ p ++ [i] → tableAt F T' n root q = tableAt F T n root q
  fresh : ∀ a, a ≠ page → Fresh F T width n root a → Fresh F T' width n root a

section Planting
variable {F : Format E} {T : Tables E} {width n root f i page : Nat} {p : List Nat} {e : E}
  {entries : Nat → E}

theorem planted (distinct : Distinct F T width n root) (here : tableAt F T n root p = some f)
    (above : Path width p) (fresh : Fresh F T width n root page)
    (empty : ∀ l k, F.leaf l (entries k) = false ∧ F.child l (entries k) = none)
    (unused : F.leaf (n - p.length) (T f i) = false ∧ F.child (n - p.length) (T f i) = none)
    (link : F.child (n - p.length) e = some page) :
    Planted F T (setEntry (Function.update T page entries) f i e) width n root page p i := by
  have off := fun q path => @walk_off_tree E F T width n root page q fresh path entries
  have other : page ≠ f := by
    rintro rfl
    exact fresh p above here
  have cleared : tableAt F (Function.update T page entries) n root p = some f := by
    rw [(off p above).2, here]
  have apart := distinct.off_tree fresh entries
  have zero : ∀ k, setEntry (Function.update T page entries) f i e page k = entries k := by
    intro k
    rw [setEntry_apply, if_neg (fun both => other both.1), Function.update_self]
  -- paths through the entry end in the new table
  have through : ∀ rest, tableAt F (setEntry (Function.update T page entries) f i e) n root
      (p ++ i :: rest) = if rest = [] then some page else none := by
    intro rest
    rw [tableAt_set_here apart cleared above, link]
    cases rest with
    | nil => rfl
    | cons k rest =>
      dsimp only
      rw [tableAt, zero, (empty _ k).2]
      rfl
  have outside : ∀ q, Path width q → ¬ p ++ [i] <+: q →
      tableAt F (setEntry (Function.update T page entries) f i e) n root q =
        tableAt F T n root q := by
    intro q path away
    rw [(walk_set_other apart cleared above path away).2, (off q path).2]
  have origin : ∀ q s, Path width q →
      tableAt F (setEntry (Function.update T page entries) f i e) n root q = some s →
      q = p ++ [i] ∧ s = page ∨ s ≠ page ∧ tableAt F T n root q = some s := by
    intro q s path there
    by_cases inside : p ++ [i] <+: q
    · obtain ⟨rest, rfl⟩ := inside
      rw [List.append_assoc, List.singleton_append, through] at there
      split at there
      · rename_i none
        rw [Option.some.injEq] at there
        exact Or.inl ⟨by rw [none, List.append_nil], there.symm⟩
      · cases there
    · rw [outside q path inside] at there
      refine Or.inr ⟨?_, there⟩
      rintro rfl
      exact fresh q path there
  refine ⟨?_, ?_, ?_, ?_, ?_⟩
  · intro a b s first second one two
    rcases origin a s first one with ⟨rfl, rfl⟩ | ⟨old, was⟩
    · rcases origin b s second two with ⟨rfl, -⟩ | ⟨old, -⟩
      · rfl
      · exact absurd rfl old
    · rcases origin b s second two with ⟨-, same⟩ | ⟨-, was'⟩
      · exact absurd same old
      · exact distinct a b s first second was was'
  · intro q path
    by_cases inside : p ++ [i] <+: q
    · obtain ⟨rest, rfl⟩ := inside
      rw [List.append_assoc, List.singleton_append,
        walk_append (tableAt_set apart cleared above), walk_append here, walk, walk, setEntry_here,
        link, F.exclusive _ _ _ link, unused.1, unused.2]
      cases rest with
      | nil => rfl
      | cons k rest =>
        rw [if_neg (by decide), if_neg (by decide)]
        dsimp only
        rw [walk, zero, (empty _ k).1, (empty _ k).2]
        rfl
    · rw [(walk_set_other apart cleared above path inside).1, (off q path).1]
  · exact through []
  · intro q path different
    by_cases inside : p ++ [i] <+: q
    · obtain ⟨rest, rfl⟩ := inside
      have longer : rest ≠ [] := by
        rintro rfl
        exact different (List.append_nil _)
      rw [List.append_assoc, List.singleton_append, through, if_neg longer, tableAt_append, here,
        Option.bind_some, tableAt, unused.2]
    · exact outside q path inside
  · intro a different was q path there
    rcases origin q a path there with ⟨-, same⟩ | ⟨-, old⟩
    · exact different same
    · exact was q path old

end Planting

def along (F : Format E) (T : Tables E) (P : E → Bool) : Nat → Nat → List Nat → Bool
  | _, _, [] => true
  | l, t, i :: path =>
    match F.child l (T t i) with
    | some next => P (T t i) && along F T P (l - 1) next path
    | none => true

section Links
variable {F : Format E} {T T' : Tables E} {P : E → Bool} {width n t root f i page : Nat}
  {p q : List Nat} {e : E}

theorem along_append (here : tableAt F T n t p = some f) :
    along F T P n t (p ++ q) = (along F T P n t p && along F T P (n - p.length) f q) := by
  induction p generalizing n t with
  | nil =>
    rw [tableAt, Option.some.injEq] at here
    rw [here]
    rfl
  | cons i p ih =>
    rw [tableAt] at here
    rw [List.cons_append, along, along]
    cases child : F.child n (T t i) with
    | none =>
      rw [child] at here
      cases here
    | some next =>
      rw [child] at here
      dsimp only
      rw [ih here, List.length_cons, Nat.sub_sub, Nat.add_comm 1, Bool.and_assoc]

theorem along_congr
    (same : ∀ r k rest, q = r ++ k :: rest → ∀ s, tableAt F T n t r = some s → T' s k = T s k) :
    along F T' P n t q = along F T P n t q := by
  induction q generalizing n t with
  | nil => rfl
  | cons i q ih =>
    have first := same [] i q rfl t rfl
    rw [along, along, first]
    cases child : F.child n (T t i) with
    | none => rfl
    | some next =>
      dsimp only
      rw [ih (n := n - 1) (t := next)]
      intro r k rest split s here
      refine same (i :: r) k rest (by rw [split, List.cons_append]) s ?_
      rw [tableAt, child]
      exact here

section Distinct
variable (distinct : Distinct F T width n root) (here : tableAt F T n root p = some f)
  (above : Path width p) (path : Path width q)
include distinct here above path

theorem along_set_other (away : ¬ p ++ [i] <+: q) :
    along F (setEntry T f i e) P n root q = along F T P n root q :=
  along_congr (setEntry_off_way distinct here above path away)

theorem along_set_closed (unused : F.child (n - p.length) (T f i) = none)
    (closed : F.child (n - p.length) e = none) :
    along F (setEntry T f i e) P n root q = along F T P n root q := by
  by_cases inside : p ++ [i] <+: q
  · obtain ⟨rest, rfl⟩ := inside
    rw [List.append_assoc, List.singleton_append,
      along_append (tableAt_set distinct here above), along_append here,
      along_set_other distinct here above above not_prefix_self, along, along, setEntry_here,
      unused, closed]
  · exact along_set_other distinct here above path inside

theorem along_planted (fresh : Fresh F T width n root page) {entries : Nat → E}
    (empty : ∀ l k, F.child l (entries k) = none) (unused : F.child (n - p.length) (T f i) = none)
    (link : F.child (n - p.length) e = some page) (holds : P e = true) :
    along F (setEntry (Function.update T page entries) f i e) P n root q =
      along F T P n root q := by
  have off : ∀ q, Path width q →
      along F (Function.update T page entries) P n root q = along F T P n root q := by
    intro q path
    refine along_congr ?_
    intro r k rest split s there
    rw [Function.update_of_ne]
    rintro rfl
    exact fresh r (Path.left (split ▸ path)) there
  have other : page ≠ f := by
    rintro rfl
    exact fresh p above here
  have cleared : tableAt F (Function.update T page entries) n root p = some f := by
    rw [(walk_off_tree fresh above entries).2, here]
  have apart := distinct.off_tree fresh entries
  by_cases inside : p ++ [i] <+: q
  · obtain ⟨rest, rfl⟩ := inside
    rw [List.append_assoc, List.singleton_append,
      along_append (tableAt_set apart cleared above), along_append here,
      along_set_other apart cleared above above not_prefix_self, off p above, along, along,
      setEntry_here, link, unused, holds]
    cases rest with
    | nil => rfl
    | cons k rest =>
      dsimp only
      rw [along, setEntry_apply, if_neg (fun both => other both.1), Function.update_self, empty]
      rfl
  · rw [along_set_other apart cleared above path inside, off q path]

end Distinct

/-- Entries that lead the same way: the same tables, and walks that end at the same place. -/
theorem walk_alike {alike : E → E → Prop} (kept : ∀ s k, alike (T s k) (T' s k))
    (routes : ∀ l e e', alike e e' → F.child l e' = F.child l e ∧ F.leaf l e' = F.leaf l e) :
    tableAt F T' n t q = tableAt F T n t q ∧
      ((walk F T n t q = none ∧ walk F T' n t q = none) ∨
        ∃ l e e', alike e e' ∧ walk F T n t q = some (l, e) ∧ walk F T' n t q = some (l, e')) := by
  induction q generalizing n t with
  | nil => exact ⟨rfl, Or.inl ⟨rfl, rfl⟩⟩
  | cons i q ih =>
    obtain ⟨child, leaf⟩ := routes n _ _ (kept t i)
    rw [tableAt, tableAt, walk, walk, child, leaf]
    cases found : F.child n (T t i) with
    | none =>
      refine ⟨rfl, ?_⟩
      split
      · exact Or.inr ⟨n, _, _, kept t i, rfl, rfl⟩
      · exact Or.inl ⟨rfl, rfl⟩
    | some next =>
      rw [F.exclusive n _ next found]
      exact ih

theorem along_alike {alike : E → E → Prop} (kept : ∀ s k, alike (T s k) (T' s k))
    (routes : ∀ l e e', alike e e' → F.child l e' = F.child l e)
    (same : ∀ e e', alike e e' → P e' = P e) : along F T' P n t q = along F T P n t q := by
  induction q generalizing n t with
  | nil => rfl
  | cons i q ih =>
    rw [along, along, routes n _ _ (kept t i), same _ _ (kept t i)]
    cases F.child n (T t i) with
    | none => rfl
    | some next =>
      dsimp only
      rw [ih]

end Links

end RadixTable
