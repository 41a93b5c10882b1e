import Omen.Ext2.Directory

/- The split of a path at its last slash. A path is the list of its characters before the
   NUL. -/
namespace OmenExt2

def slash : UInt8 := 0x2F

def lastSlash (source : List UInt8) : Nat :=
  (List.range (strlen source)).foldl (fun last i => if source.getD i 0 = slash then i else last) 0

/-- The parent and the name. Without a slash the first character is lost all the same. -/
def ext2PathToParentAndName (source : List UInt8) : Option (List UInt8 × List UInt8) :=
  if strlen source = 0 then none
  else if lastSlash source = 0 then some ([slash], (source.drop 1).take (strlen source + 1))
  else some (source.take (lastSlash source),
    (source.drop (lastSlash source + 1)).take (strlen source - lastSlash source))

theorem lastSlash_split {source parent name : List UInt8}
    (split : source.take strMaxSize = parent ++ slash :: name) (bare : slash ∉ name) :
    lastSlash source = parent.length := by
  have length : strlen source = parent.length + 1 + name.length := by
    have count := congrArg List.length split
    rw [List.length_take, List.length_append, List.length_cons] at count
    rw [strlen, Nat.min_comm]
    omega
  have char : ∀ i, i < strlen source → source.getD i 0 = (parent ++ slash :: name).getD i 0 := by
    intro i low
    have within : i < strMaxSize := Nat.lt_of_lt_of_le low (Nat.min_le_right _ _)
    rw [← split, List.getD_eq_getElem?_getD, List.getD_eq_getElem?_getD,
      List.getElem?_take_of_lt within]
  have upTo : ∀ n, parent.length < n → n ≤ strlen source →
      (List.range n).foldl (fun last i => if source.getD i 0 = slash then i else last) 0 =
        parent.length := by
    intro n
    induction n with
    | zero =>
      intro low _
      omega
    | succ n ih =>
      intro low high
      rw [List.range_succ, List.foldl_append, List.foldl_cons, List.foldl_nil, char n high]
      by_cases here : n = parent.length
      · subst here
        simp
      · have later : (parent ++ slash :: name).getD n 0 ≠ slash := by
          obtain ⟨k, rfl⟩ : ∃ k, n = parent.length + (k + 1) := ⟨n - parent.length - 1, by omega⟩
          intro same
          have inside : k < name.length := by omega
          rw [List.getD_append_right _ _ _ _ (by omega), Nat.add_sub_cancel_left,
            List.getD_cons_succ, List.getD_eq_getElem _ _ inside] at same
          exact bare (same ▸ List.getElem_mem inside)
        rw [if_neg later]
        exact ih (by omega) (by omega)
  exact upTo (strlen source) (by omega) (Nat.le_refl _)

def parentOf (parent : List UInt8) : List UInt8 := if parent = [] then [slash] else parent

theorem ext2PathToParentAndName_split {source parent name : List UInt8}
    (split : source.take strMaxSize = parent ++ slash :: name) (bare : slash ∉ name) :
    ∃ stored, ext2PathToParentAndName source = some (parentOf parent, stored) ∧
      (source.length ≤ strMaxSize → stored = name) := by
  have count := congrArg List.length split
  rw [List.length_take, List.length_append, List.length_cons] at count
  have length : strlen source = parent.length + 1 + name.length := by
    rw [strlen, Nat.min_comm]
    omega
  have whole : source.length ≤ strMaxSize → source = parent ++ slash :: name := by
    intro short
    rw [← split, List.take_of_length_le short]
  rw [ext2PathToParentAndName, if_neg (by omega), lastSlash_split split bare, parentOf]
  by_cases none : parent = []
  · rw [if_pos (by simp [none]), if_pos none]
    refine ⟨_, rfl, ?_⟩
    intro short
    rw [length, whole short, none, List.nil_append, List.drop_one, List.tail_cons]
    exact List.take_of_length_le (by simp only [List.length_nil]; omega)
  · have some : parent.length ≠ 0 := by simpa using none
    have front : source.take parent.length = parent := by
      have cut := congrArg (List.take parent.length) split
      rw [List.take_take, Nat.min_eq_left (by omega), List.take_left] at cut
      exact cut
    rw [if_neg some, if_neg none, front]
    refine ⟨_, rfl, ?_⟩
    intro short
    have behind : (parent ++ slash :: name).drop (parent.length + 1) = name := by simp
    rw [length, whole short, behind]
    exact List.take_of_length_le (by omega)

end OmenExt2
