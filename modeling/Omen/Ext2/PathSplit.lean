import Omen.Ext2.Lookup
import Mathlib.Data.List.DropRight

/- The two splitters of paths side by side. `split_into_path_and_name` looks for the last slash
   of the whole string, `ext2_path_to_parent_and_name` for the last one that `strlen` counts,
   and takes index 0 for "no slash" and for a slash in front alike. -/
namespace OmenExt2
open OmenDisk

/-- The parent and the name around the last slash. The parent is copied by `strncpy`, which
    counts the path with `strlen`. -/
def splitIntoPathAndName (fullPath : List UInt8) : Option (List UInt8 × List UInt8) :=
  if fullPath = [] then none
  else if slash ∈ fullPath then
    some ((parentOf (fullPath.rdropWhile (· ≠ slash)).dropLast).take strMaxSize,
      fullPath.rtakeWhile (· ≠ slash))
  else some ([], fullPath)

theorem splitIntoPathAndName_slash {parent name : List UInt8} (bare : slash ∉ name) :
    splitIntoPathAndName (parent ++ slash :: name) =
      some ((parentOf parent).take strMaxSize, name) := by
  have plain : ∀ c ∈ name, decide (c ≠ slash) = true :=
    fun c member => decide_eq_true fun same => bare (same ▸ member)
  have behind : (parent ++ slash :: name).rtakeWhile (· ≠ slash) = name := by
    rw [List.rtakeWhile, List.reverse_append, List.reverse_cons, List.append_assoc,
      List.takeWhile_append_of_pos (by simpa using plain)]
    simp
  have front : (parent ++ slash :: name).rdropWhile (· ≠ slash) = parent ++ [slash] := by
    rw [List.rdropWhile, List.reverse_append, List.reverse_cons, List.append_assoc,
      List.dropWhile_append_of_pos (by simpa using plain)]
    simp
  rw [splitIntoPathAndName, if_neg (by simp), if_pos (by simp), behind, front,
    List.dropLast_concat]

variable {path parent name : List UInt8}

def fileName (path : List UInt8) : List UInt8 := path.rtakeWhile (· ≠ slash)

/-- The NUL of the path is among the bytes that `ext2_path_to_parent_and_name` copies into the
    buffer of the name; otherwise that buffer is no string. -/
def NameEnds (source : List UInt8) : Prop :=
  source.length ≤ if lastSlash source = 0 then strlen source + 1 else strlen source

/-- Both splitters give the file name, and parents that lead to the same directory of every
    file system. -/
def SplittersAgree (path : List UInt8) : Prop :=
  NameEnds path ∧ ∃ parent parent',
    ext2PathToParentAndName path = some (parent, fileName path) ∧
    splitIntoPathAndName path = some (parent', fileName path) ∧
    ∀ (σ : Type) (dev : Dev σ) (p : Partition) (behind : List UInt8) (d : σ),
      ext2PathToInode dev p behind parent d = ext2PathToInode dev p behind parent' d

theorem exists_file_name (member : slash ∈ path) :
    ∃ parent name, path = parent ++ slash :: name ∧ slash ∉ name := by
  obtain ⟨before, behind, joined, bare⟩ := List.eq_append_cons_of_mem (List.mem_reverse.mpr member)
  refine ⟨behind.reverse, before.reverse, ?_, by simpa using bare⟩
  rw [← List.reverse_reverse path, joined]
  simp

theorem fileName_slash (bare : slash ∉ name) : fileName (parent ++ slash :: name) = name := by
  have split := @splitIntoPathAndName_slash parent name bare
  rw [splitIntoPathAndName, if_neg (by simp), if_pos (by simp)] at split
  exact (Prod.mk.inj (Option.some.inj split)).2

theorem fileName_bare (bare : slash ∉ path) : fileName path = path := by
  rw [fileName, List.rtakeWhile_eq_self_iff]
  intro c member
  exact decide_eq_true fun same => bare (same ▸ member)

theorem slash_notMem_fileName (path : List UInt8) : slash ∉ fileName path := by
  intro member
  have plain := List.mem_rtakeWhile_imp member
  exact absurd rfl (of_decide_eq_true plain)

theorem lastSlash_front (bare : slash ∉ path.drop 1) : lastSlash path = 0 := by
  have upTo : ∀ n, (List.range n).foldl
      (fun last i => if path.getD i 0 = slash then i else last) 0 = 0 := by
    intro n
    induction n with
    | zero => rfl
    | succ n ih =>
      rw [List.range_succ, List.foldl_append, List.foldl_cons, List.foldl_nil, ih]
      split
      · rename_i here
        cases n with
        | zero => rfl
        | succ n =>
          exfalso
          by_cases inside : n + 1 < path.length
          · rw [List.getD_eq_getElem _ _ inside] at here
            apply bare
            rw [List.mem_iff_getElem]
            refine ⟨n, by rw [List.length_drop]; omega, ?_⟩
            rw [List.getElem_drop, ← here]
            simp [Nat.add_comm]
          · rw [List.getD_eq_default _ _ (Nat.le_of_not_lt inside)] at here
            exact absurd here (by decide)
      · rfl
  exact upTo _

theorem splitters_agree_short (member : slash ∈ path) (fits : path.length ≤ strMaxSize) :
    SplittersAgree path := by
  obtain ⟨parent, name, rfl, bare⟩ := exists_file_name member
  obtain ⟨stored, split, same⟩ := ext2PathToParentAndName_split
    (List.take_of_length_le fits) bare
  have length : (parentOf parent).length ≤ strMaxSize := by
    rw [List.length_append, List.length_cons] at fits
    rw [parentOf]
    split
    · exact Nat.succ_le_of_lt (by decide)
    · omega
  refine ⟨?_, parentOf parent, parentOf parent, ?_, ?_, fun _ _ _ _ _ => rfl⟩
  · have counted : strlen (parent ++ slash :: name) = (parent ++ slash :: name).length :=
      Nat.min_eq_left fits
    rw [NameEnds, counted]
    split <;> omega
  · rw [split, same fits, fileName_slash bare]
  · rw [splitIntoPathAndName_slash bare, List.take_of_length_le length, fileName_slash bare]

theorem splitters_agree_front (bare : slash ∉ name) (length : name.length = strMaxSize) :
    SplittersAgree (slash :: name) := by
  have last : lastSlash (slash :: name) = 0 := lastSlash_front bare
  have counted : strlen (slash :: name) = strMaxSize := by
    rw [strlen, List.length_cons, length]
    exact Nat.min_eq_right (Nat.le_succ _)
  have file : fileName (slash :: name) = name := @fileName_slash [] name bare
  refine ⟨?_, [slash], [slash], ?_, ?_, fun _ _ _ _ _ => rfl⟩
  · rw [NameEnds, if_pos last, counted, List.length_cons, length]
  · rw [ext2PathToParentAndName, counted, if_neg (by decide), if_pos last, file, List.drop_one,
      List.tail_cons, List.take_of_length_le (by omega)]
  · have split := @splitIntoPathAndName_slash [] name bare
    rw [List.nil_append] at split
    rw [split, file]
    rfl

theorem splitters_agree_iff (some : path ≠ []) :
    SplittersAgree path ↔ slash ∈ path ∧
      (path.length ≤ strMaxSize ∨ path.length = strMaxSize + 1 ∧ slash ∉ path.drop 1) := by
  have positive := List.length_pos_of_ne_nil some
  constructor
  · rintro ⟨ends, parent, parent', split, -, -⟩
    have counted : strlen path ≠ 0 := by
      rw [strlen]
      exact Nat.ne_of_gt (Nat.lt_min.mpr ⟨positive, by decide⟩)
    rw [ext2PathToParentAndName, if_neg counted] at split
    rw [NameEnds] at ends
    by_cases front : lastSlash path = 0
    · rw [if_pos front] at ends split
      have copied := (Prod.mk.inj (Option.some.inj split)).2
      rw [List.take_of_length_le (by rw [List.length_drop]; omega)] at copied
      refine ⟨?_, ?_⟩
      · by_contra bare
        rw [fileName_bare bare] at copied
        have shorter := congrArg List.length copied
        rw [List.length_drop] at shorter
        omega
      · have limit : strlen path ≤ strMaxSize := Nat.min_le_right _ _
        by_cases short : path.length ≤ strMaxSize
        · exact Or.inl short
        · exact Or.inr ⟨by omega, copied ▸ slash_notMem_fileName path⟩
    · rw [if_neg front] at ends
      have limit : strlen path ≤ strMaxSize := Nat.min_le_right _ _
      refine ⟨?_, Or.inl (by omega)⟩
      by_contra bare
      exact front (lastSlash_front fun member => bare (List.mem_of_mem_drop member))
  · rintro ⟨member, short | ⟨length, bare⟩⟩
    · exact splitters_agree_short member short
    · cases path with
      | nil => exact absurd rfl some
      | cons c name =>
        have front : c = slash := by
          rcases List.mem_cons.mp member with same | later
          · exact same.symm
          · exact absurd later bare
        rw [front]
        exact splitters_agree_front bare (Nat.succ.inj length)

/-- `/a`. -/
theorem splitters_agree_root : SplittersAgree [slash, 0x61] :=
  (splitters_agree_iff (by decide)).mpr (by decide)

/-- Of the path `a` one splitter makes the empty name. -/
theorem splitters_disagree : ¬ ∀ path : List UInt8, path ≠ [] → SplittersAgree path := by
  intro all
  obtain ⟨-, parent, -, split, -, -⟩ := all [0x61] (by decide)
  have name : fileName [0x61] = [0x61] := by decide
  have run : ext2PathToParentAndName [0x61] = some ([slash], []) := by decide
  rw [run, name] at split
  cases split

end OmenExt2
