import Omen.Vfs.Paths

/- The mounts of the VFS (`vfs.c`): which mount a path belongs to, and the way back from a
   descriptor to a path. The list holds the mounts up to the empty one that ends it. -/
namespace OmenVfs
open OmenExt2 (slash strlen strMaxSize)

structure Mount where
  name : List UInt8
  internal_index : Nat
  short : name.length < 48
  deriving DecidableEq

structure Location where
  mnt : Mount
  path : List UInt8
  deriving DecidableEq

structure VfsStruct where
  root : Location
  pwd : Location
  deriving DecidableEq

structure FileNames where
  name : List UInt8
  mount : List UInt8
  deriving DecidableEq

/-- What is behind the name of the mount. The buffer was zeroed, so that it ends there. -/
def nativePath (mount : Mount) (path : List UInt8) : List UInt8 :=
  let rest := (path.drop mount.name.length).take (strlen path - mount.name.length)
  if rest.head? = some slash then rest else [slash]

def findMount (mounts : List Mount) (path : List UInt8) : Option Mount :=
  mounts.find? fun mount => mount.name <+: path

/-- `get_mount_from_path`: the first mount whose name begins the path, without `/dev/`. -/
def getMountFromPath (mounts : List Mount) (main : Option Mount) (cpath : List UInt8) :
    Option Mount × List UInt8 :=
  if devPrefix <+: cpath ∨ cpath.head? ≠ some slash then
    let path := if cpath.head? = some slash then cpath.drop 5 else cpath
    match findMount mounts path with
    | some mount => (some mount, nativePath mount path)
    | none => (main, cpath)
  else (main, cpath)

def getFullPathFromFdentry (entry : FileNames) : List UInt8 := entry.mount ++ entry.name

/-- What `get_fd` is told of a file on an ext2 mount: the driver keeps 31 bytes of the name. -/
def ext2Names (mount : Mount) (native : List UInt8) : FileNames :=
  { name := native, mount := mount.name.take 31 }

section Resolution
variable {mounts before after : List Mount} {main : Option Mount} {mount : Mount}
  {path tail native : List UInt8}

theorem nativePath_append (mount : Mount) (rest : List UInt8)
    (fits : (mount.name ++ rest).length ≤ strMaxSize) :
    nativePath mount (mount.name ++ rest) = if rest.head? = some slash then rest else [slash] := by
  have whole : ((mount.name ++ rest).drop mount.name.length).take
      (strlen (mount.name ++ rest) - mount.name.length) = rest := by
    rw [List.drop_left, strlen, Nat.min_eq_left fits, List.length_append, Nat.add_sub_cancel_left,
      List.take_length]
  rw [nativePath, whole]

theorem nativePath_long (mount : Mount) (rest : List UInt8)
    (long : strMaxSize < (mount.name ++ rest).length) :
    nativePath mount (mount.name ++ rest) ≠ rest := by
  have short := mount.short
  have size : (65536 : Nat) < (mount.name ++ rest).length := long
  rw [List.length_append] at size
  intro same
  have count := congrArg List.length same
  rw [nativePath] at count
  split at count
  · rw [List.drop_left, List.length_take, strlen, List.length_append,
      show strMaxSize = 65536 from rfl] at count
    omega
  · rw [List.length_singleton] at count
    omega

theorem getMountFromPath_plain (plain : path.head? ≠ some slash) :
    getMountFromPath mounts main path =
      match findMount mounts path with
      | some mount => (some mount, nativePath mount path)
      | none => (main, path) := by
  rw [getMountFromPath, if_pos (Or.inr plain), if_neg plain]

theorem getMountFromPath_dev (path : List UInt8) :
    getMountFromPath mounts main (devPrefix ++ path) =
      match findMount mounts path with
      | some mount => (some mount, nativePath mount path)
      | none => (main, devPrefix ++ path) := by
  have head : (devPrefix ++ path).head? = some slash := rfl
  rw [getMountFromPath, if_pos (Or.inl (List.prefix_append _ _)), if_pos head]
  rfl

/-- A search comes back with this mount and this rest only by finding the mount, since the
    native path is not the whole path. -/
theorem searched_iff {whole : List UInt8} (shorter : native ≠ whole) :
    (match findMount mounts path with
      | some mount => (some mount, nativePath mount path)
      | none => (main, whole)) = (some mount, native) ↔
    findMount mounts path = some mount ∧ nativePath mount path = native := by
  cases found : findMount mounts path with
  | none => simpa using fun _ same => shorter same.symm
  | some other =>
    constructor
    · intro same
      obtain rfl : other = mount := Option.some.inj (congrArg Prod.fst same)
      exact ⟨rfl, congrArg Prod.snd same⟩
    · rintro ⟨same, rest⟩
      obtain rfl : other = mount := Option.some.inj same
      rw [← rest]

theorem findMount_iff (split : mounts = before ++ mount :: after)
    (distinct : (mounts.map (·.name)).Nodup) :
    findMount mounts path = some mount ↔
      mount.name <+: path ∧ ∀ m ∈ before, ¬ m.name <+: path := by
  rw [findMount, split, List.find?_append]
  constructor
  · intro found
    cases early : before.find? fun mount => mount.name <+: path with
    | none =>
      rw [early, Option.none_or] at found
      refine ⟨by simpa using List.find?_some found, fun m member begins => ?_⟩
      have not := List.find?_eq_none.mp early m member
      simp [begins] at not
    | some other =>
      rw [early, Option.some_or] at found
      obtain rfl : other = mount := Option.some.inj found
      rw [split, List.map_append, List.map_cons] at distinct
      have first := List.mem_map_of_mem (f := (·.name)) (List.mem_of_find?_eq_some early)
      exact absurd rfl ((List.nodup_append.mp distinct).2.2 _ first _ List.mem_cons_self)
  · rintro ⟨here, earlier⟩
    have none : (before.find? fun mount => mount.name <+: path) = none :=
      List.find?_eq_none.mpr fun m member => by simpa using earlier m member
    rw [none, Option.none_or, List.find?_cons, decide_eq_true here]

def nativeOf (tail : List UInt8) : List UInt8 := if tail = [] then [slash] else tail

theorem nativeOf_head (behind : tail = [] ∨ tail.head? = some slash) :
    (nativeOf tail).head? = some slash := by
  rw [nativeOf]
  rcases behind with rfl | slashed
  · rfl
  · rw [if_neg (by rintro rfl; simp at slashed)]
    exact slashed

theorem nativePath_tail (behind : tail = [] ∨ tail.head? = some slash)
    (fits : (mount.name ++ tail).length ≤ strMaxSize) :
    nativePath mount (mount.name ++ tail) = nativeOf tail := by
  rw [nativePath_append mount tail fits, nativeOf]
  rcases behind with rfl | slashed
  · rfl
  · rw [if_pos slashed, if_neg (by rintro rfl; simp at slashed)]

theorem nativePath_length (mount : Mount) (rest : List UInt8) :
    (nativePath mount (mount.name ++ rest)).length ≤ max rest.length 1 := by
  rw [nativePath]
  split
  · rw [List.drop_left, List.length_take]
    omega
  · rw [List.length_singleton]
    omega

theorem nativePath_tail_iff (behind : tail = [] ∨ tail.head? = some slash) :
    nativePath mount (mount.name ++ tail) = nativeOf tail ↔
      (mount.name ++ tail).length ≤ strMaxSize := by
  refine ⟨fun same => ?_, nativePath_tail behind⟩
  by_contra long
  rw [Nat.not_le] at long
  have some_tail : tail ≠ [] := by
    rintro rfl
    have short := mount.short
    rw [List.append_nil, show strMaxSize = 65536 from rfl] at long
    omega
  rw [nativeOf, if_neg some_tail] at same
  exact nativePath_long mount tail long same

/-- The driver's copy of the name leads back to the mount when it is the whole name, or when
    the slash of the root is the byte that it lacks. -/
theorem rejoined_iff (lead : path.head? = some slash)
    (fits : (mount.name ++ path).length ≤ strMaxSize) :
    mount.name <+: mount.name.take 31 ++ path ∧
      nativePath mount (mount.name.take 31 ++ path) = path ↔
    mount.name.length ≤ 31 ∨ mount.name = mount.name.take 31 ++ [slash] ∧ path = [slash] := by
  by_cases small : mount.name.length ≤ 31
  · rw [List.take_of_length_le small, nativePath_append mount path fits, if_pos lead]
    simp [small]
  simp only [small, false_or]
  constructor
  · rintro ⟨⟨rest, joined⟩, same⟩
    rw [← joined] at same
    have bound := nativePath_length mount rest
    have size := congrArg List.length joined
    rw [same] at bound
    simp only [List.length_append, List.length_take] at size
    have one : path.length = 1 := by omega
    obtain ⟨a, rfl⟩ := List.length_eq_one_iff.mp one
    obtain rfl : a = slash := Option.some.inj lead
    have none : rest = [] := List.length_eq_zero_iff.mp (by omega)
    rw [none, List.append_nil] at joined
    exact ⟨joined, rfl⟩
  · rintro ⟨joined, rfl⟩
    have root := nativePath_append mount [] (by
      rw [List.append_nil]
      exact le_trans mount.short.le (by decide))
    rw [List.append_nil] at root
    rw [← joined, root]
    exact ⟨List.prefix_rfl, rfl⟩

/-- A name with a leading slash is never found again: the path either goes to the main mount
    or loses five bytes. -/
theorem slash_not_found (slashed : mount.name.head? = some slash)
    (path : List UInt8) (lead : path.head? = some slash) :
    getMountFromPath mounts main (mount.name.take 31 ++ path) ≠ (some mount, path) := by
  intro resolved
  obtain ⟨rest, rfl⟩ : ∃ rest, path = slash :: rest := by
    cases path with
    | nil => simp at lead
    | cons a rest => exact ⟨rest, by rw [Option.some.inj lead]⟩
  have some_name : 1 ≤ (mount.name.take 31).length := by
    cases name : mount.name with
    | nil => simp [name] at slashed
    | cons a rest => simp
  have count : (mount.name.take 31).length ≤ mount.name.length := by simp
  have longer : slash :: rest ≠ mount.name.take 31 ++ slash :: rest := fun same => by
    have size := congrArg List.length same
    rw [List.length_append] at size
    omega
  by_cases dev : devPrefix <+: mount.name.take 31 ++ slash :: rest
  · obtain ⟨behind, joined⟩ := dev
    rw [← joined] at resolved longer
    rw [getMountFromPath_dev, searched_iff longer] at resolved
    obtain ⟨found, same⟩ := resolved
    obtain ⟨beyond, rfl⟩ : mount.name <+: behind := by simpa using List.find?_some found
    have bound := nativePath_length mount beyond
    have size := congrArg List.length joined
    rw [same] at bound
    simp only [List.length_append, List.length_cons, show devPrefix.length = 5 from rfl]
      at size bound count some_name
    omega
  · have lead : (mount.name.take 31 ++ slash :: rest).head? = some slash := by
      cases name : mount.name with
      | nil => simp [name] at slashed
      | cons a rest =>
        rw [name] at slashed
        simpa using slashed
    rw [getMountFromPath, if_neg (by simp [dev, lead])] at resolved
    exact longer (congrArg Prod.snd resolved).symm

theorem head_append (some_name : mount.name ≠ []) (plain : mount.name.head? ≠ some slash)
    (rest : List UInt8) : (mount.name ++ rest).head? ≠ some slash ∧
      (mount.name.take 31 ++ rest).head? ≠ some slash := by
  cases name : mount.name with
  | nil => exact absurd name some_name
  | cons a more => simpa [name] using plain

theorem named_path_iff (split : mounts = before ++ mount :: after)
    (distinct : (mounts.map (·.name)).Nodup) (some_name : mount.name ≠ [])
    (behind : tail = [] ∨ tail.head? = some slash) (dev : Bool)
    (plain : mount.name.head? ≠ some slash) :
    getMountFromPath mounts main ((if dev then devPrefix else []) ++ (mount.name ++ tail)) =
        (some mount, nativeOf tail) ↔
      (mount.name ++ tail).length ≤ strMaxSize ∧
        ∀ m ∈ before, ¬ m.name <+: mount.name ++ tail := by
  have found : findMount mounts (mount.name ++ tail) = some mount ∧
      nativePath mount (mount.name ++ tail) = nativeOf tail ↔
      (mount.name ++ tail).length ≤ strMaxSize ∧
        ∀ m ∈ before, ¬ m.name <+: mount.name ++ tail := by
    rw [findMount_iff split distinct, nativePath_tail_iff behind]
    simp [and_comm]
  have size : (nativeOf tail).length ≤ tail.length + 1 := by
    rw [nativeOf]
    split <;> simp
  have count := List.length_pos_iff.mpr some_name
  rw [← found]
  cases dev with
  | false =>
    rw [if_neg Bool.false_ne_true, List.nil_append,
      getMountFromPath_plain (head_append some_name plain tail).1]
    refine searched_iff fun same => ?_
    have lead := nativeOf_head behind
    rw [same] at lead
    exact (head_append some_name plain tail).1 lead
  | true =>
    rw [if_pos rfl, getMountFromPath_dev]
    refine searched_iff fun same => ?_
    have count := congrArg List.length same
    simp only [List.length_append, show devPrefix.length = 5 from rfl] at count
    omega

theorem mount_resolution_iff (split : mounts = before ++ mount :: after)
    (distinct : (mounts.map (·.name)).Nodup) (some_name : mount.name ≠ [])
    (behind : tail = [] ∨ tail.head? = some slash) (dev : Bool) :
    getMountFromPath mounts main ((if dev then devPrefix else []) ++ (mount.name ++ tail)) =
        (some mount, nativeOf tail) ∧
      getMountFromPath mounts main
          (getFullPathFromFdentry (ext2Names mount (nativeOf tail))) =
        (some mount, nativeOf tail) ↔
    mount.name.head? ≠ some slash ∧ (mount.name ++ tail).length ≤ strMaxSize ∧
      (mount.name.length ≤ 31 ∨
        mount.name = mount.name.take 31 ++ [slash] ∧ nativeOf tail = [slash]) ∧
      ∀ m ∈ before, ¬ m.name <+: mount.name ++ tail ∧
        ¬ m.name <+: mount.name.take 31 ++ nativeOf tail := by
  by_cases slashed : mount.name.head? = some slash
  · have lost : getMountFromPath mounts main (mount.name.take 31 ++ nativeOf tail) ≠
        (some mount, nativeOf tail) := slash_not_found slashed _ (nativeOf_head behind)
    simp [slashed, getFullPathFromFdentry, ext2Names, lost]
  rw [named_path_iff split distinct some_name behind dev slashed]
  have again :
      getMountFromPath mounts main (getFullPathFromFdentry (ext2Names mount (nativeOf tail))) =
        (some mount, nativeOf tail) ↔
      (mount.name <+: mount.name.take 31 ++ nativeOf tail ∧
        nativePath mount (mount.name.take 31 ++ nativeOf tail) = nativeOf tail) ∧
      ∀ m ∈ before, ¬ m.name <+: mount.name.take 31 ++ nativeOf tail := by
    have plain := (head_append some_name slashed (nativeOf tail)).2
    have shorter : nativeOf tail ≠ mount.name.take 31 ++ nativeOf tail := fun same => by
      rw [← same] at plain
      exact plain (nativeOf_head behind)
    rw [getFullPathFromFdentry, ext2Names, getMountFromPath_plain plain, searched_iff shorter,
      findMount_iff split distinct]
    tauto
  rw [again]
  by_cases fits : (mount.name ++ tail).length ≤ strMaxSize
  · have whole : (mount.name ++ nativeOf tail).length ≤ strMaxSize := by
      rw [nativeOf]
      split
      · have short := mount.short
        rw [List.length_append, show strMaxSize = 65536 from rfl, List.length_singleton]
        omega
      · exact fits
    rw [rejoined_iff (nativeOf_head behind) whole]
    simp only [fits, slashed, ne_eq, not_false_eq_true, true_and, forall_and]
    tauto
  · tauto

end Resolution

def hdap1 : Mount := { name := [104, 100, 97, 112, 49], internal_index := 0, short := by decide }

def hdap10 : Mount :=
  { name := [104, 100, 97, 112, 49, 48], internal_index := 10, short := by decide }

theorem mount_resolution_first :
    getMountFromPath [hdap1, hdap10] none ([] ++ (hdap1.name ++ [slash, 120])) =
        (some hdap1, [slash, 120]) ∧
      getMountFromPath [hdap1, hdap10] none
          (getFullPathFromFdentry (ext2Names hdap1 [slash, 120])) =
        (some hdap1, [slash, 120]) :=
  (mount_resolution_iff (show [hdap1, hdap10] = [] ++ hdap1 :: [hdap10] from rfl) (by decide)
    (by decide) (Or.inr rfl) false).mpr ⟨by decide, by decide, Or.inl (by decide), by simp⟩

/-- The name `hdap1` begins the name `hdap10`, whose mount is never found. -/
theorem mount_resolution_other :
    getMountFromPath [hdap1, hdap10] none (hdap10.name ++ [slash, 120]) =
      (some hdap1, [slash]) := by
  decide

end OmenVfs
