import Omen.Vfs.Normalize
import Mathlib.Data.List.Find

/- The working directory of a process (`chdir`, `getcwd` in `process.c`): a mount and a native
   path, turned into a full path below the root and back through the table of mounts. -/
namespace OmenVfs
open OmenExt2 (slash strlen strMaxSize)
open PathNames

structure MountTable where
  mounts : List Mount
  main : Option Mount
  named : ∀ m ∈ mounts, m.name ≠ [] ∧ slash ∉ m.name ∧ m.name.getLast? ≠ some dot
  distinct : (mounts.map (·.name)).Nodup

/-- Without a mount the caller follows a null pointer. A path that `strlen` cannot measure
    overflows its copy. -/
def getStructFromPath (table : MountTable) (path : List UInt8) : Option VfsStruct :=
  if strMaxSize < path.length then none
  else match getMountFromPath table.mounts table.main path with
    | (some mnt, native) => some { root := ⟨mnt, native⟩, pwd := ⟨mnt, native⟩ }
    | (none, _) => none

/-- What `chdir` puts behind the root's path: an absolute path loses its slash, a relative one
    does not meet the old working directory. -/
def behindRoot (path : List UInt8) : List UInt8 :=
  if isAbsolutePath path then path.tail else slash :: path

/-- `behind` is what stands behind the copy of the path that `goes_behind_root` makes. -/
def chdir (behind : List UInt8) (table : MountTable) (fs : VfsStruct) (path : List UInt8) :
    Option VfsStruct :=
  (goesBehindRoot behind path).bind fun refused =>
    if refused then some fs
    else (getStructFromPath table (getRootPathFromStruct fs ++ behindRoot path)).map fun found =>
      { fs with pwd := found.pwd }

def getcwd (fs : VfsStruct) : Option (List UInt8) :=
  let cwdPath := getCwdPathFromStruct fs
  let rootPath := getRootPathFromStruct fs
  if rootPath.take (strlen rootPath) <+: cwdPath then
    let newPath := cwdPath.drop (strlen rootPath)
    some (if newPath = [] then [slash] else newPath)
  else none

structure Valid (table : MountTable) (fs : VfsStruct) : Prop where
  mounted : fs.root.mnt ∈ table.mounts
  rootFits : (getRootPathFromStruct fs).length ≤ strMaxSize
  pwdFits : (getCwdPathFromStruct fs).length ≤ strMaxSize

def FoundByName (table : MountTable) (mnt : Mount) : Prop :=
  ∀ m ∈ table.mounts.takeWhile (· ≠ mnt), ¬ m.name <+: mnt.name

instance (table : MountTable) (mnt : Mount) : Decidable (FoundByName table mnt) :=
  inferInstanceAs (Decidable (∀ m ∈ _, _))

section Mounted
variable {table : MountTable} {mnt : Mount} {rest a b : List UInt8}

theorem prefix_bare (bare : slash ∉ a) (behind : rest = [] ∨ rest.head? = some slash) :
    a <+: b ++ rest ↔ a <+: b := by
  refine ⟨fun begins => ?_, fun begins => begins.trans (List.prefix_append _ _)⟩
  by_cases short : a.length ≤ b.length
  · exact List.prefix_of_prefix_length_le begins (List.prefix_append _ _) short
  · obtain ⟨y, rfl⟩ : b <+: a :=
      List.prefix_of_prefix_length_le (List.prefix_append _ _) begins (by omega)
    have inner := (List.prefix_append_right_inj b).mp begins
    cases y with
    | nil => simp at short
    | cons c y =>
      rcases behind with rfl | lead
      · simp at inner
      · obtain ⟨more, rfl⟩ := inner
        obtain rfl : c = slash := Option.some.inj lead
        exact absurd (by simp) bare

theorem findMount_below (behind : rest = [] ∨ rest.head? = some slash) :
    findMount table.mounts (mnt.name ++ rest) = findMount table.mounts mnt.name := by
  refine List.find?_congr fun m member => ?_
  rw [decide_eq_decide]
  exact prefix_bare (table.named m member).2.1 behind

theorem foundByName_iff (mounted : mnt ∈ table.mounts) :
    findMount table.mounts mnt.name = some mnt ↔ FoundByName table mnt := by
  obtain ⟨before, after, split, apart⟩ := List.eq_append_cons_of_mem mounted
  have earlier : table.mounts.takeWhile (· ≠ mnt) = before := by
    rw [split, List.takeWhile_append_of_pos fun m member => by
      simpa using fun same : m = mnt => apart (same ▸ member)]
    simp
  rw [findMount_iff split table.distinct, FoundByName, earlier]
  simp

theorem shadowed (mounted : mnt ∈ table.mounts) (hidden : ¬ FoundByName table mnt) :
    ∃ m, findMount table.mounts mnt.name = some m ∧ m.name <+: mnt.name ∧
      m.name.length < mnt.name.length := by
  cases found : findMount table.mounts mnt.name with
  | none =>
    have not := List.find?_eq_none.mp found mnt mounted
    simp at not
  | some m =>
    have begins : m.name <+: mnt.name := by simpa using List.find?_some found
    refine ⟨m, rfl, begins, lt_of_le_of_ne begins.length_le fun same => hidden ?_⟩
    have member := List.mem_of_find?_eq_some found
    rw [← foundByName_iff mounted, found,
      List.inj_on_of_nodup_map table.distinct member mounted (begins.eq_of_length same)]

theorem Location.fullPath_shape (location : Location) :
    ∃ t, location.fullPath = location.mnt.name ++ slash :: t := by
  rw [Location.fullPath]
  cases path : location.path with
  | nil => exact ⟨[], by simp⟩
  | cons c t =>
    by_cases lead : c = slash
    · exact ⟨t, by simp [lead]⟩
    · exact ⟨c :: t, by simp [lead]⟩

theorem fullPath_slash (mnt : Mount) (t : List UInt8) :
    Location.fullPath { mnt := mnt, path := slash :: t } = mnt.name ++ slash :: t := by
  simp [Location.fullPath]

theorem mounted_head (mounted : mnt ∈ table.mounts) (t : List UInt8) :
    (mnt.name ++ slash :: t).head? ≠ some slash := by
  obtain ⟨some_name, bare, -⟩ := table.named mnt mounted
  cases name : mnt.name with
  | nil => exact absurd name some_name
  | cons c more =>
    rw [name] at bare
    simpa using fun same : c = slash => bare (by simp [same])

/-- Where a path below a mounted root leads: to the place that it names, or to the root of a
    mount that is in the way. -/
theorem getStructFromPath_below (mounted : mnt ∈ table.mounts) {t : List UInt8}
    (fits : (mnt.name ++ slash :: t).length ≤ strMaxSize) :
    ∃ found, getStructFromPath table (mnt.name ++ slash :: t) = some found ∧
      (FoundByName table mnt → found.pwd = { mnt := mnt, path := slash :: t }) ∧
      (¬ FoundByName table mnt → found.pwd.fullPath.length < mnt.name.length + 1) := by
  rw [getStructFromPath, if_neg (Nat.not_lt.mpr fits),
    getMountFromPath_plain (mounted_head mounted t), findMount_below (Or.inr rfl)]
  by_cases clear : FoundByName table mnt
  · rw [(foundByName_iff mounted).mpr clear]
    refine ⟨_, rfl, fun _ => ?_, fun hidden => absurd clear hidden⟩
    dsimp only
    rw [nativePath_append mnt _ fits, List.head?_cons, if_pos rfl]
  · obtain ⟨m, found, ⟨y, joined⟩, shorter⟩ := shadowed mounted clear
    have bare := (table.named mnt mounted).2.1
    have other : (y ++ slash :: t).head? ≠ some slash := by
      cases y with
      | nil =>
        rw [List.append_nil] at joined
        rw [joined] at shorter
        omega
      | cons c y =>
        rw [← joined] at bare
        simpa using fun same : c = slash => bare (by simp [same])
    rw [found]
    refine ⟨_, rfl, fun seen => absurd seen clear, fun _ => ?_⟩
    dsimp only
    rw [← joined, List.append_assoc] at fits ⊢
    rw [nativePath_append m _ fits, if_neg other, fullPath_slash]
    rw [← joined] at shorter
    rw [List.length_append, List.length_singleton]
    exact Nat.add_lt_add_right shorter 1

end Mounted

def report (rest : List UInt8) : List UInt8 := if rest = [] then [slash] else rest

section Chdir
variable {table : MountTable} {fs fs' : VfsStruct} {behind path rest d : List UInt8}

theorem strlen_of_fits {s : List UInt8} (fits : s.length ≤ strMaxSize) : strlen s = s.length :=
  Nat.min_eq_left fits

theorem getcwd_iff (fits : (getRootPathFromStruct fs).length ≤ strMaxSize) :
    getcwd fs = some d ↔
      ∃ rest, getCwdPathFromStruct fs = getRootPathFromStruct fs ++ rest ∧ d = report rest := by
  rw [getcwd, strlen_of_fits fits]
  dsimp only
  rw [List.take_length]
  constructor
  · intro run
    split at run
    · rename_i begins
      obtain ⟨rest, joined⟩ := begins
      refine ⟨rest, joined.symm, ?_⟩
      rw [← Option.some.inj run, ← joined, List.drop_left]
      rfl
    · cases run
  · rintro ⟨rest, joined, rfl⟩
    rw [joined, if_pos (List.prefix_append _ _), List.drop_left]
    rfl

theorem chdir_refused (refused : goesBehindRoot behind path = some true) :
    chdir behind table fs path = some fs := by
  rw [chdir, refused, Option.bind_some, if_pos rfl]

theorem chdir_accepted (valid : Valid table fs) (accepted : goesBehindRoot behind path = some false)
    (clear : FoundByName table fs.root.mnt)
    (fits : (getRootPathFromStruct fs ++ behindRoot path).length ≤ strMaxSize) :
    ∃ fs', chdir behind table fs path = some fs' ∧ fs'.root = fs.root ∧
      getCwdPathFromStruct fs' = getRootPathFromStruct fs ++ behindRoot path := by
  obtain ⟨t, shape⟩ := fs.root.fullPath_shape
  have joined : getRootPathFromStruct fs ++ behindRoot path =
      fs.root.mnt.name ++ slash :: (t ++ behindRoot path) := by
    rw [getRootPathFromStruct, shape, List.append_assoc, List.cons_append]
  rw [joined] at fits
  obtain ⟨found, run, place, -⟩ := getStructFromPath_below valid.mounted fits
  refine ⟨{ fs with pwd := found.pwd }, ?_, rfl, ?_⟩
  · rw [chdir, accepted, Option.bind_some, if_neg Bool.false_ne_true, joined, run]
    rfl
  · rw [joined, getCwdPathFromStruct, place clear, fullPath_slash]

theorem chdir_lost (valid : Valid table fs) (accepted : goesBehindRoot behind path = some false)
    (bad : ¬ (FoundByName table fs.root.mnt ∧
      (getRootPathFromStruct fs ++ behindRoot path).length ≤ strMaxSize))
    (run : chdir behind table fs path = some fs') : getcwd fs' = none := by
  obtain ⟨t, shape⟩ := fs.root.fullPath_shape
  have joined : getRootPathFromStruct fs ++ behindRoot path =
      fs.root.mnt.name ++ slash :: (t ++ behindRoot path) := by
    rw [getRootPathFromStruct, shape, List.append_assoc, List.cons_append]
  rw [chdir, accepted, Option.bind_some, if_neg Bool.false_ne_true, joined] at run
  rw [joined] at bad
  by_cases fits : (fs.root.mnt.name ++ slash :: (t ++ behindRoot path)).length ≤ strMaxSize
  · obtain ⟨found, got, -, place⟩ := getStructFromPath_below valid.mounted fits
    have short := place fun clear => bad ⟨clear, fits⟩
    rw [got] at run
    obtain rfl := Option.some.inj run
    rw [Option.eq_none_iff_forall_ne_some]
    intro d reported
    have rootFits : (getRootPathFromStruct { fs with pwd := found.pwd }).length ≤ strMaxSize :=
      valid.rootFits
    obtain ⟨rest, same, -⟩ := (getcwd_iff rootFits).mp reported
    have size : found.pwd.fullPath.length = (getRootPathFromStruct fs ++ rest).length :=
      congrArg List.length same
    have root : (getRootPathFromStruct fs).length = fs.root.mnt.name.length + 1 + t.length := by
      rw [getRootPathFromStruct, shape, List.length_append, List.length_cons]
      omega
    rw [List.length_append] at size
    omega
  · rw [getStructFromPath, if_pos (Nat.lt_of_not_le fits)] at run
    cases run

/-- A process stays one: `chdir` never stores a path that is too long. -/
theorem chdir_valid (valid : Valid table fs) (run : chdir behind table fs path = some fs') :
    Valid table fs' := by
  obtain ⟨refused, judged, run⟩ := Option.bind_eq_some_iff.mp run
  cases refused with
  | true =>
    rw [if_pos rfl] at run
    rwa [← Option.some.inj run]
  | false =>
    obtain ⟨t, shape⟩ := fs.root.fullPath_shape
    rw [if_neg Bool.false_ne_true, getRootPathFromStruct, shape, List.append_assoc,
      List.cons_append] at run
    by_cases fits : (fs.root.mnt.name ++ slash :: (t ++ behindRoot path)).length ≤ strMaxSize
    · obtain ⟨found, got, clear, hidden⟩ := getStructFromPath_below valid.mounted fits
      rw [got] at run
      obtain rfl := Option.some.inj run
      refine ⟨valid.mounted, valid.rootFits, ?_⟩
      change found.pwd.fullPath.length ≤ strMaxSize
      by_cases seen : FoundByName table fs.root.mnt
      · rw [clear seen, fullPath_slash]
        exact fits
      · have short := fs.root.mnt.short
        have small := hidden seen
        rw [show strMaxSize = 65536 from rfl]
        omega
    · rw [getStructFromPath, if_pos (Nat.lt_of_not_le fits)] at run
      cases run

end Chdir

def Resolvable (ws : List (List UInt8)) : Prop :=
  resolve kindOf ws = named ws ∧ cleared false ws = true

instance (ws : List (List UInt8)) : Decidable (Resolvable ws) :=
  inferInstanceAs (Decidable (_ ∧ _))

section Opening
variable {front ws : List (List UInt8)} {w x name base path : List UInt8}

theorem cleared_cons (more : ws ≠ []) (pending : Bool) : cleared pending (w :: ws) =
    match ending w with
    | .two => cleared false ws
    | .one => cleared (pending || w ≠ [dot]) ws
    | .plain => !pending && cleared false ws := by
  cases ws with
  | nil => exact absurd rfl more
  | cons v ws => rfl

theorem cleared_insert (plain : x.getLast? ≠ some dot) (pending : Bool) :
    cleared pending (front ++ [[], x]) = cleared pending (front ++ [x]) := by
  induction front generalizing pending with
  | nil =>
    rw [List.nil_append, List.nil_append, cleared_cons (List.cons_ne_nil _ _)]
    simp [ending, cleared, plain]
  | cons w front ih =>
    rw [List.cons_append, List.cons_append, cleared_cons (by simp), cleared_cons (by simp)]
    cases ending w with
    | plain => simp only [ih]
    | one => exact ih _
    | two => exact ih _

theorem resolve_insert (front : List (List UInt8)) (x : List UInt8) :
    resolve kindOf (front ++ [[], x]) = resolve kindOf (front ++ [x]) := by
  simp [resolve, List.foldl_append, push, kindOf]

theorem resolvable_insert (is : kindOf x = .name) :
    Resolvable (front ++ [[], x]) ↔ Resolvable (front ++ [x]) := by
  have same : named (front ++ [[], x]) = named (front ++ [x]) := by
    simp [named, List.filter_append]
  rw [Resolvable, Resolvable, resolve_insert, same]
  by_cases plain : x.getLast? ≠ some dot
  · rw [cleared_insert plain]
  · have other : resolve kindOf (front ++ [x]) ≠ named (front ++ [x]) := fun equal => by
      have member : x ∈ named (front ++ [x]) := by
        rw [← equal, resolve_append]
        simp [push, is]
      exact plain (of_decide_eq_true (List.mem_filter.mp member).2).2
    simp [other]

theorem pop_keeps (v base : List UInt8) : ∃ v', pop (v ++ slash :: base) = v' ++ slash :: base := by
  rw [pop, List.dropWhile_append]
  split
  · exact ⟨[], by simp⟩
  · exact ⟨_, rfl⟩

theorem scan_keeps (path out : List UInt8) (kept : ∃ v, out = v ++ slash :: base) :
    ∃ v, scan path out = v ++ slash :: base := by
  induction path, out using scan.induct with
  | case1 out => exact kept
  | case2 c out =>
    obtain ⟨v, rfl⟩ := kept
    exact ⟨c :: v, rfl⟩
  | case3 c d rest out slashes ih =>
    rw [scan_next, if_pos slashes]
    exact ih kept
  | case4 c d rest out slashes single ih =>
    rw [scan_next, if_neg slashes, if_pos single]
    exact ih kept
  | case5 c d out slashes single e rest double ih =>
    rw [scan_next, if_neg slashes, if_neg single]
    dsimp only
    rw [if_pos double]
    obtain ⟨v, rfl⟩ := kept
    exact ih (pop_keeps v base)
  | case6 c d out slashes single e rest double ih =>
    rw [scan_next, if_neg slashes, if_neg single]
    dsimp only
    rw [if_neg double]
    obtain ⟨v, rfl⟩ := kept
    exact ih ⟨c :: v, rfl⟩
  | case7 c d out slashes single ih =>
    rw [scan_next, if_neg slashes, if_neg single]
    obtain ⟨v, rfl⟩ := kept
    exact ih ⟨c :: v, rfl⟩

theorem scan_slash_keeps (t base : List UInt8) :
    ∃ v, scan (slash :: t) base = v ++ slash :: base := by
  induction t with
  | nil => exact ⟨[], rfl⟩
  | cons c t ih =>
    by_cases again : c = slash
    · rw [again, scan_slashes]
      exact ih
    · rw [scan_slash (by simpa using again)]
      exact scan_keeps _ _ ⟨[], rfl⟩

theorem normalized_below (some_name : name ≠ []) (bare : slash ∉ name)
    (plain : name.getLast? ≠ some dot) (t : List UInt8) :
    ∃ rest, normalized (name ++ slash :: t) = name ++ rest ∧
      (rest = [] ∨ rest.head? = some slash) := by
  have copied : scan (name ++ slash :: t) [] = scan (slash :: t) name.reverse := by
    rw [scan_word bare, (ending_plain_iff name).mpr plain]
    simp only [List.append_nil]
  obtain ⟨v, written⟩ := scan_slash_keeps t name.reverse
  have stops : (name.reverse.dropWhile fun c => c = slash ∨ c = dot) = name.reverse := by
    cases backwards : name.reverse with
    | nil => exact absurd (List.reverse_eq_nil_iff.mp backwards) some_name
    | cons c more =>
      have last : name.getLast? = some c := by
        rw [← List.head?_reverse, backwards]
        rfl
      have inside : c ∈ name := List.mem_reverse.mp (by rw [backwards]; exact List.mem_cons_self)
      refine List.dropWhile_cons_of_neg ?_
      simp only [decide_eq_true_eq, not_or]
      exact ⟨fun same => bare (same ▸ inside), fun same => plain (by rw [last, same])⟩
  rw [normalized, copied, written, List.dropWhile_append]
  split
  · rw [List.dropWhile_cons_of_pos (by simp), stops, List.reverse_reverse]
    exact ⟨[], (List.append_nil _).symm, Or.inl rfl⟩
  · rw [List.reverse_append, List.reverse_cons, List.reverse_reverse, List.append_assoc]
    exact ⟨_, rfl, Or.inr rfl⟩

end Opening

/-- Opening a name without following links: the path that is normalised and looked up names the
    entry of the directory, on the mount of the root. -/
def Opens (table : MountTable) (fs : VfsStruct) (dir x : List UInt8) : Prop :=
  ∀ behind, ∃ s, vfsNormalizePath behind fs x = some s ∧
    findMount table.mounts s = some fs.root.mnt ∧
    names s = resolve kindOf (components (getRootPathFromStruct fs ++ dir ++ slash :: x))

section Opens
variable {table : MountTable} {fs : VfsStruct} {d x : List UInt8}

theorem applyCwd_name (fits : (getCwdPathFromStruct fs).length ≤ strMaxSize)
    (bare : slash ∉ x) (is : kindOf x = .name) :
    ∃ tail, (∀ behind, applyCwd behind fs x = some (getCwdPathFromStruct fs ++ tail)) ∧
      (Resolvable (components (getCwdPathFromStruct fs ++ tail)) ↔
        Resolvable (components (getCwdPathFromStruct fs ++ slash :: x))) ∧
      resolve kindOf (components (getCwdPathFromStruct fs ++ tail)) =
        resolve kindOf (components (getCwdPathFromStruct fs ++ slash :: x)) := by
  have head : x.head? ≠ some slash := fun lead => bare (List.mem_of_head? lead)
  have dev : ¬ devPrefix <+: x := fun begins => bare (begins.subset (by decide))
  have inside (behind) : goesBehindRoot behind x = some false := by
    rw [goesBehindRoot, if_neg head]
  have relative : isAbsolutePath x = false := decide_eq_false head
  simp only [applyCwd, if_neg dev, inside, ne_eq, not_true_eq_false, if_false, relative,
    Bool.false_eq_true]
  rw [strlen_of_fits fits, ← List.getLast?_eq_getElem?]
  generalize getCwdPathFromStruct fs = cwd
  by_cases slashed : cwd.getLast? = some slash
  · rw [if_neg (by simp [slashed]), List.append_nil]
    obtain ⟨front, rfl⟩ := List.getLast?_eq_some_iff.mp slashed
    refine ⟨x, fun _ => rfl, ?_⟩
    have left : components (front ++ [slash] ++ x) = components front ++ [x] := by
      rw [List.append_assoc, List.singleton_append, components_append, components_word bare]
    have right : components (front ++ [slash] ++ slash :: x) = components front ++ [[], x] := by
      rw [List.append_assoc, List.singleton_append, components_append, components_slash,
        components_word bare]
    rw [left, right]
    exact ⟨(resolvable_insert is).symm, (resolve_insert _ _).symm⟩
  · rw [if_pos (by simpa using slashed), List.append_assoc]
    exact ⟨slash :: x, fun _ => rfl, Iff.rfl, rfl⟩

theorem opens_iff (valid : Valid table fs) (reported : getcwd fs = some d) (bare : slash ∉ x)
    (is : kindOf x = .name) :
    Opens table fs d x ↔ FoundByName table fs.root.mnt ∧
      Resolvable (components (getRootPathFromStruct fs ++ d ++ slash :: x)) := by
  obtain ⟨rest, joined, rfl⟩ := (getcwd_iff valid.rootFits).mp reported
  obtain ⟨tail, run, same, equal⟩ := applyCwd_name valid.pwdFits bare is
  obtain ⟨t, shape⟩ := fs.root.fullPath_shape
  obtain ⟨some_name, name_bare, plain⟩ := table.named _ valid.mounted
  have below : getCwdPathFromStruct fs ++ tail =
      fs.root.mnt.name ++ slash :: (t ++ rest ++ tail) := by
    rw [joined, getRootPathFromStruct, shape]
    simp
  -- the report of the root itself adds one slash, which names nothing
  have reported_same : (Resolvable (components (getRootPathFromStruct fs ++ report rest ++
        slash :: x)) ↔ Resolvable (components (getCwdPathFromStruct fs ++ slash :: x))) ∧
      resolve kindOf (components (getRootPathFromStruct fs ++ report rest ++ slash :: x)) =
        resolve kindOf (components (getCwdPathFromStruct fs ++ slash :: x)) := by
    rw [joined, report]
    split
    · rename_i none
      rw [none, List.append_nil, List.append_assoc, List.singleton_append, components_append,
        components_slash, components_append, components_word bare]
      exact ⟨resolvable_insert is, resolve_insert _ _⟩
    · exact ⟨Iff.rfl, rfl⟩
  obtain ⟨behind, start, slashed⟩ :=
    normalized_below some_name name_bare plain (t ++ rest ++ tail)
  have mount : findMount table.mounts (normalized (getCwdPathFromStruct fs ++ tail)) =
      some fs.root.mnt ↔ FoundByName table fs.root.mnt := by
    rw [below, start, findMount_below slashed, foundByName_iff valid.mounted]
  simp only [Opens, vfsNormalizePath, run]
  rw [reported_same.1, ← same, reported_same.2, ← equal]
  have right := names_normalized_iff (getCwdPathFromStruct fs ++ tail)
  rw [Resolvable, ← right, ← mount]
  constructor
  · intro opens
    obtain ⟨s, got, place, named⟩ := opens []
    obtain rfl : normalized (getCwdPathFromStruct fs ++ tail) = s := Option.some.inj got
    exact ⟨place, named⟩
  · rintro ⟨place, named⟩
    exact fun _ => ⟨_, rfl, place, named⟩

end Opens

/-- What `getcwd` has to report after `chdir`: an absolute path itself, or the resolution of the
    old report followed by the path. -/
def destination (d path : List UInt8) : List UInt8 :=
  if isAbsolutePath path then path
  else slash :: [slash].intercalate (resolve kindOf (components d ++ components path))

section Reports
variable {table : MountTable} {fs : VfsStruct} {d path x : List UInt8}

theorem components_bare (path : List UInt8) : ∀ w ∈ components path, slash ∉ w := by
  generalize size : path.length = n
  induction n using Nat.strong_induction_on generalizing path with
  | _ n ih =>
    by_cases some_slash : slash ∈ path
    · obtain ⟨w, rest, rfl, bare⟩ := List.eq_append_cons_of_mem some_slash
      rw [List.length_append, List.length_cons] at size
      rw [components_first bare]
      intro v member
      rcases List.mem_cons.mp member with rfl | later
      · exact bare
      · exact ih _ (by omega) rest rfl v later
    · rw [components_word some_slash]
      simpa using some_slash

theorem joined_eq_iff : path = [slash].intercalate
      (resolve kindOf (components d ++ components path)) ↔
    resolve kindOf (components d) = [] ∧
      (path = [] ∨ ∀ w ∈ components path, kindOf w = .name) := by
  have plain : (∀ w ∈ components path, kindOf w = .name) →
      resolve kindOf (components d ++ components path) =
        resolve kindOf (components d) ++ components path := fun all => by
    rw [resolve_append, foldl_push_of_names fun w member => by simp [all w member]]
    rw [List.filter_eq_self.mpr fun w member => by simp [all w member]]
  have empty : path = [] → resolve kindOf (components d ++ components path) =
      resolve kindOf (components d) := by
    rintro rfl
    rw [resolve_append, show components [] = [[]] from rfl]
    simp [push, kindOf]
  constructor
  · intro same
    cases stack : resolve kindOf (components d ++ components path) with
    | nil =>
      rw [stack] at same
      have none : path = [] := same
      rw [empty none] at stack
      exact ⟨stack, Or.inl none⟩
    | cons c cs =>
      have bare : ∀ w ∈ resolve kindOf (components d ++ components path), slash ∉ w :=
        fun w member => by
          have source := (List.filter_sublist.subset ((resolve_sublist _).subset member))
          rcases List.mem_append.mp source with left | right
          · exact components_bare d w left
          · exact components_bare path w right
      have split : components path = resolve kindOf (components d ++ components path) := by
        conv_lhs => rw [same]
        exact List.splitOn_intercalate slash bare (by simp [stack])
      have names : ∀ w ∈ components path, kindOf w = .name := by
        rw [split]
        exact resolve_names _
      rw [plain names] at split
      exact ⟨List.self_eq_append_left.mp split, Or.inr names⟩
  · rintro ⟨root, none | names⟩
    · rw [empty none, root, none]
      rfl
    · rw [plain names, root, List.nil_append]
      exact (List.intercalate_splitOn slash).symm

theorem report_eq_destination_iff :
    report (behindRoot path) = destination d path ↔
      if isAbsolutePath path then path = [slash]
      else resolve kindOf (components d) = [] ∧
        (path = [] ∨ ∀ w ∈ components path, kindOf w = .name) := by
  rw [behindRoot, destination]
  split
  · rename_i absolute
    cases path with
    | nil => simp [isAbsolutePath] at absolute
    | cons c q =>
      obtain rfl : c = slash := by simpa [isAbsolutePath] using absolute
      rw [List.tail_cons, report]
      split
      · rename_i none
        simp [none]
      · rename_i some_rest
        simp [some_rest]
  · rw [report, if_neg (List.cons_ne_nil _ _), List.cons.injEq, ← joined_eq_iff]
    simp

end Reports

theorem chdir_iff {behind : List UInt8} {table : MountTable} {fs : VfsStruct}
    {d path x : List UInt8} (valid : Valid table fs) (reported : getcwd fs = some d)
    (bare : slash ∉ x) (is : kindOf x = .name) :
    (∃ fs', chdir behind table fs path = some fs' ∧ getcwd fs' = some (destination d path) ∧
      Opens table fs' (destination d path) x) ↔
    FoundByName table fs.root.mnt ∧
      Resolvable (components (getRootPathFromStruct fs ++ destination d path ++ slash :: x)) ∧
      if isAbsolutePath path then
        goesBehindRoot behind path = some false ∧ path = [slash] ∨
          goesBehindRoot behind path = some true ∧ d = path
      else resolve kindOf (components d) = [] ∧
        (path = [] ∨ ∀ w ∈ components path, kindOf w = .name) ∧
        (getRootPathFromStruct fs ++ slash :: path).length ≤ strMaxSize := by
  have relative (other : isAbsolutePath path ≠ true) :
      goesBehindRoot behind path = some false := by
    rw [goesBehindRoot, if_neg (by simpa [isAbsolutePath] using other)]
  obtain lost | refused | accepted : goesBehindRoot behind path = none ∨
      goesBehindRoot behind path = some true ∨ goesBehindRoot behind path = some false := by
    rcases goesBehindRoot behind path with _ | _ | _ <;> simp
  · -- `strtok` runs past the copy
    have absolute : isAbsolutePath path = true := by
      by_contra other
      cases lost.symm.trans (relative other)
    simp [chdir, lost, absolute]
  · have absolute : isAbsolutePath path = true := by
      by_contra other
      cases refused.symm.trans (relative other)
    have itself : destination d path = path := by rw [destination, if_pos absolute]
    rw [if_pos absolute, chdir_refused refused, itself, refused]
    constructor
    · rintro ⟨fs', run, got, opens⟩
      obtain rfl : fs = fs' := Option.some.inj run
      obtain rfl : d = path := Option.some.inj (reported.symm.trans got)
      obtain ⟨clear, right⟩ := (opens_iff valid reported bare is).mp opens
      exact ⟨clear, right, Or.inr ⟨rfl, rfl⟩⟩
    · rintro ⟨clear, right, ⟨judged, -⟩ | ⟨-, rfl⟩⟩
      · cases judged
      · exact ⟨fs, rfl, reported, (opens_iff valid reported bare is).mpr ⟨clear, right⟩⟩
  by_cases good : FoundByName table fs.root.mnt ∧
      (getRootPathFromStruct fs ++ behindRoot path).length ≤ strMaxSize
  · obtain ⟨fs', run, root, moved⟩ := chdir_accepted valid accepted good.1 good.2
    have valid' := chdir_valid valid run
    have same : getRootPathFromStruct fs' = getRootPathFromStruct fs := by
      rw [getRootPathFromStruct, root, getRootPathFromStruct]
    have got : getcwd fs' = some (report (behindRoot path)) :=
      (getcwd_iff valid'.rootFits).mpr ⟨_, by rw [moved, same], rfl⟩
    have opens := opens_iff valid' got bare is
    rw [same, root] at opens
    -- with an accepted path that fits, the condition is that the reports agree
    have agree : (if isAbsolutePath path then
          goesBehindRoot behind path = some false ∧ path = [slash] ∨
            goesBehindRoot behind path = some true ∧ d = path
        else resolve kindOf (components d) = [] ∧
          (path = [] ∨ ∀ w ∈ components path, kindOf w = .name) ∧
          (getRootPathFromStruct fs ++ slash :: path).length ≤ strMaxSize) ↔
        report (behindRoot path) = destination d path := by
      rw [report_eq_destination_iff]
      have fits := good.2
      rw [behindRoot] at fits
      cases absolute : isAbsolutePath path with
      | true => simp [accepted]
      | false =>
        rw [absolute, if_neg Bool.false_ne_true] at fits
        simp only [Bool.false_eq_true, if_false, fits, and_true]
    rw [agree]
    constructor
    · rintro ⟨fs'', run', got', opened⟩
      obtain rfl : fs' = fs'' := Option.some.inj (run.symm.trans run')
      have target := Option.some.inj (got.symm.trans got')
      rw [← target] at opened ⊢
      obtain ⟨clear, right⟩ := opens.mp opened
      exact ⟨clear, right, rfl⟩
    · rintro ⟨clear, right, target⟩
      rw [← target] at right ⊢
      exact ⟨fs', run, got, opens.mpr ⟨clear, right⟩⟩
  · constructor
    · rintro ⟨fs', run, got, -⟩
      rw [chdir_lost valid accepted good run] at got
      cases got
    · rintro ⟨clear, -, how⟩
      refine absurd ⟨clear, ?_⟩ good
      rw [behindRoot]
      split at how
      · rcases how with ⟨-, rfl⟩ | ⟨refused, -⟩
        · simpa [isAbsolutePath] using valid.rootFits
        · cases accepted.symm.trans refused
      · rename_i other
        rw [if_neg other]
        exact how.2.2

def onePartition : MountTable :=
  { mounts := [hdap1], main := some hdap1, named := by decide, distinct := by decide }

theorem atRoot_valid : Valid onePartition atRoot :=
  { mounted := by decide, rootFits := by decide, pwdFits := by decide }

/-- Changing to `a` at the root and opening `x` there. -/
theorem chdir_names :
    ∃ fs', chdir [] onePartition atRoot [97] = some fs' ∧
      getcwd fs' = some (destination [slash] [97]) ∧
      Opens onePartition fs' (destination [slash] [97]) [120] :=
  (chdir_iff atRoot_valid (by decide) (by decide) (by decide)).mpr (by decide)

/-- After `chdir("/a")` at the root `getcwd` reports `a`; then `chdir("b")` leads to `/b`. -/
theorem chdir_wrong :
    (chdir [] onePartition atRoot [slash, 97]).bind getcwd = some [97] ∧
      ((chdir [] onePartition atRoot [slash, 97]).bind fun fs =>
          chdir [] onePartition fs [98]).bind getcwd =
        some [slash, 98] := by
  decide

end OmenVfs
