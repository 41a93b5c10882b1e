import Omen.Ext2.Path
import Omen.Text.Strtok
import Mathlib.Data.List.Find

/- The two ways to find a name in a directory. `ext2_inode_from_path_and_parent` compares
   over the length of the stored name and looks at unused records as well;
   `ext2_dentry_get_dentry` compares over the length of the name that is looked for and
   stops at the first unused record. -/
namespace OmenExt2
open ByteMemory RecordChain OmenDisk

variable {σ : Type}

def papNotFound : Int := -1
def papError : Int := -2
def listMax : Nat := 65535
def rootInode : Nat := 2

def toInt32 (x : Nat) : Int := if x < 2 ^ 31 then x else (x : Int) - 2 ^ 32

def toUInt32 (x : Int) : Nat := (x % 2 ^ 32).toNat

/-- The loop of `ext2_inode_from_path_and_parent`. It has no result when it is caught in a
    record without length. -/
def lookupFrom (buffer : Mem) (size : Nat) (path : List UInt8) : Nat → Nat → Option Int
  | 0, _ => none
  | fuel + 1, parsed =>
    if parsed < size then
      if strncmp (advance buffer (parsed + 8)) (cString path) 0 (nameLen buffer parsed) = 0 then
        some (toInt32 (entryInode buffer parsed))
      else lookupFrom buffer size path fuel ((parsed + recLen buffer parsed) % 2 ^ 32)
    else some papNotFound

def ext2InodeFromPathAndParent (dev : Dev σ) (p : Partition) (parentInode : Nat)
    (path : List UInt8) (d : σ) : Option (Int × σ) :=
  if path = [] then some (toInt32 parentInode, d)
  else
    onRead (ext2ReadInode dev p parentInode d) (fun d1 => some (papError, d1)) fun inode d1 =>
      if i_mode inode &&& inodeTypeDir ≠ 0 then
        onRead (readEntries dev p parentInode inode d1) (fun d2 => some (papError, d2))
          fun buffer d2 =>
            (lookupFrom buffer (i_size inode) path (i_size inode + 1) 0).map fun found =>
              (found, d2)
      else some (papNotFound, d1)

/-- The loop of `ext2_path_to_inode` with `strtok` at a place of the copy. The result 0 is
    `EXT2_INO_PTI_ERROR`; a walk that ends at inode 0 panics and has no result. -/
def walkTokens (dev : Dev σ) (p : Partition) :
    Nat → List UInt8 → List UInt8 → Nat → σ → Option (Nat × σ)
  | 0, _, _, _, _ => none
  | calls + 1, before, rest, index, d => do
    let stop ← OmenText.strtok [slash] before rest
    match stop.token with
    | none => if index = 0 then none else some (index, d)
    | some place =>
      let token := OmenText.cString (stop.before ++ stop.rest) place
      let (found, d1) ← ext2InodeFromPathAndParent dev p index token d
      if found = papError ∨ found = papNotFound then some (0, d1)
      else walkTokens dev p calls stop.before stop.rest (toUInt32 found) d1

/-- The copy of the path holds at most `strMaxSize` characters. `behind` is what stands behind
    its NUL, where `strtok` goes on when the path is a slash or ends in two. -/
def ext2PathToInode (dev : Dev σ) (p : Partition) (behind path : List UInt8) (d : σ) :
    Option (Nat × σ) :=
  walkTokens dev p (path.length + behind.length + 2) [] (path.take strMaxSize ++ 0 :: behind)
    rootInode d

/-- The loop of `ext2_dentry_get_dentry`: the offset of the entry that it stops at. The
    buffer holds the stored name up to a NUL. -/
def dentryFrom (buffer : Mem) (name : List UInt8) : Nat → Nat → Option Nat
  | 0, _ => none
  | n + 1, parsed =>
    if recLen buffer parsed = 0 ∨ entryInode buffer parsed = 0 then none
    else if strncmp (cString ((entryName buffer parsed).takeWhile (· ≠ 0))) (cString name) 0
        (strlen name) = 0 then some parsed
    else dentryFrom buffer name n ((parsed + recLen buffer parsed) % 2 ^ 32)

def ext2DentryGetDentry (dev : Dev σ) (p : Partition) (behind parentPath name : List UInt8)
    (entry : Mem) (d : σ) : Option (Nat × Mem × σ) :=
  match ext2PathToInode dev p behind parentPath d with
  | none => none
  | some (inodeNumber, d1) =>
    if inodeNumber = 0 then some (1, entry, d1)
    else
      onRead (ext2ReadInode dev p inodeNumber d1) (fun d2 => some (1, entry, d2)) fun inode d2 =>
        if i_mode inode &&& inodeTypeDir ≠ 0 then
          onRead (readEntries dev p inodeNumber inode d2) (fun d3 => some (1, entry, d3))
            fun buffer d3 =>
              match dentryFrom buffer name listMax 0 with
              | some pos => some (0, memcpy entry 0 (advance buffer pos) 263, d3)
              | none => some (1, memcpy entry 0 blank 263, d3)
        else some (1, entry, d2)

theorem toInt32_injective {a b : Nat} (low : a < 2 ^ 32) (low' : b < 2 ^ 32)
    (same : toInt32 a = toInt32 b) : a = b := by
  unfold toInt32 at same
  split at same <;> split at same <;> omega

theorem toInt32_number {a : Nat} (low : a < 2 ^ 32 - 2) :
    toInt32 a ≠ papNotFound ∧ toInt32 a ≠ papError ∧ toUInt32 (toInt32 a) = a := by
  unfold toInt32 papNotFound papError toUInt32
  split <;> omega

section Loops
variable {m : Mem} {total pos : Nat} {offsets : List Nat} {name : List UInt8}

theorem lookupFrom_chain (string : (0 : UInt8) ∉ name) (small : total < 2 ^ 32)
    (chain : Chain (recLen m) pos total offsets) {fuel : Nat} (enough : offsets.length < fuel) :
    lookupFrom m total name fuel pos =
      some (((offsets.find? fun q => EqualUpTo (entryName m q) name).map fun q =>
        toInt32 (entryInode m q)).getD papNotFound) := by
  induction chain generalizing fuel with
  | nil =>
    obtain ⟨fuel, rfl⟩ := Nat.exists_eq_succ_of_ne_zero (Nat.ne_of_gt enough)
    simp [lookupFrom]
  | @cons pos total rest positive tail ih =>
    obtain ⟨fuel, rfl⟩ := Nat.exists_eq_succ_of_ne_zero (Nat.ne_of_gt (Nat.zero_lt_of_lt enough))
    have bound := tail.le
    rw [List.length_cons] at enough
    rw [lookupFrom, if_pos (by omega)]
    by_cases match' : EqualUpTo (entryName m pos) name
    · rw [if_pos ((strncmp_entry m pos string).mpr match'),
        List.find?_cons_of_pos (by simpa using match')]
      rfl
    · rw [if_neg (fun same => match' ((strncmp_entry m pos string).mp same)),
        List.find?_cons_of_neg (by simpa using match'), Nat.mod_eq_of_lt (by omega)]
      exact ih small (by omega)

def walked (m : Mem) (offsets : List Nat) : List Nat :=
  (offsets.take listMax).takeWhile fun q => Live m q

theorem dentryFrom_chain (string : (0 : UInt8) ∉ name) (small : total < 2 ^ 32)
    (past : ∀ i, total ≤ i → m i = 0) (chain : Chain (recLen m) pos total offsets) (n : Nat) :
    dentryFrom m name n pos = ((offsets.take n).takeWhile fun q => Live m q).find? fun q =>
      name <+: (entryName m q).takeWhile (· ≠ 0) := by
  induction chain generalizing n with
  | nil total =>
    cases n with
    | zero => rfl
    | succ n =>
      have none : recLen m total = 0 := by
        simp [recLen, getLE, past (total + 4) (by omega), past (total + 5) (by omega)]
      simp [dentryFrom, none]
  | @cons pos total rest positive tail ih =>
    cases n with
    | zero => rfl
    | succ n =>
      have bound := tail.le
      rw [dentryFrom, List.take_succ_cons]
      by_cases live : Live m pos
      · have short : ((entryName m pos).takeWhile (· ≠ 0)).length < 256 := by
          have cut := (List.takeWhile_prefix (l := entryName m pos) (· ≠ 0)).length_le
          have long := nameLen_bound m pos
          rw [entryName_length] at cut
          omega
        have stays : ¬ (recLen m pos = 0 ∨ entryInode m pos = 0) := by
          rintro (none | unused)
          · omega
          · exact live unused
        rw [if_neg stays, List.takeWhile_cons_of_pos (by simpa using live)]
        by_cases match' : name <+: (entryName m pos).takeWhile (· ≠ 0)
        · rw [if_pos ((strncmp_iff string short).mpr match'),
            List.find?_cons_of_pos (by simpa using match')]
        · rw [if_neg (fun same => match' ((strncmp_iff string short).mp same)),
            List.find?_cons_of_neg (by simpa using match'), Nat.mod_eq_of_lt (by omega)]
          exact ih small past n
      · have unused : entryInode m pos = 0 := Classical.not_not.mp live
        rw [if_pos (Or.inr unused), List.takeWhile_cons_of_neg (by simpa using live)]
        rfl

end Loops

def lookupResult (m : Mem) (offsets : List Nat) (name : List UInt8) : Int :=
  ((offsets.find? fun q => EqualUpTo (entryName m q) name).map fun q =>
    toInt32 (entryInode m q)).getD papNotFound

/-- No other record gets in the way of the name: the first stored name that ends where the
    name goes on leads to the same inode, the first one reached that goes on where the name
    ends is the name itself, and the entry is reached. -/
structure Unshadowed (m : Mem) (offsets : List Nat) (name : List UInt8) : Prop where
  shorter : ∀ pos ∈ offsets, EqualUpTo (entryName m pos) name →
    (∀ q ∈ offsets, q < pos → ¬ EqualUpTo (entryName m q) name) →
    ∃ e ∈ offsets, Live m e ∧ entryName m e = name ∧ entryInode m e = entryInode m pos
  longer : ∀ pos ∈ walked m offsets, name <+: entryName m pos →
    (∀ q ∈ walked m offsets, q < pos → ¬ name <+: entryName m q) → entryName m pos = name
  reached : ∀ e ∈ offsets, Live m e → entryName m e = name → e ∈ walked m offsets

instance (m : Mem) (offsets : List Nat) (name : List UInt8) :
    Decidable (Unshadowed m offsets name) :=
  decidable_of_iff ((∀ pos ∈ offsets, EqualUpTo (entryName m pos) name →
      (∀ q ∈ offsets, q < pos → ¬ EqualUpTo (entryName m q) name) →
      ∃ e ∈ offsets, Live m e ∧ entryName m e = name ∧ entryInode m e = entryInode m pos) ∧
      (∀ pos ∈ walked m offsets, name <+: entryName m pos →
        (∀ q ∈ walked m offsets, q < pos → ¬ name <+: entryName m q) → entryName m pos = name) ∧
      ∀ e ∈ offsets, Live m e → entryName m e = name → e ∈ walked m offsets)
    ⟨fun ⟨shorter, longer, reached⟩ => ⟨shorter, longer, reached⟩,
      fun ⟨shorter, longer, reached⟩ => ⟨shorter, longer, reached⟩⟩

section Exact
variable {m : Mem} {offsets : List Nat} {name : List UInt8}

theorem walked_live {pos : Nat} (member : pos ∈ walked m offsets) : pos ∈ offsets ∧ Live m pos :=
  ⟨List.mem_of_mem_take ((List.takeWhile_prefix _).subset member),
    of_decide_eq_true (List.mem_takeWhile_imp (p := fun q => Live m q) member)⟩

variable (sorted : offsets.Pairwise (· < ·))
include sorted

theorem walked_sorted : (walked m offsets).Pairwise (· < ·) :=
  sorted.sublist ((List.takeWhile_prefix _).sublist.trans (List.take_sublist _ _))

theorem lookupResult_first {pos : Nat} (member : pos ∈ offsets)
    (same : EqualUpTo (entryName m pos) name)
    (first : ∀ q ∈ offsets, q < pos → ¬ EqualUpTo (entryName m q) name) :
    lookupResult m offsets name = toInt32 (entryInode m pos) := by
  have found := (find_least (P := fun q => EqualUpTo (entryName m q) name) sorted).mpr
    ⟨member, same, first⟩
  rw [lookupResult, found]
  rfl

theorem lookupResult_exact_iff (named : NamedEntries m offsets) :
    (∀ i, i < 2 ^ 32 - 2 → (lookupResult m offsets name = toInt32 i ↔
        ∃ pos ∈ offsets, Live m pos ∧ entryName m pos = name ∧ entryInode m pos = i)) ↔
      ∀ pos ∈ offsets, EqualUpTo (entryName m pos) name →
        (∀ q ∈ offsets, q < pos → ¬ EqualUpTo (entryName m q) name) →
        ∃ e ∈ offsets, Live m e ∧ entryName m e = name ∧ entryInode m e = entryInode m pos := by
  constructor
  · intro exact pos member same first
    exact (exact _ (named.number pos member)).mp (lookupResult_first sorted member same first)
  · intro shorter i number
    cases found : offsets.find? (fun q => EqualUpTo (entryName m q) name) with
    | none =>
      refine iff_of_false ?_ ?_
      · rw [lookupResult, found]
        exact Ne.symm (toInt32_number number).1
      · rintro ⟨pos, member, _, same, _⟩
        have no := List.find?_eq_none.mp found pos member
        exact no (decide_eq_true (Or.inl (same ▸ List.prefix_refl _)))
    | some pos =>
      obtain ⟨member, same, first⟩ :=
        (find_least (P := fun q => EqualUpTo (entryName m q) name) sorted).mp found
      obtain ⟨e, inside, live, exact, inode⟩ := shorter pos member same first
      rw [lookupResult_first sorted member same first]
      constructor
      · intro result
        have equal := toInt32_injective (entryInode_bound m pos) (by omega) result
        exact ⟨e, inside, live, exact, inode.trans equal⟩
      · rintro ⟨e', inside', live', exact', rfl⟩
        have one := named.unique e inside e' inside' live live' (exact.trans exact'.symm)
        rw [← inode, one]

theorem walked_exact_iff (named : NamedEntries m offsets) :
    (∀ e, (∃ pos, (walked m offsets).find? (fun q => name <+: entryName m q) = some pos ∧
          entryAt m pos = e) ↔
        ∃ pos ∈ offsets, Live m pos ∧ entryName m pos = name ∧ entryAt m pos = e) ↔
      (∀ pos ∈ walked m offsets, name <+: entryName m pos →
        (∀ q ∈ walked m offsets, q < pos → ¬ name <+: entryName m q) → entryName m pos = name) ∧
      ∀ e ∈ offsets, Live m e → entryName m e = name → e ∈ walked m offsets := by
  have least := fun pos => @find_least pos (walked m offsets) (fun q => name <+: entryName m q) _
    (walked_sorted sorted)
  constructor
  · intro exact
    constructor
    · intro pos member start first
      obtain ⟨pos', _, _, name', same⟩ := (exact (entryAt m pos)).mp
        ⟨pos, (least pos).mpr ⟨member, start, first⟩, rfl⟩
      rw [← name']
      exact (congrArg Entry.name same).symm
    · intro e member live equal
      obtain ⟨pos, found, same⟩ := (exact (entryAt m e)).mpr ⟨e, member, live, equal, rfl⟩
      have reached := ((least pos).mp found).1
      obtain ⟨inside, live'⟩ := walked_live reached
      have one := named.unique pos inside e member live' live (congrArg Entry.name same)
      exact one ▸ reached
  · rintro ⟨longer, reached⟩ e
    constructor
    · rintro ⟨pos, found, rfl⟩
      obtain ⟨member, start, first⟩ := (least pos).mp found
      obtain ⟨inside, live⟩ := walked_live member
      exact ⟨pos, inside, live, longer pos member start first, rfl⟩
    · rintro ⟨pos, inside, live, equal, rfl⟩
      have onTheWay := reached pos inside live equal
      cases found : (walked m offsets).find? (fun q => name <+: entryName m q) with
      | none =>
        have no := List.find?_eq_none.mp found pos onTheWay
        exact absurd (decide_eq_true (equal ▸ List.prefix_refl _)) no
      | some q =>
        obtain ⟨member, start, first⟩ := (least q).mp found
        obtain ⟨inside', live'⟩ := walked_live member
        have one := named.unique q inside' pos inside live' live
          ((longer q member start first).trans equal.symm)
        exact ⟨q, rfl, by rw [one]⟩

end Exact

section Directory
variable {dev : Dev σ} {p : Partition} {n : Nat} {inode m : Mem} {d : σ}
  {offsets : List Nat} {behind name parentPath : List UInt8}
  (readable : ReadableDirectory dev p n inode d m)
  (chain : Chain (recLen m) 0 (i_size inode) offsets) (words : i_size inode % 4 = 0)
include readable chain words

theorem ext2InodeFromPathAndParent_eq (nonempty : name ≠ []) (string : (0 : UInt8) ∉ name) :
    ext2InodeFromPathAndParent dev p n name d = some (lookupResult m offsets name, d) := by
  have enough := chain.length_le
  rw [ext2InodeFromPathAndParent, if_neg nonempty, readable.found, onRead_some,
    if_pos readable.directory, readable.entries words, onRead_some,
    lookupFrom_chain string (i_size_bound inode) chain (by omega)]
  rfl

theorem ext2DentryGetDentry_eq (named : NamedEntries m offsets)
    (resolved : ext2PathToInode dev p behind parentPath d = some (n, d)) (number : n ≠ 0)
    (string : (0 : UInt8) ∉ name) (entry : Mem) :
    ext2DentryGetDentry dev p behind parentPath name entry d =
      match (walked m offsets).find? fun q => name <+: entryName m q with
      | some pos => some (0, memcpy entry 0 (advance m pos) 263, d)
      | none => some (1, memcpy entry 0 blank 263, d) := by
  have whole : ∀ q ∈ walked m offsets, (entryName m q).takeWhile (· ≠ 0) = entryName m q := by
    intro q member
    have live := of_decide_eq_true (List.mem_takeWhile_imp (p := fun q => Live m q) member)
    have inside := List.mem_of_mem_take ((List.takeWhile_prefix _).subset member)
    refine List.takeWhile_eq_self_iff.mpr ?_
    intro c char
    exact decide_eq_true (fun zero => named.string q inside live (zero ▸ char))
  have loop : dentryFrom m name listMax 0 =
      (walked m offsets).find? fun q => name <+: entryName m q := by
    rw [dentryFrom_chain string (i_size_bound inode) readable.past chain]
    refine List.find?_congr ?_
    intro q member
    rw [whole q member]
  rw [ext2DentryGetDentry, resolved]
  dsimp only
  rw [if_neg number, readable.found, onRead_some, if_pos readable.directory,
    readable.entries words, onRead_some, loop]

structure LookupsExact (dev : Dev σ) (p : Partition) (n : Nat)
    (behind parentPath name : List UInt8) (target m : Mem) (offsets : List Nat) (d : σ) : Prop where
  inode : ∀ i, i < 2 ^ 32 - 2 →
    ((ext2InodeFromPathAndParent dev p n name d).map Prod.fst = some (toInt32 i) ↔
      ∃ pos ∈ offsets, Live m pos ∧ entryName m pos = name ∧ entryInode m pos = i)
  dentry : ∀ e, (∃ entry d', ext2DentryGetDentry dev p behind parentPath name target d =
        some (0, entry, d') ∧ entryAt entry 0 = e) ↔
      ∃ pos ∈ offsets, Live m pos ∧ entryName m pos = name ∧ entryAt m pos = e

theorem lookups_exact_iff (named : NamedEntries m offsets)
    (resolved : ext2PathToInode dev p behind parentPath d = some (n, d)) (number : n ≠ 0)
    (nonempty : name ≠ []) (string : (0 : UInt8) ∉ name) (target : Mem) :
    LookupsExact dev p n behind parentPath name target m offsets d ↔ Unshadowed m offsets name := by
  have sorted := chain.sorted
  have byInode := @lookupResult_exact_iff m offsets name sorted named
  have byEntry := @walked_exact_iff m offsets name sorted named
  have inode := ext2InodeFromPathAndParent_eq readable chain words nonempty string
  have dentry : ∀ e, (∃ entry d', ext2DentryGetDentry dev p behind parentPath name target d =
        some (0, entry, d') ∧ entryAt entry 0 = e) ↔
      ∃ pos, (walked m offsets).find? (fun q => name <+: entryName m q) = some pos ∧
        entryAt m pos = e := by
    intro e
    rw [ext2DentryGetDentry_eq readable chain words named resolved number string]
    cases (walked m offsets).find? (fun q => name <+: entryName m q) with
    | none => simp
    | some pos => simp [entryAt_copy]
  constructor
  · rintro ⟨inodeExact, dentryExact⟩
    have shorter := byInode.mp (fun i low => by simpa [inode] using inodeExact i low)
    obtain ⟨longer, reached⟩ := byEntry.mp (fun e => (dentry e).symm.trans (dentryExact e))
    exact ⟨shorter, longer, reached⟩
  · rintro ⟨shorter, longer, reached⟩
    constructor
    · intro i low
      simpa [inode] using byInode.mpr shorter i low
    · intro e
      exact (dentry e).trans (byEntry.mpr ⟨longer, reached⟩ e)

end Directory

/- The names `a` of inode 11 and `ab` of inode 12, in this order. -/
section Prefix

def prefixRecords : Mem := putRecord (putRecord blank 0 11 12 1 [97]) 12 12 1012 1 [97, 98]

def prefixDirectory : Mem := memcpy blank 0 prefixRecords 1024

theorem prefix_chain : Chain (recLen prefixDirectory) 0 (i_size rootFile) [0, 12] := by decide

theorem prefix_named : NamedEntries prefixDirectory [0, 12] := by decide

theorem root_path (dir : Mem) :
    ext2PathToInode reliable thirteenPartition [0] [slash] (rootDisk dir) =
      some (2, rootDisk dir) :=
  rfl

/-- Both lookups find the shorter name. -/
theorem lookups_exact_short :
    LookupsExact reliable thirteenPartition 2 [0] [slash] [97] blank prefixDirectory [0, 12]
      (rootDisk prefixRecords) :=
  (lookups_exact_iff (root_readable prefixRecords) prefix_chain
    (by decide) prefix_named (root_path prefixRecords) (by decide) (by decide) (by decide)
    blank).mpr (by decide)

/-- The longer name leads to the inode of the shorter one. -/
theorem lookups_stop_at_prefix :
    ¬ ∀ (σ : Type) (dev : Dev σ) (p : Partition) (n : Nat) (inode m target : Mem) (d : σ)
      (offsets : List Nat) (behind name parentPath : List UInt8),
      ReadableDirectory dev p n inode d m →
      Chain (recLen m) 0 (i_size inode) offsets → i_size inode % 4 = 0 →
      NamedEntries m offsets → ext2PathToInode dev p behind parentPath d = some (n, d) → n ≠ 0 →
      name ≠ [] → (0 : UInt8) ∉ name →
      LookupsExact dev p n behind parentPath name target m offsets d := by
  intro all
  have exact := (all (Nat → Mem) reliable thirteenPartition 2 rootFile prefixDirectory blank
    (rootDisk prefixRecords) [0, 12] [0] [97, 98] [slash] (root_readable prefixRecords)
    prefix_chain (by decide) prefix_named (root_path prefixRecords)
    (by decide) (by decide) (by decide)).inode 11 (by decide)
  rw [ext2InodeFromPathAndParent_eq (root_readable prefixRecords)
    prefix_chain (by decide) (by decide) (by decide)] at exact
  have result : lookupResult prefixDirectory [0, 12] [97, 98] = toInt32 11 := by decide
  have found := exact.mp (congrArg some result)
  exact absurd found (by decide)

end Prefix

end OmenExt2
