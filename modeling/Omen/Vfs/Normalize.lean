import Omen.Vfs.Mounts
import Mathlib.Data.List.DropRight
import Mathlib.Data.FinEnum

/- Joining a path to the root or the working directory of a process (`apply_cwd`) and
   `vfs_normalize_path`. The output of the in-place scan is kept reversed, so that its end is
   the head of a list. -/
namespace OmenVfs
open OmenExt2 (slash strlen)
open PathNames

def Location.fullPath (location : Location) : List UInt8 :=
  location.mnt.name ++ (if location.path.head? ≠ some slash then [slash] else []) ++ location.path

def getRootPathFromStruct (fs : VfsStruct) : List UInt8 := fs.root.fullPath

def getCwdPathFromStruct (fs : VfsStruct) : List UInt8 := fs.pwd.fullPath

def applyCwd (behind : List UInt8) (cwd : VfsStruct) (path : List UInt8) : Option (List UInt8) :=
  if devPrefix <+: path then some path
  else if goesBehindRoot behind path ≠ some false then none
  else if isAbsolutePath path then some (getRootPathFromStruct cwd ++ path)
  else
    let fullPath := getCwdPathFromStruct cwd
    some (fullPath ++ (if fullPath[strlen fullPath - 1]? ≠ some slash then [slash] else []) ++ path)

def pop (out : List UInt8) : List UInt8 := out.dropWhile (· ≠ slash)

def scan : List UInt8 → List UInt8 → List UInt8
  | [], out => out
  | [c], out => c :: out
  | c :: d :: rest, out =>
    if c = slash ∧ d = slash then scan (d :: rest) out
    else if c = dot ∧ d = slash then scan rest out
    else match rest with
      | e :: rest =>
        if c = dot ∧ d = dot ∧ e = slash then scan rest (pop out)
        else scan (d :: e :: rest) (c :: out)
      | [] => scan [d] (c :: out)

def normalized (path : List UInt8) : List UInt8 :=
  ((scan path []).dropWhile fun c => c = slash ∨ c = dot).reverse

def vfsNormalizePath (behind : List UInt8) (cwd : VfsStruct) (rpath : List UInt8) :
    Option (List UInt8) :=
  (applyCwd behind cwd rpath).map normalized

/-- How many dots a component ends in, as the scan can see: none, one, or two and more. -/
inductive Ending
  | plain
  | one
  | two
  deriving DecidableEq, Repr

def ending : List UInt8 → Ending
  | [] => .plain
  | c :: rest =>
    if c = dot ∧ rest = [] then .one
    else if c = dot ∧ rest = [dot] then .two
    else ending rest

section Scan
variable {w rest out : List UInt8}

theorem slash_ne_dot : slash ≠ dot := by decide

theorem scan_next (c d : UInt8) (rest out : List UInt8) :
    scan (c :: d :: rest) out =
      if c = slash ∧ d = slash then scan (d :: rest) out
      else if c = dot ∧ d = slash then scan rest out
      else match rest with
        | e :: rest =>
          if c = dot ∧ d = dot ∧ e = slash then scan rest (pop out)
          else scan (d :: e :: rest) (c :: out)
        | [] => scan [d] (c :: out) := by
  cases rest <;> rfl

theorem scan_slashes (rest out : List UInt8) :
    scan (slash :: slash :: rest) out = scan (slash :: rest) out := by
  rw [scan_next, if_pos ⟨rfl, rfl⟩]

theorem scan_slash (other : rest.head? ≠ some slash) :
    scan (slash :: rest) out = scan rest (slash :: out) := by
  cases rest with
  | nil => rfl
  | cons d rest =>
    have apart : d ≠ slash := fun same => other (by rw [same]; rfl)
    rw [scan_next, if_neg (fun both => apart both.2), if_neg (fun both => slash_ne_dot both.1)]
    cases rest with
    | nil => rfl
    | cons e rest => exact if_neg fun all => slash_ne_dot all.1

theorem scan_dot (rest out : List UInt8) : scan (dot :: slash :: rest) out = scan rest out := by
  rw [scan_next, if_neg (fun both => slash_ne_dot both.1.symm), if_pos ⟨rfl, rfl⟩]

theorem scan_dots (rest out : List UInt8) :
    scan (dot :: dot :: slash :: rest) out = scan rest (pop out) := by
  rw [scan_next, if_neg (fun both => slash_ne_dot both.1.symm),
    if_neg (fun both => slash_ne_dot both.2.symm)]
  exact if_pos ⟨rfl, rfl, rfl⟩

theorem scan_copy {c : UInt8} (plain : c ≠ slash) (single : ¬ (c = dot ∧ rest.head? = some slash))
    (double : ¬ (c = dot ∧ [dot, slash] <+: rest)) :
    scan (c :: rest) out = scan rest (c :: out) := by
  cases rest with
  | nil => rfl
  | cons d rest =>
    rw [scan_next, if_neg (fun both => plain both.1),
      if_neg (fun both => single ⟨both.1, by rw [both.2]; rfl⟩)]
    cases rest with
    | nil => rfl
    | cons e rest =>
      refine if_neg fun all => double ⟨all.1, ?_⟩
      rw [all.2.1, all.2.2]
      exact ⟨rest, rfl⟩

theorem scan_last (bare : slash ∉ w) (out : List UInt8) : scan w out = w.reverse ++ out := by
  induction w generalizing out with
  | nil => rfl
  | cons c w ih =>
    obtain ⟨apart, bare⟩ := List.ne_and_not_mem_of_not_mem_cons bare
    rw [scan_copy (Ne.symm apart), ih bare, List.reverse_cons, List.append_assoc,
      List.singleton_append]
    · rintro ⟨-, next⟩
      exact bare (List.mem_of_head? next)
    · rintro ⟨-, next⟩
      exact bare (next.subset (by simp))

theorem pop_word (bare : slash ∉ w) (out : List UInt8) : pop (w.reverse ++ out) = pop out := by
  refine List.dropWhile_append_of_pos fun c member => ?_
  simpa using fun same : c = slash => bare (same ▸ List.mem_reverse.mp member)

theorem scan_word (bare : slash ∉ w) (rest out : List UInt8) :
    scan (w ++ slash :: rest) out =
      match ending w with
      | .two => scan rest (pop out)
      | .one => scan rest (w.dropLast.reverse ++ out)
      | .plain => scan (slash :: rest) (w.reverse ++ out) := by
  induction w generalizing out with
  | nil => rfl
  | cons c w ih =>
    obtain ⟨apart, bare⟩ := List.ne_and_not_mem_of_not_mem_cons bare
    rw [ending]
    by_cases single : c = dot ∧ w = []
    · obtain ⟨rfl, rfl⟩ := single
      exact scan_dot rest out
    by_cases double : c = dot ∧ w = [dot]
    · obtain ⟨rfl, rfl⟩ := double
      exact scan_dots rest out
    rw [if_neg single, if_neg double, List.cons_append, scan_copy (Ne.symm apart), ih bare]
    · have popped : pop (c :: out) = pop out := pop_word (w := [c]) (by simpa using apart) out
      cases seen : ending w with
      | plain => simp
      | one =>
        have some_word : w ≠ [] := by rintro rfl; cases seen
        simp [List.dropLast_cons_of_ne_nil some_word]
      | two => simp [popped]
    · rintro ⟨dotted, next⟩
      cases w with
      | nil => exact single ⟨dotted, rfl⟩
      | cons d w => exact bare (by rw [← Option.some.inj next]; exact List.mem_cons_self)
    · rintro ⟨dotted, next⟩
      match w with
      | [] => simp [slash_ne_dot.symm] at next
      | [d] =>
        have same : dot = d := by simpa using next
        exact double ⟨dotted, by rw [same]⟩
      | d :: e :: w =>
        have same : dot = d ∧ slash = e := by simpa using next
        exact bare (by simp [same.2])

theorem ending_plain_iff (w : List UInt8) : ending w = .plain ↔ w.getLast? ≠ some dot := by
  induction w with
  | nil => simp [ending]
  | cons c w ih =>
    rw [ending]
    by_cases single : c = dot ∧ w = []
    · simp [single]
    by_cases double : c = dot ∧ w = [dot]
    · simp [double]
    rw [if_neg single, if_neg double, ih]
    cases w with
    | nil => simpa using fun dotted => single ⟨dotted, rfl⟩
    | cons d w => rw [List.getLast?_cons_cons]

theorem ending_one {w : List UInt8} (is : ending w = .one) :
    w = w.dropLast ++ [dot] ∧ w.dropLast.getLast? ≠ some dot := by
  induction w with
  | nil => cases is
  | cons c w ih =>
    rw [ending] at is
    by_cases single : c = dot ∧ w = []
    · simp [single]
    by_cases double : c = dot ∧ w = [dot]
    · simp [double] at is
    rw [if_neg single, if_neg double] at is
    obtain ⟨whole, plain⟩ := ih is
    have some_word : w ≠ [] := by rintro rfl; cases is
    rw [List.dropLast_cons_of_ne_nil some_word, List.cons_append, ← whole]
    refine ⟨rfl, ?_⟩
    cases front : w.dropLast with
    | nil =>
      rw [front, List.nil_append] at whole
      simpa using fun dotted => double ⟨dotted, whole⟩
    | cons d v =>
      rw [List.getLast?_cons_cons, ← front]
      exact plain

end Scan

def names (path : List UInt8) : List (List UInt8) := (components path).filter (· ≠ [])

def present (w : List UInt8) : List (List UInt8) := if w = [] then [] else [w]

def trimmed (w : List UInt8) : List UInt8 := w.rdropWhile (· = dot)

/-- The scan by components: `done` are the finished ones, `open_` is what stands behind the
    last slash of the output. A component that ends in one dot loses the dot and the slash,
    one that ends in two is lost with all that was open. -/
def compress : List (List UInt8) → List (List UInt8) → List UInt8 → List (List UInt8)
  | [], done, open_ => done ++ present open_
  | [w], done, open_ => done ++ present (trimmed (open_ ++ w))
  | w :: v :: ws, done, open_ =>
    match ending w with
    | .two => compress (v :: ws) done []
    | .one => compress (v :: ws) done (open_ ++ w.dropLast)
    | .plain => compress (v :: ws) (done ++ present (open_ ++ w)) []

structure Spells (out : List UInt8) (done : List (List UInt8)) (open_ : List UInt8) : Prop where
  bare : slash ∉ open_
  plain : open_.getLast? ≠ some dot
  finished : ∀ w ∈ done, w.getLast? ≠ some dot
  spelled : out = open_.reverse ∧ done = [] ∨
    ∃ front, out = open_.reverse ++ slash :: front ∧ names front.reverse = done

section Components
variable {out open_ w a b : List UInt8} {done ws : List (List UInt8)}

theorem names_append (a b : List UInt8) : names (a ++ slash :: b) = names a ++ names b := by
  rw [names, components_append, List.filter_append]
  rfl

theorem names_word (bare : slash ∉ w) : names w = present w := by
  rw [names, components_word bare, present]
  by_cases none : w = [] <;> simp [none]

theorem Spells.grow (spells : Spells out done open_) (bare : slash ∉ w)
    (plain : w.getLast? ≠ some dot) : Spells (w.reverse ++ out) done (open_ ++ w) where
  bare := by simp [spells.bare, bare]
  plain := by
    rw [List.getLast?_append]
    cases last : w.getLast? with
    | none => exact spells.plain
    | some c => rwa [last] at plain
  finished := spells.finished
  spelled := by
    rw [List.reverse_append]
    rcases spells.spelled with ⟨rfl, none⟩ | ⟨front, rfl, before⟩
    · exact Or.inl ⟨rfl, none⟩
    · exact Or.inr ⟨front, (List.append_assoc _ _ _).symm, before⟩

theorem Spells.drop (spells : Spells out done open_) : Spells (pop out) done [] where
  bare := by simp
  plain := by simp
  finished := spells.finished
  spelled := by
    rcases spells.spelled with ⟨rfl, none⟩ | ⟨front, rfl, before⟩
    · have popped := pop_word spells.bare []
      rw [List.append_nil] at popped
      exact Or.inl ⟨popped, none⟩
    · refine Or.inr ⟨front, ?_, before⟩
      rw [pop_word spells.bare]
      simp [pop]

theorem Spells.close (spells : Spells out done open_) :
    Spells (slash :: out) (done ++ present open_) [] where
  bare := by simp
  plain := by simp
  finished := by
    intro w member
    rcases List.mem_append.mp member with before | here
    · exact spells.finished w before
    · rw [present] at here
      split at here
      · simp at here
      · rw [List.mem_singleton.mp here]
        exact spells.plain
  spelled := by
    refine Or.inr ⟨out, rfl, ?_⟩
    rcases spells.spelled with ⟨rfl, none⟩ | ⟨front, rfl, before⟩
    · rw [List.reverse_reverse, names_word spells.bare, none, List.nil_append]
    · rw [List.reverse_append, List.reverse_reverse, List.reverse_cons, List.append_assoc,
        List.singleton_append, names_append, before, names_word spells.bare]

theorem exists_last_word (s : List UInt8) :
    slash ∉ s ∨ ∃ front w, s = front ++ slash :: w ∧ slash ∉ w := by
  by_cases some_slash : slash ∈ s.reverse
  · obtain ⟨w, front, joined, bare⟩ := List.eq_append_cons_of_mem some_slash
    refine Or.inr ⟨front.reverse, w.reverse, ?_, by simpa using bare⟩
    rw [← List.reverse_reverse s, joined]
    simp
  · exact Or.inl (by simpa using some_slash)

theorem names_strip (plain : ∀ w ∈ names a.reverse, w.getLast? ≠ some dot) :
    names (a.dropWhile fun c => c = slash ∨ c = dot).reverse = names a.reverse := by
  induction a with
  | nil => rfl
  | cons c a ih =>
    by_cases slashed : c = slash
    · have same : names (slash :: a).reverse = names a.reverse := by
        rw [List.reverse_cons, names_append]
        exact List.append_nil _
      rw [slashed, same] at plain
      rw [slashed, same, ← ih plain, List.dropWhile_cons_of_pos (by simp)]
    by_cases dotted : c = dot
    · have ends : ∃ w, w ++ [dot] ∈ names (dot :: a).reverse := by
        rw [List.reverse_cons]
        rcases exists_last_word a.reverse with bare | ⟨front, w, joined, bare⟩
        · refine ⟨a.reverse, ?_⟩
          rw [names_word (by simpa [slash_ne_dot] using bare)]
          simp [present]
        · refine ⟨w, ?_⟩
          rw [joined, List.append_assoc, List.cons_append, names_append,
            names_word (w := w ++ [dot]) (by simpa [slash_ne_dot] using bare)]
          simp [present]
      obtain ⟨w, member⟩ := ends
      rw [dotted] at plain
      exact absurd (by simp) (plain _ member)
    · rw [List.dropWhile_cons_of_neg (by simp [slashed, dotted])]

theorem dropWhile_dots (bare : slash ∉ w) :
    (w.dropWhile fun c => c = slash ∨ c = dot) = w.dropWhile (· = dot) := by
  induction w with
  | nil => rfl
  | cons c w ih =>
    obtain ⟨apart, bare⟩ := List.ne_and_not_mem_of_not_mem_cons bare
    rw [List.dropWhile_cons, List.dropWhile_cons, ih bare]
    simp [Ne.symm apart]

theorem Spells.ends (spells : Spells out done open_) (bare : slash ∉ w) :
    names ((w.reverse ++ out).dropWhile fun c => c = slash ∨ c = dot).reverse =
      done ++ present (trimmed (open_ ++ w)) := by
  have all_bare : slash ∉ (open_ ++ w).reverse := by simp [spells.bare, bare]
  have rest_bare : slash ∉ trimmed (open_ ++ w) := fun member =>
    all_bare (List.mem_reverse.mpr ((List.rdropWhile_prefix _ _).subset member))
  have trim : ∀ back, (((open_ ++ w).reverse ++ back).dropWhile fun c => c = slash ∨ c = dot) =
      if trimmed (open_ ++ w) = [] then back.dropWhile fun c => c = slash ∨ c = dot
      else (trimmed (open_ ++ w)).reverse ++ back := fun back => by
    rw [List.dropWhile_append, dropWhile_dots all_bare]
    simp only [trimmed, List.rdropWhile, List.reverse_reverse, List.isEmpty_iff,
      List.reverse_eq_nil_iff]
  rcases spells.spelled with ⟨rfl, none⟩ | ⟨front, rfl, before⟩
  · have whole := trim []
    rw [List.append_nil, List.append_nil] at whole
    rw [← List.reverse_append, whole, none, List.nil_append]
    split
    · rename_i nothing
      rw [nothing]
      rfl
    · rw [List.reverse_reverse, names_word rest_bare]
  · rw [← List.append_assoc, ← List.reverse_append, trim]
    split
    · rename_i nothing
      rw [nothing, List.dropWhile_cons_of_pos (by simp), names_strip, before]
      · exact (List.append_nil _).symm
      · rw [before]
        exact spells.finished
    · rw [List.reverse_append, List.reverse_reverse, List.reverse_cons, List.append_assoc,
        List.singleton_append, names_append, before, names_word rest_bare]

theorem compress_cons (more : ws ≠ []) : compress (w :: ws) done open_ =
    match ending w with
    | .two => compress ws done []
    | .one => compress ws done (open_ ++ w.dropLast)
    | .plain => compress ws (done ++ present (open_ ++ w)) [] := by
  cases ws with
  | nil => exact absurd rfl more
  | cons v ws => rfl

theorem components_ne_nil (path : List UInt8) : components path ≠ [] := List.splitOn_ne_nil _ _

theorem components_first (bare : slash ∉ w) (rest : List UInt8) :
    components (w ++ slash :: rest) = w :: components rest := by
  rw [components_append, components_word bare, List.singleton_append]

/-- The scan does to the string what `compress` does to the components. -/
theorem scan_spells (size : Nat) (path : List UInt8) (short : path.length < size)
    (spells : Spells out done open_) :
    names ((scan path out).dropWhile fun c => c = slash ∨ c = dot).reverse =
      compress (components path) done open_ := by
  induction size generalizing path out done open_ with
  | zero => omega
  | succ size ih =>
    by_cases some_slash : slash ∈ path
    · obtain ⟨w, rest, rfl, bare⟩ := List.eq_append_cons_of_mem some_slash
      have fewer : rest.length < size := by
        rw [List.length_append, List.length_cons] at short
        omega
      rw [scan_word bare, components_first bare, compress_cons (components_ne_nil rest)]
      cases is : ending w with
      | two => exact ih rest fewer spells.drop
      | one =>
        obtain ⟨whole, plain⟩ := ending_one is
        have front_bare : slash ∉ w.dropLast := fun member =>
          bare ((List.dropLast_sublist w).subset member)
        exact ih rest fewer (spells.grow front_bare plain)
      | plain =>
        have grown := spells.grow bare ((ending_plain_iff w).mp is)
        by_cases again : rest.head? = some slash
        · -- the first of two slashes is skipped, the second closes the component
          obtain ⟨behind, rfl⟩ : ∃ behind, rest = slash :: behind := by
            cases rest with
            | nil => simp at again
            | cons c behind => exact ⟨behind, by rw [Option.some.inj again]⟩
          simp only
          rw [scan_slashes, ih _ fewer grown, components_slash,
            compress_cons (components_ne_nil behind), compress_cons (components_ne_nil behind)]
          simp [ending, present]
        · simp only
          rw [scan_slash again]
          exact ih rest fewer grown.close
    · rw [scan_last some_slash, components_word some_slash]
      exact spells.ends some_slash

theorem names_normalized (path : List UInt8) :
    names (normalized path) = compress (components path) [] [] :=
  scan_spells _ path (Nat.lt_succ_self _)
    { bare := by simp
      plain := by simp
      finished := by simp
      spelled := Or.inl ⟨rfl, rfl⟩ }

end Components

/-- The components that the scan can keep: not empty, and no dot at the end. -/
def named (ws : List (List UInt8)) : List (List UInt8) :=
  ws.filter fun w => w ≠ [] ∧ w.getLast? ≠ some dot

/-- Nothing is left open in front of a component that the scan keeps. `pending` says that a
    component which lost its dot still stands there. -/
def cleared : Bool → List (List UInt8) → Bool
  | pending, [] => !pending
  | pending, [w] => !pending ∧ (w.getLast? = some dot → ∀ c ∈ w, c = dot)
  | pending, w :: v :: ws =>
    match ending w with
    | .two => cleared false (v :: ws)
    | .one => cleared (pending || w ≠ [dot]) (v :: ws)
    | .plain => !pending && cleared false (v :: ws)

section Kept
variable {open_ w : List UInt8} {done ws : List (List UInt8)}

theorem trimmed_plain (w : List UInt8) : (trimmed w).getLast? ≠ some dot := by
  intro last
  have some_word : trimmed w ≠ [] := by
    intro none
    simp [none] at last
  rw [List.getLast?_eq_some_getLast some_word] at last
  exact List.rdropWhile_last_not _ _ some_word (decide_eq_true (Option.some.inj last))

theorem trimmed_of_plain (plain : w.getLast? ≠ some dot) : trimmed w = w := by
  refine List.rdropWhile_eq_self_iff.mpr fun some_word dotted => plain ?_
  rw [List.getLast?_eq_some_getLast some_word, of_decide_eq_true dotted]

theorem trimmed_eq_nil_iff (w : List UInt8) : trimmed w = [] ↔ ∀ c ∈ w, c = dot := by
  simp [trimmed, List.rdropWhile_eq_nil_iff]

theorem getLast?_append_plain (front : open_.getLast? ≠ some dot)
    (back : w.getLast? ≠ some dot) : (open_ ++ w).getLast? ≠ some dot := by
  rw [List.getLast?_append]
  cases last : w.getLast? with
  | none => exact front
  | some c => rwa [last] at back

theorem named_cons (w : List UInt8) (ws : List (List UInt8)) :
    named (w :: ws) = (if ending w = .plain then present w else []) ++ named ws := by
  rw [named, List.filter_cons, present]
  by_cases none : w = []
  · simp [none, named]
  by_cases plain : w.getLast? ≠ some dot
  · rw [if_pos (by simp [none, plain]), if_pos ((ending_plain_iff w).mpr plain), if_neg none]
    rfl
  · rw [if_neg (by simp [plain]), if_neg (fun is => plain ((ending_plain_iff w).mp is))]
    rfl

theorem compress_append (front : List (List UInt8)) :
    compress ws (front ++ done) open_ = front ++ compress ws done open_ := by
  induction ws generalizing done open_ with
  | nil => exact List.append_assoc _ _ _
  | cons w ws ih =>
    cases ws with
    | nil => exact List.append_assoc _ _ _
    | cons v ws =>
      rw [compress_cons (List.cons_ne_nil v ws), compress_cons (List.cons_ne_nil v ws)]
      cases ending w with
      | plain =>
        simp only
        rw [List.append_assoc, ih]
      | one => exact ih
      | two => exact ih

theorem compress_done (ws : List (List UInt8)) (done : List (List UInt8)) (open_ : List UInt8) :
    compress ws done open_ = done ++ compress ws [] open_ := by
  have apart : compress ws (done ++ []) open_ = done ++ compress ws [] open_ :=
    compress_append done
  rwa [List.append_nil] at apart

theorem compress_plain (plain : open_.getLast? ≠ some dot) :
    ∀ c ∈ compress ws [] open_, c ≠ [] ∧ c.getLast? ≠ some dot := by
  have kept : ∀ {w : List UInt8}, w.getLast? ≠ some dot →
      ∀ c ∈ present w, c ≠ [] ∧ c.getLast? ≠ some dot := fun plain c member => by
    rw [present] at member
    split at member
    · simp at member
    · rw [List.mem_singleton.mp member]
      exact ⟨by assumption, plain⟩
  induction ws generalizing open_ with
  | nil => exact kept plain
  | cons w ws ih =>
    cases ws with
    | nil => exact kept (trimmed_plain _)
    | cons v ws =>
      rw [compress_cons (List.cons_ne_nil v ws)]
      cases is : ending w with
      | plain =>
        simp only
        rw [compress_done]
        intro c member
        rcases List.mem_append.mp member with here | later
        · exact kept (getLast?_append_plain plain ((ending_plain_iff w).mp is)) c here
        · exact ih (by simp) c later
      | one => exact ih (getLast?_append_plain plain (ending_one is).2)
      | two => exact ih (by simp)

theorem nil_plain : ([] : List UInt8).getLast? ≠ some dot := by simp

theorem present_length (front w : List UInt8) :
    (present w).length ≤ (present (front ++ w)).length := by
  rw [present, present]
  by_cases none : w = [] <;> simp [none]

theorem present_weight (w : List UInt8) : (present w).flatten.length = w.length := by
  rw [present]
  by_cases none : w = [] <;> simp [none]

theorem named_le_compress (plain : open_.getLast? ≠ some dot) :
    (named ws).length ≤ (compress ws [] open_).length ∧
      (named ws).flatten.length ≤ (compress ws [] open_).flatten.length := by
  induction ws generalizing open_ with
  | nil => exact ⟨Nat.zero_le _, Nat.zero_le _⟩
  | cons w ws ih =>
    rw [named_cons]
    cases ws with
    | nil =>
      by_cases is : ending w = .plain
      · have whole := trimmed_of_plain (getLast?_append_plain plain ((ending_plain_iff w).mp is))
        rw [if_pos is, compress, whole, show named [] = [] from rfl, List.append_nil,
          List.nil_append, present_weight, present_weight, List.length_append]
        exact ⟨present_length open_ w, by omega⟩
      · rw [if_neg is]
        exact ⟨Nat.zero_le _, Nat.zero_le _⟩
    | cons v ws =>
      rw [compress_cons (List.cons_ne_nil v ws)]
      cases is : ending w with
      | plain =>
        have rest := ih nil_plain
        have here := present_length open_ w
        simp only [if_true, List.nil_append]
        rw [compress_done]
        simp only [List.flatten_append, List.length_append, present_weight]
        omega
      | one => simpa using ih (getLast?_append_plain plain (ending_one is).2)
      | two => simpa using ih nil_plain

theorem compress_last_iff (plain : open_.getLast? ≠ some dot) :
    compress [w] [] open_ = named [w] ↔ cleared (open_ ≠ []) [w] := by
  rw [named_cons, show named [] = [] from rfl, List.append_nil, compress, List.nil_append]
  by_cases nothing : open_ = []
  · rw [nothing, List.nil_append]
    by_cases is : ending w = .plain
    · have last := (ending_plain_iff w).mp is
      rw [if_pos is, trimmed_of_plain last]
      simp [cleared, last]
    · have last : w.getLast? = some dot := by
        by_contra other
        exact is ((ending_plain_iff w).mpr other)
      have gone : present (trimmed w) = [] ↔ trimmed w = [] := by
        rw [present]
        split <;> simp [*]
      rw [if_neg is, gone, trimmed_eq_nil_iff]
      simp [cleared, last]
  · have some_rest : trimmed (open_ ++ w) ≠ [] := fun none => by
      have all := (trimmed_eq_nil_iff _).mp none
      rw [List.getLast?_eq_some_getLast nothing] at plain
      exact plain (congrArg some (all _ (List.mem_append_left _ (List.getLast_mem nothing))))
    have other : present (trimmed (open_ ++ w)) ≠ if ending w = .plain then present w else [] := by
      intro same
      have size := congrArg (fun xs => xs.flatten.length) same
      have count := List.length_pos_iff.mpr some_rest
      have front := List.length_pos_iff.mpr nothing
      by_cases is : ending w = .plain
      · have whole := trimmed_of_plain (getLast?_append_plain plain ((ending_plain_iff w).mp is))
        simp only [if_pos is, whole, present_weight, List.length_append] at size
        omega
      · simp only [if_neg is, present_weight, List.flatten_nil, List.length_nil] at size
        omega
    simp [cleared, nothing, other]

theorem compress_eq_iff (plain : open_.getLast? ≠ some dot) :
    compress ws [] open_ = named ws ↔ cleared (open_ ≠ []) ws := by
  induction ws generalizing open_ with
  | nil => simp [compress, named, cleared, present]
  | cons w ws ih =>
    cases ws with
    | nil => exact compress_last_iff plain
    | cons v ws =>
      rw [compress_cons (List.cons_ne_nil v ws), named_cons, cleared]
      cases is : ending w with
      | plain =>
        simp only [if_true, List.nil_append]
        rw [compress_done]
        by_cases nothing : open_ = []
        · have rest := ih nil_plain
          rw [nothing, List.nil_append, List.append_cancel_left_eq, rest]
          simp
        · have rest : (named (v :: ws)).length ≤ _ ∧ _ := named_le_compress nil_plain
          have front := List.length_pos_iff.mpr nothing
          refine ⟨fun same => ?_, fun no => by simp [nothing] at no⟩
          have size := congrArg (fun xs => xs.flatten.length) same
          simp only [List.flatten_append, List.length_append, present_weight] at size
          omega
      | one =>
        obtain ⟨whole, front_plain⟩ := ending_one is
        have single : w.dropLast = [] ↔ w = [dot] := by
          constructor
          · intro none
            rw [whole, none, List.nil_append]
          · intro one
            rw [one]
            rfl
        have rest := ih (getLast?_append_plain plain front_plain)
        simp only [reduceCtorEq, if_false, List.nil_append]
        rw [rest]
        simp [single]
      | two => simpa using ih nil_plain

theorem cleared_of_plain (plain : ∀ w ∈ ws, w.getLast? ≠ some dot) : cleared false ws := by
  induction ws with
  | nil => rfl
  | cons w ws ih =>
    have here := plain w List.mem_cons_self
    cases ws with
    | nil => simp [cleared, here]
    | cons v ws =>
      rw [cleared, (ending_plain_iff w).mpr here]
      exact ih fun c later => plain c (List.mem_cons_of_mem _ later)

theorem kindOf_plain (some_word : w ≠ []) (plain : w.getLast? ≠ some dot) :
    kindOf w = .name := by
  have single : w ≠ [dot] := by rintro rfl; simp at plain
  have double : w ≠ dots := by rintro rfl; simp [dots] at plain
  rw [kindOf, if_neg (by simp [some_word, single]), if_neg double]

theorem normalized_stable (path : List UInt8) :
    resolve kindOf (names (normalized path)) = names (normalized path) ∧
      names (normalized (normalized path)) = names (normalized path) := by
  have plain : ∀ c ∈ names (normalized path), c ≠ [] ∧ c.getLast? ≠ some dot := by
    rw [names_normalized]
    exact compress_plain nil_plain
  constructor
  · have name : ∀ c ∈ names (normalized path), kindOf c = .name := fun c member =>
      kindOf_plain (plain c member).1 (plain c member).2
    rw [resolve_of_names fun c member => by simp [name c member]]
    exact List.filter_eq_self.mpr fun c member => by simp [name c member]
  · rw [names_normalized, (compress_eq_iff nil_plain).mpr]
    · rw [named, names]
      refine List.filter_congr fun c member => ?_
      by_cases none : c = []
      · simp [none]
      · have last := (plain c (List.mem_filter.mpr ⟨member, by simpa using none⟩)).2
        simp [none, last]
    · refine cleared_of_plain fun c member => ?_
      by_cases none : c = []
      · simp [none]
      · exact (plain c (List.mem_filter.mpr ⟨member, by simpa using none⟩)).2

/-- Where the scan resolves a path: all that the meaning keeps is without dots at the end, and
    nothing is cancelled or left open on the way. -/
theorem names_normalized_iff (path : List UInt8) :
    names (normalized path) = resolve kindOf (components path) ↔
      resolve kindOf (components path) = named (components path) ∧
        cleared false (components path) := by
  have exact_ : compress (components path) [] [] = named (components path) ↔
      cleared false (components path) := compress_eq_iff nil_plain
  rw [names_normalized, ← exact_]
  constructor
  · intro same
    have plain : ∀ c ∈ resolve kindOf (components path), c ≠ [] ∧ c.getLast? ≠ some dot := by
      rw [← same]
      exact compress_plain nil_plain
    have part : (resolve kindOf (components path)).Sublist (named (components path)) := by
      have below : (resolve kindOf (components path)).Sublist (components path) :=
        (resolve_sublist _).trans List.filter_sublist
      have within := below.filter fun w => decide (w ≠ [] ∧ w.getLast? ≠ some dot)
      rwa [List.filter_eq_self.mpr fun c member => decide_eq_true (plain c member)] at within
    have count : (named (components path)).length ≤ _ := (named_le_compress nil_plain).1
    rw [same] at count
    have whole := part.eq_of_length_le count
    exact ⟨whole, same.trans whole⟩
  · rintro ⟨whole, same⟩
    rw [same, whole]

end Kept

theorem normalize_path_iff {cwd : VfsStruct} {behind rpath joined : List UInt8}
    (accepted : applyCwd behind cwd rpath = some joined) :
    (∃ result, vfsNormalizePath behind cwd rpath = some result ∧
      names result = resolve kindOf (components joined) ∧
      resolve kindOf (names result) = names result ∧
      names (normalized result) = names result) ↔
    resolve kindOf (components joined) = named (components joined) ∧
      cleared false (components joined) := by
  rw [vfsNormalizePath, accepted, ← names_normalized_iff]
  constructor
  · rintro ⟨result, run, same, -⟩
    rwa [← Option.some.inj run] at same
  · intro same
    exact ⟨_, rfl, same, normalized_stable joined⟩

def atRoot : VfsStruct :=
  { root := { mnt := hdap1, path := [slash] }, pwd := { mnt := hdap1, path := [slash] } }

/-- `a//./b` at the root of the first partition. -/
theorem normalize_path_plain :
    ∃ result, vfsNormalizePath [] atRoot [97, slash, slash, dot, slash, 98] = some result ∧
      names result =
        resolve kindOf (components (hdap1.name ++ [slash, 97, slash, slash, dot, slash, 98])) ∧
      resolve kindOf (names result) = names result ∧
      names (normalized result) = names result :=
  (normalize_path_iff (by decide)).mpr (by decide)

/-- `/home/../etc` keeps its `home`: a finished component is never cancelled. -/
theorem normalize_path_wrong :
    vfsNormalizePath [0] atRoot ([slash, 104, 111, 109, 101, slash] ++ dots ++
        [slash, 101, 116, 99]) =
      some (hdap1.name ++ [slash, 104, 111, 109, 101, slash, 101, 116, 99]) ∧
    applyCwd [0] atRoot ([slash, 104, 111, 109, 101, slash] ++ dots ++ [slash, 101, 116, 99]) =
      some (hdap1.name ++ [slash, slash, 104, 111, 109, 101, slash] ++ dots ++
        [slash, 101, 116, 99]) ∧
    resolve kindOf (components (hdap1.name ++ [slash, slash, 104, 111, 109, 101, slash] ++ dots ++
        [slash, 101, 116, 99])) = [hdap1.name, [101, 116, 99]] := by
  decide

end OmenVfs
