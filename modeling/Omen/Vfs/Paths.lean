import Omen.Ext2.Path
import Omen.Text.Strtok
import Omen.Library.PathNames

/- Paths of the VFS (`vfs.c`): what counts as going behind the root, and how a path is joined to
   the root or to the working directory of a process. A string is the list of its characters
   before the NUL. -/
namespace OmenVfs
open OmenExt2 (slash)
open PathNames

def dot : UInt8 := 0x2E

def dots : List UInt8 := [dot, dot]

def devPrefix : List UInt8 := [0x2F, 0x64, 0x65, 0x76, 0x2F]

def kindOf (component : List UInt8) : Kind :=
  if component = [] ∨ component = [dot] then .skip
  else if component = dots then .up
  else .name

def components (path : List UInt8) : List (List UInt8) := path.splitOn slash

def isAbsolutePath (path : List UInt8) : Bool := path.head? = some slash

/-- The tokens of a copy of the path. `behind` is what stands behind the copy's NUL:
    `kmalloc` clears the bytes that are asked for and no more. -/
def pathTokens (behind path : List UInt8) : Option (List (List UInt8)) :=
  OmenText.tokens [slash] (path.length + behind.length + 2) [] (path ++ 0 :: behind)

def goesBehindRoot (behind path : List UInt8) : Option Bool :=
  if path.head? = some slash then
    (pathTokens behind path).map fun found =>
      0 < found.foldl (fun depth token => if token = dots then depth + 1 else depth - 1) (1 : Int)
  else some false

theorem components_slash (s : List UInt8) : components (slash :: s) = [] :: components s := by
  simpa [components] using List.splitOn_append_cons_self (a := slash) [] s

theorem components_append (s rest : List UInt8) :
    components (s ++ slash :: rest) = components s ++ components rest :=
  List.splitOn_append_cons_self s rest

theorem components_word {word : List UInt8} (bare : slash ∉ word) : components word = [word] :=
  List.splitOn_eq_singleton bare

/-- The path is a single slash or ends in two: the last slash closes no token, and `strtok` goes
    on behind the NUL. -/
def EndsInSlashes (path : List UInt8) : Prop := path = [slash] ∨ [slash, slash] <:+ path

instance (path : List UInt8) : Decidable (EndsInSlashes path) :=
  inferInstanceAs (Decidable (_ ∨ _))

section Tokens
variable {path : List UInt8}

theorem endsInSlashes_cons (a b : UInt8) (s : List UInt8) :
    EndsInSlashes (a :: b :: s) ↔ EndsInSlashes (b :: s) ∧ (s = [] → a = slash) := by
  unfold EndsInSlashes
  cases s with
  | nil =>
    have swap : slash = a ∧ slash = b ↔ b = slash ∧ a = slash :=
      ⟨fun same => ⟨same.2.symm, same.1.symm⟩, fun same => ⟨same.2.symm, same.1.symm⟩⟩
    simpa [List.suffix_cons_iff] using swap
  | cons c s => simp [List.suffix_cons_iff]

/-- `strtok` stays in front of the NUL exactly if the path does not end in slashes that close
    no token. -/
theorem orderly_iff (path : List UInt8) :
    OmenText.Orderly [slash] .fresh path ↔ ¬ EndsInSlashes path := by
  -- at each place of the walk: what was read before decides with which character the rest begins
  suffices all : (OmenText.Orderly [slash] .fresh path ↔ ¬ EndsInSlashes path) ∧
      (OmenText.Orderly [slash] (.passed [slash]) path ↔ ¬ EndsInSlashes (slash :: path)) ∧
      ∀ c, c ≠ slash → (OmenText.Orderly [slash] .word path ↔ ¬ EndsInSlashes (c :: path)) from
    all.1
  induction path with
  | nil => simp [OmenText.Orderly, EndsInSlashes, List.suffix_cons_iff]
  | cons x s ih =>
    obtain ⟨fresh, passed, word⟩ := ih
    by_cases here : x = slash
    · subst here
      refine ⟨by simpa [OmenText.Orderly] using passed, ?_, fun c other => ?_⟩
      · simpa [OmenText.Orderly, endsInSlashes_cons] using passed
      · rw [endsInSlashes_cons, OmenText.Orderly, if_pos (by simp), fresh]
        cases s with
        | nil => simp [other, EndsInSlashes]
        | cons y s => simp [endsInSlashes_cons]
    · have plain : x ∉ [slash] := by simpa using here
      have rest := word x here
      refine ⟨by simpa [OmenText.Orderly, here] using rest, ?_, fun c other => ?_⟩
      · simpa [OmenText.Orderly, here, endsInSlashes_cons] using rest
      · rw [endsInSlashes_cons, OmenText.Orderly, if_neg plain, rest]
        cases s with
        | nil => simp [other, here, EndsInSlashes, List.suffix_cons_iff]
        | cons y s => simp

theorem stretches_eq (path : List UInt8) :
    OmenText.stretches [slash] path = (components path).filter (· ≠ []) := by
  have split : (fun c : UInt8 => decide (c ∈ [slash])) = (· == slash) := by
    funext c
    rw [decide_eq_decide.mpr List.mem_singleton]
    rfl
  rw [OmenText.stretches, components, List.splitOn, split]
  refine List.filter_congr fun word _ => ?_
  cases word <;> rfl

theorem pathTokens_plain (string : 0 ∉ path) (plain : ¬ EndsInSlashes path) (behind : List UInt8) :
    pathTokens behind path = some ((components path).filter (· ≠ [])) := by
  have proper : (0 : UInt8) ∉ [slash] := by decide
  have calls : path.length < path.length + behind.length + 2 := by omega
  have found := (OmenText.exactBelow proper _ [] path string calls).mpr
    ((orderly_iff path).mpr plain)
  have more := OmenText.tokens_append found behind
  rwa [List.append_assoc, List.singleton_append, stretches_eq] at more

theorem pathTokens_ends (string : 0 ∉ path) (ends : EndsInSlashes path) :
    pathTokens [] path = none := by
  cases run : pathTokens [] path with
  | none => rfl
  | some found =>
    have orderly := OmenText.orderly_of_tokens (by decide) string run
    exact absurd ends ((orderly_iff path).mp orderly)

end Tokens

theorem depth_eq (ts : List (List UInt8)) (start : Int) :
    ts.foldl (fun depth token => if token = dots then depth + 1 else depth - 1) start =
      start + ts.countP (· = dots) - ts.countP (· ≠ dots) := by
  induction ts generalizing start with
  | nil => simp
  | cons token ts ih =>
    rw [List.foldl_cons, ih, List.countP_cons, List.countP_cons]
    by_cases up : token = dots
    · rw [if_pos up, if_pos (by simpa using up), if_neg (by simpa using up)]
      omega
    · rw [if_neg up, if_neg (by simpa using up), if_pos (by simpa using up)]
      omega

theorem countP_dots (cs : List (List UInt8)) :
    (cs.filter (· ≠ [])).countP (· = dots) = count kindOf .up cs := by
  rw [List.countP_filter, count]
  refine List.countP_congr (fun c _ => ?_)
  simp only [kindOf, decide_eq_true_eq, Bool.and_eq_true]
  by_cases up : c = dots
  · subst up
    decide
  · simp only [up, false_and, false_iff]
    split <;> simp

theorem countP_others (cs : List (List UInt8)) :
    (cs.filter (· ≠ [])).countP (· ≠ dots) = count kindOf .name cs + cs.count [dot] := by
  induction cs with
  | nil => rfl
  | cons c cs ih =>
    rw [List.filter_cons, count, List.countP_cons, List.count_cons]
    rw [count] at ih
    by_cases none : c = []
    · subst none
      simp only [ne_eq, not_true_eq_false, decide_false, Bool.false_eq_true, if_false, kindOf,
        true_or, if_true, reduceCtorEq]
      rw [ih]
      rfl
    · rw [if_pos (by simpa using none), List.countP_cons, ih]
      by_cases one : c = [dot]
      · subst one
        simp [kindOf, dots]
        omega
      · by_cases two : c = dots
        · subst two
          simp [kindOf, dots]
        · simp [kindOf, none, one, two]
          omega

theorem goesBehindRoot_plain {path : List UInt8} (absolute : isAbsolutePath path = true)
    (string : 0 ∉ path) (plain : ¬ EndsInSlashes path) (behind : List UInt8) :
    goesBehindRoot behind path =
      some (decide (count kindOf .name (components path) + (components path).count [dot] ≤
        count kindOf .up (components path))) := by
  have head : path.head? = some slash := of_decide_eq_true absolute
  rw [goesBehindRoot, if_pos head, pathTokens_plain string plain, Option.map_some, depth_eq,
    countP_dots, countP_others]
  refine congrArg some (decide_eq_decide.mpr ?_)
  omega

theorem goesBehindRoot_ends {path : List UInt8} (absolute : isAbsolutePath path = true)
    (string : 0 ∉ path) (ends : EndsInSlashes path) : goesBehindRoot [] path = none := by
  have head : path.head? = some slash := of_decide_eq_true absolute
  rw [goesBehindRoot, if_pos head, pathTokens_ends string ends, Option.map_none]

/-- For an absolute path the check is right, whatever stands behind the copy, exactly if the path
    does not end in slashes that close no token and the total judges it as its prefixes do: a path
    that escapes has at least as many steps up as names and `.` together, and one that does not
    leads to something below the root or has a `.`. -/
theorem behind_root_iff {path : List UInt8} (absolute : isAbsolutePath path = true)
    (string : 0 ∉ path) :
    (∀ behind, goesBehindRoot behind path = some (decide (Escapes kindOf (components path)))) ↔
      ¬ EndsInSlashes path ∧
      if Escapes kindOf (components path) then
        count kindOf .name (components path) + (components path).count [dot] ≤
          count kindOf .up (components path)
      else resolve kindOf (components path) ≠ [] ∨ [dot] ∈ components path := by
  by_cases ends : EndsInSlashes path
  · refine ⟨fun right => ?_, fun both => absurd ends both.1⟩
    have stops := right []
    rw [goesBehindRoot_ends absolute string ends] at stops
    cases stops
  · simp only [goesBehindRoot_plain absolute string ends, forall_const, Option.some_inj,
      decide_eq_decide, ends, not_false_eq_true, true_and]
    split
    · rename_i escapes
      exact ⟨fun right => right.mpr escapes, fun many => ⟨fun _ => escapes, fun _ => many⟩⟩
    · rename_i inside
      have names := resolve_length inside
      rw [← List.length_pos_iff, ← List.count_pos_iff]
      refine ⟨fun right => ?_, fun more => ⟨fun many => ?_, fun out => absurd out inside⟩⟩
      · have few := mt right.mp inside
        omega
      · omega

/-- `/a` is judged rightly. -/
theorem behind_root_name : isAbsolutePath [0x2F, 0x61] = true ∧ (0 : UInt8) ∉ [0x2F, 0x61] ∧
    ∀ behind, goesBehindRoot behind [0x2F, 0x61] =
      some (decide (Escapes kindOf (components [0x2F, 0x61]))) :=
  ⟨by decide, by decide, (behind_root_iff (by decide) (by decide)).mpr (by decide)⟩

/-- `/../a/b` escapes and is let through, `/a/..` does not and is refused. So is the root itself
    where a path `x/..` was left behind its copy. -/
theorem behind_root_wrong :
    (Escapes kindOf (components [0x2F, 0x2E, 0x2E, 0x2F, 0x61, 0x2F, 0x62]) ∧
      goesBehindRoot [0] [0x2F, 0x2E, 0x2E, 0x2F, 0x61, 0x2F, 0x62] = some false) ∧
    (¬ Escapes kindOf (components [0x2F, 0x61, 0x2F, 0x2E, 0x2E]) ∧
      goesBehindRoot [0] [0x2F, 0x61, 0x2F, 0x2E, 0x2E] = some true) ∧
    ¬ Escapes kindOf (components [0x2F]) ∧
      goesBehindRoot [0x78, 0x2F, 0x2E, 0x2E, 0] [0x2F] = some true := by
  decide

end OmenVfs
