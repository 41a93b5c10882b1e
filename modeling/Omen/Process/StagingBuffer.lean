import Omen.Process.InitialStack

/- The buffer in which `create_args_env_aux` builds the image of a stack before it copies it. The
   function compares the size of the image with the size of the stack only, and only when the
   image has been built. -/
namespace OmenProcess
open ByteMemory WordTable

def stage (scratch : Mem) (buffer : Nat) (argv envp : List CString) (auxv : List AuxEntry) :
    Option (Mem × Nat) := do
  let (m, ptr) := buildTables scratch buffer argv.length envp.length auxv
  let ascii ← alignAscii 16 ptr (ptr + totalSizeAscii (argv ++ envp))
  let (m, ascii) := copyStrings buffer argv m (buffer + 8) (ascii + 8)
  some (copyStrings buffer envp m (buffer + 8 + 8 * argv.length + 8) ascii)

/-- The call gets behind its checks: the image is no larger than `max_size`, and there is a
    stack. -/
def Returns (buffer stack maxSize : Nat) (argv envp : List CString) (auxv : List AuxEntry) : Prop :=
  stack ≠ 0 ∧ ∀ scratch m top, stage scratch buffer argv envp auxv = some (m, top) →
    top - buffer ≤ maxSize

/-- The image ends in the buffer, and whatever the memory was, all bytes outside the buffer are
    as they were. -/
structure StagedInside (buffer : Nat) (argv envp : List CString) (auxv : List AuxEntry) : Prop where
  fits : ∀ scratch, ∃ m top, stage scratch buffer argv envp auxv = some (m, top) ∧
    top ≤ buffer + 8 * protostackMaxSize
  outside : ∀ scratch m top, stage scratch buffer argv envp auxv = some (m, top) →
    ∀ a, a < buffer ∨ buffer + 8 * protostackMaxSize ≤ a → m a = scratch a

def stagedSize (buffer : Nat) (argv envp : List CString) (auxv : List AuxEntry) : Nat :=
  (buffer + 8 * (argv.length + envp.length + 2 * auxv.length + 5) +
      totalSizeAscii (argv ++ envp) + 15)
    / 16 * 16 + 8 - buffer

section Staging
variable {scratch m : Mem} {buffer : Nat} {argv envp : List CString} {auxv : List AuxEntry}

theorem createArgsEnvAux_eq (scratch user : Mem) (buffer stack maxSize : Nat)
    (argv envp : Option (List CString)) (auxv : Option (List AuxEntry)) :
    createArgsEnvAux scratch user buffer stack maxSize argv envp auxv =
      (stage scratch buffer (argv.getD []) (envp.getD []) (auxv.getD [])).bind fun (m, ascii) =>
        let size := ascii - buffer
        if size > 8 * protostackMaxSize then none
        else if size > maxSize then none
        else if stack = 0 ∨ stack < size then none
        else
          let base := stack - size
          let user := memcpy user base (advance m buffer) size
          let user := relocate base (argv.getD []).length user (base + 8)
          let user := relocate base (envp.getD []).length user
            (base + 8 + ((argv.getD []).length + 1) * 8)
          some (base, user) := by
  unfold createArgsEnvAux stage
  dsimp only
  cases alignAscii 16 _ _ with
  | none => rfl
  | some ascii => rfl

theorem stage_spec (scratch : Mem) (buffer : Nat) (argv envp : List CString)
    (auxv : List AuxEntry) :
    ∃ m, stage scratch buffer argv envp auxv =
        some (m, buffer + stagedSize buffer argv envp auxv) ∧
      ∀ a, a < buffer ∨ buffer + stagedSize buffer argv envp auxv ≤ a → m a = scratch a := by
  have total := totalSizeAscii_append argv envp
  have size : stagedSize buffer argv envp auxv =
      (buffer + 8 * (argv.length + envp.length + 2 * auxv.length + 5) +
        totalSizeAscii (argv ++ envp)
        + 15) / 16 * 16 + 8 - buffer := rfl
  -- the strings begin behind the tables, the padding and one word
  obtain ⟨first, starts_at, ends_at, behind⟩ : ∃ first,
      alignAscii 16 (buffer + 8 * (argv.length + envp.length + 2 * auxv.length + 5))
          (buffer + 8 * (argv.length + envp.length + 2 * auxv.length + 5) +
            totalSizeAscii (argv ++ envp)) = some first ∧
        first + 8 + totalSizeAscii argv + totalSizeAscii envp =
          buffer + stagedSize buffer argv envp auxv ∧
        buffer + 8 * (argv.length + envp.length + 2 * auxv.length + 5) ≤ first :=
    ⟨_, alignAscii_eq (by omega), by omega, by omega⟩
  have staged : stage scratch buffer argv envp auxv =
      some (copyStrings buffer envp (copyStrings buffer argv (storeWords scratch buffer
        (layout (List.replicate argv.length 0x1234) (List.replicate envp.length 0x5678)
          (auxWords auxv))) (buffer + 8) (first + 8)).1 (buffer + 8 + 8 * argv.length + 8)
        (first + 8 + totalSizeAscii argv)) := by
    unfold stage
    rw [buildTables_eq]
    dsimp only
    rw [starts_at]
    simp only [Option.bind_eq_bind, Option.bind_some, copyStrings_end]
  refine ⟨_, staged.trans (congrArg some (Prod.ext rfl ?_)), fun a out => ?_⟩
  · exact (copyStrings_end ..).trans ends_at
  · refine (copyStrings_others ?_ ?_).trans
      ((copyStrings_others ?_ ?_).trans (storeWords_outside ?_))
    case refine_5 =>
      rw [layout_length, List.length_replicate, List.length_replicate, auxWords_length]
      omega
    all_goals omega

theorem returns_iff {stack maxSize : Nat} : Returns buffer stack maxSize argv envp auxv ↔
    stack ≠ 0 ∧ stagedSize buffer argv envp auxv ≤ maxSize := by
  refine and_congr_right fun _ => ⟨fun small => ?_, fun small scratch m top run => ?_⟩
  · obtain ⟨m, staged, -⟩ := stage_spec blank buffer argv envp auxv
    have := small _ _ _ staged
    omega
  · obtain ⟨m', staged, -⟩ := stage_spec scratch buffer argv envp auxv
    obtain ⟨rfl, rfl⟩ := Prod.mk.inj (Option.some.inj (run.symm.trans staged))
    omega

theorem stagedInside_iff : StagedInside buffer argv envp auxv ↔
    stagedSize buffer argv envp auxv ≤ 8 * protostackMaxSize := by
  constructor
  · intro inside
    obtain ⟨m, top, run, fits⟩ := inside.fits blank
    obtain ⟨m', staged, -⟩ := stage_spec blank buffer argv envp auxv
    obtain ⟨rfl, rfl⟩ := Prod.mk.inj (Option.some.inj (run.symm.trans staged))
    omega
  · intro fits
    refine ⟨fun scratch => ?_, fun scratch m top run a out => ?_⟩
    · obtain ⟨m, staged, -⟩ := stage_spec scratch buffer argv envp auxv
      exact ⟨m, _, staged, by omega⟩
    · obtain ⟨m', staged, kept⟩ := stage_spec scratch buffer argv envp auxv
      obtain ⟨rfl, rfl⟩ := Prod.mk.inj (Option.some.inj (run.symm.trans staged))
      exact kept a (by omega)

/-- A call that returns has stayed in its buffer just when the image is not larger than it. -/
theorem staging_inside_iff (buffer stack maxSize : Nat) (argv envp : List CString)
    (auxv : List AuxEntry) :
    (Returns buffer stack maxSize argv envp auxv → StagedInside buffer argv envp auxv) ↔
      (stack ≠ 0 → stagedSize buffer argv envp auxv ≤ maxSize →
        stagedSize buffer argv envp auxv ≤ 8 * protostackMaxSize) := by
  rw [returns_iff, stagedInside_iff, and_imp]

theorem stage_one (scratch : Mem) {s : CString} {first : Nat}
    (starts_at : alignAscii 16 (buffer + 48) (buffer + 48 + totalSizeAscii [s]) = some first) :
    ∃ tables, stage scratch buffer [s] [] [] =
      some (store (memcpy tables (first + 8) s.memory (s.strlen + 1)) (buffer + 8)
        (first + 8 - buffer),
        first + 8 + (s.strlen + 1)) := by
  refine ⟨(buildTables scratch buffer 1 0 []).1, ?_⟩
  have table : (buildTables scratch buffer 1 0 []).2 = buffer + 48 := by
    rw [buildTables_eq]
    rfl
  simp only [stage, List.length_singleton, List.length_nil, List.append_nil, table, starts_at,
    Option.bind_eq_bind, Option.bind_some, copyStrings]

def longArgument : CString where
  bytes := List.replicate 40000 0x61
  noNul := by
    rw [List.mem_replicate]
    decide

theorem longArgument_strlen : longArgument.strlen = 40000 := by
  rw [CString.strlen, longArgument, List.length_replicate]
  decide

theorem longArgument_size : totalSizeAscii [longArgument] = 40001 := by
  rw [totalSizeAscii, List.map_singleton, List.sum_singleton, longArgument_strlen]

/-- A user stack of 16 pages has 0xFFE8 bytes below its top. The argument fits in it, and its
    letters are stored behind the buffer. -/
theorem staging_overruns :
    Returns 0x7000 0x20000 0xFFE8 [longArgument] [] [] ∧
      ∃ m top, stage blank 0x7000 [longArgument] [] [] = some (m, top) ∧
        0x7000 + 8 * protostackMaxSize < top ∧ m (0x7000 + 8 * protostackMaxSize) = 0x61 := by
  constructor
  · rw [returns_iff, stagedSize, List.append_nil, longArgument_size]
    decide
  · have starts_at : alignAscii 16 (0x7000 + 48) (0x7000 + 48 + totalSizeAscii [longArgument]) =
        some (0x7000 + 63) := by
      rw [longArgument_size]
      decide
    obtain ⟨tables, staged⟩ := stage_one blank starts_at
    rw [longArgument_strlen] at staged
    refine ⟨_, _, staged, by decide, ?_⟩
    rw [store_outside (by decide), memcpy_inside (by decide) (by decide), CString.memory,
      longArgument, List.getD_replicate _ (by decide)]

end Staging

end OmenProcess
