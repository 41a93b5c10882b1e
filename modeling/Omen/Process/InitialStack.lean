import Mathlib.Data.List.Forall2
import Omen.Library.WordTable

/- The stack with which a program starts: `create_args_env_aux` builds it in a buffer of its own,
   copies it under the top of the stack and moves the pointers, and `parse_stack` reads it. A
   panic, a store behind the buffer and a stack below address 0 have no result. -/
namespace OmenProcess
open ByteMemory WordTable

structure CString where
  bytes : List UInt8
  noNul : 0 ∉ bytes

def strMaxSize : Nat := 65536

def CString.strlen (s : CString) : Nat := min s.bytes.length strMaxSize

def CString.memory (s : CString) : Mem := fun i => s.bytes.getD i 0

/-- An entry of the auxiliary vector before its end, which has the type `AT_NULL`. -/
structure AuxEntry where
  a_type : UInt64
  a_val : UInt64
  live : a_type.toNat ≠ 0

def protostackMaxSize : Nat := 0x1000

def auxWords (auxv : List AuxEntry) : List Nat :=
  auxv.flatMap fun e => [e.a_type.toNat, e.a_val.toNat]

def buildTables (m : Mem) (original : Nat) (argc envc : Nat) (auxv : List AuxEntry) : Mem × Nat :=
  let m := store m original argc
  let ptr := original + 8
  let m := storeWords m ptr (List.replicate argc 0x1234)
  let ptr := ptr + 8 * argc
  let m := store m ptr 0
  let ptr := ptr + 8
  let m := storeWords m ptr (List.replicate envc 0x5678)
  let ptr := ptr + 8 * envc
  let m := store m ptr 0
  let ptr := ptr + 8
  let m := storeWords m ptr (auxWords auxv)
  let ptr := ptr + 16 * auxv.length
  let m := storeWords m ptr [0, 0]
  (m, ptr + 16)

def totalSizeAscii (strings : List CString) : Nat := (strings.map fun s => s.strlen + 1).sum

/-- The loop that moves the strings up, with the rounds it may take. -/
def alignAscii : Nat → Nat → Nat → Option Nat
  | 0, _, _ => none
  | rounds + 1, ascii, bottom =>
    if bottom % 16 ≠ 0 then alignAscii rounds (ascii + 1) (bottom + 1) else some ascii

def copyStrings (original : Nat) : List CString → Mem → Nat → Nat → Mem × Nat
  | [], m, _, ascii => (m, ascii)
  | s :: rest, m, pointer, ascii =>
    let m := memcpy m ascii s.memory (s.strlen + 1)
    let m := store m pointer (ascii - original)
    copyStrings original rest m (pointer + 8) (ascii + (s.strlen + 1))

def relocate (base : Nat) : Nat → Mem → Nat → Mem
  | 0, m, _ => m
  | n + 1, m, p =>
    relocate base n (if load m p ≠ 0 then store m p (load m p + base) else store m p 0) (p + 8)

def createArgsEnvAux (scratch user : Mem) (buffer stack maxSize : Nat)
    (argv envp : Option (List CString)) (auxv : Option (List AuxEntry)) : Option (Nat × Mem) := do
  let argv := argv.getD []
  let envp := envp.getD []
  let auxv := auxv.getD []
  let (m, ptr) := buildTables scratch buffer argv.length envp.length auxv
  let ascii ← alignAscii 16 ptr (ptr + totalSizeAscii (argv ++ envp))
  let (m, ascii) := copyStrings buffer argv m (buffer + 8) (ascii + 8)
  let (m, ascii) := copyStrings buffer envp m (buffer + 8 + 8 * argv.length + 8) ascii
  let size := ascii - buffer
  if size > 8 * protostackMaxSize then none
  else if size > maxSize then none
  else if stack = 0 ∨ stack < size then none
  else
    let base := stack - size
    let user := memcpy user base (advance m buffer) size
    let user := relocate base argv.length user (base + 8)
    let user := relocate base envp.length user (base + 8 + (argv.length + 1) * 8)
    some (base, user)

structure ParsedStack where
  argc : Nat
  argv : List Nat
  envp : List Nat
  auxv : List (Nat × Nat)

def readPointers (m : Mem) (p : Nat) : Nat → List Nat
  | 0 => []
  | n + 1 => load m p :: readPointers m (p + 8) n

def readUntilNull (m : Mem) : Nat → Nat → Option (List Nat)
  | 0, _ => none
  | rounds + 1, p =>
    if load m p = 0 then some [] else (readUntilNull m rounds (p + 8)).map (load m p :: ·)

def readAuxv (m : Mem) : Nat → Nat → Option (List (Nat × Nat))
  | 0, _ => none
  | rounds + 1, p =>
    if load m p = 0 then some []
    else (readAuxv m rounds (p + 16)).map ((load m p, load m (p + 8)) :: ·)

def parseStack (m : Mem) (rounds stack : Nat) : Option ParsedStack := do
  let argc := load m stack
  let table := stack + 8 + 8 * (argc + 1)
  let envp ← readUntilNull m rounds table
  let auxv ← readAuxv m rounds (table + 8 * (envp.length + 1))
  some { argc, argv := readPointers m (stack + 8) argc, envp, auxv }

def imageSize (argv envp : List CString) (auxv : List AuxEntry) : Nat :=
  (8 * (argv.length + envp.length + 2 * auxv.length + 5) + totalSizeAscii (argv ++ envp) + 15) /
    16 * 16 + 8

structure Placed (m : Mem) (low high p : Nat) (s : CString) : Prop where
  reads : StringAt m p s.bytes
  inside : low ≤ p ∧ p + s.bytes.length < high

structure StartsWith (m : Mem) (sp top : Nat) (argv envp : List CString) (auxv : List AuxEntry) :
    Prop where
  aligned : sp % 16 = 0
  parsed : ∃ args envs, (∀ rounds, envp.length < rounds → auxv.length < rounds →
      parseStack m rounds sp = some ⟨argv.length, args, envs,
        auxv.map fun e => (e.a_type.toNat, e.a_val.toNat)⟩) ∧
    load m (sp + 8 + 8 * argv.length) = 0 ∧
    -- the strings stand behind the tables and below the top
    List.Forall₂ (Placed m (sp + 8 * (argv.length + envp.length + 2 * auxv.length + 5)) top)
      args argv ∧
    List.Forall₂ (Placed m (sp + 8 * (argv.length + envp.length + 2 * auxv.length + 5)) top)
      envs envp

def layout (args envs aux : List Nat) : List Nat :=
  args.length :: (args ++ 0 :: (envs ++ 0 :: (aux ++ [0, 0])))

section Image
variable {m m' : Mem} {p original pointer ascii base : Nat} {args envs aux : List Nat}
  {argv envp strings : List CString} {auxv : List AuxEntry}

theorem auxWords_length : (auxWords auxv).length = 2 * auxv.length := by
  unfold auxWords
  induction auxv with
  | nil => rfl
  | cons e rest ih =>
    rw [List.flatMap_cons, List.length_append, ih]
    simp only [List.length_cons, List.length_nil]
    omega

theorem holds_layout : Holds m p (layout args envs aux) ↔
    load m p = args.length ∧ Holds m (p + 8) args ∧ load m (p + 8 + 8 * args.length) = 0 ∧
      Holds m (p + 8 + 8 * args.length + 8) envs ∧
      load m (p + 8 + 8 * args.length + 8 + 8 * envs.length) = 0 ∧
      Holds m (p + 8 + 8 * args.length + 8 + 8 * envs.length + 8) (aux ++ [0, 0]) := by
  unfold layout
  rw [Holds, holds_append, Holds, holds_append, Holds]

theorem layout_length : (layout args envs aux).length =
    args.length + envs.length + aux.length + 5 := by
  unfold layout
  simp only [List.length_cons, List.length_append, List.length_nil]
  omega

theorem buildTables_eq (argc envc : Nat) :
    buildTables m original argc envc auxv =
      (storeWords m original (layout (List.replicate argc 0x1234) (List.replicate envc 0x5678)
        (auxWords auxv)), original + 8 * (argc + envc + 2 * auxv.length + 5)) := by
  unfold buildTables layout
  rw [storeWords, storeWords_append, storeWords, storeWords_append, storeWords, storeWords_append,
    auxWords_length, List.length_replicate, List.length_replicate]
  refine Prod.ext ?_ ?_
  · dsimp only
    rw [← Nat.mul_assoc]
  · dsimp only
    omega

theorem holds_layout_args (here : Holds m p (layout args envs aux)) {args' : List Nat}
    (count : args'.length = args.length) (table : Holds m' (p + 8) args')
    (same : ∀ i, p ≤ i → i < p + 8 * (layout args envs aux).length →
      i < p + 8 ∨ p + 8 + 8 * args.length ≤ i → m' i = m i) :
    Holds m' p (layout args' envs aux) := by
  unfold layout
  rw [count]
  exact Holds.splice (A := [args.length]) here count table same

theorem holds_layout_envs (here : Holds m p (layout args envs aux)) {envs' : List Nat}
    (count : envs'.length = envs.length)
    (table : Holds m' (p + 8 + 8 * args.length + 8) envs')
    (same : ∀ i, p ≤ i → i < p + 8 * (layout args envs aux).length →
      i < p + 8 + 8 * args.length + 8 ∨ p + 8 + 8 * args.length + 8 + 8 * envs.length ≤ i →
      m' i = m i) :
    Holds m' p (layout args envs' aux) := by
  have parts : ∀ xs, layout args xs aux =
      (args.length :: (args ++ [0])) ++ (xs ++ 0 :: (aux ++ [0, 0])) := by simp [layout]
  have place : p + 8 + 8 * args.length + 8 = p + 8 * (args.length :: (args ++ [0])).length := by
    rw [List.length_cons, List.length_append, List.length_singleton]
    omega
  rw [parts] at here same ⊢
  rw [place] at table same
  exact here.splice count table same

def starts : Nat → List CString → List Nat
  | _, [] => []
  | ascii, s :: rest => ascii :: starts (ascii + (s.strlen + 1)) rest

theorem starts_length : (starts ascii strings).length = strings.length := by
  induction strings generalizing ascii with
  | nil => rfl
  | cons s rest ih => rw [starts, List.length_cons, ih, List.length_cons]

theorem starts_map (f : Nat → Nat) (shift : ∀ a, f (ascii + a) = f ascii + a) :
    (starts ascii strings).map f = starts (f ascii) strings := by
  induction strings generalizing ascii with
  | nil => rfl
  | cons s rest ih =>
    rw [starts, List.map_cons, starts, ih, shift]
    intro a
    rw [Nat.add_assoc, shift, shift, ← Nat.add_assoc]

theorem totalSizeAscii_cons (s : CString) (rest : List CString) :
    totalSizeAscii (s :: rest) = s.strlen + 1 + totalSizeAscii rest := by
  unfold totalSizeAscii
  rw [List.map_cons, List.sum_cons]

theorem totalSizeAscii_append (argv envp : List CString) :
    totalSizeAscii (argv ++ envp) = totalSizeAscii argv + totalSizeAscii envp := by
  unfold totalSizeAscii
  rw [List.map_append, List.sum_append]

structure CopiedStrings (m m' : Mem) (original pointer ascii : Nat) (strings : List CString) :
    Prop where
  table : Holds m' pointer ((starts ascii strings).map (· - original))
  placed : List.Forall₂ (Placed m' ascii (ascii + totalSizeAscii strings))
    (starts ascii strings) strings
  others : ∀ i, i < pointer ∨ pointer + 8 * strings.length ≤ i →
    i < ascii ∨ ascii + totalSizeAscii strings ≤ i → m' i = m i

theorem copyStrings_end (strings : List CString) (m : Mem) (original pointer ascii : Nat) :
    (copyStrings original strings m pointer ascii).2 = ascii + totalSizeAscii strings := by
  induction strings generalizing m pointer ascii with
  | nil => rfl
  | cons s rest ih =>
    rw [copyStrings, ih, totalSizeAscii_cons]
    omega

theorem copyStrings_others {i : Nat} (table : i < pointer ∨ pointer + 8 * strings.length ≤ i)
    (apart : i < ascii ∨ ascii + totalSizeAscii strings ≤ i) :
    (copyStrings original strings m pointer ascii).1 i = m i := by
  induction strings generalizing m pointer ascii with
  | nil => rfl
  | cons s rest ih =>
    rw [totalSizeAscii_cons] at apart
    rw [List.length_cons] at table
    rw [copyStrings, ih (by omega) (by omega), store_outside (by omega), memcpy_outside (by omega)]

theorem copyStrings_spec (short : ∀ s ∈ strings, s.bytes.length < strMaxSize)
    (below : pointer + 8 * strings.length ≤ ascii)
    (word : ascii + totalSizeAscii strings < original + 2 ^ 64) :
    CopiedStrings m (copyStrings original strings m pointer ascii).1 original pointer ascii
      strings := by
  induction strings generalizing m pointer ascii with
  | nil => exact ⟨trivial, List.Forall₂.nil, fun _ _ _ => rfl⟩
  | cons s rest ih =>
    have whole : s.strlen = s.bytes.length :=
      Nat.min_eq_left (Nat.le_of_lt (short s List.mem_cons_self))
    rw [totalSizeAscii_cons] at word
    rw [List.length_cons] at below
    have copied := @ih (store (memcpy m ascii s.memory (s.strlen + 1)) pointer
      (ascii - original)) (pointer + 8) (ascii + (s.strlen + 1))
      (fun t member => short t (List.mem_cons_of_mem s member)) (by omega) (by omega)
    refine ⟨?_, ?_, fun i => copyStrings_others⟩ <;> rw [copyStrings]
    · refine ⟨?_, copied.table⟩
      rw [load_shift (a := pointer) (b := pointer) fun i low =>
          copied.others _ (Or.inl (by omega)) (Or.inl (by omega)), load_store (by omega)]
    · refine List.Forall₂.cons ⟨fun i low => ?_, Nat.le_refl _, ?_⟩ ?_
      · rw [copied.others (ascii + i) (Or.inr (by omega)) (Or.inl (by omega)),
          store_outside (by omega),
          memcpy_inside (by omega) (by omega), Nat.add_sub_cancel_left]
        rfl
      · rw [totalSizeAscii_cons]
        omega
      · rw [totalSizeAscii_cons]
        refine copied.placed.imp fun p t placed => ⟨placed.reads, ?_⟩
        have := placed.inside
        omega

theorem relocate_spec (moves : ∀ w ∈ args, w ≠ 0 ∧ w + base < 2 ^ 64) (here : Holds m p args) :
    Holds (relocate base args.length m p) p (args.map (· + base)) ∧
      ∀ i, i < p ∨ p + 8 * args.length ≤ i → relocate base args.length m p i = m i := by
  induction args generalizing m p with
  | nil => exact ⟨trivial, fun _ _ => rfl⟩
  | cons w rest ih =>
    obtain ⟨first, later⟩ := here
    obtain ⟨live, fits⟩ := moves w List.mem_cons_self
    rw [List.length_cons, relocate, first, if_pos live]
    have kept : Holds (store m p (w + base)) (p + 8) rest :=
      later.congr fun i low high => store_outside (by omega)
    obtain ⟨table, others⟩ := ih (fun v member => moves v (List.mem_cons_of_mem w member)) kept
    refine ⟨⟨?_, table⟩, fun i out => ?_⟩
    · rw [load_shift (a := p) (b := p) fun i low => others _ (Or.inl (by omega)),
        load_store fits]
    · rw [others i (by omega), store_outside (by omega)]

theorem alignAscii_eq {rounds bottom : Nat} (enough : (bottom + 15) / 16 * 16 - bottom < rounds) :
    alignAscii rounds ascii bottom = some (ascii + ((bottom + 15) / 16 * 16 - bottom)) := by
  induction rounds generalizing ascii bottom with
  | zero => omega
  | succ rounds ih =>
    rw [alignAscii]
    split
    · rw [ih (by omega)]
      congr 1
      omega
    · congr 1
      omega

theorem starts_bounds (member : p ∈ starts ascii strings) :
    ascii ≤ p ∧ p < ascii + totalSizeAscii strings := by
  induction strings generalizing ascii with
  | nil => cases member
  | cons s rest ih =>
    rw [totalSizeAscii_cons]
    rcases List.mem_cons.mp member with rfl | later
    · omega
    · have := ih later
      omega

theorem readPointers_eq (here : Holds m p args) : readPointers m p args.length = args := by
  induction args generalizing p with
  | nil => rfl
  | cons w rest ih => rw [List.length_cons, readPointers, here.1, ih here.2]

theorem readUntilNull_eq {rounds : Nat} (here : Holds m p envs) (live : ∀ w ∈ envs, w ≠ 0)
    (stop : load m (p + 8 * envs.length) = 0) (enough : envs.length < rounds) :
    readUntilNull m rounds p = some envs := by
  induction envs generalizing p rounds with
  | nil =>
    cases rounds with
    | zero => cases enough
    | succ rounds => exact if_pos stop
  | cons w rest ih =>
    cases rounds with
    | zero => cases enough
    | succ rounds =>
      rw [List.length_cons] at stop enough
      rw [readUntilNull, here.1, if_neg (live w List.mem_cons_self),
        ih here.2 (fun v member => live v (List.mem_cons_of_mem w member))
          ((congrArg (load m) (by omega)).trans stop) (Nat.lt_of_succ_lt_succ enough)]
      rfl

theorem readAuxv_eq {rounds : Nat} (here : Holds m p (auxWords auxv ++ [0, 0]))
    (enough : auxv.length < rounds) :
    readAuxv m rounds p = some (auxv.map fun e => (e.a_type.toNat, e.a_val.toNat)) := by
  induction auxv generalizing p rounds with
  | nil =>
    cases rounds with
    | zero => cases enough
    | succ rounds => rw [readAuxv, if_pos here.1, List.map_nil]
  | cons e rest ih =>
    cases rounds with
    | zero => cases enough
    | succ rounds =>
      obtain ⟨type, value, later⟩ := here
      rw [readAuxv, type, value, if_neg e.live, ih later (Nat.lt_of_succ_lt_succ enough)]
      rfl

theorem parseStack_eq {rounds : Nat} (here : Holds m p (layout args envs (auxWords auxv)))
    (live : ∀ w ∈ envs, w ≠ 0) (first : envs.length < rounds) (second : auxv.length < rounds) :
    parseStack m rounds p = some ⟨args.length, args, envs,
      auxv.map fun e => (e.a_type.toNat, e.a_val.toNat)⟩ := by
  obtain ⟨count, pointers, -, environment, stop, vector⟩ := holds_layout.mp here
  have env := readUntilNull_eq environment live stop first
  have aux := readAuxv_eq vector second
  unfold parseStack
  rw [count]
  dsimp only
  rw [show p + 8 + 8 * (args.length + 1) = p + 8 + 8 * args.length + 8 by omega, env]
  dsimp only [Option.bind_eq_bind, Option.bind_some]
  rw [show p + 8 + 8 * args.length + 8 + 8 * (envs.length + 1) =
    p + 8 + 8 * args.length + 8 + 8 * envs.length + 8 by omega, aux, readPointers_eq pointers]
  rfl

structure Built (m : Mem) (buffer first : Nat) (argv envp : List CString) (auxv : List AuxEntry) :
    Prop where
  tables : Holds m buffer (layout (starts (first - buffer) argv)
    (starts (first - buffer + totalSizeAscii argv) envp) (auxWords auxv))
  args : List.Forall₂ (Placed m first (first + totalSizeAscii argv)) (starts first argv) argv
  envs : List.Forall₂ (Placed m (first + totalSizeAscii argv)
      (first + totalSizeAscii argv + totalSizeAscii envp))
    (starts (first + totalSizeAscii argv) envp) envp

theorem starts_sub {strings : List CString} (behind : original ≤ ascii) :
    (starts ascii strings).map (· - original) = starts (ascii - original) strings :=
  starts_map (· - original) fun a => by omega

theorem copyStrings_built (first : Nat) (short : ∀ s ∈ argv ++ envp, s.bytes.length < strMaxSize)
    (start : Holds m original (layout args envs (auxWords auxv)))
    (counts : args.length = argv.length ∧ envs.length = envp.length)
    (behind : original + 8 * (argv.length + envp.length + 2 * auxv.length + 5) ≤ first)
    (word : first + totalSizeAscii argv + totalSizeAscii envp < original + 2 ^ 64) :
    let one := copyStrings original argv m (original + 8) first
    let two := copyStrings original envp one.1 (original + 8 + 8 * argv.length + 8) one.2
    two.2 = first + totalSizeAscii argv + totalSizeAscii envp ∧
      Built two.1 original first argv envp auxv := by
  obtain ⟨argCount, envCount⟩ := counts
  have size := @layout_length args envs (auxWords auxv)
  rw [auxWords_length, argCount, envCount] at size
  have copied := @copyStrings_spec m original (original + 8) first argv
    (fun s member => short s (List.mem_append_left _ member)) (by omega) (by omega)
  dsimp only
  rw [copyStrings_end argv]
  have copied' := @copyStrings_spec
    (copyStrings original argv m (original + 8) first).1 original
    (original + 8 + 8 * argv.length + 8) (first + totalSizeAscii argv) envp
    (fun s member => short s (List.mem_append_right _ member)) (by omega) (by omega)
  have apart : original ≤ first := by omega
  have later : original ≤ first + totalSizeAscii argv := by omega
  refine ⟨copyStrings_end .., ?_, ?_, copied'.placed⟩
  · have table := copied.table
    have table' := copied'.table
    rw [starts_sub apart] at table
    rw [starts_sub later, Nat.sub_add_comm apart] at table'
    -- first the distances of the arguments, then those of the environment
    have one := holds_layout_args start (starts_length.trans argCount.symm) table
      (fun i low high out => copied.others i (by omega) (by omega))
    refine holds_layout_envs one (starts_length.trans envCount.symm) ?_ ?_
    · rw [starts_length]
      exact table'
    · rw [layout_length, starts_length, envCount, auxWords_length]
      exact fun i low high out => copied'.others i (by omega) (by omega)
  · refine copied.placed.imp fun p s placed => ⟨placed.reads.shift fun i low => ?_, placed.inside⟩
    have := placed.inside
    exact copied'.others _ (by omega) (by omega)

theorem placed_moved {first low high gap top : Nat}
    (placed : List.Forall₂ (Placed m first high) (starts first strings) strings)
    (moved : ∀ i, first ≤ i → i < high → m' (i + base - gap) = m i)
    (inside : gap ≤ first ∧ low + gap ≤ first + base ∧ high + base ≤ top + gap) :
    List.Forall₂ (Placed m' low top) (starts (first + base - gap) strings) strings := by
  rw [← starts_map (· + base - gap) fun a => by omega]
  rw [List.forall₂_map_left_iff]
  refine placed.imp fun p s here => ⟨here.reads.shift fun i less => ?_, ?_⟩
  · have := here.inside
    rw [← moved (p + i) (by omega) (by omega)]
    congr 1
    omega
  · have := here.inside
    omega

theorem relocate_built {first buffer top : Nat} {user : Mem}
    (built : Built m buffer first argv envp auxv)
    (behind : buffer + 8 * (argv.length + envp.length + 2 * auxv.length + 5) ≤ first)
    (whole : base + (first + totalSizeAscii argv + totalSizeAscii envp - buffer) = top)
    (word : top < 2 ^ 64) :
    let one := memcpy user base (advance m buffer)
      (first + totalSizeAscii argv + totalSizeAscii envp - buffer)
    let two := relocate base argv.length one (base + 8)
    let three := relocate base envp.length two (base + 8 + (argv.length + 1) * 8)
    Holds three base (layout (starts (first + base - buffer) argv)
        (starts (first + totalSizeAscii argv + base - buffer) envp) (auxWords auxv)) ∧
      List.Forall₂ (Placed three
          (base + 8 * (argv.length + envp.length + 2 * auxv.length + 5)) top)
        (starts (first + base - buffer) argv) argv ∧
      List.Forall₂ (Placed three
          (base + 8 * (argv.length + envp.length + 2 * auxv.length + 5)) top)
        (starts (first + totalSizeAscii argv + base - buffer) envp) envp := by
  intro one two three
  have size := fun x => @layout_length (starts x argv)
    (starts (first - buffer + totalSizeAscii argv) envp) (auxWords auxv)
  simp only [starts_length, auxWords_length] at size
  have copied : ∀ i, i < first + totalSizeAscii argv + totalSizeAscii envp - buffer →
      one (base + i) = m (buffer + i) := by
    intro i low
    refine (memcpy_inside (Nat.le_add_right ..) (Nat.add_lt_add_left low base)).trans ?_
    rw [Nat.add_sub_cancel_left]
    rfl
  have start : Holds one base (layout (starts (first - buffer) argv)
      (starts (first - buffer + totalSizeAscii argv) envp) (auxWords auxv)) := by
    refine built.tables.shift fun i low => copied i ?_
    rw [size] at low
    omega
  have moves : ∀ {a : Nat} {strings : List CString}, 0 < a →
      a + totalSizeAscii strings ≤ first + totalSizeAscii argv + totalSizeAscii envp - buffer →
      ∀ w ∈ starts a strings, w ≠ 0 ∧ w + base < 2 ^ 64 := by
    intro a strings positive inside w member
    have := starts_bounds member
    omega
  obtain ⟨args, kept⟩ := relocate_spec (moves (by omega) (by omega))
    (holds_layout.mp start).2.1
  rw [starts_length] at args kept
  have second : Holds two base (layout ((starts (first - buffer) argv).map (· + base))
      (starts (first - buffer + totalSizeAscii argv) envp) (auxWords auxv)) := by
    refine holds_layout_args start (List.length_map _) args fun i low high out => kept i ?_
    rw [starts_length] at out
    exact out
  obtain ⟨envs, kept'⟩ := relocate_spec (moves (by omega) (by omega))
    (holds_layout.mp second).2.2.2.1
  rw [List.length_map, starts_length, starts_length] at envs kept'
  have place : base + 8 + 8 * argv.length + 8 = base + 8 + (argv.length + 1) * 8 := by omega
  rw [place] at envs kept'
  have third : Holds three base (layout ((starts (first - buffer) argv).map (· + base))
      ((starts (first - buffer + totalSizeAscii argv) envp).map (· + base)) (auxWords auxv)) := by
    refine holds_layout_envs second (List.length_map _) ?_ fun i low high out => kept' i ?_
    · rw [List.length_map, starts_length, place]
      exact envs
    · rw [List.length_map, starts_length, starts_length] at out
      omega
  -- the strings stand behind the tables, where the two passes change nothing
  have moved : ∀ i, first ≤ i → i < first + totalSizeAscii argv + totalSizeAscii envp →
      three (i + base - buffer) = m i := by
    intro i low high
    refine (kept' _ (by omega)).trans ((kept _ (by omega)).trans ?_)
    have := copied (i - buffer) (by omega)
    rw [show base + (i - buffer) = i + base - buffer by omega,
      show buffer + (i - buffer) = i by omega] at this
    exact this
  refine ⟨?_, ?_, ?_⟩
  · rw [starts_map (· + base) fun a => by omega, starts_map (· + base) fun a => by omega,
      show first - buffer + base = first + base - buffer by omega,
      show first - buffer + totalSizeAscii argv + base =
        first + totalSizeAscii argv + base - buffer by omega] at third
    exact third
  · exact placed_moved built.args (fun i low high => moved i low (by omega)) (by omega)
  · exact placed_moved built.envs (fun i low high => moved i (by omega) high) (by omega)

end Image

theorem layout_words {argc : Nat} (envc : Nat) (auxv : List AuxEntry) (small : argc < 2 ^ 64) :
    ∀ w ∈ layout (List.replicate argc 0x1234) (List.replicate envc 0x5678) (auxWords auxv),
      w < 2 ^ 64 := by
  intro w member
  unfold layout auxWords at member
  simp only [List.length_replicate, List.mem_cons, List.mem_append, List.mem_replicate,
    List.mem_flatMap, List.not_mem_nil, or_false] at member
  rcases member with rfl | ⟨-, rfl⟩ | rfl | ⟨-, rfl⟩ | rfl | ⟨e, -, rfl | rfl⟩ | rfl | rfl
  · exact small
  · decide
  · decide
  · decide
  · decide
  · exact e.a_type.toNat_lt
  · exact e.a_val.toNat_lt
  · decide
  · decide

theorem imageSize_mod (argv envp : List CString) (auxv : List AuxEntry) :
    imageSize argv envp auxv % 16 = 8 := by
  unfold imageSize
  omega

theorem alignAscii_image {buffer : Nat} (aligned : buffer % 16 = 0) (argv envp : List CString)
    (auxv : List AuxEntry) :
    ∃ ascii, alignAscii 16 (buffer + 8 * (argv.length + envp.length + 2 * auxv.length + 5))
        (buffer + 8 * (argv.length + envp.length + 2 * auxv.length + 5) +
          totalSizeAscii (argv ++ envp)) = some ascii ∧
      buffer + 8 * (argv.length + envp.length + 2 * auxv.length + 5) ≤ ascii ∧
      ascii + 8 + totalSizeAscii argv + totalSizeAscii envp =
        buffer + imageSize argv envp auxv := by
  refine ⟨_, alignAscii_eq (by omega), Nat.le_add_right .., ?_⟩
  unfold imageSize
  rw [totalSizeAscii_append]
  omega

/-- A stack that was built for a program is what the program expects. -/
theorem create_args_env_aux_starts (scratch user : Mem) {buffer stack maxSize : Nat}
    (argv envp : Option (List CString)) (auxv : Option (List AuxEntry))
    (aligned : buffer % 16 = 0) (top : stack % 16 = 8) (word : stack < 2 ^ 64)
    (short : ∀ s ∈ argv.getD [] ++ envp.getD [], s.bytes.length < strMaxSize)
    (inBuffer : imageSize (argv.getD []) (envp.getD []) (auxv.getD []) ≤ 8 * protostackMaxSize)
    (inStack : imageSize (argv.getD []) (envp.getD []) (auxv.getD []) ≤ maxSize)
    (room : imageSize (argv.getD []) (envp.getD []) (auxv.getD []) ≤ stack) :
    ∃ sp after, createArgsEnvAux scratch user buffer stack maxSize argv envp auxv =
        some (sp, after) ∧
      StartsWith after sp stack (argv.getD []) (envp.getD []) (auxv.getD []) := by
  unfold createArgsEnvAux
  generalize argv.getD [] = argv at short inBuffer inStack room ⊢
  generalize envp.getD [] = envp at short inBuffer inStack room ⊢
  generalize auxv.getD [] = auxv at inBuffer inStack room ⊢
  obtain ⟨ascii, align, behind, whole⟩ := alignAscii_image aligned argv envp auxv
  have rest := imageSize_mod argv envp auxv
  generalize imageSize argv envp auxv = size at inBuffer inStack room whole rest
  have limit : 8 * protostackMaxSize = 0x8000 := rfl
  have small : argv.length < 2 ^ 64 := by omega
  have start := storeWords_holds (m := scratch) (a := buffer) (layout_words envp.length auxv small)
  obtain ⟨stop, built⟩ := copyStrings_built (ascii + 8) short start
    ⟨List.length_replicate, List.length_replicate⟩ (by omega) (by omega)
  rw [whole] at stop
  dsimp only
  rw [buildTables_eq]
  dsimp only
  rw [align]
  dsimp only [Option.bind_eq_bind, Option.bind_some]
  rcases one : copyStrings buffer argv (storeWords scratch buffer
    (layout (List.replicate argv.length 0x1234) (List.replicate envp.length 0x5678)
      (auxWords auxv))) (buffer + 8) (ascii + 8) with ⟨m1, ascii1⟩
  rw [one] at stop built
  dsimp only at stop built ⊢
  rcases two : copyStrings buffer envp m1 (buffer + 8 + 8 * argv.length + 8) ascii1 with
    ⟨m2, ascii2⟩
  rw [two] at stop built
  dsimp only at stop built ⊢
  rw [stop, Nat.add_sub_cancel_left, if_neg (by omega), if_neg (by omega), if_neg (by omega)]
  obtain ⟨held, args, envs⟩ := @relocate_built m2 (stack - size) argv envp auxv (ascii + 8)
    buffer stack user built (by omega) (by omega) word
  rw [whole, Nat.add_sub_cancel_left] at held args envs
  refine ⟨_, _, rfl, by omega, _, _, fun rounds enough enough' => ?_, ?_, args, envs⟩
  · have parsed := parseStack_eq held (fun w member => ?_) (starts_length.trans_lt enough) enough'
    · rw [starts_length] at parsed
      exact parsed
    · have := starts_bounds member
      omega
  · have zero := (holds_layout.mp held).2.2.1
    rw [starts_length] at zero
    exact zero

/-- One argument, one variable without a value, and the size of a page. -/
theorem create_args_env_aux_small :
    ∃ sp after, createArgsEnvAux blank blank 0x1000 0x400000000ff8 0x8000
        (some [⟨[0x61, 0x62], by decide⟩]) (some [⟨[], by decide⟩])
        (some [⟨6, 0x1000, by decide⟩]) = some (sp, after) ∧
      StartsWith after sp 0x400000000ff8 [⟨[0x61, 0x62], by decide⟩] [⟨[], by decide⟩]
        [⟨6, 0x1000, by decide⟩] :=
  create_args_env_aux_starts blank blank (some [⟨[0x61, 0x62], by decide⟩])
    (some [⟨[], by decide⟩]) (some [⟨6, 0x1000, by decide⟩]) (by decide) (by decide) (by decide)
    (by decide) (by decide) (by decide) (by decide)

end OmenProcess
