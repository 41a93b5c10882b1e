import Mathlib.Data.List.Infix
import Mathlib.Data.List.TakeWhile

/- `strtok` of `strings.c`. The string and its terminating zero are cut at `lastToken`: what
   stands before it and what from it on. A read behind the zero has no result. -/
namespace OmenText

structure Stop where
  token : Option Nat
  before : List UInt8
  rest : List UInt8

/-- The two loops of `strtok`. In the inner one `d` is what is left of the delimiters; it stays
    where it is when a delimiter at the start of a token is passed. -/
def loop (delim : List UInt8) : Option (List UInt8) → Nat → List UInt8 → List UInt8 → Option Stop
  | _, _, _, [] => none
  | d, tokenStart, before, c :: rest =>
    if d = none ∧ c = 0 then
      some ⟨if tokenStart = before.length then none else some tokenStart, before, c :: rest⟩
    else
      match (d.getD delim).dropWhile (· != c) with
      | [] => loop delim none tokenStart (before ++ [c]) rest
      | x :: xs =>
        if tokenStart = before.length then
          loop delim (some (x :: xs)) (before.length + 1) (before ++ [0]) rest
        else some ⟨some tokenStart, before ++ [0], rest⟩

def strtok (delim before rest : List UInt8) : Option Stop :=
  loop delim none before.length before rest

def cString (memory : List UInt8) (place : Nat) : List UInt8 :=
  (memory.drop place).takeWhile (· != 0)

def gather (later : List UInt8 → List UInt8 → Option (List (List UInt8))) (stop : Stop) :
    Option (List (List UInt8)) :=
  match stop.token with
  | none => some []
  | some place =>
    (later stop.before stop.rest).map (cString (stop.before ++ stop.rest) place :: ·)

def tokens (delim : List UInt8) : Nat → List UInt8 → List UInt8 → Option (List (List UInt8))
  | 0, _, _ => none
  | calls + 1, before, rest => (strtok delim before rest).bind (gather (tokens delim calls))

def stretches (delim s : List UInt8) : List (List UInt8) :=
  (s.splitOnP (· ∈ delim)).filter (!·.isEmpty)

/-- Where a reader of the string stands: at the start or behind the delimiter that closed a
    token, behind a delimiter that closed none, or in a token. -/
inductive Place where
  | fresh
  | passed (d : List UInt8)
  | word

/-- A delimiter that closes no token is not the last character, and a delimiter right behind it
    is found among the delimiters from it on. -/
def Orderly (delim : List UInt8) : Place → List UInt8 → Prop
  | .fresh, [] => True
  | .fresh, c :: s =>
    if c ∈ delim then Orderly delim (.passed (delim.dropWhile (· != c))) s
    else Orderly delim .word s
  | .passed _, [] => False
  | .passed d, c :: s =>
    if c ∈ d then Orderly delim (.passed (d.dropWhile (· != c))) s
    else c ∉ delim ∧ Orderly delim .word s
  | .word, [] => True
  | .word, c :: s => if c ∈ delim then Orderly delim .fresh s else Orderly delim .word s

section Stretches
variable {delim : List UInt8} {c : UInt8} {s : List UInt8}

/-- What stands behind the delimiter that ends the first stretch. -/
def behind (delim s : List UInt8) : List UInt8 := (s.dropWhile (· ∉ delim)).drop 1

theorem behind_length (delim s : List UInt8) : (behind delim s).length ≤ s.length := by
  have shorter := (List.dropWhile_suffix (l := s) (fun c => decide (c ∉ delim))).length_le
  simp only [behind, List.length_drop]
  omega

theorem behind_member {x : UInt8} (member : x ∈ behind delim s) : x ∈ s :=
  (List.dropWhile_suffix _).subset (List.mem_of_mem_drop member)

theorem stretches_delimiter (member : c ∈ delim) :
    stretches delim (c :: s) = stretches delim s := by
  simp [stretches, List.splitOnP_cons_eq_if_modifyHead, member]

theorem splitOnP_first (delim s : List UInt8) : ∃ later,
    s.splitOnP (· ∈ delim) = s.takeWhile (· ∉ delim) :: later ∧
      later.filter (!·.isEmpty) = stretches delim (behind delim s) := by
  induction s with
  | nil => exact ⟨[], by simp, by simp [stretches, behind]⟩
  | cons c s ih =>
    obtain ⟨later, split, same⟩ := ih
    by_cases member : c ∈ delim
    · exact ⟨s.splitOnP (· ∈ delim), by
        simp [List.splitOnP_cons_eq_if_modifyHead, member], by simp [stretches, behind, member]⟩
    · refine ⟨later, ?_, ?_⟩
      · simp [List.splitOnP_cons_eq_if_modifyHead, member, split]
      · rw [same]
        simp [behind, member]

theorem stretches_word (plain : c ∉ delim) :
    stretches delim (c :: s) =
      (c :: s.takeWhile (· ∉ delim)) :: stretches delim (behind delim s) := by
  obtain ⟨later, split, same⟩ := splitOnP_first delim s
  rw [← same, stretches, List.splitOnP_cons_eq_if_modifyHead, split]
  simp [plain]

theorem stretches_plain {t : List UInt8} (member : t ∈ stretches delim s) : ∀ x ∈ t, x ∉ delim := by
  have piece : t ∈ s.splitOnP (· ∈ delim) := List.mem_of_mem_filter member
  clear member
  induction s generalizing t with
  | nil => simp_all
  | cons c s ih =>
    obtain ⟨later, split, _⟩ := splitOnP_first delim s
    rw [List.splitOnP_cons_eq_if_modifyHead] at piece
    by_cases closes : c ∈ delim
    · simp only [closes, decide_true, if_true, List.mem_cons] at piece
      rcases piece with rfl | piece
      · simp
      · exact ih piece
    · simp only [closes, decide_false, Bool.false_eq_true, if_false, split, List.modifyHead_cons,
        List.mem_cons] at piece
      rcases piece with rfl | piece
      · simp only [List.mem_cons]
        rintro x (rfl | inside)
        · exact closes
        · exact ih (split ▸ List.mem_cons_self) x inside
      · exact ih (split ▸ List.mem_cons_of_mem _ piece)

theorem orderly_word : Orderly delim .word s ↔ Orderly delim .fresh (behind delim s) := by
  induction s with
  | nil => simp [Orderly, behind]
  | cons c s ih =>
    by_cases member : c ∈ delim
    · simp [Orderly, behind, member]
    · simp only [Orderly, if_neg member, ih]
      simp [behind, member]

end Stretches

section Calls
variable {delim : List UInt8} {s : List UInt8}

theorem dropWhile_ne_nil {d : List UInt8} {c : UInt8} :
    d.dropWhile (· != c) = [] ↔ c ∉ d := by
  simp only [List.dropWhile_eq_nil_iff, bne_iff_ne]
  exact ⟨fun differ member => differ c member rfl, fun out x member same => out (same ▸ member)⟩

theorem loop_other {d : Option (List UInt8)} {c : UInt8} (goes : ¬(d = none ∧ c = 0))
    (misses : c ∉ d.getD delim) (tokenStart : Nat) (before rest : List UInt8) :
    loop delim d tokenStart before (c :: rest) =
      loop delim none tokenStart (before ++ [c]) rest := by
  rw [loop, if_neg goes, dropWhile_ne_nil.mpr misses]

theorem loop_delimiter {d : Option (List UInt8)} {c : UInt8} (goes : ¬(d = none ∧ c = 0))
    (hits : c ∈ d.getD delim) (tokenStart : Nat) (before rest : List UInt8) :
    loop delim d tokenStart before (c :: rest) =
      if tokenStart = before.length then
        loop delim (some ((d.getD delim).dropWhile (· != c))) (before.length + 1)
          (before ++ [0]) rest
      else some ⟨some tokenStart, before ++ [0], rest⟩ := by
  rw [loop, if_neg goes]
  cases left : (d.getD delim).dropWhile (· != c) with
  | nil => exact absurd hits (dropWhile_ne_nil.mp left)
  | cons x xs => rfl

theorem loop_word (delim : List UInt8) {tokenStart : Nat} (ends : 0 ∉ s) (before : List UInt8)
    (begun : tokenStart < before.length) : ∃ before' tail,
    loop delim none tokenStart before (s ++ [0]) =
        some ⟨some tokenStart, before', behind delim s ++ [0]⟩ ∧
      before' ++ (behind delim s ++ [0]) = before ++ s.takeWhile (· ∉ delim) ++ 0 :: tail := by
  induction s generalizing before with
  | nil => exact ⟨before, [], by simp [loop, behind, begun.ne], by simp [behind]⟩
  | cons c s ih =>
    rw [List.mem_cons, not_or] at ends
    have goes : ¬((none : Option (List UInt8)) = none ∧ c = 0) := fun stop => ends.1 stop.2.symm
    by_cases closes : c ∈ delim
    · refine ⟨before ++ [0], s ++ [0], ?_, ?_⟩
      · rw [List.cons_append, loop_delimiter goes closes, if_neg begun.ne]
        simp [behind, closes]
      · simp [behind, closes]
    · obtain ⟨before', tail, stops, memory⟩ := ih ends.2
        (before ++ [c]) (by rw [List.length_append]; omega)
      refine ⟨before', tail, ?_, ?_⟩
      · rw [List.cons_append, loop_other goes closes, stops]
        simp [behind, closes]
      · simpa [behind, closes] using memory

theorem gather_word {d : Option (List UInt8)} {c : UInt8} (plain : c ∉ d.getD delim)
    (nonzero : c ≠ 0) (ends : 0 ∉ s) (before : List UInt8)
    (later : List UInt8 → List UInt8 → Option (List (List UInt8))) : ∃ before',
    (loop delim d before.length before (c :: s ++ [0])).bind (gather later) =
      (later before' (behind delim s ++ [0])).map ((c :: s.takeWhile (· ∉ delim)) :: ·) := by
  obtain ⟨before', tail, stops, memory⟩ :=
    loop_word delim ends (before ++ [c])
      (show before.length < (before ++ [c]).length by simp)
  have all : ∀ x ∈ c :: s.takeWhile (· ∉ delim), (x != 0) = true := by
    intro x member
    rw [bne_iff_ne]
    rintro rfl
    rcases List.mem_cons.mp member with same | inside
    · exact nonzero same.symm
    · exact ends ((List.takeWhile_prefix _).subset inside)
  have token : cString (before' ++ (behind delim s ++ [0])) before.length =
      c :: s.takeWhile (· ∉ delim) := by
    have placed : before ++ [c] ++ s.takeWhile (· ∉ delim) ++ 0 :: tail =
        before ++ ((c :: s.takeWhile (· ∉ delim)) ++ 0 :: tail) := by simp
    rw [memory, placed, cString, List.drop_left, List.takeWhile_append_of_pos all]
    simp
  refine ⟨before', ?_⟩
  rw [List.cons_append, loop_other (fun stop => nonzero stop.2) plain, stops]
  simp only [Option.bind_some, gather, token]

/-- Exactness for strings shorter than a bound, whatever was read before. -/
def ExactBelow (delim : List UInt8) (calls bound : Nat) : Prop :=
  ∀ (before s : List UInt8), 0 ∉ s → s.length < bound →
    (tokens delim calls before (s ++ [0]) = some (stretches delim s) ↔ Orderly delim .fresh s)

theorem first_word {calls : Nat} {d : Option (List UInt8)} {c : UInt8} (plain : c ∉ d.getD delim)
    (free : c ∉ delim) (nonzero : c ≠ 0) (ends : 0 ∉ s) (before : List UInt8)
    (exact : ExactBelow delim calls (s.length + 1)) :
    (loop delim d before.length before (c :: s ++ [0])).bind (gather (tokens delim calls)) =
        some (stretches delim (c :: s)) ↔ Orderly delim .word s := by
  obtain ⟨before', result⟩ := gather_word plain nonzero ends before (tokens delim calls)
  rw [result, stretches_word free, orderly_word,
    ← exact before' _ (fun inside => ends (behind_member inside))
      (Nat.lt_succ_of_le (behind_length delim s))]
  cases tokens delim calls before' (behind delim s ++ [0]) <;> simp

theorem after_passed {calls : Nat} {d : List UInt8} (within : d ⊆ delim) (proper : 0 ∉ delim)
    (ends : 0 ∉ s) (before : List UInt8) (exact : ExactBelow delim calls s.length) :
    (loop delim (some d) before.length before (s ++ [0])).bind (gather (tokens delim calls)) =
        some (stretches delim s) ↔ Orderly delim (.passed d) s := by
  induction s generalizing before d with
  | nil =>
    have out : (0 : UInt8) ∉ (some d).getD delim := fun member => proper (within member)
    rw [List.nil_append, loop_other (by simp) out]
    simp [loop, Orderly]
  | cons c s ih =>
    rw [List.mem_cons, not_or] at ends
    by_cases again : c ∈ d
    · have kept : d.dropWhile (· != c) ⊆ delim :=
        fun x member => within ((List.dropWhile_suffix _).subset member)
      have rest := ih kept ends.2 (before ++ [0])
        (fun b t plain short => exact b t plain (Nat.lt_succ_of_lt short))
      rw [List.length_append] at rest
      rw [List.cons_append, loop_delimiter (by simp) again, if_pos rfl,
        stretches_delimiter (within again), Orderly, if_pos again]
      exact rest
    · by_cases free : c ∈ delim
      · -- the delimiter becomes the first character of a token
        obtain ⟨before', result⟩ :=
          gather_word (d := some d) again (Ne.symm ends.1) ends.2 before (tokens delim calls)
        rw [result]
        simp only [Orderly, if_neg again, free, not_true_eq_false, false_and, iff_false]
        intro same
        obtain ⟨found, _, equal⟩ := Option.map_eq_some_iff.mp same
        have inside : c :: s.takeWhile (· ∉ delim) ∈ stretches delim (c :: s) :=
          equal ▸ List.mem_cons_self
        exact stretches_plain inside c List.mem_cons_self free
      · rw [first_word (d := some d) again free (Ne.symm ends.1) ends.2 before exact]
        simp [Orderly, again, free]

theorem exactBelow (proper : 0 ∉ delim) (calls : Nat) : ExactBelow delim calls calls := by
  induction calls with
  | zero => intro _ _ _ short; omega
  | succ calls ih =>
    intro before s ends short
    rw [tokens, strtok]
    cases s with
    | nil => simp [loop, gather, Orderly, stretches]
    | cons c s =>
      rw [List.mem_cons, not_or] at ends
      have shorter : ExactBelow delim calls (s.length + 1) :=
        fun b t plain small => ih b t plain (by simp at short; omega)
      by_cases closes : c ∈ delim
      · have rest := after_passed (s := s) (fun x member => (List.dropWhile_suffix _).subset member)
          proper ends.2 (before ++ [0]) (fun b t plain small => shorter b t plain (by omega))
          (d := delim.dropWhile (· != c))
        rw [List.length_append] at rest
        rw [List.cons_append, loop_delimiter (d := none) (fun stop => ends.1 stop.2.symm) closes,
          if_pos rfl, stretches_delimiter closes, Orderly, if_pos closes]
        exact rest
      · rw [first_word (d := none) closes closes (Ne.symm ends.1) ends.2 before shorter]
        simp [Orderly, closes]

/-- With one delimiter, calls that read nothing behind the zero have an orderly string. -/
theorem orderly_of_tokens {x : UInt8} {calls : Nat} {before : List UInt8}
    {found : List (List UInt8)} (proper : 0 ∉ [x]) (ends : 0 ∉ s)
    (run : tokens [x] calls before (s ++ [0]) = some found) : Orderly [x] .fresh s := by
  induction calls generalizing s before found with
  | zero => cases run
  | succ calls ih =>
    -- behind a character that is no delimiter the rest is left to the later calls
    have word {d : Option (List UInt8)} {c : UInt8} {s before : List UInt8} {found}
        (plain : c ∉ d.getD [x]) (nonzero : c ≠ 0) (ends : 0 ∉ s)
        (run : (loop [x] d before.length before (c :: s ++ [0])).bind (gather (tokens [x] calls)) =
          some found) : Orderly [x] .word s := by
      obtain ⟨before', result⟩ := gather_word plain nonzero ends before (tokens [x] calls)
      rw [result] at run
      obtain ⟨later, rest, -⟩ := Option.map_eq_some_iff.mp run
      exact orderly_word.mpr (ih (fun zero => ends (behind_member zero)) rest)
    have passed {s before : List UInt8} {found} (ends : 0 ∉ s)
        (run : (loop [x] (some [x]) before.length before (s ++ [0])).bind
          (gather (tokens [x] calls)) = some found) : Orderly [x] (.passed [x]) s := by
      induction s generalizing before with
      | nil =>
        rw [List.nil_append, loop_other (by simp) proper] at run
        cases run
      | cons c s inner =>
        rw [List.mem_cons, not_or] at ends
        by_cases again : c ∈ [x]
        · rw [List.cons_append, loop_delimiter (by simp) again, if_pos rfl] at run
          obtain rfl := List.mem_singleton.mp again
          rw [Orderly, if_pos again]
          have goes := @inner (before ++ [0]) ends.2 (by simpa using run)
          simpa using goes
        · rw [Orderly, if_neg again]
          exact ⟨again, word again (Ne.symm ends.1) ends.2 run⟩
    rw [tokens, strtok] at run
    cases s with
    | nil => trivial
    | cons c s =>
      rw [List.mem_cons, not_or] at ends
      by_cases closes : c ∈ [x]
      · rw [List.cons_append, loop_delimiter (d := none) (fun stop => ends.1 stop.2.symm) closes,
          if_pos rfl] at run
        obtain rfl := List.mem_singleton.mp closes
        rw [Orderly, if_pos closes]
        have goes := @passed s (before ++ [0]) found ends.2 (by simpa using run)
        simpa using goes
      · rw [Orderly, if_neg closes]
        exact word (d := none) closes (Ne.symm ends.1) ends.2 run

theorem loop_append {d : Option (List UInt8)} {tokenStart : Nat} {before rest : List UInt8}
    {stop : Stop} (begun : tokenStart ≤ before.length)
    (run : loop delim d tokenStart before rest = some stop) (more : List UInt8) :
    loop delim d tokenStart before (rest ++ more) =
        some { stop with rest := stop.rest ++ more } ∧
      ∀ place, stop.token = some place → 0 ∈ (stop.before ++ stop.rest).drop place := by
  induction rest generalizing d tokenStart before with
  | nil => cases run
  | cons c rest ih =>
    rw [loop] at run
    rw [List.cons_append, loop]
    split at run
    · rename_i ends
      cases run
      rw [if_pos ends]
      refine ⟨rfl, fun place token => ?_⟩
      dsimp only at token ⊢
      split at token
      · cases token
      · cases token
        rw [List.drop_append_of_le_length begun]
        exact List.mem_append_right _ (ends.2 ▸ List.mem_cons_self)
    · rename_i goes
      rw [if_neg goes]
      cases left : (d.getD delim).dropWhile (· != c) with
      | nil =>
        rw [left] at run
        exact ih (by rw [List.length_append]; omega) run
      | cons x xs =>
        rw [left] at run
        dsimp only at run ⊢
        split at run
        · rename_i fresh
          rw [if_pos fresh]
          exact ih (by simp) run
        · rename_i token
          cases run
          rw [if_neg token]
          refine ⟨rfl, fun place same => ?_⟩
          cases same
          have inside : tokenStart ≤ (before ++ [0]).length := by
            rw [List.length_append]
            omega
          rw [List.drop_append_of_le_length inside, List.drop_append_of_le_length begun]
          simp

theorem cString_append {memory : List UInt8} {place : Nat} (ends : 0 ∈ memory.drop place)
    (more : List UInt8) : cString (memory ++ more) place = cString memory place := by
  have inside : place ≤ memory.length := by
    by_contra beyond
    rw [List.drop_eq_nil_of_le (by omega)] at ends
    cases ends
  rw [cString, cString, List.drop_append_of_le_length inside, List.takeWhile_append, if_neg]
  intro all
  have front : (memory.drop place).takeWhile (· != 0) <+: memory.drop place :=
    List.takeWhile_prefix _
  rw [← front.eq_of_length all] at ends
  simpa using List.mem_takeWhile_imp ends

theorem tokens_append {calls : Nat} {before rest : List UInt8} {found : List (List UInt8)}
    (run : tokens delim calls before rest = some found) (more : List UInt8) :
    tokens delim calls before (rest ++ more) = some found := by
  induction calls generalizing before rest found with
  | zero => cases run
  | succ calls ih =>
    rw [tokens, strtok] at run ⊢
    obtain ⟨stop, call, gathered⟩ := Option.bind_eq_some_iff.mp run
    obtain ⟨longer, ends⟩ := loop_append (Nat.le_refl _) call more
    rw [longer, Option.bind_some]
    rw [gather] at gathered ⊢
    cases token : stop.token with
    | none =>
      rw [token] at gathered
      exact gathered
    | some place =>
      rw [token] at gathered
      obtain ⟨later, rest', rfl⟩ := Option.map_eq_some_iff.mp gathered
      dsimp only
      rw [ih rest', ← List.append_assoc, cString_append (ends place token), Option.map_some]

/-- The calls return exactly the longest stretches without a delimiter, and read nothing behind
    the terminating zero, just when every delimiter that closes no token has a character behind
    it that is none or is found among the delimiters from it on. -/
theorem strtok_exact_iff (delim s : List UInt8) (calls : Nat) (proper : 0 ∉ delim)
    (string : 0 ∉ s) (enough : s.length < calls) :
    tokens delim calls [] (s ++ [0]) = some (stretches delim s) ↔ Orderly delim .fresh s :=
  exactBelow proper calls [] s string enough

/-- `/a` with the delimiter `/`. -/
theorem strtok_exact_leading :
    Orderly [0x2F] .fresh [0x2F, 0x61] ∧
      tokens [0x2F] 3 [] ([0x2F, 0x61] ++ [0]) = some (stretches [0x2F] [0x2F, 0x61]) := by
  have orderly : Orderly [0x2F] .fresh [0x2F, 0x61] := by simp [Orderly]
  exact ⟨orderly,
    (strtok_exact_iff [0x2F] [0x2F, 0x61] 3 (by decide) (by decide) (by decide)).mpr orderly⟩

/-- In `a//` the second slash is passed without a look at the zero behind it; in `;,x` with
    the delimiters `,;` the comma becomes part of the token. -/
theorem strtok_runs_over :
    tokens [0x2F] 4 [] [0x61, 0x2F, 0x2F, 0] = none ∧
      strtok [0x2F] [0x61, 0] [0x2F, 0] = none ∧
      tokens [0x2C, 0x3B] 4 [] [0x3B, 0x2C, 0x78, 0] = some [[0x2C, 0x78]] ∧
      stretches [0x2C, 0x3B] [0x3B, 0x2C, 0x78] = [[0x78]] := by
  refine ⟨by decide, rfl, by decide, by decide⟩

end Calls

end OmenText
