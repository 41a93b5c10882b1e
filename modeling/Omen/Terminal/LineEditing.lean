import Omen.Library.Runs
import Omen.Terminal.LineDiscipline

/- The line editor that canonical input is meant to be, and where the line discipline is one. -/
namespace OmenTerminal
open Runs

structure Editor where
  gone : Nat
  line : List UInt8

def Ordinary (c : UInt8) : Prop := c ≠ 127 ∧ 27 < c
instance (c : UInt8) : Decidable (Ordinary c) := inferInstanceAs (Decidable (_ ∧ _))

theorem Ordinary.not_control {c : UInt8} (ordinary : Ordinary c) : c ≠ 13 ∧ c ≠ 4 ∧ c ≠ 8 := by
  refine ⟨?_, ?_, ?_⟩ <;> rintro rfl <;> exact absurd ordinary (by decide)

/- Only the most recent n - 1 bytes stay. -/
def Editor.append (n : Nat) (e : Editor) (c : UInt8) : Editor :=
  ⟨if e.line.length + 1 = n then e.gone + 1 else e.gone, (e.line ++ [c]).rtake (n - 1)⟩

def Editor.erase (e : Editor) : Editor := { e with line := e.line.dropLast }

def Editor.type (n : Nat) (e : Editor) (c : UInt8) : Editor × List (List UInt8) :=
  if c = 13 then (⟨e.gone + e.line.length + 1, []⟩, [e.line ++ [10]])
  else if c = 4 then (⟨e.gone + e.line.length, []⟩, [e.line])
  else if c = 8 ∨ c = 127 then (e.erase, [])
  else if 27 < c then (e.append n c, [])
  else (e, [])

def edited (n : Nat) (cs : List UInt8) : Editor × List (List UInt8) :=
  cs.foldl (fun s c => ((s.1.type n c).1, s.2 ++ (s.1.type n c).2)) (⟨0, []⟩, [])

def delivered (effects : List Effect) : List (List UInt8) :=
  effects.filterMap fun
    | .flush bytes => some bytes
    | .echo _ => none

def handOver (result : Option (LineDiscipline × List Effect)) :
    Option (LineDiscipline × List (List UInt8)) :=
  result.map fun r => (r.1, delivered r.2)

def feed (ld : LineDiscipline) (cs : List UInt8) :
    Option (LineDiscipline × List (List UInt8)) :=
  cs.foldlM (fun s c => (handOver (lineDisciplineRead s.1 c)).map fun r => (r.1, s.2 ++ r.2))
    (ld, [])

/-- Nothing outside the buffer is touched, and the deliveries are the editor's. -/
def Edits (n : Nat) (ld : LineDiscipline) (cs : List UInt8) : Prop :=
  (feed ld cs).map Prod.snd = some (edited n cs).2

def Deliverable (n : Nat) (e : Editor) : Prop :=
  e.gone % n + e.line.length = n ∨
    e.gone % n + e.line.length < n ∧ e.line.length + n < 2 ^ 31

/-- A return finds room for its newline, what is delivered lies in one piece, and no byte is
    erased from the ring's last cell. -/
def Fits (n : Nat) (e : Editor) (c : UInt8) : Prop :=
  (c = 13 → e.line.length + 1 < n ∧ Deliverable n ⟨e.gone, e.line ++ [10]⟩) ∧
  (c = 4 → Deliverable n e) ∧
  (c = 8 ∨ c = 127 → e.line = [] ∨ (e.gone + e.line.length) % n ≠ 0)

instance (n : Nat) (e : Editor) : Decidable (Deliverable n e) :=
  inferInstanceAs (Decidable (_ ∨ _))
instance (n : Nat) (e : Editor) (c : UInt8) : Decidable (Fits n e c) :=
  inferInstanceAs (Decidable (_ ∧ _ ∧ _))

def Clear (n : Nat) (cs : List UInt8) : Prop := Along (fun u => Fits n (edited n u).1) cs

theorem plain_entries : ∀ i : Fin 28, i ≠ 13 → i ≠ 4 → i ≠ 8 →
    (defaultLdTable.getD i (plainEntry .ignore)).inserti = [0, 0, 0, 0] ∧
      (defaultLdTable.getD i (plainEntry .ignore)).action ∉ [.eof, .cret, .erase] := by
  decide

theorem Action.apply_quiet {action : Action} (quiet : action ∉ [.eof, .cret, .erase])
    (ld : LineDiscipline) : action.apply ld = some (ld, []) := by
  cases action <;> simp_all [Action.apply]

section Steps
variable {n : Nat} {ld : LineDiscipline} {e : Editor} {c : UInt8}

def Represents (n : Nat) (ld : LineDiscipline) (e : Editor) : Prop :=
  ∃ echo buffer, ∃ tail : Nat, ld = ⟨.canonical, echo, buffer, n, (e.gone % n : Nat), tail⟩ ∧
    Ring.Shows buffer n (e.gone % n) tail e.line

theorem next_tmod (i n : Nat) : ((i : Int) + 1).tmod n = ((i + 1) % n : Nat) := by
  rw [Int.ofNat_tmod, Int.natCast_succ]

theorem insert_represents (r : Represents n ld e) (two : 2 ≤ n) (c_ne : c ≠ 0) :
    ∃ ld', lineDisciplineInsert ld c = some ld' ∧ Represents n ld' (e.append n c) := by
  obtain ⟨echo, buffer, tail, rfl, shows⟩ := r
  have inside := shows.tail_lt
  have full := shows.meets
  refine ⟨_, by rw [lineDisciplineInsert, if_neg c_ne, if_pos (by simpa using inside)], ?_⟩
  refine ⟨echo, Function.update buffer tail c, (tail + 1) % n, ?_, ?_⟩
  · simp only [next_tmod, Int.natCast_inj, Int.toNat_natCast, Editor.append]
    by_cases met : e.line.length + 1 = n
    · rw [if_pos (full.mpr met), if_pos met, Nat.mod_add_mod]
    · rw [if_neg fun same => met (full.mp same), if_neg met]
  · have pushed := shows.push two c
    simp only [Editor.append]
    by_cases met : e.line.length + 1 = n
    · rw [if_pos (full.mpr met), Nat.mod_add_mod] at pushed
      rwa [if_pos met]
    · rw [if_neg fun same => met (full.mp same)] at pushed
      rwa [if_neg met]

theorem deleteLast_represents (r : Represents n ld e)
    (kept : e.line = [] ∨ (e.gone + e.line.length) % n ≠ 0) :
    Represents n (lineDisciplineDeleteLast ld) e.erase := by
  obtain ⟨echo, buffer, tail, rfl, shows⟩ := r
  have empty := shows.empty_iff
  have stop := shows.stop
  rw [Nat.mod_add_mod] at stop
  rw [lineDisciplineDeleteLast]
  by_cases none_left : e.line = []
  · rw [if_pos (by simp [empty.mpr none_left])]
    refine ⟨echo, buffer, tail, rfl, ?_⟩
    rwa [Editor.erase, none_left, List.dropLast_nil, ← none_left]
  · have low : tail ≠ 0 := stop ▸ kept.resolve_left none_left
    have inside := shows.tail_lt
    rw [if_neg fun same => none_left (empty.mp (Int.ofNat_inj.mp same).symm)]
    refine ⟨echo, buffer, tail - 1, ?_, ?_⟩
    · have back : ((tail : Int) - 1).tmod n = (tail - 1 : Nat) := by
        rw [show (tail : Int) - 1 = (tail - 1 : Nat) by omega, ← Int.ofNat_tmod,
          Nat.mod_eq_of_lt (by omega)]
      simp only [back, Editor.erase]
    · exact shows.dropLast none_left low

variable {echo : Echo} {buffer : Nat → UInt8} {head tail : Nat} {line : List UInt8}

theorem flushedBytes_piece {k : Nat} (piece : head + k ≤ n) :
    flushedBytes ⟨.canonical, echo, buffer, n, head, tail⟩ k =
      some ((List.range k).map fun i => buffer (head + i)) := by
  rw [flushedBytes]
  split
  · rw [show k = 0 by omega]
    rfl
  · rw [if_pos ⟨by simp, by simpa using mod_cast piece⟩, Int.toNat_natCast, Int.toNat_natCast]

/- The three places of the line's end: in front of the ring's end, at it, behind it. -/
theorem flushedBytes_iff (shows : Ring.Shows buffer n head tail line) (int : n < 2 ^ 31) :
    flushedBytes ⟨.canonical, echo, buffer, n, head, tail⟩
        (((tail - head + n : Int).bmod (2 ^ 32)).tmod n) = some line ↔
      head + line.length = n ∨ head + line.length < n ∧ line.length + n < 2 ^ 31 := by
  have stop := shows.stop
  have inside := shows.inside
  have room := shows.room
  have piece (one : head + line.length ≤ n) := shows.slice (Nat.le_refl _) one
  rw [List.take_length] at piece
  have length (sum : (tail - head + n : Int) = line.length) :
      ((tail - head + n : Int).bmod (2 ^ 32)).tmod n = line.length := by
    rw [sum, Int.bmod_eq_of_le (by omega) (by omega), ← Int.ofNat_tmod, Nat.mod_eq_of_lt room]
  rcases Nat.lt_trichotomy (head + line.length) n with before | exact | behind
  · rw [Nat.mod_eq_of_lt before] at stop
    rw [show (tail - head + n : Int) = (line.length + n : Nat) by omega]
    by_cases small : line.length + n < 2 ^ 31
    · rw [Int.bmod_eq_of_le (by omega) (by omega), ← Int.ofNat_tmod, Nat.add_mod_right,
        Nat.mod_eq_of_lt room, flushedBytes_piece (by omega), piece (by omega)]
      exact iff_of_true rfl (Or.inr ⟨before, small⟩)
    · have negative := Int.tmod_nonneg n (a := 2 ^ 32 - (line.length + n : Nat)) (by omega)
      rw [← Int.sub_bmod_right, Int.bmod_eq_of_le (by omega) (by omega), ← Int.neg_sub,
        Int.neg_tmod, flushedBytes, if_pos (by simpa using negative)]
      have some_byte : line ≠ [] := by
        rintro rfl
        simp only [List.length_nil] at small
        omega
      exact iff_of_false (fun same => some_byte (Option.some.inj same).symm) (by omega)
  · rw [exact, Nat.mod_self] at stop
    rw [length (by omega), flushedBytes_piece (by omega), piece (by omega)]
    simp [exact]
  · rw [Nat.mod_eq_sub_mod (by omega), Nat.mod_eq_of_lt (by omega)] at stop
    rw [length (by omega), flushedBytes, if_neg (by omega), if_neg (by dsimp only; omega)]
    simp
    omega

theorem flush_represents (r : Represents n ld e) (int : n < 2 ^ 31) (whole : Deliverable n e) :
    ∃ ld', lineDisciplineForceFlush ld = some (ld', [.flush e.line]) ∧
      Represents n ld' ⟨e.gone + e.line.length, []⟩ := by
  obtain ⟨echo, buffer, tail, rfl, shows⟩ := r
  refine ⟨⟨.canonical, echo, buffer, n, tail, tail⟩, ?_, echo, buffer, tail, ?_, ?_⟩
  · rw [lineDisciplineForceFlush, if_pos rfl]
    dsimp only
    rw [(flushedBytes_iff shows int).mpr whole, Option.map_some]
  · simp only [shows.stop, Nat.mod_add_mod]
  · have := shows.drop (Nat.le_refl _)
    rwa [Nat.mod_add_mod, List.drop_length] at this

theorem flush_cases (canonical : ld.mode = .canonical) {ld' : LineDiscipline}
    {out : List (List UInt8)}
    (flushed : handOver (lineDisciplineForceFlush ld) = some (ld', out)) :
    ∃ bytes, ld' = { ld with head := ld.tail } ∧ out = [bytes] ∧
      flushedBytes ld (((ld.tail - ld.head + ld.size).bmod (2 ^ 32)).tmod ld.size) =
        some bytes := by
  rw [lineDisciplineForceFlush, if_pos canonical, handOver, Option.map_map,
    Option.map_eq_some_iff] at flushed
  obtain ⟨bytes, read, same⟩ := flushed
  cases same
  exact ⟨bytes, rfl, rfl, read⟩

theorem deliverable_of_flush (r : Represents n ld e) (int : n < 2 ^ 31) {ld' : LineDiscipline}
    (flushed : handOver (lineDisciplineForceFlush ld) = some (ld', [e.line])) :
    Deliverable n e := by
  obtain ⟨echo, buffer, tail, rfl, shows⟩ := r
  obtain ⟨bytes, -, same, read⟩ := flush_cases rfl flushed
  cases same
  exact (flushedBytes_iff shows int).mp read

theorem flush_length (r : Represents n ld e) {ld' : LineDiscipline} {bytes : List UInt8}
    (flushed : handOver (lineDisciplineForceFlush ld) = some (ld', [bytes])) :
    bytes.length < n := by
  obtain ⟨echo, buffer, tail, rfl, shows⟩ := r
  obtain ⟨bytes, -, same, read⟩ := flush_cases rfl flushed
  cases same
  have some_cell := Nat.zero_lt_of_lt shows.inside
  have short := Int.tmod_lt_of_pos ((tail - (e.gone % n : Nat) + n : Int).bmod (2 ^ 32))
    (Int.natCast_pos.mpr some_cell)
  rw [flushedBytes] at read
  split at read
  · cases read
    exact some_cell
  · split at read
    · cases read
      rw [List.length_map, List.length_range]
      dsimp only
      omega
    · cases read

theorem handOver_shown (echo : Echo) (shown : List UInt8)
    (result : Option (LineDiscipline × List Effect)) :
    handOver (result.map fun done =>
      (done.1, (if echo = .on then shown.map .echo else []) ++ done.2)) = handOver result := by
  cases result <;> cases echo <;> simp [handOver, delivered]

theorem read_canonical (canonical : ld.mode = .canonical) :
    handOver (lineDisciplineRead ld c) =
      if c = 13 then
        (lineDisciplineInsert ld 10).bind fun ld => handOver (lineDisciplineForceFlush ld)
      else if c = 4 then handOver (lineDisciplineForceFlush ld)
      else if c = 8 ∨ c = 127 then some (lineDisciplineDeleteLast ld, [])
      else if 27 < c then (lineDisciplineInsert ld c).map fun ld => (ld, [])
      else some (ld, []) := by
  rw [lineDisciplineRead, canonical]
  dsimp only
  rw [lineDisciplineApply]
  by_cases ordinary : c ≠ ldDel ∧ 27 < c
  · have control := Ordinary.not_control ordinary
    have del : c ≠ 127 := ordinary.1
    rw [if_pos ordinary]
    rw [if_neg control.1, if_neg control.2.1,
      if_neg (not_or.mpr ⟨control.2.2, del⟩), if_pos ordinary.2]
    cases lineDisciplineInsert ld c with
    | none => rfl
    | some ld => cases on : ld.echo <;> simp [handOver, delivered, on]
  · rw [if_neg ordinary]
    by_cases del : c = ldDel
    · subst del
      rfl
    · have low : c.toNat < 28 := by
        have := not_and.mp ordinary del
        rw [UInt8.lt_iff_toNat_lt] at this
        exact Nat.lt_succ_of_le (Nat.le_of_not_lt this)
      rw [if_neg del]
      dsimp only
      by_cases cr : c = 13
      · subst cr
        change handOver ((lineDisciplineInsert ld 10).bind some |>.bind _) = _
        cases lineDisciplineInsert ld 10 with
        | none => rfl
        | some ld => exact handOver_shown ld.echo [13, 10] _
      by_cases eot : c = 4
      · subst eot
        exact handOver_shown ld.echo [] _
      by_cases bs : c = 8
      · subst bs
        exact handOver_shown ld.echo [8, 32, 8] (some (lineDisciplineDeleteLast ld, []))
      have other (k : UInt8) (ne : c ≠ k) : c.toNat ≠ k.toNat := mt UInt8.toNat_inj.mp ne
      obtain ⟨zeros, quiet⟩ := plain_entries ⟨c.toNat, low⟩ (mt (congrArg Fin.val) (other 13 cr))
        (mt (congrArg Fin.val) (other 4 eot)) (mt (congrArg Fin.val) (other 8 bs))
      rw [if_neg cr, if_neg eot, if_neg (not_or.mpr ⟨bs, show c ≠ 127 from del⟩),
        if_neg fun large => ordinary ⟨del, large⟩, zeros]
      exact (handOver_shown ld.echo _ _).trans (congrArg handOver (Action.apply_quiet quiet ld))

theorem Represents.canonical (r : Represents n ld e) : ld.mode = .canonical := by
  obtain ⟨echo, buffer, tail, rfl, shows⟩ := r
  rfl

theorem append_of_room (room : e.line.length + 1 < n) (c : UInt8) :
    e.append n c = ⟨e.gone, e.line ++ [c]⟩ := by
  rw [Editor.append, if_neg (by omega), List.rtake, List.length_append, List.length_singleton,
    show e.line.length + 1 - (n - 1) = 0 by omega, List.drop_zero]

theorem read_represents (r : Represents n ld e) (two : 2 ≤ n) (int : n < 2 ^ 31)
    (fits : Fits n e c) : ∃ ld', handOver (lineDisciplineRead ld c) =
      some (ld', (e.type n c).2) ∧ Represents n ld' (e.type n c).1 := by
  rw [read_canonical r.canonical, Editor.type]
  by_cases cr : c = 13
  · obtain ⟨room, whole⟩ := fits.1 cr
    obtain ⟨ld₁, inserted, r₁⟩ := insert_represents r two (by decide : (10 : UInt8) ≠ 0)
    rw [append_of_room room] at r₁
    obtain ⟨ld₂, flushed, r₂⟩ := flush_represents r₁ int whole
    rw [if_pos cr, if_pos cr, inserted, Option.bind_some, flushed]
    exact ⟨ld₂, rfl, by simpa [Nat.add_assoc] using r₂⟩
  by_cases eot : c = 4
  · obtain ⟨ld₁, flushed, r₁⟩ := flush_represents r int (fits.2.1 eot)
    rw [if_neg cr, if_neg cr, if_pos eot, if_pos eot, flushed]
    exact ⟨ld₁, rfl, r₁⟩
  by_cases erase : c = 8 ∨ c = 127
  · rw [if_neg cr, if_neg cr, if_neg eot, if_neg eot, if_pos erase, if_pos erase]
    exact ⟨_, rfl, deleteLast_represents r (fits.2.2 erase)⟩
  rw [if_neg cr, if_neg cr, if_neg eot, if_neg eot, if_neg erase, if_neg erase]
  by_cases large : 27 < c
  · obtain ⟨ld₁, inserted, r₁⟩ := insert_represents r two (c := c) (by rintro rfl; cases large)
    rw [if_pos large, if_pos large, inserted]
    exact ⟨ld₁, rfl, r₁⟩
  · rw [if_neg large, if_neg large]
    exact ⟨ld, rfl, r⟩

theorem read_ordinary (canonical : ld.mode = .canonical) (ordinary : Ordinary c) :
    handOver (lineDisciplineRead ld c) = (lineDisciplineInsert ld c).map fun ld => (ld, []) := by
  have control := ordinary.not_control
  rw [read_canonical canonical, if_neg control.1, if_neg control.2.1,
    if_neg (not_or.mpr ⟨control.2.2, ordinary.1⟩), if_pos ordinary.2]

theorem deleteLast_wraps (r : Represents n ld e) (two : 2 ≤ n) (some_byte : e.line ≠ [])
    (last : (e.gone + e.line.length) % n = 0) (ordinary : Ordinary c) :
    handOver (lineDisciplineRead (lineDisciplineDeleteLast ld) c) = none := by
  obtain ⟨echo, buffer, tail, rfl, shows⟩ := r
  have stop := shows.stop
  rw [Nat.mod_add_mod, last] at stop
  subst stop
  have back : ((0 : Nat) - 1 : Int).tmod n = -1 := by
    rw [show ((0 : Nat) - 1 : Int) = -((1 : Nat) : Int) by rfl, Int.neg_tmod, ← Int.ofNat_tmod,
      Nat.mod_eq_of_lt two]
    rfl
  have ne : ((0 : Nat) : Int) ≠ (e.gone % n : Nat) := fun same =>
    some_byte (shows.empty_iff.mp (Int.ofNat_inj.mp same).symm)
  rw [lineDisciplineDeleteLast, if_neg ne, read_ordinary rfl ordinary, lineDisciplineInsert,
    if_neg (by rintro rfl; cases ordinary.2), if_neg (by dsimp only; rw [back]; omega),
    Option.map_none]

/-- A byte that does not fit is delivered wrongly, or the next ordinary byte has no cell. -/
theorem fits_of_read (r : Represents n ld e) (two : 2 ≤ n) (int : n < 2 ^ 31) {x : UInt8}
    (ordinary : Ordinary x) {ld₁ : LineDiscipline}
    (first : handOver (lineDisciplineRead ld c) = some (ld₁, (e.type n c).2))
    (second : handOver (lineDisciplineRead ld₁ x) ≠ none) : Fits n e c := by
  rw [read_canonical r.canonical, Editor.type] at first
  refine ⟨?_, ?_, ?_⟩
  · rintro rfl
    rw [if_pos rfl, if_pos rfl] at first
    obtain ⟨ld₂, inserted, r₂⟩ := insert_represents r two (by decide : (10 : UInt8) ≠ 0)
    rw [inserted, Option.bind_some] at first
    have short := flush_length r₂ first
    rw [List.length_append, List.length_singleton] at short
    rw [append_of_room short] at r₂
    exact ⟨short, deliverable_of_flush r₂ int first⟩
  · rintro rfl
    exact deliverable_of_flush r int first
  · intro erase
    by_contra last
    rw [not_or, not_not] at last
    apply second
    have : ld₁ = lineDisciplineDeleteLast ld := by
      rcases erase with rfl | rfl <;> cases first <;> rfl
    rw [this]
    exact deleteLast_wraps r two last.1 last.2 ordinary

end Steps

section Runs
variable {n : Nat} {cs : List UInt8} {c : UInt8}

theorem edited_snoc (n : Nat) (cs : List UInt8) (c : UInt8) : edited n (cs ++ [c]) =
    (((edited n cs).1.type n c).1, (edited n cs).2 ++ ((edited n cs).1.type n c).2) := by
  rw [edited, List.foldl_append]
  rfl

theorem feed_snoc (ld : LineDiscipline) (cs : List UInt8) (c : UInt8) : feed ld (cs ++ [c]) =
    (feed ld cs).bind fun s =>
      (handOver (lineDisciplineRead s.1 c)).map fun r => (r.1, s.2 ++ r.2) := by
  rw [feed, List.foldlM_append]
  simp only [List.foldlM_cons, List.foldlM_nil, bind_pure]
  rfl

theorem fits_ordinary (n : Nat) (e : Editor) (ordinary : Ordinary c) : Fits n e c := by
  have control := ordinary.not_control
  exact ⟨fun cr => absurd cr control.1, fun eot => absurd eot control.2.1,
    fun erase => absurd erase (not_or.mpr ⟨control.2.2, ordinary.1⟩)⟩

variable (two : 2 ≤ n) (int : n < 2 ^ 31) (echo : Echo) (buffer : Nat → UInt8)
include two int

theorem feed_represents (clear : Clear n cs) :
    ∃ ld, feed (lineDisciplineCreate .canonical echo n buffer) cs = some (ld, (edited n cs).2) ∧
      Represents n ld (edited n cs).1 := by
  induction cs using List.reverseRecOn with
  | nil =>
    refine ⟨_, rfl, echo, buffer, 0, ?_, ?_⟩
    · simp [lineDisciplineCreate, edited]
    · simpa [edited] using Ring.shows_nil (by omega)
  | append_singleton cs c ih =>
    obtain ⟨clear, fits⟩ := along_snoc.mp clear
    obtain ⟨ld, fed, r⟩ := ih clear
    obtain ⟨ld', read, r'⟩ := read_represents r two int fits
    refine ⟨ld', ?_, ?_⟩
    · rw [feed_snoc, fed, Option.bind_some, read, edited_snoc]
      rfl
    · rwa [edited_snoc]

theorem edits_of_clear (clear : Clear n cs) :
    Edits n (lineDisciplineCreate .canonical echo n buffer) cs := by
  obtain ⟨ld, fed, -⟩ := feed_represents two int echo buffer clear
  rw [Edits, fed, Option.map_some]

/-- Canonical input is a line editor exactly as long as every byte fits: as long as that is so,
    what has been typed is delivered rightly and goes on so with an ordinary byte. -/
theorem canonical_input_iff {x : UInt8} (ordinary : Ordinary x) :
    (∀ u, u <+: cs → Edits n (lineDisciplineCreate .canonical echo n buffer) u ∧
      Edits n (lineDisciplineCreate .canonical echo n buffer) (u ++ [x])) ↔ Clear n cs := by
  constructor
  · intro right
    induction cs using List.reverseRecOn with
    | nil => exact along_nil
    | append_singleton cs c ih =>
      have clear := ih fun u part => right u (part.trans (List.prefix_append cs [c]))
      obtain ⟨ld, fed, r⟩ := feed_represents two int echo buffer clear
      obtain ⟨now, later⟩ := right _ List.prefix_rfl
      rw [Edits, feed_snoc, fed, Option.bind_some, edited_snoc] at now
      rw [Edits, feed_snoc, feed_snoc, fed, Option.bind_some] at later
      cases read : handOver (lineDisciplineRead ld c) with
      | none => simp [read] at now
      | some r₁ =>
        obtain ⟨ld₁, out⟩ := r₁
        rw [read, Option.map_some, Option.map_some, Option.some_inj] at now
        rw [read, Option.map_some, Option.bind_some] at later
        have same : out = _ := List.append_cancel_left now
        rw [same] at read
        refine along_snoc.mpr ⟨clear, fits_of_read r two int ordinary read ?_⟩
        intro lost
        rw [lost] at later
        cases later
  · intro clear u part
    have before : Clear n u := clear.of_prefix part
    exact ⟨edits_of_clear two int echo buffer before, edits_of_clear two int echo buffer
      (along_snoc.mpr ⟨before, fits_ordinary n _ ordinary⟩)⟩

omit two int

theorem canonical_input_short :
    Edits 8 (lineDisciplineCreate .canonical .on 8 fun _ => 0) [104, 8, 13] :=
  have fits : Clear 8 [104, 8, 13] := by
    unfold Clear
    decide
  ((canonical_input_iff (by decide) (by decide) .on _ (by decide : Ordinary 97)).mpr fits _
    List.prefix_rfl).1

theorem canonical_input_wraps : ¬ Edits 4 (lineDisciplineCreate .canonical .on 4 fun _ => 0)
    [97, 98, 99, 4, 100, 101, 4] := by
  unfold Edits
  decide

end Runs
end OmenTerminal
