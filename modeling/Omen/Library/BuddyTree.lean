import Mathlib.Logic.Function.Basic
import Mathlib.Algebra.Group.Nat.Defs

/- A block that divides into two halves, and these again, numbered as in a binary heap: the
   whole is node 1 and the halves of node `j` are `2 * j` and `2 * j + 1`. A node is there
   when every node above it is split; one that is there and not split is free or live. -/
namespace BuddyTree

inductive Status where
  | absent
  | free
  | live
  | split
  deriving DecidableEq, Repr

open Status

def Terminal (s : Status) : Prop := s = free ∨ s = live

structure Tree (levels : Nat) (st : Nat → Status) : Prop where
  zero : st 0 = absent
  root : st 1 ≠ absent
  child : ∀ c, 2 ≤ c → (st c ≠ absent ↔ st (c / 2) = split)
  depth : ∀ j, st j = split → 2 * j < 2 ^ levels

def NoFreePair (st : Nat → Status) : Prop :=
  ∀ j, 1 ≤ j → ¬ (st (2 * j) = free ∧ st (2 * j + 1) = free)

def halve (st : Nat → Status) (j : Nat) : Nat → Status :=
  Function.update (Function.update (Function.update st j split) (2 * j) live) (2 * j + 1) free

def join (st : Nat → Status) (j : Nat) : Nat → Status :=
  Function.update (Function.update (Function.update st j live) (2 * j) absent) (2 * j + 1) absent

theorem halve_apply (st : Nat → Status) (j i : Nat) :
    halve st j i =
      if i = 2 * j + 1 then free else if i = 2 * j then live else if i = j then split
      else st i := by
  simp only [halve, Function.update_apply]

theorem join_apply (st : Nat → Status) (j i : Nat) :
    join st j i =
      if i = 2 * j + 1 then absent else if i = 2 * j then absent else if i = j then live
      else st i := by
  simp only [join, Function.update_apply]

section Rules
variable {levels : Nat} {st : Nat → Status}

theorem Terminal.there {s : Status} (terminal : Terminal s) : s ≠ absent := by
  rcases terminal with rfl | rfl <;> decide

theorem Terminal.not_split {s : Status} (terminal : Terminal s) : s ≠ split := by
  rcases terminal with rfl | rfl <;> decide

section Tree
variable (tree : Tree levels st)
include tree

theorem Tree.one_le {j : Nat} (there : st j ≠ absent) : 1 ≤ j := by
  apply Nat.pos_of_ne_zero
  rintro rfl
  exact there tree.zero

theorem Tree.bound (some : 1 ≤ levels) {j : Nat} (there : st j ≠ absent) : j < 2 ^ levels := by
  obtain ⟨below, rfl⟩ : ∃ below, levels = below + 1 := ⟨levels - 1, by omega⟩
  have positive : 0 < 2 ^ below := Nat.pow_pos (by decide)
  rw [Nat.pow_succ]
  by_cases root : j < 2
  · omega
  · have parent := tree.depth _ ((tree.child j (by omega)).mp there)
    rw [Nat.pow_succ] at parent
    omega

theorem Tree.childless {j c : Nat} (whole : st j ≠ split) (some : 1 ≤ j) (half : c / 2 = j) :
    st c = absent := by
  by_contra there
  exact whole (half ▸ (tree.child c (by omega)).mp there)

theorem Tree.relabel {j : Nat} {s : Status} (here : Terminal (st j)) (mark : Terminal s) :
    Tree levels (Function.update st j s) := by
  have some := tree.one_le here.there
  have same : ∀ i, Function.update st j s i = split ↔ st i = split := by
    intro i
    rw [Function.update_apply]
    split
    · rename_i eq
      rw [eq]
      exact iff_of_false mark.not_split here.not_split
    · rfl
  have there : ∀ i, Function.update st j s i ≠ absent ↔ st i ≠ absent := by
    intro i
    rw [Function.update_apply]
    split
    · rename_i eq
      rw [eq]
      exact iff_of_true mark.there here.there
    · rfl
  constructor
  · rw [Function.update_of_ne (by omega)]
    exact tree.zero
  · exact (there 1).mpr tree.root
  · intro c two
    rw [there, same]
    exact tree.child c two
  · intro i isSplit
    exact tree.depth i ((same i).mp isSplit)

theorem Tree.halve {j : Nat} (here : st j = live) (room : 2 * j < 2 ^ levels) :
    Tree levels (halve st j) := by
  have some := tree.one_le (j := j) (by rw [here]; decide)
  have whole : st j ≠ split := by
    rw [here]
    decide
  constructor
  · rw [halve_apply, if_neg (by omega), if_neg (by omega), if_neg (by omega)]
    exact tree.zero
  · rw [halve_apply, if_neg (by omega), if_neg (by omega)]
    split
    · decide
    · exact tree.root
  · intro c two
    have old := tree.child c two
    have left := tree.childless whole some (c := 2 * j) (by omega)
    have right := tree.childless whole some (c := 2 * j + 1) (by omega)
    rw [halve_apply, halve_apply]
    grind
  · intro i isSplit
    rw [halve_apply] at isSplit
    have old := tree.depth i
    grind

theorem Tree.join {j : Nat} (here : st j = split) (left : st (2 * j) ≠ split)
    (right : st (2 * j + 1) ≠ split) : Tree levels (join st j) := by
  have some := tree.one_le (j := j) (by rw [here]; decide)
  have under : ∀ c, 2 ≤ c → c / 2 = 2 * j ∨ c / 2 = 2 * j + 1 → st c = absent := by
    intro c two half
    rcases half with eq | eq
    · exact tree.childless left (by omega) eq
    · exact tree.childless right (by omega) eq
  constructor
  · rw [join_apply, if_neg (by omega), if_neg (by omega), if_neg (by omega)]
    exact tree.zero
  · rw [join_apply, if_neg (by omega), if_neg (by omega)]
    split
    · decide
    · exact tree.root
  · intro c two
    have old := tree.child c two
    have gone := under c two
    rw [join_apply, join_apply]
    grind
  · intro i isSplit
    rw [join_apply] at isSplit
    have old := tree.depth i
    grind

theorem Tree.above {c : Nat} (there : st c ≠ absent) (k : Nat) (inside : 1 ≤ c / 2 ^ (k + 1)) :
    st (c / 2 ^ (k + 1)) = split := by
  induction k with
  | zero =>
    rw [Nat.zero_add, Nat.pow_one] at inside ⊢
    exact (tree.child c (by omega)).mp there
  | succ k ih =>
    rw [Nat.pow_succ, ← Nat.div_div_eq_div_mul] at inside ⊢
    have below := ih (by omega)
    exact (tree.child _ (by omega)).mp (by rw [below]; decide)

/-- On the way up from a leaf some node is free or live. -/
theorem Tree.cover {q : Nat} (low : 2 ^ levels ≤ 2 * q) (high : q < 2 ^ levels) :
    ∃ k, k < levels ∧ Terminal (st (q / 2 ^ k)) := by
  have positive : 0 < 2 ^ levels := Nat.pow_pos (by decide)
  obtain ⟨below, rfl⟩ : ∃ below, levels = below + 1 := by
    refine ⟨levels - 1, ?_⟩
    by_contra none
    rw [show levels = 0 by omega] at low high
    omega
  have top : q / 2 ^ below = 1 := by
    rw [Nat.pow_succ] at low high
    exact Nat.div_eq_of_lt_le (by omega) (by omega)
  -- the lowest node that is there cannot be split: its half would be there as well
  have search : ∀ d, d ≤ below → st (q / 2 ^ d) ≠ absent →
      ∃ k, k < below + 1 ∧ Terminal (st (q / 2 ^ k)) := by
    intro d
    induction d with
    | zero =>
      intro _ there
      refine ⟨0, by omega, ?_⟩
      rw [Nat.pow_zero, Nat.div_one] at there ⊢
      cases status : st q with
      | absent => exact absurd status there
      | free => exact Or.inl rfl
      | live => exact Or.inr rfl
      | split =>
        have deep := tree.depth q status
        omega
    | succ d ih =>
      intro less there
      cases status : st (q / 2 ^ (d + 1)) with
      | absent => exact absurd status there
      | free => exact ⟨d + 1, by omega, Or.inl status⟩
      | live => exact ⟨d + 1, by omega, Or.inr status⟩
      | split =>
        have some := tree.one_le there
        rw [Nat.pow_succ, ← Nat.div_div_eq_div_mul] at status some
        exact ih (by omega) ((tree.child _ (by omega)).mpr status)
  exact search below (Nat.le_refl below) (by rw [top]; exact tree.root)

theorem Tree.unique {q a b : Nat} (first : Terminal (st (q / 2 ^ a)))
    (second : Terminal (st (q / 2 ^ b))) : a = b := by
  have apart : ∀ a b, a < b → Terminal (st (q / 2 ^ a)) → ¬ Terminal (st (q / 2 ^ b)) := by
    intro a b less low high
    have some := tree.one_le high.there
    obtain ⟨k, rfl⟩ : ∃ k, b = a + (k + 1) := ⟨b - a - 1, by omega⟩
    rw [Nat.pow_add, ← Nat.div_div_eq_div_mul] at high some
    exact high.not_split (tree.above low.there k some)
  rcases Nat.lt_trichotomy a b with less | same | more
  · exact absurd second (apart a b less first)
  · exact same
  · exact absurd first (apart b a more second)

/-- With nothing live the whole is one free node. -/
theorem Tree.collapsed (joined : NoFreePair st) (idle : ∀ j, st j ≠ live) :
    st 1 = free ∧ ∀ j, j ≠ 1 → st j = absent := by
  -- a split node has a split half, which is deeper
  have whole : ∀ n j, 2 ^ levels - j = n → st j ≠ split := by
    intro n
    induction n using Nat.strongRecOn with
    | ind n ih =>
      intro j distance isSplit
      have deep := tree.depth j isSplit
      have some := tree.one_le (j := j) (by rw [isSplit]; decide)
      have half : ∀ c, c / 2 = j → st c = free := by
        intro c parent
        have there := (tree.child c (by omega)).mpr (parent ▸ isSplit)
        have lower := ih (2 ^ levels - c) (by omega) c rfl
        have unused := idle c
        cases status : st c with
        | absent => exact absurd status there
        | free => rfl
        | live => exact absurd status unused
        | split => exact absurd status lower
      exact joined j some ⟨half (2 * j) (by omega), half (2 * j + 1) (by omega)⟩
  have gone : ∀ j, j ≠ 1 → st j = absent := by
    intro j other
    by_cases zero : j = 0
    · rw [zero]
      exact tree.zero
    · by_contra there
      exact whole _ (j / 2) rfl ((tree.child j (by omega)).mp there)
  refine ⟨?_, gone⟩
  cases status : st 1 with
  | absent => exact absurd status tree.root
  | free => rfl
  | live => exact absurd status (idle 1)
  | split => exact absurd status (whole _ 1 rfl)

end Tree

theorem NoFreePair.take (joined : NoFreePair st) (j : Nat) :
    NoFreePair (Function.update st j live) := by
  intro i some both
  have old := joined i some
  simp only [Function.update_apply] at both
  grind

theorem NoFreePair.halve (joined : NoFreePair st) (j : Nat) : NoFreePair (halve st j) := by
  intro i one both
  have old := joined i one
  simp only [halve_apply] at both
  grind

theorem NoFreePair.join (joined : NoFreePair st) (j : Nat) : NoFreePair (join st j) := by
  intro i one both
  have old := joined i one
  simp only [join_apply] at both
  grind

theorem NoFreePair.give (joined : NoFreePair st) {j : Nat}
    (left : ∀ i, j = 2 * i → st (2 * i + 1) ≠ free)
    (right : ∀ i, j = 2 * i + 1 → st (2 * i) ≠ free) :
    NoFreePair (Function.update st j free) := by
  intro i some both
  have old := joined i some
  have left := left i
  have right := right i
  simp only [Function.update_apply] at both
  grind

end Rules

def sibling (c : Nat) : Nat := if c % 2 = 0 then c + 1 else c - 1

def joinLevel (st : Nat → Status) : Nat → Nat → Nat
  | 0, _ => 0
  | l + 1, c => if st (sibling c) = free then joinLevel st l (c / 2) else l + 1

theorem sibling_half (c : Nat) (two : 2 ≤ c) : sibling c / 2 = c / 2 ∧ sibling c ≠ c := by
  unfold sibling
  split <;> omega

theorem sibling_other {c b : Nat} (half : b / 2 = c / 2) (other : b ≠ c) : b = sibling c := by
  unfold sibling
  split <;> omega

def At (l j : Nat) : Prop := 2 ^ l ≤ j ∧ j < 2 ^ (l + 1)

def offset (e l j : Nat) : Nat := (j - 2 ^ l) * 2 ^ (e - l)

section Spans
variable {levels e l m j i o : Nat} {st : Nat → Status}

theorem At.one_le (level : At l j) : 1 ≤ j := by
  have positive : 0 < 2 ^ l := Nat.pow_pos (by decide)
  exact Nat.le_trans positive level.1

theorem At.unique (first : At l j) (second : At m j) : l = m := by
  have apart : ∀ a b, At a j → At b j → ¬ a < b := by
    intro a b low high less
    have mono : 2 ^ (a + 1) ≤ 2 ^ b := Nat.pow_le_pow_right (by decide) less
    have above := low.2
    have below := high.1
    omega
  have one := apart l m first second
  have two := apart m l second first
  omega

theorem At.parent {c : Nat} (level : At (l + 1) c) : At l (c / 2) := by
  obtain ⟨low, high⟩ := level
  rw [Nat.pow_succ] at low high
  exact ⟨by omega, by omega⟩

theorem At.child {c : Nat} (level : At l j) (half : c / 2 = j) : At (l + 1) c := by
  obtain ⟨low, high⟩ := level
  refine ⟨?_, ?_⟩ <;> rw [Nat.pow_succ] <;> omega

theorem At.root : At 0 1 := ⟨by decide, by decide⟩

theorem At.below (level : At l j) (low : l < levels) : j < 2 ^ levels :=
  Nat.lt_of_lt_of_le level.2 (Nat.pow_le_pow_right (by decide) low)

theorem At.of_root (level : At 0 j) : j = 1 := by
  obtain ⟨low, high⟩ := level
  rw [Nat.pow_zero] at low
  rw [Nat.zero_add, Nat.pow_one] at high
  omega

theorem Tree.at_level {st : Nat → Status} (tree : Tree levels st) (some : 1 ≤ levels)
    (there : st j ≠ absent) : ∃ l < levels, At l j := by
  have positive := tree.one_le there
  have bound := tree.bound some there
  have level : At (Nat.log2 j) j := ⟨Nat.log2_self_le (by omega), Nat.lt_log2_self⟩
  refine ⟨Nat.log2 j, ?_, level⟩
  exact (Nat.pow_lt_pow_iff_right (a := 2) (by decide)).mp (Nat.lt_of_le_of_lt level.1 bound)

theorem At.two_le (level : At (l + 1) j) : 2 ≤ j := by
  have positive : 0 < 2 ^ l := Nat.pow_pos (by decide)
  have low := level.1
  rw [Nat.pow_succ] at low
  omega

theorem span_iff (level : At l j) (deep : l ≤ e) :
    offset e l j ≤ o ∧ o < offset e l j + 2 ^ (e - l) ↔ (2 ^ e + o) / 2 ^ (e - l) = j := by
  have positive : 0 < 2 ^ (e - l) := Nat.pow_pos (by decide)
  have whole : 2 ^ e = 2 ^ l * 2 ^ (e - l) := by
    rw [← Nat.pow_add]
    congr 1
    omega
  have start : 2 ^ e + offset e l j = j * 2 ^ (e - l) := by
    rw [offset, whole, ← Nat.add_mul]
    congr 1
    have low := level.1
    omega
  rw [Nat.div_eq_iff positive]
  omega

theorem offset_inside (level : At l j) (deep : l ≤ e) : offset e l j + 2 ^ (e - l) ≤ 2 ^ e := by
  have step : (j - 2 ^ l + 1) * 2 ^ (e - l) ≤ 2 ^ l * 2 ^ (e - l) := by
    refine Nat.mul_le_mul_right _ ?_
    have high := level.2
    rw [Nat.pow_succ] at high
    omega
  have whole : 2 ^ l * 2 ^ (e - l) = 2 ^ e := by
    rw [← Nat.pow_add]
    congr 1
    omega
  rw [Nat.add_mul, Nat.one_mul] at step
  unfold offset
  omega

theorem power_half (deep : l < e) : 2 ^ (e - l) = 2 * 2 ^ (e - (l + 1)) := by
  rw [← Nat.pow_succ']
  congr 1
  omega

theorem offset_left (deep : l < e) : offset e (l + 1) (2 * j) = offset e l j := by
  unfold offset
  rw [power_half deep, ← Nat.mul_assoc, Nat.pow_succ]
  congr 1
  omega

theorem offset_right (level : At l j) (deep : l < e) :
    offset e (l + 1) (2 * j + 1) = offset e l j + 2 ^ (e - (l + 1)) := by
  have low := level.1
  unfold offset
  rw [power_half deep, ← Nat.mul_assoc, Nat.pow_succ, ← Nat.succ_mul]
  congr 1
  omega

theorem Tree.apart (tree : Tree levels st) (deep : levels ≤ e + 1) (one : At l j)
    (first : Terminal (st j)) (two : At m i) (second : Terminal (st i)) (low : l < levels)
    (high : m < levels) (mine : offset e l j ≤ o ∧ o < offset e l j + 2 ^ (e - l))
    (yours : offset e m i ≤ o ∧ o < offset e m i + 2 ^ (e - m)) : j = i ∧ l = m := by
  have path : ∀ k, k < levels → (2 ^ e + o) / 2 ^ (e - k) =
      (2 ^ e + o) / 2 ^ (e - (levels - 1)) / 2 ^ (levels - 1 - k) := by
    intro k less
    rw [Nat.div_div_eq_div_mul, ← Nat.pow_add]
    congr 2
    omega
  have here := (span_iff one (by omega)).mp mine
  have there := (span_iff two (by omega)).mp yours
  rw [path l low] at here
  rw [path m high] at there
  rw [← here] at first
  rw [← there] at second
  have same := tree.unique first second
  have level : l = m := by omega
  exact ⟨by rw [← here, ← there, level], level⟩

theorem Tree.covers (tree : Tree levels st) (deep : levels ≤ e + 1) (some : 1 ≤ levels)
    (inside : o < 2 ^ e) :
    ∃ l j, l < levels ∧ At l j ∧ Terminal (st j) ∧ offset e l j ≤ o ∧
      o < offset e l j + 2 ^ (e - l) := by
  obtain ⟨below, rfl⟩ : ∃ below, levels = below + 1 := ⟨levels - 1, by omega⟩
  have positive : 0 < 2 ^ (e - below) := Nat.pow_pos (by decide)
  have whole : 2 ^ e = 2 ^ below * 2 ^ (e - below) := by
    rw [← Nat.pow_add]
    congr 1
    omega
  have leafLow : 2 ^ below ≤ (2 ^ e + o) / 2 ^ (e - below) := by
    rw [Nat.le_div_iff_mul_le positive]
    omega
  have leafHigh : (2 ^ e + o) / 2 ^ (e - below) < 2 ^ (below + 1) := by
    rw [Nat.div_lt_iff_lt_mul positive, Nat.pow_succ, Nat.mul_assoc, Nat.mul_comm 2,
      ← Nat.mul_assoc, ← whole]
    omega
  obtain ⟨k, less, terminal⟩ := tree.cover (by rw [Nat.pow_succ]; omega) leafHigh
  rw [Nat.div_div_eq_div_mul, ← Nat.pow_add] at terminal
  have exponent : e - below + k = e - (below - k) := by omega
  rw [exponent] at terminal
  have level : At (below - k) ((2 ^ e + o) / 2 ^ (e - (below - k))) := by
    have power : 0 < 2 ^ (e - (below - k)) := Nat.pow_pos (by decide)
    have total : 2 ^ e = 2 ^ (below - k) * 2 ^ (e - (below - k)) := by
      rw [← Nat.pow_add]
      congr 1
      omega
    refine ⟨?_, ?_⟩
    · rw [Nat.le_div_iff_mul_le power]
      omega
    · rw [Nat.div_lt_iff_lt_mul power, Nat.pow_succ, Nat.mul_assoc, Nat.mul_comm 2,
        ← Nat.mul_assoc, ← total]
      omega
  exact ⟨below - k, _, by omega, level, terminal,
    (span_iff level (by omega)).mpr rfl⟩

theorem span_above (level : At m i) (deep : m ≤ e) (higher : l ≤ m)
    (inside : offset e m i ≤ o ∧ o < offset e m i + 2 ^ (e - m)) :
    (2 ^ e + o) / 2 ^ (e - l) = i / 2 ^ (m - l) := by
  rw [← (span_iff level deep).mp inside, Nat.div_div_eq_div_mul, ← Nat.pow_add]
  congr 2
  omega

/-- Where the live nodes are those before a front, the deepest free node starts at it. -/
theorem Tree.deepest_free (tree : Tree levels st) (joined : NoFreePair st)
    (deep : levels ≤ e + 1) {front : Nat}
    (before : ∀ l j o, At l j → l < levels → Terminal (st j) → offset e l j ≤ o →
      o < offset e l j + 2 ^ (e - l) → (st j = live ↔ o < front))
    (level : At l j) (low : l < levels) (isFree : st j = free)
    (deepest : ∀ m i, At m i → st i = free → m ≤ l) : offset e l j = front := by
  have power : 0 < 2 ^ (e - l) := Nat.pow_pos (by decide)
  have after : front ≤ offset e l j := by
    by_contra early
    have isLive := (before l j _ level low (Or.inl isFree) (Nat.le_refl _) (by omega)).mpr
      (Nat.not_le.mp early)
    rw [isFree] at isLive
    cases isLive
  cases l with
  | zero =>
    rw [level.of_root, offset, Nat.pow_zero, Nat.sub_self, Nat.zero_mul] at after ⊢
    omega
  | succ l =>
    have half := sibling_half j level.two_le
    have beside : At (l + 1) (sibling j) := level.parent.child half.1
    -- what covers a point of the other half is live
    have other : ∀ o, offset e (l + 1) (sibling j) ≤ o →
        o < offset e (l + 1) (sibling j) + 2 ^ (e - (l + 1)) → o < front := by
      intro o first last
      have inside := offset_inside beside (e := e) (by omega)
      obtain ⟨m, i, small, at_i, terminal, within⟩ :=
        tree.covers (o := o) deep (by omega) (by omega)
      refine (before m i o at_i small terminal within.1 within.2).mp
        (terminal.resolve_left fun isFree' => ?_)
      have high := deepest m i at_i isFree'
      have above := span_above beside (by omega) high ⟨first, last⟩
      rw [(span_iff at_i (by omega)).mp within] at above
      rcases Nat.lt_or_eq_of_le high with less | rfl
      · have same : i = j / 2 ^ (l - m + 1) := by
          rw [above, show l + 1 - m = l - m + 1 by omega, Nat.pow_succ',
            ← Nat.div_div_eq_div_mul, half.1, Nat.div_div_eq_div_mul]
        have parent := tree.above (c := j) (by rw [isFree]; decide) (l - m)
        rw [← same, isFree'] at parent
        cases parent at_i.one_le
      · rw [Nat.sub_self, Nat.pow_zero, Nat.div_one] at above
        have pair := joined (j / 2) level.parent.one_le
        rw [above] at isFree'
        unfold sibling at isFree'
        split at isFree'
        · exact pair ⟨by rwa [show 2 * (j / 2) = j by omega],
            by rwa [show 2 * (j / 2) + 1 = j + 1 by omega]⟩
        · exact pair ⟨by rwa [show 2 * (j / 2) = j - 1 by omega],
            by rwa [show 2 * (j / 2) + 1 = j by omega]⟩
    have left := offset_left (e := e) (j := j / 2) (show l < e by omega)
    have right := offset_right (e := e) level.parent (show l < e by omega)
    unfold sibling at other
    split at other
    · rw [show 2 * (j / 2) = j by omega] at left
      rw [show 2 * (j / 2) + 1 = j + 1 by omega] at right
      have less := other _ (Nat.le_refl _) (by omega)
      omega
    · rw [show 2 * (j / 2) = j - 1 by omega] at left
      rw [show 2 * (j / 2) + 1 = j by omega] at right
      have less := other (offset e (l + 1) j - 1) (by omega) (by omega)
      omega

/-- A node is split when and only when a free or live node of a lower level lies in it. -/
theorem Tree.split_iff (tree : Tree levels st) (deep : levels ≤ e + 1) (level : At l j)
    (low : l < levels) :
    st j = split ↔ ∃ m i, l < m ∧ m < levels ∧ At m i ∧ Terminal (st i) ∧
      ∀ o, offset e m i ≤ o ∧ o < offset e m i + 2 ^ (e - m) →
        offset e l j ≤ o ∧ o < offset e l j + 2 ^ (e - l) := by
  have power : ∀ k, 0 < 2 ^ (e - k) := fun k => Nat.pow_pos (by decide)
  constructor
  · intro isSplit
    have first : offset e l j ≤ offset e l j ∧ offset e l j < offset e l j + 2 ^ (e - l) :=
      ⟨Nat.le_refl _, Nat.lt_add_of_pos_right (power l)⟩
    have whole := offset_inside level (e := e) (by omega)
    have positive := power l
    obtain ⟨m, i, small, at_i, terminal, inside⟩ :=
      tree.covers deep (by omega) (o := offset e l j) (by omega)
    have lower : l < m := by
      by_contra higher
      have above := span_above level (by omega) (show m ≤ l by omega) first
      rw [(span_iff at_i (by omega)).mp inside] at above
      by_cases same : l = m
      · rw [same, Nat.sub_self, Nat.pow_zero, Nat.div_one] at above
        rw [above] at terminal
        exact terminal.not_split isSplit
      · obtain ⟨k, distance⟩ : ∃ k, l - m = k + 1 := ⟨l - m - 1, by omega⟩
        rw [distance] at above
        have there : st j ≠ absent := by
          rw [isSplit]
          decide
        have upper := tree.above there k (above ▸ at_i.one_le)
        rw [← above] at upper
        exact terminal.not_split upper
    refine ⟨m, i, lower, small, at_i, terminal, ?_⟩
    intro o member
    rw [span_iff level (by omega), span_above at_i (by omega) (by omega) member,
      ← span_above at_i (by omega) (by omega) inside]
    exact (span_iff level (by omega)).mp first
  · rintro ⟨m, i, lower, small, at_i, terminal, inside⟩
    have first : offset e m i ≤ offset e m i ∧ offset e m i < offset e m i + 2 ^ (e - m) :=
      ⟨Nat.le_refl _, Nat.lt_add_of_pos_right (power m)⟩
    have above := span_above at_i (by omega) (show l ≤ m by omega) first
    rw [(span_iff level (by omega)).mp (inside _ first)] at above
    obtain ⟨k, distance⟩ : ∃ k, m - l = k + 1 := ⟨m - l - 1, by omega⟩
    rw [distance] at above
    rw [above]
    exact tree.above terminal.there k (above ▸ level.one_le)

end Spans

end BuddyTree
