import Mathlib.Data.List.Basic
import Mathlib.Tactic.Common

/- A search for a gap among spans: from a place on it jumps past the first span in its way, to
   the next multiple of a granule, up to a limit. Spans may come in any order. -/
namespace GapSearch

structure Span where
  start : Nat
  stop : Nat

def Span.Hit (a : Span) (size p : Nat) : Prop := a.start < p + size ∧ p < a.stop

instance (a : Span) (size p : Nat) : Decidable (a.Hit size p) := inferInstanceAs (Decidable (_ ∧ _))

def Free (spans : List Span) (size p : Nat) : Prop := ∀ a ∈ spans, ¬ a.Hit size p

def roundUp (granule e : Nat) : Nat := (e + granule - 1) / granule * granule

/-- The search with the number of rounds it may take: no result when they do not suffice, a free
    place, or the span that leads past the limit. -/
def climb (spans : List Span) (granule limit size : Nat) : Nat → Nat → Option (Span ⊕ Nat)
  | 0, _ => none
  | rounds + 1, p =>
    match spans.find? fun a => a.Hit size p with
    | none => some (.inr p)
    | some a =>
      if roundUp granule a.stop > limit then some (.inl a)
      else climb spans granule limit size rounds (roundUp granule a.stop)

def Candidate (granule limit s p : Nat) : Prop := p = s ∨ s < p ∧ p ≤ limit ∧ granule ∣ p

def First (spans : List Span) (granule limit size s p : Nat) : Prop :=
  Candidate granule limit s p ∧ Free spans size p ∧
    ∀ q < p, Candidate granule limit s q → ¬ Free spans size q

variable {spans : List Span} {granule limit size s p q e : Nat}

theorem le_roundUp (positive : 0 < granule) : e ≤ roundUp granule e := by
  unfold roundUp
  have split := Nat.div_add_mod (e + granule - 1) granule
  have small := Nat.mod_lt (e + granule - 1) positive
  rw [Nat.mul_comm] at split
  omega

theorem dvd_roundUp : granule ∣ roundUp granule e := Nat.dvd_mul_left ..

theorem roundUp_least (positive : 0 < granule) (aligned : granule ∣ q) (above : e ≤ q) :
    roundUp granule e ≤ q := by
  obtain ⟨k, rfl⟩ := aligned
  unfold roundUp
  rw [Nat.mul_comm granule k]
  refine Nat.mul_le_mul_right granule (Nat.lt_succ_iff.mp ?_)
  rw [Nat.div_lt_iff_lt_mul positive, Nat.succ_mul, Nat.mul_comm k]
  omega

theorem free_iff : Free spans size p ↔ spans.find? (fun a => a.Hit size p) = none := by
  rw [List.find?_eq_none]
  unfold Free
  simp only [decide_eq_true_eq]

theorem First.unique (one : First spans granule limit size s p)
    (other : First spans granule limit size s q) : p = q := by
  rcases Nat.lt_trichotomy p q with less | same | more
  · exact absurd one.2.1 (other.2.2 p less one.1)
  · exact same
  · exact absurd other.2.1 (one.2.2 q more other.1)

theorem not_free_below (positive : 0 < granule) {a : Span} (member : a ∈ spans)
    (hit : a.Hit size s) (later : s < q) (aligned : granule ∣ q)
    (below : q < roundUp granule a.stop) :
    ¬ Free spans size q := by
  intro free
  refine free a member ⟨by have := hit.1; omega, ?_⟩
  by_contra past
  have least := roundUp_least positive aligned (Nat.not_lt.mp past)
  omega

def ahead (spans : List Span) (s : Nat) : Nat := spans.countP fun a => s < a.stop

theorem ahead_lt {a : Span} (member : a ∈ spans) (inside : s < a.stop) (past : a.stop ≤ q) :
    ahead spans q < ahead spans s := by
  unfold ahead
  induction spans with
  | nil => cases member
  | cons b rest ih =>
    have fewer : rest.countP (fun a => q < a.stop) ≤ rest.countP fun a => s < a.stop := by
      refine List.countP_mono_left fun c _ behind => ?_
      simp only [decide_eq_true_eq] at behind ⊢
      omega
    rw [List.countP_cons, List.countP_cons]
    rcases List.mem_cons.mp member with rfl | later
    · rw [if_neg (by simp only [decide_eq_true_eq]; omega),
        if_pos (by simp only [decide_eq_true_eq]; exact inside)]
      omega
    · have less := ih later
      by_cases behind : q < b.stop
      · rw [if_pos (by simpa using behind), if_pos (by simp only [decide_eq_true_eq]; omega)]
        omega
      · rw [if_neg (by simpa using behind)]
        omega

/-- The search ends at the first free place, or at a span that leads past the limit when there is
    none. -/
theorem climb_spec (positive : 0 < granule) (rounds : Nat) (enough : ahead spans s < rounds) :
    (∃ p, climb spans granule limit size rounds s = some (.inr p) ∧
      First spans granule limit size s p) ∨
    (∃ a, climb spans granule limit size rounds s = some (.inl a)) ∧
      ∀ p, Candidate granule limit s p → ¬ Free spans size p := by
  induction rounds generalizing s with
  | zero => omega
  | succ rounds ih =>
    unfold climb
    cases found : spans.find? fun a => a.Hit size s with
    | none =>
      refine Or.inl ⟨s, rfl, Or.inl rfl, free_iff.mpr found, fun q less candidate => ?_⟩
      rcases candidate with rfl | ⟨later, -⟩
      · exact absurd less (Nat.lt_irrefl q)
      · omega
    | some a =>
      have member := List.mem_of_find?_eq_some found
      have hit : a.Hit size s := by simpa using List.find?_some found
      have here : ¬ Free spans size s := fun free => free a member hit
      have past := le_roundUp (e := a.stop) positive
      have jump : s < roundUp granule a.stop := Nat.lt_of_lt_of_le hit.2 past
      dsimp only
      split
      · rename_i beyond
        refine Or.inr ⟨⟨a, rfl⟩, fun p candidate => ?_⟩
        rcases candidate with rfl | ⟨later, short, aligned⟩
        · exact here
        · exact not_free_below positive member hit later aligned (by omega)
      · rename_i within
        have fewer := ahead_lt member hit.2 past
        have skipped : ∀ q, Candidate granule limit s q → q < roundUp granule a.stop →
            ¬ Free spans size q := by
          intro q candidate less
          rcases candidate with rfl | ⟨later, -, aligned⟩
          · exact here
          · exact not_free_below positive member hit later aligned less
        -- from the jump on the places of the search are those of the search from there
        have beyond : ∀ q, Candidate granule limit s q → ¬ q < roundUp granule a.stop →
            Candidate granule limit (roundUp granule a.stop) q := by
          rintro q (rfl | ⟨later, short, aligned⟩) far
          · omega
          · by_cases same : q = roundUp granule a.stop
            · exact Or.inl same
            · exact Or.inr ⟨by omega, short, aligned⟩
        rcases ih (s := roundUp granule a.stop) (by omega) with
          ⟨p, done, candidate, free, least⟩ | ⟨done, none⟩
        · refine Or.inl ⟨p, done, ?_, free, ?_⟩
          · rcases candidate with rfl | ⟨later, short, aligned⟩
            · exact Or.inr ⟨jump, by omega, dvd_roundUp⟩
            · exact Or.inr ⟨by omega, short, aligned⟩
          · intro q less candidate
            by_cases before : q < roundUp granule a.stop
            · exact skipped q candidate before
            · exact least q less (beyond q candidate before)
        · refine Or.inr ⟨done, fun q candidate => ?_⟩
          by_cases before : q < roundUp granule a.stop
          · exact skipped q candidate before
          · exact none q (beyond q candidate before)

end GapSearch
