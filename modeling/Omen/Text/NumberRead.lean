import Mathlib.Data.List.Basic
import Mathlib.Algebra.Group.Nat.Defs

/- `strtoull` of `strings.c`, with the character classes of `ctype.c`. A string is the list of its
   bytes without the terminating zero, which is in no class. -/
namespace OmenText

def isspace (c : UInt8) : Bool := c = 32 ∨ c = 9

def isdigit (c : UInt8) : Bool := 48 ≤ c ∧ c ≤ 57

def isupper (c : UInt8) : Bool := 65 ≤ c ∧ c ≤ 90

def islower (c : UInt8) : Bool := 97 ≤ c ∧ c ≤ 122

def digitOf (c : UInt8) : Option Nat :=
  if isdigit c then some (c.toNat - 48)
  else if isupper c then some (c.toNat - 55)
  else if islower c then some (c.toNat - 87)
  else none

def ullongMax : Nat := 2 ^ 64 - 1

def readDigits (base : Nat) (acc : Nat) (any : Int) : List UInt8 → Nat × Int × List UInt8
  | [] => (acc, any, [])
  | c :: rest =>
    match digitOf c with
    | none => (acc, any, c :: rest)
    | some d =>
      if base ≤ d then (acc, any, c :: rest)
      else if any < 0 ∨ ullongMax / base < acc ∨ acc = ullongMax / base ∧ ullongMax % base < d then
        readDigits base acc (-1) rest
      else readDigits base ((acc * base % 2 ^ 64 + d) % 2 ^ 64) 1 rest

structure Lead where
  neg : Bool
  base : Nat
  digits : List UInt8

def readSign (s : List UInt8) : Bool × List UInt8 :=
  match s with
  | c :: rest => if c = 45 then (true, rest) else if c = 43 then (false, rest) else (false, s)
  | [] => (false, s)

def readBase (base : Nat) (s : List UInt8) : Nat × List UInt8 :=
  match s with
  | c :: x :: rest =>
    if (base = 0 ∨ base = 16) ∧ c = 48 ∧ (x = 120 ∨ x = 88) then (16, rest)
    else (if base = 0 then if c = 48 then 8 else 10 else base, s)
  | c :: [] => (if base = 0 then if c = 48 then 8 else 10 else base, s)
  | [] => (if base = 0 then 10 else base, s)

def lead (nptr : List UInt8) (base : Nat) : Lead :=
  let (neg, s) := readSign (nptr.dropWhile isspace)
  let (base, s) := readBase base s
  ⟨neg, base, s⟩

def strtoull (nptr : List UInt8) (base : Nat) : Nat × List UInt8 :=
  let l := lead nptr base
  let (acc, any, rest) := readDigits l.base 0 0 l.digits
  (if any < 0 then ullongMax else if l.neg then (2 ^ 64 - acc) % 2 ^ 64 else acc,
    if any = 0 then nptr else rest)

def leadingDigits (base : Nat) : List UInt8 → List Nat
  | [] => []
  | c :: rest =>
    match digitOf c with
    | none => []
    | some d => if base ≤ d then [] else d :: leadingDigits base rest

def spelt (base acc : Nat) (digits : List Nat) : Nat := digits.foldl (fun a d => a * base + d) acc

def Lead.digitList (l : Lead) : List Nat := leadingDigits l.base l.digits

def Lead.number (l : Lead) : Nat := spelt l.base 0 l.digitList

section Reading
variable {base acc d : Nat} {any : Int} {s nptr : List UInt8} {ds : List Nat}

theorem le_spelt (positive : 0 < base) : acc ≤ spelt base acc ds := by
  induction ds generalizing acc with
  | nil => exact Nat.le_refl acc
  | cons d ds ih =>
    calc acc ≤ acc * base := Nat.le_mul_of_pos_right acc positive
      _ ≤ acc * base + d := Nat.le_add_right _ d
      _ ≤ spelt base acc (d :: ds) := ih

/-- The test of the loop tells exactly whether one more digit leaves 64 bits. -/
theorem cutoff_iff (positive : 0 < base) (digit : d < base) :
    ullongMax / base < acc ∨ acc = ullongMax / base ∧ ullongMax % base < d ↔
      2 ^ 64 ≤ acc * base + d := by
  have whole := Nat.div_add_mod ullongMax base
  have left := Nat.mod_lt ullongMax positive
  have last : ullongMax + 1 = 2 ^ 64 := by decide
  rcases Nat.lt_trichotomy acc (ullongMax / base) with less | same | more
  · have step : (acc + 1) * base ≤ ullongMax / base * base := Nat.mul_le_mul_right base less
    rw [Nat.add_mul, Nat.mul_comm (ullongMax / base)] at step
    omega
  · rw [same, Nat.mul_comm]
    omega
  · have step : (ullongMax / base + 1) * base ≤ acc * base := Nat.mul_le_mul_right base more
    rw [Nat.add_mul, Nat.mul_comm (ullongMax / base)] at step
    omega

theorem readDigits_skips (acc : Nat) (s : List UInt8) :
    readDigits base acc (-1) s = (acc, -1, s.drop (leadingDigits base s).length) := by
  induction s with
  | nil => rfl
  | cons c rest ih =>
    rw [readDigits, leadingDigits]
    cases digitOf c with
    | none => rfl
    | some d =>
      by_cases large : base ≤ d
      · simp [large]
      · simp [large, ih]

structure Spelt (base acc : Nat) (any : Int) (s : List UInt8) (ds : List Nat)
    (result : Nat × Int × List UInt8) : Prop where
  rest : result.2.2 = s.drop ds.length
  exceeds : 2 ^ 64 ≤ spelt base acc ds → result.2.1 = -1
  fits : spelt base acc ds < 2 ^ 64 →
    result.1 = spelt base acc ds ∧ result.2.1 = if ds = [] then any else 1

theorem spelt_nothing (small : acc < 2 ^ 64) : Spelt base acc any s [] (acc, any, s) :=
  ⟨rfl, fun large => absurd small (Nat.not_lt_of_le large), fun _ => ⟨rfl, rfl⟩⟩

theorem readDigits_spelt (positive : 0 < base) (start : 0 ≤ any) (small : acc < 2 ^ 64) :
    Spelt base acc any s (leadingDigits base s) (readDigits base acc any s) := by
  induction s generalizing acc any with
  | nil => exact spelt_nothing small
  | cons c rest ih =>
    rw [readDigits, leadingDigits]
    cases digitOf c with
    | none => exact spelt_nothing small
    | some d =>
      dsimp only
      by_cases large : base ≤ d
      · rw [if_pos large, if_pos large]
        exact spelt_nothing small
      rw [if_neg large, if_neg large]
      have test := @cutoff_iff base acc d positive (by omega)
      by_cases exceeds : 2 ^ 64 ≤ acc * base + d
      · have more := @le_spelt base (acc * base + d) (leadingDigits base rest) positive
        rw [if_pos (Or.inr (test.mpr exceeds)), readDigits_skips]
        refine ⟨rfl, fun _ => rfl, fun less => ?_⟩
        exact absurd (Nat.le_trans exceeds more) (Nat.not_le_of_lt less)
      · have below : acc * base < 2 ^ 64 := by omega
        rw [if_neg (by rw [test]; omega), Nat.mod_eq_of_lt below, Nat.mod_eq_of_lt (by omega)]
        have later := ih (show (0 : Int) ≤ 1 by decide) (Nat.lt_of_not_le exceeds)
        refine ⟨later.rest, later.exceeds, fun less => ?_⟩
        obtain ⟨value, any⟩ := later.fits less
        exact ⟨value, by rw [any]; simp⟩

theorem readBase_positive (base : Nat) (s : List UInt8) : 0 < (readBase base s).1 := by
  unfold readBase
  split <;> grind

section Strings
variable {nptr : List UInt8} {base : Nat}

theorem strtoull_spelt (nptr : List UInt8) (base : Nat) :
    Spelt (lead nptr base).base 0 0 (lead nptr base).digits (lead nptr base).digitList
      (readDigits (lead nptr base).base 0 0 (lead nptr base).digits) :=
  readDigits_spelt (readBase_positive base _) (Int.le_refl 0) (by decide)

theorem strtoull_fits (small : (lead nptr base).number < 2 ^ 64) :
    strtoull nptr base =
      (if (lead nptr base).neg then (2 ^ 64 - (lead nptr base).number) % 2 ^ 64
        else (lead nptr base).number,
      if (lead nptr base).digitList = [] then nptr
        else (lead nptr base).digits.drop (lead nptr base).digitList.length) := by
  obtain ⟨behind, _, fits⟩ := strtoull_spelt nptr base
  obtain ⟨value, turn⟩ := fits small
  dsimp only [strtoull]
  rw [behind, turn, value, Lead.number]
  generalize (lead nptr base).digitList = ds
  by_cases nothing : ds = []
  · simp [nothing]
  · simp [nothing]

theorem strtoull_exceeds (large : 2 ^ 64 ≤ (lead nptr base).number) :
    strtoull nptr base =
      (2 ^ 64 - 1, (lead nptr base).digits.drop (lead nptr base).digitList.length) := by
  obtain ⟨behind, exceeds, _⟩ := strtoull_spelt nptr base
  dsimp only [strtoull]
  rw [behind, exceeds large]
  rfl

/-- What `strtoull` is for: the number that the leading digits spell, with its sign, or the
    largest one if it does not fit; the string behind them, or all of it if there are none. -/
theorem strtoull_exact (nptr : List UInt8) (base : Nat) :
    strtoull nptr base =
      (if 2 ^ 64 ≤ (lead nptr base).number then 2 ^ 64 - 1
        else if (lead nptr base).neg then (2 ^ 64 - (lead nptr base).number) % 2 ^ 64
        else (lead nptr base).number,
      if (lead nptr base).digitList = [] then nptr
        else (lead nptr base).digits.drop (lead nptr base).digitList.length) := by
  rcases Nat.lt_or_ge (lead nptr base).number (2 ^ 64) with small | large
  · rw [strtoull_fits small, if_neg (Nat.not_le_of_lt small)]
  · have some_digit : (lead nptr base).digitList ≠ [] := by
      intro nothing
      rw [Lead.number, nothing] at large
      exact absurd large (by decide : ¬ 2 ^ 64 ≤ 0)
    rw [strtoull_exceeds large, if_pos large, if_neg some_digit]

end Strings
end Reading
end OmenText
