import Omen.Text.NumberRead

/- The integers of `printf` (`stdio.c`): `_ntoa_long`, which `_ntoa_long_long` repeats word for
   word. The local buffer is filled from the last character of the number to its first. -/
namespace OmenText

def printfNtoaBufferSize : Nat := 32

structure PrintfFlags where
  zeropad : Bool
  left : Bool
  plus : Bool
  space : Bool
  hash : Bool
  uppercase : Bool
  precision : Bool

def digitChar (uppercase : Bool) (digit : Nat) : UInt8 :=
  if digit < 10 then UInt8.ofNat (48 + digit)
  else UInt8.ofNat ((if uppercase then 65 else 97) + digit - 10)

def ntoaDigits (uppercase : Bool) (base : Nat) : Nat → Nat → List UInt8
  | 0, _ => []
  | turns + 1, value =>
    digitChar uppercase (value % base) ::
      if value / base = 0 then [] else ntoaDigits uppercase base turns (value / base)

def push (buf : List UInt8) (c : UInt8) : List UInt8 :=
  if buf.length < printfNtoaBufferSize then buf ++ [c] else buf

def padZeros (buf : List UInt8) (n : Nat) : List UInt8 :=
  buf ++ List.replicate (min n printfNtoaBufferSize - buf.length) 48

def pushHash (buf : List UInt8) (base prec width : Nat) (flags : PrintfFlags) : List UInt8 :=
  let taken := !flags.precision ∧ buf ≠ [] ∧ (buf.length = prec ∨ buf.length = width)
  let buf := if taken then
    if buf.dropLast ≠ [] ∧ base = 16 then buf.dropLast.dropLast else buf.dropLast
    else buf
  let buf := if base = 16 then push buf (if flags.uppercase then 88 else 120)
    else if base = 2 then push buf 98 else buf
  push buf 48

def pushSign (buf : List UInt8) (negative : Bool) (flags : PrintfFlags) : List UInt8 :=
  if negative then push buf 45
  else if flags.plus then push buf 43
  else if flags.space then push buf 32
  else buf

def outRev (buf : List UInt8) (width : Nat) (flags : PrintfFlags) : List UInt8 :=
  let blanks := List.replicate (width - buf.length) 32
  (if !flags.left ∧ !flags.zeropad then blanks else []) ++ buf.reverse ++
    if flags.left then blanks else []

def ntoaFormat (buf : List UInt8) (negative : Bool) (base prec width : Nat)
    (flags : PrintfFlags) : List UInt8 :=
  let shorter := !flags.left ∧ width ≠ 0 ∧ flags.zeropad ∧ (negative ∨ flags.plus ∨ flags.space)
  let width := if shorter then width - 1 else width
  let buf := if flags.left then buf
    else if flags.zeropad then padZeros (padZeros buf prec) width else padZeros buf prec
  let buf := if flags.hash then pushHash buf base prec width flags else buf
  outRev (pushSign buf negative flags) width flags

def ntoaLong (value : Nat) (negative : Bool) (base prec width : Nat) (flags : PrintfFlags) :
    List UInt8 :=
  let flags := if value = 0 then { flags with hash := false } else flags
  let buf := if !flags.precision ∨ value ≠ 0 then
    ntoaDigits flags.uppercase base printfNtoaBufferSize value else []
  ntoaFormat buf negative base prec width flags

section Printing
variable {u : Bool} {base value k turns : Nat} {ds : List Nat} {s : List UInt8}

theorem digitChar_facts (u : Bool) (d : Nat) (digit : d < 36) :
    digitOf (digitChar u d) = some d ∧ isspace (digitChar u d) = false ∧
      digitChar u d ≠ 45 ∧ digitChar u d ≠ 43 ∧
      (d < 16 → digitChar u d ≠ 120 ∧ digitChar u d ≠ 88) := by
  have all : ∀ u : Bool, ∀ d : Fin 36, digitOf (digitChar u d) = some d.val ∧
      isspace (digitChar u d) = false ∧ digitChar u d ≠ 45 ∧ digitChar u d ≠ 43 ∧
      (d.val < 16 → digitChar u d ≠ 120 ∧ digitChar u d ≠ 88) := by decide
  exact all u ⟨d, digit⟩

def lowDigits (base : Nat) : Nat → Nat → List Nat
  | 0, _ => []
  | turns + 1, value =>
    value % base :: if value / base = 0 then [] else lowDigits base turns (value / base)

theorem ntoaDigits_eq : ntoaDigits u base turns value =
    (lowDigits base turns value).map (digitChar u) := by
  induction turns generalizing value with
  | zero => rfl
  | succ turns ih =>
    rw [ntoaDigits, lowDigits, List.map_cons, ih]
    split <;> rfl

theorem lowDigits_small (positive : 0 < base) : ∀ d ∈ lowDigits base turns value, d < base := by
  induction turns generalizing value with
  | zero => simp [lowDigits]
  | succ turns ih =>
    refine List.forall_mem_cons.mpr ⟨Nat.mod_lt value positive, ?_⟩
    split
    · simp
    · exact ih

theorem lowDigits_length (room : value < base ^ (k + 1)) :
    (lowDigits base turns value).length ≤ k + 1 := by
  induction k generalizing value turns with
  | zero =>
    rw [Nat.zero_add, Nat.pow_one] at room
    cases turns with
    | zero => simp [lowDigits]
    | succ turns => simp [lowDigits, Nat.div_eq_of_lt room]
  | succ k ih =>
    cases turns with
    | zero => simp [lowDigits]
    | succ turns =>
      rw [lowDigits]
      split
      · simp
      · have fewer : value / base < base ^ (k + 1) :=
          Nat.div_lt_of_lt_mul (by rwa [← Nat.pow_succ'])
        exact Nat.succ_le_succ (ih fewer)

theorem spelt_lowDigits (room : value < base ^ turns) :
    spelt base 0 (lowDigits base turns value).reverse = value := by
  induction turns generalizing value with
  | zero =>
    rw [Nat.pow_zero, Nat.lt_one_iff] at room
    rw [room]
    rfl
  | succ turns ih =>
    have fewer : value / base < base ^ turns := Nat.div_lt_of_lt_mul (by rwa [← Nat.pow_succ'])
    rw [lowDigits, List.reverse_cons, spelt, List.foldl_append, List.foldl_cons, List.foldl_nil]
    split
    · rename_i last
      simpa [last] using Nat.mod_add_div value base
    · have high := ih fewer
      rw [spelt] at high
      rw [high, Nat.mul_comm]
      exact Nat.div_add_mod value base

theorem spelt_zeros (k : Nat) : spelt base 0 (List.replicate k 0 ++ ds) = spelt base 0 ds := by
  induction k with
  | zero => rfl
  | succ k ih =>
    rw [List.replicate_succ, List.cons_append, spelt, List.foldl_cons, Nat.zero_mul]
    exact ih

theorem leadingDigits_printed (digits : ∀ d ∈ ds, d < base) (few : base ≤ 36) (b : Nat) :
    leadingDigits base (ds.map (digitChar u) ++ List.replicate b 32) = ds := by
  induction ds with
  | nil =>
    cases b with
    | zero => rfl
    | succ b => rfl
  | cons d ds ih =>
    obtain ⟨small, later⟩ := List.forall_mem_cons.mp digits
    obtain ⟨read, -⟩ := digitChar_facts u d (by omega)
    rw [List.map_cons, List.cons_append, leadingDigits, read]
    dsimp only
    rw [if_neg (by omega), ih later]

theorem readBase_printed (digits : ∀ d ∈ ds, d < base) (some_base : 2 ≤ base) (few : base ≤ 36)
    (b : Nat) : readBase base (ds.map (digitChar u) ++ List.replicate b 32) =
      (base, ds.map (digitChar u) ++ List.replicate b 32) := by
  have given : base ≠ 0 := by omega
  have second : ∀ x ∈ ds.map (digitChar u) ++ List.replicate b 32, base = 16 →
      x ≠ 120 ∧ x ≠ 88 := by
    intro x member hex
    rcases List.mem_append.mp member with digit | blank
    · obtain ⟨d, inside, rfl⟩ := List.mem_map.mp digit
      have small := digits d inside
      exact (digitChar_facts u d (by omega)).2.2.2.2 (by omega)
    · rw [List.eq_of_mem_replicate blank]
      decide
  generalize ds.map (digitChar u) ++ List.replicate b 32 = s at *
  rcases s with _ | ⟨c, _ | ⟨x, rest⟩⟩
  · simp [readBase, given]
  · simp [readBase, given]
  · have other := second x (by simp)
    rw [readBase, if_neg (by grind), if_neg given]

def signChars : Option Bool → List UInt8
  | none => []
  | some true => [45]
  | some false => [43]

theorem dropWhile_blanks (a : Nat) (s : List UInt8) :
    (List.replicate a 32 ++ s).dropWhile isspace = s.dropWhile isspace := by
  induction a with
  | zero => rfl
  | succ a ih => exact ih

theorem lead_printed (digits : ∀ d ∈ ds, d < base) (some_base : 2 ≤ base) (few : base ≤ 36)
    (sign : Option Bool) (a b : Nat) :
    let l := lead (List.replicate a 32 ++
      (signChars sign ++ (ds.map (digitChar u) ++ List.replicate b 32))) base
    l.neg = decide (sign = some true) ∧ l.base = base ∧ leadingDigits base l.digits = ds := by
  have read := @leadingDigits_printed u base ds digits few b
  have same := @readBase_printed u base ds digits some_base few b
  dsimp only [lead]
  rw [dropWhile_blanks]
  cases sign with
  | none =>
    rw [signChars, List.nil_append]
    cases ds with
    | nil =>
      have blank := dropWhile_blanks b []
      rw [List.append_nil] at blank
      rw [List.map_nil, List.nil_append, blank]
      have given : base ≠ 0 := by omega
      simp [readSign, readBase, given, leadingDigits]
    | cons d ds =>
      have small := (List.forall_mem_cons.mp digits).1
      obtain ⟨-, print, minus, plus, -⟩ := digitChar_facts u d (by omega)
      have kept : readSign
          (((d :: ds).map (digitChar u) ++ List.replicate b 32).dropWhile isspace) =
          (false, (d :: ds).map (digitChar u) ++ List.replicate b 32) := by
        simp [print, readSign, minus, plus]
      rw [kept, same]
      exact ⟨rfl, rfl, read⟩
  | some minus =>
    cases minus with
    | true =>
      have kept : ∀ s : List UInt8, readSign ((45 :: s).dropWhile isspace) = (true, s) :=
        fun s => rfl
      rw [signChars, List.singleton_append, kept, same]
      exact ⟨rfl, rfl, read⟩
    | false =>
      have kept : ∀ s : List UInt8, readSign ((43 :: s).dropWhile isspace) = (false, s) :=
        fun s => rfl
      rw [signChars, List.singleton_append, kept, same]
      exact ⟨rfl, rfl, read⟩

theorem number_eq {l : Lead} (same : l.base = base) (read : leadingDigits base l.digits = ds) :
    l.number = spelt base 0 ds := by
  rw [Lead.number, Lead.digitList, same, read]

theorem strtoull_printed (digits : ∀ d ∈ ds, d < base) (some_base : 2 ≤ base) (few : base ≤ 36)
    (small : spelt base 0 ds < 2 ^ 64) (sign : Option Bool) (a b : Nat) :
    (strtoull (List.replicate a 32 ++
      (signChars sign ++ (ds.map (digitChar u) ++ List.replicate b 32))) base).1 =
      if sign = some true then (2 ^ 64 - spelt base 0 ds) % 2 ^ 64 else spelt base 0 ds := by
  obtain ⟨neg, same, read⟩ := @lead_printed u base ds digits some_base few sign a b
  have number := number_eq same read
  rw [strtoull_fits (by rw [number]; exact small), number, neg]
  simp only [decide_eq_true_eq]

theorem pushSign_form (buf : List UInt8) (negative : Bool) (flags : PrintfFlags) :
    ∃ a sign, (pushSign buf negative flags).reverse =
        List.replicate a 32 ++ (signChars sign ++ buf.reverse) ∧
      (sign = some true → negative = true) ∧
      (negative = true → buf.length < 32 → sign = some true) := by
  by_cases room : buf.length < 32
  · cases negative with
    | true => exact ⟨0, some true, by simp [pushSign, push, printfNtoaBufferSize, room, signChars],
        fun _ => rfl, fun _ _ => rfl⟩
    | false =>
      by_cases plus : flags.plus = true
      · exact ⟨0, some false, by simp [pushSign, push, printfNtoaBufferSize, room, plus, signChars],
          by simp, by simp⟩
      · by_cases space : flags.space = true
        · exact ⟨1, none, by
            simp [pushSign, push, printfNtoaBufferSize, room, plus, space,
              signChars], by simp, by simp⟩
        · exact ⟨0, none, by simp [pushSign, plus, space, signChars], by simp, by simp⟩
  · exact ⟨0, none, by simp [pushSign, push, printfNtoaBufferSize, room, signChars], by simp,
      fun _ less => absurd less room⟩

theorem padding_form (buf : List UInt8) (prec width : Nat) (flags : PrintfFlags) :
    ∃ k, (if flags.left then buf
      else if flags.zeropad then padZeros (padZeros buf prec) width else padZeros buf prec) =
        buf ++ List.replicate k 48 ∧
      (buf.length < 32 → (flags.left = false → prec < 32 ∧ (flags.zeropad = true → width < 32)) →
        buf.length + k < 32) := by
  unfold padZeros printfNtoaBufferSize
  split
  · exact ⟨0, by simp, fun few _ => few⟩
  · split
    · refine ⟨min prec 32 - buf.length + (min width 32 - (buf.length + (min prec 32 - buf.length))),
        ?_, ?_⟩
      · rw [List.append_assoc, List.replicate_append_replicate, List.length_append,
          List.length_replicate]
      · simp_all
        omega
    · refine ⟨_, rfl, fun few padded => ?_⟩
      have low := (padded (eq_false_of_ne_true ‹_›)).1
      omega

theorem outRev_form (buf : List UInt8) (width : Nat) (flags : PrintfFlags) :
    ∃ a b, outRev buf width flags =
      List.replicate a 32 ++ (buf.reverse ++ List.replicate b 32) := by
  rw [outRev]
  cases flags.left
  · cases flags.zeropad
    · exact ⟨width - buf.length, 0, by simp⟩
    · exact ⟨0, 0, by simp⟩
  · exact ⟨0, width - buf.length, by simp⟩

theorem ntoaFormat_form (buf : List UInt8) (negative : Bool) (prec width : Nat)
    (flags : PrintfFlags) (plain : flags.hash = false)
    (room : negative = true → buf.length < 32 ∧
      (flags.left = false → prec < 32 ∧ (flags.zeropad = true → width ≤ 32))) :
    ∃ a b k sign, ntoaFormat buf negative base prec width flags = List.replicate a 32 ++
        (signChars sign ++ (List.replicate k 48 ++ buf.reverse ++ List.replicate b 32)) ∧
      (sign = some true ↔ negative = true) := by
  unfold ntoaFormat
  dsimp only
  rw [plain, if_neg Bool.false_ne_true]
  generalize shown : (if (!flags.left) = true ∧ width ≠ 0 ∧ flags.zeropad = true ∧
    (negative = true ∨ flags.plus = true ∨ flags.space = true) then width - 1 else width) = w
  obtain ⟨k, padded, short⟩ := padding_form buf prec w flags
  rw [padded]
  obtain ⟨a, sign, signed, only, kept⟩ := pushSign_form (buf ++ List.replicate k 48) negative flags
  obtain ⟨front, back, out⟩ := outRev_form (pushSign (buf ++ List.replicate k 48) negative flags) w
    flags
  refine ⟨front + a, back, k, sign, ?_, only, fun minus => kept minus ?_⟩
  · rw [out, signed, List.reverse_append, List.reverse_replicate, ← List.replicate_append_replicate]
    simp only [List.append_assoc]
  · obtain ⟨few, padding⟩ := room minus
    have inside := short few fun left => by
      obtain ⟨low, wide⟩ := padding left
      refine ⟨low, fun zeropad => ?_⟩
      have most := wide zeropad
      rw [← shown]
      split
      · omega
      · simp_all
    rwa [List.length_append, List.length_replicate]

theorem ntoaLong_buffer {flags : PrintfFlags} (some_base : 2 ≤ base) (fits : value < base ^ 32) :
    ∃ ds : List Nat, (if (!flags.precision) = true ∨ value ≠ 0 then
        ntoaDigits flags.uppercase base printfNtoaBufferSize value else []) =
          ds.map (digitChar flags.uppercase) ∧ (∀ d ∈ ds, d < base) ∧
      spelt base 0 ds.reverse = value ∧ (value < base ^ 31 → ds.length < 32) := by
  split
  · refine ⟨lowDigits base 32 value, ntoaDigits_eq, lowDigits_small (by omega),
      spelt_lowDigits fits, fun short => ?_⟩
    exact Nat.lt_succ_of_le (@lowDigits_length base value 30 32 short)
  · rename_i nothing
    have zero : value = 0 := by
      by_contra some_value
      exact nothing (Or.inr some_value)
    exact ⟨[], rfl, by simp, zero.symm, by simp⟩

/-- Every integer that `printf` prints, with any precision, width and flags but `#`, is read back
    by `strtoull`: a number of 64 bits with its sign. The digits have to fit into the buffer of 32
    characters, and for a minus the digits and the zeros that are added have to leave room. -/
theorem strtoull_ntoaLong (value base prec width : Nat) (negative : Bool) (flags : PrintfFlags)
    (some_base : 2 ≤ base) (few : base ≤ 36) (small : value < 2 ^ 64) (fits : value < base ^ 32)
    (plain : flags.hash = false)
    (signed : negative = true → value < base ^ 31 ∧
      (flags.left = false → prec < 32 ∧ (flags.zeropad = true → width ≤ 32))) :
    (strtoull (ntoaLong value negative base prec width flags) base).1 =
      if negative then (2 ^ 64 - value) % 2 ^ 64 else value := by
  obtain ⟨ds, buffer, below, spells, length⟩ := @ntoaLong_buffer base value flags some_base fits
  have same : ntoaLong value negative base prec width flags =
      ntoaFormat (ds.map (digitChar flags.uppercase)) negative base prec width flags := by
    have unhashed : (if value = 0 then { flags with hash := false } else flags) = flags := by
      rw [← plain, ite_self]
    rw [ntoaLong, unhashed, buffer]
  obtain ⟨a, b, k, sign, form, minus⟩ := @ntoaFormat_form base
    (ds.map (digitChar flags.uppercase)) negative prec width flags plain (by
      intro isNegative
      obtain ⟨short, padding⟩ := signed isNegative
      exact ⟨by rw [List.length_map]; exact length short, padding⟩)
  have zeros : List.replicate k 48 ++ (ds.map (digitChar flags.uppercase)).reverse =
      (List.replicate k 0 ++ ds.reverse).map (digitChar flags.uppercase) := by
    rw [List.map_append, List.map_replicate, List.map_reverse]
    rfl
  have spelled : spelt base 0 (List.replicate k 0 ++ ds.reverse) = value :=
    (spelt_zeros k).trans spells
  have inside : ∀ d ∈ List.replicate k 0 ++ ds.reverse, d < base := by
    intro d member
    rcases List.mem_append.mp member with zero | digit
    · rw [List.eq_of_mem_replicate zero]
      omega
    · exact below d (List.mem_reverse.mp digit)
  rw [same, form, zeros, strtoull_printed inside some_base few (by rw [spelled]; exact small),
    spelled]
  simp only [minus]

/-- `%010X` of −255 and `%40d` of −5 are read back as the numbers of 64 bits they are. -/
theorem strtoull_ntoaLong_minus :
    (strtoull (ntoaLong 255 true 16 0 10 ⟨true, false, false, false, false, true, false⟩) 16).1 =
        2 ^ 64 - 255 ∧
      (strtoull (ntoaLong 5 true 10 0 40 ⟨false, false, false, false, false, false, false⟩) 10).1 =
        2 ^ 64 - 5 :=
  ⟨(strtoull_ntoaLong 255 16 0 10 true _ (by decide) (by decide) (by decide) (by decide) rfl
      (fun _ => by decide)).trans (by decide),
    (strtoull_ntoaLong 5 10 0 40 true _ (by decide) (by decide) (by decide) (by decide) rfl
      (fun _ => by decide)).trans (by decide)⟩

end Printing
end OmenText
