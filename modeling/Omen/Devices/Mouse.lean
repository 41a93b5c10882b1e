import Mathlib.Data.List.Basic
import Mathlib.Algebra.Group.Int.Defs
import Mathlib.Algebra.Group.Nat.Defs
import Mathlib.Tactic.Common

/- The PS/2 mouse (`mouse.c`, `ps2.c`): `handle_mouse` puts a packet together from three
   interrupts, and the interrupt of the third byte processes it at once. -/
namespace OmenMouse

structure Screen where
  width : Nat
  height : Nat
  wide : 0 < width ∧ width < 2 ^ 16
  tall : 0 < height ∧ height < 2 ^ 16

/-- `struct ps2_mouse_status` without the scroll, which is always 0. -/
structure MouseStatus where
  x : Nat
  y : Nat
  buttons : UInt8
  flags : UInt8
  deriving DecidableEq

structure Packet where
  first : UInt8
  second : UInt8
  third : UInt8
  deriving DecidableEq

structure Mouse where
  cycle : Nat
  packet : Packet
  ready : Bool
  last : MouseStatus

def Packet.has (p : Packet) (flag : UInt8) : Bool := p.first &&& flag ≠ 0

def handleMouse (s : Mouse) (data : UInt8) : Mouse :=
  match s.cycle with
  | 0 =>
    if s.ready then s
    else if data &&& 8 = 0 then s
    else { s with packet := { s.packet with first := data }, cycle := 1 }
  | 1 =>
    if s.ready then s
    else { s with packet := { s.packet with second := data }, cycle := 2 }
  | 2 =>
    if s.ready then s
    else { s with packet := { s.packet with third := data }, ready := true, cycle := 0 }
  | _ => s

/-- The movement of one axis: `256 - buffer[i]` is stored in a byte before it is taken off. The
    vertical axis takes off what the horizontal one adds. -/
def shift (negative overflow : Bool) (b : UInt8) : Int :=
  if negative then -((256 - b.toNat) % 256 : Nat) - (if overflow then 256 else 0)
  else b.toNat + if overflow then 256 else 0

def clamp (size : Nat) (position : Int) : Nat :=
  let position := if position < 0 then 0 else position
  let position := if (size : Int) - 1 < position then (size : Int) - 1 else position
  (position % 2 ^ 16).toNat

def moved (move : Bool → Bool → UInt8 → Int) (screen : Screen) (last : MouseStatus)
    (p : Packet) : MouseStatus where
  x := clamp screen.width (last.x + move (p.has 0x10) (p.has 0x40) p.second)
  y := clamp screen.height (last.y - move (p.has 0x20) (p.has 0x80) p.third)
  buttons := (if p.has 1 then 1 else 0) ||| (if p.has 4 then 4 else 0) |||
    (if p.has 2 then 2 else 0)
  flags := (if p.has 0x40 then 0x40 else 0) ||| (if p.has 0x80 then 0x80 else 0)

def processMousePacket (screen : Screen) (s : Mouse) : Mouse × MouseStatus :=
  let status := moved shift screen s.last s.packet
  let p := s.packet
  ({ s with
      packet := ⟨p.first, if p.has 0x10 then 0 - p.second else p.second,
        if p.has 0x20 then 0 - p.third else p.third⟩
      last := status }, status)

def processCurrentMousePacket (screen : Screen) (s : Mouse) : Mouse × Option MouseStatus :=
  if s.ready then
    let (s, status) := processMousePacket screen s
    ({ s with ready := false }, some status)
  else (s, none)

def mouseIntHandler (screen : Screen) (s : Mouse) (data : UInt8) : Mouse × Option MouseStatus :=
  processCurrentMousePacket screen (handleMouse s data)

def reports (screen : Screen) (s : Mouse) : List UInt8 → List MouseStatus
  | [] => []
  | data :: rest =>
    (mouseIntHandler screen s data).2.toList ++
      reports screen (mouseIntHandler screen s data).1 rest

def initMouse (packet : Packet) : Mouse := ⟨0, packet, false, ⟨0, 0, 0, 0⟩⟩

/- What the mouse says. -/

/-- The packets of a stream: a byte that cannot be the first of a packet is passed over. -/
def packets : List UInt8 → List Packet
  | [] => []
  | first :: rest =>
    if first &&& 8 = 0 then packets rest
    else match rest with
      | second :: third :: rest => ⟨first, second, third⟩ :: packets rest
      | _ => []

/-- A number of nine bits with its sign, and 256 more in its direction if it overflows. -/
def displacement (negative overflow : Bool) (b : UInt8) : Int :=
  (if negative then (b.toNat : Int) - 256 else b.toNat) +
    if overflow then (if negative then -256 else 256) else 0

def follow (move : Bool → Bool → UInt8 → Int) (screen : Screen) (last : MouseStatus) :
    List Packet → List MouseStatus
  | [] => []
  | p :: rest => moved move screen last p :: follow move screen (moved move screen last p) rest

/-- A movement by 256 to the left or down has the sign and a byte 0, which the driver takes for no
    movement. -/
def Packet.Misread (p : Packet) : Prop :=
  (p.has 0x10 ∧ p.second = 0) ∨ (p.has 0x20 ∧ p.third = 0)

section Stream
variable {screen : Screen} {s : Mouse} {stream : List UInt8} {p : Packet} {last : MouseStatus}

theorem packets_skip {data : UInt8} (other : data &&& 8 = 0) :
    packets (data :: stream) = packets stream := by
  rw [packets.eq_def]
  simp only [other, if_true]

theorem packets_take {a b c : UInt8} (first : a &&& 8 ≠ 0) :
    packets (a :: b :: c :: stream) = ⟨a, b, c⟩ :: packets stream := by
  rw [packets.eq_def]
  simp only [first, if_false]

inductive Pending (p : Packet) : Nat → List UInt8 → Prop
  | none : Pending p 0 []
  | one (first : p.first &&& 8 ≠ 0) : Pending p 1 [p.first]
  | two (first : p.first &&& 8 ≠ 0) : Pending p 2 [p.first, p.second]

theorem reports_eq {cycle : Nat} {pending : List UInt8} (began : Pending p cycle pending) :
    reports screen ⟨cycle, p, false, last⟩ stream =
      follow shift screen last (packets (pending ++ stream)) := by
  induction stream generalizing cycle p last pending with
  | nil =>
    cases began with
    | none => rfl
    | one first => simp [reports, packets, first, follow]
    | two first => simp [reports, packets, first, follow]
  | cons data rest ih =>
    rw [reports]
    cases began with
    | none =>
      by_cases skipped : data &&& 8 = 0
      · rw [List.nil_append, packets_skip skipped]
        simp only [mouseIntHandler, handleMouse, skipped, processCurrentMousePacket]
        exact ih .none
      · simp only [mouseIntHandler, handleMouse, skipped, processCurrentMousePacket]
        exact @ih { p with first := data } _ _ _ (.one skipped)
    | one first =>
      exact @ih { p with second := data } _ _ _ (.two first)
    | two first =>
      rw [List.cons_append, List.cons_append, List.nil_append, packets_take first, follow,
        ← List.nil_append (packets rest)]
      exact congrArg _ (ih .none)

theorem clamp_lt {size : Nat} (some_pixel : 0 < size ∧ size < 2 ^ 16) (position : Int) :
    clamp size position < size := by
  have inside : ∀ place : Int, 0 ≤ place → place ≤ size - 1 → (place % 2 ^ 16).toNat < size := by
    intro place low high
    rw [Int.emod_eq_of_lt low (by omega)]
    omega
  rw [clamp]
  split <;> split
  · exact inside _ (by omega) (by omega)
  · exact inside _ (by omega) (by omega)
  · exact inside _ (by omega) (by omega)
  · exact inside _ (by omega) (by omega)

theorem follow_length {move : Bool → Bool → UInt8 → Int} {ps : List Packet} :
    (follow move screen last ps).length = ps.length := by
  induction ps generalizing last with
  | nil => rfl
  | cons p rest ih => exact congrArg (· + 1) ih

theorem follow_inside {move : Bool → Bool → UInt8 → Int} {ps : List Packet} :
    ∀ status ∈ follow move screen last ps, status.x < screen.width ∧ status.y < screen.height := by
  induction ps generalizing last with
  | nil =>
    intro status member
    cases member
  | cons p rest ih =>
    rw [follow]
    refine List.forall_mem_cons.mpr ⟨?_, ih⟩
    exact ⟨clamp_lt screen.wide _, clamp_lt screen.tall _⟩

theorem shift_eq {negative overflow : Bool} {b : UInt8} (read : ¬ (negative = true ∧ b = 0)) :
    shift negative overflow b = displacement negative overflow b := by
  have byte := b.toNat_lt
  cases negative with
  | false => cases overflow <;> simp [shift, displacement]
  | true =>
    have positive : b.toNat ≠ 0 := fun zero => read ⟨rfl, UInt8.toNat_inj.mp zero⟩
    have less : (256 - b.toNat) % 256 = 256 - b.toNat := Nat.mod_eq_of_lt (by omega)
    rw [shift, displacement, if_pos rfl, if_pos rfl, less]
    cases overflow
    · simp only [Bool.false_eq_true, if_false]
      omega
    · simp only [if_true]
      omega

theorem follow_eq {ps : List Packet} (read : ∀ p ∈ ps, ¬ p.Misread) :
    follow shift screen last ps = follow displacement screen last ps := by
  induction ps generalizing last with
  | nil => rfl
  | cons p rest ih =>
    obtain ⟨first, later⟩ := List.forall_mem_cons.mp read
    have same : moved shift screen last p = moved displacement screen last p := by
      rw [moved, shift_eq fun misread => first (.inl misread),
        shift_eq fun misread => first (.inr misread), moved]
    rw [follow, same, ih later, follow]

end Stream

/-- Whatever bytes come in, there is one report for each packet, and the cursor stays on the
    screen; it follows the mouse as long as no packet has a sign without a movement. -/
theorem mouse_follows (screen : Screen) (packet : Packet) (stream : List UInt8) :
    (reports screen (initMouse packet) stream).length = (packets stream).length ∧
      (∀ status ∈ reports screen (initMouse packet) stream,
        status.x < screen.width ∧ status.y < screen.height) ∧
      ((∀ p ∈ packets stream, ¬ p.Misread) →
        reports screen (initMouse packet) stream =
          follow displacement screen ⟨0, 0, 0, 0⟩ (packets stream)) := by
  rw [initMouse, reports_eq .none, List.nil_append]
  exact ⟨follow_length, follow_inside, follow_eq⟩

def vga : Screen := ⟨640, 480, by decide, by decide⟩

/-- Five to the right and three down behind a byte that starts no packet, and then one to the
    right with the overflow bit. -/
theorem mouse_follows_two :
    reports vga (initMouse ⟨0, 0, 0⟩) [0x01, 0x28, 5, 0xfd, 0x48, 1, 0] =
      [⟨5, 3, 0, 0⟩, ⟨262, 3, 0, 0x40⟩] := by
  have found : packets [0x01, 0x28, 5, 0xfd, 0x48, 1, 0] = [⟨0x28, 5, 0xfd⟩, ⟨0x48, 1, 0⟩] := by
    rw [packets_skip (by decide), packets_take (by decide), packets_take (by decide)]
    rfl
  refine ((mouse_follows vga ⟨0, 0, 0⟩ _).2.2 ?_).trans ?_
  · rw [found]
    unfold Packet.Misread
    decide
  · rw [found]
    decide

end OmenMouse
