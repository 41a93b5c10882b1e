import Omen.Library.BlockFold
import Omen.Library.ByteMemory

/- `md5.c`. A message comes in through any number of `MD5_Update` calls; what does not fill a
   block stays in the buffer of the context, whose other bytes are left from earlier blocks.
   Masks of low bits are written as remainders. -/
namespace OmenCrypto
open ByteMemory BlockFold

structure Registers where
  a : UInt32
  b : UInt32
  c : UInt32
  d : UInt32
  deriving DecidableEq, Repr

structure Md5Ctx where
  state : Registers
  lo : Nat
  hi : Nat
  buffer : Mem

inductive Mix where
  | F | G | H | H2 | I

def Mix.apply : Mix → UInt32 → UInt32 → UInt32 → UInt32
  | F, x, y, z => z ^^^ (x &&& (y ^^^ z))
  | G, x, y, z => y ^^^ (z &&& (x ^^^ y))
  | H, x, y, z => (x ^^^ y) ^^^ z
  | H2, x, y, z => x ^^^ (y ^^^ z)
  | I, x, y, z => y ^^^ (x ||| ~~~z)

structure Md5Step where
  f : Mix
  n : Nat
  t : UInt32
  s : UInt32

def md5Steps : List Md5Step := [
  ⟨.F, 0, 0xd76aa478, 7⟩, ⟨.F, 1, 0xe8c7b756, 12⟩, ⟨.F, 2, 0x242070db, 17⟩,
  ⟨.F, 3, 0xc1bdceee, 22⟩, ⟨.F, 4, 0xf57c0faf, 7⟩, ⟨.F, 5, 0x4787c62a, 12⟩,
  ⟨.F, 6, 0xa8304613, 17⟩, ⟨.F, 7, 0xfd469501, 22⟩, ⟨.F, 8, 0x698098d8, 7⟩,
  ⟨.F, 9, 0x8b44f7af, 12⟩, ⟨.F, 10, 0xffff5bb1, 17⟩, ⟨.F, 11, 0x895cd7be, 22⟩,
  ⟨.F, 12, 0x6b901122, 7⟩, ⟨.F, 13, 0xfd987193, 12⟩, ⟨.F, 14, 0xa679438e, 17⟩,
  ⟨.F, 15, 0x49b40821, 22⟩,
  ⟨.G, 1, 0xf61e2562, 5⟩, ⟨.G, 6, 0xc040b340, 9⟩, ⟨.G, 11, 0x265e5a51, 14⟩,
  ⟨.G, 0, 0xe9b6c7aa, 20⟩, ⟨.G, 5, 0xd62f105d, 5⟩, ⟨.G, 10, 0x02441453, 9⟩,
  ⟨.G, 15, 0xd8a1e681, 14⟩, ⟨.G, 4, 0xe7d3fbc8, 20⟩, ⟨.G, 9, 0x21e1cde6, 5⟩,
  ⟨.G, 14, 0xc33707d6, 9⟩, ⟨.G, 3, 0xf4d50d87, 14⟩, ⟨.G, 8, 0x455a14ed, 20⟩,
  ⟨.G, 13, 0xa9e3e905, 5⟩, ⟨.G, 2, 0xfcefa3f8, 9⟩, ⟨.G, 7, 0x676f02d9, 14⟩,
  ⟨.G, 12, 0x8d2a4c8a, 20⟩,
  ⟨.H, 5, 0xfffa3942, 4⟩, ⟨.H2, 8, 0x8771f681, 11⟩, ⟨.H, 11, 0x6d9d6122, 16⟩,
  ⟨.H2, 14, 0xfde5380c, 23⟩, ⟨.H, 1, 0xa4beea44, 4⟩, ⟨.H2, 4, 0x4bdecfa9, 11⟩,
  ⟨.H, 7, 0xf6bb4b60, 16⟩, ⟨.H2, 10, 0xbebfbc70, 23⟩, ⟨.H, 13, 0x289b7ec6, 4⟩,
  ⟨.H2, 0, 0xeaa127fa, 11⟩, ⟨.H, 3, 0xd4ef3085, 16⟩, ⟨.H2, 6, 0x04881d05, 23⟩,
  ⟨.H, 9, 0xd9d4d039, 4⟩, ⟨.H2, 12, 0xe6db99e5, 11⟩, ⟨.H, 15, 0x1fa27cf8, 16⟩,
  ⟨.H2, 2, 0xc4ac5665, 23⟩,
  ⟨.I, 0, 0xf4292244, 6⟩, ⟨.I, 7, 0x432aff97, 10⟩, ⟨.I, 14, 0xab9423a7, 15⟩,
  ⟨.I, 5, 0xfc93a039, 21⟩, ⟨.I, 12, 0x655b59c3, 6⟩, ⟨.I, 3, 0x8f0ccc92, 10⟩,
  ⟨.I, 10, 0xffeff47d, 15⟩, ⟨.I, 1, 0x85845dd1, 21⟩, ⟨.I, 8, 0x6fa87e4f, 6⟩,
  ⟨.I, 15, 0xfe2ce6e0, 10⟩, ⟨.I, 6, 0xa3014314, 15⟩, ⟨.I, 13, 0x4e0811a1, 21⟩,
  ⟨.I, 4, 0xf7537e82, 6⟩, ⟨.I, 11, 0xbd3af235, 10⟩, ⟨.I, 2, 0x2ad7d2bb, 15⟩,
  ⟨.I, 9, 0xeb86d391, 21⟩]

def blockWord (block : List UInt8) (n : Nat) : UInt32 :=
  UInt32.ofNat (getLE (fun i => block.getD i 0) (4 * n) 4)

/-- A step changes the register that stands first and is followed by one on the last register,
    so the four trade places: `(a, b, c, d)`, then `(d, a, b, c)`. -/
def Registers.step (block : List UInt8) (r : Registers) (row : Md5Step) : Registers :=
  let sum := r.a + (row.f.apply r.b r.c r.d + blockWord block row.n + row.t)
  let turned := (sum <<< row.s) ||| (sum >>> (32 - row.s))
  ⟨r.d, turned + r.b, r.b, r.c⟩

def Registers.block (saved : Registers) (data : List UInt8) : Registers :=
  let r := md5Steps.foldl (Registers.step data) saved
  ⟨r.a + saved.a, r.b + saved.b, r.c + saved.c, r.d + saved.d⟩

/-- `body`, which is called for one block or more, and for whole blocks only. -/
def body (state : Registers) (data : List UInt8) : Registers :=
  blocks Registers.block 64 state (data.length / 64) data

def initialRegisters : Registers := ⟨0x67452301, 0xefcdab89, 0x98badcfe, 0x10325476⟩

def md5Init (buffer : Mem) : Md5Ctx := ⟨initialRegisters, 0, 0, buffer⟩

def store (buffer : Mem) (pos : Nat) (data : List UInt8) : Mem :=
  memcpy buffer pos (fun i => data.getD i 0) data.length

def bytes (buffer : Mem) (n : Nat) : List UInt8 := (List.range n).map buffer

def Md5Ctx.count (ctx : Md5Ctx) (size : Nat) : Md5Ctx :=
  let lo := (ctx.lo + size) % 2 ^ 29
  let hi := if lo < ctx.lo then (ctx.hi + 1) % 2 ^ 32 else ctx.hi
  { ctx with lo := lo, hi := (hi + size / 2 ^ 29) % 2 ^ 32 }

def Md5Ctx.absorb (ctx : Md5Ctx) (data : List UInt8) : Md5Ctx :=
  if 64 ≤ data.length then
    let whole := data.length - data.length % 64
    { ctx with
      state := body ctx.state (data.take whole)
      buffer := store ctx.buffer 0 (data.drop whole) }
  else { ctx with buffer := store ctx.buffer 0 data }

def md5Update (ctx : Md5Ctx) (data : List UInt8) : Md5Ctx :=
  let used := ctx.lo % 64
  let ctx := ctx.count data.length
  if used = 0 then ctx.absorb data
  else
    let available := 64 - used
    if data.length < available then { ctx with buffer := store ctx.buffer used data }
    else
      let buffer := store ctx.buffer used (data.take available)
      { ctx with buffer := buffer, state := body ctx.state (bytes buffer 64) }.absorb
        (data.drop available)

def out (v : Nat) : List UInt8 := (List.range 4).map fun i => UInt8.ofNat (v / 256 ^ i)

def Registers.bytes (r : Registers) : List UInt8 :=
  out r.a.toNat ++ out r.b.toNat ++ out r.c.toNat ++ out r.d.toNat

def closeBlock (state : Registers) (buffer : Mem) (used lo hi : Nat) : Registers :=
  let buffer := store buffer used (List.replicate (64 - used - 8) 0)
  body state (OmenCrypto.bytes (store (store buffer 56 (out (lo * 8 % 2 ^ 32))) 60 (out hi)) 64)

def md5Final (ctx : Md5Ctx) : List UInt8 :=
  let used := ctx.lo % 64 + 1
  let buffer := store ctx.buffer (ctx.lo % 64) [0x80]
  if 64 - used < 8 then
    let buffer := store buffer used (List.replicate (64 - used) 0)
    (closeBlock (body ctx.state (bytes buffer 64)) buffer 0 ctx.lo ctx.hi).bytes
  else (closeBlock ctx.state buffer used ctx.lo ctx.hi).bytes

def md5Digest (buffer : Mem) (data : List UInt8) : List UInt8 :=
  md5Final (md5Update (md5Init buffer) data)

def padded (message : List UInt8) : List UInt8 :=
  message ++ 0x80 :: List.replicate ((119 - message.length % 64) % 64) 0 ++
    (List.range 8).map fun i => UInt8.ofNat (8 * message.length / 256 ^ i)

def digest (message : List UInt8) : List UInt8 := (body initialRegisters (padded message)).bytes

example : digest "abc".toUTF8.toList = [0x90, 0x01, 0x50, 0x98, 0x3c, 0xd2, 0x4f, 0xb0, 0xd6,
    0x96, 0x3f, 0x7d, 0x28, 0xe1, 0x7f, 0x72] := by decide +kernel

section Buffer
variable {buffer : Mem} {pos n : Nat} {data : List UInt8}

@[simp] theorem bytes_length : (bytes buffer n).length = n := by simp [bytes]

theorem bytes_store (whole : n = pos + data.length) :
    bytes (store buffer pos data) n = bytes buffer pos ++ data := by
  apply List.ext_getElem
  · simp [whole]
  intro i low high
  rw [bytes_length] at low
  simp only [bytes, List.getElem_map, List.getElem_range, store]
  by_cases early : i < pos
  · rw [memcpy_outside (Or.inl early), List.getElem_append_left (by simpa using early)]
    simp
  · rw [memcpy_inside (by omega) (by omega), List.getElem_append_right (by simp; omega)]
    simp only [List.length_map, List.length_range]
    exact List.getD_eq_getElem data 0 (by omega)

theorem bytes_store_front (whole : n = data.length) : bytes (store buffer 0 data) n = data :=
  bytes_store (whole.trans (Nat.zero_add _).symm)

end Buffer

section Streaming
variable {ctx : Md5Ctx} {start state : Registers} {message data rest : List UInt8} {k n : Nat}

def Digested (message : List UInt8) (state : Registers) (rest : List UInt8) : Prop :=
  Absorbed Registers.block 64 initialRegisters message state rest

theorem Digested.body (done : Digested message state (data ++ rest))
    (whole : data.length % 64 = 0) : Digested message (OmenCrypto.body state data) rest :=
  Absorbed.fold done (Nat.div_mul_cancel (Nat.dvd_of_mod_eq_zero whole)).symm

/-- The context after a message: its blocks are digested, the rest is in the buffer, and the
    counters hold its length, 29 bits of it and the next 32. -/
structure Reached (message : List UInt8) (ctx : Md5Ctx) : Prop where
  digested : Digested message ctx.state (bytes ctx.buffer (message.length % 64))
  lo : ctx.lo = message.length % 2 ^ 29
  hi : ctx.hi = message.length / 2 ^ 29 % 2 ^ 32

theorem md5Init_reached (buffer : Mem) : Reached [] (md5Init buffer) :=
  ⟨Absorbed.nothing _, rfl, rfl⟩

theorem count_lo (lo : ctx.lo = n % 2 ^ 29) : (ctx.count k).lo = (n + k) % 2 ^ 29 := by
  rw [Md5Ctx.count, lo, Nat.mod_add_mod]

/-- The carry: the low counter gets smaller just when it passes 2^29. -/
theorem count_hi (lo : ctx.lo = n % 2 ^ 29) (hi : ctx.hi = n / 2 ^ 29 % 2 ^ 32) :
    (ctx.count k).hi = (n + k) / 2 ^ 29 % 2 ^ 32 := by
  dsimp only [Md5Ctx.count]
  rw [lo, hi]
  split <;> omega

theorem absorb_digested (done : Digested message ctx.state []) :
    Digested (message ++ data) (ctx.absorb data).state
      (bytes (ctx.absorb data).buffer (data.length % 64)) := by
  have waiting : Digested (message ++ data) ctx.state data := done.wait data
  unfold Md5Ctx.absorb
  split
  · have remains : (data.drop (data.length - data.length % 64)).length = data.length % 64 := by
      rw [List.length_drop]
      omega
    rw [← List.take_append_drop (data.length - data.length % 64) data] at waiting
    have folded := waiting.body (by rw [List.length_take]; omega)
    rw [List.take_append_drop] at folded
    dsimp only
    rwa [bytes_store_front remains.symm]
  · dsimp only
    rwa [bytes_store_front (Nat.mod_eq_of_lt (by omega))]

theorem absorb_counters : (ctx.absorb data).lo = ctx.lo ∧ (ctx.absorb data).hi = ctx.hi := by
  unfold Md5Ctx.absorb
  split <;> exact ⟨rfl, rfl⟩

theorem md5Update_counters : (md5Update ctx data).lo = (ctx.count data.length).lo ∧
    (md5Update ctx data).hi = (ctx.count data.length).hi := by
  unfold md5Update
  dsimp only
  split
  · exact absorb_counters
  · split
    · exact ⟨rfl, rfl⟩
    · exact absorb_counters

theorem md5Update_digested (used : ctx.lo % 64 = n % 64)
    (done : Digested message ctx.state (bytes ctx.buffer (n % 64))) :
    Digested (message ++ data) (md5Update ctx data).state
      (bytes (md5Update ctx data).buffer ((n + data.length) % 64)) := by
  have waiting : Digested (message ++ data) ctx.state (bytes ctx.buffer (n % 64) ++ data) :=
    done.wait data
  unfold md5Update
  rw [used]
  dsimp only
  by_cases none : n % 64 = 0
  · rw [if_pos none, ← Nat.mod_add_mod, none, Nat.zero_add]
    rw [none] at done
    exact absorb_digested (show Digested message (ctx.count data.length).state [] from done)
  rw [if_neg none]
  by_cases short : data.length < 64 - n % 64
  · have sum : (n + data.length) % 64 = n % 64 + data.length := by omega
    rw [if_pos short, sum]
    dsimp only
    rw [bytes_store rfl]
    exact waiting
  · -- the buffer is filled up and goes through `body` before the rest of the data
    rw [if_neg short]
    have taken : (data.take (64 - n % 64)).length = 64 - n % 64 := by
      rw [List.length_take]
      omega
    have full : bytes (store ctx.buffer (n % 64) (data.take (64 - n % 64))) 64 =
        bytes ctx.buffer (n % 64) ++ data.take (64 - n % 64) := bytes_store (by omega)
    have filled : Digested (message ++ data.take (64 - n % 64)) ctx.state
        (bytes ctx.buffer (n % 64) ++ data.take (64 - n % 64)) := done.wait _
    rw [← full, ← List.append_nil (bytes _ 64)] at filled
    have turned := filled.body (by rw [bytes_length])
    have later : (n + data.length) % 64 = (data.drop (64 - n % 64)).length % 64 := by
      rw [List.length_drop]
      omega
    rw [later]
    nth_rewrite 1 [← List.take_append_drop (64 - n % 64) data]
    rw [← List.append_assoc]
    exact absorb_digested turned

theorem Reached.update (reached : Reached message ctx) (data : List UInt8) :
    Reached (message ++ data) (md5Update ctx data) := by
  obtain ⟨lo, hi⟩ := @md5Update_counters ctx data
  have used : ctx.lo % 64 = message.length % 64 := by
    rw [reached.lo]
    omega
  refine ⟨?_, ?_, ?_⟩
  · rw [List.length_append]
    exact md5Update_digested used reached.digested
  · rw [lo, count_lo reached.lo, List.length_append]
  · rw [hi, count_hi reached.lo reached.hi, List.length_append]

theorem Reached.updates (reached : Reached message ctx) (pieces : List (List UInt8)) :
    Reached (message ++ pieces.flatten) (pieces.foldl md5Update ctx) := by
  induction pieces generalizing message ctx with
  | nil => rwa [List.flatten_nil, List.append_nil]
  | cons piece pieces ih =>
    rw [List.flatten_cons, ← List.append_assoc]
    exact ih (reached.update piece)

theorem ofNat_congr {v w : Nat} (same : v % 256 = w % 256) : UInt8.ofNat v = UInt8.ofNat w :=
  UInt8.toNat.inj (by simpa using same)

@[simp] theorem out_size (v : Nat) : (out v).length = 4 := by simp [out]

theorem out_counters (n : Nat) : out (n % 2 ^ 29 * 8 % 2 ^ 32) ++ out (n / 2 ^ 29 % 2 ^ 32) =
    (List.range 8).map fun i => UInt8.ofNat (8 * n / 256 ^ i) := by
  simp only [out, List.range_succ, List.range_zero, List.nil_append, List.map_cons, List.map_nil,
     List.cons_append, List.cons.injEq, and_true]
  refine ⟨?_, ?_, ?_, ?_, ?_, ?_, ?_, ?_⟩
  all_goals
    apply ofNat_congr
    omega

theorem closeBlock_digested {buffer : Mem} {used lo hi : Nat} (room : used ≤ 56)
    (done : Digested message state (bytes buffer used ++
      (List.replicate (56 - used) 0 ++ (out (lo * 8 % 2 ^ 32) ++ out hi)))) :
    Digested message (closeBlock state buffer used lo hi) [] := by
  unfold closeBlock
  dsimp only
  rw [bytes_store (by rw [out_size]), bytes_store (by rw [out_size]),
    bytes_store (by rw [List.length_replicate]; omega), show 64 - used - 8 = 56 - used by omega,
    List.append_assoc, List.append_assoc]
  rw [← List.append_nil (bytes buffer used ++ _)] at done
  refine done.body ?_
  simp only [List.length_append, bytes_length, List.length_replicate, out_size]
  omega

theorem Reached.final (reached : Reached message ctx) : md5Final ctx = digest message := by
  have used : ctx.lo % 64 = message.length % 64 := by
    rw [reached.lo]
    omega
  have complete {state : Registers} (done : Digested (padded message) state []) :
      state.bytes = digest message := by
    rw [digest, body]
    exact congrArg Registers.bytes (Absorbed.complete done (by decide))
  have waiting : Digested (padded message) ctx.state (bytes ctx.buffer (message.length % 64) ++
      (0x80 :: List.replicate ((119 - message.length % 64) % 64) 0 ++
        (out (ctx.lo * 8 % 2 ^ 32) ++ out ctx.hi))) := by
    rw [reached.lo, reached.hi, out_counters, padded, List.append_assoc]
    exact reached.digested.wait _
  unfold md5Final
  rw [used]
  dsimp only
  have less := Nat.mod_lt message.length (show 0 < 64 by decide)
  generalize message.length % 64 = u at *
  have first : bytes (store ctx.buffer u [0x80]) (u + 1) = bytes ctx.buffer u ++ [0x80] :=
    bytes_store rfl
  by_cases tight : 64 - (u + 1) < 8
  · rw [if_pos tight]
    apply complete
    apply closeBlock_digested (Nat.zero_le 56)
    have full : bytes (store (store ctx.buffer u [0x80]) (u + 1)
        (List.replicate (64 - (u + 1)) 0)) 64 =
          bytes ctx.buffer u ++ [0x80] ++ List.replicate (64 - (u + 1)) 0 := by
      rw [bytes_store (by rw [List.length_replicate]; omega), first]
    have zeros : List.replicate ((119 - u) % 64) (0 : UInt8) =
        List.replicate (64 - (u + 1)) 0 ++ List.replicate (56 - 0) 0 := by
      rw [List.replicate_append_replicate]
      congr 1
      omega
    refine Digested.body ?_ (by rw [bytes_length])
    rw [full]
    rw [zeros] at waiting
    rw [show bytes _ 0 = [] from rfl]
    simpa only [List.append_assoc, List.cons_append, List.nil_append] using waiting
  · rw [if_neg tight]
    apply complete
    apply closeBlock_digested (by omega)
    rw [first, List.append_assoc]
    rw [show (119 - u) % 64 = 56 - (u + 1) by omega] at waiting
    exact waiting

/-- However a message is cut, its digest is that of the whole message: the one that `MD5_Digest`
    gives for it in a single piece, whatever the buffers held before. -/
theorem md5_any_pieces (pieces : List (List UInt8)) (buffer other : Mem) :
    md5Final (pieces.foldl md5Update (md5Init buffer)) = digest pieces.flatten ∧
      md5Digest other pieces.flatten = digest pieces.flatten :=
  ⟨((md5Init_reached buffer).updates pieces).final,
    ((md5Init_reached other).update pieces.flatten).final⟩

end Streaming

end OmenCrypto
