import Omen.Memory.BitfieldAllocator

/- Where the blocks of the page allocator lie, and which bytes its loops touch. The bitmap
   has a byte for every eight pages, rounded down; `init` writes a byte for every locked page,
   and the loops over pages know no other end than a page in use. -/
namespace OmenMemory
open ByteMemory Bitmap SpanLedger

namespace Bitfield

def fitsReads (bf : Bitfield) : Nat → Nat → List Nat
  | _, 0 => []
  | i, n + 1 => i :: if bf.isFree i then fitsReads bf (i + 1) n else []

def searchReads (bf : Bitfield) (pages : Nat) : Nat → Nat → List Nat
  | _, 0 => []
  | i, n + 1 =>
    bf.fitsReads i (loopCount i pages) ++
      if bf.fits i pages then [] else searchReads bf pages (i + 1) n

def getFreeIndexReads (bf : Bitfield) (pages : Nat) : List Nat :=
  bf.searchReads pages bf.next_index (bf.bitmap_size - bf.next_index) ++
    match firstClear (fun i => !bf.fits i pages) bf.next_index
      (bf.bitmap_size - bf.next_index) with
    | some _ => []
    | none => bf.searchReads pages 0 bf.next_index

def loopPages (index pages : Nat) : List Nat := List.range' index (loopCount index pages)

def allocateTouches (bf : Bitfield) (size : Nat) : List Nat :=
  if bf.available_size < size then []
  else
    let pages := bf.pagesFor size
    let index := bf.getFreeIndex pages
    bf.getFreeIndexReads pages ++ if index = 0 then [] else loopPages index pages

def deallocateTouches (bf : Bitfield) (address size : Nat) : List Nat :=
  if address < bf.available_address ∨
      (bf.available_address + bf.available_size) % 2 ^ 64 ≤ address then []
  else
    loopPages ((address - bf.available_address) / bf.page_size) (bytesToPages size bf.page_size)

end Bitfield

def initTouches (locked bitmapSize : Nat) : List Nat :=
  List.range locked ++ List.range' locked (bitmapSize - locked)

/-- Blocks lie in the region and behind the bitmap, and no byte behind the bitmap is touched. -/
structure StaysInside (start : Bitfield) : Prop where
  bytes : ∀ i ∈ initTouches start.locked start.bitmap_size, i < start.bitmap_size
  blocks : ∀ bf live, Run start bf live → ∀ b ∈ live,
    start.data_address + sizeofBitfield + start.bitmap_size ≤ b.address ∧
      b.address + start.pagesFor b.size * start.page_size ≤ start.data_address + start.data_size
  allocates : ∀ bf live, Run start bf live → ∀ size, size < 2 ^ 64 →
    ∀ i ∈ bf.allocateTouches size, i / 8 < start.bitmap_size
  releases : ∀ bf live, Run start bf live → ∀ b ∈ live,
    ∀ i ∈ bf.deallocateTouches b.address b.size, i / 8 < start.bitmap_size

section Touches
variable {bf : Bitfield}

theorem Bitfield.mem_fitsReads {i n k : Nat} :
    k ∈ bf.fitsReads i n ↔
      i ≤ k ∧ k < i + n ∧ ∀ t, i ≤ t → t < k → bitAt bf.bitmap t = false := by
  induction n generalizing i with
  | zero =>
    rw [Bitfield.fitsReads]
    constructor
    · intro none
      exact absurd none List.not_mem_nil
    · rintro ⟨low, high, -⟩
      omega
  | succ n ih =>
    rw [Bitfield.fitsReads, List.mem_cons]
    by_cases first : k = i
    · subst first
      constructor
      · intro _
        exact ⟨Nat.le_refl k, by omega, fun t low high => by omega⟩
      · intro _
        exact Or.inl rfl
    · rw [Bitfield.isFree]
      cases used : bitAt bf.bitmap i with
      | true =>
        constructor
        · rintro (same | none)
          · exact absurd same first
          · exact absurd none List.not_mem_nil
        · rintro ⟨low, -, clear⟩
          rw [clear i (Nat.le_refl i) (by omega)] at used
          cases used
      | false =>
        rw [Bool.not_false, if_pos rfl, ih]
        constructor
        · rintro (same | ⟨low, high, clear⟩)
          · exact absurd same first
          · refine ⟨by omega, by omega, ?_⟩
            intro t lowT highT
            by_cases start : t = i
            · rw [start, used]
            · exact clear t (by omega) highT
        · rintro ⟨low, high, clear⟩
          exact Or.inr ⟨by omega, by omega, fun t lowT highT => clear t (by omega) highT⟩

theorem Bitfield.mem_searchReads {pages i n k : Nat} (read : k ∈ bf.searchReads pages i n) :
    ∃ j, i ≤ j ∧ j < i + n ∧ k ∈ bf.fitsReads j (loopCount j pages) := by
  induction n generalizing i with
  | zero => exact absurd read List.not_mem_nil
  | succ n ih =>
    rw [Bitfield.searchReads, List.mem_append] at read
    rcases read with here | later
    · exact ⟨i, Nat.le_refl i, by omega, here⟩
    · split at later
      · exact absurd later List.not_mem_nil
      · obtain ⟨j, low, high, inside⟩ := ih later
        exact ⟨j, by omega, by omega, inside⟩

theorem Bitfield.searchReads_all {pages i n : Nat}
    (none : ∀ t, i ≤ t → t < i + n → bf.fits t pages = false) {j k : Nat} (low : i ≤ j)
    (high : j < i + n) (read : k ∈ bf.fitsReads j (loopCount j pages)) :
    k ∈ bf.searchReads pages i n := by
  induction n generalizing i with
  | zero => omega
  | succ n ih =>
    rw [Bitfield.searchReads, List.mem_append]
    by_cases first : j = i
    · exact Or.inl (first ▸ read)
    · rw [none i (Nat.le_refl i) (by omega)]
      exact Or.inr (ih (fun t lowT highT => none t (by omega) (by omega)) (by omega) (by omega))

theorem Bitfield.mem_loopPages {index pages k : Nat} :
    k ∈ loopPages index pages ↔ index ≤ k ∧ k < index + loopCount index pages :=
  List.mem_range'_1

theorem mem_initTouches {locked bitmapSize i : Nat} :
    i ∈ initTouches locked bitmapSize ↔ i < locked ∨ i < bitmapSize := by
  rw [initTouches, List.mem_append, List.mem_range, List.mem_range'_1]
  omega

end Touches

theorem le_and_add {x m : Nat} (wide : x < 2 ^ 64) (small : m < 2 ^ 64) :
    x ≤ (x &&& (2 ^ 64 - 1 - m)) + m := by
  have apart : BitVec.ofNat 64 x &&& ~~~ BitVec.ofNat 64 m &&&
      (BitVec.ofNat 64 x &&& BitVec.ofNat 64 m) = 0#64 := by
    ext i
    simp
    grind
  have joined : (BitVec.ofNat 64 x &&& ~~~ BitVec.ofNat 64 m) |||
      (BitVec.ofNat 64 x &&& BitVec.ofNat 64 m) = BitVec.ofNat 64 x := by
    ext i
    simp
    grind
  have sum := congrArg BitVec.toNat (BitVec.add_eq_or_of_and_eq_zero _ _ apart)
  rw [joined, BitVec.toNat_add, BitVec.toNat_and, BitVec.toNat_and, BitVec.toNat_not,
    BitVec.toNat_ofNat, BitVec.toNat_ofNat, Nat.mod_eq_of_lt wide, Nat.mod_eq_of_lt small] at sum
  have le : x &&& m ≤ m := Nat.and_le_right
  have cut := Nat.mod_le ((x &&& (2 ^ 64 - 1 - m)) + (x &&& m)) (2 ^ 64)
  omega

structure Placed (start : Bitfield) : Prop where
  after : start.data_address + sizeofBitfield + start.bitmap_size < start.available_address
  near : start.available_address ≤
    start.data_address + sizeofBitfield + start.bitmap_size + start.page_size

theorem init_placed {dataAddress dataSize pageSize : Nat} {memory : Mem} {start : Bitfield}
    (accepted : init dataAddress memory dataSize pageSize = some start) (short : pageSize < 2 ^ 16)
    (fits : dataAddress + sizeofBitfield + start.bitmap_size + pageSize < 2 ^ 64) :
    start.data_address = dataAddress ∧ Placed start := by
  unfold init at accepted
  split at accepted
  · cases accepted
  · rename_i sizes
    have nonzero : pageSize ≠ 0 := (not_or.mp (not_or.mp sizes).2).1
    cases accepted
    dsimp only at fits
    refine ⟨rfl, ?_, ?_⟩
    · have low := @le_and_add (dataAddress + sizeofBitfield + bytesToPages dataSize pageSize / 8 +
        pageSize) (pageSize - 1) fits (by omega)
      have mask : 2 ^ 64 - 1 - (pageSize - 1) = 2 ^ 64 - pageSize := by omega
      rw [mask] at low
      dsimp only
      rw [Nat.mod_eq_of_lt fits]
      omega
    · dsimp only
      rw [Nat.mod_eq_of_lt fits]
      exact Nat.and_le_left

/-- The bits that `init` sets end every run that a search can find, and lie in the bitmap. -/
structure Fenced (start : Bitfield) : Prop where
  inside : start.locked ≤ start.bitmap_size
  dense : start.bitmap_size + 7 ≤ 8 * start.locked

section Fences
variable {start : Bitfield} {bitmap : Mem} {next : Nat} {live : List Block}

theorem Fenced.limit (fenced : Fenced start) : start.limit = start.bitmap_size :=
  Nat.max_eq_left fenced.inside

theorem Region.locked_bytes (region : Region start) :
    sizeofBitfield + start.bitmap_size ≤ start.locked * start.page_size :=
  (@bytesToPages_bounds (sizeofBitfield + start.bitmap_size) start.page_size region.positive).1

theorem Region.locked_positive (region : Region start) : 0 < start.locked := by
  have bytes := region.locked_bytes
  apply Nat.pos_of_ne_zero
  intro none
  rw [none, Nat.zero_mul, sizeofBitfield] at bytes
  omega

/-- With pages of one byte there are more locked pages than bytes in the bitmap. -/
theorem Region.sizesFit (region : Region start) (inside : start.locked ≤ start.bitmap_size) :
    SizesFit start := by
  intro one
  have bytes := region.locked_bytes
  rw [one, Nat.mul_one, sizeofBitfield] at bytes
  omega

theorem Fenced.fence (fenced : Fenced start) {j : Nat} (low : j < start.bitmap_size) :
    start.Reserved (8 * ((j + 7) / 8)) ∧ (j + 7) / 8 < start.locked := by
  have dense := fenced.dense
  have near : (j + 7) / 8 < start.locked := by omega
  exact ⟨⟨_, near, rfl⟩, near⟩

theorem Bitfield.getFreeIndex_complete {bf : Bitfield} {pages i : Nat}
    (fits : bf.fits i pages = true) (reach : i < bf.bitmap_size ∨ i < bf.next_index)
    (zero : bf.fits 0 pages = false) :
    bf.getFreeIndex pages ≠ 0 := by
  have nonzero : ∀ j, (!bf.fits j pages) = false → j ≠ 0 := by
    rintro j free rfl
    rw [zero] at free
    cases free
  cases first : firstClear (fun i => !bf.fits i pages) bf.next_index
      (bf.bitmap_size - bf.next_index) with
  | some j =>
    simp only [Bitfield.getFreeIndex, first]
    exact nonzero j (firstClear_some first).2.2.1
  | none =>
    cases second : firstClear (fun i => !bf.fits i pages) 0 bf.next_index with
    | some j =>
      simp only [Bitfield.getFreeIndex, first, second]
      exact nonzero j (firstClear_some second).2.2.1
    | none =>
      exfalso
      by_cases low : i < bf.next_index
      · have used := firstClear_none second i (by omega) (by omega)
        rw [fits] at used
        cases used
      · have used := firstClear_none first i (by omega) (by omega)
        rw [fits] at used
        cases used

theorem Bitfield.allocate_succeeds {bf : Bitfield} {size i : Nat}
    (enough : size ≤ bf.available_size) (fits : bf.fits i (bf.pagesFor size) = true)
    (reach : i < bf.bitmap_size ∨ i < bf.next_index)
    (zero : bf.fits 0 (bf.pagesFor size) = false) : (bf.allocate size).isSome = true := by
  unfold Bitfield.allocate
  rw [if_neg (Nat.not_lt.mpr enough)]
  dsimp only
  rw [if_neg (Bitfield.getFreeIndex_complete fits reach zero)]
  rfl

theorem Sound.zero_unfit (sound : Sound start bitmap next live)
    (region : Region start) (size : Nat) (small : start.pagesFor size < 2 ^ 64) :
    (start.withMarks bitmap next).fits 0 (start.pagesFor size) = false := by
  by_contra fits
  have clear := (Bitfield.fitsFrom_iff _ _ _).mp (Bool.not_eq_false _ ▸ fits)
  have some := Bitfield.pagesFor_positive region.positive size
  rw [Bitfield.loopCount_eq (by omega)] at clear
  have used := sound.ledger.kept 0 ⟨0, region.locked_positive, rfl⟩
  have free : bitAt bitmap 0 = false := clear 0 (by omega) (by omega)
  rw [free] at used
  cases used

variable (sound : Sound start bitmap next live) (fenced : Fenced start)
include sound fenced

theorem Sound.ends {b : Block} (member : b ∈ live) :
    (b.span start).first + (b.span start).count ≤ 8 * (((b.span start).first + 7) / 8) := by
  have low := sound.placed b member
  rw [fenced.limit] at low
  by_contra far
  exact sound.ledger.outside b member _ ⟨by omega, by omega⟩ (fenced.fence low).1

theorem Sound.hint_near : next ≤ start.bitmap_size + 7 := by
  by_contra far
  have limit := fenced.limit
  obtain ⟨b, member, -, high⟩ := sound.covered (start.bitmap_size + 7) (by omega) (by omega)
  have low := sound.placed b member
  have ends := sound.ends fenced member
  omega

theorem Sound.page_inside {b : Block} (member : b ∈ live) {i : Nat} (inside :
    (b.span start).Has i) :
    i / 8 < start.bitmap_size := by
  have low := sound.placed b member
  rw [fenced.limit] at low
  have ends := sound.ends fenced member
  have near := (fenced.fence low).2
  have locked := fenced.inside
  have high := inside.2
  omega

theorem Sound.search_inside {pages k : Nat}
    (read : k ∈ (start.withMarks bitmap next).getFreeIndexReads pages) :
    k / 8 < start.bitmap_size := by
  have near := sound.hint_near fenced
  have limit := fenced.limit
  have positive : 0 < start.bitmap_size := by
    have dense := fenced.dense
    have inside := fenced.inside
    omega
  obtain ⟨j, place, reads⟩ : ∃ j, (j < start.bitmap_size ∨ j < next) ∧
      k ∈ (start.withMarks bitmap next).fitsReads j (Bitfield.loopCount j pages) := by
    unfold Bitfield.getFreeIndexReads at read
    rcases List.mem_append.mp read with first | second
    · obtain ⟨j, low, high, reads⟩ := Bitfield.mem_searchReads first
      change j < next + (start.bitmap_size - next) at high
      change next ≤ j at low
      exact ⟨j, Or.inl (by omega), reads⟩
    · split at second
      · exact absurd second List.not_mem_nil
      · obtain ⟨j, low, high, reads⟩ := Bitfield.mem_searchReads second
        change j < 0 + next at high
        exact ⟨j, Or.inr (by omega), reads⟩
  obtain ⟨low, -, clear⟩ := Bitfield.mem_fitsReads.mp reads
  by_cases inside : j < start.bitmap_size
  · obtain ⟨fence, locked⟩ := fenced.fence inside
    have few := fenced.inside
    have stop : k ≤ 8 * ((j + 7) / 8) := by
      by_contra past
      have used := sound.ledger.kept _ fence
      have free : bitAt bitmap (8 * ((j + 7) / 8)) = false := clear _ (by omega) (by omega)
      rw [free] at used
      cases used
    omega
  · -- between the bitmap size and the hint every page is taken
    obtain ⟨b, member, held⟩ := sound.covered j (by omega) (by omega)
    have used := sound.ledger.marked b member j held
    have here : k = j := by
      by_contra other
      have free : bitAt bitmap j = false := clear j (Nat.le_refl j) (by omega)
      rw [free] at used
      cases used
    omega

end Fences

section Runs
variable {start : Bitfield}

theorem Run.located {bf : Bitfield} {live : List Block} (run : Run start bf live)
    (region : Region start) (safe : SizesFit start)
    (initial : Sound start start.bitmap start.next_index []) :
    ∀ b ∈ live, b.address =
      (start.available_address + (b.span start).first * start.page_size) % 2 ^ 64 := by
  refine run.each fun bf live size address bf' before call => ?_
  obtain ⟨bitmap, next, rfl, sound⟩ := before.sound region safe initial
  obtain ⟨index, -, low, -, -, -, place, -⟩ := sound.allocated region safe call
  rw [Block.span_first region low place]
  exact place

theorem Fenced.room (fenced : Fenced start) (region : Region start) {first last : Nat}
    (low : 0 < first) (high : first < start.bitmap_size) (ends : last ≤ 8 * ((first + 7) / 8)) :
    sizeofBitfield + start.bitmap_size + start.page_size + last * start.page_size ≤
      start.data_size := by
  have bytes := region.locked_bytes
  have size := region.bitmap_le region.positive (Nat.le_refl _)
  have locked : start.locked * start.page_size ≤ start.bitmap_size * start.page_size :=
    Nat.mul_le_mul_right _ fenced.inside
  have two : 2 * start.page_size ≤ start.bitmap_size * start.page_size :=
    Nat.mul_le_mul_right _ (by omega)
  have pages : last * start.page_size ≤ (start.bitmap_size + 6) * start.page_size :=
    Nat.mul_le_mul_right _ (by omega)
  rw [Nat.add_mul] at pages
  rw [Nat.mul_assoc] at size
  omega

theorem Fenced.stays_inside (fenced : Fenced start) (region : Region start)
    (placed : Placed start) (sound : Sound start start.bitmap start.next_index [])
    (ends : start.data_address + start.data_size ≤ 2 ^ 64) : StaysInside start := by
  have safe := region.sizesFit fenced.inside
  have after := placed.after
  have near := placed.near
  constructor
  · intro i touched
    have locked := fenced.inside
    rcases mem_initTouches.mp touched with low | low
    · omega
    · exact low
  · intro bf live run b member
    obtain ⟨bitmap, next, -, held⟩ := run.sound region safe sound
    have low := held.placed b member
    rw [fenced.limit] at low
    have stop := held.ends fenced member
    have count : 0 < (b.span start).count := Bitfield.pagesFor_positive region.positive b.size
    have some : 0 < (b.span start).first := by
      apply Nat.pos_of_ne_zero
      intro zero
      rw [zero] at stop
      omega
    have room := fenced.room region some low stop
    have page := Nat.mul_le_mul_right start.page_size count
    rw [Nat.one_mul] at page
    rw [Nat.add_mul] at room
    have place := run.located region safe sound b member
    rw [Nat.mod_eq_of_lt (by have := region.positive; omega)] at place
    have whole : (b.span start).count * start.page_size =
        start.pagesFor b.size * start.page_size := rfl
    omega
  · intro bf live run size small i touched
    obtain ⟨bitmap, next, rfl, held⟩ := run.sound region safe sound
    unfold Bitfield.allocateTouches at touched
    split at touched
    · exact absurd touched List.not_mem_nil
    · rename_i enough
      rcases List.mem_append.mp touched with searched | locked
      · exact held.search_inside fenced searched
      · split at locked
        · exact absurd locked List.not_mem_nil
        · rename_i found
          -- the pages that the call locks are those of the block it returns
          rcases call : (start.withMarks bitmap next).allocate size with _ | ⟨address, bf'⟩
          · unfold Bitfield.allocate at call
            rw [if_neg enough] at call
            dsimp only at call
            rw [if_neg found] at call
            cases call
          · obtain ⟨bitmap', next', rfl, grown⟩ := held.allocate region safe call
            obtain ⟨index, same, low, -, -, -, place, -⟩ := held.allocated region safe call
            refine grown.page_inside fenced List.mem_cons_self ?_
            change i ∈ Bitfield.loopPages ((start.withMarks bitmap next).getFreeIndex
              (start.pagesFor size)) (start.pagesFor size) at locked
            rw [← same] at locked
            obtain ⟨from_first, to_last⟩ := Bitfield.mem_loopPages.mp locked
            have loop := Bitfield.loopCount_le index (start.pagesFor size)
            exact (Block.span_has region low place i).mpr ⟨from_first, by omega⟩
  · intro bf live run b member i touched
    obtain ⟨bitmap, next, rfl, held⟩ := run.sound region safe sound
    refine held.page_inside fenced member ?_
    unfold Bitfield.deallocateTouches at touched
    split at touched
    · exact absurd touched List.not_mem_nil
    · rename_i range
      have address := run.addresses b member
      have low : start.available_address ≤ b.address := Nat.not_lt.mp (not_or.mp range).1
      have back : (b.address + 2 ^ 64 - start.available_address) % 2 ^ 64 =
          b.address - start.available_address := by omega
      have first : (b.span start).first =
          (b.address - start.available_address) / start.page_size := by
        rw [← back]
        rfl
      obtain ⟨from_first, to_last⟩ := Bitfield.mem_loopPages.mp touched
      change (b.address - start.available_address) / start.page_size ≤ i at from_first
      rw [← first] at from_first
      change i < (b.address - start.available_address) / start.page_size +
        Bitfield.loopCount ((b.address - start.available_address) / start.page_size)
          (bytesToPages b.size start.page_size) at to_last
      rw [← first] at to_last
      have loop := Bitfield.loopCount_le (b.span start).first
        (bytesToPages b.size start.page_size)
      have pages : bytesToPages b.size start.page_size ≤ (b.span start).count :=
        bytesToPages_mono region.positive (by split <;> omega)
      exact ⟨from_first, by omega⟩

theorem Region.front_fits (region : Region start) (inside : start.locked ≤ start.bitmap_size) :
    sizeofBitfield + start.bitmap_size + start.page_size +
      start.bitmap_size * start.page_size < start.data_size := by
  have bytes := region.locked_bytes
  have positive := region.positive
  have size := region.bitmap_le positive (Nat.le_refl _)
  have some : 1 ≤ start.bitmap_size := by
    by_contra none
    have zero : start.locked = 0 := by omega
    rw [zero, Nat.zero_mul, sizeofBitfield] at bytes
    omega
  have one := Nat.mul_le_mul_right start.page_size some
  have locked := Nat.mul_le_mul_right start.page_size inside
  rw [Nat.mul_assoc] at size
  rw [Nat.one_mul] at one
  omega

/-- The bits that `init` leaves: the first of every byte of a locked page. -/
theorem bitAt_initBitmap (memory : Mem) (locked bitmapSize i : Nat) :
    bitAt (initBitmap memory locked bitmapSize) i =
      if i / 8 < locked then decide (i % 8 = 0)
      else if i / 8 < bitmapSize then false else bitAt memory i := by
  unfold bitAt initBitmap
  split
  · have bits : ∀ k, k < 8 → (1 : UInt8).toNat.testBit k = decide (k = 0) := by decide
    exact bits _ (Nat.mod_lt _ (by decide))
  · split
    · exact Nat.zero_testBit _
    · rfl

theorem StaysInside.dense {memory : Mem} (stays : StaysInside start) (region : Region start)
    (placed : Placed start) (inside : start.locked ≤ start.bitmap_size)
    (ends : start.data_address + start.data_size ≤ 2 ^ 64)
    (hint : start.next_index = start.locked)
    (bitmap : start.bitmap = initBitmap memory start.locked start.bitmap_size) :
    start.bitmap_size + 7 ≤ 8 * start.locked := by
  by_contra sparse
  have front := region.front_fits inside
  have after := placed.after
  have near := placed.near
  have bytes := region.locked_bytes
  have positive := region.positive
  have some := region.locked_positive
  have available : start.available_size =
      start.data_size - (sizeofBitfield + start.bitmap_size) := by
    have small := region.small
    rw [region.available]
    omega
  have sound := init_sound region hint bitmap
  rcases call : start.allocate start.available_size with _ | ⟨address, bf'⟩
  · -- nothing found: the search from the last locked byte on has gone past the bitmap
    have pages := Bitfield.pagesFor_le positive (Nat.le_refl start.available_size) Nat.one_pos
      positive
    have zero : start.fits 0 (start.pagesFor start.available_size) = false :=
      sound.zero_unfit region start.available_size (by have := region.small; omega)
    have blocked : ∀ t, start.next_index ≤ t →
        t < start.next_index + (start.bitmap_size - start.next_index) →
        start.fits t (start.pagesFor start.available_size) = false := by
      intro t low high
      by_contra fits
      have seen : t < start.bitmap_size := by omega
      have found := Bitfield.allocate_succeeds (Nat.le_refl _) (Bool.not_eq_false _ ▸ fits)
        (Or.inl seen) zero
      rw [call] at found
      cases found
    -- the first page behind the last reserved one, in the bitmap and before its last byte
    have clear : ∀ t, 8 * start.locked - 7 ≤ t → t < 8 * start.bitmap_size →
        bitAt start.bitmap t = false := by
      intro t low high
      rw [bitmap, bitAt_initBitmap]
      split
      · exact decide_eq_false (by omega)
      · exact if_pos (by omega)
    have unfit := blocked (8 * start.locked - 7) (by omega) (by omega)
    have long : 8 * start.bitmap_size < 8 * start.locked - 7 +
        Bitfield.loopCount (8 * start.locked - 7) (start.pagesFor start.available_size) := by
      by_contra short
      have fits : start.fits (8 * start.locked - 7) (start.pagesFor start.available_size) =
          true := by
        refine (Bitfield.fitsFrom_iff _ _ _).mpr ?_
        intro k low high
        exact clear k low (by omega)
      rw [fits] at unfit
      cases unfit
    have read : 8 * start.bitmap_size ∈ start.allocateTouches start.available_size := by
      unfold Bitfield.allocateTouches
      rw [if_neg (Nat.lt_irrefl _)]
      refine List.mem_append_left _ (List.mem_append_left _ ?_)
      refine Bitfield.searchReads_all blocked (j := 8 * start.locked - 7) (by omega) (by omega) ?_
      exact Bitfield.mem_fitsReads.mpr ⟨by omega, long, clear⟩
    have bound := stays.allocates _ _ Run.init _ (by have := region.small; omega) _ read
    omega
  · have block := stays.blocks _ _ (Run.allocate Run.init (by have := region.small; omega) call) _
      List.mem_cons_self
    obtain ⟨index, -, low, -, -, -, place, -⟩ :=
      sound.allocated region (region.sizesFit inside) call
    have limit : start.limit = start.bitmap_size := Nat.max_eq_left inside
    have offset := Nat.mul_le_mul_right start.page_size (show index ≤ start.bitmap_size by omega)
    rw [Nat.mod_eq_of_lt (by omega)] at place
    have whole : start.available_size ≤ start.pagesFor start.available_size * start.page_size := by
      have pages := (@bytesToPages_bounds (if start.available_size < start.page_size then
        start.page_size else start.available_size) start.page_size positive).1
      refine Nat.le_trans ?_ pages
      split <;> omega
    have stop : address + start.pagesFor start.available_size * start.page_size ≤
      start.data_address + start.data_size := block.2
    omega

end Runs

theorem stays_inside_iff {dataAddress dataSize pageSize : Nat} {memory : Mem} {start : Bitfield}
    (small : dataSize < 2 ^ 64) (short : pageSize < 2 ^ 16)
    (ends : dataAddress + dataSize ≤ 2 ^ 64)
    (accepted : init dataAddress memory dataSize pageSize = some start) :
    StaysInside start ↔
      lockedPages (bytesToPages dataSize pageSize / 8) pageSize ≤
          bytesToPages dataSize pageSize / 8 ∧
        bytesToPages dataSize pageSize / 8 + 7 ≤
          8 * lockedPages (bytesToPages dataSize pageSize / 8) pageSize := by
  obtain ⟨region, size, page, hint, bitmap⟩ := init_region accepted small short
  have bytes : bytesToPages dataSize pageSize / 8 = start.bitmap_size := by
    rw [region.bitmap, size, page]
  have locked : lockedPages start.bitmap_size pageSize = start.locked := by
    rw [Bitfield.locked, page]
  rw [bytes, locked]
  have located : start.locked ≤ start.bitmap_size →
      start.data_address = dataAddress ∧ Placed start := by
    intro inside
    have front := region.front_fits inside
    rw [size, page] at front
    exact init_placed accepted short (by omega)
  constructor
  · intro stays
    have inside : start.locked ≤ start.bitmap_size := by
      by_contra more
      have byte := stays.bytes start.bitmap_size (mem_initTouches.mpr (Or.inl (by omega)))
      omega
    obtain ⟨address, placed⟩ := located inside
    exact ⟨inside, stays.dense region placed inside (by omega) hint bitmap⟩
  · rintro ⟨inside, dense⟩
    obtain ⟨address, placed⟩ := located inside
    exact Fenced.stays_inside ⟨inside, dense⟩ region placed (init_sound region hint bitmap)
      (by omega)

/-- Two locked pages in a bitmap of nine bytes. -/
theorem stays_inside_small_pages :
    ∃ start, init 0x100000 blank 4608 64 = some start ∧ StaysInside start :=
  ⟨_, rfl, (@stays_inside_iff 0x100000 4608 64 blank _ (by decide) (by decide) (by decide)
    rfl).mpr (by decide)⟩

/-- Sixteen pages of four kilobytes have a bitmap of two bytes and one locked page. -/
theorem leaves_region :
    ¬ ∀ (dataAddress dataSize pageSize : Nat) (memory : Mem) (start : Bitfield),
      dataSize < 2 ^ 64 → pageSize < 2 ^ 16 → dataAddress + dataSize ≤ 2 ^ 64 →
      init dataAddress memory dataSize pageSize = some start → StaysInside start := by
  intro all
  have stays := all 0x100000 0x10000 4096 blank _ (by decide) (by decide) (by decide) rfl
  -- the first request takes fifteen pages from page 1 on; the region ends with page 14
  have call : ∃ bf', Bitfield.allocate
      ((init 0x100000 blank 0x10000 4096).get rfl) (15 * 4096) = some (0x102000, bf') :=
    ⟨_, rfl⟩
  obtain ⟨bf', call⟩ := call
  have block := stays.blocks _ _ (Run.allocate Run.init (by decide) call) _ List.mem_cons_self
  exact absurd block.2 (by decide)

end OmenMemory
