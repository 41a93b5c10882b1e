import Omen.Library.Bitmap
import Omen.Library.SpanLedger

/- `bitfield_allocator.c`: a page allocator whose bitmap stands at the start of the region
   it manages. Bit `i` is page `i` counted from `available_address`; the search bounds page
   numbers by `bitmap_size`, a number of bytes. Calls are taken one at a time, so the lock
   is left out, and a call that panics has no result. -/
namespace OmenMemory
open ByteMemory Bitmap SpanLedger

structure Bitfield where
  data_address : Nat
  data_size : Nat
  available_address : Nat
  available_size : Nat
  page_size : Nat
  bitmap_size : Nat
  next_index : Nat
  /-- Memory from the bitmap on; the bitmap itself is its first `bitmap_size` bytes. -/
  bitmap : Mem

def sizeofBitfield : Nat := 72

def bytesToPages (bytes pageSize : Nat) : Nat :=
  bytes / pageSize + if bytes % pageSize ≠ 0 then 1 else 0

namespace Bitfield

def isFree (bf : Bitfield) (index : Nat) : Bool := !bitAt bf.bitmap index

def fitsFrom (bf : Bitfield) (i : Nat) : Nat → Bool
  | 0 => true
  | n + 1 => if bf.isFree i then fitsFrom bf (i + 1) n else false

/-- How often a loop from `index` to `index + pages` runs; the limit has 64 bits. -/
def loopCount (index pages : Nat) : Nat := (index + pages) % 2 ^ 64 - index

def fits (bf : Bitfield) (index pages : Nat) : Bool := bf.fitsFrom index (loopCount index pages)

def getFreeIndex (bf : Bitfield) (pages : Nat) : Nat :=
  let taken := fun i => !bf.fits i pages
  match firstClear taken bf.next_index (bf.bitmap_size - bf.next_index) with
  | some i => i
  | none =>
    match firstClear taken 0 bf.next_index with
    | some i => i
    | none => 0

def lockIndex (bf : Bitfield) (index pages : Nat) : Mem :=
  setRun bf.bitmap index (loopCount index pages)

def unLockIndex (bf : Bitfield) (index pages : Nat) : Mem :=
  clearRun bf.bitmap index (loopCount index pages)

def pagesFor (bf : Bitfield) (size : Nat) : Nat :=
  bytesToPages (if size < bf.page_size then bf.page_size else size) bf.page_size

def allocate (bf : Bitfield) (size : Nat) : Option (Nat × Bitfield) :=
  if bf.available_size < size then none
  else
    let pages := bf.pagesFor size
    let index := bf.getFreeIndex pages
    if index = 0 then none
    else
      let next := if index = bf.next_index then (index + pages) % 2 ^ 64 else bf.next_index
      some ((bf.available_address + index * bf.page_size) % 2 ^ 64,
        { bf with bitmap := bf.lockIndex index pages, next_index := next })

def deallocate (bf : Bitfield) (address size : Nat) : Option Bitfield :=
  if address < bf.available_address ∨
      (bf.available_address + bf.available_size) % 2 ^ 64 ≤ address then none
  else
    let index := (address - bf.available_address) / bf.page_size
    -- `size` is not raised to a page here
    let pages := bytesToPages size bf.page_size
    let next := if index < bf.next_index then index else bf.next_index
    some { bf with bitmap := bf.unLockIndex index pages, next_index := next }

end Bitfield

def lockedPages (bitmapSize pageSize : Nat) : Nat :=
  bytesToPages (sizeofBitfield + bitmapSize) pageSize

/-- The two loops of `init` over the bitmap: every locked page gets a byte, not a bit. -/
def initBitmap (memory : Mem) (locked bitmapSize : Nat) : Mem := fun i =>
  if i < locked then 1 else if i < bitmapSize then 0 else memory i

def init (dataAddress : Nat) (memory : Mem) (dataSize pageSize : Nat) : Option Bitfield :=
  if dataSize < sizeofBitfield ∨ pageSize = 0 ∨ dataSize < pageSize then none
  else
    let bitmapSize := bytesToPages dataSize pageSize / 8
    let locked := lockedPages bitmapSize pageSize
    some {
      data_address := dataAddress
      data_size := dataSize
      available_address :=
        (dataAddress + sizeofBitfield + bitmapSize + pageSize) % 2 ^ 64 &&& (2 ^ 64 - pageSize)
      available_size := (dataSize + 2 ^ 64 - (sizeofBitfield + bitmapSize)) % 2 ^ 64
      page_size := pageSize
      bitmap_size := bitmapSize
      next_index := locked
      bitmap := initBitmap memory locked bitmapSize }

structure Block where
  address : Nat
  size : Nat
  deriving DecidableEq

def Block.span (bf : Bitfield) (b : Block) : Span where
  first := (b.address + 2 ^ 64 - bf.available_address) % 2 ^ 64 / bf.page_size
  count := bf.pagesFor b.size

inductive Run (start : Bitfield) : Bitfield → List Block → Prop
  | init : Run start start []
  | allocate {bf bf' live size address} : Run start bf live → size < 2 ^ 64 →
      bf.allocate size = some (address, bf') → Run start bf' (⟨address, size⟩ :: live)
  | deallocate {bf bf' live b} : Run start bf live → b ∈ live →
      bf.deallocate b.address b.size = some bf' → Run start bf' (live.erase b)

def PagesDisjoint (bf : Bitfield) (live : List Block) : Prop :=
  live.Pairwise fun a b => (a.span bf).Apart (b.span bf)

theorem bytesToPages_bounds {bytes pageSize : Nat} (positive : 0 < pageSize) :
    bytes ≤ bytesToPages bytes pageSize * pageSize ∧
      bytesToPages bytes pageSize * pageSize < bytes + pageSize := by
  have whole := Nat.div_add_mod bytes pageSize
  have rest := Nat.mod_lt bytes positive
  rw [Nat.mul_comm] at whole
  unfold bytesToPages
  rw [Nat.add_mul]
  split
  · rw [Nat.one_mul]; omega
  · rw [Nat.zero_mul]; omega

theorem bytesToPages_le {bytes pageSize k : Nat} (large : k ≤ pageSize) (positive : 0 < k) :
    bytesToPages bytes pageSize * k < bytes + k := by
  have bounds := (@bytesToPages_bounds bytes pageSize (by omega)).2
  cases count : bytesToPages bytes pageSize with
  | zero => omega
  | succ n =>
    rw [count, Nat.succ_mul] at bounds
    have step : n * k ≤ n * pageSize := Nat.mul_le_mul_left n large
    rw [Nat.succ_mul]
    omega

theorem bytesToPages_mono {a b pageSize : Nat} (positive : 0 < pageSize) (le : a ≤ b) :
    bytesToPages a pageSize ≤ bytesToPages b pageSize := by
  have low := (@bytesToPages_bounds a pageSize positive).2
  have high := (@bytesToPages_bounds b pageSize positive).1
  by_contra more
  have step : (bytesToPages b pageSize + 1) * pageSize ≤ bytesToPages a pageSize * pageSize :=
    Nat.mul_le_mul_right _ (by omega)
  rw [Nat.succ_mul] at step
  omega

namespace Bitfield
variable {bf bf' : Bitfield}

theorem fitsFrom_iff (bf : Bitfield) (i n : Nat) :
    bf.fitsFrom i n = true ↔ ∀ k, i ≤ k → k < i + n → bitAt bf.bitmap k = false := by
  induction n generalizing i with
  | zero =>
    constructor
    · intro _ k low high
      omega
    · intro _
      rfl
  | succ n ih =>
    rw [fitsFrom, isFree]
    cases used : bitAt bf.bitmap i with
    | true =>
      constructor
      · intro fits
        cases fits
      · intro clear
        rw [clear i (by omega) (by omega)] at used
        cases used
    | false =>
      rw [Bool.not_false, if_pos rfl, ih]
      constructor
      · intro clear k low high
        by_cases first : k = i
        · rw [first, used]
        · exact clear k (by omega) (by omega)
      · intro clear k low high
        exact clear k (by omega) (by omega)

theorem loopCount_eq {index pages : Nat} (wide : index + pages < 2 ^ 64) :
    loopCount index pages = pages := by
  rw [loopCount, Nat.mod_eq_of_lt wide]
  omega

theorem loopCount_wraps {index pages : Nat} (reach : 2 ^ 64 ≤ index + pages)
    (low : pages < 2 ^ 64) : loopCount index pages = 0 := by
  rw [loopCount, Nat.mod_eq_sub_mod reach, Nat.sub_eq_zero_iff_le]
  have le := Nat.mod_le (index + pages - 2 ^ 64) (2 ^ 64)
  omega

theorem loopCount_le (index pages : Nat) : loopCount index pages ≤ pages := by
  have le := Nat.mod_le (index + pages) (2 ^ 64)
  unfold loopCount
  omega

theorem getFreeIndex_found {pages : Nat} (found : bf.getFreeIndex pages ≠ 0) :
    bf.fits (bf.getFreeIndex pages) pages = true ∧
      ((bf.next_index ≤ bf.getFreeIndex pages ∧ bf.getFreeIndex pages < bf.bitmap_size) ∨
        bf.getFreeIndex pages < bf.next_index) := by
  cases first : firstClear (fun i => !bf.fits i pages) bf.next_index
      (bf.bitmap_size - bf.next_index) with
  | some i =>
    have value : bf.getFreeIndex pages = i := by simp only [getFreeIndex, first]
    obtain ⟨low, high, fits, _⟩ := firstClear_some first
    rw [value]
    exact ⟨by simpa using fits, Or.inl ⟨low, by omega⟩⟩
  | none =>
    cases second : firstClear (fun i => !bf.fits i pages) 0 bf.next_index with
    | some i =>
      have value : bf.getFreeIndex pages = i := by simp only [getFreeIndex, first, second]
      obtain ⟨_, high, fits, _⟩ := firstClear_some second
      rw [value]
      exact ⟨by simpa using fits, Or.inr (by omega)⟩
    | none =>
      have value : bf.getFreeIndex pages = 0 := by simp only [getFreeIndex, first, second]
      exact absurd value found

theorem getFreeIndex_first {pages index : Nat} (behind : bf.bitmap_size ≤ bf.next_index)
    (low : index < bf.next_index) (here : bf.fits index pages = true)
    (before : ∀ i, i < index → bf.fits i pages = false) : bf.getFreeIndex pages = index := by
  have first : firstClear (fun i => !bf.fits i pages) bf.next_index
      (bf.bitmap_size - bf.next_index) = none := by
    rw [show bf.bitmap_size - bf.next_index = 0 by omega]
    rfl
  cases second : firstClear (fun i => !bf.fits i pages) 0 bf.next_index with
  | none =>
    have all := firstClear_none second index (by omega) (by omega)
    rw [here] at all
    cases all
  | some i =>
    obtain ⟨_, _, clear, taken⟩ := firstClear_some second
    simp only [getFreeIndex, first, second]
    rcases Nat.lt_trichotomy i index with less | same | more
    · rw [before i less] at clear
      cases clear
    · exact same
    · have all := taken index (by omega) more
      rw [here] at all
      cases all

def withMarks (bf : Bitfield) (bitmap : Mem) (next : Nat) : Bitfield :=
  { bf with bitmap := bitmap, next_index := next }

def locked (bf : Bitfield) : Nat := lockedPages bf.bitmap_size bf.page_size

def limit (bf : Bitfield) : Nat := max bf.bitmap_size bf.locked

def Reserved (bf : Bitfield) (i : Nat) : Prop := ∃ k, k < bf.locked ∧ i = 8 * k

end Bitfield

structure Region (bf : Bitfield) : Prop where
  header : sizeofBitfield ≤ bf.data_size
  small : bf.data_size < 2 ^ 64
  positive : 0 < bf.page_size
  short : bf.page_size < 2 ^ 16
  base : bf.available_address < 2 ^ 64
  bitmap : bf.bitmap_size = bytesToPages bf.data_size bf.page_size / 8
  available :
    bf.available_size = (bf.data_size + 2 ^ 64 - (sizeofBitfield + bf.bitmap_size)) % 2 ^ 64

/-- The bitmap leaves room for some data, or the page size keeps page counts small. -/
def SizesFit (bf : Bitfield) : Prop := bf.page_size = 1 → 82 ≤ bf.data_size

section Sizes
variable {bf : Bitfield}

theorem Region.bitmap_le (region : Region bf) {k : Nat} (positive : 0 < k)
    (large : k ≤ bf.page_size) : 8 * bf.bitmap_size * k < bf.data_size + k := by
  have pages := @bytesToPages_le bf.data_size bf.page_size k large positive
  have eighth : 8 * bf.bitmap_size ≤ bytesToPages bf.data_size bf.page_size := by
    rw [region.bitmap]
    omega
  exact Nat.lt_of_le_of_lt (Nat.mul_le_mul_right k eighth) pages

theorem Region.locked_le (region : Region bf) : bf.locked ≤ sizeofBitfield + bf.bitmap_size := by
  have pages := @bytesToPages_le (sizeofBitfield + bf.bitmap_size) bf.page_size 1 region.positive
    Nat.one_pos
  unfold Bitfield.locked lockedPages
  omega

theorem Bitfield.pagesFor_positive (positive : 0 < bf.page_size) (size : Nat) :
    0 < bf.pagesFor size := by
  have bounds := (@bytesToPages_bounds (if size < bf.page_size then bf.page_size else size)
    bf.page_size positive).1
  have large : bf.page_size ≤ if size < bf.page_size then bf.page_size else size := by
    split <;> omega
  unfold Bitfield.pagesFor
  apply Nat.pos_of_ne_zero
  intro none
  rw [none, Nat.zero_mul] at bounds
  omega

theorem Bitfield.pagesFor_le (positive : 0 < bf.page_size) {size k : Nat}
    (enough : size ≤ bf.available_size) (some : 0 < k) (large : k ≤ bf.page_size) :
    bf.pagesFor size = 1 ∨ bf.pagesFor size * k < bf.available_size + k := by
  unfold Bitfield.pagesFor
  split
  · left
    simp [bytesToPages, Nat.div_self positive]
  · right
    have pages := @bytesToPages_le size bf.page_size k large some
    omega

/-- The bound of the search hint: with small pages the bits that `init` has set stop every
    run after seven pages. -/
def nextBound (bf : Bitfield) : Nat :=
  sizeofBitfield + bf.bitmap_size + if bf.page_size ≤ 8 then 0 else 2 ^ 61

theorem Region.wide (region : Region bf) (safe : SizesFit bf) {index next size : Nat}
    (hint : next ≤ nextBound bf) (enough : size ≤ bf.available_size)
    (candidate : index < bf.bitmap_size ∨ index < next) :
    index + bf.pagesFor size < 2 ^ 64 := by
  have small := region.small
  have available := region.available
  have near : index < nextBound bf := by
    unfold nextBound sizeofBitfield at *
    omega
  unfold nextBound sizeofBitfield at near
  unfold sizeofBitfield at available
  by_cases one : bf.page_size = 1
  · have bytes := safe one
    have pages := Bitfield.pagesFor_le region.positive enough Nat.one_pos region.positive
    have bitmap : bf.bitmap_size = bf.data_size / 8 := by
      rw [region.bitmap, one, bytesToPages, Nat.div_one, Nat.mod_one]
      simp
    rw [if_pos (by omega)] at near
    omega
  · have two : 2 ≤ bf.page_size := by have := region.positive; omega
    by_cases few : bf.page_size ≤ 8
    · have pages := Bitfield.pagesFor_le region.positive enough Nat.two_pos two
      have bitmap := region.bitmap_le Nat.two_pos two
      rw [if_pos few] at near
      omega
    · have nine : 9 ≤ bf.page_size := by omega
      have pages := Bitfield.pagesFor_le region.positive enough (show 0 < 9 by decide) nine
      have bitmap := region.bitmap_le (show 0 < 9 by decide) nine
      rw [if_neg few] at near
      omega

theorem Region.offset_fits (region : Region bf) {index : Nat} (low : index < bf.limit) :
    index * bf.page_size < 2 ^ 64 := by
  have short := region.short
  have small := region.small
  have step : index * bf.page_size ≤ bf.bitmap_size * bf.page_size ∨
      index * bf.page_size ≤ bf.locked * bf.page_size := by
    have either : index < bf.bitmap_size ∨ index < bf.locked := by
      unfold Bitfield.limit at low
      omega
    rcases either with bitmap | locked
    · exact Or.inl (Nat.mul_le_mul_right _ (by omega))
    · exact Or.inr (Nat.mul_le_mul_right _ (by omega))
  have bitmap := region.bitmap_le region.positive (Nat.le_refl _)
  have bytes := region.bitmap_le Nat.one_pos region.positive
  have locked := (@bytesToPages_bounds (sizeofBitfield + bf.bitmap_size) bf.page_size
    region.positive).2
  rw [Nat.mul_assoc] at bitmap
  unfold Bitfield.locked lockedPages sizeofBitfield at *
  omega

end Sizes

structure Sound (start : Bitfield) (bitmap : Mem) (next : Nat) (live : List Block) : Prop where
  ledger : Ledger (Block.span start) start.Reserved (bitAt bitmap) live
  hint : next ≤ nextBound start
  placed : ∀ b ∈ live, (b.span start).first < start.limit
  covered : ∀ i, start.limit ≤ i → i < next → ∃ b ∈ live, (b.span start).Has i

section Steps
variable {start : Bitfield} {bitmap : Mem} {next : Nat} {live : List Block}

theorem Sound.run_short (sound : Sound start bitmap next live) (region : Region start)
    (few : start.page_size ≤ 8) {index pages : Nat} (inside : index < start.bitmap_size)
    (free : ∀ i, index ≤ i → i < index + pages → bitAt bitmap i = false) : pages < 8 := by
  by_contra many
  have bytes := (@bytesToPages_bounds (sizeofBitfield + start.bitmap_size) start.page_size
    region.positive).1
  have room : sizeofBitfield + start.bitmap_size ≤ start.locked * 8 :=
    Nat.le_trans bytes (Nat.mul_le_mul_left _ few)
  unfold sizeofBitfield at room
  have used := sound.ledger.kept (8 * ((index + 7) / 8)) ⟨(index + 7) / 8, by omega, rfl⟩
  rw [free _ (by omega) (by omega)] at used
  cases used

theorem Block.span_first {address index size : Nat} (region : Region start)
    (low : index < start.limit)
    (place : address = (start.available_address + index * start.page_size) % 2 ^ 64) :
    (Block.span start ⟨address, size⟩).first = index := by
  have fits := region.offset_fits low
  have base := region.base
  have back : (address + 2 ^ 64 - start.available_address) % 2 ^ 64 = index * start.page_size := by
    omega
  dsimp only [Block.span]
  rw [back, Nat.mul_div_cancel _ region.positive]

theorem Block.span_has {address index size : Nat} (region : Region start)
    (low : index < start.limit)
    (place : address = (start.available_address + index * start.page_size) % 2 ^ 64) (i : Nat) :
    (Block.span start ⟨address, size⟩).Has i ↔ index ≤ i ∧ i < index + start.pagesFor size := by
  rw [Span.Has, Block.span_first region low place]
  rfl

theorem Bitfield.allocate_some {size address : Nat} {bf' : Bitfield}
    (run : (start.withMarks bitmap next).allocate size = some (address, bf')) :
    ∃ index, index = (start.withMarks bitmap next).getFreeIndex (start.pagesFor size) ∧
      size ≤ start.available_size ∧
      ((next ≤ index ∧ index < start.bitmap_size) ∨ index < next) ∧
      (∀ i, index ≤ i → i < index + loopCount index (start.pagesFor size) →
        bitAt bitmap i = false) ∧
      address = (start.available_address + index * start.page_size) % 2 ^ 64 ∧
      bf' = start.withMarks (setRun bitmap index (loopCount index (start.pagesFor size)))
        (if index = next then (index + start.pagesFor size) % 2 ^ 64 else next) := by
  unfold Bitfield.allocate at run
  split at run
  · cases run
  · rename_i enough
    by_cases none : (start.withMarks bitmap next).getFreeIndex (start.pagesFor size) = 0
    · exact absurd (run.symm.trans (if_pos none)) (by simp)
    · have result := run.symm.trans (if_neg none)
      simp only [Option.some.injEq, Prod.mk.injEq] at result
      obtain ⟨fits, candidate⟩ := Bitfield.getFreeIndex_found none
      exact ⟨_, rfl, Nat.not_lt.mp enough, candidate, (Bitfield.fitsFrom_iff _ _ _).mp fits,
        result.1, result.2⟩

theorem Sound.allocated (sound : Sound start bitmap next live) (region : Region start)
    (safe : SizesFit start) {size address : Nat} {bf' : Bitfield}
    (run : (start.withMarks bitmap next).allocate size = some (address, bf')) :
    ∃ index, index = (start.withMarks bitmap next).getFreeIndex (start.pagesFor size) ∧
      index < start.limit ∧ size ≤ start.available_size ∧
      ((next ≤ index ∧ index < start.bitmap_size) ∨ index < next) ∧
      (∀ i, index ≤ i → i < index + start.pagesFor size → bitAt bitmap i = false) ∧
      address = (start.available_address + index * start.page_size) % 2 ^ 64 ∧
      bf' = start.withMarks (setRun bitmap index (start.pagesFor size))
        (if index = next then index + start.pagesFor size else next) := by
  obtain ⟨index, found, enough, candidate, free, place, after⟩ := Bitfield.allocate_some run
  have wide : index + start.pagesFor size < 2 ^ 64 :=
    region.wide safe sound.hint enough (candidate.imp And.right id)
  rw [Bitfield.loopCount_eq wide] at free after
  rw [Nat.mod_eq_of_lt wide] at after
  have positive := Bitfield.pagesFor_positive region.positive size
  refine ⟨index, found, ?_, enough, candidate, free, place, after⟩
  by_contra far
  have behind : index < next := by
    have bound : start.bitmap_size ≤ start.limit := Nat.le_max_left _ _
    rcases candidate with first | second
    · omega
    · exact second
  obtain ⟨b, member, inside⟩ := sound.covered index (by omega) behind
  have used := sound.ledger.marked b member index inside
  rw [free index (by omega) (by omega)] at used
  cases used

theorem Sound.allocate (sound : Sound start bitmap next live) (region : Region start)
    (safe : SizesFit start) {size address : Nat} {bf' : Bitfield}
    (run : (start.withMarks bitmap next).allocate size = some (address, bf')) :
    ∃ bitmap' next', bf' = start.withMarks bitmap' next' ∧
      Sound start bitmap' next' (⟨address, size⟩ :: live) := by
  obtain ⟨index, -, low, enough, candidate, free, place, after⟩ := sound.allocated region safe run
  have first := @Block.span_first start address index size region low place
  have span := @Block.span_has start address index size region low place
  have marks : ∀ i, bitAt (setRun bitmap index (start.pagesFor size)) i =
      if index ≤ i ∧ i < index + start.pagesFor size then true else bitAt bitmap i :=
    bitAt_setRun bitmap index (start.pagesFor size)
  refine ⟨_, _, after, ?_, ?_, ?_, ?_⟩
  · refine sound.ledger.take ?_ ?_ ?_
    · intro i inside
      obtain ⟨low, high⟩ := (span i).mp inside
      exact free i low high
    · intro i inside
      rw [marks, if_pos ((span i).mp inside)]
    · intro i away
      rw [marks, if_neg (fun inside => away ((span i).mpr inside))]
  · split
    · rename_i same
      have inside : index < start.bitmap_size := by
        rcases candidate with first | second
        · exact first.2
        · omega
      unfold nextBound
      by_cases few : start.page_size ≤ 8
      · have short := sound.run_short region few inside free
        rw [if_pos few]
        unfold sizeofBitfield
        omega
      · have nine : 9 ≤ start.page_size := by omega
        have pages := Bitfield.pagesFor_le region.positive enough (show 0 < 9 by decide) nine
        have bytes := region.available
        rw [if_neg few]
        omega
    · exact sound.hint
  · intro b member
    rcases List.mem_cons.mp member with rfl | old
    · rwa [first]
    · exact sound.placed b old
  · intro i far high
    by_cases new : index ≤ i ∧ i < index + start.pagesFor size
    · exact ⟨_, List.mem_cons_self, (span i).mpr new⟩
    · have old : i < next := by
        split at high <;> omega
      obtain ⟨b, member, inside⟩ := sound.covered i far old
      exact ⟨b, List.mem_cons_of_mem _ member, inside⟩

theorem Bitfield.deallocate_some {b : Block} {bf' : Bitfield} (base : b.address < 2 ^ 64)
    (run : (start.withMarks bitmap next).deallocate b.address b.size = some bf') :
    ∃ index, index = (b.span start).first ∧
      bf' = start.withMarks
        (clearRun bitmap index (loopCount index (bytesToPages b.size start.page_size)))
        (if index < next then index else next) := by
  unfold Bitfield.deallocate at run
  split at run
  · cases run
  · rename_i inside
    have low : start.available_address ≤ b.address := Nat.not_lt.mp (not_or.mp inside).1
    have back : (b.address + 2 ^ 64 - start.available_address) % 2 ^ 64 =
        b.address - start.available_address := by omega
    refine ⟨(b.address - start.available_address) / start.page_size, ?_, ?_⟩
    · dsimp only [Block.span]
      rw [back]
    · exact (Option.some.inj run).symm

theorem Sound.deallocate (sound : Sound start bitmap next live) (region : Region start)
    {b : Block} (member : b ∈ live) (base : b.address < 2 ^ 64) {bf' : Bitfield}
    (run : (start.withMarks bitmap next).deallocate b.address b.size = some bf') :
    ∃ bitmap' next', bf' = start.withMarks bitmap' next' ∧
      Sound start bitmap' next' (live.erase b) := by
  obtain ⟨index, first, after⟩ := Bitfield.deallocate_some base run
  have low : index < start.limit := first ▸ sound.placed b member
  have count : Bitfield.loopCount index (bytesToPages b.size start.page_size) ≤
      (b.span start).count := by
    have pages : bytesToPages b.size start.page_size ≤ start.pagesFor b.size :=
      bytesToPages_mono region.positive (by split <;> omega)
    exact Nat.le_trans (Bitfield.loopCount_le _ _) pages
  refine ⟨_, _, after, ?_, ?_, ?_, ?_⟩
  · refine sound.ledger.give member ?_
    intro i away
    rw [bitAt_clearRun, if_neg]
    rintro ⟨from_first, to_last⟩
    exact away ⟨by omega, by omega⟩
  · have hint := sound.hint
    split <;> omega
  · intro c stays
    exact sound.placed c (List.mem_of_mem_erase stays)
  · intro i far high
    split at high
    · omega
    · obtain ⟨c, held, inside⟩ := sound.covered i far high
      refine ⟨c, ?_, inside⟩
      -- the block that covers `i` starts before the hint, the one given back does not
      have other : c ≠ b := by
        rintro rfl
        have start := inside.1
        omega
      exact (List.mem_erase_of_ne other).mpr held

end Steps

section Runs
variable {dataAddress dataSize pageSize : Nat} {memory : Mem} {start : Bitfield}

theorem init_region (accepted : init dataAddress memory dataSize pageSize = some start)
    (small : dataSize < 2 ^ 64) (short : pageSize < 2 ^ 16) :
    Region start ∧ start.data_size = dataSize ∧ start.page_size = pageSize ∧
      start.next_index = start.locked ∧
      start.bitmap = initBitmap memory start.locked start.bitmap_size := by
  unfold init at accepted
  split at accepted
  · cases accepted
  · rename_i fits
    obtain ⟨header, nonzero, _⟩ : ¬ dataSize < sizeofBitfield ∧ ¬ pageSize = 0 ∧
        ¬ dataSize < pageSize := by
      simpa only [not_or] using fits
    cases accepted
    refine ⟨⟨Nat.not_lt.mp header, small, Nat.pos_of_ne_zero nonzero, short, ?_, rfl, rfl⟩, rfl,
      rfl, rfl, rfl⟩
    exact Nat.lt_of_le_of_lt Nat.and_le_left (Nat.mod_lt _ (by decide))

theorem init_sound (region : Region start) (hint : start.next_index = start.locked)
    (bitmap : start.bitmap = initBitmap memory start.locked start.bitmap_size) :
    Sound start start.bitmap start.next_index [] := by
  constructor
  · refine Ledger.start ?_
    rintro i ⟨k, low, rfl⟩
    have byte : 8 * k / 8 = k ∧ 8 * k % 8 = 0 := by omega
    rw [bitAt, byte.1, byte.2, bitmap, initBitmap, if_pos low]
    rfl
  · have locked := region.locked_le
    unfold nextBound
    omega
  · intro b member
    cases member
  · intro i far high
    have le : start.locked ≤ start.limit := Nat.le_max_right _ _
    omega

/-- What holds of each answer when it is given holds of every live block. -/
theorem Run.each {holds : Block → Prop} {bf : Bitfield} {live : List Block}
    (run : Run start bf live) (answers : ∀ bf live size address bf', Run start bf live →
      bf.allocate size = some (address, bf') → holds ⟨address, size⟩) : ∀ b ∈ live, holds b := by
  induction run with
  | init => exact fun b member => absurd member List.not_mem_nil
  | allocate before _ call ih =>
    intro b member
    rcases List.mem_cons.mp member with rfl | old
    · exact answers _ _ _ _ _ before call
    · exact ih b old
  | deallocate _ _ _ ih => exact fun b member => ih b (List.mem_of_mem_erase member)

theorem Run.addresses {bf : Bitfield} {live : List Block} (run : Run start bf live) :
    ∀ b ∈ live, b.address < 2 ^ 64 := by
  refine run.each fun bf live size address bf' _ call => ?_
  unfold Bitfield.allocate at call
  split at call
  · cases call
  · dsimp only at call
    split at call
    · cases call
    · cases call
      exact Nat.mod_lt _ (by decide)

theorem Run.sound {bf : Bitfield} {live : List Block} (run : Run start bf live)
    (region : Region start) (safe : SizesFit start)
    (initial : Sound start start.bitmap start.next_index []) :
    ∃ bitmap next, bf = start.withMarks bitmap next ∧ Sound start bitmap next live := by
  induction run with
  | init => exact ⟨_, _, rfl, initial⟩
  | allocate _ _ call ih =>
    obtain ⟨bitmap, next, rfl, sound⟩ := ih
    exact sound.allocate region safe call
  | deallocate before member call ih =>
    obtain ⟨bitmap, next, rfl, sound⟩ := ih
    exact sound.deallocate region member (before.addresses _ member) call

/-- One-byte pages, and fewer bytes than the header and the bitmap take: the available size
    has wrapped. -/
theorem Region.wrapped (region : Region start) (one : start.page_size = 1)
    (tiny : start.data_size < 82) :
    start.bitmap_size ≤ 10 ∧ start.locked = sizeofBitfield + start.bitmap_size ∧
      start.data_size < sizeofBitfield + start.bitmap_size ∧
      start.available_size + (sizeofBitfield + start.bitmap_size - start.data_size) = 2 ^ 64 := by
  have header := region.header
  have available := region.available
  unfold sizeofBitfield at header available ⊢
  have bitmap : start.bitmap_size = start.data_size / 8 := by
    rw [region.bitmap, one, bytesToPages, Nat.div_one, Nat.mod_one]
    simp
  have locked : start.locked = 72 + start.bitmap_size := by
    unfold Bitfield.locked lockedPages sizeofBitfield
    rw [one, bytesToPages, Nat.div_one, Nat.mod_one]
    simp
  refine ⟨by omega, locked, by omega, ?_⟩
  rw [available, bitmap, Nat.mod_eq_of_lt (by omega)]
  omega

theorem Bitfield.pagesFor_bytes (one : start.page_size = 1) {size : Nat} (some : 0 < size) :
    start.pagesFor size = size := by
  unfold Bitfield.pagesFor
  rw [one, if_neg (by omega), bytesToPages, Nat.div_one, Nat.mod_one]
  simp

/-- A loop whose end wraps does not start, so that the run fits. -/
theorem Bitfield.fits_wraps {bf : Bitfield} {index pages : Nat} (reach : 2 ^ 64 ≤ index + pages)
    (low : pages < 2 ^ 64) : bf.fits index pages = true := by
  rw [Bitfield.fits, Bitfield.loopCount_wraps reach low]
  rfl

theorem Sound.unfit {bitmap : Mem} {next : Nat} {live : List Block}
    (sound : Sound start bitmap next live) {index pages : Nat} (low : index < start.locked)
    (more : 2 ≤ start.locked) (long : 8 ≤ pages) (wide : index + pages < 2 ^ 64) :
    (start.withMarks bitmap next).fits index pages = false := by
  by_contra free
  have clear := (Bitfield.fitsFrom_iff _ _ _).mp (Bool.not_eq_false _ ▸ free)
  rw [Bitfield.loopCount_eq wide] at clear
  have used := sound.ledger.kept (8 * ((index + 7) / 8)) ⟨(index + 7) / 8, by omega, rfl⟩
  have unused : bitAt bitmap (8 * ((index + 7) / 8)) = false := clear _ (by omega) (by omega)
  rw [unused] at used
  cases used

/-- A request for nearly all of a wrapped available size always succeeds at the same page and
    locks nothing. -/
theorem overlapping_run (region : Region start) (one : start.page_size = 1)
    (tiny : start.data_size < 82) (hint : start.next_index = start.locked)
    (sound : Sound start start.bitmap start.next_index []) :
    ∃ b : Block, Run start start [b, b] ∧ (b.span start).Has (b.span start).first := by
  obtain ⟨short, locked, less, wrapped⟩ := region.wrapped one tiny
  have header := region.header
  unfold sizeofBitfield at header locked less wrapped
  have pages := start.pagesFor_bytes one (show 0 < start.available_size by omega)
  generalize place : 2 ^ 64 - start.available_size = index at *
  have search : start.getFreeIndex start.available_size = index := by
    refine Bitfield.getFreeIndex_first (by omega) (by omega)
      (Bitfield.fits_wraps (by omega) (by omega)) ?_
    intro i low
    exact sound.unfit (by omega) (by omega) (by omega) (by omega)
  have call : start.allocate start.available_size =
      some ((start.available_address + index * start.page_size) % 2 ^ 64, start) := by
    unfold Bitfield.allocate
    rw [if_neg (Nat.lt_irrefl _), pages]
    simp only [search]
    rw [if_neg (by omega), if_neg (by omega), Bitfield.lockIndex,
      Bitfield.loopCount_wraps (by omega) (by omega)]
    rfl
  refine ⟨⟨(start.available_address + index * start.page_size) % 2 ^ 64,
    start.available_size⟩, ?_, ?_⟩
  · exact Run.allocate (Run.allocate Run.init (by omega) call) (by omega) call
  · refine ⟨Nat.le_refl _, ?_⟩
    have positive := Bitfield.pagesFor_positive region.positive start.available_size
    exact Nat.lt_add_of_pos_right positive

end Runs

theorem allocations_disjoint_iff {dataAddress dataSize pageSize : Nat} {memory : Mem}
    {start : Bitfield} (small : dataSize < 2 ^ 64) (short : pageSize < 2 ^ 16)
    (accepted : init dataAddress memory dataSize pageSize = some start) :
    (∀ bf live, Run start bf live → PagesDisjoint start live) ↔
      ¬ (pageSize = 1 ∧ dataSize < 82) := by
  obtain ⟨region, size, page, hint, bitmap⟩ := init_region accepted small short
  have sound := init_sound region hint bitmap
  constructor
  · rintro disjoint ⟨one, tiny⟩
    obtain ⟨b, run, inside⟩ :=
      overlapping_run region (page.trans one) (size ▸ tiny) hint sound
    have apart := (List.pairwise_cons.mp (disjoint start [b, b] run)).1 b List.mem_cons_self
    exact apart _ inside inside
  · intro safe bf live run
    have fits : SizesFit start := by
      intro one
      by_contra tiny
      exact safe ⟨page.symm.trans one, by omega⟩
    obtain ⟨_, _, _, held⟩ := run.sound region fits sound
    exact held.ledger.apart

/-- A region of sixteen pages. -/
theorem allocations_disjoint_sixteen :
    ∃ start, init 0x100000 blank 0x10000 4096 = some start ∧
      ∀ bf live, Run start bf live → PagesDisjoint start live :=
  ⟨_, rfl, (@allocations_disjoint_iff 0x100000 0x10000 4096 blank _ (by decide) (by decide)
    rfl).mpr (by decide)⟩

/-- Eighty bytes in pages of one byte are accepted, with two bytes less than the header and
    the bitmap take. -/
theorem allocations_overlap :
    ¬ ∀ (dataAddress dataSize pageSize : Nat) (memory : Mem) (start : Bitfield),
      dataSize < 2 ^ 64 → pageSize < 2 ^ 16 →
      init dataAddress memory dataSize pageSize = some start →
      ∀ bf live, Run start bf live → PagesDisjoint start live := by
  intro all
  obtain ⟨region, size, page, hint, bitmap⟩ :=
    @init_region 0 80 1 blank _ rfl (by decide) (by decide)
  obtain ⟨b, run, inside⟩ := overlapping_run region page (size ▸ by decide) hint
    (init_sound region hint bitmap)
  have disjoint := all 0 80 1 blank _ (by decide) (by decide) rfl _ _ run
  exact (List.pairwise_cons.mp disjoint).1 b List.mem_cons_self _ inside inside

end OmenMemory
