import Omen.Memory.BitfieldSearch

/- What is left of a run of the page allocator when every block has been given back: the
   marks of `init`, and a hint that may be lower than the one `init` has set. -/
namespace OmenMemory
open ByteMemory Bitmap SpanLedger

/-- The marks are those of `start`, and every request that `start` serves is served, with a
    block of the same length. -/
structure Restored (start bf : Bitfield) : Prop where
  bitmap : bf.bitmap = start.bitmap
  again : ∀ size address bf', size < 2 ^ 64 → start.allocate size = some (address, bf') →
    ∃ address' bf'', bf.allocate size = some (address', bf'') ∧
      (Block.span bf ⟨address', size⟩).count = (Block.span start ⟨address, size⟩).count

def FullyReusable (start : Bitfield) : Prop :=
  ∀ bf, SizedRun start (0 < ·) bf [] → Restored start bf

def Bitfield.FirstReturns (bf : Bitfield) : Prop :=
  bf.available_address ≤ (bf.available_address + bf.page_size) % 2 ^ 64 ∧
    (bf.available_address + bf.page_size) % 2 ^ 64 <
      (bf.available_address + bf.available_size) % 2 ^ 64

instance (bf : Bitfield) : Decidable bf.FirstReturns := inferInstanceAs (Decidable (_ ∧ _))

section Keeps
variable {start bf : Bitfield} {live : List Block}

theorem Region.page_panics (region : Region start) (held : ¬ start.FirstReturns)
    (bitmap : Mem) (next : Nat) {index : Nat} (size : Nat) (some : 1 ≤ index)
    (low : index < start.limit) :
    (start.withMarks bitmap next).deallocate
      ((start.available_address + index * start.page_size) % 2 ^ 64) size = none := by
  have base := region.base
  have offset := region.offset_fits low
  have page := Nat.mul_le_mul_right start.page_size some
  rw [Nat.one_mul] at page
  refine if_pos ?_
  change (start.available_address + index * start.page_size) % 2 ^ 64 < start.available_address ∨
    (start.available_address + start.available_size) % 2 ^ 64 ≤
      (start.available_address + index * start.page_size) % 2 ^ 64
  unfold Bitfield.FirstReturns at held
  generalize (start.available_address + start.available_size) % 2 ^ 64 = bound at held ⊢
  omega

theorem Restored.refl (start : Bitfield) : Restored start start where
  bitmap := rfl
  again := fun _ address bf' _ call => ⟨address, bf', call, rfl⟩

theorem FullyReusable.stuck (region : Region start) (few : start.bitmap_size < start.locked)
    (hint : start.next_index = start.locked) (held : ¬ start.FirstReturns) :
    FullyReusable start := by
  intro bf sized
  have panics : ∀ bitmap next index size, 1 ≤ index → index < start.locked →
      (start.withMarks bitmap next).deallocate
        ((start.available_address + index * start.page_size) % 2 ^ 64) size = none := by
    intro bitmap next index size some low
    exact region.page_panics held bitmap next size some
      (Nat.lt_of_lt_of_le low (Nat.le_max_right _ _))
  generalize ended : ([] : List Block) = live at sized
  cases sized with
  | init => exact Restored.refl start
  | allocate => cases ended
  | deallocate before member call =>
    rw [(before.run.stuck few hint panics).2 _ member] at call
    cases call

theorem fits_first {memory : Mem} (bitmap : start.bitmap = initBitmap memory start.locked
    start.bitmap_size) (more : 2 ≤ start.locked) {index pages : Nat} (low : index < start.locked)
    (free : ∀ i, index ≤ i → i < index + pages → bitAt start.bitmap i = false) :
    ∀ i, 1 ≤ i → i < 1 + pages → bitAt start.bitmap i = false := by
  have short : pages < 8 := by
    by_contra long
    have clear := free (8 * ((index + 7) / 8)) (by omega) (by omega)
    rw [bitmap, bitAt_initBitmap, if_pos (by omega), decide_eq_false_iff_not] at clear
    omega
  intro i first last
  rw [bitmap, bitAt_initBitmap, if_pos (by omega), decide_eq_false_iff_not]
  omega

theorem FullyReusable.searched {memory : Mem} (region : Region start) (safe : SizesFit start)
    (hint : start.next_index = start.locked)
    (bitmap : start.bitmap = initBitmap memory start.locked start.bitmap_size)
    (sight : start.locked ≤ start.bitmap_size ∨ 2 ≤ start.bitmap_size ∨ start.locked ≤ 1) :
    FullyReusable start := by
  intro bf sized
  have initial := init_sound region hint bitmap
  have exactly := sized.exact region safe initial (fun size some => some)
  obtain ⟨marks, next, rfl, sound⟩ := sized.run.sound region safe initial
  have same : marks = start.bitmap := by
    apply mem_ext
    funext i
    exact Bool.eq_iff_iff.mpr (exactly.all_back i)
  subst same
  refine ⟨rfl, ?_⟩
  intro size address bf' _ call
  obtain ⟨index, -, low, enough, -, free, -⟩ := initial.allocated region safe call
  have some := Bitfield.pagesFor_positive region.positive size
  have wide := region.wide_below safe low enough
  -- a page from which the request fits and that every search looks at
  obtain ⟨first, near, clear⟩ : ∃ first, first < start.bitmap_size ∧
      ∀ i, first ≤ i → i < first + start.pagesFor size → bitAt start.bitmap i = false := by
    unfold Bitfield.limit at low
    by_cases inside : start.locked ≤ start.bitmap_size
    · exact ⟨index, by omega, free⟩
    · have more : 2 ≤ start.locked := by
        by_contra one
        have zero := initial.ledger.kept 0 ⟨0, region.locked_positive, rfl⟩
        rw [free 0 (by omega) (by omega)] at zero
        cases zero
      exact ⟨1, by omega, fits_first bitmap more (by omega) free⟩
  have fits : (start.withMarks start.bitmap next).fits first (start.pagesFor size) = true := by
    refine (Bitfield.fitsFrom_iff _ _ _).mpr ?_
    intro i from_first to_last
    have count := Bitfield.loopCount_le first (start.pagesFor size)
    exact clear i from_first (by omega)
  have found := @Bitfield.allocate_succeeds (start.withMarks start.bitmap next) _ _ enough fits
    (Or.inl near) (sound.zero_unfit region size (by omega))
  obtain ⟨⟨address', bf''⟩, result⟩ := Option.isSome_iff_exists.mp found
  exact ⟨address', bf'', result, rfl⟩

theorem Bitfield.fits_hint (bitmap : Mem) (next next' index pages : Nat) :
    (start.withMarks bitmap next).fits index pages =
      (start.withMarks bitmap next').fits index pages := by
  rw [Bitfield.fits, Bitfield.fits, Bool.eq_iff_iff, Bitfield.fitsFrom_iff, Bitfield.fitsFrom_iff]
  rfl

theorem Bitfield.allocate_fails {size : Nat}
    (unfit : ∀ i, i < bf.bitmap_size ∨ i < bf.next_index → bf.fits i (bf.pagesFor size) = false) :
    bf.allocate size = none := by
  by_contra some
  obtain ⟨result, call⟩ := Option.ne_none_iff_exists'.mp some
  have found := Bitfield.allocate_found call
  obtain ⟨fits, sight⟩ := Bitfield.getFreeIndex_found found
  rw [unfit _ (sight.imp And.right id)] at fits
  cases fits

theorem Bitfield.FirstReturns.byte (returns : start.FirstReturns) (region : Region start) :
    1 ≤ start.available_size := by
  have base := region.base
  obtain ⟨low, high⟩ := returns
  by_contra none
  rw [Nat.lt_one_iff.mp (Nat.not_le.mp none), Nat.add_zero, Nat.mod_eq_of_lt base] at high
  omega

/- An allocator of `init` whose bitmap is shorter than its locked pages can lose page 1. -/
section Short
variable {memory : Mem} (region : Region start) (hint : start.next_index = start.locked)
  (bitmap : start.bitmap = initBitmap memory start.locked start.bitmap_size)
include region hint bitmap

theorem first_request (few : start.bitmap_size < start.locked) (more : 2 ≤ start.locked)
    (byte : 1 ≤ start.available_size) :
    start.allocate 1 = some ((start.available_address + start.page_size) % 2 ^ 64,
      start.withMarks (setRun start.bitmap 1 1) start.next_index) := by
  have initial := init_sound region hint bitmap
  have one := @Bitfield.pagesFor_one start region.positive
  have search : start.getFreeIndex 1 = 1 := by
    refine Bitfield.getFreeIndex_first (by omega) (by omega) ?_ ?_
    · refine (Bitfield.fitsFrom_iff _ _ _).mpr ?_
      intro i low high
      change i < 1 + 1 at high
      rw [bitmap, bitAt_initBitmap, if_pos (by omega), decide_eq_false_iff_not]
      omega
    · intro i low
      have zero := initial.zero_unfit region 1 (by omega)
      rw [one] at zero
      rw [Nat.lt_one_iff.mp low]
      exact zero
  unfold Bitfield.allocate
  rw [if_neg (Nat.not_lt.mpr byte), one]
  simp only [search]
  rw [if_neg (by omega), if_neg (by omega), Nat.one_mul]
  rfl

theorem first_release (more : 2 ≤ start.locked) (returns : start.FirstReturns) :
    (start.withMarks (setRun start.bitmap 1 1) start.next_index).deallocate
      ((start.available_address + start.page_size) % 2 ^ 64) 1 =
        some (start.withMarks start.bitmap 1) := by
  obtain ⟨low, high⟩ := returns
  have base := region.base
  have positive := region.positive
  have address : (start.available_address + start.page_size) % 2 ^ 64 =
      start.available_address + start.page_size := by
    have short := region.short
    omega
  have index : (start.available_address + start.page_size - start.available_address) /
      start.page_size = 1 := by
    rw [Nat.add_sub_cancel_left, Nat.div_self positive]
  have pages : bytesToPages 1 start.page_size = 1 := by
    rw [Bitfield.pagesFor_released positive Nat.one_pos, Bitfield.pagesFor_one positive]
  have marks : clearRun (setRun start.bitmap 1 1) 1 1 = start.bitmap := by
    apply mem_ext
    funext i
    rw [bitAt_clearRun, bitAt_setRun]
    split
    · rw [bitmap, bitAt_initBitmap, if_pos (by omega), eq_comm, decide_eq_false_iff_not]
      omega
    · rfl
  refine (if_neg (not_or.mpr ⟨Nat.not_lt.mpr low, Nat.not_le.mpr high⟩)).trans ?_
  rw [address]
  simp only [Bitfield.withMarks, Bitfield.unLockIndex, index, pages]
  rw [if_pos (by omega), Bitfield.loopCount_eq (by decide), marks]

/-- After page 1 has been taken and given back, only page 0 and the pages below `bitmap_size`
    are in sight. -/
theorem FullyReusable.lowered (reusable : FullyReusable start)
    (few : start.bitmap_size < start.locked) (more : 2 ≤ start.locked)
    (returns : start.FirstReturns) : Restored start (start.withMarks start.bitmap 1) := by
  have taken := first_request region hint bitmap few more (returns.byte region)
  have given := first_release region hint bitmap more returns
  have run := SizedRun.deallocate
    (SizedRun.allocate SizedRun.init (by decide) (show 0 < 1 by decide) taken)
    List.mem_cons_self given
  rw [List.erase_cons_head] at run
  exact reusable _ run

theorem not_reusable_short (low : start.bitmap_size ≤ 1) (more : 2 ≤ start.locked)
    (returns : start.FirstReturns) : ¬ FullyReusable start := by
  intro reusable
  have initial := init_sound region hint bitmap
  have one := @Bitfield.pagesFor_one start region.positive
  have served := first_request region hint bitmap (by omega) more (returns.byte region)
  obtain ⟨_, _, again, -⟩ :=
    (reusable.lowered region hint bitmap (by omega) more returns).again 1 _ _ (by decide) served
  have fails : (start.withMarks start.bitmap 1).allocate 1 = none := by
    apply Bitfield.allocate_fails
    intro i sight
    have zero : i = 0 := by
      change i < start.bitmap_size ∨ i < 1 at sight
      omega
    rw [zero]
    exact (Bitfield.fits_hint start.bitmap 1 start.next_index 0 _).trans
      (initial.zero_unfit region 1 (by omega))
  rw [fails] at again
  cases again

/-- A wrapped available size serves a request of nearly 2^64 bytes where its loops wrap; a
    lower hint hides that page. -/
theorem not_reusable_wrapped (one : start.page_size = 1) (tiny : start.data_size < 82)
    (returns : start.FirstReturns) : ¬ FullyReusable start := by
  intro reusable
  have initial := init_sound region hint bitmap
  obtain ⟨short, locked, less, wrapped⟩ := region.wrapped one tiny
  have header := region.header
  unfold sizeofBitfield at header locked less wrapped
  generalize request : 2 ^ 64 - (start.locked - 1) = size at *
  have pages := @Bitfield.pagesFor_bytes start one size (by omega)
  have unfit : ∀ i, i < start.locked - 1 → start.fits i size = false := by
    intro i low
    exact initial.unfit (by omega) (by omega) (by omega) (by omega)
  have search : start.getFreeIndex (start.pagesFor size) = start.locked - 1 := by
    rw [pages]
    exact Bitfield.getFreeIndex_first (by omega) (by omega)
      (Bitfield.fits_wraps (by omega) (by omega)) unfit
  obtain ⟨result, served⟩ : ∃ result, start.allocate size = some result := by
    unfold Bitfield.allocate
    rw [if_neg (by omega)]
    dsimp only
    rw [if_neg (by omega)]
    exact ⟨_, rfl⟩
  obtain ⟨_, _, again, -⟩ := (reusable.lowered region hint bitmap (by omega) (by omega)
    returns).again size result.1 result.2 (by omega) served
  have fails : (start.withMarks start.bitmap 1).allocate size = none := by
    apply Bitfield.allocate_fails
    intro i sight
    change i < start.bitmap_size ∨ i < 1 at sight
    have missing := unfit i (by omega)
    rw [← pages] at missing
    exact (Bitfield.fits_hint start.bitmap 1 start.next_index i _).trans missing
  rw [fails] at again
  cases again

end Short
end Keeps

theorem reusable_iff {dataAddress dataSize pageSize : Nat} {memory : Mem} {start : Bitfield}
    (small : dataSize < 2 ^ 64) (short : pageSize < 2 ^ 16)
    (accepted : init dataAddress memory dataSize pageSize = some start) :
    FullyReusable start ↔
      ¬ (start.FirstReturns ∧
        ((start.bitmap_size ≤ 1 ∧ 2 ≤ start.locked) ∨ (pageSize = 1 ∧ dataSize < 82))) := by
  obtain ⟨region, size, page, hint, bitmap⟩ := init_region accepted small short
  constructor
  · rintro reusable ⟨returns, ⟨low, more⟩ | ⟨one, tiny⟩⟩
    · exact not_reusable_short region hint bitmap low more returns reusable
    · exact not_reusable_wrapped region hint bitmap (page.trans one) (by omega) returns reusable
  · intro condition
    by_cases inside : start.locked ≤ start.bitmap_size
    · exact FullyReusable.searched region (region.sizesFit inside) hint bitmap (Or.inl inside)
    · by_cases returns : start.FirstReturns
      · have safe : SizesFit start := by
          intro one
          by_contra tiny
          exact condition ⟨returns, Or.inr ⟨page.symm.trans one, by omega⟩⟩
        have sight : ¬ (start.bitmap_size ≤ 1 ∧ 2 ≤ start.locked) :=
          fun both => condition ⟨returns, Or.inl both⟩
        exact FullyReusable.searched region safe hint bitmap (by omega)
      · exact FullyReusable.stuck region (by omega) hint returns

/-- Sixteen pages of four kilobytes. -/
theorem reusable_sixteen :
    ∃ start, init 0x100000 blank 0x10000 4096 = some start ∧ FullyReusable start :=
  ⟨_, rfl, (@reusable_iff 0x100000 0x10000 4096 blank _ (by decide) (by decide) rfl).mpr
    (by decide)⟩

/-- Eight pages of 64 bytes: a bitmap of one byte and two locked pages. -/
theorem page_lost_on_release :
    ¬ ∀ (dataAddress dataSize pageSize : Nat) (memory : Mem) (start : Bitfield),
      dataSize < 2 ^ 64 → pageSize < 2 ^ 16 →
      init dataAddress memory dataSize pageSize = some start → FullyReusable start := by
  intro all
  have reusable := all 0x100000 512 64 blank _ (by decide) (by decide) rfl
  obtain ⟨region, _, _, hint, bitmap⟩ :=
    @init_region 0x100000 512 64 blank _ rfl (by decide) (by decide)
  exact not_reusable_short region hint bitmap (by decide) (by decide) (by decide) reusable

end OmenMemory
