import Omen.Memory.BitfieldBounds

/- What the searches of the page allocator can reach. They look at page numbers below
   `bitmap_size` and below the hint `next_index`; the hint moves up with allocations at it
   and down with releases, so what lies behind `bitmap_size` can drop out of sight. -/
namespace OmenMemory
open ByteMemory Bitmap SpanLedger

inductive SizedRun (start : Bitfield) (allowed : Nat → Prop) : Bitfield → List Block → Prop
  | init : SizedRun start allowed start []
  | allocate {bf bf' live size address} : SizedRun start allowed bf live → size < 2 ^ 64 →
      allowed size → bf.allocate size = some (address, bf') →
      SizedRun start allowed bf' (⟨address, size⟩ :: live)
  | deallocate {bf bf' live b} : SizedRun start allowed bf live → b ∈ live →
      bf.deallocate b.address b.size = some bf' → SizedRun start allowed bf' (live.erase b)

section Sized
variable {start bf : Bitfield} {allowed : Nat → Prop} {live : List Block}

theorem SizedRun.run (sized : SizedRun start allowed bf live) : Run start bf live := by
  induction sized with
  | init => exact Run.init
  | allocate _ small _ call ih => exact Run.allocate ih small call
  | deallocate _ member call ih => exact Run.deallocate ih member call

theorem SizedRun.sizes (sized : SizedRun start allowed bf live) : ∀ b ∈ live, allowed b.size := by
  induction sized with
  | init =>
    intro b member
    exact absurd member List.not_mem_nil
  | allocate _ _ kind _ ih =>
    intro b member
    rcases List.mem_cons.mp member with rfl | old
    · exact kind
    · exact ih b old
  | deallocate _ _ _ ih =>
    intro b member
    exact ih b (List.mem_of_mem_erase member)

end Sized

section Search
variable {bf : Bitfield}

theorem Bitfield.isFree_iff {i : Nat} : bf.isFree i = true ↔ bitAt bf.bitmap i = false := by
  rw [Bitfield.isFree, Bool.not_eq_true']

theorem Bitfield.pagesFor_one (positive : 0 < bf.page_size) : bf.pagesFor 1 = 1 := by
  unfold Bitfield.pagesFor
  split
  · rw [bytesToPages, Nat.div_self positive, Nat.mod_self]
    rfl
  · have one : bf.page_size = 1 := by omega
    rw [one]
    rfl

theorem Bitfield.pagesFor_released (positive : 0 < bf.page_size) {size : Nat} (some : 0 < size) :
    bytesToPages size bf.page_size = bf.pagesFor size := by
  unfold Bitfield.pagesFor
  split
  · rename_i less
    rw [bytesToPages, bytesToPages, Nat.div_eq_of_lt less, Nat.mod_eq_of_lt less,
      Nat.div_self positive, Nat.mod_self, if_pos (by omega)]
    rfl
  · rfl

end Search

section Exactness
variable {start bf : Bitfield} {allowed : Nat → Prop} {live : List Block}

theorem Run.enough (run : Run start bf live) (region : Region start) (safe : SizesFit start)
    (initial : Sound start start.bitmap start.next_index []) :
    ∀ b ∈ live, b.size ≤ start.available_size := by
  refine run.each fun bf live size address bf' before call => ?_
  obtain ⟨bitmap, next, rfl, sound⟩ := before.sound region safe initial
  obtain ⟨index, -, -, enough, -⟩ := sound.allocated region safe call
  exact enough

theorem Region.wide_below (region : Region start) (safe : SizesFit start) {index size : Nat}
    (low : index < start.limit) (enough : size ≤ start.available_size) :
    index + start.pagesFor size < 2 ^ 64 := by
  have hint : start.locked ≤ nextBound start := by
    have locked := region.locked_le
    unfold nextBound
    omega
  unfold Bitfield.limit at low
  exact region.wide safe hint enough (by omega)

theorem SizedRun.exact (sized : SizedRun start allowed bf live) (region : Region start)
    (safe : SizesFit start) (initial : Sound start start.bitmap start.next_index [])
    (nonzero : ∀ size, allowed size → 0 < size) :
    Exact (Block.span start) (fun i => bitAt start.bitmap i = true) (bitAt bf.bitmap) live := by
  induction sized with
  | init => exact Exact.start fun i => Iff.rfl
  | @allocate bf bf' live size address before small kind call ih =>
    obtain ⟨bitmap, next, rfl, sound⟩ := before.run.sound region safe initial
    obtain ⟨index, -, low, -, -, free, place, rfl⟩ := sound.allocated region safe call
    have span := @Block.span_has start address index size region low place
    refine ih.take ?_ ?_ ?_
    · intro i inside
      obtain ⟨from_first, to_last⟩ := (span i).mp inside
      exact free i from_first to_last
    · intro i inside
      exact (bitAt_setRun _ _ _ i).trans (if_pos ((span i).mp inside))
    · intro i away
      exact (bitAt_setRun _ _ _ i).trans (if_neg fun inside => away ((span i).mpr inside))
  | @deallocate bf bf' live b before member call ih =>
    obtain ⟨bitmap, next, rfl, sound⟩ := before.run.sound region safe initial
    obtain ⟨index, first, rfl⟩ :=
      Bitfield.deallocate_some (before.run.addresses b member) call
    have low := sound.placed b member
    have wide := region.wide_below safe (first ▸ low)
      (before.run.enough region safe initial b member)
    have count : Bitfield.loopCount index (bytesToPages b.size start.page_size) =
        start.pagesFor b.size := by
      rw [Bitfield.pagesFor_released region.positive (nonzero _ (before.sizes b member)),
        Bitfield.loopCount_eq wide]
    have span : ∀ i, (b.span start).Has i ↔ index ≤ i ∧ i < index + start.pagesFor b.size := by
      intro i
      rw [Span.Has, ← first]
      rfl
    rw [count]
    refine ih.give member ?_ ?_
    · intro i inside
      exact (bitAt_clearRun _ _ _ i).trans (if_pos ((span i).mp inside))
    · intro i away
      exact (bitAt_clearRun _ _ _ i).trans (if_neg fun inside => away ((span i).mpr inside))

end Exactness

def Bitfield.PageInside (bf : Bitfield) (k : Nat) : Prop :=
  bf.data_address + sizeofBitfield + bf.bitmap_size ≤ bf.available_address + k * bf.page_size ∧
    bf.available_address + (k + 1) * bf.page_size ≤ bf.data_address + bf.data_size

instance (bf : Bitfield) (k : Nat) : Decidable (bf.PageInside k) :=
  inferInstanceAs (Decidable (_ ∧ _))

/-- A request succeeds whenever some run of free pages in the region is long enough. -/
def UsesAll (start : Bitfield) : Prop :=
  ∀ bf live, Run start bf live → ∀ size, size ≤ bf.available_size →
    ∀ i, 1 ≤ i →
      (∀ k, i ≤ k → k < i + bf.pagesFor size → bf.isFree k = true ∧ bf.PageInside k) →
      (bf.allocate size).isSome = true

/-- All pages below this one are always in sight of a search. The second loop reaches further
    as long as no release has lowered the hint; releases all panic where the end of the
    available range wraps. -/
def Bitfield.reach (bf : Bitfield) : Nat :=
  if bf.bitmap_size < bf.locked ∧ 2 ^ 64 ≤ bf.available_address + bf.available_size then bf.locked
  else bf.bitmap_size

def Bitfield.unreached (bf : Bitfield) : Nat :=
  if bf.reach % 8 = 0 ∧ bf.reach < 8 * bf.locked then bf.reach + 1 else bf.reach

structure Roomy (start : Bitfield) : Prop where
  region : Region start
  placed : Placed start
  safe : SizesFit start
  initial : Sound start start.bitmap start.next_index []
  hint : start.next_index = start.locked
  available : start.available_size + (sizeofBitfield + start.bitmap_size) = start.data_size
  marks : ∀ i, i / 8 < start.limit →
    (bitAt start.bitmap i = true ↔ i % 8 = 0 ∧ i / 8 < start.locked)

section Rooms
variable {start bf : Bitfield} {live : List Block}

theorem PageInside.roomy {dataAddress dataSize pageSize k : Nat} {memory : Mem}
    (small : dataSize < 2 ^ 64) (short : pageSize < 2 ^ 16)
    (ends : dataAddress + dataSize < 2 ^ 64)
    (accepted : init dataAddress memory dataSize pageSize = some start)
    (inside : start.PageInside k) : Roomy start := by
  obtain ⟨region, size, page, hint, bitmap⟩ := init_region accepted small short
  have address : start.data_address = dataAddress := by
    unfold init at accepted
    split at accepted
    · cases accepted
    · cases accepted
      rfl
  obtain ⟨front, back⟩ := inside
  rw [Nat.succ_mul] at back
  have placed := (init_placed accepted short (by omega)).2
  have after := placed.after
  have available : start.available_size + (sizeofBitfield + start.bitmap_size) =
      start.data_size := by
    have small := region.small
    rw [region.available]
    omega
  refine ⟨region, placed, ?_, init_sound region hint bitmap, hint, available, ?_⟩
  · intro one
    have header := region.header
    have bytes : start.bitmap_size = start.data_size / 8 := by
      rw [region.bitmap, one, bytesToPages, Nat.div_one, Nat.mod_one]
      simp
    unfold sizeofBitfield at header after
    omega
  · intro i low
    unfold Bitfield.limit at low
    rw [bitmap, bitAt_initBitmap]
    split
    · rw [decide_eq_true_iff]
      omega
    · rw [if_pos (by omega)]
      constructor
      · intro used
        cases used
      · rintro ⟨-, locked⟩
        omega

theorem Roomy.unreached_free (roomy : Roomy start) :
    start.unreached / 8 < start.limit ∧ bitAt start.bitmap start.unreached = false := by
  have locked := roomy.region.locked_positive
  have low : start.unreached / 8 < start.limit := by
    unfold Bitfield.unreached Bitfield.reach Bitfield.limit
    split <;> split <;> omega
  refine ⟨low, ?_⟩
  rw [← Bool.not_eq_true, roomy.marks _ low]
  rintro ⟨first, inside⟩
  unfold Bitfield.unreached at first inside
  split at first
  · omega
  · rename_i other
    rw [if_neg other] at inside
    omega

theorem Run.marks (run : Run start bf live) :
    ∃ bitmap next, bf = start.withMarks bitmap next := by
  induction run with
  | init => exact ⟨_, _, rfl⟩
  | allocate _ _ call ih =>
    obtain ⟨bitmap, next, rfl⟩ := ih
    obtain ⟨_, -, -, -, -, -, after⟩ := Bitfield.allocate_some call
    exact ⟨_, _, after⟩
  | deallocate before member call ih =>
    obtain ⟨bitmap, next, rfl⟩ := ih
    obtain ⟨_, -, after⟩ := Bitfield.deallocate_some (before.addresses _ member) call
    exact ⟨_, _, after⟩

theorem Roomy.pages_small (roomy : Roomy start) {size : Nat}
    (enough : size ≤ start.available_size) :
    start.pagesFor size < 2 ^ 64 := by
  have small := roomy.region.small
  have available := roomy.available
  have pages := Bitfield.pagesFor_le roomy.region.positive enough Nat.one_pos roomy.region.positive
  omega

theorem Bitfield.allocate_found {size : Nat} {result : Nat × Bitfield}
    (call : bf.allocate size = some result) : bf.getFreeIndex (bf.pagesFor size) ≠ 0 := by
  intro zero
  unfold Bitfield.allocate at call
  split at call
  · cases call
  · dsimp only at call
    rw [if_pos zero] at call
    cases call

/-- The hint stays where `init` has set it when the bitmap is shorter than that and no page
    before it can be given back. -/
theorem Run.stuck (run : Run start bf live) (few : start.bitmap_size < start.locked)
    (hint : start.next_index = start.locked)
    (panics : ∀ bitmap next index size, 1 ≤ index → index < start.locked →
      (start.withMarks bitmap next).deallocate
        ((start.available_address + index * start.page_size) % 2 ^ 64) size = none) :
    bf.next_index = start.locked ∧ ∀ b ∈ live, bf.deallocate b.address b.size = none := by
  -- every block starts at a page before the hint
  have placed : bf.next_index = start.locked ∧ ∀ b ∈ live, ∃ index, 1 ≤ index ∧
      index < start.locked ∧
      b.address = (start.available_address + index * start.page_size) % 2 ^ 64 := by
    induction run with
    | init => exact ⟨hint, fun b member => absurd member List.not_mem_nil⟩
    | allocate before _ call ih =>
      obtain ⟨bitmap, next, rfl⟩ := before.marks
      obtain ⟨stays, blocks⟩ := ih
      change next = start.locked at stays
      have found := Bitfield.allocate_found call
      obtain ⟨index, same, -, candidate, -, place, rfl⟩ := Bitfield.allocate_some call
      change (start.withMarks bitmap next).getFreeIndex (start.pagesFor _) ≠ 0 at found
      rw [← same] at found
      have low : index < next := by omega
      refine ⟨?_, ?_⟩
      · change (if index = next then _ else next) = start.locked
        rw [if_neg (by omega), stays]
      · intro b member
        rcases List.mem_cons.mp member with rfl | old
        · exact ⟨index, by omega, by omega, place⟩
        · exact blocks b old
    | deallocate before member call ih =>
      obtain ⟨bitmap, next, rfl⟩ := before.marks
      obtain ⟨index, some, low, place⟩ := ih.2 _ member
      rw [place, panics bitmap next index _ some low] at call
      cases call
  refine ⟨placed.1, ?_⟩
  intro b member
  obtain ⟨index, some, low, place⟩ := placed.2 b member
  obtain ⟨bitmap, next, rfl⟩ := run.marks
  rw [place]
  exact panics bitmap next index b.size some low

theorem Roomy.release_panics (roomy : Roomy start)
    (wraps : 2 ^ 64 ≤ start.available_address + start.available_size) (bitmap : Mem)
    (next address size : Nat) : (start.withMarks bitmap next).deallocate address size = none := by
  have small := roomy.region.small
  have base := roomy.region.base
  have available := roomy.available
  refine if_pos ?_
  change address < start.available_address ∨
    (start.available_address + start.available_size) % 2 ^ 64 ≤ address
  rw [Nat.mod_eq_sub_mod wraps, Nat.mod_eq_of_lt (by omega)]
  omega

theorem Roomy.in_sight (roomy : Roomy start) (run : Run start bf live) {i : Nat}
    (low : i < start.reach) : i < bf.bitmap_size ∨ i < bf.next_index := by
  unfold Bitfield.reach at low
  split at low
  · rename_i edge
    have stuck := run.stuck edge.1 roomy.hint
      (fun bitmap next _ size _ _ => roomy.release_panics edge.2 bitmap next _ size)
    exact Or.inr (stuck.1 ▸ low)
  · obtain ⟨bitmap, next, rfl⟩ := run.marks
    exact Or.inl low

theorem Roomy.finds (roomy : Roomy start) (hidden : ¬ start.PageInside start.unreached)
    (run : Run start bf live) {size i : Nat} (enough : size ≤ bf.available_size)
    (room : ∀ k, i ≤ k → k < i + bf.pagesFor size → bf.isFree k = true ∧ bf.PageInside k) :
    (bf.allocate size).isSome = true := by
  obtain ⟨bitmap, next, rfl, sound⟩ := run.sound roomy.region roomy.safe roomy.initial
  have small := roomy.pages_small enough
  have some := Bitfield.pagesFor_positive roomy.region.positive size
  obtain ⟨free, front, back⟩ := room i (Nat.le_refl i) (Nat.lt_add_of_pos_right some)
  have clear : bitAt bitmap i = false := Bitfield.isFree_iff.mp free
  change start.available_address + (i + 1) * start.page_size ≤ _ at back
  have after := roomy.placed.after
  have low : i < start.unreached := by
    by_contra far
    have step := Nat.mul_le_mul_right start.page_size (show start.unreached + 1 ≤ i + 1 by omega)
    refine hidden ⟨by omega, ?_⟩
    change start.available_address + (i + 1) * start.page_size ≤
      start.data_address + start.data_size at back
    omega
  have near : i < start.reach := by
    unfold Bitfield.unreached at low
    split at low
    · rename_i reserved
      by_contra far
      have used := sound.ledger.kept i ⟨i / 8, by omega, by omega⟩
      rw [clear] at used
      cases used
    · exact low
  refine Bitfield.allocate_succeeds enough ?_ (roomy.in_sight run near)
    (sound.zero_unfit roomy.region size small)
  refine (Bitfield.fitsFrom_iff _ _ _).mpr ?_
  intro k low high
  have count := Bitfield.loopCount_le i (start.pagesFor size)
  change k < i + Bitfield.loopCount i (start.pagesFor size) at high
  exact Bitfield.isFree_iff.mp
    (room k low (Nat.lt_of_lt_of_le high (Nat.add_le_add_left count i))).1

theorem SizedRun.fill {kind : Nat → Prop} (sized : SizedRun start kind bf live)
    (roomy : Roomy start) (one : kind 1) (n : Nat)
    (count : clearCount (bitAt bf.bitmap) start.limit = n) :
    ∃ bf' live', SizedRun start kind bf' live' ∧ bf'.allocate 1 = none := by
  induction n using Nat.strong_induction_on generalizing bf live with
  | _ n ih =>
    rcases call : bf.allocate 1 with _ | ⟨address, bf'⟩
    · exact ⟨bf, live, sized, call⟩
    · obtain ⟨bitmap, next, rfl, sound⟩ :=
        sized.run.sound roomy.region roomy.safe roomy.initial
      obtain ⟨index, -, low, -, -, free, -, after⟩ := sound.allocated roomy.region roomy.safe call
      rw [Bitfield.pagesFor_one roomy.region.positive] at free after
      have clear := free index (Nat.le_refl index) (Nat.lt_succ_self index)
      have marks : ∀ i, i < start.limit →
          bitAt bf'.bitmap i = Function.update (bitAt bitmap) index true i := by
        intro i _
        rw [after]
        refine (bitAt_setRun bitmap index 1 i).trans ?_
        by_cases same : i = index
        · rw [same, Function.update_self, if_pos (by omega)]
        · rw [Function.update_of_ne same, if_neg (by omega)]
      have step := clearCount_set low clear
      rw [← clearCount_congr marks] at step
      change clearCount (bitAt bitmap) start.limit = n at count
      exact ih _ (by omega) (SizedRun.allocate sized (by decide) one call) rfl

theorem Sound.full {bitmap : Mem} {next : Nat} (sound : Sound start bitmap next live)
    (roomy : Roomy start) (some : 1 ≤ start.available_size)
    (failed : (start.withMarks bitmap next).allocate 1 = none) {i : Nat}
    (sight : i < start.bitmap_size ∨ i < next) : bitAt bitmap i = true := by
  by_contra free
  have one := @Bitfield.pagesFor_one start roomy.region.positive
  have zero := sound.zero_unfit roomy.region 1 (by omega)
  have fits : (start.withMarks bitmap next).fits i (start.pagesFor 1) = true := by
    refine (Bitfield.fitsFrom_iff _ _ _).mpr ?_
    intro k low high
    have count := Bitfield.loopCount_le i (start.pagesFor 1)
    have same : k = i := by omega
    rw [same]
    exact Bool.not_eq_true _ ▸ free
  have found := @Bitfield.allocate_succeeds (start.withMarks bitmap next) _ _ some fits sight zero
  rw [failed] at found
  cases found

theorem Bitfield.deallocate_one {bitmap : Mem} {next : Nat} {b : Block} (roomy : Roomy start)
    (base : b.address < 2 ^ 64) (size : b.size = 1) (byte : 1 ≤ start.available_size)
    (low : (b.span start).first < start.limit)
    (call : (start.withMarks bitmap next).deallocate b.address b.size = some bf) :
    ∃ next', next' ≤ (b.span start).first ∧ next' ≤ next ∧
      bf = start.withMarks (clearRun bitmap (b.span start).first 1) next' := by
  obtain ⟨index, same, after⟩ := Bitfield.deallocate_some base call
  have positive := roomy.region.positive
  have wide := roomy.region.wide_below roomy.safe low byte
  rw [size, same, Bitfield.pagesFor_released positive Nat.one_pos, Bitfield.loopCount_eq wide,
    Bitfield.pagesFor_one positive] at after
  refine ⟨_, ?_, ?_, after⟩ <;> split <;> omega

/-- After filling up what is in sight, the first page out of sight is free, or can be released
    and is out of sight then. -/
theorem UsesAll.hidden (uses : UsesAll start) (roomy : Roomy start) :
    ¬ start.PageInside start.unreached := by
  intro inside
  obtain ⟨front, back⟩ := inside
  rw [Nat.succ_mul] at back
  have after := roomy.placed.after
  have available := roomy.available
  have positive := roomy.region.positive
  have one := @Bitfield.pagesFor_one start positive
  have byte : 1 ≤ start.available_size := by omega
  have first : 1 ≤ start.unreached := by
    have locked := roomy.region.locked_positive
    unfold Bitfield.unreached
    split <;> omega
  -- a free page out of sight contradicts that every free run is used once one-byte requests fail
  have taken : ∀ bf live, Run start bf live → bf.allocate 1 = none →
      bitAt bf.bitmap start.unreached = true := by
    intro bf live run failed
    by_contra free
    obtain ⟨bitmap, next, rfl⟩ := run.marks
    have found := uses _ live run 1 byte start.unreached first (by
      intro k low high
      change k < start.unreached + start.pagesFor 1 at high
      have same : k = start.unreached := by omega
      rw [same]
      exact ⟨Bitfield.isFree_iff.mpr (Bool.not_eq_true _ ▸ free), front, by
        rw [Nat.succ_mul]; exact back⟩)
    rw [failed] at found
    cases found
  have empty : SizedRun start (fun size => size = 1) start [] := SizedRun.init
  obtain ⟨bf, live, sized, failed⟩ := empty.fill roomy rfl _ rfl
  have used := taken bf live sized.run failed
  have exactly := sized.exact roomy.region roomy.safe roomy.initial (by
    intro size kind
    omega)
  obtain ⟨bitmap, next, rfl, sound⟩ := sized.run.sound roomy.region roomy.safe roomy.initial
  rcases exactly.only _ used with kept | ⟨b, member, holds⟩
  · rw [roomy.unreached_free.2] at kept
    cases kept
  · have size := sized.sizes b member
    have count : (b.span start).count = 1 := by
      change start.pagesFor b.size = 1
      rw [size, one]
    have place : (b.span start).first = start.unreached := by
      have low := holds.1
      have high := holds.2
      omega
    have low := sound.placed b member
    obtain ⟨few, ends⟩ : start.bitmap_size ≤ start.unreached ∧
        start.available_address + start.available_size < 2 ^ 64 := by
      rw [place] at low
      unfold Bitfield.limit at low
      unfold Bitfield.unreached Bitfield.reach at low ⊢
      split at low <;> split at low <;> split <;> omega
    have address := sized.run.located roomy.region roomy.safe roomy.initial b member
    rw [place, Nat.mod_eq_of_lt (by omega)] at address
    rcases call : (start.withMarks bitmap next).deallocate b.address b.size with _ | bf'
    · have range : ¬ (b.address < start.available_address ∨
          (start.available_address + start.available_size) % 2 ^ 64 ≤ b.address) := by
        rw [Nat.mod_eq_of_lt ends]
        omega
      exact absurd (call.symm.trans (if_neg range)) (by simp)
    · have base := sized.run.addresses b member
      obtain ⟨next', before, lower, rfl⟩ :=
        Bitfield.deallocate_one roomy base size byte low call
      have smaller := Run.deallocate sized.run member call
      have marks : ∀ i, bitAt (clearRun bitmap (b.span start).first 1) i =
          if (b.span start).first ≤ i ∧ i < (b.span start).first + 1 then false
          else bitAt bitmap i := bitAt_clearRun bitmap _ 1
      have again : (start.withMarks (clearRun bitmap (b.span start).first 1) next').allocate 1 =
          none := by
        rcases found : (start.withMarks (clearRun bitmap (b.span start).first 1) next').allocate 1
          with _ | ⟨address', bf'⟩
        · rfl
        · obtain ⟨index, -, -, candidate, free, -⟩ := Bitfield.allocate_some found
          have other : ¬ ((b.span start).first ≤ index ∧ index < (b.span start).first + 1) := by
            omega
          have sight : index < start.bitmap_size ∨ index < next := by omega
          have kept := sound.full roomy byte failed sight
          have wide := roomy.region.wide roomy.safe sound.hint byte sight
          rw [Bitfield.loopCount_eq wide, one] at free
          have clear := free index (Nat.le_refl index) (Nat.lt_succ_self index)
          rw [marks, if_neg other, kept] at clear
          cases clear
      have still := taken _ _ smaller again
      change bitAt (clearRun bitmap (b.span start).first 1) start.unreached = true at still
      rw [marks, if_pos (by omega)] at still
      cases still

end Rooms

theorem uses_all_iff {dataAddress dataSize pageSize : Nat} {memory : Mem} {start : Bitfield}
    (small : dataSize < 2 ^ 64) (short : pageSize < 2 ^ 16)
    (ends : dataAddress + dataSize < 2 ^ 64)
    (accepted : init dataAddress memory dataSize pageSize = some start) :
    UsesAll start ↔ ¬ start.PageInside start.unreached := by
  constructor
  · intro uses inside
    exact uses.hidden (PageInside.roomy small short ends accepted inside) inside
  · intro hidden bf live run size enough i _ room
    have inside : start.PageInside i := by
      obtain ⟨region, -⟩ := init_region accepted small short
      obtain ⟨bitmap, next, rfl⟩ := run.marks
      have some := Bitfield.pagesFor_positive region.positive size
      exact (room i (Nat.le_refl i) (Nat.lt_add_of_pos_right some)).2
    exact (PageInside.roomy small short ends accepted inside).finds hidden run enough room

/-- Eleven one-byte pages behind a bitmap of twelve bytes. -/
theorem uses_all_eleven :
    ∃ start, init 0x100000 blank 97 1 = some start ∧ start.PageInside 11 ∧ UsesAll start :=
  ⟨_, rfl, by decide, (@uses_all_iff 0x100000 97 1 blank _ (by decide) (by decide) (by decide)
    rfl).mpr (by decide)⟩

/-- Of sixteen pages of four kilobytes only page 1 is ever found. -/
theorem fifteen_pages_lost :
    ¬ ∀ (dataAddress dataSize pageSize : Nat) (memory : Mem) (start : Bitfield),
      dataSize < 2 ^ 64 → pageSize < 2 ^ 16 → dataAddress + dataSize < 2 ^ 64 →
      init dataAddress memory dataSize pageSize = some start → UsesAll start := by
  intro all
  have uses := all 0x100000 0x10000 4096 blank _ (by decide) (by decide) (by decide) rfl
  have call : ∃ bf', Bitfield.allocate ((init 0x100000 blank 0x10000 4096).get rfl) 4096 =
      some (0x102000, bf') ∧ bf'.allocate 4096 = none ∧ bf'.pagesFor 4096 = 1 ∧
      4096 ≤ bf'.available_size ∧ bf'.isFree 2 = true ∧ bf'.PageInside 2 :=
    ⟨_, rfl, rfl, by decide, by decide, by decide, by decide⟩
  obtain ⟨bf', first, second, pages, enough, free, inside⟩ := call
  have found := uses bf' _ (Run.allocate Run.init (by decide) first) 4096 enough 2 (by decide) (by
    intro k low high
    have same : k = 2 := by omega
    rw [same]
    exact ⟨free, inside⟩)
  rw [second] at found
  cases found

end OmenMemory
