import Omen.Memory.BuddyRuns

/- `buddy_create` keeps an allocator's metadata in its own region: a temporary allocator at the
   end hands out the first pages, and its lists move to heads in these pages. -/
namespace OmenMemory
open BuddyTree Status Words

/-- The pages of the metadata are in the first half of the region, and the temporary allocator
    is in the second, behind a list node. Else the two overlap. -/
structure CreateFits (e p : Nat) : Prop where
  less : p < e
  front : buddyNumPages (buddySizeofMetadata (e - p + 1)) (2 ^ p) * 2 ^ p ≤ 2 ^ (e - 1)
  back : buddySizeofMetadata (e - p + 1) + sizeofListHead ≤ 2 ^ (e - 1)

example : CreateFits 20 12 := ⟨by decide, by decide, by decide⟩

/-- The allocators that `buddy_init` and `buddy_create` set up. -/
inductive Made : Buddy → Prop
  | init {allocator address size pageSize memory info} :
      Usable allocator address size pageSize →
      Made (buddyInit allocator address size pageSize memory info)
  | create {address e p memory info behind start} : e < 64 → CreateFits e p →
      buddyCreate address (2 ^ e) (2 ^ p) memory info behind = some (some start) → Made start

section Sizes
variable {e p : Nat}

theorem buddySizeofMetadata_eq (n : Nat) : buddySizeofMetadata n = 48 + 16 * n + 8 * 2 ^ n := by
  rw [buddySizeofMetadata, blockInfoLen_eq, Nat.mul_comm (2 ^ n)]
  rfl

theorem CreateFits.page (fits : CreateFits e p) : 4 ≤ p := by
  have less := fits.less
  have back := fits.back
  have power : 2 ^ (e - p + 4) = 8 * 2 ^ (e - p + 1) := by
    rw [Nat.pow_add 2 (e - p + 1) 3, Nat.mul_comm]
  rw [buddySizeofMetadata_eq] at back
  have more := (Nat.pow_lt_pow_iff_right (a := 2) (by decide)).mp
    (show 2 ^ (e - p + 4) < 2 ^ (e - 1) by omega)
  omega

theorem CreateFits.whole (fits : CreateFits e p) : 2 ^ e = 2 * 2 ^ (e - 1) := by
  have less := fits.less
  rw [← Nat.pow_succ']
  congr 1
  omega

theorem CreateFits.covers (fits : CreateFits e p) (wide : e < 64) :
    buddySizeofMetadata (e - p + 1) ≤
      buddyNumPages (buddySizeofMetadata (e - p + 1)) (2 ^ p) * 2 ^ p := by
  have less := fits.less
  have back := fits.back
  have whole := fits.whole
  have positive : 0 < 2 ^ p := Nat.pow_pos (by decide)
  have page : 2 ^ p ≤ 2 ^ (e - 1) := Nat.pow_le_pow_right (by decide) (by omega)
  have most : 2 ^ e < 2 ^ 64 := Nat.pow_lt_pow_right (by decide) wide
  rw [buddyNumPages, Nat.mod_eq_of_lt (by omega)]
  have parts := Nat.div_add_mod (buddySizeofMetadata (e - p + 1) + (2 ^ p - 1)) (2 ^ p)
  have rest := Nat.mod_lt (buddySizeofMetadata (e - p + 1) + (2 ^ p - 1)) positive
  rw [Nat.mul_comm] at parts
  omega

theorem CreateFits.levels (fits : CreateFits e p) (wide : e < 64) :
    numLevels (2 ^ e) (2 ^ p) = e - p + 1 :=
  numLevels_power (Nat.le_of_lt fits.less) wide

theorem CreateFits.metadata_word (fits : CreateFits e p) (wide : e < 64) :
    buddySizeofMetadata (e - p + 1) % 2 ^ 64 = buddySizeofMetadata (e - p + 1) := by
  have back := fits.back
  have whole := fits.whole
  have most : 2 ^ e < 2 ^ 64 := Nat.pow_lt_pow_right (by decide) wide
  exact Nat.mod_eq_of_lt (by omega)

end Sizes

section Fronts
variable {g : BuddyShape} {e p k high : Nat} {st : Nat → Status} {s : Buddy}
  {lists : Nat → List Nat} {nodes : Nat → Prop}

theorem Kept.live_iff_front (kept : Kept g e nodes st s lists (firstPages g k))
    (shaped : Shaped g e p) {l j o : Nat} (level : At l j) (low : l < g.num_levels)
    (terminal : Terminal (st j)) (first : offset e l j ≤ o)
    (last : o < offset e l j + 2 ^ (e - l)) : st j = live ↔ o < k * 2 ^ p := by
  have levels := shaped.levels
  have le := shaped.le
  constructor
  · intro isLive
    obtain ⟨t, less, same⟩ := mem_firstPages.mp
      ((kept.lives ⟨g.place e l j, l⟩).mpr ⟨low, j, level, isLive, rfl⟩)
    obtain ⟨place, rfl⟩ := BuddyBlock.mk.inj same
    have start : t * 2 ^ p = offset e (g.num_levels - 1) j := by
      rw [shaped.page] at place
      exact Nat.add_left_cancel place
    have size : 2 ^ (e - (g.num_levels - 1)) = 2 ^ p := by
      congr 1
      omega
    have step := Nat.mul_le_mul_right (2 ^ p) (Nat.succ_le_of_lt less)
    rw [Nat.succ_mul] at step
    omega
  · intro front
    exact (kept.first_page shaped (List.Subset.refl _) level low terminal first last front).1

/-- The free node that a request for a page splits is the one behind the pages taken. -/
theorem Kept.front_taken (kept : Kept g e nodes st s lists (firstPages g k))
    (shaped : Shaped g e p) {b i : Nat} (level : At b i) (isFree : st i = Status.free)
    (between : ∀ m, b < m → m ≤ g.num_levels - 1 → lists m = []) : offset e b i = k * 2 ^ p := by
  have levels := shaped.levels
  have le := shaped.le
  have known : ∀ m j, At m j → st j = Status.free → m < g.num_levels := by
    intro m j at_j free
    obtain ⟨l, low, here⟩ := kept.stands.tree.at_level (by omega) (j := j) (by rw [free]; decide)
    rwa [at_j.unique here]
  refine kept.stands.tree.deepest_free kept.stands.joined (by omega)
    (fun l j o at_j low => kept.live_iff_front shaped at_j low) level (known b i level isFree)
    isFree fun m j at_j free => ?_
  by_contra deeper
  have low := known m j at_j free
  have listed := (kept.stands.free.listed m low _).mpr ⟨j, at_j, free, rfl⟩
  rw [between m (by omega) (by omega)] at listed
  exact absurd listed List.not_mem_nil

/-- A block that starts before the middle ends there at the latest, but for the whole. -/
theorem offset_before_middle {b i : Nat} (some : 1 ≤ b) (deep : b ≤ e)
    (early : offset e b i < 2 ^ (e - 1)) : offset e b i + 2 ^ (e - b) ≤ 2 ^ (e - 1) := by
  have middle : 2 ^ (e - 1) = 2 ^ (b - 1) * 2 ^ (e - b) := by
    rw [← Nat.pow_add]
    congr 1
    omega
  rw [middle] at early ⊢
  unfold offset at early ⊢
  have less := Nat.lt_of_mul_lt_mul_right early
  have step := Nat.mul_le_mul_right (2 ^ (e - b)) (Nat.succ_le_of_lt less)
  rwa [Nat.succ_mul] at step

theorem Kept.next_page (kept : Kept g e (g.PageIn g.address high) st s lists (firstPages g k))
    (shaped : Shaped g e p) (site : Site g (g.PageIn g.address high)) (less : p < e)
    (far : g.address + 2 ^ (e - 1) + sizeofListHead ≤ high)
    (room : (k + 1) * 2 ^ p ≤ 2 ^ (e - 1)) :
    ∃ s' st' lists', (s.levelAlloc (g.num_levels - 1)).map Prod.snd = some s' ∧
      Kept g e (g.PageIn g.address high) st' s' lists' (firstPages g (k + 1)) := by
  have levels := shaped.levels
  have positive : 0 < 2 ^ p := Nat.pow_pos (by decide)
  have half : 2 ^ (e - 1) < 2 ^ e := Nat.pow_lt_pow_right (by decide) (by omega)
  rw [Nat.add_mul, Nat.one_mul] at room
  have near : ∀ b i, At b i → st i = Status.free →
      (∀ m, b < m → m ≤ g.num_levels - 1 → lists m = []) → ∀ m, b < m → m ≤ g.num_levels - 1 →
      g.PageIn g.address high (g.place e b i + g.size >>> m) := by
    intro b i level isFree between m deeper low
    have start := kept.front_taken shaped level isFree between
    have page := shaped.right_isPage level deeper (by omega)
    rw [shaped.sizeAt (by omega), BuddyShape.place] at page ⊢
    refine ⟨page, Nat.le_trans (Nat.le_add_right _ _) (Nat.le_add_right _ _), ?_⟩
    by_cases root : b = 0
    · subst root
      have most := Nat.pow_le_pow_right (n := 2) (by decide) (show e - m ≤ e - 1 by omega)
      rw [level.of_root, offset, Nat.pow_zero, Nat.sub_self, Nat.zero_mul]
      omega
    · have middle := @offset_before_middle e b i (by omega) (by omega) (by omega)
      have most := Nat.pow_le_pow_right (n := 2) (by decide) (show e - m ≤ e - b by omega)
      omega
  rcases kept.alloc shaped site (by omega) near with
    ⟨-, empty⟩ | ⟨b, i, s', st', lists', -, at_i, isFree, between, call, kept'⟩
  · obtain ⟨l, j, low, level, terminal, first, last⟩ :=
      kept.stands.tree.covers (e := e) (o := k * 2 ^ p) (by omega) (by omega) (by omega)
    have notLive := (kept.live_iff_front shaped level low terminal first last).not.mpr (by omega)
    have listed := (kept.stands.free.listed l low _).mpr
      ⟨j, level, terminal.resolve_right notLive, rfl⟩
    rw [empty l (by omega)] at listed
    exact absurd listed List.not_mem_nil
  · rw [BuddyShape.place, kept.front_taken shaped at_i isFree between, ← shaped.page] at call kept'
    refine ⟨s', st', lists', by rw [call]; rfl, ?_⟩
    have pages : firstPages g (k + 1) =
        ⟨g.address + k * g.page_size, g.num_levels - 1⟩ :: firstPages g k := by
      simp [firstPages, List.range_succ]
    rwa [pages]

theorem takePages_kept {start : Buddy} (shaped : Shaped start.toBuddyShape e p)
    (site : Site start.toBuddyShape (start.PageIn start.address high)) (less : p < e)
    (far : start.address + 2 ^ (e - 1) + sizeofListHead ≤ high)
    (initial : Kept start.toBuddyShape e (start.PageIn start.address high) st start lists [])
    (room : k * 2 ^ p ≤ 2 ^ (e - 1)) :
    ∃ t st lists, takePages start k = some t ∧
      Kept start.toBuddyShape e (start.PageIn start.address high) st t lists
        (firstPages start.toBuddyShape k) := by
  induction k with
  | zero => exact ⟨start, st, lists, rfl, initial⟩
  | succ k ih =>
    obtain ⟨t, st, lists, taken, kept⟩ := ih (by rw [Nat.add_mul] at room; omega)
    obtain ⟨t', st', lists', call, kept'⟩ := kept.next_page shaped site less far room
    refine ⟨t', st', lists', ?_, kept'⟩
    obtain ⟨⟨ptr, _⟩, found, rfl⟩ := Option.map_eq_some_iff.mp call
    rw [takePages, taken, Option.bind_eq_bind, Option.bind_some, kept.stands.shape, found]
    rfl

end Fronts

section Moving
variable {old new n : Nat} {nodes : Nat → Prop} {lists : Nat → List Nat}

/-- A list moves to a head that is in no list. -/
theorem Sequences.transfer {memory : Words} {s : Lists} {list head : Nat}
    (q : Sequences nodes memory s) (spaced : Spaced nodes) (source : s.heads list)
    (isNode : nodes head) (unused : ∀ h, s.heads h → head ∉ h :: s.seq h) (other : list ≠ head) :
    ∃ s', Sequences nodes (listSplice (initListHead memory head) list head) s' ∧
      (∀ h, (s.heads h ∨ h = head) ∧ h ≠ list → s'.heads h) ∧
      (∀ h, s'.heads h → s.heads h ∨ h = head) ∧
      ∀ h, s'.seq h = if h = head then s.seq list else s.seq h := by
  have next := q.init spaced isNode unused
  have spliced := next.spliceAll spaced (Or.inl source) (Or.inr rfl) other
  refine ⟨_, next.spend (Or.inl source) spliced (fun none => by rw [none, List.nil_append]),
    fun h known => ⟨known.1, fun same => absurd same known.2⟩, fun h known => known.1, fun h => ?_⟩
  simp only [Lists.change, Lists.spend, Lists.addHead, Function.update_apply, if_neg other,
    if_true, List.append_nil]
  split <;> rfl

/-- The loop over the lists: each moves from its old head to its new one. -/
theorem moveLists_rings (spaced : Spaced nodes)
    (apart : ∀ l < n, ∀ m < n, old + sizeofListHead * l ≠ new + sizeofListHead * m)
    {i count : Nat} {memory : Words} {s : Lists} (q : Sequences nodes memory s)
    (all : i + count = n)
    (done : ∀ l < i, s.heads (new + sizeofListHead * l) ∧
      s.seq (new + sizeofListHead * l) = lists l)
    (left : ∀ l, i ≤ l → l < n → s.heads (old + sizeofListHead * l) ∧
      s.seq (old + sizeofListHead * l) = lists l)
    (fresh : ∀ l, i ≤ l → l < n → nodes (new + sizeofListHead * l) ∧
      ∀ h, s.heads h → new + sizeofListHead * l ∉ h :: s.seq h) :
    ∀ l < n, Ring (moveLists old new memory i count) (new + sizeofListHead * l) (lists l) := by
  induction count generalizing i memory s with
  | zero =>
    intro l low
    obtain ⟨here, seq⟩ := done l (by omega)
    exact seq ▸ q.ring _ here
  | succ count ih =>
    have inj : ∀ a b c, b ≠ c → a + sizeofListHead * b ≠ a + sizeofListHead * c := by
      unfold sizeofListHead
      omega
    obtain ⟨source, moved⟩ := left i (Nat.le_refl i) (by omega)
    obtain ⟨isNode, unused⟩ := fresh i (Nat.le_refl i) (by omega)
    obtain ⟨s', next, kept, known, seq⟩ :=
      q.transfer spaced source isNode unused (apart i (by omega) i (by omega))
    rw [moveLists]
    refine ih next (by omega) (fun l low => ?_) (fun l more low => ?_) (fun l more low => ?_)
    · have other := (apart i (by omega) l (by omega)).symm
      rw [seq]
      by_cases last : l = i
      · rw [last, if_pos rfl]
        exact ⟨kept _ ⟨Or.inr rfl, last ▸ other⟩, moved⟩
      · obtain ⟨here, held⟩ := done l (by omega)
        rw [if_neg (inj _ _ _ last)]
        exact ⟨kept _ ⟨Or.inl here, other⟩, held⟩
    · obtain ⟨here, held⟩ := left l (by omega) low
      rw [seq, if_neg (apart l low i (by omega))]
      exact ⟨kept _ ⟨Or.inl here, inj _ _ _ (by omega)⟩, held⟩
    · obtain ⟨isNode', unused'⟩ := fresh l (by omega) low
      refine ⟨isNode', fun h here => ?_⟩
      rw [seq]
      split
      · next same =>
        rw [List.mem_cons, not_or, same]
        exact ⟨inj _ _ _ (by omega), fun member =>
          unused' _ source (List.mem_cons_of_mem _ member)⟩
      · next different => exact unused' h ((known h here).resolve_right different)

end Moving

section Creation
variable {g : BuddyShape} {e p k high heads : Nat} {st : Nat → Status} {s start : Buddy}
  {lists : Nat → List Nat}

/-- Where list nodes and heads stand while the lists move: behind the first pages, and at both
    places of the heads. -/
def BuddyShape.Moving (g : BuddyShape) (k high heads a : Nat) : Prop :=
  g.PageIn (g.address + k * g.page_size) high a ∨ (∃ l < g.num_levels, a = g.head l) ∨
    ∃ l < g.num_levels, a = heads + sizeofListHead * l

section Moves
variable (shaped : Shaped g e p) (node : 4 ≤ p) (old : high ≤ g.free_blocks)
  (new : heads + sizeofListHead * g.num_levels ≤ g.address + k * g.page_size)
  (front : g.address + k * g.page_size ≤ high)

theorem Kept.behind_pages (kept : Kept g e (g.PageIn g.address high) st s lists (firstPages g k))
    (shaped : Shaped g e p) {l a : Nat} (low : l < g.num_levels) (member : a ∈ lists l) :
    g.PageIn (g.address + k * g.page_size) high a := by
  obtain ⟨j, level, isFree, place⟩ := (kept.stands.free.listed l low a).mp member
  obtain ⟨page, -, inside⟩ := kept.stands.free.node l low a member
  refine ⟨page, ?_, inside⟩
  by_contra early
  have power : 0 < 2 ^ (e - l) := Nat.pow_pos (by decide)
  rw [place, shaped.page, BuddyShape.place] at early
  have isLive := (kept.live_iff_front shaped level low (Or.inl isFree) (Nat.le_refl _)
    (by omega)).mpr (by omega)
  rw [isFree] at isLive
  cases isLive

include shaped node old new front

theorem Shaped.moving_spaced : Spaced (g.Moving k high heads) := by
  rintro a b (⟨page, _⟩ | ⟨l, small, rfl⟩ | ⟨l, small, rfl⟩)
    (⟨page', _⟩ | ⟨m, less, rfl⟩ | ⟨m, less, rfl⟩)
  · obtain ⟨_, rfl, -⟩ := shaped.page_unit node page
    obtain ⟨_, rfl, -⟩ := shaped.page_unit node page'
    omega
  all_goals
    dsimp only [BuddyShape.head, sizeofListHead] at *
    omega

theorem Kept.moved_rings
    (kept : Kept g e (g.PageIn g.address high) st s lists (firstPages g k)) :
    ∀ l < g.num_levels, Ring (moveLists g.free_blocks heads s.memory 0 g.num_levels)
      (heads + sizeofListHead * l) (lists l) := by
  have site : Site g (g.PageIn g.address high) := shaped.site node (Or.inr old)
  have apart : ∀ l < g.num_levels, ∀ m < g.num_levels,
      g.free_blocks + sizeofListHead * l ≠ heads + sizeofListHead * m := by
    unfold sizeofListHead at *
    omega
  have q : Sequences (g.Moving k high heads) s.memory (g.heap lists) := by
    refine kept.stands.free.sequences shaped kept.stands.tree site fun l low c member => ?_
    rcases List.mem_cons.mp member with rfl | listed
    · exact Or.inr (Or.inl ⟨l, low, rfl⟩)
    · exact Or.inl (kept.behind_pages shaped low listed)
  refine moveLists_rings (shaped.moving_spaced node old new front) apart q (Nat.zero_add _)
    (fun l none => absurd none (Nat.not_lt_zero l)) (fun l _ low => ⟨⟨l, low, rfl⟩, heap_seq l⟩)
    fun l _ low => ⟨Or.inr (Or.inr ⟨l, low, rfl⟩), ?_⟩
  rintro _ ⟨m, small, rfl⟩
  rw [heap_seq, List.mem_cons, not_or]
  refine ⟨(apart m small l low).symm, fun listed => ?_⟩
  have behind := (kept.behind_pages shaped small listed).2.1
  unfold sizeofListHead at *
  omega

/-- The lists of an allocator at new heads in its first pages, and its bits copied. -/
theorem Kept.moved {info : BitmapWords}
    (kept : Kept g e (g.PageIn g.address high) st s lists (firstPages g k))
    (copied : ∀ i < 2 ^ g.num_levels, info i = s.block_info i) :
    Kept { g with free_blocks := heads } e ({ g with free_blocks := heads }.Later k) st
      { s with
        free_blocks := heads
        block_info := info
        memory := moveLists g.free_blocks heads s.memory 0 g.num_levels }
      lists (firstPages { g with free_blocks := heads } k) := by
  have stands := kept.stands
  have rings := kept.moved_rings shaped node old new front
  have bits : BlockBits (2 ^ (g.num_levels - 1)) st info 0 0 := by
    refine stands.bits.copy fun i inside => ?_
    have halves := shaped.two_halves
    rw [bitmapGet_eq, bitmapGet_eq, copied _ (by omega)]
  have pages : ∀ l < g.num_levels, ∀ a ∈ lists l, g.Later k a := by
    intro l low a member
    obtain ⟨page, behind, -⟩ := kept.behind_pages shaped low member
    obtain ⟨-, -, inside⟩ := shaped.page_unit node page
    exact ⟨page, behind, inside⟩
  refine ⟨⟨?_, stands.tree, stands.joined,
    ⟨rings, stands.free.distinct, pages, stands.free.listed⟩, bits⟩,
    kept.lives, kept.distinct, kept.bytes⟩
  rw [← stands.shape]

end Moves

section Temporary
variable (fits : CreateFits e p) (wide : e < 64) {address : Nat} {memory : Words}
  {info : BitmapWords} {tmp : Buddy} (new : tmp = tmpAllocator address (2 ^ e) (2 ^ p) memory info)
include fits wide new

theorem CreateFits.tmp_shaped : Shaped tmp.toBuddyShape e p :=
  new ▸ buddyInit_shaped (Nat.le_of_lt fits.less) wide

theorem CreateFits.tmp_heads : tmp.free_blocks =
    address + (2 ^ e - buddySizeofMetadata (e - p + 1)) + sizeofBuddyAllocator := by
  have back := fits.back
  have whole := fits.whole
  subst new
  change address + 2 ^ e - buddySizeofMetadata (numLevels (2 ^ e) (2 ^ p)) % 2 ^ 64 + _ = _
  rw [fits.levels wide, fits.metadata_word wide]
  omega

/-- The loop takes the first pages of the region from the temporary allocator. -/
theorem CreateFits.tmp_kept {b : Buddy}
    (taken : takePages tmp (buddyNumPages (buddySizeofMetadata (e - p + 1)) (2 ^ p)) = some b) :
    ∃ st lists, Kept tmp.toBuddyShape e
      (tmp.PageIn address (address + (2 ^ e - buddySizeofMetadata (e - p + 1)))) st b lists
      (firstPages tmp.toBuddyShape
        (buddyNumPages (buddySizeofMetadata (e - p + 1)) (2 ^ p))) := by
  have back := fits.back
  have whole := fits.whole
  have shaped := fits.tmp_shaped wide new
  have heads := fits.tmp_heads wide new
  have site := @Shaped.site _ e p shaped fits.page address
    (address + (2 ^ e - buddySizeofMetadata (e - p + 1))) (by omega)
  subst new
  have first : (tmpAllocator address (2 ^ e) (2 ^ p) memory info).IsPage address :=
    ⟨0, Nat.pow_pos (by decide), by rw [Nat.zero_mul]; rfl⟩
  have initial := buddyInit_kept (Nat.le_of_lt fits.less) wide site
    ⟨first, Nat.le_refl _, by unfold sizeofListHead at *; omega⟩
  have far : address + 2 ^ (e - 1) + sizeofListHead ≤
      address + (2 ^ e - buddySizeofMetadata (e - p + 1)) := by omega
  obtain ⟨t, st, lists, result, kept⟩ :=
    takePages_kept shaped site fits.less far initial fits.front
  cases result.symm.trans taken
  exact ⟨st, lists, kept⟩

end Temporary

theorem Made.fresh (made : Made start) : ∃ k e p, Fresh start k e p := by
  cases made with
  | init usable => exact ⟨0, usable.fresh⟩
  | @create address e p memory info behind start wide fits created =>
    have back := fits.back
    have front := fits.front
    have whole := fits.whole
    have covers := fits.covers wide
    have levels := fits.levels wide
    have metadata := buddySizeofMetadata_eq (e - p + 1)
    unfold buddyCreate at created
    split at created
    · cases created
    dsimp only at created
    split at created
    · cases created
    obtain ⟨tmp, taken, created⟩ := Option.bind_eq_some_iff.mp created
    cases created
    rw [levels, fits.metadata_word wide] at taken
    have shaped := fits.tmp_shaped wide (@rfl _ (tmpAllocator address _ _ memory info))
    have heads := fits.tmp_heads wide (@rfl _ (tmpAllocator address _ _ memory info))
    obtain ⟨st, lists, kept⟩ := fits.tmp_kept wide rfl taken
    have room : address + sizeofBuddyAllocator + sizeofListHead * numLevels (2 ^ e) (2 ^ p) ≤
        address + buddyNumPages (buddySizeofMetadata (e - p + 1)) (2 ^ p) * 2 ^ p := by
      rw [levels, sizeofListHead, sizeofBuddyAllocator]
      omega
    have before : address + buddyNumPages (buddySizeofMetadata (e - p + 1)) (2 ^ p) * 2 ^ p ≤
        address + (2 ^ e - buddySizeofMetadata (e - p + 1)) := by omega
    have copied : ∀ i < 2 ^ numLevels (2 ^ e) (2 ^ p),
        (if i < buddyBlockInfoLen (numLevels (2 ^ e) (2 ^ p)) then tmp.block_info i
          else behind i) = tmp.block_info i := by
      intro i low
      rw [blockInfoLen_eq, if_pos low]
    have moved := Kept.moved shaped fits.page (by omega) room before kept copied
    rw [kept.stands.shape] at moved ⊢
    exact ⟨_, e, p, ⟨rfl, rfl, shaped.le, shaped.wide, levels⟩, fits.page, Or.inl room, st, lists,
      moved⟩

end Creation

end OmenMemory
