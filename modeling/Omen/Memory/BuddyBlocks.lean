import Omen.Memory.BuddyAllocator
import Omen.Memory.ListSequences

/- How the allocator's memory stands for a tree of blocks: the numbers that the code computes
   for a node of the tree, the free lists and the two kinds of bits. Node `j` of the tree is
   block `j - 1` of the code. -/
namespace OmenMemory
open BuddyTree Status Words

structure Shaped (g : BuddyShape) (e p : Nat) : Prop where
  size : g.size = 2 ^ e
  page : g.page_size = 2 ^ p
  le : p ≤ e
  wide : e < 64
  levels : g.num_levels = e - p + 1

def BuddyShape.place (g : BuddyShape) (e l j : Nat) : Nat := g.address + offset e l j

section Numbers
variable {g : BuddyShape} {e p l j : Nat}

theorem Shaped.deep (shaped : Shaped g e p) (low : l < g.num_levels) : l ≤ e := by
  have levels := shaped.levels
  omega

theorem Shaped.blockIndex (shaped : Shaped g e p) (level : At l j) (low : l < g.num_levels) :
    g.blockIndex (g.place e l j) l = j - 1 := by
  have levels := shaped.levels
  have le := shaped.le
  have split : 2 ^ (e - l) = 2 ^ (e - p - l) * 2 ^ p := by
    rw [← Nat.pow_add]
    congr 1
    omega
  have page : g.pageIndex (g.place e l j) = (j - 2 ^ l) * 2 ^ (e - p - l) := by
    rw [BuddyShape.pageIndex, BuddyShape.place, Nat.add_sub_cancel_left, shaped.page, offset,
      split, ← Nat.mul_assoc, Nat.mul_div_cancel _ (Nat.pow_pos (by decide))]
  have exponent : g.num_levels - 1 - l = e - p - l := by omega
  rw [BuddyShape.blockIndex, page, exponent, Nat.shiftRight_eq_div_pow,
    Nat.mul_div_cancel _ (Nat.pow_pos (by decide))]
  have first := level.1
  omega

theorem xor_left (k m : Nat) : (2 * k * 2 ^ m) ^^^ 2 ^ m = (2 * k + 1) * 2 ^ m := by
  have one : 2 ^ m = 1 <<< m := (Nat.one_shiftLeft m).symm
  rw [← Nat.shiftLeft_eq, ← Nat.shiftLeft_eq, one, ← Nat.shiftLeft_xor_distrib,
    Nat.xor_one_of_even ⟨k, by omega⟩]

theorem xor_right (k m : Nat) : ((2 * k + 1) * 2 ^ m) ^^^ 2 ^ m = 2 * k * 2 ^ m := by
  have one : 2 ^ m = 1 <<< m := (Nat.one_shiftLeft m).symm
  rw [← Nat.shiftLeft_eq, ← Nat.shiftLeft_eq, one, ← Nat.shiftLeft_xor_distrib,
    Nat.xor_one_of_odd ⟨k, rfl⟩, Nat.add_sub_cancel]

theorem Shaped.sizeAt (shaped : Shaped g e p) (deep : l ≤ e) : g.size >>> l = 2 ^ (e - l) := by
  rw [shaped.size, Nat.shiftRight_eq_div_pow, Nat.pow_div deep (by decide)]

theorem halves_offset (level : At l j) :
    2 * j - 2 ^ (l + 1) = 2 * (j - 2 ^ l) ∧ 2 * j + 1 - 2 ^ (l + 1) = 2 * (j - 2 ^ l) + 1 := by
  have first := level.1
  rw [Nat.pow_succ]
  omega

section Shaped
variable (shaped : Shaped g e p)
include shaped

theorem Shaped.toBuddy_left (level : At l j) (low : l + 1 < g.num_levels) :
    g.toBuddy (g.place e (l + 1) (2 * j)) (l + 1) = g.place e (l + 1) (2 * j + 1) := by
  have deep := shaped.deep low
  obtain ⟨left, right⟩ := halves_offset level
  rw [BuddyShape.toBuddy, BuddyShape.place, BuddyShape.place, Nat.add_sub_cancel_left,
    shaped.sizeAt deep, offset, offset, left, right, xor_left, Nat.add_comm]

theorem Shaped.toBuddy_right (level : At l j) (low : l + 1 < g.num_levels) :
    g.toBuddy (g.place e (l + 1) (2 * j + 1)) (l + 1) = g.place e (l + 1) (2 * j) := by
  have deep := shaped.deep low
  obtain ⟨left, right⟩ := halves_offset level
  rw [BuddyShape.toBuddy, BuddyShape.place, BuddyShape.place, Nat.add_sub_cancel_left,
    shaped.sizeAt deep, offset, offset, left, right, xor_right, Nat.add_comm]

theorem Shaped.place_left (low : l + 1 < g.num_levels) :
    g.place e (l + 1) (2 * j) = g.place e l j := by
  rw [BuddyShape.place, BuddyShape.place, offset_left (shaped.deep low)]

theorem Shaped.place_right (level : At l j) (low : l + 1 < g.num_levels) :
    g.place e (l + 1) (2 * j + 1) = g.place e l j + g.size >>> (l + 1) := by
  rw [BuddyShape.place, BuddyShape.place, offset_right level (shaped.deep low),
    shaped.sizeAt (shaped.deep low), Nat.add_assoc]

theorem Shaped.place_chain (level : At l j) (count : Nat) (low : l + count < g.num_levels) :
    At (l + count) (j * 2 ^ count) ∧ g.place e (l + count) (j * 2 ^ count) = g.place e l j := by
  induction count with
  | zero =>
    rw [Nat.pow_zero, Nat.mul_one, Nat.add_zero]
    exact ⟨level, rfl⟩
  | succ count ih =>
    obtain ⟨at_left, place⟩ := ih (by omega)
    have index : j * 2 ^ (count + 1) = 2 * (j * 2 ^ count) := by
      rw [Nat.pow_succ, Nat.mul_comm 2, Nat.mul_assoc]
    rw [index, ← Nat.add_assoc]
    exact ⟨at_left.child (by omega), (shaped.place_left (by omega)).trans place⟩

theorem Shaped.buddy (level : At (l + 1) j) (low : l + 1 < g.num_levels) :
    g.toBuddy (g.place e (l + 1) j) (l + 1) = g.place e (l + 1) (sibling j) ∧
      (if g.place e (l + 1) (sibling j) < g.place e (l + 1) j then g.place e (l + 1) (sibling j)
        else g.place e (l + 1) j) = g.place e l (j / 2) := by
  have parent := level.parent
  have left := shaped.toBuddy_left parent low
  have right := shaped.toBuddy_right parent low
  have first := @Shaped.place_left g e p l (j / 2) shaped low
  have second := shaped.place_right parent low
  have size : 0 < g.size >>> (l + 1) := by
    rw [shaped.sizeAt (shaped.deep low)]
    exact Nat.pow_pos (by decide)
  unfold sibling
  split
  · rename_i even
    have same : j = 2 * (j / 2) := by omega
    have next : j + 1 = 2 * (j / 2) + 1 := by omega
    rw [← same] at left first
    rw [← next] at second
    exact ⟨left, by rw [if_neg (by omega), first]⟩
  · rename_i odd
    have same : j = 2 * (j / 2) + 1 := by omega
    have before : j - 1 = 2 * (j / 2) := by omega
    rw [← same, ← before] at right
    rw [← same] at second
    rw [← before] at first
    exact ⟨right, by rw [if_pos (by omega), first]⟩

end Shaped

theorem freeBit_node (two : 2 ≤ j) (small : j ≤ 2 ^ 64) : freeBit (j - 1) = j / 2 - 1 := by
  rw [freeBit, Nat.shiftRight_one, Nat.mod_eq_sub_mod (by omega), Nat.mod_eq_of_lt (by omega)]
  omega

theorem Shaped.splitBit (shaped : Shaped g e p) (index : Nat) :
    g.splitBit index = index + 2 ^ (g.num_levels - 1) := by
  have levels := shaped.levels
  have power : 2 ^ g.num_levels = 2 ^ (g.num_levels - 1) * 2 := by
    rw [← Nat.pow_succ]
    congr 1
    omega
  rw [BuddyShape.splitBit, Nat.shiftRight_one, power, Nat.mul_div_cancel _ (by decide)]

theorem place_inj {i : Nat} (one : At l j) (two : At l i)
    (same : g.place e l j = g.place e l i) : j = i := by
  unfold BuddyShape.place offset at same
  have units := Nat.eq_of_mul_eq_mul_right (Nat.pow_pos (by decide)) (Nat.add_left_cancel same)
  have first := one.1
  have second := two.1
  omega

end Numbers

/-- Where list nodes may stand: not on the heads, and no two of them eight bytes apart. -/
structure Site (g : BuddyShape) (nodes : Nat → Prop) : Prop where
  spaced : Spaced fun a => nodes a ∨ ∃ l < g.num_levels, a = g.head l
  heads : ∀ l < g.num_levels, ¬ nodes (g.head l)

structure FreeLists (g : BuddyShape) (e : Nat) (nodes : Nat → Prop) (st : Nat → Status)
    (memory : Words) (lists : Nat → List Nat) : Prop where
  ring : ∀ l < g.num_levels, Ring memory (g.head l) (lists l)
  distinct : ∀ l < g.num_levels, (lists l).Nodup
  node : ∀ l < g.num_levels, ∀ a ∈ lists l, nodes a
  listed : ∀ l < g.num_levels, ∀ a,
    a ∈ lists l ↔ ∃ j, At l j ∧ st j = free ∧ a = g.place e l j

section Lists
variable {g : BuddyShape} {e p l j : Nat} {nodes : Nat → Prop} {st st' : Nat → Status}
  {memory : Words} {lists : Nat → List Nat}

theorem head_inj {m : Nat} (same : g.head l = g.head m) : l = m := by
  unfold BuddyShape.head sizeofListHead at same
  omega

theorem FreeLists.unlisted (free : FreeLists g e nodes st memory lists) (shaped : Shaped g e p)
    (tree : Tree g.num_levels st) (level : At l j) (low : l < g.num_levels)
    (here : Terminal (st j)) {o m : Nat} (inside : offset e l j ≤ o)
    (below : o < offset e l j + 2 ^ (e - l)) (small : m < g.num_levels)
    (member : g.address + o ∈ lists m) : l = m ∧ st j = Status.free := by
  obtain ⟨i, at_i, isFree, same⟩ := (free.listed m small _).mp member
  have start : o = offset e m i := Nat.add_left_cancel same
  have levels := shaped.levels
  have power : 0 < 2 ^ (e - m) := Nat.pow_pos (by decide)
  obtain ⟨node, height⟩ := tree.apart (e := e) (by omega) level here at_i (Or.inl isFree) low small
    ⟨inside, below⟩ ⟨Nat.le_of_eq start.symm, by omega⟩
  exact ⟨height, node ▸ isFree⟩

theorem FreeLists.apart (free : FreeLists g e nodes st memory lists) (shaped : Shaped g e p)
    (tree : Tree g.num_levels st) {a m : Nat} (low : l < g.num_levels) (small : m < g.num_levels)
    (one : a ∈ lists l) (two : a ∈ lists m) : l = m := by
  obtain ⟨j, level, isFree, rfl⟩ := (free.listed l low a).mp one
  have power : 0 < 2 ^ (e - l) := Nat.pow_pos (by decide)
  exact (free.unlisted shaped tree level low (Or.inl isFree) (Nat.le_refl _) (by omega) small
    two).1

theorem FreeLists.head_outside (free : FreeLists g e nodes st memory lists) (site : Site g nodes)
    {m : Nat} (low : l < g.num_levels) (small : m < g.num_levels) : g.head l ∉ lists m :=
  fun member => site.heads l low (free.node m small _ member)

/-- The lists by the addresses of their heads. -/
def BuddyShape.heap (g : BuddyShape) (lists : Nat → List Nat) : Lists where
  heads h := ∃ l < g.num_levels, h = g.head l
  seq h := lists ((h - g.free_blocks) / sizeofListHead)

theorem heap_seq (l : Nat) : (g.heap lists).seq (g.head l) = lists l := by
  rw [BuddyShape.heap, BuddyShape.head]
  dsimp only
  rw [Nat.add_sub_cancel_left, Nat.mul_div_cancel_left l (by decide)]

section Free
variable (free : FreeLists g e nodes st memory lists) (shaped : Shaped g e p)
  (tree : Tree g.num_levels st) (site : Site g nodes)
include free shaped tree site

theorem FreeLists.sequences {places : Nat → Prop}
    (known : ∀ l < g.num_levels, ∀ c ∈ g.head l :: lists l, places c) :
    Sequences places memory (g.heap lists) := by
  constructor
  · rintro _ ⟨l, low, rfl⟩
    rw [heap_seq]
    exact known l low
  · rintro _ ⟨l, low, rfl⟩
    rw [heap_seq]
    exact free.ring l low
  · rintro _ ⟨l, low, rfl⟩
    rw [heap_seq]
    exact List.nodup_cons.mpr ⟨free.head_outside site low low, free.distinct l low⟩
  · rintro _ _ ⟨l, low, rfl⟩ ⟨m, small, rfl⟩ different c
    rw [heap_seq, heap_seq, List.mem_cons, List.mem_cons, not_or]
    rintro (rfl | listed)
    · exact ⟨different, free.head_outside site low small⟩
    · refine ⟨fun same => free.head_outside site small low (same ▸ listed), fun also => ?_⟩
      exact different (by rw [free.apart shaped tree low small listed also])

theorem FreeLists.near :
    Sequences (fun a => nodes a ∨ ∃ l < g.num_levels, a = g.head l) memory (g.heap lists) := by
  refine free.sequences shaped tree site fun l low c member => ?_
  rcases List.mem_cons.mp member with rfl | inside
  · exact Or.inr ⟨l, low, rfl⟩
  · exact Or.inl (free.node l low c inside)

end Free

theorem FreeLists.of_sequences {places : Nat → Prop} {s : Lists} (q : Sequences places memory s)
    (held : ∀ l < g.num_levels, s.heads (g.head l) ∧ s.seq (g.head l) = lists l)
    (node : ∀ l < g.num_levels, ∀ a ∈ lists l, nodes a)
    (listed : ∀ l < g.num_levels, ∀ a,
      a ∈ lists l ↔ ∃ j, At l j ∧ st j = Status.free ∧ a = g.place e l j) :
    FreeLists g e nodes st memory lists where
  ring l low := (held l low).2 ▸ q.ring _ (held l low).1
  distinct l low := (held l low).2 ▸ (List.nodup_cons.mp (q.nodup _ (held l low).1)).2
  node := node
  listed := listed

variable (free : FreeLists g e nodes st memory lists) (shaped : Shaped g e p)
  (tree : Tree g.num_levels st) (site : Site g nodes) (low : l < g.num_levels) (level : At l j)
include free shaped tree site low level

theorem FreeLists.remove {xs ys : List Nat} (cut : lists l = xs ++ g.place e l j :: ys)
    (gone : ∀ i, st' i = Status.free ↔ st i = Status.free ∧ i ≠ j) :
    FreeLists g e nodes st' (listDel memory (g.place e l j))
      (Function.update lists l (xs ++ ys)) := by
  have here : g.place e l j ∈ lists l := by
    rw [cut]
    exact List.mem_append_right _ List.mem_cons_self
  have removed := (free.near shaped tree site).del (h := g.head l) ⟨l, low, rfl⟩
    (by rwa [heap_seq]) site.spaced
  have erased : ∀ m < g.num_levels, (lists m).erase (g.place e l j) =
      Function.update lists l (xs ++ ys) m := by
    intro m small
    rw [Function.update_apply]
    split
    · next same =>
      have distinct := free.distinct l low
      rw [cut, List.nodup_append] at distinct
      rw [same, cut, List.erase_append_right _ fun inside =>
        distinct.2.2 _ inside _ List.mem_cons_self rfl, List.erase_cons_head]
    · next different =>
      exact List.erase_of_not_mem fun also => different (free.apart shaped tree small low also here)
  refine .of_sequences removed (fun m small => ⟨⟨m, small, rfl⟩, ?_⟩) (fun m small a member => ?_)
    fun m small a => ?_
  · rw [← erased m small]
    exact congrArg (List.erase · _) (heap_seq m)
  · rw [← erased m small] at member
    exact free.node m small a (List.mem_of_mem_erase member)
  · rw [← erased m small, (free.distinct m small).mem_erase_iff, free.listed m small]
    constructor
    · rintro ⟨other, i, at_i, isFree, rfl⟩
      refine ⟨i, at_i, (gone i).mpr ⟨isFree, ?_⟩, rfl⟩
      rintro rfl
      exact other (by rw [at_i.unique level])
    · rintro ⟨i, at_i, isFree, rfl⟩
      obtain ⟨wasFree, other⟩ := (gone i).mp isFree
      refine ⟨fun same => ?_, i, at_i, wasFree, rfl⟩
      have both := (free.listed m small _).mpr ⟨i, at_i, wasFree, rfl⟩
      have height := free.apart shaped tree small low both (same ▸ here)
      subst height
      exact other (place_inj at_i level same)

theorem FreeLists.add (isNode : nodes (g.place e l j))
    (fresh : ∀ m < g.num_levels, g.place e l j ∉ lists m)
    (new : ∀ i, st' i = Status.free ↔ st i = Status.free ∨ i = j) :
    FreeLists g e nodes st' (listAdd memory (g.place e l j) (g.head l))
      (Function.update lists l (g.place e l j :: lists l)) := by
  have notHead : ∀ m < g.num_levels, g.place e l j ≠ g.head m :=
    fun m small same => site.heads m small (same ▸ isNode)
  have unused : (g.heap lists).Free (g.place e l j) (g.head l) := by
    refine ⟨notHead l low, ?_, ?_⟩
    · rintro _ ⟨m, small, rfl⟩
      rw [heap_seq]
      exact fresh m small
    · rintro ⟨m, small, same⟩
      exact absurd same (notHead m small)
  have added := (free.near shaped tree site).add site.spaced ⟨l, low, rfl⟩ (Or.inl isNode) unused
  have seq : ∀ m, ((g.heap lists).push (g.place e l j) (g.head l)).seq (g.head m) =
      Function.update lists l (g.place e l j :: lists l) m := by
    intro m
    rw [Lists.push, Lists.change, Function.update_apply]
    dsimp only [Lists.dropHead]
    rw [Function.update_apply, heap_seq, heap_seq]
    exact if_congr ⟨head_inj, congrArg _⟩ rfl rfl
  refine .of_sequences added (fun m small => ⟨⟨⟨m, small, rfl⟩, (notHead m small).symm⟩, seq m⟩)
    (fun m small a member => ?_) fun m small a => ?_
  · rw [Function.update_apply] at member
    split at member
    · rcases List.mem_cons.mp member with rfl | old
      · exact isNode
      · exact free.node l low a old
    · exact free.node m small a member
  · have member : a ∈ Function.update lists l (g.place e l j :: lists l) m ↔
        a ∈ lists m ∨ m = l ∧ a = g.place e l j := by
      rw [Function.update_apply]
      split
      · next same => simp [same, or_comm]
      · next different => simp [different]
    rw [member, free.listed m small]
    constructor
    · rintro (⟨i, at_i, isFree, place⟩ | ⟨rfl, rfl⟩)
      · exact ⟨i, at_i, (new i).mpr (Or.inl isFree), place⟩
      · exact ⟨j, level, (new j).mpr (Or.inr rfl), rfl⟩
    · rintro ⟨i, at_i, isFree, rfl⟩
      rcases (new i).mp isFree with wasFree | rfl
      · exact Or.inl ⟨i, at_i, wasFree, rfl⟩
      · obtain rfl := at_i.unique level
        exact Or.inr ⟨rfl, rfl⟩

end Lists

/-- Allocated or split; the block that a call has in hand counts as neither. -/
def inUse (st : Nat → Status) (held j : Nat) : Bool :=
  decide (j ≠ held ∧ (st j = live ∨ st j = split))

def togglePair (info : BitmapWords) (j : Nat) : BitmapWords :=
  if 2 ≤ j then bitmapToggle info (j / 2 - 1) else info

/-- The bits are those of the tree, but for the split bit of one node. The split bits stand
    behind the `half` bits of the pairs, and `block_info` has more words than bits are used. -/
structure BlockBits (half : Nat) (st : Nat → Status) (info : BitmapWords) (held dirty : Nat) :
    Prop where
  splits : ∀ j, 1 ≤ j → j < 2 * half → j ≠ dirty →
    bitmapGet info (j - 1 + half) = decide (st j = split)
  pairs : ∀ j, 1 ≤ j → j < half →
    bitmapGet info (j - 1) = (inUse st held (2 * j) != inUse st held (2 * j + 1))
  rest : ∀ i, 3 * half ≤ i → i < 128 * half → bitmapGet info i = false

section Bits
variable {half j : Nat} {st : Nat → Status} {info : BitmapWords}

theorem get_togglePair (i : Nat) :
    bitmapGet (togglePair info j) i =
      if 2 ≤ j ∧ i = j / 2 - 1 then !bitmapGet info i else bitmapGet info i := by
  unfold togglePair
  split
  · rename_i two
    rw [bitmapGet_toggle]
    simp only [two, true_and]
  · rename_i root
    rw [if_neg (fun both => root both.1)]

theorem BlockBits.copy {held dirty : Nat} {info' : BitmapWords}
    (bits : BlockBits half st info held dirty)
    (same : ∀ i < 128 * half, bitmapGet info' i = bitmapGet info i) :
    BlockBits half st info' held dirty := by
  constructor
  · intro i one small clean
    rw [same _ (by omega), bits.splits i one small clean]
  · intro i one small
    rw [same _ (by omega), bits.pairs i one small]
  · intro i behind inside
    rw [same i inside, bits.rest i behind inside]

theorem BlockBits.toggle {held held' dirty : Nat} {st' : Nat → Status}
    (bits : BlockBits half st info held dirty) (some : 1 ≤ j) (below : j < 2 * half)
    (splits : ∀ i, i ≠ dirty → (st' i = split ↔ st i = split))
    (changed : inUse st' held' j = !inUse st held j)
    (kept : ∀ i, 2 ≤ i → i ≠ j → inUse st' held' i = inUse st held i) :
    BlockBits half st' (togglePair info j) held' dirty := by
  constructor
  · intro i one small clean
    rw [get_togglePair, if_neg (by omega), bits.splits i one small clean]
    exact decide_eq_decide.mpr (splits i clean).symm
  · intro i one small
    rw [get_togglePair, bits.pairs i one small]
    by_cases here : 2 ≤ j ∧ i - 1 = j / 2 - 1
    · rw [if_pos here]
      by_cases left : j = 2 * i
      · rw [kept (2 * i + 1) (by omega) (by omega), ← left, changed]
        generalize inUse st held (j + 1) = other
        cases inUse st held j <;> cases other <;> rfl
      · have right : j = 2 * i + 1 := by omega
        rw [kept (2 * i) (by omega) (by omega), ← right, changed]
        cases inUse st held j <;> cases inUse st held (2 * i) <;> rfl
    · rw [if_neg here, kept (2 * i) (by omega) (by omega), kept (2 * i + 1) (by omega) (by omega)]
  · intro i behind inside
    rw [get_togglePair, if_neg (by omega), bits.rest i behind inside]

theorem inUse_held (st : Nat → Status) (j : Nat) : inUse st j j = false :=
  decide_eq_false fun both => both.1 rfl

theorem inUse_of_ne {held held' i : Nat} {st' : Nat → Status} (one : i ≠ held) (two : i ≠ held')
    (same : st' i = st i) : inUse st' held' i = inUse st held i := by
  rw [inUse, inUse, same]
  exact decide_eq_decide.mpr (by simp [one, two])

theorem BlockBits.settle (bits : BlockBits half st info j 0) (some : 1 ≤ j)
    (below : j < 2 * half) (here : st j = live) :
    BlockBits half st (togglePair info j) 0 0 := by
  refine bits.toggle some below (fun i _ => Iff.rfl) ?_ ?_
  · rw [inUse_held, inUse, here]
    simp
    omega
  · intro i two other
    exact inUse_of_ne other (by omega) rfl

theorem BlockBits.grasp (bits : BlockBits half st info 0 0) (some : 1 ≤ j)
    (below : j < 2 * half) (here : st j = live) :
    BlockBits half st (togglePair info j) j j := by
  have toggled : BlockBits half st (togglePair info j) j 0 := by
    refine bits.toggle some below (fun i _ => Iff.rfl) ?_ ?_
    · rw [inUse_held, inUse, here]
      simp
      omega
    · intro i two other
      exact inUse_of_ne (by omega) other rfl
  exact ⟨fun i one small _ => toggled.splits i one small (by omega), toggled.pairs, toggled.rest⟩

theorem BlockBits.take (bits : BlockBits half st info 0 0) (here : st j = free) :
    BlockBits half (Function.update st j live) info j 0 := by
  have used : ∀ i, 2 ≤ i → inUse (Function.update st j live) j i = inUse st 0 i := by
    intro i two
    by_cases same : i = j
    · rw [same, inUse_held, inUse, here]
      simp
    · exact inUse_of_ne (by omega) same (Function.update_of_ne same _ _)
  constructor
  · intro i one small clean
    rw [bits.splits i one small clean, Function.update_apply]
    split
    · rename_i same
      rw [same, here]
      rfl
    · rfl
  · intro i one small
    rw [used (2 * i) (by omega), used (2 * i + 1) (by omega)]
    exact bits.pairs i one small
  · exact bits.rest

theorem BlockBits.resolve {held held' dirty : Nat} {st' : Nat → Status} {info' : BitmapWords}
    (bits : BlockBits half st info held dirty) (some : 1 ≤ j) (below : j < 2 * half)
    (clean : dirty = 0 ∨ dirty = j)
    (stored : ∀ i, bitmapGet info' i =
      if i = j - 1 + half then decide (st' j = split) else bitmapGet info i)
    (splits : ∀ i, i ≠ j → (st' i = split ↔ st i = split))
    (kept : ∀ i, 2 ≤ i → inUse st' held' i = inUse st held i) :
    BlockBits half st' info' held' 0 := by
  constructor
  · intro i one small _
    rw [stored]
    by_cases here : i = j
    · rw [here, if_pos rfl]
    · rw [if_neg (by omega), bits.splits i one small (by omega)]
      exact decide_eq_decide.mpr (splits i here).symm
  · intro i one small
    rw [stored, if_neg (by omega), bits.pairs i one small, kept (2 * i) (by omega),
      kept (2 * i + 1) (by omega)]
  · intro i behind inside
    rw [stored, if_neg (by omega), bits.rest i behind inside]

theorem BlockBits.halve (bits : BlockBits half st info j 0) (some : 1 ≤ j) (below : j < half)
    (left : st (2 * j) = absent) (right : st (2 * j + 1) = absent) :
    BlockBits half (halve st j) (togglePair (bitmapSet info (j - 1 + half)) j) (2 * j) 0 := by
  have marked :
      BlockBits half (Function.update st j split) (bitmapSet info (j - 1 + half)) j 0 := by
    refine bits.resolve some (by omega) (Or.inl rfl) ?_ ?_ ?_
    · intro i
      rw [bitmapGet_set, Function.update_self]
      rfl
    · intro i other
      rw [Function.update_of_ne other]
    · intro i two
      by_cases same : i = j
      · rw [same, inUse_held, inUse_held]
      · exact inUse_of_ne same same (Function.update_of_ne same _ _)
  refine marked.toggle some (by omega) ?_ ?_ ?_
  · intro i _
    simp only [halve_apply, Function.update_apply]
    grind
  · rw [inUse_held, inUse, halve_apply, if_neg (by omega), if_neg (by omega), if_pos rfl]
    simp
    omega
  · intro i two other
    simp only [inUse, halve_apply, Function.update_apply, decide_eq_decide]
    grind

theorem BlockBits.join {c i : Nat} (bits : BlockBits half st info c c) (parent : c / 2 = i)
    (some : 1 ≤ i) (below : i < half) (here : st c = live) (whole : st i = split)
    (buddy : ∀ b, b / 2 = i → b ≠ c → st b = free) :
    BlockBits half (join st i) (togglePair (bitmapClear info (c - 1 + half)) i) i i := by
  have cleared : BlockBits half st (bitmapClear info (c - 1 + half)) c 0 := by
    refine bits.resolve (by omega) (by omega) (Or.inr rfl) ?_ (fun _ _ => Iff.rfl)
      (fun _ _ => rfl)
    intro k
    rw [bitmapGet_clear, here]
    rfl
  have open_ : BlockBits half st (bitmapClear info (c - 1 + half)) c i :=
    ⟨fun k one small _ => cleared.splits k one small (by omega), cleared.pairs, cleared.rest⟩
  have left := buddy (2 * i) (by omega)
  have right := buddy (2 * i + 1) (by omega)
  refine open_.toggle some (by omega) ?_ ?_ ?_
  · intro k other
    simp only [join_apply]
    grind
  · rw [inUse_held, inUse, whole]
    simp
    omega
  · intro k two other
    simp only [inUse, join_apply, decide_eq_decide]
    grind

theorem BlockBits.pair_held {c dirty : Nat} (bits : BlockBits half st info c dirty) (two : 2 ≤ c)
    (below : c < 2 * half) : bitmapGet info (c / 2 - 1) = inUse st c (sibling c) := by
  rw [bits.pairs (c / 2) (by omega) (by omega)]
  have held := inUse_held st c
  unfold sibling
  split
  · rename_i even
    have same : 2 * (c / 2) = c := by omega
    rw [same, held, Bool.false_bne]
  · rename_i odd
    have same : 2 * (c / 2) + 1 = c := by omega
    have before : 2 * (c / 2) = c - 1 := by omega
    rw [same, before, held, Bool.bne_false]

theorem BlockBits.give (bits : BlockBits half st info j j) (some : 1 ≤ j)
    (below : j < 2 * half) :
    BlockBits half (Function.update st j free) (bitmapClear info (j - 1 + half)) 0 0 := by
  refine bits.resolve some below (Or.inr rfl) ?_ ?_ ?_
  · intro i
    rw [bitmapGet_clear, Function.update_self]
    rfl
  · intro i other
    rw [Function.update_of_ne other]
  · intro i two
    by_cases same : i = j
    · rw [same, inUse_held, inUse, Function.update_self]
      simp
    · exact inUse_of_ne same (by omega) (Function.update_of_ne same _ _)

end Bits

end OmenMemory
