import Omen.Memory.BuddySound

/- What releases restore: once every block is back the allocator is one free block again, and
   `buddy_free` finds the level of a block from its address. -/
namespace OmenMemory
open BuddyTree Status Words

/-- No block is divided or in use, and the whole region is the only listed block. -/
structure Coalesced (s : Buddy) : Prop where
  whole : Ring s.memory (s.head 0) [s.address]
  rest : ∀ l, 0 < l → l < s.num_levels → Ring s.memory (s.head l) []
  splits : ∀ l k, l < s.num_levels → k < 2 ^ l →
    s.getBit (s.splitBit (s.blockIndex (s.block l k).ptr l)) = some false
  pairs : ∀ l k, l + 1 < s.num_levels → k < 2 ^ l →
    s.getBit (freeBit (s.blockIndex (s.block (l + 1) (2 * k)).ptr (l + 1))) = some false
  largest : s.largestAvailable = s.size

section Coalescing
variable {g : BuddyShape} {e p : Nat} {nodes : Nat → Prop} {st : Nat → Status} {s : Buddy}
  {lists : Nat → List Nat}

theorem Kept.idle_lists (kept : Kept g e nodes st s lists []) (shaped : Shaped g e p) :
    lists 0 = [g.address] ∧ ∀ l, 0 < l → l < g.num_levels → lists l = [] := by
  have levels := shaped.levels
  have idle : ∀ j, st j ≠ Status.live := by
    intro j isLive
    have stands := kept.stands
    have there : st j ≠ absent := by
      rw [isLive]
      decide
    obtain ⟨l, low, level⟩ := stands.tree.at_level (by omega) there
    have member := (kept.lives ⟨g.place e l j, l⟩).mpr ⟨low, j, level, isLive, rfl⟩
    exact absurd member List.not_mem_nil
  obtain ⟨root, others⟩ := kept.stands.tree.collapsed kept.stands.joined idle
  have listed := kept.stands.free.listed
  have base : g.place e 0 1 = g.address := by
    rw [BuddyShape.place, offset, Nat.pow_zero, Nat.sub_self, Nat.zero_mul, Nat.add_zero]
  refine ⟨?_, ?_⟩
  · have distinct := kept.stands.free.distinct 0 (by omega)
    have first : g.address ∈ lists 0 :=
      (listed 0 (by omega) _).mpr ⟨1, At.root, root, base.symm⟩
    have only : ∀ a ∈ lists 0, a = g.address := by
      intro a member
      obtain ⟨j, level, -, rfl⟩ := (listed 0 (by omega) a).mp member
      rw [level.of_root, base]
    cases list : lists 0 with
    | nil =>
      rw [list] at first
      exact absurd first List.not_mem_nil
    | cons a rest =>
      rw [list] at distinct only
      rw [only a List.mem_cons_self]
      cases rest with
      | nil => rfl
      | cons b more =>
        have same := (only a (by simp)).trans (only b (by simp)).symm
        rw [same] at distinct
        exact absurd distinct (by simp)
  · intro l positive low
    refine List.eq_nil_iff_forall_not_mem.mpr ?_
    intro a member
    obtain ⟨j, level, isFree, -⟩ := (listed l low a).mp member
    have power := Nat.pow_le_pow_right (n := 2) (by decide) positive
    have first := level.1
    rw [others j (by omega)] at isFree
    cases isFree

theorem Buddy.largestAvailable_whole (some : 0 < s.num_levels)
    (listed : listEmpty s.memory (s.head 0) = false) : s.largestAvailable = s.size := by
  obtain ⟨n, levels⟩ : ∃ n, s.num_levels = n + 1 := ⟨s.num_levels - 1, by omega⟩
  rw [Buddy.largestAvailable, levels, Buddy.largestFrom, listed]
  exact Nat.shiftRight_zero

theorem whole_undivided {levels : Nat} (rest : ∀ l, 0 < l → l < levels → lists l = [])
    (b : BuddyBlock) : ¬ b.Divided g ([] ++ freeBlocks levels lists) := by
  rintro ⟨c, member, lower, -⟩
  obtain ⟨low, listed⟩ := mem_freeBlocks.mp member
  rw [rest c.level (by omega) low] at listed
  exact absurd listed List.not_mem_nil

theorem Kept.coalesced (kept : Kept g e nodes st s lists []) (shaped : Shaped g e p)
    (site : Site g nodes) : Coalesced s := by
  have sound := kept.sound shaped
  have shape := kept.stands.shape
  have some : 0 < s.num_levels := by
    rw [shape, shaped.levels]
    omega
  obtain ⟨whole, rest⟩ := kept.idle_lists shaped
  rw [← shape] at whole rest
  constructor
  · rw [← whole]
    exact sound.rings 0 some
  · intro l positive low
    rw [← rest l positive low]
    exact sound.rings l low
  · intro l k low inside
    obtain ⟨bit, read, set⟩ := sound.splits l k low inside
    rw [read, Bool.eq_false_iff.mpr (fun on => whole_undivided rest _ (set.mp on))]
  · intro l k low inside
    obtain ⟨bit, read, set⟩ := sound.pairs l k low inside
    have unused : ∀ b, ¬ BuddyBlock.InUse s.toBuddyShape []
        ([] ++ freeBlocks s.num_levels lists) b := by
      rintro b (holder | divided)
      · exact absurd holder List.not_mem_nil
      · exact whole_undivided rest b divided
    rw [read, Bool.eq_false_iff.mpr (fun on => set.mp on (iff_of_false (unused _) (unused _)))]
  · refine Buddy.largestAvailable_whole some (Bool.eq_false_iff.mpr ?_)
    rw [shape] at some
    rw [Ne, kept.stands.listEmpty_iff site some, whole]
    exact List.cons_ne_nil _ _

end Coalescing

theorem complete_coalescing {allocator address size pageSize : Nat} {memory : Words}
    {info : BitmapWords} (usable : Usable allocator address size pageSize) {s : Buddy}
    (run : BuddyRun (buddyInit allocator address size pageSize memory info) s []) :
    Coalesced s ∧ s.address = address ∧ s.size = size := by
  obtain ⟨e, p, fresh⟩ := @Usable.fresh _ _ _ _ memory info usable
  obtain ⟨st, lists, kept⟩ := run.kept fresh
  refine ⟨kept.coalesced fresh.shaped fresh.site, ?_, ?_⟩
  · rw [kept.stands.shape]
    rfl
  · rw [kept.stands.shape]
    rfl

def takeAndGive (start : Buddy) (level : Nat) : Option (Option Nat × Buddy) := do
  let (ptr, taken) ← start.levelAlloc level
  let given ← taken.levelFree (ptr.getD 0) level
  some (ptr, given)

theorem takeAndGive_run {start : Buddy} {level ptr : Nat} (low : level < start.num_levels)
    {α : Type} (view : Buddy → α) {seen : α}
    (result : (takeAndGive start level).map (Prod.map id view) = some (some ptr, seen)) :
    ∃ s, BuddyRun start s [] ∧ view s = seen := by
  obtain ⟨⟨found, given⟩, calls, same⟩ := Option.map_eq_some_iff.mp result
  rw [Prod.map_apply, id_eq, Prod.mk.injEq] at same
  obtain ⟨rfl, seen⟩ := same
  rw [takeAndGive, Option.bind_eq_bind, Option.bind_eq_some_iff] at calls
  obtain ⟨⟨first, after⟩, request, calls⟩ := calls
  obtain ⟨last, release, calls⟩ := Option.bind_eq_some_iff.mp calls
  cases calls
  have run := BuddyRun.free (.alloc .init low request) List.mem_cons_self release
  rw [List.erase_cons_head] at run
  exact ⟨given, run, seen⟩

theorem complete_coalescing_quarter :
    ∃ s, BuddyRun (buddyInit 0x1000 0x100000 4096 256 (fun _ => 0) (fun _ => 0)) s [] ∧
      s.memory.next (s.head 0) = 0x100000 ∧
      Coalesced s ∧ s.address = 0x100000 ∧ s.size = 4096 := by
  have calls : (takeAndGive (buddyInit 0x1000 0x100000 4096 256 (fun _ => 0) (fun _ => 0)) 2).map
      (Prod.map id fun s => s.memory.next (s.head 0)) = some (some 0x100000, 0x100000) := by
    decide +kernel
  obtain ⟨s, run, next⟩ := takeAndGive_run (by decide +kernel) _ calls
  exact ⟨s, run, next, complete_coalescing usable_4096 run⟩

/-- Pages of 8 bytes: the nodes of neighbouring pages share a word, and after a page of a
    region of four was taken and given back, a block of two pages is still listed. -/
theorem eight_byte_pages_stay_split :
    ¬ ∀ (allocator address size pageSize : Nat) (memory : Words) (info : BitmapWords),
      (∃ e, size = 2 ^ e ∧ e < 64) → (∃ p, pageSize = 2 ^ p) → pageSize ≤ size →
      (allocator + buddySizeofMetadata (numLevels size pageSize) ≤ address ∨
        address + size ≤ allocator) →
      ∀ s, BuddyRun (buddyInit allocator address size pageSize memory info) s [] →
        Coalesced s := by
  intro all
  have calls : (takeAndGive (buddyInit 0x1000 0x2000 32 8 (fun _ => 0) (fun _ => 0)) 2).map
      (Prod.map id fun s => (s.num_levels, listEmpty s.memory (s.head 1))) =
        some (some 0x2000, 3, false) := by
    decide +kernel
  obtain ⟨s, run, seen⟩ := takeAndGive_run (by decide +kernel) _ calls
  rw [Prod.mk.injEq] at seen
  have coalesced := all 0x1000 0x2000 32 8 _ _ ⟨5, rfl, by decide⟩ ⟨3, rfl⟩ (by decide)
    (Or.inl (by decide +kernel)) s run
  have ring := coalesced.rest 1 (by decide) (by rw [seen.1]; decide)
  rw [(ring.empty_iff List.not_mem_nil).mpr rfl] at seen
  cases seen.2

end OmenMemory
