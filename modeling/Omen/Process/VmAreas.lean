import Omen.Library.GapSearch
import Omen.Memory.PageTables

/- The list of areas of a process in `vmarea.c`, and the search for a place for a new mapping.
   Addresses are words of 64 bits; 0 stands for NULL. -/
namespace OmenProcess
open GapSearch
open OmenMemory (vmmRegionSize)

def wordSize : Nat := 2 ^ 64

def vmmRegionUShmMmap : Nat := 0x500000000000

structure VmArea where
  start : Nat
  end_ : Nat
  flags : Nat
  extended_flags : Nat
  page_size : Nat
  fd : Int
  offset : Nat

def VmArea.Contains (a : VmArea) (address : Nat) : Prop := a.start ≤ address ∧ address < a.end_

instance (a : VmArea) (address : Nat) : Decidable (a.Contains address) :=
  inferInstanceAs (Decidable (_ ∧ _))

def isInVmarea (areas : List VmArea) (address : Nat) : Option VmArea :=
  areas.find? fun a => a.Contains address

def createVmarea (areas : List VmArea) (area : VmArea) : List VmArea := area :: areas

def removeVmarea (areas : List VmArea) (start : Nat) : List VmArea :=
  areas.eraseP fun a => a.start == start

def vmareaCollides (areas : List VmArea) (start end_ : Nat) : Option VmArea :=
  areas.find? fun a => a.start < end_ && start < a.end_

/-- The loop of `find_shm_vmarea` with the number of rounds it may take. -/
def shmLoop (areas : List VmArea) (size : Nat) : Nat → Nat → Bool → Option Nat
  | 0, _, _ => none
  | rounds + 1, start, wrapped =>
    match vmareaCollides areas start ((start + size) % wordSize) with
    | none => some start
    | some collision =>
      let aligned := (collision.end_ + 0x1000 - 1) % wordSize / 0x1000 * 0x1000
      if aligned > vmmRegionUShmMmap + vmmRegionSize then
        if wrapped then some 0 else shmLoop areas size rounds vmmRegionUShmMmap true
      else shmLoop areas size rounds aligned wrapped

def shmHint (hint : Nat) : Nat := if hint = 0 then vmmRegionUShmMmap else hint

/-- `find_shm_vmarea`; no result when the rounds do not suffice. -/
def findShmVmarea (areas : List VmArea) (rounds hint size : Nat) : Option Nat :=
  shmLoop areas size rounds (shmHint hint) false

def VmArea.Apart (a b : VmArea) : Prop := ∀ address, ¬ (a.Contains address ∧ b.Contains address)

def mmapArea (start size flags extended_flags : Nat) (fd : Int) (offset : Nat) : VmArea where
  start := start
  end_ := (start + size) % wordSize
  flags := flags
  extended_flags := extended_flags
  page_size := 0x1000
  fd := fd
  offset := offset

structure FreshPlace (areas : List VmArea) (start size : Nat) : Prop where
  noWrap : start + size < wordSize
  inside : vmmRegionUShmMmap ≤ start ∧ start + size ≤ vmmRegionUShmMmap + vmmRegionSize
  apart : ∀ a ∈ areas, ∀ address, start ≤ address → address < start + size → ¬ a.Contains address
  recorded : ∀ flags extended_flags fd offset, (createVmarea areas
    (mmapArea start size flags extended_flags fd offset)).Pairwise VmArea.Apart

/-- The search ends, and where it gives a place, the place is fresh. -/
def SearchesWell (areas : List VmArea) (hint size : Nat) : Prop :=
  ∃ rounds start, findShmVmarea areas rounds hint size = some start ∧
    (start ≠ 0 → FreshPlace areas start size)

def VmArea.span (a : VmArea) : Span := ⟨a.start, a.end_⟩

def FirstPlace (areas : List VmArea) (size s p : Nat) : Prop :=
  First (areas.map VmArea.span) 0x1000 (vmmRegionUShmMmap + vmmRegionSize) size s p

def InRegion (size p : Nat) : Prop :=
  vmmRegionUShmMmap ≤ p ∧ p + size ≤ vmmRegionUShmMmap + vmmRegionSize

/-- An end in the last page of the address space rounds up to address 0. -/
def InLastPage (end_ : Nat) : Prop := wordSize < end_ + 0x1000

instance (end_ : Nat) : Decidable (InLastPage end_) := inferInstanceAs (Decidable (_ < _))

/-- The area at which a pass from some place on leaves the region ends in the last page. -/
def Turns (areas : List VmArea) (size s : Nat) : Prop :=
  ∃ a, climb (areas.map VmArea.span) 0x1000 (vmmRegionUShmMmap + vmmRegionSize) size
    (areas.length + 1) s = some (.inl a) ∧ InLastPage a.stop

/-- A pass from some place on: its first free place is inside the region, or address 0, which the
    caller takes for NULL; without one it is as it should be later. -/
def PassFits (areas : List VmArea) (size s : Nat) (later : Prop) : Prop :=
  (∀ p, FirstPlace areas size s p → p = 0 ∨ InRegion size p) ∧
  ((∀ p, ¬ FirstPlace areas size s p) → later)

def FitsFromZero (areas : List VmArea) (size : Nat) (later : Prop) : Prop :=
  PassFits areas size 0 (¬ Turns areas size 0 ∧ later)

def FitsFromStart (areas : List VmArea) (size : Nat) : Prop :=
  PassFits areas size vmmRegionUShmMmap
    (Turns areas size vmmRegionUShmMmap → FitsFromZero areas size True)

/-- The searches of which the property holds. No place is right for a length with which the
    region's end goes around the address space; the search must then give up. A hint behind the
    region must be in some area's way. -/
def SearchFits (areas : List VmArea) (hint size : Nat) : Prop :=
  if wordSize ≤ vmmRegionUShmMmap + vmmRegionSize + size then
    ∃ rounds, findShmVmarea areas rounds hint size = some 0
  else if shmHint hint ≤ vmmRegionUShmMmap + vmmRegionSize then
    PassFits areas size (shmHint hint)
      ((Turns areas size (shmHint hint) → FitsFromZero areas size (FitsFromStart areas size)) ∧
        (¬ Turns areas size (shmHint hint) → FitsFromStart areas size))
  else
    match vmareaCollides areas (shmHint hint) ((shmHint hint + size) % wordSize) with
    | none => False
    | some a =>
      (InLastPage a.end_ → FitsFromZero areas size (FitsFromStart areas size)) ∧
        (¬ InLastPage a.end_ → FitsFromStart areas size)

section Search
variable {areas : List VmArea} {hint size s t p rounds : Nat} {w v : Bool}

theorem vmareaCollides_span (short : s + size < wordSize) :
    (vmareaCollides areas s ((s + size) % wordSize)).map VmArea.span =
      (areas.map VmArea.span).find? fun a => a.Hit size s := by
  unfold vmareaCollides
  rw [List.find?_map, Nat.mod_eq_of_lt short]
  congr 2
  funext a
  exact (Bool.decide_and ..).symm

theorem aligned_roundUp {end_ : Nat} (low : ¬ InLastPage end_) :
    (end_ + 0x1000 - 1) % wordSize / 0x1000 * 0x1000 = roundUp 0x1000 end_ := by
  unfold InLastPage at low
  rw [Nat.mod_eq_of_lt (by omega)]
  rfl

theorem aligned_zero {end_ : Nat} (word : end_ < wordSize) (last : InLastPage end_) :
    (end_ + 0x1000 - 1) % wordSize / 0x1000 * 0x1000 = 0 := by
  unfold InLastPage at last
  have pages : 0x1000 ≤ wordSize := by decide
  rw [show end_ + 0x1000 - 1 = (end_ + 0x1000 - 1 - wordSize) + wordSize by omega,
    Nat.add_mod_right, Nat.mod_eq_of_lt (by omega), Nat.div_eq_of_lt (by omega), Nat.zero_mul]

theorem roundUp_last {end_ : Nat} (last : InLastPage end_) :
    roundUp 0x1000 end_ > vmmRegionUShmMmap + vmmRegionSize := by
  have above : end_ ≤ roundUp 0x1000 end_ := le_roundUp (by decide)
  have far : vmmRegionUShmMmap + vmmRegionSize + 0x1000 < wordSize := by decide
  have high : vmmRegionUShmMmap + vmmRegionSize < end_ :=
    Nat.lt_of_add_lt_add_right (far.trans last)
  exact Nat.lt_of_lt_of_le high above

/-- The search goes on from one place as from another, some rounds later. -/
def GoesOn (areas : List VmArea) (size s : Nat) (w : Bool) (t : Nat) (v : Bool) : Prop :=
  ∃ cost, 0 < cost ∧
    ∀ rounds, shmLoop areas size (cost + rounds) s w = shmLoop areas size rounds t v

def EndsAt (areas : List VmArea) (size s : Nat) (w : Bool) (start : Nat) : Prop :=
  ∃ rounds, shmLoop areas size rounds s w = some start

theorem shmLoop_more {start : Nat} (ends : shmLoop areas size rounds s w = some start)
    (extra : Nat) : shmLoop areas size (rounds + extra) s w = some start := by
  induction rounds generalizing s w with
  | zero => cases ends
  | succ rounds ih =>
    rw [Nat.succ_add, shmLoop]
    rw [shmLoop] at ends
    cases first : vmareaCollides areas s ((s + size) % wordSize) with
    | none =>
      rw [first] at ends
      exact ends
    | some a =>
      rw [first] at ends
      dsimp only at ends ⊢
      split at ends
      · rename_i beyond
        rw [if_pos beyond]
        cases w with
        | true => exact ends
        | false => exact ih ends
      · rename_i within
        rw [if_neg within]
        exact ih ends

theorem EndsAt.unique {start other : Nat} (one : EndsAt areas size s w start)
    (two : EndsAt areas size s w other) : start = other := by
  obtain ⟨rounds, ends⟩ := one
  obtain ⟨more, alike⟩ := two
  have first := shmLoop_more ends more
  have second := shmLoop_more alike rounds
  rw [Nat.add_comm] at second
  exact Option.some.inj (first.symm.trans second)

theorem GoesOn.trans {u : Nat} {x : Bool} (one : GoesOn areas size s w t v)
    (two : GoesOn areas size t v u x) : GoesOn areas size s w u x := by
  obtain ⟨cost, positive, same⟩ := one
  obtain ⟨more, -, alike⟩ := two
  refine ⟨cost + more, by omega, fun rounds => ?_⟩
  rw [Nat.add_assoc, same, alike]

theorem GoesOn.endsAt_iff (goes : GoesOn areas size s w t v) (start : Nat) :
    EndsAt areas size s w start ↔ EndsAt areas size t v start := by
  obtain ⟨cost, -, same⟩ := goes
  constructor
  · rintro ⟨rounds, ends⟩
    have more := shmLoop_more ends cost
    rw [Nat.add_comm, same] at more
    exact ⟨rounds, more⟩
  · rintro ⟨rounds, ends⟩
    exact ⟨cost + rounds, (same rounds).trans ends⟩

theorem GoesOn.never_ends (goes : GoesOn areas size s w s w) (start : Nat) :
    ¬ EndsAt areas size s w start := by
  obtain ⟨cost, positive, same⟩ := goes
  rintro ⟨rounds, ends⟩
  induction rounds using Nat.strongRecOn with
  | ind rounds ih =>
    by_cases enough : cost ≤ rounds
    · refine ih (rounds - cost) (by omega) ?_
      rw [← same, Nat.add_sub_cancel' enough]
      exact ends
    · have more := shmLoop_more ends (cost - rounds)
      rw [Nat.add_sub_cancel' (by omega)] at more
      cases more.symm.trans (same 0)

theorem shmLoop_hit {a : VmArea} (word : a.end_ < wordSize)
    (hit : vmareaCollides areas s ((s + size) % wordSize) = some a) (w : Bool) :
    shmLoop areas size (rounds + 1) s w =
      if InLastPage a.end_ then shmLoop areas size rounds 0 w
      else if roundUp 0x1000 a.end_ > vmmRegionUShmMmap + vmmRegionSize then
        if w then some 0 else shmLoop areas size rounds vmmRegionUShmMmap true
      else shmLoop areas size rounds (roundUp 0x1000 a.end_) w := by
  rw [shmLoop, hit]
  dsimp only
  by_cases last : InLastPage a.end_
  · rw [aligned_zero word last, if_pos last, if_neg (by decide)]
  · rw [aligned_roundUp last, if_neg last]

structure Leaves (areas : List VmArea) (size s end_ : Nat) : Prop where
  turn : InLastPage end_ → ∀ w, GoesOn areas size s w 0 w
  again : ¬ InLastPage end_ → GoesOn areas size s false vmmRegionUShmMmap true
  gives_up : ¬ InLastPage end_ → EndsAt areas size s true 0

theorem leaves_hit {a : VmArea} (word : a.end_ < wordSize)
    (hit : vmareaCollides areas s ((s + size) % wordSize) = some a)
    (beyond : roundUp 0x1000 a.end_ > vmmRegionUShmMmap + vmmRegionSize) :
    Leaves areas size s a.end_ := by
  have round (rounds) (w) := @shmLoop_hit areas size s rounds a word hit w
  refine ⟨fun last w => ⟨1, Nat.one_pos, fun rounds => ?_⟩,
    fun low => ⟨1, Nat.one_pos, fun rounds => ?_⟩, fun low => ⟨1, ?_⟩⟩
  · rw [Nat.add_comm, round, if_pos last]
  · rw [Nat.add_comm, round, if_neg low, if_pos beyond, if_neg Bool.false_ne_true]
  · rw [round 0, if_neg low, if_pos beyond, if_pos rfl]

section Climbs
variable (words : ∀ a ∈ areas, a.end_ < wordSize)
  (regular : vmmRegionUShmMmap + vmmRegionSize + size < wordSize)
include words regular

theorem shmLoop_climb (low : s ≤ vmmRegionUShmMmap + vmmRegionSize) :
    (∀ p, climb (areas.map VmArea.span) 0x1000 (vmmRegionUShmMmap + vmmRegionSize) size rounds s =
        some (.inr p) → ∀ w, EndsAt areas size s w p) ∧
    (∀ a, climb (areas.map VmArea.span) 0x1000 (vmmRegionUShmMmap + vmmRegionSize) size rounds s =
        some (.inl a) → Leaves areas size s a.stop) := by
  induction rounds generalizing s with
  | zero =>
    refine ⟨fun p found => ?_, fun a found => ?_⟩
    · cases found
    · cases found
  | succ rounds ih =>
    rw [climb, ← vmareaCollides_span (by omega)]
    cases hit : vmareaCollides areas s ((s + size) % wordSize) with
    | none =>
      refine ⟨fun p found w => ⟨1, ?_⟩, fun a found => ?_⟩
      · cases found
        rw [shmLoop, hit]
      · cases found
    | some a =>
      have word := words a (List.mem_of_find?_eq_some hit)
      dsimp only [Option.map_some, VmArea.span]
      split
      · rename_i beyond
        refine ⟨fun p found => ?_, fun b found => ?_⟩
        · cases found
        · cases found
          exact leaves_hit word hit beyond
      · rename_i within
        have above : ¬ InLastPage a.end_ := fun last => within (roundUp_last last)
        have next (w) : GoesOn areas size s w (roundUp 0x1000 a.end_) w := by
          refine ⟨1, Nat.one_pos, fun rounds => ?_⟩
          rw [Nat.add_comm, shmLoop_hit word hit, if_neg above, if_neg within]
        obtain ⟨places, leaves⟩ := @ih (roundUp 0x1000 a.end_) (by omega)
        refine ⟨fun p found w => ((next w).endsAt_iff p).mpr (places p found w), fun b found => ?_⟩
        obtain ⟨turn, again, ends⟩ := leaves b found
        exact ⟨fun last w => (next w).trans (turn last w),
          fun low => (next false).trans (again low),
          fun low => ((next true).endsAt_iff 0).mpr (ends low)⟩

/-- How a pass from a place of the region on ends: at the first free place, or, when there is
    none, at an area that leads past the region. -/
theorem pass_cases (low : s ≤ vmmRegionUShmMmap + vmmRegionSize) :
    (∃ p, FirstPlace areas size s p ∧ ∀ w, EndsAt areas size s w p) ∨
    ∃ end_, (∀ p, ¬ FirstPlace areas size s p) ∧ (Turns areas size s ↔ InLastPage end_) ∧
      Leaves areas size s end_ := by
  have enough : ahead (areas.map VmArea.span) s < areas.length + 1 :=
    Nat.lt_succ_of_le ((List.countP_le_length ..).trans_eq (List.length_map ..))
  have loop := @shmLoop_climb areas size s (areas.length + 1) words regular low
  rcases @climb_spec (areas.map VmArea.span) 0x1000 (vmmRegionUShmMmap + vmmRegionSize) size s
      (by decide) _ enough with ⟨p, found, first⟩ | ⟨⟨a, found⟩, nowhere⟩
  · exact Or.inl ⟨p, first, loop.1 p found⟩
  · refine Or.inr ⟨a.stop, fun p first => nowhere p first.1 first.2.1, ?_, loop.2 a found⟩
    unfold Turns
    rw [found]
    constructor
    · rintro ⟨b, same, last⟩
      cases same
      exact last
    · exact fun last => ⟨a, rfl, last⟩

end Climbs

def Good (areas : List VmArea) (size s : Nat) (w : Bool) : Prop :=
  ∃ start, EndsAt areas size s w start ∧ (start ≠ 0 → FreshPlace areas start size)

theorem GoesOn.good_iff (goes : GoesOn areas size s w t v) :
    Good areas size s w ↔ Good areas size t v := by
  unfold Good
  simp only [goes.endsAt_iff]

theorem good_of_endsAt {start : Nat} (ends : EndsAt areas size s w start) :
    Good areas size s w ↔ (start ≠ 0 → FreshPlace areas start size) := by
  constructor
  · rintro ⟨other, found, fresh⟩
    rwa [ends.unique found]
  · exact fun fresh => ⟨start, ends, fresh⟩

theorem FirstPlace.fresh_iff (disjoint : areas.Pairwise VmArea.Apart)
    (regular : vmmRegionUShmMmap + vmmRegionSize + size < wordSize)
    (first : FirstPlace areas size s p) : FreshPlace areas p size ↔ InRegion size p := by
  refine ⟨fun fresh => fresh.inside, fun inside => ?_⟩
  have short : p + size < wordSize := by
    have := inside.2
    omega
  have apart : ∀ a ∈ areas, ∀ address, p ≤ address → address < p + size →
      ¬ a.Contains address := by
    intro a member address low high held
    refine first.2.1 a.span (List.mem_map_of_mem member) ⟨?_, ?_⟩
    · exact Nat.lt_of_le_of_lt held.1 high
    · exact Nat.lt_of_le_of_lt low held.2
  refine ⟨short, inside, apart, fun flags extended_flags fd offset => ?_⟩
  refine List.pairwise_cons.mpr ⟨fun a member address both => ?_, disjoint⟩
  have stop := both.1.2
  dsimp only [mmapArea] at stop
  rw [Nat.mod_eq_of_lt short] at stop
  exact apart a member address both.1.1 stop both.2

section Passes
variable (disjoint : areas.Pairwise VmArea.Apart) (words : ∀ a ∈ areas, a.end_ < wordSize)
  (regular : vmmRegionUShmMmap + vmmRegionSize + size < wordSize)
include disjoint words regular

/-- A pass is right exactly if its first free place is, or what follows where there is none. -/
theorem good_iff_pass (low : s ≤ vmmRegionUShmMmap + vmmRegionSize) (w : Bool) :
    Good areas size s w ↔ PassFits areas size s
      ((Turns areas size s → Good areas size 0 w) ∧
        (¬ Turns areas size s → w = false → Good areas size vmmRegionUShmMmap true)) := by
  rcases pass_cases words regular low with ⟨p, first, ends⟩ | ⟨end_, nowhere, turns, leaves⟩
  · rw [good_of_endsAt (ends w), PassFits]
    have only : ∀ q, FirstPlace areas size s q → q = p := fun q other => First.unique other first
    rw [first.fresh_iff disjoint regular, ← or_iff_not_imp_left]
    refine ⟨fun right => ⟨fun q other => only q other ▸ right, fun none => ?_⟩, fun fits => ?_⟩
    · exact absurd first (none p)
    · exact fits.1 p first
  · have pass (later) : PassFits areas size s later ↔ later :=
      ⟨fun fits => fits.2 nowhere, fun right => ⟨fun p first => absurd first (nowhere p),
        fun _ => right⟩⟩
    rw [pass, turns]
    by_cases last : InLastPage end_
    · rw [(leaves.turn last w).good_iff]
      exact ⟨fun good => ⟨fun _ => good, fun low => absurd last low⟩, fun right => right.1 last⟩
    · cases w with
      | true =>
        rw [good_of_endsAt (leaves.gives_up last)]
        exact ⟨fun _ => ⟨fun high => absurd high last, fun _ other => nomatch other⟩,
          fun _ place => absurd rfl place⟩
      | false =>
        rw [(leaves.again last).good_iff]
        exact ⟨fun good => ⟨fun high => absurd high last, fun _ _ => good⟩,
          fun right => right.2 last rfl⟩

theorem good_zero_iff (w : Bool) : Good areas size 0 w ↔ FitsFromZero areas size
    (w = false → Good areas size vmmRegionUShmMmap true) := by
  rw [good_iff_pass disjoint words regular (Nat.zero_le _), FitsFromZero, PassFits, PassFits]
  refine and_congr_right fun _ => forall_congr' fun nowhere => ?_
  constructor
  · rintro ⟨turn, again⟩
    have stays : ¬ Turns areas size 0 := by
      intro turns
      obtain ⟨start, ends, -⟩ := turn turns
      rcases pass_cases words regular (Nat.zero_le _) with ⟨p, first, -⟩ | ⟨end_, -, last, leaves⟩
      · exact nowhere p first
      · exact (leaves.turn (last.mp turns) w).never_ends start ends
    exact ⟨stays, again stays⟩
  · rintro ⟨stays, again⟩
    exact ⟨fun turns => absurd turns stays, fun _ => again⟩

theorem good_start_iff : Good areas size vmmRegionUShmMmap true ↔ FitsFromStart areas size := by
  rw [good_iff_pass disjoint words regular (Nat.le_add_right ..),
    good_zero_iff disjoint words regular]
  simp [FitsFromStart]

theorem good_turned_iff : Good areas size 0 false ↔
    FitsFromZero areas size (FitsFromStart areas size) := by
  rw [good_zero_iff disjoint words regular, good_start_iff disjoint words regular]
  simp

end Passes

theorem shmHint_ne_zero (hint : Nat) : shmHint hint ≠ 0 := by
  unfold shmHint
  split
  · decide
  · assumption

end Search

def firstPage : VmArea := mmapArea vmmRegionUShmMmap 0x1000 0 0 (-1) 0

def topPage : VmArea := mmapArea 0xfffffffffffff000 0xff8 0 0 (-1) 0

theorem not_searchesWell {areas : List VmArea} {rounds hint size start : Nat}
    (ends : findShmVmarea areas rounds hint size = some start) (place : start ≠ 0)
    (outside : ¬ InRegion size start) : ¬ SearchesWell areas hint size := by
  rintro ⟨more, other, found, fresh⟩
  obtain rfl := EndsAt.unique ⟨rounds, ends⟩ ⟨more, found⟩
  exact outside (fresh place).inside

/-- An area of the whole region that ends in the last page. -/
def lastPage : VmArea := mmapArea 0x500000000000 0xffffaffffffffff8 0 0 (-1) 0

end OmenProcess
