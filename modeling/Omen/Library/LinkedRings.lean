import Mathlib.Data.List.Chain
import Mathlib.Data.List.Nodup
import Mathlib.Logic.Function.Basic

/- Doubly linked rings. `tie` makes one node follow another, and every change to a ring is a few
   of these. A ring is a path of links from its head back to the head. -/
namespace LinkedRings

structure Links (α : Type*) where
  next : α → α
  prev : α → α

namespace Links
variable {α : Type*}

def Edge (l : Links α) (a b : α) : Prop := l.next a = b ∧ l.prev b = a

def Path (l : Links α) (xs : List α) : Prop := xs.IsChain l.Edge

def Ring (l : Links α) (head : α) (xs : List α) : Prop := l.Path (head :: (xs ++ [head]))

variable [DecidableEq α]

def tie (l : Links α) (a b : α) : Links α :=
  ⟨Function.update l.next a b, Function.update l.prev b a⟩

def put (l : Links α) (a before after : α) : Links α :=
  ⟨Function.update l.next a after, Function.update l.prev a before⟩

section Paths
variable {l l' : Links α} {a b c d head y : α} {xs ys A B : List α}

omit [DecidableEq α] in
theorem Path.congr (path : l.Path xs) (nexts : ∀ c ∈ xs.dropLast, l'.next c = l.next c)
    (prevs : ∀ c ∈ xs.tail, l'.prev c = l.prev c) : l'.Path xs := by
  induction xs with
  | nil => exact .nil
  | cons x xs ih =>
    cases xs with
    | nil => exact .singleton x
    | cons y ys =>
      obtain ⟨edge, rest⟩ := List.isChain_cons_cons.mp path
      refine List.isChain_cons_cons.mpr ⟨⟨?_, ?_⟩, ih rest ?_ ?_⟩
      · rw [nexts x (by simp), edge.1]
      · rw [prevs y (by simp), edge.2]
      · intro c member
        exact nexts c (by rw [List.dropLast_cons_cons]; exact List.mem_cons_of_mem x member)
      · intro c member
        exact prevs c (List.mem_cons_of_mem y member)

theorem Path.tie (path : l.Path xs) (source : a ∉ xs.dropLast) (target : b ∉ xs.tail) :
    (l.tie a b).Path xs := by
  refine path.congr (fun c member => ?_) (fun c member => ?_)
  · have other : c ≠ a := fun same => source (same ▸ member)
    exact Function.update_of_ne other _ _
  · have other : c ≠ b := fun same => target (same ▸ member)
    exact Function.update_of_ne other _ _

theorem tie_edge (l : Links α) (a b : α) : (l.tie a b).Edge a b :=
  ⟨Function.update_self _ _ _, Function.update_self _ _ _⟩

theorem tie_comm (l : Links α) (sources : a ≠ c) (targets : b ≠ d) :
    (l.tie a b).tie c d = (l.tie c d).tie a b := by
  simp only [Links.tie, Function.update_comm sources, Function.update_comm targets]

theorem Path.join (left : l.Path A) (right : l.Path B) (last : A.getLast? = some a)
    (first : B.head? = some b) (once : a ∉ A.dropLast) (left_target : b ∉ A.tail)
    (right_source : a ∉ B.dropLast) (new : b ∉ B.tail) : (l.tie a b).Path (A ++ B) := by
  refine List.isChain_append.mpr
    ⟨left.tie once left_target, right.tie right_source new, fun x atEnd y atStart => ?_⟩
  rw [last] at atEnd
  rw [first] at atStart
  cases atEnd
  cases atStart
  exact tie_edge l a b

omit [DecidableEq α] in
theorem head_notMem_tail (distinct : xs.Nodup) (first : xs.head? = some a) : a ∉ xs.tail := by
  obtain ⟨rest, rfl⟩ := List.head?_eq_some_iff.mp first
  exact (List.nodup_cons.mp distinct).1

omit [DecidableEq α] in
theorem last_notMem_dropLast (distinct : xs.Nodup) (last : xs.getLast? = some a) :
    a ∉ xs.dropLast := by
  obtain ⟨front, rfl⟩ := List.getLast?_eq_some_iff.mp last
  rw [List.dropLast_concat]
  grind

end Paths

/-- Two neighbours of a ring, `a` the last of its nodes before the gap and `b` the first after. -/
structure Gap (head : α) (xs A B : List α) (a b : α) : Prop where
  split : xs = A ++ B
  before : (head :: A).getLast? = some a
  after : (B ++ [head]).head? = some b

section Rings
variable {l l' : Links α} {a b head y first last : α} {xs ys : List α}

omit [DecidableEq α] in
theorem Gap.mem {A B : List α} (gap : Gap head xs A B a b) : a ∈ head :: xs ∧ b ∈ head :: xs := by
  obtain ⟨rfl, before, after⟩ := gap
  have isBefore := List.mem_of_getLast? before
  have isAfter := List.mem_of_head? after
  constructor <;> grind

omit [DecidableEq α] in
theorem Ring.congr (ring : l.Ring head xs) (nexts : ∀ c ∈ head :: xs, l'.next c = l.next c)
    (prevs : ∀ c ∈ head :: xs, l'.prev c = l.prev c) : l'.Ring head xs := by
  refine Path.congr ring (fun c member => nexts c ?_) (fun c member => prevs c ?_)
  · rwa [← List.cons_append, List.dropLast_concat] at member
  · rw [List.tail_cons, List.mem_append, List.mem_singleton] at member
    rw [List.mem_cons]
    exact member.symm

theorem Ring.tie (ring : l.Ring head xs) (source : a ∉ head :: xs) (target : b ∉ head :: xs) :
    (l.tie a b).Ring head xs := by
  refine ring.congr (fun c member => ?_) (fun c member => ?_)
  · have other : c ≠ a := fun same => source (same ▸ member)
    exact Function.update_of_ne other _ _
  · have other : c ≠ b := fun same => target (same ▸ member)
    exact Function.update_of_ne other _ _

theorem Ring.put (ring : l.Ring head xs) (away : a ∉ head :: xs) (before after : α) :
    (l.put a before after).Ring head xs := by
  refine ring.congr (fun c member => ?_) (fun c member => ?_) <;>
  · have other : c ≠ a := fun same => away (same ▸ member)
    exact Function.update_of_ne other _ _

theorem tie_self_ring (l : Links α) (head : α) : (l.tie head head).Ring head [] :=
  List.isChain_pair.mpr (tie_edge l head head)

omit [DecidableEq α] in
theorem Path.next_eq (path : l.Path (a :: xs)) (more : xs ≠ []) : xs.head? = some (l.next a) := by
  cases xs with
  | nil => exact absurd rfl more
  | cons x xs => rw [(List.isChain_cons_cons.mp path).1.1, List.head?_cons]

omit [DecidableEq α] in
theorem Path.prev_eq (path : l.Path (xs ++ b :: ys)) (more : xs ≠ []) :
    xs.getLast? = some (l.prev b) := by
  obtain ⟨-, -, joint⟩ := List.isChain_append.mp path
  have last := List.getLast?_eq_some_getLast more
  rw [last, (joint _ last b rfl).2]

omit [DecidableEq α] in
theorem Ring.front (ring : l.Ring head xs) : Gap head xs [] xs head (l.next head) :=
  ⟨rfl, rfl, Path.next_eq ring (by simp)⟩

omit [DecidableEq α] in
theorem Ring.back (ring : l.Ring head xs) : Gap head xs xs [] (l.prev head) head :=
  have closed : l.Path ((head :: xs) ++ [head]) := ring
  ⟨(List.append_nil xs).symm, closed.prev_eq (List.cons_ne_nil head xs), rfl⟩

/-- A chain goes between two neighbours of a ring with two ties. -/
theorem Ring.insert {A B : List α} (ring : l.Ring head xs) (gap : Gap head xs A B a b)
    (path : l.Path ys) (start : ys.head? = some first) (stop : ys.getLast? = some last)
    (distinct : (head :: (xs ++ ys)).Nodup) :
    ((l.tie a first).tie last b).Ring head (A ++ ys ++ B) := by
  obtain ⟨rfl, before, after⟩ := gap
  have isFirst := List.mem_of_head? start
  have isLast := List.mem_of_getLast? stop
  have isBefore := List.mem_of_getLast? before
  have isAfter := List.mem_of_head? after
  have whole : l.Path ((head :: A) ++ (B ++ [head])) := by
    rw [List.cons_append, ← List.append_assoc]
    exact ring
  have front : l.Path (head :: A) := (List.isChain_append.mp whole).1
  have back : l.Path (B ++ [head]) := (List.isChain_append.mp whole).2.1
  have inner : (l.tie a first).Path ((head :: A) ++ ys) := by
    apply front.join path before start
    · exact last_notMem_dropLast (by grind) before
    · rw [List.tail_cons]
      grind
    · exact fun member => (by grind : a ∉ ys) (List.dropLast_subset _ member)
    · exact head_notMem_tail (by grind) start
  have outer : (l.tie a first).Path (B ++ [head]) := by
    apply back.tie
    · rw [List.dropLast_concat]
      grind
    · exact fun member => (by grind : first ∉ B ++ [head]) (List.mem_of_mem_tail member)
  have ends : ((head :: A) ++ ys).getLast? = some last := by
    rw [List.getLast?_append, stop]
    rfl
  have joined : ((l.tie a first).tie last b).Path ((head :: A) ++ ys ++ (B ++ [head])) := by
    apply inner.join outer ends after
    · exact last_notMem_dropLast (by grind) ends
    · rw [List.cons_append, List.tail_cons]
      grind
    · rw [List.dropLast_concat]
      grind
    · exact head_notMem_tail (by grind) after
  rwa [← List.append_assoc, List.cons_append, List.cons_append] at joined

theorem Ring.remove (ring : l.Ring head (xs ++ y :: ys))
    (distinct : (head :: (xs ++ y :: ys)).Nodup) :
    (l.tie (l.prev y) (l.next y)).Ring head (xs ++ ys) := by
  have whole : l.Path ((head :: xs) ++ y :: (ys ++ [head])) := by
    have := ring
    rwa [Ring, List.append_assoc, List.cons_append] at this
  obtain ⟨front, back, -⟩ := List.isChain_append.mp whole
  have rest : l.Path (ys ++ [head]) := (List.isChain_cons.mp back).2
  have before := whole.prev_eq (List.cons_ne_nil head xs)
  have after : (ys ++ [head]).head? = some (l.next y) := Path.next_eq back (by simp)
  have isPrev := List.mem_of_getLast? before
  have isNext := List.mem_of_head? after
  have joined : (l.tie (l.prev y) (l.next y)).Path ((head :: xs) ++ (ys ++ [head])) := by
    apply Path.join front rest before after
    · exact last_notMem_dropLast (by grind) before
    · rw [List.tail_cons]
      grind
    · rw [List.dropLast_concat]
      grind
    · exact head_notMem_tail (by grind) after
  rwa [List.cons_append, ← List.append_assoc] at joined

omit [DecidableEq α] in
theorem Ring.inner (ring : l.Ring head xs) (more : xs ≠ []) :
    l.Path xs ∧ xs.head? = some (l.next head) ∧ xs.getLast? = some (l.prev head) := by
  have closed : l.Path ((head :: xs) ++ [head]) := ring
  have front : l.Path (head :: xs) := (List.isChain_append.mp closed).1
  have stop := closed.prev_eq (List.cons_ne_nil head xs)
  rw [List.getLast?_cons_of_ne_nil more] at stop
  exact ⟨(List.isChain_cons.mp front).2, front.next_eq more, stop⟩

omit [DecidableEq α] in
theorem Ring.links_mem (ring : l.Ring head xs) (member : y ∈ xs) :
    l.prev y ∈ head :: xs ∧ l.next y ∈ head :: xs := by
  obtain ⟨front, back, rfl⟩ := List.append_of_mem member
  have whole : l.Path ((head :: front) ++ y :: (back ++ [head])) := by
    have closed := ring
    rwa [Ring, List.append_assoc, List.cons_append] at closed
  have before := List.mem_of_getLast? (whole.prev_eq (List.cons_ne_nil head front))
  have after := List.mem_of_head?
    (Path.next_eq (List.isChain_append.mp whole).2.1 (by simp : back ++ [head] ≠ []))
  constructor
  · grind
  · grind

end Rings

/-- Rings that have no node in common: for each head its nodes in order. -/
structure Holds (l : Links α) (heads : α → Prop) (seq : α → List α) : Prop where
  ring : ∀ h, heads h → l.Ring h (seq h)
  nodup : ∀ h, heads h → (h :: seq h).Nodup
  apart : ∀ h k, heads h → heads k → h ≠ k → ∀ c ∈ h :: seq h, c ∉ k :: seq k

namespace Holds
variable {l l' : Links α} {heads : α → Prop} {seq : α → List α}
  {head y first last : α} {ys : List α}

theorem change {xs : List α} (holds : l.Holds heads seq) (ring : l'.Ring head xs)
    (distinct : (head :: xs).Nodup)
    (others : ∀ k, heads k → k ≠ head →
      l'.Ring k (seq k) ∧ ∀ c ∈ head :: xs, c ∉ k :: seq k) :
    l'.Holds heads (Function.update seq head xs) where
  ring h here := by
    by_cases same : h = head
    · subst same
      rwa [Function.update_self]
    · rw [Function.update_of_ne same]
      exact (others h here same).1
  nodup h here := by
    by_cases same : h = head
    · subst same
      rwa [Function.update_self]
    · rw [Function.update_of_ne same]
      exact holds.nodup h here
  apart h k here there other := by
    by_cases same : h = head
    · subst same
      rw [Function.update_self, Function.update_of_ne (Ne.symm other)]
      exact (others k there (Ne.symm other)).2
    · rw [Function.update_of_ne same]
      by_cases same' : k = head
      · subst same'
        rw [Function.update_self]
        exact fun c member back => (others h here same).2 c back member
      · rw [Function.update_of_ne same']
        exact holds.apart h k here there other

section Insert
variable (holds : l.Holds heads seq) (here : heads head) (path : l.Path ys)
  (start : ys.head? = some first) (stop : ys.getLast? = some last) (distinct : ys.Nodup)
  (fresh : ∀ k, heads k → ∀ c ∈ ys, c ∉ k :: seq k)
include holds here path start stop distinct fresh

omit path distinct in
/-- The other rings share no node with the ring or the chain, so no tie changes them. -/
theorem insert_others {a b : α} (inA : a ∈ head :: seq head) (inB : b ∈ head :: seq head) :
    ∀ k, heads k → k ≠ head → ((l.tie a first).tie last b).Ring k (seq k) ∧
      ∀ c, c ∈ head :: seq head ∨ c ∈ ys → c ∉ k :: seq k := by
  intro k there other
  have apart := holds.apart head k here there (Ne.symm other)
  have clear := fresh k there
  have isFirst := clear first (List.mem_of_head? start)
  have isLast := clear last (List.mem_of_getLast? stop)
  refine ⟨((holds.ring k there).tie (apart a inA) isFirst).tie isLast (apart b inB), ?_⟩
  exact fun c inside => inside.elim (apart c) (clear c)

theorem insert {A B : List α} {a b : α} (gap : Gap head (seq head) A B a b) :
    ((l.tie a first).tie last b).Holds heads (Function.update seq head (A ++ ys ++ B)) := by
  have own := holds.nodup head here
  have away := fresh head here
  have split := gap.split
  apply holds.change ((holds.ring head here).insert gap path start stop (by grind)) (by grind)
  intro k there other
  obtain ⟨ring, clear⟩ :=
    insert_others holds here start stop fresh gap.mem.1 gap.mem.2 k there other
  exact ⟨ring, by grind⟩

end Insert

theorem remove (holds : l.Holds heads seq) (here : heads head) (member : y ∈ seq head) :
    (l.tie (l.prev y) (l.next y)).Holds heads fun h => (seq h).erase y := by
  have own := holds.nodup head here
  obtain ⟨isPrev, isNext⟩ := (holds.ring head here).links_mem member
  obtain ⟨front, back, split⟩ := List.append_of_mem member
  have erased : (seq head).erase y = front ++ back := by
    rw [split, List.erase_append_right _ (by grind), List.erase_cons_head]
  refine ⟨fun h there => ?_, fun h there => ?_, fun h k there too other c member back => ?_⟩
  · by_cases same : h = head
    · subst same
      have whole := holds.ring h here
      rw [split] at whole own
      rw [erased]
      exact whole.remove own
    · have apart := holds.apart h head there here same
      rw [List.erase_of_not_mem (by grind)]
      exact (holds.ring h there).tie (by grind) (by grind)
  · exact (holds.nodup h there).sublist (List.Sublist.cons_cons h List.erase_sublist)
  · have apart := holds.apart h k there too other c
    have inside : c ∈ h :: seq h := List.cons_subset_cons h List.erase_subset member
    exact apart inside (List.cons_subset_cons k List.erase_subset back)

theorem init (holds : l.Holds heads seq) (fresh : ∀ k, heads k → y ∉ k :: seq k) :
    (l.tie y y).Holds (fun h => heads h ∨ h = y) (Function.update seq y []) := by
  have kept : ∀ h, heads h → h ≠ y := by grind
  refine ⟨fun h there => ?_, fun h there => ?_, fun h k there too other => ?_⟩
  · rcases there with old | rfl
    · rw [Function.update_of_ne (kept h old)]
      exact (holds.ring h old).tie (fresh h old) (fresh h old)
    · rw [Function.update_self]
      exact tie_self_ring l h
  · rcases there with old | rfl
    · rw [Function.update_of_ne (kept h old)]
      exact holds.nodup h old
    · rw [Function.update_self]
      exact List.nodup_singleton h
  · rcases there with old | rfl <;> rcases too with old' | rfl
    · rw [Function.update_of_ne (kept h old), Function.update_of_ne (kept k old')]
      exact holds.apart h k old old' other
    · rw [Function.update_of_ne (kept h old), Function.update_self]
      grind
    · rw [Function.update_self, Function.update_of_ne (kept k old')]
      grind
    · exact absurd rfl other

theorem put (holds : l.Holds heads seq) (fresh : ∀ k, heads k → y ∉ k :: seq k)
    (before after : α) : (l.put y before after).Holds heads seq where
  ring h here := (holds.ring h here).put (fresh h here) before after
  nodup := holds.nodup
  apart := holds.apart

end Holds
end Links
end LinkedRings
