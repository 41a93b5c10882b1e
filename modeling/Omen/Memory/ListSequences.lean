import Omen.Library.Runs
import Omen.Memory.LinkedList

/- The lists of `linked_list.h` as sequences of nodes: what each function does to the sequences
   of all the lists of a heap, whose nodes share no word. -/
namespace OmenMemory
open LinkedRings Words

structure Lists where
  heads : Nat → Prop
  seq : Nat → List Nat

/-- Each head starts a ring of its nodes, and no node is twice in the rings. -/
structure Sequences (nodes : Nat → Prop) (m : Words) (s : Lists) : Prop where
  inside : ∀ h, s.heads h → ∀ c ∈ h :: s.seq h, nodes c
  ring : ∀ h, s.heads h → Ring m h (s.seq h)
  nodup : ∀ h, s.heads h → (h :: s.seq h).Nodup
  apart : ∀ h k, s.heads h → s.heads k → h ≠ k → ∀ c ∈ h :: s.seq h, c ∉ k :: s.seq k

inductive ListCall where
  | add (new head : Nat)
  | addTail (new head : Nat)
  | del (node : Nat)
  | delInit (node : Nat)
  | move (node head : Nat)
  | moveTail (node head : Nat)
  | splice (list head : Nat)
  | spliceTail (list head : Nat)
  | spliceInit (list head : Nat)
  | spliceTailInit (list head : Nat)

def ListCall.perform (m : Words) : ListCall → Words
  | add new head => listAdd m new head
  | addTail new head => listAddTail m new head
  | del node => listDel m node
  | delInit node => listDelInit m node
  | move node head => listMove m node head
  | moveTail node head => listMoveTail m node head
  | splice list head => listSplice m list head
  | spliceTail list head => listSpliceTail m list head
  | spliceInit list head => listSpliceInit m list head
  | spliceTailInit list head => listSpliceTailInit m list head

namespace Lists

def change (s : Lists) (head : Nat) (xs : List Nat) : Lists :=
  { s with seq := Function.update s.seq head xs }

def dropHead (s : Lists) (node : Nat) : Lists := { s with heads := fun h => s.heads h ∧ h ≠ node }

def addHead (s : Lists) (node : Nat) : Lists :=
  { heads := fun h => s.heads h ∨ h = node, seq := Function.update s.seq node [] }

def delete (s : Lists) (node : Nat) : Lists := { s with seq := fun h => (s.seq h).erase node }

def push (s : Lists) (new head : Nat) : Lists := (s.dropHead new).change head (new :: s.seq head)

def append (s : Lists) (new head : Nat) : Lists :=
  (s.dropHead new).change head (s.seq head ++ [new])

/-- A head whose nodes have gone to another list, if there were any, starts no ring. -/
def spend (s : Lists) (list : Nat) : Lists :=
  { s with heads := fun h => s.heads h ∧ (h = list → s.seq list = []) }

end Lists

def ListCall.apply (s : Lists) : ListCall → Lists
  | add new head => s.push new head
  | addTail new head => s.append new head
  | del node => s.delete node
  | delInit node => (s.delete node).addHead node
  | move node head => (s.delete node).push node head
  | moveTail node head => (s.delete node).append node head
  | splice list head => (s.spend list).change head (s.seq list ++ s.seq head)
  | spliceTail list head => (s.spend list).change head (s.seq head ++ s.seq list)
  | spliceInit list head => (s.change head (s.seq list ++ s.seq head)).change list []
  | spliceTailInit list head => (s.change head (s.seq head ++ s.seq list)).change list []

/-- A node that can be added to the list: it is in none, and heads no nodes of its own. -/
structure Lists.Free (s : Lists) (new head : Nat) : Prop where
  other : new ≠ head
  away : ∀ h, s.heads h → new ∉ s.seq h
  empty : s.heads new → s.seq new = []

def ListCall.Allowed (nodes : Nat → Prop) (s : Lists) : ListCall → Prop
  | add new head | addTail new head => s.heads head ∧ nodes new ∧ s.Free new head
  | del node | delInit node => ∃ h, s.heads h ∧ node ∈ s.seq h
  | move node head | moveTail node head => s.heads head ∧ ∃ h, s.heads h ∧ node ∈ s.seq h
  | splice list head | spliceTail list head | spliceInit list head | spliceTailInit list head =>
    s.heads list ∧ s.heads head ∧ list ≠ head

namespace Sequences
variable {nodes : Nat → Prop} {m m' : Words} {s s' : Lists} {l : Links Nat}
  {new node head list : Nat}

theorem holds (q : Sequences nodes m s) : (view m).Holds s.heads s.seq :=
  ⟨fun h here => ring_iff.mp (q.ring h here), q.nodup, q.apart⟩

theorem of_holds (shows : Shows nodes m l) (holds : l.Holds s.heads s.seq)
    (inside : ∀ h, s.heads h → ∀ c ∈ h :: s.seq h, nodes c) : Sequences nodes m s :=
  ⟨inside, fun h here => shows.ring (holds.ring h here) (inside h here), holds.nodup, holds.apart⟩

theorem subset (q : Sequences nodes m s) (heads : ∀ h, s'.heads h → s.heads h)
    (seq : ∀ h, s'.heads h → s'.seq h = s.seq h) : Sequences nodes m s' where
  inside h here := by
    rw [seq h here]
    exact q.inside h (heads h here)
  ring h here := by
    rw [seq h here]
    exact q.ring h (heads h here)
  nodup h here := by
    rw [seq h here]
    exact q.nodup h (heads h here)
  apart h k here there other := by
    rw [seq h here, seq k there]
    exact q.apart h k (heads h here) (heads k there) other

theorem inside_change {xs : List Nat} (q : Sequences nodes m s) (more : ∀ c ∈ xs, nodes c) :
    ∀ h, (s.change head xs).heads h → ∀ c ∈ h :: (s.change head xs).seq h, nodes c := by
  intro h here c member
  have known := q.inside h here
  dsimp only [Lists.change] at member
  by_cases same : h = head
  · subst same
    rw [Function.update_self] at member
    grind
  · rw [Function.update_of_ne same] at member
    exact known c member

theorem dropHead (q : Sequences nodes m s) (node : Nat) : Sequences nodes m (s.dropHead node) :=
  q.subset (fun _ here => here.1) (fun _ _ => rfl)

theorem init (q : Sequences nodes m s) (spaced : Spaced nodes) (isNode : nodes node)
    (fresh : ∀ k, s.heads k → node ∉ k :: s.seq k) :
    Sequences nodes (initListHead m node) (s.addHead node) := by
  have shows := (shows_view nodes m).tie spaced isNode isNode
  refine of_holds shows (q.holds.init fresh) ?_
  rintro h (old | rfl) c member
  · have other : h ≠ node := fun same => fresh h old (same ▸ List.mem_cons_self)
    dsimp only [Lists.addHead] at member
    rw [Function.update_of_ne other] at member
    exact q.inside h old c member
  · dsimp only [Lists.addHead] at member
    rw [Function.update_self, List.mem_singleton] at member
    exact member ▸ isNode

section Delete
variable (q : Sequences nodes m s) {h : Nat} (here : s.heads h) (member : node ∈ s.seq h)
include q here member

theorem delete_fresh : ∀ k, (s.delete node).heads k → node ∉ k :: (s.delete node).seq k := by
  intro k there
  have own := q.nodup h here
  have sub : (s.seq k).erase node ⊆ s.seq k := List.erase_subset
  dsimp only [Lists.delete]
  by_cases same : k = h
  · subst same
    have gone : node ∉ (s.seq k).erase node :=
      (List.nodup_cons.mp own).2.not_mem_erase
    grind
  · have apart := q.apart h k here there (Ne.symm same) node (List.mem_cons_of_mem h member)
    grind

theorem unlink (spaced : Spaced nodes) :
    Sequences nodes (listDelBetween m (m.prev node) (m.next node)) (s.delete node) := by
  obtain ⟨isPrev, isNext⟩ := (q.ring h here).links_mem member
  have shows := (shows_view nodes m).tie spaced (q.inside h here _ isPrev)
    (q.inside h here _ isNext)
  refine of_holds shows (q.holds.remove here member) fun k there c inside => ?_
  exact q.inside k there c (List.cons_subset_cons k List.erase_subset inside)

theorem del (spaced : Spaced nodes) : Sequences nodes (listDel m node) (s.delete node) := by
  have fresh := q.delete_fresh here member
  have isNode := q.inside h here node (List.mem_cons_of_mem h member)
  have rest := q.unlink here member spaced
  exact of_holds ((shows_view nodes _).put spaced isNode _ _) (rest.holds.put fresh _ _) rest.inside

theorem delInit (spaced : Spaced nodes) :
    Sequences nodes (listDelInit m node) ((s.delete node).addHead node) :=
  (q.unlink here member spaced).init spaced
    (q.inside h here node (List.mem_cons_of_mem h member)) (q.delete_fresh here member)

theorem delete_free {head : Nat} (there : s.heads head) : (s.delete node).Free node head := by
  have fresh := q.delete_fresh here member
  refine ⟨?_, ?_, ?_⟩
  · rintro rfl
    exact fresh _ there List.mem_cons_self
  · exact fun k known inside => fresh k known (List.mem_cons_of_mem k inside)
  · exact fun known => absurd List.mem_cons_self (fresh node known)

end Delete

theorem free_fresh (free : s.Free new head) :
    ∀ k, (s.dropHead new).heads k → ∀ c ∈ [new], c ∉ k :: s.seq k := by
  have away := free.away
  grind [Lists.dropHead]

section Add
variable (q : Sequences nodes m s) (spaced : Spaced nodes) (here : s.heads head)
  (isNew : nodes new) (free : s.Free new head)
include q spaced here isNew free

theorem addBetween {A B : List Nat} {a b : Nat} (gap : Links.Gap head (s.seq head) A B a b) :
    Sequences nodes (listAddBetween m new a b)
      ((s.dropHead new).change head (A ++ [new] ++ B)) := by
  have stays : (s.dropHead new).heads head := ⟨here, Ne.symm free.other⟩
  have fresh := free_fresh free
  have known := q.inside head here
  obtain ⟨isBefore, isAfter⟩ := gap.mem
  have clear : new ∉ head :: s.seq head := fresh head stays new List.mem_cons_self
  have notBefore : new ≠ a := by grind
  have notAfter : b ≠ new := by grind
  have shows := listAddBetween_shows m spaced isNew (known a isBefore) (known b isAfter)
  rw [Links.tie_comm _ notBefore notAfter] at shows
  have held := (q.dropHead new).holds.insert stays (.singleton new) rfl rfl
    (List.nodup_singleton new) fresh gap
  refine of_holds shows held ((q.dropHead new).inside_change fun c member => ?_)
  have split := gap.split
  grind

theorem add : Sequences nodes (listAdd m new head) (s.push new head) :=
  q.addBetween spaced here isNew free (ring_iff.mp (q.ring head here)).front

theorem addTail : Sequences nodes (listAddTail m new head) (s.append new head) := by
  have added := q.addBetween spaced here isNew free (ring_iff.mp (q.ring head here)).back
  rwa [List.append_nil] at added

end Add

section Splice
variable (q : Sequences nodes m s) (spaced : Spaced nodes) (source : s.heads list)
  (here : s.heads head) (other : list ≠ head)
include q source

theorem empty_iff : listEmpty m list = true ↔ s.seq list = [] :=
  (q.ring list source).empty_iff (List.nodup_cons.mp (q.nodup list source)).1

theorem source_fresh :
    ∀ k, (s.dropHead list).heads k → ∀ c ∈ list :: s.seq list, c ∉ k :: s.seq k :=
  fun k there => q.apart list k source there.1 (Ne.symm there.2)

include spaced here other

theorem spliceBetween (more : s.seq list ≠ []) {A B : List Nat} {a b : Nat}
    (gap : Links.Gap head (s.seq head) A B a b) :
    Sequences nodes ((((m.setPrev (m.next list) a).setNext a (m.next list)).setNext
        (m.prev list) b).setPrev b (m.prev list))
      ((s.dropHead list).change head (A ++ s.seq list ++ B)) := by
  have less := q.dropHead list
  obtain ⟨path, start, stop⟩ := Links.Ring.inner (ring_iff.mp (q.ring list source)) more
  have known := q.inside list source
  have old := q.inside head here
  have shows := splice_shows m spaced
    (known _ (List.mem_cons_of_mem list (List.mem_of_head? start)))
    (known _ (List.mem_cons_of_mem list (List.mem_of_getLast? stop)))
    (old a gap.mem.1) (old b gap.mem.2)
  have held := less.holds.insert ⟨here, Ne.symm other⟩ path start stop
    (List.nodup_cons.mp (q.nodup list source)).2
    (fun k there c member => q.source_fresh source k there c (List.mem_cons_of_mem list member)) gap
  refine of_holds shows held (less.inside_change fun c member => ?_)
  have split := gap.split
  grind

theorem spliceAll (more : s.seq list ≠ []) : Sequences nodes (listSpliceAll m list head)
    ((s.dropHead list).change head (s.seq list ++ s.seq head)) :=
  q.spliceBetween spaced source here other more (ring_iff.mp (q.ring head here)).front

theorem spliceTailAll (more : s.seq list ≠ []) : Sequences nodes (listSpliceTailAll m list head)
    ((s.dropHead list).change head (s.seq head ++ s.seq list)) := by
  have ring := ring_iff.mp (q.ring head here)
  have spliced := q.spliceBetween spaced source here other more ring.back
  rwa [List.append_nil] at spliced

end Splice

/- Either end: `joined` is the list that comes out, `after` the memory when there was something to
   be moved. -/
section Both
variable (q : Sequences nodes m s) (source : s.heads list) {joined : List Nat} {after : Words}
  (spliced : s.seq list ≠ [] → Sequences nodes after ((s.dropHead list).change head joined))
  (same : s.seq list = [] → joined = s.seq head)
include q source spliced same

theorem spend : Sequences nodes (if listEmpty m list then m else after)
    ((s.spend list).change head joined) := by
  by_cases none_there : s.seq list = []
  · rw [if_pos ((q.empty_iff source).mpr none_there)]
    refine q.subset (fun h known => known.1) fun h known => ?_
    dsimp only [Lists.change, Lists.spend]
    rw [same none_there, Function.update_eq_self]
  · rw [if_neg (by rwa [q.empty_iff source])]
    refine (spliced none_there).subset (fun h known => ?_) (fun _ _ => rfl)
    exact ⟨known.1, fun at_list => none_there (known.2 at_list)⟩

theorem spend_init (spaced : Spaced nodes)
    (parts : ∀ c ∈ joined, c ∈ s.seq list ∨ c ∈ s.seq head) (here : s.heads head)
    (other : list ≠ head) :
    Sequences nodes (if listEmpty m list then m else initListHead after list)
      ((s.change head joined).change list []) := by
  by_cases none_there : s.seq list = []
  · rw [if_pos ((q.empty_iff source).mpr none_there)]
    refine q.subset (fun h known => known) fun h known => ?_
    dsimp only [Lists.change]
    rw [same none_there, Function.update_eq_self, ← none_there, Function.update_eq_self]
  · rw [if_neg (by rwa [q.empty_iff source])]
    have own := q.nodup list source
    have apart := q.apart list head source here other list List.mem_cons_self
    have fresh : ∀ k, ((s.dropHead list).change head joined).heads k →
        list ∉ k :: ((s.dropHead list).change head joined).seq k := by
      intro k there
      have away := q.source_fresh source k there list List.mem_cons_self
      dsimp only [Lists.change, Lists.dropHead]
      by_cases at_head : k = head
      · subst at_head
        rw [Function.update_self]
        have := parts list
        grind
      · rwa [Function.update_of_ne at_head]
    have started := (spliced none_there).init spaced
      (q.inside list source list List.mem_cons_self) fresh
    refine started.subset (fun h known => ?_) (fun _ _ => rfl)
    by_cases at_list : h = list
    · exact .inr at_list
    · exact .inl ⟨known, at_list⟩

end Both

/-- Each function does to the sequences what it is for. -/
theorem step (q : Sequences nodes m s) (spaced : Spaced nodes) (call : ListCall)
    (allowed : call.Allowed nodes s) : Sequences nodes (call.perform m) (call.apply s) := by
  cases call with
  | add new head => exact q.add spaced allowed.1 allowed.2.1 allowed.2.2
  | addTail new head => exact q.addTail spaced allowed.1 allowed.2.1 allowed.2.2
  | del node =>
    obtain ⟨h, here, member⟩ := allowed
    exact q.del here member spaced
  | delInit node =>
    obtain ⟨h, here, member⟩ := allowed
    exact q.delInit here member spaced
  | move node head =>
    obtain ⟨there, h, here, member⟩ := allowed
    exact (q.del here member spaced).add spaced there
      (q.inside h here node (List.mem_cons_of_mem h member)) (q.delete_free here member there)
  | moveTail node head =>
    obtain ⟨there, h, here, member⟩ := allowed
    exact (q.del here member spaced).addTail spaced there
      (q.inside h here node (List.mem_cons_of_mem h member)) (q.delete_free here member there)
  | splice list head =>
    obtain ⟨source, here, other⟩ := allowed
    exact q.spend source (q.spliceAll spaced source here other) (by grind)
  | spliceTail list head =>
    obtain ⟨source, here, other⟩ := allowed
    exact q.spend source (q.spliceTailAll spaced source here other) (by grind)
  | spliceInit list head =>
    obtain ⟨source, here, other⟩ := allowed
    exact q.spend_init source (q.spliceAll spaced source here other) (by grind) spaced
      (by grind) here other
  | spliceTailInit list head =>
    obtain ⟨source, here, other⟩ := allowed
    exact q.spend_init source (q.spliceTailAll spaced source here other) (by grind) spaced
      (by grind) here other

end Sequences

/-- The functions of the header that change lists, one or any number of them: all lists stay well
    formed and hold the sequences that the calls stand for. A list whose nodes were spliced away
    without an init is given up. -/
theorem list_calls_sequences (nodes : Nat → Prop) (spaced : Spaced nodes) (m : Words) (s : Lists)
    (q : Sequences nodes m s) (calls : List ListCall)
    (allowed : Runs.Each ListCall.apply (ListCall.Allowed nodes) s calls) :
    Sequences nodes (calls.foldl ListCall.perform m) (calls.foldl ListCall.apply s) := by
  induction calls generalizing m s with
  | nil => exact q
  | cons call calls ih => exact ih _ _ (q.step spaced call allowed.1) allowed.2

def twoLists : Lists := ⟨fun h => h = 16 ∨ h = 48, fun h => if h = 16 then [32] else []⟩

def twoRings : Words := listAdd (initListHead (initListHead (fun _ => 0) 16) 48) 32 16

theorem twoRings_sequences : Sequences (· % 16 = 0) twoRings twoLists where
  inside h here := by rcases here with rfl | rfl <;> decide
  ring h here := by
    rcases here with rfl | rfl
    · exact ⟨⟨rfl, rfl⟩, rfl, rfl⟩
    · exact ⟨rfl, rfl⟩
  nodup h here := by rcases here with rfl | rfl <;> decide
  apart h k here there other := by
    rcases here with rfl | rfl <;> rcases there with rfl | rfl
    · exact absurd rfl other
    · decide
    · decide
    · exact absurd rfl other

/-- The node goes to the other list, and back with all that is there. -/
theorem list_calls_sequences_back :
    Sequences (· % 16 = 0) (listSpliceInit (listMove twoRings 32 48) 48 16)
      ((ListCall.spliceInit 48 16).apply ((ListCall.move 32 48).apply twoLists)) :=
  list_calls_sequences _ (fun a b here there => by omega) _ _ twoRings_sequences
    [.move 32 48, .spliceInit 48 16]
    ⟨⟨.inr rfl, 16, .inl rfl, by decide⟩, ⟨⟨.inr rfl, by decide⟩, ⟨.inl rfl, by decide⟩, by decide⟩,
      trivial⟩

end OmenMemory
