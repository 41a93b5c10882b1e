import Omen.Library.LinkedRings

/- `linked_list.h`: circular lists of nodes that stand in the memory they link. A node is two
   words, `prev` and `next`; two nodes eight bytes apart share one of them. The words of nodes
   that share none are seen as links. -/
namespace OmenMemory
open LinkedRings

abbrev Words := Nat → Nat

namespace Words

def prev (m : Words) (node : Nat) : Nat := m node

def next (m : Words) (node : Nat) : Nat := m (node + 8)

def setPrev (m : Words) (node value : Nat) : Words := Function.update m node value

def setNext (m : Words) (node value : Nat) : Words := Function.update m (node + 8) value

end Words

open Words

def listPoison1 : Nat := 0x00100100

def listPoison2 : Nat := 0x00200200

def initListHead (m : Words) (head : Nat) : Words := (m.setPrev head head).setNext head head

/-- `_list_add`, with its stores in the order of the source. -/
def listAddBetween (m : Words) (new before after : Nat) : Words :=
  (((m.setPrev after new).setNext new after).setPrev new before).setNext before new

def listAdd (m : Words) (new head : Nat) : Words := listAddBetween m new head (m.next head)

def listAddTail (m : Words) (new head : Nat) : Words := listAddBetween m new (m.prev head) head

def listDelBetween (m : Words) (before after : Nat) : Words :=
  (m.setPrev after before).setNext before after

def listDel (m : Words) (node : Nat) : Words :=
  ((listDelBetween m (m.prev node) (m.next node)).setPrev node listPoison1).setNext node
    listPoison2

def listDelInit (m : Words) (node : Nat) : Words :=
  initListHead (listDelBetween m (m.prev node) (m.next node)) node

def listMove (m : Words) (node head : Nat) : Words := listAdd (listDel m node) node head

def listMoveTail (m : Words) (node head : Nat) : Words := listAddTail (listDel m node) node head

def listEmpty (m : Words) (head : Nat) : Bool := m.next head == head

def listSpliceAll (m : Words) (list head : Nat) : Words :=
  let first := m.next list
  let last := m.prev list
  let after := m.next head
  (((m.setPrev first head).setNext head first).setNext last after).setPrev after last

def listSplice (m : Words) (list head : Nat) : Words :=
  if listEmpty m list then m else listSpliceAll m list head

def listSpliceTailAll (m : Words) (list head : Nat) : Words :=
  let first := m.next list
  let last := m.prev list
  let before := m.prev head
  (((m.setPrev first before).setNext before first).setNext last head).setPrev head last

def listSpliceTail (m : Words) (list head : Nat) : Words :=
  if listEmpty m list then m else listSpliceTailAll m list head

def listSpliceInit (m : Words) (list head : Nat) : Words :=
  if listEmpty m list then m else initListHead (listSpliceAll m list head) list

def listSpliceTailInit (m : Words) (list head : Nat) : Words :=
  if listEmpty m list then m else initListHead (listSpliceTailAll m list head) list

def listNodes (m : Words) (head : Nat) : Nat → Nat → Option (List Nat)
  | _, 0 => none
  | node, fuel + 1 =>
    if node = head then some []
    else (listNodes m head (m.next node) fuel).map (node :: ·)

def Linked (m : Words) (a : Nat) : List Nat → Nat → Prop
  | [], b => m.next a = b ∧ m.prev b = a
  | x :: nodes, b => (m.next a = x ∧ m.prev x = a) ∧ Linked m x nodes b

def Ring (m : Words) (head : Nat) (nodes : List Nat) : Prop := Linked m head nodes head

def Spaced (nodes : Nat → Prop) : Prop := ∀ a b, nodes a → nodes b → a ≠ b + 8

section Fields
variable {m : Words} {a b v : Nat}

theorem prev_setPrev : (m.setPrev a v).prev b = if b = a then v else m.prev b := by
  simp only [prev, setPrev, Function.update_apply]

theorem next_setNext : (m.setNext a v).next b = if b = a then v else m.next b := by
  simp only [next, setNext, Function.update_apply, Nat.add_right_cancel_iff]

theorem prev_setNext (apart : b ≠ a + 8) : (m.setNext a v).prev b = m.prev b :=
  Function.update_of_ne apart _ _

theorem next_setPrev (apart : a ≠ b + 8) : (m.setPrev a v).next b = m.next b :=
  Function.update_of_ne (Ne.symm apart) _ _

end Fields

def view (m : Words) : Links Nat := ⟨m.next, m.prev⟩

structure Shows (nodes : Nat → Prop) (m : Words) (l : Links Nat) : Prop where
  next : ∀ c, nodes c → m.next c = l.next c
  prev : ∀ c, nodes c → m.prev c = l.prev c

section Links
variable {m m' : Words} {nodes : Nat → Prop} {l : Links Nat} {a b node head : Nat} {xs : List Nat}

theorem linked_iff : Linked m a xs b ↔ (view m).Path (a :: (xs ++ [b])) := by
  induction xs generalizing a with
  | nil => exact (@List.isChain_pair _ (view m).Edge a b).symm
  | cons x xs ih =>
    rw [Linked, ih]
    exact (@List.isChain_cons_cons _ (view m).Edge a x (xs ++ [b])).symm

theorem ring_iff : Ring m head xs ↔ (view m).Ring head xs := linked_iff

theorem shows_view (nodes : Nat → Prop) (m : Words) : Shows nodes m (view m) :=
  ⟨fun _ _ => rfl, fun _ _ => rfl⟩

theorem Shows.ring (shows : Shows nodes m l) (ring : l.Ring head xs)
    (inside : ∀ c ∈ head :: xs, nodes c) : Ring m head xs :=
  ring_iff.mpr (ring.congr (fun c member => shows.next c (inside c member))
    (fun c member => shows.prev c (inside c member)))

section Stores
variable (shows : Shows nodes m l) (spaced : Spaced nodes)
include shows spaced

theorem Shows.tie (source : nodes a) (target : nodes b) :
    Shows nodes ((m.setPrev b a).setNext a b) (l.tie a b) where
  next c here := by
    rw [next_setNext, next_setPrev (spaced b c target here), shows.next c here]
    exact (Function.update_apply _ _ _ _).symm
  prev c here := by
    rw [prev_setNext (spaced c a here source), prev_setPrev, shows.prev c here]
    exact (Function.update_apply _ _ _ _).symm

theorem Shows.tie_back (source : nodes a) (target : nodes b) :
    Shows nodes ((m.setNext a b).setPrev b a) (l.tie a b) where
  next c here := by
    rw [next_setPrev (spaced b c target here), next_setNext, shows.next c here]
    exact (Function.update_apply _ _ _ _).symm
  prev c here := by
    rw [prev_setPrev, prev_setNext (spaced c a here source), shows.prev c here]
    exact (Function.update_apply _ _ _ _).symm

theorem Shows.put (isNode : nodes node) (before after : Nat) :
    Shows nodes ((m.setPrev node before).setNext node after) (l.put node before after) where
  next c here := by
    rw [next_setNext, next_setPrev (spaced node c isNode here), shows.next c here]
    exact (Function.update_apply _ _ _ _).symm
  prev c here := by
    rw [prev_setNext (spaced c node here isNode), prev_setPrev, shows.prev c here]
    exact (Function.update_apply _ _ _ _).symm

end Stores

section Operations
variable (m : Words) {list new before after : Nat} (spaced : Spaced nodes)
include spaced

theorem listAddBetween_shows (isNew : nodes new) (isBefore : nodes before)
    (isAfter : nodes after) :
    Shows nodes (listAddBetween m new before after) (((view m).tie new after).tie before new) :=
  ((shows_view nodes m).tie spaced isNew isAfter).tie spaced isBefore isNew

theorem splice_shows (isFirst : nodes (m.next list)) (isLast : nodes (m.prev list))
    (isBefore : nodes before) (isAfter : nodes after) :
    Shows nodes ((((m.setPrev (m.next list) before).setNext before (m.next list)).setNext
        (m.prev list) after).setPrev after (m.prev list))
      (((view m).tie before (m.next list)).tie (m.prev list) after) :=
  ((shows_view nodes m).tie spaced isBefore isFirst).tie_back spaced isLast isAfter

end Operations
end Links

section Rings
variable {m m' : Words} {nodes : Nat → Prop} {head y : Nat} {xs ys : List Nat}

theorem ring_initListHead (m : Words) (apart : head ≠ head + 8) :
    Ring (initListHead m head) head [] := by
  refine ⟨?_, ?_⟩
  · rw [initListHead, next_setNext, if_pos rfl]
  · rw [initListHead, prev_setNext apart, prev_setPrev, if_pos rfl]

theorem Ring.frame (ring : Ring m head xs) (nexts : ∀ c ∈ head :: xs, m'.next c = m.next c)
    (prevs : ∀ c ∈ head :: xs, m'.prev c = m.prev c) : Ring m' head xs :=
  ring_iff.mpr ((ring_iff.mp ring).congr nexts prevs)

theorem Ring.links_mem (ring : Ring m head xs) (member : y ∈ xs) :
    m.prev y ∈ head :: xs ∧ m.next y ∈ head :: xs :=
  (ring_iff.mp ring).links_mem member

theorem Ring.empty_iff (ring : Ring m head xs) (outside : head ∉ xs) :
    listEmpty m head = true ↔ xs = [] := by
  rw [listEmpty, beq_iff_eq]
  cases xs with
  | nil => exact iff_of_true ring.1 rfl
  | cons x xs =>
    rw [ring.1.1]
    refine iff_of_false ?_ (by simp)
    rintro rfl
    exact outside List.mem_cons_self

theorem Ring.first (ring : Ring m head (y :: xs)) : m.next head = y := ring.1.1

theorem Linked.listNodes {a : Nat} (linked : Linked m a xs head) (outside : head ∉ xs)
    {fuel : Nat} (enough : xs.length < fuel) : listNodes m head (m.next a) fuel = some xs := by
  induction xs generalizing a fuel with
  | nil =>
    obtain ⟨fuel, rfl⟩ : ∃ n, fuel = n + 1 := ⟨fuel - 1, by simp at enough; omega⟩
    rw [OmenMemory.listNodes, if_pos linked.1]
  | cons x xs ih =>
    obtain ⟨fuel, rfl⟩ : ∃ n, fuel = n + 1 := ⟨fuel - 1, by simp at enough; omega⟩
    obtain ⟨other, rest⟩ := not_or.mp (List.mem_cons.not.mp outside)
    rw [OmenMemory.listNodes, linked.1.1, if_neg (Ne.symm other),
      ih linked.2 rest (by simpa using enough)]
    rfl

end Rings

end OmenMemory
