import Mathlib.Data.List.Infix
import Mathlib.Data.List.Perm.Basic

/- The subscribers of a terminal, from `tty.c`: a list of nodes behind a first one that stands
   for no subscriber and has the handler 0. -/
namespace OmenTerminal.Subscribers

abbrev Handler := UInt64

/-- The handlers behind the first node; nothing while the first node does not exist. -/
structure Terminal where
  valid : Bool
  subscribers : Option (List Handler)

def initSubscribers : Terminal := ⟨true, some []⟩

def ttyAddSubscriber (tty : Terminal) (handler : Handler) : Terminal :=
  if !tty.valid then tty
  else match tty.subscribers with
    | none => tty
    | some nodes => { tty with subscribers := some (nodes ++ [handler]) }

/-- The walk of `_tty_remove_subscriber` at a node, with the nodes behind it: the node whose
    handler fits stays, and the next one goes. -/
def removeBehind (handler : Handler) : Handler → List Handler → List Handler
  | _, [] => []
  | subscriber, next :: rest =>
    if subscriber = handler then rest else next :: removeBehind handler next rest

def ttyRemoveSubscriber (tty : Terminal) (handler : Handler) : Terminal :=
  if !tty.valid then tty
  else match tty.subscribers with
    | none => tty
    | some nodes => { tty with subscribers := some (removeBehind handler 0 nodes) }

def ttyRunSubscribers (tty : Terminal) : List Handler :=
  if !tty.valid then [] else tty.subscribers.getD []

inductive Call where
  | add (handler : Handler)
  | remove (handler : Handler)

def Terminal.after (tty : Terminal) : Call → Terminal
  | .add handler => ttyAddSubscriber tty handler
  | .remove handler => ttyRemoveSubscriber tty handler

def afterCalls (calls : List Call) : Terminal := calls.foldl Terminal.after initSubscribers

def Effect (handlers : List Handler) : Call → List Handler → Prop
  | .add handler, handlers' => handlers' = handlers ++ [handler]
  | .remove handler, handlers' =>
    (∃ front back, handlers = front ++ handler :: back ∧ handlers' = front ++ back) ∨
      handler ∉ handlers ∧ handlers' = handlers

/-- What calls make of the handlers, for one choice of the adds that the removes cancel. -/
def Amounts : List Handler → List Call → List Handler → Prop
  | handlers, [], handlers' => handlers' = handlers
  | handlers, call :: rest, handlers' =>
    ∃ next, Effect handlers call next ∧ Amounts next rest handlers'

/-- The handlers added and not since removed. -/
def Subscribed (calls : List Call) (handlers : List Handler) : Prop := Amounts [] calls handlers

/-- There is no subscriber, or none with this handler, or another one with the same handler
    right behind the first. The node that stands for no subscriber counts as one with handler 0. -/
def Spared (handler subscriber : Handler) (nodes : List Handler) : Prop :=
  nodes = [] ∨ handler ∉ subscriber :: nodes ∨
    ∃ front back, subscriber :: nodes = front ++ handler :: handler :: back ∧ handler ∉ front

def Call.Sound (handlers : List Handler) : Call → Prop
  | .add _ => True
  | .remove handler => Spared handler 0 handlers

def SoundFrom : Terminal → List Call → Prop
  | _, [] => True
  | tty, call :: rest => call.Sound (ttyRunSubscribers tty) ∧ SoundFrom (tty.after call) rest

def CallsSound (calls : List Call) : Prop := SoundFrom initSubscribers calls

section Removal
variable {handler subscriber : Handler} {nodes : List Handler}

theorem removeBehind_absent (absent : handler ∉ subscriber :: nodes) :
    removeBehind handler subscriber nodes = nodes := by
  induction nodes generalizing subscriber with
  | nil => rfl
  | cons next rest ih =>
    rw [List.mem_cons, not_or] at absent
    rw [removeBehind, if_neg (Ne.symm absent.1), ih absent.2]

theorem removeBehind_twice {front back : List Handler} (before : handler ∉ subscriber :: front) :
    removeBehind handler subscriber (front ++ handler :: handler :: back) =
      front ++ handler :: back := by
  induction front generalizing subscriber with
  | nil =>
    rw [List.mem_singleton] at before
    simp [removeBehind, Ne.symm before]
  | cons next front ih =>
    rw [List.mem_cons, not_or] at before
    rw [List.cons_append, removeBehind, if_neg (Ne.symm before.1), ih before.2, List.cons_append]

theorem Spared.effect (spared : Spared handler subscriber nodes) :
    Effect nodes (.remove handler) (removeBehind handler subscriber nodes) := by
  rcases spared with rfl | absent | ⟨front, back, split, before⟩
  · exact Or.inr ⟨List.not_mem_nil, rfl⟩
  · exact Or.inr ⟨fun member => absent (List.mem_cons_of_mem _ member), removeBehind_absent absent⟩
  · left
    cases front with
    | nil =>
      obtain ⟨rfl, rfl⟩ := List.cons.inj split
      exact ⟨[], back, rfl, by simp [removeBehind]⟩
    | cons first front =>
      obtain ⟨rfl, rfl⟩ := List.cons.inj split
      exact ⟨front, handler :: back, rfl, removeBehind_twice before⟩

theorem Spared.of_perm (same : (removeBehind handler subscriber nodes).Perm (nodes.erase handler)) :
    Spared handler subscriber nodes := by
  induction nodes generalizing subscriber with
  | nil => exact Or.inl rfl
  | cons next rest ih =>
    by_cases fits : subscriber = handler
    · rw [removeBehind, if_pos fits] at same
      -- the next node went, so it is the one with the handler
      have again : next = handler := by
        by_contra other
        have counts := same.count_eq next
        rw [List.count_erase_of_ne other, List.count_cons_self] at counts
        omega
      exact Or.inr (Or.inr ⟨[], rest, by simp [fits, again], List.not_mem_nil⟩)
    · rw [removeBehind, if_neg fits] at same
      by_cases found : next = handler
      · subst found
        rw [List.erase_cons_head] at same
        cases rest with
        | nil => simp at same
        | cons second rest =>
          rw [removeBehind, if_pos rfl] at same
          have counts := same.count_eq next
          simp only [List.count_cons_self, List.count_cons, beq_iff_eq] at counts
          split at counts
          · next again =>
            subst again
            exact Or.inr (Or.inr ⟨[subscriber], rest, rfl, by simpa using Ne.symm fits⟩)
          · omega
      · rw [List.erase_cons_tail (by simpa using found), List.perm_cons] at same
        rcases ih same with rfl | absent | ⟨front, back, split, before⟩
        · exact Or.inr (Or.inl (by simp [Ne.symm fits, Ne.symm found]))
        · exact Or.inr (Or.inl (List.not_mem_cons_of_ne_of_not_mem (Ne.symm fits) absent))
        · exact Or.inr (Or.inr ⟨subscriber :: front, back, by rw [split, List.cons_append],
            List.not_mem_cons_of_ne_of_not_mem (Ne.symm fits) before⟩)

end Removal

section Runs
variable {call : Call} {calls : List Call} {handlers one two : List Handler}

theorem afterCalls_snoc (calls : List Call) (call : Call) :
    afterCalls (calls ++ [call]) = (afterCalls calls).after call := by
  rw [afterCalls, List.foldl_append]
  rfl

theorem afterCalls_form (calls : List Call) :
    afterCalls calls = ⟨true, some (ttyRunSubscribers (afterCalls calls))⟩ := by
  induction calls using List.reverseRecOn with
  | nil => rfl
  | append_singleton calls call ih =>
    rw [afterCalls_snoc, ih]
    cases call <;> rfl

theorem run_add (calls : List Call) (handler : Handler) :
    ttyRunSubscribers (afterCalls (calls ++ [.add handler])) =
      ttyRunSubscribers (afterCalls calls) ++ [handler] := by
  rw [afterCalls_snoc, afterCalls_form calls]
  rfl

theorem run_remove (calls : List Call) (handler : Handler) :
    ttyRunSubscribers (afterCalls (calls ++ [.remove handler])) =
      removeBehind handler 0 (ttyRunSubscribers (afterCalls calls)) := by
  rw [afterCalls_snoc, afterCalls_form calls]
  rfl

theorem amounts_snoc : Amounts handlers (calls ++ [call]) two ↔
    ∃ one, Amounts handlers calls one ∧ Effect one call two := by
  induction calls generalizing handlers with
  | nil => simp [Amounts]
  | cons first calls ih =>
    simp only [List.cons_append, Amounts, ih]
    constructor
    · rintro ⟨next, effect, one, rest, last⟩
      exact ⟨one, ⟨next, effect, rest⟩, last⟩
    · rintro ⟨one, ⟨next, effect, rest⟩, last⟩
      exact ⟨next, effect, one, rest, last⟩

theorem soundFrom_snoc {tty : Terminal} : SoundFrom tty (calls ++ [call]) ↔
    SoundFrom tty calls ∧ call.Sound (ttyRunSubscribers (calls.foldl Terminal.after tty)) := by
  induction calls generalizing tty with
  | nil => simp [SoundFrom]
  | cons first calls ih =>
    rw [List.cons_append, SoundFrom, SoundFrom, ih, List.foldl_cons, and_assoc]

theorem callsSound_snoc : CallsSound (calls ++ [call]) ↔
    CallsSound calls ∧ call.Sound (ttyRunSubscribers (afterCalls calls)) := soundFrom_snoc

theorem Effect.perm_erase {handler : Handler} (effect : Effect one (.remove handler) two) :
    two.Perm (one.erase handler) := by
  rcases effect with ⟨front, back, rfl, rfl⟩ | ⟨absent, rfl⟩
  · have moved : (front ++ handler :: back).Perm (handler :: (front ++ back)) := List.perm_middle
    simpa using (moved.erase handler).symm
  · rw [List.erase_of_not_mem absent]

/-- Whichever adds the removes cancel, the handlers are the same but for their order. -/
theorem Subscribed.perm (first : Subscribed calls one) (second : Subscribed calls two) :
    one.Perm two := by
  induction calls using List.reverseRecOn generalizing one two with
  | nil => exact (show one = [] from first) ▸ (show two = [] from second) ▸ List.Perm.refl _
  | append_singleton calls call ih =>
    obtain ⟨one', before, effect⟩ := amounts_snoc.mp first
    obtain ⟨two', before', effect'⟩ := amounts_snoc.mp second
    have same := ih before before'
    cases call with
    | add handler =>
      rw [show one = one' ++ [handler] from effect, show two = two' ++ [handler] from effect']
      exact same.append_right _
    | remove handler =>
      exact effect.perm_erase.trans ((same.erase handler).trans effect'.perm_erase.symm)

theorem step_iff (before : Subscribed calls (ttyRunSubscribers (afterCalls calls))) :
    Subscribed (calls ++ [call]) (ttyRunSubscribers (afterCalls (calls ++ [call]))) ↔
      call.Sound (ttyRunSubscribers (afterCalls calls)) := by
  cases call with
  | add handler => exact iff_of_true (amounts_snoc.mpr ⟨_, before, run_add calls handler⟩) trivial
  | remove handler =>
    rw [run_remove]
    constructor
    · intro after
      obtain ⟨handlers, subscribed, effect⟩ := amounts_snoc.mp after
      have same := Subscribed.perm subscribed before
      exact Spared.of_perm (effect.perm_erase.trans (same.erase handler))
    · exact fun spared => amounts_snoc.mpr ⟨_, before, Spared.effect spared⟩

/-- In a sequence of calls on a new terminal the handlers run are at every time those added and
    not since removed just when each remove is of a handler without a subscriber, or of one
    whose first subscriber has another of the same handler right behind it. -/
theorem subscribers_exact_iff (calls : List Call) :
    (∀ past, past <+: calls → Subscribed past (ttyRunSubscribers (afterCalls past))) ↔
      CallsSound calls := by
  induction calls using List.reverseRecOn with
  | nil =>
    simp [CallsSound, SoundFrom, Subscribed, Amounts, afterCalls, initSubscribers,
      ttyRunSubscribers]
  | append_singleton calls call ih =>
    simp only [List.prefix_concat_iff, forall_eq_or_imp, ih]
    rw [and_comm, callsSound_snoc]
    refine and_congr_right (fun sound => ?_)
    exact step_iff (ih.mpr sound calls List.prefix_rfl)

/-- Removing the only subscriber leaves it, removing the first of two removes the second. -/
theorem remove_misses :
    ttyRunSubscribers (afterCalls [.add 1, .remove 1]) = [1] ∧
      ttyRunSubscribers (afterCalls [.add 1, .add 2, .remove 1]) = [1] ∧
      ¬ Subscribed [.add 1, .remove 1] [1] := by
  refine ⟨by decide, by decide, ?_⟩
  rintro ⟨_, rfl, handlers, effect, rfl⟩
  simpa using effect.perm_erase

end Runs

end OmenTerminal.Subscribers
