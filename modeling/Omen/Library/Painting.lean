import Mathlib.Data.List.Basic

/- Stores to separate cells, one after the other: what a cell holds once a loop has gone over a
   list of cells and given each of them its own value. -/
namespace Painting

variable {σ ι V : Type*} [DecidableEq ι]

structure Cells (σ ι V : Type*) [DecidableEq ι] where
  get : σ → ι → V
  put : σ → ι → V → σ
  inside : ι → Prop
  get_put : ∀ m p q v, inside p → inside q → get (put m p v) q = if q = p then v else get m q

variable (c : Cells σ ι V)

def paint (value : ι → V) (ps : List ι) (m : σ) : σ := ps.foldl (fun m p => c.put m p (value p)) m

variable {c} {value : ι → V} {ps : List ι} {m : σ} {q : ι}

theorem get_paint (inside : ∀ p ∈ ps, c.inside p) (here : c.inside q) :
    c.get (paint c value ps m) q = if q ∈ ps then value q else c.get m q := by
  induction ps generalizing m with
  | nil => simp [paint]
  | cons p ps ih =>
    obtain ⟨first, later⟩ := List.forall_mem_cons.mp inside
    have step := ih (m := c.put m p (value p)) later
    rw [paint, List.foldl_cons, ← paint, step, c.get_put m p q _ first here]
    by_cases again : q ∈ ps
    · simp [again]
    · by_cases same : q = p
      · simp [same]
      · simp [again, same]

theorem paint_keeps {P : σ → Prop} (keeps : ∀ m p v, p ∈ ps → P m → P (c.put m p v)) (start : P m) :
    P (paint c value ps m) := by
  induction ps generalizing m with
  | nil => exact start
  | cons p ps ih =>
    exact ih (fun m p v member => keeps m p v (List.mem_cons_of_mem _ member))
      (keeps m p _ List.mem_cons_self start)

end Painting
