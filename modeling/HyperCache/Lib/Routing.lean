/-
Calls that are routed to components.

A system of components of one kind passes every call it makes on to one of them, and
the order of the calls is that of the system. A component is always in the state that
its own calls lead to, whatever the others were asked in between.
-/
import HyperCache.Lib.Pointwise

namespace Routing

open Pointwise

variable {ι σ α : Type} [DecidableEq ι]

/-- The calls of one component, in order. -/
def own (i : ι) (calls : List (ι × α)) : List α :=
  (calls.filter (fun call => call.1 = i)).map Prod.snd

theorem own_append (i : ι) (calls calls' : List (ι × α)) :
    own i (calls ++ calls') = own i calls ++ own i calls' := by
  rw [own, List.filter_append, List.map_append]
  rfl

def route (step : σ → α → σ) (w : ι → σ) (calls : List (ι × α)) : ι → σ :=
  calls.foldl (fun w call => modify w call.1 (fun s => step s call.2)) w

theorem route_apply (step : σ → α → σ) (w : ι → σ) (calls : List (ι × α)) (i : ι) :
    route step w calls i = (own i calls).foldl step (w i) := by
  induction calls generalizing w with
  | nil => rfl
  | cons call rest ih =>
      show route step (modify w call.1 _) rest i = _
      rw [ih, modify_apply]
      by_cases hi : i = call.1
      · subst hi
        rw [if_pos rfl, own, own, List.filter_cons_of_pos (by simp)]
        rfl
      · rw [if_neg hi, own, own, List.filter_cons_of_neg (by simpa using Ne.symm hi)]

end Routing
