/-
Asking one place after the other until one answers.

An error either lets the walk go on or ends it.  When the places run out, what is left of
all their errors is the last one.
-/
import Mathlib.Data.List.Basic

namespace Failover

variable {ι ε α : Type}

inductive Result (ε α : Type) where
  | answered (a : α)
  | refused (e : ε)
  | exhausted (last : Option ε)

variable (goesOn : ε → Bool) (send : ι → Except ε α)

def walk : Option ε → List ι → Result ε α
  | last, [] => .exhausted last
  | _, i :: rest =>
      match send i with
      | .ok a => .answered a
      | .error e => if goesOn e then walk (some e) rest else .refused e

/-- The places a walk asks. -/
def tried : List ι → List ι
  | [] => []
  | i :: rest =>
      match send i with
      | .ok _ => [i]
      | .error e => if goesOn e then i :: tried rest else [i]

/-- How a walk ends whose last place gives this outcome. -/
def conclude : Except ε α → Result ε α
  | .ok a => .answered a
  | .error e => if goesOn e then .exhausted (some e) else .refused e

variable {goesOn send}

/-- The last place asked decides. -/
theorem walk_eq_conclude {is : List ι} (h : is ≠ []) (last : Option ε) :
    ∃ i, (tried goesOn send is).getLast? = some i ∧
      walk goesOn send last is = conclude goesOn (send i) := by
  induction is generalizing last with
  | nil => exact absurd rfl h
  | cons i rest ih =>
      rw [tried, walk]
      cases hsend : send i with
      | ok a => exact ⟨i, rfl, by rw [hsend, conclude]⟩
      | error e =>
          by_cases he : goesOn e = true
          · simp only [if_pos he]
            by_cases hrest : rest = []
            · subst hrest
              exact ⟨i, rfl, by rw [hsend, conclude, if_pos he, walk]⟩
            · obtain ⟨j, hj, hwalk⟩ := ih hrest (some e)
              refine ⟨j, ?_, hwalk⟩
              rw [List.getLast?_cons, hj]
              rfl
          · simp only [if_neg he]
            exact ⟨i, rfl, by rw [hsend, conclude, if_neg he]⟩

/-- Where every error lets the walk go on, it ends with an answer as soon as there is one. -/
theorem walk_answered_iff {is : List ι}
    (h : ∀ i ∈ is, ∀ e, send i = .error e → goesOn e = true) (last : Option ε) :
    (∃ a, walk goesOn send last is = .answered a) ↔ ∃ i ∈ is, ∃ a, send i = .ok a := by
  induction is generalizing last with
  | nil => simp [walk]
  | cons i rest ih =>
      rw [walk]
      cases hsend : send i with
      | ok a => exact iff_of_true ⟨a, rfl⟩ ⟨i, List.mem_cons_self, a, hsend⟩
      | error e =>
          have hrest := ih (fun j hj => h j (List.mem_cons_of_mem i hj)) (some e)
          simp only [if_pos (h i List.mem_cons_self e hsend), hrest]
          constructor
          · rintro ⟨j, hj, a, ha⟩
            exact ⟨j, List.mem_cons_of_mem i hj, a, ha⟩
          · rintro ⟨j, hj, a, ha⟩
            rcases List.mem_cons.1 hj with rfl | hj
            · rw [hsend] at ha
              cases ha
            · exact ⟨j, hj, a, ha⟩

end Failover
