import OntologicalDb.Sql

/-!
The rows of a `FROM` list: entry by entry, and what every row keeps of them.
-/

namespace OntologicalDb.FromRows

open OntologicalDb.RowDocuments
open OntologicalDb.Sql
open OntologicalDb.Values

section Extend

variable {env : Env} {it : FromItem} {s s' : Scope}

theorem mem_candidates :
    s' ∈ it.candidates env s ↔
      (∃ x ∈ it.rel.rows env s, s' = Function.update s it.name x) ∧ Satisfies env s' it.on := by
  simp only [FromItem.candidates, List.mem_filter, List.mem_map, List.all_eq_true,
    decide_eq_true_eq, Satisfies]
  refine and_congr_left fun _ => ?_
  exact ⟨fun ⟨x, hx, h⟩ => ⟨x, hx, h.symm⟩, fun ⟨x, hx, h⟩ => ⟨x, hx, h.symm⟩⟩

theorem mem_extend :
    s' ∈ it.extend env s ↔
      s' ∈ it.candidates env s ∨
        it.join = .left ∧ it.candidates env s = [] ∧
          s' = Function.update s it.name nullTuple := by
  unfold FromItem.extend
  dsimp only
  split
  · next h => simp [h.1, h.2]
  · next h => simpa using fun hleft hnone => absurd ⟨hleft, hnone⟩ h

end Extend

section ExtendAll

variable {env : Env} {items : List FromItem} {it : FromItem} {s : Scope}

@[simp] theorem extendAll_nil : extendAll env [] s = [s] := rfl

theorem extendAll_cons :
    extendAll env (it :: items) s = (it.extend env s).flatMap (extendAll env items) := rfl

end ExtendAll

end OntologicalDb.FromRows
