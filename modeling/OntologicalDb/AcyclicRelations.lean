import Mathlib.Data.Set.Finite.Basic
import Mathlib.Logic.Relation
import Mathlib.Order.WellFounded
import Mathlib.Order.WellFoundedSet

/-!
Acyclic relations.  A point from which every chain ends lies on no cycle, and
above every point of a finite acyclic relation there is a point with nothing
above it.
-/

namespace OntologicalDb.AcyclicRelations

universe u

variable {V : Type u} {r : V → V → Prop}

/-- Every chain that starts at the point ends. -/
def Ends (r : V → V → Prop) (x : V) : Prop := Acc (fun b a => r a b) x

theorem Ends.of_next {x : V} (h : ∀ y, r x y → Ends r y) : Ends r x :=
  Acc.intro x h

theorem Ends.reaches {x y : V} (h : Ends r x) (hxy : Relation.ReflTransGen r x y) :
    Ends r y := by
  induction hxy with
  | refl => exact h
  | tail _ hstep ih => exact Acc.inv ih hstep

theorem Ends.not_cycle {x : V} (h : Ends r x) : ¬ Relation.TransGen r x x := by
  induction h with
  | intro x _ ih =>
      intro hcycle
      obtain ⟨y, hxy, hyx⟩ := Relation.TransGen.head'_iff.mp hcycle
      exact ih y hxy (Relation.TransGen.tail' hyx hxy)

/-- Above a point of a finite acyclic relation there is one with nothing above. -/
theorem exists_source {xs : List V} (hup : ∀ x ∈ xs, ∀ p, r p x → p ∈ xs)
    (hacyclic : ∀ x ∈ xs, ¬ Relation.TransGen r x x) {x : V} (hx : x ∈ xs) :
    ∃ s ∈ xs, (∀ p, ¬ r p s) ∧ Relation.ReflTransGen r s x := by
  let above : {y // y ∈ xs} → {y // y ∈ xs} → Prop :=
    fun a b => Relation.TransGen r a.val b.val
  have : IsTrans _ above := ⟨fun _ _ _ hab hbc => hab.trans hbc⟩
  have : Std.Irrefl above := ⟨fun a => hacyclic a.val a.property⟩
  have : Finite {y // y ∈ xs} := List.finite_toSet xs
  have hwf : WellFounded above := Finite.wellFounded_of_trans_of_irrefl above
  have hall : ∀ y : {y // y ∈ xs},
      ∃ s ∈ xs, (∀ p, ¬ r p s) ∧ Relation.ReflTransGen r s y.val := by
    intro y
    induction y using hwf.induction with
    | _ y ih =>
        rcases Classical.em (∃ p, r p y.val) with ⟨p, hp⟩ | hnone
        · have hpmem := hup y.val y.property p hp
          obtain ⟨s, hs, hsource, hreach⟩ := ih ⟨p, hpmem⟩ (.single hp)
          exact ⟨s, hs, hsource, hreach.tail hp⟩
        · exact ⟨y.val, y.property, fun p hp => hnone ⟨p, hp⟩, .refl⟩
  exact hall ⟨x, hx⟩

end OntologicalDb.AcyclicRelations
