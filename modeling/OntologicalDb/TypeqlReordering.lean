import Mathlib
import OntologicalDb.TypeqlGroups

/-!
Patterns that share no variable may change places: the query is accepted as before, and answers
with the same rows up to their order.
-/

namespace OntologicalDb.TypeqlReordering

open OntologicalDb.ExceptAgreement
open OntologicalDb.LocalActions
open OntologicalDb.TypeqlCompiler
open OntologicalDb.TypeqlGroups
open OntologicalDb.TypeqlLocality
open OntologicalDb.TypeqlPreservation
open OntologicalDb.TypeqlRows
open OntologicalDb.TypeqlSimulation
open OntologicalDb.TypeqlSyntax

variable {α : Type} {g : Graph α}

/-- Two neighbours without a common variable change places. -/
inductive Swapped : List Pat → List Pat → Prop
  | here {p q : Pat} (h : (varsOf p).Disjoint (varsOf q)) (ps : List Pat) :
      Swapped (p :: q :: ps) (q :: p :: ps)
  | there (p : Pat) {ps ps' : List Pat} (h : Swapped ps ps') : Swapped (p :: ps) (p :: ps')

theorem onto_comm {V W : List String} (hdisjoint : V.Disjoint W) {s u w : Shape} (hu : u = onto V u s)
    (hw : w = onto W w u) : onto V u (onto W w s) = w := by
  have hpatch {β : Type} {a b c : String → β} (hb : b = patch V b a) (hc : c = patch W c b) :
      patch V b (patch W c a) = c := by
    funext v
    by_cases hv : v ∈ V
    · have hvW : v ∉ W := fun h => hdisjoint hv h
      rw [hc]
      simp [patch, hv, hvW]
    · by_cases hvW : v ∈ W
      · simp [patch, hv, hvW]
      · have hcv : c v = b v := by
          rw [hc]
          simp [patch, hvW]
        have hbv : b v = a v := by
          rw [hb]
          simp [patch, hv]
        simp [patch, hv, hvW, hcv, hbv]
  have hsorts := hpatch (congrArg Shape.sorts hu) (congrArg Shape.sorts hw)
  have htypes := hpatch (congrArg Shape.isaTypes hu) (congrArg Shape.isaTypes hw)
  rw [onto, onto, hsorts, htypes]

theorem step_onto {V : List String} {p : Pat} (hp : varsOf p ⊆ V) {s t : Shape} {f : Trans α}
    (h : step g s p = .ok (t, f)) : t = onto V t s ∧ Local V f := by
  have hlocal := LocalStep.eq_ok (step_local p hp) (fun _ _ => ⟨rfl, rfl⟩) h
  exact ⟨(Prod.mk.inj (Except.ok.inj (hlocal.1.symm.trans h))).1.symm, hlocal.2⟩

/-- The rows of a list of patterns and of its rearrangement. -/
theorem Swapped.steps {pats pats' : List Pat} (h : Swapped pats pats') {s t : Shape} {f : Trans α}
    (hsteps : TypeqlRows.steps g s pats = .ok (t, f)) :
    ∃ f', TypeqlRows.steps g s pats' = .ok (t, f') ∧ ∀ r, (f' r).Perm (f r) := by
  induction h generalizing s t f with
  | @here p q hdisjoint ps =>
      obtain ⟨u, f₁, k, hp, hrest, rfl⟩ := steps_eq_ok.mp hsteps
      obtain ⟨w, f₂, f₃, hq, hps, rfl⟩ := steps_eq_ok.mp hrest
      obtain ⟨hu, hf₁⟩ := step_onto (List.Subset.refl _) hp
      obtain ⟨hw, hf₂⟩ := step_onto (List.Subset.refl _) hq
      have hsu : Alike (varsOf q) s u := hu ▸ alike_of_onto hdisjoint s u
      have hq' := (LocalStep.eq_ok (step_local q fun _ hv => hv) (Alike.symm hsu) hq).1
      have hsw : Alike (varsOf p) s (onto (varsOf q) w s) := alike_of_onto hdisjoint.symm s w
      have hp' := (LocalStep.eq_ok (step_local p fun _ hv => hv) hsw hp).1
      rw [onto_comm hdisjoint hu hw] at hp'
      refine ⟨andThen f₂ (andThen f₁ f₃), steps_eq_ok.mpr ⟨_, f₂, _, hq',
        steps_eq_ok.mpr ⟨w, f₁, f₃, hp', hps, rfl⟩, rfl⟩, fun r => ?_⟩
      have hassoc : andThen f₂ (andThen f₁ f₃) r = andThen (andThen f₂ f₁) f₃ r := List.flatMap_assoc.symm
      have hassoc' : andThen f₁ (andThen f₂ f₃) r = andThen (andThen f₁ f₂) f₃ r := List.flatMap_assoc.symm
      rw [hassoc, hassoc']
      exact List.Perm.flatMap_right _ (hf₂.comm hf₁ hdisjoint.symm r)
  | there p _ ih =>
      obtain ⟨u, f₁, f₂, hp, hrest, rfl⟩ := steps_eq_ok.mp hsteps
      obtain ⟨f₂', hrest', hperm⟩ := ih hrest
      exact ⟨andThen f₁ f₂', steps_eq_ok.mpr ⟨u, f₁, f₂', hp, hrest', rfl⟩,
        fun r => List.Perm.flatMap_left _ fun q _ => hperm q⟩

theorem Swapped.scan {pats pats' : List Pat} (h : Swapped pats pats') (types : String → Option Int) :
    scanTypes g types pats' = scanTypes g types pats := by
  induction h generalizing types with
  | @here p q hdisjoint ps =>
      rw [scanTypes, scanTypes, scanTypes, scanTypes]
      congr 1
      have hself (p : Pat) (types : String → Option Int) :
          scanType g types p = patch (varsOf p) (scanType g types p) types :=
        scanType_patch p (fun _ hv => hv) types types (.refl _)
      have hp := scanType_patch (g := g) p (fun _ hv => hv) types (scanType g types q) fun v hv => by
        rw [hself q]
        exact (if_neg fun h => hdisjoint hv h).symm
      have hq := scanType_patch (g := g) q (fun _ hv => hv) types (scanType g types p) fun v hv => by
        rw [hself p]
        exact (if_neg fun h => hdisjoint h hv).symm
      rw [hp, hq]
      exact patch_comm hdisjoint.symm (hself q types).symm (hself p types).symm
  | there p _ ih =>
      rw [scanTypes, scanTypes]
      exact ih _

theorem compiled_of_steps {ps : List Pat} {t : Shape} {f : Trans α}
    (h : TypeqlRows.steps g ⟨fun _ => none, scanTypes g (fun _ => none) ps⟩ ps = .ok (t, f)) :
    ∃ c, compilePatterns g .new ps = .ok c ∧ t = shape c ∧
      ∀ ρ, (c.rows ρ).map (view g c) = f (Row.blank g) := by
  have hagree := match_preserved g ps
  rw [h] at hagree
  generalize compilePatterns g .new ps = x at hagree ⊢
  cases hagree with
  | ok hrows => exact ⟨_, rfl, hrows.1, hrows.2⟩

/-- However patterns without common variables change places, the query stays accepted, binds the
same variables, and has the same rows. -/
theorem reordered {pats pats' : List Pat} (h : Relation.ReflTransGen Swapped pats pats') {c : Compiler α}
    (hc : compilePatterns g .new pats = .ok c) :
    ∃ c', compilePatterns g .new pats' = .ok c' ∧ (∀ v, v ∈ c'.boundVars ↔ v ∈ c.boundVars) ∧
      ∀ ρ, ((c'.rows ρ).map (view g c')).Perm ((c.rows ρ).map (view g c)) := by
  induction h with
  | refl => exact ⟨c, hc, fun _ => Iff.rfl, fun _ => .refl _⟩
  | tail _ hswap ih =>
      obtain ⟨c₁, hc₁, hbound, hrows⟩ := ih
      obtain ⟨f, hgrouped⟩ := exists_grouped hc₁
      obtain ⟨f', hsteps, hperm⟩ := hswap.steps hgrouped.steps
      rw [← hswap.scan] at hsteps
      obtain ⟨c₂, hc₂, hshape, hrows₂⟩ := compiled_of_steps hsteps
      refine ⟨c₂, hc₂, fun v => ?_, fun ρ => ?_⟩
      · rw [mem_boundVars hc₂, ← hshape, ← mem_boundVars hc₁, hbound]
      · rw [hrows₂]
        refine (hperm (Row.blank g)).trans ?_
        rw [← hgrouped.rows ρ]
        exact hrows ρ

/-- What `let $x = 1; let $y = 2;` compiles to. -/
def twoLets : Compiler Int :=
  ((Compiler.new : Compiler Int).bind "x" (.value fun _ => 1)).bind "y" (.value fun _ => 2)

theorem reordered_twoLets : ∃ c', compilePatterns bareGraph .new
      [.letVar "y" (.lit (.int 2)), .letVar "x" (.lit (.int 1))] = .ok c' ∧
    (∀ v, v ∈ c'.boundVars ↔ v ∈ twoLets.boundVars) ∧
    ∀ ρ, ((c'.rows ρ).map (view bareGraph c')).Perm ((twoLets.rows ρ).map (view bareGraph twoLets)) := by
  have hdisjoint : (varsOf (.letVar "x" (.lit (.int 1)))).Disjoint (varsOf (.letVar "y" (.lit (.int 2)))) := by
    simp [varsOf, exprVars]
  have hcompiled : compilePatterns bareGraph .new
      [.letVar "x" (.lit (.int 1)), .letVar "y" (.lit (.int 2))] = .ok twoLets := rfl
  exact reordered (.single (.here hdisjoint [])) hcompiled

end OntologicalDb.TypeqlReordering
