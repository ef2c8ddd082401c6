import Mathlib

/-!
Actions on environments that read and write a few variables only: what they leave alone, how
they compose, and that actions on disjoint variables commute.
-/

namespace OntologicalDb.LocalActions

variable {ι κ β : Type*} [DecidableEq ι] {V W : List ι} {q r r' w : ι → κ}

/-- An environment goes on to several. -/
abbrev Action (ι κ : Type*) := (ι → κ) → List (ι → κ)

def AgreeOn (V : List ι) (r r' : ι → κ) : Prop := ∀ v ∈ V, r v = r' v

/-- The variables of one environment, the rest of another. -/
def patch (V : List ι) (q r : ι → κ) : ι → κ := fun v => if v ∈ V then q v else r v

/-- The action reads and writes these variables only. -/
def Local (V : List ι) (f : Action ι κ) : Prop :=
  ∀ r r', AgreeOn V r r' → f r' = (f r).map fun q => patch V q r'

def seq (f h : Action ι κ) : Action ι κ := fun r => (f r).flatMap h

omit [DecidableEq ι] in
theorem AgreeOn.refl (r : ι → κ) : AgreeOn V r r := fun _ _ => rfl

theorem agreeOn_patch (q r : ι → κ) : AgreeOn V q (patch V q r) := fun _ hv => (if_pos hv).symm

@[simp] theorem patch_self (r : ι → κ) : patch V r r = r := by
  funext v
  exact ite_self _

@[simp] theorem patch_patch (w q r : ι → κ) : patch V w (patch V q r) = patch V w r := by
  funext v
  by_cases hv : v ∈ V
  · simp [patch, hv]
  · simp [patch, hv]

theorem AgreeOn.patch_eq (h : AgreeOn V r r') : patch V r r' = r' := by
  funext v
  by_cases hv : v ∈ V
  · simp [patch, hv, h v hv]
  · simp [patch, hv]

theorem patch_update {v : ι} (hv : v ∈ V) (q r : ι → κ) (x : κ) :
    patch V (Function.update q v x) r = Function.update (patch V q r) v x := by
  funext w
  by_cases hw : w = v
  · subst hw
    simp [patch, hv]
  · simp [patch, hw]

/-- What an action on other variables did is kept. -/
theorem patch_comm (hdisjoint : V.Disjoint W) (hq : patch V q r = q) (hw : patch W w r = w) :
    patch W w q = patch V q w := by
  funext v
  by_cases hv : v ∈ V
  · have hvW : v ∉ W := fun h => hdisjoint hv h
    simp [patch, hv, hvW]
  · have hqv : q v = r v := by
      rw [← hq]
      simp [patch, hv]
    by_cases hvW : v ∈ W
    · simp [patch, hv, hvW]
    · have hwv : w v = r v := by
        rw [← hw]
        simp [patch, hvW]
      simp [patch, hv, hvW, hqv, hwv]

namespace Local

variable {f h : Action ι κ}

theorem patched (hf : Local V f) (hq : q ∈ f r) : patch V q r = q := by
  have hmap : (f r).map (fun q => patch V q r) = (f r).map id := by
    rw [List.map_id]
    exact (hf r r (.refl r)).symm
  exact List.map_inj_left.mp hmap q hq

theorem agreeOn (hf : Local V f) (hdisjoint : V.Disjoint W) (hq : q ∈ f r) : AgreeOn W r q := fun v hv => by
  rw [← hf.patched hq]
  exact (if_neg fun h => hdisjoint h hv).symm

theorem mono (hf : Local V f) (hsub : V ⊆ W) : Local W f := fun r r' h => by
  rw [hf r r' fun v hv => h v (hsub hv)]
  refine List.map_congr_left fun q hq => ?_
  funext v
  by_cases hv : v ∈ V
  · simp [patch, hv, hsub hv]
  · by_cases hvW : v ∈ W
    · have hqv : q v = r v := by
        rw [← hf.patched hq]
        exact if_neg hv
      simp [patch, hv, hvW, hqv, h v hvW]
    · simp [patch, hv, hvW]

theorem skip : Local V fun r : ι → κ => [r] := fun _ _ h => congrArg (fun q => [q]) h.patch_eq.symm

theorem keep {cond : (ι → κ) → Bool} (hcond : ∀ r r', AgreeOn V r r' → cond r = cond r') :
    Local V fun r => if cond r then [r] else [] := fun r r' h => by
  dsimp only
  rw [← hcond r r' h]
  split
  · exact skip r r' h
  · rfl

/-- The environment goes on by what is found in a list. -/
theorem ofMap {items : (ι → κ) → List β} {out : (ι → κ) → β → ι → κ}
    (hitems : ∀ r r', AgreeOn V r r' → items r = items r')
    (hout : ∀ r r' i, AgreeOn V r r' → out r' i = patch V (out r i) r') :
    Local V fun r => (items r).map (out r) := fun r r' h => by
  dsimp only
  rw [← hitems r r' h, List.map_map]
  exact List.map_congr_left fun i _ => hout r r' i h

theorem seq (hf : Local V f) (hh : Local V h) : Local V (LocalActions.seq f h) := fun r r' hr => by
  rw [LocalActions.seq, LocalActions.seq, hf r r' hr, List.flatMap_map, List.map_flatMap]
  refine List.flatMap_congr fun q _ => ?_
  rw [hh q (patch V q r') (agreeOn_patch q r')]
  simp

/-- Actions on disjoint variables commute, up to the order of the results. -/
theorem comm (hf : Local V f) (hh : Local W h) (hdisjoint : V.Disjoint W) (r : ι → κ) :
    (LocalActions.seq f h r).Perm (LocalActions.seq h f r) := by
  have hleft : LocalActions.seq f h r = (f r).flatMap fun q => (h r).map fun w => patch V q w := by
    refine List.flatMap_congr fun q hq => ?_
    rw [hh r q (hf.agreeOn hdisjoint hq)]
    exact List.map_congr_left fun w hw => patch_comm hdisjoint (hf.patched hq) (hh.patched hw)
  have hright : LocalActions.seq h f r = (h r).flatMap fun w => (f r).map fun q => patch V q w :=
    List.flatMap_congr fun w hw => hf r w (hh.agreeOn hdisjoint.symm hw)
  rw [hleft, hright, ← Multiset.coe_eq_coe]
  simp only [← Multiset.coe_bind, ← Multiset.map_coe]
  exact Multiset.bind_map_comm _ _

end Local

end OntologicalDb.LocalActions
