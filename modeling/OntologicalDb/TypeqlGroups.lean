import Mathlib
import OntologicalDb.TypeqlComponents
import OntologicalDb.TypeqlLocality
import OntologicalDb.TypeqlPipeline
import OntologicalDb.TypeqlPreservation

/-!
The groups of a `match`, compiled apart and cross joined: their rows are those of the patterns
whose group binds a variable, all taken together.
-/

namespace OntologicalDb.TypeqlGroups

open OntologicalDb.DisjointSets
open OntologicalDb.ExceptAgreement
open OntologicalDb.LocalActions
open OntologicalDb.TypeqlCompiler
open OntologicalDb.TypeqlComponents
open OntologicalDb.TypeqlLocality
open OntologicalDb.TypeqlPreservation
open OntologicalDb.TypeqlRows
open OntologicalDb.TypeqlSimulation
open OntologicalDb.TypeqlSyntax

variable {α : Type} {g : Graph α}

section Merge

variable {V W : List String} {s t : Shape} {f : Trans α}

theorem steps_eq_ok {p : Pat} {ps : List Pat} :
    steps g s (p :: ps) = .ok (t, f) ↔ ∃ u f₁ f₂, step g s p = .ok (u, f₁) ∧
      steps g u ps = .ok (t, f₂) ∧ f = andThen f₁ f₂ := by
  rw [steps]
  constructor
  · intro h
    obtain ⟨⟨u, f₁⟩, hp, h⟩ := ExceptRules.bind_eq_ok.mp h
    obtain ⟨⟨t', f₂⟩, hps, h⟩ := ExceptRules.bind_eq_ok.mp h
    obtain ⟨rfl, rfl⟩ := Prod.mk.inj (ExceptRules.pure_eq_ok.mp h)
    exact ⟨u, f₁, f₂, hp, hps, rfl⟩
  · rintro ⟨u, f₁, f₂, hp, hps, rfl⟩
    rw [hp]
    change (steps g u ps >>= _) = _
    rw [hps]
    rfl

/-- The step from a shape that knows the same of its variables. -/
theorem LocalStep.eq_ok {F : Shape → Except String (Shape × Trans α)} (hF : LocalStep V F) {s' : Shape}
    (h : Alike V s s') (hs : F s = .ok (t, f)) : F s' = .ok (onto V t s', f) ∧ Local V f := by
  have hagree := hF s s' h
  rw [hs] at hagree
  generalize hs' : F s' = x at hagree ⊢
  cases hagree with
  | ok hlocal =>
      next y =>
      obtain ⟨t', f'⟩ := y
      have hshape : t' = onto V t s' := hlocal.shape
      have hsame : f' = f := hlocal.same
      rw [hshape, hsame]
      exact ⟨rfl, hlocal.acts⟩

theorem alike_of_onto (hdisjoint : V.Disjoint W) (s t : Shape) : Alike W s (onto V t s) := fun v hv => by
  have hvV : v ∉ V := fun h => hdisjoint h hv
  simp [onto, patch, hvV]

theorem patsVars_map {qs : List (Pat × Nat)} (h : ∀ q ∈ qs, varsOf q.1 ⊆ V) :
    patsVars (qs.map (·.1)) ⊆ V := by
  induction qs with
  | nil => exact fun v hv => (List.not_mem_nil hv).elim
  | cons q qs ih =>
      refine fun v hv => ?_
      rcases List.mem_append.mp hv with hv | hv
      · exact h q List.mem_cons_self hv
      · exact ih (fun q hq => h q (List.mem_cons_of_mem _ hq)) hv

/-- Two lots of patterns on disjoint variables, taken in the order they were written in, have the
rows of the first lot followed by the second. -/
theorem steps_merge (hdisjoint : V.Disjoint W) (P : Pat × Nat → Bool) {qs : List (Pat × Nat)}
    (hV : ∀ q ∈ qs, P q = true → varsOf q.1 ⊆ V) (hW : ∀ q ∈ qs, P q = false → varsOf q.1 ⊆ W)
    {s sa sb : Shape} {fa fb : Trans α}
    (ha : steps g s ((qs.filter P).map (·.1)) = .ok (sa, fa))
    (hb : steps g s ((qs.filter fun q => !P q).map (·.1)) = .ok (sb, fb)) :
    ∃ t f, steps g s (qs.map (·.1)) = .ok (t, f) ∧ ∀ r, (f r).Perm (andThen fa fb r) := by
  induction qs generalizing s sa sb fa fb with
  | nil =>
      obtain ⟨rfl, rfl⟩ := Prod.mk.inj (Except.ok.inj ha)
      obtain ⟨rfl, rfl⟩ := Prod.mk.inj (Except.ok.inj hb)
      exact ⟨s, skip, rfl, fun r => by rw [skip_andThen]⟩
  | cons q qs ih =>
      have hV' (q' : Pat × Nat) (hq' : q' ∈ qs) := hV q' (List.mem_cons_of_mem _ hq')
      have hW' (q' : Pat × Nat) (hq' : q' ∈ qs) := hW q' (List.mem_cons_of_mem _ hq')
      have hVs : patsVars ((qs.filter P).map (·.1)) ⊆ V := patsVars_map fun q' hq' =>
        hV' q' (List.mem_filter.mp hq').1 (List.mem_filter.mp hq').2
      have hWs : patsVars ((qs.filter fun q => !P q).map (·.1)) ⊆ W := patsVars_map fun q' hq' =>
        hW' q' (List.mem_filter.mp hq').1 (by simpa using (List.mem_filter.mp hq').2)
      rw [List.map_cons]
      cases hP : P q with
      | true =>
          rw [List.filter_cons_of_pos hP, List.map_cons, steps_eq_ok] at ha
          rw [List.filter_cons_of_neg (by simp [hP])] at hb
          obtain ⟨u, f₁, f₂, hq, hrest, rfl⟩ := ha
          -- the pattern leaves the variables of the other lot alone
          have hqV := LocalStep.eq_ok (step_local q.1 (hV q List.mem_cons_self hP)) (fun _ _ => ⟨rfl, rfl⟩) hq
          have hu : u = onto V u s := by
            have heq := hqV.1.symm.trans hq
            exact (Prod.mk.inj (Except.ok.inj heq)).1.symm
          have halike : Alike W s u := hu ▸ alike_of_onto hdisjoint s u
          have hb' := LocalStep.eq_ok (steps_local _ hWs) halike hb
          obtain ⟨t, f, hsteps, hperm⟩ := ih hV' hW' hrest hb'.1
          refine ⟨t, andThen f₁ f, steps_eq_ok.mpr ⟨u, f₁, f, hq, hsteps, rfl⟩, fun r => ?_⟩
          have hassoc : andThen (andThen f₁ f₂) fb r = (f₁ r).flatMap (andThen f₂ fb) := List.flatMap_assoc
          rw [hassoc]
          exact List.Perm.flatMap_left _ fun q _ => hperm q
      | false =>
          rw [List.filter_cons_of_neg (by simp [hP])] at ha
          rw [List.filter_cons_of_pos (by simp [hP]), List.map_cons, steps_eq_ok] at hb
          obtain ⟨u, f₁, f₂, hq, hrest, rfl⟩ := hb
          have hqW := LocalStep.eq_ok (step_local q.1 (hW q List.mem_cons_self hP)) (fun _ _ => ⟨rfl, rfl⟩) hq
          have hu : u = onto W u s := by
            have heq := hqW.1.symm.trans hq
            exact (Prod.mk.inj (Except.ok.inj heq)).1.symm
          have halike : Alike V s u := hu ▸ alike_of_onto hdisjoint.symm s u
          have ha' := LocalStep.eq_ok (steps_local _ hVs) halike ha
          obtain ⟨t, f, hsteps, hperm⟩ := ih hV' hW' ha'.1 hrest
          refine ⟨t, andThen f₁ f, steps_eq_ok.mpr ⟨u, f₁, f, hq, hsteps, rfl⟩, fun r => ?_⟩
          have hfirst : (andThen f₁ f r).Perm ((f₁ r).flatMap (andThen fa f₂)) :=
            List.Perm.flatMap_left _ fun q _ => hperm q
          have hswap : (andThen (andThen f₁ fa) f₂ r).Perm (andThen (andThen fa f₁) f₂ r) :=
            List.Perm.flatMap_right _ (ha'.2.comm hqW.2 hdisjoint r).symm
          have hassoc : (f₁ r).flatMap (andThen fa f₂) = andThen (andThen f₁ fa) f₂ r :=
            List.flatMap_assoc.symm
          have hassoc' : andThen (andThen fa f₁) f₂ r = andThen fa (andThen f₁ f₂) r := List.flatMap_assoc
          rw [hassoc] at hfirst
          rw [hassoc'] at hswap
          exact hfirst.trans hswap

end Merge

section Products

variable {V W : List String} {qs : List (Pat × Nat)}

/-- What is learnt of the types of one lot of patterns. -/
theorem scan_merge (hdisjoint : V.Disjoint W) (P : Pat × Nat → Bool)
    (hV : ∀ q ∈ qs, P q = true → varsOf q.1 ⊆ V) (hW : ∀ q ∈ qs, P q = false → varsOf q.1 ⊆ W)
    (types : String → Option Int) :
    AgreeOn V (scanTypes g types ((qs.filter P).map (·.1))) (scanTypes g types (qs.map (·.1))) := by
  induction qs generalizing types with
  | nil => exact .refl _
  | cons q qs ih =>
      have hV' (q' : Pat × Nat) (hq' : q' ∈ qs) := hV q' (List.mem_cons_of_mem _ hq')
      have hW' (q' : Pat × Nat) (hq' : q' ∈ qs) := hW q' (List.mem_cons_of_mem _ hq')
      cases hP : P q with
      | true =>
          rw [List.filter_cons_of_pos hP, List.map_cons, List.map_cons, scanTypes, scanTypes]
          exact ih hV' hW' _
      | false =>
          rw [List.filter_cons_of_neg (by simp [hP]), List.map_cons, scanTypes]
          have hVs : patsVars ((qs.filter P).map (·.1)) ⊆ V := patsVars_map fun q' hq' =>
            hV' q' (List.mem_filter.mp hq').1 (List.mem_filter.mp hq').2
          have hold : AgreeOn V types (scanType g types q.1) := fun v hv => by
            have hpatch := scanType_patch (g := g) q.1 (hW q List.mem_cons_self hP) types types (.refl _)
            have hvW : v ∉ W := fun h => hdisjoint hv h
            rw [hpatch]
            simp [patch, hvW]
          have hscan := scanTypes_patch (g := g) _ hVs types _ hold
          refine fun v hv => Eq.trans ?_ (ih hV' hW' _ v hv)
          rw [hscan]
          exact agreeOn_patch _ _ v hv

/-- The patterns of one root, in their order. -/
def part (root : Nat → Nat) (qs : List (Pat × Nat)) (r : Nat) : List Pat :=
  (qs.filter fun q => root q.2 = r).map (·.1)

theorem mem_patsVars_map {v : String} : v ∈ patsVars (qs.map (·.1)) ↔ ∃ q ∈ qs, v ∈ varsOf q.1 := by
  induction qs with
  | nil => simp [patsVars]
  | cons q qs ih => simp [patsVars, ih]

theorem part_filter {root : Nat → Nat} {P : Pat × Nat → Bool} {r : Nat}
    (hP : ∀ q ∈ qs, root q.2 = r → P q = true) : part root (qs.filter P) r = part root qs r := by
  rw [part, part, List.filter_filter]
  congr 1
  refine List.filter_congr fun q hq => ?_
  by_cases hr : root q.2 = r
  · simp [hr, hP q hq hr]
  · simp [hr]

/-- Patterns of different roots share no variable. -/
def Apart (root : Nat → Nat) (qs : List (Pat × Nat)) : Prop :=
  ∀ q ∈ qs, ∀ q' ∈ qs, root q.2 ≠ root q'.2 → (varsOf q.1).Disjoint (varsOf q'.1)

theorem Apart.disjoint {root : Nat → Nat} (h : Apart root qs) (r : Nat) :
    (patsVars (part root qs r)).Disjoint
      (patsVars ((qs.filter fun q => !decide (root q.2 = r)).map (·.1))) := by
  intro v hv hv'
  obtain ⟨q, hq, hv⟩ := mem_patsVars_map.mp hv
  obtain ⟨q', hq', hv'⟩ := mem_patsVars_map.mp hv'
  obtain ⟨hq, hr⟩ := List.mem_filter.mp hq
  obtain ⟨hq', hr'⟩ := List.mem_filter.mp hq'
  refine h q hq q' hq' ?_ hv hv'
  rw [of_decide_eq_true hr]
  rintro heq
  simp [heq] at hr'

theorem subset_part {root : Nat → Nat} (r : Nat) (q : Pat × Nat) (hq : q ∈ qs)
    (hr : decide (root q.2 = r) = true) : varsOf q.1 ⊆ patsVars (part root qs r) := fun _ hv =>
  mem_patsVars_map.mpr ⟨q, List.mem_filter.mpr ⟨hq, hr⟩, hv⟩

theorem subset_rest {root : Nat → Nat} (r : Nat) (q : Pat × Nat) (hq : q ∈ qs)
    (hr : decide (root q.2 = r) = false) :
    varsOf q.1 ⊆ patsVars ((qs.filter fun q => !decide (root q.2 = r)).map (·.1)) := fun _ hv =>
  mem_patsVars_map.mpr ⟨q, List.mem_filter.mpr ⟨hq, by simp [hr]⟩, hv⟩

/-- The groups one after the other. -/
def inTurn (F : Nat → Trans α) (rs : List Nat) : Trans α := rs.foldr (fun r f => andThen (F r) f) skip

/-- The patterns of some roots, in the order they were written in, have the rows of the groups one
after the other. -/
theorem steps_product {root : Nat → Nat} {rs : List Nat} (hnodup : rs.Nodup)
    (hrs : ∀ q ∈ qs, root q.2 ∈ rs) (hapart : Apart root qs) {s : Shape} {T : Nat → Shape}
    {F : Nat → Trans α} (h : ∀ r ∈ rs, steps g s (part root qs r) = .ok (T r, F r)) :
    ∃ t f, steps g s (qs.map (·.1)) = .ok (t, f) ∧ ∀ x, (f x).Perm (inTurn F rs x) := by
  induction rs generalizing qs with
  | nil =>
      obtain rfl : qs = [] := List.eq_nil_iff_forall_not_mem.mpr fun q hq => List.not_mem_nil (hrs q hq)
      exact ⟨s, skip, rfl, fun _ => .refl _⟩
  | cons r rs ih =>
      obtain ⟨hr, hnodup⟩ := List.nodup_cons.mp hnodup
      have hsub (q : Pat × Nat) (hq : q ∈ qs.filter fun q => !decide (root q.2 = r)) : q ∈ qs :=
        (List.mem_filter.mp hq).1
      have hother (r' : Nat) (hr' : r' ∈ rs) :
          part root (qs.filter fun q => !decide (root q.2 = r)) r' = part root qs r' := by
        refine part_filter fun q _ hq => ?_
        have hne : root q.2 ≠ r := by
          rintro rfl
          exact hr (hq ▸ hr')
        simp [hne]
      have hrest (q : Pat × Nat) (hq : q ∈ qs.filter fun q => !decide (root q.2 = r)) : root q.2 ∈ rs :=
        (List.mem_cons.mp (hrs q (hsub q hq))).resolve_left (by simpa using (List.mem_filter.mp hq).2)
      have hparts (r' : Nat) (hr' : r' ∈ rs) :
          steps g s (part root (qs.filter fun q => !decide (root q.2 = r)) r') = .ok (T r', F r') := by
        rw [hother r' hr']
        exact h r' (List.mem_cons_of_mem _ hr')
      obtain ⟨t', f', hrest, hperm⟩ := ih hnodup hrest
        (fun q hq q' hq' => hapart q (hsub q hq) q' (hsub q' hq')) hparts
      obtain ⟨t, f, hsteps, hmerge⟩ := steps_merge (hapart.disjoint r) (fun q => decide (root q.2 = r))
        (subset_part r) (subset_rest r) (h r List.mem_cons_self) hrest
      refine ⟨t, f, hsteps, fun x => (hmerge x).trans ?_⟩
      exact List.Perm.flatMap_left _ fun q _ => hperm q

end Products

section External

variable {c : Compiler α}

/-- A step of the compiler leaves the variables of the enclosing query as they are. -/
abbrev Outside (c c' : Compiler α) : Prop := c'.external = c.external

theorem ensureInstance_external (c : Compiler α) (v : String) :
    Returns (fun x => Outside c x.1) (ensureInstance g c v) := by
  unfold ensureInstance
  cases c.binds.lookup v with
  | none => exact .ok rfl
  | some b =>
      dsimp only
      split
      · exact .error _
      · exact .ok rfl

theorem attrScalar_external (c : Compiler α) (v a : String) :
    Returns (fun x => Outside c x.1) (attrScalar g c v a) := by
  unfold attrScalar
  refine (ensureInstance_external c v).bind fun x hx => ?_
  exact .after fun _ => .after fun _ => .ok hx

mutual

theorem compileExpr_external : ∀ (e : Expr) (c : Compiler α),
    Returns (fun x => Outside c x.1) (compileExpr g c e)
  | .lit l, c => .ok rfl
  | .var v, c => by
      unfold compileExpr
      cases c.binds.lookup v with
      | none => exact .error _
      | some b => exact .ok rfl
  | .attr v a, c => by
      unfold compileExpr
      exact attrScalar_external c v a
  | .bin l op r, c => by
      unfold compileExpr
      refine (compileExpr_external l c).bind fun x hx => ?_
      exact (compileExpr_external r x.1).bind fun y hy => .ok (hy.trans hx)
  | .neg e, c => by
      unfold compileExpr
      exact (compileExpr_external e c).bind fun x hx => .ok hx
  | .call name args, c => by
      unfold compileExpr
      refine (compileArgs_external args c).bind fun x hx => ?_
      exact .after fun _ => .ok hx

theorem compileArgs_external : ∀ (es : List Expr) (c : Compiler α),
    Returns (fun x => Outside c x.1) (compileArgs g c es)
  | [], c => .ok rfl
  | e :: es, c => by
      unfold compileArgs
      refine (compileExpr_external e c).bind fun x hx => ?_
      exact (compileArgs_external es x.1).bind fun y hy => .ok (hy.trans hx)

end

theorem patIsa_external (c : Compiler α) (var ty : String) (exact : Bool) :
    Returns (Outside c) (patIsa g c var ty exact) := by
  unfold patIsa
  refine .after fun tid => .after fun kind => .after fun ids => ?_
  dsimp only
  cases (c.setType var tid).binds.lookup var with
  | some b =>
      dsimp only
      split
      · exact .error _
      · exact .ok rfl
  | none =>
      dsimp only
      split
      · exact .after fun _ => .ok rfl
      · exact .ok rfl

theorem hasValue_external (c : Compiler α) (val : HasVal) :
    Returns (fun x => Outside c x.1) (hasValue g c val) := by
  cases val with
  | any => exact .ok rfl
  | var v =>
      unfold hasValue
      dsimp only
      cases c.binds.lookup v with
      | none => exact .ok rfl
      | some b =>
          dsimp only
          split
          · exact .error _
          · exact .ok rfl
  | cmp op e =>
      unfold hasValue
      exact (compileExpr_external e c).bind fun x hx => .ok hx

theorem patHas_external (c : Compiler α) (owner : String) (attr : Option String) (val : HasVal) :
    Returns (Outside c) (patHas g c owner attr val) := by
  unfold patHas
  refine (ensureInstance_external c owner).bind fun x hx => ?_
  cases attr with
  | none => exact .error _
  | some attrName =>
      refine .after fun tids => .after fun tid => .after fun kind => ?_
      split
      · exact .error _
      · refine .after fun src => (hasValue_external x.1.fresh val).bind fun y hy => ?_
        have hkept : Outside c y.1 := Eq.trans hy hx
        obtain ⟨c', cond, bindVar⟩ := y
        cases bindVar with
        | none => exact .ok hkept
        | some v => exact .ok hkept

theorem patRole_external (c : Compiler α) (rel : String) (role : Option String) (player : String) :
    Returns (Outside c) (patRole g c rel role player) := by
  unfold patRole
  refine (ensureInstance_external c rel).bind fun x hx => ?_
  refine (ensureInstance_external x.1 player).bind fun y hy => ?_
  refine .after fun ids => ?_
  split
  · exact .error _
  · simp only [foldl_pushWhere_map]
    exact .ok (Eq.trans hy hx)

theorem compilePat_external (c : Compiler α) (p : Pat) : Returns (Outside c) (compilePat g c p) := by
  cases p with
  | isa var ty exact =>
      unfold compilePat
      exact patIsa_external c var ty exact
  | isaAnon var ty =>
      unfold compilePat
      exact patIsa_external c var ty false
  | has owner attr val =>
      unfold compilePat
      exact patHas_external c owner attr val
  | role rel role player =>
      unfold compilePat
      exact patRole_external c rel role player
  | cmp lhs op rhs =>
      unfold compilePat
      refine (compileExpr_external lhs c).bind fun x hx => ?_
      exact (compileExpr_external rhs x.1).bind fun y hy => .ok (Eq.trans hy hx)
  | letVar var e =>
      unfold compilePat
      exact (compileExpr_external e c).bind fun x hx => .ok hx
  | not inner =>
      unfold compilePat
      exact .after fun _ => .ok rfl
  | or branches =>
      unfold compilePat
      exact .after fun _ => .ok rfl
  | sub var ty exact =>
      unfold compilePat
      exact .after fun _ => .ok rfl
  | label var name =>
      unfold compilePat
      cases c.binds.lookup var with
      | none => exact .error _
      | some b =>
          cases b with
          | type a => exact .ok rfl
          | inst a => exact .error _
          | attr a tids => exact .error _
          | value e => exact .error _
          | column val id => exact .error _

theorem compileAll_external (pats : List Pat) (c : Compiler α) :
    Returns (Outside c) (compileAll g c pats) := by
  induction pats generalizing c with
  | nil =>
      unfold compileAll
      exact .ok rfl
  | cons p ps ih =>
      unfold compileAll
      exact (compilePat_external c p).bind fun c' hp c₂ h₂ => (ih c' c₂ h₂).trans hp

/-- A group that is compiled on its own binds the variables there are. -/
theorem mem_boundVars {pats : List Pat} (h : compilePatterns g .new pats = .ok c) (v : String) :
    v ∈ c.boundVars ↔ ((shape c).sorts v).isSome := by
  have hexternal : c.external = [] := compileAll_external pats _ c h
  rw [sorts_shape, Option.isSome_map, Compiler.boundVars, hexternal]
  simp [AList.lookup_isSome, AList.mem_keys]

end External

section Touches

variable {V : List String} {s t : Shape} {f : Trans α}

/-- Whether a pattern touches a variable outside of negations and disjunctions. -/
def touches : Pat → Bool
  | .not _ | .or _ => false
  | .cmp lhs _ rhs => !(exprVars lhs ++ exprVars rhs).isEmpty
  | _ => true

/-- Variables stay bound, and these are bound. -/
structure Binds (s : Shape) (vars : List String) (y : Shape × Trans α) : Prop where
  stay : ∀ v, (s.sorts v).isSome → (y.1.sorts v).isSome
  bound : ∀ v ∈ vars, (y.1.sorts v).isSome

theorem isSome_bind (s : Shape) (v w : String) (k : VarSort) (h : (s.sorts w).isSome) :
    ((s.bind v k).sorts w).isSome := by
  by_cases hw : w = v
  · subst hw
    simp [Shape.bind]
  · simpa [Shape.bind, hw] using h

theorem bound_self (s : Shape) (v : String) (k : VarSort) : ((s.bind v k).sorts v).isSome := by
  simp [Shape.bind]

theorem Binds.refl {vars : List String} (h : ∀ v ∈ vars, (s.sorts v).isSome) (f : Trans α) :
    Binds s vars (s, f) := ⟨fun _ hv => hv, h⟩

theorem ensure_binds (s : Shape) (var : String) : Returns (Binds s [var]) (ensure g s var) := by
  unfold ensure
  cases hs : s.sorts var with
  | none =>
      refine .ok ⟨fun v hv => isSome_bind s var v .thing hv, fun v hv => ?_⟩
      obtain rfl := List.mem_singleton.mp hv
      exact bound_self s v .thing
  | some k =>
      cases k with
      | type => exact .error _
      | thing =>
          refine .ok (.refl (fun v hv => ?_) skip)
          obtain rfl := List.mem_singleton.mp hv
          rw [hs]
          rfl

theorem Binds.seq {vars vars' : List String} {y y' : Shape × Trans α} (h : Binds s vars y)
    (h' : Binds y.1 vars' y') (f : Trans α) : Binds s (vars ++ vars') (y'.1, f) := by
  refine ⟨fun v hv => h'.stay v (h.stay v hv), fun v hv => ?_⟩
  rcases List.mem_append.mp hv with hv | hv
  · exact h'.stay v (h.bound v hv)
  · exact h'.bound v hv

mutual

theorem ensureExpr_binds : ∀ (e : Expr) (s : Shape), Returns (Binds s (exprVars e)) (ensureExpr g s e)
  | .lit _, s => .ok (.refl (fun _ hv => (List.not_mem_nil hv).elim) skip)
  | .var v, s => by
      unfold ensureExpr
      cases hs : s.sorts v with
      | none => exact .error _
      | some k =>
          refine .ok (.refl (fun w hw => ?_) skip)
          obtain rfl := List.mem_singleton.mp hw
          rw [hs]
          rfl
  | .attr v a, s => by
      unfold ensureExpr
      exact (ensure_binds s v).bind fun y hy => .after fun _ => .ok hy
  | .bin l op e, s => by
      unfold ensureExpr
      refine (ensureExpr_binds l s).bind fun y hy => ?_
      exact (ensureExpr_binds e y.1).bind fun z hz => .ok (hy.seq hz _)
  | .neg e, s => by
      unfold ensureExpr
      exact ensureExpr_binds e s
  | .call name args, s => by
      unfold ensureExpr
      exact (ensureArgs_binds args s).bind fun y hy => .after fun _ => .ok hy

theorem ensureArgs_binds : ∀ (es : List Expr) (s : Shape), Returns (Binds s (argVars es)) (ensureArgs g s es)
  | [], s => .ok (.refl (fun _ hv => (List.not_mem_nil hv).elim) skip)
  | e :: es, s => by
      unfold ensureArgs
      refine (ensureExpr_binds e s).bind fun y hy => ?_
      exact (ensureArgs_binds es y.1).bind fun z hz => .ok (hy.seq hz _)

end

theorem isa_binds (s : Shape) (var ty : String) (exact : Bool) :
    Returns (Binds s [var]) (isaStep g s var ty exact) := by
  unfold isaStep
  refine .after fun tid => .after fun kind => .after fun ids => ?_
  have hbind (f : Trans α) : Binds s [var] ((s.setType var tid).bind var .thing, f) := by
    refine ⟨fun v hv => isSome_bind _ var v .thing hv, fun v hv => ?_⟩
    obtain rfl := List.mem_singleton.mp hv
    exact bound_self _ v .thing
  have hsorts : (s.setType var tid).sorts var = s.sorts var := rfl
  dsimp only
  rw [hsorts]
  cases hs : s.sorts var with
  | none =>
      dsimp only
      split
      · exact .after fun _ => .ok (hbind _)
      · exact .ok (hbind _)
  | some k =>
      cases k with
      | type => exact .error _
      | thing =>
          refine .ok ⟨fun _ hv => hv, fun v hv => ?_⟩
          obtain rfl := List.mem_singleton.mp hv
          dsimp only
          rw [hsorts, hs]
          rfl

theorem value_stays (s : Shape) (val : HasVal) :
    Returns (fun y => Binds s [] (y.1, y.2.1)) (valueStep g s val) := by
  have hstay (f : Trans α) : Binds s [] (s, f) := .refl (fun _ hv => (List.not_mem_nil hv).elim) f
  cases val with
  | any => exact .ok (hstay _)
  | var v =>
      unfold valueStep
      dsimp only
      cases s.sorts v with
      | none => exact .ok (hstay _)
      | some k =>
          cases k with
          | type => exact .error _
          | thing => exact .ok (hstay _)
  | cmp op e =>
      unfold valueStep
      exact (ensureExpr_binds e s).bind fun y hy => .ok ⟨hy.stay, fun _ hv => (List.not_mem_nil hv).elim⟩

theorem has_binds (s : Shape) (owner : String) (attr : Option String) (val : HasVal) :
    Returns (Binds s [owner]) (hasStep g s owner attr val) := by
  unfold hasStep
  refine (ensure_binds s owner).bind fun y hy => ?_
  cases attr with
  | none => exact .error _
  | some attrName =>
      refine .after fun tids => .after fun tid => .after fun kind => ?_
      split
      · exact .error _
      refine .after fun src => (value_stays y.1 val).bind fun z hz => ?_
      have hboth := hy.seq hz skip
      obtain ⟨s₂, f₂, cond, bindVar⟩ := z
      cases bindVar with
      | none => exact .ok ⟨hboth.stay, hboth.bound⟩
      | some v =>
          refine .ok ⟨fun w hw => isSome_bind s₂ v w .thing (hboth.stay w hw), fun w hw => ?_⟩
          exact isSome_bind s₂ v w .thing (hboth.bound w hw)

theorem role_binds (s : Shape) (rel : String) (role : Option String) (player : String) :
    Returns (Binds s [rel, player]) (roleStep g s rel role player) := by
  unfold roleStep
  refine (ensure_binds s rel).bind fun y hy => (ensure_binds y.1 player).bind fun z hz => ?_
  refine .after fun ids => ?_
  split
  · exact .error _
  · exact .ok (hy.seq hz _)

/-- What a pattern binds that the compiler accepts. -/
structure Gains (s : Shape) (p : Pat) (y : Shape × Trans α) : Prop where
  stay : ∀ v, (s.sorts v).isSome → (y.1.sorts v).isSome
  gains : touches p = true → ∃ v, (y.1.sorts v).isSome
  none : touches p = false → y.1.sorts = s.sorts

theorem Gains.of_binds {p : Pat} {v : String} {vars : List String} {y : Shape × Trans α}
    (h : Binds s vars y) (hv : v ∈ vars) (hp : touches p = true) : Gains s p y := by
  refine ⟨h.stay, fun _ => ⟨v, h.bound v hv⟩, fun hnot => ?_⟩
  rw [hp] at hnot
  cases hnot

theorem step_gains (p : Pat) (s : Shape) : Returns (Gains s p) (step g s p) := by
  cases p with
  | isa var ty exact =>
      unfold step
      exact fun y hy => .of_binds (isa_binds s var ty exact y hy) (List.mem_singleton_self var) rfl
  | isaAnon var ty =>
      unfold step
      exact fun y hy => .of_binds (isa_binds s var ty false y hy) (List.mem_singleton_self var) rfl
  | has owner attr val =>
      unfold step
      exact fun y hy => .of_binds (has_binds s owner attr val y hy) (List.mem_singleton_self owner) rfl
  | role rel role player =>
      unfold step
      exact fun y hy => .of_binds (role_binds s rel role player y hy) List.mem_cons_self rfl
  | cmp lhs op rhs =>
      intro y hy
      have hbinds : Returns (Binds s (exprVars lhs ++ exprVars rhs)) (step g s (.cmp lhs op rhs)) := by
        unfold step
        refine (ensureExpr_binds lhs s).bind fun y hy => ?_
        exact (ensureExpr_binds rhs y.1).bind fun z hz => .ok (hy.seq hz _)
      have hy' := hbinds y hy
      refine ⟨hy'.stay, fun htouches => ?_, fun hnot => ?_⟩
      · obtain ⟨v, hv⟩ := List.exists_mem_of_ne_nil _ (fun h => by simp [touches, h] at htouches :
          exprVars lhs ++ exprVars rhs ≠ [])
        exact ⟨v, hy'.bound v hv⟩
      · -- without a variable nothing is touched
        have hempty : varsOf (.cmp lhs op rhs) ⊆ [] := by
          have hnil : exprVars lhs ++ exprVars rhs = [] := by simpa [touches] using hnot
          rw [varsOf, hnil]
          exact fun _ hv => hv
        obtain ⟨t, f⟩ := y
        have hlocal := LocalStep.eq_ok (step_local _ hempty) (fun _ _ => ⟨rfl, rfl⟩) hy
        obtain ⟨heq, -⟩ := Prod.mk.inj (Except.ok.inj (hlocal.1.symm.trans hy))
        have hsorts := congrArg Shape.sorts heq
        exact hsorts.symm
  | letVar var e =>
      unfold step
      refine (ensureExpr_binds e s).bind fun y hy => .ok ?_
      refine ⟨fun w hw => isSome_bind _ var w .thing (hy.stay w hw), fun _ => ⟨var, bound_self _ var .thing⟩,
        fun h => by cases h⟩
  | not inner =>
      unfold step
      exact .after fun _ => .ok ⟨fun _ hv => hv, (fun h => by cases h), fun _ => rfl⟩
  | or branches =>
      unfold step
      exact .after fun _ => .ok ⟨fun _ hv => hv, (fun h => by cases h), fun _ => rfl⟩
  | sub var ty exact =>
      unfold step
      refine .after fun ids => .ok ?_
      exact ⟨fun w hw => isSome_bind _ var w .type hw, fun _ => ⟨var, bound_self _ var .type⟩,
        fun h => by cases h⟩
  | label var name =>
      unfold step
      cases hs : s.sorts var with
      | none => exact .error _
      | some k =>
          cases k with
          | thing => exact .error _
          | type =>
              refine .ok ⟨fun _ hv => hv, fun _ => ⟨var, ?_⟩, fun h => by cases h⟩
              rw [hs]
              rfl

/-- A group binds a variable exactly when one of its patterns touches one. -/
theorem steps_gain (pats : List Pat) {s t : Shape} {f : Trans α} (h : steps g s pats = .ok (t, f)) :
    (∃ v, (t.sorts v).isSome) ↔ (∃ v, (s.sorts v).isSome) ∨ pats.any touches = true := by
  induction pats generalizing s f with
  | nil =>
      obtain ⟨rfl, -⟩ := Prod.mk.inj (Except.ok.inj h)
      simp
  | cons p ps ih =>
      obtain ⟨u, f₁, f₂, hp, hps, -⟩ := steps_eq_ok.mp h
      have hgains := step_gains p s _ hp
      rw [ih hps, List.any_cons, Bool.or_eq_true]
      cases htouches : touches p with
      | true =>
          exact iff_of_true (.inl (hgains.gains htouches)) (.inr (.inl rfl))
      | false =>
          have hsorts : u.sorts = s.sorts := hgains.none htouches
          rw [hsorts]
          simp

end Touches

section Match

open OntologicalDb.TypeqlPipeline

/-- `attr_list`. -/
def attrListScope (g : Graph α) (c : Compiler α) (var attr : String) : Except String (Compiler α) := do
  let (c, _) ← ensureInstance g c var
  let tids ← typeSet g attr false
  let _ ← concreteAttrTables g tids
  return c.fresh

/-- The scope of a `fetch`: every variable is two columns of the stage before it, which goes by
the alias 0. -/
def seedScope (scopes : List (Compiler α)) (cols : List (String × Bool)) : Compiler α where
  binds := cols.foldl (fun binds col => binds.insert col.1 (.column (fun ρ => ρ 0 ("v_" ++ col.1))
    (if col.2 then some fun ρ => ρ 0 ("i_" ++ col.1) else none))) ∅
  external := cols.map (·.1)
  fromItems := []
  wheres := []
  n := 0
  isaTypes := fun v => if v ∈ cols.map (·.1) then scopes.reverse.findSome? (·.isaTypes v) else none
  roleAliases := []

/-- The compiler of a pipeline. -/
def compilation (g : Graph α) : Compilation (Compiler α) where
  components := components
  start := .new
  nested := Compiler.nested
  compilePatterns := compilePatterns g
  boundVars := fun c => c.boundVars.map fun v => (v, true)
  seed := seedScope
  expr := fun c e => (compileExpr g c e).map (·.1)
  attrList := attrListScope g

/-- The groups cross joined: what they select of the scopes they have, side by side. -/
def crossJoin (g : Graph α) (ρ : Scope α) : List (Compiler α) → List (Row α)
  | [] => [Row.blank g]
  | c :: cs => (c.rows ρ).flatMap fun σ => (crossJoin g ρ cs).map fun r v =>
      if v ∈ c.boundVars then (view g c σ).clear v else r v

open Classical in
/-- The patterns that a chain of shared variables links with one that touches a variable outside
of negations and disjunctions. -/
noncomputable def answering (pats : List Pat) : List Pat :=
  (pats.zipIdx.filter fun p => ∃ q ∈ pats.zipIdx, Linked (uses pats) p.2 q.2 ∧ touches q.1 = true).map (·.1)

theorem compileGroups_map {G : Nat → List Pat} {roots : List Nat} {parts : List (List Pat × Compiler α)}
    (h : compileGroups (compilation g) (roots.map G) = .ok parts) :
    ∃ K : Nat → Compiler α, (∀ r ∈ roots, compilePatterns g .new (G r) = .ok (K r)) ∧
      parts.map (·.2) = (roots.filter fun r => (K r).boundVars ≠ []).map K := by
  refine ⟨fun r => ((compilePatterns g .new (G r)).toOption).getD .new, ?_⟩
  induction roots generalizing parts with
  | nil =>
      obtain rfl := ExceptRules.pure_eq_ok.mp h
      exact ⟨fun _ hr => (List.not_mem_nil hr).elim, rfl⟩
  | cons r roots ih =>
      rw [List.map_cons, compileGroups] at h
      obtain ⟨c, hc, h⟩ := ExceptRules.bind_eq_ok.mp h
      obtain ⟨rest, hrest, h⟩ := ExceptRules.bind_eq_ok.mp h
      obtain rfl := ExceptRules.pure_eq_ok.mp h
      obtain ⟨hall, hmap⟩ := ih hrest
      have hcompiled : compilePatterns g .new (G r) = .ok c := hc
      have hK : ((compilePatterns g .new (G r)).toOption).getD .new = c := by
        rw [hcompiled]
        rfl
      refine ⟨fun r' hr' => ?_, ?_⟩
      · rcases List.mem_cons.mp hr' with rfl | hr'
        · dsimp only
          rw [hK]
          exact hcompiled
        · exact hall r' hr'
      · have hnil : (compilation g).boundVars c = [] ↔ c.boundVars = [] := List.map_eq_nil_iff
        rw [List.filter_cons]
        by_cases hbound : c.boundVars = []
        · rw [if_pos (hnil.mpr hbound), if_neg (by simp [hK, hbound]), hmap]
        · rw [if_neg (mt hnil.mp hbound), if_pos (by simp [hK, hbound]), List.map_cons, List.map_cons, hmap, hK]

/-- A group that is compiled on its own, beside what its patterns do to rows. -/
structure Grouped (g : Graph α) (ps : List Pat) (c : Compiler α) (f : Trans α) : Prop where
  steps : steps g ⟨fun _ => none, scanTypes g (fun _ => none) ps⟩ ps = .ok (shape c, f)
  rows : ∀ ρ, (c.rows ρ).map (view g c) = f (Row.blank g)
  acts : Local (patsVars ps) f
  mem : ∀ v ∈ c.boundVars, v ∈ patsVars ps
  unbound : ∀ v, v ∉ c.boundVars → ∀ σ, (view g c σ).clear v = Row.blank g v
  binds : c.boundVars ≠ [] ↔ ps.any touches = true

theorem exists_grouped {ps : List Pat} {c : Compiler α} (h : compilePatterns g .new ps = .ok c) :
    ∃ f, Grouped g ps c f := by
  have hagree := match_preserved g ps
  rw [h] at hagree
  generalize hsteps : steps g ⟨fun _ => none, scanTypes g (fun _ => none) ps⟩ ps = x at hagree
  cases hagree with
  | ok hrows =>
      next y =>
      obtain ⟨t, f⟩ := y
      obtain ⟨rfl, hrows⟩ := hrows
      have hlocal := LocalStep.eq_ok (steps_local ps fun _ hv => hv) (fun _ _ => ⟨rfl, rfl⟩) hsteps
      obtain ⟨hshape, -⟩ := Prod.mk.inj (Except.ok.inj (hlocal.1.symm.trans hsteps))
      refine ⟨f, hsteps, hrows, hlocal.2, fun v hv => ?_, fun v hv σ => ?_, ?_⟩
      · by_contra hout
        have hsome := (mem_boundVars h v).mp hv
        rw [← hshape] at hsome
        simp [onto, patch, hout] at hsome
      · have hnone : c.binds.lookup v = none := by
          rw [mem_boundVars h, sorts_shape, Option.isSome_map, Bool.not_eq_true, Option.isSome_eq_false_iff,
            Option.isNone_iff_eq_none] at hv
          exact hv
        simp [view, Row.clear, Row.blank, hnone]
      · have hgain := steps_gain ps hsteps
        simp only [Option.isSome_none, Bool.false_eq_true, exists_false, false_or] at hgain
        rw [← hgain]
        constructor
        · intro hne
          obtain ⟨v, hv⟩ := List.exists_mem_of_ne_nil _ hne
          exact ⟨v, (mem_boundVars h v).mp hv⟩
        · rintro ⟨v, hv⟩
          exact List.ne_nil_of_mem ((mem_boundVars h v).mpr hv)

/-- Groups on disjoint variables have side by side the rows they have one after the other. -/
theorem crossJoin_eq {G : Nat → List Pat} {K : Nat → Compiler α} {F : Nat → Trans α} {rs : List Nat}
    (hnodup : rs.Nodup) (hgroups : ∀ r ∈ rs, Grouped g (G r) (K r) (F r))
    (hdisjoint : ∀ r ∈ rs, ∀ r' ∈ rs, r ≠ r' → (patsVars (G r)).Disjoint (patsVars (G r'))) (ρ : Scope α) :
    Local (rs.flatMap fun r => patsVars (G r)) (inTurn F rs) ∧
      crossJoin g ρ (rs.map K) = (inTurn F rs (Row.blank g)).map Row.clear := by
  induction rs with
  | nil => exact ⟨Local.skip, rfl⟩
  | cons r rs ih =>
      obtain ⟨hr, hnodup⟩ := List.nodup_cons.mp hnodup
      have hgroup := hgroups r List.mem_cons_self
      obtain ⟨hacts, hjoin⟩ := ih hnodup (fun r' hr' => hgroups r' (List.mem_cons_of_mem _ hr'))
        fun r' hr' r'' hr'' => hdisjoint r' (List.mem_cons_of_mem _ hr') r'' (List.mem_cons_of_mem _ hr'')
      have hapart : (patsVars (G r)).Disjoint (rs.flatMap fun r => patsVars (G r)) := by
        intro v hv hv'
        obtain ⟨r', hr', hv'⟩ := List.mem_flatMap.mp hv'
        have hne : r ≠ r' := by
          rintro rfl
          exact hr hr'
        exact hdisjoint r List.mem_cons_self r' (List.mem_cons_of_mem _ hr') hne hv hv'
      refine ⟨?_, ?_⟩
      · rw [List.flatMap_cons]
        exact (hgroup.acts.mono fun _ hv => List.mem_append_left _ hv).seq
          (hacts.mono fun _ hv => List.mem_append_right _ hv)
      · have hturn : inTurn F (r :: rs) (Row.blank g) =
            ((K r).rows ρ).flatMap fun σ => inTurn F rs (view g (K r) σ) := by
          have hseq : inTurn F (r :: rs) (Row.blank g) = (F r (Row.blank g)).flatMap (inTurn F rs) := rfl
          rw [hseq, ← hgroup.rows ρ, List.flatMap_map]
        rw [List.map_cons, crossJoin, hturn, List.map_flatMap, hjoin]
        refine List.flatMap_congr fun σ hσ => ?_
        have hq : view g (K r) σ ∈ F r (Row.blank g) := by
          rw [← hgroup.rows ρ]
          exact List.mem_map.mpr ⟨σ, hσ, rfl⟩
        rw [hacts (Row.blank g) _ (hgroup.acts.agreeOn hapart hq), List.map_map, List.map_map]
        refine List.map_congr_left fun w hw => ?_
        have hcomm := patch_comm hapart (hgroup.acts.patched hq) (hacts.patched hw)
        funext v
        simp only [Function.comp_apply, hcomm]
        by_cases hv : v ∈ (K r).boundVars
        · simp [Row.clear, patch, hv, hgroup.mem v hv]
        · rw [if_neg hv]
          by_cases hvV : v ∈ patsVars (G r)
          · -- a variable of the group that it does not bind is bound nowhere
            have hw' : w v = Row.blank g v := by
              rw [← hacts.patched hw]
              exact if_neg fun h => hapart hvV h
            have hleft : w.clear v = Row.blank g v := by simp [Row.clear, hw', Row.blank]
            have hright : Row.clear (patch (patsVars (G r)) (view g (K r) σ) w) v = (view g (K r) σ).clear v := by
              simp [Row.clear, patch, hvV]
            rw [hleft]
            exact (hright.trans (hgroup.unbound v hv σ)).symm
          · simp [Row.clear, patch, hvV]

theorem mem_zipIdx_uses {pats : List Pat} {q : Pat × Nat} (hq : q ∈ pats.zipIdx) {v : String}
    (hv : v ∈ varsOf q.1) : (q.2, v) ∈ uses pats :=
  mem_uses.mpr ⟨q.1, List.mem_zipIdx_iff_getElem?.mp hq, hv⟩

/-- A `match` that is accepted answers with the rows of the patterns that are linked with one that
touches a variable, taken together; the others take no part. -/
theorem match_answers {q : Query} {p : Projected (Compiler α)}
    (h : compileMatch (compilation g) q = .ok p) :
    ∃ t f, steps g ⟨fun _ => none, scanTypes g (fun _ => none) (answering (q.flatMap Stage.patterns))⟩
        (answering (q.flatMap Stage.patterns)) = .ok (t, f) ∧
      ∀ ρ, (crossJoin g ρ p.scopes).Perm ((f (Row.blank g)).map Row.clear) := by
  generalize hpats : q.flatMap Stage.patterns = pats
  rw [compileMatch, hpats] at h
  dsimp only at h
  split at h
  · cases h
  obtain ⟨parts, hparts, h⟩ := ExceptRules.bind_eq_ok.mp h
  split at h
  · cases h
  obtain rfl := ExceptRules.pure_eq_ok.mp h
  obtain ⟨root, hroot, hcomponents⟩ := components_linked pats
  have hgroups : (compilation g).components pats =
      (pats.zipIdx.map fun p => root p.2).eraseDups.map (part root pats.zipIdx) := hcomponents
  rw [hgroups] at hparts
  obtain ⟨K, hK, hscopes⟩ := compileGroups_map hparts
  have hF (r : Nat) : ∃ f, r ∈ (pats.zipIdx.map fun p => root p.2).eraseDups →
      Grouped g (part root pats.zipIdx r) (K r) f := by
    by_cases hr : r ∈ (pats.zipIdx.map fun p => root p.2).eraseDups
    · obtain ⟨f, hf⟩ := exists_grouped (hK r hr)
      exact ⟨f, fun _ => hf⟩
    · exact ⟨skip, fun h => absurd h hr⟩
  choose F hF using hF
  have hmem {r : Nat} : r ∈ (pats.zipIdx.map fun p => root p.2).eraseDups ↔ ∃ q ∈ pats.zipIdx, root q.2 = r := by
    rw [List.mem_eraseDups, List.mem_map]
  -- the groups that bind a variable are those of the patterns that take part
  have hanswering (q : Pat × Nat) (hq : q ∈ pats.zipIdx) : (K (root q.2)).boundVars ≠ [] ↔
      ∃ q' ∈ pats.zipIdx, Linked (uses pats) q.2 q'.2 ∧ touches q'.1 = true := by
    rw [(hF _ (hmem.mpr ⟨q, hq, rfl⟩)).binds, part, List.any_map, List.any_filter, List.any_eq_true]
    refine exists_congr fun q' => and_congr_right fun _ => ?_
    rw [← hroot, Bool.and_eq_true, decide_eq_true_eq]
    exact and_congr_left fun _ => eq_comm
  set rs := (pats.zipIdx.map fun p => root p.2).eraseDups.filter fun r => (K r).boundVars ≠ [] with hrs
  obtain ⟨qs, hqs⟩ : ∃ qs, qs = pats.zipIdx.filter fun q => decide (root q.2 ∈ rs) := ⟨_, rfl⟩
  have hkept : answering pats = qs.map (·.1) := by
    rw [answering, hqs]
    congr 1
    refine List.filter_congr fun q hq => ?_
    rw [decide_eq_decide, ← hanswering q hq, hrs, List.mem_filter, decide_eq_true_eq]
    exact (and_iff_right (hmem.mpr ⟨q, hq, rfl⟩)).symm
  have hsub (q : Pat × Nat) (hq : q ∈ qs) : q ∈ pats.zipIdx := by
    rw [hqs] at hq
    exact (List.mem_filter.mp hq).1
  have hroots (q : Pat × Nat) (hq : q ∈ qs) : root q.2 ∈ rs := by
    rw [hqs] at hq
    exact of_decide_eq_true (List.mem_filter.mp hq).2
  have hapart : Apart root qs := fun q hq q' hq' hne v hv hv' => by
    refine hne ((hroot _ _).mpr (.rel _ _ ⟨v, ?_, ?_⟩))
    · exact mem_zipIdx_uses (hsub q hq) hv
    · exact mem_zipIdx_uses (hsub q' hq') hv'
  have hpart (r : Nat) (hr : r ∈ rs) : part root qs r = part root pats.zipIdx r := by
    rw [hqs]
    refine part_filter fun q _ hq => ?_
    rw [hq]
    exact decide_eq_true hr
  have hgrouped (r : Nat) (hr : r ∈ rs) : Grouped g (part root qs r) (K r) (F r) := by
    rw [hpart r hr]
    exact hF r (List.mem_filter.mp hr).1
  have hnodup : rs.Nodup := (nodup_eraseDups _).filter _
  have hsteps (r : Nat) (hr : r ∈ rs) :
      steps g ⟨fun _ => none, scanTypes g (fun _ => none) (qs.map (·.1))⟩ (part root qs r) = .ok
        (onto (patsVars (part root qs r)) (shape (K r))
          ⟨fun _ => none, scanTypes g (fun _ => none) (qs.map (·.1))⟩, F r) := by
    have hscan := scan_merge (g := g) (hapart.disjoint r) (fun q => decide (root q.2 = r))
      (subset_part r) (subset_rest r) fun _ => none
    have halike : Alike (patsVars (part root qs r))
        ⟨fun _ => none, scanTypes g (fun _ => none) (part root qs r)⟩
        ⟨fun _ => none, scanTypes g (fun _ => none) (qs.map (·.1))⟩ := fun v hv => ⟨rfl, hscan v hv⟩
    exact (LocalStep.eq_ok (steps_local _ fun _ hv => hv) halike (hgrouped r hr).steps).1
  obtain ⟨t, f, hall, hperm⟩ := steps_product hnodup hroots hapart hsteps
  rw [hkept]
  refine ⟨t, f, hall, fun ρ => ?_⟩
  have hdisjoint (r : Nat) (_ : r ∈ rs) (r' : Nat) (_ : r' ∈ rs) (hne : r ≠ r') :
      (patsVars (part root qs r)).Disjoint (patsVars (part root qs r')) := by
    intro v hv hv'
    obtain ⟨q, hq, hv⟩ := mem_patsVars_map.mp hv
    obtain ⟨q', hq', hv'⟩ := mem_patsVars_map.mp hv'
    obtain ⟨hq, hr⟩ := List.mem_filter.mp hq
    obtain ⟨hq', hr'⟩ := List.mem_filter.mp hq'
    rw [decide_eq_true_eq] at hr hr'
    refine hapart q hq q' hq' ?_ hv hv'
    rw [hr, hr']
    exact hne
  have hjoin := (crossJoin_eq hnodup hgrouped hdisjoint ρ).2
  dsimp only
  rw [hscopes, hjoin]
  exact ((hperm (Row.blank g)).map Row.clear).symm

def intLit : Lit → Int
  | .int i => i
  | _ => 0

/-- A graph without a type, whose values are numbers. -/
def bareGraph : Graph Int where
  gid := 1
  st := ⟨⟨TypeCatalog.empty, []⟩, [], [], [], [], []⟩
  roles := []
  hasTid := 0
  attrRows _ := []
  nearest _ := []
  sql :=
    { null := 0
      lit := intLit
      int := id
      name _ := 0
      arith _ a b := a + b
      neg a := -a
      call _ a := a
      cmp _ a b := a = b
      typeOfId a := a
      any ids a := a ∈ ids }

/-- `match let $x = 1; 1 == 2;` -/
def oneEqualsTwo : Query :=
  [.matching [.letVar "x" (.lit (.int 1)), .cmp (.lit (.int 1)) .eq (.lit (.int 2))]]

theorem match_answers_oneEqualsTwo : ∃ p, compileMatch (compilation bareGraph) oneEqualsTwo = .ok p ∧
    ∃ t f, steps bareGraph ⟨fun _ => none, scanTypes bareGraph (fun _ => none)
        (answering (oneEqualsTwo.flatMap Stage.patterns))⟩ (answering (oneEqualsTwo.flatMap Stage.patterns)) =
          .ok (t, f) ∧
      ∀ ρ, (crossJoin bareGraph ρ p.scopes).Perm ((f (Row.blank bareGraph)).map Row.clear) :=
  ⟨_, rfl, match_answers rfl⟩

end Match

end OntologicalDb.TypeqlGroups
