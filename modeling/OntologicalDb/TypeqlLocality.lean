import Mathlib
import OntologicalDb.LocalActions
import OntologicalDb.TypeqlSimulation

/-!
A pattern reads and writes its own variables only, in what is known of them and in the rows.
-/

namespace OntologicalDb.TypeqlLocality

open OntologicalDb.ExceptAgreement
open OntologicalDb.GraphStorage
open OntologicalDb.LocalActions
open OntologicalDb.TypeCatalog
open OntologicalDb.TypeqlCompiler
open OntologicalDb.TypeqlRows
open OntologicalDb.TypeqlSimulation
open OntologicalDb.TypeqlSyntax

variable {α : Type} {g : Graph α} {V : List String} {s s' t : Shape}

section Shapes

/-- The same is known of these variables. -/
def Alike (V : List String) (s s' : Shape) : Prop :=
  ∀ v ∈ V, s.sorts v = s'.sorts v ∧ s.isaTypes v = s'.isaTypes v

/-- What one shape knows of these variables, and another of the rest. -/
def onto (V : List String) (s t : Shape) : Shape :=
  ⟨patch V s.sorts t.sorts, patch V s.isaTypes t.isaTypes⟩

theorem Alike.symm (h : Alike V s s') : Alike V s' s := fun v hv =>
  ⟨(h v hv).1.symm, (h v hv).2.symm⟩

theorem alike_onto (s t : Shape) : Alike V s (onto V s t) := fun v hv =>
  ⟨agreeOn_patch s.sorts t.sorts v hv, agreeOn_patch s.isaTypes t.isaTypes v hv⟩

@[simp] theorem onto_onto (s t u : Shape) : onto V s (onto V t u) = onto V s u := by
  simp [onto]

theorem Alike.onto_eq (h : Alike V s s') : onto V s s' = s' := by
  have hsorts : patch V s.sorts s'.sorts = s'.sorts := AgreeOn.patch_eq fun v hv => (h v hv).1
  have htypes : patch V s.isaTypes s'.isaTypes = s'.isaTypes := AgreeOn.patch_eq fun v hv => (h v hv).2
  rw [onto, hsorts, htypes]

theorem Alike.setType (h : Alike V s s') (v : String) (tid : Int) :
    Alike V (s.setType v tid) (s'.setType v tid) := fun w hw => by
  refine ⟨(h w hw).1, ?_⟩
  by_cases hwv : w = v
  · subst hwv
    simp [Shape.setType]
  · simp [Shape.setType, hwv, (h w hw).2]

theorem onto_bind {v : String} (hv : v ∈ V) (s t : Shape) (k : VarSort) :
    onto V (s.bind v k) t = (onto V s t).bind v k := by
  rw [onto, Shape.bind, patch_update hv]
  rfl

theorem onto_setType {v : String} (hv : v ∈ V) (s t : Shape) (tid : Int) :
    onto V (s.setType v tid) t = (onto V s t).setType v tid := by
  rw [onto, Shape.setType, patch_update hv]
  rfl

end Shapes

section Steps

/-- The step did the same from two shapes that know the same of these variables. -/
structure LocalAt (V : List String) (s' : Shape) (y y' : Shape × Trans α) : Prop where
  shape : y'.1 = onto V y.1 s'
  same : y'.2 = y.2
  acts : Local V y.2

def LocalStep (V : List String) (F : Shape → Except String (Shape × Trans α)) : Prop :=
  ∀ s s', Alike V s s' → Agree (LocalAt V s') (F s) (F s')

variable {y y' z z' : Shape × Trans α}

theorem LocalAt.alike (h : LocalAt V s' y y') : Alike V y.1 y'.1 := by
  rw [h.shape]
  exact alike_onto _ _

theorem LocalAt.stay (h : Alike V s s') : LocalAt (α := α) V s' (s, skip) (s', skip) :=
  ⟨h.onto_eq.symm, rfl, Local.skip⟩

theorem LocalAt.seq (h : LocalAt V s' y y') (h' : LocalAt V y'.1 z z') :
    LocalAt V s' (z.1, andThen y.2 z.2) (z'.1, andThen y'.2 z'.2) := by
  refine ⟨?_, ?_, h.acts.seq h'.acts⟩
  · rw [h'.shape, h.shape, onto_onto]
  · rw [h.same, h'.same]

/-- A last action on the rows. -/
theorem LocalAt.act (h : LocalAt V s' y y') {f : Trans α} (hf : Local V f) :
    LocalAt V s' (y.1, andThen y.2 f) (y'.1, andThen y'.2 f) :=
  have hact : LocalAt V y'.1 (y.1, f) (y'.1, f) := ⟨h.alike.onto_eq.symm, rfl, hf⟩
  h.seq hact

theorem LocalAt.bind (h : LocalAt V s' y y') {v : String} (hv : v ∈ V) (k : VarSort) :
    LocalAt V s' (y.1.bind v k, y.2) (y'.1.bind v k, y'.2) :=
  ⟨by rw [h.shape, ← onto_bind hv], h.same, h.acts⟩

theorem set_patch {r r' : Row α} (h : AgreeOn V r r') {v : String} (hv : v ∈ V) (val id : α) :
    r'.set v val id = patch V (r.set v val id) r' := by
  funext w
  by_cases hw : w = v
  · subst hw
    simp [Row.set, patch, hv, h w hv]
  · by_cases hwV : w ∈ V
    · simp [Row.set, patch, hw, hwV, h w hwV]
    · simp [Row.set, patch, hw, hwV]

theorem addPlayer_patch {r r' : Row α} (h : AgreeOn V r r') {v : String} (hv : v ∈ V) (role player : α) :
    r'.addPlayer v role player = patch V (r.addPlayer v role player) r' := by
  funext w
  by_cases hw : w = v
  · subst hw
    simp [Row.addPlayer, patch, hv, h w hv]
  · by_cases hwV : w ∈ V
    · simp [Row.addPlayer, patch, hw, hwV, h w hwV]
    · simp [Row.addPlayer, patch, hw, hwV]

/-- A variable is bound by each of some items. -/
theorem local_set {β : Type} {items : Row α → List β} {val id : β → α} {v : String} (hv : v ∈ V)
    (hitems : ∀ r r', AgreeOn V r r' → items r = items r') :
    Local V fun r : Row α => (items r).map fun i => r.set v (val i) (id i) :=
  .ofMap hitems fun _ _ i h => set_patch h hv (val i) (id i)

theorem evalExpr_local {e : Expr} (he : exprVars e ⊆ V) {r r' : Row α} (h : AgreeOn V r r') :
    evalExpr g r e = evalExpr g r' e :=
  evalExpr_congr e fun v hv => ⟨congrArg Cell.val (h v (he hv)), congrArg Cell.id (h v (he hv))⟩

theorem ensure_local {var : String} (hv : var ∈ V) : LocalStep V fun s => ensure g s var := by
  intro s s' h
  dsimp only
  unfold ensure
  rw [← (h var hv).1]
  cases s.sorts var with
  | some k =>
      cases k with
      | type => exact .error _
      | thing => exact .ok (.stay h)
  | none =>
      refine .ok ⟨?_, rfl, local_set hv fun _ _ _ => rfl⟩
      dsimp only
      rw [onto_bind hv, h.onto_eq]

mutual

theorem ensureExpr_local : ∀ (e : Expr), exprVars e ⊆ V → LocalStep V fun s => ensureExpr g s e
  | .lit l, _, s, s', h => .ok (.stay h)
  | .var v, he, s, s', h => by
      dsimp only
      unfold ensureExpr
      rw [← (h v (he (List.mem_singleton_self v))).1]
      cases s.sorts v with
      | none => exact .error _
      | some k => exact .ok (.stay h)
  | .attr v a, he, s, s', h => by
      dsimp only
      unfold ensureExpr
      refine (ensure_local (he (List.mem_singleton_self v)) s s' h).bind fun y y' hy => ?_
      exact Agree.same fun _ _ => .ok hy
  | .bin l op e, he, s, s', h => by
      dsimp only
      unfold ensureExpr
      have hl : exprVars l ⊆ V := fun v hv => he (List.mem_append_left _ hv)
      have hr : exprVars e ⊆ V := fun v hv => he (List.mem_append_right _ hv)
      refine (ensureExpr_local l hl s s' h).bind fun y y' hy => ?_
      exact (ensureExpr_local e hr _ _ hy.alike).bind fun z z' hz => .ok (hy.seq hz)
  | .neg e, he, s, s', h => by
      dsimp only
      unfold ensureExpr
      exact ensureExpr_local e he s s' h
  | .call name args, he, s, s', h => by
      dsimp only
      unfold ensureExpr
      refine (ensureArgs_local args he s s' h).bind fun y y' hy => ?_
      exact Agree.same fun _ _ => .ok hy

theorem ensureArgs_local : ∀ (es : List Expr), argVars es ⊆ V → LocalStep V fun s => ensureArgs g s es
  | [], _, s, s', h => .ok (.stay h)
  | e :: es, he, s, s', h => by
      dsimp only
      unfold ensureArgs
      have hhead : exprVars e ⊆ V := fun v hv => he (List.mem_append_left _ hv)
      have htail : argVars es ⊆ V := fun v hv => he (List.mem_append_right _ hv)
      refine (ensureExpr_local e hhead s s' h).bind fun y y' hy => ?_
      exact (ensureArgs_local es htail _ _ hy.alike).bind fun z z' hz => .ok (hy.seq hz)

end

end Steps

section Patterns

theorem isa_local {var : String} (hv : var ∈ V) (ty : String) (exact : Bool) :
    LocalStep V fun s => isaStep g s var ty exact := by
  intro s s' h
  dsimp only
  unfold isaStep
  refine Agree.same fun tid _ => Agree.same fun kind _ => Agree.same fun ids _ => ?_
  have hset := h.setType var tid
  have hsorts : ((s'.setType var tid).sorts var) = (s.setType var tid).sorts var := (h var hv).1.symm
  have hshape : s'.setType var tid = onto V (s.setType var tid) s' := by
    rw [onto_setType hv, h.onto_eq]
  dsimp only
  rw [hsorts]
  cases (s.setType var tid).sorts var with
  | some k =>
      cases k with
      | type => exact .error _
      | thing =>
          refine .ok ⟨hshape, rfl, Local.keep fun r r' hr => ?_⟩
          rw [hr var hv]
  | none =>
      have hbind : (s'.setType var tid).bind var .thing = onto V ((s.setType var tid).bind var .thing) s' := by
        rw [onto_bind hv, hshape]
      dsimp only
      by_cases hkind : kind = .attribute
      · rw [if_pos hkind, if_pos hkind]
        exact Agree.same fun src _ => .ok ⟨hbind, rfl, local_set hv fun _ _ _ => rfl⟩
      · rw [if_neg hkind, if_neg hkind]
        exact .ok ⟨hbind, rfl, local_set hv fun _ _ _ => rfl⟩

/-- The condition on an owned attribute reads these variables only. -/
structure AsksLocal (V : List String) (s' : Shape)
    (y y' : Shape × Trans α × (Row α → Int × α → Bool) × Option String) : Prop where
  step : LocalAt V s' (y.1, y.2.1) (y'.1, y'.2.1)
  same : y'.2.2 = y.2.2
  reads : ∀ r r', AgreeOn V r r' → y.2.2.1 r = y.2.2.1 r'
  mem : ∀ v, y.2.2.2 = some v → v ∈ V

theorem value_local {val : HasVal} (hval : val.vars ⊆ V) (s s' : Shape) (h : Alike V s s') :
    Agree (AsksLocal V s') (valueStep g s val) (valueStep g s' val) := by
  cases val with
  | any => exact .ok ⟨.stay h, rfl, fun _ _ _ => rfl, fun v hv => (Option.some_ne_none v hv.symm).elim⟩
  | var v =>
      have hv : v ∈ V := hval (List.mem_singleton_self v)
      unfold valueStep
      dsimp only
      rw [← (h v hv).1]
      cases s.sorts v with
      | none => exact .ok ⟨.stay h, rfl, fun _ _ _ => rfl, fun w hw => Option.some.inj hw ▸ hv⟩
      | some k =>
          cases k with
          | type => exact .error _
          | thing =>
              refine .ok ⟨.stay h, rfl, fun r r' hr => ?_, fun w hw => (Option.some_ne_none w hw.symm).elim⟩
              dsimp only
              rw [hr v hv]
  | cmp op e =>
      unfold valueStep
      refine (ensureExpr_local e hval s s' h).bind fun y y' hy => ?_
      refine .ok ⟨hy, rfl, fun r r' hr => ?_, fun w hw => (Option.some_ne_none w hw.symm).elim⟩
      dsimp only
      rw [evalExpr_local hval hr]

theorem has_local {owner : String} {val : HasVal} (ho : owner ∈ V) (hval : val.vars ⊆ V)
    (attr : Option String) : LocalStep V fun s => hasStep g s owner attr val := by
  intro s s' h
  dsimp only
  unfold hasStep
  refine (ensure_local ho s s' h).bind fun y y' hy => ?_
  obtain ⟨s₁, f₁⟩ := y
  obtain ⟨s₁', f₁'⟩ := y'
  cases attr with
  | none => exact .error _
  | some attrName =>
      refine Agree.same fun tids _ => Agree.same fun tid _ => Agree.same fun kind _ => ?_
      by_cases hkind : kind ≠ .attribute
      · rw [if_pos hkind, if_pos hkind]
        exact .error _
      rw [if_neg hkind, if_neg hkind]
      refine Agree.same fun src _ => (value_local hval s₁ s₁' hy.alike).bind fun z z' hz => ?_
      obtain ⟨s₂, f₂, cond, bindVar⟩ := z
      obtain ⟨s₂', f₂', cond', bindVar'⟩ := z'
      obtain ⟨rfl, rfl⟩ := Prod.mk.inj hz.same
      have hitems (r r' : Row α) (hr : AgreeOn V r r') :
          (ownedRows g tids src (r owner).id).filter (cond' r) =
            (ownedRows g tids src (r' owner).id).filter (cond' r') := by
        rw [hr owner ho]
        exact congrArg (fun p => List.filter p _) (hz.reads r r' hr)
      cases bindVar' with
      | none =>
          have hact : Local V fun r : Row α =>
              ((ownedRows g tids src (r owner).id).filter (cond' r)).map fun _ => r :=
            .ofMap hitems fun _ _ _ hr => hr.patch_eq.symm
          exact .ok (hy.seq (hz.step.act hact))
      | some v =>
          have hv : v ∈ V := hz.mem v rfl
          exact .ok (hy.seq ((hz.step.act (local_set hv hitems)).bind hv .thing))

theorem role_local {rel player : String} (hrel : rel ∈ V) (hplayer : player ∈ V) (role : Option String) :
    LocalStep V fun s => roleStep g s rel role player := by
  intro s s' h
  dsimp only
  unfold roleStep
  refine (ensure_local hrel s s' h).bind fun y y' hy => ?_
  refine (ensure_local hplayer _ _ hy.alike).bind fun z z' hz => ?_
  have htypes : z'.1.isaTypes rel = z.1.isaTypes rel := (hz.alike rel hrel).2.symm
  obtain ⟨s₂, f₂⟩ := z
  obtain ⟨s₂', f₂'⟩ := z'
  dsimp only at htypes ⊢
  rw [htypes]
  refine Agree.same fun ids _ => ?_
  by_cases hids : ids = []
  · rw [if_pos hids, if_pos hids]
    exact .error _
  rw [if_neg hids, if_neg hids]
  have hitems (r r' : Row α) (hr : AgreeOn V r r') :
      (g.st.ogRolePlayer.filter fun p => playerFits g r ids rel role player p) =
        g.st.ogRolePlayer.filter fun p => playerFits g r' ids rel role player p := by
    refine List.filter_congr fun p _ => ?_
    rw [playerFits, playerFits, hr rel hrel, hr player hplayer]
  have hact : Local V fun r : Row α =>
      (g.st.ogRolePlayer.filter fun p => playerFits g r ids rel role player p).map fun p =>
        r.addPlayer rel (g.sql.int p.roleId) (g.sql.int p.playerId) :=
    .ofMap hitems fun _ _ p hr => addPlayer_patch hr hrel (g.sql.int p.roleId) (g.sql.int p.playerId)
  exact .ok (hy.seq (hz.act hact))

mutual

/-- Learning the types touches the variables of a pattern only. -/
theorem scanType_patch : ∀ (p : Pat), varsOf p ⊆ V → ∀ types types' : String → Option Int,
    AgreeOn V types types' → scanType g types' p = patch V (scanType g types p) types'
  | .isa var ty _, hp, types, types', h | .isaAnon var ty, hp, types, types', h => by
      unfold scanType
      cases tryTypeId g.catalog g.gid ty with
      | none => exact h.patch_eq.symm
      | some tid =>
          dsimp only
          rw [patch_update (hp (List.mem_singleton_self var)), h.patch_eq]
  | .has _ _ _, _, types, types', h | .role _ _ _, _, types, types', h | .cmp _ _ _, _, types, types', h
  | .letVar _ _, _, types, types', h | .sub _ _ _, _, types, types', h | .label _ _, _, types, types', h => by
      unfold scanType
      exact h.patch_eq.symm
  | .not inner, hp, types, types', h => by
      unfold scanType
      exact scanTypes_patch inner hp types types' h
  | .or branches, hp, types, types', h => by
      unfold scanType
      exact scanBranches_patch branches hp types types' h

theorem scanTypes_patch : ∀ (pats : List Pat), patsVars pats ⊆ V → ∀ types types' : String → Option Int,
    AgreeOn V types types' → scanTypes g types' pats = patch V (scanTypes g types pats) types'
  | [], _, types, types', h => by
      unfold scanTypes
      exact h.patch_eq.symm
  | p :: ps, hp, types, types', h => by
      unfold scanTypes
      have hhead := scanType_patch p (fun v hv => hp (List.mem_append_left _ hv)) types types' h
      rw [hhead, scanTypes_patch ps (fun v hv => hp (List.mem_append_right _ hv)) (scanType g types p) _
        (agreeOn_patch _ _), patch_patch]

theorem scanBranches_patch : ∀ (branches : List (List Pat)), branchVars branches ⊆ V →
    ∀ types types' : String → Option Int, AgreeOn V types types' →
      scanBranches g types' branches = patch V (scanBranches g types branches) types'
  | [], _, types, types', h => by
      unfold scanBranches
      exact h.patch_eq.symm
  | b :: bs, hp, types, types', h => by
      unfold scanBranches
      have hhead := scanTypes_patch b (fun v hv => hp (List.mem_append_left _ hv)) types types' h
      rw [hhead, scanBranches_patch bs (fun v hv => hp (List.mem_append_right _ hv)) (scanTypes g types b) _
        (agreeOn_patch _ _), patch_patch]

end

/-- The shape a nested query starts from. -/
theorem alike_nested {pats : List Pat} (hp : patsVars pats ⊆ V) (h : Alike V s s') :
    Alike V ⟨s.sorts, scanTypes g s.isaTypes pats⟩ ⟨s'.sorts, scanTypes g s'.isaTypes pats⟩ := fun v hv => by
  refine ⟨(h v hv).1, ?_⟩
  have hscan := scanTypes_patch (g := g) pats hp s.isaTypes s'.isaTypes fun v hv => (h v hv).2
  dsimp only
  rw [hscan]
  exact agreeOn_patch _ _ v hv

theorem agreeOn_clear {r r' : Row α} (h : AgreeOn V r r') : AgreeOn V r.clear r'.clear := fun v hv => by
  rw [Row.clear, Row.clear, h v hv]

/-- Whether a nested query has rows is read off its own variables. -/
theorem isEmpty_local {f : Trans α} (hf : Local V f) {r r' : Row α} (h : AgreeOn V r r') :
    (f r'.clear).isEmpty = (f r.clear).isEmpty := by
  rw [hf r.clear r'.clear (agreeOn_clear h), List.isEmpty_map]

mutual

theorem step_local : ∀ (p : Pat), varsOf p ⊆ V → LocalStep V fun s => step g s p
  | .isa var ty exact, hp, s, s', h => by
      dsimp only
      unfold step
      exact isa_local (hp (List.mem_singleton_self var)) ty exact s s' h
  | .isaAnon var ty, hp, s, s', h => by
      dsimp only
      unfold step
      exact isa_local (hp (List.mem_singleton_self var)) ty false s s' h
  | .has owner attr val, hp, s, s', h => by
      dsimp only
      unfold step
      exact has_local (hp List.mem_cons_self) (fun v hv => hp (List.mem_cons_of_mem _ hv)) attr s s' h
  | .role rel role player, hp, s, s', h => by
      dsimp only
      unfold step
      exact role_local (hp List.mem_cons_self) (hp (List.mem_cons_of_mem _ (List.mem_singleton_self player)))
        role s s' h
  | .cmp lhs op rhs, hp, s, s', h => by
      dsimp only
      unfold step
      have hl : exprVars lhs ⊆ V := fun v hv => hp (List.mem_append_left _ hv)
      have hr : exprVars rhs ⊆ V := fun v hv => hp (List.mem_append_right _ hv)
      refine (ensureExpr_local lhs hl s s' h).bind fun y y' hy => ?_
      refine (ensureExpr_local rhs hr _ _ hy.alike).bind fun z z' hz => ?_
      refine .ok (hy.seq (hz.act (Local.keep fun r r' hrow => ?_)))
      rw [evalExpr_local hl hrow, evalExpr_local hr hrow]
  | .letVar var e, hp, s, s', h => by
      dsimp only
      unfold step
      have he : exprVars e ⊆ V := fun v hv => hp (List.mem_cons_of_mem _ hv)
      have hv : var ∈ V := hp List.mem_cons_self
      refine (ensureExpr_local e he s s' h).bind fun y y' hy => ?_
      have hact : Local V fun r : Row α => [r.set var (evalExpr g r e) (evalExpr g r e)] := fun r r' hr => by
        dsimp only
        rw [← evalExpr_local he hr, List.map_singleton, ← set_patch hr hv]
      exact .ok ((hy.act hact).bind hv .thing)
  | .not inner, hp, s, s', h => by
      dsimp only
      unfold step
      refine (steps_local inner hp _ _ (alike_nested hp h)).bind fun y y' hy => ?_
      obtain ⟨t, f⟩ := y
      obtain ⟨t', f'⟩ := y'
      obtain rfl : f' = f := hy.same
      exact .ok ⟨h.onto_eq.symm, rfl, Local.keep fun r r' hr => (isEmpty_local hy.acts hr).symm⟩
  | .or branches, hp, s, s', h => by
      dsimp only
      unfold step
      refine (branches_local branches hp s s' h).bind fun fs fs' hfs => ?_
      obtain ⟨rfl, hlocal⟩ := hfs
      refine .ok ⟨h.onto_eq.symm, rfl, Local.keep fun r r' hr => ?_⟩
      rw [Bool.eq_iff_iff, List.any_eq_true, List.any_eq_true]
      refine exists_congr fun f => and_congr_right fun hf => ?_
      rw [isEmpty_local (hlocal f hf) hr]
  | .sub var ty exact, hp, s, s', h => by
      dsimp only
      unfold step
      have hv : var ∈ V := hp (List.mem_singleton_self var)
      refine Agree.same fun ids _ => .ok ⟨?_, rfl, local_set hv fun _ _ _ => rfl⟩
      dsimp only
      rw [onto_bind hv, h.onto_eq]
  | .label var name, hp, s, s', h => by
      have hv : var ∈ V := hp (List.mem_singleton_self var)
      dsimp only
      unfold step
      rw [← (h var hv).1]
      cases s.sorts var with
      | none => exact .error _
      | some k =>
          cases k with
          | thing => exact .error _
          | type =>
              refine .ok ⟨h.onto_eq.symm, rfl, Local.keep fun r r' hr => ?_⟩
              rw [hr var hv]

theorem steps_local : ∀ (pats : List Pat), patsVars pats ⊆ V → LocalStep V fun s => steps g s pats
  | [], _, s, s', h => by
      dsimp only
      unfold steps
      exact .ok (.stay h)
  | p :: ps, hp, s, s', h => by
      dsimp only
      unfold steps
      refine (step_local p (fun v hv => hp (List.mem_append_left _ hv)) s s' h).bind fun y y' hy => ?_
      refine (steps_local ps (fun v hv => hp (List.mem_append_right _ hv)) _ _ hy.alike).bind fun z z' hz => ?_
      exact .ok (hy.seq hz)

theorem branches_local : ∀ (branches : List (List Pat)), branchVars branches ⊆ V → ∀ s s', Alike V s s' →
    Agree (fun fs fs' => fs' = fs ∧ ∀ f ∈ fs, Local V f) (branchSteps g s branches)
      (branchSteps g s' branches)
  | [], _, s, s', _ => by
      unfold branchSteps
      exact .ok ⟨rfl, fun _ hf => (List.not_mem_nil hf).elim⟩
  | b :: bs, hp, s, s', h => by
      unfold branchSteps
      have hb : patsVars b ⊆ V := fun v hv => hp (List.mem_append_left _ hv)
      have hbs : branchVars bs ⊆ V := fun v hv => hp (List.mem_append_right _ hv)
      refine (steps_local b hb _ _ (alike_nested hb h)).bind fun y y' hy => ?_
      refine (branches_local bs hbs s s' h).bind fun fs fs' hfs => .ok ⟨?_, fun f hf => ?_⟩
      · rw [hfs.1, hy.same]
      · rcases List.mem_cons.mp hf with rfl | hf
        · exact hy.acts
        · exact hfs.2 f hf

end

end Patterns

end OntologicalDb.TypeqlLocality
