import Mathlib
import OntologicalDb.TypeqlRows

/-!
The compiled query computes what the patterns ask of variables: every step of the compiler
does to its rows, read through the bindings, what the step on rows without aliases does.
-/

namespace OntologicalDb.TypeqlSimulation

open OntologicalDb.ExceptAgreement
open OntologicalDb.TypeqlCompiler
open OntologicalDb.TypeqlRows
open OntologicalDb.TypeqlSyntax

variable {α : Type} (g : Graph α)

section Views

/-- The variables of a scope, read through the bindings. -/
def view (c : Compiler α) (ρ : Scope α) : Row α := fun v =>
  { val := ((c.binds.lookup v).map (·.val ρ)).getD g.sql.null
    id := ((c.binds.lookup v).map (·.id ρ)).getD g.sql.null
    players := (c.roleAliases.filter fun r => r.1 = v).map fun r => (ρ r.2 "role_id", ρ r.2 "player_id") }

def sortOf (b : Bind α) : VarSort := if b.isType then .type else .thing

def shape (c : Compiler α) : Shape := ⟨fun v => (c.binds.lookup v).map sortOf, c.isaTypes⟩

/-- Nothing that was compiled reads this alias. -/
structure Ignores (c : Compiler α) (a : Nat) : Prop where
  view : ∀ (ρ : Scope α) row, TypeqlSimulation.view g c (Function.update ρ a row) = TypeqlSimulation.view g c ρ
  wheres : ∀ w ∈ c.wheres, ∀ ρ row, w (Function.update ρ a row) = w ρ

/-- Only aliases that were handed out are read. -/
def Sound (c : Compiler α) : Prop := ∀ a, c.n < a → Ignores g c a

/-- The compiler went on, and its rows, read through the bindings, went through a step. -/
structure Steps (c c' : Compiler α) (f : Trans α) : Prop where
  le : c.n ≤ c'.n
  ignores : ∀ a, Ignores g c a → a ≤ c.n ∨ c'.n < a → Ignores g c' a
  rows : ∀ ρ, (c'.rows ρ).map (view g c') = ((c.rows ρ).map (view g c)).flatMap f

variable {g} {c c' c₂ c₃ : Compiler α} {f h : Trans α} {v : String} {b : Bind α}

theorem Steps.sound (hs : Steps g c c' f) (hc : Sound g c) : Sound g c' := fun a ha =>
  hs.ignores a (hc a (hs.le.trans_lt ha)) (.inr ha)

theorem Steps.trans (hs : Steps g c c' f) (hs' : Steps g c' c₂ h) : Steps g c c₂ (andThen f h) := by
  refine ⟨hs.le.trans hs'.le, fun a ha hout => ?_, fun ρ => ?_⟩
  · have hle := hs.le
    have hle' := hs'.le
    exact hs'.ignores a (hs.ignores a ha (by omega)) (by omega)
  · rw [hs'.rows, hs.rows, List.flatMap_assoc]
    rfl

theorem Steps.refl (c : Compiler α) : Steps g c c skip :=
  ⟨le_rfl, fun _ ha _ => ha, fun _ => (List.flatMap_singleton' _).symm⟩

theorem Steps.of_skip (hs : Steps g c c' (andThen skip f)) : Steps g c c' f := by
  rwa [skip_andThen] at hs

@[simp] theorem view_pushFrom {a : Nat} {rows : Scope α → List (String → α)} :
    view g (c.pushFrom a rows) = view g c := rfl

@[simp] theorem view_pushWhere {cond : Scope α → Bool} : view g (c.pushWhere cond) = view g c := rfl

@[simp] theorem view_fresh : view g c.fresh = view g c := rfl

theorem view_bind (ρ : Scope α) : view g (c.bind v b) ρ = (view g c ρ).set v (b.val ρ) (b.id ρ) := by
  funext w
  by_cases hw : w = v
  · subst hw
    simp [view, Compiler.bind, Row.set]
  · simp [view, Compiler.bind, Row.set, hw]

theorem view_nested (types : String → Option Int) :
    view g { c.nested with isaTypes := types } = fun ρ => (view g c ρ).clear := rfl

theorem shape_bind : shape (c.bind v b) = (shape c).bind v (sortOf b) := by
  simp only [shape, Shape.bind, Shape.mk.injEq]
  refine ⟨?_, rfl⟩
  funext w
  by_cases hw : w = v
  · subst hw
    simp [Compiler.bind]
  · simp [Compiler.bind, hw]

theorem rows_pushWhere (cond : Scope α → Bool) (ρ : Scope α) :
    (c.pushWhere cond).rows ρ = (c.rows ρ).filter cond := by
  simp only [Compiler.rows, Compiler.pushWhere, List.filter_filter, List.all_append, List.all_cons,
    List.all_nil, Bool.and_true]
  refine List.filter_congr fun ρ' _ => ?_
  exact Bool.and_comm _ _

/-- A `FROM` entry whose alias no condition reads joins its rows to those there are. -/
theorem rows_pushFrom {a : Nat} {R : Scope α → List (String → α)}
    (ha : ∀ w ∈ c.wheres, ∀ ρ row, w (Function.update ρ a row) = w ρ) (ρ : Scope α) :
    (c.pushFrom a R).rows ρ = (c.rows ρ).flatMap fun ρ => (R ρ).map (Function.update ρ a) := by
  simp only [Compiler.rows, Compiler.pushFrom, List.foldl_append, List.foldl_cons, List.foldl_nil]
  have hcond (ρ' : Scope α) (row : String → α) :
      c.wheres.all (fun w => w (Function.update ρ' a row)) = c.wheres.all (fun w => w ρ') := by
    rw [Bool.eq_iff_iff, List.all_eq_true, List.all_eq_true]
    exact forall₂_congr fun w hw => by rw [ha w hw]
  generalize c.fromItems.foldl _ [ρ] = joined
  induction joined with
  | nil => rfl
  | cons ρ' joined ih =>
      rw [List.flatMap_cons, List.filter_append, ih, List.filter_cons, List.filter_map]
      by_cases hρ : c.wheres.all (fun w => w ρ') = true
      · simp [Function.comp_def, hcond, hρ]
      · simp [Function.comp_def, hcond, hρ]

end Views

section Moves

variable {g} {c c' c₂ c₃ : Compiler α} {f h k : Trans α} {v : String}

theorem flatMap_keep (cond : Row α → Bool) (rows : List (Row α)) :
    rows.flatMap (keep cond) = rows.filter cond := by
  induction rows with
  | nil => rfl
  | cons r rows ih =>
      rw [List.flatMap_cons, ih, List.filter_cons, keep]
      split
      · rfl
      · rfl

/-- A condition on variables that are bound. -/
theorem Steps.keep {cond' : Scope α → Bool} {cond : Row α → Bool}
    (hcond : ∀ ρ, cond' ρ = cond (view g c ρ)) : Steps g c (c.pushWhere cond') (TypeqlRows.keep cond) := by
  refine ⟨le_rfl, fun a ha _ => ⟨ha.view, fun w hw ρ row => ?_⟩, fun ρ => ?_⟩
  · rcases List.mem_append.mp hw with hw | hw
    · exact ha.wheres w hw ρ row
    · obtain rfl := List.mem_singleton.mp hw
      rw [hcond, hcond, ha.view]
  · rw [rows_pushWhere, flatMap_keep, List.filter_map]
    have heq : cond' = cond ∘ view g c := funext hcond
    rw [heq]
    rfl

/-- A value that is computed from variables that are bound. -/
theorem Steps.value {e : SqlExpr α} {e' : Row α → α} (he : ∀ ρ, e ρ = e' (view g c ρ)) :
    Steps g c (c.bind v (.value e)) fun r => [r.set v (e' r) (e' r)] := by
  have hview (ρ : Scope α) : view g (c.bind v (.value e)) ρ =
      (view g c ρ).set v (e' (view g c ρ)) (e' (view g c ρ)) := by
    rw [view_bind, ← he]
    rfl
  refine ⟨le_rfl, fun a ha _ => ⟨fun ρ row => ?_, ha.wheres⟩, fun ρ => ?_⟩
  · rw [hview, hview, ha.view]
  · rw [List.flatMap_map, ← List.map_eq_flatMap]
    exact List.map_congr_left fun ρ' _ => hview ρ'

theorem Steps.setType (c : Compiler α) (v : String) (tid : Int) : Steps g c (c.setType v tid) skip :=
  ⟨le_rfl, fun _ ha _ => ⟨ha.view, ha.wheres⟩, (Steps.refl c).rows⟩

/-- An alias that was handed out gets its rows, and conditions on them; in between the compiler
may have gone on. -/
theorem Steps.join {R : Scope α → List (String → α)} {W : List (Scope α → Bool)}
    (hs : Steps g c.fresh c₂ k) (hc : Sound g c) (hn : c₃.n = c₂.n)
    (hfrom : c₃.fromItems = c₂.fromItems ++ [⟨c.n + 1, R⟩]) (hwheres : c₃.wheres = c₂.wheres ++ W)
    (hview : ∀ a, a ≠ c.n + 1 → Ignores g c₂ a → Ignores g c₃ a)
    (hrows : ∀ ρ, (((R ρ).map (Function.update ρ (c.n + 1))).filter fun ρ => W.all (· ρ)).map (view g c₃) =
      f (view g c₂ ρ)) : Steps g c c₃ (andThen k f) := by
  have hfresh (a : Nat) (ha : Ignores g c a) : Ignores g c.fresh a := ⟨ha.view, ha.wheres⟩
  have hle : c.n + 1 ≤ c₂.n := hs.le
  have hown : Ignores g c₂ (c.n + 1) := hs.ignores _ (hfresh _ (hc _ (Nat.lt_succ_self _))) (.inl le_rfl)
  refine ⟨by omega, fun a ha hout => ?_, fun ρ => ?_⟩
  · have hne : a ≠ c.n + 1 := by omega
    refine hview a hne (hs.ignores a (hfresh a ha) ?_)
    have hn' : c.fresh.n = c.n + 1 := rfl
    omega
  · have hjoined : c₃.rows ρ = (c₂.rows ρ).flatMap fun ρ' =>
        ((R ρ').map (Function.update ρ' (c.n + 1))).filter fun ρ => W.all (· ρ) := by
      have hpushed := rows_pushFrom (c := c₂) (a := c.n + 1) (R := R) hown.wheres ρ
      have hfilter : c₃.rows ρ = ((c₂.pushFrom (c.n + 1) R).rows ρ).filter
          fun ρ => W.all (· ρ) := by
        simp only [Compiler.rows, hfrom, hwheres, Compiler.pushFrom, List.filter_filter, List.all_append]
        exact List.filter_congr fun ρ' _ => Bool.and_comm _ _
      rw [hfilter, hpushed, List.filter_flatMap]
    rw [hjoined, List.map_flatMap]
    have hsame : (c.fresh.rows ρ).map (view g c.fresh) = (c.rows ρ).map (view g c) := rfl
    have hmap : (c₂.rows ρ).flatMap (fun ρ' => (((R ρ').map (Function.update ρ' (c.n + 1))).filter
        fun ρ => W.all (· ρ)).map (view g c₃)) = ((c₂.rows ρ).map (view g c₂)).flatMap f := by
      rw [List.flatMap_map]
      exact List.flatMap_congr fun ρ' _ => hrows ρ'
    rw [hmap, hs.rows, hsame, List.flatMap_assoc]
    rfl

end Moves

section Reads

variable {g} {c c' c₂ : Compiler α} {f h : Trans α} {v : String} {a : Nat} {b : Bind α}

theorem Ignores.bind (ha : Ignores g c a) (hval : ∀ ρ row, b.val (Function.update ρ a row) = b.val ρ)
    (hid : ∀ ρ row, b.id (Function.update ρ a row) = b.id ρ) : Ignores g (c.bind v b) a := by
  refine ⟨fun ρ row => ?_, ha.wheres⟩
  rw [view_bind, view_bind, hval, hid, ha.view]

/-- A variable that is bound to another alias. -/
theorem Ignores.bindAlias {k : Nat} (ha : Ignores g c a) (hne : a ≠ k)
    (hb : b = .inst k ∨ (∃ tids, b = .attr k tids) ∨ b = .type k) : Ignores g (c.bind v b) a := by
  have hother (ρ : Scope α) (row : String → α) (col : String) :
      Function.update ρ a row k col = ρ k col := by
    rw [Function.update_of_ne hne.symm]
  rcases hb with rfl | ⟨tids, rfl⟩ | rfl
  · exact ha.bind (fun ρ row => hother ρ row "id") fun ρ row => hother ρ row "id"
  · exact ha.bind (fun ρ row => hother ρ row "val") fun ρ row => hother ρ row "id"
  · exact ha.bind (fun ρ row => hother ρ row "name") fun ρ row => hother ρ row "type_id"

theorem Ignores.pushFrom {rows : Scope α → List (String → α)} {b : Nat} (ha : Ignores g c a) :
    Ignores g (c.pushFrom b rows) a := ⟨ha.view, ha.wheres⟩

/-- The compiler went on without binding anew, these variables are bound, and rows without
aliases went on with it. -/
structure Went (c : Compiler α) (vars : List String) (c' : Compiler α) (y : Shape × Trans α) : Prop where
  shape : y.1 = TypeqlSimulation.shape c'
  steps : Steps g c c' y.2
  grows : ∀ v b, c.binds.lookup v = some b → c'.binds.lookup v = some b
  bound : ∀ v ∈ vars, (c'.binds.lookup v).isSome

/-- An SQL expression for a value of variables. -/
structure Read (c : Compiler α) (vars : List String) (val : Row α → α) (x : Compiler α × SqlExpr α)
    (y : Shape × Trans α) : Prop extends Went (g := g) c vars x.1 y where
  value : ∀ ρ, x.2 ρ = val (view g x.1 ρ)

structure ReadArgs (c : Compiler α) (es : List Expr) (x : Compiler α × List (SqlExpr α))
    (y : Shape × Trans α) : Prop extends Went (g := g) c (argVars es) x.1 y where
  values : ∀ ρ, x.2.map (fun s => s ρ) = evalArgs g (view g x.1 ρ) es

theorem Went.refl {vars : List String} (h : ∀ v ∈ vars, (c.binds.lookup v).isSome) :
    Went (g := g) c vars c (TypeqlSimulation.shape c, skip) :=
  ⟨rfl, .refl c, fun _ _ h => h, h⟩

theorem Went.trans {vars vars' : List String} {y y' : Shape × Trans α} (h : Went (g := g) c vars c' y)
    (h' : Went (g := g) c' vars' c₂ y') : Went (g := g) c (vars ++ vars') c₂ (y'.1, andThen y.2 y'.2) := by
  refine ⟨h'.shape, h.steps.trans h'.steps, fun v b hb => h'.grows v b (h.grows v b hb), fun v hv => ?_⟩
  rcases List.mem_append.mp hv with hv | hv
  · obtain ⟨b, hb⟩ := Option.isSome_iff_exists.mp (h.bound v hv)
    rw [h'.grows v b hb]
    rfl
  · exact h'.bound v hv

/-- What was bound is read as before. -/
theorem Went.same {vars : List String} {y : Shape × Trans α} (h : Went (g := g) c vars c' y)
    (hv : (c.binds.lookup v).isSome) (ρ : Scope α) :
    (view g c' ρ v).val = (view g c ρ v).val ∧ (view g c' ρ v).id = (view g c ρ v).id := by
  obtain ⟨b, hb⟩ := Option.isSome_iff_exists.mp hv
  simp [view, hb, h.grows v b hb]

theorem sorts_shape (c : Compiler α) (v : String) :
    (shape c).sorts v = (c.binds.lookup v).map sortOf := rfl

theorem ensure_agrees (hc : Sound g c) (var : String) :
    Agree (Read (g := g) c [var] fun r => (r var).id) (ensureInstance g c var) (ensure g (shape c) var) := by
  unfold ensureInstance ensure
  rw [sorts_shape]
  cases hb : c.binds.lookup var with
  | some b =>
      cases hsort : b.isType with
      | true => simpa [sortOf, hsort] using Agree.error _
      | false =>
          simp only [sortOf, hsort, Option.map_some, Bool.false_eq_true, if_false]
          refine .ok ⟨.refl fun v hv => ?_, fun ρ => ?_⟩
          · obtain rfl := List.mem_singleton.mp hv
            rw [hb]
            rfl
          · simp [view, hb]
  | none =>
      simp only [Option.map_none]
      have hnew : Ignores g c c.fresh.n := hc _ (Nat.lt_succ_self _)
      have hself (ρ : Scope α) (row : String → α) :
          view g ((c.fresh.pushFrom c.fresh.n fun _ => nodeRows g).bind var (.inst c.fresh.n))
            (Function.update ρ c.fresh.n row) = (view g c ρ).set var (row "id") (row "id") := by
        rw [view_bind, view_pushFrom, view_fresh, hnew.view]
        simp [Bind.val, Bind.id]
      refine .ok ⟨⟨?_, ?_, fun w b hw => ?_, fun v hv => ?_⟩, fun ρ => ?_⟩
      · rw [shape_bind]
        rfl
      · refine Steps.of_skip (Steps.join (R := fun _ => nodeRows g) (W := []) (.refl _) hc rfl rfl
          (List.append_nil _).symm (fun a hne ha => ?_) fun ρ => ?_)
        · exact ha.pushFrom.bindAlias hne (.inl rfl)
        · simp only [List.all_nil, List.filter_true, List.map_map, nodeRows]
          refine List.map_congr_left fun n _ => ?_
          refine (hself ρ _).trans ?_
          simp [columns]
      · have hne : w ≠ var := by
          rintro rfl
          rw [hb] at hw
          cases hw
        exact (AList.lookup_insert_ne hne).trans hw
      · obtain rfl := List.mem_singleton.mp hv
        simp [Compiler.bind]
      · rw [view_bind]
        simp [Row.set, Bind.id]

/-- Two rows in which variables have the same values and identities. -/
def SameOn (vars : List String) (r r' : Row α) : Prop :=
  ∀ v ∈ vars, (r v).val = (r' v).val ∧ (r v).id = (r' v).id

mutual

theorem evalExpr_congr {r r' : Row α} : ∀ e : Expr, SameOn (exprVars e) r r' →
    evalExpr g r e = evalExpr g r' e
  | .lit _, _ => rfl
  | .var v, h => (h v (List.mem_singleton_self v)).1
  | .attr v a, h => congrArg (ownedScalar g a) (h v (List.mem_singleton_self v)).2
  | .bin l op e, h => by
      rw [evalExpr, evalExpr, evalExpr_congr l fun v hv => h v (List.mem_append_left _ hv),
        evalExpr_congr e fun v hv => h v (List.mem_append_right _ hv)]
  | .neg e, h => congrArg g.sql.neg (evalExpr_congr e h)
  | .call _ args, h => by rw [evalExpr, evalExpr, evalArgs_congr args h]

theorem evalArgs_congr {r r' : Row α} : ∀ es : List Expr, SameOn (argVars es) r r' →
    evalArgs g r es = evalArgs g r' es
  | [], _ => rfl
  | e :: es, h => by
      rw [evalArgs, evalArgs, evalExpr_congr e fun v hv => h v (List.mem_append_left _ hv),
        evalArgs_congr es fun v hv => h v (List.mem_append_right _ hv)]

end

theorem Steps.fresh (hs : Steps g c c' f) : Steps g c c'.fresh f := by
  have hle : c'.n < c'.fresh.n := Nat.lt_succ_self _
  refine ⟨hs.le.trans hle.le, fun a ha hout => ?_, hs.rows⟩
  have hkept := hs.ignores a ha (by omega)
  exact ⟨hkept.view, hkept.wheres⟩

theorem attrScalar_agrees (hc : Sound g c) (v attr : String) :
    Agree (Read (g := g) c [v] fun r => ownedScalar g attr (r v).id) (attrScalar g c v attr) (do
      let (s, f) ← ensure g (shape c) v
      let _ ← attrSource g attr
      return (s, f)) := by
  unfold attrScalar
  refine (ensure_agrees hc v).bind fun x y hread => ?_
  obtain ⟨c', owner⟩ := x
  cases htids : typeSet g attr false with
  | error e =>
      simp only [attrSource, htids]
      exact .error e
  | ok tids =>
      cases hsrc : concreteAttrTables g tids with
      | error e =>
          simp only [attrSource, htids, hsrc, bind, Except.bind]
          exact .error e
      | ok src =>
          have hscalar : attrSource g attr = .ok (tids, src) := by
            simp only [attrSource, htids, hsrc, bind, Except.bind, pure, Except.pure]
          simp only [hscalar, hsrc, bind, Except.bind, pure, Except.pure]
          refine .ok ⟨⟨hread.shape, hread.steps.fresh, hread.grows, hread.bound⟩, fun ρ => ?_⟩
          have howner := hread.value ρ
          simp only [ownedScalar, hscalar]
          dsimp only at howner ⊢
          rw [howner]
          rfl

mutual

theorem expr_agrees : ∀ (e : Expr) {c : Compiler α}, Sound g c →
    Agree (Read (g := g) c (exprVars e) fun r => evalExpr g r e) (compileExpr g c e)
      (ensureExpr g (shape c) e)
  | .lit l, c, _ => .ok ⟨.refl fun _ hv => (List.not_mem_nil hv).elim, fun _ => rfl⟩
  | .var v, c, _ => by
      unfold compileExpr ensureExpr
      rw [sorts_shape]
      cases hb : c.binds.lookup v with
      | none => exact .error _
      | some b =>
          refine .ok ⟨.refl fun w hw => ?_, fun ρ => ?_⟩
          · obtain rfl := List.mem_singleton.mp hw
            rw [hb]
            rfl
          · simp [evalExpr, view, hb]
  | .attr v a, c, hc => by
      unfold compileExpr ensureExpr
      exact attrScalar_agrees hc v a
  | .bin l op e, c, hc => by
      unfold compileExpr ensureExpr
      refine (expr_agrees l hc).bind fun x y hl => ?_
      obtain ⟨c₁, ls⟩ := x
      obtain ⟨s₁, f₁⟩ := y
      obtain rfl := hl.shape
      refine (expr_agrees e (hl.steps.sound hc)).bind fun x y he => ?_
      refine .ok ⟨hl.toWent.trans he.toWent, fun ρ => ?_⟩
      have hsame : evalExpr g (view g c₁ ρ) l = evalExpr g (view g x.1 ρ) l := by
        refine (evalExpr_congr l fun v hv => ?_).symm
        exact he.toWent.same (hl.bound v hv) ρ
      have hleft := hl.value ρ
      have hright := he.value ρ
      dsimp only at hleft hright ⊢
      rw [evalExpr, hleft, hsame, hright]
  | .neg e, c, hc => by
      unfold compileExpr ensureExpr
      have he := expr_agrees e hc
      generalize compileExpr g c e = x at he ⊢
      generalize ensureExpr g (shape c) e = y at he ⊢
      cases he with
      | error e => exact .error e
      | ok he => exact .ok ⟨he.toWent, fun ρ => congrArg g.sql.neg (he.value ρ)⟩
  | .call name args, c, hc => by
      unfold compileExpr ensureExpr
      refine (args_agrees args hc).bind fun x y hargs => ?_
      cases hname : builtin name with
      | error e => exact .error e
      | ok f =>
          refine .ok ⟨hargs.toWent, fun ρ => ?_⟩
          have hvalues := hargs.values ρ
          simp only [evalExpr, hname, ← hvalues, List.head?_map, Except.toOption, Option.getD_some]

theorem args_agrees : ∀ (es : List Expr) {c : Compiler α}, Sound g c →
    Agree (ReadArgs (g := g) c es) (compileArgs g c es) (ensureArgs g (shape c) es)
  | [], c, _ => .ok ⟨.refl fun _ hv => (List.not_mem_nil hv).elim, fun _ => rfl⟩
  | e :: es, c, hc => by
      unfold compileArgs ensureArgs
      refine (expr_agrees e hc).bind fun x y he => ?_
      obtain ⟨c₁, ls⟩ := x
      obtain ⟨s₁, f₁⟩ := y
      obtain rfl := he.shape
      refine (args_agrees es (he.steps.sound hc)).bind fun x y hes => ?_
      refine .ok ⟨he.toWent.trans hes.toWent, fun ρ => ?_⟩
      have hsame : evalExpr g (view g c₁ ρ) e = evalExpr g (view g x.1 ρ) e := by
        refine (evalExpr_congr e fun v hv => ?_).symm
        exact hes.toWent.same (he.bound v hv) ρ
      have hhead := he.value ρ
      have htail := hes.values ρ
      dsimp only at hhead htail ⊢
      rw [evalArgs, List.map_cons, hhead, hsame, htail]

end

end Reads

end OntologicalDb.TypeqlSimulation
