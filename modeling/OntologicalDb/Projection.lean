import OntologicalDb.CompileExpr
import OntologicalDb.RowGroups
import OntologicalDb.SqlScope

/-!
Projections: the `SELECT` a `RETURN` or `WITH` is compiled to, and the rows it
makes of the rows bound before it.
-/

namespace OntologicalDb.Projection

open OntologicalDb.CompileExpr
open OntologicalDb.CypherSyntax
open OntologicalDb.RowDocuments
open OntologicalDb.Sql
open OntologicalDb.SqlScope
open OntologicalDb.TypeCatalog
open OntologicalDb.Values

/-- The `SELECT` of a projection.  A column carries the number in its name, a
sort column whether it is `DESC`. -/
structure Select where
  distinct : Bool
  cols : List (Nat × SqlExpr)
  names : List String
  groupBy : List SqlExpr
  orderCols : List (SqlExpr × Bool)
  limit : Option SqlExpr
  skip : Option SqlExpr

section Compilation

variable (c : Catalog) (binds : Binds)

structure Columns where
  cols : List (Nat × SqlExpr)
  names : List String
  groupBy : List SqlExpr

def starColumns : List String → Columns → Except String Columns
  | [], acc => .ok acc
  | v :: vs, acc => do
      let sql ← varValue c binds v
      starColumns vs { acc with
        cols := acc.cols ++ [(acc.cols.length, sql)]
        names := acc.names ++ [v] }

/-- The columns of the items; `*` numbers its columns by position, an item by
its own index. -/
def itemColumns (hasAgg : Bool) :
    List ReturnItem → Nat → Columns → Nat → Except String (Columns × Nat)
  | [], _, acc, n => .ok (acc, n)
  | item :: items, i, acc, n =>
      match item.expr with
      | .star => do
          let acc ← starColumns c binds (binds.map (·.1)) acc
          itemColumns hasAgg items (i + 1) acc n
      | e => do
          let (sql, n) ← exprForOutput c binds n e
          let groupBy := if hasAgg && !e.isAggregate then acc.groupBy ++ [sql] else acc.groupBy
          itemColumns hasAgg items (i + 1)
            ⟨acc.cols ++ [(i, sql)], acc.names ++ [item.name], groupBy⟩ n

/-- The entry of a name; a later one replaces an earlier one. -/
def lastNamed {β : Type} (entries : List (String × β)) (v : String) : Option β :=
  (entries.reverse.find? fun x => x.1 = v).map (·.2)

/-- A sort key, and whether it names an item that aggregates. -/
def orderColumn (items : List ReturnItem) (cols : List (Nat × SqlExpr)) (n : Nat) :
    Expr → Except String (SqlExpr × Bool × Nat)
  | .var v =>
      if (lookupBind binds v).isSome then do
        let (sql, n) ← expr c binds none n (.var v)
        return (sql, false, n)
      else
        match lastNamed ((items.zip cols).map fun x => (x.1.name, x.2.2)) v with
        | some sql =>
            .ok (sql, (lastNamed (items.map fun i => (i.name, i.expr.isAggregate)) v).getD false, n)
        | none => .error s!"ORDER BY refers to unknown name '{v}'"
  | e => do
      let (sql, n) ← expr c binds none n e
      return (sql, false, n)

def orderColumns (hasAgg : Bool) (items : List ReturnItem) (cols : List (Nat × SqlExpr)) :
    List OrderItem → List SqlExpr → Nat →
      Except String (List (SqlExpr × Bool) × List SqlExpr × Nat)
  | [], groupBy, n => .ok ([], groupBy, n)
  | o :: os, groupBy, n => do
      let (sql, namesAgg, n) ← orderColumn c binds items cols n o.expr
      let groupBy := if hasAgg && !o.expr.isAggregate && !namesAgg &&
          !groupBy.any (fun k => k.text = sql.text) then groupBy ++ [sql] else groupBy
      let (rest, groupBy, n) ← orderColumns hasAgg items cols os groupBy n
      return ((sql, o.desc) :: rest, groupBy, n)

def pageSql (n : Nat) : Option Expr → Except String (Option SqlExpr × Nat)
  | some e => do
      let (sql, n) ← expr c binds (some "int8") n e
      return (some sql, n)
  | none => .ok (none, n)

def hasAggregateItem (proj : Projection) : Bool := proj.items.any fun i => i.expr.isAggregate

def buildCore (proj : Projection) (n : Nat) : Except String (Select × Nat) := do
  let hasAgg := hasAggregateItem proj
  let (columns, n) ← itemColumns c binds hasAgg proj.items 0 ⟨[], [], []⟩ n
  let (orderCols, groupBy, n) ←
    orderColumns c binds hasAgg proj.items columns.cols proj.order columns.groupBy n
  let (limit, n) ← pageSql c binds n proj.limit
  let (skip, n) ← pageSql c binds n proj.skip
  return (⟨proj.distinct, columns.cols, columns.names, groupBy, orderCols, limit, skip⟩, n)

end Compilation

section Acceptance

mutual

/-- Does an expression call an aggregate of its own `SELECT`? -/
def hasAggregate : SqlExpr → Bool
  | .lit _ _ | .param _ | .col _ _ => false
  | .app _ _ args => anyHasAggregate args
  | .listComp _ src body cond _ => hasAggregate src || hasAggregate body || hasAggregate cond
  | .listPred _ _ src cond => hasAggregate src || hasAggregate cond
  | .agg _ _ _ => true

def anyHasAggregate : List SqlExpr → Bool
  | [] => false
  | e :: es => hasAggregate e || anyHasAggregate es

end

mutual

/-- A grouped `SELECT` may read a column inside an aggregate or inside one of
its grouping expressions only. -/
def Covered (keys : List SqlExpr) (own : List Alias) : SqlExpr → Prop
  | .lit _ _ | .param _ => True
  | .col a column => a ∈ own ∨ .col a column ∈ keys
  | .app op pieces args =>
      AllCovered keys own args ∨
        .app op pieces args ∈ keys ∧ ∀ a ∈ own, a ∉ refsAll args
  | .listComp a src body cond filtered =>
      Covered keys own src ∧ Covered keys (a :: own) body ∧ Covered keys (a :: own) cond ∨
        .listComp a src body cond filtered ∈ keys ∧
          ∀ b ∈ own, b ∉ refs (.listComp a src body cond filtered)
  | .listPred kind a src cond =>
      Covered keys own src ∧ Covered keys (a :: own) cond ∨
        .listPred kind a src cond ∈ keys ∧ ∀ b ∈ own, b ∉ refs (.listPred kind a src cond)
  | .agg _ _ _ => True

def AllCovered (keys : List SqlExpr) (own : List Alias) : List SqlExpr → Prop
  | [] => True
  | e :: es => Covered keys own e ∧ AllCovered keys own es

end

def Select.outputs (sel : Select) : List SqlExpr :=
  sel.cols.map (·.2) ++ sel.orderCols.map (·.1)

def Select.grouped (sel : Select) : Bool :=
  !sel.groupBy.isEmpty || sel.outputs.any hasAggregate

/-- What PostgreSQL asks of the `SELECT` besides types. -/
structure Select.Accepted (sel : Select) : Prop where
  numbered : sel.cols.map (·.1) = List.range sel.names.length
  keys : ∀ k ∈ sel.groupBy, hasAggregate k = false
  covered : sel.grouped = true → AllCovered sel.groupBy [] sel.outputs
  paging : ∀ e ∈ sel.limit.toList ++ sel.skip.toList, refs e = [] ∧ hasAggregate e = false

theorem Select.accepted_of_plain {sel : Select}
    (hnumbered : sel.cols.map (·.1) = List.range sel.names.length) (hkeys : sel.groupBy = [])
    (hgrouped : sel.grouped = false) (hlimit : sel.limit = none) (hskip : sel.skip = none) :
    sel.Accepted := by
  refine ⟨hnumbered, ?_, fun h => ?_, ?_⟩
  · rw [hkeys]
    exact nofun
  · rw [hgrouped] at h
    exact nomatch h
  · rw [hlimit, hskip]
    exact nofun

end Acceptance

section Rows

variable (env : Env) (sel : Select)

def Select.key (s : Scope) : List Val := sel.groupBy.map fun k => k.eval env [] s

/-- A row of the result before `DISTINCT`: a bound row, or one of a group's with
the group. -/
def Select.units (rows : List Scope) : List (Scope × List Scope) :=
  if sel.grouped then
    if sel.groupBy.isEmpty then [(rows.headD emptyScope, rows)]
    else (RowGroups.groupBy (sel.key env) rows).map fun g => (g.headD emptyScope, g)
  else rows.map fun s => (s, [])

def Select.values (u : Scope × List Scope) : List Val := sel.cols.map fun x => x.2.eval env u.2 u.1

def Select.sortKeys (u : Scope × List Scope) : List Val :=
  sel.orderCols.map fun x => x.1.eval env u.2 u.1

/-- The rows of the inner `SELECT`: values, then sort keys. -/
def Select.tuples (rows : List Scope) : List (List Val × List Val) :=
  let all := (sel.units env rows).map fun u => (sel.values env u, sel.sortKeys env u)
  if sel.distinct then all.dedup else all

/-- The rows without regard to their order. -/
def Select.bag (rows : List Scope) : List (List Val) := (sel.tuples env rows).map (·.1)

/-- The order of two sort keys, from the order of values in which NULL is
largest. -/
def keysLe (le : Val → Val → Bool) : List Bool → List Val → List Val → Bool
  | desc :: descs, a :: as, b :: bs =>
      let ab := if desc then le b a else le a b
      let ba := if desc then le a b else le b a
      ab && (!ba || keysLe le descs as bs)
  | _, _, _ => true

/-- `LIMIT` and `OFFSET`; NULL is none. -/
def pageOf {β : Type} (limit skip : Option SqlExpr) (out : List β) : List β :=
  let bound (e : Option SqlExpr) : Option Int := e.bind fun e => asInt (e.eval env [] emptyScope)
  let rest := match bound skip with
    | some k => out.drop k.toNat
    | none => out
  match bound limit with
  | some k => rest.take k.toNat
  | none => rest

/-- The sequences of rows a projection may yield: the order of rows with equal
sort keys is the server's. -/
def Select.Yields (le : Val → Val → Bool) (rows : List Scope) (out : List (List Val)) : Prop :=
  ∃ sorted : List (List Val × List Val), sorted.Perm (sel.tuples env rows) ∧
    sorted.Pairwise (fun x y => keysLe le (sel.orderCols.map (·.2)) x.2 y.2 = true) ∧
      out = pageOf env sel.limit sel.skip (sorted.map (·.1))

end Rows

section Evaluation

variable {env : Env}

mutual

/-- Without an aggregate the group does not matter. -/
theorem eval_group : ∀ (e : SqlExpr) {g g' : List Scope} {s : Scope}, hasAggregate e = false →
    e.eval env g s = e.eval env g' s
  | .lit _ _, _, _, _, _ => rfl
  | .param _, _, _, _, _ => rfl
  | .col _ _, _, _, _, _ => rfl
  | .app op _ args, g, g', s, h => by
      change op.apply env _ = op.apply env _
      rw [evals_group args h]
  | .listComp a src body cond _, g, g', s, h => by
      simp only [hasAggregate, Bool.or_eq_false_iff] at h
      have hsrc : src.eval env g s = src.eval env g' s := eval_group src h.1.1
      have hbody (s' : Scope) : body.eval env g s' = body.eval env g' s' := eval_group body h.1.2
      have hcond (s' : Scope) : cond.eval env g s' = cond.eval env g' s' := eval_group cond h.2
      simp only [SqlExpr.eval, hsrc, hbody, hcond]
  | .listPred _ a src cond, g, g', s, h => by
      simp only [hasAggregate, Bool.or_eq_false_iff] at h
      have hsrc : src.eval env g s = src.eval env g' s := eval_group src h.1
      have hcond (s' : Scope) : cond.eval env g s' = cond.eval env g' s' := eval_group cond h.2
      simp only [SqlExpr.eval, hsrc, hcond]
  | .agg _ _ _, _, _, _, h => by simp [hasAggregate] at h

theorem evals_group : ∀ (es : List SqlExpr) {g g' : List Scope} {s : Scope},
    anyHasAggregate es = false → SqlExpr.evals env g s es = SqlExpr.evals env g' s es
  | [], _, _, _, _ => rfl
  | e :: es, g, g', s, h => by
      simp only [anyHasAggregate, Bool.or_eq_false_iff] at h
      rw [SqlExpr.evals, SqlExpr.evals, eval_group e h.1, evals_group es h.2]

end

/-- Two rows that give the grouping expressions the same values, and agree on
the aliases of their own. -/
structure Alike (env : Env) (g : List Scope) (keys : List SqlExpr) (own : List Alias)
    (s s' : Scope) : Prop where
  here : ∀ a ∈ own, s a = s' a
  keys : ∀ k ∈ keys, (∀ a ∈ own, a ∉ refs k) → k.eval env g s = k.eval env g s'

theorem Alike.update {g : List Scope} {keys : List SqlExpr} {own : List Alias} {s s' : Scope}
    (h : Alike env g keys own s s') (a : Alias) (x : Tuple) :
    Alike env g keys (a :: own) (Function.update s a x) (Function.update s' a x) := by
  constructor
  · intro b hb
    by_cases hba : b = a
    · rw [hba, Function.update_self, Function.update_self]
    · rw [Function.update_of_ne hba, Function.update_of_ne hba]
      exact h.here b ((List.mem_cons.mp hb).resolve_left hba)
  · intro k hk hfree
    have hself (t : Scope) : k.eval env g (Function.update t a x) = k.eval env g t := by
      apply eval_congr
      intro b hb
      apply Function.update_of_ne
      rintro rfl
      exact hfree b List.mem_cons_self hb
    rw [hself, hself]
    exact h.keys k hk fun b hb => hfree b (List.mem_cons_of_mem _ hb)

mutual

/-- A covered expression has one value in a group. -/
theorem eval_covered {g : List Scope} {keys : List SqlExpr} : ∀ (e : SqlExpr) {own : List Alias}
    {s s' : Scope}, Covered keys own e → Alike env g keys own s s' →
      e.eval env g s = e.eval env g s'
  | .lit _ _, _, _, _, _, _ => rfl
  | .param _, _, _, _, _, _ => rfl
  | .col a column, own, s, s', h, halike => by
      by_cases ha : a ∈ own
      · change s a column = s' a column
        rw [halike.here a ha]
      · apply halike.keys _ (h.resolve_left ha)
        intro b hb hmem
        exact ha (List.mem_singleton.mp hmem ▸ hb)
  | .app op pieces args, own, s, s', h, halike => by
      rcases h with h | ⟨hmem, hfree⟩
      · change op.apply env _ = op.apply env _
        rw [evals_covered args h halike]
      · exact halike.keys _ hmem hfree
  | .listComp a src body cond filtered, own, s, s', h, halike => by
      rcases h with ⟨hsrc, hbody, hcond⟩ | ⟨hmem, hfree⟩
      · have hbody (x : Tuple) := eval_covered body hbody (halike.update a x)
        have hcond (x : Tuple) := eval_covered cond hcond (halike.update a x)
        have hsrc := eval_covered src hsrc halike
        simp only [SqlExpr.eval, hsrc, List.filter_map, List.map_map, Function.comp_def, hbody,
          hcond]
      · exact halike.keys _ hmem hfree
  | .listPred kind a src cond, own, s, s', h, halike => by
      rcases h with ⟨hsrc, hcond⟩ | ⟨hmem, hfree⟩
      · have hcond (x : Tuple) := eval_covered cond hcond (halike.update a x)
        have hsrc := eval_covered src hsrc halike
        simp only [SqlExpr.eval, hsrc, hcond]
      · exact halike.keys _ hmem hfree
  | .agg k d args, _, _, _, _, _ => by
      cases k <;> cases args <;> simp [SqlExpr.eval]

theorem evals_covered {g : List Scope} {keys : List SqlExpr} : ∀ (es : List SqlExpr)
    {own : List Alias} {s s' : Scope}, AllCovered keys own es → Alike env g keys own s s' →
      SqlExpr.evals env g s es = SqlExpr.evals env g s' es
  | [], _, _, _, _, _ => rfl
  | e :: es, _, _, _, h, halike => by
      rw [SqlExpr.evals, SqlExpr.evals, eval_covered e h.1 halike, evals_covered es h.2 halike]

end

end Evaluation

end OntologicalDb.Projection
