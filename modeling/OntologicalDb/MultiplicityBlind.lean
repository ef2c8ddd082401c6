import OntologicalDb.AggregateCalls
import OntologicalDb.CompileSteps
import OntologicalDb.ExceptRules
import OntologicalDb.SortedProjections

/-!
Projections that cannot tell how often a row occurs.
-/

namespace OntologicalDb.MultiplicityBlind

open OntologicalDb.AggregateCalls
open OntologicalDb.CompileExpr
open OntologicalDb.CompilePattern
open OntologicalDb.CompileSteps
open OntologicalDb.CypherSyntax
open OntologicalDb.ExceptRules
open OntologicalDb.Projection
open OntologicalDb.RowGroups
open OntologicalDb.SortedProjections
open OntologicalDb.Sql
open OntologicalDb.TypeCatalog
open OntologicalDb.Values

section Syntax

def isStar : Expr → Bool
  | .star => true
  | _ => false

mutual

/-- Is every aggregate of an expression one that a duplicated row leaves
alone? -/
def blindExpr : Expr → Bool
  | .func name args distinct =>
      (match name.toLower with
        | "min" | "max" => true
        | "count" | "collect" => distinct && !args.head?.any isStar
        | _ => !(Expr.func name args distinct).isAggregate) && allBlind args
  | .binary _ a b => blindExpr a && blindExpr b
  | .not a | .neg a | .isNull a _ => blindExpr a
  | .list xs => allBlind xs
  | .map kvs => allBlindValue kvs
  | e => !e.isAggregate

def allBlind : List Expr → Bool
  | [] => true
  | e :: es => blindExpr e && allBlind es

def allBlindValue : List (String × Expr) → Bool
  | [] => true
  | (_, e) :: kvs => blindExpr e && allBlindValue kvs

end

def isWith : Clause → Bool
  | .with_ _ _ => true
  | _ => false

/-- Can the query not observe how many paths reach a node? -/
def multiplicityBlind (clauses : List Clause) : Bool :=
  !clauses.any isWith &&
    match clauses.getLast? with
    | some (.return_ p) =>
        let exprs := p.items.map (·.expr) ++ p.order.map (·.expr)
        p.distinct || exprs.any Expr.isAggregate && exprs.all blindExpr
    | _ => false

end Syntax

section Aggregates

/-- An aggregate that sees more than the set of its argument's values. -/
def countsRows (a : AggCall) : Bool :=
  !(a.kind = .min || a.kind = .max || a.distinct && a.kind ≠ .stdev) || !a.hasArgument

variable {env : Env} {g g' : List Scope}

theorem toFinset_filter_map_eq {p : Val → Bool} {f : Scope → Val}
    (h : ∀ s, s ∈ g ↔ s ∈ g') :
    ((g.map f).filter p).toFinset = ((g'.map f).filter p).toFinset := by
  ext v
  simp only [List.mem_toFinset, List.mem_filter, List.mem_map, h]

theorem toFinset_map_eq {f : Scope → Val} (h : ∀ s, s ∈ g ↔ s ∈ g') :
    (g.map f).toFinset = (g'.map f).toFinset := by
  ext v
  simp only [List.mem_toFinset, List.mem_map, h]

theorem apply_of_not_countsRows {k : Agg} {distinct hasArgument : Bool}
    (hblind : countsRows ⟨k, distinct, hasArgument⟩ = false) (h : ∀ s, s ∈ g ↔ s ∈ g')
    {f : Scope → Val} :
    k.apply env.pg distinct (g.map f) = k.apply env.pg distinct (g'.map f) := by
  unfold countsRows at hblind
  cases k with
  | min => simp only [Agg.apply, toFinset_filter_map_eq h]
  | max => simp only [Agg.apply, toFinset_filter_map_eq h]
  | stdev => simp at hblind
  | count =>
      obtain rfl : distinct = true := by simp at hblind; exact hblind.1
      simp only [Agg.apply, toFinset_filter_map_eq h]
  | collect =>
      obtain rfl : distinct = true := by simp at hblind; exact hblind.1
      simp only [Agg.apply, toFinset_map_eq h]
  | sum =>
      obtain rfl : distinct = true := by simp at hblind; exact hblind.1
      simp only [Agg.apply, toFinset_filter_map_eq h]
  | avg =>
      obtain rfl : distinct = true := by simp at hblind; exact hblind.1
      simp only [Agg.apply, toFinset_filter_map_eq h]

mutual

/-- An expression whose aggregates see sets has one value in groups with the
same rows. -/
theorem eval_same_rows (h : ∀ s, s ∈ g ↔ s ∈ g') : ∀ (e : SqlExpr) {s : Scope},
    someCall countsRows e = false → e.eval env g s = e.eval env g' s
  | .lit _ _, _, _ => rfl
  | .param _, _, _ => rfl
  | .col _ _, _, _ => rfl
  | .app op _ args, s, hblind => by
      change op.apply env _ = op.apply env _
      rw [evals_same_rows h args hblind]
  | .listComp a src body cond _, s, hblind => by
      simp only [someCall, Bool.or_eq_false_iff] at hblind
      have hsrc : src.eval env g s = src.eval env g' s := eval_same_rows h src hblind.1.1
      have hbody (t : Scope) : body.eval env g t = body.eval env g' t :=
        eval_same_rows h body hblind.1.2
      have hcond (t : Scope) : cond.eval env g t = cond.eval env g' t :=
        eval_same_rows h cond hblind.2
      simp only [SqlExpr.eval, hsrc, hbody, hcond]
  | .listPred _ a src cond, s, hblind => by
      simp only [someCall, Bool.or_eq_false_iff] at hblind
      have hsrc : src.eval env g s = src.eval env g' s := eval_same_rows h src hblind.1
      have hcond (t : Scope) : cond.eval env g t = cond.eval env g' t :=
        eval_same_rows h cond hblind.2
      simp only [SqlExpr.eval, hsrc, hcond]
  | .agg k d [], _, hblind => by simp [someCall, countsRows] at hblind
  | .agg k d (x :: xs), _, hblind => by
      simp only [SqlExpr.eval]
      exact apply_of_not_countsRows hblind h

theorem evals_same_rows (h : ∀ s, s ∈ g ↔ s ∈ g') : ∀ (es : List SqlExpr) {s : Scope},
    someCalls countsRows es = false → SqlExpr.evals env g s es = SqlExpr.evals env g' s es
  | [], _, _ => rfl
  | e :: es, s, hblind => by
      simp only [someCalls, Bool.or_eq_false_iff] at hblind
      rw [SqlExpr.evals, SqlExpr.evals, eval_same_rows h e hblind.1, evals_same_rows h es hblind.2]

end

end Aggregates

section Rows

variable {env : Env} {sel : Select} {rows rows' : List Scope}

/-- Every aggregate of a `SELECT` sees a set, and the rows it makes of them are
groups or distinct. -/
structure BlindSelect (sel : Select) : Prop where
  aggregates : ∀ e ∈ sel.outputs, someCall countsRows e = false
  merges : sel.distinct = true ∨ sel.grouped = true

/-- The columns of a group, values and sort keys. -/
def Select.columns (env : Env) (sel : Select) (u : Scope × List Scope) : List Val × List Val :=
  (sel.values env u, sel.sortKeys env u)

theorem allCovered_iff {keys : List SqlExpr} {own : List Alias} {es : List SqlExpr} :
    AllCovered keys own es ↔ ∀ e ∈ es, Covered keys own e := by
  induction es with
  | nil => simp [AllCovered]
  | cons e es ih => simp [AllCovered, ih]

/-- Groups with the same rows show the same values. -/
theorem columns_eq (hblind : BlindSelect sel) (haccepted : sel.Accepted)
    (hgrouped : sel.grouped = true) {g g' : List Scope} {s s' : Scope}
    (h : ∀ t, t ∈ g ↔ t ∈ g') (hkey : sel.key env s = sel.key env s') :
    Select.columns env sel (s, g) = Select.columns env sel (s', g') := by
  have halike : Alike env g' sel.groupBy [] s s' := by
    refine ⟨nofun, fun k hk _ => ?_⟩
    have hk' : k.eval env [] s = k.eval env [] s' := List.map_inj_left.mp hkey k hk
    rw [eval_group k (haccepted.keys k hk), hk', eval_group k (haccepted.keys k hk)]
  have heval {e : SqlExpr} (he : e ∈ sel.outputs) : e.eval env g s = e.eval env g' s' := by
    rw [eval_same_rows h e (hblind.aggregates e he)]
    exact eval_covered e (allCovered_iff.mp (haccepted.covered hgrouped) e he) halike
  apply Prod.ext
  · apply List.map_congr_left
    intro x hx
    exact heval (List.mem_append_left _ (List.mem_map.mpr ⟨x, hx, rfl⟩))
  · apply List.map_congr_left
    intro x hx
    exact heval (List.mem_append_right _ (List.mem_map.mpr ⟨x, hx, rfl⟩))

theorem units_perm (hblind : BlindSelect sel) (haccepted : sel.Accepted)
    (hgrouped : sel.grouped = true) (h : ∀ s, s ∈ rows ↔ s ∈ rows') :
    ((sel.units env rows).map (Select.columns env sel)).Perm
      ((sel.units env rows').map (Select.columns env sel)) := by
  unfold Select.units
  rw [if_pos hgrouped, if_pos hgrouped]
  split
  · next hkeys =>
      apply List.Perm.of_eq
      have hkey : sel.key env (rows.headD emptyScope) = sel.key env (rows'.headD emptyScope) := by
        unfold Select.key
        rw [List.isEmpty_iff.mp hkeys]
        rfl
      rw [List.map_singleton, List.map_singleton,
        columns_eq hblind haccepted hgrouped h hkey]
  · rw [List.map_map, List.map_map]
    apply map_groupBy_perm _ h
    intro g g' hsame hne hkey
    apply columns_eq hblind haccepted hgrouped hsame
    have hne' : g' ≠ [] := by
      obtain ⟨s, hs⟩ := List.exists_mem_of_ne_nil g hne
      exact List.ne_nil_of_mem ((hsame s).mp hs)
    exact hkey _ (headD_mem (a := emptyScope) hne) _ ((hsame _).mpr (headD_mem (a := emptyScope) hne'))

/-- A blind `SELECT` makes the same rows of bags with the same distinct rows. -/
theorem bag_perm_of_same_rows (hblind : BlindSelect sel) (haccepted : sel.Accepted)
    (h : ∀ s, s ∈ rows ↔ s ∈ rows') : (sel.bag env rows).Perm (sel.bag env rows') := by
  unfold Select.bag Select.tuples
  apply List.Perm.map
  cases hgrouped : sel.grouped with
  | true =>
      have hunits := @units_perm env _ _ _ hblind haccepted hgrouped h
      cases sel.distinct with
      | true => exact hunits.dedup
      | false => exact hunits
  | false =>
      have hdistinct : sel.distinct = true :=
        hblind.merges.resolve_right (by simp [hgrouped])
      simp only [hdistinct, if_true, Select.units, hgrouped, Bool.false_eq_true, if_false,
        List.map_map]
      exact dedup_map_perm_of_mem_iff h

end Rows

section Hidden

mutual

/-- Does an expression keep an aggregate that counts rows where the test of an
expression does not look for it, or `count` with `DISTINCT` and nothing to
count? -/
def hidden : Expr → Bool
  | .func name args _ => name.toLower = "count" && args.isEmpty || anyHidden args
  | .binary _ a b => hidden a || hidden b
  | .not a | .neg a | .isNull a _ => hidden a
  | .list xs => anyHidden xs
  | .map kvs => anyHiddenValue kvs
  | .case operand whens otherwise =>
      optionHidden operand || anyHiddenWhen whens || optionHidden otherwise
  | e => calls countsRows e

def optionHidden : Option Expr → Bool
  | some e => hidden e
  | none => false

def anyHidden : List Expr → Bool
  | [] => false
  | e :: es => hidden e || anyHidden es

def anyHiddenValue : List (String × Expr) → Bool
  | [] => false
  | (_, e) :: kvs => hidden e || anyHiddenValue kvs

def anyHiddenWhen : List (Expr × Expr) → Bool
  | [] => false
  | (w, v) :: whens => hidden w || (hidden v || anyHiddenWhen whens)

end

theorem callsFirst_eq_false {f : AggCall → Bool} {es : List Expr}
    (h : ∀ e ∈ es, calls f e = false) : ∀ k, callsFirst f k es = false := by
  induction es with
  | nil =>
      intro k
      cases k <;> rfl
  | cons e es ih =>
      intro k
      obtain ⟨he, hes⟩ := List.forall_mem_cons.mp h
      cases k with
      | zero => rfl
      | succ k => rw [callsFirst, he, ih hes, Bool.or_false]

theorem anyHidden_eq_false {es : List Expr} :
    anyHidden es = false ↔ ∀ e ∈ es, hidden e = false := by
  induction es with
  | nil => simp [anyHidden]
  | cons e es ih => simp [anyHidden, ih]

theorem anyAggregate_eq_false {es : List Expr} :
    Expr.anyAggregate es = false ↔ ∀ e ∈ es, e.isAggregate = false := by
  induction es with
  | nil => simp [Expr.anyAggregate]
  | cons e es ih => simp [Expr.anyAggregate, ih]

theorem allBlind_iff {es : List Expr} : allBlind es = true ↔ ∀ e ∈ es, blindExpr e = true := by
  induction es with
  | nil => simp [allBlind]
  | cons e es ih => simp [allBlind, ih]

theorem callsValue_eq_false {f : AggCall → Bool} {kvs : List (String × Expr)}
    (h : ∀ kv ∈ kvs, calls f kv.2 = false) : callsValue f kvs = false := by
  induction kvs with
  | nil => rfl
  | cons kv kvs ih =>
      obtain ⟨he, hes⟩ := List.forall_mem_cons.mp h
      rw [callsValue, he, ih hes, Bool.or_false]

theorem anyHiddenValue_eq_false {kvs : List (String × Expr)} :
    anyHiddenValue kvs = false ↔ ∀ kv ∈ kvs, hidden kv.2 = false := by
  induction kvs with
  | nil => simp [anyHiddenValue]
  | cons kv kvs ih => simp [anyHiddenValue, ih]

theorem anyAggregateValue_eq_false {kvs : List (String × Expr)} :
    Expr.anyAggregateValue kvs = false ↔ ∀ kv ∈ kvs, kv.2.isAggregate = false := by
  induction kvs with
  | nil => simp [Expr.anyAggregateValue]
  | cons kv kvs ih => simp [Expr.anyAggregateValue, ih]

theorem allBlindValue_iff {kvs : List (String × Expr)} :
    allBlindValue kvs = true ↔ ∀ kv ∈ kvs, blindExpr kv.2 = true := by
  induction kvs with
  | nil => simp [allBlindValue]
  | cons kv kvs ih => simp [allBlindValue, ih]

theorem callsWhen_eq_false {f : AggCall → Bool} {whens : List (Expr × Expr)}
    (h : ∀ w ∈ whens, calls f w.1 = false ∧ calls f w.2 = false) : callsWhen f whens = false := by
  induction whens with
  | nil => rfl
  | cons w whens ih =>
      obtain ⟨⟨hw, hv⟩, hrest⟩ := List.forall_mem_cons.mp h
      rw [callsWhen, hw, hv, ih hrest]
      rfl

theorem anyHiddenWhen_eq_false {whens : List (Expr × Expr)} :
    anyHiddenWhen whens = false ↔ ∀ w ∈ whens, hidden w.1 = false ∧ hidden w.2 = false := by
  induction whens with
  | nil => simp [anyHiddenWhen]
  | cons w whens ih => simp [anyHiddenWhen, ih, and_assoc]

theorem anyAggregateWhen_eq_false {whens : List (Expr × Expr)} :
    Expr.anyAggregateWhen whens = false ↔
      ∀ w ∈ whens, w.1.isAggregate = false ∧ w.2.isAggregate = false := by
  induction whens with
  | nil => simp [Expr.anyAggregateWhen]
  | cons w whens ih => simp [Expr.anyAggregateWhen, ih]

theorem aggCall_eq_none_of_not_mem {name : String} {args : List Expr} {distinct : Bool}
    (h : name ∉ aggregates) : aggCall name args distinct = none := by
  unfold aggregates at h
  unfold aggCall
  split <;> simp_all

theorem isAggregate_case {operand otherwise : Option Expr} {whens : List (Expr × Expr)} :
    (Expr.case operand whens otherwise).isAggregate =
      (operand.any Expr.isAggregate || Expr.anyAggregateWhen whens ||
        otherwise.any Expr.isAggregate) := by
  cases operand <;> cases otherwise <;> rfl

/-- Where the test for aggregates finds none, only a hidden one can be left. -/
theorem calls_of_not_isAggregate (e : Expr) (hagg : e.isAggregate = false)
    (hhidden : hidden e = false) : calls countsRows e = false := by
  induction e with
  | lit l => rfl
  | param p => rfl
  | var v => rfl
  | prop b p => rfl
  | star => rfl
  | binary op l r ihl ihr =>
      rw [Expr.isAggregate, Bool.or_eq_false_iff] at hagg
      rw [hidden, Bool.or_eq_false_iff] at hhidden
      rw [calls, ihl hagg.1 hhidden.1, ihr hagg.2 hhidden.2, Bool.or_false]
  | not e ih => exact ih hagg hhidden
  | neg e ih => exact ih hagg hhidden
  | isNull e w ih => exact ih hagg hhidden
  | func name xs d ih =>
      rw [Expr.isAggregate, Bool.or_eq_false_iff, decide_eq_false_iff_not] at hagg
      rw [hidden, Bool.or_eq_false_iff] at hhidden
      rw [calls, aggCall_eq_none_of_not_mem hagg.1]
      apply callsFirst_eq_false
      intro e he
      exact ih e he (anyAggregate_eq_false.mp hagg.2 e he) (anyHidden_eq_false.mp hhidden.2 e he)
  | list xs ih =>
      rw [calls]
      apply callsFirst_eq_false
      intro e he
      exact ih e he (anyAggregate_eq_false.mp hagg e he) (anyHidden_eq_false.mp hhidden e he)
  | map kvs ih =>
      rw [calls]
      apply callsValue_eq_false
      intro kv hkv
      exact ih kv hkv (anyAggregateValue_eq_false.mp hagg kv hkv)
        (anyHiddenValue_eq_false.mp hhidden kv hkv)
  | case o ws e iho ihw ihe =>
      simp only [isAggregate_case, Bool.or_eq_false_iff] at hagg
      simp only [hidden, Bool.or_eq_false_iff] at hhidden
      have hwhens : callsWhen countsRows ws = false :=
        callsWhen_eq_false fun w hw =>
          ⟨(ihw w hw).1 (anyAggregateWhen_eq_false.mp hagg.1.2 w hw).1
              (anyHiddenWhen_eq_false.mp hhidden.1.2 w hw).1,
            (ihw w hw).2 (anyAggregateWhen_eq_false.mp hagg.1.2 w hw).2
              (anyHiddenWhen_eq_false.mp hhidden.1.2 w hw).2⟩
      have hoperand : callsOption countsRows o = false := by
        cases o with
        | none => rfl
        | some x => exact iho x rfl hagg.1.1 hhidden.1.1
      have hotherwise : callsOption countsRows e = false := by
        cases e with
        | none => rfl
        | some x => exact ihe x rfl hagg.2 hhidden.2
      rw [calls, hoperand, hwhens, hotherwise]
      rfl
  | listComp v s f p => exact hhidden
  | listPred k v s f => exact hhidden
  | mapProjection v items => exact hhidden

theorem calls_of_blindExpr (e : Expr) (hblind : blindExpr e = true) (hhidden : hidden e = false) :
    calls countsRows e = false := by
  induction e with
  | func name xs d ih =>
      rw [blindExpr, Bool.and_eq_true] at hblind
      obtain ⟨hok, hargs⟩ := hblind
      have hhidden' := hhidden
      rw [hidden, Bool.or_eq_false_iff] at hhidden
      have hkept : ∀ k, callsFirst countsRows k xs = false := by
        apply callsFirst_eq_false
        intro e he
        exact ih e he (allBlind_iff.mp hargs e he) (anyHidden_eq_false.mp hhidden.2 e he)
      rw [calls]
      split at hok
      · next hname =>
        rw [hname]
        cases xs with
        | nil => exact hkept _
        | cons x xs => cases d <;> rfl
      · next hname =>
        rw [hname]
        cases xs with
        | nil => exact hkept _
        | cons x xs => cases d <;> rfl
      · next hname =>
        rw [hname] at hhidden ⊢
        obtain ⟨rfl, hstar⟩ := (Bool.and_eq_true _ _).mp hok
        cases xs with
        | nil => exact Bool.noConfusion hhidden.1
        | cons x xs =>
            cases x with
            | star => exact Bool.noConfusion hstar
            | _ => rfl
      · next hname =>
        rw [hname]
        obtain ⟨rfl, -⟩ := (Bool.and_eq_true _ _).mp hok
        cases xs with
        | nil => exact hkept _
        | cons x xs => rfl
      · exact calls_of_not_isAggregate (.func name xs d) (by simpa using hok) hhidden'
  | binary op l r ihl ihr =>
      rw [blindExpr, Bool.and_eq_true] at hblind
      rw [hidden, Bool.or_eq_false_iff] at hhidden
      rw [calls, ihl hblind.1 hhidden.1, ihr hblind.2 hhidden.2, Bool.or_false]
  | not e ih => exact ih hblind hhidden
  | neg e ih => exact ih hblind hhidden
  | isNull e w ih => exact ih hblind hhidden
  | list xs ih =>
      rw [calls]
      apply callsFirst_eq_false
      intro e he
      exact ih e he (allBlind_iff.mp hblind e he) (anyHidden_eq_false.mp hhidden e he)
  | map kvs ih =>
      rw [calls]
      apply callsValue_eq_false
      intro kv hkv
      exact ih kv hkv (allBlindValue_iff.mp hblind kv hkv)
        (anyHiddenValue_eq_false.mp hhidden kv hkv)
  | _ => exact calls_of_not_isAggregate _ (by simpa [blindExpr] using hblind) hhidden

end Hidden

section Compiled

variable {f : AggCall → Bool} {c : Catalog} {binds : Binds}

def anyColumn (f : AggCall → Bool) (cols : List (Nat × SqlExpr)) : Bool :=
  cols.any fun x => someCall f x.2

theorem starColumns_calls (hb : PlainBinds binds) {vs : List String} {acc columns : Columns}
    (h : starColumns c binds vs acc = .ok columns) :
    anyColumn f columns.cols = anyColumn f acc.cols := by
  induction vs generalizing acc with
  | nil =>
      obtain rfl := Except.ok.inj h
      rfl
  | cons v vs ih =>
      obtain ⟨sql, hsql, h⟩ := bind_eq_ok.mp h
      rw [ih h]
      simp [anyColumn, someCall_varValue hb hsql]

theorem itemColumns_calls (hb : PlainBinds binds) {hasAgg : Bool} {items : List ReturnItem}
    {i n m : Nat} {acc columns : Columns}
    (h : itemColumns c binds hasAgg items i acc n = .ok (columns, m)) :
    anyColumn f columns.cols =
      (anyColumn f acc.cols || items.any fun item => calls f item.expr) := by
  induction items generalizing i n acc with
  | nil =>
      obtain ⟨rfl, -⟩ := Prod.mk.inj (Except.ok.inj h)
      simp
  | cons item items ih =>
      unfold itemColumns at h
      split at h
      · next hstar =>
        obtain ⟨acc', hacc, h⟩ := bind_eq_ok.mp h
        rw [ih h, starColumns_calls hb hacc, List.any_cons, hstar]
        rfl
      · obtain ⟨⟨sql, n'⟩, hsql, h⟩ := bind_eq_ok.mp h
        rw [ih h]
        simp [anyColumn, exprForOutput_calls hb hsql, Bool.or_assoc]

theorem mem_of_lastNamed {β : Type} {entries : List (String × β)} {v : String} {x : β}
    (h : lastNamed entries v = some x) : ∃ entry ∈ entries, entry.2 = x := by
  obtain ⟨entry, hentry, rfl⟩ := Option.map_eq_some_iff.mp h
  exact ⟨entry, List.mem_reverse.mp (List.mem_of_find?_eq_some hentry), rfl⟩

/-- A sort key calls what its expression calls, unless it names a column. -/
theorem orderColumn_calls (hb : PlainBinds binds) {items : List ReturnItem}
    {cols : List (Nat × SqlExpr)} {n m : Nat} {e : Expr} {sql : SqlExpr} {namesAgg : Bool}
    (h : orderColumn c binds items cols n e = .ok (sql, namesAgg, m)) :
    someCall f sql = calls f e ∨ calls f e = false ∧ ∃ x ∈ cols, x.2 = sql := by
  unfold orderColumn at h
  split at h
  · split at h
    · obtain ⟨⟨x, n'⟩, hx, h⟩ := bind_eq_ok.mp h
      obtain ⟨rfl, -⟩ := Prod.mk.inj (pure_eq_ok.mp h)
      exact .inl (expr_calls hb hx)
    · split at h
      · next x hx =>
        obtain ⟨rfl, -⟩ := Prod.mk.inj (Except.ok.inj h)
        obtain ⟨entry, hentry, rfl⟩ := mem_of_lastNamed hx
        obtain ⟨pair, hpair, rfl⟩ := List.mem_map.mp hentry
        exact .inr ⟨rfl, pair.2, (List.of_mem_zip hpair).2, rfl⟩
      · simp at h
  · obtain ⟨⟨x, n'⟩, hx, h⟩ := bind_eq_ok.mp h
    obtain ⟨rfl, -⟩ := Prod.mk.inj (pure_eq_ok.mp h)
    exact .inl (expr_calls hb hx)

theorem orderColumns_calls (hb : PlainBinds binds) {hasAgg : Bool} {items : List ReturnItem}
    {cols : List (Nat × SqlExpr)} {os : List OrderItem} {groupBy groupBy' : List SqlExpr}
    {orderCols : List (SqlExpr × Bool)} {n m : Nat}
    (h : orderColumns c binds hasAgg items cols os groupBy n = .ok (orderCols, groupBy', m)) :
    (anyColumn f cols || orderCols.any fun x => someCall f x.1) =
      (anyColumn f cols || os.any fun o => calls f o.expr) := by
  induction os generalizing groupBy groupBy' n m orderCols with
  | nil =>
      obtain ⟨rfl, -⟩ := Prod.mk.inj (Except.ok.inj h)
      rfl
  | cons o os ih =>
      obtain ⟨⟨sql, namesAgg, n'⟩, hcol, h⟩ := bind_eq_ok.mp h
      obtain ⟨⟨rest, groupBy'', n''⟩, hrest, h⟩ := bind_eq_ok.mp h
      obtain ⟨rfl, -⟩ := Prod.mk.inj (pure_eq_ok.mp h)
      have hrest := ih hrest
      rw [List.any_cons, List.any_cons, Bool.or_left_comm, hrest]
      rcases orderColumn_calls (f := f) hb hcol with hcol | ⟨hcol, x, hx, hsql⟩
      · rw [hcol, Bool.or_left_comm]
      · have hmem : someCall f sql = true → anyColumn f cols = true := fun hcall =>
          List.any_eq_true.mpr ⟨x, hx, by rw [hsql, hcall]⟩
        rw [hcol, Bool.false_or]
        cases hcall : someCall f sql with
        | false => rfl
        | true => rw [hmem hcall]; rfl

/-- The expressions of a projection. -/
def projected (p : Projection) : List Expr := p.items.map (·.expr) ++ p.order.map (·.expr)

/-- The columns of a `SELECT` call what the projection's expressions call. -/
theorem buildCore_calls (hb : PlainBinds binds) {p : Projection} {n m : Nat} {sel : Select}
    (h : buildCore c binds p n = .ok (sel, m)) :
    sel.outputs.any (someCall f) = (projected p).any (calls f) := by
  obtain ⟨⟨columns, n1⟩, hcolumns, h⟩ := bind_eq_ok.mp h
  obtain ⟨⟨orderCols, groupBy, n2⟩, horder, h⟩ := bind_eq_ok.mp h
  obtain ⟨⟨limit, n3⟩, -, h⟩ := bind_eq_ok.mp h
  obtain ⟨⟨skip, n4⟩, -, h⟩ := bind_eq_ok.mp h
  obtain ⟨rfl, -⟩ := Prod.mk.inj (pure_eq_ok.mp h)
  have hitems : anyColumn f columns.cols = p.items.any fun item => calls f item.expr :=
    itemColumns_calls hb hcolumns
  have hkeys := orderColumns_calls (f := f) hb horder
  rw [hitems] at hkeys
  simpa [Select.outputs, projected, List.any_append, List.any_map, Function.comp_def,
    ← hitems, anyColumn] using hkeys

end Compiled

section Reading

variable {cx : Context} {st st' : Compiler}

end Reading

section Projections

variable {env : Env} {c : Catalog} {binds : Binds} {rows rows' : List Scope}

/-- The aggregates of a projection see sets: none that counts rows is hidden
from the test or stands in a `DISTINCT` projection, and without `DISTINCT` one
of them is called. -/
structure SeesSets (p : Projection) : Prop where
  hidden : p.distinct = false → ∀ e ∈ projected p, hidden e = false
  called : p.distinct = false → ∃ e ∈ projected p, calls (fun _ => true) e = true
  distinct : p.distinct = true → ∀ e ∈ projected p, calls countsRows e = false

theorem multiplicityBlind_return {clauses : List Clause} {p : Projection}
    (h : multiplicityBlind clauses = true) (hlast : clauses.getLast? = some (.return_ p)) :
    p.distinct = true ∨ ∀ e ∈ projected p, blindExpr e = true := by
  unfold multiplicityBlind at h
  rw [hlast, Bool.and_eq_true, Bool.or_eq_true, Bool.and_eq_true, List.all_eq_true] at h
  exact h.2.imp_right fun h => h.2

end Projections

section Repeated

/-- `UNWIND … AS x RETURN count(DISTINCT x)`. -/
def countDistinct : Projection :=
  ⟨[⟨.func "count" [.var "x"] true, some "n"⟩], false, [], none, none⟩

/-- `UNWIND … AS x RETURN DISTINCT count(*)`. -/
def distinctCount : Projection :=
  ⟨[⟨.func "count" [.star] false, some "n"⟩], true, [], none, none⟩

def unwinding (p : Projection) : List Clause := [.unwind (.param "rows") "x", .return_ p]

def selectCountDistinct : Select :=
  ⟨false, [(0, .agg .count true [.col ⟨"uw", 1⟩ "v"])], ["n"], [], [], none, none⟩

def selectDistinctCount : Select :=
  ⟨true, [(0, .agg .count false [])], ["n"], [], [], none, none⟩

def aRow : Scope := fun _ => elementTuple (.num ⟨1, 0⟩)

theorem plainBinds_unwound : PlainBinds unwoundBinds := by
  intro v b h
  obtain ⟨x, hx, rfl⟩ := Option.map_eq_some_iff.mp h
  rw [List.mem_singleton.mp (List.mem_of_find?_eq_some hx)]
  exact fun f => rfl

theorem accepted_of_one {sel : Select} {e : SqlExpr} {name : String}
    (hcols : sel.cols = [(0, e)]) (hnames : sel.names = [name]) (hkeys : sel.groupBy = [])
    (horder : sel.orderCols = []) (hlimit : sel.limit = none) (hskip : sel.skip = none)
    (hcovered : Covered [] [] e) : sel.Accepted := by
  refine ⟨by rw [hcols, hnames]; rfl, by rw [hkeys]; exact nofun, fun _ => ?_, ?_⟩
  · rw [hkeys, Select.outputs, hcols, horder]
    exact ⟨hcovered, trivial⟩
  · rw [hlimit, hskip]
    exact nofun

theorem count_toLower : "count".toLower = "count" := by decide +kernel

theorem buildCore_countDistinct :
    buildCore TypeCatalog.empty unwoundBinds countDistinct 0 = .ok (selectCountDistinct, 0) := by
  have hexpr : exprForOutput TypeCatalog.empty unwoundBinds 0
      (.func "count" [.var "x"] true) = .ok (.agg .count true [.col ⟨"uw", 1⟩ "v"], 0) := by
    simp only [exprForOutput, expr, count_toLower]
    rfl
  have hitem : (Expr.func "count" [.var "x"] true).isAggregate = true := by
    simp [Expr.isAggregate, count_toLower, aggregates]
  have hagg : hasAggregateItem countDistinct = true := by
    simp [hasAggregateItem, countDistinct, hitem]
  unfold buildCore
  rw [hagg]
  simp only [countDistinct, itemColumns, hexpr, hitem]
  rfl

theorem buildCore_distinctCount :
    buildCore TypeCatalog.empty unwoundBinds distinctCount 0 = .ok (selectDistinctCount, 0) := by
  have hexpr : exprForOutput TypeCatalog.empty unwoundBinds 0
      (.func "count" [.star] false) = .ok (.agg .count false [], 0) := by
    simp only [exprForOutput, expr, count_toLower]
  have hitem : (Expr.func "count" [.star] false).isAggregate = true := by
    simp [Expr.isAggregate, count_toLower, aggregates]
  have hagg : hasAggregateItem distinctCount = true := by
    simp [hasAggregateItem, distinctCount, hitem]
  unfold buildCore
  rw [hagg]
  simp only [distinctCount, itemColumns, hexpr, hitem]
  rfl

theorem seesSets_countDistinct : SeesSets countDistinct := by
  refine ⟨fun _ e he => ?_, fun _ => ⟨_, List.mem_singleton_self _, ?_⟩, nofun⟩
  · obtain rfl := List.mem_singleton.mp he
    simp [hidden, anyHidden, calls]
  · simp [calls, count_toLower, aggCall]

end Repeated

end OntologicalDb.MultiplicityBlind
