import OntologicalDb.ExceptRules
import OntologicalDb.IntegerArithmetic
import OntologicalDb.RowEvaluator
import OntologicalDb.SortedProjections

/-!
The `RETURN` of a write query, evaluated row by row, and the projection of a
read query over the same rows.
-/

namespace OntologicalDb.WriteReturn

open OntologicalDb.CompileExpr
open OntologicalDb.CypherSyntax
open OntologicalDb.ExceptRules
open OntologicalDb.Projection
open OntologicalDb.RowDocuments
open OntologicalDb.RowEvaluator
open OntologicalDb.SortedProjections
open OntologicalDb.Sql
open OntologicalDb.TypeCatalog
open OntologicalDb.Values

section Execution

variable {F : Type} (rt : Runtime F) (params : Value F)

abbrev Fields (F : Type) := List (String × Value F)

def evalOrNull (e : Expr) (row : RowEvaluator.Env F) : Value F :=
  match eval rt params e row with
  | .ok v => v
  | .error _ => .null

/-- The value of an item in a row; an aggregate keeps its argument. -/
def itemValue (e : Expr) (row : RowEvaluator.Env F) : Value F :=
  match e with
  | .func name args distinct =>
      if (Expr.func name args distinct).isAggregate then
        match args with
        | [] | .star :: _ => .bool true
        | a :: _ => evalOrNull rt params a row
      else evalOrNull rt params (.func name args distinct) row
  | e => evalOrNull rt params e row

def returnRow (items : List ReturnItem) (row : RowEvaluator.Env F) : Fields F :=
  items.foldl (fun obj item => insertField item.name (itemValue rt params item.expr row) obj) []

/-- The order of two values: as doubles, else as texts. -/
def cmpJson (a b : Value F) : Ordering :=
  match a, b with
  | .number x, .number y =>
      if rt.lt (x.asF64 rt) (y.asF64 rt) then .lt
      else if rt.lt (y.asF64 rt) (x.asF64 rt) then .gt
      else .eq
  | a, b => compare (a.text rt) (b.text rt)

/-- The values whose text has not occurred before. -/
def retainDistinct : List (Value F) → List String → List (Value F)
  | [], _ => []
  | v :: vs, seen =>
      if v.text rt ∈ seen then retainDistinct vs seen
      else v :: retainDistinct vs (v.text rt :: seen)

def asDoubles (values : List (Value F)) : List F :=
  values.filterMap fun v =>
    match v with
    | .number n => some (n.asF64 rt)
    | _ => none

/-- One of several equal minima is the first, one of several maxima the last. -/
def minBy : List (Value F) → Value F
  | [] => .null
  | v :: vs => vs.foldl (fun m x => if cmpJson rt m x = .gt then x else m) v

def maxBy : List (Value F) → Value F
  | [] => .null
  | v :: vs => vs.foldl (fun m x => if cmpJson rt m x = .gt then m else x) v

/-- A function of a returned item over its column. -/
def foldFunc (name : String) (args : List Expr) (distinct : Bool) (column : List (Value F)) :
    Value F :=
  let present := column.filter fun v => !v.isNull
  let values := if distinct then retainDistinct rt present [] else present
  let total := (asDoubles rt values).foldl rt.add (rt.ofInt 0)
  match name.toLower with
  | "count" =>
      match args with
      | .star :: _ => .number (.int column.length)
      | _ => .number (.int values.length)
  | "collect" => .array values
  | "sum" => jsonFloat rt total
  | "avg" =>
      if (asDoubles rt values).isEmpty then .null
      else jsonFloat rt (rt.div total (rt.ofInt (asDoubles rt values).length))
  | "min" => minBy rt values
  | "max" => maxBy rt values
  | _ => .null

def columnOf (name : String) (rows : List (Fields F)) : List (Value F) :=
  rows.map fun r => ((Value.object r).get name).getD .null

/-- The rows of a `RETURN` with an aggregate folded into one; an item that is no
function call takes its value from the first row. -/
def foldAggregates (items : List ReturnItem) (rows : List (Fields F)) : Fields F :=
  items.foldl (fun obj item =>
    let column := columnOf item.name rows
    let value := match item.expr with
      | .func name args distinct => foldFunc rt name args distinct column
      | _ => column.headD .null
    insertField item.name value obj) []

def runReturn (proj : Projection) (rows : List (RowEvaluator.Env F)) : List (Fields F) :=
  let out := rows.map (returnRow rt params proj.items)
  if hasAggregateItem proj then [foldAggregates rt proj.items out] else out

end Execution

section Fields

variable {F : Type} {obj : Fields F} {key : String} {v : Value F}

theorem get_insertField_self : (Value.object (insertField key v obj)).get key = some v := by
  induction obj with
  | nil => simp [insertField, Value.get]
  | cons kv obj ih =>
      obtain ⟨k, x⟩ := kv
      unfold insertField
      split
      · simp [Value.get]
      · next hne =>
          split
          · simp [Value.get]
          · have hk : ¬k = key := fun h => hne h.symm
            simpa [Value.get, hk] using ih

theorem get_insertField_ne {other : String} (h : other ≠ key) :
    (Value.object (insertField key v obj)).get other = (Value.object obj).get other := by
  have hkey : ¬key = other := fun heq => h heq.symm
  induction obj with
  | nil => simp [insertField, Value.get, hkey]
  | cons kv obj ih =>
      obtain ⟨k, x⟩ := kv
      unfold insertField
      split
      · next heq => simp [Value.get, ← heq, hkey]
      · split
        · simp [Value.get, hkey]
        · by_cases hk : k = other
          · simp [Value.get, hk]
          · simpa [Value.get, hk] using ih

/-- An object built field by field has each field's value, when no name is set
twice. -/
theorem get_foldl_insertField {items : List ReturnItem} {f : ReturnItem → Value F}
    (hnames : (items.map ReturnItem.name).Nodup) (obj : Fields F) :
    (∀ item ∈ items, (Value.object (items.foldl (fun obj item =>
      insertField item.name (f item) obj) obj)).get item.name = some (f item)) ∧
    ∀ other ∉ items.map ReturnItem.name, (Value.object (items.foldl (fun obj item =>
      insertField item.name (f item) obj) obj)).get other = (Value.object obj).get other := by
  induction items generalizing obj with
  | nil => exact ⟨nofun, fun _ _ => rfl⟩
  | cons item items ih =>
      rw [List.map_cons, List.nodup_cons] at hnames
      obtain ⟨hset, hkept⟩ := ih hnames.2 (insertField item.name (f item) obj)
      constructor
      · intro i hi
        rcases List.mem_cons.mp hi with rfl | hi
        · exact (hkept _ hnames.1).trans get_insertField_self
        · exact hset i hi
      · intro other hother
        rw [List.map_cons, List.mem_cons, not_or] at hother
        exact (hkept other hother.2).trans (get_insertField_ne hother.1)

end Fields

section Agreement

variable {F : Type} (rt : Runtime F) (params : Value F) (numeral : F → Decimal)

mutual

/-- A value as the document it is written as. -/
def docOf : Value F → Json
  | .null => .null
  | .bool b => .bool b
  | .number (.int i) => .num ⟨i, 0⟩
  | .number (.float f) => .num (numeral f)
  | .string s => .str s
  | .array xs => .arr (docsOf xs)
  | .object kvs => .obj (docFieldsOf kvs)

def docsOf : List (Value F) → List Json
  | [] => []
  | x :: xs => docOf x :: docsOf xs

def docFieldsOf : List (String × Value F) → List (String × Json)
  | [] => []
  | (k, x) :: kvs => (k, docOf x) :: docFieldsOf kvs

end

variable (env : Sql.Env) (rows : List (RowEvaluator.Env F × Scope))

/-- Both paths give an expression the same value in every row. -/
def SameValue (e : Expr) (sql : SqlExpr) : Prop :=
  ∀ r ∈ rows, docOf numeral (evalOrNull rt params e r.1) = toJson (sql.eval env [] r.2)

/-- Both paths find the argument of an aggregate missing in the same rows and
equal in the same rows. -/
structure SameArgument (e : Expr) (sql : SqlExpr) : Prop where
  null : ∀ r ∈ rows, (evalOrNull rt params e r.1).isNull = true ↔ sql.eval env [] r.2 = .null
  equal : ∀ r ∈ rows, ∀ r' ∈ rows,
    (evalOrNull rt params e r.1).text rt = (evalOrNull rt params e r'.1).text rt ↔
      sql.eval env [] r.2 = sql.eval env [] r'.2

/-- An aggregate of an item: a count of rows, a count of the values of an
argument, or another one whose fold is the server's aggregate. -/
def SameAggregate (name : String) (args : List Expr) (distinct : Bool) (sql : SqlExpr) : Prop :=
  match name.toLower, args, sql with
  | "count", [], .agg .count _ [] => distinct = false
  | "count", .star :: _, .agg .count _ [] => True
  | "count", x :: _, .agg .count d [arg] =>
      x ≠ .star ∧ d = distinct ∧ SameArgument rt params env rows x arg
  | _, _, sql =>
      docOf numeral (foldFunc rt name args distinct
        (rows.map fun r => itemValue rt params (.func name args distinct) r.1)) =
          toJson (sql.eval env (rows.map (·.2)) ((rows.map (·.2)).headD emptyScope))

theorem length_retainDistinct {values : List (Value F)} (seen : List String) :
    (retainDistinct rt values seen).length =
      (((values.map fun v => v.text rt).filter (· ∉ seen)).dedup).length := by
  induction values generalizing seen with
  | nil => rfl
  | cons v values ih =>
      unfold retainDistinct
      by_cases hseen : v.text rt ∈ seen
      · rw [if_pos hseen, ih, List.map_cons, List.filter_cons_of_neg (by simpa using hseen)]
      · rw [if_neg hseen, List.length_cons, ih, List.map_cons,
          List.filter_cons_of_pos (by simpa using hseen)]
        have hrest : ((values.map fun v => v.text rt).filter (· ∉ v.text rt :: seen)) =
            (((values.map fun v => v.text rt).filter (· ∉ seen)).filter (· ≠ v.text rt)) := by
          rw [List.filter_filter]
          apply List.filter_congr
          intro t _
          simp [not_or]
        rw [hrest]
        generalize (values.map fun v => v.text rt).filter (· ∉ seen) = texts
        have hset : (v.text rt :: texts).toFinset =
            insert (v.text rt) (texts.filter (· ≠ v.text rt)).toFinset := by
          ext t
          by_cases ht : t = v.text rt <;> simp [ht]
        have hcard := congrArg Finset.card hset
        rw [Finset.card_insert_of_notMem (by simp), List.card_toFinset, List.card_toFinset] at hcard
        exact hcard.symm

variable {rt params numeral env rows} {s : Scope}

/-- Both paths keep the values of the same rows. -/
theorem present_eq {x : Expr} {arg : SqlExpr} (h : SameArgument rt params env rows x arg) :
    ∃ kept : List (RowEvaluator.Env F × Scope), (∀ r ∈ kept, r ∈ rows) ∧
      ((rows.map fun r => evalOrNull rt params x r.1).filter fun v => !v.isNull) =
        kept.map (fun r => evalOrNull rt params x r.1) ∧
      ((rows.map fun r => arg.eval env [] r.2).filter fun v => v ≠ .null) =
        kept.map (fun r => arg.eval env [] r.2) := by
  refine ⟨rows.filter fun r => arg.eval env [] r.2 ≠ .null, fun r hr => (List.mem_filter.mp hr).1,
    ?_, List.filter_map⟩
  rw [List.filter_map]
  congr 1
  apply List.filter_congr
  intro r hr
  have hnull := h.null r hr
  cases hv : (evalOrNull rt params x r.1).isNull <;> simp [hv] at hnull ⊢ <;> exact hnull

theorem length_distinct_eq {x : Expr} {arg : SqlExpr} (h : SameArgument rt params env rows x arg)
    {kept : List (RowEvaluator.Env F × Scope)} (hkept : ∀ r ∈ kept, r ∈ rows) :
    (retainDistinct rt (kept.map fun r => evalOrNull rt params x r.1) []).length =
      (kept.map fun r => arg.eval env [] r.2).toFinset.card := by
  rw [length_retainDistinct, List.card_toFinset, List.map_map]
  have hall (l : List String) : l.filter (· ∉ []) = l := by simp
  rw [hall, ← RowGroups.length_groupBy, ← RowGroups.length_groupBy]
  apply List.Perm.length_eq
  apply RowGroups.groupBy_congr
  intro r hr r' hr'
  exact h.equal r (hkept r hr) r' (hkept r' hr')

theorem foldFunc_count {x : Expr} {rest : List Expr} {distinct : Bool} {arg : SqlExpr}
    {name : String} (h : SameArgument rt params env rows x arg) (hname : name.toLower = "count")
    (hstar : x ≠ .star) :
    docOf numeral (foldFunc rt name (x :: rest) distinct
      (rows.map fun r => evalOrNull rt params x r.1)) =
        toJson ((SqlExpr.agg .count distinct [arg]).eval env (rows.map (·.2)) s) := by
  obtain ⟨kept, hkept, hvalues, hvals⟩ := present_eq h
  have hcolumn : (rows.map (·.2)).map (fun s => (SqlExpr.evals env [] s [arg]).headD .null) =
      rows.map fun r => arg.eval env [] r.2 := by
    rw [List.map_map]
    rfl
  have hlength := length_distinct_eq h hkept
  cases x with
  | star => exact absurd rfl hstar
  | _ =>
      simp only [foldFunc, hname, hvalues, SqlExpr.eval, hcolumn, Agg.apply, hvals]
      cases distinct with
      | false => simp [docOf, toJson]
      | true => simp [docOf, toJson, hlength]

variable (rt params numeral env rows)

/-- An item of a `RETURN` that aggregates: an aggregate by itself, or no
function call at all. -/
def SameFolded (item : ReturnItem) (x : Nat × SqlExpr) : Prop :=
  match item.expr with
  | .func name args distinct =>
      (Expr.func name args distinct).isAggregate = true ∧
        SameAggregate rt params numeral env rows name args distinct x.2
  | e => e.isAggregate = false ∧ SameValue rt params numeral env rows e x.2

end Agreement

section Columns

variable {c : Catalog} {binds : Binds} {hasAgg : Bool}

/-- Without `*` every item has its column, and the items that do not aggregate
are grouped by. -/
theorem itemColumns_plain {items : List ReturnItem} {i n m : Nat} {acc acc' : Columns}
    (hstar : ∀ item ∈ items, item.expr ≠ .star)
    (h : itemColumns c binds hasAgg items i acc n = .ok (acc', m)) :
    acc'.names = acc.names ++ items.map ReturnItem.name ∧
      ∃ cols, acc'.cols = acc.cols ++ cols ∧ cols.length = items.length ∧
        acc'.groupBy = acc.groupBy ++ ((items.zip cols).filter fun x =>
          hasAgg && !x.1.expr.isAggregate).map (·.2.2) := by
  induction items generalizing i n acc with
  | nil =>
      obtain ⟨rfl, -⟩ := Prod.mk.inj (Except.ok.inj h)
      exact ⟨by simp, [], by simp⟩
  | cons item items ih =>
      obtain ⟨hitem, hitems⟩ := List.forall_mem_cons.mp hstar
      unfold itemColumns at h
      split at h
      · next hexpr => exact absurd hexpr hitem
      · obtain ⟨⟨sql, n'⟩, -, h⟩ := bind_eq_ok.mp h
        obtain ⟨hnames, cols, hcols, hlength, hgroup⟩ := ih hitems h
        refine ⟨by simp [hnames], (i, sql) :: cols, by simp [hcols], by simp [hlength], ?_⟩
        rw [hgroup, List.zip_cons_cons, List.filter_cons]
        split <;> simp_all

/-- A projection of named items, with nothing after it. -/
structure Plain (proj : Projection) : Prop where
  all : proj.distinct = false
  unsorted : proj.order = []
  unpaged : proj.skip = none ∧ proj.limit = none
  names : (proj.items.map ReturnItem.name).Nodup
  items : ∀ item ∈ proj.items, item.expr ≠ .star

theorem buildCore_plain {proj : Projection} {n m : Nat} {sel : Select} (hplain : Plain proj)
    (h : buildCore c binds proj n = .ok (sel, m)) :
    sel.distinct = false ∧ sel.orderCols = [] ∧ sel.limit = none ∧ sel.skip = none ∧
      sel.names = proj.items.map ReturnItem.name ∧
      sel.groupBy = ((proj.items.zip sel.cols).filter fun x =>
        hasAggregateItem proj && !x.1.expr.isAggregate).map (·.2.2) := by
  unfold buildCore at h
  rw [hplain.unsorted, hplain.unpaged.1, hplain.unpaged.2] at h
  obtain ⟨⟨columns, n1⟩, hcolumns, h⟩ := bind_eq_ok.mp h
  obtain ⟨rfl, -⟩ := Prod.mk.inj (pure_eq_ok.mp h)
  obtain ⟨hnames, cols, hcols, -, hgroup⟩ := itemColumns_plain hplain.items hcolumns
  refine ⟨hplain.all, rfl, rfl, rfl, hnames, ?_⟩
  rw [List.nil_append] at hcols hgroup
  rw [hcols]
  exact hgroup

end Columns

section Projections

variable {F : Type} (rt : Runtime F) (params : Value F) (numeral : F → Decimal)
variable (env : Sql.Env) (rows : List (RowEvaluator.Env F × Scope))

/-- A row as the result shows it. -/
def shownRow (names : List String) (obj : Fields F) : List Json :=
  names.map fun k => docOf numeral (((Value.object obj).get k).getD .null)

/-- The rows a write query returns are rows the read path may yield. -/
def ReturnsLikeRead (le : Val → Val → Bool) (proj : Projection) (sel : Select) : Prop :=
  ∃ out, sel.Yields env le (rows.map (·.2)) out ∧
    (runReturn rt params proj (rows.map (·.1))).map (shownRow numeral sel.names) =
      out.map fun vals => vals.map toJson

/-- Without aggregates the two paths agree on every item; with one, the rows are
one group and every item is folded alike. -/
def SameItems (proj : Projection) (sel : Select) : Prop :=
  if hasAggregateItem proj then
    (∀ r ∈ rows, ∀ r' ∈ rows, sel.key env r.2 = sel.key env r'.2) ∧
      (rows = [] → sel.groupBy = []) ∧
      List.Forall₂ (SameFolded rt params numeral env rows) proj.items sel.cols
  else List.Forall₂ (fun item x => SameValue rt params numeral env rows item.expr x.2)
    proj.items sel.cols

variable {rt params numeral env rows}

theorem map_eq_of_forall₂ {items : List ReturnItem} {cols : List (Nat × SqlExpr)}
    {P : ReturnItem → Nat × SqlExpr → Prop} {f : ReturnItem → Json} {g : Nat × SqlExpr → Json}
    (h : List.Forall₂ P items cols)
    (hfg : ∀ item x, (item, x) ∈ items.zip cols → P item x → f item = g x) :
    items.map f = cols.map g := by
  induction h with
  | nil => rfl
  | cons hx _ ih =>
      rw [List.map_cons, List.map_cons, hfg _ _ List.mem_cons_self hx,
        ih fun item x hmem => hfg item x (List.mem_cons_of_mem _ hmem)]

theorem shownRow_fold {proj : Projection} (hnames : (proj.items.map ReturnItem.name).Nodup)
    {f : ReturnItem → Value F} :
    shownRow numeral (proj.items.map ReturnItem.name)
        (proj.items.foldl (fun obj item => insertField item.name (f item) obj) []) =
      proj.items.map fun item => docOf numeral (f item) := by
  unfold shownRow
  rw [List.map_map]
  apply List.map_congr_left
  intro item hitem
  have hget := (get_foldl_insertField (f := f) hnames []).1 item hitem
  simp only [Function.comp_apply, hget, Option.getD_some]

theorem itemValue_plain {e : Expr} (h : e.isAggregate = false) (row : RowEvaluator.Env F) :
    itemValue rt params e row = evalOrNull rt params e row := by
  cases e with
  | func name args distinct =>
      simp only [itemValue, h, Bool.false_eq_true, if_false]
  | _ => rfl

theorem yields_unsorted {le : Val → Val → Bool} {sel : Select} {bound : List Scope}
    (horder : sel.orderCols = []) (hlimit : sel.limit = none) (hskip : sel.skip = none) :
    sel.Yields env le bound (sel.bag env bound) := by
  refine ⟨sel.tuples env bound, List.Perm.refl _, ?_, ?_⟩
  · rw [horder]
    apply List.pairwise_of_forall
    intro x y
    rfl
  · rw [hlimit, hskip]
    rfl

/-- One row for each bound row. -/
theorem returnsLikeRead_rows {le : Val → Val → Bool} {proj : Projection} {sel : Select}
    (hplain : Plain proj) (hagg : hasAggregateItem proj = false) (hgrouped : sel.grouped = false)
    (hdistinct : sel.distinct = false) (horder : sel.orderCols = []) (hlimit : sel.limit = none)
    (hskip : sel.skip = none) (hnames : sel.names = proj.items.map ReturnItem.name)
    (hsame : List.Forall₂ (fun item x => SameValue rt params numeral env rows item.expr x.2)
      proj.items sel.cols) : ReturnsLikeRead rt params numeral env rows le proj sel := by
  refine ⟨_, yields_unsorted horder hlimit hskip, ?_⟩
  unfold runReturn
  rw [if_neg (by simp [hagg]), bag_all hdistinct, units_ungrouped hgrouped, hnames]
  simp only [List.map_map]
  apply List.map_congr_left
  intro r hr
  change shownRow numeral _ (returnRow rt params proj.items r.1) =
    (sel.values env (r.2, [])).map toJson
  unfold returnRow Select.values
  rw [shownRow_fold hplain.names, List.map_map]
  apply map_eq_of_forall₂ hsame
  intro item x hmem hvalue
  have hitem : item.expr.isAggregate = false := by
    have hall := hagg
    unfold hasAggregateItem at hall
    simpa using List.any_eq_false.mp hall item (List.of_mem_zip hmem).1
  rw [itemValue_plain hitem]
  exact hvalue r hr

theorem columnOf_returnRow {proj : Projection} (hnames : (proj.items.map ReturnItem.name).Nodup)
    {item : ReturnItem} (hitem : item ∈ proj.items) :
    columnOf item.name ((rows.map (·.1)).map (returnRow rt params proj.items)) =
      rows.map fun r => itemValue rt params item.expr r.1 := by
  unfold columnOf
  rw [List.map_map, List.map_map]
  apply List.map_congr_left
  intro r _
  have hget := (get_foldl_insertField
    (f := fun item => itemValue rt params item.expr r.1) hnames []).1 item hitem
  simp only [Function.comp_apply, returnRow, hget, Option.getD_some]

theorem foldFunc_rows {name : String} {args : List Expr} {folds distinct : Bool}
    (hname : name.toLower = "count")
    (hargs : args = [] ∧ folds = false ∨ ∃ rest, args = .star :: rest) :
    docOf numeral (foldFunc rt name args folds (rows.map fun _ => .bool true)) =
      toJson ((SqlExpr.agg .count distinct []).eval env (rows.map (·.2)) s) := by
  have hall (k : Nat) : (List.replicate k (Value.bool true : Value F)).filter
      (fun v => !v.isNull) = List.replicate k (.bool true) :=
    List.filter_replicate_of_pos rfl
  rcases hargs with ⟨rfl, rfl⟩ | ⟨rest, rfl⟩
  · simp [foldFunc, hname, hall, docOf, SqlExpr.eval, toJson]
  · simp [foldFunc, hname, docOf, SqlExpr.eval, toJson]

theorem sameAggregate_eq {name : String} {args : List Expr} {distinct : Bool} {sql : SqlExpr}
    (hagg : (Expr.func name args distinct).isAggregate = true)
    (h : SameAggregate rt params numeral env rows name args distinct sql) :
    docOf numeral (foldFunc rt name args distinct
      (rows.map fun r => itemValue rt params (.func name args distinct) r.1)) =
        toJson (sql.eval env (rows.map (·.2)) ((rows.map (·.2)).headD emptyScope)) := by
  unfold SameAggregate at h
  split at h
  · rename_i hname
    simp only [itemValue, hagg, if_true]
    exact foldFunc_rows hname (.inl ⟨rfl, h⟩)
  · rename_i hname
    simp only [itemValue, hagg, if_true]
    exact foldFunc_rows hname (.inr ⟨_, rfl⟩)
  · rename_i x rest d arg hname
    obtain ⟨hstar, rfl, harg⟩ := h
    have hcolumn : (rows.map fun r => itemValue rt params (.func name (x :: rest) d) r.1) =
        rows.map fun r => evalOrNull rt params x r.1 := by
      apply List.map_congr_left
      intro r _
      simp only [itemValue, hagg, if_true]
    rw [hcolumn]
    exact foldFunc_count harg hname hstar
  · exact h

/-- A folded item shows the value of its column over the one group. -/
theorem folded_eq {item : ReturnItem} {x : Nat × SqlExpr}
    (h : SameFolded rt params numeral env rows item x)
    (hplain : item.expr.isAggregate = false → rows ≠ [] ∧ hasAggregate x.2 = false) :
    docOf numeral (match item.expr with
      | .func name args distinct =>
          foldFunc rt name args distinct (rows.map fun r => itemValue rt params item.expr r.1)
      | _ => (rows.map fun r => itemValue rt params item.expr r.1).headD .null) =
      toJson (x.2.eval env (rows.map (·.2)) ((rows.map (·.2)).headD emptyScope)) := by
  unfold SameFolded at h
  cases hexpr : item.expr with
  | func name args distinct =>
      rw [hexpr] at h
      exact sameAggregate_eq h.1 h.2
  | _ =>
      rw [hexpr] at h hplain
      obtain ⟨hrows, hnone⟩ := hplain h.1
      cases rows with
      | nil => exact absurd rfl hrows
      | cons r rest =>
          rw [eval_group x.2 hnone]
          exact h.2 r List.mem_cons_self

/-- One row for the one group. -/
theorem returnsLikeRead_group {le : Val → Val → Bool} {proj : Projection} {sel : Select}
    (hplain : Plain proj) (hagg : hasAggregateItem proj = true) (hgrouped : sel.grouped = true)
    (hdistinct : sel.distinct = false) (horder : sel.orderCols = []) (hlimit : sel.limit = none)
    (hskip : sel.skip = none) (hnames : sel.names = proj.items.map ReturnItem.name)
    (hgroupBy : sel.groupBy = ((proj.items.zip sel.cols).filter fun x =>
      hasAggregateItem proj && !x.1.expr.isAggregate).map (·.2.2)) (haccepted : sel.Accepted)
    (hkey : ∀ r ∈ rows, ∀ r' ∈ rows, sel.key env r.2 = sel.key env r'.2)
    (hempty : rows = [] → sel.groupBy = [])
    (hsame : List.Forall₂ (SameFolded rt params numeral env rows) proj.items sel.cols) :
    ReturnsLikeRead rt params numeral env rows le proj sel := by
  have hunits : sel.units env (rows.map (·.2)) = [unitOf (rows.map (·.2))] := by
    cases hrows : rows with
    | nil => rw [List.map_nil, units_nil hgrouped, if_pos (hempty hrows)]; rfl
    | cons r rest =>
        rw [← hrows, units_grouped hgrouped (by simp [hrows]), RowGroups.groupBy_single]
        · rfl
        · simp [hrows]
        · intro s hs s' hs'
          obtain ⟨r, hr, rfl⟩ := List.mem_map.mp hs
          obtain ⟨r', hr', rfl⟩ := List.mem_map.mp hs'
          exact hkey r hr r' hr'
  refine ⟨_, yields_unsorted horder hlimit hskip, ?_⟩
  unfold runReturn foldAggregates
  rw [if_pos hagg, bag_all hdistinct, hunits, hnames, List.map_singleton, List.map_singleton,
    List.map_singleton, shownRow_fold hplain.names]
  congr 1
  unfold Select.values
  rw [List.map_map (l := sel.cols)]
  apply map_eq_of_forall₂ hsame
  intro item x hmem hfolded
  rw [columnOf_returnRow hplain.names (List.of_mem_zip hmem).1]
  apply folded_eq hfolded
  intro hitem
  have hin : x.2 ∈ sel.groupBy := by
    rw [hgroupBy]
    exact List.mem_map.mpr ⟨(item, x), List.mem_filter.mpr ⟨hmem, by simp [hagg, hitem]⟩, rfl⟩
  refine ⟨fun hrows => ?_, haccepted.keys _ hin⟩
  rw [hempty hrows] at hin
  exact absurd hin List.not_mem_nil

end Projections

section Repeated

open OntologicalDb.IntegerArithmetic

/-- `UNWIND [1, 1] AS x`, as both paths bind it. -/
def repeatedRows : List (RowEvaluator.Env Rat × Scope) :=
  let row : RowEvaluator.Env Rat := fun v => if v = "x" then some (.number (.int 1)) else none
  [(row, fun _ => elementTuple (.num ⟨1, 0⟩)), (row, fun _ => elementTuple (.num ⟨1, 0⟩))]

def returnVar (distinct : Bool) : Projection := ⟨[⟨.var "x", none⟩], distinct, [], none, none⟩

def selectReturned (distinct : Bool) : Select :=
  ⟨distinct, [(0, .col ⟨"uw", 1⟩ "v")], ["x"], [], [], none, none⟩

theorem sameItems_repeated (distinct : Bool) :
    SameItems exactRuntime .null (fun q => ⟨q.num, 0⟩) noTypesEnv repeatedRows
      (returnVar distinct) (selectReturned distinct) := by
  refine .cons ?_ .nil
  intro r hr
  simp only [repeatedRows, List.mem_cons, List.not_mem_nil, or_false, or_self] at hr
  subst hr
  rfl

end Repeated

end OntologicalDb.WriteReturn
