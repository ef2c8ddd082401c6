import OntologicalDb.CompileExpr
import OntologicalDb.ExceptRules
import OntologicalDb.Projection

/-!
The aggregates a compiled expression calls, read off the syntax of the
expression.
-/

namespace OntologicalDb.AggregateCalls

open OntologicalDb.CompileExpr
open OntologicalDb.CypherSyntax
open OntologicalDb.ExceptRules
open OntologicalDb.Projection
open OntologicalDb.Sql
open OntologicalDb.TypeCatalog
open OntologicalDb.Values

/-- A call of an aggregate: over `DISTINCT` values or all of them, with an
argument or over rows. -/
structure AggCall where
  kind : Agg
  distinct : Bool
  hasArgument : Bool
deriving DecidableEq

section Compiled

mutual

/-- Is one of the aggregates an expression calls of this kind? -/
def someCall (f : AggCall → Bool) : SqlExpr → Bool
  | .lit _ _ | .param _ | .col _ _ => false
  | .app _ _ args => someCalls f args
  | .listComp _ src body cond _ => someCall f src || someCall f body || someCall f cond
  | .listPred _ _ src cond => someCall f src || someCall f cond
  | .agg k distinct args => f ⟨k, distinct, !args.isEmpty⟩

def someCalls (f : AggCall → Bool) : List SqlExpr → Bool
  | [] => false
  | e :: es => someCall f e || someCalls f es

end

variable {f : AggCall → Bool}

theorem someCalls_eq_false {es : List SqlExpr} :
    someCalls f es = false ↔ ∀ e ∈ es, someCall f e = false := by
  induction es with
  | nil => simp [someCalls]
  | cons e es ih => simp [someCalls, ih]

theorem someCalls_append {es fs : List SqlExpr} :
    someCalls f (es ++ fs) = (someCalls f es || someCalls f fs) := by
  induction es with
  | nil => rfl
  | cons e es ih => simp [someCalls, ih, Bool.or_assoc]

mutual

theorem hasAggregate_eq : ∀ e : SqlExpr, hasAggregate e = someCall (fun _ => true) e
  | .lit _ _ | .param _ | .col _ _ | .agg _ _ _ => rfl
  | .app _ _ args => anyHasAggregate_eq args
  | .listComp _ src body cond _ => by
      rw [hasAggregate, someCall, hasAggregate_eq src, hasAggregate_eq body, hasAggregate_eq cond]
  | .listPred _ _ src cond => by
      rw [hasAggregate, someCall, hasAggregate_eq src, hasAggregate_eq cond]

theorem anyHasAggregate_eq : ∀ es : List SqlExpr,
    anyHasAggregate es = someCalls (fun _ => true) es
  | [] => rfl
  | e :: es => by
      rw [anyHasAggregate, someCalls, hasAggregate_eq e, anyHasAggregate_eq es]

end

end Compiled

section Written

/-- The aggregate a function call stands for. -/
def aggCall : String → List Expr → Bool → Option AggCall
  | "count", [], _ => some ⟨.count, false, false⟩
  | "count", .star :: _, _ => some ⟨.count, false, false⟩
  | "count", _ :: _, distinct => some ⟨.count, distinct, true⟩
  | "sum", _ :: _, distinct => some ⟨.sum, distinct, true⟩
  | "avg", _ :: _, distinct => some ⟨.avg, distinct, true⟩
  | "min", _ :: _, distinct => some ⟨.min, distinct, true⟩
  | "max", _ :: _, distinct => some ⟨.max, distinct, true⟩
  | "collect", _ :: _, distinct => some ⟨.collect, distinct, true⟩
  | "stdev", _ :: _, _ => some ⟨.stdev, false, true⟩
  | _, _, _ => none

/-- The number of arguments the SQL of a function reads; it drops the others. -/
def keptArgs (name : String) (count : Nat) : Nat :=
  match plainFunction name with
  | some (_, pieces) => pieces.length - 1
  | none =>
      match name with
      | "substring" => if count = 3 then 3 else 2
      | "coalesce" => count
      | "nodes" | "relationships" => 1
      | "genai.vector.encode" => 3
      | _ => 0

mutual

/-- Is one of the aggregates the compiled expression calls of this kind? -/
def calls (f : AggCall → Bool) : Expr → Bool
  | .func name args distinct =>
      match aggCall name.toLower args distinct with
      | some k => f k
      | none => callsFirst f (keptArgs name.toLower args.length) args
  | .binary _ a b => calls f a || calls f b
  | .not a | .neg a | .isNull a _ => calls f a
  | .list xs => callsFirst f xs.length xs
  | .map kvs => callsValue f kvs
  | .case operand whens otherwise =>
      callsOption f operand || callsWhen f whens || callsOption f otherwise
  | .listComp _ source filter project =>
      calls f source || callsOption f project || callsOption f filter
  | .listPred _ _ source filter => calls f source || calls f filter
  | .mapProjection _ items => callsItem f items
  | .lit _ | .param _ | .var _ | .prop _ _ | .star => false

def callsOption (f : AggCall → Bool) : Option Expr → Bool
  | some e => calls f e
  | none => false

/-- The same for the first expressions of a list. -/
def callsFirst (f : AggCall → Bool) : Nat → List Expr → Bool
  | 0, _ => false
  | _ + 1, [] => false
  | k + 1, e :: es => calls f e || callsFirst f k es

def callsValue (f : AggCall → Bool) : List (String × Expr) → Bool
  | [] => false
  | (_, e) :: kvs => calls f e || callsValue f kvs

def callsWhen (f : AggCall → Bool) : List (Expr × Expr) → Bool
  | [] => false
  | (w, v) :: whens => calls f w || (calls f v || callsWhen f whens)

def callsItem (f : AggCall → Bool) : List MapProjItem → Bool
  | [] => false
  | .entry _ e :: items => calls f e || callsItem f items
  | .prop _ :: items => callsItem f items
  | .all :: items => callsItem f items

end

end Written

section

-- Generates the equations of these functions once, before the proofs that use them.
attribute [local simp] someCall someCalls calls callsOption callsFirst callsValue callsWhen
  callsItem aggCall keptArgs

end

section Bindings

variable {f : AggCall → Bool} {c : Catalog} {a : Alias} {tid : Option Int}

/-- What a variable stands for calls no aggregate. -/
def PlainBind : Bind → Prop
  | .node _ _ => True
  | .rel _ _ idExpr => ∀ f, someCall f idExpr = false
  | .path hops => ∀ f, someCall f hops = false
  | .scalar sql => ∀ f, someCall f sql = false

def PlainBinds (binds : Binds) : Prop := ∀ v b, lookupBind binds v = some b → PlainBind b

theorem someCall_propSql {prop : String} : someCall f (propSql c a tid prop).1 = false := by
  unfold propSql
  split
  · rfl
  · split
    · split <;> rfl
    · rfl

theorem someCall_propSqlJson {prop : String} : someCall f (propSqlJson c a tid prop) = false := by
  unfold propSqlJson
  split
  · rfl
  · split
    · split <;> rfl
    · rfl

theorem someCall_elementSql {fixed : List (String × SqlExpr)} {t : Int}
    (hfixed : ∀ e ∈ fixed.map (·.2), someCall f e = false) :
    someCall f (elementSql c a fixed t) = false := by
  change someCalls f (idOf a :: _ ++ [SqlExpr.col a "__ext"]) = false
  rw [someCalls_eq_false]
  intro e he
  rcases List.mem_append.mp he with he | he
  · rcases List.mem_cons.mp he with rfl | he
    · rfl
    · rcases List.mem_append.mp he with he | he
      · exact hfixed e he
      · obtain ⟨p, -, rfl⟩ := List.mem_map.mp he
        rfl
  · rw [List.mem_singleton.mp he]
    rfl

theorem someCall_nodeJson : someCall f (nodeJson c a tid) = false := by
  unfold nodeJson
  split
  · apply someCall_elementSql
    simp [idOf, typeNameSql, someCall, someCalls]
  · rfl

theorem someCall_relJson {t : Int} : someCall f (relJson c a t) = false := by
  apply someCall_elementSql
  simp [idOf, typeNameSql, someCall, someCalls]

end Bindings

section Variables

variable {f : AggCall → Bool} {c : Catalog} {binds : Binds} {v p : String} {x : SqlExpr}

theorem someCall_varValue (hb : PlainBinds binds) (h : varValue c binds v = .ok x) :
    someCall f x = false := by
  unfold varValue at h
  split at h
  · obtain rfl := Except.ok.inj h
    exact someCall_nodeJson
  · obtain rfl := Except.ok.inj h
    exact someCall_relJson
  · next hv =>
    obtain rfl := Except.ok.inj h
    simpa [someCall, someCalls] using hb v _ hv f
  · next hv =>
    obtain rfl := Except.ok.inj h
    exact hb v _ hv f
  · next hv =>
    obtain rfl := Except.ok.inj h
    exact hb v _ hv f
  · simp at h

theorem someCall_propOperand (hb : PlainBinds binds) (h : propOperand c binds v p = .ok x) :
    someCall f x = false := by
  unfold propOperand at h
  split at h
  · obtain rfl := Except.ok.inj h
    exact someCall_propSql
  · obtain rfl := Except.ok.inj h
    exact someCall_propSql
  · next hv =>
    obtain rfl := Except.ok.inj h
    simpa [someCall, someCalls] using hb v _ hv f
  · next hv =>
    obtain rfl := Except.ok.inj h
    simpa [someCall, someCalls] using hb v _ hv f
  · simp at h
  · simp at h

theorem someCall_propOutput (hb : PlainBinds binds) (h : propOutput c binds v p = .ok x) :
    someCall f x = false := by
  unfold propOutput at h
  split at h
  · obtain rfl := Except.ok.inj h
    exact someCall_propSqlJson
  · obtain rfl := Except.ok.inj h
    exact someCall_propSqlJson
  · next hv =>
    obtain rfl := Except.ok.inj h
    simpa [someCall, someCalls] using hb v _ hv f
  · exact someCall_propOperand hb h

theorem someCall_elementIdSql {fname : String} (hb : PlainBinds binds)
    (h : elementIdSql binds v fname = .ok x) : someCall f x = false := by
  unfold elementIdSql at h
  split at h
  · obtain rfl := Except.ok.inj h
    rfl
  · obtain rfl := Except.ok.inj h
    rfl
  · next hv =>
    obtain rfl := Except.ok.inj h
    exact hb v _ hv f
  · next hv =>
    obtain rfl := Except.ok.inj h
    simpa [scalarId, someCall, someCalls] using hb v _ hv f
  · simp at h

theorem someCall_typeIdSql {fname : String} (hb : PlainBinds binds)
    (h : typeIdSql binds v fname = .ok x) : someCall f x = false := by
  unfold typeIdSql at h
  split at h
  · obtain rfl := Except.ok.inj h
    rfl
  · obtain rfl := Except.ok.inj h
    rfl
  · next hv =>
    obtain rfl := Except.ok.inj h
    simpa [someCall, someCalls] using hb v _ hv f
  · next hv =>
    obtain rfl := Except.ok.inj h
    simpa [scalarId, someCall, someCalls] using hb v _ hv f
  · simp at h

theorem someCall_litSql {hint : Option String} {l : Lit} : someCall f (litSql hint l) = false := by
  unfold litSql
  split
  · rfl
  · rfl
  · rfl
  · rfl
  · split
    · split <;> rfl
    · rfl

theorem someCall_paramSql {hint : Option String} : someCall f (paramSql hint p) = false := by
  unfold paramSql
  split
  · split <;> rfl
  · rfl

theorem someCall_varSql {hint : Option String} (hb : PlainBinds binds)
    (h : varSql c binds hint v = .ok x) : someCall f x = false := by
  obtain ⟨sql, hsql, h⟩ := bind_eq_ok.mp h
  have hplain : someCall f sql = false := someCall_varValue hb hsql
  split at h
  · split at h
    · obtain rfl := pure_eq_ok.mp h
      exact hplain
    · obtain rfl := pure_eq_ok.mp h
      simpa [someCall, someCalls] using hplain
  · obtain rfl := pure_eq_ok.mp h
    exact hplain

end Variables

section Operators

variable {f : AggCall → Bool} {c : Catalog} {binds : Binds} {x l r : SqlExpr} {a : List SqlExpr}

theorem someCall_castText {type : String} : someCall f (castText type x) = someCall f x := by
  simp [castText, someCall, someCalls]

theorem someCall_readAt {e : Expr} {own other : Option String} :
    someCall f (readAt e own other x) = someCall f x := by
  unfold readAt
  split
  · split
    · exact someCall_castText
    · rfl
  · rfl

theorem someCall_binarySql {op : BinOp} {plain : Bool} :
    someCall f (binarySql op plain l r) = (someCall f l || someCall f r) := by
  cases op with
  | eq => cases plain <;> simp [binarySql, someCall, someCalls]
  | ne => cases plain <;> simp [binarySql, someCall, someCalls]
  | in_ => simp [binarySql, call, someCall, someCalls, Bool.or_comm]
  | _ => simp [binarySql, call, someCall, someCalls]

theorem someCall_plainCall {op : SqlOp} {pieces : List String}
    (h : plainCall op pieces a = .ok x) :
    someCall f x = someCalls f (a.take (pieces.length - 1)) := by
  unfold plainCall at h
  split at h
  · simp at h
  · obtain rfl := Except.ok.inj h
    rfl

/-- The branches of a `coalesce` keep what they call when they are cast. -/
theorem someCalls_zip_cast {type : String} {args : List Expr} (hlength : args.length = a.length) :
    someCalls f ((args.zip a).map fun x =>
      if (typeOf c binds x.1).isNone then castText type x.2 else x.2) = someCalls f a := by
  induction a generalizing args with
  | nil => simp
  | cons x a ih =>
      cases args with
      | nil => simp at hlength
      | cons e args =>
          have hhead : someCall f (if (typeOf c binds e).isNone then castText type x else x) =
              someCall f x := by
            split
            · exact someCall_castText
            · rfl
          rw [List.zip_cons_cons, List.map_cons, someCalls, someCalls, hhead,
            ih (Nat.succ.inj hlength)]

theorem someCalls_coalesceBranches {args : List Expr} (hlength : args.length = a.length) :
    someCalls f (coalesceBranches c binds args a) = someCalls f a := by
  unfold coalesceBranches
  split
  · split
    · rfl
    · exact someCalls_zip_cast hlength
  · rfl

theorem someCall_genaiSql (h : genaiSql a = .ok x) : someCall f x = someCalls f (a.take 3) := by
  cases a with
  | nil => simp [genaiSql] at h
  | cons y rest =>
      obtain rfl := Except.ok.inj h
      cases rest with
      | nil => simp [call, someCall, someCalls]
      | cons z rest => cases rest <;> simp [call, someCall, someCalls]

theorem someCall_argAt (h : argAt a 0 = .ok x) : someCall f x = someCalls f (a.take 1) := by
  cases a with
  | nil => simp [argAt] at h
  | cons y rest =>
      obtain rfl := Except.ok.inj h
      simp [someCalls]

theorem someCall_funcSql {name : String} {args : List Expr} (hb : PlainBinds binds)
    (hlength : args.length = a.length) (h : funcSql c binds name args a = .ok x) :
    someCall f x = someCalls f (a.take (keptArgs name args.length)) := by
  cases hf : plainFunction name with
  | some found =>
      simp only [funcSql, hf] at h
      simp only [keptArgs, hf]
      exact someCall_plainCall h
  | none =>
    simp only [funcSql, hf] at h
    simp only [keptArgs, hf]
    unfold otherFunction at h
    split at h
    · obtain ⟨v, -, h⟩ := bind_eq_ok.mp h
      exact someCall_elementIdSql hb h
    · obtain ⟨v, -, h⟩ := bind_eq_ok.mp h
      obtain ⟨inner, hinner, h⟩ := bind_eq_ok.mp h
      obtain rfl := pure_eq_ok.mp h
      exact someCall_castText.trans (someCall_elementIdSql hb hinner)
    · obtain ⟨v, -, h⟩ := bind_eq_ok.mp h
      obtain ⟨tid, htid, h⟩ := bind_eq_ok.mp h
      obtain rfl := pure_eq_ok.mp h
      simpa [someCall, someCalls] using someCall_typeIdSql hb htid
    · obtain ⟨v, -, h⟩ := bind_eq_ok.mp h
      obtain ⟨tid, htid, h⟩ := bind_eq_ok.mp h
      obtain rfl := pure_eq_ok.mp h
      simpa [someCall, someCalls] using someCall_typeIdSql hb htid
    · unfold substringSql at h
      rw [hlength]
      split at h
      · next hthree =>
        rw [if_pos hthree]
        exact someCall_plainCall h
      · next hthree =>
        rw [if_neg hthree]
        exact someCall_plainCall h
    · obtain rfl := Except.ok.inj h
      change _ = someCalls f (a.take args.length)
      rw [hlength, List.take_length]
      exact someCalls_coalesceBranches hlength
    · exact someCall_argAt h
    · exact someCall_argAt h
    · exact someCall_genaiSql h
    · simp at h

end Operators

section Expressions

variable {f : AggCall → Bool} {c : Catalog}

/-- Compiling an expression calls the aggregates its syntax shows. -/
def CompilesCalls (f : AggCall → Bool) (c : Catalog) (e : Expr) : Prop :=
  ∀ {binds : Binds} {hint : Option String} {n m : Nat} {x : SqlExpr}, PlainBinds binds →
    expr c binds hint n e = .ok (x, m) → someCall f x = calls f e

/-- The variable of a list expression stands for a column. -/
theorem PlainBinds.element {binds : Binds} (h : PlainBinds binds) (v : String) (a : Alias) :
    PlainBinds (insertBind v (.scalar (.col a "v")) binds) := by
  intro w b hw
  rw [lookupBind_insertBind] at hw
  split at hw
  · obtain rfl := Option.some.inj hw
    exact fun f => rfl
  · exact h w b hw

theorem someCall_jsonbArg {e : Expr} {x : SqlExpr} (h : someCall f x = calls f e) :
    someCall f (jsonbArg e x) = calls f e := by
  unfold jsonbArg
  split
  · rfl
  · rfl
  · simpa [someCall, someCalls] using h

section Lists

variable {binds : Binds} {n m : Nat}

theorem exprs_calls {es : List Expr} {hint : Option String} {xs : List SqlExpr}
    (ih : ∀ e ∈ es, CompilesCalls f c e) (hb : PlainBinds binds)
    (h : exprs c binds hint n es = .ok (xs, m)) :
    xs.length = es.length ∧ ∀ k, someCalls f (xs.take k) = callsFirst f k es := by
  induction es generalizing n xs with
  | nil =>
      obtain ⟨rfl, rfl⟩ := Prod.mk.inj (Except.ok.inj h)
      refine ⟨rfl, fun k => ?_⟩
      cases k <;> rfl
  | cons e es ihs =>
      rw [exprs] at h
      obtain ⟨⟨s, k⟩, hs, h⟩ := bind_eq_ok.mp h
      obtain ⟨⟨ss, j⟩, hss, h⟩ := bind_eq_ok.mp h
      obtain ⟨rfl, rfl⟩ := Prod.mk.inj (pure_eq_ok.mp h)
      obtain ⟨he, hes⟩ := List.forall_mem_cons.mp ih
      obtain ⟨hlength, hrest⟩ := ihs hes hss
      refine ⟨congrArg Nat.succ hlength, fun k => ?_⟩
      cases k with
      | zero => rfl
      | succ k => rw [List.take_succ_cons, someCalls, callsFirst, he hb hs, hrest]

theorem jsonbArgs_calls {es : List Expr} {xs : List SqlExpr}
    (ih : ∀ e ∈ es, CompilesCalls f c e) (hb : PlainBinds binds)
    (h : jsonbArgs c binds n es = .ok (xs, m)) :
    someCalls f xs = callsFirst f es.length es := by
  induction es generalizing n xs with
  | nil =>
      obtain ⟨rfl, rfl⟩ := Prod.mk.inj (Except.ok.inj h)
      rfl
  | cons e es ihs =>
      rw [jsonbArgs] at h
      obtain ⟨⟨s, k⟩, hs, h⟩ := bind_eq_ok.mp h
      obtain ⟨⟨ss, j⟩, hss, h⟩ := bind_eq_ok.mp h
      obtain ⟨rfl, rfl⟩ := Prod.mk.inj (pure_eq_ok.mp h)
      obtain ⟨he, hes⟩ := List.forall_mem_cons.mp ih
      rw [someCalls, List.length_cons, callsFirst, someCall_jsonbArg (he hb hs), ihs hes hss]

theorem jsonbValues_calls {kvs : List (String × Expr)} {xs : List SqlExpr}
    (ih : ∀ kv ∈ kvs, CompilesCalls f c kv.2) (hb : PlainBinds binds)
    (h : jsonbValues c binds n kvs = .ok (xs, m)) : someCalls f xs = callsValue f kvs := by
  induction kvs generalizing n xs with
  | nil =>
      obtain ⟨rfl, rfl⟩ := Prod.mk.inj (Except.ok.inj h)
      rfl
  | cons kv kvs ihs =>
      rw [jsonbValues] at h
      obtain ⟨⟨s, k⟩, hs, h⟩ := bind_eq_ok.mp h
      obtain ⟨⟨ss, j⟩, hss, h⟩ := bind_eq_ok.mp h
      obtain ⟨rfl, rfl⟩ := Prod.mk.inj (pure_eq_ok.mp h)
      obtain ⟨he, hes⟩ := List.forall_mem_cons.mp ih
      rw [someCalls, callsValue, someCall_jsonbArg (he hb hs), ihs hes hss]

theorem caseWhens_calls {whens : List (Expr × Expr)} {xs : List SqlExpr}
    (ih : ∀ w ∈ whens, CompilesCalls f c w.1 ∧ CompilesCalls f c w.2)
    (hb : PlainBinds binds) (h : caseWhens c binds n whens = .ok (xs, m)) :
    someCalls f xs = callsWhen f whens := by
  induction whens generalizing n xs with
  | nil =>
      obtain ⟨rfl, rfl⟩ := Prod.mk.inj (Except.ok.inj h)
      rfl
  | cons w whens ihs =>
      rw [caseWhens] at h
      obtain ⟨⟨ws, k⟩, hws, h⟩ := bind_eq_ok.mp h
      obtain ⟨⟨vs, j⟩, hvs, h⟩ := bind_eq_ok.mp h
      obtain ⟨⟨rest, i⟩, hrest, h⟩ := bind_eq_ok.mp h
      obtain ⟨rfl, rfl⟩ := Prod.mk.inj (pure_eq_ok.mp h)
      obtain ⟨⟨ihw, ihv⟩, hes⟩ := List.forall_mem_cons.mp ih
      rw [someCalls, someCalls, callsWhen, ihw hb hws, ihv hb hvs, ihs hes hrest]

/-- What the parts of a map projection call; its whole element calls nothing. -/
theorem mapItems_calls {var : String} {items : List MapProjItem} {parts : MapParts}
    (ih : ∀ i ∈ items, ∀ k e, i = .entry k e → CompilesCalls f c e)
    (hb : PlainBinds binds) (h : mapItems c binds var n items = .ok (parts, m)) :
    someCalls f parts.vals = callsItem f items ∧ parts.keys.length = parts.vals.length ∧
      ∀ b, parts.base = some b → someCall f b = false := by
  induction items generalizing n parts with
  | nil =>
      obtain ⟨rfl, rfl⟩ := Prod.mk.inj (Except.ok.inj h)
      exact ⟨rfl, rfl, fun _ h => by cases h⟩
  | cons item items ihs =>
      obtain ⟨hitem, hitems⟩ := List.forall_mem_cons.mp ih
      cases item with
      | all =>
          rw [mapItems] at h
          obtain ⟨whole, hwhole, h⟩ := bind_eq_ok.mp h
          obtain ⟨⟨parts, k⟩, hparts, h⟩ := bind_eq_ok.mp h
          obtain ⟨rfl, rfl⟩ := Prod.mk.inj (pure_eq_ok.mp h)
          obtain ⟨hvals, hlength, _⟩ := ihs hitems hparts
          refine ⟨hvals, hlength, fun b hwhole' => ?_⟩
          obtain rfl := Option.some.inj hwhole'
          exact someCall_varValue hb hwhole
      | prop p =>
          rw [mapItems] at h
          obtain ⟨s, hs, h⟩ := bind_eq_ok.mp h
          obtain ⟨⟨parts, k⟩, hparts, h⟩ := bind_eq_ok.mp h
          obtain ⟨rfl, rfl⟩ := Prod.mk.inj (pure_eq_ok.mp h)
          obtain ⟨hvals, hlength, hbase⟩ := ihs hitems hparts
          refine ⟨?_, congrArg Nat.succ hlength, hbase⟩
          rw [someCalls, callsItem, someCall_propOutput hb hs, hvals, Bool.false_or]
      | entry key e =>
          rw [mapItems] at h
          obtain ⟨⟨s, k⟩, hs, h⟩ := bind_eq_ok.mp h
          obtain ⟨⟨parts, j⟩, hparts, h⟩ := bind_eq_ok.mp h
          obtain ⟨rfl, rfl⟩ := Prod.mk.inj (pure_eq_ok.mp h)
          obtain ⟨hvals, hlength, hbase⟩ := ihs hitems hparts
          refine ⟨?_, congrArg Nat.succ hlength, hbase⟩
          rw [someCalls, callsItem, someCall_jsonbArg (hitem key e rfl hb hs), hvals]

theorem someCall_mapProjectionSql {parts : MapParts}
    (hlength : parts.keys.length = parts.vals.length)
    (hbase : ∀ b, parts.base = some b → someCall f b = false) :
    someCall f (mapProjectionSql parts) = someCalls f parts.vals := by
  have hbuilt : someCall f (if parts.keys = [] then .lit (.json (.obj [])) "'\x7b\x7d'::jsonb"
      else .app (.jsonObject parts.keys) (objectPieces "jsonb_build_object(" ")" parts.keys)
        parts.vals) = someCalls f parts.vals := by
    split
    · next hkeys =>
      rw [hkeys, List.length_nil, eq_comm, List.length_eq_zero_iff] at hlength
      rw [hlength]
      rfl
    · rfl
  unfold mapProjectionSql
  dsimp only
  split
  · next whole hwhole =>
    simp only [call, someCall, someCalls, hbase whole hwhole, Bool.false_or, Bool.or_false]
    exact hbuilt
  · exact hbuilt

end Lists

section Constructs

variable {binds : Binds} {hint : Option String} {n m : Nat} {x : SqlExpr}

theorem aggCall_eq_none {name : String} {args : List Expr} {distinct : Bool}
    (hcount : name ≠ "count") (hother : name ∉ ["sum", "avg", "min", "max", "collect", "stdev"]) :
    aggCall name args distinct = none := by
  unfold aggCall
  split <;> simp_all

/-- An aggregate with an argument, whatever it aggregates. -/
theorem someCall_aggregate {k : Agg} {distinct : Bool} {e : Expr} (h : (do
    let (a, n) ← expr c binds none n e
    return (SqlExpr.agg k distinct [a], n)) = .ok (x, m)) :
    someCall f x = f ⟨k, distinct, true⟩ := by
  obtain ⟨⟨a, i⟩, ha, h⟩ := bind_eq_ok.mp h
  obtain ⟨rfl, rfl⟩ := Prod.mk.inj (pure_eq_ok.mp h)
  rfl

theorem func_calls {name : String} {args : List Expr} {distinct : Bool}
    (ih : ∀ e ∈ args, CompilesCalls f c e) (hb : PlainBinds binds)
    (h : expr c binds hint n (.func name args distinct) = .ok (x, m)) :
    someCall f x = calls f (.func name args distinct) := by
  unfold expr at h
  rw [calls]
  generalize hname : name.toLower = lname at h ⊢
  dsimp only at h
  split at h
  · obtain ⟨rfl, rfl⟩ := Prod.mk.inj (Except.ok.inj h)
    rfl
  · obtain ⟨rfl, rfl⟩ := Prod.mk.inj (Except.ok.inj h)
    rfl
  · next y ys hstar =>
    rw [someCall_aggregate h]
    simp [aggCall]
  · exact someCall_aggregate h
  · exact someCall_aggregate h
  · exact someCall_aggregate h
  · exact someCall_aggregate h
  · exact someCall_aggregate h
  · exact someCall_aggregate h
  · split at h
    · simp at h
    · next hnil _ hcons _ _ _ _ _ _ hother =>
      have hcount : lname ≠ "count" := by
        rintro rfl
        cases args with
        | nil => exact hnil rfl rfl
        | cons e es => exact hcons e es rfl rfl
      obtain ⟨⟨a, k⟩, ha, h⟩ := bind_eq_ok.mp h
      obtain ⟨y, hy, h⟩ := bind_eq_ok.mp h
      obtain ⟨rfl, rfl⟩ := Prod.mk.inj (pure_eq_ok.mp h)
      obtain ⟨hlength, hcalls⟩ := exprs_calls ih hb ha
      rw [aggCall_eq_none hcount hother, someCall_funcSql hb hlength.symm hy, hcalls]

theorem binary_calls {op : BinOp} {l r : Expr} (ihl : CompilesCalls f c l)
    (ihr : CompilesCalls f c r) (ihitems : ∀ xs, r = .list xs → ∀ e ∈ xs, CompilesCalls f c e)
    (hb : PlainBinds binds) (h : expr c binds hint n (.binary op l r) = .ok (x, m)) :
    someCall f x = calls f (.binary op l r) := by
  unfold expr at h
  split at h
  · next items =>
    have hitems := ihitems items rfl
    split at h
    · split at h
      · obtain ⟨⟨ls, k⟩, hls, h⟩ := bind_eq_ok.mp h
        obtain ⟨⟨vs, k'⟩, hvs, h⟩ := bind_eq_ok.mp h
        obtain ⟨rfl, rfl⟩ := Prod.mk.inj (pure_eq_ok.mp h)
        obtain ⟨hlength, hcalls⟩ := exprs_calls hitems hb hvs
        have hvs := hcalls items.length
        rw [← hlength, List.take_length] at hvs
        rw [someCall, someCalls, calls, calls, ihl hb hls, hvs, hlength]
      · obtain ⟨⟨ls, k⟩, hls, h⟩ := bind_eq_ok.mp h
        obtain ⟨⟨rs, k'⟩, hrs, h⟩ := bind_eq_ok.mp h
        obtain ⟨rfl, rfl⟩ := Prod.mk.inj (pure_eq_ok.mp h)
        rw [someCall_binarySql, calls, calls, ihl hb hls, ← jsonbArgs_calls hitems hb hrs]
        rfl
    · obtain ⟨⟨ls, k⟩, hls, h⟩ := bind_eq_ok.mp h
      obtain ⟨⟨rs, k'⟩, hrs, h⟩ := bind_eq_ok.mp h
      obtain ⟨rfl, rfl⟩ := Prod.mk.inj (pure_eq_ok.mp h)
      rw [someCall_binarySql, calls, calls, ihl hb hls, ← jsonbArgs_calls hitems hb hrs]
      rfl
  · obtain ⟨⟨ls, k⟩, hls, h⟩ := bind_eq_ok.mp h
    obtain ⟨⟨rs, k'⟩, hrs, h⟩ := bind_eq_ok.mp h
    obtain ⟨rfl, rfl⟩ := Prod.mk.inj (pure_eq_ok.mp h)
    rw [someCall_binarySql, calls, ihl hb hls, ihr hb hrs]
  · obtain ⟨⟨ls, k⟩, hls, h⟩ := bind_eq_ok.mp h
    obtain ⟨⟨rs, k'⟩, hrs, h⟩ := bind_eq_ok.mp h
    obtain ⟨rfl, rfl⟩ := Prod.mk.inj (pure_eq_ok.mp h)
    rw [someCall_binarySql, someCall_readAt, someCall_readAt, calls, ihl hb hls, ihr hb hrs]

theorem list_calls {xs : List Expr} (ih : ∀ e ∈ xs, CompilesCalls f c e)
    (hb : PlainBinds binds) (h : expr c binds hint n (.list xs) = .ok (x, m)) :
    someCall f x = calls f (.list xs) := by
  rw [expr] at h
  rw [calls]
  split at h
  · obtain ⟨⟨items, k⟩, hitems, h⟩ := bind_eq_ok.mp h
    obtain ⟨rfl, rfl⟩ := Prod.mk.inj (pure_eq_ok.mp h)
    obtain ⟨hlength, hcalls⟩ := exprs_calls ih hb hitems
    rw [← hcalls, ← hlength, List.take_length]
    rfl
  · obtain ⟨⟨items, k⟩, hitems, h⟩ := bind_eq_ok.mp h
    obtain ⟨rfl, rfl⟩ := Prod.mk.inj (pure_eq_ok.mp h)
    rw [← jsonbArgs_calls ih hb hitems]
    rfl

theorem listComp_calls {var : String} {source : Expr} {filter project : Option Expr}
    (ihs : CompilesCalls f c source) (ihf : ∀ e, filter = some e → CompilesCalls f c e)
    (ihp : ∀ e, project = some e → CompilesCalls f c e) (hb : PlainBinds binds)
    (h : expr c binds hint n (.listComp var source filter project) = .ok (x, m)) :
    someCall f x = calls f (.listComp var source filter project) := by
  unfold expr at h
  obtain ⟨⟨src, k⟩, hsrc, h⟩ := bind_eq_ok.mp h
  dsimp only at h
  obtain ⟨⟨body, j⟩, hbody, h⟩ := bind_eq_ok.mp h
  obtain ⟨⟨cond, i⟩, hcond, h⟩ := bind_eq_ok.mp h
  obtain ⟨rfl, rfl⟩ := Prod.mk.inj (pure_eq_ok.mp h)
  have hb' := hb.element var ⟨"lc", k + 1⟩
  have hbodyCalls : someCall f body = callsOption f project := by
    cases project with
    | none =>
        obtain ⟨rfl, rfl⟩ := Prod.mk.inj (Except.ok.inj hbody)
        rfl
    | some p =>
        obtain ⟨⟨s, i'⟩, hp, hbody⟩ := bind_eq_ok.mp hbody
        obtain ⟨rfl, rfl⟩ := Prod.mk.inj (pure_eq_ok.mp hbody)
        exact someCall_jsonbArg (ihp p rfl hb' hp)
  have hcondCalls : someCall f cond = callsOption f filter := by
    cases filter with
    | none =>
        obtain ⟨rfl, rfl⟩ := Prod.mk.inj (Except.ok.inj hcond)
        rfl
    | some e => exact ihf e rfl hb' hcond
  rw [someCall, calls, ihs hb hsrc, hbodyCalls, hcondCalls]

theorem listPred_calls {kind : ListPredKind} {var : String} {source filter : Expr}
    (ihs : CompilesCalls f c source) (ihf : CompilesCalls f c filter) (hb : PlainBinds binds)
    (h : expr c binds hint n (.listPred kind var source filter) = .ok (x, m)) :
    someCall f x = calls f (.listPred kind var source filter) := by
  unfold expr at h
  obtain ⟨⟨src, k⟩, hsrc, h⟩ := bind_eq_ok.mp h
  dsimp only at h
  obtain ⟨⟨cond, i⟩, hcond, h⟩ := bind_eq_ok.mp h
  obtain ⟨rfl, rfl⟩ := Prod.mk.inj (pure_eq_ok.mp h)
  rw [someCall, calls, ihs hb hsrc, ihf (hb.element var ⟨"lp", k + 1⟩) hcond]

/-- The operand and the `ELSE` of a `CASE`. -/
theorem optional_calls {o : Option Expr} {xs : List SqlExpr}
    (ih : ∀ e, o = some e → CompilesCalls f c e) (hb : PlainBinds binds)
    (h : (match o with
      | some e => do
          let (s, n) ← expr c binds none n e
          return ([s], n)
      | none => .ok ([], n)) = .ok (xs, m)) :
    someCalls f xs = callsOption f o := by
  cases o with
  | none =>
      obtain ⟨rfl, rfl⟩ := Prod.mk.inj (Except.ok.inj h)
      rfl
  | some e =>
      obtain ⟨⟨s, k⟩, hs, h⟩ := bind_eq_ok.mp h
      obtain ⟨rfl, rfl⟩ := Prod.mk.inj (pure_eq_ok.mp h)
      rw [someCalls, someCalls, Bool.or_false]
      exact ih e rfl hb hs

theorem case_calls {operand : Option Expr} {whens : List (Expr × Expr)}
    {otherwise : Option Expr} (iho : ∀ e, operand = some e → CompilesCalls f c e)
    (ihw : ∀ w ∈ whens, CompilesCalls f c w.1 ∧ CompilesCalls f c w.2)
    (ihe : ∀ e, otherwise = some e → CompilesCalls f c e) (hb : PlainBinds binds)
    (h : expr c binds hint n (.case operand whens otherwise) = .ok (x, m)) :
    someCall f x = calls f (.case operand whens otherwise) := by
  unfold expr at h
  obtain ⟨⟨o, k⟩, ho, h⟩ := bind_eq_ok.mp h
  obtain ⟨⟨ws, j⟩, hws, h⟩ := bind_eq_ok.mp h
  obtain ⟨⟨e, i⟩, he, h⟩ := bind_eq_ok.mp h
  obtain ⟨rfl, rfl⟩ := Prod.mk.inj (pure_eq_ok.mp h)
  rw [someCall, calls, someCalls_append, someCalls_append, optional_calls iho hb ho,
    caseWhens_calls ihw hb hws, optional_calls ihe hb he]

end Constructs

/-- The aggregates of a compiled expression; with it go the items of a list,
which `IN` compiles on their own. -/
theorem expr_calls_items (e : Expr) :
    CompilesCalls f c e ∧ ∀ xs, e = .list xs → ∀ x ∈ xs, CompilesCalls f c x := by
  induction e with
  | lit l =>
      refine ⟨fun hb h => ?_, fun _ h => by cases h⟩
      obtain ⟨rfl, rfl⟩ := Prod.mk.inj (Except.ok.inj h)
      exact someCall_litSql
  | param p =>
      refine ⟨fun hb h => ?_, fun _ h => by cases h⟩
      obtain ⟨rfl, rfl⟩ := Prod.mk.inj (Except.ok.inj h)
      exact someCall_paramSql
  | star =>
      refine ⟨fun hb h => ?_, fun _ h => by cases h⟩
      obtain ⟨rfl, rfl⟩ := Prod.mk.inj (Except.ok.inj h)
      rfl
  | var v =>
      refine ⟨fun hb h => ?_, fun _ h => by cases h⟩
      obtain ⟨y, hy, h⟩ := bind_eq_ok.mp h
      obtain ⟨rfl, rfl⟩ := Prod.mk.inj (pure_eq_ok.mp h)
      exact someCall_varSql hb hy
  | prop base p _ =>
      refine ⟨fun hb h => ?_, fun _ h => by cases h⟩
      unfold expr at h
      split at h
      · obtain ⟨y, hy, h⟩ := bind_eq_ok.mp h
        obtain ⟨rfl, rfl⟩ := Prod.mk.inj (pure_eq_ok.mp h)
        exact someCall_propOperand hb hy
      · simp at h
  | not a ih =>
      refine ⟨fun hb h => ?_, fun _ h => by cases h⟩
      rw [expr] at h
      obtain ⟨⟨s, k⟩, hs, h⟩ := bind_eq_ok.mp h
      obtain ⟨rfl, rfl⟩ := Prod.mk.inj (pure_eq_ok.mp h)
      rw [someCall, someCalls, someCalls, Bool.or_false, ih.1 hb hs, calls]
  | neg a ih =>
      refine ⟨fun hb h => ?_, fun _ h => by cases h⟩
      rw [expr] at h
      obtain ⟨⟨s, k⟩, hs, h⟩ := bind_eq_ok.mp h
      obtain ⟨rfl, rfl⟩ := Prod.mk.inj (pure_eq_ok.mp h)
      rw [call, someCall, someCalls, someCalls, Bool.or_false, ih.1 hb hs, calls]
  | isNull a wantNull ih =>
      refine ⟨fun hb h => ?_, fun _ h => by cases h⟩
      rw [expr] at h
      obtain ⟨⟨s, k⟩, hs, h⟩ := bind_eq_ok.mp h
      obtain ⟨rfl, rfl⟩ := Prod.mk.inj (pure_eq_ok.mp h)
      rw [calls, ← ih.1 hb hs]
      split
      · rw [someCall, someCalls, someCalls, Bool.or_false]
      · rw [someCall, someCalls, someCalls, Bool.or_false]
  | binary op l r ihl ihr => exact ⟨binary_calls ihl.1 ihr.1 ihr.2, fun _ h => by cases h⟩
  | func name xs d ih => exact ⟨func_calls fun e he => (ih e he).1, fun _ h => by cases h⟩
  | list xs ih =>
      refine ⟨list_calls fun e he => (ih e he).1, fun ys hys e he => ?_⟩
      obtain rfl := Expr.list.inj hys
      exact (ih e he).1
  | map kvs ih =>
      refine ⟨fun hb h => ?_, fun _ h => by cases h⟩
      rw [expr] at h
      obtain ⟨⟨vals, k⟩, hvals, h⟩ := bind_eq_ok.mp h
      obtain ⟨rfl, rfl⟩ := Prod.mk.inj (pure_eq_ok.mp h)
      rw [someCall, calls, jsonbValues_calls (fun kv hkv => (ih kv hkv).1) hb hvals]
  | case o ws e iho ihw ihe =>
      refine ⟨case_calls (fun x hx => (iho x hx).1) ?_ fun x hx => (ihe x hx).1,
        fun _ h => by cases h⟩
      exact fun w hw => ⟨(ihw w hw).1.1, (ihw w hw).2.1⟩
  | listComp v s fl p ihs ihf ihp =>
      exact ⟨listComp_calls ihs.1 (fun x hx => (ihf x hx).1) fun x hx => (ihp x hx).1,
        fun _ h => by cases h⟩
  | listPred k v s fl ihs ihf => exact ⟨listPred_calls ihs.1 ihf.1, fun _ h => by cases h⟩
  | mapProjection v items ih =>
      refine ⟨fun hb h => ?_, fun _ h => by cases h⟩
      rw [expr] at h
      obtain ⟨⟨parts, k⟩, hparts, h⟩ := bind_eq_ok.mp h
      obtain ⟨rfl, rfl⟩ := Prod.mk.inj (pure_eq_ok.mp h)
      obtain ⟨hvals, hlength, hbase⟩ :=
        mapItems_calls (fun i hi k e he => (ih i hi k e he).1) hb hparts
      rw [someCall_mapProjectionSql hlength hbase, hvals, calls]

theorem expr_calls {e : Expr} {binds : Binds} {hint : Option String} {n m : Nat} {x : SqlExpr}
    (hb : PlainBinds binds) (h : expr c binds hint n e = .ok (x, m)) :
    someCall f x = calls f e := (expr_calls_items e).1 hb h

theorem exprForOutput_calls {e : Expr} {binds : Binds} {n m : Nat} {x : SqlExpr}
    (hb : PlainBinds binds) (h : exprForOutput c binds n e = .ok (x, m)) :
    someCall f x = calls f e := by
  unfold exprForOutput at h
  split at h
  · obtain ⟨y, hy, h⟩ := bind_eq_ok.mp h
    obtain ⟨rfl, rfl⟩ := Prod.mk.inj (pure_eq_ok.mp h)
    exact someCall_propOutput hb hy
  · exact expr_calls hb h

end Expressions

end OntologicalDb.AggregateCalls
