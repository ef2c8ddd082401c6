import OntologicalDb.IntegerArithmetic
import OntologicalDb.JsonContainment

/-!
Membership: what `x IN xs` compiles to, and what the row evaluator answers.
-/

namespace OntologicalDb.ListMembership

open OntologicalDb.CompileExpr
open OntologicalDb.CypherSyntax
open OntologicalDb.ExceptRules
open OntologicalDb.IntegerArithmetic
open OntologicalDb.JsonContainment
open OntologicalDb.RowDocuments
open OntologicalDb.RowEvaluator
open OntologicalDb.ShadowWrite
open OntologicalDb.Sql
open OntologicalDb.TypeCatalog
open OntologicalDb.TypedTables
open OntologicalDb.Values

/-- Some element of a list equals a document. -/
def isMember (x : Json) (xs : List Json) : Bool := xs.any fun y => sameJson x y

section Operands

variable (env : Sql.Env) (c : Catalog) (binds : Binds) (s : Scope)

def litJson : Lit → Json
  | .int i => .num ⟨i, 0⟩
  | .float d => .num d
  | .str t => .str t
  | .bool b => .bool b
  | .null => .null

/-- A property, with its JSON type. -/
def propJson (v p : String) : Json :=
  match lookupBind binds v with
  | some (.rel none _ idExpr) =>
      toJson (member p ((SqlExpr.app .edgeJson ["og_edge_json(", ")"] [idExpr]).eval env [] s))
  | _ =>
      match propOutput c binds v p with
      | .ok sql => toJson (sql.eval env [] s)
      | .error _ => .null

/-- The column an operand is compiled to, under the type it is compared with. -/
def operandVal (hint : Option String) (n : Nat) (e : Expr) : Val :=
  match expr c binds hint n e with
  | .ok (sql, _) => sql.eval env [] s
  | .error _ => .null

/-- The aliases generated once an operand is compiled. -/
def after (n : Nat) (e : Expr) : Nat :=
  match expr c binds none n e with
  | .ok (_, n') => n'
  | .error _ => n

mutual

/-- The value an operand stands for; an operator or a function stands for what
its SQL computes. -/
def meaning (n : Nat) : Expr → Json
  | .lit l => litJson l
  | .param p => (env.params.get? p).getD .null
  | .prop (.var v) p => propJson env c binds s v p
  | .list es => .arr (meanings n es)
  | e => toJson (operandVal env c binds s none n e)

def meanings (n : Nat) : List Expr → List Json
  | [] => []
  | e :: es => meaning n e :: meanings (after c binds n e) es

end

/-- `->>` keeps the text of a value. -/
def asText : Json → Json
  | .null => .null
  | .str t => .str t
  | j => .str j.text

mutual

/-- The document an operand arrives as: a parameter and an undeclared property
arrive as texts. -/
def received (n : Nat) : Expr → Json
  | .param p => asText ((env.params.get? p).getD .null)
  | .prop (.var v) p =>
      if (typeOf c binds (.prop (.var v) p)).isNone then asText (propJson env c binds s v p)
      else propJson env c binds s v p
  | .list es => .arr (receivedAll n es)
  | e => meaning env c binds s n e

def receivedAll (n : Nat) : List Expr → List Json
  | [] => []
  | e :: es => received n e :: receivedAll (after c binds n e) es

end

/-- The list that arrives; a parameter is read as a document here. -/
def receivedList (n : Nat) (e : Expr) : Json :=
  match e with
  | .param _ => meaning env c binds s n e
  | _ => received env c binds s n e

def elementsOf : Json → List Json
  | .arr xs => xs
  | _ => []

end Operands

section Forms

variable (c : Catalog) (binds : Binds)

/-- A typed operand against literals is SQL's own `IN`: its type and the
literals. -/
def columnForm (l r : Expr) : Option (String × List Expr) :=
  match r with
  | .list items =>
      match typeOf c binds l with
      | some t => if items.isEmpty = false ∧ items.all isLiteral then some (t, items) else none
      | none => none
  | _ => none

variable {c binds}

theorem expr_in_column {hint : Option String} {n : Nat} {l r : Expr} {t : String}
    {items : List Expr} (h : columnForm c binds l r = some (t, items)) :
    r = .list items ∧ typeOf c binds l = some t ∧ items.all isLiteral = true ∧
      expr c binds hint n (.binary .in_ l r) = do
        let (ls, n) ← expr c binds (some t) n l
        let (vs, n) ← exprs c binds (some t) n items
        return (.app .inList ("(" :: listPieces " IN (" ", " "))" vs.length) (ls :: vs), n) := by
  unfold columnForm at h
  cases r with
  | list es =>
      dsimp only at h
      split at h
      · next u htype =>
        split at h
        · next hlits =>
          obtain ⟨rfl, rfl⟩ := Prod.mk.inj (Option.some.inj h)
          refine ⟨rfl, htype, hlits.2, ?_⟩
          rw [expr]
          simp only [htype]
          rw [if_pos hlits]
        · cases h
      · cases h
  | _ => cases h

theorem stripArray_jsonb : stripArray "jsonb" = none := by decide

theorem expr_in_containment {hint : Option String} {n : Nat} {l r : Expr}
    (h : columnForm c binds l r = none) :
    expr c binds hint n (.binary .in_ l r) = do
      let (ls, n) ← expr c binds none n l
      let (rs, n) ← expr c binds (some "jsonb") n r
      return (binarySql .in_ false ls rs, n) := by
  unfold columnForm at h
  cases r with
  | list es =>
      dsimp only at h
      have hlist (m : Nat) : expr c binds (some "jsonb") m (.list es) = do
          let (items, k) ← jsonbArgs c binds m es
          return (jsonArraySql items, k) := by
        rw [expr]
        simp [stripArray_jsonb]
      rw [expr]
      cases htype : typeOf c binds l with
      | none => simp only [hlist, bind_assoc, pure_bind]
      | some t =>
          simp only [htype] at h
          split at h
          · cases h
          · next hlits =>
            simp only [if_neg hlits, hlist, bind_assoc, pure_bind]
  | _ => rw [expr]; all_goals simp

end Forms

section Arrivals

variable {env : Sql.Env} {c : Catalog} {binds : Binds} {s : Scope}

theorem toJson_jsonbOf (v : Val) : toJson (jsonbOf v) = toJson v := by
  cases v <;> rfl

theorem toJson_getText (key : String) (j : Json) :
    toJson (j.getText key) = asText ((j.get? key).getD .null) := by
  unfold Json.getText
  cases h : j.get? key with
  | none => rfl
  | some x => cases x <;> rfl

theorem toJson_memberText (key : String) (v : Val) :
    toJson (memberText key v) = asText (toJson (member key v)) := by
  cases v with
  | json j =>
      rw [memberText, toJson_getText, member]
      cases j.get? key with
      | none => rfl
      | some x => rfl
  | _ => rfl

theorem expr_prop {hint : Option String} {n : Nat} {v p : String} :
    expr c binds hint n (.prop (.var v) p) = do return (← propOperand c binds v p, n) := by
  rw [expr]

attribute [local simp] SqlOp.apply

theorem propSql_received {a : Alias} {tid : Option Int} {p : String} :
    toJson ((propSql c a tid p).1.eval env [] s) =
      if (propSql c a tid p).2.isNone then asText (toJson ((propSqlJson c a tid p).eval env [] s))
      else toJson ((propSqlJson c a tid p).eval env [] s) := by
  unfold propSql propSqlJson
  split
  · simp [idOf, SqlExpr.eval, SqlExpr.evals, toJson_jsonbOf]
  · cases tid with
    | none => simp [SqlExpr.eval, SqlExpr.evals, toJson_memberText]
    | some t =>
        cases hview : viewProperty? c t p with
        | some column => simp [hview, SqlExpr.eval, SqlExpr.evals, toJson_jsonbOf]
        | none => simp [hview, SqlExpr.eval, SqlExpr.evals, toJson_memberText]

/-- An undeclared property is read as text, a declared one as its column. -/
theorem prop_received {v p : String} {sql : SqlExpr} (h : propOperand c binds v p = .ok sql)
    (n : Nat) :
    toJson (sql.eval env [] s) = received env c binds s n (.prop (.var v) p) := by
  rw [received, propJson]
  unfold propOperand at h
  cases hb : lookupBind binds v with
  | none => simp [hb] at h
  | some b =>
      cases b with
      | node a tid =>
          simp only [hb, Except.ok.injEq] at h
          subst h
          simp only [typeOf, propOutput, hb]
          exact propSql_received
      | rel name tid idExpr =>
          cases name with
          | none =>
              simp only [hb, Except.ok.injEq] at h
              subst h
              simp [typeOf, hb, SqlExpr.eval, SqlExpr.evals, toJson_memberText]
          | some a =>
              simp only [hb, Except.ok.injEq] at h
              subst h
              simp only [typeOf, propOutput, hb]
              exact propSql_received
      | path hops => simp [hb] at h
      | scalar doc =>
          simp only [hb, Except.ok.injEq] at h
          subst h
          simp [typeOf, propOutput, hb, SqlExpr.eval, SqlExpr.evals,
            toJson_memberText]

theorem memberText_ne_json (key : String) (v : Val) (j : Json) : memberText key v ≠ .json j := by
  cases v with
  | json d =>
      rw [memberText, Json.getText]
      cases d.get? key with
      | none => simp
      | some x => cases x <;> simp
  | _ => simp [memberText]

/-- What is read as text is no document. -/
theorem prop_ne_json {v p : String} {sql : SqlExpr} (h : propOperand c binds v p = .ok sql)
    (htype : typeOf c binds (.prop (.var v) p) = none) (j : Json) :
    sql.eval env [] s ≠ .json j := by
  have hsql {a : Alias} {tid : Option Int} (hnone : (propSql c a tid p).2 = none) :
      (propSql c a tid p).1.eval env [] s ≠ .json j := by
    unfold propSql at hnone ⊢
    split
    · next hid => simp [hid] at hnone
    · next hid =>
      rw [if_neg hid] at hnone
      cases tid with
      | none => exact memberText_ne_json p _ j
      | some t =>
          cases hview : viewProperty? c t p with
          | some column => simp [hview] at hnone
          | none =>
              simp only [hview]
              exact memberText_ne_json p _ j
  unfold propOperand at h
  cases hb : lookupBind binds v with
  | none => simp [hb] at h
  | some b =>
      cases b with
      | node a tid =>
          simp only [hb, Except.ok.injEq] at h
          subst h
          exact hsql (by simpa [typeOf, hb] using htype)
      | rel name tid idExpr =>
          cases name with
          | none =>
              simp only [hb, Except.ok.injEq] at h
              subst h
              exact memberText_ne_json p _ j
          | some a =>
              simp only [hb, Except.ok.injEq] at h
              subst h
              exact hsql (by simpa [typeOf, hb] using htype)
      | path hops => simp [hb] at h
      | scalar doc =>
          simp only [hb, Except.ok.injEq] at h
          subst h
          exact memberText_ne_json p _ j

theorem jsonbArg_eval (e : Expr) (sql : SqlExpr) {j : Json}
    (hlit : ∀ l, e = .lit l → j = litJson l) (h : toJson (sql.eval env [] s) = j) :
    toJson ((jsonbArg e sql).eval env [] s) = j := by
  unfold jsonbArg
  split
  · exact (hlit _ rfl).symm
  · rw [hlit _ rfl]
    rfl
  · simpa [SqlExpr.eval, SqlExpr.evals, toJson_jsonbOf] using h

mutual

/-- Every operand arrives as its kind says. -/
theorem expr_received : ∀ (e : Expr) {n n' : Nat} {sql : SqlExpr},
    expr c binds none n e = .ok (sql, n') →
      toJson (sql.eval env [] s) = received env c binds s n e := by
  intro e n n' sql h
  cases e with
  | lit l =>
      rw [expr] at h
      obtain ⟨rfl, -⟩ := Prod.mk.inj (Except.ok.inj h)
      cases l <;> rfl
  | param p =>
      rw [expr] at h
      obtain ⟨rfl, -⟩ := Prod.mk.inj (Except.ok.inj h)
      rw [received]
      exact toJson_getText p env.params
  | prop base p =>
      cases base with
      | var v =>
          rw [expr_prop] at h
          obtain ⟨operand, hoperand, h⟩ := bind_eq_ok.mp h
          obtain ⟨rfl, -⟩ := Prod.mk.inj (pure_eq_ok.mp h)
          exact prop_received hoperand n
      | _ => simp [expr] at h
  | list es =>
      rw [expr] at h
      simp only [Option.bind_none] at h
      obtain ⟨⟨items, k⟩, hitems, h⟩ := bind_eq_ok.mp h
      obtain ⟨rfl, -⟩ := Prod.mk.inj (pure_eq_ok.mp h)
      rw [received]
      simp only [jsonArraySql, listCall, SqlExpr.eval, SqlOp.apply, toJson]
      rw [jsonbArgs_received es hitems]
  | _ =>
      rw [received, meaning, operandVal, h]
      all_goals simp

theorem jsonbArgs_received : ∀ (es : List Expr) {n n' : Nat} {items : List SqlExpr},
    jsonbArgs c binds n es = .ok (items, n') →
      (SqlExpr.evals env [] s items).map toJson = receivedAll env c binds s n es := by
  intro es n n' items h
  cases es with
  | nil =>
      rw [jsonbArgs] at h
      obtain ⟨rfl, -⟩ := Prod.mk.inj (Except.ok.inj h)
      rfl
  | cons e es =>
      rw [jsonbArgs] at h
      obtain ⟨⟨sql, k⟩, hsql, h⟩ := bind_eq_ok.mp h
      obtain ⟨⟨rest, m⟩, hrest, h⟩ := bind_eq_ok.mp h
      obtain ⟨rfl, -⟩ := Prod.mk.inj (pure_eq_ok.mp h)
      have hafter : after c binds n e = k := by rw [after, hsql]
      have hhead : toJson (sql.eval env [] s) = received env c binds s n e :=
        expr_received e hsql
      have hlit : ∀ l, e = .lit l → received env c binds s n e = litJson l := by
        rintro l rfl
        rw [received, meaning]
        all_goals simp
      rw [receivedAll, hafter, ← jsonbArgs_received es hrest]
      simp only [SqlExpr.evals, List.map_cons, List.cons.injEq, and_true]
      exact jsonbArg_eval e sql hlit hhead

end

theorem meaning_lit (n : Nat) (l : Lit) : meaning env c binds s n (.lit l) = litJson l := by
  rw [meaning]

/-- Hints matter to literals, parameters and row variables only. -/
theorem expr_jsonb {n : Nat} {e : Expr} (hlit : ∀ l, e ≠ .lit l) (hparam : ∀ p, e ≠ .param p) :
    expr c binds (some "jsonb") n e = expr c binds none n e := by
  cases e with
  | lit l => exact absurd rfl (hlit l)
  | param p => exact absurd rfl (hparam p)
  | var v =>
      rw [expr_var, expr_var, varSql, varSql]
      cases lookupBind binds v with
      | none => rfl
      | some b => cases b <;> rfl
  | list es =>
      rw [expr, expr]
      simp [stripArray_jsonb]
  | _ =>
      conv_lhs => rw [expr.eq_def]
      conv_rhs => rw [expr.eq_def]

/-- A list that arrives as jsonb is the list as received. -/
theorem arrives_received {n n' : Nat} {e : Expr} {sql : SqlExpr} {j : Json} {xs : List Json}
    (hmeaning : meaning env c binds s n e = .arr xs)
    (hparam : ∀ p, e = .param p →
      env.pg.cast "jsonb" (.text (Json.arr xs).text) = .json (.arr xs))
    (h : expr c binds (some "jsonb") n e = .ok (sql, n')) (hj : sql.eval env [] s = .json j) :
    j = receivedList env c binds s n e ∧ ∃ ys, receivedList env c binds s n e = .arr ys := by
  cases e with
  | lit l =>
      rw [meaning_lit] at hmeaning
      cases l <;> cases hmeaning
  | param p =>
      rw [expr] at h
      obtain ⟨rfl, -⟩ := Prod.mk.inj (Except.ok.inj h)
      rw [receivedList, hmeaning]
      rw [meaning] at hmeaning
      have htext : env.params.getText p = .text (Json.arr xs).text := by
        unfold Json.getText
        cases hget : env.params.get? p with
        | none => simp [hget] at hmeaning
        | some x =>
            obtain rfl : x = .arr xs := by simpa [hget] using hmeaning
            rfl
      have hcast : paramSql (some "jsonb") p =
          .app (.cast "jsonb") ["", "::" ++ "jsonb"] [.param p] := by
        rw [paramSql, if_neg (by decide)]
      simp only [hcast, SqlExpr.eval, SqlExpr.evals, SqlOp.apply, htext, reduceCtorEq, if_false,
        hparam p rfl] at hj
      exact ⟨(Val.json.inj hj).symm, xs, rfl⟩
  | prop base p =>
      rw [expr_jsonb (by simp) (by simp)] at h
      have hreceived : toJson (sql.eval env [] s) = received env c binds s n _ :=
        expr_received _ h
      rw [hj] at hreceived
      refine ⟨hreceived, ?_⟩
      cases base with
      | var v =>
          rw [expr_prop] at h
          obtain ⟨operand, hoperand, h⟩ := bind_eq_ok.mp h
          obtain ⟨rfl, -⟩ := Prod.mk.inj (pure_eq_ok.mp h)
          rw [meaning] at hmeaning
          cases htype : typeOf c binds (.prop (.var v) p) with
          | none => exact absurd hj (prop_ne_json hoperand htype j)
          | some t => simp [receivedList, received, htype, hmeaning]
      | _ => simp [expr] at h
  | list es =>
      rw [expr_jsonb (by simp) (by simp)] at h
      have hreceived : toJson (sql.eval env [] s) = received env c binds s n _ :=
        expr_received _ h
      rw [hj] at hreceived
      exact ⟨hreceived, receivedAll env c binds s n es, by simp [receivedList, received]⟩
  | _ =>
      rw [expr_jsonb (by simp) (by simp)] at h
      have hreceived : toJson (sql.eval env [] s) = received env c binds s n _ :=
        expr_received _ h
      rw [hj] at hreceived
      exact ⟨hreceived, xs, by simpa [receivedList, received] using hmeaning⟩

end Arrivals

section Columns

def literals (items : List Expr) : List Lit :=
  items.filterMap fun e => match e with
    | .lit l => some l
    | _ => none

/-- A literal, read at the type of the column it is compared with. -/
def readLit (pg : Postgres) (t : String) : Lit → Val
  | .int i => .int i
  | .float d => .float d
  | .bool b => .bool b
  | .str u => if t = "text" then .text u else pg.cast t (.text u)
  | .null => .null

/-- A literal of the column's own kind, doubles apart. -/
def ownKind (t : String) (x : Val) (l : Lit) : Bool :=
  match x, l with
  | .bool _, .bool _ | .int _, .int _ => true
  | .text _, .str _ => t = "text"
  | _, _ => false

/-- The server takes a column for equal to a literal. -/
def Equals (pg : Postgres) (t : String) (x : Val) (l : Lit) : Prop :=
  strict pg.equal x (readLit pg t l) = .bool true

/-- PostgreSQL's equality of booleans and texts, and its containment of jsonb. -/
structure Server (pg : Postgres) : Prop where
  equalBool : ∀ a b, pg.equal (.bool a) (.bool b) = decide (a = b)
  equalText : ∀ a b, pg.equal (.text a) (.text b) = decide (a = b)
  contains : ∀ a v, v ≠ .null → pg.fn "@>" [.json a, v] = .bool (contains a (toJson v))
  strict : ∀ u, pg.fn "@>" [u, .null] = .null
  noOperator : ∀ u v, (∀ j, u ≠ .json j) → pg.fn "@>" [u, v] ≠ .bool true

theorem memberOf_eq_true {pg : Postgres} {x : Val} {ys : List Val} :
    memberOf pg x ys = .bool true ↔ ∃ y ∈ ys, Sql.strict pg.equal x y = .bool true := by
  have hor (a b : Val) : or3 a b = .bool true ↔ a = .bool true ∨ b = .bool true := by
    cases a with
    | bool a => cases a <;> cases b with
      | bool b => cases b <;> simp [or3, not3, and3]
      | _ => simp [or3, not3, and3]
    | _ => cases b with
      | bool b => cases b <;> simp [or3, not3, and3]
      | _ => simp [or3, not3, and3]
  induction ys with
  | nil => simp [memberOf]
  | cons y ys ih => simp [memberOf, hor, ih]

theorem equals_ownKind {pg : Postgres} (hserver : Server pg) {t : String} {x : Val} {l : Lit}
    (h : ownKind t x l = true) :
    Equals pg t x l ↔ sameJson (toJson x) (litJson l) = true := by
  unfold Equals
  cases x with
  | bool a =>
      cases l with
      | bool b => simp [Sql.strict, readLit, hserver.equalBool, toJson, litJson, sameJson]
      | _ => simp [ownKind] at h
  | int i =>
      cases l with
      | int j => simp [Sql.strict, readLit, pg.equal_int, toJson, litJson, sameJson, sameNumber]
      | _ => simp [ownKind] at h
  | text u =>
      cases l with
      | str v =>
          have ht : t = "text" := by simpa [ownKind] using h
          simp [Sql.strict, readLit, ht, hserver.equalText, toJson, litJson, sameJson]
      | _ => simp [ownKind] at h
  | _ => simp [ownKind] at h

variable {env : Sql.Env} {c : Catalog} {binds : Binds} {s : Scope}

/-- A typed operand is compiled to what it stands for. -/
theorem typed_meaning {n n' : Nat} {l : Expr} {t : String} {sql : SqlExpr}
    (htype : typeOf c binds l = some t) (h : expr c binds (some t) n l = .ok (sql, n')) :
    toJson (sql.eval env [] s) = meaning env c binds s n l := by
  cases l with
  | lit a =>
      rw [expr] at h
      obtain ⟨rfl, -⟩ := Prod.mk.inj (Except.ok.inj h)
      rw [meaning_lit]
      cases a with
      | str u =>
          obtain rfl : "text" = t := Option.some.inj htype
          rfl
      | null => cases htype
      | _ => rfl
  | prop base p =>
      cases base with
      | var v =>
          rw [expr_prop] at h
          obtain ⟨operand, hoperand, h⟩ := bind_eq_ok.mp h
          obtain ⟨rfl, -⟩ := Prod.mk.inj (pure_eq_ok.mp h)
          rw [prop_received hoperand n, received, htype, meaning]
          simp
      | _ => cases htype
  | _ => cases htype

theorem exprs_literals {t : String} : ∀ {items : List Expr} {n n' : Nat} {vs : List SqlExpr},
    items.all isLiteral = true → exprs c binds (some t) n items = .ok (vs, n') →
      SqlExpr.evals env [] s vs = (literals items).map (readLit env.pg t) := by
  intro items
  induction items with
  | nil =>
      intro n n' vs _ h
      rw [exprs] at h
      obtain ⟨rfl, -⟩ := Prod.mk.inj (Except.ok.inj h)
      rfl
  | cons e items ih =>
      intro n n' vs hlits h
      rw [List.all_cons, Bool.and_eq_true] at hlits
      obtain ⟨hlit, hlits⟩ := hlits
      rw [exprs] at h
      obtain ⟨⟨v, k⟩, hv, h⟩ := bind_eq_ok.mp h
      obtain ⟨⟨rest, m⟩, hrest, h⟩ := bind_eq_ok.mp h
      obtain ⟨rfl, -⟩ := Prod.mk.inj (pure_eq_ok.mp h)
      cases e with
      | lit l =>
          rw [expr] at hv
          obtain ⟨rfl, -⟩ := Prod.mk.inj (Except.ok.inj hv)
          have hread : (litSql (some t) l).eval env [] s = readLit env.pg t l := by
            cases l with
            | str u =>
                simp only [litSql, readLit]
                split
                · rfl
                · rfl
            | _ => rfl
          simp only [SqlExpr.evals, hread, ih hlits hrest, literals, List.filterMap_cons,
            List.map_cons]
      | _ => cases hlit

theorem meanings_literals {items : List Expr} (hlits : items.all isLiteral = true) (n : Nat) :
    meanings env c binds s n items = (literals items).map litJson := by
  induction items generalizing n with
  | nil => rfl
  | cons e items ih =>
      rw [List.all_cons, Bool.and_eq_true] at hlits
      cases e with
      | lit l =>
          rw [meanings, ih hlits.2, meaning_lit]
          simp only [literals, List.filterMap_cons, List.map_cons]
      | _ => cases hlits.1

end Columns

section ReadPath

variable (env : Sql.Env) (c : Catalog) (binds : Binds) (s : Scope) (taken : SqlExpr → Bool)
variable (n : Nat) (l r : Expr) (xs : List Json)

/-- An equal literal of the column's own kind decides; else the server takes a
double, or a text it reads at the column's type, for equal when one is. -/
def ColumnFits (t : String) (lits : List Lit) : Prop :=
  (∃ a ∈ lits, ownKind t (operandVal env c binds s (some t) n l) a = true ∧
      sameJson (meaning env c binds s n l) (litJson a) = true) ∨
    ((∃ a ∈ lits, ownKind t (operandVal env c binds s (some t) n l) a = false ∧
        Equals env.pg t (operandVal env c binds s (some t) n l) a) ↔
      ∃ a ∈ lits, ownKind t (operandVal env c binds s (some t) n l) a = false ∧
        sameJson (meaning env c binds s n l) (litJson a) = true)

/-- The list is a jsonb column, and the value not NULL. -/
def Sent : Prop :=
  (∃ j, operandVal env c binds s (some "jsonb") (after c binds n l) r = .json j) ∧
    operandVal env c binds s none n l ≠ .null

/-- No map is an element; a list is one when its own elements are found among
the elements; a scalar and the list arrive as they are, or else the texts that
arrive are as good. -/
def ContainmentFits : Prop :=
  match received env c binds s n l with
  | .obj _ => isMember (meaning env c binds s n l) xs = false
  | .arr ys =>
      isMember (meaning env c binds s n l) xs = true ↔
        ∀ y ∈ ys, ∃ x ∈ elementsOf (receivedList env c binds s (after c binds n l) r),
          within y x = true
  | y =>
      meaning env c binds s n l = y ∧
          receivedList env c binds s (after c binds n l) r = .arr xs ∨
        isMember (meaning env c binds s n l) xs =
          isMember y (elementsOf (receivedList env c binds s (after c binds n l) r))

/-- The operands of `IN` fit the form it is compiled to. -/
def ReadFits (sql : SqlExpr) : Prop :=
  if taken sql = true then
    match columnForm c binds l r with
    | some (t, items) => ColumnFits env c binds s n l t (literals items)
    | none =>
        (Sent env c binds s n l r → ContainmentFits env c binds s n l r xs) ∧
          (¬ Sent env c binds s n l r → isMember (meaning env c binds s n l) xs = false)
  else isMember (meaning env c binds s n l) xs = false

/-- The compiled predicate is true exactly of the elements. -/
def ReadRight (sql : SqlExpr) : Prop :=
  taken sql = true ∧ sql.eval env [] s = .bool true ↔
    isMember (meaning env c binds s n l) xs = true

variable {env c binds s taken n l r xs}

theorem or_iff_or_left {P Q R : Prop} : ((P ∨ Q) ↔ (P ∨ R)) ↔ P ∨ (Q ↔ R) := by
  tauto

theorem imp_and_not_imp {P Q R : Prop} (h : P) : ((P → Q) ∧ (¬ P → R)) ↔ Q := by
  tauto

theorem columnRight_iff (hserver : Server env.pg) {hint : Option String} {n' : Nat}
    {sql : SqlExpr} {t : String} {items : List Expr}
    (hform : columnForm c binds l r = some (t, items))
    (hsql : expr c binds hint n (.binary .in_ l r) = .ok (sql, n'))
    (hlist : meaning env c binds s (after c binds n l) r = .arr xs) :
    (sql.eval env [] s = .bool true ↔ isMember (meaning env c binds s n l) xs = true) ↔
      ColumnFits env c binds s n l t (literals items) := by
  obtain ⟨rfl, htype, hlits, hexpr⟩ := @expr_in_column c binds hint n l r t items hform
  rw [hexpr] at hsql
  obtain ⟨⟨ls, k⟩, hls, hsql⟩ := bind_eq_ok.mp hsql
  obtain ⟨⟨vs, m⟩, hvs, hsql⟩ := bind_eq_ok.mp hsql
  obtain ⟨rfl, -⟩ := Prod.mk.inj (pure_eq_ok.mp hsql)
  have hval : operandVal env c binds s (some t) n l = ls.eval env [] s := by
    rw [operandVal, hls]
  have hmeaning : toJson (ls.eval env [] s) = meaning env c binds s n l :=
    typed_meaning htype hls
  have hxs : xs = (literals items).map litJson := by
    rw [meaning, meanings_literals hlits] at hlist
    exact (Json.arr.inj hlist).symm
  have htrue : (SqlExpr.app .inList ("(" :: listPieces " IN (" ", " "))" vs.length)
      (ls :: vs)).eval env [] s = .bool true ↔
        ∃ a ∈ literals items, Equals env.pg t (ls.eval env [] s) a := by
    simp only [SqlExpr.eval, SqlExpr.evals, SqlOp.apply, exprs_literals hlits hvs,
      memberOf_eq_true, Equals]
    simp
  have hmember : isMember (meaning env c binds s n l) xs = true ↔
      ∃ a ∈ literals items, sameJson (meaning env c binds s n l) (litJson a) = true := by
    simp [isMember, hxs, List.any_eq_true]
  have hsplit (P : Lit → Prop) : (∃ a ∈ literals items, P a) ↔
      (∃ a ∈ literals items, ownKind t (ls.eval env [] s) a = true ∧ P a) ∨
        ∃ a ∈ literals items, ownKind t (ls.eval env [] s) a = false ∧ P a := by
    constructor
    · rintro ⟨a, ha, hP⟩
      cases hkind : ownKind t (ls.eval env [] s) a with
      | true => exact .inl ⟨a, ha, hkind, hP⟩
      | false => exact .inr ⟨a, ha, hkind, hP⟩
    · rintro (⟨a, ha, -, hP⟩ | ⟨a, ha, -, hP⟩)
      · exact ⟨a, ha, hP⟩
      · exact ⟨a, ha, hP⟩
  have hown : (∃ a ∈ literals items, ownKind t (ls.eval env [] s) a = true ∧
      Equals env.pg t (ls.eval env [] s) a) ↔
        ∃ a ∈ literals items, ownKind t (ls.eval env [] s) a = true ∧
          sameJson (meaning env c binds s n l) (litJson a) = true := by
    refine exists_congr fun a => and_congr_right fun _ => and_congr_right fun hkind => ?_
    rw [equals_ownKind hserver hkind, hmeaning]
  rw [htrue, hmember, hsplit, hsplit fun a => sameJson _ (litJson a) = true, hown, ColumnFits, hval,
    or_iff_or_left]

theorem containmentRight_iff (hserver : Server env.pg) {hint : Option String} {n' : Nat}
    {sql : SqlExpr} (hform : columnForm c binds l r = none)
    (hsql : expr c binds hint n (.binary .in_ l r) = .ok (sql, n'))
    (hlist : meaning env c binds s (after c binds n l) r = .arr xs)
    (hparam : ∀ p, r = .param p →
      env.pg.cast "jsonb" (.text (Json.arr xs).text) = .json (.arr xs)) :
    (sql.eval env [] s = .bool true ↔ isMember (meaning env c binds s n l) xs = true) ↔
      (Sent env c binds s n l r → ContainmentFits env c binds s n l r xs) ∧
        (¬ Sent env c binds s n l r → isMember (meaning env c binds s n l) xs = false) := by
  rw [expr_in_containment hform] at hsql
  obtain ⟨⟨ls, k⟩, hls, hsql⟩ := bind_eq_ok.mp hsql
  obtain ⟨⟨rs, m⟩, hrs, hsql⟩ := bind_eq_ok.mp hsql
  obtain ⟨rfl, -⟩ := Prod.mk.inj (pure_eq_ok.mp hsql)
  have hafter : after c binds n l = k := by rw [after, hls]
  have hval : operandVal env c binds s none n l = ls.eval env [] s := by rw [operandVal, hls]
  have hlistval : operandVal env c binds s (some "jsonb") k r = rs.eval env [] s := by
    rw [operandVal, hrs]
  have heval : (binarySql .in_ false ls rs).eval env [] s =
      env.pg.fn "@>" [rs.eval env [] s, ls.eval env [] s] := by
    simp only [binarySql, call, SqlExpr.eval, SqlExpr.evals, SqlOp.apply]
  have hreceived : toJson (ls.eval env [] s) = received env c binds s n l := expr_received l hls
  rw [heval]
  by_cases hsent : Sent env c binds s n l r
  · rw [imp_and_not_imp hsent]
    obtain ⟨⟨j, hj⟩, hnull⟩ := hsent
    rw [hafter, hlistval] at hj
    rw [hval] at hnull
    rw [hafter] at hlist
    obtain ⟨harrives, ys, hys⟩ := arrives_received hlist hparam hrs hj
    have htrue : env.pg.fn "@>" [rs.eval env [] s, ls.eval env [] s] = .bool true ↔
        contains (.arr ys) (received env c binds s n l) = true := by
      rw [hj, harrives, hys, hserver.contains _ _ hnull, hreceived]
      simp
    rw [htrue, ContainmentFits, hafter, hys]
    simp only [elementsOf]
    split
    · next kvs hobj =>
      rw [hobj, contains_object]
      simp
    · next zs harr =>
      rw [harr, contains_array]
      exact Iff.comm
    · next hobj harr =>
      have hscalar : isScalar (received env c binds s n l) = true := by
        cases hx : received env c binds s n l with
        | arr zs => exact absurd hx (harr zs)
        | obj kvs => exact absurd hx (hobj kvs)
        | _ => rfl
      rw [contains_scalar hscalar, ← isMember]
      constructor
      · intro h
        exact .inr (Bool.eq_iff_iff.mpr h.symm)
      · rintro (⟨hx, hxs⟩ | h)
        · rw [hx, Json.arr.inj hxs]
        · rw [h]
  · have hfalse : env.pg.fn "@>" [rs.eval env [] s, ls.eval env [] s] ≠ .bool true := by
      by_cases hnull : ls.eval env [] s = .null
      · rw [hnull, hserver.strict]
        simp
      · refine hserver.noOperator _ _ fun j hj => hsent ?_
        rw [Sent, hafter, hlistval, hval]
        exact ⟨⟨j, hj⟩, hnull⟩
    simp [hsent, hfalse]

theorem readRight_iff (hserver : Server env.pg) {hint : Option String} {n' : Nat} {sql : SqlExpr}
    (hsql : expr c binds hint n (.binary .in_ l r) = .ok (sql, n'))
    (hlist : meaning env c binds s (after c binds n l) r = .arr xs)
    (hparam : ∀ p, r = .param p →
      env.pg.cast "jsonb" (.text (Json.arr xs).text) = .json (.arr xs)) :
    ReadRight env c binds s taken n l xs sql ↔
      ReadFits env c binds s taken n l r xs sql := by
  unfold ReadRight ReadFits
  split
  · next htaken =>
    simp only [htaken, true_and]
    cases hform : columnForm c binds l r with
    | some form => exact columnRight_iff hserver hform hsql hlist
    | none => exact containmentRight_iff hserver hform hsql hlist hparam
  · next htaken => simp [htaken]

end ReadPath

section WritePath

variable {F : Type} (rt : Runtime F)

def sameNumbers : Number F → Number F → Bool
  | .int i, .int j => i = j
  | .float f, .float g => rt.eq f g
  | .int i, .float g => rt.eq (rt.ofInt i) g
  | .float f, .int j => rt.eq f (rt.ofInt j)

mutual

/-- Equality of values: numbers are compared as numbers. -/
def equals : Value F → Value F → Bool
  | .null, b =>
      match b with
      | .null => true
      | _ => false
  | .bool a, b =>
      match b with
      | .bool b => a = b
      | _ => false
  | .number a, b =>
      match b with
      | .number b => sameNumbers rt a b
      | _ => false
  | .string a, b =>
      match b with
      | .string b => a = b
      | _ => false
  | .array xs, b =>
      match b with
      | .array ys => equalsList xs ys
      | _ => false
  | .object xs, b =>
      match b with
      | .object ys => equalsFields xs ys
      | _ => false

def equalsList : List (Value F) → List (Value F) → Bool
  | [], ys => ys.isEmpty
  | x :: xs, ys =>
      match ys with
      | y :: ys => equals x y && equalsList xs ys
      | [] => false

def equalsFields : List (String × Value F) → List (String × Value F) → Bool
  | [], ys => ys.isEmpty
  | (k, x) :: xs, ys =>
      match ys with
      | (l, y) :: ys => k = l && equals x y && equalsFields xs ys
      | [] => false

end

def alikeNumbers : Number F → Number F → Bool
  | .int _, .int _ | .float _, .float _ => true
  | _, _ => false

mutual

/-- The numbers of two values are integers or doubles in the same places. -/
def alike : Value F → Value F → Bool
  | .number a, b =>
      match b with
      | .number b => alikeNumbers a b
      | _ => true
  | .array xs, b =>
      match b with
      | .array ys => alikeList xs ys
      | _ => true
  | .object xs, b =>
      match b with
      | .object ys => alikeFields xs ys
      | _ => true
  | .null, _ | .bool _, _ | .string _, _ => true

def alikeList : List (Value F) → List (Value F) → Bool
  | [], _ => true
  | x :: xs, ys =>
      match ys with
      | y :: ys => alike x y && alikeList xs ys
      | [] => true

def alikeFields : List (String × Value F) → List (String × Value F) → Bool
  | [], _ => true
  | (_, x) :: xs, ys =>
      match ys with
      | (_, y) :: ys => alike x y && alikeFields xs ys
      | [] => true

end

variable {rt}

mutual

/-- The evaluator's equality also tells integers from doubles. -/
theorem same_eq : ∀ a b : Value F, a.same rt b = (equals rt a b && alike a b) := by
  intro a b
  cases a with
  | number m =>
      cases b with
      | number k =>
          cases m with
          | int i => cases k <;> simp [Value.same, equals, sameNumbers, alike, alikeNumbers]
          | float f => cases k <;> simp [Value.same, equals, sameNumbers, alike, alikeNumbers]
      | _ => cases m <;> simp [Value.same, equals]
  | array xs =>
      cases b with
      | array ys => simp [Value.same, equals, alike, sameList_eq xs ys]
      | _ => simp [Value.same, equals]
  | object xs =>
      cases b with
      | object ys => simp [Value.same, equals, alike, sameFields_eq xs ys]
      | _ => simp [Value.same, equals]
  | _ => cases b <;> simp [Value.same, equals, alike]

theorem sameList_eq : ∀ xs ys : List (Value F),
    Value.sameList rt xs ys = (equalsList rt xs ys && alikeList xs ys) := by
  intro xs ys
  cases xs with
  | nil => cases ys <;> simp [Value.sameList, equalsList, alikeList]
  | cons x xs =>
      cases ys with
      | nil => simp [Value.sameList, equalsList]
      | cons y ys =>
          rw [Value.sameList, equalsList, alikeList, same_eq x y, sameList_eq xs ys]
          ac_rfl

theorem sameFields_eq : ∀ xs ys : List (String × Value F),
    Value.sameFields rt xs ys = (equalsFields rt xs ys && alikeFields xs ys) := by
  intro xs ys
  cases xs with
  | nil => cases ys <;> simp [Value.sameFields, equalsFields, alikeFields]
  | cons x xs =>
      cases ys with
      | nil => simp [Value.sameFields, equalsFields]
      | cons y ys =>
          rw [Value.sameFields, equalsFields, alikeFields, same_eq x.2 y.2, sameFields_eq xs ys]
          ac_rfl

end

end WritePath

section Membership

variable {F : Type} (rt : Runtime F) (params : Value F) (bound : RowEvaluator.Env F)

/-- The evaluator's predicate is true exactly of the elements. -/
def WriteRight (l r : Expr) (a : Value F) (vs : List (Value F)) : Prop :=
  eval rt params (.binary .in_ l r) bound = .ok (.bool true) ↔
    (vs.any fun v => equals rt v a) = true

/-- An equal element is written alike. -/
def WriteFits (a : Value F) (vs : List (Value F)) : Prop :=
  (vs.any fun v => equals rt v a) = true → (vs.any fun v => equals rt v a && alike v a) = true

variable {rt params bound}

theorem writeRight_iff {l r : Expr} {a : Value F} {vs : List (Value F)}
    (hl : eval rt params l bound = .ok a) (hr : eval rt params r bound = .ok (.array vs)) :
    WriteRight rt params bound l r a vs ↔ WriteFits rt a vs := by
  have heval : eval rt params (.binary .in_ l r) bound =
      .ok (.bool (vs.any fun v => equals rt v a && alike v a)) := by
    rw [eval, hl, hr]
    simp only [← same_eq]
    rfl
  have hequals : (vs.any fun v => equals rt v a && alike v a) = true →
      (vs.any fun v => equals rt v a) = true := by
    simp only [List.any_eq_true, Bool.and_eq_true]
    rintro ⟨v, hv, h, -⟩
    exact ⟨v, hv, h⟩
  unfold WriteRight WriteFits
  rw [heval]
  simp only [Except.ok.injEq, Value.bool.injEq]
  exact ⟨fun h => h.mpr, fun h => ⟨hequals, h⟩⟩

/-- A server whose values are equal when they are the same, and that contains
documents as jsonb does. -/
def containingServer : Postgres :=
  { Postgres.literal with
    fn := fun name args =>
      match name, args with
      | "@>", [.json a, v] => if v = .null then .null else .bool (contains a (toJson v))
      | _, _ => .null }

theorem containingServer_server : Server containingServer where
  equalBool a b := by simp [containingServer, Postgres.literal]
  equalText a b := by simp [containingServer, Postgres.literal]
  contains a v hv := by
    show (if v = .null then Val.null else .bool (contains a (toJson v))) = _
    rw [if_neg hv]
  strict u := by
    cases u with
    | json a => rfl
    | _ => rfl
  noOperator u v hu := by
    cases u with
    | json a => exact absurd rfl (hu a)
    | _ => simp [containingServer]

def containingEnv : Sql.Env :=
  { counterEnv with pg := containingServer, params := .obj [("x", .num ⟨1, 0⟩)] }

def listOf (is : List Int) : Expr := .list (is.map fun i => .lit (.int i))

def oneTwo : List Json := [.num ⟨1, 0⟩, .num ⟨2, 0⟩]

end Membership

end OntologicalDb.ListMembership
