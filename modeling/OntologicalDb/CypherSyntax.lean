import OntologicalDb.Values

/-!
The abstract syntax of Cypher queries.
-/

namespace OntologicalDb.CypherSyntax

open OntologicalDb.Values

inductive Dir
  | out
  | in_
  | both
deriving DecidableEq

inductive Lit
  | int (i : Int)
  | float (f : Decimal)
  | str (s : String)
  | bool (b : Bool)
  | null
deriving DecidableEq

inductive BinOp
  | add | sub | mul | div | mod | pow
  | eq | ne | lt | le | gt | ge
  | and | or | xor
  | in_ | startsWith | endsWith | contains | regex | concat
deriving DecidableEq

inductive ListPredKind
  | any
  | all
  | none
  | single
deriving DecidableEq

mutual

inductive Expr
  | lit (l : Lit)
  | param (name : String)
  | var (name : String)
  | prop (base : Expr) (name : String)
  | binary (op : BinOp) (l r : Expr)
  | not (e : Expr)
  | neg (e : Expr)
  | isNull (e : Expr) (wantNull : Bool)
  | func (name : String) (args : List Expr) (distinct : Bool)
  | list (xs : List Expr)
  | map (kvs : List (String × Expr))
  | case (operand : Option Expr) (whens : List (Expr × Expr)) (otherwise : Option Expr)
  | listComp (var : String) (source : Expr) (filter project : Option Expr)
  | listPred (kind : ListPredKind) (var : String) (source filter : Expr)
  | mapProjection (var : String) (items : List MapProjItem)
  | star

/-- An entry of `n { .name, .*, key: e }`. -/
inductive MapProjItem
  | prop (name : String)
  | all
  | entry (key : String) (e : Expr)

end

section Induction

set_option linter.unusedSectionVars false

variable {P : Expr → Prop} (lit : ∀ l, P (.lit l)) (param : ∀ p, P (.param p))
  (var : ∀ v, P (.var v)) (prop : ∀ b p, P b → P (.prop b p))
  (binary : ∀ op l r, P l → P r → P (.binary op l r)) (not : ∀ e, P e → P (.not e))
  (neg : ∀ e, P e → P (.neg e)) (isNull : ∀ e w, P e → P (.isNull e w))
  (func : ∀ f xs d, (∀ x ∈ xs, P x) → P (.func f xs d))
  (list : ∀ xs, (∀ x ∈ xs, P x) → P (.list xs))
  (map : ∀ kvs, (∀ kv ∈ kvs, P kv.2) → P (.map kvs))
  (case : ∀ o ws e, (∀ x, o = some x → P x) → (∀ w ∈ ws, P w.1 ∧ P w.2) →
    (∀ x, e = some x → P x) → P (.case o ws e))
  (listComp : ∀ v s f p, P s → (∀ x, f = some x → P x) → (∀ x, p = some x → P x) →
    P (.listComp v s f p))
  (listPred : ∀ k v s f, P s → P f → P (.listPred k v s f))
  (mapProjection : ∀ v is, (∀ i ∈ is, ∀ k x, i = .entry k x → P x) → P (.mapProjection v is))
  (star : P .star)

include lit param var prop binary not neg isNull func list map case listComp listPred
  mapProjection star

mutual

/-- What holds of an expression when it holds of its parts holds of every
expression. -/
@[elab_as_elim, induction_eliminator]
theorem Expr.induct : ∀ e : Expr, P e
  | .lit l => lit l
  | .param p => param p
  | .var v => var v
  | .prop b p => prop b p (Expr.induct b)
  | .binary op l r => binary op l r (Expr.induct l) (Expr.induct r)
  | .not e => not e (Expr.induct e)
  | .neg e => neg e (Expr.induct e)
  | .isNull e w => isNull e w (Expr.induct e)
  | .func f xs d => func f xs d (inductList xs)
  | .list xs => list xs (inductList xs)
  | .map kvs => map kvs (inductValues kvs)
  | .case o ws e => case o ws e (inductOption o) (inductWhens ws) (inductOption e)
  | .listComp v s f p => listComp v s f p (Expr.induct s) (inductOption f) (inductOption p)
  | .listPred k v s f => listPred k v s f (Expr.induct s) (Expr.induct f)
  | .mapProjection v is => mapProjection v is (inductItems is)
  | .star => star

theorem inductOption : ∀ o : Option Expr, ∀ x, o = some x → P x
  | some e => fun _ h => Option.some.inj h ▸ Expr.induct e
  | none => nofun

theorem inductList : ∀ xs : List Expr, ∀ x ∈ xs, P x
  | [] => nofun
  | e :: es => List.forall_mem_cons.mpr ⟨Expr.induct e, inductList es⟩

theorem inductValues : ∀ kvs : List (String × Expr), ∀ kv ∈ kvs, P kv.2
  | [] => nofun
  | (_, e) :: kvs => List.forall_mem_cons.mpr ⟨Expr.induct e, inductValues kvs⟩

theorem inductWhens : ∀ ws : List (Expr × Expr), ∀ w ∈ ws, P w.1 ∧ P w.2
  | [] => nofun
  | (w, v) :: ws => List.forall_mem_cons.mpr ⟨⟨Expr.induct w, Expr.induct v⟩, inductWhens ws⟩

theorem inductItems : ∀ is : List MapProjItem, ∀ i ∈ is, ∀ k x, i = .entry k x → P x
  | [] => nofun
  | .prop _ :: is => List.forall_mem_cons.mpr ⟨nofun, inductItems is⟩
  | .all :: is => List.forall_mem_cons.mpr ⟨nofun, inductItems is⟩
  | .entry _ e :: is => List.forall_mem_cons.mpr
      ⟨fun _ _ h => (MapProjItem.entry.inj h).2 ▸ Expr.induct e, inductItems is⟩

end

end Induction

structure NodePat where
  var : Option String
  labels : List String
  props : List (String × Expr)

/-- A relationship pattern; without a range it is a single hop. -/
structure RelPat where
  var : Option String
  types : List String
  dir : Dir
  props : List (String × Expr)
  range : Option (Nat × Nat)

inductive PatElem
  | node (np : NodePat)
  | rel (rp : RelPat)

structure Pattern where
  pathVar : Option String
  elems : List PatElem

structure ReturnItem where
  expr : Expr
  asName : Option String

structure OrderItem where
  expr : Expr
  desc : Bool

structure Projection where
  items : List ReturnItem
  distinct : Bool
  order : List OrderItem
  skip : Option Expr
  limit : Option Expr

inductive SetOp
  | prop (var prop : String) (value : Expr)
  | map (var : String) (value : Expr) (merge : Bool)
  | label (var : String) (labels : List String)

inductive Clause
  | match_ (patterns : List Pattern) (optional : Bool) (where_ : Option Expr)
  | unwind (e : Expr) (asName : String)
  | with_ (proj : Projection) (where_ : Option Expr)
  | return_ (proj : Projection)
  | create (patterns : List Pattern)
  | merge (pattern : Pattern) (onCreate onMatch : List SetOp)
  | set (ops : List SetOp)
  | remove (ops : List SetOp)
  | delete (exprs : List Expr) (detach : Bool)
  | call (name : String) (args : List Expr) (yields : List (String × String))
  | ddl (statement : String)

/-- A query with its `UNION` continuation; the flag is `UNION ALL`. -/
inductive Query
  | mk (clauses : List Clause) (union : Option (Bool × Query))

def Query.clauses : Query → List Clause
  | .mk clauses _ => clauses

def aggregates : List String :=
  ["count", "sum", "avg", "min", "max", "collect", "stdev", "percentile"]

mutual

def Expr.isAggregate : Expr → Bool
  | .func name args _ => name.toLower ∈ aggregates || Expr.anyAggregate args
  | .binary _ a b => a.isAggregate || b.isAggregate
  | .not a | .neg a | .isNull a _ => a.isAggregate
  | .list xs => Expr.anyAggregate xs
  | .map kvs => Expr.anyAggregateValue kvs
  | .case operand whens otherwise =>
      (match operand with
        | some o => o.isAggregate
        | none => false) || Expr.anyAggregateWhen whens ||
      (match otherwise with
        | some e => e.isAggregate
        | none => false)
  | _ => false

def Expr.anyAggregate : List Expr → Bool
  | [] => false
  | x :: xs => x.isAggregate || Expr.anyAggregate xs

def Expr.anyAggregateValue : List (String × Expr) → Bool
  | [] => false
  | (_, v) :: kvs => v.isAggregate || Expr.anyAggregateValue kvs

def Expr.anyAggregateWhen : List (Expr × Expr) → Bool
  | [] => false
  | (a, b) :: whens => a.isAggregate || b.isAggregate || Expr.anyAggregateWhen whens

end

mutual

/-- The display name of an item without an alias. -/
def Expr.defaultAlias : Expr → String
  | .var v => v
  | .prop (.var v) p => v ++ "." ++ p
  | .prop _ p => p
  | .func name args _ => name ++ "(" ++ String.intercalate ", " (Expr.defaultAliases args) ++ ")"
  | .lit (.str s) => "\"" ++ s ++ "\""
  | .lit (.int i) => toString i
  | .lit (.float f) => f.text
  | .lit (.bool b) => toString b
  | .lit .null => "NULL"
  | .param p => "$" ++ p
  | .star => "*"
  | _ => "expr"

def Expr.defaultAliases : List Expr → List String
  | [] => []
  | x :: xs => x.defaultAlias :: Expr.defaultAliases xs

end

def ReturnItem.name (item : ReturnItem) : String :=
  item.asName.getD item.expr.defaultAlias

end OntologicalDb.CypherSyntax
