import Mathlib.Algebra.Order.Ring.Rat
import Mathlib.Data.String.Basic
import OntologicalDb.IntegerArithmetic
import OntologicalDb.ThreeValuedLogic

/-!
Predicates on the two paths: what the row evaluator takes as true, and what the
compiled SQL is true of.
-/

namespace OntologicalDb.PredicateAgreement

open OntologicalDb.CompileExpr
open OntologicalDb.CypherSyntax
open OntologicalDb.ExceptRules
open OntologicalDb.RowEvaluator
open OntologicalDb.Sql
open OntologicalDb.ThreeValuedLogic
open OntologicalDb.TypeCatalog
open OntologicalDb.Values

section Scalars

inductive Scalar
  | null
  | bool (b : Bool)
  | int (i : Int)
  | float (d : Decimal)
  | str (s : String)
deriving DecidableEq

/-- A JSON scalar as a row holds it: an integer that fits, or a double. -/
def scalarOf : Json → Option Scalar
  | .null => some .null
  | .bool b => some (.bool b)
  | .num d =>
      some (if d.scale = 0 ∧ -2 ^ 63 ≤ d.coeff ∧ d.coeff < 2 ^ 64 then .int d.coeff else .float d)
  | .str s => some (.str s)
  | _ => none

def litScalar : Lit → Scalar
  | .int i => .int i
  | .float d => .float d
  | .str s => .str s
  | .bool b => .bool b
  | .null => .null

def decimalValue (d : Decimal) : ℚ := d.coeff / 10 ^ d.scale

def Scalar.number : Scalar → Option ℚ
  | .int i => some i
  | .float d => some (decimalValue d)
  | _ => none

def Scalar.isInt : Scalar → Bool
  | .int _ => true
  | _ => false

/-- How two scalars of one kind compare. -/
def Scalar.compare : Scalar → Scalar → Option Ordering
  | .bool a, .bool b => some (Ord.compare a b)
  | .str s, .str t => some (Ord.compare s t)
  | x, y =>
      match x.number, y.number with
      | some a, some b => some (Ord.compare a b)
      | _, _ => none

variable {F : Type} (rt : Runtime F)

def Scalar.value : Scalar → Value F
  | .null => .null
  | .bool b => .bool b
  | .int i => .number (.int i)
  | .float d => .number (.float (rt.ofDecimal d))
  | .str s => .string s

def Scalar.double : Scalar → F
  | .int i => rt.ofInt i
  | .float d => rt.ofDecimal d
  | _ => rt.ofInt 0

/-- The doubles of two numbers compare as the numbers do. -/
structure Exact (x y : F) (a b : ℚ) : Prop where
  lt : rt.lt x y = decide (a < b)
  gt : rt.lt y x = decide (b < a)
  le : rt.le x y = decide (a ≤ b)
  ge : rt.le y x = decide (b ≤ a)
  eq : rt.eq x y = decide (a = b)

end Scalars

section Server

def orderings : List BinOp := [.lt, .le, .gt, .ge]

def searches : List BinOp := [.startsWith, .endsWith, .contains]

def orderTest : BinOp → Ordering → Bool
  | .lt, o => o = .lt
  | .le, o => o ≠ .gt
  | .gt, o => o = .gt
  | .ge, o => o ≠ .lt
  | _, _ => false

/-- A comparison or search of two texts. -/
def textTest : BinOp → String → String → Bool
  | .lt, s, t => s < t
  | .le, s, t => s ≤ t
  | .gt, s, t => t < s
  | .ge, s, t => t ≤ s
  | .startsWith, s, t => t.toList.isPrefixOf s.toList
  | .endsWith, s, t => isSuffix t s
  | .contains, s, t => isInfix t s
  | _, _, _ => false

def sqlName : BinOp → String
  | .lt => "<"
  | .le => "<="
  | .gt => ">"
  | .ge => ">="
  | .startsWith => "starts with"
  | .endsWith => "ends with"
  | .contains => "contains"
  | .regex => "~"
  | _ => ""

variable {F : Type} (rt : Runtime F)

def compareDoubles (x y : F) : Ordering :=
  if rt.lt x y then .lt else if rt.eq x y then .eq else .gt

/-- PostgreSQL's order of two values of one type, texts by their code points. -/
def pgCompare : Val → Val → Option Ordering
  | .bool a, .bool b => some (compare a b)
  | .int a, .int b => some (compare a b)
  | .text s, .text t => some (compare s t)
  | .float a, .float b => some (compareDoubles rt (rt.ofDecimal a) (rt.ofDecimal b))
  | .int a, .float b => some (compareDoubles rt (rt.ofInt a) (rt.ofDecimal b))
  | .float a, .int b => some (compareDoubles rt (rt.ofDecimal a) (rt.ofInt b))
  | .json (.bool a), .json (.bool b) => some (compare a b)
  | .json (.num a), .json (.num b) => some (compare (decimalValue a) (decimalValue b))
  | .json (.str s), .json (.str t) => some (compare s t)
  | _, _ => none

/-- The operators and casts of a PostgreSQL whose doubles are the runtime's and
whose collation is the order of code points. -/
structure Server (pg : Postgres) (regex : String → String → Bool) : Prop where
  equal : ∀ {a b o}, pgCompare rt a b = some o → pg.equal a b = decide (o = .eq)
  order : ∀ op ∈ orderings, ∀ {a b o}, pgCompare rt a b = some o →
    pg.fn (sqlName op) [a, b] = .bool (orderTest op o)
  strict : ∀ op ∈ orderings ++ searches ++ [BinOp.regex], ∀ {a b}, a = .null ∨ b = .null →
    pg.fn (sqlName op) [a, b] = .null
  startsWith : ∀ s p, pg.fn "starts with" [.text s, .text p] =
    .bool (like (p.toList ++ ['%']) s.toList)
  endsWith : ∀ s p, pg.fn "ends with" [.text s, .text p] = .bool (like ('%' :: p.toList) s.toList)
  contains : ∀ s p, pg.fn "contains" [.text s, .text p] = .bool (isInfix p s)
  regex : ∀ s p, pg.fn "~" [.text s, .text p] = .bool (regex s p)
  castText : ∀ s, pg.cast "text" (.text s) = .text s
  castBool : ∀ b : Bool, pg.cast "bool" (.text (Json.bool b).text) = .bool b
  ofInt : ∀ i : Int, rt.ofDecimal ⟨i, 0⟩ = rt.ofInt i

end Server

section Predicates

def connectives : List BinOp := [.and, .or, .xor]

def isOperand : Expr → Bool
  | .lit _ | .var _ => true
  | _ => false

def isVar : Expr → Bool
  | .var _ => true
  | _ => false

def isStrLit : Expr → Bool
  | .lit (.str _) => true
  | _ => false

/-- A variable is read as a boolean beside a boolean literal. -/
def readable (e other : Expr) : Bool :=
  !isVar e || match other with
    | .lit (.bool _) => true
    | _ => false

/-- Boolean expressions over literals and variables that PostgreSQL takes for
boolean. -/
def isPredicate : Expr → Bool
  | .lit (.bool _) | .lit .null | .var _ => true
  | .not a => isPredicate a
  | .isNull a _ => isOperand a || isPredicate a
  | .binary op l r =>
      if op ∈ connectives then
        isPredicate l && isPredicate r && readable l r && readable r l
      else op ∈ [.eq, .ne, .regex] ++ orderings ++ searches && isOperand l && isOperand r
  | _ => false

def subpredicates : Expr → List Expr
  | .not a => .not a :: subpredicates a
  | .isNull a w => .isNull a w :: if isOperand a then [] else subpredicates a
  | .binary op l r =>
      .binary op l r :: if op ∈ connectives then subpredicates l ++ subpredicates r else []
  | e => [e]

def rowVars : Expr → List String
  | .var v => [v]
  | .not a | .isNull a _ => rowVars a
  | .binary _ l r => rowVars l ++ rowVars r
  | _ => []

variable (row : String → Json)

/-- The scalar an operand stands for in a row. -/
def operand : Expr → Option Scalar
  | .lit l => some (litScalar l)
  | .var v => scalarOf (row v)
  | _ => none

section Truth

variable (regex : String → String → Bool)

def equalTruth (plain : Bool) (x y : Scalar) : Truth :=
  if x = .null ∨ y = .null then if plain then none else some (x = y)
  else (x.compare y).map fun o => o = .eq

/-- Whether a comparison or search holds of two scalars. -/
def atomTruth (plain : Bool) : BinOp → Scalar → Scalar → Truth
  | .eq, x, y => equalTruth plain x y
  | .ne, x, y => (equalTruth plain x y).not
  | .regex, .str s, .str p => some (regex s p)
  | .startsWith, .str s, .str p => some (textTest .startsWith s p)
  | .endsWith, .str s, .str p => some (textTest .endsWith s p)
  | .contains, .str s, .str p => some (textTest .contains s p)
  | .startsWith, _, _ | .endsWith, _, _ | .contains, _, _ | .regex, _, _ => none
  | op, x, y => (x.compare y).map (orderTest op)

def connect : BinOp → Truth → Truth → Truth
  | .and, a, b => a.and b
  | .or, a, b => a.or b
  | _, a, b => a.xor b

def operandTruth (e : Expr) : Truth :=
  match operand row e with
  | some (.bool b) => some b
  | _ => none

def truth : Expr → Truth
  | .not a => (truth a).not
  | .isNull a want =>
      match operand row a with
      | some x => some (decide (x = .null) == want)
      | none => some (decide (truth a = none) == want)
  | .binary op l r =>
      if op ∈ connectives then connect op (truth l) (truth r)
      else match operand row l, operand row r with
        | some x, some y => atomTruth regex (isConstant l || isConstant r) op x y
        | _, _ => none
  | e => operandTruth row e

end Truth

section Conditions

variable {F : Type} (rt : Runtime F) (pg : Postgres)

/-- PostgreSQL reads the operand at the other one's type, and its literals are
doubles. -/
def Castable (e other : Expr) (x : Scalar) : Prop :=
  match e, other with
  | .var _, .lit (.int _) =>
      ∃ i, x = .int i ∧ pg.cast "int8" (.text (Json.num ⟨i, 0⟩).text) = .int i
  | .var v, .lit (.float _) =>
      ∀ d, row v = .num d → pg.cast "float8" (.text (Json.num d).text) = .float d
  | _, _ => True

def Finite (e : Expr) : Prop := ∀ d, e = .lit (.float d) → rt.finite (rt.ofDecimal d) = true

/-- Two operands of one kind: numbers that doubles tell apart, and texts that
are not both numerals where they are ordered. -/
inductive Comparable (op : BinOp) (l r : Expr) (x y : Scalar) : Prop
  | null (h : x = .null ∨ y = .null)
  | bools (a b : Bool) (hx : x = .bool a) (hy : y = .bool b)
  | strs (s t : String) (hx : x = .str s) (hy : y = .str t)
      (hparse : op ∈ orderings → rt.parse s = none ∨ rt.parse t = none)
  | nums (a b : ℚ) (hx : x.number = some a) (hy : y.number = some b)
      (hexact : Exact rt (x.double rt) (y.double rt) a b)
      (hint : op ∉ orderings → x.isInt = y.isInt ∨ a ≠ b)
      (hl : Castable row pg l r x) (hr : Castable row pg r l y)

/-- A text searched for a text, of which one is a literal. -/
inductive Searchable (op : BinOp) (l r : Expr) (x y : Scalar) : Prop
  | null (h : x = .null ∨ y = .null)
  | strs (s p : String) (hx : x = .str s) (hy : y = .str p)
      (hlit : isStrLit l = true ∨ isStrLit r = true)
      (hverbatim : op = .startsWith ∨ op = .endsWith → Verbatim p.toList)

structure AtomFits (op : BinOp) (l r : Expr) (x y : Scalar) : Prop where
  left : operand row l = some x
  right : operand row r = some y
  finiteLeft : Finite rt l
  finiteRight : Finite rt r
  compared : op ∈ [BinOp.eq, .ne] ++ orderings → Comparable row rt pg op l r x y
  searched : op ∈ searches ++ [BinOp.regex] → Searchable op l r x y

/-- The operands of every comparison and search fit each other. -/
def Fits : Expr → Prop
  | .not a => Fits a
  | .isNull a _ => if isOperand a then (operand row a).isSome ∧ Finite rt a else Fits a
  | .binary op l r =>
      if op ∈ connectives then Fits l ∧ Fits r else ∃ x y, AtomFits row rt pg op l r x y
  | .var v => row v = .null ∨ ∃ b, row v = .bool b
  | _ => True

variable (regex : String → String → Bool)

/-- With a NULL operand `<>` is not against a literal and the other comparisons
and searches fail for the empty text; no regular expression matches. -/
def AtomKnown (plain : Bool) (op : BinOp) (x y : Scalar) : Prop :=
  if x = .null ∨ y = .null then
    (op = .ne → plain = false) ∧
      textTest op (asStr rt (x.value rt)) (asStr rt (y.value rt)) = false
  else op = .regex → (atomTruth regex plain op x y).holds = false

/-- No `NOT` or `IS NULL` of what is unknown, and no `XOR` of that and what is
true. -/
def Known : Expr → Prop
  | .not a => truth row regex a ≠ none ∧ Known a
  | .isNull a _ => isOperand a = true ∨ truth row regex a ≠ none ∧ Known a
  | .binary op l r =>
      if op ∈ connectives then
        (op = .xor → ¬(truth row regex l = none ∧ truth row regex r = some true) ∧
          ¬(truth row regex l = some true ∧ truth row regex r = none)) ∧ Known l ∧ Known r
      else ∀ x y, operand row l = some x → operand row r = some y →
        AtomKnown rt regex (isConstant l || isConstant r) op x y
  | _ => True

end Conditions

end Predicates

section Paths

variable {F : Type} (rt : Runtime F) (params : Value F) (bound : RowEvaluator.Env F)
variable (env : Sql.Env) (c : Catalog) (binds : Binds) (s : Scope)

/-- The column a scalar is read from; JSON null is NULL. -/
def column (j : Json) : Val := if j = .null then .null else .json j

/-- A row of scalars as the two paths have it. -/
def BindsScalars (row : String → Json) (e : Expr) : Prop :=
  ∀ v ∈ rowVars e, (∃ sql, lookupBind binds v = some (.scalar sql) ∧
    sql.eval env [] s = column (row v)) ∧
      ∃ x, scalarOf (row v) = some x ∧ bound v = some (x.value rt)

/-- The value of the predicate the read path compiles. -/
def sqlValue (e : Expr) : Except String Val := do
  let (sql, _) ← expr c binds (some "bool") 0 e
  return sql.eval env [] s

/-- The write path takes the predicate for true exactly when SQL does. -/
def Agrees (e : Expr) : Prop :=
  ∃ v x, eval rt params e bound = .ok v ∧ sqlValue env c binds s e = .ok x ∧
    truthy rt v = accepts x

end Paths

section Orders

variable {α : Type} [LinearOrder α]

theorem orderTest_compare (a b : α) :
    orderTest .lt (compare a b) = decide (a < b) ∧ orderTest .le (compare a b) = decide (a ≤ b) ∧
      orderTest .gt (compare a b) = decide (b < a) ∧
        orderTest .ge (compare a b) = decide (b ≤ a) := by
  rcases lt_trichotomy a b with h | rfl | h
  · have hcompare : compare a b = .lt := compare_lt_iff_lt.mpr h
    simp [orderTest, hcompare, h, h.le, h.not_gt, h.not_ge]
  · simp [orderTest]
  · have hcompare : compare a b = .gt := compare_gt_iff_gt.mpr h
    simp [orderTest, hcompare, h, h.le, h.not_gt, h.not_ge]

theorem compare_intCast (i j : Int) : compare (i : ℚ) (j : ℚ) = compare i j := by
  rcases lt_trichotomy i j with h | rfl | h
  · rw [compare_lt_iff_lt.mpr h, compare_lt_iff_lt]
    exact_mod_cast h
  · rw [compare_eq_iff_eq.mpr rfl, compare_eq_iff_eq.mpr rfl]
  · rw [compare_gt_iff_gt.mpr h, compare_gt_iff_gt]
    exact_mod_cast h

variable {F : Type} {rt : Runtime F}

theorem compareDoubles_exact {x y : F} {a b : ℚ} (h : Exact rt x y a b) :
    compareDoubles rt x y = compare a b := by
  unfold compareDoubles
  rw [h.lt, h.eq]
  rcases lt_trichotomy a b with hab | rfl | hab
  · rw [compare_lt_iff_lt.mpr hab]
    simp [hab]
  · rw [compare_eq_iff_eq.mpr rfl]
    simp
  · rw [compare_gt_iff_gt.mpr hab]
    simp [hab.not_gt, hab.ne']

end Orders

section Scalars

variable {F : Type} {rt : Runtime F}

theorem Scalar.compare_numbers {x y : Scalar} {a b : ℚ} (hx : x.number = some a)
    (hy : y.number = some b) : x.compare y = some (Ord.compare a b) := by
  cases x with
  | int i => cases y <;> simp_all [Scalar.compare, Scalar.number]
  | float d => cases y <;> simp_all [Scalar.compare, Scalar.number]
  | _ => simp [Scalar.number] at hx

/-- A JSON number is the same number and the same double as a scalar. -/
theorem number_scalarOf {pg : Postgres} {regex : String → String → Bool}
    (hserver : Server rt pg regex) {d : Decimal} {x : Scalar} (h : scalarOf (.num d) = some x) :
    x.number = some (decimalValue d) ∧ x.double rt = rt.ofDecimal d := by
  obtain ⟨coeff, scale⟩ := d
  simp only [scalarOf, Option.some.injEq] at h
  split at h
  · next hint =>
    obtain ⟨rfl, -⟩ := hint
    subst h
    refine ⟨?_, (hserver.ofInt coeff).symm⟩
    simp [Scalar.number, decimalValue]
  · subst h
    exact ⟨rfl, rfl⟩

theorem scalarOf_num {j : Json} {x : Scalar} {a : ℚ} (h : scalarOf j = some x)
    (hx : x.number = some a) : ∃ d, j = .num d := by
  cases j with
  | num d => exact ⟨d, rfl⟩
  | null => obtain rfl := Option.some.inj h; simp [Scalar.number] at hx
  | bool b => obtain rfl := Option.some.inj h; simp [Scalar.number] at hx
  | str s => obtain rfl := Option.some.inj h; simp [Scalar.number] at hx
  | _ => simp [scalarOf] at h

theorem scalarOf_eq_null {j : Json} : scalarOf j = some .null ↔ j = .null := by
  cases j with
  | num d => simp only [scalarOf, Option.some.injEq]; split <;> simp
  | _ => simp [scalarOf]

theorem scalarOf_eq_bool {j : Json} {b : Bool} : scalarOf j = some (.bool b) ↔ j = .bool b := by
  cases j with
  | num d => simp only [scalarOf, Option.some.injEq]; split <;> simp
  | _ => simp [scalarOf]

theorem scalarOf_eq_str {j : Json} {s : String} : scalarOf j = some (.str s) ↔ j = .str s := by
  cases j with
  | num d => simp only [scalarOf, Option.some.injEq]; split <;> simp
  | _ => simp [scalarOf]

/-- An integer column holds the numeral of the integer. -/
theorem scalarOf_eq_int {j : Json} {i : Int} (h : scalarOf j = some (.int i)) :
    j = .num ⟨i, 0⟩ := by
  cases j with
  | num d =>
      obtain ⟨coeff, scale⟩ := d
      simp only [scalarOf, Option.some.injEq] at h
      split at h
      · next hint =>
        obtain ⟨rfl, -⟩ := hint
        obtain rfl := Scalar.int.inj h
        rfl
      · simp at h
  | _ => simp [scalarOf] at h

end Scalars

section Operands

variable {F : Type} {rt : Runtime F} {pg : Postgres} {regex : String → String → Bool}
variable {row : String → Json}

def litType : Expr → Option String
  | .lit (.int _) => some "int8"
  | .lit (.float _) => some "float8"
  | .lit (.bool _) => some "bool"
  | .lit (.str _) => some "text"
  | _ => none

/-- The value of a compiled operand, under the type of the other one. -/
def shown (pg : Postgres) (row : String → Json) (hint : Option String) : Expr → Val
  | .lit (.int i) => .int i
  | .lit (.float d) => .float d
  | .lit (.bool b) => .bool b
  | .lit (.str s) =>
      match hint with
      | some t => if t = "text" then .text s else pg.cast t (.text s)
      | none => .text s
  | .var v =>
      match hint with
      | some t => if row v = .null then .null else pg.cast t (scalarText (.json (row v)))
      | none => column (row v)
  | _ => .null

section

-- Generates the equations of these functions once, before the proofs that use them.
attribute [local simp] litType shown isOperand operand litScalar scalarOf isProp truth Fits Known
  isPredicate subpredicates rowVars atomTruth equalTruth connect operandTruth

end

theorem typeOf_operand {c : Catalog} {binds : Binds} {e : Expr} (he : isOperand e = true) :
    typeOf c binds e = litType e := by
  cases e with
  | lit l => cases l <;> rfl
  | var v => rfl
  | _ => simp [isOperand] at he

theorem readAt_of_not_prop {e : Expr} (he : isProp e = false) {own other : Option String}
    {sql : SqlExpr} : readAt e own other sql = sql := by
  unfold readAt
  split
  · rw [if_neg (by simp [he])]
  · rfl

theorem isProp_of_isOperand {e : Expr} (he : isOperand e = true) : isProp e = false := by
  cases e with
  | prop => cases he
  | _ => rfl

theorem isProp_of_isPredicate {e : Expr} (he : isPredicate e = true) : isProp e = false := by
  cases e with
  | prop => cases he
  | _ => rfl

theorem scalarText_ne_null {j : Json} (h : j ≠ .null) : scalarText (.json j) ≠ .null := by
  cases j with
  | null => exact absurd rfl h
  | _ => nofun

theorem expr_operand {bound : RowEvaluator.Env F} {env : Sql.Env} {c : Catalog} {binds : Binds}
    {s : Scope} {e : Expr} (hbinds : BindsScalars rt bound env binds s row e)
    (he : isOperand e = true) {hint : Option String} (hjsonb : hint ≠ some "jsonb") :
    ∃ sql, (∀ n, expr c binds hint n e = .ok (sql, n)) ∧
      sql.eval env [] s = shown env.pg row hint e := by
  cases e with
  | lit l =>
      refine ⟨litSql hint l, fun n => rfl, ?_⟩
      cases l with
      | str t =>
          cases hint with
          | none => rfl
          | some u =>
              simp only [litSql, shown]
              split
              · rfl
              · rfl
      | _ => rfl
  | var v =>
      obtain ⟨⟨sql, hlookup, hsql⟩, -⟩ := hbinds v (List.mem_singleton_self v)
      have hvalue : varValue c binds v = .ok sql := by rw [varValue, hlookup]
      cases hint with
      | none =>
          refine ⟨sql, fun n => ?_, hsql⟩
          rw [expr_var, varSql, hvalue]
          rfl
      | some t =>
          have ht : t ≠ "jsonb" := fun h => hjsonb (h ▸ rfl)
          have hvar : varSql c binds (some t) v =
              .ok (.app (.castScalar t) ["((", ") #>> '\x7b\x7d')::" ++ t] [sql]) := by
            unfold varSql
            rw [hvalue, hlookup]
            exact if_neg ht
          refine ⟨_, fun n => by rw [expr_var, hvar]; rfl, ?_⟩
          simp only [SqlExpr.eval, SqlExpr.evals, SqlOp.apply, hsql, shown, column]
          by_cases hnull : row v = .null
          · simp [hnull, scalarText]
          · rw [if_neg hnull, if_neg hnull, if_neg (scalarText_ne_null hnull)]
  | _ => simp [isOperand] at he

theorem shown_bool (hserver : Server rt pg regex) {e : Expr} {b : Bool}
    (he : operand row e = some (.bool b)) : shown pg row (some "bool") e = .bool b := by
  cases e with
  | lit l => cases l <;> simp_all [operand, litScalar, shown]
  | var v =>
      have hv : row v = .bool b := scalarOf_eq_bool.mp he
      simpa [shown, hv, scalarText] using hserver.castBool b
  | _ => simp [operand] at he

theorem shown_str (hserver : Server rt pg regex) {e : Expr} {s : String}
    (he : operand row e = some (.str s)) : shown pg row (some "text") e = .text s := by
  cases e with
  | lit l => cases l <;> simp_all [operand, litScalar, shown]
  | var v =>
      have hv : row v = .str s := scalarOf_eq_str.mp he
      simpa [shown, hv, scalarText] using hserver.castText s
  | _ => simp [operand] at he

theorem litScalar_eq_bool {l : Lit} {b : Bool} (h : litScalar l = .bool b) : l = .bool b := by
  cases l with
  | bool a => exact congrArg Lit.bool (Scalar.bool.inj h)
  | _ => cases h

theorem litScalar_eq_str {l : Lit} {s : String} (h : litScalar l = .str s) : l = .str s := by
  cases l with
  | str t => exact congrArg Lit.str (Scalar.str.inj h)
  | _ => cases h

/-- Booleans are compared as booleans, or as JSON when both are variables. -/
theorem compare_bools (hserver : Server rt pg regex) {l r : Expr} {a b : Bool}
    (hl : operand row l = some (.bool a)) (hr : operand row r = some (.bool b)) :
    pgCompare rt (shown pg row (litType r) l) (shown pg row (litType l) r) =
      some (compare a b) := by
  cases l with
  | lit l =>
      obtain rfl := litScalar_eq_bool (Option.some.inj hl)
      change pgCompare rt (.bool a) (shown pg row (some "bool") r) = _
      rw [shown_bool hserver hr]
      rfl
  | var v =>
      cases r with
      | lit m =>
          obtain rfl := litScalar_eq_bool (Option.some.inj hr)
          change pgCompare rt (shown pg row (some "bool") (.var v)) (.bool b) = _
          rw [shown_bool hserver hl]
          rfl
      | var w =>
          have hv : row v = .bool a := scalarOf_eq_bool.mp hl
          have hw : row w = .bool b := scalarOf_eq_bool.mp hr
          simp [shown, litType, column, pgCompare, hv, hw]
      | _ => simp [operand] at hr
  | _ => simp [operand] at hl

/-- Texts are compared as texts, or as JSON when both are variables. -/
theorem compare_strs (hserver : Server rt pg regex) {l r : Expr} {s t : String}
    (hl : operand row l = some (.str s)) (hr : operand row r = some (.str t)) :
    pgCompare rt (shown pg row (litType r) l) (shown pg row (litType l) r) =
      some (compare s t) := by
  cases l with
  | lit l =>
      obtain rfl := litScalar_eq_str (Option.some.inj hl)
      have hright : shown pg row (some "text") r = .text t := shown_str hserver hr
      have hleft : shown pg row (litType r) (.lit (.str s)) = .text s := by
        cases r with
        | lit m => rw [litScalar_eq_str (Option.some.inj hr)]; rfl
        | _ => rfl
      rw [hleft]
      change pgCompare rt (.text s) (shown pg row (some "text") r) = _
      rw [hright]
      rfl
  | var v =>
      cases r with
      | lit m =>
          obtain rfl := litScalar_eq_str (Option.some.inj hr)
          change pgCompare rt (shown pg row (some "text") (.var v)) (.text t) = _
          rw [shown_str hserver hl]
          rfl
      | var w =>
          have hv : row v = .str s := scalarOf_eq_str.mp hl
          have hw : row w = .str t := scalarOf_eq_str.mp hr
          simp [shown, litType, column, pgCompare, hv, hw]
      | _ => simp [operand] at hr
  | _ => simp [operand] at hl

/-- A variable beside an integer literal is the integer it holds. -/
theorem shown_int {v : String} {i : Int} (hv : scalarOf (row v) = some (.int i))
    (hcast : pg.cast "int8" (.text (Json.num ⟨i, 0⟩).text) = .int i) :
    shown pg row (some "int8") (.var v) = .int i := by
  simpa [shown, scalarOf_eq_int hv, scalarText] using hcast

/-- A variable beside a double is the double of the numeral it holds. -/
theorem shown_float {v : String} {d : Decimal} (hv : row v = .num d)
    (hcast : pg.cast "float8" (.text (Json.num d).text) = .float d) :
    shown pg row (some "float8") (.var v) = .float d := by
  simpa [shown, hv, scalarText] using hcast

/-- An SQL number with the double of a scalar. -/
inductive NumberOf (rt : Runtime F) : Val → Scalar → Prop
  | int (i : Int) : NumberOf rt (.int i) (.int i)
  | float {d : Decimal} {x : Scalar} (h : x.double rt = rt.ofDecimal d) : NumberOf rt (.float d) x

theorem compare_numbers {v w : Val} {x y : Scalar} {a b : ℚ} (hv : NumberOf rt v x)
    (hw : NumberOf rt w y) (hx : x.number = some a) (hy : y.number = some b)
    (hexact : Exact rt (x.double rt) (y.double rt) a b) :
    pgCompare rt v w = some (compare a b) := by
  have hdoubles := compareDoubles_exact hexact
  cases hv with
  | int i =>
      cases hw with
      | int j =>
          obtain rfl := Option.some.inj hx
          obtain rfl := Option.some.inj hy
          rw [compare_intCast]
          rfl
      | float hj =>
          rw [hj] at hdoubles
          exact congrArg some hdoubles
  | float hi =>
      cases hw with
      | int j =>
          rw [hi] at hdoubles
          exact congrArg some hdoubles
      | float hj =>
          rw [hi, hj] at hdoubles
          exact congrArg some hdoubles

theorem numberOf_lit {l : Lit} {a : ℚ} (h : (litScalar l).number = some a)
    {hint : Option String} : NumberOf rt (shown pg row hint (.lit l)) (litScalar l) := by
  cases l with
  | int i => exact .int i
  | float d => exact .float rfl
  | _ => simp [litScalar, Scalar.number] at h

theorem numberOf_var (hserver : Server rt pg regex) {v : String} {x : Scalar} {a b : ℚ}
    {m : Lit} (hv : operand row (.var v) = some x) (hx : x.number = some a)
    (hm : (litScalar m).number = some b) (hcast : Castable row pg (.var v) (.lit m) x) :
    NumberOf rt (shown pg row (litType (.lit m)) (.var v)) x := by
  cases m with
  | int j =>
      obtain ⟨i, rfl, hi⟩ := hcast
      rw [litType, shown_int hv hi]
      exact .int i
  | float e =>
      obtain ⟨d, hd⟩ := scalarOf_num hv hx
      rw [litType, shown_float hd (hcast d hd)]
      rw [operand, hd] at hv
      exact .float (number_scalarOf hserver hv).2
  | _ => simp [litScalar, Scalar.number] at hm

/-- Numbers are compared at the type of a literal, or as JSON. -/
theorem compare_nums (hserver : Server rt pg regex) {l r : Expr} {x y : Scalar} {a b : ℚ}
    (hl : operand row l = some x) (hr : operand row r = some y) (hx : x.number = some a)
    (hy : y.number = some b) (hexact : Exact rt (x.double rt) (y.double rt) a b)
    (hcastl : Castable row pg l r x) (hcastr : Castable row pg r l y) :
    pgCompare rt (shown pg row (litType r) l) (shown pg row (litType l) r) =
      some (compare a b) := by
  cases l with
  | lit l =>
      obtain rfl := Option.some.inj hl
      cases r with
      | lit m =>
          obtain rfl := Option.some.inj hr
          exact compare_numbers (numberOf_lit hx) (numberOf_lit hy) hx hy hexact
      | var w =>
          exact compare_numbers (numberOf_lit hx) (numberOf_var hserver hr hy hx hcastr) hx hy
            hexact
      | _ => simp [operand] at hr
  | var v =>
      cases r with
      | lit m =>
          obtain rfl := Option.some.inj hr
          exact compare_numbers (numberOf_var hserver hl hx hy hcastl) (numberOf_lit hy) hx hy
            hexact
      | var w =>
          obtain ⟨d, hd⟩ := scalarOf_num hl hx
          obtain ⟨e, he⟩ := scalarOf_num hr hy
          rw [operand, hd] at hl
          rw [operand, he] at hr
          obtain rfl := Option.some.inj (hx.symm.trans (number_scalarOf hserver hl).1)
          obtain rfl := Option.some.inj (hy.symm.trans (number_scalarOf hserver hr).1)
          simp [shown, litType, column, pgCompare, hd, he]
      | _ => simp [operand] at hr
  | _ => simp [operand] at hl

/-- Operands of one kind compare in PostgreSQL as their scalars do. -/
theorem compare_operands (hserver : Server rt pg regex) {op : BinOp} {l r : Expr} {x y : Scalar}
    (hl : operand row l = some x) (hr : operand row r = some y) (hx : x ≠ .null) (hy : y ≠ .null)
    (h : Comparable row rt pg op l r x y) :
    ∃ o, x.compare y = some o ∧
      pgCompare rt (shown pg row (litType r) l) (shown pg row (litType l) r) = some o := by
  cases h with
  | null h => exact (h.elim hx hy).elim
  | bools a b ha hb =>
      subst ha hb
      exact ⟨_, rfl, compare_bools hserver hl hr⟩
  | strs s t hs ht =>
      subst hs ht
      exact ⟨_, rfl, compare_strs hserver hl hr⟩
  | nums a b ha hb hexact _ hcastl hcastr =>
      exact ⟨_, Scalar.compare_numbers ha hb,
        compare_nums hserver hl hr ha hb hexact hcastl hcastr⟩

theorem shown_null {e : Expr} (he : operand row e = some .null) {hint : Option String} :
    shown pg row hint e = .null := by
  cases e with
  | lit l => cases l <;> simp_all [operand, litScalar, shown]
  | var v =>
      have hv : row v = .null := scalarOf_eq_null.mp he
      cases hint <;> simp [shown, column, hv]
  | _ => simp [operand] at he

/-- Without a hint an operand is NULL where its scalar is. -/
theorem shown_eq_null {e : Expr} {x : Scalar} (he : operand row e = some x) :
    shown pg row none e = .null ↔ x = .null := by
  cases e with
  | lit l =>
      obtain rfl := Option.some.inj he
      cases l <;> simp [shown, litScalar]
  | var v =>
      change column (row v) = .null ↔ _
      constructor
      · intro h
        have hv : row v = .null := by
          by_contra hv
          simp [column, hv] at h
        rw [operand, hv] at he
        exact (Option.some.inj he).symm
      · rintro rfl
        exact @shown_null pg row _ he none
  | _ => simp [operand] at he

theorem litType_of_not_constant {e : Expr} (he : isOperand e = true)
    (hplain : isConstant e = false) : litType e = none := by
  cases e with
  | lit l => cases l <;> simp_all [isConstant, litType]
  | var v => rfl
  | _ => simp [isOperand] at he

/-- A text literal has both operands of a search read as texts. -/
theorem shown_texts (hserver : Server rt pg regex) {l r : Expr} {s p : String}
    (hl : operand row l = some (.str s)) (hr : operand row r = some (.str p))
    (hlit : isStrLit l = true ∨ isStrLit r = true) :
    shown pg row (litType r) l = .text s ∧ shown pg row (litType l) r = .text p := by
  have htype {e : Expr} {t : String} (he : operand row e = some (.str t)) :
      litType e = some "text" ∨ litType e = none := by
    cases e with
    | lit l => rw [litScalar_eq_str (Option.some.inj he)]; exact .inl rfl
    | _ => exact .inr rfl
  have hshown {e : Expr} {t : String} {hint : Option String} (he : operand row e = some (.str t))
      (hlit : isStrLit e = true) (hhint : hint = some "text" ∨ hint = none) :
      shown pg row hint e = .text t := by
    cases e with
    | lit l =>
        rw [litScalar_eq_str (Option.some.inj he)]
        rcases hhint with rfl | rfl <;> rfl
    | _ => simp [isStrLit] at hlit
  have hstr {e : Expr} {t : String} (he : operand row e = some (.str t))
      (hlit : isStrLit e = true) : litType e = some "text" := by
    cases e with
    | lit l => rw [litScalar_eq_str (Option.some.inj he)]; rfl
    | _ => simp [isStrLit] at hlit
  rcases hlit with hlit | hlit
  · rw [hstr hl hlit]
    exact ⟨hshown hl hlit (htype hr), shown_str hserver hr⟩
  · rw [hstr hr hlit]
    exact ⟨shown_str hserver hl, hshown hr hlit (htype hl)⟩

end Operands

section Atoms

variable {F : Type} {rt : Runtime F} {pg : Postgres} {regex : String → String → Bool}
variable {row : String → Json}

def truthVal : Truth → Val
  | some b => .bool b
  | none => .null

/-- What PostgreSQL makes of a comparison or a search. -/
def sqlAtom (pg : Postgres) (plain : Bool) (op : BinOp) (a b : Val) : Val :=
  match op with
  | .eq => if plain then strict pg.equal a b else .bool (sameValue pg a b)
  | .ne =>
      if plain then strict (fun x y => !pg.equal x y) a b else .bool !sameValue pg a b
  | op => pg.fn (sqlName op) [a, b]

theorem eval_binarySql {op : BinOp} (hop : op ∈ [BinOp.eq, .ne, .regex] ++ orderings ++ searches)
    {plain : Bool} {env : Sql.Env} {g : List Scope} {s : Scope} {l r : SqlExpr} :
    (binarySql op plain l r).eval env g s =
      sqlAtom env.pg plain op (l.eval env g s) (r.eval env g s) := by
  simp only [orderings, searches, List.cons_append, List.nil_append, List.mem_cons,
    List.not_mem_nil, or_false] at hop
  rcases hop with rfl | rfl | rfl | rfl | rfl | rfl | rfl | rfl | rfl | rfl <;>
    cases plain <;> rfl

theorem pgCompare_ne_null {a b : Val} {o : Ordering} (h : pgCompare rt a b = some o) :
    a ≠ .null ∧ b ≠ .null := by
  constructor
  · rintro rfl
    simp [pgCompare] at h
  · rintro rfl
    cases a <;> simp [pgCompare] at h

theorem Scalar.compare_null {x y : Scalar} (h : x = .null ∨ y = .null) : x.compare y = none := by
  rcases h with rfl | rfl
  · rfl
  · cases x <;> rfl

/-- `=` under its two readings of NULL. -/
theorem sqlEqual_eq (hserver : Server rt pg regex) {op : BinOp} {l r : Expr} {x y : Scalar}
    (hl : isOperand l = true) (hr : isOperand r = true) (hx : operand row l = some x)
    (hy : operand row r = some y) (h : Comparable row rt pg op l r x y) :
    let a := shown pg row (litType r) l
    let b := shown pg row (litType l) r
    (if isConstant l || isConstant r then strict pg.equal a b else .bool (sameValue pg a b)) =
      truthVal (equalTruth (isConstant l || isConstant r) x y) := by
  intro a b
  unfold equalTruth
  by_cases hnull : x = .null ∨ y = .null
  · rw [if_pos hnull]
    by_cases hplain : (isConstant l || isConstant r) = true
    · have hab : a = .null ∨ b = .null := by
        rcases hnull with rfl | rfl
        · exact .inl (shown_null hx)
        · exact .inr (shown_null hy)
      rw [if_pos hplain, if_pos hplain, strict, if_pos hab]
      rfl
    · obtain ⟨hpl, hpr⟩ := Bool.or_eq_false_iff.mp (Bool.eq_false_iff.mpr hplain)
      have ha : a = .null ↔ x = .null := by
        change shown pg row (litType r) l = .null ↔ _
        rw [litType_of_not_constant hr hpr]
        exact shown_eq_null hx
      have hb : b = .null ↔ y = .null := by
        change shown pg row (litType l) r = .null ↔ _
        rw [litType_of_not_constant hl hpl]
        exact shown_eq_null hy
      rw [if_neg hplain, if_neg hplain, sameValue, if_pos (by rwa [ha, hb])]
      simp only [ha, hb, truthVal]
      rcases hnull with rfl | rfl
      · simp [eq_comm]
      · simp
  · obtain ⟨hxn, hyn⟩ := not_or.mp hnull
    obtain ⟨o, ho, hpg⟩ := compare_operands hserver hx hy hxn hyn h
    obtain ⟨han, hbn⟩ := pgCompare_ne_null hpg
    have hab : ¬(a = .null ∨ b = .null) := not_or.mpr ⟨han, hbn⟩
    have hequal : pg.equal a b = decide (o = .eq) := hserver.equal hpg
    rw [if_neg hnull, ho, strict, if_neg hab, sameValue, if_neg hab, ite_self]
    simp [truthVal, hequal]

theorem not3_truthVal {t : Truth} : not3 (truthVal t) = truthVal t.not := by
  cases t <;> rfl

theorem sqlAtom_ne {plain : Bool} {a b : Val} :
    sqlAtom pg plain .ne a b = not3 (sqlAtom pg plain .eq a b) := by
  cases plain with
  | false => rfl
  | true =>
      simp only [sqlAtom, strict, if_true]
      split <;> rfl

theorem atomTruth_of_ordering {op : BinOp} (hop : op ∈ orderings) {plain : Bool}
    {x y : Scalar} : atomTruth regex plain op x y = (x.compare y).map (orderTest op) := by
  simp only [orderings, List.mem_cons, List.not_mem_nil, or_false] at hop
  rcases hop with rfl | rfl | rfl | rfl <;> rfl

theorem atomTruth_null {op : BinOp} (hop : op ∈ searches ++ [BinOp.regex]) {plain : Bool}
    {x y : Scalar} (h : x = .null ∨ y = .null) : atomTruth regex plain op x y = none := by
  simp only [searches, List.cons_append, List.nil_append, List.mem_cons, List.not_mem_nil,
    or_false] at hop
  rcases h with rfl | rfl
  · rcases hop with rfl | rfl | rfl | rfl <;> rfl
  · rcases hop with rfl | rfl | rfl | rfl <;> cases x <;> rfl

theorem sqlOrder_eq (hserver : Server rt pg regex) {op : BinOp} (hop : op ∈ orderings)
    {plain : Bool} {l r : Expr} {x y : Scalar} (hx : operand row l = some x)
    (hy : operand row r = some y) (h : Comparable row rt pg op l r x y) :
    pg.fn (sqlName op) [shown pg row (litType r) l, shown pg row (litType l) r] =
      truthVal (atomTruth regex plain op x y) := by
  rw [atomTruth_of_ordering hop]
  by_cases hnull : x = .null ∨ y = .null
  · have hop' : op ∈ orderings ++ searches ++ [BinOp.regex] := by simp [hop]
    have hab : shown pg row (litType r) l = .null ∨ shown pg row (litType l) r = .null := by
      rcases hnull with rfl | rfl
      · exact .inl (shown_null hx)
      · exact .inr (shown_null hy)
    rw [hserver.strict op hop' hab, Scalar.compare_null hnull]
    rfl
  · obtain ⟨hxn, hyn⟩ := not_or.mp hnull
    obtain ⟨o, ho, hpg⟩ := compare_operands hserver hx hy hxn hyn h
    rw [hserver.order op hop hpg, ho]
    rfl

/-- A search finds a verbatim text where it stands. -/
theorem sqlSearch_eq (hserver : Server rt pg regex) {op : BinOp} (hop : op ∈ searches ++ [BinOp.regex])
    {plain : Bool} {l r : Expr} {x y : Scalar} (hx : operand row l = some x)
    (hy : operand row r = some y) (h : Searchable op l r x y) :
    pg.fn (sqlName op) [shown pg row (litType r) l, shown pg row (litType l) r] =
      truthVal (atomTruth regex plain op x y) := by
  cases h with
  | null hnull =>
      have hop' : op ∈ orderings ++ searches ++ [BinOp.regex] := by
        rw [List.append_assoc]
        exact List.mem_append_right _ hop
      have hab : shown pg row (litType r) l = .null ∨ shown pg row (litType l) r = .null := by
        rcases hnull with rfl | rfl
        · exact .inl (shown_null hx)
        · exact .inr (shown_null hy)
      rw [hserver.strict op hop' hab, atomTruth_null hop hnull]
      rfl
  | strs s p hs hp hlit hverbatim =>
      subst hs hp
      obtain ⟨hl, hr⟩ := shown_texts hserver hx hy hlit
      rw [hl, hr]
      simp only [searches, List.cons_append, List.nil_append, List.mem_cons, List.not_mem_nil,
        or_false] at hop
      rcases hop with rfl | rfl | rfl | rfl
      · exact (hserver.startsWith s p).trans
          (congrArg Val.bool (like_append_any (hverbatim (.inl rfl))))
      · exact (hserver.endsWith s p).trans
          (congrArg Val.bool (like_any_append (hverbatim (.inr rfl))))
      · exact hserver.contains s p
      · exact hserver.regex s p

/-- The SQL of an atom has the truth value of the atom. -/
theorem sqlAtom_eq (hserver : Server rt pg regex) {op : BinOp}
    (hop : op ∈ [BinOp.eq, .ne, .regex] ++ orderings ++ searches) {l r : Expr} {x y : Scalar}
    (hl : isOperand l = true) (hr : isOperand r = true) (h : AtomFits row rt pg op l r x y) :
    sqlAtom pg (isConstant l || isConstant r) op (shown pg row (litType r) l)
        (shown pg row (litType l) r) =
      truthVal (atomTruth regex (isConstant l || isConstant r) op x y) := by
  by_cases hordering : op ∈ orderings
  · have hname : sqlAtom pg (isConstant l || isConstant r) op (shown pg row (litType r) l)
        (shown pg row (litType l) r) =
          pg.fn (sqlName op) [shown pg row (litType r) l, shown pg row (litType l) r] := by
      simp only [orderings, List.mem_cons, List.not_mem_nil, or_false] at hordering
      rcases hordering with rfl | rfl | rfl | rfl <;> rfl
    rw [hname]
    exact sqlOrder_eq hserver hordering h.left h.right
      (h.compared (List.mem_append_right _ hordering))
  by_cases hsearch : op ∈ searches ++ [BinOp.regex]
  · have hname : sqlAtom pg (isConstant l || isConstant r) op (shown pg row (litType r) l)
        (shown pg row (litType l) r) =
          pg.fn (sqlName op) [shown pg row (litType r) l, shown pg row (litType l) r] := by
      simp only [searches, List.cons_append, List.nil_append, List.mem_cons, List.not_mem_nil,
        or_false] at hsearch
      rcases hsearch with rfl | rfl | rfl | rfl <;> rfl
    rw [hname]
    exact sqlSearch_eq hserver hsearch h.left h.right (h.searched hsearch)
  have hequal : op = .eq ∨ op = .ne := by
    simp only [List.mem_append, List.mem_cons, List.not_mem_nil, or_false] at hop hsearch
    tauto
  have hcompared : Comparable row rt pg op l r x y := by
    apply h.compared
    rcases hequal with rfl | rfl <;> simp
  have heq := sqlEqual_eq hserver hl hr h.left h.right hcompared
  rcases hequal with rfl | rfl
  · exact heq
  · rw [sqlAtom_ne]
    exact (congrArg not3 heq).trans not3_truthVal

end Atoms

section RowAtoms

variable {F : Type} {rt : Runtime F} {pg : Postgres} {regex : String → String → Bool}
variable {row : String → Json}

theorem num_value {x : Scalar} {a : ℚ} (hx : x.number = some a) :
    num rt (x.value rt) = some (x.double rt) := by
  cases x with
  | int i => rfl
  | float d => rfl
  | _ => simp [Scalar.number] at hx

/-- An ordering of what are not two numerals is one of texts. -/
theorem binary_texts {op : BinOp} (hop : op ∈ orderings) {a b : Value F}
    (h : num rt a = none ∨ num rt b = none) :
    binary rt op a b = .bool (textTest op (asStr rt a) (asStr rt b)) := by
  have horder (onFloats : F → F → Bool) (onTexts : String → String → Bool) :
      order rt onFloats onTexts a b = .bool (onTexts (asStr rt a) (asStr rt b)) := by
    unfold order
    split
    · next hx hy => rcases h with h | h <;> simp_all
    · rfl
  simp only [orderings, List.mem_cons, List.not_mem_nil, or_false] at hop
  rcases hop with rfl | rfl | rfl | rfl
  · exact horder rt.lt fun s t => s < t
  · exact horder rt.le fun s t => s ≤ t
  · exact horder (fun x y => rt.lt y x) fun s t => t < s
  · exact horder (fun x y => rt.le y x) fun s t => t ≤ s

theorem textTest_compare {op : BinOp} (hop : op ∈ orderings) {s t : String} :
    textTest op s t = orderTest op (compare s t) := by
  obtain ⟨hlt, hle, hgt, hge⟩ := orderTest_compare s t
  simp only [orderings, List.mem_cons, List.not_mem_nil, or_false] at hop
  rcases hop with rfl | rfl | rfl | rfl
  · exact hlt.symm
  · exact hle.symm
  · exact hgt.symm
  · exact hge.symm

theorem textTest_bools {op : BinOp} (hop : op ∈ orderings) {a b : Bool} :
    textTest op (toString a) (toString b) = orderTest op (compare a b) := by
  simp only [orderings, List.mem_cons, List.not_mem_nil, or_false] at hop
  rcases hop with rfl | rfl | rfl | rfl <;> cases a <;> cases b <;> decide

theorem binary_numbers {op : BinOp} (hop : op ∈ orderings) {x y : Scalar} {a b : ℚ}
    (hx : x.number = some a) (hy : y.number = some b)
    (hexact : Exact rt (x.double rt) (y.double rt) a b) :
    binary rt op (x.value rt) (y.value rt) = .bool (orderTest op (compare a b)) := by
  have horder (onFloats : F → F → Bool) (onTexts : String → String → Bool) :
      order rt onFloats onTexts (x.value rt) (y.value rt) =
        .bool (onFloats (x.double rt) (y.double rt)) := by
    rw [order, num_value hx, num_value hy]
  obtain ⟨hlt, hle, hgt, hge⟩ := orderTest_compare a b
  simp only [orderings, List.mem_cons, List.not_mem_nil, or_false] at hop
  rcases hop with rfl | rfl | rfl | rfl
  · rw [hlt, ← hexact.lt]
    exact horder rt.lt fun s t => s < t
  · rw [hle, ← hexact.le]
    exact horder rt.le fun s t => s ≤ t
  · rw [hgt, ← hexact.gt]
    exact horder (fun x y => rt.lt y x) fun s t => t < s
  · rw [hge, ← hexact.ge]
    exact horder (fun x y => rt.le y x) fun s t => t ≤ s

/-- Operands of one kind are ordered in a row as their scalars are. -/
theorem rowOrder_eq {op : BinOp} (hop : op ∈ orderings) {l r : Expr} {x y : Scalar}
    (hx : x ≠ .null) (hy : y ≠ .null) (h : Comparable row rt pg op l r x y) :
    ∃ o, x.compare y = some o ∧
      binary rt op (x.value rt) (y.value rt) = .bool (orderTest op o) := by
  cases h with
  | null h => exact (h.elim hx hy).elim
  | bools a b ha hb =>
      subst ha hb
      refine ⟨_, rfl, ?_⟩
      rw [binary_texts hop (.inl rfl)]
      exact congrArg Value.bool (textTest_bools hop)
  | strs s t hs ht hparse =>
      subst hs ht
      refine ⟨_, rfl, ?_⟩
      have hnum : num rt ((Scalar.str s).value rt) = none ∨ num rt ((Scalar.str t).value rt) = none :=
        hparse hop
      rw [binary_texts hop hnum]
      exact congrArg Value.bool (textTest_compare hop)
  | nums a b ha hb hexact =>
      exact ⟨_, Scalar.compare_numbers ha hb, binary_numbers hop ha hb hexact⟩

/-- Operands of one kind are the same in a row when their scalars are. -/
theorem same_eq {op : BinOp} (hop : op ∉ orderings) {l r : Expr} {x y : Scalar}
    (hx : x ≠ .null) (hy : y ≠ .null) (h : Comparable row rt pg op l r x y) :
    ∃ o, x.compare y = some o ∧ (x.value rt).same rt (y.value rt) = decide (o = .eq) := by
  cases h with
  | null h => exact (h.elim hx hy).elim
  | bools a b ha hb =>
      subst ha hb
      refine ⟨_, rfl, ?_⟩
      simp [Scalar.value, Value.same]
  | strs s t hs ht _ =>
      subst hs ht
      refine ⟨_, rfl, ?_⟩
      simp [Scalar.value, Value.same]
  | nums a b ha hb hexact hint =>
      refine ⟨_, Scalar.compare_numbers ha hb, ?_⟩
      have hint := hint hop
      cases x with
      | int i =>
          obtain rfl := Option.some.inj ha
          cases y with
          | int j =>
              obtain rfl := Option.some.inj hb
              simp [Scalar.value, Value.same]
          | float e => simpa [Scalar.value, Value.same, Scalar.isInt] using hint
          | _ => simp [Scalar.number] at hb
      | float d =>
          cases y with
          | int j => simpa [Scalar.value, Value.same, Scalar.isInt] using hint
          | float e => simpa [Scalar.value, Value.same, Scalar.double] using hexact.eq
          | _ => simp [Scalar.number] at hb
      | _ => simp [Scalar.number] at ha

theorem binary_search {op : BinOp} (hop : op ∈ searches ++ [BinOp.regex]) {a b : Value F} :
    binary rt op a b = .bool (textTest op (asStr rt a) (asStr rt b)) := by
  simp only [searches, List.cons_append, List.nil_append, List.mem_cons, List.not_mem_nil,
    or_false] at hop
  rcases hop with rfl | rfl | rfl | rfl <;> rfl

/-- A NULL operand is the empty text to an ordering or a search. -/
theorem atom_null_iff {op : BinOp} (hop : op ∈ [BinOp.eq, .ne, .regex] ++ orderings ++ searches)
    {plain : Bool} {x y : Scalar} (hplain : plain = true → ¬(x = .null ∧ y = .null))
    (hnull : x = .null ∨ y = .null) :
    truthy rt (binary rt op (x.value rt) (y.value rt)) = (atomTruth regex plain op x y).holds ↔
      (op = .ne → plain = false) ∧
        textTest op (asStr rt (x.value rt)) (asStr rt (y.value rt)) = false := by
  have hnum : num rt (x.value rt) = none ∨ num rt (y.value rt) = none := by
    rcases hnull with rfl | rfl
    · exact .inl rfl
    · exact .inr rfl
  have hsame : (x.value rt).same rt (y.value rt) = decide (x = y) := by
    rcases hnull with rfl | rfl
    · cases y <;> simp [Scalar.value, Value.same]
    · cases x <;> simp [Scalar.value, Value.same]
  by_cases hordering : op ∈ orderings
  · have hne : op ≠ .ne := by rintro rfl; simp [orderings] at hordering
    rw [binary_texts hordering hnum, atomTruth_of_ordering hordering, Scalar.compare_null hnull]
    simp [truthy, Truth.holds, hne]
  by_cases hsearch : op ∈ searches ++ [BinOp.regex]
  · have hne : op ≠ .ne := by rintro rfl; simp [searches] at hsearch
    rw [binary_search hsearch, atomTruth_null hsearch hnull]
    simp [truthy, Truth.holds, hne]
  have hequal : op = .eq ∨ op = .ne := by
    simp only [List.mem_append, List.mem_cons, List.not_mem_nil, or_false] at hop hsearch
    tauto
  have hxy : plain = true → x ≠ y := by
    rintro hp rfl
    exact hplain hp ⟨hnull.elim id id, hnull.elim id id⟩
  rcases hequal with rfl | rfl
  · cases plain with
    | false => simp [binary, truthy, hsame, atomTruth, equalTruth, hnull, Truth.holds, textTest]
    | true =>
        simp [binary, truthy, hsame, atomTruth, equalTruth, hnull, Truth.holds, textTest,
          hxy rfl]
  · cases plain with
    | false =>
        simp [binary, truthy, hsame, atomTruth, equalTruth, hnull, Truth.holds, Truth.not,
          textTest]
    | true =>
        simp [binary, truthy, hsame, atomTruth, equalTruth, hnull, Truth.holds, Truth.not,
          textTest, hxy rfl]

theorem atom_iff {op : BinOp} (hop : op ∈ [BinOp.eq, .ne, .regex] ++ orderings ++ searches)
    {plain : Bool} {l r : Expr} {x y : Scalar} (hplain : plain = true → ¬(x = .null ∧ y = .null))
    (h : AtomFits row rt pg op l r x y) :
    truthy rt (binary rt op (x.value rt) (y.value rt)) = (atomTruth regex plain op x y).holds ↔
      AtomKnown rt regex plain op x y := by
  unfold AtomKnown
  by_cases hnull : x = .null ∨ y = .null
  · rw [if_pos hnull]
    exact atom_null_iff hop hplain hnull
  rw [if_neg hnull]
  obtain ⟨hx, hy⟩ := not_or.mp hnull
  by_cases hordering : op ∈ orderings
  · have hne : op ≠ .regex := by rintro rfl; simp [orderings] at hordering
    have hcompared := h.compared (List.mem_append_right _ hordering)
    obtain ⟨o, ho, hbinary⟩ := rowOrder_eq hordering hx hy hcompared
    rw [hbinary, atomTruth_of_ordering hordering, ho]
    simp [truthy, Truth.holds, hne]
  by_cases hsearch : op ∈ searches ++ [BinOp.regex]
  · cases h.searched hsearch with
    | null h => exact absurd h hnull
    | strs s p hs hp =>
        subst hs hp
        rw [binary_search hsearch]
        simp only [searches, List.cons_append, List.nil_append, List.mem_cons, List.not_mem_nil,
          or_false] at hsearch
        rcases hsearch with rfl | rfl | rfl | rfl
        · simp [truthy, Truth.holds, atomTruth, Scalar.value, asStr]
        · simp [truthy, Truth.holds, atomTruth, Scalar.value, asStr]
        · simp [truthy, Truth.holds, atomTruth, Scalar.value, asStr]
        · exact ⟨fun h _ => h.symm, fun h => (h rfl).symm⟩
  have hequal : op = .eq ∨ op = .ne := by
    simp only [List.mem_append, List.mem_cons, List.not_mem_nil, or_false] at hop hsearch
    tauto
  have hcompared : Comparable row rt pg op l r x y := by
    apply h.compared
    rcases hequal with rfl | rfl <;> simp
  obtain ⟨o, ho, hsame⟩ := same_eq hordering hx hy hcompared
  rcases hequal with rfl | rfl
  · simp [binary, truthy, hsame, atomTruth, equalTruth, hx, hy, ho, Truth.holds]
  · simp [binary, truthy, hsame, atomTruth, equalTruth, hx, hy, ho, Truth.holds, Truth.not]

end RowAtoms

section ReadPath

variable {F : Type} {rt : Runtime F} {bound : RowEvaluator.Env F} {env : Sql.Env} {c : Catalog}
variable {binds : Binds} {s : Scope} {row : String → Json} {regex : String → String → Bool}

/-- The read path compiles an expression to SQL of a truth value. -/
def CompilesTo (c : Catalog) (binds : Binds) (env : Sql.Env) (s : Scope) (hint : Option String)
    (e : Expr) (t : Truth) : Prop :=
  ∃ sql, (∀ n, expr c binds hint n e = .ok (sql, n)) ∧ sql.eval env [] s = truthVal t

/-- Only a variable is read at the type it is compared with. -/
theorem CompilesTo.hint {e : Expr} {t : Truth} (h : CompilesTo c binds env s (some "bool") e t)
    (he : isPredicate e = true) {hint : Option String}
    (hhint : isVar e = true → hint = some "bool") : CompilesTo c binds env s hint e t := by
  obtain ⟨sql, hsql, heval⟩ := h
  refine ⟨sql, fun n => ?_, heval⟩
  rw [← hsql n]
  cases e with
  | var v => rw [hhint rfl]
  | lit l =>
      cases l with
      | bool b => rfl
      | null => rfl
      | _ => cases he
  | not a => rw [expr, expr]
  | isNull a w => rw [expr, expr]
  | binary op l r =>
      have hin : op ≠ .in_ := by rintro rfl; simp [isPredicate, connectives, orderings, searches] at he
      rw [expr_binary hin, expr_binary hin]
  | _ => cases he

theorem BindsScalars.mono {e e' : Expr} (h : BindsScalars rt bound env binds s row e)
    (hvars : ∀ v ∈ rowVars e', v ∈ rowVars e) : BindsScalars rt bound env binds s row e' :=
  fun v hv => h v (hvars v hv)

theorem hint_of_readable {e other : Expr} (h : readable e other = true) (he : isVar e = true) :
    typeOf c binds other = some "bool" := by
  cases other with
  | lit l =>
      cases l with
      | bool b => rfl
      | _ => simp [readable, he] at h
  | _ => simp [readable, he] at h

theorem and3_truthVal {a b : Truth} : and3 (truthVal a) (truthVal b) = truthVal (a.and b) := by
  rcases a with _ | _ | _ <;> rcases b with _ | _ | _ <;> rfl

theorem or3_truthVal {a b : Truth} : or3 (truthVal a) (truthVal b) = truthVal (a.or b) := by
  unfold or3
  rw [not3_truthVal, not3_truthVal, and3_truthVal, not3_truthVal]
  rfl

theorem xor3_truthVal (hserver : Server rt env.pg regex) {a b : Truth} :
    strict (fun x y => !env.pg.equal x y) (truthVal a) (truthVal b) = truthVal (a.xor b) := by
  cases a with
  | none => rfl
  | some a =>
      cases b with
      | none => rfl
      | some b =>
          have hequal : env.pg.equal (.bool a) (.bool b) = decide (compare a b = .eq) :=
            hserver.equal rfl
          change Val.bool (!env.pg.equal (.bool a) (.bool b)) = .bool (a != b)
          rw [hequal]
          cases a <;> cases b <;> rfl

/-- A connective of predicates is the connective of their truth values. -/
theorem connective_sql (hserver : Server rt env.pg regex) {op : BinOp} {l r : Expr}
    (hop : op ∈ connectives) (hl : isPredicate l = true) (hr : isPredicate r = true)
    (hreadl : readable l r = true) (hreadr : readable r l = true) {a b : Truth}
    (hleft : CompilesTo c binds env s (some "bool") l a)
    (hright : CompilesTo c binds env s (some "bool") r b) :
    CompilesTo c binds env s (some "bool") (.binary op l r) (connect op a b) := by
  obtain ⟨x, hx, hxval⟩ := hleft.hint hl (hint_of_readable hreadl)
  obtain ⟨y, hy, hyval⟩ := hright.hint hr (hint_of_readable hreadr)
  have hin : op ≠ .in_ := by rintro rfl; simp [connectives] at hop
  refine ⟨binarySql op (isConstant l || isConstant r) x y, fun n => ?_, ?_⟩
  · rw [expr_binary hin, hx n]
    change (do
      let (rs, n) ← expr c binds (typeOf c binds l) n r
      return (binarySql op (isConstant l || isConstant r)
        (readAt l (typeOf c binds l) (typeOf c binds r) x)
        (readAt r (typeOf c binds r) (typeOf c binds l) rs), n)) = _
    rw [hy n, readAt_of_not_prop (isProp_of_isPredicate hl)]
    exact congrArg (fun q => Except.ok (binarySql op (isConstant l || isConstant r) x q, n))
      (readAt_of_not_prop (isProp_of_isPredicate hr))
  · simp only [connectives, List.mem_cons, List.not_mem_nil, or_false] at hop
    rcases hop with rfl | rfl | rfl
    · simp only [binarySql, SqlExpr.eval, SqlExpr.evals, SqlOp.apply, hxval, hyval, and3_truthVal,
        connect]
    · simp only [binarySql, SqlExpr.eval, SqlExpr.evals, SqlOp.apply, hxval, hyval, or3_truthVal,
        connect]
    · simp only [binarySql, SqlExpr.eval, SqlExpr.evals, SqlOp.apply, hxval, hyval,
        xor3_truthVal hserver, connect]

theorem atom_sql (hserver : Server rt env.pg regex) {op : BinOp}
    (hop : op ∈ [BinOp.eq, .ne, .regex] ++ orderings ++ searches) {l r : Expr} {x y : Scalar}
    (hl : isOperand l = true) (hr : isOperand r = true)
    (hbinds : BindsScalars rt bound env binds s row (.binary op l r))
    (h : AtomFits row rt env.pg op l r x y) :
    CompilesTo c binds env s (some "bool") (.binary op l r)
      (atomTruth regex (isConstant l || isConstant r) op x y) := by
  have hin : op ≠ .in_ := by rintro rfl; simp [orderings, searches] at hop
  have hjsonb {e : Expr} : litType e ≠ some "jsonb" := by
    cases e with
    | lit l => cases l <;> simp [litType]
    | _ => simp [litType]
  obtain ⟨a, ha, haval⟩ := expr_operand (c := c) (hbinds.mono fun v hv =>
    List.mem_append_left _ hv) hl (hjsonb (e := r))
  obtain ⟨b, hb, hbval⟩ := expr_operand (c := c) (hbinds.mono fun v hv =>
    List.mem_append_right _ hv) hr (hjsonb (e := l))
  refine ⟨binarySql op (isConstant l || isConstant r) a b, fun n => ?_, ?_⟩
  · rw [expr_binary hin, typeOf_operand hl, typeOf_operand hr, ha n]
    change (do
      let (rs, n) ← expr c binds (litType l) n r
      return (binarySql op (isConstant l || isConstant r) (readAt l (litType l) (litType r) a)
        (readAt r (litType r) (litType l) rs), n)) = _
    rw [hb n, readAt_of_not_prop (isProp_of_isOperand hl)]
    exact congrArg (fun q => Except.ok (binarySql op (isConstant l || isConstant r) a q, n))
      (readAt_of_not_prop (isProp_of_isOperand hr))
  · rw [eval_binarySql hop, haval, hbval]
    exact sqlAtom_eq hserver hop hl hr h

theorem operand_eq_none {e : Expr} (he : isOperand e = false) : operand row e = none := by
  cases e with
  | lit l => cases he
  | var v => cases he
  | _ => rfl

theorem truthVal_eq_null {t : Truth} : truthVal t = .null ↔ t = none := by
  cases t <;> simp [truthVal]

/-- A test for NULL is never unknown. -/
theorem isNull_sql {a : Expr} {w : Bool} {sql : SqlExpr} {t : Truth}
    (hsql : ∀ n, expr c binds none n a = .ok (sql, n))
    (ht : t = some (decide (sql.eval env [] s = .null) == w)) :
    CompilesTo c binds env s (some "bool") (.isNull a w) t := by
  cases w with
  | true =>
      refine ⟨.app .isNull ["(", " IS NULL)"] [sql], fun n => by rw [expr, hsql n]; rfl, ?_⟩
      simp [SqlExpr.eval, SqlExpr.evals, SqlOp.apply, ht, truthVal]
  | false =>
      refine ⟨.app .isNotNull ["(", " IS NOT NULL)"] [sql], fun n => by rw [expr, hsql n]; rfl, ?_⟩
      simp [SqlExpr.eval, SqlExpr.evals, SqlOp.apply, ht, truthVal]

/-- The SQL of a predicate has its truth value. -/
theorem predicate_sql (hserver : Server rt env.pg regex) (e : Expr) (he : isPredicate e = true)
    (hfits : Fits row rt env.pg e) (hbinds : BindsScalars rt bound env binds s row e) :
    CompilesTo c binds env s (some "bool") e (truth row regex e) := by
  induction e with
  | lit l =>
      cases l with
      | bool b => exact ⟨boolLit b, fun n => rfl, rfl⟩
      | null => exact ⟨.lit .null "NULL", fun n => rfl, rfl⟩
      | _ => cases he
  | var v =>
      have hbool : some "bool" ≠ some "jsonb" := by simp
      obtain ⟨sql, hsql, heval⟩ := expr_operand (c := c) hbinds rfl hbool
      refine ⟨sql, hsql, heval.trans ?_⟩
      rcases hfits with hv | ⟨b, hv⟩
      · rw [shown_null (by rw [operand, hv]; rfl)]
        simp [truth, operandTruth, operand, hv, scalarOf, truthVal]
      · have hb : operand row (.var v) = some (.bool b) := by rw [operand, hv]; rfl
        rw [shown_bool hserver hb]
        simp [truth, operandTruth, hb, truthVal]
  | not a ih =>
      obtain ⟨sql, hsql, heval⟩ := ih he hfits hbinds
      refine ⟨.app .not ["(NOT ", ")"] [sql], fun n => ?_, ?_⟩
      · rw [expr, hsql n]
        rfl
      · simp only [SqlExpr.eval, SqlExpr.evals, SqlOp.apply, heval, not3_truthVal, truth]
  | isNull a w ih =>
      by_cases ha : isOperand a = true
      · unfold Fits at hfits
        rw [if_pos ha] at hfits
        obtain ⟨x, hx⟩ := Option.isSome_iff_exists.mp hfits.1
        obtain ⟨sql, hsql, heval⟩ := expr_operand (c := c) (e := a) hbinds ha
          (Option.some_ne_none _).symm
        refine isNull_sql hsql ?_
        simp only [truth, hx, heval, shown_eq_null hx]
      · have ha' : isOperand a = false := by simpa using ha
        unfold Fits at hfits
        rw [if_neg ha] at hfits
        rw [isPredicate, ha', Bool.false_or] at he
        have hvar : isVar a = false := by
          cases a with
          | var v => cases ha'
          | _ => rfl
        have hnone : isVar a = true → none = some "bool" := by simp [hvar]
        obtain ⟨sql, hsql, heval⟩ := (ih he hfits hbinds).hint he hnone
        refine isNull_sql hsql ?_
        simp only [truth, operand_eq_none ha', heval, truthVal_eq_null]
  | binary op l r ihl ihr =>
      unfold isPredicate at he
      unfold Fits at hfits
      unfold truth
      split at he
      · next hop =>
        rw [if_pos hop] at hfits
        rw [if_pos hop]
        simp only [Bool.and_eq_true] at he
        obtain ⟨⟨⟨hl, hr⟩, hreadl⟩, hreadr⟩ := he
        exact connective_sql hserver hop hl hr hreadl hreadr
          (ihl hl hfits.1 (hbinds.mono fun v hv => List.mem_append_left _ hv))
          (ihr hr hfits.2 (hbinds.mono fun v hv => List.mem_append_right _ hv))
      · next hop =>
        rw [if_neg hop] at hfits
        rw [if_neg hop]
        simp only [Bool.and_eq_true, decide_eq_true_eq] at he
        obtain ⟨x, y, h⟩ := hfits
        rw [h.left, h.right]
        exact atom_sql hserver he.1.1 he.1.2 he.2 hbinds h
  | _ => cases he

end ReadPath

section WritePath

variable {F : Type} {rt : Runtime F} {params : Value F} {bound : RowEvaluator.Env F}
variable {env : Sql.Env} {c : Catalog} {binds : Binds} {s : Scope} {row : String → Json}
variable {regex : String → String → Bool}

theorem eval_operand {e : Expr} {x : Scalar} (he : operand row e = some x) (hfinite : Finite rt e)
    (hbinds : BindsScalars rt bound env binds s row e) :
    eval rt params e bound = .ok (x.value rt) := by
  cases e with
  | lit l =>
      obtain rfl := Option.some.inj he
      cases l with
      | float d =>
          rw [eval, litValue, jsonFloat, if_pos (hfinite d rfl)]
          rfl
      | _ => rfl
  | var v =>
      obtain ⟨-, y, hy, hv⟩ := hbinds v (List.mem_singleton_self v)
      obtain rfl := Option.some.inj (he.symm.trans hy)
      rw [eval, hv]
      rfl
  | _ => cases he

@[simp] theorem truthy_bool {b : Bool} : truthy rt (.bool b) = b := rfl

theorem order_bool (f : F → F → Bool) (g : String → String → Bool) {a b : Value F} :
    ∃ x, order rt f g a b = .bool x := by
  unfold order
  split
  · exact ⟨_, rfl⟩
  · exact ⟨_, rfl⟩

/-- A predicate that is no operand is a boolean in a row. -/
theorem eval_bool {e : Expr} (he : isPredicate e = true) (hop : isOperand e = false) {v : Value F}
    (h : eval rt params e bound = .ok v) : ∃ b, v = .bool b := by
  cases e with
  | not a =>
      rw [eval] at h
      obtain ⟨w, -, h⟩ := bind_eq_ok.mp h
      exact ⟨_, (pure_eq_ok.mp h).symm⟩
  | isNull a w =>
      rw [eval] at h
      obtain ⟨w, -, h⟩ := bind_eq_ok.mp h
      exact ⟨_, (pure_eq_ok.mp h).symm⟩
  | binary op l r =>
      rw [eval] at h
      obtain ⟨a, -, h⟩ := bind_eq_ok.mp h
      obtain ⟨b, -, h⟩ := bind_eq_ok.mp h
      obtain rfl := pure_eq_ok.mp h
      cases op with
      | lt => exact order_bool rt.lt fun s t => s < t
      | le => exact order_bool rt.le fun s t => s ≤ t
      | gt => exact order_bool (fun x y => rt.lt y x) fun s t => t < s
      | ge => exact order_bool (fun x y => rt.le y x) fun s t => t ≤ s
      | eq | ne | and | or | xor | startsWith | endsWith | contains | regex => exact ⟨_, rfl⟩
      | _ => simp [isPredicate, connectives, orderings, searches] at he
  | lit l => cases hop
  | var v => cases hop
  | _ => cases he

/-- With the read path's truth value known, agreement is about the row. -/
theorem agrees_iff_row (hserver : Server rt env.pg regex) {e : Expr} (he : isPredicate e = true)
    (hfits : Fits row rt env.pg e) (hbinds : BindsScalars rt bound env binds s row e) :
    Agrees rt params bound env c binds s e ↔
      ∃ v, eval rt params e bound = .ok v ∧ truthy rt v = (truth row regex e).holds := by
  obtain ⟨sql, hsql, heval⟩ := predicate_sql (c := c) hserver e he hfits hbinds
  have hvalue : sqlValue env c binds s e = .ok (truthVal (truth row regex e)) := by
    rw [sqlValue, hsql 0, ← heval]
    rfl
  have haccepts : accepts (truthVal (truth row regex e)) = (truth row regex e).holds := by
    cases truth row regex e <;> simp [truthVal, accepts, Truth.holds]
  unfold Agrees
  constructor
  · rintro ⟨v, x, hv, hx, h⟩
    rw [hvalue] at hx
    obtain rfl := Except.ok.inj hx
    exact ⟨v, hv, h.trans haccepts⟩
  · rintro ⟨v, hv, h⟩
    exact ⟨v, _, hv, hvalue, h.trans haccepts.symm⟩

theorem self_mem_subpredicates {e : Expr} : e ∈ subpredicates e := by
  cases e <;> simp [subpredicates]

theorem not_null_of_isConstant {e : Expr} {x : Scalar} (h : isConstant e = true)
    (he : operand row e = some x) : x ≠ .null := by
  cases e with
  | lit l =>
      obtain rfl := Option.some.inj he
      cases l with
      | null => cases h
      | _ => nofun
  | param p => cases he
  | _ => cases h

/-- Negation turns what is unknown into what is true. -/
theorem not_agrees_iff (hserver : Server rt env.pg regex) {a : Expr}
    (he : isPredicate (.not a) = true) (hfits : Fits row rt env.pg (.not a))
    (hbinds : BindsScalars rt bound env binds s row (.not a))
    (ha : Agrees rt params bound env c binds s a) :
    Agrees rt params bound env c binds s (.not a) ↔ truth row regex a ≠ none := by
  have hpred : isPredicate a = true := he
  have hbound : BindsScalars rt bound env binds s row a := hbinds
  obtain ⟨v, hv, hagree⟩ := (agrees_iff_row hserver hpred hfits hbound).mp ha
  have heval : eval rt params (.not a) bound = .ok (.bool !truthy rt v) := by
    rw [eval, hv]
    rfl
  rw [agrees_iff_row hserver he hfits hbinds, ← Truth.holds_not_iff, ← hagree]
  constructor
  · rintro ⟨w, hw, h⟩
    obtain rfl := Except.ok.inj (heval.symm.trans hw)
    exact h
  · intro h
    exact ⟨_, heval, h⟩

theorem isNull_agrees_iff (hserver : Server rt env.pg regex) {a : Expr} {w : Bool}
    (ha : isPredicate a = true) (hop : isOperand a = false)
    (hfits : Fits row rt env.pg (.isNull a w))
    (hbinds : BindsScalars rt bound env binds s row (.isNull a w))
    (hagrees : Agrees rt params bound env c binds s a) :
    Agrees rt params bound env c binds s (.isNull a w) ↔ truth row regex a ≠ none := by
  have he : isPredicate (.isNull a w) = true := by rw [isPredicate, ha, Bool.or_true]
  obtain ⟨v, x, hv, -, -⟩ := hagrees
  obtain ⟨b, rfl⟩ := eval_bool ha hop hv
  have heval : eval rt params (.isNull a w) bound = .ok (.bool (false = w)) := by
    rw [eval, hv]
    rfl
  have htruth : truth row regex (.isNull a w) = some (decide (truth row regex a = none) == w) := by
    simp only [truth, operand_eq_none hop]
  rw [agrees_iff_row hserver he hfits hbinds, htruth]
  constructor
  · rintro ⟨u, hu, h⟩ hnone
    obtain rfl := Except.ok.inj (heval.symm.trans hu)
    cases w <;> simp [truthy, Truth.holds, hnone] at h
  · intro hsome
    refine ⟨_, heval, ?_⟩
    cases w <;> simp [truthy, Truth.holds, hsome]

/-- `AND` and `OR` may count unknown as false; `XOR` may not beside true. -/
theorem connective_agrees_iff (hserver : Server rt env.pg regex) {op : BinOp} {l r : Expr}
    (hop : op ∈ connectives) (he : isPredicate (.binary op l r) = true)
    (hfits : Fits row rt env.pg (.binary op l r))
    (hbinds : BindsScalars rt bound env binds s row (.binary op l r)) {v w : Value F}
    (hl : eval rt params l bound = .ok v) (hlv : truthy rt v = (truth row regex l).holds)
    (hr : eval rt params r bound = .ok w) (hrw : truthy rt w = (truth row regex r).holds) :
    Agrees rt params bound env c binds s (.binary op l r) ↔
      (op = .xor → ¬(truth row regex l = none ∧ truth row regex r = some true) ∧
        ¬(truth row regex l = some true ∧ truth row regex r = none)) := by
  have heval : eval rt params (.binary op l r) bound = .ok (binary rt op v w) := by
    rw [eval, hl, hr]
    rfl
  have htruth : truth row regex (.binary op l r) =
      connect op (truth row regex l) (truth row regex r) := by
    rw [truth, if_pos hop]
  have hrow : Agrees rt params bound env c binds s (.binary op l r) ↔
      truthy rt (binary rt op v w) = (connect op (truth row regex l) (truth row regex r)).holds := by
    rw [agrees_iff_row hserver he hfits hbinds, htruth]
    constructor
    · rintro ⟨u, hu, h⟩
      obtain rfl := Except.ok.inj (heval.symm.trans hu)
      exact h
    · intro h
      exact ⟨_, heval, h⟩
  rw [hrow]
  simp only [connectives, List.mem_cons, List.not_mem_nil, or_false] at hop
  rcases hop with rfl | rfl | rfl
  · simp [binary, connect, hlv, hrw]
  · simp [binary, connect, hlv, hrw]
  · have hxor : truthy rt (binary rt .xor v w) = (truthy rt v != truthy rt w) := rfl
    rw [hxor, hlv, hrw]
    exact Truth.holds_xor_iff.trans ⟨fun h _ => h, fun h => h rfl⟩

theorem atom_agrees_iff (hserver : Server rt env.pg regex) {op : BinOp} {l r : Expr}
    (hop : op ∉ connectives) (he : isPredicate (.binary op l r) = true)
    (hfits : Fits row rt env.pg (.binary op l r))
    (hbinds : BindsScalars rt bound env binds s row (.binary op l r)) :
    Agrees rt params bound env c binds s (.binary op l r) ↔
      Known row rt regex (.binary op l r) := by
  rw [agrees_iff_row hserver he hfits hbinds]
  unfold Known
  unfold Fits at hfits
  unfold isPredicate at he
  rw [if_neg hop] at hfits he ⊢
  simp only [Bool.and_eq_true, decide_eq_true_eq] at he
  obtain ⟨x, y, h⟩ := hfits
  have hl : eval rt params l bound = .ok (x.value rt) :=
    eval_operand h.left h.finiteLeft (hbinds.mono fun v hv => List.mem_append_left _ hv)
  have hr : eval rt params r bound = .ok (y.value rt) :=
    eval_operand h.right h.finiteRight (hbinds.mono fun v hv => List.mem_append_right _ hv)
  have heval : eval rt params (.binary op l r) bound =
      .ok (binary rt op (x.value rt) (y.value rt)) := by
    rw [eval, hl, hr]
    rfl
  have htruth : truth row regex (.binary op l r) =
      atomTruth regex (isConstant l || isConstant r) op x y := by
    rw [truth, if_neg hop, h.left, h.right]
  have hplain : (isConstant l || isConstant r) = true → ¬(x = .null ∧ y = .null) := by
    rintro hconstant ⟨hx, hy⟩
    rcases (Bool.or_eq_true _ _).mp hconstant with hl | hr
    · exact not_null_of_isConstant hl h.left hx
    · exact not_null_of_isConstant hr h.right hy
  rw [htruth]
  constructor
  · rintro ⟨v, hv, hagree⟩ x' y' hx' hy'
    obtain rfl := Option.some.inj (h.left.symm.trans hx')
    obtain rfl := Option.some.inj (h.right.symm.trans hy')
    obtain rfl := Except.ok.inj (heval.symm.trans hv)
    exact (atom_iff he.1.1 hplain h).mp hagree
  · intro hknown
    exact ⟨_, heval, (atom_iff he.1.1 hplain h).mpr (hknown x y h.left h.right)⟩

end WritePath

section Negation

open OntologicalDb.IntegerArithmetic

def searchText (name : String) (s p : String) : Val :=
  match name with
  | "starts with" => .bool (like (p.toList ++ ['%']) s.toList)
  | "ends with" => .bool (like ('%' :: p.toList) s.toList)
  | "contains" => .bool (isInfix p s)
  | _ => .bool false

/-- A server with exact numbers that reads one numeral, and whose regular
expressions match nothing. -/
def comparingServer : Postgres :=
  { Postgres.literal with
    equal := fun a b =>
      match pgCompare exactRuntime a b with
      | some o => o = .eq
      | none => decide (a = b)
    equal_int := fun a b => by simp [pgCompare]
    cast := fun type v =>
      match type, v with
      | "text", v => v
      | "bool", .text s => .bool (s = "true")
      | "int8", .text s => if s = "2" then .int 2 else .null
      | _, _ => .null
    fn := fun name args =>
      match args with
      | [a, b] =>
          if a = .null ∨ b = .null then .null
          else match orderings.find? fun op => sqlName op = name with
            | some op => ((pgCompare exactRuntime a b).map fun o => Val.bool (orderTest op o)).getD .null
            | none =>
                match a, b with
                | .text s, .text p => searchText name s p
                | _, _ => .null
      | _ => .null }

theorem server_comparing : Server exactRuntime comparingServer fun _ _ => false where
  equal h := by simp [comparingServer, h]
  order op hop a b o h := by
    have hnull := not_or.mpr (pgCompare_ne_null h)
    simp only [orderings, List.mem_cons, List.not_mem_nil, or_false] at hop
    rcases hop with rfl | rfl | rfl | rfl <;>
      simp [comparingServer, hnull, h, orderings, sqlName]
  strict op hop a b h := by simp [comparingServer, h]
  startsWith s p := by simp [comparingServer, orderings, sqlName, searchText]
  endsWith s p := by simp [comparingServer, orderings, sqlName, searchText]
  contains s p := by simp [comparingServer, orderings, sqlName, searchText]
  regex s p := by simp [comparingServer, orderings, sqlName, searchText]
  castText s := rfl
  castBool b := by cases b <;> rfl
  ofInt i := by simp [exactRuntime]

def comparingEnv : Sql.Env where
  pg := comparingServer
  db := ⟨⟨TypeCatalog.empty, []⟩, [], [], [], [], []⟩
  asOf _ := []
  params := .obj []
  segment := []

/-- A row that `WITH` left: `x` and `y`. -/
def scalarBinds : Binds := [("x", .scalar (.col ⟨"w", 1⟩ "x")), ("y", .scalar (.col ⟨"w", 1⟩ "y"))]

def scopeOf (row : String → Json) : Scope := fun _ name => column (row name)

def boundOf (row : String → Json) : RowEvaluator.Env Rat := fun v =>
  (scalarOf (row v)).map (Scalar.value exactRuntime)

theorem bindsScalars_of {row : String → Json} {e : Expr}
    (hvars : ∀ v ∈ rowVars e, v = "x" ∨ v = "y") (hrow : ∀ v, (scalarOf (row v)).isSome) :
    BindsScalars exactRuntime (boundOf row) comparingEnv scalarBinds (scopeOf row) row e := by
  intro v hv
  obtain ⟨x, hx⟩ := Option.isSome_iff_exists.mp (hrow v)
  refine ⟨?_, x, hx, by rw [boundOf, hx]; rfl⟩
  rcases hvars v hv with rfl | rfl
  · exact ⟨.col ⟨"w", 1⟩ "x", rfl, rfl⟩
  · exact ⟨.col ⟨"w", 1⟩ "y", rfl, rfl⟩

/-- `NOT x = 1`. -/
def notOne : Expr := .not (.binary .eq (.var "x") (.lit (.int 1)))

/-- `NOT x = 1 AND y IS NULL`. -/
def notOneAndNull : Expr := .binary .and notOne (.isNull (.var "y") true)

def rowOfTwo : String → Json := fun v => if v = "x" then .num ⟨2, 0⟩ else .null

end Negation

end OntologicalDb.PredicateAgreement
