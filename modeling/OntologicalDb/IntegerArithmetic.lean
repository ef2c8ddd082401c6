import Mathlib.Data.Rat.Floor
import OntologicalDb.CompileExpr
import OntologicalDb.ExceptRules
import OntologicalDb.RowEvaluator

/-!
Integer arithmetic on the two paths: the SQL of an expression and the row
evaluator of the write clauses.
-/

namespace OntologicalDb.IntegerArithmetic

open OntologicalDb.CompileExpr
open OntologicalDb.CypherSyntax
open OntologicalDb.ExceptRules
open OntologicalDb.RowDocuments
open OntologicalDb.RowEvaluator
open OntologicalDb.Sql
open OntologicalDb.TypeCatalog
open OntologicalDb.Values

/-- A literal, a variable or a property of a variable. -/
def isOperand : Expr → Bool
  | .lit (.int _) | .var _ | .prop (.var _) _ => true
  | _ => false

/-- Integer literals, variables and properties under `+`, `-`, `*` and unary
minus. -/
def isArithmetic : Expr → Bool
  | .binary op l r => op ∈ [.add, .sub, .mul] && isArithmetic l && isArithmetic r
  | .neg a => isArithmetic a
  | e => isOperand e

def operands : Expr → List Expr
  | .binary _ l r => operands l ++ operands r
  | .neg a => operands a
  | e => [e]

section Paths

variable {F : Type} (rt : Runtime F) (params : Value F) (row : RowEvaluator.Env F)
variable (env : Sql.Env) (c : Catalog) (binds : Binds) (s : Scope)

/-- The read path's value of an expression, as the result row shows it. -/
def readValue (e : Expr) : Except String Json := do
  let (sql, _) ← exprForOutput c binds 0 e
  return toJson (sql.eval env [] s)

/-- Both paths give the expression this integer. -/
def SameInteger (e : Expr) (k : Int) : Prop :=
  readValue env c binds s e = .ok (.num ⟨k, 0⟩) ∧
    eval rt params e row = .ok (.number (.int k))

/-- A row in which every operand is one integer on both paths. -/
def BindsIntegers (of : Expr → Int) (e : Expr) : Prop :=
  ∀ x ∈ operands e, SameInteger rt params row env c binds s x (of x)

end Paths

section Doubles

variable {F : Type} {rt : Runtime F}

theorem jsonFloat_ne_int {f : F} {k : Int} : jsonFloat rt f ≠ .number (.int k) := by
  unfold jsonFloat
  split <;> simp

theorem negate_ne_int {v : Value F} {k : Int} : negate rt v ≠ .number (.int k) := by
  cases v with
  | number n => exact jsonFloat_ne_int
  | _ => nofun

/-- An arithmetic operator computes in doubles: its result is no integer. -/
theorem binary_ne_int {op : BinOp} (hop : op ∈ [BinOp.add, .sub, .mul]) {a b : Value F}
    {k : Int} : binary rt op a b ≠ .number (.int k) := by
  have harith (f : F → F → F) :
      arith rt (fun x y => jsonFloat rt (f x y)) a b ≠ .number (.int k) := by
    unfold arith
    split
    · exact jsonFloat_ne_int
    · nofun
  simp only [List.mem_cons, List.not_mem_nil, or_false] at hop
  rcases hop with rfl | rfl | rfl
  · simp only [binary]
    split
    · exact jsonFloat_ne_int
    · nofun
  · exact harith _
  · exact harith _

end Doubles

section Agreement

variable {F : Type} {rt : Runtime F} {params : Value F} {row : RowEvaluator.Env F}
variable {env : Sql.Env} {c : Catalog} {binds : Binds} {s : Scope}

theorem operands_of_isOperand {e : Expr} (h : isOperand e = true) : operands e = [e] := by
  cases e with
  | binary op l r => simp [isOperand] at h
  | neg a => simp [isOperand] at h
  | _ => rfl

theorem eval_ne_int {e : Expr} (he : isArithmetic e = true) (hop : isOperand e = false)
    {k : Int} : eval rt params e row ≠ .ok (.number (.int k)) := by
  cases e with
  | binary op l r =>
      simp only [isArithmetic, Bool.and_eq_true, decide_eq_true_eq] at he
      intro h
      rw [eval] at h
      obtain ⟨a, -, h⟩ := bind_eq_ok.mp h
      obtain ⟨b, -, h⟩ := bind_eq_ok.mp h
      exact binary_ne_int he.1.1 (pure_eq_ok.mp h)
  | neg a =>
      intro h
      rw [eval] at h
      obtain ⟨v, -, h⟩ := bind_eq_ok.mp h
      exact negate_ne_int (pure_eq_ok.mp h)
  | _ =>
      unfold isArithmetic at he
      simp [hop] at he

end Agreement

section Increment

/-- Doubles that are exact, as they are on small numerals. -/
def exactRuntime : Runtime Rat where
  ofInt i := i
  ofDecimal d := d.coeff / 10 ^ d.scale
  add := (· + ·)
  sub := (· - ·)
  mul := (· * ·)
  div := (· / ·)
  rem x y := x - y * (x / y).floor
  pow x y := x ^ y.num
  neg x := -x
  abs x := |x|
  eq x y := x = y
  lt x y := x < y
  le x y := x ≤ y
  finite _ := true
  trunc x := if 0 ≤ x then x.floor else x.ceil
  parse s := s.toInt?.map fun i => (i : Rat)
  text x := toString x
  upper := String.toUpper
  lower := String.toLower
  trim s := s.trimAscii.toString
  nowIso := ""
  nowEpoch := 0

/-- A server that adds integers. -/
def addingServer : Postgres :=
  { Postgres.literal with
    fn := fun name args =>
      match name, args with
      | "+", [.int a, .int b] => .int (a + b)
      | _, _ => .null }

def counterCatalog : Catalog :=
  { TypeCatalog.empty with
    graphs := [(1, "g")]
    types := [⟨1, 1, "A", .entity, some (nodeTable 1)⟩]
    labels := [⟨1, 0, 1, 1, 1025, 0⟩]
    properties := [⟨1, "x", "int8", "p_x", false, false⟩] }

def counterEnv : Sql.Env where
  pg := addingServer
  db := ⟨⟨counterCatalog, []⟩, [], [], [], [], []⟩
  asOf _ := []
  params := .obj []
  segment := []

/-- A row whose node has `x = 1`, as the compiled query sees it. -/
def counterScope : Scope := fun _ column =>
  if column = "p_x" then .int 1 else .null

/-- The same row in a write clause. -/
def counterRow : RowEvaluator.Env Rat := fun v =>
  if v = "n" then some (.object [("_id", .number (.int 10)), ("x", .number (.int 1))]) else none

def counterBinds : Binds := [("n", .node ⟨"n", 1⟩ (some 1))]

/-- `n.x + 1`. -/
def increment : Expr := .binary .add (.prop (.var "n") "x") (.lit (.int 1))

theorem increment_bindsIntegers :
    BindsIntegers exactRuntime .null counterRow counterEnv counterCatalog counterBinds
      counterScope (fun _ => 1) increment := by
  intro e he
  simp only [increment, operands, List.cons_append, List.nil_append, List.mem_cons,
    List.not_mem_nil, or_false] at he
  rcases he with rfl | rfl
  · exact ⟨by rfl, by rfl⟩
  · exact ⟨by rfl, by rfl⟩

end Increment

end OntologicalDb.IntegerArithmetic
