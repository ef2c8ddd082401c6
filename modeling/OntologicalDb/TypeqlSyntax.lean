import Mathlib

/-!
The patterns of a TypeQL `match` and the variables they touch.
-/

namespace OntologicalDb.TypeqlSyntax

inductive CmpOp
  | eq
  | ne
  | lt
  | le
  | gt
  | ge
  | like
  | contains
deriving DecidableEq

/-- A float is kept by its bits. -/
inductive Lit
  | str (s : String)
  | int (i : Int)
  | float (bits : UInt64)
  | bool (b : Bool)
  | dateTime (s : String)
deriving DecidableEq

inductive Expr
  | lit (l : Lit)
  | var (v : String)
  | attr (v a : String)
  | bin (l : Expr) (op : String) (r : Expr)
  | neg (e : Expr)
  | call (name : String) (args : List Expr)

inductive HasVal
  | var (v : String)
  | cmp (op : CmpOp) (e : Expr)
  | any

/-- A pattern primitive; `isaAnon` stands for an anonymous subject. -/
inductive Pat
  | isa (var ty : String) (exact : Bool)
  | has (owner : String) (attr : Option String) (val : HasVal)
  | role (rel : String) (role : Option String) (player : String)
  | cmp (lhs : Expr) (op : CmpOp) (rhs : Expr)
  | letVar (var : String) (expr : Expr)
  | or (branches : List (List Pat))
  | not (inner : List Pat)
  | sub (var ty : String) (exact : Bool)
  | label (var name : String)
  | isaAnon (var ty : String)

mutual

def exprVars : Expr → List String
  | .lit _ => []
  | .var v => [v]
  | .attr v _ => [v]
  | .bin l _ r => exprVars l ++ exprVars r
  | .neg e => exprVars e
  | .call _ args => argVars args

def argVars : List Expr → List String
  | [] => []
  | e :: es => exprVars e ++ argVars es

end

def HasVal.vars : HasVal → List String
  | .var v => [v]
  | .cmp _ e => exprVars e
  | .any => []

mutual

/-- `vars_of`: the variables a pattern touches, inside negations and disjunctions too. -/
def varsOf : Pat → List String
  | .isa var _ _ | .isaAnon var _ | .sub var _ _ | .label var _ => [var]
  | .has owner _ val => owner :: val.vars
  | .role rel _ player => [rel, player]
  | .cmp lhs _ rhs => exprVars lhs ++ exprVars rhs
  | .letVar var e => var :: exprVars e
  | .not inner => patsVars inner
  | .or branches => branchVars branches

def patsVars : List Pat → List String
  | [] => []
  | p :: ps => varsOf p ++ patsVars ps

def branchVars : List (List Pat) → List String
  | [] => []
  | b :: bs => patsVars b ++ branchVars bs

end

end OntologicalDb.TypeqlSyntax
