import Mathlib.Data.List.Sublists
import Mathlib.Logic.Function.Basic
import OntologicalDb.CypherSyntax

/-!
Expression evaluation for the write path, over rows that are already bound.
-/

namespace OntologicalDb.RowEvaluator

open OntologicalDb.CypherSyntax
open OntologicalDb.Values

/-- A JSON number as the evaluator holds it: an integer or a double. -/
inductive Number (F : Type)
  | int (i : Int)
  | float (f : F)
deriving DecidableEq

inductive Value (F : Type)
  | null
  | bool (b : Bool)
  | number (n : Number F)
  | string (s : String)
  | array (xs : List (Value F))
  | object (kvs : List (String × Value F))

/-- What the evaluator takes from its platform: double arithmetic, Unicode case
tables and the transaction's clock. -/
structure Runtime (F : Type) where
  ofInt : Int → F
  ofDecimal : Decimal → F
  add : F → F → F
  sub : F → F → F
  mul : F → F → F
  div : F → F → F
  rem : F → F → F
  pow : F → F → F
  neg : F → F
  abs : F → F
  eq : F → F → Bool
  lt : F → F → Bool
  le : F → F → Bool
  finite : F → Bool
  trunc : F → Int
  parse : String → Option F
  text : F → String
  upper : String → String
  lower : String → String
  trim : String → String
  nowIso : String
  nowEpoch : Int

abbrev Env (F : Type) := String → Option (Value F)

variable {F : Type}

section Values

variable (rt : Runtime F)

def Number.asF64 : Number F → F
  | .int i => rt.ofInt i
  | .float f => f

def Number.text : Number F → String
  | .int i => toString i
  | .float f => rt.text f

/-- A double as JSON: what is not finite has no numeral. -/
def jsonFloat (f : F) : Value F := if rt.finite f then .number (.float f) else .null

mutual

/-- Equality of JSON values; an integer never equals a double. -/
def Value.same : Value F → Value F → Bool
  | .null, .null => true
  | .bool a, .bool b => a = b
  | .number (.int i), .number (.int j) => i = j
  | .number (.float f), .number (.float g) => rt.eq f g
  | .string s, .string t => s = t
  | .array xs, .array ys => Value.sameList xs ys
  | .object xs, .object ys => Value.sameFields xs ys
  | _, _ => false

def Value.sameList : List (Value F) → List (Value F) → Bool
  | [], [] => true
  | x :: xs, y :: ys => x.same y && Value.sameList xs ys
  | _, _ => false

def Value.sameFields : List (String × Value F) → List (String × Value F) → Bool
  | [], [] => true
  | (k, x) :: xs, (l, y) :: ys => k = l && x.same y && Value.sameFields xs ys
  | _, _ => false

end

/-- A character inside a JSON string. -/
def escaped (c : Char) : List Char :=
  if c = '"' ∨ c = '\\' then ['\\', c]
  else if c = '\n' then ['\\', 'n']
  else if c = '\r' then ['\\', 'r']
  else if c = '\t' then ['\\', 't']
  else if c.toNat = 8 then ['\\', 'b']
  else if c.toNat = 12 then ['\\', 'f']
  else if c.toNat < 16 then ['\\', 'u', '0', '0', '0', Nat.digitChar c.toNat]
  else if c.toNat < 32 then ['\\', 'u', '0', '0', '1', Nat.digitChar (c.toNat - 16)]
  else [c]

def quoted (s : String) : String := "\"" ++ String.ofList (s.toList.flatMap escaped) ++ "\""

mutual

def Value.text : Value F → String
  | .null => "null"
  | .bool b => toString b
  | .number n => n.text rt
  | .string s => quoted s
  | .array xs => "[" ++ String.intercalate "," (Value.texts xs) ++ "]"
  | .object kvs => "\x7b" ++ String.intercalate "," (Value.fieldTexts kvs) ++ "\x7d"

def Value.texts : List (Value F) → List String
  | [] => []
  | x :: xs => x.text :: Value.texts xs

def Value.fieldTexts : List (String × Value F) → List String
  | [] => []
  | (k, x) :: kvs => (quoted k ++ ":" ++ x.text) :: Value.fieldTexts kvs

end

def Value.isNull : Value F → Bool
  | .null => true
  | _ => false

def Value.get (key : String) : Value F → Option (Value F)
  | .object kvs => (kvs.find? fun kv => kv.1 = key).map (·.2)
  | _ => none

/-- Set a member; members stay in the order of their keys. -/
def insertField (key : String) (v : Value F) : List (String × Value F) → List (String × Value F)
  | [] => [(key, v)]
  | (k, x) :: kvs =>
      if key = k then (key, v) :: kvs
      else if key < k then (key, v) :: (k, x) :: kvs
      else (k, x) :: insertField key v kvs

def truthy : Value F → Bool
  | .bool b => b
  | .null => false
  | .number n => !rt.eq (n.asF64 rt) (rt.ofInt 0)
  | .string s => s ≠ ""
  | .array xs => !xs.isEmpty
  | .object kvs => !kvs.isEmpty

def num : Value F → Option F
  | .number n => some (n.asF64 rt)
  | .string s => rt.parse s
  | _ => none

def asStr : Value F → String
  | .string s => s
  | .null => ""
  | v => v.text rt

end Values

section Operators

variable (rt : Runtime F)

/-- An ordering operator over doubles, or over texts when an operand is not a
number. -/
def order (onFloats : F → F → Bool) (onTexts : String → String → Bool) (a b : Value F) :
    Value F :=
  match num rt a, num rt b with
  | some x, some y => .bool (onFloats x y)
  | _, _ => .bool (onTexts (asStr rt a) (asStr rt b))

def arith (f : F → F → Value F) (a b : Value F) : Value F :=
  match num rt a, num rt b with
  | some x, some y => f x y
  | _, _ => .null

def concat (a b : Value F) : Value F := .string (asStr rt a ++ asStr rt b)

def isSuffix (s t : String) : Bool := s.toList.isSuffixOf t.toList

def isInfix (s t : String) : Bool := t.toList.tails.any s.toList.isPrefixOf

def binary (op : BinOp) (a b : Value F) : Value F :=
  match op with
  | .add =>
      match num rt a, num rt b with
      | some x, some y => jsonFloat rt (rt.add x y)
      | _, _ => concat rt a b
  | .sub => arith rt (fun x y => jsonFloat rt (rt.sub x y)) a b
  | .mul => arith rt (fun x y => jsonFloat rt (rt.mul x y)) a b
  | .div => arith rt (fun x y =>
      if rt.eq y (rt.ofInt 0) then .null else jsonFloat rt (rt.div x y)) a b
  | .mod => arith rt (fun x y =>
      if rt.eq y (rt.ofInt 0) then .null else jsonFloat rt (rt.rem x y)) a b
  | .pow => arith rt (fun x y => jsonFloat rt (rt.pow x y)) a b
  | .eq => .bool (a.same rt b)
  | .ne => .bool !a.same rt b
  | .lt => order rt rt.lt (fun s t => s < t) a b
  | .le => order rt rt.le (fun s t => s ≤ t) a b
  | .gt => order rt (fun x y => rt.lt y x) (fun s t => t < s) a b
  | .ge => order rt (fun x y => rt.le y x) (fun s t => t ≤ s) a b
  | .and => .bool (truthy rt a && truthy rt b)
  | .or => .bool (truthy rt a || truthy rt b)
  | .xor => .bool (truthy rt a != truthy rt b)
  | .concat => concat rt a b
  | .startsWith => .bool ((asStr rt b).toList.isPrefixOf (asStr rt a).toList)
  | .endsWith => .bool (isSuffix (asStr rt b) (asStr rt a))
  | .contains => .bool (isInfix (asStr rt b) (asStr rt a))
  | .regex => .bool false
  | .in_ =>
      match b with
      | .array xs => .bool (xs.any fun x => x.same rt a)
      | _ => .bool false

/-- The first argument of a function. -/
def first (args : List (Value F)) : Except String (Value F) :=
  match args with
  | a :: _ => .ok a
  | [] => .error "index out of bounds: the len is 0 but the index is 0"

def func (name : String) (args : List (Value F)) : Except String (Value F) :=
  match name.toLower with
  | "toupper" | "upper" => do return .string (rt.upper (asStr rt (← first args)))
  | "tolower" | "lower" => do return .string (rt.lower (asStr rt (← first args)))
  | "trim" => do return .string (rt.trim (asStr rt (← first args)))
  | "tostring" => do return .string (asStr rt (← first args))
  | "tointeger" => do
      return ((num rt (← first args)).map fun f => Value.number (.int (rt.trunc f))).getD .null
  | "tofloat" => do return ((num rt (← first args)).map (jsonFloat rt)).getD .null
  | "coalesce" => .ok ((args.find? fun v => !v.isNull).getD .null)
  | "size" | "length" => do
      match ← first args with
      | .array xs => return .number (.int xs.length)
      | .string s => return .number (.int s.length)
      | _ => return .null
  | "abs" => do return ((num rt (← first args)).map fun f => jsonFloat rt (rt.abs f)).getD .null
  | "id" => do return ((← first args).get "_id").getD .null
  | "elementid" => do
      return (((← first args).get "_id").map fun v => Value.string (v.text rt)).getD .null
  | "type" => do return ((← first args).get "_type").getD .null
  | "labels" => do return (((← first args).get "_type").map fun t => Value.array [t]).getD .null
  | "keys" => do
      match ← first args with
      | .object kvs => return .array (kvs.map fun kv => .string kv.1)
      | _ => return .null
  | "timestamp" => .ok (.number (.int rt.nowEpoch))
  | "datetime" => .ok (.string rt.nowIso)
  | other => .error s!"function '{other}' is not available in a write clause"

end Operators

section Evaluation

variable (rt : Runtime F) (params : Value F)

def litValue : Lit → Value F
  | .int i => .number (.int i)
  | .float f => jsonFloat rt (rt.ofDecimal f)
  | .str s => .string s
  | .bool b => .bool b
  | .null => .null

def negate : Value F → Value F
  | .number n => jsonFloat rt (rt.neg (n.asF64 rt))
  | _ => .null

/-- How many elements a list predicate asks for. -/
def quantify : ListPredKind → (hits total : Nat) → Bool
  | .any, hits, _ => 0 < hits
  | .none, hits, _ => hits = 0
  | .single, hits, _ => hits = 1
  | .all, hits, total => hits = total

def elementsOf : Value F → List (Value F)
  | .array xs => xs
  | _ => []

/-- `.*` hands back the properties, not the identity fields. -/
def ownFields : Value F → List (String × Value F)
  | .object kvs => kvs.filter fun kv => ¬ kv.1.startsWith "_"
  | _ => []

mutual

def eval : Expr → Env F → Except String (Value F)
  | .lit l, _ => .ok (litValue rt l)
  | .param p, _ => .ok ((params.get p).getD .null)
  | .var v, env => .ok ((env v).getD .null)
  | .prop base p, env => do return ((← eval base env).get p).getD .null
  | .list xs, env => do return .array (← evalList xs env)
  | .map kvs, env => do return .object (← evalFields kvs env [])
  | .neg a, env => do return negate rt (← eval a env)
  | .not a, env => do return .bool !truthy rt (← eval a env)
  | .isNull a want, env => do return .bool ((← eval a env).isNull = want)
  | .binary op l r, env => do
      let a ← eval l env
      let b ← eval r env
      return binary rt op a b
  | .case operand whens otherwise, env => do
      let hit : Value F → Bool ← match operand with
        | some o => do
            let s ← eval o env
            pure fun v => s.same rt v
        | none => pure (truthy rt)
      match ← evalWhens hit whens env with
      | some v => return v
      | none =>
          match otherwise with
          | some e => eval e env
          | none => return .null
  | .func name args _, env => do func rt name (← evalList args env)
  | .listComp var source filter project, env => do
      let items := elementsOf (← eval source env)
      let rows ← items.mapM fun item => do
        let inner := Function.update env var (some item)
        let keep ← match filter with
          | some f => truthy rt <$> eval f inner
          | none => pure true
        if keep then
          match project with
          | some p => return [← eval p inner]
          | none => return [item]
        else return []
      return .array rows.flatten
  | .listPred kind var source filter, env => do
      let items := elementsOf (← eval source env)
      let hits ← items.mapM fun item => do
        return truthy rt (← eval filter (Function.update env var (some item)))
      return .bool (quantify kind (hits.count true) items.length)
  | .mapProjection var items, env => do
      return .object (← evalItems ((env var).getD .null) items env [])
  | .star, _ => .ok .null

def evalList : List Expr → Env F → Except String (List (Value F))
  | [], _ => .ok []
  | e :: es, env => do
      let v ← eval e env
      return v :: (← evalList es env)

def evalFields : List (String × Expr) → Env F → List (String × Value F) →
    Except String (List (String × Value F))
  | [], _, out => .ok out
  | (k, e) :: kvs, env, out => do
      let v ← eval e env
      evalFields kvs env (insertField k v out)

/-- The value of the first `WHEN` that hits. -/
def evalWhens (hit : Value F → Bool) : List (Expr × Expr) → Env F →
    Except String (Option (Value F))
  | [], _ => .ok none
  | (cond, val) :: whens, env => do
      if hit (← eval cond env) then return some (← eval val env)
      else evalWhens hit whens env

def evalItems (subject : Value F) : List MapProjItem → Env F → List (String × Value F) →
    Except String (List (String × Value F))
  | [], _, out => .ok out
  | .all :: items, env, out =>
      evalItems subject items env
        ((ownFields subject).foldl (fun out kv => insertField kv.1 kv.2 out) out)
  | .prop p :: items, env, out =>
      evalItems subject items env (insertField p ((subject.get p).getD .null) out)
  | .entry k e :: items, env, out => do
      let v ← eval e env
      evalItems subject items env (insertField k v out)

end

end Evaluation

end OntologicalDb.RowEvaluator
