import OntologicalDb.TypeqlWrites

/-!
Integer expressions of a write stage: every operator computes with doubles, and what `json!`
makes of a double is not an integer any more.
-/

namespace OntologicalDb.WriteIntegers

open OntologicalDb.ExceptRules
open OntologicalDb.TypeqlSyntax
open OntologicalDb.TypeqlWrites

section Doubles

/-- Neither an infinity nor a NaN. -/
def isFinite (bits : UInt64) : Bool := bits.toNat / 2 ^ 52 % 2 ^ 11 ≠ 2 ^ 11 - 1

/-- `json!` of a double. -/
def jsonF64 (bits : UInt64) : Value := if isFinite bits then .float bits else .null

/-- The operators of the host answer with `json!` of a double. -/
structure Doubles (H : Host) : Prop where
  negate : ∀ v, ∃ bits, H.negate v = jsonF64 bits
  arith : ∀ op a b, ∃ bits, H.arith op a b = jsonF64 bits

theorem jsonF64_ne_int (bits : UInt64) (k : Int) : jsonF64 bits ≠ .int k := by
  intro h
  unfold jsonF64 at h
  split at h
  · cases h
  · cases h

end Doubles

section Expressions

/-- The integer an integer variable holds. -/
def intOf : Value → Option Int
  | .int i => some i
  | _ => none

def operate (op : String) (a b : Int) : Option Int :=
  if op = "+" then some (a + b)
  else if op = "-" then some (a - b)
  else if op = "*" then some (a * b)
  else none

/-- The exact value of an expression of integer literals and variables, `+`, `-` and `*`. -/
def exactValue (env : Env) : Expr → Option Int
  | .lit (.int i) => some i
  | .var v => (env v).bind fun b => intOf b.toValue
  | .neg x => (exactValue env x).map fun k => -k
  | .bin l op r => (exactValue env l).bind fun a => (exactValue env r).bind fun b => operate op a b
  | _ => none

/-- A literal or a variable, no operator. -/
def isAtom : Expr → Bool
  | .neg _ | .bin _ _ _ => false
  | _ => true

/-- An attribute of value type integer takes the value for the integer. -/
def Accepted (H : Host) (v : Value) (k : Int) : Prop :=
  ∀ attr, (do
    let sqlTy ← valueTypeSql "integer"
    typedLiteral H v sqlTy attr) = .ok (.int8 k)

/-- The expression evaluates to the integer, and an attribute of value type integer accepts
what it evaluates to. -/
def KeepsExact (H : Host) (env : Env) (e : Expr) (k : Int) : Prop :=
  ∃ v, eval H env e = .ok v ∧ v = .int k ∧ Accepted H v k

variable {H : Host} {env : Env}

theorem accepted_int {k : Int} (hk : -2 ^ 63 ≤ k ∧ k < 2 ^ 63) : Accepted H (.int k) k := by
  intro attr
  have hasI64 : (Value.int k).asI64 = some k := if_pos hk
  change typedLiteral H (.int k) .int8 attr = _
  rw [typedLiteral, hasI64]
  rfl

/-- An operator never answers with an integer. -/
theorem eval_operator (hH : Doubles H) {e : Expr} (he : isAtom e = false) (k : Int) :
    eval H env e ≠ .ok (.int k) := by
  intro h
  cases e with
  | neg x =>
      rcases bind_eq_ok.mp h with ⟨v, -, hv⟩
      rcases hH.negate v with ⟨bits, hbits⟩
      exact jsonF64_ne_int bits k (hbits.symm.trans (Except.ok.inj hv))
  | bin l op r =>
      rcases bind_eq_ok.mp h with ⟨a, -, h⟩
      rcases bind_eq_ok.mp h with ⟨b, -, hv⟩
      rcases hH.arith op a b with ⟨bits, hbits⟩
      exact jsonF64_ne_int bits k (hbits.symm.trans (Except.ok.inj hv))
  | lit | var | attr | call => cases he

theorem eval_atom {e : Expr} (he : isAtom e = true) {k : Int} (hk : exactValue env e = some k) :
    eval H env e = .ok (.int k) := by
  cases e with
  | lit l =>
      cases l with
      | int i =>
          rw [Option.some.inj hk.symm]
          rfl
      | str | float | bool | dateTime => cases hk
  | var v =>
      rcases Option.bind_eq_some_iff.mp hk with ⟨b, hb, hint⟩
      have hvalue : b.toValue = .int k := by
        cases hv : b.toValue with
        | int i =>
            rw [hv] at hint
            rw [Option.some.inj hint]
        | null | bool | float | str =>
            rw [hv] at hint
            cases hint
      rw [eval, hb, ← hvalue]
      rfl
  | neg | bin => cases he
  | attr | call => cases hk

/-- An integer expression is kept exact when it has no operator, and only then. -/
theorem keepsExact_iff (hH : Doubles H) {e : Expr} {k : Int} (he : exactValue env e = some k)
    (hk : -2 ^ 63 ≤ k ∧ k < 2 ^ 63) : KeepsExact H env e k ↔ isAtom e = true := by
  constructor
  · rintro ⟨v, heval, rfl, -⟩
    cases hatom : isAtom e with
    | true => rfl
    | false => exact absurd heval (eval_operator hH hatom k)
  · intro hatom
    exact ⟨.int k, eval_atom hatom he, rfl, accepted_int hk⟩

end Expressions

section Example

/-- The doubles of a few small numbers; any other result is a NaN. -/
def smallDouble (q : ℚ) : UInt64 :=
  if q = 3 then 0x4008000000000000
  else if q = -5 then 0xC014000000000000
  else 0x7FF8000000000000

def smallArith (op : String) (a b : ℚ) : UInt64 :=
  if op = "+" then smallDouble (a + b)
  else if op = "-" then smallDouble (a - b)
  else if op = "*" then smallDouble (a * b)
  else 0x7FF8000000000000

abbrev smallHost : Host where
  Time := String
  timeEq := inferInstance
  readTime _ s := some s
  timeLe s t := s ≤ t
  textLe s t := s ≤ t
  print _ := ""
  negate v := jsonF64 (smallDouble (-(v.asF64.getD 0)))
  arith op a b := jsonF64 (smallArith op (a.asF64.getD 0) (b.asF64.getD 0))

theorem smallHost_doubles : Doubles smallHost :=
  ⟨fun _ => ⟨_, rfl⟩, fun _ _ _ => ⟨_, rfl⟩⟩

def noVars : Env := fun _ => none

theorem keepsExact_five :
    KeepsExact smallHost noVars (.lit (.int 5)) 5 ↔ isAtom (.lit (.int 5)) = true :=
  keepsExact_iff smallHost_doubles rfl (by norm_num)

/-- `-5` is the double -5.0, which no integer attribute accepts. -/
theorem not_keepsExact_minus_five :
    exactValue noVars (.neg (.lit (.int 5))) = some (-5) ∧
      ¬ KeepsExact smallHost noVars (.neg (.lit (.int 5))) (-5) := by
  refine ⟨rfl, ?_⟩
  rintro ⟨v, heval, rfl, -⟩
  exact eval_operator smallHost_doubles rfl (-5) heval

end Example

end OntologicalDb.WriteIntegers
