import OntologicalDb.TypeqlWriteRules

/-!
The `@values` and `@range` annotations of attribute types, and the attribute instances that the
write stages store.
-/

namespace OntologicalDb.TypeqlValueConstraints

open OntologicalDb.ExceptRules
open OntologicalDb.TypeqlSyntax
open OntologicalDb.TypeqlPipeline
open OntologicalDb.TypeqlWrites
open OntologicalDb.TypeqlWriteRules

section Specification

variable (H : Host) (S : Schema)

/-- The number a JSON value is. -/
def number : Value → Option ℚ
  | .int i => some i
  | .float bits => some (Binary64.value bits)
  | _ => none

/-- The order of stored values of one type. -/
def CellLe : Cell H.Time → Cell H.Time → Prop
  | .text s, .text t => H.textLe s t
  | .int8 i, .int8 j => i ≤ j
  | .double x, .double y => x ≤ y
  | .bool a, .bool b => a ≤ b
  | .time t, .time u => H.timeLe t u
  | _, _ => False

/-- A stored value is not below a bound: numbers are compared as numbers, other values as values
of the attribute's type. -/
def AtLeast (sqlTy : SqlType) (lo : Value) : Cell H.Time → Prop
  | .int8 i => ∃ q ∈ number lo, q ≤ i
  | .double x => ∃ q ∈ number lo, q ≤ x
  | cell => ∃ attr lit, typedLiteral H lo sqlTy attr = .ok lit ∧ CellLe H lit cell

def AtMost (sqlTy : SqlType) (hi : Value) : Cell H.Time → Prop
  | .int8 i => ∃ q ∈ number hi, i ≤ q
  | .double x => ∃ q ∈ number hi, x ≤ q
  | cell => ∃ attr lit, typedLiteral H hi sqlTy attr = .ok lit ∧ CellLe H cell lit

/-- The value is one of those allowed, if any are listed, and in the range, if there is one. -/
def Satisfies (sqlTy : SqlType) (p : Params) (cell : Cell H.Time) : Prop :=
  (p.values = [] ∨ ∃ a ∈ p.values, ∃ attr, typedLiteral H a sqlTy attr = .ok cell) ∧
    ∀ r ∈ p.range, (r.1 = .null ∨ AtLeast H sqlTy r.1 cell) ∧
      (r.2 = .null ∨ AtMost H sqlTy r.2 cell)

/-- The column type of an attribute type. -/
def sqlTypeOf (attrTid : Nat) : Option SqlType :=
  match S.valueTypeOf attrTid with
  | none => none
  | some vt => (valueTypeSql vt).toOption

/-- Every stored value satisfies the annotations of its attribute type and of each supertype. -/
def ValuesHold (σ : Store H) : Prop :=
  ∀ a ∈ σ.attrs, ∃ sqlTy, sqlTypeOf S a.typeId = some sqlTy ∧
    ∀ c ∈ S.valueRows a.typeId, Satisfies H sqlTy c.params a.val

/-! What the check covers -/

/-- A bound the check compares exactly: an integer below `2 ^ 53`, or a number that is a double. -/
def BoundCovered (sqlTy : SqlType) (b : Value) : Prop :=
  b = .null ∨
    match sqlTy with
    | .int8 => ∃ q ∈ number b, |q| < 2 ^ 53
    | .float8 | .numeric => ∃ q, number b = some q ∧ b.asF64 = some q
    | _ => False

/-- Annotations the check enforces. -/
def Covered (sqlTy : SqlType) (p : Params) : Prop :=
  (sqlTy = .text → ∀ bits, .float bits ∉ p.values) ∧
    ∀ r ∈ p.range, BoundCovered sqlTy r.1 ∧ BoundCovered sqlTy r.2

/-- An attribute type whose rows of value constraints the check all enforces: the first admits no
value that another does not. -/
def Checked (attr : String) : Prop :=
  ∀ attrTid, S.tryTypeId attr = some attrTid → ∀ sqlTy, sqlTypeOf S attrTid = some sqlTy →
    ∀ c ∈ S.valueRows attrTid, Covered sqlTy c.params ∧
      ∀ v, checkValueConstraints S attrTid attr v = .ok () → checkParams v attr c.params = .ok ()

end Specification

section Check

variable {H : Host} {S : Schema}

/-! Literals -/

/-- An allowed value that is the same as the one written reads as the one stored. -/
theorem typedLiteral_of_same {a v : Value} {sqlTy : SqlType} {attr : String} {lit : Cell H.Time}
    (htext : sqlTy = .text → ∀ bits, a ≠ .float bits) (hsame : a.same v = true)
    (h : typedLiteral H v sqlTy attr = .ok lit) : typedLiteral H a sqlTy attr = .ok lit := by
  by_cases heq : a = v
  · rw [heq]
    exact h
  · -- two doubles of one value
    have hdoubles : ∃ b c, a = .float b ∧ v = .float c ∧ Binary64.value b = Binary64.value c := by
      cases a <;> cases v <;> simp_all [Value.same]
    obtain ⟨b, c, rfl, rfl, hvalue⟩ := hdoubles
    cases sqlTy with
    | text => exact absurd rfl (htext rfl b)
    | int8 => cases h
    | float8 =>
        rw [typedLiteral, Value.asF64, hvalue]
        exact h
    | numeric =>
        rw [typedLiteral, Value.asF64, hvalue]
        exact h
    | bool => cases h
    | date => cases h
    | timestamp => cases h
    | timestamptz => cases h
    | interval => cases h

theorem typedLiteral_int8 {v : Value} {attr : String} {lit : Cell H.Time}
    (h : typedLiteral H v .int8 attr = .ok lit) : ∃ i, v = .int i ∧ lit = .int8 i := by
  cases v with
  | int i =>
      rw [typedLiteral, Value.asI64] at h
      split at h
      · next heq =>
        split at heq
        · obtain rfl := Option.some.inj heq
          exact ⟨i, rfl, (pure_eq_ok.mp h).symm⟩
        · cases heq
      · cases h
  | null => cases h
  | bool b => cases h
  | float bits => cases h
  | str s => cases h

theorem typedLiteral_double {v : Value} {sqlTy : SqlType} {attr : String} {lit : Cell H.Time}
    (hty : sqlTy = .float8 ∨ sqlTy = .numeric) (h : typedLiteral H v sqlTy attr = .ok lit) :
    ∃ x, v.asF64 = some x ∧ lit = .double x := by
  obtain rfl | rfl := hty <;>
  · rw [typedLiteral] at h
    split at h
    · next x hx => exact ⟨x, hx, (pure_eq_ok.mp h).symm⟩
    · cases h

/-! The range -/

theorem checkBounds_eq_ok {v : Value} {attr : String} {r : Value × Value}
    (h : checkBounds v attr r = .ok ()) :
    (∀ x ∈ v.asF64, ∀ lo ∈ r.1.asF64, lo ≤ x) ∧ ∀ x ∈ v.asF64, ∀ hi ∈ r.2.asF64, x ≤ hi := by
  rw [checkBounds] at h
  obtain ⟨_, hlo, hhi⟩ := bind_eq_ok.mp h
  constructor
  · intro x hx lo hmem
    exact not_lt.mp (require_eq_ok.mp hlo x hx lo hmem)
  · intro x hx hi hmem
    exact not_lt.mp (require_eq_ok.mp hhi x hx hi hmem)

theorem asF64_of_lt {b : Value} {q : ℚ} (hq : number b = some q) (hlt : |q| < 2 ^ 53) :
    b.asF64 = some q := by
  cases b with
  | int i =>
      obtain rfl := Option.some.inj hq
      have hi : i.natAbs < 2 ^ 53 := by
        have hcast : ((|i| : Int) : ℚ) < (2 ^ 53 : Int) := by
          push_cast
          exact hlt
        have habs : |i| < 2 ^ 53 := by exact_mod_cast hcast
        rw [Int.abs_eq_natAbs] at habs
        exact_mod_cast habs
      rw [Value.asF64, Binary64.nearest_of_lt hi]
  | float bits => exact hq
  | null => cases hq
  | bool b => cases hq
  | str s => cases hq

theorem atLeast_of_check {v lo : Value} {sqlTy : SqlType} {attr : String} {lit : Cell H.Time}
    (hlit : typedLiteral H v sqlTy attr = .ok lit) (hcovered : BoundCovered sqlTy lo)
    (hcheck : ∀ x ∈ v.asF64, ∀ b ∈ lo.asF64, b ≤ x) : lo = .null ∨ AtLeast H sqlTy lo lit := by
  obtain hnull | hcovered := hcovered
  · exact .inl hnull
  right
  cases sqlTy with
  | int8 =>
      obtain ⟨q, hq, hlt⟩ := hcovered
      obtain ⟨i, rfl, rfl⟩ := typedLiteral_int8 hlit
      have hle := hcheck _ rfl q (asF64_of_lt hq hlt)
      exact ⟨q, hq, not_lt.mp fun hi => absurd hle (not_le.mpr ((Binary64.nearest_lt_iff hlt).mpr hi))⟩
  | float8 =>
      obtain ⟨q, hq, hdouble⟩ := hcovered
      obtain ⟨x, hx, rfl⟩ := typedLiteral_double (.inl rfl) hlit
      exact ⟨q, hq, hcheck x hx q hdouble⟩
  | numeric =>
      obtain ⟨q, hq, hdouble⟩ := hcovered
      obtain ⟨x, hx, rfl⟩ := typedLiteral_double (.inr rfl) hlit
      exact ⟨q, hq, hcheck x hx q hdouble⟩
  | text => cases hcovered
  | bool => cases hcovered
  | date => cases hcovered
  | timestamp => cases hcovered
  | timestamptz => cases hcovered
  | interval => cases hcovered

theorem atMost_of_check {v hi : Value} {sqlTy : SqlType} {attr : String} {lit : Cell H.Time}
    (hlit : typedLiteral H v sqlTy attr = .ok lit) (hcovered : BoundCovered sqlTy hi)
    (hcheck : ∀ x ∈ v.asF64, ∀ b ∈ hi.asF64, x ≤ b) : hi = .null ∨ AtMost H sqlTy hi lit := by
  obtain hnull | hcovered := hcovered
  · exact .inl hnull
  right
  cases sqlTy with
  | int8 =>
      obtain ⟨q, hq, hlt⟩ := hcovered
      obtain ⟨i, rfl, rfl⟩ := typedLiteral_int8 hlit
      have hle := hcheck _ rfl q (asF64_of_lt hq hlt)
      exact ⟨q, hq, not_lt.mp fun hi => absurd hle (not_le.mpr ((Binary64.lt_nearest_iff hlt).mpr hi))⟩
  | float8 =>
      obtain ⟨q, hq, hdouble⟩ := hcovered
      obtain ⟨x, hx, rfl⟩ := typedLiteral_double (.inl rfl) hlit
      exact ⟨q, hq, hcheck x hx q hdouble⟩
  | numeric =>
      obtain ⟨q, hq, hdouble⟩ := hcovered
      obtain ⟨x, hx, rfl⟩ := typedLiteral_double (.inr rfl) hlit
      exact ⟨q, hq, hcheck x hx q hdouble⟩
  | text => cases hcovered
  | bool => cases hcovered
  | date => cases hcovered
  | timestamp => cases hcovered
  | timestamptz => cases hcovered
  | interval => cases hcovered

/-- A written value that passes the check satisfies annotations the check covers. -/
theorem satisfies_of_check {v : Value} {sqlTy : SqlType} {attr : String} {lit : Cell H.Time}
    {p : Params} (hlit : typedLiteral H v sqlTy attr = .ok lit) (hcovered : Covered sqlTy p)
    (h : checkParams v attr p = .ok ()) : Satisfies H sqlTy p lit := by
  rw [checkParams] at h
  obtain ⟨_, hvalues, hrange⟩ := bind_eq_ok.mp h
  constructor
  · obtain hnil | hany := require_eq_ok.mp hvalues
    · exact .inl hnil
    · obtain ⟨a, ha, hsame⟩ := List.any_eq_true.mp hany
      refine .inr ⟨a, ha, attr, typedLiteral_of_same ?_ hsame hlit⟩
      rintro htext bits rfl
      exact hcovered.1 htext bits ha
  · intro r hr
    obtain ⟨hlo, hhi⟩ := hcovered.2 r hr
    rw [hr] at hrange
    obtain ⟨hcheckLo, hcheckHi⟩ := checkBounds_eq_ok hrange
    exact ⟨atLeast_of_check hlit hlo hcheckLo, atMost_of_check hlit hhi hcheckHi⟩

/-- One stage after the other stores only values that satisfy their annotations. -/
theorem valuesHold_invariant : Invariant S (Checked S) (ValuesHold H S) := by
  constructor
  · intro σ σ' hσ hshrinks a ha
    exact hσ a (hshrinks.attrs.mem ha)
  · intro owner id attr value σ σ₁ σ' hchecked hσ hintern hlink
    have hattrs : σ'.attrs = σ₁.attrs := by
      obtain ⟨rfl, -⟩ | ⟨-, -, hattrs, -⟩ := linkHas_eq_ok hlink
      · rfl
      · exact hattrs
    obtain ⟨attrTid, anns, vt, sqlTy, lit, htype, -, hvt, hsql, hlit, hvalue, -, hlookup⟩ :=
      internAttribute_eq_ok hintern
    have hsqlType : sqlTypeOf S attrTid = some sqlTy := by
      rw [sqlTypeOf, hvt]
      dsimp only
      rw [hsql]
      rfl
    intro a ha
    rw [hattrs] at ha
    obtain ⟨rfl, -⟩ | ⟨-, -, -, hnew, -, -⟩ := lookupOrCreate_eq_ok hlookup
    · exact hσ a ha
    · rw [hnew] at ha
      obtain rfl | ha := List.mem_cons.mp ha
      · refine ⟨sqlTy, hsqlType, ?_⟩
        intro c hc
        obtain ⟨hcovered, hadmits⟩ := hchecked attrTid htype sqlTy hsqlType c hc
        exact satisfies_of_check hlit hcovered (hadmits value hvalue)
      · exact hσ a ha

/-- In every store that successful stages lead to, the stored values satisfy the annotations, if
the attribute types the stages write are ones the check covers. -/
theorem values_hold {findOne : FindOne H} {ws : List Writing} {σ : Store H}
    (h : Reached S findOne ws σ) (hchecked : ∀ w ∈ ws, ∀ a ∈ writtenAttributes w, Checked S a) :
    ValuesHold H S σ := by
  apply reached_invariant valuesHold_invariant _ h hchecked
  intro a ha
  cases ha

end Check

/-! A school -/

/-- Times are their ISO texts. -/
abbrev isoHost : Host where
  Time := String
  timeEq := inferInstance
  readTime _ s := some s
  timeLe s t := s ≤ t
  textLe s t := s ≤ t
  print v :=
    match v with
    | .null => "null"
    | .bool b => toString b
    | .int i => toString i
    | .float bits => toString (Binary64.value bits)
    | .str s => "\"" ++ s ++ "\""
  negate v :=
    match v with
    | .int i => .int (-i)
    | _ => .null
  arith _ _ _ := .null

def noParams : Params := ⟨false, false, none, [], none⟩

/-- `entity being; entity pupil sub being, owns age, owns grade;
attribute age, value integer @range(0..99); attribute grade, value string @range("a".."f");` -/
def school : Schema where
  types := [⟨1, "$has", .r, true⟩, ⟨2, "being", .e, true⟩, ⟨3, "pupil", .e, true⟩,
    ⟨4, "age", .a, true⟩, ⟨5, "grade", .a, true⟩]
  labels := [⟨1, 1, 1025, 0⟩, ⟨3, 3073, 4097, 1⟩, ⟨2, 2049, 5121, 0⟩, ⟨4, 6145, 7169, 0⟩,
    ⟨5, 8193, 9217, 0⟩]
  constraints := [⟨4, "value", some "integer", noParams⟩, ⟨5, "value", some "string", noParams⟩,
    ⟨3, "owns", some "age", noParams⟩, ⟨3, "owns", some "grade", noParams⟩,
    ⟨4, "values", none, { noParams with range := some (.int 0, .int 99) }⟩,
    ⟨5, "values", none, { noParams with range := some (.str "a", .str "f") }⟩]
  roles := []
  virtual := []
  hasType := 1

/-- No match finds anything. -/
def findNothing : FindOne isoHost := fun _ _ _ _ => .ok none

/-- `insert $x isa pupil, has ⟨attr⟩ ⟨value⟩;` -/
def enrol (attr : String) (value : Lit) : Writing :=
  .insert [.isa "x" "pupil" false, .has "x" (some attr) (.cmp .eq (.lit value))]

/-- The rows of the attribute tables behind a stage on the empty store. -/
def enrolled (w : Writing) : Except String (List (Nat × Cell String)) :=
  (runWriting school findNothing 1 w (fun _ => none) (Store.empty isoHost)).map fun r =>
    r.2.attrs.map fun a => (a.typeId, a.val)

theorem reached_of_enrolled {w : Writing} {rows : List (Nat × Cell String)}
    (h : enrolled w = .ok rows) : ∃ σ : Store isoHost, Reached school findNothing [w] σ ∧
      σ.attrs.map (fun a => (a.typeId, a.val)) = rows := by
  obtain ⟨⟨env, σ⟩, hrun, hrows⟩ := map_eq_ok.mp h
  exact ⟨σ, Reached.step [] w _ σ _ env 1 Reached.empty hrun, hrows⟩

theorem checked_age : Checked school "age" := by
  intro attrTid htype sqlTy hsql
  obtain rfl : 4 = attrTid := Option.some.inj htype
  obtain rfl : SqlType.int8 = sqlTy := by
    have hint : sqlTypeOf school 4 = some .int8 := by decide
    exact Option.some.inj (hint.symm.trans hsql)
  have hrows : school.valueRows 4 =
      [⟨4, "values", none, { noParams with range := some (.int 0, .int 99) }⟩] := rfl
  intro c hc
  rw [hrows] at hc
  obtain rfl := List.mem_singleton.mp hc
  constructor
  · refine ⟨fun htext => absurd htext (by decide), ?_⟩
    intro r hr
    obtain rfl := Option.some.inj hr
    exact ⟨.inr ⟨0, rfl, by norm_num⟩, .inr ⟨99, rfl, by norm_num⟩⟩
  · intro v hv
    rw [checkValueConstraints, hrows] at hv
    exact hv

theorem values_hold_age : ∃ σ : Store isoHost,
    Reached school findNothing [enrol "age" (.int 12)] σ ∧
      σ.attrs.map (fun a => (a.typeId, a.val)) = [(4, .int8 12)] ∧
      ValuesHold isoHost school σ := by
  obtain ⟨σ, hreached, hrows⟩ := @reached_of_enrolled (enrol "age" (.int 12)) [(4, .int8 12)]
    (by decide)
  refine ⟨σ, hreached, hrows, values_hold hreached ?_⟩
  intro w hw a ha
  obtain rfl := List.mem_singleton.mp hw
  obtain rfl := List.mem_singleton.mp ha
  exact checked_age

/-- The range of a string attribute is not enforced. -/
theorem not_values_hold_grade : ∃ σ : Store isoHost,
    Reached school findNothing [enrol "grade" (.str "z")] σ ∧
      σ.attrs.map (fun a => (a.typeId, a.val)) = [(5, .text "z")] ∧
      ¬ ValuesHold isoHost school σ := by
  obtain ⟨σ, hreached, hrows⟩ := @reached_of_enrolled (enrol "grade" (.str "z")) [(5, .text "z")]
    (by decide)
  refine ⟨σ, hreached, hrows, ?_⟩
  intro hhold
  have hmem : (5, Cell.text "z") ∈ σ.attrs.map fun a => (a.typeId, a.val) := by
    rw [hrows]
    exact List.mem_singleton_self _
  obtain ⟨a, ha, heq⟩ := List.mem_map.mp hmem
  obtain ⟨htype, hval⟩ := Prod.mk.inj heq
  obtain ⟨sqlTy, hsql, hsatisfies⟩ := hhold a ha
  rw [htype] at hsql hsatisfies
  have htext : sqlTypeOf school 5 = some .text := by decide
  obtain rfl := Option.some.inj (htext.symm.trans hsql)
  have hrows : school.valueRows 5 =
      [⟨5, "values", none, { noParams with range := some (.str "a", .str "f") }⟩] := rfl
  have hrange := (hsatisfies _ (hrows ▸ List.mem_singleton_self _)).2 (.str "a", .str "f") rfl
  rw [hval] at hrange
  obtain hnull | ⟨attr, lit, hlit, hle⟩ := hrange.2
  · cases hnull
  · obtain rfl := pure_eq_ok.mp hlit
    change "z" ≤ "f" at hle
    exact absurd hle (by decide)

end OntologicalDb.TypeqlValueConstraints
