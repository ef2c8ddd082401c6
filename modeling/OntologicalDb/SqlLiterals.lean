import OntologicalDb.Sql
import OntologicalDb.StringConstants

/-!
The functions that write SQL string constants, and the constants PostgreSQL reads in
either setting of `standard_conforming_strings`.
-/

namespace OntologicalDb.SqlLiterals

open OntologicalDb.Sql
open OntologicalDb.StringConstants

section Writers

def quoteJsonKey (k : String) : String :=
  "'" ++ String.ofList (k.toList.flatMap double) ++ "'"

/-- A declared property in the array that `ext_expr` subtracts. -/
def extItem (d : String) : String := "'" ++ String.ofList (d.toList.flatMap double) ++ "'"

/-- The declared properties of a plan are taken out of the payload. -/
def extExpr (declared : List String) (param : String) : String :=
  if declared = [] then "NULLIF(" ++ param ++ ", '\x7b\x7d'::jsonb)"
  else
    let list := String.intercalate "," (declared.map extItem)
    "NULLIF(" ++ param ++ " - ARRAY[" ++ list ++ "]::text[], '\x7b\x7d'::jsonb)"

/-- `spiu::lit`: a string with a backslash gets the explicit escape form. -/
def lit (s : String) : String :=
  if '\\' ∈ s.toList then " E'" ++ String.ofList (s.toList.flatMap doubleBoth) ++ "'"
  else "'" ++ String.ofList (s.toList.flatMap double) ++ "'"

inductive Writer
  | sqlStr
  | quoteJsonKey
  | extExpr
  | lit
deriving DecidableEq

def Writer.write : Writer → String → String
  | .sqlStr => Sql.sqlStr
  | .quoteJsonKey => SqlLiterals.quoteJsonKey
  | .extExpr => extItem
  | .lit => SqlLiterals.lit

end Writers

section Reading

def nul : Char := Char.ofNat 0

/-- The text reaches the server, which reads it as one constant with this value; a NUL
ends a query text. -/
def ReadsAs (conforming : Bool) (text s : String) : Prop :=
  nul ∉ text.toList ∧ constant conforming text.toList = some (encode s.toList, [])

variable {conforming : Bool} {s : String}

theorem apart_nil : Apart [] := ⟨nofun, rfl⟩

theorem constant_quote (r : List Char) :
    constant conforming ('\'' :: r) = quoted (!conforming) r := by
  rw [constant, List.dropWhile_cons_of_neg (by decide)]
  rfl

theorem constant_escape (r : List Char) :
    constant conforming (' ' :: 'E' :: '\'' :: r) = quoted true r := by
  rw [constant, List.dropWhile_cons_of_pos (by decide), List.dropWhile_cons_of_neg (by decide)]
  rfl

theorem mem_double {c d : Char} : c ∈ double d ↔ c = d := by
  unfold double
  split <;> simp

theorem mem_doubleBoth {c d : Char} : c ∈ doubleBoth d ↔ c = d := by
  unfold doubleBoth
  split <;> simp

/-- The text of a plain constant. -/
theorem toList_plain (s : String) :
    ("'" ++ String.ofList (s.toList.flatMap double) ++ "'").toList =
      '\'' :: (s.toList.flatMap double ++ ['\'']) := by
  simp

theorem toList_escape (s : String) :
    (" E'" ++ String.ofList (s.toList.flatMap doubleBoth) ++ "'").toList =
      ' ' :: 'E' :: '\'' :: (s.toList.flatMap doubleBoth ++ ['\'']) := by
  simp

theorem readsAs_plain_iff :
    ReadsAs conforming ("'" ++ String.ofList (s.toList.flatMap double) ++ "'") s ↔
      nul ∉ s.toList ∧ (conforming = true ∨ '\\' ∉ s.toList) := by
  have hnul : nul ∉ '\'' :: (s.toList.flatMap double ++ ['\'']) ↔ nul ∉ s.toList := by
    have hne : nul ≠ '\'' := by decide
    simp [mem_double, hne]
  rw [ReadsAs, toList_plain, hnul, constant_quote]
  refine and_congr_right fun _ => ⟨fun h => ?_, fun h => ?_⟩
  · cases conforming with
    | true => exact .inl rfl
    | false => exact .inr fun hmem => quoted_double_ne hmem h
  · refine quoted_flatMap_double (fun hesc => ?_) apart_nil
    rcases h with rfl | h
    · cases hesc
    · exact h

theorem readsAs_escape_iff :
    ReadsAs conforming (" E'" ++ String.ofList (s.toList.flatMap doubleBoth) ++ "'") s ↔
      nul ∉ s.toList := by
  have hnul : nul ∉ ' ' :: 'E' :: '\'' :: (s.toList.flatMap doubleBoth ++ ['\'']) ↔
      nul ∉ s.toList := by
    have h₁ : nul ≠ ' ' := by decide
    have h₂ : nul ≠ 'E' := by decide
    have h₃ : nul ≠ '\'' := by decide
    simp [mem_doubleBoth, h₁, h₂, h₃]
  rw [ReadsAs, toList_escape, hnul, constant_escape]
  exact and_iff_left (quoted_flatMap_doubleBoth apart_nil)

/-- A written constant reads back as its string: the explicit escape form always, the
others where a backslash is no escape. -/
theorem readsAs_write_iff (w : Writer) (conforming : Bool) (s : String) :
    ReadsAs conforming (w.write s) s ↔
      nul ∉ s.toList ∧ (w = .lit ∨ conforming = true ∨ '\\' ∉ s.toList) := by
  have hplain (w : Writer) (hw : w ≠ .lit) :
      (nul ∉ s.toList ∧ (w = .lit ∨ conforming = true ∨ '\\' ∉ s.toList)) ↔
        nul ∉ s.toList ∧ (conforming = true ∨ '\\' ∉ s.toList) :=
    and_congr_right fun _ => or_iff_right hw
  cases w with
  | sqlStr => exact readsAs_plain_iff.trans (hplain _ (by decide)).symm
  | quoteJsonKey => exact readsAs_plain_iff.trans (hplain _ (by decide)).symm
  | extExpr => exact readsAs_plain_iff.trans (hplain _ (by decide)).symm
  | lit =>
      rw [Writer.write, lit]
      split
      next hmem => simpa using readsAs_escape_iff
      next hmem =>
        refine readsAs_plain_iff.trans (and_congr_right fun _ => ?_)
        exact iff_of_true (.inr hmem) (.inl rfl)

/-- With backslashes as escapes, a string of one backslash swallows the end of its
constant. -/
theorem not_readsAs_backslash : ¬ ∀ (w : Writer) (conforming : Bool) (s : String),
    ReadsAs conforming (w.write s) s := by
  intro h
  have hread : ReadsAs false ("'" ++ String.ofList ("\\".toList.flatMap double) ++ "'") "\\" :=
    h .sqlStr false "\\"
  rcases (readsAs_plain_iff.mp hread).2 with h | h
  · cases h
  · exact h (by decide)

end Reading

end OntologicalDb.SqlLiterals
