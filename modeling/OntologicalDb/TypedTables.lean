import Mathlib.Algebra.Group.Int.Defs
import OntologicalDb.ExceptRules
import OntologicalDb.KeyedRows
import OntologicalDb.Labeling

/-!
Typed storage tables and the property payloads written to them: declared
properties are columns, everything else goes to the extension payload.
-/

namespace OntologicalDb.TypedTables

open OntologicalDb.ExceptRules
open OntologicalDb.KeyedRows
open OntologicalDb.Labeling
open OntologicalDb.TypeCatalog
open OntologicalDb.Values

/-- A row of a storage table; an edge table also has its two ends. -/
structure TypedRow where
  id : Int
  ends : Option (Int × Int)
  cols : List (String × Val)
  ext : Option Json
deriving DecidableEq

/-- A column of a row; a column never assigned is NULL. -/
def TypedRow.col (r : TypedRow) (name : String) : Val :=
  ((r.cols.find? fun c => c.1 = name).map (·.2)).getD .null

def TypedRow.setCol (r : TypedRow) (name : String) (v : Val) : TypedRow :=
  { r with cols := (name, v) :: r.cols.filter fun c => c.1 ≠ name }

/-- What a schema change touches: the catalog and the typed tables. -/
structure Schema where
  catalog : Catalog
  tables : List (StorageTable × TypedRow)
deriving DecidableEq

def rowsOf (s : Schema) (table : StorageTable) : List TypedRow :=
  (s.tables.filter fun r => r.1 = table).map (·.2)

/-- What a write is about to do. -/
inductive WriteOp
  | create
  | set
  | delete
deriving DecidableEq

/-- The caller and the server it runs on: its privileges, the casts between
column types, and the character tables behind column names. -/
structure Session where
  role : String
  canChangeSchema : Bool
  denied : StorageTable → WriteOp → List String → Option String
  cast : String → Val → Except String Val
  isAlphanumeric : Char → Bool
  toLowercase : Char → String

section Privileges

def trimStartMatches (pre : List Char) (fuel : Nat) (cs : List Char) : List Char :=
  match fuel with
  | 0 => cs
  | fuel + 1 =>
      if pre.isPrefixOf cs ∧ pre ≠ [] then
        trimStartMatches pre fuel (cs.drop pre.length)
      else cs

def propertyNameFor (c : Catalog) (tid : Int) (col : String) : String :=
  match c.properties.find? fun p => p.typeId = tid ∧ p.columnName = col with
  | some p => p.name
  | none => String.ofList (trimStartMatches ['p', '_'] col.length col.toList)

def WriteOp.verb : WriteOp → String
  | .create => "create"
  | .set => "set properties on"
  | .delete => "delete"

/-- Fail when the current role could not perform this write. -/
def checkWrite (s : Session) (c : Catalog) (tid : Int) (table : StorageTable)
    (op : WriteOp) (cols : List String) : Except String Unit :=
  match s.denied table op cols with
  | none => .ok ()
  | some col =>
      let what :=
        if col = "" then ""
        else if col = "__ext" then " (undeclared properties)"
        else if col = "id" ∨ col = "src" ∨ col = "dst" then ""
        else s!" (property '{propertyNameFor c tid col}')"
      .error s!"OG_WRITE_DENIED: role '{s.role}' may not {op.verb} '{typeNameOf c tid}'{what}"

def isReservedKey (k : String) : Bool :=
  k = "_id" || k = "_type" || k = "_src" || k = "_dst" || ['_', '_'].isPrefixOf k.toList

def keysOf : Json → List String
  | .obj kvs => kvs.map (·.1)
  | _ => []

/-- Refuse a property payload that names a reserved key. -/
def checkReservedKeys (props : Json) : Except String Unit :=
  match (keysOf props).find? isReservedKey with
  | none => .ok ()
  | some k =>
      .error (s!"OG_RESERVED_PROPERTY: '{k}' is system-managed and cannot be written. " ++
        "Names starting with '__' and the keys _id, _type, _src, _dst are reserved.")

end Privileges

section Columns

/-- Physical column name for a declared property. -/
def columnName (s : Session) (prop : String) : String :=
  "p_" ++ String.join (prop.toList.map fun c =>
    if c.isAlphanum || c = '_' then String.singleton c.toLower
    else if s.isAlphanumeric c then s.toLowercase c
    else "_")

/-- The column type a JSON value wants; arrays and objects want none. -/
def inferColumnType : Json → Option String
  | .bool _ => some "bool"
  | .num d =>
      some (if d.scale = 0 ∧ -2 ^ 63 ≤ d.coeff ∧ d.coeff < 2 ^ 64 then "int8" else "float8")
  | .str _ => some "text"
  | _ => none

/-- Column types a write is allowed to widen. -/
def widenable : List String := ["bool", "int8", "float8"]

/-- Can a column of the declared type hold a value that wants another? -/
def typeAccepts (declared wanted : String) : Bool :=
  declared = wanted || (declared, wanted) ∈
    [("float8", "int8"), ("numeric", "int8"), ("numeric", "float8")]

/-- Rewrite the rows of one table. -/
def mapTable (table : StorageTable) (f : TypedRow → Except String TypedRow) :
    List (StorageTable × TypedRow) → Except String (List (StorageTable × TypedRow))
  | [] => .ok []
  | (t, r) :: rest => do
      let r' ← if t = table then f r else pure r
      let rest' ← mapTable table f rest
      return (t, r') :: rest'

/-- Move a value from the extension payload into its new column. -/
def promote (s : Session) (prop col dtype : String) (r : TypedRow) :
    Except String TypedRow :=
  match r.ext with
  | some (.obj kvs) =>
      if kvs.any fun kv => kv.1 = prop then do
        let v ← s.cast dtype ((Json.obj kvs).getText prop)
        return { r.setCol col v with ext := some (.obj (kvs.filter fun kv => kv.1 ≠ prop)) }
      else .ok r
  | _ => .ok r

def declare (tid : Int) (prop dtype col : String) (c : Catalog) : Catalog :=
  if c.properties.any fun p => p.typeId = tid ∧ p.name = prop then c
  else { c with properties := c.properties ++ [⟨tid, prop, dtype, col, false, false⟩] }

/-- Declare an optional property on a type and every descendant that has a
table. -/
def addProperty (s : Session) (tid : Int) (prop dtype : String) (st : Schema) :
    Except String Schema := do
  let col := columnName s prop
  require (¬ st.catalog.properties.any fun p => p.typeId = tid ∧ p.name = prop)
    "property insert failed: duplicate key value"
  let st := { st with catalog := declare tid prop dtype col st.catalog }
  (ogSubtypes st.catalog tid).foldlM (fun st sub =>
    match storageTable st.catalog sub with
    | none => pure st
    | some table => do
        let tables ← mapTable table (promote s prop col dtype) st.tables
        return { catalog := declare sub prop dtype col st.catalog, tables := tables }) st

/-- Turn a column into text on a type and its descendants. -/
def widenProperty (s : Session) (tid : Int) (prop col : String) (st : Schema) :
    Except String Schema := do
  let subs := ogSubtypes st.catalog tid
  let tables ← subs.foldlM (fun tables sub =>
    match storageTable st.catalog sub with
    | none => pure tables
    | some table =>
        mapTable table (fun r => return r.setCol col (← s.cast "text" (r.col col))) tables)
    st.tables
  let properties := update (fun p : Property => p.typeId ∈ subs ∧ p.name = prop)
    (fun p => { p with dataType := "text" }) st.catalog.properties
  return { catalog := { st.catalog with properties := properties }, tables := tables }

/-- Declare the properties of a payload that the type has not seen, and widen
the inferred columns its values no longer fit. -/
def declareNewProps (s : Session) (tid : Int) (props : Json) (st : Schema) :
    Except String Schema :=
  let existing := propertiesOf st.catalog tid
  let known (key : String) := existing.find? fun p => p.name = key
  let needs (kv : String × Json) : Bool :=
    match inferColumnType kv.2, known kv.1 with
    | none, _ => false
    | some _, none => true
    | some want, some p => p.dataType ∈ widenable && !typeAccepts p.dataType want
  match props with
  | .obj kvs =>
      if !kvs.any needs || !s.canChangeSchema then .ok st
      else
        (kvs.filter needs).foldlM (fun st kv =>
          match inferColumnType kv.2, known kv.1 with
          | some want, none => addProperty s tid kv.1 want st
          | some _, some p => widenProperty s tid kv.1 p.columnName st
          | none, _ => pure st) st
  | _ => .ok st

/-- The columns a payload assigns, with their values, and what is left over for
the extension payload. -/
structure PropPlan where
  columns : List (String × Val)
  declared : List String
  extNeeded : Bool

def stripArray (dtype : String) : Option String :=
  if ['[', ']'].isSuffixOf dtype.toList then
    some (String.ofList (dtype.toList.take (dtype.length - 2)))
  else none

/-- The value of `(payload ->> name)::dtype`, or of an array built from it. -/
def columnValue (s : Session) (dtype : String) (props : Json) (name : String) :
    Except String Val :=
  match stripArray dtype, props.get? name with
  | some elem, some (.arr xs) => do
      let vs ← xs.mapM fun x => s.cast elem ((Json.obj [("x", x)]).getText "x")
      return if vs = [] then .null else .array vs
  | some _, _ => .error "cannot extract elements from a scalar"
  | none, _ => s.cast dtype (props.getText name)

def planProps (s : Session) (tid : Int) (props : Json) (st : Schema) :
    Except String (Schema × PropPlan) := do
  checkReservedKeys props
  let st ← declareNewProps s tid props st
  let rows := propertiesOf st.catalog tid
  let declared := rows.map (·.name)
  let columns ← (rows.filter fun p => (props.get? p.name).isSome).mapM fun p =>
    return (p.columnName, ← columnValue s p.dataType props p.name)
  return (st, { columns := columns, declared := declared
                extNeeded := (keysOf props).any fun k => k ∉ declared })

/-- The extension payload: the undeclared members, NULL when there are none. -/
def extValue (plan : PropPlan) : Json → Option Json
  | .obj kvs =>
      let rest := kvs.filter fun kv => kv.1 ∉ plan.declared
      if rest = [] then none else some (.obj rest)
  | props => some props

end Columns

/-- Insert a row under the constraints of its table: the primary key, required
columns and key columns. -/
def insertTyped (st : Schema) (table : StorageTable) (r : TypedRow) :
    Except String Schema :=
  let declared := propertiesOf st.catalog table.typeId
  if (rowsOf st table).any fun q => q.id = r.id then .error "duplicate key value"
  else if declared.any fun p => p.required && r.col p.columnName = .null then
    .error "null value in column violates not-null constraint"
  else if declared.any fun p => p.isKey && r.col p.columnName ≠ .null &&
      (rowsOf st table).any fun q => q.col p.columnName = r.col p.columnName then
    .error "duplicate key value violates unique constraint"
  else .ok { st with tables := st.tables ++ [(table, r)] }

def deleteTyped (st : Schema) (table : StorageTable) (id : Int) : Schema :=
  { st with tables := st.tables.filter fun r => ¬ (r.1 = table ∧ r.2.id = id) }

end OntologicalDb.TypedTables
