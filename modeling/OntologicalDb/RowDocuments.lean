import OntologicalDb.GraphStorage

/-!
Rows as queries read them: the union view of a type, and the jsonb document of
an element whose type is found at run time.
-/

namespace OntologicalDb.RowDocuments

open OntologicalDb.GraphStorage
open OntologicalDb.Labeling
open OntologicalDb.TypeCatalog
open OntologicalDb.TypedTables
open OntologicalDb.Values

/-- A row of any relation; a column it lacks is NULL. -/
abbrev Tuple := String → Val

def nullTuple : Tuple := fun _ => .null

mutual

/-- `to_jsonb` of a column value. -/
def toJson : Val → Json
  | .null => .null
  | .bool b => .bool b
  | .int i => .num ⟨i, 0⟩
  | .float d => .num d
  | .text s => .str s
  | .json j => j
  | .array xs => .arr (toJsonList xs)
  | .other _ text => .str text

def toJsonList : List Val → List Json
  | [] => []
  | x :: xs => toJson x :: toJsonList xs

end

/-- `a || b` on two documents: the members of the right one win. -/
def concatJson : Json → Json → Json
  | .obj a, .obj b => .obj (a.filter (fun kv => ¬ b.any fun kw => kw.1 = kv.1) ++ b)
  | a, _ => a

section Views

variable (c : Catalog)

/-- The properties visible on a type or any of its descendants, by name. -/
def viewProperty? (tid : Int) (name : String) : Option (String × String) :=
  ((c.properties.filter fun p => p.typeId ∈ ogSubtypes c tid).reverse.find? fun p =>
    p.name = name).map fun p => (p.columnName, p.dataType)

def viewProperties (tid : Int) : List (String × String × String) :=
  let names := (c.properties.filter fun p => p.typeId ∈ ogSubtypes c tid).map (·.name)
  (names.dedup.insertionSort (· ≤ ·)).filterMap fun name =>
    (viewProperty? c tid name).map fun p => (name, p)

/-- The tables a type's instances are in, as nodes or as edges. -/
def concreteTables (tid : Int) (wantEdge : Bool) : List (Int × StorageTable) :=
  let subs := ogSubtypes c tid
  ((c.types.filter fun t => t.typeId ∈ subs).insertionSort fun t u =>
    t.typeId ≤ u.typeId).filterMap fun t =>
      match t.storageTable with
      | none => none
      | some table => if (table.shape = .edge) = wantEdge then some (t.typeId, table) else none

/-- A type is versioned when one of its supertypes was made temporal. -/
def isTemporal (tid : Int) : Bool := (ogSupertypes c tid).any fun t => t ∈ c.temporal

def temporalTables (gid : Int) (shape : TableShape) : List Int :=
  (((c.types.filter fun t =>
    t.graphId = gid ∧ (t.storageTable.map (·.shape)) = some shape).map
      (·.typeId)).insertionSort (· ≤ ·)).filter fun t => isTemporal c t

end Views

/-- What a session sees of a versioned table: the current and the history rows
visible at its instants. -/
abbrev AsOf := StorageTable → List TypedRow

/-- A row of a union view. -/
def viewTuple (tid : Int) (r : TypedRow) : Tuple := fun col =>
  if col = "id" then .int r.id
  else if col = "type_id" then .int tid
  else if col = "src" then (r.ends.map fun e => Val.int e.1).getD .null
  else if col = "dst" then (r.ends.map fun e => Val.int e.2).getD .null
  else if col = "__ext" then (r.ext.map Val.json).getD .null
  else r.col col

def sourceRows (s : Schema) (asOf : AsOf) (tid : Int) (table : StorageTable) :
    List TypedRow :=
  if isTemporal s.catalog tid then asOf table else rowsOf s table

/-- The rows of the view `ensure_view` builds for a type. -/
def viewRows (s : Schema) (asOf : AsOf) (tid : Int) (isEdge : Bool) : List Tuple :=
  (concreteTables s.catalog tid isEdge).flatMap fun sub =>
    (sourceRows s asOf sub.1 sub.2).map (viewTuple sub.1)

/-- A row of the node registry. -/
def registryTuple (n : NodeRow) : Tuple := fun col =>
  if col = "id" then .int n.id
  else if col = "type_id" then .int n.typeId
  else .null

section Documents

/-- The declared properties and the extension members of a typed row. -/
def rowDocument (c : Catalog) (tid : Int) (fixed : List (String × Json)) (r : TypedRow) :
    Json :=
  let mapped := ((propertiesOf c tid).filter fun p =>
    ¬ (toJson (r.col p.columnName)).isNull).map fun p => (p.name, toJson (r.col p.columnName))
  let ext := match r.ext with
    | some (.obj kvs) => Json.obj kvs
    | _ => .obj []
  concatJson (concatJson (.obj fixed) (.obj mapped)) ext

def elementJson (s : Schema) (id tid : Int) (ends : List (String × Json)) : Val :=
  match typeRow? s.catalog tid with
  | none => .null
  | some t =>
      match t.storageTable with
      | none => .null
      | some table =>
          match (rowsOf s table).find? fun r => r.id = id with
          | none => .null
          | some r =>
              .json (rowDocument s.catalog tid
                ([("_id", .num ⟨id, 0⟩), ("_type", .str t.name)] ++ ends) r)

def ogNodeJson (st : Store) (id : Int) : Val :=
  match st.ogNode.find? fun n => n.id = id with
  | none => .null
  | some n => elementJson st.schema id n.typeId []

def ogEdgeJson (st : Store) (id : Int) : Val :=
  match st.ogEdge.find? fun e => e.id = id with
  | none => .null
  | some e =>
      elementJson st.schema id e.typeId
        [("_src", .num ⟨e.src, 0⟩), ("_dst", .num ⟨e.dst, 0⟩)]

def ogTypeName (c : Catalog) (tid : Int) : Val :=
  ((tryTypeName c tid).map Val.text).getD .null

end Documents

section Membership

variable {s : Schema} {asOf : AsOf} {tid : Int} {isEdge : Bool}

theorem mem_concreteTables {c : Catalog} {sub : Int} {table : StorageTable} :
    (sub, table) ∈ concreteTables c tid isEdge ↔
      ogIsSubtype c sub tid = true ∧ (table.shape = .edge ↔ isEdge = true) ∧
        ∃ t ∈ c.types, t.typeId = sub ∧ t.storageTable = some table := by
  simp only [concreteTables, List.mem_filterMap, List.mem_insertionSort, List.mem_filter,
    decide_eq_true_eq, mem_ogSubtypes]
  constructor
  · rintro ⟨t, ⟨ht, hsub⟩, hpair⟩
    cases htable : t.storageTable with
    | none => simp [htable] at hpair
    | some table' =>
        simp only [htable, Option.ite_none_right_eq_some, Option.some.injEq,
          Prod.mk.injEq] at hpair
        obtain ⟨hshape, rfl, rfl⟩ := hpair
        exact ⟨hsub, by simpa using hshape, t, ht, rfl, htable⟩
  · rintro ⟨hsub, hshape, t, ht, rfl, htable⟩
    exact ⟨t, ⟨ht, hsub⟩, by simpa [htable] using hshape⟩

theorem mem_viewRows {x : Tuple} :
    x ∈ viewRows s asOf tid isEdge ↔
      ∃ t ∈ s.catalog.types, ∃ table, t.storageTable = some table ∧
        ogIsSubtype s.catalog t.typeId tid = true ∧
        (table.shape = .edge ↔ isEdge = true) ∧
        ∃ r ∈ sourceRows s asOf t.typeId table, x = viewTuple t.typeId r := by
  simp only [viewRows, List.mem_flatMap, List.mem_map, Prod.exists, mem_concreteTables]
  constructor
  · rintro ⟨sub, table, ⟨hsub, hshape, t, ht, rfl, htable⟩, r, hr, rfl⟩
    exact ⟨t, ht, table, htable, hsub, hshape, r, hr, rfl⟩
  · rintro ⟨t, ht, table, htable, hsub, hshape, r, hr, rfl⟩
    exact ⟨t.typeId, table, ⟨hsub, hshape, t, ht, rfl, htable⟩, r, hr, rfl⟩

end Membership

@[simp] theorem viewTuple_id {tid : Int} {r : TypedRow} :
    viewTuple tid r "id" = .int r.id := rfl

@[simp] theorem viewTuple_typeId {tid : Int} {r : TypedRow} :
    viewTuple tid r "type_id" = .int tid := rfl

@[simp] theorem registryTuple_id {n : NodeRow} : registryTuple n "id" = .int n.id := rfl

@[simp] theorem registryTuple_typeId {n : NodeRow} :
    registryTuple n "type_id" = .int n.typeId := rfl

end OntologicalDb.RowDocuments
