import Mathlib.Data.List.Dedup
import OntologicalDb.Values

/-!
The type catalog: graphs, types with their storage tables, the inheritance
edges, the interval labels, properties, roles and the registrations that make a
type virtual or temporal.
-/

namespace OntologicalDb.TypeCatalog

/-- What a type describes: the column holds `e`, `r` or `a`. -/
inductive Kind
  | entity
  | relation
  | attribute
deriving DecidableEq

/-- The shape of a storage table, told apart by its name's prefix. -/
inductive TableShape
  | node
  | edge
  | attr
deriving DecidableEq

/-- A storage table `og_data.n_7`, `og_data.e_7` or `og_data.a_7`. -/
structure StorageTable where
  shape : TableShape
  typeId : Int
deriving DecidableEq

def nodeTable (typeId : Int) : StorageTable := ⟨.node, typeId⟩
def edgeTable (typeId : Int) : StorageTable := ⟨.edge, typeId⟩

def StorageTable.text (t : StorageTable) : String :=
  match t.shape with
  | .node => s!"og_data.n_{t.typeId}"
  | .edge => s!"og_data.e_{t.typeId}"
  | .attr => s!"og_data.a_{t.typeId}"

structure TypeRow where
  typeId : Int
  graphId : Int
  name : String
  kind : Kind
  storageTable : Option StorageTable
deriving DecidableEq

/-- One interval of a type: a type owns one for every path from a root. -/
structure Label where
  typeId : Int
  pathId : Int
  graphId : Int
  lft : Int
  rgt : Int
  depth : Int
deriving DecidableEq

structure Property where
  typeId : Int
  name : String
  dataType : String
  columnName : String
  required : Bool
  isKey : Bool
deriving DecidableEq

structure Role where
  relTypeId : Int
  name : String
  playerTypeId : Option Int
  ordinal : Int
deriving DecidableEq

/-- A relationship type that is a join on two declared properties. -/
structure VirtualRel where
  typeId : Int
  srcType : Int
  srcProp : String
  dstType : Int
  dstProp : String
deriving DecidableEq

/-- The catalog tables; `typeParent` lists (type, parent) pairs and
`virtualSources` the types whose storage is a view over a mapped source. -/
structure Catalog where
  graphs : List (Int × String)
  types : List TypeRow
  typeParent : List (Int × Int)
  labels : List Label
  properties : List Property
  roles : List Role
  virtualRels : List VirtualRel
  virtualSources : List (Int × String)
  temporal : List Int
deriving DecidableEq

def empty : Catalog := ⟨[], [], [], [], [], [], [], [], []⟩

section Lookups

variable (c : Catalog)

def graphId (name : String) : Except String Int :=
  match c.graphs.find? fun g => g.2 = name with
  | some g => .ok g.1
  | none => .error s!"graph '{name}' does not exist"

def typeRow? (tid : Int) : Option TypeRow := c.types.find? fun t => t.typeId = tid

def tryTypeId (gid : Int) (name : String) : Option Int :=
  (c.types.find? fun t => t.graphId = gid ∧ t.name = name).map (·.typeId)

def tryTypeName (tid : Int) : Option String := (typeRow? c tid).map (·.name)

def typeKind (tid : Int) : Except String Kind :=
  match typeRow? c tid with
  | some t => .ok t.kind
  | none => .error s!"type {tid} does not exist"

def storageTable (tid : Int) : Option StorageTable :=
  (typeRow? c tid).bind (·.storageTable)

/-- The name of a type in an error text. -/
def typeNameOf (tid : Int) : String := (tryTypeName c tid).getD s!"type#{tid}"

def virtualSource (tid : Int) : Option String :=
  (c.virtualSources.find? fun m => m.1 = tid).map (·.2)

def virtualRel (tid : Int) : Option VirtualRel :=
  c.virtualRels.find? fun v => v.typeId = tid

/-- The declared properties of one type: name, column and data type. -/
def propertiesOf (tid : Int) : List Property :=
  c.properties.filter fun p => p.typeId = tid

end Lookups

theorem tryTypeId_eq_some {c : Catalog} {gid tid : Int} {name : String}
    (h : tryTypeId c gid name = some tid) :
    ∃ t ∈ c.types, t.typeId = tid ∧ t.graphId = gid ∧ t.name = name := by
  obtain ⟨t, ht, rfl⟩ := Option.map_eq_some_iff.mp h
  have hfound := List.find?_some ht
  refine ⟨t, List.mem_of_find?_eq_some ht, rfl, ?_⟩
  simpa using hfound

end OntologicalDb.TypeCatalog
