import Mathlib
import OntologicalDb.PropertyColumns

/-!
Which column an index, a uniqueness rule, a full-text query or a vector search acts on:
they fold the name they are given, while queries and writes look the column up.
-/

namespace OntologicalDb.FacilityColumns

open OntologicalDb.EvolutionFrames
open OntologicalDb.ExceptRules
open OntologicalDb.GuardedRuns
open OntologicalDb.LabelCurrency
open OntologicalDb.Labeling
open OntologicalDb.PropertyColumns (Start kb ascii book)
open OntologicalDb.RowDocuments
open OntologicalDb.SchemaChanges
open OntologicalDb.SchemaEvolution
open OntologicalDb.TypeCatalog
open OntologicalDb.TypedTables (Session columnName)

section Indexes

/-- An index that a statement asks for. -/
structure Index where
  name : String
  table : Int
  columns : List String
deriving DecidableEq

variable (session : Session) (c : Catalog)

/-- The same index for a type and its subtypes, a table each. -/
def indexTables (tid : Int) (name : Int → String) (columns : List String) : List Index :=
  (tables c tid).map fun sub => ⟨name sub, sub, columns⟩

def ogCreateIndex (graph typeName prop : String) : Except String (List Index) := do
  let gid ← graphId c graph
  let tid ← typeId c gid typeName
  let col := columnName session prop
  return indexTables c tid (fun sub => s!"ix_{sub}_{col}") [col]

def sanitize (s : String) : String :=
  String.ofList (s.toList.map fun ch => if ch.isAlphanum then ch else '_')

def enforceUnique (tid : Int) (props : List String) (name : String) : List Index :=
  indexTables c tid (fun sub => s!"uq_{sub}_{sanitize name}") (props.map (columnName session))

/-- The columns in the `tsvector` of a full-text index and of its queries. -/
def fulltextExpr (props : List String) : List String := props.map (columnName session)

def buildFulltext (tid : Int) (props : List String) (name : String) : List Index :=
  indexTables c tid (fun sub => s!"ftx_{sub}_{sanitize name}") (fulltextExpr session props)

/-- What is remembered of an index under the name it was given. -/
structure IndexEntry where
  name : String
  kind : String
  typeName : String
  props : List String
deriving DecidableEq

def lookup (entries : List IndexEntry) (name : String) : Option IndexEntry :=
  entries.find? fun e => e.name = name

/-- `db.index.fulltext.queryNodes`: the type whose view is read, and the columns. -/
def fulltextQuery (gid : Int) (entries : List IndexEntry) (index : String) :
    Except String (Int × List String) :=
  match lookup entries index with
  | none => .error s!"no index named '{index}'"
  | some entry =>
      if entry.kind ≠ "fulltext" then
        .error s!"index '{index}' is a {entry.kind} index, not a full-text index"
      else
        match tryTypeId c gid entry.typeName with
        | none => .error s!"index '{index}' refers to a type that no longer exists"
        | some tid => .ok (tid, fulltextExpr session entry.props)

end Indexes

section Embeddings

structure Embedding where
  typeId : Int
  prop : String
  dims : Nat
  metric : String
  sourceProp : Option String
deriving DecidableEq

variable (session : Session) (c : Catalog) (embeddings : List Embedding)

/-- `og_add_embedding`: a property, and an index on its column. -/
def addEmbedding (s : State) (graph typeName prop : String) (dims : Nat) :
    Except String (State × List Index) := do
  require (1 ≤ dims ∧ dims ≤ 16000) s!"embedding dimension {dims} is out of range (1..16000)"
  let gid ← graphId s.o.catalog graph
  let tid ← typeId s.o.catalog gid typeName
  let s ← addProperty session s gid typeName prop s!"vector({dims})"
  let col := columnName session prop
  return (s, indexTables s.o.catalog tid (fun sub => s!"hnsw_{sub}_{col}") [col])

def embeddingMeta (tid : Int) (prop : String) : Except String Embedding :=
  match embeddings.find? fun e => e.typeId ∈ ogSupertypes c tid ∧ e.prop = prop with
  | some e => .ok e
  | none => .error s!"no embedding named '{prop}' is declared on this type"

/-- A column of the view of a type. -/
structure ViewColumn where
  type : Int
  isEdge : Bool
  column : String
deriving DecidableEq

def searchColumn (gid : Int) (typeName prop : String) : Except String ViewColumn := do
  let tid ← typeId c gid typeName
  let _ ← embeddingMeta c embeddings tid prop
  let kind ← typeKind c tid
  return ⟨tid, kind = .relation, columnName session prop⟩

def ogVectorSearch (gid : Int) (typeName prop : String) : Except String ViewColumn :=
  searchColumn session c embeddings gid typeName prop

def ogVectorSearchExact (gid : Int) (typeName prop : String) : Except String ViewColumn :=
  searchColumn session c embeddings gid typeName prop

/-- Ranking by neighbourhood is for nodes. -/
def ogHybridSearch (gid : Int) (typeName prop : String) : Except String ViewColumn := do
  let tid ← typeId c gid typeName
  let _ ← embeddingMeta c embeddings tid prop
  return ⟨tid, false, columnName session prop⟩

/-- The uppermost type above a type. -/
def rootTypeOf (tid : Int) : Int :=
  let above := c.labels.filter fun a => ∃ d ∈ c.labels, d.typeId = tid ∧ a.graphId = d.graphId ∧
    a.lft ≤ d.lft ∧ d.rgt ≤ a.rgt
  ((above.insertionSort fun a b => a.depth ≤ b.depth).head?.map (·.typeId)).getD tid

/-- `og_similar`, for an instance of the type. -/
def ogSimilar (tid : Int) (prop : String) : Except String ViewColumn := do
  let _ ← embeddingMeta c embeddings tid prop
  let kind ← typeKind c tid
  return ⟨rootTypeOf c tid, kind = .relation, columnName session prop⟩

/-- A look at a table for embeddings that are older than what they were made of. -/
structure StaleScan where
  embedding : Embedding
  source : String
  table : Int
  scol : String
  ecol : String
deriving DecidableEq

def ogStaleEmbeddings (gid : Int) : List StaleScan :=
  (embeddings.filter fun e => e.typeId ∈ graphTypes c gid).flatMap fun e =>
    e.sourceProp.toList.flatMap fun source =>
      (tables c e.typeId).map fun sub =>
        ⟨e, source, sub, columnName session source, columnName session e.prop⟩

/-- `og_mark_embedded`: the source an instance's embedding was made of, and its column. -/
def ogMarkEmbedded (tid : Int) (prop : String) : Option (String × String) :=
  match embeddings.find? fun e => e.typeId ∈ ogSupertypes c tid ∧ e.prop = prop with
  | some e =>
      if (storageTable c tid).isSome then
        e.sourceProp.map fun source => (source, columnName session source)
      else none
  | none => none

end Embeddings

section Statement

/-- The column is the one that is recorded for the property, on the type and below it. -/
def Recorded (c : Catalog) (tid : Int) (prop column : String) : Prop :=
  ∀ p ∈ c.properties, p.typeId = tid ∨ p.typeId ∈ ogSubtypes c tid → p.name = prop →
    p.columnName = column

/-- Whatever is given a type and the name of a property acts on the recorded column. -/
structure Resolves (session : Session) (s : State) : Prop where
  createIndex : ∀ graph typeName prop gid tid ixs, graphId s.o.catalog graph = .ok gid →
    typeId s.o.catalog gid typeName = .ok tid →
    ogCreateIndex session s.o.catalog graph typeName prop = .ok ixs →
    ∀ ix ∈ ixs, List.Forall₂ (Recorded s.o.catalog tid) [prop] ix.columns
  unique : ∀ tid props name, ∀ ix ∈ enforceUnique session s.o.catalog tid props name,
    List.Forall₂ (Recorded s.o.catalog tid) props ix.columns
  fulltext : ∀ tid props name, ∀ ix ∈ buildFulltext session s.o.catalog tid props name,
    List.Forall₂ (Recorded s.o.catalog tid) props ix.columns
  fulltextQuery : ∀ gid entries index tid columns,
    fulltextQuery session s.o.catalog gid entries index = .ok (tid, columns) →
    ∃ entry ∈ entries, entry.name = index ∧ List.Forall₂ (Recorded s.o.catalog tid) entry.props columns
  embedding : ∀ graph typeName prop dims gid tid s' ixs, graphId s.o.catalog graph = .ok gid →
    typeId s.o.catalog gid typeName = .ok tid →
    addEmbedding session s graph typeName prop dims = .ok (s', ixs) →
    ∀ ix ∈ ixs, List.Forall₂ (Recorded s'.o.catalog tid) [prop] ix.columns
  search : ∀ embeddings gid typeName prop v,
    ogVectorSearch session s.o.catalog embeddings gid typeName prop = .ok v ∨
      ogVectorSearchExact session s.o.catalog embeddings gid typeName prop = .ok v ∨
      ogHybridSearch session s.o.catalog embeddings gid typeName prop = .ok v →
    Recorded s.o.catalog v.type prop v.column
  similar : ∀ embeddings tid prop v, ogSimilar session s.o.catalog embeddings tid prop = .ok v →
    Recorded s.o.catalog tid prop v.column ∧ Recorded s.o.catalog v.type prop v.column
  stale : ∀ embeddings gid, ∀ scan ∈ ogStaleEmbeddings session s.o.catalog embeddings gid,
    Recorded s.o.catalog scan.table scan.source scan.scol ∧
      Recorded s.o.catalog scan.table scan.embedding.prop scan.ecol
  mark : ∀ embeddings tid prop source scol,
    ogMarkEmbedded session s.o.catalog embeddings tid prop = some (source, scol) →
    Recorded s.o.catalog tid source scol
  cypher : ∀ tid prop column dtype, viewProperty? s.o.catalog tid prop = some (column, dtype) →
    Recorded s.o.catalog tid prop column

end Statement

section Conditions

variable (session : Session) (s : State)

/-- Sessions fold a name alike. -/
def FoldsAlike (session' : Session) (prop : String) : Prop :=
  columnName session' prop = columnName session prop

/-- No attribute type gets the table in which its value is called `val`. -/
def NoValues (graph : String) (defs : List Definition) : Prop :=
  ∀ gid o, graphId s.o.catalog graph = .ok gid →
    runDefine s.o gid (defs.map (·.type)) Rest.none = .ok o →
    ∀ d ∈ defs, d.type.kind = .attribute → d.isAbstract = false → d.valueType.isSome →
      ∀ tid, typeId o.catalog gid d.type.name = .ok tid → (storageTable o.catalog tid).isSome

/-- What is renamed keeps a column that the new name folds to. -/
def RenamesFolded (ch : Change) (old new : String) : Prop :=
  ∀ tid, typeOf s ch = .ok tid →
    ∀ p ∈ s.o.catalog.properties, p.typeId ∈ ogSubtypes s.o.catalog tid → p.name = old →
      p.columnName = columnName session new

/-- No operation records a name with a column that it does not fold to. -/
def Folded (s : State) : Op → Prop
  | .addProperty session' _ _ prop _ => FoldsAlike session session' prop
  | .define graph defs => NoValues s graph defs
  | .expand session' id => ∀ ch, s.change id = .ok ch →
      match ch.spec with
      | .addProperty _ prop _ => FoldsAlike session session' prop
      | .renameProperty _ old new => RenamesFolded session s ch old new
      | _ => True
  | _ => True

end Conditions

section Rows

variable {s s' s₁ : State} {gid : Int} {ch : Change}

/-- Where the name and the column of a row come from that is there after an operation. -/
inductive Origin (s : State) : Op → String → String → Prop
  | kept {op : Op} {p : Property} (h : p ∈ s.o.catalog.properties) : Origin s op p.name p.columnName
  | added (session : Session) (gid : Int) (typeName prop dtype : String) :
      Origin s (.addProperty session gid typeName prop dtype) prop (columnName session prop)
  | value {graph : String} {defs : List Definition} {gid tid : Int} {o : Ontology} {d : Definition}
      (hgraph : graphId s.o.catalog graph = .ok gid)
      (hdefine : runDefine s.o gid (defs.map (·.type)) Rest.none = .ok o) (hd : d ∈ defs)
      (hkind : d.type.kind = .attribute) (hconcrete : d.isAbstract = false)
      (hvalue : d.valueType.isSome) (ht : typeId o.catalog gid d.type.name = .ok tid)
      (hnone : storageTable o.catalog tid = none) : Origin s (.define graph defs) "val" "val"
  | expanded {id : Nat} {ch : Change} {type prop dtype : String} (session : Session)
      (hch : s.change id = .ok ch) (hspec : ch.spec = .addProperty type prop dtype) :
      Origin s (.expand session id) prop (columnName session prop)
  | renamed {id : Nat} {ch : Change} {type old new : String} {tid : Int} {p : Property}
      (session : Session) (hch : s.change id = .ok ch)
      (hspec : ch.spec = .renameProperty type old new) (ht : typeOf s ch = .ok tid)
      (hp : p ∈ s.o.catalog.properties) (hsub : p.typeId ∈ ogSubtypes s.o.catalog tid)
      (hname : p.name = old) : Origin s (.expand session id) new p.columnName

/-- Every row is an old one of the name and the column. -/
def OldNames (s s' : State) : Prop :=
  ∀ p ∈ s'.o.catalog.properties, ∃ q ∈ s.o.catalog.properties,
    q.name = p.name ∧ q.columnName = p.columnName

theorem OldNames.of_subset (h : s'.o.catalog.properties ⊆ s.o.catalog.properties) : OldNames s s' :=
  fun p hp => ⟨p, h hp, rfl, rfl⟩

theorem OldNames.of_eq (h : s'.o.catalog.properties = s.o.catalog.properties) : OldNames s s' :=
  .of_subset (h ▸ List.Subset.refl _)

theorem OldNames.of_update {cond : Property → Prop} [DecidablePred cond] {f : Property → Property}
    (h : s'.o.catalog.properties = KeyedRows.update cond f s.o.catalog.properties)
    (hf : ∀ p, (f p).name = p.name ∧ (f p).columnName = p.columnName) : OldNames s s' := by
  intro p hp
  rw [h] at hp
  obtain ⟨q, hq, rfl⟩ := List.mem_map.mp hp
  refine ⟨q, hq, ?_⟩
  split
  · exact ⟨(hf q).1.symm, (hf q).2.symm⟩
  · exact ⟨rfl, rfl⟩

theorem OldNames.of_insert (rows : List Property)
    (h : s'.o.catalog.properties = rows.foldl insertProperty s.o.catalog.properties)
    (hrows : ∀ p ∈ rows, ∃ q ∈ s.o.catalog.properties, q.name = p.name ∧ q.columnName = p.columnName) :
    OldNames s s' := by
  intro p hp
  rw [h] at hp
  rcases mem_insertProperties hp with hp | ⟨hp, -⟩
  · exact ⟨p, hp, rfl, rfl⟩
  · exact hrows p hp

theorem OldNames.origin (h : OldNames s s') {op : Op} {p : Property}
    (hp : p ∈ s'.o.catalog.properties) : Origin s op p.name p.columnName := by
  obtain ⟨q, hq, hname, hcol⟩ := h p hp
  rw [← hname, ← hcol]
  exact .kept hq

theorem mem_inherited {c : Catalog} {pid : Int} {p : Property} (h : p ∈ inheritedProperties c pid) :
    p ∈ c.properties := (List.mem_filter.mp h).1

theorem OldNames.createType {graph name : String} {kind : Kind} {parents : List String}
    {isAbstract : Bool} (hop : SchemaEvolution.createType s graph name kind parents isAbstract = .ok s') :
    OldNames s s' := by
  simp only [SchemaEvolution.createType] at hop
  obtain ⟨gid, -, hop⟩ := bind_eq_ok.mp hop
  obtain ⟨pids, -, hop⟩ := bind_eq_ok.mp hop
  split at hop
  · obtain ⟨o', hcreate, hop⟩ := bind_eq_ok.mp hop
    obtain rfl := pure_eq_ok.mp hop
    obtain ⟨pids', c₁, -, hrest, hrel, -⟩ := createType_eq_ok hcreate
    obtain rfl := Except.ok.inj hrest
    refine .of_insert (copies s.o.nextTypeId (pids.flatMap (inheritedProperties s.o.catalog)))
      ?_ fun p hp => ?_
    · rw [enableTemporalTable_o]
      change o'.catalog.properties = _
      rw [relabelGraph_eq hrel]
    · obtain ⟨p₀, hp₀, rfl⟩ := mem_copies.mp hp
      obtain ⟨pid, -, hp₀⟩ := List.mem_flatMap.mp hp₀
      exact ⟨p₀, mem_inherited hp₀, rfl, rfl⟩
  · obtain ⟨o', hcreate, hop⟩ := bind_eq_ok.mp hop
    obtain rfl := pure_eq_ok.mp hop
    exact .of_eq (Grows.createType hcreate).properties

theorem OldNames.dropType {graph name : String} {cascade : Bool} {instances : List Int → Nat}
    (hop : SchemaEvolution.dropType s graph name cascade instances = .ok s') : OldNames s s' := by
  simp only [SchemaEvolution.dropType] at hop
  obtain ⟨gid, -, hop⟩ := bind_eq_ok.mp hop
  obtain ⟨tid, -, hop⟩ := bind_eq_ok.mp hop
  obtain ⟨o, hdrop, hop⟩ := bind_eq_ok.mp hop
  obtain rfl := pure_eq_ok.mp hop
  obtain ⟨tid', c₁, -, hdel, hrel, -⟩ := dropType_eq_ok hdrop
  obtain ⟨-, -, hprops, -⟩ := deleteTypes_eq hdel
  refine .of_subset ?_
  change o.catalog.properties ⊆ _
  rw [relabelGraph_eq hrel]
  change c₁.properties ⊆ _
  rw [hprops]
  exact List.filter_subset_self _

theorem OldNames.dropGraph {graph : String} (hop : SchemaEvolution.dropGraph s graph = .ok s') :
    OldNames s s' := by
  simp only [SchemaEvolution.dropGraph] at hop
  obtain ⟨gid, -, hop⟩ := bind_eq_ok.mp hop
  obtain ⟨-, -, hop⟩ := bind_eq_ok.mp hop
  obtain rfl := pure_eq_ok.mp hop
  exact .of_subset (List.filter_subset_self _)

theorem OldNames.widen {tid : Int} {prop : String}
    (hop : SchemaEvolution.widenProperty s tid prop = .ok s') : OldNames s s' := by
  simp only [SchemaEvolution.widenProperty] at hop
  obtain ⟨p, -, hop⟩ := bind_eq_ok.mp hop
  obtain ⟨-, -, hop⟩ := bind_eq_ok.mp hop
  obtain ⟨-, -, hop⟩ := bind_eq_ok.mp hop
  obtain rfl := pure_eq_ok.mp hop
  exact .of_update rfl fun _ => ⟨rfl, rfl⟩

theorem OldNames.enableTemporal {graph name : String}
    (hop : SchemaEvolution.enableTemporal s graph name = .ok s') : OldNames s s' := by
  simp only [SchemaEvolution.enableTemporal] at hop
  obtain ⟨gid, -, hop⟩ := bind_eq_ok.mp hop
  obtain ⟨tid, -, hop⟩ := bind_eq_ok.mp hop
  obtain ⟨kind, -, hop⟩ := bind_eq_ok.mp hop
  obtain ⟨-, -, hop⟩ := bind_eq_ok.mp hop
  obtain rfl := pure_eq_ok.mp hop
  obtain ⟨ho, -, -⟩ := foldl_frame
    (fun _ _ => ⟨enableTable_o, enableTable_changes, enableTable_nextChange⟩)
    (s.withCatalog { s.o.catalog with
      temporal := if tid ∈ s.o.catalog.temporal then s.o.catalog.temporal else tid :: s.o.catalog.temporal })
    (tables s.o.catalog tid)
  refine .of_eq ?_
  rw [ho]
  rfl

theorem OldNames.contract (hop : SchemaEvolution.contract s ch = .ok s₁) : OldNames s s₁ := by
  cases hspec : ch.spec with
  | addProperty type prop dtype =>
      simp only [SchemaEvolution.contract, hspec] at hop
      obtain rfl := pure_eq_ok.mp hop
      exact .of_eq rfl
  | dropProperty type prop =>
      simp only [SchemaEvolution.contract, hspec] at hop
      obtain ⟨tid, -, hop⟩ := bind_eq_ok.mp hop
      obtain ⟨-, -, hop⟩ := bind_eq_ok.mp hop
      obtain rfl := pure_eq_ok.mp hop
      exact .of_subset deleteName_subset
  | renameProperty type old new =>
      simp only [SchemaEvolution.contract, hspec] at hop
      obtain ⟨tid, -, hop⟩ := bind_eq_ok.mp hop
      obtain rfl := pure_eq_ok.mp hop
      exact .of_subset deleteName_subset
  | alterPropertyType type prop toSql =>
      simp only [SchemaEvolution.contract, hspec, contractAlter] at hop
      obtain ⟨tid, -, hop⟩ := bind_eq_ok.mp hop
      obtain ⟨-, -, hop⟩ := bind_eq_ok.mp hop
      obtain ⟨-, -, hop⟩ := bind_eq_ok.mp hop
      obtain rfl := pure_eq_ok.mp hop
      exact .of_update rfl fun _ => ⟨rfl, rfl⟩
  | setRequired type prop =>
      simp only [SchemaEvolution.contract, hspec] at hop
      obtain ⟨tid, -, hop⟩ := bind_eq_ok.mp hop
      obtain ⟨-, -, hop⟩ := bind_eq_ok.mp hop
      obtain rfl := pure_eq_ok.mp hop
      exact .of_update rfl fun _ => ⟨rfl, rfl⟩
  | addUnique type prop =>
      simp only [SchemaEvolution.contract, hspec] at hop
      obtain ⟨tid, -, hop⟩ := bind_eq_ok.mp hop
      obtain ⟨-, -, hop⟩ := bind_eq_ok.mp hop
      obtain rfl := pure_eq_ok.mp hop
      exact .of_update rfl fun _ => ⟨rfl, rfl⟩
  | renameType type new =>
      simp only [SchemaEvolution.contract, hspec] at hop
      obtain ⟨tid, -, hop⟩ := bind_eq_ok.mp hop
      obtain ⟨-, -, hop⟩ := bind_eq_ok.mp hop
      obtain rfl := pure_eq_ok.mp hop
      exact .of_eq rfl
  | addParent type parent =>
      simp only [SchemaEvolution.contract, hspec] at hop
      obtain ⟨-, -, hop⟩ := bind_eq_ok.mp hop
      obtain ⟨c₁, hins, hop⟩ := bind_eq_ok.mp hop
      obtain ⟨c₂, hrel, hop⟩ := bind_eq_ok.mp hop
      obtain rfl := pure_eq_ok.mp hop
      obtain rfl := insertParent_eq_ok hins
      have hprops : c₂.properties = s.o.catalog.properties := by rw [relabelGraph_eq hrel]
      obtain ⟨ho, -, -⟩ := foldl_frame
        (f := inheritTable (inheritedProperties c₂ ch.report.parentId))
        (fun _ _ => ⟨enableTemporalTable_o, enableTemporalTable_changes, enableTemporalTable_nextChange⟩)
        (s.withCatalog { c₂ with
          properties := ((tables c₂ ch.report.typeId).flatMap fun sub =>
            copies sub (inheritedProperties c₂ ch.report.parentId)).foldl insertProperty c₂.properties })
        (tables c₂ ch.report.typeId)
      refine .of_insert ((tables c₂ ch.report.typeId).flatMap fun sub =>
        copies sub (inheritedProperties c₂ ch.report.parentId)) ?_ fun p hp => ?_
      · rw [ho, ← hprops]
        rfl
      · obtain ⟨sub, -, hp⟩ := List.mem_flatMap.mp hp
        obtain ⟨p₀, hp₀, rfl⟩ := mem_copies.mp hp
        exact ⟨p₀, hprops ▸ mem_inherited hp₀, rfl, rfl⟩
  | removeParent type parent =>
      simp only [SchemaEvolution.contract, hspec] at hop
      obtain ⟨c₁, hrel, hop⟩ := bind_eq_ok.mp hop
      obtain rfl := pure_eq_ok.mp hop
      refine .of_eq ?_
      change c₁.properties = _
      rw [relabelGraph_eq hrel]

theorem OldNames.abort (hop : SchemaEvolution.abort s ch = .ok s₁) : OldNames s s₁ := by
  cases hspec : ch.spec with
  | renameProperty type old new =>
      simp only [SchemaEvolution.abort, hspec] at hop
      obtain ⟨tid, -, hop⟩ := bind_eq_ok.mp hop
      obtain rfl := pure_eq_ok.mp hop
      exact .of_subset deleteName_subset
  | alterPropertyType type prop toSql =>
      simp only [SchemaEvolution.abort, hspec] at hop
      obtain ⟨tid, -, hop⟩ := bind_eq_ok.mp hop
      obtain ⟨-, -, hop⟩ := bind_eq_ok.mp hop
      obtain rfl := pure_eq_ok.mp hop
      exact .of_eq rfl
  | setRequired type prop =>
      simp only [SchemaEvolution.abort, hspec] at hop
      obtain ⟨tid, -, hop⟩ := bind_eq_ok.mp hop
      obtain rfl := pure_eq_ok.mp hop
      exact .of_eq rfl
  | _ =>
      simp only [SchemaEvolution.abort, hspec] at hop
      obtain rfl := pure_eq_ok.mp hop
      exact .of_eq rfl

theorem origin_addProperty {session : Session} {typeName prop dtype : String}
    (hop : SchemaEvolution.addProperty session s gid typeName prop dtype = .ok s') {p : Property}
    (hp : p ∈ s'.o.catalog.properties) :
    p ∈ s.o.catalog.properties ∨ p.name = prop ∧ p.columnName = columnName session prop := by
  obtain ⟨tid, -, -, rfl⟩ := addProperty_eq_ok hop
  rcases mem_insertProperties hp with hp | ⟨hp, -⟩
  · exact .inl hp
  · obtain ⟨sub, -, rfl⟩ := List.mem_map.mp hp
    exact .inr ⟨rfl, rfl⟩

/-- Every row is an old one or a value. -/
theorem origin_define {graph : String} {defs : List Definition}
    (hop : SchemaEvolution.define s graph defs = .ok s') {p : Property}
    (hp : p ∈ s'.o.catalog.properties) : Origin s (.define graph defs) p.name p.columnName := by
  simp only [SchemaEvolution.define] at hop
  obtain ⟨gid, hgid, hop⟩ := bind_eq_ok.mp hop
  obtain ⟨o, hdefine, hop⟩ := bind_eq_ok.mp hop
  have hprops : o.catalog.properties = s.o.catalog.properties := (Grows.runDefine hdefine).properties
  suffices hall : ∀ ds ⊆ defs, ∀ m : State,
      (∀ name, typeId m.o.catalog gid name = typeId o.catalog gid name) →
      (∀ tid, storageTable m.o.catalog tid = none → storageTable o.catalog tid = none) →
      (∀ p ∈ m.o.catalog.properties, Origin s (.define graph defs) p.name p.columnName) →
      ds.foldlM (ensureStorage gid) m = .ok s' →
      ∀ p ∈ s'.o.catalog.properties, Origin s (.define graph defs) p.name p.columnName from
    hall defs (List.Subset.refl _) _ (fun _ => rfl) (fun _ => id)
      (fun p hp => .kept (hprops ▸ hp)) hop p hp
  intro ds
  induction ds with
  | nil =>
      intro _ m _ _ hm hfold
      obtain rfl := pure_eq_ok.mp hfold
      exact hm
  | cons d ds ih =>
      intro hsub m hids htables hm hfold
      obtain ⟨hd, hsub⟩ := List.cons_subset.mp hsub
      obtain ⟨mid, hmid, hrest⟩ := foldlM_cons_eq_ok.mp hfold
      have hgiven (table : StorageTable) (tid : Int) :
          (∀ name, typeId (giveTable m tid table).o.catalog gid name = typeId o.catalog gid name) ∧
            ∀ x, storageTable (giveTable m tid table).o.catalog x = none →
              storageTable o.catalog x = none := by
        refine ⟨fun name => ?_, fun x hx => htables x (storageTable_giveTable_none hx)⟩
        rw [← hids name]
        unfold typeId
        rw [tryTypeId_giveTable]
      simp only [SchemaEvolution.ensureStorage] at hmid
      obtain ⟨tid, ht, hmid⟩ := bind_eq_ok.mp hmid
      split at hmid
      · obtain ⟨-, -, hmid⟩ := bind_eq_ok.mp hmid
        obtain rfl := pure_eq_ok.mp hmid
        exact ih hsub m hids htables hm hrest
      · next sqlType hkind hvalue =>
        split at hmid
        · obtain rfl := pure_eq_ok.mp hmid
          exact ih hsub m hids htables hm hrest
        · next hnew =>
          obtain ⟨hconcrete, hnone⟩ := not_or.mp hnew
          obtain rfl := pure_eq_ok.mp hmid
          obtain ⟨hids', htables'⟩ := hgiven ⟨.attr, tid⟩ tid
          refine ih hsub _ ?_ ?_ (fun p hp => ?_) hrest
          · exact hids'
          · exact htables'
          rcases mem_insertProperty.mp hp with hp | ⟨rfl, -⟩
          · exact hm p hp
          · exact .value hgid hdefine hd hkind (by simpa using hconcrete) (by simp [hvalue])
              (hids _ ▸ ht) (htables tid (by simpa using hnone))
      · split at hmid
        · obtain rfl := pure_eq_ok.mp hmid
          exact ih hsub m hids htables hm hrest
        · obtain rfl := pure_eq_ok.mp hmid
          obtain ⟨hids', htables'⟩ := hgiven (nodeTable tid) tid
          exact ih hsub _ hids' htables' hm hrest

theorem origin_expand {session : Session} {id : Nat} (hch : s.change id = .ok ch)
    (hop : SchemaEvolution.expand session s ch = .ok s₁) {p : Property}
    (hp : p ∈ s₁.o.catalog.properties) : Origin s (.expand session id) p.name p.columnName := by
  cases hspec : ch.spec with
  | addProperty type prop dtype =>
      simp only [SchemaEvolution.expand, hspec] at hop
      rcases origin_addProperty hop hp with hp | ⟨hname, hcol⟩
      · exact .kept hp
      · rw [hname, hcol]
        exact .expanded session hch hspec
  | renameProperty type old new =>
      simp only [SchemaEvolution.expand, hspec] at hop
      obtain ⟨tid, ht, hop⟩ := bind_eq_ok.mp hop
      obtain ⟨-, -, hop⟩ := bind_eq_ok.mp hop
      obtain rfl := pure_eq_ok.mp hop
      rcases List.mem_append.mp hp with hp | hp
      · exact .kept hp
      · obtain ⟨q, hq, rfl⟩ := List.mem_map.mp hp
        obtain ⟨hq, hcond⟩ := List.mem_filter.mp hq
        obtain ⟨hsub, hname⟩ := of_decide_eq_true hcond
        exact Origin.renamed (p := q) session hch hspec ht hq hsub hname
  | alterPropertyType type prop toSql =>
      simp only [SchemaEvolution.expand, hspec] at hop
      obtain ⟨tid, -, hop⟩ := bind_eq_ok.mp hop
      obtain ⟨-, -, hop⟩ := bind_eq_ok.mp hop
      obtain rfl := pure_eq_ok.mp hop
      exact .kept hp
  | setRequired type prop =>
      simp only [SchemaEvolution.expand, hspec] at hop
      obtain ⟨tid, -, hop⟩ := bind_eq_ok.mp hop
      obtain ⟨-, -, hop⟩ := bind_eq_ok.mp hop
      obtain rfl := pure_eq_ok.mp hop
      exact .kept hp
  | dropProperty _ _ | addUnique _ _ | renameType _ _ | addParent _ _ | removeParent _ _ =>
      simp only [SchemaEvolution.expand, hspec] at hop
      obtain rfl := pure_eq_ok.mp hop
      exact .kept hp

theorem step_origin {op : Op} (hop : step s op = .ok s') {p : Property}
    (hp : p ∈ s'.o.catalog.properties) : Origin s op p.name p.columnName := by
  cases op with
  | createType graph name kind parents isAbstract => exact (OldNames.createType hop).origin hp
  | dropType graph name cascade instances => exact (OldNames.dropType hop).origin hp
  | addProperty session gid typeName prop dtype =>
      rcases origin_addProperty hop hp with hp | ⟨hname, hcol⟩
      · exact .kept hp
      · rw [hname, hcol]
        exact .added session gid typeName prop dtype
  | widen tid prop => exact (OldNames.widen hop).origin hp
  | dropGraph graph => exact (OldNames.dropGraph hop).origin hp
  | define graph defs => exact origin_define hop hp
  | loadRdf graph triples =>
      simp only [SchemaEvolution.step, SchemaEvolution.loadRdf] at hop
      obtain ⟨gid, -, hop⟩ := bind_eq_ok.mp hop
      obtain ⟨o, hload, hop⟩ := bind_eq_ok.mp hop
      obtain rfl := pure_eq_ok.mp hop
      exact (OldNames.of_eq (Grows.loadRdf hload).properties).origin hp
  | enableTemporal graph name => exact (OldNames.enableTemporal hop).origin hp
  | plan graph spec =>
      simp only [SchemaEvolution.step, SchemaEvolution.plan] at hop
      obtain ⟨gid, -, hop⟩ := bind_eq_ok.mp hop
      obtain ⟨report, -, hop⟩ := bind_eq_ok.mp hop
      obtain rfl := pure_eq_ok.mp hop
      exact .kept hp
  | expand session id =>
      obtain ⟨ch, s₁, hch, -, hexpand, rfl⟩ := step_expand hop
      exact origin_expand hch hexpand hp
  | migrate id =>
      obtain ⟨ch, -, -, rfl⟩ := step_migrate hop
      exact .kept hp
  | validate id violations =>
      obtain ⟨ch, -, -, ⟨-, rfl⟩ | rfl⟩ := step_validate hop
      · exact .kept hp
      · exact .kept hp
  | contract id =>
      obtain ⟨ch, s₁, -, -, hcontract, rfl⟩ := step_contract hop
      exact (OldNames.contract hcontract).origin hp
  | abort id =>
      obtain ⟨ch, -, ⟨-, rfl⟩ | ⟨-, s₁, habort, rfl⟩⟩ := step_abort hop
      · exact .kept hp
      · exact (OldNames.abort habort).origin hp

end Rows

section Runs

variable {session : Session} {s s' s₀ : State}

/-- What is recorded is what folding gives. -/
def Folds (session : Session) (s : State) : Prop :=
  ∀ p ∈ s.o.catalog.properties, p.columnName = columnName session p.name

theorem Folds.recorded (h : Folds session s) (tid : Int) (prop : String) :
    Recorded s.o.catalog tid prop (columnName session prop) := by
  rintro p hp - rfl
  exact h p hp

theorem Folds.step {op : Op} (h : Folds session s) (hguard : Folded session s op)
    (hop : step s op = .ok s') : Folds session s' := by
  intro p hp
  -- the row is made from its name and its column alone
  generalize hname : p.name = name
  generalize hcol : p.columnName = col
  have horigin : Origin s op name col := hname ▸ hcol ▸ step_origin hop hp
  clear hname hcol hop hp
  cases horigin with
  | kept hp => exact h _ hp
  | added session' gid typeName prop dtype => exact hguard
  | value hgraph hdefine hd hkind hconcrete hvalue ht hnone =>
      have hsome := hguard _ _ hgraph hdefine _ hd hkind hconcrete hvalue _ ht
      rw [hnone] at hsome
      cases hsome
  | expanded session' hch hspec =>
      have hfold := hguard _ hch
      rw [hspec] at hfold
      exact hfold
  | renamed session' hch hspec ht hp hsub hold =>
      have hfold := hguard _ hch
      rw [hspec] at hfold
      exact hfold _ ht _ hp hsub hold

theorem mem_indexTables {c : Catalog} {tid : Int} {name : Int → String} {columns : List String}
    {ix : Index} (h : ix ∈ indexTables c tid name columns) : ix.columns = columns := by
  obtain ⟨sub, -, rfl⟩ := List.mem_map.mp h
  rfl

theorem Folds.recorded_all (h : Folds session s) (tid : Int) (props : List String) :
    List.Forall₂ (Recorded s.o.catalog tid) props (props.map (columnName session)) := by
  rw [List.forall₂_map_right_iff, List.forall₂_same]
  exact fun prop _ => h.recorded tid prop

theorem Folds.createIndex (h : Folds session s) {graph typeName prop : String} {tid : Int}
    {ixs : List Index}
    (hop : ogCreateIndex session s.o.catalog graph typeName prop = .ok ixs) {ix : Index} (hix : ix ∈ ixs) :
    List.Forall₂ (Recorded s.o.catalog tid) [prop] ix.columns := by
  simp only [ogCreateIndex] at hop
  obtain ⟨gid', -, hop⟩ := bind_eq_ok.mp hop
  obtain ⟨tid', -, hop⟩ := bind_eq_ok.mp hop
  obtain rfl := pure_eq_ok.mp hop
  rw [mem_indexTables hix]
  exact h.recorded_all tid [prop]

theorem Folds.embedding (h : Folds session s) {graph typeName prop : String} {dims : Nat} {tid : Int}
    {ixs : List Index} (hop : addEmbedding session s graph typeName prop dims = .ok (s', ixs))
    {ix : Index} (hix : ix ∈ ixs) : List.Forall₂ (Recorded s'.o.catalog tid) [prop] ix.columns := by
  simp only [addEmbedding] at hop
  obtain ⟨-, -, hop⟩ := bind_eq_ok.mp hop
  obtain ⟨gid, -, hop⟩ := bind_eq_ok.mp hop
  obtain ⟨tid', -, hop⟩ := bind_eq_ok.mp hop
  obtain ⟨s₁, hadd, hop⟩ := bind_eq_ok.mp hop
  obtain ⟨rfl, rfl⟩ := Prod.mk.inj (pure_eq_ok.mp hop)
  have hfolds : Folds session s₁ := by
    refine h.step ?_ (show SchemaEvolution.step s (.addProperty session gid typeName prop _) = .ok s₁ from hadd)
    rfl
  rw [mem_indexTables hix]
  exact hfolds.recorded_all tid [prop]

theorem Folds.fulltextQuery (h : Folds session s) {gid tid : Int} {entries : List IndexEntry}
    {index : String} {columns : List String}
    (hop : fulltextQuery session s.o.catalog gid entries index = .ok (tid, columns)) :
    ∃ entry ∈ entries, entry.name = index ∧
      List.Forall₂ (Recorded s.o.catalog tid) entry.props columns := by
  unfold FacilityColumns.fulltextQuery at hop
  split at hop
  · cases hop
  · next entry hentry =>
    split at hop
    · cases hop
    · split at hop
      · cases hop
      · obtain ⟨rfl, rfl⟩ := Prod.mk.inj (Except.ok.inj hop)
        exact ⟨entry, List.mem_of_find?_eq_some hentry, by simpa using List.find?_some hentry,
          h.recorded_all _ _⟩

theorem searchColumn_eq_ok {c : Catalog} {embeddings : List Embedding} {gid : Int}
    {typeName prop : String} {v : ViewColumn}
    (h : searchColumn session c embeddings gid typeName prop = .ok v) :
    v.column = columnName session prop := by
  simp only [searchColumn] at h
  obtain ⟨tid, -, h⟩ := bind_eq_ok.mp h
  obtain ⟨-, -, h⟩ := bind_eq_ok.mp h
  obtain ⟨kind, -, h⟩ := bind_eq_ok.mp h
  obtain rfl := pure_eq_ok.mp h
  rfl

theorem ogHybridSearch_eq_ok {c : Catalog} {embeddings : List Embedding} {gid : Int}
    {typeName prop : String} {v : ViewColumn}
    (h : ogHybridSearch session c embeddings gid typeName prop = .ok v) :
    v.column = columnName session prop := by
  simp only [ogHybridSearch] at h
  obtain ⟨tid, -, h⟩ := bind_eq_ok.mp h
  obtain ⟨-, -, h⟩ := bind_eq_ok.mp h
  obtain rfl := pure_eq_ok.mp h
  rfl

theorem ogSimilar_eq_ok {c : Catalog} {embeddings : List Embedding} {tid : Int} {prop : String}
    {v : ViewColumn} (h : ogSimilar session c embeddings tid prop = .ok v) :
    v.column = columnName session prop := by
  simp only [ogSimilar] at h
  obtain ⟨-, -, h⟩ := bind_eq_ok.mp h
  obtain ⟨kind, -, h⟩ := bind_eq_ok.mp h
  obtain rfl := pure_eq_ok.mp h
  rfl

theorem ogStaleEmbeddings_columns {c : Catalog} {embeddings : List Embedding} {gid : Int}
    {scan : StaleScan} (h : scan ∈ ogStaleEmbeddings session c embeddings gid) :
    scan.scol = columnName session scan.source ∧ scan.ecol = columnName session scan.embedding.prop := by
  obtain ⟨e, -, h⟩ := List.mem_flatMap.mp h
  obtain ⟨source, -, h⟩ := List.mem_flatMap.mp h
  obtain ⟨sub, -, rfl⟩ := List.mem_map.mp h
  exact ⟨rfl, rfl⟩

theorem ogMarkEmbedded_eq_some {c : Catalog} {embeddings : List Embedding} {tid : Int}
    {prop source scol : String}
    (h : ogMarkEmbedded session c embeddings tid prop = some (source, scol)) :
    scol = columnName session source := by
  unfold ogMarkEmbedded at h
  split at h
  · split at h
    · obtain ⟨source', -, hpair⟩ := Option.map_eq_some_iff.mp h
      obtain ⟨rfl, rfl⟩ := Prod.mk.inj hpair
      rfl
    · cases h
  · cases h

/-- The view takes its column from a row of the name. -/
theorem Folds.cypher (h : Folds session s) {tid : Int} {prop column dtype : String}
    (hview : viewProperty? s.o.catalog tid prop = some (column, dtype)) :
    Recorded s.o.catalog tid prop column := by
  obtain ⟨p, hfind, hp⟩ := Option.map_eq_some_iff.mp hview
  obtain ⟨rfl, rfl⟩ := Prod.mk.inj hp
  have hname : p.name = prop := by simpa using List.find?_some hfind
  have hmem := (List.mem_filter.mp (List.mem_reverse.mp (List.mem_of_find?_eq_some hfind))).1
  rw [h p hmem, hname]
  exact h.recorded tid prop

theorem Folds.resolves (h : Folds session s) : Resolves session s where
  createIndex _ _ _ _ _ _ _ _ hop _ hix := h.createIndex hop hix
  unique tid props _ ix hix := by
    rw [mem_indexTables hix]
    exact h.recorded_all tid props
  fulltext tid props _ ix hix := by
    rw [mem_indexTables hix]
    exact h.recorded_all tid props
  fulltextQuery _ _ _ _ _ hop := h.fulltextQuery hop
  embedding _ _ _ _ _ _ _ _ _ _ hop _ hix := h.embedding hop hix
  search _ _ _ prop v hop := by
    have hcol : v.column = columnName session prop := by
      rcases hop with hop | hop | hop
      · exact searchColumn_eq_ok hop
      · exact searchColumn_eq_ok hop
      · exact ogHybridSearch_eq_ok hop
    rw [hcol]
    exact h.recorded v.type prop
  similar _ tid prop v hop := by
    rw [ogSimilar_eq_ok hop]
    exact ⟨h.recorded tid prop, h.recorded v.type prop⟩
  stale _ _ scan hscan := by
    obtain ⟨hscol, hecol⟩ := ogStaleEmbeddings_columns hscan
    rw [hscol, hecol]
    exact ⟨h.recorded _ _, h.recorded _ _⟩
  mark _ tid _ source _ hop := by
    rw [ogMarkEmbedded_eq_some hop]
    exact h.recorded tid source
  cypher _ _ _ _ hview := h.cypher hview

theorem resolves_of_folded {es : List Op} (h : Start s₀)
    (run : Run step (fun _ s op => Folded session s op) s₀ es s) : Resolves session s := by
  have hstart : Folds session s₀ := by
    intro p hp
    rw [h.properties] at hp
    cases hp
  have hfolds : Folds session s := run.invariant (I := fun _ s => Folds session s) hstart
    fun _ _ _ _ hfolds hguard hop => hfolds.step hguard hop
  exact hfolds.resolves

/-- The type with a property, and the change that gives the property a new name. -/
def renamed (p q : String) (phase : Phase) (properties : List Property) : State :=
  { book [(p, "int8")] with
    o := ⟨{ (book []).o.catalog with properties := properties }, 2, []⟩
    changes := [⟨1, 1, .renameProperty "Book" p q, phase, ⟨1, 0, columnName ascii p, "", ""⟩⟩]
    nextChange := 2 }

/-- A property under its first name, with the column of that name. -/
def named (p q : String) : Property := ⟨1, q, "int8", columnName ascii p, false, false⟩

theorem createType_kb : step kb (.createType "kb" "Book" .entity [] false) = .ok (book []) := rfl

theorem addProperty_book {p : String} (hp : p = "a b" ∨ p = "a") :
    step (book []) (.addProperty ascii 1 "Book" p "int8") = .ok (book [(p, "int8")]) := by
  rcases hp with rfl | rfl <;> rfl

theorem plan_book {p q : String} (hp : p = "a b" ∧ q = "a-b" ∨ p = "a" ∧ q = "b") :
    step (book [(p, "int8")]) (.plan "kb" (.renameProperty "Book" p q)) =
      .ok (renamed p q .planned [named p p]) := by
  rcases hp with ⟨rfl, rfl⟩ | ⟨rfl, rfl⟩ <;> rfl

theorem expand_renamed {p q : String} (hp : p = "a b" ∧ q = "a-b" ∨ p = "a" ∧ q = "b") :
    step (renamed p q .planned [named p p]) (.expand ascii 1) =
      .ok (renamed p q .expanded [named p p, named p q]) := by
  rcases hp with ⟨rfl, rfl⟩ | ⟨rfl, rfl⟩ <;> rfl

theorem columnName_blank : columnName ascii "a b" = "p_a_b" := rfl

theorem columnName_dash : columnName ascii "a-b" = "p_a_b" := rfl

theorem resolves_of_folded_two : ∃ s, s.o.catalog.properties =
    [⟨1, "a b", "int8", "p_a_b", false, false⟩, ⟨1, "a-b", "int8", "p_a_b", false, false⟩] ∧
      Resolves ascii s := by
  have hrename : Folded ascii (renamed "a b" "a-b" .planned [named "a b" "a b"])
      (.expand ascii 1) := by
    intro ch hch
    obtain rfl := Except.ok.inj hch
    intro tid _ p hp _ _
    obtain rfl := List.mem_singleton.mp hp
    exact columnName_blank.trans columnName_dash.symm
  have run : Run step (fun _ s op => Folded ascii s op) kb
      [.createType "kb" "Book" .entity [] false, .addProperty ascii 1 "Book" "a b" "int8",
        .plan "kb" (.renameProperty "Book" "a b" "a-b"), .expand ascii 1]
      (renamed "a b" "a-b" .expanded [named "a b" "a b", named "a b" "a-b"]) :=
    (((Run.single trivial createType_kb).snoc rfl (addProperty_book (.inl rfl))).snoc trivial
      (plan_book (.inl ⟨rfl, rfl⟩))).snoc hrename (expand_renamed (.inl ⟨rfl, rfl⟩))
  exact ⟨_, rfl, resolves_of_folded ⟨rfl, rfl, rfl⟩ run⟩

/-- The type and its one property, which has the column of the name it had first. -/
def renamedBook : State where
  o := ⟨{ (book []).o.catalog with properties := [⟨1, "b", "int8", columnName ascii "a", false, false⟩] }, 2, []⟩
  columns := (book [("a", "int8")]).columns
  histories := []
  triggers := []
  checks := []
  changes := [⟨1, 1, .renameProperty "Book" "a" "b", .contracted, ⟨1, 0, columnName ascii "a", "", ""⟩⟩]
  nextChange := 2

theorem validate_renamed : step (renamed "a" "b" .expanded [named "a" "a", named "a" "b"])
    (.validate 1 0) = .ok (renamed "a" "b" .validated [named "a" "a", named "a" "b"]) := rfl

theorem contract_renamed : step (renamed "a" "b" .validated [named "a" "a", named "a" "b"])
    (.contract 1) = .ok renamedBook := rfl

/-- An index on the property under its new name is asked for on a column there is not. -/
theorem not_resolves :
    ¬ ∀ (session : Session) (s₀ s : State) (es : List Op), Start s₀ →
      Run step (fun _ _ _ => True) s₀ es s → Resolves session s := by
  intro h
  have run : Run step (fun _ _ _ => True) kb
      [.createType "kb" "Book" .entity [] false, .addProperty ascii 1 "Book" "a" "int8",
        .plan "kb" (.renameProperty "Book" "a" "b"), .expand ascii 1, .validate 1 0, .contract 1]
      renamedBook :=
    (((((Run.single trivial createType_kb).snoc trivial (addProperty_book (.inr rfl))).snoc
      trivial (plan_book (.inr ⟨rfl, rfl⟩))).snoc trivial (expand_renamed (.inr ⟨rfl, rfl⟩))).snoc
        trivial validate_renamed).snoc trivial contract_renamed
  have hresolves := h ascii kb _ _ ⟨rfl, rfl, rfl⟩ run
  have hindex := hresolves.createIndex "kb" "Book" "b" 1 1 [⟨"ix_1_p_b", 1, ["p_b"]⟩] rfl rfl rfl
    _ (List.mem_singleton_self _)
  rw [List.forall₂_cons] at hindex
  have hcol := hindex.1 ⟨1, "b", "int8", columnName ascii "a", false, false⟩ (by simp [renamedBook])
    (.inl rfl) rfl
  exact absurd hcol (by decide)

end Runs

end OntologicalDb.FacilityColumns
