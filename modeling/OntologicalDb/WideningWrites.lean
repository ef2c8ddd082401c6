import OntologicalDb.PlanSuccess

/-!
Writes that create or widen columns, in a database whose columns other objects depend on:
the union views that queries leave behind, and policies and triggers.
-/

namespace OntologicalDb.WideningWrites

open OntologicalDb.ExceptRules
open OntologicalDb.GraphStorage
open OntologicalDb.Ids
open OntologicalDb.Labeling
open OntologicalDb.PlanSuccess
open OntologicalDb.PropertyMaps
open OntologicalDb.PropertyPlans
open OntologicalDb.RowDocuments
open OntologicalDb.RowWrites (Entity)
open OntologicalDb.TypeCatalog
open OntologicalDb.TypedTables
open OntologicalDb.Values

section Model

/-- An object whose definition reads columns of storage tables: a union view, or a policy or
a trigger.  Alias views are not among them: a write drops and rebuilds them itself. -/
structure Dependent where
  view : Option (Int × Bool)
  reads : List (StorageTable × String)

/-- The store with the columns its tables have, and what depends on them. -/
structure Db where
  store : Store
  columns : StorageTable → String → Option String
  dependents : List Dependent

def Db.catalog (db : Db) : Catalog := db.store.schema.catalog

def Dependent.isView (d : Dependent) (tid : Int) (isEdge : Bool) : Bool :=
  match d.view with
  | some (t, e) => t = tid && e = isEdge
  | none => false

/-- Some definition reads the column. -/
def reads (db : Db) (table : StorageTable) (col : String) : Bool :=
  db.dependents.any fun d => d.reads.any fun x => x.1 = table && x.2 = col

/-- The columns `build_view` selects, of the tables that have them. -/
def viewReads (db : Db) (tid : Int) (isEdge : Bool) : List (StorageTable × String) :=
  (concreteTables db.catalog tid isEdge).flatMap fun sub =>
    (((viewProperties db.catalog tid).map fun p => p.2.1).filter fun col =>
      (db.columns sub.2 col).isSome).map fun col => (sub.2, col)

/-- The view of a type exists from the first query of it on. -/
def ensureView (db : Db) (tid : Int) (isEdge : Bool) : Db :=
  if db.dependents.any fun d => d.isView tid isEdge then db
  else { db with dependents := ⟨some (tid, isEdge), viewReads db tid isEdge⟩ :: db.dependents }

/-- `drop_all_views`, with every new version of the schema. -/
def dropViews (db : Db) : Db :=
  { db with dependents := db.dependents.filter fun d => d.view.isNone }

def setType (db : Db) (table : StorageTable) (col dtype : String) : Db :=
  { db with columns := fun t c => if t = table ∧ c = col then some dtype else db.columns t c }

/-- `ALTER TABLE … ALTER COLUMN … TYPE text`. -/
def retypeColumn (col : String) (db : Db) (table : StorageTable) : Except String Db :=
  if (db.columns table col).isNone then .error s!"column \"{col}\" does not exist"
  else if reads db table col then
    .error "cannot alter type of a column used by a view or rule"
  else .ok (setType db table col "text")

variable (assignable : String → String → Bool)

/-- `ADD COLUMN IF NOT EXISTS`, and the type the statement that moves the values needs. -/
def addColumn (col dtype : String) (db : Db) (table : StorageTable) : Except String Db :=
  match db.columns table col with
  | none => .ok (setType db table col dtype)
  | some t =>
      if t = dtype ∨ assignable dtype t then .ok db
      else .error s!"column \"{col}\" is of type {t} but expression is of type {dtype}"

variable (s : Session)

/-- What `declare_new_props` does to the columns; only a new property drops the views. -/
def declareColumns (tid : Int) (kvs : List (String × Json)) (db : Db) : Except String Db :=
  let c := db.catalog
  if !kvs.any (needsWork c tid) || !s.canChangeSchema then .ok db
  else
    (kvs.filter (needsWork c tid)).foldlM (fun db kv =>
      match inferColumnType kv.2, property? c tid kv.1 with
      | some want, none => do
          let db ← (tablesBelow c tid).foldlM (addColumn assignable (columnName s kv.1) want) db
          return dropViews db
      | some _, some p => (tablesBelow c tid).foldlM (retypeColumn p.columnName) db
      | none, _ => pure db) db

/-- The assigned columns have the types of their properties, or take values of these. -/
def checkAssigned (c : Catalog) (columns : StorageTable → String → Option String) (tid : Int)
    (props : Json) : Bool :=
  match storageTable c tid with
  | none => true
  | some table =>
      ((propertiesOf c tid).filter fun p => (props.get? p.name).isSome).all fun p =>
        match columns table p.columnName with
        | none => false
        | some t => t = p.dataType || assignable p.dataType t

/-- `set_node_props_inner` and `set_edge_props_inner`: the columns first, then the data. -/
def writeProps (db : Db) (x : Entity) (kvs : List (String × Json)) : Except String Db := do
  let tid := idType (idOf x)
  let db' ← declareColumns assignable s tid kvs db
  let schema ← PropertyMaps.writeProps s db.store.schema x (.obj kvs)
  require (checkAssigned assignable schema.catalog db'.columns tid (.obj kvs))
    "column is of another type than the expression"
  return { db' with store := { db.store with schema := schema } }

/-- A query of a type, the write of a property, or any other operation with what it leaves. -/
inductive Event
  | query (tid : Int) (isEdge : Bool)
  | write (x : Entity) (key : String) (v : Json)
  | other (db : Db)

def Event.step (db : Db) : Event → Except String Db
  | .query tid isEdge => .ok (ensureView db tid isEdge)
  | .write x key v => writeProps assignable s db x [(key, v)]
  | .other db' => .ok db'

end Model

section Conditions

variable (s : Session)

/-- A write has room: nothing depends on a column that must be widened, a new column is free
in every table, a column that stays has the type of its property, and values are read at the
type of the column: the one written, and those of the key in the extension payloads a new
column takes over.  No declared key is in the payload of the instance as well. -/
structure Fits (db : Db) (x : Entity) (key : String) (v : Json) : Prop where
  independent : s.canChangeSchema = true →
    ∀ p, property? db.catalog (idType (idOf x)) key = some p → widens p v = true →
      ∀ table ∈ tablesBelow db.catalog (idType (idOf x)),
        reads db table p.columnName = false ∧ (db.columns table p.columnName).isSome
  free : s.canChangeSchema = true → property? db.catalog (idType (idOf x)) key = none →
    ∀ dtype, inferColumnType v = some dtype →
      ∀ table ∈ tablesBelow db.catalog (idType (idOf x)),
        db.columns table (columnName s key) = none ∨
          db.columns table (columnName s key) = some dtype
  typed : ∀ p, property? db.catalog (idType (idOf x)) key = some p →
    ¬ (s.canChangeSchema = true ∧ widens p v = true) →
      ∀ table, storageTable db.catalog (idType (idOf x)) = some table →
        db.columns table p.columnName = some p.dataType
  movable : s.canChangeSchema = true → Movable s db.store.schema (idType (idOf x)) key v
  readable : Readable s db.catalog (idType (idOf x)) key v
  room : ∀ p, property? db.catalog (idType (idOf x)) key = some p →
    ∀ table r, storageTable db.catalog (idType (idOf x)) = some table →
      rowAt db.store.schema table (idOf x) = some r → extGet r key = none

variable (assignable : String → String → Bool)

/-- Every write of a run is one its session may make, and has room where the run is. -/
def Guarded : List Event → Db → Prop
  | [], _ => True
  | e :: es, db =>
      (∀ x key v, e = .write x key v → Writable s db.store x key ∧ Fits s db x key v) ∧
        ∀ db', e.step assignable s db = .ok db' → Guarded es db'

/-- No event of a run is refused, and every value is stored. -/
def Served : List Event → Db → Prop
  | [], _ => True
  | e :: es, db => ∃ db', e.step assignable s db = .ok db' ∧
      (∀ x key v, e = .write x key v → Stored s db.store x key v db'.store) ∧ Served es db'

end Conditions

section Columns

variable {assignable : String → String → Bool} {s : Session} {db : Db} {col dtype : String}
  {tables : List StorageTable}

theorem setType_columns {table t : StorageTable} {c : String} :
    (setType db table col dtype).columns t c =
      if t = table ∧ c = col then some dtype else db.columns t c := rfl

/-- A free column is added to every table. -/
theorem exists_addColumns
    (h : ∀ table ∈ tables, db.columns table col = none ∨ db.columns table col = some dtype) :
    ∃ db', tables.foldlM (addColumn assignable col dtype) db = .ok db' ∧
      (∀ table ∈ tables, db'.columns table col = some dtype) ∧
        ∀ t, db'.columns t col = db.columns t col ∨ db'.columns t col = some dtype := by
  induction tables generalizing db with
  | nil => exact ⟨db, rfl, fun _ ht => absurd ht List.not_mem_nil, fun _ => .inl rfl⟩
  | cons table tables ih =>
      have hstep : ∃ db₁, addColumn assignable col dtype db table = .ok db₁ ∧
          db₁.columns table col = some dtype ∧
            ∀ t, db₁.columns t col = db.columns t col ∨ db₁.columns t col = some dtype := by
        unfold addColumn
        rcases h table List.mem_cons_self with hnone | hsome
        · rw [hnone]
          refine ⟨_, rfl, ?_, fun t => ?_⟩
          · rw [setType_columns, if_pos ⟨rfl, rfl⟩]
          · rw [setType_columns]
            split_ifs
            · exact .inr rfl
            · exact .inl rfl
        · rw [hsome]
          exact ⟨db, if_pos (.inl rfl), hsome, fun _ => .inl rfl⟩
      rcases hstep with ⟨db₁, hdb₁, hhere, hkept⟩
      have hrest : ∀ t ∈ tables, db₁.columns t col = none ∨ db₁.columns t col = some dtype := by
        intro t ht
        rcases hkept t with heq | hsome
        · rw [heq]
          exact h t (List.mem_cons_of_mem _ ht)
        · exact .inr hsome
      rcases ih hrest with ⟨db', hdb', hall, hkept'⟩
      refine ⟨db', foldlM_cons_eq_ok.mpr ⟨db₁, hdb₁, hdb'⟩, fun t ht => ?_, fun t => ?_⟩
      · rcases List.mem_cons.mp ht with rfl | ht
        · rcases hkept' t with heq | hsome
          · rw [heq, hhere]
          · exact hsome
        · exact hall t ht
      · rcases hkept' t with heq | hsome
        · rw [heq]
          exact hkept t
        · exact .inr hsome

/-- A column nothing depends on is made text in every table. -/
theorem exists_retypeColumns (h : ∀ table ∈ tables,
    reads db table col = false ∧ (db.columns table col).isSome) :
    ∃ db', tables.foldlM (retypeColumn col) db = .ok db' ∧
      (∀ table ∈ tables, db'.columns table col = some "text") ∧
        ∀ t, db'.columns t col = db.columns t col ∨ db'.columns t col = some "text" := by
  induction tables generalizing db with
  | nil => exact ⟨db, rfl, fun _ ht => absurd ht List.not_mem_nil, fun _ => .inl rfl⟩
  | cons table tables ih =>
      rcases h table List.mem_cons_self with ⟨hreads, hsome⟩
      have hstep : retypeColumn col db table = .ok (setType db table col "text") := by
        rw [retypeColumn, if_neg (by simp [Option.isSome_iff_ne_none.mp hsome]),
          if_neg (by simp [hreads])]
      have hrest : ∀ t ∈ tables, reads (setType db table col "text") t col = false ∧
          ((setType db table col "text").columns t col).isSome := by
        intro t ht
        rcases h t (List.mem_cons_of_mem _ ht) with ⟨hreads, hsome⟩
        refine ⟨hreads, ?_⟩
        rw [setType_columns]
        split_ifs
        · rfl
        · exact hsome
      have hkept (t : StorageTable) : (setType db table col "text").columns t col =
          db.columns t col ∨ (setType db table col "text").columns t col = some "text" := by
        rw [setType_columns]
        split_ifs
        · exact .inr rfl
        · exact .inl rfl
      rcases ih hrest with ⟨db', hdb', hall, hkept'⟩
      refine ⟨db', foldlM_cons_eq_ok.mpr ⟨_, hstep, hdb'⟩, fun t ht => ?_, fun t => ?_⟩
      · rcases List.mem_cons.mp ht with rfl | ht
        · rcases hkept' t with heq | hsome
          · rw [heq, setType_columns, if_pos ⟨rfl, rfl⟩]
          · exact hsome
        · exact hall t ht
      · rcases hkept' t with heq | hsome
        · rw [heq]
          exact hkept t
        · exact .inr hsome

end Columns

section Writes

variable {assignable : String → String → Bool} {s : Session} {db : Db} {x : Entity}
  {key : String} {v : Json}

/-- The columns have room for one member, and the column it is assigned to has the type the
value is read at. -/
theorem exists_declareColumns (htid : idType (idOf x) ∈ ogSubtypes db.catalog (idType (idOf x)))
    (hfits : Fits s db x key v) :
    ∃ db', declareColumns assignable s (idType (idOf x)) [(key, v)] db = .ok db' ∧
      ∀ table, storageTable db.catalog (idType (idOf x)) = some table →
        ∀ dtype, columnType s db.catalog (idType (idOf x)) key v = some dtype →
          db'.columns table (columnOf s db.catalog (idType (idOf x)) key) = some dtype := by
  have hneeds (p : Property) (hp : property? db.catalog (idType (idOf x)) key = some p) :
      needsWork db.catalog (idType (idOf x)) (key, v) = widens p v := by
    rw [needsWork, widens, hp]
    cases inferColumnType v with
    | none => rfl
    | some want => rfl
  unfold declareColumns
  dsimp only
  split_ifs with hskip
  · refine ⟨db, rfl, fun table htable dtype htype => ?_⟩
    have hidle : s.canChangeSchema = true →
        needsWork db.catalog (idType (idOf x)) (key, v) = false := by
      intro hcan
      simpa [hcan] using hskip
    rw [columnType] at htype
    rw [columnOf]
    cases hp : property? db.catalog (idType (idOf x)) key with
    | some p =>
        have hstays : ¬ (s.canChangeSchema = true ∧ widens p v = true) := by
          rintro ⟨hcan, hwidens⟩
          rw [← hneeds p hp, hidle hcan] at hwidens
          cases hwidens
        simp only [hp, if_neg hstays, Option.some.injEq] at htype
        rw [← htype]
        exact hfits.typed p hp hstays table htable
    | none =>
        simp only [hp] at htype
        split_ifs at htype with hcan
        have hwork := hidle hcan
        rw [needsWork, htype, hp] at hwork
        cases hwork
  · have hwork : needsWork db.catalog (idType (idOf x)) (key, v) = true ∧
        s.canChangeSchema = true := by simpa using hskip
    have hlist : [(key, v)].filter (needsWork db.catalog (idType (idOf x))) = [(key, v)] := by
      simp [hwork.1]
    have hone {g : Db → String × Json → Except String Db} {db' : Db}
        (h : g db (key, v) = .ok db') : [(key, v)].foldlM g db = .ok db' :=
      foldlM_cons_eq_ok.mpr ⟨db', h, rfl⟩
    rw [hlist]
    cases hwant : inferColumnType v with
    | none =>
        have hno := hwork.1
        rw [needsWork, hwant] at hno
        cases hno
    | some want =>
        cases hp : property? db.catalog (idType (idOf x)) key with
        | none =>
            rcases @exists_addColumns assignable db (columnName s key) want _
              (hfits.free hwork.2 hp want hwant) with ⟨db', hdb', hall, -⟩
            refine ⟨dropViews db', hone (by
              simp only [hwant, hp]
              exact bind_eq_ok.mpr ⟨db', hdb', rfl⟩), fun table htable dtype htype => ?_⟩
            rw [columnType, hp] at htype
            simp only [hwork.2, if_true, hwant, Option.some.injEq] at htype
            rw [columnOf, hp, ← htype]
            exact hall table (mem_tablesBelow htid htable)
        | some p =>
            have hwidens : widens p v = true := (hneeds p hp).symm.trans hwork.1
            rcases exists_retypeColumns (hfits.independent hwork.2 p hp hwidens) with
              ⟨db', hdb', hall, -⟩
            refine ⟨db', hone (by simpa only [hwant, hp] using hdb'),
              fun table htable dtype htype => ?_⟩
            rw [columnType, hp] at htype
            simp only [hwork.2, hwidens, and_self, if_true, Option.some.injEq] at htype
            rw [columnOf, hp, ← htype]
            exact hall table (mem_tablesBelow htid htable)

/-- A write that has room is not refused, and its value is stored. -/
theorem writeProps_stored (htext : Texts s) (hw : Writable s db.store x key)
    (hfits : Fits s db x key v) :
    ∃ db', writeProps assignable s db x [(key, v)] = .ok db' ∧
      Stored s db.store x key v db'.store := by
  rcases @exists_declareColumns assignable s db x key v hw.labelled hfits with
    ⟨db₁, hdb₁, hcolumns⟩
  rcases exists_writeProps hw htext hfits.movable hfits.readable hfits.room with
    ⟨schema, hschema, hstored⟩
  have hassigned : checkAssigned assignable schema.catalog db₁.columns (idType (idOf x))
      (.obj [(key, v)]) = true := by
    have hkeys : ([(key, v)].map (·.1)).Nodup := List.nodup_singleton key
    rcases setPropsInner_eq_ok (writeProps_eq_ok hschema) with
      ⟨table, htable, sc₁, plan, hplan, ⟨tables, rfl⟩, -⟩
    have hev := (declareNewProps_eq_ok hw.labelled hplan.declared).1
    have hnames := hplan.nodup_names hkeys hw.labelled hw.names
    have htable₁ : storageTable sc₁.catalog (idType (idOf x)) = some table := by
      rw [hev.storageTable_eq]
      exact htable
    rw [checkAssigned, htable₁]
    refine List.all_eq_true.mpr fun p hp => ?_
    rcases List.mem_filter.mp hp with ⟨hp, hsome⟩
    have hname : p.name = key := by
      rw [get_single] at hsome
      split_ifs at hsome with heq
      · exact heq.symm
      · cases hsome
    have hfound := property?_of_mem hnames hp
    rw [hname] at hfound
    rcases hplan.column hkeys hw.labelled (List.mem_singleton_self (key, v)) hfound with
      ⟨hcol, htype⟩
    have hcolumn : db₁.columns table
        (columnOf s db.store.schema.catalog (idType (idOf x)) key) = some p.dataType :=
      hcolumns table htable p.dataType htype
    rw [hcol, hcolumn]
    simp
  exact ⟨_, bind_eq_ok.mpr ⟨db₁, hdb₁, bind_eq_ok.mpr ⟨schema, hschema,
    bind_eq_ok.mpr ⟨⟨⟩, require_eq_ok.mpr hassigned, rfl⟩⟩⟩, hstored⟩

end Writes

/-- `::text` of an integer, and casts that leave the value as it is. -/
def castText (dtype : String) : Val → Except String Val
  | .int n => .ok (if dtype = "text" then .text (toString n) else .int n)
  | v => .ok v

/-- A session that may change the schema. -/
def ownerSession : Session :=
  { writerSession with
    role := "owner"
    canChangeSchema := true
    cast := castText }

/-- One node with the property `a`, in a column of type `int8`. -/
def oneColumn : Db where
  store := oneNode
  columns := fun t c => if t = nodeTable 1 ∧ c = "p_a" then some "int8" else none
  dependents := []

theorem ownerSession_texts : Texts ownerSession := by
  intro v
  cases v <;> exact ⟨_, rfl⟩

theorem oneNode_writable : Writable ownerSession oneNode (.node firstNode) "a" where
  registered := oneNode_present.registered
  labelled := by decide
  names := by decide
  row := ⟨nodeTable 1, _, rfl, by decide, rfl, .inl rfl, by decide, fun p hp hkey => by
    obtain rfl := List.mem_singleton.mp hp
    cases hkey⟩
  free := by decide
  real := rfl
  allowed := fun _ _ => rfl
  unreserved := by decide

/-- Without views the column is widened to text. -/
theorem oneColumn_fits : Fits ownerSession oneColumn (.node firstNode) "a" (.str "x") where
  independent := fun _ p hp _ => by
    obtain rfl := Option.some.inj hp
    decide
  free := fun _ hp => by cases hp
  typed := fun p hp hstays => by
    obtain rfl := Option.some.inj hp
    exact absurd ⟨rfl, by decide⟩ hstays
  movable := fun _ _ _ hp => by cases hp
  readable := fun dtype htype => by
    obtain rfl := Option.some.inj htype
    exact ⟨.text "x", rfl⟩
  room := fun _ _ table r htable hr => by
    obtain rfl := Option.some.inj htable
    obtain rfl := Option.some.inj hr
    rfl

end OntologicalDb.WideningWrites
