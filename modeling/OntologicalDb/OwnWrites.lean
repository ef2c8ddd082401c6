import OntologicalDb.EntityFrames
import OntologicalDb.IntegerArithmetic

/-!
Reading one's own writes: the copies of entities a binding row carries, across the write
clauses of the row, against the property maps in the store.
-/

namespace OntologicalDb.OwnWrites

open OntologicalDb.CypherSyntax
open OntologicalDb.EntityFrames
open OntologicalDb.ExceptRules
open OntologicalDb.GraphStorage
open OntologicalDb.GuardedRuns
open OntologicalDb.Ids
open OntologicalDb.IntegerArithmetic (exactRuntime)
open OntologicalDb.Labeling
open OntologicalDb.PropertyMaps
open OntologicalDb.PropertyPlans
open OntologicalDb.RowDocuments
open OntologicalDb.RowEvaluator
open OntologicalDb.RowWrites
open OntologicalDb.TypeCatalog
open OntologicalDb.TypedTables
open OntologicalDb.Values

section Model

variable {F : Type} (rt : Runtime F) (params : Value F) (s : Session) (G : Engine F)

/-- A binding row between two steps of its clauses, with the store.  What only an observer
knows is kept beside them: the entities the clauses of the row have written. -/
structure Row (F : Type) where
  state : State
  env : Env F
  written : List Entity

/-- The entities that one store registers and another did not. -/
def born (before after : Store) : List Entity :=
  ((after.ogNode.filter fun n => n ∉ before.ogNode).map fun n => Entity.node n.id) ++
    (after.ogEdge.filter fun e => e ∉ before.ogEdge).map fun e => Entity.edge e.id

def members : Json → List (String × Json)
  | .obj kvs => kvs
  | _ => []

/-- The members a `SET` item writes; a label is not among them, nor what is no map. -/
def payload (env : Env F) : SetOp → List (String × Json)
  | .prop _ prop value => [(prop, G.encode (evalOr rt params value env))]
  | .map _ value _ => members (G.encode (evalOr rt params value env))
  | .label _ _ => []

/-- The entity a `SET` item writes to. -/
def target (env : Env F) (op : SetOp) : List Entity :=
  if (payload rt params G env op).isEmpty then [] else ((env (setVar op)).bind entityOf).toList

/-- The steps of write clauses: an item of `SET` or `REMOVE`, a node or a relationship of
`CREATE`, the rows `MERGE` finds, and a deletion. -/
inductive Event
  | set (op : SetOp)
  | node (np : NodePat)
  | rel (rel : RelPat) (a b : Int)
  | found (p : Pattern)
  | delete (detach : Bool) (e : Expr)

def bindAll (env : Env F) (found : List (String × Value F)) : Env F :=
  found.foldl (fun env kv => Function.update env kv.1 (some kv.2)) env

def step (row : Row F) : Event → Except String (Row F)
  | .set op => do
      let (st, env) ← applySetOp rt params G (row.state, row.env) op
      return ⟨st, env, target rt params G row.env op ++ row.written⟩
  | .node np => do
      let (st, env, _) ← createNodeElem rt params s G np row.state row.env
      return ⟨st, env, born row.state.store st.store ++ row.written⟩
  | .rel rel a b => do
      let (st, env) ← createRel rt params s G rel a b row.state row.env
      return ⟨st, env, born row.state.store st.store ++ row.written⟩
  | .found p =>
      match G.find row.state.store p row.env with
      | some found => .ok { row with env := bindAll row.env found }
      | none => .ok row
  | .delete detach e => do
      let st ← deleteExpr rt params s detach row.env row.state e
      return { row with state := st }

/-- A property read through a variable, null as an absent one. -/
def readThrough (env : Env F) (var key : String) : Option Json :=
  nonNull (G.encode (evalOr rt params (.prop (.var var) key) env))

/-- The property the graph has. -/
def held (st : Store) (x : Entity) (key : String) : Option Json :=
  (propertyMap st x key).bind nonNull

/-- The variable is bound to a copy of the entity. -/
def Names (env : Env F) (var : String) (x : Entity) : Prop :=
  (env var).bind entityOf = some x

/-- Whatever a clause of the row reads of an entity an earlier one has written, through any
variable bound to it, is what the graph has now. -/
def Current (row : Row F) : Prop :=
  ∀ x ∈ row.written, Registered row.state.store x → ∀ var, Names row.env var x →
    ∀ key, isReservedKey key = false →
      readThrough rt params G row.env var key = held row.state.store x key

end Model

section Conditions

variable {F : Type} (rt : Runtime F) (params : Value F) (s : Session) (G : Engine F)

/-- A copy reads as the graph has it. -/
def Copies (st : Store) (x : Entity) (v : Value F) : Prop :=
  ∀ key, isReservedKey key = false →
    nonNull (G.encode ((v.get key).getD .null)) = held st x key

/-- What the row loop relies on: values are written as the documents they are, property
writes are those of the storage layer, copies are made of what the graph has, and new labels
leave what exists alone. -/
structure Faithful : Prop where
  object : ∀ kvs, G.encode (.object kvs) = .obj (kvs.map fun kv => (kv.1, G.encode kv.2))
  setProps : ∀ sc x v, G.setProps sc x v = PropertyMaps.writeProps s sc x (G.encode v)
  nodeJson : ∀ st id x, entityOf (G.nodeJson st id) = some x →
    x = .node id ∧ (Registered st x → Copies G st x (G.nodeJson st id))
  edgeJson : ∀ st id x, entityOf (G.edgeJson st id) = some x →
    x = .edge id ∧ (Registered st x → Copies G st x (G.edgeJson st id))
  found : ∀ st p env found, G.find st p env = some found → ∀ kv ∈ found, ∀ x,
    entityOf kv.2 = some x → Registered st x → Copies G st x kv.2
  resolve : ∀ sc labels kind sc' tid, G.resolve sc labels kind = .ok (sc', tid) →
    sc'.tables = sc.tables ∧ ∀ ty table, storageTable sc.catalog ty = some table →
      storageTable sc'.catalog ty = some table ∧
        propertiesOf sc'.catalog ty = propertiesOf sc.catalog ty

/-- The other written entities the row names keep their properties when a payload of a type
changes the schema. -/
def Undisturbed (row : Row F) (sc : Schema) (tid : Int) (kvs : List (String × Json))
    (x : Option Entity) : Prop :=
  tid ∈ ogSubtypes sc.catalog tid ∧
    ∀ y ∈ row.written, some y ≠ x → (∃ var, Names row.env var y) → Registered row.state.store y →
      Present row.state.store y ∧ Untouched s sc tid kvs y

/-- What a payload makes of the properties read: its members, and the others as before. -/
def patched (kvs : List (String × Json)) (m : String → Option Json) (key : String) : Option Json :=
  ((Json.obj kvs).get? key).elim (m key) nonNull

/-- A write of some members to an entity: they are given back by the columns they go to, every
copy of the entity in the row agrees with what it is about to be, save what is refreshed, and
the other written entities keep their properties. -/
structure Fits (row : Row F) (x : Entity) (kvs : List (String × Json))
    (refreshed : String → String → Prop) : Prop where
  present : Present row.state.store x
  nodup : (kvs.map (·.1)).Nodup
  placed : ∀ table r, storageTable row.state.store.schema.catalog (idType (idOf x)) = some table →
    rowAt row.state.store.schema table (idOf x) = some r →
      Placed s row.state.store.schema.catalog (idType (idOf x)) (kvs.map (·.1)) r
  returned : ∀ kv ∈ kvs, ∀ dtype,
    columnType s row.state.store.schema.catalog (idType (idOf x)) kv.1 kv.2 = some dtype →
      ∀ val, columnValue s dtype (.obj kvs) kv.1 = .ok val →
        nonNull (toJson val) = nonNull kv.2
  copies : ∀ var, Names row.env var x → ∀ key, isReservedKey key = false → ¬ refreshed var key →
    readThrough rt params G row.env var key = patched kvs (held row.state.store x) key
  undisturbed : Undisturbed s row row.state.store.schema (idType (idOf x)) kvs (some x)
  apart : ∀ y ∈ row.written, y ≠ x → Registered row.state.store y → idOf y ≠ idOf x

/-- A creation: the other written entities keep their properties, and no variable that stays
bound names the identifier that comes next. -/
structure Creates (row : Row F) (sc : Schema) (tid : Int) (props : List (String × Expr))
    (var : Option String) : Prop where
  undisturbed : ∀ kvs, G.encode (propsJson rt params props row.env) = .obj kvs →
    Undisturbed s row sc tid kvs none
  next : ∀ alloc id, allocId row.state.store.ogIdAlloc tid = .ok (alloc, id) →
    ∀ v x, some v ≠ var → Names row.env v x → idOf x ≠ id

/-- What a `SET` item refreshes: the property of the variable it names; a map nothing. -/
def refreshes : SetOp → String → String → Prop
  | .prop var prop _ => fun v key => v = var ∧ key = prop
  | _ => fun _ _ => False

/-- The condition on a step, in the row it finds. -/
def Allowed (row : Row F) : Event → Prop
  | .set op => payload rt params G row.env op ≠ [] → ∀ x, Names row.env (setVar op) x →
      Fits rt params s G row x (payload rt params G row.env op) (refreshes op)
  | .node np => (np.var.bind row.env).bind (Value.get "_id") = none →
      ∀ schema tid, G.resolve row.state.store.schema np.labels .entity = .ok (schema, tid) →
        Creates rt params s G row schema tid np.props np.var
  | .rel rel _ _ => ∀ schema tid, G.resolve row.state.store.schema rel.types .relation =
      .ok (schema, tid) → Creates rt params s G row schema tid rel.props rel.var
  | .found _ => True
  | .delete _ e => Apart row.state.store ∧
      (∀ id, entityOf (evalOr rt params e row.env) = some (.node id) →
        ∀ e ∈ row.state.store.ogEdge, e.id ≠ id) ∧
      ∀ y ∈ row.written, (∃ var, Names row.env var y) → Registered row.state.store y →
        Present row.state.store y

end Conditions

section Reading

variable {F : Type} {rt : Runtime F} {params : Value F} {s : Session} {G : Engine F}
  {env : Env F} {var key : String} {st : Store} {x : Entity}

theorem readThrough_eq {v : Value F} (h : env var = some v) :
    readThrough rt params G env var key = nonNull (G.encode ((v.get key).getD .null)) := by
  have heval : eval rt params (.prop (.var var) key) env = .ok ((v.get key).getD .null) := by
    rw [eval, eval, h]
    rfl
  rw [readThrough, evalOr, heval]

theorem nonNull_bind {v : Json} : (nonNull v).bind nonNull = nonNull v := by
  unfold nonNull
  split_ifs with h
  · rfl
  · rw [Option.bind_some, if_neg h]

theorem object_get_cons {k : String} {v : Value F} {kvs : List (String × Value F)} :
    (Value.object ((k, v) :: kvs)).get key =
      if k = key then some v else (Value.object kvs).get key := by
  by_cases h : k = key <;> simp [Value.get, h]

theorem insertField_get {k : String} {v : Value F} {kvs : List (String × Value F)} :
    (Value.object (insertField k v kvs)).get key =
      if k = key then some v else (Value.object kvs).get key := by
  induction kvs with
  | nil => exact object_get_cons
  | cons kv kvs ih =>
      rcases kv with ⟨k', v'⟩
      rw [insertField]
      by_cases hk : k = k'
      · rw [if_pos hk, object_get_cons, object_get_cons, hk]
        split_ifs <;> rfl
      · rw [if_neg hk]
        by_cases hlt : k < k'
        · rw [if_pos hlt, object_get_cons]
        · rw [if_neg hlt, object_get_cons, object_get_cons, ih]
          split_ifs with hkey hhere
          · exact absurd (hhere.trans hkey.symm) hk
          · rfl
          · rfl
          · rfl

/-- A refreshed copy names the entity it named. -/
theorem entityOf_insertField {k : String} {v : Value F} {kvs : List (String × Value F)}
    (hk : isReservedKey k = false) :
    entityOf (Value.object (insertField k v kvs)) = entityOf (Value.object kvs) := by
  have hid : k ≠ "_id" := by
    rintro rfl
    cases hk
  have hsrc : k ≠ "_src" := by
    rintro rfl
    cases hk
  rw [entityOf, entityOf, insertField_get, insertField_get, if_neg hid, if_neg hsrc]

theorem readThrough_congr {env' : Env F} (h : env' var = env var) :
    readThrough rt params G env' var key = readThrough rt params G env var key := by
  have heval (env : Env F) : eval rt params (.prop (.var var) key) env =
      .ok ((((env var).getD .null).get key).getD .null) := by
    rw [eval, eval]
    rfl
  rw [readThrough, readThrough, evalOr, evalOr, heval, heval, h]

end Reading

section Writes

variable {F : Type} {rt : Runtime F} {params : Value F} {s : Session} {G : Engine F}
  {row : Row F} {x : Entity} {kvs : List (String × Json)} {refreshed : String → String → Prop}
  {sc' : Schema}

/-- A write that fits makes of the entity what the payload says. -/
theorem Fits.held (hfits : Fits rt params s G row x kvs refreshed)
    (h : PropertyMaps.writeProps s row.state.store.schema x (.obj kvs) = .ok sc') {key : String}
    (hkey : isReservedKey key = false) :
    OwnWrites.held { row.state.store with schema := sc' } x key =
      patched kvs (OwnWrites.held row.state.store x) key := by
  rcases hfits.present.stored with ⟨table, r, htable, hr⟩
  have hplaced := hfits.placed table r htable hr
  rcases setPropsInner_eq_ok (writeProps_eq_ok h) with
    ⟨table', htable', sc₁, plan, hplan, ⟨tables, rfl⟩, hrow⟩
  rw [htable] at htable'
  obtain rfl := Option.some.inj htable'
  have hev := (declareNewProps_eq_ok hplaced.labelled hplan.declared).1
  rcases hev.rows table _ r hr with ⟨r₁, hr₁, -⟩
  rcases hrow r₁ hr₁ with ⟨hr', hcols⟩
  have hnames := hplan.nodup_names hfits.nodup hplaced.labelled hplaced.names
  have htable₁ : storageTable sc₁.catalog (idType (idOf x)) = some table := by
    rw [hev.storageTable_eq]
    exact htable
  have hreg : Registered { row.state.store with schema := { sc₁ with tables := tables } } x := by
    have hreg := hfits.present.registered
    cases x with
    | node id => exact hreg
    | edge id => exact hreg
  rw [OwnWrites.held, patched, OwnWrites.held, propertyMap_eq hreg htable₁ hr' hnames,
    propertyMap_eq hfits.present.registered htable hr hfits.present.names, hkey]
  dsimp only
  cases hget : (Json.obj kvs).get? key with
  | none =>
      have hout : key ∉ kvs.map (·.1) := by
        intro hin
        rcases List.mem_map.mp hin with ⟨kv, hkv, heq⟩
        exact get_eq_none.mp hget kv hkv heq
      rw [stored_of_not_mem hplan hfits.nodup hplaced hr hr₁ hout]
      rfl
  | some v =>
      have hmem := mem_of_get hget
      have hundeclared : ∀ p, property? row.state.store.schema.catalog (idType (idOf x)) key =
          some p → extGet r key = none := by
        intro q hq
        have hnone := hplaced.undeclared q (List.mem_of_find?_eq_some hq)
        rwa [property?_name hq] at hnone
      rcases stored_val_of_mem hplan hfits.nodup hcols hplaced.labelled hplaced.object htable hr hr₁
        hmem hundeclared with ⟨hext, hcolumn⟩
      dsimp only [Option.elim]
      cases htype : columnType s row.state.store.schema.catalog (idType (idOf x)) key v with
      | none =>
          rw [hext htype]
          rfl
      | some dtype =>
          rcases hcolumn dtype htype with ⟨val, hval, hstored⟩
          rw [hstored]
          exact nonNull_bind.trans (hfits.returned _ hmem dtype htype val hval)

/-- A written entity the row names keeps its properties. -/
theorem Fits.other (hstrict : s.cast "text" .null = .ok .null)
    (hfits : Fits rt params s G row x kvs refreshed)
    (h : PropertyMaps.writeProps s row.state.store.schema x (.obj kvs) = .ok sc') {y : Entity}
    (hy : y ∈ row.written) (hne : y ≠ x) (hnamed : ∃ var, Names row.env var y)
    (hreg : Registered row.state.store y) {key : String} :
    OwnWrites.held { row.state.store with schema := sc' } y key =
      OwnWrites.held row.state.store y key := by
  rcases hfits.undisturbed.2 y hy (fun heq => hne (Option.some.inj heq)) hnamed hreg with
    ⟨hpresent, huntouched⟩
  rw [OwnWrites.held, writeProps_other hstrict hfits.undisturbed.1 hpresent huntouched
    (hfits.apart y hy hne hreg) h, OwnWrites.held]

/-- After a write that fits every copy reads as the graph has it, once those that are
refreshed are. -/
theorem Current.write (hstrict : s.cast "text" .null = .ok .null) (hcur : Current rt params G row)
    (hfits : Fits rt params s G row x kvs refreshed)
    (h : PropertyMaps.writeProps s row.state.store.schema x (.obj kvs) = .ok sc') {env : Env F}
    {st : State} (hst : st.store = { row.state.store with schema := sc' })
    (hnames : ∀ var y, Names env var y → Names row.env var y)
    (hsame : ∀ var key, isReservedKey key = false → ¬ refreshed var key →
      readThrough rt params G env var key = readThrough rt params G row.env var key)
    (hnew : ∀ var key, isReservedKey key = false → refreshed var key →
      Names row.env var x ∧
        readThrough rt params G env var key = patched kvs (OwnWrites.held row.state.store x) key) :
    Current rt params G ⟨st, env, x :: row.written⟩ := by
  intro y hy hreg var hvar key hkey
  have hreg : Registered row.state.store y := by
    have hreg : Registered st.store y := hreg
    rw [hst] at hreg
    cases y with
    | node id => exact hreg
    | edge id => exact hreg
  have hvar := hnames var y hvar
  change readThrough rt params G env var key = OwnWrites.held st.store y key
  rw [hst]
  by_cases hyx : y = x
  · rw [hyx, hfits.held h hkey]
    rw [hyx] at hvar
    by_cases hr : refreshed var key
    · exact (hnew var key hkey hr).2
    · rw [hsame var key hkey hr]
      exact hfits.copies var hvar key hkey hr
  · have hmem : y ∈ row.written := (List.mem_cons.mp hy).resolve_left hyx
    have hr : ¬ refreshed var key := by
      intro hr
      have heq : (row.env var).bind entityOf = some x := (hnew var key hkey hr).1
      exact hyx (Option.some.inj (hvar.symm.trans heq))
    rw [hsame var key hkey hr, hfits.other hstrict h hmem hyx ⟨var, hvar⟩ hreg]
    exact hcur y hmem hreg var hvar key hkey

theorem setPropsInner_scalar {sc : Schema} {id : Int} {props : Json}
    (hprops : ∀ kvs, props ≠ .obj kvs) (h : setPropsInner s sc id props = .ok sc') : sc' = sc := by
  rcases bind_eq_ok.mp h with ⟨t, -, h⟩
  rcases bind_eq_ok.mp h with ⟨⟨sc₁, plan⟩, hplan, h⟩
  rcases bind_eq_ok.mp h with ⟨u, -, h⟩
  have hget : ∀ key, props.get? key = none := by
    intro key
    cases props with
    | obj kvs => exact absurd rfl (hprops kvs)
    | _ => rfl
  have hkeys : keysOf props = [] := by
    cases props with
    | obj kvs => exact absurd rfl (hprops kvs)
    | _ => rfl
  rcases bind_eq_ok.mp hplan with ⟨u, -, hplan⟩
  rcases bind_eq_ok.mp hplan with ⟨sc₂, hdeclared, hplan⟩
  rcases bind_eq_ok.mp hplan with ⟨columns, hcolumns, hplan⟩
  rcases Prod.mk.inj (pure_eq_ok.mp hplan) with ⟨rfl, rfl⟩
  have hsame : sc₂ = sc := by
    cases props with
    | obj kvs => exact absurd rfl (hprops kvs)
    | _ => exact (Except.ok.inj hdeclared).symm
  simp only [hget, Option.isSome_none, List.filter_false] at hcolumns
  obtain rfl := pure_eq_ok.mp hcolumns
  rw [if_pos ⟨rfl, by rw [hkeys]; rfl⟩] at h
  rw [← pure_eq_ok.mp h, hsame]

/-- What a `SET` item makes of the store: a write of its members, if it has any. -/
theorem setEntity_store (hG : Faithful s G) {op : SetOp} {entity : Value F} {st st' : State}
    {env env' : Env F} (h : setEntity rt params G op x entity st env = .ok (st', env')) :
    ∃ sc', st'.store = { st.store with schema := sc' } ∧
      (payload rt params G env op = [] → sc' = st.store.schema) ∧
        (payload rt params G env op ≠ [] →
          PropertyMaps.writeProps s st.store.schema x (.obj (payload rt params G env op)) =
            .ok sc') := by
  have hempty : G.encode (.object []) = .obj [] := hG.object []
  cases op with
  | label var labels =>
      unfold setEntity at h
      dsimp only at h
      split at h
      · rcases Prod.mk.inj (Except.ok.inj h) with ⟨rfl, rfl⟩
        exact ⟨_, rfl, fun _ => rfl, fun hne => absurd rfl hne⟩
      · cases h
  | prop var prop value =>
      rcases bind_eq_ok.mp h with ⟨st₁, hwrite, h⟩
      rcases bind_eq_ok.mp hwrite with ⟨schema, hschema, hst₁⟩
      obtain rfl := pure_eq_ok.mp hst₁
      have hstore : st'.store = { st.store with schema := schema } := by
        split at h
        · rw [← (Prod.mk.inj (pure_eq_ok.mp h)).1]
        · rw [← (Prod.mk.inj (pure_eq_ok.mp h)).1]
      rw [hG.setProps, hG.object] at hschema
      exact ⟨schema, hstore, fun hnil => (by cases hnil), fun _ => hschema⟩
  | map var value merge =>
      rcases bind_eq_ok.mp h with ⟨st₁, hclear, h⟩
      rcases bind_eq_ok.mp h with ⟨st₂, hwrite, h⟩
      rcases bind_eq_ok.mp hwrite with ⟨schema, hschema, hst₂⟩
      obtain rfl := pure_eq_ok.mp hst₂
      have hst₁ : st₁.store = st.store := by
        cases merge with
        | true => rw [← Except.ok.inj hclear]
        | false =>
            rcases bind_eq_ok.mp hclear with ⟨cleared, hcleared, hst₁⟩
            obtain rfl := pure_eq_ok.mp hst₁
            rw [hG.setProps, hempty] at hcleared
            have hsame := setPropsInner_empty (writeProps_eq_ok hcleared)
            rw [hsame]
      rw [hG.setProps, hst₁] at hschema
      refine ⟨schema, by rw [← (Prod.mk.inj (pure_eq_ok.mp h)).1, hst₁], ?_, ?_⟩
      · intro hnil
        rw [payload] at hnil
        cases hvalue : G.encode (evalOr rt params value env) with
        | obj kvs =>
            rw [hvalue] at hnil hschema
            obtain rfl : kvs = [] := hnil
            exact setPropsInner_empty (writeProps_eq_ok hschema)
        | _ =>
            rw [hvalue] at hschema
            refine setPropsInner_scalar (fun kvs hkvs => by cases hkvs) (writeProps_eq_ok hschema)
      · intro hne
        rw [payload] at hne ⊢
        cases hvalue : G.encode (evalOr rt params value env) with
        | obj kvs =>
            rw [hvalue] at hschema
            exact hschema
        | _ =>
            rw [hvalue] at hne
            exact absurd rfl hne

/-- What a `SET` item makes of the row: it refreshes a property of the variable it names. -/
theorem setEntity_env {op : SetOp} {entity : Value F} {st st' : State} {env env' : Env F}
    (hentity : env (setVar op) = some entity) (hx : entityOf entity = some x)
    (h : setEntity rt params G op x entity st env = .ok (st', env')) :
    (env' = env ∧ ∀ var key, ¬ refreshes op var key) ∨
      ∃ var prop value kvs, op = .prop var prop value ∧ entity = .object kvs ∧
        env' = Function.update env var
          (some (.object (insertField prop (evalOr rt params value env) kvs))) := by
  cases op with
  | label var labels =>
      unfold setEntity at h
      dsimp only at h
      split at h
      · rcases Prod.mk.inj (Except.ok.inj h) with ⟨rfl, rfl⟩
        exact .inl ⟨rfl, fun _ _ => id⟩
      · cases h
  | map var value merge =>
      rcases bind_eq_ok.mp h with ⟨st₁, hclear, h⟩
      rcases bind_eq_ok.mp h with ⟨st₂, hwrite, h⟩
      exact .inl ⟨(Prod.mk.inj (pure_eq_ok.mp h)).2.symm, fun _ _ => id⟩
  | prop var prop value =>
      rcases bind_eq_ok.mp h with ⟨st₁, hwrite, h⟩
      cases entity with
      | object kvs =>
          exact .inr ⟨var, prop, value, kvs, rfl, rfl, (Prod.mk.inj (pure_eq_ok.mp h)).2.symm⟩
      | _ => cases hx

/-- One item of `SET` or `REMOVE`. -/
theorem Current.set (hG : Faithful s G) (hstrict : s.cast "text" .null = .ok .null)
    (hcur : Current rt params G row) {op : SetOp} {row' : Row F}
    (hallowed : Allowed rt params s G row (.set op))
    (h : step rt params s G row (.set op) = .ok row') : Current rt params G row' := by
  rcases bind_eq_ok.mp h with ⟨⟨st, env⟩, hset, hrow'⟩
  obtain rfl := pure_eq_ok.mp hrow'
  unfold applySetOp at hset
  split at hset
  · cases hset
  · next entity hentity =>
    have hentity : row.env (setVar op) = some entity := hentity
    split at hset
    · next hno =>
      have hno : entityOf entity = none := hno
      rcases Prod.mk.inj (Except.ok.inj hset) with ⟨rfl, rfl⟩
      have htarget : target rt params G row.env op = [] := by
        rw [target, hentity, Option.bind_some, hno]
        split_ifs <;> rfl
      rw [htarget]
      exact hcur
    · next x hx =>
      have hx : entityOf entity = some x := hx
      have hnamed : Names row.env (setVar op) x := by
        rw [Names, hentity]
        exact hx
      rcases setEntity_store hG hset with ⟨sc', hstore, hnil, hwrite⟩
      by_cases hpayload : payload rt params G row.env op = []
      · have htarget : target rt params G row.env op = [] := by
          rw [target, hpayload]
          rfl
        have hstore : st.store = row.state.store := by
          rw [hstore, hnil hpayload]
        have henv : env = row.env := by
          rcases setEntity_env hentity hx hset with ⟨henv, -⟩ | ⟨var, prop, value, kvs, rfl, -, -⟩
          · exact henv
          · cases hpayload
        rw [htarget, henv]
        intro y hy hreg
        rw [hstore]
        change Registered st.store y at hreg
        rw [hstore] at hreg
        exact hcur y hy hreg
      · have hfits := hallowed hpayload x hnamed
        have htarget : target rt params G row.env op = [x] := by
          rw [target, if_neg (by simpa using hpayload), hentity, Option.bind_some, hx]
          rfl
        rw [htarget]
        have hwrite := hwrite hpayload
        rcases setEntity_env hentity hx hset with
          ⟨rfl, hnone⟩ | ⟨var, prop, value, kvs, rfl, rfl, rfl⟩
        · exact hcur.write hstrict hfits hwrite hstore (fun _ _ hname => hname)
            (fun _ _ _ _ => rfl) fun var key _ hr => absurd hr (hnone var key)
        · have hentity : row.env var = some (.object kvs) := hentity
          have hopen : isReservedKey prop = false := by
            rcases setPropsInner_eq_ok (writeProps_eq_ok hwrite) with ⟨_, _, sc₁, plan, hplan, -⟩
            exact hplan.reserved prop (List.mem_singleton_self prop)
          have hcopy : Function.update row.env var (some (.object
              (insertField prop (evalOr rt params value row.env) kvs))) var =
                some (.object (insertField prop (evalOr rt params value row.env) kvs)) :=
            Function.update_self _ _ _
          refine hcur.write hstrict hfits hwrite hstore (fun v y hname => ?_)
            (fun v key hkey hr => ?_) fun v key hkey hr => ?_
          · by_cases hv : v = var
            · rw [hv] at hname ⊢
              rw [Names, hcopy, Option.bind_some, entityOf_insertField hopen] at hname
              rw [Names, hentity]
              exact hname
            · rwa [Names, Function.update_of_ne hv] at hname
          · by_cases hv : v = var
            · have hne : ¬ prop = key := fun heq => hr ⟨hv, heq.symm⟩
              rw [hv, readThrough_eq hcopy, readThrough_eq hentity, insertField_get, if_neg hne]
            · exact readThrough_congr (Function.update_of_ne hv _ _)
          · rcases hr with ⟨rfl, rfl⟩
            refine ⟨hnamed, ?_⟩
            rw [readThrough_eq hcopy, insertField_get, if_pos rfl, patched, payload, get_cons,
              if_pos rfl]
            rfl

end Writes

section Creations

variable {F : Type} {rt : Runtime F} {params : Value F} {s : Session} {G : Engine F}
  {row : Row F} {x y : Entity}

theorem born_self (st : Store) : born st st = [] := by
  have hnone {α : Type} [DecidableEq α] (xs : List α) : (xs.filter fun n => n ∉ xs) = [] := by
    rw [List.filter_eq_nil_iff]
    exact fun n hn => by simpa using hn
  rw [born, hnone, hnone]
  rfl

theorem eq_of_mem_born_node {before after : Store} {n : NodeRow}
    (hedge : after.ogEdge = before.ogEdge) (hnode : after.ogNode = before.ogNode ++ [n])
    (h : x ∈ born before after) : x = .node n.id := by
  rcases List.mem_append.mp h with h | h
  · rcases List.mem_map.mp h with ⟨m, hm, rfl⟩
    rcases List.mem_filter.mp hm with ⟨hm, hnew⟩
    rw [hnode] at hm
    rcases List.mem_append.mp hm with hm | hm
    · simp [hm] at hnew
    · rw [List.mem_singleton.mp hm]
  · rcases List.mem_map.mp h with ⟨e, he, rfl⟩
    rcases List.mem_filter.mp he with ⟨he, hnew⟩
    rw [hedge] at he
    simp [he] at hnew

theorem eq_of_mem_born_edge {before after : Store} {e : EdgeRow}
    (hnode : after.ogNode = before.ogNode) (hedge : after.ogEdge = before.ogEdge ++ [e])
    (h : x ∈ born before after) : x = .edge e.id := by
  rcases List.mem_append.mp h with h | h
  · rcases List.mem_map.mp h with ⟨n, hn, rfl⟩
    rcases List.mem_filter.mp hn with ⟨hn, hnew⟩
    rw [hnode] at hn
    simp [hn] at hnew
  · rcases List.mem_map.mp h with ⟨f, hf, rfl⟩
    rcases List.mem_filter.mp hf with ⟨hf, hnew⟩
    rw [hedge] at hf
    rcases List.mem_append.mp hf with hf | hf
    · simp [hf] at hnew
    · rw [List.mem_singleton.mp hf]

/-- New labels leave the instances of the types there are alone. -/
theorem Faithful.resolved (hG : Faithful s G) {sc sc' : Schema} {labels : List String}
    {kind : Kind} {tid ty id : Int} {table : StorageTable}
    (h : G.resolve sc labels kind = .ok (sc', tid))
    (htable : storageTable sc.catalog ty = some table) :
    ReadsAlike sc sc' ty id := by
  rcases hG.resolve sc labels kind sc' tid h with ⟨htables, htypes⟩
  rcases htypes ty table htable with ⟨htable', hprops⟩
  refine ⟨htable'.trans htable.symm, fun hnames => hprops ▸ hnames, fun t r _ hr => ⟨r, ?_, ?_⟩⟩
  · rw [rowAt, rowsOf, htables]
    exact hr
  · intro key
    rw [stored, stored, property?, property?, hprops]

/-- A creation keeps what the other copies read, and binds a fresh copy of what it makes. -/
theorem Current.create (hcur : Current rt params G row) {st : State} {sc : Schema} {tid id : Int}
    {props : List (String × Expr)} {var : Option String} {copy : Value F}
    (new : Entity) (hnew : idOf new = id)
    (hcreates : Creates rt params s G row sc tid props var)
    {alloc : List (Int × Int)} (halloc : allocId row.state.store.ogIdAlloc tid = .ok (alloc, id))
    (hborn : ∀ y ∈ born row.state.store st.store, y = new)
    (hreg : ∀ y, Registered st.store y → y ≠ new → Registered row.state.store y)
    (halike : ∀ y ∈ row.written, (∃ v, Names row.env v y) → Registered row.state.store y →
      Registered st.store y → propertyMap st.store y = propertyMap row.state.store y)
    (hcopy : ∀ y, entityOf copy = some y → y = new ∧
      (Registered st.store y → Copies G st.store y copy)) :
    Current rt params G
      ⟨st, bindVar row.env var copy, born row.state.store st.store ++ row.written⟩ := by
  intro y hy hregy v hv key hkey
  change readThrough rt params G (bindVar row.env var copy) v key = held st.store y key
  have hregy : Registered st.store y := hregy
  by_cases hhere : some v = var
  · rw [← hhere] at hv ⊢
    have hbound : bindVar row.env (some v) copy v = some copy := Function.update_self _ _ _
    change Names (bindVar row.env (some v) copy) v y at hv
    rw [Names, hbound, Option.bind_some] at hv
    rw [readThrough_eq hbound]
    exact (hcopy y hv).2 hregy key hkey
  · have hsame : bindVar row.env var copy v = row.env v := by
      cases var with
      | none => rfl
      | some w => exact Function.update_of_ne (fun heq => hhere (congrArg some heq)) _ _
    have hv : Names row.env v y := by
      rw [Names, ← hsame]
      exact hv
    have hne : y ≠ new := by
      rintro rfl
      exact hcreates.next alloc id halloc v y hhere hv hnew
    have hmem : y ∈ row.written := by
      rcases List.mem_append.mp hy with hb | hw
      · exact absurd (hborn y hb) hne
      · exact hw
    have hbefore := hreg y hregy hne
    rw [readThrough_congr hsame, held, halike y hmem ⟨v, hv⟩ hbefore hregy]
    exact hcur y hmem hbefore v hv key hkey

theorem fresh_eq_ok {np : NodePat} {st st' : State} {env env' : Env F} {id : Int}
    (h : createNodeElem.fresh rt params s G np st env = .ok (st', env', id)) :
    ∃ schema tid store, G.resolve st.store.schema np.labels .entity = .ok (schema, tid) ∧
      createNodeInner s { st.store with schema := schema } tid (np.labels.getLast?.getD "")
        (G.encode (propsJson rt params np.props env)) = .ok (store, id) ∧
      st'.store = store ∧ env' = bindVar env np.var (G.nodeJson store id) := by
  rcases bind_eq_ok.mp h with ⟨⟨schema, tid⟩, hresolve, h⟩
  rcases bind_eq_ok.mp h with ⟨⟨st₁, nid⟩, hcreate, h⟩
  rcases Prod.mk.inj (pure_eq_ok.mp h) with ⟨rfl, hpair⟩
  rcases Prod.mk.inj hpair with ⟨rfl, rfl⟩
  rcases bind_eq_ok.mp hcreate with ⟨⟨store, nid'⟩, hinner, hst₁⟩
  rcases Prod.mk.inj (pure_eq_ok.mp hst₁) with ⟨rfl, rfl⟩
  exact ⟨schema, tid, store, hresolve, hinner, rfl, rfl⟩

/-- An element either stands for the node its variable names, or for a new one. -/
theorem createNodeElem_eq_ok {np : NodePat} {st st' : State} {env env' : Env F} {id : Int}
    (h : createNodeElem rt params s G np st env = .ok (st', env', id)) :
    (st' = st ∧ env' = env) ∨
      (np.var.bind env).bind (Value.get "_id") = none ∧
        createNodeElem.fresh rt params s G np st env = .ok (st', env', id) := by
  unfold createNodeElem at h
  split at h
  · next v hv =>
    split at h
    · next i hi =>
      split at h
      · rcases Prod.mk.inj (Except.ok.inj h) with ⟨rfl, hpair⟩
        exact .inl ⟨rfl, (Prod.mk.inj hpair).1.symm⟩
      · cases h
    · next hi =>
      exact .inr ⟨by rw [hv, Option.bind_some, hi], h⟩
  · next hv =>
    exact .inr ⟨by rw [hv, Option.bind_none], h⟩

/-- A node of `CREATE`. -/
theorem Current.node (hG : Faithful s G) (hstrict : s.cast "text" .null = .ok .null)
    (hcur : Current rt params G row) {np : NodePat} {row' : Row F}
    (hallowed : Allowed rt params s G row (.node np))
    (h : step rt params s G row (.node np) = .ok row') : Current rt params G row' := by
  rcases bind_eq_ok.mp h with ⟨⟨st, env, id⟩, hnode, hrow'⟩
  obtain rfl := pure_eq_ok.mp hrow'
  rcases createNodeElem_eq_ok hnode with ⟨rfl, rfl⟩ | ⟨hunbound, hfresh⟩
  · rw [born_self]
    exact hcur
  · rcases fresh_eq_ok hfresh with ⟨schema, tid, store, hresolve, hinner, rfl, rfl⟩
    have hcreates := hallowed hunbound schema tid hresolve
    rcases AdjacencyMirror.createNodeInner_eq_ok hinner with ⟨hedge, -, halloc, hnodes⟩
    have hpayload : ∃ kvs, G.encode (propsJson rt params np.props row.env) = .obj kvs :=
      ⟨_, hG.object _⟩
    rcases hpayload with ⟨kvs, hkvs⟩
    have hundisturbed := hcreates.undisturbed kvs hkvs
    rw [hkvs] at hinner
    refine hcur.create (.node id) rfl hcreates halloc
      (fun y hy => eq_of_mem_born_node hedge hnodes hy) (fun y hreg hne => ?_)
      (fun y hy hnamed hreg hreg' => ?_) fun y hy => hG.nodeJson st.store id y hy
    · have hreg := registered_of_createNode hinner hreg hne
      cases y with
      | node i => exact hreg
      | edge i => exact hreg
    · rcases hundisturbed.2 y hy (by simp) hnamed hreg with ⟨hpresent, huntouched⟩
      rcases hpresent.stored with ⟨table, r, htable, hr⟩
      have halike : ReadsAlike row.state.store.schema schema (idType (idOf y)) (idOf y) :=
        hG.resolved hresolve htable
      exact propertyMap_of_readsAlike hpresent hreg' (halike.trans
        (@createNodeInner_readsAlike s { row.state.store with schema := schema } st.store tid id kvs
          _ _ _ hstrict hundisturbed.1 huntouched hinner))

theorem createRel_eq_ok {rel : RelPat} {a b : Int} {st st' : State} {env env' : Env F}
    (h : createRel rt params s G rel a b st env = .ok (st', env')) :
    ∃ schema tid name src dst store id,
      G.resolve st.store.schema rel.types .relation = .ok (schema, tid) ∧
        createEdgeInner s { st.store with schema := schema } tid name src dst
          (G.encode (propsJson rt params rel.props env)) = .ok (store, id) ∧
        st'.store = store ∧ env' = bindVar env rel.var (G.edgeJson store id) := by
  unfold createRel at h
  split at h
  · next name htypes =>
    rcases bind_eq_ok.mp h with ⟨⟨schema, tid⟩, hresolve, h⟩
    rcases bind_eq_ok.mp h with ⟨⟨st₁, eid⟩, hcreate, h⟩
    rcases Prod.mk.inj (pure_eq_ok.mp h) with ⟨rfl, rfl⟩
    rcases bind_eq_ok.mp hcreate with ⟨⟨store, eid'⟩, hinner, hst₁⟩
    rcases Prod.mk.inj (pure_eq_ok.mp hst₁) with ⟨rfl, rfl⟩
    rw [htypes]
    exact ⟨schema, tid, name, _, _, store, _, hresolve, hinner, rfl, rfl⟩
  · cases h

/-- A relationship of `CREATE`. -/
theorem Current.rel (hG : Faithful s G) (hstrict : s.cast "text" .null = .ok .null)
    (hcur : Current rt params G row) {rel : RelPat} {a b : Int} {row' : Row F}
    (hallowed : Allowed rt params s G row (.rel rel a b))
    (h : step rt params s G row (.rel rel a b) = .ok row') : Current rt params G row' := by
  rcases bind_eq_ok.mp h with ⟨⟨st, env⟩, hrel, hrow'⟩
  obtain rfl := pure_eq_ok.mp hrow'
  rcases createRel_eq_ok hrel with
    ⟨schema, tid, name, src, dst, store, id, hresolve, hinner, rfl, rfl⟩
  have hcreates := hallowed schema tid hresolve
  rcases AdjacencyMirror.createEdgeInner_eq_ok hinner with ⟨halloc, -, hedges, hnode, -⟩
  have hpayload : ∃ kvs, G.encode (propsJson rt params rel.props row.env) = .obj kvs :=
    ⟨_, hG.object _⟩
  rcases hpayload with ⟨kvs, hkvs⟩
  have hundisturbed := hcreates.undisturbed kvs hkvs
  rw [hkvs] at hinner
  refine hcur.create (.edge id) rfl hcreates halloc
    (fun y hy => eq_of_mem_born_edge hnode hedges hy) (fun y hreg hne => ?_)
    (fun y hy hnamed hreg hreg' => ?_) fun y hy => hG.edgeJson st.store id y hy
  · have hreg := registered_of_createEdge hinner hreg hne
    cases y with
    | node i => exact hreg
    | edge i => exact hreg
  · rcases hundisturbed.2 y hy (by simp) hnamed hreg with ⟨hpresent, huntouched⟩
    rcases hpresent.stored with ⟨table, r, htable, hr⟩
    have halike : ReadsAlike row.state.store.schema schema (idType (idOf y)) (idOf y) :=
      hG.resolved hresolve htable
    exact propertyMap_of_readsAlike hpresent hreg' (halike.trans
      (@createEdgeInner_readsAlike s { row.state.store with schema := schema } st.store tid id kvs
        _ _ _ _ _ hstrict hundisturbed.1 huntouched hinner))

end Creations

section Steps

variable {F : Type} {rt : Runtime F} {params : Value F} {s : Session} {G : Engine F}
  {row row' : Row F}

/-- A variable is bound to one of the values found, or as before. -/
theorem bindAll_eq {env : Env F} {found : List (String × Value F)} {var : String} :
    (∃ kv ∈ found, bindAll env found var = some kv.2) ∨ bindAll env found var = env var := by
  induction found generalizing env with
  | nil => exact .inr rfl
  | cons kv found ih =>
      rcases @ih (Function.update env kv.1 (some kv.2)) with ⟨kv', hkv', heq⟩ | heq
      · exact .inl ⟨kv', List.mem_cons_of_mem _ hkv', heq⟩
      · by_cases hvar : var = kv.1
        · refine .inl ⟨kv, List.mem_cons_self, heq.trans ?_⟩
          rw [hvar]
          exact Function.update_self _ _ _
        · exact .inr (heq.trans (Function.update_of_ne hvar _ _))

/-- The rows `MERGE` finds are copies of what the graph has. -/
theorem Current.found (hG : Faithful s G) (hcur : Current rt params G row) {p : Pattern}
    (h : step rt params s G row (.found p) = .ok row') : Current rt params G row' := by
  unfold step at h
  dsimp only at h
  split at h
  · next found hfind =>
    obtain rfl := Except.ok.inj h
    intro x hx hreg var hvar key hkey
    have hvar : Names (bindAll row.env found) var x := hvar
    change readThrough rt params G (bindAll row.env found) var key = held row.state.store x key
    rcases @bindAll_eq F row.env found var with ⟨kv, hkv, heq⟩ | heq
    · rw [Names, heq, Option.bind_some] at hvar
      rw [readThrough_eq heq]
      exact hG.found _ _ _ _ hfind kv hkv x hvar hreg key hkey
    · rw [Names, heq] at hvar
      rw [readThrough_congr heq]
      exact hcur x hx hreg var hvar key hkey
  · obtain rfl := Except.ok.inj h
    exact hcur

theorem deleteEdge_remains {st st' : State} {eid n : Int} (hapart : Apart st.store)
    (h : deleteEdge s st eid = .ok (st', n)) : Remains st.store st'.store := by
  rcases bind_eq_ok.mp h with ⟨⟨store, k⟩, hinner, h⟩
  rcases Prod.mk.inj (pure_eq_ok.mp h) with ⟨rfl, rfl⟩
  exact deleteEdgeInner_remains hapart hinner

theorem dropNode_remains {store : Store} {id : Int} (hid : ∀ e ∈ store.ogEdge, e.id ≠ id) :
    Remains store (dropNode store id) := by
  refine ⟨fun n hn => List.mem_of_mem_filter hn, fun _ he => he, fun y hreg => ?_⟩
  cases y with
  | edge i =>
      rcases hreg with ⟨e, he, htype⟩
      have he : store.ogEdge.find? (fun e => e.id = i) = some e := he
      have hei : e.id = i := by simpa using List.find?_some he
      refine ⟨⟨e, he, htype⟩, deleteRow_readsAlike ?_⟩
      rw [idOf, ← hei]
      exact hid e (List.mem_of_find?_eq_some he)
  | node i =>
      rcases hreg with ⟨n, hn, htype⟩
      have hn : (store.ogNode.filter fun r => r.id ≠ id).find? (fun n => n.id = i) = some n := hn
      have hni : n.id = i := by simpa using List.find?_some hn
      have hne : i ≠ id := by
        have hmem := List.mem_filter.mp (List.mem_of_find?_eq_some hn)
        rw [← hni]
        simpa using hmem.2
      rw [find_filter_key hne] at hn
      exact ⟨⟨n, hn, htype⟩, deleteRow_readsAlike hne⟩

theorem deleteNode_remains {st st' : State} {id n : Int} (hapart : Apart st.store)
    (hid : ∀ e ∈ st.store.ogEdge, e.id ≠ id) (h : deleteNode s st id = .ok (st', n)) :
    Remains st.store st'.store := by
  rcases bind_eq_ok.mp h with ⟨u, -, h⟩
  rcases bind_eq_ok.mp h with ⟨u, -, h⟩
  rcases bind_eq_ok.mp h with ⟨⟨mid, removed⟩, hedges, h⟩
  rcases Prod.mk.inj (pure_eq_ok.mp h) with ⟨rfl, -⟩
  have hmid : Remains st.store mid.store := by
    refine foldlM_preserves (P := fun acc : State × Int => Remains st.store acc.1.store)
      (fun acc eid acc' hacc hstep => ?_) hedges (.refl st.store)
    rcases bind_eq_ok.mp hstep with ⟨⟨next, k⟩, hedge, hstep⟩
    obtain rfl := pure_eq_ok.mp hstep
    exact hacc.trans (deleteEdge_remains (hacc.apart hapart) hedge)
  exact hmid.trans (dropNode_remains fun e he => hid e (hmid.edges he))

/-- A deletion. -/
theorem Current.delete (hcur : Current rt params G row) {detach : Bool} {e : Expr}
    (hallowed : Allowed rt params s G row (.delete detach e))
    (h : step rt params s G row (.delete detach e) = .ok row') : Current rt params G row' := by
  rcases hallowed with ⟨hapart, hnode, hpresent⟩
  rcases bind_eq_ok.mp h with ⟨st, hdelete, hrow'⟩
  obtain rfl := pure_eq_ok.mp hrow'
  have hremains : Remains row.state.store st.store := by
    unfold deleteExpr at hdelete
    split at hdelete
    · obtain rfl := Except.ok.inj hdelete
      exact .refl _
    · next x hx =>
      cases x with
      | edge id =>
          rcases bind_eq_ok.mp hdelete with ⟨⟨st₁, n⟩, hedge, hst₁⟩
          obtain rfl := pure_eq_ok.mp hst₁
          exact deleteEdge_remains hapart hedge
      | node id =>
          unfold deleteEntity at hdelete
          dsimp only at hdelete
          split_ifs at hdelete
          rcases bind_eq_ok.mp hdelete with ⟨⟨st₁, n⟩, hdrop, hst₁⟩
          obtain rfl := pure_eq_ok.mp hst₁
          exact deleteNode_remains hapart (hnode id hx) hdrop
  intro x hx hreg var hvar key hkey
  have hreg : Registered st.store x := hreg
  rcases hremains.alike x hreg with ⟨hbefore, halike⟩
  have hkept := propertyMap_of_readsAlike (hpresent x hx ⟨var, hvar⟩ hbefore) hreg halike
  change readThrough rt params G row.env var key = held st.store x key
  rw [held, hkept]
  exact hcur x hx hbefore var hvar key hkey

/-- One step of a clause that meets the condition. -/
theorem Current.step (hG : Faithful s G) (hstrict : s.cast "text" .null = .ok .null)
    (hcur : Current rt params G row) {e : Event} (hallowed : Allowed rt params s G row e)
    (h : OwnWrites.step rt params s G row e = .ok row') : Current rt params G row' := by
  cases e with
  | set op => exact hcur.set hG hstrict hallowed h
  | node np => exact hcur.node hG hstrict hallowed h
  | rel rel a b => exact hcur.rel hG hstrict hallowed h
  | found p => exact hcur.found hG h
  | delete detach e => exact hcur.delete hallowed h

/-- In a run of the steps of a row each of which meets the condition, whatever is read of an
entity an earlier step has written is what the graph has. -/
theorem current_of_run (hG : Faithful s G) (hstrict : s.cast "text" .null = .ok .null)
    {st : State} {env : Env F} {events : List Event}
    (run : Run (OwnWrites.step rt params s G) (fun _ row e => Allowed rt params s G row e)
      ⟨st, env, []⟩ events row) : Current rt params G row := by
  refine run.invariant (I := fun _ row => Current rt params G row)
    (fun x hx => absurd hx List.not_mem_nil) ?_
  intro _ row e row' hcur hallowed hstep
  exact hcur.step hG hstrict hallowed hstep

end Steps

section Clauses

variable {F : Type} (rt : Runtime F) (params : Value F) (s : Session) (G : Engine F)

/-- Some steps take a row and its store to another. -/
def Reaches (start final : State × Env F) : Prop :=
  ∀ written, ∃ events : List Event, ∃ written', events.foldlM (OwnWrites.step rt params s G)
    ⟨start.1, start.2, written⟩ = .ok ⟨final.1, final.2, written'⟩

variable {rt params s G} {start mid final : State × Env F}

end Clauses

section Examples

mutual

/-- The document of a value; a double has no numeral here. -/
def encodeValue : Value Rat → Json
  | .null => .null
  | .bool b => .bool b
  | .number (.int i) => .num ⟨i, 0⟩
  | .number (.float _) => .null
  | .string s => .str s
  | .array xs => .arr (encodeValues xs)
  | .object kvs => .obj (encodeFields kvs)

def encodeValues : List (Value Rat) → List Json
  | [] => []
  | x :: xs => encodeValue x :: encodeValues xs

def encodeFields : List (String × Value Rat) → List (String × Json)
  | [] => []
  | kv :: kvs => (kv.1, encodeValue kv.2) :: encodeFields kvs

end

/-- An engine for rows that are only written to. -/
def writingEngine : Engine Rat where
  encode := encodeValue
  resolve _ _ _ := .error "no type is declared"
  nodeJson _ _ := .null
  edgeJson _ _ := .null
  find _ _ _ := none
  setProps sc x v := PropertyMaps.writeProps writerSession sc x (encodeValue v)
  carries _ _ _ := false
  bind _ _ := .ok []
  rename _ _ := none
  ddl schema _ := .ok schema

theorem encodeFields_eq {kvs : List (String × Value Rat)} :
    encodeFields kvs = kvs.map fun kv => (kv.1, encodeValue kv.2) := by
  induction kvs with
  | nil => rw [encodeFields, List.map_nil]
  | cons kv kvs ih => rw [encodeFields, ih, List.map_cons]

theorem writingEngine_faithful : Faithful writerSession writingEngine where
  object := fun kvs => by
    change encodeValue (.object kvs) = _
    rw [encodeValue, encodeFields_eq]
    rfl
  setProps := fun _ _ _ => rfl
  nodeJson := fun _ _ _ h => by cases h
  edgeJson := fun _ _ _ h => by cases h
  found := fun _ _ _ _ h => by cases h
  resolve := fun _ _ _ _ _ h => by cases h

/-- One node with the name `x`. -/
def namedNode : Store :=
  { oneNode with
    schema := ⟨{ oneNode.schema.catalog with
      properties := [⟨1, "name", "text", "p_name", false, false⟩] },
      [(nodeTable 1, ⟨firstNode, none, [("p_name", .text "x")], none⟩)]⟩ }

def nameCopy : Value Rat :=
  .object [("_id", .number (.int firstNode)), ("_type", .string "A"), ("name", .string "x")]

/-- The row of `MATCH (n:A)`. -/
def nodeEnv : Env Rat := fun v => if v = "n" then some nameCopy else none

/-- The row of `MATCH (n:A) WITH n AS a, n AS b`. -/
def twiceEnv : Env Rat := fun v => if v = "a" ∨ v = "b" then some nameCopy else none

theorem names_nameCopy {env : Env Rat} {var : String} {x : Entity} (h : env var = some nameCopy)
    (hx : Names env var x) : x = .node firstNode := by
  rw [Names, h, Option.bind_some] at hx
  exact (Option.some.inj hx).symm

theorem namedNode_present : Present namedNode (.node firstNode) :=
  ⟨⟨⟨firstNode, 1⟩, rfl, by decide⟩, ⟨nodeTable 1, _, rfl, rfl⟩, by decide⟩

/-- The node has its name and nothing else. -/
theorem namedNode_held {key : String} (hkey : key ≠ "name") :
    held namedNode (.node firstNode) key = none := by
  have hstored : stored namedNode.schema.catalog 1
      ⟨firstNode, none, [("p_name", .text "x")], none⟩ key = none := by
    have hnone : property? namedNode.schema.catalog 1 key = none := by
      change List.find? _ [(⟨1, "name", "text", "p_name", false, false⟩ : Property)] = none
      exact List.find?_cons_of_neg (by simpa using hkey.symm)
    rw [stored, hnone]
    rfl
  rw [held, @propertyMap_eq namedNode (.node firstNode) (nodeTable 1) _ key
    namedNode_present.registered rfl rfl (by decide)]
  split_ifs
  · rfl
  · exact congrArg (fun o => Option.bind o nonNull) hstored

theorem nameCopy_read {key : String} (hkey : key ≠ "name") (hopen : isReservedKey key = false) :
    readThrough exactRuntime .null writingEngine nodeEnv "n" key = none := by
  have hid : ¬ "_id" = key := by
    rintro rfl
    cases hopen
  have htype : ¬ "_type" = key := by
    rintro rfl
    cases hopen
  rw [@readThrough_eq Rat exactRuntime .null writingEngine nodeEnv "n" key nameCopy rfl, nameCopy,
    object_get_cons, if_neg hid, object_get_cons, if_neg htype, object_get_cons,
    if_neg (Ne.symm hkey)]
  rfl

theorem rename_allowed : Allowed exactRuntime .null writerSession writingEngine
    ⟨State.start namedNode, nodeEnv, []⟩ (.set (.prop "n" "name" (.lit (.str "y")))) := by
  unfold Allowed
  intro _ x hx
  obtain rfl := names_nameCopy rfl hx
  refine ⟨namedNode_present, by decide, fun table r htable hr => ?_, fun kv hkv => ?_,
    fun var hvar key hkey hr => ?_, ⟨by decide, fun y hy => absurd hy List.not_mem_nil⟩,
    fun y hy => absurd hy List.not_mem_nil⟩
  · obtain rfl := Option.some.inj htable
    obtain rfl := Option.some.inj hr
    exact ⟨by decide, by decide, by decide, .inl rfl, by decide⟩
  · obtain rfl := List.mem_singleton.mp hkv
    intro dtype htype val hval
    obtain rfl := Option.some.inj htype
    obtain rfl := Except.ok.inj hval
    rfl
  · have hvar : var = "n" := by
      by_contra hne
      have hnone : nodeEnv var = none := if_neg hne
      have hvar : (nodeEnv var).bind entityOf = some (.node firstNode) := hvar
      rw [hnone] at hvar
      cases hvar
    rw [hvar] at hr ⊢
    have hne : key ≠ "name" := fun heq => hr ⟨rfl, heq⟩
    rw [nameCopy_read hne hkey, patched, payload, get_cons, if_neg (Ne.symm hne)]
    exact (namedNode_held hne).symm

/-- `SET n.name = 'y'`, with one variable for the node. -/
theorem rename_read_back :
    ∃ row, step exactRuntime .null writerSession writingEngine
        ⟨State.start namedNode, nodeEnv, []⟩ (.set (.prop "n" "name" (.lit (.str "y")))) = .ok row ∧
      Current exactRuntime .null writingEngine row :=
  ⟨_, rfl, current_of_run writingEngine_faithful rfl (Run.single rename_allowed rfl)⟩

/-- Of two variables for a node only the one that a `SET` names is refreshed, and `SET +=`
refreshes none. -/
theorem stale_copies :
    (¬ ∀ row, step exactRuntime .null writerSession writingEngine
        ⟨State.start namedNode, twiceEnv, []⟩ (.set (.prop "a" "name" (.lit (.str "y")))) =
          .ok row → Current exactRuntime .null writingEngine row) ∧
      ¬ ∀ row, step exactRuntime .null writerSession writingEngine
        ⟨State.start namedNode, nodeEnv, []⟩
          (.set (.map "n" (.map [("name", .lit (.str "y"))]) true)) = .ok row →
            Current exactRuntime .null writingEngine row := by
  refine ⟨fun h => ?_, fun h => ?_⟩
  · have hcur := h _ rfl
    have hread := hcur (.node firstNode) (by decide) ⟨⟨firstNode, 1⟩, rfl, by decide⟩ "b" rfl
      "name" rfl
    have hstale : some (Json.str "x") = some (.str "y") := hread
    simp at hstale
  · have hcur := h _ rfl
    have hread := hcur (.node firstNode) (by decide) ⟨⟨firstNode, 1⟩, rfl, by decide⟩ "n" rfl
      "name" rfl
    have hstale : some (Json.str "x") = some (.str "y") := hread
    simp at hstale

end Examples

end OntologicalDb.OwnWrites
