import Mathlib.Logic.Function.Basic
import OntologicalDb.GuardedRuns
import OntologicalDb.PropertyPlans
import OntologicalDb.RowWrites

/-!
The property map of an entity: one map for a reader, stored in the columns of the
declared properties and in the extension payload, and what `SET` and `REMOVE` make of it.
-/

namespace OntologicalDb.PropertyMaps

open OntologicalDb.ExceptRules
open OntologicalDb.GraphStorage
open OntologicalDb.GuardedRuns
open OntologicalDb.Ids
open OntologicalDb.KeyedRows
open OntologicalDb.Labeling
open OntologicalDb.PropertyPlans
open OntologicalDb.RowDocuments
open OntologicalDb.RowWrites (Entity)
open OntologicalDb.TypeCatalog
open OntologicalDb.TypedTables
open OntologicalDb.Values

section Model

variable (s : Session)

/-- `UPDATE … WHERE id = $1`, under the constraints of the table. -/
def updateTyped (sc : Schema) (table : StorageTable) (id : Int) (f : TypedRow → TypedRow) :
    Except String Schema :=
  let declared := propertiesOf sc.catalog table.typeId
  match rowAt sc table id with
  | none => .ok sc
  | some old =>
      if declared.any fun p => p.required && (f old).col p.columnName = .null then
        .error "update failed: null value in column violates not-null constraint"
      else if declared.any fun p => p.isKey && (f old).col p.columnName ≠ .null &&
          (rowsOf sc table).any fun q =>
            q.id ≠ id && q.col p.columnName = (f old).col p.columnName then
        .error "update failed: duplicate key value violates unique constraint"
      else
        .ok { sc with
          tables := update (fun t => t.1 = table ∧ t.2.id = id) (fun t => (t.1, f t.2)) sc.tables }

/-- The `SET` list of a plan: its columns, and the undeclared members on top of the
extension payload. -/
def assign (plan : PropPlan) (props : Json) (r : TypedRow) : TypedRow :=
  let r := plan.columns.foldl (fun r c => r.setCol c.1 c.2) r
  if plan.extNeeded then
    { r with
      ext := some (concatJson (r.ext.getD (.obj [])) ((extValue plan props).getD (.obj []))) }
  else r

def entityTable (c : Catalog) (id : Int) : Except String StorageTable :=
  match storageTable c (idType id) with
  | some table => .ok table
  | none => .error s!"unknown type for id {id}"

/-- What nodes and edges share. -/
def setPropsInner (sc : Schema) (id : Int) (props : Json) : Except String Schema := do
  let table ← entityTable sc.catalog id
  let (sc, plan) ← planProps s (idType id) props sc
  checkWrite s sc.catalog (idType id) table .set (writtenCols [] plan)
  if plan.columns.isEmpty ∧ plan.extNeeded = false then return sc
  require (plan.columns.map (·.1)).Nodup "update failed: multiple assignments to same column"
  updateTyped sc table id (assign plan props)

def setNodePropsInner (sc : Schema) (id : Int) (props : Json) : Except String Schema := do
  refuseVirtualWrite sc.catalog (idType id)
  setPropsInner s sc id props

def setEdgePropsInner (sc : Schema) (id : Int) (props : Json) : Except String Schema :=
  setPropsInner s sc id props

def writeProps (sc : Schema) (x : Entity) (props : Json) : Except String Schema :=
  match x with
  | .node id => setNodePropsInner s sc id props
  | .edge id => setEdgePropsInner s sc id props

/-- The members of an object; a key occurs once. -/
structure Fields where
  kvs : List (String × Json)
  nodup : (kvs.map (·.1)).Nodup

/-- A `SET` item with its value; `REMOVE n.k` is read as `SET n.k = null`. -/
inductive Item
  | prop (key : String) (value : Json)
  | map (fields : Fields) (merge : Bool)

def Item.fields : Item → Fields
  | .prop key value => ⟨[(key, value)], List.nodup_singleton key⟩
  | .map fields _ => fields

/-- `SET n = map` writes an empty payload first. -/
def clearProps (sc : Schema) (x : Entity) : Item → Except String Schema
  | .map _ false => writeProps s sc x (.obj [])
  | _ => .ok sc

/-- `apply_set`, for one item on the entity its variable is bound to. -/
def applyItem (x : Entity) (st : Store) (item : Item) : Except String Store := do
  let schema ← clearProps s st.schema x item
  let schema ← writeProps s schema x (.obj item.fields.kvs)
  return { st with schema := schema }

end Model

section Maps

/-- What a query can set of a document. -/
def readable (doc : Val) (key : String) : Option Json :=
  match doc with
  | .json j => if isReservedKey key then none else j.get? key
  | _ => none

/-- The property map of an entity as it is read back. -/
def propertyMap (st : Store) : Entity → String → Option Json
  | .node id => readable (ogNodeJson st id)
  | .edge id => readable (ogEdgeJson st id)

def nonNull (v : Json) : Option Json := if v.isNull then none else some v

/-- An item on a finite map: `=` replaces, `+=` merges, null deletes. -/
def Item.apply (m : String → Option Json) : Item → String → Option Json
  | .prop key value => Function.update m key (nonNull value)
  | .map fields false => fun key => ((Json.obj fields.kvs).get? key).bind nonNull
  | .map fields true => fun key =>
      match (Json.obj fields.kvs).get? key with
      | none => m key
      | some v => nonNull v

end Maps

section Conditions

variable (s : Session)

/-- The column gives the value back, and NULL for null; the extension payload keeps a
null as a member. -/
def Holds (c : Catalog) (tid : Int) (kvs : List (String × Json)) (key : String) (v : Json) : Prop :=
  match columnType s c tid key v with
  | some dtype => ∀ val, columnValue s dtype (.obj kvs) key = .ok val →
      nonNull (toJson val) = nonNull v
  | none => v.isNull = false

/-- Every property has a name and a column of its own, those about to be declared
included, and none of them is in the extension payload. -/
structure Placed (c : Catalog) (tid : Int) (keys : List String) (r : TypedRow) : Prop where
  labelled : tid ∈ ogSubtypes c tid
  names : ((propertiesOf c tid).map (·.name)).Nodup
  columns : ∀ k ∈ (propertiesOf c tid).map (·.name) ++ keys,
    ∀ k' ∈ (propertiesOf c tid).map (·.name) ++ keys,
      columnOf s c tid k = columnOf s c tid k' → k = k'
  object : ExtObject r
  undeclared : ∀ p ∈ propertiesOf c tid, extGet r p.name = none

def idOf : Entity → Int
  | .node id => id
  | .edge id => id

/-- The entity is registered under the type of its identifier. -/
def Registered (st : Store) (x : Entity) : Prop :=
  match x with
  | .node id => ∃ n, st.ogNode.find? (fun n => n.id = id) = some n ∧ n.typeId = idType id
  | .edge id => ∃ e, st.ogEdge.find? (fun e => e.id = id) = some e ∧ e.typeId = idType id

/-- The entity is registered and stored, and the properties of its type have names of
their own. -/
structure Present (st : Store) (x : Entity) : Prop where
  registered : Registered st x
  stored : ∃ table r, storageTable st.schema.catalog (idType (idOf x)) = some table ∧
    rowAt st.schema table (idOf x) = some r
  names : ((propertiesOf st.schema.catalog (idType (idOf x))).map (·.name)).Nodup

/-- The condition under which an item does what it does to a map: its columns and the
extension payload have room for its values, and a map that replaces has every key. -/
structure Kept (x : Entity) (st : Store) (item : Item) : Prop where
  placed : ∀ table r, storageTable st.schema.catalog (idType (idOf x)) = some table →
    rowAt st.schema table (idOf x) = some r →
      Placed s st.schema.catalog (idType (idOf x)) (item.fields.kvs.map (·.1)) r
  holds : ∀ kv ∈ item.fields.kvs,
    Holds s st.schema.catalog (idType (idOf x)) item.fields.kvs kv.1 kv.2
  covers : ∀ fields, item = .map fields false → ∀ key, propertyMap st x key ≠ none →
    (Json.obj fields.kvs).get? key ≠ none

end Conditions

section Assignments

variable {s : Session} {sc sc' : Schema} {tid id : Int} {kvs : List (String × Json)} {r : TypedRow}
  {plan : PropPlan} {table : StorageTable}

theorem foldl_setCol_id {cols : List (String × Val)} :
    (cols.foldl (fun r c => r.setCol c.1 c.2) r).id = r.id ∧
      (cols.foldl (fun r c => r.setCol c.1 c.2) r).ext = r.ext := by
  induction cols generalizing r with
  | nil => exact ⟨rfl, rfl⟩
  | cons c cols ih => exact ih

theorem foldl_setCol_of_not_mem {cols : List (String × Val)} {c : String}
    (h : c ∉ cols.map (·.1)) :
    (cols.foldl (fun r c => r.setCol c.1 c.2) r).col c = r.col c := by
  induction cols generalizing r with
  | nil => rfl
  | cons x cols ih =>
      rw [List.map_cons, List.mem_cons, not_or] at h
      rw [List.foldl_cons, ih h.2, col_setCol_of_ne h.1]

theorem foldl_setCol_of_mem {cols : List (String × Val)} (hcols : (cols.map (·.1)).Nodup)
    {c : String} {v : Val} (h : (c, v) ∈ cols) :
    (cols.foldl (fun r c => r.setCol c.1 c.2) r).col c = v := by
  induction cols generalizing r with
  | nil => cases h
  | cons x cols ih =>
      rw [List.map_cons, List.nodup_cons] at hcols
      rw [List.foldl_cons]
      rcases List.mem_cons.mp h with rfl | h
      · rw [foldl_setCol_of_not_mem hcols.1, col_setCol_self]
      · exact ih hcols.2 h

theorem assign_id {props : Json} : (assign plan props r).id = r.id := by
  unfold assign
  split_ifs
  · exact foldl_setCol_id.1
  · exact foldl_setCol_id.1

theorem assign_col {props : Json} {c : String} :
    (assign plan props r).col c =
      (plan.columns.foldl (fun r c => r.setCol c.1 c.2) r).col c := by
  unfold assign
  split_ifs <;> rfl

theorem get_extValue {key : String} :
    ((extValue plan (.obj kvs)).getD (.obj [])).get? key =
      if key ∈ plan.declared then none else (Json.obj kvs).get? key := by
  have hrest : (Json.obj (kvs.filter fun kv => kv.1 ∉ plan.declared)).get? key =
      if key ∈ plan.declared then none else (Json.obj kvs).get? key := by
    split_ifs with hkey
    · exact @get_filter_of_neg kvs key (fun k => k ∉ plan.declared) (by simpa using hkey)
    · exact @get_filter_of_pos kvs key (fun k => k ∉ plan.declared) (by simpa using hkey)
  rw [← hrest]
  simp only [extValue]
  split_ifs with hnil
  · rw [hnil]
    rfl
  · rfl

theorem extGet_assign (hr : ExtObject r) {key : String} :
    extGet (assign plan (.obj kvs) r) key =
      if plan.extNeeded ∧ key ∉ plan.declared then ((Json.obj kvs).get? key).or (extGet r key)
      else extGet r key := by
  have hobj : ∃ a, (extValue plan (.obj kvs)).getD (.obj []) = .obj a := by
    simp only [extValue]
    split_ifs
    · exact ⟨[], rfl⟩
    · exact ⟨_, rfl⟩
  have hold : ∃ b, r.ext.getD (.obj []) = .obj b ∧ (Json.obj b).get? key = extGet r key := by
    rcases hr with hr | ⟨b, hr⟩
    · exact ⟨[], by rw [hr]; rfl, by rw [extGet, hr]; rfl⟩
    · exact ⟨b, by rw [hr]; rfl, by rw [extGet, hr]; rfl⟩
  rcases hobj with ⟨a, ha⟩
  rcases hold with ⟨b, hb, hget⟩
  have hnew := @get_extValue kvs plan key
  rw [ha] at hnew
  unfold assign
  split_ifs with hext hkey hkey
  · rw [extGet, Option.bind_some, foldl_setCol_id.2, hb, ha, get_concat, hget, hnew, if_neg hkey.2]
  · have hin : key ∈ plan.declared := of_not_not fun hnot => hkey ⟨hext, hnot⟩
    rw [extGet, Option.bind_some, foldl_setCol_id.2, hb, ha, get_concat, hget, hnew, if_pos hin,
      Option.none_or]
  · exact absurd hkey.1 hext
  · rw [extGet, foldl_setCol_id.2, extGet]

theorem rowAt_update {f : TypedRow → TypedRow} (hf : ∀ r, (f r).id = r.id)
    (hr : rowAt sc table id = some r) :
    rowAt { sc with
      tables := update (fun t => t.1 = table ∧ t.2.id = id) (fun t => (t.1, f t.2)) sc.tables }
        table id = some (f r) := by
  rcases sc with ⟨c, tables⟩
  induction tables with
  | nil => simp [rowAt, rowsOf] at hr
  | cons x tables ih =>
      rcases x with ⟨t, q⟩
      rw [rowAt_cons] at hr
      simp only [update, List.map_cons]
      by_cases hx : t = table ∧ q.id = id
      · rw [if_pos hx] at hr
        obtain rfl := Option.some.inj hr
        rw [if_pos hx, rowAt_cons, if_pos ⟨hx.1, (hf q).trans hx.2⟩]
      · rw [if_neg hx] at hr
        rw [if_neg hx, rowAt_cons, if_neg hx]
        exact ih hr

theorem updateTyped_eq_ok {f : TypedRow → TypedRow} (hf : ∀ r, (f r).id = r.id)
    (h : updateTyped sc table id f = .ok sc') :
    (∃ tables, sc' = { sc with tables := tables }) ∧
      ∀ r, rowAt sc table id = some r → rowAt sc' table id = some (f r) := by
  unfold updateTyped at h
  dsimp only at h
  split at h
  · next hnone =>
    obtain rfl := Except.ok.inj h
    refine ⟨⟨sc.tables, rfl⟩, fun r hr => ?_⟩
    rw [hnone] at hr
    cases hr
  · split_ifs at h
    obtain rfl := Except.ok.inj h
    exact ⟨⟨_, rfl⟩, fun r hr => rowAt_update hf hr⟩

/-- A property write, up to the row it leaves. -/
theorem setPropsInner_eq_ok (h : setPropsInner s sc id (.obj kvs) = .ok sc') :
    ∃ table, storageTable sc.catalog (idType id) = some table ∧ ∃ sc₁ plan,
      Planned s (idType id) kvs sc sc₁ plan ∧ (∃ tables, sc' = { sc₁ with tables := tables }) ∧
        ∀ r, rowAt sc₁ table id = some r →
          rowAt sc' table id = some (assign plan (.obj kvs) r) ∧
            (plan.columns.map (·.1)).Nodup := by
  rcases bind_eq_ok.mp h with ⟨table, htable, h⟩
  rcases bind_eq_ok.mp h with ⟨⟨sc₁, plan⟩, hplan, h⟩
  rcases bind_eq_ok.mp h with ⟨u, -, h⟩
  have htable : storageTable sc.catalog (idType id) = some table := by
    unfold entityTable at htable
    split at htable
    · next hsome =>
      obtain rfl := Except.ok.inj htable
      exact hsome
    · cases htable
  refine ⟨table, htable, sc₁, plan, planProps_eq_ok hplan, ?_⟩
  split_ifs at h with hempty
  · obtain rfl := pure_eq_ok.mp h
    refine ⟨⟨sc₁.tables, rfl⟩, fun r hr => ?_⟩
    have hcolumns : plan.columns = [] := List.isEmpty_iff.mp hempty.1
    refine ⟨?_, by rw [hcolumns]; exact List.nodup_nil⟩
    rw [hr, assign, hcolumns, hempty.2]
    rfl
  · rcases bind_eq_ok.mp h with ⟨u, hnodup, h⟩
    rcases updateTyped_eq_ok (fun r => assign_id) h with ⟨htables, hrow⟩
    exact ⟨htables, fun r hr => ⟨hrow r hr, require_eq_ok.mp hnodup⟩⟩

end Assignments

section Reading

variable {s : Session} {sc sc' sc₁ : Schema} {c : Catalog} {tid id : Int}
  {kvs : List (String × Json)} {r r₁ : TypedRow} {plan : PropPlan} {table : StorageTable}
  {key : String}

/-- What a row says of a key: the extension payload, then the column of the property. -/
def stored (c : Catalog) (tid : Int) (r : TypedRow) (key : String) : Option Json :=
  (extGet r key).or ((property? c tid key).bind fun p => nonNull (toJson (r.col p.columnName)))

theorem get_columns {ps : List Property} (hnames : (ps.map (·.name)).Nodup) :
    (Json.obj ((ps.filter fun p => ¬ (toJson (r.col p.columnName)).isNull).map fun p =>
      (p.name, toJson (r.col p.columnName)))).get? key =
        (ps.find? fun p => p.name = key).bind fun p => nonNull (toJson (r.col p.columnName)) := by
  induction ps with
  | nil => rfl
  | cons p ps ih =>
      rw [List.map_cons, List.nodup_cons] at hnames
      have hothers : p.name = key → ps.find? (fun q => q.name = key) = none := by
        rintro rfl
        simp only [List.find?_eq_none, decide_eq_true_eq]
        exact fun q hq heq => hnames.1 (heq ▸ List.mem_map_of_mem hq)
      by_cases hnull : (toJson (r.col p.columnName)).isNull = true
      · rw [List.filter_cons_of_neg (by simpa using hnull), ih hnames.2]
        by_cases hname : p.name = key
        · rw [hothers hname, List.find?_cons_of_pos (by simpa using hname)]
          simp [nonNull, hnull]
        · rw [List.find?_cons_of_neg (by simpa using hname)]
      · rw [List.filter_cons_of_pos (by simpa using hnull), List.map_cons, get_cons]
        by_cases hname : p.name = key
        · rw [if_pos hname, List.find?_cons_of_pos (by simpa using hname)]
          simp [nonNull, hnull]
        · rw [if_neg hname, List.find?_cons_of_neg (by simpa using hname)]
          exact ih hnames.2

theorem rowDocument_get {fixed : List (String × Json)}
    (hnames : ((propertiesOf c tid).map (·.name)).Nodup)
    (hfixed : (Json.obj fixed).get? key = none) :
    (rowDocument c tid fixed r).get? key = stored c tid r key := by
  have hmain : ∀ a, (Json.obj a).get? key = extGet r key →
      (concatJson (concatJson (.obj fixed)
        (.obj (((propertiesOf c tid).filter fun p => ¬ (toJson (r.col p.columnName)).isNull).map
          fun p => (p.name, toJson (r.col p.columnName))))) (.obj a)).get? key =
        stored c tid r key := by
    intro a ha
    rw [concatJson, get_concat, ha, stored, ← concatJson, get_concat, hfixed, Option.or_none,
      get_columns hnames]
    rfl
  rw [rowDocument]
  split
  · next kvs hr => exact hmain kvs (by rw [extGet, hr]; rfl)
  · next hr =>
    refine hmain [] ?_
    cases hrow : r.ext with
    | none =>
        rw [extGet, hrow]
        rfl
    | some j =>
        cases j with
        | obj kvs => exact absurd hrow (hr kvs)
        | _ =>
            rw [extGet, hrow]
            rfl

/-- What the planned assignments leave of a key the payload has: the value its column reads,
or the member itself in the extension payload. -/
theorem stored_val_of_mem (hplan : Planned s tid kvs sc sc₁ plan) (hkeys : (kvs.map (·.1)).Nodup)
    (hcols : (plan.columns.map (·.1)).Nodup) (htid : tid ∈ ogSubtypes sc.catalog tid)
    (hobject : ExtObject r) (htable : storageTable sc.catalog tid = some table)
    (hr : rowAt sc table id = some r) (hr₁ : rowAt sc₁ table id = some r₁) {kv : String × Json}
    (hkv : kv ∈ kvs)
    (hundeclared : ∀ p, property? sc.catalog tid kv.1 = some p → extGet r kv.1 = none) :
    (columnType s sc.catalog tid kv.1 kv.2 = none →
      stored sc₁.catalog tid (assign plan (.obj kvs) r₁) kv.1 = some kv.2) ∧
    ∀ dtype, columnType s sc.catalog tid kv.1 kv.2 = some dtype →
      ∃ val, columnValue s dtype (.obj kvs) kv.1 = .ok val ∧
        stored sc₁.catalog tid (assign plan (.obj kvs) r₁) kv.1 = nonNull (toJson val) := by
  rcases declareNewProps_eq_ok htid hplan.declared with ⟨hev, hprops, hclear⟩
  have hkept := hev.kept hr hr₁
  have hget := get_of_mem hkeys hkv
  have hmap := property_of_mem hkeys hprops hkv
  rw [stored, extGet_assign (hkept.object hobject)]
  cases hp : property? sc₁.catalog tid kv.1 with
  | none =>
      rw [hp] at hmap
      refine ⟨fun htype => ?_, fun dtype htype => ?_⟩
      · have hout : kv.1 ∉ plan.declared := by
          rw [hplan.names]
          intro hin
          rcases List.mem_map.mp hin with ⟨p, hp', hname⟩
          have hnone := List.find?_eq_none.mp hp p hp'
          simp [hname] at hnone
        have hext : plan.extNeeded = true :=
          hplan.extNeeded.mpr ⟨kv.1, List.mem_map_of_mem hkv, hout⟩
        rw [if_pos ⟨hext, hout⟩, hget]
        rfl
      · rw [htype] at hmap
        cases hmap
  | some p =>
      rcases hplan.column hkeys htid hkv hp with ⟨hcol, htype⟩
      refine ⟨fun hnone => absurd (htype.symm.trans hnone) (by simp), fun dtype hdtype => ?_⟩
      rw [htype] at hdtype
      obtain rfl := Option.some.inj hdtype
      have hname := property?_name hp
      have hpmem : p ∈ propertiesOf sc₁.catalog tid := List.mem_of_find?_eq_some hp
      have hin : kv.1 ∈ plan.declared := by
        rw [hplan.names, ← hname]
        exact List.mem_map_of_mem hpmem
      have hnone : extGet r₁ kv.1 = none := by
        cases hold : property? sc.catalog tid kv.1 with
        | some q => exact hkept.absent _ (hundeclared q hold)
        | none =>
            rw [columnType, hold] at htype
            split_ifs at htype with hcan
            have hwant : inferColumnType kv.2 = some p.dataType := htype
            have hwork : kv ∈ promoted s sc.catalog tid kvs := by
              refine mem_promoted.mpr ⟨hcan, hkv, ?_⟩
              rw [needsWork, hwant, hold]
            rcases hclear kv hwork _ hwant hold table htable id r hr with ⟨r', hr', hnone⟩
            rw [hr₁] at hr'
            obtain rfl := Option.some.inj hr'
            exact hnone
      rw [if_neg fun h => h.2 hin, hnone, Option.none_or, Option.bind_some]
      rcases hplan.values p hpmem (by rw [hname, hget]; rfl) with ⟨val, hval, hmem⟩
      refine ⟨val, by rw [← hname]; exact hval, ?_⟩
      rw [assign_col, foldl_setCol_of_mem hcols hmem]

/-- Where the column gives the value back, the key has the value. -/
theorem stored_of_mem (hplan : Planned s tid kvs sc sc₁ plan) (hkeys : (kvs.map (·.1)).Nodup)
    (hcols : (plan.columns.map (·.1)).Nodup) (hplaced : Placed s sc.catalog tid (kvs.map (·.1)) r)
    (htable : storageTable sc.catalog tid = some table) (hr : rowAt sc table id = some r)
    (hr₁ : rowAt sc₁ table id = some r₁) {kv : String × Json} (hkv : kv ∈ kvs)
    (hholds : Holds s sc.catalog tid kvs kv.1 kv.2) :
    stored sc₁.catalog tid (assign plan (.obj kvs) r₁) kv.1 = nonNull kv.2 := by
  have hundeclared : ∀ p, property? sc.catalog tid kv.1 = some p → extGet r kv.1 = none := by
    intro q hq
    have hnone := hplaced.undeclared q (List.mem_of_find?_eq_some hq)
    rwa [property?_name hq] at hnone
  rcases stored_val_of_mem hplan hkeys hcols hplaced.labelled hplaced.object htable hr hr₁ hkv
    hundeclared with ⟨hext, hcolumn⟩
  rw [Holds] at hholds
  cases htype : columnType s sc.catalog tid kv.1 kv.2 with
  | none =>
      rw [htype] at hholds
      rw [hext htype]
      simp [nonNull, hholds]
  | some dtype =>
      rw [htype] at hholds
      rcases hcolumn dtype htype with ⟨val, hval, hstored⟩
      rw [hstored]
      exact hholds val hval

/-- A key the payload does not have keeps its value. -/
theorem stored_of_not_mem (hplan : Planned s tid kvs sc sc₁ plan) (hkeys : (kvs.map (·.1)).Nodup)
    (hplaced : Placed s sc.catalog tid (kvs.map (·.1)) r)
    (hr : rowAt sc table id = some r) (hr₁ : rowAt sc₁ table id = some r₁)
    (hkey : key ∉ kvs.map (·.1)) :
    stored sc₁.catalog tid (assign plan (.obj kvs) r₁) key = stored sc.catalog tid r key := by
  rcases declareNewProps_eq_ok hplaced.labelled hplan.declared with ⟨hev, hprops, -⟩
  have hkept := hev.kept hr hr₁
  have hget : (Json.obj kvs).get? key = none :=
    get_eq_none.mpr fun kv hkv heq => hkey (heq ▸ List.mem_map_of_mem hkv)
  have hext : extGet r₁ key = extGet r key :=
    hkept.ext key fun hin => hkey ((promoted_sublist.map _).subset hin)
  rw [stored, stored, extGet_assign (hkept.object hplaced.object), hget, Option.none_or, ite_self,
    hext, property_of_not_mem hprops hkey]
  cases hp : property? sc.catalog tid key with
  | none => rfl
  | some p =>
      have hname := property?_name hp
      have hcol : columnOf s sc.catalog tid key = p.columnName := by rw [columnOf, hp]
      have hin : key ∈ (propertiesOf sc.catalog tid).map (·.name) ++ kvs.map (·.1) :=
        List.mem_append_left _ (hname ▸ List.mem_map_of_mem (List.mem_of_find?_eq_some hp))
      -- no key of the payload is written to the column of this one
      have hother : ∀ k ∈ kvs.map (·.1), columnOf s sc.catalog tid k ≠ p.columnName := by
        intro k hk heq
        refine hkey ?_
        rw [← hplaced.columns k (List.mem_append_right _ hk) key hin (heq.trans hcol.symm)]
        exact hk
      have hassigned : p.columnName ∉ plan.columns.map (·.1) := by
        rw [hplan.columns]
        intro hmem
        rcases List.mem_map.mp hmem with ⟨q, hq, heq⟩
        rcases List.mem_filter.mp hq with ⟨hq, hsome⟩
        rcases Option.isSome_iff_exists.mp hsome with ⟨v, hv⟩
        have hmem := mem_of_get hv
        have hq := property?_of_mem (hplan.nodup_names hkeys hplaced.labelled hplaced.names) hq
        have hcolumn := (hplan.column hkeys hplaced.labelled hmem hq).1
        exact hother q.name (List.mem_map_of_mem hmem) (hcolumn.symm.trans heq)
      have hpromoted : p.columnName ∉
          (promoted s sc.catalog tid kvs).map fun kv => columnOf s sc.catalog tid kv.1 := by
        intro hmem
        rcases List.mem_map.mp hmem with ⟨kv, hkv, heq⟩
        exact hother kv.1 (List.mem_map_of_mem (promoted_sublist.subset hkv)) heq
      rw [Option.bind_some, Option.bind_some, assign_col, foldl_setCol_of_not_mem hassigned,
        hkept.col _ hpromoted]

end Reading

section Runs

variable {s : Session} {st st' : Store} {x : Entity} {item : Item} {sc sc' : Schema}
  {table : StorageTable} {r : TypedRow} {key : String}

theorem get_reserved {fixed : List (String × Json)}
    (hfixed : ∀ kv ∈ fixed, isReservedKey kv.1 = true) (hkey : isReservedKey key = false) :
    (Json.obj fixed).get? key = none := by
  refine get_eq_none.mpr fun kv hkv heq => ?_
  have hreserved := hfixed kv hkv
  rw [heq, hkey] at hreserved
  cases hreserved

theorem readable_elementJson {id : Int} {ends : List (String × Json)}
    (hends : ∀ kv ∈ ends, isReservedKey kv.1 = true)
    (htable : storageTable sc.catalog (idType id) = some table)
    (hr : rowAt sc table id = some r)
    (hnames : ((propertiesOf sc.catalog (idType id)).map (·.name)).Nodup) :
    readable (elementJson sc id (idType id) ends) key =
      if isReservedKey key then none else stored sc.catalog (idType id) r key := by
  rcases Option.bind_eq_some_iff.mp htable with ⟨t, ht, htable⟩
  have hr : (rowsOf sc table).find? (fun r => r.id = id) = some r := hr
  simp only [elementJson, ht, htable, hr, readable]
  split_ifs with hkey
  · rfl
  · refine rowDocument_get hnames (get_reserved (fun kv hkv => ?_) (by simpa using hkey))
    rcases List.mem_append.mp hkv with hkv | hkv
    · simp only [List.mem_cons, List.not_mem_nil, or_false] at hkv
      rcases hkv with rfl | rfl
      · rfl
      · rfl
    · exact hends kv hkv

/-- The property map of an entity is what its row says of the keys that can be set. -/
theorem propertyMap_eq (hreg : Registered st x)
    (htable : storageTable st.schema.catalog (idType (idOf x)) = some table)
    (hr : rowAt st.schema table (idOf x) = some r)
    (hnames : ((propertiesOf st.schema.catalog (idType (idOf x))).map (·.name)).Nodup) :
    propertyMap st x key =
      if isReservedKey key then none else stored st.schema.catalog (idType (idOf x)) r key := by
  cases x with
  | node id =>
      rcases hreg with ⟨n, hn, htype⟩
      rw [propertyMap, ogNodeJson, hn]
      dsimp only
      rw [htype]
      exact readable_elementJson (fun _ h => absurd h List.not_mem_nil) htable hr hnames
  | edge id =>
      rcases hreg with ⟨e, he, htype⟩
      rw [propertyMap, ogEdgeJson, he]
      dsimp only
      rw [htype]
      refine readable_elementJson (fun kv hkv => ?_) htable hr hnames
      simp only [List.mem_cons, List.not_mem_nil, or_false] at hkv
      rcases hkv with rfl | rfl
      · rfl
      · rfl

/-- An empty payload changes nothing. -/
theorem setPropsInner_empty {id : Int} (h : setPropsInner s sc id (.obj []) = .ok sc') :
    sc' = sc := by
  rcases bind_eq_ok.mp h with ⟨t, -, h⟩
  rcases bind_eq_ok.mp h with ⟨⟨sc₁, plan⟩, hplan, h⟩
  rcases bind_eq_ok.mp h with ⟨u, -, h⟩
  have hplanned := planProps_eq_ok hplan
  have hsame : sc₁ = sc := by
    have hdeclared := hplanned.declared
    simp only [declareNewProps, List.any_nil, Bool.not_false, Bool.true_or, if_true] at hdeclared
    exact (Except.ok.inj hdeclared).symm
  have hcolumns : plan.columns = [] := by
    have hmap := hplanned.columns
    simpa [Json.get?] using hmap
  have hext : plan.extNeeded = false := by
    by_contra hne
    rcases hplanned.extNeeded.mp (by simpa using hne) with ⟨k, hk, -⟩
    cases hk
  rw [if_pos ⟨by rw [hcolumns]; rfl, hext⟩] at h
  rw [← pure_eq_ok.mp h, hsame]

theorem writeProps_eq_ok {props : Json} (h : writeProps s sc x props = .ok sc') :
    setPropsInner s sc (idOf x) props = .ok sc' := by
  cases x with
  | node id =>
      rcases bind_eq_ok.mp h with ⟨u, -, h⟩
      exact h
  | edge id => exact h

theorem clearProps_eq_ok (h : clearProps s sc x item = .ok sc') : sc' = sc := by
  cases item with
  | prop k v => exact (Except.ok.inj h).symm
  | map fields merge =>
      cases merge with
      | true => exact (Except.ok.inj h).symm
      | false => exact setPropsInner_empty (writeProps_eq_ok h)

/-- What a write of some members makes of the property map. -/
theorem writeProps_map {fields : Fields} (h : writeProps s st.schema x (.obj fields.kvs) = .ok sc')
    (hpresent : Present st x)
    (hplaced : ∀ table r, storageTable st.schema.catalog (idType (idOf x)) = some table →
      rowAt st.schema table (idOf x) = some r →
        Placed s st.schema.catalog (idType (idOf x)) (fields.kvs.map (·.1)) r)
    (hholds : ∀ kv ∈ fields.kvs,
      Holds s st.schema.catalog (idType (idOf x)) fields.kvs kv.1 kv.2) :
    Present { st with schema := sc' } x ∧
      propertyMap { st with schema := sc' } x =
        Item.apply (propertyMap st x) (.map fields true) := by
  rcases hpresent.stored with ⟨table, r, htable, hr⟩
  have hplaced := hplaced table r htable hr
  rcases setPropsInner_eq_ok (writeProps_eq_ok h) with
    ⟨table', htable', sc₁, plan, hplan, ⟨tables, rfl⟩, hrow⟩
  rw [htable] at htable'
  obtain rfl := Option.some.inj htable'
  have hev := (declareNewProps_eq_ok hplaced.labelled hplan.declared).1
  rcases hev.rows table _ r hr with ⟨r₁, hr₁, -⟩
  rcases hrow r₁ hr₁ with ⟨hr', hcols⟩
  have hnames := hplan.nodup_names fields.nodup hplaced.labelled hplaced.names
  have htable₁ : storageTable sc₁.catalog (idType (idOf x)) = some table := by
    rw [hev.storageTable_eq]
    exact htable
  have hreg : Registered { st with schema := { sc₁ with tables := tables } } x := by
    have hreg := hpresent.registered
    cases x with
    | node id => exact hreg
    | edge id => exact hreg
  refine ⟨⟨hreg, ⟨table, _, htable₁, hr'⟩, hnames⟩, ?_⟩
  funext key
  rw [propertyMap_eq hreg htable₁ hr' hnames, Item.apply]
  dsimp only
  rw [propertyMap_eq hpresent.registered htable hr hpresent.names]
  cases hget : (Json.obj fields.kvs).get? key with
  | none =>
      have hkey : key ∉ fields.kvs.map (·.1) := by
        intro hin
        rcases List.mem_map.mp hin with ⟨kv, hkv, heq⟩
        exact get_eq_none.mp hget kv hkv heq
      dsimp only
      rw [stored_of_not_mem hplan fields.nodup hplaced hr hr₁ hkey]
  | some v =>
      have hmem := mem_of_get hget
      have hopen := hplan.reserved key (List.mem_map_of_mem hmem)
      rw [hopen]
      exact stored_of_mem hplan fields.nodup hcols hplaced htable hr hr₁ hmem (hholds _ hmem)

/-- What one item makes of the property map. -/
theorem applyItem_map (h : applyItem s x st item = .ok st') (hpresent : Present st x)
    (hkept : Kept s x st item) :
    Present st' x ∧ propertyMap st' x = Item.apply (propertyMap st x) item := by
  rcases bind_eq_ok.mp h with ⟨sc, hclear, h⟩
  rcases bind_eq_ok.mp h with ⟨sc', hwrite, h⟩
  obtain rfl := pure_eq_ok.mp h
  rw [clearProps_eq_ok hclear] at hwrite
  rcases writeProps_map hwrite hpresent hkept.placed hkept.holds with ⟨hpresent', hmap⟩
  refine ⟨hpresent', hmap.trans ?_⟩
  cases item with
  | prop k v =>
      funext key
      simp only [Item.apply, Item.fields, get_cons, Function.update_apply]
      by_cases hk : k = key
      · simp [hk]
      · simp [hk, Ne.symm hk, Json.get?]
  | map fields merge =>
      cases merge with
      | true => rfl
      | false =>
          funext key
          simp only [Item.apply, Item.fields]
          have hcovers := hkept.covers fields rfl key
          cases hget : (Json.obj fields.kvs).get? key with
          | none => exact of_not_not fun hne => hcovers hne hget
          | some v => rfl

/-- In a run of items each of which meets the condition, the property map read back is
the one the same items make of a finite map. -/
theorem propertyMap_run {st₀ : Store} {items : List Item} (hpresent : Present st₀ x)
    (run : Run (applyItem s x) (fun _ st item => Kept s x st item) st₀ items st) :
    propertyMap st x = items.foldl Item.apply (propertyMap st₀ x) := by
  have hinv : Present st x ∧ propertyMap st x = items.foldl Item.apply (propertyMap st₀ x) := by
    refine run.invariant (I := fun items st => Present st x ∧
      propertyMap st x = items.foldl Item.apply (propertyMap st₀ x)) ⟨hpresent, rfl⟩ ?_
    rintro items st item st' ⟨hpresent, hmap⟩ hkept hstep
    rcases applyItem_map hstep hpresent hkept with ⟨hpresent', hmap'⟩
    exact ⟨hpresent', by rw [hmap', hmap, List.foldl_append]; rfl⟩
  exact hinv.2

end Runs

section RowLoop

variable {F : Type} {rt : RowEvaluator.Runtime F} {params entity : RowEvaluator.Value F}
  {s : Session} {G : RowWrites.Engine F} {x : Entity} {var prop : String}
  {value : CypherSyntax.Expr} {merge : Bool} {st st' : RowWrites.State}
  {env env' : RowEvaluator.Env F}

end RowLoop

/-- A writer without the right to change the schema. -/
def writerSession : Session where
  role := "writer"
  canChangeSchema := false
  denied := fun _ _ _ => none
  cast := fun _ v => .ok v
  isAlphanumeric := fun _ => false
  toLowercase := fun c => String.singleton c

/-- The first node of type 1. -/
def firstNode : Int := 68719476737

/-- One node with the declared property `a`, whose value is 1. -/
def oneNode : Store where
  schema := ⟨{ TypeCatalog.empty with
    graphs := [(1, "g")]
    types := [⟨1, 1, "A", .entity, some (nodeTable 1)⟩]
    labels := [⟨1, 0, 1, 1, 1025, 0⟩]
    properties := [⟨1, "a", "int8", "p_a", false, false⟩] },
    [(nodeTable 1, ⟨firstNode, none, [("p_a", .int 1)], none⟩)]⟩
  ogIdAlloc := [(1, 2)]
  ogNode := [⟨firstNode, 1⟩]
  ogEdge := []
  ogAdj := []
  ogRolePlayer := []

theorem oneNode_present : Present oneNode (.node firstNode) :=
  ⟨⟨⟨firstNode, 1⟩, rfl, by decide⟩, ⟨nodeTable 1, _, rfl, rfl⟩, by decide⟩

theorem oneNode_kept : Kept writerSession (.node firstNode) oneNode (.prop "a" .null) := by
  refine ⟨fun table r htable hr => ?_, fun kv hkv => ?_, fun fields h => ?_⟩
  · obtain rfl := Option.some.inj htable
    obtain rfl := Option.some.inj hr
    exact ⟨by decide, by decide, by decide, .inl rfl, by decide⟩
  · obtain rfl := List.mem_singleton.mp hkv
    intro val hval
    obtain rfl := Except.ok.inj hval
    rfl
  · cases h

/-- `REMOVE n.a` empties the map. -/
theorem propertyMap_remove :
    ∃ st, applyItem writerSession (.node firstNode) oneNode (.prop "a" .null) = .ok st ∧
      propertyMap st (.node firstNode) =
        [Item.prop "a" .null].foldl Item.apply (propertyMap oneNode (.node firstNode)) :=
  ⟨_, rfl, propertyMap_run oneNode_present (Run.single oneNode_kept rfl)⟩

/-- The map with the one member `b: 2`. -/
def replacement : Fields := ⟨[("b", .num ⟨2, 0⟩)], List.nodup_singleton _⟩

/-- `SET n = map` leaves the property `a`, which the map does not have. -/
theorem not_replaced :
    ¬ ∀ st, applyItem writerSession (.node firstNode) oneNode (.map replacement false) = .ok st →
      propertyMap st (.node firstNode) =
        Item.apply (propertyMap oneNode (.node firstNode)) (.map replacement false) := by
  intro h
  have hread : some (Json.num ⟨1, 0⟩) = none := congrFun (h _ rfl) "a"
  cases hread

end OntologicalDb.PropertyMaps
