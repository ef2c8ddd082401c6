import Mathlib.Data.List.Nodup
import OntologicalDb.RowDocuments

/-!
The schema a property payload finds and leaves: which members get a column, of which
type, what declaring and widening them makes of the stored rows, and the plan that
assigns the payload.
-/

namespace OntologicalDb.PropertyPlans

open OntologicalDb.ExceptRules
open OntologicalDb.KeyedRows
open OntologicalDb.Labeling
open OntologicalDb.RowDocuments
open OntologicalDb.TypeCatalog
open OntologicalDb.TypedTables
open OntologicalDb.Values

section Lookups

variable (s : Session)

/-- The row of an entity in a table. -/
def rowAt (sc : Schema) (table : StorageTable) (id : Int) : Option TypedRow :=
  (rowsOf sc table).find? fun r => r.id = id

/-- The value does not fit the column it would be written to, which is then widened. -/
def widens (p : Property) (v : Json) : Bool :=
  match inferColumnType v with
  | none => false
  | some want => p.dataType ∈ widenable && !typeAccepts p.dataType want

def property? (c : Catalog) (tid : Int) (key : String) : Option Property :=
  (propertiesOf c tid).find? fun p => p.name = key

/-- The type of the column the value of a key goes to, none for the extension payload. -/
def columnType (c : Catalog) (tid : Int) (key : String) (v : Json) : Option String :=
  match property? c tid key with
  | some p => some (if s.canChangeSchema ∧ widens p v then "text" else p.dataType)
  | none => if s.canChangeSchema then inferColumnType v else none

/-- The column of a key, now or once it is declared. -/
def columnOf (c : Catalog) (tid : Int) (key : String) : String :=
  match property? c tid key with
  | some p => p.columnName
  | none => columnName s key

/-- A member of the extension payload. -/
def extGet (r : TypedRow) (key : String) : Option Json := r.ext.bind (Json.get? key)

def ExtObject (r : TypedRow) : Prop := r.ext = none ∨ ∃ kvs, r.ext = some (.obj kvs)

end Lookups

section Documents

variable {a b : List (String × Json)} {key : String}

theorem get_cons {k : String} {v : Json} :
    (Json.obj ((k, v) :: a)).get? key = if k = key then some v else (Json.obj a).get? key := by
  by_cases h : k = key <;> simp [Json.get?, h]

theorem get_eq_none : (Json.obj a).get? key = none ↔ ∀ kv ∈ a, kv.1 ≠ key := by
  simp [Json.get?]

theorem get_append :
    (Json.obj (a ++ b)).get? key = ((Json.obj a).get? key).or ((Json.obj b).get? key) := by
  simp [Json.get?, List.find?_append, Option.map_or]

theorem get_filter_of_pos {p : String → Bool} (h : p key = true) :
    (Json.obj (a.filter fun kv => p kv.1)).get? key = (Json.obj a).get? key := by
  induction a with
  | nil => rfl
  | cons kv a ih =>
      rw [List.filter_cons, get_cons]
      by_cases hk : kv.1 = key
      · rw [hk, if_pos h, get_cons, if_pos hk, if_pos rfl]
      · rw [if_neg hk, ← ih]
        split_ifs with hp
        · rw [get_cons, if_neg hk]
        · rfl

theorem get_filter_of_neg {p : String → Bool} (h : p key = false) :
    (Json.obj (a.filter fun kv => p kv.1)).get? key = none := by
  refine get_eq_none.mpr fun kv hkv heq => ?_
  have hp := (List.mem_filter.mp hkv).2
  rw [heq, h] at hp
  cases hp

theorem get_concat :
    (concatJson (.obj a) (.obj b)).get? key =
      ((Json.obj b).get? key).or ((Json.obj a).get? key) := by
  have hfilter : (Json.obj (a.filter fun kv => ¬ b.any fun kw => kw.1 = kv.1)).get? key =
      if ((Json.obj b).get? key).isSome then none else (Json.obj a).get? key := by
    cases hb : (Json.obj b).get? key with
    | none =>
        refine @get_filter_of_pos a key (fun k => ¬ b.any fun kw => kw.1 = k) ?_
        simpa using get_eq_none.mp hb
    | some v =>
        refine @get_filter_of_neg a key (fun k => ¬ b.any fun kw => kw.1 = k) ?_
        have hsome : ¬ ∀ kv ∈ b, kv.1 ≠ key := fun h => by
          rw [get_eq_none.mpr h] at hb
          cases hb
        simpa using hsome
  rw [concatJson, get_append, hfilter]
  cases (Json.obj b).get? key <;> simp

theorem get_of_mem (hkeys : (a.map (·.1)).Nodup) {kv : String × Json} (h : kv ∈ a) :
    (Json.obj a).get? kv.1 = some kv.2 := by
  induction a with
  | nil => cases h
  | cons x a ih =>
      rcases x with ⟨k, v⟩
      rw [List.map_cons, List.nodup_cons] at hkeys
      rw [get_cons]
      rcases List.mem_cons.mp h with rfl | hin
      · exact if_pos rfl
      · have hne : k ≠ kv.1 := fun heq => hkeys.1 (List.mem_map.mpr ⟨kv, hin, heq.symm⟩)
        rw [if_neg hne]
        exact ih hkeys.2 hin

theorem mem_of_get {v : Json} (h : (Json.obj a).get? key = some v) : (key, v) ∈ a := by
  induction a with
  | nil => cases h
  | cons x a ih =>
      rcases x with ⟨k, w⟩
      rw [get_cons] at h
      split_ifs at h with hk
      · rw [hk, Option.some.inj h]
        exact List.mem_cons_self
      · exact List.mem_cons_of_mem _ (ih h)

end Documents

section Rows

variable {table t : StorageTable} {id : Int} {r r' : TypedRow}

@[simp] theorem col_setCol_self {c : String} {v : Val} : (r.setCol c v).col c = v := by
  simp [TypedRow.setCol, TypedRow.col]

theorem col_setCol_of_ne {c c' : String} {v : Val} (h : c' ≠ c) :
    (r.setCol c v).col c' = r.col c' := by
  rw [TypedRow.col, TypedRow.col, TypedRow.setCol, List.find?_cons_of_neg (by simpa using h.symm),
    List.find?_filter]
  congr 3
  funext x
  by_cases hx : x.1 = c'
  · simp [hx, h]
  · simp [hx]

theorem rowAt_cons {c : Catalog} {t' : StorageTable} {tables : List (StorageTable × TypedRow)} :
    rowAt ⟨c, (t', r) :: tables⟩ t id =
      if t' = t ∧ r.id = id then some r else rowAt ⟨c, tables⟩ t id := by
  by_cases ht : t' = t
  · by_cases hid : r.id = id <;> simp [rowAt, rowsOf, ht, hid]
  · simp [rowAt, rowsOf, ht]

theorem mapTable_cons_eq_ok {f : TypedRow → Except String TypedRow}
    {tables tables' : List (StorageTable × TypedRow)} :
    mapTable table f ((t, r) :: tables) = .ok tables' ↔
      ∃ r', (if t = table then f r else .ok r) = .ok r' ∧
        ∃ rest, mapTable table f tables = .ok rest ∧ (t, r') :: rest = tables' := by
  rw [mapTable]
  split_ifs with ht
  · simp only [bind_eq_ok, pure_eq_ok]
  · simp only [bind_eq_ok, pure_eq_ok, Except.ok.injEq]

/-- What a rewrite of one table makes of a row. -/
theorem rowAt_mapTable {c c' : Catalog} {f : TypedRow → Except String TypedRow}
    (hid : ∀ r r', f r = .ok r' → r'.id = r.id) {tables tables' : List (StorageTable × TypedRow)}
    (h : mapTable table f tables = .ok tables') (hr : rowAt ⟨c, tables⟩ t id = some r) :
    ∃ r', rowAt ⟨c', tables'⟩ t id = some r' ∧ if t = table then f r = .ok r' else r' = r := by
  induction tables generalizing tables' with
  | nil => simp [rowAt, rowsOf] at hr
  | cons x tables ih =>
      rcases x with ⟨tx, q⟩
      rcases mapTable_cons_eq_ok.mp h with ⟨q', hq, rest, hrest, rfl⟩
      have hqid : q'.id = q.id := by
        split_ifs at hq with hx
        · exact hid _ _ hq
        · rw [Except.ok.inj hq]
      rw [rowAt_cons] at hr
      rw [rowAt_cons, hqid]
      split_ifs at hr with hhere
      · obtain rfl := Option.some.inj hr
        refine ⟨q', if_pos hhere, ?_⟩
        rw [hhere.1] at hq
        split_ifs at hq ⊢
        · exact hq
        · exact (Except.ok.inj hq).symm
      · rw [if_neg hhere]
        exact ih hrest hr

/-- What a schema change keeps of a row: everything but some columns and some members of
the extension payload, which it can only take out. -/
structure RowKept (keys cols : List String) (r r' : TypedRow) : Prop where
  col : ∀ c, c ∉ cols → r'.col c = r.col c
  ext : ∀ k, k ∉ keys → extGet r' k = extGet r k
  absent : ∀ k, extGet r k = none → extGet r' k = none
  object : ExtObject r → ExtObject r'

theorem RowKept.refl (keys cols : List String) (r : TypedRow) : RowKept keys cols r r :=
  ⟨fun _ _ => rfl, fun _ _ => rfl, fun _ => id, id⟩

theorem RowKept.trans {keys cols : List String} {r'' : TypedRow} (h : RowKept keys cols r r')
    (h' : RowKept keys cols r' r'') : RowKept keys cols r r'' :=
  ⟨fun c hc => (h'.col c hc).trans (h.col c hc), fun k hk => (h'.ext k hk).trans (h.ext k hk),
    fun k hk => h'.absent k (h.absent k hk), fun ho => h'.object (h.object ho)⟩

theorem RowKept.mono {keys keys' cols cols' : List String} (h : RowKept keys cols r r')
    (hkeys : keys ⊆ keys') (hcols : cols ⊆ cols') : RowKept keys' cols' r r' :=
  ⟨fun c hc => h.col c fun hc' => hc (hcols hc'), fun k hk => h.ext k fun hk' => hk (hkeys hk'),
    h.absent, h.object⟩

theorem setCol_kept {c : String} {v : Val} : RowKept [] [c] r (r.setCol c v) :=
  ⟨fun _ hc => col_setCol_of_ne fun heq => hc (heq ▸ List.mem_singleton_self _), fun _ _ => rfl,
    fun _ => id, id⟩

/-- A promoted member leaves the extension payload. -/
theorem promote_eq_ok {s : Session} {prop col dtype : String}
    (h : promote s prop col dtype r = .ok r') :
    r'.id = r.id ∧ RowKept [prop] [col] r r' ∧ extGet r' prop = none := by
  rw [promote.eq_def] at h
  split at h
  · next kvs hext =>
    split_ifs at h with hany
    · rcases bind_eq_ok.mp h with ⟨v, -, hr'⟩
      obtain rfl := pure_eq_ok.mp hr'
      have hget : ∀ k, extGet { r.setCol col v with
          ext := some (.obj (kvs.filter fun kv => kv.1 ≠ prop)) } k =
          if k = prop then none else extGet r k := by
        intro k
        rw [extGet, extGet, hext, Option.bind_some, Option.bind_some]
        split_ifs with hk
        · exact @get_filter_of_neg kvs k (fun k => k ≠ prop) (by simpa using hk)
        · exact @get_filter_of_pos kvs k (fun k => k ≠ prop) (by simpa using hk)
      refine ⟨rfl, ⟨fun c hc => ?_, fun k hk => ?_, fun k hk => ?_, fun _ => .inr ⟨_, rfl⟩⟩, ?_⟩
      · exact col_setCol_of_ne fun heq => hc (heq ▸ List.mem_singleton_self _)
      · have hne : k ≠ prop := fun heq => hk (heq ▸ List.mem_singleton_self _)
        rw [hget, if_neg hne]
      · rw [hget, hk, ite_self]
      · rw [hget, if_pos rfl]
    · obtain rfl := Except.ok.inj h
      refine ⟨rfl, .refl _ _ _, ?_⟩
      rw [extGet, hext, Option.bind_some]
      exact get_eq_none.mpr fun kv hkv heq =>
        hany (List.any_eq_true.mpr ⟨kv, hkv, decide_eq_true heq⟩)
  · next hext =>
    obtain rfl := Except.ok.inj h
    refine ⟨rfl, .refl _ _ _, ?_⟩
    cases hr : r.ext with
    | none => simp [extGet, hr]
    | some j =>
        cases j with
        | obj kvs => exact absurd hr (hext kvs)
        | _ => simp [extGet, hr, Json.get?]

end Rows

section Schemas

variable {s : Session} {sc sc' : Schema} {keys cols : List String} {tid : Int}
  {prop dtype col : String}

/-- What a schema change keeps of a store: the catalog but its properties, and of every
row what `RowKept` says. -/
structure Evolved (keys cols : List String) (sc sc' : Schema) : Prop where
  catalog : ∃ ps, sc'.catalog = { sc.catalog with properties := ps }
  rows : ∀ table id r, rowAt sc table id = some r →
    ∃ r', rowAt sc' table id = some r' ∧ RowKept keys cols r r'

theorem Evolved.refl (keys cols : List String) (sc : Schema) : Evolved keys cols sc sc :=
  ⟨⟨_, rfl⟩, fun _ _ r hr => ⟨r, hr, .refl _ _ _⟩⟩

theorem Evolved.trans {sc'' : Schema} (h : Evolved keys cols sc sc')
    (h' : Evolved keys cols sc' sc'') : Evolved keys cols sc sc'' := by
  refine ⟨?_, fun table id r hr => ?_⟩
  · rcases h.catalog with ⟨ps, hps⟩
    rcases h'.catalog with ⟨ps', hps'⟩
    exact ⟨ps', by rw [hps', hps]⟩
  · rcases h.rows table id r hr with ⟨r₁, hr₁, hkept⟩
    rcases h'.rows table id r₁ hr₁ with ⟨r₂, hr₂, hkept'⟩
    exact ⟨r₂, hr₂, hkept.trans hkept'⟩

theorem Evolved.mono {keys' cols' : List String} (h : Evolved keys cols sc sc')
    (hkeys : keys ⊆ keys') (hcols : cols ⊆ cols') : Evolved keys' cols' sc sc' := by
  refine ⟨h.catalog, fun table id r hr => ?_⟩
  rcases h.rows table id r hr with ⟨r', hr', hkept⟩
  exact ⟨r', hr', hkept.mono hkeys hcols⟩

theorem Evolved.storageTable_eq (h : Evolved keys cols sc sc') :
    storageTable sc'.catalog = storageTable sc.catalog := by
  rcases h.catalog with ⟨ps, hps⟩
  rw [hps]
  rfl

theorem Evolved.ogSubtypes_eq (h : Evolved keys cols sc sc') :
    ogSubtypes sc'.catalog = ogSubtypes sc.catalog := by
  rcases h.catalog with ⟨ps, hps⟩
  rw [hps]
  rfl

theorem Evolved.kept (h : Evolved keys cols sc sc') {table : StorageTable} {id : Int}
    {r r' : TypedRow} (hr : rowAt sc table id = some r) (hr' : rowAt sc' table id = some r') :
    RowKept keys cols r r' := by
  rcases h.rows table id r hr with ⟨q, hq, hkept⟩
  rw [hr'] at hq
  obtain rfl := Option.some.inj hq
  exact hkept

theorem evolved_mapTable {table : StorageTable} {f : TypedRow → Except String TypedRow}
    {tables : List (StorageTable × TypedRow)}
    (hf : ∀ r r', f r = .ok r' → r'.id = r.id ∧ RowKept keys cols r r')
    (h : mapTable table f sc.tables = .ok tables) {ps : List Property} :
    Evolved keys cols sc ⟨{ sc.catalog with properties := ps }, tables⟩ := by
  refine ⟨⟨ps, rfl⟩, fun t id r hr => ?_⟩
  rcases rowAt_mapTable (fun r r' hr' => (hf r r' hr').1) h hr with ⟨r', hr', hcase⟩
  refine ⟨r', hr', ?_⟩
  split_ifs at hcase
  · exact (hf r r' hcase).2
  · rw [hcase]
    exact .refl _ _ _

/-- The row of a property declared by inference. -/
def declared (tid : Int) (prop dtype col : String) : Property :=
  ⟨tid, prop, dtype, col, false, false⟩

theorem declare_eq {c : Catalog} {sub : Int} :
    ∃ ps, declare sub prop dtype col c = { c with properties := ps } := by
  unfold declare
  split_ifs
  · exact ⟨c.properties, rfl⟩
  · exact ⟨_, rfl⟩

/-- Declaring a name that a type has leaves the properties of that type alone. -/
theorem propertiesOf_declare {c : Catalog} {sub : Int}
    (h : ∃ p ∈ propertiesOf c tid, p.name = prop) :
    propertiesOf (declare sub prop dtype col c) tid = propertiesOf c tid := by
  unfold declare
  split_ifs with hany
  · rfl
  · have hne : sub ≠ tid := by
      rintro rfl
      rcases h with ⟨p, hp, hname⟩
      rcases List.mem_filter.mp hp with ⟨hp, htid⟩
      exact hany (List.any_eq_true.mpr
        ⟨p, hp, decide_eq_true ⟨of_decide_eq_true htid, hname⟩⟩)
    simp [propertiesOf, hne]

theorem propertiesOf_declare_new {c : Catalog}
    (h : ¬ c.properties.any fun p => p.typeId = tid ∧ p.name = prop) :
    propertiesOf (declare tid prop dtype col c) tid =
      propertiesOf c tid ++ [declared tid prop dtype col] := by
  rw [declare, if_neg h]
  simp [propertiesOf, declared]

/-- The loop of `addProperty` over the type and its descendants. -/
theorem addProperty_loop {subs : List Int}
    (hdeclared : ∃ p ∈ propertiesOf sc.catalog tid, p.name = prop)
    (h : subs.foldlM (fun st sub =>
      match storageTable st.catalog sub with
      | none => pure st
      | some table => do
          let tables ← mapTable table (promote s prop col dtype) st.tables
          return { catalog := declare sub prop dtype col st.catalog, tables := tables }) sc =
        (Except.ok sc' : Except String Schema)) :
    Evolved [prop] [col] sc sc' ∧ propertiesOf sc'.catalog tid = propertiesOf sc.catalog tid ∧
      ∀ sub ∈ subs, ∀ table, storageTable sc.catalog sub = some table → ∀ id r,
        rowAt sc table id = some r →
          ∃ r', rowAt sc' table id = some r' ∧ extGet r' prop = none := by
  induction subs generalizing sc with
  | nil =>
      obtain rfl := pure_eq_ok.mp h
      exact ⟨.refl _ _ _, rfl, fun _ hsub => absurd hsub List.not_mem_nil⟩
  | cons sub subs ih =>
      rcases foldlM_cons_eq_ok.mp h with ⟨sc₁, hstep, hrest⟩
      cases htable : storageTable sc.catalog sub with
      | none =>
          rw [htable] at hstep
          obtain rfl := pure_eq_ok.mp hstep
          rcases ih hdeclared hrest with ⟨hev, hprops, hclear⟩
          refine ⟨hev, hprops, fun sub' hsub' table ht => ?_⟩
          rcases List.mem_cons.mp hsub' with rfl | hsub'
          · rw [htable] at ht
            cases ht
          · exact hclear sub' hsub' table ht
      | some table =>
          rw [htable] at hstep
          rcases bind_eq_ok.mp hstep with ⟨tables, hmap, hsc₁⟩
          obtain rfl := pure_eq_ok.mp hsc₁
          have hsame : propertiesOf (declare sub prop dtype col sc.catalog) tid =
              propertiesOf sc.catalog tid := propertiesOf_declare hdeclared
          have hfirst : Evolved [prop] [col] sc
              ⟨declare sub prop dtype col sc.catalog, tables⟩ := by
            rcases @declare_eq prop dtype col sc.catalog sub with ⟨ps, hps⟩
            rw [hps]
            exact evolved_mapTable (fun r r' hr => ⟨(promote_eq_ok hr).1, (promote_eq_ok hr).2.1⟩)
              hmap
          rcases ih (by rw [hsame]; exact hdeclared) hrest with ⟨hev, hprops, hclear⟩
          refine ⟨hfirst.trans hev, hprops.trans hsame, fun sub' hsub' t ht id r hr => ?_⟩
          rcases hfirst.rows t id r hr with ⟨r₁, hr₁, -⟩
          rcases List.mem_cons.mp hsub' with rfl | hsub'
          · rw [htable] at ht
            obtain rfl := Option.some.inj ht
            rcases rowAt_mapTable (fun r r' hr' => (promote_eq_ok hr').1) hmap hr with
              ⟨r₂, hr₂, hcase⟩
            rw [if_pos rfl] at hcase
            rcases hev.rows table id r₂ hr₂ with ⟨r', hr', hkept⟩
            exact ⟨r', hr', hkept.absent prop (promote_eq_ok hcase).2.2⟩
          · rw [← hfirst.storageTable_eq] at ht
            exact hclear sub' hsub' t ht id r₁ hr₁

theorem addProperty_eq_ok (h : addProperty s tid prop dtype sc = .ok sc') :
    Evolved [prop] [columnName s prop] sc sc' ∧
      propertiesOf sc'.catalog tid =
        propertiesOf sc.catalog tid ++ [declared tid prop dtype (columnName s prop)] ∧
      (tid ∈ ogSubtypes sc.catalog tid → ∀ table, storageTable sc.catalog tid = some table →
        ∀ id r, rowAt sc table id = some r →
          ∃ r', rowAt sc' table id = some r' ∧ extGet r' prop = none) := by
  rcases bind_eq_ok.mp h with ⟨u, hnew, hloop⟩
  have hnew := require_eq_ok.mp hnew
  have hprops := @propertiesOf_declare_new tid prop dtype (columnName s prop) sc.catalog hnew
  have hfirst : Evolved [prop] [columnName s prop] sc
      { sc with catalog := declare tid prop dtype (columnName s prop) sc.catalog } :=
    ⟨declare_eq, fun _ _ r hr => ⟨r, hr, .refl _ _ _⟩⟩
  have hdeclared : ∃ p ∈ propertiesOf (declare tid prop dtype (columnName s prop) sc.catalog) tid,
      p.name = prop := by
    rw [hprops]
    exact ⟨_, List.mem_append_right _ (List.mem_singleton_self _), rfl⟩
  rcases addProperty_loop hdeclared hloop with ⟨hev, hsame, hclear⟩
  refine ⟨hfirst.trans hev, hsame.trans hprops, fun htid table htable id r hr => ?_⟩
  rw [← hfirst.ogSubtypes_eq] at htid
  rw [← hfirst.storageTable_eq] at htable
  exact hclear tid htid table htable id r hr

theorem widenProperty_eq_ok (h : widenProperty s tid prop col sc = .ok sc') :
    Evolved [] [col] sc sc' ∧
      (tid ∈ ogSubtypes sc.catalog tid →
        propertiesOf sc'.catalog tid = (propertiesOf sc.catalog tid).map fun p =>
          if p.name = prop then { p with dataType := "text" } else p) := by
  rcases bind_eq_ok.mp h with ⟨tables, hloop, hsc'⟩
  obtain rfl := pure_eq_ok.mp hsc'
  refine ⟨⟨⟨_, rfl⟩, ?_⟩, fun htid => ?_⟩
  · have hrows : Evolved [] [col] sc ⟨sc.catalog, tables⟩ := by
      refine foldlM_preserves (P := fun ts => Evolved [] [col] sc ⟨sc.catalog, ts⟩)
        (fun ts sub ts' hts hstep => ?_) hloop (.refl _ _ _)
      cases htable : storageTable sc.catalog sub with
      | none =>
          rw [htable] at hstep
          obtain rfl := pure_eq_ok.mp hstep
          exact hts
      | some table =>
          rw [htable] at hstep
          refine hts.trans (@evolved_mapTable ⟨sc.catalog, ts⟩ _ _ table _ ts' (fun r r' hr => ?_)
            hstep sc.catalog.properties)
          rcases bind_eq_ok.mp hr with ⟨v, -, hr'⟩
          obtain rfl := pure_eq_ok.mp hr'
          exact ⟨rfl, setCol_kept⟩
    exact fun table id r hr => hrows.rows table id r hr
  · have hkeep : ∀ p : Property, (if p.typeId ∈ ogSubtypes sc.catalog tid ∧ p.name = prop then
        { p with dataType := "text" } else p).typeId = p.typeId := by
      intro p
      split_ifs <;> rfl
    simp only [propertiesOf, update, List.filter_map, Function.comp_def, hkeep]
    refine List.map_congr_left fun p hp => ?_
    have hp : p.typeId = tid := of_decide_eq_true (List.mem_filter.mp hp).2
    rw [hp]
    simp only [htid, true_and]

end Schemas

theorem property?_name {c : Catalog} {tid : Int} {key : String} {p : Property}
    (h : property? c tid key = some p) : p.name = key := by
  rw [property?] at h
  simpa using List.find?_some h

theorem property?_of_mem {c : Catalog} {tid : Int}
    (hnames : ((propertiesOf c tid).map (·.name)).Nodup) {p : Property}
    (hp : p ∈ propertiesOf c tid) : property? c tid p.name = some p := by
  cases hfind : property? c tid p.name with
  | none =>
      have hnone := List.find?_eq_none.mp hfind p hp
      simp at hnone
  | some q =>
      rw [List.inj_on_of_nodup_map hnames (List.mem_of_find?_eq_some hfind) hp
        (property?_name hfind)]

section Declarations

variable {s : Session} {sc sc' : Schema} {tid : Int} {kvs : List (String × Json)}

/-- A member whose property is new, or whose column must widen. -/
def needsWork (c : Catalog) (tid : Int) (kv : String × Json) : Bool :=
  match inferColumnType kv.2, property? c tid kv.1 with
  | none, _ => false
  | some _, none => true
  | some want, some p => p.dataType ∈ widenable && !typeAccepts p.dataType want

/-- The members a write changes the schema for. -/
def promoted (s : Session) (c : Catalog) (tid : Int) (kvs : List (String × Json)) :
    List (String × Json) :=
  if s.canChangeSchema then kvs.filter (needsWork c tid) else []

/-- What one member makes of the properties of the type. -/
def stepProps (s : Session) (c : Catalog) (tid : Int) (ps : List Property) (kv : String × Json) :
    List Property :=
  match inferColumnType kv.2, property? c tid kv.1 with
  | some want, none => ps ++ [declared tid kv.1 want (columnName s kv.1)]
  | some _, some _ => ps.map fun q => if q.name = kv.1 then { q with dataType := "text" } else q
  | none, _ => ps

theorem declareNewProps_loop {c : Catalog} {work : List (String × Json)}
    (htid : tid ∈ ogSubtypes sc.catalog tid)
    (h : work.foldlM (fun st kv =>
      match inferColumnType kv.2, property? c tid kv.1 with
      | some want, none => addProperty s tid kv.1 want st
      | some _, some p => widenProperty s tid kv.1 p.columnName st
      | none, _ => pure st) sc = (Except.ok sc' : Except String Schema)) :
    Evolved (work.map (·.1)) (work.map fun kv => columnOf s c tid kv.1) sc sc' ∧
      propertiesOf sc'.catalog tid = work.foldl (stepProps s c tid) (propertiesOf sc.catalog tid) ∧
      ∀ kv ∈ work, ∀ want, inferColumnType kv.2 = some want → property? c tid kv.1 = none →
        ∀ table, storageTable sc.catalog tid = some table → ∀ id r, rowAt sc table id = some r →
          ∃ r', rowAt sc' table id = some r' ∧ extGet r' kv.1 = none := by
  induction work generalizing sc with
  | nil =>
      obtain rfl := pure_eq_ok.mp h
      exact ⟨.refl _ _ _, rfl, fun _ hkv => absurd hkv List.not_mem_nil⟩
  | cons kv work ih =>
      rcases foldlM_cons_eq_ok.mp h with ⟨sc₁, hstep, hrest⟩
      have hfirst : Evolved [kv.1] [columnOf s c tid kv.1] sc sc₁ ∧
          propertiesOf sc₁.catalog tid = stepProps s c tid (propertiesOf sc.catalog tid) kv ∧
          ∀ want, inferColumnType kv.2 = some want → property? c tid kv.1 = none →
            ∀ table, storageTable sc.catalog tid = some table → ∀ id r,
              rowAt sc table id = some r →
                ∃ r', rowAt sc₁ table id = some r' ∧ extGet r' kv.1 = none := by
        rw [stepProps]
        cases hinfer : inferColumnType kv.2 with
        | none =>
            simp only [hinfer] at hstep
            obtain rfl := pure_eq_ok.mp hstep
            exact ⟨.refl _ _ _, rfl, fun _ hwant => by cases hwant⟩
        | some want =>
            cases hknown : property? c tid kv.1 with
            | none =>
                simp only [hinfer, hknown] at hstep
                rcases addProperty_eq_ok hstep with ⟨hev, hprops, hclear⟩
                have hcol : columnOf s c tid kv.1 = columnName s kv.1 := by
                  rw [columnOf, hknown]
                rw [hcol]
                exact ⟨hev, hprops, fun _ _ _ => hclear htid⟩
            | some p =>
                simp only [hinfer, hknown] at hstep
                rcases widenProperty_eq_ok hstep with ⟨hev, hprops⟩
                have hcol : columnOf s c tid kv.1 = p.columnName := by rw [columnOf, hknown]
                rw [hcol]
                exact ⟨hev.mono (List.nil_subset _) (List.Subset.refl _), hprops htid,
                  fun _ _ hno => by cases hno⟩
      rcases hfirst with ⟨hev, hprops, hclear⟩
      rw [← hev.ogSubtypes_eq] at htid
      rcases ih htid hrest with ⟨hev', hprops', hclear'⟩
      have hhead : Evolved ((kv :: work).map (·.1))
          ((kv :: work).map fun kv => columnOf s c tid kv.1) sc sc₁ := hev.mono (by simp) (by simp)
      have htail : Evolved ((kv :: work).map (·.1))
          ((kv :: work).map fun kv => columnOf s c tid kv.1) sc₁ sc' :=
        hev'.mono (by simp) (by simp)
      refine ⟨hhead.trans htail, ?_, fun x hx want hwant hno table htable id r hr => ?_⟩
      · rw [hprops', hprops, List.foldl_cons]
      · rcases List.mem_cons.mp hx with rfl | hx
        · rcases hclear want hwant hno table htable id r hr with ⟨r₁, hr₁, hnone⟩
          rcases hev'.rows table id r₁ hr₁ with ⟨r', hr', hkept⟩
          exact ⟨r', hr', hkept.absent _ hnone⟩
        · rcases hev.rows table id r hr with ⟨r₁, hr₁, -⟩
          rw [← hev.storageTable_eq] at htable
          exact hclear' x hx want hwant hno table htable id r₁ hr₁

theorem declareNewProps_eq_ok (htid : tid ∈ ogSubtypes sc.catalog tid)
    (h : declareNewProps s tid (.obj kvs) sc = .ok sc') :
    Evolved ((promoted s sc.catalog tid kvs).map (·.1))
        ((promoted s sc.catalog tid kvs).map fun kv => columnOf s sc.catalog tid kv.1) sc sc' ∧
      propertiesOf sc'.catalog tid =
        (promoted s sc.catalog tid kvs).foldl (stepProps s sc.catalog tid)
          (propertiesOf sc.catalog tid) ∧
      ∀ kv ∈ promoted s sc.catalog tid kvs, ∀ want, inferColumnType kv.2 = some want →
        property? sc.catalog tid kv.1 = none →
          ∀ table, storageTable sc.catalog tid = some table → ∀ id r,
            rowAt sc table id = some r →
              ∃ r', rowAt sc' table id = some r' ∧ extGet r' kv.1 = none := by
  refine declareNewProps_loop htid ?_
  rw [promoted]
  change (if !kvs.any (needsWork sc.catalog tid) || !s.canChangeSchema then .ok sc
    else (kvs.filter (needsWork sc.catalog tid)).foldlM _ sc) = Except.ok sc' at h
  split_ifs at h ⊢ with hcan hskip hskip
  · have hnone : kvs.filter (needsWork sc.catalog tid) = [] := by
      simpa [hcan] using hskip
    rw [hnone]
    exact pure_eq_ok.mpr (Except.ok.inj h)
  · exact h
  · exact pure_eq_ok.mpr (Except.ok.inj h)
  · simp [hcan] at hskip

theorem find_stepProps_of_ne {c : Catalog} {ps : List Property} {kv : String × Json} {key : String}
    (h : key ≠ kv.1) :
    (stepProps s c tid ps kv).find? (fun p => p.name = key) =
      ps.find? fun p => p.name = key := by
  unfold stepProps
  split
  · rw [List.find?_append]
    simp [declared, h.symm]
  · rw [List.find?_map]
    have hpred : ((fun p : Property => decide (p.name = key)) ∘ fun q : Property =>
        if q.name = kv.1 then { q with dataType := "text" } else q) =
          fun p => decide (p.name = key) := by
      funext q
      rw [Function.comp_apply]
      split_ifs <;> rfl
    rw [hpred]
    cases hfind : ps.find? fun p => p.name = key with
    | none => rfl
    | some q =>
        have hname : q.name = key := by simpa using List.find?_some hfind
        rw [Option.map_some, if_neg (hname ▸ h)]
  · rfl

/-- The property of a promoted member. -/
def promotedProperty (s : Session) (c : Catalog) (tid : Int) (kv : String × Json) :
    Option Property :=
  match inferColumnType kv.2, property? c tid kv.1 with
  | some want, none => some (declared tid kv.1 want (columnName s kv.1))
  | some _, some p => some { p with dataType := "text" }
  | none, p => p

theorem find_stepProps_self {c : Catalog} {ps : List Property} {kv : String × Json}
    (h : ps.find? (fun p => p.name = kv.1) = property? c tid kv.1) :
    (stepProps s c tid ps kv).find? (fun p => p.name = kv.1) = promotedProperty s c tid kv := by
  rw [stepProps, promotedProperty]
  cases hinfer : inferColumnType kv.2 with
  | none => exact h
  | some want =>
      cases hknown : property? c tid kv.1 with
      | none =>
          dsimp only
          rw [List.find?_append, h, hknown]
          simp [declared]
      | some p =>
          dsimp only
          rw [List.find?_map]
          have hpred : ((fun q : Property => decide (q.name = kv.1)) ∘ fun q : Property =>
              if q.name = kv.1 then { q with dataType := "text" } else q) =
                fun q => decide (q.name = kv.1) := by
            funext q
            rw [Function.comp_apply]
            split_ifs <;> rfl
          have hname := property?_name hknown
          rw [hpred, h, hknown, Option.map_some, if_pos hname]

theorem find_foldl_of_not_mem {c : Catalog} {ps : List Property} {work : List (String × Json)}
    {key : String} (h : key ∉ work.map (·.1)) :
    (work.foldl (stepProps s c tid) ps).find? (fun p => p.name = key) =
      ps.find? fun p => p.name = key := by
  induction work generalizing ps with
  | nil => rfl
  | cons kv work ih =>
      rw [List.map_cons, List.mem_cons, not_or] at h
      rw [List.foldl_cons, ih h.2, find_stepProps_of_ne h.1]

theorem find_foldl_of_mem {c : Catalog} {ps : List Property} {work : List (String × Json)}
    (hkeys : (work.map (·.1)).Nodup)
    (h : ∀ kv ∈ work, ps.find? (fun p => p.name = kv.1) = property? c tid kv.1)
    {kv : String × Json} (hkv : kv ∈ work) :
    (work.foldl (stepProps s c tid) ps).find? (fun p => p.name = kv.1) =
      promotedProperty s c tid kv := by
  induction work generalizing ps with
  | nil => cases hkv
  | cons x work ih =>
      rw [List.map_cons, List.nodup_cons] at hkeys
      rw [List.foldl_cons]
      rcases List.mem_cons.mp hkv with rfl | hkv
      · rw [find_foldl_of_not_mem hkeys.1]
        exact find_stepProps_self (h _ List.mem_cons_self)
      · refine ih hkeys.2 (fun y hy => ?_) hkv
        have hne : y.1 ≠ x.1 := fun heq => hkeys.1 (heq ▸ List.mem_map_of_mem hy)
        rw [find_stepProps_of_ne hne]
        exact h y (List.mem_cons_of_mem _ hy)

theorem nodup_foldl_names {c : Catalog} {ps : List Property} {work : List (String × Json)}
    (hkeys : (work.map (·.1)).Nodup)
    (h : ∀ kv ∈ work, ps.find? (fun p => p.name = kv.1) = property? c tid kv.1)
    (hps : (ps.map (·.name)).Nodup) :
    ((work.foldl (stepProps s c tid) ps).map (·.name)).Nodup := by
  induction work generalizing ps with
  | nil => exact hps
  | cons x work ih =>
      rw [List.map_cons, List.nodup_cons] at hkeys
      rw [List.foldl_cons]
      refine ih hkeys.2 (fun y hy => ?_) ?_
      · have hne : y.1 ≠ x.1 := fun heq => hkeys.1 (heq ▸ List.mem_map_of_mem hy)
        rw [find_stepProps_of_ne hne]
        exact h y (List.mem_cons_of_mem _ hy)
      · rw [stepProps]
        cases hinfer : inferColumnType x.2 with
        | none => exact hps
        | some want =>
            cases hknown : property? c tid x.1 with
            | none =>
                have hnew : ∀ p ∈ ps, p.name ≠ x.1 := by
                  have hnone := (h x List.mem_cons_self).trans hknown
                  simpa using hnone
                dsimp only
                rw [List.map_append, List.map_singleton]
                refine List.Nodup.append hps (List.nodup_singleton _) ?_
                rintro name hname hx
                rcases List.mem_map.mp hname with ⟨p, hp, rfl⟩
                exact hnew p hp (List.mem_singleton.mp hx)
            | some p =>
                dsimp only
                rw [List.map_map]
                have hnames : ((fun p : Property => p.name) ∘ fun q : Property =>
                    if q.name = x.1 then { q with dataType := "text" } else q) =
                      fun p => p.name := by
                  funext q
                  rw [Function.comp_apply]
                  split_ifs <;> rfl
                rw [hnames]
                exact hps

theorem mem_promoted {c : Catalog} {kv : String × Json} :
    kv ∈ promoted s c tid kvs ↔ s.canChangeSchema ∧ kv ∈ kvs ∧ needsWork c tid kv := by
  rw [promoted]
  split_ifs with hcan
  · simp [hcan]
  · simp [hcan]

theorem promoted_sublist {c : Catalog} : (promoted s c tid kvs).Sublist kvs := by
  rw [promoted]
  split_ifs
  · exact List.filter_sublist
  · exact List.nil_sublist _

/-- The column and the type a member goes to, once its property is declared or widened. -/
theorem property_of_mem {c c' : Catalog} (hkeys : (kvs.map (·.1)).Nodup)
    (hprops : propertiesOf c' tid =
      (promoted s c tid kvs).foldl (stepProps s c tid) (propertiesOf c tid))
    {kv : String × Json} (hkv : kv ∈ kvs) :
    (property? c' tid kv.1).map (fun p => (p.columnName, p.dataType)) =
      (columnType s c tid kv.1 kv.2).map fun dtype => (columnOf s c tid kv.1, dtype) := by
  have hwork : ((promoted s c tid kvs).map (·.1)).Nodup :=
    hkeys.sublist (promoted_sublist.map _)
  rw [property?, hprops]
  by_cases hmem : kv ∈ promoted s c tid kvs
  · rcases mem_promoted.mp hmem with ⟨hcan, -, hneeds⟩
    rw [find_foldl_of_mem hwork (fun _ _ => rfl) hmem, promotedProperty, columnType, columnOf]
    rw [needsWork] at hneeds
    cases hinfer : inferColumnType kv.2 with
    | none => simp [hinfer] at hneeds
    | some want =>
        cases hknown : property? c tid kv.1 with
        | none => simp [hcan, declared]
        | some p =>
            have hwidens : widens p kv.2 = true := by
              simpa [hinfer, hknown, widens] using hneeds
            simp [hcan, hwidens]
  · have hkey : kv.1 ∉ (promoted s c tid kvs).map (·.1) := by
      intro hin
      rcases List.mem_map.mp hin with ⟨kv', hkv', heq⟩
      obtain rfl := List.inj_on_of_nodup_map hkeys (mem_promoted.mp hkv').2.1 hkv heq
      exact hmem hkv'
    rw [find_foldl_of_not_mem hkey]
    change (property? c tid kv.1).map _ = _
    rw [columnType, columnOf]
    have hskip : s.canChangeSchema = true → needsWork c tid kv = false := by
      intro hcan
      by_contra hneeds
      exact hmem (mem_promoted.mpr ⟨hcan, hkv, by simpa using hneeds⟩)
    rw [needsWork] at hskip
    cases hknown : property? c tid kv.1 with
    | none =>
        by_cases hcan : s.canChangeSchema = true
        · have hskip := hskip hcan
          cases hinfer : inferColumnType kv.2 with
          | none => simp [hcan]
          | some want => simp [hinfer, hknown] at hskip
        · simp [hcan]
    | some p =>
        have hkeep : ¬ (s.canChangeSchema = true ∧ widens p kv.2 = true) := by
          rintro ⟨hcan, hwidens⟩
          have hskip := hskip hcan
          rw [widens] at hwidens
          cases hinfer : inferColumnType kv.2 with
          | none => simp [hinfer] at hwidens
          | some want =>
              simp only [hinfer, hknown] at hskip hwidens
              rw [hskip] at hwidens
              cases hwidens
        simp only [Option.map_some, if_neg hkeep]

theorem property_of_not_mem {c c' : Catalog}
    (hprops : propertiesOf c' tid =
      (promoted s c tid kvs).foldl (stepProps s c tid) (propertiesOf c tid))
    {key : String} (hkey : key ∉ kvs.map (·.1)) :
    property? c' tid key = property? c tid key := by
  rw [property?, hprops,
    find_foldl_of_not_mem fun hin => hkey ((promoted_sublist.map _).subset hin)]
  rfl

end Declarations

section Plans

variable {s : Session} {sc sc₁ : Schema} {tid : Int} {kvs : List (String × Json)} {plan : PropPlan}

theorem columns_eq_ok {ps : List Property} {props : Json} {columns : List (String × Val)}
    (h : ps.mapM (fun p => do
      return (p.columnName, ← columnValue s p.dataType props p.name)) =
        (Except.ok columns : Except String _)) :
    columns.map (·.1) = ps.map (·.columnName) ∧
      ∀ p ∈ ps, ∃ val, columnValue s p.dataType props p.name = .ok val ∧
        (p.columnName, val) ∈ columns := by
  induction ps generalizing columns with
  | nil =>
      obtain rfl := pure_eq_ok.mp h
      exact ⟨rfl, fun _ hp => absurd hp List.not_mem_nil⟩
  | cons p ps ih =>
      rw [List.mapM_cons] at h
      rcases bind_eq_ok.mp h with ⟨col, hcol, hrest⟩
      rcases bind_eq_ok.mp hcol with ⟨val, hval, hpair⟩
      obtain rfl := pure_eq_ok.mp hpair
      rcases bind_eq_ok.mp hrest with ⟨rest, hmap, hcolumns⟩
      obtain rfl := pure_eq_ok.mp hcolumns
      rcases ih hmap with ⟨hnames, hvals⟩
      refine ⟨by rw [List.map_cons, List.map_cons, hnames], fun q hq => ?_⟩
      rcases List.mem_cons.mp hq with rfl | hq
      · exact ⟨val, hval, List.mem_cons_self⟩
      · rcases hvals q hq with ⟨w, hw, hmem⟩
        exact ⟨w, hw, List.mem_cons_of_mem _ hmem⟩

/-- What a plan says about a payload. -/
structure Planned (s : Session) (tid : Int) (kvs : List (String × Json)) (sc sc' : Schema)
    (plan : PropPlan) : Prop where
  reserved : ∀ key ∈ kvs.map (·.1), isReservedKey key = false
  declared : declareNewProps s tid (.obj kvs) sc = .ok sc'
  names : plan.declared = (propertiesOf sc'.catalog tid).map (·.name)
  extNeeded : plan.extNeeded = true ↔ ∃ key ∈ kvs.map (·.1), key ∉ plan.declared
  columns : plan.columns.map (·.1) =
    ((propertiesOf sc'.catalog tid).filter fun p => ((Json.obj kvs).get? p.name).isSome).map
      (·.columnName)
  values : ∀ p ∈ propertiesOf sc'.catalog tid, ((Json.obj kvs).get? p.name).isSome →
    ∃ val, columnValue s p.dataType (.obj kvs) p.name = .ok val ∧ (p.columnName, val) ∈ plan.columns

theorem planProps_eq_ok (h : planProps s tid (.obj kvs) sc = .ok (sc₁, plan)) :
    Planned s tid kvs sc sc₁ plan := by
  rcases bind_eq_ok.mp h with ⟨u, hreserved, h⟩
  rcases bind_eq_ok.mp h with ⟨sc', hdeclared, h⟩
  rcases bind_eq_ok.mp h with ⟨columns, hcolumns, h⟩
  rcases Prod.mk.inj (pure_eq_ok.mp h) with ⟨rfl, rfl⟩
  rcases columns_eq_ok hcolumns with ⟨hnames, hvalues⟩
  refine ⟨fun key hkey => ?_, hdeclared, rfl, ?_, hnames, fun p hp hsome => ?_⟩
  · rw [checkReservedKeys] at hreserved
    split at hreserved
    · next hnone =>
      have hall := List.find?_eq_none.mp hnone key hkey
      simpa using hall
    · cases hreserved
  · simp [keysOf]
  · exact hvalues p (List.mem_filter.mpr ⟨hp, hsome⟩)

/-- The columns of a plan for the members of its payload. -/
theorem Planned.column (h : Planned s tid kvs sc sc₁ plan) (hkeys : (kvs.map (·.1)).Nodup)
    (htid : tid ∈ ogSubtypes sc.catalog tid) {kv : String × Json} (hkv : kv ∈ kvs) {p : Property}
    (hp : property? sc₁.catalog tid kv.1 = some p) :
    p.columnName = columnOf s sc.catalog tid kv.1 ∧
      columnType s sc.catalog tid kv.1 kv.2 = some p.dataType := by
  have hmap := property_of_mem hkeys (declareNewProps_eq_ok htid h.declared).2.1 hkv
  rw [hp] at hmap
  cases htype : columnType s sc.catalog tid kv.1 kv.2 with
  | none =>
      rw [htype] at hmap
      cases hmap
  | some dtype =>
      rw [htype] at hmap
      rcases Prod.mk.inj (Option.some.inj hmap) with ⟨hcol, htype'⟩
      exact ⟨hcol, by rw [htype']⟩

theorem Planned.nodup_names (h : Planned s tid kvs sc sc₁ plan) (hkeys : (kvs.map (·.1)).Nodup)
    (htid : tid ∈ ogSubtypes sc.catalog tid)
    (hnames : ((propertiesOf sc.catalog tid).map (·.name)).Nodup) :
    ((propertiesOf sc₁.catalog tid).map (·.name)).Nodup := by
  rw [(declareNewProps_eq_ok htid h.declared).2.1]
  exact nodup_foldl_names (hkeys.sublist (promoted_sublist.map _)) (fun _ _ => rfl) hnames

end Plans

end OntologicalDb.PropertyPlans
