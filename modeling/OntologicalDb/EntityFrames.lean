import OntologicalDb.AdjacencyMirror
import OntologicalDb.PlanSuccess

/-!
What a write leaves of the entities it is not about: the property map of an entity across
the property writes, creations and deletions of others.
-/

namespace OntologicalDb.EntityFrames

open OntologicalDb.ExceptRules
open OntologicalDb.GraphStorage
open OntologicalDb.Ids
open OntologicalDb.KeyedRows
open OntologicalDb.Labeling
open OntologicalDb.PlanSuccess
open OntologicalDb.PropertyMaps
open OntologicalDb.PropertyPlans
open OntologicalDb.RowDocuments
open OntologicalDb.RowWrites (Entity)
open OntologicalDb.TypeCatalog
open OntologicalDb.TypedTables
open OntologicalDb.Values

section Rows

/-- Two rows that no reader tells apart. -/
structure Alike (r r' : TypedRow) : Prop where
  col : ∀ c, r'.col c = r.col c
  ext : ∀ k, extGet r' k = extGet r k

variable {r r' : TypedRow}

theorem Alike.refl (r : TypedRow) : Alike r r := ⟨fun _ => rfl, fun _ => rfl⟩

theorem Alike.trans {r'' : TypedRow} (h : Alike r r') (h' : Alike r' r'') : Alike r r'' :=
  ⟨fun c => (h'.col c).trans (h.col c), fun k => (h'.ext k).trans (h.ext k)⟩

/-- Nothing is promoted from a row whose payload does not have the key. -/
theorem promote_of_none {s : Session} {prop col dtype : String} (h : extGet r prop = none) :
    promote s prop col dtype r = .ok r := by
  rw [promote.eq_def]
  split
  · next kvs hext =>
    rw [extGet, hext, Option.bind_some] at h
    rw [if_neg]
    intro hany
    rcases List.any_eq_true.mp hany with ⟨kv, hkv, heq⟩
    exact get_eq_none.mp h kv hkv (of_decide_eq_true heq)
  · rfl

theorem setCol_alike {c : String} (h : r.col c = .null) : Alike r (r.setCol c .null) := by
  refine ⟨fun c' => ?_, fun _ => rfl⟩
  by_cases hc : c' = c
  · rw [hc, col_setCol_self, h]
  · exact col_setCol_of_ne hc

variable {sc sc' : Schema} {table t : StorageTable} {id : Int}

/-- The row of an identifier is still there, and reads as before. -/
def Survives (sc' : Schema) (table : StorageTable) (id : Int) (r : TypedRow) : Prop :=
  ∃ r', rowAt sc' table id = some r' ∧ Alike r r'

/-- A loop that ends keeps what every one of its steps keeps. -/
theorem foldlM_preserves_of_mem {α β : Type} {f : β → α → Except String β} {P : β → Prop}
    {xs : List α} (hstep : ∀ x ∈ xs, ∀ b c, P b → f b x = .ok c → P c) {b c : β}
    (h : xs.foldlM f b = .ok c) (hb : P b) : P c := by
  induction xs generalizing b with
  | nil =>
      obtain rfl := pure_eq_ok.mp h
      exact hb
  | cons x xs ih =>
      rcases foldlM_cons_eq_ok.mp h with ⟨d, hd, hrest⟩
      exact ih (fun y hy => hstep y (List.mem_cons_of_mem _ hy)) hrest
        (hstep x List.mem_cons_self b d hb hd)

/-- A table is rewritten: a row of it that the rewriting leaves alike survives, and every row
of another table. -/
theorem survives_mapTable {f : TypedRow → Except String TypedRow} {c c' : Catalog}
    {tables tables' : List (StorageTable × TypedRow)}
    (hid : ∀ r r', f r = .ok r' → r'.id = r.id) (h : mapTable t f tables = .ok tables')
    (hr : rowAt ⟨c, tables⟩ table id = some r)
    (hf : table = t → ∀ r', f r = .ok r' → Alike r r') : Survives ⟨c', tables'⟩ table id r := by
  rcases @rowAt_mapTable t table id r c c' f hid tables tables' h hr with ⟨r', hr', hcase⟩
  refine ⟨r', hr', ?_⟩
  split_ifs at hcase with ht
  · exact hf ht r' hcase
  · rw [hcase]
    exact .refl r

end Rows

section Columns

variable {s : Session} {c : Catalog} {tid ty : Int} {prop dtype col key : String}

/-- The column of a property of a type. -/
def columnAt (c : Catalog) (ty : Int) (key : String) : Option String :=
  (property? c ty key).map (·.columnName)

theorem stored_eq {r : TypedRow} : stored c ty r key =
    (extGet r key).or ((columnAt c ty key).bind fun col => nonNull (toJson (r.col col))) := by
  rw [stored, columnAt]
  cases property? c ty key <;> rfl

/-- What declaring properties adds to the columns: the new column for some types and keys. -/
structure Grown (c c' : Catalog) (types : List Int) (keys : List String)
    (col : String → String) : Prop where
  columns : ∀ ty key, columnAt c' ty key = columnAt c ty key ∨
    columnAt c ty key = none ∧ ty ∈ types ∧ key ∈ keys ∧ columnAt c' ty key = some (col key)
  names : ∀ ty, ((propertiesOf c ty).map (·.name)).Nodup →
    ((propertiesOf c' ty).map (·.name)).Nodup

theorem Grown.refl (c : Catalog) (types : List Int) (keys : List String) (col : String → String) :
    Grown c c types keys col := ⟨fun _ _ => .inl rfl, fun _ => id⟩

theorem Grown.trans {c' c'' : Catalog} {types : List Int} {keys : List String}
    {col : String → String} (h : Grown c c' types keys col) (h' : Grown c' c'' types keys col) :
    Grown c c'' types keys col := by
  refine ⟨fun ty key => ?_, fun ty hnames => h'.names ty (h.names ty hnames)⟩
  rcases h.columns ty key with hsame | ⟨hnone, hty, hkey, hcol⟩
  · rcases h'.columns ty key with hsame' | ⟨hnone', hty, hkey, hcol⟩
    · exact .inl (hsame'.trans hsame)
    · exact .inr ⟨hsame ▸ hnone', hty, hkey, hcol⟩
  · rcases h'.columns ty key with hsame' | ⟨hnone', -, -, -⟩
    · exact .inr ⟨hnone, hty, hkey, hsame'.trans hcol⟩
    · rw [hcol] at hnone'
      cases hnone'

theorem Grown.mono {c' : Catalog} {types types' : List Int} {keys keys' : List String}
    {col : String → String} (h : Grown c c' types keys col) (htypes : types ⊆ types')
    (hkeys : keys ⊆ keys') : Grown c c' types' keys' col := by
  refine ⟨fun ty key => ?_, h.names⟩
  rcases h.columns ty key with hsame | ⟨hnone, hty, hkey, hcol⟩
  · exact .inl hsame
  · exact .inr ⟨hnone, htypes hty, hkeys hkey, hcol⟩

theorem singleton_subset {α : Type} {x : α} {xs : List α} (h : x ∈ xs) : [x] ⊆ xs :=
  List.cons_subset.mpr ⟨h, List.nil_subset xs⟩

theorem grown_declare {col : String → String} :
    Grown c (declare tid prop dtype (col prop) c) [tid] [prop] col := by
  unfold declare
  split_ifs with hany
  · exact .refl _ _ _ _
  · have hprops : ∀ ty, propertiesOf { c with
        properties := c.properties ++ [declared tid prop dtype (col prop)] } ty =
          propertiesOf c ty ++ if tid = ty then [declared tid prop dtype (col prop)] else [] := by
      intro ty
      rw [propertiesOf, List.filter_append, propertiesOf]
      congr 1
      by_cases hty : tid = ty <;> simp [declared, hty]
    have hnew : ∀ p ∈ propertiesOf c tid, p.name ≠ prop := by
      intro p hp hname
      rcases List.mem_filter.mp hp with ⟨hp, htid⟩
      exact hany (List.any_eq_true.mpr ⟨p, hp, decide_eq_true ⟨of_decide_eq_true htid, hname⟩⟩)
    refine ⟨fun ty key => ?_, fun ty hnames => ?_⟩
    · by_cases hhere : tid = ty ∧ prop = key
      · rcases hhere with ⟨rfl, rfl⟩
        have hnone : property? c tid prop = none := by
          rw [property?, List.find?_eq_none]
          simpa using hnew
        refine .inr ⟨by rw [columnAt, hnone]; rfl, List.mem_singleton_self _,
          List.mem_singleton_self _, ?_⟩
        rw [property?] at hnone
        have hfound : property? { c with
            properties := c.properties ++ [declared tid prop dtype (col prop)] } tid prop =
              some (declared tid prop dtype (col prop)) := by
          rw [property?, hprops, List.find?_append, hnone]
          simp [declared]
        exact congrArg (Option.map Property.columnName) hfound
      · have hsame : property? { c with
            properties := c.properties ++ [declared tid prop dtype (col prop)] } ty key =
              property? c ty key := by
          rw [property?, hprops, List.find?_append, property?]
          split_ifs with hty
          · have hkey : prop ≠ key := fun heq => hhere ⟨hty, heq⟩
            simp [declared, hkey]
          · simp
        exact .inl (congrArg (Option.map Property.columnName) hsame)
    · change ((propertiesOf { c with
          properties := c.properties ++ [declared tid prop dtype (col prop)] } ty).map
            (·.name)).Nodup
      rw [hprops, List.map_append]
      split_ifs with hty
      · refine List.Nodup.append hnames (List.nodup_singleton _) ?_
        rintro name hname hx
        rcases List.mem_map.mp hname with ⟨p, hp, rfl⟩
        rw [← hty] at hp
        exact hnew p hp (List.mem_singleton.mp hx)
      · simpa using hnames

/-- Widening changes the types of columns only. -/
theorem grown_update {p : Property → Prop} [DecidablePred p] {types : List Int}
    {keys : List String} {col : String → String} :
    Grown c { c with
      properties := update p (fun q => { q with dataType := "text" }) c.properties }
        types keys col := by
  have hprops : ∀ ty, propertiesOf { c with
      properties := update p (fun q => { q with dataType := "text" }) c.properties } ty =
        (propertiesOf c ty).map fun q => if p q then { q with dataType := "text" } else q := by
    intro ty
    have hkeep : ∀ q : Property,
        (if p q then { q with dataType := "text" } else q).typeId = q.typeId := by
      intro q
      split_ifs <;> rfl
    simp only [propertiesOf, update, List.filter_map, Function.comp_def, hkeep]
  have hname : ∀ q : Property,
      (if p q then { q with dataType := "text" } else q).name = q.name := by
    intro q
    split_ifs <;> rfl
  have hcol : ∀ q : Property,
      (if p q then { q with dataType := "text" } else q).columnName = q.columnName := by
    intro q
    split_ifs <;> rfl
  refine ⟨fun ty key => .inl ?_, fun ty hnames => ?_⟩
  · rw [columnAt, property?, hprops, List.find?_map, columnAt, property?, Option.map_map]
    simp only [Function.comp_def, hname, hcol]
  · rw [hprops, List.map_map]
    simpa only [Function.comp_def, hname] using hnames

end Columns

section Declarations

variable {s : Session} {sc sc' : Schema} {tid : Int} {prop dtype col : String}
  {table : StorageTable} {id : Int}

theorem tablesBelow_eq {sc₁ : Schema} {keys cols : List String} (h : Evolved keys cols sc sc₁) :
    tablesBelow sc₁.catalog tid = tablesBelow sc.catalog tid := by
  rw [tablesBelow, tablesBelow, h.ogSubtypes_eq, h.storageTable_eq]

/-- A declared property: rows without a value for it survive, and rows of other tables. -/
theorem addProperty_frame (htid : tid ∈ ogSubtypes sc.catalog tid)
    (h : addProperty s tid prop dtype sc = .ok sc') :
    Grown sc.catalog sc'.catalog (ogSubtypes sc.catalog tid) [prop] (columnName s) ∧
      ∀ table id r, rowAt sc table id = some r →
        (table ∈ tablesBelow sc.catalog tid → extGet r prop = none) →
          Survives sc' table id r := by
  rcases bind_eq_ok.mp h with ⟨u, -, hloop⟩
  have hfirst : Evolved [prop] [columnName s prop] sc
      { sc with catalog := declare tid prop dtype (columnName s prop) sc.catalog } :=
    ⟨declare_eq, fun _ _ r hr => ⟨r, hr, .refl _ _ _⟩⟩
  have hdeclare : Grown sc.catalog (declare tid prop dtype (columnName s prop) sc.catalog)
      (ogSubtypes sc.catalog tid) [prop] (columnName s) :=
    grown_declare.mono (singleton_subset htid) (List.Subset.refl _)
  have hinv : (∃ ps, sc'.catalog = { sc.catalog with properties := ps }) ∧
      Grown sc.catalog sc'.catalog (ogSubtypes sc.catalog tid) [prop] (columnName s) ∧
      ∀ table id r, rowAt sc table id = some r →
        (table ∈ tablesBelow sc.catalog tid → extGet r prop = none) →
          Survives sc' table id r := by
    refine foldlM_preserves_of_mem (P := fun st : Schema =>
      (∃ ps, st.catalog = { sc.catalog with properties := ps }) ∧
        Grown sc.catalog st.catalog (ogSubtypes sc.catalog tid) [prop] (columnName s) ∧
        ∀ table id r, rowAt sc table id = some r →
          (table ∈ tablesBelow sc.catalog tid → extGet r prop = none) →
            Survives st table id r) (fun sub hsub st st' hst hstep => ?_) hloop
      ⟨hfirst.catalog, hdeclare, fun _ _ r hr _ => ⟨r, hr, .refl r⟩⟩
    rw [hfirst.ogSubtypes_eq] at hsub
    rcases hst with ⟨⟨ps, hps⟩, hgrown, hrows⟩
    have htables : storageTable st.catalog = storageTable sc.catalog := by
      rw [hps]
      rfl
    cases htable : storageTable st.catalog sub with
    | none =>
        rw [htable] at hstep
        obtain rfl := pure_eq_ok.mp hstep
        exact ⟨⟨ps, hps⟩, hgrown, hrows⟩
    | some t =>
        rw [htable] at hstep
        rcases bind_eq_ok.mp hstep with ⟨tables, hmap, hst'⟩
        obtain rfl := pure_eq_ok.mp hst'
        rw [htables] at htable
        refine ⟨?_, hgrown.trans (grown_declare.mono (singleton_subset hsub)
          (List.Subset.refl _)), fun table id r hr hrow => ?_⟩
        · rcases @declare_eq prop dtype (columnName s prop) st.catalog sub with ⟨ps', hps'⟩
          exact ⟨ps', by rw [hps', hps]⟩
        · rcases hrows table id r hr hrow with ⟨r₁, hr₁, halike⟩
          have hkeep : table = t → ∀ r', promote s prop (columnName s prop) dtype r₁ = .ok r' →
              Alike r₁ r' := by
            intro ht r' hr'
            have hnone : extGet r₁ prop = none := by
              rw [halike.ext]
              exact hrow (ht ▸ mem_tablesBelow hsub htable)
            rw [promote_of_none hnone] at hr'
            rw [← Except.ok.inj hr']
            exact .refl r₁
          rcases survives_mapTable (fun r r' hr' => (promote_eq_ok hr').1) hmap hr₁ hkeep with
            ⟨r', hr', halike'⟩
          exact ⟨r', hr', halike.trans halike'⟩
  exact hinv.2

/-- A widened column: rows that are NULL there survive, and rows of other tables. -/
theorem widenProperty_frame (hstrict : s.cast "text" .null = .ok .null) {keys : List String}
    (h : widenProperty s tid prop col sc = .ok sc') :
    Grown sc.catalog sc'.catalog (ogSubtypes sc.catalog tid) keys (columnName s) ∧
      ∀ table id r, rowAt sc table id = some r →
        (table ∈ tablesBelow sc.catalog tid → r.col col = .null) → Survives sc' table id r := by
  rcases bind_eq_ok.mp h with ⟨tables, hloop, hsc'⟩
  obtain rfl := pure_eq_ok.mp hsc'
  refine ⟨grown_update, fun table id r hr hrow => ?_⟩
  have hrows : Survives ⟨sc.catalog, tables⟩ table id r := by
    refine foldlM_preserves_of_mem (P := fun ts => Survives ⟨sc.catalog, ts⟩ table id r)
      (fun sub hsub ts ts' hts hstep => ?_) hloop ⟨r, hr, .refl r⟩
    cases htable : storageTable sc.catalog sub with
    | none =>
        rw [htable] at hstep
        obtain rfl := pure_eq_ok.mp hstep
        exact hts
    | some t =>
        rw [htable] at hstep
        rcases hts with ⟨r₁, hr₁, halike⟩
        have hkeep : table = t → ∀ r', (do return r₁.setCol col (← s.cast "text" (r₁.col col))) =
            (Except.ok r' : Except String TypedRow) → Alike r₁ r' := by
          intro ht r' hr'
          have hnull : r₁.col col = .null := by
            rw [halike.col]
            exact hrow (ht ▸ mem_tablesBelow hsub htable)
          rcases bind_eq_ok.mp hr' with ⟨v, hv, hr'⟩
          rw [hnull, hstrict] at hv
          rw [← pure_eq_ok.mp hr', ← Except.ok.inj hv]
          exact setCol_alike hnull
        have hid : ∀ r r' : TypedRow, (do return r.setCol col (← s.cast "text" (r.col col))) =
            (Except.ok r' : Except String TypedRow) → r'.id = r.id := by
          intro r r' hr'
          rcases bind_eq_ok.mp hr' with ⟨v, -, hr'⟩
          rw [← pure_eq_ok.mp hr']
          rfl
        have hmapped : Survives ⟨sc.catalog, ts'⟩ table id r₁ :=
          survives_mapTable hid hstep hr₁ hkeep
        rcases hmapped with ⟨r', hr', halike'⟩
        exact ⟨r', hr', halike.trans halike'⟩
  rcases hrows with ⟨r', hr', halike⟩
  exact ⟨r', hr', halike⟩

variable {kvs : List (String × Json)}

/-- The row has no value where the schema change of a payload would touch it. -/
def Blank (s : Session) (c : Catalog) (tid : Int) (kvs : List (String × Json)) (r : TypedRow) :
    Prop :=
  ∀ kv ∈ promoted s c tid kvs, extGet r kv.1 = none ∧ r.col (columnOf s c tid kv.1) = .null

/-- The keys a payload declares. -/
def declaredKeys (s : Session) (c : Catalog) (tid : Int) (kvs : List (String × Json)) :
    List String :=
  ((promoted s c tid kvs).filter fun kv => (property? c tid kv.1).isNone).map (·.1)

/-- What one member of a payload changes. -/
def Changes (s : Session) (c : Catalog) (tid : Int) (kv : String × Json) (sc sc' : Schema) : Prop :=
  (sc' = sc) ∨
    (∃ dtype, property? c tid kv.1 = none ∧ addProperty s tid kv.1 dtype sc = .ok sc') ∨
      ∃ p, property? c tid kv.1 = some p ∧ widenProperty s tid kv.1 p.columnName sc = .ok sc'

theorem changes_frame {c : Catalog} {kv : String × Json} {keys : List String}
    (hstrict : s.cast "text" .null = .ok .null) (htid : tid ∈ ogSubtypes sc.catalog tid)
    (hkey : property? c tid kv.1 = none → kv.1 ∈ keys) (h : Changes s c tid kv sc sc') :
    (∃ ks cols, Evolved ks cols sc sc') ∧
      Grown sc.catalog sc'.catalog (ogSubtypes sc.catalog tid) keys (columnName s) ∧
        ∀ table id r, rowAt sc table id = some r → (table ∈ tablesBelow sc.catalog tid →
          extGet r kv.1 = none ∧ r.col (columnOf s c tid kv.1) = .null) →
            Survives sc' table id r := by
  rcases h with rfl | ⟨dtype, hnew, hadd⟩ | ⟨p, hknown, hwiden⟩
  · exact ⟨⟨[], [], .refl _ _ _⟩, .refl _ _ _ _, fun _ _ r hr _ => ⟨r, hr, .refl r⟩⟩
  · rcases addProperty_frame htid hadd with ⟨hgrown, hrows⟩
    exact ⟨⟨_, _, (addProperty_eq_ok hadd).1⟩,
      hgrown.mono (List.Subset.refl _) (singleton_subset (hkey hnew)),
      fun table id r hr hrow => hrows table id r hr fun ht => (hrow ht).1⟩
  · have hcol : columnOf s c tid kv.1 = p.columnName := by rw [columnOf, hknown]
    rcases @widenProperty_frame s sc sc' tid kv.1 p.columnName hstrict keys hwiden with
      ⟨hgrown, hrows⟩
    exact ⟨⟨_, _, (widenProperty_eq_ok hwiden).1⟩, hgrown,
      fun table id r hr hrow => hrows table id r hr fun ht => hcol ▸ (hrow ht).2⟩

theorem changes_frame_loop {c : Catalog} {work : List (String × Json)} {keys : List String}
    {g : Schema → String × Json → Except String Schema}
    (hg : ∀ sc kv sc', g sc kv = .ok sc' → Changes s c tid kv sc sc')
    (hstrict : s.cast "text" .null = .ok .null) (htid : tid ∈ ogSubtypes sc.catalog tid)
    (hkeys : ∀ kv ∈ work, property? c tid kv.1 = none → kv.1 ∈ keys)
    (h : work.foldlM g sc = .ok sc') :
    Grown sc.catalog sc'.catalog (ogSubtypes sc.catalog tid) keys (columnName s) ∧
      ∀ table id r, rowAt sc table id = some r → (table ∈ tablesBelow sc.catalog tid →
        ∀ kv ∈ work, extGet r kv.1 = none ∧ r.col (columnOf s c tid kv.1) = .null) →
          Survives sc' table id r := by
  induction work generalizing sc with
  | nil =>
      obtain rfl := pure_eq_ok.mp h
      exact ⟨.refl _ _ _ _, fun _ _ r hr _ => ⟨r, hr, .refl r⟩⟩
  | cons kv work ih =>
      rcases foldlM_cons_eq_ok.mp h with ⟨sc₁, hstep, hrest⟩
      rcases changes_frame hstrict htid (hkeys kv List.mem_cons_self) (hg _ _ _ hstep) with
        ⟨⟨ks, cols, hev⟩, hgrown, hrows⟩
      rw [← hev.ogSubtypes_eq] at htid
      rcases ih htid (fun kv' hkv' => hkeys kv' (List.mem_cons_of_mem _ hkv')) hrest with
        ⟨hgrown', hrows'⟩
      rw [hev.ogSubtypes_eq] at hgrown'
      refine ⟨hgrown.trans hgrown', fun table id r hr hrow => ?_⟩
      rcases hrows table id r hr fun ht => hrow ht kv List.mem_cons_self with ⟨r₁, hr₁, halike⟩
      have hrest : table ∈ tablesBelow sc₁.catalog tid → ∀ kv' ∈ work,
          extGet r₁ kv'.1 = none ∧ r₁.col (columnOf s c tid kv'.1) = .null := by
        intro ht kv' hkv'
        rw [tablesBelow_eq hev] at ht
        rw [halike.ext, halike.col]
        exact hrow ht kv' (List.mem_cons_of_mem _ hkv')
      rcases hrows' table id r₁ hr₁ hrest with ⟨r', hr', halike'⟩
      exact ⟨r', hr', halike.trans halike'⟩

/-- The schema change of a payload: rows that are blank for it survive, and rows of other
tables. -/
theorem declareNewProps_frame (hstrict : s.cast "text" .null = .ok .null)
    (htid : tid ∈ ogSubtypes sc.catalog tid)
    (h : declareNewProps s tid (.obj kvs) sc = .ok sc') :
    Grown sc.catalog sc'.catalog (ogSubtypes sc.catalog tid)
        (declaredKeys s sc.catalog tid kvs) (columnName s) ∧
      ∀ table id r, rowAt sc table id = some r →
        (table ∈ tablesBelow sc.catalog tid → Blank s sc.catalog tid kvs r) →
          Survives sc' table id r := by
  have hkeys : ∀ kv ∈ promoted s sc.catalog tid kvs, property? sc.catalog tid kv.1 = none →
      kv.1 ∈ declaredKeys s sc.catalog tid kvs := by
    intro kv hkv hnone
    exact List.mem_map_of_mem (List.mem_filter.mpr ⟨hkv, by rw [hnone]; rfl⟩)
  change (if !kvs.any (needsWork sc.catalog tid) || !s.canChangeSchema then .ok sc
    else (kvs.filter (needsWork sc.catalog tid)).foldlM _ sc) = Except.ok sc' at h
  split_ifs at h with hskip
  · rw [← Except.ok.inj h]
    exact ⟨.refl _ _ _ _, fun _ _ r hr _ => ⟨r, hr, .refl r⟩⟩
  · have hwork : promoted s sc.catalog tid kvs = kvs.filter (needsWork sc.catalog tid) := by
      simp only [Bool.or_eq_true, Bool.not_eq_true', not_or, Bool.not_eq_false] at hskip
      rw [promoted, if_pos hskip.2]
    rw [← hwork] at h
    refine changes_frame_loop (fun sc₁ kv sc₂ hstep => ?_) hstrict htid hkeys h
    cases hinfer : inferColumnType kv.2 with
    | none =>
        simp only [hinfer] at hstep
        exact .inl (pure_eq_ok.mp hstep).symm
    | some want =>
        cases hknown : (propertiesOf sc.catalog tid).find? fun p => p.name = kv.1 with
        | none =>
            simp only [hinfer, hknown] at hstep
            exact .inr (.inl ⟨want, hknown, hstep⟩)
        | some p =>
            simp only [hinfer, hknown] at hstep
            exact .inr (.inr ⟨p, hknown, hstep⟩)

end Declarations

section Readings

variable {s : Session} {sc sc' sc'' : Schema} {ty tid id : Int} {kvs : List (String × Json)}
  {table : StorageTable} {r : TypedRow}

/-- The properties of an instance read as before. -/
structure ReadsAlike (sc sc' : Schema) (ty id : Int) : Prop where
  table : storageTable sc'.catalog ty = storageTable sc.catalog ty
  names : ((propertiesOf sc.catalog ty).map (·.name)).Nodup →
    ((propertiesOf sc'.catalog ty).map (·.name)).Nodup
  row : ∀ table r, storageTable sc.catalog ty = some table → rowAt sc table id = some r →
    ∃ r', rowAt sc' table id = some r' ∧
      ∀ key, stored sc'.catalog ty r' key = stored sc.catalog ty r key

theorem ReadsAlike.refl (sc : Schema) (ty id : Int) : ReadsAlike sc sc ty id :=
  ⟨rfl, fun h => h, fun _ r _ hr => ⟨r, hr, fun _ => rfl⟩⟩

theorem ReadsAlike.trans (h : ReadsAlike sc sc' ty id) (h' : ReadsAlike sc' sc'' ty id) :
    ReadsAlike sc sc'' ty id := by
  refine ⟨h'.table.trans h.table, fun hnames => h'.names (h.names hnames),
    fun table r htable hr => ?_⟩
  rcases h.row table r htable hr with ⟨r₁, hr₁, hread⟩
  rcases h'.row table r₁ (h.table.trans htable) hr₁ with ⟨r₂, hr₂, hread'⟩
  exact ⟨r₂, hr₂, fun key => (hread' key).trans (hread key)⟩

/-- The catalog stays, and the row. -/
theorem readsAlike_of_rowAt {tables : List (StorageTable × TypedRow)}
    (h : ∀ table r, rowAt sc table id = some r →
      rowAt { sc with tables := tables } table id = some r) :
    ReadsAlike sc { sc with tables := tables } ty id :=
  ⟨rfl, fun h => h, fun table r _ hr => ⟨r, h table r hr, fun _ => rfl⟩⟩

/-- The schema change of a payload leaves an instance alone that it does not touch. -/
theorem declareNewProps_readsAlike (hstrict : s.cast "text" .null = .ok .null)
    (htid : tid ∈ ogSubtypes sc.catalog tid)
    (huntouched : ∀ table r, storageTable sc.catalog ty = some table →
      rowAt sc table id = some r → table ∈ tablesBelow sc.catalog tid →
        Blank s sc.catalog tid kvs r)
    (h : declareNewProps s tid (.obj kvs) sc = .ok sc') : ReadsAlike sc sc' ty id := by
  have hev := (declareNewProps_eq_ok htid h).1
  rcases declareNewProps_frame hstrict htid h with ⟨hgrown, hrows⟩
  refine ⟨by rw [hev.storageTable_eq], hgrown.names ty, fun table r htable hr => ?_⟩
  rcases hrows table id r hr (huntouched table r htable hr) with ⟨r', hr', halike⟩
  refine ⟨r', hr', fun key => ?_⟩
  rw [stored_eq, stored_eq, halike.ext]
  rcases hgrown.columns ty key with hsame | ⟨hnone, hty, hkey, hcol⟩
  · rw [hsame]
    congr 2
    funext col
    rw [halike.col]
  · -- a new column of the type holds nothing for this instance
    rcases List.mem_map.mp hkey with ⟨kv, hkv, rfl⟩
    rcases List.mem_filter.mp hkv with ⟨hkv, hnew⟩
    have hnull := (huntouched table r htable hr (mem_tablesBelow hty htable) kv hkv).2
    rw [columnOf, Option.isNone_iff_eq_none.mp hnew] at hnull
    rw [hnone, hcol, Option.bind_some, halike.col, hnull]
    rfl

theorem rowAt_update_of_ne {p : StorageTable × TypedRow → Prop} [DecidablePred p]
    {f : TypedRow → TypedRow} (hf : ∀ r, (f r).id = r.id) (hp : ∀ x, p x → x.2.id ≠ id)
    (hr : rowAt sc table id = some r) :
    rowAt { sc with tables := update p (fun t => (t.1, f t.2)) sc.tables } table id = some r := by
  rcases sc with ⟨c, tables⟩
  induction tables with
  | nil => exact hr
  | cons x tables ih =>
      rcases x with ⟨t, q⟩
      rw [rowAt_cons] at hr
      simp only [update, List.map_cons]
      by_cases hx : p (t, q)
      · have hne : q.id ≠ id := hp _ hx
        rw [if_neg fun h => hne h.2] at hr
        rw [if_pos hx, rowAt_cons, hf, if_neg fun h => hne h.2]
        exact ih hr
      · rw [if_neg hx, rowAt_cons]
        split_ifs at hr ⊢ with hhere
        · exact hr
        · exact ih hr

theorem rowAt_append {tables : List (StorageTable × TypedRow)}
    (hr : rowAt sc table id = some r) :
    rowAt { sc with tables := sc.tables ++ tables } table id = some r := by
  rw [rowAt, rowsOf] at hr ⊢
  rw [List.filter_append, List.map_append, List.find?_append, hr]
  rfl

theorem rowAt_filter {p : StorageTable × TypedRow → Bool} (hp : ∀ x, x.2.id = id → p x = true)
    (hr : rowAt sc table id = some r) :
    rowAt { sc with tables := sc.tables.filter p } table id = some r := by
  rcases sc with ⟨c, tables⟩
  induction tables with
  | nil => exact hr
  | cons x tables ih =>
      rcases x with ⟨t, q⟩
      rw [rowAt_cons] at hr
      simp only [List.filter_cons]
      split_ifs at hr with hhere
      · rw [if_pos (hp (t, q) hhere.2), rowAt_cons, if_pos hhere]
        exact hr
      · split_ifs
        · rw [rowAt_cons, if_neg hhere]
          exact ih hr
        · exact ih hr

theorem updateTyped_readsAlike {f : TypedRow → TypedRow} {id' : Int} (hf : ∀ r, (f r).id = r.id)
    (hne : id ≠ id') (h : updateTyped sc table id' f = .ok sc') : ReadsAlike sc sc' ty id := by
  unfold updateTyped at h
  dsimp only at h
  split at h
  · rw [← Except.ok.inj h]
    exact .refl _ _ _
  · split_ifs at h
    rw [← Except.ok.inj h]
    exact readsAlike_of_rowAt fun table r hr =>
      rowAt_update_of_ne hf (fun x hx heq => hne (heq.symm.trans hx.2)) hr

theorem insertTyped_readsAlike {q : TypedRow} (h : insertTyped sc table q = .ok sc') :
    ReadsAlike sc sc' ty id := by
  unfold insertTyped at h
  dsimp only at h
  split_ifs at h
  rw [← Except.ok.inj h]
  exact readsAlike_of_rowAt fun table r hr => rowAt_append hr

theorem deleteTyped_readsAlike {id' : Int} (hne : id ≠ id') :
    ReadsAlike sc (deleteTyped sc table id') ty id := by
  refine readsAlike_of_rowAt fun table r hr => rowAt_filter (fun x hx => ?_) hr
  simp [hx, hne]

end Readings

section Entities

variable {s : Session} {st st' : Store} {x y : Entity} {tid id : Int} {kvs : List (String × Json)}

/-- The entity is of another table than those the schema change of a payload rewrites, or its
row has no value there. -/
def Untouched (s : Session) (sc : Schema) (tid : Int) (kvs : List (String × Json)) (y : Entity) :
    Prop :=
  ∀ table r, storageTable sc.catalog (idType (idOf y)) = some table →
    rowAt sc table (idOf y) = some r → table ∈ tablesBelow sc.catalog tid →
      Blank s sc.catalog tid kvs r

/-- An entity whose row reads as before has the property map it had. -/
theorem propertyMap_of_readsAlike (hpresent : Present st y) (hreg : Registered st' y)
    (h : ReadsAlike st.schema st'.schema (idType (idOf y)) (idOf y)) :
    propertyMap st' y = propertyMap st y := by
  rcases hpresent.stored with ⟨table, r, htable, hr⟩
  rcases h.row table r htable hr with ⟨r', hr', hread⟩
  funext key
  rw [propertyMap_eq hreg (h.table.trans htable) hr' (h.names hpresent.names),
    propertyMap_eq hpresent.registered htable hr hpresent.names, hread]

theorem setPropsInner_readsAlike {sc sc' : Schema} {ty id' : Int}
    (hstrict : s.cast "text" .null = .ok .null)
    (htid : idType id' ∈ ogSubtypes sc.catalog (idType id'))
    (huntouched : ∀ table r, storageTable sc.catalog ty = some table →
      rowAt sc table id = some r → table ∈ tablesBelow sc.catalog (idType id') →
        Blank s sc.catalog (idType id') kvs r)
    (hne : id ≠ id') (h : setPropsInner s sc id' (.obj kvs) = .ok sc') :
    ReadsAlike sc sc' ty id := by
  rcases bind_eq_ok.mp h with ⟨table, -, h⟩
  rcases bind_eq_ok.mp h with ⟨⟨sc₁, plan⟩, hplan, h⟩
  rcases bind_eq_ok.mp h with ⟨u, -, h⟩
  have hfirst : ReadsAlike sc sc₁ ty id :=
    declareNewProps_readsAlike hstrict htid huntouched (planProps_eq_ok hplan).declared
  split_ifs at h
  · rw [← pure_eq_ok.mp h]
    exact hfirst
  · rcases bind_eq_ok.mp h with ⟨u, -, h⟩
    exact hfirst.trans (updateTyped_readsAlike (fun _ => assign_id) hne h)

/-- A property write leaves the other entities alone that its schema change does not touch. -/
theorem writeProps_other {sc' : Schema} (hstrict : s.cast "text" .null = .ok .null)
    (htid : idType (idOf x) ∈ ogSubtypes st.schema.catalog (idType (idOf x)))
    (hpresent : Present st y)
    (huntouched : Untouched s st.schema (idType (idOf x)) kvs y) (hne : idOf y ≠ idOf x)
    (h : PropertyMaps.writeProps s st.schema x (.obj kvs) = .ok sc') :
    propertyMap { st with schema := sc' } y = propertyMap st y := by
  have hreg : Registered { st with schema := sc' } y := by
    have hreg := hpresent.registered
    cases y with
    | node id => exact hreg
    | edge id => exact hreg
  exact propertyMap_of_readsAlike hpresent hreg
    (setPropsInner_readsAlike hstrict htid huntouched hne (writeProps_eq_ok h))

theorem createNodeInner_readsAlike {ty i : Int} {name : String}
    (hstrict : s.cast "text" .null = .ok .null)
    (htid : tid ∈ ogSubtypes st.schema.catalog tid)
    (huntouched : ∀ table r, storageTable st.schema.catalog ty = some table →
      rowAt st.schema table i = some r → table ∈ tablesBelow st.schema.catalog tid →
        Blank s st.schema.catalog tid kvs r)
    (h : createNodeInner s st tid name (.obj kvs) = .ok (st', id)) :
    ReadsAlike st.schema st'.schema ty i := by
  rcases bind_eq_ok.mp h with ⟨kind, -, h⟩
  rcases bind_eq_ok.mp h with ⟨u, -, h⟩
  rcases bind_eq_ok.mp h with ⟨table, -, h⟩
  rcases bind_eq_ok.mp h with ⟨u, -, h⟩
  rcases bind_eq_ok.mp h with ⟨⟨sc₁, plan⟩, hplan, h⟩
  rcases bind_eq_ok.mp h with ⟨u, -, h⟩
  rcases bind_eq_ok.mp h with ⟨⟨alloc, nid⟩, -, h⟩
  rcases bind_eq_ok.mp h with ⟨nodes, -, h⟩
  rcases bind_eq_ok.mp h with ⟨sc₂, hinsert, h⟩
  rw [← (Prod.mk.inj (pure_eq_ok.mp h)).1]
  exact (declareNewProps_readsAlike hstrict htid huntouched (planProps_eq_ok hplan).declared).trans
    (insertTyped_readsAlike hinsert)

theorem createEdgeInner_readsAlike {ty i src dst : Int} {name : String}
    (hstrict : s.cast "text" .null = .ok .null)
    (htid : tid ∈ ogSubtypes st.schema.catalog tid)
    (huntouched : ∀ table r, storageTable st.schema.catalog ty = some table →
      rowAt st.schema table i = some r → table ∈ tablesBelow st.schema.catalog tid →
        Blank s st.schema.catalog tid kvs r)
    (h : createEdgeInner s st tid name src dst (.obj kvs) = .ok (st', id)) :
    ReadsAlike st.schema st'.schema ty i := by
  rcases bind_eq_ok.mp h with ⟨kind, -, h⟩
  rcases bind_eq_ok.mp h with ⟨u, -, h⟩
  rcases bind_eq_ok.mp h with ⟨table, -, h⟩
  rcases bind_eq_ok.mp h with ⟨u, -, h⟩
  rcases bind_eq_ok.mp h with ⟨⟨sc₁, plan⟩, hplan, h⟩
  rcases bind_eq_ok.mp h with ⟨u, -, h⟩
  rcases bind_eq_ok.mp h with ⟨⟨alloc, eid⟩, -, h⟩
  rcases bind_eq_ok.mp h with ⟨edges, -, h⟩
  rcases bind_eq_ok.mp h with ⟨sc₂, hinsert, h⟩
  rcases bind_eq_ok.mp h with ⟨adj, -, h⟩
  rcases bind_eq_ok.mp h with ⟨adj', -, h⟩
  rw [← (Prod.mk.inj (pure_eq_ok.mp h)).1]
  exact (declareNewProps_readsAlike hstrict htid huntouched (planProps_eq_ok hplan).declared).trans
    (insertTyped_readsAlike hinsert)

/-- An entity that is still registered once a node is created was registered before, unless it
is the new node. -/
theorem registered_of_createNode {name : String} {props : Json}
    (h : createNodeInner s st tid name props = .ok (st', id)) (hreg : Registered st' y)
    (hne : y ≠ .node id) : Registered st y := by
  rcases AdjacencyMirror.createNodeInner_eq_ok h with ⟨hedge, -, -, hnode⟩
  cases y with
  | edge i =>
      rcases hreg with ⟨e, he, htype⟩
      exact ⟨e, by rw [← hedge]; exact he, htype⟩
  | node i =>
      rcases hreg with ⟨n, hn, htype⟩
      have hid : id ≠ i := fun heq => hne (heq ▸ rfl)
      rw [hnode, List.find?_append, List.find?_cons_of_neg (by simpa using hid), List.find?_nil,
        Option.or_none] at hn
      exact ⟨n, hn, htype⟩

theorem registered_of_createEdge {name : String} {src dst : Int} {props : Json}
    (h : createEdgeInner s st tid name src dst props = .ok (st', id)) (hreg : Registered st' y)
    (hne : y ≠ .edge id) : Registered st y := by
  rcases AdjacencyMirror.createEdgeInner_eq_ok h with ⟨-, -, hedge, hnode, -⟩
  cases y with
  | node i =>
      rcases hreg with ⟨n, hn, htype⟩
      exact ⟨n, by rw [← hnode]; exact hn, htype⟩
  | edge i =>
      rcases hreg with ⟨e, he, htype⟩
      have hid : id ≠ i := fun heq => hne (heq ▸ rfl)
      rw [hedge, List.find?_append, List.find?_cons_of_neg (by simpa using hid), List.find?_nil,
        Option.or_none] at he
      exact ⟨e, he, htype⟩

/-- No identifier is registered both as a node and as an edge. -/
def Apart (st : Store) : Prop := ∀ n ∈ st.ogNode, ∀ e ∈ st.ogEdge, n.id ≠ e.id

/-- What a deletion leaves of the entities that remain. -/
structure Remains (st st' : Store) : Prop where
  nodes : st'.ogNode ⊆ st.ogNode
  edges : st'.ogEdge ⊆ st.ogEdge
  alike : ∀ y, Registered st' y → Registered st y ∧
    ReadsAlike st.schema st'.schema (idType (idOf y)) (idOf y)

theorem Remains.refl (st : Store) : Remains st st :=
  ⟨List.Subset.refl _, List.Subset.refl _, fun _ hreg => ⟨hreg, .refl _ _ _⟩⟩

theorem Remains.trans {st'' : Store} (h : Remains st st') (h' : Remains st' st'') :
    Remains st st'' := by
  refine ⟨fun n hn => h.nodes (h'.nodes hn), fun e he => h.edges (h'.edges he), fun y hreg => ?_⟩
  rcases h'.alike y hreg with ⟨hreg, halike'⟩
  rcases h.alike y hreg with ⟨hreg, halike⟩
  exact ⟨hreg, halike.trans halike'⟩

theorem Remains.apart (h : Remains st st') (hapart : Apart st) : Apart st' :=
  fun n hn e he => hapart n (h.nodes hn) e (h.edges he)

theorem deleteRow_readsAlike {ty i : Int} (hne : i ≠ id) :
    ReadsAlike st.schema (deleteRow st tid id) ty i := by
  unfold deleteRow
  split
  · exact .refl _ _ _
  · exact deleteTyped_readsAlike hne

/-- Removing the rows of one key leaves the first row of another. -/
theorem find_filter_key {α : Type} {key : α → Int} {xs : List α} {i k : Int} (h : i ≠ k) :
    (xs.filter fun a => key a ≠ k).find? (fun a => key a = i) = xs.find? fun a => key a = i := by
  rw [List.find?_filter]
  congr 1
  funext a
  by_cases ha : key a = i
  · simp [ha, h]
  · simp [ha]

theorem deleteEdgeInner_remains {n : Int} (hapart : Apart st)
    (h : deleteEdgeInner s st id = .ok (st', n)) : Remains st st' := by
  unfold deleteEdgeInner at h
  dsimp only at h
  split at h
  · rw [← (Prod.mk.inj (Except.ok.inj h)).1]
    exact .refl st
  · next e he =>
    rcases bind_eq_ok.mp h with ⟨u, -, h⟩
    rw [← (Prod.mk.inj (pure_eq_ok.mp h)).1]
    have hid : e.id = id := by simpa using List.find?_some he
    refine ⟨List.Subset.refl _, fun e he => List.mem_of_mem_filter he, fun y hreg => ?_⟩
    cases y with
    | node i =>
        rcases hreg with ⟨n, hn, htype⟩
        have hn : st.ogNode.find? (fun n => n.id = i) = some n := hn
        refine ⟨⟨n, hn, htype⟩, deleteRow_readsAlike ?_⟩
        have hni : n.id = i := by simpa using List.find?_some hn
        rw [idOf, ← hni, ← hid]
        exact hapart n (List.mem_of_find?_eq_some hn) e (List.mem_of_find?_eq_some he)
    | edge i =>
        rcases hreg with ⟨e', he', htype⟩
        have he' : (st.ogEdge.filter fun r => r.id ≠ id).find? (fun e => e.id = i) = some e' := he'
        have hei : e'.id = i := by simpa using List.find?_some he'
        have hne : i ≠ id := by
          have hmem := List.mem_filter.mp (List.mem_of_find?_eq_some he')
          rw [← hei]
          simpa using hmem.2
        rw [find_filter_key hne] at he'
        exact ⟨⟨e', he', htype⟩, deleteRow_readsAlike hne⟩

end Entities

end OntologicalDb.EntityFrames
