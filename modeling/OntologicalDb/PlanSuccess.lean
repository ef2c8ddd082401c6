import OntologicalDb.PropertyMaps

/-!
When a property payload of one member is written: the declarations and conversions that
the data allow, the rows they leave, and the value that is read back.
-/

namespace OntologicalDb.PlanSuccess

open OntologicalDb.ExceptRules
open OntologicalDb.GraphStorage
open OntologicalDb.Ids
open OntologicalDb.KeyedRows
open OntologicalDb.Labeling
open OntologicalDb.PropertyMaps
open OntologicalDb.PropertyPlans
open OntologicalDb.RowDocuments
open OntologicalDb.RowWrites (Entity)
open OntologicalDb.TypeCatalog
open OntologicalDb.TypedTables
open OntologicalDb.Values

section Loops

variable {α β ε : Type} {f : β → α → Except ε β} {I : β → Prop}

/-- A loop whose steps succeed while an invariant holds, and keep it, succeeds. -/
theorem exists_foldlM_of_invariant {xs : List α}
    (hstep : ∀ x ∈ xs, ∀ b, I b → ∃ c, f b x = .ok c ∧ I c) {b : β} (hb : I b) :
    ∃ c, xs.foldlM f b = .ok c ∧ I c := by
  induction xs generalizing b with
  | nil => exact ⟨b, rfl, hb⟩
  | cons x xs ih =>
      rcases hstep x List.mem_cons_self b hb with ⟨d, hd, hI⟩
      rcases ih (fun y hy => hstep y (List.mem_cons_of_mem _ hy)) hI with ⟨c, hc, hIc⟩
      exact ⟨c, foldlM_cons_eq_ok.mpr ⟨d, hd, hc⟩, hIc⟩

/-- A sequence succeeds when its first part does and the rest does on what that leaves. -/
theorem exists_bind {x : Except ε α} {g : α → Except ε β} {P : α → Prop}
    (hx : ∃ a, x = .ok a ∧ P a) (hg : ∀ a, P a → ∃ b, g a = .ok b ∧ I b) :
    ∃ b, x >>= g = .ok b ∧ I b := by
  rcases hx with ⟨a, rfl, ha⟩
  exact hg a ha

end Loops

section Tables

variable {table t : StorageTable} {f : TypedRow → Except String TypedRow}
  {tables tables' : List (StorageTable × TypedRow)} {r' : TypedRow}

/-- A rewrite of a table succeeds when it does on each of its rows. -/
theorem exists_mapTable (h : ∀ r, (table, r) ∈ tables → ∃ r', f r = .ok r') :
    ∃ tables', mapTable table f tables = .ok tables' := by
  induction tables with
  | nil => exact ⟨[], rfl⟩
  | cons x tables ih =>
      rcases x with ⟨tx, q⟩
      rcases ih fun r hr => h r (List.mem_cons_of_mem _ hr) with ⟨rest, hrest⟩
      have hq : ∃ q', (if tx = table then f q else .ok q) = .ok q' := by
        split_ifs with htx
        · exact h q (htx ▸ List.mem_cons_self)
        · exact ⟨q, rfl⟩
      rcases hq with ⟨q', hq'⟩
      exact ⟨_, mapTable_cons_eq_ok.mpr ⟨q', hq', rest, hrest, rfl⟩⟩

/-- Every row after a rewrite is one from before it. -/
theorem mem_of_mapTable (h : mapTable table f tables = .ok tables') (hr : (t, r') ∈ tables') :
    ∃ r, (t, r) ∈ tables ∧ (if t = table then f r else .ok r) = .ok r' := by
  induction tables generalizing tables' with
  | nil =>
      obtain rfl := Except.ok.inj h
      cases hr
  | cons x tables ih =>
      rcases x with ⟨tx, q⟩
      rcases mapTable_cons_eq_ok.mp h with ⟨q', hq', rest, hrest, rfl⟩
      rcases List.mem_cons.mp hr with heq | hr
      · obtain ⟨rfl, rfl⟩ := Prod.mk.inj heq
        exact ⟨q, List.mem_cons_self, hq'⟩
      · rcases ih hrest hr with ⟨r, hr, hf⟩
        exact ⟨r, List.mem_cons_of_mem _ hr, hf⟩

end Tables

section Changes

/-- Every row of a store is one of another store, with other values in one column only. -/
def RowsFrom (col : String) (sc sc' : Schema) : Prop :=
  ∀ t r', (t, r') ∈ sc'.tables → ∃ r, (t, r) ∈ sc.tables ∧ r'.id = r.id ∧
    ∀ c, c ≠ col → r'.col c = r.col c

theorem RowsFrom.refl (col : String) (sc : Schema) : RowsFrom col sc sc :=
  fun _ r hr => ⟨r, hr, rfl, fun _ _ => rfl⟩

theorem RowsFrom.trans {col : String} {sc₁ sc₂ sc₃ : Schema} (h : RowsFrom col sc₁ sc₂)
    (h' : RowsFrom col sc₂ sc₃) : RowsFrom col sc₁ sc₃ := by
  intro t r₃ hr₃
  rcases h' t r₃ hr₃ with ⟨r₂, hr₂, hid', hcol'⟩
  rcases h t r₂ hr₂ with ⟨r₁, hr₁, hid, hcol⟩
  exact ⟨r₁, hr₁, hid'.trans hid, fun c hc => (hcol' c hc).trans (hcol c hc)⟩

theorem rowsFrom_mapTable {col : String} {table : StorageTable}
    {f : TypedRow → Except String TypedRow} {sc : Schema} {c : Catalog}
    {tables : List (StorageTable × TypedRow)}
    (hf : ∀ r r', f r = .ok r' → r'.id = r.id ∧ ∀ c, c ≠ col → r'.col c = r.col c)
    (h : mapTable table f sc.tables = .ok tables) : RowsFrom col sc ⟨c, tables⟩ := by
  intro t r' hr'
  rcases mem_of_mapTable h hr' with ⟨r, hr, hcase⟩
  split_ifs at hcase with ht
  · exact ⟨r, hr, hf r r' hcase⟩
  · obtain rfl := Except.ok.inj hcase
    exact ⟨r, hr, rfl, fun _ _ => rfl⟩

variable {s : Session} {tid : Int} {key dtype col : String} {sc : Schema}

/-- The tables of a type and of the types below it. -/
def tablesBelow (c : Catalog) (tid : Int) : List StorageTable :=
  (ogSubtypes c tid).filterMap (storageTable c)

theorem mem_tablesBelow {c : Catalog} {sub : Int} {table : StorageTable}
    (hsub : sub ∈ ogSubtypes c tid) (htable : storageTable c sub = some table) :
    table ∈ tablesBelow c tid := List.mem_filterMap.mpr ⟨sub, hsub, htable⟩

/-- The value of a key in the extension payload of a row is read at a type. -/
def ExtCasts (s : Session) (key dtype : String) (r : TypedRow) : Prop :=
  ∀ j, extGet r key = some j → ∃ v, s.cast dtype ((Json.obj [(key, j)]).getText key) = .ok v

theorem exists_promote {r : TypedRow} (h : ExtCasts s key dtype r) :
    ∃ r', promote s key col dtype r = .ok r' := by
  unfold promote
  split
  · next kvs hext =>
    split_ifs with hany
    · cases hget : (Json.obj kvs).get? key with
      | none =>
          rcases List.any_eq_true.mp hany with ⟨kv, hkv, hkey⟩
          exact absurd (of_decide_eq_true hkey) (get_eq_none.mp hget kv hkv)
      | some j =>
          rcases h j (by rw [extGet, hext]; exact hget) with ⟨v, hv⟩
          have htext : (Json.obj kvs).getText key = (Json.obj [(key, j)]).getText key := by
            unfold Json.getText
            rw [hget, get_cons, if_pos rfl]
          rw [htext]
          exact ⟨_, bind_eq_ok.mpr ⟨v, hv, rfl⟩⟩
    · exact ⟨r, rfl⟩
  · exact ⟨r, rfl⟩

/-- What is left in the extension payload after a move is still read at the type. -/
theorem extCasts_promote {r r' : TypedRow} (h : promote s key col dtype r = .ok r') :
    ExtCasts s key dtype r' := by
  intro j hj
  rw [(promote_eq_ok h).2.2] at hj
  cases hj

theorem rowsFrom_promote {table : StorageTable} {c : Catalog}
    {tables : List (StorageTable × TypedRow)}
    (h : mapTable table (promote s key col dtype) sc.tables = .ok tables) :
    RowsFrom col sc ⟨c, tables⟩ := by
  refine rowsFrom_mapTable (fun r r' hr => ?_) h
  rcases promote_eq_ok hr with ⟨hid, hkept, -⟩
  exact ⟨hid, fun c hc => hkept.col c fun hmem => hc (List.mem_singleton.mp hmem)⟩

/-- A property is declared when the values of its key that rows hold are read at its type. -/
theorem exists_addProperty (hnew : property? sc.catalog tid key = none)
    (hext : ∀ table ∈ tablesBelow sc.catalog tid, ∀ r, (table, r) ∈ sc.tables →
      ExtCasts s key dtype r) :
    ∃ sc', addProperty s tid key dtype sc = .ok sc' ∧
      RowsFrom (columnName s key) sc sc' := by
  have habsent : ¬ sc.catalog.properties.any fun p => p.typeId = tid ∧ p.name = key := by
    intro hany
    rcases List.any_eq_true.mp hany with ⟨p, hp, hp'⟩
    rcases of_decide_eq_true hp' with ⟨htid, hname⟩
    have hnone := List.find?_eq_none.mp hnew p (List.mem_filter.mpr ⟨hp, decide_eq_true htid⟩)
    exact hnone (decide_eq_true hname)
  let I (st : Schema) : Prop := storageTable st.catalog = storageTable sc.catalog ∧
    (∀ table ∈ tablesBelow sc.catalog tid, ∀ r, (table, r) ∈ st.tables →
      ExtCasts s key dtype r) ∧ RowsFrom (columnName s key) sc st
  have hcatalog (c : Catalog) (sub : Int) : storageTable (declare sub key dtype
      (columnName s key) c) = storageTable c ∧
        ogSubtypes (declare sub key dtype (columnName s key) c) = ogSubtypes c := by
    rcases @declare_eq key dtype (columnName s key) c sub with ⟨ps, hps⟩
    rw [hps]
    exact ⟨rfl, rfl⟩
  have hstart : RowsFrom (columnName s key) sc
      { sc with catalog := declare tid key dtype (columnName s key) sc.catalog } := .refl _ _
  unfold addProperty
  dsimp only
  rw [require, if_pos habsent, (hcatalog _ _).2]
  refine (?_ : ∃ sc', _ ∧ I sc').imp fun st h => ⟨h.1, h.2.2.2⟩
  refine exists_foldlM_of_invariant (fun sub hsub st hI => ?_)
    ⟨(hcatalog _ _).1, hext, hstart⟩
  rcases hI with ⟨hstorage, hcasts, hfrom⟩
  cases htable : storageTable st.catalog sub with
  | none => exact ⟨st, rfl, hstorage, hcasts, hfrom⟩
  | some table =>
      have hbelow : table ∈ tablesBelow sc.catalog tid :=
        mem_tablesBelow hsub (by rw [← hstorage]; exact htable)
      rcases @exists_mapTable table (promote s key (columnName s key) dtype) st.tables
        (fun r hr => exists_promote (hcasts table hbelow r hr)) with ⟨tables, hmap⟩
      refine ⟨_, bind_eq_ok.mpr ⟨tables, hmap, rfl⟩, ?_, fun t ht r' hr' => ?_,
        hfrom.trans (rowsFrom_promote hmap)⟩
      · rw [(hcatalog _ _).1, hstorage]
      · rcases mem_of_mapTable hmap hr' with ⟨r, hr, hcase⟩
        split_ifs at hcase
        · exact extCasts_promote hcase
        · obtain rfl := Except.ok.inj hcase
          exact hcasts t ht r hr

/-- A column is made text; every value has a text. -/
theorem exists_widenProperty (htext : ∀ v, ∃ u, s.cast "text" v = .ok u) :
    ∃ sc', widenProperty s tid key col sc = .ok sc' ∧ RowsFrom col sc sc' := by
  unfold widenProperty
  dsimp only
  refine exists_bind (P := fun tables => RowsFrom col sc ⟨sc.catalog, tables⟩)
    (exists_foldlM_of_invariant (I := fun tables => RowsFrom col sc ⟨sc.catalog, tables⟩)
      (fun sub _ tables hfrom => ?_) (.refl _ _)) fun tables hfrom => ⟨_, rfl, hfrom⟩
  cases htable : storageTable sc.catalog sub with
  | none => exact ⟨tables, rfl, hfrom⟩
  | some table =>
      rcases @exists_mapTable table
        (fun r => do return r.setCol col (← s.cast "text" (r.col col))) tables (fun r _ => by
          rcases htext (r.col col) with ⟨u, hu⟩
          exact ⟨_, bind_eq_ok.mpr ⟨u, hu, rfl⟩⟩) with ⟨tables', hmap⟩
      refine ⟨tables', hmap, hfrom.trans (@rowsFrom_mapTable col table _
        ⟨sc.catalog, tables⟩ _ _ (fun r r' hr => ?_) hmap)⟩
      rcases bind_eq_ok.mp hr with ⟨u, -, hr'⟩
      obtain rfl := pure_eq_ok.mp hr'
      exact ⟨rfl, fun c hc => col_setCol_of_ne hc⟩

end Changes

section Plans

variable {s : Session} {tid : Int} {key : String} {v : Json} {sc : Schema}

/-- Every value has a text. -/
def Texts (s : Session) : Prop := ∀ v, ∃ u, s.cast "text" v = .ok u

/-- The values of the key that rows hold fit a column that is about to be declared. -/
def Movable (s : Session) (sc : Schema) (tid : Int) (key : String) (v : Json) : Prop :=
  ∀ dtype, needsWork sc.catalog tid (key, v) = true → property? sc.catalog tid key = none →
    inferColumnType v = some dtype →
      ∀ table ∈ tablesBelow sc.catalog tid, ∀ r, (table, r) ∈ sc.tables → ExtCasts s key dtype r

theorem exists_declareNewProps (htext : Texts s)
    (hmove : s.canChangeSchema = true → Movable s sc tid key v) :
    ∃ sc', declareNewProps s tid (.obj [(key, v)]) sc = .ok sc' ∧
      RowsFrom (columnOf s sc.catalog tid key) sc sc' := by
  change ∃ sc', (if !([(key, v)].any (needsWork sc.catalog tid)) || !s.canChangeSchema then .ok sc
    else ([(key, v)].filter (needsWork sc.catalog tid)).foldlM _ sc) = Except.ok sc' ∧ _
  split_ifs with hskip
  · exact ⟨sc, rfl, .refl _ _⟩
  · have hwork : needsWork sc.catalog tid (key, v) = true ∧ s.canChangeSchema = true := by
      simpa using hskip
    have hlist : [(key, v)].filter (needsWork sc.catalog tid) = [(key, v)] := by
      simp [hwork.1]
    rw [hlist, columnOf]
    have hone {g : Schema → String × Json → Except String Schema} {sc' : Schema}
        (h : g sc (key, v) = .ok sc') : [(key, v)].foldlM g sc = .ok sc' :=
      foldlM_cons_eq_ok.mpr ⟨sc', h, rfl⟩
    cases hwant : inferColumnType v with
    | none => exact ⟨sc, hone (by simp only [hwant]; rfl), .refl _ _⟩
    | some dtype =>
        cases hknown : property? sc.catalog tid key with
        | none =>
            have hfind : (propertiesOf sc.catalog tid).find? (fun p => p.name = key) = none := hknown
            rcases exists_addProperty hknown (hmove hwork.2 dtype hwork.1 hknown hwant) with
              ⟨sc', hsc', hfrom⟩
            exact ⟨sc', hone (by simpa only [hwant, hfind] using hsc'), hfrom⟩
        | some p =>
            have hfind : (propertiesOf sc.catalog tid).find? (fun p => p.name = key) = some p :=
              hknown
            rcases @exists_widenProperty s tid key p.columnName sc htext with ⟨sc', hsc', hfrom⟩
            exact ⟨sc', hone (by simpa only [hwant, hfind] using hsc'), hfrom⟩

/-- The value is read at the type of the column it goes to. -/
def Readable (s : Session) (c : Catalog) (tid : Int) (key : String) (v : Json) : Prop :=
  ∀ dtype, columnType s c tid key v = some dtype →
    ∃ val, columnValue s dtype (.obj [(key, v)]) key = .ok val

theorem get_single {k : String} :
    (Json.obj [(key, v)]).get? k = if key = k then some v else none := by
  rw [get_cons]
  rfl

theorem exists_mapM {α β : Type} {f : α → Except String β} {xs : List α}
    (h : ∀ x ∈ xs, ∃ y, f x = .ok y) : ∃ ys, xs.mapM f = .ok ys := by
  induction xs with
  | nil => exact ⟨[], rfl⟩
  | cons x xs ih =>
      rcases h x List.mem_cons_self with ⟨y, hy⟩
      rcases ih fun z hz => h z (List.mem_cons_of_mem _ hz) with ⟨ys, hys⟩
      refine ⟨y :: ys, ?_⟩
      rw [List.mapM_cons]
      exact bind_eq_ok.mpr ⟨y, hy, bind_eq_ok.mpr ⟨ys, hys, rfl⟩⟩

/-- The plan of a payload of one member. -/
theorem exists_planProps (htid : tid ∈ ogSubtypes sc.catalog tid)
    (hnames : ((propertiesOf sc.catalog tid).map (·.name)).Nodup)
    (hreserved : isReservedKey key = false) (htext : Texts s)
    (hmove : s.canChangeSchema = true → Movable s sc tid key v)
    (hread : Readable s sc.catalog tid key v) :
    ∃ sc₁ plan, planProps s tid (.obj [(key, v)]) sc = .ok (sc₁, plan) ∧
      RowsFrom (columnOf s sc.catalog tid key) sc sc₁ := by
  rcases exists_declareNewProps htext hmove with ⟨sc₁, hdeclared, hfrom⟩
  have hkeys : ([(key, v)].map (·.1)).Nodup := List.nodup_singleton key
  have hprops := (declareNewProps_eq_ok htid hdeclared).2.1
  have hnames₁ : ((propertiesOf sc₁.catalog tid).map (·.name)).Nodup := by
    rw [hprops]
    exact nodup_foldl_names (hkeys.sublist (promoted_sublist.map _)) (fun _ _ => rfl) hnames
  have hcheck : checkReservedKeys (.obj [(key, v)]) = .ok ⟨⟩ := by
    simp [checkReservedKeys, keysOf, hreserved]
  have hcolumns : ∃ columns, ((propertiesOf sc₁.catalog tid).filter fun p =>
      ((Json.obj [(key, v)]).get? p.name).isSome).mapM (fun p => do
        return (p.columnName, ← columnValue s p.dataType (.obj [(key, v)]) p.name)) =
          (Except.ok columns : Except String (List (String × Val))) := by
    refine exists_mapM fun p hp => ?_
    rcases List.mem_filter.mp hp with ⟨hp, hsome⟩
    have hname : p.name = key := by
      rw [get_single] at hsome
      split_ifs at hsome with heq
      · exact heq.symm
      · cases hsome
    have hfound := property?_of_mem hnames₁ hp
    have hmap := property_of_mem hkeys hprops (List.mem_singleton_self (key, v))
    rw [hname] at hfound
    rw [hfound] at hmap
    have htype : columnType s sc.catalog tid key v = some p.dataType := by
      cases hcol : columnType s sc.catalog tid key v with
      | none => simp [hcol] at hmap
      | some dtype =>
          simp only [hcol, Option.map_some, Option.some.injEq, Prod.mk.injEq] at hmap
          rw [hmap.2]
    rcases hread _ htype with ⟨val, hval⟩
    rw [hname]
    exact ⟨_, bind_eq_ok.mpr ⟨val, hval, rfl⟩⟩
  rcases hcolumns with ⟨columns, hcolumns⟩
  exact ⟨sc₁, _, bind_eq_ok.mpr ⟨_, hcheck, bind_eq_ok.mpr ⟨sc₁, hdeclared,
    bind_eq_ok.mpr ⟨columns, hcolumns, rfl⟩⟩⟩, hfrom⟩

end Plans

section Writes

variable {s : Session} {sc sc₁ : Schema} {tid id : Int} {key col : String} {v : Json}
  {table : StorageTable} {r : TypedRow} {plan : PropPlan}

/-- The row meets the constraints of its table. -/
structure MeetsConstraints (sc : Schema) (tid : Int) (table : StorageTable) (r : TypedRow) :
    Prop where
  required : ∀ p ∈ propertiesOf sc.catalog tid, p.required = true → r.col p.columnName ≠ .null
  keys : ∀ p ∈ propertiesOf sc.catalog tid, p.isKey = true → r.col p.columnName ≠ .null →
    ∀ q, (table, q) ∈ sc.tables → q.id ≠ r.id → q.col p.columnName ≠ r.col p.columnName

/-- Changes of type and new optional properties add no constraint. -/
theorem constrained_of_foldl {c : Catalog} {work : List (String × Json)} {ps : List Property}
    {p : Property} (hp : p ∈ work.foldl (stepProps s c tid) ps)
    (hflag : p.required = true ∨ p.isKey = true) :
    ∃ q ∈ ps, q.columnName = p.columnName ∧ q.required = p.required ∧ q.isKey = p.isKey := by
  induction work generalizing ps with
  | nil => exact ⟨p, hp, rfl, rfl, rfl⟩
  | cons kv work ih =>
      rcases ih hp with ⟨q, hq, hcol, hreq, hkey⟩
      unfold stepProps at hq
      split at hq
      · rcases List.mem_append.mp hq with hq | hq
        · exact ⟨q, hq, hcol, hreq, hkey⟩
        · obtain rfl := List.mem_singleton.mp hq
          simp [← hreq, ← hkey, declared] at hflag
      · rcases List.mem_map.mp hq with ⟨q₀, hq₀, rfl⟩
        refine ⟨q₀, hq₀, ?_⟩
        split_ifs at hcol hreq hkey
        · exact ⟨hcol, hreq, hkey⟩
        · exact ⟨hcol, hreq, hkey⟩
      · exact ⟨q, hq, hcol, hreq, hkey⟩

/-- A planned assignment to a column without constraints is accepted. -/
theorem exists_updateTyped {f : TypedRow → TypedRow} {r₁ : TypedRow}
    (hf : ∀ q c, c ≠ col → (f q).col c = q.col c)
    (htable : table.typeId = tid) (hr : rowAt sc table id = some r)
    (hmeets : MeetsConstraints sc tid table r)
    (hfrom : RowsFrom col sc sc₁) (hr₁ : rowAt sc₁ table id = some r₁) (hcol : ∀ c, c ≠ col →
      r₁.col c = r.col c)
    (hprops : ∀ p ∈ propertiesOf sc₁.catalog tid, p.required = true ∨ p.isKey = true →
      ∃ q ∈ propertiesOf sc.catalog tid, q.columnName = p.columnName ∧ q.required = p.required ∧
        q.isKey = p.isKey)
    (hfree : ∀ p ∈ propertiesOf sc.catalog tid, p.columnName = col →
      p.required = false ∧ p.isKey = false) :
    ∃ sc₂, updateTyped sc₁ table id f = .ok sc₂ := by
  have hid : r.id = id := by simpa using List.find?_some hr
  have hother {p q : Property} (hq : q ∈ propertiesOf sc.catalog tid)
      (hname : q.columnName = p.columnName) (hflag : q.required = true ∨ q.isKey = true) :
      p.columnName ≠ col := by
    intro heq
    rcases hfree q hq (hname.trans heq) with ⟨hreq, hkey⟩
    simp [hreq, hkey] at hflag
  unfold updateTyped
  rw [hr₁, htable]
  dsimp only
  split_ifs with hrequired hunique
  · rcases List.any_eq_true.mp hrequired with ⟨p, hp, hnull⟩
    rcases Bool.and_eq_true_iff.mp hnull with ⟨hreq, hnull⟩
    rcases hprops p hp (.inl hreq) with ⟨q, hq, hname, hreq', -⟩
    have hne := hother hq hname (.inl (hreq'.trans hreq))
    have hnull : (f r₁).col p.columnName = .null := of_decide_eq_true hnull
    rw [hf _ _ hne, hcol _ hne, ← hname] at hnull
    exact absurd hnull (hmeets.required q hq (hreq'.trans hreq))
  · rcases List.any_eq_true.mp hunique with ⟨p, hp, hdup⟩
    rcases Bool.and_eq_true_iff.mp hdup with ⟨hdup, hsame⟩
    rcases Bool.and_eq_true_iff.mp hdup with ⟨hkey, hnull⟩
    rcases hprops p hp (.inr hkey) with ⟨q, hq, hname, -, hkey'⟩
    have hne := hother hq hname (.inr (hkey'.trans hkey))
    have hnull : ¬ (f r₁).col p.columnName = .null := of_decide_eq_true hnull
    rw [hf _ _ hne, hcol _ hne, ← hname] at hnull
    rcases List.any_eq_true.mp hsame with ⟨w, hw, hsame⟩
    rcases Bool.and_eq_true_iff.mp hsame with ⟨hwid, hwcol⟩
    have hwid : w.id ≠ id := of_decide_eq_true hwid
    have hwcol : w.col p.columnName = (f r₁).col p.columnName := of_decide_eq_true hwcol
    have hwmem : (table, w) ∈ sc₁.tables := by
      rcases List.mem_map.mp hw with ⟨x, hx, rfl⟩
      rcases List.mem_filter.mp hx with ⟨hmem, ht⟩
      obtain rfl : x.1 = table := of_decide_eq_true ht
      exact hmem
    rcases hfrom table w hwmem with ⟨w₀, hw₀, hid₀, hcol₀⟩
    rw [hcol₀ _ hne, hf _ _ hne, hcol _ hne, ← hname] at hwcol
    exact absurd hwcol (hmeets.keys q hq (hkey'.trans hkey) hnull w₀ hw₀ (by
      rw [← hid₀, hid]
      exact hwid))
  · exact ⟨_, rfl⟩

/-- The only column the plan of one member assigns is the one of its key. -/
theorem planned_columns (hplan : Planned s tid [(key, v)] sc sc₁ plan)
    (htid : tid ∈ ogSubtypes sc.catalog tid)
    (hnames : ((propertiesOf sc.catalog tid).map (·.name)).Nodup) :
    (plan.columns.map (·.1)).Nodup ∧
      ∀ c ∈ plan.columns.map (·.1), c = columnOf s sc.catalog tid key := by
  have hkeys : ([(key, v)].map (·.1)).Nodup := List.nodup_singleton key
  have hnames₁ := hplan.nodup_names hkeys htid hnames
  have hname : ∀ p ∈ (propertiesOf sc₁.catalog tid).filter fun p =>
      ((Json.obj [(key, v)]).get? p.name).isSome, p.name = key := by
    intro p hp
    have hsome := (List.mem_filter.mp hp).2
    rw [get_single] at hsome
    split_ifs at hsome with heq
    · exact heq.symm
    · cases hsome
  rw [hplan.columns]
  constructor
  · refine List.Nodup.map_on (fun p hp q hq _ => ?_) ((List.Nodup.of_map _ hnames₁).filter _)
    exact List.inj_on_of_nodup_map hnames₁ (List.mem_filter.mp hp).1 (List.mem_filter.mp hq).1
      ((hname p hp).trans (hname q hq).symm)
  · intro c hc
    rcases List.mem_map.mp hc with ⟨p, hp, rfl⟩
    have hfound := property?_of_mem hnames₁ (List.mem_filter.mp hp).1
    rw [hname p hp] at hfound
    exact (hplan.column hkeys htid (List.mem_singleton_self (key, v)) hfound).1

/-- An instance of which a session may write a property, in a store that keeps its
constraints: none of them is on the column of the property. -/
structure Writable (s : Session) (st : Store) (x : Entity) (key : String) : Prop where
  registered : Registered st x
  labelled : idType (idOf x) ∈ ogSubtypes st.schema.catalog (idType (idOf x))
  names : ((propertiesOf st.schema.catalog (idType (idOf x))).map (·.name)).Nodup
  row : ∃ table r, storageTable st.schema.catalog (idType (idOf x)) = some table ∧
    table.typeId = idType (idOf x) ∧ rowAt st.schema table (idOf x) = some r ∧ ExtObject r ∧
      MeetsConstraints st.schema (idType (idOf x)) table r
  free : ∀ p ∈ propertiesOf st.schema.catalog (idType (idOf x)),
    p.columnName = columnOf s st.schema.catalog (idType (idOf x)) key →
      p.required = false ∧ p.isKey = false
  real : virtualSource st.schema.catalog (idType (idOf x)) = none
  allowed : ∀ table cols, s.denied table .set cols = none
  unreserved : isReservedKey key = false

/-- The key has the value, at the type of its column, or as it is without one. -/
def Stored (s : Session) (st : Store) (x : Entity) (key : String) (v : Json) (st' : Store) :
    Prop :=
  match columnType s st.schema.catalog (idType (idOf x)) key v with
  | none => propertyMap st' x key = some v
  | some dtype => ∃ val, columnValue s dtype (.obj [(key, v)]) key = .ok val ∧
      propertyMap st' x key = nonNull (toJson val)

/-- A property that the data leave room for is written, and read back. -/
theorem exists_writeProps {st : Store} {x : Entity} (hw : Writable s st x key) (htext : Texts s)
    (hmove : s.canChangeSchema = true → Movable s st.schema (idType (idOf x)) key v)
    (hread : Readable s st.schema.catalog (idType (idOf x)) key v)
    (hroom : ∀ p, property? st.schema.catalog (idType (idOf x)) key = some p →
      ∀ table r, storageTable st.schema.catalog (idType (idOf x)) = some table →
        rowAt st.schema table (idOf x) = some r → extGet r key = none) :
    ∃ sc', PropertyMaps.writeProps s st.schema x (.obj [(key, v)]) = .ok sc' ∧
      Stored s st x key v { st with schema := sc' } := by
  rcases hw.row with ⟨table, r, htable, htypeId, hr, hobject, hmeets⟩
  have hkeys : ([(key, v)].map (·.1)).Nodup := List.nodup_singleton key
  rcases exists_planProps hw.labelled hw.names hw.unreserved htext hmove hread with
    ⟨sc₁, plan, hplan, hfrom⟩
  have hplanned := planProps_eq_ok hplan
  rcases declareNewProps_eq_ok hw.labelled hplanned.declared with ⟨hev, hprops, -⟩
  rcases hev.rows table _ r hr with ⟨r₁, hr₁, hkept⟩
  rcases planned_columns hplanned hw.labelled hw.names with ⟨hnodup, honly⟩
  have hpromoted : ∀ c, c ≠ columnOf s st.schema.catalog (idType (idOf x)) key →
      c ∉ (promoted s st.schema.catalog (idType (idOf x)) [(key, v)]).map fun kv =>
        columnOf s st.schema.catalog (idType (idOf x)) kv.1 := by
    intro c hc hmem
    rcases List.mem_map.mp hmem with ⟨kv, hkv, rfl⟩
    obtain rfl := List.mem_singleton.mp (promoted_sublist.subset hkv)
    exact hc rfl
  have hupdate : ∃ sc₂, updateTyped sc₁ table (idOf x) (assign plan (.obj [(key, v)])) = .ok sc₂ :=
    exists_updateTyped (fun q c hc => by
        rw [assign_col, foldl_setCol_of_not_mem fun hmem => hc (honly c hmem)])
      htypeId hr hmeets hfrom hr₁ (fun c hc => hkept.col c (hpromoted c hc))
      (fun p hp hflag => by
        rw [hprops] at hp
        exact constrained_of_foldl hp hflag) hw.free
  have hinner : ∃ sc', setPropsInner s st.schema (idOf x) (.obj [(key, v)]) = .ok sc' := by
    rcases hupdate with ⟨sc₂, hsc₂⟩
    have hentity : entityTable st.schema.catalog (idOf x) = .ok table := by
      rw [entityTable, htable]
    have hcheck : checkWrite s sc₁.catalog (idType (idOf x)) table .set (writtenCols [] plan) =
        .ok ⟨⟩ := by rw [checkWrite, hw.allowed]
    by_cases hempty : plan.columns.isEmpty ∧ plan.extNeeded = false
    · refine ⟨sc₁, bind_eq_ok.mpr ⟨table, hentity, bind_eq_ok.mpr ⟨(sc₁, plan), hplan,
        bind_eq_ok.mpr ⟨_, hcheck, ?_⟩⟩⟩⟩
      rw [if_pos hempty]
      rfl
    · refine ⟨sc₂, bind_eq_ok.mpr ⟨table, hentity, bind_eq_ok.mpr ⟨(sc₁, plan), hplan,
        bind_eq_ok.mpr ⟨_, hcheck, ?_⟩⟩⟩⟩
      rw [if_neg hempty]
      exact bind_eq_ok.mpr ⟨⟨⟩, require_eq_ok.mpr hnodup, hsc₂⟩
  rcases hinner with ⟨sc', hinner⟩
  have hwrite : PropertyMaps.writeProps s st.schema x (.obj [(key, v)]) = .ok sc' := by
    cases x with
    | node id =>
        have hreal : virtualSource st.schema.catalog (idType id) = none := hw.real
        refine bind_eq_ok.mpr ⟨⟨⟩, ?_, hinner⟩
        rw [refuseVirtualWrite, hreal]
    | edge id => exact hinner
  refine ⟨sc', hwrite, ?_⟩
  rcases setPropsInner_eq_ok hinner with ⟨table', htable', sc₂, plan', hplan', ⟨tables, rfl⟩, hrow⟩
  rw [htable] at htable'
  obtain rfl := Option.some.inj htable'
  have hev' := (declareNewProps_eq_ok hw.labelled hplan'.declared).1
  rcases hev'.rows table _ r hr with ⟨r₂, hr₂, -⟩
  rcases hrow r₂ hr₂ with ⟨hr', hcols⟩
  have hnames' := hplan'.nodup_names hkeys hw.labelled hw.names
  have htable₂ : storageTable sc₂.catalog (idType (idOf x)) = some table := by
    rw [hev'.storageTable_eq]
    exact htable
  have hreg : Registered { st with schema := { sc₂ with tables := tables } } x := by
    have hreg := hw.registered
    cases x with
    | node id => exact hreg
    | edge id => exact hreg
  have hmap : propertyMap { st with schema := { sc₂ with tables := tables } } x key =
      stored sc₂.catalog (idType (idOf x)) (assign plan' (.obj [(key, v)]) r₂) key := by
    rw [propertyMap_eq hreg htable₂ hr' hnames', if_neg (by simp [hw.unreserved])]
  rcases stored_val_of_mem hplan' hkeys hcols hw.labelled hobject htable hr hr₂
    (List.mem_singleton_self (key, v)) (fun p hp => hroom p hp table r htable hr) with
    ⟨hext, hcolumn⟩
  rw [Stored]
  cases htype : columnType s st.schema.catalog (idType (idOf x)) key v with
  | none => exact hmap.trans (hext htype)
  | some dtype =>
      rcases hcolumn dtype htype with ⟨val, hval, hstored⟩
      exact ⟨val, hval, hmap.trans hstored⟩

end Writes

end OntologicalDb.PlanSuccess
