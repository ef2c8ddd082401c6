import Mathlib
import OntologicalDb.LabelCurrency
import OntologicalDb.SchemaEvolution

/-!
What the operations on types leave of the catalog: the rows of the properties, the
parent links, and the ids that are still to be given.
-/

namespace OntologicalDb.EvolutionFrames

open OntologicalDb.ExceptRules
open OntologicalDb.LabelCurrency
open OntologicalDb.Labeling
open OntologicalDb.SchemaChanges
open OntologicalDb.SchemaEvolution
open OntologicalDb.TypeCatalog
open OntologicalDb.TypedTables (Session columnName)

variable {c c' : Catalog} {o o' : Ontology} {gid : Int}

section Rows

theorem mem_insertProperty {ps : List Property} {p r : Property} :
    r ∈ insertProperty ps p ↔ r ∈ ps ∨ r = p ∧ ∀ q ∈ ps, ¬ (q.typeId = p.typeId ∧ q.name = p.name) := by
  unfold insertProperty
  split
  · next hany =>
    obtain ⟨q, hq, heq⟩ := List.any_eq_true.mp hany
    constructor
    · exact Or.inl
    · rintro (h | ⟨-, hno⟩)
      · exact h
      · exact absurd (of_decide_eq_true heq) (hno q hq)
  · next hnone =>
    rw [List.mem_append, List.mem_singleton]
    refine or_congr_right ⟨fun hr => ⟨hr, fun q hq heq => hnone ?_⟩, fun h => h.1⟩
    exact List.any_eq_true.mpr ⟨q, hq, decide_eq_true heq⟩

theorem subset_insertProperties {ps rows : List Property} : ps ⊆ rows.foldl insertProperty ps := by
  induction rows generalizing ps with
  | nil => exact List.Subset.refl _
  | cons p rows ih => exact fun r hr => ih (mem_insertProperty.mpr (.inl hr))

/-- A row that was not there is the first of its name among those inserted, of a type that
had none of the name. -/
theorem find_insertProperties {ps rows : List Property} {r : Property}
    (h : r ∈ rows.foldl insertProperty ps) :
    r ∈ ps ∨ (rows.find? fun q => q.typeId = r.typeId ∧ q.name = r.name) = some r ∧
      ∀ q ∈ ps, ¬ (q.typeId = r.typeId ∧ q.name = r.name) := by
  induction rows generalizing ps with
  | nil => exact .inl h
  | cons p rows ih =>
      rcases ih h with hr | ⟨hfirst, hno⟩
      · rcases mem_insertProperty.mp hr with hr | ⟨rfl, hno⟩
        · exact .inl hr
        · exact .inr ⟨by simp, hno⟩
      · have hp : ¬ (p.typeId = r.typeId ∧ p.name = r.name) := by
          intro hkey
          by_cases hnew : ∀ q ∈ ps, ¬ (q.typeId = p.typeId ∧ q.name = p.name)
          · exact hno p (mem_insertProperty.mpr (.inr ⟨rfl, hnew⟩)) hkey
          · push Not at hnew
            obtain ⟨q, hq, hid, hname⟩ := hnew
            exact hno q (mem_insertProperty.mpr (.inl hq)) ⟨hid.trans hkey.1, hname.trans hkey.2⟩
        refine .inr ⟨?_, fun q hq => hno q (mem_insertProperty.mpr (.inl hq))⟩
        rw [List.find?_cons_of_neg (by simpa using hp)]
        exact hfirst

theorem mem_insertProperties {ps rows : List Property} {r : Property}
    (h : r ∈ rows.foldl insertProperty ps) :
    r ∈ ps ∨ r ∈ rows ∧ ∀ q ∈ ps, ¬ (q.typeId = r.typeId ∧ q.name = r.name) := by
  rcases find_insertProperties h with h | ⟨hfirst, hno⟩
  · exact .inl h
  · exact .inr ⟨List.mem_of_find?_eq_some hfirst, hno⟩

/-- No row of the type has the name yet. -/
def Unnamed (s : State) (tid : Int) (name : String) : Prop :=
  ∀ q ∈ s.o.catalog.properties, ¬ (q.typeId = tid ∧ q.name = name)

/-- Two searches that each would accept what the other found have found the same. -/
theorem find?_eq_of_accepts {α : Type} {P Q : α → Bool} {xs : List α} {x y : α}
    (hx : xs.find? P = some x) (hy : xs.find? Q = some y) (hPy : P y = true) (hQx : Q x = true) :
    x = y := by
  induction xs with
  | nil => cases hx
  | cons a xs ih =>
      by_cases hP : P a = true
      · rw [List.find?_cons_of_pos hP] at hx
        obtain rfl := Option.some.inj hx
        rw [List.find?_cons_of_pos hQx] at hy
        exact Option.some.inj hy
      · by_cases hQ : Q a = true
        · rw [List.find?_cons_of_pos hQ] at hy
          obtain rfl := Option.some.inj hy
          exact absurd hPy hP
        · rw [List.find?_cons_of_neg hP] at hx
          rw [List.find?_cons_of_neg hQ] at hy
          exact ih hx hy

/-- Every row asked for is there afterwards, under its name. -/
theorem exists_mem_insertProperties (ps : List Property) {rows : List Property} {p : Property}
    (h : p ∈ rows) :
    ∃ r ∈ rows.foldl insertProperty ps, r.typeId = p.typeId ∧ r.name = p.name := by
  induction rows generalizing ps with
  | nil => cases h
  | cons q rows ih =>
      rw [List.foldl_cons]
      rcases List.mem_cons.mp h with rfl | h
      · by_cases hno : ∀ q ∈ ps, ¬ (q.typeId = p.typeId ∧ q.name = p.name)
        · have hp : p ∈ insertProperty ps p := mem_insertProperty.mpr (.inr ⟨rfl, hno⟩)
          exact ⟨p, subset_insertProperties hp, rfl, rfl⟩
        · push Not at hno
          obtain ⟨q, hq, hid, hname⟩ := hno
          have hq : q ∈ insertProperty ps p := mem_insertProperty.mpr (.inl hq)
          exact ⟨q, subset_insertProperties hq, hid, hname⟩
      · exact ih _ h

theorem insertProperty_of_new {ps : List Property} {p : Property}
    (h : ∀ q ∈ ps, ¬ (q.typeId = p.typeId ∧ q.name = p.name)) : insertProperty ps p = ps ++ [p] := by
  unfold insertProperty
  refine if_neg fun hany => ?_
  obtain ⟨q, hq, heq⟩ := List.any_eq_true.mp hany
  exact h q hq (of_decide_eq_true heq)

theorem mem_copies {child : Int} {inherited : List Property} {r : Property} :
    r ∈ copies child inherited ↔ ∃ p ∈ inherited, { p with typeId := child } = r :=
  List.mem_map

end Rows

section Catalogs

theorem relabelGraph_eq (h : relabelGraph c gid = .ok c') : c' = { c with labels := c'.labels } := by
  by_cases hdag : loadDag c gid = []
  · simp only [relabelGraph, hdag, if_true] at h
    obtain rfl := Except.ok.inj h
    rfl
  · simp only [relabelGraph, hdag, if_false] at h
    obtain ⟨labels, -, h⟩ := bind_eq_ok.mp h
    obtain rfl := pure_eq_ok.mp h
    rfl

theorem insertParents_eq {tid : Int} {pids : List Int}
    (h : pids.foldlM (insertParent tid) c = .ok c') :
    c' = { c with typeParent := c.typeParent ++ pids.map fun pid => (tid, pid) } := by
  induction pids generalizing c with
  | nil =>
      obtain rfl := pure_eq_ok.mp h
      simp
  | cons pid pids ih =>
      obtain ⟨mid, hmid, hrest⟩ := foldlM_cons_eq_ok.mp h
      obtain rfl := insertParent_eq_ok hmid
      rw [ih hrest]
      simp

/-- A new type: a row under the next id, its links, and what is done besides. -/
theorem createType_eq_ok {name : String} {kind : Kind} {parents : List String} {isAbstract : Bool}
    {rest : Rest} (h : SchemaChanges.createType o gid name kind parents isAbstract rest = .ok o') :
    ∃ pids c₁, parents.mapM (parentId o.catalog gid kind) = .ok pids ∧
      rest.run { o.catalog with
        types := o.catalog.types ++
          [⟨o.nextTypeId, gid, name, kind, instanceTable kind isAbstract o.nextTypeId⟩]
        typeParent := o.catalog.typeParent ++ pids.map fun pid => (o.nextTypeId, pid) } = .ok c₁ ∧
      relabelGraph c₁ gid = .ok o'.catalog ∧ o'.nextTypeId = o.nextTypeId + 1 := by
  simp only [SchemaChanges.createType] at h
  obtain ⟨-, -, h⟩ := bind_eq_ok.mp h
  obtain ⟨pids, hpids, h⟩ := bind_eq_ok.mp h
  obtain ⟨⟨o₁, tid⟩, hins, h⟩ := bind_eq_ok.mp h
  obtain ⟨c₂, hlinks, h⟩ := bind_eq_ok.mp h
  obtain ⟨c₃, hrest, h⟩ := bind_eq_ok.mp h
  obtain ⟨c₄, hrel, h⟩ := bind_eq_ok.mp h
  obtain rfl := pure_eq_ok.mp h
  obtain ⟨rfl, rfl⟩ := insertType_eq_ok hins
  obtain rfl := insertParents_eq hlinks
  exact ⟨pids, c₃, hpids, hrest, hrel, rfl⟩

theorem deleteTypes_eq {tids : List Int} (h : tids.foldlM deleteType c = .ok c') :
    c'.types = c.types.filter (fun t => t.typeId ∉ tids) ∧
      c'.typeParent = c.typeParent.filter (fun l => l.1 ∉ tids ∧ l.2 ∉ tids) ∧
      c'.properties = c.properties.filter (fun p => p.typeId ∉ tids) ∧
      c'.temporal = c.temporal.filter (fun t => t ∉ tids) := by
  induction tids generalizing c with
  | nil =>
      obtain rfl := pure_eq_ok.mp h
      simp
  | cons tid tids ih =>
      obtain ⟨mid, hmid, hrest⟩ := foldlM_cons_eq_ok.mp h
      simp only [deleteType] at hmid
      split at hmid
      · cases hmid
      · obtain rfl := Except.ok.inj hmid
        obtain ⟨htypes, hlinks, hprops, htemporal⟩ := ih hrest
        rw [htypes, hlinks, hprops, htemporal]
        simp only [List.filter_filter, List.mem_cons, not_or]
        refine ⟨?_, ?_, ?_, ?_⟩
        all_goals
          refine List.filter_congr fun x _ => ?_
          rw [← Bool.decide_and]
          exact decide_eq_decide.mpr (by tauto)

/-- What `og_drop_type` leaves. -/
theorem dropType_eq_ok {name : String} {cascade : Bool} {instances : List Int → Nat}
    (h : SchemaChanges.dropType o gid name cascade instances = .ok o') :
    ∃ tid c₁, typeId o.catalog gid name = .ok tid ∧
      (ogSubtypes o.catalog tid).foldlM deleteType o.catalog = .ok c₁ ∧
      relabelGraph c₁ gid = .ok o'.catalog ∧ o'.nextTypeId = o.nextTypeId := by
  simp only [SchemaChanges.dropType] at h
  obtain ⟨tid, ht, h⟩ := bind_eq_ok.mp h
  obtain ⟨-, -, h⟩ := bind_eq_ok.mp h
  obtain ⟨c₁, hdel, h⟩ := bind_eq_ok.mp h
  obtain ⟨c₂, hrel, h⟩ := bind_eq_ok.mp h
  obtain rfl := pure_eq_ok.mp h
  exact ⟨tid, c₁, ht, hdel, hrel, rfl⟩

end Catalogs

section Parents

/-- The catalog with a new link, relabelled. -/
theorem Current.linked {c₂ : Catalog} {tid pid : Int} (h : Current o) (ht : tid ∈ graphTypes o.catalog gid)
    (hp : pid ∈ graphTypes o.catalog gid)
    (hrel : relabelGraph { o.catalog with typeParent := o.catalog.typeParent ++ [(tid, pid)] } gid =
      .ok c₂) : Current { o with catalog := c₂ } :=
  ((h.pending gid).link ht hp).relabel hrel

/-- The catalog without a link, relabelled. -/
theorem Current.unlinked {c₂ : Catalog} {tid pid : Int} (h : Current o)
    (hgraph : ∀ g, tid ∈ graphTypes o.catalog g → g = gid)
    (hrel : relabelGraph { o.catalog with
      typeParent := o.catalog.typeParent.filter fun l => l ≠ (tid, pid) } gid = .ok c₂) :
    Current { o with catalog := c₂ } := by
  by_cases hmem : tid ∈ graphTypes o.catalog gid
  · exact ((h.pending gid).unlink pid hmem).relabel hrel
  · -- what is no type of the graph has no links
    have hself : o.catalog.typeParent.filter (fun l => l ≠ (tid, pid)) = o.catalog.typeParent := by
      refine List.filter_eq_self.mpr fun l hl => decide_eq_true ?_
      rintro rfl
      obtain ⟨g, ht, -⟩ := h.wellFormed.parents _ hl
      exact hmem (hgraph g ht ▸ ht)
    rw [hself] at hrel
    exact (h.pending gid).relabel hrel

end Parents

section Tables

variable {s : State} {tid sub : Int}

@[simp] theorem enableTable_o : (enableTable s sub).o = s.o := by
  unfold enableTable
  split <;> rfl

@[simp] theorem enableTable_changes : (enableTable s sub).changes = s.changes := by
  unfold enableTable
  split <;> rfl

@[simp] theorem enableTable_nextChange : (enableTable s sub).nextChange = s.nextChange := by
  unfold enableTable
  split <;> rfl

@[simp] theorem enableTemporalTable_o : (enableTemporalTable s sub).o = s.o := by
  unfold enableTemporalTable
  split <;> simp

@[simp] theorem enableTemporalTable_changes : (enableTemporalTable s sub).changes = s.changes := by
  unfold enableTemporalTable
  split <;> simp

@[simp] theorem enableTemporalTable_nextChange :
    (enableTemporalTable s sub).nextChange = s.nextChange := by
  unfold enableTemporalTable
  split <;> simp

/-- A loop over tables that leaves catalog and changes alone. -/
theorem foldl_frame {f : State → Int → State} (hf : ∀ s tid, (f s tid).o = s.o ∧
      (f s tid).changes = s.changes ∧ (f s tid).nextChange = s.nextChange) (s : State) (tids : List Int) :
    (tids.foldl f s).o = s.o ∧ (tids.foldl f s).changes = s.changes ∧
      (tids.foldl f s).nextChange = s.nextChange := by
  induction tids generalizing s with
  | nil => exact ⟨rfl, rfl, rfl⟩
  | cons tid tids ih =>
      obtain ⟨ho, hchanges, hnext⟩ := ih (f s tid)
      obtain ⟨ho', hchanges', hnext'⟩ := hf s tid
      exact ⟨ho.trans ho', hchanges.trans hchanges', hnext.trans hnext'⟩

theorem typeRow?_mem {t : TypeRow} (h : typeRow? c tid = some t) : t ∈ c.types ∧ t.typeId = tid :=
  ⟨List.mem_of_find?_eq_some h, by simpa using List.find?_some h⟩

theorem storageTable_mem (h : (storageTable c tid).isSome) : ∃ t ∈ c.types, t.typeId = tid := by
  unfold storageTable at h
  cases hrow : typeRow? c tid with
  | none =>
      rw [hrow] at h
      cases h
  | some t => exact ⟨t, typeRow?_mem hrow⟩

theorem mem_tables : sub ∈ tables c tid ↔ sub ∈ ogSubtypes c tid ∧ (storageTable c sub).isSome := by
  simp [tables]

theorem typeId_mem {name : String} (h : typeId c gid name = .ok tid) :
    ∃ t ∈ c.types, t.typeId = tid := by
  obtain ⟨t, ht, hid, -⟩ := tryTypeId_eq_some (typeId_eq_ok.mp h)
  exact ⟨t, ht, hid⟩

/-- A change of the rows of types that leaves what they are found by. -/
theorem typeRow?_map {f : TypeRow → TypeRow} (hf : ∀ t, (f t).typeId = t.typeId) :
    typeRow? { c with types := c.types.map f } tid = (typeRow? c tid).map f := by
  unfold typeRow?
  rw [List.find?_map]
  simp [hf]

theorem tryTypeId_map {f : TypeRow → TypeRow} {name : String}
    (hf : ∀ t, (f t).typeId = t.typeId ∧ (f t).graphId = t.graphId ∧ (f t).name = t.name) :
    tryTypeId { c with types := c.types.map f } gid name = tryTypeId c gid name := by
  unfold tryTypeId
  rw [List.find?_map]
  simp only [Function.comp_def, (hf _).2.1, (hf _).2.2, Option.map_map, (hf _).1]

theorem storageTable_congr (h : c'.types = c.types) (tid : Int) :
    storageTable c' tid = storageTable c tid := by
  simp only [storageTable, typeRow?, h]

theorem storageTable_append {r : TypeRow} (h : c'.types = c.types ++ [r]) (hne : tid ≠ r.typeId) :
    storageTable c' tid = storageTable c tid := by
  have hrow : typeRow? c' tid = typeRow? c tid := by
    unfold typeRow?
    rw [h, List.find?_append, List.find?_cons_of_neg (by simpa using hne.symm)]
    simp
  rw [storageTable, hrow, storageTable]

theorem storageTable_new {r : TypeRow} (h : c'.types = c.types ++ [r])
    (hfresh : ∀ t ∈ c.types, t.typeId < r.typeId) : storageTable c' r.typeId = r.storageTable := by
  have hnone : c.types.find? (fun t => t.typeId = r.typeId) = none := by
    rw [List.find?_eq_none]
    intro t ht
    simpa using (hfresh t ht).ne
  rw [storageTable, typeRow?, h, List.find?_append, hnone]
  simp

/-- The tables of the types that are left. -/
theorem storageTable_filter {gone : List Int} (h : c'.types = c.types.filter fun t => t.typeId ∉ gone)
    (hsome : (storageTable c' tid).isSome) : tid ∉ gone ∧ storageTable c' tid = storageTable c tid := by
  obtain ⟨t, ht, rfl⟩ := storageTable_mem hsome
  rw [h] at ht
  have hkept := of_decide_eq_true (List.mem_filter.mp ht).2
  refine ⟨hkept, ?_⟩
  have hrow : typeRow? c' t.typeId = typeRow? c t.typeId := by
    unfold typeRow?
    rw [h, List.find?_filter]
    congr 1
    funext r
    by_cases hr : r.typeId = t.typeId
    · simp [hr, hkept]
    · simp [hr]
  rw [storageTable, hrow, storageTable]

theorem tryTypeId_giveTable (table : StorageTable) (name : String) :
    tryTypeId (giveTable s tid table).o.catalog gid name = tryTypeId s.o.catalog gid name := by
  refine tryTypeId_map fun t => ?_
  split <;> exact ⟨rfl, rfl, rfl⟩

/-- A type without a table had none before another got one. -/
theorem storageTable_giveTable_none {table : StorageTable}
    (h : storageTable (giveTable s tid table).o.catalog sub = none) :
    storageTable s.o.catalog sub = none := by
  have hmap : typeRow? (giveTable s tid table).o.catalog sub = (typeRow? s.o.catalog sub).map
      fun t => if t.typeId = tid then { t with storageTable := some table } else t := by
    refine typeRow?_map fun t => ?_
    split <;> rfl
  unfold storageTable at h ⊢
  rw [hmap] at h
  cases hrow : typeRow? s.o.catalog sub with
  | none => rfl
  | some t =>
      rw [hrow] at h
      simp only [Option.map_some, Option.bind_some] at h ⊢
      split at h
      · cases h
      · exact h

/-- What `og_add_property` adds: a row to the type and to each table below it that has none
of the name, and a column to each of the tables. -/
theorem addProperty_eq_ok {s' : State} {session : Session} {typeName prop dtype : String}
    (h : SchemaEvolution.addProperty session s gid typeName prop dtype = .ok s') :
    ∃ tid, typeId s.o.catalog gid typeName = .ok tid ∧
      (∀ p ∈ s.o.catalog.properties, ¬ (p.typeId = tid ∧ p.name = prop)) ∧
      s' = { s.withProperties
        (((tid :: tables s.o.catalog tid).map fun sub =>
          (⟨sub, prop, dtype, columnName session prop, false, false⟩ : Property)).foldl
            insertProperty s.o.catalog.properties) with
        columns := (tables s.o.catalog tid).foldl (fun cols sub => syncHistory s.histories sub
          (addColumn (current sub) (columnName session prop) dtype cols)) s.columns } := by
  simp only [SchemaEvolution.addProperty] at h
  obtain ⟨tid, ht, h⟩ := bind_eq_ok.mp h
  obtain ⟨_, hnew, h⟩ := bind_eq_ok.mp h
  have hnew := require_eq_ok.mp hnew
  obtain rfl := pure_eq_ok.mp h
  refine ⟨tid, ht, hnew, ?_⟩
  rw [List.map_cons, List.foldl_cons, insertProperty_of_new hnew]

theorem analyse_typeId {id : Nat} {spec : Spec} {report : Report}
    (h : analyse c gid id spec = .ok report) : typeId c gid spec.type = .ok report.typeId := by
  unfold analyse at h
  obtain ⟨tid, ht, h⟩ := bind_eq_ok.mp h
  suffices hid : report.typeId = tid by rw [ht, hid]
  cases spec with
  | addProperty type prop dtype => rw [← pure_eq_ok.mp h]
  | dropProperty type prop =>
      iterate 2 obtain ⟨_, -, h⟩ := bind_eq_ok.mp h
      rw [← pure_eq_ok.mp h]
  | renameProperty type prop new =>
      iterate 4 obtain ⟨_, -, h⟩ := bind_eq_ok.mp h
      rw [← pure_eq_ok.mp h]
  | alterPropertyType type prop toSql =>
      iterate 3 obtain ⟨_, -, h⟩ := bind_eq_ok.mp h
      rw [← pure_eq_ok.mp h]
  | setRequired type prop | addUnique type prop | renameType type new =>
      obtain ⟨_, -, h⟩ := bind_eq_ok.mp h
      rw [← pure_eq_ok.mp h]
  | addParent type parent =>
      iterate 5 obtain ⟨_, -, h⟩ := bind_eq_ok.mp h
      rw [← pure_eq_ok.mp h]
  | removeParent type parent =>
      iterate 3 obtain ⟨_, -, h⟩ := bind_eq_ok.mp h
      rw [← pure_eq_ok.mp h]

end Tables

section Phases

variable {s s' : State} {ch : Change} {id : Nat}

theorem change_eq_ok (h : s.change id = .ok ch) : ch ∈ s.changes ∧ ch.id = id := by
  unfold State.change at h
  split at h
  · next found hfound =>
    obtain rfl := Except.ok.inj h
    exact ⟨List.mem_of_find?_eq_some hfound, by simpa using List.find?_some hfound⟩
  · cases h

theorem finishValidation_eq_ok (h : finishValidation s ch = .ok s') : s' = s := by
  unfold finishValidation at h
  split at h
  · obtain ⟨tid, -, h⟩ := bind_eq_ok.mp h
    obtain ⟨-, -, h⟩ := bind_eq_ok.mp h
    exact (pure_eq_ok.mp h).symm
  · exact (pure_eq_ok.mp h).symm

theorem deleteName_subset {subs : List Int} {name : String} :
    deleteName c subs name ⊆ c.properties := fun _ hp => (List.mem_filter.mp hp).1

theorem step_expand {session : Session} (h : step s (.expand session id) = .ok s') :
    ∃ ch s₁, s.change id = .ok ch ∧ ch.phase ∈ [Phase.planned] ∧
      expand session s ch = .ok s₁ ∧ s' = s₁.save id .expanded := by
  obtain ⟨ch, hch, h⟩ := bind_eq_ok.mp h
  obtain ⟨_, hphase, h⟩ := bind_eq_ok.mp h
  obtain ⟨s₁, hexpand, h⟩ := bind_eq_ok.mp h
  exact ⟨ch, s₁, hch, require_eq_ok.mp hphase, hexpand, (pure_eq_ok.mp h).symm⟩

theorem step_migrate (h : step s (.migrate id) = .ok s') :
    ∃ ch, s.change id = .ok ch ∧ ch.phase ∈ [Phase.expanded, .migrating] ∧
      s' = s.save id .migrating := by
  obtain ⟨ch, hch, h⟩ := bind_eq_ok.mp h
  obtain ⟨_, hphase, h⟩ := bind_eq_ok.mp h
  exact ⟨ch, hch, require_eq_ok.mp hphase, (pure_eq_ok.mp h).symm⟩

/-- A validation that finds violations leaves everything as it was. -/
theorem step_validate {violations : Nat} (h : step s (.validate id violations) = .ok s') :
    ∃ ch, s.change id = .ok ch ∧ ch.phase ∈ [Phase.expanded, .migrating, .validated] ∧
      (finishValidation s ch = .ok s ∧ s' = s.save id .validated ∨ s' = s) := by
  obtain ⟨ch, hch, h⟩ := bind_eq_ok.mp h
  obtain ⟨_, hphase, h⟩ := bind_eq_ok.mp h
  refine ⟨ch, hch, require_eq_ok.mp hphase, ?_⟩
  split at h
  · obtain ⟨s₁, hfinish, hsave⟩ := bind_eq_ok.mp h
    obtain rfl := finishValidation_eq_ok hfinish
    exact .inl ⟨hfinish, (pure_eq_ok.mp hsave).symm⟩
  · exact .inr (pure_eq_ok.mp h).symm

theorem step_contract (h : step s (.contract id) = .ok s') :
    ∃ ch s₁, s.change id = .ok ch ∧ ch.phase ∈ [Phase.validated] ∧
      contract s ch = .ok s₁ ∧ s' = s₁.save id .contracted := by
  obtain ⟨ch, hch, h⟩ := bind_eq_ok.mp h
  obtain ⟨_, hphase, h⟩ := bind_eq_ok.mp h
  obtain ⟨s₁, hcontract, h⟩ := bind_eq_ok.mp h
  exact ⟨ch, s₁, hch, require_eq_ok.mp hphase, hcontract, (pure_eq_ok.mp h).symm⟩

/-- A change that was only planned has nothing to undo. -/
theorem step_abort (h : step s (.abort id) = .ok s') :
    ∃ ch, s.change id = .ok ch ∧ (ch.phase = .planned ∧ s' = s.save id .aborted ∨
      ch.phase ≠ .planned ∧ ∃ s₁, abort s ch = .ok s₁ ∧ s' = s₁.save id .aborted) := by
  obtain ⟨ch, hch, h⟩ := bind_eq_ok.mp h
  obtain ⟨_, -, h⟩ := bind_eq_ok.mp h
  refine ⟨ch, hch, ?_⟩
  split at h
  · next hplanned => exact .inl ⟨hplanned, (pure_eq_ok.mp h).symm⟩
  · next hphase =>
    obtain ⟨s₁, habort, h⟩ := bind_eq_ok.mp h
    exact .inr ⟨hphase, s₁, habort, (pure_eq_ok.mp h).symm⟩

end Phases

section Growth

/-- Types and links are added, and the properties and the temporal types stay. -/
structure Grows (o o' : Ontology) : Prop where
  properties : o'.catalog.properties = o.catalog.properties
  temporal : o'.catalog.temporal = o.catalog.temporal
  typeParent : o.catalog.typeParent ⊆ o'.catalog.typeParent
  nextTypeId : o.nextTypeId ≤ o'.nextTypeId
  fresh : (∀ t ∈ o.catalog.types, t.typeId < o.nextTypeId) →
    ∀ t ∈ o'.catalog.types, t.typeId < o'.nextTypeId

theorem Grows.refl (o : Ontology) : Grows o o := ⟨rfl, rfl, List.Subset.refl _, le_rfl, id⟩

theorem Grows.trans {o₁ o₂ o₃ : Ontology} (h : Grows o₁ o₂) (h' : Grows o₂ o₃) : Grows o₁ o₃ :=
  ⟨h'.properties.trans h.properties, h'.temporal.trans h.temporal,
    List.Subset.trans h.typeParent h'.typeParent, h.nextTypeId.trans h'.nextTypeId, fun hfresh => h'.fresh (h.fresh hfresh)⟩

theorem Grows.foldlM {α : Type} {f : Ontology → α → Except String Ontology}
    (hf : ∀ o x o', f o x = .ok o' → Grows o o') {xs : List α} (h : xs.foldlM f o = .ok o') :
    Grows o o' := by
  induction xs generalizing o with
  | nil =>
      obtain rfl := pure_eq_ok.mp h
      exact .refl o
  | cons x xs ih =>
      obtain ⟨mid, hmid, hrest⟩ := foldlM_cons_eq_ok.mp h
      exact (hf _ _ _ hmid).trans (ih hrest)

theorem Grows.relabel (h : relabelGraph o.catalog gid = .ok c') : Grows o { o with catalog := c' } := by
  rw [relabelGraph_eq h]
  exact ⟨rfl, rfl, List.Subset.refl _, le_rfl, id⟩

theorem fresh_append (hfresh : ∀ t ∈ c.types, t.typeId < o.nextTypeId) {r : TypeRow}
    (hr : r.typeId = o.nextTypeId) : ∀ t ∈ c.types ++ [r], t.typeId < o.nextTypeId + 1 := by
  intro t ht
  rcases List.mem_append.mp ht with ht | ht
  · exact (hfresh t ht).trans (Int.lt_succ _)
  · obtain rfl := List.mem_singleton.mp ht
    omega

theorem Grows.insertType {name : String} {kind : Kind} {table : Int → Option StorageTable} {tid : Int}
    (h : insertType o gid name kind table = .ok (o', tid)) : Grows o o' := by
  obtain ⟨rfl, rfl⟩ := insertType_eq_ok h
  exact ⟨rfl, rfl, List.Subset.refl _, (Int.lt_succ _).le, fun hfresh => fresh_append hfresh rfl⟩

theorem Grows.createType {name : String} {kind : Kind} {parents : List String} {isAbstract : Bool}
    (h : SchemaChanges.createType o gid name kind parents isAbstract Rest.none = .ok o') :
    Grows o o' := by
  obtain ⟨pids, c₁, -, hrest, hrel, hnext⟩ := createType_eq_ok h
  obtain rfl := Except.ok.inj hrest
  have hcat := relabelGraph_eq hrel
  refine ⟨?_, ?_, ?_, by omega, fun hfresh => ?_⟩
  · rw [hcat]
  · rw [hcat]
  · rw [hcat]
    exact List.subset_append_left _ _
  · rw [hcat, hnext]
    exact fresh_append hfresh rfl

theorem Grows.ensureHasType (h : SchemaChanges.ensureHasType o gid = .ok o') : Grows o o' := by
  simp only [SchemaChanges.ensureHasType] at h
  split at h
  · obtain rfl := Except.ok.inj h
    exact .refl o
  · obtain ⟨⟨o₁, tid⟩, hins, h⟩ := bind_eq_ok.mp h
    obtain ⟨c₁, hrel, h⟩ := bind_eq_ok.mp h
    obtain rfl := pure_eq_ok.mp h
    exact (Grows.insertType hins).trans (.relabel hrel)

theorem Grows.declareShell {d : TypeDef} (h : declareShell gid o d = .ok o') : Grows o o' := by
  simp only [SchemaChanges.declareShell] at h
  split at h
  · obtain ⟨k, -, h⟩ := bind_eq_ok.mp h
    obtain ⟨-, -, h⟩ := bind_eq_ok.mp h
    obtain rfl := pure_eq_ok.mp h
    exact .refl o
  · obtain ⟨⟨o₁, tid⟩, hins, h⟩ := bind_eq_ok.mp h
    obtain rfl := pure_eq_ok.mp h
    exact .insertType hins

theorem Grows.linkSub {acc acc' : Catalog × Bool} {d : TypeDef} (h : linkSub gid acc d = .ok acc') :
    Grows { o with catalog := acc.1 } { o with catalog := acc'.1 } := by
  simp only [SchemaChanges.linkSub] at h
  split at h
  · obtain rfl := Except.ok.inj h
    exact .refl _
  · obtain ⟨tid, -, h⟩ := bind_eq_ok.mp h
    obtain ⟨pid, -, h⟩ := bind_eq_ok.mp h
    obtain ⟨pk, -, h⟩ := bind_eq_ok.mp h
    obtain ⟨-, -, h⟩ := bind_eq_ok.mp h
    split at h
    · obtain rfl := pure_eq_ok.mp h
      exact .refl _
    · obtain rfl := pure_eq_ok.mp h
      exact ⟨rfl, rfl, List.subset_append_left _ _, le_rfl, id⟩

theorem Grows.linkSubs {acc acc' : Catalog × Bool} {defs : List TypeDef}
    (h : defs.foldlM (SchemaChanges.linkSub gid) acc = .ok acc') :
    Grows { o with catalog := acc.1 } { o with catalog := acc'.1 } := by
  induction defs generalizing acc with
  | nil =>
      obtain rfl := pure_eq_ok.mp h
      exact .refl _
  | cons d defs ih =>
      obtain ⟨mid, hmid, hrest⟩ := foldlM_cons_eq_ok.mp h
      exact (Grows.linkSub hmid).trans (ih hrest)

theorem Grows.runDefine {defs : List TypeDef} (h : runDefine o gid defs Rest.none = .ok o') :
    Grows o o' := by
  simp only [SchemaChanges.runDefine] at h
  obtain ⟨o₁, hhas, h⟩ := bind_eq_ok.mp h
  obtain ⟨o₂, hshells, h⟩ := bind_eq_ok.mp h
  obtain ⟨⟨c₃, linked⟩, hlinks, h⟩ := bind_eq_ok.mp h
  obtain ⟨c₄, hrel, h⟩ := bind_eq_ok.mp h
  obtain ⟨c₅, hrest, h⟩ := bind_eq_ok.mp h
  obtain rfl := pure_eq_ok.mp h
  obtain rfl := Except.ok.inj hrest
  have hlinked : Grows o { o₂ with catalog := c₃ } :=
    ((Grows.ensureHasType hhas).trans (.foldlM (fun _ _ _ => .declareShell) hshells)).trans
      (.linkSubs hlinks)
  cases linked with
  | true => exact hlinked.trans (.relabel hrel)
  | false =>
      obtain rfl := Except.ok.inj hrel
      exact hlinked

theorem Grows.ensureType {iri : String} {kind : Kind}
    (h : ensureType gid Rest.none o iri kind = .ok o') : Grows o o' := by
  simp only [SchemaChanges.ensureType] at h
  split at h
  · obtain rfl := Except.ok.inj h
    exact .refl o
  · obtain ⟨o₁, hcreate, h⟩ := bind_eq_ok.mp h
    obtain ⟨tid, -, h⟩ := bind_eq_ok.mp h
    obtain rfl := pure_eq_ok.mp h
    have hgrows := Grows.createType hcreate
    exact ⟨hgrows.properties, hgrows.temporal, hgrows.typeParent, hgrows.nextTypeId, hgrows.fresh⟩

theorem Grows.linkClasses {t : Triple} (h : linkClasses gid Rest.none o t = .ok o') : Grows o o' := by
  simp only [SchemaChanges.linkClasses] at h
  split at h
  · split at h
    · obtain ⟨o₁, hs, h⟩ := bind_eq_ok.mp h
      obtain ⟨o₂, ho, h⟩ := bind_eq_ok.mp h
      have h₂ := (Grows.ensureType hs).trans (.ensureType ho)
      split at h
      · split at h
        · obtain rfl := pure_eq_ok.mp h
          exact h₂
        · obtain rfl := pure_eq_ok.mp h
          exact h₂.trans ⟨rfl, rfl, List.subset_append_left _ _, le_rfl, id⟩
      · obtain rfl := pure_eq_ok.mp h
        exact h₂
    · obtain rfl := Except.ok.inj h
      exact .refl o
  · obtain rfl := Except.ok.inj h
    exact .refl o

theorem Grows.declareTerm {t : Triple} (h : declareTerm gid Rest.none o t = .ok o') : Grows o o' := by
  simp only [SchemaChanges.declareTerm] at h
  split at h
  · split at h
    · split at h
      · exact .ensureType h
      · split at h
        · exact .ensureType h
        · exact Except.ok.inj h ▸ .refl o
    · exact Except.ok.inj h ▸ .refl o
  · exact Except.ok.inj h ▸ .refl o

theorem Grows.declarePlayer {t : Triple} (h : declarePlayer gid Rest.none o t = .ok o') :
    Grows o o' := by
  simp only [SchemaChanges.declarePlayer] at h
  split at h
  · split at h
    · exact .ensureType h
    · exact Except.ok.inj h ▸ .refl o
  · exact Except.ok.inj h ▸ .refl o

theorem Grows.declareInstance {t : Triple} (h : declareInstance gid Rest.none o t = .ok o') :
    Grows o o' := by
  simp only [SchemaChanges.declareInstance] at h
  split at h
  · split at h
    · exact .ensureType h
    · exact Except.ok.inj h ▸ .refl o
  · exact Except.ok.inj h ▸ .refl o

theorem Grows.declareFact {nodes : List String} {t : Triple}
    (h : declareFact gid Rest.none nodes o t = .ok o') : Grows o o' := by
  simp only [SchemaChanges.declareFact] at h
  split at h
  · split at h
    · exact .ensureType h
    · exact Except.ok.inj h ▸ .refl o
  · exact Except.ok.inj h ▸ .refl o

theorem Grows.loadRdf {triples : List Triple} (h : SchemaChanges.loadRdf o gid triples Rest.none = .ok o') :
    Grows o o' := by
  simp only [SchemaChanges.loadRdf] at h
  obtain ⟨o₁, h₁, h⟩ := bind_eq_ok.mp h
  obtain ⟨o₂, h₂, h⟩ := bind_eq_ok.mp h
  obtain ⟨c₃, h₃, h⟩ := bind_eq_ok.mp h
  obtain ⟨o₄, h₄, h⟩ := bind_eq_ok.mp h
  obtain ⟨o₅, h₅, h₆⟩ := bind_eq_ok.mp h
  have hlinked : Grows o o₂ :=
    (Grows.foldlM (fun _ _ _ => .declareTerm) h₁).trans (.foldlM (fun _ _ _ => .linkClasses) h₂)
  have hplayers : Grows { o₂ with catalog := c₃ } o₅ :=
    (Grows.foldlM (fun _ _ _ => .declarePlayer) h₄).trans (.foldlM (fun _ _ _ => .declareInstance) h₅)
  exact (hlinked.trans (.relabel h₃)).trans (hplayers.trans (.foldlM (fun _ _ _ => .declareFact) h₆))

end Growth

section Hierarchy

/-- A change of what types are called or where they are stored. -/
theorem current_mapTypes (h : Current o) {f : TypeRow → TypeRow}
    (hf : ∀ t, (f t).typeId = t.typeId ∧ (f t).graphId = t.graphId) :
    Current { o with catalog := { o.catalog with types := o.catalog.types.map f } } := by
  have hids (g : Int) : graphTypes { o.catalog with types := o.catalog.types.map f } g =
      graphTypes o.catalog g := by
    simp only [graphTypes, List.filter_map, List.map_map, Function.comp_def, (hf _).1, (hf _).2]
  refine ⟨⟨?_, ?_, fun g => ?_⟩, fun t ht => ?_⟩
  · simpa only [List.map_map, Function.comp_def, (hf _).1] using h.wellFormed.typeIds
  · simpa only [hids] using h.wellFormed.parents
  · have hlabelled : LabelledAt o.catalog g := h.wellFormed.labelled g
    exact hlabelled.congr (hids g) rfl rfl
  · obtain ⟨t₀, ht₀, rfl⟩ := List.mem_map.mp ht
    exact (hf t₀).1 ▸ h.fresh t₀ ht₀

variable {g sub sup : Int}

theorem isSubtype_mono (h : IsSubtype c sub sup) (hlinks : c.typeParent ⊆ c'.typeParent) :
    IsSubtype c' sub sup :=
  Relation.ReflTransGen.mono (fun _ _ hl => hlinks hl) _ _ h

/-- Inheritance stays in a graph. -/
theorem isSubtype_graph (hc : WellFormed c) (h : IsSubtype c sub sup) (hsub : sub ∈ graphTypes c g) :
    sup ∈ graphTypes c g := by
  induction h using Relation.ReflTransGen.head_induction_on with
  | refl => exact hsub
  | head hchild _ ih =>
      obtain ⟨g', hchild', hparent⟩ := hc.parents _ hchild
      obtain rfl := hc.graph_unique hchild' ih
      exact hparent

/-- A path through new links passes below one of them. -/
theorem isSubtype_append {new : List (Int × Int)}
    (h : IsSubtype { c with typeParent := c.typeParent ++ new } sub sup) :
    IsSubtype c sub sup ∨ ∃ l ∈ new, IsSubtype c sub l.1 := by
  induction h with
  | refl => exact .inl .refl
  | @tail mid child _ hchild ih =>
      rcases List.mem_append.mp hchild with hold | hnew
      · rcases ih with ih | ⟨l, hl, hmid⟩
        · exact .inl (ih.tail hold)
        · exact .inr ⟨l, hl, hmid.tail hold⟩
      · exact .inr ⟨_, hnew, .refl⟩

/-- A path through new links ends above the last of them, along old links. -/
theorem isSubtype_append_last {new : List (Int × Int)} (hnew : c'.typeParent = c.typeParent ++ new)
    (h : IsSubtype c' sub sup) : IsSubtype c sub sup ∨ ∃ l ∈ new, IsSubtype c l.2 sup := by
  induction h with
  | refl => exact .inl .refl
  | @tail mid child _ hchild ih =>
      rcases ih with ih | ih
      · have hlink : (child, mid) ∈ c.typeParent ++ new := hnew ▸ hchild
        rcases List.mem_append.mp hlink with hold | hlink
        · exact .inl (ih.tail hold)
        · exact .inr ⟨_, hlink, ih⟩
      · exact .inr ih

/-- A path through new links ends above one of them. -/
theorem isSubtype_append_above {new : List (Int × Int)} (hnew : c'.typeParent = c.typeParent ++ new)
    (h : IsSubtype c' sub sup) : IsSubtype c sub sup ∨ ∃ l ∈ new, IsSubtype c' l.2 sup := by
  rcases isSubtype_append_last hnew h with h | ⟨l, hl, habove⟩
  · exact .inl h
  · refine .inr ⟨l, hl, isSubtype_mono habove ?_⟩
    rw [hnew]
    exact List.subset_append_left _ _

/-- Nothing is below what is no type. -/
theorem eq_of_isSubtype_fresh (hc : WellFormed c) (hno : ∀ g, sup ∉ graphTypes c g)
    (h : IsSubtype c sub sup) : sub = sup := by
  rcases Relation.ReflTransGen.cases_head h with heq | ⟨child, hchild, -⟩
  · exact heq.symm
  · obtain ⟨g, -, hsup⟩ := hc.parents _ hchild
    exact absurd hsup (hno g)

theorem not_mem_graphTypes_next (h : Current o) (g : Int) : o.nextTypeId ∉ graphTypes o.catalog g := by
  intro hmem
  obtain ⟨t, ht, -, hid⟩ := mem_graphTypes.mp hmem
  exact (h.fresh t ht).ne hid

/-- The links of a new type add nothing above the others. -/
theorem isSubtype_created {pids : List Int} {a : Int} (h : Current o)
    (hlinks : c'.typeParent = o.catalog.typeParent ++ pids.map fun pid => (o.nextTypeId, pid))
    (hne : sub ≠ o.nextTypeId) (hsub : IsSubtype c' sub a) : IsSubtype o.catalog sub a := by
  have hsub' : IsSubtype { o.catalog with
      typeParent := o.catalog.typeParent ++ pids.map fun pid => (o.nextTypeId, pid) } sub a :=
    isSubtype_mono hsub (by rw [hlinks]; exact List.Subset.refl _)
  rcases isSubtype_append hsub' with hsub' | ⟨l, hl, hbelow⟩
  · exact hsub'
  · obtain ⟨pid, -, rfl⟩ := List.mem_map.mp hl
    exact absurd (eq_of_isSubtype_fresh h.wellFormed (not_mem_graphTypes_next h) hbelow) hne

theorem graphTypes_append {r : TypeRow} (h : c'.types = c.types ++ [r]) (hsub : sub ∈ graphTypes c' g) :
    sub ∈ graphTypes c g ∨ sub = r.typeId := by
  obtain ⟨t, ht, hg, rfl⟩ := mem_graphTypes.mp hsub
  rcases List.mem_append.mp (h ▸ ht) with ht | ht
  · exact .inl (mem_graphTypes.mpr ⟨t, ht, hg, rfl⟩)
  · exact .inr (by rw [List.mem_singleton.mp ht])

theorem mem_ogSupertypes : sup ∈ ogSupertypes c sub ↔ ogIsSubtype c sub sup = true := by
  simp only [ogSupertypes, ogIsSubtype, List.mem_dedup, List.mem_map, List.mem_filter,
    List.any_eq_true, decide_eq_true_eq]
  constructor
  · rintro ⟨a, ⟨ha, d, hd, rfl, hgraph, hlft, hrgt⟩, rfl⟩
    exact ⟨d, hd, a, ha, rfl, rfl, hgraph, hlft, hrgt⟩
  · rintro ⟨d, hd, a, ha, rfl, rfl, hgraph, hlft, hrgt⟩
    exact ⟨a, ⟨ha, d, hd, rfl, hgraph, hlft, hrgt⟩, rfl⟩

theorem isSubtype_of_ogIsSubtype (hc : WellFormed c) (h : ogIsSubtype c sub sup = true) :
    IsSubtype c sub sup := by
  have hlabels := h
  simp only [ogIsSubtype, List.any_eq_true, decide_eq_true_eq] at hlabels
  obtain ⟨d, -, a, ha, -, rfl, -⟩ := hlabels
  exact (ogIsSubtype_iff hc (hc.label_type ha)).mp h

theorem mem_ogSubtypes_iff (hc : WellFormed c) (hsup : sup ∈ graphTypes c g) :
    sub ∈ ogSubtypes c sup ↔ IsSubtype c sub sup :=
  mem_ogSubtypes.trans (ogIsSubtype_iff hc hsup)

/-- Below a subtype are subtypes. -/
theorem ogSubtypes_below (hc : WellFormed c) {tid : Int} (hmem : sup ∈ ogSubtypes c tid)
    (hsub : IsSubtype c sub sup) : sub ∈ ogSubtypes c tid := by
  have habove := mem_ogSubtypes.mp hmem
  have hlabels := habove
  simp only [ogIsSubtype, List.any_eq_true, decide_eq_true_eq] at hlabels
  obtain ⟨d, -, a, ha, -, rfl, -⟩ := hlabels
  refine (mem_ogSubtypes_iff hc (hc.label_type ha)).mpr ?_
  exact (isSubtype_of_ogIsSubtype hc habove).trans hsub

/-- A type is temporal when it or a type above it was made so. -/
theorem isTemporal_iff (hc : WellFormed c) (hsub : sub ∈ graphTypes c g) :
    RowDocuments.isTemporal c sub = true ↔ ∃ a ∈ c.temporal, IsSubtype c sub a := by
  unfold RowDocuments.isTemporal
  simp only [List.any_eq_true, decide_eq_true_eq]
  constructor
  · rintro ⟨a, ha, htemporal⟩
    exact ⟨a, htemporal, isSubtype_of_ogIsSubtype hc (mem_ogSupertypes.mp ha)⟩
  · rintro ⟨a, htemporal, hsub'⟩
    refine ⟨a, mem_ogSupertypes.mpr ?_, htemporal⟩
    exact (ogIsSubtype_iff hc (isSubtype_graph hc hsub' hsub)).mpr hsub'

theorem graphTypes_of_mem {t : TypeRow} (ht : t ∈ c.types) : t.typeId ∈ graphTypes c t.graphId :=
  mem_graphTypes.mpr ⟨t, ht, rfl, rfl⟩

variable {t tid pid : Int}

/-- A type that is new has only its parents' types above it, and itself. -/
theorem above_created {pids : List Int} (h : Current o) (h' : Current o')
    (hlinks : o'.catalog.typeParent =
      o.catalog.typeParent ++ pids.map fun pid => (o.nextTypeId, pid))
    (ht : ∃ g, t ∈ graphTypes o.catalog g) (habove : t ∈ ogSupertypes o'.catalog o.nextTypeId) :
    ∃ pid ∈ pids, t ∈ ogSupertypes o.catalog pid := by
  obtain ⟨g, ht⟩ := ht
  have hsub := isSubtype_of_ogIsSubtype h'.wellFormed (mem_ogSupertypes.mp habove)
  have hfresh := not_mem_graphTypes_next h
  rcases isSubtype_append_last hlinks hsub with hold | ⟨l, hl, hold⟩
  · rcases Relation.ReflTransGen.cases_tail hold with heq | ⟨mid, -, hchild⟩
    · exact absurd (heq ▸ ht) (hfresh g)
    · obtain ⟨g', hmem, -⟩ := h.wellFormed.parents _ hchild
      exact absurd hmem (hfresh g')
  · obtain ⟨pid, hpid, rfl⟩ := List.mem_map.mp hl
    exact ⟨pid, hpid, mem_ogSupertypes.mpr ((ogIsSubtype_iff h.wellFormed ht).mpr hold)⟩

/-- What is above a type of the lower end of a new link is above it or above the upper. -/
theorem above_linked {tid pid sub : Int} (h : Current o) (h' : Current o')
    (hlinks : o'.catalog.typeParent = o.catalog.typeParent ++ [(tid, pid)])
    (ht : ∃ g, t ∈ graphTypes o.catalog g) (habove : t ∈ ogSupertypes o'.catalog sub) :
    t ∈ ogSupertypes o.catalog sub ∨ t ∈ ogSupertypes o.catalog pid := by
  obtain ⟨g, ht⟩ := ht
  have hsub := isSubtype_of_ogIsSubtype h'.wellFormed (mem_ogSupertypes.mp habove)
  have hsupertype {x : Int} (hx : IsSubtype o.catalog x t) : t ∈ ogSupertypes o.catalog x :=
    mem_ogSupertypes.mpr ((ogIsSubtype_iff h.wellFormed ht).mpr hx)
  rcases isSubtype_append_last hlinks hsub with hold | ⟨l, hl, hold⟩
  · exact .inl (hsupertype hold)
  · obtain rfl := List.mem_singleton.mp hl
    exact .inr (hsupertype hold)

/-- What is below the lower end of a new link was below it before. -/
theorem below_linked {tid pid sub : Int} (h : Current o) (h' : Current o')
    (htypes : o'.catalog.types = o.catalog.types)
    (hlinks : o'.catalog.typeParent = o.catalog.typeParent ++ [(tid, pid)])
    (htid : tid ∈ graphTypes o.catalog gid) (hsub : sub ∈ tables o'.catalog tid) :
    sub ∈ tables o.catalog tid := by
  obtain ⟨hbelow, hstorage⟩ := mem_tables.mp hsub
  have hsub' := isSubtype_of_ogIsSubtype h'.wellFormed (mem_ogSubtypes.mp hbelow)
  have hold : IsSubtype o.catalog sub tid := by
    have happended : IsSubtype { o.catalog with typeParent := o.catalog.typeParent ++ [(tid, pid)] } sub tid :=
      isSubtype_mono hsub' (by rw [hlinks]; exact List.Subset.refl _)
    rcases isSubtype_append happended with hold | ⟨l, hl, hold⟩
    · exact hold
    · rw [List.mem_singleton.mp hl] at hold
      exact hold
  refine mem_tables.mpr ⟨(mem_ogSubtypes_iff h.wellFormed htid).mpr hold, ?_⟩
  rw [← storageTable_congr htypes]
  exact hstorage

end Hierarchy

end OntologicalDb.EvolutionFrames
