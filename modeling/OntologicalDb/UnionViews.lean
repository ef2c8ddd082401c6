import Mathlib
import OntologicalDb.AncestorSearch
import OntologicalDb.PropertyColumns
import OntologicalDb.TableEdits

/-!
The union views of types: the columns of every arm and their SQL types, and what keeps
the arms of one view alike while types, properties and parents change.
-/

namespace OntologicalDb.UnionViews

open OntologicalDb.AncestorSearch
open OntologicalDb.EvolutionFrames
open OntologicalDb.ExceptRules
open OntologicalDb.GuardedRuns
open OntologicalDb.LabelCurrency
open OntologicalDb.Labeling
open OntologicalDb.PropertyColumns (kb book ascii)
open OntologicalDb.RowDocuments
open OntologicalDb.SchemaChanges
open OntologicalDb.SchemaEvolution
open OntologicalDb.TableEdits
open OntologicalDb.TypeCatalog
open OntologicalDb.TypedTables

section Views

/-- A column of a select list: its name and its SQL type. -/
abbrev Selected := String × String

/-- Each column once: the first that is seen. -/
def distinctColumns : List String → List Selected → List Selected
  | _, [] => []
  | seen, col :: rest =>
      if col.1 ∈ seen then distinctColumns seen rest
      else col :: distinctColumns (col.1 :: seen) rest

/-- `view_columns` of `view_properties`. -/
def viewColumns (c : Catalog) (tid : Int) : List Selected :=
  distinctColumns [] ((viewProperties c tid).map (·.2))

/-- What the arms of a view read: a table, and twice the history beside a temporal one. -/
def sources (c : Catalog) (tid : Int) (isEdge : Bool) : List Relation :=
  (concreteTables c tid isEdge).flatMap fun sub =>
    if isTemporal c sub.1 then [current sub.1, history sub.1, history sub.1] else [current sub.1]

/-- `own_columns` holds names as they are stored, so none that is too long. -/
def ownType (s : State) (rel : Relation) (column : String) : Option String :=
  if physical column = column then s.columns rel column else none

def header (isEdge : Bool) : List Selected :=
  [("id", "int8"), ("type_id", "int4")] ++ if isEdge then [("src", "int8"), ("dst", "int8")] else []

/-- One arm: a column of the relation, or `NULL` of the type the property has. -/
def arm (s : State) (columns : List Selected) (isEdge : Bool) (rel : Relation) : List Selected :=
  header isEdge ++ columns.map (fun col => (col.1, (ownType s rel col.1).getD col.2)) ++
    [("__ext", "jsonb")]

/-- The select lists of `build_view`; a type without tables has one that selects nothing. -/
def buildView (s : State) (tid : Int) (isEdge : Bool) : List (List Selected) :=
  let columns := viewColumns s.o.catalog tid
  let rels := sources s.o.catalog tid isEdge
  if rels = [] then [header isEdge ++ columns ++ [("__ext", "jsonb")]]
  else rels.map (arm s columns isEdge)

/-- All arms of every view list the same columns in the same order with the same types. -/
def WellTyped (s : State) : Prop :=
  ∀ tid isEdge, ∀ a ∈ buildView s tid isEdge, ∀ b ∈ buildView s tid isEdge, a = b

end Views

section Conditions

variable (s : State)

/-- Two types whose rows some view lists together. -/
def Shares (c : Catalog) (u v : Int) : Prop := ∃ t, u ∈ ogSubtypes c t ∧ v ∈ ogSubtypes c t

/-- A column of the table of a type or of its history. -/
def HasColumn (cols : Columns) (v : Int) (n dtype : String) : Prop :=
  cols (current v) n = some dtype ∨ cols (history v) n = some dtype

def ColumnAt (v : Int) (n dtype : String) : Prop :=
  (storageTable s.o.catalog v).isSome ∧ HasColumn s.columns v n dtype

/-- Where a column of this name is read beside the rows of a type, it has this type. -/
def Told (u : Int) (n dtype : String) : Prop :=
  ∀ v t, Shares s.o.catalog u v → ColumnAt s v n t → t = dtype

/-- Where a property on this column is declared beside a table of the type, it has this type. -/
def Asked (v : Int) (n dtype : String) : Prop :=
  ∀ p ∈ s.o.catalog.properties, Shares s.o.catalog p.typeId v → p.columnName = n → p.dataType = dtype

/-- A new property has the type of its column wherever a view lists both. -/
def FittingAdd (session : Session) (gid : Int) (typeName prop dtype : String) : Prop :=
  ∀ tid, typeId s.o.catalog gid typeName = .ok tid →
    (∀ sub ∈ tid :: tables s.o.catalog tid, Told s sub (columnName session prop) dtype) ∧
      ∀ sub ∈ tables s.o.catalog tid, Asked s sub (physical (columnName session prop)) dtype

/-- Inherited properties have one type on one column, and the type the column has wherever a
view of a type above lists it. -/
def FittingCreate (graph : String) (kind : Kind) (parents : List String) (isAbstract : Bool) : Prop :=
  ∀ gid pids, graphId s.o.catalog graph = .ok gid →
    parents.mapM (parentId s.o.catalog gid kind) = .ok pids →
    (instanceTable kind isAbstract s.o.nextTypeId).isSome →
    ∀ p ∈ pids.flatMap (inheritedProperties s.o.catalog),
      (∀ pid ∈ pids, Told s pid p.columnName p.dataType ∧
        Asked s pid (physical p.columnName) p.dataType) ∧
      ∀ q ∈ pids.flatMap (inheritedProperties s.o.catalog),
        q.columnName = physical p.columnName → q.dataType = p.dataType

/-- What a new parent brings together has one type on one column. -/
def FittingParent (ch : Change) : Prop :=
  let c := s.o.catalog
  let tid := ch.report.typeId
  let pid := ch.report.parentId
  (∀ u ∈ ogSubtypes c tid,
    (∀ p ∈ c.properties, p.typeId = u → Told s pid p.columnName p.dataType) ∧
      ∀ n t, ColumnAt s u n t → Asked s pid n t) ∧
    ∀ p ∈ inheritedProperties c pid,
      (∀ sub ∈ pid :: tables c tid, Told s sub p.columnName p.dataType ∧
        Asked s sub (physical p.columnName) p.dataType) ∧
      ∀ q ∈ inheritedProperties c pid, q.columnName = physical p.columnName → q.dataType = p.dataType

/-- A property that is widened has its column to itself, and meets text elsewhere. -/
def FittingWiden (tid : Int) (prop : String) : Prop :=
  ∀ p, property s.o.catalog tid prop = .ok p →
    ∀ q ∈ s.o.catalog.properties,
      (q.typeId ∈ ogSubtypes s.o.catalog tid ∧ q.name = prop →
        ∀ v t, Shares s.o.catalog q.typeId v → ColumnAt s v q.columnName t →
          t = "text" ∨ v ∈ tables s.o.catalog tid ∧ q.columnName = physical p.columnName) ∧
      (¬ (q.typeId ∈ ogSubtypes s.o.catalog tid ∧ q.name = prop) →
        q.columnName = physical p.columnName →
          ∀ v ∈ tables s.o.catalog tid, Shares s.o.catalog q.typeId v → q.dataType = "text")

/-- Nothing else is declared on the second column of a change of type. -/
def FittingShadow (ch : Change) : Prop :=
  ∀ tid, typeOf s ch = .ok tid → ∀ sub ∈ tables s.o.catalog tid,
    Asked s sub (physical ch.report.shadow) ch.report.toSql

/-- The second column has the new type, and meets it elsewhere. -/
def FittingSwap (ch : Change) : Prop :=
  ∀ tid, typeOf s ch = .ok tid → ∀ q ∈ s.o.catalog.properties,
    (q.typeId ∈ ogSubtypes s.o.catalog tid ∧ q.columnName = ch.report.column →
      ∀ v t, Shares s.o.catalog q.typeId v →
        (v ∉ tables s.o.catalog tid ∧ ColumnAt s v ch.report.column t ∨
          v ∈ tables s.o.catalog tid ∧ ColumnAt s v (physical ch.report.shadow) t) →
        t = ch.report.toSql) ∧
    (¬ (q.typeId ∈ ogSubtypes s.o.catalog tid ∧ q.columnName = ch.report.column) →
      q.columnName = physical ch.report.column →
        ∀ v t, v ∈ tables s.o.catalog tid → Shares s.o.catalog q.typeId v →
          ColumnAt s v (physical ch.report.shadow) t → t = q.dataType)

/-- The conditions under which an operation keeps the arms alike, for the operations on types
and properties and the phases of schema changes. -/
def Fitting (s : State) : Op → Prop
  | .createType graph _ kind parents isAbstract => FittingCreate s graph kind parents isAbstract
  | .addProperty session gid typeName prop dtype => FittingAdd s session gid typeName prop dtype
  | .widen tid prop => FittingWiden s tid prop
  | .expand session id => ∀ ch, s.change id = .ok ch →
      match ch.spec with
      | .addProperty type prop dtype => FittingAdd s session ch.gid type prop dtype
      | .alterPropertyType _ _ _ => FittingShadow s ch
      | _ => True
  | .contract id => ∀ ch, s.change id = .ok ch →
      match ch.spec with
      | .alterPropertyType _ _ _ => FittingSwap s ch
      | .addParent _ _ => FittingParent s ch
      | _ => True
  | .define _ _ | .loadRdf _ _ => False
  | _ => True

end Conditions

section Arms

variable {s : State} {c : Catalog}

theorem mem_distinctColumns {seen : List String} {cols : List Selected} {col : Selected}
    (h : col ∈ distinctColumns seen cols) : col ∈ cols := by
  induction cols generalizing seen with
  | nil => exact h
  | cons first rest ih =>
      rw [distinctColumns] at h
      split at h
      · exact List.mem_cons_of_mem _ (ih h)
      · rcases List.mem_cons.mp h with rfl | h
        · exact List.mem_cons_self ..
        · exact List.mem_cons_of_mem _ (ih h)

/-- Every column of a view is the one of a property of the type or of a type below. -/
theorem mem_viewColumns {tid : Int} {col : Selected} (h : col ∈ viewColumns c tid) :
    ∃ p ∈ c.properties, p.typeId ∈ ogSubtypes c tid ∧ p.columnName = col.1 ∧ p.dataType = col.2 := by
  obtain ⟨entry, hentry, rfl⟩ := List.mem_map.mp (mem_distinctColumns h)
  obtain ⟨name, -, hentry⟩ := List.mem_filterMap.mp hentry
  obtain ⟨found, hfound, rfl⟩ := Option.map_eq_some_iff.mp hentry
  obtain ⟨p, hp, rfl⟩ := Option.map_eq_some_iff.mp hfound
  have hmem := List.mem_reverse.mp (List.mem_of_find?_eq_some hp)
  obtain ⟨hrow, hsub⟩ := List.mem_filter.mp hmem
  exact ⟨p, hrow, of_decide_eq_true hsub, rfl, rfl⟩

/-- A relation that a view reads is of a table at or below its type. -/
theorem mem_sources {tid : Int} {isEdge : Bool} {rel : Relation} (hc : WellFormed c)
    (h : rel ∈ sources c tid isEdge) :
    ∃ v, v ∈ ogSubtypes c tid ∧ (storageTable c v).isSome ∧ (rel = current v ∨ rel = history v) := by
  obtain ⟨⟨sub, table⟩, hsub, hrel⟩ := List.mem_flatMap.mp h
  obtain ⟨hbelow, -, t, ht, rfl, htable⟩ := mem_concreteTables.mp hsub
  refine ⟨t.typeId, mem_ogSubtypes.mpr hbelow, ?_, ?_⟩
  · obtain ⟨t', hfound⟩ : ∃ t', typeRow? c t.typeId = some t' := by
      refine Option.isSome_iff_exists.mp (List.find?_isSome.mpr ⟨t, ht, ?_⟩)
      exact decide_eq_true rfl
    obtain ⟨ht', hid'⟩ := typeRow?_mem hfound
    obtain rfl := List.inj_on_of_nodup_map hc.typeIds ht ht' hid'.symm
    rw [storageTable, hfound, Option.bind_some, htable]
    rfl
  · split at hrel
    · simp only [List.mem_cons, List.not_mem_nil, or_false, or_self] at hrel
      exact hrel
    · exact .inl (List.mem_singleton.mp hrel)

/-- Every property has the type of its column wherever a view lists both. -/
def Fits (s : State) : Prop :=
  ∀ p ∈ s.o.catalog.properties, physical p.columnName = p.columnName →
    Told s p.typeId p.columnName p.dataType

/-- The arms of a view that fits list its columns as the properties have them. -/
theorem arm_of_fits {tid : Int} {isEdge : Bool} {rel : Relation} (h : Fits s)
    (hc : WellFormed s.o.catalog) (hrel : rel ∈ sources s.o.catalog tid isEdge) :
    arm s (viewColumns s.o.catalog tid) isEdge rel =
      header isEdge ++ viewColumns s.o.catalog tid ++ [("__ext", "jsonb")] := by
  have hsame : ∀ col ∈ viewColumns s.o.catalog tid, (ownType s rel col.1).getD col.2 = col.2 := by
    intro col hcol
    obtain ⟨p, hp, hbelow, hname, htype⟩ := mem_viewColumns hcol
    obtain ⟨v, hv, hstorage, hread⟩ := mem_sources hc hrel
    unfold ownType
    split
    · next hfits =>
      cases hown : s.columns rel col.1 with
      | none => rfl
      | some t =>
          rw [← hname] at hfits hown
          have hat : ColumnAt s v p.columnName t := by
            refine ⟨hstorage, ?_⟩
            rcases hread with rfl | rfl
            · exact .inl hown
            · exact .inr hown
          rw [Option.getD_some, ← htype]
          exact h p hp hfits v t ⟨tid, hbelow, hv⟩ hat
    · rfl
  have hmap : (viewColumns s.o.catalog tid).map (fun col => (col.1, (ownType s rel col.1).getD col.2)) =
      viewColumns s.o.catalog tid := by
    refine (List.map_congr_left fun col hcol => ?_).trans (List.map_id _)
    rw [hsame col hcol]
    rfl
  rw [arm, hmap]

theorem wellTyped_of_fits (h : Fits s) (hc : WellFormed s.o.catalog) : WellTyped s := by
  intro tid isEdge a ha b hb
  unfold buildView at ha hb
  dsimp only at ha hb
  split at ha
  · next hnone =>
    rw [if_pos hnone] at hb
    rw [List.mem_singleton.mp ha, List.mem_singleton.mp hb]
  · next hsome =>
    rw [if_neg hsome] at hb
    obtain ⟨rel, hrel, rfl⟩ := List.mem_map.mp ha
    obtain ⟨rel', hrel', rfl⟩ := List.mem_map.mp hb
    rw [arm_of_fits h hc hrel, arm_of_fits h hc hrel']

end Arms

section Columns

variable {cols : Columns} {hs subs : List Int} {v : Int} {n t : String}

/-- A column after a loop that edits the storage tables and brings the histories up to date:
of a table left alone, made by the edit, or left in a history by one the edit took away. -/
theorem hasColumn_synced {e : Int → Columns → Columns} {E : TableColumns → TableColumns}
    (he : EditsCurrent e E) (hnodup : subs.Nodup)
    (hstray : ∀ u n t, cols (history u) n = some t → u ∈ hs)
    (h : HasColumn (subs.foldl (fun cols sub => syncHistory hs sub (e sub cols)) cols) v n t) :
    v ∉ subs ∧ HasColumn cols v n t ∨
      v ∈ subs ∧ (E (cols (current v)) n = some t ∨
        E (cols (current v)) n = none ∧ cols (history v) n = some t) := by
  obtain ⟨hcur, hhist⟩ := foldl_synced he hnodup hs cols v
  unfold HasColumn at h
  rw [hcur, hhist] at h
  by_cases hv : v ∈ subs
  · refine .inr ⟨hv, ?_⟩
    rw [if_pos hv] at h
    rcases h with h | h
    · exact .inl h
    · split at h
      · simp only [synced, Option.or_eq_some_iff] at h
        exact h
      · next hno => exact absurd ⟨hv, hstray v n t h⟩ hno
  · rw [if_neg hv, if_neg fun hand => hv hand.1] at h
    exact .inl ⟨hv, h⟩

/-- Histories that are there are all that such a loop writes. -/
theorem stray_synced {e : Int → Columns → Columns} {E : TableColumns → TableColumns}
    (he : EditsCurrent e E) (hnodup : subs.Nodup)
    (hstray : ∀ u n t, cols (history u) n = some t → u ∈ hs) :
    ∀ u n t, (subs.foldl (fun cols sub => syncHistory hs sub (e sub cols)) cols) (history u) n =
      some t → u ∈ hs := by
  intro u n t h
  obtain ⟨-, hhist⟩ := foldl_synced he hnodup hs cols u
  rw [hhist] at h
  split at h
  · next hboth => exact hboth.2
  · exact hstray u n t h

/-- `ADD COLUMN` leaves the columns there were and one of the new type. -/
theorem hasColumn_added {column dtype : String} (hnodup : subs.Nodup)
    (hstray : ∀ u n t, cols (history u) n = some t → u ∈ hs)
    (h : HasColumn (subs.foldl (fun cols sub => syncHistory hs sub
      (addColumn (current sub) column dtype cols)) cols) v n t) :
    HasColumn cols v n t ∨ v ∈ subs ∧ n = physical column ∧ t = dtype := by
  rcases hasColumn_synced addColumn_edits hnodup hstray h with ⟨-, hold⟩ | ⟨hv, hnew | ⟨-, hold⟩⟩
  · exact .inl hold
  · unfold added at hnew
    split at hnew
    · next hn =>
      cases hcur : cols (current v) n with
      | none =>
          rw [hcur] at hnew
          exact .inr ⟨hv, hn, (Option.some.inj hnew).symm⟩
      | some t' =>
          rw [hcur] at hnew
          exact .inl (.inl (hcur.trans hnew))
    · exact .inl (.inl hnew)
  · exact .inl (.inr hold)

/-- A retyped column has the new type in the table and in its history. -/
theorem hasColumn_retyped {column dtype : String} (hnodup : subs.Nodup)
    (hstray : ∀ u n t, cols (history u) n = some t → u ∈ hs)
    (h : HasColumn (subs.foldl (fun cols sub => syncHistory hs sub
      (retypeColumn (current sub) column dtype cols)) cols) v n t) :
    HasColumn cols v n t ∧ ¬ (v ∈ subs ∧ n = physical column) ∨
      v ∈ subs ∧ n = physical column ∧ t = dtype := by
  rcases hasColumn_synced retypeColumn_edits hnodup hstray h with
    ⟨hv, hold⟩ | ⟨hv, hnew | ⟨hnone, hold⟩⟩
  · exact .inl ⟨hold, fun hand => hv hand.1⟩
  · unfold retyped at hnew
    split at hnew
    · next hn => exact .inr ⟨hv, hn, (Option.some.inj hnew).symm⟩
    · next hn => exact .inl ⟨.inl hnew, fun hand => hn hand.2⟩
  · unfold retyped at hnone
    split at hnone
    · cases hnone
    · next hn => exact .inl ⟨.inr hold, fun hand => hn hand.2⟩

end Columns

section Edits

variable {s s' s₁ : State} {ch : Change}

/-- What carries the views through a run: labels in step with the hierarchy, rows and
histories of types that were given an id, columns of histories that exist, reports on
types of their graph, and columns that fit. -/
structure Inv (s : State) : Prop where
  current : Current s.o
  rows : ∀ p ∈ s.o.catalog.properties, p.typeId < s.o.nextTypeId
  historyIds : ∀ t ∈ s.histories, t < s.o.nextTypeId
  stray : ∀ v n t, s.columns (history v) n = some t → v ∈ s.histories
  reports : ∀ ch ∈ s.changes, ch.report.typeId < s.o.nextTypeId ∧
    ∀ g, ch.report.typeId ∈ graphTypes s.o.catalog g → g = ch.gid
  fits : Fits s

/-- Rows and columns are edited, and the types stay. -/
theorem Inv.edit (h : Inv s) (ps : List Property) (ho : s'.o = (s.withProperties ps).o)
    (hrows : ∀ p ∈ ps, p.typeId < s.o.nextTypeId) (hhist : s'.histories = s.histories)
    (hstray : ∀ v n t, s'.columns (history v) n = some t → v ∈ s.histories)
    (hchanges : s'.changes = s.changes)
    (hfits : ∀ p ∈ ps, physical p.columnName = p.columnName → ∀ v t,
      Shares s.o.catalog p.typeId v → (storageTable s.o.catalog v).isSome →
        HasColumn s'.columns v p.columnName t → t = p.dataType) : Inv s' := by
  have hcur : Current (s.withProperties ps).o := h.current.same ⟨rfl, rfl, rfl⟩
  refine ⟨ho ▸ hcur, ?_, ?_, ?_, ?_, ?_⟩
  · rw [ho]
    exact hrows
  · rw [ho, hhist]
    exact h.historyIds
  · rw [hhist]
    exact hstray
  · rw [ho, hchanges]
    exact h.reports
  · intro p hp hfit v t hshare hat
    obtain ⟨hstorage, hcol⟩ := hat
    rw [ho] at hp hshare hstorage
    exact hfits p hp hfit v t hshare hstorage hcol

/-- Rows are taken away or written under other names, and columns taken away. -/
theorem Inv.shrink {ps : List Property} (h : Inv s) (ho : s'.o = (s.withProperties ps).o)
    (hrows : ∀ p' ∈ ps, ∃ p ∈ s.o.catalog.properties,
      p.typeId = p'.typeId ∧ p.columnName = p'.columnName ∧ p.dataType = p'.dataType)
    (hhist : s'.histories = s.histories) (hchanges : s'.changes = s.changes)
    (hcols : ∀ rel n t, s'.columns rel n = some t → s.columns rel n = some t) : Inv s' := by
  refine h.edit ps ho (fun p' hp' => ?_) hhist (fun v n t hcol => h.stray v n t (hcols _ _ _ hcol)) hchanges
    fun p' hp' hfit v t hshare hstorage hcol => ?_
  · obtain ⟨p, hp, hid, -⟩ := hrows p' hp'
    exact hid ▸ h.rows p hp
  · obtain ⟨p, hp, hid, hname, htype⟩ := hrows p' hp'
    rw [← hid] at hshare
    rw [← hname] at hcol hfit
    rw [← htype]
    exact h.fits p hp hfit v t hshare ⟨hstorage, hcol.imp (hcols _ _ _) (hcols _ _ _)⟩

theorem Inv.addProperty {gid : Int} {session : Session} {typeName prop dtype : String} (h : Inv s)
    (hguard : FittingAdd s session gid typeName prop dtype)
    (hop : SchemaEvolution.addProperty session s gid typeName prop dtype = .ok s') : Inv s' := by
  obtain ⟨tid, ht, -, rfl⟩ := addProperty_eq_ok hop
  obtain ⟨htold, hasked⟩ := hguard tid ht
  have hrow : ∀ p ∈ (tid :: tables s.o.catalog tid).map fun sub =>
      (⟨sub, prop, dtype, columnName session prop, false, false⟩ : Property),
      ∃ sub ∈ tid :: tables s.o.catalog tid,
        p = ⟨sub, prop, dtype, columnName session prop, false, false⟩ := by
    intro p hp
    obtain ⟨sub, hsub, rfl⟩ := List.mem_map.mp hp
    exact ⟨sub, hsub, rfl⟩
  refine h.edit _ rfl (fun p hp => ?_) rfl (stray_synced addColumn_edits (tables_nodup _ _) h.stray) rfl
    fun p hp hfit v t hshare hstorage hcol => ?_
  · rcases mem_insertProperties hp with hp | ⟨hp, -⟩
    · exact h.rows p hp
    · obtain ⟨sub, hsub, rfl⟩ := hrow p hp
      rcases List.mem_cons.mp hsub with rfl | hsub
      · obtain ⟨t, hmem, rfl⟩ := typeId_mem ht
        exact h.current.fresh t hmem
      · obtain ⟨t, hmem, rfl⟩ := storageTable_mem (mem_tables.mp hsub).2
        exact h.current.fresh t hmem
  · have hadded := hasColumn_added (tables_nodup _ _) h.stray hcol
    rcases mem_insertProperties hp with hp | ⟨hp, -⟩
    · rcases hadded with hold | ⟨hv, hn, htype⟩
      · exact h.fits p hp hfit v t hshare ⟨hstorage, hold⟩
      · exact htype.trans (hasked v hv p hp hshare hn).symm
    · obtain ⟨sub, hsub, rfl⟩ := hrow p hp
      rcases hadded with hold | ⟨-, -, htype⟩
      · exact htold sub hsub v t hshare ⟨hstorage, hold⟩
      · exact htype

theorem Inv.widen {tid : Int} {prop : String} (h : Inv s) (hguard : FittingWiden s tid prop)
    (hop : SchemaEvolution.widenProperty s tid prop = .ok s') : Inv s' := by
  simp only [SchemaEvolution.widenProperty] at hop
  obtain ⟨p₀, hp₀, hop⟩ := bind_eq_ok.mp hop
  obtain ⟨-, -, hop⟩ := bind_eq_ok.mp hop
  obtain ⟨-, -, hop⟩ := bind_eq_ok.mp hop
  obtain rfl := pure_eq_ok.mp hop
  refine h.edit _ rfl (fun p' hp' => ?_) rfl (stray_synced retypeColumn_edits (tables_nodup _ _) h.stray) rfl
    fun p' hp' hfit v t hshare hstorage hcol => ?_
  · obtain ⟨p, hp, rfl⟩ := List.mem_map.mp hp'
    have hlt := h.rows p hp
    split <;> exact hlt
  · have hretyped := hasColumn_retyped (tables_nodup _ _) h.stray hcol
    obtain ⟨p, hp, rfl⟩ := List.mem_map.mp hp'
    obtain ⟨htouched, hother⟩ := hguard p₀ hp₀ p hp
    by_cases hcond : p.typeId ∈ ogSubtypes s.o.catalog tid ∧ p.name = prop
    · rw [if_pos hcond] at hfit hshare hretyped ⊢
      rcases hretyped with ⟨hold, hno⟩ | ⟨-, -, htext⟩
      · exact (htouched hcond v t hshare ⟨hstorage, hold⟩).resolve_right hno
      · exact htext
    · rw [if_neg hcond] at hfit hshare hretyped ⊢
      rcases hretyped with ⟨hold, -⟩ | ⟨hv, hn, htext⟩
      · exact h.fits p hp hfit v t hshare ⟨hstorage, hold⟩
      · exact htext.trans (hother hcond hn v hv hshare).symm

theorem Inv.save (h : Inv s) (id : Nat) (phase : Phase) : Inv (s.save id phase) := by
  refine ⟨h.current, h.rows, h.historyIds, h.stray, fun ch' hch' => ?_, h.fits⟩
  obtain ⟨ch, hch, rfl⟩ := List.mem_map.mp hch'
  have hreport := h.reports ch hch
  split <;> exact hreport

theorem Inv.plan {graph : String} {spec : Spec} (h : Inv s)
    (hop : SchemaEvolution.plan s graph spec = .ok s') : Inv s' := by
  simp only [SchemaEvolution.plan] at hop
  obtain ⟨gid, -, hop⟩ := bind_eq_ok.mp hop
  obtain ⟨report, hreport, hop⟩ := bind_eq_ok.mp hop
  obtain rfl := pure_eq_ok.mp hop
  refine ⟨h.current, h.rows, h.historyIds, h.stray, fun ch hch => ?_, h.fits⟩
  rcases List.mem_append.mp hch with hch | hch
  · exact h.reports ch hch
  · obtain rfl := List.mem_singleton.mp hch
    have ht := analyse_typeId hreport
    obtain ⟨t, hmem, hid⟩ := typeId_mem ht
    refine ⟨hid ▸ h.current.fresh t hmem, fun g hg => ?_⟩
    exact (h.current.pending g).graph_unique hg (tryTypeId_mem (typeId_eq_ok.mp ht))

theorem Inv.expand {session : Session} {id : Nat} (h : Inv s) (hch : s.change id = .ok ch)
    (hguard : Fitting s (.expand session id)) (hop : SchemaEvolution.expand session s ch = .ok s₁) :
    Inv s₁ := by
  have hfitting := hguard ch hch
  cases hspec : ch.spec with
  | addProperty type prop dtype =>
      simp only [SchemaEvolution.expand, hspec] at hop hfitting
      exact h.addProperty hfitting hop
  | renameProperty type old new =>
      simp only [SchemaEvolution.expand, hspec] at hop
      obtain ⟨tid, -, hop⟩ := bind_eq_ok.mp hop
      obtain ⟨-, -, hop⟩ := bind_eq_ok.mp hop
      obtain rfl := pure_eq_ok.mp hop
      refine h.shrink rfl (fun p' hp' => ?_) rfl rfl fun _ _ _ hcol => hcol
      rcases List.mem_append.mp hp' with hp' | hp'
      · exact ⟨p', hp', rfl, rfl, rfl⟩
      · obtain ⟨p, hp, rfl⟩ := List.mem_map.mp hp'
        exact ⟨p, (List.mem_filter.mp hp).1, rfl, rfl, rfl⟩
  | alterPropertyType type prop toSql =>
      simp only [SchemaEvolution.expand, hspec] at hop hfitting
      obtain ⟨tid, ht, hop⟩ := bind_eq_ok.mp hop
      obtain ⟨-, -, hop⟩ := bind_eq_ok.mp hop
      obtain rfl := pure_eq_ok.mp hop
      refine h.edit s.o.catalog.properties rfl h.rows rfl
        (stray_synced addColumn_edits (tables_nodup _ _) h.stray) rfl
        fun p hp hfit v t hshare hstorage hcol => ?_
      rcases hasColumn_added (tables_nodup _ _) h.stray hcol with hold | ⟨hv, hn, rfl⟩
      · exact h.fits p hp hfit v t hshare ⟨hstorage, hold⟩
      · exact (hfitting tid ht v hv p hp hshare hn).symm
  | setRequired type prop =>
      simp only [SchemaEvolution.expand, hspec] at hop
      obtain ⟨tid, -, hop⟩ := bind_eq_ok.mp hop
      obtain ⟨-, -, hop⟩ := bind_eq_ok.mp hop
      obtain rfl := pure_eq_ok.mp hop
      exact ⟨h.current, h.rows, h.historyIds, h.stray, h.reports, h.fits⟩
  | dropProperty _ _ | addUnique _ _ | renameType _ _ | addParent _ _ | removeParent _ _ =>
      simp only [SchemaEvolution.expand, hspec] at hop
      obtain rfl := pure_eq_ok.mp hop
      exact h

/-- The swap of the two columns of a change of type. -/
theorem hasColumn_swapped {tids : List Int} {v : Int} {column shadow n t : String} (hnodup : tids.Nodup)
    (hstray : ∀ v n t, s.columns (history v) n = some t → v ∈ s.histories)
    (h : HasColumn ((tids.flatMap (relationsOf s)).foldl (fun cols rel => swapColumn rel column shadow cols)
      s.columns) v n t) :
    HasColumn s.columns v n t ∧ ¬ (v ∈ tids ∧ n = physical column) ∨
      v ∈ tids ∧ n = physical column ∧ HasColumn s.columns v (physical shadow) t := by
  obtain ⟨hcur, hhist⟩ := foldl_relationsOf (s := s) (swapColumn_eq column shadow) hnodup s.columns v
  unfold HasColumn at h
  rw [hcur, hhist] at h
  by_cases hv : v ∈ tids
  · have hswapped {cur : TableColumns} (hcol : swapped column shadow cur n = some t) :
        n = physical column ∧ cur (physical shadow) = some t ∨ n ≠ physical column ∧ cur n = some t := by
      unfold swapped at hcol
      split at hcol
      · next hn => exact .inl ⟨hn, hcol⟩
      · next hn =>
        split at hcol
        · cases hcol
        · exact .inr ⟨hn, hcol⟩
    rw [if_pos hv] at h
    rcases h with h | h
    · rcases hswapped h with ⟨hn, hold⟩ | ⟨hn, hold⟩
      · exact .inr ⟨hv, hn, .inl hold⟩
      · exact .inl ⟨.inl hold, fun hand => hn hand.2⟩
    · split at h
      · rcases hswapped h with ⟨hn, hold⟩ | ⟨hn, hold⟩
        · exact .inr ⟨hv, hn, .inr hold⟩
        · exact .inl ⟨.inr hold, fun hand => hn hand.2⟩
      · next hno => exact absurd ⟨hv, hstray v n t h⟩ hno
  · rw [if_neg hv, if_neg fun hand => hv hand.1] at h
    exact .inl ⟨h, fun hand => hv hand.1⟩

theorem stray_relationsOf {tids : List Int} {F : TableColumns → TableColumns}
    {f : Relation → Columns → Columns}
    (hf : ∀ rel cols r, f rel cols r = if r = rel then F (cols rel) else cols r) (hnodup : tids.Nodup)
    (hstray : ∀ v n t, s.columns (history v) n = some t → v ∈ s.histories) :
    ∀ v n t, ((tids.flatMap (relationsOf s)).foldl (fun cols rel => f rel cols) s.columns) (history v) n =
      some t → v ∈ s.histories := by
  intro v n t h
  obtain ⟨-, hhist⟩ := foldl_relationsOf (s := s) hf hnodup s.columns v
  rw [hhist] at h
  split at h
  · next hboth => exact hboth.2
  · exact hstray v n t h

theorem Inv.contract_alter {type prop toSql : String} (h : Inv s)
    (hspec : ch.spec = .alterPropertyType type prop toSql) (hguard : FittingSwap s ch)
    (hop : SchemaEvolution.contract s ch = .ok s₁) : Inv s₁ := by
  simp only [SchemaEvolution.contract, hspec, contractAlter] at hop
  obtain ⟨tid, ht, hop⟩ := bind_eq_ok.mp hop
  obtain ⟨-, -, hop⟩ := bind_eq_ok.mp hop
  obtain ⟨-, -, hop⟩ := bind_eq_ok.mp hop
  obtain rfl := pure_eq_ok.mp hop
  refine h.edit _ rfl (fun p' hp' => ?_) rfl
    (stray_relationsOf (swapColumn_eq _ _) (tables_nodup _ _) h.stray) rfl
    fun p' hp' hfit v t hshare hstorage hcol => ?_
  · obtain ⟨p, hp, rfl⟩ := List.mem_map.mp hp'
    have hlt := h.rows p hp
    split <;> exact hlt
  · have hswapped := hasColumn_swapped (tables_nodup _ _) h.stray hcol
    obtain ⟨p, hp, rfl⟩ := List.mem_map.mp hp'
    obtain ⟨htouched, hother⟩ := hguard tid ht p hp
    by_cases hcond : p.typeId ∈ ogSubtypes s.o.catalog tid ∧ p.columnName = ch.report.column
    · rw [if_pos hcond] at hfit hshare hswapped ⊢
      refine htouched hcond v t hshare ?_
      rcases hswapped with ⟨hold, hno⟩ | ⟨hv, -, hold⟩
      · refine .inl ⟨fun hv => hno ⟨hv, ?_⟩, hstorage, hcond.2 ▸ hold⟩
        rw [← hcond.2]
        exact hfit.symm
      · exact .inr ⟨hv, hstorage, hold⟩
    · rw [if_neg hcond] at hfit hshare hswapped ⊢
      rcases hswapped with ⟨hold, -⟩ | ⟨hv, hn, hold⟩
      · exact h.fits p hp hfit v t hshare ⟨hstorage, hold⟩
      · exact hother hcond hn v t hv hshare ⟨hstorage, hold⟩

end Edits

section Hierarchies

variable {c c' : Catalog} {o o' : Ontology} {s s' s₁ : State} {u v : Int}

theorem Shares.symm (h : Shares c u v) : Shares c v u := by
  obtain ⟨t, hu, hv⟩ := h
  exact ⟨t, hv, hu⟩

theorem subtype_graph (hc : WellFormed c) {t : Int} (h : u ∈ ogSubtypes c t) :
    ∃ g, t ∈ graphTypes c g := by
  have hlabels := mem_ogSubtypes.mp h
  simp only [ogIsSubtype, List.any_eq_true, decide_eq_true_eq] at hlabels
  obtain ⟨d, -, a, ha, -, rfl, -⟩ := hlabels
  exact ⟨_, hc.label_type ha⟩

/-- Links taken away bring nothing together. -/
theorem ogSubtypes_of_fewer (hc : WellFormed c) (hc' : WellFormed c')
    (hlinks : c'.typeParent ⊆ c.typeParent)
    (hgraph : ∀ t g, t ∈ graphTypes c' g → t ∈ graphTypes c g) {t : Int} (h : u ∈ ogSubtypes c' t) :
    u ∈ ogSubtypes c t := by
  obtain ⟨g, ht⟩ := subtype_graph hc' h
  have hsub := isSubtype_of_ogIsSubtype hc' (mem_ogSubtypes.mp h)
  exact (mem_ogSubtypes_iff hc (hgraph t g ht)).mpr (isSubtype_mono hsub hlinks)

/-- What is listed beside a new type is listed beside one of its parents. -/
theorem Shares.created {r : TypeRow} {pids : List Int} (h : Current o) (h' : Current o')
    (hr : r.typeId = o.nextTypeId) (htypes : o'.catalog.types = o.catalog.types ++ [r])
    (hlinks : o'.catalog.typeParent =
      o.catalog.typeParent ++ pids.map fun pid => (o.nextTypeId, pid))
    (hu : u ≠ o.nextTypeId) (hshare : Shares o'.catalog u v) :
    (v = o.nextTypeId ∧ ∃ pid ∈ pids, Shares o.catalog pid u) ∨
      v ≠ o.nextTypeId ∧ Shares o.catalog u v := by
  obtain ⟨t, hut, hvt⟩ := hshare
  have husub := isSubtype_created h hlinks hu (isSubtype_of_ogIsSubtype h'.wellFormed (mem_ogSubtypes.mp hut))
  have ht : ∃ g, t ∈ graphTypes o.catalog g := by
    obtain ⟨g, ht⟩ := subtype_graph h'.wellFormed hut
    rcases graphTypes_append htypes ht with hold | heq
    · exact ⟨g, hold⟩
    · -- below the new type is nothing else
      rw [heq, hr] at husub
      exact absurd (eq_of_isSubtype_fresh h.wellFormed (not_mem_graphTypes_next h) husub) hu
  obtain ⟨g, htg⟩ := ht
  have huold : u ∈ ogSubtypes o.catalog t := (mem_ogSubtypes_iff h.wellFormed htg).mpr husub
  by_cases hv : v = o.nextTypeId
  · subst hv
    obtain ⟨pid, hpid, habove⟩ := above_created h h' hlinks ⟨g, htg⟩
      (mem_ogSupertypes.mpr (mem_ogSubtypes.mp hvt))
    exact .inl ⟨rfl, pid, hpid, t, mem_ogSubtypes.mpr (mem_ogSupertypes.mp habove), huold⟩
  · have hvsub := isSubtype_created h hlinks hv
      (isSubtype_of_ogIsSubtype h'.wellFormed (mem_ogSubtypes.mp hvt))
    exact .inr ⟨hv, t, huold, (mem_ogSubtypes_iff h.wellFormed htg).mpr hvsub⟩

/-- What a new link brings together: something below its lower end, with what is listed
beside the upper. -/
theorem Shares.linked {gid tid pid : Int} (h : Current o) (h' : Current o')
    (htypes : o'.catalog.types = o.catalog.types)
    (hlinks : o'.catalog.typeParent = o.catalog.typeParent ++ [(tid, pid)])
    (htid : tid ∈ graphTypes o.catalog gid) (hshare : Shares o'.catalog u v) :
    Shares o.catalog u v ∨ u ∈ ogSubtypes o.catalog tid ∧ Shares o.catalog pid v ∨
      v ∈ ogSubtypes o.catalog tid ∧ Shares o.catalog pid u := by
  obtain ⟨t, hut, hvt⟩ := hshare
  obtain ⟨g, ht'⟩ := subtype_graph h'.wellFormed hut
  have ht : t ∈ graphTypes o.catalog g := by
    simpa only [graphTypes, htypes] using ht'
  have hside {x : Int} (hx : x ∈ ogSubtypes o'.catalog t) :
      x ∈ ogSubtypes o.catalog t ∨ x ∈ ogSubtypes o.catalog tid ∧ pid ∈ ogSubtypes o.catalog t := by
    have hsub := isSubtype_of_ogIsSubtype h'.wellFormed (mem_ogSubtypes.mp hx)
    have hsub' : IsSubtype { o.catalog with typeParent := o.catalog.typeParent ++ [(tid, pid)] } x t :=
      isSubtype_mono hsub (by rw [hlinks]; exact List.Subset.refl _)
    rcases isSubtype_append_last hlinks hsub with hold | ⟨l, hl, habove⟩
    · exact .inl ((mem_ogSubtypes_iff h.wellFormed ht).mpr hold)
    · rcases isSubtype_append hsub' with hold | ⟨l', hl', hbelow⟩
      · exact .inl ((mem_ogSubtypes_iff h.wellFormed ht).mpr hold)
      · obtain rfl := List.mem_singleton.mp hl
        obtain rfl := List.mem_singleton.mp hl'
        exact .inr ⟨(mem_ogSubtypes_iff h.wellFormed htid).mpr hbelow,
          (mem_ogSubtypes_iff h.wellFormed ht).mpr habove⟩
  rcases hside hut with hu | ⟨hu, hp⟩
  · rcases hside hvt with hv | ⟨hv, hp⟩
    · exact .inl ⟨t, hu, hv⟩
    · exact .inr (.inr ⟨hv, t, hp, hu⟩)
  · rcases hside hvt with hv | ⟨hv, -⟩
    · exact .inr (.inl ⟨hu, t, hp, hv⟩)
    · exact .inl ⟨tid, hu, hv⟩

/-- Types, rows and links are taken away. -/
theorem Inv.frame (h : Inv s) (hcur : Current s'.o) (hnext : s.o.nextTypeId ≤ s'.o.nextTypeId)
    (hrows : s'.o.catalog.properties ⊆ s.o.catalog.properties)
    (hlinks : s'.o.catalog.typeParent ⊆ s.o.catalog.typeParent)
    (hgraph : ∀ t g, t ∈ graphTypes s'.o.catalog g → t ∈ graphTypes s.o.catalog g)
    (hstorage : ∀ v, (storageTable s'.o.catalog v).isSome → (storageTable s.o.catalog v).isSome)
    (hcols : s'.columns = s.columns) (hhist : s'.histories = s.histories)
    (hchanges : s'.changes ⊆ s.changes) : Inv s' := by
  refine ⟨hcur, fun p hp => (h.rows p (hrows hp)).trans_le hnext, fun t ht => ?_, ?_, fun ch hch => ?_,
    fun p hp hfit v t hshare hat => ?_⟩
  · rw [hhist] at ht
    exact (h.historyIds t ht).trans_le hnext
  · rw [hhist, hcols]
    exact h.stray
  · obtain ⟨hlt, hg⟩ := h.reports ch (hchanges hch)
    exact ⟨hlt.trans_le hnext, fun g hmem => hg g (hgraph _ g hmem)⟩
  · obtain ⟨t', hut, hvt⟩ := hshare
    obtain ⟨hsome, hcol⟩ := hat
    rw [hcols] at hcol
    have hbelow {x : Int} (hx : x ∈ ogSubtypes s'.o.catalog t') : x ∈ ogSubtypes s.o.catalog t' :=
      ogSubtypes_of_fewer h.current.wellFormed hcur.wellFormed hlinks hgraph hx
    exact h.fits p (hrows hp) hfit v t ⟨t', hbelow hut, hbelow hvt⟩ ⟨hstorage v hsome, hcol⟩

theorem Inv.dropType {graph name : String} {cascade : Bool} {instances : List Int → Nat} (h : Inv s)
    (hop : SchemaEvolution.dropType s graph name cascade instances = .ok s') : Inv s' := by
  simp only [SchemaEvolution.dropType] at hop
  obtain ⟨gid, -, hop⟩ := bind_eq_ok.mp hop
  obtain ⟨tid, -, hop⟩ := bind_eq_ok.mp hop
  obtain ⟨o, hdrop, hop⟩ := bind_eq_ok.mp hop
  obtain rfl := pure_eq_ok.mp hop
  have hcur : Current o := h.current.dropType hdrop
  obtain ⟨tid', c₁, -, hdel, hrel, hnext⟩ := dropType_eq_ok hdrop
  obtain ⟨htypes, hlinks, hprops, -⟩ := deleteTypes_eq hdel
  have hcat := relabelGraph_eq hrel
  have htypes' : o.catalog.types = s.o.catalog.types.filter
      fun t => t.typeId ∉ ogSubtypes s.o.catalog tid' := by rw [hcat]; exact htypes
  refine h.frame hcur hnext.ge (fun p hp => ?_) (fun l hl => ?_) (fun t g hmem => ?_)
    (fun v hsome => ?_) rfl rfl (List.Subset.refl _)
  · have hp : p ∈ o.catalog.properties := hp
    rw [hcat] at hp
    rw [hprops] at hp
    exact (List.mem_filter.mp hp).1
  · have hl : l ∈ o.catalog.typeParent := hl
    rw [hcat] at hl
    rw [hlinks] at hl
    exact (List.mem_filter.mp hl).1
  · obtain ⟨r, hr, hg, hid⟩ := mem_graphTypes.mp hmem
    exact mem_graphTypes.mpr ⟨r, (List.mem_filter.mp (htypes' ▸ hr)).1, hg, hid⟩
  · rw [← (storageTable_filter htypes' hsome).2]
    exact hsome

/-- The labels of the other graphs do not change with the types of one. -/
theorem Current.dropGraph {gid : Int} {o' : Ontology} (h : Current o)
    (htypes : o'.catalog.types = o.catalog.types.filter fun t => t.graphId ≠ gid)
    (hlinks : o'.catalog.typeParent = o.catalog.typeParent.filter fun l =>
      l.1 ∉ graphTypes o.catalog gid ∧ l.2 ∉ graphTypes o.catalog gid)
    (hlabels : o'.catalog.labels = o.catalog.labels.filter fun l => l.typeId ∉ graphTypes o.catalog gid)
    (hnext : o'.nextTypeId = o.nextTypeId) : Current o' := by
  have hids (g : Int) (hg : g ≠ gid) : graphTypes o'.catalog g = graphTypes o.catalog g := by
    unfold graphTypes
    rw [htypes, List.filter_filter]
    congr 1
    refine List.filter_congr fun t _ => ?_
    by_cases ht : t.graphId = g
    · simp [ht, hg]
    · simp [ht]
  have hout {t g : Int} (hg : g ≠ gid) (ht : t ∈ graphTypes o.catalog g) :
      t ∉ graphTypes o.catalog gid := fun hmem => hg (h.wellFormed.graph_unique hmem ht)
  refine ⟨⟨?_, fun l hl => ?_, fun g => ?_⟩, fun t ht => ?_⟩
  · rw [htypes]
    exact h.wellFormed.typeIds.sublist (List.filter_sublist.map _)
  · rw [hlinks] at hl
    obtain ⟨hl, hkept⟩ := List.mem_filter.mp hl
    obtain ⟨hlow, -⟩ := of_decide_eq_true hkept
    obtain ⟨g, hg, hg'⟩ := h.wellFormed.parents l hl
    have hne : g ≠ gid := by
      rintro rfl
      exact hlow hg
    rw [← hids g hne] at hg hg'
    exact ⟨g, hg, hg'⟩
  · change LabelledAt o'.catalog g
    by_cases hg : g = gid
    · subst hg
      have hnil : graphTypes o'.catalog g = [] := by
        unfold graphTypes
        rw [htypes, List.filter_filter, List.map_eq_nil_iff, List.filter_eq_nil_iff]
        simp
      unfold LabelledAt
      rw [if_pos hnil, hlabels]
      intro l hl heq
      obtain ⟨hl, hkept⟩ := List.mem_filter.mp hl
      exact of_decide_eq_true hkept (heq ▸ h.wellFormed.label_type hl)
    · refine LabelledAt.congr (h.wellFormed.labelled g) (hids g hg) ?_ ?_
      · rw [hlinks, List.filter_filter]
        refine List.filter_congr fun l hl => ?_
        by_cases hmem : l.1 ∈ graphTypes o.catalog g
        · obtain ⟨g', hlow, hhigh⟩ := h.wellFormed.parents l hl
          obtain rfl := h.wellFormed.graph_unique hmem hlow
          simp [hmem, hout hg hlow, hout hg hhigh]
        · simp [hmem]
      · rw [hlabels, List.filter_filter]
        refine List.filter_congr fun l hl => ?_
        by_cases heq : l.graphId = g
        · have hmem := hout hg (heq ▸ h.wellFormed.label_type hl)
          simp [heq, hmem]
        · simp [heq]
  · rw [htypes] at ht
    rw [hnext]
    exact h.fresh t (List.mem_filter.mp ht).1

theorem Inv.dropGraph {graph : String} (h : Inv s)
    (hop : SchemaEvolution.dropGraph s graph = .ok s') : Inv s' := by
  simp only [SchemaEvolution.dropGraph] at hop
  obtain ⟨gid, -, hop⟩ := bind_eq_ok.mp hop
  obtain ⟨-, -, hop⟩ := bind_eq_ok.mp hop
  obtain rfl := pure_eq_ok.mp hop
  refine h.frame (@Current.dropGraph _ gid _ h.current rfl rfl rfl rfl) le_rfl
    (fun p hp => (List.mem_filter.mp hp).1) (fun l hl => (List.mem_filter.mp hl).1)
    (fun t g hmem => ?_) (fun v hsome => ?_) rfl rfl fun ch hch => (List.mem_filter.mp hch).1
  · obtain ⟨r, hr, hg, hid⟩ := mem_graphTypes.mp hmem
    exact mem_graphTypes.mpr ⟨r, (List.mem_filter.mp hr).1, hg, hid⟩
  · have htypes : (s.o.catalog.types.filter fun t => t.graphId ≠ gid) =
        s.o.catalog.types.filter fun t => t.typeId ∉ graphTypes s.o.catalog gid := by
      refine List.filter_congr fun t ht => decide_eq_decide.mpr (not_congr ⟨fun hg => ?_, fun hmem => ?_⟩)
      · exact mem_graphTypes.mpr ⟨t, ht, hg, rfl⟩
      · exact h.current.wellFormed.graph_unique hmem (mem_graphTypes.mpr ⟨t, ht, rfl, rfl⟩)
    rw [← (storageTable_filter (c := s.o.catalog) htypes hsome).2]
    exact hsome

theorem Inv.contract_removeParent {type parent : String} {ch : Change} (h : Inv s)
    (hspec : ch.spec = .removeParent type parent) (hmem : ch ∈ s.changes)
    (hop : SchemaEvolution.contract s ch = .ok s₁) : Inv s₁ := by
  simp only [SchemaEvolution.contract, hspec] at hop
  obtain ⟨c₁, hrel, hop⟩ := bind_eq_ok.mp hop
  obtain rfl := pure_eq_ok.mp hop
  have hcur : Current { s.o with catalog := c₁ } :=
    Current.unlinked h.current (h.reports ch hmem).2 hrel
  have hcat := relabelGraph_eq hrel
  have htypes : c₁.types = s.o.catalog.types := by rw [hcat]
  refine h.frame hcur le_rfl ?_ ?_ (fun t g hmem => ?_) (fun v hsome => ?_) rfl rfl (List.Subset.refl _)
  · change c₁.properties ⊆ _
    rw [hcat]
    exact List.Subset.refl _
  · change c₁.typeParent ⊆ _
    rw [hcat]
    exact fun l hl => (List.mem_filter.mp hl).1
  · have hmem : t ∈ graphTypes c₁ g := hmem
    simpa only [graphTypes, htypes] using hmem
  · rw [← storageTable_congr htypes]
    exact hsome

theorem Inv.contract_renameType {type new : String} {ch : Change} (h : Inv s)
    (hspec : ch.spec = .renameType type new) (hop : SchemaEvolution.contract s ch = .ok s₁) : Inv s₁ := by
  simp only [SchemaEvolution.contract, hspec] at hop
  obtain ⟨tid, -, hop⟩ := bind_eq_ok.mp hop
  obtain ⟨-, -, hop⟩ := bind_eq_ok.mp hop
  obtain rfl := pure_eq_ok.mp hop
  set f : TypeRow → TypeRow := fun t => if t.typeId = tid then { t with name := new } else t with hf
  have hid (t : TypeRow) : (f t).typeId = t.typeId ∧ (f t).graphId = t.graphId ∧
      (f t).storageTable = t.storageTable := by
    rw [hf]
    dsimp only
    split <;> exact ⟨rfl, rfl, rfl⟩
  refine h.frame (current_mapTypes h.current fun t => ⟨(hid t).1, (hid t).2.1⟩) le_rfl
    (List.Subset.refl _) (List.Subset.refl _) (fun t g hmem => ?_) (fun v hsome => ?_) rfl rfl (List.Subset.refl _)
  · obtain ⟨r', hr', hg, ht⟩ := mem_graphTypes.mp hmem
    obtain ⟨r, hr, rfl⟩ := List.mem_map.mp hr'
    exact mem_graphTypes.mpr ⟨r, hr, (hid r).2.1 ▸ hg, (hid r).1 ▸ ht⟩
  · change (storageTable { s.o.catalog with types := s.o.catalog.types.map f } v).isSome at hsome
    unfold storageTable at hsome ⊢
    rw [typeRow?_map fun t => (hid t).1] at hsome
    cases hrow : typeRow? s.o.catalog v with
    | none =>
        rw [hrow] at hsome
        cases hsome
    | some r =>
        rw [hrow, Option.map_some, Option.bind_some, (hid r).2.2] at hsome
        exact hsome

end Hierarchies

section Tables

variable {s s' s₁ : State} {ch : Change}

/-- The columns a table inherits: those it had, and those of the properties. -/
theorem copied_eq_some {inherited : List Property} {cur : TableColumns} {n t : String}
    (h : copied inherited cur n = some t) :
    cur n = some t ∨ ∃ p ∈ inherited, physical p.columnName = n ∧ p.dataType = t := by
  unfold copied at h
  rw [Option.or_eq_some_iff] at h
  rcases h with h | ⟨-, h⟩
  · exact .inl h
  · obtain ⟨p, hp, rfl⟩ := Option.map_eq_some_iff.mp h
    have hcol := List.find?_some hp
    exact .inr ⟨p, List.mem_of_find?_eq_some hp, of_decide_eq_true hcol, rfl⟩

theorem kept_tableView (h : Inv s) (v : Int) : Kept (tableView s v) :=
  fun n t hcol => mem_histories.mp (h.stray v n t hcol)

/-- A new table has the columns its parents' properties ask for, and fits beside the tables
its parents are listed with. -/
theorem fits_created {r : TypeRow} {pids : List Int} (h : Inv s) (hcur : Current s'.o)
    (hr : r.typeId = s.o.nextTypeId) (htypes : s'.o.catalog.types = s.o.catalog.types ++ [r])
    (hlinks : s'.o.catalog.typeParent =
      s.o.catalog.typeParent ++ pids.map fun pid => (s.o.nextTypeId, pid))
    (hrows : ∀ p ∈ s'.o.catalog.properties, p ∈ s.o.catalog.properties ∨ p.typeId = s.o.nextTypeId ∧
      ∃ q ∈ pids.flatMap (inheritedProperties s.o.catalog),
        q.columnName = p.columnName ∧ q.dataType = p.dataType)
    (hown : ∀ n t, HasColumn s'.columns s.o.nextTypeId n t →
      ∃ q ∈ pids.flatMap (inheritedProperties s.o.catalog), physical q.columnName = n ∧ q.dataType = t)
    (hothers : ∀ v ≠ s.o.nextTypeId, ∀ n t, HasColumn s'.columns v n t → HasColumn s.columns v n t)
    (hfitting : ∀ p ∈ pids.flatMap (inheritedProperties s.o.catalog),
      (∀ pid ∈ pids, Told s pid p.columnName p.dataType ∧
        Asked s pid (physical p.columnName) p.dataType) ∧
      ∀ q ∈ pids.flatMap (inheritedProperties s.o.catalog),
        q.columnName = physical p.columnName → q.dataType = p.dataType) : Fits s' := by
  have hbefore {v : Int} {n t : String} (hv : v ≠ s.o.nextTypeId) (hat : ColumnAt s' v n t) :
      ColumnAt s v n t := by
    refine ⟨?_, hothers v hv n t hat.2⟩
    have hstorage := hat.1
    rw [storageTable_append htypes (hr ▸ hv)] at hstorage
    exact hstorage
  have hbeside {u v : Int} (hu : u ≠ s.o.nextTypeId) (hshare : Shares s'.o.catalog u v) :=
    Shares.created h.current hcur hr htypes hlinks hu hshare
  intro p hp hfit v t hshare hat
  rcases hrows p hp with hold | ⟨hid, p₀, hp₀, hname, htype⟩
  · have hne : p.typeId ≠ s.o.nextTypeId := (h.rows p hold).ne
    by_cases hv : v = s.o.nextTypeId
    · subst hv
      obtain ⟨q, hq, hcol, rfl⟩ := hown _ _ hat.2
      rcases hbeside hne hshare with ⟨-, pid, hpid, hpside⟩ | hold'
      · exact (((hfitting q hq).1 pid hpid).2 p hold hpside.symm hcol.symm).symm
      · exact absurd rfl hold'.1
    · rcases hbeside hne hshare with ⟨hnew, -⟩ | hold'
      · exact absurd hnew hv
      · exact h.fits p hold hfit v t hold'.2 (hbefore hv hat)
  · by_cases hv : v = s.o.nextTypeId
    · subst hv
      obtain ⟨q, hq, hcol, rfl⟩ := hown _ _ hat.2
      rw [← htype]
      refine ((hfitting q hq).2 p₀ hp₀ ?_).symm
      rw [hname, hcol]
    · rw [hid] at hshare
      rcases hbeside hv hshare.symm with ⟨-, pid, hpid, hpside⟩ | hold'
      · rw [← hname] at hat
        rw [← htype]
        exact ((hfitting p₀ hp₀).1 pid hpid).1 v t hpside (hbefore hv hat)
      · exact absurd rfl hold'.1

theorem Inv.createType {graph name : String} {kind : Kind} {parents : List String} {isAbstract : Bool}
    (h : Inv s) (hguard : FittingCreate s graph kind parents isAbstract)
    (hop : SchemaEvolution.createType s graph name kind parents isAbstract = .ok s') : Inv s' := by
  simp only [SchemaEvolution.createType] at hop
  obtain ⟨gid, hgid, hop⟩ := bind_eq_ok.mp hop
  obtain ⟨pids, hpids, hop⟩ := bind_eq_ok.mp hop
  -- what both kinds of type have in common
  have hreports {o' : Ontology} {r : TypeRow} (hr : r.typeId = s.o.nextTypeId)
      (htypes : o'.catalog.types = s.o.catalog.types ++ [r])
      (hnext : o'.nextTypeId = s.o.nextTypeId + 1) :
      ∀ ch ∈ s.changes, ch.report.typeId < o'.nextTypeId ∧
        ∀ g, ch.report.typeId ∈ graphTypes o'.catalog g → g = ch.gid := by
    intro ch hch
    obtain ⟨hlt, hg⟩ := h.reports ch hch
    refine ⟨by omega, fun g hmem => ?_⟩
    rcases graphTypes_append htypes hmem with hold | heq
    · exact hg g hold
    · omega
  split at hop
  · next htable =>
    obtain ⟨o', hcreate, hop⟩ := bind_eq_ok.mp hop
    obtain rfl := pure_eq_ok.mp hop
    have hcur : Current o' := (h.current.pending gid).createType hcreate
    obtain ⟨pids', c₁, hpids', hrest, hrel, hnext⟩ := createType_eq_ok hcreate
    obtain rfl := Except.ok.inj (hpids.symm.trans hpids')
    obtain rfl := Except.ok.inj hrest
    have hcat := relabelGraph_eq hrel
    have htypes : o'.catalog.types = s.o.catalog.types ++
        [⟨s.o.nextTypeId, gid, name, kind, instanceTable kind isAbstract s.o.nextTypeId⟩] := by rw [hcat]
    have hview (v : Int) := createdView_eq s o' (pids.flatMap (inheritedProperties s.o.catalog)) v
    have hnone (n t : String) : s.columns (history s.o.nextTypeId) n ≠ some t := by
      intro hcol
      exact (h.historyIds _ (h.stray _ n t hcol)).ne rfl
    have hrows : ∀ p ∈ o'.catalog.properties, p ∈ s.o.catalog.properties ∨ p.typeId = s.o.nextTypeId ∧
        ∃ q ∈ pids.flatMap (inheritedProperties s.o.catalog),
          q.columnName = p.columnName ∧ q.dataType = p.dataType := by
      intro p hp
      rw [hcat] at hp
      rcases mem_insertProperties hp with hp | ⟨hp, -⟩
      · exact .inl hp
      · obtain ⟨q, hq, rfl⟩ := mem_copies.mp hp
        exact .inr ⟨rfl, q, hq, rfl, rfl⟩
    refine ⟨?_, ?_, ?_, fun v n t hcol => ?_, ?_, ?_⟩
    · rw [enableTemporalTable_o]
      exact hcur
    · rw [enableTemporalTable_o, hnext]
      intro p hp
      rcases hrows p hp with hp | ⟨hid, -⟩
      · exact (h.rows p hp).trans (Int.lt_succ _)
      · omega
    · rw [enableTemporalTable_o, hnext]
      intro t ht
      by_cases hne : t = s.o.nextTypeId
      · omega
      · rw [mem_histories, hview, if_neg hne, ← mem_histories] at ht
        exact (h.historyIds t ht).trans (Int.lt_succ _)
    · rw [mem_histories, hview]
      have hcol' := congrArg (·.2.2 n) (hview v)
      by_cases hv : v = s.o.nextTypeId
      · rw [if_pos hv] at hcol' ⊢
        refine kept_temporalView (fun n t hold => ?_) _ _ n t (hcol'.symm.trans hcol)
        exact absurd (hv ▸ hold) (hnone n t)
      · rw [if_neg hv] at hcol' ⊢
        exact kept_tableView h v n t (hcol'.symm.trans hcol)
    · rw [enableTemporalTable_o, enableTemporalTable_changes]
      exact hreports rfl htypes hnext
    · refine fits_created
        (r := ⟨s.o.nextTypeId, gid, name, kind, instanceTable kind isAbstract s.o.nextTypeId⟩)
        h ?_ rfl ?_ ?_ ?_ ?_ ?_ (hguard gid pids hgid hpids htable)
      · rw [enableTemporalTable_o]
        exact hcur
      · rw [enableTemporalTable_o]
        exact htypes
      · rw [enableTemporalTable_o, hcat]
      · rw [enableTemporalTable_o]
        exact hrows
      · intro n t hcol
        have hcurrent := congrArg (·.2.1 n) (hview s.o.nextTypeId)
        have hhistory := congrArg (·.2.2 n) (hview s.o.nextTypeId)
        rw [if_pos rfl] at hcurrent hhistory
        rw [temporalView_current] at hcurrent
        have hcopied : copied (pids.flatMap (inheritedProperties s.o.catalog)) (fun _ => none) n =
            some t := by
          rcases hcol with hcol | hcol
          · exact hcurrent.symm.trans hcol
          · refine (temporalView_history _ _ (hhistory.symm.trans hcol)).resolve_right fun hold => ?_
            exact hnone n t hold
        exact (copied_eq_some hcopied).resolve_left (fun hno => by cases hno)
      · intro v hv n t hcol
        have hsame := (hview v).trans (if_neg hv)
        have hcurrent := congrArg (·.2.1 n) hsame
        have hhistory := congrArg (·.2.2 n) hsame
        exact hcol.imp hcurrent.symm.trans hhistory.symm.trans
  · next htable =>
    obtain ⟨o', hcreate, hop⟩ := bind_eq_ok.mp hop
    obtain rfl := pure_eq_ok.mp hop
    have hcur : Current o' := (h.current.pending gid).createType hcreate
    obtain ⟨pids', c₁, hpids', hrest, hrel, hnext⟩ := createType_eq_ok hcreate
    obtain rfl := Except.ok.inj hrest
    have hcat := relabelGraph_eq hrel
    have htypes : o'.catalog.types = s.o.catalog.types ++
        [⟨s.o.nextTypeId, gid, name, kind, instanceTable kind isAbstract s.o.nextTypeId⟩] := by rw [hcat]
    have hlinks : o'.catalog.typeParent =
        s.o.catalog.typeParent ++ pids'.map fun pid => (s.o.nextTypeId, pid) := by rw [hcat]
    have hprops : o'.catalog.properties = s.o.catalog.properties := by rw [hcat]
    refine ⟨hcur, fun p hp => ?_, fun t ht => ?_, h.stray, hreports rfl htypes hnext,
      fun p hp hfit v t hshare hat => ?_⟩
    · have hlt := h.rows p (hprops ▸ hp)
      change p.typeId < o'.nextTypeId
      omega
    · have hlt := h.historyIds t ht
      change t < o'.nextTypeId
      omega
    · -- the new type has no table, so only the others are listed
      have hold : p ∈ s.o.catalog.properties := hprops ▸ hp
      have hv : v ≠ s.o.nextTypeId := by
        rintro rfl
        have hstorage := hat.1
        rw [storageTable_new htypes h.current.fresh] at hstorage
        exact htable hstorage
      have hbeside := Shares.created h.current hcur rfl htypes hlinks (h.rows p hold).ne hshare
      have hbefore := hat.1
      rw [storageTable_append htypes hv] at hbefore
      rcases hbeside with ⟨hnew, -⟩ | ⟨-, hbeside⟩
      · exact absurd hnew hv
      · exact h.fits p hold hfit v t hbeside ⟨hbefore, hat.2⟩

/-- A history that is made has the columns of its table. -/
theorem Inv.enableTemporal {graph name : String} (h : Inv s)
    (hop : SchemaEvolution.enableTemporal s graph name = .ok s') : Inv s' := by
  simp only [SchemaEvolution.enableTemporal] at hop
  obtain ⟨gid, -, hop⟩ := bind_eq_ok.mp hop
  obtain ⟨tid, -, hop⟩ := bind_eq_ok.mp hop
  obtain ⟨kind, -, hop⟩ := bind_eq_ok.mp hop
  obtain ⟨-, -, hop⟩ := bind_eq_ok.mp hop
  obtain rfl := pure_eq_ok.mp hop
  set c' : Catalog := { s.o.catalog with
    temporal := if tid ∈ s.o.catalog.temporal then s.o.catalog.temporal
      else tid :: s.o.catalog.temporal }
  obtain ⟨ho, hchanges, -⟩ := foldl_frame
    (fun _ _ => ⟨enableTable_o, enableTable_changes, enableTable_nextChange⟩)
    (s.withCatalog c') (tables s.o.catalog tid)
  have hview (v : Int) := (enableTable_local (c := c')).foldl_view (s := s.withCatalog c') rfl
    (tables_nodup s.o.catalog tid) v
  set s₁ := (tables s.o.catalog tid).foldl enableTable (s.withCatalog c')
  have hcur : Current (s.withCatalog c').o := h.current.same ⟨rfl, rfl, rfl⟩
  have hold {v : Int} {n t : String} (hcol : HasColumn s₁.columns v n t) : HasColumn s.columns v n t := by
    have hcurrent := congrArg (·.2.1 n) (hview v)
    have hhistory := congrArg (·.2.2 n) (hview v)
    by_cases hv : v ∈ tables s.o.catalog tid
    · rw [if_pos hv] at hcurrent hhistory
      rw [enabledView_current] at hcurrent
      rcases hcol with hcol | hcol
      · exact .inl (hcurrent.symm.trans hcol)
      · exact enabledView_history _ _ (hhistory.symm.trans hcol)
    · rw [if_neg hv] at hcurrent hhistory
      exact hcol.imp hcurrent.symm.trans hhistory.symm.trans
  refine ⟨ho ▸ hcur, ?_, ?_, fun v n t hcol => ?_, ?_, ?_⟩
  · rw [ho]
    exact h.rows
  · rw [ho]
    intro v hv
    rw [mem_histories, hview] at hv
    split at hv
    · next hsub =>
      obtain ⟨r, hr, rfl⟩ := storageTable_mem (mem_tables.mp hsub).2
      exact h.current.fresh r hr
    · exact h.historyIds v (mem_histories.mpr hv)
  · rw [mem_histories, hview]
    have hcol' := congrArg (·.2.2 n) (hview v)
    split at hcol'
    · next hv =>
      rw [if_pos hv]
      exact kept_enabledView (kept_tableView h v) _ _ n t (hcol'.symm.trans hcol)
    · next hv =>
      rw [if_neg hv]
      exact kept_tableView h v n t (hcol'.symm.trans hcol)
  · rw [ho, hchanges]
    exact h.reports
  · intro p hp hfit v t hshare hat
    obtain ⟨hstorage, hcol⟩ := hat
    rw [ho] at hp hshare hstorage
    exact h.fits p hp hfit v t hshare ⟨hstorage, hold hcol⟩

/-- Tables below a new link have the columns the properties above ask for, and fit beside the
tables the parent is listed with. -/
theorem fits_linked {gid tid pid : Int} (h : Inv s) (hcur : Current s'.o)
    (htypes : s'.o.catalog.types = s.o.catalog.types)
    (hlinks : s'.o.catalog.typeParent = s.o.catalog.typeParent ++ [(tid, pid)])
    (htid : tid ∈ graphTypes s.o.catalog gid)
    (hrows : ∀ p ∈ s'.o.catalog.properties, p ∈ s.o.catalog.properties ∨
      p.typeId ∈ tables s.o.catalog tid ∧ ∃ q ∈ inheritedProperties s.o.catalog pid,
        q.columnName = p.columnName ∧ q.dataType = p.dataType)
    (hcols : ∀ v n t, HasColumn s'.columns v n t → HasColumn s.columns v n t ∨
      v ∈ tables s.o.catalog tid ∧ ∃ q ∈ inheritedProperties s.o.catalog pid,
        physical q.columnName = n ∧ q.dataType = t)
    (hbelow : ∀ u ∈ ogSubtypes s.o.catalog tid,
      (∀ p ∈ s.o.catalog.properties, p.typeId = u → Told s pid p.columnName p.dataType) ∧
        ∀ n t, ColumnAt s u n t → Asked s pid n t)
    (habove : ∀ p ∈ inheritedProperties s.o.catalog pid,
      (∀ sub ∈ pid :: tables s.o.catalog tid, Told s sub p.columnName p.dataType ∧
        Asked s sub (physical p.columnName) p.dataType) ∧
      ∀ q ∈ inheritedProperties s.o.catalog pid,
        q.columnName = physical p.columnName → q.dataType = p.dataType) : Fits s' := by
  have hsubtype {v : Int} (hv : v ∈ tables s.o.catalog tid) : v ∈ ogSubtypes s.o.catalog tid :=
    (mem_tables.mp hv).1
  intro p hp hfit v t hshare hat
  obtain ⟨hstorage, hcol⟩ := hat
  rw [storageTable_congr htypes] at hstorage
  have hbeside := Shares.linked h.current hcur htypes hlinks htid hshare
  rcases hrows p hp with hold | ⟨hsub, p₀, hp₀, hname, htype⟩
  · rcases hcols v _ _ hcol with hcol | ⟨hv, q, hq, hqcol, rfl⟩
    · -- both were there: the link may only bring them together
      rcases hbeside with hbeside | ⟨hu, hbeside⟩ | ⟨hv, hbeside⟩
      · exact h.fits p hold hfit v t hbeside ⟨hstorage, hcol⟩
      · exact (hbelow _ hu).1 p hold rfl v t hbeside ⟨hstorage, hcol⟩
      · exact ((hbelow _ hv).2 _ t ⟨hstorage, hcol⟩ p hold hbeside.symm rfl).symm
    · rcases hbeside with hbeside | ⟨hu, -⟩ | ⟨-, hbeside⟩
      · exact (((habove q hq).1 v (List.mem_cons_of_mem _ hv)).2 p hold hbeside hqcol.symm).symm
      · exact (((habove q hq).1 v (List.mem_cons_of_mem _ hv)).2 p hold
          ⟨tid, hu, hsubtype hv⟩ hqcol.symm).symm
      · exact (((habove q hq).1 pid (List.mem_cons_self ..)).2 p hold hbeside.symm hqcol.symm).symm
  · rcases hcols v _ _ hcol with hcol | ⟨-, q, hq, hqcol, rfl⟩
    · rw [← hname] at hcol
      rw [← htype]
      rcases hbeside with hbeside | ⟨-, hbeside⟩ | ⟨hv, -⟩
      · exact ((habove p₀ hp₀).1 _ (List.mem_cons_of_mem _ hsub)).1 v t hbeside ⟨hstorage, hcol⟩
      · exact ((habove p₀ hp₀).1 pid (List.mem_cons_self ..)).1 v t hbeside ⟨hstorage, hcol⟩
      · exact ((habove p₀ hp₀).1 _ (List.mem_cons_of_mem _ hsub)).1 v t ⟨tid, hsubtype hsub, hv⟩
          ⟨hstorage, hcol⟩
    · rw [← htype]
      refine ((habove q hq).2 p₀ hp₀ ?_).symm
      rw [hname, hqcol]

theorem Inv.contract_addParent {type parent : String} (h : Inv s)
    (hspec : ch.spec = .addParent type parent) (hguard : FittingParent s ch)
    (hop : SchemaEvolution.contract s ch = .ok s₁) : Inv s₁ := by
  simp only [SchemaEvolution.contract, hspec] at hop
  obtain ⟨_, hmem, hop⟩ := bind_eq_ok.mp hop
  obtain ⟨htid, hpid⟩ := require_eq_ok.mp hmem
  obtain ⟨c₁, hins, hop⟩ := bind_eq_ok.mp hop
  obtain ⟨c₂, hrel, hop⟩ := bind_eq_ok.mp hop
  obtain rfl := pure_eq_ok.mp hop
  obtain ⟨hbelow, habove⟩ := hguard
  obtain rfl := insertParent_eq_ok hins
  have hlinked : Current { s.o with catalog := c₂ } := Current.linked h.current htid hpid hrel
  have hcat := relabelGraph_eq hrel
  have hprops : c₂.properties = s.o.catalog.properties := by rw [hcat]
  have htypes : c₂.types = s.o.catalog.types := by rw [hcat]
  have hlinks : c₂.typeParent =
      s.o.catalog.typeParent ++ [(ch.report.typeId, ch.report.parentId)] := by rw [hcat]
  set tid := ch.report.typeId
  set inherited := inheritedProperties c₂ ch.report.parentId
  set ps := ((tables c₂ tid).flatMap fun sub => copies sub inherited).foldl insertProperty
    c₂.properties
  set c₃ : Catalog := { c₂ with properties := ps }
  have hcur : Current { s.o with catalog := c₃ } := hlinked.same ⟨rfl, rfl, rfl⟩
  obtain ⟨ho, hchanges, -⟩ := foldl_frame (f := inheritTable inherited)
    (fun _ _ => ⟨enableTemporalTable_o, enableTemporalTable_changes, enableTemporalTable_nextChange⟩)
    (s.withCatalog c₃) (tables c₂ tid)
  have hview (v : Int) := (inheritTable_local c₃ inherited).foldl_view
    (s := s.withCatalog c₃) rfl (tables_nodup c₂ tid) v
  set s₁ := (tables c₂ tid).foldl (inheritTable inherited) (s.withCatalog c₃)
  have hbefore {sub : Int} (hsub : sub ∈ tables c₂ tid) : sub ∈ tables s.o.catalog tid :=
    below_linked h.current hlinked htypes hlinks htid hsub
  have hinherited {q : Property} (hq : q ∈ inherited) :
      q ∈ inheritedProperties s.o.catalog ch.report.parentId := by
    obtain ⟨hq, hsub⟩ := mem_inheritedProperties_iff.mp hq
    refine mem_inheritedProperties_iff.mpr ⟨hprops ▸ hq, ?_⟩
    rcases isSubtype_append_last hlinks hsub with hold | ⟨l, hl, hold⟩
    · exact hold
    · rw [List.mem_singleton.mp hl] at hold
      exact hold
  have hknown {v : Int} (hv : v ∈ tables c₂ tid) : v < s.o.nextTypeId := by
    obtain ⟨r, hr, rfl⟩ := storageTable_mem (mem_tables.mp hv).2
    exact h.current.fresh r (htypes ▸ hr)
  have hrows : ∀ p ∈ ps, p ∈ s.o.catalog.properties ∨ p.typeId ∈ tables c₂ tid ∧
      ∃ q ∈ inherited, q.columnName = p.columnName ∧ q.dataType = p.dataType := by
    intro p hp
    rcases mem_insertProperties hp with hp | ⟨hp, -⟩
    · exact .inl (hprops ▸ hp)
    · obtain ⟨sub, hsub, hp⟩ := List.mem_flatMap.mp hp
      obtain ⟨q, hq, rfl⟩ := mem_copies.mp hp
      exact .inr ⟨hsub, q, hq, rfl, rfl⟩
  refine ⟨ho ▸ hcur, ?_, ?_, fun v n t hcol => ?_, ?_, ?_⟩
  · rw [ho]
    intro p hp
    rcases hrows p hp with hp | ⟨hsub, -⟩
    · exact h.rows p hp
    · exact hknown hsub
  · rw [ho]
    intro v hv
    rw [mem_histories, hview] at hv
    split at hv
    · next hsub => exact hknown hsub
    · exact h.historyIds v (mem_histories.mpr hv)
  · rw [mem_histories, hview]
    have hcol' := congrArg (·.2.2 n) (hview v)
    split at hcol'
    · next hv =>
      rw [if_pos hv]
      exact kept_inheritedView (kept_tableView h v) _ _ n t (hcol'.symm.trans hcol)
    · next hv =>
      rw [if_neg hv]
      exact kept_tableView h v n t (hcol'.symm.trans hcol)
  · rw [ho, hchanges]
    intro ch' hch'
    obtain ⟨hlt, hg⟩ := h.reports ch' hch'
    refine ⟨hlt, fun g hmem => hg g ?_⟩
    have hmem : ch'.report.typeId ∈ graphTypes c₂ g := hmem
    simpa only [graphTypes, htypes] using hmem
  · refine @fits_linked _ _ ch.gid tid ch.report.parentId h ?_ ?_ ?_ htid ?_
      (fun v n t hcol => ?_) hbelow habove
    · rw [ho]
      exact hcur
    · rw [ho]
      exact htypes
    · rw [ho]
      exact hlinks
    · rw [ho]
      intro p hp
      refine (hrows p hp).imp_right fun hnew => ?_
      obtain ⟨hsub, q, hq, hcol⟩ := hnew
      exact ⟨hbefore hsub, q, hinherited hq, hcol⟩
    · have hcurrent := congrArg (·.2.1 n) (hview v)
      have hhistory := congrArg (·.2.2 n) (hview v)
      by_cases hv : v ∈ tables c₂ tid
      · rw [if_pos hv] at hcurrent hhistory
        rw [inheritedView_current] at hcurrent
        have hcopied : copied inherited (s.columns (SchemaEvolution.current v)) n = some t ∨
            s.columns (history v) n = some t := by
          rcases hcol with hcol | hcol
          · exact .inl (hcurrent.symm.trans hcol)
          · exact inheritedView_history _ _ (hhistory.symm.trans hcol)
        rcases hcopied with hcopied | hold
        · rcases copied_eq_some hcopied with hold | ⟨q, hq, hqcol⟩
          · exact .inl (.inl hold)
          · exact .inr ⟨hbefore hv, q, hinherited hq, hqcol⟩
        · exact .inl (.inr hold)
      · rw [if_neg hv] at hcurrent hhistory
        exact .inl (hcol.imp hcurrent.symm.trans hhistory.symm.trans)

end Tables

section Phases

variable {s s' s₁ : State} {ch : Change}

theorem dropColumn_some {rel r : Relation} {column n t : String} {cols : Columns}
    (h : dropColumn rel column cols r n = some t) : cols r n = some t := by
  rw [dropColumn_eq] at h
  split at h
  · next hr =>
    subst hr
    unfold dropped at h
    split at h
    · cases h
    · exact h
  · exact h

/-- A loop that drops a column makes none. -/
theorem foldl_dropColumn_some {α : Type} {rel : α → Relation} {r : Relation} {column n t : String}
    {xs : List α} {cols : Columns}
    (h : (xs.foldl (fun cols x => dropColumn (rel x) column cols) cols) r n = some t) :
    cols r n = some t := by
  induction xs generalizing cols with
  | nil => exact h
  | cons x xs ih => exact dropColumn_some (ih h)

theorem deleteName_rows {c : Catalog} {subs : List Int} {name : String} :
    ∀ p' ∈ deleteName c subs name, ∃ p ∈ c.properties,
      p.typeId = p'.typeId ∧ p.columnName = p'.columnName ∧ p.dataType = p'.dataType :=
  fun p' hp' => ⟨p', (List.mem_filter.mp hp').1, rfl, rfl, rfl⟩

theorem updateColumnRows_rows {c : Catalog} {subs : List Int} {column : String}
    {f : Property → Property} (hf : ∀ p, (f p).typeId = p.typeId ∧ (f p).columnName = p.columnName ∧
      (f p).dataType = p.dataType) :
    ∀ p' ∈ updateColumnRows c subs column f, ∃ p ∈ c.properties,
      p.typeId = p'.typeId ∧ p.columnName = p'.columnName ∧ p.dataType = p'.dataType := by
  intro p' hp'
  obtain ⟨p, hp, rfl⟩ := List.mem_map.mp hp'
  refine ⟨p, hp, ?_⟩
  split
  · obtain ⟨hid, hcol, htype⟩ := hf p
    exact ⟨hid.symm, hcol.symm, htype.symm⟩
  · exact ⟨rfl, rfl, rfl⟩

theorem Inv.contract {id : Nat} (h : Inv s) (hch : s.change id = .ok ch)
    (hguard : Fitting s (.contract id)) (hop : SchemaEvolution.contract s ch = .ok s₁) : Inv s₁ := by
  have hfitting := hguard ch hch
  cases hspec : ch.spec with
  | addProperty type prop dtype =>
      simp only [SchemaEvolution.contract, hspec] at hop
      obtain rfl := pure_eq_ok.mp hop
      exact h
  | dropProperty type prop =>
      simp only [SchemaEvolution.contract, hspec] at hop
      obtain ⟨tid, -, hop⟩ := bind_eq_ok.mp hop
      obtain ⟨-, -, hop⟩ := bind_eq_ok.mp hop
      obtain rfl := pure_eq_ok.mp hop
      exact h.shrink rfl deleteName_rows rfl rfl fun _ _ _ => foldl_dropColumn_some
  | renameProperty type old new =>
      simp only [SchemaEvolution.contract, hspec] at hop
      obtain ⟨tid, -, hop⟩ := bind_eq_ok.mp hop
      obtain rfl := pure_eq_ok.mp hop
      exact h.shrink rfl deleteName_rows rfl rfl fun _ _ _ hcol => hcol
  | alterPropertyType type prop toSql =>
      simp only [hspec] at hfitting
      exact h.contract_alter hspec hfitting hop
  | setRequired type prop =>
      simp only [SchemaEvolution.contract, hspec] at hop
      obtain ⟨tid, -, hop⟩ := bind_eq_ok.mp hop
      obtain ⟨-, -, hop⟩ := bind_eq_ok.mp hop
      obtain rfl := pure_eq_ok.mp hop
      exact h.shrink rfl (updateColumnRows_rows fun _ => ⟨rfl, rfl, rfl⟩) rfl rfl fun _ _ _ hcol => hcol
  | addUnique type prop =>
      simp only [SchemaEvolution.contract, hspec] at hop
      obtain ⟨tid, -, hop⟩ := bind_eq_ok.mp hop
      obtain ⟨-, -, hop⟩ := bind_eq_ok.mp hop
      obtain rfl := pure_eq_ok.mp hop
      exact h.shrink rfl (updateColumnRows_rows fun _ => ⟨rfl, rfl, rfl⟩) rfl rfl fun _ _ _ hcol => hcol
  | renameType type new => exact h.contract_renameType hspec hop
  | addParent type parent =>
      simp only [hspec] at hfitting
      exact h.contract_addParent hspec hfitting hop
  | removeParent type parent => exact h.contract_removeParent hspec (change_eq_ok hch).1 hop

theorem Inv.abort (h : Inv s) (hop : SchemaEvolution.abort s ch = .ok s₁) : Inv s₁ := by
  cases hspec : ch.spec with
  | renameProperty type old new =>
      simp only [SchemaEvolution.abort, hspec] at hop
      obtain ⟨tid, -, hop⟩ := bind_eq_ok.mp hop
      obtain rfl := pure_eq_ok.mp hop
      exact h.shrink rfl deleteName_rows rfl rfl fun _ _ _ hcol => hcol
  | alterPropertyType type prop toSql =>
      simp only [SchemaEvolution.abort, hspec] at hop
      obtain ⟨tid, -, hop⟩ := bind_eq_ok.mp hop
      obtain ⟨-, -, hop⟩ := bind_eq_ok.mp hop
      obtain rfl := pure_eq_ok.mp hop
      refine @Inv.shrink _ _ s.o.catalog.properties h rfl (fun p hp => ⟨p, hp, rfl, rfl, rfl⟩) rfl rfl ?_
      exact fun _ _ _ => foldl_dropColumn_some
  | setRequired type prop =>
      simp only [SchemaEvolution.abort, hspec] at hop
      obtain ⟨tid, -, hop⟩ := bind_eq_ok.mp hop
      obtain rfl := pure_eq_ok.mp hop
      exact ⟨h.current, h.rows, h.historyIds, h.stray, h.reports, h.fits⟩
  | addProperty _ _ _ | dropProperty _ _ | addUnique _ _ | renameType _ _ | addParent _ _
  | removeParent _ _ =>
      simp only [SchemaEvolution.abort, hspec] at hop
      obtain rfl := pure_eq_ok.mp hop
      exact h

end Phases

section Runs

variable {s s' s₀ : State}

theorem Inv.step {op : Op} (h : Inv s) (hguard : Fitting s op) (hop : step s op = .ok s') : Inv s' := by
  cases op with
  | createType graph name kind parents isAbstract => exact h.createType hguard hop
  | dropType graph name cascade instances => exact h.dropType hop
  | dropGraph graph => exact h.dropGraph hop
  | define graph defs => exact hguard.elim
  | loadRdf graph triples => exact hguard.elim
  | addProperty session gid typeName prop dtype => exact h.addProperty hguard hop
  | widen tid prop => exact h.widen hguard hop
  | enableTemporal graph name => exact h.enableTemporal hop
  | plan graph spec => exact h.plan hop
  | expand session id =>
      obtain ⟨ch, s₁, hch, -, hexpand, rfl⟩ := step_expand hop
      exact (h.expand hch hguard hexpand).save id .expanded
  | migrate id =>
      obtain ⟨ch, -, -, rfl⟩ := step_migrate hop
      exact h.save id .migrating
  | validate id violations =>
      obtain ⟨ch, -, -, ⟨-, rfl⟩ | rfl⟩ := step_validate hop
      · exact h.save id .validated
      · exact h
  | contract id =>
      obtain ⟨ch, s₁, hch, -, hcontract, rfl⟩ := step_contract hop
      exact (h.contract hch hguard hcontract).save id .contracted
  | abort id =>
      obtain ⟨ch, hch, ⟨-, rfl⟩ | ⟨-, s₁, habort, rfl⟩⟩ := step_abort hop
      · exact h.save id .aborted
      · exact (h.abort habort).save id .aborted

/-- A database before its first type. -/
structure Start (s : State) : Prop where
  noTypes : NoTypes s.o
  properties : s.o.catalog.properties = []
  histories : s.histories = []
  stray : ∀ v, s.columns (history v) = fun _ => none
  changes : s.changes = []

theorem Start.inv (h : Start s) : Inv s := by
  refine ⟨h.noTypes.current, ?_, ?_, fun v n t hcol => ?_, ?_, ?_⟩
  · simp [h.properties]
  · simp [h.histories]
  · rw [h.stray] at hcol
    cases hcol
  · simp [h.changes]
  · simp [Fits, h.properties]

theorem wellTyped_of_fitting {es : List Op} (h : Start s₀)
    (run : Run step (fun _ s op => Fitting s op) s₀ es s) : WellTyped s := by
  have hinv : Inv s := run.invariant (I := fun _ s => Inv s) h.inv
    fun _ _ _ _ hinv hguard hop => hinv.step hguard hop
  exact wellTyped_of_fits hinv.fits hinv.current.wellFormed

theorem kb_start : Start kb := ⟨⟨rfl, rfl, rfl⟩, rfl, rfl, fun _ => rfl, rfl⟩

theorem subtype_label {c : Catalog} {t u : Int} (h : u ∈ ogSubtypes c t) : ∃ l ∈ c.labels, l.typeId = u := by
  have hlabels := mem_ogSubtypes.mp h
  simp only [ogIsSubtype, List.any_eq_true, decide_eq_true_eq] at hlabels
  obtain ⟨d, hd, a, -, hid, -⟩ := hlabels
  exact ⟨d, hd, hid⟩

/-- The one type of a database is all its views list. -/
theorem eq_of_shares_book {names : List (String × String)} {u v : Int}
    (h : Shares (book names).o.catalog u v) : v = 1 := by
  obtain ⟨t, -, hv⟩ := h
  obtain ⟨l, hl, rfl⟩ := subtype_label hv
  obtain rfl := List.mem_singleton.mp hl
  rfl

theorem wellTyped_of_fitting_book : ∃ s, WellTyped s ∧ (buildView s 1 false).length = 2 := by
  have hcreate : Fitting kb (.createType "kb" "Book" .entity [] false) := by
    intro gid pids _ hpids _ p hp
    obtain rfl := pure_eq_ok.mp hpids
    cases hp
  have hadd : Fitting (book []) (.addProperty ascii 1 "Book" "p" "int8") := by
    intro tid _
    refine ⟨fun sub _ v t hshare hat => ?_, fun sub _ p hp => ?_⟩
    · obtain rfl := eq_of_shares_book hshare
      rcases hat.2 with hcol | hcol
      · have hnone : (book []).columns (current 1) (columnName ascii "p") = none := by decide
        rw [hnone] at hcol
        cases hcol
      · cases hcol
    · cases hp
  have hbelow : Fitting (book [("p", "int8")]) (.createType "kb" "Novel" .entity ["Book"] false) := by
    intro gid pids hgid hpids _
    obtain rfl : 1 = gid := Except.ok.inj hgid
    obtain rfl : [1] = pids := Except.ok.inj hpids
    have hone : ∀ p ∈ [1].flatMap (inheritedProperties (book [("p", "int8")]).o.catalog),
        p.columnName = columnName ascii "p" ∧ p.dataType = "int8" := by decide
    intro p hp
    obtain ⟨hname, htype⟩ := hone p hp
    refine ⟨fun pid _ => ⟨fun v t hshare hat => ?_, fun q hq _ _ => ?_⟩, fun q hq _ => ?_⟩
    · obtain rfl := eq_of_shares_book hshare
      rw [hname] at hat
      rw [htype]
      rcases hat.2 with hcol | hcol
      · have hown : (book [("p", "int8")]).columns (current 1) (columnName ascii "p") = some "int8" := by
          decide
        exact Option.some.inj (hcol.symm.trans hown)
      · cases hcol
    · obtain rfl := List.mem_singleton.mp hq
      exact htype.symm
    · exact (hone q hq).2.trans htype.symm
  have run : ∃ s, Run step (fun _ s op => Fitting s op) kb
      [.createType "kb" "Book" .entity [] false, .addProperty ascii 1 "Book" "p" "int8",
        .createType "kb" "Novel" .entity ["Book"] false] s ∧ (buildView s 1 false).length = 2 :=
    ⟨_, ((Run.single hcreate rfl).snoc hadd rfl).snoc hbelow rfl, rfl⟩
  obtain ⟨s, run, hlength⟩ := run
  exact ⟨s, wellTyped_of_fitting kb_start run, hlength⟩

/-- A type and one below it. -/
def novel (properties : List Property) (columns : Columns) : State where
  o := ⟨{ TypeCatalog.empty with
    graphs := [(1, "kb")]
    types := [⟨1, 1, "Book", .entity, some (nodeTable 1)⟩, ⟨2, 1, "Novel", .entity, some (nodeTable 2)⟩]
    typeParent := [(2, 1)]
    labels := [⟨2, 0, 1, 1025, 2049, 1⟩, ⟨1, 0, 1, 1, 3073, 0⟩]
    properties := properties }, 3, []⟩
  columns := columns
  histories := []
  triggers := []
  checks := []
  changes := []
  nextChange := 1

/-- A property of a subtype that its type declares anew, with another type. -/
theorem not_wellTyped :
    ¬ ∀ (s₀ s : State) (es : List Op), Start s₀ → Run step (fun _ _ _ => True) s₀ es s → WellTyped s := by
  intro h
  have hname : columnName ascii "p" = "p_p" := by decide
  have hphysical : physical "p_p" = "p_p" := by decide
  have run : ∃ cols, Run step (fun _ _ _ => True) kb
      [.createType "kb" "Book" .entity [] false, .createType "kb" "Novel" .entity ["Book"] false,
        .addProperty ascii 1 "Novel" "p" "int8", .addProperty ascii 1 "Book" "p" "text"]
      (novel [⟨2, "p", "int8", columnName ascii "p", false, false⟩,
        ⟨1, "p", "text", columnName ascii "p", false, false⟩] cols) ∧
      cols (current 1) "p_p" = some "text" ∧ cols (current 2) "p_p" = some "int8" := by
    have hbook : step kb (.createType "kb" "Book" .entity [] false) = .ok (book []) := rfl
    have hnovel : ∃ cols, step (book []) (.createType "kb" "Novel" .entity ["Book"] false) =
        .ok (novel [] cols) ∧ cols (1, false) "p_p" = none ∧ cols (2, false) "p_p" = none :=
      ⟨_, rfl, by decide, by decide⟩
    obtain ⟨cols, hnovel, hnone, hnone'⟩ := hnovel
    set cols₁ := syncHistory [] 2 (addColumn (current 2) (columnName ascii "p") "int8" cols) with hcols₁
    have hlow : step (novel [] cols) (.addProperty ascii 1 "Novel" "p" "int8") =
        .ok (novel [⟨2, "p", "int8", columnName ascii "p", false, false⟩] cols₁) := rfl
    set cols₂ := syncHistory [] 1 (addColumn (current 1) (columnName ascii "p") "text"
      (syncHistory [] 2 (addColumn (current 2) (columnName ascii "p") "text" cols₁))) with hcols₂
    have hhigh : step (novel [⟨2, "p", "int8", columnName ascii "p", false, false⟩] cols₁)
        (.addProperty ascii 1 "Book" "p" "text") =
        .ok (novel [⟨2, "p", "int8", columnName ascii "p", false, false⟩,
          ⟨1, "p", "text", columnName ascii "p", false, false⟩] cols₂) := rfl
    refine ⟨cols₂, (((Run.single trivial hbook).snoc trivial hnovel).snoc trivial hlow).snoc trivial hhigh,
      ?_, ?_⟩
    · simp [hcols₂, hcols₁, hname, syncHistory, addColumn, current, hphysical, hnone]
    · simp [hcols₂, hcols₁, hname, syncHistory, addColumn, current, hphysical, hnone']
  obtain ⟨cols, run, hown, hbelow⟩ := run
  have hsame := h kb _ _ kb_start run 1 false
  set s := novel [⟨2, "p", "int8", columnName ascii "p", false, false⟩,
    ⟨1, "p", "text", columnName ascii "p", false, false⟩] cols
  have hcolumns : viewColumns s.o.catalog 1 = [("p_p", "text")] := by
    have hcatalog : viewColumns (novel [⟨2, "p", "int8", columnName ascii "p", false, false⟩,
        ⟨1, "p", "text", columnName ascii "p", false, false⟩] fun _ _ => none).o.catalog 1 =
          [("p_p", "text")] := by decide
    exact hcatalog
  have hsources : sources s.o.catalog 1 false = [current 1, current 2] := rfl
  have harm (rel : Relation) : ownType s rel "p_p" = cols rel "p_p" := if_pos hphysical
  have hview : buildView s 1 false =
      [[("id", "int8"), ("type_id", "int4"), ("p_p", "text"), ("__ext", "jsonb")],
        [("id", "int8"), ("type_id", "int4"), ("p_p", "int8"), ("__ext", "jsonb")]] := by
    simp [buildView, hcolumns, hsources, arm, harm, hown, hbelow, header]
  rw [hview] at hsame
  exact absurd (hsame _ (List.mem_cons_self ..) _ (List.mem_cons_of_mem _ (List.mem_cons_self ..))) (by decide)

end Runs

end OntologicalDb.UnionViews
