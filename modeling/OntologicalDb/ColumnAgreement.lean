import Mathlib
import OntologicalDb.PropertyColumns
import OntologicalDb.TableEdits

/-!
Whether the rows of the properties and the columns of the tables say the same: every
row of a type with a table names a column of its type, in the history of the table too.
-/

namespace OntologicalDb.ColumnAgreement

open OntologicalDb.EvolutionFrames
open OntologicalDb.ExceptRules
open OntologicalDb.GuardedRuns
open OntologicalDb.KeyedLoops
open OntologicalDb.LabelCurrency
open OntologicalDb.Labeling
open OntologicalDb.PropertyColumns (kb ascii book)
open OntologicalDb.RowDocuments
open OntologicalDb.SchemaChanges
open OntologicalDb.SchemaEvolution
open OntologicalDb.TableEdits
open OntologicalDb.TypeCatalog
open OntologicalDb.TypedTables (Session columnName)

section Statement

/-- A type whose table has a history beside it. -/
def Versioned (c : Catalog) (tid : Int) : Prop :=
  isTemporal c tid = true ∧ keepsHistory c tid = true

def AgreesAt (c : Catalog) (cols : Columns) (p : Property) : Prop :=
  (storageTable c p.typeId).isSome →
    cols (current p.typeId) (physical p.columnName) = some p.dataType ∧
      (Versioned c p.typeId → cols (history p.typeId) (physical p.columnName) = some p.dataType)

/-- Every row of a type with a table names a column of the type it records. -/
def Agrees (s : State) : Prop :=
  ∀ p ∈ s.o.catalog.properties, AgreesAt s.o.catalog s.columns p

end Statement

section Conditions

variable (s : State)

/-- Where a property is new, its column is, or has its type. -/
def TypedAdd (session : Session) (gid : Int) (typeName prop dtype : String) : Prop :=
  ∀ tid, typeId s.o.catalog gid typeName = .ok tid → ∀ sub ∈ tables s.o.catalog tid,
    Unnamed s sub prop →
      ∀ t ∈ s.columns (current sub) (physical (columnName session prop)), t = dtype

/-- Inherited properties that share a column have one type. -/
def TypedCreate (graph : String) (kind : Kind) (parents : List String) (isAbstract : Bool) : Prop :=
  ∀ gid pids, graphId s.o.catalog graph = .ok gid →
    parents.mapM (parentId s.o.catalog gid kind) = .ok pids →
    (instanceTable kind isAbstract s.o.nextTypeId).isSome →
    ∀ p ∈ pids.flatMap (inheritedProperties s.o.catalog),
      ∀ q ∈ pids.flatMap (inheritedProperties s.o.catalog),
        physical p.columnName = physical q.columnName → p.dataType = q.dataType ∨ p.name = q.name

/-- What a table below a new parent inherits has the type of the column it finds, or of
the others that ask for it. -/
def TypedParent (ch : Change) : Prop :=
  ∀ c₁ c₂, insertParent ch.report.typeId s.o.catalog ch.report.parentId = .ok c₁ →
    relabelGraph c₁ ch.gid = .ok c₂ → ∀ sub ∈ tables c₂ ch.report.typeId,
      ∀ p ∈ inheritedProperties c₂ ch.report.parentId, Unnamed s sub p.name →
        (∀ t ∈ s.columns (current sub) (physical p.columnName), t = p.dataType) ∧
          (s.columns (current sub) (physical p.columnName) = none →
            ∀ q ∈ inheritedProperties c₂ ch.report.parentId,
              physical q.columnName = physical p.columnName →
                q.dataType = p.dataType ∨ q.name = p.name)

/-- What is on a column that is widened has the name it is widened for. -/
def TypedWiden (tid : Int) (prop : String) : Prop :=
  ∀ p, property s.o.catalog tid prop = .ok p → ∀ sub ∈ tables s.o.catalog tid,
    ∀ q ∈ s.o.catalog.properties, q.typeId = sub →
      (physical q.columnName = physical p.columnName ↔ q.name = prop) ∨ q.dataType = "text"

/-- What is on a column that is dropped has the name it is dropped for. -/
def TypedDrop (ch : Change) (prop : String) : Prop :=
  ∀ tid, typeOf s ch = .ok tid → ∀ sub ∈ tables s.o.catalog tid,
    ∀ q ∈ s.o.catalog.properties, q.typeId = sub →
      physical q.columnName = physical ch.report.column → q.name = prop

/-- Nothing is on the second column of a change of type. -/
def ShadowFree (ch : Change) : Prop :=
  ∀ tid, typeOf s ch = .ok tid → ∀ sub ∈ tables s.o.catalog tid,
    ∀ q ∈ s.o.catalog.properties, q.typeId = sub →
      physical q.columnName ≠ physical ch.report.shadow

/-- What is on the column is updated with it, and the second column has the new type. -/
def TypedSwap (ch : Change) : Prop :=
  ShadowFree s ch ∧ ∀ tid, typeOf s ch = .ok tid → ∀ sub ∈ tables s.o.catalog tid,
    ∀ q ∈ s.o.catalog.properties, q.typeId = sub →
      physical q.columnName = physical ch.report.column →
        (q.columnName = ch.report.column ∨ q.dataType = ch.report.toSql) ∧
          s.columns (current sub) (physical ch.report.shadow) = some ch.report.toSql ∧
            (Versioned s.o.catalog sub →
              s.columns (history sub) (physical ch.report.shadow) = some ch.report.toSql)

/-- The conditions under which an operation keeps rows and columns together, for the
operations on types and properties and the phases of schema changes. -/
def Typed (s : State) : Op → Prop
  | .createType graph _ kind parents isAbstract => TypedCreate s graph kind parents isAbstract
  | .addProperty session gid typeName prop dtype => TypedAdd s session gid typeName prop dtype
  | .widen tid prop => TypedWiden s tid prop
  | .expand session id => ∀ ch, s.change id = .ok ch →
      match ch.spec with
      | .addProperty type prop dtype => TypedAdd s session ch.gid type prop dtype
      | _ => True
  | .contract id => ∀ ch, s.change id = .ok ch →
      match ch.spec with
      | .dropProperty _ prop => TypedDrop s ch prop
      | .alterPropertyType _ _ _ => TypedSwap s ch
      | .addParent _ _ => TypedParent s ch
      | _ => True
  | .abort id => ∀ ch, s.change id = .ok ch → ch.phase ≠ .planned →
      match ch.spec with
      | .alterPropertyType _ _ _ => ShadowFree s ch
      | _ => True
  | .define _ _ | .loadRdf _ _ | .dropGraph _ => False
  | _ => True

end Conditions

section Frames

variable {c c' : Catalog} {cols cols' : Columns} {s s' : State} {p p' : Property}

/-- A type is as it was, or no longer temporal. -/
structure SameAt (c c' : Catalog) (tid : Int) : Prop where
  storage : storageTable c' tid = storageTable c tid
  temporal : isTemporal c' tid = true → isTemporal c tid = true

theorem SameAt.versioned {tid : Int} (h : SameAt c c' tid) (hv : Versioned c' tid) : Versioned c tid := by
  obtain ⟨htemporal, hkeeps⟩ := hv
  refine ⟨h.temporal htemporal, ?_⟩
  unfold keepsHistory at hkeeps ⊢
  rwa [h.storage] at hkeeps

/-- A row of one of the tables that an operation leaves alone. -/
theorem AgreesAt.frame (h : AgreesAt c cols p) (hid : p.typeId = p'.typeId)
    (hcol : p.columnName = p'.columnName) (htype : p.dataType = p'.dataType)
    (hsame : SameAt c c' p.typeId) (hcur : cols' (current p.typeId) = cols (current p.typeId))
    (hhist : cols' (history p.typeId) = cols (history p.typeId)) : AgreesAt c' cols' p' := by
  intro hstorage
  rw [← hid] at hstorage ⊢
  rw [← hcol, ← htype, hcur, hhist]
  rw [hsame.storage] at hstorage
  obtain ⟨h₁, h₂⟩ := h hstorage
  exact ⟨h₁, fun hv => h₂ (hsame.versioned hv)⟩

theorem SameAt.refl (c : Catalog) (tid : Int) : SameAt c c tid := ⟨rfl, id⟩

/-- What remains above a type decides whether it is still temporal. -/
theorem isTemporal_of_above (hc : WellFormed c) (hc' : WellFormed c') {tid g g' : Int}
    (hmem : tid ∈ graphTypes c g) (hmem' : tid ∈ graphTypes c' g')
    (habove : ∀ a ∈ c'.temporal, IsSubtype c' tid a → a ∈ c.temporal ∧ IsSubtype c tid a)
    (h : isTemporal c' tid = true) : isTemporal c tid = true := by
  obtain ⟨a, ha, hsub⟩ := (isTemporal_iff hc' hmem').mp h
  exact (isTemporal_iff hc hmem).mpr ⟨a, habove a ha hsub⟩

theorem storage_graph {tid : Int} (h : (storageTable c tid).isSome) : ∃ g, tid ∈ graphTypes c g := by
  obtain ⟨t, ht, rfl⟩ := storageTable_mem h
  exact ⟨t.graphId, graphTypes_of_mem ht⟩

/-- Versioned types have a table, so they are types. -/
theorem Versioned.storage {tid : Int} (h : Versioned c tid) : (storageTable c tid).isSome := by
  obtain ⟨t, ht, -⟩ := (Option.any_eq_true _ _).mp h.2
  simp [ht]

/-- What carries the agreement through a run. -/
structure Inv (s : State) : Prop where
  current : Current s.o
  rows : ∀ p ∈ s.o.catalog.properties, p.typeId < s.o.nextTypeId
  historyIds : ∀ t ∈ s.histories, t < s.o.nextTypeId
  temporal : ∀ t, Versioned s.o.catalog t → t ∈ s.histories
  reports : ∀ ch ∈ s.changes, ch.report.typeId < s.o.nextTypeId ∧
    ∀ g, ch.report.typeId ∈ graphTypes s.o.catalog g → g = ch.gid
  agree : Agrees s

theorem Inv.own_tables (h : Inv s) {tid gid : Int} {name : String}
    (ht : typeId s.o.catalog gid name = .ok tid) (hstorage : (storageTable s.o.catalog tid).isSome) :
    tid ∈ tables s.o.catalog tid := by
  refine mem_tables.mpr ⟨?_, hstorage⟩
  have hmem := tryTypeId_mem (typeId_eq_ok.mp ht)
  exact (mem_ogSubtypes_iff h.current.wellFormed hmem).mpr .refl

/-- Rows are taken away or written under other names, and the columns stay. -/
theorem Inv.frame (h : Inv s) (hcur : Current s'.o) (hnext : s.o.nextTypeId ≤ s'.o.nextTypeId)
    (hrows : ∀ p' ∈ s'.o.catalog.properties, ∃ p ∈ s.o.catalog.properties,
      p.typeId = p'.typeId ∧ p.columnName = p'.columnName ∧ p.dataType = p'.dataType)
    (hsame : ∀ t, (storageTable s'.o.catalog t).isSome → SameAt s.o.catalog s'.o.catalog t)
    (hgraph : ∀ t g, t ∈ graphTypes s'.o.catalog g → t ∈ graphTypes s.o.catalog g)
    (hcols : s'.columns = s.columns) (hhist : s'.histories = s.histories)
    (hchanges : ∀ ch' ∈ s'.changes, ∃ ch ∈ s.changes, ch.report = ch'.report ∧ ch.gid = ch'.gid) :
    Inv s' where
  current := hcur
  rows := fun p' hp' => by
    obtain ⟨p, hp, hid, -⟩ := hrows p' hp'
    exact hid ▸ (h.rows p hp).trans_le hnext
  historyIds := fun t ht => (h.historyIds t (hhist ▸ ht)).trans_le hnext
  temporal := fun t hv => hhist ▸ h.temporal t ((hsame t hv.storage).versioned hv)
  reports := fun ch' hch' => by
    obtain ⟨ch, hch, hreport, hgid⟩ := hchanges ch' hch'
    obtain ⟨hlt, hg⟩ := h.reports ch hch
    rw [← hreport, ← hgid]
    exact ⟨hlt.trans_le hnext, fun g hmem => hg g (hgraph _ g hmem)⟩
  agree := fun p' hp' hstorage => by
    obtain ⟨p, hp, hid, hcol, htype⟩ := hrows p' hp'
    rw [hcols]
    have hsame := hsame p.typeId (hid ▸ hstorage)
    exact (h.agree p hp).frame hid hcol htype hsame rfl rfl hstorage

/-- Rows and columns are edited, and the types stay. -/
theorem Inv.edit (h : Inv s) (ps : List Property) (ho : s'.o = (s.withProperties ps).o)
    (hrows : ∀ p ∈ ps, p.typeId < s.o.nextTypeId) (hhist : s'.histories = s.histories)
    (hchanges : s'.changes = s.changes) (hagree : ∀ p ∈ ps, AgreesAt s.o.catalog s'.columns p) :
    Inv s' := by
  have hcur : Current (s.withProperties ps).o := h.current.same ⟨rfl, rfl, rfl⟩
  refine ⟨ho ▸ hcur, ?_, ?_, ?_, ?_, ?_⟩
  · rw [ho]
    exact hrows
  · rw [ho, hhist]
    exact h.historyIds
  · rw [ho, hhist]
    exact h.temporal
  · rw [ho, hchanges]
    exact h.reports
  · unfold Agrees
    rw [ho]
    exact hagree

/-- The phase of a change says nothing about rows and columns. -/
theorem Inv.save (h : Inv s) (id : Nat) (phase : Phase) : Inv (s.save id phase) := by
  refine h.frame h.current le_rfl (fun p hp => ⟨p, hp, rfl, rfl, rfl⟩) (fun t _ => .refl _ t)
    (fun _ _ hmem => hmem) rfl rfl fun ch' hch' => ?_
  obtain ⟨ch, hch, rfl⟩ := List.mem_map.mp hch'
  refine ⟨ch, hch, ?_⟩
  split <;> exact ⟨rfl, rfl⟩

/-- Rows and columns after a loop that edits tables and brings histories up to date. -/
theorem AgreesAt.synced {e : Int → Columns → Columns} {E : TableColumns → TableColumns}
    (he : EditsCurrent e E) {subs hs : List Int} (hnodup : subs.Nodup)
    (hown : p.typeId ∈ subs → E (cols (SchemaEvolution.current p.typeId)) (physical p.columnName) =
      some p.dataType)
    (hold : p.typeId ∉ subs → AgreesAt c cols p) (hhist : Versioned c p.typeId → p.typeId ∈ hs) :
    AgreesAt c (subs.foldl (fun cols sub => syncHistory hs sub (e sub cols)) cols) p := by
  intro hstorage
  obtain ⟨hcur, hhistory⟩ := foldl_synced he hnodup hs cols p.typeId
  by_cases hsub : p.typeId ∈ subs
  · rw [hcur, hhistory, if_pos hsub]
    refine ⟨hown hsub, fun hv => ?_⟩
    rw [if_pos ⟨hsub, hhist hv⟩]
    exact synced_of_some (hown hsub)
  · rw [hcur, hhistory, if_neg hsub, if_neg fun hand => hsub hand.1]
    exact hold hsub hstorage

end Frames

section Types

variable {s s' : State}

/-- A new type leaves the others as they are. -/
theorem SameAt.of_create {o o' : Ontology} {r : TypeRow} {pids : List Int} (hc : Current o)
    (hc' : Current o') (hid : r.typeId = o.nextTypeId)
    (htypes : o'.catalog.types = o.catalog.types ++ [r])
    (hlinks : o'.catalog.typeParent = o.catalog.typeParent ++ pids.map fun pid => (o.nextTypeId, pid))
    (htemporal : o'.catalog.temporal = o.catalog.temporal) {tid : Int} (hne : tid ≠ o.nextTypeId)
    (hstorage : (storageTable o'.catalog tid).isSome) : SameAt o.catalog o'.catalog tid := by
  have hsame : storageTable o'.catalog tid = storageTable o.catalog tid :=
    storageTable_append htypes (hid ▸ hne)
  refine ⟨hsame, ?_⟩
  obtain ⟨g', hmem'⟩ := storage_graph hstorage
  obtain ⟨g, hmem⟩ := storage_graph (hsame ▸ hstorage)
  refine isTemporal_of_above hc.wellFormed hc'.wellFormed hmem hmem' fun a ha hsub => ?_
  exact ⟨htemporal ▸ ha, isSubtype_created hc hlinks hne hsub⟩

theorem Inv.reports_create {o' : Ontology} {r : TypeRow} (h : Inv s)
    (hid : r.typeId = s.o.nextTypeId) (htypes : o'.catalog.types = s.o.catalog.types ++ [r])
    (hnext : o'.nextTypeId = s.o.nextTypeId + 1) :
    ∀ ch ∈ s.changes, ch.report.typeId < o'.nextTypeId ∧
      ∀ g, ch.report.typeId ∈ graphTypes o'.catalog g → g = ch.gid := by
  intro ch hch
  obtain ⟨hlt, hgraph⟩ := h.reports ch hch
  refine ⟨by omega, fun g hg => ?_⟩
  rcases graphTypes_append htypes hg with hg | heq
  · exact hgraph g hg
  · omega

/-- The first inherited property of a name and the first on its column have one type. -/
theorem copied_first {inherited : List Property} {tid : Int} {p : Property}
    (hfirst : (copies tid inherited).find? (fun q => q.typeId = p.typeId ∧ q.name = p.name) = some p)
    (hagree : ∀ q ∈ inherited, physical q.columnName = physical p.columnName →
      q.dataType = p.dataType ∨ q.name = p.name) :
    ((inherited.find? fun q => physical q.columnName = physical p.columnName).map (·.dataType)) =
      some p.dataType := by
  rw [copies, List.find?_map] at hfirst
  obtain ⟨p₀, hp₀, rfl⟩ := Option.map_eq_some_iff.mp hfirst
  have hmem := List.mem_of_find?_eq_some hp₀
  cases hcol : inherited.find? fun q => physical q.columnName = physical p₀.columnName with
  | none => exact absurd (List.find?_eq_none.mp hcol p₀ hmem) (by simp)
  | some q =>
      have hq := List.find?_some hcol
      rcases hagree q (List.mem_of_find?_eq_some hcol) (of_decide_eq_true hq) with htype | hname
      · exact congrArg some htype
      · have heq := find?_eq_of_accepts hp₀ hcol (by simpa using hname) (by simp)
        have htype : q.dataType = p₀.dataType := congrArg Property.dataType heq.symm
        exact congrArg some htype

theorem Inv.createType {graph name : String} {kind : Kind} {parents : List String} {isAbstract : Bool}
    (h : Inv s) (hguard : TypedCreate s graph kind parents isAbstract)
    (hop : SchemaEvolution.createType s graph name kind parents isAbstract = .ok s') : Inv s' := by
  simp only [SchemaEvolution.createType] at hop
  obtain ⟨gid, hgid, hop⟩ := bind_eq_ok.mp hop
  obtain ⟨pids, hpids, hop⟩ := bind_eq_ok.mp hop
  split at hop
  · next htable =>
    obtain ⟨o', hcreate, hop⟩ := bind_eq_ok.mp hop
    obtain rfl := pure_eq_ok.mp hop
    have hcur : Current o' := (h.current.pending gid).createType hcreate
    obtain ⟨pids', c₁, hpids', hrest, hrel, hnext⟩ := createType_eq_ok hcreate
    obtain rfl := Except.ok.inj (hpids.symm.trans hpids')
    obtain rfl := Except.ok.inj hrest
    have hcat := relabelGraph_eq hrel
    have htypes : o'.catalog.types = s.o.catalog.types ++
        [⟨s.o.nextTypeId, gid, name, kind, instanceTable kind isAbstract s.o.nextTypeId⟩] := by rw [hcat]
    have hsame {t : Int} (hne : t ≠ s.o.nextTypeId) (hstorage : (storageTable o'.catalog t).isSome) :
        SameAt s.o.catalog o'.catalog t :=
      .of_create h.current hcur rfl htypes (by rw [hcat]) (by rw [hcat]) hne hstorage
    have hrows : ∀ p ∈ o'.catalog.properties, p ∈ s.o.catalog.properties ∨ p.typeId = s.o.nextTypeId ∧
        ((copies s.o.nextTypeId (pids.flatMap (inheritedProperties s.o.catalog))).find?
          fun q => q.typeId = p.typeId ∧ q.name = p.name) = some p := by
      intro p hp
      rw [hcat] at hp
      refine (find_insertProperties hp).imp_right fun hfound => ⟨?_, hfound.1⟩
      obtain ⟨p₀, -, rfl⟩ := mem_copies.mp (List.mem_of_find?_eq_some hfound.1)
      rfl
    have hview (t : Int) := createdView_eq s o' (pids.flatMap (inheritedProperties s.o.catalog)) t
    refine ⟨?_, ?_, ?_, ?_, ?_, ?_⟩
    · rw [enableTemporalTable_o]
      exact hcur
    · rw [enableTemporalTable_o, hnext]
      intro p hp
      rcases hrows p hp with hp | ⟨hid, -⟩
      · exact (h.rows p hp).trans (Int.lt_succ _)
      · omega
    · rw [enableTemporalTable_o, hnext]
      intro t ht
      by_cases hne : t = s.o.nextTypeId
      · omega
      · rw [mem_histories, hview, if_neg hne, ← mem_histories] at ht
        exact (h.historyIds t ht).trans (Int.lt_succ _)
    · rw [enableTemporalTable_o]
      intro t hv
      rw [mem_histories, hview]
      by_cases hne : t = s.o.nextTypeId
      · rw [if_pos hne, temporalView_versioned hv.1 hv.2]
      · rw [if_neg hne, ← mem_histories]
        exact h.temporal t ((hsame hne hv.storage).versioned hv)
    · rw [enableTemporalTable_o, enableTemporalTable_changes]
      exact h.reports_create rfl htypes hnext
    · intro p hp hstorage
      rw [enableTemporalTable_o] at hp hstorage ⊢
      rcases hrows p hp with hp | ⟨hid, hfirst⟩
      · have hne := (h.rows p hp).ne
        have hsame_view := (hview p.typeId).trans (if_neg hne)
        exact (h.agree p hp).frame rfl rfl rfl (hsame hne hstorage) (congrArg (·.2.1) hsame_view)
          (congrArg (·.2.2) hsame_view) hstorage
      · have hown := (hview p.typeId).trans (if_pos hid)
        have hmem := List.mem_of_find?_eq_some hfirst
        obtain ⟨p₀, hp₀, heq⟩ := mem_copies.mp hmem
        have hcopied := copied_first hfirst fun q hq hcol => by
          refine (hguard gid pids hgid hpids htable q hq p₀ hp₀ ?_).imp ?_ ?_
          · rw [hcol, ← heq]
          · exact fun htype => htype.trans (by rw [← heq])
          · exact fun hname => hname.trans (by rw [← heq])
        have hcol : copied (pids.flatMap (inheritedProperties s.o.catalog)) (fun _ => none)
            (physical p.columnName) = some p.dataType := by
          simpa [copied] using hcopied
        have hcur' := congrArg (·.2.1) hown
        have hhist' := congrArg (·.2.2) hown
        simp only [temporalView_current] at hcur'
        refine ⟨(congrFun hcur' _).trans hcol, fun hv => ?_⟩
        rw [temporalView_versioned hv.1 hv.2] at hhist'
        exact (congrFun hhist' _).trans (synced_of_some hcol)
  · next htable =>
    obtain ⟨o', hcreate, hop⟩ := bind_eq_ok.mp hop
    obtain rfl := pure_eq_ok.mp hop
    have hcur : Current o' := (h.current.pending gid).createType hcreate
    obtain ⟨pids', c₁, hpids', hrest, hrel, hnext⟩ := createType_eq_ok hcreate
    obtain rfl := Except.ok.inj hrest
    have hcat := relabelGraph_eq hrel
    have htypes : o'.catalog.types = s.o.catalog.types ++
        [⟨s.o.nextTypeId, gid, name, kind, instanceTable kind isAbstract s.o.nextTypeId⟩] := by rw [hcat]
    have hprops : o'.catalog.properties = s.o.catalog.properties := by rw [hcat]
    have hsame {t : Int} (hstorage : (storageTable o'.catalog t).isSome) :
        t ≠ s.o.nextTypeId ∧ SameAt s.o.catalog o'.catalog t := by
      have hne : t ≠ s.o.nextTypeId := by
        rintro rfl
        rw [storageTable_new htypes h.current.fresh] at hstorage
        exact htable hstorage
      exact ⟨hne, .of_create h.current hcur rfl htypes (by rw [hcat]) (by rw [hcat]) hne hstorage⟩
    refine ⟨hcur, fun p hp => ?_, fun t ht => ?_, fun t hv => ?_, h.reports_create rfl htypes hnext,
      fun p hp hstorage => ?_⟩
    · have hlt := h.rows p (hprops ▸ hp)
      change p.typeId < o'.nextTypeId
      omega
    · have hlt := h.historyIds t ht
      change t < o'.nextTypeId
      omega
    · exact h.temporal t ((hsame hv.storage).2.versioned hv)
    · exact (h.agree p (hprops ▸ hp)).frame rfl rfl rfl (hsame hstorage).2 rfl rfl hstorage

theorem Inv.dropType {graph name : String} {cascade : Bool} {instances : List Int → Nat} (h : Inv s)
    (hop : SchemaEvolution.dropType s graph name cascade instances = .ok s') : Inv s' := by
  simp only [SchemaEvolution.dropType] at hop
  obtain ⟨gid, -, hop⟩ := bind_eq_ok.mp hop
  obtain ⟨tid, -, hop⟩ := bind_eq_ok.mp hop
  obtain ⟨o, hdrop, hop⟩ := bind_eq_ok.mp hop
  obtain rfl := pure_eq_ok.mp hop
  have hcur : Current o := h.current.dropType hdrop
  obtain ⟨tid', c₁, -, hdel, hrel, hnext⟩ := dropType_eq_ok hdrop
  obtain ⟨htypes, hlinks, hprops, htemporal⟩ := deleteTypes_eq hdel
  have hcat := relabelGraph_eq hrel
  have htypes' : o.catalog.types = s.o.catalog.types.filter
      fun t => t.typeId ∉ ogSubtypes s.o.catalog tid' := by rw [hcat]; exact htypes
  have hgraph : ∀ t g, t ∈ graphTypes o.catalog g → t ∈ graphTypes s.o.catalog g := by
    intro t g hmem
    obtain ⟨r, hr, hg, hid⟩ := mem_graphTypes.mp hmem
    exact mem_graphTypes.mpr ⟨r, (List.mem_filter.mp (htypes' ▸ hr)).1, hg, hid⟩
  refine h.frame hcur hnext.ge (fun p hp => ⟨p, ?_, rfl, rfl, rfl⟩) (fun t hstorage => ?_) hgraph rfl rfl
    fun ch hch => ⟨ch, hch, rfl, rfl⟩
  · have hp : p ∈ o.catalog.properties := hp
    rw [hcat] at hp
    rw [hprops] at hp
    exact (List.mem_filter.mp hp).1
  · obtain ⟨-, hstorage'⟩ := storageTable_filter htypes' hstorage
    obtain ⟨g, hmem⟩ := storage_graph hstorage
    refine ⟨hstorage', isTemporal_of_above h.current.wellFormed hcur.wellFormed (hgraph t g hmem) hmem
      fun a ha hsub => ⟨?_, isSubtype_mono hsub ?_⟩⟩
    · rw [hcat] at ha
      rw [htemporal] at ha
      exact (List.mem_filter.mp ha).1
    · rw [hcat]
      rw [hlinks]
      exact fun l hl => (List.mem_filter.mp hl).1

theorem Inv.addProperty {gid : Int} {session : Session} {typeName prop dtype : String} (h : Inv s)
    (hguard : TypedAdd s session gid typeName prop dtype)
    (hop : SchemaEvolution.addProperty session s gid typeName prop dtype = .ok s') : Inv s' := by
  obtain ⟨tid, ht, -, rfl⟩ := addProperty_eq_ok hop
  have hrow : ∀ p ∈ (tid :: tables s.o.catalog tid).map fun sub =>
      (⟨sub, prop, dtype, columnName session prop, false, false⟩ : Property),
      ∃ sub, (sub = tid ∨ sub ∈ tables s.o.catalog tid) ∧
        p = ⟨sub, prop, dtype, columnName session prop, false, false⟩ := by
    intro p hp
    obtain ⟨sub, hsub, rfl⟩ := List.mem_map.mp hp
    exact ⟨sub, List.mem_cons.mp hsub, rfl⟩
  refine h.edit _ rfl (fun p hp => ?_) rfl rfl fun p hp => ?_
  · rcases mem_insertProperties hp with hp | ⟨hp, -⟩
    · exact h.rows p hp
    · obtain ⟨sub, hsub, rfl⟩ := hrow p hp
      rcases hsub with rfl | hsub
      · obtain ⟨t, hmem, rfl⟩ := typeId_mem ht
        exact h.current.fresh t hmem
      · obtain ⟨t, hmem, rfl⟩ := storageTable_mem (mem_tables.mp hsub).2
        exact h.current.fresh t hmem
  · rcases mem_insertProperties hp with hp | ⟨hp, hpnew⟩
    · refine AgreesAt.synced addColumn_edits (tables_nodup _ _) (fun hsub => ?_) (fun _ => h.agree p hp)
        (h.temporal p.typeId)
      exact added_of_some (h.agree p hp (mem_tables.mp hsub).2).1
    · obtain ⟨sub, hsub, rfl⟩ := hrow p hp
      intro hstorage
      have hsub : sub ∈ tables s.o.catalog tid := by
        rcases hsub with rfl | hsub
        · exact h.own_tables ht hstorage
        · exact hsub
      exact AgreesAt.synced addColumn_edits (tables_nodup _ _)
        (fun _ => added_physical (hguard tid ht sub hsub hpnew)) (fun hno => absurd hsub hno)
        (h.temporal sub) hstorage

theorem Inv.widen {tid : Int} {prop : String} (h : Inv s) (hguard : TypedWiden s tid prop)
    (hop : SchemaEvolution.widenProperty s tid prop = .ok s') : Inv s' := by
  simp only [SchemaEvolution.widenProperty] at hop
  obtain ⟨p₀, hp₀, hop⟩ := bind_eq_ok.mp hop
  obtain ⟨-, -, hop⟩ := bind_eq_ok.mp hop
  obtain ⟨-, -, hop⟩ := bind_eq_ok.mp hop
  obtain rfl := pure_eq_ok.mp hop
  refine h.edit _ rfl (fun p' hp' => ?_) rfl rfl fun p' hp' => ?_
  · obtain ⟨p, hp, rfl⟩ := List.mem_map.mp hp'
    have hlt := h.rows p hp
    split <;> exact hlt
  · obtain ⟨p, hp, rfl⟩ := List.mem_map.mp hp'
    by_cases hcond : p.typeId ∈ ogSubtypes s.o.catalog tid ∧ p.name = prop
    · rw [if_pos hcond]
      intro hstorage
      have hsub : p.typeId ∈ tables s.o.catalog tid := mem_tables.mpr ⟨hcond.1, hstorage⟩
      refine AgreesAt.synced retypeColumn_edits (tables_nodup _ _) (fun _ => ?_)
        (fun hno => absurd hsub hno) (h.temporal p.typeId) hstorage
      simp only [retyped]
      split
      · rfl
      · next hcol =>
        rw [(h.agree p hp hstorage).1]
        rcases hguard p₀ hp₀ p.typeId hsub p hp rfl with hiff | htext
        · exact absurd (hiff.mpr hcond.2) hcol
        · rw [htext]
    · rw [if_neg hcond]
      refine AgreesAt.synced retypeColumn_edits (tables_nodup _ _) (fun hsub => ?_) (fun _ => h.agree p hp)
        (h.temporal p.typeId)
      obtain ⟨hbelow, hstorage⟩ := mem_tables.mp hsub
      simp only [retyped]
      split
      · next hcol =>
        rcases hguard p₀ hp₀ p.typeId hsub p hp rfl with hiff | htext
        · exact absurd ⟨hbelow, hiff.mp hcol⟩ hcond
        · rw [htext]
      · exact (h.agree p hp hstorage).1

theorem Inv.enableTemporal {graph name : String} (h : Inv s)
    (hop : SchemaEvolution.enableTemporal s graph name = .ok s') : Inv s' := by
  simp only [SchemaEvolution.enableTemporal] at hop
  obtain ⟨gid, -, hop⟩ := bind_eq_ok.mp hop
  obtain ⟨tid, ht, hop⟩ := bind_eq_ok.mp hop
  obtain ⟨kind, -, hop⟩ := bind_eq_ok.mp hop
  obtain ⟨-, -, hop⟩ := bind_eq_ok.mp hop
  obtain rfl := pure_eq_ok.mp hop
  have htid := tryTypeId_mem (typeId_eq_ok.mp ht)
  set c' : Catalog := { s.o.catalog with
    temporal := if tid ∈ s.o.catalog.temporal then s.o.catalog.temporal
      else tid :: s.o.catalog.temporal } with hc'
  obtain ⟨ho, hchanges, -⟩ := foldl_frame
    (fun _ _ => ⟨enableTable_o, enableTable_changes, enableTable_nextChange⟩)
    (s.withCatalog c') (tables s.o.catalog tid)
  have hview (t : Int) := (enableTable_local (c := c')).foldl_view (s := s.withCatalog c') rfl
    (tables_nodup s.o.catalog tid) t
  have hcur : Current (s.withCatalog c').o := h.current.same ⟨rfl, rfl, rfl⟩
  -- a type that was not temporal is one of those whose history is made
  have hsame {t : Int} (hstorage : (storageTable c' t).isSome) (hno : t ∉ tables s.o.catalog tid) :
      SameAt s.o.catalog c' t := by
    refine ⟨rfl, ?_⟩
    obtain ⟨g, hmem⟩ := storage_graph hstorage
    refine isTemporal_of_above h.current.wellFormed hcur.wellFormed hmem hmem fun a ha hsub => ⟨?_, hsub⟩
    by_cases hatid : a = tid
    · subst hatid
      have hbelow := (mem_ogSubtypes_iff h.current.wellFormed htid).mpr hsub
      exact absurd (mem_tables.mpr ⟨hbelow, hstorage⟩) hno
    · have ha : a ∈ c'.temporal := ha
      rw [hc'] at ha
      dsimp only at ha
      split at ha
      · exact ha
      · exact (List.mem_cons.mp ha).resolve_left hatid
  refine ⟨ho ▸ hcur, ?_, ?_, ?_, ?_, ?_⟩
  · rw [ho]
    exact h.rows
  · rw [ho]
    intro t hmem
    rw [mem_histories, hview] at hmem
    split at hmem
    · next hsub =>
      obtain ⟨r, hr, rfl⟩ := storageTable_mem (mem_tables.mp hsub).2
      exact h.current.fresh r hr
    · exact h.historyIds t (mem_histories.mpr hmem)
  · rw [ho]
    intro t hv
    rw [mem_histories, hview]
    by_cases hsub : t ∈ tables s.o.catalog tid
    · have hkeeps : keepsHistory c' t = true := hv.2
      rw [if_pos hsub, enabledView_keeps hkeeps]
    · rw [if_neg hsub]
      exact mem_histories.mp (h.temporal t ((hsame hv.storage hsub).versioned hv))
  · rw [ho, hchanges]
    exact h.reports
  · intro p hp hstorage
    rw [ho] at hp hstorage ⊢
    have hold := h.agree p hp
    have hview' := hview p.typeId
    by_cases hsub : p.typeId ∈ tables s.o.catalog tid
    · rw [if_pos hsub] at hview'
      obtain ⟨hcol, -⟩ := hold hstorage
      have hcur' := congrArg (·.2.1) hview'
      simp only [enabledView_current] at hcur'
      refine ⟨(congrFun hcur' _).trans hcol, fun hv => ?_⟩
      have hkeeps : keepsHistory c' p.typeId = true := hv.2
      rw [enabledView_keeps hkeeps] at hview'
      exact (congrFun (congrArg (·.2.2) hview') _).trans (synced_of_some hcol)
    · rw [if_neg hsub] at hview'
      exact hold.frame rfl rfl rfl (hsame hstorage hsub) (congrArg (·.2.1) hview')
        (congrArg (·.2.2) hview') hstorage

end Types

section Phases

variable {s s' s₁ : State} {ch : Change}

theorem Inv.plan {graph : String} {spec : Spec} (h : Inv s)
    (hop : SchemaEvolution.plan s graph spec = .ok s') : Inv s' := by
  simp only [SchemaEvolution.plan] at hop
  obtain ⟨gid, -, hop⟩ := bind_eq_ok.mp hop
  obtain ⟨report, hreport, hop⟩ := bind_eq_ok.mp hop
  obtain rfl := pure_eq_ok.mp hop
  refine ⟨h.current, h.rows, h.historyIds, h.temporal, fun ch hch => ?_, h.agree⟩
  rcases List.mem_append.mp hch with hch | hch
  · exact h.reports ch hch
  · obtain rfl := List.mem_singleton.mp hch
    have ht := analyse_typeId hreport
    obtain ⟨t, hmem, hid⟩ := typeId_mem ht
    refine ⟨hid ▸ h.current.fresh t hmem, fun g hg => ?_⟩
    exact (h.current.pending g).graph_unique hg (tryTypeId_mem (typeId_eq_ok.mp ht))

/-- Rows written under another name, or not at all. -/
theorem Inv.rename (h : Inv s) {ps : List Property}
    (hps : ∀ p' ∈ ps, ∃ p ∈ s.o.catalog.properties,
      p.typeId = p'.typeId ∧ p.columnName = p'.columnName ∧ p.dataType = p'.dataType) :
    Inv (s.withProperties ps) := by
  refine h.edit _ rfl (fun p' hp' => ?_) rfl rfl fun p' hp' => ?_
  · obtain ⟨p, hp, hid, -⟩ := hps p' hp'
    exact hid ▸ h.rows p hp
  · obtain ⟨p, hp, hid, hcol, htype⟩ := hps p' hp'
    exact (h.agree p hp).frame hid hcol htype (.refl _ _) rfl rfl

theorem Inv.expand {session : Session} {id : Nat} (h : Inv s) (hch : s.change id = .ok ch)
    (hguard : Typed s (.expand session id)) (hop : SchemaEvolution.expand session s ch = .ok s₁) :
    Inv s₁ := by
  have htyped := hguard ch hch
  cases hspec : ch.spec with
  | addProperty type prop dtype =>
      simp only [SchemaEvolution.expand, hspec] at hop htyped
      exact h.addProperty htyped hop
  | renameProperty type old new =>
      simp only [SchemaEvolution.expand, hspec] at hop
      obtain ⟨tid, -, hop⟩ := bind_eq_ok.mp hop
      obtain ⟨-, -, hop⟩ := bind_eq_ok.mp hop
      obtain rfl := pure_eq_ok.mp hop
      refine h.rename fun p' hp' => ?_
      rcases List.mem_append.mp hp' with hp' | hp'
      · exact ⟨p', hp', rfl, rfl, rfl⟩
      · obtain ⟨p, hp, rfl⟩ := List.mem_map.mp hp'
        exact ⟨p, (List.mem_filter.mp hp).1, rfl, rfl, rfl⟩
  | alterPropertyType type prop toSql =>
      simp only [SchemaEvolution.expand, hspec] at hop
      obtain ⟨tid, -, hop⟩ := bind_eq_ok.mp hop
      obtain ⟨-, -, hop⟩ := bind_eq_ok.mp hop
      obtain rfl := pure_eq_ok.mp hop
      refine h.edit s.o.catalog.properties rfl h.rows rfl rfl fun p hp => ?_
      refine AgreesAt.synced addColumn_edits (tables_nodup _ _) (fun hsub => ?_) (fun _ => h.agree p hp)
        (h.temporal p.typeId)
      exact added_of_some (h.agree p hp (mem_tables.mp hsub).2).1
  | setRequired type prop =>
      simp only [SchemaEvolution.expand, hspec] at hop
      obtain ⟨tid, -, hop⟩ := bind_eq_ok.mp hop
      obtain ⟨-, -, hop⟩ := bind_eq_ok.mp hop
      obtain rfl := pure_eq_ok.mp hop
      exact ⟨h.current, h.rows, h.historyIds, h.temporal, h.reports, h.agree⟩
  | dropProperty _ _ | addUnique _ _ | renameType _ _ | addParent _ _ | removeParent _ _ =>
      simp only [SchemaEvolution.expand, hspec] at hop
      obtain rfl := pure_eq_ok.mp hop
      exact h

theorem deleteName_rows {c : Catalog} {subs : List Int} {name : String} :
    ∀ p' ∈ deleteName c subs name, ∃ p ∈ c.properties,
      p.typeId = p'.typeId ∧ p.columnName = p'.columnName ∧ p.dataType = p'.dataType :=
  fun p' hp' => ⟨p', (List.mem_filter.mp hp').1, rfl, rfl, rfl⟩

theorem Inv.contract_drop {type prop : String} (h : Inv s) (hspec : ch.spec = .dropProperty type prop)
    (hguard : TypedDrop s ch prop) (hop : SchemaEvolution.contract s ch = .ok s₁) : Inv s₁ := by
  simp only [SchemaEvolution.contract, hspec] at hop
  obtain ⟨tid, ht, hop⟩ := bind_eq_ok.mp hop
  obtain ⟨-, -, hop⟩ := bind_eq_ok.mp hop
  obtain rfl := pure_eq_ok.mp hop
  refine h.edit _ rfl (fun p hp => h.rows p (List.mem_filter.mp hp).1) rfl rfl fun p hp hstorage => ?_
  obtain ⟨hp, hkept⟩ := List.mem_filter.mp hp
  have hkept := of_decide_eq_true hkept
  obtain ⟨hcur, hhist⟩ := foldl_current (dropColumn_edits ch.report.column)
    (tables_nodup s.o.catalog tid) s.columns p.typeId
  obtain ⟨hcol, hver⟩ := h.agree p hp hstorage
  refine ⟨?_, fun hv => (congrFun hhist _).trans (hver hv)⟩
  refine (congrFun hcur _).trans ?_
  split
  · next hsub =>
    have hne : physical p.columnName ≠ physical ch.report.column := fun heq =>
      hkept ⟨(mem_tables.mp hsub).1, hguard tid ht p.typeId hsub p hp rfl heq⟩
    rw [dropped, if_neg hne]
    exact hcol
  · exact hcol

/-- One table of a change of type: a row on the column is updated with it. -/
theorem swapped_agrees {cur : TableColumns} {p p' : Property} {column shadow toSql : String}
    (hcol : cur (physical p.columnName) = some p.dataType)
    (hfree : physical p.columnName ≠ physical shadow)
    (hcolumn : p'.columnName = p.columnName)
    (hon : physical p.columnName = physical column →
      cur (physical shadow) = some toSql ∧ p'.dataType = toSql)
    (hoff : physical p.columnName ≠ physical column → p'.dataType = p.dataType) :
    swapped column shadow cur (physical p'.columnName) = some p'.dataType := by
  rw [hcolumn]
  unfold swapped
  split
  · next heq =>
    obtain ⟨hshadow, htype⟩ := hon heq
    rw [hshadow, htype]
  · next hne =>
    rw [hcol, hoff hne]

theorem Inv.contract_alter {type prop toSql : String} (h : Inv s)
    (hspec : ch.spec = .alterPropertyType type prop toSql) (hguard : TypedSwap s ch)
    (hop : SchemaEvolution.contract s ch = .ok s₁) : Inv s₁ := by
  simp only [SchemaEvolution.contract, hspec, contractAlter] at hop
  obtain ⟨tid, ht, hop⟩ := bind_eq_ok.mp hop
  obtain ⟨-, -, hop⟩ := bind_eq_ok.mp hop
  obtain ⟨-, -, hop⟩ := bind_eq_ok.mp hop
  obtain rfl := pure_eq_ok.mp hop
  refine h.edit _ rfl (fun p' hp' => ?_) rfl rfl fun p' hp' => ?_
  · obtain ⟨p, hp, rfl⟩ := List.mem_map.mp hp'
    have hlt := h.rows p hp
    split <;> exact hlt
  · obtain ⟨p, hp, rfl⟩ := List.mem_map.mp hp'
    set p' : Property := if p.typeId ∈ ogSubtypes s.o.catalog tid ∧ p.columnName = ch.report.column
      then { p with dataType := ch.report.toSql } else p with hp'
    have hid : p'.typeId = p.typeId := by rw [hp']; split <;> rfl
    have hcolumn : p'.columnName = p.columnName := by rw [hp']; split <;> rfl
    intro hstorage
    rw [hid] at hstorage ⊢
    obtain ⟨hcol, hver⟩ := h.agree p hp hstorage
    obtain ⟨hcur, hhist⟩ := foldl_relationsOf (s := s)
      (swapColumn_eq ch.report.column ch.report.shadow) (tables_nodup s.o.catalog tid) s.columns
      p.typeId
    by_cases hsub : p.typeId ∈ tables s.o.catalog tid
    · have hfree := hguard.1 tid ht p.typeId hsub p hp rfl
      have hswap := hguard.2 tid ht p.typeId hsub p hp rfl
      have htype (heq : physical p.columnName = physical ch.report.column) :
          p'.dataType = ch.report.toSql := by
        rw [hp']
        split
        · rfl
        · next hcond =>
          exact (hswap heq).1.resolve_left fun hname => hcond ⟨(mem_tables.mp hsub).1, hname⟩
      have hoff (hne : physical p.columnName ≠ physical ch.report.column) :
          p'.dataType = p.dataType := by
        rw [hp', if_neg fun hcond => hne (congrArg physical hcond.2)]
      rw [if_pos hsub] at hcur
      refine ⟨(congrFun hcur _).trans ?_, fun hv => ?_⟩
      · exact swapped_agrees hcol hfree hcolumn (fun heq => ⟨(hswap heq).2.1, htype heq⟩) hoff
      · rw [if_pos ⟨hsub, h.temporal p.typeId hv⟩] at hhist
        refine (congrFun hhist _).trans ?_
        exact swapped_agrees (hver hv) hfree hcolumn (fun heq => ⟨(hswap heq).2.2 hv, htype heq⟩) hoff
    · have hsame : p' = p := by
        rw [hp', if_neg fun hcond => hsub (mem_tables.mpr ⟨hcond.1, hstorage⟩)]
      rw [if_neg hsub] at hcur
      rw [if_neg fun hand => hsub hand.1] at hhist
      rw [hsame]
      exact ⟨(congrFun hcur _).trans hcol, fun hv => (congrFun hhist _).trans (hver hv)⟩

/-- Columns that are dropped on tables and histories, with no row on them. -/
theorem Inv.abort_alter {type prop toSql : String} (h : Inv s)
    (hspec : ch.spec = .alterPropertyType type prop toSql) (hguard : ShadowFree s ch)
    (hop : SchemaEvolution.abort s ch = .ok s₁) : Inv s₁ := by
  simp only [SchemaEvolution.abort, hspec] at hop
  obtain ⟨tid, ht, hop⟩ := bind_eq_ok.mp hop
  obtain ⟨-, -, hop⟩ := bind_eq_ok.mp hop
  obtain rfl := pure_eq_ok.mp hop
  refine h.edit s.o.catalog.properties rfl h.rows rfl rfl fun p hp hstorage => ?_
  obtain ⟨hcol, hver⟩ := h.agree p hp hstorage
  obtain ⟨hcur, hhist⟩ := foldl_relationsOf (s := s) (dropColumn_eq ch.report.shadow)
    (tables_nodup s.o.catalog tid) s.columns p.typeId
  by_cases hsub : p.typeId ∈ tables s.o.catalog tid
  · have hfree := hguard tid ht p.typeId hsub p hp rfl
    have hkept {cur : TableColumns} (hcol : cur (physical p.columnName) = some p.dataType) :
        dropped ch.report.shadow cur (physical p.columnName) = some p.dataType := by
      rw [dropped, if_neg hfree, hcol]
    rw [if_pos hsub] at hcur
    refine ⟨(congrFun hcur _).trans (hkept hcol), fun hv => ?_⟩
    rw [if_pos ⟨hsub, h.temporal p.typeId hv⟩] at hhist
    exact (congrFun hhist _).trans (hkept (hver hv))
  · rw [if_neg hsub] at hcur
    rw [if_neg fun hand => hsub hand.1] at hhist
    exact ⟨(congrFun hcur _).trans hcol, fun hv => (congrFun hhist _).trans (hver hv)⟩

/-- A row copied to a table is the first of its name among those the table inherits. -/
theorem find_copies {subs : List Int} {inherited : List Property} {p : Property}
    (h : (subs.flatMap fun sub => copies sub inherited).find?
      (fun q => q.typeId = p.typeId ∧ q.name = p.name) = some p) :
    p.typeId ∈ subs ∧ (copies p.typeId inherited).find?
      (fun q => q.typeId = p.typeId ∧ q.name = p.name) = some p := by
  rw [List.find?_flatMap] at h
  obtain ⟨sub, hsub, hfound⟩ := List.exists_of_findSome?_eq_some h
  obtain ⟨p₀, -, heq⟩ := mem_copies.mp (List.mem_of_find?_eq_some hfound)
  have hid : p.typeId = sub := by rw [← heq]
  exact ⟨hid ▸ hsub, hid ▸ hfound⟩

theorem Inv.contract_addParent {type parent : String} (h : Inv s)
    (hspec : ch.spec = .addParent type parent) (hguard : TypedParent s ch)
    (hop : SchemaEvolution.contract s ch = .ok s₁) : Inv s₁ := by
  simp only [SchemaEvolution.contract, hspec] at hop
  obtain ⟨_, hmem, hop⟩ := bind_eq_ok.mp hop
  obtain ⟨htid, hpid⟩ := require_eq_ok.mp hmem
  obtain ⟨c₁, hins, hop⟩ := bind_eq_ok.mp hop
  obtain ⟨c₂, hrel, hop⟩ := bind_eq_ok.mp hop
  obtain rfl := pure_eq_ok.mp hop
  have hfits := hguard c₁ c₂ hins hrel
  obtain rfl := insertParent_eq_ok hins
  have hlinked : Current { s.o with catalog := c₂ } := Current.linked h.current htid hpid hrel
  have hcat := relabelGraph_eq hrel
  have hprops : c₂.properties = s.o.catalog.properties := by rw [hcat]
  have htypes : c₂.types = s.o.catalog.types := by rw [hcat]
  have hgraph (t g : Int) : t ∈ graphTypes c₂ g ↔ t ∈ graphTypes s.o.catalog g := by
    simp only [graphTypes, htypes]
  set tid := ch.report.typeId with htid'
  set inherited := inheritedProperties c₂ ch.report.parentId
  set ps := ((tables c₂ tid).flatMap fun sub => copies sub inherited).foldl insertProperty
    c₂.properties
  set c₃ : Catalog := { c₂ with properties := ps }
  have hcur : Current { s.o with catalog := c₃ } := hlinked.same ⟨rfl, rfl, rfl⟩
  obtain ⟨ho, hchanges, -⟩ := foldl_frame (f := inheritTable inherited)
    (fun _ _ => ⟨enableTemporalTable_o, enableTemporalTable_changes, enableTemporalTable_nextChange⟩)
    (s.withCatalog c₃) (tables c₂ tid)
  have hview (t : Int) := (inheritTable_local c₃ inherited).foldl_view
    (s := s.withCatalog { c₂ with properties := ps }) rfl (tables_nodup c₂ tid) t
  -- a type that becomes temporal is below the new link
  have hsame {t : Int} (hstorage : (storageTable c₂ t).isSome) (hno : t ∉ tables c₂ tid) :
      SameAt s.o.catalog c₂ t := by
    refine ⟨storageTable_congr htypes t, ?_⟩
    obtain ⟨g, hmem⟩ := storage_graph hstorage
    refine isTemporal_of_above h.current.wellFormed hlinked.wellFormed ((hgraph t g).mp hmem) hmem
      fun a ha hsub => ⟨by rw [hcat] at ha; exact ha, ?_⟩
    have hsub' : IsSubtype { s.o.catalog with
        typeParent := s.o.catalog.typeParent ++ [(tid, ch.report.parentId)] } t a :=
      isSubtype_mono hsub (by rw [hcat]; exact List.Subset.refl _)
    rcases isSubtype_append hsub' with hsub' | ⟨l, hl, hbelow⟩
    · exact hsub'
    · obtain rfl := List.mem_singleton.mp hl
      have hbelow' : IsSubtype c₂ t tid := isSubtype_mono hbelow (by
        rw [hcat]
        exact List.subset_append_left _ _)
      have hmem' := (mem_ogSubtypes_iff hlinked.wellFormed ((hgraph tid ch.gid).mpr htid)).mpr hbelow'
      exact absurd (mem_tables.mpr ⟨hmem', hstorage⟩) hno
  have hrow : ∀ p ∈ ps, p ∈ s.o.catalog.properties ∨ p.typeId ∈ tables c₂ tid ∧
      (copies p.typeId inherited).find? (fun q => q.typeId = p.typeId ∧ q.name = p.name) = some p ∧
        Unnamed s p.typeId p.name := by
    intro p hp
    rcases find_insertProperties hp with hp | ⟨hfirst, hnew⟩
    · exact .inl (hprops ▸ hp)
    · obtain ⟨hsub, hfirst⟩ := find_copies hfirst
      exact .inr ⟨hsub, hfirst, fun q hq => hnew q (hprops ▸ hq)⟩
  have hknown {t : Int} (hsub : t ∈ tables c₂ tid) : t < s.o.nextTypeId := by
    obtain ⟨r, hr, rfl⟩ := storageTable_mem (mem_tables.mp hsub).2
    exact h.current.fresh r (htypes ▸ hr)
  refine ⟨ho ▸ hcur, ?_, ?_, ?_, ?_, ?_⟩
  · rw [ho]
    intro p hp
    rcases hrow p hp with hp | ⟨hsub, -⟩
    · exact h.rows p hp
    · exact hknown hsub
  · rw [ho]
    intro t hmem
    rw [mem_histories, hview] at hmem
    split at hmem
    · next hsub => exact hknown hsub
    · exact h.historyIds t (mem_histories.mpr hmem)
  · rw [ho]
    intro t hv
    have hv : Versioned c₃ t := hv
    rw [mem_histories, hview]
    by_cases hsub : t ∈ tables c₂ tid
    · rw [if_pos hsub, inheritedView_versioned hv.1 hv.2]
    · rw [if_neg hsub]
      exact mem_histories.mp (h.temporal t ((hsame hv.storage hsub).versioned hv))
  · rw [ho, hchanges]
    intro ch' hch'
    obtain ⟨hlt, hg⟩ := h.reports ch' hch'
    exact ⟨hlt, fun g hmem => hg g ((hgraph _ g).mp hmem)⟩
  · intro p hp hstorage
    rw [ho] at hp hstorage ⊢
    have hview' := hview p.typeId
    by_cases hsub : p.typeId ∈ tables c₂ tid
    · rw [if_pos hsub] at hview'
      have hcopied : copied inherited (s.columns (SchemaEvolution.current p.typeId))
          (physical p.columnName) =
          some p.dataType := by
        rcases hrow p hp with hold | ⟨-, hfirst, hnew⟩
        · have hstorage' : (storageTable s.o.catalog p.typeId).isSome :=
            storageTable_congr htypes p.typeId ▸ hstorage
          rw [copied, (h.agree p hold hstorage').1]
          rfl
        · obtain ⟨p₀, hp₀, heq⟩ := mem_copies.mp (List.mem_of_find?_eq_some hfirst)
          have hcol : p₀.columnName = p.columnName := by rw [← heq]
          have htype : p₀.dataType = p.dataType := by rw [← heq]
          have hname : p₀.name = p.name := by rw [← heq]
          obtain ⟨hfound, hnone⟩ := hfits p.typeId hsub p₀ hp₀ (hname ▸ hnew)
          rw [hcol, htype] at hfound hnone
          cases hcur' : s.columns (SchemaEvolution.current p.typeId) (physical p.columnName) with
          | none =>
              rw [copied, hcur', Option.none_or]
              exact copied_first hfirst fun q hq hqcol => hname ▸ hnone hcur' q hq hqcol
          | some t =>
              rw [copied, hcur', hfound t hcur']
              rfl
      have hcur' := congrArg (·.2.1) hview'
      simp only [inheritedView_current] at hcur'
      refine ⟨(congrFun hcur' _).trans hcopied, fun hv => ?_⟩
      have hv : Versioned c₃ p.typeId := hv
      rw [inheritedView_versioned hv.1 hv.2] at hview'
      exact (congrFun (congrArg (·.2.2) hview') _).trans (synced_of_some hcopied)
    · rw [if_neg hsub] at hview'
      have hold := (hrow p hp).resolve_right fun hnew => hsub hnew.1
      have hsame₃ : SameAt s.o.catalog c₃ p.typeId := ⟨(hsame hstorage hsub).storage,
        (hsame hstorage hsub).temporal⟩
      exact (h.agree p hold).frame rfl rfl rfl hsame₃ (congrArg (·.2.1) hview')
        (congrArg (·.2.2) hview') hstorage

theorem Inv.contract_removeParent {type parent : String} (h : Inv s)
    (hspec : ch.spec = .removeParent type parent) (hmem : ch ∈ s.changes)
    (hop : SchemaEvolution.contract s ch = .ok s₁) : Inv s₁ := by
  simp only [SchemaEvolution.contract, hspec] at hop
  obtain ⟨c₁, hrel, hop⟩ := bind_eq_ok.mp hop
  obtain rfl := pure_eq_ok.mp hop
  have hcur : Current { s.o with catalog := c₁ } :=
    Current.unlinked h.current (h.reports ch hmem).2 hrel
  have hcat := relabelGraph_eq hrel
  have htypes : c₁.types = s.o.catalog.types := by rw [hcat]
  have hgraph (t g : Int) : t ∈ graphTypes c₁ g ↔ t ∈ graphTypes s.o.catalog g := by
    simp only [graphTypes, htypes]
  refine h.frame hcur le_rfl (fun p hp => ⟨p, ?_, rfl, rfl, rfl⟩) (fun t hstorage => ?_)
    (fun t g => (hgraph t g).mp) rfl rfl fun ch' hch' => ⟨ch', hch', rfl, rfl⟩
  · have hp : p ∈ c₁.properties := hp
    rw [hcat] at hp
    exact hp
  · refine ⟨storageTable_congr htypes t, ?_⟩
    obtain ⟨g, hg⟩ := storage_graph hstorage
    refine isTemporal_of_above h.current.wellFormed hcur.wellFormed ((hgraph t g).mp hg) hg
      fun a ha hsub => ⟨?_, isSubtype_mono hsub ?_⟩
    · have ha : a ∈ c₁.temporal := ha
      rw [hcat] at ha
      exact ha
    · change c₁.typeParent ⊆ _
      rw [hcat]
      exact fun l hl => (List.mem_filter.mp hl).1

/-- The updates of rows that set no name of a column and no type. -/
theorem Inv.update_rows {subs : List Int} {column : String} {f : Property → Property} (h : Inv s)
    (hf : ∀ p, (f p).typeId = p.typeId ∧ (f p).columnName = p.columnName ∧
      (f p).dataType = p.dataType) :
    Inv (s.withProperties (updateColumnRows s.o.catalog subs column f)) := by
  refine h.rename fun p' hp' => ?_
  obtain ⟨p, hp, rfl⟩ := List.mem_map.mp hp'
  refine ⟨p, hp, ?_⟩
  split
  · exact ⟨(hf p).1.symm, (hf p).2.1.symm, (hf p).2.2.symm⟩
  · exact ⟨rfl, rfl, rfl⟩

/-- Constraints say nothing about rows and columns. -/
theorem Inv.withChecks (h : Inv s) (checks : List Check) : Inv { s with checks := checks } :=
  ⟨h.current, h.rows, h.historyIds, h.temporal, h.reports, h.agree⟩

theorem Inv.contract_renameType {type new : String} (h : Inv s) (hspec : ch.spec = .renameType type new)
    (hop : SchemaEvolution.contract s ch = .ok s₁) : Inv s₁ := by
  simp only [SchemaEvolution.contract, hspec] at hop
  obtain ⟨tid, -, hop⟩ := bind_eq_ok.mp hop
  obtain ⟨-, -, hop⟩ := bind_eq_ok.mp hop
  obtain rfl := pure_eq_ok.mp hop
  set f : TypeRow → TypeRow := fun t => if t.typeId = tid then { t with name := new } else t with hf
  have hid (t : TypeRow) : (f t).typeId = t.typeId ∧ (f t).graphId = t.graphId ∧
      (f t).storageTable = t.storageTable := by
    rw [hf]
    dsimp only
    split <;> exact ⟨rfl, rfl, rfl⟩
  refine h.frame (current_mapTypes h.current fun t => ⟨(hid t).1, (hid t).2.1⟩) le_rfl
    (fun p hp => ⟨p, hp, rfl, rfl, rfl⟩) (fun t _ => ⟨?_, fun htemporal => htemporal⟩) ?_ rfl rfl
    fun ch' hch' => ⟨ch', hch', rfl, rfl⟩
  · change storageTable { s.o.catalog with types := s.o.catalog.types.map f } t = _
    unfold storageTable
    rw [typeRow?_map fun t => (hid t).1]
    cases typeRow? s.o.catalog t with
    | none => rfl
    | some r => exact (hid r).2.2
  · intro t g hmem
    obtain ⟨r', hr', hg, ht⟩ := mem_graphTypes.mp hmem
    obtain ⟨r, hr, rfl⟩ := List.mem_map.mp hr'
    exact mem_graphTypes.mpr ⟨r, hr, (hid r).2.1 ▸ hg, (hid r).1 ▸ ht⟩

theorem Inv.contract {id : Nat} (h : Inv s) (hch : s.change id = .ok ch)
    (hguard : Typed s (.contract id)) (hop : SchemaEvolution.contract s ch = .ok s₁) : Inv s₁ := by
  have htyped := hguard ch hch
  cases hspec : ch.spec with
  | addProperty type prop dtype =>
      simp only [SchemaEvolution.contract, hspec] at hop
      obtain rfl := pure_eq_ok.mp hop
      exact h
  | dropProperty type prop =>
      simp only [hspec] at htyped
      exact h.contract_drop hspec htyped hop
  | renameProperty type old new =>
      simp only [SchemaEvolution.contract, hspec] at hop
      obtain ⟨tid, -, hop⟩ := bind_eq_ok.mp hop
      obtain rfl := pure_eq_ok.mp hop
      exact h.rename deleteName_rows
  | alterPropertyType type prop toSql =>
      simp only [hspec] at htyped
      exact h.contract_alter hspec htyped hop
  | setRequired type prop =>
      simp only [SchemaEvolution.contract, hspec] at hop
      obtain ⟨tid, -, hop⟩ := bind_eq_ok.mp hop
      obtain ⟨-, -, hop⟩ := bind_eq_ok.mp hop
      obtain rfl := pure_eq_ok.mp hop
      have hrows : Inv (s.withProperties (updateColumnRows s.o.catalog (ogSubtypes s.o.catalog tid)
          ch.report.column fun p => { p with required := true })) :=
        h.update_rows fun _ => ⟨rfl, rfl, rfl⟩
      exact hrows.withChecks _
  | addUnique type prop =>
      simp only [SchemaEvolution.contract, hspec] at hop
      obtain ⟨tid, -, hop⟩ := bind_eq_ok.mp hop
      obtain ⟨-, -, hop⟩ := bind_eq_ok.mp hop
      obtain rfl := pure_eq_ok.mp hop
      exact h.update_rows fun _ => ⟨rfl, rfl, rfl⟩
  | renameType type new => exact h.contract_renameType hspec hop
  | addParent type parent =>
      simp only [hspec] at htyped
      exact h.contract_addParent hspec htyped hop
  | removeParent type parent => exact h.contract_removeParent hspec (change_eq_ok hch).1 hop

theorem Inv.abort {id : Nat} (h : Inv s) (hch : s.change id = .ok ch) (hphase : ch.phase ≠ .planned)
    (hguard : Typed s (.abort id)) (hop : SchemaEvolution.abort s ch = .ok s₁) : Inv s₁ := by
  have htyped := hguard ch hch hphase
  cases hspec : ch.spec with
  | renameProperty type old new =>
      simp only [SchemaEvolution.abort, hspec] at hop
      obtain ⟨tid, -, hop⟩ := bind_eq_ok.mp hop
      obtain rfl := pure_eq_ok.mp hop
      exact h.rename deleteName_rows
  | alterPropertyType type prop toSql =>
      simp only [hspec] at htyped
      exact h.abort_alter hspec htyped hop
  | setRequired type prop =>
      simp only [SchemaEvolution.abort, hspec] at hop
      obtain ⟨tid, -, hop⟩ := bind_eq_ok.mp hop
      obtain rfl := pure_eq_ok.mp hop
      exact h.withChecks _
  | addProperty _ _ _ | dropProperty _ _ | addUnique _ _ | renameType _ _ | addParent _ _
  | removeParent _ _ =>
      simp only [SchemaEvolution.abort, hspec] at hop
      obtain rfl := pure_eq_ok.mp hop
      exact h

end Phases

section Runs

variable {s s' s₀ : State}

theorem Inv.step {op : Op} (h : Inv s) (hguard : Typed s op) (hop : step s op = .ok s') : Inv s' := by
  cases op with
  | createType graph name kind parents isAbstract => exact h.createType hguard hop
  | dropType graph name cascade instances => exact h.dropType hop
  | dropGraph graph => exact hguard.elim
  | define graph defs => exact hguard.elim
  | loadRdf graph triples => exact hguard.elim
  | addProperty session gid typeName prop dtype => exact h.addProperty hguard hop
  | widen tid prop => exact h.widen hguard hop
  | enableTemporal graph name => exact h.enableTemporal hop
  | plan graph spec => exact h.plan hop
  | expand session id =>
      obtain ⟨ch, s₁, hch, -, hexpand, rfl⟩ := step_expand hop
      exact (h.expand hch hguard hexpand).save id .expanded
  | migrate id =>
      obtain ⟨ch, -, -, rfl⟩ := step_migrate hop
      exact h.save id .migrating
  | validate id violations =>
      obtain ⟨ch, -, -, ⟨-, rfl⟩ | rfl⟩ := step_validate hop
      · exact h.save id .validated
      · exact h
  | contract id =>
      obtain ⟨ch, s₁, hch, -, hcontract, rfl⟩ := step_contract hop
      exact (h.contract hch hguard hcontract).save id .contracted
  | abort id =>
      obtain ⟨ch, hch, ⟨-, rfl⟩ | ⟨hphase, s₁, habort, rfl⟩⟩ := step_abort hop
      · exact h.save id .aborted
      · exact (h.abort hch hphase hguard habort).save id .aborted

/-- A database before its first type. -/
structure Start (s : State) : Prop where
  noTypes : NoTypes s.o
  properties : s.o.catalog.properties = []
  histories : s.histories = []
  changes : s.changes = []

theorem Start.inv (h : Start s) : Inv s := by
  refine ⟨h.noTypes.current, ?_, ?_, fun t hv => ?_, ?_, ?_⟩
  · simp [h.properties]
  · simp [h.histories]
  · obtain ⟨r, hr, -⟩ := storageTable_mem hv.storage
    rw [h.noTypes.types] at hr
    cases hr
  · simp [h.changes]
  · simp [Agrees, h.properties]

theorem kb_start : Start kb := ⟨⟨rfl, rfl, rfl⟩, rfl, rfl, rfl⟩

end Runs

end OntologicalDb.ColumnAgreement
