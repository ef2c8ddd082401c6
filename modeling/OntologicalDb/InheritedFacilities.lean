import Mathlib
import OntologicalDb.GraphFrames
import OntologicalDb.KeyedLoops
import OntologicalDb.PropertyColumns

/-!
Stamping, temporality and history capture, which a type passes on to the types below
it: what each leaves on the tables, and when it is put there.
-/

namespace OntologicalDb.InheritedFacilities

open OntologicalDb.EvolutionFrames
open OntologicalDb.ExceptRules
open OntologicalDb.GraphFrames
open OntologicalDb.GuardedRuns
open OntologicalDb.KeyedLoops
open OntologicalDb.LabelCurrency
open OntologicalDb.Labeling
open OntologicalDb.RowDocuments
open OntologicalDb.SchemaChanges
open OntologicalDb.SchemaEvolution
open OntologicalDb.TypeCatalog
open OntologicalDb.TypedTables (Session)

section Facilities

/-- The schema with `og_catalog.stamped`, the keys that are on in `og_catalog.setting`, and
the tables that have the stamp columns and `og_a_stamp`, the temporal columns and
`og_b_temporal`, and `og_hist_N`. The catalog does not say which types
`og_enable_history` was called on; `tracked` does. -/
structure Database where
  schema : State
  stamped : List Int
  settings : List String
  stampTables : List Int
  validTables : List Int
  captureTables : List Int
  tracked : List Int

variable (d : Database)

def Database.catalog : Catalog := d.schema.o.catalog

def historyKey (graph name : String) : String := s!"history.{graph}.{name}"

def stampTable (sub : Int) : Database := { d with stampTables := d.stampTables.insert sub }

/-- `enable_table`, but for the history table, which the schema keeps. -/
def versionTable (sub : Int) : Database :=
  if keepsHistory d.catalog sub then
    let d := stampTable d sub
    { d with validTables := d.validTables.insert sub }
  else d

def captureTable (sub : Int) : Database := { d with captureTables := d.captureTables.insert sub }

def inheritsStamping (tid : Int) : Bool := (ogSupertypes d.catalog tid).any fun t => t ∈ d.stamped

def inheritStamping (sub : Int) : Database := if inheritsStamping d sub then stampTable d sub else d

def inheritVersioning (sub : Int) : Database :=
  if isTemporal d.catalog sub then versionTable d sub else d

/-- What a table gets from the types above it when its type or a link is new. -/
def inheritFacilities (d : Database) (sub : Int) : Database :=
  inheritVersioning (inheritStamping d sub) sub

/-- Some type at or above this one has a name that history is on for. -/
def historyOn (graph : String) (tid : Int) : Bool :=
  d.catalog.types.any fun t => t.typeId ∈ ogSupertypes d.catalog tid ∧
    historyKey graph t.name ∈ d.settings

def inheritHistoryCapture (graph : String) (tid : Int) : Database :=
  if historyOn d graph tid ∧ (storageTable d.catalog tid).isSome then captureTable d tid else d

/-- `create_type_inner`. -/
def createType (graph name : String) (kind : Kind) (parents : List String) (isAbstract : Bool) :
    Except String Database := do
  let tid := d.schema.o.nextTypeId
  let s ← SchemaEvolution.createType d.schema graph name kind parents isAbstract
  let d := { d with schema := s }
  if (instanceTable kind isAbstract tid).isSome then
    return inheritHistoryCapture (inheritFacilities d tid) graph tid
  else return d

/-- `og_enable_stamping`. -/
def enableStamping (graph name : String) : Except String Database := do
  let gid ← graphId d.catalog graph
  let tid ← typeId d.catalog gid name
  return (tables d.catalog tid).foldl stampTable { d with stamped := d.stamped.insert tid }

/-- `og_enable_temporal`. -/
def enableTemporal (graph name : String) : Except String Database := do
  let gid ← graphId d.catalog graph
  let tid ← typeId d.catalog gid name
  let s ← SchemaEvolution.enableTemporal d.schema graph name
  let d := { d with schema := s, stamped := d.stamped.insert tid }
  return (tables d.catalog tid).foldl versionTable d

/-- `og_enable_history`. -/
def enableHistory (graph name : String) : Except String Database := do
  let gid ← graphId d.catalog graph
  let tid ← typeId d.catalog gid name
  return (tables d.catalog tid).foldl captureTable { d with
    settings := d.settings.insert (historyKey graph name)
    tracked := d.tracked.insert tid }

/-- The contraction of a change; a new parent brings its facilities, but not the capture
of history. -/
def contract (id : Nat) : Except String Database := do
  let ch ← d.schema.change id
  let s ← SchemaEvolution.step d.schema (.contract id)
  let d := { d with schema := s }
  match ch.spec with
  | .addParent _ _ => return (tables d.catalog ch.report.typeId).foldl inheritFacilities d
  | _ => return d

end Facilities

section Events

/-- The schema changes that are about the hierarchy. -/
inductive HierarchyChange
  | renameType (type newName : String)
  | addParent (type parent : String)
deriving DecidableEq

def HierarchyChange.spec : HierarchyChange → Spec
  | .renameType type newName => .renameType type newName
  | .addParent type parent => .addParent type parent

/-- What creates a type, changes its place or name, or enables a facility. -/
inductive Event
  | createType (graph name : String) (kind : Kind) (parents : List String) (isAbstract : Bool)
  | enableStamping (graph name : String)
  | enableTemporal (graph name : String)
  | enableHistory (graph name : String)
  | plan (graph : String) (change : HierarchyChange)
  | expand (session : Session) (id : Nat)
  | migrate (id : Nat)
  | validate (id : Nat) (violations : Nat)
  | contract (id : Nat)
  | abort (id : Nat)

/-- An operation that attaches nothing. -/
def schemaStep (d : Database) (op : Op) : Except String Database := do
  return { d with schema := ← SchemaEvolution.step d.schema op }

def step (d : Database) : Event → Except String Database
  | .createType graph name kind parents isAbstract => createType d graph name kind parents isAbstract
  | .enableStamping graph name => enableStamping d graph name
  | .enableTemporal graph name => enableTemporal d graph name
  | .enableHistory graph name => enableHistory d graph name
  | .plan graph change => schemaStep d (.plan graph change.spec)
  | .expand session id => schemaStep d (.expand session id)
  | .migrate id => schemaStep d (.migrate id)
  | .validate id violations => schemaStep d (.validate id violations)
  | .contract id => contract d id
  | .abort id => schemaStep d (.abort id)

/-- Every table at or below a type that a facility was enabled on has it. -/
structure Inherited (d : Database) : Prop where
  stamping : ∀ t ∈ d.stamped, ∀ sub ∈ tables d.catalog t, sub ∈ d.stampTables
  temporality : ∀ t ∈ d.catalog.temporal, ∀ sub ∈ tables d.catalog t,
    sub ∈ d.validTables ∧ sub ∈ d.schema.histories
  history : ∀ t ∈ d.tracked, ∀ sub ∈ tables d.catalog t, sub ∈ d.captureTables

/-- What keeps the facilities inherited: a type created below one that history was enabled
on finds a name history is on for, its own or one above; and a type that gets a parent
below one that history was enabled on is captured with its subtypes already. -/
def Reached (d : Database) : Event → Prop
  | .createType graph name kind parents isAbstract =>
      (instanceTable kind isAbstract d.schema.o.nextTypeId).isSome →
      ∀ gid pids, graphId d.catalog graph = .ok gid →
        parents.mapM (parentId d.catalog gid kind) = .ok pids →
        (∃ pid ∈ pids, ∃ t ∈ d.tracked, t ∈ ogSupertypes d.catalog pid) →
        historyKey graph name ∈ d.settings ∨ ∃ pid ∈ pids, historyOn d graph pid
  | .contract id => ∀ ch, d.schema.change id = .ok ch → ∀ type parent, ch.spec = .addParent type parent →
      (∃ t ∈ d.tracked, t ∈ ogSupertypes d.catalog ch.report.parentId) →
      ∀ sub ∈ tables d.catalog ch.report.typeId, sub ∈ d.captureTables
  | _ => True

end Events

section Histories

variable {s s' : State}

/-- The history tables only get more, and the catalog stays. -/
def MoreHistories (s s' : State) : Prop := s'.o = s.o ∧ s.histories ⊆ s'.histories

/-- The table has its history if it keeps one. -/
def HasHistory (sub : Int) (s : State) : Prop := keepsHistory s.o.catalog sub → sub ∈ s.histories

theorem MoreHistories.refl (s : State) : MoreHistories s s := ⟨rfl, List.Subset.refl _⟩

theorem MoreHistories.trans {s₁ s₂ s₃ : State} (h : MoreHistories s₁ s₂) (h' : MoreHistories s₂ s₃) :
    MoreHistories s₁ s₃ :=
  ⟨h'.1.trans h.1, List.Subset.trans h.2 h'.2⟩

theorem HasHistory.up {sub : Int} (h : MoreHistories s s') (hsub : HasHistory sub s) :
    HasHistory sub s' := by
  intro hkeeps
  rw [h.1] at hkeeps
  exact h.2 (hsub hkeeps)

theorem moreHistories_enableTable (s : State) (sub : Int) : MoreHistories s (enableTable s sub) := by
  refine ⟨enableTable_o, fun t ht => ?_⟩
  unfold enableTable
  split
  · show t ∈ if sub ∈ s.histories then s.histories else s.histories ++ [sub]
    split
    · exact ht
    · exact List.mem_append_left _ ht
  · exact ht

theorem hasHistory_enableTable (s : State) (sub : Int) : HasHistory sub (enableTable s sub) := by
  intro hkeeps
  rw [enableTable_o] at hkeeps
  unfold enableTable
  rw [if_pos hkeeps]
  show sub ∈ if sub ∈ s.histories then s.histories else s.histories ++ [sub]
  split
  · assumption
  · exact List.mem_append_right _ (List.mem_singleton_self sub)

theorem moreHistories_enableTemporalTable (s : State) (sub : Int) :
    MoreHistories s (enableTemporalTable s sub) := by
  unfold enableTemporalTable
  split
  · exact moreHistories_enableTable s sub
  · exact .refl s

theorem hasHistory_enableTemporalTable (s : State) (sub : Int) :
    isTemporal s.o.catalog sub → HasHistory sub (enableTemporalTable s sub) := by
  intro htemporal
  unfold enableTemporalTable
  rw [if_pos htemporal]
  exact hasHistory_enableTable s sub

theorem moreHistories_inheritTable (inherited : List Property) (s : State) (sub : Int) :
    MoreHistories s (inheritTable inherited s sub) := by
  obtain ⟨ho, hmore⟩ := moreHistories_enableTemporalTable
    { s with columns := copyColumns sub inherited s.columns } sub
  exact ⟨ho, hmore⟩

theorem hasHistory_inheritTable (inherited : List Property) (s : State) (sub : Int) :
    isTemporal (inheritTable inherited s sub).o.catalog sub →
      HasHistory sub (inheritTable inherited s sub) := by
  intro htemporal
  rw [(moreHistories_inheritTable inherited s sub).1] at htemporal
  exact hasHistory_enableTemporalTable { s with columns := copyColumns sub inherited s.columns } sub
    htemporal

/-- After the loop over the tables below a new parent. -/
theorem histories_inheritTables (inherited : List Property) (s : State) (subs : List Int) :
    MoreHistories s (subs.foldl (inheritTable inherited) s) ∧
      ∀ sub ∈ subs, isTemporal s.o.catalog sub →
        HasHistory sub (subs.foldl (inheritTable inherited) s) := by
  have hup {sub : Int} {s s' : State} (h : MoreHistories s s')
      (hsub : isTemporal s.o.catalog sub → HasHistory sub s) :
      isTemporal s'.o.catalog sub → HasHistory sub s' := by
    intro htemporal
    rw [h.1] at htemporal
    exact (hsub htemporal).up h
  obtain ⟨hmore, hall⟩ := foldl_reaches (Q := fun sub s => isTemporal s.o.catalog sub → HasHistory sub s)
    MoreHistories.refl MoreHistories.trans (moreHistories_inheritTable inherited)
    (hasHistory_inheritTable inherited) hup s subs
  refine ⟨hmore, fun sub hmem htemporal => hall sub hmem ?_⟩
  rw [hmore.1]
  exact htemporal

theorem histories_enableTables (s : State) (subs : List Int) :
    MoreHistories s (subs.foldl enableTable s) ∧ ∀ sub ∈ subs, HasHistory sub (subs.foldl enableTable s) :=
  foldl_reaches MoreHistories.refl MoreHistories.trans moreHistories_enableTable hasHistory_enableTable
    HasHistory.up s subs

end Histories

section Attaching

variable {d d' : Database} {sub : Int}

/-- The tables only get more, and what is said of the types stays. -/
structure Attaches (d d' : Database) : Prop where
  schema : d'.schema = d.schema
  stamped : d'.stamped = d.stamped
  settings : d'.settings = d.settings
  tracked : d'.tracked = d.tracked
  stampTables : d.stampTables ⊆ d'.stampTables
  validTables : d.validTables ⊆ d'.validTables
  captureTables : d.captureTables ⊆ d'.captureTables

theorem Attaches.refl (d : Database) : Attaches d d :=
  ⟨rfl, rfl, rfl, rfl, List.Subset.refl _, List.Subset.refl _, List.Subset.refl _⟩

theorem Attaches.trans {d₁ d₂ d₃ : Database} (h : Attaches d₁ d₂) (h' : Attaches d₂ d₃) :
    Attaches d₁ d₃ where
  schema := h'.schema.trans h.schema
  stamped := h'.stamped.trans h.stamped
  settings := h'.settings.trans h.settings
  tracked := h'.tracked.trans h.tracked
  stampTables := List.Subset.trans h.stampTables h'.stampTables
  validTables := List.Subset.trans h.validTables h'.validTables
  captureTables := List.Subset.trans h.captureTables h'.captureTables

theorem Attaches.catalog (h : Attaches d d') : d'.catalog = d.catalog := by
  unfold Database.catalog
  rw [h.schema]

theorem attaches_stampTable (d : Database) (sub : Int) : Attaches d (stampTable d sub) where
  schema := rfl
  stamped := rfl
  settings := rfl
  tracked := rfl
  stampTables := fun _ ht => List.mem_insert_of_mem ht
  validTables := List.Subset.refl _
  captureTables := List.Subset.refl _

theorem mem_stampTable (d : Database) (sub : Int) : sub ∈ (stampTable d sub).stampTables :=
  List.mem_insert_self

theorem attaches_versionTable (d : Database) (sub : Int) : Attaches d (versionTable d sub) := by
  unfold versionTable
  split
  · exact (attaches_stampTable d sub).trans ⟨rfl, rfl, rfl, rfl, List.Subset.refl _,
      fun _ ht => List.mem_insert_of_mem ht, List.Subset.refl _⟩
  · exact .refl d

theorem mem_versionTable (d : Database) (sub : Int) (hkeeps : keepsHistory d.catalog sub) :
    sub ∈ (versionTable d sub).stampTables ∧ sub ∈ (versionTable d sub).validTables := by
  unfold versionTable
  rw [if_pos hkeeps]
  exact ⟨mem_stampTable d sub, List.mem_insert_self⟩

theorem attaches_captureTable (d : Database) (sub : Int) : Attaches d (captureTable d sub) :=
  ⟨rfl, rfl, rfl, rfl, List.Subset.refl _, List.Subset.refl _, fun _ ht => List.mem_insert_of_mem ht⟩

theorem mem_captureTable (d : Database) (sub : Int) : sub ∈ (captureTable d sub).captureTables :=
  List.mem_insert_self

/-- The table has what the marks above its type call for, history capture apart. -/
structure Equipped (sub : Int) (d : Database) : Prop where
  stamped : inheritsStamping d sub → sub ∈ d.stampTables
  temporal : isTemporal d.catalog sub → keepsHistory d.catalog sub → sub ∈ d.validTables

theorem Equipped.up (h : Attaches d d') (hsub : Equipped sub d) : Equipped sub d' := by
  have hinherits : inheritsStamping d' sub = inheritsStamping d sub := by
    unfold inheritsStamping
    rw [h.catalog, h.stamped]
  refine ⟨fun hstamped => ?_, fun htemporal hkeeps => ?_⟩
  · rw [hinherits] at hstamped
    exact h.stampTables (hsub.stamped hstamped)
  · rw [h.catalog] at htemporal hkeeps
    exact h.validTables (hsub.temporal htemporal hkeeps)

theorem attaches_inheritStamping (d : Database) (sub : Int) : Attaches d (inheritStamping d sub) := by
  unfold inheritStamping
  split
  · exact attaches_stampTable d sub
  · exact .refl d

theorem attaches_inheritVersioning (d : Database) (sub : Int) : Attaches d (inheritVersioning d sub) := by
  unfold inheritVersioning
  split
  · exact attaches_versionTable d sub
  · exact .refl d

theorem attaches_inheritFacilities (d : Database) (sub : Int) : Attaches d (inheritFacilities d sub) :=
  (attaches_inheritStamping d sub).trans (attaches_inheritVersioning _ sub)

theorem equipped_inheritFacilities (d : Database) (sub : Int) : Equipped sub (inheritFacilities d sub) := by
  have hstamping := attaches_inheritStamping d sub
  have hversioning := attaches_inheritVersioning (inheritStamping d sub) sub
  constructor
  · intro hstamped
    have hold : inheritsStamping d sub := by
      unfold inheritsStamping at hstamped ⊢
      rwa [(attaches_inheritFacilities d sub).catalog, (attaches_inheritFacilities d sub).stamped] at hstamped
    apply hversioning.stampTables
    rw [inheritStamping, if_pos hold]
    exact mem_stampTable d sub
  · intro htemporal hkeeps
    rw [inheritFacilities, hversioning.catalog] at htemporal hkeeps
    rw [inheritFacilities, inheritVersioning, if_pos htemporal]
    exact (mem_versionTable _ sub hkeeps).2

/-- After the loop over the tables below a new parent. -/
theorem equipped_inheritTables (d : Database) (subs : List Int) :
    Attaches d (subs.foldl inheritFacilities d) ∧
      ∀ sub ∈ subs, Equipped sub (subs.foldl inheritFacilities d) :=
  foldl_reaches Attaches.refl Attaches.trans attaches_inheritFacilities equipped_inheritFacilities
    Equipped.up d subs

theorem stamped_tables (d : Database) (subs : List Int) :
    Attaches d (subs.foldl stampTable d) ∧ ∀ sub ∈ subs, sub ∈ (subs.foldl stampTable d).stampTables :=
  foldl_reaches (Q := fun sub (d : Database) => sub ∈ d.stampTables) Attaches.refl Attaches.trans
    attaches_stampTable mem_stampTable (fun h hsub => h.stampTables hsub) d subs

theorem captured_tables (d : Database) (subs : List Int) :
    Attaches d (subs.foldl captureTable d) ∧
      ∀ sub ∈ subs, sub ∈ (subs.foldl captureTable d).captureTables :=
  foldl_reaches (Q := fun sub (d : Database) => sub ∈ d.captureTables) Attaches.refl Attaches.trans
    attaches_captureTable mem_captureTable (fun h hsub => h.captureTables hsub) d subs

theorem versioned_tables (d : Database) (subs : List Int) :
    Attaches d (subs.foldl versionTable d) ∧ ∀ sub ∈ subs, keepsHistory d.catalog sub →
      sub ∈ (subs.foldl versionTable d).stampTables ∧ sub ∈ (subs.foldl versionTable d).validTables := by
  have hup {sub : Int} {d d' : Database} (h : Attaches d d')
      (hsub : keepsHistory d.catalog sub → sub ∈ d.stampTables ∧ sub ∈ d.validTables) :
      keepsHistory d'.catalog sub → sub ∈ d'.stampTables ∧ sub ∈ d'.validTables := by
    intro hkeeps
    rw [h.catalog] at hkeeps
    exact (hsub hkeeps).imp (fun hm => h.stampTables hm) fun hm => h.validTables hm
  have hown (d : Database) (sub : Int) : keepsHistory (versionTable d sub).catalog sub →
      sub ∈ (versionTable d sub).stampTables ∧ sub ∈ (versionTable d sub).validTables := by
    intro hkeeps
    rw [(attaches_versionTable d sub).catalog] at hkeeps
    exact mem_versionTable d sub hkeeps
  obtain ⟨hattaches, hall⟩ := foldl_reaches
    (Q := fun sub (d : Database) => keepsHistory d.catalog sub → sub ∈ d.stampTables ∧ sub ∈ d.validTables)
    Attaches.refl Attaches.trans attaches_versionTable hown hup d subs
  refine ⟨hattaches, fun sub hmem hkeeps => hall sub hmem ?_⟩
  rw [hattaches.catalog]
  exact hkeeps

end Attaching

section Hierarchies

variable {c c' : Catalog} {o o' : Ontology} {gid g t : Int} {touched : List Int}

/-- A table below a type is one the step has touched, or was below it before. -/
def Below (c c' : Catalog) (touched : List Int) (t : Int) : Prop :=
  ∀ sub ∈ tables c' t, sub ∈ touched ∨ sub ∈ tables c t

theorem Below.of_isSubtype (hc : WellFormed c) (hc' : WellFormed c') (ht : t ∈ graphTypes c g)
    (ht' : t ∈ graphTypes c' g)
    (h : ∀ sub, (storageTable c' sub).isSome → IsSubtype c' sub t →
      sub ∈ touched ∨ IsSubtype c sub t ∧ storageTable c' sub = storageTable c sub) :
    Below c c' touched t := by
  intro sub hsub
  obtain ⟨hbelow, hstorage⟩ := mem_tables.mp hsub
  rcases h sub hstorage ((mem_ogSubtypes_iff hc' ht').mp hbelow) with htouched | ⟨hold, hsame⟩
  · exact .inl htouched
  · exact .inr (mem_tables.mpr ⟨(mem_ogSubtypes_iff hc ht).mpr hold, hsame ▸ hstorage⟩)

theorem Below.created {r : TypeRow} {pids : List Int} (h : Current o) (h' : Current o')
    (hr : r.typeId = o.nextTypeId) (htypes : o'.catalog.types = o.catalog.types ++ [r])
    (hlinks : o'.catalog.typeParent =
      o.catalog.typeParent ++ pids.map fun pid => (o.nextTypeId, pid))
    (ht : t ∈ graphTypes o.catalog g) : Below o.catalog o'.catalog [o.nextTypeId] t := by
  have ht' : t ∈ graphTypes o'.catalog g := by
    obtain ⟨r₀, hr₀, hg, hid⟩ := mem_graphTypes.mp ht
    exact mem_graphTypes.mpr ⟨r₀, htypes ▸ List.mem_append_left _ hr₀, hg, hid⟩
  refine .of_isSubtype h.wellFormed h'.wellFormed ht ht' fun sub _ hsub => ?_
  by_cases hne : sub = o.nextTypeId
  · exact .inl (List.mem_singleton.mpr hne)
  · exact .inr ⟨isSubtype_created h hlinks hne hsub, storageTable_append htypes (hr ▸ hne)⟩

/-- What a new parent changes is below the type that gets it. -/
theorem Below.linked {tid pid : Int} (h : Current o) (h' : Current o')
    (htypes : o'.catalog.types = o.catalog.types)
    (hlinks : o'.catalog.typeParent = o.catalog.typeParent ++ [(tid, pid)])
    (htid : tid ∈ graphTypes o.catalog gid) (ht : t ∈ graphTypes o.catalog g) :
    Below o.catalog o'.catalog (tables o'.catalog tid) t := by
  have hgraph (t g : Int) : t ∈ graphTypes o'.catalog g ↔ t ∈ graphTypes o.catalog g := by
    simp only [graphTypes, htypes]
  refine .of_isSubtype h.wellFormed h'.wellFormed ht ((hgraph t g).mpr ht) fun sub hstorage hsub => ?_
  have hsub' : IsSubtype { o.catalog with typeParent := o.catalog.typeParent ++ [(tid, pid)] } sub t :=
    isSubtype_mono hsub (by rw [hlinks]; exact List.Subset.refl _)
  rcases isSubtype_append hsub' with hold | ⟨l, hl, hbelow⟩
  · exact .inr ⟨hold, storageTable_congr htypes sub⟩
  · obtain rfl := List.mem_singleton.mp hl
    have hbelow' : IsSubtype o'.catalog sub tid := isSubtype_mono hbelow (by
      rw [hlinks]
      exact List.subset_append_left _ _)
    refine .inl (mem_tables.mpr ⟨?_, hstorage⟩)
    exact (mem_ogSubtypes_iff h'.wellFormed ((hgraph tid gid).mpr htid)).mpr hbelow'

end Hierarchies

section Steps

variable {d d' : Database} {touched : List Int}

/-- The types that some facility was enabled on. -/
def marks (d : Database) : List Int := d.stamped ++ d.catalog.temporal ++ d.tracked

theorem mem_marks {t : Int} :
    t ∈ marks d ↔ t ∈ d.stamped ∨ t ∈ d.catalog.temporal ∨ t ∈ d.tracked := by
  simp only [marks, List.mem_append, or_assoc]

/-- A step that marks no type and takes nothing from a table. -/
structure Carries (d d' : Database) : Prop where
  stamped : d'.stamped = d.stamped
  temporal : d'.catalog.temporal = d.catalog.temporal
  tracked : d'.tracked = d.tracked
  stampTables : d.stampTables ⊆ d'.stampTables
  validTables : d.validTables ⊆ d'.validTables
  histories : d.schema.histories ⊆ d'.schema.histories
  captureTables : d.captureTables ⊆ d'.captureTables

theorem Carries.marks (h : Carries d d') : marks d' = marks d := by
  unfold InheritedFacilities.marks
  rw [h.stamped, h.temporal, h.tracked]

/-- A new schema, and what is attached after it. -/
theorem Carries.attach {s : State} (htemporal : s.o.catalog.temporal = d.catalog.temporal)
    (hhistories : d.schema.histories ⊆ s.histories) (h : Attaches { d with schema := s } d') :
    Carries d d' where
  stamped := h.stamped
  temporal := by rw [h.catalog]; exact htemporal
  tracked := h.tracked
  stampTables := h.stampTables
  validTables := h.validTables
  histories := by rw [h.schema]; exact hhistories
  captureTables := h.captureTables

/-- Every table is one of instances. -/
def KeepsHistories (c : Catalog) : Prop := ∀ sub, (storageTable c sub).isSome → keepsHistory c sub

/-- Facilities stay inherited where the step equips the tables it touches. -/
theorem Inherited.step (h : Inherited d) (hcarries : Carries d d') (hkeeps : KeepsHistories d'.catalog)
    (hbelow : ∀ t ∈ marks d, Below d.catalog d'.catalog touched t)
    (hequipped : ∀ sub ∈ touched, Equipped sub d')
    (hhistory : ∀ sub ∈ touched, isTemporal d'.catalog sub → HasHistory sub d'.schema)
    (hcaptured : ∀ sub ∈ touched, (∃ t ∈ d.tracked, t ∈ ogSupertypes d'.catalog sub) →
      sub ∈ d'.captureTables) : Inherited d' := by
  have habove {t sub : Int} (hsub : sub ∈ tables d'.catalog t) : t ∈ ogSupertypes d'.catalog sub :=
    mem_ogSupertypes.mpr (mem_ogSubtypes.mp (mem_tables.mp hsub).1)
  refine ⟨fun t ht sub hsub => ?_, fun t ht sub hsub => ?_, fun t ht sub hsub => ?_⟩
  · have hmark : t ∈ d.stamped := hcarries.stamped ▸ ht
    rcases hbelow t (mem_marks.mpr (.inl hmark)) sub hsub with htouched | hold
    · apply (hequipped sub htouched).stamped
      exact List.any_eq_true.mpr ⟨t, habove hsub, decide_eq_true ht⟩
    · exact hcarries.stampTables (h.stamping t hmark sub hold)
  · have hmark : t ∈ d.catalog.temporal := hcarries.temporal ▸ ht
    rcases hbelow t (mem_marks.mpr (.inr (.inl hmark))) sub hsub with htouched | hold
    · have htemporal : isTemporal d'.catalog sub :=
        List.any_eq_true.mpr ⟨t, habove hsub, decide_eq_true ht⟩
      have hkept := hkeeps sub (mem_tables.mp hsub).2
      exact ⟨(hequipped sub htouched).temporal htemporal hkept, hhistory sub htouched htemporal hkept⟩
    · obtain ⟨hvalid, hhist⟩ := h.temporality t hmark sub hold
      exact ⟨hcarries.validTables hvalid, hcarries.histories hhist⟩
  · have hmark : t ∈ d.tracked := hcarries.tracked ▸ ht
    rcases hbelow t (mem_marks.mpr (.inr (.inr hmark))) sub hsub with htouched | hold
    · exact hcaptured sub htouched ⟨t, hmark, habove hsub⟩
    · exact hcarries.captureTables (h.history t hmark sub hold)

theorem Inherited.untouched (h : Inherited d) (hcarries : Carries d d')
    (hkeeps : KeepsHistories d'.catalog) (hbelow : ∀ t ∈ marks d, Below d.catalog d'.catalog [] t) : Inherited d' :=
  h.step hcarries hkeeps hbelow (fun sub hsub => by cases hsub) (fun sub hsub => by cases hsub)
    fun sub hsub => by cases hsub

theorem KeepsHistories.congr {c c' : Catalog} (h : KeepsHistories c)
    (hstorage : ∀ sub, storageTable c' sub = storageTable c sub) : KeepsHistories c' := by
  intro sub hsome
  rw [hstorage] at hsome
  unfold keepsHistory
  rw [hstorage]
  exact h sub hsome

theorem KeepsHistories.created {o : Ontology} {c' : Catalog} {gid : Int} {name : String} {kind : Kind}
    {isAbstract : Bool} (h : KeepsHistories o.catalog) (hcur : Current o)
    (htypes : c'.types = o.catalog.types ++
      [⟨o.nextTypeId, gid, name, kind, instanceTable kind isAbstract o.nextTypeId⟩]) :
    KeepsHistories c' := by
  intro sub hsome
  by_cases hne : sub = o.nextTypeId
  · subst hne
    have hstored : storageTable c' o.nextTypeId = instanceTable kind isAbstract o.nextTypeId :=
      storageTable_new htypes hcur.fresh
    rw [hstored] at hsome
    unfold keepsHistory
    rw [hstored]
    cases kind <;> cases isAbstract <;> first | rfl | cases hsome
  · have hold : storageTable c' sub = storageTable o.catalog sub := storageTable_append htypes hne
    rw [hold] at hsome
    unfold keepsHistory
    rw [hold]
    exact h sub hsome

/-- What carries the facilities through a run. -/
structure Inv (d : Database) : Prop where
  current : Current d.schema.o
  keeps : KeepsHistories d.catalog
  changes : ∀ ch ∈ d.schema.changes, ∃ change : HierarchyChange, ch.spec = change.spec
  marks : ∀ t ∈ InheritedFacilities.marks d, ∃ g, t ∈ graphTypes d.catalog g
  inherited : Inherited d

/-- What `create_type_inner` leaves of the schema. -/
theorem createType_schema {s s' : State} {graph name : String} {kind : Kind} {parents : List String}
    {isAbstract : Bool} (h : Current s.o)
    (hop : SchemaEvolution.createType s graph name kind parents isAbstract = .ok s') :
    ∃ gid pids, graphId s.o.catalog graph = .ok gid ∧
      parents.mapM (parentId s.o.catalog gid kind) = .ok pids ∧ Current s'.o ∧
      s'.o.catalog.types = s.o.catalog.types ++
        [⟨s.o.nextTypeId, gid, name, kind, instanceTable kind isAbstract s.o.nextTypeId⟩] ∧
      s'.o.catalog.typeParent = s.o.catalog.typeParent ++ pids.map (fun pid => (s.o.nextTypeId, pid)) ∧
      s'.o.catalog.temporal = s.o.catalog.temporal ∧ s.histories ⊆ s'.histories ∧
      s'.changes = s.changes ∧
      ((instanceTable kind isAbstract s.o.nextTypeId).isSome → isTemporal s'.o.catalog s.o.nextTypeId →
        HasHistory s.o.nextTypeId s') := by
  simp only [SchemaEvolution.createType] at hop
  obtain ⟨gid, hgid, hop⟩ := bind_eq_ok.mp hop
  obtain ⟨pids, hpids, hop⟩ := bind_eq_ok.mp hop
  refine ⟨gid, pids, hgid, hpids, ?_⟩
  split at hop
  · obtain ⟨o', hcreate, hop⟩ := bind_eq_ok.mp hop
    obtain rfl := pure_eq_ok.mp hop
    have hcur : Current o' := (h.pending gid).createType hcreate
    obtain ⟨pids', c₁, hpids', hrest, hrel, -⟩ := createType_eq_ok hcreate
    obtain rfl := Except.ok.inj (hpids.symm.trans hpids')
    obtain rfl := Except.ok.inj hrest
    have hcat := relabelGraph_eq hrel
    obtain ⟨-, hmore⟩ := moreHistories_enableTemporalTable { s with
      o := o'
      columns := copyColumns s.o.nextTypeId (pids.flatMap (inheritedProperties s.o.catalog))
        (createTable s.o.nextTypeId s.columns) } s.o.nextTypeId
    rw [enableTemporalTable_o, enableTemporalTable_changes]
    refine ⟨hcur, ?_, ?_, ?_, hmore, rfl, fun _ htemporal => ?_⟩
    · rw [hcat]
    · rw [hcat]
    · rw [hcat]
    · exact hasHistory_enableTemporalTable _ _ htemporal
  · next htable =>
    obtain ⟨o', hcreate, hop⟩ := bind_eq_ok.mp hop
    obtain rfl := pure_eq_ok.mp hop
    have hcur : Current o' := (h.pending gid).createType hcreate
    obtain ⟨pids', c₁, hpids', hrest, hrel, -⟩ := createType_eq_ok hcreate
    obtain rfl := Except.ok.inj (hpids.symm.trans hpids')
    obtain rfl := Except.ok.inj hrest
    have hcat := relabelGraph_eq hrel
    refine ⟨hcur, ?_, ?_, ?_, List.Subset.refl _, rfl, fun hsome => absurd hsome htable⟩
    · rw [hcat]
    · rw [hcat]
    · rw [hcat]

theorem Inv.createType {graph name : String} {kind : Kind} {parents : List String} {isAbstract : Bool}
    (h : Inv d) (hguard : Reached d (.createType graph name kind parents isAbstract))
    (hop : createType d graph name kind parents isAbstract = .ok d') : Inv d' := by
  simp only [InheritedFacilities.createType] at hop
  obtain ⟨s, hs, hop⟩ := bind_eq_ok.mp hop
  obtain ⟨gid, pids, hgid, hpids, hcur, htypes, hlinks, htemporal, hmore, hchanges, hhistory⟩ :=
    createType_schema h.current hs
  have hkeeps : KeepsHistories s.o.catalog := h.keeps.created h.current htypes
  have hgraph {t g : Int} (ht : t ∈ graphTypes d.catalog g) : t ∈ graphTypes s.o.catalog g := by
    obtain ⟨r, hr, hg, hid⟩ := mem_graphTypes.mp ht
    exact mem_graphTypes.mpr ⟨r, htypes ▸ List.mem_append_left _ hr, hg, hid⟩
  have hbelow : ∀ t ∈ InheritedFacilities.marks d,
      Below d.catalog s.o.catalog [d.schema.o.nextTypeId] t := by
    intro t ht
    obtain ⟨g, ht⟩ := h.marks t ht
    exact .created h.current hcur rfl htypes hlinks ht
  have hstored : storageTable s.o.catalog d.schema.o.nextTypeId =
      instanceTable kind isAbstract d.schema.o.nextTypeId := storageTable_new htypes h.current.fresh
  split at hop
  · next htable =>
    obtain rfl := pure_eq_ok.mp hop
    have hfacilities := attaches_inheritFacilities { d with schema := s } d.schema.o.nextTypeId
    set d₁ := inheritFacilities { d with schema := s } d.schema.o.nextTypeId
    have hcapture : Attaches d₁ (inheritHistoryCapture d₁ graph d.schema.o.nextTypeId) := by
      unfold inheritHistoryCapture
      split
      · exact attaches_captureTable d₁ d.schema.o.nextTypeId
      · exact .refl d₁
    have hall := hfacilities.trans hcapture
    have hcarries : Carries d (inheritHistoryCapture d₁ graph d.schema.o.nextTypeId) :=
      .attach htemporal hmore hall
    have hcat : (inheritHistoryCapture d₁ graph d.schema.o.nextTypeId).catalog = s.o.catalog := hall.catalog
    have hbelow' : ∀ t ∈ InheritedFacilities.marks d, Below d.catalog
        (inheritHistoryCapture d₁ graph d.schema.o.nextTypeId).catalog [d.schema.o.nextTypeId] t := by
      rw [hcat]
      exact hbelow
    have hkeeps' : KeepsHistories (inheritHistoryCapture d₁ graph d.schema.o.nextTypeId).catalog := by
      rw [hcat]
      exact hkeeps
    refine ⟨?_, hkeeps', ?_, fun t ht => ?_, h.inherited.step hcarries hkeeps' hbelow' (fun sub hsub => ?_)
      (fun sub hsub => ?_) fun sub hsub hover => ?_⟩
    · rw [hall.schema]
      exact hcur
    · rw [hall.schema]
      exact hchanges ▸ h.changes
    · rw [hcarries.marks] at ht
      obtain ⟨g, ht⟩ := h.marks t ht
      rw [hcat]
      exact ⟨g, hgraph ht⟩
    · obtain rfl := List.mem_singleton.mp hsub
      exact (equipped_inheritFacilities _ _).up hcapture
    · obtain rfl := List.mem_singleton.mp hsub
      rw [hcat, hall.schema]
      exact hhistory htable
    · obtain rfl := List.mem_singleton.mp hsub
      obtain ⟨t, ht, habove⟩ := hover
      rw [hcat] at habove
      obtain ⟨pid, hpid, hparent⟩ := above_created h.current hcur hlinks
        (h.marks t (mem_marks.mpr (.inr (.inr ht)))) habove
      have hon : historyOn d₁ graph d.schema.o.nextTypeId := by
        have hnew : ⟨d.schema.o.nextTypeId, gid, name, kind,
            instanceTable kind isAbstract d.schema.o.nextTypeId⟩ ∈ s.o.catalog.types := by
          rw [htypes]
          exact List.mem_append_right _ (List.mem_singleton_self _)
        unfold historyOn
        rw [hfacilities.catalog, hfacilities.settings]
        rcases hguard htable gid pids hgid hpids ⟨pid, hpid, t, ht, hparent⟩ with hkey | ⟨pid', hpid', hon⟩
        · refine List.any_eq_true.mpr ⟨_, hnew, decide_eq_true ⟨?_, hkey⟩⟩
          apply mem_ogSupertypes.mpr
          exact (ogIsSubtype_iff hcur.wellFormed (graphTypes_of_mem hnew)).mpr .refl
        · obtain ⟨r, hr, hon⟩ := List.any_eq_true.mp hon
          obtain ⟨hrow, hkey⟩ := of_decide_eq_true hon
          have hr' : r ∈ s.o.catalog.types := by
            rw [htypes]
            exact List.mem_append_left _ hr
          refine List.any_eq_true.mpr ⟨r, hr', decide_eq_true ⟨?_, hkey⟩⟩
          have hsub := isSubtype_of_ogIsSubtype h.current.wellFormed (mem_ogSupertypes.mp hrow)
          have hlink : (d.schema.o.nextTypeId, pid') ∈ s.o.catalog.typeParent := by
            rw [hlinks]
            exact List.mem_append_right _ (List.mem_map.mpr ⟨pid', hpid', rfl⟩)
          have hold : IsSubtype s.o.catalog pid' r.typeId := isSubtype_mono hsub (by
            rw [hlinks]
            exact List.subset_append_left _ _)
          have hsub' : IsSubtype s.o.catalog d.schema.o.nextTypeId r.typeId := hold.tail hlink
          exact mem_ogSupertypes.mpr ((ogIsSubtype_iff hcur.wellFormed
            (hgraph (graphTypes_of_mem hr))).mpr hsub')
      have hstorage : (storageTable d₁.catalog d.schema.o.nextTypeId).isSome := by
        rw [hfacilities.catalog]
        exact hstored ▸ htable
      rw [inheritHistoryCapture, if_pos ⟨hon, hstorage⟩]
      exact mem_captureTable d₁ _
  · next htable =>
    obtain rfl := pure_eq_ok.mp hop
    have hcarries : Carries d { d with schema := s } := .attach htemporal hmore (.refl _)
    -- an abstract type has no table
    have hnone : ∀ t ∈ InheritedFacilities.marks d, Below d.catalog s.o.catalog [] t := by
      intro t ht sub hsub
      rcases hbelow t ht sub hsub with hnew | hold
      · obtain rfl := List.mem_singleton.mp hnew
        have hsome := (mem_tables.mp hsub).2
        rw [hstored] at hsome
        exact absurd hsome htable
      · exact .inr hold
    refine ⟨hcur, hkeeps, hchanges ▸ h.changes, fun t ht => ?_,
      h.inherited.untouched hcarries hkeeps hnone⟩
    obtain ⟨g, ht⟩ := h.marks t (hcarries.marks ▸ ht)
    exact ⟨g, hgraph ht⟩

/-- A schema that is other than before only in what its changes have come to. -/
theorem Inv.of_schema {s : State} (h : Inv d) (ho : s.o = d.schema.o) (hhistories : s.histories = d.schema.histories)
    (hchanges : ∀ ch ∈ s.changes, ∃ change : HierarchyChange, ch.spec = change.spec) :
    Inv { d with schema := s } := by
  refine ⟨ho ▸ h.current, ?_, hchanges, fun t ht => ?_, ⟨?_, ?_, ?_⟩⟩
  all_goals simp only [InheritedFacilities.marks, Database.catalog, ho, hhistories] at *
  · exact h.keeps
  · exact h.marks t ht
  · exact h.inherited.stamping
  · exact h.inherited.temporality
  · exact h.inherited.history

theorem save_changes {s : State} {id : Nat} {phase : Phase}
    (h : ∀ ch ∈ s.changes, ∃ change : HierarchyChange, ch.spec = change.spec) :
    ∀ ch ∈ (s.save id phase).changes, ∃ change : HierarchyChange, ch.spec = change.spec := by
  intro ch hch
  obtain ⟨ch₀, hch₀, rfl⟩ := List.mem_map.mp hch
  split
  · exact h ch₀ hch₀
  · exact h ch₀ hch₀

theorem Inv.plan {graph : String} {change : HierarchyChange} (h : Inv d)
    (hop : schemaStep d (.plan graph change.spec) = .ok d') : Inv d' := by
  obtain ⟨s, hs, hop⟩ := bind_eq_ok.mp hop
  obtain rfl := pure_eq_ok.mp hop
  obtain ⟨gid, -, hs⟩ := bind_eq_ok.mp hs
  obtain ⟨report, -, hs⟩ := bind_eq_ok.mp hs
  obtain rfl := pure_eq_ok.mp hs
  refine h.of_schema rfl rfl fun ch hch => ?_
  rcases List.mem_append.mp hch with hch | hch
  · exact h.changes ch hch
  · exact ⟨change, by rw [List.mem_singleton.mp hch]⟩

theorem Inv.expand {session : Session} {id : Nat} (h : Inv d)
    (hop : schemaStep d (.expand session id) = .ok d') : Inv d' := by
  obtain ⟨s, hs, hop⟩ := bind_eq_ok.mp hop
  obtain rfl := pure_eq_ok.mp hop
  obtain ⟨ch, s₁, hch, -, hexpand, rfl⟩ := step_expand hs
  obtain ⟨change, hspec⟩ := h.changes ch (change_eq_ok hch).1
  have hsame : s₁ = d.schema := by
    cases change <;>
      · simp only [SchemaEvolution.expand, hspec, HierarchyChange.spec] at hexpand
        exact (pure_eq_ok.mp hexpand).symm
  subst hsame
  exact h.of_schema rfl rfl (save_changes h.changes)

theorem Inv.migrate {id : Nat} (h : Inv d) (hop : schemaStep d (.migrate id) = .ok d') : Inv d' := by
  obtain ⟨s, hs, hop⟩ := bind_eq_ok.mp hop
  obtain rfl := pure_eq_ok.mp hop
  obtain ⟨ch, -, -, rfl⟩ := step_migrate hs
  exact h.of_schema rfl rfl (save_changes h.changes)

theorem Inv.validate {id violations : Nat} (h : Inv d)
    (hop : schemaStep d (.validate id violations) = .ok d') : Inv d' := by
  obtain ⟨s, hs, hop⟩ := bind_eq_ok.mp hop
  obtain rfl := pure_eq_ok.mp hop
  obtain ⟨ch, -, -, ⟨-, rfl⟩ | rfl⟩ := step_validate hs
  · exact h.of_schema rfl rfl (save_changes h.changes)
  · exact h.of_schema rfl rfl h.changes

theorem Inv.abort {id : Nat} (h : Inv d) (hop : schemaStep d (.abort id) = .ok d') : Inv d' := by
  obtain ⟨s, hs, hop⟩ := bind_eq_ok.mp hop
  obtain rfl := pure_eq_ok.mp hop
  obtain ⟨ch, hch, ⟨-, rfl⟩ | ⟨-, s₁, habort, rfl⟩⟩ := step_abort hs
  · exact h.of_schema rfl rfl (save_changes h.changes)
  · obtain ⟨change, hspec⟩ := h.changes ch (change_eq_ok hch).1
    have hsame : s₁ = d.schema := by
      cases change <;>
        · simp only [SchemaEvolution.abort, hspec, HierarchyChange.spec] at habort
          exact (pure_eq_ok.mp habort).symm
    subst hsame
    exact h.of_schema rfl rfl (save_changes h.changes)

theorem Inv.contract_renameType {id : Nat} {ch : Change} {s₁ : State} {type new : String} (h : Inv d)
    (hspec : ch.spec = .renameType type new) (hop : SchemaEvolution.contract d.schema ch = .ok s₁) :
    Inv { d with schema := s₁.save id .contracted } := by
  simp only [SchemaEvolution.contract, hspec] at hop
  obtain ⟨tid, -, hop⟩ := bind_eq_ok.mp hop
  obtain ⟨-, -, hop⟩ := bind_eq_ok.mp hop
  obtain rfl := pure_eq_ok.mp hop
  set f : TypeRow → TypeRow := fun t => if t.typeId = tid then { t with name := new } else t with hf
  have hid (t : TypeRow) : (f t).typeId = t.typeId ∧ (f t).graphId = t.graphId ∧
      (f t).storageTable = t.storageTable := by
    rw [hf]
    dsimp only
    split <;> exact ⟨rfl, rfl, rfl⟩
  set c' : Catalog := { d.catalog with types := d.catalog.types.map f }
  have hcur : Current { d.schema.o with catalog := c' } :=
    current_mapTypes h.current fun t => ⟨(hid t).1, (hid t).2.1⟩
  have hgraph (t g : Int) : t ∈ graphTypes c' g ↔ t ∈ graphTypes d.catalog g := by
    simp only [graphTypes, c', List.filter_map, List.map_map, Function.comp_def, (hid _).1, (hid _).2.1]
  have hstorage (sub : Int) : storageTable c' sub = storageTable d.catalog sub := by
    unfold storageTable
    rw [typeRow?_map fun t => (hid t).1]
    cases typeRow? d.catalog sub with
    | none => rfl
    | some r => exact (hid r).2.2
  have hcarries : Carries d { d with schema := (d.schema.withCatalog c').save id .contracted } :=
    .attach (s := (d.schema.withCatalog c').save id .contracted) rfl (List.Subset.refl _) (.refl _)
  have hkeeps : KeepsHistories c' := h.keeps.congr hstorage
  refine ⟨hcur, hkeeps, save_changes h.changes, fun t ht => ?_,
    h.inherited.untouched hcarries hkeeps fun t ht => ?_⟩
  · obtain ⟨g, hmem⟩ := h.marks t ht
    exact ⟨g, (hgraph t g).mpr hmem⟩
  · obtain ⟨g, hmem⟩ := h.marks t ht
    exact .of_isSubtype h.current.wellFormed hcur.wellFormed hmem ((hgraph t g).mpr hmem)
      fun sub _ hsub => .inr ⟨hsub, hstorage sub⟩

theorem Inv.contract_addParent {id : Nat} {ch : Change} {s₁ : State} {type parent : String} (h : Inv d)
    (hguard : Reached d (.contract id)) (hch : d.schema.change id = .ok ch)
    (hspec : ch.spec = .addParent type parent) (hop : SchemaEvolution.contract d.schema ch = .ok s₁) :
    Inv ((tables s₁.o.catalog ch.report.typeId).foldl inheritFacilities
      { d with schema := s₁.save id .contracted }) := by
  simp only [SchemaEvolution.contract, hspec] at hop
  obtain ⟨_, hends, hop⟩ := bind_eq_ok.mp hop
  obtain ⟨htid, hpid⟩ := require_eq_ok.mp hends
  obtain ⟨c₁, hlink, hop⟩ := bind_eq_ok.mp hop
  obtain ⟨c₂, hrel, hop⟩ := bind_eq_ok.mp hop
  obtain rfl := pure_eq_ok.mp hop
  obtain rfl := insertParent_eq_ok hlink
  have hcat := relabelGraph_eq hrel
  have hlinked : Current { d.schema.o with catalog := c₂ } := Current.linked h.current htid hpid hrel
  set inherited := inheritedProperties c₂ ch.report.parentId
  set c₃ : Catalog := { c₂ with
    properties := ((tables c₂ ch.report.typeId).flatMap fun sub =>
      copies sub inherited).foldl insertProperty c₂.properties } with hc₃
  obtain ⟨⟨ho, hmore⟩, hhistories⟩ := histories_inheritTables inherited (d.schema.withCatalog c₃)
    (tables c₂ ch.report.typeId)
  obtain ⟨-, hchanges, -⟩ := foldl_frame (inheritTable_frame inherited) (d.schema.withCatalog c₃)
    (tables c₂ ch.report.typeId)
  set s₁ := (tables c₂ ch.report.typeId).foldl (inheritTable inherited) (d.schema.withCatalog c₃)
  have hcat₁ : s₁.o.catalog = c₃ := by rw [ho]; rfl
  have htypes : s₁.o.catalog.types = d.catalog.types := by
    rw [hcat₁, hc₃, hcat]
    rfl
  have hlinks : s₁.o.catalog.typeParent =
      d.catalog.typeParent ++ [(ch.report.typeId, ch.report.parentId)] := by
    rw [hcat₁, hc₃, hcat]
    rfl
  have htemporal : s₁.o.catalog.temporal = d.catalog.temporal := by
    rw [hcat₁, hc₃, hcat]
    rfl
  have hcur : Current s₁.o := by
    rw [ho]
    exact hlinked.same ⟨rfl, rfl, rfl⟩
  have htables : tables s₁.o.catalog ch.report.typeId = tables c₂ ch.report.typeId := by
    rw [hcat₁]
    rfl
  obtain ⟨hattaches, hequipped⟩ := equipped_inheritTables { d with schema := s₁.save id .contracted }
    (tables s₁.o.catalog ch.report.typeId)
  set d₁ := (tables s₁.o.catalog ch.report.typeId).foldl inheritFacilities
    { d with schema := s₁.save id .contracted }
  have hcatalog : d₁.catalog = s₁.o.catalog := hattaches.catalog
  have hcarries : Carries d d₁ := .attach (s := s₁.save id .contracted) htemporal hmore hattaches
  have hgraph {t g : Int} (ht : t ∈ graphTypes d.catalog g) : t ∈ graphTypes d₁.catalog g := by
    rw [hcatalog]
    simpa only [graphTypes, htypes] using ht
  have hbelow : ∀ t ∈ InheritedFacilities.marks d,
      Below d.catalog d₁.catalog (tables s₁.o.catalog ch.report.typeId) t := by
    intro t ht
    obtain ⟨g, ht⟩ := h.marks t ht
    rw [hcatalog]
    exact .linked h.current hcur htypes hlinks htid ht
  have hkeeps : KeepsHistories d₁.catalog := h.keeps.congr fun sub => by
    rw [hcatalog]
    exact storageTable_congr htypes sub
  refine ⟨?_, hkeeps, ?_, fun t ht => ?_, h.inherited.step hcarries hkeeps hbelow hequipped
    (fun sub hsub => ?_) fun sub hsub hover => ?_⟩
  · rw [hattaches.schema]
    exact hcur
  · rw [hattaches.schema]
    refine save_changes fun ch' hch' => h.changes ch' ?_
    rw [hchanges] at hch'
    exact hch'
  · rw [hcarries.marks] at ht
    obtain ⟨g, ht⟩ := h.marks t ht
    exact ⟨g, hgraph ht⟩
  · rw [hcatalog, hattaches.schema]
    rw [htables] at hsub
    intro htemporal
    refine hhistories sub hsub ?_
    rw [hcat₁] at htemporal
    exact htemporal
  · obtain ⟨t, ht, habove⟩ := hover
    rw [hcatalog] at habove
    have hmark := h.marks t (mem_marks.mpr (.inr (.inr ht)))
    have hsub' : sub ∈ tables d.catalog ch.report.typeId :=
      below_linked h.current hcur htypes hlinks htid hsub
    refine hcarries.captureTables ?_
    rcases above_linked h.current hcur hlinks hmark habove with hold | hold
    · refine h.inherited.history t ht sub (mem_tables.mpr ⟨?_, (mem_tables.mp hsub').2⟩)
      exact mem_ogSubtypes.mpr (mem_ogSupertypes.mp hold)
    · exact hguard ch hch type parent hspec ⟨t, ht, hold⟩ sub hsub'

theorem Inv.contract {id : Nat} (h : Inv d) (hguard : Reached d (.contract id))
    (hop : contract d id = .ok d') : Inv d' := by
  obtain ⟨ch, hch, hop⟩ := bind_eq_ok.mp hop
  obtain ⟨s, hs, hop⟩ := bind_eq_ok.mp hop
  obtain ⟨ch', s₁, hch', -, hcontract, rfl⟩ := step_contract hs
  obtain rfl := Except.ok.inj (hch.symm.trans hch')
  obtain ⟨change, hspec⟩ := h.changes ch (change_eq_ok hch).1
  cases change with
  | renameType type new =>
      simp only [hspec, HierarchyChange.spec] at hop
      obtain rfl := pure_eq_ok.mp hop
      exact h.contract_renameType hspec hcontract
  | addParent type parent =>
      simp only [hspec, HierarchyChange.spec] at hop
      obtain rfl := pure_eq_ok.mp hop
      exact h.contract_addParent hguard hch hspec hcontract

/-- Enabling a facility on a type of the catalog, whose tables then have it. -/
theorem Inv.enable (h : Inv d) (hcur : Current d'.schema.o)
    (hchanges : d'.schema.changes = d.schema.changes) (htypes : d'.catalog.types = d.catalog.types)
    (hlabels : d'.catalog.labels = d.catalog.labels) (hstamps : d.stampTables ⊆ d'.stampTables)
    (hvalid : d.validTables ⊆ d'.validTables) (hhist : d.schema.histories ⊆ d'.schema.histories)
    (hcaptures : d.captureTables ⊆ d'.captureTables) {gid tid : Int} (htid : tid ∈ graphTypes d.catalog gid)
    (hstamped : ∀ t ∈ d'.stamped, t ∈ d.stamped ∨
      t = tid ∧ ∀ sub ∈ tables d.catalog tid, sub ∈ d'.stampTables)
    (htemporal : ∀ t ∈ d'.catalog.temporal, t ∈ d.catalog.temporal ∨
      t = tid ∧ ∀ sub ∈ tables d.catalog tid, sub ∈ d'.validTables ∧ sub ∈ d'.schema.histories)
    (htracked : ∀ t ∈ d'.tracked, t ∈ d.tracked ∨
      t = tid ∧ ∀ sub ∈ tables d.catalog tid, sub ∈ d'.captureTables) : Inv d' := by
  have hgraph (g : Int) : graphTypes d'.catalog g = graphTypes d.catalog g := by
    simp only [graphTypes, htypes]
  have hstorage (sub : Int) : storageTable d'.catalog sub = storageTable d.catalog sub :=
    storageTable_congr htypes sub
  have htables (t : Int) : tables d'.catalog t = tables d.catalog t := by
    simp only [tables, ogSubtypes, hlabels, hstorage]
  refine ⟨hcur, h.keeps.congr hstorage, hchanges ▸ h.changes, fun t ht => ?_,
    ⟨fun t ht sub hsub => ?_, fun t ht sub hsub => ?_, fun t ht sub hsub => ?_⟩⟩
  · have hmark : t ∈ InheritedFacilities.marks d ∨ t = tid := by
      rw [mem_marks] at ht ⊢
      rcases ht with ht | ht | ht
      · exact (hstamped t ht).imp .inl And.left
      · exact (htemporal t ht).imp (.inr ∘ .inl) And.left
      · exact (htracked t ht).imp (.inr ∘ .inr) And.left
    simp only [hgraph]
    rcases hmark with hmark | rfl
    · exact h.marks t hmark
    · exact ⟨gid, htid⟩
  · rw [htables] at hsub
    rcases hstamped t ht with hold | ⟨rfl, hall⟩
    · exact hstamps (h.inherited.stamping t hold sub hsub)
    · exact hall sub hsub
  · rw [htables] at hsub
    rcases htemporal t ht with hold | ⟨rfl, hall⟩
    · exact (h.inherited.temporality t hold sub hsub).imp (fun hm => hvalid hm) fun hm => hhist hm
    · exact hall sub hsub
  · rw [htables] at hsub
    rcases htracked t ht with hold | ⟨rfl, hall⟩
    · exact hcaptures (h.inherited.history t hold sub hsub)
    · exact hall sub hsub

theorem Inv.enableStamping {graph name : String} (h : Inv d)
    (hop : enableStamping d graph name = .ok d') : Inv d' := by
  obtain ⟨gid, -, hop⟩ := bind_eq_ok.mp hop
  obtain ⟨tid, htid, hop⟩ := bind_eq_ok.mp hop
  obtain rfl := pure_eq_ok.mp hop
  obtain ⟨hattaches, hall⟩ := stamped_tables { d with stamped := d.stamped.insert tid } (tables d.catalog tid)
  set d₁ := (tables d.catalog tid).foldl stampTable { d with stamped := d.stamped.insert tid }
  have hschema : d₁.schema = d.schema := hattaches.schema
  have hcat : d₁.catalog = d.catalog := hattaches.catalog
  refine h.enable ?_ (congrArg State.changes hschema) (congrArg Catalog.types hcat)
    (congrArg Catalog.labels hcat) hattaches.stampTables hattaches.validTables ?_ hattaches.captureTables
    (typeId_graph htid) (fun t ht => ?_) (fun t ht => ?_) fun t ht => ?_
  · rw [hschema]
    exact h.current
  · rw [hschema]
    exact List.Subset.refl _
  · rw [hattaches.stamped] at ht
    rcases List.mem_insert_iff.mp ht with heq | ht
    · exact .inr ⟨heq, hall⟩
    · exact .inl ht
  · exact .inl (hcat ▸ ht)
  · exact .inl (hattaches.tracked ▸ ht)

theorem Inv.enableHistory {graph name : String} (h : Inv d)
    (hop : enableHistory d graph name = .ok d') : Inv d' := by
  obtain ⟨gid, -, hop⟩ := bind_eq_ok.mp hop
  obtain ⟨tid, htid, hop⟩ := bind_eq_ok.mp hop
  obtain rfl := pure_eq_ok.mp hop
  set d₀ : Database := { d with
    settings := d.settings.insert (historyKey graph name)
    tracked := d.tracked.insert tid }
  obtain ⟨hattaches, hall⟩ := captured_tables d₀ (tables d.catalog tid)
  set d₁ := (tables d.catalog tid).foldl captureTable d₀
  have hschema : d₁.schema = d.schema := hattaches.schema
  have hcat : d₁.catalog = d.catalog := hattaches.catalog
  refine h.enable ?_ (congrArg State.changes hschema) (congrArg Catalog.types hcat)
    (congrArg Catalog.labels hcat) hattaches.stampTables hattaches.validTables ?_ hattaches.captureTables
    (typeId_graph htid) (fun t ht => ?_) (fun t ht => ?_) fun t ht => ?_
  · rw [hschema]
    exact h.current
  · rw [hschema]
    exact List.Subset.refl _
  · exact .inl (hattaches.stamped ▸ ht)
  · exact .inl (hcat ▸ ht)
  · rw [hattaches.tracked] at ht
    rcases List.mem_insert_iff.mp ht with heq | ht
    · exact .inr ⟨heq, hall⟩
    · exact .inl ht

/-- What `og_enable_temporal` leaves of the schema. -/
theorem enableTemporal_schema {s s' : State} {graph name : String} {gid tid : Int} (hcur : Current s.o)
    (hgid : graphId s.o.catalog graph = .ok gid) (htid : typeId s.o.catalog gid name = .ok tid)
    (hop : SchemaEvolution.enableTemporal s graph name = .ok s') :
    Current s'.o ∧ s'.changes = s.changes ∧ s'.o.catalog.types = s.o.catalog.types ∧
      s'.o.catalog.labels = s.o.catalog.labels ∧ s.histories ⊆ s'.histories ∧
      (∀ sub ∈ tables s.o.catalog tid, keepsHistory s.o.catalog sub → sub ∈ s'.histories) ∧
      ∀ t ∈ s'.o.catalog.temporal, t ∈ s.o.catalog.temporal ∨ t = tid := by
  simp only [SchemaEvolution.enableTemporal] at hop
  obtain ⟨gid', hgid', hop⟩ := bind_eq_ok.mp hop
  obtain rfl := Except.ok.inj (hgid.symm.trans hgid')
  obtain ⟨tid', htid', hop⟩ := bind_eq_ok.mp hop
  obtain rfl := Except.ok.inj (htid.symm.trans htid')
  obtain ⟨kind, -, hop⟩ := bind_eq_ok.mp hop
  obtain ⟨-, -, hop⟩ := bind_eq_ok.mp hop
  obtain rfl := pure_eq_ok.mp hop
  set s₀ := s.withCatalog { s.o.catalog with
    temporal := if tid ∈ s.o.catalog.temporal then s.o.catalog.temporal else tid :: s.o.catalog.temporal }
  obtain ⟨⟨ho, hmore⟩, hall⟩ := histories_enableTables s₀ (tables s.o.catalog tid)
  obtain ⟨-, hchanges, -⟩ := foldl_frame (f := enableTable)
    (fun s sub => ⟨enableTable_o, enableTable_changes, enableTable_nextChange⟩) s₀ (tables s.o.catalog tid)
  refine ⟨?_, hchanges, ?_, ?_, hmore, fun sub hsub hkeeps => ?_, fun t ht => ?_⟩
  · rw [ho]
    exact hcur.same ⟨rfl, rfl, rfl⟩
  · rw [ho]
    rfl
  · rw [ho]
    rfl
  · refine hall sub hsub ?_
    rw [ho]
    exact hkeeps
  · rw [ho] at ht
    replace ht : t ∈ if tid ∈ s.o.catalog.temporal then s.o.catalog.temporal
      else tid :: s.o.catalog.temporal := ht
    split at ht
    · exact .inl ht
    · rcases List.mem_cons.mp ht with heq | ht
      · exact .inr heq
      · exact .inl ht

theorem Inv.enableTemporal {graph name : String} (h : Inv d)
    (hop : enableTemporal d graph name = .ok d') : Inv d' := by
  obtain ⟨gid, hgid, hop⟩ := bind_eq_ok.mp hop
  obtain ⟨tid, htid, hop⟩ := bind_eq_ok.mp hop
  obtain ⟨s, hs, hop⟩ := bind_eq_ok.mp hop
  obtain rfl := pure_eq_ok.mp hop
  obtain ⟨hcur, hchanges, htypes, hlabels, hmore, hhistories, htemporal⟩ :=
    enableTemporal_schema h.current hgid htid hs
  set d₀ : Database := { d with schema := s, stamped := d.stamped.insert tid }
  have htables : tables d₀.catalog tid = tables d.catalog tid := by
    have hstorage (sub : Int) : storageTable d₀.catalog sub = storageTable d.catalog sub :=
      storageTable_congr htypes sub
    have hlabels : d₀.catalog.labels = d.catalog.labels := hlabels
    simp only [tables, ogSubtypes, hlabels, hstorage]
  have hkeeps (sub : Int) : keepsHistory d₀.catalog sub = keepsHistory d.catalog sub := by
    unfold keepsHistory
    rw [show storageTable d₀.catalog sub = storageTable d.catalog sub from storageTable_congr htypes sub]
  obtain ⟨hattaches, hall⟩ := versioned_tables d₀ (tables d₀.catalog tid)
  set d₁ := (tables d₀.catalog tid).foldl versionTable d₀
  have hschema : d₁.schema = s := hattaches.schema
  have hcat : d₁.catalog = s.o.catalog := hattaches.catalog
  rw [htables] at hall
  have hboth (sub : Int) (hsub : sub ∈ tables d.catalog tid) :
      sub ∈ d₁.stampTables ∧ sub ∈ d₁.validTables ∧ sub ∈ d₁.schema.histories := by
    have hkept := h.keeps sub (mem_tables.mp hsub).2
    obtain ⟨hstamped, hvalid⟩ := hall sub hsub (hkeeps sub ▸ hkept)
    rw [hschema]
    exact ⟨hstamped, hvalid, hhistories sub hsub hkept⟩
  refine h.enable ?_ ?_ ?_ ?_ hattaches.stampTables hattaches.validTables ?_ hattaches.captureTables
    (typeId_graph htid) (fun t ht => ?_) (fun t ht => ?_) fun t ht => ?_
  · rw [hschema]
    exact hcur
  · rw [hschema]
    exact hchanges
  · rw [hcat]
    exact htypes
  · rw [hcat]
    exact hlabels
  · rw [hschema]
    exact hmore
  · rw [hattaches.stamped] at ht
    rcases List.mem_insert_iff.mp ht with heq | ht
    · exact .inr ⟨heq, fun sub hsub => (hboth sub hsub).1⟩
    · exact .inl ht
  · rw [hcat] at ht
    exact (htemporal t ht).imp_right fun heq => ⟨heq, fun sub hsub => (hboth sub hsub).2⟩
  · exact .inl (hattaches.tracked ▸ ht)

theorem Inv.step {e : Event} (h : Inv d) (hguard : Reached d e) (hop : step d e = .ok d') : Inv d' := by
  cases e with
  | createType graph name kind parents isAbstract => exact h.createType hguard hop
  | enableStamping graph name => exact h.enableStamping hop
  | enableTemporal graph name => exact h.enableTemporal hop
  | enableHistory graph name => exact h.enableHistory hop
  | plan graph change => exact h.plan hop
  | expand session id => exact h.expand hop
  | migrate id => exact h.migrate hop
  | validate id violations => exact h.validate hop
  | contract id => exact h.contract hguard hop
  | abort id => exact h.abort hop

end Steps

section Runs

variable {d₀ d : Database} {es : List Event}

/-- A database before its first type. -/
structure Start (d : Database) : Prop where
  noTypes : NoTypes d.schema.o
  temporal : d.catalog.temporal = []
  changes : d.schema.changes = []
  stamped : d.stamped = []
  tracked : d.tracked = []

theorem Start.inv (h : Start d) : Inv d := by
  refine ⟨h.noTypes.current, fun sub hsub => ?_, ?_, fun t ht => ?_, ⟨?_, ?_, ?_⟩⟩
  · obtain ⟨r, hr, -⟩ := storageTable_mem hsub
    have hnone : d.catalog.types = [] := h.noTypes.types
    rw [hnone] at hr
    cases hr
  · simp [h.changes]
  · simp [mem_marks, h.stamped, h.temporal, h.tracked] at ht
  · simp [h.stamped]
  · simp [h.temporal]
  · simp [h.tracked]

/-- One graph without types. -/
def kb : Database where
  schema := PropertyColumns.kb
  stamped := []
  settings := []
  stampTables := []
  validTables := []
  captureTables := []
  tracked := []

theorem kb_start : Start kb := ⟨⟨rfl, rfl, rfl⟩, rfl, rfl, rfl, rfl⟩

end Runs

end OntologicalDb.InheritedFacilities
