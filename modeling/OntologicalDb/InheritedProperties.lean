import Mathlib
import OntologicalDb.AncestorSearch
import OntologicalDb.ColumnAgreement

/-!
Whether every type with a table has the properties of all types above it.
-/

namespace OntologicalDb.InheritedProperties

open OntologicalDb.AncestorSearch
open OntologicalDb.ColumnAgreement
open OntologicalDb.EvolutionFrames
open OntologicalDb.ExceptRules
open OntologicalDb.GuardedRuns
open OntologicalDb.LabelCurrency
open OntologicalDb.Labeling
open OntologicalDb.PropertyColumns (kb ascii book)
open OntologicalDb.SchemaChanges
open OntologicalDb.SchemaEvolution
open OntologicalDb.TypeCatalog
open OntologicalDb.TypedTables (Session columnName)

section Ancestors

theorem mem_inheritedProperties {c : Catalog} {p : Property} {a : Int} (h : IsSubtype c a p.typeId)
    (hp : p ∈ c.properties) : p ∈ inheritedProperties c a :=
  mem_inheritedProperties_iff.mpr ⟨hp, h⟩

end Ancestors

section Statement

/-- A type has a property of this name and type. -/
def CarriedBy (ps : List Property) (tid : Int) (p : Property) : Prop :=
  ∃ q ∈ ps, q.typeId = tid ∧ q.name = p.name ∧ q.dataType = p.dataType

/-- The rows: every type with a table has what the types above it have. -/
def Carried (c : Catalog) : Prop :=
  ∀ t, (storageTable c t).isSome → ∀ p ∈ c.properties, IsSubtype c t p.typeId →
    CarriedBy c.properties t p

/-- Rows and columns. -/
def Inherits (s : State) : Prop :=
  ∀ t, (storageTable s.o.catalog t).isSome → ∀ p ∈ s.o.catalog.properties,
    IsSubtype s.o.catalog t p.typeId →
      ∃ q ∈ s.o.catalog.properties, q.typeId = t ∧ q.name = p.name ∧ q.dataType = p.dataType ∧
        s.columns (current t) (physical q.columnName) = some p.dataType

end Statement

section Conditions

variable (s : State)

/-- A table that has the property already has it with the type that is asked for. -/
def OneTypeAdd (gid : Int) (typeName prop dtype : String) : Prop :=
  ∀ tid, typeId s.o.catalog gid typeName = .ok tid → ∀ sub ∈ tables s.o.catalog tid,
    ∀ q ∈ s.o.catalog.properties, q.typeId = sub → q.name = prop → q.dataType = dtype

def OneType (ps : List Property) : Prop :=
  ∀ p ∈ ps, ∀ q ∈ ps, p.name = q.name → p.dataType = q.dataType

/-- What a new type inherits from several types has one type. -/
def OneTypeCreate (graph : String) (kind : Kind) (parents : List String) (isAbstract : Bool) : Prop :=
  ∀ gid pids, graphId s.o.catalog graph = .ok gid →
    parents.mapM (parentId s.o.catalog gid kind) = .ok pids →
    (instanceTable kind isAbstract s.o.nextTypeId).isSome →
    OneType (pids.flatMap (inheritedProperties s.o.catalog))

/-- What the tables below a new parent have under an inherited name has its type. -/
def OneTypeParent (ch : Change) : Prop :=
  ∀ c₁ c₂, insertParent ch.report.typeId s.o.catalog ch.report.parentId = .ok c₁ →
    relabelGraph c₁ ch.gid = .ok c₂ →
    OneType (inheritedProperties c₂ ch.report.parentId) ∧
      ∀ sub ∈ tables c₂ ch.report.typeId, ∀ p ∈ inheritedProperties c₂ ch.report.parentId,
        ∀ q ∈ s.o.catalog.properties, q.typeId = sub → q.name = p.name → q.dataType = p.dataType

/-- A widening sees every type a property is inherited from, or finds text there. -/
def WidensAll (tid : Int) (prop : String) : Prop :=
  ∀ sub ∈ tables s.o.catalog tid, ∀ p ∈ s.o.catalog.properties,
    IsSubtype s.o.catalog sub p.typeId → p.name = prop →
      p.typeId ∈ ogSubtypes s.o.catalog tid ∨ p.dataType = "text"

/-- A name that is deleted for a type and its subtypes is not inherited by one of them
from another type. -/
def NotElsewhere (ch : Change) (name : String) : Prop :=
  ∀ tid, typeOf s ch = .ok tid → ∀ sub ∈ tables s.o.catalog tid, ∀ p ∈ s.o.catalog.properties,
    IsSubtype s.o.catalog sub p.typeId → p.name = name → p.typeId ∈ ogSubtypes s.o.catalog tid

def Retyped (c : Catalog) (tid : Int) (column : String) (p : Property) : Prop :=
  p.typeId ∈ ogSubtypes c tid ∧ p.columnName = column

/-- A change of type reaches a property and the one it is inherited from alike. -/
def RetypesAlike (ch : Change) : Prop :=
  ∀ tid, typeOf s ch = .ok tid → ∀ sub ∈ tables s.o.catalog tid, ∀ p ∈ s.o.catalog.properties,
    IsSubtype s.o.catalog sub p.typeId → ∀ q ∈ s.o.catalog.properties, q.typeId = sub →
      q.name = p.name → q.dataType = p.dataType →
        (Retyped s.o.catalog tid ch.report.column p ↔ Retyped s.o.catalog tid ch.report.column q) ∨
          p.dataType = ch.report.toSql

/-- The conditions under which an operation keeps the inherited properties complete. -/
def Complete (s : State) (op : Op) : Prop :=
  Typed s op ∧
    match op with
    | .createType graph _ kind parents isAbstract => OneTypeCreate s graph kind parents isAbstract
    | .addProperty _ gid typeName prop dtype => OneTypeAdd s gid typeName prop dtype
    | .widen tid prop => WidensAll s tid prop
    | .expand _ id => ∀ ch, s.change id = .ok ch →
        match ch.spec with
        | .addProperty type prop dtype => OneTypeAdd s ch.gid type prop dtype
        | _ => True
    | .contract id => ∀ ch, s.change id = .ok ch →
        match ch.spec with
        | .dropProperty _ prop => NotElsewhere s ch prop
        | .renameProperty _ old _ => NotElsewhere s ch old
        | .alterPropertyType _ _ _ => RetypesAlike s ch
        | .addParent _ _ => OneTypeParent s ch
        | _ => True
    | .abort id => ∀ ch, s.change id = .ok ch → ch.phase ≠ .planned →
        match ch.spec with
        | .renameProperty _ _ new => NotElsewhere s ch new
        | _ => True
    | _ => True

end Conditions

section Rows

variable {c c' : Catalog} {ps ps' : List Property} {tid : Int} {p : Property}

theorem CarriedBy.mono (h : CarriedBy ps tid p) (hsub : ps ⊆ ps') : CarriedBy ps' tid p := by
  obtain ⟨q, hq, hkeys⟩ := h
  exact ⟨q, hsub hq, hkeys⟩

/-- Rows that stay, on fewer links. -/
theorem Carried.frame (h : Carried c) (hprops : c'.properties = c.properties)
    (hstorage : ∀ t, (storageTable c' t).isSome → (storageTable c t).isSome)
    (hlinks : c'.typeParent ⊆ c.typeParent) : Carried c' := by
  intro t ht p hp hsub
  rw [hprops] at hp ⊢
  exact h t (hstorage t ht) p hp (isSubtype_mono hsub hlinks)

/-- Rows that are copied to a table with one type a name. -/
theorem carriedBy_inserted {inherited rows : List Property} {p₀ : Property}
    (hp₀ : p₀ ∈ inherited) (hrow : { p₀ with typeId := tid } ∈ rows)
    (hrows : ∀ r ∈ rows, r.typeId = tid → r ∈ copies tid inherited) (hone : OneType inherited)
    (hold : ∀ q ∈ ps, q.typeId = tid → q.name = p₀.name → q.dataType = p₀.dataType) :
    CarriedBy (rows.foldl insertProperty ps) tid p₀ := by
  obtain ⟨r, hr, hid, hname⟩ := exists_mem_insertProperties ps hrow
  refine ⟨r, hr, hid, hname, ?_⟩
  rcases mem_insertProperties hr with hr | ⟨hr, -⟩
  · exact hold r hr hid hname
  · obtain ⟨p₁, hp₁, rfl⟩ := mem_copies.mp (hrows r hr hid)
    exact hone p₁ hp₁ p₀ hp₀ hname

end Rows

section Types

variable {s s' : State}

theorem Carried.createType {graph name : String} {kind : Kind} {parents : List String}
    {isAbstract : Bool} (h : Carried s.o.catalog) (hinv : Inv s)
    (hguard : OneTypeCreate s graph kind parents isAbstract)
    (hop : SchemaEvolution.createType s graph name kind parents isAbstract = .ok s') :
    Carried s'.o.catalog := by
  simp only [SchemaEvolution.createType] at hop
  obtain ⟨gid, hgid, hop⟩ := bind_eq_ok.mp hop
  obtain ⟨pids, hpids, hop⟩ := bind_eq_ok.mp hop
  have hcur := hinv.current
  split at hop
  · next htable =>
    obtain ⟨o', hcreate, hop⟩ := bind_eq_ok.mp hop
    obtain rfl := pure_eq_ok.mp hop
    obtain ⟨pids', c₁, hpids', hrest, hrel, -⟩ := createType_eq_ok hcreate
    obtain rfl := Except.ok.inj (hpids.symm.trans hpids')
    obtain rfl := Except.ok.inj hrest
    have hcat := relabelGraph_eq hrel
    set inherited := pids.flatMap (inheritedProperties s.o.catalog)
    have hprops : o'.catalog.properties =
        (copies s.o.nextTypeId inherited).foldl insertProperty s.o.catalog.properties := by rw [hcat]
    have hlinks : o'.catalog.typeParent = s.o.catalog.typeParent ++
        pids.map fun pid => (s.o.nextTypeId, pid) := by rw [hcat]
    have htypes : o'.catalog.types = s.o.catalog.types ++
        [⟨s.o.nextTypeId, gid, name, kind, instanceTable kind isAbstract s.o.nextTypeId⟩] := by rw [hcat]
    have hnone := not_mem_graphTypes_next hcur
    have hrow {p : Property} (hp : p ∈ o'.catalog.properties) :
        p ∈ s.o.catalog.properties ∨ p.typeId = s.o.nextTypeId := by
      rcases mem_insertProperties (hprops ▸ hp) with hp | ⟨hp, -⟩
      · exact .inl hp
      · obtain ⟨p₀, -, rfl⟩ := mem_copies.mp hp
        exact .inr rfl
    rw [enableTemporalTable_o]
    intro t hstorage p hp hsub
    by_cases hne : t = s.o.nextTypeId
    · subst hne
      by_cases hown : p.typeId = s.o.nextTypeId
      · exact ⟨p, hp, hown, rfl, rfl⟩
      · have hold := (hrow hp).resolve_right hown
        rcases Relation.ReflTransGen.cases_tail hsub with heq | ⟨pid, habove, hchild⟩
        · exact absurd heq.symm hown
        · have hchild : (s.o.nextTypeId, pid) ∈ o'.catalog.typeParent := hchild
          rcases List.mem_append.mp (hlinks ▸ hchild) with hlink | hlink
          · obtain ⟨g, hmem, -⟩ := hcur.wellFormed.parents _ hlink
            exact absurd hmem (hnone g)
          · obtain ⟨pid', hpid, heq⟩ := List.mem_map.mp hlink
            obtain rfl : pid' = pid := (Prod.mk.inj heq).2
            obtain ⟨parent, -, hparent⟩ := mapM_mem hpids hpid
            have hne : pid' ≠ s.o.nextTypeId := by
              rintro rfl
              exact hnone gid (parentId_mem hparent)
            have habove := isSubtype_created hcur hlinks hne habove
            have hp₀ : p ∈ inherited :=
              List.mem_flatMap.mpr ⟨pid', hpid, mem_inheritedProperties habove hold⟩
            rw [hprops]
            refine carriedBy_inserted hp₀ (mem_copies.mpr ⟨p, hp₀, rfl⟩) (fun r hr _ => hr)
              (hguard gid pids hgid hpids htable) fun q hq hid _ => ?_
            exact absurd hid (hinv.rows q hq).ne
    · have hsub' := isSubtype_created hcur hlinks hne hsub
      have hold : p ∈ s.o.catalog.properties := by
        refine (hrow hp).resolve_right fun hown => hne ?_
        exact eq_of_isSubtype_fresh hcur.wellFormed hnone (hown ▸ hsub')
      have hsame := storageTable_append htypes hne
      refine (h t (hsame ▸ hstorage) p hold hsub').mono ?_
      rw [hprops]
      exact subset_insertProperties
  · next htable =>
    obtain ⟨o', hcreate, hop⟩ := bind_eq_ok.mp hop
    obtain rfl := pure_eq_ok.mp hop
    obtain ⟨pids', c₁, hpids', hrest, hrel, -⟩ := createType_eq_ok hcreate
    obtain rfl := Except.ok.inj hrest
    have hcat := relabelGraph_eq hrel
    have hprops : o'.catalog.properties = s.o.catalog.properties := by rw [hcat]
    have hlinks : o'.catalog.typeParent = s.o.catalog.typeParent ++
        pids'.map fun pid => (s.o.nextTypeId, pid) := by rw [hcat]
    have htypes : o'.catalog.types = s.o.catalog.types ++
        [⟨s.o.nextTypeId, gid, name, kind, instanceTable kind isAbstract s.o.nextTypeId⟩] := by rw [hcat]
    intro t hstorage p hp hsub
    have hne : t ≠ s.o.nextTypeId := by
      rintro rfl
      rw [storageTable_new htypes hcur.fresh] at hstorage
      exact htable hstorage
    rw [hprops] at hp ⊢
    have hsame := storageTable_append htypes hne
    exact h t (hsame ▸ hstorage) p hp (isSubtype_created hcur hlinks hne hsub)

theorem Carried.dropType {graph name : String} {cascade : Bool} {instances : List Int → Nat}
    (h : Carried s.o.catalog)
    (hop : SchemaEvolution.dropType s graph name cascade instances = .ok s') :
    Carried s'.o.catalog := by
  simp only [SchemaEvolution.dropType] at hop
  obtain ⟨gid, -, hop⟩ := bind_eq_ok.mp hop
  obtain ⟨tid, -, hop⟩ := bind_eq_ok.mp hop
  obtain ⟨o, hdrop, hop⟩ := bind_eq_ok.mp hop
  obtain rfl := pure_eq_ok.mp hop
  obtain ⟨tid', c₁, -, hdel, hrel, -⟩ := dropType_eq_ok hdrop
  obtain ⟨htypes, hlinks, hprops, -⟩ := deleteTypes_eq hdel
  have hcat := relabelGraph_eq hrel
  have hprops' : o.catalog.properties = c₁.properties := by rw [hcat]
  have htypes' : o.catalog.types = s.o.catalog.types.filter
      fun t => t.typeId ∉ ogSubtypes s.o.catalog tid' := by rw [hcat]; exact htypes
  intro t hstorage p hp hsub
  obtain ⟨hkept, hsame⟩ := storageTable_filter htypes' hstorage
  change p ∈ o.catalog.properties at hp
  change CarriedBy o.catalog.properties t p
  rw [hprops', hprops] at hp ⊢
  have hsub' : IsSubtype s.o.catalog t p.typeId := by
    refine isSubtype_mono hsub ?_
    change o.catalog.typeParent ⊆ _
    rw [hcat]
    change c₁.typeParent ⊆ _
    rw [hlinks]
    exact fun l hl => (List.mem_filter.mp hl).1
  obtain ⟨q, hq, hid, hkeys⟩ := h t (hsame ▸ hstorage) p (List.mem_filter.mp hp).1 hsub'
  exact ⟨q, List.mem_filter.mpr ⟨hq, decide_eq_true (hid ▸ hkept)⟩, hid, hkeys⟩

theorem Carried.addProperty {gid : Int} {session : Session} {typeName prop dtype : String}
    (h : Carried s.o.catalog) (hinv : Inv s) (hguard : OneTypeAdd s gid typeName prop dtype)
    (hop : SchemaEvolution.addProperty session s gid typeName prop dtype = .ok s') :
    Carried s'.o.catalog := by
  obtain ⟨tid, ht, -, rfl⟩ := addProperty_eq_ok hop
  have htid := tryTypeId_mem (typeId_eq_ok.mp ht)
  have hbelow (sub : Int) : sub ∈ ogSubtypes s.o.catalog tid ↔ IsSubtype s.o.catalog sub tid :=
    mem_ogSubtypes_iff hinv.current.wellFormed htid
  set new := fun sub => (⟨sub, prop, dtype, columnName session prop, false, false⟩ : Property)
  set rows := (tid :: tables s.o.catalog tid).map new
  have hrow {r : Property} (hr : r ∈ rows) : ∃ sub ∈ tid :: tables s.o.catalog tid, new sub = r :=
    List.mem_map.mp hr
  intro t hstorage p hp hsub
  change p ∈ rows.foldl insertProperty s.o.catalog.properties at hp
  change CarriedBy (rows.foldl insertProperty s.o.catalog.properties) t p
  rcases mem_insertProperties hp with hp | ⟨hp, -⟩
  · exact (h t hstorage p hp hsub).mono subset_insertProperties
  · obtain ⟨sub, hmem, rfl⟩ := hrow hp
    have habove : IsSubtype s.o.catalog sub tid := by
      rcases List.mem_cons.mp hmem with rfl | hmem
      · exact .refl
      · exact (hbelow sub).mp (mem_tables.mp hmem).1
    have htable : t ∈ tables s.o.catalog tid :=
      mem_tables.mpr ⟨(hbelow t).mpr (habove.trans hsub), hstorage⟩
    obtain ⟨r, hr, hid, hname⟩ := exists_mem_insertProperties s.o.catalog.properties
      (List.mem_map_of_mem (f := new) (List.mem_cons_of_mem tid htable))
    refine ⟨r, hr, hid, hname, ?_⟩
    rcases mem_insertProperties hr with hr | ⟨hr, -⟩
    · exact hguard tid ht t htable r hr hid hname
    · obtain ⟨sub', -, rfl⟩ := hrow hr
      rfl

/-- Rows that are updated together with those they are inherited from. -/
theorem Carried.update {c : Catalog} {cond : Property → Prop} [DecidablePred cond] {dtype : String}
    (h : Carried c)
    (halike : ∀ t, (storageTable c t).isSome → ∀ p ∈ c.properties, IsSubtype c t p.typeId →
      ∀ q ∈ c.properties, q.typeId = t → q.name = p.name → q.dataType = p.dataType →
        (cond p ↔ cond q) ∨ p.dataType = dtype) :
    Carried { c with
      properties := KeyedRows.update cond (fun p => { p with dataType := dtype }) c.properties } := by
  intro t hstorage p' hp' hsub
  obtain ⟨p, hp, rfl⟩ := List.mem_map.mp hp'
  have hsub : IsSubtype c t p.typeId := by
    revert hsub
    split <;> exact id
  obtain ⟨q, hq, hid, hname, htype⟩ := h t hstorage p hp hsub
  refine ⟨_, List.mem_map_of_mem hq, ?_⟩
  have hpair := halike t hstorage p hp hsub q hq hid hname htype
  by_cases hcp : cond p <;> by_cases hcq : cond q
  · rw [if_pos hcp, if_pos hcq]
    exact ⟨hid, hname, rfl⟩
  · rw [if_pos hcp, if_neg hcq]
    exact ⟨hid, hname, htype.trans (hpair.resolve_left fun hiff => hcq (hiff.mp hcp))⟩
  · rw [if_neg hcp, if_pos hcq]
    exact ⟨hid, hname, (hpair.resolve_left fun hiff => hcp (hiff.mpr hcq)).symm⟩
  · rw [if_neg hcp, if_neg hcq]
    exact ⟨hid, hname, htype⟩

theorem Carried.widen {tid : Int} {prop : String} (h : Carried s.o.catalog) (hinv : Inv s)
    (hguard : WidensAll s tid prop) (hop : SchemaEvolution.widenProperty s tid prop = .ok s') :
    Carried s'.o.catalog := by
  simp only [SchemaEvolution.widenProperty] at hop
  obtain ⟨p₀, hp₀, hop⟩ := bind_eq_ok.mp hop
  obtain ⟨-, -, hop⟩ := bind_eq_ok.mp hop
  obtain ⟨-, -, hop⟩ := bind_eq_ok.mp hop
  obtain rfl := pure_eq_ok.mp hop
  refine h.update fun t hstorage p hp hsub q hq hid hname _ => ?_
  by_cases hprop : p.name = prop
  · by_cases hmem : p.typeId ∈ ogSubtypes s.o.catalog tid
    · -- below a subtype are subtypes
      have hmem' : q.typeId ∈ ogSubtypes s.o.catalog tid := 
        hid ▸ ogSubtypes_below hinv.current.wellFormed hmem hsub
      exact .inl ⟨fun _ => ⟨hmem', hname.trans hprop⟩, fun _ => ⟨hmem, hprop⟩⟩
    · by_cases hmem' : q.typeId ∈ ogSubtypes s.o.catalog tid
      · refine .inr ((hguard t ?_ p hp hsub hprop).resolve_left hmem)
        exact mem_tables.mpr ⟨hid ▸ hmem', hstorage⟩
      · exact .inl ⟨fun hand => absurd hand.1 hmem, fun hand => absurd hand.1 hmem'⟩
  · exact .inl ⟨fun hand => absurd hand.2 hprop, fun hand => absurd (hname.symm.trans hand.2) hprop⟩

end Types

section Phases

variable {c : Catalog} {s s' s₁ : State} {ch : Change}

theorem Carried.deleteName {tid : Int} {name : String} (h : Carried c)
    (hguard : ∀ sub ∈ tables c tid, ∀ p ∈ c.properties, IsSubtype c sub p.typeId → p.name = name →
      p.typeId ∈ ogSubtypes c tid) :
    Carried { c with properties := deleteName c (ogSubtypes c tid) name } := by
  intro t hstorage p hp hsub
  obtain ⟨hp, hkept⟩ := List.mem_filter.mp hp
  have hkept := of_decide_eq_true hkept
  obtain ⟨q, hq, hid, hname, htype⟩ := h t hstorage p hp hsub
  refine ⟨q, List.mem_filter.mpr ⟨hq, decide_eq_true ?_⟩, hid, hname, htype⟩
  rintro ⟨hmem, hgone⟩
  have hpname := hname.symm.trans hgone
  exact hkept ⟨hguard t (mem_tables.mpr ⟨hid ▸ hmem, hstorage⟩) p hp hsub hpname, hpname⟩

theorem Carried.secondNames {tid : Int} {prop new : String} (h : Carried c) (hc : WellFormed c) :
    Carried { c with properties := c.properties ++ secondNames c (ogSubtypes c tid) prop new } := by
  intro t hstorage p hp hsub
  rcases List.mem_append.mp hp with hp | hp
  · exact (h t hstorage p hp hsub).mono (List.subset_append_left _ _)
  · obtain ⟨p, hfound, rfl⟩ := List.mem_map.mp hp
    obtain ⟨hp, hcond⟩ := List.mem_filter.mp hfound
    obtain ⟨hmem, hname⟩ := of_decide_eq_true hcond
    obtain ⟨q, hq, hid, hqname, htype⟩ := h t hstorage p hp hsub
    have hqmem : q.typeId ∈ ogSubtypes c tid := hid ▸ ogSubtypes_below hc hmem hsub
    have hqnew : { q with name := new } ∈ SchemaEvolution.secondNames c (ogSubtypes c tid) prop new :=
      List.mem_map_of_mem (List.mem_filter.mpr ⟨hq, decide_eq_true ⟨hqmem, hqname.trans hname⟩⟩)
    exact ⟨_, List.mem_append_right _ hqnew, hid, rfl, htype⟩

/-- Updates that set neither a name nor a type. -/
theorem Carried.map {f : Property → Property} (h : Carried c)
    (hf : ∀ p, (f p).typeId = p.typeId ∧ (f p).name = p.name ∧ (f p).dataType = p.dataType) :
    Carried { c with properties := c.properties.map f } := by
  intro t hstorage p' hp' hsub
  obtain ⟨p, hp, rfl⟩ := List.mem_map.mp hp'
  obtain ⟨hpid, hpname, hptype⟩ := hf p
  obtain ⟨q, hq, hid, hname, htype⟩ := h t hstorage p hp (hpid ▸ hsub)
  obtain ⟨hqid, hqname, hqtype⟩ := hf q
  refine ⟨f q, List.mem_map_of_mem hq, hqid.trans hid, ?_, ?_⟩
  · rw [hqname, hname, hpname]
  · rw [hqtype, htype, hptype]

theorem Carried.expand {session : Session} {id : Nat} (h : Carried s.o.catalog) (hinv : Inv s)
    (hch : s.change id = .ok ch) (hguard : Complete s (.expand session id))
    (hop : SchemaEvolution.expand session s ch = .ok s₁) : Carried s₁.o.catalog := by
  have hone := hguard.2 ch hch
  cases hspec : ch.spec with
  | addProperty type prop dtype =>
      simp only [SchemaEvolution.expand, hspec] at hop hone
      exact h.addProperty hinv hone hop
  | renameProperty type old new =>
      simp only [SchemaEvolution.expand, hspec] at hop
      obtain ⟨tid, -, hop⟩ := bind_eq_ok.mp hop
      obtain ⟨-, -, hop⟩ := bind_eq_ok.mp hop
      obtain rfl := pure_eq_ok.mp hop
      exact h.secondNames hinv.current.wellFormed
  | alterPropertyType type prop toSql =>
      simp only [SchemaEvolution.expand, hspec] at hop
      obtain ⟨tid, -, hop⟩ := bind_eq_ok.mp hop
      obtain ⟨-, -, hop⟩ := bind_eq_ok.mp hop
      obtain rfl := pure_eq_ok.mp hop
      exact h
  | setRequired type prop =>
      simp only [SchemaEvolution.expand, hspec] at hop
      obtain ⟨tid, -, hop⟩ := bind_eq_ok.mp hop
      obtain ⟨-, -, hop⟩ := bind_eq_ok.mp hop
      obtain rfl := pure_eq_ok.mp hop
      exact h
  | dropProperty _ _ | addUnique _ _ | renameType _ _ | addParent _ _ | removeParent _ _ =>
      simp only [SchemaEvolution.expand, hspec] at hop
      obtain rfl := pure_eq_ok.mp hop
      exact h

theorem Carried.contract_addParent {type parent : String} (h : Carried s.o.catalog) (hinv : Inv s)
    (hspec : ch.spec = .addParent type parent) (hguard : OneTypeParent s ch)
    (hop : SchemaEvolution.contract s ch = .ok s₁) : Carried s₁.o.catalog := by
  simp only [SchemaEvolution.contract, hspec] at hop
  obtain ⟨_, hmem, hop⟩ := bind_eq_ok.mp hop
  obtain ⟨htid, hpid⟩ := require_eq_ok.mp hmem
  obtain ⟨c₁, hins, hop⟩ := bind_eq_ok.mp hop
  obtain ⟨c₂, hrel, hop⟩ := bind_eq_ok.mp hop
  obtain rfl := pure_eq_ok.mp hop
  obtain ⟨hone, hold⟩ := hguard c₁ c₂ hins hrel
  obtain rfl := insertParent_eq_ok hins
  have hlinked : Current { s.o with catalog := c₂ } := Current.linked hinv.current htid hpid hrel
  have hcat := relabelGraph_eq hrel
  have hprops : c₂.properties = s.o.catalog.properties := by rw [hcat]
  have htypes : c₂.types = s.o.catalog.types := by rw [hcat]
  have hlinks : c₂.typeParent = s.o.catalog.typeParent ++ [(ch.report.typeId, ch.report.parentId)] := by
    rw [hcat]
  have htid₂ : ch.report.typeId ∈ graphTypes c₂ ch.gid := by
    simp only [graphTypes, htypes]
    exact htid
  have hbelow (sub : Int) : sub ∈ ogSubtypes c₂ ch.report.typeId ↔ IsSubtype c₂ sub ch.report.typeId :=
    mem_ogSubtypes_iff hlinked.wellFormed htid₂
  set tid := ch.report.typeId
  set pid := ch.report.parentId
  set inherited := inheritedProperties c₂ pid
  set rows := (tables c₂ tid).flatMap fun sub => copies sub inherited
  obtain ⟨ho, -, -⟩ := foldl_frame (f := inheritTable inherited)
    (fun _ _ => ⟨enableTemporalTable_o, enableTemporalTable_changes, enableTemporalTable_nextChange⟩)
    (s.withCatalog { c₂ with properties := rows.foldl insertProperty c₂.properties }) (tables c₂ tid)
  rw [ho]
  have hrow {r : Property} (hr : r ∈ rows) :
      r.typeId ∈ tables c₂ tid ∧ ∃ p ∈ inherited, { p with typeId := r.typeId } = r := by
    obtain ⟨sub, hsub, hr⟩ := List.mem_flatMap.mp hr
    obtain ⟨p, hp, rfl⟩ := mem_copies.mp hr
    exact ⟨hsub, p, hp, rfl⟩
  -- a table below the new link has all that is inherited through it
  have hgiven {t : Int} (hsub : t ∈ tables c₂ tid) {p : Property} (hp : p ∈ inherited) :
      CarriedBy (rows.foldl insertProperty c₂.properties) t p := by
    refine carriedBy_inserted hp (List.mem_flatMap.mpr ⟨t, hsub, mem_copies.mpr ⟨p, hp, rfl⟩⟩)
      (fun r hr hid => ?_) hone fun q hq => hold t hsub p hp q (hprops ▸ hq)
    obtain ⟨-, p₁, hp₁, heq⟩ := hrow hr
    exact mem_copies.mpr ⟨p₁, hp₁, hid ▸ heq⟩
  intro t hstorage p hp hsub
  change p ∈ rows.foldl insertProperty c₂.properties at hp
  change (storageTable c₂ t).isSome at hstorage
  change IsSubtype c₂ t p.typeId at hsub
  change CarriedBy (rows.foldl insertProperty c₂.properties) t p
  have htable (h : IsSubtype c₂ t tid) : t ∈ tables c₂ tid := mem_tables.mpr ⟨(hbelow t).mpr h, hstorage⟩
  rcases mem_insertProperties hp with hp | ⟨hp, -⟩
  · rcases isSubtype_append_above hlinks hsub with hsub' | ⟨l, hl, habove⟩
    · have hstorage' := storageTable_congr htypes t ▸ hstorage
      refine (h t hstorage' p (hprops ▸ hp) hsub').mono ?_
      rw [← hprops]
      exact subset_insertProperties
    · obtain rfl := List.mem_singleton.mp hl
      have hp₀ : p ∈ inherited := mem_inheritedProperties habove hp
      have hsub'' : IsSubtype { s.o.catalog with
          typeParent := s.o.catalog.typeParent ++ [(tid, pid)] } t p.typeId :=
        isSubtype_mono hsub (by rw [hlinks]; exact List.Subset.refl _)
      rcases isSubtype_append hsub'' with hsub'' | ⟨l, hl, hunder⟩
      · have hstorage' := storageTable_congr htypes t ▸ hstorage
        refine (h t hstorage' p (hprops ▸ hp) hsub'').mono ?_
        rw [← hprops]
        exact subset_insertProperties
      · obtain rfl := List.mem_singleton.mp hl
        have hunder' : IsSubtype c₂ t tid := isSubtype_mono hunder (by
          rw [hlinks]
          exact List.subset_append_left _ _)
        exact hgiven (htable hunder') hp₀
  · obtain ⟨hmem, p₀, hp₀, heq⟩ := hrow hp
    have hunder : IsSubtype c₂ t tid := ((hbelow p.typeId).mp (mem_tables.mp hmem).1).trans hsub
    obtain ⟨q, hq, hid, hname, htype⟩ := hgiven (htable hunder) hp₀
    refine ⟨q, hq, hid, ?_, ?_⟩
    · rw [hname, ← heq]
    · rw [htype, ← heq]

theorem Carried.contract_removeParent {type parent : String} (h : Carried s.o.catalog)
    (hspec : ch.spec = .removeParent type parent)
    (hop : SchemaEvolution.contract s ch = .ok s₁) : Carried s₁.o.catalog := by
  simp only [SchemaEvolution.contract, hspec] at hop
  obtain ⟨c₁, hrel, hop⟩ := bind_eq_ok.mp hop
  obtain rfl := pure_eq_ok.mp hop
  have hcat := relabelGraph_eq hrel
  have htypes : c₁.types = s.o.catalog.types := by rw [hcat]
  have hlinks : c₁.typeParent ⊆ s.o.catalog.typeParent := by
    rw [hcat]
    exact fun l hl => (List.mem_filter.mp hl).1
  have hprops : c₁.properties = s.o.catalog.properties := by rw [hcat]
  exact h.frame hprops (fun t ht => storageTable_congr htypes t ▸ ht) hlinks

theorem Carried.contract_renameType {type new : String} (h : Carried s.o.catalog)
    (hspec : ch.spec = .renameType type new)
    (hop : SchemaEvolution.contract s ch = .ok s₁) : Carried s₁.o.catalog := by
  simp only [SchemaEvolution.contract, hspec] at hop
  obtain ⟨tid, -, hop⟩ := bind_eq_ok.mp hop
  obtain ⟨-, -, hop⟩ := bind_eq_ok.mp hop
  obtain rfl := pure_eq_ok.mp hop
  refine h.frame rfl (fun t ht => ?_) (List.Subset.refl _)
  have ht : (storageTable { s.o.catalog with types := s.o.catalog.types.map fun t =>
      if t.typeId = tid then { t with name := new } else t } t).isSome := ht
  unfold storageTable at ht ⊢
  rw [typeRow?_map fun t => by split <;> rfl] at ht
  cases hrow : typeRow? s.o.catalog t with
  | none =>
      rw [hrow] at ht
      cases ht
  | some r =>
      rw [hrow] at ht
      change (if r.typeId = tid then { r with name := new } else r).storageTable.isSome at ht
      revert ht
      split <;> exact id

theorem Carried.contract {id : Nat} (h : Carried s.o.catalog) (hinv : Inv s)
    (hch : s.change id = .ok ch) (hguard : Complete s (.contract id))
    (hop : SchemaEvolution.contract s ch = .ok s₁) : Carried s₁.o.catalog := by
  have hone := hguard.2 ch hch
  cases hspec : ch.spec with
  | addProperty type prop dtype =>
      simp only [SchemaEvolution.contract, hspec] at hop
      obtain rfl := pure_eq_ok.mp hop
      exact h
  | dropProperty type prop =>
      simp only [SchemaEvolution.contract, hspec] at hop hone
      obtain ⟨tid, ht, hop⟩ := bind_eq_ok.mp hop
      obtain ⟨-, -, hop⟩ := bind_eq_ok.mp hop
      obtain rfl := pure_eq_ok.mp hop
      exact h.deleteName (hone tid ht)
  | renameProperty type old new =>
      simp only [SchemaEvolution.contract, hspec] at hop hone
      obtain ⟨tid, ht, hop⟩ := bind_eq_ok.mp hop
      obtain rfl := pure_eq_ok.mp hop
      exact h.deleteName (hone tid ht)
  | alterPropertyType type prop toSql =>
      simp only [SchemaEvolution.contract, hspec, contractAlter] at hop hone
      obtain ⟨tid, ht, hop⟩ := bind_eq_ok.mp hop
      obtain ⟨-, -, hop⟩ := bind_eq_ok.mp hop
      obtain ⟨-, -, hop⟩ := bind_eq_ok.mp hop
      obtain rfl := pure_eq_ok.mp hop
      refine h.update fun t hstorage p hp hsub q hq hid hname htype => ?_
      by_cases htable : t ∈ tables s.o.catalog tid
      · exact hone tid ht t htable p hp hsub q hq hid hname htype
      · -- neither the type nor a type above it is changed
        have hno : t ∉ ogSubtypes s.o.catalog tid := fun hmem => htable (mem_tables.mpr ⟨hmem, hstorage⟩)
        refine .inl ⟨fun hand => absurd ?_ hno, fun hand => absurd (hid ▸ hand.1) hno⟩
        exact ogSubtypes_below hinv.current.wellFormed hand.1 hsub
  | setRequired type prop =>
      simp only [SchemaEvolution.contract, hspec] at hop
      obtain ⟨tid, -, hop⟩ := bind_eq_ok.mp hop
      obtain ⟨-, -, hop⟩ := bind_eq_ok.mp hop
      obtain rfl := pure_eq_ok.mp hop
      exact h.map fun p => by split <;> exact ⟨rfl, rfl, rfl⟩
  | addUnique type prop =>
      simp only [SchemaEvolution.contract, hspec] at hop
      obtain ⟨tid, -, hop⟩ := bind_eq_ok.mp hop
      obtain ⟨-, -, hop⟩ := bind_eq_ok.mp hop
      obtain rfl := pure_eq_ok.mp hop
      exact h.map fun p => by split <;> exact ⟨rfl, rfl, rfl⟩
  | renameType type new => exact h.contract_renameType hspec hop
  | addParent type parent =>
      simp only [hspec] at hone
      exact h.contract_addParent hinv hspec hone hop
  | removeParent type parent => exact h.contract_removeParent hspec hop

theorem Carried.abort {id : Nat} (h : Carried s.o.catalog) (hch : s.change id = .ok ch)
    (hphase : ch.phase ≠ .planned) (hguard : Complete s (.abort id))
    (hop : SchemaEvolution.abort s ch = .ok s₁) : Carried s₁.o.catalog := by
  have hone := hguard.2 ch hch hphase
  cases hspec : ch.spec with
  | renameProperty type old new =>
      simp only [SchemaEvolution.abort, hspec] at hop hone
      obtain ⟨tid, ht, hop⟩ := bind_eq_ok.mp hop
      obtain rfl := pure_eq_ok.mp hop
      exact h.deleteName (hone tid ht)
  | alterPropertyType type prop toSql =>
      simp only [SchemaEvolution.abort, hspec] at hop
      obtain ⟨tid, -, hop⟩ := bind_eq_ok.mp hop
      obtain ⟨-, -, hop⟩ := bind_eq_ok.mp hop
      obtain rfl := pure_eq_ok.mp hop
      exact h
  | setRequired type prop =>
      simp only [SchemaEvolution.abort, hspec] at hop
      obtain ⟨tid, -, hop⟩ := bind_eq_ok.mp hop
      obtain rfl := pure_eq_ok.mp hop
      exact h
  | addProperty _ _ _ | dropProperty _ _ | addUnique _ _ | renameType _ _ | addParent _ _
  | removeParent _ _ =>
      simp only [SchemaEvolution.abort, hspec] at hop
      obtain rfl := pure_eq_ok.mp hop
      exact h

end Phases

section Runs

variable {s s' s₀ : State}

theorem Carried.enableTemporal {graph name : String} (h : Carried s.o.catalog)
    (hop : SchemaEvolution.enableTemporal s graph name = .ok s') : Carried s'.o.catalog := by
  simp only [SchemaEvolution.enableTemporal] at hop
  obtain ⟨gid, -, hop⟩ := bind_eq_ok.mp hop
  obtain ⟨tid, -, hop⟩ := bind_eq_ok.mp hop
  obtain ⟨kind, -, hop⟩ := bind_eq_ok.mp hop
  obtain ⟨-, -, hop⟩ := bind_eq_ok.mp hop
  obtain rfl := pure_eq_ok.mp hop
  obtain ⟨ho, -⟩ := foldl_frame
    (fun _ _ => ⟨enableTable_o, enableTable_changes, enableTable_nextChange⟩)
    (s.withCatalog { s.o.catalog with
      temporal := if tid ∈ s.o.catalog.temporal then s.o.catalog.temporal
        else tid :: s.o.catalog.temporal }) (tables s.o.catalog tid)
  rw [ho]
  exact h

theorem Carried.step {op : Op} (h : Carried s.o.catalog) (hinv : Inv s) (hguard : Complete s op)
    (hop : step s op = .ok s') : Carried s'.o.catalog := by
  have hone := hguard.2
  cases op with
  | createType graph name kind parents isAbstract => exact h.createType hinv hone hop
  | dropType graph name cascade instances => exact h.dropType hop
  | dropGraph graph => exact hguard.1.elim
  | define graph defs => exact hguard.1.elim
  | loadRdf graph triples => exact hguard.1.elim
  | addProperty session gid typeName prop dtype => exact h.addProperty hinv hone hop
  | widen tid prop => exact h.widen hinv hone hop
  | enableTemporal graph name => exact h.enableTemporal hop
  | plan graph spec =>
      obtain ⟨gid, -, hop⟩ := bind_eq_ok.mp hop
      obtain ⟨report, -, hop⟩ := bind_eq_ok.mp hop
      obtain rfl := pure_eq_ok.mp hop
      exact h
  | expand session id =>
      obtain ⟨ch, s₁, hch, -, hexpand, rfl⟩ := step_expand hop
      have hcarried : Carried s₁.o.catalog := h.expand hinv hch hguard hexpand
      exact hcarried
  | migrate id =>
      obtain ⟨ch, -, -, rfl⟩ := step_migrate hop
      exact h
  | validate id violations =>
      obtain ⟨ch, -, -, ⟨-, rfl⟩ | rfl⟩ := step_validate hop
      · exact h
      · exact h
  | contract id =>
      obtain ⟨ch, s₁, hch, -, hcontract, rfl⟩ := step_contract hop
      have hcarried : Carried s₁.o.catalog := h.contract hinv hch hguard hcontract
      exact hcarried
  | abort id =>
      obtain ⟨ch, hch, ⟨-, rfl⟩ | ⟨hphase, s₁, habort, rfl⟩⟩ := step_abort hop
      · exact h
      · have hcarried : Carried s₁.o.catalog := h.abort hch hphase hguard habort
        exact hcarried

end Runs

end OntologicalDb.InheritedProperties
