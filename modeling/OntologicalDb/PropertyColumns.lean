import Mathlib
import OntologicalDb.EvolutionFrames

/-!
Whether the properties of a type have a column each: the column is found by folding
the name, so an operation must not give a type a name that folds to a column in use.
-/

namespace OntologicalDb.PropertyColumns

open OntologicalDb.EvolutionFrames
open OntologicalDb.ExceptRules
open OntologicalDb.GuardedRuns
open OntologicalDb.LabelCurrency
open OntologicalDb.Labeling
open OntologicalDb.SchemaChanges
open OntologicalDb.SchemaEvolution
open OntologicalDb.TypeCatalog
open OntologicalDb.TypedTables
open OntologicalDb.Values

section Names

abbrev Links := List (Int × Int)

/-- A path of parent links leads up. -/
def Below (links : Links) (sub sup : Int) : Prop :=
  Relation.ReflTransGen (fun parent child => (child, parent) ∈ links) sup sub

/-- Between its expansion and its end a rename keeps two names of a property. -/
def twoNames : List Phase := [.expanded, .migrating, .validated]

def Renames (ch : Change) (a b : String) : Prop :=
  ch.phase ∈ twoNames ∧
    ∃ type, ch.spec = .renameProperty type a b ∨ ch.spec = .renameProperty type b a

/-- The two names of a rename that is pending for a type. -/
def Renaming (changes : List Change) (links : Links) (tid : Int) (a b : String) : Prop :=
  ∃ ch ∈ changes, Renames ch a b ∧ Below links tid ch.report.typeId

/-- Two rows of a type have one column only as the names of one property. -/
def Apart (changes : List Change) (links : Links) (p q : Property) : Prop :=
  physical p.columnName = physical q.columnName →
    p.name = q.name ∨ Renaming changes links p.typeId p.name q.name

def AllApart (changes : List Change) (links : Links) (ps : List Property) : Prop :=
  ∀ p ∈ ps, ∀ q ∈ ps, p.typeId = q.typeId → Apart changes links p q

/-- Two properties of a type have two columns, and a write to one leaves what is read
of the other. -/
def Separate (s : State) : Prop :=
  ∀ p ∈ s.o.catalog.properties, ∀ q ∈ s.o.catalog.properties, p.typeId = q.typeId →
    p.name ≠ q.name → ¬ Renaming s.changes s.o.catalog.typeParent p.typeId p.name q.name →
      physical p.columnName ≠ physical q.columnName ∧
        ∀ (r : TypedRow) (v : Val),
          (r.setCol (physical p.columnName) v).col (physical q.columnName) =
            r.col (physical q.columnName)

end Names

section Conditions

variable (s : State)

/-- A row that a type can be given beside those it has. -/
def Fits (p : Property) : Prop :=
  ∀ q ∈ s.o.catalog.properties, q.typeId = p.typeId →
    Apart s.changes s.o.catalog.typeParent p q

def FitsAdd (session : Session) (gid : Int) (typeName prop dtype : String) : Prop :=
  ∀ tid, typeId s.o.catalog gid typeName = .ok tid →
    ∀ sub, sub = tid ∨ sub ∈ tables s.o.catalog tid → Unnamed s sub prop →
      Fits s ⟨sub, prop, dtype, columnName session prop, false, false⟩

/-- What a new type inherits, from whichever parent it comes. -/
def FitsCreate (graph : String) (kind : Kind) (parents : List String) (isAbstract : Bool) : Prop :=
  ∀ gid pids, graphId s.o.catalog graph = .ok gid →
    parents.mapM (parentId s.o.catalog gid kind) = .ok pids →
    (instanceTable kind isAbstract s.o.nextTypeId).isSome →
    ∀ p ∈ pids.flatMap (inheritedProperties s.o.catalog),
      ∀ q ∈ pids.flatMap (inheritedProperties s.o.catalog),
        physical p.columnName = physical q.columnName → p.name = q.name ∨
          ∃ pid ∈ pids, Renaming s.changes s.o.catalog.typeParent pid p.name q.name

/-- What the types under a new link inherit, beside what they have. -/
def FitsParent (ch : Change) : Prop :=
  ∀ c₁ c₂, insertParent ch.report.typeId s.o.catalog ch.report.parentId = .ok c₁ →
    relabelGraph c₁ ch.gid = .ok c₂ → ∀ sub ∈ tables c₂ ch.report.typeId,
      ∀ p ∈ inheritedProperties c₂ ch.report.parentId, Unnamed s sub p.name →
        ∀ q, (q ∈ s.o.catalog.properties ∧ q.typeId = sub ∨
            q ∈ copies sub (inheritedProperties c₂ ch.report.parentId) ∧ Unnamed s sub q.name) →
          Apart s.changes c₁.typeParent { p with typeId := sub } q

/-- The value of an attribute type that gets its table. -/
def FitsDefine (graph : String) (defs : List Definition) : Prop :=
  ∀ gid o, graphId s.o.catalog graph = .ok gid →
    runDefine s.o gid (defs.map (·.type)) Rest.none = .ok o →
    ∀ d ∈ defs, d.type.kind = .attribute → d.isAbstract = false → ∀ sqlType ∈ d.valueType,
      ∀ tid, typeId o.catalog gid d.type.name = .ok tid → storageTable o.catalog tid = none →
        ∀ q ∈ o.catalog.properties, q.typeId = tid →
          Apart s.changes o.catalog.typeParent ⟨tid, "val", sqlType, "val", true, false⟩ q

/-- The second name goes to types below the one the rename was planned for, where no
third name has the column. -/
def FitsRename (ch : Change) (old new : String) : Prop :=
  ∀ tid, typeOf s ch = .ok tid →
    ∀ p ∈ s.o.catalog.properties, p.typeId ∈ ogSubtypes s.o.catalog tid → p.name = old →
      (Below s.o.catalog.typeParent p.typeId ch.report.typeId ∨
          Renaming s.changes s.o.catalog.typeParent p.typeId old new) ∧
        ∀ q ∈ s.o.catalog.properties, q.typeId = p.typeId →
          physical p.columnName = physical q.columnName →
            q.name = old ∨ Renaming s.changes s.o.catalog.typeParent p.typeId new q.name

/-- A rename ends for every type that has both of its names. -/
def EndsAll (ch : Change) : Prop :=
  ∀ tid, typeOf s ch = .ok tid →
    ∀ p ∈ s.o.catalog.properties, ∀ q ∈ s.o.catalog.properties, p.typeId = q.typeId →
      physical p.columnName = physical q.columnName → Renames ch p.name q.name →
        Below s.o.catalog.typeParent p.typeId ch.report.typeId →
          p.typeId ∈ ogSubtypes s.o.catalog tid ∨
            Renaming (s.changes.filter fun ch' => ch'.id ≠ ch.id) s.o.catalog.typeParent p.typeId
              p.name q.name

/-- The links and changes that are left keep the two names of a pending rename so. -/
def KeepsRenames (gone : List Int) (links : Links) (changes : List Change) : Prop :=
  ∀ p ∈ s.o.catalog.properties, ∀ q ∈ s.o.catalog.properties, p.typeId = q.typeId →
    p.typeId ∉ gone → physical p.columnName = physical q.columnName → p.name ≠ q.name →
      Renaming s.changes s.o.catalog.typeParent p.typeId p.name q.name →
        Renaming changes links p.typeId p.name q.name

def withoutTypes (gone : List Int) : Links :=
  s.o.catalog.typeParent.filter fun l => l.1 ∉ gone ∧ l.2 ∉ gone

/-- No operation gives a type a name on a column that is in use under another, and
none takes a type with two names of a rename out of its reach. -/
def Clear (s : State) : Op → Prop
  | .createType graph _ kind parents isAbstract => FitsCreate s graph kind parents isAbstract
  | .addProperty session gid typeName prop dtype => FitsAdd s session gid typeName prop dtype
  | .define graph defs => FitsDefine s graph defs
  | .dropType graph name _ _ => ∀ gid tid, graphId s.o.catalog graph = .ok gid →
      typeId s.o.catalog gid name = .ok tid →
      KeepsRenames s (ogSubtypes s.o.catalog tid) (withoutTypes s (ogSubtypes s.o.catalog tid)) s.changes
  | .dropGraph graph => ∀ gid, graphId s.o.catalog graph = .ok gid →
      KeepsRenames s (graphTypes s.o.catalog gid) (withoutTypes s (graphTypes s.o.catalog gid))
        (s.changes.filter fun ch => ch.gid ≠ gid)
  | .expand session id => ∀ ch, s.change id = .ok ch →
      match ch.spec with
      | .addProperty type prop dtype => FitsAdd s session ch.gid type prop dtype
      | .renameProperty _ old new => FitsRename s ch old new
      | _ => True
  | .contract id => ∀ ch, s.change id = .ok ch →
      match ch.spec with
      | .renameProperty _ _ _ => EndsAll s ch
      | .addParent _ _ => FitsParent s ch
      | .removeParent _ _ => KeepsRenames s []
          (s.o.catalog.typeParent.filter fun l => l ≠ (ch.report.typeId, ch.report.parentId)) s.changes
      | _ => True
  | .abort id => ∀ ch, s.change id = .ok ch →
      match ch.spec with
      | .renameProperty _ _ _ => EndsAll s ch
      | _ => True
  | _ => True

end Conditions

section Pairs

variable {changes changes' : List Change} {links links' : Links} {tid : Int} {a b : String}
  {p q : Property} {ps ps' rows : List Property}

theorem Below.mono (h : Below links tid sup) (hsub : links ⊆ links') : Below links' tid sup :=
  Relation.ReflTransGen.mono (fun _ _ hl => hsub hl) _ _ h

theorem Renames.symm {ch : Change} (h : Renames ch a b) : Renames ch b a := by
  obtain ⟨hphase, type, hspec⟩ := h
  exact ⟨hphase, type, hspec.symm⟩

theorem Renaming.symm (h : Renaming changes links tid a b) : Renaming changes links tid b a := by
  obtain ⟨ch, hch, hren, hbelow⟩ := h
  exact ⟨ch, hch, hren.symm, hbelow⟩

theorem Renaming.mono (h : Renaming changes links tid a b) (hch : changes ⊆ changes')
    (hlinks : links ⊆ links') : Renaming changes' links' tid a b := by
  obtain ⟨ch, hmem, hren, hbelow⟩ := h
  exact ⟨ch, hch hmem, hren, hbelow.mono hlinks⟩

theorem Apart.symm (h : Apart changes links p q) (hid : p.typeId = q.typeId) :
    Apart changes links q p := by
  intro hcol
  rcases h hcol.symm with hname | hren
  · exact .inl hname.symm
  · exact .inr (hid ▸ hren.symm)

theorem Apart.mono (h : Apart changes links p q) (hch : changes ⊆ changes') (hlinks : links ⊆ links') :
    Apart changes' links' p q := fun hcol => (h hcol).imp_right fun hren => hren.mono hch hlinks

theorem AllApart.mono (h : AllApart changes links ps) (hch : changes ⊆ changes')
    (hlinks : links ⊆ links') : AllApart changes' links' ps :=
  fun p hp q hq hid => (h p hp q hq hid).mono hch hlinks

/-- Rows that were there, but for what a row says besides its column. -/
def SameColumns (ps ps' : List Property) : Prop :=
  ∀ p' ∈ ps', ∃ p ∈ ps, p.typeId = p'.typeId ∧ p.name = p'.name ∧ p.columnName = p'.columnName

theorem SameColumns.of_subset (h : ps' ⊆ ps) : SameColumns ps ps' :=
  fun p hp => ⟨p, h hp, rfl, rfl, rfl⟩

theorem SameColumns.update {cond : Property → Prop} [DecidablePred cond] {f : Property → Property}
    (hf : ∀ p, (f p).typeId = p.typeId ∧ (f p).name = p.name ∧ (f p).columnName = p.columnName) :
    SameColumns ps (KeyedRows.update cond f ps) := by
  intro p' hp'
  obtain ⟨p, hp, rfl⟩ := List.mem_map.mp hp'
  refine ⟨p, hp, ?_⟩
  split
  · obtain ⟨hid, hname, hcol⟩ := hf p
    exact ⟨hid.symm, hname.symm, hcol.symm⟩
  · exact ⟨rfl, rfl, rfl⟩

theorem AllApart.same (h : AllApart changes links ps) (hsame : SameColumns ps ps') :
    AllApart changes links ps' := by
  intro p' hp' q' hq' hid hcol
  obtain ⟨p, hp, hpid, hpname, hpcol⟩ := hsame p' hp'
  obtain ⟨q, hq, hqid, hqname, hqcol⟩ := hsame q' hq'
  rw [← hpid, ← hpname, ← hqname]
  exact h p hp q hq (by omega) (by rw [hpcol, hqcol, hcol])

/-- Rows inserted under names their types did not have. -/
theorem AllApart.insert (h : AllApart changes links ps)
    (hnew : ∀ p ∈ rows, (∀ q ∈ ps, ¬ (q.typeId = p.typeId ∧ q.name = p.name)) →
      ∀ q, q ∈ ps ∨ q ∈ rows ∧ (∀ q' ∈ ps, ¬ (q'.typeId = q.typeId ∧ q'.name = q.name)) →
        p.typeId = q.typeId → Apart changes links p q) :
    AllApart changes links (rows.foldl insertProperty ps) := by
  intro p hp q hq hid
  rcases mem_insertProperties hp with hp | ⟨hp, hpnew⟩
  · rcases mem_insertProperties hq with hq | ⟨hq, hqnew⟩
    · exact h p hp q hq hid
    · exact (hnew q hq hqnew p (.inl hp) hid.symm).symm hid.symm
  · exact hnew p hp hpnew q (mem_insertProperties hq) hid

end Pairs

section Saved

variable {s : State} {links : Links} {id : Nat} {phase : Phase}

theorem mem_save {ch : Change} (h : ch ∈ s.changes) (id : Nat) (phase : Phase) :
    (if ch.id = id then { ch with phase := phase } else ch) ∈ (s.save id phase).changes :=
  List.mem_map_of_mem h

theorem Renaming.save_other {tid : Int} {a b : String}
    (h : Renaming (s.changes.filter fun ch => ch.id ≠ id) links tid a b) (phase : Phase) :
    Renaming (s.save id phase).changes links tid a b := by
  obtain ⟨ch, hch, hren, hbelow⟩ := h
  obtain ⟨hch, hne⟩ := List.mem_filter.mp hch
  have hmem := mem_save hch id phase
  rw [if_neg (of_decide_eq_true hne)] at hmem
  exact ⟨ch, hmem, hren, hbelow⟩

/-- Under one of its phases with two names a change stays what it is. -/
theorem Renaming.save {tid : Int} {a b : String} (h : Renaming s.changes links tid a b)
    (hphase : phase ∈ twoNames) : Renaming (s.save id phase).changes links tid a b := by
  obtain ⟨ch, hch, hren, hbelow⟩ := h
  refine ⟨_, mem_save hch id phase, ?_, ?_⟩
  · split
    · exact ⟨hphase, hren.2⟩
    · exact hren
  · split <;> exact hbelow

end Saved

/-- What carries the columns through a run. -/
structure Inv (s : State) : Prop where
  types : ∀ t ∈ s.o.catalog.types, t.typeId < s.o.nextTypeId
  rows : ∀ p ∈ s.o.catalog.properties, p.typeId < s.o.nextTypeId
  ids : (s.changes.map (·.id)).Nodup
  nextIds : ∀ ch ∈ s.changes, ch.id < s.nextChange
  apart : AllApart s.changes s.o.catalog.typeParent s.o.catalog.properties

section Saving

variable {s s' : State} {id : Nat} {ch : Change} {phase : Phase}

theorem Inv.change_unique (h : Inv s) (hch : ch ∈ s.changes) {ch' : Change} (hch' : ch' ∈ s.changes)
    (hid : ch.id = ch'.id) : ch = ch' :=
  List.inj_on_of_nodup_map h.ids hch hch' hid

/-- The state of the changes after one of them reached a phase. -/
theorem Inv.saved_ids (h : Inv s) (id : Nat) (phase : Phase) :
    ((s.save id phase).changes.map (·.id)).Nodup ∧
      ∀ ch ∈ (s.save id phase).changes, ch.id < s.nextChange := by
  have hids : (s.save id phase).changes.map (·.id) = s.changes.map (·.id) := by
    simp only [State.save, List.map_map]
    refine List.map_congr_left fun ch _ => ?_
    simp only [Function.comp_apply]
    split <;> rfl
  refine ⟨hids ▸ h.ids, fun ch hch => ?_⟩
  have hmem : ch.id ∈ (s.save id phase).changes.map (·.id) := List.mem_map_of_mem hch
  rw [hids] at hmem
  obtain ⟨ch₀, hch₀, heq⟩ := List.mem_map.mp hmem
  exact heq ▸ h.nextIds ch₀ hch₀

theorem Inv.save_twoNames (h : Inv s) (id : Nat) (hphase : phase ∈ twoNames) :
    Inv (s.save id phase) where
  types := h.types
  rows := h.rows
  ids := (h.saved_ids id phase).1
  nextIds := (h.saved_ids id phase).2
  apart := fun p hp q hq hid hcol => (h.apart p hp q hq hid hcol).imp_right fun hren =>
    hren.save hphase

/-- A change that ends leaves no pair of rows that only it accounts for. -/
theorem Inv.save_end (h : Inv s) (hch : ch ∈ s.changes) (phase : Phase)
    (hend : ∀ p ∈ s.o.catalog.properties, ∀ q ∈ s.o.catalog.properties, p.typeId = q.typeId →
      physical p.columnName = physical q.columnName → Renames ch p.name q.name →
        Below s.o.catalog.typeParent p.typeId ch.report.typeId →
          Renaming (s.changes.filter fun ch' => ch'.id ≠ ch.id) s.o.catalog.typeParent p.typeId
            p.name q.name) :
    Inv (s.save ch.id phase) where
  types := h.types
  rows := h.rows
  ids := (h.saved_ids ch.id phase).1
  nextIds := (h.saved_ids ch.id phase).2
  apart := by
    intro p hp q hq hid hcol
    rcases h.apart p hp q hq hid hcol with hname | ⟨ch', hch', hren, hbelow⟩
    · exact .inl hname
    · by_cases heq : ch'.id = ch.id
      · obtain rfl := h.change_unique hch' hch heq
        exact .inr ((hend p hp q hq hid hcol hren hbelow).save_other phase)
      · refine .inr (Renaming.save_other ⟨ch', ?_, hren, hbelow⟩ phase)
        exact List.mem_filter.mpr ⟨hch', decide_eq_true heq⟩

/-- A change that is no rename ends without more ado. -/
theorem Inv.save_other (h : Inv s) (hch : ch ∈ s.changes)
    (hspec : ∀ type old new, ch.spec ≠ .renameProperty type old new) (phase : Phase) :
    Inv (s.save ch.id phase) := by
  refine h.save_end hch phase fun p _ q _ _ _ hren _ => ?_
  obtain ⟨-, type, hspec' | hspec'⟩ := hren
  · exact absurd hspec' (hspec _ _ _)
  · exact absurd hspec' (hspec _ _ _)

/-- The catalog of the properties and the changes are as they were. -/
theorem Inv.of_eq (h : Inv s) (ho : s'.o = s.o) (hchanges : s'.changes = s.changes)
    (hnext : s'.nextChange = s.nextChange) : Inv s' where
  types := ho ▸ h.types
  rows := ho ▸ h.rows
  ids := hchanges ▸ h.ids
  nextIds := by rw [hchanges, hnext]; exact h.nextIds
  apart := by rw [hchanges, ho]; exact h.apart

end Saving

section Additions

variable {s s' : State} {gid : Int}

theorem Inv.grow {o : Ontology} (h : Inv s) (hgrows : Grows s.o o) : Inv { s with o := o } where
  types := hgrows.fresh h.types
  rows := fun p hp => (h.rows p (hgrows.properties ▸ hp)).trans_le hgrows.nextTypeId
  ids := h.ids
  nextIds := h.nextIds
  apart := by
    change AllApart s.changes o.catalog.typeParent o.catalog.properties
    rw [hgrows.properties]
    exact h.apart.mono (List.Subset.refl _) hgrows.typeParent

theorem Inv.createType {graph name : String} {kind : Kind} {parents : List String} {isAbstract : Bool}
    (h : Inv s) (hguard : FitsCreate s graph kind parents isAbstract)
    (hop : SchemaEvolution.createType s graph name kind parents isAbstract = .ok s') : Inv s' := by
  simp only [SchemaEvolution.createType] at hop
  obtain ⟨gid, hgid, hop⟩ := bind_eq_ok.mp hop
  obtain ⟨pids, hpids, hop⟩ := bind_eq_ok.mp hop
  split at hop
  · next htable =>
    obtain ⟨o', hcreate, hop⟩ := bind_eq_ok.mp hop
    obtain rfl := pure_eq_ok.mp hop
    obtain ⟨pids', c₁, hpids', hrest, hrel, hnext⟩ := createType_eq_ok hcreate
    obtain rfl := Except.ok.inj (hpids.symm.trans hpids')
    obtain rfl := Except.ok.inj hrest
    have hcat := relabelGraph_eq hrel
    suffices hinv : Inv { s with o := o' } from
      hinv.of_eq enableTemporalTable_o enableTemporalTable_changes enableTemporalTable_nextChange
    refine ⟨?_, ?_, h.ids, h.nextIds, ?_⟩
    · change ∀ t ∈ o'.catalog.types, t.typeId < o'.nextTypeId
      rw [hcat, hnext]
      exact fresh_append h.types rfl
    · change ∀ p ∈ o'.catalog.properties, p.typeId < o'.nextTypeId
      rw [hcat, hnext]
      intro p hp
      rcases mem_insertProperties hp with hp | ⟨hp, -⟩
      · exact (h.rows p hp).trans (Int.lt_succ _)
      · obtain ⟨p₀, -, rfl⟩ := mem_copies.mp hp
        exact Int.lt_succ _
    · change AllApart s.changes o'.catalog.typeParent o'.catalog.properties
      rw [hcat]
      refine (h.apart.mono (List.Subset.refl _) (List.subset_append_left _ _)).insert ?_
      rintro p hp - q hq hid hcol
      obtain ⟨p₀, hp₀, rfl⟩ := mem_copies.mp hp
      rcases hq with hq | ⟨hq, -⟩
      · have hlt := h.rows q hq
        dsimp only at hid
        omega
      · obtain ⟨q₀, hq₀, rfl⟩ := mem_copies.mp hq
        refine (hguard gid pids hgid hpids htable p₀ hp₀ q₀ hq₀ hcol).imp_right ?_
        rintro ⟨pid, hpid, ch, hch, hren, hbelow⟩
        refine ⟨ch, hch, hren, (hbelow.mono (List.subset_append_left _ _)).tail ?_⟩
        exact List.mem_append_right _ (List.mem_map_of_mem hpid)
  · obtain ⟨o', hcreate, hop⟩ := bind_eq_ok.mp hop
    obtain rfl := pure_eq_ok.mp hop
    exact h.grow (.createType hcreate)

theorem Inv.addProperty {session : Session} {typeName prop dtype : String} (h : Inv s)
    (hguard : FitsAdd s session gid typeName prop dtype)
    (hop : SchemaEvolution.addProperty session s gid typeName prop dtype = .ok s') : Inv s' := by
  obtain ⟨tid, ht, -, rfl⟩ := addProperty_eq_ok hop
  have hrow : ∀ p ∈ (tid :: tables s.o.catalog tid).map fun sub =>
      (⟨sub, prop, dtype, columnName session prop, false, false⟩ : Property),
      ∃ sub, (sub = tid ∨ sub ∈ tables s.o.catalog tid) ∧
        p = ⟨sub, prop, dtype, columnName session prop, false, false⟩ := by
    intro p hp
    obtain ⟨sub, hsub, rfl⟩ := List.mem_map.mp hp
    exact ⟨sub, List.mem_cons.mp hsub, rfl⟩
  refine ⟨h.types, fun p hp => ?_, h.ids, h.nextIds, ?_⟩
  · rcases mem_insertProperties hp with hp | ⟨hp, -⟩
    · exact h.rows p hp
    · obtain ⟨sub, hsub, rfl⟩ := hrow p hp
      rcases hsub with rfl | hsub
      · obtain ⟨t, hmem, rfl⟩ := typeId_mem ht
        exact h.types t hmem
      · obtain ⟨t, hmem, rfl⟩ := storageTable_mem (mem_tables.mp hsub).2
        exact h.types t hmem
  · refine h.apart.insert fun p hp hpnew q hq hid => ?_
    obtain ⟨sub, hsub, rfl⟩ := hrow p hp
    rcases hq with hq | ⟨hq, -⟩
    · exact hguard tid ht sub hsub hpnew q hq hid.symm
    · obtain ⟨sub', -, rfl⟩ := hrow q hq
      exact fun _ => .inl rfl

/-- How far the storage of the types of a definition has come: the names mean what
they did, a type without a table had none, and the rows that are new are values. -/
structure Storing (gid : Int) (s : State) (o : Ontology) (m : State) : Prop where
  inv : Inv m
  changes : m.changes = s.changes
  links : m.o.catalog.typeParent = o.catalog.typeParent
  ids : ∀ name, typeId m.o.catalog gid name = typeId o.catalog gid name
  tables : ∀ tid, storageTable m.o.catalog tid = none → storageTable o.catalog tid = none
  rows : ∀ p ∈ m.o.catalog.properties, p ∈ o.catalog.properties ∨ p.name = "val"

theorem Storing.giveTable {o : Ontology} {m : State} (h : Storing gid s o m) (tid : Int)
    (table : StorageTable) : Storing gid s o (giveTable m tid table) where
  inv := by
    refine ⟨fun t ht => ?_, h.inv.rows, h.inv.ids, h.inv.nextIds, h.inv.apart⟩
    obtain ⟨t₀, ht₀, rfl⟩ := List.mem_map.mp ht
    have hlt := h.inv.types t₀ ht₀
    split <;> exact hlt
  changes := h.changes
  links := h.links
  ids := by
    intro name
    rw [← h.ids name]
    unfold typeId
    rw [tryTypeId_giveTable]
  tables := fun x hx => h.tables x (storageTable_giveTable_none hx)
  rows := h.rows

theorem Storing.ensureStorage {o : Ontology} {m m' : State} {d : Definition} (h : Storing gid s o m)
    (hguard : d.type.kind = .attribute → d.isAbstract = false → ∀ sqlType ∈ d.valueType,
      ∀ tid, typeId o.catalog gid d.type.name = .ok tid → storageTable o.catalog tid = none →
        ∀ q ∈ o.catalog.properties, q.typeId = tid →
          Apart s.changes o.catalog.typeParent ⟨tid, "val", sqlType, "val", true, false⟩ q)
    (hop : SchemaEvolution.ensureStorage gid m d = .ok m') : Storing gid s o m' := by
  simp only [SchemaEvolution.ensureStorage] at hop
  obtain ⟨tid, ht, hop⟩ := bind_eq_ok.mp hop
  split at hop
  · obtain ⟨-, -, hop⟩ := bind_eq_ok.mp hop
    obtain rfl := pure_eq_ok.mp hop
    exact h
  · next sqlType hkind hvalue =>
    split at hop
    · obtain rfl := pure_eq_ok.mp hop
      exact h
    · next hnew =>
      obtain ⟨hconcrete, hnone⟩ := not_or.mp hnew
      obtain rfl := pure_eq_ok.mp hop
      have hgiven := h.giveTable tid ⟨.attr, tid⟩
      obtain ⟨t, htmem, htid⟩ := typeId_mem ht
      have hrow : ∀ p ∈ insertProperty m.o.catalog.properties ⟨tid, "val", sqlType, "val", true, false⟩,
          p ∈ m.o.catalog.properties ∨ p = ⟨tid, "val", sqlType, "val", true, false⟩ :=
        fun p hp => (mem_insertProperty.mp hp).imp_right And.left
      refine ⟨⟨hgiven.inv.types, fun p hp => ?_, h.inv.ids, h.inv.nextIds, ?_⟩, h.changes, h.links,
        hgiven.ids, hgiven.tables, fun p hp => ?_⟩
      · rcases hrow p hp with hp | rfl
        · exact h.inv.rows p hp
        · exact htid ▸ h.inv.types t htmem
      · have happart : AllApart m.changes m.o.catalog.typeParent
            ([⟨tid, "val", sqlType, "val", true, false⟩].foldl insertProperty m.o.catalog.properties) := by
          refine h.inv.apart.insert fun p hp _ q hq hid => ?_
          obtain rfl := List.mem_singleton.mp hp
          rcases hq with hq | ⟨hq, -⟩
          · rcases h.rows q hq with hq | hname
            · rw [h.changes, h.links]
              refine hguard hkind (by simpa using hconcrete) sqlType hvalue tid (h.ids _ ▸ ht)
                (h.tables tid ?_) q hq hid.symm
              simpa using hnone
            · exact fun _ => .inl hname.symm
          · obtain rfl := List.mem_singleton.mp hq
            exact fun _ => .inl rfl
        exact happart
      · rcases hrow p hp with hp | rfl
        · exact h.rows p hp
        · exact .inr rfl
  · split at hop
    · obtain rfl := pure_eq_ok.mp hop
      exact h
    · obtain rfl := pure_eq_ok.mp hop
      exact h.giveTable tid _

theorem Inv.define {graph : String} {defs : List Definition} (h : Inv s)
    (hguard : FitsDefine s graph defs) (hop : SchemaEvolution.define s graph defs = .ok s') :
    Inv s' := by
  simp only [SchemaEvolution.define] at hop
  obtain ⟨gid, hgid, hop⟩ := bind_eq_ok.mp hop
  obtain ⟨o, hdefine, hop⟩ := bind_eq_ok.mp hop
  have hstart : Storing gid s o { s with o := o } :=
    ⟨h.grow (.runDefine hdefine), rfl, rfl, fun _ => rfl, fun _ => id, fun _ => .inl⟩
  have hfits := hguard gid o hgid hdefine
  clear hdefine hguard
  suffices hall : ∀ ds ⊆ defs, ∀ m, Storing gid s o m → ds.foldlM (ensureStorage gid) m = .ok s' →
      Storing gid s o s' from (hall defs (List.Subset.refl _) _ hstart hop).inv
  intro ds
  induction ds with
  | nil =>
      intro _ m hm hfold
      obtain rfl := pure_eq_ok.mp hfold
      exact hm
  | cons d ds ih =>
      intro hsub m hm hfold
      obtain ⟨hd, hsub⟩ := List.cons_subset.mp hsub
      obtain ⟨mid, hmid, hrest⟩ := foldlM_cons_eq_ok.mp hfold
      exact ih hsub mid (hm.ensureStorage (hfits d hd) hmid) hrest

end Additions

section Drops

variable {s s' : State} {gid : Int}

/-- The rows of the types that are left, under the links and changes that are left. -/
theorem Inv.keep {gone : List Int} {links : Links} {changes : List Change} (h : Inv s)
    (hkeeps : KeepsRenames s gone links changes) :
    AllApart changes links (s.o.catalog.properties.filter fun p => p.typeId ∉ gone) := by
  intro p hp q hq hid hcol
  obtain ⟨hp, hpgone⟩ := List.mem_filter.mp hp
  obtain ⟨hq, -⟩ := List.mem_filter.mp hq
  by_cases hname : p.name = q.name
  · exact .inl hname
  · refine .inr (hkeeps p hp q hq hid (of_decide_eq_true hpgone) hcol hname ?_)
    exact (h.apart p hp q hq hid hcol).resolve_left hname

theorem Inv.dropType {graph name : String} {cascade : Bool} {instances : List Int → Nat} (h : Inv s)
    (hguard : Clear s (.dropType graph name cascade instances))
    (hop : SchemaEvolution.dropType s graph name cascade instances = .ok s') : Inv s' := by
  simp only [SchemaEvolution.dropType] at hop
  obtain ⟨gid, hgid, hop⟩ := bind_eq_ok.mp hop
  obtain ⟨tid, ht, hop⟩ := bind_eq_ok.mp hop
  obtain ⟨o, hdrop, hop⟩ := bind_eq_ok.mp hop
  obtain rfl := pure_eq_ok.mp hop
  obtain ⟨tid', c₁, ht', hdel, hrel, hnext⟩ := dropType_eq_ok hdrop
  obtain rfl := Except.ok.inj (ht.symm.trans ht')
  obtain ⟨htypes, hlinks, hprops, -⟩ := deleteTypes_eq hdel
  have hcat := relabelGraph_eq hrel
  refine ⟨fun t hmem => ?_, fun p hp => ?_, h.ids, h.nextIds, ?_⟩
  · change t.typeId < o.nextTypeId
    have hmem : t ∈ o.catalog.types := hmem
    rw [hcat] at hmem
    rw [htypes] at hmem
    exact hnext ▸ h.types t (List.mem_filter.mp hmem).1
  · change p.typeId < o.nextTypeId
    have hp : p ∈ o.catalog.properties := hp
    rw [hcat] at hp
    rw [hprops] at hp
    exact hnext ▸ h.rows p (List.mem_filter.mp hp).1
  · change AllApart s.changes o.catalog.typeParent o.catalog.properties
    rw [hcat]
    rw [hprops, hlinks]
    exact h.keep (hguard gid tid hgid ht)

theorem Inv.dropGraph {graph : String} (h : Inv s) (hguard : Clear s (.dropGraph graph))
    (hop : SchemaEvolution.dropGraph s graph = .ok s') : Inv s' := by
  simp only [SchemaEvolution.dropGraph] at hop
  obtain ⟨gid, hgid, hop⟩ := bind_eq_ok.mp hop
  obtain ⟨-, -, hop⟩ := bind_eq_ok.mp hop
  obtain rfl := pure_eq_ok.mp hop
  refine ⟨fun t ht => h.types t (List.mem_filter.mp ht).1,
    fun p hp => h.rows p (List.mem_filter.mp hp).1,
    h.ids.sublist (List.filter_sublist.map _),
    fun ch hch => h.nextIds ch (List.mem_filter.mp hch).1, ?_⟩
  exact h.keep (hguard gid hgid)

end Drops

section Phases

variable {s s' s₁ : State} {ch : Change}

theorem Inv.same_rows (h : Inv s) {ps : List Property} (hsame : SameColumns s.o.catalog.properties ps) :
    Inv (s.withProperties ps) where
  types := h.types
  rows := fun p' hp' => by
    obtain ⟨p, hp, hid, -⟩ := hsame p' hp'
    exact hid ▸ h.rows p hp
  ids := h.ids
  nextIds := h.nextIds
  apart := h.apart.same hsame

theorem Inv.widen {tid : Int} {prop : String} (h : Inv s)
    (hop : SchemaEvolution.widenProperty s tid prop = .ok s') : Inv s' := by
  simp only [SchemaEvolution.widenProperty] at hop
  obtain ⟨p, -, hop⟩ := bind_eq_ok.mp hop
  obtain ⟨-, -, hop⟩ := bind_eq_ok.mp hop
  obtain ⟨-, -, hop⟩ := bind_eq_ok.mp hop
  obtain rfl := pure_eq_ok.mp hop
  have hrows : Inv (s.withProperties (KeyedRows.update
      (fun p : Property => p.typeId ∈ ogSubtypes s.o.catalog tid ∧ p.name = prop)
      (fun p => { p with dataType := "text" }) s.o.catalog.properties)) :=
    h.same_rows (.update fun _ => ⟨rfl, rfl, rfl⟩)
  exact hrows.of_eq rfl rfl rfl

theorem Inv.enableTemporal {graph name : String} (h : Inv s)
    (hop : SchemaEvolution.enableTemporal s graph name = .ok s') : Inv s' := by
  simp only [SchemaEvolution.enableTemporal] at hop
  obtain ⟨gid, -, hop⟩ := bind_eq_ok.mp hop
  obtain ⟨tid, -, hop⟩ := bind_eq_ok.mp hop
  obtain ⟨kind, -, hop⟩ := bind_eq_ok.mp hop
  obtain ⟨-, -, hop⟩ := bind_eq_ok.mp hop
  obtain rfl := pure_eq_ok.mp hop
  obtain ⟨ho, hchanges, hnext⟩ := foldl_frame
    (fun _ _ => ⟨enableTable_o, enableTable_changes, enableTable_nextChange⟩)
    (s.withCatalog { s.o.catalog with
      temporal := if tid ∈ s.o.catalog.temporal then s.o.catalog.temporal else tid :: s.o.catalog.temporal })
    (tables s.o.catalog tid)
  refine Inv.of_eq ?_ ho hchanges hnext
  exact ⟨h.types, h.rows, h.ids, h.nextIds, h.apart⟩

theorem Inv.plan {graph : String} {spec : Spec} (h : Inv s)
    (hop : SchemaEvolution.plan s graph spec = .ok s') : Inv s' := by
  simp only [SchemaEvolution.plan] at hop
  obtain ⟨gid, -, hop⟩ := bind_eq_ok.mp hop
  obtain ⟨report, -, hop⟩ := bind_eq_ok.mp hop
  obtain rfl := pure_eq_ok.mp hop
  refine ⟨h.types, h.rows, ?_, fun ch hch => ?_, h.apart.mono (List.subset_append_left _ _)
    (List.Subset.refl _)⟩
  · rw [List.map_append, List.map_singleton]
    refine h.ids.append (List.nodup_singleton _) ?_
    rw [List.disjoint_singleton]
    intro hmem
    obtain ⟨ch, hch, hid⟩ := List.mem_map.mp hmem
    exact (h.nextIds ch hch).ne hid
  · rcases List.mem_append.mp hch with hch | hch
    · exact (h.nextIds ch hch).trans (Nat.lt_succ_self _)
    · obtain rfl := List.mem_singleton.mp hch
      exact Nat.lt_succ_self _

/-- The second names, with the change that accounts for them. -/
theorem Inv.expand_rename {type old new : String} (h : Inv s) (hch : ch ∈ s.changes)
    (hspec : ch.spec = .renameProperty type old new) {tid : Int} (ht : typeOf s ch = .ok tid)
    (hguard : FitsRename s ch old new) :
    Inv ((s.withProperties (s.o.catalog.properties ++
      secondNames s.o.catalog (ogSubtypes s.o.catalog tid) old new)).save ch.id .expanded) := by
  have hsecond : ∀ p' ∈ secondNames s.o.catalog (ogSubtypes s.o.catalog tid) old new,
      ∃ p ∈ s.o.catalog.properties, p.typeId ∈ ogSubtypes s.o.catalog tid ∧ p.name = old ∧
        p' = { p with name := new } := by
    intro p' hp'
    obtain ⟨p, hp, rfl⟩ := List.mem_map.mp hp'
    obtain ⟨hp, hcond⟩ := List.mem_filter.mp hp
    obtain ⟨hsub, hname⟩ := of_decide_eq_true hcond
    exact ⟨p, hp, hsub, hname, rfl⟩
  have hexpanded : Phase.expanded ∈ twoNames := by decide
  -- a new row and one that was there
  have hnew : ∀ p ∈ s.o.catalog.properties, p.typeId ∈ ogSubtypes s.o.catalog tid → p.name = old →
      ∀ q ∈ s.o.catalog.properties, q.typeId = p.typeId →
        Apart (s.save ch.id .expanded).changes s.o.catalog.typeParent { p with name := new } q := by
    intro p hp hsub hname q hq hid hcol
    obtain ⟨hbelow, hothers⟩ := hguard tid ht p hp hsub hname
    rcases hothers q hq hid hcol with hq | hren
    · right
      rcases hbelow with hbelow | hren
      · have hmem := mem_save hch ch.id .expanded
        rw [if_pos rfl] at hmem
        exact ⟨_, hmem, ⟨hexpanded, type, .inr (hq ▸ hspec)⟩, hbelow⟩
      · exact (hq ▸ hren).symm.save hexpanded
    · exact .inr (hren.save hexpanded)
  refine ⟨h.types, fun p hp => ?_, (h.saved_ids ch.id .expanded).1, (h.saved_ids ch.id .expanded).2, ?_⟩
  · rcases List.mem_append.mp hp with hp | hp
    · exact h.rows p hp
    · obtain ⟨p₀, hp₀, -, -, rfl⟩ := hsecond p hp
      exact h.rows p₀ hp₀
  · intro p hp q hq hid
    rcases List.mem_append.mp hp with hp | hp
    · rcases List.mem_append.mp hq with hq | hq
      · exact fun hcol => (h.apart p hp q hq hid hcol).imp_right fun hren => hren.save hexpanded
      · obtain ⟨q₀, hq₀, hsub, hname, rfl⟩ := hsecond q hq
        exact (hnew q₀ hq₀ hsub hname p hp hid).symm hid.symm
    · obtain ⟨p₀, hp₀, hsub, hname, rfl⟩ := hsecond p hp
      rcases List.mem_append.mp hq with hq | hq
      · exact hnew p₀ hp₀ hsub hname q hq hid.symm
      · obtain ⟨q₀, -, -, -, rfl⟩ := hsecond q hq
        exact fun _ => .inl rfl

theorem Inv.expand {session : Session} {id : Nat} (h : Inv s) (hch : s.change id = .ok ch)
    (hguard : Clear s (.expand session id)) (hop : SchemaEvolution.expand session s ch = .ok s₁) :
    Inv (s₁.save id .expanded) := by
  have hclear := hguard ch hch
  obtain ⟨hmem, rfl⟩ := change_eq_ok hch
  have hexpanded : Phase.expanded ∈ twoNames := by decide
  cases hspec : ch.spec with
  | addProperty type prop dtype =>
      simp only [SchemaEvolution.expand, hspec] at hop hclear
      exact (h.addProperty hclear hop).save_twoNames ch.id hexpanded
  | renameProperty type old new =>
      simp only [SchemaEvolution.expand, hspec] at hop hclear
      obtain ⟨tid, ht, hop⟩ := bind_eq_ok.mp hop
      obtain ⟨-, -, hop⟩ := bind_eq_ok.mp hop
      obtain rfl := pure_eq_ok.mp hop
      exact h.expand_rename hmem hspec ht hclear
  | alterPropertyType type prop toSql =>
      simp only [SchemaEvolution.expand, hspec] at hop
      obtain ⟨tid, -, hop⟩ := bind_eq_ok.mp hop
      obtain ⟨-, -, hop⟩ := bind_eq_ok.mp hop
      obtain rfl := pure_eq_ok.mp hop
      refine Inv.save_twoNames (h.of_eq ?_ ?_ ?_) ch.id hexpanded <;> rfl
  | setRequired type prop =>
      simp only [SchemaEvolution.expand, hspec] at hop
      obtain ⟨tid, -, hop⟩ := bind_eq_ok.mp hop
      obtain ⟨-, -, hop⟩ := bind_eq_ok.mp hop
      obtain rfl := pure_eq_ok.mp hop
      refine Inv.save_twoNames (h.of_eq ?_ ?_ ?_) ch.id hexpanded <;> rfl
  | dropProperty _ _ | addUnique _ _ | renameType _ _ | addParent _ _ | removeParent _ _ =>
      simp only [SchemaEvolution.expand, hspec] at hop
      obtain rfl := pure_eq_ok.mp hop
      exact h.save_twoNames ch.id hexpanded

/-- A rename that ends deletes one of its names, where it can see both. -/
theorem Inv.end_rename {type old new name : String} (h : Inv s) (hch : ch ∈ s.changes)
    (hspec : ch.spec = .renameProperty type old new) (hname : name = old ∨ name = new) {tid : Int}
    (ht : typeOf s ch = .ok tid) (hguard : EndsAll s ch) (phase : Phase) :
    Inv ((s.withProperties (deleteName s.o.catalog (ogSubtypes s.o.catalog tid) name)).save
      ch.id phase) := by
  refine (h.same_rows (.of_subset deleteName_subset)).save_end hch phase ?_
  intro p hp q hq hid hcol hren hbelow
  obtain ⟨hp, hpkept⟩ := List.mem_filter.mp hp
  obtain ⟨hq, hqkept⟩ := List.mem_filter.mp hq
  have hpkept := of_decide_eq_true hpkept
  have hqkept := of_decide_eq_true hqkept
  refine (hguard tid ht p hp q hq hid hcol hren hbelow).resolve_left fun hsub => ?_
  have hnames : p.name = name ∨ q.name = name := by
    obtain ⟨-, type', hpq | hqp⟩ := hren
    · obtain ⟨-, rfl, rfl⟩ := Spec.renameProperty.inj (hspec.symm.trans hpq)
      exact hname.imp Eq.symm Eq.symm
    · obtain ⟨-, rfl, rfl⟩ := Spec.renameProperty.inj (hspec.symm.trans hqp)
      exact hname.symm.imp Eq.symm Eq.symm
  rcases hnames with hname | hname
  · exact hpkept ⟨hsub, hname⟩
  · exact hqkept ⟨hid ▸ hsub, hname⟩

end Phases

section Contraction

variable {s s' s₁ : State} {ch : Change} {id : Nat}

/-- The catalog with a new parent, and what the types below it get. -/
theorem Inv.contract_addParent {type parent : String} (h : Inv s)
    (hspec : ch.spec = .addParent type parent) (hguard : FitsParent s ch)
    (hop : SchemaEvolution.contract s ch = .ok s₁) : Inv s₁ ∧ s₁.changes = s.changes := by
  simp only [SchemaEvolution.contract, hspec] at hop
  obtain ⟨-, -, hop⟩ := bind_eq_ok.mp hop
  obtain ⟨c₁, hins, hop⟩ := bind_eq_ok.mp hop
  obtain ⟨c₂, hrel, hop⟩ := bind_eq_ok.mp hop
  obtain rfl := pure_eq_ok.mp hop
  have hfits := hguard c₁ c₂ hins hrel
  obtain rfl := insertParent_eq_ok hins
  have hcat := relabelGraph_eq hrel
  have hprops : c₂.properties = s.o.catalog.properties := by rw [hcat]
  have hlinks : c₂.typeParent = s.o.catalog.typeParent ++ [(ch.report.typeId, ch.report.parentId)] := by
    rw [hcat]
  have htypes : c₂.types = s.o.catalog.types := by rw [hcat]
  have hcopied : ∀ p ∈ (tables c₂ ch.report.typeId).flatMap fun sub =>
      copies sub (inheritedProperties c₂ ch.report.parentId),
      ∃ sub ∈ tables c₂ ch.report.typeId, p.typeId = sub ∧
        ∃ p₀ ∈ inheritedProperties c₂ ch.report.parentId, { p₀ with typeId := sub } = p := by
    intro p hp
    obtain ⟨sub, hsub, hp⟩ := List.mem_flatMap.mp hp
    obtain ⟨p₀, hp₀, rfl⟩ := mem_copies.mp hp
    exact ⟨sub, hsub, rfl, p₀, hp₀, rfl⟩
  obtain ⟨ho, hchanges, hnext⟩ := foldl_frame
    (f := inheritTable (inheritedProperties c₂ ch.report.parentId))
    (fun _ _ => ⟨enableTemporalTable_o, enableTemporalTable_changes, enableTemporalTable_nextChange⟩)
    (s.withCatalog { c₂ with
      properties := ((tables c₂ ch.report.typeId).flatMap fun sub =>
        copies sub (inheritedProperties c₂ ch.report.parentId)).foldl insertProperty c₂.properties })
    (tables c₂ ch.report.typeId)
  refine ⟨Inv.of_eq ?_ ho hchanges hnext, hchanges⟩
  refine ⟨fun t ht => ?_, fun p hp => ?_, h.ids, h.nextIds, ?_⟩
  · have ht : t ∈ c₂.types := ht
    exact h.types t (htypes ▸ ht)
  · rcases mem_insertProperties hp with hp | ⟨hp, -⟩
    · exact h.rows p (hprops ▸ hp)
    · obtain ⟨sub, hsub, rfl, -⟩ := hcopied p hp
      obtain ⟨t, ht, hid⟩ := storageTable_mem (mem_tables.mp hsub).2
      exact hid ▸ h.types t (htypes ▸ ht)
  · change AllApart s.changes c₂.typeParent _
    rw [hprops, hlinks]
    refine (h.apart.mono (List.Subset.refl _) (List.subset_append_left _ _)).insert ?_
    intro p hp hpnew q hq hid
    obtain ⟨sub, hsub, hpid, p₀, hp₀, rfl⟩ := hcopied p hp
    refine hfits sub hsub p₀ hp₀ hpnew q (hq.imp (fun hq => ⟨hq, hid.symm⟩) fun hq => ?_)
    obtain ⟨hq, hqnew⟩ := hq
    obtain ⟨sub', -, hqid, q₀, hq₀, rfl⟩ := hcopied q hq
    obtain rfl : sub = sub' := hid
    exact ⟨mem_copies.mpr ⟨q₀, hq₀, rfl⟩, hqnew⟩

theorem Inv.contract_removeParent {type parent : String} (h : Inv s)
    (hspec : ch.spec = .removeParent type parent)
    (hguard : KeepsRenames s []
      (s.o.catalog.typeParent.filter fun l => l ≠ (ch.report.typeId, ch.report.parentId)) s.changes)
    (hop : SchemaEvolution.contract s ch = .ok s₁) : Inv s₁ ∧ s₁.changes = s.changes := by
  simp only [SchemaEvolution.contract, hspec] at hop
  obtain ⟨c₁, hrel, hop⟩ := bind_eq_ok.mp hop
  obtain rfl := pure_eq_ok.mp hop
  have hcat := relabelGraph_eq hrel
  refine ⟨⟨fun t ht => ?_, fun p hp => ?_, h.ids, h.nextIds, ?_⟩, rfl⟩
  · have ht : t ∈ c₁.types := ht
    rw [hcat] at ht
    exact h.types t ht
  · have hp : p ∈ c₁.properties := hp
    rw [hcat] at hp
    exact h.rows p hp
  · change AllApart s.changes c₁.typeParent c₁.properties
    rw [hcat]
    have hkept := h.keep hguard
    simpa using hkept

/-- The updates of the rows on a column, whatever they set. -/
theorem Inv.update_rows (h : Inv s) {subs : List Int} {column : String} {f : Property → Property}
    (hf : ∀ p, (f p).typeId = p.typeId ∧ (f p).name = p.name ∧ (f p).columnName = p.columnName) :
    Inv (s.withProperties (updateColumnRows s.o.catalog subs column f)) :=
  h.same_rows (.update hf)

theorem Inv.contract_other (h : Inv s) (hspec : ∀ type old new, ch.spec ≠ .renameProperty type old new)
    (hparent : ∀ type parent, ch.spec ≠ .addParent type parent ∧ ch.spec ≠ .removeParent type parent)
    (hop : SchemaEvolution.contract s ch = .ok s₁) : Inv s₁ ∧ s₁.changes = s.changes := by
  cases hkind : ch.spec with
  | addProperty type prop dtype =>
      simp only [SchemaEvolution.contract, hkind] at hop
      obtain rfl := pure_eq_ok.mp hop
      exact ⟨h, rfl⟩
  | dropProperty type prop =>
      simp only [SchemaEvolution.contract, hkind] at hop
      obtain ⟨tid, -, hop⟩ := bind_eq_ok.mp hop
      obtain ⟨-, -, hop⟩ := bind_eq_ok.mp hop
      obtain rfl := pure_eq_ok.mp hop
      have hrows : Inv (s.withProperties (deleteName s.o.catalog (ogSubtypes s.o.catalog tid) prop)) :=
        h.same_rows (.of_subset deleteName_subset)
      exact ⟨hrows.of_eq rfl rfl rfl, rfl⟩
  | alterPropertyType type prop toSql =>
      simp only [SchemaEvolution.contract, hkind, contractAlter] at hop
      obtain ⟨tid, -, hop⟩ := bind_eq_ok.mp hop
      obtain ⟨-, -, hop⟩ := bind_eq_ok.mp hop
      obtain ⟨-, -, hop⟩ := bind_eq_ok.mp hop
      obtain rfl := pure_eq_ok.mp hop
      have hrows : Inv (s.withProperties (updateColumnRows s.o.catalog (ogSubtypes s.o.catalog tid)
          ch.report.column fun p => { p with dataType := ch.report.toSql })) :=
        h.update_rows fun _ => ⟨rfl, rfl, rfl⟩
      exact ⟨hrows.of_eq rfl rfl rfl, rfl⟩
  | setRequired type prop =>
      simp only [SchemaEvolution.contract, hkind] at hop
      obtain ⟨tid, -, hop⟩ := bind_eq_ok.mp hop
      obtain ⟨-, -, hop⟩ := bind_eq_ok.mp hop
      obtain rfl := pure_eq_ok.mp hop
      have hrows : Inv (s.withProperties (updateColumnRows s.o.catalog (ogSubtypes s.o.catalog tid)
          ch.report.column fun p => { p with required := true })) :=
        h.update_rows fun _ => ⟨rfl, rfl, rfl⟩
      exact ⟨hrows.of_eq rfl rfl rfl, rfl⟩
  | addUnique type prop =>
      simp only [SchemaEvolution.contract, hkind] at hop
      obtain ⟨tid, -, hop⟩ := bind_eq_ok.mp hop
      obtain ⟨-, -, hop⟩ := bind_eq_ok.mp hop
      obtain rfl := pure_eq_ok.mp hop
      exact ⟨h.update_rows fun _ => ⟨rfl, rfl, rfl⟩, rfl⟩
  | renameType type new =>
      simp only [SchemaEvolution.contract, hkind] at hop
      obtain ⟨tid, -, hop⟩ := bind_eq_ok.mp hop
      obtain ⟨-, -, hop⟩ := bind_eq_ok.mp hop
      obtain rfl := pure_eq_ok.mp hop
      refine ⟨⟨fun t ht => ?_, h.rows, h.ids, h.nextIds, h.apart⟩, rfl⟩
      obtain ⟨t₀, ht₀, rfl⟩ := List.mem_map.mp ht
      have hlt := h.types t₀ ht₀
      split <;> exact hlt
  | renameProperty type old new => exact absurd hkind (hspec type old new)
  | addParent type parent => exact absurd hkind (hparent type parent).1
  | removeParent type parent => exact absurd hkind (hparent type parent).2

theorem Inv.contract (h : Inv s) (hch : s.change id = .ok ch) (hguard : Clear s (.contract id))
    (hop : SchemaEvolution.contract s ch = .ok s₁) : Inv (s₁.save id .contracted) := by
  have hclear := hguard ch hch
  obtain ⟨hmem, rfl⟩ := change_eq_ok hch
  by_cases hrename : ∃ type old new, ch.spec = .renameProperty type old new
  · obtain ⟨type, old, new, hspec⟩ := hrename
    simp only [SchemaEvolution.contract, hspec] at hop hclear
    obtain ⟨tid, ht, hop⟩ := bind_eq_ok.mp hop
    obtain rfl := pure_eq_ok.mp hop
    exact h.end_rename hmem hspec (.inl rfl) ht hclear .contracted
  · push Not at hrename
    have hinv : Inv s₁ ∧ s₁.changes = s.changes := by
      cases hspec : ch.spec with
      | addParent type parent =>
          simp only [hspec] at hclear
          exact h.contract_addParent hspec hclear hop
      | removeParent type parent =>
          simp only [hspec] at hclear
          exact h.contract_removeParent hspec hclear hop
      | _ => exact h.contract_other hrename (by simp [hspec]) hop
    exact hinv.1.save_other (hinv.2 ▸ hmem) hrename .contracted

theorem Inv.abort (h : Inv s) (hch : s.change id = .ok ch) (hguard : Clear s (.abort id))
    (hop : SchemaEvolution.abort s ch = .ok s₁) : Inv (s₁.save id .aborted) := by
  have hclear := hguard ch hch
  obtain ⟨hmem, rfl⟩ := change_eq_ok hch
  by_cases hrename : ∃ type old new, ch.spec = .renameProperty type old new
  · obtain ⟨type, old, new, hspec⟩ := hrename
    simp only [SchemaEvolution.abort, hspec] at hop hclear
    obtain ⟨tid, ht, hop⟩ := bind_eq_ok.mp hop
    obtain rfl := pure_eq_ok.mp hop
    exact h.end_rename hmem hspec (.inr rfl) ht hclear .aborted
  · push Not at hrename
    have hinv : Inv s₁ ∧ s₁.changes = s.changes := by
      cases hspec : ch.spec with
      | renameProperty type old new => exact absurd hspec (hrename type old new)
      | alterPropertyType type prop toSql =>
          simp only [SchemaEvolution.abort, hspec] at hop
          obtain ⟨tid, -, hop⟩ := bind_eq_ok.mp hop
          obtain ⟨-, -, hop⟩ := bind_eq_ok.mp hop
          obtain rfl := pure_eq_ok.mp hop
          exact ⟨h.of_eq rfl rfl rfl, rfl⟩
      | setRequired type prop =>
          simp only [SchemaEvolution.abort, hspec] at hop
          obtain ⟨tid, -, hop⟩ := bind_eq_ok.mp hop
          obtain rfl := pure_eq_ok.mp hop
          exact ⟨h.of_eq rfl rfl rfl, rfl⟩
      | _ =>
          simp only [SchemaEvolution.abort, hspec] at hop
          obtain rfl := pure_eq_ok.mp hop
          exact ⟨h, rfl⟩
    exact hinv.1.save_other (hinv.2 ▸ hmem) hrename .aborted

end Contraction

section Runs

variable {s s' s₀ : State}

theorem Inv.step {op : Op} (h : Inv s) (hguard : Clear s op) (hop : step s op = .ok s') : Inv s' := by
  cases op with
  | createType graph name kind parents isAbstract => exact h.createType hguard hop
  | dropType graph name cascade instances => exact h.dropType hguard hop
  | dropGraph graph => exact h.dropGraph hguard hop
  | define graph defs => exact h.define hguard hop
  | loadRdf graph triples =>
      simp only [SchemaEvolution.step, SchemaEvolution.loadRdf] at hop
      obtain ⟨gid, -, hop⟩ := bind_eq_ok.mp hop
      obtain ⟨o, hload, hop⟩ := bind_eq_ok.mp hop
      obtain rfl := pure_eq_ok.mp hop
      exact (h.grow (.loadRdf hload)).of_eq rfl rfl rfl
  | addProperty session gid typeName prop dtype => exact h.addProperty hguard hop
  | widen tid prop => exact h.widen hop
  | enableTemporal graph name => exact h.enableTemporal hop
  | plan graph spec => exact h.plan hop
  | expand session id =>
      obtain ⟨ch, s₁, hch, -, hexpand, rfl⟩ := step_expand hop
      exact h.expand hch hguard hexpand
  | migrate id =>
      obtain ⟨ch, -, -, rfl⟩ := step_migrate hop
      exact h.save_twoNames id (by decide)
  | validate id violations =>
      obtain ⟨ch, -, -, ⟨-, rfl⟩ | rfl⟩ := step_validate hop
      · exact h.save_twoNames id (by decide)
      · exact h
  | contract id =>
      obtain ⟨ch, s₁, hch, -, hcontract, rfl⟩ := step_contract hop
      exact h.contract hch hguard hcontract
  | abort id =>
      obtain ⟨ch, hch, ⟨hplanned, rfl⟩ | ⟨-, s₁, habort, rfl⟩⟩ := step_abort hop
      · obtain ⟨hmem, rfl⟩ := change_eq_ok hch
        refine h.save_end hmem .aborted fun p _ q _ _ _ hren _ => ?_
        exact absurd (hplanned ▸ hren.1) (by decide)
      · exact h.abort hch hguard habort

/-- A database before its first type. -/
structure Start (s : State) : Prop where
  types : s.o.catalog.types = []
  properties : s.o.catalog.properties = []
  changes : s.changes = []

theorem Start.inv (h : Start s) : Inv s := by
  refine ⟨?_, ?_, ?_, ?_, ?_⟩
  · simp [h.types]
  · simp [h.properties]
  · simp [h.changes]
  · simp [h.changes]
  · simp [AllApart, h.properties]

theorem col_setCol {r : TypedRow} {v : Val} {a b : String} (h : a ≠ b) :
    (r.setCol a v).col b = r.col b := by
  unfold TypedRow.setCol TypedRow.col
  rw [List.find?_cons_of_neg (by simpa using h), List.find?_filter]
  congr 3
  funext c
  by_cases hc : c.1 = b
  · simp [hc, h.symm]
  · simp [hc]

theorem separate_of_clear {es : List Op} (h : Start s₀)
    (run : Run step (fun _ s op => Clear s op) s₀ es s) : Separate s := by
  have hinv : Inv s := run.invariant (I := fun _ s => Inv s) h.inv
    fun _ _ _ _ hinv hguard hop => hinv.step hguard hop
  intro p hp q hq hid hname hnot
  have hcol : physical p.columnName ≠ physical q.columnName := fun hcol =>
    (hinv.apart p hp q hq hid hcol).elim hname hnot
  exact ⟨hcol, fun r v => col_setCol hcol⟩

def kb : State where
  o := ⟨{ TypeCatalog.empty with graphs := [(1, "kb")] }, 1, []⟩
  columns := fun _ _ => none
  histories := []
  triggers := []
  checks := []
  changes := []
  nextChange := 1

def ascii : Session :=
  ⟨"app", true, fun _ _ _ => none, fun _ v => .ok v, fun _ => false, String.singleton⟩

/-- The state after a type was given properties of these names. -/
def book (names : List (String × String)) : State where
  o := ⟨{ TypeCatalog.empty with
    graphs := [(1, "kb")]
    types := [⟨1, 1, "Book", .entity, some (nodeTable 1)⟩]
    labels := [⟨1, 0, 1, 1, 1025, 0⟩]
    properties := names.map fun n => ⟨1, n.1, n.2, columnName ascii n.1, false, false⟩ }, 2, []⟩
  columns := names.foldl (fun cols n =>
    syncHistory [] 1 (addColumn (current 1) (columnName ascii n.1) n.2 cols)) (createTable 1 kb.columns)
  histories := []
  triggers := []
  checks := []
  changes := []
  nextChange := 1

theorem separate_of_clear_two : Separate (book [("a b", "int8"), ("c", "text")]) := by
  have hcreate : Clear kb (.createType "kb" "Book" .entity [] false) := by
    intro gid pids _ hpids _ p hp
    obtain rfl := pure_eq_ok.mp hpids
    cases hp
  have hfirst : Clear (book []) (.addProperty ascii 1 "Book" "a b" "int8") := by
    intro tid _ sub _ _ q hq
    cases hq
  have hsecond : Clear (book [("a b", "int8")]) (.addProperty ascii 1 "Book" "c" "text") := by
    intro tid _ sub _ _ q hq _ hcol
    obtain rfl := List.mem_singleton.mp hq
    have hcols : physical (columnName ascii "c") ≠ physical (columnName ascii "a b") := by decide
    exact absurd hcol hcols
  have run : Run step (fun _ s op => Clear s op) kb _ (book [("a b", "int8"), ("c", "text")]) :=
    ((Run.single hcreate rfl).snoc hfirst rfl).snoc hsecond rfl
  exact separate_of_clear ⟨rfl, rfl, rfl⟩ run

/-- Two names that fold to one column. -/
theorem not_separate :
    ¬ ∀ (s₀ s : State) (es : List Op), Start s₀ → Run step (fun _ _ _ => True) s₀ es s →
      Separate s := by
  intro h
  have run : Run step (fun _ _ _ => True) kb
      [.createType "kb" "Book" .entity [] false, .addProperty ascii 1 "Book" "a b" "int8",
        .addProperty ascii 1 "Book" "a-b" "text"]
      (book [("a b", "int8"), ("a-b", "text")]) :=
    ((Run.single trivial rfl).snoc trivial rfl).snoc trivial rfl
  have hseparate := h kb _ _ ⟨rfl, rfl, rfl⟩ run
  obtain ⟨hcol, -⟩ := hseparate ⟨1, "a b", "int8", columnName ascii "a b", false, false⟩ (by simp [book])
    ⟨1, "a-b", "text", columnName ascii "a-b", false, false⟩ (by simp [book]) rfl (by decide) (by
      rintro ⟨ch, hch, -⟩
      cases hch)
  exact hcol (by decide)

end Runs

end OntologicalDb.PropertyColumns
