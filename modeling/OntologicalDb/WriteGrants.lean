import Mathlib
import OntologicalDb.EvolutionFrames
import OntologicalDb.GuardedRuns
import OntologicalDb.NearestNames
import OntologicalDb.PropertyPlans
import OntologicalDb.TypedTables

/-!
Write access by type and property: the grants on record, and the privileges on the storage
tables that are derived from them.
-/

namespace OntologicalDb.WriteGrants

open OntologicalDb.EvolutionFrames (mem_ogSupertypes)
open OntologicalDb.ExceptRules
open OntologicalDb.GuardedRuns
open OntologicalDb.Labeling
open OntologicalDb.PropertyPlans (declare_eq)
open OntologicalDb.TypeCatalog
open OntologicalDb.TypedTables

section State

inductive Op
  | create
  | set
  | delete
deriving DecidableEq

def Op.text : Op → String
  | .create => "create"
  | .set => "set"
  | .delete => "delete"

/-- A row of `og_catalog.write_grant`. -/
structure Grant where
  role : String
  typeId : Int
  op : Op
  props : Option (List String)
deriving DecidableEq

/-- What a role holds of a privilege on a table: the table, or some of its columns. -/
inductive Held
  | table
  | columns (cols : List String)
deriving DecidableEq

structure Database where
  catalog : Catalog
  roles : List String
  /-- The roles that can read and use the registries. -/
  writers : List String
  writeGrant : List Grant
  acl : StorageTable → String → Op → Option Held

def columnOf (c : Catalog) (tid : Int) (prop : String) : Option String :=
  (c.properties.find? fun p => p.typeId = tid ∧ p.name = prop).map (·.columnName)

/-- The columns a new row needs. -/
def rowColumns (table : StorageTable) : List String :=
  if table.shape = .edge then ["id", "src", "dst"] else ["id"]

def grantsOn (db : Database) (role : String) (sub : Int) : List Grant :=
  db.writeGrant.filter fun g => g.role = role ∧ g.typeId ∈ ogSupertypes db.catalog sub

/-- The columns that some of these grants of an operation give. -/
def columnsOf (c : Catalog) (sub : Int) (table : StorageTable) (onOp : List Grant) (op : Op) : List String :=
  let cols := onOp.flatMap fun g => (g.props.getD []).filterMap (columnOf c sub)
  if op = .create then cols ++ rowColumns table else cols

/-- What the grants that reach a table give of one privilege. -/
def held (c : Catalog) (sub : Int) (table : StorageTable) (grants : List Grant) (op : Op) : Option Held :=
  let onOp := grants.filter fun g => g.op = op
  if onOp.any fun g => g.props = none then some .table
  else if onOp = [] ∨ op = .delete then none
  else
    let cols := ((columnsOf c sub table onOp op).insertionSort (· ≤ ·)).dedup
    if cols = [] then none else some (.columns cols)

def reapplyForRole (db : Database) (role : String) (sub : Int) : Database :=
  match storageTable db.catalog sub with
  | none => db
  | some table =>
      let privileges := held db.catalog sub table (grantsOn db role sub)
      { db with acl := Function.update db.acl table (Function.update (db.acl table) role privileges) }

def ensureWriterBase (db : Database) (role : String) : Database :=
  if role ∈ db.writers then db else { db with writers := db.writers ++ [role] }

/-- `ON CONFLICT (role, type_id, op) DO UPDATE`. -/
def record (grants : List Grant) (new : Grant) : List Grant :=
  let same (g : Grant) : Bool := g.role = new.role ∧ g.typeId = new.typeId ∧ g.op = new.op
  if grants.any same then grants.map fun g => if same g then new else g else grants ++ [new]

def parseOp (op : String) : Except String Op :=
  match [Op.create, Op.set, Op.delete].find? fun o => o.text = op with
  | some o => .ok o
  | none => .error s!"unknown write operation '{op}' (create | set | delete)"

def ogGrantWrite (db : Database) (role graph typeName : String) (ops : List String)
    (props : Option (List String)) : Except String Database := do
  let gid ← graphId db.catalog graph
  let tid ← NearestNames.typeId db.catalog gid typeName
  if role ∉ db.roles then
    .error s!"role '{role}' does not exist — create it first, then call og_grant_write"
  else do
    let ops ← ops.mapM parseOp
    match (props.getD []).find? isReservedKey with
    | some bad => .error s!"'{bad}' is system-managed and cannot be granted"
    | none =>
        let db := ensureWriterBase db role
        let db := { db with
          writeGrant := ops.foldl (fun grants op => record grants ⟨role, tid, op, props⟩) db.writeGrant }
        return (ogSubtypes db.catalog tid).foldl (fun db sub => reapplyForRole db role sub) db

def ogRevokeWrite (db : Database) (role graph typeName : String) (ops : Option (List String)) :
    Except String Database := do
  let gid ← graphId db.catalog graph
  let tid ← NearestNames.typeId db.catalog gid typeName
  let ops := ops.getD ["create", "set", "delete"]
  let db := { db with
    writeGrant := db.writeGrant.filter fun g => ¬ (g.role = role ∧ g.typeId = tid ∧ g.op.text ∈ ops) }
  return (ogSubtypes db.catalog tid).foldl (fun db sub => reapplyForRole db role sub) db

/-- Replay every recorded grant onto one type's table. -/
def replayWriteGrants (db : Database) (sub : Int) : Database :=
  let roles := ((db.writeGrant.filter fun g => g.typeId ∈ ogSupertypes db.catalog sub).map (·.role)).dedup
  roles.foldl (fun db role => reapplyForRole db role sub) db

/-- The catalog after a property is declared on some types, as far as they have tables. -/
def declareOn (prop dtype col : String) (subs : List Int) (c : Catalog) : Catalog :=
  subs.foldl (fun c sub => if (storageTable c sub).isSome then declare sub prop dtype col c else c) c

/-- `og_add_property`, as far as columns and privileges are concerned. -/
def ogAddProperty (s : Session) (db : Database) (graph typeName prop dtype : String) :
    Except String Database := do
  let gid ← graphId db.catalog graph
  let tid ← NearestNames.typeId db.catalog gid typeName
  if db.catalog.properties.any fun p => p.typeId = tid ∧ p.name = prop then
    .error "property insert failed: duplicate key value"
  else
    let col := columnName s prop
    let subs := ogSubtypes db.catalog tid
    let c := declareOn prop dtype col subs (declare tid prop dtype col db.catalog)
    return subs.foldl replayWriteGrants { db with catalog := c }

inductive Call
  | grant (role graph typeName : String) (ops : List String) (props : Option (List String))
  | revoke (role graph typeName : String) (ops : Option (List String))
  | addProperty (graph typeName prop dtype : String)

def step (s : Session) (db : Database) : Call → Except String Database
  | .grant role graph typeName ops props => ogGrantWrite db role graph typeName ops props
  | .revoke role graph typeName ops => ogRevokeWrite db role graph typeName ops
  | .addProperty graph typeName prop dtype => ogAddProperty s db graph typeName prop dtype

end State

section Purpose

/-- The type a call is about. -/
def target (c : Catalog) (graph typeName : String) : Option Int :=
  match graphId c graph with
  | .ok gid => tryTypeId c gid typeName
  | .error _ => none

/-- What stands of the grants after a call: the last word on a role, a type and an operation. -/
def standing (c : Catalog) (was : String → Int → Op → Option (Option (List String))) :
    Call → String → Int → Op → Option (Option (List String))
  | .grant role graph typeName ops props, role', tid, op =>
      if role' = role ∧ target c graph typeName = some tid ∧ op.text ∈ ops then some props
      else was role' tid op
  | .revoke role graph typeName ops, role', tid, op =>
      if role' = role ∧ target c graph typeName = some tid ∧
        op.text ∈ ops.getD ["create", "set", "delete"] then none
      else was role' tid op
  | .addProperty .., role', tid, op => was role' tid op

def stands (c : Catalog) (calls : List Call) : String → Int → Op → Option (Option (List String)) :=
  calls.foldl (standing c) fun _ _ _ => none

/-- A grant of these properties covers a column of a type's table. -/
def Covers (c : Catalog) (sub : Int) (table : StorageTable) (op : Op) (props : Option (List String))
    (col : String) : Prop :=
  match props with
  | none => True
  | some ps => op ≠ .delete ∧
      ((∃ p ∈ ps, columnOf c sub p = some col) ∨ op = .create ∧ col ∈ rowColumns table)

/-- PostgreSQL lets the role do this with the column. -/
def May (db : Database) (table : StorageTable) (role : String) (op : Op) (col : String) : Prop :=
  match db.acl table role op with
  | none => False
  | some .table => True
  | some (.columns cols) => col ∈ cols

end Purpose

section Records

variable {new g : Grant} {grants : List Grant} {os : List Op} {ops : List String}
  {props : Option (List String)} {role : String} {tid : Int} {op : Op} {p : Grant → Bool}

theorem parseOp_eq_ok {t : String} : parseOp t = .ok op ↔ op.text = t := by
  constructor
  · intro h
    unfold parseOp at h
    cases hf : [Op.create, Op.set, Op.delete].find? fun o => o.text = t with
    | none =>
        rw [hf] at h
        cases h
    | some o =>
        rw [hf] at h
        cases h
        have htext := List.find?_some hf
        exact of_decide_eq_true htext
  · rintro rfl
    cases op <;> rfl

theorem mem_of_mapM_parseOp (h : ops.mapM parseOp = .ok os) : op ∈ os ↔ op.text ∈ ops := by
  induction ops generalizing os with
  | nil =>
      cases h
      simp
  | cons t ops ih =>
      rw [List.mapM_cons, bind_eq_ok] at h
      obtain ⟨o, ho, h⟩ := h
      obtain ⟨rest, hrest, h⟩ := bind_eq_ok.mp h
      cases h
      have htext := parseOp_eq_ok.mp ho
      have hsame : op = o ↔ op.text = t := by
        rw [← htext]
        cases op <;> cases o <;> decide
      rw [List.mem_cons, List.mem_cons, ih hrest, hsame]

theorem mem_record : g ∈ record grants new ↔
    g = new ∨ g ∈ grants ∧ ¬ (g.role = new.role ∧ g.typeId = new.typeId ∧ g.op = new.op) := by
  unfold record
  simp only
  split_ifs with hany
  · obtain ⟨was, hwas, hsame⟩ := List.any_eq_true.mp hany
    rw [List.mem_map]
    constructor
    · rintro ⟨g', hg', rfl⟩
      split_ifs with hsame'
      · exact .inl rfl
      · exact .inr ⟨hg', by simpa using hsame'⟩
    · rintro (rfl | ⟨hg, hother⟩)
      · exact ⟨was, hwas, if_pos hsame⟩
      · exact ⟨g, hg, if_neg (by simpa using hother)⟩
  · have hother := List.any_eq_false.mp (Bool.not_eq_true _ ▸ hany)
    rw [List.mem_append, List.mem_singleton, or_comm]
    refine or_congr_right ⟨fun hg => ⟨hg, ?_⟩, And.left⟩
    have hne := hother g hg
    simpa using hne

theorem mem_foldl_record : g ∈ os.foldl (fun grants op => record grants ⟨role, tid, op, props⟩) grants ↔
    g.role = role ∧ g.typeId = tid ∧ g.op ∈ os ∧ g.props = props ∨
      g ∈ grants ∧ ¬ (g.role = role ∧ g.typeId = tid ∧ g.op ∈ os) := by
  induction os generalizing grants with
  | nil => simp
  | cons op os ih =>
      rw [List.foldl_cons, ih, mem_record, List.mem_cons]
      have hnew : g = ⟨role, tid, op, props⟩ ↔
          g.role = role ∧ g.typeId = tid ∧ g.op = op ∧ g.props = props := by
        cases g
        rw [Grant.mk.injEq]
      rw [hnew]
      tauto

/-- What a row replaces and the row itself are of the same role and type. -/
theorem filter_record (hp : ∀ g : Grant, g.role = new.role → g.typeId = new.typeId → p g = false) :
    (record grants new).filter p = grants.filter p := by
  have hnew := hp new rfl rfl
  unfold record
  simp only
  split_ifs with hany
  · clear hany
    induction grants with
    | nil => rfl
    | cons g grants ih =>
        rw [List.map_cons]
        split_ifs with hsame
        · have hg := hp g (of_decide_eq_true hsame).1 (of_decide_eq_true hsame).2.1
          rw [List.filter_cons_of_neg (by simp [hnew]), List.filter_cons_of_neg (by simp [hg]), ih]
        · rw [List.filter_cons, List.filter_cons, ih]
  · rw [List.filter_append, List.filter_cons_of_neg (by simp [hnew]), List.filter_nil, List.append_nil]

theorem filter_foldl_record
    (hp : ∀ g : Grant, g.role = role → g.typeId = tid → p g = false) :
    (os.foldl (fun grants op => record grants ⟨role, tid, op, props⟩) grants).filter p =
      grants.filter p := by
  induction os generalizing grants with
  | nil => rfl
  | cons op os ih => rw [List.foldl_cons, ih, filter_record hp]

end Records

section Privileges

variable {c c' : Catalog} {db db' : Database} {table : StorageTable} {sub sub' tid : Int}
  {role role' col : String} {op : Op} {grants : List Grant}

/-- The privileges of a role on the table of a type are those its grants give. -/
def Settled (db : Database) (role : String) (sub : Int) : Prop :=
  ∀ table, storageTable db.catalog sub = some table →
    db.acl table role = held db.catalog sub table (grantsOn db role sub)

/-- Each type has a table of its own, or none. -/
def OwnTables (c : Catalog) : Prop := ∀ sub table, storageTable c sub = some table → table.typeId = sub

/-- A loop over the tables of some types changes privileges only. -/
def SameRecords (db db' : Database) : Prop :=
  db'.catalog = db.catalog ∧ db'.writeGrant = db.writeGrant

theorem SameRecords.trans {db'' : Database} (h : SameRecords db db') (h' : SameRecords db' db'') :
    SameRecords db db'' :=
  ⟨h'.1.trans h.1, h'.2.trans h.2⟩

theorem sameRecords_reapply : SameRecords db (reapplyForRole db role sub) := by
  unfold reapplyForRole
  split <;> exact ⟨rfl, rfl⟩

theorem SameRecords.grantsOn (h : SameRecords db db') : grantsOn db' role sub = grantsOn db role sub := by
  unfold WriteGrants.grantsOn
  rw [h.1, h.2]

theorem settled_reapply : Settled (reapplyForRole db role sub) role sub := by
  intro table htable
  have hsame : SameRecords db (reapplyForRole db role sub) := sameRecords_reapply
  rw [hsame.1] at htable
  rw [hsame.grantsOn, hsame.1]
  unfold reapplyForRole
  rw [htable]
  simp

/-- Only the table of that type changes, and only for that role. -/
theorem acl_reapply_of_ne (hown : OwnTables db.catalog) (hstored : storageTable db.catalog sub = some table)
    (h : role = role' → sub ≠ sub') : (reapplyForRole db role' sub').acl table role = db.acl table role := by
  unfold reapplyForRole
  split
  · rfl
  · rename_i table' hstored'
    rcases eq_or_ne table table' with rfl | hne
    · have hsub : sub = sub' := (hown sub table hstored).symm.trans (hown sub' table hstored')
      have hrole : role ≠ role' := fun heq => h heq hsub
      simp only [Function.update_self, Function.update_of_ne hrole]
    · simp only [Function.update_of_ne hne]

theorem Settled.reapply (hown : OwnTables db.catalog) (h : Settled db role sub) :
    Settled (reapplyForRole db role' sub') role sub := by
  by_cases hboth : role = role' ∧ sub = sub'
  · obtain ⟨rfl, rfl⟩ := hboth
    exact settled_reapply
  · intro table htable
    have hsame : SameRecords db (reapplyForRole db role' sub') := sameRecords_reapply
    rw [hsame.1] at htable
    rw [hsame.grantsOn, hsame.1, ← h table htable]
    exact acl_reapply_of_ne hown htable fun hrole hsub => hboth ⟨hrole, hsub⟩

/-- A program that keeps the records and what is settled. -/
structure Settles (f : Database → Database) : Prop where
  records : ∀ db, SameRecords db (f db)
  settled : ∀ db role sub, OwnTables db.catalog → Settled db role sub → Settled (f db) role sub

theorem settles_reapply : Settles fun db => reapplyForRole db role sub :=
  ⟨fun _ => sameRecords_reapply, fun _ _ _ hown h => h.reapply hown⟩

theorem Settles.foldl {α : Type} {f : Database → α → Database} {xs : List α}
    (h : ∀ x, Settles fun db => f db x) : Settles fun db => xs.foldl f db := by
  induction xs with
  | nil => exact ⟨fun _ => ⟨rfl, rfl⟩, fun _ _ _ _ => id⟩
  | cons x xs ih =>
      refine ⟨fun db => ((h x).records db).trans (ih.records (f db x)), fun db role sub hown hs => ?_⟩
      have hown' : OwnTables (f db x).catalog := ((h x).records db).1.symm ▸ hown
      exact ih.settled (f db x) role sub hown' ((h x).settled db role sub hown hs)

/-- What one step of a loop settles is settled after the loop. -/
theorem settled_foldl {α : Type} {f : Database → α → Database} {xs : List α} {x : α}
    (h : ∀ x, Settles fun db => f db x) (hown : OwnTables db.catalog) (hx : x ∈ xs)
    (hsettled : ∀ db', SameRecords db db' → Settled (f db' x) role sub) :
    Settled (xs.foldl f db) role sub := by
  induction xs generalizing db with
  | nil => cases hx
  | cons y xs ih =>
      have hfirst := (h y).records db
      have hown' : OwnTables (f db y).catalog := hfirst.1.symm ▸ hown
      rcases List.mem_cons.mp hx with rfl | hx
      · exact (Settles.foldl h).settled (f db x) role sub hown' (hsettled db ⟨rfl, rfl⟩)
      · exact ih hown' hx fun db' hsame => hsettled db' (hfirst.trans hsame)

theorem settles_replay : Settles fun db => replayWriteGrants db sub := by
  refine ⟨fun db => ?_, fun db role' sub' hown h => ?_⟩
  · exact (Settles.foldl fun role => @settles_reapply sub role).records db
  · exact (Settles.foldl fun role => @settles_reapply sub role).settled db role' sub' hown h

theorem sameRecords_reapplyAll {subs : List Int} :
    SameRecords db (subs.foldl (fun db sub => reapplyForRole db role sub) db) :=
  (Settles.foldl fun _ => settles_reapply).records db

theorem sameRecords_replayAll {subs : List Int} : SameRecords db (subs.foldl replayWriteGrants db) :=
  (Settles.foldl fun _ => settles_replay).records db

/-- A role without grants that reach a type has nothing of its table. -/
theorem held_nil : held c sub table [] = fun _ => none := by
  funext op
  simp [held]

theorem grantsOn_eq_nil
    (h : role ∉ ((db.writeGrant.filter fun g => g.typeId ∈ ogSupertypes db.catalog sub).map (·.role)).dedup) :
    grantsOn db role sub = [] := by
  refine List.filter_eq_nil_iff.mpr fun g hg hp => h ?_
  obtain ⟨rfl, habove⟩ := of_decide_eq_true hp
  exact List.mem_dedup.mpr (List.mem_map.mpr ⟨g, List.mem_filter.mpr ⟨hg, decide_eq_true habove⟩, rfl⟩)

theorem held_congr (h : columnOf c' sub = columnOf c sub) : held c' sub = held c sub := by
  funext table grants op
  unfold held columnsOf
  rw [h]

theorem Settled.keep (h : Settled db role sub) (hacl : db'.acl = db.acl)
    (htable : storageTable db'.catalog sub = storageTable db.catalog sub)
    (hgrants : WriteGrants.grantsOn db' role sub = WriteGrants.grantsOn db role sub)
    (hcol : WriteGrants.grantsOn db role sub = [] ∨ columnOf db'.catalog sub = columnOf db.catalog sub) :
    Settled db' role sub := by
  intro table hstored
  rw [htable] at hstored
  rw [hacl, h table hstored, hgrants]
  rcases hcol with hnil | hcol
  · rw [hnil, held_nil, held_nil]
  · rw [held_congr hcol]

/-- The records of a role on one type change, and the tables below it are done again. -/
theorem settled_changed (hown : OwnTables db.catalog) (h : ∀ role sub, Settled db role sub)
    (hcatalog : db'.catalog = db.catalog) (hacl : db'.acl = db.acl)
    (hgrants : ∀ p : Grant → Bool, (∀ g : Grant, g.role = role → g.typeId = tid → p g = false) →
      db'.writeGrant.filter p = db.writeGrant.filter p) (role' : String) (sub : Int) :
    Settled ((ogSubtypes db.catalog tid).foldl (fun db sub => reapplyForRole db role sub) db') role' sub := by
  have hown' : OwnTables db'.catalog := hcatalog ▸ hown
  by_cases htouched : role' = role ∧ sub ∈ ogSubtypes db.catalog tid
  · obtain ⟨rfl, hsub⟩ := htouched
    exact settled_foldl (fun _ => settles_reapply) hown' hsub fun _ _ => settled_reapply
  · refine (Settles.foldl fun sub => @settles_reapply sub role).settled db' role' sub hown' ?_
    refine (h role' sub).keep hacl (by rw [hcatalog]) ?_ (.inr (by rw [hcatalog]))
    unfold WriteGrants.grantsOn
    rw [hcatalog]
    refine hgrants _ fun g hrole htid => decide_eq_false ?_
    rintro ⟨hrole', habove⟩
    refine htouched ⟨hrole'.symm.trans hrole, ?_⟩
    rw [mem_ogSubtypes]
    exact mem_ogSupertypes.mp (htid ▸ habove)

theorem columnOf_declare {prop dtype new : String} (h : sub ≠ tid) :
    columnOf (declare tid prop dtype new c) sub = columnOf c sub := by
  funext p
  unfold columnOf declare
  split_ifs
  · rfl
  · have hnone : [(⟨tid, prop, dtype, new, false, false⟩ : Property)].find?
        (fun q => q.typeId = sub ∧ q.name = p) = none := by
      rw [List.find?_singleton, if_neg]
      simp [h.symm]
    rw [List.find?_append, hnone, Option.or_none]

end Privileges

section Runs

variable {s : Session} {db₀ db db' : Database} {calls : List Call} {role graph typeName prop dtype : String}
  {ops : List String} {props : Option (List String)} {ps : List Property} {c : Catalog}

theorem ogSupertypes_properties {tid : Int} :
    ogSupertypes { c with properties := ps } tid = ogSupertypes c tid := rfl

theorem target_properties : target { c with properties := ps } graph typeName = target c graph typeName := rfl

theorem typeId_eq_ok {gid tid : Int} :
    NearestNames.typeId c gid typeName = .ok tid ↔ tryTypeId c gid typeName = some tid := by
  unfold NearestNames.typeId
  cases tryTypeId c gid typeName with
  | none =>
      dsimp only
      split_ifs <;> simp
  | some tid' => rw [Except.ok.injEq, Option.some.injEq]

theorem target_eq_some {gid tid : Int} (hgid : graphId c graph = .ok gid)
    (htid : NearestNames.typeId c gid typeName = .ok tid) : target c graph typeName = some tid := by
  unfold target
  rw [hgid]
  exact typeId_eq_ok.mp htid

theorem ogGrantWrite_eq_ok (h : ogGrantWrite db role graph typeName ops props = .ok db') :
    ∃ tid os writers, target db.catalog graph typeName = some tid ∧ ops.mapM parseOp = .ok os ∧
      db' = (ogSubtypes db.catalog tid).foldl (fun db sub => reapplyForRole db role sub) { db with
        writers := writers
        writeGrant := os.foldl (fun grants op => record grants ⟨role, tid, op, props⟩) db.writeGrant } := by
  obtain ⟨gid, hgid, h⟩ := bind_eq_ok.mp h
  obtain ⟨tid, htid, h⟩ := bind_eq_ok.mp h
  split at h
  · cases h
  · obtain ⟨os, hos, h⟩ := bind_eq_ok.mp h
    split at h
    · cases h
    · obtain rfl := pure_eq_ok.mp h
      have hbase : ∃ writers, ensureWriterBase db role = { db with writers := writers } := by
        unfold ensureWriterBase
        split_ifs
        · exact ⟨db.writers, rfl⟩
        · exact ⟨_, rfl⟩
      obtain ⟨writers, hbase⟩ := hbase
      refine ⟨tid, os, writers, target_eq_some hgid htid, hos, ?_⟩
      rw [hbase]

theorem ogRevokeWrite_eq_ok {ops : Option (List String)} (h : ogRevokeWrite db role graph typeName ops = .ok db') :
    ∃ tid, target db.catalog graph typeName = some tid ∧
      db' = (ogSubtypes db.catalog tid).foldl (fun db sub => reapplyForRole db role sub)
        { db with writeGrant := db.writeGrant.filter fun g =>
            ¬ (g.role = role ∧ g.typeId = tid ∧ g.op.text ∈ ops.getD ["create", "set", "delete"]) } := by
  obtain ⟨gid, hgid, h⟩ := bind_eq_ok.mp h
  obtain ⟨tid, htid, h⟩ := bind_eq_ok.mp h
  exact ⟨tid, target_eq_some hgid htid, (pure_eq_ok.mp h).symm⟩

theorem declareOn_eq {col : String} {subs : List Int} :
    ∃ ps, declareOn prop dtype col subs c = { c with properties := ps } := by
  induction subs generalizing c with
  | nil => exact ⟨c.properties, rfl⟩
  | cons t subs ih =>
      unfold declareOn
      rw [List.foldl_cons]
      split_ifs
      · obtain ⟨ps, hps⟩ := @declare_eq prop dtype col c t
        obtain ⟨ps', hps'⟩ := @ih (declare t prop dtype col c)
        exact ⟨ps', hps'.trans (by rw [hps])⟩
      · exact ih

theorem columnOf_declareOn {col : String} {subs : List Int} {sub : Int} (h : sub ∉ subs) :
    columnOf (declareOn prop dtype col subs c) sub = columnOf c sub := by
  induction subs generalizing c with
  | nil => rfl
  | cons t subs ih =>
      rw [List.mem_cons, not_or] at h
      unfold declareOn
      rw [List.foldl_cons]
      split_ifs
      · exact (ih h.2).trans (columnOf_declare h.1)
      · exact ih h.2

theorem ogAddProperty_eq_ok (h : ogAddProperty s db graph typeName prop dtype = .ok db') :
    ∃ tid c, c = declareOn prop dtype (columnName s prop) (ogSubtypes db.catalog tid)
        (declare tid prop dtype (columnName s prop) db.catalog) ∧
      db' = (ogSubtypes db.catalog tid).foldl replayWriteGrants { db with catalog := c } := by
  obtain ⟨gid, hgid, h⟩ := bind_eq_ok.mp h
  obtain ⟨tid, htid, h⟩ := bind_eq_ok.mp h
  split at h
  · cases h
  · exact ⟨tid, _, rfl, (pure_eq_ok.mp h).symm⟩

/-- A type without a label is not above or below anything. -/
theorem grantsOn_unlabelled {tid : Int} (h : tid ∉ ogSubtypes db.catalog tid) : grantsOn db role tid = [] := by
  refine List.filter_eq_nil_iff.mpr fun g hg hp => h ?_
  obtain ⟨-, habove⟩ := of_decide_eq_true hp
  have hlabels := mem_ogSupertypes.mp habove
  simp only [ogIsSubtype, List.any_eq_true, decide_eq_true_eq] at hlabels
  obtain ⟨d, hd, -, -, htid, -⟩ := hlabels
  rw [mem_ogSubtypes]
  simp only [ogIsSubtype, List.any_eq_true, decide_eq_true_eq]
  exact ⟨d, hd, d, hd, htid, htid, rfl, le_rfl, le_rfl⟩

theorem settled_declared {tid : Int} {col : String} {subs : List Int} (hown : OwnTables db.catalog)
    (hsubs : subs = ogSubtypes db.catalog tid) (h : ∀ role sub, Settled db role sub)
    (hc : c = declareOn prop dtype col subs (declare tid prop dtype col db.catalog))
    (hps : c = { db.catalog with properties := ps }) (role : String) (sub : Int) :
    Settled (subs.foldl replayWriteGrants { db with catalog := c }) role sub := by
  have hown' : OwnTables c := hps ▸ hown
  have htable : storageTable c sub = storageTable db.catalog sub := by
    rw [hps]
    rfl
  have hgrants : grantsOn { db with catalog := c } role sub = grantsOn db role sub := by
    unfold grantsOn
    rw [hps, ogSupertypes_properties]
  have hkept : grantsOn db role sub = [] ∨ columnOf c sub = columnOf db.catalog sub →
      Settled (subs.foldl replayWriteGrants { db with catalog := c }) role sub := by
    intro hcol
    refine (Settles.foldl fun sub => @settles_replay sub).settled _ role sub hown' ?_
    exact (h role sub).keep rfl htable hgrants hcol
  by_cases hsub : sub ∈ subs
  · by_cases hrole : grantsOn db role sub = []
    · exact hkept (.inl hrole)
    · refine settled_foldl (fun _ => settles_replay) hown' hsub fun db'' hsame => ?_
      have hmem : role ∈ ((db''.writeGrant.filter
          fun g => g.typeId ∈ ogSupertypes db''.catalog sub).map (·.role)).dedup := by
        by_contra hnot
        rw [← hgrants, ← hsame.grantsOn] at hrole
        exact hrole (grantsOn_eq_nil hnot)
      exact settled_foldl (fun _ => settles_reapply) (hsame.1.symm ▸ hown') hmem
        fun _ _ => settled_reapply
  · refine hkept ?_
    rcases eq_or_ne sub tid with rfl | hne
    · exact .inl (grantsOn_unlabelled (hsubs ▸ hsub))
    · refine .inr ?_
      rw [hc, columnOf_declareOn hsub, columnOf_declare hne]

/-- What holds after every run of calls: the grants on record are those that stand, and the
privileges are those they give. -/
structure Exact (c : Catalog) (calls : List Call) (db : Database) : Prop where
  catalog : ∃ ps, db.catalog = { c with properties := ps }
  recorded : ∀ g, g ∈ db.writeGrant ↔ stands c calls g.role g.typeId g.op = some g.props
  settled : ∀ role sub, Settled db role sub

theorem stands_snoc {call : Call} : stands c (calls ++ [call]) = standing c (stands c calls) call := by
  rw [stands, List.foldl_append]
  rfl

theorem Exact.grant (hown : OwnTables c) (h : Exact c calls db)
    (hstep : ogGrantWrite db role graph typeName ops props = .ok db') :
    Exact c (calls ++ [Call.grant role graph typeName ops props]) db' := by
  obtain ⟨tid, os, writers, htarget, hos, rfl⟩ := ogGrantWrite_eq_ok hstep
  obtain ⟨ps, hcatalog⟩ := h.catalog
  have hown' : OwnTables db.catalog := hcatalog ▸ hown
  rw [hcatalog, target_properties] at htarget
  refine ⟨⟨ps, sameRecords_reapplyAll.1.trans hcatalog⟩, fun g => ?_,
    settled_changed hown' h.settled rfl rfl fun p hp => filter_foldl_record hp⟩
  rw [sameRecords_reapplyAll.2, mem_foldl_record, mem_of_mapM_parseOp hos, h.recorded, stands_snoc, standing, htarget]
  simp only [Option.some.injEq, eq_comm (a := tid)]
  split_ifs with hnamed
  · rw [Option.some.injEq]
    constructor
    · rintro (⟨-, -, -, hprops⟩ | ⟨-, hnot⟩)
      · exact hprops.symm
      · exact absurd hnamed hnot
    · exact fun hprops => .inl ⟨hnamed.1, hnamed.2.1, hnamed.2.2, hprops.symm⟩
  · constructor
    · rintro (⟨hrole, htid, hop, -⟩ | ⟨hstood, -⟩)
      · exact absurd ⟨hrole, htid, hop⟩ hnamed
      · exact hstood
    · exact fun hstood => .inr ⟨hstood, hnamed⟩

theorem Exact.revoke {ops : Option (List String)} (hown : OwnTables c) (h : Exact c calls db)
    (hstep : ogRevokeWrite db role graph typeName ops = .ok db') :
    Exact c (calls ++ [Call.revoke role graph typeName ops]) db' := by
  obtain ⟨tid, htarget, rfl⟩ := ogRevokeWrite_eq_ok hstep
  obtain ⟨ps, hcatalog⟩ := h.catalog
  have hown' : OwnTables db.catalog := hcatalog ▸ hown
  rw [hcatalog, target_properties] at htarget
  refine ⟨⟨ps, sameRecords_reapplyAll.1.trans hcatalog⟩, fun g => ?_,
    settled_changed hown' h.settled rfl rfl fun p hp => ?_⟩
  · rw [sameRecords_reapplyAll.2, List.mem_filter, h.recorded, decide_eq_true_eq, stands_snoc, standing, htarget]
    simp only [Option.some.injEq, eq_comm (a := tid)]
    split_ifs with hnamed
    · simp only [iff_false]
      exact fun hkept => hkept.2 hnamed
    · exact and_iff_left hnamed
  · rw [List.filter_filter]
    refine List.filter_congr fun g _ => ?_
    cases hg : p g with
    | false => rfl
    | true =>
        refine decide_eq_true ?_
        rintro ⟨hrole, htid, -⟩
        rw [hp g hrole htid] at hg
        cases hg

theorem Exact.addProperty (hown : OwnTables c) (h : Exact c calls db)
    (hstep : ogAddProperty s db graph typeName prop dtype = .ok db') :
    Exact c (calls ++ [Call.addProperty graph typeName prop dtype]) db' := by
  obtain ⟨tid, c', hc', rfl⟩ := ogAddProperty_eq_ok hstep
  obtain ⟨ps, hcatalog⟩ := h.catalog
  have hown' : OwnTables db.catalog := hcatalog ▸ hown
  obtain ⟨ps', hps'⟩ := @declare_eq prop dtype (columnName s prop) db.catalog tid
  obtain ⟨ps'', hps''⟩ := @declareOn_eq prop dtype (declare tid prop dtype (columnName s prop) db.catalog)
    (columnName s prop) (ogSubtypes db.catalog tid)
  have hproperties : c' = { db.catalog with properties := ps'' } := by
    rw [hc', hps'', hps']
  refine ⟨⟨ps'', sameRecords_replayAll.1.trans (by rw [hproperties, hcatalog])⟩, fun g => ?_,
    settled_declared hown' rfl h.settled hc' hproperties⟩
  rw [sameRecords_replayAll.2, h.recorded, stands_snoc]
  rfl

end Runs

section Privileged

variable {s : Session} {db₀ db : Database} {calls : List Call} {c : Catalog} {sub : Int}
  {table : StorageTable} {role col : String} {op : Op} {grants : List Grant}

theorem exact_run (hown : OwnTables db₀.catalog) (hnone : db₀.writeGrant = [])
    (hacl : ∀ table role op, db₀.acl table role op = none)
    (run : Run (step s) (fun _ _ _ => True) db₀ calls db) : Exact db₀.catalog calls db := by
  refine run.invariant ⟨⟨db₀.catalog.properties, rfl⟩, fun g => ?_, fun role sub table htable => ?_⟩ ?_
  · rw [hnone]
    simp [stands]
  · have hgrants : grantsOn db₀ role sub = [] := by
      unfold grantsOn
      rw [hnone]
      rfl
    rw [hgrants, held_nil]
    exact funext fun op => hacl table role op
  · intro es db call db' h _ hstep
    cases call with
    | grant role graph typeName ops props => exact h.grant hown hstep
    | revoke role graph typeName ops => exact h.revoke hown hstep
    | addProperty graph typeName prop dtype => exact h.addProperty hown hstep

theorem mem_columnsOf (hany : grants ≠ []) (hsome : ∀ g ∈ grants, g.props ≠ none) (hop : op ≠ .delete) :
    col ∈ columnsOf c sub table grants op ↔ ∃ g ∈ grants, Covers c sub table op g.props col := by
  have hcols : (col ∈ grants.flatMap fun g => (g.props.getD []).filterMap (columnOf c sub)) ↔
      ∃ g ∈ grants, ∃ p ∈ g.props.getD [], columnOf c sub p = some col := by
    simp only [List.mem_flatMap, List.mem_filterMap]
  have hcovers : ∀ g ∈ grants, Covers c sub table op g.props col ↔
      (∃ p ∈ g.props.getD [], columnOf c sub p = some col) ∨ op = .create ∧ col ∈ rowColumns table := by
    intro g hg
    obtain ⟨ps, hps⟩ := Option.ne_none_iff_exists'.mp (hsome g hg)
    rw [hps, Covers, Option.getD_some]
    exact and_iff_right hop
  obtain ⟨first, hfirst⟩ := List.exists_mem_of_ne_nil grants hany
  unfold columnsOf
  dsimp only
  split_ifs with hcreate
  · rw [List.mem_append, hcols]
    constructor
    · rintro (⟨g, hg, hp⟩ | hrow)
      · exact ⟨g, hg, (hcovers g hg).mpr (.inl hp)⟩
      · exact ⟨first, hfirst, (hcovers first hfirst).mpr (.inr ⟨hcreate, hrow⟩)⟩
    · rintro ⟨g, hg, hc⟩
      exact ((hcovers g hg).mp hc).imp (fun hp => ⟨g, hg, hp⟩) And.right
  · rw [hcols]
    refine exists_congr fun g => and_congr_right fun hg => ?_
    rw [hcovers g hg]
    exact (or_iff_left fun hrow => hcreate hrow.1).symm

/-- What the grants that reach a table give of one privilege is what one of them covers. -/
theorem may_iff (hacl : db.acl table role = held c sub table grants) :
    May db table role op col ↔ ∃ g ∈ grants, g.op = op ∧ Covers c sub table op g.props col := by
  have hmem : ∀ g, g ∈ grants.filter (fun g => g.op = op) ↔ g ∈ grants ∧ g.op = op := fun g => by
    rw [List.mem_filter, decide_eq_true_eq]
  unfold May
  rw [hacl]
  unfold held
  dsimp only
  split_ifs with hall hnone hempty
  · obtain ⟨g, hg, hprops⟩ := List.any_eq_true.mp hall
    refine iff_of_true trivial ⟨g, ((hmem g).mp hg).1, ((hmem g).mp hg).2, ?_⟩
    rw [of_decide_eq_true hprops]
    trivial
  · refine iff_of_false id ?_
    rintro ⟨g, hg, hop, hcovers⟩
    rcases hnone with hnil | rfl
    · exact List.eq_nil_iff_forall_not_mem.mp hnil g ((hmem g).mpr ⟨hg, hop⟩)
    · cases hprops : g.props with
      | none => exact hall (List.any_eq_true.mpr ⟨g, (hmem g).mpr ⟨hg, hop⟩, decide_eq_true hprops⟩)
      | some ps =>
          rw [hprops] at hcovers
          exact hcovers.1 rfl
  all_goals
    rw [not_or] at hnone
    have hsome : ∀ g ∈ grants.filter (fun g => g.op = op), g.props ≠ none := fun g hg hprops =>
      hall (List.any_eq_true.mpr ⟨g, hg, decide_eq_true hprops⟩)
    have hcols := @mem_columnsOf c sub table col op _ hnone.1 hsome hnone.2
    have hgrants : (∃ g ∈ grants.filter (fun g => g.op = op), Covers c sub table op g.props col) ↔
        ∃ g ∈ grants, g.op = op ∧ Covers c sub table op g.props col := by
      simp only [hmem, and_assoc]
    rw [← hgrants, ← hcols]
    have hsorted : col ∈ ((columnsOf c sub table (grants.filter (fun g => g.op = op)) op).insertionSort
        (· ≤ ·)).dedup ↔ col ∈ columnsOf c sub table (grants.filter (fun g => g.op = op)) op := by
      rw [List.mem_dedup, List.mem_insertionSort]
  · exact iff_of_false id fun hcol => List.eq_nil_iff_forall_not_mem.mp hempty col (hsorted.mpr hcol)
  · exact hsorted

/-- After any run of grants, revocations and new properties, a role may do with a column of a
type's table what a grant that stands on the type or above it covers, and nothing else. -/
theorem may_iff_stands (hown : OwnTables db₀.catalog) (hnone : db₀.writeGrant = [])
    (hacl : ∀ table role op, db₀.acl table role op = none)
    (run : Run (step s) (fun _ _ _ => True) db₀ calls db)
    (htable : storageTable db₀.catalog sub = some table) :
    May db table role op col ↔ ∃ T props, stands db₀.catalog calls role T op = some props ∧
      ogIsSubtype db₀.catalog sub T = true ∧ Covers db.catalog sub table op props col := by
  have hexact := exact_run hown hnone hacl run
  obtain ⟨ps, hcatalog⟩ := hexact.catalog
  have hstored : storageTable db.catalog sub = some table := hcatalog ▸ htable
  have hsupertypes : ogSupertypes db.catalog sub = ogSupertypes db₀.catalog sub := by
    rw [hcatalog, ogSupertypes_properties]
  rw [may_iff (hexact.settled role sub table hstored)]
  unfold grantsOn
  simp only [List.mem_filter, decide_eq_true_eq, hsupertypes, mem_ogSupertypes, hexact.recorded]
  constructor
  · rintro ⟨g, ⟨hstands, rfl, habove⟩, rfl, hcovers⟩
    exact ⟨g.typeId, g.props, hstands, habove, hcovers⟩
  · rintro ⟨T, props, hstands, habove, hcovers⟩
    exact ⟨⟨role, T, op, props⟩, ⟨hstands, rfl, habove⟩, rfl, hcovers⟩

/-- Dogs are animals, and nobody may write yet. -/
def dogs : Database where
  catalog := { TypeCatalog.empty with
    graphs := [(1, "g")]
    types := [⟨1, 1, "Animal", .entity, some (nodeTable 1)⟩, ⟨2, 1, "Dog", .entity, some (nodeTable 2)⟩]
    labels := [⟨1, 0, 1, 1, 1025, 0⟩, ⟨2, 1, 1, 2, 513, 1⟩]
    properties := [⟨1, "name", "text", "p_name", false, false⟩, ⟨2, "name", "text", "p_name", false, false⟩] }
  roles := ["writer"]
  writers := []
  writeGrant := []
  acl := fun _ _ _ => none

theorem ownTables_dogs : OwnTables dogs.catalog := by
  intro sub table h
  obtain ⟨t, ht, hstored⟩ := Option.bind_eq_some_iff.mp h
  have hmem := List.mem_of_find?_eq_some ht
  have hid := List.find?_some ht
  obtain rfl := of_decide_eq_true hid
  fin_cases hmem <;> cases hstored <;> rfl

theorem may_iff_stands_dogs : ∃ db, ogGrantWrite dogs "writer" "g" "Animal" ["set"] (some ["name"]) = .ok db ∧
    (May db (nodeTable 2) "writer" .set "p_name" ↔ ∃ T props,
      stands dogs.catalog [.grant "writer" "g" "Animal" ["set"] (some ["name"])] "writer" T .set = some props ∧
        ogIsSubtype dogs.catalog 2 T = true ∧ Covers db.catalog 2 (nodeTable 2) .set props "p_name") := by
  have hstep : (ogGrantWrite dogs "writer" "g" "Animal" ["set"] (some ["name"])).isOk = true := rfl
  cases hdb : ogGrantWrite dogs "writer" "g" "Animal" ["set"] (some ["name"]) with
  | error msg =>
      rw [hdb] at hstep
      cases hstep
  | ok db =>
      let s : Session := ⟨"owner", true, fun _ _ _ => none, fun _ v => .ok v, fun _ => false, String.singleton⟩
      refine ⟨db, rfl, may_iff_stands (s := s) ownTables_dogs rfl (fun _ _ _ => rfl) ?_ rfl⟩
      exact Run.single trivial hdb

end Privileged

end OntologicalDb.WriteGrants
