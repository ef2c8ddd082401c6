import Mathlib
import OntologicalDb.GuardedRuns
import OntologicalDb.Values

/-!
Releases: one row for each package that is applied to a graph, from the version of its schema
before to the version after.
-/

namespace OntologicalDb.Releases

open OntologicalDb.GuardedRuns
open OntologicalDb.Values

section Records

inductive Status
  | applying
  | applied
  | failed
deriving DecidableEq

/-- A row of `og_catalog.release`. -/
structure Release where
  releaseId : Nat
  graphId : Int
  name : String
  origin : Option String
  packageHash : Option String
  status : Status
  fromVersion : Option Nat
  toVersion : Option Nat
  changeIds : List Int
  instances : Int
  summary : Json
  actor : Option String

structure Database where
  graphs : List (Int × String)
  /-- The versions of each graph's schema, from one sequence. -/
  versions : List (Int × Nat)
  nextVersion : Nat
  releases : List Release
  nextRelease : Nat

variable (db : Database)

/-- `SELECT max(version)` of a graph. -/
def maxVersion (gid : Int) : Option Nat :=
  ((db.versions.filter fun v => v.1 = gid).map (·.2)).max?

def ogReleaseBegin (graph name : String) (origin packageHash actor : Option String) :
    Except String Database :=
  match db.graphs.find? fun g => g.2 = graph with
  | none => .error s!"graph '{graph}' does not exist"
  | some g =>
      if packageHash.isSome ∧ db.releases.any fun r =>
          r.graphId = g.1 ∧ r.packageHash = packageHash ∧ r.status = .applied then
        .error ("OG_RELEASE_DUPLICATE: package " ++ packageHash.getD "" ++
          " is already applied to graph " ++ graph)
      else .ok { db with
        releases := db.releases ++ [⟨db.nextRelease, g.1, name, origin, packageHash, .applying,
          maxVersion db g.1, none, [], 0, .obj [], actor⟩]
        nextRelease := db.nextRelease + 1 }

/-- What a release that is being applied becomes. -/
def Release.commit (r : Release) (version : Option Nat) (changeIds : List Int) (instances : Int)
    (summary : Json) (failed : Bool) : Release :=
  { r with
    status := if failed then .failed else .applied
    changeIds := changeIds
    instances := instances
    summary := summary
    toVersion := version }

def ogReleaseCommit (releaseId : Nat) (changeIds : List Int) (instances : Int) (summary : Json)
    (failed : Bool) : Except String Database :=
  if db.releases.any fun r => r.releaseId = releaseId ∧ r.status = .applying then
    .ok { db with
      releases := db.releases.map fun r =>
        if r.releaseId = releaseId ∧ r.status = .applying then
          r.commit (maxVersion db r.graphId) changeIds instances summary failed
        else r }
  else .error s!"release {releaseId} is not being applied"

/-- A change of the schema of a graph makes a version. -/
def bumpSchemaVersion (gid : Int) : Database :=
  { db with
    versions := db.versions ++ [(gid, db.nextVersion)]
    nextVersion := db.nextVersion + 1 }

inductive Call
  | releaseBegin (graph name : String) (origin packageHash actor : Option String)
  | releaseCommit (releaseId : Nat) (changeIds : List Int) (instances : Int) (summary : Json)
      (failed : Bool)
  | schemaChange (gid : Int)

def step : Call → Except String Database
  | .releaseBegin graph name origin packageHash actor =>
      ogReleaseBegin db graph name origin packageHash actor
  | .releaseCommit releaseId changeIds instances summary failed =>
      ogReleaseCommit db releaseId changeIds instances summary failed
  | .schemaChange gid => .ok (bumpSchemaVersion db gid)

abbrev Calls := Run step fun _ _ _ => True

end Records

section Steps

variable {db₀ db db' : Database} {calls : List Call} {call : Call} {gid : Int} {hash : String}
  {q r r' : Release} {graph name : String} {origin packageHash actor : Option String}

theorem ogReleaseBegin_eq_ok (h : ogReleaseBegin db graph name origin packageHash actor = .ok db') :
    ∃ gid, (∀ hash, packageHash = some hash → ∀ r ∈ db.releases, r.graphId = gid →
        r.packageHash = some hash → r.status ≠ .applied) ∧
      db' = { db with
        releases := db.releases ++ [⟨db.nextRelease, gid, name, origin, packageHash, .applying,
          maxVersion db gid, none, [], 0, .obj [], actor⟩]
        nextRelease := db.nextRelease + 1 } := by
  unfold ogReleaseBegin at h
  split at h
  · cases h
  · rename_i g hg
    split_ifs at h with hdup
    obtain rfl := Except.ok.inj h
    refine ⟨g.1, ?_, rfl⟩
    rintro hash rfl r hr hgraph hhash happlied
    exact hdup ⟨rfl, List.any_eq_true.mpr ⟨r, hr, decide_eq_true ⟨hgraph, hhash, happlied⟩⟩⟩

theorem ogReleaseCommit_eq_ok {id : Nat} {changeIds : List Int} {instances : Int} {summary : Json}
    {failed : Bool} (h : ogReleaseCommit db id changeIds instances summary failed = .ok db') :
    db' = { db with
      releases := db.releases.map fun r =>
        if r.releaseId = id ∧ r.status = .applying then
          r.commit (maxVersion db r.graphId) changeIds instances summary failed
        else r } := by
  unfold ogReleaseCommit at h
  split_ifs at h
  exact (Except.ok.inj h).symm

/-- The release is the one that was there, or that one when it has been applied or has failed. -/
structure Follows (db : Database) (q r : Release) : Prop where
  releaseId : q.releaseId = r.releaseId
  graphId : q.graphId = r.graphId
  packageHash : q.packageHash = r.packageHash
  fromVersion : q.fromVersion = r.fromVersion
  change : q = r ∨ q.status = .applying ∧ r.toVersion = maxVersion db r.graphId

/-- The call began the release, where no release of the package had been applied. -/
structure Begun (db : Database) (call : Call) (r : Release) : Prop where
  call : ∃ graph name origin actor, call = .releaseBegin graph name origin r.packageHash actor
  releaseId : r.releaseId = db.nextRelease
  applying : r.status = .applying
  fromVersion : r.fromVersion = maxVersion db r.graphId
  toVersion : r.toVersion = none
  fresh : ∀ hash, r.packageHash = some hash → ∀ q ∈ db.releases, q.graphId = r.graphId →
    q.packageHash = some hash → q.status ≠ .applied

theorem Follows.refl : Follows db r r :=
  ⟨rfl, rfl, rfl, rfl, .inl rfl⟩

/-- What a call does to a release. -/
theorem step_release (h : step db call = .ok db') (hr : r ∈ db'.releases) :
    (∃ q ∈ db.releases, Follows db q r) ∨ Begun db call r := by
  cases call with
  | releaseBegin graph name origin packageHash actor =>
      obtain ⟨gid, hfresh, rfl⟩ := ogReleaseBegin_eq_ok h
      rcases List.mem_append.mp hr with hr | hr
      · exact .inl ⟨r, hr, .refl⟩
      · obtain rfl := List.mem_singleton.mp hr
        exact .inr ⟨⟨graph, name, origin, actor, rfl⟩, rfl, rfl, rfl, rfl, hfresh⟩
  | releaseCommit id changeIds instances summary failed =>
      obtain rfl := ogReleaseCommit_eq_ok h
      obtain ⟨q, hq, rfl⟩ := List.mem_map.mp hr
      split_ifs with hopen
      · exact .inl ⟨q, hq, rfl, rfl, rfl, rfl, .inr ⟨hopen.2, rfl⟩⟩
      · exact .inl ⟨q, hq, .refl⟩
  | schemaChange gid =>
      obtain rfl := Except.ok.inj h
      exact .inl ⟨r, hr, .refl⟩

theorem step_versions (h : step db call = .ok db') : db.versions ⊆ db'.versions := by
  cases call with
  | releaseBegin graph name origin packageHash actor =>
      obtain ⟨gid, -, rfl⟩ := ogReleaseBegin_eq_ok h
      exact List.Subset.refl _
  | releaseCommit id changeIds instances summary failed =>
      obtain rfl := ogReleaseCommit_eq_ok h
      exact List.Subset.refl _
  | schemaChange gid =>
      obtain rfl := Except.ok.inj h
      exact List.subset_append_left _ _

theorem step_finished (h : step db call = .ok db') (hr : r ∈ db.releases)
    (hfinished : r.status ≠ .applying) : r ∈ db'.releases := by
  cases call with
  | releaseBegin graph name origin packageHash actor =>
      obtain ⟨gid, -, rfl⟩ := ogReleaseBegin_eq_ok h
      exact List.mem_append_left _ hr
  | releaseCommit id changeIds instances summary failed =>
      obtain rfl := ogReleaseCommit_eq_ok h
      exact List.mem_map.mpr ⟨r, hr, if_neg fun hopen => hfinished hopen.2⟩
  | schemaChange gid =>
      obtain rfl := Except.ok.inj h
      exact hr

/-- A release that is over stays as it is. -/
theorem run_finished (run : Calls db calls db') (hr : r ∈ db.releases)
    (hfinished : r.status ≠ .applying) : r ∈ db'.releases :=
  run.invariant (I := fun _ db => r ∈ db.releases) hr
    fun _ _ _ _ h _ hstep => step_finished hstep h hfinished

theorem maxVersion_mem {u : Nat} (h : maxVersion db gid = some u) : (gid, u) ∈ db.versions := by
  obtain ⟨v, hv, rfl⟩ := List.mem_map.mp (List.max?_eq_some_iff.mp h).1
  obtain ⟨hmem, hgid⟩ := List.mem_filter.mp hv
  rw [← of_decide_eq_true hgid]
  exact hmem

theorem le_maxVersion {u v : Nat} (h : maxVersion db gid = some v)
    (hu : (gid, u) ∈ db.versions) : u ≤ v := by
  refine (List.max?_eq_some_iff.mp h).2 u ?_
  exact List.mem_map.mpr ⟨(gid, u), List.mem_filter.mpr ⟨hu, decide_eq_true rfl⟩, rfl⟩

end Steps

section Packages

/-- A release of a package to a graph that has not failed. -/
def Release.Holds (r : Release) (gid : Int) (hash : String) : Prop :=
  r.graphId = gid ∧ r.packageHash = some hash ∧ r.status ≠ .failed

/-- A release of the package was begun while another was being applied. -/
def Overlap (db₀ : Database) (calls : List Call) (gid : Int) (hash : String) : Prop :=
  ∃ before after graph name origin actor db,
    calls = before ++ Call.releaseBegin graph name origin (some hash) actor :: after ∧
      Calls db₀ before db ∧ ∃ r ∈ db.releases,
        r.graphId = gid ∧ r.packageHash = some hash ∧ r.status = .applying

variable {db₀ db db' : Database} {calls : List Call} {call : Call} {gid : Int} {hash : String}
  {q r r' : Release}

theorem Overlap.snoc (h : Overlap db₀ calls gid hash) (call : Call) :
    Overlap db₀ (calls ++ [call]) gid hash := by
  obtain ⟨before, after, graph, name, origin, actor, db, rfl, hopen⟩ := h
  exact ⟨before, after ++ [call], graph, name, origin, actor, db, by simp, hopen⟩

theorem Follows.holds (h : Follows db q r) (hr : r.Holds gid hash) : q.Holds gid hash := by
  refine ⟨h.graphId.trans hr.1, h.packageHash.trans hr.2.1, ?_⟩
  rcases h.change with rfl | ⟨hopen, -⟩
  · exact hr.2.2
  · rw [hopen]
    decide

/-- A release begins beside another of its package only while that one is being applied. -/
theorem Begun.overlap (run : Calls db₀ calls db) (h : Begun db call r) (hq : q ∈ db.releases)
    (hr : r.Holds gid hash) (hlive : q.Holds gid hash) :
    Overlap db₀ (calls ++ [call]) gid hash := by
  obtain ⟨graph, name, origin, actor, rfl⟩ := h.call
  have hnot := h.fresh hash hr.2.1 q hq (hlive.1.trans hr.1.symm) hlive.2.1
  have hopen : q.status = .applying := by
    cases hstatus : q.status with
    | applying => rfl
    | applied => exact absurd hstatus hnot
    | failed => exact absurd hstatus hlive.2.2
  refine ⟨calls, [], graph, name, origin, actor, db, ?_, run, q, hq, hlive.1, hlive.2.1, hopen⟩
  rw [hr.2.1]

/-- What is known of the releases after some calls. -/
structure Tracked (db₀ : Database) (calls : List Call) (db : Database) : Prop where
  once : ∀ gid hash, ∀ r ∈ db.releases, ∀ r' ∈ db.releases, r.releaseId ≠ r'.releaseId →
    r.Holds gid hash → r'.Holds gid hash → Overlap db₀ calls gid hash
  started : ∀ r ∈ db.releases, ∀ u, r.fromVersion = some u → (r.graphId, u) ∈ db.versions
  ended : ∀ r ∈ db.releases, ∀ u v, r.fromVersion = some u → r.toVersion = some v → u ≤ v

/-- Of two releases at most one has just begun. -/
theorem Tracked.once_step (run : Calls db₀ calls db) (h : Tracked db₀ calls db)
    (hstep : step db call = .ok db') (hr : r ∈ db'.releases) (hr' : r' ∈ db'.releases)
    (hne : r.releaseId ≠ r'.releaseId) (hholds : r.Holds gid hash) (hholds' : r'.Holds gid hash) :
    Overlap db₀ (calls ++ [call]) gid hash := by
  rcases step_release hstep hr with ⟨q, hq, hfollows⟩ | hbegun
  · have hqholds := hfollows.holds hholds
    rcases step_release hstep hr' with ⟨q', hq', hfollows'⟩ | hbegun'
    · refine (h.once gid hash q hq q' hq' ?_ hqholds (hfollows'.holds hholds')).snoc call
      rw [hfollows.releaseId, hfollows'.releaseId]
      exact hne
    · exact hbegun'.overlap run hq hholds' hqholds
  · rcases step_release hstep hr' with ⟨q', hq', hfollows'⟩ | hbegun'
    · exact hbegun.overlap run hq' hholds (hfollows'.holds hholds')
    · exact absurd (hbegun.releaseId.trans hbegun'.releaseId.symm) hne

theorem Tracked.started_step (h : Tracked db₀ calls db) (hstep : step db call = .ok db')
    (hr : r ∈ db'.releases) {u : Nat} (hu : r.fromVersion = some u) :
    (r.graphId, u) ∈ db'.versions := by
  refine step_versions hstep ?_
  rcases step_release hstep hr with ⟨q, hq, hfollows⟩ | hbegun
  · rw [← hfollows.graphId]
    exact h.started q hq u (hfollows.fromVersion.trans hu)
  · exact maxVersion_mem (hbegun.fromVersion.symm.trans hu)

theorem Tracked.ended_step (h : Tracked db₀ calls db) (hstep : step db call = .ok db')
    (hr : r ∈ db'.releases) {u v : Nat} (hu : r.fromVersion = some u)
    (hv : r.toVersion = some v) : u ≤ v := by
  rcases step_release hstep hr with ⟨q, hq, hfollows⟩ | hbegun
  · rcases hfollows.change with rfl | ⟨-, hto⟩
    · exact h.ended q hq u v hu hv
    · have hstarted := h.started q hq u (hfollows.fromVersion.trans hu)
      rw [hfollows.graphId] at hstarted
      exact le_maxVersion (hto.symm.trans hv) hstarted
  · rw [hbegun.toVersion] at hv
    cases hv

theorem run_tracked (hempty : db₀.releases = []) (run : Calls db₀ calls db) :
    Tracked db₀ calls db := by
  induction run with
  | nil => exact ⟨by simp [hempty], by simp [hempty], by simp [hempty]⟩
  | snoc run guard hstep ih =>
      exact ⟨fun _ _ _ hr _ hr' => ih.once_step run hstep hr hr',
        fun _ hr _ => ih.started_step hstep hr, fun _ hr _ _ => ih.ended_step hstep hr⟩

def operations : Database := ⟨[(1, "ops")], [(1, 4)], 5, [], 1⟩

def springBegin : Call := .releaseBegin "ops" "spring" none (some "9f") none

def springBegun : Database :=
  { operations with
    releases := [⟨1, 1, "spring", none, some "9f", .applying, some 4, none, [], 0, .obj [], none⟩]
    nextRelease := 2 }

theorem springBegun_step : step operations springBegin = .ok springBegun := by
  rfl

end Packages

end OntologicalDb.Releases
