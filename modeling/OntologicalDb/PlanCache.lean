import OntologicalDb.CompilePattern
import OntologicalDb.GuardedRuns
import OntologicalDb.Projection
import OntologicalDb.ReadCommitted

/-!
The plan cache of a backend, keyed by a sequence that every backend reads at
once, while what a compilation reads waits for a commit.
-/

namespace OntologicalDb.PlanCache

open OntologicalDb.GuardedRuns
open OntologicalDb.ReadCommitted

/-- A sequence; its first value is handed out without a move of `last_value`. -/
structure Sequence where
  lastValue : Int
  isCalled : Bool
deriving DecidableEq

def Sequence.nextval (q : Sequence) : Sequence :=
  if q.isCalled then ⟨q.lastValue + 1, true⟩ else ⟨q.lastValue, true⟩

/-- The rows a compilation reads, and the views generated so far. -/
structure Database (Cat : Type) where
  rows : Cat
  views : List String

/-- The outcome of a compilation, and the generated views it names. -/
structure Compiled (Sql : Type) where
  sql : Sql
  views : List String

structure PlanKey (Query : Type) where
  graph : String
  query : Query
  epoch : Int
deriving DecidableEq

structure State (B Cat Query Sql : Type) where
  sessions : Sessions B (Database Cat)
  epoch : Sequence
  cache : B → List (PlanKey Query × Sql)

variable {B Cat Query Sql : Type} {compile : Cat → String → Query → Except String (Compiled Sql)}
  {s s' : State B Cat Query Sql} {b : B} {graph : String} {query : Query}

/-- A change to what compilations read; one that bumps drops the generated views. -/
def schemaChange (f : Cat → Cat) (bumps : Bool) (d : Database Cat) : Database Cat :=
  ⟨f d.rows, if bumps then [] else d.views⟩

def buildViews (views : List String) (d : Database Cat) : Database Cat :=
  { d with views := d.views ++ views }

def insertPlan (cache : List (PlanKey Query × Sql)) (key : PlanKey Query) (sql : Sql) :
    List (PlanKey Query × Sql) :=
  (if cache.length > 512 then [] else cache) ++ [(key, sql)]

/-- What the cache of a backend holds under the current epoch. -/
def cached [DecidableEq Query] (s : State B Cat Query Sql) (b : B) (graph : String)
    (query : Query) : Option Sql :=
  ((s.cache b).find? fun e => e.1 = ⟨graph, query, s.epoch.lastValue⟩).map (·.2)

/-- Answer from the cache, or compile; a plan is kept unless a view was created for it. -/
def compileCached [DecidableEq Query] [DecidableEq B]
    (compile : Cat → String → Query → Except String (Compiled Sql))
    (s : State B Cat Query Sql) (b : B) (graph : String) (query : Query) :
    Except String Sql × State B Cat Query Sql :=
  match cached s b graph query with
  | some sql => (.ok sql, s)
  | none =>
      match compile (s.sessions.visible b).rows graph query with
      | .error e => (.error e, s)
      | .ok c =>
          let created := c.views.filter fun v => v ∉ (s.sessions.visible b).views
          if created = [] then
            let plans := insertPlan (s.cache b) ⟨graph, query, s.epoch.lastValue⟩ c.sql
            (.ok c.sql, { s with cache := Function.update s.cache b plans })
          else (.ok c.sql, { s with sessions := s.sessions.write b (buildViews created) })

inductive Event (B Cat Query : Type)
  | change (b : B) (f : Cat → Cat) (bumps : Bool)
  | query (b : B) (graph : String) (query : Query)
  | commit (b : B)
  | rollback (b : B) (kept : Nat)

def step [DecidableEq Query] [DecidableEq B]
    (compile : Cat → String → Query → Except String (Compiled Sql))
    (s : State B Cat Query Sql) : Event B Cat Query → State B Cat Query Sql
  | .change b f bumps =>
      { s with
        sessions := s.sessions.write b (schemaChange f bumps)
        epoch := if bumps then s.epoch.nextval else s.epoch }
  | .query b graph query => (compileCached compile s b graph query).2
  | .commit b => { s with sessions := s.sessions.commit b }
  | .rollback b kept => { s with sessions := s.sessions.rollback b kept }

/-- Whatever a backend would answer from its cache is what it would compile now. -/
def Coherent [DecidableEq Query]
    (compile : Cat → String → Query → Except String (Compiled Sql))
    (s : State B Cat Query Sql) : Prop :=
  ∀ b graph query sql, cached s b graph query = some sql →
    ∃ c, compile (s.sessions.visible b).rows graph query = .ok c ∧ c.sql = sql

/-- A new installation: no session has done anything, nothing is cached, and
before the first schema change there is nothing to compile. -/
structure Installed (compile : Cat → String → Query → Except String (Compiled Sql))
    (s : State B Cat Query Sql) : Prop where
  changes : ∀ b, s.sessions.changes b = []
  cache : ∀ b, s.cache b = []
  fresh : s.epoch.isCalled = false → ∀ graph query c,
    compile s.sessions.committed.rows graph query ≠ .ok c

/-- Some of the changes are to what compilations read. -/
def AltersRows (fs : List (Database Cat → Database Cat)) : Prop :=
  ∃ f ∈ fs, ¬ Keeps Database.rows f

/-- The backend has kept a plan since the last bump. -/
def HoldsCurrent (s : State B Cat Query Sql) (b : B) : Prop :=
  ∃ e ∈ s.cache b, e.1.epoch = s.epoch.lastValue

/-- The condition on a step: a change to what compilations read bumps; when such
a change is committed no other backend has kept a plan since the last bump, and
when it is rolled back the backend itself has not. -/
def Settled (_ : List (Event B Cat Query)) (s : State B Cat Query Sql) :
    Event B Cat Query → Prop
  | .change _ f bumps => bumps = true ∨ ∀ c, f c = c
  | .query _ _ _ => True
  | .commit b => AltersRows (s.sessions.changes b) → ∀ b', b' ≠ b → ¬ HoldsCurrent s b'
  | .rollback b kept => AltersRows ((s.sessions.changes b).drop kept) → ¬ HoldsCurrent s b

/-- What every settled step keeps. -/
structure Invariant (compile : Cat → String → Query → Except String (Compiled Sql))
    (s : State B Cat Query Sql) : Prop where
  follows : ∀ b, ∀ f ∈ s.sessions.changes b, Follows Database.rows f
  past : ∀ b, ∀ e ∈ s.cache b, e.1.epoch ≤ s.epoch.lastValue
  current : ∀ b, ∀ e ∈ s.cache b, e.1.epoch = s.epoch.lastValue →
    ∃ c, compile (s.sessions.visible b).rows e.1.graph e.1.query = .ok c ∧ c.sql = e.2
  fresh : s.epoch.isCalled = false → (∀ b, s.cache b = []) ∧
    (∀ b, ∀ f ∈ s.sessions.changes b, Keeps Database.rows f) ∧
    ∀ graph query c, compile s.sessions.committed.rows graph query ≠ .ok c

theorem Invariant.coherent [DecidableEq Query] (h : Invariant compile s) : Coherent compile s := by
  intro b graph query sql hcached
  obtain ⟨e, hfind, rfl⟩ := Option.map_eq_some_iff.mp hcached
  have hkey : e.1 = ⟨graph, query, s.epoch.lastValue⟩ := by simpa using List.find?_some hfind
  have hcurrent := h.current b e (List.mem_of_find?_eq_some hfind) (by rw [hkey])
  rwa [hkey] at hcurrent

theorem Installed.invariant (h : Installed compile s) : Invariant compile s where
  follows b f hf := by simp [h.changes] at hf
  past b e he := by simp [h.cache] at he
  current b e he := by simp [h.cache] at he
  fresh hcalled := ⟨h.cache, fun b f hf => by simp [h.changes] at hf, h.fresh hcalled⟩

section Steps

/-- A kept plan stays right while the backend sees the same rows. -/
theorem Invariant.of_visible (h : Invariant compile s)
    (hepoch : s'.epoch = s.epoch) (hcache : s'.cache = s.cache)
    (hfollows : ∀ b, ∀ f ∈ s'.sessions.changes b, Follows Database.rows f)
    (hvisible : ∀ b, HoldsCurrent s b →
      (s'.sessions.visible b).rows = (s.sessions.visible b).rows)
    (hfresh : s.epoch.isCalled = false →
      (∀ b, ∀ f ∈ s'.sessions.changes b, Keeps Database.rows f) ∧
        s'.sessions.committed.rows = s.sessions.committed.rows) : Invariant compile s' where
  follows := hfollows
  past := by
    rw [hepoch, hcache]
    exact h.past
  current b e he hnow := by
    rw [hcache] at he
    rw [hepoch] at hnow
    rw [hvisible b ⟨e, he, hnow⟩]
    exact h.current b e he hnow
  fresh hcalled := by
    rw [hepoch] at hcalled
    obtain ⟨hkeeps, hrows⟩ := hfresh hcalled
    obtain ⟨hempty, -, hnothing⟩ := h.fresh hcalled
    rw [hcache, hrows]
    exact ⟨hempty, hkeeps, hnothing⟩

variable [DecidableEq B]

theorem schemaChange_follows (f : Cat → Cat) (bumps : Bool) :
    Follows Database.rows (schemaChange f bumps) := by
  intro d d' hd
  show f d.rows = f d'.rows
  rw [hd]

theorem buildViews_keeps (views : List String) :
    Keeps Database.rows (buildViews views : Database Cat → Database Cat) :=
  fun _ => rfl

theorem mem_changes_write {P : (Database Cat → Database Cat) → Prop}
    {f : Database Cat → Database Cat} (hold : ∀ b, ∀ g ∈ s.sessions.changes b, P g) (hf : P f) :
    ∀ b', ∀ g ∈ (s.sessions.write b f).changes b', P g := by
  intro b' g hg
  by_cases hb : b' = b
  · subst hb
    simp only [Sessions.write, Function.update_self, List.mem_append, List.mem_singleton] at hg
    rcases hg with hg | rfl
    · exact hold b' g hg
    · exact hf
  · simp only [Sessions.write, Function.update_of_ne hb] at hg
    exact hold b' g hg

/-- A change no reader of the rows notices. -/
theorem Invariant.write_keeps (h : Invariant compile s) {f : Database Cat → Database Cat}
    (hf : Keeps Database.rows f) :
    Invariant compile { s with sessions := s.sessions.write b f } := by
  refine h.of_visible rfl rfl (mem_changes_write h.follows hf.follows) (fun b' _ => ?_)
    fun hcalled => ⟨mem_changes_write (h.fresh hcalled).2.1 hf, rfl⟩
  by_cases hb : b' = b
  · subst hb
    rw [Sessions.visible_write]
    exact hf _
  · rw [Sessions.visible_write_of_ne hb]

variable [DecidableEq Query]

theorem nextval_lastValue (q : Sequence) (hcalled : q.isCalled = true) :
    q.nextval = ⟨q.lastValue + 1, true⟩ := by
  simp [Sequence.nextval, hcalled]

/-- A bump leaves no plan current. -/
theorem Invariant.bump (h : Invariant compile s) (f : Cat → Cat) :
    Invariant compile (step compile s (.change b f true)) where
  follows := mem_changes_write h.follows (schemaChange_follows f true)
  past b' e he := by
    show e.1.epoch ≤ s.epoch.nextval.lastValue
    have hle := h.past b' e he
    unfold Sequence.nextval
    split
    · exact hle.trans (Int.le_add_one le_rfl)
    · exact hle
  current b' e he hnow := by
    change e.1.epoch = s.epoch.nextval.lastValue at hnow
    cases hcalled : s.epoch.isCalled with
    | true =>
        rw [nextval_lastValue _ hcalled] at hnow
        have hle := h.past b' e he
        rw [hnow] at hle
        exact absurd hle (Int.not_le.mpr (Int.lt_succ _))
    | false =>
        change e ∈ s.cache b' at he
        rw [(h.fresh hcalled).1 b'] at he
        cases he
  fresh hcalled := by
    change s.epoch.nextval.isCalled = false at hcalled
    unfold Sequence.nextval at hcalled
    split at hcalled <;> cases hcalled

theorem Invariant.answer (h : Invariant compile s) :
    Invariant compile (step compile s (.query b graph query)) := by
  unfold step compileCached
  dsimp only
  split
  · exact h
  split
  · exact h
  next c hc =>
  split
  · have hmem (b' : B) (e : PlanKey Query × Sql)
        (he : e ∈ Function.update s.cache b
          (insertPlan (s.cache b) ⟨graph, query, s.epoch.lastValue⟩ c.sql) b') :
        e ∈ s.cache b' ∨ b' = b ∧ e = (⟨graph, query, s.epoch.lastValue⟩, c.sql) := by
      by_cases hb : b' = b
      · subst hb
        rw [Function.update_self, insertPlan, List.mem_append, List.mem_singleton] at he
        rcases he with he | he
        · split at he
          · cases he
          · exact .inl he
        · exact .inr ⟨rfl, he⟩
      · rw [Function.update_of_ne hb] at he
        exact .inl he
    refine ⟨h.follows, fun b' e he => ?_, fun b' e he hnow => ?_, fun hcalled => ?_⟩
    · rcases hmem b' e he with he | ⟨-, rfl⟩
      · exact h.past b' e he
      · exact le_rfl
    · rcases hmem b' e he with he | ⟨rfl, rfl⟩
      · exact h.current b' e he hnow
      · exact ⟨c, hc, rfl⟩
    · -- Before the first bump there is nothing that compiles.
      obtain ⟨-, hkeeps, hnothing⟩ := h.fresh hcalled
      have hrows : (s.sessions.visible b).rows = s.sessions.committed.rows :=
        applyAll_keeps (hkeeps b)
      rw [hrows] at hc
      exact absurd hc (hnothing graph query c)
  · exact h.write_keeps (buildViews_keeps _)

theorem not_altersRows {fs : List (Database Cat → Database Cat)} :
    ¬ AltersRows fs ↔ ∀ f ∈ fs, Keeps Database.rows f := by
  simp only [AltersRows, not_exists, not_and, not_not]

theorem Invariant.commit (h : Invariant compile s)
    (hguard : AltersRows (s.sessions.changes b) → ∀ b', b' ≠ b → ¬ HoldsCurrent s b') :
    Invariant compile (step compile s (.commit b)) := by
  have hmem (b' : B) (f : Database Cat → Database Cat)
      (hf : f ∈ (s.sessions.commit b).changes b') : f ∈ s.sessions.changes b' := by
    by_cases hb : b' = b
    · subst hb
      simp [Sessions.commit] at hf
    · simpa only [Sessions.commit, Function.update_of_ne hb] using hf
  refine h.of_visible rfl rfl (fun b' f hf => h.follows b' f (hmem b' f hf)) (fun b' hholds => ?_)
    fun hcalled => ⟨fun b' f hf => (h.fresh hcalled).2.1 b' f (hmem b' f hf),
      applyAll_keeps ((h.fresh hcalled).2.1 b)⟩
  by_cases hb : b' = b
  · subst hb
    exact congrArg Database.rows Sessions.visible_commit
  · have hkeeps := not_altersRows.mp fun halters => hguard halters b' hb hholds
    exact Sessions.visible_commit_of_ne hb hkeeps (h.follows b')

theorem Invariant.rollback {kept : Nat} (h : Invariant compile s)
    (hguard : AltersRows ((s.sessions.changes b).drop kept) → ¬ HoldsCurrent s b) :
    Invariant compile (step compile s (.rollback b kept)) := by
  have hmem (b' : B) (f : Database Cat → Database Cat)
      (hf : f ∈ (s.sessions.rollback b kept).changes b') : f ∈ s.sessions.changes b' := by
    by_cases hb : b' = b
    · subst hb
      simp only [Sessions.rollback, Function.update_self] at hf
      exact List.mem_of_mem_take hf
    · simpa only [Sessions.rollback, Function.update_of_ne hb] using hf
  refine h.of_visible rfl rfl (fun b' f hf => h.follows b' f (hmem b' f hf)) (fun b' hholds => ?_)
    fun hcalled => ⟨fun b' f hf => (h.fresh hcalled).2.1 b' f (hmem b' f hf), rfl⟩
  by_cases hb : b' = b
  · subst hb
    exact Sessions.visible_rollback (not_altersRows.mp fun halters => hguard halters hholds)
  · exact congrArg Database.rows (Sessions.visible_rollback_of_ne hb)

/-- The step lemma. -/
theorem Invariant.step {e : Event B Cat Query} (h : Invariant compile s) (hguard : Settled [] s e) :
    Invariant compile (step compile s e) := by
  cases e with
  | change b f bumps =>
      cases bumps with
      | true => exact h.bump f
      | false =>
          have hid : ∀ c, f c = c := hguard.resolve_left Bool.false_ne_true
          exact h.write_keeps fun d => hid d.rows
  | query b graph query => exact h.answer
  | commit b => exact h.commit hguard
  | rollback b kept => exact h.rollback hguard

end Steps

section Statements

open OntologicalDb.CompilePattern
open OntologicalDb.CypherSyntax
open OntologicalDb.Projection
open OntologicalDb.Sql
open OntologicalDb.TypeCatalog
open OntologicalDb.TypedTables

/-- The SQL of a query that matches and returns. -/
structure Statement where
  entries : List FromItem
  wheres : List SqlExpr
  select : Select

/-- The generated view an entry reads. -/
def viewName (it : FromItem) : Option String :=
  match it.rel with
  | .view tid false => some s!"og_data.v_{tid}"
  | .view tid true => some s!"og_data.ve_{tid}"
  | _ => none

def compileText (parse : String → Except String (List Pattern × Option Expr × Projection))
    (cx : Context) (graph text : String) : Except String (Compiled Statement) := do
  let (patterns, where_, proj) ← parse text
  let gid ← graphId cx.catalog graph
  let st ← compileMatch cx patterns false where_ (Compiler.start gid)
  let (select, _) ← buildCore cx.catalog st.binds proj st.n
  return ⟨⟨st.entries, st.wheres, select⟩, st.entries.filterMap viewName⟩

def ageText : String := "MATCH (n:Person) RETURN n.age"

def parseAge (text : String) : Except String (List Pattern × Option Expr × Projection) :=
  if text = ageText then
    .ok ([⟨none, [.node ⟨some "n", ["Person"], []⟩]⟩], none,
      ⟨[⟨.prop (.var "n") "age", none⟩], false, [], none, none⟩)
  else .error "unexpected token"

def personCatalog : Catalog :=
  { TypeCatalog.empty with
    graphs := [(1, "g")]
    types := [⟨1, 1, "Person", .entity, some (nodeTable 1)⟩]
    labels := [⟨1, 0, 1, 1, 1025, 0⟩] }

/-- `og_add_property`: the property moves from the extension payload to a column. -/
def addAge (cx : Context) : Context :=
  { cx with catalog := declare 1 "age" "int8" "p_age" cx.catalog }

def installed : State Bool Context String Statement where
  sessions := ⟨⟨⟨TypeCatalog.empty, fun _ => false⟩, []⟩, fun _ => []⟩
  epoch := ⟨1, false⟩
  cache _ := []

theorem installed_installed : Installed (compileText parseAge) installed := by
  refine ⟨fun _ => rfl, fun _ => rfl, fun _ graph text c hc => ?_⟩
  unfold compileText parseAge at hc
  by_cases htext : text = ageText
  · rw [if_pos htext] at hc
    cases hc
  · rw [if_neg htext] at hc
    cases hc

/-- A type is created, and its view is built. -/
def prepare : List (Event Bool Context String) :=
  [.change true (fun cx => { cx with catalog := personCatalog }) true, .commit true,
    .query false "g" ageText, .commit false]

def after (es : List (Event Bool Context String)) : State Bool Context String Statement :=
  es.foldl (step (compileText parseAge)) installed

theorem run_after (es : List (Event Bool Context String)) :
    Run (fun s e => .ok (step (compileText parseAge) s e)) (fun _ _ _ => True) installed es
      (after es) := by
  have hfold : es.foldlM (fun s e => (.ok (step (compileText parseAge) s e) :
      Except String (State Bool Context String Statement))) installed = .ok (after es) :=
    List.foldlM_pure
  exact .of_foldlM (fun _ _ _ => trivial) .nil hfold

/-- What the columns of a result are read from. -/
def columnTexts (x : Statement) : List String := x.select.cols.map (·.2.text)

theorem run_snoc {es : List (Event Bool Context String)} (e : Event Bool Context String)
    (run : Run (fun s e => .ok (step (compileText parseAge) s e)) Settled installed es (after es))
    (hguard : Settled es (after es) e) :
    Run (fun s e => .ok (step (compileText parseAge) s e)) Settled installed (es ++ [e])
      (after (es ++ [e])) := by
  refine run.snoc hguard ?_
  simp only [after, List.foldl_append, List.foldl_cons, List.foldl_nil]

theorem not_holdsCurrent {s : State Bool Context String Statement} (hs : s.cache = fun _ => [])
    (b : Bool) : ¬ HoldsCurrent s b := by
  rintro ⟨e, he, -⟩
  rw [hs] at he
  cases he

/-- A plan is kept between the bump and the commit of another backend. -/
def betweenBumpAndCommit : List (Event Bool Context String) :=
  prepare ++ [Event.change true addAge true, .query false "g" ageText, .commit true]

/-- A plan is kept under a change that is then rolled back. -/
def rolledBack : List (Event Bool Context String) :=
  prepare ++ [Event.change true addAge true, .query true "g" ageText, .query true "g" ageText,
    .rollback true 0]

/-- A graph is dropped, which does not bump. -/
def unbumped : List (Event Bool Context String) :=
  prepare ++ [Event.query false "g" ageText,
    .change true (fun cx => { cx with catalog := TypeCatalog.empty }) false, .commit true]

theorem not_coherent_of {es : List (Event Bool Context String)} (b : Bool) (old : List String)
    (hcached : (cached (after es) b "g" ageText).map columnTexts = some old)
    (hnew : (compileText parseAge ((after es).sessions.visible b).rows "g" ageText).map
      (fun c => columnTexts c.sql) ≠ .ok old) :
    ¬ Coherent (compileText parseAge) (after es) := by
  intro hcoherent
  obtain ⟨sql, hsql, rfl⟩ := Option.map_eq_some_iff.mp hcached
  obtain ⟨c, hc, rfl⟩ := hcoherent b "g" ageText sql hsql
  rw [hc] at hnew
  exact hnew rfl

end Statements

end OntologicalDb.PlanCache
