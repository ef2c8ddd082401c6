import Mathlib
import OntologicalDb.GuardedRuns
import OntologicalDb.TypedTables

/-!
Actions: writes with a name and parameters, each behind a function of its own, and who may
run them. The members of a JSON object stand in the order of their keys.
-/

namespace OntologicalDb.Actions

open OntologicalDb.ExceptRules
open OntologicalDb.GuardedRuns
open OntologicalDb.TypeCatalog
open OntologicalDb.Values

section Registry

/-- What an action does. -/
structure Definition where
  lang : String
  body : String
  params : List (String × Json)
  precondition : Option String
  runAs : String
  description : Option String

/-- The name of an action's function. -/
structure FnName where
  actionId : Nat
deriving DecidableEq

def FnName.text (f : FnName) : String := s!"og_action_{f.actionId}"

/-- A row of `og_catalog.action`. -/
structure Action where
  actionId : Nat
  graphId : Int
  name : String
  definition : Definition
  fnName : FnName

/-- A function of the schema `og_action`: the action its body runs, and the roles with `EXECUTE`. -/
structure Function where
  name : FnName
  actionId : Nat
  owner : String
  execute : List String

structure Database where
  catalog : Catalog
  roles : List String
  actions : List Action
  nextAction : Nat
  functions : List Function
  /-- The roles with `USAGE` on the schema `og_action`. -/
  usage : List String

/-- The engine an action runs on: its parser and its two languages, over a store of type `W`.
A statement runs under the name of the action it belongs to. -/
structure Engine (W : Type) where
  isAlphanumeric : Char → Bool
  parse : String → Except String Unit
  runQuery : Option String → String → String → Json → W → Except String (List Json × W)
  runActionBody : Option String → String → String → W → Except String (List Json × W)

variable {W : Type} (e : Engine W) (db : Database)

def find (gid : Int) (name : String) : Option Action :=
  db.actions.find? fun a => a.graphId = gid ∧ a.name = name

def actionFn (graph name : String) : Except String FnName := do
  let gid ← graphId db.catalog graph
  match find db gid name with
  | some a => return a.fnName
  | none => .error s!"graph '{graph}' has no action named '{name}'"

/-- The function of an action goes, and its row. -/
def removeAction (gid : Int) (name : String) : Database :=
  match find db gid name with
  | some old => { db with
      functions := db.functions.filter fun f => f.name ≠ old.fnName
      actions := db.actions.filter fun a => ¬ (a.graphId = gid ∧ a.name = name) }
  | none => db

def paramTypes : List String := ["string", "int", "float", "number", "bool", "any", "list", "map"]

def isParamType : Json → Bool
  | .str t => t ∈ paramTypes
  | _ => false

def checkLang (lang body : String) : Except String Unit :=
  if lang = "cypher" then
    match e.parse body with
    | .ok _ => .ok ()
    | .error msg => .error s!"action body does not parse: {msg}"
  else if lang = "typeql" then .ok ()
  else .error s!"unknown action language '{lang}' (cypher | typeql)"

def checkPrecondition : Option String → Except String Unit
  | none => .ok ()
  | some pre =>
      match e.parse pre with
      | .ok _ => .ok ()
      | .error msg => .error s!"precondition does not parse: {msg}"

def specOf : Json → Except String (List (String × Json))
  | .obj spec =>
      match spec.find? fun kv => !isParamType kv.2 with
      | some kv => .error
          s!"parameter '{kv.1}': type must be one of string, int, float, number, bool, list, map, any"
      | none => .ok spec
  | _ => .error "params must be an object of name → type, e.g. \x7b\"name\": \"string\"\x7d"

def ogDefineAction (graph name body runAs lang : String) (params : Json)
    (precondition description : Option String) : Except String Database := do
  let gid ← graphId db.catalog graph
  require (runAs ∈ db.roles) s!"role '{runAs}' does not exist"
  require (name.toList.all (fun c => e.isAlphanumeric c || c = '_') ∧ name ≠ "")
    s!"action name '{name}' must be letters, digits and '_'"
  checkLang e lang body
  checkPrecondition e precondition
  let spec ← specOf params
  let db := removeAction db gid name
  let id := db.nextAction
  let fnName : FnName := ⟨id⟩
  require (∀ f ∈ db.functions, f.name ≠ fnName) "could not create the action function"
  return { db with
    actions := db.actions ++ [⟨id, gid, name, ⟨lang, body, spec, precondition, runAs, description⟩, fnName⟩]
    nextAction := id + 1
    functions := db.functions ++ [⟨fnName, id, runAs, [runAs]⟩]
    usage := db.usage ++ [runAs] }

/-- `GRANT` and `REVOKE` on the function of an action. -/
def onFunction (role graph name : String) (f : List String → List String) : Except String Database := do
  let fn ← actionFn db graph name
  require (role ∈ db.roles) s!"role \"{role}\" does not exist"
  require (∃ g ∈ db.functions, g.name = fn) s!"function og_action.{fn.text}(jsonb) does not exist"
  return { db with
    functions := db.functions.map fun g => if g.name = fn then { g with execute := f g.execute } else g }

def ogGrantAction (role graph name : String) : Except String Database := do
  let db ← onFunction db role graph name fun roles => roles ++ [role]
  return { db with usage := db.usage ++ [role] }

def ogRevokeAction (role graph name : String) : Except String Database :=
  onFunction db role graph name fun roles => roles.filter (· ≠ role)

def ogDropAction (graph name : String) : Except String Database := do
  let fn ← actionFn db graph name
  let gid ← graphId db.catalog graph
  return { db with
    functions := db.functions.filter fun f => f.name ≠ fn
    actions := db.actions.filter fun a => ¬ (a.graphId = gid ∧ a.name = name) }

inductive Call
  | define (graph name body runAs lang : String) (params : Json) (precondition description : Option String)
  | grant (role graph name : String)
  | revoke (role graph name : String)
  | drop (graph name : String)

def step : Call → Except String Database
  | .define graph name body runAs lang params precondition description =>
      ogDefineAction e db graph name body runAs lang params precondition description
  | .grant role graph name => ogGrantAction db role graph name
  | .revoke role graph name => ogRevokeAction db role graph name
  | .drop graph name => ogDropAction db graph name

end Registry

section Execution

variable {W : Type} (e : Engine W)

def kindOf : Json → String
  | .null => "null"
  | .bool _ => "bool"
  | .num _ => "number"
  | .str _ => "string"
  | .arr _ => "list"
  | .obj _ => "map"

def isInteger : Json → Bool
  | .num d => d.scale = 0 ∧ -2 ^ 63 ≤ d.coeff ∧ d.coeff < 2 ^ 64
  | _ => false

def hasType (ty : String) (v : Json) : Bool :=
  if ty = "int" then isInteger v
  else if ty = "float" ∨ ty = "number" then kindOf v = "number"
  else if ty ∈ ["string", "bool", "list", "map"] then kindOf v = ty
  else true

def typed : Json → Json → Bool
  | .str ty, v => hasType ty v
  | _, _ => true

def typeWord : Json → String
  | .str t => t
  | _ => "value"

def checkParam (name : String) (given : List (String × Json)) (p : String × Json) : Except String Unit :=
  match given.find? fun kv => kv.1 = p.1 with
  | none => .error s!"action '{name}' requires parameter '{p.1}'"
  | some kv => require (typed p.2 kv.2) s!"action '{name}': parameter '{p.1}' must be a {typeWord p.2}"

def checkParams (name : String) (spec : List (String × Json)) : Json → Except String Unit
  | .obj given =>
      match given.find? fun kv => kv.1 ∉ spec.map (·.1) with
      | some kv => .error s!"action '{name}' does not take a parameter named '{kv.1}'"
      | none => spec.forM (checkParam name given)
  | _ => .error s!"action '{name}': parameters must be a JSON object"

/-- The first row of a precondition says yes. -/
def holds (rows : List Json) : Bool :=
  match rows.head? with
  | some (.obj kvs) =>
      match (kvs.find? fun kv => kv.1 = "ok").or kvs.head? with
      | some (_, .bool b) => b
      | _ => false
  | _ => false

/-- The precondition is read first, when there is one. -/
def submit (graph name : String) (precondition : Option String) (params : Json) (w : W) : Except String W :=
  match precondition with
  | none => .ok w
  | some pre => do
      let (rows, w) ← e.runQuery (some name) graph pre params w
      require (holds rows)
        s!"OG_ACTION_REJECTED: the precondition of action '{name}' did not hold for these parameters"
      return w

/-- Run what an action is defined to do. -/
def execute (graph name : String) (d : Definition) (params : Json) (w : W) :
    Except String (List Json × W) := do
  checkParams name d.params params
  let w ← submit e graph name d.precondition params w
  if d.lang = "typeql" then e.runActionBody (some name) graph d.body w
  else e.runQuery (some name) graph d.body params w

def actionExec (db : Database) (actionId : Nat) (params : Json) (w : W) : Except String (List Json × W) :=
  let action := db.actions.find? fun a => a.actionId = actionId
  let graph := action.bind fun a => db.catalog.graphs.find? fun g => g.1 = a.graphId
  match action, graph with
  | some a, some g => execute e g.2 a.name a.definition params w
  | _, _ => .error s!"action {actionId} does not exist"

/-- `SELECT r FROM og_action.og_action_<id>($1) AS r`, as a role: its `EXECUTE` check is the gate. -/
def callFunction (db : Database) (role : String) (fn : FnName) (params : Json) (w : W) :
    Except String (List Json × W) := do
  require (role ∈ db.usage) "permission denied for schema og_action"
  match db.functions.find? fun f => f.name = fn with
  | none => .error s!"function og_action.{fn.text}(jsonb) does not exist"
  | some f => do
      require (role ∈ f.execute) s!"permission denied for function {fn.text}"
      actionExec e db f.actionId params w

def ogRunAction (db : Database) (role graph name : String) (params : Json) (w : W) :
    Except String (List Json × W) := do
  let fn ← actionFn db graph name
  callFunction e db role fn params w

end Execution

section Purpose

/-- What stands of an action: what it does, and who may run it. -/
structure Licence where
  definition : Definition
  roles : Set String

/-- A call is about the action of this name in this graph. -/
def About (c : Catalog) (graph name : String) (gid : Int) (n : String) : Prop :=
  graphId c graph = .ok gid ∧ name = n

instance (c : Catalog) (graph name : String) (gid : Int) (n : String) : Decidable (About c graph name gid n) :=
  inferInstanceAs (Decidable (graphId c graph = .ok gid ∧ name = n))

/-- Defining an action takes it away from all but the role it runs as. -/
def licensed (c : Catalog) (was : Int → String → Option Licence) : Call → Int → String → Option Licence
  | .define graph name body runAs lang params precondition description, gid, n =>
      if About c graph name gid n then
        (specOf params).toOption.map fun spec => ⟨⟨lang, body, spec, precondition, runAs, description⟩, {runAs}⟩
      else was gid n
  | .grant role graph name, gid, n =>
      if About c graph name gid n then (was gid n).map fun l => { l with roles := insert role l.roles }
      else was gid n
  | .revoke role graph name, gid, n =>
      if About c graph name gid n then (was gid n).map fun l => { l with roles := l.roles \ {role} }
      else was gid n
  | .drop graph name, gid, n => if About c graph name gid n then none else was gid n

def licence (c : Catalog) (calls : List Call) : Int → String → Option Licence :=
  calls.foldl (licensed c) fun _ _ => none

end Purpose

section Invariant

variable {db db' : Database} {c : Catalog} {calls : List Call} {gid : Int} {name : String} {a b old : Action}

/-- The actions and the functions of a database are the same, one for one. -/
structure Paired (db : Database) : Prop where
  named : ∀ a ∈ db.actions, a.fnName = ⟨a.actionId⟩ ∧ a.actionId < db.nextAction
  ids : (db.actions.map (·.actionId)).Nodup
  keys : (db.actions.map fun a => (a.graphId, a.name)).Nodup
  functions : db.functions.map (fun f => (f.name, f.actionId)) = db.actions.map fun a => (a.fnName, a.actionId)

theorem Paired.eq_of_key (h : Paired db) (ha : a ∈ db.actions) (hb : b ∈ db.actions)
    (hgraph : a.graphId = b.graphId) (hname : a.name = b.name) : a = b :=
  List.inj_on_of_nodup_map h.keys ha hb (Prod.ext hgraph hname)

theorem Paired.eq_of_fnName (h : Paired db) (ha : a ∈ db.actions) (hb : b ∈ db.actions)
    (hname : a.fnName = b.fnName) : a = b := by
  rw [(h.named a ha).1, (h.named b hb).1] at hname
  exact List.inj_on_of_nodup_map h.ids ha hb (FnName.mk.inj hname)

theorem find_eq_some (h : find db gid name = some a) : a ∈ db.actions ∧ a.graphId = gid ∧ a.name = name :=
  ⟨List.mem_of_find?_eq_some h, by
    have hkey := List.find?_some h
    exact of_decide_eq_true hkey⟩

theorem Paired.find (h : Paired db) (ha : a ∈ db.actions) : find db a.graphId a.name = some a := by
  cases hfind : Actions.find db a.graphId a.name with
  | none =>
      have hnot := List.find?_eq_none.mp hfind a ha
      exact absurd (decide_eq_true (And.intro rfl rfl)) hnot
  | some b =>
      obtain ⟨hb, hgraph, hname⟩ := find_eq_some hfind
      rw [h.eq_of_key hb ha hgraph hname]

/-- Each action has its function. -/
theorem Paired.exists_function (h : Paired db) (ha : a ∈ db.actions) :
    ∃ f ∈ db.functions, f.name = a.fnName ∧ f.actionId = a.actionId := by
  have hmem : (a.fnName, a.actionId) ∈ db.functions.map fun f => (f.name, f.actionId) := by
    rw [h.functions]
    exact List.mem_map_of_mem ha
  obtain ⟨f, hf, heq⟩ := List.mem_map.mp hmem
  exact ⟨f, hf, (Prod.mk.inj heq).1, (Prod.mk.inj heq).2⟩

/-- Each function is that of an action. -/
theorem Paired.exists_action (h : Paired db) {f : Function} (hf : f ∈ db.functions) :
    ∃ a ∈ db.actions, f.name = a.fnName ∧ f.actionId = a.actionId := by
  have hmem : (f.name, f.actionId) ∈ db.actions.map fun a => (a.fnName, a.actionId) := by
    rw [← h.functions]
    exact List.mem_map_of_mem (f := fun f => (f.name, f.actionId)) hf
  obtain ⟨a, ha, heq⟩ := List.mem_map.mp hmem
  exact ⟨a, ha, (Prod.mk.inj heq).1.symm, (Prod.mk.inj heq).2.symm⟩

theorem Paired.remove (h : Paired db) : Paired (removeAction db gid name) := by
  unfold removeAction
  cases hfind : Actions.find db gid name with
  | none => exact h
  | some old =>
      obtain ⟨hold, hgraph, hname⟩ := find_eq_some hfind
      have hsub := List.filter_sublist (l := db.actions) (p := fun a => ¬ (a.graphId = gid ∧ a.name = name))
      refine ⟨fun a ha => h.named a (hsub.subset ha), h.ids.sublist (hsub.map _), h.keys.sublist (hsub.map _), ?_⟩
      have hother : ∀ a ∈ db.actions, a.fnName ≠ old.fnName ↔ ¬ (a.graphId = gid ∧ a.name = name) := by
        intro a ha
        refine not_congr ⟨fun hfn => ?_, fun hkey => ?_⟩
        · rw [h.eq_of_fnName ha hold hfn]
          exact ⟨hgraph, hname⟩
        · rw [h.eq_of_key ha hold (hkey.1.trans hgraph.symm) (hkey.2.trans hname.symm)]
      calc (db.functions.filter fun f => f.name ≠ old.fnName).map (fun f => (f.name, f.actionId))
        _ = (db.functions.map fun f => (f.name, f.actionId)).filter fun x => x.1 ≠ old.fnName := by
          rw [List.filter_map]
          rfl
        _ = (db.actions.filter fun a => a.fnName ≠ old.fnName).map fun a => (a.fnName, a.actionId) := by
          rw [h.functions, List.filter_map]
          rfl
        _ = _ := by
          refine congrArg _ (List.filter_congr fun a ha => ?_)
          exact decide_eq_decide.mpr (hother a ha)

/-- What the registry and its functions say is what the calls before said. -/
structure Refines (c : Catalog) (lic : Int → String → Option Licence) (db : Database) : Prop where
  paired : Paired db
  catalog : db.catalog = c
  known : ∀ gid name, (lic gid name).isSome → ∃ a ∈ db.actions, a.graphId = gid ∧ a.name = name
  granted : ∀ a ∈ db.actions, ∃ l, lic a.graphId a.name = some l ∧ l.definition = a.definition ∧
    ∀ f ∈ db.functions, f.name = a.fnName → ∀ role, role ∈ f.execute ↔ role ∈ l.roles
  usable : ∀ f ∈ db.functions, ∀ role ∈ f.execute, role ∈ db.usage

end Invariant

section Steps

variable {W : Type} {e : Engine W} {db db' : Database} {c : Catalog} {lic : Int → String → Option Licence}
  {gid : Int} {graph name role : String} {a : Action}

theorem about_iff (hgid : graphId c graph = .ok gid) {g : Int} {n : String} :
    About c graph name g n ↔ g = gid ∧ n = name := by
  unfold About
  rw [hgid, Except.ok.injEq, eq_comm, eq_comm (a := name)]

theorem mem_removeAction :
    a ∈ (removeAction db gid name).actions ↔ a ∈ db.actions ∧ ¬ (a.graphId = gid ∧ a.name = name) := by
  unfold removeAction
  cases hfind : Actions.find db gid name with
  | none =>
      refine (and_iff_left_of_imp fun ha hkey => ?_).symm
      exact List.find?_eq_none.mp hfind a ha (decide_eq_true hkey)
  | some old => rw [List.mem_filter, decide_eq_true_eq]

theorem functions_removeAction : (removeAction db gid name).functions ⊆ db.functions := by
  unfold removeAction
  split
  · exact List.filter_subset_self _
  · exact List.Subset.refl _

theorem catalog_removeAction : (removeAction db gid name).catalog = db.catalog ∧
    (removeAction db gid name).usage = db.usage := by
  unfold removeAction
  split <;> exact ⟨rfl, rfl⟩

theorem Refines.remove (h : Refines c lic db) :
    Refines c (fun g n => if g = gid ∧ n = name then none else lic g n) (removeAction db gid name) where
  paired := h.paired.remove
  catalog := catalog_removeAction.1.trans h.catalog
  known g n hsome := by
    split_ifs at hsome with hkey
    · cases hsome
    · obtain ⟨a, ha, rfl, rfl⟩ := h.known g n hsome
      exact ⟨a, mem_removeAction.mpr ⟨ha, hkey⟩, rfl, rfl⟩
  granted a ha := by
    obtain ⟨ha, hkey⟩ := mem_removeAction.mp ha
    obtain ⟨l, hl, hdef, hroles⟩ := h.granted a ha
    exact ⟨l, by rw [if_neg hkey, hl], hdef, fun f hf => hroles f (functions_removeAction hf)⟩
  usable f hf role hrole := catalog_removeAction.2.symm ▸ h.usable f (functions_removeAction hf) role hrole

/-- A new action under a name that is free. -/
theorem Refines.add (h : Refines c lic db) (hfree : ∀ a ∈ db.actions, ¬ (a.graphId = gid ∧ a.name = name))
    (d : Definition) {fn : FnName} (hfn : fn = ⟨db.nextAction⟩) :
    Refines c (fun g n => if g = gid ∧ n = name then some ⟨d, {d.runAs}⟩ else lic g n) { db with
      actions := db.actions ++ [⟨db.nextAction, gid, name, d, fn⟩]
      nextAction := db.nextAction + 1
      functions := db.functions ++ [⟨fn, db.nextAction, d.runAs, [d.runAs]⟩]
      usage := db.usage ++ [d.runAs] } := by
  subst hfn
  have hnew : ∀ a ∈ db.actions, a.fnName ≠ ⟨db.nextAction⟩ := fun a ha hfn => by
    rw [(h.paired.named a ha).1] at hfn
    exact absurd (FnName.mk.inj hfn) (h.paired.named a ha).2.ne
  have hfree' : ∀ f ∈ db.functions, f.name ≠ ⟨db.nextAction⟩ := fun f hf hname => by
    obtain ⟨a, ha, hfn, -⟩ := h.paired.exists_action hf
    exact hnew a ha (hfn.symm.trans hname)
  refine ⟨⟨fun a ha => ?_, ?_, ?_, ?_⟩, h.catalog, fun g n hsome => ?_, fun a ha => ?_, fun f hf role hrole => ?_⟩
  · rcases List.mem_append.mp ha with ha | ha
    · exact ⟨(h.paired.named a ha).1, Nat.lt_succ_of_lt (h.paired.named a ha).2⟩
    · obtain rfl := List.mem_singleton.mp ha
      exact ⟨rfl, Nat.lt_succ_self _⟩
  · rw [List.map_append]
    refine h.paired.ids.append (List.nodup_singleton _) (List.disjoint_singleton.mpr fun hid => ?_)
    obtain ⟨a, ha, heq⟩ := List.mem_map.mp hid
    exact absurd heq (h.paired.named a ha).2.ne
  · rw [List.map_append]
    refine h.paired.keys.append (List.nodup_singleton _) (List.disjoint_singleton.mpr fun hkey => ?_)
    obtain ⟨a, ha, heq⟩ := List.mem_map.mp hkey
    exact hfree a ha ⟨(Prod.mk.inj heq).1, (Prod.mk.inj heq).2⟩
  · rw [List.map_append, List.map_append, h.paired.functions]
    rfl
  · by_cases hkey : g = gid ∧ n = name
    · obtain ⟨rfl, rfl⟩ := hkey
      exact ⟨_, List.mem_append_right _ (List.mem_singleton_self _), rfl, rfl⟩
    · rw [if_neg hkey] at hsome
      obtain ⟨a, ha, hg, hn⟩ := h.known g n hsome
      exact ⟨a, List.mem_append_left _ ha, hg, hn⟩
  · rcases List.mem_append.mp ha with ha | ha
    · obtain ⟨l, hl, hdef, hroles⟩ := h.granted a ha
      refine ⟨l, by rw [if_neg (hfree a ha), hl], hdef, fun f hf hname => ?_⟩
      rcases List.mem_append.mp hf with hf | hf
      · exact hroles f hf hname
      · obtain rfl := List.mem_singleton.mp hf
        exact absurd hname.symm (hnew a ha)
    · obtain rfl := List.mem_singleton.mp ha
      refine ⟨⟨d, {d.runAs}⟩, if_pos ⟨rfl, rfl⟩, rfl, fun f hf hname role => ?_⟩
      rcases List.mem_append.mp hf with hf | hf
      · exact absurd hname (hfree' f hf)
      · obtain rfl := List.mem_singleton.mp hf
        exact List.mem_singleton
  · rcases List.mem_append.mp hf with hf | hf
    · exact List.mem_append_left _ (h.usable f hf role hrole)
    · obtain rfl := List.mem_singleton.mp hf
      exact List.mem_append_right _ hrole

/-- The roles of one function change. -/
theorem Refines.change (h : Refines c lic db) (ha : a ∈ db.actions) {f : List String → List String}
    {F : Set String → Set String} {usage : List String}
    (hF : ∀ roles S, (∀ r, r ∈ roles ↔ r ∈ S) → ∀ r, r ∈ f roles ↔ r ∈ F S)
    (husage : db.usage ⊆ usage) (hf : ∀ roles, ∀ r ∈ f roles, r ∈ roles ∨ r ∈ usage) :
    Refines c (fun g n => if g = a.graphId ∧ n = a.name then (lic g n).map fun l => { l with roles := F l.roles }
      else lic g n) { db with
        functions := db.functions.map fun g => if g.name = a.fnName then { g with execute := f g.execute } else g
        usage := usage } := by
  have hfunction : ∀ g ∈ db.functions.map (fun g => if g.name = a.fnName then { g with execute := f g.execute } else g),
      ∃ g₀ ∈ db.functions, g.name = g₀.name ∧
        g.execute = if g₀.name = a.fnName then f g₀.execute else g₀.execute := by
    intro g hg
    obtain ⟨g₀, hg₀, rfl⟩ := List.mem_map.mp hg
    refine ⟨g₀, hg₀, ?_⟩
    split_ifs <;> exact ⟨rfl, rfl⟩
  refine ⟨⟨h.paired.named, h.paired.ids, h.paired.keys, ?_⟩, h.catalog, fun g n hsome => ?_, fun b hb => ?_,
    fun g hg role hrole => ?_⟩
  · rw [← h.paired.functions, List.map_map]
    refine List.map_congr_left fun g _ => ?_
    rw [Function.comp_apply]
    split_ifs <;> rfl
  · refine h.known g n ?_
    split_ifs at hsome
    · rwa [Option.isSome_map] at hsome
    · exact hsome
  · obtain ⟨l, hl, hdef, hroles⟩ := h.granted b hb
    by_cases hkey : b.graphId = a.graphId ∧ b.name = a.name
    · obtain rfl := h.paired.eq_of_key hb ha hkey.1 hkey.2
      refine ⟨{ l with roles := F l.roles }, by rw [if_pos hkey, hl, Option.map_some], hdef, fun g hg hname role => ?_⟩
      obtain ⟨g₀, hg₀, hg₀name, hexecute⟩ := hfunction g hg
      have hname₀ := hg₀name.symm.trans hname
      rw [hexecute, if_pos hname₀]
      exact hF _ _ (hroles g₀ hg₀ hname₀) role
    · refine ⟨l, by rw [if_neg hkey, hl], hdef, fun g hg hname role => ?_⟩
      obtain ⟨g₀, hg₀, hg₀name, hexecute⟩ := hfunction g hg
      have hother : g₀.name ≠ a.fnName := fun heq => by
        obtain rfl := h.paired.eq_of_fnName hb ha (hname.symm.trans (hg₀name.trans heq))
        exact hkey ⟨rfl, rfl⟩
      rw [hexecute, if_neg hother]
      exact hroles g₀ hg₀ (hg₀name.symm.trans hname) role
  · obtain ⟨g₀, hg₀, -, hexecute⟩ := hfunction g hg
    rw [hexecute] at hrole
    split_ifs at hrole
    · exact (hf _ role hrole).elim (fun hr => husage (h.usable g₀ hg₀ role hr)) id
    · exact husage (h.usable g₀ hg₀ role hrole)

theorem find_of_actionFn {fn : FnName} (h : actionFn db graph name = .ok fn) :
    ∃ gid a, graphId db.catalog graph = .ok gid ∧ find db gid name = some a ∧ fn = a.fnName := by
  obtain ⟨gid, hgid, h⟩ := bind_eq_ok.mp h
  cases hfind : Actions.find db gid name with
  | none =>
      rw [hfind] at h
      cases h
  | some a =>
      rw [hfind] at h
      exact ⟨gid, a, hgid, hfind, (pure_eq_ok.mp h).symm⟩

theorem Refines.define {body runAs lang : String} {params : Json} {precondition description : Option String}
    (h : Refines c lic db)
    (hstep : ogDefineAction e db graph name body runAs lang params precondition description = .ok db') :
    Refines c (licensed c lic (.define graph name body runAs lang params precondition description)) db' := by
  obtain ⟨gid, hgid, hstep⟩ := bind_eq_ok.mp hstep
  obtain ⟨-, -, hstep⟩ := bind_eq_ok.mp hstep
  obtain ⟨-, -, hstep⟩ := bind_eq_ok.mp hstep
  obtain ⟨-, -, hstep⟩ := bind_eq_ok.mp hstep
  obtain ⟨-, -, hstep⟩ := bind_eq_ok.mp hstep
  obtain ⟨spec, hspec, hstep⟩ := bind_eq_ok.mp hstep
  obtain ⟨-, -, hstep⟩ := bind_eq_ok.mp hstep
  obtain rfl := pure_eq_ok.mp hstep
  rw [h.catalog] at hgid
  have hfree : ∀ a ∈ (removeAction db gid name).actions, ¬ (a.graphId = gid ∧ a.name = name) :=
    fun a ha => (mem_removeAction.mp ha).2
  have hadd := h.remove.add hfree ⟨lang, body, spec, precondition, runAs, description⟩ rfl
  refine Eq.subst (motive := fun lic => Refines c lic _) ?_ hadd
  funext g n
  simp only [licensed, about_iff hgid, hspec]
  split_ifs <;> rfl

theorem Refines.drop (h : Refines c lic db) (hstep : ogDropAction db graph name = .ok db') :
    Refines c (licensed c lic (.drop graph name)) db' := by
  obtain ⟨fn, hfn, hstep⟩ := bind_eq_ok.mp hstep
  obtain ⟨gid, hgid, hstep⟩ := bind_eq_ok.mp hstep
  obtain ⟨gid', a, hgid', hfind, rfl⟩ := find_of_actionFn hfn
  obtain rfl := Except.ok.inj (hgid.symm.trans hgid')
  obtain rfl := pure_eq_ok.mp hstep
  rw [h.catalog] at hgid
  have hremove : Refines c _ (removeAction db gid name) := h.remove
  unfold removeAction at hremove
  rw [hfind] at hremove
  refine Eq.subst (motive := fun lic => Refines c lic _) ?_ hremove
  funext g n
  simp only [licensed, about_iff hgid]

theorem onFunction_eq_ok {f : List String → List String} (hstep : onFunction db role graph name f = .ok db') :
    ∃ gid a, graphId db.catalog graph = .ok gid ∧ find db gid name = some a ∧ db' = { db with
      functions := db.functions.map fun g => if g.name = a.fnName then { g with execute := f g.execute } else g } := by
  obtain ⟨fn, hfn, hstep⟩ := bind_eq_ok.mp hstep
  obtain ⟨gid, a, hgid, hfind, rfl⟩ := find_of_actionFn hfn
  obtain ⟨-, -, hstep⟩ := bind_eq_ok.mp hstep
  obtain ⟨-, -, hstep⟩ := bind_eq_ok.mp hstep
  exact ⟨gid, a, hgid, hfind, (pure_eq_ok.mp hstep).symm⟩

theorem Refines.grant (h : Refines c lic db) (hstep : ogGrantAction db role graph name = .ok db') :
    Refines c (licensed c lic (.grant role graph name)) db' := by
  obtain ⟨db₁, hstep, hdone⟩ := bind_eq_ok.mp hstep
  obtain ⟨gid, a, hgid, hfind, rfl⟩ := onFunction_eq_ok hstep
  obtain rfl := pure_eq_ok.mp hdone
  obtain ⟨ha, rfl, rfl⟩ := find_eq_some hfind
  rw [h.catalog] at hgid
  have hchange := h.change ha (f := fun roles => roles ++ [role]) (F := insert role)
    (fun roles S hS r => by
      rw [List.mem_append, List.mem_singleton, Set.mem_insert_iff, hS r, or_comm])
    (List.subset_append_left db.usage [role]) (fun roles r hr => by
      rcases List.mem_append.mp hr with hr | hr
      · exact .inl hr
      · exact .inr (List.mem_append_right _ hr))
  refine Eq.subst (motive := fun lic => Refines c lic _) ?_ hchange
  funext g n
  simp only [licensed, about_iff hgid]

theorem Refines.revoke (h : Refines c lic db) (hstep : ogRevokeAction db role graph name = .ok db') :
    Refines c (licensed c lic (.revoke role graph name)) db' := by
  obtain ⟨gid, a, hgid, hfind, rfl⟩ := onFunction_eq_ok hstep
  obtain ⟨ha, rfl, rfl⟩ := find_eq_some hfind
  rw [h.catalog] at hgid
  have hchange := h.change ha (f := fun roles => roles.filter (· ≠ role)) (F := fun S => S \ {role})
    (fun roles S hS r => by
      rw [List.mem_filter, decide_eq_true_eq, Set.mem_sdiff, hS r, Set.mem_singleton_iff])
    (List.Subset.refl db.usage) (fun roles r hr => .inl (List.mem_filter.mp hr).1)
  refine Eq.subst (motive := fun lic => Refines c lic _) ?_ hchange
  funext g n
  simp only [licensed, about_iff hgid]

theorem Refines.step {call : Call} (h : Refines c lic db) (hstep : step e db call = .ok db') :
    Refines c (licensed c lic call) db' := by
  cases call with
  | define graph name body runAs lang params precondition description => exact h.define hstep
  | grant role graph name => exact h.grant hstep
  | revoke role graph name => exact h.revoke hstep
  | drop graph name => exact h.drop hstep

end Steps

section Gate

variable {W : Type} {e : Engine W} {db₀ db : Database} {c : Catalog} {lic : Int → String → Option Licence}
  {calls : List Call} {gid : Int} {graph name role : String} {a : Action} {l : Licence} {params : Json}
  {w : W} {out : List Json × W}

theorem refines_run (hactions : db₀.actions = []) (hfunctions : db₀.functions = [])
    (run : Run (step e) (fun _ _ _ => True) db₀ calls db) :
    Refines db₀.catalog (licence db₀.catalog calls) db := by
  refine run.invariant (I := fun calls db => Refines db₀.catalog (licence db₀.catalog calls) db) ?_ ?_
  · refine ⟨⟨?_, ?_, ?_, ?_⟩, rfl, ?_, ?_, ?_⟩
    all_goals simp [hactions, hfunctions, licence]
  · intro es db call db' h _ hstep
    rw [licence, List.foldl_append]
    exact h.step hstep

/-- The function of an action runs that action, in its graph. -/
theorem actionExec_eq (h : Paired db) (hgraphs : (db.catalog.graphs.map Prod.fst).Nodup)
    (hgid : graphId db.catalog graph = .ok a.graphId) (ha : a ∈ db.actions) :
    actionExec e db a.actionId params w = execute e graph a.name a.definition params w := by
  have haction : db.actions.find? (fun b => b.actionId = a.actionId) = some a := by
    cases hfind : db.actions.find? fun b => b.actionId = a.actionId with
    | none => exact absurd (decide_eq_true rfl) (List.find?_eq_none.mp hfind a ha)
    | some b =>
        have hid := List.find?_some hfind
        rw [List.inj_on_of_nodup_map h.ids (List.mem_of_find?_eq_some hfind) ha (of_decide_eq_true hid)]
  have hnamed : ∃ g ∈ db.catalog.graphs, g.1 = a.graphId ∧ g.2 = graph := by
    unfold graphId at hgid
    split at hgid
    · rename_i g hg
      have hname := List.find?_some hg
      exact ⟨g, List.mem_of_find?_eq_some hg, Except.ok.inj hgid, of_decide_eq_true hname⟩
    · cases hgid
  obtain ⟨g, hg, hid, rfl⟩ := hnamed
  have hgraph : db.catalog.graphs.find? (fun g' => g'.1 = a.graphId) = some g := by
    cases hfind : db.catalog.graphs.find? fun g' => g'.1 = a.graphId with
    | none => exact absurd (decide_eq_true hid) (List.find?_eq_none.mp hfind g hg)
    | some g' =>
        have hid' := List.find?_some hfind
        rw [List.inj_on_of_nodup_map hgraphs (List.mem_of_find?_eq_some hfind) hg
          ((of_decide_eq_true hid').trans hid.symm)]
  unfold actionExec
  rw [haction]
  dsimp only [Option.bind_some]
  rw [hgraph]

/-- Whoever is licensed runs the action, and nobody else. -/
theorem Refines.ogRunAction_iff (h : Refines c lic db) (hgraphs : (c.graphs.map Prod.fst).Nodup)
    (hgid : graphId c graph = .ok gid) (hfind : find db gid name = some a) (hl : lic gid name = some l) :
    ogRunAction e db role graph name params w = .ok out ↔
      role ∈ l.roles ∧ execute e graph name l.definition params w = .ok out := by
  obtain ⟨ha, rfl, rfl⟩ := find_eq_some hfind
  obtain ⟨l', hl', hdef, hroles⟩ := h.granted a ha
  obtain rfl := Option.some.inj (hl.symm.trans hl')
  obtain ⟨f, hf, hname, hid⟩ := h.paired.exists_function ha
  have hfunction : ∃ f, db.functions.find? (fun f => f.name = a.fnName) = some f ∧
      f ∈ db.functions ∧ f.name = a.fnName ∧ f.actionId = a.actionId := by
    cases hfound : db.functions.find? fun f => f.name = a.fnName with
    | none => exact absurd (decide_eq_true hname) (List.find?_eq_none.mp hfound f hf)
    | some f' =>
        have hname' := List.find?_some hfound
        have hf' := List.mem_of_find?_eq_some hfound
        obtain ⟨b, hb, hfn, hid'⟩ := h.paired.exists_action hf'
        obtain rfl := h.paired.eq_of_fnName hb ha (hfn.symm.trans (of_decide_eq_true hname'))
        exact ⟨f', rfl, hf', of_decide_eq_true hname', hid'⟩
  obtain ⟨f, hfound, hf, hname, hid⟩ := hfunction
  have hexec := @actionExec_eq W e db graph a params w h.paired (h.catalog ▸ hgraphs) (h.catalog ▸ hgid) ha
  have hfn : actionFn db graph a.name = .ok a.fnName := by
    unfold actionFn
    rw [h.catalog, hgid]
    change (match Actions.find db a.graphId a.name with
      | some a => pure a.fnName
      | none => Except.error _) = _
    rw [hfind]
    rfl
  constructor
  · intro hrun
    obtain ⟨fn, hfn', hrun⟩ := bind_eq_ok.mp hrun
    obtain rfl := Except.ok.inj (hfn.symm.trans hfn')
    unfold callFunction at hrun
    obtain ⟨-, -, hrun⟩ := bind_eq_ok.mp hrun
    rw [hfound] at hrun
    obtain ⟨_, hrole, hrun⟩ := bind_eq_ok.mp hrun
    rw [hid, hexec, ← hdef] at hrun
    exact ⟨(hroles f hf hname role).mp (require_eq_ok.mp hrole), hrun⟩
  · rintro ⟨hrole, hrun⟩
    have hexecute := (hroles f hf hname role).mpr hrole
    refine bind_eq_ok.mpr ⟨a.fnName, hfn, ?_⟩
    refine bind_eq_ok.mpr ⟨⟨⟩, require_eq_ok.mpr (h.usable f hf role hexecute), ?_⟩
    rw [hfound]
    refine bind_eq_ok.mpr ⟨⟨⟩, require_eq_ok.mpr hexecute, ?_⟩
    rw [hid, hexec, ← hdef]
    exact hrun

/-- Whatever function is called, an action that is on record runs. -/
theorem Refines.exists_action_of_call (h : Refines c lic db) (hnames : (c.graphs.map Prod.snd).Nodup)
    {fn : FnName} (hcall : callFunction e db role fn params w = .ok out) :
    ∃ graph name, ogRunAction e db role graph name params w = .ok out := by
  have hgate := hcall
  obtain ⟨-, -, hgate⟩ := bind_eq_ok.mp hgate
  split at hgate
  · cases hgate
  · rename_i f hfound
    obtain ⟨-, -, hexec⟩ := bind_eq_ok.mp hgate
    have hname := List.find?_some hfound
    obtain ⟨a, ha, hfn, hid⟩ := h.paired.exists_action (List.mem_of_find?_eq_some hfound)
    obtain rfl : fn = a.fnName := (of_decide_eq_true hname).symm.trans hfn
    have hgraph : ∃ g ∈ c.graphs, g.1 = a.graphId := by
      unfold actionExec at hexec
      dsimp only at hexec
      split at hexec
      · rename_i a' g haction hg
        rw [haction, Option.bind_some, h.catalog] at hg
        have hid' := List.find?_some haction
        have hgid := List.find?_some hg
        obtain rfl := List.inj_on_of_nodup_map h.paired.ids (List.mem_of_find?_eq_some haction) ha
          ((of_decide_eq_true hid').trans hid)
        exact ⟨g, List.mem_of_find?_eq_some hg, of_decide_eq_true hgid⟩
      · cases hexec
    obtain ⟨g, hg, hgid⟩ := hgraph
    have hnamed : graphId db.catalog g.2 = .ok a.graphId := by
      unfold graphId
      rw [h.catalog]
      cases hfind : c.graphs.find? fun g' => g'.2 = g.2 with
      | none => exact absurd (decide_eq_true rfl) (List.find?_eq_none.mp hfind g hg)
      | some g' =>
          have hsame := List.find?_some hfind
          rw [List.inj_on_of_nodup_map hnames (List.mem_of_find?_eq_some hfind) hg (of_decide_eq_true hsame)]
          exact congrArg _ hgid
    refine ⟨g.2, a.name, bind_eq_ok.mpr ⟨a.fnName, bind_eq_ok.mpr ⟨a.graphId, hnamed, ?_⟩, hcall⟩⟩
    rw [h.paired.find ha]
    rfl

/-- An engine that counts the statements it runs. -/
def counting : Engine Nat where
  isAlphanumeric _ := true
  parse _ := .ok ()
  runQuery _ _ _ _ n := .ok ([], n + 1)
  runActionBody _ _ _ n := .ok ([], n + 1)

def desk : Database where
  catalog := { TypeCatalog.empty with graphs := [(1, "g")] }
  roles := ["clerk", "app"]
  actions := []
  nextAction := 1
  functions := []
  usage := []

end Gate

end OntologicalDb.Actions
