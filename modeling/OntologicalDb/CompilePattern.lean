import OntologicalDb.CompileExpr

/-!
Compilation of `MATCH` and `OPTIONAL MATCH` clauses to entries of a `FROM` list
and predicates.
-/

namespace OntologicalDb.CompilePattern

open OntologicalDb.CompileExpr
open OntologicalDb.CypherSyntax
open OntologicalDb.Labeling
open OntologicalDb.RowDocuments
open OntologicalDb.Sql
open OntologicalDb.Traverse
open OntologicalDb.TypeCatalog
open OntologicalDb.Values

/-- What a label set resolves to. -/
inductive LabelMatch
  | any
  | type (tid : Int)
  | nothing
deriving DecidableEq

/-- The most specific label is the one that is a subtype of every other. -/
def mostSpecific (c : Catalog) (ids : List Int) : Option Int :=
  ids.find? fun t => ids.all fun o => t = o || ogIsSubtype c t o

/-- Resolve a label set to the single type that stands for it. -/
def resolveLabelSet (c : Catalog) (gid : Int) (labels : List String) : LabelMatch :=
  if labels = [] then .any
  else match labels.mapM (tryTypeId c gid) with
    | none => .nothing
    | some ids =>
        match mostSpecific c ids with
        | some t => .type t
        | none => .nothing

/-- What compilation reads: the catalog, and the planner statistics behind the
choice of `og_reach`. -/
structure Context where
  catalog : Catalog
  prefersReach : Nat → Bool

/-- The joins and predicates of one OPTIONAL MATCH. -/
structure OptionalScope where
  joins : List (Alias × Nat)
  preds : List SqlExpr

structure Compiler where
  gid : Int
  binds : Binds
  entries : List FromItem
  wheres : List SqlExpr
  n : Nat
  relIds : List SqlExpr
  optional : Option OptionalScope
  reachabilityOnly : Bool
  aliasTid : List (Alias × Option Int)

def Compiler.start (gid : Int) : Compiler :=
  ⟨gid, [], [], [], 0, [], none, false, []⟩

section Emission

/-- Add a predicate: to the optional clause while one is open, to the query's
`WHERE` otherwise. -/
def constrain (p : SqlExpr) (st : Compiler) : Compiler :=
  match st.optional with
  | some scope => { st with optional := some { scope with preds := scope.preds ++ [p] } }
  | none => { st with wheres := st.wheres ++ [p] }

def fresh (pfx : String) (st : Compiler) : Alias × Compiler :=
  (⟨pfx, st.n + 1⟩, { st with n := st.n + 1 })

def pushEntry (it : FromItem) (st : Compiler) : Compiler :=
  { st with entries := st.entries ++ [it] }

/-- Record a join the current optional clause added. -/
def noteOptionalJoin (a : Alias) (st : Compiler) : Compiler :=
  match st.optional with
  | some scope =>
      let joins := scope.joins ++ [(a, st.entries.length - 1)]
      { st with optional := some { scope with joins := joins } }
  | none => st

/-- Move one entry to the end, keeping the recorded joins pointing at theirs. -/
def moveJoinToEnd (idx : Nat) (st : Compiler) : Compiler :=
  { st with
    entries := st.entries.eraseIdx idx ++ st.entries[idx]?.toList
    optional := st.optional.map fun scope =>
      { scope with joins := scope.joins.map fun j =>
          (j.1, if j.2 = idx then st.entries.length - 1
            else if idx < j.2 then j.2 - 1 else j.2) } }

def addCondition (p : SqlExpr) (it : FromItem) : FromItem := { it with on := it.on ++ [p] }

/-- Place a predicate of an optional clause on the last join it mentions, or on
the outer query when it mentions none. -/
def placePred (joins : List (Alias × Nat)) (st : Compiler) (p : SqlExpr) : Compiler :=
  match ((joins.filter fun j => mentionsAlias p.text j.1).map (·.2)).max? with
  | some idx => { st with entries := st.entries.modify idx (addCondition p) }
  | none => { st with wheres := st.wheres ++ [p] }

def closeOptional (st : Compiler) : Compiler :=
  match st.optional with
  | none => st
  | some scope => scope.preds.foldl (placePred scope.joins) { st with optional := none }

def aliasTid (st : Compiler) (a : Alias) : Option Int :=
  ((st.aliasTid.find? fun x => x.1 = a).map (·.2)).getD none

def insertVar (v : Option String) (b : Bind) (st : Compiler) : Compiler :=
  match v with
  | some v => { st with binds := insertBind v b st.binds }
  | none => st

end Emission

section Nodes

variable (cx : Context)

/-- Constrain properties of an element: each one equal to its expression. -/
def pushPropFilters (a : Alias) (tid : Option Int) :
    List (String × Expr) → Compiler → Except String Compiler
  | [], st => .ok st
  | (k, v) :: props, st => do
      let (lhs, type) := propSql cx.catalog a tid k
      let (rhs, n) ← expr cx.catalog st.binds type st.n v
      pushPropFilters a tid props (constrain (equals lhs rhs) { st with n := n })

/-- An unlabelled node pattern scans a registry that holds only what exists
now. -/
def guardUntypedNodes (st : Compiler) : Compiler :=
  if temporalTables cx.catalog st.gid .node = [] then st
  else constrain (.app .requireCurrent
    ["og_require_current('an unlabelled node pattern')"] []) st

def joinFor (st : Compiler) (optional : Bool) : JoinKind :=
  if st.entries.isEmpty then .first else if optional then .left else .cross

/-- A variable that holds jsonb anchors a pattern by its identifier. -/
def bindScalar (np : NodePat) (v : String) (sql : SqlExpr) (st : Compiler) :
    Except String (Alias × Compiler) := do
  let (a, st) := fresh "n" st
  let st := pushEntry ⟨joinFor st st.optional.isSome, .node, a, []⟩ st
  let st := noteOptionalJoin a st
  let st := constrain (equals (idOf a) (scalarId sql)) st
  let st := guardUntypedNodes cx st
  let st := insertVar (some v) (.node a none) st
  let st := if np.labels = [] then st else
    match resolveLabelSet cx.catalog st.gid np.labels with
    | .nothing => constrain (boolLit false) st
    | .type w => constrain (.app (.isSubtype w) ["og_is_subtype(", s!", {w})"]
        [.col a "type_id"]) st
    | .any => st
  return (a, ← pushPropFilters cx a none np.props st)

/-- A variable bound to a node keeps its alias: the labels written again are
compared with the type it was bound at. -/
def bindAgain (np : NodePat) (a : Alias) (tid : Option Int) (st : Compiler) :
    Except String (Alias × Compiler) := do
  let st := if np.labels = [] then st else
    match resolveLabelSet cx.catalog st.gid np.labels, tid with
    | .nothing, _ => constrain (boolLit false) st
    | .type w, some t =>
        if w ≠ t ∧ ¬ ogIsSubtype cx.catalog t w then constrain (boolLit false) st else st
    | _, _ => st
  return (a, ← pushPropFilters cx a tid np.props st)

/-- A fresh node scans the view of its type, or the registry.  A label set that
nothing satisfies empties an optional binding only. -/
def bindFresh (np : NodePat) (optional : Bool) (st : Compiler) :
    Except String (Alias × Compiler) := do
  let resolved := resolveLabelSet cx.catalog st.gid np.labels
  let tid := match resolved with
    | .type t => some t
    | _ => none
  let (a, st) := fresh "n" st
  let st := if tid.isNone then guardUntypedNodes cx st else st
  let rel := match tid with
    | some t => Rel.view t false
    | none => .node
  let join := joinFor st optional
  let st := if resolved = .nothing ∧ join ≠ .left then constrain (boolLit false) st else st
  let on := if resolved = .nothing ∧ join = .left then [boolLit false] else []
  let st := noteOptionalJoin a (pushEntry ⟨join, rel, a, on⟩ st)
  let st := { st with aliasTid := (a, tid) :: st.aliasTid }
  let st := insertVar np.var (.node a tid) st
  return (a, ← pushPropFilters cx a tid np.props st)

def bindNode (np : NodePat) (optional : Bool) (st : Compiler) :
    Except String (Alias × Compiler) :=
  match np.var.bind fun v => (lookupBind st.binds v).map fun b => (v, b) with
  | some (v, .scalar sql) => bindScalar cx np v sql st
  | some (_, .node a tid) => bindAgain cx np a tid st
  | _ => bindFresh cx np optional st

end Nodes

section Hops

variable (cx : Context)

/-- The single relationship type of a hop, when it is a virtual one. -/
def virtualRelOf (st : Compiler) (rel : RelPat) : Option VirtualRel :=
  match rel.types with
  | [name] => (tryTypeId cx.catalog st.gid name).bind (virtualRel cx.catalog)
  | _ => none

/-- The type the end of a virtual hop must have. -/
def virtualEnd (v : VirtualRel) (dir : Dir) (farEnd : Bool) : Option Int :=
  match dir, farEnd with
  | .out, true | .in_, false => some v.dstType
  | .in_, true | .out, false => some v.srcType
  | .both, _ => none

/-- The label of an unlabelled end of a virtual hop. -/
def inferVirtualLabel (elems : List PatElem) (idx : Nat) (np : NodePat) (st : Compiler) :
    NodePat :=
  let known := np.labels ≠ [] ∨ (np.var.bind (lookupBind st.binds)).isSome
  let side (elem : Option PatElem) (farEnd : Bool) : Option Int :=
    match elem with
    | some (.rel rel) => (virtualRelOf cx st rel).bind fun v => virtualEnd v rel.dir farEnd
    | _ => none
  let before := if idx = 0 then none else elems[idx - 1]?
  if known then np
  else match (side before true).or (side elems[idx + 1]? false) with
    | none => np
    | some tid =>
        match tryTypeName cx.catalog tid with
        | none => np
        | some name => { np with labels := [name] }

/-- A hop over a virtual relationship joins on the declared keys. -/
def joinVirtualRel (src : Alias) (rel : RelPat) (dst : Alias) (v : VirtualRel)
    (st : Compiler) : Except String (SqlExpr × Compiler) :=
  let rname := rel.types.headD ""
  let ft := aliasTid st src
  let tt := aliasTid st dst
  let is (t : Option Int) (want : Int) : Bool :=
    t.any fun t => t = want || ogIsSubtype cx.catalog t want
  let forward := match rel.dir with
    | .out => true
    | .in_ => false
    | .both => is ft v.srcType && is tt v.dstType
  let (s, stid, d, dtid) := if forward then (src, ft, dst, tt) else (dst, tt, src, ft)
  if rel.range.isSome then
    .error s!"virtual relationship '{rname}' cannot be traversed with a variable length yet"
  else if rel.props ≠ [] then
    .error s!"virtual relationship '{rname}' has no properties to match"
  else if stid.isNone ∨ dtid.isNone then
    .error (s!"virtual relationship '{rname}' needs both ends labelled — " ++
      "it is a join on their keys")
  else
    let st := if is stid v.srcType ∧ is dtid v.dstType then st
      else constrain (boolLit false) st
    let st := constrain (equals (propSql cx.catalog s stid v.srcProp).1
      (propSql cx.catalog d dtid v.dstProp).1) st
    let hash := call "og_make_id"
      [s!"og_make_id(0, {v.typeId}, hashtextextended(", "::text || ':' || ",
        s!"::text, 0) & {Ids.localMask})"] [idOf s, idOf d]
    let relJson := SqlExpr.app (.jsonObject ["_id", "_type", "_src", "_dst"])
      (objectPieces "jsonb_build_object(" ")" ["_id", "_type", "_src", "_dst"])
      [hash, strLit rname, idOf s, idOf d]
    .ok (relJson, insertVar rel.var (.scalar relJson) st)

/-- The relation types a hop may cross; a type nobody has written contributes
none. -/
def hopTypes (st : Compiler) (rel : RelPat) : Option (List Int) :=
  if rel.types = [] then none
  else some (((rel.types.filterMap (tryTypeId cx.catalog st.gid)).flatMap
    (ogSubtypes cx.catalog)).insertionSort (· ≤ ·)).dedup

def hopDir : Dir → HopDir
  | .out => .o
  | .in_ => .i
  | .both => .b

/-- The versioned relation types a hop may cross. -/
def temporalRels (st : Compiler) : Option (List Int) → List Int
  | some ids => ids.filter fun t =>
      ((storageTable cx.catalog t).map (·.shape)) = some .edge ∧ isTemporal cx.catalog t
  | none => temporalTables cx.catalog st.gid .edge

def lateralJoin (optional : Bool) : JoinKind := if optional then .left else .cross

/-- A variable-length hop.  `og_reach` replaces `og_vlp` when nobody can observe
which paths reach a node. -/
def joinVarLength (src : Alias) (rel : RelPat) (dst : Alias) (min max : Nat)
    (optional : Bool) (st : Compiler) : SqlExpr × Compiler :=
  let etypes := hopTypes cx st rel
  let st := if temporalRels cx st etypes = [] then st
    else constrain (.app .requireCurrent
      ["og_require_current('variable-length traversal over a temporal relationship type')"]
      []) st
  let (w, st) := fresh "vl" st
  let reachable := rel.var.isNone ∧ min ≤ 1 ∧ st.reachabilityOnly ∧ cx.prefersReach max
  let relation := if reachable then Rel.reach src etypes (hopDir rel.dir) min max
    else .vlp src etypes (hopDir rel.dir) min max
  let st := noteOptionalJoin w (pushEntry ⟨lateralJoin optional, relation, w, []⟩ st)
  let st := constrain (equals (idOf dst) (.col w "node")) st
  let path := .app .toJsonb ["to_jsonb(", ")"] [.col w "path"]
  (path, insertVar rel.var (.path path) st)

/-- A relationship may not repeat in one MATCH clause. -/
def requireDistinct (eid : SqlExpr) (st : Compiler) : Compiler :=
  let st := st.relIds.foldl (fun st other =>
    constrain (.app .ne ["", " <> ", ""] [eid, other]) st) st
  { st with relIds := st.relIds ++ [eid] }

/-- The one type of a relationship pattern, when it has one that exists. -/
def singleType (st : Compiler) (rel : RelPat) : Option Int :=
  match rel.types with
  | [name] => tryTypeId cx.catalog st.gid name
  | _ => none

/-- Join the view of the relationship's type on the edge identifier. -/
def joinEdgeView (t : Int) (eid : SqlExpr) (optional : Bool) (st : Compiler) :
    Alias × Compiler :=
  let (e, st) := fresh "e" st
  (e, noteOptionalJoin e
    (pushEntry ⟨if optional then .left else .inner, .view t true, e, [equals (idOf e) eid]⟩ st))

/-- A single hop over adjacency. -/
def joinHop (src : Alias) (rel : RelPat) (dst : Alias) (optional : Bool) (st : Compiler) :
    Except String (SqlExpr × Compiler) := do
  let etypes := hopTypes cx st rel
  let temporal := temporalRels cx st etypes
  let st := { st with n := st.n + 1 }
  let (u, st) := fresh "u" st
  -- Each versioned type takes an alias, and a second one unless the hop goes out.
  let width := if rel.dir = .out then 1 else 2
  let st := { st with n := st.n + width * temporal.length }
  let st := pushEntry ⟨lateralJoin optional,
    .hop src (hopDir rel.dir) etypes temporal, u, []⟩ st
  let st := if temporal ≠ [] ∧ rel.var.isSome ∧ rel.types.length ≠ 1 then
    constrain (.app .requireCurrent
      ["og_require_current('a relationship variable without a single type')"] []) st else st
  let st := noteOptionalJoin u st
  let eid := .col u "eid"
  let st := constrain (equals (idOf dst) (.col u "nbr")) st
  let st := if optional then st else requireDistinct eid st
  let hop := .app .toJsonb ["to_jsonb(", ")"] [eid]
  match rel.var, singleType cx st rel with
  | some v, some t =>
      let (e, st) := joinEdgeView t eid optional st
      let st := insertVar (some v) (.rel (some e) (some t) eid) st
      return (hop, ← pushPropFilters cx e (some t) rel.props st)
  | some v, none => return (hop, insertVar (some v) (.rel none none eid) st)
  | none, some t =>
      if rel.props = [] then return (hop, st)
      else
        let (e, st) := joinEdgeView t eid optional st
        return (hop, ← pushPropFilters cx e (some t) rel.props st)
  | none, none => return (hop, st)

/-- Join a relationship; the result describes the hop in a path. -/
def joinRel (src : Alias) (rel : RelPat) (dst : Alias) (optional : Bool) (st : Compiler) :
    Except String (SqlExpr × Compiler) :=
  match virtualRelOf cx st rel, rel.range with
  | some v, _ => joinVirtualRel cx src rel dst v st
  | none, some (min, max) => .ok (joinVarLength cx src rel dst min max optional st)
  | none, none => joinHop cx src rel dst optional st

end Hops

section Clauses

variable (cx : Context)

/-- Where a pattern's loop stands: the node and the relationship last seen, and
the hops joined so far. -/
structure PatternState where
  prevNode : Option Alias
  pendingRel : Option RelPat
  hopExprs : List SqlExpr

def compileElem (elems : List PatElem) (optional : Bool) (ps : PatternState)
    (st : Compiler) (elem : PatElem) (idx : Nat) : Except String (PatternState × Compiler) :=
  match elem with
  | .rel rp => .ok ({ ps with pendingRel := some rp }, st)
  | .node np => do
      let mark := st.entries.length
      let (a, st) ← bindNode cx (inferVirtualLabel cx elems idx np st) optional st
      let added := mark < st.entries.length
      match ps.prevNode, ps.pendingRel with
      | some prev, some rel => do
          let (hop, st) ← joinRel cx prev rel a optional st
          -- The node is constrained by the hop that reaches it, so its join
          -- has to come after the hop's.
          let st := if added ∧ 0 < mark ∧ mark + 1 < st.entries.length then
            moveJoinToEnd mark st else st
          return (⟨some a, none, ps.hopExprs ++ [hop]⟩, st)
      | _, _ => return (⟨some a, none, ps.hopExprs⟩, st)

def compileElems (elems : List PatElem) (optional : Bool) :
    List PatElem → Nat → PatternState → Compiler → Except String (PatternState × Compiler)
  | [], _, ps, st => .ok (ps, st)
  | elem :: rest, idx, ps, st => do
      let (ps, st) ← compileElem cx elems optional ps st elem idx
      compileElems elems optional rest (idx + 1) ps st

def pathSql (hops : List SqlExpr) : SqlExpr :=
  if hops = [] then .lit (.json (.arr [])) "'[]'::jsonb"
  else jsonArraySql hops

/-- A pattern that binds a path must enumerate paths, however blind to them the
projection is. -/
def compilePattern (p : Pattern) (optional : Bool) (st : Compiler) :
    Except String Compiler := do
  let outer := st.reachabilityOnly
  let st := if p.pathVar.isSome then { st with reachabilityOnly := false } else st
  let (ps, st) ← compileElems cx p.elems optional p.elems 0 ⟨none, none, []⟩ st
  let st := insertVar p.pathVar (.path (pathSql ps.hopExprs)) st
  return { st with reachabilityOnly := outer }

def compilePatterns (optional : Bool) :
    List Pattern → Compiler → Except String Compiler
  | [], st => .ok st
  | p :: ps, st => do
      let st ← compilePattern cx p optional st
      compilePatterns optional ps st

/-- Compile one MATCH or OPTIONAL MATCH clause, including its `WHERE`. -/
def compileMatch (patterns : List Pattern) (optional : Bool) (where_ : Option Expr)
    (st : Compiler) : Except String Compiler := do
  let st := { st with
    relIds := []
    optional := if optional then some ⟨[], []⟩ else st.optional }
  let st ← compilePatterns cx optional patterns st
  let st ← (match where_ with
    | some w => do
        let (p, n) ← expr cx.catalog st.binds (some "bool") st.n w
        return constrain p { st with n := n }
    | none => .ok st)
  return if optional then closeOptional st else st

/-- `UNWIND expr AS alias` — one row per element of a list. -/
def compileUnwind (e : Expr) (asName : String) (st : Compiler) : Except String Compiler := do
  let (src, n) ← expr cx.catalog st.binds none st.n e
  let (a, st) := fresh "uw" { st with n := n }
  let st := pushEntry ⟨joinFor st false, .unwind src, a, []⟩ st
  return insertVar (some asName) (.scalar (.col a "v")) st

end Clauses

end OntologicalDb.CompilePattern
