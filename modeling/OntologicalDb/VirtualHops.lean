import OntologicalDb.EvolutionFrames
import OntologicalDb.LabelSets

/-!
Hops over virtual relationships: which of the relationships a hop's types cover
the compiled query reads.
-/

namespace OntologicalDb.VirtualHops

open OntologicalDb.CompileExpr
open OntologicalDb.CompilePattern
open OntologicalDb.CompileSteps
open OntologicalDb.CypherSyntax
open OntologicalDb.EvolutionFrames
open OntologicalDb.ExceptRules
open OntologicalDb.FromRows
open OntologicalDb.GraphStorage
open OntologicalDb.LabelSets
open OntologicalDb.Labeling
open OntologicalDb.RowDocuments
open OntologicalDb.Sql
open OntologicalDb.Traverse
open OntologicalDb.TypeCatalog
open OntologicalDb.TypedTables
open OntologicalDb.Values

/-- A pattern of one hop: the types and the direction between two ends with at
most one label each. -/
structure HopPattern where
  near : Option String
  types : List String
  dir : Dir
  far : Option String
deriving DecidableEq

def HopPattern.rel (h : HopPattern) : RelPat := ⟨none, h.types, h.dir, [], none⟩

def HopPattern.elems (h : HopPattern) : List PatElem :=
  [.node ⟨some "a", h.near.toList, []⟩, .rel h.rel, .node ⟨some "b", h.far.toList, []⟩]

/-- The identifiers of the two ends in every row the pattern matches. -/
def matchedPairs (env : Env) (cx : Context) (gid : Int) (h : HopPattern) :
    Except String (List (Val × Val)) := do
  let st ← compileMatch cx [⟨none, h.elems⟩] false none (Compiler.start gid)
  let rows ← selectRows env st.entries st.wheres
  return rows.map fun s => (s ⟨"n", 1⟩ "id", s ⟨"n", 2⟩ "id")

section Meaning

/-- A relationship between two nodes: a stored one, or a virtual one in the
direction of the pattern or against it. -/
inductive Link
  | stored
  | virtual (v : VirtualRel) (forward : Bool)
deriving DecidableEq

/-- The types a hop names, with their subtypes; all of its graph when it names
none. -/
def NamedBy (c : Catalog) (gid : Int) (types : List String) (tid : Int) : Prop :=
  if types = [] then tid ∈ graphTypes c gid
  else ∃ name ∈ types, ∃ t, tryTypeId c gid name = some t ∧ ogIsSubtype c tid t = true

def Follows : Dir → Bool → Prop
  | .out, forward => forward = true
  | .in_, forward => forward = false
  | .both, _ => True

/-- The relationships a hop is about. -/
def Covers (c : Catalog) (gid : Int) (h : HopPattern) : Link → Prop
  | .stored => True
  | .virtual v forward =>
      virtualRel c v.typeId = some v ∧ NamedBy c gid h.types v.typeId ∧ Follows h.dir forward

def InstanceOf (env : Env) (tid : Int) (x : Tuple) : Prop :=
  x ∈ viewRows env.db.schema env.asOf tid false

/-- A row of a node scan carries an end's label. -/
def Carries (env : Env) (c : Catalog) (gid : Int) (label : Option String) (x : Tuple) : Prop :=
  ∀ l ∈ label, ∃ t, tryTypeId c gid l = some t ∧ InstanceOf env t x

/-- `t` or one of the types it inherits from is the wanted one. -/
def isA (c : Catalog) (t want : Int) : Bool := t = want || ogIsSubtype c t want

/-- The type an end's properties are read at: its label, when that narrows the
declared type. -/
def readType (c : Catalog) (gid : Int) (label : Option String) (declared : Int) : Int :=
  match label.bind (tryTypeId c gid) with
  | some t => if isA c t declared then t else declared
  | none => declared

/-- `x.prop`, of a node of the type. -/
def propValue (c : Catalog) (tid : Int) (prop : String) (x : Tuple) : Val :=
  if prop = "id" ∨ prop = "_id" then x "id"
  else match viewProperty? c tid prop with
    | some (column, _) => x column
    | none => memberText prop (x "__ext")

/-- Two nodes of the declared end types, with the labels, whose declared
properties are equal. -/
structure Joins (env : Env) (c : Catalog) (gid : Int) (v : VirtualRel)
    (ls ld : Option String) (x y : Tuple) : Prop where
  src : InstanceOf env v.srcType x
  dst : InstanceOf env v.dstType y
  srcLabel : Carries env c gid ls x
  dstLabel : Carries env c gid ld y
  equal : accepts (strict env.pg.equal
    (propValue c (readType c gid ls v.srcType) v.srcProp x)
    (propValue c (readType c gid ld v.dstType) v.dstProp y)) = true

/-- The rows an ordinary end scans. -/
def EndRow (env : Env) (c : Catalog) (gid : Int) : Option String → Tuple → Prop
  | none, x => x ∈ env.db.ogNode.map registryTuple
  | some l, x => ∃ t, tryTypeId c gid l = some t ∧ InstanceOf env t x

/-- Two nodes stand in a relationship, as the pattern reads them. -/
def Relates (env : Env) (cx : Context) (gid : Int) (h : HopPattern) :
    Link → Int → Int → Prop
  | .stored, i, j =>
      let etypes := hopTypes cx (Compiler.start gid) h.rel
      ∃ x y, x "id" = .int i ∧ y "id" = .int j ∧
        EndRow env cx.catalog gid h.near x ∧ EndRow env cx.catalog gid h.far y ∧
          ∃ e, (j, e) ∈ hopPairs env i (hopDir h.dir) etypes
            (temporalRels cx (Compiler.start gid) etypes)
  | .virtual v true, i, j =>
      ∃ x y, x "id" = .int i ∧ y "id" = .int j ∧ Joins env cx.catalog gid v h.near h.far x y
  | .virtual v false, i, j =>
      ∃ x y, x "id" = .int i ∧ y "id" = .int j ∧ Joins env cx.catalog gid v h.far h.near y x

/-- The query is refused, or it matches exactly the pairs of nodes that stand in
a relationship the hop is about. -/
def HopExact (env : Env) (cx : Context) (gid : Int) (h : HopPattern) : Prop :=
  match matchedPairs env cx gid h with
  | .error _ => True
  | .ok pairs => ∀ i j, (Val.int i, Val.int j) ∈ pairs ↔
      ∃ k, Covers cx.catalog gid h k ∧ Relates env cx gid h k i j

end Meaning

section Reading

/-- What a compiled hop reads. -/
inductive Reading
  | refused
  | nothing
  | link (k : Link)
deriving DecidableEq

/-- The virtual relationship of a hop that names one type alone. -/
def virtualOf (c : Catalog) (gid : Int) (types : List String) : Option VirtualRel :=
  match types with
  | [name] => (tryTypeId c gid name).bind (virtualRel c)
  | _ => none

/-- The type of an end of a virtual hop: its label's, else the one its direction
implies. -/
def endType (c : Catalog) (gid : Int) (label : Option String) (implied : Option Int) :
    Option Int :=
  match label with
  | some l => tryTypeId c gid l
  | none => implied

/-- The one orientation a virtual hop between two types is followed in. -/
def orientation (c : Catalog) (v : VirtualRel) (dir : Dir) (near far : Int) : Bool :=
  match dir with
  | .out => true
  | .in_ => false
  | .both => isA c near v.srcType && isA c far v.dstType

def joinReading (c : Catalog) (v : VirtualRel) (dir : Dir) (near far : Int) : Reading :=
  let forward := orientation c v dir near far
  let src := if forward then near else far
  let dst := if forward then far else near
  if isA c src v.srcType && isA c dst v.dstType then .link (.virtual v forward) else .nothing

def reading (c : Catalog) (gid : Int) (h : HopPattern) : Reading :=
  match virtualOf c gid h.types with
  | none => .link .stored
  | some v =>
      match endType c gid h.near (virtualEnd v h.dir false),
          endType c gid h.far (virtualEnd v h.dir true) with
      | some near, some far => joinReading c v h.dir near far
      | _, _ => .refused

def Reading.Relates (env : Env) (cx : Context) (gid : Int) (h : HopPattern) :
    Reading → Int → Int → Prop
  | .link k, i, j => VirtualHops.Relates env cx gid h k i j
  | _, _, _ => False

/-- A catalog that keeps its own constraints: the names in a graph differ, and
the ends of a virtual relationship are types of its graph. -/
structure Declared (c : Catalog) : Prop where
  wellFormed : WellFormed c
  names : ∀ t ∈ c.types, ∀ u ∈ c.types, t.graphId = u.graphId → t.name = u.name → t = u
  ends : ∀ v ∈ c.virtualRels, ∀ gid, v.typeId ∈ graphTypes c gid →
    v.srcType ∈ graphTypes c gid ∧ v.dstType ∈ graphTypes c gid

end Reading

section Ends

variable {cx : Context} {env : Env} {c : Catalog} {gid : Int}

/-- The type and the scan a label set resolves to. -/
def LabelMatch.tid : LabelMatch → Option Int
  | .type t => some t
  | _ => none

def LabelMatch.scan : LabelMatch → Rel
  | .type t => .view t false
  | _ => .node

theorem scan_rows {r : LabelMatch} {s s' : Scope} :
    (LabelMatch.scan r).rows env s = (LabelMatch.scan r).rows env s' := by
  cases r <;> rfl

theorem resolveLabelSet_singleton {l : String} :
    resolveLabelSet c gid [l] = match tryTypeId c gid l with
      | some t => .type t
      | none => .nothing := by
  unfold resolveLabelSet
  rw [if_neg (by simp)]
  cases h : tryTypeId c gid l with
  | none => simp [h]
  | some t => simp [h, mostSpecific]

theorem eval_propSql {a : Alias} {t : Int} {prop : String} {group : List Scope} {s : Scope} :
    ((propSql c a (some t) prop).1).eval env group s = propValue c t prop (s a) := by
  unfold propSql propValue
  by_cases hid : prop = "id" ∨ prop = "_id"
  · rw [if_pos hid, if_pos hid]
    rfl
  · rw [if_neg hid, if_neg hid]
    dsimp only
    cases h : viewProperty? c t prop with
    | none => simp [SqlExpr.eval, SqlExpr.evals, SqlOp.apply]
    | some p => simp [SqlExpr.eval]

theorem satisfies_append {ps qs : List SqlExpr} {s : Scope} :
    Satisfies env s (ps ++ qs) ↔ Satisfies env s ps ∧ Satisfies env s qs := by
  simp only [Satisfies, List.mem_append]
  exact ⟨fun h => ⟨fun p hp => h p (.inl hp), fun p hp => h p (.inr hp)⟩,
    fun h p hp => hp.elim (h.1 p) (h.2 p)⟩

theorem satisfies_nil {s : Scope} : Satisfies env s [] := by
  simp [Satisfies]

theorem satisfies_singleton {p : SqlExpr} {s : Scope} :
    Satisfies env s [p] ↔ Holds env s p := by
  simp [Satisfies]

theorem not_holds_false {s : Scope} : ¬ Holds env s (boolLit false) := by
  simp [Holds, boolLit, SqlExpr.eval, accepts]

theorem holds_requireCurrent {s : Scope} {pieces : List String} :
    Holds env s (.app .requireCurrent pieces []) := by
  simp [Holds, SqlExpr.eval, SqlOp.apply, accepts]

/-- The guard of an unlabelled pattern holds in every row. -/
theorem guardUntypedNodes_holds {st : Compiler} (h : st.optional = none) :
    ∃ ps, guardUntypedNodes cx st = { st with wheres := st.wheres ++ ps } ∧
      ∀ env s, Satisfies env s ps := by
  unfold guardUntypedNodes
  split
  · exact ⟨[], by simp, fun _ _ => satisfies_nil⟩
  · exact ⟨_, constrain_plain h, fun _ _ => satisfies_singleton.mpr holds_requireCurrent⟩

/-- The state after a fresh node of a pattern. -/
def boundState (st : Compiler) (v : String) (r : LabelMatch) (extra : List SqlExpr) :
    Compiler :=
  { st with
    n := st.n + 1
    entries := st.entries ++ [⟨joinFor st false, LabelMatch.scan r, ⟨"n", st.n + 1⟩, []⟩]
    aliasTid := (⟨"n", st.n + 1⟩, LabelMatch.tid r) :: st.aliasTid
    binds := insertBind v (.node ⟨"n", st.n + 1⟩ (LabelMatch.tid r)) st.binds
    wheres := st.wheres ++ extra }

theorem bindFresh_eq {st : Compiler} (h : st.optional = none) {v : String}
    {labels : List String} :
    ∃ extra, bindFresh cx ⟨some v, labels, []⟩ false st =
        .ok (⟨"n", st.n + 1⟩,
          boundState st v (resolveLabelSet cx.catalog st.gid labels) extra) ∧
      ∀ env s, Satisfies env s extra ↔
        resolveLabelSet cx.catalog st.gid labels ≠ .nothing := by
  obtain ⟨g, binds, entries, wheres, n, relIds, optional, reach, aliases⟩ := st
  obtain rfl : optional = none := h
  obtain ⟨ps, hguard, hps⟩ := @guardUntypedNodes_holds cx
    ⟨g, binds, entries, wheres, n + 1, relIds, none, reach, aliases⟩ rfl
  cases hr : resolveLabelSet cx.catalog g labels with
  | any =>
      refine ⟨ps, ?_, fun env s => iff_of_true (hps env s) (by simp)⟩
      simp [bindFresh, hr, hguard, fresh, joinFor, boundState, LabelMatch.scan, LabelMatch.tid,
        pushPropFilters, noteOptionalJoin, pushEntry, insertVar, bind, Except.bind, pure,
        Except.pure]
  | type t =>
      refine ⟨[], ?_, fun env s => iff_of_true satisfies_nil (by simp)⟩
      simp [bindFresh, hr, fresh, joinFor, boundState, LabelMatch.scan, LabelMatch.tid,
        pushPropFilters, noteOptionalJoin, pushEntry, insertVar, bind, Except.bind, pure,
        Except.pure]
  | nothing =>
      refine ⟨ps ++ [boolLit false], ?_, fun env s => ?_⟩
      · have hleft : ¬ (if entries = [] then JoinKind.first else .cross) = .left := by
          split <;> simp
        simp [bindFresh, hr, hguard, hleft, fresh, joinFor, boundState, LabelMatch.scan,
          LabelMatch.tid, pushPropFilters, noteOptionalJoin, pushEntry, insertVar, constrain, bind,
          Except.bind, pure, Except.pure]
      · simp [satisfies_append, satisfies_singleton, not_holds_false]

end Ends

section Compilation

variable {cx : Context} {gid : Int} {h : HopPattern} {st : Compiler}

/-- The labels of an end once the hop beside it has been looked at. -/
def endLabels (c : Catalog) (label : Option String) (implied : Option Int) : List String :=
  match label with
  | some l => [l]
  | none => (implied.bind (tryTypeName c)).toList

/-- The type the hop implies for an end. -/
def implied (c : Catalog) (gid : Int) (h : HopPattern) (farEnd : Bool) : Option Int :=
  (virtualOf c gid h.types).bind fun v => virtualEnd v h.dir farEnd

theorem virtualRelOf_rel : virtualRelOf cx st h.rel = virtualOf cx.catalog st.gid h.types := by
  unfold virtualRelOf virtualOf
  rfl

theorem inferVirtualLabel_near (hbinds : lookupBind st.binds "a" = none) :
    inferVirtualLabel cx h.elems 0 ⟨some "a", h.near.toList, []⟩ st =
      ⟨some "a", endLabels cx.catalog h.near (implied cx.catalog st.gid h false), []⟩ := by
  unfold inferVirtualLabel endLabels implied
  cases h.near with
  | some l => simp
  | none =>
      simp only [HopPattern.elems, Option.toList_none, ne_eq, not_true_eq_false, false_or,
        Option.bind_some, hbinds, Option.isSome_none, Bool.false_eq_true, if_false, if_true,
        Option.none_or, virtualRelOf_rel, List.getElem?_cons_succ, List.getElem?_cons_zero,
        zero_add]
      rw [show h.rel.dir = h.dir from rfl]
      cases (virtualOf cx.catalog st.gid h.types).bind fun v => virtualEnd v h.dir false with
      | none => simp
      | some t => cases hname : tryTypeName cx.catalog t <;> simp [hname]

theorem inferVirtualLabel_far (hbinds : lookupBind st.binds "b" = none) :
    inferVirtualLabel cx h.elems 2 ⟨some "b", h.far.toList, []⟩ st =
      ⟨some "b", endLabels cx.catalog h.far (implied cx.catalog st.gid h true), []⟩ := by
  unfold inferVirtualLabel endLabels implied
  cases h.far with
  | some l => simp
  | none =>
      simp only [HopPattern.elems, Option.toList_none, ne_eq, not_true_eq_false, false_or,
        Option.bind_some, hbinds, Option.isSome_none, Bool.false_eq_true, if_false,
        OfNat.ofNat_ne_zero, virtualRelOf_rel, List.getElem?_cons_succ, List.getElem?_cons_zero,
        List.getElem?_nil, Nat.add_one_sub_one, Option.or_none]
      rw [show h.rel.dir = h.dir from rfl]
      cases (virtualOf cx.catalog st.gid h.types).bind fun v => virtualEnd v h.dir true with
      | none => simp
      | some t => cases hname : tryTypeName cx.catalog t <;> simp [hname]

/-- What the two ends of a hop resolve to. -/
def nearMatch (cx : Context) (gid : Int) (h : HopPattern) : LabelMatch :=
  resolveLabelSet cx.catalog gid (endLabels cx.catalog h.near (implied cx.catalog gid h false))

def farMatch (cx : Context) (gid : Int) (h : HopPattern) : LabelMatch :=
  resolveLabelSet cx.catalog gid (endLabels cx.catalog h.far (implied cx.catalog gid h true))

/-- The state once both ends are bound, before the hop between them is joined. -/
def endsState (cx : Context) (gid : Int) (h : HopPattern) (xs ys : List SqlExpr) : Compiler :=
  boundState (boundState (Compiler.start gid) "a" (nearMatch cx gid h) xs) "b"
    (farMatch cx gid h) ys

/-- The pattern binds its ends, joins the hop, and moves the far end behind it. -/
theorem compileMatch_hop :
    ∃ xs ys, (∀ env s, Satisfies env s xs ↔ nearMatch cx gid h ≠ .nothing) ∧
      (∀ env s, Satisfies env s ys ↔ farMatch cx gid h ≠ .nothing) ∧
      compileMatch cx [⟨none, h.elems⟩] false none (Compiler.start gid) = (do
        let (_, st) ← joinRel cx ⟨"n", 1⟩ h.rel ⟨"n", 2⟩ false (endsState cx gid h xs ys)
        let st := if 2 < st.entries.length then moveJoinToEnd 1 st else st
        return { st with reachabilityOnly := false }) := by
  obtain ⟨xs, hnear, hxs⟩ := @bindFresh_eq cx (Compiler.start gid) rfl "a"
    (endLabels cx.catalog h.near (implied cx.catalog gid h false))
  obtain ⟨ys, hfar, hys⟩ :=
    @bindFresh_eq cx (boundState (Compiler.start gid) "a" (nearMatch cx gid h) xs) rfl "b"
      (endLabels cx.catalog h.far (implied cx.catalog gid h true))
  refine ⟨xs, ys, hxs, hys, ?_⟩
  have hunbound : lookupBind (boundState (Compiler.start gid) "a" (nearMatch cx gid h) xs).binds
      "b" = none := by
    show lookupBind (insertBind "a" _ []) "b" = none
    rw [lookupBind_insertBind, if_neg (by decide)]
    rfl
  have hfirst : bindNode cx (inferVirtualLabel cx h.elems 0 ⟨some "a", h.near.toList, []⟩
      (Compiler.start gid)) false (Compiler.start gid) =
        .ok (⟨"n", 1⟩, boundState (Compiler.start gid) "a" (nearMatch cx gid h) xs) := by
    rw [inferVirtualLabel_near rfl]
    exact hnear
  have hsecond : bindNode cx (inferVirtualLabel cx h.elems 2 ⟨some "b", h.far.toList, []⟩
      (boundState (Compiler.start gid) "a" (nearMatch cx gid h) xs)) false
        (boundState (Compiler.start gid) "a" (nearMatch cx gid h) xs) =
          .ok (⟨"n", 2⟩, endsState cx gid h xs ys) := by
    rw [inferVirtualLabel_far hunbound]
    unfold bindNode
    simp only [Option.bind_some, hunbound, Option.map_none]
    exact hfar
  have hnode : compileElem cx h.elems false ⟨none, none, []⟩ (Compiler.start gid)
      (.node ⟨some "a", h.near.toList, []⟩) 0 =
        .ok (⟨some ⟨"n", 1⟩, none, []⟩,
          boundState (Compiler.start gid) "a" (nearMatch cx gid h) xs) := by
    dsimp only [compileElem]
    rw [hfirst]
    rfl
  have hhop : compileElem cx h.elems false ⟨some ⟨"n", 1⟩, some h.rel, []⟩
      (boundState (Compiler.start gid) "a" (nearMatch cx gid h) xs)
      (.node ⟨some "b", h.far.toList, []⟩) 2 = (do
        let (hop, st) ← joinRel cx ⟨"n", 1⟩ h.rel ⟨"n", 2⟩ false (endsState cx gid h xs ys)
        let st := if 2 < st.entries.length then moveJoinToEnd 1 st else st
        return (⟨some ⟨"n", 2⟩, none, [hop]⟩, st)) := by
    dsimp only [compileElem]
    rw [hsecond]
    simp [bind, Except.bind, endsState, boundState, Compiler.start]
  have helems : compileElems cx h.elems false h.elems 0 ⟨none, none, []⟩ (Compiler.start gid) =
      (do
        let (hop, st) ← joinRel cx ⟨"n", 1⟩ h.rel ⟨"n", 2⟩ false (endsState cx gid h xs ys)
        let st := if 2 < st.entries.length then moveJoinToEnd 1 st else st
        return (⟨some ⟨"n", 2⟩, none, [hop]⟩, st)) := by
    rw [show compileElems cx h.elems false h.elems 0 ⟨none, none, []⟩ (Compiler.start gid) =
      compileElems cx h.elems false [.node ⟨some "a", h.near.toList, []⟩, .rel h.rel,
        .node ⟨some "b", h.far.toList, []⟩] 0 ⟨none, none, []⟩ (Compiler.start gid) from rfl]
    rw [compileElems, hnode]
    simp only [bind, Except.bind]
    rw [compileElems]
    simp only [compileElem, bind, Except.bind]
    rw [compileElems, hhop]
    cases joinRel cx ⟨"n", 1⟩ h.rel ⟨"n", 2⟩ false (endsState cx gid h xs ys) <;> rfl
  unfold compileMatch compilePatterns compilePattern compilePatterns
  simp only [Bool.false_eq_true, if_false, Option.isSome_none]
  rw [show ({ Compiler.start gid with relIds := [], optional := (Compiler.start gid).optional } :
    Compiler) = Compiler.start gid from rfl, helems]
  cases joinRel cx ⟨"n", 1⟩ h.rel ⟨"n", 2⟩ false (endsState cx gid h xs ys) <;> rfl

/-- The relationship types an ordinary hop crosses, and those of them that are
versioned. -/
def crossed (cx : Context) (gid : Int) (h : HopPattern) : Option (List Int) :=
  hopTypes cx (Compiler.start gid) h.rel

def crossedTemporal (cx : Context) (gid : Int) (h : HopPattern) : List Int :=
  temporalRels cx (Compiler.start gid) (crossed cx gid h)

/-- The state after an ordinary hop. -/
def hopState (cx : Context) (h : HopPattern) (src dst : Alias) (st : Compiler) : Compiler :=
  let u : Alias := ⟨"u", st.n + 1 + 1⟩
  { st with
    n := st.n + 1 + 1 + (if h.dir = .out then 1 else 2) * (crossedTemporal cx st.gid h).length
    entries := st.entries ++ [⟨.cross, .hop src (hopDir h.dir) (crossed cx st.gid h)
      (crossedTemporal cx st.gid h), u, []⟩]
    wheres := st.wheres ++ [equals (idOf dst) (.col u "nbr")]
    relIds := [.col u "eid"] }

/-- An ordinary hop reads adjacency beside the near end and ties the far end to
what it finds. -/
theorem joinHop_plain {src dst : Alias} (hopt : st.optional = none) (hids : st.relIds = []) :
    ∃ hop, joinHop cx src h.rel dst false st = .ok (hop, hopState cx h src dst st) := by
  obtain ⟨g, binds, entries, wheres, n, relIds, optional, reach, aliases⟩ := st
  obtain rfl : optional = none := hopt
  obtain rfl : relIds = [] := hids
  refine ⟨.app .toJsonb ["to_jsonb(", ")"] [.col ⟨"u", n + 1 + 1⟩ "eid"], ?_⟩
  unfold joinHop
  simp only [HopPattern.rel, Option.isSome_none, Bool.false_eq_true, false_and, and_false, if_false]
  cases singleType cx _ _ <;> rfl

/-- The predicates of a virtual hop from a source to a destination. -/
def joinPreds (c : Catalog) (v : VirtualRel) (s d : Alias × Int) : List SqlExpr :=
  (if isA c s.2 v.srcType && isA c d.2 v.dstType then [] else [boolLit false]) ++
    [equals (propSql c s.1 (some s.2) v.srcProp).1 (propSql c d.1 (some d.2) v.dstProp).1]

theorem constrain_joinPreds {v : VirtualRel} {s d : Alias} {x y : Int}
    (hopt : st.optional = none) :
    constrain (equals (propSql cx.catalog s (some x) v.srcProp).1
        (propSql cx.catalog d (some y) v.dstProp).1)
      (if (some x).any (fun t => t = v.srcType || ogIsSubtype cx.catalog t v.srcType) = true ∧
          (some y).any (fun t => t = v.dstType || ogIsSubtype cx.catalog t v.dstType) = true
        then st else constrain (boolLit false) st) =
      { st with wheres := st.wheres ++ joinPreds cx.catalog v (s, x) (d, y) } := by
  unfold joinPreds isA
  by_cases hfits : (some x).any (fun t => t = v.srcType || ogIsSubtype cx.catalog t v.srcType) =
      true ∧ (some y).any (fun t => t = v.dstType || ogIsSubtype cx.catalog t v.dstType) = true
  · rw [if_pos hfits, if_pos (by simpa using hfits), constrain_plain hopt]
    rfl
  · rw [if_neg hfits, if_neg (by simpa using hfits), constrain_plain hopt]
    rw [constrain_plain (by exact hopt)]
    simp

/-- A virtual hop between two typed ends adds the equality of the keys, in the
orientation it is followed in. -/
theorem joinVirtualRel_typed {src dst : Alias} {v : VirtualRel} {near far : Int}
    (hopt : st.optional = none) (hnear : aliasTid st src = some near)
    (hfar : aliasTid st dst = some far) :
    ∃ hop, joinVirtualRel cx src h.rel dst v st = .ok (hop, { st with wheres := st.wheres ++
      (if orientation cx.catalog v h.dir near far
        then joinPreds cx.catalog v (src, near) (dst, far)
        else joinPreds cx.catalog v (dst, far) (src, near)) }) := by
  obtain ⟨nearLabel, types, dir, farLabel⟩ := h
  unfold joinVirtualRel
  rw [hnear, hfar]
  dsimp only [HopPattern.rel]
  generalize Ids.localMask = mask
  cases dir with
  | out =>
      simp only [orientation, if_true, Option.isSome_none, Bool.false_eq_true, if_false, ne_eq,
        not_true_eq_false]
      exact ⟨_, (if_neg (by simp)).trans
        (congrArg Except.ok (Prod.ext rfl (constrain_joinPreds hopt)))⟩
  | in_ =>
      simp only [orientation, Option.isSome_none, Bool.false_eq_true, if_false, ne_eq,
        not_true_eq_false]
      exact ⟨_, (if_neg (by simp)).trans
        (congrArg Except.ok (Prod.ext rfl (constrain_joinPreds hopt)))⟩
  | both =>
      have hforward : ((some near).any (fun t => t = v.srcType || ogIsSubtype cx.catalog t v.srcType)
          && (some far).any (fun t => t = v.dstType || ogIsSubtype cx.catalog t v.dstType)) =
            orientation cx.catalog v .both near far := rfl
      simp only [hforward, Option.isSome_none, Bool.false_eq_true, if_false, ne_eq,
        not_true_eq_false]
      cases orientation cx.catalog v .both near far with
      | true =>
          exact ⟨_, (if_neg (by simp)).trans
            (congrArg Except.ok (Prod.ext rfl (constrain_joinPreds hopt)))⟩
      | false =>
          exact ⟨_, (if_neg (by simp)).trans
            (congrArg Except.ok (Prod.ext rfl (constrain_joinPreds hopt)))⟩

theorem joinVirtualRel_untyped {src dst : Alias} {v : VirtualRel}
    (hnone : aliasTid st src = none ∨ aliasTid st dst = none) :
    ∃ e, joinVirtualRel cx src h.rel dst v st = .error e := by
  obtain ⟨nearLabel, types, dir, farLabel⟩ := h
  unfold joinVirtualRel
  dsimp only [HopPattern.rel]
  generalize Ids.localMask = mask
  cases dir with
  | out =>
      simp only [if_true, Option.isSome_none, Bool.false_eq_true, if_false, ne_eq,
        not_true_eq_false]
      exact ⟨_, if_pos (by simpa using hnone)⟩
  | in_ =>
      simp only [Option.isSome_none, Bool.false_eq_true, if_false, ne_eq, not_true_eq_false]
      exact ⟨_, if_pos (by simpa using hnone.symm)⟩
  | both =>
      simp only [Option.isSome_none, Bool.false_eq_true, if_false, ne_eq, not_true_eq_false]
      refine ⟨_, if_pos ?_⟩
      split
      · simpa using hnone
      · simpa using hnone.symm

end Compilation

section Types

variable {c : Catalog} {gid : Int}

/-- A type's name leads back to it. -/
theorem Declared.tryTypeId_name (hc : Declared c) {t : Int} (ht : t ∈ graphTypes c gid) :
    ∃ name, tryTypeName c t = some name ∧ tryTypeId c gid name = some t := by
  obtain ⟨row, hrow, hgraph, hid⟩ := LabelCurrency.mem_graphTypes.mp ht
  have htype : typeRow? c t = some row := by
    cases hfound : typeRow? c t with
    | none => simpa [hid] using List.find?_eq_none.mp hfound row hrow
    | some other =>
        have hsame : other.typeId = row.typeId := by
          simpa [hid] using List.find?_some hfound
        rw [List.inj_on_of_nodup_map hc.wellFormed.typeIds (List.mem_of_find?_eq_some hfound)
          hrow hsame]
  refine ⟨row.name, by rw [tryTypeName, htype]; rfl, ?_⟩
  cases hfound : tryTypeId c gid row.name with
  | none =>
      simpa [hgraph] using List.find?_eq_none.mp (Option.map_eq_none_iff.mp hfound) row hrow
  | some u =>
      obtain ⟨other, hother, rfl, hg, hname⟩ := tryTypeId_eq_some hfound
      rw [hc.names other hother row hrow (hg.trans hgraph.symm) hname, hid]

theorem virtualRel_eq_some {t : Int} {v : VirtualRel} (h : virtualRel c t = some v) :
    v ∈ c.virtualRels ∧ v.typeId = t :=
  ⟨List.mem_of_find?_eq_some h, by simpa using List.find?_some h⟩

theorem virtualOf_eq_some {types : List String} {v : VirtualRel}
    (h : virtualOf c gid types = some v) :
    ∃ name, types = [name] ∧ tryTypeId c gid name = some v.typeId ∧
      virtualRel c v.typeId = some v := by
  unfold virtualOf at h
  split at h
  · next name =>
      obtain ⟨t, ht, hv⟩ := Option.bind_eq_some_iff.mp h
      obtain ⟨-, rfl⟩ := virtualRel_eq_some hv
      exact ⟨name, rfl, ht, hv⟩
  · cases h

theorem Declared.ends_of_virtualOf (hc : Declared c) {types : List String} {v : VirtualRel}
    (h : virtualOf c gid types = some v) :
    v.srcType ∈ graphTypes c gid ∧ v.dstType ∈ graphTypes c gid := by
  obtain ⟨name, -, ht, hv⟩ := virtualOf_eq_some h
  exact hc.ends v (virtualRel_eq_some hv).1 gid (tryTypeId_mem_graphTypes ht)

theorem virtualEnd_mem {v : VirtualRel} {dir : Dir} {farEnd : Bool} {t : Int}
    (h : virtualEnd v dir farEnd = some t) : t = v.srcType ∨ t = v.dstType := by
  cases dir <;> cases farEnd <;> simp [virtualEnd] at h <;> simp [h]

/-- The type an end of a virtual hop is bound at. -/
theorem Declared.tid_endLabels (hc : Declared c) {types : List String} {v : VirtualRel}
    (h : virtualOf c gid types = some v) {dir : Dir} {farEnd : Bool} {label : Option String} :
    LabelMatch.tid (resolveLabelSet c gid (endLabels c label (virtualEnd v dir farEnd))) =
      endType c gid label (virtualEnd v dir farEnd) := by
  cases label with
  | some l =>
      unfold endLabels endType
      dsimp only
      rw [resolveLabelSet_singleton]
      cases tryTypeId c gid l <;> rfl
  | none =>
      unfold endLabels endType
      dsimp only
      cases hend : virtualEnd v dir farEnd with
      | none => rfl
      | some t =>
          have ht : t ∈ graphTypes c gid := by
            rcases virtualEnd_mem hend with rfl | rfl
            · exact (hc.ends_of_virtualOf h).1
            · exact (hc.ends_of_virtualOf h).2
          obtain ⟨name, hname, hback⟩ := hc.tryTypeId_name ht
          rw [Option.bind_some, hname, Option.toList_some, resolveLabelSet_singleton, hback]
          rfl

/-- A type has the instances of the types below it. -/
theorem instanceOf_isA {env : Env} (hc : WellFormed c) (henv : env.db.schema.catalog = c)
    {t want : Int} {x : Tuple} (h : isA c t want = true) (hx : InstanceOf env t x) :
    InstanceOf env want x := by
  rcases (by simpa [isA] using h : t = want ∨ ogIsSubtype c t want = true) with rfl | hsub
  · exact hx
  · obtain ⟨row, hrow, table, htable, hbelow, hshape, r, hr, hxr⟩ := mem_viewRows.mp hx
    refine mem_viewRows.mpr ⟨row, hrow, table, htable, ?_, hshape, r, hr, hxr⟩
    rw [henv] at hbelow ⊢
    exact mem_ogSubtypes.mp (ogSubtypes_below hc (mem_ogSubtypes.mpr hsub)
      (isSubtype_of_ogIsSubtype hc hbelow))

end Types

section Rows

variable {env : Env} {cx : Context} {gid : Int} {h : HopPattern}

theorem mem_extend_plain {it : FromItem} (hon : it.on = []) (hjoin : it.join ≠ .left)
    {s s' : Scope} :
    s' ∈ it.extend env s ↔ ∃ x ∈ it.rel.rows env s, s' = Function.update s it.name x := by
  rw [mem_extend, mem_candidates, hon]
  simp [hjoin, satisfies_nil]

/-- The pairs of a finished compilation: the rows of its entries under its
predicates. -/
theorem matchedPairs_of_compiled {st : Compiler}
    (hst : compileMatch cx [⟨none, h.elems⟩] false none (Compiler.start gid) = .ok st)
    (hentries : ∀ it ∈ st.entries, it.on = []) :
    ∃ pairs, matchedPairs env cx gid h = .ok pairs ∧ ∀ i j, (Val.int i, Val.int j) ∈ pairs ↔
      ∃ s ∈ extendAll env st.entries emptyScope, Satisfies env s st.wheres ∧
        s ⟨"n", 1⟩ "id" = .int i ∧ s ⟨"n", 2⟩ "id" = .int j := by
  have hwell : ∀ it ∈ st.entries, it.WellFormed := fun it hit _ => hentries it hit
  refine ⟨((extendAll env st.entries emptyScope).filter fun s => Satisfies env s st.wheres).map
    fun s => (s ⟨"n", 1⟩ "id", s ⟨"n", 2⟩ "id"), ?_, fun i j => ?_⟩
  · unfold matchedPairs selectRows
    rw [hst]
    simp only [bind, Except.bind]
    rw [if_pos hwell]
    rfl
  · simp [and_assoc]

/-- The entries of the two ends. -/
def nearItem (cx : Context) (gid : Int) (h : HopPattern) : FromItem :=
  ⟨.first, LabelMatch.scan (nearMatch cx gid h), ⟨"n", 1⟩, []⟩

def farItem (cx : Context) (gid : Int) (h : HopPattern) : FromItem :=
  ⟨.cross, LabelMatch.scan (farMatch cx gid h), ⟨"n", 2⟩, []⟩

theorem aliasTid_near {xs ys : List SqlExpr} :
    aliasTid (endsState cx gid h xs ys) ⟨"n", 1⟩ = LabelMatch.tid (nearMatch cx gid h) := by
  simp [aliasTid, endsState, boundState, Compiler.start]

theorem aliasTid_far {xs ys : List SqlExpr} :
    aliasTid (endsState cx gid h xs ys) ⟨"n", 2⟩ = LabelMatch.tid (farMatch cx gid h) := by
  simp [aliasTid, endsState, boundState, Compiler.start]

/-- A hop over two typed ends with no other entry between them. -/
theorem mem_extendAll_ends {s : Scope} :
    s ∈ extendAll env [nearItem cx gid h, farItem cx gid h] emptyScope ↔
      ∃ x ∈ (LabelMatch.scan (nearMatch cx gid h)).rows env emptyScope,
        ∃ y ∈ (LabelMatch.scan (farMatch cx gid h)).rows env emptyScope,
          s = Function.update (Function.update emptyScope ⟨"n", 1⟩ x) ⟨"n", 2⟩ y := by
  simp only [extendAll_cons, extendAll_nil, List.mem_flatMap, List.mem_singleton,
    @mem_extend_plain env (nearItem cx gid h) rfl (by simp [nearItem]),
    @mem_extend_plain env (farItem cx gid h) rfl (by simp [farItem])]
  constructor
  · rintro ⟨s₁, ⟨x, hx, rfl⟩, s₂, ⟨y, hy, rfl⟩, rfl⟩
    exact ⟨x, hx, y, by rwa [farItem, scan_rows] at hy, rfl⟩
  · rintro ⟨x, hx, y, hy, rfl⟩
    exact ⟨_, ⟨x, hx, rfl⟩, _, ⟨y, by rwa [farItem, scan_rows], rfl⟩, rfl⟩

theorem satisfies_joinPreds {c : Catalog} {v : VirtualRel} {src dst : Alias × Int} {s : Scope} :
    Satisfies env s (joinPreds c v src dst) ↔
      (isA c src.2 v.srcType && isA c dst.2 v.dstType) = true ∧
        accepts (strict env.pg.equal (propValue c src.2 v.srcProp (s src.1))
          (propValue c dst.2 v.dstProp (s dst.1))) = true := by
  have hkeys : Holds env s (equals (propSql c src.1 (some src.2) v.srcProp).1
      (propSql c dst.1 (some dst.2) v.dstProp).1) ↔
        accepts (strict env.pg.equal (propValue c src.2 v.srcProp (s src.1))
          (propValue c dst.2 v.dstProp (s dst.1))) = true := by
    unfold Holds equals
    simp only [SqlExpr.eval, SqlExpr.evals, SqlOp.apply, eval_propSql]
  unfold joinPreds
  rw [satisfies_append, satisfies_singleton, hkeys]
  refine and_congr_left fun _ => ?_
  split
  · next hfits => simp [hfits, satisfies_nil]
  · next hfits => simp [hfits, satisfies_singleton, not_holds_false]

/-- The rows an end bound at a type scans are the instances of the declared type
that carry its label. -/
theorem instanceOf_end {c : Catalog} (hc : WellFormed c) (henv : env.db.schema.catalog = c)
    {label : Option String} {given : Option Int} {t declared : Int}
    (hend : endType c gid label given = some t) (hgiven : given = some t → label = none →
      t = declared) (hisA : isA c t declared = true) :
    (∀ x, InstanceOf env t x ↔ InstanceOf env declared x ∧ Carries env c gid label x) ∧
      readType c gid label declared = t := by
  cases label with
  | none =>
      obtain rfl := hgiven hend rfl
      exact ⟨fun x => by simp [Carries], rfl⟩
  | some l =>
      have hl : tryTypeId c gid l = some t := hend
      refine ⟨fun x => ⟨fun hx => ⟨instanceOf_isA hc henv hisA hx, ?_⟩, fun hx => ?_⟩, ?_⟩
      · intro k hk
        obtain rfl := Option.some.inj hk
        exact ⟨t, hl, hx⟩
      · obtain ⟨u, hu, hx⟩ := hx.2 l rfl
        obtain rfl := Option.some.inj (hu.symm.trans hl)
        exact hx
      · simp [readType, hl, hisA]

theorem virtualEnd_near {c : Catalog} {v : VirtualRel} {dir : Dir} {near far t : Int}
    (h : virtualEnd v dir false = some t) :
    t = if orientation c v dir near far then v.srcType else v.dstType := by
  cases dir <;> simp [virtualEnd] at h <;> simp [orientation, h]

theorem virtualEnd_far {c : Catalog} {v : VirtualRel} {dir : Dir} {near far t : Int}
    (h : virtualEnd v dir true = some t) :
    t = if orientation c v dir near far then v.dstType else v.srcType := by
  cases dir <;> simp [virtualEnd] at h <;> simp [orientation, h]

theorem match_eq_type {r : LabelMatch} {t : Int} (h : LabelMatch.tid r = some t) :
    r = .type t := by
  cases r <;> simp_all [LabelMatch.tid]

theorem joins_iff {c : Catalog} {v : VirtualRel} {ls ld : Option String} {src dst : Int}
    (hsrc : (∀ x, InstanceOf env src x ↔ InstanceOf env v.srcType x ∧ Carries env c gid ls x) ∧
      readType c gid ls v.srcType = src)
    (hdst : (∀ x, InstanceOf env dst x ↔ InstanceOf env v.dstType x ∧ Carries env c gid ld x) ∧
      readType c gid ld v.dstType = dst) {x y : Tuple} :
    Joins env c gid v ls ld x y ↔ InstanceOf env src x ∧ InstanceOf env dst y ∧
      accepts (strict env.pg.equal (propValue c src v.srcProp x)
        (propValue c dst v.dstProp y)) = true := by
  rw [hsrc.1, hdst.1]
  constructor
  · rintro ⟨hx, hy, hlx, hly, heq⟩
    rw [hsrc.2, hdst.2] at heq
    exact ⟨⟨hx, hlx⟩, ⟨hy, hly⟩, heq⟩
  · rintro ⟨⟨hx, hlx⟩, ⟨hy, hly⟩, heq⟩
    refine ⟨hx, hy, hlx, hly, ?_⟩
    rwa [hsrc.2, hdst.2]

theorem joinRel_virtual {v : VirtualRel} (hv : virtualOf cx.catalog gid h.types = some v)
    {xs ys : List SqlExpr} :
    joinRel cx ⟨"n", 1⟩ h.rel ⟨"n", 2⟩ false (endsState cx gid h xs ys) =
      joinVirtualRel cx ⟨"n", 1⟩ h.rel ⟨"n", 2⟩ v (endsState cx gid h xs ys) := by
  have hgid : (endsState cx gid h xs ys).gid = gid := rfl
  simp only [joinRel, virtualRelOf_rel, hgid, hv]

/-- A virtual hop between typed ends matches what its reading relates. -/
theorem matchedPairs_typed (hc : Declared cx.catalog) (henv : env.db.schema.catalog = cx.catalog)
    {v : VirtualRel} (hv : virtualOf cx.catalog gid h.types = some v) {near far : Int}
    (hnear : endType cx.catalog gid h.near (virtualEnd v h.dir false) = some near)
    (hfar : endType cx.catalog gid h.far (virtualEnd v h.dir true) = some far) :
    ∃ pairs, matchedPairs env cx gid h = .ok pairs ∧ ∀ i j, (Val.int i, Val.int j) ∈ pairs ↔
      (joinReading cx.catalog v h.dir near far).Relates env cx gid h i j := by
  have himplied (farEnd : Bool) : implied cx.catalog gid h farEnd = virtualEnd v h.dir farEnd := by
    simp [implied, hv]
  have htidNear : LabelMatch.tid (nearMatch cx gid h) = some near := by
    rw [nearMatch, himplied, hc.tid_endLabels hv, hnear]
  have htidFar : LabelMatch.tid (farMatch cx gid h) = some far := by
    rw [farMatch, himplied, hc.tid_endLabels hv, hfar]
  have hmatchNear := match_eq_type htidNear
  have hmatchFar := match_eq_type htidFar
  obtain ⟨xs, ys, hxs, hys, hcompile⟩ := @compileMatch_hop cx gid h
  obtain ⟨hop, hjoin⟩ := @joinVirtualRel_typed cx h (endsState cx gid h xs ys) ⟨"n", 1⟩ ⟨"n", 2⟩ v
    near far rfl (aliasTid_near.trans htidNear) (aliasTid_far.trans htidFar)
  rw [joinRel_virtual hv, hjoin] at hcompile
  obtain ⟨pairs, hpairs, hmem⟩ := @matchedPairs_of_compiled env cx gid h _ hcompile (by
    intro it hit
    rcases List.mem_pair.mp (show it ∈ [nearItem cx gid h, farItem cx gid h] from hit) with
      rfl | rfl <;> rfl)
  refine ⟨pairs, hpairs, fun i j => (hmem i j).trans ?_⟩
  have hrows (i j : Int) (ps : List SqlExpr) :
      (∃ s ∈ extendAll env [nearItem cx gid h, farItem cx gid h] emptyScope,
        Satisfies env s (xs ++ ys ++ ps) ∧ s ⟨"n", 1⟩ "id" = .int i ∧
          s ⟨"n", 2⟩ "id" = .int j) ↔
      ∃ x y, InstanceOf env near x ∧ InstanceOf env far y ∧ x "id" = .int i ∧ y "id" = .int j ∧
        Satisfies env (Function.update (Function.update emptyScope ⟨"n", 1⟩ x) ⟨"n", 2⟩ y) ps := by
    simp only [satisfies_append, hxs, hys, hmatchNear, hmatchFar, ne_eq, reduceCtorEq,
      not_false_eq_true, true_and, mem_extendAll_ends]
    constructor
    · rintro ⟨s, ⟨x, hx, y, hy, rfl⟩, hps, hi, hj⟩
      exact ⟨x, y, hx, hy, by simpa using hi, by simpa using hj, hps⟩
    · rintro ⟨x, y, hx, hy, hi, hj, hps⟩
      exact ⟨_, ⟨x, hx, y, hy, rfl⟩, hps, by simpa using hi, by simpa using hj⟩
  refine (hrows i j _).trans ?_
  unfold joinReading
  have hupdate (x y : Tuple) : Function.update (Function.update emptyScope ⟨"n", 1⟩ x)
      ⟨"n", 2⟩ y ⟨"n", 1⟩ = x := by simp
  cases horient : orientation cx.catalog v h.dir near far with
  | true =>
      have hgivenNear (hgiven : virtualEnd v h.dir false = some near) (_ : h.near = none) :
          near = v.srcType := (virtualEnd_near hgiven).trans (if_pos horient)
      have hgivenFar (hgiven : virtualEnd v h.dir true = some far) (_ : h.far = none) :
          far = v.dstType := (virtualEnd_far hgiven).trans (if_pos horient)
      simp only [if_true, satisfies_joinPreds, hupdate, Function.update_self]
      split
      · next hfits =>
          obtain ⟨hsrc, hdst⟩ := Bool.and_eq_true_iff.mp hfits
          have hjoins (x y : Tuple) := @joins_iff env gid cx.catalog v h.near h.far near far
            (instanceOf_end hc.wellFormed henv hnear hgivenNear hsrc)
            (instanceOf_end hc.wellFormed henv hfar hgivenFar hdst) x y
          constructor
          · rintro ⟨x, y, hx, hy, hi, hj, -, heq⟩
            exact ⟨x, y, hi, hj, (hjoins x y).mpr ⟨hx, hy, heq⟩⟩
          · rintro ⟨x, y, hi, hj, hxy⟩
            obtain ⟨hx, hy, heq⟩ := (hjoins x y).mp hxy
            exact ⟨x, y, hx, hy, hi, hj, hfits, heq⟩
      · next hfits => simp [hfits, Reading.Relates]
  | false =>
      have hagainst : ¬ orientation cx.catalog v h.dir near far = true := by simp [horient]
      have hgivenNear (hgiven : virtualEnd v h.dir false = some near) (_ : h.near = none) :
          near = v.dstType := (virtualEnd_near hgiven).trans (if_neg hagainst)
      have hgivenFar (hgiven : virtualEnd v h.dir true = some far) (_ : h.far = none) :
          far = v.srcType := (virtualEnd_far hgiven).trans (if_neg hagainst)
      simp only [Bool.false_eq_true, if_false, satisfies_joinPreds, hupdate, Function.update_self]
      split
      · next hfits =>
          obtain ⟨hsrc, hdst⟩ := Bool.and_eq_true_iff.mp hfits
          have hjoins (x y : Tuple) := @joins_iff env gid cx.catalog v h.far h.near far near
            (instanceOf_end hc.wellFormed henv hfar hgivenFar hsrc)
            (instanceOf_end hc.wellFormed henv hnear hgivenNear hdst) y x
          constructor
          · rintro ⟨x, y, hx, hy, hi, hj, -, heq⟩
            exact ⟨x, y, hi, hj, (hjoins x y).mpr ⟨hy, hx, heq⟩⟩
          · rintro ⟨x, y, hi, hj, hxy⟩
            obtain ⟨hy, hx, heq⟩ := (hjoins x y).mp hxy
            exact ⟨x, y, hx, hy, hi, hj, hfits, heq⟩
      · next hfits => simp [hfits, Reading.Relates]

/-- A virtual hop with an end of no type is refused. -/
theorem matchedPairs_untyped (hc : Declared cx.catalog) {v : VirtualRel}
    (hv : virtualOf cx.catalog gid h.types = some v)
    (hnone : endType cx.catalog gid h.near (virtualEnd v h.dir false) = none ∨
      endType cx.catalog gid h.far (virtualEnd v h.dir true) = none) :
    ∃ e, matchedPairs env cx gid h = .error e := by
  have himplied (farEnd : Bool) : implied cx.catalog gid h farEnd = virtualEnd v h.dir farEnd := by
    simp [implied, hv]
  obtain ⟨xs, ys, -, -, hcompile⟩ := @compileMatch_hop cx gid h
  obtain ⟨e, hjoin⟩ := @joinVirtualRel_untyped cx h (endsState cx gid h xs ys) ⟨"n", 1⟩ ⟨"n", 2⟩ v
    (by
      rw [aliasTid_near, aliasTid_far, nearMatch, farMatch, himplied, himplied,
        hc.tid_endLabels hv, hc.tid_endLabels hv]
      exact hnone)
  rw [joinRel_virtual hv, hjoin] at hcompile
  refine ⟨e, ?_⟩
  unfold matchedPairs
  rw [hcompile]
  rfl

/-- The entry of an ordinary hop. -/
def hopItem (cx : Context) (gid : Int) (h : HopPattern) : FromItem :=
  ⟨.cross, .hop ⟨"n", 1⟩ (hopDir h.dir) (crossed cx gid h) (crossedTemporal cx gid h), ⟨"u", 4⟩, []⟩

theorem mem_scan {c : Catalog} {label : Option String} {x : Tuple} :
    x ∈ (LabelMatch.scan (resolveLabelSet c gid label.toList)).rows env emptyScope ∧
      resolveLabelSet c gid label.toList ≠ .nothing ↔ EndRow env c gid label x := by
  cases label with
  | none => exact and_iff_left (by simp [resolveLabelSet])
  | some l =>
      rw [Option.toList_some, resolveLabelSet_singleton]
      cases hl : tryTypeId c gid l with
      | none => simp [EndRow, hl]
      | some t => simp [EndRow, hl, LabelMatch.scan, Rel.rows, InstanceOf]

theorem endLabels_none {c : Catalog} {label : Option String} :
    endLabels c label none = label.toList := by
  cases label <;> rfl

/-- The row of an ordinary hop: an end, a neighbour and its edge, and the other
end. -/
theorem mem_extendAll_hop {s : Scope} :
    s ∈ extendAll env [nearItem cx gid h, hopItem cx gid h, farItem cx gid h] emptyScope ↔
      ∃ x ∈ (LabelMatch.scan (nearMatch cx gid h)).rows env emptyScope,
        ∃ z ∈ (hopItem cx gid h).rel.rows env (Function.update emptyScope ⟨"n", 1⟩ x),
          ∃ y ∈ (LabelMatch.scan (farMatch cx gid h)).rows env emptyScope,
            s = Function.update (Function.update (Function.update emptyScope ⟨"n", 1⟩ x)
              ⟨"u", 4⟩ z) ⟨"n", 2⟩ y := by
  simp only [extendAll_cons, extendAll_nil, List.mem_flatMap, List.mem_singleton,
    @mem_extend_plain env (nearItem cx gid h) rfl (by simp [nearItem]),
    @mem_extend_plain env (hopItem cx gid h) rfl (by simp [hopItem]),
    @mem_extend_plain env (farItem cx gid h) rfl (by simp [farItem])]
  constructor
  · rintro ⟨s₁, ⟨x, hx, rfl⟩, s₂, ⟨z, hz, rfl⟩, s₃, ⟨y, hy, rfl⟩, rfl⟩
    exact ⟨x, hx, z, hz, y, by rwa [farItem, scan_rows] at hy, rfl⟩
  · rintro ⟨x, hx, z, hz, y, hy, rfl⟩
    exact ⟨_, ⟨x, hx, rfl⟩, _, ⟨z, hz, rfl⟩, _, ⟨y, by rwa [farItem, scan_rows], rfl⟩, rfl⟩

theorem hopRows_eq {x : Tuple} {i : Int} (hx : x "id" = .int i) :
    (hopItem cx gid h).rel.rows env (Function.update emptyScope ⟨"n", 1⟩ x) =
      (hopPairs env i (hopDir h.dir) (crossed cx gid h) (crossedTemporal cx gid h)).map
        hopTuple := by
  simp [hopItem, Rel.rows, hx, asInt]

/-- The far end is tied to the neighbour the hop found. -/
theorem holds_neighbour {s : Scope} {a u : Alias} {j k : Int} (hj : s a "id" = .int j)
    (hk : s u "nbr" = .int k) : Holds env s (equals (idOf a) (.col u "nbr")) ↔ j = k := by
  simp [Holds, equals, idOf, SqlExpr.eval, SqlExpr.evals, SqlOp.apply, strict, accepts, hj, hk,
    env.pg.equal_int]

/-- A hop that is not a virtual one matches what adjacency relates. -/
theorem matchedPairs_stored (hv : virtualOf cx.catalog gid h.types = none) :
    ∃ pairs, matchedPairs env cx gid h = .ok pairs ∧ ∀ i j, (Val.int i, Val.int j) ∈ pairs ↔
      Relates env cx gid h .stored i j := by
  have himplied (farEnd : Bool) : implied cx.catalog gid h farEnd = none := by
    simp [implied, hv]
  obtain ⟨xs, ys, hxs, hys, hcompile⟩ := @compileMatch_hop cx gid h
  have hrel : joinRel cx ⟨"n", 1⟩ h.rel ⟨"n", 2⟩ false (endsState cx gid h xs ys) =
      joinHop cx ⟨"n", 1⟩ h.rel ⟨"n", 2⟩ false (endsState cx gid h xs ys) := by
    have hgid : (endsState cx gid h xs ys).gid = gid := rfl
    simp only [joinRel, virtualRelOf_rel, hgid, hv]
    rfl
  obtain ⟨hop, hjoin⟩ := @joinHop_plain cx h (endsState cx gid h xs ys) ⟨"n", 1⟩ ⟨"n", 2⟩ rfl rfl
  rw [hrel, hjoin] at hcompile
  obtain ⟨pairs, hpairs, hmem⟩ := @matchedPairs_of_compiled env cx gid h _ hcompile (by
    intro it hit
    have hthree : it ∈ [nearItem cx gid h, hopItem cx gid h, farItem cx gid h] := hit
    simp only [List.mem_cons, List.not_mem_nil, or_false] at hthree
    rcases hthree with rfl | rfl | rfl <;> rfl)
  refine ⟨pairs, hpairs, fun i j => (hmem i j).trans ?_⟩
  have hrows : (∃ s ∈ extendAll env [nearItem cx gid h, hopItem cx gid h, farItem cx gid h]
      emptyScope, Satisfies env s (xs ++ ys ++ [equals (idOf ⟨"n", 2⟩) (.col ⟨"u", 4⟩ "nbr")]) ∧
        s ⟨"n", 1⟩ "id" = .int i ∧ s ⟨"n", 2⟩ "id" = .int j) ↔
      Relates env cx gid h .stored i j := by
    have hnear : nearMatch cx gid h = resolveLabelSet cx.catalog gid h.near.toList := by
      rw [nearMatch, himplied, endLabels_none]
    have hfar : farMatch cx gid h = resolveLabelSet cx.catalog gid h.far.toList := by
      rw [farMatch, himplied, endLabels_none]
    simp only [satisfies_append, satisfies_singleton, hxs, hys, mem_extendAll_hop]
    constructor
    · rintro ⟨s, ⟨x, hx, z, hz, y, hy, rfl⟩, ⟨⟨hnearSome, hfarSome⟩, hkeys⟩, hi, hj⟩
      have hxi : x "id" = .int i := by simpa using hi
      have hyj : y "id" = .int j := by simpa using hj
      rw [hopRows_eq hxi] at hz
      obtain ⟨u, hu, rfl⟩ := List.mem_map.mp hz
      obtain rfl : j = u.1 := (holds_neighbour (by simpa using hj) (by simp [hopTuple])).mp hkeys
      rw [hnear] at hx hnearSome
      rw [hfar] at hy hfarSome
      exact ⟨x, y, hxi, hyj, mem_scan.mp ⟨hx, hnearSome⟩, mem_scan.mp ⟨hy, hfarSome⟩, u.2, hu⟩
    · rintro ⟨x, y, hxi, hyj, hx, hy, e, he⟩
      obtain ⟨hx, hnearSome⟩ := mem_scan.mpr hx
      obtain ⟨hy, hfarSome⟩ := mem_scan.mpr hy
      rw [← hnear] at hx hnearSome
      rw [← hfar] at hy hfarSome
      refine ⟨_, ⟨x, hx, hopTuple (j, e), ?_, y, hy, rfl⟩,
        ⟨⟨hnearSome, hfarSome⟩, ?_⟩, by simpa using hxi, by simpa using hyj⟩
      · rw [hopRows_eq hxi]
        exact List.mem_map_of_mem he
      · exact (holds_neighbour (by simpa using hyj) (by simp [hopTuple])).mpr rfl
  exact hrows

end Rows

section Exactness

variable {env : Env} {cx : Context} {gid : Int} {h : HopPattern}

theorem joinReading_cases (c : Catalog) (v : VirtualRel) (dir : Dir) (near far : Int) :
    joinReading c v dir near far = .link (.virtual v (orientation c v dir near far)) ∨
      joinReading c v dir near far = .nothing := by
  dsimp only [joinReading]
  by_cases hfits : (isA c (if orientation c v dir near far = true then near else far) v.srcType &&
      isA c (if orientation c v dir near far = true then far else near) v.dstType) = true
  · exact .inl (if_pos hfits)
  · exact .inr (if_neg hfits)

/-- A compiled hop matches what its reading relates, unless it is refused. -/
theorem matchedPairs_reading (hc : Declared cx.catalog)
    (henv : env.db.schema.catalog = cx.catalog) :
    (reading cx.catalog gid h = .refused ∧ ∃ e, matchedPairs env cx gid h = .error e) ∨
      (reading cx.catalog gid h ≠ .refused ∧ ∃ pairs, matchedPairs env cx gid h = .ok pairs ∧
        ∀ i j, (Val.int i, Val.int j) ∈ pairs ↔
          (reading cx.catalog gid h).Relates env cx gid h i j) := by
  unfold reading
  cases hv : virtualOf cx.catalog gid h.types with
  | none => exact .inr ⟨by simp, matchedPairs_stored hv⟩
  | some v =>
      dsimp only
      cases hnear : endType cx.catalog gid h.near (virtualEnd v h.dir false) with
      | none => exact .inl ⟨rfl, matchedPairs_untyped hc hv (.inl hnear)⟩
      | some near =>
          cases hfar : endType cx.catalog gid h.far (virtualEnd v h.dir true) with
          | none => exact .inl ⟨rfl, matchedPairs_untyped hc hv (.inr hfar)⟩
          | some far =>
              refine .inr ⟨?_, matchedPairs_typed hc henv hv hnear hfar⟩
              rcases joinReading_cases cx.catalog v h.dir near far with hr | hr <;> simp [hr]

theorem orientation_follows {c : Catalog} {v : VirtualRel} {dir : Dir} {near far : Int} :
    Follows dir (orientation c v dir near far) := by
  cases dir <;> simp [Follows, orientation]

/-- What a compiled hop reads is a relationship the hop is about. -/
theorem covers_of_reading (hc : Declared cx.catalog) {k : Link}
    (h' : reading cx.catalog gid h = .link k) : Covers cx.catalog gid h k := by
  unfold reading at h'
  split at h'
  · obtain rfl := Reading.link.inj h'
    trivial
  · next v hv =>
      obtain ⟨name, htypes, hname, hself⟩ := virtualOf_eq_some hv
      split at h'
      · next near far hnear hfar =>
          rcases joinReading_cases cx.catalog v h.dir near far with hr | hr
          · obtain rfl := Reading.link.inj (hr.symm.trans h')
            refine ⟨hself, ?_, orientation_follows⟩
            have hgraph := tryTypeId_mem_graphTypes hname
            rw [NamedBy, if_neg (by simp [htypes])]
            exact ⟨name, by simp [htypes], v.typeId, hname,
              (ogIsSubtype_iff hc.wellFormed hgraph).mpr .refl⟩
          · cases hr.symm.trans h'
      · cases h'

/-- A hop is exact when it is refused, or when no two nodes stand in a
relationship it is about other than through the one its compiled form reads. -/
theorem hopExact_iff (hc : Declared cx.catalog) (henv : env.db.schema.catalog = cx.catalog) :
    HopExact env cx gid h ↔
      reading cx.catalog gid h = .refused ∨
        ∀ k i j, Covers cx.catalog gid h k → Relates env cx gid h k i j →
          (reading cx.catalog gid h).Relates env cx gid h i j := by
  unfold HopExact
  obtain ⟨hrefused, e, he⟩ | ⟨haccepted, pairs, hpairs, hmem⟩ :=
    @matchedPairs_reading env cx gid h hc henv
  · rw [he]
    exact iff_of_true trivial (.inl hrefused)
  · rw [hpairs]
    simp only [haccepted, false_or, hmem]
    constructor
    · exact fun hexact k i j hk hij => (hexact i j).mpr ⟨k, hk, hij⟩
    · intro hread i j
      refine ⟨fun hij => ?_, fun ⟨k, hk, hij⟩ => hread k i j hk hij⟩
      cases hr : reading cx.catalog gid h with
      | refused => exact absurd hr haccepted
      | nothing => simp [hr, Reading.Relates] at hij
      | link k => exact ⟨k, covers_of_reading hc hr, by simpa [hr, Reading.Relates] using hij⟩

end Exactness

section Purchases

/-- Purchases and suppliers that share a code, and a stored relationship type
beside the virtual one. -/
def purchaseCatalog : Catalog :=
  { TypeCatalog.empty with
    graphs := [(1, "fab")]
    types := [⟨1, 1, "Purchase", .entity, some (nodeTable 1)⟩,
      ⟨2, 1, "Supplier", .entity, some (nodeTable 2)⟩,
      ⟨3, 1, "FROM_SUPPLIER", .relation, some (edgeTable 3)⟩,
      ⟨4, 1, "WATCHES", .relation, some (edgeTable 4)⟩]
    labels := [⟨1, 0, 1, 1, 1025, 0⟩, ⟨2, 0, 1, 2049, 3073, 0⟩, ⟨3, 0, 1, 4097, 5121, 0⟩,
      ⟨4, 0, 1, 6145, 7169, 0⟩]
    properties := [⟨1, "supplier_code", "text", "p_supplier_code", false, false⟩,
      ⟨2, "code", "text", "p_code", false, false⟩]
    virtualRels := [⟨3, 1, "supplier_code", 2, "code"⟩] }

def purchaseRow : TypedRow := ⟨10, none, [("p_supplier_code", .text "S1")], none⟩

def supplierRow : TypedRow := ⟨20, none, [("p_code", .text "S1")], none⟩

def purchaseEnv : Env where
  pg := Postgres.literal
  db := ⟨⟨purchaseCatalog, [(nodeTable 1, purchaseRow), (nodeTable 2, supplierRow)]⟩, [],
    [⟨10, 1⟩, ⟨20, 2⟩], [], [], []⟩
  asOf _ := []
  params := .obj []
  segment := []

def purchaseContext : Context := ⟨purchaseCatalog, fun _ => false⟩

/-- `(:Purchase)-[:FROM_SUPPLIER|WATCHES]->(:Supplier)`. -/
def eitherHop : HopPattern :=
  ⟨some "Purchase", ["FROM_SUPPLIER", "WATCHES"], .out, some "Supplier"⟩

theorem purchase_declared : Declared purchaseCatalog where
  wellFormed :=
    { typeIds := by decide
      parents := by simp [purchaseCatalog, TypeCatalog.empty]
      labelled := by
        intro gid
        by_cases hgid : gid = 1
        · subst hgid
          rfl
        · have hnone : graphTypes purchaseCatalog gid = [] := by
            simp [graphTypes, purchaseCatalog, Ne.symm hgid]
          rw [if_pos hnone]
          simp [purchaseCatalog, Ne.symm hgid] }
  names := by simp [purchaseCatalog]
  ends := by
    intro v hv gid hgid
    obtain rfl : v = ⟨3, 1, "supplier_code", 2, "code"⟩ := by simpa [purchaseCatalog] using hv
    by_cases hone : gid = 1
    · subst hone
      decide
    · simp [graphTypes, purchaseCatalog, Ne.symm hone] at hgid

theorem instanceOf_purchase : InstanceOf purchaseEnv 1 (viewTuple 1 purchaseRow) := by
  refine mem_viewRows.mpr ⟨⟨1, 1, "Purchase", .entity, some (nodeTable 1)⟩, by simp [purchaseEnv, purchaseCatalog],
    nodeTable 1, rfl, by decide, by decide, purchaseRow, ?_, rfl⟩
  simp [sourceRows, isTemporal, purchaseEnv, purchaseCatalog, TypeCatalog.empty, rowsOf, nodeTable]

theorem instanceOf_supplier : InstanceOf purchaseEnv 2 (viewTuple 2 supplierRow) := by
  refine mem_viewRows.mpr ⟨⟨2, 1, "Supplier", .entity, some (nodeTable 2)⟩, by simp [purchaseEnv, purchaseCatalog],
    nodeTable 2, rfl, by decide, by decide, supplierRow, ?_, rfl⟩
  simp [sourceRows, isTemporal, purchaseEnv, purchaseCatalog, TypeCatalog.empty, rowsOf, nodeTable]

theorem purchase_joins : Joins purchaseEnv purchaseCatalog 1
    ⟨3, 1, "supplier_code", 2, "code"⟩ (some "Purchase") (some "Supplier")
    (viewTuple 1 purchaseRow) (viewTuple 2 supplierRow) where
  src := instanceOf_purchase
  dst := instanceOf_supplier
  srcLabel := by
    intro l hl
    obtain rfl := Option.some.inj hl
    exact ⟨1, by simp [tryTypeId, purchaseCatalog], instanceOf_purchase⟩
  dstLabel := by
    intro l hl
    obtain rfl := Option.some.inj hl
    exact ⟨2, by simp [tryTypeId, purchaseCatalog], instanceOf_supplier⟩
  equal := by
    have hsrc : readType purchaseCatalog 1 (some "Purchase") 1 = 1 := by
      simp [readType, tryTypeId, purchaseCatalog, isA]
    have hdst : readType purchaseCatalog 1 (some "Supplier") 2 = 2 := by
      simp [readType, tryTypeId, purchaseCatalog, isA]
    have hone : ogSubtypes purchaseCatalog 1 = [1] := by decide
    have htwo : ogSubtypes purchaseCatalog 2 = [2] := by decide
    have hkeyColumn : viewProperty? purchaseCatalog 1 "supplier_code" =
        some ("p_supplier_code", "text") := by
      unfold viewProperty?
      rw [hone]
      simp [purchaseCatalog]
    have hcodeColumn : viewProperty? purchaseCatalog 2 "code" = some ("p_code", "text") := by
      unfold viewProperty?
      rw [htwo]
      simp [purchaseCatalog]
    have hkey : propValue purchaseCatalog 1 "supplier_code" (viewTuple 1 purchaseRow) =
        .text "S1" := by
      simp [propValue, hkeyColumn, viewTuple, purchaseRow, TypedRow.col]
    have hcode : propValue purchaseCatalog 2 "code" (viewTuple 2 supplierRow) = .text "S1" := by
      simp [propValue, hcodeColumn, viewTuple, supplierRow, TypedRow.col]
    show accepts (strict purchaseEnv.pg.equal
      (propValue purchaseCatalog (readType purchaseCatalog 1 (some "Purchase") 1) "supplier_code"
        (viewTuple 1 purchaseRow))
      (propValue purchaseCatalog (readType purchaseCatalog 1 (some "Supplier") 2) "code"
        (viewTuple 2 supplierRow))) = true
    rw [hsrc, hdst, hkey, hcode]
    simp [strict, accepts, purchaseEnv, Postgres.literal]

/-- The purchase and its supplier share a code, and naming a second type hides
it. -/
theorem eitherHop_omits : ¬ HopExact purchaseEnv purchaseContext 1 eitherHop := by
  intro hexact
  have hplain : virtualOf purchaseContext.catalog 1 eitherHop.types = none := rfl
  obtain ⟨pairs, hpairs, hmem⟩ := @matchedPairs_stored purchaseEnv purchaseContext 1 eitherHop hplain
  rw [HopExact, hpairs] at hexact
  have hjoined : Relates purchaseEnv purchaseContext 1 eitherHop
      (.virtual ⟨3, 1, "supplier_code", 2, "code"⟩ true) 10 20 :=
    ⟨viewTuple 1 purchaseRow, viewTuple 2 supplierRow, rfl, rfl, purchase_joins⟩
  have hcovered : Covers purchaseCatalog 1 eitherHop
      (.virtual ⟨3, 1, "supplier_code", 2, "code"⟩ true) := by
    refine ⟨rfl, ?_, rfl⟩
    rw [NamedBy, if_neg (by simp [eitherHop])]
    exact ⟨"FROM_SUPPLIER", by simp [eitherHop], 3, by simp [tryTypeId, purchaseCatalog], by decide⟩
  obtain ⟨x, y, -, -, -, -, e, he⟩ := (hmem 10 20).mp ((hexact 10 20).mpr ⟨_, hcovered, hjoined⟩)
  have hnone (tid : Int) : temporalPairs purchaseEnv 10 (hopDir eitherHop.dir) tid = [] := by
    unfold temporalPairs
    split <;> simp [purchaseEnv]
  simp [hopPairs, hnone] at he
  simp [purchaseEnv] at he

theorem hopExact_purchases :
    HopExact purchaseEnv purchaseContext 1 eitherHop ↔
      reading purchaseCatalog 1 eitherHop = .refused ∨
        ∀ k i j, Covers purchaseCatalog 1 eitherHop k →
          Relates purchaseEnv purchaseContext 1 eitherHop k i j →
            (reading purchaseCatalog 1 eitherHop).Relates purchaseEnv purchaseContext 1 eitherHop i j :=
  hopExact_iff purchase_declared rfl

end Purchases

end OntologicalDb.VirtualHops
