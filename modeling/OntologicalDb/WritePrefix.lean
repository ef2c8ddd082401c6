import Mathlib.Data.List.Sort
import OntologicalDb.CompileSteps
import OntologicalDb.FromRows
import OntologicalDb.SortedProjections

/-!
The rows a write query runs on: those of its reading clauses, compiled by a
loop of its own, and the rows a read query computes for the same clauses.
-/

namespace OntologicalDb.WritePrefix

open OntologicalDb.CompileExpr
open OntologicalDb.CompilePattern
open OntologicalDb.CompileSteps
open OntologicalDb.CypherSyntax
open OntologicalDb.ExceptRules
open OntologicalDb.Projection
open OntologicalDb.RowDocuments
open OntologicalDb.SortedProjections
open OntologicalDb.Sql
open OntologicalDb.TypeCatalog
open OntologicalDb.TypedTables
open OntologicalDb.Values

/-- The values a row gives to variables. -/
abbrev BindingRow := String → Option Json

def bindingRow (names : List String) (vals : List Val) : BindingRow := fun v =>
  (lastNamed (names.zip vals) v).map toJson

/-- Variables bound so far, in a stable order. -/
def boundVars (binds : Binds) : List String := (binds.map (·.1)).insertionSort (· ≤ ·)

def varsProjection (vs : List String) : Projection :=
  ⟨vs.map fun v => ⟨.var v, some v⟩, false, [], none, none⟩

section Reading

variable (cx : Context) (le : Val → Val → Bool)

/-- Every column crosses a `WITH` as jsonb. -/
def segmentTuple (names : List String) (vals : List Val) : Tuple := fun column =>
  ((lastNamed (names.zip vals) column).map jsonbOf).getD .null

/-- Nothing but the projected names is visible after a `WITH`. -/
def afterWith (names : List String) (st : Compiler) : Compiler :=
  let (w, st) := fresh "w" st
  { st with
    entries := [⟨.first, .segment, w, []⟩]
    wheres := []
    relIds := []
    binds := names.foldl (fun binds v => insertBind v (.scalar (.col w v)) binds) [] }

/-- `WITH … WHERE` filters what the horizon produced. -/
def compileWith (names : List String) (where_ : Option Expr) (st : Compiler) :
    Except String Compiler :=
  let st := afterWith names st
  match where_ with
  | some w => do
      let (p, n) ← expr cx.catalog st.binds (some "bool") st.n w
      return { st with wheres := st.wheres ++ [p], n := n }
  | none => .ok st

/-- The read path over reading clauses: compile them, and let every `WITH`
yield the rows of the next segment. -/
def Reads : List Clause → Sql.Env → Compiler → Sql.Env → Compiler → Prop
  | [], env, st, env', st' => env' = env ∧ st' = st
  | .match_ patterns optional where_ :: cs, env, st, env', st' =>
      ∃ st1, compileMatch cx patterns optional where_ st = .ok st1 ∧ Reads cs env st1 env' st'
  | .unwind e v :: cs, env, st, env', st' =>
      ∃ st1, compileUnwind cx e v st = .ok st1 ∧ Reads cs env st1 env' st'
  | .with_ proj where_ :: cs, env, st, env', st' =>
      ∃ sel n rows out st1, buildCore cx.catalog st.binds proj st.n = .ok (sel, n) ∧
        selectRows env st.entries st.wheres = .ok rows ∧ sel.Yields env le rows out ∧
        compileWith cx sel.names where_ { st with n := n } = .ok st1 ∧
        Reads cs { env with segment := out.map (segmentTuple sel.names) } st1 env' st'
  | _ :: _, _, _, _, _ => False

/-- The rows a projection of the compiled clauses yields. -/
def Selected (env : Sql.Env) (st : Compiler) (proj : Projection) (out : List BindingRow) : Prop :=
  ∃ rows sel n vals, selectRows env st.entries st.wheres = .ok rows ∧
    buildCore cx.catalog st.binds proj st.n = .ok (sel, n) ∧ sel.Yields env le rows vals ∧
    out = vals.map (bindingRow sel.names)

/-- The rows a read query binds its variables to. -/
def ReadRows (env : Sql.Env) (gid : Int) (clauses : List Clause) (out : List BindingRow) : Prop :=
  ∃ env' st, Reads cx le clauses env (Compiler.start gid) env' st ∧
    Selected cx le env' st (varsProjection (boundVars st.binds)) out

end Reading

section Writing

variable (cx : Context) (le : Val → Val → Bool)

/-- What the loop over the reading clauses of a write query has compiled. -/
structure PrefixState where
  st : Compiler
  withProj : Option Projection

def isPlainItem (i : ReturnItem) : Bool :=
  match i.expr with
  | .var v => i.asName.getD v = v
  | _ => false

/-- PostgreSQL reads an untyped string literal in a `WHERE` as a boolean. -/
def whereSql (w : Expr) (p : SqlExpr) : SqlExpr :=
  match w with
  | .lit (.str _) => .app (.cast "bool") ["", "::bool"] [p]
  | _ => p

def writeWhere (where_ : Option Expr) (st : Compiler) : Except String Compiler :=
  match where_ with
  | some w => do
      let (p, n) ← expr cx.catalog st.binds none st.n w
      return { st with wheres := st.wheres ++ [whereSql w p], n := n }
  | none => .ok st

/-- A `MATCH` of a write query opens no scope for an optional one. -/
def writeMatch (patterns : List Pattern) (optional : Bool) (where_ : Option Expr)
    (st : Compiler) : Except String Compiler := do
  let st ← compilePatterns cx optional patterns { st with relIds := [] }
  writeWhere cx where_ st

def writeClause (ps : PrefixState) : Clause → Except String PrefixState
  | .match_ patterns optional where_ => do
      return { ps with st := ← writeMatch cx patterns optional where_ ps.st }
  | .unwind e v => do return { ps with st := ← compileUnwind cx e v ps.st }
  | .with_ proj where_ =>
      if ps.withProj.isSome then .error "only one WITH is supported before a write clause"
      else if !proj.items.all isPlainItem then
        .error ("WITH before a write clause may only carry plain variables — " ++
          "expressions, aliases and aggregates are not supported here")
      else do return ⟨← writeWhere cx where_ ps.st, some proj⟩
  | _ => .ok ps

def writeClauses : List Clause → PrefixState → Except String PrefixState
  | [], ps => .ok ps
  | clause :: cs, ps => do writeClauses cs (← writeClause cx ps clause)

def isWith : Clause → Bool
  | .with_ _ _ => true
  | _ => false

def writePrefix (gid : Int) (clauses : List Clause) : Except String PrefixState := do
  let ps ← writeClauses cx clauses ⟨Compiler.start gid, none⟩
  if ps.withProj.isSome && !clauses.getLast?.any isWith then
    .error "WITH must be the last read clause before a write clause"
  else return ps

/-- The rows the write clauses of a query run on. -/
def WriteRows (env : Sql.Env) (gid : Int) (clauses : List Clause) (out : List BindingRow) :
    Prop :=
  ∃ ps, writePrefix cx gid clauses = .ok ps ∧
    let proj := ps.withProj.getD (varsProjection (boundVars ps.st.binds))
    if proj.items = [] then out = [fun _ => none] else Selected cx le env ps.st proj out

end Writing

section Plain

variable {cx : Context} {st st' : Compiler}

theorem kept_closed : Kept fun st => st.optional = none where
  constrain _ h := by rw [constrain_plain h]; exact h
  count _ h := h
  entry _ h := h
  join _ h := by rwa [noteOptionalJoin_plain h]
  move _ h := by rw [moveJoinToEnd, h]; rfl
  bind v _ _ h := by cases v <;> exact h
  relIds _ h := h
  typed _ h := h
  reach _ h := h

/-- PostgreSQL refuses a `WHERE` that is a text or a document. -/
def booleanWhere : Expr → Bool
  | .param _ | .var _ => false
  | _ => true

theorem expr_hint {w : Expr} (hboolean : booleanWhere w = true) (hlit : ∀ s, w ≠ .lit (.str s))
    {binds : Binds} {n : Nat} :
    expr cx.catalog binds (some "bool") n w = expr cx.catalog binds none n w := by
  cases w with
  | lit l =>
      cases l with
      | str s => exact absurd rfl (hlit s)
      | _ => rfl
  | param p => exact nomatch hboolean
  | var v => exact nomatch hboolean
  | list xs =>
      have hstrip : stripArray "bool" = none := by decide
      rw [expr, expr]
      simp [hstrip]
  | _ =>
      unfold expr
      rfl

/-- A literal text is cast where a hint asks for it, and by PostgreSQL where
none does. -/
theorem writeWhere_some (hclosed : st.optional = none) {w : Expr} (hw : booleanWhere w = true) :
    writeWhere cx (some w) st = (do
      let (p, n) ← expr cx.catalog st.binds (some "bool") st.n w
      return constrain p { st with n := n }) := by
  have hplain (p : SqlExpr) (n : Nat) : constrain p { st with n := n } =
      { st with wheres := st.wheres ++ [p], n := n } :=
    @constrain_plain { st with n := n } _ hclosed
  simp only [writeWhere, hplain]
  by_cases hlit : ∃ s, w = .lit (.str s)
  · obtain ⟨s, rfl⟩ := hlit
    rfl
  · have hsql (p : SqlExpr) : whereSql w p = p := by
      unfold whereSql
      split
      · exact absurd ⟨_, rfl⟩ hlit
      · rfl
    rw [expr_hint hw fun s hs => hlit ⟨s, hs⟩]
    simp only [hsql]

/-- A `MATCH` is compiled alike on both paths. -/
theorem writeMatch_iff (hclosed : st.optional = none) {patterns : List Pattern}
    {where_ : Option Expr} (hwhere : ∀ w, where_ = some w → booleanWhere w = true) :
    writeMatch cx patterns false where_ st = .ok st' ↔
      compileMatch cx patterns false where_ st = .ok st' := by
  unfold writeMatch compileMatch
  simp only [Bool.false_eq_true, if_false, bind_eq_ok, pure_eq_ok, exists_eq_right]
  apply exists_congr
  intro st1
  apply and_congr_right
  intro hpatterns
  have hclosed1 : st1.optional = none :=
    @Kept.compilePatterns _ _ { st with relIds := [] } _ kept_closed hclosed _ _ hpatterns
  cases where_ with
  | none => rfl
  | some w => rw [writeWhere_some hclosed1 (hwhere w rfl)]

theorem compileMatch_closed (hclosed : st.optional = none) {patterns : List Pattern}
    {where_ : Option Expr} (h : compileMatch cx patterns false where_ st = .ok st') :
    st'.optional = none := by
  unfold compileMatch at h
  simp only [Bool.false_eq_true, if_false, bind_eq_ok, pure_eq_ok, exists_eq_right] at h
  obtain ⟨st1, hpatterns, h⟩ := h
  have hclosed1 : st1.optional = none :=
    @Kept.compilePatterns _ _ { st with relIds := [] } _ kept_closed hclosed _ _ hpatterns
  cases where_ with
  | none =>
      obtain rfl := Except.ok.inj h
      exact hclosed1
  | some w =>
      obtain ⟨⟨p, n⟩, -, h⟩ := bind_eq_ok.mp h
      obtain rfl := pure_eq_ok.mp h
      rw [@constrain_plain { st1 with n := n } _ hclosed1]
      exact hclosed1

theorem compileUnwind_closed (hclosed : st.optional = none) {e : Expr} {v : String}
    (h : compileUnwind cx e v st = .ok st') : st'.optional = none := by
  obtain ⟨⟨src, n⟩, -, h⟩ := bind_eq_ok.mp h
  obtain rfl := pure_eq_ok.mp h
  exact hclosed

end Plain

section Optional

variable {cx : Context}

/-- A predicate that reads no column. -/
def Columnless (p : SqlExpr) : Prop := ∀ a, mentionsAlias p.text a = false

theorem occursAsWord_eq_false {needle : List Char} {c : Char} (hc : c ∈ needle) :
    ∀ {cs : List Char} (prev : Option Char), c ∉ cs → occursAsWord needle prev cs = false := by
  intro cs
  induction cs with
  | nil => intro prev _; rfl
  | cons d cs ih =>
      intro prev hcs
      have hnot : needle.isPrefixOf (d :: cs) = false := by
        rw [Bool.eq_false_iff, ne_eq, List.isPrefixOf_iff_prefix]
        exact fun hprefixOf => hcs (hprefixOf.subset hc)
      rw [occursAsWord, hnot, Bool.false_and, Bool.false_or]
      exact ih _ fun hmem => hcs (List.mem_cons_of_mem _ hmem)

theorem columnless_of_no_dot {p : SqlExpr} (h : '.' ∉ p.text.toList) : Columnless p := by
  intro a
  apply occursAsWord_eq_false _ none h
  simp

theorem columnless_false : Columnless (boolLit false) := by
  apply columnless_of_no_dot
  decide

theorem columnless_requireCurrent : Columnless
    (.app .requireCurrent ["og_require_current('an unlabelled node pattern')"] []) := by
  apply columnless_of_no_dot
  decide

/-- The state inside the scope of an OPTIONAL MATCH, and the state without a
scope: what the scope holds back reads no column. -/
structure Scoping (wheres : List SqlExpr) (scope : OptionalScope) (st st' : Compiler) : Prop where
  same : st' = { st with wheres := wheres, optional := some scope }
  closed : st.optional = none
  held : st.wheres = wheres ++ scope.preds
  columnless : ∀ p ∈ scope.preds, Columnless p

/-- The two states at one point of an OPTIONAL MATCH. -/
def Scoped (wheres : List SqlExpr) (st st' : Compiler) : Prop :=
  ∃ scope, Scoping wheres scope st st'

variable {wheres : List SqlExpr} {st st' x x' : Compiler}

theorem Scoped.constrain (h : Scoped wheres st st') {p : SqlExpr} (hp : Columnless p) :
    Scoped wheres (constrain p st) (constrain p st') := by
  obtain ⟨scope, rfl, hclosed, hheld, hcolumnless⟩ := h
  refine ⟨{ scope with preds := scope.preds ++ [p] }, ?_, ?_, ?_, ?_⟩
  · rw [constrain_plain hclosed]
    rfl
  · rw [constrain_plain hclosed]
    exact hclosed
  · rw [constrain_plain hclosed, hheld, List.append_assoc]
  · intro q hq
    rcases List.mem_append.mp hq with hq | hq
    · exact hcolumnless q hq
    · rwa [List.mem_singleton.mp hq]

theorem Scoped.noteOptionalJoin (h : Scoped wheres st st') (a : Alias) :
    Scoped wheres (noteOptionalJoin a st) (noteOptionalJoin a st') := by
  obtain ⟨scope, rfl, hclosed, hheld, hcolumnless⟩ := h
  rw [noteOptionalJoin_plain hclosed]
  exact ⟨{ scope with joins := scope.joins ++ [(a, st.entries.length - 1)] },
    rfl, hclosed, hheld, hcolumnless⟩

theorem Scoped.fresh (h : Scoped wheres st st') (pfx : String) :
    Scoped wheres (fresh pfx st).2 (fresh pfx st').2 := by
  obtain ⟨scope, rfl, hclosed, hheld, hcolumnless⟩ := h
  exact ⟨scope, rfl, hclosed, hheld, hcolumnless⟩

theorem Scoped.pushEntry (h : Scoped wheres st st') (it : FromItem) :
    Scoped wheres (pushEntry it st) (pushEntry it st') := by
  obtain ⟨scope, rfl, hclosed, hheld, hcolumnless⟩ := h
  exact ⟨scope, rfl, hclosed, hheld, hcolumnless⟩

theorem Scoped.insertVar (h : Scoped wheres st st') (v : Option String) (b : Bind) :
    Scoped wheres (insertVar v b st) (insertVar v b st') := by
  obtain ⟨scope, rfl, hclosed, hheld, hcolumnless⟩ := h
  cases v with
  | none => exact ⟨scope, rfl, hclosed, hheld, hcolumnless⟩
  | some v => exact ⟨scope, rfl, hclosed, hheld, hcolumnless⟩

theorem Scoped.typed (h : Scoped wheres st st') (a : Alias) (tid : Option Int) :
    Scoped wheres { st with aliasTid := (a, tid) :: st.aliasTid }
      { st' with aliasTid := (a, tid) :: st'.aliasTid } := by
  obtain ⟨scope, rfl, hclosed, hheld, hcolumnless⟩ := h
  exact ⟨scope, rfl, hclosed, hheld, hcolumnless⟩

theorem Scoped.reach (h : Scoped wheres st st') (b : Bool) :
    Scoped wheres { st with reachabilityOnly := b } { st' with reachabilityOnly := b } := by
  obtain ⟨scope, rfl, hclosed, hheld, hcolumnless⟩ := h
  exact ⟨scope, rfl, hclosed, hheld, hcolumnless⟩

theorem Scoped.either (h : Scoped wheres st st') (hx : Scoped wheres x x') {b : Prop}
    [Decidable b] : Scoped wheres (if b then st else x) (if b then st' else x') := by
  split
  · exact h
  · exact hx

theorem Scoped.fields (h : Scoped wheres st st') :
    st'.gid = st.gid ∧ st'.binds = st.binds ∧ st'.entries = st.entries ∧ st'.n = st.n := by
  obtain ⟨scope, rfl, -⟩ := h
  exact ⟨rfl, rfl, rfl, rfl⟩

theorem Scoped.guardUntypedNodes (h : Scoped wheres st st') :
    Scoped wheres (guardUntypedNodes cx st) (guardUntypedNodes cx st') := by
  unfold CompilePattern.guardUntypedNodes
  rw [h.fields.1]
  exact h.either (h.constrain columnless_requireCurrent)

/-- A value a variable holds is a document, not an element. -/
def HoldsValue (binds : Binds) (v : String) : Prop := ∃ sql, lookupBind binds v = some (.scalar sql)

/-- Compiling a step ends on both paths, in scoped states, and no further
variable holds a value. -/
def BothEnd (wheres : List SqlExpr) (st : Compiler) {β : Type}
    (r r' : Except String (β × Compiler)) : Prop :=
  ∃ b x x', r = .ok (b, x) ∧ r' = .ok (b, x') ∧ Scoped wheres x x' ∧
    ∀ v, HoldsValue x.binds v → HoldsValue st.binds v

theorem holdsValue_insertVar {v : Option String} {b : Bind} (hb : ∀ sql, b ≠ .scalar sql)
    {w : String} (h : HoldsValue (CompilePattern.insertVar v b st).binds w) :
    HoldsValue st.binds w := by
  cases v with
  | none => exact h
  | some v =>
      obtain ⟨sql, h⟩ := h
      change lookupBind (insertBind v b st.binds) w = _ at h
      rw [lookupBind_insertBind] at h
      split at h
      · exact absurd (Option.some.inj h) (hb sql)
      · exact ⟨sql, h⟩

theorem joinFor_congr (h : st'.entries = st.entries) {optional : Bool} :
    joinFor st' optional = joinFor st optional := by
  unfold joinFor
  rw [h]

theorem bothEnd_bindAgain (h : Scoped wheres st st') {np : NodePat} (hprops : np.props = [])
    (a : Alias) (tid : Option Int) :
    BothEnd wheres st (bindAgain cx np a tid st) (bindAgain cx np a tid st') := by
  obtain ⟨var, labels, props⟩ := np
  obtain rfl : props = [] := hprops
  have hgid := h.fields.1
  refine ⟨_, _, _, rfl, rfl, ?_, ?_⟩
  · dsimp only
    rw [hgid]
    split
    · exact h
    · split
      · exact h.constrain columnless_false
      · exact (h.constrain columnless_false).either h
      · exact h
  · intro v hv
    dsimp only at hv
    split at hv
    · exact hv
    · split at hv
      · rwa [constrain_binds] at hv
      · split at hv
        · rwa [constrain_binds] at hv
        · exact hv
      · exact hv

/-- The scan of an optional node, from the state its guard leaves. -/
def scan (resolved : LabelMatch) (tid : Option Int) (rel : Rel) (a : Alias) (var : Option String)
    (st : Compiler) : Compiler :=
  let join := joinFor st true
  let st := if resolved = .nothing ∧ join ≠ .left then constrain (boolLit false) st else st
  let on := if resolved = .nothing ∧ join = .left then [boolLit false] else []
  let st := CompilePattern.noteOptionalJoin a (CompilePattern.pushEntry ⟨join, rel, a, on⟩ st)
  CompilePattern.insertVar var (.node a tid) { st with aliasTid := (a, tid) :: st.aliasTid }

theorem Scoped.scan (h : Scoped wheres st st') (resolved : LabelMatch) (tid : Option Int)
    (rel : Rel) (a : Alias) (var : Option String) :
    Scoped wheres (scan resolved tid rel a var st) (scan resolved tid rel a var st') := by
  unfold WritePrefix.scan
  dsimp only
  rw [joinFor_congr h.fields.2.2.1]
  apply Scoped.insertVar
  apply Scoped.typed
  apply Scoped.noteOptionalJoin
  apply Scoped.pushEntry
  exact (h.constrain columnless_false).either h

theorem bindFresh_scan (cx : Context) (gid : Int) (var : Option String) (labels : List String) :
    ∃ resolved tid rel, ∀ st : Compiler, st.gid = gid →
      bindFresh cx ⟨var, labels, []⟩ true st =
        .ok (⟨"n", st.n + 1⟩, scan resolved tid rel ⟨"n", st.n + 1⟩ var
          (if tid.isNone then guardUntypedNodes cx (fresh "n" st).2 else (fresh "n" st).2)) := by
  unfold bindFresh
  cases hresolved : resolveLabelSet cx.catalog gid labels with
  | type t =>
      refine ⟨.type t, some t, .view t false, fun st hgid => ?_⟩
      rw [hgid, hresolved]
      rfl
  | any =>
      refine ⟨.any, none, .node, fun st hgid => ?_⟩
      rw [hgid, hresolved]
      rfl
  | nothing =>
      refine ⟨.nothing, none, .node, fun st hgid => ?_⟩
      rw [hgid, hresolved]
      rfl

theorem bothEnd_bindFresh (h : Scoped wheres st st') {np : NodePat} (hprops : np.props = []) :
    BothEnd wheres st (bindFresh cx np true st) (bindFresh cx np true st') := by
  obtain ⟨var, labels, props⟩ := np
  obtain rfl : props = [] := hprops
  obtain ⟨resolved, tid, rel, heq⟩ := bindFresh_scan cx st.gid var labels
  rw [heq st rfl, heq st' h.fields.1, h.fields.2.2.2]
  refine ⟨_, _, _, rfl, rfl, ?_, ?_⟩
  · apply Scoped.scan
    exact (h.fresh "n").guardUntypedNodes.either (h.fresh "n")
  · intro v hv
    have hv := holdsValue_insertVar (b := .node _ _) nofun hv
    simpa [apply_ite Compiler.binds] using hv

theorem bothEnd_bindNode (h : Scoped wheres st st') {np : NodePat} (hprops : np.props = [])
    (hvar : ∀ v, np.var = some v → ¬HoldsValue st.binds v) :
    BothEnd wheres st (bindNode cx np true st) (bindNode cx np true st') := by
  unfold bindNode
  rw [h.fields.2.1]
  split
  · next v sql hv =>
    obtain ⟨w, hw, hv⟩ := Option.bind_eq_some_iff.mp hv
    obtain ⟨b, hb, heq⟩ := Option.map_eq_some_iff.mp hv
    obtain ⟨rfl, rfl⟩ := Prod.mk.inj heq
    exact absurd ⟨sql, hb⟩ (hvar _ hw)
  · exact bothEnd_bindAgain h hprops _ _
  · exact bothEnd_bindFresh h hprops

/-- A pattern that only names nodes. -/
def NodesOnly (binds : Binds) (elems : List PatElem) : Prop :=
  ∀ elem ∈ elems, ∃ np, elem = .node np ∧ np.props = [] ∧
    ∀ v, np.var = some v → ¬HoldsValue binds v

theorem NodesOnly.mono {binds binds' : Binds} {elems : List PatElem} (h : NodesOnly binds elems)
    (hvalues : ∀ v, HoldsValue binds' v → HoldsValue binds v) : NodesOnly binds' elems := by
  intro elem helem
  obtain ⟨np, rfl, hprops, hvar⟩ := h elem helem
  exact ⟨np, rfl, hprops, fun v hv hholds => hvar v hv (hvalues v hholds)⟩

theorem inferVirtualLabel_same {elems : List PatElem} {idx : Nat} {np : NodePat} :
    (inferVirtualLabel cx elems idx np st).props = np.props ∧
      (inferVirtualLabel cx elems idx np st).var = np.var := by
  unfold inferVirtualLabel
  dsimp only
  split
  · exact ⟨rfl, rfl⟩
  · split
    · exact ⟨rfl, rfl⟩
    · split
      · exact ⟨rfl, rfl⟩
      · exact ⟨rfl, rfl⟩

theorem inferVirtualLabel_congr (h : Scoped wheres st st') {elems : List PatElem} {idx : Nat}
    {np : NodePat} :
    inferVirtualLabel cx elems idx np st' = inferVirtualLabel cx elems idx np st := by
  obtain ⟨scope, rfl, -⟩ := h
  rfl

theorem bothEnd_compileElems {all elems : List PatElem} {idx : Nat} {ps : PatternState}
    (h : Scoped wheres st st') (hps : ps.pendingRel = none) (hnodes : NodesOnly st.binds elems) :
    BothEnd wheres st (compileElems cx all true elems idx ps st)
      (compileElems cx all true elems idx ps st') := by
  induction elems generalizing idx ps st st' with
  | nil => exact ⟨ps, st, st', rfl, rfl, h, fun v hv => hv⟩
  | cons elem elems ih =>
      obtain ⟨⟨np, rfl, hprops, hvar⟩, hrest⟩ := List.forall_mem_cons.mp hnodes
      have hsame := @inferVirtualLabel_same cx st all idx np
      have hnode : BothEnd wheres st (bindNode cx (inferVirtualLabel cx all idx np st) true st)
          (bindNode cx (inferVirtualLabel cx all idx np st) true st') :=
        bothEnd_bindNode h (hsame.1.trans hprops) (by rw [hsame.2]; exact hvar)
      obtain ⟨a, x, x', hx, hx', hscoped, hvalues⟩ := hnode
      have hpending : (⟨some a, none, ps.hopExprs⟩ : PatternState).pendingRel = none := rfl
      obtain ⟨b, y, y', hy, hy', hscoped', hvalues'⟩ :=
        @ih x x' (idx + 1) _ hscoped hpending (NodesOnly.mono hrest hvalues)
      obtain ⟨prev, pending, hops⟩ := ps
      obtain rfl : pending = none := hps
      refine ⟨b, y, y', ?_, ?_, hscoped', fun v hv => hvalues v (hvalues' v hv)⟩
      · rw [compileElems, compileElem, hx]
        cases prev <;> exact hy
      · rw [compileElems, compileElem, inferVirtualLabel_congr h, hx']
        cases prev <;> exact hy'

theorem bothEnd_compilePattern {p : Pattern} (h : Scoped wheres st st')
    (hnodes : NodesOnly st.binds p.elems) :
    ∃ x x', compilePattern cx p true st = .ok x ∧ compilePattern cx p true st' = .ok x' ∧
      Scoped wheres x x' ∧ ∀ v, HoldsValue x.binds v → HoldsValue st.binds v := by
  have hstart := (h.reach false).either h (b := p.pathVar.isSome)
  have hpending : (⟨none, none, []⟩ : PatternState).pendingRel = none := rfl
  obtain ⟨b, x, x', hx, hx', hscoped, hvalues⟩ :=
    @bothEnd_compileElems cx _ _ _ p.elems p.elems 0 _ hstart hpending
      (by simpa [apply_ite Compiler.binds] using hnodes)
  have hreach : st'.reachabilityOnly = st.reachabilityOnly := by
    obtain ⟨scope, rfl, -⟩ := h
    rfl
  let named (x : Compiler) : Compiler :=
    { CompilePattern.insertVar p.pathVar (.path (pathSql b.hopExprs)) x with
      reachabilityOnly := st.reachabilityOnly }
  refine ⟨named x, named x', ?_, ?_, ?_, ?_⟩
  · rw [compilePattern, hx]
    rfl
  · rw [compilePattern, hx', hreach]
    rfl
  · exact (hscoped.insertVar p.pathVar (.path (pathSql b.hopExprs))).reach _
  · intro v hv
    have hv := hvalues v (holdsValue_insertVar (b := .path _) nofun hv)
    simpa [apply_ite Compiler.binds] using hv

theorem bothEnd_compilePatterns {patterns : List Pattern} (h : Scoped wheres st st')
    (hnodes : ∀ p ∈ patterns, NodesOnly st.binds p.elems) :
    ∃ x x', compilePatterns cx true patterns st = .ok x ∧
      compilePatterns cx true patterns st' = .ok x' ∧ Scoped wheres x x' := by
  induction patterns generalizing st st' with
  | nil => exact ⟨st, st', rfl, rfl, h⟩
  | cons p patterns ih =>
      obtain ⟨hp, hrest⟩ := List.forall_mem_cons.mp hnodes
      obtain ⟨x, x', hx, hx', hscoped, hvalues⟩ := @bothEnd_compilePattern cx _ _ _ _ h hp
      obtain ⟨y, y', hy, hy', hscoped'⟩ := ih hscoped fun q hq => NodesOnly.mono (hrest q hq) hvalues
      refine ⟨y, y', ?_, ?_, hscoped'⟩
      · rw [compilePatterns, hx]
        exact hy
      · rw [compilePatterns, hx']
        exact hy'

theorem placePred_columnless {joins : List (Alias × Nat)} {preds : List SqlExpr}
    (h : ∀ p ∈ preds, Columnless p) :
    preds.foldl (placePred joins) st = { st with wheres := st.wheres ++ preds } := by
  induction preds generalizing st with
  | nil => simp
  | cons p preds ih =>
      obtain ⟨hp, hrest⟩ := List.forall_mem_cons.mp h
      have hplace : placePred joins st p = { st with wheres := st.wheres ++ [p] } := by
        have hnone : (joins.filter fun j => mentionsAlias p.text j.1) = [] :=
          List.filter_eq_nil_iff.mpr fun j _ => by simp [hp j.1]
        unfold placePred
        rw [hnone]
        rfl
      rw [List.foldl_cons, hplace, ih hrest]
      simp

theorem closeOptional_scoped (h : Scoped wheres st st') : closeOptional st' = st := by
  obtain ⟨scope, rfl, hclosed, hheld, hcolumnless⟩ := h
  change scope.preds.foldl (placePred scope.joins) _ = st
  rw [placePred_columnless hcolumnless, ← hheld, ← hclosed]

/-- An OPTIONAL MATCH that constrains nothing. -/
structure Unconditional (binds : Binds) (patterns : List Pattern) (where_ : Option Expr) :
    Prop where
  nodes : ∀ p ∈ patterns, NodesOnly binds p.elems
  noWhere : where_ = none

theorem writeMatch_optional_iff (hclosed : st.optional = none) {patterns : List Pattern}
    {where_ : Option Expr} (hplain : Unconditional st.binds patterns where_) :
    writeMatch cx patterns true where_ st = .ok st' ↔
      compileMatch cx patterns true where_ st = .ok st' := by
  obtain ⟨hnodes, rfl⟩ := hplain
  have hstart : Scoped st.wheres { st with relIds := [] }
      { st with relIds := [], optional := some ⟨[], []⟩ } :=
    ⟨⟨[], []⟩, rfl, hclosed, (List.append_nil _).symm, nofun⟩
  obtain ⟨x, x', hx, hx', hscoped⟩ := @bothEnd_compilePatterns cx _ _ _ _ hstart hnodes
  unfold writeMatch compileMatch
  simp only [if_true]
  rw [hx, hx']
  change Except.ok x = .ok st' ↔ Except.ok (closeOptional x') = .ok st'
  rw [closeOptional_scoped hscoped]

end Optional

section Segments

variable {cx : Context} {le : Val → Val → Bool} {env : Sql.Env} {st : Compiler}
variable {c : Catalog} {binds : Binds} {names vs : List String} {w : Alias}

theorem lookupBind_segment {v : String} :
    lookupBind (names.foldl (fun binds v => insertBind v (.scalar (.col w v)) binds) binds) v =
      if v ∈ names then some (.scalar (.col w v)) else lookupBind binds v := by
  induction names generalizing binds with
  | nil => simp
  | cons name names ih =>
      rw [List.foldl_cons, ih, lookupBind_insertBind]
      by_cases hv : v ∈ names
      · simp [hv]
      · by_cases hname : v = name
        · simp [hname]
        · simp [hv, hname]

theorem mem_boundVars {v : String} : v ∈ boundVars binds ↔ (lookupBind binds v).isSome := by
  unfold boundVars lookupBind
  rw [List.mem_insertionSort, Option.isSome_map, List.find?_isSome]
  simp

theorem itemColumns_vars (h : ∀ v ∈ vs, lookupBind binds v = some (.scalar (.col w v))) {i n : Nat}
    {acc : Columns} :
    itemColumns c binds false (vs.map fun v => ⟨.var v, some v⟩) i acc n =
      .ok (⟨acc.cols ++ (vs.zipIdx i).map fun x => (x.2, SqlExpr.col w x.1), acc.names ++ vs,
        acc.groupBy⟩, n) := by
  induction vs generalizing i acc with
  | nil => simp [itemColumns]
  | cons v vs ih =>
      obtain ⟨hv, hvs⟩ := List.forall_mem_cons.mp h
      have hexpr : exprForOutput c binds n (.var v) = .ok (.col w v, n) := by
        simp [exprForOutput, expr, varSql, varValue, hv, bind, Except.bind, pure, Except.pure]
      rw [List.map_cons, itemColumns]
      simp only [hexpr]
      change itemColumns c binds false (vs.map fun v => ⟨.var v, some v⟩) (i + 1)
        ⟨acc.cols ++ [(i, SqlExpr.col w v)], acc.names ++ [v], acc.groupBy⟩ n = _
      rw [ih hvs]
      simp

/-- The `SELECT` of the variables of a segment. -/
def segmentSelect (w : Alias) (vs : List String) : Select :=
  ⟨false, (vs.zipIdx 0).map fun x => (x.2, SqlExpr.col w x.1), vs, [], [], none, none⟩

theorem buildCore_vars (h : ∀ v ∈ vs, lookupBind binds v = some (.scalar (.col w v))) {n : Nat} :
    buildCore c binds (varsProjection vs) n = .ok (segmentSelect w vs, n) := by
  have hagg : hasAggregateItem (varsProjection vs) = false := by
    simp [hasAggregateItem, varsProjection, Expr.isAggregate]
  unfold buildCore
  rw [hagg]
  simp only [varsProjection, itemColumns_vars h]
  rfl

theorem segmentSelect_tuples {rows : List Scope} :
    (segmentSelect w vs).tuples env rows = rows.map fun s => (vs.map (s w), []) := by
  have hgrouped : (segmentSelect w vs).grouped = false := by
    simp [Select.grouped, segmentSelect, Select.outputs, hasAggregate]
  have hvalues (s : Scope) : (segmentSelect w vs).values env (s, []) = vs.map (s w) :=
    calc (segmentSelect w vs).values env (s, [])
      _ = ((vs.zipIdx 0).map (·.1)).map (s w) := by
        change ((vs.zipIdx 0).map _).map _ = _
        rw [List.map_map, List.map_map]
        rfl
      _ = vs.map (s w) := by rw [List.zipIdx_map_fst]
  unfold Select.tuples Select.units
  rw [hgrouped]
  change (rows.map fun s => (s, [])).map
    (fun u => ((segmentSelect w vs).values env u, [])) = _
  rw [List.map_map]
  apply List.map_congr_left
  intro s _
  exact congrArg (fun vals => (vals, [])) (hvalues s)

theorem yields_segment {rows : List Scope} {out : List (List Val)} :
    (segmentSelect w vs).Yields env le rows out ↔ out.Perm (rows.map fun s => vs.map (s w)) := by
  unfold Select.Yields
  rw [segmentSelect_tuples]
  constructor
  · rintro ⟨sorted, hperm, -, rfl⟩
    have hmap := hperm.map (·.1)
    rwa [List.map_map] at hmap
  · intro hperm
    refine ⟨out.map fun vals => (vals, []), ?_, ?_, ?_⟩
    · have hmap := hperm.map fun vals => (vals, ([] : List Val))
      rwa [List.map_map] at hmap
    · apply List.pairwise_of_forall
      intro x y
      rfl
    · change out = (out.map _).map _
      rw [List.map_map]
      exact (List.map_id _).symm

theorem lastNamed_zip_map {f : String → Val} {v : String} (hv : v ∈ vs) :
    lastNamed (vs.zip (vs.map f)) v = some (f v) := by
  have hzip : vs.zip (vs.map f) = vs.map fun v => (v, f v) := by
    clear hv
    induction vs with
    | nil => rfl
    | cons v vs ih => rw [List.map_cons, List.zip_cons_cons, ih, List.map_cons]
  unfold lastNamed
  rw [hzip, ← List.map_reverse, List.find?_map, Option.map_map]
  have hfound : vs.reverse.find? (fun w => w = v) = some v := by
    cases hfind : vs.reverse.find? (fun w => w = v) with
    | none => exact absurd (by simp) (List.find?_eq_none.mp hfind v (List.mem_reverse.mpr hv))
    | some w =>
        have hw := List.find?_some hfind
        rw [of_decide_eq_true hw]
  exact congrArg (Option.map _) hfound

theorem lastNamed_eq_none {β : Type} {entries : List (String × β)} {v : String} :
    lastNamed entries v = none ↔ v ∉ entries.map (·.1) := by
  unfold lastNamed
  rw [Option.map_eq_none_iff, List.find?_eq_none]
  constructor
  · intro hnone hmem
    obtain ⟨entry, hentry, hname⟩ := List.mem_map.mp hmem
    exact hnone entry (List.mem_reverse.mpr hentry) (decide_eq_true hname)
  · intro hnot entry hentry hname
    exact hnot (List.mem_map.mpr ⟨entry, List.mem_reverse.mp hentry, of_decide_eq_true hname⟩)

theorem toJson_jsonbOf {x : Val} : toJson (jsonbOf x) = toJson x := by
  cases x <;> rfl

/-- A variable of a segment has the value its column was made of. -/
theorem bindingRow_segment {vals : List Val} (hvs : ∀ v, v ∈ vs ↔ v ∈ names)
    (hlength : vals.length = names.length) :
    bindingRow vs (vs.map (segmentTuple names vals)) = bindingRow names vals := by
  funext v
  unfold bindingRow
  have hnames : (names.zip vals).map (·.1) = names :=
    List.map_fst_zip (by rw [hlength])
  by_cases hv : v ∈ names
  · obtain ⟨x, hx⟩ : ∃ x, lastNamed (names.zip vals) v = some x := by
      apply Option.ne_none_iff_exists'.mp
      rw [ne_eq, lastNamed_eq_none, hnames]
      exact fun hnot => hnot hv
    rw [lastNamed_zip_map ((hvs v).mpr hv), hx, Option.map_some, Option.map_some, segmentTuple, hx]
    exact congrArg some toJson_jsonbOf
  · have hleft : lastNamed (vs.zip (vs.map (segmentTuple names vals))) v = none := by
      rw [lastNamed_eq_none, List.map_fst_zip (by simp)]
      exact fun hmem => hv ((hvs v).mp hmem)
    have hright : lastNamed (names.zip vals) v = none := by
      rwa [lastNamed_eq_none, hnames]
    rw [hleft, hright]

theorem rows_segment {env : Sql.Env} :
    selectRows env [⟨.first, .segment, w, []⟩] [] =
      .ok (env.segment.map (Function.update emptyScope w)) := by
  have hwell : ∀ it ∈ [(⟨.first, .segment, w, []⟩ : FromItem)], it.WellFormed := by
    intro it hit
    rw [List.mem_singleton.mp hit]
    exact fun _ => rfl
  unfold selectRows
  rw [if_pos hwell]
  simp [extendAll, FromItem.extend, FromItem.candidates, Rel.rows, Satisfies]

theorem starColumns_length {vars : List String} {acc columns : Columns}
    (hacc : acc.cols.length = acc.names.length) (h : starColumns c binds vars acc = .ok columns) :
    columns.cols.length = columns.names.length := by
  induction vars generalizing acc with
  | nil =>
      obtain rfl := Except.ok.inj h
      exact hacc
  | cons v vars ih =>
      obtain ⟨sql, -, h⟩ := bind_eq_ok.mp h
      apply ih _ h
      rw [List.length_append, List.length_append, hacc]
      rfl

/-- The columns of a projection have as many values as names. -/
theorem itemColumns_length {hasAgg : Bool} {items : List ReturnItem} {i n m : Nat}
    {acc columns : Columns} (hacc : acc.cols.length = acc.names.length)
    (h : itemColumns c binds hasAgg items i acc n = .ok (columns, m)) :
    columns.cols.length = columns.names.length := by
  induction items generalizing i n acc with
  | nil =>
      obtain ⟨rfl, -⟩ := Prod.mk.inj (Except.ok.inj h)
      exact hacc
  | cons item items ih =>
      unfold itemColumns at h
      split at h
      · obtain ⟨acc', hstar, h⟩ := bind_eq_ok.mp h
        exact ih (starColumns_length hacc hstar) h
      · obtain ⟨⟨sql, n'⟩, -, h⟩ := bind_eq_ok.mp h
        apply ih _ h
        rw [List.length_append, List.length_append, hacc]
        rfl

theorem mem_of_mem_pageOf {β : Type} {limit skip : Option SqlExpr} {out : List β} {x : β}
    (h : x ∈ pageOf env limit skip out) : x ∈ out := by
  unfold pageOf at h
  dsimp only at h
  split at h
  · have h := List.mem_of_mem_take h
    split at h
    · exact List.mem_of_mem_drop h
    · exact h
  · split at h
    · exact List.mem_of_mem_drop h
    · exact h

theorem length_of_yields {proj : Projection} {n m : Nat} {sel : Select} {rows : List Scope}
    {out : List (List Val)} (h : buildCore c binds proj n = .ok (sel, m))
    (hout : sel.Yields env le rows out) : ∀ vals ∈ out, vals.length = sel.names.length := by
  obtain ⟨⟨columns, n1⟩, hcolumns, h⟩ := bind_eq_ok.mp h
  obtain ⟨⟨orderCols, groupBy, n2⟩, -, h⟩ := bind_eq_ok.mp h
  obtain ⟨⟨limit, n3⟩, -, h⟩ := bind_eq_ok.mp h
  obtain ⟨⟨skip, n4⟩, -, h⟩ := bind_eq_ok.mp h
  obtain ⟨rfl, -⟩ := Prod.mk.inj (pure_eq_ok.mp h)
  obtain ⟨sorted, hperm, -, rfl⟩ := hout
  intro vals hvals
  obtain ⟨tuple, htuple, rfl⟩ := List.mem_map.mp (mem_of_mem_pageOf hvals)
  have htuple := hperm.mem_iff.mp htuple
  have hunit : ∃ u, tuple.1 = Select.values env
      ⟨proj.distinct, columns.cols, columns.names, groupBy, orderCols, limit, skip⟩ u := by
    unfold Select.tuples at htuple
    dsimp only at htuple
    split at htuple
    · obtain ⟨u, -, rfl⟩ := List.mem_map.mp (List.mem_dedup.mp htuple)
      exact ⟨u, rfl⟩
    · obtain ⟨u, -, rfl⟩ := List.mem_map.mp htuple
      exact ⟨u, rfl⟩
  obtain ⟨u, hu⟩ := hunit
  rw [hu, Select.values, List.length_map]
  exact itemColumns_length rfl hcolumns

theorem selected_afterWith {env : Sql.Env} {out : List BindingRow} :
    Selected cx le env (afterWith names st) (varsProjection (boundVars (afterWith names st).binds))
        out ↔
      ∃ vals : List (List Val),
        vals.Perm (env.segment.map fun t => (boundVars (afterWith names st).binds).map t) ∧
          out = vals.map (bindingRow (boundVars (afterWith names st).binds)) := by
  generalize hvs : boundVars (afterWith names st).binds = vs
  have hbound : ∀ v ∈ vs, lookupBind (afterWith names st).binds v =
      some (.scalar (.col ⟨"w", st.n + 1⟩ v)) := by
    intro v hv
    rw [← hvs, mem_boundVars] at hv
    have hlookup : lookupBind (afterWith names st).binds v =
        if v ∈ names then some (.scalar (.col ⟨"w", st.n + 1⟩ v)) else none :=
      lookupBind_segment
    rw [hlookup] at hv ⊢
    split at hv
    · next hmem => rw [if_pos hmem]
    · exact nomatch hv
  have hrows : selectRows env (afterWith names st).entries (afterWith names st).wheres =
      .ok (env.segment.map (Function.update emptyScope ⟨"w", st.n + 1⟩)) := rows_segment
  have hmap : (env.segment.map (Function.update emptyScope ⟨"w", st.n + 1⟩)).map
      (fun s => vs.map (s ⟨"w", st.n + 1⟩)) = env.segment.map fun t => vs.map t := by
    rw [List.map_map]
    apply List.map_congr_left
    intro t _
    rw [Function.comp_apply, Function.update_self]
  constructor
  · rintro ⟨rows, sel, n, vals, hselect, hbuild, hyields, rfl⟩
    obtain rfl := Except.ok.inj (hrows.symm.trans hselect)
    obtain ⟨rfl, -⟩ := Prod.mk.inj (Except.ok.inj ((buildCore_vars hbound).symm.trans hbuild))
    rw [yields_segment, hmap] at hyields
    exact ⟨vals, hyields, rfl⟩
  · rintro ⟨vals, hperm, rfl⟩
    refine ⟨_, _, _, vals, hrows, buildCore_vars hbound, ?_, rfl⟩
    rwa [yields_segment, hmap]

theorem bindingRows_segment {vals : List (List Val)}
    (hlength : ∀ v ∈ vals, v.length = names.length) :
    ((vals.map (segmentTuple names)).map
        fun t => (boundVars (afterWith names st).binds).map t).map
        (bindingRow (boundVars (afterWith names st).binds)) =
      vals.map (bindingRow names) := by
  rw [List.map_map, List.map_map]
  apply List.map_congr_left
  intro v hv
  apply bindingRow_segment _ (hlength v hv)
  intro name
  have hlookup : lookupBind (afterWith names st).binds name =
      if name ∈ names then some (.scalar (.col ⟨"w", st.n + 1⟩ name)) else none :=
    lookupBind_segment
  rw [mem_boundVars, hlookup]
  split
  · next hmem => exact ⟨fun _ => hmem, fun _ => rfl⟩
  · next hmem => exact ⟨nofun, fun h => absurd h hmem⟩

end Segments

section Agreement

variable {cx : Context} {le : Val → Val → Bool}

/-- Reading clauses that both paths compile alike: an OPTIONAL MATCH constrains
nothing, a `WITH` has no `WHERE`, and some variable is bound. -/
def Agreeing (cx : Context) : List Clause → Compiler → Prop
  | [], st => st.binds = [] → st.entries = [] ∧ st.wheres = []
  | .match_ patterns optional where_ :: cs, st =>
      (if optional = true then Unconditional st.binds patterns where_
        else ∀ w, where_ = some w → booleanWhere w = true) ∧
      ∀ st', compileMatch cx patterns optional where_ st = .ok st' → Agreeing cx cs st'
  | .unwind e v :: cs, st => ∀ st', compileUnwind cx e v st = .ok st' → Agreeing cx cs st'
  | [.with_ proj none], _ => proj.items ≠ []
  | _ :: _, _ => False

/-- What the write path does with the clauses it has compiled. -/
def WritesFrom (cx : Context) (le : Val → Val → Bool) (env : Sql.Env) (ps : PrefixState)
    (out : List BindingRow) : Prop :=
  let proj := ps.withProj.getD (varsProjection (boundVars ps.st.binds))
  if proj.items = [] then out = [fun _ => none] else Selected cx le env ps.st proj out

/-- The rows of two paths: those of either one are those of the other, in some
order. -/
def SameBags (P Q : List BindingRow → Prop) : Prop :=
  (∀ out, P out → ∃ out', Q out' ∧ out.Perm out') ∧ (∀ out', Q out' → ∃ out, P out ∧ out.Perm out')

def ReadsFrom (cx : Context) (le : Val → Val → Bool) (env : Sql.Env) (cs : List Clause)
    (st : Compiler) (out : List BindingRow) : Prop :=
  ∃ env' st', Reads cx le cs env st env' st' ∧
    Selected cx le env' st' (varsProjection (boundVars st'.binds)) out

variable {env : Sql.Env} {st : Compiler}

theorem sameBags_end (hnamed : st.binds = [] → st.entries = [] ∧ st.wheres = []) :
    SameBags (WritesFrom cx le env ⟨st, none⟩) (ReadsFrom cx le env [] st) := by
  have hreads (out : List BindingRow) : ReadsFrom cx le env [] st out ↔
      Selected cx le env st (varsProjection (boundVars st.binds)) out := by
    constructor
    · rintro ⟨env', st', ⟨rfl, rfl⟩, hout⟩
      exact hout
    · intro hout
      exact ⟨env, st, ⟨rfl, rfl⟩, hout⟩
  by_cases hbinds : st.binds = []
  · obtain ⟨hentries, hwheres⟩ := hnamed hbinds
    have hvars : boundVars st.binds = [] := by
      rw [hbinds]
      rfl
    have hwrites (out : List BindingRow) :
        WritesFrom cx le env ⟨st, none⟩ out ↔ out = [fun _ => none] := by
      unfold WritesFrom
      simp [hvars, varsProjection]
    have hselected (out : List BindingRow) :
        Selected cx le env st (varsProjection []) out ↔ out = [fun _ => none] := by
      have hrows : selectRows env st.entries st.wheres = .ok [emptyScope] := by
        rw [hentries, hwheres]
        simp [selectRows, extendAll, Satisfies]
      have hbuild : buildCore cx.catalog st.binds (varsProjection []) st.n =
          .ok (segmentSelect ⟨"w", 0⟩ [], st.n) :=
        buildCore_vars fun v hv => absurd hv List.not_mem_nil
      constructor
      · rintro ⟨rows, sel, n, vals, hselect, hsel, hyields, rfl⟩
        obtain rfl := Except.ok.inj (hrows.symm.trans hselect)
        obtain ⟨rfl, -⟩ := Prod.mk.inj (Except.ok.inj (hbuild.symm.trans hsel))
        rw [yields_segment] at hyields
        rw [List.perm_singleton.mp hyields]
        rfl
      · rintro rfl
        exact ⟨_, _, _, [[]], hrows, hbuild, yields_segment.mpr (List.Perm.refl _), rfl⟩
    constructor
    · intro out hout
      exact ⟨out, (hreads out).mpr (hvars ▸ (hselected out).mpr ((hwrites out).mp hout)), .refl _⟩
    · intro out hout
      exact ⟨out, (hwrites out).mpr ((hselected out).mp (hvars ▸ (hreads out).mp hout)), .refl _⟩
  · have hitems : (varsProjection (boundVars st.binds)).items ≠ [] := by
      obtain ⟨x, binds, hcons⟩ := List.exists_cons_of_ne_nil hbinds
      have hx : x.1 ∈ boundVars st.binds := by
        unfold boundVars
        rw [List.mem_insertionSort, hcons]
        exact List.mem_cons_self
      exact List.ne_nil_of_mem (List.mem_map.mpr ⟨x.1, hx, rfl⟩)
    have hwrites (out : List BindingRow) : WritesFrom cx le env ⟨st, none⟩ out ↔
        Selected cx le env st (varsProjection (boundVars st.binds)) out := by
      unfold WritesFrom
      simp only [Option.getD_none, if_neg hitems]
    constructor
    · intro out hout
      exact ⟨out, (hreads out).mpr ((hwrites out).mp hout), .refl _⟩
    · intro out hout
      exact ⟨out, (hwrites out).mpr ((hreads out).mp hout), .refl _⟩

/-- A `WITH` of the write path selects what the segment of the read path holds. -/
theorem sameBags_with {proj : Projection} (hitems : proj.items ≠ []) :
    SameBags (WritesFrom cx le env ⟨st, some proj⟩) (ReadsFrom cx le env [.with_ proj none] st) := by
  have hwrites (out : List BindingRow) :
      WritesFrom cx le env ⟨st, some proj⟩ out ↔ Selected cx le env st proj out := by
    unfold WritesFrom
    simp only [Option.getD_some, if_neg hitems]
  constructor
  · intro out hout
    obtain ⟨rows, sel, n, vals, hselect, hbuild, hyields, rfl⟩ := (hwrites out).mp hout
    have hlength := length_of_yields hbuild hyields
    refine ⟨_, ⟨_, _, ⟨sel, n, rows, vals, _, hbuild, hselect, hyields, rfl, rfl, rfl⟩, ?_⟩,
      .of_eq (@bindingRows_segment { st with n := n } _ _ hlength).symm⟩
    exact selected_afterWith.mpr ⟨_, .refl _, rfl⟩
  · rintro out ⟨env', st', ⟨sel, n, rows, vals, st1, hbuild, hselect, hyields, hwith, rfl, rfl⟩, hout⟩
    obtain rfl := Except.ok.inj hwith
    obtain ⟨vals', hperm, rfl⟩ := selected_afterWith.mp hout
    refine ⟨_, (hwrites _).mpr ⟨rows, sel, n, vals, hselect, hbuild, hyields, rfl⟩, ?_⟩
    have hrows := @bindingRows_segment { st with n := n } _ _ (length_of_yields hbuild hyields)
    rw [← hrows]
    exact (hperm.map _).symm

theorem writeMatch_closed {st' : Compiler} (hclosed : st.optional = none)
    {patterns : List Pattern} (h : writeMatch cx patterns true none st = .ok st') :
    st'.optional = none := by
  obtain ⟨st1, hpatterns, h⟩ := bind_eq_ok.mp h
  obtain rfl := Except.ok.inj h
  exact @Kept.compilePatterns _ _ { st with relIds := [] } _ kept_closed hclosed _ _ hpatterns

theorem sameBags_clauses {cs : List Clause} {ps : PrefixState} (hclosed : st.optional = none)
    (hagreeing : Agreeing cx cs st) (hwrite : writeClauses cx cs ⟨st, none⟩ = .ok ps) :
    SameBags (WritesFrom cx le env ps) (ReadsFrom cx le env cs st) := by
  induction cs generalizing st with
  | nil =>
      obtain rfl := Except.ok.inj hwrite
      exact sameBags_end hagreeing
  | cons clause cs ih =>
      obtain ⟨ps1, hclause, htail⟩ := bind_eq_ok.mp hwrite
      cases clause with
      | match_ patterns optional where_ =>
          obtain ⟨st1, hmatch, hclause⟩ := bind_eq_ok.mp hclause
          obtain rfl := pure_eq_ok.mp hclause
          obtain ⟨hplain, hnext⟩ := hagreeing
          have hcompiled : compileMatch cx patterns optional where_ st = .ok st1 ∧
              st1.optional = none := by
            cases optional with
            | true =>
                have hread := (writeMatch_optional_iff hclosed hplain).mp hmatch
                obtain rfl := hplain.noWhere
                exact ⟨hread, writeMatch_closed hclosed hmatch⟩
            | false =>
                have hread := (writeMatch_iff hclosed hplain).mp hmatch
                exact ⟨hread, compileMatch_closed hclosed hread⟩
          have hrest := ih hcompiled.2 (hnext st1 hcompiled.1) htail
          have hreads (out : List BindingRow) :
              ReadsFrom cx le env (.match_ patterns optional where_ :: cs) st out ↔
                ReadsFrom cx le env cs st1 out := by
            constructor
            · rintro ⟨env', st', ⟨st2, hst2, hreads⟩, hout⟩
              obtain rfl := Except.ok.inj (hcompiled.1.symm.trans hst2)
              exact ⟨env', st', hreads, hout⟩
            · rintro ⟨env', st', hreads, hout⟩
              exact ⟨env', st', ⟨st1, hcompiled.1, hreads⟩, hout⟩
          rwa [funext fun out => propext (hreads out)]
      | unwind e v =>
          obtain ⟨st1, hunwind, hclause⟩ := bind_eq_ok.mp hclause
          obtain rfl := pure_eq_ok.mp hclause
          have hrest := ih (compileUnwind_closed hclosed hunwind) (hagreeing st1 hunwind) htail
          have hreads (out : List BindingRow) :
              ReadsFrom cx le env (.unwind e v :: cs) st out ↔ ReadsFrom cx le env cs st1 out := by
            constructor
            · rintro ⟨env', st', ⟨st2, hst2, hreads⟩, hout⟩
              obtain rfl := Except.ok.inj (hunwind.symm.trans hst2)
              exact ⟨env', st', hreads, hout⟩
            · rintro ⟨env', st', hreads, hout⟩
              exact ⟨env', st', ⟨st1, hunwind, hreads⟩, hout⟩
          rwa [funext fun out => propext (hreads out)]
      | with_ proj where_ =>
          cases where_ with
          | some w => exact hagreeing.elim
          | none =>
              cases cs with
              | cons clause cs => exact hagreeing.elim
              | nil =>
                  obtain rfl := Except.ok.inj htail
                  have hps : ps1 = ⟨st, some proj⟩ := by
                    change (if !proj.items.all isPlainItem then Except.error _
                      else Except.ok (⟨st, some proj⟩ : PrefixState)) = _ at hclause
                    split at hclause
                    · simp at hclause
                    · exact (Except.ok.inj hclause).symm
                  rw [hps]
                  exact sameBags_with hagreeing
      | _ => exact hagreeing.elim

/-- The write path runs on the rows the read path computes. -/
theorem rows_agree {gid : Int} {clauses : List Clause}
    (hagreeing : Agreeing cx clauses (Compiler.start gid))
    (hwrite : ∃ ps, writePrefix cx gid clauses = .ok ps) :
    SameBags (WriteRows cx le env gid clauses) (ReadRows cx le env gid clauses) := by
  obtain ⟨ps, hps⟩ := hwrite
  have hwrites (out : List BindingRow) :
      WriteRows cx le env gid clauses out ↔ WritesFrom cx le env ps out := by
    constructor
    · rintro ⟨ps', hps', hout⟩
      obtain rfl := Except.ok.inj (hps.symm.trans hps')
      exact hout
    · intro hout
      exact ⟨ps, hps, hout⟩
  rw [funext fun out => propext (hwrites out)]
  obtain ⟨ps', hclauses, hps⟩ := bind_eq_ok.mp hps
  split at hps
  · exact nomatch hps
  · obtain rfl := pure_eq_ok.mp hps
    exact sameBags_clauses rfl hagreeing hclauses

end Agreement

section Unmatched

def emptyContext : Context := ⟨TypeCatalog.empty, fun _ => false⟩

/-- `UNWIND [1] AS x`. -/
def unwindOne : Clause := .unwind (.list [.lit (.int 1)]) "x"

/-- `OPTIONAL MATCH (n) WHERE n.id = 1`. -/
def optionalOne : Clause :=
  .match_ [⟨none, [.node ⟨some "n", [], []⟩]⟩] true
    (some (.binary .eq (.prop (.var "n") "id") (.lit (.int 1))))

theorem sameBags_unwindOne :
    SameBags (WriteRows emptyContext (fun _ _ => true) noTypesEnv 0 [unwindOne])
      (ReadRows emptyContext (fun _ _ => true) noTypesEnv 0 [unwindOne]) := by
  refine rows_agree ?_ ⟨_, rfl⟩
  intro st hst
  obtain rfl := Except.ok.inj hst
  exact nofun

def optionalBinds : Binds :=
  [("n", .node ⟨"n", 2⟩ none), ("x", .scalar (.col ⟨"uw", 1⟩ "v"))]

def idIsOne : SqlExpr :=
  .app .eq ["(", " = ", ")"] [idOf ⟨"n", 2⟩, litSql none (.int 1)]

def unmatchedEntries (on : List SqlExpr) : List FromItem :=
  [⟨.first, .unwind (jsonArraySql [jsonbArg (.lit (.int 1)) (litSql none (.int 1))]), ⟨"uw", 1⟩, []⟩,
    ⟨.left, .node, ⟨"n", 2⟩, on⟩]

def unmatchedState (on wheres : List SqlExpr) : Compiler :=
  ⟨0, optionalBinds, unmatchedEntries on, wheres, 2, [], none, false, [(⟨"n", 2⟩, none)]⟩

/-- The row without a match. -/
def unmatchedRow : Scope :=
  Function.update (Function.update emptyScope ⟨"uw", 1⟩ (elementTuple (.num ⟨1, 0⟩))) ⟨"n", 2⟩
    nullTuple

def unmatchedSelect : Select :=
  ⟨false, [(0, .app .nodeJson ["og_node_json(", ")"] [idOf ⟨"n", 2⟩]), (1, .col ⟨"uw", 1⟩ "v")],
    ["n", "x"], [], [], none, none⟩

theorem writePrefix_unmatched : writePrefix emptyContext 0 [unwindOne, optionalOne] =
    .ok ⟨unmatchedState [] [idIsOne], none⟩ := rfl

theorem compileMatch_unmatched {st st' : Compiler}
    (hunwind : compileUnwind emptyContext (.list [.lit (.int 1)]) "x" (Compiler.start 0) = .ok st)
    (hmatch : compileMatch emptyContext [⟨none, [.node ⟨some "n", [], []⟩]⟩] true
      (some (.binary .eq (.prop (.var "n") "id") (.lit (.int 1)))) st = .ok st') :
    st' = unmatchedState [idIsOne] [] := by
  obtain rfl := Except.ok.inj hunwind
  obtain rfl := Except.ok.inj hmatch
  rfl

theorem boundVars_optionalBinds : boundVars optionalBinds = ["n", "x"] := by decide

theorem buildCore_unmatched : buildCore TypeCatalog.empty optionalBinds
    (varsProjection (boundVars optionalBinds)) 2 = .ok (unmatchedSelect, 2) := by
  rw [boundVars_optionalBinds]
  rfl

theorem rows_unmatched_write :
    selectRows noTypesEnv (unmatchedEntries []) [idIsOne] = .ok [] := rfl

theorem rows_unmatched_read :
    selectRows noTypesEnv (unmatchedEntries [idIsOne]) [] = .ok [unmatchedRow] := rfl

theorem writeRows_unmatched :
    WriteRows emptyContext (fun _ _ => true) noTypesEnv 0 [unwindOne, optionalOne] [] := by
  refine ⟨_, writePrefix_unmatched, ?_⟩
  have hitems : (varsProjection (boundVars optionalBinds)).items ≠ [] := by
    rw [boundVars_optionalBinds]
    exact List.cons_ne_nil _ _
  change if (varsProjection (boundVars optionalBinds)).items = [] then _ else _
  rw [if_neg hitems]
  exact ⟨[], unmatchedSelect, 2, [], rows_unmatched_write, buildCore_unmatched,
    ⟨[], .refl _, .nil, rfl⟩, rfl⟩

theorem length_readRows_unmatched {out : List BindingRow}
    (h : ReadRows emptyContext (fun _ _ => true) noTypesEnv 0 [unwindOne, optionalOne] out) :
    out.length = 1 := by
  obtain ⟨env', st', ⟨st1, hunwind, st2, hmatch, rfl, rfl⟩, rows, sel, n, vals, hselect, hbuild,
    ⟨sorted, hperm, -, rfl⟩, rfl⟩ := h
  obtain rfl := compileMatch_unmatched hunwind hmatch
  obtain rfl := Except.ok.inj (rows_unmatched_read.symm.trans hselect)
  obtain ⟨rfl, -⟩ := Prod.mk.inj (Except.ok.inj (buildCore_unmatched.symm.trans hbuild))
  have hone : sorted.length = 1 := hperm.length_eq
  rw [List.length_map]
  change (sorted.map _).length = 1
  rw [List.length_map, hone]

/-- An outer row without a match stays on the read path only. -/
theorem not_sameBags_optionalOne :
    ¬∀ (cx : Context) (le : Val → Val → Bool) (env : Sql.Env) (gid : Int) (clauses : List Clause),
      (∃ out, WriteRows cx le env gid clauses out) → (∃ out, ReadRows cx le env gid clauses out) →
      SameBags (WriteRows cx le env gid clauses) (ReadRows cx le env gid clauses) := by
  intro h
  have hread : ∃ out, ReadRows emptyContext (fun _ _ => true) noTypesEnv 0
      [unwindOne, optionalOne] out :=
    ⟨_, noTypesEnv, unmatchedState [idIsOne] [], ⟨_, rfl, _, rfl, rfl, rfl⟩,
      [unmatchedRow], unmatchedSelect, 2, _, rows_unmatched_read, buildCore_unmatched,
      ⟨_, .refl _, List.pairwise_singleton _ _, rfl⟩, rfl⟩
  obtain ⟨out, hout, hperm⟩ := (h emptyContext (fun _ _ => true) noTypesEnv 0
    [unwindOne, optionalOne] ⟨_, writeRows_unmatched⟩ hread).1 [] writeRows_unmatched
  have hlength := length_readRows_unmatched hout
  rw [hperm.nil_eq.symm] at hlength
  exact absurd hlength (by decide)

end Unmatched

end OntologicalDb.WritePrefix
