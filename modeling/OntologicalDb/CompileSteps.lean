import OntologicalDb.AggregateCalls
import OntologicalDb.CompilePattern
import OntologicalDb.ExceptRules

/-!
What compiling a clause does to the compiler's state, one step at a time.
-/

namespace OntologicalDb.CompileSteps

open OntologicalDb.AggregateCalls
open OntologicalDb.CompileExpr
open OntologicalDb.CompilePattern
open OntologicalDb.CypherSyntax
open OntologicalDb.ExceptRules
open OntologicalDb.Sql
open OntologicalDb.TypeCatalog
open OntologicalDb.Values

section Fields

variable {st : Compiler} {p : SqlExpr} {a : Alias} {cx : Context}

@[simp] theorem constrain_gid : (constrain p st).gid = st.gid := by
  unfold constrain; split <;> rfl

@[simp] theorem constrain_binds : (constrain p st).binds = st.binds := by
  unfold constrain; split <;> rfl

@[simp] theorem constrain_entries : (constrain p st).entries = st.entries := by
  unfold constrain; split <;> rfl

@[simp] theorem constrain_n : (constrain p st).n = st.n := by
  unfold constrain; split <;> rfl

@[simp] theorem constrain_relIds : (constrain p st).relIds = st.relIds := by
  unfold constrain; split <;> rfl

@[simp] theorem constrain_aliasTid : (constrain p st).aliasTid = st.aliasTid := by
  unfold constrain; split <;> rfl

@[simp] theorem constrain_reachabilityOnly :
    (constrain p st).reachabilityOnly = st.reachabilityOnly := by
  unfold constrain; split <;> rfl

@[simp] theorem noteOptionalJoin_binds : (noteOptionalJoin a st).binds = st.binds := by
  unfold noteOptionalJoin; split <;> rfl

@[simp] theorem pushEntry_binds {it : FromItem} : (pushEntry it st).binds = st.binds := rfl

@[simp] theorem fresh_binds {pfx : String} : (fresh pfx st).2.binds = st.binds := rfl

@[simp] theorem moveJoinToEnd_binds {idx : Nat} : (moveJoinToEnd idx st).binds = st.binds := rfl

@[simp] theorem guardUntypedNodes_binds : (guardUntypedNodes cx st).binds = st.binds := by
  unfold guardUntypedNodes
  split
  · rfl
  · exact constrain_binds

@[simp] theorem closeOptional_binds : (closeOptional st).binds = st.binds := by
  have hfold (joins : List (Alias × Nat)) (preds : List SqlExpr) (st : Compiler) :
      (preds.foldl (placePred joins) st).binds = st.binds := by
    induction preds generalizing st with
    | nil => rfl
    | cons p preds ih =>
        rw [List.foldl_cons, ih]
        unfold placePred
        split <;> rfl
  unfold closeOptional
  split
  · rfl
  · exact hfold _ _ _

theorem constrain_plain (h : st.optional = none) :
    constrain p st = { st with wheres := st.wheres ++ [p] } := by
  simp [constrain, h]

theorem noteOptionalJoin_plain (h : st.optional = none) : noteOptionalJoin a st = st := by
  simp [noteOptionalJoin, h]

end Fields

section Patterns

/-- A property of the compiler's state that every step of compiling a pattern
keeps. -/
structure Kept (P : Compiler → Prop) : Prop where
  constrain {st : Compiler} (p : SqlExpr) : P st → P (constrain p st)
  count {st : Compiler} (n : Nat) : P st → P { st with n := n }
  entry {st : Compiler} (it : FromItem) : P st → P (pushEntry it st)
  join {st : Compiler} (a : Alias) : P st → P (noteOptionalJoin a st)
  move {st : Compiler} (idx : Nat) : P st → P (moveJoinToEnd idx st)
  bind {st : Compiler} (v : Option String) {b : Bind} : PlainBind b → P st → P (insertVar v b st)
  relIds {st : Compiler} (ids : List SqlExpr) : P st → P { st with relIds := ids }
  typed {st : Compiler} (tids : List (Alias × Option Int)) : P st → P { st with aliasTid := tids }
  reach {st : Compiler} (b : Bool) : P st → P { st with reachabilityOnly := b }

variable {P : Compiler → Prop} {cx : Context} {st st' : Compiler}

theorem either {b : Prop} [Decidable b] (h : P st) (h' : P st') : P (if b then st else st') := by
  split
  · exact h
  · exact h'

variable (kept : Kept P)

include kept

theorem Kept.fresh (h : P st) (pfx : String) : P (fresh pfx st).2 := kept.count _ h

theorem Kept.guardUntypedNodes (h : P st) : P (guardUntypedNodes cx st) := by
  unfold CompilePattern.guardUntypedNodes
  split
  · exact h
  · exact kept.constrain _ h

theorem Kept.pushPropFilters (h : P st) {a : Alias} {tid : Option Int}
    {props : List (String × Expr)} (hp : pushPropFilters cx a tid props st = .ok st') : P st' := by
  induction props generalizing st with
  | nil =>
      obtain rfl := Except.ok.inj hp
      exact h
  | cons kv props ih =>
      obtain ⟨⟨rhs, n⟩, -, hp⟩ := bind_eq_ok.mp hp
      exact ih (kept.constrain _ (kept.count n h)) hp

theorem Kept.bindScalar (h : P st) {np : NodePat} {v : String} {sql : SqlExpr} {a : Alias}
    (hn : bindScalar cx np v sql st = .ok (a, st')) : P st' := by
  obtain ⟨st1, hprops, hn⟩ := bind_eq_ok.mp hn
  obtain ⟨rfl, rfl⟩ := Prod.mk.inj (pure_eq_ok.mp hn)
  apply kept.pushPropFilters _ hprops
  have hjoined := kept.join (CompilePattern.fresh "n" st).1
    (kept.entry ⟨joinFor (CompilePattern.fresh "n" st).2
      (CompilePattern.fresh "n" st).2.optional.isSome, .node, (CompilePattern.fresh "n" st).1, []⟩
        (kept.fresh h "n"))
  have hbound := kept.bind (some v) (b := .node (CompilePattern.fresh "n" st).1 none) trivial
    (show P (CompilePattern.guardUntypedNodes cx _) from kept.guardUntypedNodes (kept.constrain
      (equals (idOf (CompilePattern.fresh "n" st).1) (scalarId sql)) hjoined))
  split
  · exact hbound
  · split
    · exact kept.constrain _ hbound
    · exact kept.constrain _ hbound
    · exact hbound

theorem Kept.bindAgain (h : P st) {np : NodePat} {a a' : Alias} {tid : Option Int}
    (hn : bindAgain cx np a tid st = .ok (a', st')) : P st' := by
  obtain ⟨st1, hprops, hn⟩ := bind_eq_ok.mp hn
  obtain ⟨rfl, rfl⟩ := Prod.mk.inj (pure_eq_ok.mp hn)
  apply kept.pushPropFilters _ hprops
  split
  · exact h
  · split
    · exact kept.constrain _ h
    · split
      · exact kept.constrain _ h
      · exact h
    · exact h

theorem Kept.bindFresh (h : P st) {np : NodePat} {optional : Bool} {a : Alias}
    (hn : bindFresh cx np optional st = .ok (a, st')) : P st' := by
  obtain ⟨st1, hprops, hn⟩ := bind_eq_ok.mp hn
  obtain ⟨rfl, rfl⟩ := Prod.mk.inj (pure_eq_ok.mp hn)
  apply kept.pushPropFilters _ hprops
  apply kept.bind _ (b := .node _ _) trivial
  apply kept.typed
  apply kept.join
  apply kept.entry
  have hfresh (b : Bool) : P (if b then CompilePattern.guardUntypedNodes cx
      (CompilePattern.fresh "n" st).2 else (CompilePattern.fresh "n" st).2) :=
    either (kept.guardUntypedNodes (kept.fresh h "n")) (kept.fresh h "n")
  exact either (kept.constrain _ (hfresh _)) (hfresh _)

theorem Kept.bindNode (h : P st) {np : NodePat} {optional : Bool} {a : Alias}
    (hn : bindNode cx np optional st = .ok (a, st')) : P st' := by
  unfold CompilePattern.bindNode at hn
  split at hn
  · exact kept.bindScalar h hn
  · exact kept.bindAgain h hn
  · exact kept.bindFresh h hn

theorem Kept.joinVirtualRel (h : P st) {src dst : Alias} {rel : RelPat} {v : VirtualRel}
    {hop : SqlExpr} (hj : joinVirtualRel cx src rel dst v st = .ok (hop, st')) :
    P st' ∧ ∀ f, someCall f hop = false := by
  unfold CompilePattern.joinVirtualRel at hj
  dsimp only at hj
  split at hj
  · simp at hj
  · split at hj
    · simp at hj
    · -- The direction decides which end is the source.
      repeat' split at hj
      all_goals cases hj
      all_goals
        refine ⟨kept.bind _ (b := .scalar _) (fun f => rfl) (kept.constrain _ ?_), fun f => rfl⟩
        first
          | exact h
          | exact kept.constrain _ h

theorem Kept.joinVarLength (h : P st) {src dst : Alias} {rel : RelPat} {min max : Nat}
    {optional : Bool} :
    P (joinVarLength cx src rel dst min max optional st).2 ∧
      ∀ f, someCall f (joinVarLength cx src rel dst min max optional st).1 = false := by
  refine ⟨kept.bind _ (b := .path _) (fun f => rfl) ?_, fun f => rfl⟩
  apply kept.constrain
  apply kept.join
  apply kept.entry
  apply kept.count
  exact either h (kept.constrain _ h)

theorem Kept.requireDistinct (h : P st) (eid : SqlExpr) : P (requireDistinct eid st) := by
  apply kept.relIds
  induction st.relIds generalizing st with
  | nil => exact h
  | cons other others ih => exact ih (kept.constrain _ h)

theorem Kept.joinEdgeView (h : P st) {t : Int} {eid : SqlExpr} {optional : Bool} :
    P (joinEdgeView t eid optional st).2 :=
  kept.join _ (kept.entry _ (kept.fresh h "e"))

theorem Kept.joinHop (h : P st) {src dst : Alias} {rel : RelPat} {optional : Bool} {hop : SqlExpr}
    (hj : joinHop cx src rel dst optional st = .ok (hop, st')) :
    P st' ∧ ∀ f, someCall f hop = false := by
  unfold CompilePattern.joinHop at hj
  dsimp -zeta only [CompilePattern.fresh] at hj
  extract_lets etypes temporal st1 width st2 st3 st4 st5 eid st6 st7 edge at hj
  have hjoined : P st5 := kept.join _ (either (kept.constrain _ (kept.entry _ (kept.count _
    (kept.count _ (kept.count _ h))))) (kept.entry _ (kept.count _ (kept.count _
      (kept.count _ h)))))
  have hlast : P st7 :=
    either (kept.constrain _ hjoined) (kept.requireDistinct (kept.constrain _ hjoined) _)
  split at hj
  · obtain ⟨st8, hprops, hj⟩ := bind_eq_ok.mp hj
    obtain ⟨rfl, rfl⟩ := Prod.mk.inj (pure_eq_ok.mp hj)
    refine ⟨kept.pushPropFilters ?_ hprops, fun f => rfl⟩
    exact kept.bind _ (b := .rel _ _ _) (fun f => rfl) (kept.joinEdgeView hlast)
  · obtain ⟨rfl, rfl⟩ := Prod.mk.inj (pure_eq_ok.mp hj)
    exact ⟨kept.bind _ (b := .rel _ _ _) (fun f => rfl) hlast, fun f => rfl⟩
  · split at hj
    · obtain ⟨rfl, rfl⟩ := Prod.mk.inj (pure_eq_ok.mp hj)
      exact ⟨hlast, fun f => rfl⟩
    · obtain ⟨st8, hprops, hj⟩ := bind_eq_ok.mp hj
      obtain ⟨rfl, rfl⟩ := Prod.mk.inj (pure_eq_ok.mp hj)
      exact ⟨kept.pushPropFilters (kept.joinEdgeView hlast) hprops, fun f => rfl⟩
  · obtain ⟨rfl, rfl⟩ := Prod.mk.inj (pure_eq_ok.mp hj)
    exact ⟨hlast, fun f => rfl⟩

theorem Kept.joinRel (h : P st) {src dst : Alias} {rel : RelPat} {optional : Bool} {hop : SqlExpr}
    (hj : joinRel cx src rel dst optional st = .ok (hop, st')) :
    P st' ∧ ∀ f, someCall f hop = false := by
  unfold CompilePattern.joinRel at hj
  split at hj
  · exact kept.joinVirtualRel h hj
  · obtain ⟨rfl, rfl⟩ := Prod.mk.inj (Except.ok.inj hj)
    exact kept.joinVarLength h
  · exact kept.joinHop h hj

def PlainHops (hops : List SqlExpr) : Prop := ∀ hop ∈ hops, ∀ f, someCall f hop = false

theorem Kept.compileElem (h : P st) {elems : List PatElem} {optional : Bool}
    {ps ps' : PatternState} {elem : PatElem} {idx : Nat} (hhops : PlainHops ps.hopExprs)
    (he : compileElem cx elems optional ps st elem idx = .ok (ps', st')) :
    P st' ∧ PlainHops ps'.hopExprs := by
  unfold CompilePattern.compileElem at he
  split at he
  · obtain ⟨rfl, rfl⟩ := Prod.mk.inj (Except.ok.inj he)
    exact ⟨h, hhops⟩
  · obtain ⟨⟨a, st1⟩, hbind, he⟩ := bind_eq_ok.mp he
    have h1 := kept.bindNode h hbind
    dsimp only at he
    split at he
    · obtain ⟨⟨hop, st2⟩, hjoin, he⟩ := bind_eq_ok.mp he
      obtain ⟨rfl, rfl⟩ := Prod.mk.inj (pure_eq_ok.mp he)
      obtain ⟨h2, hhop⟩ := kept.joinRel h1 hjoin
      refine ⟨either (kept.move _ h2) h2, fun e hmem => ?_⟩
      rcases List.mem_append.mp hmem with hmem | hmem
      · exact hhops e hmem
      · rw [List.mem_singleton.mp hmem]
        exact hhop
    · obtain ⟨rfl, rfl⟩ := Prod.mk.inj (pure_eq_ok.mp he)
      exact ⟨h1, hhops⟩

theorem Kept.compileElems (h : P st) {all elems : List PatElem} {optional : Bool}
    {ps ps' : PatternState} {idx : Nat} (hhops : PlainHops ps.hopExprs)
    (he : compileElems cx all optional elems idx ps st = .ok (ps', st')) :
    P st' ∧ PlainHops ps'.hopExprs := by
  induction elems generalizing idx ps st with
  | nil =>
      obtain ⟨rfl, rfl⟩ := Prod.mk.inj (Except.ok.inj he)
      exact ⟨h, hhops⟩
  | cons elem elems ih =>
      obtain ⟨⟨ps1, st1⟩, helem, he⟩ := bind_eq_ok.mp he
      obtain ⟨h1, hhops1⟩ := kept.compileElem h hhops helem
      exact ih h1 hhops1 he

theorem Kept.compilePattern (h : P st) {p : Pattern} {optional : Bool}
    (hp : compilePattern cx p optional st = .ok st') : P st' := by
  obtain ⟨⟨ps, st1⟩, helems, hp⟩ := bind_eq_ok.mp hp
  obtain rfl := pure_eq_ok.mp hp
  obtain ⟨h1, hhops⟩ := kept.compileElems (either (kept.reach false h) h)
    (fun hop hmem => absurd hmem List.not_mem_nil) helems
  apply kept.reach
  apply kept.bind _ (b := .path _) _ h1
  intro f
  unfold pathSql
  split
  · rfl
  · exact someCalls_eq_false.mpr fun hop hhop => hhops hop hhop f

theorem Kept.compilePatterns (h : P st) {ps : List Pattern} {optional : Bool}
    (hp : compilePatterns cx optional ps st = .ok st') : P st' := by
  induction ps generalizing st with
  | nil =>
      obtain rfl := Except.ok.inj hp
      exact h
  | cons p ps ih =>
      obtain ⟨st1, hfirst, hp⟩ := bind_eq_ok.mp hp
      exact ih (kept.compilePattern h hfirst) hp

end Patterns

end OntologicalDb.CompileSteps
