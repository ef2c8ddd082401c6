import OntologicalDb.CompileSteps
import OntologicalDb.FromRows

/-!
Which nodes a pattern with a label set matches.
-/

namespace OntologicalDb.LabelSets

open OntologicalDb.CompileExpr
open OntologicalDb.CompilePattern
open OntologicalDb.CompileSteps
open OntologicalDb.CypherSyntax
open OntologicalDb.ExceptRules
open OntologicalDb.FromRows
open OntologicalDb.GraphStorage
open OntologicalDb.Labeling
open OntologicalDb.RowDocuments
open OntologicalDb.Sql
open OntologicalDb.TypeCatalog
open OntologicalDb.TypedTables
open OntologicalDb.Values

/-- The identifiers a single node pattern matches. -/
def matchedNodes (env : Env) (cx : Context) (gid : Int) (np : NodePat) :
    Except String (List Val) := do
  let st ← compileMatch cx [⟨none, [.node np]⟩] false none (Compiler.start gid)
  let rows ← selectRows env st.entries st.wheres
  return rows.map fun s => s ⟨"n", 1⟩ "id"

/-- A node of a concrete type, as the session sees the type's table. -/
def IsNode (env : Env) (id tid : Int) : Prop :=
  ∃ t ∈ env.db.schema.catalog.types, t.typeId = tid ∧ ∃ table, t.storageTable = some table ∧
    table.shape ≠ .edge ∧ ∃ r ∈ sourceRows env.db.schema env.asOf tid table, r.id = id

/-- The type carries the label: it is a subtype of the type so named. -/
def HasLabel (c : Catalog) (gid tid : Int) (label : String) : Prop :=
  ∃ lt, tryTypeId c gid label = some lt ∧ IsSubtype c tid lt

/-- The pattern matches exactly the nodes that carry every label. -/
def LabelsConjunctive (env : Env) (cx : Context) (gid : Int) (labels : List String) : Prop :=
  ∃ ids, matchedNodes env cx gid ⟨some "n", labels, []⟩ = .ok ids ∧
    ∀ id, Val.int id ∈ ids ↔
      ∃ tid, IsNode env id tid ∧ ∀ l ∈ labels, HasLabel cx.catalog gid tid l

section Resolution

variable {c : Catalog} {gid : Int} {labels : List String}

theorem mapM_tryTypeId_eq_some {ids : List Int}
    (h : labels.mapM (tryTypeId c gid) = some ids) :
    (∀ l ∈ labels, ∃ t ∈ ids, tryTypeId c gid l = some t) ∧
      ∀ t ∈ ids, ∃ l ∈ labels, tryTypeId c gid l = some t := by
  induction labels generalizing ids with
  | nil =>
      obtain rfl : [] = ids := by simpa using h
      exact ⟨by simp, by simp⟩
  | cons l labels ih =>
      simp only [List.mapM_cons, Option.bind_eq_bind, Option.bind_eq_some_iff] at h
      obtain ⟨t, ht, ts, hts, hids⟩ := h
      obtain rfl : t :: ts = ids := by simpa using hids
      obtain ⟨hlabels, htypes⟩ := ih hts
      constructor
      · intro k hk
        rcases List.mem_cons.mp hk with rfl | hk
        · exact ⟨t, List.mem_cons_self, ht⟩
        · obtain ⟨u, hu, hku⟩ := hlabels k hk
          exact ⟨u, List.mem_cons_of_mem _ hu, hku⟩
      · intro u hu
        rcases List.mem_cons.mp hu with rfl | hu
        · exact ⟨l, List.mem_cons_self, ht⟩
        · obtain ⟨k, hk, hku⟩ := htypes u hu
          exact ⟨k, List.mem_cons_of_mem _ hk, hku⟩

theorem mapM_tryTypeId_eq_none (h : labels.mapM (tryTypeId c gid) = none) :
    ∃ l ∈ labels, tryTypeId c gid l = none := by
  induction labels with
  | nil => simp at h
  | cons l labels ih =>
      cases ht : tryTypeId c gid l with
      | none => exact ⟨l, List.mem_cons_self, ht⟩
      | some t =>
          have hrest : labels.mapM (tryTypeId c gid) = none := by
            cases hts : labels.mapM (tryTypeId c gid) with
            | none => rfl
            | some ts => simp [List.mapM_cons, ht, hts] at h
          obtain ⟨k, hk, hkn⟩ := ih hrest
          exact ⟨k, List.mem_cons_of_mem _ hk, hkn⟩

theorem tryTypeId_mem_graphTypes {l : String} {t : Int} (h : tryTypeId c gid l = some t) :
    t ∈ graphTypes c gid := by
  obtain ⟨row, hrow, rfl, hgraph, -⟩ := tryTypeId_eq_some h
  exact List.mem_map_of_mem (List.mem_filter.mpr ⟨hrow, by simpa using hgraph⟩)

/-- One of the labels is below all the others. -/
def HasMostSpecific (c : Catalog) (gid : Int) (labels : List String) : Prop :=
  ∃ l ∈ labels, ∃ t, tryTypeId c gid l = some t ∧ ∀ k ∈ labels, HasLabel c gid t k

theorem mostSpecific_eq_some (hc : WellFormed c) {ids : List Int} {t : Int}
    (hmap : labels.mapM (tryTypeId c gid) = some ids) (h : mostSpecific c ids = some t) :
    ∃ l ∈ labels, tryTypeId c gid l = some t ∧ ∀ k ∈ labels, HasLabel c gid t k := by
  obtain ⟨hlabels, htypes⟩ := mapM_tryTypeId_eq_some hmap
  obtain ⟨l, hl, hlt⟩ := htypes t (List.mem_of_find?_eq_some h)
  refine ⟨l, hl, hlt, fun k hk => ?_⟩
  obtain ⟨o, ho, hko⟩ := hlabels k hk
  refine ⟨o, hko, ?_⟩
  have hall := List.find?_some h
  rcases (by simpa using List.all_eq_true.mp hall o ho :
      t = o ∨ ogIsSubtype c t o = true) with rfl | hsub
  · exact .refl
  · exact (ogIsSubtype_iff hc (tryTypeId_mem_graphTypes hko)).mp hsub

theorem mostSpecific_eq_none (hc : WellFormed c) {ids : List Int}
    (hmap : labels.mapM (tryTypeId c gid) = some ids) (h : mostSpecific c ids = none) :
    ¬ HasMostSpecific c gid labels := by
  rintro ⟨l, hl, t, hlt, hall⟩
  obtain ⟨hlabels, htypes⟩ := mapM_tryTypeId_eq_some hmap
  obtain ⟨t', ht', hlt'⟩ := hlabels l hl
  obtain rfl : t = t' := Option.some.inj (hlt.symm.trans hlt')
  refine List.find?_eq_none.mp h t ht' ?_
  rw [List.all_eq_true]
  intro o ho
  obtain ⟨k, hk, hko⟩ := htypes o ho
  obtain ⟨o', hko', hsub⟩ := hall k hk
  obtain rfl : o = o' := Option.some.inj (hko.symm.trans hko')
  simpa using .inr ((ogIsSubtype_iff hc (tryTypeId_mem_graphTypes hko)).mpr hsub)

end Resolution

section Rows

variable {env : Env} {cx : Context} {gid : Int} {v : Option String} {labels : List String}

theorem resolveLabelSet_ne_any {c : Catalog} (hne : labels ≠ []) :
    resolveLabelSet c gid labels ≠ .any := by
  unfold resolveLabelSet
  rw [if_neg hne]
  split
  · nofun
  · split <;> nofun

theorem guardUntypedNodes_plain {st : Compiler} (h : st.optional = none) :
    ∃ ps, guardUntypedNodes cx st = { st with wheres := st.wheres ++ ps } := by
  unfold guardUntypedNodes
  split
  · exact ⟨[], by simp⟩
  · exact ⟨_, constrain_plain h⟩

/-- The entries and the predicates of a pattern that is one labelled node. -/
theorem compileMatch_node (hne : labels ≠ []) :
    ∃ st, compileMatch cx [⟨none, [.node ⟨v, labels, []⟩]⟩] false none (Compiler.start gid) =
        .ok st ∧
      match resolveLabelSet cx.catalog gid labels with
      | .type t => st.entries = [⟨.first, .view t false, ⟨"n", 1⟩, []⟩] ∧ st.wheres = []
      | _ => st.entries = [⟨.first, .node, ⟨"n", 1⟩, []⟩] ∧ boolLit false ∈ st.wheres := by
  cases hr : resolveLabelSet cx.catalog gid labels with
  | any => exact absurd hr (resolveLabelSet_ne_any hne)
  | type t =>
      simp [compileMatch, compilePatterns, compilePattern, compileElems, compileElem, bindNode,
        inferVirtualLabel, bindFresh, lookupBind, Compiler.start, pushPropFilters, fresh,
        joinFor, bind, Except.bind, pure, Except.pure, insertVar, noteOptionalJoin, pushEntry,
        hr, hne]
      cases v <;> simp
  | nothing =>
      have hguard : ∃ ps, guardUntypedNodes cx { Compiler.start gid with n := 1 } = _ :=
        guardUntypedNodes_plain rfl
      obtain ⟨ps, hguard⟩ := hguard
      simp only [Compiler.start] at hguard
      simp [compileMatch, compilePatterns, compilePattern, compileElems, compileElem, bindNode,
        inferVirtualLabel, bindFresh, lookupBind, Compiler.start, pushPropFilters, fresh,
        joinFor, bind, Except.bind, pure, Except.pure, insertVar, noteOptionalJoin, pushEntry,
        hr, hne, hguard, constrain]
      cases v <;> simp

/-- A pattern that is one labelled node scans the view its labels resolve to,
and nothing when they resolve to none. -/
theorem matchedNodes_eq (hne : labels ≠ []) :
    matchedNodes env cx gid ⟨v, labels, []⟩ = .ok
      (match resolveLabelSet cx.catalog gid labels with
        | .type t => (viewRows env.db.schema env.asOf t false).map fun x => x "id"
        | _ => []) := by
  obtain ⟨st, hst, hshape⟩ := @compileMatch_node cx gid v labels hne
  unfold matchedNodes
  rw [hst]
  cases hr : resolveLabelSet cx.catalog gid labels with
  | any => exact absurd hr (resolveLabelSet_ne_any hne)
  | type t =>
      rw [hr] at hshape
      obtain ⟨hentries, hwheres⟩ := hshape
      show (do
        let rows ← selectRows env st.entries st.wheres
        return rows.map fun s : Scope => s ⟨"n", 1⟩ "id") = _
      have hnil : (extendAll env [] : Scope → List Scope) = fun s => [s] := funext fun _ => rfl
      rw [hentries, hwheres]
      simp [selectRows, FromItem.WellFormed, extendAll_cons, FromItem.extend,
        FromItem.candidates, Rel.rows, Satisfies, bind, Except.bind, pure, Except.pure,
        Function.comp_def, hnil]
  | nothing =>
      rw [hr] at hshape
      obtain ⟨hentries, hfalse⟩ := hshape
      show (do
        let rows ← selectRows env st.entries st.wheres
        return rows.map fun s : Scope => s ⟨"n", 1⟩ "id") = _
      have hnone : ∀ s, ¬ Satisfies env s st.wheres := fun s h => by
        simpa [Holds, boolLit, SqlExpr.eval, accepts] using h _ hfalse
      rw [hentries]
      simp [selectRows, FromItem.WellFormed, hnone, bind, Except.bind, pure, Except.pure]

end Rows

section Conjunction

variable {env : Env} {cx : Context} {gid : Int} {v : Option String} {labels : List String}

/-- Some stored node carries every label. -/
def CarriedTogether (env : Env) (c : Catalog) (gid : Int) (labels : List String) : Prop :=
  ∃ id tid, IsNode env id tid ∧ ∀ l ∈ labels, HasLabel c gid tid l

theorem mem_viewRows_id {t id : Int} :
    Val.int id ∈ (viewRows env.db.schema env.asOf t false).map (fun x => x "id") ↔
      ∃ tid, IsNode env id tid ∧ ogIsSubtype env.db.schema.catalog tid t = true := by
  rw [List.mem_map]
  constructor
  · rintro ⟨x, hx, hid⟩
    obtain ⟨row, hrow, table, htable, hsub, hshape, r, hr, rfl⟩ := mem_viewRows.mp hx
    refine ⟨row.typeId, ⟨row, hrow, rfl, table, htable, by simpa using hshape, r, hr, ?_⟩, hsub⟩
    exact Val.int.inj hid
  · rintro ⟨tid, ⟨row, hrow, rfl, table, htable, hshape, r, hr, rfl⟩, hsub⟩
    refine ⟨viewTuple row.typeId r, ?_, rfl⟩
    exact mem_viewRows.mpr ⟨row, hrow, table, htable, hsub, by simpa using hshape, r, hr, rfl⟩

/-- A label set is conjunctive when one label is below the others, and else only
where nothing carries all of them. -/
theorem labelsConjunctive_iff (hc : WellFormed cx.catalog)
    (hcx : env.db.schema.catalog = cx.catalog) (hne : labels ≠ []) :
    LabelsConjunctive env cx gid labels ↔
      HasMostSpecific cx.catalog gid labels ∨
        ¬ CarriedTogether env cx.catalog gid labels := by
  unfold LabelsConjunctive
  rw [matchedNodes_eq hne]
  have hempty (h : ¬ HasMostSpecific cx.catalog gid labels) :
      (∃ ids : List Val, Except.ok (ε := String) [] = .ok ids ∧ ∀ id, Val.int id ∈ ids ↔
        ∃ tid, IsNode env id tid ∧ ∀ l ∈ labels, HasLabel cx.catalog gid tid l) ↔
      HasMostSpecific cx.catalog gid labels ∨ ¬ CarriedTogether env cx.catalog gid labels := by
    simp [h, CarriedTogether]
  cases hmap : labels.mapM (tryTypeId cx.catalog gid) with
  | none =>
      obtain ⟨l, hl, hunknown⟩ := mapM_tryTypeId_eq_none hmap
      simp only [resolveLabelSet, if_neg hne, hmap]
      apply hempty
      rintro ⟨k, hk, t, -, hall⟩
      obtain ⟨lt, hlt, -⟩ := hall l hl
      simp [hunknown] at hlt
  | some ids =>
      cases hmost : mostSpecific cx.catalog ids with
      | none =>
          simp only [resolveLabelSet, if_neg hne, hmap, hmost]
          exact hempty (mostSpecific_eq_none hc hmap hmost)
      | some t =>
          simp only [resolveLabelSet, if_neg hne, hmap, hmost]
          obtain ⟨l, hl, hlt, hall⟩ := mostSpecific_eq_some hc hmap hmost
          have hleft : ∃ l ∈ labels, ∃ t, tryTypeId cx.catalog gid l = some t ∧
              ∀ k ∈ labels, HasLabel cx.catalog gid t k := ⟨l, hl, t, hlt, hall⟩
          refine iff_of_true ⟨_, rfl, fun id => ?_⟩ (.inl hleft)
          rw [mem_viewRows_id, hcx]
          refine exists_congr fun tid => and_congr_right fun _ => ?_
          rw [ogIsSubtype_iff hc (tryTypeId_mem_graphTypes hlt)]
          constructor
          · intro hsub k hk
            obtain ⟨o, hko, hto⟩ := hall k hk
            exact ⟨o, hko, hto.trans hsub⟩
          · intro hk
            obtain ⟨o, hlo, hto⟩ := hk l hl
            obtain rfl : t = o := Option.some.inj (hlt.symm.trans hlo)
            exact hto

end Conjunction

section Diamond

/-- Two unrelated entity types and one that inherits from both. -/
def diamondCatalog : Catalog :=
  { TypeCatalog.empty with
    graphs := [(1, "g")]
    types := [⟨1, 1, "A", .entity, some (nodeTable 1)⟩,
      ⟨2, 1, "B", .entity, some (nodeTable 2)⟩, ⟨3, 1, "C", .entity, some (nodeTable 3)⟩]
    typeParent := [(3, 1), (3, 2)]
    labels := [⟨3, 0, 1, 1025, 2049, 1⟩, ⟨1, 0, 1, 1, 3073, 0⟩,
      ⟨3, 1, 1, 5121, 6145, 1⟩, ⟨2, 0, 1, 4097, 7169, 0⟩] }

/-- A store over it with one node, of the type that inherits from both. -/
def diamondEnv : Env where
  pg := Postgres.literal
  db := ⟨⟨diamondCatalog, [(nodeTable 3, ⟨10, none, [], none⟩)]⟩, [], [⟨10, 3⟩], [], [], []⟩
  asOf _ := []
  params := .obj []
  segment := []

def diamondContext : Context := ⟨diamondCatalog, fun _ => false⟩

theorem diamond_wellFormed : WellFormed diamondCatalog where
  typeIds := by decide
  parents := by
    intro l hl
    refine ⟨1, ?_⟩
    revert l hl
    decide
  labelled gid := by
    by_cases hgid : gid = 1
    · subst hgid
      decide +kernel
    · have hnone : graphTypes diamondCatalog gid = [] := by
        simp [graphTypes, diamondCatalog, Ne.symm hgid]
      rw [if_pos hnone]
      simp [diamondCatalog, Ne.symm hgid]

theorem diamond_isNode : IsNode diamondEnv 10 3 :=
  ⟨⟨3, 1, "C", .entity, some (nodeTable 3)⟩, by decide, rfl, nodeTable 3, rfl, by decide,
    ⟨10, none, [], none⟩, by decide, rfl⟩

/-- The node of the common subtype carries both labels, and is not matched. -/
theorem not_labelsConjunctive_diamond :
    ¬ LabelsConjunctive diamondEnv diamondContext 1 ["A", "B"] := by
  rintro ⟨ids, hids, hall⟩
  have hnothing : resolveLabelSet diamondContext.catalog 1 ["A", "B"] = .nothing := by
    rfl
  rw [matchedNodes_eq (by simp), hnothing] at hids
  obtain rfl := Except.ok.inj hids
  refine absurd ((hall 10).mpr ⟨3, diamond_isNode, ?_⟩) (by simp)
  have hlabel (l : String) (t : Int) (ht : tryTypeId diamondCatalog 1 l = some t)
      (hchild : (3, t) ∈ diamondCatalog.typeParent) : HasLabel diamondCatalog 1 3 l :=
    ⟨t, ht, .single hchild⟩
  intro l hl
  rcases List.mem_pair.mp hl with rfl | rfl
  · exact hlabel "A" 1 rfl (by decide)
  · exact hlabel "B" 2 rfl (by decide)

theorem labelsConjunctive_diamond :
    LabelsConjunctive diamondEnv diamondContext 1 ["C", "A"] ↔
      HasMostSpecific diamondCatalog 1 ["C", "A"] ∨
        ¬ CarriedTogether diamondEnv diamondCatalog 1 ["C", "A"] :=
  labelsConjunctive_iff diamond_wellFormed rfl (by simp)

end Diamond

end OntologicalDb.LabelSets
