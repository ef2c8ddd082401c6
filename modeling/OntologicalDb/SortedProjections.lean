import OntologicalDb.ExceptRules
import OntologicalDb.Projection

/-!
`ORDER BY`: the rows a projection yields with its sort keys and without them.
-/

namespace OntologicalDb.SortedProjections

open OntologicalDb.CompileExpr
open OntologicalDb.CypherSyntax
open OntologicalDb.ExceptRules
open OntologicalDb.Projection
open OntologicalDb.RowGroups
open OntologicalDb.Sql
open OntologicalDb.TypeCatalog
open OntologicalDb.Values

section Units

variable {env : Env} {sel : Select} {rows : List Scope}

def unitOf (g : List Scope) : Scope × List Scope := (g.headD emptyScope, g)

theorem units_ungrouped (h : sel.grouped = false) :
    sel.units env rows = rows.map fun s => (s, []) := by
  unfold Select.units
  rw [if_neg (by simp [h])]

theorem units_grouped (h : sel.grouped = true) (hrows : rows ≠ []) :
    sel.units env rows = (groupBy (sel.key env) rows).map unitOf := by
  unfold Select.units
  rw [if_pos h]
  split
  · next hkeys =>
      have hconst : sel.key env = fun _ => [] := by
        funext s
        unfold Select.key
        rw [List.isEmpty_iff.mp hkeys]
        rfl
      rw [hconst, groupBy_const hrows]
      rfl
  · rfl

theorem units_nil (h : sel.grouped = true) :
    sel.units env [] = if sel.groupBy = [] then [(emptyScope, [])] else [] := by
  unfold Select.units
  rw [if_pos h]
  cases sel.groupBy <;> rfl

/-- The value of a grouping expression in a group is its value in any row of
the group. -/
theorem eval_key {k : SqlExpr} (hk : k ∈ sel.groupBy) (hplain : hasAggregate k = false)
    {g : List Scope} (hg : g ∈ groupBy (sel.key env) rows) {s : Scope} (hs : s ∈ g) :
    k.eval env g (g.headD emptyScope) = k.eval env [] s := by
  rw [eval_group k hplain]
  have hkey := key_eq_of_mem_groupBy hg (headD_mem (a := emptyScope) (ne_nil_of_mem_groupBy hg)) hs
  exact List.map_inj_left.mp hkey k hk

end Units

/-- A projection and the same without sort keys: these add columns and, in a
grouped projection, grouping expressions. -/
structure Resorted (sel0 sel : Select) (extra : List SqlExpr) : Prop where
  distinct : sel.distinct = sel0.distinct
  cols : sel.cols = sel0.cols
  unsorted : sel0.orderCols = []
  groupBy : sel.groupBy = sel0.groupBy ++ extra
  extra_mem : ∀ k ∈ extra, k ∈ sel.orderCols.map (·.1)
  base_mem : ∀ k ∈ sel0.groupBy, k ∈ sel0.cols.map (·.2)

/-- Sort keys are functions of what the projection groups and keeps apart. -/
structure KeysDetermined (env : Env) (sel0 sel : Select) (rows : List Scope) : Prop where
  groups : sel.grouped = true → ∀ s ∈ rows, ∀ s' ∈ rows,
    sel0.key env s = sel0.key env s' → sel.key env s = sel.key env s'
  empty : rows = [] → sel.grouped = true → sel0.groupBy = [] → sel.groupBy = []
  values : sel.distinct = true → ∀ u ∈ sel.units env rows, ∀ v ∈ sel.units env rows,
    sel.values env u = sel.values env v → sel.sortKeys env u = sel.sortKeys env v

section Bags

variable {env : Env} {sel0 sel : Select} {extra : List SqlExpr} {rows : List Scope}

theorem values_eq (h : Resorted sel0 sel extra) : sel.values env = sel0.values env := by
  funext u
  unfold Select.values
  rw [h.cols]

theorem key_eq (h : Resorted sel0 sel extra) (s : Scope) :
    sel.key env s = sel0.key env s ++ extra.map fun k => k.eval env [] s := by
  unfold Select.key
  rw [h.groupBy, List.map_append]

theorem key_of_key_eq (h : Resorted sel0 sel extra) {s s' : Scope}
    (hkey : sel.key env s = sel.key env s') : sel0.key env s = sel0.key env s' := by
  rw [key_eq h, key_eq h] at hkey
  exact (List.append_inj hkey (by simp [Select.key])).1

theorem bag_all (hdistinct : sel.distinct = false) :
    sel.bag env rows = (sel.units env rows).map (sel.values env) := by
  simp [Select.bag, Select.tuples, hdistinct, Function.comp_def]

theorem bag_distinct (hdistinct : sel.distinct = true) :
    sel.bag env rows = (((sel.units env rows).map fun u =>
      (sel.values env u, sel.sortKeys env u)).dedup).map Prod.fst := by
  simp [Select.bag, Select.tuples, hdistinct]

theorem bag_distinct_unsorted (env : Env) (rows : List Scope) (hdistinct : sel.distinct = true)
    (horder : sel.orderCols = []) :
    (sel.bag env rows).Perm ((sel.units env rows).map (sel.values env)).dedup := by
  rw [bag_distinct hdistinct]
  apply map_fst_dedup_perm_iff.mpr
  intro u _ v _ _
  unfold Select.sortKeys
  rw [horder]
  rfl

/-- Sort keys that are functions of the groups' keys leave the groups. -/
theorem units_perm (h : Resorted sel0 sel extra) (hgrouped : sel.grouped = sel0.grouped)
    (hkeys : KeysDetermined env sel0 sel rows) :
    (sel.units env rows).Perm (sel0.units env rows) := by
  cases hsel : sel.grouped with
  | false => rw [units_ungrouped hsel, units_ungrouped (hgrouped ▸ hsel)]
  | true =>
      by_cases hrows : rows = []
      · subst hrows
        rw [units_nil hsel, units_nil (hgrouped ▸ hsel)]
        by_cases hbase : sel0.groupBy = []
        · rw [if_pos hbase, if_pos (hkeys.empty rfl hsel hbase)]
        · have hall : sel.groupBy ≠ [] := by
            rw [h.groupBy]
            exact List.append_ne_nil_of_left_ne_nil hbase _
          rw [if_neg hbase, if_neg hall]
      · rw [units_grouped hsel hrows, units_grouped (hgrouped ▸ hsel) hrows]
        apply List.Perm.map
        apply groupBy_congr
        intro s hs s' hs'
        exact ⟨key_of_key_eq h, hkeys.groups hsel s hs s' hs'⟩

theorem bag_perm_of_keysDetermined (h : Resorted sel0 sel extra)
    (hgrouped : sel.grouped = sel0.grouped) (hkeys : KeysDetermined env sel0 sel rows) :
    (sel.bag env rows).Perm (sel0.bag env rows) := by
  have hunits := units_perm h hgrouped hkeys
  cases hdistinct : sel.distinct with
  | false =>
      rw [bag_all hdistinct, bag_all (h.distinct ▸ hdistinct), ← values_eq h]
      exact hunits.map _
  | true =>
      have hbase := bag_distinct_unsorted env rows (h.distinct ▸ hdistinct) h.unsorted
      rw [bag_distinct hdistinct]
      apply (map_fst_dedup_perm_iff.mpr (hkeys.values hdistinct)).trans
      rw [values_eq h]
      exact ((hunits.map _).dedup).trans hbase.symm

theorem key_take (h : Resorted sel0 sel extra) (s : Scope) :
    (sel.key env s).take sel0.groupBy.length = sel0.key env s := by
  rw [key_eq h]
  exact List.take_left' (by simp [Select.key])

/-- As many groups as before: the sort keys split none. -/
theorem groups_of_length (h : Resorted sel0 sel extra)
    (hlength : (groupBy (sel.key env) rows).length ≤ (groupBy (sel0.key env) rows).length) :
    ∀ s ∈ rows, ∀ s' ∈ rows, sel0.key env s = sel0.key env s' →
      sel.key env s = sel.key env s' := by
  have hbase : rows.map (sel0.key env) =
      (rows.map (sel.key env)).map (List.take sel0.groupBy.length) := by
    rw [List.map_map]
    exact List.map_congr_left fun s _ => (key_take h s).symm
  rw [length_groupBy, length_groupBy, hbase] at hlength
  intro s hs s' hs' hkey
  apply injOn_of_length_dedup_map hlength (List.mem_map.mpr ⟨s, hs, rfl⟩)
    (List.mem_map.mpr ⟨s', hs', rfl⟩)
  rw [key_take h, key_take h, hkey]

/-- The items show the keys the projection groups by. -/
theorem key_of_values_eq (h : Resorted sel0 sel extra)
    (hplain : ∀ k ∈ sel.groupBy, hasAggregate k = false) {g : List Scope}
    (hg : g ∈ groupBy (sel.key env) rows) {g0 : List Scope}
    (hg0 : g0 ∈ groupBy (sel0.key env) rows)
    (hvalues : sel0.values env (unitOf g) = sel0.values env (unitOf g0)) {s s0 : Scope}
    (hs : s ∈ g) (hs0 : s0 ∈ g0) : sel0.key env s = sel0.key env s0 := by
  apply List.map_congr_left
  intro k hk
  have hmem : k ∈ sel.groupBy := h.groupBy ▸ List.mem_append_left _ hk
  obtain ⟨x, hx, rfl⟩ := List.mem_map.mp (h.base_mem k hk)
  rw [← eval_key hmem (hplain _ hmem) hg hs, ← eval_key hk (hplain _ hmem) hg0 hs0]
  exact List.map_inj_left.mp hvalues x hx

/-- When the distinct values of the groups are the same, and these determine the
sort keys, the sort keys split no group. -/
theorem groups_of_values (h : Resorted sel0 sel extra)
    (hplain : ∀ k ∈ sel.groupBy, hasAggregate k = false)
    (hsame : ∀ g ∈ groupBy (sel.key env) rows, ∃ g0 ∈ groupBy (sel0.key env) rows,
      sel0.values env (unitOf g) = sel0.values env (unitOf g0))
    (hsort : ∀ g ∈ groupBy (sel.key env) rows, ∀ g' ∈ groupBy (sel.key env) rows,
      sel.values env (unitOf g) = sel.values env (unitOf g') →
        sel.sortKeys env (unitOf g) = sel.sortKeys env (unitOf g')) :
    ∀ s ∈ rows, ∀ s' ∈ rows, sel0.key env s = sel0.key env s' →
      sel.key env s = sel.key env s' := by
  intro s hs s' hs' hkey
  obtain ⟨g, hg, hsg⟩ := exists_group (sel.key env) hs
  obtain ⟨g', hg', hsg'⟩ := exists_group (sel.key env) hs'
  obtain ⟨g0, hg0, hv0⟩ := hsame g hg
  obtain ⟨g1, hg1, hv1⟩ := hsame g' hg'
  have hs0 := headD_mem (a := emptyScope) (ne_nil_of_mem_groupBy hg0)
  have hs1 := headD_mem (a := emptyScope) (ne_nil_of_mem_groupBy hg1)
  -- Both groups show the values of the one coarser group their rows are in.
  have hcoarse : g0 = g1 := by
    apply eq_of_mem_groupBy hg0 hg1 hs0 hs1
    rw [← key_of_values_eq h hplain hg hg0 hv0 hsg hs0,
      ← key_of_values_eq h hplain hg' hg1 hv1 hsg' hs1, hkey]
  have hvalues : sel.values env (unitOf g) = sel.values env (unitOf g') := by
    rw [values_eq h, hv0, hv1, hcoarse]
  have hkeys := hsort g hg g' hg' hvalues
  rw [key_eq h, key_eq h, hkey]
  congr 1
  apply List.map_congr_left
  intro k hk
  have hmem : k ∈ sel.groupBy := h.groupBy ▸ List.mem_append_right _ hk
  obtain ⟨x, hx, rfl⟩ := List.mem_map.mp (h.extra_mem k hk)
  rw [← eval_key hmem (hplain _ hmem) hg hsg, ← eval_key hmem (hplain _ hmem) hg' hsg']
  exact List.map_inj_left.mp hkeys x hx

theorem keysDetermined_of_bag_perm (h : Resorted sel0 sel extra)
    (hgrouped : sel.grouped = sel0.grouped) (hplain : ∀ k ∈ sel.groupBy, hasAggregate k = false)
    (hbag : (sel.bag env rows).Perm (sel0.bag env rows)) : KeysDetermined env sel0 sel rows := by
  have hempty (hrows : rows = []) (hsel : sel.grouped = true) (hbase : sel0.groupBy = []) :
      sel.groupBy = [] := by
    by_contra hne
    subst hrows
    have hlength := hbag.length_eq
    simp only [Select.bag, Select.tuples, units_nil hsel, units_nil (hgrouped ▸ hsel), if_neg hne,
      if_pos hbase] at hlength
    cases sel.distinct <;> cases sel0.distinct <;> simp at hlength
  cases hdistinct : sel.distinct with
  | false =>
      refine ⟨?_, hempty, fun hd => by simp [hdistinct] at hd⟩
      intro hsel s hs
      have hrows := List.ne_nil_of_mem hs
      have hlength := hbag.length_eq
      rw [bag_all hdistinct, bag_all (h.distinct ▸ hdistinct), List.length_map, List.length_map,
        units_grouped hsel hrows, units_grouped (hgrouped ▸ hsel) hrows, List.length_map,
        List.length_map] at hlength
      exact groups_of_length h hlength.le s hs
  | true =>
      have hbase := bag_distinct_unsorted env rows (h.distinct ▸ hdistinct) h.unsorted
      have hnodup : (sel.bag env rows).Nodup :=
        (hbag.trans hbase).nodup_iff.mpr (List.nodup_dedup _)
      rw [bag_distinct hdistinct] at hnodup
      have hvalues := determined_of_nodup hnodup
      refine ⟨?_, hempty, fun _ => hvalues⟩
      intro hsel s hs
      have hrows := List.ne_nil_of_mem hs
      rw [units_grouped hsel hrows] at hvalues
      apply groups_of_values h hplain _ _ s hs
      · intro g hg
        have hmem : sel.values env (unitOf g) ∈ sel.bag env rows := by
          rw [bag_distinct hdistinct, units_grouped hsel hrows]
          simp only [List.mem_map, List.mem_dedup]
          exact ⟨_, ⟨_, ⟨g, hg, rfl⟩, rfl⟩, rfl⟩
        have hmem0 := (hbag.trans hbase).mem_iff.mp hmem
        rw [List.mem_dedup, units_grouped (hgrouped ▸ hsel) hrows, List.map_map] at hmem0
        obtain ⟨g0, hg0, heq⟩ := List.mem_map.mp hmem0
        exact ⟨g0, hg0, by rw [← values_eq h, ← heq, values_eq h]; rfl⟩
      · intro g hg g' hg'
        exact hvalues _ (List.mem_map.mpr ⟨g, hg, rfl⟩) _ (List.mem_map.mpr ⟨g', hg', rfl⟩)

/-- Sorting keeps the bag of rows exactly when the sort keys are determined. -/
theorem bag_perm_iff (h : Resorted sel0 sel extra) (hgrouped : sel.grouped = sel0.grouped)
    (hplain : ∀ k ∈ sel.groupBy, hasAggregate k = false) :
    (sel.bag env rows).Perm (sel0.bag env rows) ↔ KeysDetermined env sel0 sel rows :=
  ⟨keysDetermined_of_bag_perm h hgrouped hplain, bag_perm_of_keysDetermined h hgrouped⟩

end Bags

section Compiled

variable {c : Catalog} {binds : Binds} {hasAgg : Bool} {items : List ReturnItem}
variable {cols : List (Nat × SqlExpr)}

/-- Every grouping expression is a column. -/
def Columns.Grouped (acc : Columns) : Prop := ∀ k ∈ acc.groupBy, k ∈ acc.cols.map (·.2)

theorem starColumns_grouped {vs : List String} {acc acc' : Columns}
    (h : starColumns c binds vs acc = .ok acc') (hacc : Columns.Grouped acc) :
    Columns.Grouped acc' := by
  induction vs generalizing acc with
  | nil =>
      obtain rfl := Except.ok.inj h
      exact hacc
  | cons v vs ih =>
      obtain ⟨sql, -, h⟩ := bind_eq_ok.mp h
      apply ih h
      intro k hk
      rw [List.map_append]
      exact List.mem_append_left _ (hacc k hk)

theorem itemColumns_grouped {i n m : Nat} {acc acc' : Columns}
    (h : itemColumns c binds hasAgg items i acc n = .ok (acc', m)) (hacc : Columns.Grouped acc) :
    Columns.Grouped acc' := by
  induction items generalizing i n acc with
  | nil =>
      obtain ⟨rfl, -⟩ := Prod.mk.inj (Except.ok.inj h)
      exact hacc
  | cons item items ih =>
      unfold itemColumns at h
      split at h
      · obtain ⟨acc'', hstar, h⟩ := bind_eq_ok.mp h
        exact ih h (starColumns_grouped hstar hacc)
      · obtain ⟨⟨sql, n'⟩, -, h⟩ := bind_eq_ok.mp h
        apply ih h
        intro k hk
        rw [List.map_append]
        split at hk
        · rcases List.mem_append.mp hk with hk | hk
          · exact List.mem_append_left _ (hacc k hk)
          · exact List.mem_append_right _ (by simpa using hk)
        · exact List.mem_append_left _ (hacc k hk)

/-- A sort column is compiled from its sort item. -/
def SortColumn (c : Catalog) (binds : Binds) (items : List ReturnItem)
    (cols : List (Nat × SqlExpr)) (o : OrderItem) (x : SqlExpr × Bool) : Prop :=
  ∃ n namesAgg m, orderColumn c binds items cols n o.expr = .ok (x.1, namesAgg, m)

theorem orderColumns_spec {os : List OrderItem} {groupBy groupBy' : List SqlExpr} {n m : Nat}
    {orderCols : List (SqlExpr × Bool)}
    (h : orderColumns c binds hasAgg items cols os groupBy n = .ok (orderCols, groupBy', m)) :
    List.Forall₂ (SortColumn c binds items cols) os orderCols ∧
      ∃ extra, groupBy' = groupBy ++ extra ∧ ∀ k ∈ extra, k ∈ orderCols.map (·.1) := by
  induction os generalizing groupBy groupBy' n m orderCols with
  | nil =>
      obtain ⟨rfl, rfl, -⟩ := Prod.mk.inj (Except.ok.inj h) |>.imp id Prod.mk.inj
      exact ⟨.nil, [], (List.append_nil _).symm, nofun⟩
  | cons o os ih =>
      obtain ⟨⟨sql, namesAgg, n'⟩, hcol, h⟩ := bind_eq_ok.mp h
      obtain ⟨⟨rest, groupBy'', n''⟩, hrest, h⟩ := bind_eq_ok.mp h
      obtain ⟨rfl, rfl, -⟩ := Prod.mk.inj (pure_eq_ok.mp h) |>.imp id Prod.mk.inj
      obtain ⟨hcols, extra, hextra, hmem⟩ := ih hrest
      refine ⟨.cons ⟨n, namesAgg, n', hcol⟩ hcols, ?_⟩
      split at hextra
      · refine ⟨sql :: extra, by simp [hextra], ?_⟩
        intro k hk
        rcases List.mem_cons.mp hk with rfl | hk
        · exact List.mem_cons_self
        · exact List.mem_cons_of_mem _ (hmem k hk)
      · exact ⟨extra, hextra, fun k hk => List.mem_cons_of_mem _ (hmem k hk)⟩

/-- A projection without its sort keys and paging. -/
def unsorted (proj : Projection) : Projection :=
  { proj with order := [], skip := none, limit := none }

theorem buildCore_resorted {proj : Projection} {n m m0 : Nat} {sel sel0 : Select}
    (h : buildCore c binds proj n = .ok (sel, m))
    (h0 : buildCore c binds (unsorted proj) n = .ok (sel0, m0)) :
    (∃ extra, Resorted sel0 sel extra) ∧
      List.Forall₂ (SortColumn c binds proj.items sel.cols) proj.order sel.orderCols := by
  obtain ⟨⟨columns, n1⟩, hcolumns, h⟩ := bind_eq_ok.mp h
  obtain ⟨⟨orderCols, groupBy, n2⟩, horder, h⟩ := bind_eq_ok.mp h
  obtain ⟨⟨limit, n3⟩, -, h⟩ := bind_eq_ok.mp h
  obtain ⟨⟨skip, n4⟩, -, h⟩ := bind_eq_ok.mp h
  obtain ⟨rfl, -⟩ := Prod.mk.inj (pure_eq_ok.mp h)
  obtain ⟨⟨columns0, n5⟩, hcolumns0, h0⟩ := bind_eq_ok.mp h0
  obtain ⟨rfl, -⟩ := Prod.mk.inj (Except.ok.inj (hcolumns.symm.trans hcolumns0))
  obtain ⟨rfl, -⟩ := Prod.mk.inj (pure_eq_ok.mp h0)
  have hgrouped : Columns.Grouped columns := itemColumns_grouped hcolumns nofun
  obtain ⟨hcols, extra, hextra, hmem⟩ := orderColumns_spec horder
  exact ⟨⟨extra, ⟨rfl, rfl, rfl, hextra, hmem, hgrouped⟩⟩, hcols⟩

end Compiled

section Orders

variable (c : Catalog) (binds : Binds) (env : Env)

/-- The items with their names and columns. -/
def named (items : List ReturnItem) (cols : List (Nat × SqlExpr)) :
    List (String × Expr × SqlExpr) :=
  (items.zip cols).map fun x => (x.1.name, x.1.expr, x.2.2)

/-- What a sort item is sorted by: the item of its name, a property read as a
result shows it, or the compiled expression itself. -/
def sortSql (items : List ReturnItem) (cols : List (Nat × SqlExpr)) (own : SqlExpr) :
    Expr → SqlExpr
  | .var v =>
      match lastNamed (named items cols) v with
      | some (.var w, sql) => if w = v then own else sql
      | some (_, sql) => sql
      | none => own
  | .prop (.var v) p =>
      if (typeOf c binds (.prop (.var v) p)).isSome then own
      else match propOutput c binds v p with
        | .ok sql => sql
        | .error _ => own
  | _ => own

def sortValues (proj : Projection) (sel : Select) (u : Scope × List Scope) : List Val :=
  (proj.order.zip sel.orderCols).map fun x =>
    (sortSql c binds proj.items sel.cols x.2.1 x.1.expr).eval env u.2 u.1

def descs (sel : Select) : List Bool := sel.orderCols.map (·.2)

/-- `ORDER BY` keeps the rows, puts them in the order of what they are sorted
by, and paging takes a part of that sequence. -/
structure OrderOnly (le : Val → Val → Bool) (proj : Projection) (sel sel0 : Select)
    (rows : List Scope) : Prop where
  kept : (sel.bag env rows).Perm (sel0.bag env rows)
  sorted : ∀ us : List (Scope × List Scope), (∀ u ∈ us, u ∈ sel.units env rows) →
    (us.map fun u => (sel.values env u, sel.sortKeys env u)).Pairwise
      (fun x y => keysLe le (descs sel) x.2 y.2 = true) →
    us.Pairwise fun u v =>
      keysLe le (descs sel) (sortValues c binds env proj sel u)
        (sortValues c binds env proj sel v) = true
  paged : ∀ out, sel.Yields env le rows out → ∃ whole,
    { sel with limit := none, skip := none }.Yields env le rows whole ∧
      out = pageOf env sel.limit sel.skip whole

/-- The sort items read what they are sorted by: a name of an item is not also a
variable's, and a property is a column. -/
def PlainSort (proj : Projection) : Prop :=
  ∀ o ∈ proj.order,
    match o.expr with
    | .var v => lookupBind binds v = none ∨ ∀ item ∈ proj.items, item.name = v → item.expr = .var v
    | .prop (.var v) p => (typeOf c binds (.prop (.var v) p)).isSome
    | _ => True

variable {c binds env}

theorem lastNamed_map {β γ : Type} {entries : List (String × β)} {f : β → γ} {v : String} :
    lastNamed (entries.map fun x => (x.1, f x.2)) v = (lastNamed entries v).map f := by
  simp [lastNamed, ← List.map_reverse, List.find?_map, Function.comp_def]

theorem mem_of_lastNamed {β : Type} {entries : List (String × β)} {v : String} {b : β}
    (h : lastNamed entries v = some b) : (v, b) ∈ entries := by
  obtain ⟨x, hx, rfl⟩ := Option.map_eq_some_iff.mp h
  have hv : x.1 = v := by simpa using List.find?_some hx
  have hmem := List.mem_reverse.mp (List.mem_of_find?_eq_some hx)
  rwa [← hv]

theorem sortSql_of_plain {proj : Projection} {cols : List (Nat × SqlExpr)} {o : OrderItem}
    {x : SqlExpr × Bool} (hplain : PlainSort c binds proj) (ho : o ∈ proj.order)
    (hx : SortColumn c binds proj.items cols o x) :
    sortSql c binds proj.items cols x.1 o.expr = x.1 := by
  obtain ⟨n, namesAgg, m, hcol⟩ := hx
  have hitem := hplain o ho
  cases hexpr : o.expr with
  | var v =>
      rw [hexpr] at hitem hcol
      have hnamed : lastNamed ((proj.items.zip cols).map fun x => (x.1.name, x.2.2)) v =
          (lastNamed (named proj.items cols) v).map (·.2) := by
        rw [← lastNamed_map, named, List.map_map]
        rfl
      cases hlast : lastNamed (named proj.items cols) v with
      | none => simp only [sortSql, hlast]
      | some entry =>
          obtain ⟨e, sql⟩ := entry
          rcases hitem with hunbound | hsame
          · have hsql : sql = x.1 := by
              simp only [orderColumn, hunbound, hnamed, hlast] at hcol
              exact (Prod.mk.inj (Except.ok.inj hcol)).1
            cases e with
            | var w => simp [sortSql, hlast, hsql]
            | _ => simp only [sortSql, hlast, hsql]
          · obtain ⟨pair, hpair, heq⟩ := List.mem_map.mp (mem_of_lastNamed hlast)
            obtain ⟨hname, hentry⟩ := Prod.mk.inj heq
            obtain ⟨he, -⟩ := Prod.mk.inj hentry
            have hvar := hsame pair.1 (List.of_mem_zip hpair).1 hname
            rw [he] at hvar
            subst hvar
            simp [sortSql, hlast]
  | prop b p =>
      rw [hexpr] at hitem
      cases b with
      | var v =>
          simp only [sortSql, if_pos hitem]
      | _ => rfl
  | _ => rfl

theorem sortValues_of_plain {proj : Projection} {sel : Select} (hplain : PlainSort c binds proj)
    (hcols : List.Forall₂ (SortColumn c binds proj.items sel.cols) proj.order sel.orderCols)
    (u : Scope × List Scope) : sortValues c binds env proj sel u = sel.sortKeys env u := by
  have hzip : ∀ {os : List OrderItem} {xs : List (SqlExpr × Bool)},
      List.Forall₂ (SortColumn c binds proj.items sel.cols) os xs → (∀ o ∈ os, o ∈ proj.order) →
        ((os.zip xs).map fun x =>
          (sortSql c binds proj.items sel.cols x.2.1 x.1.expr).eval env u.2 u.1) =
          xs.map fun x => x.1.eval env u.2 u.1 := by
    intro os xs hforall hmem
    induction hforall with
    | nil => rfl
    | cons hx _ ih =>
        rw [List.zip_cons_cons, List.map_cons, List.map_cons,
          sortSql_of_plain hplain (hmem _ List.mem_cons_self) hx,
          ih fun o ho => hmem o (List.mem_cons_of_mem _ ho)]
  exact hzip hcols fun _ ho => ho

theorem pageOf_none {β : Type} (out : List β) : pageOf env none none out = out := rfl

theorem yields_page {le : Val → Val → Bool} {sel : Select} {rows : List Scope}
    {out : List (List Val)} (h : sel.Yields env le rows out) :
    ∃ whole, { sel with limit := none, skip := none }.Yields env le rows whole ∧
      out = pageOf env sel.limit sel.skip whole := by
  obtain ⟨sorted, hperm, hsorted, rfl⟩ := h
  exact ⟨sorted.map (·.1), ⟨sorted, hperm, hsorted, (pageOf_none _).symm⟩, rfl⟩

end Orders

section Unwound

def noTypesEnv : Env :=
  ⟨Postgres.literal, ⟨⟨TypeCatalog.empty, []⟩, [], [], [], [], []⟩, fun _ => [], .obj [], []⟩

/-- `UNWIND [1, 2] AS x`. -/
def unwoundBinds : Binds := [("x", .scalar (.col ⟨"uw", 1⟩ "v"))]

def unwoundRows : List Scope :=
  [fun _ => elementTuple (.num ⟨1, 0⟩), fun _ => elementTuple (.num ⟨2, 0⟩)]

/-- `RETURN DISTINCT x ORDER BY x`. -/
def distinctVar : Projection := ⟨[⟨.var "x", none⟩], true, [⟨.var "x", false⟩], none, none⟩

/-- `RETURN DISTINCT 1 AS one ORDER BY x`. -/
def distinctOne : Projection :=
  ⟨[⟨.lit (.int 1), some "one"⟩], true, [⟨.var "x", false⟩], none, none⟩

def selectVar (sorted : Bool) : Select :=
  ⟨true, [(0, .col ⟨"uw", 1⟩ "v")], ["x"], [],
    if sorted then [(.col ⟨"uw", 1⟩ "v", false)] else [], none, none⟩

def selectOne (sorted : Bool) : Select :=
  ⟨true, [(0, .lit (.int 1) "1")], ["one"], [],
    if sorted then [(.col ⟨"uw", 1⟩ "v", false)] else [], none, none⟩

theorem selectVar_accepted : (selectVar true).Accepted :=
  Select.accepted_of_plain rfl rfl rfl rfl rfl

theorem selectOne_accepted (sorted : Bool) : (selectOne sorted).Accepted := by
  cases sorted with
  | false => exact Select.accepted_of_plain rfl rfl rfl rfl rfl
  | true => exact Select.accepted_of_plain rfl rfl rfl rfl rfl

end Unwound

end OntologicalDb.SortedProjections
