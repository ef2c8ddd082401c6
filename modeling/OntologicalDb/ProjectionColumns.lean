import OntologicalDb.ExceptRules
import OntologicalDb.Projection

/-!
The numbers of a projection's columns: `*` numbers its columns by position, an item by its own
index, and the names are paired with the columns by position.
-/

namespace OntologicalDb.ProjectionColumns

open OntologicalDb.CompileExpr
open OntologicalDb.CypherSyntax
open OntologicalDb.ExceptRules
open OntologicalDb.Projection
open OntologicalDb.RowDocuments
open OntologicalDb.Sql
open OntologicalDb.TypeCatalog
open OntologicalDb.Values

section Outputs

/-- What one output of a projection shows: a variable of a `*`, or an item. -/
inductive Output
  | variable (v : String)
  | item (ret : ReturnItem)

def Output.name : Output → String
  | .variable v => v
  | .item ret => ret.name

def Output.Computes (c : Catalog) (binds : Binds) : Output → SqlExpr → Prop
  | .variable v, sql => varValue c binds v = .ok sql
  | .item ret, sql => ∃ n m, exprForOutput c binds n ret.expr = .ok (sql, m)

def isStar : Expr → Bool
  | .star => true
  | _ => false

theorem isStar_iff {e : Expr} : isStar e = true ↔ e = .star := by
  cases e <;> simp [isStar]

def itemOutputs (binds : Binds) (item : ReturnItem) : List Output :=
  if isStar item.expr then binds.map fun b => .variable b.1 else [.item item]

def outputs (binds : Binds) (items : List ReturnItem) : List Output :=
  items.flatMap (itemOutputs binds)

/-- The expression under a column's alias, and so what a name paired with it reads. -/
def column (sel : Select) (j : Nat) : Option SqlExpr :=
  (sel.cols.find? fun x => x.1 = j).map (·.2)

/-- A row as an object: every name with the column of its position. -/
def rowOf (env : Env) (sel : Select) (u : Scope × List Scope) : List (String × Option Val) :=
  sel.names.zipIdx.map fun x => (x.1, (column sel x.2).map fun sql => sql.eval env u.2 u.1)

/-- The compiled columns line up with what the projection asks for. -/
structure LinesUp (c : Catalog) (binds : Binds) (items : List ReturnItem) (sel : Select) :
    Prop where
  distinct : (sel.cols.map (·.1)).Nodup
  names : sel.names = (outputs binds items).map Output.name
  computed : ∀ j o, (outputs binds items)[j]? = some o →
    ∃ sql, column sel j = some sql ∧ o.Computes c binds sql
  values : ∀ env u j o, (outputs binds items)[j]? = some o →
    (∀ (k : Nat) (o' : Output), j < k → (outputs binds items)[k]? = some o' → o'.name ≠ o.name) →
      ∃ sql, o.Computes c binds sql ∧
        lastNamed (rowOf env sel u) o.name = some (some (sql.eval env u.2 u.1))

/-- Nothing but another `*` stands behind a `*`. -/
def StarsLast (items : List ReturnItem) : Prop :=
  items.Pairwise fun a b => isStar a.expr = true → isStar b.expr = true

/-- The numbers the columns get, from the item's index and the column's position on. -/
def numbers (vars : Nat) : List ReturnItem → Nat → Nat → List Nat
  | [], _, _ => []
  | item :: items, i, p =>
      if isStar item.expr then List.range' p vars ++ numbers vars items (i + 1) (p + vars)
      else i :: numbers vars items (i + 1) (p + 1)

end Outputs

section Numbering

variable {c : Catalog} {binds : Binds} {hasAgg : Bool}

/-- What the loops append: numbered columns that compute the outputs. -/
structure Appends (c : Catalog) (binds : Binds) (outs : List Output) (nums : List Nat)
    (acc out : Columns) : Prop where
  names : out.names = acc.names ++ outs.map Output.name
  cols : ∃ more, out.cols = acc.cols ++ more ∧ more.map (·.1) = nums ∧
    List.Forall₂ (fun o x => o.Computes c binds x.2) outs more

theorem Appends.nil (acc : Columns) : Appends c binds [] [] acc acc :=
  ⟨(List.append_nil _).symm, [], (List.append_nil _).symm, rfl, .nil⟩

theorem Appends.one (acc : Columns) (k : Nat) {o : Output} {sql : SqlExpr}
    (h : o.Computes c binds sql) (keys : List SqlExpr) :
    Appends c binds [o] [k] acc ⟨acc.cols ++ [(k, sql)], acc.names ++ [o.name], keys⟩ :=
  ⟨rfl, [(k, sql)], rfl, rfl, .cons h .nil⟩

theorem Appends.trans {outs outs' : List Output} {nums nums' : List Nat}
    {acc mid out : Columns} (h : Appends c binds outs nums acc mid)
    (h' : Appends c binds outs' nums' mid out) :
    Appends c binds (outs ++ outs') (nums ++ nums') acc out := by
  rcases h.cols with ⟨more, hcols, rfl, hcomputes⟩
  rcases h'.cols with ⟨more', hcols', rfl, hcomputes'⟩
  refine ⟨?_, more ++ more', ?_, List.map_append, ?_⟩
  · rw [h'.names, h.names, List.map_append, List.append_assoc]
  · rw [hcols', hcols, List.append_assoc]
  · exact List.rel_append hcomputes hcomputes'

theorem starColumns_appends {vs : List String} {acc out : Columns}
    (h : starColumns c binds vs acc = .ok out) :
    Appends c binds (vs.map .variable) (List.range' acc.cols.length vs.length) acc out := by
  induction vs generalizing acc with
  | nil =>
      obtain rfl := Except.ok.inj h
      exact .nil acc
  | cons v vs ih =>
      rcases bind_eq_ok.mp h with ⟨sql, hsql, h⟩
      have hrest := ih h
      rw [List.length_append, List.length_singleton] at hrest
      have hvar : (Output.variable v).Computes c binds sql := hsql
      exact (Appends.one acc acc.cols.length hvar _).trans hrest

theorem itemColumns_appends {items : List ReturnItem} {i n m : Nat} {acc out : Columns}
    (h : itemColumns c binds hasAgg items i acc n = .ok (out, m)) :
    Appends c binds (outputs binds items) (numbers binds.length items i acc.cols.length)
      acc out := by
  induction items generalizing i n acc with
  | nil =>
      obtain ⟨rfl, -⟩ := Prod.mk.inj (Except.ok.inj h)
      exact .nil acc
  | cons item items ih =>
      unfold itemColumns at h
      unfold outputs numbers
      rw [List.flatMap_cons]
      split at h
      next hstar =>
        rcases bind_eq_ok.mp h with ⟨mid, hmid, h⟩
        have hfirst := starColumns_appends hmid
        have hlen : mid.cols.length = acc.cols.length + binds.length := by
          rcases hfirst.cols with ⟨more, hcols, hnums, -⟩
          have := congrArg List.length hnums
          rw [List.length_map, List.length_range', List.length_map] at this
          rw [hcols, List.length_append, this]
        have hrest := ih h
        have hitem : isStar item.expr = true := by rw [hstar]; rfl
        rw [hlen] at hrest
        rw [if_pos hitem, itemOutputs, if_pos hitem]
        rw [List.map_map, List.length_map] at hfirst
        exact hfirst.trans hrest
      next hstar =>
        rcases bind_eq_ok.mp h with ⟨v, hsql, h⟩
        have hrest := ih h
        rw [List.length_append, List.length_singleton] at hrest
        have hitem : ¬ isStar item.expr = true := fun hs => hstar (isStar_iff.mp hs)
        rw [if_neg hitem, itemOutputs, if_neg hitem]
        have hitem : (Output.item item).Computes c binds v.1 := ⟨n, v.2, hsql⟩
        exact (Appends.one acc i hitem _).trans hrest

end Numbering

section Positions

variable {vars : Nat} {items : List ReturnItem}

/-- Every item's index is the position of its column. -/
def InStep (vars : Nat) : List ReturnItem → Nat → Nat → Prop
  | [], _, _ => True
  | item :: items, i, p =>
      if isStar item.expr then InStep vars items (i + 1) (p + vars)
      else i = p ∧ InStep vars items (i + 1) (p + 1)

theorem le_numbers {i p lo : Nat} (hi : lo ≤ i) (hp : lo ≤ p) :
    ∀ k ∈ numbers vars items i p, lo ≤ k := by
  induction items generalizing i p with
  | nil => exact fun k hk => absurd hk List.not_mem_nil
  | cons item items ih =>
      intro k hk
      rw [numbers] at hk
      split at hk
      · rcases List.mem_append.mp hk with hk | hk
        · exact hp.trans (List.mem_range'_1.mp hk).1
        · exact ih (hi.trans (Nat.le_succ _)) (hp.trans (Nat.le_add_right _ _)) k hk
      · rcases List.mem_cons.mp hk with rfl | hk
        · exact hi
        · exact ih (hi.trans (Nat.le_succ _)) (hp.trans (Nat.le_succ _)) k hk

/-- Distinct numbers that reach every position are the positions. -/
theorem inStep_of_numbers {i p : Nat} (hnodup : (List.range p ++ numbers vars items i p).Nodup)
    (hall : ∀ k < p + (numbers vars items i p).length, k ∈ List.range p ++ numbers vars items i p) :
    InStep vars items i p := by
  induction items generalizing i p with
  | nil => trivial
  | cons item items ih =>
      rw [numbers] at hnodup hall
      rw [InStep]
      split at hnodup
      next hstar =>
        rw [if_pos hstar] at hall ⊢
        have hrange : List.range p ++ List.range' p vars = List.range (p + vars) := by
          rw [List.range_add, List.range'_eq_map_range]
        rw [← List.append_assoc, hrange] at hnodup hall
        refine ih hnodup fun k hk => hall k ?_
        rw [List.length_append, List.length_range']
        omega
      next hstar =>
        rw [if_neg hstar] at hall ⊢
        have hip : i = p := by
          rcases Nat.lt_trichotomy i p with hlt | heq | hgt
          · exact absurd List.mem_cons_self
              (List.disjoint_of_nodup_append hnodup (List.mem_range.mpr hlt))
          · exact heq
          · have hp := hall p (by rw [List.length_cons]; omega)
            rcases List.mem_append.mp hp with hp | hp
            · exact absurd (List.mem_range.mp hp) (lt_irrefl _)
            · rcases List.mem_cons.mp hp with hp | hp
              · exact hp.symm
              · have hle : p + 1 ≤ p := le_numbers (hgt.trans (Nat.lt_succ_self _)) le_rfl p hp
                exact absurd hle (Nat.not_succ_le_self _)
        refine ⟨hip, ?_⟩
        subst hip
        have hrange : List.range i ++ i :: numbers vars items (i + 1) (i + 1) =
            List.range (i + 1) ++ numbers vars items (i + 1) (i + 1) := by
          rw [List.range_succ, List.append_assoc, List.singleton_append]
        rw [hrange] at hnodup hall
        refine ih hnodup fun k hk => hall k ?_
        rw [List.length_cons]
        omega

theorem numbers_of_inStep {i p : Nat} (h : InStep vars items i p) :
    ∃ len, numbers vars items i p = List.range' p len := by
  induction items generalizing i p with
  | nil => exact ⟨0, rfl⟩
  | cons item items ih =>
      rw [InStep] at h
      rw [numbers]
      split at h
      next hstar =>
        rcases ih h with ⟨len, hlen⟩
        rw [if_pos hstar, hlen]
        exact ⟨vars + len, List.range'_append_1⟩
      next hstar =>
        rcases ih h.2 with ⟨len, hlen⟩
        rw [if_neg hstar, hlen, h.1]
        exact ⟨len + 1, List.range'_succ.symm⟩

/-- Once out of step, an index does not come back. -/
theorem allStars_of_inStep {i p : Nat} (hout : i < p ∧ 1 ≤ vars ∨ p < i ∧ vars = 0)
    (h : InStep vars items i p) :
    ∀ item ∈ items, isStar item.expr = true := by
  induction items generalizing i p with
  | nil => exact fun item hitem => absurd hitem List.not_mem_nil
  | cons item items ih =>
      rw [InStep] at h
      split at h
      next hstar =>
        refine List.forall_mem_cons.mpr ⟨hstar, ih ?_ h⟩
        omega
      next hstar =>
        obtain ⟨rfl, -⟩ := h
        omega

theorem inStep_of_stars {i p : Nat} (h : ∀ item ∈ items, isStar item.expr = true) :
    InStep vars items i p := by
  induction items generalizing i p with
  | nil => trivial
  | cons item items ih =>
      rcases List.forall_mem_cons.mp h with ⟨hstar, hrest⟩
      rw [InStep, if_pos hstar]
      exact ih hrest

theorem inStep_iff {p : Nat} : InStep vars items p p ↔ vars = 1 ∨ StarsLast items := by
  induction items generalizing p with
  | nil => exact iff_of_true trivial (.inr .nil)
  | cons item items ih =>
      rw [InStep, StarsLast, List.pairwise_cons]
      split
      next hstar =>
        by_cases hone : vars = 1
        · subst hone
          rw [ih]
          exact iff_of_true (.inl rfl) (.inl rfl)
        · constructor
          · intro h
            have hall := allStars_of_inStep (by omega) h
            refine .inr ⟨fun b hb _ => hall b hb, ?_⟩
            exact List.pairwise_of_forall_mem_list fun a _ b hb _ => hall b hb
          · intro h
            exact inStep_of_stars fun b hb => (h.resolve_left hone).1 b hb hstar
      next hstar =>
        rw [ih]
        constructor
        · rintro ⟨-, h | h⟩
          · exact .inl h
          · exact .inr ⟨fun b _ hs => absurd hs hstar, h⟩
        · rintro (h | h)
          · exact ⟨rfl, .inl h⟩
          · exact ⟨rfl, .inr h.2⟩

end Positions

section Reading

variable {c : Catalog} {binds : Binds} {items : List ReturnItem} {sel : Select}

theorem column_of_mem (hnodup : (sel.cols.map (·.1)).Nodup) {k : Nat} {sql : SqlExpr}
    (h : (k, sql) ∈ sel.cols) : column sel k = some sql := by
  unfold column
  cases hfind : sel.cols.find? fun x => x.1 = k with
  | none => exact absurd (decide_eq_true rfl) (List.find?_eq_none.mp hfind _ h)
  | some y =>
      have hp := List.find?_some hfind
      have hy : y.1 = k := of_decide_eq_true hp
      have heq : y = (k, sql) :=
        List.inj_on_of_nodup_map hnodup (List.mem_of_find?_eq_some hfind) h hy
      rw [heq]
      rfl

theorem mem_of_column {k : Nat} {sql : SqlExpr} (h : column sel k = some sql) :
    k ∈ sel.cols.map (·.1) := by
  rcases Option.map_eq_some_iff.mp h with ⟨y, hy, -⟩
  have hp := List.find?_some hy
  have hk : y.1 = k := of_decide_eq_true hp
  exact hk ▸ List.mem_map_of_mem (List.mem_of_find?_eq_some hy)

theorem lastNamed_of_last {β : Type} {entries : List (String × β)} {j : Nat} {v : String} {b : β}
    (hj : entries[j]? = some (v, b))
    (hlast : ∀ k x, j < k → entries[k]? = some x → x.1 ≠ v) : lastNamed entries v = some b := by
  have hsplit : entries = entries.take j ++ (v, b) :: entries.drop (j + 1) := by
    rcases List.getElem?_eq_some_iff.mp hj with ⟨hlt, hget⟩
    rw [← hget, List.getElem_cons_drop, List.take_append_drop]
  have hdrop : (entries.drop (j + 1)).reverse.find? (fun x => x.1 = v) = none := by
    rw [List.find?_eq_none]
    intro x hx
    rcases List.mem_iff_getElem?.mp (List.mem_reverse.mp hx) with ⟨k, hk⟩
    rw [List.getElem?_drop] at hk
    simpa using hlast (j + 1 + k) x (by omega) hk
  unfold lastNamed
  rw [hsplit, List.reverse_append, List.reverse_cons, List.append_assoc, List.find?_append,
    hdrop]
  simp

theorem buildCore_appends {proj : Projection} {n m : Nat}
    (h : buildCore c binds proj n = .ok (sel, m)) :
    sel.names = (outputs binds proj.items).map Output.name ∧
      sel.cols.map (·.1) = numbers binds.length proj.items 0 0 ∧
      List.Forall₂ (fun o x => o.Computes c binds x.2) (outputs binds proj.items) sel.cols := by
  unfold buildCore at h
  rcases bind_eq_ok.mp h with ⟨columns, hcolumns, h⟩
  rcases bind_eq_ok.mp h with ⟨order, -, h⟩
  rcases bind_eq_ok.mp h with ⟨limit, -, h⟩
  rcases bind_eq_ok.mp h with ⟨skip, -, h⟩
  have hspec := itemColumns_appends hcolumns
  rcases hspec.cols with ⟨more, hcols, hnums, hcomputes⟩
  obtain ⟨rfl, -⟩ := Prod.mk.inj (Except.ok.inj h)
  rw [List.nil_append] at hcols
  refine ⟨hspec.names, ?_, ?_⟩
  · change columns.1.cols.map (·.1) = _
    rw [hcols, hnums]
    rfl
  · change List.Forall₂ _ _ columns.1.cols
    rw [hcols]
    exact hcomputes

def literal (n : Int) : Expr := .lit (.int n)

/-- Two variables, and what is compiled for `RETURN *, 3`. -/
def twoScalars : Binds :=
  [("a", .scalar (.lit (.int 1) "")), ("b", .scalar (.lit (.int 2) ""))]

def starAndItem : Projection := ⟨[⟨.star, none⟩, ⟨literal 3, some "x"⟩], false, [], none, none⟩

def itemAndStar : Projection := ⟨[⟨literal 3, some "x"⟩, ⟨.star, none⟩], false, [], none, none⟩

end Reading

end OntologicalDb.ProjectionColumns
