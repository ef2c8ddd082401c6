import Mathlib
import OntologicalDb.TypeqlSimulation

/-!
The compiler of `match` preserves meaning: one pattern at a time, through negations and
disjunctions, its rows are the rows of the patterns.
-/

namespace OntologicalDb.TypeqlPreservation

open OntologicalDb.ExceptAgreement
open OntologicalDb.GraphStorage
open OntologicalDb.TypeCatalog
open OntologicalDb.TypeqlCompiler
open OntologicalDb.TypeqlRows
open OntologicalDb.TypeqlSimulation
open OntologicalDb.TypeqlSyntax

variable {α : Type} {g : Graph α} {c c' c₁ c₂ : Compiler α} {var : String}

section Scans

@[simp] theorem columns_head (col : String) (x : α) (cols : List (String × α)) :
    columns g ((col, x) :: cols) col = x := by
  simp [columns]

@[simp] theorem columns_tail {col col' : String} (h : col ≠ col') (x : α) (cols : List (String × α)) :
    columns g ((col, x) :: cols) col' = columns g cols col' := by
  simp [columns, h]

theorem foldl_pushWhere (W : List (Scope α → Bool)) (c : Compiler α) :
    W.foldl Compiler.pushWhere c = { c with wheres := c.wheres ++ W } := by
  induction W generalizing c with
  | nil => simp
  | cons w W ih =>
      rw [List.foldl_cons, ih]
      simp [Compiler.pushWhere]

theorem foldl_pushWhere_map {β : Type} (conds : β → Scope α → Bool) (items : List β) (c : Compiler α) :
    items.foldl (fun c i => c.pushWhere (conds i)) c = { c with wheres := c.wheres ++ items.map conds } := by
  rw [← foldl_pushWhere, List.foldl_map]

theorem Sound.setType (hc : Sound g c) (v : String) (tid : Int) : Sound g (c.setType v tid) := fun a ha =>
  ⟨(hc a ha).view, (hc a ha).wheres⟩

theorem Sound.fresh (hc : Sound g c) : Sound g c.fresh := fun a ha =>
  ⟨(hc a (Nat.lt_of_succ_lt ha)).view, (hc a (Nat.lt_of_succ_lt ha)).wheres⟩

theorem Sound.nested (hc : Sound g c) (types : String → Option Int) :
    Sound g { c.nested with isaTypes := types } := fun a ha => by
  have hlt : c.n < a := (Nat.le_add_right _ 1000).trans_lt ha
  refine ⟨fun ρ row => ?_, fun w hw => (List.not_mem_nil hw).elim⟩
  rw [view_nested]
  exact congrArg Row.clear ((hc a hlt).view ρ row)

/-- A variable is bound to the rows of a table that meet conditions on their own columns. -/
theorem Steps.scan {β : Type} (hc : Sound g c) (var : String) (items : List β) (col : β → String → α)
    (W : List (Scope α → Bool)) (cond : (String → α) → Bool) (b : Bind α) (value ident : (String → α) → α)
    (hb : b = .inst (c.n + 1) ∨ (∃ tids, b = .attr (c.n + 1) tids) ∨ b = .type (c.n + 1))
    (hval : ∀ ρ, b.val ρ = value (ρ (c.n + 1))) (hid : ∀ ρ, b.id ρ = ident (ρ (c.n + 1)))
    (hown : ∀ w ∈ W, ∀ ρ ρ' : Scope α, ρ (c.n + 1) = ρ' (c.n + 1) → w ρ = w ρ')
    (hW : ∀ ρ : Scope α, W.all (· ρ) = cond (ρ (c.n + 1))) :
    Steps g c ((W.foldl Compiler.pushWhere (c.fresh.pushFrom (c.n + 1) fun _ => items.map col)).bind var b)
      fun r => (items.filter fun i => cond (col i)).map fun i =>
        r.set var (value (col i)) (ident (col i)) := by
  have hnew : Ignores g c (c.n + 1) := hc _ (Nat.lt_succ_self _)
  rw [foldl_pushWhere]
  refine Steps.of_skip (Steps.join (W := W) (.refl _) hc rfl rfl rfl (fun a hne ha => ?_) fun ρ => ?_)
  · refine Ignores.bindAlias ⟨ha.view, fun w hw ρ row => ?_⟩ hne hb
    rcases List.mem_append.mp hw with hw | hw
    · exact ha.wheres w hw ρ row
    · exact hown w hw _ _ (Function.update_of_ne hne.symm _ _)
  · have hview (row : String → α) : view g (Compiler.bind
        { c.fresh.pushFrom (c.n + 1) fun _ => items.map col with wheres := c.wheres ++ W } var b)
        (Function.update ρ (c.n + 1) row) = (view g c ρ).set var (value row) (ident row) := by
      rw [view_bind, hval, hid, Function.update_self]
      exact congrArg (fun r : Row α => r.set var (value row) (ident row)) (hnew.view ρ row)
    rw [List.filter_map, List.map_map, List.filter_map, List.map_map]
    have hfilter : (items.filter (((fun ρ => W.all (· ρ)) ∘ Function.update ρ (c.n + 1)) ∘ col)) =
        items.filter fun i => cond (col i) := by
      refine List.filter_congr fun i _ => ?_
      change W.all (· (Function.update ρ (c.n + 1) (col i))) = cond (col i)
      rw [hW, Function.update_self]
    rw [hfilter]
    exact List.map_congr_left fun i _ => hview (col i)

end Scans

section Patterns

/-- A step of the compiler beside the step on rows without aliases. -/
structure Goes (g : Graph α) (c c' : Compiler α) (y : Shape × Trans α) : Prop where
  shape : y.1 = TypeqlSimulation.shape c'
  steps : Steps g c c' y.2

theorem isa_agrees (hc : Sound g c) (var ty : String) (exact : Bool) :
    Agree (Goes g c) (patIsa g c var ty exact) (isaStep g (shape c) var ty exact) := by
  unfold patIsa isaStep
  refine Agree.same fun tid _ => Agree.same fun kind _ => Agree.same fun ids _ => ?_
  have hset := Sound.setType hc var tid
  have hsorts : ((shape c).setType var tid).sorts var = (c.binds.lookup var).map sortOf := rfl
  have hlookup : (c.setType var tid).binds.lookup var = c.binds.lookup var := rfl
  simp only [hsorts, hlookup]
  cases hb : c.binds.lookup var with
  | some b =>
      cases hsort : b.isType with
      | true => simpa [sortOf, hsort] using Agree.error _
      | false =>
          simp only [sortOf, hsort, Option.map_some, Bool.false_eq_true, if_false]
          refine .ok ⟨rfl, Steps.of_skip ((Steps.setType c var tid).trans (Steps.keep fun ρ => ?_))⟩
          have hid : (view g (c.setType var tid) ρ var).id = b.id ρ := by
            simp [view, hlookup, hb]
          rw [hid]
  | none =>
      simp only [Option.map_none]
      by_cases hkind : kind = .attribute
      · rw [if_pos hkind, if_pos hkind]
        refine Agree.same fun src _ => .ok ⟨?_, ?_⟩
        · rw [shape_bind]
          rfl
        refine Steps.of_skip ((Steps.setType c var tid).trans ?_)
        have hscan := Steps.scan hset var src (fun r => columns g [("id", g.sql.int r.1), ("val", r.2)]) []
          (fun _ => true) (.attr (c.n + 1) ids) (fun row => row "val") (fun row => row "id") (.inr (.inl ⟨ids, rfl⟩)) (fun _ => rfl) (fun _ => rfl) (fun _ hw => (List.not_mem_nil hw).elim)
          fun _ => rfl
        have hne : "id" ≠ "val" := by decide
        simp only [List.filter_true, columns_head, columns_tail hne] at hscan
        exact hscan
      · rw [if_neg hkind, if_neg hkind]
        refine .ok ⟨?_, ?_⟩
        · rw [shape_bind]
          rfl
        refine Steps.of_skip ((Steps.setType c var tid).trans ?_)
        have hscan := Steps.scan hset var g.st.ogNode
          (fun r => columns g [("id", g.sql.int r.id), ("type_id", g.sql.int r.typeId)])
          [fun ρ => g.sql.any ids (ρ (c.n + 1) "type_id")] (fun row => g.sql.any ids (row "type_id"))
          (.inst (c.n + 1)) (fun row => row "id") (fun row => row "id") (.inl rfl) (fun _ => rfl) (fun _ => rfl) (fun w hw ρ ρ' h => ?_) fun ρ => Bool.and_true _
        · have hne : "id" ≠ "type_id" := by decide
          simp only [columns_head, columns_tail hne] at hscan
          exact hscan
        · rw [List.mem_singleton.mp hw]
          exact congrArg (fun row => g.sql.any ids (row "type_id")) h

/-- The condition on an owned attribute, as SQL and on a row without aliases. -/
structure Asks (g : Graph α) (c : Compiler α) (x : Compiler α × (Scope α → Int × α → Bool) × Option String)
    (y : Shape × Trans α × (Row α → Int × α → Bool) × Option String) : Prop
    extends Went (g := g) c [] x.1 (y.1, y.2.1) where
  var : x.2.2 = y.2.2.2
  cond : ∀ ρ owned, x.2.1 ρ owned = y.2.2.1 (view g x.1 ρ) owned

theorem value_agrees (hc : Sound g c) (val : HasVal) :
    Agree (Asks g c) (hasValue g c val) (valueStep g (shape c) val) := by
  have hnone : Went (g := g) c [] c (shape c, skip) := .refl fun _ hv => (List.not_mem_nil hv).elim
  cases val with
  | any => exact .ok ⟨hnone, rfl, fun _ _ => rfl⟩
  | var v =>
      unfold hasValue valueStep
      simp only [sorts_shape]
      cases hb : c.binds.lookup v with
      | none => exact .ok ⟨hnone, rfl, fun _ _ => rfl⟩
      | some b =>
          cases hsort : b.isType with
          | true => simpa [sortOf, hsort] using Agree.error _
          | false =>
              simp only [sortOf, hsort, Option.map_some, Bool.false_eq_true, if_false]
              refine .ok ⟨hnone, rfl, fun ρ owned => ?_⟩
              have hid : (view g c ρ v).id = b.id ρ := by simp [view, hb]
              exact congrArg (g.sql.cmp .eq (g.sql.int owned.1)) hid.symm
  | cmp op e =>
      unfold hasValue valueStep
      refine (expr_agrees e hc).bind fun x y he => ?_
      refine .ok ⟨⟨he.shape, he.steps, he.grows, fun _ hv => (List.not_mem_nil hv).elim⟩, rfl, fun ρ owned => ?_⟩
      have hvalue := he.value ρ
      dsimp only at hvalue ⊢
      rw [hvalue]

/-- The lateral join of one ownership. -/
theorem owned_steps {ownerId : SqlExpr α} {owner : String} {tids : List Int} {src : List (Int × α)}
    {cond : Scope α → Int × α → Bool} {cond' : Row α → Int × α → Bool} {k : Trans α} {c₃ : Compiler α}
    {out : Row α → Int × α → Row α} (hc : Sound g c) (hk : Steps g c.fresh c₂ k)
    (howner : ∀ ρ, ownerId ρ = (view g c₂ ρ owner).id)
    (hcond : ∀ ρ owned, cond ρ owned = cond' (view g c₂ ρ) owned) (hn : c₃.n = c₂.n)
    (hfrom : c₃.fromItems = c₂.fromItems ++ [⟨c.n + 1, fun ρ =>
      attrTableRows g ((ownedRows g tids src (ownerId ρ)).filter (cond ρ))⟩])
    (hwheres : c₃.wheres = c₂.wheres)
    (hignores : ∀ a, a ≠ c.n + 1 → Ignores g c₂ a → Ignores g c₃ a)
    (hview : ∀ ρ o, view g c₃ (Function.update ρ (c.n + 1) (columns g [("id", g.sql.int o.1), ("val", o.2)])) =
      out (view g c₂ ρ) o) :
    Steps g c c₃ (andThen k fun r =>
      ((ownedRows g tids src (r owner).id).filter (cond' r)).map (out r)) := by
  refine Steps.join (W := []) hk hc hn hfrom (by rw [hwheres, List.append_nil]) hignores fun ρ => ?_
  have hfilter : (fun ρ : Scope α => ([] : List (Scope α → Bool)).all (· ρ)) = fun _ => true := rfl
  rw [hfilter, List.filter_true, List.map_map, attrTableRows, List.map_map, howner, funext (hcond ρ)]
  exact List.map_congr_left fun o _ => hview ρ o

theorem has_agrees (hc : Sound g c) (owner : String) (attr : Option String) (val : HasVal) :
    Agree (Goes g c) (patHas g c owner attr val) (hasStep g (shape c) owner attr val) := by
  unfold patHas hasStep
  refine (ensure_agrees hc owner).bind fun x y hread => ?_
  obtain ⟨c₁, ownerId⟩ := x
  obtain ⟨s₁, f₁⟩ := y
  obtain rfl := hread.shape
  cases attr with
  | none => exact .error _
  | some attrName =>
      refine Agree.same fun tids _ => Agree.same fun tid _ => Agree.same fun kind _ => ?_
      by_cases hkind : kind ≠ .attribute
      · rw [if_pos hkind, if_pos hkind]
        exact .error _
      rw [if_neg hkind, if_neg hkind]
      refine Agree.same fun src _ => ?_
      have hsound : Sound g c₁ := hread.steps.sound hc
      refine (value_agrees (Sound.fresh hsound) val).bind fun x y hasks => ?_
      obtain ⟨c₂, cond, bindVar⟩ := x
      obtain ⟨s₂, f₂, cond', bindVar'⟩ := y
      obtain rfl : bindVar = bindVar' := hasks.var
      have howner (ρ : Scope α) : ownerId ρ = (view g c₂ ρ owner).id := by
        have hbound : (c₁.fresh.binds.lookup owner).isSome := hread.bound owner (List.mem_singleton_self owner)
        exact (hread.value ρ).trans (hasks.toWent.same hbound ρ).2.symm
      have hnew : Ignores g c₂ (c₁.n + 1) := by
        refine hasks.steps.ignores _ ?_ (.inl le_rfl)
        have hself := hsound _ (Nat.lt_succ_self _)
        exact ⟨hself.view, hself.wheres⟩
      have hne : "id" ≠ "val" := by decide
      cases bindVar with
      | none =>
          refine .ok ⟨hasks.shape, hread.steps.trans ?_⟩
          exact owned_steps hsound hasks.steps howner hasks.cond rfl rfl rfl (fun a _ ha => ha.pushFrom)
            fun ρ o => hnew.view ρ _
      | some v =>
          refine .ok ⟨?_, hread.steps.trans ?_⟩
          · have hshape := hasks.shape
            dsimp only at hshape ⊢
            rw [shape_bind, hshape]
            rfl
          · refine owned_steps hsound hasks.steps howner hasks.cond rfl rfl rfl
              (fun a hne ha => ha.pushFrom.bindAlias hne (.inr (.inl ⟨tids, rfl⟩))) fun ρ o => ?_
            rw [view_bind, view_pushFrom, hnew.view]
            change Row.set _ v (Function.update ρ _ _ _ "val") (Function.update ρ _ _ _ "id") = _
            have hfresh : c₁.fresh.n = c₁.n + 1 := rfl
            rw [hfresh, Function.update_self, columns_head, columns_tail hne, columns_head]

theorem cmp_agrees (hc : Sound g c) (lhs : Expr) (op : CmpOp) (rhs : Expr) :
    Agree (Goes g c) (compilePat g c (.cmp lhs op rhs)) (step g (shape c) (.cmp lhs op rhs)) := by
  unfold compilePat step
  refine (expr_agrees lhs hc).bind fun x y hl => ?_
  obtain ⟨c₁, l⟩ := x
  obtain ⟨s₁, f₁⟩ := y
  obtain rfl := hl.shape
  refine (expr_agrees rhs (hl.steps.sound hc)).bind fun x y hr => ?_
  refine .ok ⟨hr.shape, hl.steps.trans (hr.steps.trans (Steps.keep fun ρ => ?_))⟩
  have hsame : evalExpr g (view g c₁ ρ) lhs = evalExpr g (view g x.1 ρ) lhs :=
    (evalExpr_congr lhs fun v hv => hr.toWent.same (hl.bound v hv) ρ).symm
  have hleft := hl.value ρ
  have hright := hr.value ρ
  dsimp only at hleft hright ⊢
  rw [hleft, hsame, hright]

theorem let_agrees (hc : Sound g c) (var : String) (e : Expr) :
    Agree (Goes g c) (compilePat g c (.letVar var e)) (step g (shape c) (.letVar var e)) := by
  unfold compilePat step
  refine (expr_agrees e hc).bind fun x y he => ?_
  obtain ⟨c₁, s⟩ := x
  obtain ⟨s₁, f₁⟩ := y
  obtain rfl := he.shape
  refine .ok ⟨?_, he.steps.trans (Steps.value he.value)⟩
  rw [shape_bind]
  rfl

theorem sub_agrees (hc : Sound g c) (var ty : String) (exact : Bool) :
    Agree (Goes g c) (compilePat g c (.sub var ty exact)) (step g (shape c) (.sub var ty exact)) := by
  unfold compilePat step
  refine Agree.same fun ids _ => .ok ⟨?_, ?_⟩
  · rw [shape_bind]
    rfl
  have hscan := Steps.scan hc var g.catalog.types
    (fun t => columns g [("type_id", g.sql.int t.typeId), ("name", g.sql.name t.name)])
    [fun ρ => g.sql.any ids (ρ (c.n + 1) "type_id")] (fun row => g.sql.any ids (row "type_id"))
    (.type (c.n + 1)) (fun row => row "name") (fun row => row "type_id") (.inr (.inr rfl)) (fun _ => rfl) (fun _ => rfl) (fun w hw ρ ρ' h => ?_) fun ρ => Bool.and_true _
  · have hne : "type_id" ≠ "name" := by decide
    simp only [columns_head, columns_tail hne] at hscan
    exact hscan
  · rw [List.mem_singleton.mp hw]
    exact congrArg (fun row => g.sql.any ids (row "type_id")) h

theorem label_agrees (var name : String) :
    Agree (Goes g c) (compilePat g c (.label var name)) (step g (shape c) (.label var name)) := by
  unfold compilePat step
  rw [sorts_shape]
  cases hb : c.binds.lookup var with
  | none => exact .error _
  | some b =>
      cases b with
      | type a =>
          refine .ok ⟨rfl, Steps.keep fun ρ => ?_⟩
          have hval : (view g c ρ var).val = ρ a "name" := by simp [view, hb, Bind.val]
          rw [hval]
      | inst a => exact .error _
      | attr a tids => exact .error _
      | value e => exact .error _
      | column val id => exact .error _

section Players

/-- The conditions on a role player that was joined under this alias. -/
def playerConds (g : Graph α) (c : Compiler α) (relId playerId : SqlExpr α) (ids : List Int) (rel : String)
    (role : Option String) (rp : Nat) : List (Scope α → Bool) :=
  [fun ρ => g.sql.cmp .eq (ρ rp "edge_id") (relId ρ), fun ρ => g.sql.cmp .eq (ρ rp "player_id") (playerId ρ),
    fun ρ => g.sql.any ids (ρ rp "role_id")] ++
  (if role = none then (c.roleAliases.filter fun r => r.1 = rel).map (·.2) else []).map fun p ρ =>
    !(g.sql.cmp .eq (ρ rp "role_id") (ρ p "role_id") && g.sql.cmp .eq (ρ rp "player_id") (ρ p "player_id"))

theorem playerConds_all {relId playerId : SqlExpr α} {rel player : String}
    (hrel : ∀ ρ, relId ρ = (view g c ρ rel).id) (hplayer : ∀ ρ, playerId ρ = (view g c ρ player).id)
    (ids : List Int) (role : Option String) (rp : Nat) (ρ : Scope α) :
    (playerConds g c relId playerId ids rel role rp).all (· ρ) =
      (g.sql.cmp .eq (ρ rp "edge_id") (view g c ρ rel).id &&
        g.sql.cmp .eq (ρ rp "player_id") (view g c ρ player).id && g.sql.any ids (ρ rp "role_id") &&
        (role.isSome || (view g c ρ rel).players.all fun q =>
          !(g.sql.cmp .eq (ρ rp "role_id") q.1 && g.sql.cmp .eq (ρ rp "player_id") q.2))) := by
  cases role with
  | none =>
      simp only [playerConds, if_pos, List.all_append, List.all_cons, List.all_nil, Bool.and_true,
        List.all_map, hrel, hplayer, view, Option.isSome_none, Bool.false_or, Bool.and_assoc]
      rfl
  | some name =>
      simp only [playerConds, reduceCtorEq, if_false, List.map_nil, List.append_nil, List.all_cons,
        List.all_nil, Bool.and_true, hrel, hplayer, Option.isSome_some, Bool.true_or, Bool.and_assoc]

theorem playerConds_ignore {relId playerId : SqlExpr α} {ids : List Int} {rel player : String}
    {role : Option String} {rp a : Nat} (ha : Ignores g c a) (hne : a ≠ rp)
    (hrel : ∀ ρ, relId ρ = (view g c ρ rel).id) (hplayer : ∀ ρ, playerId ρ = (view g c ρ player).id)
    (w : Scope α → Bool) (hw : w ∈ playerConds g c relId playerId ids rel role rp) (ρ : Scope α)
    (row : String → α) : w (Function.update ρ a row) = w ρ := by
  have hother : Function.update ρ a row rp = ρ rp := Function.update_of_ne hne.symm _ _
  have hprior (p : Nat) (hp : p ∈ (c.roleAliases.filter fun r => r.1 = rel).map (·.2)) :
      Function.update ρ a row p "role_id" = ρ p "role_id" ∧
        Function.update ρ a row p "player_id" = ρ p "player_id" := by
    obtain ⟨r, hr, rfl⟩ := List.mem_map.mp hp
    have hplayers := congrArg (fun row => (row rel).players) (ha.view ρ row)
    exact Prod.ext_iff.mp (List.map_inj_left.mp hplayers r hr)
  rcases List.mem_append.mp hw with hw | hw
  · simp only [List.mem_cons, List.not_mem_nil, or_false] at hw
    rcases hw with rfl | rfl | rfl
    · dsimp only
      rw [hother, hrel, hrel, ha.view]
    · dsimp only
      rw [hother, hplayer, hplayer, ha.view]
    · dsimp only
      rw [hother]
  · obtain ⟨p, hp, rfl⟩ := List.mem_map.mp hw
    by_cases hrole : role = none
    · rw [if_pos hrole] at hp
      dsimp only
      rw [hother, (hprior p hp).1, (hprior p hp).2]
    · rw [if_neg hrole] at hp
      exact (List.not_mem_nil hp).elim

/-- The compiler once a role player has been joined. -/
def withPlayer (g : Graph α) (c : Compiler α) (relId playerId : SqlExpr α) (ids : List Int) (rel : String)
    (role : Option String) : Compiler α :=
  { c with
    n := c.n + 1
    fromItems := c.fromItems ++ [⟨c.n + 1, fun _ => playerRows g⟩]
    wheres := c.wheres ++ playerConds g c relId playerId ids rel role (c.n + 1)
    roleAliases := c.roleAliases ++ [(rel, c.n + 1)] }

theorem view_withPlayer (relId playerId : SqlExpr α) (ids : List Int) (rel : String) (role : Option String)
    (ρ : Scope α) : view g (withPlayer g c relId playerId ids rel role) ρ =
      (view g c ρ).addPlayer rel (ρ (c.n + 1) "role_id") (ρ (c.n + 1) "player_id") := by
  funext v
  by_cases hv : v = rel
  · subst hv
    simp [view, withPlayer, Row.addPlayer, List.filter_append]
  · simp [view, withPlayer, Row.addPlayer, List.filter_append, hv, Ne.symm hv]

theorem withPlayer_steps {relId playerId : SqlExpr α} {rel player : String} (hc : Sound g c)
    (hrel : ∀ ρ, relId ρ = (view g c ρ rel).id) (hplayer : ∀ ρ, playerId ρ = (view g c ρ player).id)
    (ids : List Int) (role : Option String) :
    Steps g c (withPlayer g c relId playerId ids rel role) fun r =>
      (g.st.ogRolePlayer.filter fun p => playerFits g r ids rel role player p).map fun p =>
        r.addPlayer rel (g.sql.int p.roleId) (g.sql.int p.playerId) := by
  refine Steps.of_skip (Steps.join (R := fun _ => playerRows g)
    (W := playerConds g c relId playerId ids rel role (c.n + 1)) (.refl _) hc rfl rfl rfl
    (fun a hne ha => ?_) fun ρ => ?_)
  · have hother (ρ : Scope α) (row : String → α) : Function.update ρ a row (c.n + 1) = ρ (c.n + 1) :=
      Function.update_of_ne hne.symm _ _
    have hkept : Ignores g c a := ⟨ha.view, ha.wheres⟩
    refine ⟨fun ρ row => ?_, fun w hw ρ row => ?_⟩
    · rw [view_withPlayer, view_withPlayer, hother, hkept.view]
    · rcases List.mem_append.mp hw with hw | hw
      · exact hkept.wheres w hw ρ row
      · exact playerConds_ignore hkept hne hrel hplayer w hw ρ row
  · have hsame (row : String → α) : view g c (Function.update ρ (c.n + 1) row) = view g c ρ :=
      (hc _ (Nat.lt_succ_self _)).view ρ row
    have hedge : "edge_id" ≠ "role_id" := by decide
    have hedge' : "edge_id" ≠ "player_id" := by decide
    have hrole : "role_id" ≠ "player_id" := by decide
    have hfits (p : RolePlayer) : (playerConds g c relId playerId ids rel role (c.n + 1)).all
        (· (Function.update ρ (c.n + 1) (columns g [("edge_id", g.sql.int p.edgeId),
          ("role_id", g.sql.int p.roleId), ("player_id", g.sql.int p.playerId)]))) =
        playerFits g (view g c ρ) ids rel role player p := by
      rw [playerConds_all hrel hplayer, hsame, Function.update_self]
      simp only [columns_head, columns_tail hedge, columns_tail hedge', columns_tail hrole]
      rfl
    rw [playerRows, List.map_map, List.filter_map, List.map_map]
    have hfilter : g.st.ogRolePlayer.filter ((fun ρ => (playerConds g c relId playerId ids rel role
        (c.n + 1)).all (· ρ)) ∘ (Function.update ρ (c.n + 1) ∘ fun r => columns g
          [("edge_id", g.sql.int r.edgeId), ("role_id", g.sql.int r.roleId),
            ("player_id", g.sql.int r.playerId)])) =
        g.st.ogRolePlayer.filter fun p => playerFits g (view g c ρ) ids rel role player p :=
      List.filter_congr fun p _ => hfits p
    rw [hfilter]
    refine List.map_congr_left fun p _ => ?_
    simp only [Function.comp_apply, view_withPlayer, hsame, Function.update_self, columns_head,
      columns_tail hedge, columns_tail hedge', columns_tail hrole]
    rfl

theorem role_agrees (hc : Sound g c) (rel : String) (role : Option String) (player : String) :
    Agree (Goes g c) (patRole g c rel role player) (roleStep g (shape c) rel role player) := by
  unfold patRole roleStep
  refine (ensure_agrees hc rel).bind fun x y hrel => ?_
  obtain ⟨c₁, relId⟩ := x
  obtain ⟨s₁, f₁⟩ := y
  obtain rfl := hrel.shape
  refine (ensure_agrees (hrel.steps.sound hc) player).bind fun x y hplayer => ?_
  obtain ⟨c₂, playerId⟩ := x
  obtain ⟨s₂, f₂⟩ := y
  obtain rfl := hplayer.shape
  refine Agree.same fun ids _ => ?_
  by_cases hids : ids = []
  · rw [if_pos hids, if_pos hids]
    exact .error _
  rw [if_neg hids, if_neg hids]
  have hsound : Sound g c₂ := hplayer.steps.sound (hrel.steps.sound hc)
  have hrelId (ρ : Scope α) : relId ρ = (view g c₂ ρ rel).id := by
    have hbound := hrel.bound rel (List.mem_singleton_self rel)
    exact (hrel.value ρ).trans (hplayer.toWent.same hbound ρ).2.symm
  have hjoined := withPlayer_steps hsound hrelId hplayer.value ids role
  have hsteps := hrel.steps.trans (hplayer.steps.trans hjoined)
  simp only [foldl_pushWhere_map]
  have hwheres : c₂.wheres ++ playerConds g c₂ relId playerId ids rel role (c₂.n + 1) =
      c₂.wheres ++ [fun ρ => g.sql.cmp .eq (ρ (c₂.n + 1) "edge_id") (relId ρ)] ++
        [fun ρ => g.sql.cmp .eq (ρ (c₂.n + 1) "player_id") (playerId ρ)] ++
        [fun ρ => g.sql.any ids (ρ (c₂.n + 1) "role_id")] ++
        (if role = none then (c₂.roleAliases.filter fun r => r.1 = rel).map (·.2) else []).map fun p ρ =>
          !(g.sql.cmp .eq (ρ (c₂.n + 1) "role_id") (ρ p "role_id") &&
            g.sql.cmp .eq (ρ (c₂.n + 1) "player_id") (ρ p "player_id")) := by
    simp only [playerConds, List.append_assoc, List.cons_append, List.nil_append]
  refine .ok ⟨rfl, ?_⟩
  rw [withPlayer, hwheres] at hsteps
  exact hsteps

end Players

/-- A nested query has rows exactly where its patterns do, from the row of the enclosing query. -/
theorem nested_isEmpty {types : String → Option Int} {f : Trans α}
    (hs : Steps g { c.nested with isaTypes := types } c' f) (ρ : Scope α) :
    (c'.rows ρ).isEmpty = (f (view g c ρ).clear).isEmpty := by
  have hrows := hs.rows ρ
  have hstart : Compiler.rows { c.nested with isaTypes := types } ρ = [ρ] := rfl
  rw [hstart, List.map_singleton, view_nested, List.flatMap_singleton] at hrows
  rw [← hrows, List.isEmpty_map]

mutual

theorem step_agrees : ∀ (p : Pat) {c : Compiler α}, Sound g c →
    Agree (Goes g c) (compilePat g c p) (step g (shape c) p)
  | .isa var ty exact, c, hc => by
      unfold compilePat step
      exact isa_agrees hc var ty exact
  | .isaAnon var ty, c, hc => by
      unfold compilePat step
      exact isa_agrees hc var ty false
  | .has owner attr val, c, hc => by
      unfold compilePat step
      exact has_agrees hc owner attr val
  | .role rel role player, c, hc => by
      unfold compilePat step
      exact role_agrees hc rel role player
  | .cmp lhs op rhs, c, hc => cmp_agrees hc lhs op rhs
  | .letVar var e, c, hc => let_agrees hc var e
  | .sub var ty exact, c, hc => sub_agrees hc var ty exact
  | .label var name, c, _ => label_agrees var name
  | .not inner, c, hc => by
      unfold compilePat step
      refine (steps_agrees inner (Sound.nested hc _)).bind fun sub y hinner => .ok ⟨rfl, ?_⟩
      exact Steps.keep fun ρ => nested_isEmpty hinner.steps ρ
  | .or branches, c, hc => by
      unfold compilePat step
      refine (branches_agree branches hc).bind fun parts fs hparts => .ok ⟨rfl, ?_⟩
      refine Steps.keep fun ρ => ?_
      have hany : parts.any (· ρ) = (parts.map (· ρ)).any id := by
        rw [List.any_map]
        rfl
      rw [hany, hparts ρ, List.any_map]
      rfl

theorem steps_agrees : ∀ (pats : List Pat) {c : Compiler α}, Sound g c →
    Agree (Goes g c) (compileAll g c pats) (steps g (shape c) pats)
  | [], c, _ => by
      unfold compileAll steps
      exact .ok ⟨rfl, .refl c⟩
  | p :: ps, c, hc => by
      unfold compileAll steps
      refine (step_agrees p hc).bind fun c₁ y hp => ?_
      obtain ⟨s₁, f₁⟩ := y
      obtain rfl := hp.shape
      rw [← bind_pure (compileAll g c₁ ps)]
      refine (steps_agrees ps (hp.steps.sound hc)).bind fun c₂ y hps => ?_
      exact .ok ⟨hps.shape, hp.steps.trans hps.steps⟩

theorem branches_agree : ∀ (branches : List (List Pat)) {c : Compiler α}, Sound g c →
    Agree (fun parts fs => ∀ ρ, parts.map (· ρ) = fs.map fun f => !(f (view g c ρ).clear).isEmpty)
      (compileBranches g c branches) (branchSteps g (shape c) branches)
  | [], c, _ => by
      unfold compileBranches branchSteps
      exact .ok fun _ => rfl
  | b :: bs, c, hc => by
      unfold compileBranches branchSteps
      refine (steps_agrees b (Sound.nested hc _)).bind fun sub y hb => ?_
      refine (branches_agree bs hc).bind fun parts fs hbs => .ok fun ρ => ?_
      rw [List.map_cons, List.map_cons, hbs ρ]
      exact congrArg (fun x => (!x) :: _) (nested_isEmpty hb.steps ρ)

end

/-- No variable has a value yet. -/
def Row.blank (g : Graph α) : Row α := fun _ => ⟨g.sql.null, g.sql.null, []⟩

/-- A `match` is compiled exactly when its patterns make sense, fails with the same message where
they do not, and answers with the rows the patterns have. -/
theorem match_preserved (g : Graph α) (pats : List Pat) :
    Agree (fun c y => y.1 = shape c ∧ ∀ ρ, (c.rows ρ).map (view g c) = y.2 (Row.blank g))
      (compilePatterns g .new pats)
      (steps g ⟨fun _ => none, scanTypes g (fun _ => none) pats⟩ pats) := by
  have hsound : Sound g { (Compiler.new : Compiler α) with isaTypes := scanTypes g (fun _ => none) pats } :=
    fun _ _ => ⟨fun _ _ => rfl, fun _ hw => (List.not_mem_nil hw).elim⟩
  refine (steps_agrees pats hsound).imp fun c y hgoes => ⟨hgoes.shape, fun ρ => ?_⟩
  rw [hgoes.steps.rows]
  exact List.flatMap_singleton _ _

end Patterns

end OntologicalDb.TypeqlPreservation
