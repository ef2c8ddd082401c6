import Mathlib.Data.Set.Card
import OntologicalDb.StoreCoherence

/-!
The recursion of a TypeQL deletion over the roles an instance plays: it removes the role rows of
a relation only when it comes back from it.
-/

namespace OntologicalDb.DeleteRecursion

open OntologicalDb.ExceptRules
open OntologicalDb.GraphStorage
open OntologicalDb.Ids
open OntologicalDb.MixedStore
open OntologicalDb.StoreCoherence
open OntologicalDb.TypeCatalog
open OntologicalDb.TypedTables

section Cycles

variable {R R' : List RolePlayer} {x r : Int}

/-- From the instance, going from players to relations, a relation can be reached that leads
back to one of its players. -/
def Cyclic (R : List RolePlayer) (x : Int) : Prop :=
  ∃ p ∈ R, PlaysIn R x p.playerId ∧ PlaysIn R p.edgeId p.playerId

/-- A cycle that can be reached from a relation can be reached from its players. -/
theorem Cyclic.of_edge {p : RolePlayer} (hp : p ∈ R) (h : Cyclic R p.edgeId) :
    Cyclic R p.playerId := by
  rcases h with ⟨q, hq, hreach, hback⟩
  have hfirst : PlaysIn R p.playerId p.edgeId := .step .self hp
  exact ⟨q, hq, hfirst.trans hreach, hback⟩

/-- A way that is not empty starts with a role. -/
theorem plays_cases (h : PlaysIn R x r) :
    r = x ∨ ∃ p ∈ R, p.playerId = x ∧ PlaysIn R p.edgeId r := by
  induction h with
  | self => exact .inl rfl
  | @step p _ hp ih =>
      rcases ih with heq | ⟨q, hq, hqx, hplays⟩
      · exact .inr ⟨p, hp, heq, .self⟩
      · exact .inr ⟨q, hq, hqx, .step hplays hp⟩

/-- A cycle reached from an instance is reached from one of the relations it plays in. -/
theorem Cyclic.child (h : Cyclic R x) : ∃ p ∈ R, p.playerId = x ∧ Cyclic R p.edgeId := by
  rcases h with ⟨p, hp, hreach, hback⟩
  rcases plays_cases hreach with heq | ⟨q, hq, hqx, hplays⟩
  · exact ⟨p, hp, heq, p, hp, hback, hback⟩
  · exact ⟨q, hq, hqx, p, hp, hplays, hback⟩

/-- A way survives when no role that leads to its end is gone. -/
theorem plays_survives {c : Int} (hkeep : ∀ q ∈ R, PlaysIn R q.edgeId c → q ∈ R')
    (h : PlaysIn R x r) (hc : PlaysIn R r c) : PlaysIn R' x r := by
  induction h with
  | self => exact .self
  | @step p _ hp ih =>
      have hplayer : PlaysIn R p.playerId p.edgeId := .step .self hp
      exact .step (ih (hplayer.trans hc)) (hkeep p hp hc)

/-- A cycle survives when all that is gone can be reached from instances that reach no cycle. -/
theorem Cyclic.survives {A : Set Int} (hA : ∀ a ∈ A, ¬ Cyclic R a)
    (hgone : ∀ q ∈ R, q ∉ R' → ∃ a ∈ A, PlaysIn R a q.edgeId) (h : Cyclic R x) :
    Cyclic R' x := by
  rcases h with ⟨p, hp, hreach, hback⟩
  have hkeep (q : RolePlayer) (hq : q ∈ R) (hlead : PlaysIn R q.edgeId p.playerId) : q ∈ R' := by
    by_contra hnot
    rcases hgone q hq hnot with ⟨a, ha, hplays⟩
    exact hA a ha ⟨p, hp, hplays.trans hlead, hback⟩
  exact ⟨p, hkeep p hp hback, plays_survives hkeep hreach .self,
    plays_survives hkeep hback .self⟩

end Cycles

section Steps

variable {hasTid : Int} {st st' mid : Store} {id : Int} {fuel : Nat}

/-- The store without the ownerships of an instance. -/
def unlinked (hasTid : Int) (st : Store) (id : Int) : Store :=
  (st.ogEdge.filter fun e => e.typeId = hasTid ∧ (e.src = id ∨ e.dst = id)).foldl
    (fun st e => unlinkHas hasTid st e.src e.dst) st

/-- What is left to do with an instance behind the recursion. -/
def finish (st : Store) (id : Int) : Except String Store := do
  refuseVirtualWrite st.schema.catalog (idType id)
  return { st with
    schema := deleteRow st (idType id) id
    ogRolePlayer := st.ogRolePlayer.filter fun p => p.edgeId ≠ id
    ogNode := st.ogNode.filter fun r => r.id ≠ id
    ogAdj := st.ogAdj.filter fun a => a.src ≠ id }

theorem deleteInstance_succ : deleteInstance hasTid (fuel + 1) st id =
    (relationsOf (unlinked hasTid st id) id).foldlM (deleteInstance hasTid fuel)
      (unlinked hasTid st id) >>= fun st => finish st id := rfl

/-- What the steps leave as it is. -/
structure SameRoles (st st' : Store) : Prop where
  catalog : st'.schema.catalog = st.schema.catalog
  roles : st'.ogRolePlayer = st.ogRolePlayer
  nodes : st'.ogNode = st.ogNode

theorem unlinkHas_same (owner attr : Int) : SameRoles st (unlinkHas hasTid st owner attr) := by
  unfold unlinkHas
  cases ownership st hasTid owner attr with
  | none => exact ⟨rfl, rfl, rfl⟩
  | some e =>
      refine ⟨?_, rfl, rfl⟩
      exact deleteRow_catalog st hasTid e.id

theorem unlinked_same : SameRoles st (unlinked hasTid st id) := by
  unfold unlinked
  generalize st.ogEdge.filter _ = owned
  induction owned generalizing st with
  | nil => exact ⟨rfl, rfl, rfl⟩
  | cons e owned ih =>
      have hfirst : SameRoles st (unlinkHas hasTid st e.src e.dst) := unlinkHas_same _ _
      have hrest := @ih (unlinkHas hasTid st e.src e.dst)
      exact ⟨hrest.catalog.trans hfirst.catalog, hrest.roles.trans hfirst.roles,
        hrest.nodes.trans hfirst.nodes⟩

theorem finish_eq_ok (h : finish st id = .ok st') :
    st'.schema.catalog = st.schema.catalog ∧
      st'.ogRolePlayer = (st.ogRolePlayer.filter fun p => p.edgeId ≠ id) ∧
      st'.ogNode = st.ogNode.filter fun r => r.id ≠ id := by
  rcases bind_eq_ok.mp h with ⟨_, -, hdrop⟩
  rw [← pure_eq_ok.mp hdrop]
  exact ⟨deleteRow_catalog st (idType id) id, rfl, rfl⟩

/-- The roles that are gone lead on from the given instances. -/
structure Cuts (A : Set Int) (st st' : Store) : Prop where
  catalog : st'.schema.catalog = st.schema.catalog
  roles : st'.ogRolePlayer ⊆ st.ogRolePlayer
  gone : ∀ q ∈ st.ogRolePlayer, q ∉ st'.ogRolePlayer →
    ∃ a ∈ A, PlaysIn st.ogRolePlayer a q.edgeId

theorem Cuts.trans {A B : Set Int} (h : Cuts A st mid) (h' : Cuts B mid st') :
    Cuts (A ∪ B) st st' where
  catalog := h'.catalog.trans h.catalog
  roles := fun _ hq => h.roles (h'.roles hq)
  gone q hq hnot := by
    by_cases hmid : q ∈ mid.ogRolePlayer
    · rcases h'.gone q hmid hnot with ⟨b, hb, hplays⟩
      exact ⟨b, .inr hb, hplays.mono h.roles⟩
    · rcases h.gone q hq hmid with ⟨a, ha, hplays⟩
      exact ⟨a, .inl ha, hplays⟩

theorem foldlM_cuts {rels : List Int}
    (ih : ∀ {st st' : Store} {id : Int}, deleteInstance hasTid fuel st id = .ok st' →
      Cuts {id} st st')
    (h : rels.foldlM (deleteInstance hasTid fuel) st = .ok st') :
    Cuts {r | r ∈ rels} st st' := by
  induction rels generalizing st with
  | nil =>
      obtain rfl := pure_eq_ok.mp h
      exact ⟨rfl, fun _ hq => hq, fun q hq hnot => absurd hq hnot⟩
  | cons r rels ihrels =>
      rcases foldlM_cons_eq_ok.mp h with ⟨mid, hmid, hrest⟩
      have hset : ({r} ∪ {x | x ∈ rels} : Set Int) = {x | x ∈ r :: rels} := by
        ext x
        simp
      exact hset ▸ (ih hmid).trans (ihrels hrest)

/-- A deletion only cuts roles that lead on from the instance. -/
theorem deleteInstance_cuts (h : deleteInstance hasTid fuel st id = .ok st') :
    Cuts {id} st st' := by
  induction fuel generalizing st st' id with
  | zero => cases h
  | succ fuel ih =>
      rw [deleteInstance_succ] at h
      rcases bind_eq_ok.mp h with ⟨mid, hmid, hfinish⟩
      have hsame : SameRoles st (unlinked hasTid st id) := unlinked_same
      have hcuts := foldlM_cuts ih hmid
      rcases finish_eq_ok hfinish with ⟨hcatalog, hroles, -⟩
      refine ⟨hcatalog.trans (hcuts.catalog.trans hsame.catalog), fun q hq => ?_,
        fun q hq hnot => ⟨id, rfl, ?_⟩⟩
      · rw [hroles] at hq
        rw [← hsame.roles]
        exact hcuts.roles (List.mem_filter.mp hq).1
      · by_cases hmem : q ∈ mid.ogRolePlayer
        · have hid : q.edgeId = id := by
            by_contra hne
            exact hnot (hroles ▸ List.mem_filter.mpr ⟨hmem, decide_eq_true hne⟩)
          rw [hid]
          exact .self
        · rcases hcuts.gone q (hsame.roles ▸ hq) hmem with ⟨r, hr, hplays⟩
          rcases mem_relationsOf.mp hr with ⟨p, hp, hplayer, rfl⟩
          rw [hsame.roles] at hp hplays
          have hfirst : PlaysIn st.ogRolePlayer p.playerId p.edgeId := .step .self hp
          exact hplayer ▸ hfirst.trans hplays

end Steps

section Divergence

variable {hasTid : Int} {st st' : Store} {id : Int} {fuel : Nat}

/-- Deletions that come back one after the other started where no cycle is reached. -/
theorem acyclic_of_foldlM {rels : List Int}
    (ih : ∀ {st st' : Store} {id : Int}, deleteInstance hasTid fuel st id = .ok st' →
      ¬ Cyclic st.ogRolePlayer id)
    (h : rels.foldlM (deleteInstance hasTid fuel) st = .ok st') :
    ∀ r ∈ rels, ¬ Cyclic st.ogRolePlayer r := by
  induction rels generalizing st with
  | nil => exact fun r hr => absurd hr List.not_mem_nil
  | cons r rels ihrels =>
      rcases foldlM_cons_eq_ok.mp h with ⟨mid, hmid, hrest⟩
      have hfirst := ih hmid
      refine List.forall_mem_cons.mpr ⟨hfirst, fun s hs hcyclic => ?_⟩
      refine ihrels hrest s hs (hcyclic.survives (A := {r}) ?_ (deleteInstance_cuts hmid).gone)
      rintro a rfl
      exact hfirst

theorem acyclic_of_relations (h : ∀ r ∈ relationsOf (unlinked hasTid st id) id,
    ¬ Cyclic st.ogRolePlayer r) : ¬ Cyclic st.ogRolePlayer id := by
  intro hcyclic
  have hsame : SameRoles st (unlinked hasTid st id) := unlinked_same
  rcases hcyclic.child with ⟨p, hp, hplayer, hchild⟩
  exact h p.edgeId (mem_relationsOf.mpr ⟨p, hsame.roles.symm ▸ hp, hplayer, rfl⟩) hchild

theorem deleteInstance_acyclic (h : deleteInstance hasTid fuel st id = .ok st') :
    ¬ Cyclic st.ogRolePlayer id := by
  induction fuel generalizing st st' id with
  | zero => cases h
  | succ fuel ih =>
      rw [deleteInstance_succ] at h
      rcases bind_eq_ok.mp h with ⟨mid, hmid, -⟩
      have hsame : SameRoles st (unlinked hasTid st id) := unlinked_same
      exact acyclic_of_relations (hsame.roles ▸ acyclic_of_foldlM ih hmid)

def exhausted : String := "stack depth limit exceeded"

theorem refuseVirtualWrite_ne_exhausted {c : Catalog} {tid : Int} :
    refuseVirtualWrite c tid ≠ .error exhausted := by
  unfold refuseVirtualWrite
  cases virtualSource c tid with
  | none => exact fun h => by cases h
  | some source =>
      intro h
      have htext := congrArg String.toList (Except.error.inj h)
      simp [exhausted, String.toList_append, ToString.toString] at htext

theorem finish_ne_exhausted : finish st id ≠ .error exhausted := by
  intro h
  rcases bind_eq_error.mp h with h | ⟨_, -, h⟩
  · exact refuseVirtualWrite_ne_exhausted h
  · cases h

/-- An error of a loop is an error of one of its steps, from a state that the steps lead to. -/
theorem error_of_foldlM {α β ε : Type} {f : β → α → Except ε β} {P : β → Prop} {Q : ε → Prop}
    {xs : List α} (hinv : ∀ b x c, P b → f b x = .ok c → P c)
    (hstep : ∀ x ∈ xs, ∀ b e, P b → f b x = .error e → Q e) {b : β} {e : ε} (hb : P b)
    (h : xs.foldlM f b = .error e) : Q e := by
  induction xs generalizing b with
  | nil => cases h
  | cons x xs ih =>
      rw [List.foldlM_cons] at h
      rcases bind_eq_error.mp h with hx | ⟨d, hd, hrest⟩
      · exact hstep x List.mem_cons_self b e hb hx
      · exact ih (fun y hy => hstep y (List.mem_cons_of_mem _ hy)) (hinv b x d hb hd) hrest

/-- No relation is of a virtual node type: an instance of one is never created. -/
def StoredRelations (c : Catalog) (R : List RolePlayer) : Prop :=
  ∀ p ∈ R, virtualSource c (idType p.edgeId) = none

/-- What a deletion leaves true of the store while it goes on. -/
def Within (c : Catalog) (R : List RolePlayer) (st : Store) : Prop :=
  st.schema.catalog = c ∧ st.ogRolePlayer ⊆ R

theorem within_deleteInstance {c : Catalog} {R : List RolePlayer} (hw : Within c R st)
    (h : deleteInstance hasTid fuel st id = .ok st') : Within c R st' :=
  ⟨(deleteInstance_cuts h).catalog.trans hw.1, fun _ hq => hw.2 ((deleteInstance_cuts h).roles hq)⟩

theorem within_unlinked {c : Catalog} {R : List RolePlayer} (hw : Within c R st) :
    Within c R (unlinked hasTid st id) := by
  have hsame : SameRoles st (unlinked hasTid st id) := unlinked_same
  exact ⟨hsame.catalog.trans hw.1, hsame.roles ▸ hw.2⟩

theorem exists_role {c : Catalog} {R : List RolePlayer} (hw : Within c R st) {r : Int}
    (hr : r ∈ relationsOf (unlinked hasTid st id) id) :
    ∃ p ∈ R, p.playerId = id ∧ p.edgeId = r := by
  rcases mem_relationsOf.mp hr with ⟨p, hp, hplayer, hedge⟩
  exact ⟨p, (within_unlinked hw).2 hp, hplayer, hedge⟩

/-- Deleting a relation fails in no other way than by running out of stack. -/
theorem deleteInstance_error {c : Catalog} {R : List RolePlayer} (hR : StoredRelations c R)
    (hw : Within c R st) (hid : virtualSource c (idType id) = none) {e : String}
    (h : deleteInstance hasTid fuel st id = .error e) : e = exhausted := by
  induction fuel generalizing st id e with
  | zero => exact (Except.error.inj h).symm
  | succ fuel ih =>
      rw [deleteInstance_succ] at h
      rcases bind_eq_error.mp h with hloop | ⟨mid, hmid, hfinish⟩
      · refine error_of_foldlM (P := Within c R) (Q := (· = exhausted))
          (fun b x d hb hd => within_deleteInstance hb hd) (fun r hr b e hb hbr => ?_)
          (within_unlinked hw) hloop
        rcases exists_role hw hr with ⟨p, hp, -, rfl⟩
        exact ih hb (hR p hp) hbr
      · have hcatalog : mid.schema.catalog = c :=
          (foldlM_cuts deleteInstance_cuts hmid).catalog.trans (within_unlinked hw).1
        have hallowed : refuseVirtualWrite mid.schema.catalog (idType id) = .ok () := by
          rw [hcatalog, refuseVirtualWrite, hid]
        rw [finish, hallowed] at hfinish
        cases hfinish

end Divergence

section Termination

variable {hasTid : Int} {st st' : Store} {id x : Int} {fuel : Nat} {R : List RolePlayer}

/-- The relations that going on from an instance leads to. -/
def below (R : List RolePlayer) (x : Int) : Set Int :=
  {r | ∃ p ∈ R, PlaysIn R x p.playerId ∧ p.edgeId = r}

theorem below_finite : (below R x).Finite := by
  refine Set.Finite.subset (R.map (·.edgeId)).finite_toSet ?_
  rintro r ⟨p, hp, -, rfl⟩
  exact List.mem_map_of_mem hp

/-- Where no cycle is reached, each step leaves fewer relations. -/
theorem below_lt {p : RolePlayer} (hp : p ∈ R) (h : ¬ Cyclic R p.playerId) :
    (below R p.edgeId).ncard < (below R p.playerId).ncard := by
  have hfirst : PlaysIn R p.playerId p.edgeId := .step .self hp
  refine Set.ncard_lt_ncard ?_ below_finite
  refine (Set.ssubset_iff_of_subset ?_).mpr ⟨p.edgeId, ⟨p, hp, .self, rfl⟩, ?_⟩
  · rintro r ⟨q, hq, hplays, rfl⟩
    exact ⟨q, hq, hfirst.trans hplays, rfl⟩
  · rintro ⟨q, hq, hplays, heq⟩
    exact h ⟨q, hq, hfirst.trans hplays, heq ▸ hplays⟩

/-- Where no cycle is reached, a stack as deep as there are relations is enough. -/
theorem deleteInstance_ne_exhausted {c : Catalog} (hw : Within c R st) (h : ¬ Cyclic R id)
    (hfuel : (below R id).ncard < fuel) :
    deleteInstance hasTid fuel st id ≠ .error exhausted := by
  induction fuel generalizing st id with
  | zero => exact absurd hfuel (Nat.not_lt_zero _)
  | succ fuel ih =>
      intro herror
      rw [deleteInstance_succ] at herror
      rcases bind_eq_error.mp herror with hloop | ⟨mid, -, hfinish⟩
      · refine error_of_foldlM (P := Within c R) (Q := (· ≠ exhausted))
          (fun b x d hb hd => within_deleteInstance hb hd) (fun r hr b e hb hbr => ?_)
          (within_unlinked hw) hloop rfl
        rcases exists_role hw hr with ⟨p, hp, hplayer, rfl⟩
        rintro rfl
        subst hplayer
        have hlt := below_lt hp h
        exact ih hb (fun hcyclic => h (hcyclic.of_edge hp)) (by omega) hbr
      · exact finish_ne_exhausted hfinish

end Termination

section Removals

variable {hasTid : Int} {id : Int} {fuel : Nat}

/-- The same deletion, with a log of the instances whose rows it found and removed. -/
def deleteLogged (hasTid : Int) :
    Nat → Store × List Int → Int → Except String (Store × List Int)
  | 0, _, _ => .error "stack depth limit exceeded"
  | fuel + 1, s, id => do
      let owned := s.1.ogEdge.filter fun e => e.typeId = hasTid ∧ (e.src = id ∨ e.dst = id)
      let st := owned.foldl (fun st e => unlinkHas hasTid st e.src e.dst) s.1
      let s ← (relationsOf st id).foldlM (deleteLogged hasTid fuel) (st, s.2)
      let st := { s.1 with ogRolePlayer := s.1.ogRolePlayer.filter fun p => p.edgeId ≠ id }
      refuseVirtualWrite st.schema.catalog (idType id)
      let found := st.ogNode.any fun r => r.id = id
      return ({ st with
        schema := deleteRow st (idType id) id
        ogNode := st.ogNode.filter fun r => r.id ≠ id
        ogAdj := st.ogAdj.filter fun a => a.src ≠ id }, if found then s.2 ++ [id] else s.2)

def finishLogged (s : Store × List Int) (id : Int) : Except String (Store × List Int) :=
  (finish s.1 id).map fun st =>
    (st, if s.1.ogNode.any fun r => r.id = id then s.2 ++ [id] else s.2)

theorem deleteLogged_succ {s : Store × List Int} : deleteLogged hasTid (fuel + 1) s id =
    (relationsOf (unlinked hasTid s.1 id) id).foldlM (deleteLogged hasTid fuel)
      (unlinked hasTid s.1 id, s.2) >>= fun s => finishLogged s id := by
  rw [deleteLogged]
  refine congrArg _ (funext fun s => ?_)
  unfold finishLogged finish
  dsimp only
  cases refuseVirtualWrite s.1.schema.catalog (idType id) <;> rfl

/-- The log says nothing about what is deleted. -/
theorem deleteLogged_fst (s : Store × List Int) (id : Int) :
    (deleteLogged hasTid fuel s id).map Prod.fst = deleteInstance hasTid fuel s.1 id := by
  induction fuel generalizing s id with
  | zero => rfl
  | succ fuel ih =>
      have hloop (rels : List Int) (s : Store × List Int) :
          (rels.foldlM (deleteLogged hasTid fuel) s).map Prod.fst =
            rels.foldlM (deleteInstance hasTid fuel) s.1 := by
        induction rels generalizing s with
        | nil => rfl
        | cons r rels ihrels =>
            rw [List.foldlM_cons, List.foldlM_cons, ← ih s r]
            cases deleteLogged hasTid fuel s r with
            | error e => rfl
            | ok mid => exact ihrels mid
      rw [deleteLogged_succ, deleteInstance_succ]
      have hrels := hloop (relationsOf (unlinked hasTid s.1 id) id) (unlinked hasTid s.1 id, s.2)
      rw [← hrels]
      cases (relationsOf (unlinked hasTid s.1 id) id).foldlM (deleteLogged hasTid fuel)
        (unlinked hasTid s.1 id, s.2) with
      | error e => rfl
      | ok mid =>
          change (finishLogged mid id).map Prod.fst = finish mid.1 id
          unfold finishLogged
          cases finish mid.1 id <;> rfl

def ids (st : Store) : List Int := st.ogNode.map (·.id)

/-- What a deletion adds to the log: instances it found, which are gone afterwards. -/
structure Logs (s s' : Store × List Int) : Prop where
  fewer : ids s'.1 ⊆ ids s.1
  more : ∃ new, s'.2 = s.2 ++ new ∧ new.Nodup ∧ ∀ x ∈ new, x ∈ ids s.1 ∧ x ∉ ids s'.1

theorem Logs.refl (s : Store × List Int) : Logs s s :=
  ⟨fun _ hx => hx, [], (List.append_nil _).symm, .nil, fun _ hx => absurd hx List.not_mem_nil⟩

theorem Logs.trans {s mid s' : Store × List Int} (h : Logs s mid) (h' : Logs mid s') :
    Logs s s' := by
  rcases h.more with ⟨new, hlog, hnodup, hnew⟩
  rcases h'.more with ⟨new', hlog', hnodup', hnew'⟩
  refine ⟨fun _ hx => h.fewer (h'.fewer hx), new ++ new', ?_, ?_, fun x hx => ?_⟩
  · rw [hlog', hlog, List.append_assoc]
  · refine List.Nodup.append hnodup hnodup' fun x hx hx' => ?_
    exact (hnew x hx).2 (hnew' x hx').1
  · rcases List.mem_append.mp hx with hx | hx
    · exact ⟨(hnew x hx).1, fun hmem => (hnew x hx).2 (h'.fewer hmem)⟩
    · exact ⟨h.fewer (hnew' x hx).1, (hnew' x hx).2⟩

theorem finishLogged_logs {s s' : Store × List Int} (h : finishLogged s id = .ok s') :
    Logs s s' := by
  rcases ExceptRules.map_eq_ok.mp h with ⟨st, hst, rfl⟩
  rcases finish_eq_ok hst with ⟨-, -, hnodes⟩
  have hids : ∀ x, x ∈ ids st ↔ x ∈ ids s.1 ∧ x ≠ id := by
    intro x
    unfold ids
    rw [hnodes]
    constructor
    · intro hx
      rcases List.mem_map.mp hx with ⟨r, hr, rfl⟩
      rcases List.mem_filter.mp hr with ⟨hr, hne⟩
      exact ⟨List.mem_map_of_mem hr, of_decide_eq_true hne⟩
    · rintro ⟨hx, hne⟩
      rcases List.mem_map.mp hx with ⟨r, hr, rfl⟩
      exact List.mem_map_of_mem (List.mem_filter.mpr ⟨hr, decide_eq_true hne⟩)
  refine ⟨fun x hx => ((hids x).mp hx).1, ?_⟩
  by_cases hfound : (s.1.ogNode.any fun r => r.id = id) = true
  · refine ⟨[id], if_pos hfound, List.nodup_singleton _, fun x hx => ?_⟩
    obtain rfl := List.mem_singleton.mp hx
    rcases List.any_eq_true.mp hfound with ⟨r, hr, hid⟩
    exact ⟨of_decide_eq_true hid ▸ List.mem_map_of_mem hr, fun hmem => ((hids x).mp hmem).2 rfl⟩
  · exact ⟨[], by rw [List.append_nil]; exact if_neg hfound, .nil,
      fun x hx => absurd hx List.not_mem_nil⟩

theorem deleteLogged_logs {s s' : Store × List Int}
    (h : deleteLogged hasTid fuel s id = .ok s') : Logs s s' := by
  induction fuel generalizing s s' id with
  | zero => cases h
  | succ fuel ih =>
      rw [deleteLogged_succ] at h
      rcases bind_eq_ok.mp h with ⟨mid, hmid, hfinish⟩
      have hsame : SameRoles s.1 (unlinked hasTid s.1 id) := unlinked_same
      have hunlinked : Logs s (unlinked hasTid s.1 id, s.2) := by
        refine ⟨fun x hx => ?_, [], (List.append_nil _).symm, .nil,
          fun x hx => absurd hx List.not_mem_nil⟩
        rwa [ids, hsame.nodes] at hx
      have hloop : Logs (unlinked hasTid s.1 id, s.2) mid :=
        foldlM_preserves (fun b x d hb hd => hb.trans (ih hd)) hmid (Logs.refl _)
      exact (hunlinked.trans hloop).trans (finishLogged_logs hfinish)

end Removals

section Ends

variable {hasTid : Int} {st : Store} {id : Int}

/-- With a stack deep enough the deletion comes back, done or refused, and it has removed no
instance twice. -/
def EndsOnce (hasTid : Int) (st : Store) (id : Int) : Prop :=
  ∃ fuel, deleteLogged hasTid fuel (st, []) id ≠ .error exhausted ∧
    ∀ st' log, deleteLogged hasTid fuel (st, []) id = .ok (st', log) → log.Nodup

theorem deleteLogged_exhausted_iff {fuel : Nat} {s : Store × List Int} :
    deleteLogged hasTid fuel s id = .error exhausted ↔
      deleteInstance hasTid fuel s.1 id = .error exhausted := by
  rw [← deleteLogged_fst]
  cases deleteLogged hasTid fuel s id with
  | error e =>
      constructor
      · intro h
        rw [Except.error.inj h]
        rfl
      · intro h
        have he : e = exhausted := Except.error.inj h
        rw [he]
  | ok s' => exact iff_of_false (fun h => by cases h) fun h => by cases h

/-- A deletion comes back, having removed every instance once, exactly when no cycle of roles can
be reached from the instance. -/
theorem deleteInstance_ends_iff
    (hstored : StoredRelations st.schema.catalog st.ogRolePlayer) :
    EndsOnce hasTid st id ↔ ¬ Cyclic st.ogRolePlayer id := by
  have hw : Within st.schema.catalog st.ogRolePlayer st := ⟨rfl, fun _ hq => hq⟩
  constructor
  · rintro ⟨fuel, hends, -⟩
    rw [Ne, deleteLogged_exhausted_iff] at hends
    cases fuel with
    | zero => exact absurd rfl hends
    | succ fuel =>
        have hsame : SameRoles st (unlinked hasTid st id) := unlinked_same
        rw [deleteInstance_succ] at hends
        cases hloop : (relationsOf (unlinked hasTid st id) id).foldlM (deleteInstance hasTid fuel)
            (unlinked hasTid st id) with
        | error e =>
            have he : e = exhausted := by
              refine error_of_foldlM (P := Within st.schema.catalog st.ogRolePlayer)
                (Q := (· = exhausted)) (fun b x d hb hd => within_deleteInstance hb hd)
                (fun r hr b e hb hbr => ?_) (within_unlinked hw) hloop
              rcases exists_role hw hr with ⟨p, hp, -, rfl⟩
              exact deleteInstance_error hstored hb (hstored p hp) hbr
            rw [hloop, he] at hends
            exact absurd rfl hends
        | ok mid =>
            refine @acyclic_of_relations hasTid st id (hsame.roles ▸ ?_)
            exact acyclic_of_foldlM deleteInstance_acyclic hloop
  · intro hacyclic
    refine ⟨(below st.ogRolePlayer id).ncard + 1, ?_, fun st' log h => ?_⟩
    · rw [Ne, deleteLogged_exhausted_iff]
      exact deleteInstance_ne_exhausted hw hacyclic (Nat.lt_succ_self _)
    · rcases (deleteLogged_logs h).more with ⟨new, hlog, hnodup, -⟩
      have heq : log = new := hlog
      rw [heq]
      exact hnodup

/-- A store with nothing but roles. -/
def onlyRoles (R : List RolePlayer) : Store := ⟨⟨TypeCatalog.empty, []⟩, [], [], [], [], R⟩

theorem deleteInstance_ends_chain :
    EndsOnce 4 (onlyRoles [⟨6, 1, 5⟩, ⟨7, 1, 6⟩]) 5 ↔ ¬ Cyclic [⟨6, 1, 5⟩, ⟨7, 1, 6⟩] 5 :=
  @deleteInstance_ends_iff 4 (onlyRoles [⟨6, 1, 5⟩, ⟨7, 1, 6⟩]) 5 fun _ _ => rfl

/-- A relation that plays a role in itself is never deleted. -/
theorem not_endsOnce_self : ¬ EndsOnce 4 (onlyRoles [⟨5, 1, 5⟩]) 5 := by
  rintro ⟨fuel, hends, -⟩
  have hrun (fuel : Nat) :
      deleteInstance 4 fuel (onlyRoles [⟨5, 1, 5⟩]) 5 = .error exhausted := by
    induction fuel with
    | zero => rfl
    | succ fuel ih =>
        have hrels : relationsOf (unlinked 4 (onlyRoles [⟨5, 1, 5⟩]) 5) 5 = [5] := by decide
        have hsame : unlinked 4 (onlyRoles [⟨5, 1, 5⟩]) 5 = onlyRoles [⟨5, 1, 5⟩] := rfl
        rw [deleteInstance_succ, hrels, hsame, List.foldlM_cons, ih]
        rfl
  exact hends (deleteLogged_exhausted_iff.mpr (hrun fuel))

end Ends

end OntologicalDb.DeleteRecursion
