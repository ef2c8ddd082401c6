import OntologicalDb.Labeling
import OntologicalDb.RowTransactions

/-!
The schema change `alter_role` beside writes of edges and role players: the data is
checked once, by the validation; later writes are checked against the role as it
stands in the catalog.
-/

namespace OntologicalDb.RoleChanges

open OntologicalDb.ExceptRules
open OntologicalDb.GuardedRuns
open OntologicalDb.Labeling
open OntologicalDb.RowTransactions
open OntologicalDb.TypeCatalog

section Catalog

/-- The subtype test of a catalog. -/
structure Hierarchy where
  isSubtype : Int → Int → Bool
  trans : ∀ {a b c : Int}, isSubtype a b = true → isSubtype b c = true → isSubtype a c = true

theorem exists_labels {c : Catalog} {sub sup : Int} (h : ogIsSubtype c sub sup = true) :
    ∃ a ∈ c.labels, a.typeId = sup := by
  simp only [ogIsSubtype, List.any_eq_true, decide_eq_true_eq] at h
  obtain ⟨_, _, a, ha, _, hid, _⟩ := h
  exact ⟨a, ha, hid⟩

def Hierarchy.ofCatalog (c : Catalog) (h : WellFormed c) : Hierarchy where
  isSubtype := ogIsSubtype c
  trans := by
    intro a b d hab hbd
    obtain ⟨lb, hlb, rfl⟩ := exists_labels hab
    obtain ⟨ld, hld, rfl⟩ := exists_labels hbd
    refine (ogIsSubtype_iff h (h.label_type hld)).mpr ?_
    have hup := (ogIsSubtype_iff h (h.label_type hlb)).mp hab
    have hdown := (ogIsSubtype_iff h (h.label_type hld)).mp hbd
    exact Relation.ReflTransGen.trans hdown hup

structure RoleRow where
  roleId : Int
  relTypeId : Int
  name : String
  playerTypeId : Option Int
  ordinal : Int
deriving DecidableEq

/-- What the plan of an `alter_role` has found out; ids of types are positive. -/
structure AlterRole where
  relation : Int
  roleId : Int
  ordinal : Int
  player : Int
  positive : 0 < player

variable (h : Hierarchy)

/-- The first row for a role of a relation type or of one above it. -/
def roleOf (roles : List RoleRow) (relation : Int) (role : String) : Option RoleRow :=
  roles.find? fun r => h.isSubtype relation r.relTypeId ∧ r.name = role

def analyse (roles : List RoleRow) (relation : Int) (role : String) (player : Int) :
    Except String AlterRole :=
  match roleOf h roles relation role with
  | none => .error s!"relation has no role named '{role}'"
  | some r =>
      if hpos : 0 < player then .ok ⟨relation, r.roleId, r.ordinal, player, hpos⟩
      else .error "type does not exist"

end Catalog

section Writes

/-- An edge with the types of its ends, or a role with the type of a player. -/
inductive Link
  | edge (relType src dst : Int)
  | player (roleId player : Int)
deriving DecidableEq

/-- A stored link, and the roles its write was checked against. -/
structure Stored where
  link : Link
  checked : List RoleRow
deriving DecidableEq

inductive Statement
  | createEdge (relType src dst : Int)
  | addRolePlayer (relType : Int) (role : String) (player : Int)
  | typeqlAddRolePlayer (roleId player : Int)
  | delete

variable (h : Hierarchy) (roles : List RoleRow)

/-- The roles `validate_roles` looks at. -/
def rolesOf (relType : Int) : List RoleRow :=
  roles.filter fun r => h.isSubtype relType r.relTypeId ∧ r.playerTypeId.isSome ∧
    (r.ordinal = 0 ∨ r.ordinal = 1)

def validateRoles (relType src dst : Int) : Except String Unit :=
  (rolesOf h roles relType).forM fun r => do
    let actual := if r.ordinal = 0 then src else dst
    require (∀ player ∈ r.playerTypeId, h.isSubtype actual player = true)
      s!"role '{r.name}' requires another type"

/-- A statement on one row of `og_edge` or `og_role_player`. -/
def write (_ : Nat) (_ : Nat) (st : Statement) (row : Option Stored) : Except String (Option Stored) :=
  match st, row with
  | .createEdge relType src dst, none => do
      validateRoles h roles relType src dst
      return some ⟨.edge relType src dst, rolesOf h roles relType⟩
  | .addRolePlayer relType role player, none =>
      match roleOf h roles relType role with
      | none => .error s!"relation has no role named '{role}'"
      | some r => do
          let playerType := r.playerTypeId.getD 0
          require (playerType = 0 ∨ h.isSubtype player playerType = true)
            s!"role '{role}' requires another type"
          return some ⟨.player r.roleId player, [r]⟩
  | .typeqlAddRolePlayer roleId player, none => .ok (some ⟨.player roleId player, []⟩)
  | .delete, some _ => .ok none
  | _, some _ => .error "the row is there already"
  | .delete, none => .error "no row"

end Writes

section Rule

variable (h : Hierarchy) (change : AlterRole)

/-- The type of the node a link puts into the role. -/
def fills : Link → Option Int
  | .edge relType src dst =>
      if h.isSubtype relType change.relation then
        if change.ordinal = 0 then some src else if change.ordinal = 1 then some dst else none
      else none
  | .player roleId player => if roleId = change.roleId then some player else none

def Conforms (link : Link) : Prop := ∀ p ∈ fills h change link, h.isSubtype p change.player = true

instance (link : Link) : Decidable (Conforms h change link) :=
  inferInstanceAs (Decidable (∀ p ∈ fills h change link, _))

/-- The write was checked under the new rule. -/
def Enforced (st : Stored) : Prop :=
  ∃ r ∈ st.checked, r.roleId = change.roleId ∧ r.playerTypeId = some change.player

/-- What `role_violations` counts. -/
def violates (link : Link) : Bool :=
  match link with
  | .edge _ _ _ => (change.ordinal = 0 ∨ change.ordinal = 1) ∧ ¬ Conforms h change link
  | .player _ _ => ¬ (change.ordinal = 0 ∨ change.ordinal = 1) ∧ ¬ Conforms h change link

end Rule

inductive Phase
  | planned
  | expanded
  | migrating
  | validated
  | contracted
  | aborted
deriving DecidableEq

/-- The rows there can be are listed for the validation. -/
structure State (X K : Type) where
  db : Database X K (Option Stored) Nat
  rows : List K
  roles : List RoleRow
  phase : Phase

inductive Event (X K : Type)
  | row (e : RowTransactions.Event X K Statement Nat)
  | expand
  | migrate
  | validate
  | contract
  | abort

section System

variable {X K : Type} [DecidableEq X] [DecidableEq K] (h : Hierarchy) (change : AlterRole)

def init (roles : List RoleRow) : State X K :=
  ⟨Database.init 0 fun _ => none, [], roles, .planned⟩

def written : RowTransactions.Event X K Statement Nat → List K
  | .write _ k _ => [k]
  | _ => []

def alterRole (r : RoleRow) : RoleRow :=
  if r.roleId = change.roleId then { r with playerTypeId := some change.player } else r

def step (s : State X K) : Event X K → Except String (State X K)
  | .row e => do
      let db ← RowTransactions.step (write h s.roles) s.db e
      return { s with db := db, rows := s.rows ++ written e }
  | .expand => do
      require (s.phase = .planned) "OG_SCHEMA_PHASE"
      return { s with phase := .expanded }
  | .migrate => do
      require (s.phase ∈ [.expanded, .migrating]) "OG_SCHEMA_PHASE"
      return { s with phase := .migrating }
  | .validate => do
      require (s.phase ∈ [.expanded, .migrating, .validated]) "OG_SCHEMA_PHASE"
      let violations := s.rows.filter fun k =>
        (s.db.committed k).any fun st => violates h change st.link
      return { s with phase := if violations.length = 0 then .validated else s.phase }
  | .contract => do
      require (s.phase = .validated) "OG_SCHEMA_PHASE"
      return { s with phase := .contracted, roles := s.roles.map (alterRole change) }
  | .abort => do
      require (s.phase ∈ [.planned, .expanded, .migrating, .validated]) "OG_SCHEMA_PHASE"
      return { s with phase := .aborted }

end System

section Checks

variable {h : Hierarchy} {change : AlterRole} {roles : List RoleRow}

/-- A link checked under the new rule conforms to it. -/
def Checked (h : Hierarchy) (change : AlterRole) (row : Option Stored) : Prop :=
  ∀ st ∈ row, Enforced change st → Conforms h change st.link

/-- The role has one place in its relation. -/
def Placed (change : AlterRole) (roles : List RoleRow) : Prop :=
  ∀ r ∈ roles, r.roleId = change.roleId → r.ordinal = change.ordinal

theorem forM_eq_ok {α : Type} {f : α → Except String Unit} {xs : List α} {u : Unit}
    (hok : xs.forM f = .ok u) : ∀ x ∈ xs, f x = .ok () := by
  induction xs with
  | nil => simp
  | cons x xs ih =>
    obtain ⟨_, hx, hrest⟩ := bind_eq_ok.mp hok
    exact List.forall_mem_cons.mpr ⟨hx, ih hrest⟩

theorem checked_createEdge {relType src dst : Int} {u : Unit} (hplaced : Placed change roles)
    (hok : validateRoles h roles relType src dst = .ok u) :
    Checked h change (some ⟨.edge relType src dst, rolesOf h roles relType⟩) := by
  rintro st ⟨⟩ ⟨r, hr, hid, hplayer⟩ p hp
  have hcheck := require_eq_ok.mp (forM_eq_ok hok r hr)
  have hactual := hcheck change.player hplayer
  rw [hplaced r (List.mem_filter.mp hr).1 hid] at hactual
  simp only [fills] at hp
  split at hp
  · split at hp
    · next hsrc =>
      obtain rfl := Option.some.inj hp
      simpa [hsrc] using hactual
    · next hsrc =>
      split at hp
      · obtain rfl := Option.some.inj hp
        simpa [hsrc] using hactual
      · cases hp
  · cases hp

theorem checked_addRolePlayer {r : RoleRow} {player : Int}
    (hok : r.playerTypeId.getD 0 = 0 ∨ h.isSubtype player (r.playerTypeId.getD 0) = true) :
    Checked h change (some ⟨.player r.roleId player, [r]⟩) := by
  rintro st ⟨⟩ ⟨r', hr', hid, hplayer⟩ p hp
  obtain rfl := List.mem_singleton.mp hr'
  obtain rfl : player = p := by simpa [fills, hid] using hp
  rw [hplayer] at hok
  exact hok.resolve_left change.positive.ne'

/-- What a write is checked against it conforms to. -/
theorem checked_write {n m : Nat} {st : Statement} {row row' : Option Stored}
    (hplaced : Placed change roles) (hwrite : write h roles n m st row = .ok row') :
    Checked h change row' := by
  cases st with
  | createEdge relType src dst =>
    cases row with
    | none =>
      obtain ⟨_, hok, hwrite⟩ := bind_eq_ok.mp hwrite
      obtain rfl := pure_eq_ok.mp hwrite
      exact checked_createEdge hplaced hok
    | some old => cases hwrite
  | addRolePlayer relType role player =>
    cases row with
    | none =>
      simp only [write] at hwrite
      split at hwrite
      · cases hwrite
      · obtain ⟨_, hok, hwrite⟩ := bind_eq_ok.mp hwrite
        obtain rfl := pure_eq_ok.mp hwrite
        exact checked_addRolePlayer (require_eq_ok.mp hok)
    | some old => cases hwrite
  | typeqlAddRolePlayer roleId player =>
    cases row with
    | none =>
      obtain rfl := Except.ok.inj hwrite
      rintro st ⟨⟩ ⟨r, hr, -⟩
      cases hr
    | some old => cases hwrite
  | delete =>
    cases row with
    | none => cases hwrite
    | some old =>
      obtain rfl := Except.ok.inj hwrite
      rintro st ⟨⟩

end Checks

section Runs

variable {X K : Type} [DecidableEq X] [DecidableEq K] {h : Hierarchy} {change : AlterRole}
  {roles : List RoleRow} {s s' : State X K}

/-- From the validation on, what is committed without a check under the new rule conforms
to it, and so do the role players that the validation of a binary role passes over. -/
def Guarded (h : Hierarchy) (change : AlterRole) (_ : List (Event X K)) (s : State X K) :
    Event X K → Prop
  | .row (.commit x) => s.phase = .validated ∨ s.phase = .contracted →
      ∀ k, s.db.holder k = some x → ∀ st ∈ s.db.working k, ¬ Enforced change st →
        Conforms h change st.link
  | .validate => change.ordinal = 0 ∨ change.ordinal = 1 →
      ∀ k, ∀ st ∈ s.db.committed k, ∀ roleId player, st.link = .player roleId player →
        Conforms h change st.link
  | _ => True

def relations (h : Hierarchy) (change : AlterRole) : Relations (Option Stored) Nat where
  Committed _ _ row := Checked h change row
  Working _ _ _ row := Checked h change row

def unconditional : Conditions (Option Stored) Statement Nat where
  Write _ _ _ := True
  Install _ _ _ := True

theorem kept (hplaced : Placed change roles) :
    Kept (write h roles) (relations h change) unconditional where
  committed_mono _ hchecked := hchecked
  working_mono _ hchecked := hchecked
  first _ _ hwrite := checked_write hplaced hwrite
  next _ _ hwrite := checked_write hplaced hwrite
  install _ _ _ hchecked _ := hchecked

structure Inv (h : Hierarchy) (change : AlterRole) (s : State X K) : Prop where
  placed : Placed change s.roles
  sound : Sound (relations h change) s.db
  listed : ∀ k, (∃ x, s.db.holder k = some x) ∨ s.db.committed k ≠ none → k ∈ s.rows
  conforms : s.phase = .validated ∨ s.phase = .contracted →
    ∀ k, ∀ st ∈ s.db.committed k, Conforms h change st.link

theorem violates_eq_false {link : Link} (hok : violates h change link = false)
    (hplayer : change.ordinal = 0 ∨ change.ordinal = 1 →
      ∀ roleId player, link = .player roleId player → Conforms h change link) :
    Conforms h change link := by
  by_cases hbinary : change.ordinal = 0 ∨ change.ordinal = 1
  · cases link with
    | edge relType src dst => simpa [violates, hbinary] using hok
    | player roleId player => exact hplayer hbinary roleId player rfl
  · cases link with
    | edge relType src dst =>
      intro p hp
      have hzero : change.ordinal ≠ 0 := fun heq => hbinary (.inl heq)
      have hone : change.ordinal ≠ 1 := fun heq => hbinary (.inr heq)
      simp [fills, hzero, hone] at hp
    | player roleId player => simpa [violates, hbinary] using hok

theorem Inv.row (hinv : Inv h change s) {es : List (Event X K)}
    {e : RowTransactions.Event X K Statement Nat} {db : Database X K (Option Stored) Nat}
    (hguard : Guarded h change es s (.row e))
    (hstep : RowTransactions.step (write h s.roles) s.db e = .ok db) :
    Inv h change { s with db := db, rows := s.rows ++ written e } := by
  have hmeets : Meets unconditional [] s.db e := by cases e <;> simp [Meets, unconditional]
  have hsound := hinv.sound.step (kept hinv.placed) hmeets hstep
  refine ⟨hinv.placed, hsound, fun k hk => ?_, fun hphase k st hst => ?_⟩
  · rw [List.mem_append]
    cases step_cases hstep with
    | tick t hle => exact .inl (hinv.listed k hk)
    | draw n => exact .inl (hinv.listed k hk)
    | begin_ x hnone => exact .inl (hinv.listed k hk)
    | write x k' w t d hstart hlock happly =>
      by_cases hkk : k = k'
      · exact .inr (List.mem_singleton.mpr hkk)
      · refine .inl (hinv.listed k (hk.imp (Exists.imp fun y hy => ?_) id))
        simpa [Database.assign, Function.update_of_ne hkk] using hy
    | commit x t hstart =>
      left
      rcases hk with ⟨y, hy⟩ | hk
      · exact hinv.listed k (.inl ⟨y, (release_holder hy).1⟩)
      · by_cases hheld : s.db.holder k = some x
        · exact hinv.listed k (.inl ⟨x, hheld⟩)
        · exact hinv.listed k (.inr (by simpa [Database.install, Database.visible, hheld] using hk))
    | rollback x t hstart =>
      exact .inl (hinv.listed k (hk.imp (Exists.imp fun y hy => (release_holder hy).1) id))
  · cases step_cases hstep with
    | commit x t hstart =>
      by_cases hheld : s.db.holder k = some x
      · have hwork : st ∈ s.db.working k := by
          simpa [Database.install, Database.visible, hheld] using hst
        by_cases henforced : Enforced change st
        · exact hinv.sound.working k x t hheld hstart st hwork henforced
        · exact hguard hphase k hheld st hwork henforced
      · exact hinv.conforms hphase k st (by simpa [Database.install, Database.visible, hheld] using hst)
    | tick t hle => exact hinv.conforms hphase k st hst
    | draw n => exact hinv.conforms hphase k st hst
    | begin_ x hnone => exact hinv.conforms hphase k st hst
    | write x k' w t d hstart hlock happly => exact hinv.conforms hphase k st hst
    | rollback x t hstart => exact hinv.conforms hphase k st hst

theorem placed_alterRole (hplaced : Placed change roles) :
    Placed change (roles.map (alterRole change)) := by
  intro r hr hid
  obtain ⟨r', hr', rfl⟩ := List.mem_map.mp hr
  unfold alterRole at hid ⊢
  split
  · next heq => exact hplaced r' hr' heq
  · next hne =>
    rw [if_neg hne] at hid
    exact absurd hid hne

theorem Inv.step (hinv : Inv h change s) {es : List (Event X K)} {e : Event X K}
    (hguard : Guarded h change es s e) (hstep : step h change s e = .ok s') : Inv h change s' := by
  cases e with
  | row e =>
    obtain ⟨db, hdb, hstep⟩ := bind_eq_ok.mp hstep
    obtain rfl := pure_eq_ok.mp hstep
    exact hinv.row hguard hdb
  | expand =>
    obtain ⟨_, -, hstep⟩ := bind_eq_ok.mp hstep
    obtain rfl := pure_eq_ok.mp hstep
    exact ⟨hinv.placed, hinv.sound, hinv.listed, by simp⟩
  | migrate =>
    obtain ⟨_, -, hstep⟩ := bind_eq_ok.mp hstep
    obtain rfl := pure_eq_ok.mp hstep
    exact ⟨hinv.placed, hinv.sound, hinv.listed, by simp⟩
  | validate =>
    obtain ⟨_, -, hstep⟩ := bind_eq_ok.mp hstep
    obtain rfl := pure_eq_ok.mp hstep
    refine ⟨hinv.placed, hinv.sound, hinv.listed, fun hphase k st hst => ?_⟩
    by_cases hnone : (s.rows.filter fun k =>
        (s.db.committed k).any fun st => violates h change st.link).length = 0
    · have hk := hinv.listed k (.inr (by rw [hst]; simp))
      have hok := List.filter_eq_nil_iff.mp (List.length_eq_zero_iff.mp hnone) k hk
      refine violates_eq_false ?_ fun hbinary roleId player hlink =>
        hguard hbinary k st hst roleId player hlink
      rw [hst] at hok
      simpa using hok
    · simp only [if_neg hnone] at hphase
      exact hinv.conforms hphase k st hst
  | contract =>
    obtain ⟨_, hvalid, hstep⟩ := bind_eq_ok.mp hstep
    obtain rfl := pure_eq_ok.mp hstep
    exact ⟨placed_alterRole hinv.placed, hinv.sound, hinv.listed,
      fun _ => hinv.conforms (.inl (require_eq_ok.mp hvalid))⟩
  | abort =>
    obtain ⟨_, -, hstep⟩ := bind_eq_ok.mp hstep
    obtain rfl := pure_eq_ok.mp hstep
    exact ⟨hinv.placed, hinv.sound, hinv.listed, by simp⟩

theorem placed_of_analyse {relation player : Int} {role : String} (hids : (roles.map (·.roleId)).Nodup)
    (hplan : analyse h roles relation role player = .ok change) : Placed change roles := by
  intro r hr hid
  simp only [analyse] at hplan
  split at hplan
  · cases hplan
  · next r' hfind =>
    split at hplan
    · obtain rfl := Except.ok.inj hplan
      rw [List.inj_on_of_nodup_map hids hr (List.mem_of_find?_eq_some hfind) hid]
    · cases hplan

/-- A contracted role change holds for all data if what is committed meanwhile conforms. -/
theorem contracted_conforms {relation player : Int} {role : String}
    (hids : (roles.map (·.roleId)).Nodup)
    (hplan : analyse h roles relation role player = .ok change) {es : List (Event X K)}
    (run : Run (step h change) (Guarded h change) (init roles) es s)
    (hphase : s.phase = .contracted) :
    ∀ k, ∀ st ∈ s.db.committed k, Conforms h change st.link := by
  have hinit : Inv (X := X) (K := K) h change (init roles) := by
    refine ⟨placed_of_analyse hids hplan, sound_init fun _ => ?_, ?_, by simp [init]⟩
    · rintro st ⟨⟩
    · simp [init, Database.init]
  have hinv := run.invariant (I := fun _ s => Inv h change s) hinit
    fun _ _ _ _ hinv hguard hstep => hinv.step hguard hstep
  exact hinv.conforms (.inr hphase)

/-- Types without subtypes of their own. -/
def flat : Hierarchy where
  isSubtype a b := a = b
  trans hab hbc := by
    rw [decide_eq_true_eq] at hab hbc ⊢
    exact hab.trans hbc

/-- The first role of the relation 100 is played by the type 1. -/
def actors : List RoleRow := [⟨1, 100, "actor", some 1, 0⟩]

/-- It is to be played by the type 2. -/
def toTwo : AlterRole := ⟨100, 1, 0, 2, by decide⟩

def contracted : List (Event Nat Nat) := [.expand, .validate, .contract]

theorem contracted_conforms_edge : ∃ s : State Nat Nat,
    Run (step flat toTwo) (Guarded flat toTwo) (init actors)
      (contracted ++ [Event.row (.begin_ 0), .row (.write 0 0 (.createEdge 100 2 5)), .row (.commit 0)]) s ∧
      (s.db.committed 0).isSome ∧ ∀ k, ∀ st ∈ s.db.committed k, Conforms flat toTwo st.link := by
  have hnil : Run (step flat toTwo) (Guarded flat toTwo) (init actors : State Nat Nat) [] _ := .nil
  have hexpand := hnil.snoc (e := .expand) (by trivial) rfl
  have hvalidate := hexpand.snoc (e := .validate) (by rintro - k st ⟨⟩) rfl
  have hcontract := hvalidate.snoc (e := .contract) (by trivial) rfl
  have hbegin := hcontract.snoc (e := .row (.begin_ 0)) (by trivial) rfl
  have hwrite := hbegin.snoc (e := .row (.write 0 0 (.createEdge 100 2 5))) (by trivial) rfl
  have hcommit := hwrite.snoc (e := .row (.commit 0)) (fun _ k hk st hst hnot => by
    have hk : k = 0 := by
      by_contra hne
      simp [Database.assign, Function.update_of_ne hne, Database.init, init] at hk
    subst hk
    obtain rfl : _ = st := Option.some.inj hst
    decide) rfl
  have hplan : analyse flat actors 100 "actor" 2 = .ok toTwo := rfl
  exact ⟨_, hcommit, rfl, contracted_conforms (by decide) hplan hcommit rfl⟩

/-- An edge of the old kind is written between the validation and the contraction. -/
theorem not_contracted_conforms : ¬ ∀ (es : List (Event Nat Nat)) (s : State Nat Nat),
    Run (step flat toTwo) (fun _ _ _ => True) (init actors) es s → s.phase = .contracted →
      ∀ k, ∀ st ∈ s.db.committed k, Conforms flat toTwo st.link := by
  intro h
  have hnil : Run (step flat toTwo) (fun _ _ _ => True) (init actors : State Nat Nat) [] _ := .nil
  have hexpand := hnil.snoc (e := .expand) trivial rfl
  have hvalidate := hexpand.snoc (e := .validate) trivial rfl
  have hbegin := hvalidate.snoc (e := .row (.begin_ 0)) trivial rfl
  have hwrite := hbegin.snoc (e := .row (.write 0 0 (.createEdge 100 1 5))) trivial rfl
  have hcommit := hwrite.snoc (e := .row (.commit 0)) trivial rfl
  have hcontract := hcommit.snoc (e := .contract) trivial rfl
  exact absurd (h _ _ hcontract rfl 0 _ rfl) (by decide)

end Runs

end OntologicalDb.RoleChanges
