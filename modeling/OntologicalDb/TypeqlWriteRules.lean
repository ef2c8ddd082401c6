import OntologicalDb.TypeqlWrites

/-!
What a write stage does to attribute instances and ownerships: it takes some away, and it adds
one ownership at a time.
-/

namespace OntologicalDb.TypeqlWriteRules

open OntologicalDb.ExceptRules
open OntologicalDb.TypeqlSyntax
open OntologicalDb.TypeqlPipeline
open OntologicalDb.TypeqlWrites

section Rules

variable {H : Host} {S : Schema}

/-- Nothing is added. -/
structure Shrinks (σ σ' : Store H) : Prop where
  attrs : σ'.attrs.Sublist σ.attrs
  has : σ'.has.Sublist σ.has
  nextId : ∀ t, σ.nextId t ≤ σ'.nextId t

theorem Shrinks.refl (σ : Store H) : Shrinks σ σ :=
  ⟨List.Sublist.refl _, List.Sublist.refl _, fun _ => Nat.le_refl _⟩

theorem Shrinks.trans {σ σ' σ'' : Store H} (h : Shrinks σ σ') (h' : Shrinks σ' σ'') :
    Shrinks σ σ'' :=
  ⟨h'.attrs.trans h.attrs, h'.has.trans h.has, fun t => (h.nextId t).trans (h'.nextId t)⟩

theorem foldlM_shrinks {α : Type} {f : Store H → α → Except String (Store H)} {xs : List α}
    {σ σ' : Store H} (hstep : ∀ σ x σ', f σ x = .ok σ' → Shrinks σ σ')
    (h : xs.foldlM f σ = .ok σ') : Shrinks σ σ' := by
  apply @foldlM_preserves _ _ _ f (fun σ' => Shrinks σ σ') _ xs σ σ' h (Shrinks.refl σ)
  intro b x c hb hc
  exact hb.trans (hstep b x c hc)

theorem foldl_shrinks {α : Type} {f : Store H → α → Store H} (xs : List α) (σ : Store H)
    (hstep : ∀ σ x, Shrinks σ (f σ x)) : Shrinks σ (xs.foldl f σ) := by
  induction xs generalizing σ with
  | nil => exact Shrinks.refl σ
  | cons x xs ih => exact (hstep σ x).trans (ih (f σ x))

/-! The steps that add nothing -/

theorem allocId_eq_ok {t id : Nat} {σ σ' : Store H} (h : allocId t σ = .ok (id, σ')) :
    t < 2 ^ 18 ∧ σ.nextId t < 2 ^ 36 ∧ id = t * 2 ^ 36 + σ.nextId t ∧
      σ' = { σ with nextId := Function.update σ.nextId t (σ.nextId t + 1) } := by
  rw [allocId] at h
  obtain ⟨id', hid, h⟩ := bind_eq_ok.mp h
  obtain ⟨rfl, rfl⟩ := Prod.mk.inj (pure_eq_ok.mp h)
  rw [makeId] at hid
  obtain ⟨_, htype, hid⟩ := bind_eq_ok.mp hid
  obtain ⟨_, hloc, hid⟩ := bind_eq_ok.mp hid
  exact ⟨require_eq_ok.mp htype, require_eq_ok.mp hloc, (pure_eq_ok.mp hid).symm, rfl⟩

theorem shrinks_allocId {t id : Nat} {σ σ' : Store H} (h : allocId t σ = .ok (id, σ')) :
    Shrinks σ σ' := by
  obtain ⟨-, -, -, rfl⟩ := allocId_eq_ok h
  refine ⟨List.Sublist.refl _, List.Sublist.refl _, ?_⟩
  intro t'
  show σ.nextId t' ≤ Function.update σ.nextId t (σ.nextId t + 1) t'
  by_cases heq : t' = t
  · rw [heq, Function.update_self]
    exact Nat.le_succ _
  · rw [Function.update_of_ne heq]

theorem shrinks_createInstance {ty : String} {id : Nat} {σ σ' : Store H}
    (h : createInstance S ty σ = .ok (id, σ')) : Shrinks σ σ' := by
  rw [createInstance] at h
  split at h
  · cases h
  · obtain ⟨-, -, h⟩ := bind_eq_ok.mp h
    obtain ⟨-, -, h⟩ := bind_eq_ok.mp h
    obtain ⟨-, -, h⟩ := bind_eq_ok.mp h
    obtain ⟨⟨id', σ₁⟩, halloc, h⟩ := bind_eq_ok.mp h
    obtain ⟨-, rfl⟩ := Prod.mk.inj (pure_eq_ok.mp h)
    obtain ⟨hattrs, hhas, hnext⟩ := shrinks_allocId halloc
    exact ⟨hattrs, hhas, hnext⟩

theorem shrinks_addRolePlayer {rel player : Nat} {role : Option String} {σ σ' : Store H}
    (h : addRolePlayer S rel role player σ = .ok σ') : Shrinks σ σ' := by
  rw [addRolePlayer] at h
  obtain ⟨roleId, -, h⟩ := bind_eq_ok.mp h
  split at h
  · obtain rfl := pure_eq_ok.mp h
    exact Shrinks.refl σ
  · obtain rfl := pure_eq_ok.mp h
    exact ⟨List.Sublist.refl _, List.Sublist.refl _, fun _ => Nat.le_refl _⟩

theorem shrinks_unlinkHas (owner attr : Nat) (σ : Store H) :
    Shrinks σ (unlinkHas owner attr σ) := by
  rw [unlinkHas]
  split
  · exact Shrinks.refl σ
  · exact ⟨List.Sublist.refl _, List.filter_sublist, fun _ => Nat.le_refl _⟩

theorem shrinks_dropInstance {id : Nat} {σ σ' : Store H} (h : dropInstance S id σ = .ok σ') :
    Shrinks σ σ' := by
  rw [dropInstance] at h
  obtain ⟨-, -, h⟩ := bind_eq_ok.mp h
  obtain rfl := pure_eq_ok.mp h
  exact ⟨List.filter_sublist, List.Sublist.refl _, fun _ => Nat.le_refl _⟩

theorem shrinks_deleteInstance {fuel id : Nat} {σ σ' : Store H}
    (h : deleteInstance S fuel σ id = .ok σ') : Shrinks σ σ' := by
  induction fuel generalizing id σ σ' with
  | zero => cases h
  | succ fuel ih =>
      rw [deleteInstance] at h
      obtain ⟨σ₁, hrels, h⟩ := bind_eq_ok.mp h
      have hunlink : Shrinks σ (unlinkAll id σ) :=
        foldl_shrinks _ σ fun σ e => shrinks_unlinkHas e.src e.dst σ
      exact hunlink.trans ((foldlM_shrinks (fun _ _ _ => ih) hrels).trans
        (shrinks_dropInstance h))

theorem shrinks_deleteItem {fuel : Nat} {env : Env} {item : DeleteItem} {σ σ' : Store H}
    (h : deleteItem S fuel env σ item = .ok σ') : Shrinks σ σ' := by
  cases item with
  | thing v =>
      rw [deleteItem] at h
      obtain ⟨id, -, h⟩ := bind_eq_ok.mp h
      exact shrinks_deleteInstance h
  | has owner attr =>
      rw [deleteItem] at h
      obtain ⟨ownerId, -, h⟩ := bind_eq_ok.mp h
      split at h
      · cases h
      · split at h
        · cases h
        · obtain rfl := pure_eq_ok.mp h
          exact shrinks_unlinkHas _ _ σ
  | links rel role player =>
      rw [deleteItem] at h
      obtain ⟨relId, -, h⟩ := bind_eq_ok.mp h
      obtain ⟨playerId, -, h⟩ := bind_eq_ok.mp h
      obtain ⟨roleIds, -, h⟩ := bind_eq_ok.mp h
      obtain rfl := pure_eq_ok.mp h
      exact ⟨List.Sublist.refl _, List.Sublist.refl _, fun _ => Nat.le_refl _⟩

theorem shrinks_updateUnlink {env : Env} {p : Pat} {σ σ' : Store H}
    (h : updateUnlink S env σ p = .ok σ') : Shrinks σ σ' := by
  rw [updateUnlink.eq_def] at h
  split at h
  · obtain ⟨ownerId, -, h⟩ := bind_eq_ok.mp h
    split at h
    · cases h
    · obtain rfl := pure_eq_ok.mp h
      exact foldl_shrinks _ σ fun σ a => shrinks_unlinkHas ownerId a σ
  · cases h

/-! Ownership -/

/-- What `internAttribute` has checked, and that it then looks up or creates. -/
theorem internAttribute_eq_ok {owner id : Nat} {attr : String} {value : Value} {σ σ' : Store H}
    (h : internAttribute S owner attr value σ = .ok (id, σ')) :
    ∃ attrTid anns vt sqlTy lit, S.tryTypeId attr = some attrTid ∧
      S.ownedAttribute (idType owner) attr = some (attrTid, anns) ∧
      S.valueTypeOf attrTid = some vt ∧ valueTypeSql vt = .ok sqlTy ∧
      typedLiteral H value sqlTy attr = .ok lit ∧
      checkValueConstraints S attrTid attr value = .ok () ∧
      checkOwnershipConstraints S σ owner (idType owner) attrTid attr anns lit = .ok () ∧
      lookupOrCreate attrTid lit σ = .ok (id, σ') := by
  rw [internAttribute] at h
  split at h
  · cases h
  · next attrTid htype =>
    obtain ⟨-, -, h⟩ := bind_eq_ok.mp h
    split at h
    · cases h
    · next owned anns howned =>
      obtain rfl : owned = attrTid := by
        rw [Schema.ownedAttribute, htype] at howned
        dsimp only at howned
        split at howned
        · cases howned
        · exact (Prod.mk.inj (Option.some.inj howned)).1.symm
      obtain ⟨-, -, h⟩ := bind_eq_ok.mp h
      split at h
      · cases h
      · next vt hvt =>
        obtain ⟨sqlTy, hsql, h⟩ := bind_eq_ok.mp h
        obtain ⟨lit, hlit, h⟩ := bind_eq_ok.mp h
        obtain ⟨_, hvalue, h⟩ := bind_eq_ok.mp h
        obtain ⟨_, hown, h⟩ := bind_eq_ok.mp h
        exact ⟨owned, anns, vt, sqlTy, lit, htype, howned, hvt, hsql, hlit, hvalue, hown, h⟩

theorem lookupOrCreate_eq_ok {attrTid id : Nat} {lit : Cell H.Time} {σ σ' : Store H}
    (h : lookupOrCreate attrTid lit σ = .ok (id, σ')) :
    (σ' = σ ∧ ∃ a ∈ σ.attrs, a.typeId = attrTid ∧ a.val = lit ∧ a.id = id) ∨
      (attrTid < 2 ^ 18 ∧ σ.nextId attrTid < 2 ^ 36 ∧ id = attrTid * 2 ^ 36 + σ.nextId attrTid ∧
        σ'.attrs = ⟨attrTid, id, lit⟩ :: σ.attrs ∧ σ'.has = σ.has ∧
        σ'.nextId = Function.update σ.nextId attrTid (σ.nextId attrTid + 1)) := by
  rw [lookupOrCreate] at h
  split at h
  · next a ha =>
    obtain ⟨rfl, rfl⟩ := Prod.mk.inj (pure_eq_ok.mp h)
    have hspec := List.find?_some ha
    rw [decide_eq_true_iff] at hspec
    exact .inl ⟨rfl, a, List.mem_of_find?_eq_some ha, hspec.1, hspec.2, rfl⟩
  · obtain ⟨⟨id', σ₁⟩, halloc, h⟩ := bind_eq_ok.mp h
    obtain ⟨rfl, rfl⟩ := Prod.mk.inj (pure_eq_ok.mp h)
    obtain ⟨htype, hloc, rfl, rfl⟩ := allocId_eq_ok halloc
    exact .inr ⟨htype, hloc, rfl, rfl, rfl, rfl⟩

theorem linkHas_eq_ok {owner attr : Nat} {σ σ' : Store H} (h : linkHas S owner attr σ = .ok σ') :
    (σ' = σ ∧ ∃ e ∈ σ.has, e.src = owner ∧ e.dst = attr) ∨
      ((∀ e ∈ σ.has, ¬ (e.src = owner ∧ e.dst = attr)) ∧ ∃ eid,
        σ'.attrs = σ.attrs ∧ σ'.has = ⟨eid, owner, attr⟩ :: σ.has ∧
        ∀ t, σ.nextId t ≤ σ'.nextId t) := by
  rw [linkHas] at h
  split at h
  · next hany =>
    obtain rfl := pure_eq_ok.mp h
    obtain ⟨e, he, hspec⟩ := List.any_eq_true.mp hany
    exact .inl ⟨rfl, e, he, decide_eq_true_iff.mp hspec⟩
  · next hnone =>
    obtain ⟨⟨eid, σ₁⟩, halloc, h⟩ := bind_eq_ok.mp h
    obtain rfl := pure_eq_ok.mp h
    have hnext := (shrinks_allocId halloc).nextId
    obtain ⟨-, -, -, rfl⟩ := allocId_eq_ok halloc
    refine .inr ⟨?_, eid, rfl, rfl, hnext⟩
    intro e he hspec
    exact hnone (List.any_eq_true.mpr ⟨e, he, decide_eq_true hspec⟩)

/-! Invariants -/

/-- What holds of a store whatever is taken away, and is kept where an attribute is owned. -/
structure Invariant (S : Schema) (allowed : String → Prop) (P : Store H → Prop) : Prop where
  shrinks : ∀ σ σ' : Store H, P σ → Shrinks σ σ' → P σ'
  owns : ∀ (owner id : Nat) (attr : String) (value : Value) (σ σ₁ σ' : Store H), allowed attr →
    P σ → internAttribute S owner attr value σ = .ok (id, σ₁) →
      linkHas S owner id σ₁ = .ok σ' → P σ'

/-- The attribute types that patterns name. -/
def attributesOf (pats : List Pat) : List String :=
  pats.filterMap fun p =>
    match p with
    | .has _ attr _ => attr
    | _ => none

/-- The attribute types that a stage may write. -/
def writtenAttributes : Writing → List String
  | .insert pats | .put pats | .update pats => attributesOf pats
  | .delete _ => []

variable {allowed : String → Prop} {P : Store H → Prop}

theorem insertIsa_shrinks {var ty : String} {env env' : Env} {σ σ' : Store H}
    (h : insertIsa S var ty env σ = .ok (env', σ')) : Shrinks σ σ' := by
  rw [insertIsa] at h
  split at h
  · obtain ⟨-, rfl⟩ := Prod.mk.inj (pure_eq_ok.mp h)
    exact Shrinks.refl σ
  · obtain ⟨⟨id, σ₁⟩, hcreate, h⟩ := bind_eq_ok.mp h
    obtain ⟨-, rfl⟩ := Prod.mk.inj (pure_eq_ok.mp h)
    exact shrinks_createInstance hcreate

theorem insertThing_shrinks {p : Pat} {env env' : Env} {σ σ' : Store H}
    (h : insertThing S (env, σ) p = .ok (env', σ')) : Shrinks σ σ' := by
  rw [insertThing.eq_def] at h
  split at h
  · exact insertIsa_shrinks h
  · exact insertIsa_shrinks h
  · obtain ⟨-, rfl⟩ := Prod.mk.inj (pure_eq_ok.mp h)
    exact Shrinks.refl σ

theorem insertRole_shrinks {p : Pat} {env env' : Env} {σ σ' : Store H}
    (h : insertRole S (env, σ) p = .ok (env', σ')) : Shrinks σ σ' := by
  rw [insertRole.eq_def] at h
  split at h
  · obtain ⟨relId, -, h⟩ := bind_eq_ok.mp h
    obtain ⟨playerId, -, h⟩ := bind_eq_ok.mp h
    obtain ⟨σ₁, hplayer, h⟩ := bind_eq_ok.mp h
    obtain ⟨-, rfl⟩ := Prod.mk.inj (pure_eq_ok.mp h)
    exact shrinks_addRolePlayer hplayer
  · obtain ⟨-, rfl⟩ := Prod.mk.inj (pure_eq_ok.mp h)
    exact Shrinks.refl σ

/-- The attribute type a `has` writes is the one it names. -/
theorem hasValue_eq_ok {env : Env} {attr : Option String} {val : HasVal} {res : String × Value}
    (h : hasValue H env attr val = .ok res) : attr = some res.1 := by
  rw [hasValue.eq_def] at h
  split at h
  · obtain ⟨v, -, h⟩ := bind_eq_ok.mp h
    rw [← pure_eq_ok.mp h]
  · split at h
    · rw [← pure_eq_ok.mp h]
    · cases h
  · cases h
  · cases h

theorem insertHas_keeps (hinv : Invariant S allowed P) {p : Pat} {env env' : Env}
    {σ σ' : Store H} (hallowed : ∀ owner attr val, p = .has owner (some attr) val → allowed attr)
    (hσ : P σ) (h : insertHas S (env, σ) p = .ok (env', σ')) : P σ' := by
  rw [insertHas.eq_def] at h
  split at h
  · next owner attr val =>
    obtain ⟨ownerId, -, h⟩ := bind_eq_ok.mp h
    obtain ⟨⟨attrName, value⟩, hvalue, h⟩ := bind_eq_ok.mp h
    obtain ⟨⟨attrId, σ₁⟩, hintern, h⟩ := bind_eq_ok.mp h
    obtain ⟨σ₂, hlink, h⟩ := bind_eq_ok.mp h
    obtain ⟨-, rfl⟩ := Prod.mk.inj (pure_eq_ok.mp h)
    obtain rfl := hasValue_eq_ok hvalue
    exact hinv.owns ownerId attrId attrName value σ σ₁ σ₂ (hallowed owner attrName val rfl) hσ
      hintern hlink
  · obtain ⟨-, rfl⟩ := Prod.mk.inj (pure_eq_ok.mp h)
    exact hσ

/-- A loop over patterns keeps what each pattern keeps. -/
theorem foldlM_keeps {f : Env × Store H → Pat → Except String (Env × Store H)} {pats : List Pat}
    {env env' : Env} {σ σ' : Store H}
    (hstep : ∀ p ∈ pats, ∀ env env' σ σ', P σ → f (env, σ) p = .ok (env', σ') → P σ') (hσ : P σ)
    (h : pats.foldlM f (env, σ) = .ok (env', σ')) : P σ' := by
  induction pats generalizing env σ with
  | nil =>
      obtain ⟨-, rfl⟩ := Prod.mk.inj (pure_eq_ok.mp h)
      exact hσ
  | cons p pats ih =>
      obtain ⟨⟨env₁, σ₁⟩, hhead, hrest⟩ := foldlM_cons_eq_ok.mp h
      obtain ⟨hp, hpats⟩ := List.forall_mem_cons.mp hstep
      exact ih hpats (hp env env₁ σ σ₁ hσ hhead) hrest

theorem runInsert_keeps (hinv : Invariant S allowed P) {pats : List Pat} {env env' : Env}
    {σ σ' : Store H} (hallowed : ∀ a ∈ attributesOf pats, allowed a) (hσ : P σ)
    (h : runInsert S pats env σ = .ok (env', σ')) : P σ' := by
  rw [runInsert] at h
  obtain ⟨⟨env₁, σ₁⟩, hthings, h⟩ := bind_eq_ok.mp h
  obtain ⟨⟨env₂, σ₂⟩, hroles, h⟩ := bind_eq_ok.mp h
  obtain ⟨⟨env₃, σ₃⟩, hhas, h⟩ := bind_eq_ok.mp h
  obtain ⟨env₄, -, h⟩ := bind_eq_ok.mp h
  obtain ⟨-, rfl⟩ := Prod.mk.inj (pure_eq_ok.mp h)
  have hσ₁ : P σ₁ :=
    foldlM_keeps (fun _ _ _ _ σ σ' hσ h => hinv.shrinks σ σ' hσ (insertThing_shrinks h)) hσ hthings
  have hσ₂ : P σ₂ :=
    foldlM_keeps (fun _ _ _ _ σ σ' hσ h => hinv.shrinks σ σ' hσ (insertRole_shrinks h)) hσ₁ hroles
  refine foldlM_keeps ?_ hσ₂ hhas
  intro p hp env env' σ σ' hσ h
  apply insertHas_keeps hinv _ hσ h
  rintro owner attr val rfl
  exact hallowed attr (List.mem_filterMap.mpr ⟨_, hp, rfl⟩)

/-- A write stage keeps an invariant. -/
theorem runWriting_keeps (hinv : Invariant S allowed P) {findOne : FindOne H} {fuel : Nat}
    {w : Writing} {env env' : Env} {σ σ' : Store H} (hallowed : ∀ a ∈ writtenAttributes w, allowed a)
    (hσ : P σ) (h : runWriting S findOne fuel w env σ = .ok (env', σ')) : P σ' := by
  cases w with
  | insert pats => exact runInsert_keeps hinv hallowed hσ h
  | put pats =>
      rw [runWriting, runPut] at h
      obtain ⟨found, -, h⟩ := bind_eq_ok.mp h
      split at h
      · obtain ⟨-, rfl⟩ := Prod.mk.inj (pure_eq_ok.mp h)
        exact hσ
      · exact runInsert_keeps hinv hallowed hσ h
  | update pats =>
      rw [runWriting, runUpdate] at h
      obtain ⟨σ₁, hunlink, h⟩ := bind_eq_ok.mp h
      have hσ₁ := hinv.shrinks σ σ₁ hσ (foldlM_shrinks (fun _ _ _ => shrinks_updateUnlink) hunlink)
      exact runInsert_keeps hinv hallowed hσ₁ h
  | delete items =>
      rw [runWriting] at h
      obtain ⟨σ₁, hdelete, h⟩ := bind_eq_ok.mp h
      obtain ⟨-, rfl⟩ := Prod.mk.inj (pure_eq_ok.mp h)
      exact hinv.shrinks σ σ₁ hσ (foldlM_shrinks (fun _ _ _ => shrinks_deleteItem) hdelete)

/-- In every store that successful stages lead to, what they all keep holds. -/
theorem reached_invariant (hinv : Invariant S allowed P) (hempty : P (Store.empty H))
    {findOne : FindOne H} {ws : List Writing} {σ : Store H} (h : Reached S findOne ws σ)
    (hallowed : ∀ w ∈ ws, ∀ a ∈ writtenAttributes w, allowed a) : P σ := by
  induction h with
  | empty => exact hempty
  | step ws w σ σ' env env' fuel _ hrun ih =>
      rw [List.forall_mem_append] at hallowed
      exact runWriting_keeps hinv (hallowed.2 w (List.mem_singleton_self w)) (ih hallowed.1) hrun

end Rules

end OntologicalDb.TypeqlWriteRules
