import OntologicalDb.TypeqlValueConstraints

/-!
The `@key`, `@unique` and `@card` annotations of ownerships, and the ownerships that the write
stages leave.
-/

namespace OntologicalDb.TypeqlOwnership

open OntologicalDb.ExceptRules
open OntologicalDb.TypeqlSyntax
open OntologicalDb.TypeqlPipeline
open OntologicalDb.TypeqlWrites
open OntologicalDb.TypeqlWriteRules
open OntologicalDb.TypeqlValueConstraints

section Specification

variable {H : Host} (S : Schema)

/-- The attribute types a declaration names. -/
def Declares (c : Constraint) (attrTid : Nat) : Prop :=
  c ∈ S.constraints ∧ c.kind = "owns" ∧
    ∃ t ∈ S.types, some t.name = c.target ∧ t.typeId = attrTid

/-- An instance owns a value of an attribute type, as an instance of it or of a subtype. -/
def OwnsValue (σ : Store H) (owner attrTid : Nat) (v : Cell H.Time) : Prop :=
  ∃ e ∈ σ.has, e.src = owner ∧
    ∃ a ∈ σ.attrs, a.id = e.dst ∧ attrTid ∈ S.ogSupertypes a.typeId ∧ a.val = v

/-- No two instances of a type own one value of an attribute it declares `@key` or `@unique`. -/
def KeysHold (σ : Store H) : Prop :=
  ∀ c attrTid, Declares S c attrTid → (c.params.key || c.params.unique) = true →
    ∀ o o' v, c.typeId ∈ S.ogSupertypes (idType o) → c.typeId ∈ S.ogSupertypes (idType o') →
      OwnsValue S σ o attrTid v → OwnsValue S σ o' attrTid v → o = o'

/-- No instance of a type owns more values of an attribute than the type's `@card` allows. -/
def CardsHold (σ : Store H) : Prop :=
  ∀ c attrTid, Declares S c attrTid → ∀ min max, c.params.card = some (min, some max) →
    ∀ o, c.typeId ∈ S.ogSupertypes (idType o) → ownedCount S σ o attrTid ≤ max

/-! What the checks cover -/

variable (written : String → Prop)

/-- The attribute types that the stages name. -/
def WrittenType (t : Nat) : Prop := ∃ attr, written attr ∧ S.tryTypeId attr = some t

/-- The uniqueness check looks at every instance of the declaring type, and no other subtype of
the declared attribute type is written. -/
def KeyCovered (c : Constraint) (declared ownerTid attrTid : Nat) : Prop :=
  (∀ t, c.typeId ∈ S.ogSupertypes t → t ∈ S.ogSubtypes (S.rootOf ownerTid)) ∧
    ∀ t, WrittenType S written t → declared ∈ S.ogSupertypes t → t = attrTid

/-- The subtypes of the declared attribute type that are written are subtypes of this one. -/
def CardCovered (declared attrTid : Nat) : Prop :=
  ∀ t, WrittenType S written t → declared ∈ S.ogSupertypes t → attrTid ∈ S.ogSupertypes t

/-- The declaration that is consulted is as strict as each that applies, and the checks cover
it. -/
def Enforced (attr : String) : Prop :=
  ∀ attrTid ownerTid anns, S.ownedAttribute ownerTid attr = some (attrTid, anns) →
    ∀ c declared, Declares S c declared → c.typeId ∈ S.ogSupertypes ownerTid →
      declared ∈ S.ogSupertypes attrTid →
        ((c.params.key || c.params.unique) = true → (anns.key || anns.unique) = true ∧
          KeyCovered S written c declared ownerTid attrTid) ∧
        ∀ min max, c.params.card = some (min, some max) →
          (∃ min' max', anns.card = some (min', some max') ∧ max' ≤ max) ∧
            CardCovered S written declared attrTid

/-! The ids that have been handed out -/

/-- An id of a type that has been allocated. -/
def Allocated (σ : Store H) (id t : Nat) : Prop :=
  t < 2 ^ 18 ∧ ∃ k, k < 2 ^ 36 ∧ k < σ.nextId t ∧ id = t * 2 ^ 36 + k

structure WellFormed (σ : Store H) : Prop where
  attrs : ∀ a ∈ σ.attrs, Allocated σ a.id a.typeId ∧ WrittenType S written a.typeId
  has : ∀ e ∈ σ.has, ∃ t, Allocated σ e.dst t ∧ WrittenType S written t
  unique : ∀ a ∈ σ.attrs, ∀ a' ∈ σ.attrs, a.id = a'.id → a = a'

/-- What the write stages keep. -/
structure OwnershipsHold (σ : Store H) : Prop where
  wellFormed : WellFormed S written σ
  keys : KeysHold S σ
  cards : CardsHold S σ

end Specification

section Check

variable {H : Host} {S : Schema} {written : String → Prop}

theorem idType_allocated {t k : Nat} (ht : t < 2 ^ 18) (hk : k < 2 ^ 36) :
    idType (t * 2 ^ 36 + k) = t := by
  rw [idType]
  omega

theorem Allocated.idType_eq {σ : Store H} {id t : Nat} (h : Allocated σ id t) :
    idType id = t := by
  obtain ⟨ht, k, hk, -, rfl⟩ := h
  exact idType_allocated ht hk

theorem Allocated.mono {σ σ' : Store H} {id t : Nat} (h : Allocated σ id t)
    (hnext : ∀ t, σ.nextId t ≤ σ'.nextId t) : Allocated σ' id t := by
  obtain ⟨ht, k, hk, hlt, rfl⟩ := h
  exact ⟨ht, k, hk, hlt.trans_le (hnext t), rfl⟩

/-- The id handed out next is not one that has been. -/
theorem Allocated.ne_next {σ : Store H} {id t t' : Nat} (h : Allocated σ id t')
    (ht : t < 2 ^ 18) (hloc : σ.nextId t < 2 ^ 36) : id ≠ t * 2 ^ 36 + σ.nextId t := by
  rintro rfl
  have heq := h.idType_eq
  rw [idType_allocated ht hloc] at heq
  obtain ⟨-, k, -, hlt, hid⟩ := h
  rw [← heq] at hlt hid
  omega

theorem mem_ogSupertypes {s t : Nat} : t ∈ S.ogSupertypes s ↔ ∃ d ∈ S.labels, ∃ a ∈ S.labels,
    d.typeId = s ∧ a.typeId = t ∧ a.lft ≤ d.lft ∧ d.rgt ≤ a.rgt := by
  rw [Schema.ogSupertypes, List.mem_dedup]
  simp only [List.mem_flatMap, List.mem_filter, List.mem_map, decide_eq_true_eq]
  constructor
  · rintro ⟨d, ⟨hd, hs⟩, a, ⟨ha, hle⟩, ht⟩
    exact ⟨d, hd, a, ha, hs, ht, hle⟩
  · rintro ⟨d, hd, a, ha, hs, ht, hle⟩
    exact ⟨d, ⟨hd, hs⟩, a, ⟨ha, hle⟩, ht⟩

theorem mem_ogSubtypes {s t : Nat} : s ∈ S.ogSubtypes t ↔ t ∈ S.ogSupertypes s := by
  rw [Schema.ogSubtypes, Schema.ogSupertypes, List.mem_dedup, List.mem_dedup]
  simp only [List.mem_flatMap, List.mem_filter, List.mem_map, decide_eq_true_eq]
  constructor
  · rintro ⟨a, ⟨ha, rfl⟩, d, ⟨hd, hle⟩, rfl⟩
    exact ⟨d, ⟨hd, rfl⟩, a, ⟨ha, hle⟩, rfl⟩
  · rintro ⟨d, ⟨hd, rfl⟩, a, ⟨ha, hle⟩, rfl⟩
    exact ⟨a, ⟨ha, rfl⟩, d, ⟨hd, hle⟩, rfl⟩

/-! Taking away -/

theorem wellFormed_shrinks {σ σ' : Store H} (h : WellFormed S written σ) (hshrinks : Shrinks σ σ') :
    WellFormed S written σ' := by
  constructor
  · intro a ha
    obtain ⟨halloc, hwritten⟩ := h.attrs a (hshrinks.attrs.mem ha)
    exact ⟨halloc.mono hshrinks.nextId, hwritten⟩
  · intro e he
    obtain ⟨t, halloc, hwritten⟩ := h.has e (hshrinks.has.mem he)
    exact ⟨t, halloc.mono hshrinks.nextId, hwritten⟩
  · intro a ha a' ha' hid
    exact h.unique a (hshrinks.attrs.mem ha) a' (hshrinks.attrs.mem ha') hid

theorem ownsValue_shrinks {σ σ' : Store H} (hshrinks : Shrinks σ σ') {o t : Nat}
    {v : Cell H.Time} (h : OwnsValue S σ' o t v) : OwnsValue S σ o t v := by
  obtain ⟨e, he, hsrc, a, ha, hrest⟩ := h
  exact ⟨e, hshrinks.has.mem he, hsrc, a, hshrinks.attrs.mem ha, hrest⟩

theorem ownedCount_shrinks {σ σ' : Store H} (hshrinks : Shrinks σ σ') (o t : Nat) :
    ownedCount S σ' o t ≤ ownedCount S σ o t :=
  (hshrinks.has.filter _).length_le

theorem ownershipsHold_shrinks {σ σ' : Store H} (h : OwnershipsHold S written σ)
    (hshrinks : Shrinks σ σ') : OwnershipsHold S written σ' := by
  constructor
  · exact wellFormed_shrinks h.wellFormed hshrinks
  · intro c attrTid hdeclares hkey o o' v ho ho' hv hv'
    exact h.keys c attrTid hdeclares hkey o o' v ho ho' (ownsValue_shrinks hshrinks hv)
      (ownsValue_shrinks hshrinks hv')
  · intro c attrTid hdeclares min max hcard o ho
    exact (ownedCount_shrinks hshrinks o attrTid).trans (h.cards c attrTid hdeclares min max hcard o ho)

/-! Owning -/

/-- What owning an attribute makes of a store: the attribute instance `id` has the type and value
given, and the edge to it is the one that may be new. -/
structure Owns (σ σ' : Store H) (owner id attrTid : Nat) (lit : Cell H.Time) : Prop where
  allocated : Allocated σ' id attrTid
  nextId : ∀ t, σ.nextId t ≤ σ'.nextId t
  attrs : ∀ a ∈ σ'.attrs, a ∈ σ.attrs ∨ (a = ⟨attrTid, id, lit⟩ ∧ ∀ t, ¬ Allocated σ id t)
  interned : ∀ a ∈ σ'.attrs, a.id = id → a = ⟨attrTid, id, lit⟩
  has : σ'.has = σ.has ∨ ∃ eid, σ'.has = ⟨eid, owner, id⟩ :: σ.has

theorem owns_of_intern {owner id : Nat} {attr : String} {value : Value} {σ σ₁ σ' : Store H}
    (hσ : WellFormed S written σ) (hintern : internAttribute S owner attr value σ = .ok (id, σ₁))
    (hlink : linkHas S owner id σ₁ = .ok σ') :
    ∃ attrTid anns lit, S.tryTypeId attr = some attrTid ∧
      S.ownedAttribute (idType owner) attr = some (attrTid, anns) ∧
      checkOwnershipConstraints S σ owner (idType owner) attrTid attr anns lit = .ok () ∧
      Owns σ σ' owner id attrTid lit := by
  obtain ⟨attrTid, anns, vt, sqlTy, lit, htype, howned, -, -, -, -, hcheck, hlookup⟩ :=
    internAttribute_eq_ok hintern
  refine ⟨attrTid, anns, lit, htype, howned, hcheck, ?_⟩
  have hlinked : σ'.attrs = σ₁.attrs ∧ (∀ t, σ₁.nextId t ≤ σ'.nextId t) ∧
      (σ'.has = σ₁.has ∨ ∃ eid, σ'.has = ⟨eid, owner, id⟩ :: σ₁.has) := by
    obtain ⟨rfl, -⟩ | ⟨-, eid, hattrs, hhas, hnext⟩ := linkHas_eq_ok hlink
    · exact ⟨rfl, fun _ => Nat.le_refl _, .inl rfl⟩
    · exact ⟨hattrs, hnext, .inr ⟨eid, hhas⟩⟩
  obtain ⟨hattrs, hnext, hhas⟩ := hlinked
  obtain ⟨rfl, a, ha, htypeId, hval, hid⟩ | ⟨ht, hloc, hid, hnew, hhas₁, hnext₁⟩ :=
    lookupOrCreate_eq_ok hlookup
  · have hrow : a = ⟨attrTid, id, lit⟩ := by rw [← htypeId, ← hval, ← hid]
    constructor
    · rw [← htypeId, ← hid]
      exact (hσ.attrs a ha).1.mono hnext
    · exact hnext
    · intro a' ha'
      rw [hattrs] at ha'
      exact .inl ha'
    · intro a' ha' hid'
      rw [hattrs] at ha'
      rw [hσ.unique a' ha' a ha (hid'.trans hid.symm), hrow]
    · exact hhas
  · have hmono : ∀ t, σ.nextId t ≤ σ₁.nextId t := by
      intro t
      rw [hnext₁]
      by_cases heq : t = attrTid
      · rw [heq, Function.update_self]
        exact Nat.le_succ _
      · rw [Function.update_of_ne heq]
    have hfresh : ∀ t, ¬ Allocated σ id t := by
      intro t halloc
      exact halloc.ne_next ht hloc hid
    constructor
    · refine ⟨ht, σ.nextId attrTid, hloc, Nat.lt_of_lt_of_le ?_ (hnext attrTid), hid⟩
      rw [hnext₁, Function.update_self]
      exact Nat.lt_succ_self _
    · intro t
      exact (hmono t).trans (hnext t)
    · intro a ha
      rw [hattrs, hnew] at ha
      obtain rfl | ha := List.mem_cons.mp ha
      · exact .inr ⟨rfl, hfresh⟩
      · exact .inl ha
    · intro a ha haid
      rw [hattrs, hnew] at ha
      obtain rfl | ha := List.mem_cons.mp ha
      · rfl
      · exact absurd (haid ▸ (hσ.attrs a ha).1) (hfresh _)
    · rw [hhas₁] at hhas
      exact hhas

theorem wellFormed_owns {σ σ' : Store H} {owner id attrTid : Nat} {lit : Cell H.Time}
    (h : WellFormed S written σ) (hwritten : WrittenType S written attrTid)
    (howns : Owns σ σ' owner id attrTid lit) : WellFormed S written σ' := by
  constructor
  · intro a ha
    obtain ha | ⟨rfl, -⟩ := howns.attrs a ha
    · exact ⟨(h.attrs a ha).1.mono howns.nextId, (h.attrs a ha).2⟩
    · exact ⟨howns.allocated, hwritten⟩
  · have hold : ∀ e ∈ σ.has, ∃ t, Allocated σ' e.dst t ∧ WrittenType S written t := by
      intro e he
      obtain ⟨t, ht, hwritten⟩ := h.has e he
      exact ⟨t, ht.mono howns.nextId, hwritten⟩
    intro e he
    obtain hhas | ⟨eid, hhas⟩ := howns.has
    · exact hold e (hhas ▸ he)
    · rw [hhas] at he
      obtain rfl | he := List.mem_cons.mp he
      · exact ⟨attrTid, howns.allocated, hwritten⟩
      · exact hold e he
  · intro a ha a' ha' hid
    by_cases heq : a.id = id
    · rw [howns.interned a ha heq, howns.interned a' ha' (hid ▸ heq)]
    · obtain hold | ⟨rfl, -⟩ := howns.attrs a ha
      · obtain hold' | ⟨rfl, -⟩ := howns.attrs a' ha'
        · exact h.unique a hold a' hold' hid
        · exact absurd hid heq
      · exact absurd rfl heq

/-- What is owned behind the step was owned before it, or it is the value that was written. -/
theorem ownsValue_owns {σ σ' : Store H} {owner id attrTid : Nat} {lit : Cell H.Time}
    (h : WellFormed S written σ) (howns : Owns σ σ' owner id attrTid lit) {o t : Nat} {v : Cell H.Time}
    (hv : OwnsValue S σ' o t v) :
    OwnsValue S σ o t v ∨ (o = owner ∧ t ∈ S.ogSupertypes attrTid ∧ v = lit) := by
  obtain ⟨e, he, hsrc, a, ha, hdst, htype, hval⟩ := hv
  by_cases hid : a.id = id
  · obtain rfl := howns.interned a ha hid
    by_cases howner : o = owner
    · exact .inr ⟨howner, htype, hval.symm⟩
    · -- another owner has the attribute instance already
      have hold : e ∈ σ.has := by
        obtain hhas | ⟨eid, hhas⟩ := howns.has
        · exact hhas ▸ he
        · rw [hhas] at he
          obtain rfl | he := List.mem_cons.mp he
          · exact absurd hsrc.symm howner
          · exact he
      obtain ha | ⟨-, hfresh⟩ := howns.attrs _ ha
      · exact .inl ⟨e, hold, hsrc, _, ha, hdst, htype, hval⟩
      · obtain ⟨t', ht', -⟩ := h.has e hold
        have hdst : id = e.dst := hdst
        rw [← hdst] at ht'
        exact absurd ht' (hfresh t')
  · have hold : e ∈ σ.has := by
      obtain hhas | ⟨eid, hhas⟩ := howns.has
      · exact hhas ▸ he
      · rw [hhas] at he
        obtain rfl | he := List.mem_cons.mp he
        · exact absurd hdst hid
        · exact he
    obtain ha | ⟨rfl, -⟩ := howns.attrs a ha
    · exact .inl ⟨e, hold, hsrc, a, ha, hdst, htype, hval⟩
    · exact absurd rfl hid

theorem ownedCount_owns {σ σ' : Store H} {owner id attrTid : Nat} {lit : Cell H.Time}
    (howns : Owns σ σ' owner id attrTid lit) (o t : Nat) :
    ownedCount S σ' o t ≤ ownedCount S σ o t ∨
      (o = owner ∧ t ∈ S.ogSupertypes attrTid ∧
        ownedCount S σ' o t ≤ ownedCount S σ o t + 1) := by
  obtain hhas | ⟨eid, hhas⟩ := howns.has
  · left
    rw [ownedCount, ownedCount, hhas]
  · rw [ownedCount, hhas, List.filter_cons]
    split
    · next hmem =>
      obtain ⟨hsrc, htype⟩ := decide_eq_true_iff.mp hmem
      rw [howns.allocated.idType_eq, mem_ogSubtypes] at htype
      exact .inr ⟨hsrc.symm, htype, Nat.le_refl _⟩
    · exact .inl (Nat.le_refl _)

/-! What the checks say -/

theorem checkOwnershipConstraints_eq_ok {σ : Store H} {owner ownerTid attrTid : Nat}
    {attr : String} {anns : Params} {lit : Cell H.Time}
    (h : checkOwnershipConstraints S σ owner ownerTid attrTid attr anns lit = .ok ()) :
    ((anns.key || anns.unique) = true →
      ∀ e ∈ σ.has, ∀ a ∈ σ.attrs, a.id = e.dst → a.typeId = attrTid → a.val = lit →
        e.src ≠ owner → idType e.src ∉ S.ogSubtypes (S.rootOf ownerTid)) ∧
      ∀ min max, anns.card = some (min, some max) → ownedCount S σ owner attrTid < max := by
  rw [checkOwnershipConstraints] at h
  obtain ⟨_, hunique, hcard⟩ := bind_eq_ok.mp h
  constructor
  · intro hkey
    rw [checkUnique, if_pos hkey] at hunique
    exact require_eq_ok.mp hunique
  · intro min max heq
    rw [heq, checkCard] at hcard
    exact require_eq_ok.mp hcard

/-- The value that was written is not one that another instance of the declaring type owns. -/
theorem eq_owner_of_owns {owner attrTid : Nat} {attr : String} {anns : Params} {σ : Store H}
    {lit : Cell H.Time} (h : WellFormed S written σ) (henforced : Enforced S written attr)
    (howned : S.ownedAttribute (idType owner) attr = some (attrTid, anns))
    (hcheck : checkOwnershipConstraints S σ owner (idType owner) attrTid attr anns lit = .ok ())
    {c : Constraint} {declared o : Nat} (hdeclares : Declares S c declared)
    (hkey : (c.params.key || c.params.unique) = true)
    (howner : c.typeId ∈ S.ogSupertypes (idType owner)) (ho : c.typeId ∈ S.ogSupertypes (idType o))
    (hattr : declared ∈ S.ogSupertypes attrTid) (hv : OwnsValue S σ o declared lit) :
    o = owner := by
  obtain ⟨hanns, hinstances, htypes⟩ :=
    (henforced attrTid (idType owner) anns howned c declared hdeclares howner hattr).1 hkey
  obtain ⟨e, he, rfl, a, ha, hdst, hdeclared, hval⟩ := hv
  by_contra hne
  exact (checkOwnershipConstraints_eq_ok hcheck).1 hanns e he a ha hdst
    (htypes a.typeId (h.attrs a ha).2 hdeclared) hval hne (hinstances _ ho)

theorem keysHold_owns {owner id attrTid : Nat} {attr : String} {anns : Params} {σ σ' : Store H}
    {lit : Cell H.Time} (h : OwnershipsHold S written σ) (henforced : Enforced S written attr)
    (howned : S.ownedAttribute (idType owner) attr = some (attrTid, anns))
    (hcheck : checkOwnershipConstraints S σ owner (idType owner) attrTid attr anns lit = .ok ())
    (howns : Owns σ σ' owner id attrTid lit) : KeysHold S σ' := by
  intro c declared hdeclares hkey o o' v ho ho' hv hv'
  obtain hold | ⟨rfl, hattr, rfl⟩ := ownsValue_owns h.wellFormed howns hv
  · obtain hold' | ⟨rfl, hattr, rfl⟩ := ownsValue_owns h.wellFormed howns hv'
    · exact h.keys c declared hdeclares hkey o o' v ho ho' hold hold'
    · exact eq_owner_of_owns h.wellFormed henforced howned hcheck hdeclares hkey ho' ho hattr hold
  · obtain hold' | ⟨rfl, -, -⟩ := ownsValue_owns h.wellFormed howns hv'
    · exact (eq_owner_of_owns h.wellFormed henforced howned hcheck hdeclares hkey ho ho' hattr hold').symm
    · rfl

theorem cardsHold_owns {owner id attrTid : Nat} {attr : String} {anns : Params} {σ σ' : Store H}
    {lit : Cell H.Time} (h : OwnershipsHold S written σ) (henforced : Enforced S written attr)
    (howned : S.ownedAttribute (idType owner) attr = some (attrTid, anns))
    (hcheck : checkOwnershipConstraints S σ owner (idType owner) attrTid attr anns lit = .ok ())
    (howns : Owns σ σ' owner id attrTid lit) : CardsHold S σ' := by
  intro c declared hdeclares min max hcard o ho
  obtain hle | ⟨rfl, hattr, hle⟩ := ownedCount_owns howns o declared
  · exact hle.trans (h.cards c declared hdeclares min max hcard o ho)
  · obtain ⟨⟨min', max', hcard', hle'⟩, hsub⟩ :=
      (henforced attrTid (idType o) anns howned c declared hdeclares ho hattr).2 min max hcard
    have hlt := (checkOwnershipConstraints_eq_ok hcheck).2 min' max' hcard'
    have hcount : ownedCount S σ o declared ≤ ownedCount S σ o attrTid := by
      rw [ownedCount, ownedCount, ← List.countP_eq_length_filter, ← List.countP_eq_length_filter]
      apply List.countP_mono_left
      intro e he hmem
      rw [decide_eq_true_iff] at hmem ⊢
      obtain ⟨t, halloc, hwritten⟩ := h.wellFormed.has e he
      rw [halloc.idType_eq, mem_ogSubtypes] at hmem ⊢
      exact ⟨hmem.1, hsub t hwritten hmem.2⟩
    omega

theorem ownershipsHold_invariant :
    Invariant S (fun attr => written attr ∧ Enforced S written attr)
      (fun σ : Store H => OwnershipsHold S written σ) := by
  constructor
  · intro σ σ' h hshrinks
    exact ownershipsHold_shrinks h hshrinks
  · rintro owner id attr value σ σ₁ σ' ⟨hwritten, henforced⟩ h hintern hlink
    obtain ⟨attrTid, anns, lit, htype, howned, hcheck, howns⟩ :=
      owns_of_intern h.wellFormed hintern hlink
    constructor
    · exact wellFormed_owns h.wellFormed ⟨attr, hwritten, htype⟩ howns
    · exact keysHold_owns h henforced howned hcheck howns
    · exact cardsHold_owns h henforced howned hcheck howns

/-- The attribute types that stages may write. -/
def WrittenBy (ws : List Writing) (attr : String) : Prop := ∃ w ∈ ws, attr ∈ writtenAttributes w

/-- In every store that successful stages lead to, keys and cardinalities hold, if the checks
enforce the declarations of each attribute type that the stages write. -/
theorem ownerships_hold {findOne : FindOne H} {ws : List Writing} {σ : Store H}
    (h : Reached S findOne ws σ)
    (henforced : ∀ attr, WrittenBy ws attr → Enforced S (WrittenBy ws) attr) :
    KeysHold S σ ∧ CardsHold S σ := by
  have hempty : OwnershipsHold S (WrittenBy ws) (Store.empty H) := by
    refine ⟨⟨?_, ?_, ?_⟩, ?_, ?_⟩
    · intro a ha
      cases ha
    · intro e he
      cases he
    · intro a ha
      cases ha
    · rintro c attrTid - - o o' v - - ⟨e, he, -⟩
      cases he
    · intro c attrTid hdeclares min max hcard o ho
      exact Nat.zero_le max
  have hold := reached_invariant ownershipsHold_invariant hempty h
    fun w hw attr hattr => ⟨⟨w, hw, hattr⟩, henforced attr ⟨w, hw, hattr⟩⟩
  exact ⟨hold.keys, hold.cards⟩

end Check

/-! A library -/

/-- `entity being; entity book sub being, owns isbn @key @card(0..1); attribute isbn, value string;
attribute isbn-13 sub isbn;` -/
def library : Schema where
  types := [⟨1, "$has", .r, true⟩, ⟨2, "being", .e, true⟩, ⟨3, "book", .e, true⟩,
    ⟨4, "isbn", .a, true⟩, ⟨5, "isbn-13", .a, true⟩]
  labels := [⟨1, 1, 1025, 0⟩, ⟨3, 3073, 4097, 1⟩, ⟨2, 2049, 5121, 0⟩, ⟨5, 7169, 8193, 1⟩,
    ⟨4, 6145, 9217, 0⟩]
  constraints := [⟨4, "value", some "string", noParams⟩, ⟨5, "value", some "string", noParams⟩,
    ⟨3, "owns", some "isbn", { noParams with key := true, card := some (0, some 1) }⟩]
  roles := []
  virtual := []
  hasType := 1

/-- `insert $x isa book, has isbn "1";` -/
def shelve : Writing :=
  .insert [.isa "x" "book" false, .has "x" (some "isbn") (.cmp .eq (.lit (.str "1")))]

/-- `insert $x isa book, has isbn "1"; $y isa book, has isbn "2", has isbn-13 "1";` -/
def shelveBoth : Writing :=
  .insert [.isa "x" "book" false, .isa "y" "book" false,
    .has "x" (some "isbn") (.cmp .eq (.lit (.str "1"))),
    .has "y" (some "isbn") (.cmp .eq (.lit (.str "2"))),
    .has "y" (some "isbn-13") (.cmp .eq (.lit (.str "1")))]

/-- The owned values of a store: owner, attribute type and value. -/
def ownedRows (σ : Store isoHost) : List (Nat × Nat × Cell String) :=
  σ.has.flatMap fun e => (σ.attrs.filter fun a => a.id = e.dst).map fun a =>
    (e.src, a.typeId, a.val)

/-- A stage on the empty library. -/
def shelved (w : Writing) : Except String (Env × Store isoHost) :=
  runWriting library findNothing 1 w (fun _ => none) (Store.empty isoHost)

theorem reached_of_shelved {α : Type} {f : Store isoHost → α} {w : Writing} {x : α}
    (h : (shelved w).map (fun r => f r.2) = .ok x) :
    ∃ σ : Store isoHost, Reached library findNothing [w] σ ∧ f σ = x := by
  obtain ⟨⟨env, σ⟩, hrun, hx⟩ := map_eq_ok.mp h
  exact ⟨σ, Reached.step [] w _ σ _ env 1 Reached.empty hrun, hx⟩

theorem ownsValue_of_row {σ : Store isoHost} {o t attrTid : Nat} {v : Cell String}
    (hrow : (o, t, v) ∈ ownedRows σ) (ht : attrTid ∈ library.ogSupertypes t) :
    OwnsValue library σ o attrTid v := by
  rw [ownedRows, List.mem_flatMap] at hrow
  obtain ⟨e, he, hrow⟩ := hrow
  obtain ⟨a, ha, heq⟩ := List.mem_map.mp hrow
  obtain ⟨ha, hdst⟩ := List.mem_filter.mp ha
  rw [Prod.mk.injEq, Prod.mk.injEq] at heq
  obtain ⟨rfl, rfl, rfl⟩ := heq
  exact ⟨e, he, rfl, a, ha, decide_eq_true_iff.mp hdst, ht, rfl⟩

theorem declares_isbn {c : Constraint} {declared : Nat} (h : Declares library c declared) :
    c = ⟨3, "owns", some "isbn", { noParams with key := true, card := some (0, some 1) }⟩ ∧
      declared = 4 := by
  obtain ⟨hc, hkind, t, ht, hname, rfl⟩ := h
  simp only [library, List.mem_cons, List.not_mem_nil, or_false] at hc ht
  obtain rfl | rfl | rfl := hc
  · exact absurd hkind (by decide)
  · exact absurd hkind (by decide)
  · refine ⟨rfl, ?_⟩
    obtain rfl | rfl | rfl | rfl | rfl := ht
    · exact absurd hname (by decide)
    · exact absurd hname (by decide)
    · exact absurd hname (by decide)
    · rfl
    · exact absurd hname (by decide)

theorem eq_book {t : Nat} (h : 3 ∈ library.ogSupertypes t) : t = 3 := by
  obtain ⟨d, hd, a, ha, rfl, htype, hlft, hrgt⟩ := mem_ogSupertypes.mp h
  have hall : ∀ d ∈ library.labels, ∀ a ∈ library.labels, a.typeId = 3 → a.lft ≤ d.lft →
      d.rgt ≤ a.rgt → d.typeId = 3 := by decide
  exact hall d hd a ha htype hlft hrgt

theorem enforced_isbn : Enforced library (WrittenBy [shelve]) "isbn" := by
  have hwritten : ∀ t, WrittenType library (WrittenBy [shelve]) t → t = 4 := by
    rintro t ⟨attr, ⟨w, hw, hattr⟩, htype⟩
    obtain rfl := List.mem_singleton.mp hw
    obtain rfl := List.mem_singleton.mp hattr
    exact (Option.some.inj htype).symm
  intro attrTid ownerTid anns howned c declared hdeclares howner hattr
  obtain ⟨rfl, rfl⟩ := declares_isbn hdeclares
  obtain rfl := eq_book howner
  obtain ⟨rfl, rfl⟩ := Prod.mk.inj (Option.some.inj howned)
  constructor
  · intro _
    refine ⟨rfl, ?_, ?_⟩
    · intro t ht
      rw [eq_book ht]
      decide
    · intro t ht _
      exact hwritten t ht
  · intro min max hcard
    refine ⟨⟨min, max, hcard, Nat.le_refl _⟩, ?_⟩
    intro t ht hdeclared
    rw [hwritten t ht]
    exact hattr

theorem ownerships_hold_shelve : ∃ σ : Store isoHost, Reached library findNothing [shelve] σ ∧
    ownedRows σ = [(206158430209, 4, .text "1")] ∧ KeysHold library σ ∧ CardsHold library σ := by
  obtain ⟨σ, hreached, hrows⟩ :=
    @reached_of_shelved _ ownedRows shelve [(206158430209, 4, .text "1")] (by decide)
  refine ⟨σ, hreached, hrows, ownerships_hold hreached ?_⟩
  rintro attr ⟨w, hw, hattr⟩
  obtain rfl := List.mem_singleton.mp hw
  obtain rfl := List.mem_singleton.mp hattr
  exact enforced_isbn

/-- A subtype of the attribute gets around the key and the cardinality of it. -/
theorem not_ownerships_hold_shelveBoth : ∃ σ : Store isoHost,
    Reached library findNothing [shelveBoth] σ ∧
      ownedRows σ = [(206158430210, 5, .text "1"), (206158430210, 4, .text "2"),
        (206158430209, 4, .text "1")] ∧
      ¬ KeysHold library σ ∧ ¬ CardsHold library σ := by
  obtain ⟨σ, hreached, hread⟩ := @reached_of_shelved _
    (fun σ => (ownedRows σ, ownedCount library σ 206158430210 4)) shelveBoth
    ([(206158430210, 5, .text "1"), (206158430210, 4, .text "2"), (206158430209, 4, .text "1")], 2)
    (by decide)
  obtain ⟨hrows, hcount⟩ := Prod.mk.inj hread
  have hdeclares : Declares library
      ⟨3, "owns", some "isbn", { noParams with key := true, card := some (0, some 1) }⟩ 4 :=
    ⟨by simp [library], rfl, ⟨4, "isbn", .a, true⟩, by simp [library], rfl, rfl⟩
  refine ⟨σ, hreached, hrows, ?_, ?_⟩
  · intro hkeys
    have hfirst : (206158430209, 4, Cell.text "1") ∈ ownedRows σ := by simp [hrows]
    have hsecond : (206158430210, 5, Cell.text "1") ∈ ownedRows σ := by simp [hrows]
    have heq := hkeys _ 4 hdeclares rfl 206158430209 206158430210 (.text "1")
      (by decide) (by decide) (ownsValue_of_row hfirst (by decide))
      (ownsValue_of_row hsecond (by decide))
    exact absurd heq (by decide)
  · intro hcards
    have hle := hcards _ 4 hdeclares 0 1 rfl 206158430210 (by decide)
    rw [hcount] at hle
    exact absurd hle (by decide)

end OntologicalDb.TypeqlOwnership
