import Mathlib

/-!
Disjoint sets as parent pointers: the search for a root with path halving, and the link of
one root below another.
-/

namespace OntologicalDb.DisjointSets

/-- The parent of every element; a root is its own. -/
abbrev Parents := Nat → Nat

/-- Follow the parents to the root and halve the path on the way.  The loop takes no more
turns than there are elements. -/
def find : Nat → Parents → Nat → Parents × Nat
  | 0, parent, x => (parent, x)
  | fuel + 1, parent, x =>
      if parent x = x then (parent, x)
      else
        let halved := Function.update parent x (parent (parent x))
        find fuel halved (halved x)

/-- The root above an element. -/
inductive Leads (parent : Parents) : Nat → Nat → Prop
  | root {r : Nat} (h : parent r = r) : Leads parent r r
  | up {x r : Nat} (h : Leads parent (parent x) r) : Leads parent x r

/-- Two elements with one root. -/
def Same (parent : Parents) (x y : Nat) : Prop := ∃ r, Leads parent x r ∧ Leads parent y r

/-- Link the root of one element below the root of another. -/
def union (n : Nat) (parent : Parents) (x y : Nat) : Parents :=
  let (parent, a) := find n parent x
  let (parent, b) := find n parent y
  if a = b then parent else Function.update parent a b

/-- The elements below others. -/
def nonroots (n : Nat) (parent : Parents) : Finset Nat :=
  (Finset.range n).filter fun x => parent x ≠ x

/-- How far elements are from their roots: no further than there are elements below others. -/
structure Depth (n : Nat) (parent : Parents) (d : Nat → Nat) : Prop where
  root : ∀ x, parent x = x → d x = 0
  down : ∀ x, parent x ≠ x → d (parent x) < d x
  bound : ∀ x, d x ≤ (nonroots n parent).card

/-- Parent pointers among the elements below `n` that run in no circle. -/
structure Forest (n : Nat) (parent : Parents) : Prop where
  outside : ∀ x, n ≤ x → parent x = x
  depth : ∃ d, Depth n parent d

section Roots

variable {n : Nat} {parent : Parents} {x y z r r' : Nat}

theorem Leads.root_eq (h : Leads parent x r) (hx : parent x = x) : r = x := by
  induction h with
  | root => rfl
  | @up x r _ ih =>
      rw [hx] at ih
      exact ih hx

theorem Leads.unique (h : Leads parent x r) (h' : Leads parent x r') : r = r' := by
  induction h with
  | root hroot => exact (h'.root_eq hroot).symm
  | @up x r _ ih =>
      refine ih ?_
      cases h' with
      | root hroot =>
          rw [hroot]
          exact .root hroot
      | up h' => exact h'

theorem leads_up : Leads parent x r ↔ Leads parent (parent x) r := by
  constructor
  · intro h
    cases h with
    | root hroot =>
        rw [hroot]
        exact .root hroot
    | up h => exact h
  · exact .up

theorem Same.symm (h : Same parent x y) : Same parent y x := by
  obtain ⟨r, hx, hy⟩ := h
  exact ⟨r, hy, hx⟩

theorem Same.trans (h : Same parent x y) (h' : Same parent y z) : Same parent x z := by
  obtain ⟨r, hx, hy⟩ := h
  obtain ⟨r', hy', hz⟩ := h'
  obtain rfl := hy.unique hy'
  exact ⟨r, hx, hz⟩

end Roots

section Find

variable {n : Nat} {parent : Parents} {x y r : Nat} {d : Nat → Nat}

theorem Depth.down_twice (hd : Depth n parent d) (hx : parent x ≠ x) : d (parent (parent x)) < d x := by
  have hdown := hd.down x hx
  by_cases hroot : parent (parent x) = parent x
  · rwa [hroot]
  · exact (hd.down (parent x) hroot).trans hdown

theorem Depth.ne_twice (hd : Depth n parent d) (hx : parent x ≠ x) : parent (parent x) ≠ x := by
  intro heq
  have hlt := hd.down_twice hx
  rw [heq] at hlt
  exact lt_irrefl _ hlt

/-- Halving a path keeps every root. -/
theorem leads_halved (hd : Depth n parent d) (hx : parent x ≠ x) :
    Leads (Function.update parent x (parent (parent x))) y r ↔ Leads parent y r := by
  constructor
  · intro h
    induction h with
    | @root r hroot =>
        refine .root ?_
        by_cases hr : r = x
        · subst hr
          rw [Function.update_self] at hroot
          exact absurd hroot (hd.ne_twice hx)
        · rwa [Function.update_of_ne hr] at hroot
    | @up y r _ ih =>
        by_cases hy : y = x
        · subst hy
          rw [Function.update_self] at ih
          exact .up (.up ih)
        · rw [Function.update_of_ne hy] at ih
          exact .up ih
  · intro h
    induction h with
    | @root r hroot =>
        refine .root ?_
        rw [Function.update_of_ne]
        · exact hroot
        · rintro rfl
          exact hx hroot
    | @up y r _ ih =>
        refine .up ?_
        by_cases hy : y = x
        · subst hy
          rw [Function.update_self]
          -- the parent that is passed over is not `y` itself
          rw [leads_up, Function.update_of_ne hx] at ih
          exact ih
        · rwa [Function.update_of_ne hy]

theorem depth_halved (hd : Depth n parent d) (hx : parent x ≠ x) :
    Depth n (Function.update parent x (parent (parent x))) d := by
  have hsame (y : Nat) : Function.update parent x (parent (parent x)) y = y ↔ parent y = y := by
    by_cases hy : y = x
    · subst hy
      rw [Function.update_self]
      exact iff_of_false (hd.ne_twice hx) hx
    · rw [Function.update_of_ne hy]
  refine ⟨fun y hy => hd.root y ((hsame y).mp hy), fun y hy => ?_, fun y => ?_⟩
  · by_cases hyx : y = x
    · subst hyx
      rw [Function.update_self]
      exact hd.down_twice hx
    · rw [Function.update_of_ne hyx]
      exact hd.down y (mt (hsame y).mpr hy)
  · have hcount : nonroots n (Function.update parent x (parent (parent x))) = nonroots n parent :=
      Finset.filter_congr fun y _ => not_congr (hsame y)
    rw [hcount]
    exact hd.bound y

/-- With enough turns the search ends at the root, and keeps every root. -/
theorem find_spec {fuel : Nat} (hd : Depth n parent d) (hout : ∀ x, n ≤ x → parent x = x)
    (hfuel : d x ≤ fuel) :
    Forest n (find fuel parent x).1 ∧ Leads parent x (find fuel parent x).2 ∧
      ∀ y r, Leads (find fuel parent x).1 y r ↔ Leads parent y r := by
  induction fuel generalizing parent x with
  | zero =>
      have hx : parent x = x := by
        by_contra hx
        have hlt := hd.down x hx
        omega
      exact ⟨⟨hout, d, hd⟩, .root hx, fun _ _ => Iff.rfl⟩
  | succ fuel ih =>
      rw [find]
      split
      · next hx => exact ⟨⟨hout, d, hd⟩, .root hx, fun _ _ => Iff.rfl⟩
      · next hx =>
        have hd' := depth_halved hd hx
        have hlt : d (Function.update parent x (parent (parent x)) x) < d x := by
          rw [Function.update_self]
          exact hd.down_twice hx
        have hout' (y : Nat) (hy : n ≤ y) : Function.update parent x (parent (parent x)) y = y := by
          rw [Function.update_of_ne]
          · exact hout y hy
          · rintro rfl
            exact hx (hout y hy)
        obtain ⟨hforest, hleads, hkept⟩ := ih hd' hout' (Nat.lt_succ_iff.mp (hlt.trans_le hfuel))
        refine ⟨hforest, ?_, fun y r => (hkept y r).trans (leads_halved hd hx)⟩
        refine .up (.up ?_)
        have hleads := (leads_halved hd hx).mp hleads
        rw [Function.update_self] at hleads
        dsimp only
        rw [Function.update_self]
        exact hleads

/-- As many turns as there are elements are enough. -/
theorem Forest.find (h : Forest n parent) (x : Nat) :
    Forest n (DisjointSets.find n parent x).1 ∧ Leads parent x (DisjointSets.find n parent x).2 ∧
      ∀ y r, Leads (DisjointSets.find n parent x).1 y r ↔ Leads parent y r := by
  obtain ⟨d, hd⟩ := h.depth
  refine find_spec hd h.outside ((hd.bound x).trans ?_)
  exact (Finset.card_filter_le _ _).trans (Finset.card_range n).le

end Find

section Link

variable {n : Nat} {parent : Parents} {a b x y r : Nat}

/-- A root that is linked below another takes its elements along. -/
theorem leads_link (ha : parent a = a) (hb : parent b = b) (hne : a ≠ b) :
    Leads (Function.update parent a b) x r ↔ Leads parent x a ∧ r = b ∨ Leads parent x r ∧ r ≠ a := by
  constructor
  · intro h
    induction h with
    | @root r hroot =>
        by_cases hr : r = a
        · subst hr
          rw [Function.update_self] at hroot
          exact absurd hroot.symm hne
        · rw [Function.update_of_ne hr] at hroot
          exact .inr ⟨.root hroot, hr⟩
    | @up x r _ ih =>
        by_cases hx : x = a
        · subst hx
          rw [Function.update_self] at ih
          rcases ih with ⟨hleads, -⟩ | ⟨hleads, -⟩
          · exact absurd (hleads.root_eq hb) hne
          · exact .inl ⟨.root ha, hleads.root_eq hb⟩
        · rw [Function.update_of_ne hx] at ih
          exact ih.imp (And.imp_left .up) (And.imp_left .up)
  · have hroot : Leads (Function.update parent a b) b b := by
      refine .root ?_
      rw [Function.update_of_ne hne.symm]
      exact hb
    rintro (⟨h, rfl⟩ | ⟨h, hr⟩)
    · induction h with
      | root =>
          refine .up ?_
          rw [Function.update_self]
          exact hroot
      | @up x a' _ ih =>
          by_cases hx : x = a'
          · subst hx
            refine .up ?_
            rw [Function.update_self]
            exact hroot
          · refine .up ?_
            rw [Function.update_of_ne hx]
            exact ih ha hne hroot
    · induction h with
      | @root r h =>
          refine .root ?_
          rw [Function.update_of_ne hr]
          exact h
      | @up x r h ih =>
          have hx : x ≠ a := by
            rintro rfl
            rw [ha] at h
            exact hr (h.root_eq ha)
          refine .up ?_
          rw [Function.update_of_ne hx]
          exact ih hr

theorem Forest.link (h : Forest n parent) (ha : parent a = a) (hb : parent b = b) (hne : a ≠ b)
    (han : a < n) : Forest n (Function.update parent a b) := by
  classical
  obtain ⟨d, hd⟩ := h.depth
  refine ⟨fun x hx => ?_, fun x => if Leads parent x a then d x + 1 else d x, ⟨fun x hx => ?_,
    fun x hx => ?_, fun x => ?_⟩⟩
  · rw [Function.update_of_ne (by omega)]
    exact h.outside x hx
  · have hxa : x ≠ a := by
      rintro rfl
      rw [Function.update_self] at hx
      exact hne hx.symm
    rw [Function.update_of_ne hxa] at hx
    rw [if_neg fun hleads => hxa (hleads.root_eq hx).symm]
    exact hd.root x hx
  · by_cases hxa : x = a
    · subst hxa
      rw [Function.update_self, if_neg fun hleads => hne (hleads.root_eq hb), if_pos (.root ha)]
      rw [hd.root b hb]
      exact Nat.succ_pos _
    · rw [Function.update_of_ne hxa] at hx ⊢
      have hlt := hd.down x hx
      by_cases hleads : Leads parent x a
      · rw [if_pos hleads, if_pos (leads_up.mp hleads)]
        omega
      · rw [if_neg hleads, if_neg (mt leads_up.mpr hleads)]
        exact hlt
  · have hcount : nonroots n (Function.update parent a b) = insert a (nonroots n parent) := by
      ext y
      simp only [nonroots, Finset.mem_filter, Finset.mem_insert, Finset.mem_range]
      by_cases hy : y = a
      · subst hy
        simp [han, hne.symm]
      · simp [hy]
    have hfresh : a ∉ nonroots n parent := by simp [nonroots, ha]
    have hbound := hd.bound x
    rw [hcount, Finset.card_insert_of_notMem hfresh]
    split <;> omega

/-- What had one root has one after a link. -/
theorem Same.link (ha : parent a = a) (hb : parent b = b) (hne : a ≠ b) (h : Same parent x y) :
    Same (Function.update parent a b) x y := by
  obtain ⟨r, hx, hy⟩ := h
  by_cases hr : r = a
  · subst hr
    exact ⟨b, (leads_link ha hb hne).mpr (.inl ⟨hx, rfl⟩), (leads_link ha hb hne).mpr (.inl ⟨hy, rfl⟩)⟩
  · exact ⟨r, (leads_link ha hb hne).mpr (.inr ⟨hx, hr⟩), (leads_link ha hb hne).mpr (.inr ⟨hy, hr⟩)⟩

end Link

section Union

variable {n : Nat} {parent : Parents} {x y u w r : Nat}

theorem Leads.root_self (h : Leads parent x r) : parent r = r := by
  induction h with
  | root h => exact h
  | up _ ih => exact ih

theorem Forest.same_refl (h : Forest n parent) (x : Nat) : Same parent x x :=
  ⟨_, (h.find x).2.1, (h.find x).2.1⟩

theorem same_of_leads {parent' : Parents} (h : ∀ y r, Leads parent' y r ↔ Leads parent y r) :
    Same parent' u w ↔ Same parent u w :=
  exists_congr fun r => and_congr (h u r) (h w r)

/-- A union joins two classes and no others. -/
theorem Forest.union (h : Forest n parent) (hx : ∀ r, Leads parent x r → r < n) :
    Forest n (DisjointSets.union n parent x y) ∧ ∀ u w, Same (DisjointSets.union n parent x y) u w ↔
      Same parent u w ∨ Same parent u x ∧ Same parent y w ∨ Same parent u y ∧ Same parent x w := by
  obtain ⟨hforest₁, hleads₁, hkept₁⟩ := h.find x
  rw [DisjointSets.union]
  generalize DisjointSets.find n parent x = found₁ at hforest₁ hleads₁ hkept₁ ⊢
  obtain ⟨parent₁, a⟩ := found₁
  dsimp only at hforest₁ hleads₁ hkept₁ ⊢
  obtain ⟨hforest₂, hleads₂, hkept₂⟩ := hforest₁.find y
  generalize DisjointSets.find n parent₁ y = found₂ at hforest₂ hleads₂ hkept₂ ⊢
  obtain ⟨parent₂, b⟩ := found₂
  dsimp only at hforest₂ hleads₂ hkept₂ ⊢
  have hkept (z r : Nat) : Leads parent₂ z r ↔ Leads parent z r := (hkept₂ z r).trans (hkept₁ z r)
  have hy : Leads parent y b := (hkept₁ y b).mp hleads₂
  by_cases hab : a = b
  · subst hab
    rw [if_pos rfl]
    refine ⟨hforest₂, fun u w => ?_⟩
    rw [same_of_leads hkept]
    refine ⟨.inl, fun hsame => ?_⟩
    have hxy : Same parent x y := ⟨a, hleads₁, hy⟩
    rcases hsame with hsame | ⟨hux, hyw⟩ | ⟨huy, hxw⟩
    · exact hsame
    · exact (hux.trans hxy).trans hyw
    · exact (huy.trans hxy.symm).trans hxw
  · rw [if_neg hab]
    have ha : parent₂ a = a := ((hkept x a).mpr hleads₁).root_self
    have hb : parent₂ b = b := ((hkept y b).mpr hy).root_self
    refine ⟨hforest₂.link ha hb hab (hx a hleads₁), fun u w => ⟨fun hsame => ?_, fun hsame => ?_⟩⟩
    · obtain ⟨r, hu, hw⟩ := hsame
      rw [leads_link ha hb hab, hkept, hkept] at hu hw
      rcases hu with ⟨hu, rfl⟩ | ⟨hu, hr⟩
      · rcases hw with ⟨hw, -⟩ | ⟨hw, -⟩
        · exact .inl ⟨a, hu, hw⟩
        · exact .inr (.inl ⟨⟨a, hu, hleads₁⟩, ⟨r, hy, hw⟩⟩)
      · rcases hw with ⟨hw, rfl⟩ | ⟨hw, -⟩
        · exact .inr (.inr ⟨⟨r, hu, hy⟩, ⟨a, hleads₁, hw⟩⟩)
        · exact .inl ⟨r, hu, hw⟩
    · rcases hsame with hsame | ⟨⟨r, hu, hxr⟩, ⟨r', hyr, hw⟩⟩ | ⟨⟨r, hu, hyr⟩, ⟨r', hxr, hw⟩⟩
      · exact ((same_of_leads hkept).mpr hsame).link ha hb hab
      · obtain rfl := hleads₁.unique hxr
        obtain rfl := hy.unique hyr
        refine ⟨b, (leads_link ha hb hab).mpr (.inl ⟨(hkept _ _).mpr hu, rfl⟩), ?_⟩
        exact (leads_link ha hb hab).mpr (.inr ⟨(hkept _ _).mpr hw, Ne.symm hab⟩)
      · obtain rfl := hleads₁.unique hxr
        obtain rfl := hy.unique hyr
        refine ⟨b, (leads_link ha hb hab).mpr (.inr ⟨(hkept _ _).mpr hu, Ne.symm hab⟩), ?_⟩
        exact (leads_link ha hb hab).mpr (.inl ⟨(hkept _ _).mpr hw, rfl⟩)

end Union

section Classes

variable {κ : Type*} {n : Nat}

/-- The first element that used a key, and the parents: a further use of a key joins its element
with the first. -/
def join [DecidableEq κ] (n : Nat) (s : (AList fun _ : κ => Nat) × Parents) (use : Nat × κ) :
    (AList fun _ : κ => Nat) × Parents :=
  match s.1.lookup use.2 with
  | some j => (s.1, union n s.2 use.1 j)
  | none => (s.1.insert use.2 use.1, s.2)

/-- Elements that a chain of shared keys links. -/
def Linked (uses : List (Nat × κ)) : Nat → Nat → Prop :=
  Relation.EqvGen fun i j => ∃ k, (i, k) ∈ uses ∧ (j, k) ∈ uses

theorem Linked.mono {uses uses' : List (Nat × κ)} (h : uses ⊆ uses') {i j : Nat} (hl : Linked uses i j) :
    Linked uses' i j :=
  have hshare (i j : Nat) (hs : ∃ k, (i, k) ∈ uses ∧ (j, k) ∈ uses) : ∃ k, (i, k) ∈ uses' ∧ (j, k) ∈ uses' :=
    hs.imp fun _ hk => ⟨h hk.1, h hk.2⟩
  Relation.EqvGen.mono hshare i j hl

theorem Linked.lt_iff {uses : List (Nat × κ)} (hbelow : ∀ u ∈ uses, u.1 < n) {i j : Nat}
    (hl : Linked uses i j) : i < n ↔ j < n := by
  induction hl with
  | rel i j hshare =>
      obtain ⟨k, hi, hj⟩ := hshare
      exact iff_of_true (hbelow _ hi) (hbelow _ hj)
  | refl i => exact Iff.rfl
  | symm i j _ ih => exact ih.symm
  | trans i j k _ _ ih ih' => exact ih.trans ih'

variable [DecidableEq κ]

/-- The elements with one root are those that shared keys link, and every key that was used has
its first element. -/
structure Joined (n : Nat) (uses : List (Nat × κ)) (s : (AList fun _ : κ => Nat) × Parents) : Prop where
  forest : Forest n s.2
  same : ∀ i j, Same s.2 i j ↔ Linked uses i j
  first : ∀ k j, s.1.lookup k = some j → (j, k) ∈ uses
  seen : ∀ i k, (i, k) ∈ uses → (s.1.lookup k).isSome

theorem Joined.step {uses : List (Nat × κ)} {s : (AList fun _ : κ => Nat) × Parents} (h : Joined n uses s)
    (hbelow : ∀ u ∈ uses, u.1 < n) {i : Nat} (hi : i < n) (k : κ) :
    Joined n (uses ++ [(i, k)]) (join n s (i, k)) := by
  have hmono : uses ⊆ uses ++ [(i, k)] := fun _ hu => List.mem_append_left _ hu
  have hnew : (i, k) ∈ uses ++ [(i, k)] := List.mem_append_right _ (List.mem_singleton_self _)
  rw [join]
  cases hk : s.1.lookup k with
  | some j =>
      have hj : (j, k) ∈ uses := h.first k j hk
      have hroot (r : Nat) (hr : Leads s.2 i r) : r < n :=
        (((h.same i r).mp ⟨r, hr, .root hr.root_self⟩).lt_iff hbelow).mp hi
      obtain ⟨hforest, hsame⟩ := h.forest.union (y := j) hroot
      have hij : Same (union n s.2 i j) i j :=
        (hsame i j).mpr (.inr (.inl ⟨h.forest.same_refl i, h.forest.same_refl j⟩))
      have hkeep {x y : Nat} (hxy : Linked uses x y) : Same (union n s.2 i j) x y :=
        (hsame x y).mpr (.inl ((h.same x y).mpr hxy))
      refine ⟨hforest, fun x y => ⟨fun hxy => ?_, fun hxy => ?_⟩, fun k' j' hj' => hmono (h.first k' j' hj'),
        fun i' k' hu => ?_⟩
      · have hlink : Linked (uses ++ [(i, k)]) i j := .rel _ _ ⟨k, hnew, hmono hj⟩
        rcases (hsame x y).mp hxy with hxy | ⟨hx, hy⟩ | ⟨hx, hy⟩
        · exact ((h.same x y).mp hxy).mono hmono
        · exact (((h.same x i).mp hx).mono hmono).trans _ _ _
            (hlink.trans _ _ _ (((h.same j y).mp hy).mono hmono))
        · exact (((h.same x j).mp hx).mono hmono).trans _ _ _
            ((hlink.symm _ _).trans _ _ _ (((h.same i y).mp hy).mono hmono))
      · -- the element the key had first is in one class with every element that uses it
        have hfirst {x : Nat} {k' : κ} (hx : (x, k') ∈ uses ++ [(i, k)]) (hk' : k' = k) :
            Same (union n s.2 i j) x j := by
          subst hk'
          rcases List.mem_append.mp hx with hx | hx
          · exact hkeep (.rel _ _ ⟨k', hx, hj⟩)
          · obtain rfl : x = i := (Prod.mk.inj (List.mem_singleton.mp hx)).1
            exact hij
        induction hxy with
        | rel x y hshare =>
            obtain ⟨k', hx, hy⟩ := hshare
            by_cases hk' : k' = k
            · exact (hfirst hx hk').trans (hfirst hy hk').symm
            · have hold {z : Nat} (hz : (z, k') ∈ uses ++ [(i, k)]) : (z, k') ∈ uses := by
                rcases List.mem_append.mp hz with hz | hz
                · exact hz
                · exact absurd (Prod.mk.inj (List.mem_singleton.mp hz)).2 hk'
              exact hkeep (.rel _ _ ⟨k', hold hx, hold hy⟩)
        | refl x => exact hforest.same_refl x
        | symm x y _ ih => exact ih.symm
        | trans x y z _ _ ih ih' => exact ih.trans ih'
      · rcases List.mem_append.mp hu with hu | hu
        · exact h.seen i' k' hu
        · obtain rfl : k' = k := (Prod.mk.inj (List.mem_singleton.mp hu)).2
          dsimp only
          rw [hk]
          rfl
  | none =>
      have hunused (x : Nat) (hx : (x, k) ∈ uses) : False := by
        have hsome := h.seen x k hx
        rw [hk] at hsome
        cases hsome
      refine ⟨h.forest, fun x y => (h.same x y).trans ⟨fun hxy => hxy.mono hmono, fun hxy => ?_⟩,
        fun k' j' hj' => ?_, fun i' k' hu => ?_⟩
      · induction hxy with
        | rel x y hshare =>
            obtain ⟨k', hx, hy⟩ := hshare
            rcases List.mem_append.mp hx with hx | hx
            · rcases List.mem_append.mp hy with hy | hy
              · exact .rel _ _ ⟨k', hx, hy⟩
              · rw [(Prod.mk.inj (List.mem_singleton.mp hy)).2] at hx
                exact (hunused x hx).elim
            · obtain ⟨rfl, rfl⟩ := Prod.mk.inj (List.mem_singleton.mp hx)
              rcases List.mem_append.mp hy with hy | hy
              · exact (hunused y hy).elim
              · obtain rfl : y = x := (Prod.mk.inj (List.mem_singleton.mp hy)).1
                exact .refl _
        | refl x => exact .refl x
        | symm x y _ ih => exact ih.symm
        | trans x y z _ _ ih ih' => exact ih.trans _ _ _ ih'
      · by_cases hk' : k' = k
        · subst hk'
          rw [AList.lookup_insert] at hj'
          obtain rfl := Option.some.inj hj'
          exact hnew
        · rw [AList.lookup_insert_ne hk'] at hj'
          exact hmono (h.first k' j' hj')
      · by_cases hk' : k' = k
        · subst hk'
          rw [AList.lookup_insert]
          rfl
        · rw [AList.lookup_insert_ne hk']
          rcases List.mem_append.mp hu with hu | hu
          · exact h.seen i' k' hu
          · exact absurd (Prod.mk.inj (List.mem_singleton.mp hu)).2 hk'

theorem Joined.run {uses : List (Nat × κ)} (hbelow : ∀ u ∈ uses, u.1 < n) :
    Joined n uses (uses.foldl (join n) (∅, id)) := by
  induction uses using List.reverseRecOn with
  | nil =>
      refine ⟨⟨fun _ _ => rfl, fun _ => 0, fun _ _ => rfl, fun _ h => absurd rfl h, fun _ => Nat.zero_le _⟩,
        fun i j => ⟨fun hsame => ?_, fun hl => ?_⟩, fun k j hj => ?_, fun _ _ hu => (List.not_mem_nil hu).elim⟩
      · obtain ⟨r, hi, hj⟩ := hsame
        obtain rfl := hi.root_eq rfl
        obtain rfl := hj.root_eq rfl
        exact .refl _
      · have heq : i = j := by
          induction hl with
          | rel i j hshare =>
              obtain ⟨k, hi, -⟩ := hshare
              exact (List.not_mem_nil hi).elim
          | refl i => rfl
          | symm i j _ ih => exact ih.symm
          | trans i j k _ _ ih ih' => exact ih.trans ih'
        subst heq
        exact ⟨i, .root rfl, .root rfl⟩
      · simp at hj
  | append_singleton uses use ih =>
      have hbelow' (u : Nat × κ) (hu : u ∈ uses) : u.1 < n := hbelow u (List.mem_append_left _ hu)
      rw [List.foldl_append]
      exact (ih hbelow').step hbelow' (hbelow use (List.mem_append_right _ (List.mem_singleton_self _))) use.2

end Classes

section Groups

variable {β : Type*}

/-- Put an element into the group of its root. -/
def place (r : Nat) (x : β) : List (Nat × List β) → List (Nat × List β)
  | [] => [(r, [x])]
  | (r', xs) :: gs => if r' = r then (r', xs ++ [x]) :: gs else (r', xs) :: place r x gs

def placed (items : List (Nat × β)) : List (Nat × List β) :=
  items.foldl (fun gs i => place i.1 i.2 gs) []

/-- The elements of one root, in their order. -/
def ofRoot (items : List (Nat × β)) (r : Nat) : List β := (items.filter fun i => i.1 = r).map (·.2)

theorem place_map (f : Nat → List β) (r : Nat) (x : β) {roots : List Nat} (hnodup : roots.Nodup) :
    place r x (roots.map fun q => (q, f q)) =
      if r ∈ roots then roots.map fun q => (q, if q = r then f q ++ [x] else f q)
      else roots.map (fun q => (q, f q)) ++ [(r, [x])] := by
  induction roots with
  | nil => rfl
  | cons q roots ih =>
      obtain ⟨hq, hnodup⟩ := List.nodup_cons.mp hnodup
      rw [List.map_cons, place]
      by_cases hqr : q = r
      · subst hqr
        have hrest : roots.map (fun p => (p, if p = q then f p ++ [x] else f p)) =
            roots.map fun p => (p, f p) :=
          List.map_congr_left fun p hp => by
            rw [if_neg]
            rintro rfl
            exact hq hp
        rw [if_pos rfl, if_pos List.mem_cons_self, List.map_cons, if_pos rfl, hrest]
      · rw [if_neg hqr, ih hnodup]
        by_cases hr : r ∈ roots
        · rw [if_pos hr, if_pos (List.mem_cons_of_mem _ hr), List.map_cons, if_neg hqr]
        · have hr' : r ∉ q :: roots := List.not_mem_cons_of_ne_of_not_mem (Ne.symm hqr) hr
          rw [if_neg hr, if_neg hr', List.cons_append]

theorem ofRoot_append (items : List (Nat × β)) (r q : Nat) (x : β) :
    ofRoot (items ++ [(r, x)]) q = if q = r then ofRoot items q ++ [x] else ofRoot items q := by
  by_cases hq : q = r
  · subst hq
    simp [ofRoot, List.filter_append]
  · simp [ofRoot, List.filter_append, hq, Ne.symm hq]

theorem nodup_eraseDups : ∀ roots : List Nat, roots.eraseDups.Nodup
  | [] => .nil
  | r :: roots => by
      rw [List.eraseDups_cons, List.nodup_cons]
      refine ⟨fun hr => ?_, nodup_eraseDups (roots.filter fun q => !q == r)⟩
      simpa using (List.mem_filter.mp (List.mem_eraseDups.mp hr)).2
termination_by roots => roots.length
decreasing_by
  have hle := List.length_filter_le (fun q => !q == r) roots
  simp only [List.length_cons]
  omega

/-- The groups come in the order of their first elements. -/
theorem placed_eq (items : List (Nat × β)) :
    placed items = (items.map (·.1)).eraseDups.map fun r => (r, ofRoot items r) := by
  induction items using List.reverseRecOn with
  | nil => rfl
  | append_singleton items i ih =>
      obtain ⟨r, x⟩ := i
      have hstep : placed (items ++ [(r, x)]) = place r x (placed items) := by
        rw [placed, List.foldl_append]
        rfl
      rw [hstep, ih, place_map _ _ _ (nodup_eraseDups _), List.map_append, List.eraseDups_append]
      simp only [ofRoot_append, List.mem_eraseDups]
      by_cases hr : r ∈ items.map (·.1)
      · have hold : ([r].removeAll (items.map (·.1))).eraseDups = [] := by simp [List.removeAll, hr]
        rw [if_pos hr, List.map_cons, List.map_nil, hold, List.append_nil]
      · have hnew : ([r].removeAll (items.map (·.1))).eraseDups = [r] := by
          simp [List.removeAll, hr, List.eraseDups_cons]
        have hempty : ofRoot items r = [] := by
          refine List.map_eq_nil_iff.mpr (List.filter_eq_nil_iff.mpr fun i hi h => hr ?_)
          exact List.mem_map.mpr ⟨i, hi, of_decide_eq_true h⟩
        rw [if_neg hr, List.map_cons, List.map_nil, hnew, List.map_append, List.map_singleton, if_pos rfl,
          hempty, List.nil_append]
        congr 1
        refine List.map_congr_left fun q hq => ?_
        rw [if_neg]
        rintro rfl
        exact hr (List.mem_eraseDups.mp hq)

end Groups

end OntologicalDb.DisjointSets
