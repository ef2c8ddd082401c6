import Mathlib.Data.Finset.Card
import Mathlib.Data.List.Dedup
import Mathlib.Data.List.Perm.Subperm

/-!
Grouping the elements of a list by a key, and keeping distinct elements.
-/

namespace OntologicalDb.RowGroups

variable {α κ ι : Type} [DecidableEq κ] [DecidableEq ι] {l l' : List α}

/-- The elements of each key, one group for each key that occurs. -/
def groupBy (key : α → κ) (l : List α) : List (List α) :=
  (l.map key).dedup.map fun k => l.filter fun a => key a = k

theorem ne_nil_of_mem_groupBy {key : α → κ} {g : List α} (h : g ∈ groupBy key l) : g ≠ [] := by
  obtain ⟨k, hk, rfl⟩ := List.mem_map.mp h
  obtain ⟨a, ha, rfl⟩ := List.mem_map.mp (List.mem_dedup.mp hk)
  exact List.ne_nil_of_mem (List.mem_filter.mpr ⟨ha, decide_eq_true rfl⟩)

theorem headD_mem {a : α} (h : l ≠ []) : l.headD a ∈ l := by
  cases l with
  | nil => exact absurd rfl h
  | cons b l => exact List.mem_cons_self

theorem key_eq_of_mem_groupBy {key : α → κ} {g : List α} (h : g ∈ groupBy key l) {a b : α}
    (ha : a ∈ g) (hb : b ∈ g) : key a = key b := by
  obtain ⟨k, -, rfl⟩ := List.mem_map.mp h
  exact (of_decide_eq_true (List.mem_filter.mp ha).2).trans
    (of_decide_eq_true (List.mem_filter.mp hb).2).symm

theorem length_groupBy (key : α → κ) (l : List α) :
    (groupBy key l).length = (l.map key).dedup.length :=
  List.length_map _

theorem eq_of_mem_groupBy {key : α → κ} {g g' : List α} (h : g ∈ groupBy key l)
    (h' : g' ∈ groupBy key l) {a b : α} (ha : a ∈ g) (hb : b ∈ g') (hab : key a = key b) :
    g = g' := by
  obtain ⟨k, -, rfl⟩ := List.mem_map.mp h
  obtain ⟨k', -, rfl⟩ := List.mem_map.mp h'
  have hk : key a = k := of_decide_eq_true (List.mem_filter.mp ha).2
  have hk' : key b = k' := of_decide_eq_true (List.mem_filter.mp hb).2
  rw [← hk, ← hk', hab]

theorem exists_group (key : α → κ) {a : α} (ha : a ∈ l) : ∃ g ∈ groupBy key l, a ∈ g :=
  ⟨_, List.mem_map.mpr ⟨key a, List.mem_dedup.mpr (List.mem_map.mpr ⟨a, ha, rfl⟩), rfl⟩,
    List.mem_filter.mpr ⟨ha, decide_eq_true rfl⟩⟩

/-- One key makes one group. -/
theorem groupBy_single {key : α → κ} (hne : l ≠ []) (h : ∀ a ∈ l, ∀ b ∈ l, key a = key b) :
    groupBy key l = [l] := by
  cases l with
  | nil => exact absurd rfl hne
  | cons a l =>
      have hsame : (a :: l).map key = List.replicate (l.length + 1) (key a) := by
        apply List.eq_replicate_iff.mpr
        refine ⟨by simp, fun k hk => ?_⟩
        obtain ⟨b, hb, rfl⟩ := List.mem_map.mp hk
        exact h b hb a List.mem_cons_self
      unfold groupBy
      rw [hsame, List.replicate_dedup (Nat.succ_ne_zero _), List.map_singleton]
      congr 1
      apply List.filter_eq_self.mpr
      intro b hb
      exact decide_eq_true (h b hb a List.mem_cons_self)

theorem groupBy_const {k : κ} (h : l ≠ []) : groupBy (fun _ => k) l = [l] :=
  groupBy_single h fun _ _ _ _ => rfl

/-- Distinct images under a function that tells the elements apart. -/
theorem dedup_map_perm {f : α → κ} {g : κ → ι} (hg : Set.InjOn g {k | k ∈ l.map f}) :
    ((l.map f).dedup.map g).Perm ((l.map f).map g).dedup := by
  rw [List.perm_ext_iff_of_nodup _ (List.nodup_dedup _)]
  · intro k
    simp only [List.mem_map, List.mem_dedup]
  · apply List.Nodup.map_on _ (List.nodup_dedup _)
    intro a ha b hb hab
    exact hg (List.mem_dedup.mp ha) (List.mem_dedup.mp hb) hab

/-- Keys that tell the same elements apart make the same groups. -/
theorem groupBy_congr {key : α → κ} {key' : α → ι}
    (h : ∀ a ∈ l, ∀ b ∈ l, key a = key b ↔ key' a = key' b) :
    (groupBy key l).Perm (groupBy key' l) := by
  classical
  -- Every key of one kind names one of the other.
  let other (k : κ) : Option ι := (l.find? fun a => key a = k).map key'
  have hto (a : α) (ha : a ∈ l) : other (key a) = some (key' a) := by
    cases hfind : l.find? fun b => key b = key a with
    | none => simpa using List.find?_eq_none.mp hfind a ha
    | some b =>
        have hb : key b = key a := by simpa using List.find?_some hfind
        have hsame := (h b (List.mem_of_find?_eq_some hfind) a ha).mp hb
        simp only [other, hfind, Option.map_some, hsame]
  have hinj : Set.InjOn other {k | k ∈ l.map key} := by
    intro k hk k' hk' heq
    obtain ⟨a, ha, rfl⟩ := List.mem_map.mp hk
    obtain ⟨b, hb, rfl⟩ := List.mem_map.mp hk'
    rw [hto a ha, hto b hb] at heq
    exact (h a ha b hb).mpr (Option.some.inj heq)
  have hkeys : ((l.map key).dedup.map other).Perm ((l.map key').dedup.map some) := by
    have hsame : (l.map key).map other = (l.map key').map some := by
      rw [List.map_map, List.map_map]
      exact List.map_congr_left hto
    apply (dedup_map_perm hinj).trans
    rw [hsame]
    exact (dedup_map_perm (Option.some_injective ι).injOn).symm
  have hgroups := hkeys.map fun k => l.filter fun a => some (key' a) = k
  rw [List.map_map, List.map_map] at hgroups
  have hleft : groupBy key l =
      (l.map key).dedup.map ((fun k => l.filter fun a => some (key' a) = k) ∘ other) := by
    apply List.map_congr_left
    intro k hk
    obtain ⟨a, ha, rfl⟩ := List.mem_map.mp (List.mem_dedup.mp hk)
    apply List.filter_congr
    intro b hb
    simp only [hto a ha, Option.some.injEq, h b hb a ha]
  rw [hleft]
  refine hgroups.trans (List.Perm.of_eq ?_)
  simp [groupBy, Function.comp_def]

theorem injOn_of_length_dedup_map {key : α → κ} {f : κ → ι}
    (h : (l.map key).dedup.length ≤ ((l.map key).map f).dedup.length) :
    Set.InjOn f {k | k ∈ l.map key} := by
  have hsub : ((l.map key).map f).dedup ⊆ (l.map key).dedup.map f := by
    intro k hk
    simpa only [List.mem_map, List.mem_dedup] using List.mem_dedup.mp hk
  have hperm := ((List.nodup_dedup _).subperm hsub).perm_of_length_le (by rwa [List.length_map])
  have hnodup : ((l.map key).dedup.map f).Nodup := hperm.nodup_iff.mp (List.nodup_dedup _)
  intro a ha b hb hab
  exact List.inj_on_of_nodup_map hnodup (List.mem_dedup.mpr ha) (List.mem_dedup.mpr hb) hab

/-- Distinct pairs with distinct first parts: these determine the second. -/
theorem determined_of_nodup {f : α → κ} {g : α → ι}
    (h : (((l.map fun a => (f a, g a)).dedup).map Prod.fst).Nodup) :
    ∀ a ∈ l, ∀ b ∈ l, f a = f b → g a = g b := by
  intro a ha b hb hab
  have hmem (c : α) (hc : c ∈ l) : (f c, g c) ∈ (l.map fun a => (f a, g a)).dedup :=
    List.mem_dedup.mpr (List.mem_map.mpr ⟨c, hc, rfl⟩)
  exact congrArg Prod.snd (List.inj_on_of_nodup_map h (hmem a ha) (hmem b hb) hab)

/-- Distinct pairs show the distinct first parts exactly when these determine
the second. -/
theorem map_fst_dedup_perm_iff {f : α → κ} {g : α → ι} :
    (((l.map fun a => (f a, g a)).dedup).map Prod.fst).Perm (l.map f).dedup ↔
      ∀ a ∈ l, ∀ b ∈ l, f a = f b → g a = g b := by
  have hmap : l.map f = (l.map fun a => (f a, g a)).map Prod.fst := by
    rw [List.map_map]
    rfl
  constructor
  · intro h
    exact determined_of_nodup (h.nodup_iff.mpr (List.nodup_dedup _))
  · intro h
    rw [hmap]
    apply dedup_map_perm
    rintro _ hx _ hy hxy
    obtain ⟨a, ha, rfl⟩ := List.mem_map.mp hx
    obtain ⟨b, hb, rfl⟩ := List.mem_map.mp hy
    exact Prod.ext hxy (h a ha b hb hxy)

/-- Lists with the same elements have the same distinct images. -/
theorem dedup_map_perm_of_mem_iff {f : α → κ} (h : ∀ a, a ∈ l ↔ a ∈ l') :
    (l.map f).dedup.Perm (l'.map f).dedup := by
  rw [List.perm_ext_iff_of_nodup (List.nodup_dedup _) (List.nodup_dedup _)]
  intro k
  simp only [List.mem_dedup, List.mem_map, h]

/-- Lists with the same elements make groups with the same elements. -/
theorem map_groupBy_perm {key : α → κ} {β : Type} {F : List α → β}
    (hF : ∀ g g' : List α, (∀ a, a ∈ g ↔ a ∈ g') → g ≠ [] → (∀ a ∈ g, ∀ b ∈ g, key a = key b) →
      F g = F g')
    (h : ∀ a, a ∈ l ↔ a ∈ l') :
    ((groupBy key l).map F).Perm ((groupBy key l').map F) := by
  unfold groupBy
  rw [List.map_map, List.map_map]
  refine List.Perm.trans (List.Perm.of_eq ?_) ((dedup_map_perm_of_mem_iff h).map _)
  apply List.map_congr_left
  intro k hk
  obtain ⟨a, ha, rfl⟩ := List.mem_map.mp (List.mem_dedup.mp hk)
  apply hF
  · intro b
    simp only [List.mem_filter, h]
  · exact List.ne_nil_of_mem (List.mem_filter.mpr ⟨ha, decide_eq_true rfl⟩)
  · intro b hb d hd
    exact (of_decide_eq_true (List.mem_filter.mp hb).2).trans
      (of_decide_eq_true (List.mem_filter.mp hd).2).symm

end OntologicalDb.RowGroups
