import Mathlib
import OntologicalDb.DisjointSets
import OntologicalDb.TypeqlSyntax

/-!
The groups of patterns that are compiled apart: patterns are together exactly when a chain of
shared variables links them.
-/

namespace OntologicalDb.TypeqlComponents

open OntologicalDb.DisjointSets
open OntologicalDb.TypeqlSyntax

/-- The patterns, by their positions, and the variables they touch. -/
def uses (pats : List Pat) : List (Nat × String) :=
  pats.zipIdx.flatMap fun p => (varsOf p.1).map fun v => (p.2, v)

def components (pats : List Pat) : List (List Pat) :=
  let n := pats.length
  let start := ((∅ : AList fun _ : String => Nat), (id : Parents))
  let (_, parent) := pats.zipIdx.foldl (fun s p =>
    (varsOf p.1).foldl (fun s v => join n s (p.2, v)) s) start
  let (_, groups) := pats.zipIdx.foldl (fun s p =>
    let (parent, root) := find n s.1 p.2
    (parent, place root p.1 s.2)) (parent, [])
  groups.map (·.2)

theorem mem_uses {pats : List Pat} {i : Nat} {v : String} :
    (i, v) ∈ uses pats ↔ ∃ p, pats[i]? = some p ∧ v ∈ varsOf p := by
  rw [uses, List.mem_flatMap]
  constructor
  · rintro ⟨⟨p, k⟩, hp, hv⟩
    obtain ⟨w, hw, heq⟩ := List.mem_map.mp hv
    obtain ⟨rfl, rfl⟩ := Prod.mk.inj heq
    exact ⟨p, List.mem_zipIdx_iff_getElem?.mp hp, hw⟩
  · rintro ⟨p, hp, hv⟩
    exact ⟨(p, i), List.mem_zipIdx_iff_getElem?.mpr hp, List.mem_map.mpr ⟨v, hv, rfl⟩⟩

/-- A search keeps every root, so the groups are those of the roots before the first search. -/
theorem groups_foldl {n : Nat} {parent p : Parents} (h : Forest n parent) (hp : Forest n p)
    (hkept : ∀ y r, Leads p y r ↔ Leads parent y r) (items : List (Pat × Nat)) (gs : List (Nat × List Pat)) :
    (items.foldl (fun s q => ((find n s.1 q.2).1, place (find n s.1 q.2).2 q.1 s.2)) (p, gs)).2 =
      (items.map fun q => ((find n parent q.2).2, q.1)).foldl (fun gs i => place i.1 i.2 gs) gs := by
  induction items generalizing p gs with
  | nil => rfl
  | cons q items ih =>
      obtain ⟨hforest, hleads, hsame⟩ := hp.find q.2
      have hroot : (find n p q.2).2 = (find n parent q.2).2 :=
        ((hkept _ _).mp hleads).unique (h.find q.2).2.1
      rw [List.foldl_cons, ih hforest fun y r => (hsame y r).trans (hkept y r), List.map_cons,
        List.foldl_cons, hroot]

/-- Two patterns are in one group exactly when a chain of shared variables links them; groups
come in the order of their first patterns, and keep the order of the patterns. -/
theorem components_linked (pats : List Pat) : ∃ root : Nat → Nat,
    (∀ i j, root i = root j ↔ Linked (uses pats) i j) ∧
      components pats = (pats.zipIdx.map fun p => root p.2).eraseDups.map fun r =>
        (pats.zipIdx.filter fun p => root p.2 = r).map (·.1) := by
  have hbelow (u : Nat × String) (hu : u ∈ uses pats) : u.1 < pats.length := by
    obtain ⟨p, hp, -⟩ := mem_uses.mp hu
    exact (List.getElem?_eq_some_iff.mp hp).1
  have hjoined := Joined.run hbelow
  have hparents : (uses pats).foldl (join pats.length) (∅, id) = pats.zipIdx.foldl (fun s p =>
      (varsOf p.1).foldl (fun s v => join pats.length s (p.2, v)) s) (∅, id) := by
    rw [uses, List.foldl_flatMap]
    simp only [List.foldl_map]
  rw [hparents] at hjoined
  rw [components]
  dsimp only
  generalize pats.zipIdx.foldl (fun s p =>
    (varsOf p.1).foldl (fun s v => join pats.length s (p.2, v)) s) (∅, id) = s at hjoined ⊢
  obtain ⟨owner, parent⟩ := s
  dsimp only
  have hfind (i : Nat) := (hjoined.forest.find i).2.1
  refine ⟨fun i => (find pats.length parent i).2, fun i j => ?_, ?_⟩
  · rw [← hjoined.same]
    constructor
    · intro heq
      have hj := hfind j
      dsimp only at heq
      rw [← heq] at hj
      exact ⟨_, hfind i, hj⟩
    · rintro ⟨r, hi, hj⟩
      exact ((hfind i).unique hi).trans ((hfind j).unique hj).symm
  · rw [groups_foldl hjoined.forest hjoined.forest fun _ _ => Iff.rfl]
    have hplaced := placed_eq (pats.zipIdx.map fun q => ((find pats.length parent q.2).2, q.1))
    rw [placed] at hplaced
    rw [hplaced, List.map_map, List.map_map]
    refine List.map_congr_left fun r _ => ?_
    simp only [Function.comp_apply, ofRoot, List.filter_map, List.map_map]
    rfl

end OntologicalDb.TypeqlComponents
