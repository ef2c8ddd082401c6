import Mathlib
import OntologicalDb.EditDistance
import OntologicalDb.TypeCatalog

/-!
The type names an error suggests for one that is not there.
-/

namespace OntologicalDb.NearestNames

open OntologicalDb.EditDistance
open OntologicalDb.TypeCatalog

def toAsciiLowercase (s : String) : List Char := s.toList.map Char.toLower

def editDistance (a b : List Char) : Nat := distance a b

/-- The names of the types of a graph. -/
def typeNames (c : Catalog) (gid : Int) : List String :=
  (c.types.filter fun t => t.graphId = gid).map (·.name)

/-- Only names that are plausibly what the caller meant. -/
def cutoff (target : List Char) : Nat := max (target.length / 2) 2

/-- By distance, then by name. -/
def before (x y : Nat × String) : Prop := x.1 < y.1 ∨ x.1 = y.1 ∧ x.2 ≤ y.2

instance : DecidableRel before := fun x y =>
  inferInstanceAs (Decidable (x.1 < y.1 ∨ x.1 = y.1 ∧ x.2 ≤ y.2))

def scored (c : Catalog) (gid : Int) (target : List Char) : List (Nat × String) :=
  ((typeNames c gid).map fun n => (editDistance (toAsciiLowercase n) target, n)).insertionSort before

def nearestTypeNames (c : Catalog) (gid : Int) (name : String) : List String :=
  let target := toAsciiLowercase name
  (((scored c gid target).filter fun x => x.1 ≤ cutoff target).take 3).map (·.2)

def typeId (c : Catalog) (gid : Int) (name : String) : Except String Int :=
  match tryTypeId c gid name with
  | some tid => .ok tid
  | none =>
      let hint := nearestTypeNames c gid name
      let names := ", ".intercalate hint
      if hint = [] then .error s!"type '{name}' does not exist in this graph"
      else .error s!"type '{name}' does not exist. did you mean: {names}"

section Suggestions

variable {c : Catalog} {gid : Int} {name n : String}

instance : Std.Total before where
  total x y := by
    rcases lt_trichotomy x.1 y.1 with h | h | h
    · exact .inl (.inl h)
    · exact (le_total x.2 y.2).imp (fun hle => .inr ⟨h, hle⟩) fun hle => .inr ⟨h.symm, hle⟩
    · exact .inr (.inl h)

instance : IsTrans (Nat × String) before where
  trans x y z := by
    rintro (hxy | ⟨hxy, hle⟩) (hyz | ⟨hyz, hle'⟩)
    · exact .inl (hxy.trans hyz)
    · exact .inl (hyz ▸ hxy)
    · exact .inl (hxy ▸ hyz)
    · exact .inr ⟨hxy.trans hyz, hle.trans hle'⟩

theorem mem_scored {target : List Char} {x : Nat × String} : x ∈ scored c gid target ↔
    x.2 ∈ typeNames c gid ∧ x.1 = editDistance (toAsciiLowercase x.2) target := by
  rw [scored, List.mem_insertionSort, List.mem_map]
  constructor
  · rintro ⟨n, hn, rfl⟩
    exact ⟨hn, rfl⟩
  · rintro ⟨hn, hd⟩
    exact ⟨x.2, hn, Prod.ext hd.symm rfl⟩

/-- A name within so many edits is one whose distance is no more. -/
theorem editDistance_le_iff {a b : List Char} {k : Nat} : editDistance a b ≤ k ↔ ∃ m ≤ k, Edits m a b :=
  ⟨fun h => ⟨_, h, (distance_isLeast a b).1⟩, fun h => by
    obtain ⟨m, hm, he⟩ := h
    exact ((distance_isLeast a b).2 he).trans hm⟩

/-- At most three types of the graph are suggested, each within the cutoff; a type within the
cutoff that is left out is no nearer than any of three that are suggested. -/
theorem nearestTypeNames_nearest (c : Catalog) (gid : Int) (name : String) :
    (nearestTypeNames c gid name).length ≤ 3 ∧
      (∀ n ∈ nearestTypeNames c gid name, n ∈ typeNames c gid ∧
        ∃ k ≤ cutoff (toAsciiLowercase name), Edits k (toAsciiLowercase n) (toAsciiLowercase name)) ∧
      ∀ n ∈ typeNames c gid,
        (∃ k ≤ cutoff (toAsciiLowercase name), Edits k (toAsciiLowercase n) (toAsciiLowercase name)) →
        n ∉ nearestTypeNames c gid name → (nearestTypeNames c gid name).length = 3 ∧
          ∀ m ∈ nearestTypeNames c gid name, ∀ k, Edits k (toAsciiLowercase n) (toAsciiLowercase name) →
            ∃ j ≤ k, Edits j (toAsciiLowercase m) (toAsciiLowercase name) := by
  set target := toAsciiLowercase name with htarget
  set near := (scored c gid target).filter fun x => x.1 ≤ cutoff target with hnear
  have hnames : nearestTypeNames c gid name = (near.take 3).map (·.2) := rfl
  have hmem (x : Nat × String) : x ∈ near ↔ (x.2 ∈ typeNames c gid ∧
      x.1 = editDistance (toAsciiLowercase x.2) target) ∧ x.1 ≤ cutoff target := by
    rw [hnear, List.mem_filter, mem_scored, decide_eq_true_eq]
  have hsorted : near.Pairwise before := (List.pairwise_insertionSort before _).filter _
  rw [hnames]
  refine ⟨?_, fun n hn => ?_, fun n hn hclose hout => ?_⟩
  · rw [List.length_map, List.length_take]
    exact min_le_left _ _
  · obtain ⟨x, hx, rfl⟩ := List.mem_map.mp hn
    obtain ⟨⟨hname, hd⟩, hle⟩ := (hmem x).mp (List.mem_of_mem_take hx)
    rw [hd] at hle
    exact ⟨hname, editDistance_le_iff.mp hle⟩
  · have hx : (editDistance (toAsciiLowercase n) target, n) ∈ near :=
      (hmem _).mpr ⟨⟨hn, rfl⟩, editDistance_le_iff.mpr hclose⟩
    have hdrop : (editDistance (toAsciiLowercase n) target, n) ∈ near.drop 3 := by
      rw [← List.take_append_drop 3 near] at hx
      refine (List.mem_append.mp hx).resolve_left fun htake => hout ?_
      exact List.mem_map.mpr ⟨_, htake, rfl⟩
    have hlength : 3 < near.length := by
      by_contra hle
      rw [List.drop_eq_nil_of_le (by omega)] at hdrop
      exact List.not_mem_nil hdrop
    refine ⟨?_, fun m hm k hk => ?_⟩
    · rw [List.length_map, List.length_take]
      omega
    · obtain ⟨y, hy, rfl⟩ := List.mem_map.mp hm
      have hbefore : before y (editDistance (toAsciiLowercase n) target, n) := by
        rw [← List.take_append_drop 3 near] at hsorted
        exact (List.pairwise_append.mp hsorted).2.2 y hy _ hdrop
      obtain ⟨⟨-, hd⟩, -⟩ := (hmem y).mp (List.mem_of_mem_take hy)
      have hle : y.1 ≤ editDistance (toAsciiLowercase n) target := by
        rcases hbefore with h | ⟨h, -⟩
        · exact h.le
        · exact h.le
      rw [hd] at hle
      exact editDistance_le_iff.mp (hle.trans (editDistance_le_iff.mpr ⟨k, le_rfl, hk⟩))

end Suggestions

end OntologicalDb.NearestNames
