import Mathlib
import OntologicalDb.EdgeTrails
import OntologicalDb.SchemaEvolution

/-!
The recursive queries over the parent links find what a chain of links leads to.
-/

namespace OntologicalDb.AncestorSearch

open OntologicalDb.EdgeTrails
open OntologicalDb.Labeling
open OntologicalDb.SchemaEvolution
open OntologicalDb.TypeCatalog

variable {links es : List (Int × Int)} {a b : Int}

/-- A chain of links leads from one type to the other. -/
def Linked (links : List (Int × Int)) : Int → Int → Prop :=
  Relation.ReflTransGen fun a b => (a, b) ∈ links

/-- Inheritance is a chain of links read upwards. -/
theorem linked_iff {c : Catalog} : Linked c.typeParent a b ↔ IsSubtype c a b :=
  Relation.reflTransGen_swap

/-- A link as an arc that bears the name of its ends. -/
def LinkArc (links : List (Int × Int)) (child : Int) (l : Int × Int) (parent : Int) : Prop :=
  l ∈ links ∧ l = (child, parent)

theorem linkArc_oriented : Oriented (LinkArc links) := by
  rintro v e w v' w' ⟨-, rfl⟩ ⟨-, heq⟩
  exact ⟨(congrArg Prod.fst heq).symm, (congrArg Prod.snd heq).symm⟩

theorem walk_links (h : Walk (LinkArc links) a es b) : es ⊆ links := by
  induction h with
  | nil => exact List.nil_subset _
  | snoc _ harc ih =>
      refine List.append_subset.mpr ⟨ih, fun l hl => ?_⟩
      rw [List.mem_singleton.mp hl]
      exact harc.1

theorem exists_walk_of_linked (h : Linked links a b) : ∃ es, Walk (LinkArc links) a es b := by
  induction h with
  | refl => exact ⟨[], .nil⟩
  | @tail mid last _ hlink ih =>
      obtain ⟨es, hwalk⟩ := ih
      exact ⟨es ++ [(mid, last)], hwalk.snoc ⟨hlink, rfl⟩⟩

/-- Every round of the search goes one link on from what was found. -/
theorem mem_ancestorsOf_of_walk {ids : List Int} {fuel : Nat} (h : Walk (LinkArc links) a es b)
    (ha : a ∈ ids) (hlen : es.length ≤ fuel) : b ∈ ancestorsOf links fuel ids := by
  induction fuel generalizing es ids a with
  | zero =>
      obtain rfl := List.length_eq_zero_iff.mp (Nat.le_zero.mp hlen)
      rw [walk_nil_iff.mp h]
      exact ha
  | succ fuel ih =>
      rw [ancestorsOf]
      cases es with
      | nil => exact ih h (List.mem_dedup.mpr (List.mem_append_left _ ha)) (Nat.zero_le _)
      | cons l es =>
          obtain ⟨mid, ⟨hl, rfl⟩, hrest⟩ := walk_cons_iff.mp h
          refine ih hrest (List.mem_dedup.mpr (List.mem_append_right _ ?_)) (Nat.le_of_succ_le_succ hlen)
          exact List.mem_map.mpr ⟨_, List.mem_filter.mpr ⟨hl, decide_eq_true ha⟩, rfl⟩

theorem exists_linked_of_mem {ids : List Int} {fuel : Nat} (h : b ∈ ancestorsOf links fuel ids) :
    ∃ a ∈ ids, Linked links a b := by
  induction fuel generalizing ids with
  | zero => exact ⟨b, h, .refl⟩
  | succ fuel ih =>
      obtain ⟨mid, hmid, hlinked⟩ := ih h
      rcases List.mem_append.mp (List.mem_dedup.mp hmid) with hmid | hmid
      · exact ⟨mid, hmid, hlinked⟩
      · obtain ⟨l, hl, rfl⟩ := List.mem_map.mp hmid
        obtain ⟨hl, hfrom⟩ := List.mem_filter.mp hl
        exact ⟨l.1, of_decide_eq_true hfrom, hlinked.head hl⟩

/-- As many rounds as there are links are enough: a shortest chain repeats none. -/
theorem mem_ancestorsOf_iff : b ∈ ancestorsOf links links.length [a] ↔ Linked links a b := by
  constructor
  · intro h
    obtain ⟨a', ha', hlinked⟩ := exists_linked_of_mem h
    rwa [List.mem_singleton.mp ha'] at hlinked
  · intro h
    obtain ⟨es, hwalk⟩ := exists_walk_of_linked h
    obtain ⟨fs, ⟨htrail, hnodup⟩, -⟩ := exists_trail_of_walk linkArc_oriented.edgeEnds hwalk
    have hlen : fs.length ≤ links.length :=
      (List.subperm_of_subset hnodup (walk_links htrail)).length_le
    exact mem_ancestorsOf_of_walk htrail (List.mem_singleton_self a) hlen

theorem mem_inheritedProperties_iff {c : Catalog} {p : Property} :
    p ∈ inheritedProperties c a ↔ p ∈ c.properties ∧ IsSubtype c a p.typeId := by
  unfold inheritedProperties
  rw [List.mem_filter, decide_eq_true_eq, mem_ancestorsOf_iff, linked_iff]

end OntologicalDb.AncestorSearch
