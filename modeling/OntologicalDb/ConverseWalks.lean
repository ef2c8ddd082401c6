import Mathlib.Data.Finset.Card
import OntologicalDb.EdgeTrails

/-!
Walks against the arcs.  A shortest walk is met by the two searches that start at
its ends: cut at any place, its parts are shortest walks from either end.
-/

namespace OntologicalDb.ConverseWalks

open OntologicalDb.EdgeTrails

universe u v

variable {V : Type u} {E : Type v}

/-- The arcs traversed the other way. -/
def Converse (arc : V → E → V → Prop) (v : V) (e : E) (w : V) : Prop := arc w e v

variable {arc : V → E → V → Prop} {a b m : V} {d j k : Nat}

theorem walk_converse_iff {es : List E} :
    Walk (Converse arc) b es a ↔ Walk arc a es.reverse b := by
  induction es using List.reverseRecOn generalizing a with
  | nil =>
      rw [List.reverse_nil, walk_nil_iff, walk_nil_iff]
      exact eq_comm
  | append_singleton es e ih =>
      rw [walk_concat_iff, List.reverse_append, List.reverse_singleton, List.singleton_append,
        walk_cons_iff]
      constructor
      · rintro ⟨c, hwalk, harc⟩
        exact ⟨c, harc, ih.mp hwalk⟩
      · rintro ⟨c, harc, hwalk⟩
        exact ⟨c, ih.mpr hwalk, harc⟩

theorem within_converse_iff : Within (Converse arc) b d a ↔ Within arc a d b := by
  constructor
  · rintro ⟨es, hwalk, hlength⟩
    exact ⟨es.reverse, walk_converse_iff.mp hwalk, by simpa using hlength⟩
  · rintro ⟨es, hwalk, hlength⟩
    refine ⟨es.reverse, walk_converse_iff.mpr ?_, by simpa using hlength⟩
    rwa [List.reverse_reverse]

theorem atDistance_converse_iff :
    AtDistance (Converse arc) b d a ↔ AtDistance arc a d b := by
  simp only [AtDistance, within_converse_iff]

/-- A node both searches have reached lies on a walk between their starts. -/
theorem within_of_meeting (ha : Within arc a j m) (hb : Within (Converse arc) b k m) :
    Within arc a (j + k) b := by
  rcases ha with ⟨es, hes, hj⟩
  rcases within_converse_iff.mp hb with ⟨fs, hfs, hk⟩
  refine ⟨es ++ fs, walk_append_iff.mpr ⟨m, hes, hfs⟩, ?_⟩
  rw [List.length_append]
  omega

theorem AtDistance.unique (hj : AtDistance arc a j b) (hk : AtDistance arc a k b) : j = k := by
  rcases Nat.lt_trichotomy j k with hlt | heq | hlt
  · exact absurd hj.1 (hk.2 j hlt)
  · exact heq
  · exact absurd hk.1 (hj.2 k hlt)

theorem exists_atDistance (h : Within arc a d b) : ∃ k ≤ d, AtDistance arc a k b := by
  classical
  have hex : ∃ k, Within arc a k b := ⟨d, h⟩
  exact ⟨Nat.find hex, Nat.find_min' hex h, Nat.find_spec hex, fun k => Nat.find_min hex⟩

/-- Cut anywhere, a shortest walk is a shortest walk from either end. -/
theorem exists_meeting (h : AtDistance arc a (j + k) b) :
    ∃ m, AtDistance arc a j m ∧ AtDistance (Converse arc) b k m := by
  rcases h with ⟨⟨es, hwalk, hlength⟩, hleast⟩
  have hsplit : es.take j ++ es.drop j = es := List.take_append_drop j es
  rw [← hsplit] at hwalk
  rcases walk_append_iff.mp hwalk with ⟨m, hfirst, hrest⟩
  have hj : Within arc a j m := ⟨es.take j, hfirst, List.length_take_le _ _⟩
  have hk : Within (Converse arc) b k m := by
    refine within_converse_iff.mpr ⟨es.drop j, hrest, ?_⟩
    rw [List.length_drop]
    omega
  refine ⟨m, ⟨hj, fun i hi hm => ?_⟩, ⟨hk, fun i hi hm => ?_⟩⟩
  · exact hleast (i + k) (by omega) (within_of_meeting hm hk)
  · exact hleast (j + i) (by omega) (within_of_meeting hj hm)

/-- Among `N` nodes a shortest walk has fewer than `N` arcs. -/
theorem AtDistance.lt_of_bounded {arc : Nat → E → Nat → Prop} {a b N : Nat} (ha : a < N)
    (harc : ∀ v e w, arc v e w → w < N) (h : AtDistance arc a d b) : d < N := by
  have hlt : ∀ {i w}, AtDistance arc a i w → w < N := by
    rintro i w ⟨⟨es, hwalk, -⟩, -⟩
    cases hwalk with
    | nil => exact ha
    | snoc _ hstep => exact harc _ _ _ hstep
  have hex : ∀ i, ∃ w, i ≤ d → AtDistance arc a i w := by
    intro i
    rcases Nat.lt_or_ge d i with hdi | hid
    · exact ⟨a, fun hle => absurd hle (by omega)⟩
    · rcases exists_meeting (j := i) (k := d - i) (by rwa [Nat.add_sub_cancel' hid]) with
        ⟨w, hw, -⟩
      exact ⟨w, fun _ => hw⟩
  choose f hf using hex
  have hcard := Finset.card_le_card_of_injOn (s := Finset.range (d + 1)) (t := Finset.range N) f
    (fun i hi => by
      have hi := Finset.mem_range.mp (Finset.mem_coe.mp hi)
      exact Finset.mem_coe.mpr (Finset.mem_range.mpr (hlt (hf i (by omega)))))
    (fun i hi i' hi' heq => by
      have hi := Finset.mem_range.mp (Finset.mem_coe.mp hi)
      have hi' := Finset.mem_range.mp (Finset.mem_coe.mp hi')
      have hw := hf i (by omega)
      rw [heq] at hw
      exact AtDistance.unique hw (hf i' (by omega)))
  rw [Finset.card_range, Finset.card_range] at hcard
  omega

end OntologicalDb.ConverseWalks
