import Mathlib.Logic.Relation

/-!
Nested interval labels of an acyclic graph.  A depth-first walk gives a node
one interval for every path that leads to it; the interval of a node contains
the intervals assigned below it, and intervals assigned side by side are
disjoint.
-/

namespace OntologicalDb.IntervalNesting

universe u

variable {V : Type u}

/-- One interval of one node. -/
structure Span (V : Type u) where
  node : V
  lft : Int
  rgt : Int

/-- The right interval lies inside the left one. -/
def Contains (a d : Span V) : Prop :=
  a.lft ≤ d.lft ∧ d.rgt ≤ a.rgt

/-- The intervals share no position. -/
def Apart (a d : Span V) : Prop :=
  a.rgt < d.lft ∨ d.rgt < a.lft

/-- The intervals assigned between two positions by complete visits. -/
structure Nested (child : V → V → Prop) (low high : Int)
    (xs : List (Span V)) : Prop where
  low_le_high : low ≤ high
  bounds : ∀ x ∈ xs, low ≤ x.lft ∧ x.lft < x.rgt ∧ x.rgt < high
  sound : ∀ a ∈ xs, ∀ d ∈ xs, Contains a d →
    Relation.ReflTransGen child a.node d.node
  complete : ∀ a ∈ xs, ∀ v, child a.node v → ∃ d ∈ xs, d.node = v ∧ Contains a d
  laminar : ∀ a ∈ xs, ∀ d ∈ xs, Contains a d ∨ Contains d a ∨ Apart a d

variable {child : V → V → Prop} {low mid high : Int} {xs ys : List (Span V)}

theorem Nested.nil (h : low ≤ high) : Nested child low high [] where
  low_le_high := h
  bounds := by simp
  sound := by simp
  complete := by simp
  laminar := by simp

/-- Visits made one after the other. -/
theorem Nested.append (hx : Nested child low mid xs) (hy : Nested child mid high ys) :
    Nested child low high (xs ++ ys) where
  low_le_high := Int.le_trans hx.low_le_high hy.low_le_high
  bounds := by
    intro z hz
    have hlow := hx.low_le_high
    have hhigh := hy.low_le_high
    rcases List.mem_append.mp hz with hz | hz
    · have := hx.bounds z hz
      omega
    · have := hy.bounds z hz
      omega
  sound := by
    intro a ha d hd hcontains
    rcases List.mem_append.mp ha with ha | ha <;>
      rcases List.mem_append.mp hd with hd | hd
    · exact hx.sound a ha d hd hcontains
    · have ha' := hx.bounds a ha
      have hd' := hy.bounds d hd
      have := hcontains.2
      omega
    · have ha' := hy.bounds a ha
      have hd' := hx.bounds d hd
      have := hcontains.1
      omega
    · exact hy.sound a ha d hd hcontains
  complete := by
    intro a ha v hv
    rcases List.mem_append.mp ha with ha | ha
    · obtain ⟨d, hd, hnode⟩ := hx.complete a ha v hv
      exact ⟨d, List.mem_append_left _ hd, hnode⟩
    · obtain ⟨d, hd, hnode⟩ := hy.complete a ha v hv
      exact ⟨d, List.mem_append_right _ hd, hnode⟩
  laminar := by
    intro a ha d hd
    rcases List.mem_append.mp ha with ha | ha <;>
      rcases List.mem_append.mp hd with hd | hd
    · exact hx.laminar a ha d hd
    · have ha' := hx.bounds a ha
      have hd' := hy.bounds d hd
      exact .inr (.inr (.inl (by omega)))
    · have ha' := hy.bounds a ha
      have hd' := hx.bounds d hd
      exact .inr (.inr (.inr (by omega)))
    · exact hy.laminar a ha d hd

/-- The visit of a node around the visits of all its children. -/
theorem Nested.wrap {v : V} {rgt : Int} (hx : Nested child mid rgt xs)
    (hlow : low < mid) (hhigh : rgt < high)
    (hreach : ∀ x ∈ xs, Relation.ReflTransGen child v x.node)
    (hchildren : ∀ w, child v w → ∃ x ∈ xs, x.node = w) :
    Nested child low high (xs ++ [⟨v, low, rgt⟩]) where
  low_le_high := by
    have := hx.low_le_high
    omega
  bounds := by
    intro z hz
    have hle := hx.low_le_high
    rcases List.mem_append.mp hz with hz | hz
    · have := hx.bounds z hz
      omega
    · obtain rfl := List.mem_singleton.mp hz
      dsimp only
      omega
  sound := by
    intro a ha d hd hcontains
    rcases List.mem_append.mp ha with ha | ha <;>
      rcases List.mem_append.mp hd with hd | hd
    · exact hx.sound a ha d hd hcontains
    · obtain rfl := List.mem_singleton.mp hd
      have ha' := hx.bounds a ha
      have := hcontains.1
      dsimp only at this
      omega
    · obtain rfl := List.mem_singleton.mp ha
      exact hreach d hd
    · obtain rfl := List.mem_singleton.mp ha
      obtain rfl := List.mem_singleton.mp hd
      exact .refl
  complete := by
    intro a ha w hw
    rcases List.mem_append.mp ha with ha | ha
    · obtain ⟨d, hd, hnode⟩ := hx.complete a ha w hw
      exact ⟨d, List.mem_append_left _ hd, hnode⟩
    · obtain rfl := List.mem_singleton.mp ha
      obtain ⟨d, hd, hnode⟩ := hchildren w hw
      have := hx.bounds d hd
      refine ⟨d, List.mem_append_left _ hd, hnode, ?_⟩
      simp only [Contains]
      omega
  laminar := by
    have hinside : ∀ x ∈ xs, Contains ⟨v, low, rgt⟩ x := by
      intro x hmem
      have := hx.bounds x hmem
      simp only [Contains]
      omega
    intro a ha d hd
    rcases List.mem_append.mp ha with ha | ha <;>
      rcases List.mem_append.mp hd with hd | hd
    · exact hx.laminar a ha d hd
    · obtain rfl := List.mem_singleton.mp hd
      exact .inr (.inl (hinside a ha))
    · obtain rfl := List.mem_singleton.mp ha
      exact .inl (hinside d hd)
    · obtain rfl := List.mem_singleton.mp ha
      obtain rfl := List.mem_singleton.mp hd
      exact .inl ⟨Int.le_refl _, Int.le_refl _⟩

theorem Nested.exists_contained (hx : Nested child low high xs) {a : Span V}
    (ha : a ∈ xs) {v : V} (hv : Relation.ReflTransGen child a.node v) :
    ∃ d ∈ xs, d.node = v ∧ Contains a d := by
  induction hv with
  | refl => exact ⟨a, ha, rfl, Int.le_refl _, Int.le_refl _⟩
  | tail _ hchild ih =>
      obtain ⟨d, hd, rfl, hda⟩ := ih
      obtain ⟨e, he, hnode, hed⟩ := hx.complete d hd _ hchild
      exact ⟨e, he, hnode, Int.le_trans hda.1 hed.1, Int.le_trans hed.2 hda.2⟩

/-- Containment of intervals decides reachability below a labelled node. -/
theorem Nested.contains_iff_reaches (hx : Nested child low high xs) {v w : V}
    (hv : ∃ a ∈ xs, a.node = v) :
    (∃ a ∈ xs, ∃ d ∈ xs, a.node = v ∧ d.node = w ∧ Contains a d) ↔
      Relation.ReflTransGen child v w := by
  constructor
  · rintro ⟨a, ha, d, hd, rfl, rfl, hcontains⟩
    exact hx.sound a ha d hd hcontains
  · intro hreach
    obtain ⟨a, ha, rfl⟩ := hv
    obtain ⟨d, hd, hnode, hcontains⟩ := hx.exists_contained ha hreach
    exact ⟨a, ha, d, hd, rfl, hnode, hcontains⟩

end OntologicalDb.IntervalNesting
