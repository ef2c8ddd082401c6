import Mathlib.Data.List.Duplicate
import Mathlib.Data.List.Induction
import Mathlib.Order.Bounds.Defs
import Mathlib.Order.Nat

/-!
Walks and trails of a multigraph whose arcs carry edge names.  A walk lists the
edges it traverses in order; a trail is a walk that repeats none of them.  The
results compare the two by endpoints and length.
-/

namespace OntologicalDb.EdgeTrails

universe u v

variable {V : Type u} {E : Type v}

/-- A walk from a node, extended at its far end one arc at a time. -/
inductive Walk (arc : V → E → V → Prop) (a : V) : List E → V → Prop
  | nil : Walk arc a [] a
  | snoc {es : List E} {b c : V} {e : E} :
      Walk arc a es b → arc b e c → Walk arc a (es ++ [e]) c

/-- A walk that traverses no edge twice. -/
def Trail (arc : V → E → V → Prop) (a : V) (es : List E) (b : V) : Prop :=
  Walk arc a es b ∧ es.Nodup

/-- Every edge name stands for one pair of end nodes, in either order. -/
def EdgeEnds (arc : V → E → V → Prop) : Prop :=
  ∀ ⦃v e w v' w'⦄, arc v e w → arc v' e w' →
    (v' = v ∧ w' = w) ∨ (v' = w ∧ w' = v)

/-- Every edge name stands for one arc. -/
def Oriented (arc : V → E → V → Prop) : Prop :=
  ∀ ⦃v e w v' w'⦄, arc v e w → arc v' e w' → v' = v ∧ w' = w

section Walks

variable {arc : V → E → V → Prop} {a b c : V}

theorem Oriented.edgeEnds (h : Oriented arc) : EdgeEnds arc :=
  fun _ _ _ _ _ hvw hvw' => .inl (h hvw hvw')

@[simp] theorem walk_nil_iff : Walk arc a [] b ↔ b = a := by
  constructor
  · intro h
    generalize hes : ([] : List E) = es at h
    cases h with
    | nil => rfl
    | snoc _ _ => simp at hes
  · rintro rfl
    exact .nil

theorem walk_concat_iff {es : List E} {e : E} :
    Walk arc a (es ++ [e]) c ↔ ∃ b, Walk arc a es b ∧ arc b e c := by
  constructor
  · intro h
    generalize hfs : es ++ [e] = fs at h
    cases h with
    | nil => simp at hfs
    | snoc hwalk harc =>
        obtain ⟨rfl, hlast⟩ := List.append_inj' hfs rfl
        obtain rfl : e = _ := by simpa using hlast
        exact ⟨_, hwalk, harc⟩
  · rintro ⟨b, hwalk, harc⟩
    exact .snoc hwalk harc

@[simp] theorem walk_singleton_iff {e : E} : Walk arc a [e] b ↔ arc a e b := by
  have h : Walk arc a ([] ++ [e]) b ↔ ∃ c, Walk arc a [] c ∧ arc c e b := walk_concat_iff
  simpa using h

theorem walk_append_iff {es fs : List E} :
    Walk arc a (es ++ fs) c ↔ ∃ b, Walk arc a es b ∧ Walk arc b fs c := by
  induction fs using List.reverseRecOn generalizing c with
  | nil => simp
  | append_singleton fs e ih =>
      rw [← List.append_assoc, walk_concat_iff]
      simp only [ih, walk_concat_iff]
      constructor
      · rintro ⟨d, ⟨b, hab, hbd⟩, harc⟩
        exact ⟨b, hab, d, hbd, harc⟩
      · rintro ⟨b, hab, d, hbd, harc⟩
        exact ⟨d, ⟨b, hab, hbd⟩, harc⟩

theorem walk_cons_iff {e : E} {es : List E} :
    Walk arc a (e :: es) c ↔ ∃ b, arc a e b ∧ Walk arc b es c := by
  rw [← List.singleton_append, walk_append_iff]
  simp

/-- A walk that repeats an edge has a shorter walk between the same end nodes;
when the edge is crossed in the same direction the shorter walk still crosses it. -/
theorem exists_shorter_walk (hends : EdgeEnds arc) {es : List E}
    (hwalk : Walk arc a es b) (hdup : ¬ es.Nodup) :
    ∃ fs, Walk arc a fs b ∧ fs.length < es.length ∧ (Oriented arc → fs ≠ []) := by
  obtain ⟨e, hsub⟩ := List.exists_duplicate_iff_not_nodup.mpr hdup
  obtain ⟨xs, rest, hes, hrest⟩ :
      ∃ xs rest, es = xs ++ e :: rest ∧ e ∈ rest := by
    rw [List.duplicate_iff_sublist] at hsub
    obtain ⟨xs, rest, rfl, hx, hr⟩ := List.cons_sublist_iff.mp hsub
    obtain ⟨ys, zs, rfl⟩ := List.append_of_mem hx
    exact ⟨ys, zs ++ rest, by simp, by simp [List.singleton_sublist.mp hr]⟩
  obtain ⟨ys, zs, rfl⟩ := List.append_of_mem hrest
  subst hes
  obtain ⟨p, hxs, hp⟩ := walk_append_iff.mp hwalk
  obtain ⟨q, hpq, hq⟩ := walk_cons_iff.mp hp
  obtain ⟨r, hys, hr⟩ := walk_append_iff.mp hq
  obtain ⟨t, hrt, hzs⟩ := walk_cons_iff.mp hr
  by_cases hsame : r = p ∧ t = q
  · obtain ⟨rfl, rfl⟩ := hsame
    refine ⟨xs ++ e :: zs, ?_, by simp only [List.length_append, List.length_cons]; omega, by simp⟩
    exact walk_append_iff.mpr ⟨_, hxs, walk_cons_iff.mpr ⟨_, hpq, hzs⟩⟩
  · obtain ⟨rfl, rfl⟩ := (hends hpq hrt).resolve_left hsame
    exact ⟨xs ++ zs, walk_append_iff.mpr ⟨_, hxs, hzs⟩,
      by simp only [List.length_append, List.length_cons]; omega,
      fun horiented => absurd (horiented hpq hrt) hsame⟩

/-- Every walk has a trail between its end nodes that is no longer. -/
theorem exists_trail_of_walk (hends : EdgeEnds arc) {es : List E}
    (hwalk : Walk arc a es b) :
    ∃ fs, Trail arc a fs b ∧ fs.length ≤ es.length := by
  induction hlen : es.length using Nat.strongRecOn generalizing es with
  | _ n ih =>
      by_cases hnodup : es.Nodup
      · exact ⟨es, ⟨hwalk, hnodup⟩, hlen.le⟩
      · obtain ⟨fs, hfs, hlt, -⟩ := exists_shorter_walk hends hwalk hnodup
        obtain ⟨gs, hgs, hle⟩ := ih fs.length (hlen ▸ hlt) hfs rfl
        exact ⟨gs, hgs, by omega⟩

/-- Oriented edges keep a non-empty walk non-empty, closed walks included. -/
theorem exists_nonempty_trail_of_walk (horiented : Oriented arc) {es : List E}
    (hwalk : Walk arc a es b) (hne : es ≠ []) :
    ∃ fs, Trail arc a fs b ∧ fs ≠ [] ∧ fs.length ≤ es.length := by
  induction hlen : es.length using Nat.strongRecOn generalizing es with
  | _ n ih =>
      by_cases hnodup : es.Nodup
      · exact ⟨es, ⟨hwalk, hnodup⟩, hne, hlen.le⟩
      · obtain ⟨fs, hfs, hlt, hfsne⟩ :=
          exists_shorter_walk horiented.edgeEnds hwalk hnodup
        obtain ⟨gs, hgs, hgsne, hle⟩ :=
          ih fs.length (hlen ▸ hlt) hfs (hfsne horiented) rfl
        exact ⟨gs, hgs, hgsne, by omega⟩

/-- Between different nodes a walk and a trail exist under the same bounds. -/
theorem exists_walk_iff_exists_trail (hends : EdgeEnds arc) {low high : Nat}
    (hlow : low ≤ 1) (hne : low = 0 ∨ b ≠ a ∨ Oriented arc) :
    (∃ es, Walk arc a es b ∧ low ≤ es.length ∧ es.length ≤ high) ↔
      ∃ es, Trail arc a es b ∧ low ≤ es.length ∧ es.length ≤ high := by
  constructor
  · rintro ⟨es, hwalk, hles, hhigh⟩
    rcases Nat.eq_zero_or_pos low with rfl | hpos
    · obtain ⟨fs, hfs, hle⟩ := exists_trail_of_walk hends hwalk
      exact ⟨fs, hfs, Nat.zero_le _, hle.trans hhigh⟩
    have hesne : es ≠ [] := by
      rintro rfl
      simp at hles
      omega
    suffices h : ∃ fs, Trail arc a fs b ∧ fs ≠ [] ∧ fs.length ≤ es.length by
      obtain ⟨fs, hfs, hfsne, hle⟩ := h
      have := List.length_pos_iff.mpr hfsne
      exact ⟨fs, hfs, by omega, hle.trans hhigh⟩
    rcases hne with rfl | hba | horiented
    · simp at hpos
    · obtain ⟨fs, hfs, hle⟩ := exists_trail_of_walk hends hwalk
      refine ⟨fs, hfs, ?_, hle⟩
      rintro rfl
      exact hba (walk_nil_iff.mp hfs.1)
    · exact exists_nonempty_trail_of_walk horiented hwalk hesne
  · rintro ⟨es, htrail, hles, hhigh⟩
    exact ⟨es, htrail.1, hles, hhigh⟩

end Walks

section Distance

variable (arc : V → E → V → Prop) (a : V)

/-- Some walk of at most `d` arcs leads to the node. -/
def Within (d : Nat) (b : V) : Prop := ∃ es, Walk arc a es b ∧ es.length ≤ d

/-- The shortest walk to the node has `d` arcs. -/
def AtDistance (d : Nat) (b : V) : Prop :=
  Within arc a d b ∧ ∀ k < d, ¬ Within arc a k b

variable {arc a} {b : V} {d : Nat}

@[simp] theorem within_zero_iff : Within arc a 0 b ↔ b = a := by
  constructor
  · rintro ⟨es, hwalk, hlength⟩
    obtain rfl := List.length_eq_zero_iff.mp (Nat.le_zero.mp hlength)
    exact walk_nil_iff.mp hwalk
  · rintro rfl
    exact ⟨[], .nil, le_refl _⟩

theorem Within.mono {k : Nat} (h : Within arc a d b) (hk : d ≤ k) : Within arc a k b := by
  obtain ⟨es, hwalk, hlength⟩ := h
  exact ⟨es, hwalk, hlength.trans hk⟩

theorem Within.snoc {c : V} {e : E} (h : Within arc a d b) (he : arc b e c) :
    Within arc a (d + 1) c := by
  obtain ⟨es, hwalk, hlength⟩ := h
  exact ⟨es ++ [e], .snoc hwalk he, by simpa using hlength⟩

theorem atDistance_zero_iff : AtDistance arc a 0 b ↔ b = a := by
  simp [AtDistance]

/-- One more level adds the nodes next to the last one. -/
theorem within_succ_iff :
    Within arc a (d + 1) b ↔ Within arc a d b ∨ ∃ c e, AtDistance arc a d c ∧ arc c e b := by
  constructor
  · rintro ⟨es, hwalk, hlength⟩
    by_cases hb : Within arc a d b
    · exact .inl hb
    obtain rfl | ⟨fs, e, rfl⟩ := List.eq_nil_or_concat' es
    · exact (hb ⟨[], hwalk, Nat.zero_le _⟩).elim
    obtain ⟨c, hfs, he⟩ := walk_concat_iff.mp hwalk
    refine .inr ⟨c, e, ⟨⟨fs, hfs, by simpa using hlength⟩, fun k hk hc => hb ?_⟩, he⟩
    exact (hc.snoc he).mono hk
  · rintro (hb | ⟨c, e, hc, he⟩)
    · exact hb.mono d.le_succ
    · exact hc.1.snoc he

theorem atDistance_succ_iff :
    AtDistance arc a (d + 1) b ↔
      ¬ Within arc a d b ∧ ∃ c e, AtDistance arc a d c ∧ arc c e b := by
  constructor
  · rintro ⟨hb, hfar⟩
    have hnew := hfar d d.lt_succ_self
    exact ⟨hnew, (within_succ_iff.mp hb).resolve_left hnew⟩
  · rintro ⟨hnew, hnext⟩
    exact ⟨within_succ_iff.mpr (.inr hnext), fun k hk hb => hnew (hb.mono (Nat.lt_succ_iff.mp hk))⟩

/-- Some walk within the bounds leads to the node. -/
def Hits (arc : V → E → V → Prop) (a : V) (low d : Nat) (b : V) : Prop :=
  ∃ es, Walk arc a es b ∧ low ≤ es.length ∧ es.length ≤ d

/-- Away from the start, a lower bound of one excludes nothing. -/
theorem hits_iff_within {low : Nat} (hlow : low ≤ 1) (h : low = 0 ∨ b ≠ a) :
    Hits arc a low d b ↔ Within arc a d b := by
  constructor
  · rintro ⟨es, hwalk, -, hlength⟩
    exact ⟨es, hwalk, hlength⟩
  · rintro ⟨es, hwalk, hlength⟩
    refine ⟨es, hwalk, ?_, hlength⟩
    rcases h with rfl | hne
    · exact Nat.zero_le _
    have hes : es ≠ [] := by
      rintro rfl
      exact hne (walk_nil_iff.mp hwalk)
    exact hlow.trans (List.length_pos_iff.mpr hes)

/-- A node is hit one level later when it was hit before or lies next to the
last level. -/
theorem hits_succ_iff {low : Nat} (hlow : low ≤ 1) :
    Hits arc a low (d + 1) b ↔
      Hits arc a low d b ∨ ∃ c e, AtDistance arc a d c ∧ arc c e b := by
  by_cases h : low = 0 ∨ b ≠ a
  · rw [hits_iff_within hlow h, hits_iff_within hlow h, within_succ_iff]
  obtain ⟨hlow0, rfl⟩ : low ≠ 0 ∧ b = a := by simpa [not_or] using h
  constructor
  · rintro ⟨es, hwalk, hles, hlength⟩
    obtain rfl | ⟨fs, e, rfl⟩ := List.eq_nil_or_concat' es
    · simp at hles
      omega
    obtain ⟨c, hfs, he⟩ := walk_concat_iff.mp hwalk
    by_cases hc : AtDistance arc b d c
    · exact .inr ⟨c, e, hc, he⟩
    -- The last node before the return is closer than the level, so a shorter
    -- closed walk exists already.
    obtain ⟨k, hk, gs, hgs, hgslen⟩ : ∃ k < d, Within arc b k c := by
      simpa [AtDistance, show Within arc b d c from ⟨fs, hfs, by simpa using hlength⟩] using hc
    have hlen : (gs ++ [e]).length = gs.length + 1 := by simp
    exact .inl ⟨gs ++ [e], .snoc hgs he, by omega, by omega⟩
  · rintro (⟨es, hwalk, hles, hlength⟩ | ⟨c, e, ⟨⟨es, hwalk, hlength⟩, -⟩, he⟩)
    · exact ⟨es, hwalk, hles, hlength.trans d.le_succ⟩
    · have hlen : (es ++ [e]).length = es.length + 1 := by simp
      exact ⟨es ++ [e], .snoc hwalk he, by omega, by simpa using hlength⟩

/-- The shortest walk of at least `low` arcs to the node has `d` arcs. -/
def FirstHit (arc : V → E → V → Prop) (a : V) (low d : Nat) (b : V) : Prop :=
  Hits arc a low d b ∧ ∀ k < d, ¬ Hits arc a low k b

theorem Hits.mono {low k : Nat} (h : Hits arc a low d b) (hk : d ≤ k) :
    Hits arc a low k b := by
  obtain ⟨es, hwalk, hlow, hlength⟩ := h
  exact ⟨es, hwalk, hlow, hlength.trans hk⟩

theorem hits_iff_exists_firstHit {low : Nat} :
    Hits arc a low d b ↔ ∃ k ≤ d, FirstHit arc a low k b := by
  constructor
  · intro h
    classical
    have hex : ∃ k, Hits arc a low k b := ⟨d, h⟩
    exact ⟨Nat.find hex, Nat.find_min' hex h, Nat.find_spec hex, fun k => Nat.find_min hex⟩
  · rintro ⟨k, hk, hfirst⟩
    exact hfirst.1.mono hk

theorem firstHit_succ_iff {low : Nat} :
    FirstHit arc a low (d + 1) b ↔ Hits arc a low (d + 1) b ∧ ¬ Hits arc a low d b := by
  refine and_congr_right fun _ => ?_
  constructor
  · intro hfirst
    exact hfirst d d.lt_succ_self
  · intro hnew k hk hhit
    exact hnew (hhit.mono (Nat.lt_succ_iff.mp hk))

theorem firstHit_iff_isLeast {low : Nat} :
    FirstHit arc a low d b ↔
      IsLeast {k | low ≤ k ∧ ∃ es, Walk arc a es b ∧ es.length = k} d := by
  constructor
  · rintro ⟨⟨es, hwalk, hlow, hlength⟩, hfirst⟩
    have heq : es.length = d := by
      rcases Nat.lt_or_eq_of_le hlength with hlt | heq
      · exact absurd ⟨es, hwalk, hlow, le_refl _⟩ (hfirst es.length hlt)
      · exact heq
    refine ⟨⟨heq ▸ hlow, es, hwalk, heq⟩, ?_⟩
    rintro k ⟨hk, fs, hfs, rfl⟩
    by_contra hlt
    exact hfirst fs.length (not_le.mp hlt) ⟨fs, hfs, hk, le_refl _⟩
  · rintro ⟨⟨hlow, es, hwalk, heq⟩, hleast⟩
    refine ⟨⟨es, hwalk, heq ▸ hlow, heq.le⟩, ?_⟩
    rintro k hk ⟨fs, hfs, hlow', hlength⟩
    have := hleast ⟨hlow', fs, hfs, rfl⟩
    omega

end Distance

end OntologicalDb.EdgeTrails
