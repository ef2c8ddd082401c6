/-!
Loops over keys. Where each step reads and writes only what belongs to its key, the loop
does to every key what its step does, and nothing to the others; where the steps only
add, what each puts there is there in the end.
-/

namespace OntologicalDb.KeyedLoops

universe u v w

variable {S : Type u} {ι : Type v} {V : Type w} {P : S → Prop} {f : S → ι → S} {view : S → ι → V}
  {g : ι → V → V}

/-- A step for one key acts on the view of its key alone, as `g` says. `P` is what the
steps rely on and keep, such as the parts of the state they only read. -/
structure Local (P : S → Prop) (f : S → ι → S) (view : S → ι → V) (g : ι → V → V) : Prop where
  keeps : ∀ s i, P s → P (f s i)
  own : ∀ s i, P s → view (f s i) i = g i (view s i)
  other : ∀ s i j, i ≠ j → view (f s i) j = view s j

theorem Local.foldl_view [DecidableEq ι] (h : Local P f view g) {s : S} (hs : P s) {is : List ι}
    (hnodup : is.Nodup) (j : ι) :
    view (is.foldl f s) j = if j ∈ is then g j (view s j) else view s j := by
  induction is generalizing s with
  | nil => simp
  | cons i is ih =>
      obtain ⟨hi, hnodup⟩ := List.nodup_cons.mp hnodup
      rw [List.foldl_cons, ih (h.keeps s i hs) hnodup]
      by_cases hj : j = i
      · subst hj
        rw [if_neg hi, if_pos (List.mem_cons_self ..), h.own s j hs]
      · rw [h.other s i j (Ne.symm hj)]
        simp [hj]

/-- The steps only go up, and each leaves at its key what stays true further up. -/
theorem foldl_reaches {R : S → S → Prop} {Q : ι → S → Prop} (hrefl : ∀ s, R s s)
    (htrans : ∀ {s₁ s₂ s₃}, R s₁ s₂ → R s₂ s₃ → R s₁ s₃) (hf : ∀ s i, R s (f s i))
    (hown : ∀ s i, Q i (f s i)) (hup : ∀ {i s s'}, R s s' → Q i s → Q i s') (s : S) (is : List ι) :
    R s (is.foldl f s) ∧ ∀ i ∈ is, Q i (is.foldl f s) := by
  induction is generalizing s with
  | nil => exact ⟨hrefl s, fun i hi => by cases hi⟩
  | cons i is ih =>
      obtain ⟨hrest, hlater⟩ := ih (f s i)
      refine ⟨htrans (hf s i) hrest, fun j hj => ?_⟩
      rcases List.mem_cons.mp hj with rfl | hj
      · exact hup hrest (hown s j)
      · exact hlater j hj

end OntologicalDb.KeyedLoops
