import Mathlib.Data.List.Nodup
import Mathlib.Data.List.Perm.Basic

/-!
Tables as lists of rows under a key.  An update that touches the row of one key
replaces that row in place; the lemmas say what becomes of the rows themselves
and of a listing computed row by row.
-/

namespace OntologicalDb.KeyedRows

universe u v w

variable {α : Type u} {κ : Type v} {β : Type w}

/-- `UPDATE … SET f WHERE p`. -/
def update (p : α → Prop) [DecidablePred p] (f : α → α) (rows : List α) : List α :=
  rows.map fun a => if p a then f a else a

variable {p : α → Prop} [DecidablePred p] {f : α → α} {rows : List α}

theorem update_of_forall_not (h : ∀ a ∈ rows, ¬ p a) : update p f rows = rows := by
  unfold update
  conv_rhs => rw [← List.map_id rows]
  exact List.map_congr_left fun a ha => if_neg (h a ha)

/-- An update whose condition selects one key changes one row in place. -/
theorem exists_update_eq (key : α → κ) (hkeys : (rows.map key).Nodup) {a : α}
    (ha : a ∈ rows) (hp : p a) (honly : ∀ b ∈ rows, p b → key b = key a) :
    ∃ xs ys, rows = xs ++ a :: ys ∧ update p f rows = xs ++ f a :: ys := by
  obtain ⟨xs, ys, rfl⟩ := List.append_of_mem ha
  rw [List.map_append, List.map_cons, List.nodup_middle, List.nodup_cons] at hkeys
  have hnot : ∀ b, b ∈ xs ∨ b ∈ ys → ¬ p b := by
    intro b hb hpb
    refine hkeys.1 ?_
    rw [← honly b (by rcases hb with hb | hb <;> simp [hb]) hpb]
    rcases hb with hb | hb
    · exact List.mem_append_left _ (List.mem_map_of_mem hb)
    · exact List.mem_append_right _ (List.mem_map_of_mem hb)
  refine ⟨xs, ys, rfl, ?_⟩
  have hxs := update_of_forall_not (f := f) fun b hb => hnot b (.inl hb)
  have hys := update_of_forall_not (f := f) fun b hb => hnot b (.inr hb)
  simp only [update] at hxs hys ⊢
  rw [List.map_append, List.map_cons, hxs, hys, if_pos hp]

/-- The row of a key and the rows of the other keys are the whole table. -/
theorem perm_cons_filter [DecidableEq κ] (key : α → κ) (hkeys : (rows.map key).Nodup) {a : α}
    (ha : a ∈ rows) : rows.Perm (a :: rows.filter fun b => key b ≠ key a) := by
  obtain ⟨xs, ys, rfl⟩ := List.append_of_mem ha
  rw [List.map_append, List.map_cons, List.nodup_middle, List.nodup_cons] at hkeys
  have hkeep : ∀ b ∈ xs ++ ys, key b ≠ key a := by
    intro b hb heq
    rw [← List.map_append] at hkeys
    exact hkeys.1 (heq ▸ List.mem_map_of_mem hb)
  have hothers : (xs ++ a :: ys).filter (fun b => key b ≠ key a) = xs ++ ys := by
    rw [List.filter_append, List.filter_cons_of_neg (by simp), ← List.filter_append]
    exact List.filter_eq_self.mpr fun b hb => decide_eq_true (hkeep b hb)
  rw [hothers]
  exact List.perm_middle

/-- A deletion by key takes one row, or none. -/
theorem length_filter_key [DecidableEq κ] (key : α → κ) (hkeys : (rows.map key).Nodup) (k : κ) :
    (rows.filter fun b => key b ≠ k).length + (if k ∈ rows.map key then 1 else 0) =
      rows.length := by
  by_cases hk : k ∈ rows.map key
  · obtain ⟨a, ha, rfl⟩ := List.mem_map.mp hk
    rw [if_pos hk, (perm_cons_filter key hkeys ha).length_eq, List.length_cons]
  · have hall : (rows.filter fun b => key b ≠ k) = rows := by
      refine List.filter_eq_self.mpr fun b hb => decide_eq_true fun heq => hk ?_
      exact heq ▸ List.mem_map_of_mem hb
    rw [if_neg hk, hall, Nat.add_zero]

/-- The listing of a table after one row changed. -/
theorem flatMap_replace_perm {xs ys : List α} {a b : α} (g : α → List β) (new : List β)
    (h : (g b).Perm (new ++ g a)) :
    ((xs ++ b :: ys).flatMap g).Perm (new ++ (xs ++ a :: ys).flatMap g) := by
  simp only [List.flatMap_append, List.flatMap_cons]
  calc
    _ = xs.flatMap g ++ (g b ++ ys.flatMap g) := rfl
    _ |>.Perm (xs.flatMap g ++ ((new ++ g a) ++ ys.flatMap g)) :=
      (h.append_right _).append_left _
    _ = xs.flatMap g ++ (new ++ (g a ++ ys.flatMap g)) := by rw [List.append_assoc]
    _ |>.Perm (new ++ (xs.flatMap g ++ (g a ++ ys.flatMap g))) :=
      List.perm_append_comm_assoc _ _ _

/-- Deleting rows that list nothing leaves the listing as it was. -/
theorem flatMap_filter_eq {q : α → Bool} (g : α → List β)
    (h : ∀ a ∈ rows, q a = false → g a = []) :
    (rows.filter q).flatMap g = rows.flatMap g := by
  induction rows with
  | nil => rfl
  | cons a rows ih =>
      have ih := ih fun b hb => h b (List.mem_cons_of_mem _ hb)
      cases hq : q a with
      | true => simp [hq, ih]
      | false => simp [hq, ih, h a List.mem_cons_self hq]

/-- When a table lists one item, one row lists it and the others list nothing. -/
theorem exists_of_flatMap_eq_singleton {g : α → List β} {b : β}
    (h : rows.flatMap g = [b]) :
    ∃ xs a ys, rows = xs ++ a :: ys ∧ g a = [b] ∧ ∀ c, c ∈ xs ∨ c ∈ ys → g c = [] := by
  induction rows with
  | nil => simp at h
  | cons a rows ih =>
      rw [List.flatMap_cons] at h
      rcases List.append_eq_singleton_iff.mp h with ⟨ha, hrest⟩ | ⟨ha, hrest⟩
      · obtain ⟨xs, c, ys, rfl, hc, hothers⟩ := ih hrest
        refine ⟨a :: xs, c, ys, rfl, hc, ?_⟩
        rintro d (hd | hd)
        · rcases List.mem_cons.mp hd with rfl | hd
          · exact ha
          · exact hothers d (.inl hd)
        · exact hothers d (.inr hd)
      · refine ⟨[], a, rows, rfl, ha, ?_⟩
        rintro d (hd | hd)
        · simp at hd
        · exact List.flatMap_eq_nil_iff.mp hrest d hd

end OntologicalDb.KeyedRows
