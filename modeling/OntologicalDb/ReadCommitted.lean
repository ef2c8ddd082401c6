import Mathlib.Logic.Function.Basic

/-!
Sessions over one database under READ COMMITTED: each sees the committed state
with its own uncommitted changes on top.
-/

namespace OntologicalDb.ReadCommitted

variable {B D α : Type} {π : D → α} {f : D → D} {fs : List (D → D)} {d d' : D}

structure Sessions (B D : Type) where
  committed : D
  changes : B → List (D → D)

def applyAll (fs : List (D → D)) (d : D) : D := fs.foldl (fun d f => f d) d

/-- An observation of the result needs no more than that observation before. -/
def Follows (π : D → α) (f : D → D) : Prop := ∀ d d', π d = π d' → π (f d) = π (f d')

/-- The change is not observed. -/
def Keeps (π : D → α) (f : D → D) : Prop := ∀ d, π (f d) = π d

theorem Keeps.follows (h : Keeps π f) : Follows π f := by
  intro d d' hd
  rw [h, h, hd]

theorem applyAll_append (fs gs : List (D → D)) (d : D) :
    applyAll (fs ++ gs) d = applyAll gs (applyAll fs d) :=
  List.foldl_append

theorem applyAll_keeps (h : ∀ f ∈ fs, Keeps π f) : π (applyAll fs d) = π d := by
  induction fs generalizing d with
  | nil => rfl
  | cons f fs ih =>
      calc
        π (applyAll fs (f d)) = π (f d) := ih fun g hg => h g (List.mem_cons_of_mem _ hg)
        _ = π d := h f List.mem_cons_self d

theorem applyAll_follows (h : ∀ f ∈ fs, Follows π f) (hd : π d = π d') :
    π (applyAll fs d) = π (applyAll fs d') := by
  induction fs generalizing d d' with
  | nil => exact hd
  | cons f fs ih =>
      exact ih (fun g hg => h g (List.mem_cons_of_mem _ hg)) (h f List.mem_cons_self d d' hd)

namespace Sessions

variable (s : Sessions B D)

def visible (b : B) : D := applyAll (s.changes b) s.committed

variable [DecidableEq B]

def write (b : B) (f : D → D) : Sessions B D :=
  { s with changes := Function.update s.changes b (s.changes b ++ [f]) }

def commit (b : B) : Sessions B D :=
  ⟨s.visible b, Function.update s.changes b []⟩

/-- Back to a savepoint, at which only the first changes had been made. -/
def rollback (b : B) (kept : Nat) : Sessions B D :=
  { s with changes := Function.update s.changes b ((s.changes b).take kept) }

variable {s} {b b' : B}

theorem visible_write : (s.write b f).visible b = f (s.visible b) := by
  simp only [visible, write, Function.update_self, applyAll_append]
  rfl

theorem visible_write_of_ne (h : b' ≠ b) : (s.write b f).visible b' = s.visible b' := by
  simp only [visible, write, Function.update_of_ne h]

theorem visible_commit : (s.commit b).visible b = s.visible b := by
  simp only [visible, commit, Function.update_self]
  rfl

/-- A commit shows the others what it changes of what they observe. -/
theorem visible_commit_of_ne (h : b' ≠ b) (hkeeps : ∀ f ∈ s.changes b, Keeps π f)
    (hfollows : ∀ f ∈ s.changes b', Follows π f) :
    π ((s.commit b).visible b') = π (s.visible b') := by
  simp only [visible, commit, Function.update_of_ne h]
  exact applyAll_follows hfollows (applyAll_keeps hkeeps)

theorem visible_rollback {kept : Nat} (hkeeps : ∀ f ∈ (s.changes b).drop kept, Keeps π f) :
    π ((s.rollback b kept).visible b) = π (s.visible b) := by
  simp only [visible, rollback, Function.update_self]
  calc
    _ = π (applyAll ((s.changes b).drop kept) (applyAll ((s.changes b).take kept) s.committed)) :=
      (applyAll_keeps hkeeps).symm
    _ = π (applyAll (s.changes b) s.committed) := by
      rw [← applyAll_append, List.take_append_drop]

theorem visible_rollback_of_ne {kept : Nat} (h : b' ≠ b) :
    (s.rollback b kept).visible b' = s.visible b' := by
  simp only [visible, rollback, Function.update_of_ne h]

end Sessions

end OntologicalDb.ReadCommitted
