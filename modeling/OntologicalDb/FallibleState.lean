import Mathlib.Data.List.Basic

/-!
Programs over a state that may fail and leave the state where they failed: what
such a program ends with, read off piece by piece.
-/

namespace OntologicalDb.FallibleState

variable {ε σ α β : Type}

/-- Run from `s`, a program that succeeds ends in `Q` and one that fails in `E`. -/
def Ends (m : EStateM ε σ α) (Q : α → σ → Prop) (E : ε → σ → Prop) (s : σ) : Prop :=
  match m s with
  | .ok a s' => Q a s'
  | .error e s' => E e s'

section

variable {Q Q' : α → σ → Prop} {R : β → σ → Prop} {E E' : ε → σ → Prop} {s : σ}
  {m : EStateM ε σ α} {f : α → EStateM ε σ β}

@[simp] theorem ends_pure {a : α} : Ends (pure a) Q E s ↔ Q a s := Iff.rfl

@[simp] theorem ends_throw {e : ε} : Ends (throw e : EStateM ε σ α) Q E s ↔ E e s := Iff.rfl

@[simp] theorem ends_get {Q : σ → σ → Prop} : Ends get Q E s ↔ Q s s := Iff.rfl

@[simp] theorem ends_set {Q : PUnit → σ → Prop} {s' : σ} : Ends (set s') Q E s ↔ Q ⟨⟩ s' :=
  Iff.rfl

@[simp] theorem ends_modify {Q : PUnit → σ → Prop} {g : σ → σ} :
    Ends (modify g) Q E s ↔ Q ⟨⟩ (g s) :=
  Iff.rfl

@[simp] theorem ends_bind :
    Ends (m >>= f) R E s ↔ Ends m (fun a s' => Ends (f a) R E s') E s := by
  change (match EStateM.bind m f s with
    | .ok a s' => R a s'
    | .error e s' => E e s') ↔ _
  unfold Ends EStateM.bind
  cases m s <;> rfl

@[simp] theorem ends_map {g : α → β} :
    Ends (g <$> m) R E s ↔ Ends m (fun a s' => R (g a) s') E s := by
  change (match EStateM.map g m s with
    | .ok a s' => R a s'
    | .error e s' => E e s') ↔ _
  unfold Ends EStateM.map
  cases m s <;> rfl

theorem Ends.imp (h : Ends m Q E s) (hQ : ∀ a s', Q a s' → Q' a s')
    (hE : ∀ e s', E e s' → E' e s') : Ends m Q' E' s := by
  unfold Ends at h ⊢
  cases hm : m s with
  | ok a s' =>
      rw [hm] at h
      exact hQ a s' h
  | error e s' =>
      rw [hm] at h
      exact hE e s' h

/-- What a program that cannot fail returns. -/
theorem Ends.eq_ok (h : Ends m Q (fun _ _ => False) s) : ∃ a s', m s = .ok a s' ∧ Q a s' := by
  unfold Ends at h
  cases hm : m s with
  | ok a s' =>
      rw [hm] at h
      exact ⟨a, s', rfl, h⟩
  | error e s' =>
      rw [hm] at h
      exact h.elim

/-- What a program that cannot succeed fails with. -/
theorem Ends.eq_error (h : Ends m (fun _ _ => False) E s) : ∃ e s', m s = .error e s' ∧ E e s' := by
  unfold Ends at h
  cases hm : m s with
  | ok a s' =>
      rw [hm] at h
      exact h.elim
  | error e s' =>
      rw [hm] at h
      exact ⟨e, s', rfl, h⟩

end

/-- Run a program and hand on how it went. -/
def attempt (m : EStateM ε σ α) : EStateM ε σ (Except ε α) := fun s =>
  match m s with
  | .ok a s' => .ok (.ok a) s'
  | .error e s' => .ok (.error e) s'

@[simp] theorem ends_attempt {m : EStateM ε σ α} {Q : Except ε α → σ → Prop} {E : ε → σ → Prop}
    {s : σ} :
    Ends (attempt m) Q E s ↔ Ends m (fun a s' => Q (.ok a) s') (fun e s' => Q (.error e) s') s := by
  unfold Ends attempt
  cases m s <;> rfl

/-- Run a program a number of times and collect what it returns. -/
def times (m : EStateM ε σ α) : Nat → EStateM ε σ (List α)
  | 0 => pure []
  | n + 1 => do
      let x ← m
      let xs ← times m n
      return x :: xs

end OntologicalDb.FallibleState
