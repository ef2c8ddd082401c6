/-!
Two programs in `Except` that fail together, and with the same error: the rules for
sequences.
-/

namespace OntologicalDb.ExceptAgreement

universe u v

variable {ε : Type u} {α β γ δ : Type v} {R : α → β → Prop} {S : γ → δ → Prop}

/-- Both programs fail with one error, or both return, and what they return is related. -/
inductive Agree (R : α → β → Prop) : Except ε α → Except ε β → Prop
  | error (e : ε) : Agree R (.error e) (.error e)
  | ok {a : α} {b : β} (h : R a b) : Agree R (.ok a) (.ok b)

theorem Agree.bind {x : Except ε α} {y : Except ε β} {f : α → Except ε γ} {k : β → Except ε δ}
    (h : Agree R x y) (hf : ∀ a b, R a b → Agree S (f a) (k b)) : Agree S (x >>= f) (y >>= k) := by
  cases h with
  | error e => exact .error e
  | ok h => exact hf _ _ h

/-- Programs that start with the same step. -/
theorem Agree.same {x : Except ε α} {f : α → Except ε γ} {k : α → Except ε δ}
    (hf : ∀ a, x = .ok a → Agree S (f a) (k a)) : Agree S (x >>= f) (x >>= k) := by
  cases x with
  | error e => exact .error e
  | ok a => exact hf a rfl

theorem Agree.imp {R' : α → β → Prop} {x : Except ε α} {y : Except ε β} (h : Agree R x y)
    (himp : ∀ a b, R a b → R' a b) : Agree R' x y := by
  cases h with
  | error e => exact .error e
  | ok h => exact .ok (himp _ _ h)

/-- What holds of the result, if there is one. -/
def Returns (P : α → Prop) (x : Except ε α) : Prop := ∀ a, x = .ok a → P a

theorem Returns.ok {P : α → Prop} {a : α} (h : P a) : Returns P (.ok a : Except ε α) := fun _ heq =>
  Except.ok.inj heq ▸ h

theorem Returns.error {P : α → Prop} (e : ε) : Returns P (.error e : Except ε α) := fun _ heq => by
  cases heq

theorem Returns.bind {P : α → Prop} {Q : γ → Prop} {x : Except ε α} {f : α → Except ε γ}
    (hx : Returns P x) (hf : ∀ a, P a → Returns Q (f a)) : Returns Q (x >>= f) := by
  cases x with
  | error e => exact .error e
  | ok a => exact hf a (hx a rfl)

theorem Returns.after {Q : γ → Prop} {x : Except ε α} {f : α → Except ε γ} (hf : ∀ a, Returns Q (f a)) :
    Returns Q (x >>= f) :=
  Returns.bind (P := fun _ => True) (fun _ _ => trivial) fun a _ => hf a

end OntologicalDb.ExceptAgreement
