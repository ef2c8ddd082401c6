/-!
Rules for programs in `Except`: what a successful run of a sequence, a guard or a
loop says about its parts.
-/

namespace OntologicalDb.ExceptRules

universe u

variable {ε α β : Type u}

theorem bind_eq_ok {x : Except ε α} {f : α → Except ε β} {b : β} :
    x >>= f = .ok b ↔ ∃ a, x = .ok a ∧ f a = .ok b := by
  cases x with
  | error e => simp [bind, Except.bind]
  | ok a => simp [bind, Except.bind]

theorem pure_eq_ok {a b : α} : (pure a : Except ε α) = .ok b ↔ a = b := by
  simp [pure, Except.pure]

theorem map_eq_ok {x : Except ε α} {f : α → β} {b : β} :
    x.map f = .ok b ↔ ∃ a, x = .ok a ∧ f a = b := by
  cases x with
  | error e => simp [Except.map]
  | ok a => simp [Except.map]

/-- Fail unless a condition holds. -/
def require (p : Prop) [Decidable p] (e : ε) : Except ε PUnit.{u + 1} :=
  if p then .ok ⟨⟩ else .error e

theorem require_eq_ok {p : Prop} [Decidable p] {e : ε} {u : PUnit.{u + 1}} :
    require p e = .ok u ↔ p := by
  unfold require
  split <;> simp [*]

theorem foldlM_cons_eq_ok {f : β → α → Except ε β} {x : α} {xs : List α} {b c : β} :
    (x :: xs).foldlM f b = .ok c ↔ ∃ d, f b x = .ok d ∧ xs.foldlM f d = .ok c := by
  rw [List.foldlM_cons, bind_eq_ok]

/-- A loop that ends keeps what every one of its steps keeps. -/
theorem foldlM_preserves {f : β → α → Except ε β} {P : β → Prop}
    (hstep : ∀ b x c, P b → f b x = .ok c → P c)
    {xs : List α} {b c : β} (h : xs.foldlM f b = .ok c) (hb : P b) : P c := by
  induction xs generalizing b with
  | nil =>
      obtain rfl := pure_eq_ok.mp h
      exact hb
  | cons x xs ih =>
      obtain ⟨d, hd, hrest⟩ := foldlM_cons_eq_ok.mp h
      exact ih hrest (hstep b x d hb hd)

theorem bind_eq_error {x : Except ε α} {f : α → Except ε β} {e : ε} :
    x >>= f = .error e ↔ x = .error e ∨ ∃ a, x = .ok a ∧ f a = .error e := by
  cases x with
  | error e' => simp [bind, Except.bind]
  | ok a => simp [bind, Except.bind]

/-- A loop fails only where one of its steps fails. -/
theorem exists_of_foldlM_eq_error {f : β → α → Except ε β} {xs : List α} {b : β} {e : ε}
    (h : xs.foldlM f b = .error e) : ∃ x ∈ xs, ∃ d, f d x = .error e := by
  induction xs generalizing b with
  | nil => simp [pure, Except.pure] at h
  | cons x xs ih =>
      rw [List.foldlM_cons] at h
      rcases bind_eq_error.mp h with hx | ⟨d, -, hrest⟩
      · exact ⟨x, List.mem_cons_self, b, hx⟩
      · obtain ⟨y, hy, hfail⟩ := ih hrest
        exact ⟨y, List.mem_cons_of_mem _ hy, hfail⟩

/-- A loop that ends has made every step. -/
theorem step_of_foldlM_eq_ok {f : β → α → Except ε β} {xs : List α} {b c : β}
    (h : xs.foldlM f b = .ok c) : ∀ x ∈ xs, ∃ d d', f d x = .ok d' := by
  induction xs generalizing b with
  | nil => simp
  | cons x xs ih =>
      obtain ⟨d, hd, hrest⟩ := foldlM_cons_eq_ok.mp h
      intro y hy
      rcases List.mem_cons.mp hy with rfl | hy
      · exact ⟨b, d, hd⟩
      · exact ih hrest y hy

/-- A loop ends when each of its steps does. -/
theorem exists_foldlM_eq_ok {f : β → α → Except ε β} {xs : List α}
    (hstep : ∀ x ∈ xs, ∀ d, ∃ d', f d x = .ok d') (b : β) : ∃ c, xs.foldlM f b = .ok c := by
  induction xs generalizing b with
  | nil => exact ⟨b, rfl⟩
  | cons x xs ih =>
      obtain ⟨d, hd⟩ := hstep x List.mem_cons_self b
      obtain ⟨c, hc⟩ := ih (fun y hy => hstep y (List.mem_cons_of_mem _ hy)) d
      exact ⟨c, foldlM_cons_eq_ok.mpr ⟨d, hd, hc⟩⟩

/-- A loop seen through a function of its state. -/
theorem map_foldlM {γ : Type u} {f : β → α → Except ε β} {g : γ → α → Except ε γ} {φ : β → γ}
    (h : ∀ b x, (f b x).map φ = g (φ b) x) (xs : List α) (b : β) :
    (xs.foldlM f b).map φ = xs.foldlM g (φ b) := by
  induction xs generalizing b with
  | nil => rfl
  | cons x xs ih =>
      rw [List.foldlM_cons, List.foldlM_cons, ← h]
      cases f b x with
      | error e => rfl
      | ok c => exact ih c

theorem foldlM_flatMap {γ : Type u} {g : β → γ → Except ε β} {f : α → List γ} {xs : List α}
    {b : β} : (xs.flatMap f).foldlM g b = xs.foldlM (fun b x => (f x).foldlM g b) b := by
  induction xs generalizing b with
  | nil => rfl
  | cons x xs ih =>
      rw [List.flatMap_cons, List.foldlM_append, List.foldlM_cons]
      exact congrArg _ (funext fun c => ih)

end OntologicalDb.ExceptRules
