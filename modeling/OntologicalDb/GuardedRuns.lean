/-!
Runs of a step function that can fail, under a condition on each step that may
speak of what was run before it.
-/

namespace OntologicalDb.GuardedRuns

variable {S E : Type} {step : S → E → Except String S}
  {P Q : List E → S → E → Prop} {s₀ s : S} {es : List E}

/-- A run that takes a state to another, each of whose events meets a condition
on the events before it and the state it finds. -/
inductive Run (step : S → E → Except String S) (P : List E → S → E → Prop) (s₀ : S) :
    List E → S → Prop
  | nil : Run step P s₀ [] s₀
  | snoc {es : List E} {e : E} {s s' : S} (run : Run step P s₀ es s) (guard : P es s e)
      (h : step s e = .ok s') : Run step P s₀ (es ++ [e]) s'

/-- The invariant rule: what a run starts with and every step keeps. -/
theorem Run.invariant {I : List E → S → Prop} (run : Run step P s₀ es s) (init : I [] s₀)
    (keep : ∀ es s e s', I es s → P es s e → step s e = .ok s' → I (es ++ [e]) s') :
    I es s := by
  induction run with
  | nil => exact init
  | snoc run guard hstep ih => exact keep _ _ _ _ ih guard hstep

/-- A run that ends as the loop over its events does, when no event is refused. -/
theorem Run.of_foldlM (hall : ∀ es s e, P es s e) {es' : List E} {s' : S}
    (run : Run step P s₀ es s) (h : es'.foldlM step s = .ok s') :
    Run step P s₀ (es ++ es') s' := by
  induction es' generalizing es s with
  | nil =>
      cases h
      rwa [List.append_nil]
  | cons e es' ih =>
      cases hstep : step s e with
      | error msg =>
          rw [List.foldlM_cons, hstep] at h
          cases h
      | ok mid =>
          rw [List.foldlM_cons, hstep] at h
          have hrest := ih (run.snoc (hall es s e) hstep) h
          rwa [List.append_assoc] at hrest

/-- A run of a single event. -/
theorem Run.single {e : E} {s' : S} (guard : P [] s₀ e) (h : step s₀ e = .ok s') :
    Run step P s₀ [e] s' := by
  have hnil : Run step P s₀ [] s₀ := .nil
  exact hnil.snoc guard h

end OntologicalDb.GuardedRuns
