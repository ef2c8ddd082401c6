import Mathlib.Data.List.Infix

/-!
Three-valued predicates: the truth tables with an unknown operand, what is lost
when unknown counts as false, and the patterns of a text search.
-/

namespace OntologicalDb.ThreeValuedLogic

/-- A truth value; `none` is unknown. -/
abbrev Truth := Option Bool

namespace Truth

/-- A filter keeps what is true, not what is merely not false. -/
def holds (t : Truth) : Bool := t = some true

def not (t : Truth) : Truth := t.map Bool.not

def and : Truth → Truth → Truth
  | some a, some b => some (a && b)
  | some false, none | none, some false => some false
  | _, _ => none

def or (a b : Truth) : Truth := not (and (not a) (not b))

def xor : Truth → Truth → Truth
  | some a, some b => some (a != b)
  | _, _ => none

@[simp] theorem holds_and (a b : Truth) : (and a b).holds = (a.holds && b.holds) := by
  rcases a with _ | _ | _ <;> rcases b with _ | _ | _ <;> rfl

@[simp] theorem holds_or (a b : Truth) : (or a b).holds = (a.holds || b.holds) := by
  rcases a with _ | _ | _ <;> rcases b with _ | _ | _ <;> rfl

/-- Reading unknown as false and then negating is right for what is known. -/
theorem holds_not_iff {a : Truth} : (!a.holds) = (not a).holds ↔ a ≠ none := by
  rcases a with _ | _ | _ <;> simp [holds, not]

theorem holds_xor_iff {a b : Truth} :
    (a.holds != b.holds) = (xor a b).holds ↔
      ¬(a = none ∧ b = some true) ∧ ¬(a = some true ∧ b = none) := by
  rcases a with _ | _ | _ <;> rcases b with _ | _ | _ <;> simp [holds, xor]

end Truth

section Patterns

/-- `LIKE`: `%` stands for any characters, `_` for one, and a backslash takes
the next character as it is. -/
def like : List Char → List Char → Bool
  | [], s => s.isEmpty
  | '%' :: p, s => s.tails.any (like p)
  | '_' :: p, _ :: s => like p s
  | '\\' :: c :: p, x :: s => c = x && like p s
  | c :: p, x :: s => c = x && like p s
  | _ :: _, [] => false

attribute [local simp] like

/-- A pattern that stands for itself. -/
def Verbatim (p : List Char) : Prop := ∀ c ∈ p, c ≠ '%' ∧ c ≠ '_' ∧ c ≠ '\\'

instance (p : List Char) : Decidable (Verbatim p) :=
  inferInstanceAs (Decidable (∀ c ∈ p, _ ∧ _ ∧ _))

theorem like_cons {c x : Char} {p s : List Char} (hc : c ≠ '%' ∧ c ≠ '_' ∧ c ≠ '\\') :
    like (c :: p) (x :: s) = (c = x && like p s) := by
  rw [like.eq_5]
  · exact fun h => hc.1 h
  · exact fun h => hc.2.1 h
  · exact fun _ _ h => absurd h hc.2.2

theorem like_cons_nil {c : Char} {p : List Char} (hc : c ≠ '%') : like (c :: p) [] = false := by
  rw [like.eq_6]
  exact fun h => hc h

/-- A verbatim pattern before `%` matches what it begins. -/
theorem like_append_any {p s : List Char} (hp : Verbatim p) :
    like (p ++ ['%']) s = p.isPrefixOf s := by
  induction p generalizing s with
  | nil =>
      have hempty : like [] [] = true := rfl
      have hmem : ([] : List Char) ∈ s.tails := (List.mem_tails _ _).mpr s.nil_suffix
      rw [List.nil_append, like, List.isPrefixOf_nil_left]
      exact List.any_eq_true.mpr ⟨[], hmem, hempty⟩
  | cons c p ih =>
      obtain ⟨hc, hp⟩ := List.forall_mem_cons.mp hp
      cases s with
      | nil => rw [List.cons_append, like_cons_nil hc.1]; rfl
      | cons x s =>
          rw [List.cons_append, like_cons hc, ih hp, List.isPrefixOf_cons_cons]
          rfl

/-- A verbatim pattern alone matches itself. -/
theorem like_verbatim {p s : List Char} (hp : Verbatim p) : like p s = decide (p = s) := by
  induction p generalizing s with
  | nil => cases s <;> simp
  | cons c p ih =>
      obtain ⟨hc, hp⟩ := List.forall_mem_cons.mp hp
      cases s with
      | nil => simp [like_cons_nil hc.1]
      | cons x s => simp [like_cons hc, ih hp]

/-- A verbatim pattern after `%` matches what it ends. -/
theorem like_any_append {p s : List Char} (hp : Verbatim p) :
    like ('%' :: p) s = p.isSuffixOf s := by
  rw [like, Bool.eq_iff_iff, List.any_eq_true, List.isSuffixOf_iff_suffix]
  constructor
  · rintro ⟨t, ht, hlike⟩
    obtain rfl : p = t := by simpa [like_verbatim hp] using hlike
    exact (List.mem_tails _ _).mp ht
  · intro h
    exact ⟨p, (List.mem_tails _ _).mpr h, by simp [like_verbatim hp]⟩

end Patterns

end OntologicalDb.ThreeValuedLogic
