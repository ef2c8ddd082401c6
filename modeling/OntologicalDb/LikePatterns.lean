import OntologicalDb.ThreeValuedLogic

/-!
Matching a text against a `LIKE` pattern that anyone may have written: the
match may fail, and only verbatim patterns stand for themselves.
-/

namespace OntologicalDb.LikePatterns

open OntologicalDb.ThreeValuedLogic

/-- The first answer other than `some false`, over the ends of a text. -/
def search (f : List Char → Option Bool) : List Char → Option Bool
  | [] => f []
  | x :: s =>
      match f (x :: s) with
      | some false => search f s
      | r => r

/-- `LIKE` with its error: a pattern must not end with the escape character. -/
def matchText : List Char → List Char → Option Bool
  | [], s => some s.isEmpty
  | '%' :: p, s => search (matchText p) s
  | '_' :: p, _ :: s => matchText p s
  | ['\\'], _ :: _ => none
  | '\\' :: c :: p, x :: s => if c = x then matchText p s else some false
  | c :: p, x :: s => if c = x then matchText p s else some false
  | _ :: _, [] => some false

/-- No escape character at the end has nothing to escape. -/
def Complete : List Char → Prop
  | [] => True
  | ['\\'] => False
  | '\\' :: _ :: p => Complete p
  | _ :: p => Complete p

/-- A text that a pattern matches: wildcards for several characters stand for none,
those for one character for `%`. -/
def sample : List Char → List Char
  | [] => []
  | '%' :: p => sample p
  | '_' :: p => '%' :: sample p
  | ['\\'] => []
  | '\\' :: c :: p => c :: sample p
  | c :: p => c :: sample p

attribute [local simp] matchText Complete sample

section Steps

variable {c x : Char} {p s : List Char}

theorem matchText_cons (h : c ≠ '%' ∧ c ≠ '_' ∧ c ≠ '\\') :
    matchText (c :: p) (x :: s) = if c = x then matchText p s else some false := by
  rw [matchText.eq_6]
  · exact fun hc => h.1 hc
  · exact fun hc => h.2.1 hc
  · exact fun hc _ => h.2.2 hc
  · exact fun _ _ hc => absurd hc h.2.2

theorem matchText_nil (h : c ≠ '%') : matchText (c :: p) [] = some false := by
  rw [matchText.eq_7]
  exact fun hc => h hc

theorem complete_cons (h : c ≠ '\\') : Complete (c :: p) ↔ Complete p := by
  rw [Complete.eq_4]
  · exact fun hc _ => h hc
  · exact fun _ _ hc => absurd hc h

theorem sample_cons (h : c ≠ '%' ∧ c ≠ '_' ∧ c ≠ '\\') : sample (c :: p) = c :: sample p := by
  rw [sample.eq_6]
  · exact fun hc => h.1 hc
  · exact fun hc => h.2.1 hc
  · exact fun hc _ => h.2.2 hc
  · exact fun _ _ hc => absurd hc h.2.2

theorem search_of_true {f : List Char → Option Bool} (h : f s = some true) :
    search f s = some true := by
  cases s with
  | nil => exact h
  | cons x s => rw [search, h]

/-- Where nothing fails, the search is a search of the ends. -/
theorem search_eq_any {f : List Char → Option Bool} {g : List Char → Bool}
    (h : ∀ s, f s = some (g s)) (s : List Char) : search f s = some (s.tails.any g) := by
  induction s with
  | nil => simp [search, h]
  | cons x s ih =>
      rw [search, h, List.tails, List.any_cons]
      cases g (x :: s) with
      | false => exact ih
      | true => rfl

theorem plain_of_not (h₁ : c = '%' → False) (h₂ : c = '_' → False)
    (h₃ : c = '\\' → p = [] → False) (h₄ : ∀ d q, c = '\\' → p = d :: q → False) :
    c ≠ '%' ∧ c ≠ '_' ∧ c ≠ '\\' := by
  refine ⟨h₁, h₂, fun hc => ?_⟩
  cases p with
  | nil => exact h₃ hc rfl
  | cons d q => exact h₄ d q hc rfl

end Steps

section Outcomes

variable {p s : List Char}

theorem verbatim_complete (h : Verbatim p) : Complete p := by
  induction p with
  | nil => trivial
  | cons c p ih =>
      rcases List.forall_mem_cons.mp h with ⟨hc, hp⟩
      exact (complete_cons hc.2.2).mpr (ih hp)

/-- A complete pattern never fails. -/
theorem matchText_eq_like (h : Complete p) : matchText p s = some (like p s) := by
  induction p using sample.induct generalizing s with
  | case1 => rfl
  | case2 p ih =>
      have hp : Complete p := (complete_cons (by decide)).mp h
      rw [matchText, like]
      exact search_eq_any (fun t => ih hp) s
  | case3 p ih =>
      have hp : Complete p := (complete_cons (by decide)).mp h
      cases s with
      | nil => rfl
      | cons x s =>
          rw [matchText, like]
          exact ih hp
  | case4 => exact h.elim
  | case5 c p ih =>
      cases s with
      | nil => rfl
      | cons x s =>
          rw [matchText, like, ih h]
          by_cases hx : c = x <;> simp [hx]
  | case6 c p h₁ h₂ h₃ h₄ ih =>
      have hc := plain_of_not h₁ h₂ h₃ h₄
      have hp : Complete p := (complete_cons hc.2.2).mp h
      cases s with
      | nil => rw [matchText_nil hc.1, like_cons_nil hc.1]
      | cons x s =>
          rw [matchText_cons hc, like_cons hc, ih hp]
          by_cases hx : c = x <;> simp [hx]

/-- A pattern that ends with the escape character matches nothing. -/
theorem matchText_ne_true (h : ¬ Complete p) : matchText p s ≠ some true := by
  induction p using sample.induct generalizing s with
  | case1 => exact absurd trivial h
  | case2 p ih =>
      rw [complete_cons (by decide)] at h
      rw [matchText]
      induction s with
      | nil => exact ih h
      | cons x s ihs =>
          rw [search]
          split
          · exact ihs
          · exact ih h
  | case3 p ih =>
      rw [complete_cons (by decide)] at h
      cases s with
      | nil => simp [matchText_nil]
      | cons x s => exact ih h
  | case4 => cases s <;> simp
  | case5 c p ih =>
      cases s with
      | nil => simp
      | cons x s =>
          rw [matchText]
          split
          · exact ih h
          · simp
  | case6 c p h₁ h₂ h₃ h₄ ih =>
      have hc := plain_of_not h₁ h₂ h₃ h₄
      rw [complete_cons hc.2.2] at h
      cases s with
      | nil => simp [matchText_nil hc.1]
      | cons x s =>
          rw [matchText_cons hc]
          split
          · exact ih h
          · simp

theorem matchText_sample (h : Complete p) : matchText p (sample p) = some true := by
  induction p using sample.induct with
  | case1 => rfl
  | case2 p ih =>
      rw [matchText, sample]
      exact search_of_true (ih ((complete_cons (by decide)).mp h))
  | case3 p ih =>
      rw [sample, matchText]
      exact ih ((complete_cons (by decide)).mp h)
  | case4 => exact h.elim
  | case5 c p ih =>
      rw [sample, matchText, if_pos rfl]
      exact ih h
  | case6 c p h₁ h₂ h₃ h₄ ih =>
      have hc := plain_of_not h₁ h₂ h₃ h₄
      rw [sample_cons hc, matchText_cons hc, if_pos rfl]
      exact ih ((complete_cons hc.2.2).mp h)

end Outcomes

section Wildcards

variable {p s : List Char}

/-- Before a wildcard every pattern is complete. -/
theorem complete_append_any (p : List Char) : Complete (p ++ ['%']) := by
  induction p using sample.induct with
  | case1 => trivial
  | case2 p ih => exact (complete_cons (by decide)).mpr ih
  | case3 p ih => exact (complete_cons (by decide)).mpr ih
  | case4 => trivial
  | case5 c p ih => exact ih
  | case6 c p h₁ h₂ h₃ h₄ ih => exact (complete_cons (plain_of_not h₁ h₂ h₃ h₄).2.2).mpr ih

theorem length_sample_append_any (p : List Char) : (sample (p ++ ['%'])).length ≤ p.length := by
  induction p using sample.induct with
  | case1 => exact le_rfl
  | case2 p ih => exact ih.trans (Nat.le_succ _)
  | case3 p ih => exact Nat.succ_le_succ ih
  | case4 => exact le_rfl
  | case5 c p ih => exact Nat.succ_le_succ (ih.trans (Nat.le_succ _))
  | case6 c p h₁ h₂ h₃ h₄ ih =>
      rw [List.cons_append, sample_cons (plain_of_not h₁ h₂ h₃ h₄)]
      exact Nat.succ_le_succ ih

theorem sample_append_any (h : Complete p) : sample (p ++ ['%']) = sample p := by
  induction p using sample.induct with
  | case1 => rfl
  | case2 p ih => exact ih ((complete_cons (by decide)).mp h)
  | case3 p ih => exact congrArg ('%' :: ·) (ih ((complete_cons (by decide)).mp h))
  | case4 => exact h.elim
  | case5 c p ih => exact congrArg (c :: ·) (ih h)
  | case6 c p h₁ h₂ h₃ h₄ ih =>
      have hc := plain_of_not h₁ h₂ h₃ h₄
      rw [List.cons_append, sample_cons hc, sample_cons hc, ih ((complete_cons hc.2.2).mp h)]

/-- A pattern begins its sample only when it is verbatim. -/
theorem verbatim_of_prefix_sample (h : p <+: sample (p ++ ['%'])) : Verbatim p := by
  induction p using sample.induct with
  | case1 => exact nofun
  | case2 p ih =>
      have hlong := h.length_le.trans (length_sample_append_any p)
      exact absurd hlong (Nat.not_succ_le_self _)
  | case3 p ih =>
      rw [List.cons_append, sample, List.cons_prefix_cons] at h
      exact absurd h.1 (by decide)
  | case4 => exact absurd h (by decide)
  | case5 c p ih =>
      have hlong := h.length_le.trans (Nat.succ_le_succ (length_sample_append_any p))
      exact absurd hlong (Nat.not_succ_le_self _)
  | case6 c p h₁ h₂ h₃ h₄ ih =>
      have hc := plain_of_not h₁ h₂ h₃ h₄
      rw [List.cons_append, sample_cons hc, List.cons_prefix_cons] at h
      exact List.forall_mem_cons.mpr ⟨hc, ih h.2⟩

/-- A verbatim pattern between wildcards matches what it occurs in. -/
theorem like_any_append_any (hp : Verbatim p) :
    like ('%' :: (p ++ ['%'])) s = s.tails.any p.isPrefixOf := by
  rw [like]
  exact congrArg _ (funext fun t => like_append_any hp)

end Wildcards

end OntologicalDb.LikePatterns
