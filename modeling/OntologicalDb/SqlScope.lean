import OntologicalDb.FromRows

/-!
The aliases an expression reads: its value depends on no others.
-/

namespace OntologicalDb.SqlScope

open OntologicalDb.FromRows
open OntologicalDb.RowDocuments
open OntologicalDb.Sql
open OntologicalDb.Values

section Refs

mutual

/-- The aliases an expression reads from the row it is evaluated in. -/
def refs : SqlExpr → List Alias
  | .lit _ _ | .param _ => []
  | .col a _ => [a]
  | .app _ _ args => refsAll args
  | .listComp a src body cond _ => refs src ++ (refs body ++ refs cond).filter (· ≠ a)
  | .listPred _ a src cond => refs src ++ (refs cond).filter (· ≠ a)
  | .agg _ _ args => refsAll args

def refsAll : List SqlExpr → List Alias
  | [] => []
  | e :: es => refs e ++ refsAll es

end

theorem update_agree {s s' : Scope} {a : Alias} {x : Tuple} {as : List Alias}
    (h : ∀ b ∈ as.filter (· ≠ a), s b = s' b) :
    ∀ b ∈ as, Function.update s a x b = Function.update s' a x b := by
  intro b hb
  by_cases hba : b = a
  · rw [hba, Function.update_self, Function.update_self]
  · rw [Function.update_of_ne hba, Function.update_of_ne hba]
    exact h b (List.mem_filter.mpr ⟨hb, by simpa using hba⟩)

mutual

/-- The value of an expression depends on the aliases it reads only. -/
theorem eval_congr {env : Env} {group : List Scope} : ∀ (e : SqlExpr) {s s' : Scope},
    (∀ a ∈ refs e, s a = s' a) → e.eval env group s = e.eval env group s'
  | .lit _ _, _, _, _ => rfl
  | .param _, _, _, _ => rfl
  | .col a column, s, s', h => by
      show s a column = s' a column
      rw [h a (List.mem_singleton_self a)]
  | .app op _ args, s, s', h => by
      show op.apply env _ = op.apply env _
      rw [evals_congr args h]
  | .listComp a src body cond _, s, s', h => by
      simp only [refs, List.mem_append] at h
      have hsrc : src.eval env group s = src.eval env group s' :=
        eval_congr src fun b hb => h b (.inl hb)
      have hinner : ∀ x, ∀ b ∈ refs body ++ refs cond,
          Function.update s a x b = Function.update s' a x b := fun x =>
        update_agree fun b hb => h b (.inr hb)
      simp only [SqlExpr.eval, hsrc, List.filter_map, List.map_map]
      have hcond : ∀ x, cond.eval env group (Function.update s a x) =
          cond.eval env group (Function.update s' a x) := fun x =>
        eval_congr cond fun b hb => hinner x b (List.mem_append_right _ hb)
      have hbody : ∀ x, body.eval env group (Function.update s a x) =
          body.eval env group (Function.update s' a x) := fun x =>
        eval_congr body fun b hb => hinner x b (List.mem_append_left _ hb)
      simp only [Function.comp_def, hcond, hbody]
  | .listPred kind a src cond, s, s', h => by
      simp only [refs, List.mem_append] at h
      have hsrc : src.eval env group s = src.eval env group s' :=
        eval_congr src fun b hb => h b (.inl hb)
      have hcond : ∀ x, cond.eval env group (Function.update s a x) =
          cond.eval env group (Function.update s' a x) := fun x =>
        eval_congr cond (update_agree fun b hb => h b (.inr hb))
      simp only [SqlExpr.eval, hsrc, hcond]
  | .agg .count _ [], _, _, _ => by simp [SqlExpr.eval]
  | .agg .count _ (_ :: _), _, _, _ => by simp [SqlExpr.eval]
  | .agg .sum _ _, _, _, _ => by simp [SqlExpr.eval]
  | .agg .avg _ _, _, _, _ => by simp [SqlExpr.eval]
  | .agg .min _ _, _, _, _ => by simp [SqlExpr.eval]
  | .agg .max _ _, _, _, _ => by simp [SqlExpr.eval]
  | .agg .collect _ _, _, _, _ => by simp [SqlExpr.eval]
  | .agg .stdev _ _, _, _, _ => by simp [SqlExpr.eval]

theorem evals_congr {env : Env} {group : List Scope} : ∀ (es : List SqlExpr) {s s' : Scope},
    (∀ a ∈ refsAll es, s a = s' a) →
      SqlExpr.evals env group s es = SqlExpr.evals env group s' es
  | [], _, _, _ => rfl
  | e :: es, s, s', h => by
      simp only [refsAll, List.mem_append] at h
      rw [SqlExpr.evals, SqlExpr.evals, eval_congr e fun a ha => h a (.inl ha),
        evals_congr es fun a ha => h a (.inr ha)]

end

end Refs

end OntologicalDb.SqlScope
