import OntologicalDb.LikePatterns
import OntologicalDb.PredicateAgreement

/-!
The string predicates of both languages, and the strings they take literally.
-/

namespace OntologicalDb.StringPredicates

open OntologicalDb.CompileExpr
open OntologicalDb.CypherSyntax
open OntologicalDb.LikePatterns
open OntologicalDb.PredicateAgreement
open OntologicalDb.RowEvaluator
open OntologicalDb.Sql
open OntologicalDb.ThreeValuedLogic
open OntologicalDb.Values

section Semantics

/-- Where a text first occurs in another, counted from one; zero where it does not. -/
def strpos (s t : List Char) : Nat :=
  match s.tails.findIdx? t.isPrefixOf with
  | some i => i + 1
  | none => 0

/-- What PostgreSQL makes of a compiled search of two texts; `none` is an error. -/
def compiledSearch : BinOp → String → String → Option Bool
  | .startsWith, s, t => matchText (t.toList ++ ['%']) s.toList
  | .endsWith, s, t => matchText ('%' :: t.toList) s.toList
  | .contains, s, t => some (decide (strpos s.toList t.toList > 0))
  | _, _, _ => none

/-- A server that searches texts as PostgreSQL does, and the outcome of a statement that
fails. -/
structure SearchServer (pg : Postgres) where
  failed : Val
  failed_ne : ∀ b, failed ≠ .bool b
  search : ∀ op ∈ searches, ∀ s t, pg.fn (sqlName op) [.text s, .text t] =
    ((compiledSearch op s t).map Val.bool).getD failed

def isWild (c : Char) : Bool := c = '%' ∨ c = '_' ∨ c = '\\'

/-- How `ILIKE` folds the case of letters. -/
structure Folding where
  lower : Char → Char
  idem : ∀ c, lower (lower c) = lower c
  wild : ∀ c, isWild c = true → lower c = c
  letters : ∀ c, isWild c = false → isWild (lower c) = false

variable (f : Folding)

def Folding.fold (s : String) : List Char := s.toList.map f.lower

/-- `cmp_sql` for `contains`. -/
def containsSql (s t : String) : Option Bool :=
  matchText (('%' :: (t.toList ++ ['%'])).map f.lower) (f.fold s)

end Semantics

section Literal

variable {F : Type} (pg : Postgres) (f : Folding) (rt : Runtime F) (t : String)

/-- The compiled Cypher predicates hold of any text and this one as the literal tests do. -/
def CypherLiteral : Prop :=
  ∀ op ∈ searches, ∀ (env : Sql.Env) (g : List Scope) (sc : Scope) (l r : SqlExpr) (s : String)
    (plain : Bool), env.pg = pg → l.eval env g sc = .text s → r.eval env g sc = .text t →
      (binarySql op plain l r).eval env g sc = .bool (textTest op s t)

/-- The TypeQL predicate holds of any text and this one as occurrence up to case does. -/
def TypeqlLiteral : Prop :=
  ∀ s, containsSql f s t = some ((f.fold s).tails.any (f.fold t).isPrefixOf)

/-- So does the evaluator of the write path. -/
def EvaluatorLiteral : Prop :=
  ∀ op ∈ searches, ∀ s, binary rt op (.string s) (.string t) = .bool (textTest op s t)

end Literal

section Searches

variable {s t : String} {xs p : List Char}

theorem strpos_pos : (strpos xs p > 0) ↔ xs.tails.any p.isPrefixOf = true := by
  unfold strpos
  cases h : xs.tails.findIdx? p.isPrefixOf with
  | none =>
      have hnone : xs.tails.any p.isPrefixOf = false :=
        List.any_eq_false.mpr fun x hx =>
          Bool.eq_false_iff.mp (List.findIdx?_eq_none_iff.mp h x hx)
      simp [hnone]
  | some i =>
      have hfound : xs.tails.any p.isPrefixOf = true := by
        by_contra hnone
        rw [Bool.not_eq_true, List.any_eq_false] at hnone
        have := List.findIdx?_eq_none_iff.mpr fun x hx => Bool.eq_false_iff.mpr (hnone x hx)
        rw [this] at h
        cases h
      simpa using hfound

/-- The search for an occurrence is literal. -/
theorem compiledSearch_contains (s t : String) :
    compiledSearch .contains s t = some (textTest .contains s t) := by
  change some (decide _) = some (isInfix t s)
  rw [isInfix, Bool.eq_iff_iff.mpr (decide_eq_true_iff.trans strpos_pos)]

theorem compiledSearch_startsWith_iff (t : String) :
    (∀ s, compiledSearch .startsWith s t = some (textTest .startsWith s t)) ↔
      Verbatim t.toList := by
  constructor
  · intro h
    have hs := h (String.ofList (sample (t.toList ++ ['%'])))
    simp only [compiledSearch, textTest, String.toList_ofList] at hs
    rw [matchText_sample (complete_append_any _)] at hs
    exact verbatim_of_prefix_sample (List.isPrefixOf_iff_prefix.mp (Option.some.inj hs).symm)
  · intro h s
    rw [compiledSearch, matchText_eq_like (complete_append_any _), like_append_any h]
    rfl

theorem compiledSearch_endsWith_iff (t : String) :
    (∀ s, compiledSearch .endsWith s t = some (textTest .endsWith s t)) ↔
      Verbatim t.toList := by
  constructor
  · intro h
    have hcomplete : Complete t.toList := by
      by_contra hnot
      have hself : textTest .endsWith t t = true := by simp [textTest, isSuffix]
      have hs := h t
      rw [hself, compiledSearch] at hs
      exact matchText_ne_true (fun hc => hnot ((complete_cons (by decide)).mp hc)) hs
    have hs := h (String.ofList (sample t.toList))
    have hmatch : matchText ('%' :: t.toList) (sample t.toList) = some true :=
      matchText_sample (p := '%' :: t.toList) ((complete_cons (by decide)).mpr hcomplete)
    simp only [compiledSearch, textTest, isSuffix, String.toList_ofList] at hs
    rw [hmatch] at hs
    have hsuffix := List.isSuffixOf_iff_suffix.mp (Option.some.inj hs).symm
    have hlen := length_sample_append_any t.toList
    rw [sample_append_any hcomplete] at hlen
    apply verbatim_of_prefix_sample
    rw [sample_append_any hcomplete, ← hsuffix.eq_of_length_le hlen]
  · intro h s
    rw [compiledSearch, matchText_eq_like ((complete_cons (by decide)).mpr (verbatim_complete h)),
      like_any_append h]
    rfl

end Searches

section Folded

variable {f : Folding}

theorem isWild_lower (c : Char) : isWild (f.lower c) = isWild c := by
  cases h : isWild c with
  | true => rw [f.wild c h, h]
  | false => exact f.letters c h

theorem verbatim_iff {p : List Char} : Verbatim p ↔ ∀ c ∈ p, isWild c = false := by
  simp [Verbatim, isWild]

theorem verbatim_fold {t : String} : Verbatim (f.fold t) ↔ Verbatim t.toList := by
  simp [verbatim_iff, Folding.fold, isWild_lower]

/-- Folding leaves a sample of a folded pattern as it is. -/
theorem lower_of_mem_sample {p : List Char} (h : ∀ c ∈ p, f.lower c = c) {c : Char}
    (hc : c ∈ sample p) : f.lower c = c := by
  induction p using sample.induct with
  | case1 => cases hc
  | case2 p ih => exact ih (List.forall_mem_cons.mp h).2 hc
  | case3 p ih =>
      rcases List.mem_cons.mp hc with rfl | hc
      · exact f.wild _ (by decide)
      · exact ih (List.forall_mem_cons.mp h).2 hc
  | case4 => cases hc
  | case5 d p ih =>
      rcases List.forall_mem_cons.mp (List.forall_mem_cons.mp h).2 with ⟨hd, hp⟩
      rcases List.mem_cons.mp hc with rfl | hc
      · exact hd
      · exact ih hp hc
  | case6 d p h₁ h₂ h₃ h₄ ih =>
      rcases List.forall_mem_cons.mp h with ⟨hd, hp⟩
      rw [sample_cons (plain_of_not h₁ h₂ h₃ h₄)] at hc
      rcases List.mem_cons.mp hc with rfl | hc
      · exact hd
      · exact ih hp hc

theorem containsSql_eq (s t : String) :
    containsSql f s t = matchText ('%' :: (f.fold t ++ ['%'])) (f.fold s) := by
  have hwild : f.lower '%' = '%' := f.wild _ (by decide)
  rw [containsSql, List.map_cons, List.map_append, List.map_singleton, hwild]
  rfl

theorem typeqlLiteral_iff (f : Folding) (t : String) :
    TypeqlLiteral f t ↔ Verbatim t.toList := by
  rw [← verbatim_fold (f := f)]
  constructor
  · intro h
    have hs := h (String.ofList (sample (f.fold t ++ ['%'])))
    have hfixed : f.fold (String.ofList (sample (f.fold t ++ ['%']))) =
        sample (f.fold t ++ ['%']) := by
      rw [Folding.fold, String.toList_ofList]
      apply List.map_congr_left (g := id) _ |>.trans (List.map_id _)
      intro c hc
      refine lower_of_mem_sample (fun d hd => ?_) hc
      rcases List.mem_append.mp hd with hd | hd
      · rcases List.mem_map.mp hd with ⟨e, -, rfl⟩
        exact f.idem e
      · obtain rfl := List.mem_singleton.mp hd
        exact f.wild _ (by decide)
    rw [containsSql_eq, hfixed] at hs
    have hmatch : matchText ('%' :: (f.fold t ++ ['%'])) (sample (f.fold t ++ ['%'])) =
        some true :=
      matchText_sample (p := '%' :: (f.fold t ++ ['%']))
        ((complete_cons (by decide)).mpr (complete_append_any _))
    rw [hmatch] at hs
    rcases List.any_eq_true.mp (Option.some.inj hs).symm with ⟨u, hu, hprefix⟩
    have hsuffix := (List.mem_tails _ _).mp hu
    have hprefix := List.isPrefixOf_iff_prefix.mp hprefix
    have hlen := length_sample_append_any (f.fold t)
    obtain rfl := hsuffix.eq_of_length_le (hlen.trans hprefix.length_le)
    exact verbatim_of_prefix_sample hprefix
  · intro h s
    rw [containsSql_eq,
      matchText_eq_like ((complete_cons (by decide)).mpr (complete_append_any _)),
      like_any_append_any h]

end Folded

section Compiled

variable {pg : Postgres} {F : Type} {t : String}

/-- What a compiled search of two texts is worth. -/
theorem eval_binarySql {op : BinOp} (hop : op ∈ searches) {env : Sql.Env} {g : List Scope}
    {sc : Scope} {l r : SqlExpr} {s : String} (plain : Bool) (hl : l.eval env g sc = .text s)
    (hr : r.eval env g sc = .text t) :
    (binarySql op plain l r).eval env g sc = env.pg.fn (sqlName op) [.text s, .text t] := by
  have hargs : SqlExpr.evals env g sc [l, r] = [.text s, .text t] := by
    rw [SqlExpr.evals, SqlExpr.evals, SqlExpr.evals, hl, hr]
  simp only [searches, List.mem_cons, List.not_mem_nil, or_false] at hop
  rcases hop with rfl | rfl | rfl <;>
    · simp only [binarySql, call, SqlExpr.eval, hargs]
      rfl

theorem cypherLiteral_iff (srv : SearchServer pg) :
    CypherLiteral pg t ↔ ∀ op ∈ searches, ∀ s, compiledSearch op s t = some (textTest op s t) := by
  have hvalue (r : Option Bool) (b : Bool) :
      (r.map Val.bool).getD srv.failed = .bool b ↔ r = some b := by
    cases r with
    | none => simpa using srv.failed_ne b
    | some a => simp
  constructor
  · intro h op hop s
    have hs := h op hop
      ⟨pg, ⟨⟨TypeCatalog.empty, []⟩, [], [], [], [], []⟩, fun _ => [], .null, []⟩ [] emptyScope
      (.lit (.text s) "") (.lit (.text t) "") s false rfl rfl rfl
    rw [eval_binarySql hop false rfl rfl, srv.search op hop] at hs
    exact (hvalue _ _).mp hs
  · rintro h op hop env g sc l r s plain rfl hl hr
    rw [eval_binarySql hop plain hl hr, srv.search op hop]
    exact (hvalue _ _).mpr (h op hop s)

theorem evaluatorLiteral (rt : Runtime F) (t : String) : EvaluatorLiteral rt t := by
  intro op hop s
  simp only [searches, List.mem_cons, List.not_mem_nil, or_false] at hop
  rcases hop with rfl | rfl | rfl <;> rfl

/-- The string predicates take a text literally exactly when it has no wildcard and no
escape character. -/
theorem predicates_literal_iff (srv : SearchServer pg) (f : Folding) (rt : Runtime F)
    (t : String) :
    CypherLiteral pg t ∧ TypeqlLiteral f t ∧ EvaluatorLiteral rt t ↔ Verbatim t.toList := by
  rw [cypherLiteral_iff srv, typeqlLiteral_iff]
  constructor
  · rintro ⟨-, h, -⟩
    exact h
  · intro h
    refine ⟨fun op hop => ?_, h, evaluatorLiteral rt t⟩
    simp only [searches, List.mem_cons, List.not_mem_nil, or_false] at hop
    rcases hop with rfl | rfl | rfl
    · exact (compiledSearch_startsWith_iff t).mpr h
    · exact (compiledSearch_endsWith_iff t).mpr h
    · exact fun s => compiledSearch_contains s t

end Compiled

section Example

/-- A server whose only functions are the searches. -/
def searchFn (name : String) : List Val → Val
  | [.text s, .text t] =>
      match searches.find? fun op => sqlName op = name with
      | some op => ((compiledSearch op s t).map Val.bool).getD .null
      | none => .null
  | _ => .null

def searchPostgres : Postgres := { Postgres.literal with fn := searchFn }

def searchServer : SearchServer searchPostgres where
  failed := .null
  failed_ne := fun _ => by simp
  search op hop s t := by
    simp only [searches, List.mem_cons, List.not_mem_nil, or_false] at hop
    rcases hop with rfl | rfl | rfl <;> rfl

/-- `'abc' STARTS WITH 'a_'` is true, and so is `'abc' ENDS WITH '%c'`. -/
theorem not_cypherLiteral_underscore :
    ¬ CypherLiteral searchPostgres "a_" ∧ ¬ CypherLiteral searchPostgres "%c" := by
  constructor
  · rw [cypherLiteral_iff searchServer]
    intro h
    have hverbatim := (compiledSearch_startsWith_iff "a_").mp (h .startsWith (by decide))
    have hmem : '_' ∈ "a_".toList := by simp
    exact (hverbatim _ hmem).2.1 rfl
  · rw [cypherLiteral_iff searchServer]
    intro h
    have hverbatim := (compiledSearch_endsWith_iff "%c").mp (h .endsWith (by decide))
    have hmem : '%' ∈ "%c".toList := by simp
    exact (hverbatim _ hmem).1 rfl

end Example

end OntologicalDb.StringPredicates
