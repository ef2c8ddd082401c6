import OntologicalDb.ExceptRules
import OntologicalDb.TypeqlPipeline

/-!
A pipeline as its stages read: each consumes what the one before it produced.
-/

namespace OntologicalDb.TypeqlPipelineOrder

open OntologicalDb.ExceptRules
open OntologicalDb.TypeqlSyntax
open OntologicalDb.TypeqlPipeline

/-- What a stage makes of documents, and a write inside a sub-fetch of its rows: no query that is
run gets there. -/
structure Reading extends Meaning where
  late : Stage → List Doc → List Doc
  inner : Writing → List Row → List Row

/-- The patterns of the matches a query starts with. -/
def leadingPats (q : Query) : List Pat :=
  (q.takeWhile Stage.isMatching).flatMap Stage.patterns

section Reference

variable (D : Reading)

mutual

/-- The document of a row. -/
def docOf (σ : D.State) (r : D.Row) : List (String × FetchVal) → List (String × D.Doc)
  | [] => []
  | (k, v) :: doc => (k, valOf σ r v) :: docOf σ r doc

def valOf (σ : D.State) (r : D.Row) : FetchVal → D.Doc
  | .expr e => D.expr σ e r
  | .attrList v a => D.attrList σ v a r
  | .doc entries => D.object r (docOf σ r entries)
  | .subFetch q => D.array (subFlow σ [r] q)

/-- The stages of a sub-fetch, from left to right. -/
def subFlow (σ : D.State) (rows : List D.Row) : List Stage → List D.Doc
  | [] => rows.map D.whole
  | .matching pats :: q => subFlow σ (rows.flatMap (D.extend σ pats)) q
  | .shaping s :: q => subFlow σ (D.shape s rows) q
  | .writing w :: q => subFlow σ (D.inner w rows) q
  | .fetch doc :: q =>
      q.foldl (fun docs stage => D.late stage docs)
        (rows.map fun r => D.object r (docOf σ r doc))

end

/-- Writes on one row after the other, each row through all of them. -/
def writeAll (ws : List Writing) : List D.Row → D.State → Nat →
    Except String (D.State × Nat × List D.Row)
  | [], σ, n => return (σ, n, [])
  | r :: rows, σ, n => do
      let (σ, r) ← ws.foldlM (fun env w => D.write w env) (σ, r)
      let (σ, n, rows) ← writeAll ws rows σ (n + ws.length)
      return (σ, n, r :: rows)

/-- The stages from left to right; the writes that follow one another are one pass over the
rows. -/
def flow : List Stage → List Writing → List D.Row → D.State → Nat →
    Except String (D.State × Nat × (List D.Row ⊕ List D.Doc))
  | [], ws, rows, σ, n => do
      let (σ, n, rows) ← writeAll D ws rows σ n
      return (σ, n, .inl rows)
  | .writing w :: q, ws, rows, σ, n => flow q (ws ++ [w]) rows σ n
  | .matching pats :: q, ws, rows, σ, n => do
      let (σ, n, rows) ← writeAll D ws rows σ n
      flow q [] (rows.flatMap (D.extend σ pats)) σ n
  | .shaping s :: q, ws, rows, σ, n => do
      let (σ, n, rows) ← writeAll D ws rows σ n
      flow q [] (D.shape s rows) σ n
  | .fetch doc :: q, ws, rows, σ, n => do
      let (σ, n, rows) ← writeAll D ws rows σ n
      return (σ, n, .inr (q.foldl (fun docs stage => D.late stage docs)
        (rows.map fun r => D.object r (docOf D σ r doc))))

variable {S : Type} (C : Compilation S)

/-- The rows of the matches a query starts with: their patterns are one conjunction. -/
def leadingRows (σ : D.State) (q : Query) : List D.Row :=
  if leadingPats q = [] then [D.start]
  else D.product ((C.components (leadingPats q)).map (D.group σ))

/-- A query, each of its stages on what the one before it produced. -/
def inOrder (σ : D.State) (q : Query) : Except String (Outcome D.toMeaning) := do
  let (σ, n, out) ← flow D (q.dropWhile Stage.isMatching) [] (leadingRows D C σ q) σ 0
  match out with
  | .inr docs => return .documents docs
  | .inl rows =>
      return if isWrite q then .written σ rows.length n else .documents (rows.map D.whole)

end Reference

/-- Whatever the stages mean, a query that is accepted does what its stages do in order. -/
def Follows {S : Type} (C : Compilation S) (q : Query) : Prop :=
  ∀ (D : Reading) (σ : D.State) (o : Outcome D.toMeaning),
    runQuery D.toMeaning C σ q = .ok o → inOrder D C σ q = .ok o

/-- The query is accepted where the database plays along. -/
def Accepted {S : Type} (C : Compilation S) (q : Query) : Prop :=
  ∃ (D : Reading) (σ : D.State) (o : Outcome D.toMeaning), runQuery D.toMeaning C σ q = .ok o

/-! The queries whose stages the executor meets in the order it takes them -/

mutual

/-- Sub-fetches consist of matches and one `fetch` behind them. -/
def docOrdered : List (String × FetchVal) → Bool
  | [] => true
  | (_, v) :: doc => valOrdered v && docOrdered doc

def valOrdered : FetchVal → Bool
  | .expr _ => true
  | .attrList _ _ => true
  | .doc entries => docOrdered entries
  | .subFetch q => subOrdered q

def subOrdered : List Stage → Bool
  | [] => false
  | .matching _ :: q => subOrdered q
  | .shaping _ :: _ => false
  | .writing _ :: _ => false
  | .fetch doc :: q => q.isEmpty && docOrdered doc

end

/-- Behind the matches of a read: stages that reshape its rows, then at most one `fetch`. -/
def restOrdered : Query → Bool
  | [] => true
  | .matching _ :: _ => false
  | .shaping _ :: q => restOrdered q
  | .writing _ :: _ => false
  | .fetch doc :: q => q.isEmpty && docOrdered doc

/-- Every group of patterns binds a variable. -/
def bindsAll {S : Type} (C : Compilation S) (gs : List (List Pat)) : Bool :=
  gs.all fun g =>
    match C.compilePatterns C.start g with
    | .ok c => C.boundVars c ≠ []
    | .error _ => false

/-- The matches come first and all their groups bind variables; behind them a write has writes
only, and a read only stages that reshape its rows and at most one `fetch`, at its end. -/
def Ordered {S : Type} (C : Compilation S) (q : Query) : Prop :=
  (let rest := q.dropWhile Stage.isMatching
    if isWrite q then rest.all Stage.isWriting else restOrdered rest) ∧
    (leadingPats q ≠ [] → bindsAll C (C.components (leadingPats q)))

/-! What the executor does in order -/

section Follow

variable {S : Type} {C : Compilation S} {D : Reading} {σ : D.State}

/-- The matches of a sub-fetch. -/
def matchesOf (q : List Stage) : List (List Pat) :=
  (q.filter Stage.isMatching).map Stage.patterns

theorem fetchObject_cons_eq_ok {c c' : S} {k : String} {v : FetchVal}
    {doc : List (String × FetchVal)} {items : List (String × Item)}
    (h : fetchObject C c ((k, v) :: doc) = .ok (c', items)) :
    ∃ c₁ item rest, fetchVal C c v = .ok (c₁, item) ∧ fetchObject C c₁ doc = .ok (c', rest) ∧
      items = (k, item) :: rest := by
  rw [fetchObject] at h
  obtain ⟨⟨c₁, item⟩, hval, h⟩ := bind_eq_ok.mp h
  obtain ⟨⟨c₂, rest⟩, hdoc, h⟩ := bind_eq_ok.mp h
  obtain ⟨rfl, rfl⟩ := Prod.mk.inj (pure_eq_ok.mp h)
  exact ⟨c₁, item, rest, hval, hdoc, rfl⟩

theorem fetchVal_subFetch_eq_ok {c c' : S} {q : List Stage} {item : Item}
    (h : fetchVal C c (.subFetch q) = .ok (c', item)) :
    ∃ inner item', firstFetch C inner q = .ok item' ∧ item = .array (matchesOf q) item' := by
  rw [fetchVal] at h
  obtain ⟨inner, -, h⟩ := bind_eq_ok.mp h
  split at h
  · cases h
  · obtain ⟨item', hfetch, h⟩ := bind_eq_ok.mp h
    obtain ⟨-, rfl⟩ := Prod.mk.inj (pure_eq_ok.mp h)
    exact ⟨inner, item', hfetch, rfl⟩

theorem firstFetch_fetch_eq_ok {c : S} {doc : List (String × FetchVal)} {q : List Stage}
    {item : Item} (h : firstFetch C c (.fetch doc :: q) = .ok item) :
    ∃ c' items, fetchObject C c doc = .ok (c', items) ∧ item = .object items := by
  rw [firstFetch] at h
  obtain ⟨⟨c', items⟩, hdoc, h⟩ := bind_eq_ok.mp h
  exact ⟨c', items, hdoc, (pure_eq_ok.mp h).symm⟩

/-- The documents of sub-fetches that consist of matches and a `fetch`. -/
theorem doc_follows :
    (∀ (r : D.Row) (doc : List (String × FetchVal)) (c c' : S) (items : List (String × Item)),
      fetchObject C c doc = .ok (c', items) → docOrdered doc = true →
        D.entries σ r items = docOf D σ r doc) ∧
    (∀ (r : D.Row) (v : FetchVal) (c c' : S) (item : Item),
      fetchVal C c v = .ok (c', item) → valOrdered v = true →
        D.item σ r item = valOf D σ r v) ∧
    ∀ (rows : List D.Row) (q : List Stage) (c : S) (item : Item),
      firstFetch C c q = .ok item → subOrdered q = true →
        (D.extendAll σ (matchesOf q) rows).map (fun r => D.item σ r item) =
          subFlow D σ rows q := by
  apply docOf.mutual_induct D σ
    (fun r doc => ∀ (c c' : S) (items : List (String × Item)),
      fetchObject C c doc = .ok (c', items) → docOrdered doc = true →
        D.entries σ r items = docOf D σ r doc)
    (fun r v => ∀ (c c' : S) (item : Item),
      fetchVal C c v = .ok (c', item) → valOrdered v = true →
        D.item σ r item = valOf D σ r v)
    (fun rows q => ∀ (c : S) (item : Item),
      firstFetch C c q = .ok item → subOrdered q = true →
        (D.extendAll σ (matchesOf q) rows).map (fun r => D.item σ r item) =
          subFlow D σ rows q)
  · intro r e c c' item h _
    rw [fetchVal] at h
    obtain ⟨c₁, -, h⟩ := bind_eq_ok.mp h
    obtain ⟨-, rfl⟩ := Prod.mk.inj (pure_eq_ok.mp h)
    rw [Meaning.item, valOf]
  · intro r v a c c' item h _
    rw [fetchVal] at h
    obtain ⟨c₁, -, h⟩ := bind_eq_ok.mp h
    obtain ⟨-, rfl⟩ := Prod.mk.inj (pure_eq_ok.mp h)
    rw [Meaning.item, valOf]
  · intro r entries ih c c' item h hordered
    rw [fetchVal] at h
    obtain ⟨⟨c₁, items⟩, hdoc, h⟩ := bind_eq_ok.mp h
    obtain ⟨-, rfl⟩ := Prod.mk.inj (pure_eq_ok.mp h)
    rw [Meaning.item, valOf, ih c c₁ items hdoc hordered]
  · intro r q ih c c' item h hordered
    obtain ⟨inner, item', hfetch, rfl⟩ := fetchVal_subFetch_eq_ok h
    rw [Meaning.item, valOf, ← ih inner item' hfetch hordered]
  · intro r c c' items h _
    rw [fetchObject] at h
    obtain ⟨-, rfl⟩ := Prod.mk.inj (pure_eq_ok.mp h)
    rw [Meaning.entries, docOf]
  · intro r k v doc ihv ihdoc c c' items h hordered
    obtain ⟨c₁, item, rest, hval, hdoc, rfl⟩ := fetchObject_cons_eq_ok h
    rw [docOrdered, Bool.and_eq_true] at hordered
    rw [Meaning.entries, docOf, ihv c c₁ item hval hordered.1, ihdoc c₁ c' rest hdoc hordered.2]
  · intro rows c item h hordered
    cases hordered
  · intro rows pats q ih c item h hordered
    rw [firstFetch] at h
    rw [subFlow, ← ih c item h hordered]
    rfl
  · intro rows s q _ c item _ hordered
    cases hordered
  · intro rows w q _ c item _ hordered
    cases hordered
  · intro rows doc q ih c item h hordered
    obtain ⟨c', items, hdoc, rfl⟩ := firstFetch_fetch_eq_ok h
    rw [subOrdered, Bool.and_eq_true, List.isEmpty_iff] at hordered
    obtain ⟨rfl, hordered⟩ := hordered
    rw [subFlow]
    apply List.map_congr_left
    intro r _
    rw [Meaning.item, ih r c c' items hdoc hordered]

theorem writeAll_nil (rows : List D.Row) (n : Nat) :
    writeAll D [] rows σ n = .ok (σ, n, rows) := by
  induction rows with
  | nil => rfl
  | cons r rows ih =>
      rw [writeAll, List.foldlM_nil]
      change (do
        let x ← writeAll D [] rows σ n
        return (x.1, x.2.1, r :: x.2.2) : Except String _) = _
      rw [ih]
      rfl

attribute [local simp] flow

/-- Where no writes are pending, a stage reads the rows there are. -/
theorem flow_matching (pats : List Pat) (q : List Stage) (rows : List D.Row) (n : Nat) :
    flow D (.matching pats :: q) [] rows σ n = flow D q [] (rows.flatMap (D.extend σ pats)) σ n := by
  rw [flow, writeAll_nil]
  rfl

theorem flow_shaping (s : Shaping) (q : List Stage) (rows : List D.Row) (n : Nat) :
    flow D (.shaping s :: q) [] rows σ n = flow D q [] (D.shape s rows) σ n := by
  rw [flow, writeAll_nil]
  rfl

theorem flow_fetch (doc : List (String × FetchVal)) (q : List Stage) (rows : List D.Row) (n : Nat) :
    flow D (.fetch doc :: q) [] rows σ n =
      .ok (σ, n, .inr (q.foldl (fun docs stage => D.late stage docs)
        (rows.map fun r => D.object r (docOf D σ r doc)))) := by
  rw [flow, writeAll_nil]
  rfl

theorem flow_nil (rows : List D.Row) (n : Nat) : flow D [] [] rows σ n = .ok (σ, n, .inl rows) := by
  rw [flow, writeAll_nil]
  rfl

/-- What a read returns of what its stages end with. -/
def Reading.docs (D : Reading) : List D.Row ⊕ List D.Doc → List D.Doc
  | .inl rows => rows.map D.whole
  | .inr docs => docs

theorem rest_follows {q : Query} {p : Projected S} {st : Statement} {n : Nat}
    (h : compileStages C q p = .ok st) (hordered : restOrdered q = true) :
    ∃ out, flow D q [] (D.rows σ p.sql) σ n = .ok (σ, n, out) ∧ D.exec σ st = D.docs out := by
  induction q generalizing p with
  | nil =>
      obtain rfl := pure_eq_ok.mp h
      exact ⟨.inl (D.rows σ p.sql), flow_nil _ n, rfl⟩
  | cons stage q ih =>
      cases stage with
      | matching pats => cases hordered
      | shaping s =>
          rw [compileStages] at h
          obtain ⟨cols, -, h⟩ := bind_eq_ok.mp h
          obtain ⟨out, hflow, hdocs⟩ := ih h hordered
          exact ⟨out, (flow_shaping s q _ n).trans hflow, hdocs⟩
      | writing w => cases hordered
      | fetch doc =>
          rw [compileStages] at h
          obtain ⟨⟨c', items⟩, hdoc, h⟩ := bind_eq_ok.mp h
          obtain rfl := pure_eq_ok.mp h
          rw [restOrdered, Bool.and_eq_true, List.isEmpty_iff] at hordered
          obtain ⟨rfl, hordered⟩ := hordered
          refine ⟨.inr ((D.rows σ p.sql).map fun r => D.object r (docOf D σ r doc)),
            flow_fetch doc [] _ n, ?_⟩
          rw [Meaning.exec, Reading.docs]
          apply List.map_congr_left
          intro r _
          rw [Meaning.item, doc_follows.1 r doc _ c' items hdoc hordered]

/-! The matches a query starts with -/

theorem compileGroups_eq_ok {gs : List (List Pat)} {parts : List (List Pat × S)}
    (h : compileGroups C gs = .ok parts) :
    parts.map Prod.fst = gs.filter (fun g => bindsAll C [g]) := by
  induction gs generalizing parts with
  | nil =>
      obtain rfl := pure_eq_ok.mp h
      rfl
  | cons g gs ih =>
      rw [compileGroups] at h
      obtain ⟨c, hc, h⟩ := bind_eq_ok.mp h
      obtain ⟨rest, hrest, h⟩ := bind_eq_ok.mp h
      obtain rfl := pure_eq_ok.mp h
      rw [List.filter_cons, ← ih hrest]
      by_cases hbound : C.boundVars c = []
      · rw [if_pos hbound, if_neg (by simp [bindsAll, hc, hbound])]
      · rw [if_neg hbound, if_pos (by simp [bindsAll, hc, hbound])]
        rfl

theorem bindsAll_iff {gs : List (List Pat)} :
    bindsAll C gs = true ↔ gs.filter (fun g => bindsAll C [g]) = gs := by
  rw [List.filter_eq_self]
  simp [bindsAll]

theorem compileMatch_eq_ok {q : Query} {p : Projected S} (h : compileMatch C q = .ok p) :
    q.flatMap Stage.patterns ≠ [] ∧ ∃ parts, compileGroups C
      (C.components (q.flatMap Stage.patterns)) = .ok parts ∧ parts ≠ [] ∧
        p.sql = .groups (parts.map Prod.fst) := by
  rw [compileMatch] at h
  dsimp only at h
  split at h
  · cases h
  · next hpats =>
    obtain ⟨parts, hparts, h⟩ := bind_eq_ok.mp h
    split at h
    · cases h
    · next hcols =>
      obtain rfl := pure_eq_ok.mp h
      refine ⟨hpats, parts, hparts, ?_, rfl⟩
      rintro rfl
      exact hcols rfl

/-- No match comes behind a stage of another kind. -/
theorem flatMap_patterns {q : Query}
    (h : ∀ stage ∈ q.dropWhile Stage.isMatching, stage.isMatching = false) :
    q.flatMap Stage.patterns = leadingPats q := by
  conv_lhs => rw [← List.takeWhile_append_dropWhile (p := Stage.isMatching) (l := q)]
  rw [List.flatMap_append]
  have hnone : (q.dropWhile Stage.isMatching).flatMap Stage.patterns = [] := by
    rw [List.flatMap_eq_nil_iff]
    intro stage hstage
    have hno := h stage hstage
    cases stage with
    | matching pats => cases hno
    | shaping s => rfl
    | writing w => rfl
    | fetch doc => rfl
  rw [hnone, List.append_nil, leadingPats]

theorem rows_leading {q q' : Query} {p : Projected S} (h : compileMatch C q' = .ok p)
    (hpats : q'.flatMap Stage.patterns = leadingPats q)
    (hbinds : bindsAll C (C.components (leadingPats q)) = true) :
    D.rows σ p.sql = leadingRows D C σ q := by
  obtain ⟨hne, parts, hparts, -, hsql⟩ := compileMatch_eq_ok h
  rw [hpats] at hne hparts
  rw [hsql, Meaning.rows, compileGroups_eq_ok hparts, bindsAll_iff.mp hbinds, leadingRows,
    if_neg hne]

theorem compileStages_dropWhile (q : Query) (p : Projected S) :
    compileStages C q p = compileStages C (q.dropWhile Stage.isMatching) p := by
  induction q with
  | nil => rfl
  | cons stage q ih =>
      cases stage with
      | matching pats =>
          rw [compileStages, ih]
          rfl
      | shaping s => rfl
      | writing w => rfl
      | fetch doc => rfl

theorem isMatching_of_restOrdered {q : Query} (h : restOrdered q = true) :
    ∀ stage ∈ q, stage.isMatching = false := by
  induction q with
  | nil =>
      intro stage hstage
      cases hstage
  | cons stage q ih =>
      cases stage with
      | matching pats => cases h
      | shaping s => exact List.forall_mem_cons.mpr ⟨rfl, ih h⟩
      | writing w => cases h
      | fetch doc =>
          rw [restOrdered, Bool.and_eq_true, List.isEmpty_iff] at h
          obtain ⟨rfl, -⟩ := h
          exact List.forall_mem_singleton.mpr rfl

theorem read_follows {q : Query} (hread : isWrite q = false) (hordered : Ordered C q)
    {o : Outcome D.toMeaning} (h : runQuery D.toMeaning C σ q = .ok o) :
    inOrder D C σ q = .ok o := by
  obtain ⟨hrest, hbinds⟩ := hordered
  simp only [hread, Bool.false_eq_true, if_false] at hrest
  rw [runQuery, hread, if_neg Bool.false_ne_true] at h
  obtain ⟨st, hst, h⟩ := bind_eq_ok.mp h
  obtain rfl := pure_eq_ok.mp h
  rw [compileRead] at hst
  obtain ⟨p, hp, hst⟩ := bind_eq_ok.mp hst
  rw [compileStages_dropWhile] at hst
  have hpats := flatMap_patterns (isMatching_of_restOrdered hrest)
  have hne := (compileMatch_eq_ok hp).1
  rw [hpats] at hne
  obtain ⟨out, hflow, hdocs⟩ := @rest_follows _ _ D σ _ _ _ 0 hst hrest
  rw [rows_leading hp hpats (hbinds hne)] at hflow
  rw [inOrder, hflow, hdocs]
  cases out with
  | inl rows =>
      simp only [hread]
      rfl
  | inr docs => rfl

/-! Writes -/

theorem writeRow_writing (ws : List Writing) (env : D.State × D.Row) (n : Nat) :
    writeRow D.toMeaning (ws.map Stage.writing) env n = (do
      let env ← ws.foldlM (fun env w => D.write w env) env
      return (env.1, n + ws.length) : Except String (D.State × Nat)) := by
  induction ws generalizing env n with
  | nil => rfl
  | cons w ws ih =>
      rw [List.map_cons, writeRow, List.foldlM_cons]
      cases hw : D.write w env with
      | error e => rfl
      | ok env' =>
          change writeRow D.toMeaning (ws.map Stage.writing) env' (n + 1) = _
          rw [ih, List.length_cons, Nat.add_right_comm, Nat.add_assoc]
          rfl

theorem writeRow_dropWhile (q : Query) (env : D.State × D.Row) (n : Nat) :
    writeRow D.toMeaning q env n = writeRow D.toMeaning (q.dropWhile Stage.isMatching) env n := by
  induction q with
  | nil => rfl
  | cons stage q ih =>
      cases stage with
      | matching pats =>
          rw [writeRow, ih]
          rfl
      | shaping s => rfl
      | writing w => rfl
      | fetch doc => rfl

theorem writeRows_writing {q : Query} {ws : List Writing} {σ' : D.State} {n n' : Nat}
    (hq : q.dropWhile Stage.isMatching = ws.map Stage.writing) {rows : List D.Row}
    (h : writeRows D.toMeaning q rows σ n = .ok (σ', n')) :
    ∃ rows', writeAll D ws rows σ n = .ok (σ', n', rows') ∧ rows'.length = rows.length := by
  induction rows generalizing σ n with
  | nil =>
      obtain ⟨rfl, rfl⟩ := Prod.mk.inj (pure_eq_ok.mp h)
      exact ⟨[], rfl, rfl⟩
  | cons r rows ih =>
      rw [writeRows, writeRow_dropWhile, hq, writeRow_writing] at h
      obtain ⟨⟨σ₁, n₁⟩, hrow, h⟩ := bind_eq_ok.mp h
      obtain ⟨env, henv, hrow⟩ := bind_eq_ok.mp hrow
      obtain ⟨rfl, rfl⟩ := Prod.mk.inj (pure_eq_ok.mp hrow)
      obtain ⟨rows', hrows, hlength⟩ := ih h
      refine ⟨env.2 :: rows', ?_, by rw [List.length_cons, List.length_cons, hlength]⟩
      rw [writeAll, henv]
      change (do
        let x ← writeAll D ws rows env.1 (n + ws.length)
        return (x.1, x.2.1, env.2 :: x.2.2) : Except String _) = _
      rw [hrows]
      rfl

theorem flow_writing (ws ws' : List Writing) (rows : List D.Row) (n : Nat) :
    flow D (ws.map Stage.writing) ws' rows σ n = (do
      let x ← writeAll D (ws' ++ ws) rows σ n
      return (x.1, x.2.1, .inl x.2.2) : Except String _) := by
  induction ws generalizing ws' with
  | nil =>
      rw [List.append_nil]
      rfl
  | cons w ws ih =>
      rw [List.map_cons, flow, ih, List.append_assoc]
      rfl

theorem exists_writing {q : Query} (h : q.all Stage.isWriting = true) :
    ∃ ws : List Writing, q = ws.map Stage.writing := by
  induction q with
  | nil => exact ⟨[], rfl⟩
  | cons stage q ih =>
      rw [List.all_cons, Bool.and_eq_true] at h
      obtain ⟨ws, rfl⟩ := ih h.2
      cases stage with
      | writing w => exact ⟨w :: ws, rfl⟩
      | matching pats => cases h.1
      | shaping s => cases h.1
      | fetch doc => cases h.1

theorem flatMap_filter (q : Query) :
    (q.filter Stage.isMatching).flatMap Stage.patterns = q.flatMap Stage.patterns := by
  induction q with
  | nil => rfl
  | cons stage q ih =>
      cases stage with
      | matching pats =>
          rw [List.filter_cons_of_pos rfl, List.flatMap_cons, List.flatMap_cons, ih]
      | shaping s => exact ih
      | writing w => exact ih
      | fetch doc => exact ih

theorem runQuery_write_eq_ok {q : Query} (hwrite : isWrite q = true) {o : Outcome D.toMeaning}
    (h : runQuery D.toMeaning C σ q = .ok o) :
    ∃ rows σ' n, writeStart D.toMeaning C σ q = .ok rows ∧
      writeRows D.toMeaning q rows σ 0 = .ok (σ', n) ∧ o = .written σ' rows.length n := by
  rw [runQuery, hwrite, if_pos rfl, runWritePipeline] at h
  obtain ⟨rows, hrows, h⟩ := bind_eq_ok.mp h
  obtain ⟨⟨σ', n⟩, hrun, h⟩ := bind_eq_ok.mp h
  exact ⟨rows, σ', n, hrows, hrun, (pure_eq_ok.mp h).symm⟩

theorem write_follows {q : Query} (hwrite : isWrite q = true) (hordered : Ordered C q)
    {o : Outcome D.toMeaning} (h : runQuery D.toMeaning C σ q = .ok o) :
    inOrder D C σ q = .ok o := by
  obtain ⟨hrest, hbinds⟩ := hordered
  simp only [hwrite, if_true] at hrest
  obtain ⟨ws, hws⟩ := exists_writing hrest
  obtain ⟨rows, σ', n, hstart, hrun, rfl⟩ := runQuery_write_eq_ok hwrite h
  have hlead : q.flatMap Stage.patterns = leadingPats q := by
    apply flatMap_patterns
    rw [hws]
    intro stage hstage
    obtain ⟨w, -, rfl⟩ := List.mem_map.mp hstage
    rfl
  have hrows : rows = leadingRows D C σ q := by
    rw [writeStart] at hstart
    split at hstart
    · obtain ⟨p, hp, hstart⟩ := bind_eq_ok.mp hstart
      obtain rfl := pure_eq_ok.mp hstart
      have hne := (compileMatch_eq_ok hp).1
      rw [flatMap_filter, hlead] at hne
      exact rows_leading hp ((flatMap_filter q).trans hlead) (hbinds hne)
    · next hnone =>
      obtain rfl := pure_eq_ok.mp hstart
      have hnil : leadingPats q = [] := by
        rw [← hlead, List.flatMap_eq_nil_iff]
        intro stage hstage
        cases stage with
        | matching pats => exact absurd (List.any_eq_true.mpr ⟨_, hstage, rfl⟩) hnone
        | shaping s => rfl
        | writing w => rfl
        | fetch doc => rfl
      rw [leadingRows, if_pos hnil]
  obtain ⟨rows', hall, hlength⟩ := writeRows_writing hws hrun
  rw [inOrder, hws, flow_writing, List.nil_append, ← hrows, hall, ← hlength]
  simp only [hwrite]
  rfl

end Follow

/-! What the executor takes out of order -/

/-- What has happened to a row. -/
inductive Mark
  | group (g : List Pat)
  | extend (pats : List Pat)
  | shape (s : Shaping)
  | inner (w : Writing)

/-- A document by how it was built. -/
inductive Built
  | expr (e : Expr) (r : List Mark)
  | attrList (v a : String) (r : List Mark)
  | object (r : List Mark) (entries : List (String × Built))
  | array (docs : List Built)
  | whole (r : List Mark)
  | late (doc : Built)

/-- The reading in which a row is what has happened to it. -/
abbrev traced : Reading where
  State := Unit
  Row := List Mark
  Doc := Built
  start := []
  join r r' := r ++ r'
  group _ g := [[.group g]]
  extend _ pats r := [r ++ [.extend pats]]
  shape s rows := rows.map fun r => r ++ [.shape s]
  expr _ e r := .expr e r
  attrList _ v a r := .attrList v a r
  object r entries := .object r entries
  array docs := .array docs
  whole r := .whole r
  write _ env := .ok env
  late _ docs := docs.map .late
  inner w rows := rows.map fun r => r ++ [.inner w]

section Traced

variable {S : Type} {C : Compilation S}

theorem extendAll_traced (pats : List (List Pat)) (r : List Mark) :
    traced.extendAll () pats [r] = [r ++ pats.map Mark.extend] := by
  induction pats generalizing r with
  | nil =>
      rw [List.map_nil, List.append_nil]
      rfl
  | cons ps pats ih =>
      change traced.extendAll () pats [r ++ [Mark.extend ps]] = _
      rw [ih, List.append_assoc]
      rfl

theorem late_traced {q : List Stage} {docs : List Built} {r : List Mark}
    {entries : List (String × Built)}
    (h : [Built.object r entries] = q.foldl (fun docs stage => traced.late stage docs) docs) :
    q = [] := by
  cases hq : q.reverse with
  | nil => exact List.reverse_eq_nil_iff.mp hq
  | cons stage front =>
      rw [← List.reverse_reverse q, hq, List.reverse_cons, List.foldl_append] at h
      change _ = (List.foldl _ docs front.reverse).map Built.late at h
      obtain ⟨doc, -, hdoc⟩ := List.mem_map.mp (h ▸ List.mem_singleton_self _)
      cases hdoc

/-- Where the documents agree, the sub-fetches consist of matches and a `fetch`. -/
theorem docOrdered_of_traced :
    (∀ (r : List Mark) (doc : List (String × FetchVal)) (c c' : S) (items : List (String × Item)),
      fetchObject C c doc = .ok (c', items) →
        traced.entries () r items = docOf traced () r doc → docOrdered doc = true) ∧
    (∀ (r : List Mark) (v : FetchVal) (c c' : S) (item : Item),
      fetchVal C c v = .ok (c', item) →
        traced.item () r item = valOf traced () r v → valOrdered v = true) ∧
    ∀ (rows : List (List Mark)) (q : List Stage) (c : S) (item : Item) (r m : List Mark)
        (e : List (List Pat)),
      firstFetch C c q = .ok item → rows = [r ++ m] →
        [traced.item () (r ++ e.map Mark.extend) item] = subFlow traced () rows q →
          e.map Mark.extend = m ++ (matchesOf q).map Mark.extend ∧ subOrdered q = true := by
  apply docOf.mutual_induct traced ()
    (fun r doc => ∀ (c c' : S) (items : List (String × Item)),
      fetchObject C c doc = .ok (c', items) →
        traced.entries () r items = docOf traced () r doc → docOrdered doc = true)
    (fun r v => ∀ (c c' : S) (item : Item),
      fetchVal C c v = .ok (c', item) →
        traced.item () r item = valOf traced () r v → valOrdered v = true)
    (fun rows q => ∀ (c : S) (item : Item) (r m : List Mark) (e : List (List Pat)),
      firstFetch C c q = .ok item → rows = [r ++ m] →
        [traced.item () (r ++ e.map Mark.extend) item] = subFlow traced () rows q →
          e.map Mark.extend = m ++ (matchesOf q).map Mark.extend ∧ subOrdered q = true)
  · intro r e c c' item _ _
    rfl
  · intro r v a c c' item _ _
    rfl
  · intro r entries ih c c' item h heq
    rw [fetchVal] at h
    obtain ⟨⟨c₁, items⟩, hdoc, h⟩ := bind_eq_ok.mp h
    obtain ⟨-, rfl⟩ := Prod.mk.inj (pure_eq_ok.mp h)
    rw [Meaning.item, valOf] at heq
    exact ih c c₁ items hdoc (Built.object.inj heq).2
  · intro r q ih c c' item h heq
    obtain ⟨inner, item', hfetch, rfl⟩ := fetchVal_subFetch_eq_ok h
    rw [Meaning.item, valOf, extendAll_traced] at heq
    exact (ih inner item' r [] (matchesOf q) hfetch (by rw [List.append_nil])
      (Built.array.inj heq)).2
  · intro r c c' items _ _
    rfl
  · intro r k v doc ihv ihdoc c c' items h heq
    obtain ⟨c₁, item, rest, hval, hdoc, rfl⟩ := fetchObject_cons_eq_ok h
    rw [Meaning.entries, docOf] at heq
    obtain ⟨hhead, htail⟩ := List.cons.inj heq
    rw [docOrdered, ihv c c₁ item hval (Prod.mk.inj hhead).2, ihdoc c₁ c' rest hdoc htail]
    rfl
  · intro rows c item r m e h _ _
    cases h
  · rintro rows pats q ih c item r m e h rfl heq
    rw [firstFetch] at h
    obtain ⟨hmarks, hordered⟩ := ih c item r (m ++ [Mark.extend pats]) e h
      (by rw [← List.append_assoc]; rfl) heq
    exact ⟨by rw [hmarks, List.append_assoc]; rfl, hordered⟩
  · rintro rows s q ih c item r m e h rfl heq
    rw [firstFetch] at h
    obtain ⟨hmarks, -⟩ := ih c item r (m ++ [Mark.shape s]) e h (by rw [← List.append_assoc]; rfl) heq
    have hmem : Mark.shape s ∈ e.map Mark.extend := by simp [hmarks]
    obtain ⟨pats, -, hpats⟩ := List.mem_map.mp hmem
    cases hpats
  · rintro rows w q ih c item r m e h rfl heq
    rw [firstFetch] at h
    obtain ⟨hmarks, -⟩ := ih c item r (m ++ [Mark.inner w]) e h (by rw [← List.append_assoc]; rfl) heq
    have hmem : Mark.inner w ∈ e.map Mark.extend := by simp [hmarks]
    obtain ⟨pats, -, hpats⟩ := List.mem_map.mp hmem
    cases hpats
  · rintro rows doc q ih c item r m e h rfl heq
    obtain ⟨c', items, hdoc, rfl⟩ := firstFetch_fetch_eq_ok h
    rw [Meaning.item, subFlow] at heq
    obtain rfl := late_traced heq
    obtain ⟨hrow, hentries⟩ := Built.object.inj (List.cons.inj heq).1
    have hmarks := List.append_cancel_left hrow
    rw [hmarks] at hentries
    refine ⟨by rw [hmarks]; exact (List.append_nil m).symm, ?_⟩
    rw [subOrdered, List.isEmpty_nil, Bool.true_and]
    exact ih (r ++ m) c c' items hdoc hentries

theorem restOrdered_of_traced {q : Query} {p : Projected S} {st : Statement} {t t' : List Mark}
    {n n' : Nat} {out : List traced.Row ⊕ List traced.Doc} (h : compileStages C q p = .ok st)
    (hrows : traced.rows () p.sql = [t]) (hextend : ∀ pats, Mark.extend pats ∉ t)
    (hflow : flow traced q [] [t'] () n = .ok ((), n', out))
    (hdocs : traced.exec () st = traced.docs out) : t = t' ∧ restOrdered q = true := by
  induction q generalizing p t t' with
  | nil =>
      obtain rfl := pure_eq_ok.mp h
      rw [flow_nil] at hflow
      obtain ⟨-, -, rfl⟩ := by simpa using hflow
      rw [Meaning.exec, hrows] at hdocs
      exact ⟨Built.whole.inj (List.cons.inj hdocs).1, rfl⟩
  | cons stage q ih =>
      cases stage with
      | matching pats =>
          rw [compileStages] at h
          rw [flow_matching] at hflow
          change flow traced q [] [t' ++ [Mark.extend pats]] () n = _ at hflow
          obtain ⟨rfl, -⟩ := ih h hrows hextend hflow
          exact absurd (by simp) (hextend pats)
      | shaping s =>
          rw [compileStages] at h
          obtain ⟨cols, -, h⟩ := bind_eq_ok.mp h
          rw [flow_shaping] at hflow
          change flow traced q [] [t' ++ [Mark.shape s]] () n = _ at hflow
          have hshaped : traced.rows () (.shaped s p.sql) = [t ++ [Mark.shape s]] := by
            rw [Meaning.rows, hrows]
            rfl
          obtain ⟨heq, hordered⟩ := ih h hshaped (by simpa using hextend) hflow
          exact ⟨List.append_cancel_right heq, hordered⟩
      | writing w => cases h
      | fetch doc =>
          rw [compileStages] at h
          obtain ⟨⟨c', items⟩, hdoc, h⟩ := bind_eq_ok.mp h
          obtain rfl := pure_eq_ok.mp h
          rw [flow_fetch] at hflow
          obtain ⟨-, -, rfl⟩ := by simpa using hflow
          rw [Meaning.exec, hrows] at hdocs
          obtain rfl := late_traced hdocs
          obtain ⟨rfl, hentries⟩ := Built.object.inj (List.cons.inj hdocs).1
          refine ⟨rfl, ?_⟩
          rw [restOrdered, List.isEmpty_nil, Bool.true_and]
          exact docOrdered_of_traced.1 _ doc _ c' items hdoc hentries

theorem product_traced (gs : List (List Pat)) :
    traced.product (gs.map (traced.group ())) = [gs.map Mark.group] := by
  induction gs with
  | nil => rfl
  | cons g gs ih =>
      rw [List.map_cons, Meaning.product, ih]
      rfl

theorem leadingRows_traced (q : Query) :
    leadingRows traced C () q =
      [if leadingPats q = [] then [] else (C.components (leadingPats q)).map Mark.group] := by
  rw [leadingRows]
  split
  · rfl
  · rw [product_traced]

/-- A read that follows its stages has them where the executor takes them. -/
theorem read_ordered {q : Query} (hread : isWrite q = false) (haccepted : Accepted C q)
    (hfollows : Follows C q) : Ordered C q := by
  obtain ⟨D, σ, o, haccepted⟩ := haccepted
  rw [runQuery, hread, if_neg Bool.false_ne_true] at haccepted
  obtain ⟨st, hst, -⟩ := bind_eq_ok.mp haccepted
  have hrun : runQuery traced.toMeaning C () q = .ok (.documents (traced.exec () st)) := by
    rw [runQuery, hread, if_neg Bool.false_ne_true, hst]
    rfl
  have horder := hfollows traced () _ hrun
  rw [inOrder] at horder
  obtain ⟨⟨σ', n, out⟩, hflow, horder⟩ := bind_eq_ok.mp horder
  rw [compileRead] at hst
  obtain ⟨p, hp, hst⟩ := bind_eq_ok.mp hst
  obtain ⟨hne, parts, hparts, -, hsql⟩ := compileMatch_eq_ok hp
  have hrows : traced.rows () p.sql = [(parts.map Prod.fst).map Mark.group] := by
    rw [hsql, Meaning.rows, product_traced]
  have hdocs : traced.exec () st = traced.docs out := by
    cases out with
    | inl rows =>
        simp only [hread] at horder
        exact (Outcome.documents.inj (pure_eq_ok.mp horder)).symm
    | inr docs => exact (Outcome.documents.inj (pure_eq_ok.mp horder)).symm
  rw [compileStages_dropWhile] at hst
  rw [leadingRows_traced] at hflow
  obtain ⟨hmarks, hrest⟩ := restOrdered_of_traced hst hrows (by simp) hflow hdocs
  have hlead := flatMap_patterns (isMatching_of_restOrdered hrest)
  rw [hlead] at hne hparts
  rw [if_neg hne] at hmarks
  have hgroups := List.map_injective_iff.mpr (fun _ _ => Mark.group.inj) hmarks
  constructor
  · simp only [hread, Bool.false_eq_true, if_false]
    exact hrest
  · intro _
    rw [bindsAll_iff, ← compileGroups_eq_ok hparts]
    exact hgroups

end Traced

/-- A reading that only counts rows: those of the groups, and those a row is extended to. -/
abbrev counted (keep : List Pat → Bool) (extended : List Unit) : Reading where
  State := Unit
  Row := Unit
  Doc := Unit
  start := ()
  join _ _ := ()
  group _ g := if keep g then [()] else []
  extend _ _ _ := extended
  shape _ _ := [()]
  expr _ _ _ := ()
  attrList _ _ _ _ := ()
  object _ _ := ()
  array _ := ()
  whole _ := ()
  write _ env := .ok env
  late _ docs := docs
  inner _ rows := rows

section Counted

variable {S : Type} {C : Compilation S} {keep : List Pat → Bool} {extended : List Unit}

/-- Whether a write meets a stage row by row. -/
def rowwise (stage : Stage) : Bool := stage.isMatching || stage.isWriting

theorem product_counted (gs : List (List Pat)) :
    (counted keep extended).product (gs.map ((counted keep extended).group ())) =
      if gs.all keep then [()] else [] := by
  induction gs with
  | nil => rfl
  | cons g gs ih =>
      rw [List.map_cons, Meaning.product, ih, List.all_cons]
      show (if keep g then [()] else []).flatMap _ = _
      cases keep g <;> cases gs.all keep <;> rfl

theorem writeAll_counted (ws : List Writing) (rows : List Unit) (n : Nat) :
    ∃ n', writeAll (counted keep extended) ws rows () n = .ok ((), n', rows) := by
  have hone : ∀ ws : List Writing,
      ws.foldlM (fun env w => (counted keep extended).write w env) ((), ()) = .ok ((), ()) := by
    intro ws
    induction ws with
    | nil => rfl
    | cons w ws ih => exact ih
  induction rows generalizing n with
  | nil => exact ⟨n, rfl⟩
  | cons r rows ih =>
      obtain ⟨n', hrest⟩ := ih (n + ws.length)
      refine ⟨n', ?_⟩
      rw [writeAll, hone ws]
      change (do
        let x ← writeAll (counted keep extended) ws rows () (n + ws.length)
        return (x.1, x.2.1, () :: x.2.2) : Except String _) = _
      rw [hrest]
      rfl

theorem writeRow_counted {q : Query} (h : ∀ stage ∈ q, rowwise stage = true) (n : Nat) :
    ∃ n', writeRow (counted keep extended).toMeaning q ((), ()) n = .ok ((), n') := by
  induction q generalizing n with
  | nil => exact ⟨n, rfl⟩
  | cons stage q ih =>
      obtain ⟨hstage, hrest⟩ := List.forall_mem_cons.mp h
      cases stage with
      | matching pats => exact ih hrest n
      | writing w => exact ih hrest (n + 1)
      | shaping s => cases hstage
      | fetch doc => cases hstage

/-- A row that is written meets no other stages. -/
theorem rowwise_of_writeRow {D : Meaning} {q : Query} {env : D.State × D.Row} {n : Nat}
    {res : D.State × Nat} (h : writeRow D q env n = .ok res) :
    ∀ stage ∈ q, rowwise stage = true := by
  induction q generalizing env n with
  | nil =>
      intro stage hstage
      cases hstage
  | cons stage q ih =>
      cases stage with
      | matching pats => exact List.forall_mem_cons.mpr ⟨rfl, ih h⟩
      | writing w =>
          rw [writeRow] at h
          obtain ⟨env', -, h⟩ := bind_eq_ok.mp h
          exact List.forall_mem_cons.mpr ⟨rfl, ih h⟩
      | shaping s => cases h
      | fetch doc => cases h

theorem flow_counted_shaping (s : Shaping) (q : Query) (ws : List Writing) (rows : List Unit)
    (n : Nat) : ∃ n', flow (counted keep extended) (.shaping s :: q) ws rows () n =
      flow (counted keep extended) q [] [()] () n' := by
  obtain ⟨n', hall⟩ := writeAll_counted ws rows n
  refine ⟨n', ?_⟩
  rw [flow, hall]
  rfl

theorem flow_counted_matching (pats : List Pat) (q : Query) (ws : List Writing)
    (rows : List Unit) (n : Nat) :
    ∃ n', flow (counted keep extended) (.matching pats :: q) ws rows () n =
      flow (counted keep extended) q [] (rows.flatMap fun _ => extended) () n' := by
  obtain ⟨n', hall⟩ := writeAll_counted ws rows n
  refine ⟨n', ?_⟩
  rw [flow, hall]
  rfl

theorem flow_counted_nil (ws : List Writing) (rows : List Unit) (n : Nat) :
    ∃ n', flow (counted keep extended) [] ws rows () n = .ok ((), n', .inl rows) := by
  obtain ⟨n', hall⟩ := writeAll_counted ws rows n
  refine ⟨n', ?_⟩
  rw [flow, hall]
  rfl

theorem flow_counted_fetch (doc : List (String × FetchVal)) (q : Query) (ws : List Writing)
    (rows : List Unit) (n : Nat) : ∃ n' docs,
      flow (counted keep extended) (.fetch doc :: q) ws rows () n = .ok ((), n', .inr docs) := by
  obtain ⟨n', hall⟩ := @writeAll_counted keep extended ws rows n
  rw [flow, hall]
  exact ⟨n', _, rfl⟩

/-- Where each row has one extension, only a stage that reshapes the rows changes how many there
are. -/
theorem flow_counted_one {q : Query} {ws : List Writing} {rows rows' : List Unit} {n n' : Nat}
    (h : flow (counted keep [()]) q ws rows () n = .ok ((), n', .inl rows')) :
    rows' = if q.all rowwise then rows else [()] := by
  induction q generalizing ws rows n with
  | nil =>
      obtain ⟨n₁, heq⟩ := @flow_counted_nil keep [()] ws rows n
      rw [heq] at h
      exact (Sum.inl.inj (Prod.mk.inj (Prod.mk.inj (Except.ok.inj h)).2).2).symm
  | cons stage q ih =>
      cases stage with
      | matching pats =>
          obtain ⟨n₁, heq⟩ := @flow_counted_matching keep [()] pats q ws rows n
          rw [heq, List.flatMap_singleton'] at h
          exact ih h
      | shaping s =>
          obtain ⟨n₁, heq⟩ := @flow_counted_shaping keep [()] s q ws rows n
          rw [heq] at h
          rw [ih h]
          exact ite_self _
      | writing w => exact ih h
      | fetch doc =>
          obtain ⟨n₁, docs, heq⟩ := @flow_counted_fetch keep [()] doc q ws rows n
          rw [heq] at h
          cases h

/-- Where no row has an extension, a match leaves none. -/
theorem flow_counted_none {q : Query} (hq : ∀ stage ∈ q, rowwise stage = true)
    {ws : List Writing} {rows rows' : List Unit} {n n' : Nat}
    (h : flow (counted keep []) q ws rows () n = .ok ((), n', .inl rows')) :
    rows' = if q.any Stage.isMatching then [] else rows := by
  induction q generalizing ws rows n with
  | nil =>
      obtain ⟨n₁, heq⟩ := @flow_counted_nil keep [] ws rows n
      rw [heq] at h
      exact (Sum.inl.inj (Prod.mk.inj (Prod.mk.inj (Except.ok.inj h)).2).2).symm
  | cons stage q ih =>
      obtain ⟨hstage, hrest⟩ := List.forall_mem_cons.mp hq
      cases stage with
      | matching pats =>
          obtain ⟨n₁, heq⟩ := @flow_counted_matching keep [] pats q ws rows n
          rw [heq, List.flatMap_eq_nil_iff.mpr (fun _ _ => rfl)] at h
          rw [ih hrest h]
          exact ite_self _
      | shaping s => cases hstage
      | writing w => exact ih hrest h
      | fetch doc => cases hstage

theorem leadingRows_counted (q : Query) :
    leadingRows (counted keep extended) C () q =
      if leadingPats q = [] then [()]
      else if (C.components (leadingPats q)).all keep then [()] else [] := by
  rw [leadingRows, product_counted]

/-- A write in the reading that counts rows. -/
theorem inOrder_counted {q : Query} {rows m : Nat} (hwrite : isWrite q = true)
    (h : inOrder (counted keep extended) C () q = .ok (.written () rows m)) :
    ∃ rows' n', rows'.length = rows ∧
      flow (counted keep extended) (q.dropWhile Stage.isMatching) []
        (leadingRows (counted keep extended) C () q) () 0 = .ok ((), n', .inl rows') := by
  rw [inOrder] at h
  obtain ⟨⟨σ, n, out⟩, hflow, h⟩ := bind_eq_ok.mp h
  cases out with
  | inl rows' =>
      simp only [hwrite, if_true] at h
      obtain ⟨-, rfl, -⟩ := Outcome.written.inj (pure_eq_ok.mp h)
      exact ⟨rows', n, rfl, hflow⟩
  | inr docs => cases pure_eq_ok.mp h

/-- What a match among the stages compiles to does not depend on the database. -/
theorem compileMatch_of_writeStart {D : Meaning} {σ : D.State} {q : Query} {rows : List D.Row}
    (h : writeStart D C σ q = .ok rows) (hmatch : q.any Stage.isMatching = true) :
    ∃ p, compileMatch C (q.filter Stage.isMatching) = .ok p ∧ rows = D.rows σ p.sql := by
  rw [writeStart, if_pos hmatch] at h
  obtain ⟨p, hp, h⟩ := bind_eq_ok.mp h
  exact ⟨p, hp, (pure_eq_ok.mp h).symm⟩

/-- The rows a write starts with, where all groups of patterns are kept or none. -/
theorem writeStart_counted {q : Query} {p : Projected S}
    (hp : compileMatch C (q.filter Stage.isMatching) = .ok p)
    (hmatch : q.any Stage.isMatching = true) :
    ∃ gs, gs ≠ [] ∧
      gs = (C.components (q.flatMap Stage.patterns)).filter (fun g => bindsAll C [g]) ∧
      writeStart (counted keep extended).toMeaning C () q =
        .ok (if gs.all keep then [()] else []) := by
  obtain ⟨-, parts, hparts, hne, hsql⟩ := compileMatch_eq_ok hp
  rw [flatMap_filter] at hparts
  refine ⟨parts.map Prod.fst, by simpa using hne, compileGroups_eq_ok hparts, ?_⟩
  rw [writeStart, if_pos hmatch, hp, ← product_counted, ← Meaning.rows, ← hsql]
  rfl

theorem runQuery_counted {q : Query} (hwrite : isWrite q = true) {rows : List Unit} {m : Nat}
    (hstart : writeStart (counted keep extended).toMeaning C () q = .ok rows)
    (hrun : writeRows (counted keep extended).toMeaning q rows () 0 = .ok ((), m)) :
    runQuery (counted keep extended).toMeaning C () q = .ok (.written () rows.length m) := by
  rw [runQuery, hwrite, if_pos rfl, runWritePipeline]
  exact bind_eq_ok.mpr ⟨rows, hstart, bind_eq_ok.mpr ⟨((), m), hrun, rfl⟩⟩

theorem writeRows_one {q : Query} (h : ∀ stage ∈ q, rowwise stage = true) :
    ∃ m, writeRows (counted keep extended).toMeaning q [()] () 0 = .ok ((), m) := by
  obtain ⟨m, hrow⟩ := @writeRow_counted keep extended q h 0
  refine ⟨m, ?_⟩
  rw [writeRows, hrow]
  rfl

/-- An accepted write that follows its stages has only matches and writes. -/
theorem rowwise_of_follows {q : Query} (hwrite : isWrite q = true) (haccepted : Accepted C q)
    (hfollows : Follows C q) : ∀ stage ∈ q, rowwise stage = true := by
  obtain ⟨D, σ, o, haccepted⟩ := haccepted
  obtain ⟨rows, σ', n, hstart, hrun, -⟩ := runQuery_write_eq_ok hwrite haccepted
  cases rows with
  | cons r rows =>
      rw [writeRows] at hrun
      obtain ⟨res, hrow, -⟩ := bind_eq_ok.mp hrun
      exact rowwise_of_writeRow hrow
  | nil =>
      -- no row, so there is a match, and in a database without rows the write does nothing
      have hmatch : q.any Stage.isMatching = true := by
        by_contra hnone
        rw [writeStart, if_neg hnone] at hstart
        cases hstart
      obtain ⟨p, hp, -⟩ := compileMatch_of_writeStart hstart hmatch
      obtain ⟨gs, hne, -, hnone⟩ := @writeStart_counted _ _ (fun _ => false) [()] q p hp hmatch
      have hall : gs.all (fun _ => false) = false := by
        cases gs with
        | nil => exact absurd rfl hne
        | cons g gs => rfl
      rw [hall, if_neg Bool.false_ne_true] at hnone
      obtain ⟨rows', n', hlength, hflow⟩ :=
        inOrder_counted hwrite (hfollows _ _ _ (runQuery_counted hwrite hnone rfl))
      have hrows := flow_counted_one hflow
      rw [List.length_eq_zero_iff.mp hlength] at hrows
      split at hrows
      · next hrest =>
        intro stage hstage
        rw [← List.takeWhile_append_dropWhile (p := Stage.isMatching) (l := q)] at hstage
        obtain hlead | hlate := List.mem_append.mp hstage
        · rw [rowwise, (List.mem_takeWhile_imp hlead), Bool.true_or]
        · exact List.all_eq_true.mp hrest stage hlate
      · cases hrows

/-- A write that follows its stages has its matches and writes where the executor takes them. -/
theorem write_ordered {q : Query} (hwrite : isWrite q = true) (haccepted : Accepted C q)
    (hfollows : Follows C q) : Ordered C q := by
  have hrowwise := rowwise_of_follows hwrite haccepted hfollows
  obtain ⟨D, σ, o, haccepted⟩ := haccepted
  obtain ⟨rows, σ', n, hstart, -, -⟩ := runQuery_write_eq_ok hwrite haccepted
  have hlate : ∀ stage ∈ q.dropWhile Stage.isMatching, rowwise stage = true := by
    intro stage hstage
    exact hrowwise stage ((List.dropWhile_suffix _).mem hstage)
  have hmatching : (q.dropWhile Stage.isMatching).any Stage.isMatching = false := by
    -- otherwise a database in which no row has an extension tells the two apart
    by_contra hsome
    rw [Bool.not_eq_false] at hsome
    obtain ⟨stage, hstage, hmatch⟩ := List.any_eq_true.mp hsome
    have hmatch := List.any_eq_true.mpr ⟨stage, (List.dropWhile_suffix _).mem hstage, hmatch⟩
    obtain ⟨p, hp, -⟩ := compileMatch_of_writeStart hstart hmatch
    obtain ⟨gs, -, -, hone⟩ := @writeStart_counted _ _ (fun _ => true) [] q p hp hmatch
    rw [List.all_eq_true.mpr (fun _ _ => rfl), if_pos rfl] at hone
    obtain ⟨m, hrun⟩ := @writeRows_one (fun _ => true) [] q hrowwise
    obtain ⟨rows', n', hlength, hflow⟩ :=
      inOrder_counted hwrite (hfollows _ _ _ (runQuery_counted hwrite hone hrun))
    rw [flow_counted_none hlate hflow, if_pos hsome] at hlength
    cases hlength
  constructor
  · simp only [hwrite, if_true]
    rw [List.all_eq_true]
    intro stage hstage
    have hno := List.any_eq_false.mp hmatching stage hstage
    simpa [rowwise, hno] using hlate stage hstage
  · intro hne
    have hlead : q.flatMap Stage.patterns = leadingPats q := by
      apply flatMap_patterns
      intro stage hstage
      simpa using List.any_eq_false.mp hmatching stage hstage
    have hmatch : q.any Stage.isMatching = true := by
      by_contra hnone
      apply hne
      rw [← hlead, List.flatMap_eq_nil_iff]
      intro stage hstage
      cases stage with
      | matching pats => exact absurd (List.any_eq_true.mpr ⟨_, hstage, rfl⟩) hnone
      | shaping s => rfl
      | writing w => rfl
      | fetch doc => rfl
    obtain ⟨p, hp, -⟩ := compileMatch_of_writeStart hstart hmatch
    obtain ⟨gs, -, hgs, hone⟩ :=
      @writeStart_counted _ _ (fun g => bindsAll C [g]) [()] q p hp hmatch
    rw [hgs, List.all_filter, List.all_eq_true.mpr (by simp), if_pos rfl] at hone
    obtain ⟨m, hrun⟩ := @writeRows_one (fun g => bindsAll C [g]) [()] q hrowwise
    obtain ⟨rows', n', hlength, hflow⟩ :=
      inOrder_counted hwrite (hfollows _ _ _ (runQuery_counted hwrite hone hrun))
    have hrows := flow_counted_one hflow
    rw [List.all_eq_true.mpr hlate, if_pos rfl, leadingRows_counted, if_neg hne] at hrows
    rw [hrows] at hlength
    split at hlength
    · next hall =>
      rw [bindsAll_iff, List.filter_eq_self]
      exact List.all_eq_true.mp hall
    · cases hlength

end Counted

/-- The compiler on patterns that are an `isa` each: every variable is a group of its own. -/
abbrev isaCompilation : Compilation (List String) where
  components pats := pats.map fun p => [p]
  start := []
  nested vars := vars
  compilePatterns vars pats := .ok (vars ++ patsVars pats)
  boundVars vars := vars.map fun v => (v, true)
  seed _ cols := cols.map Prod.fst
  expr vars _ := .ok vars
  attrList vars _ _ := .ok vars

/-- The database on such patterns, over the instances with their types: a row is the variables
with what they are bound to. -/
abbrev isaReading : Reading where
  State := List (String × Nat)
  Row := List (String × Nat)
  Doc := List (String × Nat)
  start := []
  join r r' := r ++ r'
  group σ g := g.foldl (fun rows p => rows.flatMap fun r => isaRows σ p r) [[]]
  extend σ pats r := pats.foldl (fun rows p => rows.flatMap fun r => isaRows σ p r) [r]
  shape s rows :=
    match s with
    | .limit n => rows.take n
    | .offset n => rows.drop n
    | _ => rows
  expr _ _ r := r
  attrList _ _ _ r := r
  object r _ := r
  array docs := docs.flatten
  whole r := r
  write _ env := .ok env
  late _ docs := docs
  inner _ rows := rows
where
  isaRows (σ : List (String × Nat)) (p : Pat) (r : List (String × Nat)) :
      List (List (String × Nat)) :=
    match p with
    | .isa v ty _ => (σ.filter fun i => i.1 = ty).map fun i => r ++ [(v, i.2)]
    | _ => [r]

/-- `match $x isa book; limit 1;` -/
def firstBook : Query := [.matching [.isa "x" "book" false], .shaping (.limit 1)]

/-- `match $x isa book; limit 1; match $y isa author;` -/
def firstBookAuthors : Query := firstBook ++ [Stage.matching [.isa "y" "author" false]]

/-- A book and two authors. -/
def library : List (String × Nat) := [("book", 1), ("author", 2), ("author", 3)]

theorem accepted_firstBook : Accepted isaCompilation firstBook :=
  ⟨isaReading, library, .documents [[("x", 1)]], rfl⟩

end OntologicalDb.TypeqlPipelineOrder
