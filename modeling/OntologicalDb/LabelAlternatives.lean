import OntologicalDb.CypherPatterns
import OntologicalDb.LabelSets

/-!
Label alternatives: the parser puts `(n:A|B)` into the one list of labels that a conjunction
is in, too.
-/

namespace OntologicalDb.LabelAlternatives

open OntologicalDb.CompilePattern
open OntologicalDb.CypherLexer
open OntologicalDb.CypherPatterns
open OntologicalDb.CypherSyntax
open OntologicalDb.GraphStorage
open OntologicalDb.LabelSets
open OntologicalDb.Labeling
open OntologicalDb.RowDocuments
open OntologicalDb.Sql
open OntologicalDb.TypeCatalog
open OntologicalDb.TypedTables
open OntologicalDb.Values

section Grammar

variable {F : Type}

/-- The text of a token that can stand for a name. -/
def tokenName (t : Token F) : Option String :=
  match t.tok with
  | .ident s | .quotedIdent s => some s
  | .keyword _ => some t.raw
  | _ => none

/-- The tokens of `(n:A|B|…)`, and what follows. -/
def alternativesPattern (v label : Token F) (labels rest : List (Token F)) : List (Token F) :=
  punct "(" :: v :: punct ":" :: label ::
    (labels.flatMap (fun t => [punct "|", t]) ++ punct ")" :: rest)

theorem name_eq {t u : Token F} {s : String} (h : tokenName t = some s) (ts : List (Token F)) :
    name (t :: u :: ts) = .ok (s, u :: ts) := by
  rcases t with ⟨tok, raw⟩
  cases tok with
  | ident | quotedIdent | keyword =>
      cases h
      rfl
  | int | float | str | param | punct | eof => cases h

/-- The names behind bars are read up to the first token that is no bar. -/
theorem namesAfter_bars {labels : List (Token F)} {names : List String}
    (h : List.Forall₂ (fun t s => tokenName t = some s) labels names) {u : Token F}
    (hu : ∀ ts, atPunct "|" (u :: ts) = false) (rest : List (Token F)) {n : Nat}
    (hn : names.length < n) :
    namesAfter (atPunct "|") bump n (labels.flatMap (fun t => [punct "|", t]) ++ u :: rest) =
      .ok (names, u :: rest) := by
  induction h generalizing n with
  | nil =>
      cases n with
      | zero => exact absurd hn (Nat.not_lt_zero _)
      | succ n => rw [List.flatMap_nil, List.nil_append, namesAfter, hu]; rfl
  | @cons t s labels names ht _ ih =>
      cases n with
      | zero => exact absurd hn (Nat.not_lt_zero _)
      | succ n =>
          have hrest := ih (Nat.lt_of_succ_lt_succ hn)
          have hne : ∃ w ws, labels.flatMap (fun t => [punct "|", t]) ++ u :: rest = w :: ws := by
            cases labels with
            | nil => exact ⟨_, _, rfl⟩
            | cons => exact ⟨_, _, rfl⟩
          rcases hne with ⟨w, ws, hws⟩
          rw [hws] at hrest
          rw [List.flatMap_cons, List.append_assoc, hws]
          have hbar : atPunct "|" (punct "|" :: t :: w :: ws) = true := rfl
          change (if atPunct "|" (punct "|" :: t :: w :: ws) = true then _ else _) = _
          rw [if_pos hbar]
          change (do
            let v ← name (t :: w :: ws)
            let w ← namesAfter (atPunct "|") bump n v.2
            return (v.1 :: w.1, w.2)) = _
          rw [name_eq ht]
          change (do
            let w ← namesAfter (atPunct "|") bump n (w :: ws)
            return (s :: w.1, w.2)) = _
          rw [hrest]
          rfl

theorem alternatives_bars {labels : List (Token F)} {names : List String}
    (h : List.Forall₂ (fun t s => tokenName t = some s) labels names)
    (rest : List (Token F)) :
    alternatives (labels.flatMap (fun t => [punct "|", t]) ++ punct ")" :: rest) =
      .ok (names, punct ")" :: rest) := by
  refine namesAfter_bars h (fun _ => rfl) rest ?_
  have hlen : names.length ≤ (labels.flatMap (fun t => [punct "|", t])).length := by
    rw [← h.length_eq, List.length_flatMap]
    simp only [List.length_cons, List.length_nil, List.map_const', List.sum_replicate,
      smul_eq_mul]
    omega
  rw [List.length_append, List.length_cons]
  omega

/-- All the alternatives are in the one list of labels. -/
theorem parseNodePat_alternatives (propMap : PropMap F) {v label : Token F} {n l : String}
    (hv : atIdent [v] = true) (hn : tokenName v = some n) (hl : tokenName label = some l)
    {labels : List (Token F)} {names : List String}
    (h : List.Forall₂ (fun t s => tokenName t = some s) labels names)
    (rest : List (Token F)) :
    (parseNodePat propMap (alternativesPattern v label labels rest)).map Prod.fst =
      .ok ⟨some n, l :: names, []⟩ := by
  have hbars := alternatives_bars h rest
  unfold alternativesPattern
  generalize hX : labels.flatMap (fun t => [punct "|", t]) ++ punct ")" :: rest = X at hbars ⊢
  have hcons : ∃ w ws, X = w :: ws := by
    rw [← hX]
    cases labels with
    | nil => exact ⟨_, _, rfl⟩
    | cons => exact ⟨_, _, rfl⟩
  rcases hcons with ⟨w, ws, rfl⟩
  have hvar : optionalName (v :: punct ":" :: label :: w :: ws) =
      .ok (some n, punct ":" :: label :: w :: ws) := by
    have hat : atIdent (v :: punct ":" :: label :: w :: ws) = true := hv
    rw [optionalName, if_pos hat, name_eq hn]
    rfl
  have hgroups : labelGroups (punct ":" :: label :: w :: ws).length
      (punct ":" :: label :: w :: ws) = .ok (l :: names, punct ")" :: rest) := by
    have hstop (k : Nat) : labelGroups k (punct ")" :: rest : List (Token F)) =
        .ok ([], punct ")" :: rest) := by cases k <;> rfl
    have hcolon : atPunct ":" (punct ":" :: label :: w :: ws) = true := rfl
    have hbump : bump (punct ":" :: label :: w :: ws) = label :: w :: ws := rfl
    rw [List.length_cons, labelGroups, if_pos hcolon, hbump, name_eq hl]
    simp only [bind, Except.bind, hbars, hstop, pure, Except.pure, List.append_nil]
  have hopen : expectPunct "(" (punct "(" :: v :: punct ":" :: label :: w :: ws) =
      .ok (v :: punct ":" :: label :: w :: ws) := rfl
  have hprops : parseProps propMap (punct ")" :: rest) = .ok ([], punct ")" :: rest) := rfl
  have hclose : expectPunct ")" (punct ")" :: rest) = .ok (bump (punct ")" :: rest)) := rfl
  simp only [parseNodePat, bind, Except.bind, hopen, hvar, hgroups, hprops, hclose, pure,
    Except.pure, Except.map]

end Grammar

section Union

variable {F : Type} {env : Env} {cx : Context} {gid : Int} {labels : List String}

/-- The identifiers that a node pattern, read from its tokens, matches. -/
def matchedBy (propMap : PropMap F) (env : Env) (cx : Context) (gid : Int)
    (ts : List (Token F)) : Except String (List Val) := do
  let p ← parseNodePat propMap ts
  matchedNodes env cx gid p.1

/-- A node whose type carries one of the labels. -/
def CarriesSome (env : Env) (c : Catalog) (gid : Int) (labels : List String) (id : Int) : Prop :=
  ∃ tid, IsNode env id tid ∧ ∃ l ∈ labels, HasLabel c gid tid l

/-- The nodes found are those that carry one of the labels. -/
def LabelsUnion (env : Env) (c : Catalog) (gid : Int) (labels : List String)
    (found : Except String (List Val)) : Prop :=
  ∃ ids, found = .ok ids ∧ ∀ id, Val.int id ∈ ids ↔ CarriesSome env c gid labels id

/-- One of the labels is below all the others, and every stored node of the others is a node
of its type. -/
def OneCovers (env : Env) (c : Catalog) (gid : Int) (labels : List String) : Prop :=
  ∃ l ∈ labels, ∃ t, tryTypeId c gid l = some t ∧ (∀ k ∈ labels, HasLabel c gid t k) ∧
    ∀ id, CarriesSome env c gid labels id → ∃ tid, IsNode env id tid ∧ HasLabel c gid tid l

theorem matchedNodes_union_iff (hc : WellFormed cx.catalog)
    (hcx : env.db.schema.catalog = cx.catalog) (hne : labels ≠ []) (v : Option String) :
    LabelsUnion env cx.catalog gid labels (matchedNodes env cx gid ⟨v, labels, []⟩) ↔
      OneCovers env cx.catalog gid labels ∨
        ∀ id, ¬ CarriesSome env cx.catalog gid labels id := by
  rw [matchedNodes_eq hne]
  have hempty (h : ¬ HasMostSpecific cx.catalog gid labels) :
      LabelsUnion env cx.catalog gid labels (.ok []) ↔
        OneCovers env cx.catalog gid labels ∨
          ∀ id, ¬ CarriesSome env cx.catalog gid labels id := by
    constructor
    · rintro ⟨ids, hids, hall⟩
      obtain rfl := Except.ok.inj hids
      exact .inr fun id hid => List.not_mem_nil ((hall id).mpr hid)
    · rintro (⟨l, hl, t, hlt, hall, -⟩ | hnone)
      · exact absurd ⟨l, hl, t, hlt, hall⟩ h
      · exact ⟨[], rfl, fun id => iff_of_false List.not_mem_nil (hnone id)⟩
  cases hmap : labels.mapM (tryTypeId cx.catalog gid) with
  | none =>
      rcases mapM_tryTypeId_eq_none hmap with ⟨l, hl, hunknown⟩
      simp only [resolveLabelSet, if_neg hne, hmap]
      apply hempty
      rintro ⟨k, hk, t, -, hall⟩
      rcases hall l hl with ⟨lt, hlt, -⟩
      rw [hunknown] at hlt
      cases hlt
  | some ids =>
      cases hmost : mostSpecific cx.catalog ids with
      | none =>
          simp only [resolveLabelSet, if_neg hne, hmap, hmost]
          exact hempty (mostSpecific_eq_none hc hmap hmost)
      | some t =>
          simp only [resolveLabelSet, if_neg hne, hmap, hmost]
          rcases mostSpecific_eq_some hc hmap hmost with ⟨l, hl, hlt, hall⟩
          have hview (id : Int) :
              Val.int id ∈ (viewRows env.db.schema env.asOf t false).map (fun x => x "id") ↔
                ∃ tid, IsNode env id tid ∧ IsSubtype cx.catalog tid t := by
            rw [mem_viewRows_id, hcx]
            exact exists_congr fun tid => and_congr_right fun _ =>
              ogIsSubtype_iff hc (tryTypeId_mem_graphTypes hlt)
          constructor
          · rintro ⟨ids, hids, hunion⟩
            obtain rfl := Except.ok.inj hids
            refine .inl ⟨l, hl, t, hlt, hall, fun id hid => ?_⟩
            rcases (hview id).mp ((hunion id).mpr hid) with ⟨tid, hnode, hsub⟩
            exact ⟨tid, hnode, t, hlt, hsub⟩
          · intro h
            refine ⟨_, rfl, fun id => (hview id).trans ⟨?_, fun hid => ?_⟩⟩
            · rintro ⟨tid, hnode, hsub⟩
              exact ⟨tid, hnode, l, hl, t, hlt, hsub⟩
            · rcases h with ⟨k, hk, u, hku, hbelow, hcover⟩ | hnone
              · rcases hcover id hid with ⟨tid, hnode, o, hko, hsub⟩
                obtain rfl : u = o := Option.some.inj (hku.symm.trans hko)
                rcases hbelow l hl with ⟨t', hlt', hut⟩
                obtain rfl : t = t' := Option.some.inj (hlt.symm.trans hlt')
                exact ⟨tid, hnode, hut.trans hsub⟩
              · exact absurd hid (hnone id)

/-- Alternatives find the union of their labels when one of the labels covers the others, and
else only where nothing carries any of them. -/
theorem alternatives_union_iff (propMap : PropMap F) (hc : WellFormed cx.catalog)
    (hcx : env.db.schema.catalog = cx.catalog) {v label : Token F} {n l : String}
    (hv : atIdent [v] = true) (hn : tokenName v = some n) (hl : tokenName label = some l)
    {labels : List (Token F)} {names : List String}
    (h : List.Forall₂ (fun t s => tokenName t = some s) labels names)
    (rest : List (Token F)) :
    LabelsUnion env cx.catalog gid (l :: names)
        (matchedBy propMap env cx gid (alternativesPattern v label labels rest)) ↔
      OneCovers env cx.catalog gid (l :: names) ∨
        ∀ id, ¬ CarriesSome env cx.catalog gid (l :: names) id := by
  have hparse := parseNodePat_alternatives propMap hv hn hl h rest
  cases hp : parseNodePat propMap (alternativesPattern v label labels rest) with
  | error e =>
      rw [hp] at hparse
      cases hparse
  | ok p =>
      rw [hp] at hparse
      have hpat : p.1 = ⟨some n, l :: names, []⟩ := Except.ok.inj hparse
      have hfound : matchedBy propMap env cx gid (alternativesPattern v label labels rest) =
          matchedNodes env cx gid ⟨some n, l :: names, []⟩ := by
        rw [← hpat, matchedBy, hp]
        rfl
      rw [hfound]
      exact matchedNodes_union_iff hc hcx (List.cons_ne_nil _ _) (some n)

end Union

section Diamond

def word (s : String) : Token Unit := ⟨.ident s, s⟩

def wordsOnly : PropMap Unit := fun _ => .error "expected a property map"

theorem alternatives_union_diamond :
    LabelsUnion diamondEnv diamondCatalog 1 ["C", "A"]
        (matchedBy wordsOnly diamondEnv diamondContext 1
          (alternativesPattern (word "n") (word "C") [word "A"] [])) ↔
      OneCovers diamondEnv diamondCatalog 1 ["C", "A"] ∨
        ∀ id, ¬ CarriesSome diamondEnv diamondCatalog 1 ["C", "A"] id :=
  @alternatives_union_iff _ diamondEnv diamondContext 1 wordsOnly diamond_wellFormed rfl
    _ _ _ _ rfl rfl rfl _ _ (.cons rfl .nil) []

/-- `(n:A|B)` leaves out the node of the type below both. -/
theorem not_labelsUnion_diamond :
    ¬ LabelsUnion diamondEnv diamondCatalog 1 ["A", "B"]
      (matchedBy wordsOnly diamondEnv diamondContext 1
        (alternativesPattern (word "n") (word "A") [word "B"] [])) := by
  have hparse : matchedBy wordsOnly diamondEnv diamondContext 1
      (alternativesPattern (word "n") (word "A") [word "B"] []) =
        matchedNodes diamondEnv diamondContext 1 ⟨some "n", ["A", "B"], []⟩ := rfl
  have hnothing : resolveLabelSet diamondContext.catalog 1 ["A", "B"] = .nothing := by
    rfl
  rw [hparse, matchedNodes_eq (List.cons_ne_nil _ _), hnothing]
  rintro ⟨ids, hids, hall⟩
  obtain rfl := Except.ok.inj hids
  have hchild : ((3, 1) : Int × Int) ∈ diamondCatalog.typeParent := by decide
  have hlabel : HasLabel diamondCatalog 1 3 "A" := ⟨1, rfl, .single hchild⟩
  exact List.not_mem_nil
    ((hall 10).mpr ⟨3, diamond_isNode, "A", List.mem_cons_self, hlabel⟩)

end Diamond

end OntologicalDb.LabelAlternatives
