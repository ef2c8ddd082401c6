import Mathlib
import OntologicalDb.TurtleTerms

/-!
The statements and directives of a Turtle document, and where the reader of one overruns it.
-/

namespace OntologicalDb.TurtleReader

open OntologicalDb.TurtleTerms

section Code

variable (src : List UInt8)

def bytes (s : String) : List UInt8 := s.toList.map byte

/-- On either of two texts. -/
def startsWithEither (pos : Nat) (s t : String) : R Bool := do
  if ← startsWith src pos (bytes s) then return true else startsWith src pos (bytes t)

/-- Behind the point of a directive, where there is one. -/
def afterPoint (pos : Nat) : Nat :=
  if src[skipWs src pos]? = some (byte '.') then skipWs src pos + 1 else skipWs src pos

def nameEnd (pos : Nat) : Nat := scan src (fun c => c ≠ byte ':') pos

def prefixIri (names : Names) (name : List UInt8) : Term → Nat → R (Names × Nat)
  | .iri iri, pos =>
      .ok (⟨(String.ofList (CypherLexer.lossy name), iri) :: names.prefixes, names.base⟩,
        afterPoint src pos)
  | _, _ => .error (.message "@prefix expects an IRI")

def parsePrefix (names : Names) (pos : Nat) : R (Names × Nat) := do
  let name ← slice src (skipWs src (pos + 7)) (nameEnd src (skipWs src (pos + 7)))
  let v ← parseTerm src names (skipWs src (nameEnd src (skipWs src (pos + 7)) + 1))
  prefixIri src names name v.1 v.2

def parseBase (names : Names) (pos : Nat) : R (Names × Nat) := do
  let v ← parseTerm src names (skipWs src (pos + 5))
  return (⟨names.prefixes, v.1.asIri.getD names.base⟩, afterPoint src v.2)

def unexpected (c : UInt8) (pos : Nat) : Fault :=
  .message ("unexpected '" ++ String.singleton (Char.ofNat c.toNat) ++ "' at offset " ++
    toString pos ++ " (expected ';', ',' or '.')")

theorem le_afterPoint {src : List UInt8} {pos : Nat} : pos ≤ afterPoint src pos := by
  have hle : pos ≤ skipWs src pos := le_skipWs
  unfold afterPoint
  split <;> omega

theorem lt_of_parsePrefix {src : List UInt8} {names : Names} {pos : Nat} {v : Names × Nat}
    (h : parsePrefix src names pos = .ok v) : pos < src.length ∧ pos < v.2 := by
  rcases ExceptRules.bind_eq_ok.mp h with ⟨name, _, h⟩
  rcases ExceptRules.bind_eq_ok.mp h with ⟨w, hw, h⟩
  have hle := le_of_parseTerm hw
  have hskip : pos + 7 ≤ skipWs src (pos + 7) := le_skipWs
  have hname : skipWs src (pos + 7) ≤ nameEnd src (skipWs src (pos + 7)) := le_scan
  have hterm : nameEnd src (skipWs src (pos + 7)) + 1 ≤
      skipWs src (nameEnd src (skipWs src (pos + 7)) + 1) := le_skipWs
  cases ht : w.1 with
  | iri iri =>
      rw [ht] at h
      rcases Except.ok.inj h with rfl
      have hpoint : w.2 ≤ afterPoint src w.2 := le_afterPoint
      exact ⟨by omega, by dsimp only; omega⟩
  | blank s => rw [ht] at h; cases h
  | literal s dt lang => rw [ht] at h; cases h

theorem lt_of_parseBase {src : List UInt8} {names : Names} {pos : Nat} {v : Names × Nat}
    (h : parseBase src names pos = .ok v) : pos < src.length ∧ pos < v.2 := by
  rcases ExceptRules.bind_eq_ok.mp h with ⟨w, hw, h⟩
  rcases Except.ok.inj h with rfl
  have hle := le_of_parseTerm hw
  have hskip : pos + 5 ≤ skipWs src (pos + 5) := le_skipWs
  have hpoint : w.2 ≤ afterPoint src w.2 := le_afterPoint
  exact ⟨by omega, by dsimp only; omega⟩

mutual

/-- The triples so far, and what the rest of the document adds to them. -/
def parseDocument (names : Names) (out : List Triple) (pos : Nat) : R (List Triple × Names) :=
  if src.length ≤ skipWs src pos then .ok (out, names)
  else
    match startsWithEither src (skipWs src pos) "@prefix" "PREFIX" with
    | .error e => .error e
    | .ok true =>
        match _h : parsePrefix src names (skipWs src pos) with
        | .error e => .error e
        | .ok v => parseDocument v.1 out v.2
    | .ok false =>
        match startsWithEither src (skipWs src pos) "@base" "BASE" with
        | .error e => .error e
        | .ok true =>
            match _h : parseBase src names (skipWs src pos) with
            | .error e => .error e
            | .ok v => parseDocument v.1 out v.2
        | .ok false =>
            match _h : parseTerm src names (skipWs src pos) with
            | .error e => .error e
            | .ok v => predicates names out v.1 v.2
termination_by 3 * (src.length - pos) + 2
decreasing_by
  all_goals have hskip : pos ≤ skipWs src pos := le_skipWs
  · have hv := lt_of_parsePrefix _h
    omega
  · have hv := lt_of_parseBase _h
    omega
  · have hv := le_of_parseTerm _h
    omega

/-- The predicates of a subject; behind the last one, the rest of the document. -/
def predicates (names : Names) (out : List Triple) (s : Term) (pos : Nat) :
    R (List Triple × Names) :=
  match startsWithEither src (skipWs src pos) "a " "a\t" with
  | .error e => .error e
  | .ok true => objects names out s (.iri rdfType) (skipWs src pos + 1)
  | .ok false =>
      match _h : parseTerm src names (skipWs src pos) with
      | .error e => .error e
      | .ok v => objects names out s v.1 v.2
termination_by 3 * (src.length - pos) + 1
decreasing_by
  all_goals have hskip : pos ≤ skipWs src pos := le_skipWs
  · omega
  · have hv := le_of_parseTerm _h
    omega

/-- The objects of a predicate, and what follows the last one. -/
def objects (names : Names) (out : List Triple) (s p : Term) (pos : Nat) :
    R (List Triple × Names) :=
  match _h : parseTerm src names (skipWs src pos) with
  | .error e => .error e
  | .ok v =>
      match _hc : src[skipWs src v.2]? with
      | none => parseDocument names (out ++ [⟨s, p, v.1⟩]) (skipWs src v.2)
      | some c =>
          if c = byte ',' then objects names (out ++ [⟨s, p, v.1⟩]) s p (skipWs src v.2 + 1)
          else if c = byte ';' then
            if src[skipWs src (skipWs src v.2 + 1)]? = some (byte '.') then
              parseDocument names (out ++ [⟨s, p, v.1⟩])
                (skipWs src (skipWs src v.2 + 1) + 1)
            else
              predicates names (out ++ [⟨s, p, v.1⟩]) s (skipWs src (skipWs src v.2 + 1))
          else if c = byte '.' then
            parseDocument names (out ++ [⟨s, p, v.1⟩]) (skipWs src v.2 + 1)
          else .error (unexpected c (skipWs src v.2))
termination_by 3 * (src.length - pos)
decreasing_by
  all_goals
    have hskip : pos ≤ skipWs src pos := le_skipWs
    have hv := le_of_parseTerm _h
    have hnext : v.2 ≤ skipWs src v.2 := le_skipWs
  · have hend := List.getElem?_eq_none_iff.mp _hc
    omega
  · have hlt := lt_of_get _hc
    omega
  · have hlt := lt_of_get _hc
    have hsemi : skipWs src v.2 + 1 ≤ skipWs src (skipWs src v.2 + 1) := le_skipWs
    omega
  · have hlt := lt_of_get _hc
    have hsemi : skipWs src v.2 + 1 ≤ skipWs src (skipWs src v.2 + 1) := le_skipWs
    omega
  · have hlt := lt_of_get _hc
    omega

end

/-- Of a whole document. -/
def parse : R (List Triple × Names) := parseDocument src ⟨[], ""⟩ [] 0

end Code

section Walk

variable (src : List UInt8)

/-- One of two texts is at a position. -/
def Either (pos : Nat) (s t : String) : Prop := bytes s <+: src.drop pos ∨ bytes t <+: src.drop pos

inductive Place
  | statement
  | predicate
  | object

/-- The first byte of the IRI of a prefix. -/
def prefixIriAt (pos : Nat) : Nat := skipWs src (nameEnd src (skipWs src (pos + 7)) + 1)

/-- Where statements, predicates and objects are read from, and at which positions. -/
inductive Reads : Place → Nat → Prop
  | start : Reads .statement 0
  | prefixed {p q : Nat} : Reads .statement p → Either src (skipWs src p) "@prefix" "PREFIX" →
      skipWs src p + 7 ≤ src.length → TermAt src (prefixIriAt src (skipWs src p)) true q →
      Reads .statement (afterPoint src q)
  | based {p q : Nat} {b : Bool} : Reads .statement p →
      ¬ Either src (skipWs src p) "@prefix" "PREFIX" → Either src (skipWs src p) "@base" "BASE" →
      TermAt src (skipWs src (skipWs src p + 5)) b q → Reads .statement (afterPoint src q)
  | subject {p q : Nat} {b : Bool} : Reads .statement p →
      ¬ Either src (skipWs src p) "@prefix" "PREFIX" → ¬ Either src (skipWs src p) "@base" "BASE" →
      TermAt src (skipWs src p) b q → q ≤ src.length → Reads .predicate q
  | rdfType {p : Nat} : Reads .predicate p → Either src (skipWs src p) "a " "a\t" →
      Reads .object (skipWs src p + 1)
  | verb {p q : Nat} {b : Bool} : Reads .predicate p → ¬ Either src (skipWs src p) "a " "a\t" →
      TermAt src (skipWs src p) b q → Reads .object q
  | comma {p q : Nat} {b : Bool} : Reads .object p → TermAt src (skipWs src p) b q →
      src[skipWs src q]? = some (byte ',') → Reads .object (skipWs src q + 1)
  | semicolon {p q : Nat} {b : Bool} : Reads .object p → TermAt src (skipWs src p) b q →
      src[skipWs src q]? = some (byte ';') →
      src[skipWs src (skipWs src q + 1)]? ≠ some (byte '.') →
      Reads .predicate (skipWs src (skipWs src q + 1))
  | lastSemicolon {p q : Nat} {b : Bool} : Reads .object p → TermAt src (skipWs src p) b q →
      src[skipWs src q]? = some (byte ';') →
      src[skipWs src (skipWs src q + 1)]? = some (byte '.') →
      Reads .statement (skipWs src (skipWs src q + 1) + 1)
  | point {p q : Nat} {b : Bool} : Reads .object p → TermAt src (skipWs src p) b q →
      src[skipWs src q]? = some (byte '.') → Reads .statement (skipWs src q + 1)

/--
A document that is cut short where the reader does not look: behind the word PREFIX, behind the
underscore of a blank node, or within the IRI that a subject ends with.
-/
inductive Overruns : Prop
  | directive {p : Nat} : Reads src .statement p →
      Either src (skipWs src p) "@prefix" "PREFIX" → src.length < skipWs src p + 7 → Overruns
  | prefixIri {p : Nat} : Reads src .statement p →
      Either src (skipWs src p) "@prefix" "PREFIX" → skipWs src p + 7 ≤ src.length →
      LoneBlank src (prefixIriAt src (skipWs src p)) → Overruns
  | base {p : Nat} : Reads src .statement p →
      ¬ Either src (skipWs src p) "@prefix" "PREFIX" → Either src (skipWs src p) "@base" "BASE" →
      LoneBlank src (skipWs src (skipWs src p + 5)) → Overruns
  | subject {p : Nat} : Reads src .statement p →
      ¬ Either src (skipWs src p) "@prefix" "PREFIX" → ¬ Either src (skipWs src p) "@base" "BASE" →
      LoneBlank src (skipWs src p) → Overruns
  | subjectEnd {p q : Nat} {b : Bool} : Reads src .statement p →
      ¬ Either src (skipWs src p) "@prefix" "PREFIX" → ¬ Either src (skipWs src p) "@base" "BASE" →
      TermAt src (skipWs src p) b q → src.length < q → Overruns
  | predicate {p : Nat} : Reads src .predicate p → ¬ Either src (skipWs src p) "a " "a\t" →
      LoneBlank src (skipWs src p) → Overruns
  | object {p : Nat} : Reads src .object p → LoneBlank src (skipWs src p) → Overruns

end Walk

section Steps

variable {src : List UInt8} {names : Names} {out : List Triple} {pos : Nat}

theorem startsWithEither_of_pos {s t : String} (hpos : pos ≤ src.length) (h : Either src pos s t) :
    startsWithEither src pos s t = .ok true := by
  unfold startsWithEither
  rw [startsWith_of_le hpos, startsWith_of_le hpos]
  cases hs : (bytes s).isPrefixOf (src.drop pos) with
  | true => rfl
  | false =>
      rcases h with h | h
      · rw [List.isPrefixOf_iff_prefix.mpr h] at hs
        cases hs
      · rw [List.isPrefixOf_iff_prefix.mpr h]
        rfl

theorem startsWithEither_of_neg {s t : String} (hpos : pos ≤ src.length)
    (h : ¬ Either src pos s t) : startsWithEither src pos s t = .ok false := by
  have hs : (bytes s).isPrefixOf (src.drop pos) = false :=
    Bool.eq_false_iff.mpr fun hx => h (.inl (List.isPrefixOf_iff_prefix.mp hx))
  have ht : (bytes t).isPrefixOf (src.drop pos) = false :=
    Bool.eq_false_iff.mpr fun hx => h (.inr (List.isPrefixOf_iff_prefix.mp hx))
  unfold startsWithEither
  rw [startsWith_of_le hpos, startsWith_of_le hpos, hs, ht]
  rfl

theorem startsWithEither_of_lt {s t : String} (hpos : src.length < pos) :
    startsWithEither src pos s t = .error .panic := by
  have hs : startsWith src pos (bytes s) = .error .panic := if_neg (by omega)
  unfold startsWithEither
  rw [hs]
  rfl

theorem spaces_drop (open_ : Bool) (l : List UInt8) :
    spaces false (l.drop (spaces open_ l)) = 0 := by
  induction l generalizing open_ with
  | nil => rw [List.drop_nil]; rfl
  | cons c r ih =>
      cases open_ with
      | true => exact ih _
      | false =>
          rcases Decidable.em (isSpace c) with hspace | hspace
          · have hs : spaces false (c :: r) = spaces false r + 1 := if_pos hspace
            rw [hs]
            exact ih _
          rcases Decidable.em (c = byte '#') with hhash | hhash
          · have hs : spaces false (c :: r) = spaces true r + 1 :=
              (if_neg hspace).trans (if_pos hhash)
            rw [hs]
            exact ih _
          · have hs : spaces false (c :: r) = 0 := (if_neg hspace).trans (if_neg hhash)
            rw [hs]
            exact hs

@[simp]
theorem skipWs_skipWs : skipWs src (skipWs src pos) = skipWs src pos := by
  have hzero := spaces_drop false (src.drop pos)
  rw [List.drop_drop] at hzero
  unfold skipWs
  rw [hzero]
  rfl

theorem parseDocument_at_end (h : src.length ≤ skipWs src pos) :
    parseDocument src names out pos = .ok (out, names) := by
  rw [parseDocument, if_pos h]

theorem parseDocument_of_prefixed (hlt : skipWs src pos < src.length)
    (h : Either src (skipWs src pos) "@prefix" "PREFIX") :
    parseDocument src names out pos = (parsePrefix src names (skipWs src pos)).bind fun v =>
      parseDocument src v.1 out v.2 := by
  rw [parseDocument, if_neg (Nat.not_le_of_lt hlt), startsWithEither_of_pos hlt.le h]
  cases hp : parsePrefix src names (skipWs src pos) <;> rfl

theorem parseDocument_of_base (hlt : skipWs src pos < src.length)
    (hn : ¬ Either src (skipWs src pos) "@prefix" "PREFIX")
    (h : Either src (skipWs src pos) "@base" "BASE") :
    parseDocument src names out pos = (parseBase src names (skipWs src pos)).bind fun v =>
      parseDocument src v.1 out v.2 := by
  rw [parseDocument, if_neg (Nat.not_le_of_lt hlt), startsWithEither_of_neg hlt.le hn,
    startsWithEither_of_pos hlt.le h]
  cases hp : parseBase src names (skipWs src pos) <;> rfl

theorem parseDocument_of_statement (hlt : skipWs src pos < src.length)
    (hn : ¬ Either src (skipWs src pos) "@prefix" "PREFIX")
    (hb : ¬ Either src (skipWs src pos) "@base" "BASE") :
    parseDocument src names out pos = (parseTerm src names (skipWs src pos)).bind fun v =>
      predicates src names out v.1 v.2 := by
  rw [parseDocument, if_neg (Nat.not_le_of_lt hlt), startsWithEither_of_neg hlt.le hn,
    startsWithEither_of_neg hlt.le hb]
  cases hp : parseTerm src names (skipWs src pos) <;> rfl

variable {s p : Term}

theorem predicates_of_a (hle : skipWs src pos ≤ src.length)
    (h : Either src (skipWs src pos) "a " "a\t") :
    predicates src names out s pos =
      objects src names out s (.iri rdfType) (skipWs src pos + 1) := by
  rw [predicates, startsWithEither_of_pos hle h]

theorem predicates_of_term (hle : skipWs src pos ≤ src.length)
    (h : ¬ Either src (skipWs src pos) "a " "a\t") :
    predicates src names out s pos = (parseTerm src names (skipWs src pos)).bind fun v =>
      objects src names out s v.1 v.2 := by
  rw [predicates, startsWithEither_of_neg hle h]
  cases hp : parseTerm src names (skipWs src pos) <;> rfl

theorem predicates_panics (h : src.length < pos) :
    predicates src names out s pos = .error .panic := by
  have hskip : pos ≤ skipWs src pos := le_skipWs
  rw [predicates, startsWithEither_of_lt (h.trans_le hskip)]

/-- What comes behind an object. -/
def afterObject (src : List UInt8) (names : Names) (out : List Triple) (s p : Term) (q : Nat) :
    R (List Triple × Names) :=
  match src[q]? with
  | none => parseDocument src names out q
  | some c =>
      if c = byte ',' then objects src names out s p (q + 1)
      else if c = byte ';' then
        if src[skipWs src (q + 1)]? = some (byte '.') then
          parseDocument src names out (skipWs src (q + 1) + 1)
        else predicates src names out s (skipWs src (q + 1))
      else if c = byte '.' then parseDocument src names out (q + 1)
      else .error (unexpected c q)

theorem objects_eq : objects src names out s p pos =
    (parseTerm src names (skipWs src pos)).bind fun v =>
      afterObject src names (out ++ [⟨s, p, v.1⟩]) s p (skipWs src v.2) := by
  rw [objects]
  split
  next e he => rw [he]; rfl
  next v hv =>
    rw [hv]
    change _ = afterObject src names (out ++ [⟨s, p, v.1⟩]) s p (skipWs src v.2)
    unfold afterObject
    split
    next hc => rw [hc]
    next c hc => rw [hc]

theorem spaces_le (open_ : Bool) (l : List UInt8) : spaces open_ l ≤ l.length := by
  induction l generalizing open_ with
  | nil => exact le_of_eq (by cases open_ <;> rfl)
  | cons c r ih =>
      have hle (b : Bool) : spaces b r + 1 ≤ (c :: r).length := Nat.succ_le_succ (ih b)
      cases open_ with
      | true => exact hle _
      | false =>
          unfold spaces
          split
          · exact hle _
          · split
            · exact hle _
            · exact Nat.zero_le _

theorem skipWs_le (h : pos ≤ src.length) : skipWs src pos ≤ src.length := by
  have hle := spaces_le false (src.drop pos)
  rw [List.length_drop] at hle
  unfold skipWs
  omega

/-- A read that goes on behind its result panics only where it does or where what follows does. -/
theorem bind_calm {α β : Type} {Q : α → Prop} {Why : Prop} {x : R α} {f : α → R β}
    (h : Outcome Q Why x) (hn : ¬ Why) (hf : ∀ v, x = .ok v → Q v → f v ≠ .error .panic) :
    x.bind f ≠ .error .panic := by
  cases h with
  | ok v hv hq =>
      have hnext := hf v hv hq
      rw [hv]
      exact hnext
  | message m hm =>
      rw [hm]
      intro he
      cases he
  | panic _ hwhy => exact absurd hwhy hn

theorem outcome_at (names : Names) (pos : Nat) :
    Outcome (fun v => ∃ b, TermAt src (skipWs src pos) b v.2) (LoneBlank src (skipWs src pos))
      (parseTerm src names (skipWs src pos)) := by
  have h := @parseTerm_outcome src names (skipWs src pos)
  rwa [skipWs_skipWs] at h

theorem parsePrefix_eq (h : pos + 7 ≤ src.length) : ∃ name, parsePrefix src names pos =
    (parseTerm src names (prefixIriAt src pos)).bind fun v => prefixIri src names name v.1 v.2 := by
  refine ⟨(src.drop (skipWs src (pos + 7))).takeWhile fun c => c ≠ byte ':', ?_⟩
  have hslice := @slice_scan src _ (fun c => c ≠ byte ':') (skipWs_le h)
  unfold parsePrefix nameEnd
  rw [hslice]
  rfl

theorem parsePrefix_of_lt (h : src.length < pos + 7) :
    parsePrefix src names pos = .error .panic := by
  have hskip : pos + 7 ≤ skipWs src (pos + 7) := le_skipWs
  have hslice : slice src (skipWs src (pos + 7)) (nameEnd src (skipWs src (pos + 7))) =
      .error .panic := if_neg fun hs => absurd (hskip.trans (hs.1.trans hs.2)) (by omega)
  unfold parsePrefix
  rw [hslice]
  rfl

theorem prefixIri_outcome {q : Nat} {name : List UInt8} {Why : Prop} (t : Term) :
    Outcome (fun v => t.asIri.isSome = true ∧ v.2 = afterPoint src q) Why
      (prefixIri src names name t q) := by
  cases t with
  | iri iri => exact .ok _ rfl ⟨rfl, rfl⟩
  | blank s => exact .message _ rfl
  | literal s dt lang => exact .message _ rfl

theorem parsePrefix_outcome (names : Names) (h : pos + 7 ≤ src.length) :
    Outcome (fun v => ∃ q, TermAt src (prefixIriAt src pos) true q ∧ v.2 = afterPoint src q)
      (LoneBlank src (prefixIriAt src pos)) (parsePrefix src names pos) := by
  rcases @parsePrefix_eq src names pos h with ⟨name, hname⟩
  have hterm := @outcome_at src names (nameEnd src (skipWs src (pos + 7)) + 1)
  rw [hname]
  cases hterm with
  | ok v hv hat =>
      rcases hat with ⟨b, hat⟩
      rcases @parseTerm_of_termAt src names (prefixIriAt src pos) _ _ _ hat skipWs_skipWs with
        ⟨t, ht, hb⟩
      rw [ht]
      have hiri := @prefixIri_outcome src names v.2 name (LoneBlank src (prefixIriAt src pos)) t
      cases hiri with
      | ok w hw hq =>
          rcases hq with ⟨hsome, hq⟩
          rw [← hb, hsome] at hat
          exact .ok w hw ⟨_, hat, hq⟩
      | message m hm => exact .message m hm
      | panic hp hwhy => exact .panic hp hwhy
  | message m hm =>
      replace hm : parseTerm src names (prefixIriAt src pos) = .error (.message m) := hm
      rw [hm]
      exact .message m rfl
  | panic hp hwhy =>
      replace hp : parseTerm src names (prefixIriAt src pos) = .error .panic := hp
      rw [hp]
      exact .panic rfl hwhy

theorem parsePrefix_of_termAt {q : Nat} (h : pos + 7 ≤ src.length)
    (hat : TermAt src (prefixIriAt src pos) true q) :
    ∃ names', parsePrefix src names pos = .ok (names', afterPoint src q) := by
  rcases @parsePrefix_eq src names pos h with ⟨name, hname⟩
  rcases @parseTerm_of_termAt src names (prefixIriAt src pos) _ _ _ hat skipWs_skipWs with
    ⟨t, ht, hb⟩
  rw [hname, ht]
  cases t with
  | iri iri => exact ⟨_, rfl⟩
  | blank s => cases hb
  | literal s dt lang => cases hb

theorem parseBase_outcome (names : Names) :
    Outcome (fun v => ∃ b q, TermAt src (skipWs src (pos + 5)) b q ∧ v.2 = afterPoint src q)
      (LoneBlank src (skipWs src (pos + 5))) (parseBase src names pos) := by
  have hterm := @outcome_at src names (pos + 5)
  unfold parseBase
  cases hterm with
  | ok v hv hat =>
      rcases hat with ⟨b, hat⟩
      rw [hv]
      exact .ok _ rfl ⟨b, _, hat, rfl⟩
  | message m hm =>
      rw [hm]
      exact .message m rfl
  | panic hp hwhy =>
      rw [hp]
      exact .panic rfl hwhy

theorem parseBase_of_termAt {q : Nat} {b : Bool} (hat : TermAt src (skipWs src (pos + 5)) b q) :
    ∃ names', parseBase src names pos = .ok (names', afterPoint src q) := by
  rcases @parseTerm_of_termAt src names (skipWs src (pos + 5)) _ _ _ hat skipWs_skipWs with
    ⟨t, ht, -⟩
  unfold parseBase
  rw [ht]
  exact ⟨_, rfl⟩

end Steps

section Total

variable {src : List UInt8}

/-- How much is left to do at a place. -/
def left (src : List UInt8) : Place → Nat → Nat
  | .statement, pos => 3 * (src.length - pos) + 2
  | .predicate, pos => 3 * (src.length - pos) + 1
  | .object, pos => 3 * (src.length - pos)

/-- From a place on, the reader does what is asked, whatever it has read. -/
def From (src : List UInt8) (P : R (List Triple × Names) → Prop) : Place → Nat → Prop
  | .statement, pos => ∀ names out, P (parseDocument src names out pos)
  | .predicate, pos => ∀ names out s, P (predicates src names out s pos)
  | .object, pos => ∀ names out s p, P (objects src names out s p pos)

theorem reads_predicate_le {place : Place} {pos : Nat} (h : Reads src place pos)
    (hplace : place = .predicate) : pos ≤ src.length := by
  cases h with
  | subject _ _ _ _ hle => exact hle
  | semicolon _ _ hc _ => exact skipWs_le (Nat.succ_le_of_lt (lt_of_get hc))
  | start | prefixed | based | rdfType | verb | comma | lastSemicolon | point => cases hplace

/-- A document that is not overrun is read without a panic. -/
theorem calm_of_reads (h : ¬ Overruns src) {place : Place} {pos : Nat} (hr : Reads src place pos) :
    From src (fun x => x ≠ .error .panic) place pos := by
  induction hn : left src place pos using Nat.strongRecOn generalizing place pos with
  | ind n ih =>
      have hskip : pos ≤ skipWs src pos := le_skipWs
      cases place with
      | statement =>
          intro names out
          rcases Nat.lt_or_ge (skipWs src pos) src.length with hlt | hend
          swap
          · rw [parseDocument_at_end hend]
            intro he
            cases he
          simp only [left] at hn
          rcases Classical.em (Either src (skipWs src pos) "@prefix" "PREFIX") with hpre | hpre
          · rw [parseDocument_of_prefixed hlt hpre]
            have hle : skipWs src pos + 7 ≤ src.length :=
              Nat.le_of_not_lt fun hover => h (.directive hr hpre hover)
            refine bind_calm (parsePrefix_outcome names hle)
              (fun hlone => h (.prefixIri hr hpre hle hlone)) fun v hv hat => ?_
            rcases hat with ⟨q, hat, hq⟩
            have hv' := lt_of_parsePrefix hv
            have hnext := Reads.prefixed hr hpre hle hat
            rw [← hq] at hnext
            exact ih (left src .statement v.2) (by simp only [left]; omega) hnext rfl v.1 out
          rcases Classical.em (Either src (skipWs src pos) "@base" "BASE") with hbase | hbase
          · rw [parseDocument_of_base hlt hpre hbase]
            refine bind_calm (parseBase_outcome names)
              (fun hlone => h (.base hr hpre hbase hlone)) fun v hv hat => ?_
            rcases hat with ⟨b, q, hat, hq⟩
            have hv' := lt_of_parseBase hv
            have hnext := Reads.based hr hpre hbase hat
            rw [← hq] at hnext
            exact ih (left src .statement v.2) (by simp only [left]; omega) hnext rfl v.1 out
          · rw [parseDocument_of_statement hlt hpre hbase]
            refine bind_calm (outcome_at names pos)
              (fun hlone => h (.subject hr hpre hbase hlone)) fun v hv hat => ?_
            rcases hat with ⟨b, hat⟩
            have hv' := le_of_parseTerm hv
            have hle : v.2 ≤ src.length :=
              Nat.le_of_not_lt fun hover => h (.subjectEnd hr hpre hbase hat hover)
            have hnext := Reads.subject hr hpre hbase hat hle
            exact ih (left src .predicate v.2) (by simp only [left]; omega) hnext rfl names out v.1
      | predicate =>
          intro names out s
          have hle := skipWs_le (reads_predicate_le hr rfl)
          simp only [left] at hn
          rcases Classical.em (Either src (skipWs src pos) "a " "a\t") with ha | ha
          · rw [predicates_of_a hle ha]
            exact ih (left src .object (skipWs src pos + 1)) (by simp only [left]; omega)
              (.rdfType hr ha) rfl names out s _
          · rw [predicates_of_term hle ha]
            refine bind_calm (outcome_at names pos)
              (fun hlone => h (.predicate hr ha hlone)) fun v hv hat => ?_
            rcases hat with ⟨b, hat⟩
            have hv' := le_of_parseTerm hv
            exact ih (left src .object v.2) (by simp only [left]; omega) (.verb hr ha hat) rfl
              names out s v.1
      | object =>
          intro names out s p
          rw [objects_eq]
          simp only [left] at hn
          refine bind_calm (outcome_at names pos)
            (fun hlone => h (.object hr hlone)) fun v hv hat => ?_
          rcases hat with ⟨b, hat⟩
          have hv' := le_of_parseTerm hv
          have hnext : v.2 ≤ skipWs src v.2 := le_skipWs
          have hsemi : skipWs src v.2 + 1 ≤ skipWs src (skipWs src v.2 + 1) := le_skipWs
          unfold afterObject
          split
          next hc =>
            rw [parseDocument_at_end (by
              rw [skipWs_skipWs]
              exact List.getElem?_eq_none_iff.mp hc)]
            intro he
            cases he
          next c hc =>
            have hlt := lt_of_get hc
            split
            next hcomma =>
              subst hcomma
              exact ih (left src .object (skipWs src v.2 + 1)) (by simp only [left]; omega)
                (.comma hr hat hc) rfl names _ s p
            split
            next hsemicolon =>
              subst hsemicolon
              split
              next hpoint =>
                exact ih (left src .statement (skipWs src (skipWs src v.2 + 1) + 1))
                  (by simp only [left]; omega) (.lastSemicolon hr hat hc hpoint) rfl names _
              next hpoint =>
                exact ih (left src .predicate (skipWs src (skipWs src v.2 + 1)))
                  (by simp only [left]; omega) (.semicolon hr hat hc hpoint) rfl names _ s
            split
            next hpoint =>
              subst hpoint
              exact ih (left src .statement (skipWs src v.2 + 1)) (by simp only [left]; omega)
                (.point hr hat hc) rfl names _
            next =>
              intro he
              cases he

theorem afterObject_semicolon {names : Names} {out : List Triple} {s p : Term} {q : Nat}
    (hc : src[q]? = some (byte ';')) : afterObject src names out s p q =
      if src[skipWs src (q + 1)]? = some (byte '.') then
        parseDocument src names out (skipWs src (q + 1) + 1)
      else predicates src names out s (skipWs src (q + 1)) := by
  unfold afterObject
  rw [hc]
  exact (if_neg (by decide)).trans (if_pos rfl)

theorem afterObject_point {names : Names} {out : List Triple} {s p : Term} {q : Nat}
    (hc : src[q]? = some (byte '.')) :
    afterObject src names out s p q = parseDocument src names out (q + 1) := by
  unfold afterObject
  rw [hc]
  exact (if_neg (by decide)).trans ((if_neg (by decide)).trans (if_pos rfl))

theorem lt_of_loneBlank {p : Nat} (h : LoneBlank src p) : p < src.length := by
  cases h with
  | here hc _ => exact lt_of_get hc
  | typed hc _ _ _ _ => exact lt_of_get hc

theorem lt_of_either {p : Nat} {s t : String} (hs : bytes s ≠ []) (ht : bytes t ≠ [])
    (h : Either src p s t) : p < src.length := by
  have hlt (w : List UInt8) (hw : w ≠ []) (hpre : w <+: src.drop p) : p < src.length := by
    have hle := hpre.length_le
    have hpos := List.length_pos_iff.mpr hw
    rw [List.length_drop] at hle
    omega
  exact h.elim (hlt _ hs) (hlt _ ht)

/-- A panic at a place the reader comes to is one of the whole document. -/
theorem panics_of_reads {place : Place} {pos : Nat} (hr : Reads src place pos)
    (hp : From src (fun x => x = .error .panic) place pos) : parse src = .error .panic := by
  induction hr with
  | start => exact hp _ _
  | prefixed _ hpre hle hat ih =>
      refine ih fun names out => ?_
      have hlt : skipWs src _ < src.length := lt_of_either (by decide) (by decide) hpre
      rcases @parsePrefix_of_termAt src names _ _ hle hat with ⟨names', hx⟩
      rw [parseDocument_of_prefixed hlt hpre, hx]
      exact hp names' out
  | based _ hpre hbase hat ih =>
      refine ih fun names out => ?_
      have hlt : skipWs src _ < src.length := lt_of_either (by decide) (by decide) hbase
      rcases @parseBase_of_termAt src names _ _ _ hat with ⟨names', hx⟩
      rw [parseDocument_of_base hlt hpre hbase, hx]
      exact hp names' out
  | subject _ hpre hbase hat _ ih =>
      refine ih fun names out => ?_
      rcases @parseTerm_of_termAt src names _ _ _ _ hat skipWs_skipWs with ⟨t, ht, -⟩
      rw [parseDocument_of_statement (le_of_termAt hat).1 hpre hbase, ht]
      exact hp names out t
  | rdfType hr ha ih =>
      refine ih fun names out s => ?_
      rw [predicates_of_a (skipWs_le (reads_predicate_le hr rfl)) ha]
      exact hp names out s _
  | verb hr ha hat ih =>
      refine ih fun names out s => ?_
      rcases @parseTerm_of_termAt src names _ _ _ _ hat skipWs_skipWs with ⟨t, ht, -⟩
      rw [predicates_of_term (skipWs_le (reads_predicate_le hr rfl)) ha, ht]
      exact hp names out s t
  | comma _ hat hc ih =>
      refine ih fun names out s p => ?_
      rcases @parseTerm_of_termAt src names _ _ _ _ hat skipWs_skipWs with ⟨t, ht, -⟩
      rw [objects_eq, ht]
      have hnext := hp names (out ++ [⟨s, p, t⟩]) s p
      refine Eq.trans ?_ hnext
      change afterObject src names _ s p (skipWs src _) = _
      unfold afterObject
      rw [hc]
      exact if_pos rfl
  | semicolon _ hat hc hn ih =>
      refine ih fun names out s p => ?_
      rcases @parseTerm_of_termAt src names _ _ _ _ hat skipWs_skipWs with ⟨t, ht, -⟩
      rw [objects_eq, ht]
      refine (afterObject_semicolon hc).trans ?_
      rw [if_neg hn]
      exact hp names _ s
  | lastSemicolon _ hat hc hpoint ih =>
      refine ih fun names out s p => ?_
      rcases @parseTerm_of_termAt src names _ _ _ _ hat skipWs_skipWs with ⟨t, ht, -⟩
      rw [objects_eq, ht]
      refine (afterObject_semicolon hc).trans ?_
      rw [if_pos hpoint]
      exact hp names _
  | point _ hat hc ih =>
      refine ih fun names out s p => ?_
      rcases @parseTerm_of_termAt src names _ _ _ _ hat skipWs_skipWs with ⟨t, ht, -⟩
      rw [objects_eq, ht]
      exact (afterObject_point hc).trans (hp names _)

/-- A document that is overrun panics. -/
theorem panics_of_overruns (h : Overruns src) : parse src = .error .panic := by
  cases h with
  | directive hr hpre hover =>
      refine panics_of_reads hr fun names out => ?_
      have hlt : skipWs src _ < src.length := lt_of_either (by decide) (by decide) hpre
      rw [parseDocument_of_prefixed hlt hpre, parsePrefix_of_lt hover]
      rfl
  | prefixIri hr hpre hle hlone =>
      refine panics_of_reads hr fun names out => ?_
      have hlt : skipWs src _ < src.length := lt_of_either (by decide) (by decide) hpre
      rcases @parsePrefix_eq src names _ hle with ⟨name, hname⟩
      have hpanic : parseTerm src names (prefixIriAt src (skipWs src _)) = .error .panic :=
        parseTerm_of_loneBlank hlone skipWs_skipWs
      rw [parseDocument_of_prefixed hlt hpre, hname, hpanic]
      rfl
  | base hr hpre hbase hlone =>
      refine panics_of_reads hr fun names out => ?_
      have hlt : skipWs src _ < src.length := lt_of_either (by decide) (by decide) hbase
      rw [parseDocument_of_base hlt hpre hbase]
      unfold parseBase
      rw [parseTerm_of_loneBlank hlone skipWs_skipWs]
      rfl
  | subject hr hpre hbase hlone =>
      refine panics_of_reads hr fun names out => ?_
      rw [parseDocument_of_statement (lt_of_loneBlank hlone) hpre hbase,
        parseTerm_of_loneBlank hlone skipWs_skipWs]
      rfl
  | subjectEnd hr hpre hbase hat hover =>
      refine panics_of_reads hr fun names out => ?_
      rcases @parseTerm_of_termAt src names _ _ _ _ hat skipWs_skipWs with ⟨t, ht, -⟩
      rw [parseDocument_of_statement (le_of_termAt hat).1 hpre hbase, ht]
      exact predicates_panics hover
  | predicate hr ha hlone =>
      refine panics_of_reads hr fun names out s => ?_
      rw [predicates_of_term (skipWs_le (reads_predicate_le hr rfl)) ha,
        parseTerm_of_loneBlank hlone skipWs_skipWs]
      rfl
  | object hr hlone =>
      refine panics_of_reads hr fun names out s p => ?_
      rw [objects_eq, parseTerm_of_loneBlank hlone skipWs_skipWs]
      rfl

/-- Every document is read to triples or to an error exactly if it is not overrun. -/
theorem reads_iff (src : List UInt8) :
    (∃ v, parse src = .ok v) ∨ (∃ m, parse src = .error (.message m)) ↔ ¬ Overruns src := by
  constructor
  · rintro (⟨v, hv⟩ | ⟨m, hm⟩) h
    · rw [panics_of_overruns h] at hv
      cases hv
    · rw [panics_of_overruns h] at hm
      cases hm
  · intro h
    have hcalm := calm_of_reads h .start ⟨[], ""⟩ []
    cases hx : parse src with
    | ok v => exact .inl ⟨v, rfl⟩
    | error e =>
        cases e with
        | panic => exact absurd hx hcalm
        | message m => exact .inr ⟨m, rfl⟩

/-- A subject whose IRI is cut short. -/
theorem overruns_cut : Overruns (bytes "<a") := by
  have hprefix : ¬ Either (bytes "<a") 0 "@prefix" "PREFIX" := by
    rintro (h | h) <;> exact absurd h (by decide)
  have hbase : ¬ Either (bytes "<a") 0 "@base" "BASE" := by
    rintro (h | h) <;> exact absurd h (by decide)
  have hiri : TermAt (bytes "<a") 0 true 3 := @TermAt.iri (bytes "<a") 0 (by decide)
  exact .subjectEnd .start hprefix hbase hiri (by decide)

theorem not_reads_cut :
    ¬ ((∃ v, parse (bytes "<a") = .ok v) ∨ ∃ m, parse (bytes "<a") = .error (.message m)) := by
  rintro (⟨v, hv⟩ | ⟨m, hm⟩)
  · rw [panics_of_overruns overruns_cut] at hv
    cases hv
  · rw [panics_of_overruns overruns_cut] at hm
    cases hm

end Total

end OntologicalDb.TurtleReader
