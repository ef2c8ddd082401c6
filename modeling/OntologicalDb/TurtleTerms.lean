import Mathlib
import OntologicalDb.CypherLexer
import OntologicalDb.ExceptRules

/-!
The reader of Turtle and N-Triples: a cursor over the bytes of a document, whose indices and slices
panic outside of the buffer.
-/

namespace OntologicalDb.TurtleTerms

open OntologicalDb.CypherLexer (lossy)

section Data

inductive Fault
  | panic
  | message (s : String)

abbrev R (α : Type) : Type := Except Fault α

inductive Term
  | iri (s : String)
  | blank (s : String)
  | literal (value : String) (datatype : Option String) (lang : Option String)

structure Triple where
  s : Term
  p : Term
  o : Term

/-- The prefixes, the last one of a name first, and the base. -/
structure Names where
  prefixes : List (String × String)
  base : String

def rdfType : String := "http://www.w3.org/1999/02/22-rdf-syntax-ns#type"

def xsd (name : String) : String := "http://www.w3.org/2001/XMLSchema#" ++ name

end Data

section Buffer

variable (src : List UInt8)

def byte (c : Char) : UInt8 := c.toNat.toUInt8

def isSpace (c : UInt8) : Bool := c = 32 || c = 9 || c = 10 || c = 12 || c = 13

def isDigit (c : UInt8) : Bool := 48 ≤ c && c ≤ 57

def isAlphanumeric (c : UInt8) : Bool :=
  isDigit c || (65 ≤ c && c ≤ 90) || (97 ≤ c && c ≤ 122)

def slice (start stop : Nat) : R (List UInt8) :=
  if start ≤ stop ∧ stop ≤ src.length then .ok ((src.drop start).take (stop - start))
  else .error .panic

def startsWith (pos : Nat) (s : List UInt8) : R Bool :=
  if pos ≤ src.length then .ok (s.isPrefixOf (src.drop pos)) else .error .panic

/-- How many bytes of white space and comments there are; the flag says that a comment is open. -/
def spaces : Bool → List UInt8 → Nat
  | _, [] => 0
  | true, c :: r => spaces (c ≠ byte '\n') r + 1
  | false, c :: r =>
      if isSpace c then spaces false r + 1
      else if c = byte '#' then spaces true r + 1
      else 0

def skipWs (pos : Nat) : Nat := pos + spaces false (src.drop pos)

/-- On while the bytes are of a kind. -/
def scan (kind : UInt8 → Bool) (pos : Nat) : Nat := pos + ((src.drop pos).takeWhile kind).length

end Buffer

section Literals

variable (src : List UInt8)

def unescape (c : UInt8) : Char :=
  if c = byte 'n' then '\n' else if c = byte 't' then '\t' else if c = byte 'r' then '\r'
  else Char.ofNat c.toNat

/-- How long the lead byte of a character says it is. -/
def charLength (c : UInt8) : Nat := if 0xF0 ≤ c then 4 else if 0xE0 ≤ c then 3 else 2

theorem two_le_charLength (c : UInt8) : 2 ≤ charLength c := by
  unfold charLength
  split
  · decide
  · split <;> decide

/-- Whether a literal ends with this quote. -/
def closes (quote : UInt8) (long : Bool) (c : UInt8) (pos : Nat) : R Bool :=
  if c = quote then
    if long then startsWith src pos [quote, quote, quote] else .ok true
  else .ok false

/-- A literal from behind its opening quotes: its value and the position behind the closing ones. -/
def literalBody (quote : UInt8) (long : Bool) (pos : Nat) : R (List Char × Nat) :=
  match _hc : src[pos]? with
  | none => .error (.message "unterminated literal")
  | some c =>
      if c = byte '\\' then
        (literalBody quote long (pos + 2)).map fun v =>
          (unescape (src[pos + 1]?.getD (byte '\\')) :: v.1, v.2)
      else
        match closes src quote long c pos with
        | .error e => .error e
        | .ok true => .ok ([], pos + if long then 3 else 1)
        | .ok false =>
            if c < 0x80 then
              (literalBody quote long (pos + 1)).map fun v => (Char.ofNat c.toNat :: v.1, v.2)
            else
              match slice src pos (min (pos + charLength c) src.length) with
              | .error e => .error e
              | .ok bytes =>
                  (literalBody quote long (min (pos + charLength c) src.length)).map fun v =>
                    (lossy bytes ++ v.1, v.2)
termination_by src.length - pos
decreasing_by
  all_goals
    have hlt : pos < src.length := (List.getElem?_eq_some_iff.mp _hc).1
    have hlen := two_le_charLength c
    omega

end Literals

section Terms

variable (src : List UInt8) (names : Names)

def resolve (iri : String) : String :=
  if "://".toList <:+: iri.toList ∨ "urn:".toList <+: iri.toList ∨ names.base = "" then iri
  else names.base ++ iri

/-- `<…>`; the position is the one of the angle bracket. -/
def iriRef (pos : Nat) : R (Term × Nat) := do
  let iri ← slice src (pos + 1) (scan src (fun c => c ≠ byte '>') (pos + 1))
  return (.iri (resolve names (String.ofList (lossy iri))),
    scan src (fun c => c ≠ byte '>') (pos + 1) + 1)

def isBlankChar (c : UInt8) : Bool := isAlphanumeric c || c = byte '_' || c = byte '-'

/-- `_:name` -/
def blankNode (pos : Nat) : R (Term × Nat) := do
  let name ← slice src (pos + 2) (scan src isBlankChar (pos + 2))
  return (.blank (String.ofList (lossy name)), scan src isBlankChar (pos + 2))

def isNumberChar (c : UInt8) : Bool :=
  isDigit c || c = byte '.' || c = byte '-' || c = byte '+' || c = byte 'e'

def number (pos : Nat) : R (Term × Nat) := do
  let v ← slice src pos (scan src isNumberChar pos)
  return (.literal (String.ofList (lossy v))
    (some (if v.contains (byte '.') then xsd "decimal" else xsd "integer")) none,
    scan src isNumberChar pos)

def isWordChar (c : UInt8) : Bool :=
  isAlphanumeric c || c = byte ':' || c = byte '_' || c = byte '-' || c = byte '.' ||
    c = byte '#' || c = byte '/'

/-- A word without the points at its end. -/
def untilPoints (w : List UInt8) : List UInt8 := w.rdropWhile fun c => c = byte '.'

/-- `foaf:Person`, `:Local`, `true`, `false` -/
def wordTerm (raw : List Char) : Term :=
  if raw = "true".toList ∨ raw = "false".toList then
    .literal (String.ofList raw) (some (xsd "boolean")) none
  else if raw.contains ':' then
    let pfx := String.ofList (raw.takeWhile fun c => c ≠ ':')
    let base := (names.prefixes.lookup pfx).getD ("urn:prefix:" ++ pfx ++ "#")
    .iri (base ++ String.ofList (raw.dropWhile fun c => c ≠ ':').tail)
  else .iri (resolve names (String.ofList raw))

def word (pos : Nat) : R (Term × Nat) := do
  let w ← slice src pos (scan src isWordChar pos)
  return (wordTerm names (lossy (untilPoints w)), pos + (untilPoints w).length)

def isLangChar (c : UInt8) : Bool := isAlphanumeric c || c = byte '-'

/-- The body of a literal whose opening quote is at the position. -/
def literal (quote : UInt8) (pos : Nat) : R (List Char × Nat) := do
  let long ← startsWith src pos [quote, quote, quote]
  literalBody src quote long (pos + if long then 3 else 1)

def Term.asIri : Term → Option String
  | .iri s => some s
  | _ => none

end Terms

section Progress

variable {src : List UInt8} {pos : Nat} {c : UInt8}

theorem le_skipWs : pos ≤ skipWs src pos := Nat.le_add_right _ _

theorem lt_of_get (h : src[pos]? = some c) : pos < src.length :=
  (List.getElem?_eq_some_iff.mp h).1

/-- A read that does not panic, and whose results are of a kind. -/
def Safe {α : Type} (Q : α → Prop) : R α → Prop
  | .ok v => Q v
  | .error .panic => False
  | .error (.message _) => True

theorem Safe.map {α β : Type} {Q : α → Prop} {P : β → Prop} {x : R α} {f : α → β}
    (h : Safe Q x) (hf : ∀ v, Q v → P (f v)) : Safe P (x.map f) := by
  cases x with
  | ok v => exact hf v h
  | error e => cases e <;> exact h

theorem Safe.ok {α : Type} {Q : α → Prop} {x : R α} {v : α} (h : Safe Q x) (hx : x = .ok v) :
    Q v := by
  rw [hx] at h
  exact h

theorem literalBody_of_none {quote : UInt8} {long : Bool} (h : src[pos]? = none) :
    literalBody src quote long pos = .error (.message "unterminated literal") := by
  rw [literalBody]
  split
  next => rfl
  next c hc => rw [h] at hc; cases hc

theorem literalBody_of_escape {quote : UInt8} {long : Bool} (h : src[pos]? = some (byte '\\')) :
    literalBody src quote long pos = (literalBody src quote long (pos + 2)).map fun v =>
      (unescape (src[pos + 1]?.getD (byte '\\')) :: v.1, v.2) := by
  rw [literalBody]
  split
  next hc => rw [h] at hc; cases hc
  next c hc =>
    rcases Option.some.inj (h.symm.trans hc) with rfl
    exact if_pos rfl

theorem literalBody_of_char {quote : UInt8} {long : Bool} (h : src[pos]? = some c)
    (hne : c ≠ byte '\\') (hopen : closes src quote long c pos = .ok false) :
    literalBody src quote long pos =
      if c < 0x80 then
        (literalBody src quote long (pos + 1)).map fun v => (Char.ofNat c.toNat :: v.1, v.2)
      else
        (slice src pos (min (pos + charLength c) src.length)).bind fun bytes =>
          (literalBody src quote long (min (pos + charLength c) src.length)).map fun v =>
            (lossy bytes ++ v.1, v.2) := by
  rw [literalBody]
  split
  next hc => rw [h] at hc; cases hc
  next c' hc =>
    rcases Option.some.inj (h.symm.trans hc) with rfl
    rw [if_neg hne, hopen]
    cases hs : slice src pos (min (pos + charLength c) src.length) <;> rfl

theorem literalBody_of_close {quote : UInt8} {long : Bool} (h : src[pos]? = some c)
    (hne : c ≠ byte '\\') (hclose : closes src quote long c pos = .ok true) :
    literalBody src quote long pos = .ok ([], pos + if long then 3 else 1) := by
  rw [literalBody]
  split
  next hc => rw [h] at hc; cases hc
  next c' hc =>
    rcases Option.some.inj (h.symm.trans hc) with rfl
    rw [if_neg hne, hclose]

theorem startsWith_of_le {s : List UInt8} (h : pos ≤ src.length) :
    startsWith src pos s = .ok (s.isPrefixOf (src.drop pos)) := if_pos h

/-- Whether a literal ends is told without a panic, and its quotes are in the buffer. -/
theorem closes_spec (quote : UInt8) (long : Bool) (h : src[pos]? = some c) :
    ∃ b, closes src quote long c pos = .ok b ∧
      (b = true → pos + (if long then 3 else 1) ≤ src.length) := by
  have hlt := lt_of_get h
  unfold closes
  split
  · cases long with
    | false => exact ⟨true, rfl, fun _ => hlt⟩
    | true =>
        refine ⟨_, startsWith_of_le hlt.le, fun hpre => ?_⟩
        have hle := (List.isPrefixOf_iff_prefix.mp hpre).length_le
        rw [List.length_drop] at hle
        change pos + 3 ≤ src.length
        simp only [List.length_cons, List.length_nil] at hle
        omega
  · exact ⟨false, rfl, fun hb => by cases hb⟩

/-- A body ends behind where it starts and within the buffer, and no slice of it panics. -/
theorem literalBody_safe (quote : UInt8) (long : Bool) (pos : Nat) :
    Safe (fun v => pos < v.2 ∧ v.2 ≤ src.length) (literalBody src quote long pos) := by
  induction hn : src.length - pos using Nat.strongRecOn generalizing pos with
  | ind n ih =>
      cases hc : src[pos]? with
      | none =>
          rw [literalBody_of_none hc]
          trivial
      | some c =>
          have hlt := lt_of_get hc
          have hnext (q : Nat) (hq : pos < q) :
              Safe (fun v => pos < v.2 ∧ v.2 ≤ src.length) (literalBody src quote long q) := by
            have h := ih (src.length - q) (by omega) q rfl
            cases hx : literalBody src quote long q with
            | ok v =>
                have hv := h.ok hx
                exact ⟨hq.trans hv.1, hv.2⟩
            | error e =>
                rw [hx] at h
                cases e <;> exact h
          rcases Decidable.em (c = byte '\\') with rfl | hne
          · rw [literalBody_of_escape hc]
            exact (hnext (pos + 2) (by omega)).map fun _ hv => hv
          rcases closes_spec quote long hc with ⟨b, hb, hle⟩
          cases b with
          | true =>
              rw [literalBody_of_close hc hne hb]
              refine ⟨?_, hle rfl⟩
              dsimp only
              split <;> omega
          | false =>
              have hlen := two_le_charLength c
              rw [literalBody_of_char hc hne hb]
              split
              · exact (hnext (pos + 1) (by omega)).map fun _ hv => hv
              · have hslice : slice src pos (min (pos + charLength c) src.length) = .ok _ :=
                  if_pos ⟨by omega, Nat.min_le_right _ _⟩
                rw [hslice]
                exact (hnext _ (by omega)).map fun _ hv => hv

theorem le_scan {kind : UInt8 → Bool} : pos ≤ scan src kind pos := Nat.le_add_right _ _

theorem scan_le {kind : UInt8 → Bool} (h : pos ≤ src.length) : scan src kind pos ≤ src.length := by
  have hle := ( List.takeWhile_prefix (l := src.drop pos) kind).length_le
  rw [List.length_drop] at hle
  unfold scan
  omega

theorem slice_of_le {start stop : Nat} (h : start ≤ stop) (hle : stop ≤ src.length) :
    slice src start stop = .ok ((src.drop start).take (stop - start)) := if_pos ⟨h, hle⟩

theorem slice_scan {kind : UInt8 → Bool} (h : pos ≤ src.length) :
    slice src pos (scan src kind pos) = .ok ((src.drop pos).takeWhile kind) := by
  rw [slice_of_le le_scan (scan_le h)]
  unfold scan
  rw [Nat.add_sub_cancel_left, ← List.prefix_iff_eq_take.mp ( List.takeWhile_prefix kind)]

/-- The quotes at a position open a long literal. -/
def isLong (src : List UInt8) (quote : UInt8) (pos : Nat) : Bool :=
  [quote, quote, quote].isPrefixOf (src.drop pos)

def bodyStart (src : List UInt8) (quote : UInt8) (pos : Nat) : Nat :=
  pos + if isLong src quote pos then 3 else 1

theorem literal_eq {quote : UInt8} (h : pos < src.length) :
    literal src quote pos =
      literalBody src quote (isLong src quote pos) (bodyStart src quote pos) := by
  unfold literal
  rw [startsWith_of_le h.le]
  rfl

theorem lt_bodyStart {quote : UInt8} : pos < bodyStart src quote pos := by
  unfold bodyStart
  split <;> omega

theorem literal_safe {quote : UInt8} (h : pos < src.length) :
    Safe (fun v => pos < v.2 ∧ v.2 ≤ src.length) (literal src quote pos) := by
  rw [literal_eq h]
  have hbody := @literalBody_safe src quote (isLong src quote pos) (bodyStart src quote pos)
  cases hx : literalBody src quote (isLong src quote pos) (bodyStart src quote pos) with
  | ok v =>
      have hv := hbody.ok hx
      exact ⟨lt_bodyStart.trans hv.1, hv.2⟩
  | error e =>
      rw [hx] at hbody
      cases e <;> exact hbody

end Progress

section Reader

variable (src : List UInt8)

def opensNumber (c : UInt8) : Bool := isDigit c || c = byte '-' || c = byte '+'

def isQuote (c : UInt8) : Bool := c = byte '"' || c = byte '\''

def carets : List UInt8 := [byte '^', byte '^']

def parseTerm (names : Names) (pos : Nat) : R (Term × Nat) :=
  match _hc : src[skipWs src pos]? with
  | none => .error (.message "unexpected end of document")
  | some c =>
      if c = byte '<' then iriRef src names (skipWs src pos)
      else if c = byte '_' then blankNode src (skipWs src pos)
      else if isQuote c then
        match _hl : literal src c (skipWs src pos) with
        | .error e => .error e
        | .ok v =>
            if src[v.2]? = some (byte '@') then
              (slice src (v.2 + 1) (scan src isLangChar (v.2 + 1))).map fun tag =>
                (.literal (String.ofList v.1) none (some (String.ofList (lossy tag))),
                  scan src isLangChar (v.2 + 1))
            else
              match startsWith src v.2 carets with
              | .error e => .error e
              | .ok true =>
                  (parseTerm names (v.2 + 2)).map fun d =>
                    (.literal (String.ofList v.1) d.1.asIri none, d.2)
              | .ok false => .ok (.literal (String.ofList v.1) none none, v.2)
      else if opensNumber c then number src (skipWs src pos)
      else word src names (skipWs src pos)
termination_by src.length - pos
decreasing_by
  have hlt := lt_of_get _hc
  have hle : pos ≤ skipWs src pos := le_skipWs
  have hv := (literal_safe hlt).ok _hl
  omega

end Reader

section Spec

variable (src : List UInt8)

/-- The quotes that close a literal are at a position. -/
def Closing (quote : UInt8) (long : Bool) (pos : Nat) : Prop :=
  (if long then [quote, quote, quote] else [quote]) <+: src.drop pos

/-- How many bytes a character is read as. -/
def width (c : UInt8) : Nat := if c < 0x80 then 1 else charLength c

/-- The body of a literal from a position to the one behind its closing quotes. -/
inductive BodyAt (quote : UInt8) (long : Bool) : Nat → Nat → Prop
  | escape {p q : Nat} : src[p]? = some (byte '\\') → BodyAt quote long (p + 2) q →
      BodyAt quote long p q
  | close {p : Nat} : src[p]? ≠ some (byte '\\') → Closing src quote long p →
      BodyAt quote long p (p + if long then 3 else 1)
  | char {p q : Nat} {c : UInt8} : src[p]? = some c → c ≠ byte '\\' →
      ¬ Closing src quote long p → BodyAt quote long (min (p + width c) src.length) q →
      BodyAt quote long p q

def isBoolean (raw : List Char) : Bool := raw = "true".toList || raw = "false".toList

def wordAt (pos : Nat) : List UInt8 := untilPoints ((src.drop pos).takeWhile isWordChar)

/-- A literal with its quotes. -/
def LiteralAt (quote : UInt8) (p q : Nat) : Prop :=
  BodyAt src quote (isLong src quote p) (bodyStart src quote p) q

/-- A term from its first byte to the position behind it; the flag says that it is an IRI. -/
inductive TermAt : Nat → Bool → Nat → Prop
  | iri {p : Nat} : src[p]? = some (byte '<') →
      TermAt p true (scan src (fun c => c ≠ byte '>') (p + 1) + 1)
  | blank {p : Nat} : src[p]? = some (byte '_') → p + 2 ≤ src.length →
      TermAt p false (scan src isBlankChar (p + 2))
  | tagged {p q : Nat} {c : UInt8} : src[p]? = some c → isQuote c → LiteralAt src c p q →
      src[q]? = some (byte '@') → TermAt p false (scan src isLangChar (q + 1))
  | typed {p q r : Nat} {c : UInt8} {b : Bool} : src[p]? = some c → isQuote c →
      LiteralAt src c p q → carets <+: src.drop q → TermAt (skipWs src (q + 2)) b r →
      TermAt p false r
  | plain {p q : Nat} {c : UInt8} : src[p]? = some c → isQuote c → LiteralAt src c p q →
      src[q]? ≠ some (byte '@') → ¬ carets <+: src.drop q → TermAt p false q
  | number {p : Nat} {c : UInt8} : src[p]? = some c → opensNumber c →
      TermAt p false (scan src isNumberChar p)
  | word {p : Nat} {c : UInt8} : src[p]? = some c → c ≠ byte '<' → c ≠ byte '_' → ¬ isQuote c →
      ¬ opensNumber c →
      TermAt p (!isBoolean (lossy (wordAt src p))) (p + (wordAt src p).length)

/-- A term that starts with an underscore as the last byte of the document. -/
inductive LoneBlank : Nat → Prop
  | here {p : Nat} : src[p]? = some (byte '_') → src.length < p + 2 → LoneBlank p
  | typed {p q : Nat} {c : UInt8} : src[p]? = some c → isQuote c → LiteralAt src c p q →
      carets <+: src.drop q → LoneBlank (skipWs src (q + 2)) → LoneBlank p

end Spec

section Literal

variable {src : List UInt8} {quote c : UInt8} {long : Bool} {pos : Nat}

theorem drop_of_get (h : src[pos]? = some c) : src.drop pos = c :: src.drop (pos + 1) := by
  rcases List.getElem?_eq_some_iff.mp h with ⟨hlt, hc⟩
  rw [List.drop_eq_getElem_cons hlt, hc]

theorem closes_iff (h : src[pos]? = some c) :
    closes src quote long c pos = .ok true ↔ Closing src quote long pos := by
  have hdrop := drop_of_get h
  unfold closes Closing
  rw [hdrop]
  cases long with
  | false =>
      simp only [Bool.false_eq_true, if_false, List.cons_prefix_cons]
      constructor
      · intro hx
        split at hx
        · next hq => exact ⟨hq.symm, List.nil_prefix⟩
        · cases hx
      · rintro ⟨rfl, -⟩
        exact if_pos rfl
  | true =>
      rw [if_pos rfl, if_pos rfl, startsWith_of_le (lt_of_get h).le, hdrop]
      constructor
      · intro hx
        split at hx
        · exact List.isPrefixOf_iff_prefix.mp (Except.ok.inj hx)
        · cases hx
      · intro hpre
        rw [if_pos (List.cons_prefix_cons.mp hpre).1.symm, List.isPrefixOf_iff_prefix.mpr hpre]

theorem closes_of_not (h : src[pos]? = some c) (hn : ¬ Closing src quote long pos) :
    closes src quote long c pos = .ok false := by
  rcases closes_spec quote long h with ⟨b, hb, -⟩
  cases b with
  | true => exact absurd ((closes_iff h).mp hb) hn
  | false => exact hb

theorem get_of_closing (h : Closing src quote long pos) : ∃ c, src[pos]? = some c := by
  cases hc : src[pos]? with
  | some c => exact ⟨c, rfl⟩
  | none =>
      unfold Closing at h
      rw [List.drop_eq_nil_of_le (List.getElem?_eq_none_iff.mp hc), List.prefix_nil] at h
      split at h <;> cases h

theorem literalBody_step (h : src[pos]? = some c) (hne : c ≠ byte '\\')
    (hn : ¬ Closing src quote long pos) :
    ∃ part, literalBody src quote long pos =
      (literalBody src quote long (min (pos + width c) src.length)).map fun v =>
        (part ++ v.1, v.2) := by
  have hlt := lt_of_get h
  rw [literalBody_of_char h hne (closes_of_not h hn)]
  unfold width
  split
  · rw [min_eq_left (by omega)]
    exact ⟨[_], rfl⟩
  · have hlen := two_le_charLength c
    rw [slice_of_le (by omega) (Nat.min_le_right _ _)]
    exact ⟨_, rfl⟩

theorem literalBody_of_bodyAt {q : Nat} (h : BodyAt src quote long pos q) :
    ∃ v, literalBody src quote long pos = .ok (v, q) := by
  induction h with
  | escape hc _ ih =>
      rcases ih with ⟨v, hv⟩
      rw [literalBody_of_escape hc, hv]
      exact ⟨_, rfl⟩
  | close hne hclose =>
      rcases get_of_closing hclose with ⟨c, hc⟩
      exact ⟨[], literalBody_of_close hc (fun he => hne (he ▸ hc)) ((closes_iff hc).mpr hclose)⟩
  | char hc hne hn _ ih =>
      rcases ih with ⟨v, hv⟩
      rcases literalBody_step hc hne hn with ⟨part, hpart⟩
      rw [hpart, hv]
      exact ⟨_, rfl⟩

theorem bodyAt_of_literalBody {v : List Char × Nat}
    (h : literalBody src quote long pos = .ok v) : BodyAt src quote long pos v.2 := by
  induction hn : src.length - pos using Nat.strongRecOn generalizing pos v with
  | ind n ih =>
      cases hc : src[pos]? with
      | none =>
          rw [literalBody_of_none hc] at h
          cases h
      | some c =>
          have hlt := lt_of_get hc
          rcases Decidable.em (c = byte '\\') with rfl | hne
          · rw [literalBody_of_escape hc] at h
            rcases ExceptRules.map_eq_ok.mp h with ⟨w, hw, rfl⟩
            have hbody := ih (src.length - (pos + 2)) (by omega) hw rfl
            exact .escape hc hbody
          rcases Classical.em (Closing src quote long pos) with hclose | hopen
          · rw [literalBody_of_close hc hne ((closes_iff hc).mpr hclose)] at h
            rcases Except.ok.inj h with rfl
            exact .close (fun he => hne (Option.some.inj (hc.symm.trans he))) hclose
          · rcases literalBody_step hc hne hopen with ⟨part, hpart⟩
            rw [hpart] at h
            rcases ExceptRules.map_eq_ok.mp h with ⟨w, hw, rfl⟩
            have hwidth : 1 ≤ width c := by
              have hlen := two_le_charLength c
              unfold width
              split <;> omega
            have hbody := ih (src.length - min (pos + width c) src.length) (by omega) hw rfl
            exact .char hc hne hopen hbody

theorem literal_of_literalAt {q : Nat} (hc : src[pos]? = some c) (h : LiteralAt src quote pos q) :
    ∃ v, literal src quote pos = .ok (v, q) := by
  rw [literal_eq (lt_of_get hc)]
  exact literalBody_of_bodyAt h

theorem literalAt_of_literal {v : List Char × Nat} (hc : src[pos]? = some c)
    (h : literal src quote pos = .ok v) : LiteralAt src quote pos v.2 := by
  rw [literal_eq (lt_of_get hc)] at h
  exact bodyAt_of_literalBody h

end Literal

section Terms

variable {src : List UInt8} {names : Names} {c : UInt8} {pos : Nat}

theorem iriRef_eq (h : pos < src.length) : ∃ iri, iriRef src names pos =
    .ok (.iri iri, scan src (fun c => c ≠ byte '>') (pos + 1) + 1) := by
  unfold iriRef
  rw [slice_scan (Nat.succ_le_of_lt h)]
  exact ⟨_, rfl⟩

theorem blankNode_eq (h : pos + 2 ≤ src.length) : ∃ name, blankNode src pos =
    .ok (.blank name, scan src isBlankChar (pos + 2)) := by
  unfold blankNode
  rw [slice_scan h]
  exact ⟨_, rfl⟩

theorem blankNode_panics (h : src.length < pos + 2) : blankNode src pos = .error .panic := by
  have hslice : slice src (pos + 2) (scan src isBlankChar (pos + 2)) = .error .panic :=
    if_neg fun hs => absurd (le_scan.trans hs.2) (by omega)
  unfold blankNode
  rw [hslice]
  rfl

theorem number_eq (h : pos < src.length) : ∃ v dt, number src pos =
    .ok (.literal v (some dt) none, scan src isNumberChar pos) := by
  unfold number
  rw [slice_scan h.le]
  exact ⟨_, _, rfl⟩

theorem word_eq (h : pos < src.length) : word src names pos =
    .ok (wordTerm names (lossy (wordAt src pos)), pos + (wordAt src pos).length) := by
  unfold word
  rw [slice_scan h.le]
  rfl

theorem wordTerm_asIri (raw : List Char) :
    (wordTerm names raw).asIri.isSome = !isBoolean raw := by
  unfold wordTerm isBoolean
  split
  · next h => rcases h with rfl | rfl <;> rfl
  · next h =>
      have hraw : (decide (raw = "true".toList) || decide (raw = "false".toList)) = false := by
        rcases not_or.mp h with ⟨ht, hf⟩
        rw [decide_eq_false ht, decide_eq_false hf]
        rfl
      rw [hraw]
      split <;> rfl

theorem parseTerm_of_none (h : src[skipWs src pos]? = none) :
    parseTerm src names pos = .error (.message "unexpected end of document") := by
  rw [parseTerm]
  split
  next => rfl
  next c hc => rw [h] at hc; cases hc

theorem parseTerm_of_some (h : src[skipWs src pos]? = some c) (hq : ¬ isQuote c) :
    parseTerm src names pos =
      if c = byte '<' then iriRef src names (skipWs src pos)
      else if c = byte '_' then blankNode src (skipWs src pos)
      else if opensNumber c then number src (skipWs src pos)
      else word src names (skipWs src pos) := by
  rw [parseTerm]
  split
  next hc => rw [h] at hc; cases hc
  next c' hc =>
    rcases Option.some.inj (h.symm.trans hc) with rfl
    rw [if_neg hq]

/-- What follows a literal. -/
def suffix (src : List UInt8) (names : Names) (v : List Char × Nat) : R (Term × Nat) :=
  if src[v.2]? = some (byte '@') then
    (slice src (v.2 + 1) (scan src isLangChar (v.2 + 1))).map fun tag =>
      (.literal (String.ofList v.1) none (some (String.ofList (lossy tag))),
        scan src isLangChar (v.2 + 1))
  else
    match startsWith src v.2 carets with
    | .error e => .error e
    | .ok true =>
        (parseTerm src names (v.2 + 2)).map fun d =>
          (.literal (String.ofList v.1) d.1.asIri none, d.2)
    | .ok false => .ok (.literal (String.ofList v.1) none none, v.2)

theorem parseTerm_of_quote (h : src[skipWs src pos]? = some c) (hq : isQuote c) :
    parseTerm src names pos = (literal src c (skipWs src pos)).bind (suffix src names) := by
  have hlt : c ≠ byte '<' := fun he => by rw [he] at hq; exact absurd hq (by decide)
  have hblank : c ≠ byte '_' := fun he => by rw [he] at hq; exact absurd hq (by decide)
  rw [parseTerm]
  split
  next hc => rw [h] at hc; cases hc
  next c' hc =>
    rcases Option.some.inj (h.symm.trans hc) with rfl
    rw [if_neg hlt, if_neg hblank, if_pos hq]
    cases hl : literal src c (skipWs src pos) <;> rfl

theorem suffix_tagged {v : List Char × Nat} (h : src[v.2]? = some (byte '@')) :
    ∃ tag, suffix src names v = .ok (.literal (String.ofList v.1) none (some tag),
      scan src isLangChar (v.2 + 1)) := by
  unfold suffix
  rw [if_pos h, slice_scan (Nat.succ_le_of_lt (lt_of_get h))]
  exact ⟨_, rfl⟩

theorem get_of_carets {q : Nat} (h : carets <+: src.drop q) : src[q]? = some (byte '^') := by
  rcases h with ⟨t, ht⟩
  have hget : (src.drop q)[0]? = some (byte '^') := by
    rw [← ht]
    rfl
  rwa [List.getElem?_drop] at hget

theorem suffix_typed {v : List Char × Nat} (h : carets <+: src.drop v.2) :
    suffix src names v = (parseTerm src names (v.2 + 2)).map fun d =>
      (.literal (String.ofList v.1) d.1.asIri none, d.2) := by
  have hget := get_of_carets h
  have hne : src[v.2]? ≠ some (byte '@') := by
    rw [hget]
    decide
  unfold suffix
  rw [if_neg hne, startsWith_of_le (lt_of_get hget).le, List.isPrefixOf_iff_prefix.mpr h]

theorem suffix_plain {v : List Char × Nat} (hle : v.2 ≤ src.length)
    (hat : src[v.2]? ≠ some (byte '@')) (h : ¬ carets <+: src.drop v.2) :
    suffix src names v = .ok (.literal (String.ofList v.1) none none, v.2) := by
  have hfalse : carets.isPrefixOf (src.drop v.2) = false :=
    Bool.eq_false_iff.mpr fun ht => h (List.isPrefixOf_iff_prefix.mp ht)
  unfold suffix
  rw [if_neg hat, startsWith_of_le hle, hfalse]

theorem plain_of_opensNumber (h : opensNumber c) :
    c ≠ byte '<' ∧ c ≠ byte '_' ∧ ¬ isQuote c := by
  refine ⟨?_, ?_, fun hq => ?_⟩
  · rintro rfl
    exact absurd h (by decide)
  · rintro rfl
    exact absurd h (by decide)
  · rcases Bool.or_eq_true_iff.mp hq with hc | hc
    · rw [of_decide_eq_true hc] at h
      exact absurd h (by decide)
    · rw [of_decide_eq_true hc] at h
      exact absurd h (by decide)

theorem parseTerm_of_termAt {p q : Nat} {b : Bool} (h : TermAt src p b q)
    (hp : skipWs src pos = p) :
    ∃ t, parseTerm src names pos = .ok (t, q) ∧ t.asIri.isSome = b := by
  induction h generalizing pos with
  | iri hc =>
      subst hp
      rcases iriRef_eq (lt_of_get hc) with ⟨iri, hiri⟩
      rw [parseTerm_of_some hc (by decide), if_pos rfl, hiri]
      exact ⟨_, rfl, rfl⟩
  | blank hc hle =>
      subst hp
      rcases blankNode_eq hle with ⟨name, hname⟩
      rw [parseTerm_of_some hc (by decide), if_neg (by decide), if_pos rfl, hname]
      exact ⟨_, rfl, rfl⟩
  | tagged hc hq hl hat =>
      subst hp
      rcases literal_of_literalAt hc hl with ⟨v, hv⟩
      rcases @suffix_tagged src names (v, _) hat with ⟨tag, htag⟩
      rw [parseTerm_of_quote hc hq, hv]
      exact ⟨_, htag, rfl⟩
  | typed hc hq hl hcarets _ ih =>
      subst hp
      rcases literal_of_literalAt hc hl with ⟨v, hv⟩
      rcases ih rfl with ⟨d, hd, -⟩
      rw [parseTerm_of_quote hc hq, hv]
      refine ⟨.literal (String.ofList v) d.asIri none, ?_, rfl⟩
      refine (suffix_typed hcarets).trans ?_
      rw [hd]
      rfl
  | plain hc hq hl hat hcarets =>
      subst hp
      rcases literal_of_literalAt hc hl with ⟨v, hv⟩
      have hle := ((literal_safe (lt_of_get hc)).ok hv).2
      rw [parseTerm_of_quote hc hq, hv]
      exact ⟨_, suffix_plain hle hat hcarets, rfl⟩
  | number hc hn =>
      subst hp
      have hplain := plain_of_opensNumber hn
      rcases number_eq (lt_of_get hc) with ⟨v, dt, hv⟩
      rw [parseTerm_of_some hc hplain.2.2, if_neg hplain.1, if_neg hplain.2.1, if_pos hn, hv]
      exact ⟨_, rfl, rfl⟩
  | word hc hlt hblank hq hn =>
      subst hp
      rw [parseTerm_of_some hc hq, if_neg hlt, if_neg hblank, if_neg hn, word_eq (lt_of_get hc)]
      exact ⟨_, rfl, wordTerm_asIri _⟩

theorem parseTerm_of_loneBlank {p : Nat} (h : LoneBlank src p) (hp : skipWs src pos = p) :
    parseTerm src names pos = .error .panic := by
  induction h generalizing pos with
  | here hc hlt =>
      subst hp
      rw [parseTerm_of_some hc (by decide), if_neg (by decide), if_pos rfl, blankNode_panics hlt]
  | typed hc hq hl hcarets _ ih =>
      subst hp
      rcases literal_of_literalAt hc hl with ⟨v, hv⟩
      rw [parseTerm_of_quote hc hq, hv]
      refine (suffix_typed hcarets).trans ?_
      rw [ih rfl]
      rfl

/-- What comes of a read: a result of a kind, an error with a text, or a panic for a reason. -/
inductive Outcome {α : Type} (Q : α → Prop) (Why : Prop) (x : R α) : Prop
  | ok (v : α) : x = .ok v → Q v → Outcome Q Why x
  | message (m : String) : x = .error (.message m) → Outcome Q Why x
  | panic : x = .error .panic → Why → Outcome Q Why x

/-- A read of a term takes one that is there, fails, or panics on a lone underscore. -/
theorem parseTerm_outcome (names : Names) (pos : Nat) :
    Outcome (fun v => ∃ b, TermAt src (skipWs src pos) b v.2) (LoneBlank src (skipWs src pos))
      (parseTerm src names pos) := by
  induction hn : src.length - pos using Nat.strongRecOn generalizing pos with
  | ind n ih =>
      cases hc : src[skipWs src pos]? with
      | none => exact .message _ (parseTerm_of_none hc)
      | some c =>
          have hlt := lt_of_get hc
          have hpos : pos ≤ skipWs src pos := le_skipWs
          rcases Decidable.em (isQuote c) with hq | hq
          · have heq := @parseTerm_of_quote src names _ _ hc hq
            have hsafe := @literal_safe src _ c hlt
            cases hl : literal src c (skipWs src pos) with
            | error e =>
                rw [hl] at heq hsafe
                cases e with
                | panic => exact hsafe.elim
                | message m => exact .message m heq
            | ok v =>
                have hv := hsafe.ok hl
                have hat := literalAt_of_literal hc hl
                rw [hl] at heq
                replace heq : parseTerm src names pos = suffix src names v := heq
                rcases Decidable.em (src[v.2]? = some (byte '@')) with htag | htag
                · rcases suffix_tagged htag with ⟨tag, hx⟩
                  exact .ok _ (heq.trans hx) ⟨_, .tagged hc hq hat htag⟩
                rcases Decidable.em (carets <+: src.drop v.2) with hcarets | hcarets
                · rw [suffix_typed hcarets] at heq
                  cases ih (src.length - (v.2 + 2)) (by omega) (v.2 + 2) rfl with
                  | ok d hd hterm =>
                      rcases hterm with ⟨b, hterm⟩
                      rw [hd] at heq
                      exact .ok _ heq ⟨_, .typed hc hq hat hcarets hterm⟩
                  | message m hm =>
                      rw [hm] at heq
                      exact .message m heq
                  | panic hp hwhy =>
                      rw [hp] at heq
                      exact .panic heq (.typed hc hq hat hcarets hwhy)
                · exact .ok _ (heq.trans (suffix_plain hv.2 htag hcarets))
                    ⟨_, .plain hc hq hat htag hcarets⟩
          have heq := @parseTerm_of_some src names _ _ hc hq
          rcases Decidable.em (c = byte '<') with rfl | hangle
          · rcases iriRef_eq hlt with ⟨iri, hiri⟩
            rw [if_pos rfl, hiri] at heq
            exact .ok _ heq ⟨_, .iri hc⟩
          rcases Decidable.em (c = byte '_') with rfl | hblank
          · rw [if_neg hangle, if_pos rfl] at heq
            rcases Nat.lt_or_ge src.length (skipWs src pos + 2) with hend | hle
            · exact .panic (heq.trans (blankNode_panics hend)) (.here hc hend)
            · rcases blankNode_eq hle with ⟨name, hname⟩
              exact .ok _ (heq.trans hname) ⟨_, .blank hc hle⟩
          rw [if_neg hangle, if_neg hblank] at heq
          rcases Decidable.em (opensNumber c) with hnum | hnum
          · rcases number_eq hlt with ⟨v, dt, hv⟩
            rw [if_pos hnum, hv] at heq
            exact .ok _ heq ⟨_, .number hc hnum⟩
          · rw [if_neg hnum, word_eq hlt] at heq
            exact .ok _ heq ⟨_, .word hc hangle hblank hq hnum⟩

theorem lt_of_literalAt {quote : UInt8} {q : Nat} (hc : src[pos]? = some c)
    (h : LiteralAt src quote pos q) : pos < q ∧ q ≤ src.length := by
  rcases literal_of_literalAt hc h with ⟨v, hv⟩
  exact (literal_safe (lt_of_get hc)).ok hv

theorem le_of_termAt {p q : Nat} {b : Bool} (h : TermAt src p b q) : p < src.length ∧ p ≤ q := by
  induction h with
  | iri hc => exact ⟨lt_of_get hc, (Nat.le_succ _).trans (le_scan.trans (Nat.le_succ _))⟩
  | blank hc _ => exact ⟨lt_of_get hc, (Nat.le_add_right _ 2).trans le_scan⟩
  | tagged hc _ hl _ =>
      have hq := lt_of_literalAt hc hl
      exact ⟨lt_of_get hc, hq.1.le.trans ((Nat.le_succ _).trans le_scan)⟩
  | typed hc _ hl _ _ ih =>
      have hq := lt_of_literalAt hc hl
      exact ⟨lt_of_get hc, hq.1.le.trans ((Nat.le_add_right _ 2).trans (le_skipWs.trans ih.2))⟩
  | plain hc _ hl _ _ => exact ⟨lt_of_get hc, (lt_of_literalAt hc hl).1.le⟩
  | number hc _ => exact ⟨lt_of_get hc, le_scan⟩
  | word hc _ _ _ _ => exact ⟨lt_of_get hc, Nat.le_add_right _ _⟩

theorem le_of_parseTerm {v : Term × Nat} (h : parseTerm src names pos = .ok v) :
    pos < src.length ∧ pos ≤ v.2 := by
  have hpos : pos ≤ skipWs src pos := le_skipWs
  cases @parseTerm_outcome src names pos with
  | ok w hw hat =>
      rcases Except.ok.inj (h.symm.trans hw) with rfl
      rcases hat with ⟨b, hat⟩
      have hle := le_of_termAt hat
      exact ⟨hpos.trans_lt hle.1, hpos.trans hle.2⟩
  | message m hm => rw [h] at hm; cases hm
  | panic hp _ => rw [h] at hp; cases hp

end Terms

end OntologicalDb.TurtleTerms
