import OntologicalDb.CypherPatterns
import OntologicalDb.StringTokens

/-!
The bounds of a variable-length relationship: how the lexer splits them, and what the parser
makes of the numbers.
-/

namespace OntologicalDb.VarLengthBounds

open OntologicalDb.CypherLexer
open OntologicalDb.CypherPatterns
open OntologicalDb.CypherSyntax
open OntologicalDb.StringTokens

section Numerals

/-- Some digits, at least one. -/
structure Numeral where
  digits : List UInt8
  nonempty : digits ≠ []
  all_digits : ∀ d ∈ digits, isDigit d = true

def Numeral.value (a : Numeral) : Nat := decimal a.digits

def Numeral.single (d : UInt8) (hd : isDigit d = true) : Numeral where
  digits := [d]
  nonempty := List.cons_ne_nil _ _
  all_digits := fun _ he => (List.mem_singleton.mp he).symm ▸ hd

/-- The numeral with one more digit. -/
def Numeral.snoc (a : Numeral) (d : UInt8) (hd : isDigit d = true) : Numeral where
  digits := a.digits ++ [d]
  nonempty := List.append_ne_nil_of_right_ne_nil _ (List.cons_ne_nil _ _)
  all_digits := fun e he => (List.mem_append.mp he).elim (a.all_digits e) fun h =>
    (List.mem_singleton.mp h).symm ▸ hd

/-- No digit, dot before a digit or exponent continues the numeral. -/
def Stops : List UInt8 → Prop
  | [] => True
  | c :: r => isDigit c = false ∧ c ≠ byte 'e' ∧ c ≠ byte 'E' ∧
      (c = byte '.' → r.head?.any isDigit = false)

theorem takeNumeral_digits {ds rest : List UInt8} (h : ∀ d ∈ ds, isDigit d = true)
    (hrest : Stops rest) : takeNumeral false (ds ++ rest) = (ds, false, rest) := by
  induction ds with
  | nil =>
      cases rest with
      | nil => rw [List.append_nil, takeNumeral]
      | cons c r =>
          rcases hrest with ⟨hc, he, hE, hdot⟩
          have hcond : ¬ (c = byte '.' ∧ false = false ∧ r.head?.any isDigit = true) := by
            rintro ⟨rfl, -, hr⟩
            rw [hdot rfl] at hr
            cases hr
          rw [List.nil_append, takeNumeral, if_neg (by rw [hc]; exact Bool.false_ne_true),
            if_neg hcond, if_neg (by rintro (h | h); exacts [he h, hE h])]
  | cons d ds ih =>
      rcases List.forall_mem_cons.mp h with ⟨hd, hds⟩
      rw [List.cons_append, takeNumeral, if_pos hd]
      dsimp only
      rw [ih hds]

end Numerals

section Tokens

variable {F : Type} {pf : Platform F}

theorem digit_cases {d : UInt8} (h : isDigit d = true) :
    d ≠ byte '\x60' ∧ ¬ (d = byte '\'' ∨ d = byte '"') ∧ d ≠ byte '$' ∧
      isAsciiWhitespace d = false ∧ d ≠ byte '/' := by
  rcases d with ⟨d⟩
  revert d
  decide +kernel

theorem skipTrivia_cons {c : UInt8} {r : List UInt8} (h : isAsciiWhitespace c = false)
    (hslash : c ≠ byte '/') : skipTrivia (c :: r) = c :: r := by
  rw [skipTrivia, skipTriviaFrom, if_neg (by rw [h]; exact Bool.false_ne_true),
    if_neg fun hc => hslash hc.1, if_neg fun hc => hslash hc.1]

/-- A numeral is one token, or the query is refused. -/
theorem tokenize_numeral (a : Numeral) {rest : List UInt8} (hrest : Stops rest) :
    tokenize pf (a.digits ++ rest) =
      if a.value < 2 ^ 63 then (tokenize pf rest).map fun ts => ⟨.int a.value, ""⟩ :: ts
      else .error "number too large to fit in target type" := by
  have htake := takeNumeral_digits a.all_digits hrest
  have hne := a.nonempty
  unfold Numeral.value
  cases hds : a.digits with
  | nil => exact absurd hds hne
  | cons d ds =>
      have hd := a.all_digits d (hds ▸ List.mem_cons_self)
      rcases digit_cases hd with ⟨h₁, h₂, h₃, hspace, hslash⟩
      have hsrc : skipTrivia (d :: ds ++ rest) = d :: (ds ++ rest) :=
        skipTrivia_cons hspace hslash
      have htok : takeToken pf d (ds ++ rest) =
          (takeNumber pf (d :: (ds ++ rest))).map fun v => (⟨v.1, ""⟩, v.2) := by
        rw [takeToken, if_neg h₁, if_neg h₂, if_neg h₃, if_pos hd]
      rw [hds, List.cons_append] at htake
      have hnumber : takeNumber pf (d :: (ds ++ rest)) =
          if decimal (d :: ds) < 2 ^ 63 then .ok (.int (decimal (d :: ds)), rest)
          else .error "number too large to fit in target type" := by
        rw [takeNumber, htake]
        rfl
      rw [hnumber] at htok
      by_cases hlt : decimal (d :: ds) < 2 ^ 63
      · rw [if_pos hlt] at htok ⊢
        exact tokenize_of_token hsrc htok
      · rw [if_neg hlt] at htok ⊢
        exact tokenize_of_error hsrc htok

theorem atWordStart_ascii {c : Char} (hc : Ascii c) (hword : c.isAlpha = false) (hne : c ≠ '_')
    (r : List UInt8) : atWordStart pf (byte c :: r) = false := by
  have hdecode := decodeChar_encode c r
  rw [encode_ascii hc, List.singleton_append] at hdecode
  unfold atWordStart peekChar strict
  rw [List.length_cons, strictN, hdecode, Option.bind_some]
  cases strictN r.length ((byte c :: r).drop c.utf8Size) with
  | none => rfl
  | some cs =>
      change (pf.isAlphabetic c || decide (c = '_')) = false
      rw [pf.alphabetic_ascii c hc, hword, decide_eq_false hne]
      rfl

/-- A character that starts neither a literal nor a parameter, number or word. -/
def Opens (c : Char) : Prop :=
  Ascii c ∧ c.isAlpha = false ∧ c ≠ '_' ∧ byte c ≠ byte '\x60' ∧
    ¬ (byte c = byte '\'' ∨ byte c = byte '"') ∧ byte c ≠ byte '$' ∧ isDigit (byte c) = false ∧
    isAsciiWhitespace (byte c) = false ∧ byte c ≠ byte '/'

instance (c : Char) : Decidable (Opens c) := by
  unfold Opens
  infer_instance

theorem tokenize_punct {c : Char} (hc : Opens c) {p : String} {r rest : List UInt8}
    (h : takePunct (F := F) (byte c) r = .ok (.punct p, rest)) :
    tokenize pf (byte c :: r) = (tokenize pf rest).map fun ts => ⟨.punct p, ""⟩ :: ts := by
  rcases hc with ⟨hascii, hword, hne, h₁, h₂, h₃, hdigit, hspace, hslash⟩
  refine tokenize_of_token (skipTrivia_cons hspace hslash) ?_
  rw [takeToken, if_neg h₁, if_neg h₂, if_neg h₃, if_neg (by rw [hdigit]; exact Bool.false_ne_true),
    if_neg (by rw [atWordStart_ascii hascii hword hne]; exact Bool.false_ne_true), h]
  rfl

end Tokens

section Bounds

/-- What may stand behind the star. -/
inductive Bound
  | any
  | exactly (n : Numeral)
  | atLeast (n : Numeral)
  | atMost (m : Numeral)
  | between (n m : Numeral)

def Bound.text : Bound → List UInt8
  | .any => []
  | .exactly n => n.digits
  | .atLeast n => n.digits ++ [byte '.', byte '.']
  | .atMost m => byte '.' :: byte '.' :: m.digits
  | .between n m => n.digits ++ byte '.' :: byte '.' :: m.digits

def Bound.numbers : Bound → List Nat
  | .any => []
  | .exactly n | .atLeast n => [n.value]
  | .atMost m => [m.value]
  | .between n m => [n.value, m.value]

/-- The range a bound stands for. -/
def Bound.range : Bound → Nat × Nat
  | .any => (1, MAX_VAR_LENGTH)
  | .exactly n => (n.value, n.value)
  | .atLeast n => (n.value, max n.value MAX_VAR_LENGTH)
  | .atMost m => (1, m.value)
  | .between n m => (n.value, m.value)

/-- What the parser makes of a relationship pattern with this bound. -/
def readBound {F : Type} (pf : Platform F) (propMap : PropMap F) (b : Bound)
    (rest : List UInt8) : Except String (Option (Nat × Nat)) := do
  let ts ← tokenize pf
    (byte '-' :: byte '[' :: byte '*' :: (b.text ++ byte ']' :: byte '-' :: byte '>' :: rest))
  let v ← parseRelPat propMap ts
  return v.1.range

def Refused (got : Except String (Option (Nat × Nat))) : Prop := ∃ e, got = .error e

/-- A number beyond the bound type is refused; an empty range is refused or stays empty; any
other bound is read as the range it stands for. -/
def Bound.Exact (b : Bound) (got : Except String (Option (Nat × Nat))) : Prop :=
  if ∃ k ∈ b.numbers, 2 ^ 32 ≤ k then Refused got
  else if b.range.1 ≤ b.range.2 then got = .ok (some b.range)
  else Refused got ∨ ∃ r, got = .ok (some r) ∧ r.2 < r.1

/-- Some number is beyond what the lexer takes, or all fit the bound type and the range is
neither left open altogether nor empty. -/
def Bound.Plain (b : Bound) : Prop :=
  (∃ k ∈ b.numbers, 2 ^ 63 ≤ k) ∨
    (∀ k ∈ b.numbers, k < 2 ^ 32) ∧ b.numbers ≠ [] ∧ b.range.1 ≤ b.range.2

def number {F : Type} (n : Nat) : Token F := ⟨.int n, ""⟩

def Bound.tokens {F : Type} : Bound → List (Token F)
  | .any => []
  | .exactly n => [number n.value]
  | .atLeast n => [number n.value, punct ".."]
  | .atMost m => [punct "..", number m.value]
  | .between n m => [number n.value, punct "..", number m.value]

variable {F : Type} {pf : Platform F} {propMap : PropMap F}

theorem tokenize_close (rest : List UInt8) :
    tokenize pf (byte ']' :: byte '-' :: byte '>' :: rest) =
      (tokenize pf rest).map fun ts => punct "]" :: punct "->" :: ts := by
  have harrow : tokenize pf (byte '-' :: byte '>' :: rest) =
      (tokenize pf rest).map fun ts => punct "->" :: ts := tokenize_punct (by decide) rfl
  rw [tokenize_punct (p := "]") (by decide) rfl, harrow]
  cases tokenize pf rest <;> rfl

theorem tokenize_dots {r : List UInt8} : tokenize pf (byte '.' :: byte '.' :: r) =
    (tokenize pf r).map fun ts => punct ".." :: ts :=
  tokenize_punct (by decide) rfl

/-- The tokens of a bound, when the lexer takes its numbers. -/
theorem tokenize_bound (b : Bound) (rest : List UInt8) {ts : List (Token F)}
    (hrest : tokenize pf rest = .ok ts) :
    tokenize pf (b.text ++ byte ']' :: byte '-' :: byte '>' :: rest) =
      if ∀ k ∈ b.numbers, k < 2 ^ 63 then .ok (b.tokens ++ punct "]" :: punct "->" :: ts)
      else .error "number too large to fit in target type" := by
  have hclose : tokenize pf (byte ']' :: byte '-' :: byte '>' :: rest) =
      .ok (punct "]" :: punct "->" :: ts) := by
    rw [tokenize_close, hrest]
    rfl
  have hbracket : Stops (byte ']' :: byte '-' :: byte '>' :: rest) := by
    refine ⟨by decide, by decide, by decide, fun h => absurd h (by decide)⟩
  have hdots (r : List UInt8) : Stops (byte '.' :: byte '.' :: r) :=
    ⟨by decide, by decide, by decide, fun _ => rfl⟩
  have hlast (m : Numeral) : tokenize pf
      (m.digits ++ byte ']' :: byte '-' :: byte '>' :: rest) =
      if m.value < 2 ^ 63 then .ok (number m.value :: punct "]" :: punct "->" :: ts)
      else .error "number too large to fit in target type" := by
    rw [tokenize_numeral m hbracket, hclose]
    rfl
  cases b with
  | any =>
      rw [if_pos (by simp [Bound.numbers])]
      exact hclose
  | exactly n =>
      simp only [Bound.text, Bound.numbers, List.mem_singleton, forall_eq]
      exact hlast n
  | atLeast n =>
      simp only [Bound.text, Bound.numbers, List.mem_singleton, forall_eq]
      rw [List.append_assoc, List.cons_append, List.singleton_append,
        tokenize_numeral n (hdots _), tokenize_dots, hclose]
      rfl
  | atMost m =>
      simp only [Bound.text, Bound.numbers, List.mem_singleton, forall_eq]
      rw [List.cons_append, List.cons_append, tokenize_dots, hlast]
      split <;> rfl
  | between n m =>
      simp only [Bound.text, Bound.numbers, List.mem_cons, List.not_mem_nil, or_false,
        forall_eq_or_imp, forall_eq]
      rw [List.append_assoc, List.cons_append, List.cons_append,
        tokenize_numeral n (hdots _), tokenize_dots, hlast]
      by_cases hn : n.value < 2 ^ 63
      · by_cases hm : m.value < 2 ^ 63
        · rw [if_pos hn, if_pos hm, if_pos ⟨hn, hm⟩]
          rfl
        · rw [if_pos hn, if_neg hm, if_neg fun h => hm h.2]
          rfl
      · rw [if_neg hn, if_neg fun h => hn h.1]

/-- What the parser makes of the numbers: a bare star is one hop, and a maximum is never
below the minimum. -/
def Bound.parsed : Bound → Nat × Nat
  | .any => (1, 1)
  | .exactly n => (asU32 n.value, max (asU32 n.value) (asU32 n.value))
  | .atLeast n => (asU32 n.value, max MAX_VAR_LENGTH (asU32 n.value))
  | .atMost m => (1, max (asU32 m.value) 1)
  | .between n m => (asU32 n.value, max (asU32 m.value) (asU32 n.value))

theorem parseRelPat_bound (b : Bound) (ts : List (Token F)) :
    (parseRelPat propMap
      (punct "-" :: punct "[" :: punct "*" :: (b.tokens ++ punct "]" :: punct "->" :: ts))).map
        (fun v => v.1.range) = .ok (some b.parsed) := by
  cases b <;> rfl

theorem readBound_eq (b : Bound) (rest : List UInt8) {ts : List (Token F)}
    (hrest : tokenize pf rest = .ok ts) : readBound pf propMap b rest =
      if ∀ k ∈ b.numbers, k < 2 ^ 63 then .ok (some b.parsed)
      else .error "number too large to fit in target type" := by
  have htokens := tokenize_bound b rest hrest
  unfold readBound
  rw [tokenize_punct (p := "-") (by decide) rfl, tokenize_punct (p := "[") (by decide) rfl,
    tokenize_punct (p := "*") (by decide) rfl, htokens]
  split
  · exact parseRelPat_bound b ts
  · rfl

/-- Among bounds that fit, the bare star and the empty ranges are changed. -/
theorem exact_parsed_iff (b : Bound) (hfit : ∀ k ∈ b.numbers, k < 2 ^ 32)
    (hgot : ¬ Refused (.ok (some b.parsed))) :
    (if b.range.1 ≤ b.range.2 then
      (Except.ok (some b.parsed) : Except String (Option (Nat × Nat))) = .ok (some b.range)
    else Refused (.ok (some b.parsed)) ∨
      ∃ r, (Except.ok (some b.parsed) : Except String (Option (Nat × Nat))) = .ok (some r) ∧
        r.2 < r.1) ↔ b.numbers ≠ [] ∧ b.range.1 ≤ b.range.2 := by
  have hmod {n : Nat} (h : n < 2 ^ 32) : asU32 n = n := Nat.mod_eq_of_lt h
  have hle : b.parsed.1 ≤ b.parsed.2 := by
    cases b with
    | any => exact le_rfl
    | exactly n => exact le_max_right _ _
    | atLeast n => exact le_max_right _ _
    | atMost m => exact le_max_right _ _
    | between n m => exact le_max_right _ _
  by_cases hrange : b.range.1 ≤ b.range.2
  · have hparsed : b.parsed = b.range ↔ b.numbers ≠ [] := by
      cases b with
      | any => decide
      | exactly n =>
          have hn := hmod (hfit _ List.mem_cons_self)
          exact iff_of_true (by rw [Bound.parsed, hn, max_self]; rfl) (List.cons_ne_nil _ _)
      | atLeast n =>
          have hn := hmod (hfit _ List.mem_cons_self)
          exact iff_of_true (by rw [Bound.parsed, hn, max_comm]; rfl) (List.cons_ne_nil _ _)
      | atMost m =>
          have hm := hmod (hfit _ List.mem_cons_self)
          have hone : 1 ≤ m.value := hrange
          exact iff_of_true (by rw [Bound.parsed, hm, max_eq_left hone]; rfl)
            (List.cons_ne_nil _ _)
      | between n m =>
          have hn := hmod (hfit _ List.mem_cons_self)
          have hm := hmod (hfit _ (List.mem_cons_of_mem _ List.mem_cons_self))
          have hnm : n.value ≤ m.value := hrange
          exact iff_of_true (by rw [Bound.parsed, hn, hm, max_eq_left hnm]; rfl)
            (List.cons_ne_nil _ _)
    rw [if_pos hrange]
    constructor
    · intro h
      exact ⟨hparsed.mp (Option.some.inj (Except.ok.inj h)), hrange⟩
    · intro h
      rw [hparsed.mpr h.1]
  · rw [if_neg hrange]
    refine iff_of_false ?_ fun h => hrange h.2
    rintro (h | ⟨r, hr, hlt⟩)
    · exact hgot h
    · rw [← Option.some.inj (Except.ok.inj hr)] at hlt
      exact absurd hlt (Nat.not_lt.mpr hle)

/-- A bound is read exactly when it is plain, and only then. -/
theorem readBound_exact_iff (b : Bound) (rest : List UInt8) {ts : List (Token F)}
    (hrest : tokenize pf rest = .ok ts) :
    b.Exact (readBound pf propMap b rest) ↔ b.Plain := by
  rw [readBound_eq b rest hrest]
  by_cases hlex : ∀ k ∈ b.numbers, k < 2 ^ 63
  · have hnot : ¬ ∃ k ∈ b.numbers, 2 ^ 63 ≤ k := by
      rintro ⟨k, hk, hle⟩
      exact absurd (hlex k hk) (Nat.not_lt.mpr hle)
    have hgot : ¬ Refused (.ok (some b.parsed)) := by
      rintro ⟨e, he⟩
      cases he
    rw [if_pos hlex]
    by_cases hfit : ∀ k ∈ b.numbers, k < 2 ^ 32
    · have hwide : ¬ ∃ k ∈ b.numbers, 2 ^ 32 ≤ k := by
        rintro ⟨k, hk, hle⟩
        exact absurd (hfit k hk) (Nat.not_lt.mpr hle)
      have hplain : b.Plain ↔ b.numbers ≠ [] ∧ b.range.1 ≤ b.range.2 :=
        ⟨fun h => (h.resolve_left hnot).2, fun h => .inr ⟨hfit, h⟩⟩
      rw [hplain, Bound.Exact, if_neg hwide]
      exact exact_parsed_iff b hfit hgot
    · have hwide : ∃ k ∈ b.numbers, 2 ^ 32 ≤ k := by
        simpa only [not_forall, not_lt, exists_prop] using hfit
      rw [Bound.Exact, if_pos hwide]
      exact iff_of_false hgot fun h => hfit (h.resolve_left hnot).1
  · have hbeyond : ∃ k ∈ b.numbers, 2 ^ 63 ≤ k := by
      simpa only [not_forall, not_lt, exists_prop] using hlex
    have hwide : ∃ k ∈ b.numbers, 2 ^ 32 ≤ k := by
      rcases hbeyond with ⟨k, hk, hle⟩
      exact ⟨k, hk, le_trans (by decide) hle⟩
    rw [if_neg hlex, Bound.Exact, if_pos hwide]
    exact iff_of_true ⟨_, rfl⟩ (.inl hbeyond)

theorem tokenize_nil : tokenize pf [] = .ok [⟨.eof, ""⟩] := by
  rw [tokenize]
  rfl

def one : Numeral := .single (byte '1') rfl

def three : Numeral := .single (byte '3') rfl

def noProps : PropMap Unit := fun _ => .error "expected a property map"

theorem exact_one_three :
    (Bound.between one three).Exact
        (readBound asciiPlatform noProps (.between one three) []) ↔
      (Bound.between one three).Plain :=
  readBound_exact_iff _ [] tokenize_nil

/-- An empty range becomes another one. -/
theorem not_exact_three_one :
    ¬ (Bound.between three one).Exact
      (readBound asciiPlatform noProps (.between three one) []) := by
  have hsmall : ∀ k ∈ (Bound.between three one).numbers, k < 4 := by decide
  have hlex : ∀ k ∈ (Bound.between three one).numbers, k < 2 ^ 63 :=
    fun k hk => (hsmall k hk).trans (by norm_num)
  have hfit : ∀ k ∈ (Bound.between three one).numbers, k < 2 ^ 32 :=
    fun k hk => (hsmall k hk).trans (by norm_num)
  have hwide : ¬ ∃ k ∈ (Bound.between three one).numbers, 2 ^ 32 ≤ k := by
    rintro ⟨k, hk, hle⟩
    exact absurd (hfit k hk) (Nat.not_lt.mpr hle)
  have hgot : ¬ Refused (.ok (some (Bound.between three one).parsed)) := by
    rintro ⟨e, he⟩
    cases he
  rw [readBound_eq _ [] tokenize_nil, if_pos hlex, Bound.Exact, if_neg hwide,
    exact_parsed_iff _ hfit hgot]
  rintro ⟨-, hle⟩
  exact absurd hle (by decide)

end Bounds

end OntologicalDb.VarLengthBounds
