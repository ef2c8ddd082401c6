import Mathlib

/-!
The TypeQL lexer, and how a token is printed.
-/

namespace OntologicalDb.TypeqlLexer

section Tokens

/-- A token; a numeral has no sign, so neither an integer nor a float is negative. -/
inductive Tok (F : Type)
  | ident (s : String)
  | var (s : String)
  | str (s : String)
  | int (n : Nat)
  | float (f : F)
  | dateTime (s : String)
  | sym (s : String)
  | eof
deriving DecidableEq

/-- The Unicode tables, which agree with the letters, digits and white space of ASCII. -/
structure Unicode where
  isAlphabetic : Char → Bool
  isAlphanumeric : Char → Bool
  isWhitespace : Char → Bool
  alphabetic_ascii : ∀ c : Char, c.toNat < 128 → isAlphabetic c = c.isAlpha
  alphanumeric_ascii : ∀ c : Char, c.toNat < 128 → isAlphanumeric c = c.isAlphanum
  whitespace_ascii : ∀ c : Char, c.toNat < 128 →
    isWhitespace c = decide (c = ' ' ∨ 9 ≤ c.toNat ∧ c.toNat ≤ 13)
  alphanumeric : ∀ c, isAlphabetic c = true → isAlphanumeric c = true

def isDigit (c : Char) : Bool := '0' ≤ c ∧ c ≤ '9'

/-- The number some digits stand for. -/
def decimal (ds : List Char) : Nat := ds.foldl (fun n d => n * 10 + (d.toNat - 48)) 0

def Digits (ds : List Char) : Prop := ds ≠ [] ∧ ∀ d ∈ ds, isDigit d = true

/-- The doubles that numerals denote, how a numeral is read and how a double is printed: a
fraction with its point, a whole number without one and without an exponent, and an infinite
one as a word. What is printed for a finite double reads as it. -/
structure Floats (F : Type) where
  parse : List Char → F
  print : F → List Char
  isFinite : F → Bool
  /-- The natural number a double is, if it is one. -/
  whole : F → Option Nat
  print_infinite : ∀ f, isFinite f = false → print f = "inf".toList
  print_fraction : ∀ f, isFinite f = true → whole f = none →
    ∃ ds es, Digits ds ∧ Digits es ∧ print f = ds ++ '.' :: es
  print_whole : ∀ f n, isFinite f = true → whole f = some n →
    Digits (print f) ∧ (decimal (print f) < 2 ^ 63 ↔ n < 2 ^ 63)
  parse_print : ∀ f, isFinite f = true → parse (print f) = f

def symbols : List String :=
  ["..", "==", "!=", "<=", ">=", "->", "=", "<", ">", "+", "-", "*", "/", "%", ";", ",", "(", ")",
    "\x7b", "\x7d", "[", "]", ":", ".", "@", "?", "|"]

end Tokens

section Taking

variable (U : Unicode)

def isIdentStart (c : Char) : Bool := U.isAlphabetic c || c = '_'

def isIdentChar (c : Char) : Bool := U.isAlphanumeric c || c = '_'

/-- White space and comments; the flag says that a comment is open. The line break that ends one
is white space. -/
def skipFrom : Bool → List Char → List Char
  | _, [] => []
  | true, c :: r => skipFrom (c ≠ '\n') r
  | false, c :: r =>
      if U.isWhitespace c then skipFrom false r
      else if c = '#' then skipFrom true r
      else c :: r

def skip (src : List Char) : List Char := skipFrom U false src

/-- Identifier characters; a hyphen counts as one where another one follows. -/
def glued : List Char → List Char × List Char
  | [] => ([], [])
  | c :: r =>
      if isIdentChar U c || (c = '-' && r.head?.any (isIdentChar U)) then
        (c :: (glued r).1, (glued r).2)
      else ([], c :: r)

/-- `isa!`, `sub!` -/
def bang : List Char → List Char × List Char
  | [] => ([], [])
  | c :: r => if c = '!' then ([c], r) else ([], c :: r)

def escaped (c : Char) : Char :=
  if c = 'n' then '\n' else if c = 't' then '\t' else if c = 'r' then '\r' else c

/-- A string from behind its opening quote. -/
def readString (quote : Char) : List Char → Except String (List Char × List Char)
  | [] => .error "unterminated string literal"
  | c :: r =>
      if c = '\\' then
        match r with
        | [] => .error "unterminated string literal"
        | e :: r => (readString quote r).map fun v => (escaped e :: v.1, v.2)
      else if c = quote then .ok ([], r)
      else (readString quote r).map fun v => (c :: v.1, v.2)

def twoDigits : List Char → Option (List Char × List Char)
  | a :: b :: r => if isDigit a && isDigit b then some ([a, b], r) else none
  | _ => none

/-- A separator and two digits. -/
def field (sep : Char) : List Char → Option (List Char × List Char)
  | [] => none
  | c :: r => if c = sep then (twoDigits r).map fun v => (c :: v.1, v.2) else none

/-- A point and digits. -/
def fraction : List Char → List Char × List Char
  | [] => ([], [])
  | c :: r =>
      if c = '.' && r.head?.any isDigit then (c :: r.takeWhile isDigit, r.dropWhile isDigit)
      else ([], c :: r)

/-- A field and what may follow it, or nothing. -/
def optionalField (sep : Char) (next : List Char → List Char × List Char) (cs : List Char) :
    List Char × List Char :=
  match field sep cs with
  | some v => (v.1 ++ (next v.2).1, (next v.2).2)
  | none => ([], cs)

def scanDate (cs : List Char) : Option (List Char × List Char) := do
  let y ← twoDigits cs
  let z ← twoDigits y.2
  let m ← field '-' z.2
  let d ← field '-' m.2
  return (y.1 ++ (z.1 ++ (m.1 ++ d.1)), d.2)

def scanTime : List Char → List Char × List Char :=
  optionalField 'T' (optionalField ':' (optionalField ':' fraction))

/-- `YYYY-MM-DD` or `YYYY-MM-DDTHH:MM[:SS[.fff]]` -/
def scanDatetime (cs : List Char) : Option (List Char × List Char) :=
  (scanDate cs).map fun v => (v.1 ++ (scanTime v.2).1, (scanTime v.2).2)

variable {F : Type} (fl : Floats F)

/-- An integer that does not fit becomes a float. -/
def intOrFloat (ds : List Char) : Tok F :=
  if decimal ds < 2 ^ 63 then .int (decimal ds) else .float (fl.parse ds)

/-- A `.` is part of a number only before a digit. -/
def takeNumber (cs : List Char) : Tok F × List Char :=
  let ds := cs.takeWhile isDigit
  let v := fraction (cs.dropWhile isDigit)
  if v.1 = [] then (intOrFloat fl ds, v.2) else (.float (fl.parse (ds ++ v.1)), v.2)

/-- The symbol the text starts with; longer ones come first. -/
def takeSymbol (cs : List Char) : Except String (Tok F × List Char) :=
  match symbols.find? fun s => s.toList.isPrefixOf cs with
  | some s => .ok (.sym s, cs.drop s.toList.length)
  | none => .error "unexpected character"

/-- One token, from its first character on. -/
def lexToken (c : Char) (r : List Char) : Except String (Tok F × List Char) :=
  if c = '$' then
    if r.head?.any (isIdentChar U) then .ok (.var (String.ofList (glued U r).1), (glued U r).2)
    else .error "'$' must be followed by a variable name"
  else if c = '"' ∨ c = '\'' then
    (readString c r).map fun v => (.str (String.ofList v.1), v.2)
  else if isDigit c then
    match scanDatetime (c :: r) with
    | some v => .ok (.dateTime (String.ofList v.1), v.2)
    | none => .ok (takeNumber fl (c :: r))
  else if isIdentStart U c then
    let v := glued U r
    let b := bang v.2
    .ok (.ident (String.ofList (c :: (v.1 ++ b.1))), b.2)
  else takeSymbol (c :: r)

end Taking

section Progress

variable {U : Unicode} {F : Type} {fl : Floats F}

theorem skipFrom_length (b : Bool) (src : List Char) : (skipFrom U b src).length ≤ src.length := by
  induction src generalizing b with
  | nil => cases b <;> exact le_rfl
  | cons c r ih =>
      have hr (b : Bool) : (skipFrom U b r).length ≤ (c :: r).length :=
        (ih b).trans (Nat.le_succ _)
      cases b with
      | true => exact hr _
      | false =>
          rw [skipFrom]
          split
          · exact hr _
          · split
            · exact hr _
            · exact le_rfl

/-- What is taken and what is left make up the text. -/
theorem glued_append (cs : List Char) : (glued U cs).1 ++ (glued U cs).2 = cs := by
  induction cs with
  | nil => rfl
  | cons c r ih =>
      rw [glued]
      split
      · rw [List.cons_append, ih]
      · rfl

theorem bang_append (cs : List Char) : (bang cs).1 ++ (bang cs).2 = cs := by
  cases cs with
  | nil => rfl
  | cons c r =>
      rw [bang]
      split <;> rfl

theorem readString_length {quote : Char} {src : List Char} {v : List Char × List Char}
    (h : readString quote src = .ok v) : v.2.length < src.length := by
  fun_induction readString quote src generalizing v with
  | case1 => cases h
  | case2 => cases h
  | case3 e r ih =>
      cases hr : readString quote r with
      | error => rw [hr] at h; cases h
      | ok w =>
          rw [hr] at h
          have := ih hr
          rw [← Except.ok.inj h]
          simp only [List.length_cons]
          omega
  | case4 r hne =>
      rw [← Except.ok.inj h]
      exact Nat.lt_succ_self _
  | case5 c r h₁ h₂ ih =>
      cases hr : readString quote r with
      | error => rw [hr] at h; cases h
      | ok w =>
          rw [hr] at h
          rw [← Except.ok.inj h]
          exact (ih hr).trans (Nat.lt_succ_self _)

theorem twoDigits_append {cs : List Char} {v : List Char × List Char}
    (h : twoDigits cs = some v) : v.1 ++ v.2 = cs ∧ v.1.length = 2 ∧
      ∀ x, twoDigits (v.1 ++ x) = some (v.1, x) := by
  unfold twoDigits at h
  split at h
  next a b r =>
    split at h
    next hdigits =>
      rw [← Option.some.inj h]
      exact ⟨rfl, rfl, fun x => if_pos hdigits⟩
    next => cases h
  next => cases h

theorem field_append {sep : Char} {cs : List Char} {v : List Char × List Char}
    (h : field sep cs = some v) : v.1 ++ v.2 = cs ∧ v.1.length = 3 ∧
      ∀ x, field sep (v.1 ++ x) = some (v.1, x) := by
  cases cs with
  | nil => cases h
  | cons c r =>
      rw [field] at h
      split at h
      next hc =>
        rcases Option.map_eq_some_iff.mp h with ⟨w, hw, rfl⟩
        rcases twoDigits_append hw with ⟨happ, hlen, hagain⟩
        refine ⟨congrArg _ happ, congrArg _ hlen, fun x => ?_⟩
        rw [List.cons_append, field, if_pos hc, hagain]
        rfl
      next => cases h

theorem fraction_append (cs : List Char) : (fraction cs).1 ++ (fraction cs).2 = cs := by
  cases cs with
  | nil => rfl
  | cons c r =>
      rw [fraction]
      split
      · rw [List.cons_append, List.takeWhile_append_dropWhile]
      · rfl

theorem optionalField_append {sep : Char} {next : List Char → List Char × List Char}
    (hnext : ∀ cs, (next cs).1 ++ (next cs).2 = cs) (cs : List Char) :
    (optionalField sep next cs).1 ++ (optionalField sep next cs).2 = cs := by
  unfold optionalField
  split
  next v hv => rw [List.append_assoc, hnext, (field_append hv).1]
  next => rfl

theorem scanDate_append {cs : List Char} {v : List Char × List Char} (h : scanDate cs = some v) :
    v.1 ++ v.2 = cs ∧ v.1.length = 10 ∧ ∀ x, scanDate (v.1 ++ x) = some (v.1, x) := by
  rcases Option.bind_eq_some_iff.mp h with ⟨y, hy, h⟩
  rcases Option.bind_eq_some_iff.mp h with ⟨z, hz, h⟩
  rcases Option.bind_eq_some_iff.mp h with ⟨m, hm, h⟩
  rcases Option.bind_eq_some_iff.mp h with ⟨d, hd, h⟩
  rw [← Option.some.inj h]
  rcases twoDigits_append hy with ⟨hy₁, hy₂, hy₃⟩
  rcases twoDigits_append hz with ⟨hz₁, hz₂, hz₃⟩
  rcases field_append hm with ⟨hm₁, hm₂, hm₃⟩
  rcases field_append hd with ⟨hd₁, hd₂, hd₃⟩
  refine ⟨?_, ?_, fun x => ?_⟩
  · simp only [List.append_assoc, hd₁, hm₁, hz₁, hy₁]
  · simp only [List.length_append, hy₂, hz₂, hm₂, hd₂]
  · simp only [scanDate, List.append_assoc, hy₃, hz₃, hm₃, hd₃, Option.bind_eq_bind,
      Option.bind_some]
    rfl

theorem scanTime_append (cs : List Char) : (scanTime cs).1 ++ (scanTime cs).2 = cs :=
  optionalField_append (optionalField_append (optionalField_append fraction_append)) cs

theorem takeNumber_length {c : Char} {r : List Char} (hc : isDigit c = true) :
    (takeNumber fl (c :: r)).2.length < (c :: r).length := by
  have happ := fraction_append ((c :: r).dropWhile isDigit)
  have hlen := congrArg List.length happ
  have hdrop : ((c :: r).dropWhile isDigit).length ≤ r.length := by
    rw [List.dropWhile_cons, if_pos hc]
    exact List.length_dropWhile_le _ _
  rw [List.length_append] at hlen
  dsimp only [takeNumber]
  rw [List.length_cons]
  split
  · change (fraction ((c :: r).dropWhile isDigit)).2.length < _
    omega
  · change (fraction ((c :: r).dropWhile isDigit)).2.length < _
    omega

theorem lexToken_length {c : Char} {r : List Char} {v : Tok F × List Char}
    (h : lexToken U fl c r = .ok v) : v.2.length < (c :: r).length := by
  unfold lexToken at h
  split at h
  · split at h
    · rw [← Except.ok.inj h]
      have := congrArg List.length (glued_append (U := U) r)
      rw [List.length_append] at this
      rw [List.length_cons]
      change (glued U r).2.length < _
      omega
    · cases h
  split at h
  · cases hr : readString c r with
    | error => rw [hr] at h; cases h
    | ok w =>
        rw [hr] at h
        rw [← Except.ok.inj h]
        exact (readString_length hr).trans (Nat.lt_succ_self _)
  split at h
  next hc =>
    split at h
    next v' hdate =>
      rcases Option.map_eq_some_iff.mp hdate with ⟨w, hw, rfl⟩
      rcases scanDate_append hw with ⟨happ, hlen, -⟩
      have h₁ := congrArg List.length happ
      have h₂ := congrArg List.length (scanTime_append w.2)
      rw [List.length_append] at h₁ h₂
      rw [← Except.ok.inj h]
      change (scanTime w.2).2.length < _
      omega
    next =>
      rw [← Except.ok.inj h]
      exact takeNumber_length hc
  split at h
  · rw [← Except.ok.inj h]
    have h₁ := congrArg List.length (glued_append (U := U) r)
    have h₂ := congrArg List.length (bang_append (glued U r).2)
    rw [List.length_append] at h₁ h₂
    rw [List.length_cons]
    change (bang (glued U r).2).2.length < _
    omega
  · unfold takeSymbol at h
    split at h
    next s hs =>
      have hpos : ∀ s ∈ symbols, 0 < s.toList.length := by decide
      have := hpos s (List.mem_of_find?_eq_some hs)
      rw [← Except.ok.inj h]
      simp only [List.length_drop, List.length_cons]
      omega
    next => cases h

end Progress

section Lexing

variable {F : Type} (U : Unicode) (fl : Floats F)

def lex (src : List Char) : Except String (List (Tok F)) :=
  match _hsrc : skip U src with
  | [] => .ok [.eof]
  | c :: r =>
      match _htok : lexToken U fl c r with
      | .ok (t, rest) => (lex rest).map fun ts => t :: ts
      | .error e => .error e
termination_by src.length
decreasing_by
  have hskip := skipFrom_length (U := U) false src
  have htake := lexToken_length _htok
  rw [show skipFrom U false src = c :: r from _hsrc] at hskip
  exact htake.trans_le hskip

variable {U fl}

theorem lex_of_token {src r rest : List Char} {c : Char} {t : Tok F}
    (hsrc : skip U src = c :: r) (h : lexToken U fl c r = .ok (t, rest)) :
    lex U fl src = (lex U fl rest).map fun ts => t :: ts := by
  rw [lex]
  split
  next hnil => rw [hsrc] at hnil; cases hnil
  next c' r' hcons =>
    obtain ⟨rfl, rfl⟩ := List.cons.inj (hsrc.symm.trans hcons)
    split
    next t' rest' htok =>
      obtain ⟨rfl, rfl⟩ := Prod.mk.inj (Except.ok.inj (h.symm.trans htok))
      rfl
    next e herr => rw [h] at herr; cases herr

theorem lex_of_error {src r : List Char} {c : Char} {e : String}
    (hsrc : skip U src = c :: r) (h : lexToken U fl c r = .error e) :
    lex U fl src = .error e := by
  rw [lex]
  split
  next hnil => rw [hsrc] at hnil; cases hnil
  next c' r' hcons =>
    obtain ⟨rfl, rfl⟩ := List.cons.inj (hsrc.symm.trans hcons)
    split
    next t' rest' htok => rw [h] at htok; cases htok
    next e' herr => rw [← Except.error.inj (h.symm.trans herr)]

theorem lex_of_nil {src : List Char} (hsrc : skip U src = []) : lex U fl src = .ok [.eof] := by
  rw [lex]
  split
  next => rfl
  next c r hcons => rw [hsrc] at hcons; cases hcons

end Lexing

section Printing

variable {F : Type} (fl : Floats F)

def printNat (n : Nat) : List Char :=
  if n < 10 then [Char.ofNat (48 + n)] else printNat (n / 10) ++ [Char.ofNat (48 + n % 10)]
termination_by n

/-- `Display` of a token. -/
def print : Tok F → List Char
  | .ident s => s.toList
  | .var s => '$' :: s.toList
  | .str s => '"' :: (s.toList ++ ['"'])
  | .int n => printNat n
  | .float f => fl.print f
  | .dateTime s => s.toList
  | .sym s => s.toList
  | .eof => "end of input".toList

theorem print_str (s : String) : print fl (.str s) = '"' :: (s.toList ++ ['"']) := rfl

theorem print_float (f : F) : print fl (.float f) = fl.print f := rfl

end Printing

end OntologicalDb.TypeqlLexer
