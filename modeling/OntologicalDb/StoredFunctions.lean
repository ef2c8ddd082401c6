import OntologicalDb.TokenPrinting

/-!
Function definitions: the parser captures the tokens of a declaration and keeps them printed.
-/

namespace OntologicalDb.StoredFunctions

open OntologicalDb.TokenPrinting
open OntologicalDb.TypeqlLexer

section Parser

variable {F : Type}

structure FunctionDef where
  name : String
  params : List (String × String)
  returnsStream : Bool
  returnTypes : List String
  /-- Verbatim source of the whole declaration, preserved for round-tripping. -/
  source : String

def isEof : Tok F → Bool
  | .eof => true
  | _ => false

def isSym (s : String) : Tok F → Bool
  | .sym x => x = s
  | _ => false

def isKw (kw : String) : Tok F → Bool
  | .ident s => s = kw
  | _ => false

def atSym (s : String) (ts : List (Tok F)) : Bool := ts.head?.any (isSym s)

def expectSym (s : String) (ts : List (Tok F)) : Except String (List (Tok F)) :=
  if atSym s ts then .ok ts.tail else .error s!"expected '{s}'"

def ident : List (Tok F) → Except String (String × List (Tok F))
  | .ident s :: ts => .ok (s, ts)
  | _ => .error "expected a name"

def var : List (Tok F) → Except String (String × List (Tok F))
  | .var s :: ts => .ok (s, ts)
  | _ => .error "expected a variable"

/-- Parameters and their types, over at most so many tokens. -/
def params : Nat → List (Tok F) → Except String (List (String × String) × List (Tok F))
  | 0, _ => .error "expected a variable"
  | n + 1, ts => do
      let p ← var ts
      let ts ← expectSym ":" p.2
      let t ← ident ts
      if atSym "," t.2 then do
        let w ← params n t.2.tail
        return ((p.1, t.1) :: w.1, w.2)
      else return ([(p.1, t.1)], t.2)

def paramList (ts : List (Tok F)) : Except String (List (String × String) × List (Tok F)) :=
  if atSym ")" ts then .ok ([], ts) else params ts.length ts

/-- The types of a stream, up to the closing brace; what is no name is skipped. -/
def streamTypes : List (Tok F) → Except String (List String × List (Tok F))
  | [] => .error "unterminated function return type"
  | t :: ts =>
      if isSym "\x7d" t then .ok ([], ts)
      else if isEof t then .error "unterminated function return type"
      else (streamTypes ts).map fun v => ((ident [t]).toOption.toList.map Prod.fst ++ v.1, v.2)

def returnTypes (ts : List (Tok F)) : Except String (Bool × List String × List (Tok F)) :=
  if atSym "\x7b" ts then (streamTypes ts.tail).map fun v => (true, v.1, v.2)
  else (ident ts).map fun v => (false, [v.1], v.2)

/-- From behind `return` to behind its `;`, outside of braces and parentheses. -/
def returnEnd (name : String) : Int → List (Tok F) → Except String (List (Tok F))
  | _, [] => .error s!"unterminated 'return' in function '{name}'"
  | d, t :: ts =>
      if isEof t then .error s!"unterminated 'return' in function '{name}'"
      else if isSym "\x7b" t || isSym "(" t then returnEnd name (d + 1) ts
      else if isSym "\x7d" t || isSym ")" t then returnEnd name (d - 1) ts
      else if d = 0 && isSym ";" t then .ok ts
      else returnEnd name d ts

/-- The body: `return` outside of braces, then its `;`. -/
def bodyEnd (name : String) : Int → List (Tok F) → Except String (List (Tok F))
  | _, [] => .error s!"function '{name}' has no 'return' clause"
  | d, t :: ts =>
      if isEof t then .error s!"function '{name}' has no 'return' clause"
      else if isSym "\x7b" t then bodyEnd name (d + 1) ts
      else if isSym "\x7d" t then bodyEnd name (d - 1) ts
      else if d = 0 && isKw "return" t then returnEnd name 0 ts
      else bodyEnd name d ts

/-- The tokens between two positions. -/
def captured (ts rest : List (Tok F)) : List (Tok F) := ts.take (ts.length - rest.length)

variable (fl : Floats F)

def functionDef (start : List (Tok F)) : Except String (FunctionDef × List (Tok F)) := do
  let name ← ident start.tail
  let ts ← expectSym "(" name.2
  let ps ← paramList ts
  let ts ← expectSym ")" ps.2
  let ts ← expectSym "->" ts
  let rt ← returnTypes ts
  let ts ← expectSym ":" rt.2.2
  let rest ← bodyEnd name.1 0 ts
  return (⟨name.1, ps.1, rt.1, rt.2.1, String.ofList (printAll fl (captured start rest))⟩, rest)

end Parser

section Capture

variable {F : Type} {fl : Floats F}

/-- The parser went forward over tokens none of which is the end. -/
def Consumes (ts rest : List (Tok F)) : Prop :=
  ∃ c, ts = c ++ rest ∧ ∀ t ∈ c, isEof t = false

theorem Consumes.refl (ts : List (Tok F)) : Consumes ts ts :=
  ⟨[], rfl, fun _ ht => absurd ht List.not_mem_nil⟩

theorem Consumes.trans {ts mid rest : List (Tok F)} (h : Consumes ts mid)
    (h' : Consumes mid rest) : Consumes ts rest := by
  rcases h with ⟨c, rfl, hc⟩
  rcases h' with ⟨d, rfl, hd⟩
  refine ⟨c ++ d, (List.append_assoc _ _ _).symm, fun t ht => ?_⟩
  exact (List.mem_append.mp ht).elim (hc t) (hd t)

theorem Consumes.cons {t : Tok F} {ts rest : List (Tok F)} (ht : isEof t = false)
    (h : Consumes ts rest) : Consumes (t :: ts) rest := by
  refine Consumes.trans ⟨[t], rfl, fun u hu => ?_⟩ h
  rw [List.mem_singleton.mp hu]
  exact ht

theorem tail_consumes {s : String} {ts : List (Tok F)} (h : atSym s ts = true) :
    Consumes ts ts.tail := by
  cases ts with
  | nil => cases h
  | cons t ts =>
      have ht : isSym s t = true := h
      refine .cons ?_ (.refl ts)
      cases t with
      | eof => cases ht
      | ident | var | str | int | float | dateTime | sym => rfl

theorem expectSym_consumes {s : String} {ts rest : List (Tok F)} (h : expectSym s ts = .ok rest) :
    Consumes ts rest := by
  unfold expectSym at h
  split at h
  next hat =>
    rw [← Except.ok.inj h]
    exact tail_consumes hat
  next => cases h

theorem ident_consumes {ts : List (Tok F)} {v : String × List (Tok F)} (h : ident ts = .ok v) :
    Consumes ts v.2 := by
  unfold ident at h
  split at h
  next s ts =>
    rw [← Except.ok.inj h]
    exact .cons rfl (.refl ts)
  next => cases h

theorem var_consumes {ts : List (Tok F)} {v : String × List (Tok F)} (h : var ts = .ok v) :
    Consumes ts v.2 := by
  unfold var at h
  split at h
  next s ts =>
    rw [← Except.ok.inj h]
    exact .cons rfl (.refl ts)
  next => cases h

theorem params_consumes {n : Nat} {ts : List (Tok F)}
    {v : List (String × String) × List (Tok F)} (h : params n ts = .ok v) : Consumes ts v.2 := by
  induction n generalizing ts v with
  | zero => cases h
  | succ n ih =>
      rcases ExceptRules.bind_eq_ok.mp h with ⟨p, hp, h⟩
      rcases ExceptRules.bind_eq_ok.mp h with ⟨ts₁, hcolon, h⟩
      rcases ExceptRules.bind_eq_ok.mp h with ⟨t, ht, h⟩
      have hone := ((var_consumes hp).trans (expectSym_consumes hcolon)).trans (ident_consumes ht)
      split at h
      next hcomma =>
        rcases ExceptRules.bind_eq_ok.mp h with ⟨w, hw, h⟩
        have hmore := ih hw
        rw [← Except.ok.inj h]
        exact (hone.trans (tail_consumes hcomma)).trans hmore
      next =>
        rw [← Except.ok.inj h]
        exact hone

theorem streamTypes_consumes {ts : List (Tok F)} {v : List String × List (Tok F)}
    (h : streamTypes ts = .ok v) : Consumes ts v.2 := by
  induction ts generalizing v with
  | nil => cases h
  | cons t ts ih =>
      rw [streamTypes] at h
      split at h
      next hsym =>
        rw [← Except.ok.inj h]
        exact tail_consumes (s := "\x7d") hsym
      next =>
        split at h
        next => cases h
        next hend =>
          rcases ExceptRules.map_eq_ok.mp h with ⟨w, hw, rfl⟩
          have hmore := ih hw
          exact .cons (by simpa using hend) hmore

theorem returnTypes_consumes {ts : List (Tok F)} {v : Bool × List String × List (Tok F)}
    (h : returnTypes ts = .ok v) : Consumes ts v.2.2 := by
  unfold returnTypes at h
  split at h
  next hbrace =>
    rcases ExceptRules.map_eq_ok.mp h with ⟨w, hw, rfl⟩
    exact (tail_consumes hbrace).trans (streamTypes_consumes hw)
  next =>
    rcases ExceptRules.map_eq_ok.mp h with ⟨w, hw, rfl⟩
    exact ident_consumes hw

theorem returnEnd_consumes {name : String} {d : Int} {ts rest : List (Tok F)}
    (h : returnEnd name d ts = .ok rest) : Consumes ts rest := by
  induction ts generalizing d with
  | nil => cases h
  | cons t ts ih =>
      rw [returnEnd] at h
      split at h
      next => cases h
      next hend =>
        refine .cons (by simpa using hend) ?_
        split at h
        · exact ih h
        · split at h
          · exact ih h
          · split at h
            · rw [← Except.ok.inj h]
              exact .refl ts
            · exact ih h

theorem bodyEnd_consumes {name : String} {d : Int} {ts rest : List (Tok F)}
    (h : bodyEnd name d ts = .ok rest) : Consumes ts rest := by
  induction ts generalizing d with
  | nil => cases h
  | cons t ts ih =>
      rw [bodyEnd] at h
      split at h
      next => cases h
      next hend =>
        refine .cons (by simpa using hend) ?_
        split at h
        · exact ih h
        · split at h
          · exact ih h
          · split at h
            · exact returnEnd_consumes h
            · exact ih h

/-- An accepted definition is a stretch of tokens without the end, and its source is these
tokens, printed. -/
theorem functionDef_eq_ok {t : Tok F} {ts rest : List (Tok F)} {d : FunctionDef}
    (ht : isEof t = false) (h : functionDef fl (t :: ts) = .ok (d, rest)) :
    Consumes (t :: ts) rest ∧
      d.source.toList = printAll fl (captured (t :: ts) rest) := by
  rcases ExceptRules.bind_eq_ok.mp h with ⟨name, hname, h⟩
  rcases ExceptRules.bind_eq_ok.mp h with ⟨ts₁, hopen, h⟩
  rcases ExceptRules.bind_eq_ok.mp h with ⟨ps, hps, h⟩
  rcases ExceptRules.bind_eq_ok.mp h with ⟨ts₂, hclose, h⟩
  rcases ExceptRules.bind_eq_ok.mp h with ⟨ts₃, harrow, h⟩
  rcases ExceptRules.bind_eq_ok.mp h with ⟨rt, hrt, h⟩
  rcases ExceptRules.bind_eq_ok.mp h with ⟨ts₄, hcolon, h⟩
  rcases ExceptRules.bind_eq_ok.mp h with ⟨rest', hbody, h⟩
  rcases Prod.mk.inj (Except.ok.inj h) with ⟨rfl, rfl⟩
  have hparams : Consumes ts₁ ps.2 := by
    unfold paramList at hps
    split at hps
    · rw [← Except.ok.inj hps]
      exact .refl ts₁
    · exact params_consumes hps
  refine ⟨?_, String.toList_ofList⟩
  refine .cons ht ((ident_consumes hname).trans ((expectSym_consumes hopen).trans
    (hparams.trans ((expectSym_consumes hclose).trans ?_))))
  exact (expectSym_consumes harrow).trans ((returnTypes_consumes hrt).trans
    ((expectSym_consumes hcolon).trans (bodyEnd_consumes hbody)))

theorem captured_eq {c rest : List (Tok F)} : captured (c ++ rest) rest = c := by
  rw [captured, List.length_append, Nat.add_sub_cancel, List.take_left]

end Capture

section RoundTrip

variable {F : Type} {U : Unicode} {fl : Floats F}

/-- Lexed again, the source gives the tokens it was made of. -/
def Relexes (U : Unicode) (fl : Floats F) (source : String) (ts : List (Tok F)) : Prop :=
  lex U fl source.toList = .ok (ts ++ [Tok.eof])

theorem relexes_iff {t : Tok F} {ts rest : List (Tok F)} {d : FunctionDef}
    (ht : isEof t = false) (hdef : functionDef fl (t :: ts) = .ok (d, rest))
    (hall : ∀ u ∈ captured (t :: ts) rest, Lexed U u) :
    Relexes U fl d.source (captured (t :: ts) rest) ↔
      ∀ u ∈ captured (t :: ts) rest, Plain fl u := by
  rw [Relexes, (functionDef_eq_ok ht hdef).2]
  exact lex_printAll_iff hall

/-- The stored text of an accepted function re-lexes to itself when its strings are without
quotes and backslashes and its floats finite and no small whole numbers, and only then. -/
theorem source_relexes_iff {src : List Char} {before ts rest : List (Tok F)} {d : FunctionDef}
    (hlex : lex U fl src = .ok (before ++ .ident "fun" :: ts))
    (hdef : functionDef fl (.ident "fun" :: ts) = .ok (d, rest)) :
    Relexes U fl d.source (captured (.ident "fun" :: ts) rest) ↔
      ∀ t ∈ captured (.ident "fun" :: ts) rest, Plain fl t := by
  refine relexes_iff rfl hdef fun t ht => ?_
  rcases (functionDef_eq_ok rfl hdef).1 with ⟨c, hc, hend⟩
  rcases lex_lexed hlex with ⟨init, hinit, hall⟩
  rw [hc] at hinit ht
  rw [captured_eq] at ht
  have hmem : t ∈ init ++ [Tok.eof] := by
    rw [← hinit]
    exact List.mem_append_right _ (List.mem_append_left _ ht)
  rcases List.mem_append.mp hmem with h | h
  · exact hall t h
  · have hlast := hend t ht
    rw [List.mem_singleton.mp h] at hlast
    cases hlast

end RoundTrip

section Example

def asciiSpace (c : Char) : Bool := decide (c = ' ' ∨ 9 ≤ c.toNat ∧ c.toNat ≤ 13)

theorem asciiSpace_ascii (c : Char) (_ : c.toNat < 128) :
    asciiSpace c = decide (c = ' ' ∨ 9 ≤ c.toNat ∧ c.toNat ≤ 13) := rfl

theorem self_ascii (f : Char → Bool) (c : Char) (_ : c.toNat < 128) : f c = f c := rfl

theorem isAlphanum_of_isAlpha (c : Char) (h : c.isAlpha = true) : c.isAlphanum = true := by
  rw [Char.isAlphanum, h, Bool.true_or]

/-- The letters, digits and white space of ASCII. -/
def asciiUnicode : Unicode where
  isAlphabetic := Char.isAlpha
  isAlphanumeric := Char.isAlphanum
  isWhitespace := asciiSpace
  alphabetic_ascii := self_ascii Char.isAlpha
  alphanumeric_ascii := self_ascii Char.isAlphanum
  whitespace_ascii := asciiSpace_ascii
  alphanumeric := isAlphanum_of_isAlpha

/-- The one double 1.5. -/
def oneAndHalf : Floats Unit where
  parse _ := ()
  print _ := ['1', '.', '5']
  isFinite _ := true
  whole _ := none
  print_infinite _ h := by cases h
  print_fraction _ _ _ := ⟨['1'], ['5'], ⟨List.cons_ne_nil _ _, by simp [isDigit]⟩,
    ⟨List.cons_ne_nil _ _, by simp [isDigit]⟩, rfl⟩
  print_whole _ _ _ h := by cases h
  parse_print _ _ := rfl

/-- The tokens of `fun f() -> t: return`. -/
def header : List (Tok Unit) :=
  [.ident "fun", .ident "f", .sym "(", .sym ")", .sym "->", .ident "t", .sym ":",
    .ident "return"]

theorem header_lexed : ∀ t ∈ header, Lexed asciiUnicode t ∧ Plain oneAndHalf t := by
  have hword {s : String} {c : Char} {g : List Char} (hs : s.toList = c :: (g ++ []))
      (hc : isIdentStart asciiUnicode c = true) (hspace : asciiUnicode.isWhitespace c = false)
      (hg : (glued asciiUnicode g).1 = g) :
      Lexed asciiUnicode (.ident s : Tok Unit) ∧ Plain oneAndHalf (.ident s) :=
    ⟨⟨c, g, [], hs, hc, hspace, hg, .inl rfl⟩, trivial⟩
  have hsym {s : String} (hs : s ∈ symbols) :
      Lexed asciiUnicode (.sym s : Tok Unit) ∧ Plain oneAndHalf (.sym s) := ⟨hs, trivial⟩
  intro t ht
  simp only [header, List.mem_cons, List.not_mem_nil, or_false] at ht
  rcases ht with rfl | rfl | rfl | rfl | rfl | rfl | rfl | rfl
  · exact @hword "fun" 'f' ['u', 'n'] rfl rfl rfl rfl
  · exact @hword "f" 'f' [] rfl rfl rfl rfl
  · exact hsym (by simp [symbols])
  · exact hsym (by simp [symbols])
  · exact hsym (by simp [symbols])
  · exact @hword "t" 't' [] rfl rfl rfl rfl
  · exact hsym (by simp [symbols])
  · exact @hword "return" 'r' ['e', 't', 'u', 'r', 'n'] rfl rfl rfl rfl

theorem semicolon_lexed :
    Lexed asciiUnicode (.sym ";" : Tok Unit) ∧ Plain oneAndHalf (.sym ";") :=
  ⟨by simp [Lexed, symbols], trivial⟩

theorem header_lex (cs : List Char) :
    lex asciiUnicode oneAndHalf (printAll oneAndHalf header ++ ' ' :: cs) =
      (lex asciiUnicode oneAndHalf cs).map fun us => header ++ us := by
  rw [lex_printAll_append header_lexed (.inr ⟨cs, rfl⟩), lex_eq_of_skip (skip_space cs)]

/-- `fun f() -> t: return x;` -/
theorem source_relexes_plain : ∃ d : FunctionDef,
    functionDef oneAndHalf (header ++ [Tok.float (), .sym ";", .eof]) = .ok (d, [.eof]) ∧
      (Relexes asciiUnicode oneAndHalf d.source (header ++ [Tok.float (), .sym ";"]) ↔
        ∀ t ∈ header ++ [Tok.float (), .sym ";"], Plain oneAndHalf t) := by
  have hall : ∀ t ∈ header ++ [Tok.float (), .sym ";"],
      Lexed asciiUnicode t ∧ Plain oneAndHalf t := by
    intro t ht
    rcases List.mem_append.mp ht with h | h
    · exact header_lexed t h
    · rcases List.mem_cons.mp h with rfl | h
      · exact ⟨trivial, rfl, fun n hn => absurd hn (Option.some_ne_none n).symm⟩
      · rw [List.mem_singleton.mp h]
        exact semicolon_lexed
  have hlex : lex asciiUnicode oneAndHalf (printAll oneAndHalf (header ++ [Tok.float (), .sym ";"])) =
      .ok ([] ++ Tok.ident "fun" :: (header.tail ++ [Tok.float (), .sym ";", .eof])) :=
    (lex_printAll_iff fun t ht => (hall t ht).1).mpr fun t ht => (hall t ht).2
  exact ⟨_, rfl, source_relexes_iff hlex rfl⟩

/-- `"a\\b";`, a string with one backslash. -/
def backslashEnd : List Char := ['"', 'a', '\\', '\\', 'b', '"', ';']

theorem backslashEnd_lex :
    lex asciiUnicode oneAndHalf backslashEnd = .ok [.str "a\\b", .sym ";", .eof] := by
  have hsemi : lex asciiUnicode oneAndHalf [';'] = .ok [.sym ";", .eof] := by
    have hsingle : ∀ t ∈ [Tok.sym ";"], Lexed asciiUnicode t ∧ Plain oneAndHalf t :=
      fun t ht => List.mem_singleton.mp ht ▸ semicolon_lexed
    exact (lex_printAll_iff fun t ht => (hsingle t ht).1).mpr fun t ht => (hsingle t ht).2
  have htok : lexToken asciiUnicode oneAndHalf '"' backslashEnd.tail =
      .ok (.str "a\\b", [';']) := rfl
  rw [lex_of_token (r := backslashEnd.tail) rfl htok, hsemi]
  rfl

/-- In `fun f() -> t: return "a\\b";` the string is kept as `"a\b"`, which is read as `ab`. -/
theorem backslash_lost : ∃ (src : List Char) (before ts rest : List (Tok Unit)) (d : FunctionDef),
    lex asciiUnicode oneAndHalf src = .ok (before ++ .ident "fun" :: ts) ∧
      functionDef oneAndHalf (.ident "fun" :: ts) = .ok (d, rest) ∧
        ¬ Relexes asciiUnicode oneAndHalf d.source (captured (.ident "fun" :: ts) rest) := by
  refine ⟨printAll oneAndHalf header ++ ' ' :: backslashEnd, [],
    header.tail ++ [Tok.str "a\\b", .sym ";", .eof], [.eof], _, ?_, rfl, ?_⟩
  · rw [header_lex, backslashEnd_lex]
    rfl
  · have hcaptured : captured (.ident "fun" :: (header.tail ++ [Tok.str "a\\b", .sym ";", .eof]))
        [.eof] = header ++ [Tok.str "a\\b", .sym ";"] := rfl
    intro h
    have hplain := (relexes_iff rfl rfl ?_).mp h
    · rw [hcaptured] at hplain
      have hstr := hplain (.str "a\\b") (by simp)
      exact hstr.2 (by simp)
    · rw [hcaptured]
      intro t ht
      rcases List.mem_append.mp ht with ht | ht
      · exact (header_lexed t ht).1
      · rcases List.mem_cons.mp ht with rfl | ht
        · trivial
        · rw [List.mem_singleton.mp ht]
          exact semicolon_lexed.1

end Example

end OntologicalDb.StoredFunctions
