import Mathlib
import OntologicalDb.ExceptRules

/-!
The Cypher lexer.  It walks the bytes of a query; what it takes for text it decodes as
UTF-8.
-/

namespace OntologicalDb.CypherLexer

section Decoding

/-- The character the bytes start with, when they are one's encoding. -/
def decodeChar (bs : List UInt8) : Option Char := bs.toByteArray.utf8DecodeChar? 0

/-- The bytes of a malformed sequence that one replacement character stands for. -/
def malformed : List UInt8 → Nat
  | a :: b :: rest =>
      let second :=
        if a = 0xE0 then 0xA0 ≤ b ∧ b ≤ 0xBF
        else if a = 0xED then 0x80 ≤ b ∧ b ≤ 0x9F
        else if 0xE1 ≤ a ∧ a ≤ 0xEF then 0x80 ≤ b ∧ b ≤ 0xBF
        else if a = 0xF0 then 0x90 ≤ b ∧ b ≤ 0xBF
        else if a = 0xF4 then 0x80 ≤ b ∧ b ≤ 0x8F
        else 0xF1 ≤ a ∧ a ≤ 0xF3 ∧ 0x80 ≤ b ∧ b ≤ 0xBF
      if second then if 0xF0 ≤ a ∧ rest.any (fun c => 0x80 ≤ c ∧ c ≤ 0xBF) then 3 else 2 else 1
  | _ => 1

/-- `from_utf8_lossy`, over at most so many bytes. -/
def lossyN : Nat → List UInt8 → List Char
  | 0, _ | _, [] => []
  | n + 1, b :: bs =>
      match decodeChar (b :: bs) with
      | some c => c :: lossyN n ((b :: bs).drop c.utf8Size)
      | none => Char.ofNat 0xFFFD :: lossyN n ((b :: bs).drop (malformed (b :: bs)))

def lossy (bs : List UInt8) : List Char := lossyN bs.length bs

/-- `from_utf8`, over at most so many bytes. -/
def strictN : Nat → List UInt8 → Option (List Char)
  | _, [] => some []
  | 0, _ => none
  | n + 1, b :: bs =>
      (decodeChar (b :: bs)).bind fun c =>
        (strictN n ((b :: bs).drop c.utf8Size)).map fun cs => c :: cs

def strict (bs : List UInt8) : Option (List Char) := strictN bs.length bs

/-- The length of a character's encoding, from its first byte. -/
def utf8Len (b : UInt8) : Nat :=
  if b ≥ 0xF0 then 4 else if b ≥ 0xE0 then 3 else if b ≥ 0xC0 then 2 else 1

end Decoding

section Tokens

inductive Tok (F : Type)
  | ident (s : String)
  | quotedIdent (s : String)
  | keyword (s : String)
  | int (n : Nat)
  | float (f : F)
  | str (s : String)
  | param (s : String)
  | punct (s : String)
  | eof
deriving DecidableEq

/-- A token with the word as it appeared in the source. -/
structure Token (F : Type) where
  tok : Tok F
  raw : String
deriving DecidableEq

def keywords : List String :=
  ["match", "optional", "where", "return", "with", "create", "merge", "set", "remove", "delete",
    "detach", "order", "by", "skip", "limit", "distinct", "as", "and", "or", "not", "xor", "in",
    "is", "null", "true", "false", "unwind", "union", "all", "asc", "desc", "starts", "ends",
    "contains", "case", "when", "then", "else", "end", "exists", "count", "on", "call", "yield",
    "drop"]

/-- The Unicode tables, which agree with the letters and digits of ASCII, and the parser of
floating-point numerals. -/
structure Platform (F : Type) where
  isAlphabetic : Char → Bool
  isAlphanumeric : Char → Bool
  alphabetic_ascii : ∀ c : Char, c.toNat < 128 → isAlphabetic c = c.isAlpha
  alphanumeric_ascii : ∀ c : Char, c.toNat < 128 → isAlphanumeric c = c.isAlphanum
  alphanumeric : ∀ c, isAlphabetic c = true → isAlphanumeric c = true
  parseF64 : String → Except String F

end Tokens

section Bytes

def byte (c : Char) : UInt8 := c.toUInt8

def isDigit (b : UInt8) : Bool := byte '0' ≤ b ∧ b ≤ byte '9'

def isAsciiWhitespace (b : UInt8) : Bool :=
  b = byte ' ' ∨ b = byte '\t' ∨ b = byte '\n' ∨ b = 12 ∨ b = byte '\r'

/-- Where the scan of white space stands: in it, in a line comment, at the second byte of
a block comment, inside it, or at its last byte. -/
inductive Trivia
  | plain
  | line
  | opening
  | block
  | closing

def skipTriviaFrom : Trivia → List UInt8 → List UInt8
  | _, [] => []
  | .plain, c :: r =>
      if isAsciiWhitespace c then skipTriviaFrom .plain r
      else if c = byte '/' ∧ r.head? = some (byte '/') then skipTriviaFrom .line r
      else if c = byte '/' ∧ r.head? = some (byte '*') then skipTriviaFrom .opening r
      else c :: r
  | .line, c :: r => skipTriviaFrom (if c = byte '\n' then .plain else .line) r
  | .opening, _ :: r => skipTriviaFrom .block r
  | .block, c :: r =>
      skipTriviaFrom (if c = byte '*' ∧ r.head? = some (byte '/') then .closing else .block) r
  | .closing, _ :: r => skipTriviaFrom .plain r

def skipTrivia (src : List UInt8) : List UInt8 := skipTriviaFrom .plain src

end Bytes

section Taking

variable {F : Type} (pf : Platform F)

/-- `take_until`: a quoted identifier, from behind its first quote. -/
def takeUntil (fin : UInt8) : List UInt8 → Except String (List UInt8 × List UInt8)
  | [] => .error "unterminated quoted identifier"
  | c :: r => if c = fin then .ok ([], r) else (takeUntil fin r).map fun v => (c :: v.1, v.2)

def escaped (b : UInt8) : Char :=
  if b = byte 'n' then '\n'
  else if b = byte 't' then '\t'
  else if b = byte 'r' then '\r'
  else if b = byte '0' then Char.ofNat 0
  else Char.ofNat b.toNat

/-- `take_string`, from behind the opening quote. -/
def takeString (quote : UInt8) : List UInt8 → Except String (List Char × List UInt8)
  | [] => .error "unterminated string literal"
  | c :: r =>
      if c = byte '\\' then
        match r with
        | [] => .error "unterminated string literal"
        | esc :: r => (takeString quote r).map fun v => (escaped esc :: v.1, v.2)
      else if c = quote then .ok ([], r)
      else if c < 0x80 then (takeString quote r).map fun v => (Char.ofNat c.toNat :: v.1, v.2)
      else
        (takeString quote (r.drop (utf8Len c - 1))).map fun v =>
          (lossy ((c :: r).take (utf8Len c)) ++ v.1, v.2)
termination_by r => r.length
decreasing_by all_goals simp only [List.length_cons, List.length_drop]; omega

/-- The next character and how many bytes it occupies. -/
def peekChar (src : List UInt8) : Option (Char × Nat) :=
  (strict src).bind fun cs => cs.head?.map fun c => (c, c.utf8Size)

def atWordStart (src : List UInt8) : Bool :=
  (peekChar src).any fun c => pf.isAlphabetic c.1 || c.1 = '_'

/-- The length of a word, over at most so many bytes. -/
def wordLength : Nat → List UInt8 → Nat
  | 0, _ => 0
  | n + 1, src =>
      match peekChar src with
      | some (c, k) =>
          if pf.isAlphanumeric c || c = '_' then k + wordLength n (src.drop k) else 0
      | none => 0

def takeWord (src : List UInt8) : String × List UInt8 :=
  let n := wordLength pf src.length src
  (String.ofList (lossy (src.take n)), src.drop n)

def isSign (b : UInt8) : Bool := b = byte '+' ∨ b = byte '-'

def afterSign (r : List UInt8) : List UInt8 := if r.head?.any isSign then r.tail else r

theorem afterSign_length (r : List UInt8) : (afterSign r).length ≤ r.length := by
  unfold afterSign
  split
  · rw [List.length_tail]
    exact Nat.sub_le _ _
  · exact le_rfl

/-- The bytes of a numeral, whether it is a float, and what follows. -/
def takeNumeral : Bool → List UInt8 → List UInt8 × Bool × List UInt8
  | isFloat, [] => ([], isFloat, [])
  | isFloat, c :: r =>
      if isDigit c then
        let v := takeNumeral isFloat r
        (c :: v.1, v.2)
      else if c = byte '.' ∧ isFloat = false ∧ r.head?.any isDigit then
        let v := takeNumeral true r
        (c :: v.1, v.2)
      else if c = byte 'e' ∨ c = byte 'E' then
        let v := takeNumeral true (afterSign r)
        (c :: (r.take (r.length - (afterSign r).length) ++ v.1), v.2)
      else ([], isFloat, c :: r)
termination_by _ r => r.length
decreasing_by
  · exact Nat.lt_succ_self _
  · exact Nat.lt_succ_self _
  · exact Nat.lt_succ_of_le (afterSign_length r)

/-- The number some digits stand for. -/
def decimal (ds : List UInt8) : Nat := ds.foldl (fun n d => n * 10 + (d.toNat - 48)) 0

def takeNumber (src : List UInt8) : Except String (Tok F × List UInt8) :=
  let v := takeNumeral false src
  if v.2.1 then do
    let f ← pf.parseF64 (String.ofList (lossy v.1))
    return (.float f, v.2.2)
  else if decimal v.1 < 2 ^ 63 then .ok (.int (decimal v.1), v.2.2)
  else .error "number too large to fit in target type"

def longPuncts : List String :=
  ["<->", "<=", ">=", "<>", "!=", "->", "<-", "..", "=~", "+=", "||"]

def shortPuncts : List Char := "()[]\x7b\x7d<>=+-*/%^.,:;|".toList

def bytesOf (s : String) : List UInt8 := s.toList.flatMap String.utf8EncodeChar

def takePunct (c : UInt8) (r : List UInt8) : Except String (Tok F × List UInt8) :=
  match longPuncts.find? fun p => (bytesOf p).isPrefixOf (c :: r) with
  | some p => .ok (.punct p, (c :: r).drop (bytesOf p).length)
  | none =>
      if shortPuncts.any fun p => byte p = c then
        .ok (.punct (String.singleton (Char.ofNat c.toNat)), r)
      else .error "unexpected character"

/-- One token, from its first byte on. -/
def takeToken (c : UInt8) (r : List UInt8) : Except String (Token F × List UInt8) :=
  if c = byte '\x60' then
    (takeUntil (byte '\x60') r).map fun v => (⟨.quotedIdent (String.ofList (lossy v.1)), ""⟩, v.2)
  else if c = byte '\'' ∨ c = byte '"' then
    (takeString c r).map fun v => (⟨.str (String.ofList v.1), ""⟩, v.2)
  else if c = byte '$' then
    let w := takeWord pf r
    if w.1 = "" then .error "expected a parameter name after '$'" else .ok (⟨.param w.1, ""⟩, w.2)
  else if isDigit c then (takeNumber pf (c :: r)).map fun v => (⟨v.1, ""⟩, v.2)
  else if atWordStart pf (c :: r) then
    let w := takeWord pf (c :: r)
    let lw := String.ofList (w.1.toList.map Char.toLower)
    .ok (⟨if lw ∈ keywords then .keyword lw else .ident w.1, w.1⟩, w.2)
  else (takePunct c r).map fun v => (⟨v.1, ""⟩, v.2)

end Taking

section Progress

variable {F : Type} {pf : Platform F}

theorem skipTriviaFrom_length (m : Trivia) (src : List UInt8) :
    (skipTriviaFrom m src).length ≤ src.length := by
  induction src generalizing m with
  | nil => cases m <;> exact le_rfl
  | cons c r ih =>
      have hr (m : Trivia) : (skipTriviaFrom m r).length ≤ (c :: r).length :=
        (ih m).trans (Nat.le_succ _)
      cases m with
      | plain =>
          rw [skipTriviaFrom]
          split
          · exact hr _
          · split
            · exact hr _
            · split
              · exact hr _
              · exact le_rfl
      | line => exact hr _
      | opening => exact hr _
      | block => exact hr _
      | closing => exact hr _

theorem takeUntil_length {fin : UInt8} {src : List UInt8} {v : List UInt8 × List UInt8}
    (h : takeUntil fin src = .ok v) : v.2.length < src.length := by
  induction src generalizing v with
  | nil => cases h
  | cons c r ih =>
      rw [takeUntil] at h
      split at h
      · rw [← Except.ok.inj h]
        exact Nat.lt_succ_self _
      · rcases ExceptRules.map_eq_ok.mp h with ⟨w, hw, rfl⟩
        exact (ih hw).trans (Nat.lt_succ_self _)

theorem takeString_length {quote : UInt8} {src : List UInt8} {v : List Char × List UInt8}
    (h : takeString quote src = .ok v) : v.2.length < src.length := by
  fun_induction takeString quote src generalizing v with
  | case1 => cases h
  | case2 => cases h
  | case3 esc r ih =>
      rcases ExceptRules.map_eq_ok.mp h with ⟨w, hw, rfl⟩
      have := ih hw
      simp only [List.length_cons]
      omega
  | case4 r =>
      rw [← Except.ok.inj h]
      exact Nat.lt_succ_self _
  | case5 c r h₁ h₂ h₃ ih =>
      rcases ExceptRules.map_eq_ok.mp h with ⟨w, hw, rfl⟩
      exact (ih hw).trans (Nat.lt_succ_self _)
  | case6 c r h₁ h₂ h₃ ih =>
      rcases ExceptRules.map_eq_ok.mp h with ⟨w, hw, rfl⟩
      have := ih hw
      simp only [List.length_cons, List.length_drop] at *
      omega

theorem takeNumeral_length (isFloat : Bool) (src : List UInt8) :
    (takeNumeral isFloat src).2.2.length ≤ src.length := by
  fun_induction takeNumeral isFloat src with
  | case1 => exact le_rfl
  | case2 isFloat c r hc v ih => exact ih.trans (Nat.le_succ _)
  | case3 isFloat c r h₁ h₂ v ih => exact ih.trans (Nat.le_succ _)
  | case4 isFloat c r h₁ h₂ h₃ v ih =>
      exact ih.trans ((afterSign_length r).trans (Nat.le_succ _))
  | case5 => exact le_rfl

theorem takeNumber_length {c : UInt8} {r : List UInt8} (hc : isDigit c = true)
    {v : Tok F × List UInt8} (h : takeNumber pf (c :: r) = .ok v) :
    v.2.length < (c :: r).length := by
  have hle : (takeNumeral false (c :: r)).2.2.length < (c :: r).length := by
    rw [takeNumeral, if_pos hc]
    exact Nat.lt_succ_of_le (takeNumeral_length false r)
  dsimp only [takeNumber] at h
  split at h
  · cases hf : pf.parseF64 (String.ofList (lossy (takeNumeral false (c :: r)).1)) with
    | error => rw [hf] at h; cases h
    | ok f =>
        rw [hf] at h
        rw [← Except.ok.inj h]
        exact hle
  · split at h
    · rw [← Except.ok.inj h]
      exact hle
    · cases h

theorem takeWord_length {c : UInt8} {r : List UInt8} (h : atWordStart pf (c :: r) = true) :
    (takeWord pf (c :: r)).2.length < (c :: r).length := by
  have hpos : 0 < wordLength pf (c :: r).length (c :: r) := by
    unfold atWordStart at h
    rw [List.length_cons, wordLength]
    cases hpeek : peekChar (c :: r) with
    | none => simp [hpeek] at h
    | some d =>
        have hd : pf.isAlphabetic d.1 = true ∨ d.1 = '_' := by simpa [hpeek] using h
        have hword : (pf.isAlphanumeric d.1 || d.1 = '_') = true := by
          rcases hd with hd | hd
          · simp [pf.alphanumeric _ hd]
          · simp [hd]
        have hk : 0 < d.2 := by
          unfold peekChar at hpeek
          rcases Option.bind_eq_some_iff.mp hpeek with ⟨cs, -, hcs⟩
          rcases Option.map_eq_some_iff.mp hcs with ⟨e, -, rfl⟩
          exact e.utf8Size_pos
        change 0 < if (pf.isAlphanumeric d.1 || d.1 = '_') = true then _ else _
        rw [if_pos hword]
        omega
  simp only [takeWord, List.length_drop, List.length_cons] at *
  omega

theorem takePunct_length {c : UInt8} {r : List UInt8} {v : Tok F × List UInt8}
    (h : takePunct c r = .ok v) : v.2.length < (c :: r).length := by
  unfold takePunct at h
  split at h
  next p hp =>
    have hlong : ∀ p ∈ longPuncts, 0 < (bytesOf p).length := by decide
    have hpos := hlong p (List.mem_of_find?_eq_some hp)
    rw [← Except.ok.inj h]
    simp only [List.length_drop, List.length_cons]
    omega
  next =>
    split at h
    · rw [← Except.ok.inj h]
      exact Nat.lt_succ_self _
    · cases h

theorem takeToken_length {c : UInt8} {r : List UInt8} {v : Token F × List UInt8}
    (h : takeToken pf c r = .ok v) : v.2.length < (c :: r).length := by
  dsimp only [takeToken] at h
  split at h
  · rcases ExceptRules.map_eq_ok.mp h with ⟨w, hw, rfl⟩
    exact (takeUntil_length hw).trans (Nat.lt_succ_self _)
  split at h
  · rcases ExceptRules.map_eq_ok.mp h with ⟨w, hw, rfl⟩
    exact (takeString_length hw).trans (Nat.lt_succ_self _)
  split at h
  · split at h
    · cases h
    · rw [← Except.ok.inj h]
      simp only [takeWord, List.length_drop, List.length_cons]
      omega
  split at h
  next hc =>
    rcases ExceptRules.map_eq_ok.mp h with ⟨w, hw, rfl⟩
    exact takeNumber_length hc hw
  split at h
  next hstart =>
    rw [← Except.ok.inj h]
    exact takeWord_length hstart
  · rcases ExceptRules.map_eq_ok.mp h with ⟨w, hw, rfl⟩
    exact takePunct_length hw

end Progress

section Tokenizing

variable {F : Type} (pf : Platform F)

/-- `tokenize`. -/
def tokenize (src : List UInt8) : Except String (List (Token F)) :=
  match _hsrc : skipTrivia src with
  | [] => .ok [⟨.eof, ""⟩]
  | c :: r =>
      match _htok : takeToken pf c r with
      | .ok (t, rest) => (tokenize rest).map fun ts => t :: ts
      | .error e => .error e
termination_by src.length
decreasing_by
  have hskip := skipTriviaFrom_length .plain src
  have htake := takeToken_length _htok
  rw [show skipTriviaFrom .plain src = c :: r from _hsrc] at hskip
  exact htake.trans_le hskip

variable {pf}

theorem tokenize_of_token {src r rest : List UInt8} {c : UInt8} {t : Token F}
    (hsrc : skipTrivia src = c :: r) (h : takeToken pf c r = .ok (t, rest)) :
    tokenize pf src = (tokenize pf rest).map fun ts => t :: ts := by
  rw [tokenize]
  split
  next hnil => rw [hsrc] at hnil; cases hnil
  next c' r' hcons =>
    obtain ⟨rfl, rfl⟩ := List.cons.inj (hsrc.symm.trans hcons)
    split
    next t' rest' htok =>
      obtain ⟨rfl, rfl⟩ := Prod.mk.inj (Except.ok.inj (h.symm.trans htok))
      rfl
    next e herr => rw [h] at herr; cases herr

theorem tokenize_of_error {src r : List UInt8} {c : UInt8} {e : String}
    (hsrc : skipTrivia src = c :: r) (h : takeToken pf c r = .error e) :
    tokenize pf src = .error e := by
  rw [tokenize]
  split
  next hnil => rw [hsrc] at hnil; cases hnil
  next c' r' hcons =>
    obtain ⟨rfl, rfl⟩ := List.cons.inj (hsrc.symm.trans hcons)
    split
    next t' rest' htok => rw [h] at htok; cases htok
    next e' herr => rw [← Except.error.inj (h.symm.trans herr)]

end Tokenizing

end OntologicalDb.CypherLexer
