import OntologicalDb.CypherLexer

/-!
String literals: every way to write a string between quotes, and what the lexer, which
walks bytes, makes of it.
-/

namespace OntologicalDb.StringTokens

open OntologicalDb.CypherLexer

section Encoding

def Ascii (c : Char) : Prop := c.toNat < 128

instance (c : Char) : Decidable (Ascii c) := inferInstanceAs (Decidable (c.toNat < 128))

theorem ascii_iff {c : Char} : Ascii c ↔ c.utf8Size = 1 := by
  rw [Char.utf8Size_eq_one_iff, UInt32.le_iff_toNat_le]
  exact Nat.lt_succ_iff

theorem encode_ascii {c : Char} (h : Ascii c) : String.utf8EncodeChar c = [byte c] :=
  String.utf8EncodeChar_eq_singleton (ascii_iff.mp h)

theorem byte_toNat {c : Char} (h : Ascii c) : (byte c).toNat = c.toNat := by
  have hlt : c.toNat < 256 := h.trans (by decide)
  exact Nat.mod_eq_of_lt hlt

theorem ofNat_byte {c : Char} (h : Ascii c) : Char.ofNat (byte c).toNat = c := by
  rw [byte_toNat h, Char.ofNat_toNat]

theorem byte_lt {c : Char} (h : Ascii c) : byte c < 0x80 := by
  rw [UInt8.lt_iff_toNat_lt, byte_toNat h]
  exact h

theorem byte_inj {c d : Char} (hc : Ascii c) (hd : Ascii d) : byte c = byte d ↔ c = d := by
  refine ⟨fun h => ?_, congrArg _⟩
  rw [← ofNat_byte hc, h, ofNat_byte hd]

def Continues (b : UInt8) : Prop := 0x80 ≤ b ∧ b < 0xC0

/-- The lead bytes of two, three and four bytes, and the bytes after them. -/
theorem wide_bytes (x : UInt8) :
    ((0xC0 ≤ (x &&& 0x1f ||| 0xc0) ∧ utf8Len (x &&& 0x1f ||| 0xc0) = 2) ∧
      (0xC0 ≤ (x &&& 0x0f ||| 0xe0) ∧ utf8Len (x &&& 0x0f ||| 0xe0) = 3) ∧
        0xC0 ≤ (x &&& 0x07 ||| 0xf0) ∧ utf8Len (x &&& 0x07 ||| 0xf0) = 4) ∧
      Continues (x &&& 0x3f ||| 0x80) := by
  unfold Continues
  rcases x with ⟨x⟩
  revert x
  decide +kernel

theorem continues_tail (x : UInt8) : Continues (x &&& 0x3f ||| 0x80) :=
  (wide_bytes x).2

/-- The bytes of a character outside ASCII. -/
theorem encode_wide {c : Char} (h : ¬ Ascii c) :
    ∃ lead tail, String.utf8EncodeChar c = lead :: tail ∧ 0xC0 ≤ lead ∧
      utf8Len lead = tail.length + 1 ∧ tail ≠ [] ∧ ∀ b ∈ tail, Continues b := by
  rcases c.utf8Size_eq with hsize | hsize | hsize | hsize
  · exact absurd (ascii_iff.mpr hsize) h
  · have hlead := fun x => (wide_bytes x).1.1
    refine ⟨_, _, String.utf8EncodeChar_eq_cons_cons hsize, (hlead _).1, (hlead _).2,
      List.cons_ne_nil _ _, ?_⟩
    simp [continues_tail]
  · have hlead := fun x => (wide_bytes x).1.2.1
    refine ⟨_, _, String.utf8EncodeChar_eq_cons_cons_cons hsize, (hlead _).1,
      (hlead _).2, List.cons_ne_nil _ _, ?_⟩
    simp [continues_tail]
  · have hlead := fun x => (wide_bytes x).1.2.2
    refine ⟨_, _, String.utf8EncodeChar_eq_cons_cons_cons_cons hsize, (hlead _).1,
      (hlead _).2, List.cons_ne_nil _ _, ?_⟩
    simp [continues_tail]

theorem decodeChar_encode (c : Char) (bs : List UInt8) :
    decodeChar (String.utf8EncodeChar c ++ bs) = some c := by
  rw [decodeChar, List.toByteArray_append]
  exact ByteArray.utf8DecodeChar?_utf8EncodeChar_append

theorem lossy_encode (c : Char) : lossy (String.utf8EncodeChar c) = [c] := by
  have hdecode := decodeChar_encode c []
  have hlen : (String.utf8EncodeChar c).length = c.utf8Size := String.length_utf8EncodeChar c
  rw [List.append_nil] at hdecode
  unfold lossy
  cases henc : String.utf8EncodeChar c with
  | nil =>
      have := c.utf8Size_pos
      rw [henc, List.length_nil] at hlen
      omega
  | cons b bs =>
      rw [henc] at hdecode hlen
      rw [List.length_cons, lossyN, hdecode]
      dsimp only
      rw [List.drop_of_length_le hlen.le]
      cases bs.length <;> rfl

/-- A byte that only continues a character starts none. -/
theorem decodeChar_continues {b : UInt8} (h : Continues b) : decodeChar [b] = none := by
  cases hdecode : decodeChar [b] with
  | none => rfl
  | some c =>
      exfalso
      rcases ByteArray.exists_of_utf8DecodeChar?_eq_some hdecode with ⟨l, hl⟩
      have hlist : [b] = String.utf8EncodeChar c ++ l.data.toList := by
        simpa using congrArg (fun bs : ByteArray => bs.data.toList) hl
      have hsize : c.utf8Size = 1 := by
        have hlen := congrArg List.length hlist
        have hpos := c.utf8Size_pos
        rw [List.length_append, String.length_utf8EncodeChar, List.length_singleton] at hlen
        omega
      have hascii := ascii_iff.mpr hsize
      rw [encode_ascii hascii] at hlist
      have hb := byte_lt hascii
      rw [← (List.cons.inj hlist).1] at hb
      exact absurd hb (UInt8.not_lt.mpr h.1)

theorem lossy_continues {b : UInt8} (h : Continues b) : lossy [b] = [Char.ofNat 0xFFFD] := by
  change lossyN 1 [b] = _
  rw [lossyN, decodeChar_continues h]
  rfl

end Encoding

section Pieces

/-- The letter of a recognised escape, and the character it stands for. -/
inductive Named
  | newline
  | tab
  | ret
  | zero
deriving DecidableEq

def Named.letter : Named → Char
  | .newline => 'n'
  | .tab => 't'
  | .ret => 'r'
  | .zero => '0'

def Named.value : Named → Char
  | .newline => '\n'
  | .tab => '\t'
  | .ret => '\r'
  | .zero => Char.ofNat 0

/-- One character of a string, as it is written: as itself, behind a backslash, or as a
recognised escape. -/
inductive Piece
  | plain (c : Char)
  | escaped (c : Char)
  | named (e : Named)
deriving DecidableEq

def Piece.value : Piece → Char
  | .plain c | .escaped c => c
  | .named e => e.value

def Piece.text : Piece → List Char
  | .plain c => [c]
  | .escaped c => ['\\', c]
  | .named e => ['\\', e.letter]

/-- The quote and the backslash are escaped, and no other letter passes for a recognised
escape. -/
def Piece.Valid (quote : Char) : Piece → Prop
  | .plain c => c ≠ quote ∧ c ≠ '\\'
  | .escaped c => ∀ e : Named, c ≠ e.letter
  | .named _ => True

/-- No character outside ASCII stands behind a backslash. -/
def Piece.Narrow : Piece → Prop
  | .escaped c => Ascii c
  | _ => True

/-- The bytes of a literal from behind its opening quote. -/
def body (quote : Char) (pieces : List Piece) (rest : List UInt8) : List UInt8 :=
  (pieces.flatMap Piece.text).flatMap String.utf8EncodeChar ++ byte quote :: rest

end Pieces

section Lexing

variable {quote c : Char} {r : List UInt8}

theorem takeString_ascii (hquote : Ascii quote) (hc : Ascii c) (hne : c ≠ quote) (hb : c ≠ '\\') :
    takeString (byte quote) (byte c :: r) =
      (takeString (byte quote) r).map fun v => (c :: v.1, v.2) := by
  have h₁ : byte c ≠ byte '\\' := fun h => hb ((byte_inj hc (by decide)).mp h)
  have h₂ : byte c ≠ byte quote := fun h => hne ((byte_inj hc hquote).mp h)
  rw [takeString.eq_def]
  simp only [if_neg h₁, if_neg h₂, if_pos (byte_lt hc), ofNat_byte hc]

theorem takeString_close (hquote : quote = '\'' ∨ quote = '"') :
    takeString (byte quote) (byte quote :: r) = .ok ([], r) := by
  have hb : byte quote ≠ byte '\\' := by rcases hquote with rfl | rfl <;> decide
  rw [takeString.eq_def]
  simp only [if_neg hb, if_pos]

theorem takeString_backslash (b : UInt8) : takeString (byte quote) (byte '\\' :: b :: r) =
    (takeString (byte quote) r).map fun v => (escaped b :: v.1, v.2) := by
  rw [takeString.eq_def]
  simp only [if_pos]

/-- A byte outside ASCII starts as many bytes as it says. -/
theorem takeString_high {lead : UInt8} (hquote : Ascii quote) (hlead : 0x80 ≤ lead) :
    takeString (byte quote) (lead :: r) =
      (takeString (byte quote) (r.drop (utf8Len lead - 1))).map fun v =>
        (lossy ((lead :: r).take (utf8Len lead)) ++ v.1, v.2) := by
  have hhigh {d : Char} (hd : Ascii d) : lead ≠ byte d := by
    rintro rfl
    exact absurd (byte_lt hd) (UInt8.not_lt.mpr hlead)
  rw [takeString.eq_def]
  simp only [if_neg (hhigh hquote), if_neg (hhigh (d := '\\') (by decide)),
    if_neg (UInt8.not_lt.mpr hlead)]

theorem takeString_wide (hquote : Ascii quote) (hc : ¬ Ascii c) :
    takeString (byte quote) (String.utf8EncodeChar c ++ r) =
      (takeString (byte quote) r).map fun v => (c :: v.1, v.2) := by
  rcases encode_wide hc with ⟨lead, tail, henc, hlead, hlen, -, -⟩
  have hhigh : 0x80 ≤ lead := UInt8.le_trans (by decide) hlead
  rw [henc, List.cons_append, takeString_high hquote hhigh, hlen, Nat.add_sub_cancel,
    List.drop_left, List.take_succ_cons, List.take_left, ← henc, lossy_encode]
  rfl

/-- Bytes that continue no character become a replacement character each. -/
theorem takeString_continues (hquote : Ascii quote) {tail : List UInt8}
    (h : ∀ b ∈ tail, Continues b) : takeString (byte quote) (tail ++ r) =
      (takeString (byte quote) r).map fun v =>
        (List.replicate tail.length (Char.ofNat 0xFFFD) ++ v.1, v.2) := by
  induction tail with
  | nil =>
      rw [List.nil_append]
      cases takeString (byte quote) r <;> rfl
  | cons b tail ih =>
      rcases List.forall_mem_cons.mp h with ⟨hb, htail⟩
      have hlen : utf8Len b = 1 := by
        have h₁ : ¬ b ≥ 0xC0 := UInt8.not_le.mpr hb.2
        have h₂ : ¬ b ≥ 0xE0 := fun h => h₁ (UInt8.le_trans (by decide) h)
        have h₃ : ¬ b ≥ 0xF0 := fun h => h₁ (UInt8.le_trans (by decide) h)
        rw [utf8Len, if_neg h₃, if_neg h₂, if_neg h₁]
      rw [List.cons_append, takeString_high hquote hb.1, hlen, Nat.sub_self, List.drop_zero,
        ih htail, List.take_succ_cons, List.take_zero, lossy_continues hb]
      cases takeString (byte quote) r <;> rfl

theorem escaped_byte (hc : Ascii c) (h : ∀ e : Named, c ≠ e.letter) : escaped (byte c) = c := by
  have hne (e : Named) : byte c ≠ byte e.letter :=
    fun hb => h e ((byte_inj hc (by cases e <;> decide)).mp hb)
  have h₁ : byte c ≠ byte 'n' := hne .newline
  have h₂ : byte c ≠ byte 't' := hne .tab
  have h₃ : byte c ≠ byte 'r' := hne .ret
  have h₄ : byte c ≠ byte '0' := hne .zero
  rw [escaped, if_neg h₁, if_neg h₂, if_neg h₃, if_neg h₄, ofNat_byte hc]

theorem escaped_letter (e : Named) : escaped (byte e.letter) = e.value := by
  cases e <;> decide

/-- What the lexer makes of one piece. -/
def output : Piece → List Char
  | .escaped c =>
      if Ascii c then [c]
      else match String.utf8EncodeChar c with
        | lead :: tail => Char.ofNat lead.toNat :: List.replicate tail.length (Char.ofNat 0xFFFD)
        | [] => []
  | p => [p.value]

theorem output_narrow {p : Piece} (h : p.Narrow) : output p = [p.value] := by
  cases p with
  | plain => rfl
  | escaped c => exact if_pos h
  | named => rfl

theorem output_wide (hc : ¬ Ascii c) {lead : UInt8} {tail : List UInt8}
    (henc : String.utf8EncodeChar c = lead :: tail) : output (.escaped c) =
      Char.ofNat lead.toNat :: List.replicate tail.length (Char.ofNat 0xFFFD) := by
  simp only [output, if_neg hc, henc]

theorem takeString_piece (hquote : quote = '\'' ∨ quote = '"') {p : Piece} (hp : p.Valid quote) :
    takeString (byte quote) (p.text.flatMap String.utf8EncodeChar ++ r) =
      (takeString (byte quote) r).map fun v => (output p ++ v.1, v.2) := by
  have hascii : Ascii quote := by rcases hquote with rfl | rfl <;> decide
  cases p with
  | plain c =>
      rw [Piece.text, List.flatMap_singleton]
      by_cases hc : Ascii c
      · rw [encode_ascii hc]
        exact takeString_ascii hascii hc hp.1 hp.2
      · exact takeString_wide hascii hc
  | escaped c =>
      rw [Piece.text, List.flatMap_cons, List.flatMap_singleton,
        encode_ascii (c := '\\') (by decide), List.append_assoc, List.singleton_append]
      by_cases hc : Ascii c
      · rw [encode_ascii hc, List.singleton_append, takeString_backslash, escaped_byte hc hp,
          output_narrow (p := .escaped c) hc]
        rfl
      · rcases encode_wide hc with ⟨lead, tail, henc, hlead, -, -, htail⟩
        have hnot {d : Char} (hd : Ascii d) : lead ≠ byte d := by
          rintro rfl
          exact absurd (byte_lt hd) (UInt8.not_lt.mpr (UInt8.le_trans (by decide) hlead))
        have hesc : escaped lead = Char.ofNat lead.toNat := by
          rw [escaped, if_neg (hnot (by decide)), if_neg (hnot (by decide)),
            if_neg (hnot (by decide)), if_neg (hnot (by decide))]
        rw [henc, List.cons_append, takeString_backslash,
          takeString_continues hascii htail, hesc, output_wide hc henc]
        cases takeString (byte quote) r <;> rfl
  | named e =>
      rw [Piece.text, List.flatMap_cons, List.flatMap_singleton,
        encode_ascii (c := '\\') (by decide), encode_ascii (c := e.letter) (by cases e <;> decide),
        List.append_assoc, List.singleton_append, List.singleton_append, takeString_backslash,
        escaped_letter]
      rfl

theorem takeString_body (hquote : quote = '\'' ∨ quote = '"') {pieces : List Piece}
    (h : ∀ p ∈ pieces, p.Valid quote) (rest : List UInt8) :
    takeString (byte quote) (body quote pieces rest) = .ok (pieces.flatMap output, rest) := by
  induction pieces with
  | nil => exact takeString_close hquote
  | cons p pieces ih =>
      rcases List.forall_mem_cons.mp h with ⟨hp, hpieces⟩
      have hbody : body quote (p :: pieces) rest =
          p.text.flatMap String.utf8EncodeChar ++ body quote pieces rest := by
        rw [body, body, List.flatMap_cons, List.flatMap_append, List.append_assoc]
      rw [hbody, takeString_piece hquote hp, ih hpieces]
      rfl

/-- An escaped character outside ASCII becomes several. -/
theorem length_output {p : Piece} :
    1 ≤ (output p).length ∧ (¬ p.Narrow → 2 ≤ (output p).length) := by
  cases p with
  | plain => exact ⟨le_rfl, fun h => absurd trivial h⟩
  | named => exact ⟨le_rfl, fun h => absurd trivial h⟩
  | escaped c =>
      by_cases hc : Ascii c
      · rw [output_narrow (p := .escaped c) hc]
        exact ⟨le_rfl, fun h => absurd hc h⟩
      · rcases encode_wide hc with ⟨lead, tail, henc, -, -, hne, -⟩
        have hpos := List.length_pos_iff.mpr hne
        rw [output_wide hc henc, List.length_cons, List.length_replicate]
        omega

theorem flatMap_output_eq_iff {pieces : List Piece} :
    pieces.flatMap output = pieces.map Piece.value ↔ ∀ p ∈ pieces, p.Narrow := by
  constructor
  · intro h
    have hle (ps : List Piece) : ps.length ≤ (ps.flatMap output).length := by
      induction ps with
      | nil => exact le_rfl
      | cons p ps ih =>
          have hp := (length_output (p := p)).1
          rw [List.flatMap_cons, List.length_append, List.length_cons]
          omega
    have hlen := congrArg List.length h
    rw [List.length_map] at hlen
    clear h
    induction pieces with
    | nil => exact nofun
    | cons p ps ih =>
        have hp := length_output (p := p)
        have hps := hle ps
        rw [List.flatMap_cons, List.length_append, List.length_cons] at hlen
        refine List.forall_mem_cons.mpr ⟨?_, ih (by omega)⟩
        by_contra hwide
        have := hp.2 hwide
        omega
  · intro h
    induction pieces with
    | nil => rfl
    | cons p ps ih =>
        rcases List.forall_mem_cons.mp h with ⟨hp, hps⟩
        rw [List.flatMap_cons, output_narrow hp, ih hps]
        rfl

end Lexing

section Literals

variable {F : Type} (pf : Platform F)

/-- At the opening quote the lexer takes one string token of this value, and goes on
behind the closing quote. -/
def LexesAs (quote : Char) (pieces : List Piece) (s : String) (rest : List UInt8) : Prop :=
  takeToken pf (byte quote) (body quote pieces rest) = .ok (⟨.str s, ""⟩, rest)

theorem takeToken_body {quote : Char} (hquote : quote = '\'' ∨ quote = '"')
    {pieces : List Piece} (hvalid : ∀ p ∈ pieces, p.Valid quote) (rest : List UInt8) :
    takeToken pf (byte quote) (body quote pieces rest) =
      .ok (⟨.str (String.ofList (pieces.flatMap output)), ""⟩, rest) := by
  have h₁ : byte quote ≠ byte '\x60' := by rcases hquote with rfl | rfl <;> decide
  have h₂ : byte quote = byte '\'' ∨ byte quote = byte '"' := by
    rcases hquote with rfl | rfl
    · exact .inl rfl
    · exact .inr rfl
  rw [takeToken, if_neg h₁, if_pos h₂, takeString_body hquote hvalid]
  rfl

/-- A literal is lexed as the string it writes exactly when no character outside ASCII
stands behind a backslash. -/
theorem lexesAs_iff {quote : Char} (hquote : quote = '\'' ∨ quote = '"') {pieces : List Piece}
    (hvalid : ∀ p ∈ pieces, p.Valid quote) {s : String}
    (hs : pieces.map Piece.value = s.toList) (rest : List UInt8) :
    LexesAs pf quote pieces s rest ↔ ∀ p ∈ pieces, p.Narrow := by
  rw [LexesAs, takeToken_body pf hquote hvalid, ← flatMap_output_eq_iff, hs]
  simp [← String.toList_inj]

/-- A platform that knows the letters of ASCII and no floats. -/
def asciiPlatform : Platform Unit where
  isAlphabetic := Char.isAlpha
  isAlphanumeric := Char.isAlphanum
  alphabetic_ascii := fun _ _ => rfl
  alphanumeric_ascii := fun _ _ => rfl
  alphanumeric := fun c h => by simp [Char.isAlphanum, h]
  parseF64 := fun _ => .error "invalid float literal"

theorem lexesAs_apostrophe :
    LexesAs asciiPlatform '\''
        [.plain 'i', .plain 't', .escaped '\'', .plain 's', .plain '한'] "it's한" [] ↔
      ∀ p ∈ [Piece.plain 'i', .plain 't', .escaped '\'', .plain 's', .plain '한'], p.Narrow :=
  lexesAs_iff asciiPlatform (.inl rfl) (by
    intro p hp
    simp only [List.mem_cons, List.not_mem_nil, or_false] at hp
    rcases hp with rfl | rfl | rfl | rfl | rfl
    · exact ⟨by decide, by decide⟩
    · exact ⟨by decide, by decide⟩
    · intro e
      cases e <;> decide
    · exact ⟨by decide, by decide⟩
    · exact ⟨by decide, by decide⟩) (by decide) []

/-- A backslash before a character outside ASCII breaks it up. -/
theorem not_lexesAs_escaped : ¬ LexesAs asciiPlatform '\'' [.escaped 'é'] "é" [] := by
  have hvalid : ∀ p ∈ [Piece.escaped 'é'], p.Valid '\'' := by
    intro p hp
    obtain rfl := List.mem_singleton.mp hp
    intro e
    cases e <;> decide
  rw [LexesAs, takeToken_body asciiPlatform (.inl rfl) hvalid]
  intro h
  have hlist : [Piece.escaped 'é'].flatMap output = "é".toList := by
    simpa [← String.toList_inj] using h
  exact absurd hlist (by decide)

end Literals

end OntologicalDb.StringTokens
