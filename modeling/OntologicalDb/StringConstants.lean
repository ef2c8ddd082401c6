import Mathlib

/-!
String constants as PostgreSQL's lexer reads them: with doubled quotes, with escapes
where these are on, and continued after a line break.
-/

namespace OntologicalDb.StringConstants

/-- The bytes of a text. -/
def encode (s : List Char) : List UInt8 := s.flatMap String.utf8EncodeChar

section Escapes

def hexDigit (c : Char) : Option Nat :=
  if '0' ≤ c ∧ c ≤ '9' then some (c.toNat - '0'.toNat)
  else if 'a' ≤ c ∧ c ≤ 'f' then some (c.toNat - 'a'.toNat + 10)
  else if 'A' ≤ c ∧ c ≤ 'F' then some (c.toNat - 'A'.toNat + 10)
  else none

def octDigit (c : Char) : Option Nat :=
  if '0' ≤ c ∧ c ≤ '7' then some (c.toNat - '0'.toNat) else none

/-- The number at the start of a text: at most so many digits, and what follows them. -/
def digits (digit : Char → Option Nat) (base : Nat) : Nat → Nat → List Char → Nat × List Char
  | 0, acc, r => (acc, r)
  | _ + 1, acc, [] => (acc, [])
  | n + 1, acc, c :: r =>
      match digit c with
      | some d => digits digit base n (acc * base + d) r
      | none => (acc, c :: r)

/-- Exactly so many hexadecimal digits. -/
def codePoint (n : Nat) (r : List Char) : Option (Nat × List Char) :=
  let v := digits hexDigit 16 n 0 r
  if v.2.length + n = r.length then some v else none

def unescapeSingle (c : Char) : Char :=
  if c = 'b' then Char.ofNat 8
  else if c = 'f' then Char.ofNat 12
  else if c = 'n' then '\n'
  else if c = 'r' then '\r'
  else if c = 't' then '\t'
  else if c = 'v' then Char.ofNat 11
  else c

/-- A character by its code point; the first half of a surrogate pair asks for the second. -/
def unicode (v : Nat) (rest : List Char) : Option (List UInt8 × List Char) :=
  if 0xD800 ≤ v ∧ v < 0xDC00 then
    match rest with
    | '\\' :: k :: rest =>
        if k = 'u' ∨ k = 'U' then
          (codePoint (if k = 'u' then 4 else 8) rest).bind fun lo =>
            if 0xDC00 ≤ lo.1 ∧ lo.1 < 0xE000 then
              some (String.utf8EncodeChar
                (Char.ofNat (0x10000 + (v - 0xD800) * 0x400 + (lo.1 - 0xDC00))), lo.2)
            else none
        else none
    | _ => none
  else if v.isValidChar ∧ v ≠ 0 then some (String.utf8EncodeChar (Char.ofNat v), rest)
  else none

/-- What follows a backslash: the bytes it stands for, and the text after it. -/
def escape : List Char → Option (List UInt8 × List Char)
  | [] => none
  | c :: r =>
      if c = 'u' then (codePoint 4 r).bind fun v => unicode v.1 v.2
      else if c = 'U' then (codePoint 8 r).bind fun v => unicode v.1 v.2
      else if c = 'x' ∧ (r.head?.bind hexDigit).isSome then
        let v := digits hexDigit 16 2 0 r
        some ([v.1.toUInt8], v.2)
      else if (octDigit c).isSome then
        let v := digits octDigit 8 3 0 (c :: r)
        some ([v.1.toUInt8], v.2)
      else some (String.utf8EncodeChar (unescapeSingle c), r)

end Escapes

section Continuation

def isSpace (c : Char) : Bool :=
  c = ' ' || c = '\t' || c = '\n' || c = '\r' || c = Char.ofNat 11 || c = Char.ofNat 12

/-- White space and comments up to a quote. -/
def reopened : Bool → List Char → Option (List Char)
  | _, [] => none
  | true, c :: r => reopened (c ≠ '\n' && c ≠ '\r') r
  | false, c :: r =>
      if c = '\'' then some r
      else if isSpace c then reopened false r
      else if c = '-' ∧ r.head? = some '-' then reopened true r
      else none

/-- A constant goes on behind a line break: the text after the quote that reopens it. -/
def continued : List Char → Option (List Char)
  | [] => none
  | c :: r =>
      if c = '\n' ∨ c = '\r' then reopened false r
      else if isSpace c then continued r
      else none

end Continuation

section Weights

/-- A quote weighs half as much as what it may stand for. -/
def weight (t : List Char) : Nat :=
  (t.map fun c => if c = '\'' then 1 else 2 * c.utf8Size).sum

@[simp] theorem weight_nil : weight [] = 0 := rfl

theorem weight_cons (c : Char) (t : List Char) :
    weight (c :: t) = (if c = '\'' then 1 else 2 * c.utf8Size) + weight t := by
  rw [weight, List.map_cons, List.sum_cons]
  rfl

theorem weight_append (t u : List Char) : weight (t ++ u) = weight t + weight u := by
  rw [weight, List.map_append, List.sum_append]
  rfl

theorem weight_cons_of_ne {c : Char} (h : c ≠ '\'') (t : List Char) :
    weight (c :: t) = 2 * c.utf8Size + weight t := by
  rw [weight_cons, if_neg h]

theorem two_add_weight_le {c : Char} (h : c ≠ '\'') (t : List Char) :
    2 + weight t ≤ weight (c :: t) := by
  have hpos := c.utf8Size_pos
  rw [weight_cons_of_ne h]
  omega

theorem weight_le_cons (c : Char) (t : List Char) : weight t ≤ weight (c :: t) := by
  rw [weight_cons]
  exact Nat.le_add_left _ _

variable {digit : Char → Option Nat} {base : Nat}

/-- What is left of a text after a number in front of it. -/
theorem digits_weight (hquote : digit '\'' = none) (n acc : Nat) (r : List Char) :
    (digits digit base n acc r).2.length ≤ r.length ∧
      weight (digits digit base n acc r).2 + 2 * (r.length - (digits digit base n acc r).2.length) ≤
        weight r := by
  induction n generalizing acc r with
  | zero => simp [digits]
  | succ n ih =>
      cases r with
      | nil => simp [digits]
      | cons c r =>
          rw [digits]
          cases hd : digit c with
          | none => simp
          | some d =>
              have hc : c ≠ '\'' := by
                rintro rfl
                rw [hquote] at hd
                cases hd
              have hw := two_add_weight_le hc r
              rcases ih (acc * base + d) r with ⟨hlen, hle⟩
              simp only [List.length_cons]
              omega

theorem codePoint_weight {n v : Nat} {r rest : List Char} (h : codePoint n r = some (v, rest)) :
    rest.length + n = r.length ∧ weight rest + 2 * n ≤ weight r := by
  rcases @digits_weight hexDigit 16 (by decide) n 0 r with ⟨-, hle⟩
  rw [codePoint] at h
  split at h
  next hlen =>
    rw [Option.some.inj h] at hlen hle
    dsimp only at hlen hle
    exact ⟨hlen, by omega⟩
  next => cases h

theorem length_encodeChar (c : Char) : (String.utf8EncodeChar c).length = c.utf8Size :=
  String.length_utf8EncodeChar c

theorem unicode_weight {v : Nat} {r rest : List Char} {bs : List UInt8}
    (h : unicode v r = some (bs, rest)) :
    bs.length ≤ 4 ∧ rest.length ≤ r.length ∧ weight rest ≤ weight r := by
  unfold unicode at h
  have hfour (c : Char) : (String.utf8EncodeChar c).length ≤ 4 :=
    length_encodeChar c ▸ c.utf8Size_le_four
  split at h
  · split at h
    next k r =>
      split at h
      · rcases Option.bind_eq_some_iff.mp h with ⟨lo, hlo, h⟩
        split at h
        · obtain ⟨rfl, rfl⟩ := Prod.mk.inj (Option.some.inj h)
          rcases codePoint_weight hlo with ⟨hlen, hw⟩
          have h₁ := weight_le_cons '\\' (k :: r)
          have h₂ := weight_le_cons k r
          refine ⟨hfour _, ?_, by omega⟩
          simp only [List.length_cons]
          omega
        · cases h
      · cases h
    next => cases h
  · split at h
    · obtain ⟨rfl, rfl⟩ := Prod.mk.inj (Option.some.inj h)
      exact ⟨hfour _, le_rfl, le_rfl⟩
    · cases h

theorem utf8Size_unescapeSingle (c : Char) : (unescapeSingle c).utf8Size ≤ c.utf8Size := by
  have hpos := c.utf8Size_pos
  unfold unescapeSingle
  repeat' split
  all_goals first | exact le_rfl | exact hpos

/-- An escape spends more text than it yields. -/
theorem escape_weight {r rest : List Char} {bs : List UInt8} (h : escape r = some (bs, rest)) :
    rest.length < r.length ∧ 2 * bs.length + weight rest ≤ weight r + 1 := by
  cases r with
  | nil => cases h
  | cons c r =>
      rw [escape] at h
      split at h
      next hc =>
        rcases Option.bind_eq_some_iff.mp h with ⟨⟨v, r'⟩, hv, h⟩
        rcases codePoint_weight hv with ⟨hlen, hw⟩
        rcases unicode_weight h with ⟨hbs, hlen', hw'⟩
        have hcons := two_add_weight_le (c := c) (by rintro rfl; exact absurd hc (by decide)) r
        simp only [List.length_cons] at *
        omega
      next =>
      split at h
      next hc =>
        rcases Option.bind_eq_some_iff.mp h with ⟨⟨v, r'⟩, hv, h⟩
        rcases codePoint_weight hv with ⟨hlen, hw⟩
        rcases unicode_weight h with ⟨hbs, hlen', hw'⟩
        have hcons := two_add_weight_le (c := c) (by rintro rfl; exact absurd hc (by decide)) r
        simp only [List.length_cons] at *
        omega
      next =>
      split at h
      next hc =>
        obtain ⟨rfl, rfl⟩ := Prod.mk.inj (Option.some.inj h)
        rcases @digits_weight hexDigit 16 (by decide) 2 0 r with ⟨hlen, hw⟩
        have hcons := two_add_weight_le (c := c) (by rintro rfl; exact absurd hc.1 (by decide)) r
        simp only [List.length_cons, List.length_nil] at *
        omega
      next =>
      split at h
      next hc =>
        obtain ⟨rfl, rfl⟩ := Prod.mk.inj (Option.some.inj h)
        have hq : c ≠ '\'' := by
          rintro rfl
          exact absurd hc (by decide)
        rcases Option.isSome_iff_exists.mp hc with ⟨d, hd⟩
        rw [digits, hd]
        rcases @digits_weight octDigit 8 (by decide) 2 (0 * 8 + d) r with ⟨hlen, hw⟩
        have hcons := two_add_weight_le hq r
        simp only [List.length_cons, List.length_nil] at *
        omega
      next =>
        obtain ⟨rfl, rfl⟩ := Prod.mk.inj (Option.some.inj h)
        have hsize := utf8Size_unescapeSingle c
        rw [length_encodeChar, weight_cons]
        refine ⟨Nat.lt_succ_self _, ?_⟩
        split
        next hc =>
          subst hc
          have : (unescapeSingle '\'').utf8Size = 1 := by decide
          omega
        next => omega

theorem reopened_weight {b : Bool} {r rest : List Char} (h : reopened b r = some rest) :
    rest.length < r.length ∧ weight rest ≤ weight r := by
  induction r generalizing b with
  | nil => cases b <;> cases h
  | cons c r ih =>
      have hw := weight_le_cons c r
      cases b with
      | true =>
          rcases ih h with ⟨hlen, hle⟩
          exact ⟨hlen.trans (Nat.lt_succ_self _), hle.trans hw⟩
      | false =>
          rw [reopened] at h
          split at h
          · obtain rfl := Option.some.inj h
            exact ⟨Nat.lt_succ_self _, hw⟩
          · split at h
            · rcases ih h with ⟨hlen, hle⟩
              exact ⟨hlen.trans (Nat.lt_succ_self _), hle.trans hw⟩
            · split at h
              · rcases ih h with ⟨hlen, hle⟩
                exact ⟨hlen.trans (Nat.lt_succ_self _), hle.trans hw⟩
              · cases h

/-- The break before a continuation is lost. -/
theorem continued_weight {r rest : List Char} (h : continued r = some rest) :
    rest.length < r.length ∧ weight rest + 2 ≤ weight r := by
  induction r with
  | nil => cases h
  | cons c r ih =>
      have hw := weight_le_cons c r
      rw [continued] at h
      split at h
      next hc =>
        have hq : c ≠ '\'' := by
          rintro rfl
          exact absurd hc (by decide)
        have htwo := two_add_weight_le hq r
        rcases reopened_weight h with ⟨hlen, hle⟩
        exact ⟨hlen.trans (Nat.lt_succ_self _), by omega⟩
      next =>
        split at h
        · rcases ih h with ⟨hlen, hle⟩
          exact ⟨hlen.trans (Nat.lt_succ_self _), hle.trans hw⟩
        · cases h

end Weights

section Reading

/-- More bytes in front of what is read. -/
def prepend (bs : List UInt8) (v : Option (List UInt8 × List Char)) :
    Option (List UInt8 × List Char) :=
  v.map fun v => (bs ++ v.1, v.2)

/-- The constant behind an opening quote: its bytes, and the text after it. -/
def quoted (escapes : Bool) : List Char → Option (List UInt8 × List Char)
  | [] => none
  | c :: r =>
      if c = '\'' then
        if r.head? = some '\'' then prepend (String.utf8EncodeChar c) (quoted escapes r.tail)
        else
          match h : continued r with
          | some r' => quoted escapes r'
          | none => some ([], r)
      else if escapes = true ∧ c = '\\' then
        match h : escape r with
        | some v => prepend v.1 (quoted escapes v.2)
        | none => none
      else prepend (String.utf8EncodeChar c) (quoted escapes r)
termination_by t => t.length
decreasing_by
  · simp only [List.length_tail, List.length_cons]
    omega
  · exact (continued_weight h).1.trans (Nat.lt_succ_self _)
  · exact (escape_weight h).1.trans (Nat.lt_succ_self _)
  · exact Nat.lt_succ_self _

theorem prepend_eq_some {bs v : List UInt8} {rest : List Char}
    {w : Option (List UInt8 × List Char)} (h : prepend bs w = some (v, rest)) :
    ∃ u, w = some (u, rest) ∧ v = bs ++ u := by
  rcases Option.map_eq_some_iff.mp h with ⟨⟨u, r⟩, hu, heq⟩
  obtain ⟨rfl, rfl⟩ := Prod.mk.inj heq
  exact ⟨u, hu, rfl⟩

theorem mem_of_mem_cons {a c : Char} {r : List Char} (h : a ∈ c :: r) (hne : c ≠ a) : a ∈ r :=
  (List.mem_cons.mp h).resolve_left hne.symm

theorem cons_tail_of_head? {c : Char} {r : List Char} (h : r.head? = some c) : r = c :: r.tail := by
  cases r with
  | nil => cases h
  | cons d r => rw [Option.some.inj h, List.tail_cons]

/-- What is read weighs less than what it is read from. -/
theorem quoted_weight {escapes : Bool} {t rest : List Char} {v : List UInt8}
    (h : quoted escapes t = some (v, rest)) : 2 * v.length + weight rest + 1 ≤ weight t := by
  fun_induction quoted escapes t generalizing v with
  | case1 => cases h
  | case2 r hhead ih =>
      rcases prepend_eq_some h with ⟨u, hu, rfl⟩
      have hle := ih hu
      have hq : (String.utf8EncodeChar '\'').length = 1 := by decide
      rw [cons_tail_of_head? hhead, weight_cons, weight_cons, if_pos rfl, List.length_append]
      omega
  | case3 r hhead r' hr' ih =>
      have hle := ih h
      have hw := (continued_weight hr').2
      have hcons := weight_le_cons '\'' r
      omega
  | case4 r hhead hr' =>
      obtain ⟨rfl, rfl⟩ := Prod.mk.inj (Option.some.inj h)
      rw [weight_cons, if_pos rfl]
      simp only [List.length_nil]
      omega
  | case5 c r hc hesc w hw ih =>
      rcases w with ⟨bs, r'⟩
      rcases prepend_eq_some h with ⟨u, hu, rfl⟩
      have hle : 2 * u.length + weight rest + 1 ≤ weight r' := ih hu
      have hescape := (escape_weight hw).2
      have hcons := two_add_weight_le hc r
      simp only [List.length_append]
      omega
  | case6 => cases h
  | case7 c r hc hesc ih =>
      rcases prepend_eq_some h with ⟨u, hu, rfl⟩
      have hle := ih hu
      rw [weight_cons_of_ne hc, List.length_append, length_encodeChar]
      omega

/-- With escapes on, a backslash costs more than it yields. -/
theorem quoted_lossy {t : List Char} {v : List UInt8} (h : quoted true t = some (v, []))
    (hmem : '\\' ∈ t) : 2 * v.length + 2 ≤ weight t := by
  generalize hescapes : true = escapes at h
  fun_induction quoted escapes t generalizing v with
  | case1 => cases h
  | case2 r hhead ih =>
      rcases prepend_eq_some h with ⟨u, hu, rfl⟩
      have hr := cons_tail_of_head? hhead
      rw [hr] at hmem
      have hle := ih (mem_of_mem_cons (mem_of_mem_cons hmem (by decide)) (by decide)) hu
      have hq : (String.utf8EncodeChar '\'').length = 1 := by decide
      rw [hr, weight_cons, weight_cons, if_pos rfl, List.length_append]
      omega
  | case3 r hhead r' hr' ih =>
      have hle := quoted_weight h
      have hw := (continued_weight hr').2
      have hcons := weight_le_cons '\'' r
      omega
  | case4 r hhead hr' =>
      obtain ⟨rfl, rfl⟩ := Prod.mk.inj (Option.some.inj h)
      exact absurd (mem_of_mem_cons hmem (by decide)) List.not_mem_nil
  | case5 c r hc hesc w hw ih =>
      rcases w with ⟨bs, r'⟩
      rcases prepend_eq_some h with ⟨u, hu, rfl⟩
      have hle : 2 * u.length + weight [] + 1 ≤ weight r' := quoted_weight hu
      have hescape := (escape_weight hw).2
      have hcons := two_add_weight_le hc r
      simp only [List.length_append]
      omega
  | case6 => cases h
  | case7 c r hc hesc ih =>
      rcases prepend_eq_some h with ⟨u, hu, rfl⟩
      have hle := ih (mem_of_mem_cons hmem fun hc => hesc ⟨hescapes.symm, hc⟩) hu
      rw [weight_cons_of_ne hc, List.length_append, length_encodeChar]
      omega

/-- Text that neither goes on with a quote nor continues a constant. -/
def Apart (rest : List Char) : Prop := rest.head? ≠ some '\'' ∧ continued rest = none

theorem quoted_close {escapes : Bool} {rest : List Char} (h : Apart rest) :
    quoted escapes ('\'' :: rest) = some ([], rest) := by
  rw [quoted, if_pos rfl, if_neg h.1]
  split
  next r' hr' => simp [h.2] at hr'
  next => rfl

theorem quoted_double {escapes : Bool} (r : List Char) :
    quoted escapes ('\'' :: '\'' :: r) =
      prepend (String.utf8EncodeChar '\'') (quoted escapes r) := by
  rw [quoted, if_pos rfl, if_pos List.head?_cons, List.tail_cons]

theorem quoted_plain {escapes : Bool} {c : Char} (hc : c ≠ '\'')
    (hesc : ¬ (escapes = true ∧ c = '\\')) (r : List Char) :
    quoted escapes (c :: r) = prepend (String.utf8EncodeChar c) (quoted escapes r) := by
  rw [quoted, if_neg hc, if_neg hesc]

theorem quoted_backslash (r : List Char) :
    quoted true ('\\' :: '\\' :: r) = prepend (String.utf8EncodeChar '\\') (quoted true r) := by
  rw [quoted, if_neg (by decide), if_pos ⟨rfl, rfl⟩]
  split
  next v hv =>
    have hescape : escape ('\\' :: r) = some (String.utf8EncodeChar '\\', r) := rfl
    rw [hescape] at hv
    rw [← Option.some.inj hv]
  next hv => cases hv

/-- A character of a constant, quotes doubled. -/
def double (c : Char) : List Char := if c = '\'' then [c, c] else [c]

/-- A character of an escape constant. -/
def doubleBoth (c : Char) : List Char := if c = '\'' ∨ c = '\\' then [c, c] else [c]

theorem quoted_flatMap {escapes : Bool} {write : Char → List Char} {s rest : List Char}
    (hwrite : ∀ c ∈ s, ∀ r, quoted escapes (write c ++ r) =
      prepend (String.utf8EncodeChar c) (quoted escapes r)) (h : Apart rest) :
    quoted escapes (s.flatMap write ++ '\'' :: rest) = some (encode s, rest) := by
  induction s with
  | nil => exact quoted_close h
  | cons c s ih =>
      rcases List.forall_mem_cons.mp hwrite with ⟨hc, hs⟩
      rw [List.flatMap_cons, List.append_assoc, hc, ih hs]
      rfl

/-- Doubled quotes read back, unless a backslash escapes. -/
theorem quoted_flatMap_double {escapes : Bool} {s rest : List Char}
    (hs : escapes = true → '\\' ∉ s) (h : Apart rest) :
    quoted escapes (s.flatMap double ++ '\'' :: rest) = some (encode s, rest) := by
  refine quoted_flatMap (fun c hc r => ?_) h
  unfold double
  split
  next hq =>
    subst hq
    exact quoted_double r
  next hq =>
    refine quoted_plain hq ?_ r
    rintro ⟨hesc, rfl⟩
    exact hs hesc hc

theorem quoted_flatMap_doubleBoth {s rest : List Char} (h : Apart rest) :
    quoted true (s.flatMap doubleBoth ++ '\'' :: rest) = some (encode s, rest) := by
  refine quoted_flatMap (fun c hc r => ?_) h
  unfold doubleBoth
  split
  next hq =>
    rcases hq with rfl | rfl
    · exact quoted_double r
    · exact quoted_backslash r
  next hq => exact quoted_plain (fun h => hq (.inl h)) (fun h => hq (.inr h.2)) r

theorem weight_flatMap_double (s : List Char) :
    weight (s.flatMap double) = 2 * (encode s).length := by
  induction s with
  | nil => rfl
  | cons c s ih =>
      rw [List.flatMap_cons, weight_append, ih, encode, encode, List.flatMap_cons,
        List.length_append, length_encodeChar]
      unfold double
      split
      next hq =>
        subst hq
        have : ('\'').utf8Size = 1 := by decide
        rw [weight_cons, weight_cons, if_pos rfl, weight_nil]
        omega
      next hq =>
        rw [weight_cons_of_ne hq, weight_nil]
        omega

theorem mem_flatMap_double {s : List Char} (h : '\\' ∈ s) : '\\' ∈ s.flatMap double :=
  List.mem_flatMap.mpr ⟨'\\', h, List.mem_singleton.mpr rfl⟩

/-- With escapes on, a text with a backslash is not what its doubled form reads as. -/
theorem quoted_double_ne {s : List Char} (h : '\\' ∈ s) :
    quoted true (s.flatMap double ++ ['\'']) ≠ some (encode s, []) := by
  intro hread
  have hle := quoted_lossy hread (List.mem_append_left _ (mem_flatMap_double h))
  rw [weight_append, weight_flatMap_double, weight_cons, if_pos rfl, weight_nil] at hle
  omega

/-- A constant at the start of a statement: plain, or with escapes. -/
def constant (conforming : Bool) (t : List Char) : Option (List UInt8 × List Char) :=
  match t.dropWhile isSpace with
  | '\'' :: r => quoted (!conforming) r
  | 'E' :: '\'' :: r | 'e' :: '\'' :: r => quoted true r
  | _ => none

end Reading

end OntologicalDb.StringConstants
