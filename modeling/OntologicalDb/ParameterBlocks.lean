import Mathlib
import OntologicalDb.ExceptRules
import OntologicalDb.StatementRedaction

/-!
Parameter blocks: how a statement is cut into tokens, how a block becomes JSON, and the ways a map
of settings may be written.
-/

namespace OntologicalDb.ParameterBlocks

open OntologicalDb.BoltSession (is_whitespace)
open OntologicalDb.StatementRedaction (Letters isWord)

/-- The Unicode tables, which agree with ASCII. -/
structure Alphabet extends Letters where
  is_alphabetic : Char → Bool
  alphabetic_ascii : ∀ c : Char, c.toNat < 128 → is_alphabetic c = c.isAlpha

section Tokens

inductive Tok
  | word (w : List Char)
  | str (s : List Char)
  | sym (c : Char)
  | json (block : List Char)

variable (u : Alphabet)

/-- A single-quoted string from behind its quote: its value and what is behind it. -/
def quoted : List Char → Option (List Char × List Char)
  | [] => none
  | [c] => if c = '\'' then some ([], []) else none
  | c :: d :: r =>
      if c = '\'' ∧ d = '\'' then (quoted r).map fun v => ('\'' :: v.1, v.2)
      else if c = '\'' then some ([], d :: r)
      else (quoted (d :: r)).map fun v => (c :: v.1, v.2)

/-- What is behind a block: the number of further blocks that are open, the quote of the string that
is open, and the text. -/
def blockRest : Nat → Option Char → List Char → Option (List Char)
  | _, _, [] => none
  | _, some _, [_] => none
  | depth, some q, c :: d :: r =>
      if c = '\\' then blockRest depth (some q) r
      else if c = q then blockRest depth none (d :: r)
      else blockRest depth (some q) (d :: r)
  | depth, none, c :: r =>
      if c = '"' ∨ c = '\'' then blockRest depth (some c) r
      else if c = '{' then blockRest (depth + 1) none r
      else if c = '}' then
        if depth = 0 then some r else blockRest (depth - 1) none r
      else blockRest depth none r

/-- One round of the tokeniser, at a character: the token, where there is one, and the rest. -/
def token (c : Char) (r : List Char) : Except String (Option Tok × List Char) :=
  if is_whitespace c then .ok (none, r)
  else if c = '-' ∧ r.head? = some '-' then .ok (none, r.dropWhile fun c => c ≠ '\n')
  else if c = '\'' then
    match quoted r with
    | none => .error "unterminated string"
    | some v => .ok (some (.str v.1), v.2)
  else if c = '"' then
    if '"' ∈ r then
      .ok (some (.word (r.takeWhile fun c => c ≠ '"')), (r.dropWhile fun c => c ≠ '"').tail)
    else .error "unterminated quoted identifier"
  else if c = '{' then
    match blockRest 0 none r with
    | none => .error "unterminated \x7b … \x7d block"
    | some rest => .ok (some (.json ((c :: r).take ((c :: r).length - rest.length))), rest)
  else if isWord u.toLetters c then
    .ok (some (.word (c :: r.takeWhile (isWord u.toLetters))), r.dropWhile (isWord u.toLetters))
  else .ok (some (.sym c), r)

theorem length_quoted {r : List Char} {v : List Char × List Char} (h : quoted r = some v) :
    v.2.length ≤ r.length := by
  induction hn : r.length using Nat.strongRecOn generalizing r v with
  | ind n ih =>
      have hcall {r' : List Char} {w : List Char × List Char} (hr : r'.length < n)
          (hx : quoted r' = some w) : w.2.length ≤ n := (ih r'.length hr hx rfl).trans hr.le
      subst hn
      unfold quoted at h
      split at h
      · cases h
      · split at h
        · rcases Option.some.inj h with rfl
          exact Nat.zero_le _
        · cases h
      · split at h
        · rcases Option.map_eq_some_iff.mp h with ⟨w, hw, rfl⟩
          have hle := hcall (by simp) hw
          exact hle
        split at h
        · rcases Option.some.inj h with rfl
          exact Nat.le_succ _
        · rcases Option.map_eq_some_iff.mp h with ⟨w, hw, rfl⟩
          have hle := hcall (by simp) hw
          exact hle

theorem length_blockRest {depth : Nat} {q : Option Char} {r rest : List Char}
    (h : blockRest depth q r = some rest) : rest.length ≤ r.length := by
  induction hn : r.length using Nat.strongRecOn generalizing depth q r with
  | ind n ih =>
      have hcall {depth' : Nat} {q' : Option Char} {r' : List Char} (hr : r'.length < n)
          (hx : blockRest depth' q' r' = some rest) : rest.length ≤ n :=
        (ih r'.length hr hx rfl).trans hr.le
      subst hn
      unfold blockRest at h
      split at h
      · cases h
      · cases h
      · split at h
        · exact hcall (by simp) h
        · split at h
          · exact hcall (by simp) h
          · exact hcall (by simp) h
      · split at h
        · exact hcall (by simp) h
        split at h
        · exact hcall (by simp) h
        split at h
        · split at h
          · rcases Option.some.inj h with rfl
            simp
          · exact hcall (by simp) h
        · exact hcall (by simp) h

theorem length_token {c : Char} {r : List Char} {v : Option Tok × List Char}
    (h : token u c r = .ok v) : v.2.length ≤ r.length := by
  unfold token at h
  split at h
  · rcases Except.ok.inj h with rfl
    exact le_rfl
  split at h
  · rcases Except.ok.inj h with rfl
    exact (List.dropWhile_suffix _).length_le
  split at h
  · split at h
    · cases h
    · next hq =>
        rcases Except.ok.inj h with rfl
        exact length_quoted hq
  split at h
  · split at h
    · rcases Except.ok.inj h with rfl
      dsimp only
      rw [List.length_tail]
      exact (Nat.sub_le _ _).trans (List.dropWhile_suffix _).length_le
    · cases h
  split at h
  · split at h
    · cases h
    · next hb =>
        rcases Except.ok.inj h with rfl
        exact length_blockRest hb
  split at h
  · rcases Except.ok.inj h with rfl
    exact (List.dropWhile_suffix _).length_le
  · rcases Except.ok.inj h with rfl
    exact le_rfl

def tokenize : List Char → Except String (List Tok)
  | [] => .ok []
  | c :: r =>
      match _h : token u c r with
      | .error e => .error e
      | .ok v => (tokenize v.2).map fun ts => v.1.toList ++ ts
termination_by s => s.length
decreasing_by
  have hle := length_token u _h
  rw [List.length_cons]
  omega

end Tokens

section Blocks

inductive Setting
  | null
  | bool (b : Bool)
  | number (text : List Char)
  | str (s : List Char)
  | map (m : List (List Char × Setting))

/-- The printing and reading of JSON that a block is resolved with. -/
structure Serde where
  to_string : Setting → List Char
  is_map : List Char → Bool

variable (u : Alphabet) (J : Serde) (params : List (List Char × Setting))

/-- A JSON string from behind its quote up to and with the closing one, and what is behind it. -/
def jsonRest : List Char → List Char × List Char
  | [] => ([], [])
  | [c] => ([c], [])
  | c :: d :: r =>
      if c = '"' then ([c], d :: r)
      else if c = '\\' then (c :: d :: (jsonRest r).1, (jsonRest r).2)
      else (c :: (jsonRest (d :: r)).1, (jsonRest (d :: r)).2)

/-- One round of resolve_block, at a character: what is written and the rest. -/
def piece (c : Char) (r : List Char) : Except String (List Char × List Char) :=
  if c = '"' then .ok (c :: (jsonRest r).1, (jsonRest r).2)
  else if c = '\'' then
    match quoted r with
    | none => .error "unterminated string in the parameter block"
    | some v => .ok (J.to_string (.str v.1), v.2)
  else if c = '$' then
    match params.lookup (r.takeWhile (isWord u.toLetters)) with
    | none => .error ("parameter $" ++ String.ofList (r.takeWhile (isWord u.toLetters)) ++
        " was not supplied")
    | some v => .ok (J.to_string v, r.dropWhile (isWord u.toLetters))
  else if u.is_alphabetic c || c = '_' then
    if (r.dropWhile (isWord u.toLetters)).find? (fun x => !is_whitespace x) = some ':' then
      .ok (J.to_string (.str (c :: r.takeWhile (isWord u.toLetters))),
        r.dropWhile (isWord u.toLetters))
    else .ok (c :: r.takeWhile (isWord u.toLetters), r.dropWhile (isWord u.toLetters))
  else .ok ([c], r)

theorem length_jsonRest (r : List Char) : (jsonRest r).2.length ≤ r.length := by
  induction hn : r.length using Nat.strongRecOn generalizing r with
  | ind n ih =>
      have hcall (r' : List Char) (hr : r'.length < n) : (jsonRest r').2.length ≤ n :=
        (ih r'.length hr r' rfl).trans hr.le
      subst hn
      unfold jsonRest
      split
      · exact le_rfl
      · exact Nat.zero_le _
      · split
        · exact Nat.le_succ _
        split
        · exact hcall _ (by simp)
        · exact hcall _ (by simp)

theorem length_piece {c : Char} {r : List Char} {v : List Char × List Char}
    (h : piece u J params c r = .ok v) : v.2.length ≤ r.length := by
  have hdrop : (r.dropWhile (isWord u.toLetters)).length ≤ r.length :=
    (List.dropWhile_suffix _).length_le
  unfold piece at h
  split at h
  · rcases Except.ok.inj h with rfl
    exact length_jsonRest r
  split at h
  · split at h
    · cases h
    · next hq =>
        rcases Except.ok.inj h with rfl
        have hle := length_quoted hq
        exact hle
  split at h
  · split at h
    · cases h
    · rcases Except.ok.inj h with rfl
      exact hdrop
  split at h
  · split at h
    · rcases Except.ok.inj h with rfl
      exact hdrop
    · rcases Except.ok.inj h with rfl
      exact hdrop
  · rcases Except.ok.inj h with rfl
    exact le_rfl

def resolve : List Char → Except String (List Char)
  | [] => .ok []
  | c :: r =>
      match _h : piece u J params c r with
      | .error e => .error e
      | .ok v => (resolve v.2).map fun out => v.1 ++ out
termination_by s => s.length
decreasing_by
  have hle := length_piece u J params _h
  rw [List.length_cons]
  omega

/-- The block as strict JSON. -/
def resolve_block (raw : List Char) : Except String (List Char) := do
  let out ← resolve u J params raw
  if J.is_map out then return out
  else throw "the parameter block is not a map of settings"

end Blocks

section Writing

def hexValue (d : Char) : Nat :=
  if d.isDigit then d.toNat - 48 else if d.isUpper then d.toNat - 55 else d.toNat - 87

/-- The characters of a JSON string between its quotes. -/
inductive StringText : List Char → List Char → Prop
  | nil : StringText [] []
  | plain {c : Char} {s t : List Char} : c ≠ '"' → c ≠ '\\' → 32 ≤ c.toNat → StringText s t →
      StringText (c :: s) (c :: t)
  | escape {c e : Char} {s t : List Char} :
      (e, c) ∈ [('"', '"'), ('\\', '\\'), ('/', '/'), ('b', '\x08'), ('f', '\x0c'), ('n', '\n'),
        ('r', '\r'), ('t', '\t')] →
      StringText s t → StringText (c :: s) ('\\' :: e :: t)
  | unicode {c : Char} {digits s t : List Char} : digits.length = 4 →
      (∀ d ∈ digits, d ∈ "0123456789abcdefABCDEF".toList) →
      (Nat.ofDigits 16 (digits.map hexValue).reverse = c.toNat) → StringText s t →
      StringText (c :: s) ('\\' :: 'u' :: (digits ++ t))
  | surrogates {c : Char} {high low s t : List Char} : high.length = 4 → low.length = 4 →
      (∀ d ∈ high ++ low, d ∈ "0123456789abcdefABCDEF".toList) →
      0x10000 ≤ c.toNat →
      Nat.ofDigits 16 (high.map hexValue).reverse = 0xD800 + (c.toNat - 0x10000) / 0x400 →
      Nat.ofDigits 16 (low.map hexValue).reverse = 0xDC00 + (c.toNat - 0x10000) % 0x400 →
      StringText s t →
      StringText (c :: s) ('\\' :: 'u' :: (high ++ ('\\' :: 'u' :: (low ++ t))))

/-- White space of JSON. -/
def Blank (w : List Char) : Prop := ∀ c ∈ w, c ∈ [' ', '\t', '\n', '\r']

def Digits (t : List Char) : Prop := t ≠ [] ∧ ∀ c ∈ t, c.isDigit = true

/-- A number of JSON. -/
def IsNumber (t : List Char) : Prop :=
  ∃ sign int frac exp, t = sign ++ int ++ frac ++ exp ∧ (sign = [] ∨ sign = ['-']) ∧
    (Digits int ∧ (int.head? = some '0' → int = ['0'])) ∧
    (frac = [] ∨ ∃ d, frac = '.' :: d ∧ Digits d) ∧
    (exp = [] ∨ ∃ e sign d, exp = e :: (sign ++ d) ∧ (e = 'e' ∨ e = 'E') ∧
      (sign = [] ∨ sign = ['-'] ∨ sign = ['+']) ∧ Digits d)

/-- A value or the entries of a map. -/
abbrev Node : Type := Setting ⊕ List (List Char × Setting)

/-- A way of writing maps: how the values that are no maps and how the keys are written. -/
structure Style where
  leaf : Setting → List Char → Prop
  key : List Char → List Char → Prop

/-- A text of a value, or of the entries between the braces of a map. -/
inductive Text (S : Style) : Node → List Char → Prop
  | leaf {v : Setting} {t : List Char} : S.leaf v t → Text S (.inl v) t
  | map {m : List (List Char × Setting)} {t : List Char} : (m.map Prod.fst).Nodup →
      Text S (.inr m) t → Text S (.inl (.map m)) ('{' :: (t ++ ['}']))
  | none {w : List Char} : Blank w → Text S (.inr []) w
  | last {k t t' w₁ w₂ w₃ w₄ : List Char} {v : Setting} : Blank w₁ → S.key k t → Blank w₂ →
      Blank w₃ → Text S (.inl v) t' → Blank w₄ →
      Text S (.inr [(k, v)]) (w₁ ++ (t ++ (w₂ ++ ':' :: (w₃ ++ (t' ++ w₄)))))
  | more {k t t' rest w₁ w₂ w₃ w₄ : List Char} {v : Setting} {m : List (List Char × Setting)} :
      Blank w₁ → S.key k t → Blank w₂ → Blank w₃ → Text S (.inl v) t' → Blank w₄ → m ≠ [] →
      Text S (.inr m) rest →
      Text S (.inr ((k, v) :: m)) (w₁ ++ (t ++ (w₂ ++ ':' :: (w₃ ++ (t' ++ (w₄ ++ ',' :: rest))))))

inductive JsonLeaf : Setting → List Char → Prop
  | null : JsonLeaf .null "null".toList
  | yes : JsonLeaf (.bool true) "true".toList
  | no : JsonLeaf (.bool false) "false".toList
  | number {t : List Char} : IsNumber t → JsonLeaf (.number t) t
  | str {s t : List Char} : StringText s t → JsonLeaf (.str s) ('"' :: (t ++ ['"']))

inductive JsonKey : List Char → List Char → Prop
  | str {s t : List Char} : StringText s t → JsonKey s ('"' :: (t ++ ['"']))

def json : Style := ⟨JsonLeaf, JsonKey⟩

/-- A string in which only the quote is doubled. -/
def doubled : List Char → List Char
  | [] => []
  | c :: s => if c = '\'' then c :: c :: doubled s else c :: doubled s

variable (u : Alphabet) (params : List (List Char × Setting)) (P : List Char → Prop)

/-- The dialect, with the single-quoted strings of a kind. -/
inductive Leaf : Setting → List Char → Prop
  | json {v : Setting} {t : List Char} : JsonLeaf v t → Leaf v t
  | single {s : List Char} : P s → Leaf (.str s) ('\'' :: (doubled s ++ ['\'']))
  | param {name : List Char} {v : Setting} : (∀ c ∈ name, isWord u.toLetters c = true) →
      params.lookup name = some v → Leaf v ('$' :: name)

inductive Key : List Char → List Char → Prop
  | json {k t : List Char} : JsonKey k t → Key k t
  | single {k : List Char} : P k → Key k ('\'' :: (doubled k ++ ['\'']))
  | bare {c : Char} {k : List Char} : (u.is_alphabetic c = true ∨ c = '_') →
      (∀ d ∈ k, isWord u.toLetters d = true) → Key (c :: k) (c :: k)

def dialect : Style := ⟨Leaf u params P, Key u P⟩

end Writing

section Cutting

variable {u : Alphabet} {params : List (List Char × Setting)} {s t r : List Char} {depth : Nat}

/-- In a string, each backslash goes with the character behind it, and none with a quote or with
the end. -/
def escapesNoQuote : List Char → Bool
  | [] => true
  | [c] => c ≠ '\\'
  | c :: d :: r => if c = '\\' then d ≠ '\'' && escapesNoQuote r else escapesNoQuote (d :: r)

attribute [local simp] blockRest

theorem blockRest_skip {c q : Char} (h : c ≠ '\\') (hq : c ≠ q) :
    blockRest depth (some q) (c :: r) = blockRest depth (some q) r := by
  cases r with
  | nil => rfl
  | cons d r => rw [blockRest, if_neg h, if_neg hq]

theorem blockRest_close {q : Char} (hq : q ≠ '\\') :
    blockRest depth (some q) (q :: r) = blockRest depth none r := by
  cases r with
  | nil => rfl
  | cons d r => rw [blockRest, if_neg hq, if_pos rfl]

theorem blockRest_escape {q d : Char} :
    blockRest depth (some q) ('\\' :: d :: r) = blockRest depth (some q) r := by
  rw [blockRest, if_pos rfl]

theorem blockRest_plain {c : Char} (h : c ∉ ['"', '\'', '{', '}']) :
    blockRest depth none (c :: r) = blockRest depth none r := by
  simp only [List.mem_cons, List.not_mem_nil, or_false, not_or] at h
  rw [blockRest, if_neg (not_or.mpr ⟨h.1, h.2.1⟩), if_neg h.2.2.1, if_neg h.2.2.2]

theorem blockRest_open {q : Char} (h : q = '"' ∨ q = '\'') :
    blockRest depth none (q :: r) = blockRest depth (some q) r := by
  rw [blockRest, if_pos h]

theorem blockRest_plains (h : ∀ c ∈ t, c ∉ ['"', '\'', '{', '}']) :
    blockRest depth none (t ++ r) = blockRest depth none r := by
  induction t with
  | nil => rfl
  | cons c t ih =>
      rw [List.cons_append, blockRest_plain (h c List.mem_cons_self)]
      exact ih fun d hd => h d (List.mem_cons_of_mem _ hd)

theorem blockRest_hex {digits : List Char}
    (h : ∀ d ∈ digits, d ∈ "0123456789abcdefABCDEF".toList) :
    blockRest depth (some '"') (digits ++ r) = blockRest depth (some '"') r := by
  induction digits with
  | nil => rfl
  | cons d digits ih =>
      have hd := h d List.mem_cons_self
      have hslash : d ≠ '\\' := by rintro rfl; exact absurd hd (by decide)
      have hquote : d ≠ '"' := by rintro rfl; exact absurd hd (by decide)
      rw [List.cons_append, blockRest_skip hslash hquote]
      exact ih fun e he => h e (List.mem_cons_of_mem _ he)

theorem blockRest_stringText (h : StringText s t) :
    blockRest depth (some '"') (t ++ r) = blockRest depth (some '"') r := by
  induction h with
  | nil => rfl
  | plain hquote hslash _ _ ih => rw [List.cons_append, blockRest_skip hslash hquote, ih]
  | escape _ _ ih => rw [List.cons_append, List.cons_append, blockRest_escape, ih]
  | unicode _ hdigits _ _ ih =>
      rw [List.cons_append, List.cons_append, blockRest_escape, List.append_assoc,
        blockRest_hex hdigits, ih]
  | surrogates _ _ hdigits _ _ _ _ ih =>
      rw [List.cons_append, List.cons_append, blockRest_escape, List.append_assoc,
        blockRest_hex fun d hd => hdigits d (List.mem_append_left _ hd), List.cons_append,
        List.cons_append, blockRest_escape, List.append_assoc,
        blockRest_hex fun d hd => hdigits d (List.mem_append_right _ hd), ih]

theorem blockRest_string (h : StringText s t) :
    blockRest depth none (('"' :: (t ++ ['"'])) ++ r) = blockRest depth none r := by
  rw [List.cons_append, blockRest_open (.inl rfl), List.append_assoc, blockRest_stringText h,
    List.singleton_append, blockRest_close (by decide)]

theorem doubled_of_ne {c : Char} (h : c ≠ '\'') : doubled (c :: s) = c :: doubled s := if_neg h

theorem blockRest_doubled (h : escapesNoQuote s = true) :
    blockRest depth (some '\'') (doubled s ++ r) = blockRest depth (some '\'') r := by
  induction hn : s.length using Nat.strongRecOn generalizing s with
  | ind n ih =>
      cases s with
      | nil => rfl
      | cons c s =>
          have htail (hs : escapesNoQuote s = true) : blockRest depth (some '\'') (doubled s ++ r) =
              blockRest depth (some '\'') r :=
            ih s.length (by rw [← hn]; exact Nat.lt_succ_self _) hs rfl
          rcases Decidable.em (c = '\\') with rfl | hslash
          · cases s with
            | nil => cases h
            | cons d s =>
                rw [escapesNoQuote, if_pos rfl, Bool.and_eq_true_iff] at h
                rw [doubled_of_ne (by decide), doubled_of_ne (of_decide_eq_true h.1),
                  List.cons_append, List.cons_append, blockRest_escape]
                refine ih s.length ?_ h.2 rfl
                rw [← hn]
                simp
          · have hs : escapesNoQuote s = true := by
              cases s with
              | nil => rfl
              | cons d s => rwa [escapesNoQuote, if_neg hslash] at h
            rcases Decidable.em (c = '\'') with rfl | hquote
            · have hd : doubled ('\'' :: s) = '\'' :: '\'' :: doubled s := if_pos rfl
              rw [hd, List.cons_append, List.cons_append, blockRest_close (by decide),
                blockRest_open (.inr rfl), htail hs]
            · rw [doubled_of_ne hquote, List.cons_append, blockRest_skip hslash hquote, htail hs]

theorem blockRest_single (h : escapesNoQuote s = true) :
    blockRest depth none (('\'' :: (doubled s ++ ['\''])) ++ r) = blockRest depth none r := by
  rw [List.cons_append, blockRest_open (.inr rfl), List.append_assoc, blockRest_doubled h,
    List.singleton_append, blockRest_close (by decide)]

/-- A word holds no ASCII character but letters, digits and underscores. -/
theorem ne_of_word {c d : Char} (h : isWord u.toLetters c = true) (hd : d.toNat < 128)
    (hnot : (d.isAlphanum || d = '_') = false) : c ≠ d := by
  rintro rfl
  rw [isWord, u.ascii c hd, hnot] at h
  cases h

theorem not_special_of_word {c : Char} (h : isWord u.toLetters c = true) :
    c ∉ ['"', '\'', '{', '}'] := by
  simp only [List.mem_cons, List.not_mem_nil, or_false, not_or]
  refine ⟨?_, ?_, ?_, ?_⟩
  all_goals exact ne_of_word h (by decide) (by decide)

/-- The characters of a number. -/
def isNumberChar (c : Char) : Bool :=
  c.isDigit || c = '-' || c = '+' || c = '.' || c = 'e' || c = 'E'

theorem chars_of_number (h : IsNumber t) : ∀ c ∈ t, isNumberChar c = true := by
  rcases h with ⟨sign, int, frac, exp, rfl, hsign, hint, hfrac, hexp⟩
  have hdigit {c : Char} (hc : c.isDigit = true) : isNumberChar c = true := by
    unfold isNumberChar
    rw [hc]
    rfl
  have hs {sg : List Char} (hsg : sg = [] ∨ sg = ['-'] ∨ sg = ['+']) :
      ∀ c ∈ sg, isNumberChar c = true := by
    intro c hc
    rcases hsg with rfl | rfl | rfl
    · cases hc
    · rw [List.mem_singleton.mp hc]
      decide
    · rw [List.mem_singleton.mp hc]
      decide
  intro c hc
  rw [List.mem_append, List.mem_append, List.mem_append] at hc
  rcases hc with ((hc | hc) | hc) | hc
  · exact hs (hsign.elim .inl fun h => .inr (.inl h)) c hc
  · exact hdigit (hint.1.2 c hc)
  · rcases hfrac with rfl | ⟨d, rfl, hd⟩
    · cases hc
    · rcases List.mem_cons.mp hc with rfl | hc
      · decide
      · exact hdigit (hd.2 c hc)
  · rcases hexp with rfl | ⟨e, sg, d, rfl, he, hsg, hd⟩
    · cases hc
    · rcases List.mem_cons.mp hc with rfl | hc
      · rcases he with rfl | rfl <;> decide
      · rcases List.mem_append.mp hc with hc | hc
        · exact hs hsg c hc
        · exact hdigit (hd.2 c hc)

theorem not_special_of_number {c : Char} (h : isNumberChar c = true) :
    c ∉ ['"', '\'', '{', '}'] := by
  intro hmem
  simp only [List.mem_cons, List.not_mem_nil, or_false] at hmem
  rcases hmem with rfl | rfl | rfl | rfl <;> exact absurd h (by decide)

theorem not_special_of_blank {w : List Char} (h : Blank w) :
    ∀ c ∈ w, c ∉ ['"', '\'', '{', '}'] := by
  intro c hc hmem
  have hb := h c hc
  simp only [List.mem_cons, List.not_mem_nil, or_false] at hmem
  rcases hmem with rfl | rfl | rfl | rfl <;> exact absurd hb (by decide)

theorem blockRest_letters (h : t.all Char.isAlpha = true) :
    blockRest depth none (t ++ r) = blockRest depth none r := by
  refine blockRest_plains fun c hc hmem => ?_
  have hletter := List.all_eq_true.mp h c hc
  simp only [List.mem_cons, List.not_mem_nil, or_false] at hmem
  rcases hmem with rfl | rfl | rfl | rfl <;> exact absurd hletter (by decide)

theorem blockRest_jsonLeaf {v : Setting} (h : JsonLeaf v t) :
    blockRest depth none (t ++ r) = blockRest depth none r := by
  cases h with
  | null => exact blockRest_letters rfl
  | yes => exact blockRest_letters rfl
  | no => exact blockRest_letters rfl
  | number hn => exact blockRest_plains fun c hc => not_special_of_number (chars_of_number hn c hc)
  | str hs => exact blockRest_string hs

theorem blockRest_leaf {v : Setting} (h : Leaf u params (fun s => escapesNoQuote s = true) v t) :
    blockRest depth none (t ++ r) = blockRest depth none r := by
  cases h with
  | json hj => exact blockRest_jsonLeaf hj
  | single hs => exact blockRest_single hs
  | param hname _ =>
      rw [List.cons_append, blockRest_plain (by decide)]
      exact blockRest_plains fun c hc => not_special_of_word (hname c hc)

/-- Nor does a bare word begin with one that is no letter. -/
theorem ne_of_bare {c d : Char} (h : u.is_alphabetic c = true ∨ c = '_') (hd : d.toNat < 128)
    (hnot : d.isAlpha = false) (hne : d ≠ '_') : c ≠ d := by
  rintro rfl
  rw [u.alphabetic_ascii c hd, hnot] at h
  exact h.elim (fun hx => by cases hx) hne

theorem word_of_bare {c : Char} (h : u.is_alphabetic c = true ∨ c = '_') :
    c ∉ ['"', '\'', '{', '}'] := by
  simp only [List.mem_cons, List.not_mem_nil, or_false, not_or]
  refine ⟨?_, ?_, ?_, ?_⟩
  all_goals exact ne_of_bare h (by decide) (by decide) (by decide)

theorem blockRest_key {k : List Char} (h : Key u (fun s => escapesNoQuote s = true) k t) :
    blockRest depth none (t ++ r) = blockRest depth none r := by
  cases h with
  | json hj =>
      cases hj with
      | str hs => exact blockRest_string hs
  | single hs => exact blockRest_single hs
  | bare hc hk =>
      rw [List.cons_append, blockRest_plain (word_of_bare hc)]
      exact blockRest_plains fun d hd => not_special_of_word (hk d hd)

theorem blockRest_blank {w : List Char} (h : Blank w) :
    blockRest depth none (w ++ r) = blockRest depth none r :=
  blockRest_plains (not_special_of_blank h)

/-- The tokeniser passes a value, or the entries of a map, and stands between its braces where it
stood before. -/
theorem blockRest_text {x : Node}
    (h : Text (dialect u params fun s => escapesNoQuote s = true) x t) :
    ∀ depth r, blockRest depth none (t ++ r) = blockRest depth none r := by
  induction h with
  | leaf hl => exact fun depth r => blockRest_leaf hl
  | map _ _ ih =>
      intro depth r
      have hopen (s : List Char) :
          blockRest depth none ('{' :: s) = blockRest (depth + 1) none s := by
        rw [blockRest, if_neg (by decide), if_pos rfl]
      have hclose : blockRest (depth + 1) none ('}' :: r) = blockRest depth none r := by
        rw [blockRest, if_neg (by decide), if_neg (by decide), if_pos rfl,
          if_neg (Nat.succ_ne_zero _)]
        rfl
      rw [List.cons_append, hopen, List.append_assoc, ih, List.singleton_append, hclose]
  | none hw => exact fun depth r => blockRest_blank hw
  | last h₁ hk h₂ h₃ _ h₄ ih =>
      intro depth r
      simp only [List.append_assoc, List.cons_append]
      rw [blockRest_blank h₁, blockRest_key hk, blockRest_blank h₂, blockRest_plain (by decide),
        blockRest_blank h₃, ih, blockRest_blank h₄]
  | more h₁ hk h₂ h₃ _ h₄ _ _ ih ihrest =>
      intro depth r
      simp only [List.append_assoc, List.cons_append]
      rw [blockRest_blank h₁, blockRest_key hk, blockRest_blank h₂, blockRest_plain (by decide),
        blockRest_blank h₃, ih, blockRest_blank h₄, blockRest_plain (by decide), ihrest]

/-- A block is the next token, whatever follows it. -/
theorem token_block {m : List (List Char × Setting)} {block rest : List Char}
    (h : Text (dialect u params fun s => escapesNoQuote s = true) (.inl (.map m)) ('{' :: block)) :
    token u '{' (block ++ rest) = .ok (some (.json ('{' :: block)), rest) := by
  have hrest : blockRest 0 none (block ++ rest) = some rest := by
    cases h with
    | leaf hl =>
        generalize hv : Setting.map m = v at hl
        generalize ht : '{' :: block = t at hl
        cases hl with
        | json hj => cases hj <;> cases hv
        | single _ => cases hv
        | param _ _ => cases ht
    | map _ hm =>
        rw [List.append_assoc, blockRest_text hm, List.singleton_append, blockRest,
          if_neg (by decide), if_neg (by decide), if_pos rfl, if_pos rfl]
  have htake : ('{' :: (block ++ rest)).take (('{' :: (block ++ rest)).length - rest.length) =
      '{' :: block := by
    have hlen : ('{' :: (block ++ rest)).length - rest.length = block.length + 1 := by
      rw [List.length_cons, List.length_append]
      omega
    rw [hlen, List.take_succ_cons, List.take_left]
  unfold token
  rw [if_neg (by decide), if_neg (by simp), if_neg (by decide), if_neg (by decide), if_pos rfl,
    hrest]
  dsimp only
  rw [htake]

end Cutting

section Resolving

variable {u : Alphabet} {J : Serde} {params : List (List Char × Setting)} {s t r : List Char}

/-- What is relied on: a string and the supplied parameters are printed as JSON, and a text of a map
is read as one. -/
structure Serde.Spec (J : Serde) (params : List (List Char × Setting)) : Prop where
  prints_str : ∀ s, JsonLeaf (.str s) (J.to_string (.str s))
  prints_params : ∀ p ∈ params, Text json (.inl p.2) (J.to_string p.2)
  reads_map : ∀ m t, Text json (.inl (.map m)) t → J.is_map t = true

/-- A text is resolved to another one in front of a rest. -/
def Goes (u : Alphabet) (J : Serde) (params : List (List Char × Setting))
    (t out r : List Char) : Prop :=
  resolve u J params (t ++ r) = (resolve u J params r).map fun x => out ++ x

def isStop (c : Char) : Bool := [' ', '\t', '\n', '\r', ',', '}', ':', '+', '-', '.'].contains c

/-- The text goes on behind a value, or behind a key. -/
def Follow (key : Bool) (r : List Char) : Prop :=
  r.head?.all isStop = true ∧
    decide (r.find? (fun x => !is_whitespace x) = some ':') = key

theorem resolve_cons {c : Char} : resolve u J params (c :: r) =
    (piece u J params c r).bind fun v => (resolve u J params v.2).map fun x => v.1 ++ x := by
  rw [resolve]
  split
  next e he => rw [he]; rfl
  next v hv => rw [hv]; rfl

theorem goes_of_piece {c : Char} {out : List Char}
    (h : piece u J params c (t ++ r) = .ok (out, r)) : Goes u J params (c :: t) out r := by
  unfold Goes
  rw [List.cons_append, resolve_cons, h]
  rfl

theorem Goes.append {out t' out' : List Char} (h : Goes u J params t out (t' ++ r))
    (h' : Goes u J params t' out' r) : Goes u J params (t ++ t') (out ++ out') r := by
  unfold Goes at *
  rw [List.append_assoc, h, h']
  cases resolve u J params r with
  | error e => rfl
  | ok x => exact congrArg Except.ok (List.append_assoc _ _ _).symm

theorem Goes.cons {c : Char} {out : List Char} (h : Goes u J params [c] [c] (t ++ r))
    (h' : Goes u J params t out r) : Goes u J params (c :: t) (c :: out) r := h.append h'

theorem goes_plain {c : Char} (h : c ∉ ['"', '\'', '$', '_']) (ha : u.is_alphabetic c = false) :
    Goes u J params [c] [c] r := by
  simp only [List.mem_cons, List.not_mem_nil, or_false, not_or] at h
  have hword : ¬ (u.is_alphabetic c || decide (c = '_')) = true := by
    rw [ha, decide_eq_false h.2.2.2]
    decide
  refine goes_of_piece ?_
  unfold piece
  rw [List.nil_append, if_neg h.1, if_neg h.2.1, if_neg h.2.2.1, if_neg hword]

theorem goes_ascii {c : Char} (hlt : c.toNat < 128) (hletter : c.isAlpha = false)
    (h : c ∉ ['"', '\'', '$', '_']) : Goes u J params [c] [c] r :=
  goes_plain h ((u.alphabetic_ascii c hlt).trans hletter)

theorem goes_blank {w : List Char} (h : Blank w) : Goes u J params w w r := by
  induction w with
  | nil =>
      unfold Goes
      rw [List.nil_append]
      cases resolve u J params r <;> rfl
  | cons c w ih =>
      refine .cons ?_ (ih fun d hd => h d (List.mem_cons_of_mem _ hd))
      have hc := h c List.mem_cons_self
      simp only [List.mem_cons, List.not_mem_nil, or_false] at hc
      rcases hc with rfl | rfl | rfl | rfl <;>
        exact goes_ascii (by decide) (by decide) (by decide)

theorem jsonRest_hex {digits : List Char} (h : ∀ d ∈ digits, d ∈ "0123456789abcdefABCDEF".toList)
    (hr : r ≠ []) :
    jsonRest (digits ++ r) = (digits ++ (jsonRest r).1, (jsonRest r).2) := by
  induction digits with
  | nil => rfl
  | cons d digits ih =>
      have hd := h d List.mem_cons_self
      have hslash : d ≠ '\\' := by rintro rfl; exact absurd hd (by decide)
      have hquote : d ≠ '"' := by rintro rfl; exact absurd hd (by decide)
      have hih := ih fun e he => h e (List.mem_cons_of_mem _ he)
      cases hx : digits ++ r with
      | nil => exact absurd (List.append_eq_nil_iff.mp hx).2 hr
      | cons e x =>
          rw [List.cons_append, hx, jsonRest, if_neg hquote, if_neg hslash, ← hx, hih]
          rfl

theorem jsonRest_escape {d : Char} :
    jsonRest ('\\' :: d :: r) = ('\\' :: d :: (jsonRest r).1, (jsonRest r).2) := by
  rw [jsonRest, if_neg (by decide), if_pos rfl]

theorem jsonRest_stringText (h : StringText s t) :
    jsonRest (t ++ '"' :: r) = (t ++ ['"'], r) := by
  induction h with
  | nil =>
      cases r with
      | nil => rfl
      | cons c r => exact if_pos rfl
  | plain hquote hslash _ _ ih =>
      rename_i c s t _ _
      cases hx : t ++ '"' :: r with
      | nil => exact absurd hx (List.append_ne_nil_of_right_ne_nil _ (List.cons_ne_nil _ _))
      | cons e x =>
          rw [List.cons_append, hx, jsonRest, if_neg hquote, if_neg hslash, ← hx, ih]
          rfl
  | escape _ _ ih =>
      rw [List.cons_append, List.cons_append, jsonRest_escape, ih]
      rfl
  | unicode _ hdigits _ _ ih =>
      rw [List.cons_append, List.cons_append, jsonRest_escape, List.append_assoc,
        jsonRest_hex hdigits (List.append_ne_nil_of_right_ne_nil _ (List.cons_ne_nil _ _)), ih]
      simp
  | surrogates _ _ hdigits _ _ _ _ ih =>
      rw [List.cons_append, List.cons_append, jsonRest_escape, List.append_assoc,
        jsonRest_hex (fun d hd => hdigits d (List.mem_append_left _ hd)) (by simp),
        List.cons_append, List.cons_append, jsonRest_escape, List.append_assoc,
        jsonRest_hex (fun d hd => hdigits d (List.mem_append_right _ hd)) (by simp), ih]
      simp

theorem goes_string (h : StringText s t) :
    Goes u J params ('"' :: (t ++ ['"'])) ('"' :: (t ++ ['"'])) r := by
  refine goes_of_piece ?_
  unfold piece
  rw [if_pos rfl, List.append_assoc, List.singleton_append, jsonRest_stringText h]

theorem quoted_doubled (h : r.head? ≠ some '\'') :
    quoted (doubled s ++ '\'' :: r) = some (s, r) := by
  induction s with
  | nil =>
      cases r with
      | nil => rfl
      | cons c r =>
          have hc : c ≠ '\'' := fun he => h (he ▸ rfl)
          rw [doubled, List.nil_append, quoted, if_neg fun hx => hc hx.2, if_pos rfl]
  | cons c s ih =>
      rcases Decidable.em (c = '\'') with rfl | hc
      · have hd : doubled ('\'' :: s) = '\'' :: '\'' :: doubled s := if_pos rfl
        rw [hd, List.cons_append, List.cons_append, quoted, if_pos ⟨rfl, rfl⟩, ih]
        rfl
      · rw [doubled_of_ne hc]
        cases hx : doubled s ++ '\'' :: r with
        | nil => exact absurd hx (List.append_ne_nil_of_right_ne_nil _ (List.cons_ne_nil _ _))
        | cons d x =>
            rw [List.cons_append, hx, quoted, if_neg fun hcd => hc hcd.1, if_neg hc, ← hx, ih]
            rfl

theorem Follow.not_quote {key : Bool} (h : Follow key r) : r.head? ≠ some '\'' := by
  intro hq
  have hall := h.1
  rw [hq] at hall
  exact absurd hall (by decide)

theorem goes_single {key : Bool} (h : Follow key r) :
    Goes u J params ('\'' :: (doubled s ++ ['\''])) (J.to_string (.str s)) r := by
  refine goes_of_piece ?_
  unfold piece
  rw [if_neg (by decide), if_pos rfl, List.append_assoc, List.singleton_append,
    quoted_doubled h.not_quote]

theorem not_isWord_of_stop {c : Char} (h : isStop c = true) : isWord u.toLetters c = false := by
  rw [Bool.eq_false_iff]
  intro hw
  unfold isStop at h
  rw [List.contains_iff_mem] at h
  simp only [List.mem_cons, List.not_mem_nil, or_false] at h
  rcases h with hc | hc | hc | hc | hc | hc | hc | hc | hc | hc
  all_goals exact ne_of_word hw (by decide) (by decide) hc

/-- A run of word characters ends where the text goes on. -/
theorem word_run {key : Bool} {w : List Char} (h : Follow key r)
    (hw : ∀ c ∈ w, isWord u.toLetters c = true) :
    (w ++ r).takeWhile (isWord u.toLetters) = w ∧ (w ++ r).dropWhile (isWord u.toLetters) = r := by
  have hr : r.takeWhile (isWord u.toLetters) = [] ∧ r.dropWhile (isWord u.toLetters) = r := by
    cases r with
    | nil => exact ⟨rfl, rfl⟩
    | cons c r =>
        have hc : ¬ isWord u.toLetters c = true :=
          Bool.eq_false_iff.mp (not_isWord_of_stop h.1)
        exact ⟨List.takeWhile_cons_of_neg hc, List.dropWhile_cons_of_neg hc⟩
  rw [List.takeWhile_append_of_pos hw, List.dropWhile_append_of_pos hw, hr.1, hr.2, List.append_nil]
  exact ⟨rfl, rfl⟩

theorem goes_param {key : Bool} {name : List Char} {v : Setting} (h : Follow key r)
    (hname : ∀ c ∈ name, isWord u.toLetters c = true) (hv : params.lookup name = some v) :
    Goes u J params ('$' :: name) (J.to_string v) r := by
  have hrun := word_run h hname
  refine goes_of_piece ?_
  unfold piece
  rw [if_neg (by decide), if_neg (by decide), if_pos rfl, hrun.1, hrun.2, hv]

theorem not_quote_of_bare {c : Char} (h : u.is_alphabetic c = true ∨ c = '_') :
    c ≠ '"' ∧ c ≠ '\'' ∧ c ≠ '$' := by
  refine ⟨?_, ?_, ?_⟩
  all_goals exact ne_of_bare h (by decide) (by decide) (by decide)

/-- A word is a key in front of a colon, and stands for itself elsewhere. -/
theorem goes_word {key : Bool} {c : Char} {w : List Char} (h : Follow key r)
    (hc : u.is_alphabetic c = true ∨ c = '_') (hw : ∀ d ∈ w, isWord u.toLetters d = true) :
    Goes u J params (c :: w) (if key then J.to_string (.str (c :: w)) else c :: w) r := by
  have hrun := word_run h hw
  have hplain := not_quote_of_bare hc
  have hbare : (u.is_alphabetic c || decide (c = '_')) = true := by
    rcases hc with hc | hc
    · rw [hc]
      rfl
    · rw [decide_eq_true hc, Bool.or_true]
  refine goes_of_piece ?_
  unfold piece
  rw [if_neg hplain.1, if_neg hplain.2.1, if_neg hplain.2.2, if_pos hbare, hrun.1, hrun.2]
  have hkey := h.2
  cases key with
  | true => exact if_pos (of_decide_eq_true hkey)
  | false => exact if_neg (of_decide_eq_false hkey)

theorem digit_range {c : Char} (h : c.isDigit = true) : 48 ≤ c.toNat ∧ c.toNat ≤ 57 := by
  unfold Char.isDigit at h
  rcases Bool.and_eq_true_iff.mp h with ⟨hlow, hhigh⟩
  exact ⟨of_decide_eq_true hlow, of_decide_eq_true hhigh⟩

theorem digit_not_alpha {c : Char} (h : c.isDigit = true) : c.isAlpha = false := by
  have hrange := digit_range h
  refine Bool.eq_false_iff.mpr fun ha => ?_
  rcases Bool.or_eq_true_iff.mp ha with hu | hl
  · have hlow : 65 ≤ c.toNat := (of_decide_eq_true hu).1
    omega
  · have hlow : 97 ≤ c.toNat := of_decide_eq_true (Bool.and_eq_true_iff.mp hl).1
    omega

theorem digit_ne {c d : Char} (h : c.isDigit = true) (hd : d.isDigit = false) : c ≠ d := by
  rintro rfl
  rw [h] at hd
  cases hd

theorem goes_digit {c : Char} (h : c.isDigit = true) : Goes u J params [c] [c] r := by
  refine goes_ascii ?_ (digit_not_alpha h) ?_
  · have hrange := digit_range h
    omega
  · intro hmem
    simp only [List.mem_cons, List.not_mem_nil, or_false] at hmem
    rcases hmem with hc | hc | hc | hc
    all_goals exact digit_ne h (by decide) hc

/-- What a character of a number is. -/
theorem numberChar_cases {c : Char} (h : isNumberChar c = true) :
    c.isDigit = true ∨ (c = '-' ∨ c = '+' ∨ c = '.') ∨ c = 'e' ∨ c = 'E' := by
  unfold isNumberChar at h
  simp only [Bool.or_eq_true, decide_eq_true_eq] at h
  tauto

theorem digit_word {c : Char} (h : c.isDigit = true) : isWord u.toLetters c = true := by
  have hrange := digit_range h
  have halnum : c.isAlphanum = true := by
    unfold Char.isAlphanum
    rw [h, Bool.or_true]
  unfold isWord
  rw [u.ascii c (by omega), halnum]
  rfl

theorem isStop_of_number {c : Char} (h : isNumberChar c = true)
    (hw : isWord u.toLetters c = false) : isStop c = true ∧ is_whitespace c = false ∧ c ≠ ':' := by
  rcases numberChar_cases h with hd | hc | hc
  · rw [digit_word hd] at hw
    cases hw
  · rcases hc with rfl | rfl | rfl <;> decide
  · have hletter : isWord u.toLetters c = true := by
      unfold isWord
      rcases hc with rfl | rfl
      · rw [u.ascii 'e' (by decide)]
        rfl
      · rw [u.ascii 'E' (by decide)]
        rfl
    rw [hletter] at hw
    cases hw

theorem goes_number {t : List Char} (ht : ∀ c ∈ t, isNumberChar c = true) (h : Follow false r) :
    Goes u J params t t r := by
  induction hn : t.length using Nat.strongRecOn generalizing t with
  | ind n ih =>
      cases t with
      | nil => exact goes_blank fun c hc => absurd hc List.not_mem_nil
      | cons c t =>
          have htail : ∀ d ∈ t, isNumberChar d = true := fun d hd =>
            ht d (List.mem_cons_of_mem _ hd)
          have hplain (hgo : Goes u J params [c] [c] (t ++ r)) :
              Goes u J params (c :: t) (c :: t) r :=
            hgo.cons (ih t.length (by rw [← hn]; exact Nat.lt_succ_self _) htail rfl)
          rcases numberChar_cases (ht c List.mem_cons_self) with hd | hc | hc
          · exact hplain (goes_digit hd)
          · rcases hc with rfl | rfl | rfl
            all_goals exact hplain (goes_ascii (by decide) (by decide) (by decide))
          · -- an exponent is read as a word up to its sign
            have hbare : u.is_alphabetic c = true := by
              rcases hc with rfl | rfl
              all_goals exact (u.alphabetic_ascii _ (by decide)).trans (by decide)
            have hsplit := @List.takeWhile_append_dropWhile _ (isWord u.toLetters) t
            have hrest : ∀ d ∈ t.dropWhile (isWord u.toLetters), isNumberChar d = true :=
              fun d hd => htail d ((List.dropWhile_suffix _).subset hd)
            have hfollow : Follow false (t.dropWhile (isWord u.toLetters) ++ r) := by
              cases hx : t.dropWhile (isWord u.toLetters) with
              | nil => exact h
              | cons d x =>
                  have hnot : isWord u.toLetters d = false := by
                    have hhead := List.head?_dropWhile_not (isWord u.toLetters) t
                    rw [hx] at hhead
                    exact Bool.eq_false_iff.mpr (by simpa using hhead)
                  rw [hx] at hrest
                  have hstop := isStop_of_number (hrest d List.mem_cons_self) hnot
                  refine ⟨hstop.1, decide_eq_false ?_⟩
                  rw [List.cons_append, List.find?_cons_of_pos (by rw [hstop.2.1]; rfl)]
                  exact fun he => hstop.2.2 (Option.some.inj he)
            have hword := @goes_word u J params _ false c (t.takeWhile (isWord u.toLetters)) hfollow
              (.inl hbare) fun d hd => List.mem_takeWhile_imp hd
            have hlen : (t.dropWhile (isWord u.toLetters)).length < n := by
              rw [← hn]
              exact Nat.lt_succ_of_le (List.dropWhile_suffix _).length_le
            have hgo := Goes.append hword (ih _ hlen hrest rfl)
            rw [if_neg Bool.false_ne_true, List.cons_append, hsplit] at hgo
            exact hgo

theorem goes_letters {c : Char} {w : List Char} (h : Follow false r) (hc : c.isAlpha = true)
    (hw : w.all Char.isAlpha = true) : Goes u J params (c :: w) (c :: w) r := by
  have hlt {d : Char} (hd : d.isAlpha = true) : d.toNat < 128 := by
    rcases Bool.or_eq_true_iff.mp hd with hu | hl
    · have hhigh : d.toNat ≤ 90 := (of_decide_eq_true hu).2
      omega
    · have hhigh : d.toNat ≤ 122 := of_decide_eq_true (Bool.and_eq_true_iff.mp hl).2
      omega
  have hword : ∀ d ∈ w, isWord u.toLetters d = true := by
    intro d hd
    have hletter := List.all_eq_true.mp hw d hd
    unfold isWord
    rw [u.ascii d (hlt hletter), Char.isAlphanum, hletter]
    rfl
  have hbare : u.is_alphabetic c = true := (u.alphabetic_ascii c (hlt hc)).trans hc
  exact @goes_word u J params r false c w h (.inl hbare) hword

theorem goes_jsonLeaf {v : Setting} (hl : JsonLeaf v t) (h : Follow false r) :
    Goes u J params t t r := by
  cases hl with
  | null => exact goes_letters h rfl rfl
  | yes => exact goes_letters h rfl rfl
  | no => exact goes_letters h rfl rfl
  | number hn => exact goes_number (chars_of_number hn) h
  | str hs => exact goes_string hs

theorem mem_of_lookup {name : List Char} {v : Setting} (h : params.lookup name = some v) :
    (name, v) ∈ params := by
  rcases List.lookup_eq_some_iff.mp h with ⟨l₁, l₂, rfl, -⟩
  exact List.mem_append_right _ List.mem_cons_self

variable {P : List Char → Prop}

theorem resolves_leaf (hJ : J.Spec params) {v : Setting} (hl : Leaf u params P v t) :
    ∃ out, Text json (.inl v) out ∧ ∀ r, Follow false r → Goes u J params t out r := by
  cases hl with
  | json hj => exact ⟨t, .leaf hj, fun r h => goes_jsonLeaf hj h⟩
  | single _ => exact ⟨_, .leaf (hJ.prints_str _), fun r h => goes_single h⟩
  | param hname hv =>
      exact ⟨_, hJ.prints_params _ (mem_of_lookup hv), fun r h => goes_param h hname hv⟩

theorem resolves_key (hJ : J.Spec params) {k : List Char} (hk : Key u P k t) :
    ∃ out, JsonKey k out ∧ ∀ r, Follow true r → Goes u J params t out r := by
  have hprint (s : List Char) : JsonKey s (J.to_string (.str s)) := by
    generalize hx : J.to_string (.str s) = x
    have hp := hJ.prints_str s
    rw [hx] at hp
    cases hp with
    | str hs => exact .str hs
  cases hk with
  | json hj =>
      cases hj with
      | str hs => exact ⟨_, .str hs, fun r _ => goes_string hs⟩
  | single _ => exact ⟨_, hprint _, fun r h => goes_single h⟩
  | bare hc hw => exact ⟨_, hprint _, fun r h => @goes_word u J params r true _ _ h hc hw⟩

theorem blank_space {c : Char} (h : c ∈ [' ', '\t', '\n', '\r']) :
    isStop c = true ∧ is_whitespace c = true := by
  simp only [List.mem_cons, List.not_mem_nil, or_false] at h
  rcases h with rfl | rfl | rfl | rfl <;> decide

theorem Follow.blank {key : Bool} {w : List Char} (hw : Blank w) (h : Follow key r) :
    Follow key (w ++ r) := by
  induction w with
  | nil => exact h
  | cons c w ih =>
      have hc := blank_space (hw c List.mem_cons_self)
      have htail := ih fun d hd => hw d (List.mem_cons_of_mem _ hd)
      refine ⟨hc.1, ?_⟩
      have hskip : (c :: (w ++ r)).find? (fun x => !is_whitespace x) =
          (w ++ r).find? (fun x => !is_whitespace x) :=
        List.find?_cons_of_neg (by rw [hc.2]; decide)
      rw [List.cons_append, hskip]
      exact htail.2

theorem follow_colon : Follow true (':' :: r) := ⟨rfl, rfl⟩
theorem follow_comma : Follow false (',' :: r) := ⟨rfl, rfl⟩
theorem follow_brace : Follow false ('}' :: r) := ⟨rfl, rfl⟩

theorem goes_colon : Goes u J params [':'] [':'] r :=
  goes_ascii (by decide) (by decide) (by decide)

theorem goes_comma : Goes u J params [','] [','] r :=
  goes_ascii (by decide) (by decide) (by decide)

theorem goes_open : Goes u J params ['{'] ['{'] r :=
  goes_ascii (by decide) (by decide) (by decide)

theorem goes_close : Goes u J params ['}'] ['}'] r :=
  goes_ascii (by decide) (by decide) (by decide)

/-- Whatever way a value or the entries of a map are written, JSON of the same comes out. -/
theorem resolves_text (hJ : J.Spec params) {x : Node} (h : Text (dialect u params P) x t) :
    ∃ out, Text json x out ∧ ∀ r, Follow false r → Goes u J params t out r := by
  induction h with
  | leaf hl => exact resolves_leaf hJ hl
  | map hnodup _ ih =>
      rcases ih with ⟨out, htext, hgo⟩
      refine ⟨_, .map hnodup htext, fun r _ => ?_⟩
      exact goes_open.cons ((hgo _ follow_brace).append goes_close)
  | none hw => exact ⟨_, .none hw, fun r _ => goes_blank hw⟩
  | last h₁ hk h₂ h₃ _ h₄ ih =>
      rcases ih with ⟨out, htext, hgo⟩
      rcases resolves_key hJ hk with ⟨kout, hkey, hgokey⟩
      refine ⟨_, .last h₁ hkey h₂ h₃ htext h₄, fun r hr => ?_⟩
      refine (goes_blank h₁).append ((hgokey _ ?_).append ((goes_blank h₂).append
        (goes_colon.cons ((goes_blank h₃).append ((hgo _ (.blank h₄ hr)).append (goes_blank h₄))))))
      rw [List.append_assoc]
      exact .blank h₂ follow_colon
  | more h₁ hk h₂ h₃ _ h₄ hne _ ih ihrest =>
      rcases ih with ⟨out, htext, hgo⟩
      rcases ihrest with ⟨restout, hresttext, hgorest⟩
      rcases resolves_key hJ hk with ⟨kout, hkey, hgokey⟩
      refine ⟨_, .more h₁ hkey h₂ h₃ htext h₄ hne hresttext, fun r hr => ?_⟩
      refine (goes_blank h₁).append ((hgokey _ ?_).append ((goes_blank h₂).append
        (goes_colon.cons ((goes_blank h₃).append ((hgo _ ?_).append ((goes_blank h₄).append
          (goes_comma.cons (hgorest _ hr))))))))
      · rw [List.append_assoc]
        exact .blank h₂ follow_colon
      · rw [List.append_assoc]
        exact .blank h₄ follow_comma

theorem resolve_block_text (hJ : J.Spec params) {m : List (List Char × Setting)}
    (h : Text (dialect u params P) (.inl (.map m)) t) :
    ∃ out, resolve_block u J params t = .ok out ∧ Text json (.inl (.map m)) out := by
  rcases resolves_text hJ h with ⟨out, htext, hgo⟩
  have hresolve := hgo [] ⟨rfl, rfl⟩
  unfold Goes at hresolve
  rw [List.append_nil, resolve] at hresolve
  refine ⟨out, ?_, htext⟩
  have hmap := hJ.reads_map m out htext
  unfold resolve_block
  rw [hresolve]
  change (if J.is_map (out ++ []) then Except.ok (out ++ []) else _) = _
  rw [List.append_nil, if_pos hmap]

end Resolving

section Statements

variable (u : Alphabet)

/-- The tokeniser goes from one text to another, and finds these tokens on its way. -/
inductive Reads : List Char → List Tok → List Char → Prop
  | here {s : List Char} : Reads s [] s
  | step {c : Char} {r rest : List Char} {v : Option Tok × List Char} {toks : List Tok} :
      token u c r = .ok v → Reads v.2 toks rest → Reads (c :: r) (v.1.toList ++ toks) rest

variable {u}

theorem tokenize_cons {c : Char} {r : List Char} {v : Option Tok × List Char}
    (h : token u c r = .ok v) :
    tokenize u (c :: r) = (tokenize u v.2).map fun ts => v.1.toList ++ ts := by
  rw [tokenize]
  split
  next e he => rw [h] at he; cases he
  next w hw =>
    rcases Except.ok.inj (h.symm.trans hw) with rfl
    rfl

theorem tokenize_of_reads {s rest : List Char} {toks : List Tok} (h : Reads u s toks rest) :
    tokenize u s = (tokenize u rest).map fun ts => toks ++ ts := by
  induction h with
  | here => cases tokenize u _ <;> rfl
  | step htoken _ ih =>
      rw [tokenize_cons htoken, ih]
      cases tokenize u _ with
      | error e => rfl
      | ok ts => exact congrArg Except.ok (List.append_assoc _ _ _).symm

variable {params : List (List Char × Setting)}

/-- In a statement that is read up to a block, the block is one token. -/
def OneToken (u : Alphabet) (block : List Char) : Prop :=
  ∀ s toks rest, Reads u s toks (block ++ rest) →
    tokenize u s = (tokenize u rest).map fun ts => toks ++ .json block :: ts

theorem oneToken_of_token {block : List Char}
    (h : ∀ rest, token u '{' (block ++ rest) = .ok (some (.json ('{' :: block)), rest)) :
    OneToken u ('{' :: block) := by
  intro s toks rest hreads
  rw [tokenize_of_reads hreads, List.cons_append, tokenize_cons (h rest)]
  cases tokenize u rest <;> rfl

end Statements

section OneString

variable {u : Alphabet} {params : List (List Char × Setting)} {s : List Char}

/-- What is behind the brace of the block of one setting, a single-quoted string. -/
def oneSetting (s : List Char) : List Char := ['a', ':', ' ', '\''] ++ (doubled s ++ ['\'', '}'])

theorem blockRest_never (s : List Char) (depth : Nat) :
    blockRest depth none (doubled s ++ ['\'', '}']) ≠ some [] ∧
      blockRest depth (some '"') (doubled s ++ ['\'', '}']) ≠ some [] := by
  induction hn : s.length using Nat.strongRecOn generalizing s depth with
  | ind n ih =>
      cases s with
      | nil =>
          constructor
          · intro h
            rw [doubled, List.nil_append, blockRest_open (.inr rfl)] at h
            cases h
          · intro h
            rw [doubled, List.nil_append, blockRest_skip (by decide) (by decide)] at h
            cases h
      | cons c s =>
          have htail := fun d => ih s.length (by rw [← hn]; exact Nat.lt_succ_self _) s d rfl
          rcases Decidable.em (c = '\'') with rfl | hquote
          · have hd : doubled ('\'' :: s) = '\'' :: '\'' :: doubled s := if_pos rfl
            rw [hd, List.cons_append, List.cons_append, blockRest_open (.inr rfl),
              blockRest_close (by decide), blockRest_skip (by decide) (by decide),
              blockRest_skip (by decide) (by decide)]
            exact htail depth
          rw [doubled_of_ne hquote, List.cons_append]
          constructor
          · rcases Decidable.em (c = '"') with rfl | hdouble
            · rw [blockRest_open (.inl rfl)]
              exact (htail depth).2
            rw [blockRest, if_neg (not_or.mpr ⟨hdouble, hquote⟩)]
            split
            · exact (htail _).1
            split
            · split
              · intro h
                have hlen := congrArg List.length (Option.some.inj h)
                simp at hlen
              · exact (htail _).1
            · exact (htail _).1
          · rcases Decidable.em (c = '"') with rfl | hdouble
            · rw [blockRest_close (by decide)]
              exact (htail depth).1
            rcases Decidable.em (c = '\\') with rfl | hslash
            · cases s with
              | nil =>
                  intro h
                  rw [doubled, List.nil_append, blockRest_escape] at h
                  cases h
              | cons d s =>
                  have hrest := ih s.length (by rw [← hn]; simp) s depth rfl
                  rcases Decidable.em (d = '\'') with rfl | hd
                  · have hd : doubled ('\'' :: s) = '\'' :: '\'' :: doubled s := if_pos rfl
                    rw [hd, List.cons_append, List.cons_append, blockRest_escape,
                      blockRest_skip (by decide) (by decide)]
                    exact hrest.2
                  · rw [doubled_of_ne hd, List.cons_append, blockRest_escape]
                    exact hrest.2
            · rw [blockRest_skip hslash hdouble]
              exact (htail depth).2

/-- Once a quote is taken for an escaped one, the block does not end at its brace. -/
theorem blockRest_escaped (h : escapesNoQuote s = false) (depth : Nat) :
    blockRest depth (some '\'') (doubled s ++ ['\'', '}']) ≠ some [] := by
  induction hn : s.length using Nat.strongRecOn generalizing s with
  | ind n ih =>
      cases s with
      | nil => cases h
      | cons c s =>
          rcases Decidable.em (c = '\\') with rfl | hslash
          · rw [doubled_of_ne (by decide), List.cons_append]
            cases s with
            | nil =>
                intro hx
                rw [doubled, List.nil_append, blockRest_escape] at hx
                cases hx
            | cons d s =>
                rcases Decidable.em (d = '\'') with rfl | hd
                · have hd : doubled ('\'' :: s) = '\'' :: '\'' :: doubled s := if_pos rfl
                  rw [hd, List.cons_append, List.cons_append, blockRest_escape,
                    blockRest_close (by decide)]
                  exact (blockRest_never s depth).1
                · rw [escapesNoQuote, if_pos rfl, decide_eq_true hd, Bool.true_and] at h
                  rw [doubled_of_ne hd, List.cons_append, blockRest_escape]
                  exact ih s.length (by rw [← hn]; simp) h rfl
          · have hs : escapesNoQuote s = false := by
              cases s with
              | nil =>
                  rw [escapesNoQuote, decide_eq_true hslash] at h
                  cases h
              | cons d s => rwa [escapesNoQuote, if_neg hslash] at h
            have htail := ih s.length (by rw [← hn]; exact Nat.lt_succ_self _) hs rfl
            rcases Decidable.em (c = '\'') with rfl | hquote
            · have hd : doubled ('\'' :: s) = '\'' :: '\'' :: doubled s := if_pos rfl
              rw [hd, List.cons_append, List.cons_append, blockRest_close (by decide),
                blockRest_open (.inr rfl)]
              exact htail
            · rw [doubled_of_ne hquote, List.cons_append, blockRest_skip hslash hquote]
              exact htail

theorem text_oneSetting {P : List Char → Prop} (h : P s) :
    Text (dialect u params P) (.inl (.map [(['a'], .str s)])) ('{' :: oneSetting s) := by
  have hblank (w : List Char) (hw : w = [] ∨ w = [' ']) : Blank w := by
    intro c hc
    rcases hw with rfl | rfl
    · cases hc
    · rw [List.mem_singleton.mp hc]
      exact List.mem_cons_self
  have halpha : u.is_alphabetic 'a' = true := (u.alphabetic_ascii 'a' (by decide)).trans (by decide)
  have hkey : Key u P ['a'] ['a'] := .bare (.inl halpha) fun d hd => absurd hd List.not_mem_nil
  have hempty := hblank [] (.inl rfl)
  have hentry := @Text.last (dialect u params P) _ _ _ _ _ _ _ _ hempty hkey hempty
    (hblank [' '] (.inr rfl)) (.leaf (.single h)) hempty
  have hnodup : ([(['a'], Setting.str s)].map Prod.fst).Nodup := List.nodup_singleton _
  have hmap := Text.map hnodup hentry
  simpa [oneSetting] using hmap

/-- The block of one single-quoted string is one token exactly if no backslash of the string is
taken for the escape of a quote. -/
theorem oneToken_iff : OneToken u ('{' :: oneSetting s) ↔ escapesNoQuote s = true := by
  constructor
  · intro h
    refine Classical.byContradiction fun hn => ?_
    have hfalse := Bool.eq_false_iff.mpr hn
    have hrest : blockRest 0 none (oneSetting s) ≠ some [] := by
      unfold oneSetting
      rw [List.cons_append, List.cons_append, List.cons_append, List.cons_append,
        blockRest_plain (by decide), blockRest_plain (by decide), blockRest_plain (by decide),
        blockRest_open (.inr rfl)]
      exact blockRest_escaped hfalse 0
    have hwhole := h ('{' :: oneSetting s) [] [] (by rw [List.append_nil]; exact .here)
    rw [tokenize.eq_def u []] at hwhole
    replace hwhole : tokenize u ('{' :: oneSetting s) =
        .ok [Tok.json ('{' :: oneSetting s)] := hwhole
    cases hx : blockRest 0 none (oneSetting s) with
    | none =>
        have htoken : ∃ e, token u '{' (oneSetting s) = .error e := by
          unfold token
          rw [if_neg (by decide), if_neg (by simp), if_neg (by decide), if_neg (by decide),
            if_pos rfl, hx]
          exact ⟨_, rfl⟩
        rcases htoken with ⟨e, he⟩
        rw [tokenize] at hwhole
        split at hwhole
        next => cases hwhole
        next v hv => rw [he] at hv; cases hv
    | some rest =>
        have htoken : token u '{' (oneSetting s) = .ok (some (.json (('{' :: oneSetting s).take
            (('{' :: oneSetting s).length - rest.length))), rest) := by
          unfold token
          rw [if_neg (by decide), if_neg (by simp), if_neg (by decide), if_neg (by decide),
            if_pos rfl, hx]
        rw [tokenize_cons htoken] at hwhole
        rcases ExceptRules.map_eq_ok.mp hwhole with ⟨ts, _, hts⟩
        have hpart := Tok.json.inj (List.cons.inj hts).1
        have hlen := congrArg List.length hpart
        have hpos : 0 < rest.length := List.length_pos_iff.mpr fun hnil => hrest (hnil ▸ hx)
        rw [List.length_take, List.length_cons] at hlen
        omega
  · intro h
    exact oneToken_of_token fun rest => @token_block u [] _ _ rest (text_oneSetting h)

end OneString

section Faithful

variable {u : Alphabet} {J : Serde} {params : List (List Char × Setting)}

/--
Every way of writing a map is resolved to JSON of that map; its block is one token of every
statement if no single-quoted string has a backslash in front of a quote or at its end, backslashes
being taken with the character behind them; and for the block of a single such string exactly then.
-/
theorem blocks_faithful (hJ : J.Spec params) :
    (∀ m body, Text (dialect u params fun _ => True) (.inl (.map m)) ('{' :: body) →
      ∃ out, resolve_block u J params ('{' :: body) = .ok out ∧ Text json (.inl (.map m)) out) ∧
    (∀ m body, Text (dialect u params fun s => escapesNoQuote s = true) (.inl (.map m))
      ('{' :: body) → OneToken u ('{' :: body)) ∧
    ∀ s, OneToken u ('{' :: oneSetting s) ↔ escapesNoQuote s = true :=
  ⟨fun _ _ h => resolve_block_text hJ h, fun _ _ h => oneToken_of_token fun _ => token_block h,
    fun _ => oneToken_iff⟩

end Faithful

section Example

theorem alpha_self (c : Char) (_ : c.toNat < 128) : c.isAlpha = c.isAlpha := rfl

def asciiAlphabet : Alphabet := ⟨StatementRedaction.asciiLetters, Char.isAlpha, alpha_self⟩

def hexDigit (n : Nat) : Char := if n < 10 then Char.ofNat (48 + n) else Char.ofNat (87 + n)

def escaped (c : Char) : List Char :=
  if c = '"' then ['\\', '"']
  else if c = '\\' then ['\\', '\\']
  else if c.toNat < 32 then ['\\', 'u', '0', '0', hexDigit (c.toNat / 16), hexDigit (c.toNat % 16)]
  else [c]

/-- The printing of strings, and the brace that a map opens with. -/
def plainSerde : Serde where
  to_string v := match v with
    | .str s => '"' :: (s.flatMap escaped ++ ['"'])
    | _ => "null".toList
  is_map t := t.head? = some '{'

theorem hexDigits_ofNat : ∀ n : Fin 32,
    Nat.ofDigits 16 (['0', '0', hexDigit (n.val / 16), hexDigit (n.val % 16)].map
      hexValue).reverse = n.val ∧
      (['0', '0', hexDigit (n.val / 16), hexDigit (n.val % 16)].all fun d =>
        "0123456789abcdefABCDEF".toList.contains d) = true := by decide

theorem stringText_escaped (s : List Char) : StringText s (s.flatMap escaped) := by
  induction s with
  | nil => exact .nil
  | cons c s ih =>
      rw [List.flatMap_cons]
      unfold escaped
      split
      · next hc =>
          subst hc
          exact .escape (by decide) ih
      split
      · next hc =>
          subst hc
          exact .escape (by decide) ih
      split
      · next hlt =>
          have hdigits := hexDigits_ofNat ⟨c.toNat, hlt⟩
          refine @StringText.unicode c ['0', '0', hexDigit (c.toNat / 16), hexDigit (c.toNat % 16)]
            s _ rfl ?_ hdigits.1 ih
          intro d hd
          have hall := List.all_eq_true.mp hdigits.2 d hd
          exact List.contains_iff_mem.mp hall
      · next hquote hslash hlt => exact .plain hquote hslash (Nat.le_of_not_lt hlt) ih

theorem spec_plainSerde : plainSerde.Spec [] where
  prints_str s := .str (stringText_escaped s)
  prints_params p hp := absurd hp List.not_mem_nil
  reads_map m t h := by
    cases h with
    | leaf hl => cases hl
    | map _ _ => rfl

theorem blocks_faithful_plain :
    (∀ m body, Text (dialect asciiAlphabet [] fun _ => True) (.inl (.map m)) ('{' :: body) →
      ∃ out, resolve_block asciiAlphabet plainSerde [] ('{' :: body) = .ok out ∧
        Text json (.inl (.map m)) out) ∧
    (∀ m body, Text (dialect asciiAlphabet [] fun s => escapesNoQuote s = true) (.inl (.map m))
      ('{' :: body) → OneToken asciiAlphabet ('{' :: body)) ∧
    ∀ s, OneToken asciiAlphabet ('{' :: oneSetting s) ↔ escapesNoQuote s = true :=
  blocks_faithful spec_plainSerde

/-- A path of Windows that ends with its separator. -/
theorem not_blocks_faithful : ¬ ∀ m body,
    Text (dialect asciiAlphabet [] fun _ => True) (.inl (.map m)) ('{' :: body) →
      OneToken asciiAlphabet ('{' :: body) := by
  intro h
  have hone := h _ _ (@text_oneSetting asciiAlphabet [] ['C', ':', '\\'] (fun _ => True) trivial)
  exact absurd (oneToken_iff.mp hone) (by decide)

end Example

end OntologicalDb.ParameterBlocks
