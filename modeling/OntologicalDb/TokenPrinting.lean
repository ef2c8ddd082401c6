import OntologicalDb.ExceptRules
import OntologicalDb.TypeqlLexer

/-!
Lexing what the tokens were printed as.
-/

namespace OntologicalDb.TokenPrinting

open OntologicalDb.TypeqlLexer

section Characters

variable {U : Unicode} {F : Type} {fl : Floats F} {c : Char}

def digitChars : List Char := ['0', '1', '2', '3', '4', '5', '6', '7', '8', '9']

theorem digit_mem (h : isDigit c = true) : c ∈ digitChars := by
  have hrange : '0' ≤ c ∧ c ≤ '9' := of_decide_eq_true h
  have hlo : 48 ≤ c.toNat := hrange.1
  have hhi : c.toNat ≤ 57 := hrange.2
  have hc : c = Char.ofNat c.toNat := (Char.ofNat_toNat c).symm
  rw [hc]
  generalize c.toNat = n at hlo hhi
  interval_cases n <;> decide

theorem digit_ne {d : Char} (h : isDigit c = true) (hd : d ∉ digitChars) : c ≠ d := by
  rintro rfl
  exact hd (digit_mem h)

theorem identStart_ascii (h : c.toNat < 128) :
    isIdentStart U c = (c.isAlpha || decide (c = '_')) := by
  rw [isIdentStart, U.alphabetic_ascii c h]

theorem identChar_ascii (h : c.toNat < 128) :
    isIdentChar U c = (c.isAlphanum || decide (c = '_')) := by
  rw [isIdentChar, U.alphanumeric_ascii c h]

/-- The characters that start something else than a name. -/
theorem identStart_ne (h : isIdentStart U c = true) :
    c ≠ '$' ∧ ¬ (c = '"' ∨ c = '\'') ∧ isDigit c = false ∧ c ≠ '#' := by
  have hne {d : Char} (hascii : d.toNat < 128)
      (hd : (d.isAlpha || decide (d = '_')) = false) : c ≠ d := by
    rintro rfl
    rw [identStart_ascii hascii, hd] at h
    cases h
  refine ⟨hne (by decide) (by decide), ?_, ?_, hne (by decide) (by decide)⟩
  · rintro (hc | hc)
    · exact hne (by decide) (by decide) hc
    · exact hne (by decide) (by decide) hc
  · by_contra hdigit
    have hall : (digitChars.all fun d =>
        d.toNat < 128 ∧ (d.isAlpha || decide (d = '_')) = false) = true := by decide
    have hd := of_decide_eq_true
      (List.all_eq_true.mp hall c (digit_mem (by simpa using hdigit)))
    exact hne hd.1 hd.2 rfl

theorem skip_cons {r : List Char} (hspace : U.isWhitespace c = false) (hhash : c ≠ '#') :
    skip U (c :: r) = c :: r := by
  rw [skip, skipFrom, if_neg (by rw [hspace]; exact Bool.false_ne_true), if_neg hhash]

theorem whitespace_digit (h : isDigit c = true) : U.isWhitespace c = false := by
  have hall : (digitChars.all fun d => d.toNat < 128 ∧
      decide (d = ' ' ∨ 9 ≤ d.toNat ∧ d.toNat ≤ 13) = false) = true := by decide
  have hd := of_decide_eq_true (List.all_eq_true.mp hall c (digit_mem h))
  rw [U.whitespace_ascii c hd.1]
  exact hd.2

theorem skip_space (r : List Char) : skip U (' ' :: r) = skip U r := by
  have hspace : U.isWhitespace ' ' = true := by
    rw [U.whitespace_ascii ' ' (by decide)]
    decide
  rw [skip, skipFrom, if_pos hspace, skip]

end Characters

section Again

variable {U : Unicode} {F : Type} {fl : Floats F}

/-- What separates printed tokens, or the end. -/
def Stops (rest : List Char) : Prop := rest = [] ∨ ∃ r, rest = ' ' :: r

/-- Nothing that a name could go on with. -/
def EndsName (U : Unicode) (rest : List Char) : Prop :=
  ∀ c ∈ rest.head?, isIdentChar U c = false ∧ c ≠ '-'

theorem Stops.endsName {rest : List Char} (h : Stops rest) : EndsName U rest := by
  rcases h with rfl | ⟨r, rfl⟩
  · intro c hc
    cases hc
  · intro c hc
    rw [Option.mem_some_iff.mp hc.symm.symm.symm, identChar_ascii (by decide)]
    decide

theorem endsName_bang (r : List Char) : EndsName U ('!' :: r) := by
  intro c hc
  obtain rfl : '!' = c := Option.some.inj hc
  rw [identChar_ascii (by decide)]
  decide

theorem glued_ends {rest : List Char} (h : EndsName U rest) : glued U rest = ([], rest) := by
  cases rest with
  | nil => rfl
  | cons c r =>
      rcases h c rfl with ⟨hchar, hhyphen⟩
      rw [glued, hchar, decide_eq_false hhyphen]
      rfl

/-- A name that was taken is taken again. -/
theorem glued_again (cs : List Char) {rest : List Char} (h : EndsName U rest) :
    glued U ((glued U cs).1 ++ rest) = ((glued U cs).1, rest) := by
  induction cs with
  | nil => exact glued_ends h
  | cons c r ih =>
      rw [glued]
      split
      next hcond =>
        have hagain : (isIdentChar U c ||
            (c = '-' && ((glued U r).1 ++ rest).head?.any (isIdentChar U))) = true := by
          rcases Bool.or_eq_true_iff.mp hcond with hchar | hhyphen
          · rw [hchar, Bool.true_or]
          · rcases Bool.and_eq_true_iff.mp hhyphen with ⟨hc, hnext⟩
            cases r with
            | nil => cases hnext
            | cons d r =>
                have hd : isIdentChar U d = true := hnext
                rw [glued, hd, Bool.true_or, if_pos rfl, hc, Bool.true_and]
                change (isIdentChar U c || isIdentChar U d) = true
                rw [hd, Bool.or_true]
        rw [List.cons_append, glued, if_pos hagain, ih]
      next => exact glued_ends h

theorem field_stops {sep : Char} (hsep : sep ≠ ' ') {rest : List Char} (h : Stops rest) :
    field sep rest = none := by
  rcases h with rfl | ⟨r, rfl⟩
  · rfl
  · exact if_neg hsep.symm

/-- Read again before a separator, it takes the same. -/
def Repeats (f : List Char → List Char × List Char) : Prop :=
  ∀ cs rest, Stops rest → f ((f cs).1 ++ rest) = ((f cs).1, rest)

theorem optionalField_repeats {sep : Char} (hsep : sep ≠ ' ')
    {next : List Char → List Char × List Char} (hnext : Repeats next) :
    Repeats (optionalField sep next) := by
  intro cs rest hrest
  cases hfield : field sep cs with
  | none =>
      have htaken : (optionalField sep next cs).1 = [] := by simp only [optionalField, hfield]
      rw [htaken, List.nil_append]
      simp only [optionalField, field_stops hsep hrest]
  | some v =>
      have htaken : (optionalField sep next cs).1 = v.1 ++ (next v.2).1 := by
        simp only [optionalField, hfield]
      rw [htaken, List.append_assoc]
      simp only [optionalField, (field_append hfield).2.2, hnext v.2 rest hrest]

theorem takeWhile_stops {rest : List Char} (h : Stops rest) :
    rest.takeWhile isDigit = [] ∧ rest.dropWhile isDigit = rest := by
  rcases h with rfl | ⟨r, rfl⟩
  · exact ⟨rfl, rfl⟩
  · exact ⟨rfl, rfl⟩

theorem takeWhile_digits {ds : List Char} (hds : ∀ d ∈ ds, isDigit d = true) {rest : List Char}
    (h : rest.takeWhile isDigit = [] ∧ rest.dropWhile isDigit = rest) :
    (ds ++ rest).takeWhile isDigit = ds ∧ (ds ++ rest).dropWhile isDigit = rest := by
  rw [List.takeWhile_append_of_pos hds, List.dropWhile_append_of_pos hds, h.1, h.2,
    List.append_nil]
  exact ⟨rfl, rfl⟩

theorem fraction_stops {rest : List Char} (h : Stops rest) : fraction rest = ([], rest) := by
  rcases h with rfl | ⟨r, rfl⟩
  · rfl
  · rfl

theorem fraction_digits {es : List Char} (hes : Digits es) {rest : List Char} (h : Stops rest) :
    fraction ('.' :: (es ++ rest)) = ('.' :: es, rest) := by
  rcases hes with ⟨hne, hall⟩
  have htake := takeWhile_digits hall (takeWhile_stops h)
  have hhead : (decide ('.' = '.') && (es ++ rest).head?.any isDigit) = true := by
    cases es with
    | nil => exact absurd rfl hne
    | cons e es => exact hall e List.mem_cons_self
  rw [fraction, if_pos hhead, htake.1, htake.2]

theorem fraction_repeats : Repeats fraction := by
  intro cs rest hrest
  cases cs with
  | nil => exact fraction_stops hrest
  | cons c r =>
      by_cases hcond : (decide (c = '.') && r.head?.any isDigit) = true
      · rcases Bool.and_eq_true_iff.mp hcond with ⟨hc, hnext⟩
        have hdigits : Digits (r.takeWhile isDigit) := by
          refine ⟨?_, fun d hd => List.mem_takeWhile_imp hd⟩
          cases r with
          | nil => cases hnext
          | cons d r =>
              have hd : isDigit d = true := hnext
              rw [List.takeWhile_cons, if_pos hd]
              exact List.cons_ne_nil _ _
        rw [fraction, if_pos hcond, of_decide_eq_true hc]
        exact fraction_digits hdigits hrest
      · rw [fraction, if_neg hcond]
        exact fraction_stops hrest

theorem scanDatetime_again {cs : List Char} {v : List Char × List Char}
    (h : scanDatetime cs = some v) {rest : List Char} (hrest : Stops rest) :
    scanDatetime (v.1 ++ rest) = some (v.1, rest) := by
  have htime : Repeats scanTime := optionalField_repeats (by decide)
    (optionalField_repeats (by decide) (optionalField_repeats (by decide) fraction_repeats))
  rcases Option.map_eq_some_iff.mp h with ⟨w, hw, rfl⟩
  rw [List.append_assoc, scanDatetime, (scanDate_append hw).2.2]
  change some (w.1 ++ (scanTime ((scanTime w.2).1 ++ rest)).1,
    (scanTime ((scanTime w.2).1 ++ rest)).2) = _
  rw [htime w.2 rest hrest]

end Again

section Numerals

variable {F : Type} {fl : Floats F}

theorem decimal_concat (ds : List Char) (d : Char) :
    decimal (ds ++ [d]) = decimal ds * 10 + (d.toNat - 48) :=
  List.foldl_append

theorem digit_ofNat {n : Nat} (h : n < 10) :
    isDigit (Char.ofNat (48 + n)) = true ∧ (Char.ofNat (48 + n)).toNat - 48 = n := by
  interval_cases n <;> exact ⟨rfl, rfl⟩

theorem printNat_spec (n : Nat) : Digits (printNat n) ∧ decimal (printNat n) = n := by
  induction n using Nat.strongRecOn with
  | ind n ih =>
      rw [printNat]
      split
      next hn =>
        rcases digit_ofNat hn with ⟨hdigit, hvalue⟩
        refine ⟨⟨List.cons_ne_nil _ _, fun d hd => ?_⟩, ?_⟩
        · rw [List.mem_singleton.mp hd]
          exact hdigit
        · change 0 * 10 + _ = n
          rw [hvalue, Nat.zero_mul, Nat.zero_add]
      next hn =>
        rcases ih (n / 10) (by omega) with ⟨hdigits, hdecimal⟩
        rcases digit_ofNat (n := n % 10) (by omega) with ⟨hdigit, hvalue⟩
        refine ⟨⟨List.append_ne_nil_of_left_ne_nil hdigits.1 _, fun d hd => ?_⟩, ?_⟩
        · rcases List.mem_append.mp hd with hd | hd
          · exact hdigits.2 d hd
          · rw [List.mem_singleton.mp hd]
            exact hdigit
        · rw [decimal_concat, hdecimal, hvalue]
          omega

theorem twoDigits_digits {cs : List Char} {v : List Char × List Char}
    (h : twoDigits cs = some v) : ∀ d ∈ v.1, isDigit d = true := by
  unfold twoDigits at h
  split at h
  next a b r =>
    split at h
    next hdigits =>
      rcases Bool.and_eq_true_iff.mp hdigits with ⟨ha, hb⟩
      rw [← Option.some.inj h]
      simp [ha, hb]
    next => cases h
  next => cases h

/-- Behind the digits a date starts with is a hyphen. -/
theorem dropWhile_of_scanDate {cs : List Char} {v : List Char × List Char}
    (h : scanDate cs = some v) : ∃ r, cs.dropWhile isDigit = '-' :: r := by
  rcases Option.bind_eq_some_iff.mp h with ⟨y, hy, h⟩
  rcases Option.bind_eq_some_iff.mp h with ⟨z, hz, h⟩
  rcases Option.bind_eq_some_iff.mp h with ⟨m, hm, -⟩
  rw [← (twoDigits_append hy).1, ← (twoDigits_append hz).1,
    List.dropWhile_append_of_pos (twoDigits_digits hy),
    List.dropWhile_append_of_pos (twoDigits_digits hz)]
  cases hr : z.2 with
  | nil =>
      rw [hr] at hm
      cases hm
  | cons c r =>
      rw [hr, field] at hm
      split at hm
      next hc => exact ⟨r, by rw [hc]; rfl⟩
      next => cases hm

/-- A numeral before something that is no hyphen is no date. -/
theorem scanDatetime_digits {ds rest : List Char} (hds : ∀ d ∈ ds, isDigit d = true)
    (hrest : rest.takeWhile isDigit = [] ∧ rest.dropWhile isDigit = rest)
    (hhyphen : ∀ r, rest ≠ '-' :: r) : scanDatetime (ds ++ rest) = none := by
  cases hdate : scanDate (ds ++ rest) with
  | none => rw [scanDatetime, hdate]; rfl
  | some v =>
      rcases dropWhile_of_scanDate hdate with ⟨r, hr⟩
      rw [(takeWhile_digits hds hrest).2] at hr
      exact absurd hr (hhyphen r)

theorem takeNumber_digits {ds rest : List Char} (hds : Digits ds) (hrest : Stops rest) :
    takeNumber fl (ds ++ rest) = (intOrFloat fl ds, rest) := by
  have htake := takeWhile_digits hds.2 (takeWhile_stops hrest)
  simp only [takeNumber, htake.1, htake.2, fraction_stops hrest, if_pos]

theorem takeNumber_fraction {ds es rest : List Char} (hds : Digits ds) (hes : Digits es)
    (hrest : Stops rest) : takeNumber fl (ds ++ ('.' :: (es ++ rest))) =
      (.float (fl.parse (ds ++ '.' :: es)), rest) := by
  have hdot : ('.' :: (es ++ rest)).takeWhile isDigit = [] ∧
      ('.' :: (es ++ rest)).dropWhile isDigit = '.' :: (es ++ rest) := ⟨rfl, rfl⟩
  have htake := takeWhile_digits hds.2 hdot
  simp only [takeNumber, htake.1, htake.2, fraction_digits hes hrest, if_neg (List.cons_ne_nil _ _)]

end Numerals

section Strings

variable {rest : List Char} {v : List Char × List Char}

theorem readString_close : readString '"' ('"' :: rest) = .ok ([], rest) := by
  rw [readString.eq_def]
  rfl

theorem readString_backslash (e : Char) (r : List Char) : readString '"' ('\\' :: e :: r) =
    (readString '"' r).map fun v => (escaped e :: v.1, v.2) := by
  rw [readString.eq_def]
  rfl

theorem readString_char {c : Char} (hb : c ≠ '\\') (hq : c ≠ '"') (r : List Char) :
    readString '"' (c :: r) = (readString '"' r).map fun v => (c :: v.1, v.2) := by
  rw [readString.eq_def]
  simp only [if_neg hb, if_neg hq]

/-- A string without its quote and without a backslash is read as it stands. -/
theorem readString_plain {s : List Char} (hq : '"' ∉ s) (hb : '\\' ∉ s) :
    readString '"' (s ++ '"' :: rest) = .ok (s, rest) := by
  induction s with
  | nil => exact readString_close
  | cons c s ih =>
      have hcq : c ≠ '"' := fun h => hq (h ▸ List.mem_cons_self)
      have hcb : c ≠ '\\' := fun h => hb (h ▸ List.mem_cons_self)
      rw [List.cons_append, readString_char hcb hcq,
        ih (fun h => hq (List.mem_cons_of_mem _ h)) fun h => hb (List.mem_cons_of_mem _ h)]
      rfl

theorem escaped_eq_backslash {e : Char} (h : escaped e = '\\') : e = '\\' := by
  unfold escaped at h
  split at h
  · exact absurd h (by decide)
  split at h
  · exact absurd h (by decide)
  split at h
  · exact absurd h (by decide)
  · exact h

/-- No text is read with backslashes added in front: a backslash only comes out of two. -/
theorem readString_ne_replicate (y : List Char) (n : Nat)
    (h : readString '"' (y ++ '"' :: rest) = .ok v) :
    v.1 ≠ List.replicate (n + 1) '\\' ++ y := by
  intro heq
  rw [List.replicate_succ, List.cons_append] at heq
  -- by the length of the text: each pair of backslashes leaves a shorter one
  induction hlen : y.length using Nat.strongRecOn generalizing y n v with
  | ind len ih =>
      cases y with
      | nil =>
          rw [List.nil_append, readString_close] at h
          rw [← Except.ok.inj h] at heq
          cases heq
      | cons c y =>
          by_cases hc : c = '\\'
          · subst hc
            have hnext : ∃ e r, y ++ '"' :: rest = e :: r := by
              cases y with
              | nil => exact ⟨_, _, rfl⟩
              | cons e y => exact ⟨_, _, rfl⟩
            rcases hnext with ⟨e, r, hr⟩
            rw [List.cons_append, hr, readString_backslash] at h
            rcases ExceptRules.map_eq_ok.mp h with ⟨w, hw, rfl⟩
            rcases List.cons.inj heq with ⟨he, hrest⟩
            have hback := escaped_eq_backslash he
            cases y with
            | nil =>
                rw [hback] at hr
                exact absurd (List.cons.inj hr).1 (by decide)
            | cons d y =>
                rcases List.cons.inj hr with ⟨hd, rfl⟩
                have hdb : d = '\\' := hd.trans hback
                refine ih y.length ?_ (v := w) y (n + 1) hw ?_ rfl
                · rw [← hlen]
                  simp only [List.length_cons]
                  omega
                · have hmore : List.replicate (n + 2) '\\' ++ y =
                      List.replicate n '\\' ++ '\\' :: '\\' :: y := by
                    rw [List.replicate_succ', List.replicate_succ', List.append_assoc,
                      List.append_assoc]
                    rfl
                  rw [hrest, hdb, ← hmore]
                  rfl
          · by_cases hq : c = '"'
            · subst hq
              rw [List.cons_append, readString_close] at h
              rw [← Except.ok.inj h] at heq
              cases heq
            · rw [List.cons_append, readString_char hc hq] at h
              rcases ExceptRules.map_eq_ok.mp h with ⟨w, -, rfl⟩
              exact hc (List.cons.inj heq).1

/-- A string with its quote or a backslash in it is not read as itself. -/
theorem readString_ne {s : List Char} (hs : '"' ∈ s ∨ '\\' ∈ s)
    (h : readString '"' (s ++ '"' :: rest) = .ok v) : v.1 ≠ s := by
  induction s generalizing v with
  | nil => rcases hs with hs | hs <;> cases hs
  | cons c s ih =>
      intro heq
      by_cases hc : c = '\\'
      · subst hc
        cases s with
        | nil =>
            rw [List.cons_append, List.nil_append, readString_backslash] at h
            rcases ExceptRules.map_eq_ok.mp h with ⟨w, -, rfl⟩
            exact absurd (List.cons.inj heq).1 (by decide)
        | cons e y =>
            rw [List.cons_append, List.cons_append, readString_backslash] at h
            rcases ExceptRules.map_eq_ok.mp h with ⟨w, hw, rfl⟩
            rcases List.cons.inj heq with ⟨he, hrest⟩
            refine readString_ne_replicate y 0 hw ?_
            rw [hrest, escaped_eq_backslash he]
            rfl
      · by_cases hq : c = '"'
        · subst hq
          rw [List.cons_append, readString_close] at h
          rw [← Except.ok.inj h] at heq
          cases heq
        · rw [List.cons_append, readString_char hc hq] at h
          rcases ExceptRules.map_eq_ok.mp h with ⟨w, hw, rfl⟩
          refine ih ?_ hw (List.cons.inj heq).2
          rcases hs with hs | hs
          · exact .inl ((List.mem_cons.mp hs).resolve_left (Ne.symm hq))
          · exact .inr ((List.mem_cons.mp hs).resolve_left (Ne.symm hc))

end Strings

section Relexing

variable {F : Type} {U : Unicode} {fl : Floats F} {rest : List Char}

/-- What the lexer can make a token of. -/
def Lexed (U : Unicode) : Tok F → Prop
  | .ident s => ∃ c g b, s.toList = c :: (g ++ b) ∧ isIdentStart U c = true ∧
      U.isWhitespace c = false ∧ (glued U g).1 = g ∧ (b = [] ∨ b = ['!'])
  | .var s => s.toList.head?.any (isIdentChar U) = true ∧ (glued U s.toList).1 = s.toList
  | .str _ => True
  | .int n => n < 2 ^ 63
  | .float _ => True
  | .dateTime s => scanDatetime s.toList = some (s.toList, [])
  | .sym s => s ∈ symbols
  | .eof => False

/-- A string with neither its quote nor a backslash; a float that is finite, and no whole number
that fits an integer. -/
def Plain (fl : Floats F) : Tok F → Prop
  | .str s => '"' ∉ s.toList ∧ '\\' ∉ s.toList
  | .float f => fl.isFinite f = true ∧ ∀ n, fl.whole f = some n → 2 ^ 63 ≤ n
  | _ => True

/-- At this text the lexer stands before a token, and what it makes of it. -/
structure LexesTo (U : Unicode) (fl : Floats F) (src : List Char)
    (out : Except String (Tok F × List Char)) : Prop where
  token : ∃ c r, src = c :: r ∧ skip U (c :: r) = c :: r ∧ lexToken U fl c r = out

theorem lexToken_digit {c : Char} (h : isDigit c = true) {r : List Char} {t : Tok F}
    (hdate : scanDatetime (c :: r) = none) (hnumber : takeNumber fl (c :: r) = (t, rest)) :
    LexesTo U fl (c :: r) (.ok (t, rest)) := by
  refine ⟨c, r, rfl, skip_cons (whitespace_digit h) (digit_ne h (by decide)), ?_⟩
  have hquote : ¬ (c = '"' ∨ c = '\'') := by
    rintro (hc | hc)
    · exact digit_ne h (by decide) hc
    · exact digit_ne h (by decide) hc
  rw [lexToken, if_neg (digit_ne h (by decide)), if_neg hquote, if_pos h, hdate, hnumber]

theorem lexesTo_digits {ds : List Char} (hds : Digits ds) (hrest : Stops rest) :
    LexesTo U fl (ds ++ rest) (.ok (intOrFloat fl ds, rest)) := by
  have hhyphen (r : List Char) : rest ≠ '-' :: r := by
    rintro rfl
    rcases hrest with h | ⟨r', h⟩
    · cases h
    · exact absurd (List.cons.inj h).1 (by decide)
  have hdate := scanDatetime_digits hds.2 (takeWhile_stops hrest) hhyphen
  have hnumber : takeNumber fl (ds ++ rest) = (intOrFloat fl ds, rest) :=
    takeNumber_digits hds hrest
  cases ds with
  | nil => exact absurd rfl hds.1
  | cons d ds => exact lexToken_digit (hds.2 d List.mem_cons_self) hdate hnumber

theorem lexesTo_fraction {ds es : List Char} (hds : Digits ds) (hes : Digits es)
    (hrest : Stops rest) : LexesTo U fl (ds ++ ('.' :: (es ++ rest)))
      (.ok (.float (fl.parse (ds ++ '.' :: es)), rest)) := by
  have hhyphen (r : List Char) : '.' :: (es ++ rest) ≠ '-' :: r :=
    fun h => absurd (List.cons.inj h).1 (by decide)
  have hdot : ('.' :: (es ++ rest)).takeWhile isDigit = [] ∧
      ('.' :: (es ++ rest)).dropWhile isDigit = '.' :: (es ++ rest) := ⟨rfl, rfl⟩
  have hdate := scanDatetime_digits hds.2 hdot hhyphen
  have hnumber : takeNumber fl (ds ++ ('.' :: (es ++ rest))) =
      (.float (fl.parse (ds ++ '.' :: es)), rest) := takeNumber_fraction hds hes hrest
  cases ds with
  | nil => exact absurd rfl hds.1
  | cons d ds => exact lexToken_digit (hds.2 d List.mem_cons_self) hdate hnumber

theorem lexesTo_dateTime {s : String} (h : scanDatetime s.toList = some (s.toList, []))
    (hrest : Stops rest) :
    LexesTo U fl (s.toList ++ rest) (.ok (.dateTime s, rest)) := by
  have hagain := scanDatetime_again h hrest
  rcases Option.map_eq_some_iff.mp h with ⟨w, hw, -⟩
  have hhead : ∃ c r, s.toList = c :: r ∧ isDigit c = true := by
    rcases Option.bind_eq_some_iff.mp hw with ⟨y, hy, -⟩
    cases hs : s.toList with
    | nil =>
        rw [hs] at hy
        cases hy
    | cons c r =>
        refine ⟨c, r, rfl, ?_⟩
        have hdigits := twoDigits_digits hy
        have happ := (twoDigits_append hy).1
        have hlen := (twoDigits_append hy).2.1
        rw [hs] at happ
        cases hy₁ : y.1 with
        | nil =>
            rw [hy₁] at hlen
            cases hlen
        | cons d ds =>
            rw [hy₁] at happ hdigits
            rw [← (List.cons.inj happ).1]
            exact hdigits d List.mem_cons_self
  rcases hhead with ⟨c, r, hs, hc⟩
  rw [hs, List.cons_append] at hagain ⊢
  refine ⟨c, r ++ rest, rfl, skip_cons (whitespace_digit hc) (digit_ne hc (by decide)), ?_⟩
  have hquote : ¬ (c = '"' ∨ c = '\'') := by
    rintro (h | h)
    · exact digit_ne hc (by decide) h
    · exact digit_ne hc (by decide) h
  rw [lexToken, if_neg (digit_ne hc (by decide)), if_neg hquote, if_pos hc, hagain]
  change Except.ok (Tok.dateTime (String.ofList (c :: r)), rest) = _
  rw [← hs, String.ofList_toList]

theorem lexesTo_ident {s : String} (h : Lexed U (.ident s : Tok F)) (hrest : Stops rest) :
    LexesTo U fl (s.toList ++ rest) (.ok (.ident s, rest)) := by
  rcases h with ⟨c, g, b, hs, hstart, hspace, hglued, hb⟩
  rcases identStart_ne hstart with ⟨h₁, h₂, h₃, h₄⟩
  have hends : EndsName U (b ++ rest) := by
    rcases hb with rfl | rfl
    · exact hrest.endsName
    · exact endsName_bang rest
  have hbang : bang (b ++ rest) = (b, rest) := by
    rcases hb with rfl | rfl
    · rcases hrest with rfl | ⟨r, rfl⟩
      · rfl
      · rfl
    · rfl
  have hagain := glued_again g hends
  rw [hglued] at hagain
  have hname : String.ofList (c :: (g ++ b)) = s := by rw [← hs, String.ofList_toList]
  refine ⟨c, g ++ (b ++ rest), ?_, skip_cons hspace h₄, ?_⟩
  · rw [hs, List.cons_append, List.append_assoc]
  · rw [lexToken, if_neg h₁, if_neg h₂, if_neg (by rw [h₃]; exact Bool.false_ne_true),
      if_pos hstart]
    simp only [hagain, hbang, hname]

theorem lexesTo_var {s : String} (h : Lexed U (.var s : Tok F)) (hrest : Stops rest) :
    LexesTo U fl ('$' :: (s.toList ++ rest)) (.ok (.var s, rest)) := by
  rcases h with ⟨hhead, hglued⟩
  have hspace : U.isWhitespace '$' = false := by
    rw [U.whitespace_ascii '$' (by decide)]
    decide
  have hagain := glued_again s.toList (hrest.endsName (U := U))
  rw [hglued] at hagain
  have hfirst : (s.toList ++ rest).head?.any (isIdentChar U) = true := by
    cases hs : s.toList with
    | nil =>
        rw [hs] at hhead
        cases hhead
    | cons c r =>
        rw [hs] at hhead
        exact hhead
  refine ⟨'$', s.toList ++ rest, rfl, skip_cons hspace (by decide), ?_⟩
  rw [lexToken, if_pos rfl, if_pos hfirst, hagain, String.ofList_toList]

theorem lexesTo_str (s : String) : LexesTo U fl ('"' :: (s.toList ++ '"' :: rest))
    ((readString '"' (s.toList ++ '"' :: rest)).map fun v => (.str (String.ofList v.1), v.2)) := by
  have hspace : U.isWhitespace '"' = false := by
    rw [U.whitespace_ascii '"' (by decide)]
    decide
  refine ⟨'"', s.toList ++ '"' :: rest, rfl, skip_cons hspace (by decide), ?_⟩
  rw [lexToken, if_neg (by decide), if_pos (.inl rfl)]

theorem lexesTo_str_plain {s : String} (hq : '"' ∉ s.toList) (hb : '\\' ∉ s.toList) :
    LexesTo U fl ('"' :: (s.toList ++ '"' :: rest)) (.ok (.str s, rest)) := by
  have hread : readString '"' (s.toList ++ '"' :: rest) = .ok (s.toList, rest) :=
    readString_plain hq hb
  have hout : ((readString '"' (s.toList ++ '"' :: rest)).map fun v =>
      (Tok.str (String.ofList v.1), v.2)) =
        (.ok (.str s, rest) : Except String (Tok F × List Char)) := by
    rw [hread]
    change Except.ok (Tok.str (String.ofList s.toList), rest) = _
    rw [String.ofList_toList]
  exact hout ▸ lexesTo_str s

/-- The characters that symbols start with. -/
def Opens (c : Char) : Prop :=
  c.toNat < 128 ∧ c.isAlpha = false ∧ c ≠ '_' ∧ c ≠ '$' ∧ ¬ (c = '"' ∨ c = '\'') ∧
    isDigit c = false ∧ c ≠ '#' ∧ ¬ (c = ' ' ∨ 9 ≤ c.toNat ∧ c.toNat ≤ 13)

instance (c : Char) : Decidable (Opens c) := by
  unfold Opens
  infer_instance

theorem lexesTo_symbol {c : Char} (hc : Opens c) {r : List Char} :
    LexesTo U fl (c :: r) (takeSymbol (c :: r)) := by
  rcases hc with ⟨hascii, halpha, hunder, h₁, h₂, h₃, h₄, hspace⟩
  have hstart : isIdentStart U c = false := by
    rw [identStart_ascii hascii, halpha, decide_eq_false hunder]
    rfl
  have hwhite : U.isWhitespace c = false := by
    rw [U.whitespace_ascii c hascii, decide_eq_false hspace]
  refine ⟨c, r, rfl, skip_cons hwhite h₄, ?_⟩
  rw [lexToken, if_neg h₁, if_neg h₂, if_neg (by rw [h₃]; exact Bool.false_ne_true),
    if_neg (by rw [hstart]; exact Bool.false_ne_true)]

theorem lexesTo_sym {s : String} (h : s ∈ symbols) (hrest : Stops rest) :
    LexesTo U fl (s.toList ++ rest) (.ok (.sym s, rest)) := by
  simp only [symbols, List.mem_cons, List.not_mem_nil, or_false] at h
  rcases hrest with rfl | ⟨r, rfl⟩
  · rcases h with rfl | rfl | rfl | rfl | rfl | rfl | rfl | rfl | rfl | rfl | rfl | rfl | rfl |
      rfl | rfl | rfl | rfl | rfl | rfl | rfl | rfl | rfl | rfl | rfl | rfl | rfl | rfl
    all_goals exact lexesTo_symbol (by decide)
  · rcases h with rfl | rfl | rfl | rfl | rfl | rfl | rfl | rfl | rfl | rfl | rfl | rfl | rfl |
      rfl | rfl | rfl | rfl | rfl | rfl | rfl | rfl | rfl | rfl | rfl | rfl | rfl | rfl
    all_goals exact lexesTo_symbol (by decide)

theorem lexesTo_print {t : Tok F} (ht : Lexed U t) (hp : Plain fl t) (hrest : Stops rest) :
    LexesTo U fl (print fl t ++ rest) (.ok (t, rest)) := by
  cases t with
  | ident s => exact lexesTo_ident ht hrest
  | var s => exact lexesTo_var ht hrest
  | str s =>
      rw [print_str, List.cons_append, List.append_assoc]
      exact lexesTo_str_plain hp.1 hp.2
  | int n =>
      rcases printNat_spec n with ⟨hdigits, hdecimal⟩
      have hlt : n < 2 ^ 63 := ht
      have hlex : LexesTo U fl (printNat n ++ rest) (.ok (intOrFloat fl (printNat n), rest)) :=
        lexesTo_digits hdigits hrest
      rw [intOrFloat, hdecimal, if_pos hlt] at hlex
      exact hlex
  | float f =>
      have hparse := fl.parse_print f hp.1
      cases hwhole : fl.whole f with
      | none =>
          rcases fl.print_fraction f hp.1 hwhole with ⟨ds, es, hds, hes, hprint⟩
          have hlex : LexesTo U fl (ds ++ ('.' :: (es ++ rest))) _ :=
            lexesTo_fraction hds hes hrest
          rw [← hprint, hparse] at hlex
          rw [print_float, hprint, List.append_assoc]
          exact hlex
      | some n =>
          rcases fl.print_whole f n hp.1 hwhole with ⟨hdigits, hvalue⟩
          have hwide : ¬ decimal (fl.print f) < 2 ^ 63 :=
            fun h => absurd (hvalue.mp h) (Nat.not_lt.mpr (hp.2 n hwhole))
          have hlex : LexesTo U fl (fl.print f ++ rest)
              (.ok (intOrFloat fl (fl.print f), rest)) := lexesTo_digits hdigits hrest
          rw [intOrFloat, if_neg hwide, hparse] at hlex
          exact hlex
  | dateTime s => exact lexesTo_dateTime ht hrest
  | sym s => exact lexesTo_sym ht hrest
  | eof => exact ht.elim

theorem lexed_inf : Lexed U (.ident "inf" : Tok F) := by
  have hstart : isIdentStart U 'i' = true := by
    rw [identStart_ascii (by decide)]
    decide
  have hspace : U.isWhitespace 'i' = false := by
    rw [U.whitespace_ascii 'i' (by decide)]
    decide
  have hn : isIdentChar U 'n' = true := by
    rw [identChar_ascii (by decide)]
    decide
  have hf : isIdentChar U 'f' = true := by
    rw [identChar_ascii (by decide)]
    decide
  refine ⟨'i', ['n', 'f'], [], rfl, hstart, hspace, ?_, .inl rfl⟩
  simp only [glued, hn, hf, Bool.true_or, if_true]

/-- A token that is not plain becomes another one, or none. -/
theorem lexesTo_print_ne {t : Tok F} (hp : ¬ Plain fl t) (hrest : Stops rest) :
    ∃ out, LexesTo U fl (print fl t ++ rest) out ∧ ∀ rest', out ≠ .ok (t, rest') := by
  cases t with
  | str s =>
      refine ⟨(readString '"' (s.toList ++ '"' :: rest)).map fun v =>
        (.str (String.ofList v.1), v.2), ?_, fun rest' h => ?_⟩
      · rw [print_str, List.cons_append, List.append_assoc]
        exact lexesTo_str s
      · rcases ExceptRules.map_eq_ok.mp h with ⟨v, hv, heq⟩
        have hvalue : v.1 = s.toList := by
          have hstr : String.ofList v.1 = s := Tok.str.inj (Prod.mk.inj heq).1
          rw [← hstr, String.toList_ofList]
        have hbad : '"' ∈ s.toList ∨ '\\' ∈ s.toList := by
          by_contra hnone
          rcases not_or.mp hnone with ⟨h₁, h₂⟩
          exact hp ⟨h₁, h₂⟩
        exact readString_ne hbad hv hvalue
  | float f =>
      cases hfinite : fl.isFinite f with
      | false =>
          refine ⟨.ok (.ident "inf", rest), ?_, ?_⟩
          · rw [print_float, fl.print_infinite f hfinite]
            exact lexesTo_ident lexed_inf hrest
          · intro rest' h
            cases (Prod.mk.inj (Except.ok.inj h)).1
      | true =>
          have hsmall : ∃ n, fl.whole f = some n ∧ n < 2 ^ 63 := by
            by_contra hnone
            refine hp ⟨hfinite, fun n hn => ?_⟩
            by_contra hlt
            exact hnone ⟨n, hn, Nat.not_le.mp hlt⟩
          rcases hsmall with ⟨n, hn, hlt⟩
          rcases fl.print_whole f n hfinite hn with ⟨hdigits, hvalue⟩
          have hlex : LexesTo U fl (fl.print f ++ rest)
              (.ok (intOrFloat fl (fl.print f), rest)) := lexesTo_digits hdigits hrest
          refine ⟨_, hlex, fun rest' h => ?_⟩
          rw [intOrFloat, if_pos (hvalue.mpr hlt)] at h
          cases (Prod.mk.inj (Except.ok.inj h)).1
  | ident | var | int | dateTime | sym | eof => exact absurd trivial hp

end Relexing

section Sequences

variable {F : Type} {U : Unicode} {fl : Floats F}

theorem whitespace_of_skip {src r : List Char} {c : Char} (h : skip U src = c :: r) :
    U.isWhitespace c = false := by
  have hfrom (b : Bool) (src : List Char) (h : skipFrom U b src = c :: r) :
      U.isWhitespace c = false := by
    induction src generalizing b with
    | nil => cases b <;> cases h
    | cons d src ih =>
        cases b with
        | true => exact ih _ h
        | false =>
            rw [skipFrom] at h
            split at h
            · exact ih _ h
            · split at h
              · exact ih _ h
              next hspace _ =>
                rw [← (List.cons.inj h).1]
                simpa using hspace
  exact hfrom false src h

theorem glued_glued (cs : List Char) : (glued U (glued U cs).1).1 = (glued U cs).1 := by
  have h := glued_again (U := U) cs (Stops.endsName (.inl rfl))
  rw [List.append_nil] at h
  rw [h]

theorem lexToken_lexed {c : Char} {r rest : List Char} {t : Tok F}
    (hspace : U.isWhitespace c = false) (h : lexToken U fl c r = .ok (t, rest)) : Lexed U t := by
  unfold lexToken at h
  split at h
  · split at h
    next hhead =>
      rw [← (Prod.mk.inj (Except.ok.inj h)).1]
      refine ⟨?_, ?_⟩
      · rw [String.toList_ofList]
        cases r with
        | nil => cases hhead
        | cons d r =>
            have hd : isIdentChar U d = true := hhead
            rw [glued, hd, Bool.true_or, if_pos rfl]
            exact hd
      · rw [String.toList_ofList]
        exact glued_glued r
    next => cases h
  split at h
  · rcases ExceptRules.map_eq_ok.mp h with ⟨v, -, hv⟩
    rw [← (Prod.mk.inj hv).1]
    trivial
  split at h
  · split at h
    next v hdate =>
      rw [← (Prod.mk.inj (Except.ok.inj h)).1]
      have hagain := scanDatetime_again hdate (.inl rfl)
      rw [List.append_nil] at hagain
      rw [Lexed, String.toList_ofList]
      exact hagain
    next =>
      have hint (ds : List Char) : Lexed U (intOrFloat fl ds) := by
        unfold intOrFloat
        split
        next hlt => exact hlt
        next => trivial
      have htok := congrArg Prod.fst (Except.ok.inj h)
      dsimp only [takeNumber] at htok
      rw [← htok]
      split
      · exact hint _
      · trivial
  split at h
  next hstart =>
    rw [← (Prod.mk.inj (Except.ok.inj h)).1]
    refine ⟨c, (glued U r).1, (bang (glued U r).2).1, String.toList_ofList, hstart, hspace,
      glued_glued r, ?_⟩
    cases (glued U r).2 with
    | nil => exact .inl rfl
    | cons d r =>
        rw [bang]
        split
        next hd => exact .inr (by rw [hd])
        next => exact .inl rfl
  next =>
    unfold takeSymbol at h
    split at h
    next s hs =>
      rw [← (Prod.mk.inj (Except.ok.inj h)).1]
      exact List.mem_of_find?_eq_some hs
    next => cases h

/-- The tokens of a text, and the end behind them. -/
theorem lex_lexed {src : List Char} {ts : List (Tok F)} (h : lex U fl src = .ok ts) :
    ∃ init, ts = init ++ [Tok.eof] ∧ ∀ t ∈ init, Lexed U t := by
  induction hlen : src.length using Nat.strongRecOn generalizing src ts with
  | ind len ih =>
      cases hskip : skip U src with
      | nil =>
          rw [lex_of_nil hskip] at h
          exact ⟨[], (Except.ok.inj h).symm, fun t ht => absurd ht List.not_mem_nil⟩
      | cons c r =>
          cases htok : lexToken U fl c r with
          | error e =>
              rw [lex_of_error hskip htok] at h
              cases h
          | ok v =>
              have htake := lexToken_length htok
              have hshort := skipFrom_length (U := U) false src
              rw [show skipFrom U false src = c :: r from hskip] at hshort
              rw [lex_of_token hskip htok] at h
              rcases ExceptRules.map_eq_ok.mp h with ⟨us, hus, rfl⟩
              rcases ih v.2.length (by omega) hus rfl with ⟨init, rfl, hall⟩
              refine ⟨v.1 :: init, rfl, List.forall_mem_cons.mpr ⟨?_, hall⟩⟩
              exact lexToken_lexed (whitespace_of_skip hskip) htok

theorem lex_eq_of_skip {src src' : List Char} (h : skip U src = skip U src') :
    lex U fl src = lex U fl src' := by
  cases hskip : skip U src' with
  | nil => rw [lex_of_nil (h.trans hskip), lex_of_nil hskip]
  | cons c r =>
      cases htok : lexToken U fl c r with
      | error e => rw [lex_of_error (h.trans hskip) htok, lex_of_error hskip htok]
      | ok v => rw [lex_of_token (h.trans hskip) htok, lex_of_token hskip htok]

/-- Tokens printed with blanks between them. -/
def printAll (fl : Floats F) (ts : List (Tok F)) : List Char :=
  List.intercalate [' '] (ts.map (print fl))

theorem printAll_cons (t : Tok F) (ts : List (Tok F)) : ∃ rest,
    printAll fl (t :: ts) = print fl t ++ rest ∧ Stops rest ∧
      lex U fl rest = lex U fl (printAll fl ts) := by
  cases ts with
  | nil =>
      refine ⟨[], ?_, .inl rfl, rfl⟩
      simp [printAll]
  | cons u ts =>
      refine ⟨' ' :: printAll fl (u :: ts), ?_, .inr ⟨_, rfl⟩, lex_eq_of_skip (skip_space _)⟩
      simp [printAll, List.intercalate_cons_cons]

/-- Printed tokens are lexed as themselves exactly when all of them are plain. -/
theorem lex_printAll_iff {ts : List (Tok F)} (hts : ∀ t ∈ ts, Lexed U t) :
    lex U fl (printAll fl ts) = .ok (ts ++ [Tok.eof]) ↔ ∀ t ∈ ts, Plain fl t := by
  induction ts with
  | nil => exact iff_of_true (lex_of_nil rfl) fun t ht => absurd ht List.not_mem_nil
  | cons t ts ih =>
      rcases List.forall_mem_cons.mp hts with ⟨ht, hrest⟩
      rcases @printAll_cons _ U fl t ts with ⟨rest, hprint, hstops, hlex⟩
      rw [hprint, List.forall_mem_cons, ← ih hrest, ← hlex]
      by_cases hp : Plain fl t
      · rcases (lexesTo_print ht hp hstops).token with ⟨c, r, hsrc, hskip, htok⟩
        rw [hsrc, lex_of_token hskip htok]
        constructor
        · intro h
          rcases ExceptRules.map_eq_ok.mp h with ⟨us, hus, heq⟩
          exact ⟨hp, hus.trans (congrArg _ (List.cons.inj heq).2)⟩
        · rintro ⟨-, h⟩
          rw [h]
          rfl
      · rcases lexesTo_print_ne (U := U) hp hstops with ⟨out, hout, hne⟩
        rcases hout.token with ⟨c, r, hsrc, hskip, htok⟩
        refine iff_of_false (fun h => ?_) fun h => hp h.1
        rw [hsrc] at h
        cases hres : out with
        | error e =>
            rw [lex_of_error hskip (htok.trans hres)] at h
            cases h
        | ok v =>
            rw [lex_of_token hskip (htok.trans hres)] at h
            rcases ExceptRules.map_eq_ok.mp h with ⟨us, -, heq⟩
            have hv : v.1 = t := (List.cons.inj heq).1
            exact hne v.2 (hres.trans (by rw [← hv]))

/-- Plain tokens in front of a text are lexed as themselves. -/
theorem lex_printAll_append {ts : List (Tok F)} (hts : ∀ t ∈ ts, Lexed U t ∧ Plain fl t)
    {rest : List Char} (hrest : Stops rest) :
    lex U fl (printAll fl ts ++ rest) = (lex U fl rest).map fun us => ts ++ us := by
  induction ts with
  | nil => cases h : lex U fl rest <;> exact h
  | cons t ts ih =>
      rcases List.forall_mem_cons.mp hts with ⟨⟨ht, hp⟩, hall⟩
      have htail : ∃ tail, printAll fl (t :: ts) ++ rest = print fl t ++ tail ∧ Stops tail ∧
          lex U fl tail = lex U fl (printAll fl ts ++ rest) := by
        cases ts with
        | nil => exact ⟨rest, by simp [printAll], hrest, rfl⟩
        | cons u ts =>
            refine ⟨' ' :: (printAll fl (u :: ts) ++ rest), ?_, .inr ⟨_, rfl⟩,
              lex_eq_of_skip (skip_space _)⟩
            simp [printAll, List.intercalate_cons_cons]
      rcases htail with ⟨tail, hprint, hstops, hlex⟩
      rcases (lexesTo_print ht hp hstops).token with ⟨c, r, hsrc, hskip, htok⟩
      rw [hprint, hsrc, lex_of_token hskip htok, hlex, ih hall]
      cases lex U fl rest <;> rfl

end Sequences

end OntologicalDb.TokenPrinting
