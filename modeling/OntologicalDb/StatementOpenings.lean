import Mathlib
import OntologicalDb.StatementRedaction

/-!
The opening words of a text: those by which the gateway tells what it asks the engine about, those
by which the engine's translator knows a statement, and those of PostgreSQL's own statements.
-/

namespace OntologicalDb.StatementOpenings

open OntologicalDb.BoltSession (is_whitespace)
open OntologicalDb.StatementRedaction

section Gateway

/-- Comments off a text that starts without blanks. -/
def leadFrom (s : List Char) : List Char :=
  if s.take 2 = ['-', '-'] then leadFrom ((behindLine (s.drop 2)).dropWhile is_whitespace)
  else if s.take 2 = ['/', '*'] then leadFrom ((behindBlock (s.drop 2)).dropWhile is_whitespace)
  else s
termination_by s.length
decreasing_by
  · rename_i h
    have hline := length_behindLine_le (s.drop 2)
    have hdrop := (@List.dropWhile_suffix _ (behindLine (s.drop 2)) is_whitespace).length_le
    have hpos : 0 < s.length := pos_of_take (by rw [h]; decide)
    rw [List.length_drop] at hline
    omega
  · rename_i h
    have hblock := length_behindBlock_le (s.drop 2)
    have hdrop := (@List.dropWhile_suffix _ (behindBlock (s.drop 2)) is_whitespace).length_le
    have hpos : 0 < s.length := pos_of_take (by rw [h]; decide)
    rw [List.length_drop] at hblock
    omega

/-- Leading white space and comments off. -/
def lead (sql : List Char) : List Char := leadFrom (sql.dropWhile is_whitespace)

/-- The text behind so many bytes of UTF-8; none where they end inside a character. -/
def behindBytes : Nat → List Char → Option (List Char)
  | 0, s => some s
  | _ + 1, [] => none
  | n + 1, c :: r => if c.utf8Size ≤ n + 1 then behindBytes (n + 1 - c.utf8Size) r else none

def opensParen (s : List Char) : Bool := (s.dropWhile is_whitespace).head? = some '('

def among (words : List String) (w : List Char) : Bool := words.any fun x => w = x.toList

def upper (w : List Char) : List Char := w.map Char.toUpper

/-- What the first two words say, a parenthesis behind the first and a word ENGINE being told. -/
def claimed (w0 w1 : List Char) (paren engine : Bool) : Bool :=
  if among ["MATCH", "OPTIONAL", "UNWIND", "RETURN", "DETACH", "MATERIALIZE", "USE"] w0 then true
  else if w0 = "MERGE".toList then paren
  else if w0 = "CREATE".toList then
    paren || among ["DATASOURCE", "VIRTUAL", "GRAPH"] w1 || (w1 = "DATABASE".toList && engine)
  else if w0 = "DROP".toList then among ["DATASOURCE", "VIRTUAL"] w1
  else if w0 = "SHOW".toList then among ["DATASOURCES", "TABLES", "VIRTUAL", "GRAPHS"] w1
  else if w0 = "REFRESH".toList then w1 = "DATASOURCE".toList
  else w0 = "EXPLAIN".toList && w1 = "FABRIC".toList

/-- The gateway's words are of ASCII letters, digits and underscores. -/
def is_fabric (sql : List Char) : Bool :=
  let s := lead sql
  let w0 := (first_words asciiLetters s 2).headD []
  let w1 := (first_words asciiLetters s 2).tail.headD []
  claimed w0 w1 (opensParen ((behindBytes w0.length s).getD [])) (namesEngine (' ' :: s))

end Gateway

section Translator

variable (u : Letters)

/-- None where the text is cut inside a character. -/
def is_cypher (s : List Char) : Option Bool :=
  let w := (first_words u s 1).headD []
  if among ["MATCH", "OPTIONAL", "MERGE", "UNWIND", "RETURN", "DETACH"] w then some true
  else if w = "CREATE".toList then (behindBytes 6 s).map opensParen
  else some false

/-- Blanks and line comments off, as between two tokens. -/
def skipBlanks : Bool → List Char → List Char
  | _, [] => []
  | true, c :: r => skipBlanks (c ≠ '\n') r
  | false, c :: r =>
      if is_whitespace c then skipBlanks false r
      else if c = '-' ∧ r.head? = some '-' then skipBlanks true r
      else c :: r

/-- The next token, if it is a word or a quoted name, and the text behind it. -/
def nextWord (s : List Char) : Option (List Char × List Char) :=
  match skipBlanks false s with
  | [] => none
  | c :: r =>
      if c = '"' then
        if '"' ∈ r then some (r.takeWhile fun d => d ≠ '"', (r.dropWhile fun d => d ≠ '"').tail)
        else none
      else if isWord u c then some ((c :: r).takeWhile (isWord u), (c :: r).dropWhile (isWord u))
      else none

def secondToken (r : List Char) : List Char := upper (((nextWord u r).map Prod.fst).getD [])

/-- Whether the first tokens are those of one of the statements, so that what is wrong behind them
is reported as such and the text is not said to be no fabric statement. -/
def opens (s : List Char) : Bool :=
  match nextWord u s with
  | none => false
  | some (w, r) =>
      if upper w = "CREATE".toList then
        among ["GRAPH", "DATASOURCE", "DATABASE", "VIRTUAL"] (secondToken u r)
      else if upper w = "DROP".toList then among ["DATASOURCE", "VIRTUAL"] (secondToken u r)
      else if upper w = "SHOW".toList then
        among ["GRAPHS", "DATASOURCES", "TABLES", "VIRTUAL"] (secondToken u r)
      else among ["REFRESH", "MATERIALIZE", "USE"] (upper w)

/-- The statements that the translator knows: Cypher, an explained query, and those it reads token
by token. -/
def recognises (stmt : List Char) : Bool :=
  let s := trim_statement stmt
  is_cypher u s = some true || first_words u s 2 = ["EXPLAIN".toList, "FABRIC".toList] || opens u s

end Translator

section Characters

variable {u : Letters} {c : Char}

/-- White space of PostgreSQL's lexer. -/
def isBlank (c : Char) : Bool := c.toNat < 128 && is_whitespace c

theorem isWord_ascii (h : c.toNat < 128) : isWord u c = isWord asciiLetters c := by
  unfold isWord
  rw [u.ascii c h]
  rfl

/-- Where a character of a word of the gateway may lie. -/
theorem toNat_of_word (h : isWord asciiLetters c = true) :
    (48 ≤ c.toNat ∧ c.toNat ≤ 57) ∨ (65 ≤ c.toNat ∧ c.toNat ≤ 90) ∨ c.toNat = 95 ∨
      (97 ≤ c.toNat ∧ c.toNat ≤ 122) := by
  have hval : c.toNat = c.val.toNat := rfl
  unfold isWord at h
  rw [Bool.or_eq_true, decide_eq_true_eq] at h
  rcases h with h | rfl
  · simp only [asciiLetters, Char.isAlphanum, Char.isAlpha, Char.isUpper, Char.isLower,
      Char.isDigit, Bool.or_eq_true, Bool.and_eq_true, decide_eq_true_eq, ge_iff_le,
      UInt32.le_iff_toNat_le] at h
    simp at h
    omega
  · decide

theorem not_blank_of_word (h : isWord asciiLetters c = true) : is_whitespace c = false := by
  have hc := toNat_of_word h
  unfold is_whitespace
  rw [Bool.or_eq_false_iff, Bool.or_eq_false_iff]
  refine ⟨⟨?_, ?_⟩, ?_⟩
  · rw [Bool.and_eq_false_iff, decide_eq_false_iff_not, decide_eq_false_iff_not]
    omega
  · rw [Bool.and_eq_false_iff, decide_eq_false_iff_not, decide_eq_false_iff_not]
    omega
  · simp only [List.contains_eq_mem, List.mem_cons, List.not_mem_nil, or_false,
      decide_eq_false_iff_not]
    omega

theorem isWord_of_word (h : isWord asciiLetters c = true) : isWord u c = true := by
  have hc := toNat_of_word h
  rw [isWord_ascii (by omega), h]

theorem not_isWord_of_blank (h : isBlank c = true) : isWord u c = false := by
  rw [isBlank, Bool.and_eq_true, decide_eq_true_eq] at h
  rw [isWord_ascii h.1, Bool.eq_false_iff]
  intro hw
  have hnot := not_blank_of_word hw
  rw [h.2] at hnot
  cases hnot

theorem ne_of_word {d : Char} (h : isWord asciiLetters c = true)
    (hd : isWord asciiLetters d = false) : c ≠ d := by
  rintro rfl
  rw [h] at hd
  cases hd

theorem utf8Size_of_word (h : isWord asciiLetters c = true) : c.utf8Size = 1 := by
  have hc := toNat_of_word h
  have hval : c.toNat = c.val.toNat := rfl
  unfold Char.utf8Size
  rw [if_pos]
  rw [UInt32.le_iff_toNat_le]
  change c.val.toNat ≤ 127
  omega

end Characters

section Words

variable {u : Letters} {w b r : List Char}

structure Word (w : List Char) : Prop where
  ne_nil : w ≠ []
  chars : ∀ c ∈ w, isWord asciiLetters c = true

/-- No word goes on in the text. -/
def Apart (u : Letters) (r : List Char) : Prop := ∀ c ∈ r.head?, isWord u c = false

theorem Apart.ascii (h : Apart u r) : Apart asciiLetters r := by
  intro c hc
  rw [Bool.eq_false_iff]
  intro hw
  have hnot := h c hc
  rw [isWord_of_word hw] at hnot
  cases hnot

theorem apart_of_prefix {z : List Char} (h : Apart u r) (hz : z <+: r) : Apart u z := by
  cases z with
  | nil => exact fun c hc => by cases hc
  | cons d z =>
      rcases hz with ⟨y, rfl⟩
      exact h

theorem apart_blanks (hb : ∀ c ∈ b, isBlank c = true) (hne : b ≠ []) : Apart u (b ++ r) := by
  cases b with
  | nil => exact absurd rfl hne
  | cons d b =>
      intro c hc
      cases hc
      exact not_isWord_of_blank (hb d List.mem_cons_self)

theorem wordsFrom_word {acc : List Char} (hw : ∀ c ∈ w, isWord u c = true) (hr : Apart u r)
    (hne : acc ++ w ≠ []) : wordsFrom u acc (w ++ r) = (acc ++ w) :: wordsFrom u [] r := by
  induction w generalizing acc with
  | nil =>
      rw [List.append_nil] at hne ⊢
      cases r with
      | nil => rw [List.nil_append, wordsFrom, if_neg hne, wordsFrom, if_pos rfl]
      | cons d r =>
          rw [List.nil_append, wordsFrom, hr d rfl, if_neg Bool.false_ne_true, if_neg hne,
            wordsFrom, hr d rfl, if_neg Bool.false_ne_true, if_pos rfl]
  | cons c w ih =>
      have hacc : (acc ++ [c]) ++ w ≠ [] := by simp
      rw [List.cons_append, wordsFrom, if_pos (hw c List.mem_cons_self),
        ih (fun d hd => hw d (List.mem_cons_of_mem c hd)) hacc, List.append_assoc]
      rfl

theorem wordsFrom_blanks (hb : ∀ c ∈ b, isBlank c = true) :
    wordsFrom u [] (b ++ r) = wordsFrom u [] r := by
  induction b with
  | nil => rfl
  | cons c b ih =>
      rw [List.cons_append, wordsFrom, not_isWord_of_blank (hb c List.mem_cons_self),
        if_neg Bool.false_ne_true, if_pos rfl]
      exact ih fun d hd => hb d (List.mem_cons_of_mem c hd)

theorem first_words_word (hw : Word w) (hr : Apart u r) (n : Nat) :
    first_words u (w ++ r) (n + 1) = upper w :: first_words u r n := by
  have hne : [] ++ w ≠ [] := hw.ne_nil
  unfold first_words
  rw [wordsFrom_word (fun c hc => isWord_of_word (hw.chars c hc)) hr hne, List.take_succ_cons,
    List.map_cons]
  rfl

theorem first_words_blanks (hb : ∀ c ∈ b, isBlank c = true) (n : Nat) :
    first_words u (b ++ r) n = first_words u r n := by
  unfold first_words
  rw [wordsFrom_blanks hb]

theorem behindBytes_word (hw : ∀ c ∈ w, isWord asciiLetters c = true) :
    behindBytes w.length (w ++ r) = some r := by
  induction w with
  | nil => exact behindBytes.eq_1 r
  | cons c w ih =>
      have hone := utf8Size_of_word (hw c List.mem_cons_self)
      rw [List.length_cons, List.cons_append, behindBytes, hone, if_pos (Nat.le_add_left 1 _),
        Nat.add_sub_cancel]
      exact ih fun d hd => hw d (List.mem_cons_of_mem c hd)

theorem is_whitespace_of_blank {c : Char} (h : isBlank c = true) : is_whitespace c = true := by
  rw [isBlank, Bool.and_eq_true] at h
  exact h.2

theorem dropWhile_blanks (hb : ∀ c ∈ b, isBlank c = true) :
    (b ++ r).dropWhile is_whitespace = r.dropWhile is_whitespace := by
  induction b with
  | nil => rfl
  | cons c b ih =>
      rw [List.cons_append, List.dropWhile_cons,
        if_pos (is_whitespace_of_blank (hb c List.mem_cons_self))]
      exact ih fun d hd => hb d (List.mem_cons_of_mem c hd)

theorem opensParen_paren (hb : ∀ c ∈ b, isBlank c = true) : opensParen (b ++ '(' :: r) = true := by
  unfold opensParen
  rw [dropWhile_blanks hb]
  rfl

theorem exists_cons (hw : Word w) : ∃ c r, w = c :: r ∧ isWord asciiLetters c = true := by
  cases w with
  | nil => exact absurd rfl hw.ne_nil
  | cons c r => exact ⟨c, r, rfl, hw.chars c List.mem_cons_self⟩

theorem opensParen_word (hb : ∀ c ∈ b, isBlank c = true) (hw : Word w) :
    opensParen (b ++ (w ++ r)) = false := by
  rcases exists_cons hw with ⟨c, w, rfl, hc⟩
  unfold opensParen
  rw [dropWhile_blanks hb, List.cons_append, List.dropWhile_cons, not_blank_of_word hc,
    if_neg Bool.false_ne_true]
  simpa using ne_of_word hc (d := '(') (by decide)

theorem skipBlanks_blanks (hb : ∀ c ∈ b, isBlank c = true) :
    skipBlanks false (b ++ r) = skipBlanks false r := by
  induction b with
  | nil => rfl
  | cons c b ih =>
      rw [List.cons_append, skipBlanks,
        if_pos (is_whitespace_of_blank (hb c List.mem_cons_self))]
      exact ih fun d hd => hb d (List.mem_cons_of_mem c hd)

theorem span_word (hw : ∀ c ∈ w, isWord u c = true) (hr : Apart u r) :
    (w ++ r).takeWhile (isWord u) = w ∧ (w ++ r).dropWhile (isWord u) = r := by
  induction w with
  | nil =>
      cases r with
      | nil => exact ⟨rfl, rfl⟩
      | cons d r =>
          rw [List.nil_append, List.takeWhile_cons, List.dropWhile_cons, hr d rfl]
          exact ⟨rfl, rfl⟩
  | cons c w ih =>
      have h := ih fun d hd => hw d (List.mem_cons_of_mem c hd)
      have hc := hw c List.mem_cons_self
      rw [List.cons_append, List.takeWhile_cons, List.dropWhile_cons, if_pos hc, if_pos hc, h.1]
      exact ⟨rfl, h.2⟩

theorem nextWord_word (hb : ∀ c ∈ b, isBlank c = true) (hw : Word w) (hr : Apart u r) :
    nextWord u (b ++ (w ++ r)) = some (w, r) := by
  have hspan := span_word (u := u) (fun c hc => isWord_of_word (hw.chars c hc)) hr
  rcases exists_cons hw with ⟨c, v, rfl, hc⟩
  have hskip : skipBlanks false ((c :: v) ++ r) = c :: (v ++ r) := by
    rw [List.cons_append, skipBlanks, not_blank_of_word hc, if_neg Bool.false_ne_true,
      if_neg fun h => ne_of_word hc (by decide) h.1]
  rw [List.cons_append] at hspan
  unfold nextWord
  rw [skipBlanks_blanks hb, hskip]
  simp only [if_neg (ne_of_word hc (d := '"') (by decide)), isWord_of_word hc, if_true, hspan]

end Words

section Front

variable {s : List Char}

/-- What may stand in front of a statement: blanks, line comments and block comments that hold no
other one, so that the first end of a comment is theirs. -/
inductive Piece
  | blank (c : Char) (h : isBlank c = true)
  | line (body : List Char) (h : '\n' ∉ body)
  | block (body : List Char) (h : behindBlock (body ++ ['*', '/']) = [])

def Piece.text : Piece → List Char
  | .blank c _ => [c]
  | .line body _ => '-' :: '-' :: (body ++ ['\n'])
  | .block body _ => '/' :: '*' :: (body ++ ['*', '/'])

def front (ps : List Piece) : List Char := ps.flatMap Piece.text

def Starts (s : List Char) : Prop := ∃ c r, s = c :: r ∧ isWord asciiLetters c = true

theorem starts_word {w r : List Char} (hw : Word w) : Starts (w ++ r) := by
  rcases exists_cons hw with ⟨c, v, rfl, hc⟩
  exact ⟨c, v ++ r, rfl, hc⟩

theorem behindLine_append {body : List Char} (h : '\n' ∉ body) :
    behindLine ((body ++ ['\n']) ++ s) = s := by
  unfold behindLine
  induction body with
  | nil => rfl
  | cons c body ih =>
      have hc : c ≠ '\n' := fun heq => h (by rw [heq]; exact List.mem_cons_self)
      rw [List.cons_append, List.cons_append, List.dropWhile_cons, if_pos (decide_eq_true hc)]
      exact ih fun hmem => h (List.mem_cons_of_mem c hmem)

theorem behindBlock_append {body : List Char} (h : behindBlock (body ++ ['*', '/']) = []) :
    behindBlock ((body ++ ['*', '/']) ++ s) = s := by
  induction body with
  | nil => rfl
  | cons c body ih =>
      have hhead : ((body ++ ['*', '/']) ++ s).head? = (body ++ ['*', '/']).head? := by
        cases body <;> rfl
      rw [List.cons_append, behindBlock] at h
      rw [List.cons_append, List.cons_append, behindBlock, hhead]
      split at h
      · have hlen := congrArg List.length h
        rw [List.length_tail, List.length_append] at hlen
        simp at hlen
      · rename_i hnot
        rw [if_neg hnot]
        exact ih h

theorem leadFrom_line (x : List Char) :
    leadFrom ('-' :: '-' :: x) = leadFrom ((behindLine x).dropWhile is_whitespace) := by
  have htake : ('-' :: '-' :: x).take 2 = ['-', '-'] := rfl
  rw [leadFrom, if_pos htake]
  rfl

theorem leadFrom_block (x : List Char) :
    leadFrom ('/' :: '*' :: x) = leadFrom ((behindBlock x).dropWhile is_whitespace) := by
  have htake : ('/' :: '*' :: x).take 2 = ['/', '*'] := rfl
  rw [leadFrom, htake, if_neg (by decide), if_pos rfl]
  rfl

theorem stripComments_block (x : List Char) :
    stripComments ('/' :: '*' :: x) = stripComments ((behindBlock x).dropWhile is_whitespace) := by
  have htake : ('/' :: '*' :: x).take 2 = ['/', '*'] := rfl
  rw [stripComments, htake, if_neg (by decide), if_pos rfl]
  rfl

theorem leadFrom_start (h : Starts s) : leadFrom (s.dropWhile is_whitespace) = s := by
  rcases h with ⟨c, r, rfl, hc⟩
  have hdash : ∀ d, d = '-' ∨ d = '/' → c ≠ d := by
    rintro d (rfl | rfl)
    · exact ne_of_word hc (by decide)
    · exact ne_of_word hc (by decide)
  rw [List.dropWhile_cons, not_blank_of_word hc, if_neg Bool.false_ne_true, leadFrom, if_neg,
    if_neg]
  · exact fun h => hdash '/' (.inr rfl) (List.cons.inj h).1
  · exact fun h => hdash '-' (.inl rfl) (List.cons.inj h).1

/-- The gateway reads a statement from its first word. -/
theorem lead_front (ps : List Piece) (h : Starts s) : lead (front ps ++ s) = s := by
  unfold lead
  induction ps with
  | nil => exact leadFrom_start h
  | cons p ps ih =>
      cases p with
      | blank c hc =>
          change leadFrom ((c :: (front ps ++ s)).dropWhile is_whitespace) = s
          rw [List.dropWhile_cons, if_pos (is_whitespace_of_blank hc)]
          exact ih
      | line body hbody =>
          have htext : front (.line body hbody :: ps) ++ s =
              '-' :: '-' :: ((body ++ ['\n']) ++ (front ps ++ s)) := by
            simp [front, Piece.text]
          rw [htext, List.dropWhile_cons, if_neg (by decide), leadFrom_line,
            behindLine_append hbody]
          exact ih
      | block body hbody =>
          have htext : front (.block body hbody :: ps) ++ s =
              '/' :: '*' :: ((body ++ ['*', '/']) ++ (front ps ++ s)) := by
            simp [front, Piece.text]
          rw [htext, List.dropWhile_cons, if_neg (by decide), leadFrom_block,
            behindBlock_append hbody]
          exact ih

theorem stripComments_start (h : Starts s) :
    stripComments (s.dropWhile is_whitespace) = s := by
  rcases h with ⟨c, r, rfl, hc⟩
  have hdash : c ≠ '-' := ne_of_word hc (by decide)
  have hslash : c ≠ '/' := ne_of_word hc (by decide)
  rw [List.dropWhile_cons, not_blank_of_word hc, if_neg Bool.false_ne_true]
  exact stripComments_of_none (fun h => hdash (List.cons.inj h).1)
    (fun h => hslash (List.cons.inj h).1) fun h => hslash (List.cons.inj h).1

/-- The engine reads it from there as well. -/
theorem stripComments_front (ps : List Piece) (h : Starts s) :
    stripComments ((front ps ++ s).dropWhile is_whitespace) = s := by
  induction ps with
  | nil => exact stripComments_start h
  | cons p ps ih =>
      cases p with
      | blank c hc =>
          change stripComments ((c :: (front ps ++ s)).dropWhile is_whitespace) = s
          rw [List.dropWhile_cons, if_pos (is_whitespace_of_blank hc)]
          exact ih
      | line body hbody =>
          have htext : front (.line body hbody :: ps) ++ s =
              '-' :: '-' :: ((body ++ ['\n']) ++ (front ps ++ s)) := by
            simp [front, Piece.text]
          rw [htext, List.dropWhile_cons, if_neg (by decide), stripComments_of_line rfl]
          change stripComments ((behindLine ((body ++ ['\n']) ++ (front ps ++ s))).dropWhile
            is_whitespace) = s
          rw [behindLine_append hbody]
          exact ih
      | block body hbody =>
          have htext : front (.block body hbody :: ps) ++ s =
              '/' :: '*' :: ((body ++ ['*', '/']) ++ (front ps ++ s)) := by
            simp [front, Piece.text]
          rw [htext, List.dropWhile_cons, if_neg (by decide), stripComments_block,
            behindBlock_append hbody]
          exact ih

theorem rdropWhile_append {p : Char → Bool} {l : List Char} (hl : l.rdropWhile p = l)
    (z : List Char) : (l ++ z).rdropWhile p = l ++ z.rdropWhile p := by
  induction z using List.reverseRecOn with
  | nil => rw [List.append_nil, hl, List.rdropWhile_nil, List.append_nil]
  | append_singleton z c ih =>
      rw [← List.append_assoc, List.rdropWhile_concat, List.rdropWhile_concat, ih]
      split
      · rfl
      · exact List.append_assoc _ _ _

/-- What the engine leaves of a text behind the part that it reads. -/
def trimEnd (z : List Char) : List Char :=
  (z.rdropWhile is_whitespace).rdropWhile fun c => c = ';' || is_whitespace c

theorem trimEnd_prefix (z : List Char) : trimEnd z <+: z :=
  ( List.rdropWhile_prefix _ _).trans ( List.rdropWhile_prefix _ _)

/-- The end of a statement that does not end with its part a is trimmed behind that part. -/
theorem trim_front (ps : List Piece) {a : List Char} {d : Char} (z : List Char)
    (hstart : ∀ r, Starts ((a ++ [d]) ++ r)) (hd : d ≠ ';') (hblank : is_whitespace d = false) :
    trim_statement (front ps ++ ((a ++ [d]) ++ z)) = (a ++ [d]) ++ trimEnd z := by
  have hneg : ¬ is_whitespace d = true := by rw [hblank]; exact Bool.false_ne_true
  have hdrop : ∀ l : List Char, ∃ m, ∀ x, ((l ++ [d]) ++ x).dropWhile is_whitespace =
      (m ++ [d]) ++ x := by
    intro l
    induction l with
    | nil =>
        refine ⟨[], fun x => ?_⟩
        change (d :: x).dropWhile is_whitespace = d :: x
        rw [List.dropWhile_cons, if_neg hneg]
    | cons c l ih =>
        rcases ih with ⟨m, hm⟩
        rcases Decidable.em (is_whitespace c = true) with hc | hc
        · refine ⟨m, fun x => ?_⟩
          rw [List.cons_append, List.cons_append, List.dropWhile_cons, if_pos hc, hm]
        · refine ⟨c :: l, fun x => ?_⟩
          rw [List.cons_append, List.cons_append, List.dropWhile_cons, if_neg hc]
  rcases hdrop (front ps ++ a) with ⟨m, hm⟩
  have hsplit (x : List Char) : front ps ++ ((a ++ [d]) ++ x) = ((front ps ++ a) ++ [d]) ++ x := by
    simp
  have hlast : ( List.rdropWhile (fun c => c = ';' || is_whitespace c) (a ++ [d])) = a ++ [d] :=
    List.rdropWhile_concat_neg _ _ _ (by simp [hd, hblank])
  unfold trim_statement trimEnd
  rw [hsplit, hm, rdropWhile_append (List.rdropWhile_concat_neg _ _ _ hneg), ← hm, ← hsplit,
    stripComments_front ps (hstart _), rdropWhile_append hlast]

end Front

/-- The texts that open as a statement of the fabric or a query: with a word that decides alone,
with a parenthesis behind the word, or with two words and blanks between them. -/
inductive Opening (u : Letters) : List Char → Prop
  | alone {w r : List Char} (hw : Word w) (hr : Apart u r)
      (hkey : among ["MATCH", "OPTIONAL", "UNWIND", "RETURN", "DETACH", "MATERIALIZE", "USE"]
        (upper w) = true) : Opening u (w ++ r)
  | paren {w b r : List Char} (hw : Word w) (hb : ∀ c ∈ b, isBlank c = true)
      (hkey : among ["MERGE", "CREATE"] (upper w) = true) : Opening u (w ++ (b ++ '(' :: r))
  | pair {w b v r : List Char} (hw : Word w) (hb : ∀ c ∈ b, isBlank c = true) (hne : b ≠ [])
      (hv : Word v) (hr : Apart u r) : Opening u (w ++ (b ++ (v ++ r)))

section Recognised

variable {u : Letters} {w b v r : List Char}

theorem is_fabric_front (ps : List Piece) (hw : Word w) (hr : Apart asciiLetters r) :
    is_fabric (front ps ++ (w ++ r)) = claimed (upper w) ((first_words asciiLetters r 1).headD [])
      (opensParen r) (namesEngine (' ' :: (w ++ r))) := by
  have hlen : (upper w).length = w.length := List.length_map _
  unfold is_fabric
  simp only [lead_front ps (starts_word hw), first_words_word hw hr, List.headD_cons,
    List.tail_cons, hlen, behindBytes_word hw.chars, Option.getD_some]

/-- A text behind its front, as the engine trims it. -/
theorem trim_word (ps : List Piece) (hw : Word w) (r : List Char) :
    trim_statement (front ps ++ (w ++ r)) = w ++ trimEnd r := by
  have hlast := hw.chars _ (List.getLast_mem hw.ne_nil)
  have hsplit := List.dropLast_append_getLast hw.ne_nil
  have h := trim_front ps (a := w.dropLast) (d := w.getLast hw.ne_nil) r
    (fun x => by rw [hsplit]; exact starts_word hw) (ne_of_word hlast (by decide))
    (not_blank_of_word hlast)
  rw [hsplit] at h
  exact h

theorem trim_paren (ps : List Piece) (hw : Word w) (r : List Char) :
    trim_statement (front ps ++ (w ++ (b ++ '(' :: r))) = w ++ (b ++ '(' :: trimEnd r) := by
  have hstart (x : List Char) : Starts (((w ++ b) ++ ['(']) ++ x) := by
    rw [List.append_assoc, List.append_assoc]
    exact starts_word hw
  have h := trim_front ps r hstart (by decide) (by decide)
  simpa using h

theorem trim_pair (ps : List Piece) (hw : Word w) (hv : Word v) (r : List Char) :
    trim_statement (front ps ++ (w ++ (b ++ (v ++ r)))) = w ++ (b ++ (v ++ trimEnd r)) := by
  have hlast := hv.chars _ (List.getLast_mem hv.ne_nil)
  have hsplit (x : List Char) :
      ((w ++ (b ++ v.dropLast)) ++ [v.getLast hv.ne_nil]) ++ x = w ++ (b ++ (v ++ x)) := by
    conv_rhs => rw [← List.dropLast_append_getLast hv.ne_nil]
    simp only [List.append_assoc]
  have h := trim_front ps r (fun x => by rw [hsplit]; exact starts_word hw)
    (ne_of_word hlast (by decide)) (not_blank_of_word hlast)
  rw [hsplit, hsplit] at h
  exact h

theorem secondToken_word (hb : ∀ c ∈ b, isBlank c = true) (hv : Word v) (hr : Apart u r) :
    secondToken u (b ++ (v ++ r)) = upper v := by
  unfold secondToken
  rw [nextWord_word hb hv hr]
  rfl

theorem nextWord_start (hw : Word w) (hr : Apart u r) : nextWord u (w ++ r) = some (w, r) :=
  nextWord_word (b := []) (fun c hc => by cases hc) hw hr

theorem is_cypher_word (hw : Word w) (hr : Apart u r)
    (hkey : among ["MATCH", "OPTIONAL", "MERGE", "UNWIND", "RETURN", "DETACH"] (upper w) = true) :
    is_cypher u (w ++ r) = some true := by
  unfold is_cypher
  rw [first_words_word hw hr 0, List.headD_cons, if_pos hkey]

theorem recognised_alone (ps : List Piece) (hw : Word w) (hr : Apart u r)
    (hkey : among ["MATCH", "OPTIONAL", "UNWIND", "RETURN", "DETACH", "MATERIALIZE", "USE"]
      (upper w) = true) : recognises u (front ps ++ (w ++ r)) = true := by
  have hz : Apart u (trimEnd r) := apart_of_prefix hr ( trimEnd_prefix r)
  unfold recognises
  simp only [trim_word ps hw r]
  rcases Decidable.em (among ["MATCH", "OPTIONAL", "MERGE", "UNWIND", "RETURN", "DETACH"]
    (upper w) = true) with hc | hc
  · rw [is_cypher_word hw hz hc]
    rfl
  · have hopens : opens u (w ++ trimEnd r) = true := by
      unfold opens
      simp only [nextWord_start hw hz]
      simp only [among, List.any_cons, List.any_nil, Bool.or_false, Bool.or_eq_true,
        decide_eq_true_eq, not_or] at hkey hc
      rcases hkey with h | h | h | h | h | h | h
      · exact absurd h hc.1
      · exact absurd h hc.2.1
      · exact absurd h hc.2.2.2.1
      · exact absurd h hc.2.2.2.2.1
      · exact absurd h hc.2.2.2.2.2
      · rw [h]
        rfl
      · rw [h]
        rfl
    rw [hopens, Bool.or_true]

theorem recognised_paren (ps : List Piece) (hw : Word w) (hb : ∀ c ∈ b, isBlank c = true)
    (hkey : among ["MERGE", "CREATE"] (upper w) = true) :
    recognises u (front ps ++ (w ++ (b ++ '(' :: r))) = true := by
  have hparen : Apart u ('(' :: trimEnd r) := by
    intro c hc
    cases hc
    rw [isWord_ascii (by decide)]
    decide
  have hz : Apart u (b ++ '(' :: trimEnd r) := by
    cases b with
    | nil => exact hparen
    | cons d b => exact apart_blanks hb (List.cons_ne_nil d b)
  unfold recognises
  simp only [trim_paren ps hw r]
  have hcypher : is_cypher u (w ++ (b ++ '(' :: trimEnd r)) = some true := by
    simp only [among, List.any_cons, List.any_nil, Bool.or_false, Bool.or_eq_true,
      decide_eq_true_eq] at hkey
    rcases hkey with h | h
    · exact is_cypher_word hw hz (by rw [h]; decide)
    · have hlen : w.length = 6 := by
        rw [← List.length_map (f := Char.toUpper)]
        exact congrArg List.length h
      unfold is_cypher
      rw [first_words_word hw hz 0, List.headD_cons, h, if_neg (by decide), if_pos rfl, ← hlen,
        behindBytes_word hw.chars, Option.map_some, opensParen_paren hb]
  rw [hcypher]
  rfl

/-- What the gateway claims by two words, the translator has among its statements. -/
theorem known_of_claimed {w0 w1 : List Char} {engine : Bool}
    (h : claimed w0 w1 false engine = true) :
    among ["MATCH", "OPTIONAL", "UNWIND", "RETURN", "DETACH", "MATERIALIZE", "USE"] w0 = true ∨
      (w0 = "CREATE".toList ∧ among ["GRAPH", "DATASOURCE", "DATABASE", "VIRTUAL"] w1 = true) ∨
      (w0 = "DROP".toList ∧ among ["DATASOURCE", "VIRTUAL"] w1 = true) ∨
      (w0 = "SHOW".toList ∧ among ["GRAPHS", "DATASOURCES", "TABLES", "VIRTUAL"] w1 = true) ∨
      w0 = "REFRESH".toList ∨ (w0 = "EXPLAIN".toList ∧ w1 = "FABRIC".toList) := by
  unfold claimed at h
  rcases Decidable.em (among ["MATCH", "OPTIONAL", "UNWIND", "RETURN", "DETACH", "MATERIALIZE",
    "USE"] w0 = true) with h7 | h7
  · exact .inl h7
  refine .inr ?_
  rw [if_neg h7] at h
  rcases Decidable.em (w0 = "MERGE".toList) with hmerge | hmerge
  · rw [if_pos hmerge] at h
    cases h
  rw [if_neg hmerge] at h
  rcases Decidable.em (w0 = "CREATE".toList) with hcreate | hcreate
  · refine .inl ⟨hcreate, ?_⟩
    rw [if_pos hcreate] at h
    simp only [among, List.any_cons, List.any_nil, Bool.or_false, Bool.or_eq_true, Bool.false_or,
      Bool.and_eq_true, decide_eq_true_eq] at h ⊢
    rcases h with (h | h | h) | ⟨h, -⟩
    · exact .inr (.inl h)
    · exact .inr (.inr (.inr h))
    · exact .inl h
    · exact .inr (.inr (.inl h))
  refine .inr ?_
  rw [if_neg hcreate] at h
  rcases Decidable.em (w0 = "DROP".toList) with hdrop | hdrop
  · rw [if_pos hdrop] at h
    exact .inl ⟨hdrop, h⟩
  refine .inr ?_
  rw [if_neg hdrop] at h
  rcases Decidable.em (w0 = "SHOW".toList) with hshow | hshow
  · refine .inl ⟨hshow, ?_⟩
    rw [if_pos hshow] at h
    simp only [among, List.any_cons, List.any_nil, Bool.or_false, Bool.or_eq_true,
      decide_eq_true_eq] at h ⊢
    rcases h with h | h | h | h
    · exact .inr (.inl h)
    · exact .inr (.inr (.inl h))
    · exact .inr (.inr (.inr h))
    · exact .inl h
  refine .inr ?_
  rw [if_neg hshow] at h
  rcases Decidable.em (w0 = "REFRESH".toList) with hrefresh | hrefresh
  · exact .inl hrefresh
  rw [if_neg hrefresh, Bool.and_eq_true, decide_eq_true_eq, decide_eq_true_eq] at h
  exact .inr h

theorem recognised_pair (ps : List Piece) (hw : Word w) (hb : ∀ c ∈ b, isBlank c = true)
    (hne : b ≠ []) (hv : Word v) (hr : Apart u r)
    (hf : is_fabric (front ps ++ (w ++ (b ++ (v ++ r)))) = true) :
    recognises u (front ps ++ (w ++ (b ++ (v ++ r)))) = true := by
  have hz : Apart u (trimEnd r) := apart_of_prefix hr ( trimEnd_prefix r)
  have hsecond := secondToken_word (u := u) hb hv hz
  have hnext := nextWord_start (u := u) hw (apart_blanks hb hne (r := v ++ trimEnd r))
  rw [is_fabric_front ps hw (apart_blanks hb hne), first_words_blanks hb,
    first_words_word hv hr.ascii 0, List.headD_cons, opensParen_word hb hv] at hf
  rcases known_of_claimed hf with h | ⟨h, hsnd⟩ | ⟨h, hsnd⟩ | ⟨h, hsnd⟩ | h | ⟨h, hsnd⟩
  · exact recognised_alone ps hw (apart_blanks hb hne) h
  all_goals
    unfold recognises
    simp only [trim_pair ps hw hv r]
  · have hopens : opens u (w ++ (b ++ (v ++ trimEnd r))) = true := by
      unfold opens
      simp only [hnext, hsecond]
      rw [h, if_pos rfl]
      exact hsnd
    rw [hopens, Bool.or_true]
  · have hopens : opens u (w ++ (b ++ (v ++ trimEnd r))) = true := by
      unfold opens
      simp only [hnext, hsecond]
      rw [h, if_neg (by decide), if_pos rfl]
      exact hsnd
    rw [hopens, Bool.or_true]
  · have hopens : opens u (w ++ (b ++ (v ++ trimEnd r))) = true := by
      unfold opens
      simp only [hnext, hsecond]
      rw [h, if_neg (by decide), if_neg (by decide), if_pos rfl]
      exact hsnd
    rw [hopens, Bool.or_true]
  · have hopens : opens u (w ++ (b ++ (v ++ trimEnd r))) = true := by
      unfold opens
      simp only [hnext]
      rw [h, if_neg (by decide), if_neg (by decide), if_neg (by decide)]
      decide
    rw [hopens, Bool.or_true]
  · rw [first_words_word hw (apart_blanks hb hne) 1, first_words_blanks hb,
      first_words_word hv hz 0, h, hsnd]
    have hnil : first_words u (trimEnd r) 0 = [] := rfl
    rw [hnil]
    simp

theorem recognised_of_claimed (ps : List Piece) {s : List Char} (h : Opening u s)
    (hf : is_fabric (front ps ++ s) = true) : recognises u (front ps ++ s) = true := by
  cases h with
  | alone hw hr hkey => exact recognised_alone ps hw hr hkey
  | paren hw hb hkey => exact recognised_paren ps hw hb hkey
  | pair hw hb hne hv hr => exact recognised_pair ps hw hb hne hv hr hf

end Recognised

section Postgres

/-- The words that PostgreSQL's grammar has behind CREATE and behind DROP: none is a word of the
fabric. -/
structure Grammar where
  create : List Char → Prop
  drop : List Char → Prop
  create_own : ∀ w, create w → among ["DATASOURCE", "VIRTUAL", "GRAPH"] w = false
  drop_own : ∀ w, drop w → among ["DATASOURCE", "VIRTUAL"] w = false

inductive Keyword
  | create
  | drop
  | display
  | merge
  | refresh
  | explain

def Keyword.text : Keyword → List Char
  | .create => "CREATE".toList
  | .drop => "DROP".toList
  | .display => "SHOW".toList
  | .merge => "MERGE".toList
  | .refresh => "REFRESH".toList
  | .explain => "EXPLAIN".toList

/-- The text goes on with one of the words, in any case. -/
def Leads (p : List Char → Prop) (tail : List Char) : Prop :=
  ∃ w r, tail = w ++ r ∧ Word w ∧ Apart asciiLetters r ∧ p (upper w)

/-- What the grammar has behind a keyword. A parameter, an option, a query or a parenthesis may
stand behind SHOW and EXPLAIN. -/
def Grammar.Follows (G : Grammar) (tail : List Char) : Keyword → Prop
  | .create => Leads G.create tail
  | .drop => Leads G.drop tail
  | .merge => Leads (fun w => w = "INTO".toList) tail
  | .refresh => Leads (fun w => w = "MATERIALIZED".toList) tail
  | .display => True
  | .explain => True

structure Statement (G : Grammar) where
  kind : Keyword
  keyword : List Char
  blanks : List Char
  tail : List Char
  spelled : upper keyword = kind.text
  word : Word keyword
  blank : ∀ c ∈ blanks, isBlank c = true
  apart : Apart asciiLetters (blanks ++ tail)
  follows : G.Follows tail kind

variable {G : Grammar}

def Statement.text (s : Statement G) : List Char := s.keyword ++ (s.blanks ++ s.tail)

/-- The first ASCII word behind the keyword. -/
def Statement.second (s : Statement G) : List Char :=
  (first_words asciiLetters s.tail 1).headD []

/-- PostgreSQL's statements that open as one of the fabric: a parameter whose name starts with a
word of the fabric, an option FABRIC, and a database some word of which starts with ENGINE. -/
def Statement.ClashesAs (s : Statement G) : Keyword → Prop
  | .create => s.second = "DATABASE".toList ∧ namesEngine (' ' :: s.text) = true
  | .display => among ["DATASOURCES", "TABLES", "VIRTUAL", "GRAPHS"] s.second = true
  | .explain => s.second = "FABRIC".toList
  | .drop => False
  | .merge => False
  | .refresh => False

def Statement.Clashes (s : Statement G) : Prop := s.ClashesAs s.kind

theorem is_fabric_statement (ps : List Piece) (s : Statement G) :
    is_fabric (front ps ++ s.text) = claimed s.kind.text s.second
      (opensParen (s.blanks ++ s.tail)) (namesEngine (' ' :: s.text)) := by
  unfold Statement.text Statement.second
  rw [is_fabric_front ps s.word s.apart, s.spelled, first_words_blanks s.blank]

theorem second_of_leads {p : List Char → Prop} {s : Statement G} (h : Leads p s.tail) :
    p s.second ∧ opensParen (s.blanks ++ s.tail) = false := by
  rcases h with ⟨w, r, htail, hw, hr, hp⟩
  unfold Statement.second
  rw [htail]
  refine ⟨?_, opensParen_word s.blank hw⟩
  rw [first_words_word hw hr 0, List.headD_cons]
  exact hp

theorem claimed_create (w1 : List Char) (paren engine : Bool) :
    claimed Keyword.create.text w1 paren engine = (paren ||
      among ["DATASOURCE", "VIRTUAL", "GRAPH"] w1 || (w1 = "DATABASE".toList && engine)) := rfl

theorem claimed_drop (w1 : List Char) (paren engine : Bool) :
    claimed Keyword.drop.text w1 paren engine = among ["DATASOURCE", "VIRTUAL"] w1 := rfl

theorem claimed_show (w1 : List Char) (paren engine : Bool) :
    claimed Keyword.display.text w1 paren engine =
      among ["DATASOURCES", "TABLES", "VIRTUAL", "GRAPHS"] w1 := rfl

theorem claimed_merge (w1 : List Char) (paren engine : Bool) :
    claimed Keyword.merge.text w1 paren engine = paren := rfl

theorem claimed_refresh (w1 : List Char) (paren engine : Bool) :
    claimed Keyword.refresh.text w1 paren engine = decide (w1 = "DATASOURCE".toList) := rfl

theorem claimed_explain (w1 : List Char) (paren engine : Bool) :
    claimed Keyword.explain.text w1 paren engine = decide (w1 = "FABRIC".toList) := rfl

theorem relayed_iff (ps : List Piece) (s : Statement G) :
    is_fabric (front ps ++ s.text) = false ↔ ¬ s.Clashes := by
  have hfollows := s.follows
  rw [is_fabric_statement]
  unfold Statement.Clashes
  cases hkind : s.kind with
  | create =>
      rw [hkind] at hfollows
      rcases second_of_leads hfollows with ⟨hown, hparen⟩
      rw [claimed_create, hparen, G.create_own _ hown, Bool.false_or, Bool.false_or,
        Statement.ClashesAs, ← Bool.not_eq_true, Bool.and_eq_true, decide_eq_true_eq]
  | drop =>
      rw [hkind] at hfollows
      rw [claimed_drop, G.drop_own _ (second_of_leads hfollows).1]
      exact ⟨fun _ h => h, fun _ => rfl⟩
  | display =>
      rw [claimed_show, Statement.ClashesAs, Bool.not_eq_true]
  | merge =>
      rw [hkind] at hfollows
      have hleads : Leads (fun w => w = "INTO".toList) s.tail := hfollows
      rw [claimed_merge, (second_of_leads hleads).2]
      exact ⟨fun _ h => h, fun _ => rfl⟩
  | refresh =>
      rw [hkind] at hfollows
      have hleads : Leads (fun w => w = "MATERIALIZED".toList) s.tail := hfollows
      have hword := (second_of_leads hleads).1
      have hne : s.second ≠ "DATASOURCE".toList := by
        rw [hword]
        decide
      rw [claimed_refresh, decide_eq_false hne]
      exact ⟨fun _ h => h, fun _ => rfl⟩
  | explain =>
      rw [claimed_explain, Statement.ClashesAs, decide_eq_false_iff_not]

/-- Behind comments that do not nest, PostgreSQL's statements are left alone but for those that
clash, and what the gateway claims of the openings above, the translator recognises. -/
theorem left_alone_iff (u : Letters) (G : Grammar) (ps : List Piece) :
    (∀ s : Statement G, is_fabric (front ps ++ s.text) = false ↔ ¬ s.Clashes) ∧
      ∀ s, Opening u s → is_fabric (front ps ++ s) = true →
        recognises u (front ps ++ s) = true :=
  ⟨relayed_iff ps, fun _ h hf => recognised_of_claimed ps h hf⟩

end Postgres

section Example

/-- Some of the words that PostgreSQL has behind CREATE as well as behind DROP. -/
def objectWords : List String := ["DATABASE", "INDEX", "ROLE", "SCHEMA", "TABLE", "VIEW"]

theorem among_iff {words : List String} {w : List Char} :
    among words w = true ↔ ∃ x ∈ words, w = x.toList := by
  simp [among]

theorem create_own (w : List Char) (h : among objectWords w = true) :
    among ["DATASOURCE", "VIRTUAL", "GRAPH"] w = false := by
  rcases among_iff.mp h with ⟨x, hx, rfl⟩
  revert x
  decide

theorem drop_own (w : List Char) (h : among objectWords w = true) :
    among ["DATASOURCE", "VIRTUAL"] w = false := by
  rcases among_iff.mp h with ⟨x, hx, rfl⟩
  revert x
  decide

def postgres : Grammar where
  create w := among objectWords w = true
  drop w := among objectWords w = true
  create_own := create_own
  drop_own := drop_own

theorem word_of_all {w : List Char} (hne : w ≠ []) (h : w.all (isWord asciiLetters) = true) :
    Word w := ⟨hne, fun c hc => List.all_eq_true.mp h c hc⟩

theorem word_create : Word "CREATE".toList := word_of_all (by decide) (by decide)

theorem blank_one (c : Char) (hc : c ∈ [' ']) : isBlank c = true := by
  rw [List.mem_singleton.mp hc]
  decide

theorem apart_database :
    Apart asciiLetters ([' '] ++ "DATABASE app OWNER engineering".toList) := by
  intro c hc
  cases hc
  decide

theorem follows_database :
    postgres.Follows "DATABASE app OWNER engineering".toList .create := by
  refine ⟨"DATABASE".toList, " app OWNER engineering".toList, rfl,
    word_of_all (by decide) (by decide), ?_, ?_⟩
  · intro c hc
    cases hc
    decide
  · change among objectWords _ = true
    decide

theorem spelled_create : upper "CREATE".toList = Keyword.create.text := rfl

/-- A database with an owner whose name starts with ENGINE. -/
def owned : Statement postgres where
  kind := .create
  keyword := "CREATE".toList
  blanks := [' ']
  tail := "DATABASE app OWNER engineering".toList
  spelled := spelled_create
  word := word_create
  blank := blank_one
  apart := apart_database
  follows := follows_database

theorem clashes_owned : owned.Clashes := by
  refine ⟨?_, ?_⟩
  · decide
  · decide

theorem not_left_alone :
    ¬ ∀ (ps : List Piece) (s : Statement postgres), is_fabric (front ps ++ s.text) = false := by
  intro h
  exact (relayed_iff [] owned).mp (h [] owned) clashes_owned

end Example

end OntologicalDb.StatementOpenings
