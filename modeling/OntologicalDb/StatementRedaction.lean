import Mathlib
import OntologicalDb.BoltSession

/-!
Fabric statements: how one is told from Cypher, what of it is kept in the audit trail and what of
it is shown.
-/

namespace OntologicalDb.StatementRedaction

open OntologicalDb.BoltSession (is_whitespace)

/-- The Unicode table of letters and digits, which agrees with ASCII. -/
structure Letters where
  is_alphanumeric : Char → Bool
  ascii : ∀ c : Char, c.toNat < 128 → is_alphanumeric c = c.isAlphanum

section Recognition

variable (u : Letters)

def isWord (c : Char) : Bool := u.is_alphanumeric c || c = '_'

/-- The words of a text, the first one begun. -/
def wordsFrom : List Char → List Char → List (List Char)
  | acc, [] => if acc = [] then [] else [acc]
  | acc, c :: r =>
      if isWord u c then wordsFrom (acc ++ [c]) r
      else if acc = [] then wordsFrom [] r else acc :: wordsFrom [] r

def first_words (s : List Char) (n : Nat) : List (List Char) :=
  ((wordsFrom u [] s).take n).map fun w => w.map Char.toUpper

/-- The text behind the first line break; nothing where there is none. -/
def behindLine (s : List Char) : List Char := (s.dropWhile fun c => c ≠ '\n').tail

/-- The text behind the first end of a block comment; nothing where there is none. -/
def behindBlock : List Char → List Char
  | [] => []
  | c :: r => if c = '*' ∧ r.head? = some '/' then r.tail else behindBlock r

theorem length_behindLine_le (s : List Char) : (behindLine s).length ≤ s.length := by
  unfold behindLine
  rw [List.length_tail]
  exact (Nat.sub_le _ _).trans (List.dropWhile_suffix _).length_le

theorem length_behindBlock_le (s : List Char) : (behindBlock s).length ≤ s.length := by
  induction s with
  | nil => exact Nat.zero_le _
  | cons c r ih =>
      unfold behindBlock
      split
      · rw [List.length_tail, List.length_cons]
        omega
      · exact ih.trans (Nat.le_succ _)

theorem pos_of_take {s : List Char} (h : s.take 2 ≠ []) : 0 < s.length :=
  List.length_pos_iff.mpr fun hnil => h (by rw [hnil]; rfl)

/-- Comments and white space in front of a statement off; the statement starts without blanks. -/
def stripComments (s : List Char) : List Char :=
  if s.take 2 = ['-', '-'] ∨ s.take 2 = ['/', '/'] then
    stripComments ((behindLine (s.drop 2)).dropWhile is_whitespace)
  else if s.take 2 = ['/', '*'] then
    stripComments ((behindBlock (s.drop 2)).dropWhile is_whitespace)
  else s
termination_by s.length
decreasing_by
  · rename_i h
    have hline := length_behindLine_le (s.drop 2)
    have hdrop := (@List.dropWhile_suffix _ (behindLine (s.drop 2)) is_whitespace).length_le
    have hpos : 0 < s.length := pos_of_take (by rcases h with h | h <;> rw [h] <;> decide)
    rw [List.length_drop] at hline
    omega
  · rename_i h
    have hblock := length_behindBlock_le (s.drop 2)
    have hdrop := (@List.dropWhile_suffix _ (behindBlock (s.drop 2)) is_whitespace).length_le
    have hpos : 0 < s.length := pos_of_take (by rw [h]; decide)
    rw [List.length_drop] at hblock
    omega

/-- Leading white space and comments off, trailing semicolons off. -/
def trim_statement (s : List Char) : List Char :=
  (stripComments ((s.dropWhile is_whitespace).rdropWhile is_whitespace)).rdropWhile fun c =>
    c = ';' || is_whitespace c

/-- A word that starts with ENGINE, words being apart by white space. -/
def namesEngine : List Char → Bool
  | [] => false
  | c :: r =>
      (is_whitespace c && "ENGINE".toList.isPrefixOf (r.map Char.toUpper)) || namesEngine r

def is_statement (stmt : List Char) : Bool :=
  match (first_words u (trim_statement stmt) 2).map String.ofList with
  | [] => false
  | w0 :: rest =>
      let w1 := rest.headD ""
      if w0 = "CREATE" then
        w1 = "DATASOURCE" || w1 = "VIRTUAL" || w1 = "GRAPH" ||
          (w1 = "DATABASE" && namesEngine (' ' :: trim_statement stmt))
      else if w0 = "DROP" then w1 = "DATASOURCE" || w1 = "VIRTUAL"
      else if w0 = "SHOW" then
        w1 = "DATASOURCES" || w1 = "TABLES" || w1 = "VIRTUAL" || w1 = "GRAPHS"
      else if w0 = "REFRESH" then w1 = "DATASOURCE"
      else if w0 = "MATERIALIZE" then true
      else w0 = "EXPLAIN" && w1 = "FABRIC"

end Recognition

section Showing

variable (u : Letters)

/-- The second word of the text as it stands, comments included. -/
def second (stmt : List Char) : Option (List Char) := (first_words u stmt 2)[1]?

/-- What is behind the last brace of a text that has one. -/
def behindLast (s : List Char) : List Char := s.rtakeWhile fun c => c ≠ '}'

/-- The statement with its parameter block blanked. -/
def redacted (stmt : List Char) : List Char :=
  if '}' ∈ (stmt.dropWhile fun c => c ≠ '{').tail ∧ second u stmt ≠ some "VIRTUAL".toList then
    stmt.takeWhile (fun c => c ≠ '{') ++ ('{' :: '…' :: '}' ::
      behindLast (stmt.dropWhile fun c => c ≠ '{').tail)
  else stmt

def notShown : String :=
  "-- CREATE DATASOURCE runs og_create_datasource(name, engine, parameters); " ++
    "the parameters are not shown"

/-- What translate makes of a statement; it is not asked for a datasource. -/
def shown_sql (translate : List Char → Except String String) (stmt : List Char) :
    Except String String :=
  if (first_words u (trim_statement stmt) 2)[1]? = some "DATASOURCE".toList ∧
      (first_words u stmt 1)[0]? = some "CREATE".toList then .ok notShown
  else translate stmt

end Showing

section Hiding

variable (u : Letters)

/-- A statement with a parameter block behind its opening words; its text is cut at the braces of
the block. -/
structure Statement where
  head : List Char
  block : List Char
  rest : List Char
  opening : 2 ≤ (wordsFrom u [] head).length

variable {u}

def Statement.text (s : Statement u) : List Char := s.head ++ '{' :: (s.block ++ '}' :: s.rest)

/-- Statements that differ only inside the block and are routed alike, to the statement runner. -/
structure Alike (s s' : Statement u) : Prop where
  head : s.head = s'.head
  rest : s.rest = s'.rest
  routed : is_statement u s.text = true
  routed' : is_statement u s'.text = true
  words : first_words u (trim_statement s.text) 2 = first_words u (trim_statement s'.text) 2

/-- The statement opens, as it stands, with CREATE and not with a second word VIRTUAL, and is one
of a datasource. -/
structure Opens (s : Statement u) : Prop where
  create : (first_words u s.text 1)[0]? = some "CREATE".toList
  second : second u s.text ≠ some "VIRTUAL".toList
  datasource : (first_words u (trim_statement s.text) 2)[1]? = some "DATASOURCE".toList

variable {pre post b b' s r acc : List Char}

theorem not_isWord_brace : isWord u '{' = false := by
  unfold isWord
  rw [u.ascii '{' (by decide)]
  decide

theorem wordsFrom_append {c : Char} (hc : isWord u c = false) :
    wordsFrom u acc (s ++ c :: r) = wordsFrom u acc s ++ wordsFrom u [] r := by
  induction s generalizing acc with
  | nil =>
      rw [List.nil_append, wordsFrom, wordsFrom, hc, if_neg Bool.false_ne_true]
      split <;> rfl
  | cons d s ih =>
      rw [List.cons_append, wordsFrom, wordsFrom]
      split
      · exact ih
      · split
        · exact ih
        · rw [ih, List.cons_append]

/-- The first words of a text whose head has as many are those of the head. -/
theorem first_words_append {n : Nat} (hn : n ≤ (wordsFrom u [] pre).length) :
    first_words u (pre ++ '{' :: r) n = first_words u pre n := by
  unfold first_words
  rw [wordsFrom_append not_isWord_brace, List.take_append_of_le_length hn]

/-- What is in front of the first brace of a text, and behind it, up to a part behind the head. -/
theorem exists_cut (pre : List Char) : ∃ z w : List Char, ∀ r,
    (pre ++ '{' :: r).takeWhile (fun c => c ≠ '{') = z ∧
      ((pre ++ '{' :: r).dropWhile fun c => c ≠ '{').tail = w ++ r := by
  induction pre with
  | nil => exact ⟨[], [], fun _ => ⟨rfl, rfl⟩⟩
  | cons c pre ih =>
      rcases Decidable.em (c = '{') with rfl | hc
      · exact ⟨[], pre ++ ['{'], fun r => ⟨rfl, by simp⟩⟩
      · rcases ih with ⟨z, w, h⟩
        refine ⟨c :: z, w, fun r => ⟨?_, ?_⟩⟩
        · rw [List.cons_append, List.takeWhile_cons, if_pos (decide_eq_true hc), (h r).1]
        · rw [List.cons_append, List.dropWhile_cons, if_pos (decide_eq_true hc), (h r).2]

theorem takeWhile_stop {p : Char → Bool} {c : Char} (hc : p c = false) (x y : List Char) :
    (x ++ c :: y).takeWhile p = (x ++ [c]).takeWhile p := by
  induction x with
  | nil =>
      rw [List.nil_append, List.nil_append, List.takeWhile_cons, List.takeWhile_cons, hc]
      rfl
  | cons d x ih =>
      rw [List.cons_append, List.cons_append, List.takeWhile_cons, List.takeWhile_cons, ih]

/-- Behind the last brace of a text there is what is behind the last one of an end of it. -/
theorem behindLast_append (w : List Char) :
    behindLast (w ++ '}' :: post) = behindLast ('}' :: post) := by
  have hstop (y : List Char) := takeWhile_stop (p := fun c => decide (c ≠ '}')) (c := '}')
    rfl post.reverse y
  unfold behindLast List.rtakeWhile
  rw [List.reverse_append, List.reverse_cons, List.append_assoc, List.singleton_append, hstop]

/-- What the audit keeps is the same for every content of a closed block exactly if the second word
of the text is not VIRTUAL. -/
theorem redacted_eq_iff (hwords : 2 ≤ (wordsFrom u [] pre).length) :
    (∀ b b', redacted u (pre ++ '{' :: (b ++ '}' :: post)) =
      redacted u (pre ++ '{' :: (b' ++ '}' :: post))) ↔
      second u pre ≠ some "VIRTUAL".toList := by
  have hsecond (r : List Char) : second u (pre ++ '{' :: r) = second u pre := by
    unfold second
    rw [first_words_append hwords]
  rcases exists_cut pre with ⟨z, w, hcut⟩
  constructor
  · intro h hvirtual
    have hself (b : List Char) : redacted u (pre ++ '{' :: (b ++ '}' :: post)) =
        pre ++ '{' :: (b ++ '}' :: post) := by
      refine if_neg fun hx => ?_
      rw [hsecond] at hx
      exact hx.2 hvirtual
    have heq := h [] ['a']
    rw [hself, hself] at heq
    have hlen := congrArg List.length heq
    simp at hlen
  · intro hne b b'
    have hblank (b : List Char) : redacted u (pre ++ '{' :: (b ++ '}' :: post)) =
        z ++ ('{' :: '…' :: '}' :: behindLast ('}' :: post)) := by
      have hmem : '}' ∈ w ++ (b ++ '}' :: post) := by simp
      unfold redacted
      rw [(hcut _).1, (hcut _).2, hsecond, if_pos ⟨hmem, hne⟩, ← List.append_assoc,
        behindLast_append]
    rw [hblank, hblank]

/-- A statement of a datasource that opens so shows nothing of its block. -/
theorem concealed_of_opens {s s' : Statement u} (h : Opens s) (ha : Alike s s')
    (translate : List Char → Except String String) :
    redacted u s.text = redacted u s'.text ∧
      shown_sql u translate s.text = shown_sql u translate s'.text := by
  rcases s with ⟨head, block, rest, opening⟩
  rcases s' with ⟨head', block', rest', opening'⟩
  rcases ha.head with rfl
  rcases ha.rest with rfl
  have hsecond : second u head ≠ some "VIRTUAL".toList := by
    have hx := h.second
    unfold second Statement.text at hx
    rwa [first_words_append opening] at hx
  have hshown (t : Statement u) (hd : (first_words u (trim_statement t.text) 2)[1]? =
      some "DATASOURCE".toList) (hc : (first_words u t.text 1)[0]? = some "CREATE".toList) :
      shown_sql u translate t.text = .ok notShown := if_pos ⟨hd, hc⟩
  have hfirst (b : List Char) : first_words u (head ++ '{' :: b) 1 = first_words u head 1 :=
    first_words_append (le_trans (by decide) opening)
  have hcreate := h.create
  have hdata := ha.words ▸ h.datasource
  refine ⟨(redacted_eq_iff opening).mpr hsecond block block', ?_⟩
  rw [hshown _ h.datasource h.create, hshown _ hdata]
  unfold Statement.text at hcreate ⊢
  rwa [hfirst] at hcreate ⊢

/-- Without the brace that closes the block, the audit keeps all of it. -/
theorem redacted_open (hpre : '{' ∉ pre) (hb : '}' ∉ b) :
    redacted u (pre ++ '{' :: b) = pre ++ '{' :: b := by
  have hopen : ∀ c ∈ pre, decide (c ≠ '{') = true := fun c hc =>
    decide_eq_true fun he => hpre (he ▸ hc)
  refine if_neg fun hx => hb ?_
  have hmem := hx.1
  rw [List.dropWhile_append_of_pos hopen, List.dropWhile_cons] at hmem
  exact hmem

/--
A statement of a datasource that opens, as it stands, with CREATE and not with a second word VIRTUAL
shows nothing of its closed block; the audit hides a closed block exactly where the second word is
not VIRTUAL, and never one that is not closed.
-/
theorem blocks_hidden_iff (u : Letters) (translate : List Char → Except String String) :
    (∀ s s' : Statement u, Opens s → Alike s s' → redacted u s.text = redacted u s'.text ∧
      shown_sql u translate s.text = shown_sql u translate s'.text) ∧
    (∀ pre post, 2 ≤ (wordsFrom u [] pre).length →
      ((∀ b b', redacted u (pre ++ '{' :: (b ++ '}' :: post)) =
        redacted u (pre ++ '{' :: (b' ++ '}' :: post))) ↔ second u pre ≠ some "VIRTUAL".toList)) ∧
    ∀ pre b, '{' ∉ pre → '}' ∉ b → redacted u (pre ++ '{' :: b) = pre ++ '{' :: b :=
  ⟨fun _ _ h ha => concealed_of_opens h ha translate, fun _ _ hwords => redacted_eq_iff hwords,
    fun _ _ hpre hb => redacted_open hpre hb⟩

end Hiding

section Example

theorem ascii_self (c : Char) (_ : c.toNat < 128) : c.isAlphanum = c.isAlphanum := rfl

def asciiLetters : Letters := ⟨Char.isAlphanum, ascii_self⟩

theorem stripComments_of_line {s : List Char} (h : s.take 2 = ['-', '-']) :
    stripComments s = stripComments ((behindLine (s.drop 2)).dropWhile is_whitespace) := by
  rw [stripComments, if_pos (.inl h)]

theorem stripComments_of_none {s : List Char} (hl : s.take 2 ≠ ['-', '-'])
    (hr : s.take 2 ≠ ['/', '/']) (hb : s.take 2 ≠ ['/', '*']) : stripComments s = s := by
  rw [stripComments, if_neg (by simp [hl, hr]), if_neg hb]

/-- A comment whose second word is the one of virtual nodes. -/
def commented : List Char :=
  "-- our virtual store\nCREATE DATASOURCE d ENGINE 'e' PARAMETERS ".toList

theorem opening_commented : 2 ≤ (wordsFrom asciiLetters [] commented).length := by decide

def keyed (key : Char) : Statement asciiLetters := ⟨commented, [key], [], opening_commented⟩

theorem trim_keyed (key : Char) (hkey : key = 'a' ∨ key = 'b') :
    trim_statement (keyed key).text =
      "CREATE DATASOURCE d ENGINE 'e' PARAMETERS \x7b".toList ++ [key, '}'] := by
  rcases hkey with rfl | rfl <;>
  · unfold trim_statement
    rw [stripComments_of_line (by decide),
      stripComments_of_none (by decide) (by decide) (by decide)]
    decide

theorem alike_keyed : Alike (keyed 'a') (keyed 'b') := by
  have ha := trim_keyed 'a' (.inl rfl)
  have hb := trim_keyed 'b' (.inr rfl)
  refine ⟨rfl, rfl, ?_, ?_, ?_⟩
  · unfold is_statement
    rw [ha]
    decide
  · unfold is_statement
    rw [hb]
    decide
  · rw [ha, hb]
    decide

theorem not_blocks_hidden : ¬ ∀ s s' : Statement asciiLetters, Alike s s' →
    redacted asciiLetters s.text = redacted asciiLetters s'.text := by
  intro h
  have heq := h (keyed 'a') (keyed 'b') alike_keyed
  exact absurd heq (by decide)

end Example

end OntologicalDb.StatementRedaction
