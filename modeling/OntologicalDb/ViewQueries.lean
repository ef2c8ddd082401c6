import Mathlib
import OntologicalDb.DollarQuotes

/-!
The query of a virtual node: how PostgreSQL's lexer reads it, character by character, and how the
search for a semicolon does.
-/

namespace OntologicalDb.ViewQueries

open OntologicalDb.DollarQuotes (isDolqStart isDolqCont)

section Lexer

/-- What stands between the end of an escape string and the next character, if anything does:
behind a line break, a quote continues the constant. -/
inductive Gap
  | none
  | adjacent
  | blank
  | line

inductive Mode
  | top (gap : Gap)
  | word (isE : Bool)
  | dash (gap : Gap)
  | slash
  | line (gap : Gap)
  | block (depth : Nat) (last : Option Char)
  | single
  | double
  | escape (backslash : Bool)
  | tag (t : List Char)
  | dollar (t : List Char) (seen : Option (List Char))

def isNewline (c : Char) : Bool := c = '\n' || c = '\r'

def isBlank (c : Char) : Bool := c = ' ' || c = '\t' || c = '\x0c' || c = '\x0b'

def Gap.newline : Gap → Gap
  | .none => .none
  | _ => .line

def Gap.space : Gap → Gap
  | .none => .none
  | .line => .line
  | _ => .blank

/-- Behind a quote: a doubled quote and a continued constant stay in the escape string. -/
def Gap.quote : Gap → Mode
  | .adjacent => .escape false
  | .line => .escape false
  | _ => .single

/-- A character between two tokens. -/
def read (gap : Gap) (c : Char) : Mode :=
  if c = '\'' then gap.quote
  else if c = '"' then .double
  else if c = '-' then .dash gap
  else if c = '/' then .slash
  else if c = '$' then .tag []
  else if isDolqStart c then .word (c = 'e' || c = 'E')
  else if isNewline c then .top gap.newline
  else if isBlank c then .top gap.space
  else .top .none

/-- The character behind an identifier. -/
def behindWord (isE : Bool) (c : Char) : Mode :=
  if isE && c = '\'' then .escape false else read .none c

/-- The letters of a tag go on with a character. -/
def goesOn (t : List Char) (c : Char) : Bool := if t = [] then isDolqStart c else isDolqCont c

def step : Mode → Char → Mode
  | .top gap, c => read gap c
  | .word isE, c => if isDolqCont c || c = '$' then .word false else behindWord isE c
  | .dash gap, c => if c = '-' then .line gap else read .none c
  | .slash, c => if c = '*' then .block 0 none else read .none c
  | .line gap, c => if isNewline c then .top gap.newline else .line gap
  | .block depth last, c =>
      if last = some '*' ∧ c = '/' then
        if depth = 0 then .top .none else .block (depth - 1) none
      else if last = some '/' ∧ c = '*' then .block (depth + 1) none
      else .block depth (some c)
  | .single, c => if c = '\'' then .top .none else .single
  | .double, c => if c = '"' then .top .none else .double
  | .escape true, _ => .escape false
  | .escape false, c =>
      if c = '\\' then .escape true else if c = '\'' then .top .adjacent else .escape false
  | .tag t, c =>
      if c = '$' then .dollar t none
      else if goesOn t c then .tag (t ++ [c])
      else behindWord (t = ['e'] || t = ['E']) c
  | .dollar t seen, c =>
      if c = '$' then
        if seen = some t then .top .none else .dollar t (some [])
      else .dollar t (seen.bind fun s => if goesOn s c then some (s ++ [c]) else none)

/-- Outside of literals, quoted identifiers and comments. -/
def topLevel : Mode → Bool
  | .top _ => true
  | .word _ => true
  | .dash _ => true
  | .slash => true
  | .tag _ => true
  | _ => false

/-- The lexer finds a semicolon of its own. -/
def separates : Mode → List Char → Bool
  | _, [] => false
  | m, c :: r => (c = ';' && topLevel m) || separates (step m c) r

end Lexer

section Check

def isQuote (c : Char) : Bool := c = '\'' || c = '"'

def scanQuote : Option Char → Char → Option Char
  | some q, c => if c = q then none else some q
  | none, c => if isQuote c then some c else none

/-- og_create_view_node takes the query. -/
def accepts : Option Char → List Char → Bool
  | _, [] => true
  | quote, c :: r => (quote ≠ none || c ≠ ';') && accepts (scanQuote quote c) r

/-- A query that is taken is one statement. -/
def Single (query : List Char) : Prop :=
  accepts none query = true → separates (.top .none) query = false

/-- A quote character that opens and closes nothing: in a comment, in a dollar-quoted constant or
behind a backslash of an escape string. -/
def hides : Mode → Char → Bool
  | .line _, c => isQuote c
  | .block _ _, c => isQuote c
  | .dollar _ _, c => isQuote c
  | .escape true, c => c = '\''
  | _, _ => false

/-- There is such a quote in front of the lexer's first semicolon. -/
def hidden : Mode → List Char → Bool
  | _, [] => false
  | m, c :: r =>
      if c = ';' && topLevel m then false else hides m c || hidden (step m c) r

end Check

section Agreement

variable {m : Mode} {c : Char} {query : List Char}

def quoteOf : Mode → Option Char
  | .single => some '\''
  | .escape _ => some '\''
  | .double => some '"'
  | _ => none

theorem quoteOf_quote (gap : Gap) : quoteOf gap.quote = some '\'' := by cases gap <;> rfl

theorem quoteOf_of_topLevel (h : topLevel m = true) : quoteOf m = none := by
  cases m <;> first | rfl | cases h

theorem scanQuote_of_not (h : isQuote c = false) : scanQuote none c = none :=
  if_neg (Bool.eq_false_iff.mp h)

theorem quoteOf_read (gap : Gap) (c : Char) : quoteOf (read gap c) = scanQuote none c := by
  rcases Decidable.em (c = '\'') with rfl | hs
  · exact quoteOf_quote gap
  rcases Decidable.em (c = '"') with rfl | hd
  · rfl
  have hquote : isQuote c = false := by
    unfold isQuote
    rw [decide_eq_false hs, decide_eq_false hd]
    rfl
  rw [scanQuote_of_not hquote]
  unfold read
  rw [if_neg hs, if_neg hd]
  split
  · rfl
  split
  · rfl
  split
  · rfl
  split
  · rfl
  split
  · rfl
  split <;> rfl

theorem quoteOf_behindWord (isE : Bool) (c : Char) :
    quoteOf (behindWord isE c) = scanQuote none c := by
  unfold behindWord
  split
  · next h =>
      have hc : c = '\'' := of_decide_eq_true (Bool.and_eq_true_iff.mp h).2
      rw [hc]
      rfl
  · exact quoteOf_read _ _

theorem not_quote_of_cont (h : isDolqCont c = true) : isQuote c = false := by
  rcases Bool.eq_false_or_eq_true (isQuote c) with hq | hq
  · rcases Bool.or_eq_true_iff.mp hq with hc | hc
    · rw [of_decide_eq_true hc] at h
      exact absurd h (by decide)
    · rw [of_decide_eq_true hc] at h
      exact absurd h (by decide)
  · exact hq

theorem not_quote_of_goesOn {t : List Char} (h : goesOn t c = true) : isQuote c = false := by
  unfold goesOn at h
  split at h
  · refine not_quote_of_cont ?_
    unfold isDolqStart at h
    unfold isDolqCont
    rcases Bool.or_eq_true_iff.mp h with h | h
    · rcases Bool.or_eq_true_iff.mp h with h | h
      · simp [Char.isAlphanum, h]
      · simp [h]
    · simp [h]
  · exact not_quote_of_cont h

/-- Where no quote is hidden, the search is within a quote exactly where the lexer is. -/
theorem quoteOf_step (h : hides m c = false) : quoteOf (step m c) = scanQuote (quoteOf m) c := by
  cases m with
  | top gap => exact quoteOf_read gap c
  | word isE =>
      simp only [step]
      split
      · next hc =>
          refine (scanQuote_of_not ?_).symm
          rcases Bool.or_eq_true_iff.mp hc with hc | hc
          · exact not_quote_of_cont hc
          · rw [of_decide_eq_true hc]
            rfl
      · exact quoteOf_behindWord isE c
  | dash gap =>
      simp only [step]
      split
      · next hc =>
          subst hc
          rfl
      · exact quoteOf_read _ _
  | slash =>
      simp only [step]
      split
      · next hc =>
          subst hc
          rfl
      · exact quoteOf_read _ _
  | line gap =>
      refine Eq.trans ?_ (scanQuote_of_not h).symm
      simp only [step]
      split <;> rfl
  | block depth last =>
      refine Eq.trans ?_ (scanQuote_of_not h).symm
      simp only [step]
      split
      · split <;> rfl
      · split <;> rfl
  | single =>
      simp only [step]
      split
      · next hc =>
          subst hc
          rfl
      · next hc => exact (if_neg hc).symm
  | double =>
      simp only [step]
      split
      · next hc =>
          subst hc
          rfl
      · next hc => exact (if_neg hc).symm
  | escape backslash =>
      cases backslash with
      | true => exact (if_neg (of_decide_eq_false h)).symm
      | false =>
          simp only [step]
          split
          · next hc =>
              subst hc
              rfl
          split
          · next hc =>
              subst hc
              rfl
          · next hc => exact (if_neg hc).symm
  | tag t =>
      simp only [step]
      split
      · next hc =>
          subst hc
          rfl
      split
      · next hgo => exact (scanQuote_of_not (not_quote_of_goesOn hgo)).symm
      · exact quoteOf_behindWord _ c
  | dollar t seen =>
      refine Eq.trans ?_ (scanQuote_of_not h).symm
      simp only [step]
      split
      · split <;> rfl
      · rfl

/-- Without hidden quotes, a query that is taken has no semicolon for the lexer. -/
theorem not_separates (hplain : hidden m query = false)
    (haccepts : accepts (quoteOf m) query = true) : separates m query = false := by
  induction query generalizing m with
  | nil => rfl
  | cons c r ih =>
      rcases Bool.and_eq_true_iff.mp haccepts with ⟨hc, hr⟩
      unfold hidden at hplain
      unfold separates
      cases hsep : decide (c = ';') && topLevel m with
      | true =>
          rcases Bool.and_eq_true_iff.mp hsep with ⟨hsemi, htop⟩
          rw [quoteOf_of_topLevel htop, of_decide_eq_true hsemi] at hc
          exact absurd hc (by decide)
      | false =>
          rw [hsep, if_neg Bool.false_ne_true] at hplain
          rcases Bool.or_eq_false_iff.mp hplain with ⟨hhides, hplain⟩
          rw [← quoteOf_step hhides] at hr
          exact ih hplain hr

end Agreement

section Exactness

variable {x y : List Char}

/-- Every quote character of a text has its partner. -/
inductive Paired : List Char → Prop
  | nil : Paired []
  | other {c : Char} {r : List Char} : isQuote c = false → Paired r → Paired (c :: r)
  | pair {q : Char} {s r : List Char} : isQuote q = true → q ∉ s → Paired r →
      Paired (q :: (s ++ q :: r))

theorem foldl_quoted {q : Char} {s : List Char} (h : q ∉ s) :
    s.foldl scanQuote (some q) = some q := by
  induction s with
  | nil => rfl
  | cons c s ih =>
      rw [List.mem_cons, not_or] at h
      have hc : scanQuote (some q) c = some q := if_neg (Ne.symm h.1)
      rw [List.foldl_cons, hc]
      exact ih h.2

theorem foldl_pair {q : Char} {s r : List Char} (hq : isQuote q = true) (h : q ∉ s) :
    (q :: (s ++ q :: r)).foldl scanQuote none = r.foldl scanQuote none := by
  have hopen : scanQuote none q = some q := if_pos hq
  have hclose : scanQuote (some q) q = none := if_pos rfl
  rw [List.foldl_cons, hopen, List.foldl_append, foldl_quoted h, List.foldl_cons, hclose]

theorem paired_iff : Paired x ↔ x.foldl scanQuote none = none := by
  constructor
  · intro h
    induction h with
    | nil => rfl
    | other hc _ ih =>
        rw [List.foldl_cons, scanQuote_of_not hc]
        exact ih
    | pair hq hs _ ih =>
        rw [foldl_pair hq hs]
        exact ih
  · intro h
    induction hn : x.length using Nat.strongRecOn generalizing x with
    | ind n ih =>
        cases x with
        | nil => exact .nil
        | cons c r =>
            rcases Bool.eq_false_or_eq_true (isQuote c) with hc | hc
            · have hopen : scanQuote none c = some c := if_pos hc
              rcases Decidable.em (c ∈ r) with hmem | hmem
              · rcases List.eq_append_cons_of_mem hmem with ⟨s, t, rfl, hs⟩
                rw [foldl_pair hc hs] at h
                refine .pair hc hs (ih t.length ?_ h rfl)
                rw [← hn]
                simp only [List.length_cons, List.length_append]
                omega
              · rw [List.foldl_cons, hopen, foldl_quoted hmem] at h
                cases h
            · rw [List.foldl_cons, scanQuote_of_not hc] at h
              refine .other hc (ih r.length ?_ h rfl)
              rw [← hn]
              exact Nat.lt_succ_self _

/-- The query is taken exactly if no semicolon stands where the quotes before it are paired. -/
theorem accepts_iff (quote : Option Char) : accepts quote x = true ↔
    ∀ p, p ++ [';'] <+: x → p.foldl scanQuote quote ≠ none := by
  induction x generalizing quote with
  | nil =>
      refine iff_of_true rfl fun p hp => ?_
      have hnil := List.prefix_nil.mp hp
      exact absurd hnil (List.append_ne_nil_of_right_ne_nil _ (List.cons_ne_nil _ _))
  | cons c r ih =>
      unfold accepts
      rw [Bool.and_eq_true_iff, ih]
      constructor
      · rintro ⟨hc, hr⟩ p hp
        cases p with
        | nil =>
            intro hquote
            rcases List.cons_prefix_cons.mp hp with ⟨rfl, -⟩
            replace hquote : quote = none := hquote
            rw [hquote] at hc
            exact absurd hc (by decide)
        | cons d p =>
            rcases List.cons_prefix_cons.mp hp with ⟨rfl, htail⟩
            exact hr p htail
      · intro h
        refine ⟨?_, fun p hp => h (c :: p) (List.cons_prefix_cons.mpr ⟨rfl, hp⟩)⟩
        rcases Decidable.em (c = ';') with rfl | hc
        · have hquote := h [] (List.cons_prefix_cons.mpr ⟨rfl, List.nil_prefix⟩)
          rw [Bool.or_eq_true_iff]
          exact .inl (decide_eq_true hquote)
        · rw [Bool.or_eq_true_iff]
          exact .inr (decide_eq_true hc)

/-- The lexer comes behind a text between its tokens and has found no semicolon of its own. -/
structure Unseparated (x : List Char) : Prop where
  none : separates (.top .none) x = false
  top : topLevel (x.foldl step (.top .none)) = true

/-- Some semicolon, of the text or behind it, stands where the quotes before it are paired. -/
def Caught (x : List Char) : Prop := ∃ p, p ++ [';'] <+: x ++ [';'] ∧ Paired p

theorem separates_append (m : Mode) :
    separates m (x ++ y) = (separates m x || separates (x.foldl step m) y) := by
  induction x generalizing m with
  | nil => rfl
  | cons c x ih =>
      rw [List.cons_append, separates, separates, ih, Bool.or_assoc]
      rfl

theorem Unseparated.separates (h : Unseparated x) :
    separates (.top .none) (x ++ ';' :: y) = true := by
  rw [separates_append, h.none, ViewQueries.separates, h.top]
  rfl

/-- What follows a semicolon of the lexer runs as one statement whatever it is exactly if some
semicolon up to it is seen. -/
theorem all_single_iff (h : Unseparated x) : (∀ y, Single (x ++ ';' :: y)) ↔ Caught x := by
  constructor
  · intro hsingle
    refine Classical.byContradiction fun hn => ?_
    have haccepts : accepts none (x ++ [';']) = true :=
      (accepts_iff none).mpr fun p hp hfold => hn ⟨p, hp, paired_iff.mpr hfold⟩
    have hfalse := hsingle [] haccepts
    rw [h.separates] at hfalse
    cases hfalse
  · rintro ⟨p, hp, hpaired⟩ y haccepts
    have hprefix : x ++ [';'] <+: x ++ ';' :: y := ⟨y, by rw [List.append_assoc]; rfl⟩
    exact absurd (paired_iff.mp hpaired) ((accepts_iff none).mp haccepts p (hp.trans hprefix))

/--
A query is one statement if no quote is hidden in front of the lexer's first semicolon; and what
stands in front of that semicolon keeps every continuation out exactly if a semicolon up to it has
paired quotes before it.
-/
theorem single_iff (query x : List Char) :
    (hidden (.top .none) query = false → Single query) ∧
      (Unseparated x → ((∀ y, Single (x ++ ';' :: y)) ↔ Caught x)) :=
  ⟨fun hplain haccepts => not_separates hplain haccepts, all_single_iff⟩

/-- The quote in a line comment. -/
theorem not_single_comment :
    ¬ Single "SELECT 1 AS id -- '\n; DROP TABLE t; --'".toList := by
  intro h
  exact absurd (h (by decide)) (by decide)

end Exactness

end OntologicalDb.ViewQueries
