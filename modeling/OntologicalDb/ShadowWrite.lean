import OntologicalDb.ColumnTexts

/-!
A pending change of a property's type converts a value on two paths: the trigger
on every write and the backfill of the rows that are there.
-/

namespace OntologicalDb.ShadowWrite

open OntologicalDb.ColumnTexts
open OntologicalDb.Values

/-- The input functions of the server. -/
structure Server where
  read : SqlType → String → Option Datum
  read_text : ∀ s, read .text s = some (.text s)
  /-- A document that is a string is written between quotes. -/
  read_string : ∀ s u, read .jsonb s = some (.jsonb (.str u)) →
    (s.toList.dropWhile isSpace).head? = some '"' ∧ u.toList.length < s.toList.length

abbrev Row := String → Option Datum

/-- What `og_schema_plan` has found out about the change of a property's type. -/
structure Change where
  column : String
  shadow : String
  source : SqlType
  target : SqlType
  retypes : source ≠ target
  beside : shadow ≠ column

theorem shadow_ne_column (column : String) (id : Nat) : column ++ "__s" ++ toString id ≠ column := by
  intro heq
  have hlen := congrArg (fun t => t.toList.length) heq
  simp [String.toList_append] at hlen

/-- The check and the report of `analyse`. -/
def analyse (id : Nat) (prop column : String) (source : SqlType) (decl : String) : Except String Change :=
  match mapDataType decl with
  | .error e => .error e
  | .ok target =>
      if h : source = target then .error s!"'{prop}' is already {target.name}"
      else .ok ⟨column, column ++ "__s" ++ toString id, source, target, h, shadow_ne_column column id⟩

inductive TgOp
  | insert
  | update (old : Row)

section JsonEquality

def sameNumber (a b : Decimal) : Bool := a.coeff * 10 ^ b.scale = b.coeff * 10 ^ a.scale

mutual

/-- Equality of jsonb: numbers are compared as numbers. -/
def sameJson : Json → Json → Bool
  | .null, .null => true
  | .bool a, .bool b => a = b
  | .num a, .num b => sameNumber a b
  | .str a, .str b => a = b
  | .arr a, .arr b => sameJsonList a b
  | .obj a, .obj b => sameJsonFields a b
  | _, _ => false

def sameJsonList : List Json → List Json → Bool
  | [], [] => true
  | x :: xs, y :: ys => sameJson x y && sameJsonList xs ys
  | _, _ => false

def sameJsonFields : List (String × Json) → List (String × Json) → Bool
  | [], [] => true
  | (k, x) :: xs, (l, y) :: ys => decide (k = l) && sameJson x y && sameJsonFields xs ys
  | _, _ => false

end

end JsonEquality

section Paths

variable (server : Server)

def ogCastable (val : Option String) (typ : SqlType) : Bool :=
  match val with
  | none => true
  | some s => (server.read typ s).isSome

/-- A JSON string becomes a column: jsonb takes it as it is, other types read it. -/
def populateScalar (typ : SqlType) (s : String) : Option Datum :=
  if typ = .jsonb then some (.jsonb (.str s)) else server.read typ s

/-- `to_jsonb(row) -> column`. -/
def columnJson (r : Row) (column : String) : Json := ((r column).map Datum.toJsonb).getD .null

/-- The write gives the column a value other than the one it had. -/
def TgOp.assigns (c : Change) (new : Row) : TgOp → Bool
  | .insert => true
  | .update old => !sameJson (columnJson old c.column) (columnJson new c.column)

/-- `og__shadow_write`. -/
def ogShadowWrite (c : Change) (tgOp : TgOp) (new : Row) : Except String Row :=
  if tgOp.assigns c new = false then .ok new
  else match documentText (columnJson new c.column) with
    | none => .ok (Function.update new c.shadow none)
    | some s => match populateScalar server c.target s with
        | some d => .ok (Function.update new c.shadow (some d))
        | none => .error s!"invalid input syntax for type {c.target.name}"

/-- The `CASE` of the migration. -/
def backfillCast (c : Change) (val : Option String) : Option Datum :=
  if ogCastable server val c.target then val.bind (server.read c.target) else none

/-- What the batch does to a row: it takes the rows with a value. -/
def backfill (c : Change) (r : Row) : Row :=
  if (r c.column).isSome then
    Function.update r c.shadow (backfillCast server c ((r c.column).map Datum.output))
  else r

end Paths

section Outcomes

/-- What comes of a value on one of the two paths. -/
inductive Received
  | refused
  | value (d : Option Datum)

variable (server : Server)

/-- The shadow column of a row as it is written. -/
def written (c : Change) (tgOp : TgOp) (r : Row) : Received :=
  match ogShadowWrite server c tgOp r with
  | .error _ => .refused
  | .ok new => .value (new c.shadow)

/-- The shadow column of a row that is migrated; the validation counts a value the
batch left without a successor. -/
def migrated (c : Change) (r : Row) : Received :=
  let new := backfill server c r
  if (new c.column).isSome ∧ new c.shadow = none then .refused else .value (new c.shadow)

end Outcomes

/-- Values whose output is the text of their JSON: finite instants, arrays, JSON
strings and floats written with an exponent have two texts. -/
def SameText : Datum → Prop
  | .text _ | .int _ | .bool _ | .token _ | .numeric _ => True
  | .float digits x => x.isPlain digits = true ∧ x.isNegativeZero = false
  | .timestamptz _ | .textArray _ | .int8Array _ => False
  | .jsonb j => ∀ s, j ≠ .str s

/-- What the paths make the same of. -/
def ConvertsAlike (server : Server) (target : SqlType) (d : Datum) : Prop :=
  target ≠ .jsonb ∧ ∃ s, documentText d.toJsonb = some s ∧
    (SameText d ∨ server.read target s = server.read target d.output)

section Numerals

def isNumeral (c : Char) : Bool := c.isDigit ∨ c = '-' ∨ c = '.'

theorem toList_toString (n : Nat) : (toString n).toList = Nat.toDigits 10 n := by
  change n.repr.toList = _
  exact Nat.toList_repr

theorem isDigit_toString {n : Nat} {c : Char} (h : c ∈ (toString n).toList) : c.isDigit = true := by
  rw [toList_toString] at h
  exact Nat.isDigit_of_mem_toDigits (by decide) (by decide) h

theorem toString_ne_nil (n : Nat) : (toString n).toList ≠ [] := by
  rw [toList_toString]
  exact Nat.toDigits_ne_nil

theorem toList_pushn (c : Char) (n : Nat) : ("".pushn c n).toList = List.replicate n c := by
  rw [String.pushn_eq_repeat_push]
  induction n with
  | zero => rfl
  | succ n ih => rw [Nat.repeat, String.toList_push, ih, List.replicate_succ']

/-- A numeral is its sign before digits and a point. -/
theorem text_toList (d : Decimal) : ∃ body : List Char,
    d.text.toList = (if d.coeff < 0 then ['-'] else []) ++ body ∧
      body ≠ [] ∧ ∀ c ∈ body, isNumeral c = true := by
  have hdigits : ∀ c ∈ (toString d.coeff.natAbs).toList, isNumeral c = true := fun c hc => by
    simp [isNumeral, isDigit_toString hc]
  have hpadded : ∀ c ∈ ("".pushn '0' (d.scale + 1 - (toString d.coeff.natAbs).length) ++
      toString d.coeff.natAbs).toList, isNumeral c = true := by
    intro c hc
    rw [String.toList_append, toList_pushn, List.mem_append] at hc
    rcases hc with hc | hc
    · rw [List.eq_of_mem_replicate hc]
      decide
    · exact hdigits c hc
  have hsign : (if d.coeff < 0 then "-" else "").toList = if d.coeff < 0 then ['-'] else [] := by
    split <;> rfl
  unfold Decimal.text
  rw [String.toList_append, hsign]
  refine ⟨_, rfl, ?_⟩
  by_cases hscale : d.scale = 0
  · rw [if_pos hscale]
    exact ⟨toString_ne_nil _, hdigits⟩
  · rw [if_neg hscale]
    refine ⟨by simp, fun c hc => ?_⟩
    simp only [String.toList_append, String.toList_ofList, List.mem_append] at hc
    rcases hc with (hc | hc) | hc
    · exact hpadded c (by simpa using List.mem_of_mem_take hc)
    · obtain rfl : c = '.' := by simpa using hc
      decide
    · exact hpadded c (by simpa using List.mem_of_mem_drop hc)

theorem isNumeral_text {d : Decimal} {c : Char} (h : c ∈ d.text.toList) : isNumeral c = true := by
  obtain ⟨body, hbody, -, hnumeral⟩ := text_toList d
  rw [hbody, List.mem_append] at h
  rcases h with h | h
  · split at h
    · obtain rfl := List.mem_singleton.mp h
      decide
    · cases h
  · exact hnumeral c h

theorem text_ne_nil (d : Decimal) : d.text.toList ≠ [] := by
  obtain ⟨body, hbody, hne, -⟩ := text_toList d
  rw [hbody]
  exact List.append_ne_nil_of_right_ne_nil _ hne

theorem bare_of_isNumeral {c : Char} {cs : List Char} {s : String} (hs : s.toList = c :: cs)
    (h : isNumeral c = true) : Bare s := by
  refine ⟨c, cs, hs, ?_, ?_⟩
  · rintro rfl
    revert h
    decide
  · simp only [isSpace, decide_eq_false_iff_not]
    rintro (rfl | rfl | rfl | rfl) <;> revert h <;> decide

theorem bare_text (d : Decimal) : Bare d.text := by
  obtain ⟨c, cs, hcs⟩ := List.exists_cons_of_ne_nil (text_ne_nil d)
  exact bare_of_isNumeral hcs (isNumeral_text (hcs ▸ List.mem_cons_self ..))

theorem text_integer (n : Int) : (⟨n, 0⟩ : Decimal).text = toString n := by
  cases n with
  | ofNat m => 
    have h : ¬ Int.ofNat m < 0 := by simp
    simp only [Decimal.text, if_true, if_neg h, String.empty_append]
    rfl
  | negSucc m =>
    have h : Int.negSucc m < 0 := Int.negSucc_lt_zero m
    simp only [Decimal.text, if_true, if_pos h]
    rfl

theorem bare_integer (n : Int) : Bare (toString n) := text_integer n ▸ bare_text _

theorem bare_append {s : String} (h : Bare s) (t : String) : Bare (s ++ t) := by
  obtain ⟨c, cs, hcs, hc⟩ := h
  exact ⟨c, cs ++ t.toList, by rw [String.toList_append, hcs, List.cons_append], hc⟩

theorem bare_nat (n : Nat) : Bare (toString n) := by
  obtain ⟨c, cs, hcs⟩ := List.exists_cons_of_ne_nil (toString_ne_nil n)
  refine bare_of_isNumeral hcs ?_
  simp [isNumeral, isDigit_toString (n := n) (hcs ▸ List.mem_cons_self ..)]

theorem bare_minus (t : String) : Bare ("-" ++ t) := bare_append ⟨'-', [], rfl, by decide⟩ t

theorem bare_float (digits : Int) (x : Scientific) : Bare (x.output digits) := by
  unfold Scientific.output
  split
  · cases x.isNegativeZero with
    | true => exact bare_minus _
    | false => simpa using bare_text x.decimal
  · simp only [String.append_assoc]
    cases x.negative with
    | true => exact bare_minus _
    | false => simpa using bare_append (bare_nat x.lead.val) _

/-- A float written with an exponent is not what its number is written as. -/
theorem output_ne_text {digits : Int} {x : Scientific} (h : x.isPlain digits = false) :
    x.output digits ≠ x.decimal.text := by
  intro heq
  have hmem : 'e' ∈ (x.output digits).toList := by
    simp only [Scientific.output, h, Bool.false_eq_true, if_false, String.toList_append,
      List.mem_append, exponentText]
    refine .inr (.inl (.inl ?_))
    split <;> decide
  rw [heq] at hmem
  exact absurd (isNumeral_text hmem) (by decide)

end Numerals

section SameText

theorem length_le_join (s : List Char) :
    s.length ≤ (String.join (s.map escapeChar)).toList.length := by
  induction s with
  | nil => exact Nat.zero_le _
  | cons c cs ih =>
    have hpos : 1 ≤ (escapeChar c).toList.length := by
      unfold escapeChar
      split_ifs <;> simp
    have hjoin : String.join ((c :: cs).map escapeChar) =
        escapeChar c ++ String.join (cs.map escapeChar) := by
      simp [String.join_cons]
    rw [hjoin, String.toList_append, List.length_append, List.length_cons]
    omega

theorem quoteJson_ne (s : String) : quoteJson s ≠ s := by
  intro heq
  have hlen := congrArg (fun t => t.toList.length) heq
  have hle := length_le_join s.toList
  simp only [quoteJson, String.toList_append, List.length_append] at hlen
  have hquote : ("\"" : String).toList.length = 1 := rfl
  omega

theorem arrayOut_ne (xs : List Json) (elements : List (Option String)) :
    jsonbOut (.arr xs) ≠ arrayOut elements := by
  intro heq
  have htext := congrArg String.toList heq
  simp [jsonbOut, arrayOut, String.toList_append] at htext

theorem iso_ne_output (t : Instant) : t.iso ≠ t.output := by
  intro heq
  have htext := congrArg String.toList heq
  simp [Instant.iso, Instant.output, String.toList_append] at htext

/-- The two texts of a value with a JSON text are the same where `SameText` says so. -/
theorem documentText_eq_iff {d : Datum} {s : String} (h : documentText d.toJsonb = some s) :
    SameText d ↔ s = d.output := by
  cases d with
  | text t =>
    obtain rfl := Option.some.inj h
    exact ⟨fun _ => rfl, fun _ => trivial⟩
  | int n =>
    obtain rfl := Option.some.inj h
    exact ⟨fun _ => text_integer n, fun _ => trivial⟩
  | float digits x =>
    obtain rfl := Option.some.inj h
    refine ⟨fun ⟨hplain, hzero⟩ => ?_, fun heq => ?_⟩
    · change x.decimal.text = x.output digits
      simp [Scientific.output, hplain, hzero]
    · change x.decimal.text = x.output digits at heq
      have hplain : x.isPlain digits = true := by
        by_contra hnot
        exact output_ne_text (Bool.eq_false_iff.mpr hnot) heq.symm
      refine ⟨hplain, Bool.eq_false_iff.mpr fun hzero => ?_⟩
      have hlen := congrArg (fun t => t.toList.length) heq
      simp [Scientific.output, hplain, hzero] at hlen
  | bool b =>
    cases b <;> (obtain rfl := Option.some.inj h; exact ⟨fun _ => rfl, fun _ => trivial⟩)
  | timestamptz t =>
    obtain rfl := Option.some.inj h
    exact ⟨False.elim, iso_ne_output t⟩
  | token t =>
    obtain rfl := Option.some.inj h
    exact ⟨fun _ => rfl, fun _ => trivial⟩
  | numeric n =>
    obtain rfl := Option.some.inj h
    exact ⟨fun _ => rfl, fun _ => trivial⟩
  | jsonb j =>
    cases j with
    | null => cases h
    | str t =>
      obtain rfl := Option.some.inj h
      exact ⟨fun hstr => absurd rfl (hstr t), fun heq => absurd heq.symm (quoteJson_ne t)⟩
    | _ =>
      obtain rfl := Option.some.inj h
      exact ⟨fun _ => rfl, fun _ t => by simp⟩
  | textArray xs =>
    obtain rfl := Option.some.inj h
    exact ⟨False.elim, arrayOut_ne _ _⟩
  | int8Array xs =>
    obtain rfl := Option.some.inj h
    exact ⟨False.elim, arrayOut_ne _ _⟩

end SameText

section Agreement

variable {server : Server} {c : Change} {tgOp : TgOp} {r : Row}

theorem Bare.head? {s : String} (h : Bare s) : (s.toList.dropWhile isSpace).head? ≠ some '"' := by
  obtain ⟨ch, cs, hcs, hquote, hspace⟩ := h
  simpa [hcs, hspace] using hquote

theorem bare_arrayOut (elements : List (Option String)) : Bare (arrayOut elements) := by
  simp only [arrayOut, String.append_assoc]
  exact bare_append ⟨'\x7b', [], rfl, by decide⟩ _

theorem bare_output {d : Datum} (htext : ∀ s, d ≠ .text s) (hjson : ∀ j, d ≠ .jsonb j) :
    Bare d.output := by
  cases d with
  | text s => exact absurd rfl (htext s)
  | int n => exact bare_integer n
  | float digits x => exact bare_float digits x
  | bool b => cases b <;> exact ⟨_, _, rfl, by decide⟩
  | timestamptz t =>
    simp only [Datum.output, Instant.output, String.append_assoc]
    exact bare_append t.day.bare _
  | token t => exact t.bare
  | numeric n => exact bare_text n
  | jsonb j => exact absurd rfl (hjson j)
  | textArray xs => exact bare_arrayOut _
  | int8Array xs => exact bare_arrayOut _

/-- The backfill reads a document, the trigger makes a string of it. -/
theorem read_output_ne {source : SqlType} {d : Datum} {s : String} (hfits : d.fits source)
    (hsource : source ≠ .jsonb) (hs : documentText d.toJsonb = some s) :
    server.read .jsonb d.output ≠ some (.jsonb (.str s)) := by
  intro hread
  obtain ⟨hhead, hlen⟩ := server.read_string _ _ hread
  have hjson : ∀ j, d ≠ .jsonb j := by
    rintro j rfl
    cases source <;> first | exact hsource rfl | exact hfits
  by_cases htext : ∃ t, d = .text t
  · obtain ⟨t, rfl⟩ := htext
    obtain rfl := Option.some.inj hs
    exact lt_irrefl _ hlen
  · exact Bare.head? (bare_output (not_exists.mp htext) hjson) hhead

theorem written_none (hop : tgOp.assigns c r = true) (hval : documentText (columnJson r c.column) = none) :
    written server c tgOp r = .value none := by
  simp [written, ogShadowWrite, hop, hval]

theorem written_some {s : String} (hop : tgOp.assigns c r = true)
    (hval : documentText (columnJson r c.column) = some s) :
    written server c tgOp r = match populateScalar server c.target s with
      | none => .refused
      | some d => .value (some d) := by
  simp only [written, ogShadowWrite, hop, hval, Bool.true_eq_false, if_false]
  cases populateScalar server c.target s with
  | none => rfl
  | some d => simp

theorem migrated_none (hval : r c.column = none) : migrated server c r = .value (r c.shadow) := by
  simp [migrated, backfill, hval]

theorem migrated_some {d : Datum} (hval : r c.column = some d) :
    migrated server c r = match server.read c.target d.output with
      | none => .refused
      | some d' => .value (some d') := by
  have hcast : backfillCast server c (some d.output) = server.read c.target d.output := by
    unfold backfillCast ogCastable
    cases hread : server.read c.target d.output <;> simp [hread]
  have hcolumn : (backfill server c r) c.column = some d := by
    simp [backfill, hval, Function.update_of_ne c.beside.symm]
  have hshadow : (backfill server c r) c.shadow = server.read c.target d.output := by
    simp [backfill, hval, hcast]
  simp only [migrated, hcolumn, hshadow]
  cases server.read c.target d.output <;> simp

end Agreement

section Instances

/-- A server that reads texts and whole numbers. -/
def plainServer : Server where
  read := fun typ s => match typ with
    | .text => some (.text s)
    | .int8 => s.toInt?.map .int
    | _ => none
  read_text := fun _ => rfl
  read_string := fun _ _ h => by cases h

/-- `datetime` to `string`. -/
def instantsToText : Change where
  column := "p_at"
  shadow := "p_at__s1"
  source := .timestamptz
  target := .text
  retypes := by decide
  beside := by decide

def newYear : Instant where
  day := ⟨"2026-01-01", '2', "026-01-01".toList, by decide, by decide, by decide⟩
  clock := "00:00:00"
  zoneHours := "+00"
  zoneMinutes := none
  era := ""

def newYearRow : Row := Function.update (fun _ => none) "p_at" (some (.timestamptz newYear))

/-- `long` to `string`. -/
def numbersToText : Change where
  column := "p_n"
  shadow := "p_n__s1"
  source := .int8
  target := .text
  retypes := by decide
  beside := by decide

end Instances

end OntologicalDb.ShadowWrite
