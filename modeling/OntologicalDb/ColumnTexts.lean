import Mathlib
import OntologicalDb.Values

/-!
The two texts PostgreSQL has for the value of a column: its output, which a cast
to text gives, and the text of the jsonb value it converts to.
-/

namespace OntologicalDb.ColumnTexts

open OntologicalDb.Values

section Types

/-- The SQL types a property can have. -/
inductive SqlType
  | text
  | int4
  | int8
  | float8
  | float4
  | bool
  | timestamptz
  | date
  | uuid
  | numeric
  | jsonb
  | textArray
  | int8Array
  | vector (dims : String)
deriving DecidableEq

def SqlType.name : SqlType → String
  | .text => "text"
  | .int4 => "int4"
  | .int8 => "int8"
  | .float8 => "float8"
  | .float4 => "float4"
  | .bool => "bool"
  | .timestamptz => "timestamptz"
  | .date => "date"
  | .uuid => "uuid"
  | .numeric => "numeric"
  | .jsonb => "jsonb"
  | .textArray => "text[]"
  | .int8Array => "int8[]"
  | .vector dims => "vector(" ++ dims ++ ")"

/-- `vector(1536)`, `vector(768)`, ... -/
def vectorType (d : String) : Option SqlType :=
  let cs := d.toList
  let dims := (cs.drop 7).dropLast
  if "vector(".toList.isPrefixOf cs ∧ cs.getLast? = some ')' ∧ 8 ≤ cs.length ∧
      dims ≠ [] ∧ dims.all Char.isDigit then
    some (.vector (String.ofList dims))
  else none

def mapDataType (decl : String) : Except String SqlType :=
  let d := (String.ofList (decl.trimAscii.toString.toList.map Char.toLower))
  if d ∈ ["string", "text", "str"] then .ok .text
  else if d ∈ ["int", "integer", "int4"] then .ok .int4
  else if d ∈ ["long", "bigint", "int8"] then .ok .int8
  else if d ∈ ["float", "double", "float8"] then .ok .float8
  else if d ∈ ["real", "float4"] then .ok .float4
  else if d ∈ ["bool", "boolean"] then .ok .bool
  else if d ∈ ["datetime", "timestamptz", "timestamp"] then .ok .timestamptz
  else if d = "date" then .ok .date
  else if d = "uuid" then .ok .uuid
  else if d ∈ ["numeric", "decimal"] then .ok .numeric
  else if d ∈ ["json", "jsonb"] then .ok .jsonb
  else if d ∈ ["text[]", "string[]"] then .ok .textArray
  else if d ∈ ["int[]", "bigint[]"] then .ok .int8Array
  else match vectorType d with
    | some t => .ok t
    | none => .error (s!"unsupported property type '{decl}'. supported: string, int, long, float, " ++
        "bool, datetime, date, uuid, numeric, jsonb, text[], int[], vector(N)")

end Types

section Texts

def isSpace (c : Char) : Bool := c = ' ' ∨ c = '\t' ∨ c = '\n' ∨ c = '\r'

/-- A text that begins with neither a blank nor a double quote. -/
def Bare (s : String) : Prop := ∃ c cs, s.toList = c :: cs ∧ c ≠ '"' ∧ isSpace c = false

/-- What a value is written as where the server has one way to write it. -/
structure Token where
  text : String
  bare : Bare text

/-- A finite float: its shortest digits `d.ddd` and the exponent of ten. -/
structure Scientific where
  negative : Bool
  lead : Fin 10
  rest : List (Fin 10)
  exponent : Int

def digitsText (ds : List (Fin 10)) : String := String.join (ds.map fun d => toString d.val)

def digitsValue (ds : List (Fin 10)) : Nat := ds.foldl (fun n d => n * 10 + d.val) 0

/-- The number as `numeric_in` reads the text of the float. -/
def Scientific.decimal (x : Scientific) : Decimal :=
  let magnitude := digitsValue (x.lead :: x.rest)
  let places : Int := x.rest.length - x.exponent
  let coeff : Int := magnitude * 10 ^ (-places).toNat
  ⟨if x.negative then -coeff else coeff, places.toNat⟩

def Scientific.isNegativeZero (x : Scientific) : Bool := x.negative ∧ x.decimal.coeff = 0

/-- Written without an exponent: `digits` is 15 for float8 and 6 for float4. -/
def Scientific.isPlain (digits : Int) (x : Scientific) : Bool :=
  -4 ≤ x.exponent ∧ x.exponent < digits

def exponentText (e : Int) : String :=
  (if e < 0 then "e-" else "e+") ++ (if e.natAbs < 10 then "0" else "") ++ toString e.natAbs

/-- `float8out` and `float4out`. -/
def Scientific.output (digits : Int) (x : Scientific) : String :=
  if x.isPlain digits then (if x.isNegativeZero then "-" else "") ++ x.decimal.text
  else (if x.negative then "-" else "") ++ toString x.lead.val ++
    (if x.rest = [] then "" else "." ++ digitsText x.rest) ++ exponentText x.exponent

/-- A finite instant as the session writes it. -/
structure Instant where
  day : Token
  clock : String
  zoneHours : String
  zoneMinutes : Option String
  era : String

def Instant.output (t : Instant) : String :=
  t.day.text ++ " " ++ t.clock ++ t.zoneHours ++
    (match t.zoneMinutes with | some m => ":" ++ m | none => "") ++ t.era

def Instant.iso (t : Instant) : String :=
  t.day.text ++ "T" ++ t.clock ++ t.zoneHours ++ ":" ++ t.zoneMinutes.getD "00" ++ t.era

end Texts

/-- The value of a column, as far as its texts depend on it. -/
inductive Datum
  | text (s : String)
  | int (n : Int)
  | float (digits : Int) (x : Scientific)
  | bool (b : Bool)
  | timestamptz (t : Instant)
  /-- A date, an uuid, a vector, or what is no finite number or instant. -/
  | token (t : Token)
  | numeric (d : Decimal)
  | jsonb (j : Json)
  | textArray (xs : List (Option String))
  | int8Array (xs : List (Option Int))

def Datum.fits : SqlType → Datum → Prop
  | .text, .text _ => True
  | .int4, .int n => -2 ^ 31 ≤ n ∧ n < 2 ^ 31
  | .int8, .int n => -2 ^ 63 ≤ n ∧ n < 2 ^ 63
  | .float8, .float digits _ => digits = 15
  | .float4, .float digits _ => digits = 6
  | .bool, .bool _ => True
  | .timestamptz, .timestamptz _ => True
  | .numeric, .numeric _ => True
  | .jsonb, .jsonb _ => True
  | .textArray, .textArray _ => True
  | .int8Array, .int8Array xs => ∀ n ∈ xs.reduceOption, -2 ^ 63 ≤ n ∧ n < 2 ^ 63
  | .date, .token _ | .uuid, .token _ | .vector _, .token _ => True
  | .float8, .token t | .float4, .token t => t.text ∈ ["NaN", "Infinity", "-Infinity"]
  | .numeric, .token t => t.text ∈ ["NaN", "Infinity", "-Infinity"]
  | .timestamptz, .token t => t.text ∈ ["infinity", "-infinity"]
  | _, _ => False

section Output

def hexDigits (n : Nat) : String := String.ofList [Nat.digitChar (n / 16), Nat.digitChar (n % 16)]

/-- `escape_json`, one character. -/
def escapeChar (c : Char) : String :=
  if c = '"' then "\\\"" else if c = '\\' then "\\\\"
  else if c = '\n' then "\\n" else if c = '\r' then "\\r" else if c = '\t' then "\\t"
  else if c = Char.ofNat 8 then "\\b" else if c = Char.ofNat 12 then "\\f"
  else if c.toNat < 32 then "\\u00" ++ hexDigits c.toNat
  else String.singleton c

def quoteJson (s : String) : String := "\"" ++ String.join (s.toList.map escapeChar) ++ "\""

mutual

/-- `jsonb_out`. -/
def jsonbOut : Json → String
  | .null => "null"
  | .bool b => if b then "true" else "false"
  | .num d => d.text
  | .str s => quoteJson s
  | .arr xs => "[" ++ jsonbOutList xs ++ "]"
  | .obj kvs => "\x7b" ++ jsonbOutFields kvs ++ "\x7d"

def jsonbOutList : List Json → String
  | [] => ""
  | [x] => jsonbOut x
  | x :: xs => jsonbOut x ++ ", " ++ jsonbOutList xs

def jsonbOutFields : List (String × Json) → String
  | [] => ""
  | [(k, x)] => quoteJson k ++ ": " ++ jsonbOut x
  | (k, x) :: xs => quoteJson k ++ ": " ++ jsonbOut x ++ ", " ++ jsonbOutFields xs

end

def needsQuotes (s : String) : Bool :=
  s = "" ∨ s.toList.map Char.toUpper = "NULL".toList ∨
    s.toList.any fun c => isSpace c ∨ c ∈ ['"', '\\', '\x7b', '\x7d', ',', Char.ofNat 11, Char.ofNat 12]

def quoteElement (s : String) : String :=
  if needsQuotes s then
    "\"" ++ String.join (s.toList.map fun c =>
      if c = '"' ∨ c = '\\' then "\\" ++ String.singleton c else String.singleton c) ++ "\""
  else s

/-- `array_out`. -/
def arrayOut (elements : List (Option String)) : String :=
  "\x7b" ++ ",".intercalate (elements.map fun e => e.getD "NULL") ++ "\x7d"

/-- The value cast to text. -/
def Datum.output : Datum → String
  | .text s => s
  | .int n => toString n
  | .float digits x => x.output digits
  | .bool b => if b then "true" else "false"
  | .timestamptz t => t.output
  | .token t => t.text
  | .numeric d => d.text
  | .jsonb j => jsonbOut j
  | .textArray xs => arrayOut (xs.map fun x => x.map quoteElement)
  | .int8Array xs => arrayOut (xs.map fun x => x.map toString)

/-- `to_jsonb`. -/
def Datum.toJsonb : Datum → Json
  | .text s => .str s
  | .int n => .num ⟨n, 0⟩
  | .float _ x => .num x.decimal
  | .bool b => .bool b
  | .timestamptz t => .str t.iso
  | .token t => .str t.text
  | .numeric d => .num d
  | .jsonb j => j
  | .textArray xs => .arr (xs.map fun x => (x.map Json.str).getD .null)
  | .int8Array xs => .arr (xs.map fun x => (x.map fun n => Json.num ⟨n, 0⟩).getD .null)

/-- `document #>> '{}'`; NULL for the JSON null. -/
def documentText : Json → Option String
  | .null => none
  | .str s => some s
  | j => some (jsonbOut j)

end Output

end OntologicalDb.ColumnTexts
