/-!
The values that cross the boundary between the engine and PostgreSQL: jsonb
documents and the column values of the storage tables.
-/

namespace OntologicalDb.Values

/-- A decimal numeral `coeff · 10^(-scale)`; an integer has scale zero. -/
structure Decimal where
  coeff : Int
  scale : Nat
deriving DecidableEq

/-- The decimal digits of a numeral, without an exponent. -/
def Decimal.text (d : Decimal) : String :=
  let digits := toString d.coeff.natAbs
  let padded := "".pushn '0' (d.scale + 1 - digits.length) ++ digits
  let whole := String.ofList (padded.toList.take (padded.length - d.scale))
  let fraction := String.ofList (padded.toList.drop (padded.length - d.scale))
  (if d.coeff < 0 then "-" else "") ++
    (if d.scale = 0 then digits else whole ++ "." ++ fraction)

/-- A jsonb document. -/
inductive Json
  | null
  | bool (b : Bool)
  | num (d : Decimal)
  | str (s : String)
  | arr (xs : List Json)
  | obj (kvs : List (String × Json))

mutual

def Json.decEq : (a b : Json) → Decidable (a = b)
  | .null, .null => isTrue rfl
  | .bool a, .bool b =>
      if h : a = b then isTrue (h ▸ rfl) else isFalse fun h' => h (Json.bool.inj h')
  | .num a, .num b =>
      if h : a = b then isTrue (h ▸ rfl) else isFalse fun h' => h (Json.num.inj h')
  | .str a, .str b =>
      if h : a = b then isTrue (h ▸ rfl) else isFalse fun h' => h (Json.str.inj h')
  | .arr a, .arr b =>
      match Json.decEqList a b with
      | isTrue h => isTrue (h ▸ rfl)
      | isFalse h => isFalse fun h' => h (Json.arr.inj h')
  | .obj a, .obj b =>
      match Json.decEqFields a b with
      | isTrue h => isTrue (h ▸ rfl)
      | isFalse h => isFalse fun h' => h (Json.obj.inj h')
  | .null, .bool _ | .null, .num _ | .null, .str _ | .null, .arr _ | .null, .obj _
  | .bool _, .null | .bool _, .num _ | .bool _, .str _ | .bool _, .arr _ | .bool _, .obj _
  | .num _, .null | .num _, .bool _ | .num _, .str _ | .num _, .arr _ | .num _, .obj _
  | .str _, .null | .str _, .bool _ | .str _, .num _ | .str _, .arr _ | .str _, .obj _
  | .arr _, .null | .arr _, .bool _ | .arr _, .num _ | .arr _, .str _ | .arr _, .obj _
  | .obj _, .null | .obj _, .bool _ | .obj _, .num _ | .obj _, .str _ | .obj _, .arr _ =>
      isFalse nofun

def Json.decEqList : (a b : List Json) → Decidable (a = b)
  | [], [] => isTrue rfl
  | x :: xs, y :: ys =>
      match Json.decEq x y, Json.decEqList xs ys with
      | isTrue h, isTrue h' => isTrue (h ▸ h' ▸ rfl)
      | isFalse h, _ => isFalse fun h' => h (List.cons.inj h').1
      | _, isFalse h => isFalse fun h' => h (List.cons.inj h').2
  | [], _ :: _ | _ :: _, [] => isFalse nofun

def Json.decEqFields : (a b : List (String × Json)) → Decidable (a = b)
  | [], [] => isTrue rfl
  | (k, x) :: xs, (l, y) :: ys =>
      if hk : k = l then
        match Json.decEq x y, Json.decEqFields xs ys with
        | isTrue h, isTrue h' => isTrue (hk ▸ h ▸ h' ▸ rfl)
        | isFalse h, _ => isFalse fun h' => h (Prod.mk.inj (List.cons.inj h').1).2
        | _, isFalse h => isFalse fun h' => h (List.cons.inj h').2
      else isFalse fun h' => hk (Prod.mk.inj (List.cons.inj h').1).1
  | [], _ :: _ | _ :: _, [] => isFalse nofun

end

instance : DecidableEq Json := Json.decEq

/-- The member of an object, as `document -> key` reads it. -/
def Json.get? (key : String) : Json → Option Json
  | .obj kvs => (kvs.find? fun kv => kv.1 = key).map (·.2)
  | _ => none

def Json.isNull : Json → Bool
  | .null => true
  | _ => false

mutual

/-- The text of a document, in jsonb's spacing. -/
def Json.text : Json → String
  | .null => "null"
  | .bool b => if b then "true" else "false"
  | .num d => d.text
  | .str s => "\"" ++ s ++ "\""
  | .arr xs => "[" ++ Json.textList xs ++ "]"
  | .obj kvs => "\x7b" ++ Json.textFields kvs ++ "\x7d"

def Json.textList : List Json → String
  | [] => ""
  | [x] => x.text
  | x :: xs => x.text ++ ", " ++ Json.textList xs

def Json.textFields : List (String × Json) → String
  | [] => ""
  | [(k, x)] => "\"" ++ k ++ "\": " ++ x.text
  | (k, x) :: xs => "\"" ++ k ++ "\": " ++ x.text ++ ", " ++ Json.textFields xs

end

/-- A column value.  Types the engine never computes with keep their text. -/
inductive Val
  | null
  | bool (b : Bool)
  | int (i : Int)
  | float (d : Decimal)
  | text (s : String)
  | json (j : Json)
  | array (xs : List Val)
  | other (type text : String)

mutual

def Val.decEq : (a b : Val) → Decidable (a = b)
  | .null, .null => isTrue rfl
  | .bool a, .bool b =>
      if h : a = b then isTrue (h ▸ rfl) else isFalse fun h' => h (Val.bool.inj h')
  | .int a, .int b =>
      if h : a = b then isTrue (h ▸ rfl) else isFalse fun h' => h (Val.int.inj h')
  | .float a, .float b =>
      if h : a = b then isTrue (h ▸ rfl) else isFalse fun h' => h (Val.float.inj h')
  | .text a, .text b =>
      if h : a = b then isTrue (h ▸ rfl) else isFalse fun h' => h (Val.text.inj h')
  | .json a, .json b =>
      if h : a = b then isTrue (h ▸ rfl) else isFalse fun h' => h (Val.json.inj h')
  | .array a, .array b =>
      match Val.decEqList a b with
      | isTrue h => isTrue (h ▸ rfl)
      | isFalse h => isFalse fun h' => h (Val.array.inj h')
  | .other s a, .other t b =>
      if h : s = t ∧ a = b then isTrue (h.1 ▸ h.2 ▸ rfl)
      else isFalse fun h' => h (Val.other.inj h')
  | .null, .bool _ | .null, .int _ | .null, .float _ | .null, .text _ | .null, .json _
  | .null, .array _ | .null, .other _ _
  | .bool _, .null | .bool _, .int _ | .bool _, .float _ | .bool _, .text _
  | .bool _, .json _ | .bool _, .array _ | .bool _, .other _ _
  | .int _, .null | .int _, .bool _ | .int _, .float _ | .int _, .text _
  | .int _, .json _ | .int _, .array _ | .int _, .other _ _
  | .float _, .null | .float _, .bool _ | .float _, .int _ | .float _, .text _
  | .float _, .json _ | .float _, .array _ | .float _, .other _ _
  | .text _, .null | .text _, .bool _ | .text _, .int _ | .text _, .float _
  | .text _, .json _ | .text _, .array _ | .text _, .other _ _
  | .json _, .null | .json _, .bool _ | .json _, .int _ | .json _, .float _
  | .json _, .text _ | .json _, .array _ | .json _, .other _ _
  | .array _, .null | .array _, .bool _ | .array _, .int _ | .array _, .float _
  | .array _, .text _ | .array _, .json _ | .array _, .other _ _
  | .other _ _, .null | .other _ _, .bool _ | .other _ _, .int _ | .other _ _, .float _
  | .other _ _, .text _ | .other _ _, .json _ | .other _ _, .array _ =>
      isFalse nofun

def Val.decEqList : (a b : List Val) → Decidable (a = b)
  | [], [] => isTrue rfl
  | x :: xs, y :: ys =>
      match Val.decEq x y, Val.decEqList xs ys with
      | isTrue h, isTrue h' => isTrue (h ▸ h' ▸ rfl)
      | isFalse h, _ => isFalse fun h' => h (List.cons.inj h').1
      | _, isFalse h => isFalse fun h' => h (List.cons.inj h').2
  | [], _ :: _ | _ :: _, [] => isFalse nofun

end

instance : DecidableEq Val := Val.decEq

instance : Inhabited Val := ⟨.null⟩

/-- `document ->> key`: the member as text, NULL when it is absent or null. -/
def Json.getText (key : String) (j : Json) : Val :=
  match j.get? key with
  | none | some .null => .null
  | some (.str s) => .text s
  | some x => .text x.text

end OntologicalDb.Values
