import OntologicalDb.CypherLexer
import OntologicalDb.CypherSyntax

/-!
The parser of node and relationship patterns, over the tokens of a query; the property map
of a pattern is read by the parser of expressions.
-/

namespace OntologicalDb.CypherPatterns

open OntologicalDb.CypherLexer
open OntologicalDb.CypherSyntax

def MAX_VAR_LENGTH : Nat := 8

variable {F : Type}

section Cursor

def punct (p : String) : Token F := ⟨.punct p, ""⟩

/-- The token under the cursor; past the end it is the last one again. -/
def peek : List (Token F) → Tok F
  | [] => .eof
  | t :: _ => t.tok

def bump : List (Token F) → List (Token F)
  | _ :: u :: ts => u :: ts
  | ts => ts

def atPunct (p : String) (ts : List (Token F)) : Bool :=
  match peek ts with
  | .punct s => s = p
  | _ => false

def expectPunct (p : String) (ts : List (Token F)) : Except String (List (Token F)) :=
  if atPunct p ts then .ok (bump ts) else .error s!"expected '{p}'"

/-- Identifier in a position where keywords are also acceptable names. -/
def name (ts : List (Token F)) : Except String (String × List (Token F)) :=
  match ts with
  | [] => .error "expected a name"
  | t :: _ =>
      match t.tok with
      | .ident s | .quotedIdent s => .ok (s, bump ts)
      | .keyword _ => .ok (t.raw, bump ts)
      | _ => .error "expected a name"

def atIdent (ts : List (Token F)) : Bool :=
  match peek ts with
  | .ident _ | .quotedIdent _ => true
  | _ => false

/-- `if matches!(self.peek(), ..) { Some(self.name()?) } else { None }` -/
def optionalName (ts : List (Token F)) : Except String (Option String × List (Token F)) :=
  if atIdent ts then (name ts).map fun v => (some v.1, v.2) else .ok (none, ts)

/-- A number under the cursor. -/
def atInt (ts : List (Token F)) : Option Nat :=
  match peek ts with
  | .int n => some n
  | _ => none

end Cursor

section Patterns

/-- Parse what may be left of a property map. -/
abbrev PropMap (F : Type) :=
  List (Token F) → Except String (List (String × Expr) × List (Token F))

variable (propMap : PropMap F)

/-- Names, each behind a separator, over at most so many tokens. -/
def namesAfter (sep : List (Token F) → Bool) (skip : List (Token F) → List (Token F)) :
    Nat → List (Token F) → Except String (List String × List (Token F))
  | 0, ts => .ok ([], ts)
  | n + 1, ts =>
      if sep ts then do
        let v ← name (skip ts)
        let w ← namesAfter sep skip n v.2
        return (v.1 :: w.1, w.2)
      else .ok ([], ts)

/-- `|` and a name, again and again. -/
def alternatives (ts : List (Token F)) : Except String (List String × List (Token F)) :=
  namesAfter (atPunct "|") bump ts.length ts

/-- The labels of a node: groups of alternatives behind colons, over at most so many
tokens. -/
def labelGroups : Nat → List (Token F) → Except String (List String × List (Token F))
  | 0, ts => .ok ([], ts)
  | n + 1, ts =>
      if atPunct ":" ts then do
        let v ← name (bump ts)
        let w ← alternatives v.2
        let u ← labelGroups n w.2
        return (v.1 :: (w.1 ++ u.1), u.2)
      else .ok ([], ts)

def parseProps (ts : List (Token F)) :
    Except String (List (String × Expr) × List (Token F)) :=
  if atPunct "\x7b" ts then propMap ts else .ok ([], ts)

def parseNodePat (ts : List (Token F)) : Except String (NodePat × List (Token F)) := do
  let ts ← expectPunct "(" ts
  let v ← optionalName ts
  let l ← labelGroups v.2.length v.2
  let p ← parseProps propMap l.2
  let ts ← expectPunct ")" p.2
  return (⟨v.1, l.1, p.1⟩, ts)

/-- The types of a relationship: a colon may stand behind each `|`. -/
def relTypes (ts : List (Token F)) : Except String (List String × List (Token F)) :=
  if atPunct ":" ts then do
    let v ← name (bump ts)
    let w ← namesAfter (atPunct "|")
      (fun ts => if atPunct ":" (bump ts) then bump (bump ts) else bump ts) v.2.length v.2
    return (v.1 :: w.1, w.2)
  else .ok ([], ts)

/-- `n as u32` -/
def asU32 (n : Nat) : Nat := n % 2 ^ 32

/-- The bounds behind the star. -/
def parseRange (ts : List (Token F)) : (Nat × Nat) × List (Token F) :=
  let lo := match atInt ts with
    | some n => (asU32 n, bump ts)
    | none => (1, ts)
  let hi :=
    if atPunct ".." lo.2 then
      match atInt (bump lo.2) with
      | some n => (asU32 n, bump (bump lo.2))
      | none => (MAX_VAR_LENGTH, bump lo.2)
    else (lo.1, lo.2)
  ((lo.1, max hi.1 lo.1), hi.2)

/-- What stands between the brackets of a relationship. -/
def parseDetail (ts : List (Token F)) : Except String (RelPat × List (Token F)) := do
  let v ← optionalName ts
  let t ← relTypes v.2
  let r := if atPunct "*" t.2 then
      let r := parseRange (bump t.2)
      (some r.1, r.2)
    else (none, t.2)
  let p ← parseProps propMap r.2
  let ts ← expectPunct "]" p.2
  return (⟨v.1, t.1, .both, p.1, r.1⟩, ts)

def parseRelPat (ts : List (Token F)) : Except String (RelPat × List (Token F)) := do
  let start ← if atPunct "<-" ts then .ok (Dir.in_, bump ts)
    else if atPunct "-" ts then .ok (Dir.both, bump ts)
    else .error "expected a relationship pattern"
  let d ← if atPunct "[" start.2 then parseDetail propMap (bump start.2)
    else .ok (⟨none, [], .both, [], none⟩, start.2)
  if atPunct "->" d.2 then
    return ({ d.1 with dir := if start.1 = .in_ then .both else .out }, bump d.2)
  else if atPunct "-" d.2 then
    return ({ d.1 with dir := if start.1 = .in_ then .in_ else .both }, bump d.2)
  else .error "expected '->' or '-' to close the relationship pattern"

end Patterns

end OntologicalDb.CypherPatterns
