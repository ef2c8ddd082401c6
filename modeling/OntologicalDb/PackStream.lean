import Mathlib.Data.String.Basic
import Mathlib.Data.List.Flatten
import OntologicalDb.BigEndian
import OntologicalDb.FallibleState

/-!
PackStream values, their encoder and decoder, and the chunks messages travel in.
-/

namespace OntologicalDb.PackStream

open OntologicalDb.BigEndian
open OntologicalDb.FallibleState

/-- Floats are kept as their bits, maps as their entries in the order of the keys. -/
inductive Value
  | null
  | bool (b : Bool)
  | int (i : Int64)
  | float (bits : UInt64)
  | string (s : String)
  | list (xs : List Value)
  | map (m : List (String × Value))
  | struct (sig : UInt8) (fields : List Value)

namespace Value

def as_str : Value → Option String
  | .string s => some s
  | _ => none

def as_i64 : Value → Option Int64
  | .int i => some i
  | _ => none

def map_get (key : String) : Value → Option Value
  | .map m => m.lookup key
  | _ => none

/-- The values a value is built from. -/
def children : Value → List Value
  | .list xs => xs
  | .map m => m.map Prod.snd
  | .struct _ fields => fields
  | _ => []

theorem sizeOf_lt_of_mem_children {v c : Value} (hc : c ∈ v.children) : sizeOf c < sizeOf v := by
  cases v with
  | list xs =>
      change c ∈ xs at hc
      have := List.sizeOf_lt_of_mem hc
      simp only [list.sizeOf_spec]
      omega
  | map m =>
      obtain ⟨⟨k, c⟩, he, rfl⟩ := List.mem_map.mp hc
      have := List.sizeOf_lt_of_mem he
      simp only [map.sizeOf_spec, Prod.mk.sizeOf_spec] at this ⊢
      omega
  | struct sig fields =>
      change c ∈ fields at hc
      have := List.sizeOf_lt_of_mem hc
      simp only [struct.sizeOf_spec]
      omega
  | null | bool _ | int _ | float _ | string _ => cases hc

/-- Induction over what a value is built from. -/
theorem nested {motive : Value → Prop}
    (step : ∀ v, (∀ c ∈ v.children, motive c) → motive v) (v : Value) : motive v :=
  step v fun c _ => nested step c
termination_by sizeOf v
decreasing_by exact sizeOf_lt_of_mem_children ‹_›

/-- A condition on a value and on everything it is built from. -/
inductive Everywhere (P : Value → Prop) : Value → Prop
  | intro {v : Value} (here : P v) (inside : ∀ c ∈ v.children, Everywhere P c) : Everywhere P v

theorem Everywhere.here {P : Value → Prop} {v : Value} (h : Everywhere P v) : P v := by
  cases h with
  | intro here _ => exact here

theorem Everywhere.inside {P : Value → Prop} {v c : Value} (h : Everywhere P v)
    (hc : c ∈ v.children) : Everywhere P c := by
  cases h with
  | intro _ inside => exact inside c hc

theorem everywhere_iff {P : Value → Prop} {v : Value} :
    Everywhere P v ↔ P v ∧ ∀ c ∈ v.children, Everywhere P c := by
  constructor
  · intro h
    exact ⟨h.here, fun c hc => h.inside hc⟩
  · rintro ⟨here, inside⟩
    exact .intro here inside

theorem everywhere_leaf {P : Value → Prop} {v : Value} (hleaf : v.children = []) :
    Everywhere P v ↔ P v := by
  rw [everywhere_iff, hleaf]
  simp

@[simp] theorem everywhere_int {P : Value → Prop} {i : Int64} :
    Everywhere P (.int i) ↔ P (.int i) :=
  everywhere_leaf rfl

@[simp] theorem everywhere_string {P : Value → Prop} {s : String} :
    Everywhere P (.string s) ↔ P (.string s) :=
  everywhere_leaf rfl

@[simp] theorem everywhere_list {P : Value → Prop} {xs : List Value} :
    Everywhere P (.list xs) ↔ P (.list xs) ∧ ∀ x ∈ xs, Everywhere P x :=
  everywhere_iff

@[simp] theorem everywhere_map {P : Value → Prop} {m : List (String × Value)} :
    Everywhere P (.map m) ↔ P (.map m) ∧ ∀ x ∈ m.map Prod.snd, Everywhere P x :=
  everywhere_iff

@[simp] theorem everywhere_struct {P : Value → Prop} {sig : UInt8} {fields : List Value} :
    Everywhere P (.struct sig fields) ↔
      P (.struct sig fields) ∧ ∀ x ∈ fields, Everywhere P x :=
  everywhere_iff

mutual

/-- How many containers are open around the deepest value. -/
def depth : Value → Nat
  | .list xs => depthAll xs + 1
  | .map m => depthEntries m + 1
  | .struct _ fields => depthAll fields + 1
  | _ => 0

def depthAll : List Value → Nat
  | [] => 0
  | x :: xs => max (depth x) (depthAll xs)

def depthEntries : List (String × Value) → Nat
  | [] => 0
  | (_, x) :: m => max (depth x) (depthEntries m)

end

theorem depth_le_depthAll {x : Value} {xs : List Value} (hx : x ∈ xs) : x.depth ≤ depthAll xs := by
  induction xs with
  | nil => cases hx
  | cons y ys ih =>
      rw [depthAll]
      rcases List.mem_cons.mp hx with rfl | hx
      · exact Nat.le_max_left _ _
      · exact (ih hx).trans (Nat.le_max_right _ _)

theorem depth_le_depthEntries {e : String × Value} {m : List (String × Value)} (he : e ∈ m) :
    e.2.depth ≤ depthEntries m := by
  induction m with
  | nil => cases he
  | cons e' m ih =>
      rw [depthEntries]
      rcases List.mem_cons.mp he with rfl | he
      · exact Nat.le_max_left _ _
      · exact (ih he).trans (Nat.le_max_right _ _)

end Value

/-! Maps -/

/-- `BTreeMap::insert`. -/
def insert (k : String) (v : Value) : List (String × Value) → List (String × Value)
  | [] => [(k, v)]
  | (k', v') :: m =>
      if k < k' then (k, v) :: (k', v') :: m
      else if k = k' then (k, v) :: m
      else (k', v') :: insert k v m

/-- The keys of a map stand in their order, each once. -/
def Ordered (m : List (String × Value)) : Prop :=
  (m.map Prod.fst).Pairwise (· < ·)

theorem lookup_cons_if {k k' : String} {v : Value} {m : List (String × Value)} :
    ((k, v) :: m).lookup k' = if k' = k then some v else m.lookup k' := by
  rw [List.lookup_cons]
  split_ifs with h
  · simp [h]
  · simp [beq_eq_false_iff_ne.mpr h]

theorem lookup_insert {k k' : String} {v : Value} {m : List (String × Value)} :
    (insert k v m).lookup k' = if k' = k then some v else m.lookup k' := by
  induction m with
  | nil => exact lookup_cons_if
  | cons e m ih =>
      obtain ⟨k'', v''⟩ := e
      unfold insert
      split
      · exact lookup_cons_if
      · split
        next heq =>
          subst heq
          simp only [lookup_cons_if]
          split_ifs <;> rfl
        next hne =>
          simp only [lookup_cons_if, ih]
          by_cases h : k' = k''
          · subst h
            simp [Ne.symm hne]
          · simp [h]

/-- A key past all others is put at the end. -/
theorem insert_of_lt {k : String} {v : Value} {m : List (String × Value)}
    (h : ∀ k' ∈ m.map Prod.fst, k' < k) : insert k v m = m ++ [(k, v)] := by
  induction m with
  | nil => rfl
  | cons e m ih =>
      obtain ⟨k', v'⟩ := e
      have hlt : k' < k := h k' List.mem_cons_self
      rw [insert, if_neg hlt.asymm, if_neg hlt.ne', ih fun x hx => h x (List.mem_cons_of_mem _ hx)]
      rfl

/-! Strings -/

/-- `str::as_bytes`. -/
def as_bytes (s : String) : List UInt8 :=
  s.toByteArray.data.toList

/-- `core::str::utf8_char_width`, 0 for a byte no sequence starts with. -/
def utf8_char_width (b : UInt8) : Nat :=
  if b < 0x80 then 1
  else if b < 0xC2 then 0
  else if b < 0xE0 then 2
  else if b < 0xF0 then 3
  else if b < 0xF5 then 4
  else 0

/-- Whether a byte may follow the first one of a sequence. -/
def second (first b : UInt8) : Bool :=
  if first = 0xE0 then 0xA0 ≤ b && b ≤ 0xBF
  else if first = 0xED then 0x80 ≤ b && b ≤ 0x9F
  else if first = 0xF0 then 0x90 ≤ b && b ≤ 0xBF
  else if first = 0xF4 then 0x80 ≤ b && b ≤ 0x8F
  else 0x80 ≤ b && b ≤ 0xBF

/-- How many of the bytes after the first one belong to its sequence. -/
def inspected (first : UInt8) (bs : List UInt8) : Nat :=
  match utf8_char_width first, bs with
  | 0, _ | 1, _ | _, [] => 0
  | width + 2, b :: bs =>
      if second first b then
        1 + ((bs.take width).takeWhile fun b => 0x80 ≤ b && b ≤ 0xBF).length
      else 0

/-- The character of a complete sequence. -/
def character (first : UInt8) (bs : List UInt8) : Char :=
  let lead := if bs = [] then first.toNat else first.toNat % 2 ^ (6 - bs.length)
  Char.ofNat (bs.foldl (fun n b => n * 64 + b.toNat % 64) lead)

/-- Each longest prefix of a sequence that is not completed becomes one U+FFFD. -/
def lossyChars (bs : List UInt8) : List Char :=
  match bs with
  | [] => []
  | b :: bs =>
      let n := inspected b bs
      let c := if n + 1 = utf8_char_width b then character b (bs.take n) else '\uFFFD'
      c :: lossyChars (bs.drop n)
termination_by bs.length
decreasing_by
  rw [List.length_drop, List.length_cons]
  omega

/-- `String::from_utf8_lossy`. -/
def from_utf8_lossy (bs : List UInt8) : String :=
  if h : (ByteArray.mk bs.toArray).IsValidUTF8 then String.fromUTF8 _ h
  else String.ofList (lossyChars bs)

theorem from_utf8_lossy_as_bytes (s : String) : from_utf8_lossy (as_bytes s) = s := by
  have hbytes : ByteArray.mk (as_bytes s).toArray = s.toByteArray := by
    rw [as_bytes, Array.toArray_toList]
  unfold from_utf8_lossy
  have hvalid : (ByteArray.mk (as_bytes s).toArray).IsValidUTF8 := by
    rw [hbytes]
    exact s.isValidUTF8
  rw [dif_pos hvalid]
  apply String.toByteArray_inj.mp
  exact hbytes

/-! Encoding -/

/-- Tiny marker for small sizes, then the 8/16/32-bit forms that follow it. -/
def encode_header (len : Nat) (tiny base : UInt8) : List UInt8 :=
  if len < 16 then [tiny ||| UInt8.ofNat len]
  else if len < 256 then base :: toBytes 1 len
  else if len < 65536 then (base + 1) :: toBytes 2 len
  else (base + 2) :: toBytes 4 len

def encode_int (i : Int64) : List UInt8 :=
  if -16 ≤ i ∧ i ≤ 127 then [i.toInt8.toUInt8]
  else if -128 ≤ i ∧ i ≤ 127 then [0xC8, i.toInt8.toUInt8]
  else if -32768 ≤ i ∧ i ≤ 32767 then 0xC9 :: toBytes 2 i.toInt16.toUInt16.toNat
  else if -2147483648 ≤ i ∧ i ≤ 2147483647 then 0xCA :: toBytes 4 i.toInt32.toUInt32.toNat
  else 0xCB :: toBytes 8 i.toUInt64.toNat

def encode_string (s : String) : List UInt8 :=
  encode_header (as_bytes s).length 0x80 0xD0 ++ as_bytes s

mutual

def encode : Value → List UInt8
  | .null => [0xC0]
  | .bool false => [0xC2]
  | .bool true => [0xC3]
  | .float bits => 0xC1 :: toBytes 8 bits.toNat
  | .int i => encode_int i
  | .string s => encode_string s
  | .list xs => encode_header xs.length 0x90 0xD4 ++ encodeAll xs
  | .map m => encode_header m.length 0xA0 0xD8 ++ encodeEntries m
  -- structures are tiny only: the low four bits of the number of fields
  | .struct sig fields =>
      [0xB0 ||| (UInt8.ofNat fields.length &&& 0x0F), sig] ++ encodeAll fields

def encodeAll : List Value → List UInt8
  | [] => []
  | x :: xs => encode x ++ encodeAll xs

def encodeEntries : List (String × Value) → List UInt8
  | [] => []
  | (k, x) :: m => encode_string k ++ encode x ++ encodeEntries m

end

/-! Decoding -/

/-- How deeply a value may nest before we stop following it. -/
def MAX_DEPTH : Nat := 64

inductive Error
  | shortRead
  | nestingDeeper
  | unknownMarker (m : UInt8)
  | nonStringKey (k : Value)
  | emptyChunks
  | longerMessage
  /-- The calls nested further than the frames the stack has room for. -/
  | stackOverflow

/-- What the decoder did to the memory, with the position it stood at. -/
inductive Access
  | read (pos len : Nat)
  | reserve (pos capacity : Nat)

structure Reader where
  buf : List UInt8
  pos : Nat
  depth : Nat
  /-- Latest first. -/
  accesses : List Access

abbrev ReaderM := EStateM Error Reader

namespace Reader

def new (buf : List UInt8) : Reader where
  buf := buf
  pos := 0
  depth := 0
  accesses := []

def enter : ReaderM Unit := do
  modify fun r => { r with depth := r.depth + 1 }
  let r ← get
  if MAX_DEPTH < r.depth then
    throw .nestingDeeper

def leave : ReaderM Unit :=
  modify fun r => { r with depth := r.depth - 1 }

/-- How many members it is worth reserving room for. -/
def reserve (r : Reader) (n bytes_each : Nat) : Nat :=
  min n ((r.buf.length - r.pos) / max bytes_each 1)

/-- Room for as many members is asked for. -/
def with_capacity (pos capacity : Nat) : ReaderM Unit :=
  modify fun r => { r with accesses := .reserve pos capacity :: r.accesses }

def byte : ReaderM UInt8 := do
  let r ← get
  match r.buf[r.pos]? with
  | none => throw .shortRead
  | some b =>
      set { r with pos := r.pos + 1, accesses := .read r.pos 1 :: r.accesses }
      return b

def bytes (n : Nat) : ReaderM (List UInt8) := do
  let r ← get
  if r.buf.length < r.pos + n then
    throw .shortRead
  else
    set { r with pos := r.pos + n, accesses := .read r.pos n :: r.accesses }
    return (r.buf.drop r.pos).take n

def size (marker base : UInt8) : ReaderM Nat := do
  if marker - base = 0 then
    return (← byte).toNat
  else if marker - base = 1 then
    return ofBytes (← bytes 2)
  else
    return ofBytes (← bytes 4)

def string (n : Nat) : ReaderM Value := do
  let r ← get
  let b ← bytes n
  -- what U+FFFD adds to the text comes from the bytes read, not from a length
  with_capacity r.pos b.length
  return .string (from_utf8_lossy b)

/-- A container reads its members with the reader of values one frame up. -/
def list (value : ReaderM Value) (n : Nat) : ReaderM Value := do
  enter
  let r ← get
  with_capacity r.pos (r.reserve n 1)
  let xs ← times value n
  leave
  return .list xs

def entries (value : ReaderM Value) :
    Nat → List (String × Value) → ReaderM (List (String × Value))
  | 0, m => return m
  | n + 1, m => do
      let k ← value
      match k with
      | .string k =>
          let v ← value
          entries value n (insert k v m)
      | other => throw (.nonStringKey other)

def dict (value : ReaderM Value) (n : Nat) : ReaderM Value := do
  enter
  let m ← entries value n []
  leave
  return .map m

def struct (value : ReaderM Value) (n : Nat) : ReaderM Value := do
  enter
  let sig ← byte
  let r ← get
  with_capacity r.pos (r.reserve n 1)
  let fields ← times value n
  leave
  return .struct sig fields

/-- The branches of `value`, by the marker. -/
def marked (value : ReaderM Value) (m : UInt8) : ReaderM Value :=
  if m = 0xC0 then return .null
  else if m = 0xC2 then return .bool false
  else if m = 0xC3 then return .bool true
  else if m = 0xC1 then do
    return .float (UInt64.ofNat (ofBytes (← bytes 8)))
  else if m = 0xC8 then do
    return .int (← byte).toInt8.toInt64
  else if m = 0xC9 then do
    return .int (UInt16.ofNat (ofBytes (← bytes 2))).toInt16.toInt64
  else if m = 0xCA then do
    return .int (UInt32.ofNat (ofBytes (← bytes 4))).toInt32.toInt64
  else if m = 0xCB then do
    return .int (UInt64.ofNat (ofBytes (← bytes 8))).toInt64
  else if m ≤ 0x7F then return .int m.toUInt64.toInt64
  else if 0xF0 ≤ m then return .int m.toInt8.toInt64
  else if 0x80 ≤ m ∧ m ≤ 0x8F then string (m &&& 0x0F).toNat
  else if 0xD0 ≤ m ∧ m ≤ 0xD2 then do string (← size m 0xD0)
  else if 0x90 ≤ m ∧ m ≤ 0x9F then list value (m &&& 0x0F).toNat
  else if 0xD4 ≤ m ∧ m ≤ 0xD6 then do list value (← size m 0xD4)
  else if 0xA0 ≤ m ∧ m ≤ 0xAF then dict value (m &&& 0x0F).toNat
  else if 0xD8 ≤ m ∧ m ≤ 0xDA then do dict value (← size m 0xD8)
  else if 0xB0 ≤ m ∧ m ≤ 0xBF then struct value (m &&& 0x0F).toNat
  else throw (.unknownMarker m)

/-- Each call of `value` inside another takes one frame of the stack. -/
def value : Nat → ReaderM Value
  | 0 => throw .stackOverflow
  | frames + 1 => do
      let m ← byte
      marked (value frames) m

/-- The frames of the outermost value and of the containers that may be open in it. -/
def FRAMES : Nat := MAX_DEPTH + 1

def decode (buf : List UInt8) : EStateM.Result Error Reader Value :=
  value FRAMES (new buf)

end Reader

/-! Chunks -/

/-- `slice::chunks`. -/
def chunks {α : Type} (n : Nat) (xs : List α) : List (List α) :=
  match n, xs with
  | 0, _ | _, [] => []
  | n + 1, x :: xs => (x :: xs.take n) :: chunks (n + 1) (xs.drop n)
termination_by xs.length
decreasing_by
  rw [List.length_drop, List.length_cons]
  omega

/-- A chunk behind its length. -/
def chunk (bs : List UInt8) : List UInt8 :=
  toBytes 2 bs.length ++ bs

def write_message (msg : Value) : List UInt8 :=
  (chunks 65535 (encode msg)).flatMap chunk ++ [0, 0]

/-- The largest message we will assemble out of chunks. -/
def MAX_MESSAGE : Nat := 16 * 1024 * 1024

/-- How many zero-length chunks in a row we will sit through. -/
def MAX_EMPTY_CHUNKS : Nat := 1024

/-- The loop of `read_message`: the body and the input behind it. -/
def read_body (body : List UInt8) (empty : Nat) (input : List UInt8) :
    Except Error (List UInt8 × List UInt8) :=
  match input with
  | hi :: lo :: input =>
      let n := ofBytes [hi, lo]
      if n = 0 then
        if body = [] then
          if MAX_EMPTY_CHUNKS < empty + 1 then throw .emptyChunks
          else read_body body (empty + 1) input
        else return (body, input)
      else if MAX_MESSAGE < body.length + n then throw .longerMessage
      else if n ≤ input.length then read_body (body ++ input.take n) empty (input.drop n)
      else throw .shortRead
  | _ => throw .shortRead
termination_by input.length
decreasing_by
  · simp only [List.length_cons]
    omega
  · simp only [List.length_drop, List.length_cons]
    omega

/-- The message and what is left of the input. -/
def read_message (input : List UInt8) : Except Error (Value × List UInt8) := do
  let (body, rest) ← read_body [] 0 input
  match Reader.decode body with
  | .ok msg _ => return (msg, rest)
  | .error e _ => throw e

end OntologicalDb.PackStream
