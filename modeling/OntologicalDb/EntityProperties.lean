import Mathlib
import OntologicalDb.BoltSession

/-!
Elements as jsonb documents, and what a Bolt client and a map projection make of the user's
property names.
-/

namespace OntologicalDb.EntityProperties

open OntologicalDb.BoltSession
open OntologicalDb.PackStream (Value)

section Documents

/-- The names that check_reserved_keys refuses. -/
def is_reserved_key (k : String) : Bool :=
  k = "_id" || k = "_type" || k = "_src" || k = "_dst" || k.startsWith "__"

mutual

/-- Each object of a document has a key once. -/
def Unique : Json → Prop
  | .array xs => UniqueAll xs
  | .object m => (m.map Prod.fst).Nodup ∧ UniqueEntries m
  | _ => True

def UniqueAll : List Json → Prop
  | [] => True
  | x :: xs => Unique x ∧ UniqueAll xs

def UniqueEntries : List (String × Json) → Prop
  | [] => True
  | e :: m => Unique e.2 ∧ UniqueEntries m

end

/-- A stored node, or a relationship with its ends. -/
structure Element where
  id : Int64
  type : String
  ends : Option (Int64 × Int64)
  props : List (String × Json)
  names : ∀ p ∈ props, is_reserved_key p.1 = false
  unique : Unique (.object props)

def Element.identity (e : Element) : List (String × Json) :=
  [("_id", Json.number (.int e.id)), ("_type", Json.string e.type)] ++
    e.ends.elim [] fun v => [("_src", Json.number (.int v.1)), ("_dst", Json.number (.int v.2))]

/-- What og_cypher describes the element as. -/
def Element.json (e : Element) : Json := .object (e.identity ++ e.props)

mutual

/-- A document as a Bolt value, its objects as maps. -/
def plain : Json → Value
  | .null => .null
  | .bool b => .bool b
  | .number (.int i) => .int i
  | .number (.float bits) => .float bits
  | .string s => .string s
  | .array xs => .list (plain_all xs)
  | .object m => map (plain_entries m)

def plain_all : List Json → List Value
  | [] => []
  | x :: xs => plain x :: plain_all xs

def plain_entries : List (String × Json) → List (String × Value)
  | [] => []
  | (k, x) :: m => (k, plain x) :: plain_entries m

end

/-- The structure of the element around its properties. -/
def Element.struct (e : Element) (props : Value) : Value :=
  match e.ends with
  | none => .struct NODE [.int e.id, .list [.string e.type], props]
  | some v => .struct RELATIONSHIP [.int e.id, .int v.1, .int v.2, .string e.type, props]

/-- The element with the properties and values that are stored. -/
def Element.bolt (e : Element) : Value := e.struct (map (plain_entries e.props))

/-- `n {.*}` as it is compiled for a read: the document without its identity fields. -/
def projected_read : Json → Json
  | .object m =>
      .object (m.filter fun e => e.1 ≠ "_id" ∧ e.1 ≠ "_type" ∧ e.1 ≠ "_src" ∧ e.1 ≠ "_dst")
  | v => v

/-- `n {.*}` as a write evaluates it. -/
def projected_write : Json → Json
  | .object m => .object (m.filter fun e => !e.1.startsWith "_")
  | _ => .object []

end Documents

section Lookalikes

/-- A map that is read as an element. -/
def lookalike (m : List (String × Json)) : Bool :=
  ((m.lookup "_id").bind Json.as_i64).isSome && ((m.lookup "_type").bind Json.as_str).isSome

mutual

/-- No map of a document, at any depth, is read as an element. -/
def Plain : Json → Prop
  | .array xs => PlainAll xs
  | .object m => lookalike m = false ∧ PlainEntries m
  | _ => True

def PlainAll : List Json → Prop
  | [] => True
  | x :: xs => Plain x ∧ PlainAll xs

def PlainEntries : List (String × Json) → Prop
  | [] => True
  | e :: m => Plain e.2 ∧ PlainEntries m

end

theorem to_bolt_entries_eq (m : List (String × Json)) :
    to_bolt_entries m = m.map fun e => (e.1, to_bolt e.2) := by
  induction m with
  | nil => rfl
  | cons e m ih => rw [to_bolt_entries, ih]; rfl

theorem plain_entries_eq (m : List (String × Json)) :
    plain_entries m = m.map fun e => (e.1, plain e.2) := by
  induction m with
  | nil => rfl
  | cons e m ih => rw [plain_entries, ih]; rfl

theorem plainEntries_iff {m : List (String × Json)} :
    PlainEntries m ↔ ∀ e ∈ m, Plain e.2 := by
  induction m with
  | nil => exact iff_of_true trivial fun e he => absurd he List.not_mem_nil
  | cons e m ih => rw [PlainEntries, ih, List.forall_mem_cons]

theorem keys_map {m : List (String × Json)} (f : Json → Value) :
    (m.map fun e => (e.1, f e.2)).map Prod.fst = m.map Prod.fst := by
  rw [List.map_map]
  rfl

/-- Two maps over the same keys are the same exactly if their values are. -/
theorem map_eq_iff {m : List (String × Json)} {f g : Json → Value}
    (h : (m.map Prod.fst).Nodup) :
    map (m.map fun e => (e.1, f e.2)) = map (m.map fun e => (e.1, g e.2)) ↔
      ∀ e ∈ m, f e.2 = g e.2 := by
  constructor
  · intro heq e he
    have hf := map_get_map_of_mem (by rwa [keys_map])
      (@List.mem_map_of_mem _ _ _ _ (fun e => (e.1, f e.2)) he)
    have hg := map_get_map_of_mem (by rwa [keys_map])
      (@List.mem_map_of_mem _ _ _ _ (fun e => (e.1, g e.2)) he)
    rw [heq, hg] at hf
    exact (Option.some.inj hf).symm
  · intro heq
    have hmap : (m.map fun e => (e.1, f e.2)) = m.map fun e => (e.1, g e.2) :=
      List.map_congr_left fun e he => by rw [heq e he]
    rw [hmap]

theorem to_bolt_of_not_lookalike {m : List (String × Json)} (h : lookalike m = false) :
    to_bolt (.object m) = map (to_bolt_entries m) := by
  rw [to_bolt]
  unfold lookalike at h
  split
  next hid hty _ _ => rw [hid, hty] at h; cases h
  next hid hty _ => rw [hid, hty] at h; cases h
  next => rfl

theorem to_bolt_of_lookalike {m : List (String × Json)} (h : lookalike m = true) :
    ∃ sig fields, to_bolt (.object m) = .struct sig fields := by
  rw [to_bolt]
  split
  next => exact ⟨_, _, rfl⟩
  next => exact ⟨_, _, rfl⟩
  next hnode hrel =>
    rcases Bool.and_eq_true_iff.mp h with ⟨hid, hty⟩
    rcases Option.isSome_iff_exists.mp hid with ⟨id, hid⟩
    rcases Option.isSome_iff_exists.mp hty with ⟨ty, hty⟩
    exact (hnode id ty hid hty).elim

mutual

/-- A document is read value for value exactly if no map of it is read as an element. -/
theorem to_bolt_iff : ∀ v : Json, Unique v → (to_bolt v = plain v ↔ Plain v)
  | .null, _ => iff_of_true rfl trivial
  | .bool _, _ => iff_of_true rfl trivial
  | .number (.int _), _ => iff_of_true rfl trivial
  | .number (.float _), _ => iff_of_true rfl trivial
  | .string _, _ => iff_of_true rfl trivial
  | .array xs, h => by
      rw [to_bolt, plain, Value.list.injEq]
      exact to_bolt_all_iff xs h
  | .object m, h => by
      cases hm : lookalike m with
      | true =>
          rcases to_bolt_of_lookalike hm with ⟨sig, fields, hx⟩
          rw [hx, plain, Plain, hm]
          refine iff_of_false ?_ fun hn => absurd hn.1 (by decide)
          intro he
          cases he
      | false =>
          rw [to_bolt_of_not_lookalike hm, plain, to_bolt_entries_eq, plain_entries_eq,
            map_eq_iff h.1, to_bolt_entries_iff m h.2, Plain, hm]
          exact (and_iff_right rfl).symm

theorem to_bolt_all_iff : ∀ xs : List Json, UniqueAll xs →
    (to_bolt_all xs = plain_all xs ↔ PlainAll xs)
  | [], _ => iff_of_true rfl trivial
  | x :: xs, h => by
      rw [to_bolt_all, plain_all, List.cons.injEq, to_bolt_iff x h.1, to_bolt_all_iff xs h.2,
        PlainAll]

theorem to_bolt_entries_iff : ∀ m : List (String × Json), UniqueEntries m →
    ((∀ e ∈ m, to_bolt e.2 = plain e.2) ↔ PlainEntries m)
  | [], _ => iff_of_true (fun e he => absurd he List.not_mem_nil) trivial
  | (k, x) :: m, h => by
      rw [List.forall_mem_cons, to_bolt_iff x h.1, to_bolt_entries_iff m h.2, PlainEntries]

end

end Lookalikes

section Elements

variable (e : Element)

theorem starts_id : "_id".startsWith "_" = true :=
  String.startsWith_string_iff.mpr (by decide)

theorem starts_type : "_type".startsWith "_" = true :=
  String.startsWith_string_iff.mpr (by decide)

theorem starts_src : "_src".startsWith "_" = true :=
  String.startsWith_string_iff.mpr (by decide)

theorem starts_dst : "_dst".startsWith "_" = true :=
  String.startsWith_string_iff.mpr (by decide)

/-- The names of no property begin with an underscore. -/
def PlainNames : Prop := ∀ p ∈ e.props, p.1.startsWith "_" = false

theorem lookup_props {k : String} (hk : is_reserved_key k = true) : e.props.lookup k = none := by
  rw [List.lookup_eq_none_iff]
  intro p hp
  rw [bne_iff_ne]
  rintro rfl
  rw [e.names p hp] at hk
  cases hk

theorem filter_identity : e.identity.filter (fun p => !p.1.startsWith "_") = [] := by
  unfold Element.identity
  cases e.ends with
  | none => simp [starts_id, starts_type]
  | some v => simp [starts_id, starts_type, starts_src, starts_dst]

theorem to_bolt_entries_filter (m : List (String × Json)) :
    (to_bolt_entries m).filter (fun p => !p.1.startsWith "_") =
      to_bolt_entries (m.filter fun p => !p.1.startsWith "_") := by
  rw [to_bolt_entries_eq, to_bolt_entries_eq, List.filter_map]
  rfl

/-- What a client sees as the properties. -/
def kept : List (String × Json) := e.props.filter fun p => !p.1.startsWith "_"

theorem filter_json : (e.identity ++ e.props).filter (fun p => !p.1.startsWith "_") = kept e := by
  rw [List.filter_append, filter_identity]
  rfl

theorem to_bolt_json : to_bolt e.json = e.struct (map (to_bolt_entries (kept e))) := by
  have hid : (e.identity ++ e.props).lookup "_id" = some (.number (.int e.id)) := by
    rw [List.lookup_append]
    rfl
  have hty : (e.identity ++ e.props).lookup "_type" = some (.string e.type) := by
    rw [List.lookup_append]
    rfl
  unfold Element.json
  rw [to_bolt, hid, hty, to_bolt_entries_filter, filter_json]
  unfold Element.struct
  cases hends : e.ends with
  | none =>
      have hsrc : (e.identity ++ e.props).lookup "_src" = none := by
        rw [List.lookup_append, lookup_props e (by decide)]
        unfold Element.identity
        rw [hends]
        rfl
      rw [hsrc]
      rfl
  | some v =>
      have hsrc : (e.identity ++ e.props).lookup "_src" = some (.number (.int v.1)) := by
        rw [List.lookup_append]
        unfold Element.identity
        rw [hends]
        rfl
      have hdst : (e.identity ++ e.props).lookup "_dst" = some (.number (.int v.2)) := by
        rw [List.lookup_append]
        unfold Element.identity
        rw [hends]
        rfl
      rw [hsrc, hdst]
      rfl

theorem struct_inj {v w : Value} : e.struct v = e.struct w ↔ v = w := by
  refine ⟨fun h => ?_, fun h => by rw [h]⟩
  unfold Element.struct at h
  cases hends : e.ends with
  | none =>
      rw [hends] at h
      injection h with _ h
      injection h with _ h
      injection h with _ h
      injection h
  | some ends =>
      rw [hends] at h
      injection h with _ h
      injection h with _ h
      injection h with _ h
      injection h with _ h
      injection h with _ h
      injection h

theorem kept_of_plain (h : PlainNames e) : kept e = e.props :=
  List.filter_eq_self.mpr fun p hp => by rw [h p hp]; rfl

theorem plainNames_of_map (h : map (to_bolt_entries (kept e)) = map (plain_entries e.props)) :
    PlainNames e := by
  intro p hp
  refine Bool.eq_false_iff.mpr fun hstarts => ?_
  have hright : (map (plain_entries e.props)).map_get p.1 = some (plain p.2) := by
    rw [plain_entries_eq]
    exact map_get_map_of_mem (by rw [keys_map]; exact e.unique.1)
      (@List.mem_map_of_mem _ _ _ _ (fun p => (p.1, plain p.2)) hp)
  have hleft : (map (to_bolt_entries (kept e))).map_get p.1 = none := by
    rw [to_bolt_entries_eq]
    refine map_get_map_of_not_mem ?_
    rw [keys_map]
    intro hmem
    rcases List.mem_map.mp hmem with ⟨q, hq, hkey⟩
    have hnot := (List.mem_filter.mp hq).2
    rw [hkey, hstarts] at hnot
    cases hnot
  rw [h, hright] at hleft
  cases hleft

/-- An element reaches the client as it is stored exactly if its property names and values are
not taken for the engine's own. -/
theorem to_bolt_json_iff : to_bolt e.json = e.bolt ↔ PlainNames e ∧ ∀ p ∈ e.props, Plain p.2 := by
  have hvalues : map (to_bolt_entries e.props) = map (plain_entries e.props) ↔
      ∀ p ∈ e.props, Plain p.2 := by
    rw [to_bolt_entries_eq, plain_entries_eq, map_eq_iff e.unique.1,
      to_bolt_entries_iff e.props e.unique.2, plainEntries_iff]
  unfold Element.bolt
  rw [to_bolt_json, struct_inj]
  constructor
  · intro h
    have hnames := plainNames_of_map e h
    rw [kept_of_plain e hnames] at h
    exact ⟨hnames, hvalues.mp h⟩
  · rintro ⟨hnames, hplain⟩
    rw [kept_of_plain e hnames]
    exact hvalues.mpr hplain

theorem projected_read_json : projected_read e.json = .object e.props := by
  have hidentity : e.identity.filter
      (fun p => p.1 ≠ "_id" ∧ p.1 ≠ "_type" ∧ p.1 ≠ "_src" ∧ p.1 ≠ "_dst") = [] := by
    unfold Element.identity
    cases e.ends <;> rfl
  have hprops : e.props.filter
      (fun p => p.1 ≠ "_id" ∧ p.1 ≠ "_type" ∧ p.1 ≠ "_src" ∧ p.1 ≠ "_dst") = e.props := by
    refine List.filter_eq_self.mpr fun p hp => decide_eq_true ?_
    have hname := e.names p hp
    refine ⟨?_, ?_, ?_, ?_⟩ <;> intro hk <;> rw [hk] at hname <;> exact absurd hname (by decide)
  refine congrArg Json.object ?_
  rw [List.filter_append, hidentity, hprops]
  rfl

theorem projected_iff : projected_read e.json = projected_write e.json ↔ PlainNames e := by
  have hwrite : projected_write e.json = .object (kept e) := congrArg Json.object (filter_json e)
  rw [projected_read_json, hwrite, Json.object.injEq]
  constructor
  · intro h p hp
    rw [h] at hp
    have hnot := (List.mem_filter.mp hp).2
    rwa [Bool.not_eq_true'] at hnot
  · intro h
    exact (kept_of_plain e h).symm

end Elements

section Example

theorem names_source : ∀ p ∈ [("_source_id", Json.string "d1")], is_reserved_key p.1 = false := by
  intro p hp
  rw [List.mem_singleton.mp hp]
  have hdouble : "_source_id".startsWith "__" = false :=
    String.startsWith_string_eq_false_iff.mpr (by decide)
  unfold is_reserved_key
  rw [hdouble]
  decide

theorem unique_source : Unique (.object [("_source_id", .string "d1")]) :=
  ⟨List.nodup_singleton _, trivial, trivial⟩

/-- A document with the identifier it has in its source. -/
def sourced : Element :=
  ⟨1, "Doc", none, [("_source_id", .string "d1")], names_source, unique_source⟩

end Example

end OntologicalDb.EntityProperties
