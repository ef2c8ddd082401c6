import Mathlib
import OntologicalDb.StoreCoherence

/-!
Identifiers over the life of a database: what allocations, drops and creations of types and
materialised mappings leave in the registries.
-/

namespace OntologicalDb.IdFreshness

open OntologicalDb.AdjacencyMirror (insertNode_eq_ok insertEdge_eq_ok)
open OntologicalDb.ExceptRules
open OntologicalDb.GraphStorage
open OntologicalDb.Ids
open OntologicalDb.StoreCoherence (nextLocal allocId_eq_ok idLocal_makeId)

section Encoding

/-- Move an identifier to another shard. -/
def withShard (id shard : Int) : Except String Int := makeId shard (idType id) (idLocal id)

/-- Components that a sequence and the catalog can hand out. -/
structure InWidths (shard typeId localId : Int) : Prop where
  shard : 0 ≤ shard ∧ shard ≤ maxShardId
  type : 0 ≤ typeId ∧ typeId ≤ maxTypeId
  sequence : 1 ≤ localId ∧ localId ≤ maxLocalId

/-- The fields of an identifier. -/
structure Fields (id shard typeId localId : Int) : Prop where
  shard : idShard id = shard
  type : idType id = typeId
  locals : idLocal id = localId

theorem idShard_makeId {shard typeId localId id : Int}
    (h : makeId shard typeId localId = .ok id) : idShard id = shard := by
  rcases makeId_eq_ok h with ⟨hshard, htype, hlocal, rfl⟩
  simp only [idShard, maxTypeId, typeMask, maxLocalId, localMask, maxShardId, shardMask, typeShift,
    shardShift, typeBits, localBits, shardBits] at *
  omega

theorem fields_makeId {shard typeId localId id : Int} (h : makeId shard typeId localId = .ok id) :
    Fields id shard typeId localId := ⟨idShard_makeId h, idType_makeId h, idLocal_makeId h⟩

theorem exists_makeId {shard typeId localId : Int} (hshard : 0 ≤ shard ∧ shard ≤ maxShardId)
    (htype : 0 ≤ typeId ∧ typeId ≤ maxTypeId) (hlocal : 0 ≤ localId ∧ localId ≤ maxLocalId) :
    ∃ id, makeId shard typeId localId = .ok id := by
  unfold makeId
  rw [if_neg (not_not.mpr hshard), if_neg (not_not.mpr htype), if_neg (not_not.mpr hlocal)]
  exact ⟨_, rfl⟩

theorem makeId_pos {shard typeId localId id : Int} (h : makeId shard typeId localId = .ok id)
    (hlocal : 1 ≤ localId) : 0 < id ∧ id < 2 ^ 63 := by
  rcases makeId_eq_ok h with ⟨hshard, htype, hle, rfl⟩
  simp only [maxTypeId, typeMask, maxLocalId, localMask, maxShardId, shardMask, typeShift,
    shardShift, typeBits, localBits, shardBits] at *
  omega

/-- The composed identifier is positive, its fields are its components and a shard is replaced. -/
def Encodes (shard typeId localId : Int) : Prop :=
  ∃ id, makeId shard typeId localId = .ok id ∧ (0 < id ∧ id < 2 ^ 63) ∧
    Fields id shard typeId localId ∧ ∀ shard', 0 ≤ shard' ∧ shard' ≤ maxShardId →
      ∃ id', withShard id shard' = .ok id' ∧ Fields id' shard' typeId localId

theorem encodes {shard typeId localId : Int} (h : InWidths shard typeId localId) :
    Encodes shard typeId localId := by
  have hlocal : 0 ≤ localId ∧ localId ≤ maxLocalId := ⟨by have := h.sequence.1; omega, h.sequence.2⟩
  rcases exists_makeId h.shard h.type hlocal with ⟨id, hid⟩
  refine ⟨id, hid, makeId_pos hid h.sequence.1, fields_makeId hid, fun shard' hshard => ?_⟩
  rcases exists_makeId hshard h.type hlocal with ⟨id', hid'⟩
  have hfields := fields_makeId hid
  refine ⟨id', ?_, fields_makeId hid'⟩
  unfold withShard
  rw [hfields.type, hfields.locals]
  exact hid'

end Encoding

section Operations

structure Registry where
  ogIdAlloc : List (Int × Int)
  ogNode : List NodeRow
  ogEdge : List EdgeRow
  /-- The last value of type_id_seq. -/
  typeIdSeq : Int
  types : List Int
  /-- The types whose storage is a view over a source table. -/
  mapped : List Int

def Registry.new : Registry := ⟨[], [], [], 0, [], []⟩

inductive Op
  | createNode (typeId : Int)
  | createEdge (typeId src dst : Int)
  | deleteNode (id : Int)
  | deleteEdge (id : Int)
  | createType
  | dropType (subs : List Int) (cascade : Bool)
  | mapTable (typeId : Int)
  | materializeMapping (typeId : Int) (keys : List Int)

def createNode (s : Registry) (typeId : Int) : Except String Registry := do
  require (typeId ∈ s.types ∧ typeId ∉ s.mapped) "type cannot be written to"
  let a ← allocId s.ogIdAlloc typeId
  let nodes ← insertNode s.ogNode ⟨a.2, typeId⟩
  return { s with ogIdAlloc := a.1, ogNode := nodes }

def createEdge (s : Registry) (typeId src dst : Int) : Except String Registry := do
  require (typeId ∈ s.types ∧ typeId ∉ s.mapped) "type cannot be written to"
  let a ← allocId s.ogIdAlloc typeId
  let edges ← insertEdge s.ogEdge ⟨a.2, typeId, src, dst⟩
  return { s with ogIdAlloc := a.1, ogEdge := edges }

/-- `INSERT … VALUES (type_id, 1) ON CONFLICT DO NOTHING` -/
def initAlloc (alloc : List (Int × Int)) (typeId : Int) : List (Int × Int) :=
  if alloc.any fun a => a.1 = typeId then alloc else alloc ++ [(typeId, 1)]

def createType (s : Registry) : Except String Registry := do
  require (s.typeIdSeq + 1 ≤ maxTypeId) "nextval: reached maximum value of sequence"
  return { s with
    typeIdSeq := s.typeIdSeq + 1
    types := s.types ++ [s.typeIdSeq + 1]
    ogIdAlloc := initAlloc s.ogIdAlloc (s.typeIdSeq + 1) }

/-- The types are the dropped one and its subtypes; the rows of og_id_alloc stay. -/
def dropType (s : Registry) (subs : List Int) (cascade : Bool) : Except String Registry := do
  require (cascade ∨ ((∀ r ∈ s.ogNode, r.typeId ∉ subs) ∧ ∀ r ∈ s.ogEdge, r.typeId ∉ subs))
    "type has instances. pass cascade => true to remove them"
  return { s with
    ogNode := s.ogNode.filter fun r => r.typeId ∉ subs
    ogEdge := s.ogEdge.filter fun r => r.typeId ∉ subs
    types := s.types.filter fun t => t ∉ subs
    mapped := s.mapped.filter fun t => t ∉ subs }

def mapTable (s : Registry) (typeId : Int) : Except String Registry := do
  require (typeId ∈ s.types) "type does not exist"
  return { s with mapped := typeId :: s.mapped }

/-- `INSERT INTO og_node … ON CONFLICT DO NOTHING` -/
def insertMissing (typeId : Int) (nodes : List NodeRow) (id : Int) : List NodeRow :=
  if nodes.any fun r => r.id = id then nodes else nodes ++ [⟨id, typeId⟩]

/-- The keys are those of the source table's rows; its view composes an identifier of each. -/
def materializeMapping (s : Registry) (typeId : Int) (keys : List Int) :
    Except String Registry := do
  require (typeId ∈ s.mapped) "type is already stored natively"
  let ids ← keys.mapM fun key => makeId 0 typeId key
  return { s with
    mapped := s.mapped.filter fun t => t ≠ typeId
    ogNode := ids.foldl (insertMissing typeId) s.ogNode }

def step (s : Registry) : Op → Except String Registry
  | .createNode t => createNode s t
  | .createEdge t src dst => createEdge s t src dst
  | .deleteNode id => .ok { s with ogNode := s.ogNode.filter fun r => r.id ≠ id }
  | .deleteEdge id => .ok { s with ogEdge := s.ogEdge.filter fun r => r.id ≠ id }
  | .createType => createType s
  | .dropType subs cascade => dropType s subs cascade
  | .mapTable t => mapTable s t
  | .materializeMapping t keys => materializeMapping s t keys

def ids (s : Registry) : List Int := s.ogNode.map (·.id) ++ s.ogEdge.map (·.id)

/--
A run from the empty database of steps that all meet a condition, with the identifiers that are or
were in the registries. A step that fails is rolled back and leaves no trace.
-/
inductive Run (C : Registry → Op → Prop) : Registry → List Int → Prop
  | new : Run C Registry.new []
  | step {s s' : Registry} {past : List Int} {op : Op} : Run C s past → C s op →
      step s op = .ok s' → Run C s' (ids s' ++ past)

/-- What alloc_id returns is not and never was in a registry. -/
def Fresh (s : Registry) (past : List Int) : Prop :=
  ∀ typeId alloc id, allocId s.ogIdAlloc typeId = .ok (alloc, id) → id ∉ past

/-- A materialised key is one that the type's sequence is past. -/
def Covered (s : Registry) : Op → Prop
  | .materializeMapping t keys => ∀ key ∈ keys, key < nextLocal s.ogIdAlloc t
  | _ => True

end Operations

section Invariant

variable {s s' : Registry} {past : List Int} {op : Op}

def Below (alloc : List (Int × Int)) (past : List Int) : Prop :=
  ∀ x ∈ past, idLocal x < nextLocal alloc (idType x)

theorem Below.fresh (h : Below s.ogIdAlloc past) : Fresh s past := by
  intro typeId alloc id halloc hmem
  rcases allocId_eq_ok halloc with ⟨htype, hlocal, -⟩
  have hlt := h id hmem
  rw [htype, hlocal] at hlt
  exact lt_irrefl _ hlt

theorem Below.mono {alloc alloc' : List (Int × Int)} (h : Below alloc past)
    (hle : ∀ t, nextLocal alloc t ≤ nextLocal alloc' t) : Below alloc' past :=
  fun x hx => (h x hx).trans_le (hle _)

theorem Below.allocated {alloc alloc' : List (Int × Int)} {typeId id : Int}
    (halloc : allocId alloc typeId = .ok (alloc', id)) : Below alloc' [id] := by
  rcases allocId_eq_ok halloc with ⟨htype, hlocal, hnext⟩
  intro x hx
  rw [List.mem_singleton.mp hx, htype, hlocal, (hnext typeId).2 rfl]
  exact Int.lt_succ _

theorem nextLocal_initAlloc {alloc : List (Int × Int)} {typeId : Int} (t : Int) :
    nextLocal (initAlloc alloc typeId) t = nextLocal alloc t := by
  unfold initAlloc
  split
  · rfl
  · unfold nextLocal
    rw [List.find?_append]
    cases hfind : alloc.find? fun a => a.1 = t with
    | some a => rfl
    | none =>
        rcases Decidable.em (typeId = t) with rfl | hne
        · simp
        · simp [hne]

theorem ids_insertMissing {typeId id : Int} {nodes : List NodeRow} {x : Int}
    (h : x ∈ (insertMissing typeId nodes id).map (·.id)) : x ∈ nodes.map (·.id) ∨ x = id := by
  unfold insertMissing at h
  split at h
  · exact .inl h
  · rw [List.map_append, List.mem_append] at h
    exact h.imp_right List.mem_singleton.mp

theorem ids_foldl {typeId : Int} {new : List Int} {nodes : List NodeRow} {x : Int}
    (h : x ∈ (new.foldl (insertMissing typeId) nodes).map (·.id)) :
    x ∈ nodes.map (·.id) ∨ x ∈ new := by
  induction new generalizing nodes with
  | nil => exact .inl h
  | cons id new ih =>
      rcases ih h with hx | hx
      · refine (ids_insertMissing hx).imp_right fun hid => ?_
        rw [hid]
        exact List.mem_cons_self
      · exact .inr (List.mem_cons_of_mem _ hx)

theorem mem_of_mapM {typeId : Int} {keys new : List Int}
    (h : keys.mapM (fun key => makeId 0 typeId key) = .ok new) {x : Int} (hx : x ∈ new) :
    ∃ key ∈ keys, makeId 0 typeId key = .ok x := by
  induction keys generalizing new with
  | nil =>
      rw [List.mapM_nil] at h
      rcases pure_eq_ok.mp h with rfl
      cases hx
  | cons key keys ih =>
      rw [List.mapM_cons] at h
      rcases bind_eq_ok.mp h with ⟨id, hid, h⟩
      rcases bind_eq_ok.mp h with ⟨rest, hrest, h⟩
      rcases pure_eq_ok.mp h with rfl
      rcases List.mem_cons.mp hx with rfl | hx
      · exact ⟨key, List.mem_cons_self, hid⟩
      · rcases ih hrest hx with ⟨k, hk, hmake⟩
        exact ⟨k, List.mem_cons_of_mem _ hk, hmake⟩

/-- Nothing but what was there and what is below its type's next identifier. -/
theorem Below.extend {alloc : List (Int × Int)} {now new : List Int} (h : Below alloc past)
    (hnew : Below alloc new) (hsub : ∀ x ∈ now, x ∈ past ∨ x ∈ new) :
    Below alloc (now ++ past) := by
  intro x hx
  rcases List.mem_append.mp hx with hx | hx
  · exact (hsub x hx).elim (h x) (hnew x)
  · exact h x hx

theorem Below.nil {alloc : List (Int × Int)} : Below alloc [] :=
  fun _ hx => absurd hx List.not_mem_nil

theorem mem_node (hids : ∀ x ∈ ids s, x ∈ past) {x : Int} (hx : x ∈ s.ogNode.map (·.id)) :
    x ∈ past := hids x (List.mem_append_left _ hx)

theorem mem_edge (hids : ∀ x ∈ ids s, x ∈ past) {x : Int} (hx : x ∈ s.ogEdge.map (·.id)) :
    x ∈ past := hids x (List.mem_append_right _ hx)

theorem mem_filter_map {α : Type} {f : α → Int} {p : α → Bool} {l : List α} {x : Int}
    (h : x ∈ (l.filter p).map f) : x ∈ l.map f :=
  (List.filter_sublist.map f).subset h

/-- One step keeps every identifier below the next one of its type. -/
theorem Below.step (h : Below s.ogIdAlloc past) (hids : ∀ x ∈ ids s, x ∈ past)
    (hc : Covered s op) (hs : step s op = .ok s') : Below s'.ogIdAlloc (ids s' ++ past) := by
  cases op with
  | createNode t =>
      rcases bind_eq_ok.mp hs with ⟨_, _, hs⟩
      rcases bind_eq_ok.mp hs with ⟨a, halloc, hs⟩
      rcases bind_eq_ok.mp hs with ⟨nodes, hnodes, hs⟩
      rcases pure_eq_ok.mp hs with rfl
      refine (h.mono fun t => ((allocId_eq_ok halloc).2.2 t).1).extend (.allocated halloc) ?_
      intro x hx
      rcases List.mem_append.mp hx with hx | hx
      · dsimp only at hx
        rw [insertNode_eq_ok hnodes, List.map_append, List.mem_append] at hx
        exact hx.imp (mem_node hids) id
      · exact .inl (mem_edge hids hx)
  | createEdge t src dst =>
      rcases bind_eq_ok.mp hs with ⟨_, _, hs⟩
      rcases bind_eq_ok.mp hs with ⟨a, halloc, hs⟩
      rcases bind_eq_ok.mp hs with ⟨edges, hedges, hs⟩
      rcases pure_eq_ok.mp hs with rfl
      refine (h.mono fun t => ((allocId_eq_ok halloc).2.2 t).1).extend (.allocated halloc) ?_
      intro x hx
      rcases List.mem_append.mp hx with hx | hx
      · exact .inl (mem_node hids hx)
      · dsimp only at hx
        rw [(insertEdge_eq_ok hedges).1, List.map_append, List.mem_append] at hx
        exact hx.imp (mem_edge hids) id
  | deleteNode id =>
      rcases Except.ok.inj hs with rfl
      refine h.extend .nil fun x hx => .inl ?_
      rcases List.mem_append.mp hx with hx | hx
      · exact mem_node hids (mem_filter_map hx)
      · exact mem_edge hids hx
  | deleteEdge id =>
      rcases Except.ok.inj hs with rfl
      refine h.extend .nil fun x hx => .inl ?_
      rcases List.mem_append.mp hx with hx | hx
      · exact mem_node hids hx
      · exact mem_edge hids (mem_filter_map hx)
  | createType =>
      rcases bind_eq_ok.mp hs with ⟨_, _, hs⟩
      rcases pure_eq_ok.mp hs with rfl
      exact (h.mono fun t => (nextLocal_initAlloc t).ge).extend .nil fun x hx => .inl (hids x hx)
  | dropType subs cascade =>
      rcases bind_eq_ok.mp hs with ⟨_, _, hs⟩
      rcases pure_eq_ok.mp hs with rfl
      refine h.extend .nil fun x hx => .inl ?_
      rcases List.mem_append.mp hx with hx | hx
      · exact mem_node hids (mem_filter_map hx)
      · exact mem_edge hids (mem_filter_map hx)
  | mapTable t =>
      rcases bind_eq_ok.mp hs with ⟨_, _, hs⟩
      rcases pure_eq_ok.mp hs with rfl
      exact h.extend .nil fun x hx => .inl (hids x hx)
  | materializeMapping t keys =>
      rcases bind_eq_ok.mp hs with ⟨_, _, hs⟩
      rcases bind_eq_ok.mp hs with ⟨new, hnew, hs⟩
      rcases pure_eq_ok.mp hs with rfl
      have hbelow : Below s.ogIdAlloc new := by
        intro x hx
        rcases mem_of_mapM hnew hx with ⟨key, hkey, hmake⟩
        rw [idType_makeId hmake, idLocal_makeId hmake]
        exact hc key hkey
      refine h.extend hbelow fun x hx => ?_
      rcases List.mem_append.mp hx with hx | hx
      · exact (ids_foldl hx).imp_left (mem_node hids)
      · exact .inl (mem_edge hids hx)

theorem Run.ids_past (hr : Run Covered s past) : ∀ x ∈ ids s, x ∈ past := by
  cases hr with
  | new => exact fun x hx => absurd hx List.not_mem_nil
  | step _ _ _ => exact fun x hx => List.mem_append_left _ hx

theorem Run.all_below (hr : Run Covered s past) : Below s.ogIdAlloc past := by
  induction hr with
  | new => exact .nil
  | step hr hc hs ih => exact ih.step hr.ids_past hc hs

/--
Identifiers are positive and give their components back, and in every run whose materialised keys
the sequences are past, what alloc_id returns is new.
-/
theorem identifiers_hold (hr : Run Covered s past) :
    (∀ shard typeId localId, InWidths shard typeId localId → Encodes shard typeId localId) ∧
      Fresh s past :=
  ⟨fun _ _ _ hw => encodes hw, hr.all_below.fresh⟩

theorem identifiers_hold_created :
    (∀ shard typeId localId, InWidths shard typeId localId → Encodes shard typeId localId) ∧
      Fresh ⟨[(1, 2)], [⟨2 ^ 36 + 1, 1⟩], [], 1, [1], []⟩ [2 ^ 36 + 1] := by
  have h₁ : Run Covered ⟨[(1, 1)], [], [], 1, [1], []⟩ [] :=
    @Run.step _ _ _ _ .createType .new trivial rfl
  have h₂ : Run Covered ⟨[(1, 2)], [⟨2 ^ 36 + 1, 1⟩], [], 1, [1], []⟩ [2 ^ 36 + 1] :=
    @Run.step _ _ _ _ (.createNode 1) h₁ trivial rfl
  exact identifiers_hold h₂

end Invariant

section Example

/-- A type, a mapped table with the key 1, and the table taken over. -/
def takenOver : Registry :=
  ⟨[(1, 1)], [⟨2 ^ 36 + 1, 1⟩], [], 1, [1], []⟩

theorem run_takenOver {C : Registry → Op → Prop} (hc : ∀ s op, C s op) :
    Run C takenOver [2 ^ 36 + 1] := by
  have h₁ : Run C ⟨[(1, 1)], [], [], 1, [1], []⟩ [] := .step .new (hc _ .createType) rfl
  have h₂ : Run C ⟨[(1, 1)], [], [], 1, [1], [1]⟩ [] := .step h₁ (hc _ (.mapTable 1)) rfl
  exact .step h₂ (hc _ (.materializeMapping 1 [1])) rfl

theorem not_identifiers_hold : ¬ ∀ s past, Run (fun _ _ => True) s past → Fresh s past := by
  intro h
  have hfresh := h _ _ (run_takenOver fun _ _ => trivial)
  exact hfresh 1 [(1, 2)] (2 ^ 36 + 1) rfl List.mem_cons_self

end Example

end OntologicalDb.IdFreshness
