import OntologicalDb.GraphStorage

/-!
The structural integrity checker over states of any kind: which inconsistencies of
registries, typed tables and adjacency segments its four scans report, and which none
of them looks at.
-/

namespace OntologicalDb.IntegrityExactness

open OntologicalDb.GraphStorage
open OntologicalDb.TypeCatalog
open OntologicalDb.TypedTables

section Model

/-- A stored segment as its columns allow it: any direction letter, any counter, and
arrays of any two lengths with NULLs among their elements. -/
structure RawSegment where
  src : Int
  etype : Int
  dir : Char
  seq : Int
  n : Int
  nbr : List (Option Int)
  eid : List (Option Int)
deriving DecidableEq

/-- The tables the checker is about. -/
structure Tables where
  schema : Schema
  ogNode : List NodeRow
  ogEdge : List EdgeRow
  ogAdj : List RawSegment
  edgeKey : (ogEdge.map (·.id)).Nodup

structure Finding where
  kind : String
  entityId : Option Int
  detail : String
deriving DecidableEq

variable (st : Tables)

/-- The array element is no registered edge; a NULL is none. -/
def Dangling (x : Option Int) : Prop := ∀ e ∈ st.ogEdge, some e.id ≠ x

instance (x : Option Int) : Decidable (Dangling st x) :=
  inferInstanceAs (Decidable (∀ e ∈ st.ogEdge, _))

/-- Some segment of the node mentions the edge in this direction. -/
def Mentioned (node : Int) (dir : Char) (eid : Int) : Prop :=
  ∃ a ∈ st.ogAdj, a.src = node ∧ a.dir = dir ∧ some eid ∈ a.eid

instance (node : Int) (dir : Char) (eid : Int) : Decidable (Mentioned st node dir eid) :=
  inferInstanceAs (Decidable (∃ a ∈ st.ogAdj, _))

def Missing (e : EdgeRow) : Prop :=
  ¬ Mentioned st e.src 'o' e.id ∨ ¬ Mentioned st e.dst 'i' e.id

instance (e : EdgeRow) : Decidable (Missing st e) := inferInstanceAs (Decidable (_ ∨ _))

/-- The counter and the two array lengths are not all the same. -/
def RawSegment.Mismatched (a : RawSegment) : Prop :=
  a.n ≠ a.nbr.length ∨ a.nbr.length ≠ a.eid.length

instance (a : RawSegment) : Decidable a.Mismatched := inferInstanceAs (Decidable (_ ∨ _))

def UnknownType (tid : Int) : Prop := ∀ t ∈ st.schema.catalog.types, t.typeId ≠ tid

instance (tid : Int) : Decidable (UnknownType st tid) :=
  inferInstanceAs (Decidable (∀ t ∈ st.schema.catalog.types, _))

/-- `og_check_integrity`: four scans of at most a hundred rows each. -/
def ogCheckIntegrity : List Finding :=
  (((st.ogAdj.flatMap (·.eid)).dedup.filter fun x => Dangling st x).take 100).map (fun x =>
      ⟨"dangling_adjacency", x, "adjacency references a non-existent edge"⟩) ++
    ((st.ogEdge.filter fun e => Missing st e).take 100).map (fun e =>
      ⟨"missing_adjacency", some e.id, "edge is not reachable from one of its endpoints"⟩) ++
    ((st.ogAdj.filter fun a => a.Mismatched).take 100).map (fun a =>
      ⟨"segment_length_mismatch", some a.src, "segment count does not match array length"⟩) ++
    ((st.ogNode.filter fun n => UnknownType st n.typeId).take 100).map (fun n =>
      ⟨"orphan_node", some n.id, "node references an unknown type"⟩)

end Model

section Consistency

/-- One position of the arrays of a segment; the shorter array is read as NULL. -/
structure RawEntry where
  src : Int
  etype : Int
  dir : Char
  nbr : Option Int
  eid : Option Int
deriving DecidableEq

/-- `unnest(nbr, eid)`: the shorter array is padded with NULLs. -/
def RawSegment.entries (a : RawSegment) : List RawEntry :=
  (List.range (max a.nbr.length a.eid.length)).map fun i =>
    ⟨a.src, a.etype, a.dir, a.nbr.getD i none, a.eid.getD i none⟩

/-- The two positions a registered edge belongs at. -/
def edgeEntries (e : EdgeRow) : List RawEntry :=
  [⟨e.src, e.typeId, 'o', some e.dst, some e.id⟩, ⟨e.dst, e.typeId, 'i', some e.src, some e.id⟩]

def entries (adj : List RawSegment) : List RawEntry := adj.flatMap RawSegment.entries

def registryEntries (edges : List EdgeRow) : List RawEntry := edges.flatMap edgeEntries

variable (st : Tables)

/-- The entity has one row in the storage table of its type. -/
def Stored (tid id : Int) : Prop :=
  ∃ table, storageTable st.schema.catalog tid = some table ∧
    ((rowsOf st.schema table).filter fun r => r.id = id).length = 1

/-- The type has the entity in one of the registries. -/
def Registered (tid id : Int) : Prop :=
  (∃ n ∈ st.ogNode, n.id = id ∧ n.typeId = tid) ∨ ∃ e ∈ st.ogEdge, e.id = id ∧ e.typeId = tid

/-- Registries, typed tables and adjacency agree. -/
structure Consistent : Prop where
  nodes : ∀ n ∈ st.ogNode, ¬ UnknownType st n.typeId ∧ Stored st n.typeId n.id
  edges : ∀ e ∈ st.ogEdge, ¬ UnknownType st e.typeId ∧ Stored st e.typeId e.id
  rows : ∀ t ∈ st.schema.catalog.types, ∀ table,
    storageTable st.schema.catalog t.typeId = some table →
      ∀ r ∈ rowsOf st.schema table, Registered st t.typeId r.id
  ends : ∀ e ∈ st.ogEdge, (∃ n ∈ st.ogNode, n.id = e.src) ∧ ∃ n ∈ st.ogNode, n.id = e.dst
  adjacency : (entries st.ogAdj).Perm (registryEntries st.ogEdge)
  lengths : ∀ a ∈ st.ogAdj, a.n = a.nbr.length ∧ a.n = a.eid.length

/-- What one of the scans looks at: an array element that is no registered edge, an
edge that no segment of an end mentions, a segment whose counter and lengths differ, a
node of an unknown type. -/
def Scanned : Prop :=
  (∃ a ∈ st.ogAdj, ∃ x ∈ a.eid, Dangling st x) ∨ (∃ e ∈ st.ogEdge, Missing st e) ∨
    (∃ a ∈ st.ogAdj, a.Mismatched) ∨ ∃ n ∈ st.ogNode, UnknownType st n.typeId

/-- What no scan looks at. -/
inductive Overlooked : Prop
  /-- A node without exactly one row in the table of its type. -/
  | unstoredNode {n : NodeRow} (hn : n ∈ st.ogNode) (h : ¬ Stored st n.typeId n.id)
  /-- An edge of an unknown type. -/
  | orphanEdge {e : EdgeRow} (he : e ∈ st.ogEdge) (h : UnknownType st e.typeId)
  /-- An edge without exactly one row in the table of its type. -/
  | unstoredEdge {e : EdgeRow} (he : e ∈ st.ogEdge) (h : ¬ Stored st e.typeId e.id)
  /-- A row of a typed table that no registry has under that type. -/
  | unregisteredRow {t : TypeRow} {table : StorageTable} {r : TypedRow}
      (ht : t ∈ st.schema.catalog.types)
      (htable : storageTable st.schema.catalog t.typeId = some table)
      (hr : r ∈ rowsOf st.schema table) (h : ¬ Registered st t.typeId r.id)
  /-- An edge from or to something that is not a node. -/
  | missingEnd {e : EdgeRow} (he : e ∈ st.ogEdge)
      (h : ¬ ((∃ n ∈ st.ogNode, n.id = e.src) ∧ ∃ n ∈ st.ogNode, n.id = e.dst))
  /-- An array position that is not its edge's: under another type, node, direction
  or neighbour. -/
  | misplaced {x : RawEntry} (hx : x ∈ entries st.ogAdj) (h : x ∉ registryEntries st.ogEdge)
  /-- An array position that occurs twice. -/
  | repeated (h : ¬ (entries st.ogAdj).Nodup)

end Consistency

section Scans

variable {st : Tables}

theorem take_filter_eq_nil {α : Type} {p : α → Prop} [DecidablePred p] {xs : List α} :
    (xs.filter fun x => p x).take 100 = [] ↔ ¬ ∃ x ∈ xs, p x := by
  rw [List.take_eq_nil_iff, List.filter_eq_nil_iff]
  simp

/-- The report is empty exactly when no scan finds anything. -/
theorem ogCheckIntegrity_eq_nil : ogCheckIntegrity st = [] ↔ ¬ Scanned st := by
  have hdangling : (∃ x ∈ (st.ogAdj.flatMap (·.eid)).dedup, Dangling st x) ↔
      ∃ a ∈ st.ogAdj, ∃ x ∈ a.eid, Dangling st x := by
    simp only [List.mem_dedup, List.mem_flatMap]
    constructor
    · rintro ⟨x, ⟨a, ha, hx⟩, h⟩
      exact ⟨a, ha, x, hx, h⟩
    · rintro ⟨a, ha, x, hx, h⟩
      exact ⟨x, ⟨a, ha, hx⟩, h⟩
  simp only [ogCheckIntegrity, List.append_eq_nil_iff, List.map_eq_nil_iff, take_filter_eq_nil,
    hdangling, Scanned, not_or, and_assoc]

end Scans

section Adjacency

variable {st : Tables} {a : RawSegment} {x : RawEntry}

theorem mem_entries : x ∈ entries st.ogAdj ↔ ∃ a ∈ st.ogAdj, x ∈ a.entries := List.mem_flatMap

theorem mem_registryEntries :
    x ∈ registryEntries st.ogEdge ↔ ∃ e ∈ st.ogEdge, x ∈ edgeEntries e := List.mem_flatMap

theorem eid_of_mem_edgeEntries {e : EdgeRow} (h : x ∈ edgeEntries e) : x.eid = some e.id := by
  simp only [edgeEntries, List.mem_cons, List.not_mem_nil, or_false] at h
  rcases h with rfl | rfl <;> rfl

theorem nodup_edgeEntries {e : EdgeRow} : (edgeEntries e).Nodup := by
  simp [edgeEntries]

theorem nodup_registryEntries : (registryEntries st.ogEdge).Nodup := by
  refine List.nodup_flatMap.mpr ⟨fun e _ => nodup_edgeEntries, ?_⟩
  refine (List.pairwise_map.mp st.edgeKey).imp fun hne x hx hx' => hne ?_
  exact Option.some.inj ((eid_of_mem_edgeEntries hx).symm.trans (eid_of_mem_edgeEntries hx'))

/-- Every element of the edge array stands at some position. -/
theorem exists_entry {eid : Option Int} (h : eid ∈ a.eid) :
    ∃ nbr, (⟨a.src, a.etype, a.dir, nbr, eid⟩ : RawEntry) ∈ a.entries := by
  rcases List.mem_iff_getElem.mp h with ⟨i, hi, rfl⟩
  refine ⟨a.nbr.getD i none, List.mem_map.mpr ⟨i, List.mem_range.mpr (by omega), ?_⟩⟩
  rw [List.getD_eq_getElem _ _ hi]

theorem of_mem_entries (h : x ∈ a.entries) : x.src = a.src ∧ x.etype = a.etype ∧ x.dir = a.dir := by
  rcases List.mem_map.mp h with ⟨i, -, rfl⟩
  exact ⟨rfl, rfl, rfl⟩

/-- At equal lengths every position holds an element of the edge array. -/
theorem eid_mem_of_mem_entries (hlength : a.nbr.length = a.eid.length) (h : x ∈ a.entries) :
    x.eid ∈ a.eid := by
  rcases List.mem_map.mp h with ⟨i, hi, rfl⟩
  have hlt : i < a.eid.length := by
    have := List.mem_range.mp hi
    omega
  dsimp only
  rw [List.getD_eq_getElem _ _ hlt]
  exact List.getElem_mem hlt

theorem edge_unique {e e' : EdgeRow} (he : e ∈ st.ogEdge) (he' : e' ∈ st.ogEdge)
    (hid : e.id = e'.id) : e = e' := List.inj_on_of_nodup_map st.edgeKey he he' hid

/-- An edge mentioned at an end stands there at a position of some edge. -/
theorem mem_entries_of_mentioned (hplaced : ∀ x ∈ entries st.ogAdj, x ∈ registryEntries st.ogEdge)
    {e : EdgeRow} (he : e ∈ st.ogEdge) {node : Int} {dir : Char}
    (h : Mentioned st node dir e.id) :
    ∃ x ∈ edgeEntries e, x ∈ entries st.ogAdj ∧ x.src = node ∧ x.dir = dir := by
  rcases h with ⟨a, ha, rfl, rfl, heid⟩
  rcases exists_entry heid with ⟨nbr, hentry⟩
  have hmem := mem_entries.mpr ⟨a, ha, hentry⟩
  rcases mem_registryEntries.mp (hplaced _ hmem) with ⟨e', he', hx⟩
  obtain rfl := edge_unique he' he (Option.some.inj (eid_of_mem_edgeEntries hx)).symm
  exact ⟨_, hx, hmem, rfl, rfl⟩

/-- Where nothing is scanned, adjacency and registry agree as soon as every position
is its edge's and none occurs twice. -/
theorem adjacency_iff (hscan : ¬ Scanned st) :
    (entries st.ogAdj).Perm (registryEntries st.ogEdge) ↔
      (∀ x ∈ entries st.ogAdj, x ∈ registryEntries st.ogEdge) ∧ (entries st.ogAdj).Nodup := by
  constructor
  · intro hperm
    exact ⟨fun x hx => hperm.mem_iff.mp hx, hperm.nodup_iff.mpr nodup_registryEntries⟩
  · rintro ⟨hplaced, hnodup⟩
    refine (List.perm_ext_iff_of_nodup hnodup nodup_registryEntries).mpr fun x =>
      ⟨hplaced x, fun hx => ?_⟩
    rcases mem_registryEntries.mp hx with ⟨e, he, hxe⟩
    have hmentioned : Mentioned st e.src 'o' e.id ∧ Mentioned st e.dst 'i' e.id := by
      by_contra hmissing
      exact hscan (.inr (.inl ⟨e, he, not_and_or.mp hmissing⟩))
    simp only [edgeEntries, List.mem_cons, List.not_mem_nil, or_false] at hxe
    rcases hxe with rfl | rfl
    · rcases mem_entries_of_mentioned hplaced he hmentioned.1 with ⟨y, hy, hmem, -, hdir⟩
      simp only [edgeEntries, List.mem_cons, List.not_mem_nil, or_false] at hy
      rcases hy with rfl | rfl
      · exact hmem
      · exact absurd hdir (show ¬ ('i' : Char) = 'o' by decide)
    · rcases mem_entries_of_mentioned hplaced he hmentioned.2 with ⟨y, hy, hmem, -, hdir⟩
      simp only [edgeEntries, List.mem_cons, List.not_mem_nil, or_false] at hy
      rcases hy with rfl | rfl
      · exact absurd hdir (show ¬ ('o' : Char) = 'i' by decide)
      · exact hmem

/-- A consistent state has nothing to scan for. -/
theorem Consistent.not_scanned (h : Consistent st) : ¬ Scanned st := by
  have hregistered : ∀ a ∈ st.ogAdj, ∀ x ∈ a.eid, ∃ e ∈ st.ogEdge, some e.id = x := by
    intro a ha x hx
    rcases exists_entry hx with ⟨nbr, hentry⟩
    rcases mem_registryEntries.mp (h.adjacency.mem_iff.mp (mem_entries.mpr ⟨a, ha, hentry⟩)) with
      ⟨e, he, hxe⟩
    exact ⟨e, he, (eid_of_mem_edgeEntries hxe).symm⟩
  have hmentioned : ∀ e ∈ st.ogEdge, ∀ x ∈ edgeEntries e, Mentioned st x.src x.dir e.id := by
    intro e he x hx
    have hmem := h.adjacency.mem_iff.mpr (mem_registryEntries.mpr ⟨e, he, hx⟩)
    rcases mem_entries.mp hmem with ⟨a, ha, hxa⟩
    rcases of_mem_entries hxa with ⟨hsrc, -, hdir⟩
    refine ⟨a, ha, hsrc.symm, hdir.symm, ?_⟩
    rw [← eid_of_mem_edgeEntries hx]
    refine eid_mem_of_mem_entries ?_ hxa
    have := h.lengths a ha
    omega
  rintro (⟨a, ha, x, hx, hdangling⟩ | ⟨e, he, hmissing⟩ | ⟨a, ha, hmismatched⟩ | ⟨n, hn, hunknown⟩)
  · rcases hregistered a ha x hx with ⟨e, he, heq⟩
    exact hdangling e he heq
  · rcases hmissing with hmissing | hmissing
    · exact hmissing (hmentioned e he ⟨e.src, e.typeId, 'o', some e.dst, some e.id⟩
        List.mem_cons_self)
    · exact hmissing (hmentioned e he ⟨e.dst, e.typeId, 'i', some e.src, some e.id⟩
        (List.mem_cons_of_mem _ List.mem_cons_self))
  · have hlengths := h.lengths a ha
    unfold RawSegment.Mismatched at hmismatched
    omega
  · exact (h.nodes n hn).1 hunknown

/-- A state is consistent when neither a scan nor an overlooked kind of inconsistency
applies to it. -/
theorem consistent_iff : Consistent st ↔ ¬ Scanned st ∧ ¬ Overlooked st := by
  constructor
  · intro h
    refine ⟨h.not_scanned, fun hover => ?_⟩
    have hadj := (adjacency_iff h.not_scanned).mp h.adjacency
    cases hover with
    | unstoredNode hn hno => exact hno (h.nodes _ hn).2
    | orphanEdge he hno => exact (h.edges _ he).1 hno
    | unstoredEdge he hno => exact hno (h.edges _ he).2
    | unregisteredRow ht htable hr hno => exact hno (h.rows _ ht _ htable _ hr)
    | missingEnd he hno => exact hno (h.ends _ he)
    | misplaced hx hno => exact hno (hadj.1 _ hx)
    | repeated hno => exact hno hadj.2
  · rintro ⟨hscan, hover⟩
    refine ⟨fun n hn => ⟨fun hunknown => ?_, ?_⟩, fun e he => ⟨fun hunknown => ?_, ?_⟩,
      fun t ht table htable r hr => ?_, fun e he => ?_, (adjacency_iff hscan).mpr ⟨?_, ?_⟩,
      fun a ha => ?_⟩
    · exact hscan (.inr (.inr (.inr ⟨n, hn, hunknown⟩)))
    · exact of_not_not fun hno => hover (.unstoredNode hn hno)
    · exact hover (.orphanEdge he hunknown)
    · exact of_not_not fun hno => hover (.unstoredEdge he hno)
    · exact of_not_not fun hno => hover (.unregisteredRow ht htable hr hno)
    · exact of_not_not fun hno => hover (.missingEnd he hno)
    · intro x hx
      exact of_not_not fun hno => hover (.misplaced hx hno)
    · exact of_not_not fun hno => hover (.repeated hno)
    · have hmatched : ¬ a.Mismatched := fun hno => hscan (.inr (.inr (.inl ⟨a, ha, hno⟩)))
      unfold RawSegment.Mismatched at hmatched
      omega

/-- An empty report means a consistent state exactly when some scan applies or no
overlooked kind of inconsistency does. -/
theorem exact_iff : (ogCheckIntegrity st = [] ↔ Consistent st) ↔ Scanned st ∨ ¬ Overlooked st := by
  rw [ogCheckIntegrity_eq_nil, consistent_iff]
  tauto

end Adjacency

/-- One node of a known type, registered but not stored. -/
def unstoredTables : Tables where
  schema := ⟨{ TypeCatalog.empty with
    graphs := [(1, "g")]
    types := [⟨1, 1, "A", .entity, some (nodeTable 1)⟩] }, []⟩
  ogNode := [⟨10, 1⟩]
  ogEdge := []
  ogAdj := []
  edgeKey := List.nodup_nil

/-- The report is empty although the node has no row in the table of its type. -/
theorem not_exact_unstored : ¬ (ogCheckIntegrity unstoredTables = [] ↔ Consistent unstoredTables) ∧
    ogCheckIntegrity unstoredTables = [] := by
  have hreport : ogCheckIntegrity unstoredTables = [] := by decide
  refine ⟨fun h => ?_, hreport⟩
  rcases ((h.mp hreport).nodes ⟨10, 1⟩ List.mem_cons_self).2 with ⟨table, -, hrows⟩
  have hnone : rowsOf unstoredTables.schema table = [] := rfl
  rw [hnone] at hrows
  cases hrows

end OntologicalDb.IntegrityExactness
