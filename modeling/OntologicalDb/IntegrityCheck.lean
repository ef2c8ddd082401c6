import OntologicalDb.StoreCoherence

/-!
The structural integrity checker, and what it can still find in a coherent store.
-/

namespace OntologicalDb.IntegrityCheck

open OntologicalDb.Adjacency
open OntologicalDb.AdjacencyMirror
open OntologicalDb.GraphStorage
open OntologicalDb.StoreCoherence

structure Finding where
  kind : String
  entityId : Int
  detail : String
deriving DecidableEq

/-- Some segment of the node mentions the edge in this direction. -/
def Mentioned (adj : List Segment) (node : Int) (dir : Dir) (eid : Int) : Prop :=
  ∃ a ∈ adj, a.src = node ∧ a.dir = dir ∧ eid ∈ a.eid

instance (adj : List Segment) (node : Int) (dir : Dir) (eid : Int) :
    Decidable (Mentioned adj node dir eid) :=
  inferInstanceAs (Decidable (∃ a ∈ adj, _))

/-- The edge cannot be reached from one of its ends. -/
def MissingAdjacency (st : Store) (e : EdgeRow) : Prop :=
  ¬ (Mentioned st.ogAdj e.src .o e.id ∧ Mentioned st.ogAdj e.dst .i e.id)

instance (st : Store) (e : EdgeRow) : Decidable (MissingAdjacency st e) :=
  inferInstanceAs (Decidable (¬ _))

def OrphanNode (st : Store) (n : NodeRow) : Prop :=
  ∀ t ∈ st.schema.catalog.types, t.typeId ≠ n.typeId

instance (st : Store) (n : NodeRow) : Decidable (OrphanNode st n) :=
  inferInstanceAs (Decidable (∀ t ∈ st.schema.catalog.types, _))

def danglingAdjacency (id : Int) : Finding :=
  ⟨"dangling_adjacency", id, "adjacency references a non-existent edge"⟩

def missingAdjacency (id : Int) : Finding :=
  ⟨"missing_adjacency", id, "edge is not reachable from one of its endpoints"⟩

def segmentLengthMismatch (id : Int) : Finding :=
  ⟨"segment_length_mismatch", id, "segment count does not match array length"⟩

def orphanNode (id : Int) : Finding :=
  ⟨"orphan_node", id, "node references an unknown type"⟩

/-- `og_check_integrity` without the limit on how many rows it shows. -/
def checkIntegrity (st : Store) : List Finding :=
  (((st.ogAdj.flatMap (·.eid)).dedup.filter fun x => ∀ e ∈ st.ogEdge, e.id ≠ x).map
      danglingAdjacency) ++
    ((st.ogEdge.filter fun e => MissingAdjacency st e).map fun e => missingAdjacency e.id) ++
    ((st.ogAdj.filter fun a => a.n ≠ a.nbr.length ∨ a.nbr.length ≠ a.eid.length).map fun a =>
      segmentLengthMismatch a.src) ++
    ((st.ogNode.filter fun n => OrphanNode st n).map fun n => orphanNode n.id)

section Coherent

variable {st st' : Store}

theorem mentioned_iff (h : Coherent st) {node eid : Int} {dir : Dir} :
    Mentioned st.ogAdj node dir eid ↔
      ∃ x ∈ entries st.ogAdj, x.src = node ∧ x.dir = dir ∧ x.eid = eid := by
  constructor
  · rintro ⟨a, ha, rfl, rfl, heid⟩
    obtain ⟨nbr, hzip⟩ := (Segment.Sound.mem_eid_iff (h.sound.segment a ha)).mp heid
    exact ⟨⟨a.src, a.etype, a.dir, nbr, eid⟩,
      mem_entries.mpr ⟨a, ha, Segment.mem_entries_iff.mpr ⟨⟨rfl, rfl, rfl⟩, hzip⟩⟩, rfl, rfl, rfl⟩
  · rintro ⟨x, hx, rfl, rfl, rfl⟩
    obtain ⟨a, ha, hx⟩ := mem_entries.mp hx
    obtain ⟨hat, hzip⟩ := Segment.mem_entries_iff.mp hx
    exact ⟨a, ha, hat.1, hat.2.2, (List.of_mem_zip hzip).2⟩

/-- In a coherent store the checker can only find edges cut off from an end and
nodes of unknown types. -/
theorem mem_checkIntegrity (h : Coherent st) {f : Finding} :
    f ∈ checkIntegrity st ↔
      (∃ e ∈ st.ogEdge, MissingAdjacency st e ∧ f = missingAdjacency e.id) ∨
        ∃ n ∈ st.ogNode, OrphanNode st n ∧ f = orphanNode n.id := by
  have hdangling : ((st.ogAdj.flatMap (·.eid)).dedup.filter fun x => ∀ e ∈ st.ogEdge, e.id ≠ x) =
      [] := by
    refine List.filter_eq_nil_iff.mpr fun x hx => ?_
    obtain ⟨a, ha, hx⟩ := List.mem_flatMap.mp (List.mem_dedup.mp hx)
    obtain ⟨y, hy, -, -, rfl⟩ := (mentioned_iff h).mp ⟨a, ha, rfl, rfl, hx⟩
    obtain ⟨e, he, hmem⟩ := mem_registryEntries.mp (h.registered y hy)
    rw [decide_eq_true_eq]
    exact fun hnone => hnone e he (eid_of_mem_edgeEntries hmem).symm
  have hlength : (st.ogAdj.filter fun a => a.n ≠ a.nbr.length ∨ a.nbr.length ≠ a.eid.length) =
      [] := by
    refine List.filter_eq_nil_iff.mpr fun a ha => ?_
    have hnbr := (h.sound.segment a ha).nbr_length
    have heid := (h.sound.segment a ha).eid_length
    simp only [decide_eq_true_eq]
    omega
  unfold checkIntegrity
  rw [hdangling, hlength]
  simp only [List.map_nil, List.nil_append, List.append_nil, List.mem_append, List.mem_map,
    List.mem_filter, decide_eq_true_eq]
  constructor
  · rintro (⟨e, ⟨he, hmissing⟩, rfl⟩ | ⟨n, ⟨hn, horphan⟩, rfl⟩)
    · exact .inl ⟨e, he, hmissing, rfl⟩
    · exact .inr ⟨n, hn, horphan, rfl⟩
  · rintro (⟨e, he, hmissing, rfl⟩ | ⟨n, hn, horphan, rfl⟩)
    · exact .inl ⟨e, ⟨he, hmissing⟩, rfl⟩
    · exact .inr ⟨n, ⟨hn, horphan⟩, rfl⟩

theorem missingAdjacency_inj {x y : Int} : missingAdjacency x = missingAdjacency y ↔ x = y := by
  simp [missingAdjacency]

/-- The checker finds nothing new when every edge it now misses was missing, and
every node of an unknown type was of one. -/
theorem checkIntegrity_subset (h : Coherent st) (h' : Coherent st')
    (hedge : st'.ogEdge ⊆ st.ogEdge) (hnode : st'.ogNode ⊆ st.ogNode)
    (horphan : ∀ n ∈ st'.ogNode, OrphanNode st' n → OrphanNode st n) :
    checkIntegrity st' ⊆ checkIntegrity st ↔
      ∀ e ∈ st'.ogEdge, MissingAdjacency st' e → MissingAdjacency st e := by
  constructor
  · intro hsub e he hmissing
    have hfound := hsub ((mem_checkIntegrity h').mpr (.inl ⟨e, he, hmissing, rfl⟩))
    rcases (mem_checkIntegrity h).mp hfound with ⟨f, hf, hfmissing, heq⟩ | ⟨n, -, -, heq⟩
    · have hids : (st.ogEdge.map (·.id)).Nodup := (List.nodup_append.mp h.ids).2.1
      rwa [List.inj_on_of_nodup_map hids (hedge he) hf (missingAdjacency_inj.mp heq)]
    · simp [missingAdjacency, orphanNode] at heq
  · intro hmissing f hf
    rcases (mem_checkIntegrity h').mp hf with ⟨e, he, hmiss, rfl⟩ | ⟨n, hn, horph, rfl⟩
    · exact (mem_checkIntegrity h).mpr (.inl ⟨e, hedge he, hmissing e he hmiss, rfl⟩)
    · exact (mem_checkIntegrity h).mpr
        (.inr ⟨n, hnode hn, horphan n hn horph, rfl⟩)

end Coherent

end OntologicalDb.IntegrityCheck
