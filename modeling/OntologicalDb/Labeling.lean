import Mathlib.Data.List.Sort
import OntologicalDb.ExceptRules
import OntologicalDb.IntervalNesting
import OntologicalDb.TypeCatalog

/-!
Interval labelling of the type hierarchy, and the subtype questions it answers.
-/

namespace OntologicalDb.Labeling

open OntologicalDb.ExceptRules
open OntologicalDb.IntervalNesting
open OntologicalDb.TypeCatalog

/-- Spacing between successive labels. -/
def gap : Int := 1024

/-- A type of the inheritance graph as loaded from the catalog. -/
structure TypeNode where
  id : Int
  children : List Int
  parents : List Int
deriving DecidableEq

def loadDag (c : Catalog) (gid : Int) : List TypeNode :=
  let ids := (c.types.filter fun t => t.graphId = gid).map (·.typeId)
  let links := c.typeParent.filter fun l => l.1 ∈ ids
  ids.map fun id =>
    { id := id
      children := (links.filter fun l => l.2 = id).map (·.1)
      parents := (links.filter fun l => l.1 = id).map (·.2) }

def typeNode? (dag : List TypeNode) (id : Int) : Option TypeNode :=
  dag.find? fun n => n.id = id

def childrenOf (dag : List TypeNode) (id : Int) : List Int :=
  ((typeNode? dag id).map (·.children)).getD []

/-- The state a labelling pass threads through the hierarchy. -/
structure Numbering where
  cursor : Int
  pathCounter : Int → Int
  out : List Label

/-- Depth-first assignment of one interval to every path from a root.  Fuel
replaces the call stack: a path longer than the number of types repeats one. -/
def assign (dag : List TypeNode) (gid : Int) :
    Nat → List Int → Int → Int → Numbering → Except String Numbering
  | 0, _, id, _, _ => .error s!"inheritance cycle detected at type {id}"
  | fuel + 1, stack, id, depth, st =>
      if id ∈ stack then .error s!"inheritance cycle detected at type {id}"
      else do
        let lft := st.cursor
        let inner ← ((childrenOf dag id).insertionSort (· ≤ ·)).foldlM
          (fun st child => assign dag gid fuel (id :: stack) child (depth + 1) st)
          { st with cursor := st.cursor + gap }
        let rgt := inner.cursor
        let pathId := inner.pathCounter id
        return { cursor := inner.cursor + gap
                 pathCounter := fun t => if t = id then pathId + 1 else inner.pathCounter t
                 out := inner.out ++ [⟨id, pathId, gid, lft, rgt, depth⟩] }

/-- Types reached from a queue; the head of the list is popped first. -/
def walk (dag : List TypeNode) : Nat → List Int → List Int → Except String (List Int)
  | _, reachable, [] => .ok reachable
  | 0, _, _ :: _ => .error "inheritance cycle detected while walking the type hierarchy"
  | guard + 1, reachable, id :: queue =>
      if id ∈ reachable then walk dag guard reachable queue
      else walk dag guard (id :: reachable) ((childrenOf dag id).reverse ++ queue)

def rootsOf (dag : List TypeNode) : List Int :=
  ((dag.filter fun n => n.parents.isEmpty).map (·.id)).insertionSort (· ≤ ·)

/-- The labels of a non-empty hierarchy. -/
def labelsOf (dag : List TypeNode) (gid : Int) : Except String (List Label) := do
  let reachable ← walk dag (dag.length * 64) [] (rootsOf dag).reverse
  if reachable.length ≠ dag.length then
    let orphans := (dag.map (·.id)).filter fun id => id ∉ reachable
    .error s!"inheritance cycle detected involving type(s) {orphans}"
  else
    let st ← (rootsOf dag).foldlM
      (fun st root => assign dag gid dag.length [] root 0 st) ⟨1, fun _ => 0, []⟩
    return st.out

/-- Recompute every interval label of a graph. -/
def relabelGraph (c : Catalog) (gid : Int) : Except String Catalog :=
  let dag := loadDag c gid
  if dag = [] then .ok c
  else do
    let labels ← labelsOf dag gid
    return { c with labels := (c.labels.filter fun l => l.graphId ≠ gid) ++ labels }

/-- All types that are `tid` or one of its descendants. -/
def ogSubtypes (c : Catalog) (tid : Int) : List Int :=
  ((c.labels.filter fun d => c.labels.any fun a =>
    a.typeId = tid ∧ d.graphId = a.graphId ∧ a.lft ≤ d.lft ∧ d.rgt ≤ a.rgt).map
      (·.typeId)).dedup

/-- All types that are `tid` or one of its ancestors. -/
def ogSupertypes (c : Catalog) (tid : Int) : List Int :=
  ((c.labels.filter fun a => c.labels.any fun d =>
    d.typeId = tid ∧ a.graphId = d.graphId ∧ a.lft ≤ d.lft ∧ d.rgt ≤ a.rgt).map
      (·.typeId)).dedup

/-- The subtype test the compiler and the storage layer ask. -/
def ogIsSubtype (c : Catalog) (sub sup : Int) : Bool :=
  c.labels.any fun d => c.labels.any fun a =>
    d.typeId = sub ∧ a.typeId = sup ∧ a.graphId = d.graphId ∧
      a.lft ≤ d.lft ∧ d.rgt ≤ a.rgt

/-- One step down the inheritance graph. -/
def Child (c : Catalog) (parent child : Int) : Prop := (child, parent) ∈ c.typeParent

/-- Inheritance itself: a path of parent edges leads from `sub` up to `sup`. -/
def IsSubtype (c : Catalog) (sub sup : Int) : Prop :=
  Relation.ReflTransGen (Child c) sup sub

section Hierarchy

variable {dag : List TypeNode} {gid : Int}

def interval (l : Label) : Span Int := ⟨l.typeId, l.lft, l.rgt⟩

def DagChild (dag : List TypeNode) (parent child : Int) : Prop :=
  child ∈ childrenOf dag parent

/-- What labelling the hierarchy below a list of types adds. -/
structure Labelled (dag : List TypeNode) (gid : Int) (ids : List Int)
    (st st' : Numbering) (new : List Label) : Prop where
  out_eq : st'.out = st.out ++ new
  nested : Nested (DagChild dag) st.cursor st'.cursor (new.map interval)
  graph : ∀ l ∈ new, l.graphId = gid
  covers : ∀ id ∈ ids, ∃ l ∈ new, l.typeId = id
  reaches : ∀ l ∈ new, ∃ id ∈ ids, Relation.ReflTransGen (DagChild dag) id l.typeId

theorem labelled_foldlM {f : Numbering → Int → Except String Numbering}
    (hf : ∀ st id st', f st id = .ok st' → ∃ new, Labelled dag gid [id] st st' new)
    {ids : List Int} {st st' : Numbering} (h : ids.foldlM f st = .ok st') :
    ∃ new, Labelled dag gid ids st st' new := by
  induction ids generalizing st with
  | nil =>
      obtain rfl : st = st' := Except.ok.inj h
      exact ⟨[], by simp, .nil (Int.le_refl _), by simp, by simp, by simp⟩
  | cons id ids ih =>
      obtain ⟨mid, hmid, hrest⟩ := foldlM_cons_eq_ok.mp h
      obtain ⟨xs, hxs⟩ := hf _ _ _ hmid
      obtain ⟨ys, hys⟩ := ih hrest
      refine ⟨xs ++ ys, ?_, ?_, ?_, ?_, ?_⟩
      · rw [hys.out_eq, hxs.out_eq, List.append_assoc]
      · rw [List.map_append]
        exact hxs.nested.append hys.nested
      · intro l hl
        exact (List.mem_append.mp hl).elim (hxs.graph l) (hys.graph l)
      · intro i hi
        rcases List.mem_cons.mp hi with rfl | hi
        · obtain ⟨l, hl, hid⟩ := hxs.covers _ (List.mem_singleton_self _)
          exact ⟨l, List.mem_append_left _ hl, hid⟩
        · obtain ⟨l, hl, hid⟩ := hys.covers i hi
          exact ⟨l, List.mem_append_right _ hl, hid⟩
      · intro l hl
        rcases List.mem_append.mp hl with hl | hl
        · obtain ⟨i, hi, hreach⟩ := hxs.reaches l hl
          obtain rfl := List.mem_singleton.mp hi
          exact ⟨_, List.mem_cons_self, hreach⟩
        · obtain ⟨i, hi, hreach⟩ := hys.reaches l hl
          exact ⟨i, List.mem_cons_of_mem _ hi, hreach⟩

/-- One visit labels the hierarchy below its type. -/
theorem labelled_assign {fuel : Nat} {stack : List Int} {id depth : Int}
    {st st' : Numbering} (h : assign dag gid fuel stack id depth st = .ok st') :
    ∃ new, Labelled dag gid [id] st st' new := by
  induction fuel generalizing stack id depth st st' with
  | zero => simp [assign] at h
  | succ fuel ih =>
      unfold assign at h
      split at h
      · simp at h
      obtain ⟨inner, hinner, hst'⟩ := bind_eq_ok.mp h
      obtain ⟨xs, hxs⟩ := labelled_foldlM (fun _ _ _ => ih) hinner
      obtain rfl := Except.ok.inj hst'
      have hcover : ∀ w, DagChild dag id w → ∃ l ∈ xs, l.typeId = w := fun w hw =>
        hxs.covers w ((List.mem_insertionSort _).mpr hw)
      have hreach : ∀ l ∈ xs, Relation.ReflTransGen (DagChild dag) id l.typeId := by
        intro l hl
        obtain ⟨i, hi, hreach⟩ := hxs.reaches l hl
        exact .head ((List.mem_insertionSort _).mp hi) hreach
      refine ⟨xs ++ [⟨id, inner.pathCounter id, gid, st.cursor, inner.cursor, depth⟩],
        ?_, ?_, ?_, ?_, ?_⟩
      · simp [hxs.out_eq]
      · rw [List.map_append]
        refine hxs.nested.wrap ?_ ?_ ?_ ?_
        · dsimp only [gap]
          omega
        · dsimp only [gap]
          omega
        · simpa [interval] using hreach
        · simpa [interval] using hcover
      · intro l hl
        rcases List.mem_append.mp hl with hl | hl
        · exact hxs.graph l hl
        · obtain rfl := List.mem_singleton.mp hl
          rfl
      · intro i hi
        obtain rfl := List.mem_singleton.mp hi
        exact ⟨_, List.mem_append_right _ (List.mem_singleton_self _), rfl⟩
      · intro l hl
        refine ⟨id, List.mem_singleton_self _, ?_⟩
        rcases List.mem_append.mp hl with hl | hl
        · exact hreach l hl
        · obtain rfl := List.mem_singleton.mp hl
          exact .refl

/-- Everything the walk reaches lies below its queue, without repetition. -/
theorem walk_eq_ok {guard : Nat} {reachable queue res : List Int}
    (h : walk dag guard reachable queue = .ok res) (hnodup : reachable.Nodup) :
    res.Nodup ∧ ∀ x ∈ res, x ∈ reachable ∨
      ∃ q ∈ queue, Relation.ReflTransGen (DagChild dag) q x := by
  induction guard generalizing reachable queue with
  | zero =>
      cases queue with
      | nil =>
          obtain rfl := Except.ok.inj h
          exact ⟨hnodup, fun x hx => .inl hx⟩
      | cons id queue => simp [walk] at h
  | succ guard ih =>
      cases queue with
      | nil =>
          obtain rfl := Except.ok.inj h
          exact ⟨hnodup, fun x hx => .inl hx⟩
      | cons id queue =>
          unfold walk at h
          split at h
          · obtain ⟨hres, hreach⟩ := ih h hnodup
            refine ⟨hres, fun x hx => (hreach x hx).imp_right ?_⟩
            rintro ⟨q, hq, hqx⟩
            exact ⟨q, List.mem_cons_of_mem _ hq, hqx⟩
          · next hid =>
            obtain ⟨hres, hreach⟩ := ih h (List.nodup_cons.mpr ⟨hid, hnodup⟩)
            refine ⟨hres, fun x hx => ?_⟩
            rcases hreach x hx with hx | ⟨q, hq, hqx⟩
            · rcases List.mem_cons.mp hx with rfl | hx
              · exact .inr ⟨x, List.mem_cons_self, .refl⟩
              · exact .inl hx
            · rcases List.mem_append.mp hq with hq | hq
              · exact .inr ⟨id, List.mem_cons_self, .head (List.mem_reverse.mp hq) hqx⟩
              · exact .inr ⟨q, List.mem_cons_of_mem _ hq, hqx⟩

/-- A labelled hierarchy nests its intervals along inheritance, and every type
the walk found from the roots owns one. -/
theorem labelsOf_eq_ok {labels : List Label} (h : labelsOf dag gid = .ok labels) :
    (∃ low high, Nested (DagChild dag) low high (labels.map interval)) ∧
      (∀ l ∈ labels, l.graphId = gid) ∧
      (∀ l ∈ labels, ∃ root ∈ rootsOf dag,
        Relation.ReflTransGen (DagChild dag) root l.typeId) ∧
      ∃ reachable : List Int, reachable.Nodup ∧ reachable.length = dag.length ∧
        (∀ x ∈ reachable, ∃ root ∈ rootsOf dag,
          Relation.ReflTransGen (DagChild dag) root x) ∧
        ∀ x ∈ reachable, ∃ l ∈ labels, l.typeId = x := by
  unfold labelsOf at h
  obtain ⟨reachable, hwalk, h⟩ := bind_eq_ok.mp h
  split at h
  · simp at h
  next hlength =>
  obtain ⟨st, hst, h⟩ := bind_eq_ok.mp h
  obtain rfl := pure_eq_ok.mp h
  obtain ⟨new, hnew⟩ := labelled_foldlM (fun _ _ _ => labelled_assign) hst
  obtain ⟨hnodup, hreach⟩ := walk_eq_ok hwalk List.nodup_nil
  have hbelow : ∀ x ∈ reachable, ∃ root ∈ rootsOf dag,
      Relation.ReflTransGen (DagChild dag) root x := fun x hx => by
    simpa using (hreach x hx).resolve_left List.not_mem_nil
  rw [hnew.out_eq, List.nil_append]
  refine ⟨⟨_, _, hnew.nested⟩, hnew.graph, hnew.reaches, reachable, hnodup,
    not_ne_iff.mp hlength, hbelow, fun x hx => ?_⟩
  obtain ⟨root, hroot, hrx⟩ := hbelow x hx
  obtain ⟨l, hl, hid⟩ := hnew.covers root hroot
  obtain ⟨d, hd, hnode, -⟩ := hnew.nested.exists_contained
    (List.mem_map_of_mem (f := interval) hl) (v := x) (by simpa [interval, hid] using hrx)
  obtain ⟨l', hl', rfl⟩ := List.mem_map.mp hd
  exact ⟨l', hl', hnode⟩

end Hierarchy

section LoadedDag

variable {c : Catalog} {gid : Int}

/-- The types of one graph. -/
def graphTypes (c : Catalog) (gid : Int) : List Int :=
  (c.types.filter fun t => t.graphId = gid).map (·.typeId)

theorem loadDag_ids : (loadDag c gid).map (·.id) = graphTypes c gid := by
  simp [loadDag, graphTypes, Function.comp_def]

theorem loadDag_length : (loadDag c gid).length = (graphTypes c gid).length := by
  rw [← loadDag_ids, List.length_map]

theorem mem_childrenOf_loadDag {parent child : Int} :
    child ∈ childrenOf (loadDag c gid) parent ↔
      parent ∈ graphTypes c gid ∧ child ∈ graphTypes c gid ∧ Child c parent child := by
  have hnode : ∀ ids : List Int, ∀ f : Int → TypeNode, (∀ i, (f i).id = i) →
      typeNode? (ids.map f) parent = if parent ∈ ids then some (f parent) else none := by
    intro ids f hf
    unfold typeNode?
    induction ids with
    | nil => simp
    | cons i ids ih =>
        by_cases hi : i = parent
        · simp [hi, hf]
        · simp [hi, hf, Ne.symm hi, ih]
  unfold childrenOf loadDag
  rw [hnode _ _ fun _ => rfl]
  by_cases hparent : parent ∈ graphTypes c gid
  · simp only [graphTypes] at hparent ⊢
    simp [hparent, Child, and_comm]
  · simp only [graphTypes] at hparent ⊢
    simp [hparent]

theorem rootsOf_subset {root : Int} (h : root ∈ rootsOf (loadDag c gid)) :
    root ∈ graphTypes c gid := by
  rw [← loadDag_ids]
  obtain ⟨n, hn, rfl⟩ := List.mem_map.mp ((List.mem_insertionSort _).mp h)
  exact List.mem_map_of_mem (List.mem_filter.mp hn).1

theorem mem_graphTypes_of_reaches {a b : Int}
    (h : Relation.ReflTransGen (DagChild (loadDag c gid)) a b)
    (ha : a ∈ graphTypes c gid) : b ∈ graphTypes c gid := by
  cases h with
  | refl => exact ha
  | tail _ hchild => exact (mem_childrenOf_loadDag.mp hchild).2.1

/-- Labelling a loaded hierarchy leaves no type out. -/
theorem exists_label_of_labelsOf {rows : List Label} {t : Int}
    (h : labelsOf (loadDag c gid) gid = .ok rows) (ht : t ∈ graphTypes c gid) :
    ∃ l ∈ rows, l.typeId = t := by
  obtain ⟨-, -, -, reachable, hnodup, hlength, hbelow, hcovers⟩ := labelsOf_eq_ok h
  have hsubset : reachable ⊆ graphTypes c gid := fun x hx => by
    obtain ⟨root, hroot, hrx⟩ := hbelow x hx
    exact mem_graphTypes_of_reaches hrx (rootsOf_subset hroot)
  have hperm := (List.subperm_of_subset hnodup hsubset).perm_of_length_le
    (by rw [hlength, loadDag_length])
  exact hcovers t (hperm.mem_iff.mpr ht)

end LoadedDag

/-- A catalog as its own operations leave it: type identifiers are keys, a type
inherits within its graph, and the interval labels are those of the last
relabelling of each graph. -/
structure WellFormed (c : Catalog) : Prop where
  typeIds : (c.types.map (·.typeId)).Nodup
  parents : ∀ l ∈ c.typeParent, ∃ gid, l.1 ∈ graphTypes c gid ∧ l.2 ∈ graphTypes c gid
  labelled : ∀ gid, if graphTypes c gid = [] then ∀ l ∈ c.labels, l.graphId ≠ gid
    else labelsOf (loadDag c gid) gid = .ok (c.labels.filter fun l => l.graphId = gid)

section Subtypes

variable {c : Catalog}

theorem WellFormed.graph_unique (h : WellFormed c) {g g' t : Int}
    (hg : t ∈ graphTypes c g) (hg' : t ∈ graphTypes c g') : g' = g := by
  obtain ⟨r, hr, rfl⟩ := List.mem_map.mp hg
  obtain ⟨r', hr', hid⟩ := List.mem_map.mp hg'
  obtain ⟨hmem, hgraph⟩ := List.mem_filter.mp hr
  obtain ⟨hmem', hgraph'⟩ := List.mem_filter.mp hr'
  obtain rfl := List.inj_on_of_nodup_map h.typeIds hmem' hmem hid
  simpa using (of_decide_eq_true hgraph').symm.trans (of_decide_eq_true hgraph)

/-- Within one graph, inheritance is the reachability the labelling walks. -/
theorem isSubtype_iff_dag (h : WellFormed c) {g sub sup : Int}
    (hsup : sup ∈ graphTypes c g) :
    IsSubtype c sub sup ↔ Relation.ReflTransGen (DagChild (loadDag c g)) sup sub := by
  constructor
  · intro hsub
    induction hsub with
    | refl => exact .refl
    | tail _ hchild ih =>
        obtain ⟨g', hc, hp⟩ := h.parents _ hchild
        obtain rfl := h.graph_unique (mem_graphTypes_of_reaches ih hsup) hp
        exact ih.tail (mem_childrenOf_loadDag.mpr ⟨hp, hc, hchild⟩)
  · intro hreach
    exact Relation.ReflTransGen.mono
      (p := Child c) (fun _ _ hab => (mem_childrenOf_loadDag.mp hab).2.2) _ _ hreach

theorem WellFormed.labels_of_graph (h : WellFormed c) {g : Int} {l : Label}
    (hl : l ∈ c.labels) (hg : l.graphId = g) :
    labelsOf (loadDag c g) g = .ok (c.labels.filter fun l => l.graphId = g) := by
  have hlabelled := h.labelled g
  split at hlabelled
  · exact absurd hg (hlabelled l hl)
  · exact hlabelled

/-- Every type owns a label. -/
theorem WellFormed.exists_label (h : WellFormed c) {g t : Int}
    (ht : t ∈ graphTypes c g) :
    ∃ l ∈ c.labels, l.graphId = g ∧ l.typeId = t := by
  have hlabelled := h.labelled g
  rw [if_neg (List.ne_nil_of_mem ht)] at hlabelled
  obtain ⟨l, hl, hid⟩ := exists_label_of_labelsOf hlabelled ht
  obtain ⟨hmem, hgraph⟩ := List.mem_filter.mp hl
  exact ⟨l, hmem, of_decide_eq_true hgraph, hid⟩

theorem WellFormed.label_type (h : WellFormed c) {l : Label} (hl : l ∈ c.labels) :
    l.typeId ∈ graphTypes c l.graphId := by
  obtain ⟨-, -, hroots, -⟩ := labelsOf_eq_ok (h.labels_of_graph hl rfl)
  obtain ⟨root, hroot, hreach⟩ := hroots l (List.mem_filter.mpr ⟨hl, by simp⟩)
  exact mem_graphTypes_of_reaches hreach (rootsOf_subset hroot)

/-- The interval comparison decides inheritance. -/
theorem ogIsSubtype_iff (h : WellFormed c) {g sub sup : Int}
    (hsup : sup ∈ graphTypes c g) :
    ogIsSubtype c sub sup = true ↔ IsSubtype c sub sup := by
  rw [isSubtype_iff_dag h hsup]
  obtain ⟨l, hl, hlg, hlt⟩ := h.exists_label hsup
  obtain ⟨⟨low, high, hnested⟩, -⟩ := labelsOf_eq_ok (h.labels_of_graph hl hlg)
  have hown : ∃ a ∈ (c.labels.filter fun l => l.graphId = g).map interval, a.node = sup :=
    ⟨_, List.mem_map_of_mem (List.mem_filter.mpr ⟨hl, by simpa using hlg⟩), hlt⟩
  rw [← hnested.contains_iff_reaches hown]
  simp only [ogIsSubtype, List.any_eq_true, decide_eq_true_eq]
  constructor
  · rintro ⟨d, hd, a, ha, rfl, rfl, hgraph, hlft, hrgt⟩
    obtain rfl := h.graph_unique hsup (h.label_type ha)
    exact ⟨interval a, List.mem_map_of_mem (List.mem_filter.mpr ⟨ha, by simp⟩),
      interval d, List.mem_map_of_mem (List.mem_filter.mpr ⟨hd, by simp [hgraph]⟩),
      rfl, rfl, hlft, hrgt⟩
  · rintro ⟨_, hma, _, hmd, rfl, rfl, hlft, hrgt⟩
    obtain ⟨a, hfa, rfl⟩ := List.mem_map.mp hma
    obtain ⟨d, hfd, rfl⟩ := List.mem_map.mp hmd
    obtain ⟨ha, hag⟩ := List.mem_filter.mp hfa
    obtain ⟨hd, hdg⟩ := List.mem_filter.mp hfd
    refine ⟨d, hd, a, ha, rfl, rfl, ?_, hlft, hrgt⟩
    exact (of_decide_eq_true hag).trans (of_decide_eq_true hdg).symm

theorem mem_ogSubtypes {t sup : Int} :
    t ∈ ogSubtypes c sup ↔ ogIsSubtype c t sup = true := by
  simp only [ogSubtypes, ogIsSubtype, List.mem_dedup, List.mem_map, List.mem_filter,
    List.any_eq_true, decide_eq_true_eq]
  constructor
  · rintro ⟨d, ⟨hd, a, ha, rfl, hgraph, hlft, hrgt⟩, rfl⟩
    exact ⟨d, hd, a, ha, rfl, rfl, hgraph.symm, hlft, hrgt⟩
  · rintro ⟨d, hd, a, ha, rfl, rfl, hgraph, hlft, hrgt⟩
    exact ⟨d, ⟨hd, a, ha, rfl, hgraph.symm, hlft, hrgt⟩, rfl⟩

theorem ogSubtypes_nodup {sup : Int} : (ogSubtypes c sup).Nodup := List.nodup_dedup _

end Subtypes

/-- Relabelling a graph re-establishes its part of the invariant. -/
theorem relabelGraph_labelled {c c' : Catalog} {gid : Int}
    (h : relabelGraph c gid = .ok c') (hne : graphTypes c gid ≠ []) :
    labelsOf (loadDag c' gid) gid = .ok (c'.labels.filter fun l => l.graphId = gid) := by
  have hdag : loadDag c gid ≠ [] := by
    intro hnil
    have : (loadDag c gid).map (·.id) = graphTypes c gid := loadDag_ids
    simp [hnil] at this
    exact hne this
  simp only [relabelGraph, hdag, if_false] at h
  obtain ⟨labels, hlabels, h⟩ := bind_eq_ok.mp h
  obtain rfl := pure_eq_ok.mp h
  obtain ⟨-, hgraph, -⟩ := labelsOf_eq_ok hlabels
  have hdag' : loadDag { c with
      labels := (c.labels.filter fun l => l.graphId ≠ gid) ++ labels } gid =
      loadDag c gid := rfl
  rw [hdag', hlabels]
  congr 1
  rw [List.filter_append, List.filter_filter]
  have hnone : (c.labels.filter fun l => decide (l.graphId = gid) &&
      decide (l.graphId ≠ gid)) = [] := by
    rw [List.filter_eq_nil_iff]
    intro l _
    simp
  rw [hnone, List.nil_append, eq_comm, List.filter_eq_self]
  intro l hl
  simpa using hgraph l hl

end OntologicalDb.Labeling
