import Mathlib.Algebra.Ring.Nat
import OntologicalDb.AcyclicRelations
import OntologicalDb.Labeling

/-!
What relabelling a graph does on an arbitrary hierarchy: when it ends, when it
reports a cycle, and what the intervals it assigns answer.
-/

namespace OntologicalDb.Relabelling

open OntologicalDb.AcyclicRelations
open OntologicalDb.ExceptRules
open OntologicalDb.IntervalNesting
open OntologicalDb.Labeling
open OntologicalDb.TypeCatalog

section Walk

variable {dag : List TypeNode}

def ids (dag : List TypeNode) : List Int := dag.map (·.id)

/-- The links below the types the walk has not met yet. -/
def pending (dag : List TypeNode) (reachable : List Int) : Nat :=
  ((dag.filter fun n => n.id ∉ reachable).map fun n => n.children.length).sum

theorem typeNode?_cons (n : TypeNode) (dag : List TypeNode) (id : Int) :
    typeNode? (n :: dag) id = if n.id = id then some n else typeNode? dag id := by
  unfold typeNode?
  rw [List.find?_cons]
  split <;> simp_all

theorem childrenOf_eq_nil {id : Int} (h : id ∉ ids dag) : childrenOf dag id = [] := by
  have hnone : typeNode? dag id = none := by
    refine List.find?_eq_none.mpr fun n hn heq => h ?_
    exact List.mem_map.mpr ⟨n, hn, of_decide_eq_true heq⟩
  rw [childrenOf, hnone]
  rfl

/-- Meeting a type makes its links work to do now instead of later. -/
theorem pending_of_not_mem {id : Int} {reachable : List Int} (hnodup : (ids dag).Nodup)
    (hid : id ∉ reachable) :
    pending dag reachable =
      (childrenOf dag id).length + pending dag (id :: reachable) := by
  induction dag with
  | nil => rfl
  | cons n dag ih =>
      obtain ⟨hn, hnodup⟩ := List.nodup_cons.mp hnodup
      have hrest := ih hnodup
      rcases eq_or_ne n.id id with heq | hne
      · change n.id ∉ ids dag at hn
        rw [heq] at hn
        rw [childrenOf_eq_nil hn, List.length_nil, Nat.zero_add] at hrest
        have hchildren : childrenOf (n :: dag) id = n.children := by
          rw [childrenOf, typeNode?_cons, if_pos heq]
          rfl
        have hleft : pending (n :: dag) reachable =
            n.children.length + pending dag reachable := by
          simp [pending, heq, hid]
        have hright : pending (n :: dag) (id :: reachable) =
            pending dag (id :: reachable) := by
          simp [pending, heq]
        rw [hchildren, hleft, hright, hrest]
      · have hchildren : childrenOf (n :: dag) id = childrenOf dag id := by
          rw [childrenOf, typeNode?_cons, if_neg hne]
          rfl
        rw [hchildren]
        rcases Classical.em (n.id ∈ reachable) with hmem | hmem
        · simpa [pending, hmem] using hrest
        · have hleft : pending (n :: dag) reachable =
              n.children.length + pending dag reachable := by
            simp [pending, hmem]
          have hright : pending (n :: dag) (id :: reachable) =
              n.children.length + pending dag (id :: reachable) := by
            simp [pending, hmem, hne]
          omega

/-- A walk with enough steps left reaches the end of its queue. -/
theorem exists_walk_eq_ok (hnodup : (ids dag).Nodup) {guard : Nat}
    {reachable queue : List Int} (hguard : queue.length + pending dag reachable ≤ guard) :
    ∃ res, walk dag guard reachable queue = .ok res := by
  induction guard generalizing reachable queue with
  | zero =>
      cases queue with
      | nil => exact ⟨reachable, rfl⟩
      | cons id queue =>
          rw [List.length_cons] at hguard
          omega
  | succ guard ih =>
      cases queue with
      | nil => exact ⟨reachable, rfl⟩
      | cons id queue =>
          rw [List.length_cons] at hguard
          rw [walk]
          split
          · exact ih (by omega)
          · next hid =>
            have hpending := pending_of_not_mem hnodup hid
            refine ih ?_
            rw [List.length_append, List.length_reverse]
            omega

/-- A walk that ended has paid for its queue and for every link it met. -/
theorem work_le_of_walk (hnodup : (ids dag).Nodup) {guard : Nat}
    {reachable queue res : List Int} (h : walk dag guard reachable queue = .ok res) :
    queue.length + pending dag reachable ≤ guard + pending dag res := by
  induction guard generalizing reachable queue with
  | zero =>
      cases queue with
      | nil =>
          obtain rfl := Except.ok.inj h
          simp
      | cons id queue => simp [walk] at h
  | succ guard ih =>
      cases queue with
      | nil =>
          obtain rfl := Except.ok.inj h
          simp
      | cons id queue =>
          rw [walk] at h
          rw [List.length_cons]
          split at h
          · have := ih h
            omega
          · next hid =>
            have hpending := pending_of_not_mem hnodup hid
            have hrest := ih h
            rw [List.length_append, List.length_reverse] at hrest
            omega

/-- The walk ends with a set closed under children. -/
theorem closed_of_walk {guard : Nat} {reachable queue res : List Int}
    (h : walk dag guard reachable queue = .ok res)
    (hopen : ∀ x ∈ reachable, ∀ y, DagChild dag x y → y ∈ reachable ∨ y ∈ queue) :
    (∀ x, x ∈ reachable ∨ x ∈ queue → x ∈ res) ∧
      ∀ x ∈ res, ∀ y, DagChild dag x y → y ∈ res := by
  induction guard generalizing reachable queue with
  | zero =>
      cases queue with
      | nil =>
          obtain rfl := Except.ok.inj h
          simpa using hopen
      | cons id queue => simp [walk] at h
  | succ guard ih =>
      cases queue with
      | nil =>
          obtain rfl := Except.ok.inj h
          simpa using hopen
      | cons id queue =>
          rw [walk] at h
          split at h
          · next hid =>
            have hstep := ih h fun x hx y hy => by
              rcases hopen x hx y hy with hy | hy
              · exact .inl hy
              · rcases List.mem_cons.mp hy with rfl | hy
                · exact .inl hid
                · exact .inr hy
            refine ⟨fun x hx => hstep.1 x ?_, hstep.2⟩
            rcases hx with hx | hx
            · exact .inl hx
            · rcases List.mem_cons.mp hx with rfl | hx
              · exact .inl hid
              · exact .inr hx
          · have hstep := ih h fun x hx y hy => by
              rcases List.mem_cons.mp hx with rfl | hx
              · exact .inr (List.mem_append_left _ (List.mem_reverse.mpr hy))
              · rcases hopen x hx y hy with hy | hy
                · exact .inl (List.mem_cons_of_mem _ hy)
                · rcases List.mem_cons.mp hy with rfl | hy
                  · exact .inl List.mem_cons_self
                  · exact .inr (List.mem_append_right _ hy)
            refine ⟨fun x hx => hstep.1 x ?_, hstep.2⟩
            rcases hx with hx | hx
            · exact .inl (List.mem_cons_of_mem _ hx)
            · rcases List.mem_cons.mp hx with rfl | hx
              · exact .inl List.mem_cons_self
              · exact .inr (List.mem_append_right _ hx)

/-- Everything below the queue is reached. -/
theorem mem_of_walk {guard : Nat} {queue res : List Int} {q x : Int}
    (h : walk dag guard [] queue = .ok res) (hq : q ∈ queue)
    (hreach : Relation.ReflTransGen (DagChild dag) q x) : x ∈ res := by
  obtain ⟨hall, hclosed⟩ := closed_of_walk h (by simp)
  induction hreach with
  | refl => exact hall q (.inr hq)
  | tail _ hstep ih => exact hclosed _ ih _ hstep

theorem walk_eq_error {guard : Nat} {reachable queue : List Int} {e : String}
    (h : walk dag guard reachable queue = .error e) :
    e = "inheritance cycle detected while walking the type hierarchy" := by
  induction guard generalizing reachable queue with
  | zero =>
      cases queue with
      | nil => simp [walk] at h
      | cons id queue => exact (Except.error.inj h).symm
  | succ guard ih =>
      cases queue with
      | nil => simp [walk] at h
      | cons id queue =>
          rw [walk] at h
          split at h
          · exact ih h
          · exact ih h

end Walk

section Assignment

variable {dag : List TypeNode} {gid : Int}

theorem mem_sorted_children {id child : Int} :
    child ∈ (childrenOf dag id).insertionSort (· ≤ ·) ↔ DagChild dag id child :=
  List.mem_insertionSort _

/-- Where the visit of a type succeeds, no path below the type is endless. -/
theorem ends_of_assign {fuel : Nat} {stack : List Int} {id depth : Int}
    {st st' : Numbering} (h : assign dag gid fuel stack id depth st = .ok st') :
    Ends (DagChild dag) id := by
  induction fuel generalizing stack id depth st st' with
  | zero => simp [assign] at h
  | succ fuel ih =>
      rw [assign] at h
      split at h
      · simp at h
      obtain ⟨inner, hinner, -⟩ := bind_eq_ok.mp h
      refine Ends.of_next fun child hchild => ?_
      obtain ⟨d, d', hd⟩ :=
        step_of_foldlM_eq_ok hinner child (mem_sorted_children.mpr hchild)
      exact ih hd

/-- The types on the call stack lie above the type visited, each once. -/
structure Above (dag : List TypeNode) (stack : List Int) (id : Int) : Prop where
  nodup : stack.Nodup
  known : ∀ s ∈ stack, s ∈ ids dag
  reaches : ∀ s ∈ stack, Relation.TransGen (DagChild dag) s id

theorem Above.push {stack : List Int} {id child : Int} (h : Above dag stack id)
    (hid : id ∈ ids dag) (hnew : id ∉ stack) (hchild : DagChild dag id child) :
    Above dag (id :: stack) child where
  nodup := List.nodup_cons.mpr ⟨hnew, h.nodup⟩
  known := by
    intro s hs
    rcases List.mem_cons.mp hs with rfl | hs
    · exact hid
    · exact h.known s hs
  reaches := by
    intro s hs
    rcases List.mem_cons.mp hs with rfl | hs
    · exact .single hchild
    · exact (h.reaches s hs).tail hchild

/-- A stack that leaves a type out is shorter than the hierarchy. -/
theorem Above.length_lt {stack : List Int} {id : Int} (h : Above dag stack id)
    (hid : id ∈ ids dag) (hnew : id ∉ stack) : stack.length < (ids dag).length := by
  have hnodup : (id :: stack).Nodup := List.nodup_cons.mpr ⟨hnew, h.nodup⟩
  have hsubset : id :: stack ⊆ ids dag := by
    intro s hs
    rcases List.mem_cons.mp hs with rfl | hs
    · exact hid
    · exact h.known s hs
  have hle := (List.subperm_of_subset hnodup hsubset).length_le
  rw [List.length_cons] at hle
  omega

/-- On an acyclic hierarchy every visit succeeds. -/
theorem exists_assign_eq_ok (hclosed : ∀ x y, DagChild dag x y → y ∈ ids dag)
    (hacyclic : ∀ x ∈ ids dag, ¬ Relation.TransGen (DagChild dag) x x)
    {fuel : Nat} {stack : List Int} {id depth : Int} (habove : Above dag stack id)
    (hid : id ∈ ids dag) (hfuel : (ids dag).length ≤ stack.length + fuel)
    (st : Numbering) : ∃ st', assign dag gid fuel stack id depth st = .ok st' := by
  induction fuel generalizing stack id depth st with
  | zero =>
      have := habove.length_lt hid fun hmem => hacyclic id hid (habove.reaches id hmem)
      omega
  | succ fuel ih =>
      have hnew : id ∉ stack := fun hmem => hacyclic id hid (habove.reaches id hmem)
      have hchildren : ∀ child ∈ (childrenOf dag id).insertionSort (· ≤ ·), ∀ d,
          ∃ d', assign dag gid fuel (id :: stack) child (depth + 1) d = .ok d' := by
        intro child hmem d
        have hchild := mem_sorted_children.mp hmem
        refine ih (habove.push hid hnew hchild) (hclosed id child hchild) ?_ d
        rw [List.length_cons]
        omega
      obtain ⟨inner, hinner⟩ := exists_foldlM_eq_ok hchildren
        { st with cursor := st.cursor + gap }
      rw [assign, if_neg hnew]
      exact ⟨_, bind_eq_ok.mpr ⟨inner, hinner, rfl⟩⟩

theorem assign_eq_error {fuel : Nat} {stack : List Int} {id depth : Int} {st : Numbering}
    {e : String} (h : assign dag gid fuel stack id depth st = .error e) :
    ∃ t : Int, e = s!"inheritance cycle detected at type {t}" := by
  induction fuel generalizing stack id depth st with
  | zero => exact ⟨id, (Except.error.inj h).symm⟩
  | succ fuel ih =>
      rw [assign] at h
      split at h
      · exact ⟨id, (Except.error.inj h).symm⟩
      · rcases bind_eq_error.mp h with hloop | ⟨inner, -, hlast⟩
        · obtain ⟨child, -, d, hfail⟩ := exists_of_foldlM_eq_error hloop
          exact ih hfail
        · simp [pure, Except.pure] at hlast

end Assignment

section Hierarchy

variable {dag : List TypeNode} {gid : Int}

theorem mem_ids_of_mem_rootsOf {root : Int} (h : root ∈ rootsOf dag) : root ∈ ids dag := by
  obtain ⟨n, hn, rfl⟩ := List.mem_map.mp ((List.mem_insertionSort _).mp h)
  exact List.mem_map_of_mem (List.mem_filter.mp hn).1

theorem mem_ids_of_dagChild {parent child : Int} (h : DagChild dag parent child) :
    parent ∈ ids dag := by
  by_contra hnot
  rw [DagChild, childrenOf_eq_nil hnot] at h
  exact List.not_mem_nil h

theorem pending_eq_zero {reachable : List Int} (h : ∀ x ∈ ids dag, x ∈ reachable) :
    pending dag reachable = 0 := by
  have hnone : dag.filter (fun n => n.id ∉ reachable) = [] := by
    refine List.filter_eq_nil_iff.mpr fun n hn => ?_
    have := h n.id (List.mem_map_of_mem hn)
    simpa using this
  rw [pending, hnone]
  rfl

/-- What a loaded hierarchy keeps: one node a type, links that stay inside, and
a root wherever nothing lies above. -/
structure Loaded (dag : List TypeNode) : Prop where
  nodup : (ids dag).Nodup
  children : ∀ x y, DagChild dag x y → y ∈ ids dag
  roots : ∀ x ∈ ids dag, (∀ p, ¬ DagChild dag p x) → x ∈ rootsOf dag

theorem Loaded.mem_ids_of_reaches (h : Loaded dag) {x y : Int}
    (hreach : Relation.ReflTransGen (DagChild dag) x y) (hx : x ∈ ids dag) :
    y ∈ ids dag := by
  cases hreach with
  | refl => exact hx
  | tail _ hstep => exact h.children _ _ hstep

/-- A walk from the roots that ended met exactly the types below them. -/
theorem mem_walk_iff {guard : Nat} {res : List Int}
    (hwalk : walk dag guard [] (rootsOf dag).reverse = .ok res) {x : Int} :
    x ∈ res ↔ ∃ root ∈ rootsOf dag, Relation.ReflTransGen (DagChild dag) root x := by
  constructor
  · intro hx
    obtain ⟨root, hroot, hreach⟩ :=
      ((walk_eq_ok hwalk List.nodup_nil).2 x hx).resolve_left List.not_mem_nil
    exact ⟨root, List.mem_reverse.mp hroot, hreach⟩
  · rintro ⟨root, hroot, hreach⟩
    exact mem_of_walk hwalk (List.mem_reverse.mpr hroot) hreach

theorem Loaded.length_walk_iff (h : Loaded dag) {guard : Nat} {res : List Int}
    (hwalk : walk dag guard [] (rootsOf dag).reverse = .ok res) :
    res.length = dag.length ↔ ∀ x ∈ ids dag, x ∈ res := by
  obtain ⟨hnodup, -⟩ := walk_eq_ok hwalk List.nodup_nil
  have hlength : (ids dag).length = dag.length := List.length_map _
  have hsubset : res ⊆ ids dag := by
    intro x hx
    obtain ⟨root, hroot, hreach⟩ := (mem_walk_iff hwalk).mp hx
    exact h.mem_ids_of_reaches hreach (mem_ids_of_mem_rootsOf hroot)
  constructor
  · intro heq x hx
    have hperm := (List.subperm_of_subset hnodup hsubset).perm_of_length_le
      (by rw [hlength, heq])
    exact hperm.mem_iff.mpr hx
  · intro hall
    have hle := (List.subperm_of_subset hnodup hsubset).length_le
    have hge := (List.subperm_of_subset h.nodup hall).length_le
    omega

/-- Labelling ends exactly on an acyclic hierarchy whose roots and links fit
into the work bound. -/
theorem Loaded.exists_labelsOf_iff (h : Loaded dag) :
    (∃ rows, labelsOf dag gid = .ok rows) ↔
      (∀ x ∈ ids dag, ¬ Relation.TransGen (DagChild dag) x x) ∧
        (rootsOf dag).length + pending dag [] ≤ dag.length * 64 := by
  constructor
  · rintro ⟨rows, hrows⟩
    obtain ⟨res, hwalk, hrest⟩ := bind_eq_ok.mp hrows
    split at hrest
    · simp at hrest
    next hlength =>
    obtain ⟨st, hst, -⟩ := bind_eq_ok.mp hrest
    have hall := (h.length_walk_iff hwalk).mp (not_ne_iff.mp hlength)
    refine ⟨fun x hx => ?_, ?_⟩
    · obtain ⟨root, hroot, hreach⟩ := (mem_walk_iff hwalk).mp (hall x hx)
      obtain ⟨d, d', hd⟩ := step_of_foldlM_eq_ok hst root hroot
      exact ((ends_of_assign hd).reaches hreach).not_cycle
    · have hwork := work_le_of_walk h.nodup hwalk
      rw [pending_eq_zero hall, List.length_reverse, Nat.add_zero] at hwork
      exact hwork
  · rintro ⟨hacyclic, hwork⟩
    have hguard : (rootsOf dag).reverse.length + pending dag [] ≤ dag.length * 64 := by
      rw [List.length_reverse]
      exact hwork
    obtain ⟨res, hwalk⟩ := exists_walk_eq_ok h.nodup hguard
    have hall : ∀ x ∈ ids dag, x ∈ res := by
      intro x hx
      obtain ⟨root, hroot, hsource, hreach⟩ :=
        exists_source (fun _ _ _ hp => mem_ids_of_dagChild hp) hacyclic hx
      exact (mem_walk_iff hwalk).mpr ⟨root, h.roots root hroot hsource, hreach⟩
    have hlength := (h.length_walk_iff hwalk).mpr hall
    have hsteps : ∀ root ∈ rootsOf dag, ∀ d,
        ∃ d', assign dag gid dag.length [] root 0 d = .ok d' := by
      intro root hroot d
      refine exists_assign_eq_ok h.children hacyclic ⟨List.nodup_nil, by simp, by simp⟩
        (mem_ids_of_mem_rootsOf hroot) ?_ d
      rw [ids, List.length_map]
      omega
    obtain ⟨st, hst⟩ := exists_foldlM_eq_ok hsteps ⟨1, fun _ => 0, []⟩
    refine ⟨st.out, bind_eq_ok.mpr ⟨res, hwalk, ?_⟩⟩
    rw [if_neg (not_ne_iff.mpr hlength)]
    exact bind_eq_ok.mpr ⟨st, hst, rfl⟩

/-- The text of a cycle error, whichever test found the cycle. -/
def CycleError (e : String) : Prop := ∃ rest, e = "inheritance cycle detected" ++ rest

theorem cycleError_append (rest text : String) :
    CycleError ("inheritance cycle detected" ++ rest ++ text) :=
  ⟨rest ++ text, String.append_assoc⟩

theorem labelsOf_eq_error {e : String} (h : labelsOf dag gid = .error e) : CycleError e := by
  rcases bind_eq_error.mp h with hwalk | ⟨res, -, hrest⟩
  · exact ⟨" while walking the type hierarchy", walk_eq_error hwalk⟩
  · split at hrest
    · obtain rfl := Except.error.inj hrest
      exact cycleError_append " involving type(s) " _
    · rcases bind_eq_error.mp hrest with hloop | ⟨st, -, hlast⟩
      · obtain ⟨root, -, d, hfail⟩ := exists_of_foldlM_eq_error hloop
        obtain ⟨t, rfl⟩ := assign_eq_error hfail
        exact cycleError_append " at type " _
      · simp [pure, Except.pure] at hlast

end Hierarchy

section Catalog

variable {c c' : Catalog} {gid : Int}

/-- What the keys of the catalog and the operations that add links guarantee of
one graph. -/
structure Keyed (c : Catalog) (gid : Int) : Prop where
  unique : (graphTypes c gid).Nodup
  parents : ∀ l ∈ c.typeParent, l.1 ∈ graphTypes c gid → l.2 ∈ graphTypes c gid

def Acyclic (c : Catalog) (gid : Int) : Prop :=
  ∀ t ∈ graphTypes c gid, ¬ Relation.TransGen (Child c) t t

def rootTypes (c : Catalog) (gid : Int) : List Int :=
  (graphTypes c gid).filter fun t => c.typeParent.all fun l => l.1 ≠ t

def links (c : Catalog) (gid : Int) : List (Int × Int) :=
  c.typeParent.filter fun l => l.1 ∈ graphTypes c gid

/-- The hierarchy is sparse enough for the work bound of the walk. -/
def Sparse (c : Catalog) (gid : Int) : Prop :=
  (rootTypes c gid).length + (links c gid).length ≤ 64 * (graphTypes c gid).length

instance : Decidable (Sparse c gid) := inferInstanceAs (Decidable (_ ≤ _))

theorem ids_loadDag : ids (loadDag c gid) = graphTypes c gid := loadDag_ids

theorem Keyed.dagChild (h : Keyed c gid) {parent child : Int}
    (hchild : child ∈ graphTypes c gid) (hlink : Child c parent child) :
    DagChild (loadDag c gid) parent child :=
  mem_childrenOf_loadDag.mpr ⟨h.parents _ hlink hchild, hchild, hlink⟩

/-- Above a type of the graph, inheritance stays inside the graph. -/
theorem Keyed.reaches_iff (h : Keyed c gid) {a b : Int} (hb : b ∈ graphTypes c gid) :
    Relation.ReflTransGen (Child c) a b ↔
      Relation.ReflTransGen (DagChild (loadDag c gid)) a b := by
  constructor
  · intro hreach
    have hup : a ∈ graphTypes c gid ∧
        Relation.ReflTransGen (DagChild (loadDag c gid)) a b := by
      induction hreach using Relation.ReflTransGen.head_induction_on with
      | refl => exact ⟨hb, .refl⟩
      | head hstep _ ih =>
          exact ⟨h.parents _ hstep ih.1, .head (h.dagChild ih.1 hstep) ih.2⟩
    exact hup.2
  · intro hreach
    exact Relation.ReflTransGen.mono
      (fun _ _ hstep => (mem_childrenOf_loadDag.mp hstep).2.2) _ _ hreach

theorem Keyed.cycle_iff (h : Keyed c gid) {t : Int} (ht : t ∈ graphTypes c gid) :
    Relation.TransGen (Child c) t t ↔
      Relation.TransGen (DagChild (loadDag c gid)) t t := by
  rw [Relation.TransGen.tail'_iff, Relation.TransGen.tail'_iff]
  constructor
  · rintro ⟨p, htp, hpt⟩
    have hp := h.parents _ hpt ht
    exact ⟨p, (h.reaches_iff hp).mp htp, h.dagChild ht hpt⟩
  · rintro ⟨p, htp, hpt⟩
    have hlink := mem_childrenOf_loadDag.mp hpt
    exact ⟨p, (h.reaches_iff hlink.1).mpr htp, hlink.2.2⟩

theorem length_rootsOf_loadDag :
    (rootsOf (loadDag c gid)).length = (rootTypes c gid).length := by
  have hempty : ∀ t ∈ graphTypes c gid,
      (((c.typeParent.filter fun l => l.1 ∈ graphTypes c gid).filter
        fun l => l.1 = t).map (·.2)).isEmpty = c.typeParent.all fun l => l.1 ≠ t := by
    intro t ht
    rw [Bool.eq_iff_iff]
    simp only [List.isEmpty_iff, List.map_eq_nil_iff, List.filter_eq_nil_iff,
      List.mem_filter, List.all_eq_true, decide_eq_true_eq, and_imp]
    constructor
    · intro hall l hl heq
      exact hall l hl (heq ▸ ht) heq
    · intro hall l hl _ heq
      exact hall l hl heq
  have hfilter := List.filter_congr hempty
  rw [rootsOf, List.length_insertionSort, List.length_map, loadDag, List.filter_map,
    List.length_map, rootTypes, ← hfilter]
  rfl

theorem sum_length_filter {xs : List Int} (hnodup : xs.Nodup) (ls : List (Int × Int)) :
    (xs.map fun x => (ls.filter fun l => l.2 = x).length).sum =
      (ls.filter fun l => l.2 ∈ xs).length := by
  induction xs with
  | nil => simp
  | cons x xs ih =>
      obtain ⟨hx, hnodup⟩ := List.nodup_cons.mp hnodup
      rw [List.map_cons, List.sum_cons, ih hnodup]
      clear ih
      induction ls with
      | nil => rfl
      | cons l ls ihl =>
          rcases eq_or_ne l.2 x with heq | hne
          · have hnot : l.2 ∉ xs := heq ▸ hx
            simp only [List.filter_cons, heq, List.mem_cons, true_or, decide_true,
              if_true, List.length_cons]
            simp only [heq] at hnot
            simp only [hnot, decide_false, Bool.false_eq_true, if_false]
            simp only [List.mem_cons] at ihl
            omega
          · simp only [List.mem_cons] at ihl
            rcases Classical.em (l.2 ∈ xs) with hmem | hmem
            · simp only [List.filter_cons, hne, hmem, List.mem_cons, or_true, decide_true,
                decide_false, Bool.false_eq_true, if_false, if_true, List.length_cons]
              omega
            · simp only [List.filter_cons, hne, hmem, List.mem_cons, or_self, decide_false,
                Bool.false_eq_true, if_false]
              exact ihl

theorem Keyed.pending_loadDag (h : Keyed c gid) :
    pending (loadDag c gid) [] = (links c gid).length := by
  have hsum := sum_length_filter h.unique (links c gid)
  have hall : (links c gid).filter (fun l => l.2 ∈ graphTypes c gid) = links c gid := by
    refine List.filter_eq_self.mpr fun l hl => ?_
    obtain ⟨hmem, hid⟩ := List.mem_filter.mp hl
    exact decide_eq_true (h.parents l hmem (of_decide_eq_true hid))
  rw [hall] at hsum
  rw [← hsum, pending, List.filter_eq_self.mpr (by simp), loadDag, List.map_map]
  congr 1
  refine List.map_congr_left fun t _ => ?_
  exact List.length_map _

theorem Keyed.loaded (h : Keyed c gid) : Loaded (loadDag c gid) where
  nodup := by
    rw [ids_loadDag]
    exact h.unique
  children := by
    intro x y hxy
    rw [ids_loadDag]
    exact (mem_childrenOf_loadDag.mp hxy).2.1
  roots := by
    intro x hx hsource
    rw [ids_loadDag] at hx
    refine (List.mem_insertionSort _).mpr (List.mem_map.mpr
      ⟨_, List.mem_filter.mpr ⟨List.mem_map.mpr ⟨x, hx, rfl⟩, ?_⟩, rfl⟩)
    simp only [List.isEmpty_iff, List.map_eq_nil_iff, List.filter_eq_nil_iff,
      List.mem_filter, decide_eq_true_eq, and_imp]
    rintro ⟨child, parent⟩ hl - rfl
    exact hsource parent (h.dagChild hx hl)

theorem relabelGraph_of_nil (h : graphTypes c gid = []) : relabelGraph c gid = .ok c := by
  have hnil : (loadDag c gid).map (·.id) = [] := by
    rw [loadDag_ids, h]
  rw [relabelGraph, if_pos (List.map_eq_nil_iff.mp hnil)]

theorem relabelGraph_of_ne_nil (h : graphTypes c gid ≠ []) :
    relabelGraph c gid = labelsOf (loadDag c gid) gid >>= fun labels =>
      .ok { c with labels := (c.labels.filter fun l => l.graphId ≠ gid) ++ labels } := by
  have hdag : loadDag c gid ≠ [] := by
    intro hnil
    refine h ?_
    rw [← loadDag_ids, hnil]
    rfl
  rw [relabelGraph, if_neg hdag]
  rfl

/-- Relabelling ends exactly on a sparse acyclic hierarchy. -/
theorem Keyed.exists_relabelGraph_iff (h : Keyed c gid) :
    (∃ c', relabelGraph c gid = .ok c') ↔ Acyclic c gid ∧ Sparse c gid := by
  have hacyclic : (∀ x ∈ ids (loadDag c gid),
      ¬ Relation.TransGen (DagChild (loadDag c gid)) x x) ↔ Acyclic c gid := by
    rw [ids_loadDag]
    exact forall₂_congr fun t ht => not_congr (h.cycle_iff ht).symm
  have hsparse : (rootsOf (loadDag c gid)).length + pending (loadDag c gid) [] ≤
      (loadDag c gid).length * 64 ↔ Sparse c gid := by
    rw [length_rootsOf_loadDag, h.pending_loadDag, loadDag_length, Nat.mul_comm, Sparse]
  rcases eq_or_ne (graphTypes c gid) [] with hnil | hne
  · refine iff_of_true ⟨c, relabelGraph_of_nil hnil⟩ ⟨?_, ?_⟩
    · rw [Acyclic, hnil]
      simp
    · simp [Sparse, rootTypes, links, hnil]
  · have hlabels : (∃ rows, labelsOf (loadDag c gid) gid = .ok rows) ↔ _ :=
      h.loaded.exists_labelsOf_iff
    rw [← hacyclic, ← hsparse, ← hlabels, relabelGraph_of_ne_nil hne]
    constructor
    · rintro ⟨c', hc'⟩
      obtain ⟨rows, hrows, -⟩ := bind_eq_ok.mp hc'
      exact ⟨rows, hrows⟩
    · rintro ⟨rows, hrows⟩
      exact ⟨_, bind_eq_ok.mpr ⟨rows, hrows, rfl⟩⟩

theorem relabelGraph_eq_error {e : String} (h : relabelGraph c gid = .error e) :
    CycleError e := by
  rcases eq_or_ne (graphTypes c gid) [] with hnil | hne
  · rw [relabelGraph_of_nil hnil] at h
    simp at h
  · rw [relabelGraph_of_ne_nil hne] at h
    rcases bind_eq_error.mp h with hlabels | ⟨rows, -, hlast⟩
    · exact labelsOf_eq_error hlabels
    · simp at hlast

/-- The label rows of one graph. -/
def assigned (c : Catalog) (gid : Int) : List Label :=
  c.labels.filter fun l => l.graphId = gid

/-- The intervals of a graph answer inheritance exactly. -/
structure Exact (c c' : Catalog) (gid : Int) : Prop where
  intervals : ∀ a ∈ graphTypes c gid, ∀ b ∈ graphTypes c gid,
    (∃ i ∈ assigned c' gid, ∃ j ∈ assigned c' gid, i.typeId = a ∧ j.typeId = b ∧
      i.lft ≤ j.lft ∧ j.rgt ≤ i.rgt) ↔ IsSubtype c b a
  isSubtype : ∀ a ∈ graphTypes c gid, ∀ b ∈ graphTypes c gid,
    ogIsSubtype c' b a = true ↔ IsSubtype c b a
  subtypes : ∀ a ∈ graphTypes c gid, ∀ b ∈ graphTypes c gid,
    b ∈ ogSubtypes c' a ↔ IsSubtype c b a
  laminar : ∀ i ∈ assigned c' gid, ∀ j ∈ assigned c' gid,
    (i.lft ≤ j.lft ∧ j.rgt ≤ i.rgt) ∨ (j.lft ≤ i.lft ∧ i.rgt ≤ j.rgt) ∨
      i.rgt < j.lft ∨ j.rgt < i.lft
  total : ∀ t ∈ graphTypes c gid, ∃ i ∈ assigned c' gid, i.typeId = t

/-- Label rows carry the graph of their type. -/
def LabelsKeyed (c : Catalog) (gid : Int) : Prop :=
  ∀ l ∈ c.labels, l.graphId = gid ↔ l.typeId ∈ graphTypes c gid

end Catalog

section Subtypes

variable {c c' : Catalog} {gid : Int}

/-- A call that assigns the rows of a graph replaces exactly those. -/
theorem assigned_of_relabelGraph (h : relabelGraph c gid = .ok c')
    (hne : graphTypes c gid ≠ []) :
    labelsOf (loadDag c gid) gid = .ok (assigned c' gid) := by
  have hlabelled := relabelGraph_labelled h hne
  rw [relabelGraph_of_ne_nil hne] at h
  obtain ⟨rows, -, hc'⟩ := bind_eq_ok.mp h
  obtain rfl := Except.ok.inj hc'
  exact hlabelled

/-- The rows of the other graphs stay as they were. -/
theorem mem_labels_of_relabelGraph (h : relabelGraph c gid = .ok c') {l : Label}
    (hl : l ∈ c'.labels) : l ∈ assigned c' gid ∨ (l ∈ c.labels ∧ l.graphId ≠ gid) := by
  rcases Classical.em (l.graphId = gid) with hgraph | hgraph
  · exact .inl (List.mem_filter.mpr ⟨hl, decide_eq_true hgraph⟩)
  · refine .inr ⟨?_, hgraph⟩
    rcases eq_or_ne (graphTypes c gid) [] with hnil | hne
    · rw [relabelGraph_of_nil hnil] at h
      obtain rfl := Except.ok.inj h
      exact hl
    · rw [relabelGraph_of_ne_nil hne] at h
      obtain ⟨rows, hrows, hc'⟩ := bind_eq_ok.mp h
      obtain rfl := Except.ok.inj hc'
      rcases List.mem_append.mp hl with hl | hl
      · exact (List.mem_filter.mp hl).1
      · exact absurd ((labelsOf_eq_ok hrows).2.1 l hl) hgraph

/-- Rows that name a type of the graph are the ones just assigned. -/
theorem mem_assigned (h : relabelGraph c gid = .ok c') (hlabels : LabelsKeyed c gid)
    {l : Label} (hl : l ∈ c'.labels) (htype : l.typeId ∈ graphTypes c gid) :
    l ∈ assigned c' gid := by
  rcases mem_labels_of_relabelGraph h hl with hl | ⟨hold, hgraph⟩
  · exact hl
  · exact absurd ((hlabels l hold).mpr htype) hgraph

theorem ogIsSubtype_iff_assigned (h : relabelGraph c gid = .ok c')
    (hlabels : LabelsKeyed c gid) {a b : Int} (ha : a ∈ graphTypes c gid)
    (hb : b ∈ graphTypes c gid) :
    ogIsSubtype c' b a = true ↔
      ∃ i ∈ assigned c' gid, ∃ j ∈ assigned c' gid, i.typeId = a ∧ j.typeId = b ∧
        i.lft ≤ j.lft ∧ j.rgt ≤ i.rgt := by
  simp only [ogIsSubtype, List.any_eq_true, decide_eq_true_eq]
  constructor
  · rintro ⟨j, hj, i, hi, rfl, rfl, -, hinside⟩
    exact ⟨i, mem_assigned h hlabels hi ha, j, mem_assigned h hlabels hj hb, rfl, rfl,
      hinside⟩
  · rintro ⟨i, hi, j, hj, rfl, rfl, hinside⟩
    obtain ⟨hi, hig⟩ := List.mem_filter.mp hi
    obtain ⟨hj, hjg⟩ := List.mem_filter.mp hj
    refine ⟨j, hj, i, hi, rfl, rfl, ?_, hinside⟩
    exact (of_decide_eq_true hig).trans (of_decide_eq_true hjg).symm

/-- Whatever relabelling assigns answers inheritance exactly. -/
theorem Keyed.exact (h : Keyed c gid) (hlabels : LabelsKeyed c gid)
    (hc' : relabelGraph c gid = .ok c') : Exact c c' gid := by
  rcases eq_or_ne (graphTypes c gid) [] with hnil | hne
  · have hnone : assigned c' gid = [] := by
      rw [relabelGraph_of_nil hnil] at hc'
      obtain rfl := Except.ok.inj hc'
      refine List.filter_eq_nil_iff.mpr fun l hl hgraph => ?_
      have := (hlabels l hl).mp (of_decide_eq_true hgraph)
      rw [hnil] at this
      exact List.not_mem_nil this
    constructor <;> simp [hnil, hnone]
  · have hrows := assigned_of_relabelGraph hc' hne
    obtain ⟨⟨low, high, hnested⟩, -⟩ := labelsOf_eq_ok hrows
    have htotal : ∀ t ∈ graphTypes c gid, ∃ i ∈ assigned c' gid, i.typeId = t :=
      fun t ht => exists_label_of_labelsOf hrows ht
    have hintervals : ∀ a ∈ graphTypes c gid, ∀ b ∈ graphTypes c gid,
        (∃ i ∈ assigned c' gid, ∃ j ∈ assigned c' gid, i.typeId = a ∧ j.typeId = b ∧
          i.lft ≤ j.lft ∧ j.rgt ≤ i.rgt) ↔ IsSubtype c b a := by
      intro a ha b hb
      obtain ⟨i, hi, hia⟩ := htotal a ha
      have hown : ∃ s ∈ (assigned c' gid).map interval, s.node = a :=
        ⟨interval i, List.mem_map_of_mem hi, hia⟩
      rw [IsSubtype, h.reaches_iff hb, ← hnested.contains_iff_reaches hown]
      simp only [List.mem_map, exists_exists_and_eq_and]
      rfl
    have htests : ∀ a ∈ graphTypes c gid, ∀ b ∈ graphTypes c gid,
        ogIsSubtype c' b a = true ↔ IsSubtype c b a := fun a ha b hb =>
      (ogIsSubtype_iff_assigned hc' hlabels ha hb).trans (hintervals a ha b hb)
    refine ⟨hintervals, htests, fun a ha b hb => ?_, fun i hi j hj => ?_, htotal⟩
    · rw [mem_ogSubtypes]
      exact htests a ha b hb
    · exact hnested.laminar _ (List.mem_map_of_mem hi) _ (List.mem_map_of_mem hj)

end Subtypes

section Decision

variable {c : Catalog} {gid : Int}

/-- Relabelling tells the acyclic hierarchies from the others: it labels every
type of the former and reports a cycle in the latter. -/
structure Decides (c : Catalog) (gid : Int) : Prop where
  labels : Acyclic c gid → ∃ c', relabelGraph c gid = .ok c' ∧
    ∀ t ∈ graphTypes c gid, ∃ l ∈ assigned c' gid, l.typeId = t
  reports : ¬ Acyclic c gid → ∃ e, relabelGraph c gid = .error e ∧ CycleError e

theorem exists_label_of_relabelGraph {c' : Catalog} (h : relabelGraph c gid = .ok c')
    {t : Int} (ht : t ∈ graphTypes c gid) : ∃ l ∈ assigned c' gid, l.typeId = t :=
  exists_label_of_labelsOf (assigned_of_relabelGraph h (List.ne_nil_of_mem ht)) ht

theorem Keyed.reports (h : Keyed c gid) (hcycle : ¬ Acyclic c gid) :
    ∃ e, relabelGraph c gid = .error e ∧ CycleError e := by
  cases hrun : relabelGraph c gid with
  | ok c' => exact absurd (h.exists_relabelGraph_iff.mp ⟨c', hrun⟩).1 hcycle
  | error e => exact ⟨e, rfl, relabelGraph_eq_error hrun⟩

/-- Links that lead to a smaller type identifier form no cycle. -/
theorem acyclic_of_descending (h : ∀ l ∈ c.typeParent, l.2 < l.1) : Acyclic c gid := by
  have hless : ∀ a b, Relation.TransGen (Child c) a b → a < b := by
    intro a b hab
    induction hab with
    | single hstep => exact h _ hstep
    | tail _ hstep ih => exact Int.lt_trans ih (h _ hstep)
  exact fun t _ hcycle => Int.lt_irrefl t (hless t t hcycle)

/-- Types that each inherit every type before them. -/
def ladder (n : Nat) : Catalog :=
  { empty with
    graphs := [(1, "g")]
    types := (List.range n).map fun i : Nat => ⟨i, 1, s!"T{i}", .entity, none⟩
    typeParent := (List.range n).flatMap fun i : Nat =>
      (List.range i).map fun j : Nat => ((i : Int), (j : Int)) }

theorem graphTypes_ladder (n : Nat) :
    graphTypes (ladder n) 1 = (List.range n).map fun i : Nat => (i : Int) := by
  have hall : (ladder n).types.filter (fun t => t.graphId = 1) = (ladder n).types := by
    refine List.filter_eq_self.mpr fun t ht => ?_
    obtain ⟨i, -, rfl⟩ := List.mem_map.mp ht
    rfl
  rw [graphTypes, hall]
  exact List.map_map

theorem mem_typeParent_ladder {n : Nat} {l : Int × Int} :
    l ∈ (ladder n).typeParent ↔ ∃ i < n, ∃ j < i, l = ((i : Int), (j : Int)) := by
  simp only [ladder, List.mem_flatMap, List.mem_range, List.mem_map]
  constructor
  · rintro ⟨i, hi, j, hj, rfl⟩
    exact ⟨i, hi, j, hj, rfl⟩
  · rintro ⟨i, hi, j, hj, rfl⟩
    exact ⟨i, hi, j, hj, rfl⟩

theorem keyed_ladder (n : Nat) : Keyed (ladder n) 1 where
  unique := by
    rw [graphTypes_ladder]
    exact List.nodup_range.map fun _ _ h => Int.ofNat.inj h
  parents := by
    intro l hl _
    obtain ⟨i, hi, j, hj, rfl⟩ := mem_typeParent_ladder.mp hl
    rw [graphTypes_ladder]
    exact List.mem_map.mpr ⟨j, List.mem_range.mpr (hj.trans hi), rfl⟩

theorem acyclic_ladder (n : Nat) : Acyclic (ladder n) 1 := by
  refine acyclic_of_descending fun l hl => ?_
  obtain ⟨i, -, j, hj, rfl⟩ := mem_typeParent_ladder.mp hl
  exact Int.ofNat_lt.mpr hj

theorem length_links_ladder (n : Nat) :
    (links (ladder n) 1).length = n * (n - 1) / 2 := by
  have hall : links (ladder n) 1 = (ladder n).typeParent := by
    refine List.filter_eq_self.mpr fun l hl => decide_eq_true ?_
    obtain ⟨i, hi, j, -, rfl⟩ := mem_typeParent_ladder.mp hl
    rw [graphTypes_ladder]
    exact List.mem_map.mpr ⟨i, List.mem_range.mpr hi, rfl⟩
  rw [hall, ladder]
  simp [List.length_flatMap, List.range_eq_range', List.sum_range']

/-- A ladder of 129 types is too dense for the work bound. -/
theorem not_sparse_ladder : ¬ Sparse (ladder 129) 1 := by
  rw [Sparse, length_links_ladder, graphTypes_ladder, List.length_map, List.length_range]
  have hroots : (0 : Int) ∈ rootTypes (ladder 129) 1 := by
    refine List.mem_filter.mpr ⟨?_, ?_⟩
    · rw [graphTypes_ladder]
      exact List.mem_map.mpr ⟨0, List.mem_range.mpr (by omega), rfl⟩
    · refine List.all_eq_true.mpr fun l hl => decide_eq_true ?_
      obtain ⟨i, -, j, hj, rfl⟩ := mem_typeParent_ladder.mp hl
      dsimp only
      omega
  have hpos := List.length_pos_of_mem hroots
  omega

/-- Four types in a diamond. -/
def diamond : Catalog :=
  { empty with
    graphs := [(1, "g")]
    types := [⟨1, 1, "A", .entity, none⟩, ⟨2, 1, "B", .entity, none⟩,
      ⟨3, 1, "C", .entity, none⟩, ⟨4, 1, "D", .entity, none⟩]
    typeParent := [(2, 1), (3, 1), (4, 2), (4, 3)] }

theorem keyed_diamond : Keyed diamond 1 := ⟨by decide, by decide⟩

theorem acyclic_diamond : Acyclic diamond 1 := acyclic_of_descending (by decide)

end Decision

end OntologicalDb.Relabelling
