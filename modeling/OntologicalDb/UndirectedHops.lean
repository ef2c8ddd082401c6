import Mathlib.Algebra.Ring.Nat
import OntologicalDb.ReachabilityEquivalence
import OntologicalDb.Sql

/-!
Undirected hops, single and of variable length, over adjacency that stores every
relationship at both of its ends: how often a relationship or a trail is listed.
-/

namespace OntologicalDb.UndirectedHops

open OntologicalDb.Adjacency
open OntologicalDb.AdjacencyMirror
open OntologicalDb.EdgeTrails
open OntologicalDb.GraphStorage
open OntologicalDb.KeyedRows
open OntologicalDb.ReachabilityEquivalence
open OntologicalDb.Sql
open OntologicalDb.Traverse
open OntologicalDb.TypeCatalog

section Model

/-- The rows of `(a)-[r]-(b)` for one node `a`: the node `b` and the relationship. -/
def undirectedRows (env : Env) (v : Int) (etypes : Option (List Int)) (temporal : List Int) :
    List (Int × Int) :=
  (hopPairs env v .b etypes temporal).flatMap fun u =>
    (env.db.ogNode.filter fun n => n.id = u.1).map fun n => (n.id, u.2)

/-- The relationships of a versioned type at the session's instant. -/
def versionedEdges (env : Env) (tid : Int) : List EdgeRow :=
  match storageTable env.db.schema.catalog tid with
  | none => []
  | some table => (env.asOf table).filterMap fun r => r.ends.map fun e => ⟨r.id, tid, e.1, e.2⟩

def admitsType (etypes : Option (List Int)) (t : Int) : Bool :=
  match etypes with
  | none => true
  | some ts => ts.contains t

/-- The relationships a hop may cross. -/
def relationships (env : Env) (etypes : Option (List Int)) (temporal : List Int) :
    List EdgeRow :=
  (env.db.ogEdge.filter fun e => admitsType etypes e.typeId ∧ e.typeId ∉ temporal) ++
    temporal.flatMap (versionedEdges env)

/-- The other end of a relationship; that of a self loop is the node itself. -/
def otherEnd (v : Int) (e : EdgeRow) : Int := if e.src = v then e.dst else e.src

/-- Every relationship at the node yields one row, with its other end, and there are
no other rows. -/
structure HopOnce (env : Env) (v : Int) (etypes : Option (List Int)) (temporal : List Int) :
    Prop where
  once : ∀ e ∈ relationships env etypes temporal, e.src = v ∨ e.dst = v →
    (undirectedRows env v etypes temporal).filter (fun u => u.2 = e.id) =
      [(otherEnd v e, e.id)]
  only : ∀ u ∈ undirectedRows env v etypes temporal,
    ∃ e ∈ relationships env etypes temporal, (e.src = v ∨ e.dst = v) ∧
      u = (otherEnd v e, e.id)

/-- A trail within the bounds. -/
structure Admissible (adj : List Segment) (etypes : Option (List Int)) (src minhop maxhop : Int)
    (es : List Int) : Prop where
  trail : ∃ b, Trail (Arc adj etypes .b) src es b
  low : minhop ≤ es.length
  high : (es.length : Int) ≤ maxhop

/-- The traversal lists every trail within the bounds once. -/
def TrailsOnce (adj : List Segment) (etypes : Option (List Int)) (src minhop maxhop : Int) :
    Prop :=
  ∀ es, Admissible adj etypes src minhop maxhop es →
    ((ogVlp adj etypes .b src minhop maxhop).filter fun w => w.path = es).length = 1

/-- What a graph keeps: mirrored adjacency, one row a node, one a relationship, and
relationships between nodes. -/
structure WellFormed (env : Env) (etypes : Option (List Int)) (temporal : List Int) : Prop where
  mirror : Mirror env.db
  nodeIds : (env.db.ogNode.map (·.id)).Nodup
  ids : ((relationships env etypes temporal).map (·.id)).Nodup
  ends : ∀ e ∈ relationships env etypes temporal,
    e.src ∈ env.db.ogNode.map (·.id) ∧ e.dst ∈ env.db.ogNode.map (·.id)

/-- The edge is a self loop. -/
def Loops (edges : List EdgeRow) (eid : Int) : Prop := ∃ e ∈ edges, e.id = eid ∧ e.src = e.dst

instance (edges : List EdgeRow) (eid : Int) : Decidable (Loops edges eid) :=
  inferInstanceAs (Decidable (∃ e ∈ edges, _))

end Model

section Listings

variable {α β : Type}

theorem filter_map_append_perm {p q : α → Bool} {f g : α → β} {xs : List α} :
    ((xs.filter p).map f ++ (xs.filter q).map g).Perm
      (xs.flatMap fun x => (if p x then [f x] else []) ++ if q x then [g x] else []) := by
  induction xs with
  | nil => exact .nil
  | cons x xs ih =>
      rw [List.flatMap_cons]
      have hsplit : (((x :: xs).filter p).map f ++ ((x :: xs).filter q).map g).Perm
          (((if p x then [f x] else []) ++ if q x then [g x] else []) ++
            ((xs.filter p).map f ++ (xs.filter q).map g)) := by
        rw [List.filter_cons, List.filter_cons]
        split
        · split
          · simp only [List.map_cons, List.cons_append, List.nil_append]
            exact (List.perm_middle).cons _
          · exact .refl _
        · split
          · exact List.perm_middle
          · exact .refl _
      exact hsplit.trans (ih.append_left _)

theorem flatMap_filter {p : α → Bool} {f : α → List β} {xs : List α} :
    (xs.filter p).flatMap f = xs.flatMap fun x => if p x then f x else [] := by
  induction xs with
  | nil => rfl
  | cons x xs ih =>
      rw [List.filter_cons, List.flatMap_cons, ← ih]
      split <;> simp

theorem flatMap_eq_self {f : α → List α} {xs : List α} (h : ∀ x ∈ xs, f x = [x]) :
    xs.flatMap f = xs := by
  induction xs with
  | nil => rfl
  | cons x xs ih =>
      rw [List.flatMap_cons, h x List.mem_cons_self, List.singleton_append,
        ih fun y hy => h y (List.mem_cons_of_mem _ hy)]

theorem filter_key_eq {κ : Type} [DecidableEq κ] {key : α → κ} {xs : List α}
    (hkeys : (xs.map key).Nodup) {a : α} (ha : a ∈ xs) :
    xs.filter (fun b => key b = key a) = [a] := by
  have hperm := (perm_cons_filter key hkeys ha).filter fun b => decide (key b = key a)
  have hnone : (xs.filter fun b => key b ≠ key a).filter (fun b => key b = key a) = [] := by
    refine List.filter_eq_nil_iff.mpr fun b hb => ?_
    simpa using (List.mem_filter.mp hb).2
  rw [List.filter_cons_of_pos (by simp), hnone] at hperm
  exact List.perm_singleton.mp hperm

/-- A count over lists that all contribute the same or nothing. -/
theorem countP_flatMap_eq {p : β → Bool} {q : α → Bool} {f : α → List β} {m : Nat}
    {xs : List α} (h : ∀ x ∈ xs, (f x).countP p = if q x then m else 0) :
    (xs.flatMap f).countP p = xs.countP q * m := by
  induction xs with
  | nil => simp
  | cons x xs ih =>
      rw [List.flatMap_cons, List.countP_append, h x List.mem_cons_self,
        ih fun y hy => h y (List.mem_cons_of_mem _ hy), List.countP_cons, Nat.add_mul]
      split <;> omega

end Listings

section Ends

variable {v : Int} {e : EdgeRow}

/-- What adjacency lists at a node for one relationship. -/
def ends (v : Int) (e : EdgeRow) : List (Int × Int) :=
  (if e.src = v then [(e.dst, e.id)] else []) ++ if e.dst = v then [(e.src, e.id)] else []

theorem snd_of_mem_ends {u : Int × Int} (h : u ∈ ends v e) : u.2 = e.id := by
  simp only [ends, List.mem_append, List.mem_ite_nil_right, List.mem_singleton] at h
  rcases h with ⟨-, rfl⟩ | ⟨-, rfl⟩ <;> rfl

theorem mem_ends_iff {u : Int × Int} (hloop : ¬ (e.src = v ∧ e.dst = v)) :
    u ∈ ends v e ↔ (e.src = v ∨ e.dst = v) ∧ u = (otherEnd v e, e.id) := by
  unfold ends otherEnd
  grind

/-- A relationship is listed twice at the node of a self loop, else once at each of
its ends. -/
theorem ends_eq (h : e.src = v ∨ e.dst = v) :
    ends v e = List.replicate (if e.src = e.dst then 2 else 1) (otherEnd v e, e.id) := by
  unfold ends otherEnd
  rcases eq_or_ne e.src v with rfl | hsrc
  · rcases eq_or_ne e.dst e.src with hdst | hdst
    · simp [hdst, List.replicate]
    · simp [hdst, hdst.symm]
  · simp [hsrc, h.resolve_left hsrc]

/-- Of all that is listed at a node, what belongs to one relationship. -/
theorem filter_flatMap_ends {edges : List EdgeRow} (hids : (edges.map (·.id)).Nodup)
    (he : e ∈ edges) :
    (edges.flatMap (ends v)).filter (fun u => u.2 = e.id) = ends v e := by
  induction edges with
  | nil => cases he
  | cons r edges ih =>
      rw [List.map_cons, List.nodup_cons] at hids
      rw [List.flatMap_cons, List.filter_append]
      rcases List.mem_cons.mp he with rfl | he
      · have hrest : (edges.flatMap (ends v)).filter (fun u => u.2 = e.id) = [] := by
          refine List.filter_eq_nil_iff.mpr fun u hu => ?_
          rcases List.mem_flatMap.mp hu with ⟨r, hr, hur⟩
          rw [snd_of_mem_ends hur, decide_eq_true_eq]
          exact fun heq => hids.1 (heq ▸ List.mem_map_of_mem hr)
        rw [hrest, List.append_nil]
        exact List.filter_eq_self.mpr fun u hu => decide_eq_true (snd_of_mem_ends hu)
      · have hfirst : (ends v r).filter (fun u => u.2 = e.id) = [] := by
          refine List.filter_eq_nil_iff.mpr fun u hu => ?_
          rw [snd_of_mem_ends hu, decide_eq_true_eq]
          exact fun heq => hids.1 (heq ▸ List.mem_map_of_mem he)
        rw [hfirst, List.nil_append]
        exact ih hids.2 he

end Ends

section Stored

variable {g : MirroredAdjacency} {v : Int}

theorem filter_entries {a : Segment} {q : Int → Bool} :
    (a.entries.filter fun x => x.src = v ∧ q x.etype).map (fun x => (x.nbr, x.eid)) =
      if a.src = v ∧ q a.etype then a.nbr.zip a.eid else [] := by
  have hpairs : a.entries.map (fun x => (x.nbr, x.eid)) = a.nbr.zip a.eid := by
    rw [Segment.entries, List.map_map]
    exact List.map_id _
  have hkeep : ∀ x ∈ a.entries, (x.src = v ∧ q x.etype) ↔ (a.src = v ∧ q a.etype) := by
    intro x hx
    rcases (Segment.mem_entries_iff.mp hx).1 with ⟨hsrc, hetype, -⟩
    rw [hsrc, hetype]
  split
  · next hat =>
    rw [List.filter_eq_self.mpr fun x hx => decide_eq_true ((hkeep x hx).mpr hat), hpairs]
  · next hat =>
    rw [List.filter_eq_nil_iff.mpr fun x hx hkept =>
      hat ((hkeep x hx).mp (of_decide_eq_true hkept)), List.map_nil]

/-- The segments of a node list its relationships, each at the ends that are the node. -/
theorem stored_perm {q : Int → Bool} :
    ((g.segments.filter fun a => a.src = v ∧ q a.etype).flatMap fun a => a.nbr.zip a.eid).Perm
      ((g.edges.filter fun e => q e.typeId).flatMap (ends v)) := by
  have hsegments : (g.segments.filter fun a => a.src = v ∧ q a.etype).flatMap
      (fun a => a.nbr.zip a.eid) =
        ((entries g.segments).filter fun x => x.src = v ∧ q x.etype).map
          fun x => (x.nbr, x.eid) := by
    rw [entries, List.filter_flatMap, List.map_flatMap, flatMap_filter]
    refine List.flatMap_congr fun a _ => ?_
    rw [filter_entries]
    simp
  have hedges : ((registryEntries g.edges).filter fun x => x.src = v ∧ q x.etype).map
      (fun x => (x.nbr, x.eid)) = (g.edges.filter fun e => q e.typeId).flatMap (ends v) := by
    rw [registryEntries, List.filter_flatMap, List.map_flatMap, flatMap_filter]
    refine List.flatMap_congr fun e _ => ?_
    simp only [edgeEntries, ends, List.filter_cons, List.filter_nil]
    grind
  rw [hsegments, ← hedges]
  exact (g.mirrored.filter _).map _

end Stored

section Hops

variable {env : Env} {v : Int} {etypes : Option (List Int)} {temporal : List Int}

/-- The adjacency of a store that mirrors its registry. -/
def mirroredAdjacency (h : Mirror env.db) : MirroredAdjacency where
  segments := env.db.ogAdj
  edges := env.db.ogEdge
  sound := h.sound
  ids := h.ids
  mirrored := h.mirrored

theorem adjWhere_both_iff {a : Segment} :
    AdjWhere .b etypes a ↔ admitsType etypes a.etype = true := by
  cases etypes <;> simp [AdjWhere, HopDir.Admits, admitsType]

theorem temporalPairs_perm {tid : Int} :
    (temporalPairs env v .b tid).Perm ((versionedEdges env tid).flatMap (ends v)) := by
  unfold temporalPairs versionedEdges
  cases storageTable env.db.schema.catalog tid with
  | none => exact .nil
  | some table =>
      dsimp only
      rw [if_neg (by simp), if_neg (by simp)]
      refine filter_map_append_perm.trans (.of_eq ?_)
      induction env.asOf table with
      | nil => rfl
      | cons r rows ih =>
          cases hr : r.ends with
          | none => simpa [hr] using ih
          | some e =>
              simp only [List.filterMap_cons, hr, Option.map_some, List.flatMap_cons, ih]
              simp [ends]

/-- A hop lists every relationship it may cross, once at each end that is the node. -/
theorem hopPairs_perm (h : Mirror env.db) :
    (hopPairs env v .b etypes temporal).Perm
      ((relationships env etypes temporal).flatMap (ends v)) := by
  unfold hopPairs relationships
  rw [List.flatMap_append, List.flatMap_assoc]
  refine .append ?_ ?_
  · have hstored := stored_perm (g := mirroredAdjacency h) (v := v)
      (q := fun t => admitsType etypes t ∧ t ∉ temporal)
    refine (List.Perm.of_eq ?_).trans (hstored.trans (.of_eq ?_))
    · refine congrArg (List.flatMap _) (List.filter_congr fun a _ => ?_)
      simp [adjWhere_both_iff]
    · simp [mirroredAdjacency]
  · induction temporal with
    | nil => exact .nil
    | cons tid temporal ih => exact temporalPairs_perm.append ih

/-- Every neighbour of a well-formed graph is one row of the registry. -/
theorem undirectedRows_eq (h : WellFormed env etypes temporal) :
    undirectedRows env v etypes temporal = hopPairs env v .b etypes temporal := by
  have hone : ∀ u ∈ hopPairs env v .b etypes temporal,
      ((env.db.ogNode.filter fun n => n.id = u.1).map fun n => (n.id, u.2)) = [u] := by
    intro u hu
    rcases List.mem_flatMap.mp ((hopPairs_perm h.mirror).mem_iff.mp hu) with ⟨e, he, hue⟩
    have hmem : u.1 ∈ env.db.ogNode.map (·.id) := by
      simp only [ends, List.mem_append, List.mem_ite_nil_right, List.mem_singleton] at hue
      rcases hue with ⟨-, rfl⟩ | ⟨-, rfl⟩
      · exact (h.ends e he).2
      · exact (h.ends e he).1
    rcases List.mem_map.mp hmem with ⟨n, hn, hid⟩
    have hfilter : env.db.ogNode.filter (fun m => m.id = u.1) = [n] := by
      rw [← hid]
      exact filter_key_eq h.nodeIds hn
    rw [hfilter, List.map_singleton, hid]
  exact flatMap_eq_self hone

theorem filter_undirectedRows (h : WellFormed env etypes temporal) {e : EdgeRow}
    (he : e ∈ relationships env etypes temporal) :
    ((undirectedRows env v etypes temporal).filter fun u => u.2 = e.id).Perm (ends v e) := by
  rw [undirectedRows_eq h, ← filter_flatMap_ends h.ids he]
  exact (hopPairs_perm h.mirror).filter _

/-- A single undirected hop counts every relationship at the node once exactly when
none of them is a self loop. -/
theorem hopOnce_iff (h : WellFormed env etypes temporal) :
    HopOnce env v etypes temporal ↔
      ∀ e ∈ relationships env etypes temporal, ¬ (e.src = v ∧ e.dst = v) := by
  constructor
  · rintro honce e he ⟨hsrc, hdst⟩
    have hlength := (filter_undirectedRows (v := v) h he).length_eq
    rw [honce.once e he (.inl hsrc), ends_eq (.inl hsrc), List.length_replicate,
      if_pos (hsrc.trans hdst.symm)] at hlength
    simp at hlength
  · intro hno
    refine ⟨fun e he hinc => ?_, fun u hu => ?_⟩
    · have hne : e.src ≠ e.dst := by
        intro heq
        rcases hinc with hsrc | hdst
        · exact hno e he ⟨hsrc, heq ▸ hsrc⟩
        · exact hno e he ⟨heq.trans hdst, hdst⟩
      have hperm := filter_undirectedRows (v := v) h he
      rw [ends_eq hinc, if_neg hne] at hperm
      exact List.perm_singleton.mp hperm
    · rw [undirectedRows_eq h] at hu
      rcases List.mem_flatMap.mp ((hopPairs_perm h.mirror).mem_iff.mp hu) with ⟨e, he, hue⟩
      exact ⟨e, he, (mem_ends_iff (hno e he)).mp hue⟩

end Hops

section Trails

variable {g : MirroredAdjacency} {etypes : Option (List Int)} {src maxhop : Int}

theorem walk_end_unique {es : List Int} {b c : Int} (hb : Walk (Arc g.segments etypes .b) src es b)
    (hc : Walk (Arc g.segments etypes .b) src es c) : b = c := by
  induction es using List.reverseRecOn generalizing b c with
  | nil => exact (walk_nil_iff.mp hb).trans (walk_nil_iff.mp hc).symm
  | append_singleton es e ih =>
      rcases walk_concat_iff.mp hb with ⟨b', hb', harcb⟩
      rcases walk_concat_iff.mp hc with ⟨c', hc', harcc⟩
      obtain rfl := ih hb' hc'
      rcases arc_edgeEnds harcb harcc with ⟨-, heq⟩ | ⟨heq, heq'⟩
      · exact heq.symm
      · exact heq.symm.trans heq'.symm

/-- How often one step of a traversal takes one edge. -/
theorem countP_walkStep {w : WalkRow} {es : List Int} {e b : Int} (hdepth : w.depth < maxhop)
    (hnew : e ∉ es) (hpath : w.path = es) (harc : Arc g.segments etypes .b w.node e b) :
    (walkStep g.segments etypes .b maxhop w).countP (fun w' => w'.path = es ++ [e]) =
      if Loops g.edges e then 2 else 1 := by
  rcases arc_iff.mp harc with ⟨x, hx, hsrc, rfl, -, -, htype⟩
  rcases mem_registryEntries.mp hx with ⟨r, hr, hxr⟩
  have hid : r.id = x.eid := (eid_of_mem_edgeEntries hxr).symm
  have hat : (r.src = w.node ∨ r.dst = w.node) ∧ r.typeId = x.etype := by
    simp only [edgeEntries, List.mem_cons, List.not_mem_nil, or_false] at hxr
    rcases hxr with rfl | rfl
    · exact ⟨.inl hsrc, rfl⟩
    · exact ⟨.inr hsrc, rfl⟩
  have hadmits : admitsType etypes r.typeId = true := by
    cases etypes with
    | none => rfl
    | some ts =>
        rw [hat.2]
        exact List.contains_iff_mem.mpr (htype ts rfl)
  have hloops : Loops g.edges x.eid ↔ r.src = r.dst := by
    constructor
    · rintro ⟨r', hr', hid', hloop⟩
      obtain rfl := edge_unique hr hr' (hid.trans hid'.symm)
      exact hloop
    · intro hloop
      exact ⟨r, hr, hid, hloop⟩
  have hcount : (walkStep g.segments etypes .b maxhop w).countP
      (fun w' => w'.path = es ++ [x.eid]) =
        (((g.segments.filter fun a => a.src = w.node ∧ admitsType etypes a.etype).flatMap
          fun a => a.nbr.zip a.eid).filter fun u => u.2 = x.eid).length := by
    subst hpath
    unfold walkStep
    rw [if_pos hdepth, List.countP_flatMap, List.filter_flatMap, List.length_flatMap]
    refine congrArg List.sum ?_
    have hsame : (g.segments.filter fun a => a.src = w.node ∧ AdjWhere .b etypes a) =
        g.segments.filter fun a => a.src = w.node ∧ admitsType etypes a.etype :=
      List.filter_congr fun a _ => by simp [adjWhere_both_iff]
    rw [hsame]
    refine List.map_congr_left fun a _ => ?_
    rw [Function.comp_apply, List.countP_map, List.countP_filter, List.countP_eq_length_filter]
    refine congrArg List.length (List.filter_congr fun u _ => ?_)
    have hlast : w.path ++ [u.2] = w.path ++ [x.eid] ↔ u.2 = x.eid := by simp
    grind
  rw [hcount, ((stored_perm (q := admitsType etypes)).filter _).length_eq, ← hid,
    filter_flatMap_ends (g.ids.sublist ((List.filter_sublist).map _))
      (List.mem_filter.mpr ⟨hr, hadmits⟩), ends_eq hat.1, List.length_replicate, hid]
  simp only [hloops]

/-- The rows of depth `k` list each trail as often as its self loops can be taken. -/
def Counted (g : MirroredAdjacency) (etypes : Option (List Int)) (src : Int) (k : Nat)
    (rows : List WalkRow) : Prop :=
  ∀ es b, Trail (Arc g.segments etypes .b) src es b → es.length = k →
    rows.countP (fun w => w.path = es) = 2 ^ es.countP fun e => Loops g.edges e

theorem counted_start : Counted g etypes src 0 [⟨src, 0, []⟩] := by
  intro es b _ hlength
  obtain rfl := List.length_eq_zero_iff.mp hlength
  simp

theorem Counted.step {k : Nat} {rows : List WalkRow} (h : Counted g etypes src k rows)
    (hlevel : IsLevel g.segments etypes .b src k rows) (hk : (k : Int) < maxhop) :
    Counted g etypes src (k + 1) (rows.flatMap (walkStep g.segments etypes .b maxhop)) := by
  rintro es b ⟨hwalk, hnodup⟩ hlength
  obtain ⟨path, e, rfl⟩ := List.eq_nil_or_concat' es |>.resolve_left
    (by rintro rfl; simp at hlength)
  rcases walk_concat_iff.mp hwalk with ⟨c, hpath, harc⟩
  rw [List.nodup_append'] at hnodup
  have hnew : e ∉ path := fun hmem => hnodup.2.2 hmem (List.mem_singleton_self e)
  have hlen : path.length = k := by simpa using hlength
  have hrows : ∀ w ∈ rows, (walkStep g.segments etypes .b maxhop w).countP
      (fun w' => w'.path = path ++ [e]) =
        if decide (w.path = path) = true then if Loops g.edges e then 2 else 1 else 0 := by
    intro w hw
    rcases (hlevel w).mp hw with ⟨⟨⟨hwwalk, -⟩, hdepth⟩, hwlength⟩
    rcases eq_or_ne w.path path with hsame | hother
    · rw [if_pos (decide_eq_true hsame)]
      obtain rfl : w.node = c := walk_end_unique (hsame ▸ hwwalk) hpath
      exact countP_walkStep (by omega) hnew hsame harc
    · rw [if_neg (by simpa using hother), List.countP_eq_zero]
      intro w' hw'
      rcases (mem_walkStep.mp hw').2 with ⟨e', -, -, -, hp⟩
      rw [decide_eq_true_eq, hp]
      exact fun heq => hother (List.append_inj_left' heq rfl)
  rw [countP_flatMap_eq hrows, h path c ⟨hpath, hnodup.1⟩ hlen, List.countP_append,
    List.countP_singleton, Nat.pow_add]
  split <;> simp_all

theorem countP_walkRounds {n k : Nat} {rows : List WalkRow} (h : Counted g etypes src k rows)
    (hlevel : IsLevel g.segments etypes .b src k rows) (hn : (k : Int) + n ≤ maxhop)
    {es : List Int} {b : Int} (htrail : Trail (Arc g.segments etypes .b) src es b)
    (hlow : k ≤ es.length) (hhigh : es.length ≤ k + n) :
    (walkRounds g.segments etypes .b maxhop n rows).countP (fun w => w.path = es) =
      2 ^ es.countP fun e => Loops g.edges e := by
  induction n generalizing k rows with
  | zero => exact h es b htrail (by omega)
  | succ n ih =>
      have hnext : IsLevel g.segments etypes .b src (k + 1)
          (rows.flatMap (walkStep g.segments etypes .b maxhop)) := hlevel.step (by omega)
      rw [walkRounds, List.countP_append]
      rcases Nat.eq_or_lt_of_le hlow with heq | hlt
      · have hlater : (walkRounds g.segments etypes .b maxhop n
            (rows.flatMap (walkStep g.segments etypes .b maxhop))).countP
              (fun w => w.path = es) = 0 := by
          refine List.countP_eq_zero.mpr fun w hw => ?_
          rcases (mem_walkRounds hnext (by omega)).mp hw with ⟨-, hle, -⟩
          rw [decide_eq_true_eq]
          rintro rfl
          omega
        rw [h es b htrail heq.symm, hlater, Nat.add_zero]
      · have hnone : rows.countP (fun w => w.path = es) = 0 := by
          refine List.countP_eq_zero.mpr fun w hw => ?_
          have hlength := ((hlevel w).mp hw).2
          rw [decide_eq_true_eq]
          rintro rfl
          omega
        rw [hnone, Nat.zero_add]
        exact ih (h.step hlevel (by omega)) hnext (by omega) hlt (by omega)

/-- A trail is listed once for every way of taking its self loops. -/
theorem length_filter_ogVlp {minhop : Int} (hmax : 0 ≤ maxhop) {es : List Int}
    (h : Admissible g.segments etypes src minhop maxhop es) :
    ((ogVlp g.segments etypes .b src minhop maxhop).filter fun w => w.path = es).length =
      2 ^ es.countP fun e => Loops g.edges e := by
  rcases h with ⟨⟨b, htrail⟩, hlow, hhigh⟩
  have hrounds : (walkRounds g.segments etypes .b maxhop maxhop.toNat [⟨src, 0, []⟩]).countP
      (fun w => w.path = es) = 2 ^ es.countP fun e => Loops g.edges e :=
    countP_walkRounds counted_start isLevel_start (by omega) htrail (Nat.zero_le _) (by omega)
  rw [← hrounds, ogVlp, List.filter_filter, ← List.countP_eq_length_filter]
  refine List.countP_congr fun w hw => ?_
  rcases (mem_walkRounds isLevel_start (by omega)).mp hw with ⟨⟨-, hdepth⟩, -, -⟩
  simp only [Bool.and_eq_true, decide_eq_true_eq, and_iff_left_iff_imp]
  rintro rfl
  omega

theorem trailsOnce_iff {minhop : Int} (hmax : 0 ≤ maxhop) :
    TrailsOnce g.segments etypes src minhop maxhop ↔
      ∀ es, Admissible g.segments etypes src minhop maxhop es → ∀ e ∈ es, ¬ Loops g.edges e := by
  refine forall_congr' fun es => forall_congr' fun hes => ?_
  rw [length_filter_ogVlp hmax hes, Nat.pow_eq_one]
  simp [List.countP_eq_zero]

end Trails

/-- Undirected hops count every relationship once: a single hop each relationship at
the node, one of variable length each trail from it. -/
structure CountedOnce (env : Env) (v : Int) (etypes : Option (List Int)) (temporal : List Int)
    (minhop maxhop : Int) : Prop where
  hop : HopOnce env v etypes temporal
  trails : TrailsOnce env.db.ogAdj etypes v minhop maxhop

section Counts

variable {env : Env} {v minhop maxhop : Int} {etypes : Option (List Int)} {temporal : List Int}

/-- Relationships and trails are counted once exactly when no relationship at the node
and no relationship of a trail within the bounds is a self loop. -/
theorem countedOnce_iff (h : WellFormed env etypes temporal) (hmax : 0 ≤ maxhop) :
    CountedOnce env v etypes temporal minhop maxhop ↔
      (∀ e ∈ relationships env etypes temporal, ¬ (e.src = v ∧ e.dst = v)) ∧
        ∀ es, Admissible env.db.ogAdj etypes v minhop maxhop es →
          ∀ e ∈ es, ¬ Loops env.db.ogEdge e := by
  have htrails : TrailsOnce env.db.ogAdj etypes v minhop maxhop ↔
      ∀ es, Admissible env.db.ogAdj etypes v minhop maxhop es →
        ∀ e ∈ es, ¬ Loops env.db.ogEdge e :=
    trailsOnce_iff (g := mirroredAdjacency h.mirror) hmax
  constructor
  · rintro ⟨hhop, honce⟩
    exact ⟨(hopOnce_iff h).mp hhop, htrails.mp honce⟩
  · rintro ⟨hhop, hno⟩
    exact ⟨(hopOnce_iff h).mpr hhop, htrails.mpr hno⟩

/-- Two nodes with two parallel relationships. -/
def parallelEnv : Env where
  pg := Postgres.literal
  db := ⟨⟨pairCatalog, []⟩, [], [⟨68719476737, 1⟩, ⟨68719476738, 1⟩],
    [⟨137438953473, 2, 68719476737, 68719476738⟩, ⟨137438953474, 2, 68719476737, 68719476738⟩],
    [⟨68719476737, 2, .o, 0, 2, [68719476738, 68719476738], [137438953473, 137438953474]⟩,
      ⟨68719476738, 2, .i, 0, 2, [68719476737, 68719476737], [137438953473, 137438953474]⟩],
    []⟩
  asOf _ := []
  params := .obj []
  segment := []

theorem parallel_mirror : Mirror parallelEnv.db where
  sound :=
    { segment := by
        intro a ha
        simp only [parallelEnv, List.mem_cons, List.not_mem_nil, or_false] at ha
        rcases ha with rfl | rfl <;> exact ⟨⟨rfl, rfl⟩, by decide, by decide⟩
      keys := by decide }
  ids := by decide
  types := by decide
  mirrored := by decide

theorem countedOnce_parallel : CountedOnce parallelEnv 68719476737 none [] 1 2 := by
  refine (countedOnce_iff ⟨parallel_mirror, by decide, by decide, by decide⟩ (by decide)).mpr
    ⟨by decide, fun es _ e _ => ?_⟩
  have hnone : ∀ r ∈ parallelEnv.db.ogEdge, r.src ≠ r.dst := by decide
  rintro ⟨r, hr, -, hloop⟩
  exact hnone r hr hloop

/-- One node with a self loop. -/
def loopEnv : Env where
  pg := Postgres.literal
  db := ⟨⟨pairCatalog, []⟩, [], [⟨68719476737, 1⟩],
    [⟨137438953473, 2, 68719476737, 68719476737⟩],
    [⟨68719476737, 2, .o, 0, 1, [68719476737], [137438953473]⟩,
      ⟨68719476737, 2, .i, 0, 1, [68719476737], [137438953473]⟩], []⟩
  asOf _ := []
  params := .obj []
  segment := []

/-- A self loop is listed twice, by the single hop and by the traversal. -/
theorem not_countedOnce_loop : ¬ CountedOnce loopEnv 68719476737 none [] 1 1 ∧
    undirectedRows loopEnv 68719476737 none [] =
      [(68719476737, 137438953473), (68719476737, 137438953473)] ∧
    (ogVlp loopEnv.db.ogAdj none .b 68719476737 1 1).map (·.path) =
      [[137438953473], [137438953473]] := by
  have hrows : undirectedRows loopEnv 68719476737 none [] =
      [(68719476737, 137438953473), (68719476737, 137438953473)] := by decide
  refine ⟨fun h => ?_, hrows, by decide⟩
  have honce := h.hop.once ⟨137438953473, 2, 68719476737, 68719476737⟩ (by decide) (.inl rfl)
  rw [hrows] at honce
  simp at honce

end Counts

end OntologicalDb.UndirectedHops
