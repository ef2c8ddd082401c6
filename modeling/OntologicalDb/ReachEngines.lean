import Mathlib.Data.List.Dedup
import Mathlib.Data.List.Sort
import OntologicalDb.PackedArrays
import OntologicalDb.Traverse

/-!
The three reachability engines: the walk over the stored segments, the recursive
query, and the walk over the compiled adjacency.  Each is compared with the walks
of shortest admissible length.
-/

namespace OntologicalDb.ReachEngines

open OntologicalDb.Adjacency
open OntologicalDb.EdgeTrails
open OntologicalDb.PackedArrays
open OntologicalDb.Traverse

section Query

variable (adj : List Segment) (etypes : Option (List Int)) (dir : HopDir)

/-- The recursive branch of the query for one row of the working table. -/
def reachRow (maxhop : Int) (w : Int × Int) : List (Int × Int) :=
  if w.2 < maxhop then
    (adj.filter fun a => a.src = w.1 ∧ AdjWhere dir etypes a).flatMap fun a =>
      a.nbr.map fun nbr => (nbr, w.2 + 1)
  else []

/-- `UNION` drops the rows already produced; the query ends with an empty working
table, at the latest after `maxhop` rounds. -/
def reachRounds (maxhop : Int) :
    Nat → List (Int × Int) → List (Int × Int) → List (Int × Int)
  | 0, result, _ => result
  | n + 1, result, working =>
      if working = [] then result
      else
        let new := (working.flatMap (reachRow adj etypes dir maxhop)).dedup.filter
          fun w => !result.contains w
        reachRounds maxhop n (result ++ new) new

/-- The smallest depth of every node among the rows deep enough. -/
def ogReachSql (src minhop maxhop : Int) : List (Int × Int) :=
  let walk := (reachRounds adj etypes dir maxhop maxhop.toNat [(src, 0)] [(src, 0)]).filter
    fun w => minhop ≤ w.2
  (walk.map (·.1)).dedup.filterMap fun node =>
    ((walk.filter fun w => w.1 = node).map (·.2)).min?.map fun depth => (node, depth)

end Query

section Compiled

/-- Compiled topology: positions into a sorted vector of node ids, and the
neighbours of every position, both ways. -/
structure Csr where
  ids : List Int
  fwd : Buckets
  rev : Buckets
deriving DecidableEq

def Csr.indexOf (g : Csr) (id : Int) : Option Nat :=
  if id ∈ g.ids then some (g.ids.idxOf id) else none

def Csr.idAt (g : Csr) (m : Nat) : Int := g.ids.getD m 0

def flip : HopDir → HopDir
  | .o => .i
  | .i => .o
  | .b => .b

/-- One end of every stored arc of the wanted direction, as positions. -/
def packEdges (ids : List Int) (rows : List Segment) (want : HopDir) : List (Nat × Nat) :=
  (rows.filter fun a => want.Admits a.dir).flatMap fun a =>
    a.nbr.map fun nbr => (ids.idxOf a.src, ids.idxOf nbr)

/-- The segments of the admitted types, in both directions. -/
def admitted (adj : List Segment) (etypes : Option (List Int)) : List Segment :=
  adj.filter fun a => AdjWhere .b etypes a

def endsOf (rows : List Segment) : List Int := rows.flatMap fun a => a.src :: a.nbr

def compile (adj : List Segment) (etypes : Option (List Int)) (dir : HopDir) : Csr :=
  let rows := admitted adj etypes
  let ids := ((endsOf rows).insertionSort (· ≤ ·)).dedup
  { ids := ids
    fwd := pack ids.length (packEdges ids rows dir)
    rev := pack ids.length (packEdges ids rows (flip dir)) }

/-- What `og_csr_build` leaves in the backend. -/
def ogCsrBuild (adj : List Segment) (etypes : Option (List Int)) (dir : HopDir) :
    Option Csr :=
  some (compile adj etypes dir)

/-- The variables of the walk inside the compiled arrays. -/
structure CsrState where
  seen : List Nat
  next : List Nat
  out : List (Int × Int)
  startDone : Bool
deriving DecidableEq

variable (g : Csr) (start : Nat) (src minhop : Int)

/-- One neighbour met at some depth. -/
def csrVisit (depth : Int) (s : CsrState) (m : Nat) : CsrState :=
  let marked := mark s.seen m
  if marked.2 then
    { s with
      seen := marked.1
      next := s.next ++ [m]
      out := if minhop ≤ depth then s.out ++ [(g.idAt m, depth)] else s.out }
  else if m = start ∧ s.startDone = false ∧ minhop ≤ depth then
    { s with seen := marked.1, startDone := true, out := s.out ++ [(src, depth)] }
  else { s with seen := marked.1 }

def csrLevel (depth : Int) (s : CsrState) : CsrState :=
  (s.next.flatMap g.fwd.get).foldl (csrVisit g start src minhop depth) { s with next := [] }

def csrLoop : Nat → Int → CsrState → CsrState
  | 0, _, s => s
  | n + 1, depth, s =>
      if s.next = [] then s
      else csrLoop n (depth + 1) (csrLevel g start src minhop depth s)

def csrStart : CsrState where
  seen := (mark (List.replicate ((g.ids.length + 63) / 64) 0) start).1
  next := [start]
  out := if minhop ≤ 0 then [(src, 0)] else []
  startDone := minhop ≤ 0

/-- Nodes reachable inside the arrays the backend holds. -/
def ogCsrReach (held : Option Csr) (src minhop maxhop : Int) :
    Except String (List (Int × Int)) :=
  match held with
  | none => .error "no compiled graph in this backend — call og_csr_build() first"
  | some g =>
      match g.indexOf src with
      | none => .ok []
      | some start =>
          .ok (csrLoop g start src minhop maxhop.toNat 1 (csrStart g start src minhop)).out

end Compiled

/-- One step of a walk: a matching segment of `v` lists `w`. -/
def Step (adj : List Segment) (etypes : Option (List Int)) (dir : HopDir)
    (v : Int) (_ : Unit) (w : Int) : Prop :=
  ∃ a ∈ adj, a.src = v ∧ AdjWhere dir etypes a ∧ w ∈ a.nbr

/-- The lengths of the walks from one node to another within the bounds. -/
def lengths (adj : List Segment) (etypes : Option (List Int)) (dir : HopDir)
    (src minhop maxhop v : Int) : Set Int :=
  {n | minhop ≤ n ∧ n ≤ maxhop ∧
    ∃ es, Walk (Step adj etypes dir) src es v ∧ (es.length : Int) = n}

/-- The rows list every node with a walk within the bounds once, with the shortest
length. -/
structure Answers (adj : List Segment) (etypes : Option (List Int)) (dir : HopDir)
    (src minhop maxhop : Int) (rows : List (Int × Int)) : Prop where
  nodup : (rows.map (·.1)).Nodup
  shortest : ∀ v k, (v, k) ∈ rows ↔ IsLeast (lengths adj etypes dir src minhop maxhop v) k

/-- The engines agree on the walks of shortest admissible length. -/
structure Agree (adj : List Segment) (etypes : Option (List Int)) (dir : HopDir)
    (src minhop maxhop : Int) : Prop where
  reach : Answers adj etypes dir src minhop maxhop
    (ogReach adj etypes dir src minhop maxhop)
  query : Answers adj etypes dir src minhop maxhop
    (ogReachSql adj etypes dir src minhop maxhop)
  compiled : ∃ rows, ogCsrReach (ogCsrBuild adj etypes dir) src minhop maxhop = .ok rows ∧
    Answers adj etypes dir src minhop maxhop rows

section Search

variable (nbrs : List Int → List Int)

/-- The breadth-first walk over any listing of a frontier's neighbours. -/
def searchLoop (src minhop : Int) : Nat → Int → ReachState → ReachState
  | 0, _, s => s
  | n + 1, depth, s =>
      if s.next = [] then s
      else searchLoop src minhop n (depth + 1)
        ((nbrs s.next).foldl (reachVisit src minhop depth) { s with next := [] })

theorem reachLoop_eq {adj : List Segment} {etypes : Option (List Int)} {dir : HopDir}
    {src minhop depth : Int} {n : Nat} {s : ReachState} :
    reachLoop adj etypes dir src minhop n depth s =
      searchLoop (frontierNbrs adj etypes dir) src minhop n depth s := by
  induction n generalizing depth s with
  | zero => rfl
  | succ n ih =>
      rw [reachLoop, searchLoop, ih]
      rfl

variable {nbrs} {arc : Int → Unit → Int → Prop} {src minhop depth : Int}

/-- The rows reported so far: each node once, visited, the start only when done. -/
structure Reported (src : Int) (s : ReachState) : Prop where
  nodup : (s.out.map (·.1)).Nodup
  visited : ∀ v ∈ s.out.map (·.1), v ∈ s.visited
  start : src ∈ s.out.map (·.1) → s.startDone = true

theorem nodup_concat {out : List (Int × Int)} {v : Int} (h : (out.map (·.1)).Nodup)
    (hnew : v ∉ out.map (·.1)) : ((out ++ [(v, depth)]).map (·.1)).Nodup := by
  rw [List.map_append]
  exact h.append (List.nodup_singleton _) (by simpa using hnew)

theorem Reported.visit {s : ReachState} {nbr : Int} (h : Reported src s)
    (hsrc : src ∈ s.visited) : Reported src (reachVisit src minhop depth s nbr) := by
  unfold reachVisit
  split
  · next hnew =>
    have hne : nbr ≠ src := fun heq => hnew (heq ▸ hsrc)
    have hout : nbr ∉ s.out.map (·.1) := fun hmem => hnew (h.visited nbr hmem)
    split
    · refine ⟨nodup_concat h.nodup hout, fun v hv => ?_, fun hmem => ?_⟩
      · rw [List.map_append, List.mem_append] at hv
        rcases hv with hv | hv
        · exact List.mem_cons_of_mem _ (h.visited v hv)
        · obtain rfl : v = nbr := by simpa using hv
          exact List.mem_cons_self
      · rw [List.map_append, List.mem_append] at hmem
        rcases hmem with hmem | hmem
        · exact h.start hmem
        · exact absurd (by simpa using hmem) hne.symm
    · exact ⟨h.nodup, fun v hv => List.mem_cons_of_mem _ (h.visited v hv), h.start⟩
  · split
    · next hstart =>
      obtain ⟨rfl, hdone, -⟩ := hstart
      have hout : nbr ∉ s.out.map (·.1) := fun hmem => by
        rw [h.start hmem] at hdone
        exact absurd hdone (by decide)
      refine ⟨nodup_concat h.nodup hout, fun v hv => ?_, fun _ => rfl⟩
      rw [List.map_append, List.mem_append] at hv
      rcases hv with hv | hv
      · exact h.visited v hv
      · obtain rfl : v = nbr := by simpa using hv
        exact hsrc
    · exact h

theorem mem_visited_of_visit {s : ReachState} {nbr v : Int} (h : v ∈ s.visited) :
    v ∈ (reachVisit src minhop depth s nbr).visited := by
  unfold reachVisit
  split
  · exact List.mem_cons_of_mem _ h
  · split
    · exact h
    · exact h

theorem Reported.foldl {ns : List Int} {s : ReachState} (h : Reported src s)
    (hsrc : src ∈ s.visited) : Reported src (ns.foldl (reachVisit src minhop depth) s) := by
  induction ns generalizing s with
  | nil => exact h
  | cons n ns ih => exact ih (h.visit hsrc) (mem_visited_of_visit hsrc)

/-- The rows that visiting a list of neighbours adds carry its depth. -/
theorem mem_out_foldl (ns : List Int) {s : ReachState} (hsrc : src ∈ s.visited)
    (hdepth : minhop ≤ depth) {v k : Int} :
    (v, k) ∈ (ns.foldl (reachVisit src minhop depth) s).out ↔ (v, k) ∈ s.out ∨
      k = depth ∧ (v ∈ ns ∧ v ∉ s.visited ∨ v = src ∧ src ∈ ns ∧ s.startDone = false) := by
  induction ns generalizing s with
  | nil => simp
  | cons n ns ih =>
      rw [List.foldl_cons, ih (mem_visited_of_visit hsrc)]
      unfold reachVisit
      split
      · next hnew =>
        have hne : src ≠ n := fun heq => hnew (heq ▸ hsrc)
        simp only [List.mem_append, List.mem_cons, List.not_mem_nil, or_false,
          Prod.mk.injEq, not_or]
        grind
      · next hold =>
        split
        · next hstart =>
          simp only [List.mem_append, List.mem_cons, List.not_mem_nil, or_false,
            Prod.mk.injEq]
          grind
        · next hskip => grind

/-- The breadth-first invariant after `d` levels, depths included. -/
structure SearchInv (arc : Int → Unit → Int → Prop) (src minhop : Int) (d : Nat)
    (s : ReachState) : Prop where
  visited : ∀ v, v ∈ s.visited ↔ Within arc src d v
  frontier : ∀ v, v ∈ s.next ↔ AtDistance arc src d v
  startDone : s.startDone = true ↔ Hits arc src minhop.toNat d src
  out : ∀ v k, (v, k) ∈ s.out ↔
    ∃ j : Nat, k = j ∧ j ≤ d ∧ FirstHit arc src minhop.toNat j v
  nodup : (s.out.map (·.1)).Nodup

theorem hits_zero_iff {v : Int} :
    Hits arc src minhop.toNat 0 v ↔ minhop ≤ 0 ∧ v = src := by
  constructor
  · rintro ⟨es, hwalk, hlow, hlength⟩
    obtain rfl := List.length_eq_zero_iff.mp (Nat.le_zero.mp hlength)
    exact ⟨by simpa using hlow, walk_nil_iff.mp hwalk⟩
  · rintro ⟨hlow, rfl⟩
    exact ⟨[], .nil, by simpa using hlow, le_refl _⟩

theorem firstHit_zero_iff {v : Int} :
    FirstHit arc src minhop.toNat 0 v ↔ minhop ≤ 0 ∧ v = src := by
  rw [FirstHit, hits_zero_iff]
  simp

theorem searchInv_start : SearchInv arc src minhop 0 (reachStart src minhop) := by
  refine ⟨?_, ?_, ?_, fun v k => ?_, ?_⟩
  · simp [reachStart]
  · simp [reachStart, atDistance_zero_iff]
  · rw [hits_zero_iff]
    simp [reachStart]
  · have hzero : (∃ j : Nat, k = j ∧ j ≤ 0 ∧ FirstHit arc src minhop.toNat j v) ↔
        k = 0 ∧ minhop ≤ 0 ∧ v = src := by
      constructor
      · rintro ⟨j, hk, hj, hfirst⟩
        obtain rfl := Nat.le_zero.mp hj
        exact ⟨hk, firstHit_zero_iff.mp hfirst⟩
      · rintro ⟨hk, hfirst⟩
        exact ⟨0, hk, le_refl _, firstHit_zero_iff.mpr hfirst⟩
    rw [hzero]
    rcases Int.lt_or_le 0 minhop with hpos | hle
    · simp [reachStart, not_le.mpr hpos]
    · simp [reachStart, hle, and_comm]
  · unfold reachStart
    dsimp only
    split
    · exact List.nodup_singleton _
    · exact List.nodup_nil

/-- The rows of a state that satisfies the invariant are well reported. -/
theorem SearchInv.reported {d : Nat} {s : ReachState}
    (h : SearchInv arc src minhop d s) : Reported src s := by
  have hhit : ∀ v ∈ s.out.map (·.1), Hits arc src minhop.toNat d v := by
    intro v hv
    obtain ⟨⟨w, k⟩, hmem, rfl⟩ := List.mem_map.mp hv
    obtain ⟨j, -, hj, hfirst⟩ := (h.out w k).mp hmem
    exact hits_iff_exists_firstHit.mpr ⟨j, hj, hfirst⟩
  refine ⟨h.nodup, fun v hv => ?_, fun hmem => h.startDone.mpr (hhit src hmem)⟩
  obtain ⟨es, hwalk, -, hlength⟩ := hhit v hv
  exact (h.visited v).mpr ⟨es, hwalk, hlength⟩

/-- One level over a listing that names exactly the next nodes. -/
theorem SearchInv.level (hnbrs : ∀ F v, v ∈ nbrs F ↔ ∃ b ∈ F, arc b () v)
    (hmin : minhop ≤ 1) {d : Nat} {s : ReachState} (h : SearchInv arc src minhop d s) :
    SearchInv arc src minhop (d + 1)
      ((nbrs s.next).foldl (reachVisit src minhop (d + 1)) { s with next := [] }) := by
  have hsrc : src ∈ s.visited := (h.visited src).mpr ⟨[], .nil, Nat.zero_le _⟩
  have hnext : ∀ v, v ∈ nbrs s.next ↔ ∃ b e, AtDistance arc src d b ∧ arc b e v := by
    intro v
    simp only [hnbrs, h.frontier]
    constructor
    · rintro ⟨b, hb, harc⟩
      exact ⟨b, (), hb, harc⟩
    · rintro ⟨b, _, hb, harc⟩
      exact ⟨b, hb, harc⟩
  have hdepth : minhop ≤ (d : Int) + 1 := by omega
  have hlow : minhop.toNat ≤ 1 := by omega
  have hspec := fun v => foldl_reachVisit (nbrs s.next) { s with next := [] } hsrc hdepth (v := v)
  have hhits : ∀ v, Hits arc src minhop.toNat (d + 1) v ↔
      Hits arc src minhop.toNat d v ∨ v ∈ nbrs s.next := fun v => by
    rw [hits_succ_iff hlow, hnext]
  refine ⟨fun v => ?_, fun v => ?_, ?_, fun v k => ?_, ?_⟩
  · rw [within_succ_iff, ← h.visited, ← hnext]
    exact (hspec v).1
  · rw [atDistance_succ_iff, ← h.visited, ← hnext]
    exact (hspec v).2.1.trans (by simp [and_comm])
  · rw [hhits, ← h.startDone]
    exact (hspec src).2.2.1
  · have hrows := mem_out_foldl (nbrs s.next) (s := { s with next := [] }) hsrc hdepth
      (v := v) (k := k)
    rw [hrows, h.out]
    have hnew : (v ∈ nbrs s.next ∧ v ∉ s.visited ∨
        v = src ∧ src ∈ nbrs s.next ∧ s.startDone = false) ↔
        FirstHit arc src minhop.toNat (d + 1) v := by
      rw [firstHit_succ_iff, hhits, ← Bool.not_eq_true, h.startDone, h.visited]
      constructor
      · rintro (⟨hv, hfar⟩ | ⟨rfl, hv, hnot⟩)
        · refine ⟨.inr hv, ?_⟩
          rintro ⟨es, hwalk, -, hlength⟩
          exact hfar ⟨es, hwalk, hlength⟩
        · exact ⟨.inr hv, hnot⟩
      · rintro ⟨hreached, hnot⟩
        have hv := hreached.resolve_left hnot
        rcases eq_or_ne v src with rfl | hne
        · exact .inr ⟨rfl, hv, hnot⟩
        · exact .inl ⟨hv, fun hin => hnot ((hits_iff_within hlow (.inr hne)).mpr hin)⟩
    rw [hnew]
    constructor
    · rintro (⟨j, hk, hj, hfirst⟩ | ⟨hk, hfirst⟩)
      · exact ⟨j, hk, by omega, hfirst⟩
      · exact ⟨d + 1, by exact_mod_cast hk, le_refl _, hfirst⟩
    · rintro ⟨j, hk, hj, hfirst⟩
      rcases Nat.lt_or_eq_of_le hj with hlt | rfl
      · exact .inl ⟨j, hk, by omega, hfirst⟩
      · exact .inr ⟨by exact_mod_cast hk, hfirst⟩
  · have hreported : Reported src { s with next := [] } :=
      ⟨h.nodup, h.reported.visited, h.reported.start⟩
    exact (hreported.foldl hsrc).nodup

/-- With an empty frontier nothing is left to find. -/
theorem SearchInv.of_next_nil (hnbrs : ∀ F v, v ∈ nbrs F ↔ ∃ b ∈ F, arc b () v)
    (hmin : minhop ≤ 1) {d : Nat} {s : ReachState} (h : SearchInv arc src minhop d s)
    (hnext : s.next = []) (n : Nat) : SearchInv arc src minhop (d + n) s := by
  induction n with
  | zero => exact h
  | succ n ih =>
      have hlevel := ih.level hnbrs hmin
      have hnone : nbrs s.next = [] := by
        refine List.eq_nil_iff_forall_not_mem.mpr fun v hv => ?_
        obtain ⟨b, hb, -⟩ := (hnbrs _ v).mp hv
        rw [hnext] at hb
        exact List.not_mem_nil hb
      rw [hnone, List.foldl_nil, ← hnext] at hlevel
      exact hlevel

theorem searchInv_loop (hnbrs : ∀ F v, v ∈ nbrs F ↔ ∃ b ∈ F, arc b () v)
    (hmin : minhop ≤ 1) {n d : Nat} {s : ReachState} (h : SearchInv arc src minhop d s) :
    SearchInv arc src minhop (d + n) (searchLoop nbrs src minhop n (d + 1) s) := by
  induction n generalizing d s with
  | zero => exact h
  | succ n ih =>
      rw [searchLoop]
      split
      · next hnext => exact h.of_next_nil hnbrs hmin hnext (n + 1)
      · have hrest := ih (h.level hnbrs hmin)
        rw [Nat.add_assoc, Nat.add_comm 1 n] at hrest
        exact_mod_cast hrest

end Search

section QuerySpec

variable {adj : List Segment} {etypes : Option (List Int)} {dir : HopDir}
  {src minhop maxhop : Int}

/-- Some walk of exactly this length leads to the node. -/
def WalkOf (adj : List Segment) (etypes : Option (List Int)) (dir : HopDir) (src : Int)
    (n : Nat) (v : Int) : Prop :=
  ∃ es, Walk (Step adj etypes dir) src es v ∧ es.length = n

theorem walkOf_zero_iff {v : Int} : WalkOf adj etypes dir src 0 v ↔ v = src := by
  constructor
  · rintro ⟨es, hwalk, hlength⟩
    obtain rfl := List.length_eq_zero_iff.mp hlength
    exact walk_nil_iff.mp hwalk
  · rintro rfl
    exact ⟨[], .nil, rfl⟩

theorem walkOf_succ_iff {n : Nat} {v : Int} :
    WalkOf adj etypes dir src (n + 1) v ↔
      ∃ b, WalkOf adj etypes dir src n b ∧ Step adj etypes dir b () v := by
  constructor
  · rintro ⟨es, hwalk, hlength⟩
    obtain rfl | ⟨fs, e, rfl⟩ := List.eq_nil_or_concat' es
    · simp at hlength
    · obtain ⟨b, hfs, hstep⟩ := walk_concat_iff.mp hwalk
      exact ⟨b, ⟨fs, hfs, by simpa using hlength⟩, hstep⟩
  · rintro ⟨b, ⟨fs, hfs, hlength⟩, hstep⟩
    exact ⟨fs ++ [()], .snoc hfs hstep, by simp [hlength]⟩

theorem mem_reachRow {w w' : Int × Int} :
    w' ∈ reachRow adj etypes dir maxhop w ↔
      w.2 < maxhop ∧ Step adj etypes dir w.1 () w'.1 ∧ w'.2 = w.2 + 1 := by
  unfold reachRow
  split
  · next hdepth =>
    simp only [List.mem_flatMap, List.mem_filter, List.mem_map, decide_eq_true_eq, Step]
    constructor
    · rintro ⟨a, ⟨ha, hsrc, hwhere⟩, nbr, hnbr, rfl⟩
      exact ⟨hdepth, ⟨a, ha, hsrc, hwhere, hnbr⟩, rfl⟩
    · rintro ⟨-, ⟨a, ha, hsrc, hwhere, hnbr⟩, hd⟩
      exact ⟨a, ⟨ha, hsrc, hwhere⟩, w'.1, hnbr, Prod.ext rfl hd.symm⟩
  · next hdepth => simp [hdepth]

/-- After `j` rounds the result holds the walks of up to `j` steps, the working
table those of `j`. -/
structure RoundsInv (adj : List Segment) (etypes : Option (List Int)) (dir : HopDir)
    (src : Int) (j : Nat) (result working : List (Int × Int)) : Prop where
  result : ∀ v k, (v, k) ∈ result ↔ ∃ i : Nat, k = i ∧ i ≤ j ∧ WalkOf adj etypes dir src i v
  working : ∀ v k, (v, k) ∈ working ↔ k = j ∧ WalkOf adj etypes dir src j v

theorem roundsInv_start : RoundsInv adj etypes dir src 0 [(src, 0)] [(src, 0)] := by
  refine ⟨fun v k => ?_, fun v k => ?_⟩
  · constructor
    · intro hmem
      obtain ⟨rfl, rfl⟩ : v = src ∧ k = 0 := by simpa using hmem
      exact ⟨0, rfl, le_refl _, walkOf_zero_iff.mpr rfl⟩
    · rintro ⟨i, rfl, hi, hwalk⟩
      obtain rfl := Nat.le_zero.mp hi
      obtain rfl := walkOf_zero_iff.mp hwalk
      exact List.mem_singleton_self _
  · rw [walkOf_zero_iff, List.mem_singleton, Prod.mk.injEq]
    exact and_comm

theorem RoundsInv.round {j : Nat} {result working : List (Int × Int)}
    (h : RoundsInv adj etypes dir src j result working) (hj : (j : Int) < maxhop) :
    RoundsInv adj etypes dir src (j + 1)
      (result ++ (working.flatMap (reachRow adj etypes dir maxhop)).dedup.filter
        fun w => !result.contains w)
      ((working.flatMap (reachRow adj etypes dir maxhop)).dedup.filter
        fun w => !result.contains w) := by
  have hnew : ∀ v k, (v, k) ∈ (working.flatMap (reachRow adj etypes dir maxhop)).dedup.filter
      (fun w => !result.contains w) ↔ k = ((j + 1 : Nat) : Int) ∧ WalkOf adj etypes dir src (j + 1) v := by
    intro v k
    rw [List.mem_filter, List.mem_dedup, List.mem_flatMap, Bool.not_eq_true', List.contains_eq_mem,
      decide_eq_false_iff_not]
    constructor
    · rintro ⟨⟨⟨b, d⟩, hb, hrow⟩, -⟩
      obtain ⟨-, hstep, hk⟩ := mem_reachRow.mp hrow
      obtain ⟨rfl, hwalk⟩ := (h.working b d).mp hb
      exact ⟨by exact_mod_cast hk, walkOf_succ_iff.mpr ⟨b, hwalk, hstep⟩⟩
    · rintro ⟨rfl, hwalk⟩
      obtain ⟨b, hb, hstep⟩ := walkOf_succ_iff.mp hwalk
      refine ⟨⟨(b, j), (h.working b j).mpr ⟨rfl, hb⟩, mem_reachRow.mpr ⟨hj, hstep, ?_⟩⟩, ?_⟩
      · push_cast
        rfl
      · intro hold
        obtain ⟨i, hi, hle, -⟩ := (h.result v _).mp hold
        omega
  refine ⟨fun v k => ?_, hnew⟩
  rw [List.mem_append, h.result, hnew]
  constructor
  · rintro (⟨i, hk, hi, hwalk⟩ | ⟨hk, hwalk⟩)
    · exact ⟨i, hk, by omega, hwalk⟩
    · exact ⟨j + 1, hk, le_refl _, hwalk⟩
  · rintro ⟨i, hk, hi, hwalk⟩
    rcases Nat.lt_or_eq_of_le hi with hlt | rfl
    · exact .inl ⟨i, hk, by omega, hwalk⟩
    · exact .inr ⟨hk, hwalk⟩

/-- An empty working table means that no longer walk exists. -/
theorem RoundsInv.of_working_nil {j : Nat} {result : List (Int × Int)}
    (h : RoundsInv adj etypes dir src j result []) (n : Nat) {v : Int} :
    ¬ WalkOf adj etypes dir src (j + n) v := by
  induction n generalizing v with
  | zero =>
      intro hwalk
      exact List.not_mem_nil ((h.working v j).mpr ⟨rfl, hwalk⟩)
  | succ n ih =>
      intro hwalk
      obtain ⟨b, hb, -⟩ := walkOf_succ_iff.mp hwalk
      exact ih hb

theorem mem_reachRounds {n j : Nat} {result working : List (Int × Int)}
    (h : RoundsInv adj etypes dir src j result working) (hn : (j : Int) + n ≤ maxhop)
    {v k : Int} :
    (v, k) ∈ reachRounds adj etypes dir maxhop n result working ↔
      ∃ i : Nat, k = i ∧ i ≤ j + n ∧ WalkOf adj etypes dir src i v := by
  induction n generalizing j result working with
  | zero => exact h.result v k
  | succ n ih =>
      rw [reachRounds]
      split
      · next hnil =>
        subst hnil
        rw [h.result]
        constructor
        · rintro ⟨i, hk, hi, hwalk⟩
          exact ⟨i, hk, by omega, hwalk⟩
        · rintro ⟨i, hk, hi, hwalk⟩
          refine ⟨i, hk, ?_, hwalk⟩
          by_contra hlt
          obtain ⟨m, rfl⟩ := Nat.exists_eq_add_of_lt (not_le.mp hlt)
          exact h.of_working_nil (m + 1) hwalk
      · rw [ih (h.round (by omega)) (by push_cast; omega)]
        simp only [Nat.add_assoc, Nat.add_comm 1 n]

/-- The first walk long enough, within the bounds of the engines. -/
def Found (arc : Int → Unit → Int → Prop) (src minhop maxhop v k : Int) : Prop :=
  ∃ j : Nat, k = j ∧ j ≤ maxhop.toNat ∧ FirstHit arc src minhop.toNat j v

theorem ogReachSql_nodup :
    ((ogReachSql adj etypes dir src minhop maxhop).map (·.1)).Nodup := by
  unfold ogReachSql
  dsimp only
  generalize (reachRounds adj etypes dir maxhop maxhop.toNat [(src, 0)] [(src, 0)]).filter
    (fun w => minhop ≤ w.2) = walk
  have hkeep : ∀ nodes : List Int, ((nodes.filterMap fun node =>
      ((walk.filter fun w => w.1 = node).map (·.2)).min?.map
        fun depth => (node, depth)).map (·.1)).Sublist nodes := by
    intro nodes
    induction nodes with
    | nil => exact List.Sublist.slnil
    | cons node nodes ih =>
        rw [List.filterMap_cons]
        cases ((walk.filter fun w => w.1 = node).map (·.2)).min? with
        | none => exact ih.cons node
        | some depth => exact ih.cons_cons node
  exact (List.nodup_dedup _).sublist (hkeep _)

theorem mem_ogReachSql {v k : Int} :
    (v, k) ∈ ogReachSql adj etypes dir src minhop maxhop ↔
      Found (Step adj etypes dir) src minhop maxhop v k := by
  have hrounds : ∀ w d, (w, d) ∈ reachRounds adj etypes dir maxhop maxhop.toNat
      [(src, 0)] [(src, 0)] ↔
      ∃ i : Nat, d = i ∧ i ≤ maxhop.toNat ∧ WalkOf adj etypes dir src i w := by
    intro w d
    rcases Int.lt_or_le maxhop 0 with hneg | hpos
    · rw [Int.toNat_of_nonpos hneg.le, reachRounds]
      exact roundsInv_start.result w d
    · rw [mem_reachRounds roundsInv_start (by omega), Nat.zero_add]
  have hdepths : ∀ d : Int, d ∈ (((reachRounds adj etypes dir maxhop maxhop.toNat [(src, 0)]
      [(src, 0)]).filter fun w => minhop ≤ w.2).filter fun w => w.1 = v).map (·.2) ↔
      ∃ i : Nat, d = i ∧ i ≤ maxhop.toNat ∧ minhop ≤ d ∧ WalkOf adj etypes dir src i v := by
    intro d
    simp only [List.mem_map, List.mem_filter, decide_eq_true_eq]
    constructor
    · rintro ⟨⟨w, d⟩, ⟨⟨hmem, hlow⟩, rfl⟩, rfl⟩
      obtain ⟨i, hd, hi, hwalk⟩ := (hrounds w d).mp hmem
      exact ⟨i, hd, hi, hlow, hwalk⟩
    · rintro ⟨i, hd, hi, hlow, hwalk⟩
      exact ⟨(v, d), ⟨⟨(hrounds v d).mpr ⟨i, hd, hi, hwalk⟩, hlow⟩, rfl⟩, rfl⟩
  have hmin : (v, k) ∈ ogReachSql adj etypes dir src minhop maxhop ↔
      ((((reachRounds adj etypes dir maxhop maxhop.toNat [(src, 0)] [(src, 0)]).filter
        fun w => minhop ≤ w.2).filter fun w => w.1 = v).map (·.2)).min? = some k := by
    unfold ogReachSql
    simp only [List.mem_filterMap, Option.map_eq_some_iff, Prod.mk.injEq]
    constructor
    · rintro ⟨node, -, d, hd, rfl, rfl⟩
      exact hd
    · intro hd
      refine ⟨v, List.mem_dedup.mpr ?_, k, hd, rfl, rfl⟩
      obtain ⟨w, hw, -⟩ := List.mem_map.mp (List.min?_mem hd)
      obtain ⟨hmem, hnode⟩ := List.mem_filter.mp hw
      exact List.mem_map.mpr ⟨w, hmem, of_decide_eq_true hnode⟩
  rw [hmin, List.min?_eq_some_iff]
  simp only [hdepths]
  constructor
  · rintro ⟨⟨i, rfl, hi, hlow, es, hwalk, hlength⟩, hleast⟩
    refine ⟨i, rfl, hi, ⟨es, hwalk, by omega, hlength.le⟩, ?_⟩
    rintro j hj ⟨fs, hfs, hlowfs, hlengthfs⟩
    have := hleast fs.length ⟨fs.length, rfl, by omega, by omega, fs, hfs, rfl⟩
    omega
  · rintro ⟨j, rfl, hj, hfirst⟩
    obtain ⟨⟨hlow, es, hwalk, hlength⟩, hleast⟩ := firstHit_iff_isLeast.mp hfirst
    refine ⟨⟨j, rfl, hj, by omega, es, hwalk, hlength⟩, ?_⟩
    rintro d ⟨i, rfl, -, hlowi, fs, hfs, hlengthi⟩
    have := hleast ⟨by omega, fs, hfs, hlengthi⟩
    exact_mod_cast this

end QuerySpec

section StoredSpec

variable {adj : List Segment} {etypes : Option (List Int)} {dir : HopDir}
  {src minhop maxhop : Int}

theorem mem_frontierNbrs_iff {F : List Int} {v : Int} :
    v ∈ frontierNbrs adj etypes dir F ↔ ∃ b ∈ F, Step adj etypes dir b () v := by
  simp only [frontierNbrs, List.mem_flatMap, List.mem_filter, decide_eq_true_eq, Step]
  constructor
  · rintro ⟨a, ⟨ha, hsrc, hwhere⟩, hv⟩
    exact ⟨a.src, hsrc, a, ha, rfl, hwhere, hv⟩
  · rintro ⟨b, hb, a, ha, rfl, hwhere, hv⟩
    exact ⟨a, ⟨ha, hb, hwhere⟩, hv⟩

/-- A search from the start reports what it finds within `maxhop` levels. -/
theorem mem_searchLoop {nbrs : List Int → List Int}
    (hnbrs : ∀ F v, v ∈ nbrs F ↔ ∃ b ∈ F, Step adj etypes dir b () v) (hmin : minhop ≤ 1) :
    let out := (searchLoop nbrs src minhop maxhop.toNat 1 (reachStart src minhop)).out
    (out.map (·.1)).Nodup ∧
      ∀ v k, (v, k) ∈ out ↔ Found (Step adj etypes dir) src minhop maxhop v k := by
  have hstart : SearchInv (Step adj etypes dir) src minhop 0 (reachStart src minhop) :=
    searchInv_start
  have h := searchInv_loop (n := maxhop.toNat) hnbrs hmin hstart
  rw [Nat.zero_add] at h
  exact ⟨h.nodup, h.out⟩

theorem ogReach_spec (hmin : minhop ≤ 1) :
    ((ogReach adj etypes dir src minhop maxhop).map (·.1)).Nodup ∧
      ∀ v k, (v, k) ∈ ogReach adj etypes dir src minhop maxhop ↔
        Found (Step adj etypes dir) src minhop maxhop v k := by
  rw [ogReach, reachLoop_eq]
  exact mem_searchLoop (fun _ _ => mem_frontierNbrs_iff) hmin

end StoredSpec

section CompiledSpec

/-- What compiling guarantees of the arrays. -/
structure Csr.Sound (g : Csr) : Prop where
  nodup : g.ids.Nodup
  targets : ∀ m, ∀ t ∈ g.fwd.get m, t < g.ids.length

theorem Csr.Sound.idxOf_idAt {g : Csr} (h : g.Sound) {m : Nat} (hm : m < g.ids.length) :
    g.ids.idxOf (g.idAt m) = m := by
  rw [Csr.idAt, List.getD_eq_getElem _ _ hm]
  exact h.nodup.idxOf_getElem m hm

theorem Csr.idAt_idxOf {g : Csr} {v : Int} (hv : v ∈ g.ids) : g.idAt (g.ids.idxOf v) = v := by
  have hlt := List.idxOf_lt_length_of_mem hv
  rw [Csr.idAt, List.getD_eq_getElem _ _ hlt]
  exact List.getElem_idxOf hlt

/-- The neighbours of a frontier of ids, read from the compiled arrays. -/
def csrNbrs (g : Csr) (F : List Int) : List Int :=
  F.flatMap fun b => (g.fwd.get (g.ids.idxOf b)).map g.idAt

section Arrays

variable {adj : List Segment} {etypes : Option (List Int)} {dir want : HopDir}

theorem mem_ids_compile {v : Int} :
    v ∈ (compile adj etypes dir).ids ↔
      ∃ a ∈ adj, AdjWhere .b etypes a ∧ (v = a.src ∨ v ∈ a.nbr) := by
  simp only [compile, List.mem_dedup, List.mem_insertionSort, endsOf, admitted,
    List.mem_flatMap, List.mem_filter, List.mem_cons, decide_eq_true_eq, and_assoc]

theorem mem_packEdges {ids : List Int} {rows : List Segment} {e : Nat × Nat} :
    e ∈ packEdges ids rows want ↔ ∃ a ∈ rows, want.Admits a.dir ∧
      ∃ nbr ∈ a.nbr, e = (ids.idxOf a.src, ids.idxOf nbr) := by
  simp only [packEdges, List.mem_flatMap, List.mem_filter, List.mem_map, decide_eq_true_eq,
    and_assoc]
  simp only [eq_comm]

theorem packEdges_lt {e : Nat × Nat}
    (he : e ∈ packEdges (compile adj etypes dir).ids (admitted adj etypes) want) :
    e.1 < (compile adj etypes dir).ids.length ∧ e.2 < (compile adj etypes dir).ids.length := by
  obtain ⟨a, ha, -, nbr, hnbr, rfl⟩ := mem_packEdges.mp he
  obtain ⟨ha, hwhere⟩ := List.mem_filter.mp ha
  have hwhere := of_decide_eq_true hwhere
  exact ⟨List.idxOf_lt_length_of_mem (mem_ids_compile.mpr ⟨a, ha, hwhere, .inl rfl⟩),
    List.idxOf_lt_length_of_mem (mem_ids_compile.mpr ⟨a, ha, hwhere, .inr hnbr⟩)⟩

theorem get_fwd_compile {m : Nat} :
    (compile adj etypes dir).fwd.get m =
      bucket (packEdges (compile adj etypes dir).ids (admitted adj etypes) dir) m := by
  have hlt : ∀ e ∈ packEdges (compile adj etypes dir).ids (admitted adj etypes) dir,
      e.1 < (compile adj etypes dir).ids.length := fun _ he => (packEdges_lt he).1
  exact get_pack hlt

theorem mem_fwd_compile {m t : Nat} :
    t ∈ (compile adj etypes dir).fwd.get m ↔
      (m, t) ∈ packEdges (compile adj etypes dir).ids (admitted adj etypes) dir := by
  rw [get_fwd_compile, bucket, List.mem_map]
  constructor
  · rintro ⟨e, he, rfl⟩
    obtain ⟨hmem, hm⟩ := List.mem_filter.mp he
    obtain rfl := of_decide_eq_true hm
    exact hmem
  · intro he
    exact ⟨(m, t), List.mem_filter.mpr ⟨he, decide_eq_true rfl⟩, rfl⟩

theorem sound_compile : (compile adj etypes dir).Sound where
  nodup := List.nodup_dedup _
  targets := fun _ _ ht => (packEdges_lt (mem_fwd_compile.mp ht)).2

/-- The compiled arrays list exactly the stored steps. -/
theorem mem_csrNbrs {F : List Int} {v : Int} :
    v ∈ csrNbrs (compile adj etypes dir) F ↔ ∃ b ∈ F, Step adj etypes dir b () v := by
  simp only [csrNbrs, List.mem_flatMap, List.mem_map]
  refine exists_congr fun b => and_congr_right fun _ => ?_
  constructor
  · rintro ⟨t, ht, rfl⟩
    obtain ⟨a, ha, hdir, nbr, hnbr, he⟩ := mem_packEdges.mp (mem_fwd_compile.mp ht)
    obtain ⟨hb, rfl⟩ := Prod.mk.inj he
    obtain ⟨ha, hwhere⟩ := List.mem_filter.mp ha
    have hwhere := of_decide_eq_true hwhere
    have hsrc : a.src ∈ (compile adj etypes dir).ids :=
      mem_ids_compile.mpr ⟨a, ha, hwhere, .inl rfl⟩
    have hlt := List.idxOf_lt_length_of_mem hsrc
    have hmem : b ∈ (compile adj etypes dir).ids := by
      rw [← hb] at hlt
      exact List.idxOf_lt_length_iff.mp hlt
    rw [Csr.idAt_idxOf (mem_ids_compile.mpr ⟨a, ha, hwhere, .inr hnbr⟩)]
    refine ⟨a, ha, ?_, ⟨hdir, hwhere.2⟩, hnbr⟩
    rw [← Csr.idAt_idxOf hsrc, ← hb, Csr.idAt_idxOf hmem]
  · rintro ⟨a, ha, rfl, hwhere, hnbr⟩
    have hboth : AdjWhere .b etypes a := ⟨trivial, hwhere.2⟩
    refine ⟨(compile adj etypes dir).ids.idxOf v, mem_fwd_compile.mpr ?_,
      Csr.idAt_idxOf (mem_ids_compile.mpr ⟨a, ha, hboth, .inr hnbr⟩)⟩
    exact mem_packEdges.mpr ⟨a, List.mem_filter.mpr ⟨ha, decide_eq_true hboth⟩, hwhere.1, v,
      hnbr, rfl⟩

end Arrays

variable {g : Csr} {start : Nat} {src minhop depth : Int}

/-- A state of the compiled walk stands for one of the walk over ids. -/
structure Rep (g : Csr) (s : CsrState) (t : ReachState) : Prop where
  words : s.seen.length = (g.ids.length + 63) / 64
  next_lt : ∀ m ∈ s.next, m < g.ids.length
  next : t.next = s.next.map g.idAt
  seen : ∀ m < g.ids.length, Marked s.seen m ↔ g.idAt m ∈ t.visited
  out : s.out = t.out
  startDone : s.startDone = t.startDone

theorem Csr.Sound.idAt_inj (hg : g.Sound) {m n : Nat} (hm : m < g.ids.length)
    (hn : n < g.ids.length) : g.idAt m = g.idAt n ↔ m = n := by
  constructor
  · intro h
    rw [← hg.idxOf_idAt hm, h, hg.idxOf_idAt hn]
  · rintro rfl
    rfl

theorem Rep.visit {s : CsrState} {t : ReachState} {m : Nat} (h : Rep g s t) (hg : g.Sound)
    (hm : m < g.ids.length) (hstart : start < g.ids.length) (hsrc : g.idAt start = src) :
    Rep g (csrVisit g start src minhop depth s m)
      (reachVisit src minhop depth t (g.idAt m)) := by
  have hword : m / 64 < s.seen.length := by
    rw [h.words]
    omega
  have hfresh : (mark s.seen m).2 = true ↔ g.idAt m ∉ t.visited := by
    rw [mark_snd, h.seen m hm]
  have hisstart : m = start ↔ g.idAt m = src := by
    rw [← hsrc, hg.idAt_inj hm hstart]
  have hwords : (mark s.seen m).1.length = (g.ids.length + 63) / 64 := by
    rw [length_mark, h.words]
  have hmarked : ∀ k < g.ids.length,
      Marked (mark s.seen m).1 k ↔ g.idAt k = g.idAt m ∨ g.idAt k ∈ t.visited := by
    intro k hk
    rw [marked_mark hword, h.seen k hk, hg.idAt_inj hk hm, or_comm]
  rcases Classical.em (g.idAt m ∈ t.visited) with hold | hnew
  · have hclear : ¬ (mark s.seen m).2 = true := fun hf => hfresh.mp hf hold
    have hsame : ∀ k < g.ids.length, Marked (mark s.seen m).1 k ↔ g.idAt k ∈ t.visited := by
      intro k hk
      rw [hmarked k hk]
      refine ⟨fun hor => hor.elim (fun heq => heq ▸ hold) id, .inr⟩
    rw [csrVisit, reachVisit, if_neg hclear, if_neg (not_not.mpr hold)]
    simp only [hisstart, h.startDone]
    split
    · exact ⟨hwords, h.next_lt, h.next, hsame, by rw [h.out], rfl⟩
    · exact ⟨hwords, h.next_lt, h.next, hsame, h.out, rfl⟩
  · rw [csrVisit, reachVisit, if_pos (hfresh.mpr hnew), if_pos hnew]
    refine ⟨hwords, fun k hk => ?_, ?_, fun k hk => ?_, ?_, h.startDone⟩
    · rcases List.mem_append.mp hk with hk | hk
      · exact h.next_lt k hk
      · obtain rfl := List.mem_singleton.mp hk
        exact hm
    · rw [List.map_append, ← h.next]
      rfl
    · rw [hmarked k hk, List.mem_cons]
    · dsimp only
      rw [h.out]

theorem Rep.foldl {ms : List Nat} {s : CsrState} {t : ReachState} (h : Rep g s t)
    (hg : g.Sound) (hms : ∀ m ∈ ms, m < g.ids.length) (hstart : start < g.ids.length)
    (hsrc : g.idAt start = src) :
    Rep g (ms.foldl (csrVisit g start src minhop depth) s)
      ((ms.map g.idAt).foldl (reachVisit src minhop depth) t) := by
  induction ms generalizing s t with
  | nil => exact h
  | cons m ms ih =>
      exact ih (h.visit hg (hms m List.mem_cons_self) hstart hsrc)
        fun k hk => hms k (List.mem_cons_of_mem _ hk)

theorem Rep.level {s : CsrState} {t : ReachState} (h : Rep g s t) (hg : g.Sound)
    (hstart : start < g.ids.length) (hsrc : g.idAt start = src) :
    Rep g (csrLevel g start src minhop depth s)
      ((csrNbrs g t.next).foldl (reachVisit src minhop depth) { t with next := [] }) := by
  have hnbrs : csrNbrs g t.next = (s.next.flatMap g.fwd.get).map g.idAt := by
    rw [csrNbrs, h.next, List.flatMap_map, List.map_flatMap]
    refine List.flatMap_congr fun m hm => ?_
    rw [hg.idxOf_idAt (h.next_lt m hm)]
  have hclear : Rep g { s with next := [] } { t with next := [] } :=
    ⟨h.words, by simp, rfl, h.seen, h.out, h.startDone⟩
  rw [hnbrs, csrLevel]
  refine hclear.foldl hg (fun m hm => ?_) hstart hsrc
  obtain ⟨k, -, hk⟩ := List.mem_flatMap.mp hm
  exact hg.targets k m hk

theorem Rep.loop {n : Nat} {s : CsrState} {t : ReachState} (h : Rep g s t) (hg : g.Sound)
    (hstart : start < g.ids.length) (hsrc : g.idAt start = src) :
    (csrLoop g start src minhop n depth s).out =
      (searchLoop (csrNbrs g) src minhop n depth t).out := by
  induction n generalizing depth s t with
  | zero => exact h.out
  | succ n ih =>
      have hempty : s.next = [] ↔ t.next = [] := by
        rw [h.next, List.map_eq_nil_iff]
      rw [csrLoop, searchLoop]
      simp only [hempty]
      split
      · exact h.out
      · exact ih (h.level hg hstart hsrc)

theorem rep_start (hg : g.Sound) (hstart : start < g.ids.length) (hsrc : g.idAt start = src) :
    Rep g (csrStart g start src minhop) (reachStart src minhop) := by
  have hword : start / 64 < (List.replicate ((g.ids.length + 63) / 64) 0).length := by
    rw [List.length_replicate]
    omega
  refine ⟨?_, fun m hm => ?_, ?_, fun m hm => ?_, rfl, rfl⟩
  · rw [csrStart, length_mark, List.length_replicate]
  · obtain rfl := List.mem_singleton.mp hm
    exact hstart
  · rw [reachStart, csrStart, List.map_singleton, hsrc]
  · rw [csrStart, marked_mark hword, reachStart, List.mem_singleton, ← hsrc,
      hg.idAt_inj hm hstart]
    exact or_iff_right not_marked_replicate

end CompiledSpec

section Agreement

variable {adj : List Segment} {etypes : Option (List Int)} {dir : HopDir}
  {src minhop maxhop : Int}

/-- The source is an end of some segment of an admitted type. -/
def Occurs (adj : List Segment) (etypes : Option (List Int)) (src : Int) : Prop :=
  ∃ a ∈ adj, AdjWhere .b etypes a ∧ (src = a.src ∨ src ∈ a.nbr)

theorem ogCsrReach_of_occurs (hmin : minhop ≤ 1) (h : Occurs adj etypes src) :
    ∃ rows, ogCsrReach (ogCsrBuild adj etypes dir) src minhop maxhop = .ok rows ∧
      (rows.map (·.1)).Nodup ∧
      ∀ v k, (v, k) ∈ rows ↔ Found (Step adj etypes dir) src minhop maxhop v k := by
  have hmem : src ∈ (compile adj etypes dir).ids := mem_ids_compile.mpr h
  have hstart := List.idxOf_lt_length_of_mem hmem
  have hsrc : (compile adj etypes dir).idAt ((compile adj etypes dir).ids.idxOf src) = src :=
    Csr.idAt_idxOf hmem
  have hrep : Rep (compile adj etypes dir)
      (csrStart (compile adj etypes dir) ((compile adj etypes dir).ids.idxOf src) src minhop)
      (reachStart src minhop) := rep_start sound_compile hstart hsrc
  have hindex : (compile adj etypes dir).indexOf src =
      some ((compile adj etypes dir).ids.idxOf src) := if_pos hmem
  refine ⟨(searchLoop (csrNbrs (compile adj etypes dir)) src minhop maxhop.toNat 1
    (reachStart src minhop)).out, ?_, mem_searchLoop (fun _ _ => mem_csrNbrs) hmin⟩
  rw [ogCsrBuild, ogCsrReach]
  simp only [hindex]
  rw [hrep.loop sound_compile hstart hsrc]

theorem ogCsrReach_of_not_occurs (h : ¬ Occurs adj etypes src) :
    ogCsrReach (ogCsrBuild adj etypes dir) src minhop maxhop = .ok [] := by
  have hindex : (compile adj etypes dir).indexOf src = none :=
    if_neg fun hmem => h (mem_ids_compile.mp hmem)
  rw [ogCsrBuild, ogCsrReach]
  simp only [hindex]

theorem isLeast_lengths_iff (h : minhop = 1 ∨ minhop ≤ 1 ∧ 0 ≤ maxhop) {v k : Int} :
    IsLeast (lengths adj etypes dir src minhop maxhop v) k ↔
      Found (Step adj etypes dir) src minhop maxhop v k := by
  constructor
  · rintro ⟨⟨hlow, hhigh, es, hwalk, rfl⟩, hleast⟩
    refine ⟨es.length, rfl, by omega, firstHit_iff_isLeast.mpr
      ⟨⟨by omega, es, hwalk, rfl⟩, ?_⟩⟩
    rintro i ⟨hi, fs, hfs, rfl⟩
    rcases Int.lt_or_le maxhop fs.length with hlt | hle
    · omega
    · have := hleast ⟨by omega, hle, fs, hfs, rfl⟩
      exact_mod_cast this
  · rintro ⟨j, rfl, hj, hfirst⟩
    obtain ⟨⟨hlow, es, hwalk, rfl⟩, hleast⟩ := firstHit_iff_isLeast.mp hfirst
    refine ⟨⟨by omega, by omega, es, hwalk, rfl⟩, ?_⟩
    rintro n ⟨hn, -, fs, hfs, rfl⟩
    have := hleast ⟨by omega, fs, hfs, rfl⟩
    exact_mod_cast this

theorem found_start (hmin : minhop ≤ 0) :
    Found (Step adj etypes dir) src minhop maxhop src 0 :=
  ⟨0, rfl, Nat.zero_le _, firstHit_zero_iff.mpr ⟨hmin, rfl⟩⟩

/-- Only the ends of admitted segments start a walk of positive length. -/
theorem not_lengths_of_not_occurs (hoccurs : ¬ Occurs adj etypes src) {v n : Int}
    (hn : n ∈ lengths adj etypes dir src 1 maxhop v) : False := by
  obtain ⟨hlow, -, es, hwalk, rfl⟩ := hn
  cases es with
  | nil => simp at hlow
  | cons e es =>
      obtain ⟨b, ⟨a, ha, hsrc, hwhere, -⟩, -⟩ := walk_cons_iff.mp hwalk
      exact hoccurs ⟨a, ha, ⟨trivial, hwhere.2⟩, .inl hsrc.symm⟩

/-- The engines agree exactly when no empty walk is asked for, or when it is
within the bounds and the source has a segment. -/
theorem agree_iff (hmin : minhop ≤ 1) :
    Agree adj etypes dir src minhop maxhop ↔
      minhop = 1 ∨ 0 ≤ maxhop ∧ Occurs adj etypes src := by
  constructor
  · intro h
    rcases eq_or_ne minhop 1 with hone | hne
    · exact .inl hone
    have hzero : minhop ≤ 0 := by omega
    have hleast := (h.reach.shortest src 0).mp
      (((ogReach_spec hmin).2 src 0).mpr (found_start hzero))
    refine .inr ⟨hleast.1.2.1, ?_⟩
    by_contra hoccurs
    obtain ⟨rows, hrows, hanswers⟩ := h.compiled
    rw [ogCsrReach_of_not_occurs hoccurs] at hrows
    obtain rfl := Except.ok.inj hrows
    exact List.not_mem_nil ((hanswers.shortest src 0).mpr hleast)
  · intro h
    have hbounds : minhop = 1 ∨ minhop ≤ 1 ∧ 0 ≤ maxhop := h.imp id fun hr => ⟨hmin, hr.1⟩
    refine ⟨⟨(ogReach_spec hmin).1, fun v k => ?_⟩, ⟨ogReachSql_nodup, fun v k => ?_⟩, ?_⟩
    · rw [isLeast_lengths_iff hbounds]
      exact (ogReach_spec hmin).2 v k
    · rw [isLeast_lengths_iff hbounds]
      exact mem_ogReachSql
    · rcases Classical.em (Occurs adj etypes src) with hoccurs | hoccurs
      · obtain ⟨rows, hrows, hnodup, hmem⟩ := ogCsrReach_of_occurs hmin hoccurs
        refine ⟨rows, hrows, hnodup, fun v k => ?_⟩
        rw [isLeast_lengths_iff hbounds]
        exact hmem v k
      · have hone : minhop = 1 := h.resolve_right fun hr => hoccurs hr.2
        subst hone
        refine ⟨[], ogCsrReach_of_not_occurs hoccurs, List.nodup_nil, fun v k => ?_⟩
        refine iff_of_false List.not_mem_nil fun hleast => ?_
        exact not_lengths_of_not_occurs hoccurs hleast.1

/-- Two nodes that list each other. -/
def pair : List Segment :=
  [⟨1, 7, .o, 0, 1, [2], [10]⟩, ⟨2, 7, .o, 0, 1, [1], [11]⟩]

theorem agree_pair : Agree pair none .o 1 0 3 :=
  (agree_iff (by decide)).mpr
    (.inr ⟨by decide, ⟨1, 7, .o, 0, 1, [2], [10]⟩, by decide, ⟨trivial, by simp⟩, .inl rfl⟩)

/-- On an empty store the first two engines answer with the source itself, the
compiled one with nothing. -/
theorem not_agree_empty : ¬ Agree [] none .o 1 0 3 ∧ ogReach [] none .o 1 0 3 = [(1, 0)] ∧
    ogReachSql [] none .o 1 0 3 = [(1, 0)] ∧
    ogCsrReach (ogCsrBuild [] none .o) 1 0 3 = .ok [] := by
  have hnone : ogCsrReach (ogCsrBuild [] none .o) 1 0 3 = .ok [] :=
    ogCsrReach_of_not_occurs (by simp [Occurs])
  have hreach : ogReach [] none .o 1 0 3 = [(1, 0)] := by decide
  refine ⟨fun h => ?_, hreach, by decide, hnone⟩
  obtain ⟨rows, hrows, hanswers⟩ := h.compiled
  rw [hnone] at hrows
  obtain rfl := Except.ok.inj hrows
  have hmem : ((1 : Int), (0 : Int)) ∈ ogReach [] none .o 1 0 3 := by
    rw [hreach]
    exact List.mem_singleton_self _
  exact List.not_mem_nil
    ((hanswers.shortest 1 0).mpr ((h.reach.shortest 1 0).mp hmem))

end Agreement

end OntologicalDb.ReachEngines
