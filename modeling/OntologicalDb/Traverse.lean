import OntologicalDb.Adjacency
import OntologicalDb.EdgeTrails

/-!
The two variable-length traversals: `ogVlp` enumerates trails, `ogReach` visits
each node once.
-/

namespace OntologicalDb.Traverse

open OntologicalDb.Adjacency
open OntologicalDb.EdgeTrails

/-- A direction of traversal: the stored letters, and `b` for either. -/
inductive HopDir
  | o
  | i
  | b
deriving DecidableEq

def HopDir.Admits : HopDir → Dir → Prop
  | .o, d => d = .o
  | .i, d => d = .i
  | .b, _ => True

instance : (h : HopDir) → (d : Dir) → Decidable (h.Admits d)
  | .o, d => inferInstanceAs (Decidable (d = .o))
  | .i, d => inferInstanceAs (Decidable (d = .i))
  | .b, _ => inferInstanceAs (Decidable True)

/-- The direction and relation-type predicate over a segment. -/
def AdjWhere (dir : HopDir) (etypes : Option (List Int)) (a : Segment) : Prop :=
  dir.Admits a.dir ∧ ∀ ts, etypes = some ts → a.etype ∈ ts

instance (dir : HopDir) (etypes : Option (List Int)) (a : Segment) :
    Decidable (AdjWhere dir etypes a) :=
  match etypes with
  | none => decidable_of_iff (dir.Admits a.dir) (by simp [AdjWhere])
  | some ts => decidable_of_iff (dir.Admits a.dir ∧ a.etype ∈ ts) (by simp [AdjWhere])

/-- One step of a traversal: a matching segment of `v` lists `w` under `e`. -/
def Arc (adj : List Segment) (etypes : Option (List Int)) (dir : HopDir)
    (v e w : Int) : Prop :=
  ∃ a ∈ adj, a.src = v ∧ AdjWhere dir etypes a ∧ (w, e) ∈ a.nbr.zip a.eid

section Trails

structure WalkRow where
  node : Int
  depth : Int
  path : List Int
deriving DecidableEq

variable (adj : List Segment) (etypes : Option (List Int)) (dir : HopDir)

/-- The recursive branch for one row of the working table. -/
def walkStep (maxhop : Int) (w : WalkRow) : List WalkRow :=
  if w.depth < maxhop then
    (adj.filter fun a => a.src = w.node ∧ AdjWhere dir etypes a).flatMap fun a =>
      ((a.nbr.zip a.eid).filter fun u => u.2 ∉ w.path).map fun u =>
        ⟨u.1, w.depth + 1, w.path ++ [u.2]⟩
  else []

/-- The rows of `n` further rounds; the depth guard empties the working table
after `maxhop` of them. -/
def walkRounds (maxhop : Int) : Nat → List WalkRow → List WalkRow
  | 0, rows => rows
  | n + 1, rows =>
      rows ++ walkRounds maxhop n (rows.flatMap (walkStep adj etypes dir maxhop))

/-- Every trail from `src` whose length lies between the bounds. -/
def ogVlp (src minhop maxhop : Int) : List WalkRow :=
  (walkRounds adj etypes dir maxhop maxhop.toNat [⟨src, 0, []⟩]).filter fun w =>
    minhop ≤ w.depth ∧ w.depth ≤ maxhop

end Trails

section Reach

/-- The variables of the breadth-first walk. -/
structure ReachState where
  visited : List Int
  next : List Int
  out : List (Int × Int)
  startDone : Bool
deriving DecidableEq

/-- One neighbour met at some depth. -/
def reachVisit (src minhop depth : Int) (s : ReachState) (nbr : Int) : ReachState :=
  if nbr ∉ s.visited then
    { s with
      visited := nbr :: s.visited
      next := s.next ++ [nbr]
      out := if minhop ≤ depth then s.out ++ [(nbr, depth)] else s.out }
  else if nbr = src ∧ s.startDone = false ∧ minhop ≤ depth then
    { s with startDone := true, out := s.out ++ [(src, depth)] }
  else s

variable (adj : List Segment) (etypes : Option (List Int)) (dir : HopDir)

/-- The neighbours of a frontier, segment by segment. -/
def frontierNbrs (frontier : List Int) : List Int :=
  (adj.filter fun a => a.src ∈ frontier ∧ AdjWhere dir etypes a).flatMap (·.nbr)

/-- One level: the neighbours of `s.next`, the frontier the last level left. -/
def reachLevel (src minhop depth : Int) (s : ReachState) : ReachState :=
  (frontierNbrs adj etypes dir s.next).foldl (reachVisit src minhop depth)
    { s with next := [] }

/-- Levels `depth`, `depth + 1`, … until the frontier is empty. -/
def reachLoop (src minhop : Int) : Nat → Int → ReachState → ReachState
  | 0, _, s => s
  | n + 1, depth, s =>
      if s.next = [] then s
      else reachLoop src minhop n (depth + 1) (reachLevel adj etypes dir src minhop depth s)

def reachStart (src minhop : Int) : ReachState where
  visited := [src]
  next := [src]
  out := if minhop ≤ 0 then [(src, 0)] else []
  startDone := minhop ≤ 0

/-- Nodes reachable from `src` within the bounds, at the depth first reached. -/
def ogReach (src minhop maxhop : Int) : List (Int × Int) :=
  (reachLoop adj etypes dir src minhop maxhop.toNat 1 (reachStart src minhop)).out

end Reach

section TrailSpec

variable {adj : List Segment} {etypes : Option (List Int)} {dir : HopDir}
  {src minhop maxhop : Int}

theorem mem_walkStep {w w' : WalkRow} :
    w' ∈ walkStep adj etypes dir maxhop w ↔
      w.depth < maxhop ∧ ∃ e, Arc adj etypes dir w.node e w'.node ∧ e ∉ w.path ∧
        w'.depth = w.depth + 1 ∧ w'.path = w.path ++ [e] := by
  unfold walkStep
  split
  · next hdepth =>
    simp only [List.mem_flatMap, List.mem_filter, List.mem_map, decide_eq_true_eq, Arc]
    constructor
    · rintro ⟨a, ⟨ha, hsrc, hwhere⟩, ⟨v, e⟩, ⟨hzip, hnew⟩, rfl⟩
      exact ⟨hdepth, e, ⟨a, ha, hsrc, hwhere, hzip⟩, hnew, rfl, rfl⟩
    · rintro ⟨-, e, ⟨a, ha, hsrc, hwhere, hzip⟩, hnew, hd, hp⟩
      refine ⟨a, ⟨ha, hsrc, hwhere⟩, ⟨w'.node, e⟩, ⟨hzip, hnew⟩, ?_⟩
      cases w'
      simp_all
  · next hdepth => simp [hdepth]

/-- A row of the working table describes a trail of its depth. -/
def IsTrailRow (adj : List Segment) (etypes : Option (List Int)) (dir : HopDir)
    (src : Int) (w : WalkRow) : Prop :=
  Trail (Arc adj etypes dir) src w.path w.node ∧ w.depth = w.path.length

/-- The rows of depth `k` are all trails of length `k`. -/
def IsLevel (adj : List Segment) (etypes : Option (List Int)) (dir : HopDir)
    (src : Int) (k : Nat) (rows : List WalkRow) : Prop :=
  ∀ w, w ∈ rows ↔ IsTrailRow adj etypes dir src w ∧ w.path.length = k

theorem isLevel_start : IsLevel adj etypes dir src 0 [⟨src, 0, []⟩] := by
  intro w
  rw [List.mem_singleton]
  constructor
  · rintro rfl
    exact ⟨⟨⟨.nil, List.nodup_nil⟩, rfl⟩, rfl⟩
  · rintro ⟨⟨⟨hwalk, -⟩, hdepth⟩, hlength⟩
    obtain ⟨node, depth, path⟩ := w
    obtain rfl := List.length_eq_zero_iff.mp hlength
    obtain rfl := walk_nil_iff.mp hwalk
    simpa using hdepth

theorem IsLevel.step {k : Nat} {rows : List WalkRow}
    (h : IsLevel adj etypes dir src k rows) (hk : (k : Int) < maxhop) :
    IsLevel adj etypes dir src (k + 1)
      (rows.flatMap (walkStep adj etypes dir maxhop)) := by
  intro w'
  rw [List.mem_flatMap]
  constructor
  · rintro ⟨w, hw, hstep⟩
    obtain ⟨⟨⟨hwalk, hnodup⟩, hdepth⟩, hlength⟩ := (h w).mp hw
    obtain ⟨-, e, harc, hnew, hd, hp⟩ := mem_walkStep.mp hstep
    refine ⟨⟨⟨?_, ?_⟩, ?_⟩, ?_⟩
    · rw [hp]
      exact .snoc hwalk harc
    · rw [hp]
      exact hnodup.append (List.nodup_singleton _) (by simpa using hnew)
    · rw [hd, hp, hdepth]
      simp
    · rw [hp, List.length_append, hlength, List.length_singleton]
  · rintro ⟨⟨⟨hwalk, hnodup⟩, hdepth⟩, hlength⟩
    obtain ⟨path, e, hpath⟩ := List.eq_nil_or_concat' w'.path |>.resolve_left
      (by rintro hnil; simp [hnil] at hlength)
    rw [hpath] at hwalk hnodup
    obtain ⟨b, hpath', harc⟩ := walk_concat_iff.mp hwalk
    rw [List.nodup_append'] at hnodup
    have hlen : path.length = k := by simpa [hpath] using hlength
    refine ⟨⟨b, k, path⟩, (h _).mpr ⟨⟨⟨hpath', hnodup.1⟩, by simp [hlen]⟩, hlen⟩, ?_⟩
    refine mem_walkStep.mpr ⟨hk, e, harc, ?_, ?_, hpath⟩
    · intro hmem
      exact hnodup.2.2 hmem (List.mem_singleton_self e)
    · rw [hdepth, hlength]
      simp

theorem mem_walkRounds {n k : Nat} {rows : List WalkRow}
    (h : IsLevel adj etypes dir src k rows) (hn : (k : Int) + n ≤ maxhop) {w : WalkRow} :
    w ∈ walkRounds adj etypes dir maxhop n rows ↔
      IsTrailRow adj etypes dir src w ∧ k ≤ w.path.length ∧ w.path.length ≤ k + n := by
  induction n generalizing k rows with
  | zero =>
      simp only [walkRounds, h w]
      constructor
      · rintro ⟨htrail, rfl⟩
        exact ⟨htrail, le_refl _, le_refl _⟩
      · rintro ⟨htrail, hle, hge⟩
        exact ⟨htrail, by omega⟩
  | succ n ih =>
      have hlevel : IsLevel adj etypes dir src (k + 1)
          (rows.flatMap (walkStep adj etypes dir maxhop)) := h.step (by omega)
      rw [walkRounds, List.mem_append, h w, ih hlevel (by push_cast at hn ⊢; omega)]
      constructor
      · rintro (⟨htrail, rfl⟩ | ⟨htrail, hle, hge⟩)
        · exact ⟨htrail, le_refl _, by omega⟩
        · exact ⟨htrail, by omega, by omega⟩
      · rintro ⟨htrail, hle, hge⟩
        rcases Nat.eq_or_lt_of_le hle with heq | hlt
        · exact .inl ⟨htrail, heq.symm⟩
        · exact .inr ⟨htrail, hlt, by omega⟩

/-- `ogVlp` lists the trails between its bounds. -/
theorem mem_ogVlp (hmax : 0 ≤ maxhop) {w : WalkRow} :
    w ∈ ogVlp adj etypes dir src minhop maxhop ↔
      IsTrailRow adj etypes dir src w ∧ minhop ≤ w.path.length ∧
        (w.path.length : Int) ≤ maxhop := by
  unfold ogVlp
  rw [List.mem_filter, mem_walkRounds isLevel_start (by omega), decide_eq_true_eq]
  constructor
  · rintro ⟨⟨htrail, -, -⟩, hlow, hhigh⟩
    rw [htrail.2] at hlow hhigh
    exact ⟨htrail, hlow, hhigh⟩
  · rintro ⟨htrail, hlow, hhigh⟩
    refine ⟨⟨htrail, Nat.zero_le _, by omega⟩, ?_⟩
    rw [htrail.2]
    exact ⟨hlow, hhigh⟩

/-- The end nodes of `ogVlp` are the ends of trails between the bounds. -/
theorem mem_ogVlp_nodes (hmax : 0 ≤ maxhop) {v : Int} :
    v ∈ (ogVlp adj etypes dir src minhop maxhop).map (·.node) ↔
      ∃ es, Trail (Arc adj etypes dir) src es v ∧ minhop ≤ es.length ∧
        (es.length : Int) ≤ maxhop := by
  rw [List.mem_map]
  constructor
  · rintro ⟨w, hw, rfl⟩
    obtain ⟨htrail, hlow, hhigh⟩ := (mem_ogVlp hmax).mp hw
    exact ⟨w.path, htrail.1, hlow, hhigh⟩
  · rintro ⟨es, htrail, hlow, hhigh⟩
    exact ⟨⟨v, es.length, es⟩, (mem_ogVlp hmax).mpr ⟨⟨htrail, rfl⟩, hlow, hhigh⟩, rfl⟩

end TrailSpec

section ReachSpec

variable {adj : List Segment} {etypes : Option (List Int)} {dir : HopDir}
  {src minhop maxhop depth : Int}

/-- What visiting a list of neighbours does to the sets the walk keeps. -/
theorem foldl_reachVisit (ns : List Int) (s : ReachState) (hsrc : src ∈ s.visited)
    (hdepth : minhop ≤ depth) {v : Int} :
    let s' := ns.foldl (reachVisit src minhop depth) s
    (v ∈ s'.visited ↔ v ∈ s.visited ∨ v ∈ ns) ∧
      (v ∈ s'.next ↔ v ∈ s.next ∨ v ∈ ns ∧ v ∉ s.visited) ∧
      (s'.startDone = true ↔ s.startDone = true ∨ src ∈ ns) ∧
      (v ∈ s'.out.map (·.1) ↔ v ∈ s.out.map (·.1) ∨ (v ∈ ns ∧ v ∉ s.visited) ∨
        v = src ∧ src ∈ ns ∧ s.startDone = false) := by
  induction ns generalizing s with
  | nil => simp
  | cons n ns ih =>
      rw [List.foldl_cons]
      by_cases hn : n ∈ s.visited
      · by_cases hstart : n = src ∧ s.startDone = false
        · obtain ⟨rfl, hdone⟩ := hstart
          have hvisit : reachVisit n minhop depth s n =
              { s with startDone := true, out := s.out ++ [(n, depth)] } := by
            simp [reachVisit, hn, hdone, hdepth]
          rw [hvisit]
          obtain ⟨h1, h2, h3, h4⟩ :=
            ih { s with startDone := true, out := s.out ++ [(n, depth)] } hsrc
          grind
        · have hvisit : reachVisit src minhop depth s n = s := by
            unfold reachVisit
            rw [if_neg (not_not.mpr hn), if_neg (fun h => hstart ⟨h.1, h.2.1⟩)]
          rw [hvisit]
          obtain ⟨h1, h2, h3, h4⟩ := ih s hsrc
          grind
      · have hvisit : reachVisit src minhop depth s n =
            { s with
              visited := n :: s.visited
              next := s.next ++ [n]
              out := s.out ++ [(n, depth)] } := by
          simp [reachVisit, hn, hdepth]
        rw [hvisit]
        obtain ⟨h1, h2, h3, h4⟩ := ih
          { s with
            visited := n :: s.visited
            next := s.next ++ [n]
            out := s.out ++ [(n, depth)] } (List.mem_cons_of_mem _ hsrc)
        grind

theorem mem_frontierNbrs (hadj : ∀ a ∈ adj, a.Aligned) {frontier : List Int} {v : Int} :
    v ∈ frontierNbrs adj etypes dir frontier ↔
      ∃ b ∈ frontier, ∃ e, Arc adj etypes dir b e v := by
  simp only [frontierNbrs, List.mem_flatMap, List.mem_filter, decide_eq_true_eq, Arc]
  constructor
  · rintro ⟨a, ⟨ha, hsrc, hwhere⟩, hv⟩
    obtain ⟨i, hi, rfl⟩ := List.mem_iff_getElem.mp hv
    have hlen : i < a.eid.length := by
      have := (hadj a ha).nbr_length
      have := (hadj a ha).eid_length
      omega
    refine ⟨a.src, hsrc, a.eid[i], a, ha, rfl, hwhere, List.mem_iff_getElem.mpr ⟨i, ?_, ?_⟩⟩
    · rw [List.length_zip]
      omega
    · simp
  · rintro ⟨b, hb, e, a, ha, rfl, hwhere, hzip⟩
    exact ⟨a, ⟨ha, hb, hwhere⟩, (List.of_mem_zip hzip).1⟩

/-- The breadth-first invariant after `d` levels. -/
structure ReachInv (adj : List Segment) (etypes : Option (List Int)) (dir : HopDir)
    (src minhop : Int) (d : Nat) (s : ReachState) : Prop where
  visited : ∀ v, v ∈ s.visited ↔ Within (Arc adj etypes dir) src d v
  frontier : ∀ v, v ∈ s.next ↔ AtDistance (Arc adj etypes dir) src d v
  out : ∀ v, v ∈ s.out.map (·.1) ↔ Hits (Arc adj etypes dir) src minhop.toNat d v
  startDone : s.startDone = true ↔ Hits (Arc adj etypes dir) src minhop.toNat d src

theorem reachInv_start : ReachInv adj etypes dir src minhop 0 (reachStart src minhop) := by
  have hhits : ∀ v, Hits (Arc adj etypes dir) src minhop.toNat 0 v ↔
      minhop ≤ 0 ∧ v = src := by
    intro v
    constructor
    · rintro ⟨es, hwalk, hlow, hlength⟩
      obtain rfl := List.length_eq_zero_iff.mp (Nat.le_zero.mp hlength)
      exact ⟨by simpa using hlow, walk_nil_iff.mp hwalk⟩
    · rintro ⟨hlow, rfl⟩
      exact ⟨[], .nil, by simpa using hlow, le_refl _⟩
  refine ⟨?_, ?_, ?_, ?_⟩
  · simp [reachStart]
  · simp [reachStart, atDistance_zero_iff]
  · intro v
    rw [hhits]
    by_cases h : minhop ≤ 0 <;> simp [reachStart, h]
  · rw [hhits]
    simp [reachStart]

/-- One level of the walk. -/
theorem ReachInv.level (hadj : ∀ a ∈ adj, a.Aligned) (hmin : minhop ≤ 1) {d : Nat}
    {s : ReachState} (h : ReachInv adj etypes dir src minhop d s) :
    ReachInv adj etypes dir src minhop (d + 1)
      (reachLevel adj etypes dir src minhop (d + 1) s) := by
  have hsrc : src ∈ s.visited :=
    (h.visited src).mpr ⟨[], .nil, Nat.zero_le _⟩
  have hnext : ∀ v, v ∈ frontierNbrs adj etypes dir s.next ↔
      ∃ b e, AtDistance (Arc adj etypes dir) src d b ∧ Arc adj etypes dir b e v := by
    intro v
    simp only [mem_frontierNbrs hadj, h.frontier]
    exact ⟨fun ⟨b, hb, e, he⟩ => ⟨b, e, hb, he⟩, fun ⟨b, e, hb, he⟩ => ⟨b, hb, e, he⟩⟩
  have hdepth : minhop ≤ (d : Int) + 1 := by omega
  have hspec := fun v => foldl_reachVisit (frontierNbrs adj etypes dir s.next)
    { s with next := [] } hsrc hdepth (v := v)
  have hlow : minhop.toNat ≤ 1 := by omega
  refine ⟨fun v => ?_, fun v => ?_, fun v => ?_, ?_⟩
  · rw [within_succ_iff, ← h.visited, ← hnext]
    exact (hspec v).1
  · rw [atDistance_succ_iff, ← h.visited, ← hnext]
    exact (hspec v).2.1.trans (by simp [and_comm])
  · rw [hits_succ_iff hlow, ← h.out, ← hnext]
    refine (hspec v).2.2.2.trans (or_congr_right' fun hout => ?_)
    constructor
    · rintro (⟨hv, -⟩ | ⟨rfl, hv, -⟩) <;> exact hv
    · intro hv
      by_cases hvis : v ∈ s.visited
      · -- An old node that was not hit can only be the start.
        by_cases hve : v = src
        · subst hve
          refine .inr ⟨rfl, hv, ?_⟩
          rw [← Bool.not_eq_true, h.startDone, ← h.out]
          exact hout
        · rw [h.out, hits_iff_within hlow (.inr hve), ← h.visited] at hout
          exact absurd hvis hout
      · exact .inl ⟨hv, hvis⟩
  · rw [hits_succ_iff hlow, ← h.startDone, ← hnext]
    exact (hspec src).2.2.1

/-- With an empty frontier nothing is left to find. -/
theorem ReachInv.of_next_nil {d : Nat} {s : ReachState}
    (hadj : ∀ a ∈ adj, a.Aligned) (hmin : minhop ≤ 1)
    (h : ReachInv adj etypes dir src minhop d s) (hnext : s.next = []) (n : Nat) :
    ReachInv adj etypes dir src minhop (d + n) s := by
  induction n with
  | zero => exact h
  | succ n ih =>
      have hlevel := ih.level hadj hmin
      have hsame : reachLevel adj etypes dir src minhop ((d + n : Nat) + 1) s = s := by
        have hnone : frontierNbrs adj etypes dir s.next = [] := by
          simp [frontierNbrs, hnext]
        rw [reachLevel, hnone, List.foldl_nil, ← hnext]
      rwa [hsame] at hlevel

theorem reachInv_loop (hadj : ∀ a ∈ adj, a.Aligned) (hmin : minhop ≤ 1) {n d : Nat}
    {s : ReachState} (h : ReachInv adj etypes dir src minhop d s) :
    ReachInv adj etypes dir src minhop (d + n)
      (reachLoop adj etypes dir src minhop n (d + 1) s) := by
  induction n generalizing d s with
  | zero => exact h
  | succ n ih =>
      unfold reachLoop
      split
      · next hnext => exact h.of_next_nil hadj hmin hnext (n + 1)
      · have hrest := ih (h.level hadj hmin)
        rw [Nat.add_assoc, Nat.add_comm 1 n] at hrest
        exact_mod_cast hrest

/-- The end nodes of `ogReach` are the ends of walks between the bounds. -/
theorem mem_ogReach_nodes (hadj : ∀ a ∈ adj, a.Aligned) (hmin : minhop ≤ 1) {v : Int} :
    v ∈ (ogReach adj etypes dir src minhop maxhop).map (·.1) ↔
      Hits (Arc adj etypes dir) src minhop.toNat maxhop.toNat v := by
  have h := reachInv_loop (n := maxhop.toNat) hadj hmin
    (reachInv_start : ReachInv adj etypes dir src minhop 0 _)
  simpa [ogReach] using h.out v

end ReachSpec

end OntologicalDb.Traverse
