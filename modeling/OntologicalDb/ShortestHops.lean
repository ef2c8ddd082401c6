import OntologicalDb.AdjacencyMirror
import OntologicalDb.ConverseWalks
import OntologicalDb.ReachEngines

/-!
The hop count between two nodes of the compiled adjacency.  Two searches advance
from either end, the smaller frontier first, until a finished level meets the other
side; the result is compared with the length of a shortest walk.
-/

namespace OntologicalDb.ShortestHops

open OntologicalDb.Adjacency
open OntologicalDb.AdjacencyMirror
open OntologicalDb.ConverseWalks
open OntologicalDb.EdgeTrails
open OntologicalDb.GraphStorage
open OntologicalDb.PackedArrays
open OntologicalDb.ReachEngines
open OntologicalDb.Traverse

section Model

/-- The sum of two `int4` values, wrapped around. -/
def addInt4 (a b : Int) : Int := (a + b + 2 ^ 31) % 2 ^ 32 - 2 ^ 31

/-- The variables of one level. -/
structure LevelState where
  near : List Int
  next : List Nat
  best : Int
deriving DecidableEq

/-- One neighbour of a frontier node `dn` hops away. -/
def levelVisit (far : List Int) (dn : Int) (s : LevelState) (m : Nat) : LevelState :=
  let near := if s.near.getD m 0 < 0 then s.near.set m (addInt4 dn 1) else s.near
  { near := near
    next := if s.near.getD m 0 < 0 then s.next ++ [m] else s.next
    best := if 0 ≤ far.getD m 0 then min s.best (addInt4 (near.getD m 0) (far.getD m 0))
      else s.best }

def levelNode (adj : Buckets) (far : List Int) (maxhop : Int) (s : LevelState) (n : Nat) :
    LevelState :=
  let dn := s.near.getD n 0
  if maxhop ≤ dn then s else (adj.get n).foldl (levelVisit far dn) s

/-- One level of the search from one side, and the best meeting found in it. -/
def level (adj : Buckets) (frontier : List Nat) (near far : List Int) (maxhop : Int) :
    LevelState :=
  frontier.foldl (levelNode adj far maxhop) ⟨near, [], maxInt4⟩

/-- The distances from both ends, `-1` where unseen, and both frontiers. -/
structure HopsState where
  ds : List Int
  dd : List Int
  fs : List Nat
  fd : List Nat
deriving DecidableEq

def hopsLoop (g : Csr) (maxhop : Int) : Nat → HopsState → Option Int
  | 0, _ => none
  | n + 1, st =>
      if st.fs = [] ∨ st.fd = [] then none
      else if st.fs.length ≤ st.fd.length then
        let l := level g.fwd st.fs st.ds st.dd maxhop
        if l.best ≤ maxhop then some l.best
        else hopsLoop g maxhop n { st with ds := l.near, fs := l.next }
      else
        let l := level g.rev st.fd st.dd st.ds maxhop
        if l.best ≤ maxhop then some l.best
        else hopsLoop g maxhop n { st with dd := l.near, fd := l.next }

def hopsStart (g : Csr) (s d : Nat) : HopsState where
  ds := (List.replicate g.ids.length (-1)).set s 0
  dd := (List.replicate g.ids.length (-1)).set d 0
  fs := [s]
  fd := [d]

/-- Hop count of the shortest path inside the arrays the backend holds. -/
def ogCsrHops (held : Option Csr) (src dst maxhop : Int) : Except String (Option Int) :=
  match held with
  | none => .error "no compiled graph in this backend — call og_csr_build() first"
  | some g =>
      match g.indexOf src, g.indexOf dst with
      | some s, some d =>
          if s = d then .ok (some 0)
          -- Every level but a side's last one numbers a new position of that side.
          else .ok (hopsLoop g maxhop (2 * g.ids.length) (hopsStart g s d))
      | _, _ => .ok none

end Model

section Level

variable {far : List Int} {dn : Int}

theorem addInt4_eq {a b : Int} (hlow : -2 ^ 31 ≤ a + b) (hhigh : a + b ≤ maxInt4) :
    addInt4 a b = a + b := by
  unfold addInt4 maxInt4 at *
  omega

theorem getD_set {xs : List Int} {m v : Nat} {x : Int} (hm : m < xs.length) :
    (xs.set m x).getD v 0 = if v = m then x else xs.getD v 0 := by
  simp only [List.getD_eq_getElem?_getD, List.getElem?_set]
  rcases Nat.decEq m v with hne | rfl
  · rw [if_neg hne, if_neg fun h => hne h.symm]
  · simp [hm]

@[simp] theorem length_levelVisit {s : LevelState} {m : Nat} :
    (levelVisit far dn s m).near.length = s.near.length := by
  simp only [levelVisit]
  split <;> simp

theorem getD_levelVisit {s : LevelState} {m v : Nat} (hm : m < s.near.length) :
    (levelVisit far dn s m).near.getD v 0 =
      if v = m ∧ s.near.getD m 0 < 0 then addInt4 dn 1 else s.near.getD v 0 := by
  simp only [levelVisit]
  rcases Int.lt_or_le (s.near.getD m 0) 0 with hneg | hpos
  · rw [if_pos hneg, getD_set hm]
    simp only [hneg, and_true]
  · rw [if_neg (by omega), if_neg (by omega)]

/-- What visiting a list of neighbours does to the variables of a level. -/
structure Visited (far : List Int) (dn : Int) (ms : List Nat) (s s' : LevelState) : Prop where
  length : s'.near.length = s.near.length
  near : ∀ v, s'.near.getD v 0 =
    if v ∈ ms ∧ s.near.getD v 0 < 0 then addInt4 dn 1 else s.near.getD v 0
  next : ∀ v, v ∈ s'.next ↔ v ∈ s.next ∨ v ∈ ms ∧ s.near.getD v 0 < 0
  best_le : s'.best ≤ s.best
  best_le_sum : ∀ m ∈ ms, 0 ≤ far.getD m 0 →
    s'.best ≤ addInt4 (s'.near.getD m 0) (far.getD m 0)
  best_eq : s'.best = s.best ∨ ∃ m ∈ ms, 0 ≤ far.getD m 0 ∧
    s'.best = addInt4 (s'.near.getD m 0) (far.getD m 0)

theorem visited_foldl (hdn : 0 ≤ addInt4 dn 1) {ms : List Nat} {s : LevelState}
    (hms : ∀ m ∈ ms, m < s.near.length) :
    Visited far dn ms s (ms.foldl (levelVisit far dn) s) := by
  induction ms generalizing s with
  | nil =>
      refine ⟨rfl, fun v => ?_, fun v => ?_, le_refl _, ?_, .inl rfl⟩
      · simp
      · simp
      · simp
  | cons m ms ih =>
      have hm : m < s.near.length := hms m List.mem_cons_self
      have hnear : ∀ v, (levelVisit far dn s m).near.getD v 0 =
          if v = m ∧ s.near.getD m 0 < 0 then addInt4 dn 1 else s.near.getD v 0 :=
        fun v => getD_levelVisit hm
      have hrest := ih (s := levelVisit far dn s m) fun x hx => by
        rw [length_levelVisit]
        exact hms x (List.mem_cons_of_mem _ hx)
      have hsum : 0 ≤ far.getD m 0 → (levelVisit far dn s m).best ≤
          addInt4 ((levelVisit far dn s m).near.getD m 0) (far.getD m 0) := by
        intro hfar
        simp only [levelVisit, if_pos hfar]
        exact min_le_right _ _
      -- A position numbered once keeps its number.
      have hkeep : (ms.foldl (levelVisit far dn) (levelVisit far dn s m)).near.getD m 0 =
          (levelVisit far dn s m).near.getD m 0 := by
        rw [hrest.near m, if_neg]
        rintro ⟨-, hneg⟩
        rw [hnear m] at hneg
        split at hneg <;> omega
      rw [List.foldl_cons]
      refine ⟨?_, fun v => ?_, fun v => ?_, ?_, ?_, ?_⟩
      · rw [hrest.length, length_levelVisit]
      · rw [hrest.near v, hnear v]
        grind
      · rw [hrest.next v, hnear v]
        simp only [levelVisit]
        grind
      · refine le_trans hrest.best_le ?_
        simp only [levelVisit]
        split
        · exact min_le_left _ _
        · exact le_refl _
      · intro x hx hfar
        rcases List.mem_cons.mp hx with rfl | hx
        · rw [hkeep]
          exact le_trans hrest.best_le (hsum hfar)
        · exact hrest.best_le_sum x hx hfar
      · rcases hrest.best_eq with heq | ⟨x, hx, hfar, heq⟩
        · rcases Int.lt_or_le (far.getD m 0) 0 with hneg | hfar
          · refine .inl (heq.trans ?_)
            simp only [levelVisit]
            exact if_neg (by omega)
          · have hbest : (levelVisit far dn s m).best = min s.best
                (addInt4 ((levelVisit far dn s m).near.getD m 0) (far.getD m 0)) := by
              simp only [levelVisit, if_pos hfar]
            rcases min_choice s.best
              (addInt4 ((levelVisit far dn s m).near.getD m 0) (far.getD m 0)) with hmin | hmin
            · exact .inl (heq.trans (hbest.trans hmin))
            · refine .inr ⟨m, List.mem_cons_self, hfar, ?_⟩
              rw [hkeep]
              exact heq.trans (hbest.trans hmin)
        · exact .inr ⟨x, List.mem_cons_of_mem _ hx, hfar, heq⟩

/-- A level whose frontier is `dn` hops away visits all its neighbours in turn. -/
theorem foldl_levelNode {adj : Buckets} {maxhop : Int} {F : List Nat} {s : LevelState}
    (hdn : 0 ≤ dn) (hmax : dn < maxhop) (hstep : 0 ≤ addInt4 dn 1)
    (hF : ∀ n ∈ F, s.near.getD n 0 = dn)
    (hadj : ∀ n ∈ F, ∀ m ∈ adj.get n, m < s.near.length) :
    F.foldl (levelNode adj far maxhop) s =
      (F.flatMap adj.get).foldl (levelVisit far dn) s := by
  induction F generalizing s with
  | nil => rfl
  | cons n F ih =>
      have hnode : levelNode adj far maxhop s n = (adj.get n).foldl (levelVisit far dn) s := by
        simp only [levelNode, hF n List.mem_cons_self]
        exact if_neg (by omega)
      have hvisited : Visited far dn (adj.get n) s ((adj.get n).foldl (levelVisit far dn) s) :=
        visited_foldl hstep (hadj n List.mem_cons_self)
      rw [List.foldl_cons, hnode, List.flatMap_cons, List.foldl_append]
      refine ih (fun x hx => ?_) fun x hx m hm => ?_
      · have hval := hF x (List.mem_cons_of_mem _ hx)
        rw [hvisited.near x, if_neg (by omega), hval]
      · rw [hvisited.length]
        exact hadj x (List.mem_cons_of_mem _ hx) m hm

/-- A frontier at the limit is not expanded. -/
theorem foldl_levelNode_of_le {adj : Buckets} {maxhop : Int} {F : List Nat} {s : LevelState}
    (hF : ∀ n ∈ F, maxhop ≤ s.near.getD n 0) : F.foldl (levelNode adj far maxhop) s = s := by
  induction F with
  | nil => rfl
  | cons n F ih =>
      have hnode : levelNode adj far maxhop s n = s := by
        simp only [levelNode]
        exact if_pos (hF n List.mem_cons_self)
      rw [List.foldl_cons, hnode]
      exact ih fun x hx => hF x (List.mem_cons_of_mem _ hx)

end Level

section Sides

/-- A position lists another one. -/
def Lists (b : Buckets) (v : Nat) (_ : Unit) (w : Nat) : Prop := w ∈ b.get v

/-- A side that has finished `a` levels: the distances up to `a`, and the frontier. -/
structure Near (arc : Nat → Unit → Nat → Prop) (N s a : Nat) (near : List Int)
    (F : List Nat) : Prop where
  length : near.length = N
  seen : ∀ v k, AtDistance arc s k v → k ≤ a → near.getD v 0 = k
  unseen : ∀ v < N, ¬ Within arc s a v → near.getD v 0 = -1
  frontier : ∀ v, v ∈ F ↔ AtDistance arc s a v

variable {arc : Nat → Unit → Nat → Prop} {N s d a b : Nat} {near far : List Int}
  {F G : List Nat} {maxhop : Int}

theorem Near.exists_of_nonneg (h : Near arc N s a near F) {v : Nat} (hv : v < N)
    (hpos : 0 ≤ near.getD v 0) :
    ∃ k ≤ a, AtDistance arc s k v ∧ near.getD v 0 = k := by
  rcases Classical.em (Within arc s a v) with hin | hout
  · rcases exists_atDistance hin with ⟨k, hk, hdist⟩
    exact ⟨k, hk, hdist, h.seen v k hdist hk⟩
  · have := h.unseen v hv hout
    omega

theorem near_start (hs : s < N) : Near arc N s 0 ((List.replicate N (-1)).set s 0) [s] := by
  have hget : ∀ v, ((List.replicate N (-1 : Int)).set s 0).getD v 0 =
      if v = s then 0 else (List.replicate N (-1)).getD v 0 :=
    fun v => getD_set (by simpa using hs)
  refine ⟨by simp, fun v k hdist hk => ?_, fun v hv hout => ?_, fun v => ?_⟩
  · obtain rfl := Nat.le_zero.mp hk
    rw [hget v, if_pos (atDistance_zero_iff.mp hdist)]
    rfl
  · have hne : v ≠ s := fun heq => hout (within_zero_iff.mpr heq)
    rw [hget v, if_neg hne, List.getD_eq_getElem _ _ (by simpa using hv)]
    simp
  · rw [List.mem_singleton, atDistance_zero_iff]

/-- What one level from one side finds: the next distances, and as the best meeting
the length of some walk through both sides, or nothing. -/
structure Leveled (arc : Nat → Unit → Nat → Prop) (N s d a b : Nat) (far : List Int)
    (l : LevelState) : Prop where
  near : Near arc N s (a + 1) l.near l.next
  best_le : ∀ m, AtDistance arc s (a + 1) m → AtDistance (Converse arc) d b m →
    l.best ≤ addInt4 (a + 1 : Nat) b
  best_eq : l.best = maxInt4 ∨ ∃ j k m, j ≤ a + 1 ∧ k ≤ b ∧ AtDistance arc s j m ∧
    AtDistance (Converse arc) d k m ∧ l.best = addInt4 j k

/-- A finished level numbers the nodes one hop further. -/
theorem Near.next {l : LevelState} {ms : List Nat} (h : Near arc N s a near F)
    (hms : ∀ m, m ∈ ms ↔ ∃ n, AtDistance arc s a n ∧ arc n () m)
    (hstep : addInt4 a 1 = (a + 1 : Nat))
    (hvisited : Visited far a ms ⟨near, [], maxInt4⟩ l) (hN : ∀ m ∈ ms, m < N) :
    Near arc N s (a + 1) l.near l.next := by
  have hnew : ∀ v, v ∈ ms ∧ near.getD v 0 < 0 ↔ AtDistance arc s (a + 1) v := by
    intro v
    rw [hms v, atDistance_succ_iff]
    constructor
    · rintro ⟨⟨n, hn, harc⟩, hneg⟩
      refine ⟨fun hin => ?_, n, (), hn, harc⟩
      rcases exists_atDistance hin with ⟨k, hk, hdist⟩
      have := h.seen v k hdist hk
      omega
    · rintro ⟨hout, n, _, hn, harc⟩
      have hmem := (hms v).mpr ⟨n, hn, harc⟩
      have := h.unseen v (hN v hmem) hout
      exact ⟨⟨n, hn, harc⟩, by omega⟩
  refine ⟨hvisited.length.trans h.length, fun v k hdist hk => ?_, fun v hv hout => ?_,
    fun v => ?_⟩
  · rw [hvisited.near v]
    rcases Nat.lt_or_eq_of_le hk with hlt | rfl
    · have hval := h.seen v k hdist (by omega)
      rw [if_neg (by rintro ⟨-, hneg⟩; dsimp only at hneg; omega)]
      exact hval
    · rw [if_pos ((hnew v).mpr hdist)]
      exact hstep
  · rw [hvisited.near v, if_neg fun hmem => hout ((hnew v).mp hmem).1]
    exact h.unseen v hv fun hin => hout (hin.mono a.le_succ)
  · rw [hvisited.next v, ← hnew v]
    simp

theorem level_leveled {adj : Buckets} (h : Near (Lists adj) N s a near F)
    (hfar : Near (Converse (Lists adj)) N d b far G)
    (htargets : ∀ v w, w ∈ adj.get v → w < N) (ha : (a : Int) < maxhop)
    (hmax : maxhop ≤ maxInt4) :
    Leveled (Lists adj) N s d a b far (level adj F near far maxhop) := by
  have hmaxInt4 : maxInt4 = 2 ^ 31 - 1 := rfl
  have hstep : addInt4 a 1 = (a + 1 : Nat) := by
    rw [addInt4_eq (by omega) (by omega)]
    rfl
  have hlevel : level adj F near far maxhop =
      (F.flatMap adj.get).foldl (levelVisit far a) ⟨near, [], maxInt4⟩ :=
    foldl_levelNode (by omega) ha (by omega)
      (fun n hn => h.seen n a ((h.frontier n).mp hn) (le_refl a))
      fun n _ m hm => by
        rw [h.length]
        exact htargets n m hm
  have hms : ∀ m, m ∈ F.flatMap adj.get ↔
      ∃ n, AtDistance (Lists adj) s a n ∧ Lists adj n () m := by
    intro m
    rw [List.mem_flatMap]
    exact exists_congr fun n => and_congr_left' (h.frontier n)
  have hN : ∀ m ∈ F.flatMap adj.get, m < N := by
    intro m hm
    rcases (hms m).mp hm with ⟨n, -, harc⟩
    exact htargets n m harc
  have hvisited : Visited far a (F.flatMap adj.get) ⟨near, [], maxInt4⟩
      (level adj F near far maxhop) := by
    rw [hlevel]
    refine visited_foldl (by omega) fun m hm => ?_
    rw [h.length]
    exact hN m hm
  have hnext := h.next hms hstep hvisited hN
  refine ⟨hnext, fun m hm hmeet => ?_, ?_⟩
  · rcases (atDistance_succ_iff.mp hm).2 with ⟨n, _, hn, harc⟩
    have hval := hfar.seen m b hmeet (le_refl b)
    have hle := hvisited.best_le_sum m ((hms m).mpr ⟨n, hn, harc⟩) (by omega)
    rwa [hval, hnext.seen m (a + 1) hm (le_refl _)] at hle
  · refine hvisited.best_eq.imp id ?_
    rintro ⟨m, hm, hpos, hbest⟩
    rcases hfar.exists_of_nonneg (hN m hm) hpos with ⟨k, hk, hmeet, hval⟩
    rcases (hms m).mp hm with ⟨n, hn, harc⟩
    rcases exists_atDistance (hn.1.snoc harc) with ⟨j, hj, hdist⟩
    refine ⟨j, k, m, hj, hk, hdist, hmeet, ?_⟩
    rw [hbest, hval, hnext.seen m j hdist hj]

end Sides

section Meetings

variable {arc : Nat → Unit → Nat → Prop} {N s d a b : Nat} {far : List Int} {l : LevelState}
  {maxhop : Int}

/-- The level that completes a shortest walk finds its length. -/
theorem Leveled.best_of_atDistance (h : Leveled arc N s d a b far l)
    (hdist : AtDistance arc s (a + 1 + b) d) (hmax : ((a + 1 + b : Nat) : Int) ≤ maxInt4) :
    l.best = (a + 1 + b : Nat) := by
  refine le_antisymm ?_ ?_
  · rcases exists_meeting hdist with ⟨m, hm, hmeet⟩
    have hle := h.best_le m hm hmeet
    rw [addInt4_eq (by omega) (by omega)] at hle
    omega
  · rcases h.best_eq with hbest | ⟨j, k, m, hj, hk, hm, hmeet, hbest⟩
    · rwa [hbest]
    · have hwithin := within_of_meeting hm.1 hmeet.1
      have hleast : a + 1 + b ≤ j + k := by
        rcases Nat.lt_or_ge (j + k) (a + 1 + b) with hlt | hge
        · exact absurd hwithin (hdist.2 _ hlt)
        · exact hge
      rw [hbest, addInt4_eq (by omega) (by omega)]
      omega

/-- A level before that finds nothing. -/
theorem Leveled.best_of_not_within (h : Leveled arc N s d a b far l)
    (hout : ¬ Within arc s (a + 1 + b) d) : l.best = maxInt4 := by
  rcases h.best_eq with hbest | ⟨j, k, m, hj, hk, hm, hmeet, -⟩
  · exact hbest
  · exact absurd ((within_of_meeting hm.1 hmeet.1).mono (by omega)) hout

/-- Without a walk within the limit no meeting is within the limit. -/
theorem Leveled.lt_best (h : Leveled arc N s d a b far l)
    (hno : ∀ n : Nat, Within arc s n d → maxhop < n) (hmax : maxhop < maxInt4)
    (hroom : ∀ j k m, j ≤ a + 1 → k ≤ b → AtDistance arc s j m →
      AtDistance (Converse arc) d k m → ((j + k : Nat) : Int) ≤ maxInt4) :
    maxhop < l.best := by
  rcases h.best_eq with hbest | ⟨j, k, m, hj, hk, hm, hmeet, hbest⟩
  · rwa [hbest]
  · have hsum := hroom j k m hj hk hm hmeet
    have hlong := hno (j + k) (within_of_meeting hm.1 hmeet.1)
    rw [hbest, addInt4_eq (by omega) (by omega)]
    omega

end Meetings

section Search

/-- Both array sets list positions, and the reverse one the converse arcs. -/
structure Transposed (g : Csr) : Prop where
  targets : ∀ v w, w ∈ g.fwd.get v → v < g.ids.length ∧ w < g.ids.length
  converse : Lists g.rev = Converse (Lists g.fwd)

/-- Both sides of the search have finished some levels. -/
structure Searched (g : Csr) (s d a b : Nat) (st : HopsState) : Prop where
  fwd : Near (Lists g.fwd) g.ids.length s a st.ds st.fs
  rev : Near (Converse (Lists g.fwd)) g.ids.length d b st.dd st.fd

variable {g : Csr} {s d a b n : Nat} {st : HopsState} {maxhop : Int}

theorem searched_start (hs : s < g.ids.length) (hd : d < g.ids.length) :
    Searched g s d 0 0 (hopsStart g s d) := ⟨near_start hs, near_start hd⟩

theorem Searched.level_fwd (h : Searched g s d a b st) (hg : Transposed g)
    (ha : (a : Int) < maxhop) (hmax : maxhop ≤ maxInt4) :
    Leveled (Lists g.fwd) g.ids.length s d a b st.dd (level g.fwd st.fs st.ds st.dd maxhop) :=
  level_leveled h.fwd h.rev (fun v w hw => (hg.targets v w hw).2) ha hmax

theorem Searched.level_rev (h : Searched g s d a b st) (hg : Transposed g)
    (hb : (b : Int) < maxhop) (hmax : maxhop ≤ maxInt4) :
    Leveled (Converse (Lists g.fwd)) g.ids.length d s b a st.ds
      (level g.rev st.fd st.dd st.ds maxhop) := by
  have hnear := h.rev
  have hfar : Near (Converse (Lists g.rev)) g.ids.length s a st.ds st.fs := by
    rw [hg.converse]
    exact h.fwd
  rw [← hg.converse] at hnear ⊢
  refine level_leveled hnear hfar (fun v w hw => ?_) hb hmax
  have harc : Converse (Lists g.fwd) v () w := hg.converse ▸ hw
  exact (hg.targets w v harc).1

/-- The search ends with the length of a shortest walk within the limit. -/
theorem hopsLoop_of_atDistance (hg : Transposed g) {k : Nat}
    (hdist : AtDistance (Lists g.fwd) s k d) (hk : (k : Int) ≤ maxhop)
    (hmax : maxhop < maxInt4) (h : Searched g s d a b st)
    (hlt : a + b < k) (hn : k ≤ a + b + n) : hopsLoop g maxhop n st = some (k : Int) := by
  induction n generalizing a b st with
  | zero => omega
  | succ n ih =>
      have hfs : st.fs ≠ [] := by
        rcases exists_meeting (j := a) (k := k - a) (by rwa [Nat.add_sub_cancel' (by omega)])
          with ⟨m, hm, -⟩
        exact List.ne_nil_of_mem ((h.fwd.frontier m).mpr hm)
      have hfd : st.fd ≠ [] := by
        rcases exists_meeting (j := k - b) (k := b) (by rwa [Nat.sub_add_cancel (by omega)])
          with ⟨m, -, hm⟩
        exact List.ne_nil_of_mem ((h.rev.frontier m).mpr hm)
      rw [hopsLoop, if_neg (not_or.mpr ⟨hfs, hfd⟩)]
      dsimp only
      split
      · have hl := h.level_fwd hg (by omega) hmax.le
        rcases Nat.lt_or_ge (a + 1 + b) k with hnot | hge
        · rw [hl.best_of_not_within (hdist.2 _ hnot), if_neg (by omega)]
          exact ih ⟨hl.near, h.rev⟩ hnot (by omega)
        · obtain rfl : k = a + 1 + b := by omega
          rw [hl.best_of_atDistance hdist (by omega), if_pos hk]
      · have hl := h.level_rev hg (by omega) hmax.le
        have hback := atDistance_converse_iff.mpr hdist
        rcases Nat.lt_or_ge (b + 1 + a) k with hnot | hge
        · rw [hl.best_of_not_within (hback.2 _ hnot), if_neg (by omega)]
          exact ih ⟨h.fwd, hl.near⟩ (by omega) (by omega)
        · obtain rfl : k = b + 1 + a := by omega
          rw [hl.best_of_atDistance hback (by omega), if_pos hk]

theorem hopsLoop_of_nil (h : st.fs = [] ∨ st.fd = []) : hopsLoop g maxhop n st = none := by
  cases n with
  | zero => rfl
  | succ n => exact if_pos h

/-- Without a walk within the limit the search ends with nothing, provided the sum
of two distances is an `int4`. -/
theorem hopsLoop_of_not_within (hg : Transposed g) (hs : s < g.ids.length)
    (hd : d < g.ids.length)
    (hno : ∀ n : Nat, Within (Lists g.fwd) s n d → maxhop < n) (hmax : maxhop < maxInt4)
    (hroom : maxhop < 2 ^ 30 ∨ g.ids.length ≤ 2 ^ 30) (h : Searched g s d a b st)
    (ha : (a : Int) ≤ maxhop) (hb : (b : Int) ≤ maxhop) : hopsLoop g maxhop n st = none := by
  have hmaxInt4 : maxInt4 = 2 ^ 31 - 1 := rfl
  have hfwdN : ∀ {j m}, AtDistance (Lists g.fwd) s j m → j < g.ids.length :=
    AtDistance.lt_of_bounded hs fun v _ w hw => (hg.targets v w hw).2
  have hrevN : ∀ {k m}, AtDistance (Converse (Lists g.fwd)) d k m → k < g.ids.length :=
    AtDistance.lt_of_bounded hd fun v _ w hw => (hg.targets w v hw).1
  induction n generalizing a b st with
  | zero => rfl
  | succ n ih =>
      rw [hopsLoop]
      dsimp only
      split
      · rfl
      · split
        · rcases Int.lt_or_le a maxhop with hlt | hle
          · have hl := h.level_fwd hg hlt hmax.le
            have hbest := hl.lt_best hno hmax fun j k m hj hk hm hmeet => by
              have := hfwdN hm
              have := hrevN hmeet
              omega
            rw [if_neg (by omega)]
            exact ih ⟨hl.near, h.rev⟩ (by omega) hb
          · have hl : level g.fwd st.fs st.ds st.dd maxhop = ⟨st.ds, [], maxInt4⟩ :=
              foldl_levelNode_of_le fun n hn => by
                rw [h.fwd.seen n a ((h.fwd.frontier n).mp hn) (le_refl a)]
                exact hle
            rw [hl, if_neg (not_le.mpr hmax)]
            exact hopsLoop_of_nil (.inl rfl)
        · rcases Int.lt_or_le b maxhop with hlt | hle
          · have hl := h.level_rev hg hlt hmax.le
            have hback : ∀ n : Nat, Within (Converse (Lists g.fwd)) d n s → maxhop < n :=
              fun n hn => hno n (within_converse_iff.mp hn)
            have hbest := hl.lt_best hback hmax fun j k m hj hk hm hmeet => by
              have := hrevN hm
              have := hfwdN hmeet
              omega
            rw [if_neg (by omega)]
            exact ih ⟨h.fwd, hl.near⟩ ha (by omega)
          · have hl : level g.rev st.fd st.dd st.ds maxhop = ⟨st.dd, [], maxInt4⟩ :=
              foldl_levelNode_of_le fun n hn => by
                rw [h.rev.seen n b ((h.rev.frontier n).mp hn) (le_refl b)]
                exact hle
            rw [hl, if_neg (not_le.mpr hmax)]
            exact hopsLoop_of_nil (.inr rfl)

/-- At the largest limit the first level is the last: it answers with the value that
stands for no meeting, unless the ends are one hop apart. -/
theorem hopsLoop_maxInt4 (hg : Transposed g) (hs : s < g.ids.length)
    (hd : d < g.ids.length) (hne : d ≠ s) :
    hopsLoop g maxInt4 (n + 1) (hopsStart g s d) = some maxInt4 ∧
        ¬ AtDistance (Lists g.fwd) s 1 d ∨
      hopsLoop g maxInt4 (n + 1) (hopsStart g s d) = some 1 ∧
        AtDistance (Lists g.fwd) s 1 d := by
  have hl : Leveled (Lists g.fwd) g.ids.length s d 0 0 (hopsStart g s d).dd
      (level g.fwd (hopsStart g s d).fs (hopsStart g s d).ds (hopsStart g s d).dd maxInt4) :=
    (searched_start hs hd).level_fwd hg (by decide) (le_refl _)
  rw [hopsLoop, if_neg (by simp [hopsStart]), if_pos (by simp [hopsStart])]
  dsimp only
  rcases Classical.em (Within (Lists g.fwd) s 1 d) with hin | hout
  · have hdist : AtDistance (Lists g.fwd) s 1 d := by
      refine ⟨hin, fun k hk hwithin => hne ?_⟩
      obtain rfl : k = 0 := by omega
      exact within_zero_iff.mp hwithin
    rw [hl.best_of_atDistance hdist (by decide), if_pos (by decide)]
    exact .inr ⟨rfl, hdist⟩
  · rw [hl.best_of_not_within hout, if_pos (le_refl _)]
    exact .inl ⟨rfl, fun hdist => hout hdist.1⟩

end Search

section Positions

variable {adj : List Segment} {etypes : Option (List Int)} {dir : HopDir} {v w src dst : Int}

/-- Every listed neighbour lists the node back in the other direction. -/
def Mirrored (adj : List Segment) : Prop :=
  ∀ a ∈ adj, ∀ w ∈ a.nbr, ∃ b ∈ adj, b.src = w ∧ b.etype = a.etype ∧ b.dir ≠ a.dir ∧
    a.src ∈ b.nbr

theorem admits_flip {d d' : Dir} (hne : d' ≠ d) (h : dir.Admits d) :
    (ReachEngines.flip dir).Admits d' := by
  cases dir <;> cases d <;> cases d' <;> simp_all [ReachEngines.flip, HopDir.Admits]

theorem step_flip (h : Mirrored adj) (hstep : Step adj etypes dir v () w) :
    Step adj etypes (ReachEngines.flip dir) w () v := by
  rcases hstep with ⟨a, ha, rfl, ⟨hdir, htypes⟩, hw⟩
  rcases h a ha w hw with ⟨b, hb, hsrc, hetype, hne, hback⟩
  refine ⟨b, hb, hsrc, ⟨admits_flip hne hdir, fun ts hts => ?_⟩, hback⟩
  rw [hetype]
  exact htypes ts hts

theorem flip_flip : ReachEngines.flip (ReachEngines.flip dir) = dir := by
  cases dir <;> rfl

/-- The packed pairs of a direction are its steps between packed nodes. -/
theorem mem_packEdges_compile {m t : Nat} {want : HopDir} :
    (m, t) ∈ packEdges (compile adj etypes dir).ids (admitted adj etypes) want ↔
      m < (compile adj etypes dir).ids.length ∧ t < (compile adj etypes dir).ids.length ∧
        Step adj etypes want ((compile adj etypes dir).idAt m) ()
          ((compile adj etypes dir).idAt t) := by
  constructor
  · intro hmem
    have hlt := packEdges_lt hmem
    refine ⟨hlt.1, hlt.2, ?_⟩
    rcases mem_packEdges.mp hmem with ⟨a, ha, hdir, nbr, hnbr, he⟩
    rcases Prod.mk.inj he with ⟨rfl, rfl⟩
    rcases List.mem_filter.mp ha with ⟨ha, hwhere⟩
    have hwhere := of_decide_eq_true hwhere
    rw [Csr.idAt_idxOf (mem_ids_compile.mpr ⟨a, ha, hwhere, .inl rfl⟩),
      Csr.idAt_idxOf (mem_ids_compile.mpr ⟨a, ha, hwhere, .inr hnbr⟩)]
    exact ⟨a, ha, rfl, ⟨hdir, hwhere.2⟩, hnbr⟩
  · rintro ⟨hm, ht, a, ha, hsrc, hwhere, hnbr⟩
    have hboth : AdjWhere .b etypes a := ⟨trivial, hwhere.2⟩
    refine mem_packEdges.mpr ⟨a, List.mem_filter.mpr ⟨ha, decide_eq_true hboth⟩, hwhere.1,
      _, hnbr, ?_⟩
    rw [hsrc, sound_compile.idxOf_idAt hm, sound_compile.idxOf_idAt ht]

theorem lists_fwd_compile {m t : Nat} :
    Lists (compile adj etypes dir).fwd m () t ↔
      m < (compile adj etypes dir).ids.length ∧ t < (compile adj etypes dir).ids.length ∧
        Step adj etypes dir ((compile adj etypes dir).idAt m) ()
          ((compile adj etypes dir).idAt t) :=
  mem_fwd_compile.trans mem_packEdges_compile

theorem lists_rev_compile {m t : Nat} :
    Lists (compile adj etypes dir).rev m () t ↔
      m < (compile adj etypes dir).ids.length ∧ t < (compile adj etypes dir).ids.length ∧
        Step adj etypes (ReachEngines.flip dir) ((compile adj etypes dir).idAt m) ()
          ((compile adj etypes dir).idAt t) := by
  have hlt : ∀ e ∈ packEdges (compile adj etypes dir).ids (admitted adj etypes)
      (ReachEngines.flip dir), e.1 < (compile adj etypes dir).ids.length :=
    fun _ he => (packEdges_lt he).1
  have hget : (compile adj etypes dir).rev.get m =
      bucket (packEdges (compile adj etypes dir).ids (admitted adj etypes)
        (ReachEngines.flip dir)) m :=
    get_pack hlt
  rw [← mem_packEdges_compile, Lists, hget, bucket, List.mem_map]
  constructor
  · rintro ⟨e, he, rfl⟩
    rcases List.mem_filter.mp he with ⟨hmem, hm⟩
    obtain rfl := of_decide_eq_true hm
    exact hmem
  · intro he
    exact ⟨(m, t), List.mem_filter.mpr ⟨he, decide_eq_true rfl⟩, rfl⟩

theorem transposed_compile (h : Mirrored adj) : Transposed (compile adj etypes dir) where
  targets := fun v w hw => by
    have hstep := lists_fwd_compile.mp hw
    exact ⟨hstep.1, hstep.2.1⟩
  converse := by
    funext m u t
    refine propext ?_
    show Lists _ m () t ↔ Lists _ t () m
    rw [lists_rev_compile, lists_fwd_compile]
    constructor
    · rintro ⟨hm, ht, hstep⟩
      have hback := step_flip h hstep
      rw [flip_flip] at hback
      exact ⟨ht, hm, hback⟩
    · rintro ⟨ht, hm, hstep⟩
      exact ⟨hm, ht, step_flip h hstep⟩

theorem walk_idAt {m t : Nat} {es : List Unit}
    (h : Walk (Lists (compile adj etypes dir).fwd) m es t) :
    Walk (Step adj etypes dir) ((compile adj etypes dir).idAt m) es
      ((compile adj etypes dir).idAt t) := by
  induction h with
  | nil => exact .nil
  | snoc _ harc ih => exact .snoc ih (lists_fwd_compile.mp harc).2.2

/-- Walks between packed nodes are walks between their positions. -/
theorem within_positions {k : Nat} (hsrc : src ∈ (compile adj etypes dir).ids)
    (hdst : dst ∈ (compile adj etypes dir).ids) :
    Within (Lists (compile adj etypes dir).fwd) ((compile adj etypes dir).ids.idxOf src) k
        ((compile adj etypes dir).ids.idxOf dst) ↔
      Within (Step adj etypes dir) src k dst := by
  constructor
  · rintro ⟨es, hwalk, hlength⟩
    have hids := walk_idAt hwalk
    rw [Csr.idAt_idxOf hsrc, Csr.idAt_idxOf hdst] at hids
    exact ⟨es, hids, hlength⟩
  · rintro ⟨es, hwalk, hlength⟩
    refine ⟨es, ?_, hlength⟩
    clear hlength
    induction hwalk with
    | nil => exact .nil
    | @snoc es b c e hwalk harc ih =>
        have hb : b ∈ (compile adj etypes dir).ids := by
          rcases harc with ⟨a, ha, hsrc, hwhere, -⟩
          exact mem_ids_compile.mpr ⟨a, ha, ⟨trivial, hwhere.2⟩, .inl hsrc.symm⟩
        refine .snoc (ih hb) (lists_fwd_compile.mpr ?_)
        rw [Csr.idAt_idxOf hb, Csr.idAt_idxOf hdst]
        exact ⟨List.idxOf_lt_length_of_mem hb, List.idxOf_lt_length_of_mem hdst, harc⟩

end Positions

/-- The search answers with the length of a shortest walk within the limit, and with
nothing exactly when there is no such walk. -/
structure Shortest (adj : List Segment) (etypes : Option (List Int)) (dir : HopDir)
    (src dst maxhop : Int) : Prop where
  some_iff : ∀ k : Int, ogCsrHops (ogCsrBuild adj etypes dir) src dst maxhop = .ok (some k) ↔
    ∃ n : Nat, (n : Int) = k ∧ AtDistance (Step adj etypes dir) src n dst ∧ k ≤ maxhop
  none_iff : ogCsrHops (ogCsrBuild adj etypes dir) src dst maxhop = .ok none ↔
    ∀ n : Nat, Within (Step adj etypes dir) src n dst → maxhop < n

section Answer

variable {adj : List Segment} {etypes : Option (List Int)} {dir : HopDir}
  {src dst maxhop : Int}

theorem ogCsrHops_self (hsrc : Occurs adj etypes src) :
    ogCsrHops (ogCsrBuild adj etypes dir) src src maxhop = .ok (some 0) := by
  have hindex : (compile adj etypes dir).indexOf src = some _ := if_pos (mem_ids_compile.mpr hsrc)
  simp [ogCsrBuild, ogCsrHops, hindex]

theorem ogCsrHops_of_ne (hsrc : Occurs adj etypes src) (hdst : Occurs adj etypes dst)
    (hne : src ≠ dst) :
    ogCsrHops (ogCsrBuild adj etypes dir) src dst maxhop =
      .ok (hopsLoop (compile adj etypes dir) maxhop (2 * (compile adj etypes dir).ids.length)
        (hopsStart (compile adj etypes dir) ((compile adj etypes dir).ids.idxOf src)
          ((compile adj etypes dir).ids.idxOf dst))) := by
  have hs : src ∈ (compile adj etypes dir).ids := mem_ids_compile.mpr hsrc
  have hd : dst ∈ (compile adj etypes dir).ids := mem_ids_compile.mpr hdst
  have hsindex : (compile adj etypes dir).indexOf src = some _ := if_pos hs
  have hdindex : (compile adj etypes dir).indexOf dst = some _ := if_pos hd
  have hidx : (compile adj etypes dir).ids.idxOf src ≠ (compile adj etypes dir).ids.idxOf dst :=
    fun heq => hne ((List.idxOf_inj hs).mp heq)
  simp only [ogCsrBuild, ogCsrHops, hsindex, hdindex]
  exact if_neg hidx

/-- An answer settles both parts. -/
theorem shortest_of_some {k : Nat}
    (hrun : ogCsrHops (ogCsrBuild adj etypes dir) src dst maxhop = .ok (some (k : Int)))
    (hdist : AtDistance (Step adj etypes dir) src k dst) (hk : (k : Int) ≤ maxhop) :
    Shortest adj etypes dir src dst maxhop := by
  refine ⟨fun i => ?_, ?_⟩
  · rw [hrun]
    constructor
    · intro heq
      obtain rfl := Option.some.inj (Except.ok.inj heq)
      exact ⟨k, rfl, hdist, hk⟩
    · rintro ⟨n, rfl, hn, -⟩
      rw [AtDistance.unique hdist hn]
  · rw [hrun]
    constructor
    · intro heq
      cases Except.ok.inj heq
    · intro hno
      exact absurd (hno k hdist.1) (by omega)

theorem shortest_of_none
    (hrun : ogCsrHops (ogCsrBuild adj etypes dir) src dst maxhop = .ok none)
    (hno : ∀ n : Nat, Within (Step adj etypes dir) src n dst → maxhop < n) :
    Shortest adj etypes dir src dst maxhop := by
  refine ⟨fun i => ?_, ?_⟩
  · rw [hrun]
    constructor
    · intro heq
      cases Except.ok.inj heq
    · rintro ⟨n, rfl, hn, hle⟩
      exact absurd (hno n hn.1) (by omega)
  · rw [hrun]
    exact iff_of_true rfl hno

/-- Between two packed nodes the hop count is the length of a shortest walk, unless
the limit is the largest `int4` and they are neither the same nor one hop apart (nor
that limit). -/
theorem shortest_iff (hmirrored : Mirrored adj) (hsrc : Occurs adj etypes src)
    (hdst : Occurs adj etypes dst) (hzero : 0 ≤ maxhop) (hmax : maxhop ≤ maxInt4)
    (hroom : maxhop < 2 ^ 30 ∨ maxhop = maxInt4 ∨
      (compile adj etypes dir).ids.length ≤ 2 ^ 30) :
    Shortest adj etypes dir src dst maxhop ↔
      (maxhop = maxInt4 → src = dst ∨ ∃ n : Nat, AtDistance (Step adj etypes dir) src n dst ∧
        (n = 1 ∨ (n : Int) = maxInt4)) := by
  rcases eq_or_ne src dst with rfl | hne
  · refine iff_of_true ?_ fun _ => .inl rfl
    exact shortest_of_some (k := 0) (ogCsrHops_self hsrc) (atDistance_zero_iff.mpr rfl) hzero
  have hs : src ∈ (compile adj etypes dir).ids := mem_ids_compile.mpr hsrc
  have hd : dst ∈ (compile adj etypes dir).ids := mem_ids_compile.mpr hdst
  have hslt := List.idxOf_lt_length_of_mem hs
  have hdlt := List.idxOf_lt_length_of_mem hd
  have hg : Transposed (compile adj etypes dir) := transposed_compile hmirrored
  have hwithin := fun k => within_positions (k := k) hs hd
  have hdistance : ∀ k, AtDistance (Lists (compile adj etypes dir).fwd)
      ((compile adj etypes dir).ids.idxOf src) k ((compile adj etypes dir).ids.idxOf dst) ↔
      AtDistance (Step adj etypes dir) src k dst := by
    intro k
    simp only [AtDistance, hwithin]
  have hrun := @ogCsrHops_of_ne adj etypes dir src dst maxhop hsrc hdst hne
  rcases hmax.lt_or_eq with hlt | rfl
  · refine iff_of_true ?_ fun heq => absurd heq hlt.ne
    rcases Classical.em (∃ n : Nat, Within (Step adj etypes dir) src n dst ∧ (n : Int) ≤ maxhop)
      with ⟨n, hn, hle⟩ | hno
    · rcases exists_atDistance hn with ⟨k, hk, hdist⟩
      have hpos : 0 < k := by
        rcases Nat.eq_zero_or_pos k with rfl | hpos
        · exact absurd (atDistance_zero_iff.mp hdist).symm hne
        · exact hpos
      have hbound := AtDistance.lt_of_bounded hslt (fun v _ w hw => (hg.targets v w hw).2)
        ((hdistance k).mpr hdist)
      refine shortest_of_some ?_ hdist (by omega)
      rw [hrun, hopsLoop_of_atDistance hg ((hdistance k).mpr hdist) (by omega) hlt
        (searched_start hslt hdlt) (by omega) (by omega)]
    · have hno : ∀ n : Nat, Within (Step adj etypes dir) src n dst → maxhop < n :=
        fun n hn => not_le.mp fun hle => hno ⟨n, hn, hle⟩
      refine shortest_of_none ?_ hno
      rw [hrun, hopsLoop_of_not_within hg hslt hdlt
        (fun n hn => hno n ((hwithin n).mp hn)) hlt (by omega) (searched_start hslt hdlt)
        (by omega) (by omega)]
  · have hfuel : 2 * (compile adj etypes dir).ids.length =
        2 * (compile adj etypes dir).ids.length - 1 + 1 := by omega
    have hidx : (compile adj etypes dir).ids.idxOf dst ≠ (compile adj etypes dir).ids.idxOf src :=
      fun heq => hne ((List.idxOf_inj hd).mp heq).symm
    rw [hfuel] at hrun
    rcases hopsLoop_maxInt4 hg hslt hdlt hidx with ⟨hloop, hfar⟩ | ⟨hloop, hone⟩
    · rw [hloop] at hrun
      constructor
      · intro h _
        rcases (h.some_iff maxInt4).mp hrun with ⟨n, hn, hdist, -⟩
        exact .inr ⟨n, hdist, .inr hn⟩
      · intro h
        rcases (h rfl).resolve_left hne with ⟨n, hdist, rfl | hn⟩
        · exact absurd ((hdistance 1).mpr hdist) hfar
        · exact shortest_of_some (hrun.trans (by rw [hn])) hdist (by omega)
    · rw [hloop] at hrun
      have hdist := (hdistance 1).mp hone
      exact iff_of_true (shortest_of_some (k := 1) hrun hdist (by decide))
        fun _ => .inr ⟨1, hdist, .inl rfl⟩

/-- A chain of two edges. -/
def chain : List Segment :=
  [⟨1, 7, .o, 0, 1, [2], [10]⟩, ⟨2, 7, .i, 0, 1, [1], [10]⟩,
    ⟨2, 7, .o, 0, 1, [3], [11]⟩, ⟨3, 7, .i, 0, 1, [2], [11]⟩]

theorem mirrored_chain : Mirrored chain := by
  unfold Mirrored chain
  decide

theorem shortest_chain : Shortest chain none .o 1 3 32 :=
  (shortest_iff mirrored_chain
    ⟨⟨1, 7, .o, 0, 1, [2], [10]⟩, by decide, ⟨trivial, by simp⟩, .inl rfl⟩
    ⟨⟨3, 7, .i, 0, 1, [2], [11]⟩, by decide, ⟨trivial, by simp⟩, .inl rfl⟩
    (by decide) (by decide) (.inl (by decide))).mpr fun h => absurd h (by decide)

/-- With the largest limit, nodes two hops apart are reported that limit apart, and
so are nodes without a path. -/
theorem not_shortest_chain : ¬ Shortest chain none .o 1 3 maxInt4 ∧
    ogCsrHops (ogCsrBuild chain none .o) 1 3 maxInt4 = .ok (some 2147483647) ∧
    ogCsrHops (ogCsrBuild chain none .o) 3 1 maxInt4 = .ok (some 2147483647) ∧
    ogCsrHops (ogCsrBuild chain none .o) 1 3 32 = .ok (some 2) := by
  have hrun : ogCsrHops (ogCsrBuild chain none .o) 1 3 maxInt4 = .ok (some 2147483647) := by
    decide
  refine ⟨fun h => ?_, hrun, by decide, by decide⟩
  rcases (h.some_iff _).mp hrun with ⟨n, hn, hdist, -⟩
  have hshort : Within (Step chain none .o) 1 2 3 := by
    refine ⟨[(), ()], walk_cons_iff.mpr ⟨2, ?_, walk_singleton_iff.mpr ?_⟩, by decide⟩
    · exact ⟨_, List.mem_cons_self, rfl, ⟨rfl, by simp⟩, by simp⟩
    · exact ⟨⟨2, 7, .o, 0, 1, [3], [11]⟩, by decide, rfl, ⟨rfl, by simp⟩, by simp⟩
  exact hdist.2 2 (by omega) hshort

end Answer

end OntologicalDb.ShortestHops
