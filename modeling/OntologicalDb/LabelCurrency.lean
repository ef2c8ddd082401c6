import OntologicalDb.GuardedRuns
import OntologicalDb.SchemaChanges

/-!
Whether the interval labels are those of the hierarchy after every operation on
it: a relabelling restores them, and each operation must end in one.
-/

namespace OntologicalDb.LabelCurrency

open OntologicalDb.ExceptRules
open OntologicalDb.GuardedRuns
open OntologicalDb.Labeling
open OntologicalDb.SchemaChanges
open OntologicalDb.TypeCatalog

variable {c c' : Catalog} {o o' : Ontology} {gid g : Int}

/-- The labels of one graph are those of its hierarchy. -/
def LabelledAt (c : Catalog) (g : Int) : Prop :=
  if graphTypes c g = [] then ∀ l ∈ c.labels, l.graphId ≠ g
  else labelsOf (loadDag c g) g = .ok (c.labels.filter fun l => l.graphId = g)

/-- A hierarchy on the way through an operation: only the labels of the graph it
works on may be out of date. -/
structure Pending (gid : Int) (o : Ontology) : Prop where
  typeIds : (o.catalog.types.map (·.typeId)).Nodup
  fresh : ∀ t ∈ o.catalog.types, t.typeId < o.nextTypeId
  parents : ∀ l ∈ o.catalog.typeParent,
    ∃ g, l.1 ∈ graphTypes o.catalog g ∧ l.2 ∈ graphTypes o.catalog g
  labelTypes : ∀ l ∈ o.catalog.labels, l.typeId ∈ graphTypes o.catalog l.graphId
  others : ∀ g, g ≠ gid → LabelledAt o.catalog g

/-- A hierarchy between operations. -/
structure Current (o : Ontology) : Prop where
  wellFormed : WellFormed o.catalog
  fresh : ∀ t ∈ o.catalog.types, t.typeId < o.nextTypeId

theorem Current.pending (h : Current o) (gid : Int) : Pending gid o where
  typeIds := h.wellFormed.typeIds
  fresh := h.fresh
  parents := h.wellFormed.parents
  labelTypes := fun _ hl => h.wellFormed.label_type hl
  others := fun g _ => h.wellFormed.labelled g

section Frame

theorem mem_graphTypes {t : Int} :
    t ∈ graphTypes c g ↔ ∃ r ∈ c.types, r.graphId = g ∧ r.typeId = t := by
  simp [graphTypes, and_assoc]

theorem loadDag_congr (hids : graphTypes c' g = graphTypes c g)
    (hlinks : (c'.typeParent.filter fun l => l.1 ∈ graphTypes c g) =
      c.typeParent.filter fun l => l.1 ∈ graphTypes c g) :
    loadDag c' g = loadDag c g := by
  unfold loadDag
  change (graphTypes c' g).map _ = (graphTypes c g).map _
  rw [hids]
  refine List.map_congr_left fun id _ => ?_
  change TypeNode.mk id (((c'.typeParent.filter fun l => l.1 ∈ graphTypes c' g).filter _).map _)
    (((c'.typeParent.filter fun l => l.1 ∈ graphTypes c' g).filter _).map _) = _
  rw [hids, hlinks]
  rfl

theorem LabelledAt.congr (h : LabelledAt c g) (hids : graphTypes c' g = graphTypes c g)
    (hlinks : (c'.typeParent.filter fun l => l.1 ∈ graphTypes c g) =
      c.typeParent.filter fun l => l.1 ∈ graphTypes c g)
    (hlabels : (c'.labels.filter fun l => l.graphId = g) = c.labels.filter fun l => l.graphId = g) :
    LabelledAt c' g := by
  unfold LabelledAt at h ⊢
  rw [hids, loadDag_congr hids hlinks, hlabels]
  split at h
  · next hnil =>
    rw [if_pos hnil]
    intro l hl hg
    have hmem : l ∈ c'.labels.filter fun l => l.graphId = g := by simp [hl, hg]
    rw [hlabels] at hmem
    exact h l (List.mem_filter.mp hmem).1 hg
  · next hne => rwa [if_neg hne]

theorem graphTypes_of_same (h : SameHierarchy c c') (g : Int) : graphTypes c' g = graphTypes c g := by
  have hmap (c : Catalog) : graphTypes c g =
      ((c.types.map fun t => (t.typeId, t.graphId, t.name, t.kind)).filter fun t => t.2.1 = g).map
        (·.1) := by
    simp [graphTypes, List.filter_map, Function.comp_def]
  rw [hmap, hmap, h.1]

end Frame

section Relabelling

theorem relabelGraph_eq_ok (h : relabelGraph c gid = .ok c') :
    c'.types = c.types ∧ c'.typeParent = c.typeParent ∧
      ∀ g, g ≠ gid → (c'.labels.filter fun l => l.graphId = g) =
        c.labels.filter fun l => l.graphId = g := by
  by_cases hdag : loadDag c gid = []
  · simp only [relabelGraph, hdag, if_true] at h
    obtain rfl := Except.ok.inj h
    exact ⟨rfl, rfl, fun _ _ => rfl⟩
  · simp only [relabelGraph, hdag, if_false] at h
    obtain ⟨labels, hlabels, h⟩ := bind_eq_ok.mp h
    obtain rfl := pure_eq_ok.mp h
    refine ⟨rfl, rfl, fun g hg => ?_⟩
    obtain ⟨-, hgraph, -⟩ := labelsOf_eq_ok hlabels
    have hnew : (labels.filter fun l => l.graphId = g) = [] := by
      refine List.filter_eq_nil_iff.mpr fun l hl => ?_
      simpa [hgraph l hl] using hg.symm
    rw [List.filter_append, hnew, List.append_nil, List.filter_filter]
    refine List.filter_congr fun l _ => ?_
    by_cases hlg : l.graphId = g
    · simp [hlg, hg]
    · simp [hlg]

/-- A relabelling ends an operation. -/
theorem Pending.relabel (h : Pending gid o) (hrel : relabelGraph o.catalog gid = .ok c') :
    Current { o with catalog := c' } := by
  obtain ⟨htypes, hparent, hothers⟩ := relabelGraph_eq_ok hrel
  have hids (g : Int) : graphTypes c' g = graphTypes o.catalog g := by
    simp only [graphTypes, htypes]
  refine ⟨⟨?_, ?_, fun g => ?_⟩, ?_⟩
  · simpa only [htypes] using h.typeIds
  · simpa only [hparent, hids] using h.parents
  · by_cases hg : g = gid
    · subst hg
      change LabelledAt c' g
      unfold LabelledAt
      by_cases hnil : graphTypes c' g = []
      · rw [if_pos hnil]
        rw [hids] at hnil
        have hdag : loadDag o.catalog g = [] := by
          have hlen := congrArg List.length hnil
          rw [← loadDag_length] at hlen
          exact List.eq_nil_of_length_eq_zero hlen
        simp only [relabelGraph, hdag, if_true] at hrel
        obtain rfl := Except.ok.inj hrel
        intro l hl hlg
        have hmem := h.labelTypes l hl
        rw [hlg, hnil] at hmem
        cases hmem
      · rw [if_neg hnil]
        exact relabelGraph_labelled hrel (hids g ▸ hnil)
    · exact (h.others g hg).congr (hids g) (by rw [hparent]) (hothers g hg)
  · simpa only [htypes] using h.fresh

end Relabelling

section Steps

/-- What declaring types alone leaves: more of them, under fresh ids. -/
structure Extends (gid : Int) (o o' : Ontology) : Prop where
  types : ∃ new, o'.catalog.types = o.catalog.types ++ new ∧
    ∀ t ∈ new, t.graphId = gid ∧ o.nextTypeId ≤ t.typeId
  typeParent : o'.catalog.typeParent = o.catalog.typeParent
  nextTypeId : o.nextTypeId ≤ o'.nextTypeId

theorem Extends.refl (gid : Int) (o : Ontology) : Extends gid o o :=
  ⟨⟨[], (List.append_nil _).symm, by simp⟩, rfl, le_rfl⟩

theorem Extends.trans {o₁ o₂ o₃ : Ontology} (h : Extends gid o₁ o₂) (h' : Extends gid o₂ o₃) :
    Extends gid o₁ o₃ := by
  obtain ⟨new, hnew, hfresh⟩ := h.types
  obtain ⟨new', hnew', hfresh'⟩ := h'.types
  refine ⟨⟨new ++ new', by rw [hnew', hnew, List.append_assoc], fun t ht => ?_⟩,
    h'.typeParent.trans h.typeParent, h.nextTypeId.trans h'.nextTypeId⟩
  rcases List.mem_append.mp ht with ht | ht
  · exact hfresh t ht
  · exact ⟨(hfresh' t ht).1, h.nextTypeId.trans (hfresh' t ht).2⟩

theorem insertType_eq_ok {name : String} {kind : Kind} {table : Int → Option StorageTable} {tid : Int}
    (h : insertType o gid name kind table = .ok (o', tid)) :
    tid = o.nextTypeId ∧ o' = { o with
      catalog := { o.catalog with types := o.catalog.types ++ [⟨tid, gid, name, kind, table tid⟩] }
      nextTypeId := tid + 1 } := by
  simp only [insertType] at h
  split at h
  · cases h
  · split at h
    · cases h
    · obtain ⟨rfl, rfl⟩ := Prod.mk.inj (Except.ok.inj h)
      exact ⟨rfl, rfl⟩

theorem Extends.of_insertType {name : String} {kind : Kind} {table : Int → Option StorageTable}
    {tid : Int} (h : insertType o gid name kind table = .ok (o', tid)) : Extends gid o o' := by
  obtain ⟨rfl, rfl⟩ := insertType_eq_ok h
  exact ⟨⟨_, rfl, by simp⟩, rfl, (Int.lt_succ _).le⟩

theorem Pending.insertType (h : Pending gid o) {name : String} {kind : Kind}
    {table : Int → Option StorageTable} {tid : Int}
    (hins : insertType o gid name kind table = .ok (o', tid)) :
    Pending gid o' ∧ tid ∈ graphTypes o'.catalog gid := by
  obtain ⟨rfl, rfl⟩ := insertType_eq_ok hins
  have hgrow (g t : Int) (ht : t ∈ graphTypes o.catalog g) :
      t ∈ graphTypes { o.catalog with
        types := o.catalog.types ++ [⟨o.nextTypeId, gid, name, kind, table o.nextTypeId⟩] } g := by
    obtain ⟨r, hr, hg, hid⟩ := mem_graphTypes.mp ht
    exact mem_graphTypes.mpr ⟨r, List.mem_append_left _ hr, hg, hid⟩
  refine ⟨⟨?_, ?_, ?_, ?_, fun g hg => ?_⟩, ?_⟩
  · rw [List.map_append, List.map_singleton]
    refine h.typeIds.append (List.nodup_singleton _) ?_
    rw [List.disjoint_singleton]
    intro hmem
    obtain ⟨t, ht, hid⟩ := List.mem_map.mp hmem
    exact (h.fresh t ht).ne hid
  · intro t ht
    rcases List.mem_append.mp ht with ht | ht
    · exact (h.fresh t ht).trans (Int.lt_succ _)
    · obtain rfl := List.mem_singleton.mp ht
      exact Int.lt_succ _
  · intro l hl
    obtain ⟨g, h1, h2⟩ := h.parents l hl
    exact ⟨g, hgrow g _ h1, hgrow g _ h2⟩
  · intro l hl
    exact hgrow _ _ (h.labelTypes l hl)
  · refine (h.others g hg).congr ?_ rfl rfl
    simp [graphTypes, List.filter_append, hg.symm]
  · exact mem_graphTypes.mpr ⟨_, List.mem_append_right _ (List.mem_singleton_self _), rfl, rfl⟩

/-- Links between types of the graph, added or taken away. -/
theorem Pending.links (h : Pending gid o) {links : List (Int × Int)}
    (hnew : ∀ l ∈ links, l ∈ o.catalog.typeParent ∨
      l.1 ∈ graphTypes o.catalog gid ∧ l.2 ∈ graphTypes o.catalog gid)
    (hsame : ∀ g, g ≠ gid → (links.filter fun l => l.1 ∈ graphTypes o.catalog g) =
      o.catalog.typeParent.filter fun l => l.1 ∈ graphTypes o.catalog g) :
    Pending gid { o with catalog := { o.catalog with typeParent := links } } where
  typeIds := h.typeIds
  fresh := h.fresh
  parents := fun l hl => (hnew l hl).elim (h.parents l) fun hl => ⟨gid, hl⟩
  labelTypes := h.labelTypes
  others := fun g hg => (h.others g hg).congr rfl (hsame g hg) rfl

/-- A type belongs to one graph. -/
theorem Pending.graph_unique (h : Pending gid o) {t g₁ g₂ : Int}
    (h₁ : t ∈ graphTypes o.catalog g₁) (h₂ : t ∈ graphTypes o.catalog g₂) : g₁ = g₂ := by
  obtain ⟨r₁, hr₁, rfl, hid₁⟩ := mem_graphTypes.mp h₁
  obtain ⟨r₂, hr₂, rfl, hid₂⟩ := mem_graphTypes.mp h₂
  rw [List.inj_on_of_nodup_map h.typeIds hr₁ hr₂ (hid₁.trans hid₂.symm)]

theorem Pending.link (h : Pending gid o) {tid pid : Int} (ht : tid ∈ graphTypes o.catalog gid)
    (hp : pid ∈ graphTypes o.catalog gid) :
    Pending gid { o with
      catalog := { o.catalog with typeParent := o.catalog.typeParent ++ [(tid, pid)] } } := by
  refine h.links (fun l hl => ?_) fun g hg => ?_
  · rcases List.mem_append.mp hl with hl | hl
    · exact .inl hl
    · obtain rfl := List.mem_singleton.mp hl
      exact .inr ⟨ht, hp⟩
  · have hno : tid ∉ graphTypes o.catalog g := fun hmem => hg (h.graph_unique hmem ht)
    simp [List.filter_append, hno]

theorem Pending.unlink (h : Pending gid o) {tid : Int} (pid : Int) (ht : tid ∈ graphTypes o.catalog gid) :
    Pending gid { o with
      catalog := { o.catalog with
        typeParent := o.catalog.typeParent.filter fun l => l ≠ (tid, pid) } } := by
  refine h.links (fun l hl => .inl (List.mem_filter.mp hl).1) fun g hg => ?_
  have hno : tid ∉ graphTypes o.catalog g := fun hmem => hg (h.graph_unique hmem ht)
  rw [List.filter_filter]
  refine List.filter_congr fun l _ => ?_
  by_cases hl : l = (tid, pid)
  · simp [hl, hno]
  · simp [hl]

theorem Pending.same (h : Pending gid o) (hsame : SameHierarchy o.catalog c') :
    Pending gid { o with catalog := c' } := by
  have hids := graphTypes_of_same hsame
  have hrow : ∀ t ∈ c'.types, ∃ r ∈ o.catalog.types, r.typeId = t.typeId := by
    intro t ht
    have hmem := List.mem_map_of_mem (f := fun t => (t.typeId, t.graphId, t.name, t.kind)) ht
    rw [hsame.1] at hmem
    obtain ⟨r, hr, heq⟩ := List.mem_map.mp hmem
    exact ⟨r, hr, (Prod.mk.inj heq).1⟩
  refine ⟨?_, ?_, ?_, ?_, fun g hg => ?_⟩
  · have hmap := congrArg (List.map (·.1)) hsame.1
    simp only [List.map_map, Function.comp_def] at hmap
    rw [hmap]
    exact h.typeIds
  · intro t ht
    obtain ⟨r, hr, hid⟩ := hrow t ht
    exact hid ▸ h.fresh r hr
  · simpa only [hsame.2.1, hids] using h.parents
  · simpa only [hsame.2.2, hids] using h.labelTypes
  · exact (h.others g hg).congr (hids g) (by rw [hsame.2.1]) (by rw [hsame.2.2])

theorem Current.same (h : Current o) (hsame : SameHierarchy o.catalog c') :
    Current { o with catalog := c' } := by
  have hpending := fun gid => (h.pending gid).same hsame
  refine ⟨⟨(hpending 0).typeIds, (hpending 0).parents, fun g => ?_⟩, (hpending 0).fresh⟩
  exact (hpending (g + 1)).others g (by omega)

theorem tryTypeId_mem {name : String} {tid : Int} (h : tryTypeId c gid name = some tid) :
    tid ∈ graphTypes c gid := by
  obtain ⟨t, ht, hid, hg, -⟩ := tryTypeId_eq_some h
  exact mem_graphTypes.mpr ⟨t, ht, hg, hid⟩

theorem typeId_eq_ok {name : String} {tid : Int} :
    typeId c gid name = .ok tid ↔ tryTypeId c gid name = some tid := by
  unfold typeId
  cases tryTypeId c gid name <;> simp

end Steps

section Operations

theorem Pending.deleteType (h : Pending gid o) {tid : Int}
    (hout : ∀ g, g ≠ gid → tid ∉ graphTypes o.catalog g)
    (hdel : deleteType o.catalog tid = .ok c') :
    Pending gid { o with catalog := c' } ∧
      ∀ g, g ≠ gid → graphTypes c' g = graphTypes o.catalog g := by
  simp only [SchemaChanges.deleteType] at hdel
  split at hdel
  · cases hdel
  · obtain rfl := Except.ok.inj hdel
    have hkeep (g t : Int) (ht : t ∈ graphTypes o.catalog g) (hne : t ≠ tid) :
        t ∈ ((o.catalog.types.filter fun t => t.typeId ≠ tid).filter fun t => t.graphId = g).map
          (·.typeId) := by
      obtain ⟨r, hr, hg, rfl⟩ := mem_graphTypes.mp ht
      exact List.mem_map_of_mem (List.mem_filter.mpr
        ⟨List.mem_filter.mpr ⟨hr, by simpa using hne⟩, by simpa using hg⟩)
    have hids (g : Int) (hg : g ≠ gid) :
        ((o.catalog.types.filter fun t => t.typeId ≠ tid).filter fun t => t.graphId = g).map
          (·.typeId) = graphTypes o.catalog g := by
      unfold graphTypes
      rw [List.filter_filter]
      refine congrArg _ (List.filter_congr fun t ht => ?_)
      by_cases htg : t.graphId = g
      · have hne : t.typeId ≠ tid := fun heq =>
          hout g hg (heq ▸ mem_graphTypes.mpr ⟨t, ht, htg, rfl⟩)
        simp [htg, hne]
      · simp [htg]
    refine ⟨⟨h.typeIds.sublist (List.filter_sublist.map _),
      fun t ht => h.fresh t (List.mem_filter.mp ht).1, fun l hl => ?_, fun l hl => ?_,
      fun g hg => (h.others g hg).congr (hids g hg) ?_ ?_⟩, hids⟩
    · obtain ⟨hl, hne⟩ := List.mem_filter.mp hl
      obtain ⟨g, h1, h2⟩ := h.parents l hl
      have hne := of_decide_eq_true hne
      exact ⟨g, hkeep g _ h1 hne.1, hkeep g _ h2 hne.2⟩
    · obtain ⟨hl, hne⟩ := List.mem_filter.mp hl
      exact hkeep _ _ (h.labelTypes l hl) (of_decide_eq_true hne)
    · rw [List.filter_filter]
      refine List.filter_congr fun l hl => ?_
      by_cases hlg : l.1 ∈ graphTypes o.catalog g
      · obtain ⟨g', h1, h2⟩ := h.parents l hl
        obtain rfl := h.graph_unique h1 hlg
        have hne1 : l.1 ≠ tid := fun heq => hout _ hg (heq ▸ h1)
        have hne2 : l.2 ≠ tid := fun heq => hout _ hg (heq ▸ h2)
        simp [hne1, hne2]
      · simp [hlg]
    · rw [List.filter_filter]
      refine List.filter_congr fun l hl => ?_
      by_cases hlg : l.graphId = g
      · have hne : l.typeId ≠ tid := fun heq =>
          hout g hg (hlg ▸ heq ▸ h.labelTypes l hl)
        simp [hlg, hne]
      · simp [hlg]

theorem Pending.deleteTypes (h : Pending gid o) {tids : List Int}
    (hout : ∀ tid ∈ tids, ∀ g, g ≠ gid → tid ∉ graphTypes o.catalog g)
    (hdel : tids.foldlM SchemaChanges.deleteType o.catalog = .ok c') :
    Pending gid { o with catalog := c' } := by
  induction tids generalizing o with
  | nil =>
      obtain rfl := pure_eq_ok.mp hdel
      exact h
  | cons tid tids ih =>
      obtain ⟨mid, hmid, hrest⟩ := foldlM_cons_eq_ok.mp hdel
      obtain ⟨hpending, hids⟩ := h.deleteType (hout tid (List.mem_cons_self ..)) hmid
      refine ih (o := { o with catalog := mid }) hpending (fun t ht g hg => ?_) hrest
      change t ∉ graphTypes mid g
      rw [hids g hg]
      exact hout t (List.mem_cons_of_mem _ ht) g hg

theorem Current.ensureHasType (h : Current o) (hop : ensureHasType o gid = .ok o') :
    Current o' ∧ Extends gid o o' := by
  simp only [SchemaChanges.ensureHasType] at hop
  split at hop
  · obtain rfl := Except.ok.inj hop
    exact ⟨h, .refl gid o⟩
  · obtain ⟨⟨o₁, tid⟩, hins, hop⟩ := bind_eq_ok.mp hop
    obtain ⟨c₁, hrel, hop⟩ := bind_eq_ok.mp hop
    obtain rfl := pure_eq_ok.mp hop
    obtain ⟨htypes, hparent, -⟩ := relabelGraph_eq_ok hrel
    obtain ⟨⟨new, hnew, hfresh⟩, hlinks, hnext⟩ := Extends.of_insertType hins
    exact ⟨((h.pending gid).insertType hins).1.relabel hrel,
      ⟨new, htypes.trans hnew, hfresh⟩, hparent.trans hlinks, hnext⟩

theorem insertParent_eq_ok {tid pid : Int} (h : insertParent tid c pid = .ok c') :
    c' = { c with typeParent := c.typeParent ++ [(tid, pid)] } := by
  simp only [insertParent] at h
  split at h
  · cases h
  · exact (Except.ok.inj h).symm

theorem Pending.insertParents (h : Pending gid o) {tid : Int} {pids : List Int}
    (ht : tid ∈ graphTypes o.catalog gid) (hp : ∀ pid ∈ pids, pid ∈ graphTypes o.catalog gid)
    (hins : pids.foldlM (insertParent tid) o.catalog = .ok c') :
    Pending gid { o with catalog := c' } := by
  induction pids generalizing o with
  | nil =>
      obtain rfl := pure_eq_ok.mp hins
      exact h
  | cons pid pids ih =>
      obtain ⟨mid, hmid, hrest⟩ := foldlM_cons_eq_ok.mp hins
      obtain rfl := insertParent_eq_ok hmid
      exact ih (o := { o with
          catalog := { o.catalog with typeParent := o.catalog.typeParent ++ [(tid, pid)] } })
        (h.link ht (hp pid (List.mem_cons_self ..))) ht
        (fun p hpid => hp p (List.mem_cons_of_mem _ hpid)) hrest

theorem parentId_mem {kind : Kind} {parent : String} {pid : Int}
    (h : parentId c gid kind parent = .ok pid) : pid ∈ graphTypes c gid := by
  obtain ⟨p, hp, h⟩ := bind_eq_ok.mp h
  obtain ⟨pk, -, h⟩ := bind_eq_ok.mp h
  obtain ⟨-, -, h⟩ := bind_eq_ok.mp h
  obtain rfl := pure_eq_ok.mp h
  exact tryTypeId_mem (typeId_eq_ok.mp hp)

theorem mapM_mem {α β : Type} {f : α → Except String β} {xs : List α} {ys : List β} {y : β}
    (h : xs.mapM f = .ok ys) (hy : y ∈ ys) : ∃ x ∈ xs, f x = .ok y := by
  induction xs generalizing ys with
  | nil =>
      obtain rfl := pure_eq_ok.mp h
      cases hy
  | cons x xs ih =>
      rw [List.mapM_cons] at h
      obtain ⟨b, hb, h⟩ := bind_eq_ok.mp h
      obtain ⟨bs, hbs, h⟩ := bind_eq_ok.mp h
      obtain rfl := pure_eq_ok.mp h
      rcases List.mem_cons.mp hy with rfl | hy
      · exact ⟨x, List.mem_cons_self .., hb⟩
      · obtain ⟨x', hx', hf⟩ := ih hbs hy
        exact ⟨x', List.mem_cons_of_mem _ hx', hf⟩

/-- Creating a type ends in a relabelling, so it also repairs the labels of its graph. -/
theorem Pending.createType (h : Pending gid o) {name : String} {kind : Kind} {parents : List String}
    {isAbstract : Bool} {rest : Rest}
    (hop : createType o gid name kind parents isAbstract rest = .ok o') : Current o' := by
  simp only [SchemaChanges.createType] at hop
  obtain ⟨-, -, hop⟩ := bind_eq_ok.mp hop
  obtain ⟨pids, hpids, hop⟩ := bind_eq_ok.mp hop
  obtain ⟨⟨o₁, tid⟩, hins, hop⟩ := bind_eq_ok.mp hop
  obtain ⟨c₂, hlinks, hop⟩ := bind_eq_ok.mp hop
  obtain ⟨c₃, hrest, hop⟩ := bind_eq_ok.mp hop
  obtain ⟨c₄, hrel, hop⟩ := bind_eq_ok.mp hop
  obtain rfl := pure_eq_ok.mp hop
  obtain ⟨hpending, htid⟩ := h.insertType hins
  have hgrow : ∀ pid ∈ pids, pid ∈ graphTypes o₁.catalog gid := by
    intro pid hpid
    obtain ⟨parent, -, hparent⟩ := mapM_mem hpids hpid
    obtain ⟨r, hr, hg, hid⟩ := mem_graphTypes.mp (parentId_mem hparent)
    obtain ⟨new, hnew, -⟩ := (Extends.of_insertType hins).types
    exact mem_graphTypes.mpr ⟨r, hnew ▸ List.mem_append_left _ hr, hg, hid⟩
  have hlinked := hpending.insertParents htid hgrow hlinks
  exact (hlinked.same (rest.keeps _ _ hrest)).relabel hrel

theorem Current.addParent (h : Current o) {name parent : String} {rest : Rest}
    (hop : addParent o gid name parent rest = .ok o') : Current o' := by
  simp only [SchemaChanges.addParent] at hop
  obtain ⟨tid, ht, hop⟩ := bind_eq_ok.mp hop
  obtain ⟨pid, hp, hop⟩ := bind_eq_ok.mp hop
  obtain ⟨-, -, hop⟩ := bind_eq_ok.mp hop
  obtain ⟨-, -, hop⟩ := bind_eq_ok.mp hop
  obtain ⟨-, -, hop⟩ := bind_eq_ok.mp hop
  obtain ⟨c₁, hins, hop⟩ := bind_eq_ok.mp hop
  obtain ⟨c₂, hrel, hop⟩ := bind_eq_ok.mp hop
  obtain ⟨c₃, hrest, hop⟩ := bind_eq_ok.mp hop
  obtain rfl := pure_eq_ok.mp hop
  obtain rfl := insertParent_eq_ok hins
  have hlinked := (h.pending gid).link (tryTypeId_mem (typeId_eq_ok.mp ht))
    (tryTypeId_mem (typeId_eq_ok.mp hp))
  exact (hlinked.relabel hrel).same (rest.keeps _ _ hrest)

theorem Current.removeParent (h : Current o) {name parent : String}
    (hop : removeParent o gid name parent = .ok o') : Current o' := by
  simp only [SchemaChanges.removeParent] at hop
  obtain ⟨tid, ht, hop⟩ := bind_eq_ok.mp hop
  obtain ⟨pid, hp, hop⟩ := bind_eq_ok.mp hop
  obtain ⟨-, -, hop⟩ := bind_eq_ok.mp hop
  obtain ⟨c₁, hrel, hop⟩ := bind_eq_ok.mp hop
  obtain rfl := pure_eq_ok.mp hop
  have hunlinked := (h.pending gid).unlink pid (tryTypeId_mem (typeId_eq_ok.mp ht))
  exact hunlinked.relabel hrel

theorem Current.dropType (h : Current o) {name : String} {cascade : Bool}
    {instances : List Int → Nat} (hop : dropType o gid name cascade instances = .ok o') :
    Current o' := by
  simp only [SchemaChanges.dropType] at hop
  obtain ⟨tid, ht, hop⟩ := bind_eq_ok.mp hop
  obtain ⟨-, -, hop⟩ := bind_eq_ok.mp hop
  obtain ⟨c₁, hdel, hop⟩ := bind_eq_ok.mp hop
  obtain ⟨c₂, hrel, hop⟩ := bind_eq_ok.mp hop
  obtain rfl := pure_eq_ok.mp hop
  refine Pending.relabel (o := { o with catalog := c₁ })
    ((h.pending gid).deleteTypes (fun t hsub g hg hmem => ?_) hdel) hrel
  have hsup := tryTypeId_mem (typeId_eq_ok.mp ht)
  have hlabel := mem_ogSubtypes.mp hsub
  simp only [ogIsSubtype, List.any_eq_true, decide_eq_true_eq] at hlabel
  obtain ⟨d, hd, a, ha, rfl, rfl, hgraph, -⟩ := hlabel
  have hd' := h.wellFormed.label_type hd
  have ha' := h.wellFormed.label_type ha
  have hda : d.graphId = gid := by
    rw [← hgraph]
    exact (h.pending gid).graph_unique ha' hsup
  exact hg ((h.pending gid).graph_unique hmem (hda ▸ hd'))

theorem iriType_mem {iri : String} {tid : Int} (h : iriType o gid iri = some tid) :
    tid ∈ graphTypes o.catalog gid := by
  obtain ⟨t, ht, rfl⟩ := Option.map_eq_some_iff.mp h
  have hfound := List.find?_some ht
  simp only [decide_eq_true_eq] at hfound
  exact mem_graphTypes.mpr ⟨t, List.mem_of_find?_eq_some ht, hfound.1, rfl⟩

theorem ensureType_eq_ok {rest : Rest} {iri : String} {kind : Kind}
    (h : ensureType gid rest o iri kind = .ok o') (hp : Pending gid o) :
    o' = o ∨ Current o' := by
  simp only [ensureType] at h
  split at h
  · exact .inl (Except.ok.inj h).symm
  · obtain ⟨o₁, hcreate, h⟩ := bind_eq_ok.mp h
    obtain ⟨tid, -, h⟩ := bind_eq_ok.mp h
    obtain rfl := pure_eq_ok.mp h
    have hcur := hp.createType hcreate
    exact .inr ⟨hcur.wellFormed, hcur.fresh⟩

theorem Pending.ensureType (h : Pending gid o) {rest : Rest} {iri : String} {kind : Kind}
    (hop : ensureType gid rest o iri kind = .ok o') : Pending gid o' := by
  rcases ensureType_eq_ok hop h with rfl | hcur
  · exact h
  · exact hcur.pending gid

theorem Current.ensureType (h : Current o) {rest : Rest} {iri : String} {kind : Kind}
    (hop : ensureType gid rest o iri kind = .ok o') : Current o' := by
  rcases ensureType_eq_ok hop (h.pending gid) with rfl | hcur
  · exact h
  · exact hcur

theorem Pending.linkClasses (h : Pending gid o) {rest : Rest} {t : Triple}
    (hop : linkClasses gid rest o t = .ok o') : Pending gid o' := by
  simp only [SchemaChanges.linkClasses] at hop
  split at hop
  · split at hop
    · obtain ⟨o₁, hs, hop⟩ := bind_eq_ok.mp hop
      obtain ⟨o₂, ho, hop⟩ := bind_eq_ok.mp hop
      have h₂ := (h.ensureType hs).ensureType ho
      split at hop
      · next c par hc hpar =>
        split at hop
        · obtain rfl := pure_eq_ok.mp hop
          exact h₂
        · obtain rfl := pure_eq_ok.mp hop
          exact h₂.link (iriType_mem hc) (iriType_mem hpar)
      · obtain rfl := pure_eq_ok.mp hop
        exact h₂
    · obtain rfl := Except.ok.inj hop
      exact h
  · obtain rfl := Except.ok.inj hop
    exact h

theorem Current.loadRdf (h : Current o) {triples : List Triple} {rest : Rest}
    (hop : loadRdf o gid triples rest = .ok o') : Current o' := by
  simp only [SchemaChanges.loadRdf] at hop
  obtain ⟨o₁, h₁, hop⟩ := bind_eq_ok.mp hop
  obtain ⟨o₂, h₂, hop⟩ := bind_eq_ok.mp hop
  obtain ⟨c₃, h₃, hop⟩ := bind_eq_ok.mp hop
  obtain ⟨o₄, h₄, hop⟩ := bind_eq_ok.mp hop
  obtain ⟨o₅, h₅, h₆⟩ := bind_eq_ok.mp hop
  have hcur₁ : Current o₁ := by
    refine foldlM_preserves (fun b t b' hb ht => ?_) h₁ h
    simp only [declareTerm] at ht
    split at ht
    · split at ht
      · split at ht
        · exact hb.ensureType ht
        · split at ht
          · exact hb.ensureType ht
          · exact Except.ok.inj ht ▸ hb
      · exact Except.ok.inj ht ▸ hb
    · exact Except.ok.inj ht ▸ hb
  have hpending₂ : Pending gid o₂ :=
    foldlM_preserves (fun _ _ _ hb ht => hb.linkClasses ht) h₂ (hcur₁.pending gid)
  have hcur₄ : Current o₄ := by
    refine foldlM_preserves (fun b t b' hb ht => ?_) h₄ (hpending₂.relabel h₃)
    simp only [declarePlayer] at ht
    split at ht
    · split at ht
      · exact hb.ensureType ht
      · exact Except.ok.inj ht ▸ hb
    · exact Except.ok.inj ht ▸ hb
  have hcur₅ : Current o₅ := by
    refine foldlM_preserves (fun b t b' hb ht => ?_) h₅ hcur₄
    simp only [declareInstance] at ht
    split at ht
    · split at ht
      · exact hb.ensureType ht
      · exact Except.ok.inj ht ▸ hb
    · exact Except.ok.inj ht ▸ hb
  refine foldlM_preserves (fun b t b' hb ht => ?_) h₆ hcur₅
  simp only [declareFact] at ht
  split at ht
  · split at ht
    · exact hb.ensureType ht
    · exact Except.ok.inj ht ▸ hb
  · exact Except.ok.inj ht ▸ hb

end Operations

section Define

/-- The link a definition asks for is in the catalog. -/
def AlreadyLinked (c : Catalog) (gid : Int) (name parent : String) : Prop :=
  ∃ tid pid, tryTypeId c gid name = some tid ∧ tryTypeId c gid parent = some pid ∧
    (tid, pid) ∈ c.typeParent

theorem declareShell_eq_ok {d : TypeDef} (h : declareShell gid o d = .ok o')
    (hp : Pending gid o) :
    (Pending gid o' ∧ Extends gid o o') ∧ (tryTypeId o.catalog gid d.name ≠ none → o' = o) := by
  simp only [declareShell] at h
  split at h
  · obtain ⟨k, -, h⟩ := bind_eq_ok.mp h
    obtain ⟨-, -, h⟩ := bind_eq_ok.mp h
    obtain rfl := pure_eq_ok.mp h
    exact ⟨⟨hp, .refl gid o⟩, fun _ => rfl⟩
  · next hnone =>
    obtain ⟨⟨o₁, tid⟩, hins, h⟩ := bind_eq_ok.mp h
    obtain rfl := pure_eq_ok.mp h
    exact ⟨⟨(hp.insertType hins).1, .of_insertType hins⟩, fun hsome => absurd hnone hsome⟩

theorem declareShells_eq_ok {defs : List TypeDef} (h : defs.foldlM (declareShell gid) o = .ok o')
    (hp : Pending gid o) :
    (Pending gid o' ∧ Extends gid o o') ∧
      ((∀ d ∈ defs, tryTypeId o.catalog gid d.name ≠ none) → o' = o) := by
  induction defs generalizing o with
  | nil =>
      obtain rfl := pure_eq_ok.mp h
      exact ⟨⟨hp, .refl gid o⟩, fun _ => rfl⟩
  | cons d defs ih =>
      obtain ⟨mid, hmid, hrest⟩ := foldlM_cons_eq_ok.mp h
      obtain ⟨⟨hpm, hext⟩, hsame⟩ := declareShell_eq_ok hmid hp
      obtain ⟨⟨hp', hext'⟩, hsame'⟩ := ih hrest hpm
      refine ⟨⟨hp', hext.trans hext'⟩, fun hall => ?_⟩
      obtain rfl := hsame (hall d (List.mem_cons_self ..))
      exact hsame' fun d' hd' => hall d' (List.mem_cons_of_mem _ hd')

theorem linkSub_eq_ok {acc acc' : Catalog × Bool} {d : TypeDef} (h : linkSub gid acc d = .ok acc')
    (hp : Pending gid { o with catalog := acc.1 }) :
    Pending gid { o with catalog := acc'.1 } ∧
      (acc'.2 = false → acc = acc' ∧
        ∀ parent, d.sub = some parent → AlreadyLinked acc'.1 gid d.name parent) := by
  simp only [linkSub] at h
  split at h
  · next hnone =>
    obtain rfl := Except.ok.inj h
    refine ⟨hp, fun _ => ⟨rfl, fun parent hsub => ?_⟩⟩
    rw [hnone] at hsub
    cases hsub
  · next parent hsome =>
    obtain ⟨tid, ht, h⟩ := bind_eq_ok.mp h
    obtain ⟨pid, hpid, h⟩ := bind_eq_ok.mp h
    obtain ⟨pk, -, h⟩ := bind_eq_ok.mp h
    obtain ⟨-, -, h⟩ := bind_eq_ok.mp h
    have ht := typeId_eq_ok.mp ht
    have hpid := typeId_eq_ok.mp hpid
    split at h
    · next hlinked =>
      obtain rfl := pure_eq_ok.mp h
      refine ⟨hp, fun _ => ⟨rfl, fun parent' hsub => ?_⟩⟩
      obtain rfl := Option.some.inj (hsome.symm.trans hsub)
      exact ⟨tid, pid, ht, hpid, hlinked⟩
    · obtain rfl := pure_eq_ok.mp h
      exact ⟨hp.link (tryTypeId_mem ht) (tryTypeId_mem hpid), fun hfalse => by cases hfalse⟩

theorem linkSubs_eq_ok {acc acc' : Catalog × Bool} {defs : List TypeDef}
    (h : defs.foldlM (linkSub gid) acc = .ok acc') (hp : Pending gid { o with catalog := acc.1 }) :
    Pending gid { o with catalog := acc'.1 } ∧
      (acc'.2 = false → acc = acc' ∧
        ∀ d ∈ defs, ∀ parent, d.sub = some parent → AlreadyLinked acc'.1 gid d.name parent) := by
  induction defs generalizing acc with
  | nil =>
      obtain rfl := pure_eq_ok.mp h
      exact ⟨hp, fun _ => ⟨rfl, by simp⟩⟩
  | cons d defs ih =>
      obtain ⟨mid, hmid, hrest⟩ := foldlM_cons_eq_ok.mp h
      obtain ⟨hpm, hfirst⟩ := linkSub_eq_ok hmid hp
      obtain ⟨hp', hrest'⟩ := ih hrest hpm
      refine ⟨hp', fun hfalse => ?_⟩
      obtain ⟨rfl, hall⟩ := hrest' hfalse
      obtain ⟨rfl, hd⟩ := hfirst hfalse
      exact ⟨rfl, List.forall_mem_cons.mpr ⟨hd, hall⟩⟩

/-- A link between types that were there before is a link between the same names. -/
theorem Extends.alreadyLinked (h : Extends gid o o') (hc : Pending gid o) {name parent : String}
    (hlinked : AlreadyLinked o'.catalog gid name parent) :
    AlreadyLinked o.catalog gid name parent := by
  obtain ⟨tid, pid, ht, hp, hmem⟩ := hlinked
  obtain ⟨new, hnew, hfresh⟩ := h.types
  rw [h.typeParent] at hmem
  obtain ⟨g, hg₁, hg₂⟩ := hc.parents _ hmem
  have hold {n : String} {x : Int} (hx : tryTypeId o'.catalog gid n = some x)
      (hmem : x ∈ graphTypes o.catalog g) : tryTypeId o.catalog gid n = some x := by
    unfold tryTypeId at hx ⊢
    rw [hnew, List.find?_append] at hx
    cases hfind : o.catalog.types.find? fun t => t.graphId = gid ∧ t.name = n with
    | some t =>
        rw [hfind, Option.some_or] at hx
        exact hx
    | none =>
        rw [hfind, Option.none_or] at hx
        obtain ⟨t, ht, rfl⟩ := Option.map_eq_some_iff.mp hx
        obtain ⟨r, hr, -, hid⟩ := mem_graphTypes.mp hmem
        have hlt := hc.fresh r hr
        have hle := (hfresh t (List.mem_of_find?_eq_some ht)).2
        omega
  exact ⟨tid, pid, hold ht hg₁, hold hp hg₂, hmem⟩

/-- Every type a definition declares is there already, or one of its links is new. -/
def Relabels (o : Ontology) (gid : Int) (defs : List TypeDef) : Prop :=
  (∀ d ∈ defs, tryTypeId o.catalog gid d.name ≠ none) ∨
    ∃ d ∈ defs, ∃ parent, d.sub = some parent ∧ ¬ AlreadyLinked o.catalog gid d.name parent

theorem Current.runDefine (h : Current o) {defs : List TypeDef} {rest : Rest}
    (hrelabels : Relabels o gid defs) (hop : runDefine o gid defs rest = .ok o') : Current o' := by
  simp only [SchemaChanges.runDefine] at hop
  obtain ⟨o₁, hhas, hop⟩ := bind_eq_ok.mp hop
  obtain ⟨o₂, hshells, hop⟩ := bind_eq_ok.mp hop
  obtain ⟨⟨c₃, linked⟩, hlinks, hop⟩ := bind_eq_ok.mp hop
  obtain ⟨c₄, hrel, hop⟩ := bind_eq_ok.mp hop
  obtain ⟨c₅, hrest, hop⟩ := bind_eq_ok.mp hop
  obtain rfl := pure_eq_ok.mp hop
  obtain ⟨hcur₁, hext₁⟩ := h.ensureHasType hhas
  obtain ⟨⟨hpending₂, hext₂⟩, hsame₂⟩ := declareShells_eq_ok hshells (hcur₁.pending gid)
  obtain ⟨hpending₃, hnone⟩ := linkSubs_eq_ok hlinks hpending₂
  have hcur₄ : Current { o₂ with catalog := c₄ } := by
    cases linked with
    | true => exact hpending₃.relabel hrel
    | false =>
        obtain ⟨heq, hall⟩ := hnone rfl
        obtain rfl : o₂.catalog = c₃ := (Prod.mk.inj heq).1
        obtain rfl := Except.ok.inj hrel
        rcases hrelabels with hold | ⟨d, hd, parent, hsub, hnew⟩
        · have hold₁ : ∀ d ∈ defs, tryTypeId o₁.catalog gid d.name ≠ none := by
            intro d hd
            obtain ⟨tid, htid⟩ := Option.ne_none_iff_exists'.mp (hold d hd)
            obtain ⟨new, htypes, -⟩ := hext₁.types
            unfold tryTypeId at htid ⊢
            obtain ⟨t, ht, -⟩ := Option.map_eq_some_iff.mp htid
            rw [htypes, List.find?_append, ht]
            simp
          obtain rfl := hsame₂ hold₁
          exact hcur₁
        · exact absurd ((hext₁.trans hext₂).alreadyLinked (h.pending gid) (hall d hd parent hsub))
            hnew
  exact hcur₄.same (rest.keeps _ _ hrest)

end Define

section Runs

/-- Every definition on the way either declares no type of its own or adds a link. -/
def DefinesRelabel (_ : List (String × SchemaOp)) (o : Ontology) (e : String × SchemaOp) : Prop :=
  ∀ gid defs rest, graphId o.catalog e.1 = .ok gid → e.2 = .define defs rest → Relabels o gid defs

theorem Current.run (h : Current o) {e : String × SchemaOp} (hguard : DefinesRelabel [] o e)
    (hop : SchemaOp.run o e = .ok o') : Current o' := by
  obtain ⟨graph, op⟩ := e
  simp only [SchemaOp.run] at hop
  obtain ⟨gid, hgid, hop⟩ := bind_eq_ok.mp hop
  cases op with
  | createType name kind parents isAbstract rest => exact (h.pending gid).createType hop
  | define defs rest => exact h.runDefine (hguard gid defs rest hgid rfl) hop
  | ensureHasType => exact (h.ensureHasType hop).1
  | addParent name parent rest => exact h.addParent hop
  | removeParent name parent => exact h.removeParent hop
  | dropType name cascade instances => exact h.dropType hop
  | setIri name iri =>
      obtain ⟨tid, -, hop⟩ := bind_eq_ok.mp hop
      obtain rfl := pure_eq_ok.mp hop
      exact ⟨h.wellFormed, h.fresh⟩
  | loadRdf triples rest => exact h.loadRdf hop
  | aborted ids =>
      obtain rfl := pure_eq_ok.mp hop
      exact ⟨h.wellFormed, fun t ht => (h.fresh t ht).trans_le
        (Int.le_add_of_nonneg_right (Int.natCast_nonneg ids))⟩

/-- A database whose graphs have no types yet. -/
structure NoTypes (o : Ontology) : Prop where
  types : o.catalog.types = []
  typeParent : o.catalog.typeParent = []
  labels : o.catalog.labels = []

theorem NoTypes.current (h : NoTypes o) : Current o := by
  refine ⟨⟨by simp [h.types], by simp [h.typeParent], fun g => ?_⟩, by simp [h.types]⟩
  simp [graphTypes, h.types, h.labels]

/-- Every type has a label, and the labels decide inheritance. -/
def LabelsAgree (c : Catalog) : Prop :=
  ∀ g, ∀ t ∈ graphTypes c g, (∃ l ∈ c.labels, l.graphId = g ∧ l.typeId = t) ∧
    ∀ sub, ogIsSubtype c sub t = true ↔ IsSubtype c sub t

theorem labels_agree {o₀ : Ontology} {es : List (String × SchemaOp)} (h : NoTypes o₀)
    (run : Run SchemaOp.run DefinesRelabel o₀ es o) : LabelsAgree o.catalog := by
  have hcur : Current o := run.invariant (I := fun _ o => Current o) h.current
    fun _ _ _ _ hcur hguard hop => hcur.run hguard hop
  exact fun g t ht => ⟨hcur.wellFormed.exists_label ht, fun sub => ogIsSubtype_iff hcur.wellFormed ht⟩

def kb : Ontology := ⟨{ TypeCatalog.empty with graphs := [(1, "kb")] }, 1, []⟩

theorem kb_noTypes : NoTypes kb := ⟨rfl, rfl, rfl⟩

/-- The graph after a definition of a type and a subtype. -/
def kbBook : Ontology where
  catalog := { TypeCatalog.empty with
    graphs := [(1, "kb")]
    types := [⟨1, 1, "$has", .relation, some (edgeTable 1)⟩, ⟨2, 1, "thing", .entity, none⟩,
      ⟨3, 1, "book", .entity, none⟩]
    typeParent := [(3, 2)]
    labels := [⟨1, 0, 1, 1, 1025, 0⟩, ⟨3, 0, 1, 3073, 4097, 1⟩, ⟨2, 0, 1, 2049, 5121, 0⟩] }
  nextTypeId := 4
  iris := []

theorem labels_agree_sub : LabelsAgree kbBook.catalog := by
  have hguard : DefinesRelabel [] kb
      ("kb", .define [⟨.entity, "thing", none⟩, ⟨.entity, "book", some "thing"⟩] .none) := by
    rintro gid defs rest - heq
    obtain ⟨rfl, -⟩ := SchemaOp.define.inj heq
    refine .inr ⟨⟨.entity, "book", some "thing"⟩, by simp, "thing", rfl, ?_⟩
    rintro ⟨tid, pid, -, -, hmem⟩
    cases hmem
  have run : Run SchemaOp.run DefinesRelabel kb _ kbBook := .single hguard rfl
  exact labels_agree kb_noTypes run

/-- The graph after a definition of a root type alone. -/
def kbThing : Ontology where
  catalog := { TypeCatalog.empty with
    graphs := [(1, "kb")]
    types := [⟨1, 1, "$has", .relation, some (edgeTable 1)⟩, ⟨2, 1, "thing", .entity, none⟩]
    labels := [⟨1, 0, 1, 1, 1025, 0⟩] }
  nextTypeId := 3
  iris := []

/-- A definition of root types alone leaves them without labels. -/
theorem not_labels_agree :
    ¬ ∀ (o₀ o : Ontology) (es : List (String × SchemaOp)), NoTypes o₀ →
      Run SchemaOp.run (fun _ _ _ => True) o₀ es o → LabelsAgree o.catalog := by
  intro h
  have hagree := h kb kbThing [("kb", .define [⟨.entity, "thing", none⟩] .none)] kb_noTypes
    (.single trivial rfl)
  obtain ⟨⟨l, hl, -, hid⟩, -⟩ := hagree 1 2 (by decide)
  have hnone : ∀ l ∈ kbThing.catalog.labels, l.typeId ≠ 2 := by decide
  exact hnone l hl hid

end Runs

end OntologicalDb.LabelCurrency
