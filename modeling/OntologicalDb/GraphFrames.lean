import Mathlib
import OntologicalDb.EvolutionFrames

/-!
An operation on one graph leaves what the catalog says of the others as it was, even
when the labels of a graph are out of date.
-/

namespace OntologicalDb.GraphFrames

open OntologicalDb.EvolutionFrames
open OntologicalDb.ExceptRules
open OntologicalDb.LabelCurrency
open OntologicalDb.Labeling
open OntologicalDb.SchemaChanges
open OntologicalDb.SchemaEvolution
open OntologicalDb.TypeCatalog
open OntologicalDb.TypedTables (Session columnName)

section Shares

/-- What the catalog says of one graph, labels apart. -/
structure Share where
  types : List TypeRow
  links : List (Int × Int)
  properties : List Property
  roles : List Role
  temporal : List Int

def share (c : Catalog) (g : Int) : Share where
  types := c.types.filter fun t => t.graphId = g
  links := c.typeParent.filter fun l => l.1 ∈ graphTypes c g
  properties := c.properties.filter fun p => p.typeId ∈ graphTypes c g
  roles := c.roles.filter fun r => r.relTypeId ∈ graphTypes c g
  temporal := c.temporal.filter fun t => t ∈ graphTypes c g

variable {c c' : Catalog} {o o' o₁ o₂ : Ontology} {gid g : Int}

theorem graphTypes_of_share (h : share c' g = share c g) : graphTypes c' g = graphTypes c g := by
  have htypes : (c'.types.filter fun t => t.graphId = g) = c.types.filter fun t => t.graphId = g :=
    congrArg Share.types h
  simp only [graphTypes, htypes]

/-- The parts of a share, one by one. -/
theorem share_congr (htypes : (c'.types.filter fun t => t.graphId = g) =
      c.types.filter fun t => t.graphId = g)
    (hlinks : (c'.typeParent.filter fun l => l.1 ∈ graphTypes c g) =
      c.typeParent.filter fun l => l.1 ∈ graphTypes c g)
    (hprops : (c'.properties.filter fun p => p.typeId ∈ graphTypes c g) =
      c.properties.filter fun p => p.typeId ∈ graphTypes c g)
    (hroles : (c'.roles.filter fun r => r.relTypeId ∈ graphTypes c g) =
      c.roles.filter fun r => r.relTypeId ∈ graphTypes c g)
    (htemporal : (c'.temporal.filter fun t => t ∈ graphTypes c g) =
      c.temporal.filter fun t => t ∈ graphTypes c g) : share c' g = share c g := by
  have hids : graphTypes c' g = graphTypes c g := by
    simp only [graphTypes, htypes]
  simp only [share, hids, htypes, hlinks, hprops, hroles, htemporal]

/-- A catalog whose types belong to one graph each, with their parents, labels, roles and
properties. -/
structure Tidy (o : Ontology) : Prop where
  typeIds : (o.catalog.types.map (·.typeId)).Nodup
  fresh : ∀ t ∈ o.catalog.types, t.typeId < o.nextTypeId
  parents : ∀ l ∈ o.catalog.typeParent,
    ∃ g, l.1 ∈ graphTypes o.catalog g ∧ l.2 ∈ graphTypes o.catalog g
  labelTypes : ∀ l ∈ o.catalog.labels, l.typeId ∈ graphTypes o.catalog l.graphId
  roles : ∀ r ∈ o.catalog.roles, ∃ g, r.relTypeId ∈ graphTypes o.catalog g ∧
    ∀ p ∈ r.playerTypeId, p ∈ graphTypes o.catalog g
  properties : ∀ p ∈ o.catalog.properties, ∃ g, p.typeId ∈ graphTypes o.catalog g

theorem Tidy.graph_unique (h : Tidy o) {t g₁ g₂ : Int} (h₁ : t ∈ graphTypes o.catalog g₁)
    (h₂ : t ∈ graphTypes o.catalog g₂) : g₁ = g₂ := by
  obtain ⟨r₁, hr₁, rfl, hid₁⟩ := mem_graphTypes.mp h₁
  obtain ⟨r₂, hr₂, rfl, hid₂⟩ := mem_graphTypes.mp h₂
  rw [List.inj_on_of_nodup_map h.typeIds hr₁ hr₂ (hid₁.trans hid₂.symm)]

/-- The subtypes of a type are of its graph. -/
theorem Tidy.ogSubtypes_graph (h : Tidy o) {tid sub : Int} (ht : tid ∈ graphTypes o.catalog g)
    (hsub : sub ∈ ogSubtypes o.catalog tid) : sub ∈ graphTypes o.catalog g := by
  have hlabels := mem_ogSubtypes.mp hsub
  simp only [ogIsSubtype, List.any_eq_true, decide_eq_true_eq] at hlabels
  obtain ⟨d, hd, a, ha, rfl, rfl, hgraph, -⟩ := hlabels
  obtain rfl := h.graph_unique ht (h.labelTypes a ha)
  rw [hgraph]
  exact h.labelTypes d hd

/-- The types above a type are of its graph. -/
theorem Tidy.ogSupertypes_graph (h : Tidy o) {tid sup : Int} (ht : tid ∈ graphTypes o.catalog g)
    (hsup : sup ∈ ogSupertypes o.catalog tid) : sup ∈ graphTypes o.catalog g := by
  have hlabels := mem_ogSupertypes.mp hsup
  simp only [ogIsSubtype, List.any_eq_true, decide_eq_true_eq] at hlabels
  obtain ⟨d, hd, a, ha, rfl, rfl, hgraph, -⟩ := hlabels
  obtain rfl := h.graph_unique ht (h.labelTypes d hd)
  rw [← hgraph]
  exact h.labelTypes a ha

end Shares

section Steps

variable {c c' : Catalog} {o o' o₁ o₂ o₃ : Ontology} {gid g : Int}

/-- What an operation on one graph leaves: a tidy catalog, the other graphs, and each
type where it was. -/
structure Frame (gid : Int) (o o' : Ontology) : Prop where
  tidy : Tidy o'
  nextTypeId : o.nextTypeId ≤ o'.nextTypeId
  graphs : o'.catalog.graphs ⊆ o.catalog.graphs
  others : ∀ g, g ≠ gid → share o'.catalog g = share o.catalog g
  old : ∀ t g, t < o.nextTypeId → t ∈ graphTypes o'.catalog g → t ∈ graphTypes o.catalog g

def Within (gid : Int) (o o' : Ontology) : Prop := Tidy o → Frame gid o o'

theorem Within.refl (gid : Int) (o : Ontology) : Within gid o o :=
  fun h => ⟨h, le_rfl, List.Subset.refl _, fun _ _ => rfl, fun _ _ _ => id⟩

theorem Within.trans (h : Within gid o₁ o₂) (h' : Within gid o₂ o₃) : Within gid o₁ o₃ := by
  intro htidy
  have h₁ := h htidy
  have h₂ := h' h₁.tidy
  refine ⟨h₂.tidy, h₁.nextTypeId.trans h₂.nextTypeId, List.Subset.trans h₂.graphs h₁.graphs,
    fun g hg => ?_, fun t g ht hmem => ?_⟩
  · exact (h₂.others g hg).trans (h₁.others g hg)
  · exact h₁.old t g ht (h₂.old t g (ht.trans_le h₁.nextTypeId) hmem)

theorem Within.foldlM {α : Type} {f : Ontology → α → Except String Ontology}
    (hf : ∀ o x o', f o x = .ok o' → Within gid o o') {xs : List α} (h : xs.foldlM f o = .ok o') :
    Within gid o o' :=
  foldlM_preserves (P := fun m => Within gid o m) (fun _ _ _ hm hx => hm.trans (hf _ _ _ hx)) h
    (.refl gid o)

theorem not_mem_other (h : Tidy o) {t : Int} (ht : t ∈ graphTypes o.catalog gid) (hg : g ≠ gid) :
    t ∉ graphTypes o.catalog g := fun hmem => hg (h.graph_unique hmem ht)

theorem Within.congr (h : Within gid o o₁) (hcat : o'.catalog = o₁.catalog)
    (hnext : o'.nextTypeId = o₁.nextTypeId) : Within gid o o' := by
  intro htidy
  have hframe := h htidy
  refine ⟨⟨?_, ?_, ?_, ?_, ?_, ?_⟩, ?_, ?_, ?_, ?_⟩
  · exact hcat ▸ hframe.tidy.typeIds
  · exact hcat ▸ hnext ▸ hframe.tidy.fresh
  · exact hcat ▸ hframe.tidy.parents
  · exact hcat ▸ hframe.tidy.labelTypes
  · exact hcat ▸ hframe.tidy.roles
  · exact hcat ▸ hframe.tidy.properties
  · exact hnext ▸ hframe.nextTypeId
  · exact hcat ▸ hframe.graphs
  · exact hcat ▸ hframe.others
  · exact hcat ▸ hframe.old

theorem Within.newType {r : TypeRow} (hid : r.typeId = o.nextTypeId) (hgraph : r.graphId = gid) :
    Within gid o { o with
      catalog := { o.catalog with types := o.catalog.types ++ [r] }
      nextTypeId := o.nextTypeId + 1 } := by
  have hmono (g t : Int) (ht : t ∈ graphTypes o.catalog g) :
      t ∈ graphTypes { o.catalog with types := o.catalog.types ++ [r] } g := by
    obtain ⟨r', hr, hg, hid⟩ := mem_graphTypes.mp ht
    exact mem_graphTypes.mpr ⟨r', List.mem_append_left _ hr, hg, hid⟩
  refine fun h => ⟨⟨?_, fresh_append h.fresh hid, fun l hl => ?_, fun l hl => ?_,
    fun r' hr => ?_, fun p hp => ?_⟩, (Int.lt_succ _).le, List.Subset.refl _, fun g hg => ?_, fun t g ht hmem => ?_⟩
  · rw [List.map_append, List.map_singleton]
    refine h.typeIds.append (List.nodup_singleton _) ?_
    rw [List.disjoint_singleton]
    intro hmem
    obtain ⟨t, ht, hsame⟩ := List.mem_map.mp hmem
    exact (h.fresh t ht).ne (hsame.trans hid)
  · obtain ⟨g, h₁, h₂⟩ := h.parents l hl
    exact ⟨g, hmono g _ h₁, hmono g _ h₂⟩
  · exact hmono _ _ (h.labelTypes l hl)
  · obtain ⟨g, h₁, h₂⟩ := h.roles r' hr
    exact ⟨g, hmono g _ h₁, fun p hp => hmono g _ (h₂ p hp)⟩
  · obtain ⟨g, hg⟩ := h.properties p hp
    exact ⟨g, hmono g _ hg⟩
  · refine share_congr ?_ rfl rfl rfl rfl
    rw [List.filter_append, List.filter_cons_of_neg (by simpa [hgraph] using hg.symm), List.filter_nil,
      List.append_nil]
  · rcases graphTypes_append rfl hmem with hmem | rfl
    · exact hmem
    · exact absurd ht (by omega)

theorem Within.insertType {name : String} {kind : Kind} {table : Int → Option StorageTable} {tid : Int}
    (hins : insertType o gid name kind table = .ok (o', tid)) : Within gid o o' := by
  obtain ⟨rfl, rfl⟩ := insertType_eq_ok hins
  exact .newType rfl rfl

/-- Types, links and roles stay, and the rest changes within the graph. -/
theorem Within.rows (hgraphs : c'.graphs = o.catalog.graphs) (htypes : c'.types = o.catalog.types)
    (hlinks : c'.typeParent = o.catalog.typeParent)
    (hroles : c'.roles = o.catalog.roles)
    (hlabels : ∀ l ∈ c'.labels, l ∈ o.catalog.labels ∨ l.typeId ∈ graphTypes o.catalog l.graphId)
    (hrows : Tidy o → ∀ p ∈ c'.properties, ∃ g, p.typeId ∈ graphTypes o.catalog g)
    (hprops : Tidy o → ∀ g, g ≠ gid →
      (c'.properties.filter fun p => p.typeId ∈ graphTypes o.catalog g) =
        o.catalog.properties.filter fun p => p.typeId ∈ graphTypes o.catalog g)
    (htemporal : Tidy o → ∀ g, g ≠ gid → (c'.temporal.filter fun t => t ∈ graphTypes o.catalog g) =
      o.catalog.temporal.filter fun t => t ∈ graphTypes o.catalog g) :
    Within gid o { o with catalog := c' } := by
  have hids (g : Int) : graphTypes c' g = graphTypes o.catalog g := by
    simp only [graphTypes, htypes]
  refine fun h => ⟨⟨?_, ?_, ?_, fun l hl => ?_, ?_, ?_⟩, le_rfl, hgraphs ▸ List.Subset.refl _,
    fun g hg => ?_, fun t g _ hmem => ?_⟩
  · simpa only [htypes] using h.typeIds
  · simpa only [htypes] using h.fresh
  · simpa only [hlinks, hids] using h.parents
  · change l.typeId ∈ graphTypes c' l.graphId
    rw [hids]
    exact (hlabels l hl).elim (h.labelTypes l) id
  · simpa only [hroles, hids] using h.roles
  · simpa only [hids] using hrows h
  · exact share_congr (by rw [htypes]) (by rw [hlinks]) (hprops h g hg) (by rw [hroles])
      (htemporal h g hg)
  · exact hids g ▸ hmem

theorem labels_of_relabelGraph (hrel : relabelGraph c gid = .ok c') {l : Label} (hl : l ∈ c'.labels) :
    l ∈ c.labels ∨ l.typeId ∈ graphTypes c l.graphId := by
  by_cases hdag : loadDag c gid = []
  · simp only [relabelGraph, hdag, if_true] at hrel
    obtain rfl := Except.ok.inj hrel
    exact .inl hl
  · simp only [relabelGraph, hdag, if_false] at hrel
    obtain ⟨labels, hlabels, hrel⟩ := bind_eq_ok.mp hrel
    obtain rfl := pure_eq_ok.mp hrel
    rcases List.mem_append.mp hl with hl | hl
    · exact .inl (List.mem_filter.mp hl).1
    · obtain ⟨-, hgraph, hroots, -⟩ := labelsOf_eq_ok hlabels
      obtain ⟨root, hroot, hreach⟩ := hroots l hl
      rw [hgraph l hl]
      exact .inr (mem_graphTypes_of_reaches hreach (rootsOf_subset hroot))

theorem Within.relabel (hrel : relabelGraph o.catalog gid = .ok c') :
    Within gid o { o with catalog := c' } := by
  have hcat := relabelGraph_eq hrel
  refine .rows ?_ ?_ ?_ ?_ (fun l hl => labels_of_relabelGraph hrel hl) (fun h => ?_) (fun _ g _ => ?_)
    fun _ g _ => ?_
  all_goals rw [hcat]
  exact h.properties

/-- Links within the graph come and go. -/
theorem Within.links {links : List (Int × Int)}
    (hnew : ∀ l ∈ links, l ∈ o.catalog.typeParent ∨
      l.1 ∈ graphTypes o.catalog gid ∧ l.2 ∈ graphTypes o.catalog gid)
    (hsame : Tidy o → ∀ g, g ≠ gid → (links.filter fun l => l.1 ∈ graphTypes o.catalog g) =
      o.catalog.typeParent.filter fun l => l.1 ∈ graphTypes o.catalog g) :
    Within gid o { o with catalog := { o.catalog with typeParent := links } } := by
  refine fun h => ⟨⟨h.typeIds, h.fresh, fun l hl => ?_, h.labelTypes, h.roles, h.properties⟩, le_rfl,
    List.Subset.refl _, fun g hg => share_congr rfl (hsame h g hg) rfl rfl rfl, fun _ _ _ => id⟩
  exact (hnew l hl).elim (h.parents l) fun hg => ⟨gid, hg⟩

theorem Within.link {tid pid : Int} (ht : tid ∈ graphTypes o.catalog gid)
    (hp : pid ∈ graphTypes o.catalog gid) :
    Within gid o { o with
      catalog := { o.catalog with typeParent := o.catalog.typeParent ++ [(tid, pid)] } } := by
  refine .links (fun l hl => ?_) fun h g hg => ?_
  · rcases List.mem_append.mp hl with hl | hl
    · exact .inl hl
    · obtain rfl := List.mem_singleton.mp hl
      exact .inr ⟨ht, hp⟩
  · rw [List.filter_append, List.filter_cons_of_neg (by simpa using not_mem_other h ht hg),
      List.filter_nil, List.append_nil]

theorem Within.insertParents {tid : Int} {pids : List Int} (ht : tid ∈ graphTypes o.catalog gid)
    (hp : ∀ pid ∈ pids, pid ∈ graphTypes o.catalog gid) :
    Within gid o { o with catalog := { o.catalog with
      typeParent := o.catalog.typeParent ++ pids.map fun pid => (tid, pid) } } := by
  refine .links (fun l hl => ?_) fun h g hg => ?_
  · rcases List.mem_append.mp hl with hl | hl
    · exact .inl hl
    · obtain ⟨pid, hpid, rfl⟩ := List.mem_map.mp hl
      exact .inr ⟨ht, hp pid hpid⟩
  · have hnone : (pids.map fun pid => (tid, pid)).filter (fun l => l.1 ∈ graphTypes o.catalog g) = [] := by
      refine List.filter_eq_nil_iff.mpr fun l hl => ?_
      obtain ⟨pid, -, rfl⟩ := List.mem_map.mp hl
      simpa using not_mem_other h ht hg
    rw [List.filter_append, hnone, List.append_nil]

/-- Types of no other graph go, with the rows that refer to them. -/
theorem Within.forget {gone : List Int} (hout : ∀ t ∈ gone, ∀ g, g ≠ gid → t ∉ graphTypes o.catalog g)
    (hgraphs : c'.graphs ⊆ o.catalog.graphs)
    (htypes : c'.types = o.catalog.types.filter fun t => t.typeId ∉ gone)
    (hlinks : c'.typeParent = o.catalog.typeParent.filter fun l => l.1 ∉ gone ∧ l.2 ∉ gone)
    (hlabels : c'.labels = o.catalog.labels.filter fun l => l.typeId ∉ gone)
    (hprops : c'.properties = o.catalog.properties.filter fun p => p.typeId ∉ gone)
    (hroles : c'.roles = o.catalog.roles.filter fun r => r.relTypeId ∉ gone)
    (htemporal : c'.temporal = o.catalog.temporal.filter fun t => t ∉ gone)
    (hplayed : ∀ r ∈ c'.roles, ∀ p ∈ r.playerTypeId, p ∉ gone) :
    Within gid o { o with catalog := c' } := by
  have hkeep (g t : Int) (ht : t ∈ graphTypes o.catalog g) (hne : t ∉ gone) :
      t ∈ graphTypes c' g := by
    obtain ⟨r, hr, hg, rfl⟩ := mem_graphTypes.mp ht
    rw [mem_graphTypes, htypes]
    exact ⟨r, List.mem_filter.mpr ⟨hr, decide_eq_true hne⟩, hg, rfl⟩
  have hne (g t : Int) (hg : g ≠ gid) (ht : t ∈ graphTypes o.catalog g) : t ∉ gone :=
    fun hmem => hout t hmem g hg ht
  refine fun h => ⟨⟨?_, fun t ht => ?_, fun l hl => ?_, fun l hl => ?_, fun r hr => ?_,
    fun p hp => ?_⟩, le_rfl, hgraphs, fun g hg => share_congr ?_ ?_ ?_ ?_ ?_, fun t g _ hmem => ?_⟩
  · change (c'.types.map (·.typeId)).Nodup
    rw [htypes]
    exact h.typeIds.sublist (List.filter_sublist.map _)
  · have ht : t ∈ c'.types := ht
    rw [htypes] at ht
    exact h.fresh t (List.mem_filter.mp ht).1
  · have hl : l ∈ c'.typeParent := hl
    rw [hlinks] at hl
    obtain ⟨hl, hends⟩ := List.mem_filter.mp hl
    obtain ⟨g, h₁, h₂⟩ := h.parents l hl
    have hends := of_decide_eq_true hends
    exact ⟨g, hkeep g _ h₁ hends.1, hkeep g _ h₂ hends.2⟩
  · have hl : l ∈ c'.labels := hl
    rw [hlabels] at hl
    obtain ⟨hl, hlabel⟩ := List.mem_filter.mp hl
    exact hkeep _ _ (h.labelTypes l hl) (of_decide_eq_true hlabel)
  · have hrow : r ∈ c'.roles := hr
    rw [hroles] at hrow
    obtain ⟨hrow, hrel⟩ := List.mem_filter.mp hrow
    obtain ⟨g, h₁, h₂⟩ := h.roles r hrow
    exact ⟨g, hkeep g _ h₁ (of_decide_eq_true hrel), fun p hp => hkeep g _ (h₂ p hp) (hplayed r hr p hp)⟩
  · have hp : p ∈ c'.properties := hp
    rw [hprops] at hp
    obtain ⟨hp, hkept⟩ := List.mem_filter.mp hp
    obtain ⟨g, hg⟩ := h.properties p hp
    exact ⟨g, hkeep g _ hg (of_decide_eq_true hkept)⟩
  · dsimp only
    rw [htypes, List.filter_filter]
    refine List.filter_congr fun t ht => ?_
    by_cases hgraph : t.graphId = g
    · simp [hgraph, hne g t.typeId hg (mem_graphTypes.mpr ⟨t, ht, hgraph, rfl⟩)]
    · simp [hgraph]
  · dsimp only
    rw [hlinks, List.filter_filter]
    refine List.filter_congr fun l hl => ?_
    by_cases hlg : l.1 ∈ graphTypes o.catalog g
    · obtain ⟨g', h₁, h₂⟩ := h.parents l hl
      obtain rfl := h.graph_unique h₁ hlg
      simp [hne g' l.1 hg h₁, hne g' l.2 hg h₂]
    · simp [hlg]
  · dsimp only
    rw [hprops, List.filter_filter]
    refine List.filter_congr fun p _ => ?_
    by_cases hpg : p.typeId ∈ graphTypes o.catalog g
    · simp [hne g p.typeId hg hpg]
    · simp [hpg]
  · dsimp only
    rw [hroles, List.filter_filter]
    refine List.filter_congr fun r _ => ?_
    by_cases hrg : r.relTypeId ∈ graphTypes o.catalog g
    · simp [hne g r.relTypeId hg hrg]
    · simp [hrg]
  · dsimp only
    rw [htemporal, List.filter_filter]
    refine List.filter_congr fun t _ => ?_
    by_cases htg : t ∈ graphTypes o.catalog g
    · simp [hne g t hg htg]
    · simp [htg]
  · obtain ⟨r, hr, hg, rfl⟩ := mem_graphTypes.mp hmem
    have hr : r ∈ c'.types := hr
    rw [htypes] at hr
    exact mem_graphTypes.mpr ⟨r, (List.mem_filter.mp hr).1, hg, rfl⟩

theorem Within.deleteType {tid : Int} (hout : ∀ g, g ≠ gid → tid ∉ graphTypes o.catalog g)
    (hdel : SchemaChanges.deleteType o.catalog tid = .ok c') : Within gid o { o with catalog := c' } := by
  simp only [SchemaChanges.deleteType] at hdel
  split at hdel
  · cases hdel
  next hplayed =>
  obtain rfl := Except.ok.inj hdel
  refine .forget (fun t ht => List.mem_singleton.mp ht ▸ hout) (List.Subset.refl _) ?_ ?_ ?_ ?_ ?_ ?_
    fun r hr p hp hmem => ?_
  iterate 6 simp only [List.mem_singleton, ne_eq]
  obtain rfl := List.mem_singleton.mp hmem
  obtain ⟨hrow, hrel⟩ := List.mem_filter.mp hr
  exact hplayed (List.any_eq_true.mpr ⟨r, hrow, decide_eq_true ⟨hp, of_decide_eq_true hrel⟩⟩)

theorem Within.deleteTypes {tids : List Int}
    (hout : ∀ tid ∈ tids, ∀ g, g ≠ gid → tid ∉ graphTypes o.catalog g)
    (hdel : tids.foldlM SchemaChanges.deleteType o.catalog = .ok c') :
    Within gid o { o with catalog := c' } := by
  induction tids generalizing o with
  | nil =>
      obtain rfl := pure_eq_ok.mp hdel
      exact .refl gid o
  | cons tid tids ih =>
      obtain ⟨mid, hmid, hrest⟩ := foldlM_cons_eq_ok.mp hdel
      intro htidy
      have hfirst : Within gid o { o with catalog := mid } :=
        .deleteType (hout tid (List.mem_cons_self ..)) hmid
      refine hfirst.trans (ih (o := { o with catalog := mid }) (fun t ht g hg => ?_) hrest) htidy
      rw [graphTypes_of_share ((hfirst htidy).others g hg)]
      exact hout t (List.mem_cons_of_mem _ ht) g hg

/-- Rows of properties of the graph are edited. -/
theorem Within.properties {ps : List Property}
    (hrows : Tidy o → ∀ p ∈ ps, ∃ g, p.typeId ∈ graphTypes o.catalog g)
    (hprops : Tidy o → ∀ g, g ≠ gid → (ps.filter fun p => p.typeId ∈ graphTypes o.catalog g) =
      o.catalog.properties.filter fun p => p.typeId ∈ graphTypes o.catalog g) :
    Within gid o { o with catalog := { o.catalog with properties := ps } } :=
  .rows rfl rfl rfl rfl (fun _ hl => .inl hl) hrows hprops fun _ _ _ => rfl

theorem Within.insertProperties {rows : List Property}
    (hrows : Tidy o → ∀ r ∈ rows, r.typeId ∈ graphTypes o.catalog gid) :
    Within gid o { o with
      catalog := { o.catalog with properties := rows.foldl insertProperty o.catalog.properties } } := by
  refine .properties (fun h p hp => ?_) fun h g hg => ?_
  · rcases mem_insertProperties hp with hp | ⟨hp, -⟩
    · exact h.properties p hp
    · exact ⟨gid, hrows h p hp⟩
  have hout (r : Property) (hr : r ∈ rows) : r.typeId ∉ graphTypes o.catalog g :=
    not_mem_other h (hrows h r hr) hg
  clear hrows
  generalize o.catalog.properties = ps
  induction rows generalizing ps with
  | nil => rfl
  | cons r rows ih =>
      rw [List.foldl_cons, ih (fun r' hr' => hout r' (List.mem_cons_of_mem _ hr'))]
      unfold insertProperty
      split
      · rfl
      · rw [List.filter_append, List.filter_cons_of_neg (by simpa using hout r (List.mem_cons_self ..)),
          List.filter_nil, List.append_nil]

theorem Within.appendProperties {rows : List Property}
    (hrows : Tidy o → ∀ r ∈ rows, r.typeId ∈ graphTypes o.catalog gid) :
    Within gid o { o with
      catalog := { o.catalog with properties := o.catalog.properties ++ rows } } := by
  refine .properties (fun h p hp => ?_) fun h g hg => ?_
  · rcases List.mem_append.mp hp with hp | hp
    · exact h.properties p hp
    · exact ⟨gid, hrows h p hp⟩
  have hnone : rows.filter (fun p => p.typeId ∈ graphTypes o.catalog g) = [] := by
    refine List.filter_eq_nil_iff.mpr fun r hr => ?_
    simpa using not_mem_other h (hrows h r hr) hg
  rw [List.filter_append, hnone, List.append_nil]

theorem Within.updateProperties {cond : Property → Prop} [DecidablePred cond] {f : Property → Property}
    (hf : ∀ p, (f p).typeId = p.typeId)
    (hcond : Tidy o → ∀ p, cond p → p.typeId ∈ graphTypes o.catalog gid) :
    Within gid o { o with
      catalog := { o.catalog with properties := KeyedRows.update cond f o.catalog.properties } } := by
  refine .properties (fun h p hp => ?_) fun h g hg => ?_
  · obtain ⟨q, hq, rfl⟩ := List.mem_map.mp hp
    split
    · exact hf q ▸ h.properties q hq
    · exact h.properties q hq
  unfold KeyedRows.update
  rw [List.filter_map]
  have hsame : (fun p : Property => decide (p.typeId ∈ graphTypes o.catalog g)) ∘
      (fun p => if cond p then f p else p) = fun p => decide (p.typeId ∈ graphTypes o.catalog g) := by
    funext p
    simp only [Function.comp_apply]
    split
    · rw [hf]
    · rfl
  rw [hsame]
  refine (List.map_congr_left fun p hp => if_neg fun hc => ?_).trans (List.map_id _)
  exact not_mem_other h (hcond h p hc) hg (of_decide_eq_true (List.mem_filter.mp hp).2)

theorem Within.filterProperties {keep : Property → Bool}
    (hkeep : Tidy o → ∀ p, keep p = false → p.typeId ∈ graphTypes o.catalog gid) :
    Within gid o { o with
      catalog := { o.catalog with properties := o.catalog.properties.filter keep } } := by
  refine .properties (fun h p hp => h.properties p (List.mem_filter.mp hp).1) fun h g hg => ?_
  rw [List.filter_filter]
  refine List.filter_congr fun p _ => ?_
  by_cases hp : p.typeId ∈ graphTypes o.catalog g
  · cases hk : keep p with
    | true => simp
    | false => exact absurd hp (not_mem_other h (hkeep h p hk) hg)
  · simp [hp]

/-- Roles of the graph are edited, and their players are of the graph. -/
theorem Within.roles {roles : List Role}
    (hrows : Tidy o → ∀ r ∈ roles, ∃ g, r.relTypeId ∈ graphTypes o.catalog g ∧
      ∀ p ∈ r.playerTypeId, p ∈ graphTypes o.catalog g)
    (hsame : Tidy o → ∀ g, g ≠ gid → (roles.filter fun r => r.relTypeId ∈ graphTypes o.catalog g) =
      o.catalog.roles.filter fun r => r.relTypeId ∈ graphTypes o.catalog g) :
    Within gid o { o with catalog := { o.catalog with roles := roles } } :=
  fun h => ⟨⟨h.typeIds, h.fresh, h.parents, h.labelTypes, hrows h, h.properties⟩, le_rfl,
    List.Subset.refl _, fun g hg => share_congr rfl rfl rfl (hsame h g hg) rfl, fun _ _ _ => id⟩

theorem Within.appendRole {r : Role} (hrel : r.relTypeId ∈ graphTypes o.catalog gid)
    (hplayer : ∀ p ∈ r.playerTypeId, p ∈ graphTypes o.catalog gid) :
    Within gid o { o with catalog := { o.catalog with roles := o.catalog.roles ++ [r] } } := by
  refine .roles (fun h q hq => ?_) fun h g hg => ?_
  · rcases List.mem_append.mp hq with hq | hq
    · exact h.roles q hq
    · obtain rfl := List.mem_singleton.mp hq
      exact ⟨gid, hrel, hplayer⟩
  · rw [List.filter_append, List.filter_cons_of_neg (by simpa using not_mem_other h hrel hg),
      List.filter_nil, List.append_nil]

/-- The players of some roles of the graph are set. -/
theorem Within.mapRoles {cond : Role → Prop} [DecidablePred cond] {f : Role → Role}
    (hf : ∀ r, (f r).relTypeId = r.relTypeId)
    (hcond : ∀ r, cond r → ∀ g, r.relTypeId ∈ graphTypes o.catalog g → g = gid)
    (hplayer : ∀ r, cond r → ∀ p ∈ (f r).playerTypeId, p ∈ graphTypes o.catalog gid) :
    Within gid o { o with catalog := { o.catalog with
      roles := o.catalog.roles.map fun r => if cond r then f r else r } } := by
  refine .roles (fun h q hq => ?_) fun h g hg => ?_
  · obtain ⟨r, hr, rfl⟩ := List.mem_map.mp hq
    obtain ⟨g, h₁, h₂⟩ := h.roles r hr
    split
    · next hc =>
      refine ⟨g, (hf r).symm ▸ h₁, fun p hp => ?_⟩
      rw [hcond r hc g h₁]
      exact hplayer r hc p hp
    · exact ⟨g, h₁, h₂⟩
  · rw [List.filter_map]
    have hsame : (fun r : Role => decide (r.relTypeId ∈ graphTypes o.catalog g)) ∘
        (fun r => if cond r then f r else r) = fun r => decide (r.relTypeId ∈ graphTypes o.catalog g) := by
      funext r
      simp only [Function.comp_apply]
      split
      · rw [hf]
      · rfl
    rw [hsame]
    refine (List.map_congr_left fun r hr => if_neg fun hc => ?_).trans (List.map_id _)
    exact hg (hcond r hc g (of_decide_eq_true (List.mem_filter.mp hr).2))

/-- What types are called, or where they are stored. -/
theorem Within.mapTypes {f : TypeRow → TypeRow}
    (hf : ∀ t, (f t).typeId = t.typeId ∧ (f t).graphId = t.graphId)
    (hself : Tidy o → ∀ t ∈ o.catalog.types, t.graphId ≠ gid → f t = t) :
    Within gid o { o with catalog := { o.catalog with types := o.catalog.types.map f } } := by
  have hids (g : Int) : graphTypes { o.catalog with types := o.catalog.types.map f } g =
      graphTypes o.catalog g := by
    simp only [graphTypes, List.filter_map, List.map_map, Function.comp_def, (hf _).1, (hf _).2]
  refine fun h => ⟨⟨?_, fun t ht => ?_, ?_, fun l hl => ?_, ?_, ?_⟩, le_rfl, List.Subset.refl _,
    fun g hg => ?_, fun t g _ hmem => ?_⟩
  · simpa only [List.map_map, Function.comp_def, (hf _).1] using h.typeIds
  · obtain ⟨t₀, ht₀, rfl⟩ := List.mem_map.mp ht
    exact (hf t₀).1 ▸ h.fresh t₀ ht₀
  · simpa only [hids] using h.parents
  · simpa only [hids] using h.labelTypes l hl
  · simpa only [hids] using h.roles
  · simpa only [hids] using h.properties
  · refine share_congr ?_ rfl rfl rfl rfl
    change (o.catalog.types.map f).filter _ = _
    rw [List.filter_map]
    have hcond : (fun t => decide (t.graphId = g)) ∘ f = fun t => decide (t.graphId = g) := by
      funext t
      simp only [Function.comp_def, (hf t).2]
    rw [hcond]
    refine (List.map_congr_left fun t ht => ?_).trans (List.map_id _)
    obtain ⟨ht, hgraph⟩ := List.mem_filter.mp ht
    exact hself h t ht (of_decide_eq_true hgraph ▸ hg)
  · exact hids g ▸ hmem

theorem Within.renameType {tid : Int} {new : String} (ht : tid ∈ graphTypes o.catalog gid) :
    Within gid o { o with catalog := { o.catalog with
      types := o.catalog.types.map fun t => if t.typeId = tid then { t with name := new } else t } } := by
  refine .mapTypes (fun t => ?_) fun htidy t hmem hgraph => if_neg fun hid => hgraph ?_
  · split <;> exact ⟨rfl, rfl⟩
  · exact htidy.graph_unique (graphTypes_of_mem hmem) (hid ▸ ht)

theorem typeId_graph {name : String} {tid : Int} (h : typeId c gid name = .ok tid) :
    tid ∈ graphTypes c gid := tryTypeId_mem (typeId_eq_ok.mp h)

end Steps

/-- What an operation on one graph leaves of a schema: no change is new. -/
def Leaves (gid : Int) (s s' : State) : Prop := Within gid s.o s'.o ∧ s'.changes ⊆ s.changes

section Operations

variable {c c' : Catalog} {o o' : Ontology} {s s' s₁ : State} {gid : Int} {ch : Change}

/-- A new type, with properties of its own as the rest. -/
theorem Within.createRest {name : String} {kind : Kind} {parents : List String} {isAbstract : Bool}
    {rest : Rest} (hrest : ∀ c₀ c₁, rest.run c₀ = .ok c₁ →
      ∃ rows : List Property, (∀ r ∈ rows, r.typeId = o.nextTypeId) ∧
        c₁ = { c₀ with properties := rows.foldl insertProperty c₀.properties })
    (hop : SchemaChanges.createType o gid name kind parents isAbstract rest = .ok o') :
    Within gid o o' := by
  obtain ⟨pids, c₁, hpids, hrun, hrel, hnext⟩ := createType_eq_ok hop
  obtain ⟨rows, hrows, rfl⟩ := hrest _ _ hrun
  let o₁ : Ontology := { o with
    catalog := { o.catalog with types := o.catalog.types ++
      [⟨o.nextTypeId, gid, name, kind, instanceTable kind isAbstract o.nextTypeId⟩] }
    nextTypeId := o.nextTypeId + 1 }
  have hnew : Within gid o o₁ := .newType rfl rfl
  have hmem : o.nextTypeId ∈ graphTypes o₁.catalog gid :=
    mem_graphTypes.mpr ⟨_, List.mem_append_right _ (List.mem_singleton_self _), rfl, rfl⟩
  have hparents (pid : Int) (hpid : pid ∈ pids) : pid ∈ graphTypes o₁.catalog gid := by
    obtain ⟨parent, -, hp⟩ := mapM_mem hpids hpid
    obtain ⟨t, ht, hg, hid⟩ := mem_graphTypes.mp (parentId_mem hp)
    exact mem_graphTypes.mpr ⟨t, List.mem_append_left _ ht, hg, hid⟩
  have hlinked := hnew.trans (.insertParents hmem hparents)
  have hinherited := hlinked.trans (.insertProperties fun _ r (hr : r ∈ rows) =>
    (hrows r hr).symm ▸ hmem)
  exact (hinherited.trans (.relabel hrel)).congr rfl hnext

theorem Within.createPlain {name : String} {kind : Kind} {parents : List String} {isAbstract : Bool}
    (hop : SchemaChanges.createType o gid name kind parents isAbstract Rest.none = .ok o') :
    Within gid o o' :=
  .createRest (fun _ _ hrun => ⟨[], by simp, (Except.ok.inj hrun).symm⟩) hop

theorem Leaves.createType {graph name : String} {kind : Kind} {parents : List String}
    {isAbstract : Bool} (hgid : graphId s.o.catalog graph = .ok gid)
    (hop : SchemaEvolution.createType s graph name kind parents isAbstract = .ok s') :
    Leaves gid s s' := by
  simp only [SchemaEvolution.createType] at hop
  obtain ⟨gid', hgid', hop⟩ := bind_eq_ok.mp hop
  obtain rfl := Except.ok.inj (hgid.symm.trans hgid')
  obtain ⟨pids, -, hop⟩ := bind_eq_ok.mp hop
  split at hop
  · obtain ⟨o₁, ho₁, hop⟩ := bind_eq_ok.mp hop
    obtain rfl := pure_eq_ok.mp hop
    refine ⟨?_, by simp⟩
    rw [enableTemporalTable_o]
    refine .createRest (fun c₀ c₁ hrun => ⟨_, fun r hr => ?_, (Except.ok.inj hrun).symm⟩) ho₁
    obtain ⟨p, -, rfl⟩ := mem_copies.mp hr
    rfl
  · obtain ⟨o₁, ho₁, hop⟩ := bind_eq_ok.mp hop
    obtain rfl := pure_eq_ok.mp hop
    exact ⟨.createPlain ho₁, List.Subset.refl _⟩

theorem Leaves.dropType {graph name : String} {cascade : Bool} {instances : List Int → Nat}
    (hgid : graphId s.o.catalog graph = .ok gid)
    (hop : SchemaEvolution.dropType s graph name cascade instances = .ok s') : Leaves gid s s' := by
  simp only [SchemaEvolution.dropType] at hop
  obtain ⟨gid', hgid', hop⟩ := bind_eq_ok.mp hop
  obtain rfl := Except.ok.inj (hgid.symm.trans hgid')
  obtain ⟨tid, ht, hop⟩ := bind_eq_ok.mp hop
  obtain ⟨o₁, ho₁, hop⟩ := bind_eq_ok.mp hop
  obtain rfl := pure_eq_ok.mp hop
  obtain ⟨tid', c₁, ht', hdel, hrel, hnext⟩ := dropType_eq_ok ho₁
  obtain rfl := Except.ok.inj (ht.symm.trans ht')
  refine ⟨fun htidy => ?_, List.Subset.refl _⟩
  have hdeleted : Within gid s.o { s.o with catalog := c₁ } := by
    refine .deleteTypes (fun sub hsub g hg hmem => ?_) hdel
    exact hg (htidy.graph_unique hmem (htidy.ogSubtypes_graph (typeId_graph ht) hsub))
  exact (hdeleted.trans (.relabel hrel)).congr rfl hnext htidy

theorem Leaves.dropGraph {graph : String} (hgid : graphId s.o.catalog graph = .ok gid)
    (hop : SchemaEvolution.dropGraph s graph = .ok s') : Leaves gid s s' := by
  simp only [SchemaEvolution.dropGraph] at hop
  obtain ⟨gid', hgid', hop⟩ := bind_eq_ok.mp hop
  obtain rfl := Except.ok.inj (hgid.symm.trans hgid')
  obtain ⟨_, hplayed, hop⟩ := bind_eq_ok.mp hop
  have hplayed := require_eq_ok.mp hplayed
  obtain rfl := pure_eq_ok.mp hop
  refine ⟨fun htidy => ?_, fun ch hch => (List.mem_filter.mp hch).1⟩
  refine Within.forget (fun t (ht : t ∈ graphTypes s.o.catalog gid) g hg hmem =>
    hg (htidy.graph_unique hmem ht)) (fun g hg => (List.mem_filter.mp hg).1) ?_ rfl rfl rfl rfl rfl
    (fun r hr p hp hmem => ?_) htidy
  · refine List.filter_congr fun t ht => decide_eq_decide.mpr (not_congr ?_)
    exact ⟨fun hg => hg ▸ graphTypes_of_mem ht, fun hmem =>
      htidy.graph_unique (graphTypes_of_mem ht) hmem⟩
  · obtain ⟨hrow, hrel⟩ := List.mem_filter.mp hr
    refine hplayed (List.any_eq_true.mpr ⟨r, hrow, decide_eq_true ⟨?_, of_decide_eq_true hrel⟩⟩)
    exact (Option.any_eq_true _ _).mpr ⟨p, hp, decide_eq_true hmem⟩

theorem Leaves.addProperty {session : Session} {typeName prop dtype : String}
    (hop : SchemaEvolution.addProperty session s gid typeName prop dtype = .ok s') :
    Leaves gid s s' := by
  obtain ⟨tid, ht, -, rfl⟩ := addProperty_eq_ok hop
  refine ⟨.insertProperties fun htidy r hr => ?_, List.Subset.refl _⟩
  obtain ⟨sub, hsub, rfl⟩ := List.mem_map.mp hr
  rcases List.mem_cons.mp hsub with rfl | hsub
  · exact typeId_graph ht
  · exact htidy.ogSubtypes_graph (typeId_graph ht) (mem_tables.mp hsub).1

theorem Leaves.widen {tid : Int} {prop : String} (htid : tid ∈ graphTypes s.o.catalog gid)
    (hop : widenProperty s tid prop = .ok s') : Leaves gid s s' := by
  simp only [widenProperty] at hop
  obtain ⟨p, -, hop⟩ := bind_eq_ok.mp hop
  obtain ⟨-, -, hop⟩ := bind_eq_ok.mp hop
  obtain ⟨-, -, hop⟩ := bind_eq_ok.mp hop
  obtain rfl := pure_eq_ok.mp hop
  exact ⟨.updateProperties (fun _ => rfl) fun htidy q hq => htidy.ogSubtypes_graph htid hq.1,
    List.Subset.refl _⟩

theorem Leaves.enableTemporal {graph name : String} (hgid : graphId s.o.catalog graph = .ok gid)
    (hop : SchemaEvolution.enableTemporal s graph name = .ok s') : Leaves gid s s' := by
  simp only [SchemaEvolution.enableTemporal] at hop
  obtain ⟨gid', hgid', hop⟩ := bind_eq_ok.mp hop
  obtain rfl := Except.ok.inj (hgid.symm.trans hgid')
  obtain ⟨tid, ht, hop⟩ := bind_eq_ok.mp hop
  obtain ⟨kind, -, hop⟩ := bind_eq_ok.mp hop
  obtain ⟨-, -, hop⟩ := bind_eq_ok.mp hop
  obtain rfl := pure_eq_ok.mp hop
  obtain ⟨ho, hchanges, -⟩ := foldl_frame (f := enableTable)
    (fun s sub => ⟨enableTable_o, enableTable_changes, enableTable_nextChange⟩)
    (s.withCatalog { s.o.catalog with
      temporal := if tid ∈ s.o.catalog.temporal then s.o.catalog.temporal else tid :: s.o.catalog.temporal })
    (tables s.o.catalog tid)
  refine ⟨?_, hchanges ▸ List.Subset.refl _⟩
  rw [ho]
  refine .rows rfl rfl rfl rfl (fun _ hl => .inl hl) (fun htidy => htidy.properties) (fun _ _ _ => rfl)
    fun htidy g hg => ?_
  have hout := not_mem_other htidy (typeId_graph ht) hg
  dsimp only
  split
  · rfl
  · exact List.filter_cons_of_neg (by simpa using hout)

theorem typeOf_graph {tid : Int} (h : typeOf s ch = .ok tid) : tid ∈ graphTypes s.o.catalog ch.gid :=
  typeId_graph h

theorem Within.deleteName {tid : Int} {name : String} (htid : tid ∈ graphTypes s.o.catalog gid) :
    Within gid s.o (s.withProperties
      (SchemaEvolution.deleteName s.o.catalog (ogSubtypes s.o.catalog tid) name)).o := by
  refine .filterProperties fun htidy p hp => htidy.ogSubtypes_graph htid ?_
  simp only [decide_eq_false_iff_not, not_not] at hp
  exact hp.1

theorem Within.updateColumnRows {tid : Int} {column : String} {f : Property → Property}
    (hf : ∀ p, (f p).typeId = p.typeId) (htid : tid ∈ graphTypes s.o.catalog gid) :
    Within gid s.o (s.withProperties
      (SchemaEvolution.updateColumnRows s.o.catalog (ogSubtypes s.o.catalog tid) column f)).o :=
  .updateProperties hf fun htidy _ hp => htidy.ogSubtypes_graph htid hp.1

theorem Leaves.expand {session : Session} (hop : SchemaEvolution.expand session s ch = .ok s₁) :
    Leaves ch.gid s s₁ := by
  cases hspec : ch.spec with
  | addProperty type prop dtype =>
      simp only [SchemaEvolution.expand, hspec] at hop
      exact .addProperty hop
  | renameProperty type old new =>
      simp only [SchemaEvolution.expand, hspec] at hop
      obtain ⟨tid, ht, hop⟩ := bind_eq_ok.mp hop
      obtain ⟨-, -, hop⟩ := bind_eq_ok.mp hop
      obtain rfl := pure_eq_ok.mp hop
      refine ⟨.appendProperties fun htidy r hr => ?_, List.Subset.refl _⟩
      obtain ⟨p, hp, rfl⟩ := List.mem_map.mp hr
      have hp := of_decide_eq_true (List.mem_filter.mp hp).2
      exact htidy.ogSubtypes_graph (typeOf_graph ht) hp.1
  | alterPropertyType type prop toSql =>
      simp only [SchemaEvolution.expand, hspec] at hop
      obtain ⟨tid, -, hop⟩ := bind_eq_ok.mp hop
      obtain ⟨-, -, hop⟩ := bind_eq_ok.mp hop
      obtain rfl := pure_eq_ok.mp hop
      exact ⟨.refl _ _, List.Subset.refl _⟩
  | setRequired type prop =>
      simp only [SchemaEvolution.expand, hspec] at hop
      obtain ⟨tid, -, hop⟩ := bind_eq_ok.mp hop
      obtain ⟨-, -, hop⟩ := bind_eq_ok.mp hop
      obtain rfl := pure_eq_ok.mp hop
      exact ⟨.refl _ _, List.Subset.refl _⟩
  | dropProperty _ _ | addUnique _ _ | renameType _ _ | addParent _ _ | removeParent _ _ =>
      simp only [SchemaEvolution.expand, hspec] at hop
      obtain rfl := pure_eq_ok.mp hop
      exact ⟨.refl _ _, List.Subset.refl _⟩

/-- A type is, or was, of the graph. -/
def Belongs (gid : Int) (o : Ontology) (t : Int) : Prop :=
  t < o.nextTypeId ∧ ∀ g, t ∈ graphTypes o.catalog g → g = gid

theorem Belongs.of_mem (h : Tidy o) {t : Int} (ht : t ∈ graphTypes o.catalog gid) :
    Belongs gid o t := by
  obtain ⟨r, hr, -, rfl⟩ := mem_graphTypes.mp ht
  exact ⟨h.fresh r hr, fun g hg => h.graph_unique hg ht⟩

theorem Belongs.frame {t g : Int} (h : Belongs g o t) (hframe : Frame gid o o') : Belongs g o' t :=
  ⟨h.1.trans_le hframe.nextTypeId, fun g' hg' => h.2 g' (hframe.old t g' h.1 hg')⟩

theorem Within.unlink {tid pid : Int} (hbelongs : Belongs gid o tid) :
    Within gid o { o with catalog := { o.catalog with
      typeParent := o.catalog.typeParent.filter fun l => l ≠ (tid, pid) } } := by
  refine .links (fun l hl => .inl (List.mem_filter.mp hl).1) fun htidy g hg => ?_
  rw [List.filter_filter]
  refine List.filter_congr fun l hl => ?_
  by_cases hmem : l.1 ∈ graphTypes o.catalog g
  · have hne : l ≠ (tid, pid) := by
      rintro rfl
      exact hg (hbelongs.2 g hmem)
    simp [hne]
  · simp [hmem]

theorem inheritTable_frame (inherited : List Property) (s : State) (sub : Int) :
    (inheritTable inherited s sub).o = s.o ∧ (inheritTable inherited s sub).changes = s.changes ∧
      (inheritTable inherited s sub).nextChange = s.nextChange := by
  simp [inheritTable]

theorem Leaves.contract_addParent {type parent : String} (hspec : ch.spec = .addParent type parent)
    (hop : SchemaEvolution.contract s ch = .ok s₁) : Leaves ch.gid s s₁ := by
  simp only [SchemaEvolution.contract, hspec] at hop
  obtain ⟨_, hends, hop⟩ := bind_eq_ok.mp hop
  obtain ⟨htid, hpid⟩ := require_eq_ok.mp hends
  obtain ⟨c₁, hlink, hop⟩ := bind_eq_ok.mp hop
  obtain ⟨c₂, hrel, hop⟩ := bind_eq_ok.mp hop
  obtain rfl := pure_eq_ok.mp hop
  obtain rfl := insertParent_eq_ok hlink
  obtain ⟨ho, hchanges, -⟩ := foldl_frame (inheritTable_frame (inheritedProperties c₂ ch.report.parentId))
    (s.withCatalog { c₂ with properties :=
      ((tables c₂ ch.report.typeId).flatMap fun sub =>
        copies sub (inheritedProperties c₂ ch.report.parentId)).foldl insertProperty c₂.properties })
    (tables c₂ ch.report.typeId)
  refine ⟨?_, hchanges ▸ List.Subset.refl _⟩
  rw [ho]
  have hlinked : Within ch.gid s.o { s.o with catalog := c₂ } :=
    (Within.link htid hpid).trans (.relabel hrel)
  refine hlinked.trans (.insertProperties fun htidy r hr => ?_)
  obtain ⟨sub, hsub, hr⟩ := List.mem_flatMap.mp hr
  obtain ⟨p, -, rfl⟩ := mem_copies.mp hr
  refine htidy.ogSubtypes_graph ?_ (mem_tables.mp hsub).1
  have htypes : c₂.types = s.o.catalog.types := by rw [relabelGraph_eq hrel]
  change ch.report.typeId ∈ graphTypes c₂ ch.gid
  simpa only [graphTypes, htypes] using htid

theorem Leaves.contract (hbelongs : Belongs ch.gid s.o ch.report.typeId)
    (hop : SchemaEvolution.contract s ch = .ok s₁) : Leaves ch.gid s s₁ := by
  cases hspec : ch.spec with
  | addProperty type prop dtype =>
      simp only [SchemaEvolution.contract, hspec] at hop
      obtain rfl := pure_eq_ok.mp hop
      exact ⟨.refl _ _, List.Subset.refl _⟩
  | dropProperty type prop =>
      simp only [SchemaEvolution.contract, hspec] at hop
      obtain ⟨tid, ht, hop⟩ := bind_eq_ok.mp hop
      obtain ⟨-, -, hop⟩ := bind_eq_ok.mp hop
      obtain rfl := pure_eq_ok.mp hop
      exact ⟨.deleteName (typeOf_graph ht), List.Subset.refl _⟩
  | renameProperty type old new =>
      simp only [SchemaEvolution.contract, hspec] at hop
      obtain ⟨tid, ht, hop⟩ := bind_eq_ok.mp hop
      obtain rfl := pure_eq_ok.mp hop
      exact ⟨.deleteName (typeOf_graph ht), List.Subset.refl _⟩
  | alterPropertyType type prop toSql =>
      simp only [SchemaEvolution.contract, hspec] at hop
      obtain ⟨tid, ht, hop⟩ := bind_eq_ok.mp hop
      simp only [contractAlter] at hop
      obtain ⟨-, -, hop⟩ := bind_eq_ok.mp hop
      obtain ⟨-, -, hop⟩ := bind_eq_ok.mp hop
      obtain rfl := pure_eq_ok.mp hop
      exact ⟨.updateColumnRows (fun _ => rfl) (typeOf_graph ht), List.Subset.refl _⟩
  | setRequired type prop =>
      simp only [SchemaEvolution.contract, hspec] at hop
      obtain ⟨tid, ht, hop⟩ := bind_eq_ok.mp hop
      obtain ⟨-, -, hop⟩ := bind_eq_ok.mp hop
      obtain rfl := pure_eq_ok.mp hop
      exact ⟨.updateColumnRows (fun _ => rfl) (typeOf_graph ht), List.Subset.refl _⟩
  | addUnique type prop =>
      simp only [SchemaEvolution.contract, hspec] at hop
      obtain ⟨tid, ht, hop⟩ := bind_eq_ok.mp hop
      obtain ⟨-, -, hop⟩ := bind_eq_ok.mp hop
      obtain rfl := pure_eq_ok.mp hop
      exact ⟨.updateColumnRows (fun _ => rfl) (typeOf_graph ht), List.Subset.refl _⟩
  | renameType type new =>
      simp only [SchemaEvolution.contract, hspec] at hop
      obtain ⟨tid, ht, hop⟩ := bind_eq_ok.mp hop
      obtain ⟨-, -, hop⟩ := bind_eq_ok.mp hop
      obtain rfl := pure_eq_ok.mp hop
      exact ⟨.renameType (typeOf_graph ht), List.Subset.refl _⟩
  | addParent type parent => exact .contract_addParent hspec hop
  | removeParent type parent =>
      simp only [SchemaEvolution.contract, hspec] at hop
      obtain ⟨c₁, hrel, hop⟩ := bind_eq_ok.mp hop
      obtain rfl := pure_eq_ok.mp hop
      exact ⟨(Within.unlink hbelongs).trans (.relabel hrel), List.Subset.refl _⟩

theorem Leaves.abort (hop : SchemaEvolution.abort s ch = .ok s₁) : Leaves ch.gid s s₁ := by
  cases hspec : ch.spec with
  | renameProperty type old new =>
      simp only [SchemaEvolution.abort, hspec] at hop
      obtain ⟨tid, ht, hop⟩ := bind_eq_ok.mp hop
      obtain rfl := pure_eq_ok.mp hop
      exact ⟨.deleteName (typeOf_graph ht), List.Subset.refl _⟩
  | alterPropertyType type prop toSql =>
      simp only [SchemaEvolution.abort, hspec] at hop
      obtain ⟨tid, -, hop⟩ := bind_eq_ok.mp hop
      obtain ⟨-, -, hop⟩ := bind_eq_ok.mp hop
      obtain rfl := pure_eq_ok.mp hop
      exact ⟨.refl _ _, List.Subset.refl _⟩
  | setRequired type prop =>
      simp only [SchemaEvolution.abort, hspec] at hop
      obtain ⟨tid, -, hop⟩ := bind_eq_ok.mp hop
      obtain rfl := pure_eq_ok.mp hop
      exact ⟨.refl _ _, List.Subset.refl _⟩
  | addProperty _ _ _ | dropProperty _ _ | addUnique _ _ | renameType _ _ | addParent _ _
  | removeParent _ _ =>
      simp only [SchemaEvolution.abort, hspec] at hop
      obtain rfl := pure_eq_ok.mp hop
      exact ⟨.refl _ _, List.Subset.refl _⟩

end Operations

section Languages

variable {c c' : Catalog} {o o' : Ontology} {s s' : State} {gid : Int}

theorem Within.ensureHasType (hop : SchemaChanges.ensureHasType o gid = .ok o') : Within gid o o' := by
  simp only [SchemaChanges.ensureHasType] at hop
  split at hop
  · obtain rfl := Except.ok.inj hop
    exact .refl gid o
  · obtain ⟨⟨o₁, tid⟩, hins, hop⟩ := bind_eq_ok.mp hop
    obtain ⟨c₁, hrel, hop⟩ := bind_eq_ok.mp hop
    obtain rfl := pure_eq_ok.mp hop
    exact (Within.insertType hins).trans (.relabel hrel)

theorem Within.declareShell {d : TypeDef} (hop : declareShell gid o d = .ok o') : Within gid o o' := by
  simp only [SchemaChanges.declareShell] at hop
  split at hop
  · obtain ⟨k, -, hop⟩ := bind_eq_ok.mp hop
    obtain ⟨-, -, hop⟩ := bind_eq_ok.mp hop
    obtain rfl := pure_eq_ok.mp hop
    exact .refl gid o
  · obtain ⟨⟨o₁, tid⟩, hins, hop⟩ := bind_eq_ok.mp hop
    obtain rfl := pure_eq_ok.mp hop
    exact .insertType hins

theorem Within.linkSub {acc acc' : Catalog × Bool} {d : TypeDef} (hop : linkSub gid acc d = .ok acc') :
    Within gid { o with catalog := acc.1 } { o with catalog := acc'.1 } := by
  simp only [SchemaChanges.linkSub] at hop
  split at hop
  · obtain rfl := Except.ok.inj hop
    exact .refl _ _
  · obtain ⟨tid, ht, hop⟩ := bind_eq_ok.mp hop
    obtain ⟨pid, hpid, hop⟩ := bind_eq_ok.mp hop
    obtain ⟨pk, -, hop⟩ := bind_eq_ok.mp hop
    obtain ⟨-, -, hop⟩ := bind_eq_ok.mp hop
    split at hop
    · obtain rfl := pure_eq_ok.mp hop
      exact .refl _ _
    · obtain rfl := pure_eq_ok.mp hop
      have hlink : Within gid { o with catalog := acc.1 } _ :=
        .link (typeId_graph ht) (typeId_graph hpid)
      exact hlink

theorem Within.linkSubs {acc acc' : Catalog × Bool} {defs : List TypeDef}
    (hop : defs.foldlM (SchemaChanges.linkSub gid) acc = .ok acc') :
    Within gid { o with catalog := acc.1 } { o with catalog := acc'.1 } := by
  induction defs generalizing acc with
  | nil =>
      obtain rfl := pure_eq_ok.mp hop
      exact .refl _ _
  | cons d defs ih =>
      obtain ⟨mid, hmid, hrest⟩ := foldlM_cons_eq_ok.mp hop
      exact (Within.linkSub hmid).trans (ih hrest)

theorem Within.runDefine {defs : List TypeDef} (hop : runDefine o gid defs Rest.none = .ok o') :
    Within gid o o' := by
  simp only [SchemaChanges.runDefine] at hop
  obtain ⟨o₁, hhas, hop⟩ := bind_eq_ok.mp hop
  obtain ⟨o₂, hshells, hop⟩ := bind_eq_ok.mp hop
  obtain ⟨⟨c₃, linked⟩, hlinks, hop⟩ := bind_eq_ok.mp hop
  obtain ⟨c₄, hrel, hop⟩ := bind_eq_ok.mp hop
  obtain ⟨c₅, hrest, hop⟩ := bind_eq_ok.mp hop
  obtain rfl := pure_eq_ok.mp hop
  obtain rfl := Except.ok.inj hrest
  have hlinked : Within gid o { o₂ with catalog := c₃ } :=
    ((Within.ensureHasType hhas).trans (.foldlM (fun _ _ _ => .declareShell) hshells)).trans
      (.linkSubs hlinks)
  cases linked with
  | true => exact hlinked.trans (.relabel hrel)
  | false =>
      obtain rfl := Except.ok.inj hrel
      exact hlinked

theorem graphTypes_giveTable {tid g : Int} {table : StorageTable} :
    graphTypes (giveTable s tid table).o.catalog g = graphTypes s.o.catalog g := by
  have hf (t : TypeRow) : (if t.typeId = tid then { t with storageTable := some table } else t).typeId =
      t.typeId ∧
      (if t.typeId = tid then { t with storageTable := some table } else t).graphId = t.graphId := by
    split <;> exact ⟨rfl, rfl⟩
  change ((s.o.catalog.types.map _).filter _).map _ = _
  simp only [graphTypes, List.filter_map, List.map_map, Function.comp_def, (hf _).1, (hf _).2]

theorem Within.giveTable {tid : Int} {table : StorageTable} (ht : tid ∈ graphTypes s.o.catalog gid) :
    Within gid s.o (giveTable s tid table).o := by
  refine .mapTypes (fun t => ?_) fun htidy t hmem hgraph => if_neg fun hid => hgraph ?_
  · split <;> exact ⟨rfl, rfl⟩
  · exact htidy.graph_unique (graphTypes_of_mem hmem) (hid ▸ ht)

theorem Leaves.ensureStorage {d : Definition} (hop : ensureStorage gid s d = .ok s') :
    Leaves gid s s' := by
  simp only [SchemaEvolution.ensureStorage] at hop
  obtain ⟨tid, ht, hop⟩ := bind_eq_ok.mp hop
  have ht := typeId_graph ht
  split at hop
  · obtain ⟨-, -, hop⟩ := bind_eq_ok.mp hop
    obtain rfl := pure_eq_ok.mp hop
    exact ⟨.refl _ _, List.Subset.refl _⟩
  · split at hop
    · obtain rfl := pure_eq_ok.mp hop
      exact ⟨.refl _ _, List.Subset.refl _⟩
    · obtain rfl := pure_eq_ok.mp hop
      have htable : Within gid s.o (SchemaEvolution.giveTable s tid ⟨.attr, tid⟩).o := .giveTable ht
      refine ⟨htable.trans (.insertProperties fun _ r (hr : r ∈ [_]) => ?_), List.Subset.refl _⟩
      rw [List.mem_singleton.mp hr, graphTypes_giveTable]
      exact ht
  · split at hop
    · obtain rfl := pure_eq_ok.mp hop
      exact ⟨.refl _ _, List.Subset.refl _⟩
    · obtain rfl := pure_eq_ok.mp hop
      exact ⟨.giveTable ht, List.Subset.refl _⟩

theorem Leaves.define {graph : String} {defs : List Definition}
    (hgid : graphId s.o.catalog graph = .ok gid) (hop : SchemaEvolution.define s graph defs = .ok s') :
    Leaves gid s s' := by
  simp only [SchemaEvolution.define] at hop
  obtain ⟨gid', hgid', hop⟩ := bind_eq_ok.mp hop
  obtain rfl := Except.ok.inj (hgid.symm.trans hgid')
  obtain ⟨o₁, hdefine, hop⟩ := bind_eq_ok.mp hop
  have hdefined : Within gid s.o o₁ := .runDefine hdefine
  refine foldlM_preserves (P := fun m : State => Leaves gid s m) (fun m d m' hm hstorage => ?_) hop
    ⟨hdefined, List.Subset.refl _⟩
  obtain ⟨hwithin, hchanges⟩ := Leaves.ensureStorage hstorage
  exact ⟨hm.1.trans hwithin, List.Subset.trans hchanges hm.2⟩

theorem Within.ensureType {iri : String} {kind : Kind}
    (hop : ensureType gid Rest.none o iri kind = .ok o') : Within gid o o' := by
  simp only [SchemaChanges.ensureType] at hop
  split at hop
  · obtain rfl := Except.ok.inj hop
    exact .refl gid o
  · obtain ⟨o₁, hcreate, hop⟩ := bind_eq_ok.mp hop
    obtain ⟨tid, -, hop⟩ := bind_eq_ok.mp hop
    obtain rfl := pure_eq_ok.mp hop
    exact (Within.createPlain hcreate).congr rfl rfl

theorem Within.linkClasses {t : Triple} (hop : linkClasses gid Rest.none o t = .ok o') :
    Within gid o o' := by
  simp only [SchemaChanges.linkClasses] at hop
  split at hop
  · split at hop
    · obtain ⟨o₁, hs, hop⟩ := bind_eq_ok.mp hop
      obtain ⟨o₂, ho, hop⟩ := bind_eq_ok.mp hop
      have h₂ := (Within.ensureType hs).trans (.ensureType ho)
      split at hop
      · next hc hpar =>
        split at hop
        · obtain rfl := pure_eq_ok.mp hop
          exact h₂
        · obtain rfl := pure_eq_ok.mp hop
          exact h₂.trans (.link (iriType_mem hc) (iriType_mem hpar))
      · obtain rfl := pure_eq_ok.mp hop
        exact h₂
    · obtain rfl := Except.ok.inj hop
      exact .refl gid o
  · obtain rfl := Except.ok.inj hop
    exact .refl gid o

end Languages

end OntologicalDb.GraphFrames
