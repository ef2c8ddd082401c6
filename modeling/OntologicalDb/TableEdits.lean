import Mathlib
import OntologicalDb.EvolutionFrames
import OntologicalDb.KeyedLoops

/-!
The columns of tables and their histories after the loops that edit them: a loop over
the subtypes of a type does to every table what its step does.
-/

namespace OntologicalDb.TableEdits

open OntologicalDb.EvolutionFrames
open OntologicalDb.KeyedLoops
open OntologicalDb.Labeling
open OntologicalDb.SchemaChanges (Ontology)
open OntologicalDb.SchemaEvolution
open OntologicalDb.TypeCatalog

/-- The columns of one table. -/
abbrev TableColumns := String → Option String

variable {cols : Columns} {hs subs : List Int} {sub tid : Int} {column dtype : String}

section Edits

/-- An edit of the storage table of a type, and of no other. -/
structure EditsCurrent (e : Int → Columns → Columns) (E : TableColumns → TableColumns) : Prop where
  own : ∀ sub cols, e sub cols (current sub) = E (cols (current sub))
  other : ∀ sub cols r, r ≠ current sub → e sub cols r = cols r

def added (column dtype : String) (cur : TableColumns) : TableColumns := fun n =>
  if n = physical column then some ((cur n).getD dtype) else cur n

def retyped (column dtype : String) (cur : TableColumns) : TableColumns := fun n =>
  if n = physical column then some dtype else cur n

def dropped (column : String) (cur : TableColumns) : TableColumns := fun n =>
  if n = physical column then none else cur n

def swapped (old new : String) (cur : TableColumns) : TableColumns := fun n =>
  if n = physical old then cur (physical new) else if n = physical new then none else cur n

/-- The first property that asks for a column makes it. -/
def copied (inherited : List Property) (cur : TableColumns) : TableColumns := fun n =>
  (cur n).or ((inherited.find? fun p => physical p.columnName = n).map (·.dataType))

/-- A column that is there stays as it is. -/
theorem added_of_some {cur : TableColumns} {n t : String} (h : cur n = some t) :
    added column dtype cur n = some t := by
  simp [added, h]

theorem added_physical {cur : TableColumns} (h : ∀ t ∈ cur (physical column), t = dtype) :
    added column dtype cur (physical column) = some dtype := by
  cases hcur : cur (physical column) with
  | none => simp [added, hcur]
  | some t => simp [added, hcur, h t hcur]

theorem addColumn_edits : EditsCurrent (fun sub => addColumn (current sub) column dtype)
    (added column dtype) where
  own := fun sub cols => by
    funext n
    simp [addColumn, added]
  other := fun sub cols r hr => by
    funext n
    simp [addColumn, hr]

theorem retypeColumn_edits : EditsCurrent (fun sub => retypeColumn (current sub) column dtype)
    (retyped column dtype) where
  own := fun sub cols => by
    funext n
    simp [retypeColumn, retyped]
  other := fun sub cols r hr => by
    funext n
    simp [retypeColumn, hr]

theorem dropColumn_edits (column : String) : EditsCurrent (fun sub => dropColumn (current sub) column) (dropped column) where
  own := fun sub cols => by
    funext n
    simp [dropColumn, dropped]
  other := fun sub cols r hr => by
    funext n
    simp [dropColumn, hr]

theorem copyColumns_edits {inherited : List Property} :
    EditsCurrent (fun sub => copyColumns sub inherited) (copied inherited) where
  own := fun sub cols => by
    induction inherited generalizing cols with
    | nil =>
        funext n
        simp [copyColumns, copied]
    | cons p ps ih =>
        have hstep : copyColumns sub (p :: ps) cols =
            copyColumns sub ps (addColumn (current sub) p.columnName p.dataType cols) := rfl
        rw [hstep, ih, addColumn_edits.own]
        funext n
        by_cases hn : physical p.columnName = n
        · subst hn
          cases hcur : cols (current sub) (physical p.columnName) <;> simp [copied, added, hcur]
        · simp [copied, added, hn, Ne.symm hn]
  other := fun sub cols r hr => by
    induction inherited generalizing cols with
    | nil => rfl
    | cons p ps ih =>
        have hstep : copyColumns sub (p :: ps) cols =
            copyColumns sub ps (addColumn (current sub) p.columnName p.dataType cols) := rfl
        rw [hstep, ih, addColumn_edits.other sub cols r hr]

end Edits

section Loops

theorem current_ne_history : current sub ≠ history tid := by
  simp [current, history]

@[simp] theorem syncHistory_current : syncHistory hs sub cols (current tid) = cols (current tid) := by
  funext n
  simp [syncHistory, current, history]

/-- A history after the columns of its table were taken over. -/
def synced (cur hist : TableColumns) : TableColumns := fun n => (cur n).or (hist n)

theorem syncHistory_own : syncHistory hs sub cols (history sub) =
    if sub ∈ hs then synced (cols (current sub)) (cols (history sub)) else cols (history sub) := by
  funext n
  by_cases hsub : sub ∈ hs <;> simp [syncHistory, synced, hsub]

theorem syncHistory_other (h : tid ≠ sub) : syncHistory hs sub cols (history tid) = cols (history tid) := by
  funext n
  simp [syncHistory, history, h]

/-- A loop that edits the storage tables and brings the histories up to date. -/
theorem foldl_synced {e : Int → Columns → Columns} {E : TableColumns → TableColumns}
    (he : EditsCurrent e E) (hnodup : subs.Nodup) (hs : List Int) (cols : Columns) (tid : Int) :
    (subs.foldl (fun cols sub => syncHistory hs sub (e sub cols)) cols) (current tid) =
        (if tid ∈ subs then E (cols (current tid)) else cols (current tid)) ∧
      (subs.foldl (fun cols sub => syncHistory hs sub (e sub cols)) cols) (history tid) =
        if tid ∈ subs ∧ tid ∈ hs then synced (E (cols (current tid))) (cols (history tid))
        else cols (history tid) := by
  have hlocal : Local (fun _ => True) (fun (cols : Columns) sub => syncHistory hs sub (e sub cols))
      (fun cols tid => (cols (current tid), cols (history tid)))
      (fun tid v => (E v.1, if tid ∈ hs then synced (E v.1) v.2 else v.2)) := by
    refine ⟨fun _ _ _ => trivial, fun cols sub _ => ?_, fun cols sub tid hne => ?_⟩
    · have hhist : e sub cols (history sub) = cols (history sub) :=
        he.other sub cols _ current_ne_history.symm
      rw [syncHistory_current, syncHistory_own, he.own, hhist]
    · have hcur : e sub cols (current tid) = cols (current tid) :=
        he.other sub cols _ (by simpa [current] using hne.symm)
      have hhist : e sub cols (history tid) = cols (history tid) :=
        he.other sub cols _ current_ne_history.symm
      rw [syncHistory_current, syncHistory_other hne.symm, hcur, hhist]
  have hview := hlocal.foldl_view (s := cols) trivial hnodup tid
  by_cases htid : tid ∈ subs
  · rw [if_pos htid] at hview
    obtain ⟨hcur, hhist⟩ := Prod.mk.inj hview
    rw [hcur, hhist]
    simp [htid]
  · rw [if_neg htid] at hview
    obtain ⟨hcur, hhist⟩ := Prod.mk.inj hview
    rw [hcur, hhist]
    simp [htid]

/-- A loop that edits the storage tables alone. -/
theorem foldl_current {e : Int → Columns → Columns} {E : TableColumns → TableColumns}
    (he : EditsCurrent e E) (hnodup : subs.Nodup) (cols : Columns) (tid : Int) :
    (subs.foldl (fun cols sub => e sub cols) cols) (current tid) =
        (if tid ∈ subs then E (cols (current tid)) else cols (current tid)) ∧
      (subs.foldl (fun cols sub => e sub cols) cols) (history tid) = cols (history tid) := by
  have hnone (sub : Int) (cols : Columns) : syncHistory [] sub cols = cols := by
    funext r n
    simp [syncHistory]
  have hloop := foldl_synced he hnodup [] cols tid
  simp only [hnone, List.not_mem_nil, and_false, if_false] at hloop
  exact hloop

/-- A loop over tables one by one, storage and history alike. -/
theorem foldl_rels {F : TableColumns → TableColumns} {f : Relation → Columns → Columns}
    (hf : ∀ rel cols r, f rel cols r = if r = rel then F (cols rel) else cols r) {rels : List Relation}
    (hnodup : rels.Nodup) (cols : Columns) (r : Relation) :
    (rels.foldl (fun cols rel => f rel cols) cols) r = if r ∈ rels then F (cols r) else cols r := by
  have hlocal : Local (fun _ => True) (fun (cols : Columns) rel => f rel cols)
      (fun cols rel => cols rel) (fun _ v => F v) := by
    refine ⟨fun _ _ _ => trivial, fun cols rel _ => ?_, fun cols rel r hne => ?_⟩
    · rw [hf, if_pos rfl]
    · rw [hf, if_neg hne.symm]
  have hview := hlocal.foldl_view (s := cols) trivial hnodup r
  by_cases hr : r ∈ rels <;> simpa only [hr, if_true, if_false] using hview

theorem swapColumn_eq (old new : String) (rel : Relation) (cols : Columns) (r : Relation) :
    swapColumn rel old new cols r = if r = rel then swapped old new (cols rel) else cols r := by
  funext n
  by_cases hr : r = rel
  · subst hr
    simp [swapColumn, swapped]
  · simp [swapColumn, hr]

theorem dropColumn_eq (column : String) (rel : Relation) (cols : Columns) (r : Relation) :
    dropColumn rel column cols r = if r = rel then dropped column (cols rel) else cols r := by
  funext n
  by_cases hr : r = rel
  · subst hr
    simp [dropColumn, dropped]
  · simp [dropColumn, hr]

end Loops

section Relations

variable {s : State} {c : Catalog}

theorem tables_nodup (c : Catalog) (tid : Int) : (tables c tid).Nodup := ogSubtypes_nodup.filter _

theorem current_mem_rels {tids : List Int} :
    current sub ∈ tids.flatMap (relationsOf s) ↔ sub ∈ tids := by
  simp only [List.mem_flatMap, relationsOf]
  constructor
  · rintro ⟨t, ht, hmem⟩
    split at hmem <;> simp [current, history] at hmem <;> exact hmem ▸ ht
  · intro h
    refine ⟨sub, h, ?_⟩
    split <;> simp

theorem history_mem_rels {tids : List Int} :
    history sub ∈ tids.flatMap (relationsOf s) ↔ sub ∈ tids ∧ sub ∈ s.histories := by
  simp only [List.mem_flatMap, relationsOf]
  constructor
  · rintro ⟨t, ht, hmem⟩
    split at hmem
    · next hs =>
      obtain rfl : sub = t := by simpa [current, history] using hmem
      exact ⟨ht, hs⟩
    · simp [current, history] at hmem
  · rintro ⟨h, hs⟩
    exact ⟨sub, h, by simp [hs]⟩

theorem rels_nodup {tids : List Int} (h : tids.Nodup) : (tids.flatMap (relationsOf s)).Nodup := by
  refine List.nodup_flatMap.mpr ⟨fun t _ => ?_, h.imp fun hne => ?_⟩
  · unfold relationsOf
    split <;> simp [current, history]
  · intro r hr hr'
    have hid : ∀ t, r ∈ relationsOf s t → r.1 = t := by
      intro t hmem
      unfold relationsOf at hmem
      split at hmem <;> simp [current, history] at hmem <;> aesop
    exact hne ((hid _ hr).symm.trans (hid _ hr'))

end Relations

section Rels

variable {s : State} {tids : List Int} {F : TableColumns → TableColumns}
  {f : Relation → Columns → Columns}

/-- A loop over the storage tables and the histories there are. -/
theorem foldl_relationsOf (hf : ∀ rel cols r, f rel cols r = if r = rel then F (cols rel) else cols r)
    (hnodup : tids.Nodup) (cols : Columns) (tid : Int) :
    ((tids.flatMap (relationsOf s)).foldl (fun cols rel => f rel cols) cols) (current tid) =
        (if tid ∈ tids then F (cols (current tid)) else cols (current tid)) ∧
      ((tids.flatMap (relationsOf s)).foldl (fun cols rel => f rel cols) cols) (history tid) =
        if tid ∈ tids ∧ tid ∈ s.histories then F (cols (history tid)) else cols (history tid) := by
  have hloop := foldl_rels hf (rels_nodup (s := s) hnodup) cols
  constructor
  · rw [hloop]
    simp only [current_mem_rels]
  · rw [hloop]
    simp only [history_mem_rels]

end Rels

section Histories

variable {s : State} {c : Catalog}

theorem enableTable_eq (h : keepsHistory s.o.catalog sub = true) :
    enableTable s sub = { s with
      histories := if sub ∈ s.histories then s.histories else s.histories ++ [sub]
      columns := syncHistory (if sub ∈ s.histories then s.histories else s.histories ++ [sub]) sub
        s.columns } := by
  simp [enableTable, h]

/-- Whether a table has a history, its columns, and those of the history. -/
def tableView (s : State) (tid : Int) : Bool × TableColumns × TableColumns :=
  (decide (tid ∈ s.histories), s.columns (current tid), s.columns (history tid))

theorem mem_histories {s : State} {tid : Int} : tid ∈ s.histories ↔ (tableView s tid).1 = true := by
  simp [tableView]

/-- What making a type temporal does to a table. -/
def enabledView (c : Catalog) (tid : Int) (v : Bool × TableColumns × TableColumns) :
    Bool × TableColumns × TableColumns :=
  if keepsHistory c tid then (true, v.2.1, synced v.2.1 v.2.2) else v

@[simp] theorem enabledView_current (c : Catalog) (tid : Int) (v : Bool × TableColumns × TableColumns) :
    (enabledView c tid v).2.1 = v.2.1 := by
  unfold enabledView
  split <;> rfl

theorem enabledView_keeps {v : Bool × TableColumns × TableColumns} (h : keepsHistory c tid = true) :
    enabledView c tid v = (true, v.2.1, synced v.2.1 v.2.2) := if_pos h

theorem synced_of_some {cur hist : TableColumns} {n t : String} (h : cur n = some t) :
    synced cur hist n = some t := by
  simp [synced, h]

theorem enableTable_own : tableView (enableTable s sub) sub =
    enabledView s.o.catalog sub (tableView s sub) := by
  by_cases hkeeps : keepsHistory s.o.catalog sub = true
  · rw [enableTable_eq hkeeps]
    have hmem : sub ∈ if sub ∈ s.histories then s.histories else s.histories ++ [sub] := by
      split <;> simp [*]
    simp only [tableView, enabledView, hkeeps, if_true, syncHistory_current, syncHistory_own, hmem,
      decide_true]
  · have hsame : enableTable s sub = s := by simp [enableTable, hkeeps]
    simp [hsame, enabledView, hkeeps]

theorem enableTable_other (hne : sub ≠ tid) : tableView (enableTable s sub) tid = tableView s tid := by
  by_cases hkeeps : keepsHistory s.o.catalog sub = true
  · rw [enableTable_eq hkeeps]
    have hmem : (tid ∈ if sub ∈ s.histories then s.histories else s.histories ++ [sub]) ↔
        tid ∈ s.histories := by
      split <;> simp [hne.symm]
    simp only [tableView, syncHistory_current, syncHistory_other hne.symm, hmem]
  · have hsame : enableTable s sub = s := by simp [enableTable, hkeeps]
    rw [hsame]

theorem enableTable_local : Local (fun s => s.o.catalog = c) enableTable tableView (enabledView c) :=
  ⟨fun s sub hs => by rw [enableTable_o, hs], fun _ _ hs => hs ▸ enableTable_own,
    fun _ _ _ hne => enableTable_other hne⟩

/-- A table that is temporal, or becomes so. -/
def temporalView (c : Catalog) (tid : Int) (v : Bool × TableColumns × TableColumns) :
    Bool × TableColumns × TableColumns :=
  if RowDocuments.isTemporal c tid then enabledView c tid v else v

@[simp] theorem temporalView_current (c : Catalog) (tid : Int) (v : Bool × TableColumns × TableColumns) :
    (temporalView c tid v).2.1 = v.2.1 := by
  unfold temporalView
  split
  · exact enabledView_current c tid v
  · rfl

theorem temporalView_versioned {v : Bool × TableColumns × TableColumns}
    (htemporal : RowDocuments.isTemporal c tid = true) (hkeeps : keepsHistory c tid = true) :
    temporalView c tid v = (true, v.2.1, synced v.2.1 v.2.2) := by
  rw [temporalView, if_pos htemporal, enabledView_keeps hkeeps]

theorem enableTemporalTable_own (s : State) (sub : Int) : tableView (enableTemporalTable s sub) sub =
    temporalView s.o.catalog sub (tableView s sub) := by
  unfold enableTemporalTable temporalView
  split
  · exact enableTable_own
  · rfl

theorem enableTemporalTable_other (hne : sub ≠ tid) :
    tableView (enableTemporalTable s sub) tid = tableView s tid := by
  unfold enableTemporalTable
  split
  · exact enableTable_other hne
  · rfl

/-- A history brought up to date with its table. -/
def syncedView (v : Bool × TableColumns × TableColumns) : Bool × TableColumns × TableColumns :=
  (v.1, v.2.1, if v.1 then synced v.2.1 v.2.2 else v.2.2)

theorem syncHistory_view (s : State) (sub tid : Int) :
    tableView { s with columns := syncHistory s.histories sub s.columns } tid =
      if tid = sub then syncedView (tableView s tid) else tableView s tid := by
  by_cases htid : tid = sub
  · subst htid
    by_cases hs : tid ∈ s.histories
    · simp only [tableView, syncedView, syncHistory_current, syncHistory_own, hs, if_true, decide_true]
    · simp [tableView, syncedView, syncHistory_own, hs]
  · simp [tableView, syncHistory_other htid, htid]

theorem copyColumns_view (inherited : List Property) (s : State) (sub tid : Int) :
    tableView { s with columns := copyColumns sub inherited s.columns } tid =
      if tid = sub then ((tableView s tid).1, copied inherited (tableView s tid).2.1,
        (tableView s tid).2.2) else tableView s tid := by
  have hhist : copyColumns sub inherited s.columns (history tid) = s.columns (history tid) :=
    copyColumns_edits.other sub s.columns _ current_ne_history.symm
  by_cases htid : tid = sub
  · subst htid
    simp only [tableView, if_true, hhist, copyColumns_edits.own]
  · have hcur : copyColumns sub inherited s.columns (current tid) = s.columns (current tid) :=
      copyColumns_edits.other sub s.columns _ (by simpa [current] using htid)
    simp only [tableView, if_neg htid, hhist, hcur]

theorem createTable_view (s : State) (sub tid : Int) :
    tableView { s with columns := createTable sub s.columns } tid =
      if tid = sub then ((tableView s tid).1, fun _ => none, (tableView s tid).2.2)
      else tableView s tid := by
  have hhist : createTable sub s.columns (history tid) = s.columns (history tid) := by
    funext n
    simp [createTable, history, current]
  by_cases htid : tid = sub
  · subst htid
    have hcur : createTable tid s.columns (current tid) = fun _ => none := by
      funext n
      simp [createTable]
    simp only [tableView, if_true, hhist, hcur]
  · have hcur : createTable sub s.columns (current tid) = s.columns (current tid) := by
      funext n
      simp [createTable, current, htid]
    simp only [tableView, if_neg htid, hhist, hcur]

/-- What a table below a new parent gets. -/
def inheritedView (c : Catalog) (inherited : List Property) (tid : Int)
    (v : Bool × TableColumns × TableColumns) : Bool × TableColumns × TableColumns :=
  syncedView (temporalView c tid (v.1, copied inherited v.2.1, v.2.2))

@[simp] theorem inheritedView_current (c : Catalog) (inherited : List Property) (tid : Int)
    (v : Bool × TableColumns × TableColumns) :
    (inheritedView c inherited tid v).2.1 = copied inherited v.2.1 := by
  simp [inheritedView, syncedView]

theorem inheritedView_versioned {inherited : List Property} {v : Bool × TableColumns × TableColumns}
    (htemporal : RowDocuments.isTemporal c tid = true) (hkeeps : keepsHistory c tid = true) :
    inheritedView c inherited tid v =
      (true, copied inherited v.2.1, synced (copied inherited v.2.1) (synced (copied inherited v.2.1) v.2.2)) := by
  rw [inheritedView, temporalView_versioned htemporal hkeeps]
  rfl

theorem inheritTable_local (c : Catalog) (inherited : List Property) :
    Local (fun s => s.o.catalog = c) (inheritTable inherited) tableView (inheritedView c inherited) := by
  refine ⟨fun s sub hs => by rw [← hs]; exact congrArg _ enableTemporalTable_o, fun s sub hs => ?_,
    fun s sub tid hne => ?_⟩
  · subst hs
    simp only [inheritTable, syncHistory_view, if_true, inheritedView]
    rw [enableTemporalTable_own, copyColumns_view, if_pos rfl]
  · simp only [inheritTable, syncHistory_view, if_neg hne.symm]
    rw [enableTemporalTable_other hne, copyColumns_view, if_neg hne.symm]

/-- A view whose history has columns only where there is a history. -/
def Kept (v : Bool × TableColumns × TableColumns) : Prop := ∀ n t, v.2.2 n = some t → v.1 = true

section Kept

variable {v : Bool × TableColumns × TableColumns} {inherited : List Property} {n t : String}

theorem kept_enabledView (h : Kept v) (c : Catalog) (tid : Int) : Kept (enabledView c tid v) := by
  intro n t hcol
  unfold enabledView at hcol ⊢
  split
  · rfl
  · next hno =>
    rw [if_neg hno] at hcol
    exact h n t hcol

/-- A history takes its columns from its table or had them. -/
theorem enabledView_history (c : Catalog) (tid : Int) (h : (enabledView c tid v).2.2 n = some t) :
    v.2.1 n = some t ∨ v.2.2 n = some t := by
  unfold enabledView at h
  split at h
  · simp only [synced, Option.or_eq_some_iff] at h
    exact h.imp_right And.right
  · exact .inr h

theorem kept_temporalView (h : Kept v) (c : Catalog) (tid : Int) : Kept (temporalView c tid v) := by
  unfold temporalView
  split
  · exact kept_enabledView h c tid
  · exact h

theorem temporalView_history (c : Catalog) (tid : Int) (h : (temporalView c tid v).2.2 n = some t) :
    v.2.1 n = some t ∨ v.2.2 n = some t := by
  unfold temporalView at h
  split at h
  · exact enabledView_history c tid h
  · exact .inr h

theorem kept_inheritedView (h : Kept v) (c : Catalog) (tid : Int) :
    Kept (inheritedView c inherited tid v) := by
  have hcopied : Kept (v.1, copied inherited v.2.1, v.2.2) := h
  have htemporal := kept_temporalView hcopied c tid
  intro n t hcol
  unfold inheritedView syncedView at hcol ⊢
  by_cases hhist : (temporalView c tid (v.1, copied inherited v.2.1, v.2.2)).1 = true
  · exact hhist
  · rw [if_neg hhist] at hcol
    exact htemporal n t hcol

theorem inheritedView_history (c : Catalog) (tid : Int)
    (h : (inheritedView c inherited tid v).2.2 n = some t) :
    copied inherited v.2.1 n = some t ∨ v.2.2 n = some t := by
  unfold inheritedView syncedView at h
  split at h
  · simp only [synced, Option.or_eq_some_iff, temporalView_current] at h
    rcases h with h | ⟨-, h⟩
    · exact .inl h
    · exact temporalView_history c tid h
  · exact temporalView_history c tid h

end Kept

/-- The tables after a type was created with its own. -/
theorem createdView_eq (s : State) (o' : Ontology) (inherited : List Property) (t : Int) :
    tableView (enableTemporalTable { s with
      o := o'
      columns := copyColumns s.o.nextTypeId inherited (createTable s.o.nextTypeId s.columns) }
        s.o.nextTypeId) t =
      if t = s.o.nextTypeId then
        temporalView o'.catalog t (decide (t ∈ s.histories), copied inherited (fun _ => none),
          s.columns (history t))
      else tableView s t := by
  have hcopied := copyColumns_view inherited
    { s with o := o', columns := createTable s.o.nextTypeId s.columns } s.o.nextTypeId t
  have hcreated := createTable_view { s with o := o' } s.o.nextTypeId t
  by_cases ht : t = s.o.nextTypeId
  · subst ht
    rw [if_pos rfl] at hcopied hcreated
    rw [enableTemporalTable_own, hcopied, hcreated, if_pos rfl]
    rfl
  · rw [if_neg ht] at hcopied hcreated
    rw [enableTemporalTable_other (Ne.symm ht), hcopied, hcreated, if_neg ht]
    rfl

end Histories

end OntologicalDb.TableEdits
