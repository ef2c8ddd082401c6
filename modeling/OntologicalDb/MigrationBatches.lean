import Mathlib
import OntologicalDb.BatchLoops
import OntologicalDb.ExceptRules
import OntologicalDb.ShadowWrite

/-!
The batches of a schema change: a type change pages through the tables of the subtree in the order
of the ids and converts what is left of their history, a required property is filled where it is
missing.
-/

namespace OntologicalDb.MigrationBatches

open OntologicalDb.BatchLoops
open OntologicalDb.ColumnTexts
open OntologicalDb.ShadowWrite

section Tables

/-- A storage table of the subtree: its rows by id, its history table, and the rows that the
row-level policies show the role that migrates. -/
structure Table where
  rows : List (Nat × Row)
  history : List Row
  policy : Nat → Row → Bool

/-- A table with its cursor in the report: the last id of the pages so far. -/
structure Pass where
  table : Table
  cursor : Option Nat

end Tables

section TypeChange

variable (server : Server) (c : Change)

/-- A policy is older than the shadow column and does not read it. -/
def Table.shows (t : Table) (x : Nat × Row) : Bool :=
  t.policy x.1 (Function.update x.2 c.shadow none)

/-- The rows behind the cursor that have a value. -/
def Pass.ahead (p : Pass) (x : Nat × Row) : Bool :=
  p.cursor.all (fun last => last < x.1) && p.table.shows c x && (x.2 c.column).isSome

def Pass.ids (batch : Nat) (p : Pass) : List Nat :=
  page batch ((p.table.rows.filter (p.ahead c)).map Prod.fst)

/-- What the update of a page makes of a row. -/
def updated (t : Table) (ids : List Nat) (x : Nat × Row) : Nat × Row :=
  if t.shows c x ∧ x.1 ∈ ids then (x.1, backfill server c x.2) else x

/-- `batch_update`: the pass behind one page, and the number of its rows. -/
def batchUpdate (batch : Nat) (p : Pass) : Pass × Nat :=
  let ids := p.ids c batch
  (⟨{ p.table with rows := p.table.rows.map (updated server c p.table ids) },
    ids.getLast?.or p.cursor⟩, ids.length)

/-- The history rows the update takes. -/
def pending (r : Row) : Bool :=
  (r c.column).isSome && (r c.shadow).isNone &&
    ogCastable server ((r c.column).map Datum.output) c.target

def convertHistory (r : Row) : Row := if pending server c r then backfill server c r else r

/-- The capture trigger writes no history for a page: only a shadow column changes. -/
def historyUpdate (p : Pass) : Pass × Nat :=
  (⟨{ p.table with history := p.table.history.map (convertHistory server c) }, p.cursor⟩,
    p.table.history.countP (pending server c))

def alterTable (batch : Nat) (p : Pass) : Pass × Nat :=
  let u := batchUpdate server c batch p
  let h := historyUpdate server c u.1
  (h.1, u.2 + h.2)

end TypeChange

section Filling

/-- What a change to a required property reads: the column, its type and the default as text. -/
structure Required where
  column : String
  dataType : SqlType
  fill : Option String

/-- The server as a batch meets it. -/
structure Engine where
  server : Server
  /-- Which of the ids found a `LIMIT` without an order takes. -/
  pick : Nat → List Nat → List Nat
  pick_mem : ∀ n ids, ∀ i ∈ pick n ids, i ∈ ids
  /-- What constraints and triggers have against a statement, from the rows before and after. -/
  refusal : List (Nat × Row) → List (Nat × Row) → Option String
  /-- What the capture trigger adds to the history of a versioned table. -/
  capture : List (Nat × Row) → List (Nat × Row) → List Row

variable (e : Engine) (q : Required)

def missing (t : Table) (x : Nat × Row) : Bool := t.policy x.1 x.2 && (x.2 q.column).isNone

def filled (t : Table) (ids : List Nat) (d : Datum) (x : Nat × Row) : Nat × Row :=
  if t.policy x.1 x.2 ∧ x.1 ∈ ids then (x.1, Function.update x.2 q.column (some d)) else x

def fillTable (lit : String) (batch : Nat) (p : Pass) : Except String (Pass × Nat) :=
  match e.server.read q.dataType lit with
  | none => .error s!"invalid input syntax for type {q.dataType.name}"
  | some d =>
      let ids := e.pick batch ((p.table.rows.filter (missing q p.table)).map Prod.fst)
      let rows := p.table.rows.map (filled q p.table ids d)
      match e.refusal p.table.rows rows with
      | some message => .error message
      | none =>
          let history := p.table.history ++ e.capture p.table.rows rows
          .ok (⟨{ p.table with rows := rows, history := history }, p.cursor⟩, ids.length)

def fillTables (lit : String) (batch : Nat) : List Pass → Except String (List Pass × Nat)
  | [] => .ok ([], 0)
  | p :: ps => do
      let v ← fillTable e q lit batch p
      let w ← fillTables lit batch ps
      return (v.1 :: w.1, v.2 + w.2)

end Filling

section Batches

/-- A pending change of a property. -/
inductive PropertyChange
  | addProperty
  | renameProperty
  | dropProperty
  | addUnique
  | alterPropertyType (c : Change)
  | setRequired (q : Required)

variable (e : Engine) (change : PropertyChange)

/-- A batch over all tables, and the number of rows it moved. -/
def migrate (batch : Nat) (ps : List Pass) : Except String (List Pass × Nat) :=
  match change with
  | .alterPropertyType c =>
      .ok (ps.map fun p => (alterTable e.server c batch p).1,
        (ps.map fun p => (alterTable e.server c batch p).2).sum)
  | .setRequired q =>
      match q.fill with
      | none => .ok (ps, 0)
      | some lit => fillTables e q lit batch ps
  | .addProperty | .renameProperty | .dropProperty | .addUnique => .ok (ps, 0)

/-- A batch size below one counts as one. -/
def ogSchemaMigrate (batch : Int) (ps : List Pass) : Except String (List Pass × Nat) :=
  migrate e change (max batch 1).toNat ps

/-- The loop of `og_schema_apply`, a size for every batch it runs. -/
def migrateAll (sizes : List Int) (ts : List Table) : Except String (List Pass × Bool) :=
  runBatches (ogSchemaMigrate e change) sizes (ts.map fun t => ⟨t, none⟩)

end Batches

section Rows

variable {server : Server} {c : Change} {t : Table} {r : Row} {x : Nat × Row}

/-- What the old value of a row becomes in the new type. -/
def conversion (server : Server) (c : Change) (r : Row) : Option Datum :=
  (r c.column).bind fun d => server.read c.target d.output

theorem backfill_column : backfill server c r c.column = r c.column := by
  unfold backfill
  split
  · exact Function.update_of_ne c.beside.symm _ _
  · rfl

theorem backfill_of_none (h : (r c.column).isSome = false) : backfill server c r = r := by
  rw [backfill, if_neg (by rw [h]; exact Bool.false_ne_true)]

theorem backfill_shadow (h : (r c.column).isSome = true) :
    backfill server c r c.shadow = conversion server c r := by
  rcases Option.isSome_iff_exists.mp h with ⟨d, hd⟩
  rw [backfill, if_pos h, Function.update_self, conversion, hd]
  change (if (server.read c.target d.output).isSome then server.read c.target d.output else none) =
    server.read c.target d.output
  split
  next => rfl
  next hnone => rw [Option.not_isSome_iff_eq_none.mp hnone]

theorem backfill_backfill : backfill server c (backfill server c r) = backfill server c r := by
  cases h : (r c.column).isSome with
  | false => rw [backfill_of_none h, backfill_of_none h]
  | true =>
      have hagain : (backfill server c r c.column).isSome = true := by rw [backfill_column, h]
      rw [backfill, if_pos hagain, backfill_column, backfill, if_pos h, Function.update_idem]

theorem shows_backfill {i : Nat} : t.shows c (i, backfill server c r) = t.shows c (i, r) := by
  have hsame : Function.update (backfill server c r) c.shadow none =
      Function.update r c.shadow none := by
    unfold backfill
    split
    · exact Function.update_idem _ _ _
    · rfl
  rw [Table.shows, Table.shows, hsame]

theorem shows_congr {t' : Table} (h : t'.policy = t.policy) : t'.shows c x = t.shows c x := by
  rw [Table.shows, Table.shows, h]

theorem updated_fst {ids : List Nat} : (updated server c t ids x).1 = x.1 := by
  unfold updated
  split <;> rfl

theorem updated_column {ids : List Nat} :
    (updated server c t ids x).2 c.column = x.2 c.column := by
  unfold updated
  split
  · exact backfill_column
  · rfl

theorem shows_updated {t' : Table} {ids : List Nat} :
    t.shows c (updated server c t' ids x) = t.shows c x := by
  unfold updated
  split
  · exact shows_backfill
  · rfl

theorem not_pending_convertHistory : pending server c (convertHistory server c r) = false := by
  unfold convertHistory
  split
  next h =>
    simp only [pending, Bool.and_eq_true] at h
    rcases h with ⟨⟨hcol, -⟩, hcast⟩
    rcases Option.isSome_iff_exists.mp hcol with ⟨d, hd⟩
    have hshadow : (backfill server c r c.shadow).isNone = false := by
      rw [backfill_shadow hcol, conversion, hd]
      rw [hd] at hcast
      exact Option.isNone_eq_false_iff.mpr hcast
    rw [pending, hshadow, Bool.and_false, Bool.false_and]
  next h => simpa using h

theorem convertHistory_convertHistory :
    convertHistory server c (convertHistory server c r) = convertHistory server c r := by
  rw [convertHistory, not_pending_convertHistory, if_neg Bool.false_ne_true]

end Rows

section Passes

variable {server : Server} {c : Change} {batch : Nat} {t : Table} {p : Pass} {x : Nat × Row}

/-- A row once the pages have come as far as the cursor. -/
def settled (server : Server) (c : Change) (t : Table) (cursor : Option Nat) (x : Nat × Row) :
    Nat × Row :=
  if t.shows c x ∧ ¬ cursor.all (fun last => last < x.1) then (x.1, backfill server c x.2) else x

/-- What a pass has made of a table: the rows up to its cursor are converted, and with the first
batch its history. -/
structure Settled (server : Server) (c : Change) (t : Table) (p : Pass) : Prop where
  policy : p.table.policy = t.policy
  rows : p.table.rows = t.rows.map (settled server c t p.cursor)
  history : p.table.history = t.history ∨
    p.table.history = t.history.map (convertHistory server c)

theorem settled_start : Settled server c t ⟨t, none⟩ := by
  refine ⟨rfl, ?_, .inl rfl⟩
  refine (List.map_id'' (fun x => ?_) _).symm
  exact if_neg fun h => h.2 rfl

theorem mem_ids (hx : x ∈ p.table.rows) (h : p.ahead c x = true) :
    x.1 ∈ (p.table.rows.filter (p.ahead c)).map Prod.fst :=
  List.mem_map_of_mem (List.mem_filter.mpr ⟨hx, h⟩)

/-- The cursor goes forward. -/
theorem all_of_all {i : Nat}
    (h : ((p.ids c batch).getLast?.or p.cursor).all (fun last => last < i) = true) :
    p.cursor.all (fun last => last < i) = true := by
  cases hlast : (p.ids c batch).getLast? with
  | none =>
      rw [hlast] at h
      exact h
  | some last =>
      rw [hlast] at h
      have hi : last < i := of_decide_eq_true h
      have hmem := mem_of_mem_page (List.mem_of_getLast? hlast)
      rcases List.mem_map.mp hmem with ⟨y, hy, rfl⟩
      have hahead := (List.mem_filter.mp hy).2
      simp only [Pass.ahead, Bool.and_eq_true] at hahead
      have hcursor := hahead.1.1
      cases hk : p.cursor with
      | none => rfl
      | some k =>
          rw [hk] at hcursor
          have hlt : k < y.1 := of_decide_eq_true hcursor
          exact decide_eq_true (hlt.trans hi)

theorem settled_hidden {k : Option Nat} (h : t.shows c x = false) :
    settled server c t k x = x := if_neg fun hc => by
  rw [h] at hc
  exact Bool.false_ne_true hc.1

theorem settled_ahead {k : Option Nat} (h : k.all (fun last => last < x.1) = true) :
    settled server c t k x = x := if_neg fun hc => hc.2 h

theorem settled_behind {k : Option Nat} (hshows : t.shows c x = true)
    (h : k.all (fun last => last < x.1) = false) :
    settled server c t k x = (x.1, backfill server c x.2) := if_pos ⟨hshows, by simp [h]⟩

theorem settled_fst {k : Option Nat} : (settled server c t k x).1 = x.1 := by
  unfold settled
  split <;> rfl

theorem shows_settled {k : Option Nat} :
    t.shows c (settled server c t k x) = t.shows c x := by
  unfold settled
  split
  · exact shows_backfill
  · rfl

theorem backfill_settled {k : Option Nat} :
    backfill server c (settled server c t k x).2 = backfill server c x.2 := by
  unfold settled
  split
  · exact backfill_backfill
  · rfl

/-- A row that no page is taken from any more has no value or has been converted. -/
theorem settled_off_page (h : Settled server c t p) (hx : x ∈ t.rows)
    (hshows : t.shows c x = true)
    (hmem : x.1 ∉ (p.table.rows.filter (p.ahead c)).map Prod.fst) :
    settled server c t p.cursor x = (x.1, backfill server c x.2) := by
  cases hcursor : p.cursor.all (fun last => last < x.1) with
  | false => exact settled_behind hshows hcursor
  | true =>
      have hstay : settled server c t p.cursor x = x := settled_ahead hcursor
      have hrow : x ∈ p.table.rows := by
        rw [h.rows, ← hstay]
        exact List.mem_map_of_mem hx
      cases hcol : (x.2 c.column).isSome with
      | false => rw [hstay, backfill_of_none hcol]
      | true =>
          have hahead : p.ahead c x = true := by
            rw [Pass.ahead, hcursor, shows_congr h.policy, hshows, hcol]
            rfl
          exact absurd (mem_ids hrow hahead) hmem

/-- A page brings a row to where its cursor is. -/
theorem updated_settled (h : Settled server c t p) (hx : x ∈ t.rows) :
    updated server c p.table (p.ids c batch) (settled server c t p.cursor x) =
      settled server c t ((p.ids c batch).getLast?.or p.cursor) x := by
  have hshown : p.table.shows c (settled server c t p.cursor x) = t.shows c x :=
    (shows_congr h.policy).trans shows_settled
  cases hshows : t.shows c x with
  | false =>
      rw [settled_hidden hshows, settled_hidden hshows]
      exact if_neg fun hc => absurd hc.1 (by rw [shows_congr h.policy, hshows]; decide)
  | true =>
      unfold updated
      rw [hshown, hshows, settled_fst, backfill_settled]
      split
      next hon =>
        have hmem := hon.2
        cases hlast : (p.ids c batch).getLast? with
        | none =>
            rw [List.getLast?_eq_none_iff.mp hlast] at hmem
            cases hmem
        | some last =>
            refine (settled_behind hshows ?_).symm
            exact decide_eq_false (Nat.not_lt.mpr (le_last hlast hmem))
      next hoff =>
        have hmem : x.1 ∉ p.ids c batch := fun hmem => hoff ⟨rfl, hmem⟩
        cases hlast : (p.ids c batch).getLast? with
        | none => rfl
        | some last =>
            rcases Nat.lt_or_ge last x.1 with hlt | hle
            · have hnext : ((p.ids c batch).getLast?.or p.cursor).all
                  (fun last => last < x.1) = true := by
                rw [hlast]
                exact decide_eq_true hlt
              rw [settled_ahead (all_of_all hnext), settled_ahead (hlast ▸ hnext)]
            · rw [settled_off_page h hx hshows fun hin => hmem (mem_page_of_le hlast hin hle)]
              refine (settled_behind hshows ?_).symm
              exact decide_eq_false (Nat.not_lt.mpr hle)

theorem batchUpdate_settled (h : Settled server c t p) :
    Settled server c t (batchUpdate server c batch p).1 := by
  refine ⟨h.policy, ?_, h.history⟩
  change p.table.rows.map (updated server c p.table (p.ids c batch)) = _
  rw [h.rows, List.map_map]
  exact List.map_congr_left fun x hx => updated_settled h hx

/-- Behind a batch the history is converted. -/
theorem alterTable_settled (h : Settled server c t p) :
    Settled server c t (alterTable server c batch p).1 ∧
      (alterTable server c batch p).1.table.history =
        t.history.map (convertHistory server c) := by
  have hpage : Settled server c t (batchUpdate server c batch p).1 := batchUpdate_settled h
  have hhistory : (alterTable server c batch p).1.table.history =
      t.history.map (convertHistory server c) := by
    change (batchUpdate server c batch p).1.table.history.map (convertHistory server c) = _
    rcases hpage.history with heq | heq
    · rw [heq]
    · rw [heq, List.map_map]
      exact List.map_congr_left fun r _ => convertHistory_convertHistory
  exact ⟨⟨hpage.policy, hpage.rows, .inr hhistory⟩, hhistory⟩

end Passes

section Ends

variable {server : Server} {c : Change} {batch : Nat} {t : Table} {p : Pass} {x : Nat × Row}

/-- What the pages and the history of a table still have to move. -/
def Pass.left (server : Server) (c : Change) (p : Pass) : Nat :=
  p.table.rows.countP (p.ahead c) + p.table.history.countP (pending server c)

theorem ahead_updated (h : (batchUpdate server c batch p).1.ahead c
    (updated server c p.table (p.ids c batch) x) = true) : p.ahead c x = true := by
  simp only [Pass.ahead, Bool.and_eq_true] at h ⊢
  rcases h with ⟨⟨hcursor, hshows⟩, hcol⟩
  rw [updated_fst] at hcursor
  rw [updated_column] at hcol
  exact ⟨⟨all_of_all hcursor, shows_updated.symm.trans hshows⟩, hcol⟩

theorem countP_ahead_le : (batchUpdate server c batch p).1.table.rows.countP
    ((batchUpdate server c batch p).1.ahead c) ≤ p.table.rows.countP (p.ahead c) := by
  change (p.table.rows.map (updated server c p.table (p.ids c batch))).countP _ ≤ _
  rw [List.countP_map]
  exact List.countP_mono_left fun x _ => ahead_updated

theorem countP_ahead_lt (hmoved : (batchUpdate server c batch p).2 ≠ 0) :
    (batchUpdate server c batch p).1.table.rows.countP
      ((batchUpdate server c batch p).1.ahead c) < p.table.rows.countP (p.ahead c) := by
  cases hlast : (p.ids c batch).getLast? with
  | none =>
      rw [List.getLast?_eq_none_iff] at hlast
      exact absurd (congrArg List.length hlast) hmoved
  | some last =>
      rcases List.mem_map.mp (mem_of_mem_page (List.mem_of_getLast? hlast)) with ⟨y, hy, hid⟩
      rcases List.mem_filter.mp hy with ⟨hrow, hahead⟩
      change (p.table.rows.map (updated server c p.table (p.ids c batch))).countP _ < _
      rw [List.countP_map]
      refine countP_lt (fun x _ => ahead_updated) hrow hahead fun hagain => ?_
      have hcursor : ((p.ids c batch).getLast?.or p.cursor).all
          (fun last => last < (updated server c p.table (p.ids c batch) y).1) = true := by
        have hparts := hagain
        simp only [Function.comp_apply, Pass.ahead, Bool.and_eq_true] at hparts
        exact hparts.1.1
      rw [hlast, updated_fst, hid] at hcursor
      exact absurd (of_decide_eq_true hcursor) (Nat.lt_irrefl last)

theorem countP_convertHistory (rs : List Row) :
    (rs.map (convertHistory server c)).countP (pending server c) = 0 := by
  rw [List.countP_eq_zero]
  intro r hr
  rcases List.mem_map.mp hr with ⟨r', -, rfl⟩
  rw [not_pending_convertHistory]
  exact Bool.false_ne_true

theorem left_alterTable_le :
    (alterTable server c batch p).1.left server c ≤ p.left server c := by
  unfold Pass.left
  change _ + (p.table.history.map (convertHistory server c)).countP _ ≤ _
  rw [countP_convertHistory]
  exact Nat.add_le_add countP_ahead_le (Nat.zero_le _)

theorem left_alterTable_lt (hmoved : (alterTable server c batch p).2 ≠ 0) :
    (alterTable server c batch p).1.left server c < p.left server c := by
  unfold Pass.left
  change _ + (p.table.history.map (convertHistory server c)).countP _ < _
  rw [countP_convertHistory]
  cases hpage : (batchUpdate server c batch p).2 with
  | zero =>
      refine Nat.add_lt_add_of_le_of_lt countP_ahead_le (Nat.pos_of_ne_zero fun hzero => ?_)
      refine hmoved ?_
      change (batchUpdate server c batch p).2 + p.table.history.countP _ = 0
      rw [hpage, hzero]
  | succ n =>
      have hne : (batchUpdate server c batch p).2 ≠ 0 := by
        rw [hpage]
        exact Nat.succ_ne_zero n
      exact Nat.add_lt_add_of_lt_of_le (countP_ahead_lt hne) (Nat.zero_le _)

end Ends

section Completeness

variable {server : Server} {c : Change} {batch : Nat} {t : Table} {p : Pass} {r : Row}

/-- A value that converts has its conversion in the shadow column, and where nothing converts the
shadow column stays empty. -/
def RowConverts (server : Server) (c : Change) (r r' : Row) : Prop :=
  (∀ v, conversion server c r = some v → r' c.shadow = some v) ∧
    (conversion server c r = none → r c.shadow = none → r' c.shadow = none)

/-- So with the rows of a table, and with those of its history that were not converted yet. -/
def Converts (server : Server) (c : Change) (t t' : Table) : Prop :=
  List.Forall₂ (fun x x' => RowConverts server c x.2 x'.2) t.rows t'.rows ∧
    List.Forall₂ (fun r r' => r c.shadow = none → r' c.shadow = conversion server c r)
      t.history t'.history

theorem rowConverts_backfill : RowConverts server c r (backfill server c r) := by
  cases h : (r c.column).isSome with
  | true =>
      rw [RowConverts, backfill_shadow h]
      exact ⟨fun _ hv => hv, fun hnone _ => hnone⟩
  | false =>
      have hnone : conversion server c r = none := by
        rw [conversion, Option.isSome_eq_false_iff.mp h |> Option.isNone_iff_eq_none.mp]
        rfl
      rw [RowConverts, backfill_of_none h, hnone]
      exact ⟨fun _ hv => (by cases hv), fun _ hshadow => hshadow⟩

theorem rowConverts_self_iff :
    RowConverts server c r r ↔ ∀ v, conversion server c r = some v → r c.shadow = some v :=
  ⟨fun h => h.1, fun h => ⟨h, fun _ hshadow => hshadow⟩⟩

theorem convertHistory_shadow (h : r c.shadow = none) :
    convertHistory server c r c.shadow = conversion server c r := by
  unfold convertHistory
  split
  next hpending =>
    simp only [pending, Bool.and_eq_true] at hpending
    exact backfill_shadow hpending.1.1
  next hpending =>
    rw [h]
    cases hcol : r c.column with
    | none => rw [conversion, hcol]; rfl
    | some d =>
        have hcast : ¬ (server.read c.target d.output).isSome = true := by
          intro hread
          refine hpending ?_
          rw [pending, hcol, h]
          exact hread
        rw [conversion, hcol]
        exact (Option.not_isSome_iff_eq_none.mp hcast).symm

/-- Behind the last batch exactly the rows that a policy hid are left. -/
theorem converts_iff (h : Settled server c t p) (hbatch : batch ≠ 0)
    (hidle : (alterTable server c batch p).2 = 0) :
    Converts server c t (alterTable server c batch p).1.table ↔
      ∀ x ∈ t.rows, ∀ v, conversion server c x.2 = some v →
        t.shows c x = true ∨ x.2 c.shadow = some v := by
  have hids : p.ids c batch = [] := List.length_eq_zero_iff.mp (Nat.add_eq_zero_iff.mp hidle).1
  have hnone := eq_nil_of_page_eq_nil hbatch hids
  have hafter : Settled server c t (alterTable server c batch p).1 ∧ _ := alterTable_settled h
  have hcursor : (alterTable server c batch p).1.cursor = p.cursor := by
    change (p.ids c batch).getLast?.or p.cursor = p.cursor
    rw [hids]
    rfl
  have hhistory : List.Forall₂ (fun r r' => r c.shadow = none → r' c.shadow = conversion server c r)
      t.history (t.history.map (convertHistory server c)) :=
    List.forall₂_map_right_iff.mpr (List.forall₂_same.mpr fun r _ => convertHistory_shadow)
  rw [Converts, hafter.2, hafter.1.rows, hcursor, and_iff_left hhistory,
    List.forall₂_map_right_iff, List.forall₂_same]
  refine forall₂_congr fun x hx => ?_
  cases hshows : t.shows c x with
  | true =>
      rw [settled_off_page h hx hshows (by rw [hnone]; exact List.not_mem_nil)]
      exact iff_of_true rowConverts_backfill fun _ _ => .inl rfl
  | false =>
      rw [settled_hidden hshows, rowConverts_self_iff]
      refine forall₂_congr fun v _ => ?_
      rw [or_iff_right Bool.false_ne_true]

end Completeness

section Fills

variable {e : Engine} {q : Required} {lit : String} {batch : Nat} {p : Pass} {x : Nat × Row}

theorem missing_filled {ids : List Nat} {d : Datum}
    (h : missing q p.table (filled q p.table ids d x) = true) :
    missing q p.table x = true ∧ ¬ (p.table.policy x.1 x.2 ∧ x.1 ∈ ids) := by
  unfold filled at h
  split at h
  next =>
    have hnone : (Function.update x.2 q.column (some d) q.column).isNone = true :=
      (Bool.and_eq_true_iff.mp h).2
    rw [Function.update_self] at hnone
    cases hnone
  next hoff => exact ⟨h, hoff⟩

theorem countP_filled_le {ids : List Nat} {d : Datum} :
    (p.table.rows.map (filled q p.table ids d)).countP (missing q p.table) ≤
      p.table.rows.countP (missing q p.table) := by
  rw [List.countP_map]
  exact List.countP_mono_left fun x _ h => (missing_filled h).1

/-- The rows of a table that a fill still has to move. -/
def Pass.unfilled (q : Required) (p : Pass) : Nat := p.table.rows.countP (missing q p.table)

theorem fillTable_unfilled {v : Pass × Nat} (h : fillTable e q lit batch p = .ok v) :
    v.1.unfilled q ≤ p.unfilled q ∧ (v.2 ≠ 0 → v.1.unfilled q < p.unfilled q) := by
  unfold fillTable at h
  split at h
  next => cases h
  next d hread =>
    dsimp only at h
    split at h
    next => cases h
    next hok =>
      rw [← Except.ok.inj h]
      refine ⟨@countP_filled_le q p _ d, fun hmoved => ?_⟩
      rcases List.exists_mem_of_ne_nil _ fun hnil => hmoved (congrArg List.length hnil) with
        ⟨i, hi⟩
      rcases List.mem_map.mp (e.pick_mem _ _ i hi) with ⟨y, hy, rfl⟩
      rcases List.mem_filter.mp hy with ⟨hrow, hmissing⟩
      change (p.table.rows.map _).countP (missing q p.table) < _
      rw [List.countP_map]
      refine countP_lt (fun x _ h => (missing_filled h).1) hrow hmissing fun h => ?_
      exact (missing_filled h).2 ⟨(Bool.and_eq_true_iff.mp hmissing).1, hi⟩

theorem fillTables_unfilled {ps : List Pass} {w : List Pass × Nat}
    (h : fillTables e q lit batch ps = .ok w) :
    (w.1.map (Pass.unfilled q)).sum ≤ (ps.map (Pass.unfilled q)).sum ∧
      (w.2 ≠ 0 → (w.1.map (Pass.unfilled q)).sum < (ps.map (Pass.unfilled q)).sum) := by
  induction ps generalizing w with
  | nil =>
      rw [← Except.ok.inj h]
      exact ⟨le_rfl, fun hmoved => absurd rfl hmoved⟩
  | cons p ps ih =>
      rcases ExceptRules.bind_eq_ok.mp h with ⟨v, hv, h⟩
      rcases ExceptRules.bind_eq_ok.mp h with ⟨u, hu, h⟩
      have hone := fillTable_unfilled hv
      have hrest := ih hu
      rw [← Except.ok.inj h, List.map_cons, List.map_cons, List.sum_cons, List.sum_cons]
      refine ⟨Nat.add_le_add hone.1 hrest.1, fun hmoved => ?_⟩
      have hsome : v.2 ≠ 0 ∨ u.2 ≠ 0 := by
        change v.2 + u.2 ≠ 0 at hmoved
        omega
      rcases hsome with hsome | hsome
      · exact Nat.add_lt_add_of_lt_of_le (hone.2 hsome) hrest.1
      · exact Nat.add_lt_add_of_le_of_lt hone.1 (hrest.2 hsome)

end Fills

section Runs

variable {e : Engine} {change : PropertyChange} {ts : List Table} {ps : List Pass}
  {batch : Int} {v : List Pass × Nat}

/-- What a change still has to move. -/
def PropertyChange.left (server : Server) (ps : List Pass) : PropertyChange → Nat
  | .alterPropertyType c => (ps.map (Pass.left server c)).sum
  | .setRequired q => (ps.map (Pass.unfilled q)).sum
  | .addProperty | .renameProperty | .dropProperty | .addUnique => 0

theorem left_ogSchemaMigrate (h : ogSchemaMigrate e change batch ps = .ok v) (hmoved : v.2 ≠ 0) :
    change.left e.server v.1 < change.left e.server ps := by
  unfold ogSchemaMigrate migrate at h
  cases change with
  | alterPropertyType c =>
      rw [← Except.ok.inj h] at hmoved ⊢
      have hsome : ∃ p ∈ ps, (alterTable e.server c (max batch 1).toNat p).2 ≠ 0 := by
        by_contra hnone
        refine hmoved (List.sum_eq_zero fun n hn => ?_)
        rcases List.mem_map.mp hn with ⟨p, hp, rfl⟩
        by_contra hne
        exact hnone ⟨p, hp, hne⟩
      rcases hsome with ⟨p, hp, hne⟩
      change ((ps.map _).map (Pass.left e.server c)).sum < (ps.map (Pass.left e.server c)).sum
      rw [List.map_map]
      exact List.sum_lt_sum _ _ (fun p _ => left_alterTable_le) ⟨p, hp, left_alterTable_lt hne⟩
  | setRequired q =>
      cases hfill : q.fill with
      | none =>
          simp only [hfill] at h
          rw [← Except.ok.inj h] at hmoved
          exact absurd rfl hmoved
      | some lit =>
          simp only [hfill] at h
          exact (fillTables_unfilled h).2 hmoved
  | addProperty | renameProperty | dropProperty | addUnique =>
      rw [← Except.ok.inj h] at hmoved
      exact absurd rfl hmoved

/-- After the loop of a type change every table is converted; the other changes have no shadow
column. -/
def Complete (server : Server) (change : PropertyChange) (ts : List Table) (ps : List Pass) :
    Prop :=
  ∀ c, change = .alterPropertyType c →
    List.Forall₂ (fun t p => Converts server c t p.table) ts ps

/-- Whatever the sizes of its batches, the loop ends after finitely many, and if it reports that
it is done the migration is complete. -/
def Migrates (e : Engine) (change : PropertyChange) (ts : List Table) : Prop :=
  ∃ n, ∀ sizes : List Int, n ≤ sizes.length →
    (∃ message, migrateAll e change sizes ts = .error message) ∨
      ∃ ps, migrateAll e change sizes ts = .ok (ps, true) ∧ Complete e.server change ts ps

theorem migrateAll_ends : ∃ n, ∀ sizes : List Int, n ≤ sizes.length →
    (∃ message, migrateAll e change sizes ts = .error message) ∨
      ∃ ps, migrateAll e change sizes ts = .ok (ps, true) :=
  ⟨change.left e.server (ts.map fun t => ⟨t, none⟩) + 1, fun _ hn =>
    @runBatches_ends _ _ _ _ _ _ (fun ps => change.left e.server ps)
      (fun _ _ _ h hmoved => left_ogSchemaMigrate h hmoved) hn⟩

theorem settled_migrate {c : Change} (h : List.Forall₂ (Settled e.server c) ts ps)
    (hrun : ogSchemaMigrate e (.alterPropertyType c) batch ps = .ok v) :
    List.Forall₂ (Settled e.server c) ts v.1 := by
  rw [← Except.ok.inj hrun]
  exact List.forall₂_map_right_iff.mpr (h.imp fun t p hp => (alterTable_settled hp).1)

/-- At the end of the loop exactly the convertible rows that a policy hid are left. -/
theorem complete_iff {c : Change} {sizes : List Int}
    (h : migrateAll e (.alterPropertyType c) sizes ts = .ok (ps, true)) :
    Complete e.server (.alterPropertyType c) ts ps ↔
      ∀ t ∈ ts, ∀ x ∈ t.rows, ∀ v, conversion e.server c x.2 = some v →
        t.shows c x = true ∨ x.2 c.shadow = some v := by
  have hstart : List.Forall₂ (Settled e.server c) ts (ts.map fun t => ⟨t, none⟩) :=
    List.forall₂_map_right_iff.mpr (List.forall₂_same.mpr fun _ _ => settled_start)
  rcases runBatches_done (fun _ _ _ hs hrun => settled_migrate hs hrun) h hstart with
    ⟨batch, before, hsettled, hlast⟩
  rcases Prod.mk.inj (Except.ok.inj hlast) with ⟨rfl, hmoved⟩
  have hbatch : (max batch 1).toNat ≠ 0 := by omega
  have hidle : ∀ p ∈ before, (alterTable e.server c (max batch 1).toNat p).2 = 0 :=
    fun p hp => List.sum_eq_zero_iff.mp hmoved _ (List.mem_map_of_mem hp)
  have hcomplete : Complete e.server (.alterPropertyType c) ts
      (before.map fun p => (alterTable e.server c (max batch 1).toNat p).1) ↔
      List.Forall₂ (fun t p => Converts e.server c t
        (alterTable e.server c (max batch 1).toNat p).1.table) ts before := by
    refine Iff.trans ?_ (@List.forall₂_map_right_iff _ _ _
      (fun t p => Converts e.server c t p.table)
      (fun p => (alterTable e.server c (max batch 1).toNat p).1) ts before)
    exact ⟨fun hc => hc c rfl, fun hc c' heq => PropertyChange.alterPropertyType.inj heq ▸ hc⟩
  rw [hcomplete]
  clear hcomplete h hstart hlast hmoved
  induction hsettled with
  | nil => exact iff_of_true .nil fun t ht => absurd ht List.not_mem_nil
  | cons hp _ ih =>
      rcases List.forall_mem_cons.mp hidle with ⟨hone, hrest⟩
      rw [List.forall₂_cons, List.forall_mem_cons]
      exact and_congr (converts_iff hp hbatch hone) (ih hrest)

/-- The loop of a schema change always ends, and its migration is complete unless a row-level
policy hides a convertible row from the role that migrates. -/
theorem migrates_iff : Migrates e change ts ↔
    ∀ c, change = .alterPropertyType c →
      ∀ t ∈ ts, ∀ x ∈ t.rows, ∀ v, conversion e.server c x.2 = some v →
        t.shows c x = true ∨ x.2 c.shadow = some v := by
  rcases @migrateAll_ends e change ts with ⟨n, hends⟩
  constructor
  · rintro ⟨m, hm⟩ c rfl
    have hlen : m ≤ (List.replicate m (1 : Int)).length := by rw [List.length_replicate]
    rcases hm _ hlen with ⟨message, herror⟩ | ⟨ps, hdone, hcomplete⟩
    · rcases exists_of_runBatches_eq_error herror with ⟨b, s, hstep⟩
      cases hstep
    · exact (complete_iff hdone).mp hcomplete
  · intro h
    refine ⟨n, fun sizes hn => (hends sizes hn).imp_right ?_⟩
    rintro ⟨ps, hdone⟩
    refine ⟨ps, hdone, fun c heq => ?_⟩
    subst heq
    exact (complete_iff hdone).mpr (h c rfl) c rfl

end Runs

section Instances

/-- A server on which one row is taken at a time and nothing is refused. -/
def plainEngine : Engine where
  server := plainServer
  pick n ids := ids.take n
  pick_mem _ _ _ h := List.mem_of_mem_take h
  refusal _ _ := none
  capture _ _ := []

/-- The row with the number 42. -/
def numberRow : Row := Function.update (fun _ => none) "p_n" (some (.int 42))

/-- A table whose policy hides its one row. -/
def hiddenTable : Table where
  rows := [(1, numberRow)]
  history := []
  policy _ _ := false

/-- The hidden row keeps its number in the old column only. -/
theorem not_migrates_hidden :
    ¬ Migrates plainEngine (.alterPropertyType numbersToText) [hiddenTable] := by
  rintro ⟨n, h⟩
  have hlen : n ≤ (List.replicate n (1 : Int)).length := by rw [List.length_replicate]
  rcases h _ hlen with ⟨message, herror⟩ | ⟨ps, hdone, hcomplete⟩
  · rcases exists_of_runBatches_eq_error herror with ⟨b, s, hstep⟩
    cases hstep
  · have hshown := (complete_iff hdone).mp hcomplete hiddenTable (List.mem_singleton_self _)
      (1, numberRow) (List.mem_singleton_self _) (.text "42") rfl
    rcases hshown with hshown | hshadow
    · cases hshown
    · cases hshadow

end Instances

end OntologicalDb.MigrationBatches
