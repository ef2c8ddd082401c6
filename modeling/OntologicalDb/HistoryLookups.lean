import OntologicalDb.RowTransactions

/-!
The history of an entity, which a trigger records under the start of each
transaction, and the lookup of its state at a past instant.
-/

namespace OntologicalDb.HistoryLookups

open OntologicalDb.GuardedRuns
open OntologicalDb.RowTransactions

variable {P T : Type} [LinearOrder T]

inductive HistoryOp
  | i
  | u
  | d
deriving DecidableEq

/-- A row of `og_history`. -/
structure HistoryRow (P T : Type) where
  histId : Nat
  op : HistoryOp
  validFrom : T
  validTo : Option T
  recordedAt : T
  payload : P

/-- A row of a type with history, and what `og_history` holds of it. -/
structure Entity (P T : Type) where
  row : Option P
  history : List (HistoryRow P T)

def absent : Entity P T := ⟨none, []⟩

inductive Write (P : Type)
  | insert (payload : P)
  | update (payload : P)
  | delete

section Capture

def close (now : T) (h : HistoryRow P T) : HistoryRow P T :=
  if h.validTo.isNone then { h with validTo := some now } else h

/-- `og_capture_history`. -/
def ogCaptureHistory (now : T) (nextval : Nat) (op : HistoryOp) (doc : P)
    (history : List (HistoryRow P T)) : List (HistoryRow P T) :=
  history.map (close now) ++ [⟨nextval, op, now, none, now, doc⟩]

/-- A statement on the row with its trigger; one that matches no row writes nothing. -/
def write (now : T) (nextval : Nat) (w : Write P) (e : Entity P T) : Except String (Entity P T) :=
  match w, e.row with
  | .insert doc, none => .ok ⟨some doc, ogCaptureHistory now nextval .i doc e.history⟩
  | .insert _, some _ => .error "duplicate key value violates unique constraint"
  | .update doc, some _ => .ok ⟨some doc, ogCaptureHistory now nextval .u doc e.history⟩
  | .delete, some old => .ok ⟨none, ogCaptureHistory now nextval .d old e.history⟩
  | .update _, none | .delete, none => .error "no row"

end Capture

section Lookup

/-- `ORDER BY recorded_at DESC, hist_id DESC` puts the second row first. -/
def Precedes (a b : HistoryRow P T) : Prop :=
  a.recordedAt < b.recordedAt ∨ a.recordedAt = b.recordedAt ∧ a.histId < b.histId

instance (a b : HistoryRow P T) : Decidable (Precedes a b) := inferInstanceAs (Decidable (_ ∨ _))

def later (best : Option (HistoryRow P T)) (h : HistoryRow P T) : Option (HistoryRow P T) :=
  match best with
  | none => some h
  | some b => if Precedes b h then some h else some b

def pick (rows : List (HistoryRow P T)) : Option (HistoryRow P T) := rows.foldl later none

/-- `CASE WHEN op = 'd' THEN NULL ELSE payload END`. -/
def HistoryRow.state (h : HistoryRow P T) : Option P := if h.op = .d then none else some h.payload

def ogAsOf (history : List (HistoryRow P T)) (instant : T) : Except String (Option P) :=
  if history = [] then .error "no history is retained for the entity"
  else .ok ((pick (history.filter fun h => h.recordedAt ≤ instant)).bind HistoryRow.state)

end Lookup

/-- The row as it had been committed last at an instant. -/
def committedAt (log : List (Commit (Entity P T) T)) (instant : T) : Option P :=
  (log.filter fun c => c.time ≤ instant).getLast?.bind fun c => c.content.row

section Picking

variable {a b h : HistoryRow P T} {rows : List (HistoryRow P T)}

theorem pick_append (rows : List (HistoryRow P T)) (h : HistoryRow P T) :
    pick (rows ++ [h]) = later (pick rows) h := by
  simp [pick, List.foldl_append]

theorem pick_mem (hb : pick rows = some b) : b ∈ rows := by
  induction rows using List.reverseRecOn with
  | nil => cases hb
  | append_singleton rows h ih =>
    rw [pick_append] at hb
    rw [List.mem_append, List.mem_singleton]
    cases hp : pick rows with
    | none =>
      rw [hp] at hb
      exact .inr (Option.some.inj hb).symm
    | some a =>
      rw [hp] at hb
      simp only [later] at hb
      split at hb
      · exact .inr (Option.some.inj hb).symm
      · exact .inl (ih (hp.trans hb))

theorem pick_last (hlast : ∀ b ∈ rows, Precedes b h) : pick (rows ++ [h]) = some h := by
  rw [pick_append]
  cases hp : pick rows with
  | none => rfl
  | some b => simp [later, hlast b (pick_mem hp)]

theorem pick_map {f : HistoryRow P T → HistoryRow P T} (hat : ∀ h, (f h).recordedAt = h.recordedAt)
    (hid : ∀ h, (f h).histId = h.histId) (rows : List (HistoryRow P T)) :
    pick (rows.map f) = (pick rows).map f := by
  induction rows using List.reverseRecOn with
  | nil => rfl
  | append_singleton rows h ih =>
    rw [List.map_append, List.map_singleton, pick_append, pick_append, ih]
    cases pick rows with
    | none => rfl
    | some b =>
      have hprec : Precedes (f b) (f h) ↔ Precedes b h := by simp only [Precedes, hat, hid]
      simp only [Option.map_some, later, hprec]
      split <;> rfl

end Picking

section Records

/-- A row of the history without the instant it was closed at. -/
def erase (h : HistoryRow P T) : HistoryRow P T := { h with validTo := none }

def record (now : T) (nextval : Nat) (op : HistoryOp) (doc : P) : HistoryRow P T :=
  ⟨nextval, op, now, none, now, doc⟩

def records (history : List (HistoryRow P T)) : List (HistoryRow P T) := history.map erase

omit [LinearOrder T] in
theorem erase_close (now : T) (h : HistoryRow P T) : erase (close now h) = erase h := by
  unfold close
  split <;> rfl

omit [LinearOrder T] in
theorem records_capture (now : T) (n : Nat) (op : HistoryOp) (doc : P) (history : List (HistoryRow P T)) :
    records (ogCaptureHistory now n op doc history) = records history ++ [record now n op doc] := by
  simp only [records, ogCaptureHistory, List.map_append, List.map_map, List.map_singleton]
  congr 1
  exact List.map_congr_left fun h _ => erase_close now h

/-- The lookup needs no more than the records. -/
theorem ogAsOf_eq {history : List (HistoryRow P T)} (hne : history ≠ []) (instant : T) :
    ogAsOf history instant =
      .ok ((pick ((records history).filter fun h => h.recordedAt ≤ instant)).bind HistoryRow.state) := by
  have hfilter : ((records history).filter fun h => h.recordedAt ≤ instant) =
      (history.filter fun h => h.recordedAt ≤ instant).map erase := by
    rw [records, List.filter_map]
    rfl
  rw [ogAsOf, if_neg hne, hfilter, pick_map (f := erase) (fun _ => rfl) (fun _ => rfl)]
  cases pick (history.filter fun h => h.recordedAt ≤ instant) <;> rfl

omit [LinearOrder T] in
/-- A write adds one record, and the record says what the row is now. -/
theorem write_eq_ok {now : T} {n : Nat} {w : Write P} {e e' : Entity P T}
    (h : write now n w e = .ok e') : ∃ op doc,
      records e'.history = records e.history ++ [record now n op doc] ∧
        e'.row = (record now n op doc).state := by
  obtain ⟨row, history⟩ := e
  cases w with
  | insert doc =>
    cases row with
    | none =>
      obtain rfl := Except.ok.inj h
      exact ⟨.i, doc, records_capture .., rfl⟩
    | some old => cases h
  | update doc =>
    cases row with
    | none => cases h
    | some old =>
      obtain rfl := Except.ok.inj h
      exact ⟨.u, doc, records_capture .., rfl⟩
  | delete =>
    cases row with
    | none => cases h
    | some old =>
      obtain rfl := Except.ok.inj h
      exact ⟨.d, old, records_capture .., rfl⟩

end Records

section Tracking

/-- Records in the order of the commits that left them, each under the start of its
transaction; the last of a commit says what the row was then. -/
inductive Tracks : List (Commit (Entity P T) T) → List (HistoryRow P T) → Prop
  | nil : Tracks [] []
  | snoc {log : List (Commit (Entity P T) T)} {rows new : List (HistoryRow P T)}
      {last : HistoryRow P T} {c : Commit (Entity P T) T} (tracks : Tracks log rows)
      (stamps : ∀ h ∈ new ++ [last], h.recordedAt = c.start)
      (order : ∀ e ∈ log, e.start ≤ c.start) (state : c.content.row = last.state) :
      Tracks (log ++ [c]) (rows ++ (new ++ [last]))

theorem Tracks.recordedAt {log : List (Commit (Entity P T) T)} {rows : List (HistoryRow P T)}
    (h : Tracks log rows) : ∀ r ∈ rows, ∃ e ∈ log, r.recordedAt = e.start := by
  induction h with
  | nil => simp
  | snoc tracks stamps order state ih =>
    intro r hr
    rcases List.mem_append.mp hr with hr | hr
    · obtain ⟨e, he, heq⟩ := ih r hr
      exact ⟨e, List.mem_append_left _ he, heq⟩
    · exact ⟨_, List.mem_append_right _ (List.mem_singleton_self _), stamps r hr⟩

/-- The lookup finds what had been committed, where no transaction was under way. -/
theorem Tracks.pick_eq {log : List (Commit (Entity P T) T)} {rows : List (HistoryRow P T)}
    (h : Tracks log rows) (hids : rows.Pairwise fun a b => a.histId < b.histId)
    (hstart : ∀ e ∈ log, e.start ≤ e.time) {instant : T}
    (hdone : ∀ e ∈ log, e.start ≤ instant → e.time ≤ instant) :
    (pick (rows.filter fun h => h.recordedAt ≤ instant)).bind HistoryRow.state =
      committedAt log instant := by
  induction h with
  | nil => rfl
  | @snoc log rows new last c tracks stamps order state ih =>
    have hrest := ih (List.pairwise_append.mp hids).1
      (fun e he => hstart e (List.mem_append_left _ he))
      (fun e he => hdone e (List.mem_append_left _ he))
    have hc := List.mem_append_right log (List.mem_singleton_self c)
    by_cases hseen : c.start ≤ instant
    · have hfilter : ((rows ++ (new ++ [last])).filter fun h => h.recordedAt ≤ instant) =
          (rows ++ new).filter (fun h => h.recordedAt ≤ instant) ++ [last] := by
        have hlast : last.recordedAt ≤ instant := stamps last (by simp) ▸ hseen
        simp [← List.append_assoc, List.filter_append, hlast]
      have hprec : ∀ b ∈ (rows ++ new).filter fun h => h.recordedAt ≤ instant, Precedes b last := by
        intro b hb
        have hb := (List.mem_filter.mp hb).1
        rw [← List.append_assoc] at hids
        have hid := (List.pairwise_append.mp hids).2.2 b hb last (List.mem_singleton_self _)
        have hlast := stamps last (by simp)
        have hle : b.recordedAt ≤ last.recordedAt := by
          rcases List.mem_append.mp hb with hb | hb
          · obtain ⟨e, he, heq⟩ := tracks.recordedAt b hb
            rw [heq, hlast]
            exact order e he
          · exact (stamps b (List.mem_append_left _ hb)).trans hlast.symm |>.le
        exact hle.lt_or_eq.imp id fun heq => ⟨heq, hid⟩
      have hlog : ((log ++ [c]).filter fun e => e.time ≤ instant) =
          log.filter (fun e => e.time ≤ instant) ++ [c] := by
        simp [List.filter_append, hdone c hc hseen]
      rw [hfilter, pick_last hprec, committedAt, hlog, List.getLast?_concat]
      exact state.symm
    · have hunseen : ¬ c.time ≤ instant := fun hle => hseen ((hstart c hc).trans hle)
      have hnew : (new ++ [last]).filter (fun h => h.recordedAt ≤ instant) = [] := by
        refine List.filter_eq_nil_iff.mpr fun h hh => ?_
        simpa [stamps h hh] using hseen
      rw [List.filter_append, hnew, List.append_nil, hrest, committedAt, committedAt,
        List.filter_append]
      simp [hunseen]

end Tracking

section Runs

variable {X K : Type} [DecidableEq X] [DecidableEq K]

def Numbered (n : Nat) (rows : List (HistoryRow P T)) : Prop :=
  (rows.Pairwise fun a b => a.histId < b.histId) ∧ ∀ h ∈ rows, h.histId < n

omit [LinearOrder T] in
theorem Numbered.mono {n m : Nat} {rows : List (HistoryRow P T)} (h : Numbered n rows) (hle : n ≤ m) :
    Numbered m rows :=
  ⟨h.1, fun r hr => (h.2 r hr).trans_le hle⟩

omit [LinearOrder T] in
theorem Numbered.append {n : Nat} {rows : List (HistoryRow P T)} (h : Numbered n rows) (now : T)
    (op : HistoryOp) (doc : P) : Numbered (n + 1) (rows ++ [record now n op doc]) := by
  refine ⟨List.pairwise_append.mpr ⟨h.1, List.pairwise_singleton _ _, ?_⟩, ?_⟩
  · intro a ha b hb
    obtain rfl := List.mem_singleton.mp hb
    exact h.2 a ha
  · intro r hr
    rcases List.mem_append.mp hr with hr | hr
    · exact (h.2 r hr).trans (Nat.lt_succ_self n)
    · obtain rfl := List.mem_singleton.mp hr
      exact Nat.lt_succ_self n

def relations : Relations (Entity P T) T where
  Committed n log e := Tracks log (records e.history) ∧ Numbered n (records e.history) ∧
    (∀ c ∈ log, c.start ≤ c.time) ∧ e.row = log.getLast?.bind fun c => c.content.row
  Working n t e e' := ∃ new last, records e'.history = records e.history ++ (new ++ [last]) ∧
    (∀ h ∈ new ++ [last], h.recordedAt = t) ∧ e'.row = last.state ∧ Numbered n (records e'.history)

/-- A transaction that commits a row started no earlier than those that committed it before. -/
def startOrder : Conditions (Entity P T) (Write P) T where
  Write _ _ _ := True
  Install log t _ := ∀ c ∈ log, c.start ≤ t

theorem kept : Kept (write (P := P) (T := T)) relations startOrder where
  committed_mono hle h := ⟨h.1, h.2.1.mono hle, h.2.2⟩
  working_mono := by
    rintro n m t e e' hle ⟨new, last, hrecords, hat, hrow, hnum⟩
    exact ⟨new, last, hrecords, hat, hrow, hnum.mono hle⟩
  first := by
    rintro n log t w e e' ⟨-, hnum, -⟩ - hwrite
    obtain ⟨op, doc, hrecords, hrow⟩ := write_eq_ok hwrite
    refine ⟨[], record t n op doc, hrecords, fun h hh => ?_, hrow, ?_⟩
    · obtain rfl := List.mem_singleton.mp hh
      rfl
    · rw [hrecords]
      exact hnum.append t op doc
  next := by
    rintro n t w e e' e'' ⟨new, last, hrecords, hat, -, hnum⟩ - hwrite
    obtain ⟨op, doc, hrecords', hrow⟩ := write_eq_ok hwrite
    refine ⟨new ++ [last], record t n op doc, ?_, fun h hh => ?_, hrow, ?_⟩
    · rw [hrecords', hrecords, List.append_assoc]
    · rcases List.mem_append.mp hh with hh | hh
      · exact hat h hh
      · obtain rfl := List.mem_singleton.mp hh
        rfl
    · rw [hrecords']
      exact hnum.append t op doc
  install := by
    rintro n log t time e e' - htime ⟨htracks, -, hstart, -⟩ ⟨new, last, hrecords, hat, hrow, hnum⟩ horder
    refine ⟨?_, hnum, fun c hc => ?_, by simp⟩
    · rw [hrecords]
      exact .snoc htracks hat horder hrow
    · rcases List.mem_append.mp hc with hc | hc
      · exact hstart c hc
      · obtain rfl := List.mem_singleton.mp hc
        exact htime

/-- Lookups follow the commits of an entity at every instant at which none of its
transactions was under way, if its transactions commit in the order they started. -/
theorem ogAsOf_follows_commits {now : T} {es : List (Event X K (Write P) T)}
    {db : Database X K (Entity P T) T}
    (run : Run (step write) (Meets startOrder) (Database.init now fun _ => absent) es db) {k : K}
    (htracked : db.log k ≠ []) :
    (∀ instant, (∀ c ∈ db.log k, c.time ≤ instant) →
      ogAsOf (db.committed k).history instant = .ok (db.committed k).row) ∧
    ∀ instant, (∀ c ∈ db.log k, c.start ≤ instant → c.time ≤ instant) →
      ogAsOf (db.committed k).history instant = .ok (committedAt (db.log k) instant) := by
  have hsound := Sound.run kept (fun _ => ⟨.nil, ⟨.nil, by simp [absent, records]⟩, by simp, rfl⟩) run
  obtain ⟨htracks, hnum, hstart, hrow⟩ := hsound.committed k
  have hhistory : (db.committed k).history ≠ [] := by
    intro hnil
    rw [hnil] at htracks
    generalize db.log k = log at htracks htracked
    generalize hr : records ([] : List (HistoryRow P T)) = rows at htracks
    cases htracks with
    | nil => exact htracked rfl
    | snoc => simp [records] at hr
  have hlookup : ∀ instant, (∀ c ∈ db.log k, c.start ≤ instant → c.time ≤ instant) →
      ogAsOf (db.committed k).history instant = .ok (committedAt (db.log k) instant) := by
    intro instant hdone
    rw [ogAsOf_eq hhistory, htracks.pick_eq hnum.1 hstart hdone]
  refine ⟨fun instant hlast => ?_, hlookup⟩
  have hall : ((db.log k).filter fun c => c.time ≤ instant) = db.log k :=
    List.filter_eq_self.mpr fun c hc => by simpa using hlast c hc
  rw [hlookup instant fun c hc _ => hlast c hc, committedAt, hall, hrow]

/-- Transaction 0 has inserted the entity 0. -/
def inserted : Database Nat Nat (Entity Nat Nat) Nat :=
  ({ Database.init 0 fun _ => absent with start := Function.update (fun _ => none) 0 (some 0) }.assign
    0 0 ⟨some 10, [record 0 0 .i 10]⟩).install 0 0

theorem run_inserted : Run (step write) (Meets startOrder) (Database.init 0 fun _ => absent)
    [.begin_ 0, .write 0 0 (.insert 10), .commit 0] inserted := by
  have hnil : Run (step write) (Meets startOrder)
      (Database.init 0 fun _ => absent : Database Nat Nat (Entity Nat Nat) Nat) [] _ := .nil
  have hopen := hnil.snoc (e := .begin_ 0) (by trivial) rfl
  have hwrite := hopen.snoc (e := .write 0 0 (.insert 10)) (by exact fun _ _ => trivial) rfl
  refine hwrite.snoc (e := .commit 0) (fun t ht k hk c hc => ?_) rfl
  simp [Database.assign, Database.init] at hc

theorem ogAsOf_inserted : ogAsOf (inserted.committed 0).history 5 = .ok (some 10) :=
  (ogAsOf_follows_commits run_inserted (k := 0) (by decide)).1 5 (by decide)

/-- Transaction 1 starts first and commits last. -/
def overtaken : List (Event Nat Nat (Write Nat) Nat) :=
  [.begin_ 0, .write 0 0 (.insert 10), .commit 0, .tick 1, .begin_ 1, .tick 2, .begin_ 2,
    .write 2 0 (.update 20), .tick 3, .commit 2, .write 1 0 (.update 30), .tick 4, .commit 1]

theorem not_ogAsOf_follows_commits : ¬ ∀ (es : List (Event Nat Nat (Write Nat) Nat))
    (db : Database Nat Nat (Entity Nat Nat) Nat),
    Run (step write) (fun _ _ _ => True) (Database.init 0 fun _ => absent) es db →
      ∀ k, db.log k ≠ [] → ∀ instant, (∀ c ∈ db.log k, c.time ≤ instant) →
        ogAsOf (db.committed k).history instant = .ok (db.committed k).row := by
  intro h
  cases hrun : overtaken.foldlM (step write)
      (Database.init 0 fun _ => absent : Database Nat Nat (Entity Nat Nat) Nat) with
  | error e => cases hrun
  | ok db =>
    have hnil : Run (step write) (fun _ _ _ => True)
        (Database.init 0 fun _ => absent : Database Nat Nat (Entity Nat Nat) Nat) [] _ := .nil
    have hall := Run.of_foldlM (fun _ _ _ => trivial) hnil hrun
    have hdb := Except.ok.inj hrun
    have hread := h _ db hall 0 (by rw [← hdb]; decide) 10 (by rw [← hdb]; decide)
    rw [← hdb] at hread
    exact absurd hread (by decide)

end Runs

end OntologicalDb.HistoryLookups
