import OntologicalDb.RowTransactions
import OntologicalDb.TemporalReads

/-!
Reads of versioned instances with no instant set, beside transactions that change
them: the instant of a read is the start of its transaction, its rows are those
committed when the statement runs.
-/

namespace OntologicalDb.PresentReads

open OntologicalDb.GuardedRuns
open OntologicalDb.RowTransactions
open OntologicalDb.TemporalHistory
open OntologicalDb.TemporalReads
open OntologicalDb.TemporalVersions
open OntologicalDb.TimePeriods

variable {X K D T : Type} [DecidableEq X] [DecidableEq K] [DecidableEq D] [LinearOrder T] [OrderTop T]

section Sessions

/-- The settings `og.valid_at` and `og.system_at`. -/
structure AsOf (T : Type) where
  validAt : Option T
  systemAt : Option T

def AsOf.unset : AsOf T := ⟨none, none⟩

def ogValidAt (s : AsOf T) (now : T) : T := s.validAt.getD now

def ogSystemAt (s : AsOf T) (now : T) : T := s.systemAt.getD now

def ogAsofActive (s : AsOf T) : Bool := s.validAt.isSome || s.systemAt.isSome

/-- The documents of an instance a statement returns. -/
def read (s : AsOf T) (now : T) (i : Instance D T) : List D :=
  docsSeen (ogAsofActive s) (ogValidAt s now) (ogSystemAt s now) i

/-- A statement of a transaction that reads one instance, with no instant set. -/
def readBy (db : Database X K (Instance D T) T) (x : X) (k : K) : Except String (List D) := do
  let now ← startOf db x
  return read .unset now (db.visible x k)

end Sessions

/-- The id of a new instance has not been given out before; a change finds a row. -/
def finds (op : Op D) (i : Instance D T) : Bool :=
  match op with
  | .insert _ => i.current.isNone && i.history.isEmpty
  | .update _ | .delete => i.current.isSome

/-- A statement on one instance; one that matches no row writes nothing. -/
def write (now : T) (_ : Nat) (w : Settings T × Op D) (i : Instance D T) :
    Except String (Instance D T) :=
  if hnow : now < ⊤ then
    if finds w.2 i then step i ⟨now, hnow, w.1, w.2⟩ else .error "no row"
  else .error "timestamp out of range"

section Runs

def relations : Relations (Instance D T) T where
  Committed _ _ i := Ordered i
  Working _ _ _ i := Ordered i

/-- A row that is valid at no instant becomes valid after its slices still believed. -/
def resuming : Conditions (Instance D T) (Settings T × Op D) T where
  Write t w i := ∀ hnow : t < ⊤, ResumesLater i ⟨t, hnow, w.1, w.2⟩
  Install _ _ _ := True

theorem write_eq_ok {now : T} {n : Nat} {w : Settings T × Op D} {i i' : Instance D T}
    (h : write now n w i = .ok i') : ∃ hnow : now < ⊤, step i ⟨now, hnow, w.1, w.2⟩ = .ok i' ∧
      ∀ doc, w.2 = .insert doc → i.history = [] := by
  simp only [write] at h
  split at h
  · next hnow =>
    split at h
    · next hfound =>
      refine ⟨hnow, h, fun doc hop => ?_⟩
      simp only [hop, finds, Bool.and_eq_true] at hfound
      exact List.isEmpty_iff.mp hfound.2
    · cases h
  · cases h

theorem ordered_write {now : T} {n : Nat} {w : Settings T × Op D} {i i' : Instance D T}
    (hord : Ordered i) (hresumes : ∀ hnow : now < ⊤, ResumesLater i ⟨now, hnow, w.1, w.2⟩)
    (h : write now n w i = .ok i') : Ordered i' := by
  obtain ⟨hnow, hstep, hfresh⟩ := write_eq_ok h
  exact ordered_step hstep hord hfresh (hresumes hnow)

theorem kept : Kept (write (D := D) (T := T)) relations resuming where
  committed_mono _ h := h
  working_mono _ h := h
  first hord hresumes h := ordered_write hord hresumes h
  next hord hresumes h := ordered_write hord hresumes h
  install _ _ _ hord _ := hord

omit [DecidableEq X] [DecidableEq K] [DecidableEq D] in
/-- Beside a row that is valid then, no slice still believed is. -/
theorem openSeen_of_contains {i : Instance D T} {row : Row D T} {v s : T} (hord : Ordered i)
    (hrow : i.current = some row) (hv : row.valid.Contains v) : openSeen v s i.history = [] := by
  refine openSeen_eq_nil.mpr fun h hh hopen => ?_
  cases hlower : row.valid.lower with
  | none =>
    rw [Period.lower_eq_none hlower] at hv
    exact Period.not_contains_empty v hv
  | some lo =>
    have hlt := hord.row row hrow lo hlower h hh hopen.1 v hopen.2.1
    exact not_lt_of_ge (Period.lower_le hv hlower) hlt

omit [DecidableEq X] [DecidableEq K] [DecidableEq D] in
theorem read_unset_iff {i : Instance D T} {row : Row D T} {now : T} (hord : Ordered i)
    (hrow : i.current = some row) (hv : row.valid.Contains now) :
    read .unset now i = [row.doc] ↔ row.sysFrom ≤ now := by
  have hclosed : closedSeen false now now i.history = [] :=
    closedSeen_eq_nil.mpr fun h _ hvis => Bool.false_ne_true hvis.1
  have hread : read .unset now i = (if row.Visible now now then [row.doc] else []) := by
    change docsSeen false now now i = _
    rw [docsSeen_eq hrow, historyDocs, openSeen_of_contains hord hrow hv, hclosed]
    exact List.append_nil _
  have hvis : row.Visible now now ↔ row.sysFrom ≤ now := and_iff_right hv
  rw [hread]
  by_cases hfrom : row.sysFrom ≤ now
  · simp [hvis.mpr hfrom, hfrom]
  · simp [mt hvis.mp hfrom, hfrom]

/-- A statement returns the committed row of an instance that is valid at the start of its
transaction exactly if the row was stamped no later than that. -/
theorem read_iff_stamped_before {now : T} {es : List (RowTransactions.Event X K (Settings T × Op D) T)}
    {db : Database X K (Instance D T) T}
    (run : Run (RowTransactions.step write) (Meets resuming)
      (Database.init now fun _ => TemporalVersions.start) es db)
    (x : X) (start : T) (hstart : db.start x = some start) (k : K) (hfree : db.holder k ≠ some x)
    (row : Row D T) (hrow : (db.committed k).current = some row) (hv : row.valid.Contains start) :
    readBy db x k = .ok [row.doc] ↔ row.sysFrom ≤ start := by
  have hsound := Sound.run kept (fun _ => ⟨List.Pairwise.nil, by rintro r ⟨⟩⟩) run
  have hvisible : db.visible x k = db.committed k := if_neg hfree
  have hread : readBy db x k = .ok (read .unset start (db.committed k)) := by
    rw [readBy, startOf_eq_ok.mpr hstart, hvisible]
    rfl
  rw [hread, Except.ok.injEq]
  exact read_unset_iff (hsound.committed k) hrow hv

end Runs

section Instances

abbrev Db := Database Nat Nat (Instance Nat Timestamptz) Timestamptz

def empty : Db := Database.init (.at_ 0) fun _ => TemporalVersions.start

abbrev Statement := RowTransactions.Event Nat Nat (Settings Timestamptz × Op Nat) Timestamptz

/-- Transaction 0 inserts the instance 0; transaction 1 starts after that. -/
def insertedBefore : List Statement :=
  [.begin_ 0, .write 0 0 (unset, .insert 1), .commit 0, .tick (.at_ 1), .begin_ 1]

theorem zero_lt_top : ∀ u ∈ (some ⊤ : Option Timestamptz), Timestamptz.at_ 0 < u := by
  simp [Timestamptz.at_lt_top]

def sinceZero : Row Nat Timestamptz := ⟨1, .span (.at_ 0) (some ⊤) zero_lt_top, .at_ 0⟩

theorem run_insertedBefore : ∃ db : Db,
    Run (RowTransactions.step write) (Meets resuming) empty insertedBefore db ∧
      db.start 1 = some (.at_ 1) ∧ db.holder 0 ≠ some 1 ∧
        (db.committed 0).current = some sinceZero := by
  have hnil : Run (RowTransactions.step write) (Meets resuming) empty ([] : List Statement) _ := .nil
  have hopen := hnil.snoc (e := .begin_ 0) (by trivial) rfl
  have hwrite := hopen.snoc (e := .write 0 0 (unset, .insert 1)) (by rintro t - hnow old ⟨⟩) rfl
  have hcommit := hwrite.snoc (e := .commit 0) (by rintro t - k -; trivial) rfl
  have htick := hcommit.snoc (e := .tick (.at_ 1)) (by trivial) rfl
  have hread := htick.snoc (e := .begin_ 1) (by trivial) rfl
  exact ⟨_, hread, rfl, by decide, rfl⟩

theorem read_insertedBefore : ∃ db : Db,
    Run (RowTransactions.step write) (Meets resuming) empty insertedBefore db ∧
      readBy db 1 0 = .ok [1] := by
  obtain ⟨db, run, hstart, hfree, hrow⟩ := run_insertedBefore
  exact ⟨db, run, (read_iff_stamped_before run 1 _ hstart 0 hfree _ hrow (by decide)).mpr (by decide)⟩

/-- Transaction 2 starts after the reader 1 and corrects the instance before it reads. -/
def correctedMeanwhile : List Statement :=
  insertedBefore ++ [Event.tick (.at_ 2), .begin_ 2, .write 2 0 (⟨some ⊥, none⟩, .update 2), .commit 2]

theorem not_read_committed : ¬ ∀ (es : List Statement) (db : Db),
    Run (RowTransactions.step write) (fun _ _ _ => True) empty es db →
      ∀ x start, db.start x = some start → ∀ k, db.holder k ≠ some x →
        ∀ row, (db.committed k).current = some row → row.valid.Contains start →
          readBy db x k = .ok [row.doc] := by
  intro h
  cases hrun : correctedMeanwhile.foldlM (RowTransactions.step write) empty with
  | error e => cases hrun
  | ok db =>
    have hnil : Run (RowTransactions.step write) (fun _ _ _ => True) empty ([] : List Statement) _ := .nil
    have hall := h _ db (Run.of_foldlM (fun _ _ _ => trivial) hnil hrun) 1 (.at_ 1)
    have hdb := Except.ok.inj hrun
    rw [← hdb] at hall
    have hread := hall rfl 0 (by decide) _ rfl (by decide)
    exact absurd hread (by decide)

end Instances

end OntologicalDb.PresentReads
