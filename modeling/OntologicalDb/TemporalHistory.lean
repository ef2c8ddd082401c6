import Mathlib
import OntologicalDb.ExceptRules
import OntologicalDb.TimePeriods

/-!
Bitemporal capture for one instance of a versioned type: its row, the history
rows the trigger `og__temporal` writes beside it, and what a point in valid and
system time sees of them.
-/

namespace OntologicalDb.TemporalHistory

open OntologicalDb.ExceptRules
open OntologicalDb.TimePeriods

/-- The instants of `timestamptz`: microseconds between two infinities. -/
abbrev Timestamptz : Type := WithBot (WithTop Int)

def Timestamptz.at_ (n : Int) : Timestamptz := WithBot.some (WithTop.some n)

theorem Timestamptz.at_lt_top (n : Int) : Timestamptz.at_ n < ⊤ :=
  WithBot.coe_lt_coe.mpr (WithTop.coe_lt_top n)

variable {D T : Type} [LinearOrder T]

/-- A row: the columns a reader sees, `__valid` and `__sys_from`. -/
structure Row (D T : Type) [LT T] where
  doc : D
  valid : Period T
  sysFrom : T

inductive HistoryOp
  | u
  | d
  | v
deriving DecidableEq

structure HistoryRow (D T : Type) [LT T] extends Row D T where
  sysTo : T
  op : HistoryOp

structure Instance (D T : Type) [LT T] where
  current : Option (Row D T)
  history : List (HistoryRow D T)

/-- The settings `og.valid_from` and `og.valid_to`. -/
structure Settings (T : Type) where
  validFrom : Option T
  validTo : Option T

inductive Op (D : Type)
  | insert (doc : D)
  | update (doc : D)
  | delete

/-- A statement on the row, in a transaction that started at a finite instant. -/
structure Event (D T : Type) [LT T] [Top T] where
  now : T
  finite : now < ⊤
  settings : Settings T
  op : Op D

def Event.from_ [OrderTop T] (e : Event D T) : T := e.settings.validFrom.getD e.now

section Trigger

/-- `x > lower(valid)`; a comparison with NULL does not hold. -/
def startsBefore (valid : Period T) (x : T) : Prop := ∃ lo ∈ valid.lower, lo < x

/-- `x >= upper(valid)`. -/
def endsBy (valid : Period T) (x : T) : Prop := ∃ hi ∈ valid.upper, hi ≤ x

instance (valid : Period T) (x : T) : Decidable (startsBefore valid x) :=
  inferInstanceAs (Decidable (∃ lo ∈ valid.lower, lo < x))

instance (valid : Period T) (x : T) : Decidable (endsBy valid x) :=
  inferInstanceAs (Decidable (∃ hi ∈ valid.upper, hi ≤ x))

/-- `GREATEST(x, lower(valid))`, which ignores NULL. -/
def greatest (x : T) : Option T → T
  | some lo => max x lo
  | none => x

/-- The part of a validity before an instant. -/
def remainder (valid : Period T) (x : T) : Option (Period T) :=
  match valid with
  | .empty => none
  | .span lo _ _ =>
      if h : lo < x then some (.span lo (some x) fun _ hu => Option.some.inj hu ▸ h) else none

theorem remainder_eq_some {valid p : Period T} {x : T} (h : remainder valid x = some p) :
    ∃ lo, valid.lower = some lo ∧ lo < x ∧ ∀ v, p.Contains v ↔ lo ≤ v ∧ v < x := by
  cases valid with
  | empty => cases h
  | span lo hi hlt =>
      simp only [remainder] at h
      split at h
      · next hlo =>
        obtain rfl := Option.some.inj h
        exact ⟨lo, rfl, hlo, fun v => by simp [Period.Contains]⟩
      · cases h

theorem remainder_eq_none {valid : Period T} {x : T} :
    remainder valid x = none ↔ ¬ startsBefore valid x := by
  cases valid with
  | empty => simp [remainder, startsBefore, Period.lower]
  | span lo hi hlt => by_cases hlo : lo < x <;> simp [remainder, startsBefore, Period.lower, hlo]

def closedRow (now : T) (op : HistoryOp) (old : Row D T) : HistoryRow D T :=
  { old with sysTo := now, op := op }

theorem closedRow_doc (now : T) (op : HistoryOp) (old : Row D T) :
    (closedRow now op old).doc = old.doc :=
  rfl

variable [OrderTop T]

/-- The part of a superseded row that stays true, open-ended in system time. -/
def sliceRow (now : T) (old : Row D T) (valid : Period T) : HistoryRow D T :=
  { doc := old.doc, valid := valid, sysFrom := now, sysTo := ⊤, op := .v }

def superseded (now x : T) (op : HistoryOp) (old : Row D T) : List (HistoryRow D T) :=
  closedRow now op old :: (remainder old.valid x).toList.map (sliceRow now old)

def supersede (now x : T) (op : HistoryOp) (old : Row D T) :
    Except String (List (HistoryRow D T)) :=
  if startsBefore old.valid x ∧ endsBy old.valid x then
    .error "OG_TEMPORAL_RANGE: og.valid_from lies after the end of the current validity"
  else .ok (superseded now x op old)

theorem supersede_eq_ok {now x : T} {op : HistoryOp} {old : Row D T} {rows : List (HistoryRow D T)}
    (h : supersede now x op old = .ok rows) :
    ¬ (startsBefore old.valid x ∧ endsBy old.valid x) ∧ rows = superseded now x op old := by
  simp only [supersede] at h
  split at h
  · cases h
  · next hacc => exact ⟨hacc, (Except.ok.inj h).symm⟩

def onInsert (e : Event D T) (doc : D) : Except String (Row D T) := do
  let valid ← Period.make e.from_ (some (e.settings.validTo.getD ⊤))
  return ⟨doc, valid, e.now⟩

def onUpdate [DecidableEq D] (e : Event D T) (old : Row D T) (doc : D) :
    Except String (Row D T × List (HistoryRow D T)) :=
  if old.doc = doc then .ok (⟨doc, old.valid, old.sysFrom⟩, [])
  else do
    let rows ← supersede e.now e.from_ .u old
    let valid ← Period.make (greatest e.from_ old.valid.lower)
      (e.settings.validTo.or old.valid.upper)
    return (⟨doc, valid, e.now⟩, rows)

/-- One statement on the row of the instance. -/
def step [DecidableEq D] (i : Instance D T) (e : Event D T) : Except String (Instance D T) :=
  match e.op, i.current with
  | .insert doc, none => do return ⟨some (← onInsert e doc), i.history⟩
  | .insert _, some _ => .error "duplicate key value violates unique constraint"
  | .update doc, some old => do
      let (row, rows) ← onUpdate e old doc
      return ⟨some row, i.history ++ rows⟩
  | .delete, some old => do
      return ⟨none, i.history ++ (← supersede e.now e.from_ .d old)⟩
  | .update _, none | .delete, none => .ok i

end Trigger

section Visibility

inductive Source
  | current
  | open_
  | closed
deriving DecidableEq

def Row.Visible (r : Row D T) (v s : T) : Prop := r.valid.Contains v ∧ r.sysFrom ≤ s

instance (r : Row D T) (v s : T) : Decidable (r.Visible v s) :=
  inferInstanceAs (Decidable (_ ∧ _))

def currentSeen (v s : T) (current : Option (Row D T)) : List (Source × D) :=
  (current.toList.filter fun r => r.Visible v s).map fun r => (.current, r.doc)

theorem currentSeen_of_lt {r : Row D T} {v s : T} (h : s < r.sysFrom) :
    currentSeen v s (some r) = [] := by
  have hvis : ¬ r.Visible v s := fun hv => not_le_of_gt h hv.2
  simp [currentSeen, hvis]

variable [OrderTop T]

/-- Visible as a slice still believed. -/
def HistoryRow.Open (h : HistoryRow D T) (v s : T) : Prop :=
  h.sysTo = ⊤ ∧ h.valid.Contains v ∧ h.sysFrom ≤ s

/-- Visible as a belief since superseded, when an instant is set. -/
def HistoryRow.Closed (active : Bool) (h : HistoryRow D T) (v s : T) : Prop :=
  active = true ∧ h.sysTo ≠ ⊤ ∧ h.valid.Contains v ∧ h.sysFrom ≤ s ∧ s < h.sysTo

instance (h : HistoryRow D T) (v s : T) : Decidable (h.Open v s) :=
  inferInstanceAs (Decidable (_ ∧ _ ∧ _))

instance (active : Bool) (h : HistoryRow D T) (v s : T) : Decidable (h.Closed active v s) :=
  inferInstanceAs (Decidable (_ ∧ _ ∧ _ ∧ _ ∧ _))

def openSeen (v s : T) (history : List (HistoryRow D T)) : List (Source × D) :=
  (history.filter fun h => h.Open v s).map fun h => (.open_, h.doc)

def closedSeen (active : Bool) (v s : T) (history : List (HistoryRow D T)) : List (Source × D) :=
  (history.filter fun h => h.Closed active v s).map fun h => (.closed, h.doc)

/-- What a reader sees of the instance at a valid and a system instant. -/
def seen (active : Bool) (v s : T) (i : Instance D T) : List (Source × D) :=
  currentSeen v s i.current ++ (openSeen v s i.history ++ closedSeen active v s i.history)

def docsSeen (active : Bool) (v s : T) (i : Instance D T) : List D :=
  (seen active v s i).map Prod.snd

section SupersededRows

variable {v s now x : T} {op : HistoryOp} {old : Row D T} {history rows : List (HistoryRow D T)}
  {active : Bool}

theorem mem_superseded {h : HistoryRow D T} :
    h ∈ superseded now x op old ↔
      h = closedRow now op old ∨ ∃ p, remainder old.valid x = some p ∧ h = sliceRow now old p := by
  simp only [superseded, List.mem_cons, List.mem_map, Option.mem_toList]
  exact or_congr_right (exists_congr fun p => and_congr_right fun _ => eq_comm)

theorem openSeen_eq_nil : openSeen v s history = [] ↔ ∀ h ∈ history, ¬ h.Open v s := by
  simp [openSeen, List.filter_eq_nil_iff]

theorem closedSeen_eq_nil :
    closedSeen active v s history = [] ↔ ∀ h ∈ history, ¬ h.Closed active v s := by
  simp [closedSeen, List.filter_eq_nil_iff]

theorem openSeen_append :
    openSeen v s (history ++ rows) = openSeen v s history ++ openSeen v s rows := by
  simp only [openSeen, List.filter_append, List.map_append]

theorem closedSeen_append :
    closedSeen active v s (history ++ rows) =
      closedSeen active v s history ++ closedSeen active v s rows := by
  simp only [closedSeen, List.filter_append, List.map_append]

/-- From its instant on, a change leaves visible what was true before it took effect. -/
theorem openSeen_superseded (hnow : now < ⊤) :
    openSeen v s (superseded now x op old) =
      if now ≤ s ∧ v < x ∧ ∃ lo ∈ old.valid.lower, lo ≤ v then [(.open_, old.doc)] else [] := by
  have hclosed : ¬ (closedRow now op old).Open v s := fun h => hnow.ne h.1
  cases hrem : remainder old.valid x with
  | none =>
      have hstart := remainder_eq_none.mp hrem
      rw [if_neg]
      · simp [openSeen, superseded, hrem, hclosed]
      · rintro ⟨-, hv, lo, hlo, hle⟩
        exact hstart ⟨lo, hlo, lt_of_le_of_lt hle hv⟩
  | some p =>
      obtain ⟨lo, hlo, -, hp⟩ := remainder_eq_some hrem
      have hslice : (sliceRow now old p).Open v s ↔
          now ≤ s ∧ v < x ∧ ∃ lo ∈ old.valid.lower, lo ≤ v := by
        constructor
        · rintro ⟨-, hv, hs⟩
          exact ⟨hs, ((hp v).mp hv).2, lo, hlo, ((hp v).mp hv).1⟩
        · rintro ⟨hs, hv, lo', hlo', hle⟩
          obtain rfl := Option.some.inj (hlo.symm.trans hlo')
          exact ⟨rfl, (hp v).mpr ⟨hle, hv⟩, hs⟩
      by_cases hvis : (sliceRow now old p).Open v s
      · rw [if_pos (hslice.mp hvis)]
        simp [openSeen, superseded, hrem, hclosed, hvis]
        rfl
      · rw [if_neg (mt hslice.mpr hvis)]
        simp [openSeen, superseded, hrem, hclosed, hvis]

/-- The superseded row stays visible from its own instant to the change. -/
theorem closedSeen_superseded (hnow : now < ⊤) :
    closedSeen active v s (superseded now x op old) =
      if active = true ∧ old.Visible v s ∧ s < now then [(.closed, old.doc)] else [] := by
  have hclosed : (closedRow now op old).Closed active v s ↔
      active = true ∧ old.Visible v s ∧ s < now :=
    ⟨fun ⟨ha, _, hv, hs, hlt⟩ => ⟨ha, ⟨hv, hs⟩, hlt⟩,
      fun ⟨ha, ⟨hv, hs⟩, hlt⟩ => ⟨ha, hnow.ne, hv, hs, hlt⟩⟩
  have hslice : ∀ p, ¬ (sliceRow now old p).Closed active v s := fun p h => h.2.1 rfl
  by_cases hvis : (closedRow now op old).Closed active v s
  · rw [if_pos (hclosed.mp hvis)]
    cases hrem : remainder old.valid x <;>
      simp [closedSeen, superseded, hrem, hvis, hslice, closedRow_doc]
  · rw [if_neg (mt hclosed.mpr hvis)]
    cases hrem : remainder old.valid x <;> simp [closedSeen, superseded, hrem, hvis, hslice]

end SupersededRows

end Visibility

/-- The statements of one transaction, all stamped with its start. -/
structure Transaction (D T : Type) [LT T] [Top T] where
  start : T
  finite : start < ⊤
  statements : List (Settings T × Op D)

def commit [OrderTop T] [DecidableEq D] (i : Instance D T) (t : Transaction D T) :
    Except String (Instance D T) :=
  t.statements.foldlM (fun i st => step i ⟨t.start, t.finite, st.1, st.2⟩) i

section Steps

variable [OrderTop T] [DecidableEq D]

/-- What a statement can do to the instance. -/
inductive Steps (i : Instance D T) (e : Event D T) : Instance D T → Prop
  | insert (doc : D) (valid : Period T) (hop : e.op = .insert doc) (hnone : i.current = none) :
      Steps i e ⟨some ⟨doc, valid, e.now⟩, i.history⟩
  | absent (hop : ∀ doc, e.op ≠ .insert doc) (hnone : i.current = none) : Steps i e i
  | same (old : Row D T) (hop : e.op = .update old.doc) (hcur : i.current = some old) :
      Steps i e i
  | update (doc : D) (old : Row D T) (valid : Period T) (hop : e.op = .update doc)
      (hcur : i.current = some old) (hne : old.doc ≠ doc)
      (hacc : ¬ (startsBefore old.valid e.from_ ∧ endsBy old.valid e.from_))
      (hmake : Period.make (greatest e.from_ old.valid.lower)
        (e.settings.validTo.or old.valid.upper) = .ok valid) :
      Steps i e ⟨some ⟨doc, valid, e.now⟩, i.history ++ superseded e.now e.from_ .u old⟩
  | delete (old : Row D T) (hop : e.op = .delete) (hcur : i.current = some old)
      (hacc : ¬ (startsBefore old.valid e.from_ ∧ endsBy old.valid e.from_)) :
      Steps i e ⟨none, i.history ++ superseded e.now e.from_ .d old⟩

theorem step_cases {i i' : Instance D T} {e : Event D T} (h : step i e = .ok i') :
    Steps i e i' := by
  obtain ⟨current, history⟩ := i
  cases hop : e.op with
  | insert doc =>
      cases current with
      | none =>
          simp only [step, hop, onInsert, bind_eq_ok, pure_eq_ok] at h
          obtain ⟨row, ⟨valid, -, rfl⟩, rfl⟩ := h
          exact .insert doc valid hop rfl
      | some old =>
          simp only [step, hop] at h
          cases h
  | update doc =>
      cases current with
      | none =>
          simp only [step, hop] at h
          obtain rfl := Except.ok.inj h
          exact .absent (by simp [hop]) rfl
      | some old =>
          simp only [step, hop, onUpdate, bind_eq_ok] at h
          obtain ⟨⟨row, rows⟩, hrow, hi⟩ := h
          obtain rfl := pure_eq_ok.mp hi
          split at hrow
          · next hsame =>
            obtain ⟨rfl, rfl⟩ := Prod.mk.inj (Except.ok.inj hrow)
            subst hsame
            rw [List.append_nil]
            exact .same old hop rfl
          · next hne =>
            obtain ⟨rows', hsup, valid, hmake, hpair⟩ := by
              simpa only [bind_eq_ok] using hrow
            obtain ⟨rfl, rfl⟩ := Prod.mk.inj (pure_eq_ok.mp hpair)
            obtain ⟨hacc, rfl⟩ := supersede_eq_ok hsup
            exact .update doc old valid hop rfl hne hacc hmake
  | delete =>
      cases current with
      | none =>
          simp only [step, hop] at h
          obtain rfl := Except.ok.inj h
          exact .absent (by simp [hop]) rfl
      | some old =>
          simp only [step, hop, bind_eq_ok] at h
          obtain ⟨rows, hsup, hi⟩ := h
          obtain rfl := pure_eq_ok.mp hi
          obtain ⟨hacc, rfl⟩ := supersede_eq_ok hsup
          exact .delete old hop rfl hacc

end Steps

end OntologicalDb.TemporalHistory
