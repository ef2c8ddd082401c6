import OntologicalDb.TemporalHistory
import OntologicalDb.TypedTables

/-!
Which updates of a versioned row count as changes.  The stamp and history triggers
compare the columns a reader can see, which they recognise by name: not the system
columns, and not those that end as the shadow columns of a migration do.
-/

namespace OntologicalDb.HousekeepingWrites

open OntologicalDb.ExceptRules
open OntologicalDb.TemporalHistory
open OntologicalDb.TimePeriods
open OntologicalDb.TypedTables

section Names

/-- `k LIKE '\_\_%'`. -/
def likeSystem (k : String) : Bool := ['_', '_'].isPrefixOf k.toList

/-- `k ~ '__s[0-9]+$'`, read from the end. -/
def endsAsShadow (k : String) : Bool :=
  let reversed := k.toList.reverse
  reversed.takeWhile Char.isDigit ≠ [] ∧
    ['s', '_', '_'].isPrefixOf (reversed.dropWhile Char.isDigit)

/-- The columns `og__visible` keeps. -/
def Kept (k : String) : Prop := ¬ (likeSystem k ∧ k ≠ "__ext") ∧ ¬ endsAsShadow k

instance (k : String) : Decidable (Kept k) := inferInstanceAs (Decidable (_ ∧ _))

/-- `og__visible`: of the columns of a table, the cells that count. -/
def ogVisible {J : Type} (columns : List String) (row : String → J) : List (String × J) :=
  (columns.filter fun k => Kept k).map fun k => (k, row k)

end Names

section Model

variable {J T : Type} [DecidableEq J] [LinearOrder T]

/-- The stamp columns. -/
structure Stamps (T : Type) where
  createdAt : Option T
  createdBy : Option String
  updatedAt : Option T
  updatedBy : Option String
  actor : Option String
  source : Option String

/-- The columns of a row but the two of its periods; values are what `to_jsonb` makes
of them, up to the equality of `jsonb`. -/
structure Cells (J T : Type) where
  col : String → J
  stamps : Stamps T

/-- What the triggers read of the transaction. -/
structure Transaction (T : Type) where
  now : T
  settings : Settings T
  currentUser : String
  actor : Option String
  source : Option String

def Transaction.from_ (tx : Transaction T) : T := tx.settings.validFrom.getD tx.now

/-- The stamp of a write; the creation stamps are those of the old row. -/
def Transaction.stamp (tx : Transaction T) (createdAt : Option T) (createdBy : Option String) :
    Stamps T :=
  { createdAt := createdAt, createdBy := createdBy
    updatedAt := some tx.now, updatedBy := some tx.currentUser
    actor := tx.actor, source := tx.source }

/-- `og__stamp`; without an old row the operation is an `INSERT`. -/
def ogStamp (columns : List String) (tx : Transaction T) (old : Option (Cells J T))
    (new : String → J) : Stamps T :=
  match old with
  | none => tx.stamp (some tx.now) (some tx.currentUser)
  | some old =>
      if ogVisible columns old.col = ogVisible columns new then old.stamps
      else tx.stamp old.stamps.createdAt old.stamps.createdBy

/-- What `og__temporal` makes of a row it returns, and what it writes beside it. -/
abbrev Captured (J T : Type) [LT T] : Type :=
  Option (Row (Cells J T) T) × List (HistoryRow (Cells J T) T)

variable [OrderTop T]

/-- `og__temporal`: an `INSERT` without an old row, a `DELETE` without a new one. -/
def ogTemporal (columns : List String) (tx : Transaction T) (old : Option (Row (Cells J T) T))
    (new : Option (Cells J T)) : Except String (Captured J T) :=
  match old, new with
  | none, none => .ok (none, [])
  | none, some new => do
      let valid ← Period.make tx.from_ (some (tx.settings.validTo.getD ⊤))
      return (some ⟨new, valid, tx.now⟩, [])
  | some old, none => do return (none, ← supersede tx.now tx.from_ .d old)
  | some old, some new =>
      if ogVisible columns old.doc.col = ogVisible columns new.col then
        .ok (some ⟨new, old.valid, old.sysFrom⟩, [])
      else do
        let rows ← supersede tx.now tx.from_ .u old
        let valid ← Period.make (greatest tx.from_ old.valid.lower)
          (tx.settings.validTo.or old.valid.upper)
        return (some ⟨new, valid, tx.now⟩, rows)

end Model

section Types

/-- A versioned type: the columns of its table and the names of its properties, each
stored in the column of its name as PostgreSQL cuts it to an identifier. -/
structure VersionedType (s : Session) (physical : String → String) where
  columns : List String
  properties : List String
  stamped : Bool
  stored : ∀ p ∈ properties, physical (columnName s p) ∈ columns
  ext_stored : "__ext" ∈ columns

variable {s : Session} {physical : String → String} {J T : Type}

/-- The value of some property changes: of a declared one in its column, of another in
the extension payload. -/
def Changed (t : VersionedType s physical) (old new : String → J) : Prop :=
  (∃ p ∈ t.properties, old (physical (columnName s p)) ≠ new (physical (columnName s p))) ∨
    old "__ext" ≠ new "__ext"

variable [DecidableEq J] [LinearOrder T] [OrderTop T]

/-- An `UPDATE` of a row: the stamp trigger, where there is one, before the history
trigger. -/
def update (t : VersionedType s physical) (tx : Transaction T) (old : Row (Cells J T) T)
    (new : String → J) : Except String (Captured J T) :=
  let stamps := if t.stamped then ogStamp t.columns tx (some old.doc) new else old.doc.stamps
  ogTemporal t.columns tx (some old) (some ⟨new, stamps⟩)

/-- The old version stands in the history, closed now, and the new one starts a system
period and, on a stamped type, has a stamp of its own. -/
def Recorded (t : VersionedType s physical) (tx : Transaction T) (old : Row (Cells J T) T)
    (captured : Captured J T) : Prop :=
  closedRow tx.now .u old ∈ captured.2 ∧
    ∃ row ∈ captured.1, row.sysFrom = tx.now ∧
      (t.stamped → row.doc.stamps = tx.stamp old.doc.stamps.createdAt old.doc.stamps.createdBy)

/-- An update that changes a property is recorded, unless it is refused. -/
def NoSilentChange (t : VersionedType s physical) (tx : Transaction T) (old : Row (Cells J T) T)
    (new : String → J) : Prop :=
  Changed t old.doc.col new → ∀ captured, update t tx old new = .ok captured →
    Recorded t tx old captured

end Types

section Triggers

variable {s : Session} {physical : String → String} {J T : Type} {t : VersionedType s physical}

theorem ogVisible_eq_iff {columns : List String} {old new : String → J} :
    ogVisible columns old = ogVisible columns new ↔ ∀ k ∈ columns, Kept k → old k = new k := by
  rw [ogVisible, ogVisible, List.map_inj_left]
  constructor
  · intro h k hk hkept
    exact congrArg Prod.snd (h k (List.mem_filter.mpr ⟨hk, decide_eq_true hkept⟩))
  · intro h k hk
    rcases List.mem_filter.mp hk with ⟨hk, hkept⟩
    rw [h k hk (of_decide_eq_true hkept)]

variable [DecidableEq J] [LinearOrder T] [OrderTop T] {tx : Transaction T}
  {old : Row (Cells J T) T} {new : String → J} {captured : Captured J T}

/-- A housekeeping write keeps stamps and periods and leaves no history. -/
theorem update_of_visible_eq
    (h : ogVisible t.columns old.doc.col = ogVisible t.columns new) :
    update t tx old new = .ok (some ⟨⟨new, old.doc.stamps⟩, old.valid, old.sysFrom⟩, []) := by
  simp only [update, ogTemporal, ogStamp, if_pos h, ite_self]

/-- Every other write that is accepted is recorded. -/
theorem recorded_of_visible_ne
    (h : ogVisible t.columns old.doc.col ≠ ogVisible t.columns new)
    (hupdate : update t tx old new = .ok captured) : Recorded t tx old captured := by
  simp only [update, ogTemporal, if_neg h, bind_eq_ok] at hupdate
  rcases hupdate with ⟨rows, hrows, valid, -, hcaptured⟩
  obtain rfl := pure_eq_ok.mp hcaptured
  rcases supersede_eq_ok hrows with ⟨-, rfl⟩
  refine ⟨List.mem_cons_self, _, rfl, rfl, fun hstamped => ?_⟩
  simp only [hstamped, if_true, ogStamp, if_neg h]

/-- An update is recorded whenever it changes a property exactly when it changes none, or
some column it changes has a name the triggers keep. -/
theorem noSilentChange_iff :
    NoSilentChange t tx old new ↔
      ¬ Changed t old.doc.col new ∨ ∃ k ∈ t.columns, Kept k ∧ old.doc.col k ≠ new k := by
  constructor
  · intro h
    by_contra hnot
    rw [not_or, not_not] at hnot
    have hvisible : ogVisible t.columns old.doc.col = ogVisible t.columns new := by
      refine ogVisible_eq_iff.mpr fun k hk hkept => ?_
      by_contra hne
      exact hnot.2 ⟨k, hk, hkept, hne⟩
    exact List.not_mem_nil (h hnot.1 _ (update_of_visible_eq hvisible)).1
  · rintro (hsame | ⟨k, hk, hkept, hne⟩) hchanged captured hupdate
    · exact absurd hchanged hsame
    · exact recorded_of_visible_ne (fun hvisible => hne (ogVisible_eq_iff.mp hvisible k hk hkept))
        hupdate

end Triggers

/-- A server for ASCII names, every identifier of which is short. -/
def asciiSession : Session where
  role := "writer"
  canChangeSchema := true
  denied := fun _ _ _ => none
  cast := fun _ v => .ok v
  isAlphanumeric := fun _ => false
  toLowercase := fun c => String.singleton c

theorem columnName_shadowNamed : columnName asciiSession "x__s1" = "p_x__s1" := by decide

/-- A type with one property, `x__s1`. -/
def shadowNamedType : VersionedType asciiSession id where
  columns := ["id", "p_x__s1", "__ext"]
  properties := ["x__s1"]
  stamped := true
  stored := by simp [columnName_shadowNamed]
  ext_stored := by simp

def unstamped : Stamps Timestamptz := ⟨none, none, none, none, none, none⟩

/-- `SET n.x__s1 = 1` leaves no trace. -/
theorem not_recorded_shadowNamed :
    ¬ NoSilentChange shadowNamedType
      ⟨.at_ 1, ⟨none, none⟩, "writer", none, none⟩
      ⟨⟨fun _ => (0 : Int), unstamped⟩, .span (.at_ 0) none (by simp), .at_ 0⟩
      (fun k => if k = "p_x__s1" then 1 else 0) := by
  intro h
  have hchanged : Changed shadowNamedType (fun _ => (0 : Int))
      (fun k => if k = "p_x__s1" then 1 else 0) := by
    refine .inl ⟨"x__s1", List.mem_singleton_self _, ?_⟩
    simp [columnName_shadowNamed]
  have hhidden : ogVisible shadowNamedType.columns (fun _ => (0 : Int)) =
      ogVisible shadowNamedType.columns (fun k => if k = "p_x__s1" then 1 else 0) := by decide
  exact List.not_mem_nil (h hchanged _ (update_of_visible_eq hhidden)).1

end OntologicalDb.HousekeepingWrites
