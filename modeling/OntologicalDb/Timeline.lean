import Mathlib
import OntologicalDb.AncestorSearch
import OntologicalDb.ColumnTexts
import OntologicalDb.EvolutionFrames
import OntologicalDb.PropertyColumns
import OntologicalDb.TemporalVersions

/-!
The slices `og_timeline` returns for an instance, beside what a typed read at a pair of
instants returns of it.
-/

namespace OntologicalDb.Timeline

open OntologicalDb.AncestorSearch
open OntologicalDb.ColumnTexts (documentText)
open OntologicalDb.EvolutionFrames
open OntologicalDb.GuardedRuns
open OntologicalDb.Labeling
open OntologicalDb.RowDocuments
open OntologicalDb.SchemaEvolution
open OntologicalDb.TemporalHistory
open OntologicalDb.TemporalVersions
open OntologicalDb.TimePeriods
open OntologicalDb.TypeCatalog
open OntologicalDb.Values

section Documents

/-- A row as `to_jsonb` gives it: the ends of an edge, the columns of properties and the
overflow document. -/
structure Doc where
  ends : Option (Int × Int)
  cells : List (String × Json)
  ext : List (String × Json)
  nodup : (cells.map (·.1)).Nodup
deriving DecidableEq

def member (kvs : List (String × Json)) (key : String) : Option Json :=
  (kvs.find? fun kv => kv.1 = key).map (·.2)

/-- A column of a row; what a relation does not have is NULL. -/
def cell (s : State) (rel : Relation) (d : Doc) (column : String) : Json :=
  if (s.columns rel column).isSome then (member d.cells column).getD .null else .null

mutual

/-- `jsonb_strip_nulls`: the members that are null go, at every depth. -/
def stripNulls : Json → Json
  | .arr xs => .arr (stripElements xs)
  | .obj kvs => .obj (stripMembers kvs)
  | j => j

def stripElements : List Json → List Json
  | [] => []
  | x :: xs => stripNulls x :: stripElements xs

def stripMembers : List (String × Json) → List (String × Json)
  | [] => []
  | (k, x) :: kvs => if x.isNull then stripMembers kvs else (k, stripNulls x) :: stripMembers kvs

end

/-- The columns of a change of type: `k ~ '__s[0-9]+$'`. -/
def isShadow (column : String) : Bool :=
  let cs := column.toList.reverse
  decide (cs.takeWhile Char.isDigit ≠ []) && ['s', '_', '_'].isPrefixOf (cs.dropWhile Char.isDigit)

/-- What `og__visible` leaves of the columns. -/
def visible (column : String) : Bool :=
  !(['_', '_'].isPrefixOf column.toList && decide (column ≠ "__ext")) && !isShadow column

end Documents

section Properties

variable (s : State) (root sub : Int) (rel : Relation) (d : Doc)

/-- `cols ->> k`, or the column itself. -/
def timelineName (column : String) : String :=
  (((s.o.catalog.properties.filter fun p => p.typeId = sub).reverse.find? fun p =>
    p.columnName = column).map (·.name)).getD column

/-- The members the timeline makes of the columns of a row. -/
def timelineMembers : List (String × Json) :=
  let ends := match d.ends with
    | none => []
    | some e => [("src", .num ⟨e.1, 0⟩), ("dst", .num ⟨e.2, 0⟩)]
  let shown := d.cells.filter fun c => (s.columns rel c.1).isSome ∧ visible c.1
  ((ends ++ shown).filter fun c => !c.2.isNull).map fun c => (timelineName s sub c.1, c.2)

/-- The properties of a slice; the overflow document wins. -/
def timelineProps (key : String) : Option Json :=
  (member d.ext key).or (member (timelineMembers s sub rel d).reverse key)

/-- The properties of a typed read: the columns of the view, and the overflow document. -/
def readProps (key : String) : Option Json :=
  (member d.ext key).or <|
    match viewProperty? s.o.catalog root key with
    | none => none
    | some (column, _) =>
        let j := cell s rel d column
        if j.isNull then none else some (stripNulls j)

end Properties

section Queries

variable {T : Type} [LinearOrder T] [OrderTop T]

/-- A row believed at an instant, of the table or of its history. -/
structure Slice (T : Type) [LT T] where
  row : Row Doc T
  hist : Bool

/-- A current row is believed from `__sys_from` on, a history row until `__sys_to`. -/
def believed (at_ : T) (i : Instance Doc T) : List (Slice T) :=
  ((i.current.toList.filter fun r => r.sysFrom ≤ at_ ∧ at_ < ⊤).map fun r => ⟨r, false⟩) ++
    (i.history.filter fun h => h.sysFrom ≤ at_ ∧ at_ < h.sysTo).map fun h => ⟨h.toRow, true⟩

/-- `valid && tstzrange(lo, hi, '[)')`. -/
def overlaps (valid : Period T) (lo hi : T) : Bool :=
  match valid with
  | .empty => false
  | .span l u _ => decide (lo < hi) && decide (l < hi) && decide (∀ w ∈ u, lo < w)

/-- What `og_timeline` compares with its key. -/
def keyText (s : State) (sub : Int) (keyProp : String) (a : Slice T) : Option String :=
  match s.o.catalog.properties.find? fun p => p.typeId = sub ∧ p.name = keyProp with
  | some p => documentText (cell s (sub, a.hist) a.row.doc p.columnName)
  | none => (member a.row.doc.ext keyProp).bind documentText

/-- The types the timeline goes over. -/
def timelineTypes (c : Catalog) (root : Int) : List Int :=
  ancestorsOf (c.typeParent.map Prod.swap) (c.typeParent.map Prod.swap).length [root]

/-- `og_timeline`, as far as it is about one instance of a versioned type. -/
def ogTimeline (s : State) (root sub : Int) (keyProp key : String) (lo hi at_ : T)
    (i : Instance Doc T) : List (Slice T) :=
  if sub ∈ timelineTypes s.o.catalog root then
    (believed at_ i).filter fun a => keyText s sub keyProp a = some key ∧ overlaps a.row.valid lo hi
  else []

/-- A typed read at a pair of instants: where the rows are, and what they are. -/
def reads (s : State) (root sub : Int) (v at_ : T) (i : Instance Doc T) : List (Bool × Doc) :=
  if sub ∈ ogSubtypes s.o.catalog root then
    (seen true v at_ i).map fun x => (decide (x.1 ≠ .current), x.2)
  else []

/-- The timeline of an instance over `[lo, hi)` says what the reads say. -/
def Agrees (s : State) (root sub : Int) (keyProp key : String) (lo hi at_ : T)
    (i : Instance Doc T) : Prop :=
  let slices := ogTimeline s root sub keyProp key lo hi at_ i
  (slices.Pairwise fun a b => ∀ v, a.row.valid.Contains v → ¬ b.row.valid.Contains v) ∧
    ∀ v, lo ≤ v → v < hi →
      ((∃ a ∈ slices, a.row.valid.Contains v) ↔ reads s root sub v at_ i ≠ []) ∧
        ∀ a ∈ slices, a.row.valid.Contains v → ∀ r ∈ reads s root sub v at_ i, ∀ k,
          timelineProps s sub (sub, a.hist) a.row.doc k = readProps s root (sub, r.1) r.2 k

end Queries

section Rows

variable {T : Type} [LinearOrder T] [OrderTop T] {i : Instance Doc T} {v at_ lo hi : T}

omit [OrderTop T] in
theorem overlaps_of_contains {valid : Period T} (hv : valid.Contains v) (hlo : lo ≤ v) (hhi : v < hi) :
    overlaps valid lo hi = true := by
  cases valid with
  | empty => exact (Period.not_contains_empty v hv).elim
  | span l u hlt =>
      obtain ⟨hl, hu⟩ := hv
      simp only [overlaps, Bool.and_eq_true, decide_eq_true_eq]
      exact ⟨⟨hlo.trans_lt hhi, hl.trans_lt hhi⟩, fun w hw => hlo.trans_lt (hu w hw)⟩

/-- The rows believed at an instant that are valid at another are what a read at the pair sees. -/
theorem believed_perm_seen (hat : at_ < ⊤) :
    (((believed at_ i).filter fun a => a.row.valid.Contains v).map fun a => (a.hist, a.row.doc)).Perm
      ((seen true v at_ i).map fun x => (decide (x.1 ≠ .current), x.2)) := by
  have hcurrent : (i.current.toList.filter fun r => r.sysFrom ≤ at_ ∧ at_ < ⊤).filter
      (fun r => r.valid.Contains v) = i.current.toList.filter fun r => r.Visible v at_ := by
    rw [List.filter_filter]
    refine List.filter_congr fun r _ => ?_
    rw [Bool.eq_iff_iff]
    simp only [Bool.and_eq_true, decide_eq_true_eq]
    simp only [Row.Visible, hat, and_true]
  have hopen : ((i.history.filter fun h => h.sysFrom ≤ at_ ∧ at_ < h.sysTo).filter
      (fun h => h.valid.Contains v)).filter (fun h => h.sysTo = ⊤) =
        i.history.filter fun h => h.Open v at_ := by
    rw [List.filter_filter, List.filter_filter]
    refine List.filter_congr fun h _ => ?_
    by_cases htop : h.sysTo = ⊤ <;> simp [HistoryRow.Open, htop, hat]
  have hclosed : ((i.history.filter fun h => h.sysFrom ≤ at_ ∧ at_ < h.sysTo).filter
      (fun h => h.valid.Contains v)).filter (fun h => ¬ h.sysTo = ⊤) =
        i.history.filter fun h => h.Closed true v at_ := by
    rw [List.filter_filter, List.filter_filter]
    refine List.filter_congr fun h _ => ?_
    by_cases htop : h.sysTo = ⊤
    · simp [HistoryRow.Closed, htop]
    · rw [Bool.eq_iff_iff]
      simp only [HistoryRow.Closed, htop, Bool.and_eq_true, decide_eq_true_eq]
      tauto
  have hhistory : (((i.history.filter fun h => h.sysFrom ≤ at_ ∧ at_ < h.sysTo).filter
      fun h => h.valid.Contains v).map fun h => (true, h.doc)).Perm
        ((openSeen v at_ i.history ++ closedSeen true v at_ i.history).map
          fun x => (decide (x.1 ≠ .current), x.2)) := by
    have hsplit := (List.filter_append_perm (fun h : HistoryRow Doc T => decide (h.sysTo = ⊤))
      ((i.history.filter fun h => h.sysFrom ≤ at_ ∧ at_ < h.sysTo).filter
        fun h => h.valid.Contains v)).symm
    refine (hsplit.map _).trans ?_
    simp only [← decide_not]
    rw [hopen, hclosed]
    simp [openSeen, closedSeen, Function.comp_def]
  rw [believed, seen, List.filter_append, List.map_append, List.map_append, List.filter_map,
    List.filter_map, List.map_map, List.map_map]
  refine List.Perm.append ?_ hhistory
  simp only [Function.comp_def, currentSeen, hcurrent, List.map_map]
  simp

end Rows

section Runs

variable {T : Type} [LinearOrder T] [OrderTop T] {i i' : Instance Doc T}

/-- What happens to an instance: a statement on it, or a change of the schema that rewrites
its rows and those of its history without touching their periods. -/
inductive Happening (T : Type) [LT T] [Top T]
  | statement (e : Event Doc T)
  | rewrite (current history : Doc → Doc)

def happen (i : Instance Doc T) : Happening T → Except String (Instance Doc T)
  | .statement e => TemporalHistory.step i e
  | .rewrite f g => .ok
      ⟨i.current.map fun r => { r with doc := f r.doc },
        i.history.map fun h => { h with doc := g h.doc }⟩

def statements (hs : List (Happening T)) : List (Event Doc T) :=
  hs.filterMap fun h => match h with
    | .statement e => some e
    | .rewrite _ _ => none

/-- The statements come in order; rewrites come at any time. -/
def InOrder (hs : List (Happening T)) (i : Instance Doc T) : Happening T → Prop
  | .statement e => Orderly (statements hs) i e
  | .rewrite _ _ => True

theorem statements_append_statement (hs : List (Happening T)) (e : Event Doc T) :
    statements (hs ++ [Happening.statement e]) = statements hs ++ [e] := by
  simp [statements, List.filterMap_append]

theorem statements_append_rewrite (hs : List (Happening T)) (f g : Doc → Doc) :
    statements (hs ++ [Happening.rewrite f g]) = statements hs := by
  simp [statements, List.filterMap_append]

theorem length_docsSeen_rewrite (f g : Doc → Doc) (v s : T) :
    (docsSeen true v s (⟨i.current.map fun r => { r with doc := f r.doc },
      i.history.map fun h => { h with doc := g h.doc }⟩ : Instance Doc T)).length =
        (docsSeen true v s i).length := by
  have hcurrent : (currentSeen v s (i.current.map fun r => { r with doc := f r.doc })).length =
      (currentSeen v s i.current).length := by
    cases i.current with
    | none => rfl
    | some r =>
        by_cases hvis : r.Visible v s
        · have hvis' : Row.Visible { r with doc := f r.doc } v s := hvis
          simp [currentSeen, hvis, hvis']
        · have hvis' : ¬ Row.Visible { r with doc := f r.doc } v s := hvis
          simp [currentSeen, hvis, hvis']
  have hhistory {p : HistoryRow Doc T → Prop} [DecidablePred p]
      (hp : ∀ h, p { h with doc := g h.doc } ↔ p h) :
      ((i.history.map fun h => { h with doc := g h.doc }).filter fun h => p h).length =
        (i.history.filter fun h => p h).length := by
    rw [List.filter_map, List.length_map]
    exact congrArg List.length (List.filter_congr fun h _ => decide_eq_decide.mpr (hp h))
  simp only [docsSeen, seen, List.length_map, List.length_append, openSeen, closedSeen, hcurrent]
  rw [hhistory fun _ => Iff.rfl, hhistory fun _ => Iff.rfl]

/-- Nothing that keeps the versions of an instance apart is about its documents. -/
theorem sound_rewrite {es : List (Event Doc T)} (h : Sound es i) (f g : Doc → Doc) :
    Sound es (⟨i.current.map fun r => { r with doc := f r.doc },
      i.history.map fun h => { h with doc := g h.doc }⟩ : Instance Doc T) := by
  refine ⟨fun hno => ?_, ⟨?_, ?_⟩, fun t ht => ⟨?_, ?_⟩, fun v s => ?_⟩
  · rw [h.fresh hno]
    rfl
  · exact List.pairwise_map.mpr h.ordered.slices
  · rintro r hr lo hlo h' hh'
    obtain ⟨r₀, hr₀, rfl⟩ := Option.map_eq_some_iff.mp hr
    obtain ⟨h₀, hh₀, rfl⟩ := List.mem_map.mp hh'
    exact h.ordered.row r₀ hr₀ lo hlo h₀ hh₀
  · rintro r hr
    obtain ⟨r₀, hr₀, rfl⟩ := Option.map_eq_some_iff.mp hr
    exact (h.stamped t ht).row r₀ hr₀
  · rintro h' hh'
    obtain ⟨h₀, hh₀, rfl⟩ := List.mem_map.mp hh'
    exact (h.stamped t ht).history h₀ hh₀
  · rw [length_docsSeen_rewrite]
    exact h.one v s

theorem sound_run {hs : List (Happening T)} (run : Run happen InOrder start hs i) :
    Sound (statements hs) i := by
  refine run.invariant (I := fun hs i => Sound (statements hs) i) sound_start
    fun hs i h i' hsound guard hstep => ?_
  cases h with
  | statement e =>
      rw [statements_append_statement]
      exact hsound.step guard hstep
  | rewrite f g =>
      rw [statements_append_rewrite]
      obtain rfl := Except.ok.inj hstep
      exact sound_rewrite hsound f g

end Runs

end OntologicalDb.Timeline
