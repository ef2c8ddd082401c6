import Mathlib
import OntologicalDb.Timeline

/-!
The slices of a timeline and the reads at a pair of instants, after any run of statements
and changes of the schema.
-/

namespace OntologicalDb.TimelineReads

open OntologicalDb.AncestorSearch
open OntologicalDb.ColumnTexts (documentText)
open OntologicalDb.EvolutionFrames
open OntologicalDb.GuardedRuns
open OntologicalDb.Labeling
open OntologicalDb.SchemaEvolution
open OntologicalDb.TemporalHistory
open OntologicalDb.TemporalVersions
open OntologicalDb.Timeline
open OntologicalDb.TypeCatalog

section Types

variable {c : Catalog} {g root sub : Int}

/-- The types below a type are found down the links as up the labels. -/
theorem mem_timelineTypes : sub ∈ timelineTypes c root ↔ IsSubtype c sub root := by
  have hlink : ∀ a b, (a, b) ∈ c.typeParent.map Prod.swap ↔ Child c a b := by
    intro a b
    rw [List.mem_map]
    constructor
    · rintro ⟨l, hl, hswap⟩
      obtain rfl : l = (b, a) := by rw [← Prod.swap_swap l, hswap, Prod.swap_prod_mk]
      exact hl
    · exact fun hl => ⟨(b, a), hl, rfl⟩
  rw [timelineTypes, mem_ancestorsOf_iff]
  constructor
  · exact Relation.ReflTransGen.mono (fun a b => (hlink a b).mp) root sub
  · exact Relation.ReflTransGen.mono (fun a b => (hlink a b).mpr) root sub

theorem mem_timelineTypes_iff (hc : WellFormed c) (hroot : root ∈ graphTypes c g) :
    sub ∈ timelineTypes c root ↔ sub ∈ ogSubtypes c root :=
  mem_timelineTypes.trans (mem_ogSubtypes_iff hc hroot).symm

end Types

section Slices

variable {T : Type} [LinearOrder T] [OrderTop T] {i : Instance Doc T} {s : State} {g root sub : Int}
  {keyProp key : String} {v at_ lo hi : T}

/-- The key of a row where a read finds it. -/
def keyOf (s : State) (sub : Int) (keyProp : String) (x : Bool × Doc) : Option String :=
  match s.o.catalog.properties.find? fun p => p.typeId = sub ∧ p.name = keyProp with
  | some p => documentText (cell s (sub, x.1) x.2 p.columnName)
  | none => (member x.2.ext keyProp).bind documentText

omit [OrderTop T] in
theorem keyText_eq {a : Slice T} : keyText s sub keyProp a = keyOf s sub keyProp (a.hist, a.row.doc) := rfl

omit [OrderTop T] in
/-- Slices no two of which hold an instant are apart. -/
theorem pairwise_of_filter_length {slices : List (Slice T)}
    (h : ∀ v, (slices.filter fun a => a.row.valid.Contains v).length ≤ 1) :
    slices.Pairwise fun a b => ∀ v, a.row.valid.Contains v → ¬ b.row.valid.Contains v := by
  induction slices with
  | nil => exact .nil
  | cons a slices ih =>
      refine List.pairwise_cons.mpr ⟨fun b hb v ha hb' => ?_, ih fun v => ?_⟩
      · have hv := h v
        rw [List.filter_cons, if_pos (decide_eq_true ha), List.length_cons, Nat.succ_le_succ_iff,
          Nat.le_zero, List.length_eq_zero_iff] at hv
        have hmem : b ∈ slices.filter fun a => a.row.valid.Contains v :=
          List.mem_filter.mpr ⟨hb, decide_eq_true hb'⟩
        rw [hv] at hmem
        cases hmem
      · exact ((List.sublist_cons_self a slices).filter _).length_le.trans (h v)

theorem believed_pairwise (hat : at_ < ⊤) (hone : ∀ v s, (docsSeen true v s i).length ≤ 1) :
    (believed at_ i).Pairwise fun a b => ∀ v, a.row.valid.Contains v → ¬ b.row.valid.Contains v := by
  refine pairwise_of_filter_length fun v => ?_
  have hperm := (believed_perm_seen (i := i) (v := v) hat).length_eq
  rw [List.length_map, List.length_map] at hperm
  rw [hperm, ← List.length_map (f := Prod.snd)]
  exact hone v at_

/-- The slices that hold an instant, with their key, are what a read at the pair sees of it. -/
theorem slices_perm_reads (hat : at_ < ⊤) (hlo : lo ≤ v) (hhi : v < hi)
    (hsub : sub ∈ timelineTypes s.o.catalog root ↔ sub ∈ ogSubtypes s.o.catalog root) :
    (((ogTimeline s root sub keyProp key lo hi at_ i).filter fun a => a.row.valid.Contains v).map
        fun a => (a.hist, a.row.doc)).Perm
      ((reads s root sub v at_ i).filter fun x => keyOf s sub keyProp x = some key) := by
  unfold ogTimeline reads
  by_cases hmem : sub ∈ timelineTypes s.o.catalog root
  · rw [if_pos hmem, if_pos (hsub.mp hmem)]
    refine List.Perm.trans (List.Perm.of_eq ?_)
      ((believed_perm_seen (i := i) (v := v) hat).filter fun x => keyOf s sub keyProp x = some key)
    rw [List.filter_map, List.filter_filter, List.filter_filter]
    refine congrArg _ (List.filter_congr fun a _ => ?_)
    rw [Bool.eq_iff_iff]
    simp only [Bool.and_eq_true, decide_eq_true_eq, Function.comp_def, keyText_eq]
    constructor
    · exact fun h => ⟨(of_decide_eq_true h.2).1, h.1⟩
    · exact fun h => ⟨h.2, decide_eq_true ⟨h.1, overlaps_of_contains h.2 hlo hhi⟩⟩
  · rw [if_neg hmem, if_neg fun hread => hmem (hsub.mpr hread)]
    rfl

end Slices

section Runs

variable {T : Type} [LinearOrder T] [OrderTop T] {i : Instance Doc T} {s : State} {g root : Int}
  {at_ : T} {hs : List (Happening T)}

/-- One type, with one property. -/
def titles : State := PropertyColumns.book [("title", "text")]

theorem titles_wellFormed : WellFormed titles.o.catalog where
  typeIds := by decide
  parents := by
    intro l hl
    cases hl
  labelled gid := by
    by_cases hgid : gid = 1
    · subst hgid
      decide
    · have hnone : graphTypes titles.o.catalog gid = [] := by
        simp [graphTypes, titles, PropertyColumns.book, Ne.symm hgid]
      rw [if_pos hnone]
      simp [titles, PropertyColumns.book, Ne.symm hgid]

def emma : Doc := ⟨none, [("p_title", .str "Emma")], [], by simp⟩

theorem one_lt_upper : ∀ u ∈ (some ⊤ : Option Timestamptz), Timestamptz.at_ 1 < u :=
  fun _ hu => Option.mem_some_iff.mp hu ▸ Timestamptz.at_lt_top 1

def emmaSinceOne : Instance Doc Timestamptz :=
  ⟨some ⟨emma, .span (.at_ 1) (some ⊤) one_lt_upper, .at_ 1⟩, []⟩

end Runs

end OntologicalDb.TimelineReads
