import OntologicalDb.TemporalVersions

/-!
What a change leaves to be read at the present system instant: now, and over the
window the change was made for.
-/

namespace OntologicalDb.TemporalReads

open OntologicalDb.GuardedRuns
open OntologicalDb.TemporalHistory
open OntologicalDb.TemporalVersions
open OntologicalDb.TimePeriods

variable {D T : Type} [LinearOrder T]

section Periods

theorem greatest_le {x v : T} {lower : Option T} :
    greatest x lower ≤ v ↔ x ≤ v ∧ ∀ lo ∈ lower, lo ≤ v := by
  cases lower <;> simp [greatest]

theorem le_greatest (x : T) (lower : Option T) : x ≤ greatest x lower := by
  cases lower <;> simp [greatest]

/-- The instants at which a changed row is valid. -/
theorem contains_changed {valid p : Period T} {x v : T} {vto : Option T}
    (h : Period.make (greatest x valid.lower) (vto.or valid.upper) = .ok p) :
    p.Contains v ↔ (x ≤ v ∧ ∀ lo ∈ valid.lower, lo ≤ v) ∧ ∀ u ∈ vto.or valid.upper, v < u := by
  rw [Period.contains_make h v, greatest_le]

/-- An accepted change takes effect before the validity it changes has ended. -/
theorem lt_upper_of_accepted {valid : Period T} {x lo u : T}
    (hacc : ¬ (startsBefore valid x ∧ endsBy valid x)) (hlo : valid.lower = some lo)
    (hle : lo ≤ x) (hu : u ∈ valid.upper) : x < u := by
  rcases hle.lt_or_eq with hlt | rfl
  · exact lt_of_not_ge fun hux => hacc ⟨⟨lo, hlo, hlt⟩, ⟨u, hu, hux⟩⟩
  · exact ((Period.contains_iff hlo lo).mp (Period.contains_lower hlo)).2 u hu

end Periods

variable [OrderTop T]

/-- The documents that the history rows of an instance show. -/
def historyDocs (active : Bool) (v s : T) (i : Instance D T) : List D :=
  (openSeen v s i.history ++ closedSeen active v s i.history).map Prod.snd

section Documents

variable {active : Bool} {v s : T} {old : Row D T} {i : Instance D T} {doc : D}

theorem docsSeen_eq (hcur : i.current = some old) :
    docsSeen active v s i =
      (if old.Visible v s then [old.doc] else []) ++ historyDocs active v s i := by
  by_cases hvis : old.Visible v s
  · simp [docsSeen, seen, historyDocs, hcur, currentSeen, hvis]
  · simp [docsSeen, seen, historyDocs, hcur, currentSeen, hvis]

theorem docsSeen_none (hcur : i.current = none) :
    docsSeen active v s i = historyDocs active v s i := by
  simp [docsSeen, seen, historyDocs, hcur, currentSeen]

/-- At the instant of a change its history rows show only what was true before it took effect. -/
theorem historyDocs_superseded (active : Bool) (v x : T) (op : HistoryOp) (old : Row D T)
    (i : Instance D T) {now : T} (hnow : now < ⊤) (current : Option (Row D T)) :
    (historyDocs active v now ⟨current, i.history ++ superseded now x op old⟩).Perm
      ((if v < x ∧ ∃ lo ∈ old.valid.lower, lo ≤ v then [old.doc] else []) ++
        historyDocs active v now i) := by
  have hclosed : closedSeen active v now (superseded now x op old) = [] := by
    rw [closedSeen_superseded hnow, if_neg fun h => lt_irrefl now h.2.2]
  have hopen : (openSeen v now (superseded now x op old)).map Prod.snd =
      if v < x ∧ ∃ lo ∈ old.valid.lower, lo ≤ v then [old.doc] else [] := by
    rw [openSeen_superseded hnow]
    simp only [le_refl, true_and]
    split <;> rfl
  simp only [historyDocs, openSeen_append, closedSeen_append, hclosed, List.append_nil,
    List.map_append, hopen]
  rw [← List.append_assoc]
  exact List.perm_append_comm.append_right _

theorem ite_append_eq_singleton {p : Prop} [Decidable p] {docs : List D} :
    (if p then [doc] else []) ++ docs = [doc] ↔ p ∧ docs = [] ∨ ¬ p ∧ docs = [doc] := by
  by_cases hp : p <;> simp [hp]

theorem ite_perm_ite {p q : Prop} [Decidable p] [Decidable q] {docs : List D} :
    ((if p then [doc] else []) ++ docs).Perm ((if q then [doc] else []) ++ docs) ↔ (p ↔ q) := by
  rw [List.perm_append_right_iff]
  by_cases hp : p <;> by_cases hq : q <;> simp [hp, hq]

end Documents

section Changes

variable [DecidableEq D] {active : Bool} {old : Row D T} {i i' : Instance D T}
  {e : Event D T} {doc : D}

/-- The row an update leaves says something about a valid instant. -/
def SpeaksAt (e : Event D T) (old : Row D T) (doc : D) (v : T) : Prop :=
  if old.doc = doc then old.Visible v e.now
  else e.from_ ≤ v ∧ (∀ lo ∈ old.valid.lower, lo ≤ v) ∧
    ∀ u ∈ e.settings.validTo.or old.valid.upper, v < u

/-- The history rows an update adds say something about a valid instant. -/
def LeavesAt (e : Event D T) (old : Row D T) (doc : D) (v : T) : Prop :=
  old.doc ≠ doc ∧ v < e.from_ ∧ ∃ lo ∈ old.valid.lower, lo ≤ v

instance (e : Event D T) (old : Row D T) (doc : D) (v : T) : Decidable (SpeaksAt e old doc v) :=
  inferInstanceAs (Decidable (if old.doc = doc then _ else _))

instance (e : Event D T) (old : Row D T) (doc : D) (v : T) : Decidable (LeavesAt e old doc v) :=
  inferInstanceAs (Decidable (_ ∧ _ ∧ _))

theorem docsSeen_update (active : Bool) (v : T) (h : step i e = .ok i') (hop : e.op = .update doc)
    (hcur : i.current = some old) :
    (docsSeen active v e.now i').Perm
      ((if SpeaksAt e old doc v then [doc] else []) ++
        ((if LeavesAt e old doc v then [old.doc] else []) ++ historyDocs active v e.now i)) := by
  cases step_cases h with
  | insert doc' valid hop' hnone => cases hnone.symm.trans hcur
  | absent hop' hnone => cases hnone.symm.trans hcur
  | same old' hop' hcur' =>
      obtain rfl := Option.some.inj (hcur'.symm.trans hcur)
      obtain rfl : old'.doc = doc := by
        rw [hop'] at hop
        exact Op.update.inj hop
      simp [docsSeen_eq hcur, SpeaksAt, LeavesAt]
  | update doc' old' valid hop' hcur' hne hacc hmake =>
      obtain rfl := Option.some.inj (hcur'.symm.trans hcur)
      obtain rfl : doc' = doc := by
        rw [hop'] at hop
        exact Op.update.inj hop
      have hspeaks : (⟨doc', valid, e.now⟩ : Row D T).Visible v e.now ↔ SpeaksAt e old' doc' v := by
        simp only [Row.Visible, contains_changed hmake, le_refl, and_true, SpeaksAt, if_neg hne,
          and_assoc]
      have hleaves : (v < e.from_ ∧ ∃ lo ∈ old'.valid.lower, lo ≤ v) ↔ LeavesAt e old' doc' v :=
        ⟨fun hv => ⟨hne, hv⟩, fun hv => hv.2⟩
      rw [docsSeen_eq rfl]
      simp only [hspeaks]
      refine List.Perm.append_left _ ?_
      have hperm := historyDocs_superseded active v e.from_ .u old' i e.finite
        (some ⟨doc', valid, e.now⟩)
      simpa only [hleaves] using hperm
  | delete old' hop' hcur' hacc => cases hop'.symm.trans hop

theorem accepted_of_update (h : step i e = .ok i') (hop : e.op = .update doc)
    (hcur : i.current = some old) (hne : old.doc ≠ doc) :
    ¬ (startsBefore old.valid e.from_ ∧ endsBy old.valid e.from_) ∧
      ∃ valid, Period.make (greatest e.from_ old.valid.lower)
        (e.settings.validTo.or old.valid.upper) = .ok valid := by
  cases step_cases h with
  | insert doc' valid hop' hnone => cases hnone.symm.trans hcur
  | absent hop' hnone => cases hnone.symm.trans hcur
  | same old' hop' hcur' =>
      obtain rfl := Option.some.inj (hcur'.symm.trans hcur)
      exact absurd (Op.update.inj (hop'.symm.trans hop)) hne
  | update doc' old' valid hop' hcur' hne' hacc hmake =>
      obtain rfl := Option.some.inj (hcur'.symm.trans hcur)
      exact ⟨hacc, valid, hmake⟩
  | delete old' hop' hcur' hacc => cases hop'.symm.trans hop

theorem docsSeen_delete (active : Bool) (v : T) (h : step i e = .ok i') (hop : e.op = .delete) :
    (docsSeen active v e.now i').Perm
      ((if v < e.from_ ∧ ∃ old ∈ i.current, ∃ lo ∈ old.valid.lower, lo ≤ v then
        i.current.toList.map Row.doc else []) ++ historyDocs active v e.now i) := by
  cases step_cases h with
  | insert doc' valid hop' hnone => cases hop'.symm.trans hop
  | absent hop' hnone => simp [docsSeen_none hnone, hnone]
  | same old' hop' hcur' => cases hop'.symm.trans hop
  | update doc' old' valid hop' hcur' hne hacc hmake => cases hop'.symm.trans hop
  | delete old' hop' hcur' hacc =>
      rw [docsSeen_none rfl]
      simpa [hcur'] using historyDocs_superseded active v e.from_ .d old' i e.finite none

/-- The validity of the row an update leaves has begun. -/
def Begun (old : Row D T) (doc : D) (now : T) : Prop :=
  if old.doc = doc then old.Visible now now else ∀ lo ∈ old.valid.lower, lo ≤ now

instance (old : Row D T) (doc : D) (now : T) : Decidable (Begun old doc now) :=
  inferInstanceAs (Decidable (if old.doc = doc then _ else _))

theorem speaksAt_now (h : step i e = .ok i') (hop : e.op = .update doc)
    (hcur : i.current = some old) (hunset : e.settings = ⟨none, none⟩) :
    SpeaksAt e old doc e.now ↔ Begun old doc e.now := by
  have hfrom : e.from_ = e.now := by simp [Event.from_, hunset]
  by_cases hsame : old.doc = doc
  · simp only [SpeaksAt, Begun, if_pos hsame]
  · simp only [SpeaksAt, Begun, if_neg hsame, hfrom, hunset, le_refl, true_and, Option.none_or,
      and_iff_left_iff_imp]
    intro hle u hu
    have hacc := (accepted_of_update h hop hcur hsame).1
    cases hlower : old.valid.lower with
    | none =>
        rw [Period.lower_eq_none hlower] at hu
        cases hu
    | some lo =>
        rw [hfrom] at hacc
        exact lt_upper_of_accepted hacc hlower (hle lo hlower) hu

/-- What a write without settings leaves to be read now depends on whether the
row it changes is valid by now, and on the history rows that already are visible. -/
theorem current_read_iff (h : step i e = .ok i') (hunset : e.settings = ⟨none, none⟩) :
    (∀ old doc, i.current = some old → e.op = .update doc →
      (docsSeen active e.now e.now i' = [doc] ↔
        if Begun old doc e.now then historyDocs active e.now e.now i = []
        else historyDocs active e.now e.now i = [doc])) ∧
      (e.op = .delete →
        (docsSeen active e.now e.now i' = [] ↔ historyDocs active e.now e.now i = [])) := by
  have hfrom : e.from_ = e.now := by simp [Event.from_, hunset]
  constructor
  · intro old doc hcur hop
    have hleaves : ¬ LeavesAt e old doc e.now := fun hl => (hl.2.1.trans_eq hfrom).false
    have hperm := docsSeen_update active e.now h hop hcur
    rw [if_neg hleaves, List.nil_append] at hperm
    rw [← List.perm_singleton, hperm.congr_left, List.perm_singleton, ite_append_eq_singleton,
      speaksAt_now h hop hcur hunset]
    by_cases hbegun : Begun old doc e.now <;> simp [hbegun]
  · intro hop
    have hperm := docsSeen_delete active e.now h hop
    rw [if_neg fun hl => (hl.1.trans_eq hfrom).false, List.nil_append] at hperm
    rw [← List.perm_nil, hperm.congr_left, List.perm_nil]

/-- The row of an instance changed at 3, and the version the change ended. -/
def changedAtThree : Instance Nat Timestamptz :=
  ⟨some ⟨2, .span (max (.at_ 3) (.at_ 1)) (some ⊤) (by simp [Timestamptz.at_lt_top]), .at_ 3⟩,
    superseded (.at_ 3) (.at_ 3) .u sinceOne⟩

theorem current_read_iff_three : docsSeen false (.at_ 3) (.at_ 3) changedAtThree = [2] := by
  have hstep : step (⟨some sinceOne, []⟩ : Instance Nat Timestamptz) (stating 3 unset (.update 2)) =
      .ok changedAtThree := rfl
  exact ((current_read_iff hstep rfl).1 sinceOne 2 rfl rfl).mpr (by decide)

/-- The row of an instance whose next version is valid from 20 on. -/
def pending : Instance Nat Timestamptz :=
  ⟨some ⟨2, .span (max (.at_ 20) (.at_ 1)) (some ⊤) (by simp [Timestamptz.at_lt_top]), .at_ 2⟩,
    superseded (.at_ 2) (.at_ 20) .u sinceOne⟩

theorem run_pending : Run step (fun _ _ _ => True) start
    [stating 1 unset (.insert 1), stating 2 ⟨some (.at_ 20), none⟩ (.update 2)] pending := by
  have hinsert : Run step (fun _ _ _ => True) start [stating 1 unset (.insert 1)]
      (⟨some sinceOne, []⟩ : Instance Nat Timestamptz) :=
    .single trivial rfl
  exact hinsert.snoc trivial rfl

/-- A plain update while a change dated to 20 is pending leaves the old values to be read now. -/
theorem not_current_read :
    ¬ ∀ (es : List (Event Nat Timestamptz)) (i i' : Instance Nat Timestamptz)
        (e : Event Nat Timestamptz), Run step (fun _ _ _ => True) start es i → step i e = .ok i' →
      e.settings = ⟨none, none⟩ →
        (∀ old doc, i.current = some old → e.op = .update doc →
          docsSeen false e.now e.now i' = [doc]) ∧
          (e.op = .delete → docsSeen false e.now e.now i' = []) := by
  intro h
  exact absurd ((h _ _ _ (stating 5 unset (.update 3)) run_pending rfl rfl).1 _ 3 rfl rfl) (by decide)

section Window

variable {lo hi : T}

/-- What an update for a window does to the validity around it: the row that was
visible must end with the window, one that was not must not start before it. -/
def EndsWithin (e : Event D T) (old : Row D T) (doc : D) (lo hi : T) : Prop :=
  old.doc ≠ doc →
    if old.sysFrom ≤ e.now then ∀ v, old.valid.Contains v → v < hi
    else ¬ startsBefore old.valid lo

theorem outside_window_iff (h : step i e = .ok i') (hop : e.op = .update doc)
    (hcur : i.current = some old) (hset : e.settings = ⟨some lo, some hi⟩) :
    (∀ v, ¬ (lo ≤ v ∧ v < hi) →
        (docsSeen active v e.now i').Perm (docsSeen active v e.now i)) ↔
      EndsWithin e old doc lo hi := by
  have hfrom : e.from_ = lo := by simp [Event.from_, hset]
  by_cases hsame : old.doc = doc
  · refine iff_of_true (fun v _ => ?_) fun hne => absurd hsame hne
    have hperm := docsSeen_update active v h hop hcur
    simpa [SpeaksAt, LeavesAt, hsame, docsSeen_eq hcur] using hperm
  obtain ⟨hacc, valid, hmake⟩ := accepted_of_update h hop hcur hsame
  simp only [hfrom, hset, Option.some_or] at hacc hmake
  have hle : lo ≤ hi := (le_greatest lo _).trans (Period.le_of_make hmake)
  -- outside the window the written row is silent
  have hdocs (v : T) (hv : ¬ (lo ≤ v ∧ v < hi)) :
      (docsSeen active v e.now i').Perm (docsSeen active v e.now i) ↔
        (LeavesAt e old doc v ↔ old.Visible v e.now) := by
    have hspeaks : ¬ SpeaksAt e old doc v := by
      intro hs
      simp only [SpeaksAt, if_neg hsame, hfrom, hset, Option.some_or] at hs
      exact hv ⟨hs.1, hs.2.2 hi rfl⟩
    have hperm := docsSeen_update active v h hop hcur
    rw [if_neg hspeaks, List.nil_append] at hperm
    rw [hperm.congr_left, docsSeen_eq hcur, ite_perm_ite]
  have hleaves (v : T) : LeavesAt e old doc v ↔ v < lo ∧ old.valid.Contains v := by
    simp only [LeavesAt, ne_eq, hsame, not_false_eq_true, true_and, hfrom]
    refine and_congr_right fun hv => ?_
    constructor
    · rintro ⟨l, hl, hlv⟩
      refine (Period.contains_iff hl v).mpr ⟨hlv, fun u hu => hv.trans ?_⟩
      exact lt_upper_of_accepted hacc hl (hlv.trans hv.le) hu
    · intro hcontains
      cases hl : old.valid.lower with
      | none =>
          rw [Period.lower_eq_none hl] at hcontains
          exact (Period.not_contains_empty v hcontains).elim
      | some l => exact ⟨l, rfl, Period.lower_le hcontains hl⟩
  simp only [EndsWithin, ne_eq, hsame, not_false_eq_true, true_implies]
  by_cases hsys : old.sysFrom ≤ e.now
  · rw [if_pos hsys]
    constructor
    · intro hout v hv
      by_contra hhi
      have hv' : ¬ (lo ≤ v ∧ v < hi) := fun hw => hhi hw.2
      have hlt := ((hleaves v).mp (((hdocs v hv').mp (hout v hv')).mpr ⟨hv, hsys⟩)).1
      exact not_lt_of_ge (hle.trans (not_lt.mp hhi)) hlt
    · intro hend v hv
      refine (hdocs v hv).mpr ((hleaves v).trans ⟨fun hl => ⟨hl.2, hsys⟩, fun hvis => ?_⟩)
      exact ⟨lt_of_not_ge fun hlov => hv ⟨hlov, hend v hvis.1⟩, hvis.1⟩
  · rw [if_neg hsys]
    constructor
    · rintro hout ⟨l, hl, hlt⟩
      have hv' : ¬ (lo ≤ l ∧ l < hi) := fun hw => not_lt_of_ge hw.1 hlt
      have hvis := ((hdocs l hv').mp (hout l hv')).mp
        ((hleaves l).mpr ⟨hlt, Period.contains_lower hl⟩)
      exact hsys hvis.2
    · intro hstart v hv
      refine (hdocs v hv).mpr (iff_of_false ?_ fun hvis => hsys hvis.2)
      rintro ⟨-, hlt, l, hl, hlv⟩
      exact hstart ⟨l, hl, hlv.trans_lt (hfrom ▸ hlt)⟩

/-- The row an update for a window leaves says something about an instant of it. -/
def SpeaksWithin (e : Event D T) (old : Row D T) (doc : D) (v : T) : Prop :=
  if old.doc = doc then old.Visible v e.now else ∀ lo ∈ old.valid.lower, lo ≤ v

theorem inside_window_iff (h : step i e = .ok i') (hop : e.op = .update doc)
    (hcur : i.current = some old) (hset : e.settings = ⟨some lo, some hi⟩) :
    (∀ v, lo ≤ v → v < hi → docsSeen active v e.now i ≠ [] →
        docsSeen active v e.now i' = [doc]) ↔
      ∀ v, lo ≤ v → v < hi → historyDocs active v e.now i = [] ∨
        historyDocs active v e.now i = [doc] ∧ ¬ SpeaksWithin e old doc v := by
  have hfrom : e.from_ = lo := by simp [Event.from_, hset]
  refine forall_congr' fun v => forall_congr' fun hlo => forall_congr' fun hhi => ?_
  have hspeaks : SpeaksAt e old doc v ↔ SpeaksWithin e old doc v := by
    by_cases hsame : old.doc = doc
    · simp only [SpeaksAt, SpeaksWithin, if_pos hsame]
    · simp [SpeaksAt, SpeaksWithin, if_neg hsame, hfrom, hset, hlo, hhi]
  have hleaves : ¬ LeavesAt e old doc v := fun hl => not_lt_of_ge (hfrom.trans_le hlo) hl.2.1
  have hperm := docsSeen_update active v h hop hcur
  rw [if_neg hleaves, List.nil_append] at hperm
  rw [← List.perm_singleton, hperm.congr_left, List.perm_singleton, ite_append_eq_singleton,
    hspeaks, docsSeen_eq hcur]
  have hvisible : old.Visible v e.now → SpeaksWithin e old doc v := by
    intro hvis
    by_cases hsame : old.doc = doc
    · rwa [SpeaksWithin, if_pos hsame]
    · rw [SpeaksWithin, if_neg hsame]
      exact fun l hl => Period.lower_le hvis.1 hl
  by_cases hnil : historyDocs active v e.now i = []
  · refine iff_of_true (fun hne => .inl ⟨?_, hnil⟩) (.inl hnil)
    refine hvisible (by_contra fun hvis => hne ?_)
    rw [if_neg hvis, hnil]
    rfl
  · simp [hnil, and_comm]

end Window

end Changes

end OntologicalDb.TemporalReads
