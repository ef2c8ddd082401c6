import OntologicalDb.GuardedRuns
import OntologicalDb.TemporalHistory

/-!
What runs of statements and of transactions on an instance keep: one version at
each pair of instants, and the answers already given about the past.
-/

namespace OntologicalDb.TemporalVersions

open OntologicalDb.ExceptRules
open OntologicalDb.GuardedRuns
open OntologicalDb.TemporalHistory
open OntologicalDb.TimePeriods

variable {D T : Type} [LinearOrder T] [OrderTop T] [DecidableEq D]
  {i i' : Instance D T} {e : Event D T} {es : List (Event D T)} {v s : T}

/-- The instance before it is inserted. -/
def start : Instance D T := ⟨none, []⟩

section Stability

/-- A statement shows nothing new at a system instant before its own. -/
theorem docsSeen_step (h : step i e = .ok i') (hs : s < e.now) :
    (docsSeen true v s i').Perm (docsSeen true v s i) := by
  have hopen (op : HistoryOp) (old : Row D T) :
      openSeen v s (superseded e.now e.from_ op old) = [] := by
    rw [openSeen_superseded e.finite, if_neg fun hv => not_le_of_gt hs hv.1]
  have hclosed (op : HistoryOp) (old : Row D T) :
      (closedSeen true v s (superseded e.now e.from_ op old)).map Prod.snd =
        (currentSeen v s (some old)).map Prod.snd := by
    rw [closedSeen_superseded e.finite]
    by_cases hvis : old.Visible v s
    · simp [currentSeen, hvis, hs]
    · simp [currentSeen, hvis]
  have hnew (doc : D) (valid : Period T) :
      currentSeen v s (some ⟨doc, valid, e.now⟩) = [] :=
    currentSeen_of_lt hs
  have hnone : currentSeen v s (none : Option (Row D T)) = [] := rfl
  cases step_cases h with
  | insert doc valid hop hcur =>
      simp only [docsSeen, seen, hcur, hnew, hnone]
      exact .refl _
  | absent hop hcur => exact .refl _
  | same old hop hcur => exact .refl _
  | update doc old valid hop hcur hne hacc hmake =>
      simp only [docsSeen, seen, openSeen_append, closedSeen_append, hopen, hcur, hnew,
        List.map_append, hclosed, List.append_nil, List.nil_append, ← List.append_assoc]
      rw [List.append_assoc (List.map _ (currentSeen v s (some old)))]
      exact List.perm_append_comm
  | delete old hop hcur hacc =>
      simp only [docsSeen, seen, openSeen_append, closedSeen_append, hopen, hcur, hnone,
        List.map_append, hclosed, List.append_nil, List.nil_append, ← List.append_assoc]
      rw [List.append_assoc (List.map _ (currentSeen v s (some old)))]
      exact List.perm_append_comm

theorem docsSeen_commit {t : Transaction D T} (h : commit i t = .ok i') (hs : s < t.start) :
    (docsSeen true v s i').Perm (docsSeen true v s i) :=
  foldlM_preserves (P := fun j => (docsSeen true v s j).Perm (docsSeen true v s i))
    (fun _ _ _ hb hstep => (docsSeen_step hstep hs).trans hb) h (.refl _)

/-- Believed since an instant, or at least until a later one. -/
def Recorded (r : Row D T) (i : Instance D T) : Prop :=
  i.current = some r ∨ ∃ h ∈ i.history, h.toRow = r ∧ r.sysFrom < h.sysTo ∧ h.sysTo ≠ ⊤

/-- The operation puts an end to what a row says. -/
def Supersedes (op : Op D) (r : Row D T) : Prop :=
  op = .delete ∨ ∃ doc, op = .update doc ∧ doc ≠ r.doc

/-- Whoever changes the row started after whoever wrote it. -/
def StartedLater (_ : List (Transaction D T)) (i : Instance D T) (t : Transaction D T) : Prop :=
  ∀ r ∈ i.current, (∃ st ∈ t.statements, Supersedes st.2 r) → r.sysFrom < t.start

theorem history_subset_step (h : step i e = .ok i') : i.history ⊆ i'.history := by
  cases step_cases h with
  | insert doc valid hop hnone => exact List.Subset.refl _
  | absent hop hnone => exact List.Subset.refl _
  | same old hop hcur => exact List.Subset.refl _
  | update doc old valid hop hcur hne hacc hmake => exact List.subset_append_left _ _
  | delete old hop hcur hacc => exact List.subset_append_left _ _

theorem recorded_step {r : Row D T} (h : step i e = .ok i') (hr : Recorded r i)
    (hlater : Supersedes e.op r → r.sysFrom < e.now) : Recorded r i' := by
  rcases hr with hr | ⟨hist, hmem, hrow⟩
  · have hclosed (op : HistoryOp) (hlt : r.sysFrom < e.now) :
        ∃ h ∈ i.history ++ superseded e.now e.from_ op r,
          h.toRow = r ∧ r.sysFrom < h.sysTo ∧ h.sysTo ≠ ⊤ :=
      ⟨closedRow e.now op r, List.mem_append_right _ (List.mem_cons_self ..), rfl, hlt, e.finite.ne⟩
    cases step_cases h with
    | insert doc valid hop hnone => cases hnone.symm.trans hr
    | absent hop hnone => exact .inl hr
    | same old hop hcur => exact .inl hr
    | update doc old valid hop hcur hne hacc hmake =>
        obtain rfl := Option.some.inj (hcur.symm.trans hr)
        exact .inr (hclosed .u (hlater (.inr ⟨doc, hop, hne.symm⟩)))
    | delete old hop hcur hacc =>
        obtain rfl := Option.some.inj (hcur.symm.trans hr)
        exact .inr (hclosed .d (hlater (.inl hop)))
  · exact .inr ⟨hist, history_subset_step h hmem, hrow⟩

theorem recorded_commit {r : Row D T} {t : Transaction D T} (h : commit i t = .ok i')
    (hr : Recorded r i) (hlater : StartedLater [] i t) : Recorded r i' := by
  rcases hr with hr | ⟨hist, hmem, hrow⟩
  · have hstatements : ∀ sts : List (Settings T × Op D), (∀ st ∈ sts, st ∈ t.statements) →
        ∀ j j', sts.foldlM (fun j st => step j ⟨t.start, t.finite, st.1, st.2⟩) j = .ok j' →
          Recorded r j → Recorded r j' := by
      intro sts
      induction sts with
      | nil =>
          intro _ j j' hj hrec
          obtain rfl := pure_eq_ok.mp hj
          exact hrec
      | cons st sts ih =>
          intro hsub j j' hj hrec
          obtain ⟨k, hk, hrest⟩ := foldlM_cons_eq_ok.mp hj
          refine ih (fun st' hst' => hsub st' (List.mem_cons_of_mem _ hst')) k j' hrest ?_
          exact recorded_step hk hrec fun hsup => hlater r hr ⟨st, hsub st (List.mem_cons_self ..), hsup⟩
    exact hstatements t.statements (fun _ hst => hst) i i' h (.inl hr)
  · have hsub : i.history ⊆ i'.history :=
      foldlM_preserves (P := fun j => i.history ⊆ j.history)
        (fun _ _ _ hb hstep => List.Subset.trans hb (history_subset_step hstep)) h
        (List.Subset.refl _)
    exact .inr ⟨hist, hsub hmem, hrow⟩

omit [DecidableEq D] in
theorem mem_docsSeen_of_recorded {r : Row D T} (h : Recorded r i) (hv : r.valid.Contains v) :
    r.doc ∈ docsSeen true v r.sysFrom i := by
  rcases h with h | ⟨hist, hmem, rfl, hlt, hfin⟩
  · have hvis : r.Visible v r.sysFrom := ⟨hv, le_rfl⟩
    simp [docsSeen, seen, h, currentSeen, hvis]
  · have hvis : hist.Closed true v hist.sysFrom := ⟨rfl, hfin, hv, le_rfl, hlt⟩
    simp only [docsSeen, seen, List.map_append, List.mem_append]
    refine .inr (.inr (List.mem_map.mpr ⟨(.closed, hist.doc), ?_, rfl⟩))
    exact List.mem_map.mpr ⟨hist, List.mem_filter.mpr ⟨hmem, decide_eq_true hvis⟩, rfl⟩

theorem docsSeen_run {P : List (Transaction D T) → Instance D T → Transaction D T → Prop}
    {ts : List (Transaction D T)} (run : Run commit P i ts i') (hs : ∀ t ∈ ts, s < t.start) :
    (docsSeen true v s i').Perm (docsSeen true v s i) := by
  induction run with
  | nil => exact .refl _
  | @snoc ts t j j' run guard hcommit ih =>
      have hstep := docsSeen_commit (v := v) hcommit (hs t (by simp))
      exact hstep.trans (ih fun t' ht' => hs t' (List.mem_append_left _ ht'))

def unset : Settings Timestamptz := ⟨none, none⟩

/-- A transaction of one statement on a row whose only column is a number. -/
def writing (start : Int) (op : Op Nat) : Transaction Nat Timestamptz :=
  ⟨.at_ start, Timestamptz.at_lt_top start, [(unset, op)]⟩

theorem ten_lt_top : ∀ u ∈ (some ⊤ : Option Timestamptz), Timestamptz.at_ 10 < u := by
  simp [Timestamptz.at_lt_top]

/-- A row inserted by a transaction that started at 10. -/
def sinceTen : Row Nat Timestamptz := ⟨2, .span (.at_ 10) (some ⊤) ten_lt_top, .at_ 10⟩

/-- The instance after a transaction that started at some instant changes that row. -/
def changedAt (n : Int) : Instance Nat Timestamptz :=
  ⟨some ⟨3, .span (max (.at_ n) (.at_ 10)) (some ⊤) (by simp [Timestamptz.at_lt_top]), .at_ n⟩,
    superseded (.at_ n) (.at_ n) .u sinceTen⟩

end Stability

section OneVersion

/-- Transactions one after the other; the statements of one share its start. -/
def Serial (es : List (Event D T)) (e : Event D T) : Prop := ∀ e' ∈ es, e'.now ≤ e.now

def InsertedOnce (es : List (Event D T)) (e : Event D T) : Prop :=
  ∀ doc, e.op = .insert doc → ∀ e' ∈ es, ∀ doc', e'.op ≠ .insert doc'

/-- A row that is valid at no instant becomes valid after every slice still believed. -/
def ResumesLater (i : Instance D T) (e : Event D T) : Prop :=
  ∀ old ∈ i.current, old.valid = .empty → ∀ doc, e.op = .update doc → doc ≠ old.doc →
    ∀ h ∈ i.history, h.sysTo = ⊤ → ∀ v, h.valid.Contains v → v < e.from_

/-- The slices still believed share no instant and lie before the row. -/
structure Ordered (i : Instance D T) : Prop where
  slices : i.history.Pairwise fun h h' =>
    h.sysTo = ⊤ → h'.sysTo = ⊤ → ∀ v, h.valid.Contains v → ¬ h'.valid.Contains v
  row : ∀ r ∈ i.current, ∀ lo ∈ r.valid.lower, ∀ h ∈ i.history, h.sysTo = ⊤ →
    ∀ v, h.valid.Contains v → v < lo

structure StampedBy (t : T) (i : Instance D T) : Prop where
  row : ∀ r ∈ i.current, r.sysFrom ≤ t
  history : ∀ h ∈ i.history, h.sysFrom ≤ t ∧ (h.sysTo = ⊤ ∨ h.sysTo ≤ t)

section Supersede

variable {now x t : T} {op : HistoryOp} {old : Row D T} {history : List (HistoryRow D T)}

omit [DecidableEq D] in
theorem contains_of_mem_superseded {h : HistoryRow D T} (hnow : now < ⊤)
    (hmem : h ∈ superseded now x op old) (hopen : h.sysTo = ⊤) :
    ∃ lo, old.valid.lower = some lo ∧ ∀ v, h.valid.Contains v ↔ lo ≤ v ∧ v < x := by
  rcases mem_superseded.mp hmem with rfl | ⟨p, hp, rfl⟩
  · exact absurd hopen hnow.ne
  · obtain ⟨lo, hlo, -, hcontains⟩ := remainder_eq_some hp
    exact ⟨lo, hlo, hcontains⟩

omit [DecidableEq D] in
theorem slices_superseded (hord : Ordered ⟨some old, history⟩) (hnow : now < ⊤) :
    (history ++ superseded now x op old).Pairwise fun h h' =>
      h.sysTo = ⊤ → h'.sysTo = ⊤ → ∀ v, h.valid.Contains v → ¬ h'.valid.Contains v := by
  refine List.pairwise_append.mpr ⟨hord.slices, ?_, ?_⟩
  · refine List.pairwise_cons.mpr ⟨fun h hh htop => absurd htop hnow.ne, ?_⟩
    cases remainder old.valid x <;> simp
  · intro h hh h' hh' htop htop' v hv hv'
    obtain ⟨lo, hlo, hcontains⟩ := contains_of_mem_superseded hnow hh' htop'
    exact not_lt_of_ge ((hcontains v).mp hv').1 (hord.row old rfl lo hlo h hh htop v hv)

omit [DecidableEq D] in
theorem history_superseded (hst : StampedBy t ⟨some old, history⟩) (hnow : now ≤ t) :
    ∀ h ∈ history ++ superseded now x op old, h.sysFrom ≤ t ∧ (h.sysTo = ⊤ ∨ h.sysTo ≤ t) := by
  intro h hh
  rcases List.mem_append.mp hh with hh | hh
  · exact hst.history h hh
  · rcases mem_superseded.mp hh with rfl | ⟨p, hp, rfl⟩
    · exact ⟨hst.row old rfl, .inr hnow⟩
    · exact ⟨hnow, .inl rfl⟩

end Supersede

theorem ordered_step (h : step i e = .ok i') (hord : Ordered i)
    (hfirst : ∀ doc, e.op = .insert doc → i.history = []) (hresumes : ResumesLater i e) :
    Ordered i' := by
  cases step_cases h with
  | insert doc valid hop hnone =>
      have hnil := hfirst doc hop
      exact ⟨hord.slices, by simp [hnil]⟩
  | absent hop hnone => exact hord
  | same old hop hcur => exact hord
  | update doc old valid hop hcur hne hacc hmake =>
      obtain ⟨current, history⟩ := i
      obtain rfl : current = some old := hcur
      refine ⟨slices_superseded hord e.finite, ?_⟩
      rintro r ⟨⟩ lo hlo hist hmem htop v hv
      have hlo' : lo = greatest e.from_ old.valid.lower := Period.lower_make hmake lo hlo
      rcases List.mem_append.mp hmem with hmem | hmem
      · cases hlower : old.valid.lower with
        | none =>
            have hempty := Period.lower_eq_none hlower
            have hlt := hresumes old rfl hempty doc hop hne.symm hist hmem htop v hv
            rwa [hlo', hlower]
        | some l =>
            rw [hlo', hlower]
            exact lt_max_of_lt_right (hord.row old rfl l hlower hist hmem htop v hv)
      · obtain ⟨l, hlower, hcontains⟩ := contains_of_mem_superseded e.finite hmem htop
        rw [hlo', hlower]
        exact lt_max_of_lt_left ((hcontains v).mp hv).2
  | delete old hop hcur hacc =>
      obtain ⟨current, history⟩ := i
      obtain rfl : current = some old := hcur
      exact ⟨slices_superseded hord e.finite, by simp⟩

theorem stampedBy_step {t : T} (h : step i e = .ok i') (hst : StampedBy t i) (hnow : e.now ≤ t) :
    StampedBy t i' := by
  cases step_cases h with
  | insert doc valid hop hnone => exact ⟨by simp [hnow], hst.history⟩
  | absent hop hnone => exact hst
  | same old hop hcur => exact hst
  | update doc old valid hop hcur hne hacc hmake =>
      obtain ⟨current, history⟩ := i
      obtain rfl : current = some old := hcur
      exact ⟨by simp [hnow], history_superseded hst hnow⟩
  | delete old hop hcur hacc =>
      obtain ⟨current, history⟩ := i
      obtain rfl : current = some old := hcur
      exact ⟨by simp, history_superseded hst hnow⟩

theorem length_filter_le_one {α : Type} {p : α → Prop} [DecidablePred p] {l : List α}
    (h : l.Pairwise fun a b => p a → ¬ p b) : (l.filter fun a => p a).length ≤ 1 := by
  have hpair : (l.filter fun a => p a).Pairwise fun _ _ => False := by
    refine List.pairwise_filter.mpr (h.imp fun hab ha hb => ?_)
    exact hab (of_decide_eq_true ha) (of_decide_eq_true hb)
  cases hl : l.filter fun a => p a with
  | nil => exact Nat.zero_le 1
  | cons a rest =>
      cases rest with
      | nil => exact le_rfl
      | cons b rest =>
          rw [hl] at hpair
          exact ((List.pairwise_cons.mp hpair).1 b (List.mem_cons_self ..)).elim

omit [DecidableEq D] in
/-- From the last stamp on, an ordered instance shows at most one version. -/
theorem length_seen_le_one {t : T} (hord : Ordered i) (hst : StampedBy t i) (hs : t ≤ s) :
    (seen true v s i).length ≤ 1 := by
  have hclosed : closedSeen true v s i.history = [] := by
    refine closedSeen_eq_nil.mpr fun h hh hvis => ?_
    obtain ⟨-, htop, -, -, hlt⟩ := hvis
    rcases (hst.history h hh).2 with hto | hto
    · exact htop hto
    · exact not_lt_of_ge (hto.trans hs) hlt
  have hopen : (openSeen v s i.history).length ≤ 1 := by
    refine (List.length_map _).trans_le (length_filter_le_one (hord.slices.imp ?_))
    intro a b hab ha hb
    exact hab ha.1 hb.1 v ha.2.1 hb.2.1
  rw [seen, hclosed, List.append_nil, List.length_append]
  by_cases hcur : ∃ r ∈ i.current, r.Visible v s
  · obtain ⟨r, hr, hvis⟩ := hcur
    have hnone : openSeen v s i.history = [] := by
      refine openSeen_eq_nil.mpr fun h hh hopen => ?_
      obtain ⟨htop, hv, -⟩ := hopen
      cases hlo : r.valid.lower with
      | none =>
          have hempty := hvis.1
          rw [Period.lower_eq_none hlo] at hempty
          exact Period.not_contains_empty v hempty
      | some lo =>
          have hlt := hord.row r hr lo hlo h hh htop v hv
          exact not_lt_of_ge (Period.lower_le hvis.1 hlo) hlt
    have hone : (currentSeen v s i.current).length ≤ 1 := by
      rw [Option.mem_def.mp hr]
      simp [currentSeen, hvis]
    rwa [hnone]
  · have hzero : currentSeen v s i.current = [] := by
      refine List.map_eq_nil_iff.mpr (List.filter_eq_nil_iff.mpr fun r hr hvis => hcur ?_)
      exact ⟨r, Option.mem_toList.mp hr, of_decide_eq_true hvis⟩
    rw [hzero]
    simpa using hopen

/-- One statement after the other on an instance inserted at most once. -/
def Orderly (es : List (Event D T)) (i : Instance D T) (e : Event D T) : Prop :=
  Serial es e ∧ InsertedOnce es e ∧ ResumesLater i e

theorem one_version_step (h : step i e = .ok i')
    (hord : Ordered i') (hst : StampedBy e.now i')
    (hone : ∀ v s, (docsSeen true v s i).length ≤ 1) :
    (docsSeen true v s i').length ≤ 1 := by
  rcases lt_or_ge s e.now with hs | hs
  · rw [(docsSeen_step h hs).length_eq]
    exact hone v s
  · exact (List.length_map _).trans_le (length_seen_le_one hord hst hs)

/-- What the statements of an instance keep, whatever its documents are. -/
structure Sound (es : List (Event D T)) (i : Instance D T) : Prop where
  fresh : (∀ e ∈ es, ∀ doc, e.op ≠ .insert doc) → i = start
  ordered : Ordered i
  stamped : ∀ t, (∀ e ∈ es, e.now ≤ t) → StampedBy t i
  one : ∀ v s, (docsSeen true v s i).length ≤ 1

omit [DecidableEq D] in
theorem sound_start : Sound [] (start : Instance D T) :=
  ⟨fun _ => rfl, ⟨.nil, by simp [start]⟩, fun _ _ => ⟨by simp [start], by simp [start]⟩,
    fun _ _ => Nat.zero_le 1⟩

theorem Sound.step (h : Sound es i) (guard : Orderly es i e) (hstep : step i e = .ok i') :
    Sound (es ++ [e]) i' := by
  have hord' : Ordered i' :=
    ordered_step hstep h.ordered (fun doc hop => by rw [h.fresh (guard.2.1 doc hop)]; rfl) guard.2.2
  have hst' : ∀ t, (∀ e' ∈ es ++ [e], e'.now ≤ t) → StampedBy t i' := fun t ht =>
    stampedBy_step hstep (h.stamped t fun e' he' => ht e' (List.mem_append_left _ he'))
      (ht e (by simp))
  refine ⟨fun hno => ?_, hord', hst', fun v s => ?_⟩
  · have hi := h.fresh fun e' he' => hno e' (List.mem_append_left _ he')
    subst hi
    cases step_cases hstep with
    | insert doc valid hop hnone => exact absurd hop (hno e (by simp) doc)
    | absent hop hnone => rfl
    | same old hop hcur => cases hcur
    | update doc old valid hop hcur hne hacc hmake => cases hcur
    | delete old hop hcur hacc => cases hcur
  · refine one_version_step hstep hord' (hst' e.now fun e' he' => ?_) h.one
    rcases List.mem_append.mp he' with he' | he'
    · exact guard.1 e' he'
    · exact (congrArg Event.now (List.mem_singleton.mp he')).le

theorem one_version (run : Run step Orderly start es i) (active : Bool) (v s : T) :
    (seen active v s i).length ≤ 1 := by
  have hsound : Sound es i :=
    run.invariant sound_start fun _ _ _ _ hsound guard hstep => hsound.step guard hstep
  have hall := hsound.one v s
  cases active with
  | true => simpa [docsSeen] using hall
  | false =>
      refine le_trans ?_ ((List.length_map _).symm.trans_le hall)
      simp [seen, closedSeen, HistoryRow.Closed]

def stating (now : Int) (settings : Settings Timestamptz) (op : Op Nat) : Event Nat Timestamptz :=
  ⟨.at_ now, Timestamptz.at_lt_top now, settings, op⟩

def sinceOne : Row Nat Timestamptz :=
  ⟨1, .span (.at_ 1) (some ⊤) (by simp [Timestamptz.at_lt_top]), .at_ 1⟩

theorem one_version_insert_update :
    (seen true (.at_ 1) (.at_ 3)
      (⟨some ⟨2, .span (max (.at_ 2) (.at_ 1)) (some ⊤) (by simp [Timestamptz.at_lt_top]), .at_ 2⟩,
        superseded (.at_ 2) (.at_ 2) .u sinceOne⟩ : Instance Nat Timestamptz)).length ≤ 1 := by
  have hinsert : Run step Orderly start [stating 1 unset (.insert 1)]
      (⟨some sinceOne, []⟩ : Instance Nat Timestamptz) :=
    .single ⟨by rintro e' ⟨⟩, by rintro doc hop e' ⟨⟩, by rintro old ⟨⟩⟩ rfl
  refine one_version (.snoc (e := stating 2 unset (.update 2)) hinsert ⟨?_, ?_, ?_⟩ rfl) true _ _
  · rintro e' he'
    obtain rfl := List.mem_singleton.mp he'
    decide
  · rintro doc ⟨⟩
  · rintro old ⟨⟩ hempty
    cases hempty

/-- A version that is valid at no instant is followed by one that overlaps a slice. -/
theorem not_one_version :
    ¬ ∀ (es : List (Event Nat Timestamptz)) (i : Instance Nat Timestamptz),
      Run step (fun es _ e => (∀ e' ∈ es, e'.now < e.now) ∧ InsertedOnce es e) start es i →
        ∀ active v s, (seen active v s i).length ≤ 1 := by
  intro h
  have hinsert : Run step (fun es _ e => (∀ e' ∈ es, e'.now < e.now) ∧ InsertedOnce es e) start
      [stating 1 unset (.insert 1)] (⟨some sinceOne, []⟩ : Instance Nat Timestamptz) :=
    .single ⟨by rintro e' ⟨⟩, by rintro doc hop e' ⟨⟩⟩ rfl
  have hempty := hinsert.snoc (e := stating 2 ⟨some (.at_ 5), some (.at_ 5)⟩ (.update 2))
    ⟨fun e' he' => by obtain rfl := List.mem_singleton.mp he'; decide, by rintro doc ⟨⟩⟩ rfl
  have hagain := hempty.snoc (e := stating 3 unset (.update 3))
    ⟨fun e' he' => by
      rcases List.mem_append.mp he' with he' | he' <;>
        obtain rfl := List.mem_singleton.mp he' <;> decide, by rintro doc ⟨⟩⟩ rfl
  exact absurd (h _ _ hagain true (.at_ 4) (.at_ 4)) (by decide)

end OneVersion

end OntologicalDb.TemporalVersions
