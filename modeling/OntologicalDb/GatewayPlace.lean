import OntologicalDb.GatewayInvariant

/-!
When the gateway keeps its place in a session, and what becomes of a session in
which it has lost it.
-/

namespace OntologicalDb.GatewayPlace

open OntologicalDb.GatewayInvariant
open OntologicalDb.GatewaySession

section Place

variable {T : Texts} {w w' : World}

/-- A question that has been put is in the line of a server that will take it, at the
server, or answered. -/
theorem question_in_flight (h : Inv T w) {a : Asked} (hup : w.up = .answer a)
    (hopen : w.st.closed = false) (hnone : w.st.answer = none) :
    (w.skipping = false ∧ (.own w.asked, questionMsg T a) ∈ w.toServer) ∨
      w.task = some ⟨.own w.asked, true⟩ ∨
      ∃ z ∈ ofOrigin (.own w.asked) w.fromServer, z.tag = 'Z' := by
  cases h.phase with
  | lost hc => exact absurd hc (by simp [hopen])
  | away h₁ => exact absurd ⟨a, .inr hup⟩ h₁
  | about h₁ => cases hup.symm.trans h₁
  | queued h₁ h₂ h₃ h₄ h₅ =>
      obtain rfl := Up.answer.inj (hup.symm.trans h₁)
      refine .inl ⟨(h.still ⟨a, .inr hup⟩).1, ?_⟩
      rw [h₅]
      exact List.mem_append_right _ List.mem_cons_self
  | served _ _ _ _ h₅ => exact .inr (.inl h₅)
  | @replied b l rest z _ _ _ _ _ _ _ h₈ _ h₁₀ =>
      refine .inr (.inr ⟨z, ?_, h₁₀⟩)
      rw [h₈]
      exact List.mem_append_right _ (List.mem_singleton_self z)
  | held _ _ h₃ => cases hnone.symm.trans h₃

theorem ofOrigin_own_eq_nil {n : Nat} {l : List (Origin × Msg)} (h : ∀ x ∈ l, x.1 = .client) :
    ofOrigin (.own n) l = [] :=
  ofOrigin_eq_nil fun x hx heq => by
    rw [h x hx] at heq
    cases heq

/-- What is kept while the gateway asks is what the server has said to the question. -/
theorem captured_eq (h : Inv T w) (hopen : w.st.closed = false)
    (hasking : w.st.asking = true) :
    w.st.captured ++ ofOrigin (.own w.asked) w.fromServer = ofOrigin (.own w.asked) w.emitted := by
  cases h.phase with
  | lost hc => exact absurd hc (by simp [hopen])
  | away _ h₂ => exact absurd h₂ (by simp [hasking])
  | about _ _ h₃ _ h₅ h₆ => rw [h₃, h₆, ofOrigin_own_eq_nil h₅.2, List.nil_append]
  | queued _ _ h₃ _ _ _ h₇ _ h₉ => rw [h₃, h₉, ofOrigin_own_eq_nil h₇, List.nil_append]
  | served _ _ _ _ _ _ h₇ => exact h₇
  | replied _ _ _ _ _ _ h₇ h₈ h₉ => rw [h₇, h₈, h₉]
  | held _ h₂ => exact absurd h₂ (by simp [hasking])

theorem captured_eq_nil (h : Inv T w) (hopen : w.st.closed = false)
    (hasking : w.st.asking = false) : w.st.captured = [] := by
  cases h.phase with
  | lost hc => exact absurd hc (by simp [hopen])
  | away _ _ h₃ => exact h₃
  | about _ h₂ => exact absurd h₂ (by simp [hasking])
  | queued _ h₂ => exact absurd h₂ (by simp [hasking])
  | served _ h₂ => exact absurd h₂ (by simp [hasking])
  | replied _ h₂ => exact absurd h₂ (by simp [hasking])
  | held _ _ _ h₄ => exact h₄

theorem answer_eq (h : Inv T w) {l : List Msg} (hopen : w.st.closed = false)
    (hl : w.st.answer = some l) : l = ofOrigin (.own w.asked) w.emitted := by
  cases h.phase with
  | lost hc => exact absurd hc (by simp [hopen])
  | away _ _ _ h₄ => cases h₄.symm.trans hl
  | about _ _ _ h₄ => cases h₄.symm.trans hl
  | queued _ _ _ h₄ => cases h₄.symm.trans hl
  | served _ _ h₃ => cases h₃.symm.trans hl
  | replied _ _ h₃ => cases h₃.symm.trans hl
  | held _ _ h₃ _ _ h₆ => exact (Option.some.inj (hl.symm.trans h₃)).trans h₆

/-- The gateway knows its place exactly as long as the server has discarded no
counted request of the client's. -/
theorem inPlace_iff (h : Reachable T w) : InPlace T w ↔ w.dropped = 0 := by
  have hinv := inv_of_reachable h
  have hcount := hinv.count
  constructor
  · intro hplace
    have hawaiting := hplace.awaiting
    omega
  · intro hzero
    exact ⟨by omega, captured_eq hinv, captured_eq_nil hinv, fun l => answer_eq hinv,
      hinv.relayed, fun a _ _ => by omega, fun a => question_in_flight hinv⟩

end Place

section Hang

variable {T : Texts} {w w' : World}

theorem dropped_mono (h : Step T w w') : w.dropped ≤ w'.dropped := by
  cases h with
  | @serve x rest _ _ =>
      unfold World.serve
      split_ifs
      · exact Nat.le_succ _
      · exact Nat.le_refl _
      · exact Nat.le_refl _
      · exact Nat.le_refl _
      · exact Nat.le_refl _
      · exact Nat.le_refl _
  | _ => exact Nat.le_refl _

/-- Once a request was discarded, a thread that waits to ask waits for good. -/
theorem waits_for_good (h : Reachable T w) {a : Asked} (hup : w.up = .idle a)
    (hdropped : 0 < w.dropped) (hsteps : Relation.ReflTransGen (Step T) w w') :
    w'.up = .idle a ∨ w'.up = .ended := by
  have hrun : Reachable T w' ∧ 0 < w'.dropped ∧ (w'.up = .idle a ∨ w'.up = .ended) := by
    induction hsteps with
    | refl => exact ⟨h, hdropped, .inl hup⟩
    | @tail u v _ hstep ih =>
        obtain ⟨hu, hpos, hwaits⟩ := ih
        refine ⟨hu.step hstep, Nat.lt_of_lt_of_le hpos (dropped_mono hstep), ?_⟩
        have hcount := (inv_of_reachable hu).count
        have hwait (b : Up) (hb : u.up = b) (hne : b ≠ .idle a) (hne' : b ≠ .ended) : False := by
          rcases hwaits with hw | hw
          · exact hne (hb.symm.trans hw)
          · exact hne' (hb.symm.trans hw)
        cases hstep with
        | read m hb => exact (hwait _ hb (by simp) (by simp)).elim
        | count hb => exact (hwait _ hb (by simp) (by simp)).elim
        | write hb => exact (hwait _ hb (by simp) (by simp)).elim
        | leave hb => exact (hwait _ hb (by simp) (by simp)).elim
        | idle hb hzero _ => omega
        | question hb => exact (hwait _ hb (by simp) (by simp)).elim
        | resume hb _ => exact (hwait _ hb (by simp) (by simp)).elim
        | refuse hb => exact (hwait _ hb (by simp) (by simp)).elim
        | quit _ _ => exact .inr rfl
        | receive _ _ _ => exact hwaits
        | deliver _ _ => exact hwaits
        | close => exact hwaits
        | serve _ _ =>
            unfold World.serve
            split_ifs <;> exact hwaits
        | feed _ _ _ _ => exact hwaits
        | emit m _ _ => exact hwaits
        | ready status _ => exact hwaits
        | finish failed _ => exact hwaits
  exact hrun.2.2

end Hang

section Sessions

/-- Texts of which `M` alone is a fabric statement. -/
def letterTexts : Texts where
  isFabric sql := sql = [77]
  validUtf8 _ := true
  lossy := id
  dq := id

theorem started : ∃ w, Reachable letterTexts w ∧
    w = { World.start with
      st := ⟨0, false, none, [], false⟩
      task := none
      toClient := [(true, ⟨'Z', [73]⟩)]
      emitted := [(.client, ⟨'Z', [73]⟩)] } := by
  refine ⟨_, ?_, rfl⟩
  have h₁ := Reachable.start.step (Step.ready (T := letterTexts) [73] rfl)
  have h₂ := h₁.step (.receive rfl rfl rfl)
  exact h₂.step (.deliver rfl rfl)

/-- While the gateway asks for a translation, the row it has received is kept. -/
theorem inPlace_asking : ∃ w, Reachable letterTexts w ∧ w.st.captured = [⟨'D', [0, 1]⟩] ∧
    InPlace letterTexts w := by
  obtain ⟨w, h₀, rfl⟩ := started
  have h₁ := h₀.step (.read ⟨'Q', [77, 0]⟩ rfl)
  have h₂ := h₁.step (.idle rfl rfl rfl)
  have h₃ := h₂.step (.question rfl)
  have h₄ := h₃.step (.serve rfl rfl)
  have h₅ := h₄.step (.emit ⟨'D', [0, 1]⟩ (by decide) (.inr rfl))
  have h₆ := h₅.step (.receive rfl rfl rfl)
  exact ⟨_, h₆, rfl, (inPlace_iff h₆).mpr rfl⟩

/-- A prepared statement fails, a simple query follows before the `Sync` and is
discarded, and the next fabric statement waits for its `ReadyForQuery`. -/
theorem gateway_loses_place : ∃ w, Reachable letterTexts w ∧ w.up = .idle (.query [77]) ∧
    w.st.awaiting = 1 ∧ w.st.closed = false ∧ w.toServer = [] ∧ w.task = none ∧
    w.fromServer = [] ∧ w.down = none ∧ ¬ InPlace letterTexts w ∧
    ∀ w', Relation.ReflTransGen (Step letterTexts) w w' →
      w'.up = .idle (.query [77]) ∨ w'.up = .ended := by
  obtain ⟨w, h₀, rfl⟩ := started
  -- the statement fails
  have h₁ := h₀.step (.read ⟨'P', [0, 120, 0, 0, 0]⟩ rfl)
  have h₂ := h₁.step (.write rfl)
  have h₃ := h₂.step (.serve rfl rfl)
  have h₄ := h₃.step (.emit ⟨'E', [0]⟩ (by decide) (.inr rfl))
  have h₅ := h₄.step (.finish true rfl)
  have h₆ := h₅.step (.receive rfl rfl rfl)
  have h₇ := h₆.step (.deliver rfl rfl)
  -- the simple query is counted and discarded
  have h₈ := h₇.step (.read ⟨'Q', [120, 0]⟩ rfl)
  have h₉ := h₈.step (.count rfl)
  have h₁₀ := h₉.step (.write rfl)
  have h₁₁ := h₁₀.step (.serve rfl rfl)
  -- the `Sync` is answered
  have h₁₂ := h₁₁.step (.read ⟨'S', []⟩ rfl)
  have h₁₃ := h₁₂.step (.count rfl)
  have h₁₄ := h₁₃.step (.write rfl)
  have h₁₅ := h₁₄.step (.serve rfl rfl)
  have h₁₆ := h₁₅.step (.ready [73] rfl)
  have h₁₇ := h₁₆.step (.receive rfl rfl rfl)
  have h₁₈ := h₁₇.step (.deliver rfl rfl)
  have h₁₉ := h₁₈.step (.read ⟨'Q', [77, 0]⟩ rfl)
  refine ⟨_, h₁₉, rfl, rfl, rfl, rfl, rfl, rfl, rfl, fun hplace => ?_, fun w' hsteps => ?_⟩
  · have hawaiting := hplace.awaiting
    cases hawaiting
  · exact waits_for_good h₁₉ rfl (by decide) hsteps

end Sessions

end OntologicalDb.GatewayPlace
