import Mathlib.Tactic.Tauto
import OntologicalDb.GatewaySession

/-!
What every interleaving of a gateway session keeps, and when the gateway loses
its place.
-/

namespace OntologicalDb.GatewayInvariant

open OntologicalDb.GatewaySession

section Settled

universe u

variable {α : Type u} {p q : α → Prop} {u u' : Prop}

/-- Each element of one kind is followed by one of the other, or that is still to
come. -/
def Settled (p q : α → Prop) (u : Prop) : List α → Prop
  | [] => True
  | x :: xs => (p x → u ∨ ∃ y ∈ xs, q y) ∧ Settled p q u xs

theorem Settled.mono {l : List α} (h : Settled p q u l) (hu : u → u') : Settled p q u' l := by
  induction l with
  | nil => trivial
  | cons x xs ih => exact ⟨fun hp => (h.1 hp).imp_left hu, ih h.2⟩

theorem Settled.append {l : List α} {y : α} (h : Settled p q u l) (hu : u → u' ∨ q y)
    (hy : p y → u') : Settled p q u' (l ++ [y]) := by
  induction l with
  | nil => exact ⟨fun hp => .inl (hy hp), trivial⟩
  | cons x xs ih =>
      refine ⟨fun hp => ?_, ih h.2⟩
      rcases h.1 hp with hold | ⟨z, hz, hq⟩
      · rcases hu hold with hnew | hq
        · exact .inl hnew
        · exact .inr ⟨y, List.mem_append_right _ (List.mem_singleton_self y), hq⟩
      · exact .inr ⟨z, List.mem_append_left _ hz, hq⟩

theorem Settled.not_mem {l : List α} (h : Settled p q u l) (hu : ¬ u) (hq : ∀ y ∈ l, ¬ q y) :
    ∀ x ∈ l, ¬ p x := by
  induction l with
  | nil => simp
  | cons x xs ih =>
      have htail := ih h.2 fun y hy => hq y (List.mem_cons_of_mem _ hy)
      intro y hy
      rcases List.mem_cons.mp hy with rfl | hy
      · intro hp
        rcases h.1 hp with hnow | ⟨z, hz, hqz⟩
        · exact hu hnow
        · exact hq z (List.mem_cons_of_mem _ hz) hqz
      · exact htail y hy

end Settled

section Threads

variable (T : Texts)

/-- What reading a message leads to: a counted request, a question between two
batches, part of a batch, or any other message. -/
theorem dispatch_cases (unsynced : Bool) (m : Msg) :
    (∃ m', (dispatch T unsynced m).1 = .counting m' ∧ isRequest m' = true ∧ isBatch m' = false ∧
      (m'.tag = 'S' ∨ (dispatch T unsynced m).2 = unsynced)) ∨
    (∃ a, dispatch T unsynced m = (.idle a, false) ∧ unsynced = false) ∨
    (∃ m', (dispatch T unsynced m).1 = .writing m' ∧ isRequest m' = false ∧
      ((dispatch T unsynced m).2 = true ∨
        isBatch m' = false ∧ (dispatch T unsynced m).2 = unsynced)) ∨
    (dispatch T unsynced m = (.leaving m, unsynced) ∧ m.tag = 'X') := by
  unfold dispatch
  split
  · next htag =>
    dsimp only
    split_ifs with hfabric hun
    · exact .inl ⟨_, rfl, rfl, rfl, .inr rfl⟩
    · obtain rfl : unsynced = false := by simpa using hun
      exact .inr (.inl ⟨_, rfl, rfl⟩)
    · exact .inl ⟨m, rfl, by simp [isRequest, htag], by simp [isBatch, htag], .inr rfl⟩
  · next htag =>
    dsimp only
    split_ifs with hfabric hun
    · exact .inr (.inr (.inl ⟨_, rfl, rfl, .inl rfl⟩))
    · obtain rfl : unsynced = false := by simpa using hun
      exact .inr (.inl ⟨_, rfl, rfl⟩)
    · exact .inr (.inr (.inl ⟨m, rfl, by simp [isRequest, htag], .inl rfl⟩))
  · next htag =>
    exact .inl ⟨m, rfl, by simp [isRequest, htag], by simp [isBatch, htag], .inl htag⟩
  · next htag =>
    exact .inl ⟨m, rfl, by simp [isRequest, htag], by simp [isBatch, htag], .inr rfl⟩
  · next htag => exact .inr (.inr (.inr ⟨rfl, htag⟩))
  all_goals first
    | next htag => exact .inr (.inr (.inl ⟨m, rfl, by simp [isRequest, htag], .inl rfl⟩))
    | next hQ hP hS hF hX hB hE hD hC hH =>
      refine .inr (.inr (.inl ⟨m, rfl, ?_, .inr ⟨?_, rfl⟩⟩))
      · simpa [isRequest] using ⟨hQ, hS, hF⟩
      · simpa [isBatch] using ⟨hP, hB, hE, hD, hC, hH⟩

theorem resume_cases (a : Asked) (l : List Msg) :
    (∃ m, resume T a l = (.counting m, false) ∧ isRequest m = true ∧ isBatch m = false) ∨
    (∃ m, resume T a l = (.writing m, true) ∧ isRequest m = false) ∨
    (∃ err status, resume T a l = (.refusing err status, false)) ∨
    resume T a l = (.ended, false) := by
  unfold resume
  split
  · exact .inr (.inr (.inr rfl))
  · exact .inl ⟨_, rfl, rfl, rfl⟩
  · exact .inr (.inr (.inl ⟨_, _, rfl⟩))
  · exact .inr (.inl ⟨_, rfl, rfl⟩)
  · exact .inr (.inl ⟨_, rfl, rfl⟩)

end Threads

/-- The message the client-to-server thread has in hand. -/
def pending : Up → List (Origin × Msg)
  | .counting m | .writing m | .leaving m => [(.client, m)]
  | _ => []

/-- All that is on its way to the server. -/
def line (w : World) : List (Origin × Msg) := w.toServer ++ pending w.up

/-- A `Sync` is on its way, or the batch is still open. -/
def SyncAhead (w : World) : Prop := w.unsynced = true ∨ ∃ x ∈ line w, x.2.tag = 'S'

/-- The thread has put a question, or is about to. -/
def Asks (up : Up) : Prop := ∃ a, up = .question a ∨ up = .answer a

theorem not_asks {up : Up} (hq : ∀ a, up ≠ .question a) (ha : ∀ a, up ≠ .answer a) : ¬ Asks up := by
  rintro ⟨a, h | h⟩
  · exact hq a h
  · exact ha a h

/-- Nothing in flight belongs to a question. -/
structure Alone (w : World) : Prop where
  toServer : ∀ x ∈ w.toServer, x.1 = .client
  fromServer : ∀ x ∈ w.fromServer, x.1 = .client
  task : ∀ t, w.task = some t → t.origin = .client

/-- The stages of a question. -/
inductive Phase (T : Texts) (w : World) : Prop
  | lost : w.st.closed = true → Phase T w
  | away : ¬ Asks w.up → w.st.asking = false → w.st.captured = [] → w.st.answer = none →
      Alone w → Phase T w
  | about {a : Asked} : w.up = .question a → w.st.asking = true → w.st.captured = [] →
      w.st.answer = none → Alone w → ofOrigin (.own w.asked) w.emitted = [] → Phase T w
  | queued {a : Asked} {pre post : List (Origin × Msg)} : w.up = .answer a →
      w.st.asking = true → w.st.captured = [] → w.st.answer = none →
      w.toServer = pre ++ (.own w.asked, questionMsg T a) :: post →
      (∀ x ∈ pre ++ post, x.1 = .client) → (∀ x ∈ w.fromServer, x.1 = .client) →
      (∀ t, w.task = some t → t.origin = .client) → ofOrigin (.own w.asked) w.emitted = [] →
      Phase T w
  | served {a : Asked} : w.up = .answer a → w.st.asking = true → w.st.answer = none →
      (∀ x ∈ w.toServer, x.1 = .client) → w.task = some ⟨.own w.asked, true⟩ →
      (∀ x ∈ w.fromServer, x.1 = .client ∨ x.1 = .own w.asked) →
      w.st.captured ++ ofOrigin (.own w.asked) w.fromServer =
        ofOrigin (.own w.asked) w.emitted →
      (∀ m ∈ ofOrigin (.own w.asked) w.emitted, m.tag ≠ 'Z') → Phase T w
  | replied {a : Asked} {l rest : List Msg} {z : Msg} : w.up = .answer a →
      w.st.asking = true → w.st.answer = none →
      (∀ x ∈ w.toServer, x.1 = .client) → (∀ t, w.task = some t → t.origin = .client) →
      (∀ x ∈ w.fromServer, x.1 = .client ∨ x.1 = .own w.asked) →
      w.st.captured = l → ofOrigin (.own w.asked) w.fromServer = rest ++ [z] →
      ofOrigin (.own w.asked) w.emitted = l ++ (rest ++ [z]) →
      z.tag = 'Z' → (∀ m ∈ rest, m.tag ≠ 'Z') → Phase T w
  | held {a : Asked} {l : List Msg} : w.up = .answer a → w.st.asking = false →
      w.st.answer = some l → w.st.captured = [] → Alone w →
      l = ofOrigin (.own w.asked) w.emitted → Phase T w

structure Inv (T : Texts) (w : World) : Prop where
  count : w.st.awaiting = owed w + w.dropped
  counting : ∀ m, w.up = .counting m → isRequest m = true
  leaving : ∀ m, w.up = .leaving m → m.tag = 'X'
  batch : Settled (fun x => isBatch x.2 = true) (fun x => x.2.tag = 'S') (w.unsynced = true) (line w)
  work : (w.skipping = true ∨ ∃ o, w.task = some ⟨o, false⟩) → SyncAhead w
  sent : Settled (fun x => x.1 = .client ∧ asynchronous x.2 = false ∧ x.2.tag ≠ 'Z')
    (fun x => x.1 = .client ∧ x.2.tag = 'Z')
    (w.task = some ⟨.client, true⟩ ∨ SyncAhead w) w.fromServer
  query : ∀ x ∈ w.toServer, x.1 ≠ .client → x.2.tag = 'Q'
  voice : ∀ x ∈ w.fromServer, x.1 ≠ .client → asynchronous x.2 = false
  idle : ∀ a, w.up = .idle a → w.unsynced = false
  quiet : Asks w.up → w.unsynced = false ∧ owed w = 0
  numbered : (∀ x ∈ w.toServer ++ w.emitted, ∀ n, x.1 = .own n → n ≤ w.asked) ∧
    ∀ t n, w.task = some t → t.origin = .own n → n ≤ w.asked
  relayed : (w.toClient.filter (·.1)).map (·.2) ++ w.down.toList ++ ofOrigin .client w.fromServer =
    ofOrigin .client w.emitted
  phase : Phase T w

section Parts

variable {T : Texts} {w w' : World}

theorem ofOrigin_append (o : Origin) (l l' : List (Origin × Msg)) :
    ofOrigin o (l ++ l') = ofOrigin o l ++ ofOrigin o l' := by
  simp [ofOrigin]

theorem ofOrigin_self (o : Origin) (m : Msg) : ofOrigin o [(o, m)] = [m] := by
  simp [ofOrigin]

theorem ofOrigin_ne {o o' : Origin} (h : o' ≠ o) (m : Msg) : ofOrigin o [(o', m)] = [] := by
  simp [ofOrigin, h]

theorem ofOrigin_eq_nil {o : Origin} {l : List (Origin × Msg)} (h : ∀ x ∈ l, x.1 ≠ o) :
    ofOrigin o l = [] := by
  simp only [ofOrigin, List.map_eq_nil_iff, List.filter_eq_nil_iff, decide_eq_true_eq]
  exact h

theorem pending_eq (up : Up) : pending up = [] ∨ ∃ m, pending up = [(.client, m)] := by
  cases up with
  | counting m => exact .inr ⟨m, rfl⟩
  | writing m => exact .inr ⟨m, rfl⟩
  | leaving m => exact .inr ⟨m, rfl⟩
  | _ => exact .inl rfl

/-- Only what the thread writes counts of where it is. -/
def inHand (up : Up) : Nat :=
  match up with
  | .writing m => if isRequest m then 1 else 0
  | _ => 0

def back (l : List (Origin × Msg)) : Nat :=
  (l.filter fun x => x.1 = .client ∧ x.2.tag = 'Z').length

def atServer (task : Option Task) : Nat := if task = some ⟨.client, true⟩ then 1 else 0

def forth (l : List (Origin × Msg)) : Nat :=
  (l.filter fun x => x.1 = .client ∧ isRequest x.2).length

theorem owed_eq (w : World) :
    owed w = back w.fromServer + atServer w.task + forth w.toServer + inHand w.up := rfl

theorem back_append (l l' : List (Origin × Msg)) : back (l ++ l') = back l + back l' := by
  simp [back]

theorem forth_append (l l' : List (Origin × Msg)) : forth (l ++ l') = forth l + forth l' := by
  simp [forth]

theorem back_cons (x : Origin × Msg) (l : List (Origin × Msg)) :
    back (x :: l) = back [x] + back l := back_append [x] l

theorem forth_cons (x : Origin × Msg) (l : List (Origin × Msg)) :
    forth (x :: l) = forth [x] + forth l := forth_append [x] l

theorem back_ready (m : Msg) (h : m.tag = 'Z') : back [(.client, m)] = 1 := by
  simp [back, h]

theorem back_other {x : Origin × Msg} (h : x.1 = .client → x.2.tag ≠ 'Z') : back [x] = 0 := by
  simpa [back, List.filter_eq_nil_iff] using h

theorem forth_request (m : Msg) (h : isRequest m = true) : forth [(.client, m)] = 1 := by
  simp [forth, h]

theorem forth_other {x : Origin × Msg} (h : x.1 = .client → isRequest x.2 = false) :
    forth [x] = 0 := by
  simpa [forth, List.filter_eq_nil_iff] using h

theorem back_eq_zero {l : List (Origin × Msg)} (h : back l = 0) {x : Origin × Msg} (hx : x ∈ l)
    (hc : x.1 = .client) : x.2.tag ≠ 'Z' := by
  have hnil := List.filter_eq_nil_iff.mp (List.eq_nil_of_length_eq_zero h) x hx
  simp only [decide_eq_true_eq, not_and] at hnil
  exact hnil hc

theorem forth_eq_zero {l : List (Origin × Msg)} (h : forth l = 0) {x : Origin × Msg} (hx : x ∈ l)
    (hc : x.1 = .client) : isRequest x.2 = false := by
  have hnil := List.filter_eq_nil_iff.mp (List.eq_nil_of_length_eq_zero h) x hx
  simp only [decide_eq_true_eq, not_and, Bool.not_eq_true] at hnil
  exact hnil hc

/-- The stages look at these fields only. -/
theorem Phase.congr (h : Phase T w) (hst : w'.st = w.st) (hup : w'.up = w.up)
    (hto : w'.toServer = w.toServer) (hfrom : w'.fromServer = w.fromServer)
    (htask : w'.task = w.task) (hem : w'.emitted = w.emitted) (hasked : w'.asked = w.asked) :
    Phase T w' := by
  cases w
  cases w'
  dsimp only at hst hup hto hfrom htask hem hasked
  subst hst hup hto hfrom htask hem hasked
  cases h with
  | lost hc => exact .lost hc
  | away h₁ h₂ h₃ h₄ h₅ => exact .away h₁ h₂ h₃ h₄ ⟨h₅.1, h₅.2, h₅.3⟩
  | about h₁ h₂ h₃ h₄ h₅ h₆ => exact .about h₁ h₂ h₃ h₄ ⟨h₅.1, h₅.2, h₅.3⟩ h₆
  | queued h₁ h₂ h₃ h₄ h₅ h₆ h₇ h₈ h₉ => exact .queued h₁ h₂ h₃ h₄ h₅ h₆ h₇ h₈ h₉
  | served h₁ h₂ h₃ h₄ h₅ h₆ h₇ h₈ => exact .served h₁ h₂ h₃ h₄ h₅ h₆ h₇ h₈
  | replied h₁ h₂ h₃ h₄ h₅ h₆ h₇ h₈ h₉ h₁₀ h₁₁ =>
      exact .replied h₁ h₂ h₃ h₄ h₅ h₆ h₇ h₈ h₉ h₁₀ h₁₁
  | held h₁ h₂ h₃ h₄ h₅ h₆ => exact .held h₁ h₂ h₃ h₄ ⟨h₅.1, h₅.2, h₅.3⟩ h₆

theorem SyncAhead.congr (h : SyncAhead w) (hline : line w' = line w)
    (hun : w'.unsynced = w.unsynced) : SyncAhead w' := by
  unfold SyncAhead
  rw [hline, hun]
  exact h

theorem Inv.batch_congr (h : Inv T w) (hline : line w' = line w) (hun : w'.unsynced = w.unsynced) :
    Settled (fun x => isBatch x.2 = true) (fun x => x.2.tag = 'S') (w'.unsynced = true)
      (line w') := by
  rw [hline, hun]
  exact h.batch

/-- Away from a question nothing of one is left. -/
theorem Phase.idle_fields (h : Phase T w) (hup : ¬ Asks w.up) : w.st.closed = true ∨
    w.st.asking = false ∧ w.st.captured = [] ∧ w.st.answer = none ∧ Alone w := by
  cases h with
  | lost hc => exact .inl hc
  | away _ h₂ h₃ h₄ h₅ => exact .inr ⟨h₂, h₃, h₄, h₅⟩
  | about h₁ => exact absurd ⟨_, .inl h₁⟩ hup
  | queued h₁ => exact absurd ⟨_, .inr h₁⟩ hup
  | served h₁ => exact absurd ⟨_, .inr h₁⟩ hup
  | replied h₁ => exact absurd ⟨_, .inr h₁⟩ hup
  | held h₁ => exact absurd ⟨_, .inr h₁⟩ hup

end Parts

section ClientSide

variable {T : Texts} {w : World}

/-- The client-to-server thread goes from one place to another, with nothing in
hand before. -/
theorem Inv.turn (h : Inv T w) {up : Up} {unsynced : Bool} {answer : Option (List Msg)}
    {toClient : List (Bool × Msg)} (hnow : pending w.up = [])
    (hphase : Phase T { w with
      st := { w.st with answer := answer }
      up := up
      unsynced := unsynced
      toClient := toClient })
    (hclient : (toClient.filter (·.1)).map (·.2) = (w.toClient.filter (·.1)).map (·.2))
    (hcounting : ∀ m, up = .counting m → isRequest m = true)
    (hwriting : ∀ m, up = .writing m → isRequest m = false)
    (hleaving : ∀ m, up = .leaving m → m.tag = 'X')
    (hidle : ∀ a, up = .idle a → unsynced = false) (hasks : ¬ Asks up)
    (hsync : w.unsynced = true → unsynced = true ∨ ∃ x ∈ pending up, x.2.tag = 'S')
    (hbatch : ∀ x ∈ pending up, isBatch x.2 = true → unsynced = true) :
    Inv T { w with
      st := { w.st with answer := answer }
      up := up
      unsynced := unsynced
      toClient := toClient } := by
  have hline : line w = w.toServer := by rw [line, hnow, List.append_nil]
  have hahead : SyncAhead w → unsynced = true ∨ ∃ x ∈ w.toServer ++ pending up, x.2.tag = 'S' := by
    rintro (hu | ⟨x, hx, hS⟩)
    · rcases hsync hu with hu | ⟨x, hx, hS⟩
      · exact .inl hu
      · exact .inr ⟨x, List.mem_append_right _ hx, hS⟩
    · exact .inr ⟨x, List.mem_append_left _ (hline ▸ hx), hS⟩
  have hhand : inHand w.up = 0 := by
    cases hup : w.up with
    | writing m => simp [hup, pending] at hnow
    | _ => rfl
  have hhand' : inHand up = 0 := by
    cases hup : up with
    | writing m => simp [inHand, hwriting m hup]
    | _ => rfl
  refine ⟨?_, hcounting, hleaving, ?_, fun hw => hahead (h.work hw), ?_, h.query, h.voice, hidle,
    fun hasks' => absurd hasks' hasks, h.numbered, ?_, hphase⟩
  · have hcount := h.count
    rw [owed_eq, hhand] at hcount
    rw [owed_eq, hhand']
    exact hcount
  · have hold := h.batch
    rw [hline] at hold
    rcases pending_eq up with hp | ⟨m, hp⟩
    · simp only [line, hp, List.append_nil]
      refine hold.mono fun hu => (hsync hu).resolve_right ?_
      simp [hp]
    · simp only [line, hp]
      refine hold.append (fun hu => ?_) fun hb => hbatch (.client, m) (by simp [hp]) hb
      simpa [hp] using hsync hu
  · exact h.sent.mono fun hu => hu.imp_right hahead
  · rw [hclient]
    exact h.relayed

theorem Inv.read (h : Inv T w) (m : Msg) (hup : w.up = .reading) :
    Inv T { w with up := (dispatch T w.unsynced m).1, unsynced := (dispatch T w.unsynced m).2 } := by
  have hnow : pending w.up = [] := by rw [hup]; rfl
  have hnot : ¬ Asks w.up := by
    rw [hup]
    exact not_asks (by simp) (by simp)
  have hphase {up : Up} {unsynced : Bool} (hup : ¬ Asks up) :
      Phase T { w with up := up, unsynced := unsynced } := by
    rcases h.phase.idle_fields hnot with hc | ⟨h₁, h₂, h₃, h₄⟩
    · exact .lost hc
    · exact .away hup h₁ h₂ h₃ ⟨h₄.1, h₄.2, h₄.3⟩
  rcases dispatch_cases T w.unsynced m with ⟨m', hd, hreq, hb, hu⟩ | ⟨a, hd, hu⟩ |
    ⟨m', hd, hreq, hu⟩ | ⟨hd, hX⟩
  · rw [hd]
    have hasks : ¬ Asks (.counting m') := not_asks (by simp) (by simp)
    refine h.turn hnow (hphase hasks) rfl ?_ (by simp) (by simp) (by simp) hasks ?_ ?_
    · rintro _ ⟨⟩
      exact hreq
    · intro hw
      rcases hu with hS | hu
      · exact .inr ⟨(.client, m'), by simp [pending], hS⟩
      · exact .inl (hu.trans hw)
    · simp [pending, hb]
  · rw [hd]
    have hasks : ¬ Asks (.idle a) := not_asks (by simp) (by simp)
    refine h.turn hnow (hphase hasks) rfl (by simp) (by simp) (by simp) (by simp) hasks ?_ ?_
    · intro hw
      rw [hu] at hw
      cases hw
    · simp [pending]
  · rw [hd]
    have hasks : ¬ Asks (.writing m') := not_asks (by simp) (by simp)
    refine h.turn hnow (hphase hasks) rfl (by simp) ?_ (by simp) (by simp) hasks ?_ ?_
    · rintro _ ⟨⟩
      exact hreq
    · intro hw
      rcases hu with hu | ⟨-, hu⟩
      · exact .inl hu
      · exact .inl (hu.trans hw)
    · intro x hx hbx
      obtain rfl := List.mem_singleton.mp hx
      rcases hu with hu | ⟨hb, -⟩
      · exact hu
      · rw [hb] at hbx
        cases hbx
  · rw [hd]
    have hasks : ¬ Asks (.leaving m) := not_asks (by simp) (by simp)
    refine h.turn hnow (hphase hasks) rfl (by simp) (by simp) ?_ (by simp) hasks .inl ?_
    · rintro _ ⟨⟩
      exact hX
    · simp [pending, isBatch, hX]

theorem Inv.resume (h : Inv T w) {a : Asked} {l : List Msg} (hup : w.up = .answer a)
    (hl : w.st.answer = some l) :
    Inv T { w with
      st := { w.st with answer := none }
      up := (GatewaySession.resume T a l).1
      unsynced := (GatewaySession.resume T a l).2 } := by
  have hnow : pending w.up = [] := by rw [hup]; rfl
  have hsynced : w.unsynced ≠ true := by
    rw [(h.quiet ⟨a, .inr hup⟩).1]
    simp
  have hphase {up : Up} {unsynced : Bool} (hasks : ¬ Asks up) :
      Phase T { w with st := { w.st with answer := none }, up := up, unsynced := unsynced } := by
    cases h.phase with
    | lost hc => exact .lost hc
    | away h₁ => exact absurd ⟨a, .inr hup⟩ h₁
    | about h₁ => cases hup.symm.trans h₁
    | queued _ _ _ h₄ => cases hl.symm.trans h₄
    | served _ _ h₃ => cases hl.symm.trans h₃
    | replied _ _ h₃ => cases hl.symm.trans h₃
    | held _ h₂ _ h₄ h₅ => exact .away hasks h₂ h₄ rfl ⟨h₅.1, h₅.2, h₅.3⟩
  rcases resume_cases T a l with ⟨m, hr, hreq, hb⟩ | ⟨m, hr, hreq⟩ | ⟨err, status, hr⟩ | hr
  · rw [hr]
    have hasks : ¬ Asks (.counting m) := not_asks (by simp) (by simp)
    refine h.turn hnow (hphase hasks) rfl ?_ (by simp) (by simp) (by simp) hasks
      (fun hu => absurd hu hsynced) ?_
    · rintro _ ⟨⟩
      exact hreq
    · simp [pending, hb]
  · rw [hr]
    have hasks : ¬ Asks (.writing m) := not_asks (by simp) (by simp)
    refine h.turn hnow (hphase hasks) rfl (by simp) ?_ (by simp) (by simp) hasks
      (fun hu => absurd hu hsynced) fun _ _ _ => rfl
    rintro _ ⟨⟩
    exact hreq
  · rw [hr]
    have hasks : ¬ Asks (.refusing err status) := not_asks (by simp) (by simp)
    exact h.turn hnow (hphase hasks) rfl (by simp) (by simp) (by simp) (by simp) hasks
      (fun hu => absurd hu hsynced) (by simp [pending])
  · rw [hr]
    have hasks : ¬ Asks .ended := not_asks (by simp) (by simp)
    exact h.turn hnow (hphase hasks) rfl (by simp) (by simp) (by simp) (by simp) hasks
      (fun hu => absurd hu hsynced) (by simp [pending])

theorem Inv.refuse (h : Inv T w) {err : Bytes} {status : UInt8} (hup : w.up = .refusing err status) :
    Inv T { w with
      toClient := w.toClient ++ [(false, ⟨'E', err⟩), (false, ⟨'Z', [status]⟩)]
      up := .reading } := by
  have hnow : pending w.up = [] := by rw [hup]; rfl
  have hasks : ¬ Asks .reading := not_asks (by simp) (by simp)
  have hnot : ¬ Asks w.up := by
    rw [hup]
    exact not_asks (by simp) (by simp)
  refine h.turn hnow ?_ (by simp) (by simp) (by simp) (by simp) (by simp) hasks .inl
    (by simp [pending])
  rcases h.phase.idle_fields hnot with hc | ⟨h₁, h₂, h₃, h₄⟩
  · exact .lost hc
  · exact .away hasks h₁ h₂ h₃ ⟨h₄.1, h₄.2, h₄.3⟩

theorem Inv.quit (h : Inv T w) {a : Asked}
    (hup : w.up = .idle a ∨ w.up = .answer a ∧ w.st.answer = none) (hc : w.st.closed = true) :
    Inv T { w with up := .ended } := by
  have hnow : pending w.up = [] := by
    rcases hup with hup | ⟨hup, -⟩
    · rw [hup]; rfl
    · rw [hup]; rfl
  have hasks : ¬ Asks .ended := not_asks (by simp) (by simp)
  exact h.turn hnow (.lost hc) rfl (by simp) (by simp) (by simp) (by simp) hasks .inl
    (by simp [pending])

theorem Inv.count_step (h : Inv T w) {m : Msg} (hup : w.up = .counting m) :
    Inv T { w with st := { w.st with awaiting := w.st.awaiting + 1 }, up := .writing m } := by
  have hasks : ¬ Asks (.writing m) := not_asks (by simp) (by simp)
  have hnot : ¬ Asks w.up := by
    rw [hup]
    exact not_asks (by simp) (by simp)
  have hreq := h.counting m hup
  have hline : w.toServer ++ pending (.writing m) = line w := by rw [line, hup]; rfl
  refine ⟨?_, by simp, by simp, ?_, fun hw => ?_, ?_, h.query, h.voice, by simp,
    fun hasks' => absurd hasks' hasks, h.numbered, h.relayed, ?_⟩
  · have hcount := h.count
    rw [owed_eq, hup] at hcount
    rw [owed_eq]
    simp only [inHand, hreq, if_true] at hcount ⊢
    omega
  · exact h.batch_congr hline rfl
  · exact (h.work hw).congr hline rfl
  · exact h.sent.mono fun hu => hu.imp_right fun hu => hu.congr hline rfl
  · rcases h.phase.idle_fields hnot with hc | ⟨h₁, h₂, h₃, h₄⟩
    · exact .lost hc
    · exact .away hasks h₁ h₂ h₃ ⟨h₄.1, h₄.2, h₄.3⟩

/-- What the thread has in hand goes out. -/
theorem Inv.send (h : Inv T w) {m : Msg} {up : Up} (hnow : pending w.up = [(.client, m)])
    (hhand : inHand w.up = forth [(.client, m)]) (hup : up = .reading ∨ up = .ended) :
    Inv T { w with toServer := w.toServer ++ [(.client, m)], up := up } := by
  have hasks : ¬ Asks up := by
    rcases hup with rfl | rfl
    · exact not_asks (by simp) (by simp)
    · exact not_asks (by simp) (by simp)
  have hnot : ¬ Asks w.up := by
    rintro ⟨a, hw | hw⟩
    · simp [hw, pending] at hnow
    · simp [hw, pending] at hnow
  have hnext : pending up = [] ∧ inHand up = 0 := by
    rcases hup with rfl | rfl
    · exact ⟨rfl, rfl⟩
    · exact ⟨rfl, rfl⟩
  have hline : w.toServer ++ [(Origin.client, m)] ++ pending up = line w := by
    rw [line, hnow, hnext.1, List.append_nil]
  refine ⟨?_, ?_, ?_, h.batch_congr hline rfl, fun hw => (h.work hw).congr hline rfl,
    h.sent.mono fun hu => hu.imp_right fun hu => hu.congr hline rfl, ?_, h.voice, ?_,
    fun hasks' => absurd hasks' hasks, ?_, h.relayed, ?_⟩
  · have hcount := h.count
    rw [owed_eq, hhand] at hcount
    rw [owed_eq, forth_append, hnext.2]
    dsimp only
    omega
  · rcases hup with rfl | rfl <;> simp
  · rcases hup with rfl | rfl <;> simp
  · intro x hx hne
    rcases List.mem_append.mp hx with hx | hx
    · exact h.query x hx hne
    · exact absurd (congrArg Prod.fst (List.mem_singleton.mp hx)) hne
  · rcases hup with rfl | rfl <;> simp
  · refine ⟨fun x hx n hn => ?_, h.numbered.2⟩
    rcases List.mem_append.mp hx with hx | hx
    · rcases List.mem_append.mp hx with hx | hx
      · exact h.numbered.1 x (List.mem_append_left _ hx) n hn
      · rw [List.mem_singleton.mp hx] at hn
        cases hn
    · exact h.numbered.1 x (List.mem_append_right _ hx) n hn
  · rcases h.phase.idle_fields hnot with hc | ⟨h₁, h₂, h₃, h₄⟩
    · exact .lost hc
    · refine .away hasks h₁ h₂ h₃ ⟨fun x hx => ?_, h₄.2, h₄.3⟩
      rcases List.mem_append.mp hx with hx | hx
      · exact h₄.1 x hx
      · exact congrArg Prod.fst (List.mem_singleton.mp hx)

theorem Inv.write (h : Inv T w) {m : Msg} (hup : w.up = .writing m) :
    Inv T { w with toServer := w.toServer ++ [(.client, m)], up := .reading } := by
  refine h.send (by rw [hup]; rfl) ?_ (.inl rfl)
  rw [hup]
  simp only [inHand]
  split_ifs with hreq
  · exact (forth_request m hreq).symm
  · exact (forth_other fun _ => by simpa using hreq).symm

theorem Inv.leave (h : Inv T w) {m : Msg} (hup : w.up = .leaving m) :
    Inv T { w with toServer := w.toServer ++ [(.client, m)], up := .ended } := by
  refine h.send (by rw [hup]; rfl) ?_ (.inr rfl)
  rw [hup]
  exact (forth_other fun _ => by simp [isRequest, h.leaving m hup]).symm

/-- A question starts with nothing owed. -/
theorem Inv.idle_step (h : Inv T w) {a : Asked} (hup : w.up = .idle a) (hzero : w.st.awaiting = 0) :
    Inv T { w with
      st := { w.st with asking := true, answer := none }
      up := .question a
      asked := w.asked + 1 } := by
  have hnot : ¬ Asks w.up := by
    rw [hup]
    exact not_asks (by simp) (by simp)
  have hline : w.toServer ++ pending (.question a) = line w := by rw [line, hup]; rfl
  have howed : owed w = 0 := by
    have hcount := h.count
    omega
  have hzero' : back w.fromServer + atServer w.task + forth w.toServer + 0 = 0 := by
    rw [owed_eq, hup] at howed
    exact howed
  refine ⟨?_, by simp, by simp, h.batch_congr hline rfl, fun hw => (h.work hw).congr hline rfl,
    h.sent.mono fun hu => hu.imp_right fun hu => hu.congr hline rfl, h.query, h.voice, by simp,
    fun _ => ⟨h.idle a hup, hzero'⟩, ?_, h.relayed, ?_⟩
  · have hcount := h.count
    rw [owed_eq, hup] at hcount
    rw [owed_eq]
    exact hcount
  · exact ⟨fun x hx n hn => Nat.le_succ_of_le (h.numbered.1 x hx n hn),
      fun t n ht hn => Nat.le_succ_of_le (h.numbered.2 t n ht hn)⟩
  · rcases h.phase.idle_fields hnot with hc | ⟨h₁, h₂, h₃, h₄⟩
    · exact .lost hc
    · refine .about rfl rfl h₂ rfl ⟨h₄.1, h₄.2, h₄.3⟩ ?_
      refine ofOrigin_eq_nil fun x hx heq => ?_
      exact Nat.not_succ_le_self _ (h.numbered.1 x (List.mem_append_right _ hx) _ heq)

theorem Inv.question (h : Inv T w) {a : Asked} (hup : w.up = .question a) :
    Inv T { w with
      toServer := w.toServer ++ [(.own w.asked, questionMsg T a)]
      up := .answer a } := by
  have hquiet := h.quiet ⟨a, .inl hup⟩
  have hline : line w = w.toServer := by rw [line, hup]; exact List.append_nil _
  have hforth : forth [(.own w.asked, questionMsg T a)] = 0 := forth_other fun hc => by cases hc
  have hahead : SyncAhead w → w.unsynced = true ∨
      ∃ x ∈ w.toServer ++ [(Origin.own w.asked, questionMsg T a)] ++ pending (.answer a), x.2.tag = 'S' := by
    rintro (hu | ⟨x, hx, hS⟩)
    · exact .inl hu
    · exact .inr ⟨x, List.mem_append_left _ (List.mem_append_left _ (hline ▸ hx)), hS⟩
  refine ⟨?_, by simp, by simp, ?_, fun hw => hahead (h.work hw),
    h.sent.mono fun hu => hu.imp_right hahead, ?_, h.voice, by simp, fun _ => ⟨hquiet.1, ?_⟩, ?_,
    h.relayed, ?_⟩
  · have hcount := h.count
    rw [owed_eq, hup] at hcount
    rw [owed_eq, forth_append, hforth]
    exact hcount
  · have hold := h.batch
    rw [hline] at hold
    simp only [line, pending, List.append_nil]
    exact hold.append .inl fun hb => by simp [isBatch, questionMsg] at hb
  · intro x hx hne
    rcases List.mem_append.mp hx with hx | hx
    · exact h.query x hx hne
    · rw [List.mem_singleton.mp hx]
      rfl
  · have howed := hquiet.2
    rw [owed_eq, hup] at howed
    rw [owed_eq, forth_append, hforth]
    exact howed
  · refine ⟨fun x hx n hn => ?_, h.numbered.2⟩
    rcases List.mem_append.mp hx with hx | hx
    · rcases List.mem_append.mp hx with hx | hx
      · exact h.numbered.1 x (List.mem_append_left _ hx) n hn
      · rw [List.mem_singleton.mp hx] at hn
        exact Nat.le_of_eq (Origin.own.inj hn).symm
    · exact h.numbered.1 x (List.mem_append_right _ hx) n hn
  · cases h.phase with
    | lost hc => exact .lost hc
    | away h₁ => exact absurd ⟨a, .inl hup⟩ h₁
    | about _ h₂ h₃ h₄ h₅ h₆ =>
        exact .queued rfl h₂ h₃ h₄ rfl (by simpa using h₅.1) h₅.2 h₅.3 h₆
    | queued h₁ => cases hup.symm.trans h₁
    | served h₁ => cases hup.symm.trans h₁
    | replied h₁ => cases hup.symm.trans h₁
    | held h₁ => cases hup.symm.trans h₁

end ClientSide

section Delivery

variable {T : Texts} {w : World}

theorem Inv.close (h : Inv T w) : Inv T { w with st := { w.st with closed := true } } :=
  ⟨h.count, h.counting, h.leaving, h.batch, h.work, h.sent, h.query, h.voice, h.idle, h.quiet,
    h.numbered, h.relayed, .lost rfl⟩

theorem Inv.deliver (h : Inv T w) {m : Msg} (hdown : w.down = some m) :
    Inv T { w with toClient := w.toClient ++ [(true, m)], down := none } := by
  refine ⟨h.count, h.counting, h.leaving, h.batch, h.work, h.sent, h.query, h.voice, h.idle, h.quiet,
    h.numbered, ?_, h.phase.congr rfl rfl rfl rfl rfl rfl rfl⟩
  have hrelayed := h.relayed
  rw [hdown] at hrelayed
  simpa [List.filter_append] using hrelayed

/-- While the thread asks, the server is idle but for the question, and the client
is sent asynchronous messages only. -/
theorem Inv.still (h : Inv T w) (hasks : Asks w.up) : w.skipping = false ∧
    (∀ t, w.task = some t → t.origin ≠ .client ∧ t.ready = true) ∧
    ∀ x ∈ w.fromServer, x.1 = .client → asynchronous x.2 = true := by
  obtain ⟨hun, howed⟩ := h.quiet hasks
  have hline : line w = w.toServer := by
    obtain ⟨a, hup | hup⟩ := hasks
    · rw [line, hup]; exact List.append_nil _
    · rw [line, hup]; exact List.append_nil _
  rw [owed_eq] at howed
  have hback : back w.fromServer = 0 := by omega
  have hforth : forth w.toServer = 0 := by omega
  have htask : atServer w.task = 0 := by omega
  have hahead : ¬ SyncAhead w := by
    rintro (hu | ⟨x, hx, hS⟩)
    · rw [hun] at hu
      cases hu
    · rw [hline] at hx
      by_cases hc : x.1 = .client
      · have hreq := forth_eq_zero hforth hx hc
        simp [isRequest, hS] at hreq
      · have hQ := h.query x hx hc
        rw [hS] at hQ
        cases hQ
  have hclient : w.task ≠ some ⟨.client, true⟩ := by
    intro heq
    simp [atServer, heq] at htask
  refine ⟨?_, fun t ht => ?_, fun x hx hc => ?_⟩
  · by_contra hskip
    exact hahead (h.work (.inl (by simpa using hskip)))
  · have hready : t.ready = true := by
      by_contra hno
      refine hahead (h.work (.inr ⟨t.origin, ?_⟩))
      rw [ht, ← Bool.not_eq_true _ |>.mp hno]
    refine ⟨fun hc => hclient ?_, hready⟩
    rw [ht, ← hc, ← hready]
  · by_contra hno
    refine h.sent.not_mem (not_or.mpr ⟨hclient, hahead⟩)
      (fun y hy hz => back_eq_zero hback hy hz.1 hz.2) x hx ⟨hc, by simpa using hno, ?_⟩
    exact back_eq_zero hback hx hc

theorem receive_relayed {st : State} {m : Msg} (h : st.asking = false ∨ asynchronous m = true) :
    st.receive m =
      (if m.tag = 'Z' then { st with awaiting := st.awaiting - 1 } else st, some m) := by
  unfold State.receive
  rw [if_neg]
  · split_ifs <;> rfl
  · rcases h with h | h <;> simp [h]

theorem receive_kept {st : State} {m : Msg} (h : st.asking = true) (hm : asynchronous m = false) :
    st.receive m =
      (if m.tag = 'Z' then
        { st with asking := false, answer := some (st.captured ++ [m]), captured := [] }
      else { st with captured := st.captured ++ [m] }, none) := by
  unfold State.receive
  rw [if_pos (by simp [h, hm])]
  split_ifs <;> rfl

/-- A message of the client's goes to the client. -/
theorem Inv.receive_client (h : Inv T w) {x : Origin × Msg} {rest : List (Origin × Msg)}
    (hdown : w.down = none) (hfrom : w.fromServer = x :: rest) (hx : x.1 = .client)
    (hrelay : w.st.asking = false ∨ asynchronous x.2 = true) :
    Inv T { w with
      st := (w.st.receive x.2).1
      down := (w.st.receive x.2).2
      fromServer := rest } := by
  obtain ⟨o, m⟩ := x
  obtain rfl : o = .client := hx
  rw [receive_relayed hrelay]
  have hback : back w.fromServer = back [(.client, m)] + back rest := by rw [hfrom, back_cons]
  have hone : back [(.client, m)] = if m.tag = 'Z' then 1 else 0 := by
    split_ifs with hz
    · exact back_ready m hz
    · exact back_other fun _ => hz
  have hcount := h.count
  rw [owed_eq, hback, hone] at hcount
  have hsent := h.sent
  rw [hfrom] at hsent
  have hvoice := h.voice
  rw [hfrom] at hvoice
  have hown (n : Nat) : ofOrigin (.own n) w.fromServer = ofOrigin (.own n) rest := by
    rw [hfrom, ← List.singleton_append, ofOrigin_append,
      ofOrigin_ne (by simp), List.nil_append]
  have hsub {x : Origin × Msg} (hx : x ∈ rest) : x ∈ w.fromServer :=
    hfrom ▸ List.mem_cons_of_mem _ hx
  have hst (st : State) (hst : st = if m.tag = 'Z' then
      { w.st with awaiting := w.st.awaiting - 1 } else w.st) :
      st.closed = w.st.closed ∧ st.asking = w.st.asking ∧ st.captured = w.st.captured ∧
        st.answer = w.st.answer := by
    rw [hst]
    split_ifs <;> exact ⟨rfl, rfl, rfl, rfl⟩
  obtain ⟨hc, ha, hcap, hans⟩ := hst _ rfl
  refine ⟨?_, h.counting, h.leaving, h.batch, h.work, hsent.2,
    h.query, fun x hx => hvoice x (List.mem_cons_of_mem _ hx), h.idle, fun hasks => ?_, h.numbered,
    ?_, ?_⟩
  · rw [owed_eq]
    dsimp only
    split_ifs at hcount ⊢
    · dsimp only
      omega
    · omega
  · have hquiet := h.quiet hasks
    rw [owed_eq, hback] at hquiet
    refine ⟨hquiet.1, ?_⟩
    rw [owed_eq]
    dsimp only
    omega
  · have hrelayed := h.relayed
    rw [hdown, hfrom, ← List.singleton_append, ofOrigin_append, ofOrigin_self] at hrelayed
    simpa using hrelayed
  · cases h.phase with
    | lost h₁ => exact .lost (hc.trans h₁)
    | away h₁ h₂ h₃ h₄ h₅ =>
        exact .away h₁ (ha.trans h₂) (hcap.trans h₃) (hans.trans h₄)
          ⟨h₅.1, fun x hx => h₅.2 x (hsub hx), h₅.3⟩
    | about h₁ h₂ h₃ h₄ h₅ h₆ =>
        exact .about h₁ (ha.trans h₂) (hcap.trans h₃) (hans.trans h₄)
          ⟨h₅.1, fun x hx => h₅.2 x (hsub hx), h₅.3⟩ h₆
    | queued h₁ h₂ h₃ h₄ h₅ h₆ h₇ h₈ h₉ =>
        exact .queued h₁ (ha.trans h₂) (hcap.trans h₃) (hans.trans h₄) h₅ h₆
          (fun x hx => h₇ x (hsub hx)) h₈ h₉
    | served h₁ h₂ h₃ h₄ h₅ h₆ h₇ h₈ =>
        rw [hown] at h₇
        exact .served h₁ (ha.trans h₂) (hans.trans h₃) h₄ h₅ (fun x hx => h₆ x (hsub hx))
          ((congrArg (· ++ _) hcap).trans h₇) h₈
    | replied h₁ h₂ h₃ h₄ h₅ h₆ h₇ h₈ h₉ h₁₀ h₁₁ =>
        rw [hown] at h₈
        exact .replied h₁ (ha.trans h₂) (hans.trans h₃) h₄ h₅ (fun x hx => h₆ x (hsub hx))
          (hcap.trans h₇) h₈ h₉ h₁₀ h₁₁
    | held h₁ h₂ h₃ h₄ h₅ h₆ =>
        exact .held h₁ (ha.trans h₂) (hans.trans h₃) (hcap.trans h₄)
          ⟨h₅.1, fun x hx => h₅.2 x (hsub hx), h₅.3⟩ h₆

/-- A message that belongs to the question is kept; the last one completes the
answer. -/
theorem Inv.receive_own (h : Inv T w) {x : Origin × Msg} {rest : List (Origin × Msg)}
    (hopen : w.st.closed = false) (hdown : w.down = none) (hfrom : w.fromServer = x :: rest)
    (hx : x.1 ≠ .client) :
    Inv T { w with
      st := (w.st.receive x.2).1
      down := (w.st.receive x.2).2
      fromServer := rest } := by
  obtain ⟨o, m⟩ := x
  have hmem : (o, m) ∈ w.fromServer := hfrom ▸ List.mem_cons_self
  have hquietMsg : asynchronous m = false := h.voice _ hmem hx
  have hback : back w.fromServer = back rest := by
    rw [hfrom, back_cons, back_other fun hc => absurd hc hx, Nat.zero_add]
  have hclientOf : ofOrigin .client w.fromServer = ofOrigin .client rest := by
    rw [hfrom, ← List.singleton_append, ofOrigin_append, ofOrigin_ne hx, List.nil_append]
  have hsub {x : Origin × Msg} (hx : x ∈ rest) : x ∈ w.fromServer :=
    hfrom ▸ List.mem_cons_of_mem _ hx
  have hsent := h.sent
  rw [hfrom] at hsent
  have hcount := h.count
  rw [owed_eq, hback] at hcount
  have hkeep (hasking : w.st.asking = true)
      (hphase : Phase T { w with
        st := if m.tag = 'Z' then
          { w.st with asking := false, answer := some (w.st.captured ++ [m]), captured := [] }
          else { w.st with captured := w.st.captured ++ [m] }
        down := none
        fromServer := rest }) :
      Inv T { w with
        st := (w.st.receive m).1
        down := (w.st.receive m).2
        fromServer := rest } := by
    rw [receive_kept hasking hquietMsg]
    refine ⟨?_, h.counting, h.leaving, h.batch, h.work, hsent.2, h.query,
      fun x hx => h.voice x (hsub hx), h.idle, fun hasks => ?_, h.numbered, ?_, hphase⟩
    · rw [owed_eq]
      dsimp only
      split_ifs
      · exact hcount
      · exact hcount
    · have hquiet := h.quiet hasks
      rw [owed_eq, hback] at hquiet
      exact hquiet
    · have hrelayed := h.relayed
      rw [hdown, hclientOf] at hrelayed
      exact hrelayed
  have hownOf (horigin : o = .own w.asked) :
      ofOrigin (.own w.asked) w.fromServer = m :: ofOrigin (.own w.asked) rest := by
    rw [hfrom, ← List.singleton_append, ofOrigin_append, horigin, ofOrigin_self,
      List.singleton_append]
  cases h.phase with
  | lost h₁ => exact absurd h₁ (by simp [hopen])
  | away _ _ _ _ h₅ => exact absurd (h₅.2 _ hmem) hx
  | about _ _ _ _ h₅ => exact absurd (h₅.2 _ hmem) hx
  | queued _ _ _ _ _ _ h₇ => exact absurd (h₇ _ hmem) hx
  | held _ _ _ _ h₅ => exact absurd (h₅.2 _ hmem) hx
  | served h₁ h₂ h₃ h₄ h₅ h₆ h₇ h₈ =>
      have horigin : o = .own w.asked := (h₆ _ hmem).resolve_left hx
      rw [hownOf horigin] at h₇
      have hno : m.tag ≠ 'Z' := h₈ m (h₇ ▸ List.mem_append_right _ List.mem_cons_self)
      refine hkeep h₂ ?_
      rw [if_neg hno]
      refine .served h₁ h₂ h₃ h₄ h₅ (fun x hx => h₆ x (hsub hx)) ?_ h₈
      rw [← h₇]
      simp
  | @replied a l front z h₁ h₂ h₃ h₄ h₅ h₆ h₇ h₈ h₉ h₁₀ h₁₁ =>
      have horigin : o = .own w.asked := (h₆ _ hmem).resolve_left hx
      rw [hownOf horigin] at h₈
      refine hkeep h₂ ?_
      cases front with
      | nil =>
          obtain ⟨rfl, hnil⟩ := List.cons.inj h₈
          rw [if_pos h₁₀]
          refine .held h₁ rfl rfl rfl ⟨h₄, fun x hx => ?_, h₅⟩ ?_
          · refine (h₆ x (hsub hx)).resolve_right fun hown => ?_
            have hin : x.2 ∈ ofOrigin (.own w.asked) rest :=
              List.mem_map_of_mem (List.mem_filter.mpr ⟨hx, decide_eq_true hown⟩)
            rw [hnil] at hin
            exact List.not_mem_nil hin
          · rw [h₇]
            exact h₉.symm
      | cons y front =>
          obtain ⟨rfl, hrest⟩ := List.cons.inj h₈
          rw [if_neg (h₁₁ m List.mem_cons_self)]
          refine .replied h₁ h₂ h₃ h₄ h₅ (fun x hx => h₆ x (hsub hx)) rfl hrest ?_ h₁₀
            fun k hk => h₁₁ k (List.mem_cons_of_mem _ hk)
          rw [h₉, h₇]
          simp

theorem Inv.receive (h : Inv T w) {x : Origin × Msg} {rest : List (Origin × Msg)}
    (hopen : w.st.closed = false) (hdown : w.down = none) (hfrom : w.fromServer = x :: rest) :
    Inv T { w with
      st := (w.st.receive x.2).1
      down := (w.st.receive x.2).2
      fromServer := rest } := by
  by_cases hx : x.1 = .client
  · refine h.receive_client hdown hfrom hx ?_
    have hmem : x ∈ w.fromServer := hfrom ▸ List.mem_cons_self
    by_cases hasks : Asks w.up
    · cases h.phase with
      | held _ h₂ => exact .inl h₂
      | _ => exact .inr ((h.still hasks).2.2 x hmem hx)
    · rcases h.phase.idle_fields hasks with hc | ⟨h₁, -⟩
      · exact absurd hc (by simp [hopen])
      · exact .inl h₁
  · exact h.receive_own hopen hdown hfrom hx

end Delivery

section Server

variable {T : Texts} {w : World}

/-- A message of the client's is taken out of the line. -/
theorem Phase.pop_client (h : Phase T w) {x : Origin × Msg} {rest : List (Origin × Msg)}
    {task : Option Task} {skipping : Bool} {dropped : Nat} (hto : w.toServer = x :: rest)
    (hx : x.1 = .client)
    (htask : task = w.task ∨ w.task = none ∧ ∀ t, task = some t → t.origin = .client) :
    Phase T { w with toServer := rest, task := task, skipping := skipping, dropped := dropped } := by
  have hsub {y : Origin × Msg} (hy : y ∈ rest) : y ∈ w.toServer :=
    hto ▸ List.mem_cons_of_mem _ hy
  have hclient (hold : ∀ t, w.task = some t → t.origin = .client) (t : Task)
      (ht : task = some t) : t.origin = .client := by
    rcases htask with rfl | ⟨-, hnew⟩
    · exact hold t ht
    · exact hnew t ht
  cases h with
  | lost hc => exact .lost hc
  | away h₁ h₂ h₃ h₄ h₅ =>
      exact .away h₁ h₂ h₃ h₄ ⟨fun y hy => h₅.1 y (hsub hy), h₅.2, hclient h₅.3⟩
  | about h₁ h₂ h₃ h₄ h₅ h₆ =>
      exact .about h₁ h₂ h₃ h₄ ⟨fun y hy => h₅.1 y (hsub hy), h₅.2, hclient h₅.3⟩ h₆
  | @queued a pre post h₁ h₂ h₃ h₄ h₅ h₆ h₇ h₈ h₉ =>
      rw [hto] at h₅
      cases pre with
      | nil =>
          rw [(List.cons.inj h₅).1] at hx
          cases hx
      | cons y pre =>
          exact .queued h₁ h₂ h₃ h₄ (List.cons.inj h₅).2
            (fun z hz => h₆ z (List.mem_cons_of_mem _ hz)) h₇ (hclient h₈) h₉
  | served h₁ h₂ h₃ h₄ h₅ h₆ h₇ h₈ =>
      rcases htask with rfl | ⟨hnone, -⟩
      · exact .served h₁ h₂ h₃ (fun y hy => h₄ y (hsub hy)) h₅ h₆ h₇ h₈
      · cases hnone.symm.trans h₅
  | replied h₁ h₂ h₃ h₄ h₅ h₆ h₇ h₈ h₉ h₁₀ h₁₁ =>
      exact .replied h₁ h₂ h₃ (fun y hy => h₄ y (hsub hy)) (hclient h₅) h₆ h₇ h₈ h₉ h₁₀ h₁₁
  | held h₁ h₂ h₃ h₄ h₅ h₆ =>
      exact .held h₁ h₂ h₃ h₄ ⟨fun y hy => h₅.1 y (hsub hy), h₅.2, hclient h₅.3⟩ h₆

/-- The question is taken out of the line. -/
theorem Phase.pop_own (h : Phase T w) {x : Origin × Msg} {rest : List (Origin × Msg)}
    (hto : w.toServer = x :: rest) (hx : x.1 ≠ .client) :
    w.st.closed = true ∨ Asks w.up ∧ x.1 = .own w.asked ∧
      ∀ skipping, Phase T { w with
        toServer := rest
        task := some ⟨x.1, true⟩
        skipping := skipping } := by
  have hmem : x ∈ w.toServer := hto ▸ List.mem_cons_self
  cases h with
  | lost hc => exact .inl hc
  | away _ _ _ _ h₅ => exact absurd (h₅.1 x hmem) hx
  | about _ _ _ _ h₅ => exact absurd (h₅.1 x hmem) hx
  | served _ _ _ h₄ => exact absurd (h₄ x hmem) hx
  | replied _ _ _ h₄ => exact absurd (h₄ x hmem) hx
  | held _ _ _ _ h₅ => exact absurd (h₅.1 x hmem) hx
  | @queued a pre post h₁ h₂ h₃ h₄ h₅ h₆ h₇ h₈ h₉ =>
      rw [hto] at h₅
      cases pre with
      | nil =>
          obtain ⟨rfl, rfl⟩ := List.cons.inj h₅
          refine .inr ⟨⟨a, .inr h₁⟩, rfl, fun skipping => ?_⟩
          have hnone : ofOrigin (.own w.asked) w.fromServer = [] :=
            ofOrigin_eq_nil fun x hx heq => by
              rw [h₇ x hx] at heq
              cases heq
          refine .served h₁ h₂ h₄ h₆ rfl (fun x hx => .inl (h₇ x hx)) ?_ ?_
          · rw [h₃, h₉]
            exact hnone
          · rw [h₉]
            simp
      | cons y pre =>
          rw [(List.cons.inj h₅).1] at hmem hx
          exact absurd (h₆ y List.mem_cons_self) hx

/-- The server takes the first message of the line. -/
theorem Inv.taken (h : Inv T w) {x : Origin × Msg} {rest : List (Origin × Msg)}
    {task : Option Task} {skipping : Bool} {dropped : Nat} (hto : w.toServer = x :: rest)
    (hphase : Phase T { w with
      toServer := rest
      task := task
      skipping := skipping
      dropped := dropped })
    (hcount : atServer task + dropped = atServer w.task + forth [x] + w.dropped)
    (hdropped : w.dropped ≤ dropped)
    (hwork : (skipping = true ∨ ∃ o, task = some ⟨o, false⟩) → x.2.tag ≠ 'S' ∧ SyncAhead w)
    (hsent : w.task = some ⟨.client, true⟩ → task = some ⟨.client, true⟩)
    (hsync : x.2.tag = 'S' → task = some ⟨.client, true⟩)
    (hnumbered : ∀ t n, task = some t → t.origin = .own n → n ≤ w.asked) :
    Inv T { w with toServer := rest, task := task, skipping := skipping, dropped := dropped } := by
  have hsub {y : Origin × Msg} (hy : y ∈ rest) : y ∈ w.toServer :=
    hto ▸ List.mem_cons_of_mem _ hy
  have hline : line w = x :: (rest ++ pending w.up) := by rw [line, hto]; rfl
  have hforth : forth w.toServer = forth [x] + forth rest := by rw [hto, forth_cons]
  have hahead (htag : x.2.tag ≠ 'S') (hw : SyncAhead w) :
      w.unsynced = true ∨ ∃ y ∈ rest ++ pending w.up, y.2.tag = 'S' := by
    rcases hw with hu | ⟨y, hy, hS⟩
    · exact .inl hu
    · rw [hline] at hy
      rcases List.mem_cons.mp hy with rfl | hy
      · exact absurd hS htag
      · exact .inr ⟨y, hy, hS⟩
  have hbatch := h.batch
  rw [hline] at hbatch
  have hold := h.count
  rw [owed_eq, hforth] at hold
  refine ⟨?_, h.counting, h.leaving, hbatch.2,
    fun hw => hahead (hwork hw).1 (hwork hw).2, ?_, fun y hy => h.query y (hsub hy), h.voice, h.idle,
    fun hasks => ?_, ?_, h.relayed, hphase⟩
  · rw [owed_eq]
    dsimp only
    omega
  · refine h.sent.mono fun hu => ?_
    rcases hu with hu | hu
    · exact .inl (hsent hu)
    · by_cases htag : x.2.tag = 'S'
      · exact .inl (hsync htag)
      · exact .inr (hahead htag hu)
  · obtain ⟨hun, howed⟩ := h.quiet hasks
    rw [owed_eq, hforth] at howed
    refine ⟨hun, ?_⟩
    rw [owed_eq]
    dsimp only
    omega
  · refine ⟨fun y hy n hn => ?_, hnumbered⟩
    rcases List.mem_append.mp hy with hy | hy
    · exact h.numbered.1 y (List.mem_append_left _ (hsub hy)) n hn
    · exact h.numbered.1 y (List.mem_append_right _ hy) n hn

theorem tag_ne_sync {m : Msg} (h : isRequest m = false) : m.tag ≠ 'S' := by
  intro hS
  simp [isRequest, hS] at h

theorem Inv.client_of_not_request (h : Inv T w) {x : Origin × Msg} (hx : x ∈ w.toServer)
    (hreq : isRequest x.2 = false) : x.1 = .client := by
  by_contra hne
  simp [isRequest, h.query x hx hne] at hreq

theorem Inv.feed (h : Inv T w) {x : Origin × Msg} {rest : List (Origin × Msg)}
    (hto : w.toServer = x :: rest) (hreq : isRequest x.2 = false) :
    Inv T { w with toServer := rest } := by
  have hclient := h.client_of_not_request (hto ▸ List.mem_cons_self) hreq
  refine h.taken hto (h.phase.pop_client hto hclient (.inl rfl)) ?_ (Nat.le_refl _)
    (fun hw => ⟨tag_ne_sync hreq, h.work hw⟩) id
    (fun hS => absurd hS (tag_ne_sync hreq)) h.numbered.2
  rw [forth_other fun _ => hreq, Nat.add_zero]

theorem Inv.serve_discarded (h : Inv T w) {x : Origin × Msg} {rest : List (Origin × Msg)}
    (hto : w.toServer = x :: rest) (hskip : w.skipping = true) (htag : x.2.tag ≠ 'S') :
    Inv T { w with
      toServer := rest
      dropped := if x.1 = .client ∧ isRequest x.2 then w.dropped + 1 else w.dropped } := by
  refine h.taken hto ?_ ?_ ?_ (fun hw => ⟨htag, h.work (.inl hskip)⟩) id
    (fun hS => absurd hS htag) h.numbered.2
  · by_cases hx : x.1 = .client
    · exact h.phase.pop_client hto hx (.inl rfl)
    · rcases h.phase.pop_own hto hx with hc | ⟨hasks, -⟩
      · exact .lost hc
      · exact absurd hskip (by simp [(h.still hasks).1])
  · obtain ⟨o, m⟩ := x
    by_cases hlost : o = .client ∧ isRequest m = true
    · rw [if_pos hlost, hlost.1, forth_request m hlost.2]
      omega
    · rw [if_neg hlost, forth_other fun hc => by simpa using not_and.mp hlost hc, Nat.add_zero]
  · split_ifs
    · exact Nat.le_succ _
    · exact Nat.le_refl _

theorem Inv.serve_request (h : Inv T w) {x : Origin × Msg} {rest : List (Origin × Msg)}
    (hidle : w.task = none) (hto : w.toServer = x :: rest) (hreq : isRequest x.2 = true) :
    Inv T { w with toServer := rest, task := some ⟨x.1, true⟩, skipping := false } := by
  have hmem : x ∈ w.toServer := hto ▸ List.mem_cons_self
  have hnone : atServer w.task = 0 := by rw [hidle]; rfl
  refine h.taken hto ?_ ?_ (Nat.le_refl _) (fun hw => ?_) (fun hw => ?_) (fun hS => ?_) ?_
  · by_cases hx : x.1 = .client
    · refine h.phase.pop_client hto hx (.inr ⟨hidle, ?_⟩)
      rintro t ⟨⟩
      exact hx
    · rcases h.phase.pop_own hto hx with hc | ⟨-, -, hphase⟩
      · exact .lost hc
      · exact hphase false
  · rw [hnone]
    obtain ⟨o, m⟩ := x
    by_cases hx : o = .client
    · rw [hx, forth_request m hreq]
      simp [atServer]
    · rw [forth_other fun hc => absurd hc hx]
      simp [atServer, hx]
  · rcases hw with hw | ⟨o, hw⟩
    · cases hw
    · cases hw
  · rw [hidle] at hw
    cases hw
  · have hx : x.1 = .client := by
      by_contra hne
      have hQ := h.query x hmem hne
      rw [hS] at hQ
      cases hQ
    rw [hx]
  · rintro t n ⟨⟩ hn
    exact h.numbered.1 x (List.mem_append_left _ hmem) n hn

theorem Inv.serve_batch (h : Inv T w) {x : Origin × Msg} {rest : List (Origin × Msg)}
    (hidle : w.task = none) (hto : w.toServer = x :: rest) (hreq : isRequest x.2 = false)
    (hbatch : isBatch x.2 = true) :
    Inv T { w with toServer := rest, task := some ⟨x.1, false⟩ } := by
  have hmem : x ∈ w.toServer := hto ▸ List.mem_cons_self
  have hnone : atServer w.task = 0 := by rw [hidle]; rfl
  have hclient := h.client_of_not_request hmem hreq
  have hline : line w = x :: (rest ++ pending w.up) := by rw [line, hto]; rfl
  have hahead : SyncAhead w := by
    have hold := h.batch
    rw [hline] at hold
    rcases hold.1 hbatch with hu | ⟨y, hy, hS⟩
    · exact .inl hu
    · exact .inr ⟨y, hline ▸ List.mem_cons_of_mem _ hy, hS⟩
  refine h.taken hto ?_ ?_ (Nat.le_refl _) (fun _ => ⟨tag_ne_sync hreq, hahead⟩) (fun hw => ?_)
    (fun hS => absurd hS (tag_ne_sync hreq)) ?_
  · refine h.phase.pop_client hto hclient (.inr ⟨hidle, ?_⟩)
    rintro t ⟨⟩
    exact hclient
  · rw [hnone, forth_other fun _ => hreq]
    simp [atServer]
  · rw [hidle] at hw
    cases hw
  · rintro t n ⟨⟩ hn
    exact h.numbered.1 x (List.mem_append_left _ hmem) n hn

theorem Inv.serve (h : Inv T w) {x : Origin × Msg} {rest : List (Origin × Msg)}
    (hidle : w.task = none) (hto : w.toServer = x :: rest) : Inv T (w.serve x rest) := by
  unfold World.serve
  by_cases hskip : w.skipping ∧ x.2.tag ≠ 'S'
  · rw [if_pos hskip]
    exact h.serve_discarded hto hskip.1 hskip.2
  · rw [if_neg hskip]
    by_cases hreq : isRequest x.2 = true
    · rw [if_pos hreq]
      have hno : (if x.2.tag = 'S' then false else w.skipping) = false := by
        split_ifs with hS
        · rfl
        · by_contra hne
          exact hskip ⟨by simpa using hne, hS⟩
      rw [hno]
      exact h.serve_request hidle hto hreq
    · rw [if_neg hreq]
      have hreq' : isRequest x.2 = false := by simpa using hreq
      by_cases hbatch : isBatch x.2 = true
      · rw [if_pos hbatch]
        exact h.serve_batch hidle hto hreq' hbatch
      · rw [if_neg hbatch]
        exact h.feed hto hreq'

/-- What the server says to the client, or to the question it is at. -/
theorem Phase.emit (h : Phase T w) {o : Origin} {m : Msg}
    (ho : o = .client ∨ w.task = some ⟨o, true⟩ ∧ m.tag ≠ 'Z') : Phase T (w.emit o m) := by
  have hfrom (hold : ∀ x ∈ w.fromServer, x.1 = .client) (hc : o = .client) :
      ∀ x ∈ w.fromServer ++ [(o, m)], x.1 = .client := by
    intro x hx
    rcases List.mem_append.mp hx with hx | hx
    · exact hold x hx
    · rw [List.mem_singleton.mp hx]
      exact hc
  have hown (n : Nat) (l : List (Origin × Msg)) (hc : o = .client) :
      ofOrigin (.own n) (l ++ [(o, m)]) = ofOrigin (.own n) l := by
    rw [ofOrigin_append, ofOrigin_ne (by simp [hc]), List.append_nil]
  have hclient (hold : ∀ t, w.task = some t → t.origin = .client) : o = .client := by
    rcases ho with hc | ⟨ht, -⟩
    · exact hc
    · exact hold _ ht
  cases h with
  | lost hc => exact .lost hc
  | away h₁ h₂ h₃ h₄ h₅ =>
      exact .away h₁ h₂ h₃ h₄ ⟨h₅.1, hfrom h₅.2 (hclient h₅.3), h₅.3⟩
  | about h₁ h₂ h₃ h₄ h₅ h₆ =>
      exact .about h₁ h₂ h₃ h₄ ⟨h₅.1, hfrom h₅.2 (hclient h₅.3), h₅.3⟩
        ((hown _ _ (hclient h₅.3)).trans h₆)
  | queued h₁ h₂ h₃ h₄ h₅ h₆ h₇ h₈ h₉ =>
      exact .queued h₁ h₂ h₃ h₄ h₅ h₆ (hfrom h₇ (hclient h₈)) h₈ ((hown _ _ (hclient h₈)).trans h₉)
  | served h₁ h₂ h₃ h₄ h₅ h₆ h₇ h₈ =>
      have horigin : o = .client ∨ o = .own w.asked ∧ m.tag ≠ 'Z' := by
        rcases ho with hc | ⟨ht, hno⟩
        · exact .inl hc
        · rw [h₅] at ht
          cases ht
          exact .inr ⟨rfl, hno⟩
      have hfrom' : ∀ x ∈ w.fromServer ++ [(o, m)], x.1 = .client ∨ x.1 = .own w.asked := by
        intro x hx
        rcases List.mem_append.mp hx with hx | hx
        · exact h₆ x hx
        · rw [List.mem_singleton.mp hx]
          exact horigin.imp_right And.left
      rcases horigin with hc | ⟨rfl, hno⟩
      · refine .served h₁ h₂ h₃ h₄ h₅ hfrom' ?_ ?_
        · exact ((congrArg (_ ++ ·) (hown _ _ hc)).trans h₇).trans (hown _ _ hc).symm
        · exact (hown w.asked w.emitted hc).symm ▸ h₈
      · have hem : ofOrigin (.own w.asked) (w.emitted ++ [(Origin.own w.asked, m)]) =
            ofOrigin (.own w.asked) w.emitted ++ [m] := by
          rw [ofOrigin_append, ofOrigin_self]
        refine .served h₁ h₂ h₃ h₄ h₅ hfrom' ?_ ?_
        · refine Eq.trans ?_ hem.symm
          rw [← h₇, List.append_assoc]
          exact congrArg (_ ++ ·) (by rw [World.emit, ofOrigin_append, ofOrigin_self])
        · intro k hk
          rcases List.mem_append.mp (hem ▸ hk) with hk | hk
          · exact h₈ k hk
          · rw [List.mem_singleton.mp hk]
            exact hno
  | replied h₁ h₂ h₃ h₄ h₅ h₆ h₇ h₈ h₉ h₁₀ h₁₁ =>
      have hc := hclient h₅
      refine .replied h₁ h₂ h₃ h₄ h₅ (fun x hx => ?_) h₇ ((hown _ _ hc).trans h₈)
        ((hown _ _ hc).trans h₉) h₁₀ h₁₁
      rcases List.mem_append.mp hx with hx | hx
      · exact h₆ x hx
      · rw [List.mem_singleton.mp hx]
        exact .inl hc
  | held h₁ h₂ h₃ h₄ h₅ h₆ =>
      exact .held h₁ h₂ h₃ h₄ ⟨h₅.1, hfrom h₅.2 (hclient h₅.3), h₅.3⟩
        (h₆.trans (hown _ _ (hclient h₅.3)).symm)

/-- The request the server was at is over, unless it is the question. -/
theorem Phase.clear (h : Phase T w) {skipping : Bool}
    (htask : w.task ≠ some ⟨.own w.asked, true⟩) :
    Phase T { w with task := none, skipping := skipping } := by
  cases h with
  | lost hc => exact .lost hc
  | away h₁ h₂ h₃ h₄ h₅ => exact .away h₁ h₂ h₃ h₄ ⟨h₅.1, h₅.2, by simp⟩
  | about h₁ h₂ h₃ h₄ h₅ h₆ => exact .about h₁ h₂ h₃ h₄ ⟨h₅.1, h₅.2, by simp⟩ h₆
  | queued h₁ h₂ h₃ h₄ h₅ h₆ h₇ _ h₉ => exact .queued h₁ h₂ h₃ h₄ h₅ h₆ h₇ (by simp) h₉
  | served _ _ _ _ h₅ => exact absurd h₅ htask
  | replied h₁ h₂ h₃ h₄ _ h₆ h₇ h₈ h₉ h₁₀ h₁₁ =>
      exact .replied h₁ h₂ h₃ h₄ (by simp) h₆ h₇ h₈ h₉ h₁₀ h₁₁
  | held h₁ h₂ h₃ h₄ h₅ h₆ => exact .held h₁ h₂ h₃ h₄ ⟨h₅.1, h₅.2, by simp⟩ h₆

theorem Phase.own_task (h : Phase T w) {t : Task} (ht : w.task = some t)
    (hne : t.origin ≠ .client) : w.st.closed = true ∨ t = ⟨.own w.asked, true⟩ := by
  cases h with
  | lost hc => exact .inl hc
  | away _ _ _ _ h₅ => exact absurd (h₅.3 t ht) hne
  | about _ _ _ _ h₅ => exact absurd (h₅.3 t ht) hne
  | queued _ _ _ _ _ _ _ h₈ => exact absurd (h₈ t ht) hne
  | served _ _ _ _ h₅ => exact .inr (Option.some.inj (ht.symm.trans h₅))
  | replied _ _ _ _ h₅ => exact absurd (h₅ t ht) hne
  | held _ _ _ _ h₅ => exact absurd (h₅.3 t ht) hne

/-- The question's own speaker. -/
theorem speaker_eq (w : World) (m : Msg) : w.speaker m = .client ∨
    asynchronous m = false ∧ ∃ t, w.task = some t ∧ w.speaker m = t.origin := by
  unfold World.speaker
  cases htask : w.task with
  | none => exact .inl rfl
  | some t =>
      cases hm : asynchronous m with
      | true => exact .inl rfl
      | false => exact .inr ⟨rfl, t, rfl, rfl⟩

theorem Inv.emit (h : Inv T w) {m : Msg} (hz : m.tag ≠ 'Z')
    (hm : asynchronous m = true ∨ w.task.isSome) : Inv T (w.emit (w.speaker m) m) := by
  have hspeaker := speaker_eq w m
  generalize ho : w.speaker m = o at hspeaker
  have hback : back (w.fromServer ++ [(o, m)]) = back w.fromServer := by
    rw [back_append, back_other fun _ => hz, Nat.add_zero]
  refine ⟨?_, h.counting, h.leaving, h.batch, h.work, ?_, h.query, fun x hx hne => ?_, h.idle,
    fun hasks => ?_, ?_, ?_, ?_⟩
  · have hcount := h.count
    rw [owed_eq, ← hback] at hcount
    exact hcount
  · refine h.sent.append .inl ?_
    rintro ⟨hc, hasync, -⟩
    obtain ⟨t, ht⟩ := Option.isSome_iff_exists.mp (hm.resolve_left (by simp [hasync]))
    have horigin : t.origin = .client := by
      simp only [World.speaker, ht, hasync, Bool.false_eq_true, if_false] at ho
      exact ho.trans hc
    obtain ⟨origin, ready⟩ := t
    obtain rfl : origin = .client := horigin
    cases ready with
    | true => exact .inl ht
    | false => exact .inr (h.work (.inr ⟨_, ht⟩))
  · rcases List.mem_append.mp hx with hx | hx
    · exact h.voice x hx hne
    · rw [List.mem_singleton.mp hx] at hne ⊢
      exact (hspeaker.resolve_left hne).1
  · have hquiet := h.quiet hasks
    rw [owed_eq, ← hback] at hquiet
    exact hquiet
  · refine ⟨fun x hx n hn => ?_, h.numbered.2⟩
    rcases List.mem_append.mp hx with hx | hx
    · exact h.numbered.1 x (List.mem_append_left _ hx) n hn
    · rcases List.mem_append.mp hx with hx | hx
      · exact h.numbered.1 x (List.mem_append_right _ hx) n hn
      · rw [List.mem_singleton.mp hx] at hn
        rcases hspeaker with hc | ⟨-, t, ht, horigin⟩
        · cases hc.symm.trans hn
        · exact h.numbered.2 t n ht (horigin.symm.trans hn)
  · have hrelayed := h.relayed
    simp only [World.emit, ofOrigin_append, ← List.append_assoc]
    exact congrArg (· ++ ofOrigin .client [(o, m)]) hrelayed
  · rcases hspeaker with hc | ⟨-, t, ht, horigin⟩
    · exact h.phase.emit (.inl hc)
    · by_cases hc : o = .client
      · exact h.phase.emit (.inl hc)
      · rcases h.phase.own_task ht (horigin ▸ hc) with hclosed | hown
        · exact .lost hclosed
        · refine h.phase.emit (.inr ⟨?_, hz⟩)
          rw [ht, horigin, hown]

theorem Inv.finish (h : Inv T w) {o : Origin} {failed : Bool} (htask : w.task = some ⟨o, false⟩) :
    Inv T { w with task := none, skipping := failed } := by
  have hahead := h.work (.inr ⟨o, htask⟩)
  have hserver : atServer w.task = 0 := by rw [htask]; simp [atServer]
  refine ⟨?_, h.counting, h.leaving, h.batch, fun _ => hahead, h.sent.mono fun _ => .inr hahead,
    h.query, h.voice, h.idle, fun hasks => ?_, ⟨h.numbered.1, by simp⟩, h.relayed,
    h.phase.clear (by rw [htask]; simp)⟩
  · have hcount := h.count
    rw [owed_eq, hserver] at hcount
    exact hcount
  · have hquiet := h.quiet hasks
    rw [owed_eq, hserver] at hquiet
    exact hquiet

theorem Inv.ready (h : Inv T w) {o : Origin} {status : Bytes} (htask : w.task = some ⟨o, true⟩) :
    Inv T { w.emit o ⟨'Z', status⟩ with task := none } := by
  have hback : back (w.fromServer ++ [(o, ⟨'Z', status⟩)]) = back w.fromServer + atServer w.task := by
    rw [back_append, htask]
    by_cases hc : o = .client
    · rw [hc, back_ready _ rfl]
      simp [atServer]
    · rw [back_other fun hc' => absurd hc' hc]
      simp [atServer, hc]
  have hnone : atServer none = 0 := rfl
  refine ⟨?_, h.counting, h.leaving, h.batch, fun hw => ?_, ?_, h.query, fun x hx hne => ?_, h.idle,
    fun hasks => ?_, ⟨?_, by simp⟩, ?_, ?_⟩
  · have hcount := h.count
    rw [owed_eq] at hcount
    rw [owed_eq]
    simp only [World.emit, hback, hnone]
    omega
  · exact h.work (.inl (hw.resolve_right (by simp)))
  · refine h.sent.append (fun hu => ?_) fun hp => absurd rfl hp.2.2
    rcases hu with hu | hu
    · rw [htask] at hu
      cases hu
      exact .inr ⟨rfl, rfl⟩
    · exact .inl (.inr hu)
  · rcases List.mem_append.mp hx with hx | hx
    · exact h.voice x hx hne
    · rw [List.mem_singleton.mp hx]
      rfl
  · obtain ⟨hun, howed⟩ := h.quiet hasks
    rw [owed_eq] at howed
    refine ⟨hun, ?_⟩
    rw [owed_eq]
    simp only [World.emit, hback, hnone]
    omega
  · intro x hx n hn
    rcases List.mem_append.mp hx with hx | hx
    · exact h.numbered.1 x (List.mem_append_left _ hx) n hn
    · rcases List.mem_append.mp hx with hx | hx
      · exact h.numbered.1 x (List.mem_append_right _ hx) n hn
      · rw [List.mem_singleton.mp hx] at hn
        exact h.numbered.2 _ n htask hn
  · have hrelayed := h.relayed
    simp only [World.emit, ofOrigin_append, ← List.append_assoc]
    exact congrArg (· ++ ofOrigin .client [(o, ⟨'Z', status⟩)]) hrelayed
  · by_cases hc : o = .client
    · have hclient : w.task = some ⟨.client, true⟩ := hc ▸ htask
      refine (h.phase.emit (.inl hc)).clear ?_
      rw [World.emit, hclient]
      simp
    · cases h.phase with
      | lost h₁ => exact .lost h₁
      | away _ _ _ _ h₅ => exact absurd (h₅.3 _ htask) hc
      | about _ _ _ _ h₅ => exact absurd (h₅.3 _ htask) hc
      | queued _ _ _ _ _ _ _ h₈ => exact absurd (h₈ _ htask) hc
      | replied _ _ _ _ h₅ => exact absurd (h₅ _ htask) hc
      | held _ _ _ _ h₅ => exact absurd (h₅.3 _ htask) hc
      | served h₁ h₂ h₃ h₄ h₅ h₆ h₇ h₈ =>
          obtain ⟨rfl, -⟩ := Task.mk.inj (Option.some.inj (htask.symm.trans h₅))
          have hsplit (l : List (Origin × Msg)) :
              ofOrigin (.own w.asked) (l ++ [(Origin.own w.asked, ⟨'Z', status⟩)]) =
                ofOrigin (.own w.asked) l ++ [⟨'Z', status⟩] := by
            rw [ofOrigin_append, ofOrigin_self]
          refine .replied h₁ h₂ h₃ h₄ (by simp) (fun x hx => ?_) rfl (hsplit _) ?_ rfl
            fun k hk => h₈ k (h₇ ▸ List.mem_append_right _ hk)
          · rcases List.mem_append.mp hx with hx | hx
            · exact h₆ x hx
            · rw [List.mem_singleton.mp hx]
              exact .inr rfl
          · refine (hsplit _).trans ?_
            rw [← h₇, List.append_assoc]
            rfl

end Server

section Runs

variable {T : Texts} {w w' : World}

theorem Inv.start : Inv T .start where
  count := rfl
  counting _ h := by cases h
  leaving _ h := by cases h
  batch := trivial
  work h := by simp [World.start] at h
  sent := trivial
  query _ h := absurd h List.not_mem_nil
  voice _ h := absurd h List.not_mem_nil
  idle _ h := by cases h
  quiet h := absurd h (not_asks (by simp [World.start]) (by simp [World.start]))
  numbered := by
    refine ⟨by simp [World.start], ?_⟩
    rintro t n ⟨⟩ hn
    cases hn
  relayed := rfl
  phase := .away (not_asks (by simp [World.start]) (by simp [World.start])) rfl rfl rfl
    ⟨by simp [World.start], by simp [World.start], by simp [World.start]⟩

theorem Inv.step (h : Inv T w) (hstep : Step T w w') : Inv T w' := by
  cases hstep with
  | read m hup => exact h.read m hup
  | count hup => exact h.count_step hup
  | write hup => exact h.write hup
  | leave hup => exact h.leave hup
  | idle hup hzero _ => exact h.idle_step hup hzero
  | question hup => exact h.question hup
  | resume hup hl => exact h.resume hup hl
  | refuse hup => exact h.refuse hup
  | quit hup hc => exact h.quit hup hc
  | receive hopen hdown hfrom => exact h.receive hopen hdown hfrom
  | deliver _ hdown => exact h.deliver hdown
  | close => exact h.close
  | serve hidle hto => exact h.serve hidle hto
  | feed _ hto hreq _ => exact h.feed hto hreq
  | emit m hz hm => exact h.emit hz hm
  | ready status htask => exact h.ready htask
  | finish failed htask => exact h.finish htask

/-- Every interleaving keeps the invariant. -/
theorem inv_of_reachable (h : Reachable T w) : Inv T w := by
  induction h with
  | start => exact .start
  | step _ hstep ih => exact ih.step hstep

end Runs

end OntologicalDb.GatewayInvariant
