import Mathlib.Data.List.Basic
import OntologicalDb.BoltSession

/-!
What a session owes its client for the results it opens, and the sessions that pay it.
-/

namespace OntologicalDb.BoltStreaming

open OntologicalDb.FallibleState
open OntologicalDb.PackStream (Value)
open OntologicalDb.BoltSession

variable {ω : Type} (B : Backend ω) (config : Config)

/-- What was sent over the connection between two sessions. -/
def sent_between (before after : Session ω) : List (Sent ω) :=
  match after.pg with
  | none => []
  | some c => c.sent.drop ((before.pg.map fun c => c.sent.length).getD 0)

/-- The rows of the query among what was sent, in the order of its columns; a plan has none. -/
def rows_of (columns : List String) : List (Sent ω) → List Value
  | [] => []
  | ⟨.og_cypher_columns _, .ok columns, _⟩ :: sent => rows_of columns sent
  | ⟨.og_cypher _ _ _, .ok rows, _⟩ :: _ => (records B columns rows).2
  | _ :: sent => rows_of columns sent

/-- What the client has heard. -/
structure Account where
  failed : Bool
  tx : Bool
  /-- Of an open result, the rows neither delivered nor discarded. -/
  result : Option (List Value)

def Account.start : Account where
  failed := false
  tx := false
  result := none

def Succeeds (written : List Value) : Prop :=
  ∃ metadata, written = [.struct SUCCESS [metadata]]

def Fails (written : List Value) : Prop :=
  ∃ metadata, written = [.struct FAILURE [metadata]]

def HasMore (metadata : Value) : Prop :=
  metadata.map_get "has_more" = some (.bool true)

/-- How many of the remaining rows a PULL or DISCARD asks for: a negative number asks for all. -/
def asked (fields : List Value) (rest : List Value) : Nat :=
  let n := ((((fields.getLast?.getD .null).map_get "n").bind Value.as_i64).getD (-1)).toInt
  if n < 0 then rest.length else min n.toNat rest.length

/-- A summary says whether rows remain behind those taken. -/
def Taken (delivered : List Value) (rest : List Value) (written : List Value) : Prop :=
  ∃ metadata, written = delivered.map (fun r => Value.struct RECORD [r]) ++ [Value.struct SUCCESS [metadata]] ∧
    (HasMore metadata ↔ rest ≠ [])

/-- The messages that are not legal where no result is open. -/
def Unready (a : Account) (sig : UInt8) : Prop :=
  sig = PULL ∨ sig = DISCARD ∨ (sig = BEGIN ∧ a.tx = true) ∨
    ((sig = COMMIT ∨ sig = ROLLBACK) ∧ a.tx = false)

/-- The messages that are not legal while a result is open. -/
def Unstreamed (sig : UInt8) : Prop :=
  sig = RUN ∨ sig = BEGIN ∨ sig = COMMIT ∨ sig = ROLLBACK

/-- What the answer to a message has to be. -/
def Answered (a : Account) (e : Exchange ω) : Prop :=
  ∀ sig fields, e.msg = .struct sig fields →
    (sig = RESET → Succeeds e.written) ∧
    (a.failed = true → sig ≠ RESET → e.written = [.struct IGNORED []]) ∧
    (a.failed = false → ∀ rest, a.result = some rest →
      (sig = PULL →
        Taken (rest.take (asked fields rest)) (rest.drop (asked fields rest)) e.written) ∧
      (sig = DISCARD → Taken [] (rest.drop (asked fields rest)) e.written) ∧
      (Unstreamed sig → Fails e.written)) ∧
    (a.failed = false → a.result = none → Unready a sig → Fails e.written)

/-- Whether the answer is a failure. -/
def refused (written : List Value) : Bool :=
  match written with
  | [.struct sig _] => sig = FAILURE
  | _ => false

/-- The account after a message and its answer. -/
def Account.next (a : Account) (e : Exchange ω) : Account :=
  match e.msg with
  | .struct sig fields =>
      if sig = RESET then .start
      else if a.failed then a
      else if refused e.written then { a with failed := true }
      else if sig = RUN then
        { a with result := some (rows_of B [] (sent_between e.before e.after)) }
      else if sig = PULL ∨ sig = DISCARD then
        let rest := a.result.getD []
        let left := rest.drop (asked fields rest)
        { a with result := if left = [] then none else some left }
      else if sig = BEGIN then { a with tx := true }
      else if sig = COMMIT ∨ sig = ROLLBACK then { a with tx := false }
      else a
  | _ => a

/-- Every message of a session is answered as it has to be. -/
def Accounted (a : Account) : List (Exchange ω) → Prop
  | [] => True
  | e :: es => Answered a e ∧ Accounted (a.next B e) es

/-! The records of a stretch of PULLs -/

/-- The records in what was written. -/
def delivered (es : List (Exchange ω)) : List Value :=
  es.flatMap fun e => e.written.filterMap fun
    | .struct sig [r] => if sig = RECORD then some r else none
    | _ => none

/-- What is sent between two sessions of one connection. -/
theorem sent_between_append {before after : Session ω} {c : Connection ω} {w : ω}
    {new : List (Sent ω)} (hbefore : before.pg = some c)
    (hafter : after.pg = some ⟨w, c.sent ++ new⟩) : sent_between before after = new := by
  unfold sent_between
  rw [hafter, hbefore]
  exact List.drop_left

/-! The handlers -/

/-- The state, the transaction and the open result are those there were. -/
structure Kept (s s' : Session ω) : Prop where
  state : s'.state = s.state
  in_tx : s'.in_tx = s.in_tx
  pending : s'.pending = s.pending
  cursor : s'.cursor = s.cursor

theorem Kept.refl (s : Session ω) : Kept s s := ⟨rfl, rfl, rfl, rfl⟩

theorem Kept.trans {s₁ s₂ s₃ : Session ω} (h : Kept s₁ s₂) (h' : Kept s₂ s₃) : Kept s₁ s₃ where
  state := h'.state.trans h.state
  in_tx := h'.in_tx.trans h.in_tx
  pending := h'.pending.trans h.pending
  cursor := h'.cursor.trans h.cursor

/-- Besides, what was sent is known. -/
structure Sofar (c : Connection ω) (s : Session ω) (new : List (Sent ω)) (s' : Session ω) : Prop
    extends Kept s s' where
  pg : ∃ w, s'.pg = some ⟨w, c.sent ++ new⟩

/-- Statements that read no rows. -/
def Quiet (new : List (Sent ω)) : Prop :=
  ∀ columns rest, rows_of B columns (new ++ rest) = rows_of B columns rest

theorem quiet_nil : Quiet B ([] : List (Sent ω)) := by
  intro columns rest
  rfl

theorem Quiet.append {new new' : List (Sent ω)} (h : Quiet B new) (h' : Quiet B new') :
    Quiet B (new ++ new') := by
  intro columns rest
  rw [List.append_assoc, h, h']

theorem quiet_failed {st : Statement} {message : String} {w : ω} :
    Quiet B [⟨st, .error message, w⟩] := by
  intro columns rest
  cases st <;> rfl

variable {c : Connection ω} {s s' : Session ω} {new : List (Sent ω)}

theorem Sofar.start (hpg : s.pg = some c) : Sofar c s [] s where
  toKept := .refl s
  pg := ⟨c.state, by rw [List.append_nil, hpg]⟩

theorem Sofar.sent {s'' : Session ω} (h : Sofar c s new s') {e : Sent ω} {w : ω}
    (hs : s'' = { s' with pg := some ⟨w, c.sent ++ new ++ [e]⟩ }) : Sofar c s (new ++ [e]) s'' := by
  subst hs
  exact ⟨⟨h.state, h.in_tx, h.pending, h.cursor⟩, w, by rw [← List.append_assoc]⟩

theorem sofar_sql (h : Sofar c s new s') (st : Statement) :
    Ends (sql B st) (fun a s'' => ∃ w, Sofar c s (new ++ [⟨st, .ok a, w⟩]) s'')
      (fun _ s'' => ∃ message w, Sofar c s (new ++ [⟨st, .error message, w⟩]) s'') s' := by
  obtain ⟨w, hpg⟩ := h.pg
  simp only [sql, client, ends_bind, ends_get, hpg, ends_pure, ends_modify]
  split
  next a ha =>
    rw [ha]
    exact ⟨(B.answer st w).2, h.sent rfl⟩
  next message hm =>
    rw [hm]
    exact ⟨message, (B.answer st w).2, h.sent rfl⟩

/-- A statement that reads no rows, whatever its answer. -/
theorem sofar_quiet (h : Sofar c s new s') {st : Statement}
    (hquiet : ∀ a w, Quiet B [⟨st, .ok a, w⟩]) :
    Ends (sql B st) (fun _ s'' => ∃ more, Quiet B more ∧ Sofar c s (new ++ more) s'')
      (fun _ s'' => ∃ more, Quiet B more ∧ Sofar c s (new ++ more) s'') s' := by
  apply (sofar_sql B h st).imp
  · rintro a s'' ⟨w, h'⟩
    exact ⟨_, hquiet a w, h'⟩
  · rintro e s'' ⟨message, w, h'⟩
    exact ⟨_, quiet_failed B, h'⟩

theorem sofar_apply_settings (settings : List (String × String)) (h : Sofar c s new s') :
    Ends (apply_settings B settings)
      (fun _ s'' => ∃ more, Quiet B more ∧ Sofar c s (new ++ more) s'')
      (fun _ s'' => ∃ more, Quiet B more ∧ Sofar c s (new ++ more) s'') s' := by
  induction settings generalizing new s' with
  | nil =>
      refine ⟨[], quiet_nil B, ?_⟩
      rwa [List.append_nil]
  | cons entry settings ih =>
      have hquiet : ∀ a w, Quiet B [⟨.set_config entry.1 entry.2, .ok a, w⟩] := by
        intro a w columns rest
        rfl
      rw [apply_settings, ends_bind]
      apply (sofar_quiet B h hquiet).imp
      · rintro - s'' ⟨more, hmore, h'⟩
        apply (ih h').imp
        · rintro - s₃ ⟨more', hmore', h''⟩
          rw [List.append_assoc] at h''
          exact ⟨more ++ more', hmore.append B hmore', h''⟩
        · rintro e s₃ ⟨more', hmore', h''⟩
          rw [List.append_assoc] at h''
          exact ⟨more ++ more', hmore.append B hmore', h''⟩
      · intro e s'' h'
        exact h'

/-- Sent so far, the rows of the query are among it. -/
def Fetched (c : Connection ω) (s : Session ω) (new : List (Sent ω)) (rows : List (Option String))
    (s' : Session ω) : Prop :=
  ∃ more, (∀ columns rest, rows_of B columns (more ++ rest) = (records B columns rows).2) ∧
    Sofar c s (new ++ more) s'

theorem fetched_og_cypher (h : Sofar c s new s') (graph query : String) (params : Json) :
    Ends (sql B (.og_cypher graph query params)) (fun rows s'' => Fetched B c s new rows s'')
      (fun _ s'' => ∃ more, Sofar c s (new ++ more) s'') s' := by
  apply (sofar_sql B h _).imp
  · rintro rows s'' ⟨w, h'⟩
    exact ⟨_, fun columns rest => rfl, h'⟩
  · rintro e s'' ⟨message, w, h'⟩
    exact ⟨_, h'⟩

theorem Fetched.quiet {before : List (Sent ω)} {rows : List (Option String)}
    (hbefore : Quiet B before) (h : Fetched B c s (new ++ before) rows s') :
    Fetched B c s new rows s' := by
  obtain ⟨more, hrows, h'⟩ := h
  rw [List.append_assoc] at h'
  refine ⟨before ++ more, ?_, h'⟩
  intro columns rest
  rw [List.append_assoc, hbefore, hrows]

theorem fetched_commit {rows : List (Option String)} (h : Fetched B c s new rows s') :
    Ends (sql B .commit) (fun _ s'' => Fetched B c s new rows s'') (fun _ _ => True) s' := by
  obtain ⟨more, hrows, h⟩ := h
  apply (sofar_sql B h .commit).imp
  · rintro a s'' ⟨w, h'⟩
    rw [List.append_assoc] at h'
    refine ⟨_, ?_, h'⟩
    intro columns rest
    rw [List.append_assoc, hrows]
  · intro e s'' _
    trivial

/-- A program that fails where another one did. -/
theorem ends_rollback {α : Type} {e : Halt} {Q : α → Session ω → Prop} :
    Ends (do
      let _ ← attempt (sql B .rollback)
      throw e : SessionM ω α) Q (fun _ _ => True) s := by
  simp only [ends_bind, ends_attempt, ends_throw]
  unfold Ends
  split <;> trivial

theorem fetched_execute (h : Sofar c s new s') (extra : Value) (query : String) (params : Json) :
    Ends (execute B extra query params) (fun rows s'' => Fetched B c s new rows s'')
      (fun _ _ => True) s' := by
  unfold execute
  rw [ends_bind, ends_get]
  dsimp only
  generalize (if s'.in_tx then [] else tx_settings B extra) = own
  split
  · apply (fetched_og_cypher B h _ _ _).imp
    · intro rows s'' h'
      exact h'
    · intro e s'' _
      trivial
  · have hbegin : ∀ a w, Quiet B [⟨.begin, .ok a, w⟩] := by
      intro a w columns rest
      rfl
    rw [ends_bind]
    apply (sofar_quiet B h hbegin).imp
    · rintro - s₁ ⟨more, hmore, h₁⟩
      rw [ends_bind, ends_attempt]
      apply (sofar_apply_settings B _ h₁).imp
      · rintro - s₂ ⟨more', hmore', h₂⟩
        simp only
        rw [ends_bind, ends_attempt]
        apply (fetched_og_cypher B h₂ _ _ _).imp
        · intro rows s₃ h₃
          simp only
          rw [ends_bind]
          apply (fetched_commit B ((h₃.quiet B hmore').quiet B hmore)).imp
          · intro _ s₄ h₄
            exact h₄
          · intro e s₄ _
            trivial
        · intro e s₃ _
          simp only
          exact ends_rollback B
      · intro e s₂ _
        simp only
        exact ends_rollback B
    · intro e s₁ _
      trivial

theorem sofar_select_graph (h : Sofar c s new s') (extra : Value) :
    Ends (select_graph config extra) (fun _ s'' => Sofar c s new s'') (fun _ _ => False) s' := by
  unfold select_graph
  rw [ends_modify]
  split
  · exact ⟨⟨h.state, h.in_tx, h.pending, h.cursor⟩, h.pg⟩
  · split
    · exact h
    · exact ⟨⟨h.state, h.in_tx, h.pending, h.cursor⟩, h.pg⟩

theorem sofar_is_write (h : Sofar c s new s') (query : String) :
    Ends (is_write B query) (fun _ s'' => ∃ more, Quiet B more ∧ Sofar c s (new ++ more) s'')
      (fun _ _ => True) s' := by
  have hcheck : ∀ a w, Quiet B [⟨.og_cypher_check query, .ok a, w⟩] := by
    intro a w columns rest
    rfl
  rw [is_write, ends_bind]
  apply (sofar_quiet B h hcheck).imp
  · rintro raw s'' h'
    dsimp only
    split
    · exact h'
    · trivial
  · intro e s'' _
    trivial

/-- A result is open, and none of its rows has been taken. -/
def Opened (s : Session ω) (rows : List Value) (s' : Session ω) : Prop :=
  s'.state = .Streaming ∧ s'.cursor = 0 ∧ s'.in_tx = s.in_tx ∧ s'.pending = rows

theorem opened_open_result (h : Sofar c s new s') (fields : List String) (rows : List Value) :
    Ends (open_result fields rows)
      (fun _ s'' => Opened s rows s'' ∧ ∃ w, s''.pg = some ⟨w, c.sent ++ new⟩)
      (fun _ _ => False) s' := by
  rw [open_result, ends_bind, ends_modify, ends_pure]
  exact ⟨⟨rfl, rfl, h.in_tx, rfl⟩, h.pg⟩

/-- What follows the verdict on a query that is no plan. -/
theorem queried_opens (hpg : s.pg = some c) (hquiet : Quiet B new) (h : Sofar c s new s')
    (extra : Value) (query : String) (params : Json) :
    Ends (do
        let columns ← sql B (.og_cypher_columns query)
        let rows ← execute B extra query params
        open_result (records B columns rows).1 (records B columns rows).2)
      (fun _ s'' => Opened s (rows_of B [] (sent_between s s'')) s'') (fun _ _ => True) s' := by
  rw [ends_bind]
  apply (sofar_sql B h _).imp
  · rintro columns s₁ ⟨w, h₁⟩
    rw [ends_bind]
    apply (fetched_execute B h₁ extra query params).imp
    · rintro rows s₂ ⟨more, hrows, h₂⟩
      apply (opened_open_result h₂ _ _).imp
      · rintro metadata s₃ ⟨hopened, w', hpg₃⟩
        rw [List.append_assoc] at hpg₃
        have hall : rows_of B [] (new ++ ([⟨.og_cypher_columns query, .ok columns, w⟩] ++ more)) =
            (records B columns rows).2 := by
          have hmore := hrows columns []
          rw [List.append_nil] at hmore
          rw [hquiet]
          exact hmore
        rw [sent_between_append hpg hpg₃, hall]
        exact hopened
      · intro e s₃ h₃
        exact h₃.elim
    · intro e s₂ _
      trivial
  · intro e s₁ _
    trivial

/-- An accepted RUN opens a result with the rows the query was answered with. -/
theorem run_query_opens (hpg : s.pg = some c) (fields : List Value) :
    Ends (run_query B config fields)
      (fun _ s' => Opened s (rows_of B [] (sent_between s s')) s') (fun _ _ => True) s := by
  rw [run_query]
  split
  · trivial
  · rw [ends_bind]
    apply (sofar_select_graph config (Sofar.start hpg) _).imp
    · rintro - s₁ h₁
      split
      · trivial
      · rename_i body plan_only _
        rw [ends_bind]
        apply (sofar_is_write B h₁ body).imp
        · rintro write s₂ ⟨checked, hchecked, h₂⟩
          rw [ends_bind, ends_modify]
          have h₃ : Sofar c s checked { s₂ with qtype := if write then "w" else "r" } :=
            ⟨⟨h₂.state, h₂.in_tx, h₂.pending, h₂.cursor⟩, h₂.pg⟩
          split
          · apply (opened_open_result h₃ [] []).imp
            · rintro metadata s₄ ⟨hopened, w, hpg₄⟩
              have hrows := hchecked [] []
              rw [List.append_nil] at hrows
              rw [sent_between_append hpg hpg₄, hrows]
              exact hopened
            · intro e s₄ h₄
              exact h₄.elim
          · exact queried_opens B hpg hchecked h₃ _ _ _
        · intro e s₂ _
          trivial
    · intro e s₁ h₁
      exact h₁.elim

theorem kept_sql (s : Session ω) (st : Statement) :
    Ends (sql B st) (fun _ s' => Kept s s') (fun _ s' => Kept s s') s := by
  simp only [sql, client, ends_bind, ends_get]
  split
  · simp only [ends_pure, ends_modify]
    split <;> exact ⟨rfl, rfl, rfl, rfl⟩
  · exact .refl s

theorem kept_apply_settings (settings : List (String × String)) (s : Session ω) :
    Ends (apply_settings B settings) (fun _ s' => Kept s s') (fun _ s' => Kept s s') s := by
  induction settings generalizing s with
  | nil => exact .refl s
  | cons entry settings ih =>
      rw [apply_settings, ends_bind]
      apply (kept_sql B s _).imp
      · intro _ s' h
        apply (ih s').imp
        · intro _ s'' h'
          exact h.trans h'
        · intro e s'' h'
          exact h.trans h'
      · intro e s' h
        exact h

theorem begin_opens (extra : Value) (s : Session ω) :
    Ends (begin B config extra) (fun _ s' => s'.state = s.state ∧ s'.in_tx = true)
      (fun _ _ => True) s := by
  rw [begin, ends_bind, select_graph, ends_modify, ends_bind]
  apply (kept_sql B _ .begin).imp
  · intro _ s₁ h₁
    rw [ends_bind, ends_modify, ends_bind]
    apply (kept_apply_settings B _ _).imp
    · intro _ s₂ h₂
      refine ⟨h₂.state.trans (h₁.state.trans ?_), h₂.in_tx⟩
      split
      · rfl
      · split <;> rfl
    · intro e s₂ _
      trivial
  · intro e s₁ _
    trivial

theorem end_tx_closes (verb : Statement) (s : Session ω) :
    Ends (end_tx B verb) (fun _ s' => s'.state = s.state ∧ s'.in_tx = false) (fun _ _ => True)
      s := by
  rw [end_tx, ends_bind]
  apply (kept_sql B s verb).imp
  · intro _ s₁ h₁
    rw [ends_bind, ends_modify, ends_pure]
    exact ⟨h₁.state, rfl⟩
  · intro e s₁ _
    trivial

theorem reset_clears (s : Session ω) :
    Ends (reset B) (fun _ s' => s'.state = .Ready ∧ s'.in_tx = false) (fun _ _ => False) s := by
  rw [reset, ends_bind, ends_modify, ends_bind, ends_get]
  dsimp only
  split
  next =>
    simp only [ends_bind, ends_attempt, ends_modify, ends_pure]
    apply (kept_sql B _ .rollback).imp
    · intro _ s' _
      exact ⟨trivial, trivial⟩
    · intro e s' _
      exact ⟨trivial, trivial⟩
  next hnone =>
    simp only [ends_bind, ends_modify, ends_pure]
    exact ⟨trivial, by simpa using hnone⟩

theorem hello_keeps (extra : Value) (s : Session ω) :
    Ends (hello B config extra) (fun _ s' => Kept s s') (fun _ _ => True) s := by
  unfold hello
  dsimp only
  split
  · trivial
  · rw [ends_bind, ends_modify, ends_pure]
    exact ⟨rfl, rfl, rfl, rfl⟩

/-! The summaries -/

/-- The metadata of a result that is closed. -/
def closing (sess : Session ω) (stats : Option Value) : Value :=
  map ([("t_last", Value.int 0), ("type", Value.string sess.qtype)] ++
    (match stats with | some stats => [("stats", stats)] | none => []) ++
    [("db", Value.string sess.graph)] ++
    (if sess.in_tx then [] else [("bookmark", Value.string "ontological:0")]))

theorem not_hasMore_closing (sess : Session ω) (stats : Option Value) :
    ¬ HasMore (closing sess stats) := by
  have hnone : (closing sess stats).map_get "has_more" = none := by
    apply map_get_map_of_not_mem
    cases stats <;> cases sess.in_tx <;> simp
  intro h
  rw [HasMore, hnone] at h
  cases h

theorem hasMore_open :
    HasMore (map [("t_last", .int 0), ("has_more", .bool true)]) := by
  change (map ([("t_last", Value.int 0)] ++ [("has_more", Value.bool true)])).map_get "has_more" = _
  rw [map_get_map_append, if_pos rfl]

theorem kept_write_stats (s : Session ω) :
    Ends (write_stats B) (fun _ s' => Kept s s') (fun _ _ => False) s := by
  rw [write_stats, ends_bind, ends_attempt]
  apply (kept_sql B s .og_cypher_stats).imp
  · intro raw s' h
    exact h
  · intro e s' h
    exact h

theorem summary_closes (s : Session ω) :
    Ends (summary B)
      (fun metadata s' => ¬ HasMore metadata ∧ s'.state = .Ready ∧ s'.in_tx = s.in_tx)
      (fun _ _ => False) s := by
  rw [summary, ends_bind, ends_modify, ends_bind, ends_get]
  dsimp only
  split
  · rw [ends_bind]
    apply (kept_write_stats B _).imp
    · intro stats s' h
      refine ⟨not_hasMore_closing _ stats, h.state, h.in_tx⟩
    · intro e s' h
      exact h
  · rw [ends_bind, ends_pure, ends_pure]
    exact ⟨not_hasMore_closing _ none, rfl, rfl⟩

theorem asked_le (fields rest : List Value) : asked fields rest ≤ rest.length := by
  unfold asked
  dsimp only
  split
  · exact le_rfl
  · exact Nat.min_le_right _ _

theorem taken_eq (s : Session ω) (extra : List Value) :
    taken s (extra.getLast?.getD .null) =
      (s.pending.drop s.cursor).take (asked extra (s.pending.drop s.cursor)) := by
  unfold taken asked
  rw [List.length_drop]

/-- The rows of the open result that are still to be taken. -/
def remaining (s : Session ω) : List Value :=
  s.pending.drop s.cursor

theorem pull_takes (s : Session ω) (hstate : s.state = .Streaming)
    (hcursor : s.cursor ≤ s.pending.length) (fields : List Value) (deliver : Bool) :
    let n := asked fields (remaining s)
    Ends (pull B (fields.getLast?.getD .null) deliver)
      (fun written s' =>
        Taken (if deliver then (remaining s).take n else []) ((remaining s).drop n) written ∧
        s'.in_tx = s.in_tx ∧
        ((remaining s).drop n = [] ∧ s'.state = .Ready ∨
          (remaining s).drop n ≠ [] ∧ s'.state = .Streaming ∧ s'.cursor ≤ s'.pending.length ∧
            remaining s' = (remaining s).drop n))
      (fun _ _ => False) s := by
  intro n
  have htaken : taken s (fields.getLast?.getD .null) = (remaining s).take n := taken_eq s fields
  have hn : n ≤ (remaining s).length := asked_le fields (remaining s)
  have hlength : ((remaining s).take n).length = n := by
    rw [List.length_take, Nat.min_eq_left hn]
  have hrest : (remaining s).length = s.pending.length - s.cursor := List.length_drop
  rw [pull, ends_bind, ends_get]
  dsimp only
  rw [if_neg (by simpa using hstate), ends_bind, ends_modify, htaken, hlength]
  have hwritten : (if deliver then ((remaining s).take n).map fun r => Value.struct RECORD [r]
      else []) = (if deliver then (remaining s).take n else []).map fun r => .struct RECORD [r] := by
    cases deliver <;> rfl
  split
  next hmore =>
    have hne : (remaining s).drop n ≠ [] := by
      apply List.ne_nil_of_length_pos
      rw [List.length_drop]
      omega
    rw [ends_pure, hwritten]
    refine ⟨⟨_, rfl, iff_of_true hasMore_open hne⟩, rfl, .inr ⟨hne, hstate, ?_, ?_⟩⟩
    · exact hmore.le
    · exact List.drop_drop.symm
  next hlast =>
    have hnil : (remaining s).drop n = [] := by
      apply List.drop_eq_nil_of_le
      omega
    rw [ends_bind]
    apply (summary_closes B _).imp
    · rintro metadata s' ⟨hmetadata, hready, htx⟩
      rw [ends_pure, hwritten]
      refine ⟨⟨_, rfl, iff_of_false hmetadata ?_⟩, htx, .inl ⟨hnil, hready⟩⟩
      simpa using hnil
    · intro e s' h
      exact h

theorem sql_unconnected (hpg : s.pg = none) (st : Statement) :
    Ends (sql B st) (fun _ _ => False) (fun _ _ => True) s := by
  simp only [sql, client, ends_bind, ends_get, hpg, ends_throw]

theorem run_query_unconnected (hpg : s.pg = none) (fields : List Value) :
    Ends (run_query B config fields) (fun _ _ => False) (fun _ _ => True) s := by
  rw [run_query]
  split
  · trivial
  · rw [ends_bind, select_graph, ends_modify]
    split
    · trivial
    · rw [ends_bind, is_write, ends_bind]
      apply (sql_unconnected B _ _).imp
      · intro _ s' h
        exact h.elim
      · intro e s' _
        trivial
      · split
        · exact hpg
        · split <;> exact hpg

/-! The account and the session -/

/-- The account says what the session holds. -/
structure Inv (a : Account) (s : Session ω) : Prop where
  failed : a.failed = true ↔ s.state = .Failed
  tx : s.state ≠ .Failed → a.tx = s.in_tx
  ready : s.state = .Ready → a.result = none
  streaming : s.state = .Streaming → a.result = some (remaining s) ∧ s.cursor ≤ s.pending.length

/-- The messages the gateway is right to accept where it finds them: those that open, end or need
no result come while none is open, and a transaction is begun once and ended once. -/
def Expected (s : Session ω) (sig : UInt8) : Prop :=
  (s.state = .Streaming → ¬ Unstreamed sig) ∧
    (s.state = .Ready → (sig = BEGIN → s.in_tx = false) ∧
      (sig = COMMIT ∨ sig = ROLLBACK → s.in_tx = true))

variable {a : Account} {sig : UInt8} {fields written : List Value} {after : Session ω}

/-- What a turn that does not end the connection does to the account. -/
def Settles (a : Account) (s : Session ω) (msg : Value) (written : List Value)
    (after : Session ω) : Prop :=
  Answered a (Exchange.mk s msg written after) ∧
    Inv (a.next B (Exchange.mk s msg written after)) after

theorem settles_failure (hinv : Inv a s) (hsig : sig ≠ RESET) (hstate : s.state ≠ .Failed)
    (hpull : s.state = .Streaming → sig ≠ PULL ∧ sig ≠ DISCARD) (f : Failure) :
    Settles B a s (.struct sig fields) [into_message f] { s' with state := .Failed } := by
  have hfailed : a.failed = false := by
    rw [← Bool.not_eq_true, hinv.failed]
    exact hstate
  have hfails : Fails [into_message f] := ⟨_, rfl⟩
  constructor
  · rintro sig' fields' heq
    cases heq
    refine ⟨fun h => absurd h hsig, ?_, ?_, fun _ _ _ => hfails⟩
    · intro h
      rw [hfailed] at h
      cases h
    · intro _ rest hrest
      cases hs : s.state with
      | Ready =>
          rw [hinv.ready hs] at hrest
          cases hrest
      | Streaming =>
          obtain ⟨hne, hne'⟩ := hpull hs
          exact ⟨fun h => absurd h hne, fun h => absurd h hne', fun _ => hfails⟩
      | Failed => exact absurd hs hstate
  · have hnext : a.next B (Exchange.mk s (.struct sig fields) [into_message f]
        { s' with state := .Failed }) = { a with failed := true } := by
      have hrefused : refused [into_message f] = true := rfl
      unfold Account.next
      simp only
      rw [if_neg hsig, if_neg (by simp [hfailed]), if_pos hrefused]
    rw [hnext]
    refine ⟨iff_of_true rfl rfl, fun h => absurd rfl h, ?_, ?_⟩
    · intro h
      cases h
    · intro h
      cases h

/-- An answer that is a success, to a message that takes no rows and is legal where it comes. -/
theorem answered_success {metadata : Value} (hinv : Inv a s) (hsig : sig ≠ RESET)
    (hstate : s.state ≠ .Failed) (hpull : sig ≠ PULL ∧ sig ≠ DISCARD) (hexpected : Expected s sig) :
    Answered a (Exchange.mk s (.struct sig fields) [.struct SUCCESS [metadata]] after) := by
  have hfailed : ¬ a.failed = true := fun h => hstate (hinv.failed.mp h)
  rintro sig' fields' heq
  cases heq
  refine ⟨fun h => absurd h hsig, fun h => absurd h hfailed, ?_, ?_⟩
  · intro _ rest hrest
    refine ⟨fun h => absurd h hpull.1, fun h => absurd h hpull.2, ?_⟩
    intro hstream
    cases hs : s.state with
    | Ready =>
        rw [hinv.ready hs] at hrest
        cases hrest
    | Streaming => exact absurd hstream (hexpected.1 hs)
    | Failed => exact absurd hs hstate
  · intro _ hnone hunready
    cases hs : s.state with
    | Streaming =>
        rw [(hinv.streaming hs).1] at hnone
        cases hnone
    | Failed => exact absurd hs hstate
    | Ready =>
        have htx := hinv.tx hstate
        obtain ⟨hbegin, hend⟩ := hexpected.2 hs
        rcases hunready with h | h | ⟨h, hopen⟩ | ⟨h, hclosed⟩
        · exact absurd h hpull.1
        · exact absurd h hpull.2
        · rw [htx, hbegin h] at hopen
          cases hopen
        · rw [htx, hend h] at hclosed
          cases hclosed

/-- The account after a success that was no RESET. -/
theorem next_success {metadata : Value} (hfailed : a.failed = false) (hsig : sig ≠ RESET) :
    a.next B (Exchange.mk s (.struct sig fields) [.struct SUCCESS [metadata]] after) =
      if sig = RUN then { a with result := some (rows_of B [] (sent_between s after)) }
      else if sig = PULL ∨ sig = DISCARD then
        let rest := a.result.getD []
        let left := rest.drop (asked fields rest)
        { a with result := if left = [] then none else some left }
      else if sig = BEGIN then { a with tx := true }
      else if sig = COMMIT ∨ sig = ROLLBACK then { a with tx := false }
      else a := by
  have hrefused : refused [Value.struct SUCCESS [metadata]] = false := rfl
  unfold Account.next
  simp only
  rw [if_neg hsig, if_neg (by simp [hfailed]), if_neg (by simp [hrefused])]

theorem ready_of_expected (hstate : s.state ≠ .Failed) (hexpected : Expected s sig)
    (hsig : Unstreamed sig) : s.state = .Ready := by
  cases hs : s.state with
  | Ready => rfl
  | Streaming => exact absurd hsig (hexpected.1 hs)
  | Failed => exact absurd hs hstate

theorem Inv.keep_failed (hinv : Inv a s) (hkept : after.state = s.state) :
    a.failed = true ↔ after.state = .Failed := by
  rw [hkept]
  exact hinv.failed

/-- What the account has to be after a message that leaves the open result alone. -/
theorem Inv.keep (hinv : Inv a s) (hkept : after.state = s.state)
    (htx : a.tx = after.in_tx)
    (hrest : s.state = .Streaming → after.pending = s.pending ∧ after.cursor = s.cursor) :
    Inv a after where
  failed := by rw [hkept]; exact hinv.failed
  tx := fun _ => htx
  ready := fun h => hinv.ready (hkept.symm.trans h)
  streaming := by
    intro h
    have hs := hkept.symm.trans h
    obtain ⟨hpending, hcursor⟩ := hrest hs
    rw [remaining, hpending, hcursor]
    exact hinv.streaming hs

/-- What a handler has to do for the account: whatever it writes, the account is settled. -/
def Serves (a : Account) (s : Session ω) (msg : Value) (m : SessionM ω (List Value)) : Prop :=
  Ends m (fun written s' => Settles B a s msg written s')
    (fun h s' => ∀ f, h = .failure f →
      Settles B a s msg [into_message f] { s' with state := .Failed }) s

/-- A handler that answers with a success or fails. -/
theorem serves_succeed (hinv : Inv a s) (hsig : sig ≠ RESET) (hstate : s.state ≠ .Failed)
    (hpull : sig ≠ PULL ∧ sig ≠ DISCARD) (hexpected : Expected s sig) {m : SessionM ω Value}
    {Q : Session ω → Prop} (hm : Ends m (fun _ s' => Q s') (fun _ _ => True) s)
    (hinv' : ∀ metadata after, Q after → Inv
      (a.next B (Exchange.mk s (.struct sig fields) [.struct SUCCESS [metadata]] after)) after) :
    Serves B a s (.struct sig fields) (succeed m) := by
  unfold Serves
  rw [succeed, ends_bind]
  apply hm.imp
  · intro metadata s' hs'
    exact ⟨answered_success hinv hsig hstate hpull hexpected, hinv' metadata s' hs'⟩
  · rintro e s' - f -
    exact settles_failure B hinv hsig hstate (fun _ => hpull) f

theorem serves_run (hinv : Inv a s) (hstate : s.state ≠ .Failed) (hexpected : Expected s RUN) :
    Serves B a s (.struct RUN fields) (succeed (run_query B config fields)) := by
  have hfailed : a.failed = false := by simpa using mt hinv.failed.mp hstate
  have hrun : Ends (run_query B config fields)
      (fun _ s' => Opened s (rows_of B [] (sent_between s s')) s') (fun _ _ => True) s := by
    cases hpg : s.pg with
    | some c => exact run_query_opens B config hpg fields
    | none =>
        apply (run_query_unconnected B config hpg fields).imp
        · intro _ s' h
          exact h.elim
        · intro e s' _
          trivial
  apply serves_succeed B hinv (by decide) hstate ⟨by decide, by decide⟩ hexpected hrun
  rintro metadata after ⟨hstreaming, hcursor, htx, hpending⟩
  rw [next_success B hfailed (by decide), if_pos rfl]
  constructor
  · simp [hfailed, hstreaming]
  · intro _
    exact (hinv.tx hstate).trans htx.symm
  · intro h
    rw [hstreaming] at h
    cases h
  · intro _
    rw [remaining, hcursor, List.drop_zero, hpending]
    exact ⟨rfl, Nat.zero_le _⟩

theorem serves_begin (hinv : Inv a s) (hstate : s.state ≠ .Failed) (hexpected : Expected s BEGIN)
    (extra : Value) : Serves B a s (.struct BEGIN fields) (succeed (begin B config extra)) := by
  have hfailed : a.failed = false := by simpa using mt hinv.failed.mp hstate
  apply serves_succeed B hinv (by decide) hstate ⟨by decide, by decide⟩ hexpected
    (begin_opens B config extra s)
  rintro metadata after ⟨hkept, htx⟩
  rw [next_success B hfailed (by decide), if_neg (by decide), if_neg (by decide), if_pos rfl]
  have hready := ready_of_expected hstate hexpected (.inr (.inl rfl))
  exact ⟨hinv.keep_failed hkept, fun _ => htx.symm, fun h => hinv.ready hready,
    fun h => absurd (hready.symm.trans (hkept.symm.trans h)) (by decide)⟩

theorem serves_end (hinv : Inv a s) (hstate : s.state ≠ .Failed) (hexpected : Expected s sig)
    (hsig : sig = COMMIT ∨ sig = ROLLBACK) (verb : Statement) :
    Serves B a s (.struct sig fields) (succeed (end_tx B verb)) := by
  have hfailed : a.failed = false := by simpa using mt hinv.failed.mp hstate
  have hne : sig ≠ RESET ∧ sig ≠ PULL ∧ sig ≠ DISCARD ∧ sig ≠ RUN ∧ sig ≠ BEGIN := by
    rcases hsig with rfl | rfl <;> decide
  obtain ⟨hreset, hpull, hdiscard, hrun, hbegin⟩ := hne
  apply serves_succeed B hinv hreset hstate ⟨hpull, hdiscard⟩ hexpected (end_tx_closes B verb s)
  rintro metadata after ⟨hkept, htx⟩
  rw [next_success B hfailed hreset, if_neg hrun, if_neg (not_or.mpr ⟨hpull, hdiscard⟩),
    if_neg hbegin, if_pos hsig]
  have hready := ready_of_expected hstate hexpected (.inr (.inr hsig))
  exact ⟨hinv.keep_failed hkept, fun _ => htx.symm, fun h => hinv.ready hready,
    fun h => absurd (hready.symm.trans (hkept.symm.trans h)) (by decide)⟩

/-- The messages that touch neither result nor transaction. -/
theorem serves_other (hinv : Inv a s) (hstate : s.state ≠ .Failed) (hexpected : Expected s sig)
    (hsig : ∀ k ∈ [RESET, RUN, PULL, DISCARD, BEGIN, COMMIT, ROLLBACK], sig ≠ k)
    {m : SessionM ω Value} (hm : Ends m (fun _ s' => Kept s s') (fun _ _ => True) s) :
    Serves B a s (.struct sig fields) (succeed m) := by
  simp only [List.forall_mem_cons, List.not_mem_nil, false_imp_iff, implies_true, and_true] at hsig
  obtain ⟨hreset, hrun, hpull, hdiscard, hbegin, hcommit, hrollback⟩ := hsig
  have hfailed : a.failed = false := by simpa using mt hinv.failed.mp hstate
  apply serves_succeed B hinv hreset hstate ⟨hpull, hdiscard⟩ hexpected hm
  intro metadata after hkept
  rw [next_success B hfailed hreset, if_neg hrun, if_neg (not_or.mpr ⟨hpull, hdiscard⟩),
    if_neg hbegin, if_neg (not_or.mpr ⟨hcommit, hrollback⟩)]
  exact hinv.keep hkept.state ((hinv.tx hstate).trans hkept.in_tx.symm)
    fun _ => ⟨hkept.pending, hkept.cursor⟩

theorem serves_reset : Serves B a s (.struct RESET fields) (succeed (reset B)) := by
  unfold Serves
  rw [succeed, ends_bind]
  apply (reset_clears B s).imp
  · rintro metadata s' ⟨hready, htx⟩
    constructor
    · rintro sig' fields' heq
      cases heq
      refine ⟨fun _ => ⟨_, rfl⟩, fun _ h => absurd rfl h, ?_, ?_⟩
      · intro _ rest _
        refine ⟨fun h => absurd h (by decide), fun h => absurd h (by decide), ?_⟩
        rintro (h | h | h | h) <;> cases h
      · rintro - - (h | h | ⟨h, -⟩ | ⟨h | h, -⟩) <;> cases h
    · have hnext : a.next B (Exchange.mk s (.struct RESET fields) [.struct SUCCESS [metadata]] s') =
          .start := by
        simp only [Account.next, reduceIte]
      rw [hnext]
      constructor
      · simp [Account.start, hready]
      · intro _
        exact htx.symm
      · intro _
        rfl
      · intro h
        rw [hready] at h
        cases h
  · intro e s' h
    exact h.elim

/-- The account after a PULL or DISCARD that took rows. -/
theorem next_taken (hfailed : a.failed = false) (hsig : sig = PULL ∨ sig = DISCARD)
    {rest : List Value} (hresult : a.result = some rest) {shown left : List Value}
    (htaken : Taken shown left written) :
    a.next B (Exchange.mk s (.struct sig fields) written after) =
      { a with
        result := if rest.drop (asked fields rest) = [] then none
          else some (rest.drop (asked fields rest)) } := by
  obtain ⟨metadata, rfl, -⟩ := htaken
  have hrefused : refused
      (shown.map (fun r => Value.struct RECORD [r]) ++ [Value.struct SUCCESS [metadata]]) = false := by
    cases shown with
    | nil => rfl
    | cons r shown => cases shown <;> rfl
  have hne : sig ≠ RESET ∧ sig ≠ RUN := by
    rcases hsig with rfl | rfl <;> decide
  unfold Account.next
  simp only
  rw [if_neg hne.1, if_neg (by simp [hfailed]), if_neg (by simp [hrefused]), if_neg hne.2,
    if_pos hsig, hresult]
  rfl

theorem serves_pull (hinv : Inv a s) (hstate : s.state ≠ .Failed) (deliver : Bool)
    (hsig : sig = if deliver then PULL else DISCARD) :
    Serves B a s (.struct sig fields) (pull B (fields.getLast?.getD .null) deliver) := by
  have hfailed : a.failed = false := by simpa using mt hinv.failed.mp hstate
  have hreset : sig ≠ RESET := by
    cases deliver <;> rw [hsig] <;> decide
  have hpull : sig = PULL ∨ sig = DISCARD := by
    cases deliver
    · exact .inr hsig
    · exact .inl hsig
  cases hs : s.state with
  | Failed => exact absurd hs hstate
  | Ready =>
      have hclosed : ¬ s.state = .Streaming := by
        rw [hs]
        decide
      rw [Serves, pull, ends_bind, ends_get]
      dsimp only
      rw [if_pos hclosed, ends_throw]
      intro f _
      exact settles_failure B hinv hreset hstate (fun h => absurd h hclosed) f
  | Streaming =>
      obtain ⟨hresult, hcursor⟩ := hinv.streaming hs
      apply (pull_takes B s hs hcursor fields deliver).imp
      · rintro written after ⟨htaken, htx, hafter⟩
        constructor
        · rintro sig' fields' heq
          cases heq
          refine ⟨fun h => absurd h hreset, ?_, ?_, ?_⟩
          · intro h
            rw [hfailed] at h
            cases h
          · intro _ rest hrest
            obtain rfl : remaining s = rest := Option.some.inj (hresult.symm.trans hrest)
            refine ⟨?_, ?_, ?_⟩
            · intro h
              cases deliver
              · rw [hsig] at h
                cases h
              · exact htaken
            · intro h
              cases deliver
              · exact htaken
              · rw [hsig] at h
                cases h
            · intro h
              rcases hpull with rfl | rfl <;> rcases h with h | h | h | h <;> cases h
          · intro _ h
            rw [hresult] at h
            cases h
        · rw [next_taken B hfailed hpull hresult htaken]
          rcases hafter with ⟨hnil, hready⟩ | ⟨hne, hstreaming, hle, hremaining⟩
          · rw [if_pos hnil]
            refine ⟨?_, fun _ => (hinv.tx hstate).trans htx.symm, fun _ => rfl, ?_⟩
            · simp [hfailed, hready]
            · intro h
              rw [hready] at h
              cases h
          · rw [if_neg hne]
            refine ⟨?_, fun _ => (hinv.tx hstate).trans htx.symm, ?_, ?_⟩
            · simp [hfailed, hstreaming]
            · intro h
              rw [hstreaming] at h
              cases h
            · intro _
              rw [hremaining]
              exact ⟨rfl, hle⟩
      · intro e s' h
        exact h.elim

theorem hello_other : ∀ k ∈ [RESET, RUN, PULL, DISCARD, BEGIN, COMMIT, ROLLBACK], HELLO ≠ k := by
  simp only [List.forall_mem_cons, List.not_mem_nil, false_imp_iff, implies_true, and_true]
  exact ⟨by decide, by decide, by decide, by decide, by decide, by decide, by decide⟩

theorem serves_dispatch (hinv : Inv a s) (hgo : ¬ (s.state = .Failed ∧ sig ≠ RESET))
    (hexpected : Expected s sig) :
    Serves B a s (.struct sig fields) (dispatch B config sig fields) := by
  have hstate : sig ≠ RESET → s.state ≠ .Failed := fun hsig hs => hgo ⟨hs, hsig⟩
  unfold dispatch
  dsimp only
  by_cases hhello : sig = HELLO
  · subst hhello
    rw [if_pos rfl]
    exact serves_other B hinv (hstate (by decide)) hexpected hello_other (hello_keeps B config _ s)
  rw [if_neg hhello]
  by_cases hrun : sig = RUN
  · subst hrun
    rw [if_pos rfl]
    exact serves_run B config hinv (hstate (by decide)) hexpected
  rw [if_neg hrun]
  by_cases hpull : sig = PULL
  · subst hpull
    rw [if_pos rfl]
    exact serves_pull B hinv (hstate (by decide)) true rfl
  rw [if_neg hpull]
  by_cases hdiscard : sig = DISCARD
  · subst hdiscard
    rw [if_pos rfl]
    exact serves_pull B hinv (hstate (by decide)) false rfl
  rw [if_neg hdiscard]
  by_cases hbegin : sig = BEGIN
  · subst hbegin
    rw [if_pos rfl]
    exact serves_begin B config hinv (hstate (by decide)) hexpected _
  rw [if_neg hbegin]
  by_cases hcommit : sig = COMMIT
  · subst hcommit
    rw [if_pos rfl]
    exact serves_end B hinv (hstate (by decide)) hexpected (.inl rfl) _
  rw [if_neg hcommit]
  by_cases hrollback : sig = ROLLBACK
  · subst hrollback
    rw [if_pos rfl]
    exact serves_end B hinv (hstate (by decide)) hexpected (.inr rfl) _
  rw [if_neg hrollback]
  by_cases hreset : sig = RESET
  · subst hreset
    rw [if_pos rfl]
    exact serves_reset B
  rw [if_neg hreset]
  have hother : ∀ k ∈ [RESET, RUN, PULL, DISCARD, BEGIN, COMMIT, ROLLBACK], sig ≠ k := by
    simp [hreset, hrun, hpull, hdiscard, hbegin, hcommit, hrollback]
  split
  · apply serves_other B hinv (hstate hreset) hexpected hother
    exact .refl s
  · rintro f -
    exact settles_failure B hinv hreset (hstate hreset) (fun _ => ⟨hpull, hdiscard⟩) f

def signature : Value → Option UInt8
  | .struct sig _ => some sig
  | _ => none

/-- One turn of the message loop settles the account. -/
theorem turn_settles {msg : Value} (hinv : Inv a s)
    (hexpected : ∀ sig ∈ signature msg, Expected s sig)
    (hturn : turn B config s msg = some (written, after)) : Settles B a s msg written after := by
  cases msg with
  | struct sig fields =>
      rw [turn] at hturn
      split at hturn
      next => cases hturn
      next =>
        split at hturn
        next hfailed =>
          cases hturn
          have hnext : a.next B (Exchange.mk s (.struct sig fields) [.struct IGNORED []] s) = a := by
            unfold Account.next
            simp only
            rw [if_neg hfailed.2, if_pos (hinv.failed.mpr hfailed.1)]
          constructor
          · rintro sig' fields' heq
            cases heq
            have hnot : ∀ {P : Prop}, a.failed = false → P := by
              intro P h
              rw [hinv.failed.mpr hfailed.1] at h
              cases h
            exact ⟨fun h => absurd h hfailed.2, fun _ _ => rfl, hnot, hnot⟩
          · rw [hnext]
            exact hinv
        next hgo =>
          have hserves : Serves B a s (.struct sig fields) (dispatch B config sig fields) :=
            serves_dispatch B config hinv hgo (hexpected sig rfl)
          unfold Serves Ends at hserves
          split at hturn
          next heq =>
            cases hturn
            rw [heq] at hserves
            exact hserves
          next heq =>
            cases hturn
            rw [heq] at hserves
            exact hserves _ rfl
          next => cases hturn
  | null | bool _ | int _ | float _ | string _ | list _ | map _ => cases hturn

/-! Runs -/

theorem accounted_append {es es' : List (Exchange ω)} :
    Accounted B a (es ++ es') ↔
      Accounted B a es ∧ Accounted B (es.foldl (Account.next B) a) es' := by
  induction es generalizing a with
  | nil => simp [Accounted]
  | cons e es ih => simp only [List.cons_append, Accounted, List.foldl_cons, ih, and_assoc]

/-- The rows a client can still be sent. -/
def Account.left (a : Account) : List Value :=
  if a.failed then [] else a.result.getD []

theorem Account.left_open (h : a.failed = false) : a.left = a.result.getD [] := by
  rw [Account.left, h]
  rfl

theorem delivered_cons (e : Exchange ω) (es : List (Exchange ω)) :
    delivered (e :: es) = delivered [e] ++ delivered es := by
  simp [delivered]

theorem delivered_taken {e : Exchange ω} {shown left : List Value}
    (h : Taken shown left e.written) : delivered [e] = shown := by
  obtain ⟨metadata, hwritten, -⟩ := h
  have hlast : ¬ SUCCESS = RECORD := by decide
  simp only [delivered, List.flatMap_cons, List.flatMap_nil, List.append_nil, hwritten,
    List.filterMap_append, List.filterMap_map, List.filterMap_cons, if_neg hlast,
    List.filterMap_nil]
  exact List.filterMap_some

theorem delivered_fails {e : Exchange ω} (h : Fails e.written) : delivered [e] = [] := by
  obtain ⟨metadata, hwritten⟩ := h
  have hlast : ¬ FAILURE = RECORD := by decide
  simp [delivered, hwritten, if_neg hlast]

/-- What a PULL delivers is what is left, up to what is left after it. -/
theorem delivered_pull {e : Exchange ω} (hanswered : Answered a e)
    (hmsg : e.msg = .struct PULL fields) :
    delivered [e] ++ (a.next B e).left = a.left ∨ delivered [e] = [] ∧ (a.next B e).left = [] := by
  obtain ⟨-, hignored, hopen, hclosed⟩ := hanswered PULL fields hmsg
  obtain ⟨s, msg, written, after⟩ := e
  simp only at hmsg hignored hopen hclosed
  subst hmsg
  cases hfailed : a.failed with
  | true =>
      have hwritten := hignored hfailed (by decide)
      right
      subst hwritten
      simp [delivered, Account.next, Account.left, hfailed, show ¬ PULL = RESET by decide]
  | false =>
      cases hresult : a.result with
      | none =>
          have hfails := hclosed hfailed hresult (.inl rfl)
          right
          refine ⟨delivered_fails hfails, ?_⟩
          obtain ⟨metadata, rfl⟩ := hfails
          have hrefused : refused [Value.struct FAILURE [metadata]] = true := rfl
          simp [Account.next, Account.left, hfailed, hrefused, show ¬ PULL = RESET by decide]
      | some rest =>
          have htaken := (hopen hfailed rest hresult).1 trivial
          have hsplit := List.take_append_drop (asked fields rest) rest
          left
          rw [delivered_taken htaken, next_taken B hfailed (.inl rfl) hresult htaken,
            Account.left_open (a := a) hfailed, hresult, Option.getD_some]
          have hopen' : ∀ result, Account.left { a with result := result } = result.getD [] := by
            intro result
            exact Account.left_open hfailed
          rw [hopen']
          by_cases hnil : rest.drop (asked fields rest) = []
          · rw [hnil] at hsplit
            rw [if_pos hnil]
            exact hsplit
          · rw [if_neg hnil]
            exact hsplit

/-- PULLs one after the other deliver a prefix of what is left. -/
theorem delivered_prefix {es : List (Exchange ω)} (hes : Accounted B a es)
    (hpull : ∀ e ∈ es, ∃ fields, e.msg = .struct PULL fields) : delivered es <+: a.left := by
  induction es generalizing a with
  | nil => exact List.nil_prefix
  | cons e es ih =>
      obtain ⟨hanswered, hrest⟩ := hes
      obtain ⟨fields, hmsg⟩ := hpull e List.mem_cons_self
      have hprefix := ih hrest fun e he => hpull e (List.mem_cons_of_mem _ he)
      rw [delivered_cons]
      rcases delivered_pull B hanswered hmsg with hleft | ⟨hnil, hleft⟩
      · rw [← hleft]
        exact (List.prefix_append_right_inj _).mpr hprefix
      · rw [hleft] at hprefix
        rw [hnil, List.nil_append, List.prefix_nil.mp hprefix]
        exact List.nil_prefix

/-- Every message of a run comes where it is expected. -/
def ExpectedRun (es : List (Exchange ω)) : Prop :=
  ∀ e ∈ es, ∀ sig ∈ signature e.msg, Expected e.before sig

theorem accounted_run (msgs : List Value) : ∀ (a : Account) (s : Session ω), Inv a s →
    ExpectedRun (run B config s msgs) → Accounted B a (run B config s msgs) := by
  induction msgs with
  | nil =>
      intro a s _ _
      trivial
  | cons msg msgs ih =>
      intro a s hinv hrun
      rw [run] at hrun ⊢
      split at hrun
      next => trivial
      next written after hturn =>
        have hsettles := turn_settles B config hinv (hrun _ List.mem_cons_self) hturn
        exact ⟨hsettles.1, ih _ after hsettles.2 fun e he => hrun e (List.mem_cons_of_mem _ he)⟩

/-- In a session whose messages come where they are expected, every message is answered as it has
to be, and the PULLs that follow a RUN deliver its rows from the first one on. -/
theorem session_streams (msgs : List Value)
    (hexpected : ExpectedRun (run B config (start config) msgs)) :
    Accounted B .start (run B config (start config) msgs) ∧
      ∀ before e pulls after, run B config (start config) msgs = before ++ e :: (pulls ++ after) →
        (∃ fields, e.msg = .struct RUN fields) → Succeeds e.written →
        (∀ p ∈ pulls, ∃ fields, p.msg = .struct PULL fields) →
        delivered pulls <+: rows_of B [] (sent_between e.before e.after) := by
  have hstart : Inv .start (start config : Session ω) := by
    refine ⟨by simp [Account.start, start], fun _ => rfl, fun _ => rfl, ?_⟩
    intro h
    cases h
  have haccounted := accounted_run B config msgs .start (start config) hstart hexpected
  refine ⟨haccounted, ?_⟩
  rintro before e pulls after hsplit ⟨fields, hmsg⟩ ⟨metadata, hwritten⟩ hpulls
  rw [hsplit, accounted_append] at haccounted
  obtain ⟨-, hanswered, hrest⟩ := haccounted
  obtain ⟨s, msg, written, after'⟩ := e
  simp only at hmsg hwritten
  subst hmsg hwritten
  generalize before.foldl (Account.next B) .start = a at hanswered hrest
  have hfailed : a.failed = false := by
    rw [← Bool.not_eq_true]
    intro hfailed
    have hignored := (hanswered RUN fields rfl).2.1 hfailed (by decide)
    cases hignored
  have hprefix := delivered_prefix B (accounted_append B |>.mp hrest).1 hpulls
  rw [next_success B hfailed (by decide), if_pos rfl] at hprefix
  simpa [Account.left, hfailed] using hprefix

/-! A session -/

/-- A database in which every query reads the same two rows. -/
def twoRows : Backend Unit where
  connect _ _ := .ok ()
  answer s w :=
    match s with
    | .begin | .commit | .rollback | .set_config _ _ => (.ok (), w)
    | .og_cypher_columns _ => (.ok ["n"], w)
    | .og_cypher_check _ => (.ok "check", w)
    | .og_cypher _ _ _ => (.ok [some "first", some "second"], w)
    | .og_cypher_stats => (.ok "stats", w)
  from_str text :=
    if text = "check" then some (.object [("ok", .bool true), ("write", .bool false)])
    else if text = "first" then some (.object [("n", .number (.int 1))])
    else if text = "second" then some (.object [("n", .number (.int 2))])
    else none
  to_string _ := ""

def local_config : Config where
  default_graph := "default"
  advertised := "localhost"
  process := 1

def hello_message : Value := .struct HELLO [.map []]

def run_message (query : String) : Value := .struct RUN [.string query, .map [], .map []]

def pull_message (n : Int64) : Value := .struct PULL [.map [("n", .int n)]]

instance (sig : UInt8) : Decidable (Unstreamed sig) :=
  inferInstanceAs (Decidable (sig = RUN ∨ sig = BEGIN ∨ sig = COMMIT ∨ sig = ROLLBACK))

instance (s : Session ω) (sig : UInt8) : Decidable (Expected s sig) :=
  inferInstanceAs (Decidable ((s.state = .Streaming → ¬ Unstreamed sig) ∧
    (s.state = .Ready → (sig = BEGIN → s.in_tx = false) ∧
      (sig = COMMIT ∨ sig = ROLLBACK → s.in_tx = true))))

instance (es : List (Exchange ω)) : Decidable (ExpectedRun es) :=
  inferInstanceAs (Decidable (∀ e ∈ es, ∀ sig ∈ signature e.msg, Expected e.before sig))

theorem session_streams_two :
    let session := [hello_message, run_message "MATCH (n) RETURN n", pull_message 1,
      pull_message (-1)]
    Accounted twoRows .start (run twoRows local_config (start local_config) session) :=
  (session_streams twoRows local_config _ (by decide +kernel)).1

/-- Whether a RUN is accepted while a result is open. -/
def replaces (a : Account) : List (Exchange ω) → Bool
  | [] => false
  | e :: es =>
      (!a.failed && a.result.isSome && signature e.msg == some RUN && !refused e.written) ||
        replaces (a.next B e) es

theorem replaces_eq_false {es : List (Exchange ω)} (h : Accounted B a es) :
    replaces B a es = false := by
  induction es generalizing a with
  | nil => rfl
  | cons e es ih =>
      obtain ⟨hanswered, hrest⟩ := h
      obtain ⟨s, msg, written, after⟩ := e
      rw [replaces, ih hrest, Bool.or_false]
      apply Bool.eq_false_iff.mpr
      intro hall
      simp only [Bool.and_eq_true, Bool.not_eq_true', beq_iff_eq, Option.isSome_iff_exists] at hall
      obtain ⟨⟨⟨hfailed, rest, hresult⟩, hsig⟩, hrefused⟩ := hall
      cases msg with
      | struct sig fields =>
          obtain rfl : sig = RUN := Option.some.inj hsig
          obtain ⟨metadata, rfl⟩ :=
            ((hanswered RUN fields rfl).2.2.1 hfailed rest hresult).2.2 (.inl rfl)
          cases hrefused
      | null | bool _ | int _ | float _ | string _ | list _ | map _ => cases hsig

/-- A second RUN while the first one's rows are still to be pulled. -/
theorem not_accounted :
    ¬ Accounted twoRows .start (run twoRows local_config (start local_config)
      [hello_message, run_message "MATCH (n) RETURN n", pull_message 1,
        run_message "MATCH (n) RETURN n"]) := by
  intro h
  have hreplaces : replaces twoRows .start (run twoRows local_config (start local_config)
      [hello_message, run_message "MATCH (n) RETURN n", pull_message 1,
        run_message "MATCH (n) RETURN n"]) = true := by
    decide
  rw [replaces_eq_false twoRows h] at hreplaces
  cases hreplaces

end OntologicalDb.BoltStreaming
