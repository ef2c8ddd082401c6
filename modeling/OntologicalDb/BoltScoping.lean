import OntologicalDb.BoltStreaming

/-!
The graph and the settings every query of a session is run under, and what the summary of its
result reports.
-/

namespace OntologicalDb.BoltScoping

open OntologicalDb.FallibleState
open OntologicalDb.PackStream (Value)
open OntologicalDb.BoltSession
open OntologicalDb.BoltStreaming

variable {ω : Type} (B : Backend ω) (config : Config)

/-! What PostgreSQL makes of what is sent -/

/-- The transaction of a connection: `set_config(.., true)` lasts until it ends. -/
structure Scope where
  active : Bool
  settings : List (String × String)
deriving DecidableEq

def Scope.closed : Scope where
  active := false
  settings := []

def Scope.next (scope : Scope) : Sent ω → Scope
  | ⟨.begin, .ok _, _⟩ => if scope.active then scope else { active := true, settings := [] }
  | ⟨.commit, _, _⟩ => .closed
  | ⟨.rollback, _, _⟩ => .closed
  | ⟨.set_config k v, .ok _, _⟩ =>
      if scope.active then
        { scope with settings := scope.settings.filter (fun e => e.1 ≠ k) ++ [(k, v)] }
      else scope
  | _ => scope

def in_effect (sent : List (Sent ω)) : Scope :=
  sent.foldl Scope.next .closed

/-- What `og_cypher_stats` reports on a connection, as a Bolt value. -/
def counters (w : ω) : Option Value :=
  match (B.answer .og_cypher_stats w).1 with
  | .ok raw => (B.from_str raw).map to_bolt
  | .error _ => none

/-- The engine counts what a call of `og_cypher` changes and nothing else: checking a query and
committing one leave the counters alone. -/
structure Counting : Prop where
  check : ∀ query raw w, (B.answer (.og_cypher_check query) w).1 = .ok raw →
    counters B (B.answer (.og_cypher_check query) w).2 = counters B w
  commit : ∀ graph query params rows w, (B.answer (.og_cypher graph query params) w).1 = .ok rows →
    ∀ a, (B.answer .commit (B.answer (.og_cypher graph query params) w).2).1 = .ok a →
      counters B (B.answer .commit (B.answer (.og_cypher graph query params) w).2).2 =
        counters B (B.answer (.og_cypher graph query params) w).2

/-- What is seen of a query in the statements sent for it. -/
structure Trail (ω : Type) where
  scope : Scope
  /-- The engine's verdict. -/
  write : Bool
  /-- The settings and the graph of each call of `og_cypher`. -/
  ran : List (List (String × String) × String)
  /-- The connection behind the last of them. -/
  left : Option ω

def writes (raw : String) : Bool :=
  ((((B.from_str raw).getD .null).get "write").bind Json.as_bool).getD false

def Trail.next (t : Trail ω) (e : Sent ω) : Trail ω where
  scope := t.scope.next e
  write :=
    match e with
    | ⟨.og_cypher_check _, .ok raw, _⟩ => writes B raw
    | _ => t.write
  ran :=
    match e.statement with
    | .og_cypher graph _ _ => t.ran ++ [(t.scope.settings, graph)]
    | _ => t.ran
  left :=
    match e.statement with
    | .og_cypher _ _ _ => some e.state
    | _ => t.left

def Trail.start (scope : Scope) : Trail ω where
  scope := scope
  write := false
  ran := []
  left := none

/-- The trail of what was sent between two sessions. -/
def trail (before after : Session ω) : Trail ω :=
  let sent := (before.pg.map fun c => c.sent).getD []
  (sent_between before after).foldl (Trail.next B) (.start (in_effect sent))

/-! What each message has to be run and reported as -/

/-- An explicit transaction, as its BEGIN asked for it. -/
structure Transaction where
  graph : String
  settings : List (String × String)

/-- What the summary of an open result has to report. -/
structure Due (ω : Type) where
  write : Bool
  plan_only : Bool
  graph : String
  left : Option ω

structure Ledger (ω : Type) where
  failed : Bool
  tx : Option Transaction
  due : Option (Due ω)

def Ledger.start : Ledger ω where
  failed := false
  tx := none
  due := none

/-- The graph a RUN is for: its own, or that of its transaction, or the default one. -/
def Ledger.graph (l : Ledger ω) (extra : Value) : String :=
  match named extra, l.tx with
  | some db, _ => db
  | none, some tx => tx.graph
  | none, none => config.default_graph

/-- The settings of a RUN: those of its transaction, its own where it has none. -/
def Ledger.settings (l : Ledger ω) (extra : Value) : List (String × String) :=
  match l.tx with
  | some tx => tx.settings
  | none => tx_settings B extra

def plan_only (fields : List Value) : Bool :=
  match (fields.head?.bind Value.as_str).bind split_plan_prefix with
  | some (_, plan_only) => plan_only
  | none => false

/-- A counter that has counted nothing. -/
def counts_nothing : Value → Bool
  | .int i => i = 0
  | .bool b => !b
  | _ => false

def NoChanges : Option Value → Prop
  | none => True
  | some (.map m) => ∀ e ∈ m, counts_nothing e.2
  | some _ => False

/-- The summary of a result reports the type, the graph and the changes of its own query. -/
structure Reports (due : Due ω) (metadata : Value) : Prop where
  type : metadata.map_get "type" = some (.string (if due.write then "w" else "r"))
  db : metadata.map_get "db" = some (.string due.graph)
  stats : if due.write && !due.plan_only then
      metadata.map_get "stats" = due.left.bind (counters B)
    else NoChanges (metadata.map_get "stats")

/-- The extra of a RUN. -/
def extra_of (fields : List Value) : Value :=
  fields[2]?.getD .null

/-- What has to hold of a message: a RUN is run where it belongs, once if it is accepted and no
plan, and the summary that closes a result reports what is due. -/
def Scoped (l : Ledger ω) (e : Exchange ω) : Prop :=
  ∀ sig fields, e.msg = .struct sig fields → l.failed = false →
    (sig = RUN →
      let own := (l.settings B (extra_of fields), l.graph config (extra_of fields))
      (∀ x ∈ (trail B e.before e.after).ran, x = own) ∧
        (Succeeds e.written →
          (trail B e.before e.after).ran = if plan_only fields then [] else [own])) ∧
    (sig = PULL ∨ sig = DISCARD → ∀ due, l.due = some due →
      ∃ records metadata, e.written = records ++ [Value.struct SUCCESS [metadata]] ∧
        (¬ HasMore metadata → Reports B due metadata))

/-- Whether a summary leaves the result open. -/
def has_more (written : List Value) : Bool :=
  match written.getLast? with
  | some (.struct _ [metadata]) =>
      match metadata.map_get "has_more" with
      | some (.bool b) => b
      | _ => false
  | _ => false

/-- The ledger after a message and its answer. -/
def Ledger.next (l : Ledger ω) (e : Exchange ω) : Ledger ω :=
  match e.msg with
  | .struct sig fields =>
      if sig = RESET then .start
      else if l.failed then l
      else if refused e.written then { l with failed := true }
      else if sig = RUN then
        { l with
          due := some {
            write := (trail B e.before e.after).write
            plan_only := plan_only fields
            graph := l.graph config (extra_of fields)
            left := (trail B e.before e.after).left } }
      else if sig = PULL ∨ sig = DISCARD then
        { l with due := if has_more e.written then l.due else none }
      else if sig = BEGIN then
        let extra := fields.getLast?.getD .null
        { l with
          tx := some {
            graph := (named extra).getD config.default_graph
            settings := tx_settings B extra } }
      else if sig = COMMIT ∨ sig = ROLLBACK then { l with tx := none }
      else l
  | _ => l

/-- Every message of a session is run and reported as it has to be. -/
def Accounts (l : Ledger ω) : List (Exchange ω) → Prop
  | [] => True
  | e :: es => Scoped B config l e ∧ Accounts (l.next B config e) es

/-! When a session keeps to it -/

/-- The message asks for the plan of a query that, says the engine, writes. -/
def plans_write (fields : List Value) (w : ω) : Bool :=
  match (fields.head?.bind Value.as_str).bind split_plan_prefix with
  | some (body, true) =>
      match (B.answer (.og_cypher_check body) w).1 with
      | .ok raw => writes B raw
      | .error _ => false
  | _ => false

def request : Value → Option (UInt8 × List Value)
  | .struct sig fields => some (sig, fields)
  | _ => none

/-- A message that is kept apart from what came before: it comes where it is expected, a
connection is made while nothing is open on the one there is, a RUN that leaves its graph to its
transaction finds the graph of the transaction, and the plan of a write is asked for while the
counters show no change. -/
structure Apart (l : Ledger ω) (s : Session ω) (sig : UInt8) (fields : List Value) : Prop where
  expected : Expected s sig
  hello : sig = HELLO → s.state = .Ready ∧ s.in_tx = false
  graph : sig = RUN → named (extra_of fields) = none → ∀ tx ∈ l.tx, s.graph = tx.graph
  plan : sig = RUN → ∀ c ∈ s.pg, plans_write B fields c.state → NoChanges (counters B c.state)

/-- Every message of a run that is not ignored is kept apart. -/
def ApartRun (l : Ledger ω) : List (Exchange ω) → Prop
  | [] => True
  | e :: es =>
      (e.before.state ≠ .Failed → ∀ m ∈ request e.msg, Apart B l e.before m.1 m.2) ∧
      ApartRun (l.next B config e) es

/-! The settings of a message -/

/-- A setting is taken once. -/
theorem nodup_append_once {out : List (String × String)} {k v : String}
    (hout : (out.map Prod.fst).Nodup) (hnone : ¬ out.any (·.1 = k)) :
    ((out ++ [(k, v)]).map Prod.fst).Nodup := by
  rw [List.map_append, List.map_cons, List.map_nil, List.nodup_append]
  refine ⟨hout, by simp, ?_⟩
  intro k' hk' k₂ hk heq'
  rw [List.mem_singleton] at hk
  subst hk heq'
  obtain ⟨e, he, heq⟩ := List.mem_map.mp hk'
  apply hnone
  rw [List.any_eq_true]
  exact ⟨e, he, by simpa using heq⟩

theorem nodup_tx_settings (extra : Value) : ((tx_settings B extra).map Prod.fst).Nodup := by
  unfold tx_settings
  split
  next metadata _ =>
    refine List.foldlRecOn TX_SETTINGS _
      (motive := fun out : List (String × String) => (out.map Prod.fst).Nodup) List.nodup_nil ?_
    intro out hout entry _
    dsimp only
    split
    · exact hout
    · split
      next => exact hout
      next hnone => exact nodup_append_once hout hnone
  next => exact List.nodup_nil

/-! What the handlers send -/

section Handlers

variable {c : Connection ω} {s s' : Session ω} {t : Trail ω} {w : ω}

/-- The session with its connection at a state. -/
def at_connection (s : Session ω) (w : ω) (sent : List (Sent ω)) : Session ω :=
  { s with pg := some { state := w, sent := sent } }

/-- Of the session only the connection has changed; the trail of what was sent over it. -/
def Since (c : Connection ω) (s : Session ω) (t : Trail ω) (w : ω) (s' : Session ω) : Prop :=
  ∃ new, s' = at_connection s w (c.sent ++ new) ∧
    new.foldl (Trail.next B) (.start (in_effect c.sent)) = t

theorem since_start (hpg : s.pg = some c) :
    Since B c s (.start (in_effect c.sent)) c.state s := by
  refine ⟨[], ?_, rfl⟩
  rw [List.append_nil, at_connection, ← hpg]

theorem since_sql (h : Since B c s t w s') (st : Statement) :
    Ends (sql B st)
      (fun a s'' => (B.answer st w).1 = .ok a ∧
        Since B c s (t.next B ⟨st, .ok a, (B.answer st w).2⟩) (B.answer st w).2 s'')
      (fun _ s'' => ∃ message, (B.answer st w).1 = .error message ∧
        Since B c s (t.next B ⟨st, .error message, (B.answer st w).2⟩) (B.answer st w).2 s'')
      s' := by
  obtain ⟨new, rfl, rfl⟩ := h
  have hlast : ∀ e : Sent ω, (new ++ [e]).foldl (Trail.next B) (.start (in_effect c.sent)) =
      (new.foldl (Trail.next B) (.start (in_effect c.sent))).next B e := by
    intro e
    rw [List.foldl_append]
    rfl
  simp only [sql, client, ends_bind, ends_get, at_connection, ends_pure, ends_modify]
  split
  next a ha =>
    rw [ha]
    exact ⟨rfl, new ++ [_], by rw [at_connection, List.append_assoc], hlast _⟩
  next message hm =>
    rw [hm]
    exact ⟨message, rfl, new ++ [_], by rw [at_connection, List.append_assoc], hlast _⟩

/-- The settings are in effect, in their order, when all are accepted. -/
theorem since_apply_settings {own : List (String × String)} (h : Since B c s t w s')
    (hactive : t.scope.active = true)
    (hnodup : ((t.scope.settings ++ own).map Prod.fst).Nodup) :
    Ends (apply_settings B own)
      (fun _ s'' => ∃ w', Since B c s
        { t with scope := { active := true, settings := t.scope.settings ++ own } } w' s'')
      (fun _ s'' => ∃ t' w', t'.ran = t.ran ∧ Since B c s t' w' s'') s' := by
  induction own generalizing t w s' with
  | nil =>
      refine ⟨w, ?_⟩
      rw [List.append_nil, ← hactive]
      exact h
  | cons entry own ih =>
      obtain ⟨k, v⟩ := entry
      rw [apply_settings, ends_bind]
      apply (since_sql B h _).imp
      · rintro a s₁ ⟨-, h₁⟩
        have hnew : (t.scope.next (⟨.set_config k v, .ok a, (B.answer (.set_config k v) w).2⟩ :
            Sent ω)) = { active := true, settings := t.scope.settings ++ [(k, v)] } := by
          have hfilter : t.scope.settings.filter (fun e => e.1 ≠ k) = t.scope.settings := by
            apply List.filter_eq_self.mpr
            intro e he
            rw [List.map_append, List.nodup_append] at hnodup
            rw [decide_eq_true_iff]
            exact hnodup.2.2 _ (List.mem_map_of_mem he) _ List.mem_cons_self
          simp only [Scope.next, hactive, if_true, hfilter]
        have hmore := ih h₁ (by simp only [Trail.next, hnew]) (by
          simp only [Trail.next, hnew, List.append_assoc, List.cons_append, List.nil_append]
          exact hnodup)
        apply hmore.imp
        · rintro - s₂ ⟨w', h₂⟩
          refine ⟨w', ?_⟩
          simp only [Trail.next, hnew, List.append_assoc, List.cons_append, List.nil_append] at h₂
          exact h₂
        · rintro e s₂ ⟨t', w', hran, h₂⟩
          exact ⟨t', w', hran, h₂⟩
      · rintro e s₁ ⟨message, -, h₁⟩
        exact ⟨_, _, rfl, h₁⟩

/-- A program that fails where another one did, its transaction undone. -/
theorem since_rollback {α : Type} {e : Halt} {Q : α → Session ω → Prop} (h : Since B c s t w s') :
    Ends (do
      let _ ← attempt (sql B .rollback)
      throw e : SessionM ω α) Q
      (fun _ s'' => ∃ t' w', Since B c s t' w' s'' ∧ t'.scope = .closed ∧ t'.ran = t.ran) s' := by
  simp only [ends_bind, ends_attempt, ends_throw]
  apply (since_sql B h .rollback).imp
  · rintro a s'' ⟨-, h'⟩
    exact ⟨_, _, h', rfl, rfl⟩
  · rintro e s'' ⟨message, -, h'⟩
    exact ⟨_, _, h', rfl, rfl⟩

/-- The trail behind a call of `og_cypher`. -/
def Trail.called (t : Trail ω) (graph : String) (settings : List (String × String)) (left : ω) :
    Trail ω :=
  { t with ran := t.ran ++ [(settings, graph)], left := some left }

/-- What a query is run under. -/
def own_settings (s : Session ω) (t : Trail ω) (extra : Value) : List (String × String) :=
  if s.in_tx then t.scope.settings else tx_settings B extra

/-- The query is run once, and the counters are those it left; where it fails, nothing else was
run and no transaction is left open. -/
theorem since_execute (hcounting : Counting B) (h : Since B c s t w s')
    (hclosed : s.in_tx = false → t.scope = .closed) (extra : Value) (query : String)
    (params : Json) :
    Ends (execute B extra query params)
      (fun _ s'' => ∃ left w',
        Since B c s (t.called s.graph (own_settings B s t extra) left) w' s'' ∧
          counters B w' = counters B left)
      (fun _ s'' => ∃ t' w', Since B c s t' w' s'' ∧ (s.in_tx = false → t'.scope = .closed) ∧
        (t'.ran = t.ran ∨ t'.ran = t.ran ++ [(own_settings B s t extra, s.graph)])) s' := by
  have hs' : s'.in_tx = s.in_tx ∧ s'.graph = s.graph := by
    obtain ⟨new, rfl, -⟩ := h
    exact ⟨rfl, rfl⟩
  unfold execute
  rw [ends_bind, ends_get]
  dsimp only
  rw [hs'.1, hs'.2]
  generalize hsettings : (if s.in_tx then [] else tx_settings B extra) = own
  split
  next hempty =>
    have hown : t.scope.settings = own_settings B s t extra := by
      unfold own_settings
      cases htx : s.in_tx with
      | true => rfl
      | false =>
          rw [htx, if_neg Bool.false_ne_true] at hsettings
          rw [if_neg Bool.false_ne_true, hsettings, List.isEmpty_iff.mp hempty, hclosed htx]
          rfl
    apply (since_sql B h _).imp
    · rintro rows s'' ⟨-, h'⟩
      refine ⟨(B.answer (.og_cypher s.graph query params) w).2, _, ?_, rfl⟩
      rw [← hown]
      exact h'
    · rintro e s'' ⟨message, -, h'⟩
      refine ⟨_, _, h', hclosed, .inr ?_⟩
      rw [← hown]
      rfl
  next hsome =>
    have htx : s.in_tx = false := by
      cases htx : s.in_tx with
      | true =>
          rw [htx, if_pos rfl] at hsettings
          exact absurd (hsettings ▸ rfl) hsome
      | false => rfl
    have hown : own_settings B s t extra = tx_settings B extra := by
      rw [own_settings, htx, if_neg Bool.false_ne_true]
    rw [htx, if_neg Bool.false_ne_true] at hsettings
    subst hsettings
    rw [ends_bind, hown]
    have hscope := hclosed htx
    apply (since_sql B h .begin).imp
    · rintro a s₁ ⟨-, h₁⟩
      have hopen : (t.next B ⟨.begin, .ok a, (B.answer .begin w).2⟩).scope =
          { active := true, settings := [] } := by
        simp [Trail.next, hscope, Scope.next, Scope.closed]
      rw [ends_bind, ends_attempt]
      apply (since_apply_settings B h₁ (by rw [hopen])
        (by rw [hopen]; exact nodup_tx_settings B extra)).imp
      · rintro - s₂ ⟨w₂, h₂⟩
        simp only
        rw [ends_bind, ends_attempt]
        apply (since_sql B h₂ _).imp
        · rintro rows s₃ ⟨hran, h₃⟩
          simp only
          rw [ends_bind]
          apply (since_sql B h₃ _).imp
          · rintro b s₄ ⟨hcommit, h₄⟩
            rw [ends_pure]
            refine ⟨_, _, ?_, hcounting.commit _ _ _ _ _ hran _ hcommit⟩
            have htrail : ((({ t.next B ⟨.begin, .ok a, (B.answer .begin w).2⟩ with
                scope := { active := true, settings := [] ++ tx_settings B extra } } :
                  Trail ω).next B ⟨.og_cypher s.graph query params, .ok rows, (B.answer
                    (.og_cypher s.graph query params) w₂).2⟩).next B ⟨.commit, .ok b,
                      (B.answer .commit (B.answer (.og_cypher s.graph query params) w₂).2).2⟩) =
                t.called s.graph (tx_settings B extra)
                  (B.answer (.og_cypher s.graph query params) w₂).2 := by
              simp only [Trail.next, Trail.called, Scope.next, List.nil_append, hscope]
            simp only [hopen] at h₄
            rw [htrail] at h₄
            exact h₄
          · rintro e s₄ ⟨message, -, h₄⟩
            refine ⟨_, _, h₄, fun _ => rfl, .inr ?_⟩
            rw [hopen]
            rfl
        · rintro e s₃ ⟨message, -, h₃⟩
          simp only
          apply (since_rollback B h₃).imp
          · intro rows s₄ h₄
            exact h₄
          · rintro e' s₄ ⟨t', w', h₄, hclosed', hran⟩
            refine ⟨t', w', h₄, fun _ => hclosed', .inr ?_⟩
            rw [hran, hopen]
            rfl
      · rintro e s₂ ⟨t₂, w₂, hran₂, h₂⟩
        simp only
        apply (since_rollback B h₂).imp
        · intro rows s₃ h₃
          exact h₃
        · rintro e' s₃ ⟨t', w', h₃, hclosed', hran⟩
          exact ⟨t', w', h₃, fun _ => hclosed', .inl (hran.trans hran₂)⟩
    · rintro e s₁ ⟨message, -, h₁⟩
      exact ⟨_, _, h₁, fun _ => hscope, .inl rfl⟩

theorem since_is_write (h : Since B c s t w s') (query : String) :
    Ends (is_write B query)
      (fun write s'' => ∃ raw, (B.answer (.og_cypher_check query) w).1 = .ok raw ∧
        write = writes B raw ∧
        Since B c s { t with write := write } (B.answer (.og_cypher_check query) w).2 s'')
      (fun _ s'' => ∃ t' w', Since B c s t' w' s'' ∧ t'.scope = t.scope ∧ t'.ran = t.ran) s' := by
  rw [is_write, ends_bind]
  apply (since_sql B h _).imp
  · rintro raw s'' ⟨hraw, h'⟩
    dsimp only
    split
    · rw [ends_pure]
      exact ⟨raw, hraw, rfl, h'⟩
    · rw [ends_throw]
      exact ⟨_, _, h', rfl, rfl⟩
  · rintro e s'' ⟨message, -, h'⟩
    exact ⟨_, _, h', rfl, rfl⟩

/-- A change of the session that leaves its connection alone. -/
theorem Since.modify {g : Session ω → Session ω} (h : Since B c s t w s')
    (hg : ∀ w sent, g (at_connection s w sent) = at_connection (g s) w sent) :
    Since B c (g s) t w (g s') := by
  obtain ⟨new, rfl, rfl⟩ := h
  exact ⟨new, hg _ _, rfl⟩

theorem scope_trail (t : Trail ω) (new : List (Sent ω)) :
    (new.foldl (Trail.next B) t).scope = new.foldl Scope.next t.scope := by
  induction new generalizing t with
  | nil => rfl
  | cons e new ih => exact ih _

/-- What a trail says of the two sessions it lies between. -/
theorem Since.trail_eq {s₀ : Session ω} (h : Since B c s t w s') (hpg : s₀.pg = some c) :
    trail B s₀ s' = t ∧ ∃ c', s'.pg = some c' ∧ c'.state = w ∧ in_effect c'.sent = t.scope := by
  obtain ⟨new, rfl, rfl⟩ := h
  have hpg' : (at_connection s w (c.sent ++ new)).pg = some ⟨w, c.sent ++ new⟩ := rfl
  refine ⟨?_, ⟨w, c.sent ++ new⟩, rfl, rfl, ?_⟩
  · rw [trail, sent_between_append hpg hpg', hpg]
    rfl
  · rw [scope_trail, in_effect, List.foldl_append]
    rfl

/-- The graph a RUN is run against. -/
def graph_of (s : Session ω) (extra : Value) : String :=
  match named extra with
  | some db => db
  | none => if s.in_tx then s.graph else config.default_graph

theorem since_select_graph (h : Since B c s t w s') (extra : Value) :
    Ends (select_graph config extra)
      (fun _ s'' => Since B c { s with graph := graph_of config s extra } t w s'')
      (fun _ _ => False) s' := by
  rw [select_graph, ends_modify, graph_of]
  obtain ⟨new, rfl, ht⟩ := h
  refine ⟨new, ?_, ht⟩
  cases named extra with
  | some db => rfl
  | none => cases htx : s.in_tx <;> simp [at_connection, htx]

/-- What a RUN is run under, and the graph it is run against. -/
def own_run (c : Connection ω) (s : Session ω) (extra : Value) : List (String × String) × String :=
  (if s.in_tx then (in_effect c.sent).settings else tx_settings B extra, graph_of config s extra)

/-- A RUN that is accepted. -/
structure Executed (c : Connection ω) (s : Session ω) (fields : List Value) (s' : Session ω) :
    Prop where
  state : s'.state = .Streaming
  in_tx : s'.in_tx = s.in_tx
  graph : s'.graph = graph_of config s (extra_of fields)
  qtype : s'.qtype = if (trail B s s').write then "w" else "r"
  ran : (trail B s s').ran =
    if plan_only fields then [] else [own_run B config c s (extra_of fields)]
  plan : plan_only fields → plans_write B fields c.state = (trail B s s').write
  connection : ∃ c', s'.pg = some c' ∧ in_effect c'.sent = in_effect c.sent ∧
    counters B c'.state =
      if plan_only fields then counters B c.state else (trail B s s').left.bind (counters B)

/-- A RUN that fails. -/
structure Abandoned (c : Connection ω) (s : Session ω) (fields : List Value) (s' : Session ω) :
    Prop where
  in_tx : s'.in_tx = s.in_tx
  ran : ∀ x ∈ (trail B s s').ran, x = own_run B config c s (extra_of fields)
  connection : ∃ c', s'.pg = some c' ∧ (s.in_tx = false → in_effect c'.sent = .closed)

theorem abandoned {s₁ : Session ω} {fields : List Value} (hpg : s.pg = some c)
    (h : Since B c s₁ t w s') (htx : s₁.in_tx = s.in_tx)
    (hclosed : s.in_tx = false → t.scope = .closed)
    (hran : ∀ x ∈ t.ran, x = own_run B config c s (extra_of fields)) :
    Abandoned B config c s fields s' := by
  obtain ⟨htrail, c', hpg', -, hscope⟩ := h.trail_eq B hpg
  refine ⟨?_, ?_, c', hpg', ?_⟩
  · obtain ⟨new, rfl, -⟩ := h
    exact htx
  · rw [htrail]
    exact hran
  · rw [hscope]
    exact hclosed

theorem executed {s₁ : Session ω} {fields : List Value} (hpg : s.pg = some c)
    (h : Since B c s₁ t w s') (hstate : s₁.state = .Streaming) (htx : s₁.in_tx = s.in_tx)
    (hgraph : s₁.graph = graph_of config s (extra_of fields))
    (hqtype : s₁.qtype = if t.write then "w" else "r") (hscope : t.scope = in_effect c.sent)
    (hran : t.ran = if plan_only fields then [] else [own_run B config c s (extra_of fields)])
    (hplan : plan_only fields → plans_write B fields c.state = t.write)
    (hcounters : counters B w =
      if plan_only fields then counters B c.state else t.left.bind (counters B)) :
    Executed B config c s fields s' := by
  obtain ⟨htrail, c', hpg', hw, hscope'⟩ := h.trail_eq B hpg
  obtain ⟨new, rfl, -⟩ := h
  rw [← htrail] at hqtype hran hplan hcounters
  refine ⟨hstate, htx, hgraph, hqtype, hran, hplan, c', hpg', hscope'.trans hscope, ?_⟩
  rw [hw]
  exact hcounters

/-- What follows the verdict on a query that is no plan. -/
theorem executed_query (hcounting : Counting B) (h : Since B c s t w s')
    (hclosed : s.in_tx = false → t.scope = .closed) (extra : Value) (query : String)
    (params : Json) :
    Ends (do
        let columns ← sql B (.og_cypher_columns query)
        let rows ← execute B extra query params
        open_result (records B columns rows).1 (records B columns rows).2)
      (fun _ s'' => ∃ left w' fields pending,
        Since B c { s with fields := fields, pending := pending, cursor := 0, state := .Streaming }
          (t.called s.graph (own_settings B s t extra) left) w' s'' ∧
            counters B w' = counters B left)
      (fun _ s'' => ∃ t' w', Since B c s t' w' s'' ∧ (s.in_tx = false → t'.scope = .closed) ∧
        (t'.ran = t.ran ∨ t'.ran = t.ran ++ [(own_settings B s t extra, s.graph)])) s' := by
  rw [ends_bind]
  apply (since_sql B h _).imp
  · rintro columns s₁ ⟨-, h₁⟩
    rw [ends_bind]
    apply (since_execute B hcounting h₁ hclosed extra query params).imp
    · rintro rows s₂ ⟨left, w', h₂, hcounters⟩
      rw [open_result, ends_bind, ends_modify, ends_pure]
      exact ⟨left, w', _, _, h₂.modify B (g := fun sess =>
        { sess with
          fields := _
          pending := _
          cursor := 0
          state := .Streaming }) (fun _ _ => rfl), hcounters⟩
    · rintro e s₂ h₂
      exact h₂
  · rintro e s₁ ⟨message, -, h₁⟩
    exact ⟨_, _, h₁, hclosed, .inl rfl⟩

theorem run_query_scoped (hcounting : Counting B) (hpg : s.pg = some c)
    (hclosed : s.in_tx = false → in_effect c.sent = .closed) (fields : List Value) :
    Ends (run_query B config fields) (fun _ s' => Executed B config c s fields s')
      (fun _ s' => Abandoned B config c s fields s') s := by
  have hstart := since_start B hpg
  rw [run_query]
  split
  next => exact abandoned B config hpg hstart rfl hclosed (fun x hx => absurd hx List.not_mem_nil)
  next query hquery =>
    rw [ends_bind]
    apply (since_select_graph B config hstart _).imp
    · intro _ s₁ h₁
      split
      next =>
        exact abandoned B config hpg h₁ rfl hclosed (fun x hx => absurd hx List.not_mem_nil)
      next body plan hplan =>
        have hplan_only : plan_only fields = plan := by
          simp [plan_only, hquery, hplan]
        rw [ends_bind]
        apply (since_is_write B h₁ body).imp
        · rintro write s₂ ⟨raw, hraw, hwrite, h₂⟩
          rw [ends_bind, ends_modify]
          have h₃ := h₂.modify B (g := fun sess =>
            { sess with qtype := if write then "w" else "r" }) (fun _ _ => rfl)
          have hchecked := hcounting.check body raw c.state hraw
          split
          next hyes =>
            rw [open_result, ends_bind, ends_modify, ends_pure]
            have h₄ := h₃.modify B (g := fun sess =>
              { sess with
                fields := []
                pending := []
                cursor := 0
                state := .Streaming }) (fun _ _ => rfl)
            have hyes' : plan_only fields = true := hplan_only.trans hyes
            apply executed B config hpg h₄ rfl rfl rfl rfl rfl
            · rw [if_pos hyes']
              rfl
            · intro _
              rw [hwrite]
              simp [plans_write, hquery, hplan, hyes, hraw]
            · rw [if_pos hyes']
              exact hchecked
          next hno =>
            apply (executed_query B hcounting h₃ hclosed _ _ _).imp
            · rintro metadata s₄ ⟨left, w', fields', pending', h₄, hcounters⟩
              have hno' : ¬ plan_only fields = true := fun h => hno (hplan_only.symm.trans h)
              apply executed B config hpg h₄ rfl rfl rfl rfl rfl
              · rw [if_neg hno']
                rfl
              · intro h
                exact absurd h hno'
              · rw [if_neg hno']
                exact hcounters
            · rintro e s₄ ⟨t', w', h₄, hclosed', hran⟩
              refine abandoned B config hpg h₄ rfl hclosed' ?_
              intro x hx
              rcases hran with hran | hran
              · rw [hran] at hx
                exact absurd hx List.not_mem_nil
              · rw [hran] at hx
                exact List.mem_singleton.mp hx
        · rintro e s₂ ⟨t', w', h₂, hscope, hran⟩
          refine abandoned B config hpg h₂ rfl (fun htx => hscope.trans (hclosed htx)) ?_
          rw [hran]
          exact fun x hx => absurd hx List.not_mem_nil
    · intro e s₁ h
      exact h.elim

/-- BEGIN opens a transaction for its graph and its settings, or leaves none that is its own. -/
theorem begin_scoped (hpg : s.pg = some c) (htx : s.in_tx = false)
    (hclosed : in_effect c.sent = .closed) (extra : Value) :
    Ends (begin B config extra)
      (fun _ s' => s'.state = s.state ∧ s'.in_tx = true ∧
        s'.graph = (named extra).getD config.default_graph ∧
        ∃ c', s'.pg = some c' ∧
          in_effect c'.sent = { active := true, settings := tx_settings B extra })
      (fun _ s' => s'.pg.isSome ∧
        (s'.in_tx = false → ∀ c' ∈ s'.pg, in_effect c'.sent = .closed)) s := by
  have hgraph : graph_of config s extra = (named extra).getD config.default_graph := by
    rw [graph_of, htx]
    cases named extra <;> rfl
  rw [begin, ends_bind]
  apply (since_select_graph B config (since_start B hpg) extra).imp
  · intro _ s₁ h₁
    rw [ends_bind]
    apply (since_sql B h₁ .begin).imp
    · rintro a s₂ ⟨-, h₂⟩
      have hopen : ((Trail.start (in_effect c.sent)).next B
          ⟨.begin, .ok a, (B.answer .begin c.state).2⟩).scope =
          { active := true, settings := [] } := by
        simp [Trail.next, Trail.start, hclosed, Scope.next, Scope.closed]
      rw [ends_bind, ends_modify, ends_bind]
      have h₃ := h₂.modify B (g := fun sess =>
        { sess with in_tx := true, tx_meta := tx_settings B extra }) (fun _ _ => rfl)
      apply (since_apply_settings B h₃ (by rw [hopen])
        (by rw [hopen]; exact nodup_tx_settings B extra)).imp
      · rintro - s₄ ⟨w', h₄⟩
        rw [ends_pure]
        obtain ⟨-, c', hpg', -, hscope⟩ := h₄.trail_eq B hpg
        obtain ⟨new, rfl, -⟩ := h₄
        refine ⟨rfl, rfl, hgraph, c', hpg', ?_⟩
        rw [hscope, hopen]
        rfl
      · rintro e s₄ ⟨t', w', -, h₄⟩
        obtain ⟨new, rfl, -⟩ := h₄
        refine ⟨rfl, ?_⟩
        intro hnone
        cases hnone
    · rintro e s₂ ⟨message, -, h₂⟩
      obtain ⟨-, c₂, hpg₂, -, hscope⟩ := h₂.trail_eq B hpg
      refine ⟨by rw [hpg₂]; rfl, ?_⟩
      intro _ c' hc'
      cases Option.some.inj (hpg₂.symm.trans hc')
      rw [hscope]
      exact hclosed
  · intro e s₁ h
    exact h.elim

/-- Nothing is open behind the statement that ends a transaction, whatever its answer. -/
theorem end_tx_scoped {verb : Statement} (hverb : verb = .commit ∨ verb = .rollback)
    (hpg : s.pg = some c) :
    Ends (end_tx B verb)
      (fun _ s' => s'.state = s.state ∧ s'.in_tx = false ∧
        ∀ c' ∈ s'.pg, in_effect c'.sent = .closed)
      (fun _ s' => s'.pg.isSome ∧ ∀ c' ∈ s'.pg, in_effect c'.sent = .closed) s := by
  rw [end_tx, ends_bind]
  apply (since_sql B (since_start B hpg) verb).imp
  · rintro a s₁ ⟨-, h₁⟩
    obtain ⟨-, c₁, hpg₁, -, hscope⟩ := h₁.trail_eq B hpg
    rw [ends_bind, ends_modify, ends_pure]
    obtain ⟨new, rfl, -⟩ := h₁
    refine ⟨rfl, rfl, ?_⟩
    intro c' hc'
    cases Option.some.inj (hpg₁.symm.trans hc')
    rw [hscope]
    rcases hverb with rfl | rfl <;> rfl
  · rintro e s₁ ⟨message, -, h₁⟩
    obtain ⟨-, c₁, hpg₁, -, hscope⟩ := h₁.trail_eq B hpg
    refine ⟨by rw [hpg₁]; rfl, ?_⟩
    intro c' hc'
    cases Option.some.inj (hpg₁.symm.trans hc')
    rw [hscope]
    rcases hverb with rfl | rfl <;> rfl

theorem reset_scoped (hclosed : s.in_tx = false → ∀ c ∈ s.pg, in_effect c.sent = .closed)
    (hopen : s.in_tx = true → s.pg.isSome) :
    Ends (reset B)
      (fun _ s' => s'.state = .Ready ∧ s'.in_tx = false ∧
        ∀ c' ∈ s'.pg, in_effect c'.sent = .closed)
      (fun _ _ => False) s := by
  rw [reset, ends_bind, ends_modify, ends_bind, ends_get]
  dsimp only
  cases htx : s.in_tx with
  | false =>
      rw [if_neg Bool.false_ne_true, ends_bind, ends_modify, ends_pure]
      exact ⟨rfl, rfl, hclosed htx⟩
  | true =>
      obtain ⟨c, hpg⟩ := Option.isSome_iff_exists.mp (hopen htx)
      have hpg' : ({ s with in_tx := true, pending := [], cursor := 0 } : Session ω).pg = some c :=
        hpg
      rw [if_pos rfl]
      simp only [ends_bind, ends_attempt, ends_modify, ends_pure]
      apply (since_sql B (since_start B hpg') .rollback).imp
      · rintro a s₁ ⟨-, h₁⟩
        obtain ⟨-, c₁, hpg₁, -, hscope⟩ := h₁.trail_eq B hpg'
        refine ⟨trivial, trivial, ?_⟩
        intro c' hc'
        cases Option.some.inj (hpg₁.symm.trans hc')
        exact hscope
      · rintro e s₁ ⟨message, -, h₁⟩
        obtain ⟨-, c₁, hpg₁, -, hscope⟩ := h₁.trail_eq B hpg'
        refine ⟨trivial, trivial, ?_⟩
        intro c' hc'
        cases Option.some.inj (hpg₁.symm.trans hc')
        exact hscope

/-! The summaries -/

/-- The type, the graph and the counters a closing summary reports. -/
theorem map_get_closing (sess : Session ω) (stats : Option Value) :
    (closing sess stats).map_get "type" = some (.string sess.qtype) ∧
      (closing sess stats).map_get "db" = some (.string sess.graph) ∧
      (closing sess stats).map_get "stats" = stats := by
  cases stats with
  | some stats =>
      have hnodup : (([("t_last", .int 0), ("type", .string sess.qtype), ("stats", stats),
          ("db", Value.string sess.graph)] ++
            (if sess.in_tx then [] else [("bookmark", Value.string "ontological:0")]) :
          List (String × Value)).map Prod.fst).Nodup := by
        cases sess.in_tx <;> simp
      exact ⟨map_get_map_of_mem hnodup (by simp), map_get_map_of_mem hnodup (by simp),
        map_get_map_of_mem hnodup (by simp)⟩
  | none =>
      have hnodup : (([("t_last", Value.int 0), ("type", Value.string sess.qtype),
          ("db", Value.string sess.graph)] ++
            (if sess.in_tx then [] else [("bookmark", Value.string "ontological:0")]) :
          List (String × Value)).map Prod.fst).Nodup := by
        cases sess.in_tx <;> simp
      refine ⟨map_get_map_of_mem hnodup (by simp), map_get_map_of_mem hnodup (by simp), ?_⟩
      apply map_get_map_of_not_mem
      cases sess.in_tx <;> simp

/-- The counters are read where the connection stands, and nothing is opened or closed. -/
theorem summary_scoped (hpg : s.pg = some c) :
    Ends (summary B)
      (fun metadata s' =>
        metadata = closing s (if s.qtype = "w" then counters B c.state else none) ∧
          s'.state = .Ready ∧ s'.in_tx = s.in_tx ∧
          ∃ c', s'.pg = some c' ∧ in_effect c'.sent = in_effect c.sent)
      (fun _ _ => False) s := by
  rw [summary, ends_bind, ends_modify, ends_bind, ends_get]
  dsimp only
  have hpg' : ({ s with state := .Ready, pending := [], cursor := 0 } : Session ω).pg = some c :=
    hpg
  split
  next hwrite =>
    simp only [write_stats, ends_bind, ends_attempt]
    apply (since_sql B (since_start B hpg') .og_cypher_stats).imp
    · rintro raw s₁ ⟨hraw, h₁⟩
      obtain ⟨-, c₁, hpg₁, -, hscope⟩ := h₁.trail_eq B hpg'
      obtain ⟨new, rfl, -⟩ := h₁
      simp only [ends_pure]
      refine ⟨?_, rfl, rfl, c₁, hpg₁, hscope⟩
      rw [counters, hraw]
      rfl
    · rintro e s₁ ⟨message, hmessage, h₁⟩
      obtain ⟨-, c₁, hpg₁, -, hscope⟩ := h₁.trail_eq B hpg'
      obtain ⟨new, rfl, -⟩ := h₁
      simp only [ends_pure]
      refine ⟨?_, rfl, rfl, c₁, hpg₁, hscope⟩
      rw [counters, hmessage]
      rfl
  next hread =>
    simp only [ends_bind, ends_pure]
    exact ⟨rfl, trivial, trivial, c, hpg, rfl⟩

/-- A PULL or DISCARD leaves the result open and everything where it was, or closes it. -/
theorem pull_scoped (hstate : s.state = .Streaming) (hpg : s.pg = some c) (extra : Value)
    (deliver : Bool) :
    Ends (pull B extra deliver)
      (fun written s' => ∃ (shown : List Value) (metadata : Value),
        written = shown.map (fun r => Value.struct RECORD [r]) ++ [Value.struct SUCCESS [metadata]] ∧
          s'.in_tx = s.in_tx ∧
          (HasMore metadata ∧ s'.state = .Streaming ∧ s'.graph = s.graph ∧ s'.qtype = s.qtype ∧
              s'.pg = s.pg ∨
            metadata = closing s (if s.qtype = "w" then counters B c.state else none) ∧
              s'.state = .Ready ∧ ∃ c', s'.pg = some c' ∧ in_effect c'.sent = in_effect c.sent))
      (fun _ _ => False) s := by
  have hwritten : (if deliver then (taken s extra).map fun r => Value.struct RECORD [r] else []) =
      (if deliver then taken s extra else []).map fun r => .struct RECORD [r] := by
    cases deliver <;> rfl
  rw [pull, ends_bind, ends_get]
  dsimp only
  rw [if_neg (by simpa using hstate), ends_bind, ends_modify, hwritten]
  split
  next =>
    rw [ends_pure]
    exact ⟨_, _, rfl, rfl, .inl ⟨hasMore_open, hstate, rfl, rfl, rfl⟩⟩
  next =>
    rw [ends_bind]
    apply (summary_scoped B (c := c) hpg).imp
    · rintro metadata s' ⟨hmetadata, hready, htx, hc'⟩
      rw [ends_pure]
      exact ⟨_, _, rfl, htx, .inr ⟨hmetadata, hready, hc'⟩⟩
    · intro e s' h
      exact h

end Handlers

/-! The ledger and the session -/

/-- What the summary of the open result will read is what is due. -/
structure Stands (due : Due ω) (s : Session ω) (c : Connection ω) : Prop where
  graph : s.graph = due.graph
  qtype : s.qtype = if due.write then "w" else "r"
  counters : due.write = true →
    if due.plan_only then NoChanges (BoltScoping.counters B c.state)
    else BoltScoping.counters B c.state = due.left.bind (BoltScoping.counters B)

/-- The ledger says what the session holds. -/
structure Consistent (l : Ledger ω) (s : Session ω) : Prop where
  failed : l.failed = true ↔ s.state = .Failed
  connected : s.in_tx = true → s.pg.isSome
  closed : s.in_tx = false → ∀ c ∈ s.pg, in_effect c.sent = .closed
  autocommit : s.state ≠ .Failed → s.in_tx = false → l.tx = none
  tx : s.state ≠ .Failed → s.in_tx = true → ∃ tx, l.tx = some tx ∧
    ∀ c ∈ s.pg, in_effect c.sent = { active := true, settings := tx.settings }
  ready : s.state = .Ready → l.due = none
  streaming : s.state = .Streaming → ∃ due c, l.due = some due ∧ s.pg = some c ∧ Stands B due s c

/-- What a turn that does not end the connection does to the ledger. -/
def Settled (l : Ledger ω) (s : Session ω) (msg : Value) (written : List Value)
    (after : Session ω) : Prop :=
  Scoped B config l (Exchange.mk s msg written after) ∧
    Consistent B (l.next B config (Exchange.mk s msg written after)) after

/-- What a handler has to do for the ledger. -/
def Observes (l : Ledger ω) (s : Session ω) (msg : Value) (m : SessionM ω (List Value)) : Prop :=
  Ends m (fun written s' => Settled B config l s msg written s')
    (fun h s' => ∀ f, h = .failure f →
      Settled B config l s msg [into_message f] { s' with state := .Failed }) s

section Turns

variable {l : Ledger ω} {s s' after : Session ω} {sig : UInt8} {fields written : List Value}

/-- The own settings and graph of a RUN. -/
def own_of (l : Ledger ω) (extra : Value) : List (String × String) × String :=
  (l.settings B extra, l.graph config extra)

theorem settled_failure (hl : Consistent B l s) (hsig : sig ≠ RESET) (hstate : s.state ≠ .Failed)
    (hpull : s.state = .Streaming → sig ≠ PULL ∧ sig ≠ DISCARD)
    (hran : sig = RUN → ∀ x ∈ (trail B s s').ran, x = own_of B config l (extra_of fields))
    (hconnected : s'.in_tx = true → s'.pg.isSome)
    (hclosed : s'.in_tx = false → ∀ c ∈ s'.pg, in_effect c.sent = .closed) (f : Failure) :
    Settled B config l s (.struct sig fields) [into_message f] { s' with state := .Failed } := by
  have hfailed : l.failed = false := by simpa using mt hl.failed.mp hstate
  constructor
  · rintro sig' fields' heq -
    cases heq
    refine ⟨fun hrun => ⟨hran hrun, ?_⟩, ?_⟩
    · rintro ⟨metadata, h⟩
      cases h
    · intro hsig' due hdue
      cases hs : s.state with
      | Ready =>
          rw [hl.ready hs] at hdue
          cases hdue
      | Streaming =>
          obtain ⟨hne, hne'⟩ := hpull hs
          exact absurd hsig' (not_or.mpr ⟨hne, hne'⟩)
      | Failed => exact absurd hs hstate
  · have hnext : l.next B config (Exchange.mk s (.struct sig fields) [into_message f]
        { s' with state := .Failed }) = { l with failed := true } := by
      have hrefused : refused [into_message f] = true := rfl
      unfold Ledger.next
      simp only
      rw [if_neg hsig, if_neg (by simp [hfailed]), if_pos hrefused]
    rw [hnext]
    refine ⟨iff_of_true rfl rfl, hconnected, hclosed, ?_, ?_, ?_, ?_⟩ <;> intro h
    · exact absurd rfl h
    · exact absurd rfl h
    · cases h
    · cases h

/-! Without a connection -/

theorem sql_unconnected (hpg : s.pg = none) (st : Statement) :
    Ends (sql B st) (fun _ _ => False) (fun _ s' => s' = s) s := by
  simp only [sql, client, ends_bind, ends_get, hpg, ends_throw]

/-- What is left of a session that has no connection. -/
def Unconnected (s s' : Session ω) : Prop :=
  s'.pg = none ∧ s'.in_tx = s.in_tx

theorem select_graph_unconnected (hpg : s.pg = none) (extra : Value) :
    Ends (select_graph config extra) (fun _ s' => Unconnected s s') (fun _ _ => False) s := by
  rw [select_graph, ends_modify]
  split
  · exact ⟨hpg, rfl⟩
  · split
    · exact ⟨hpg, rfl⟩
    · exact ⟨hpg, rfl⟩

theorem run_query_unconnected (hpg : s.pg = none) (fields : List Value) :
    Ends (run_query B config fields) (fun _ _ => False) (fun _ s' => Unconnected s s') s := by
  rw [run_query]
  split
  · exact ⟨hpg, rfl⟩
  · rw [ends_bind]
    apply (select_graph_unconnected config hpg _).imp
    · intro _ s₁ h₁
      split
      · exact h₁
      · rw [ends_bind, is_write, ends_bind]
        apply (sql_unconnected B h₁.1 _).imp
        · intro _ s₂ h₂
          exact h₂.elim
        · rintro e s₂ rfl
          exact h₁
    · intro e s₁ h₁
      exact h₁.elim

theorem begin_unconnected (hpg : s.pg = none) (extra : Value) :
    Ends (begin B config extra) (fun _ _ => False) (fun _ s' => Unconnected s s') s := by
  rw [begin, ends_bind]
  apply (select_graph_unconnected config hpg _).imp
  · intro _ s₁ h₁
    rw [ends_bind]
    apply (sql_unconnected B h₁.1 _).imp
    · intro _ s₂ h₂
      exact h₂.elim
    · rintro e s₂ rfl
      exact h₁
  · intro e s₁ h₁
    exact h₁.elim

theorem trail_unconnected (hpg : s'.pg = none) : (trail B s s').ran = [] := by
  rw [trail, sent_between, hpg]
  rfl

theorem settled_unconnected (hl : Consistent B l s) (hsig : sig ≠ RESET)
    (hstate : s.state ≠ .Failed) (hpull : s.state = .Streaming → sig ≠ PULL ∧ sig ≠ DISCARD)
    (hpg : s.pg = none) (h : Unconnected s s') (f : Failure) :
    Settled B config l s (.struct sig fields) [into_message f] { s' with state := .Failed } := by
  apply settled_failure B config hl hsig hstate hpull
  · intro _ x hx
    rw [trail_unconnected B h.1] at hx
    exact absurd hx List.not_mem_nil
  · intro htx
    have hconnected := hl.connected (h.2.symm.trans htx)
    rw [hpg] at hconnected
    cases hconnected
  · intro _ c hc
    rw [h.1] at hc
    cases hc

/-! The handlers, one by one -/

/-- The ledger after an answer that is no failure. -/
theorem next_accepted (hfailed : l.failed = false) (hsig : sig ≠ RESET)
    (hwritten : refused written = false) :
    l.next B config (Exchange.mk s (.struct sig fields) written after) =
      if sig = RUN then
        { l with
          due := some {
            write := (trail B s after).write
            plan_only := plan_only fields
            graph := l.graph config (extra_of fields)
            left := (trail B s after).left } }
      else if sig = PULL ∨ sig = DISCARD then
        { l with due := if has_more written then l.due else none }
      else if sig = BEGIN then
        { l with
          tx := some {
            graph := (named (fields.getLast?.getD .null)).getD config.default_graph
            settings := tx_settings B (fields.getLast?.getD .null) } }
      else if sig = COMMIT ∨ sig = ROLLBACK then { l with tx := none }
      else l := by
  unfold Ledger.next
  simp only
  rw [if_neg hsig, if_neg (by simp [hfailed]), if_neg (by simp [hwritten])]

theorem own_eq (hl : Consistent B l s) (hstate : s.state ≠ .Failed)
    (hapart : Apart B l s RUN fields) {c : Connection ω} (hpg : s.pg = some c) :
    own_run B config c s (extra_of fields) = own_of B config l (extra_of fields) := by
  unfold own_run own_of Ledger.settings Ledger.graph graph_of
  cases htx : s.in_tx with
  | false => rw [hl.autocommit hstate htx]; cases named (extra_of fields) <;> rfl
  | true =>
      obtain ⟨tx, hltx, hscope⟩ := hl.tx hstate htx
      rw [hltx, hscope c hpg]
      cases hnamed : named (extra_of fields) with
      | some db => rfl
      | none =>
          rw [hapart.graph rfl hnamed tx hltx]
          rfl

/-- A message that opens and ends no transaction. -/
theorem Consistent.follow (hl : Consistent B l s) (hstate : s.state ≠ .Failed) {c : Connection ω}
    (hpg : s.pg = some c) (htx : after.in_tx = s.in_tx)
    (hpg' : ∃ c', after.pg = some c' ∧ in_effect c'.sent = in_effect c.sent)
    (hstate' : after.state ≠ .Failed) {due : Option (Due ω)}
    (hready : after.state = .Ready → due = none)
    (hstreaming : after.state = .Streaming →
      ∃ d c', due = some d ∧ after.pg = some c' ∧ Stands B d after c') :
    Consistent B { l with due := due } after := by
  obtain ⟨c', hpg', hscope⟩ := hpg'
  have hstands : ∀ c'' ∈ after.pg, in_effect c''.sent = in_effect c.sent := by
    intro c'' hc''
    cases Option.some.inj (hpg'.symm.trans hc'')
    exact hscope
  refine ⟨?_, ?_, ?_, ?_, ?_, hready, hstreaming⟩
  · exact iff_of_false (fun h => hstate (hl.failed.mp h)) hstate'
  · intro _
    rw [hpg']
    rfl
  · intro h c'' hc''
    rw [hstands c'' hc'']
    exact hl.closed (htx.symm.trans h) c hpg
  · intro _ h
    exact hl.autocommit hstate (htx.symm.trans h)
  · intro _ h
    obtain ⟨tx, hltx, hsettings⟩ := hl.tx hstate (htx.symm.trans h)
    refine ⟨tx, hltx, ?_⟩
    intro c'' hc''
    rw [hstands c'' hc'']
    exact hsettings c hpg

theorem observes_run (hcounting : Counting B) (hl : Consistent B l s) (hstate : s.state ≠ .Failed)
    (hapart : Apart B l s RUN fields) :
    Observes B config l s (.struct RUN fields) (succeed (run_query B config fields)) := by
  have hfailed : l.failed = false := by simpa using mt hl.failed.mp hstate
  have hready := ready_of_expected hstate hapart.expected (.inl rfl)
  have hpull : s.state = .Streaming → RUN ≠ PULL ∧ RUN ≠ DISCARD := fun _ => by decide
  rw [Observes, succeed, ends_bind]
  cases hpg : s.pg with
  | none =>
      apply (run_query_unconnected B config hpg fields).imp
      · intro _ s' h
        exact h.elim
      · rintro e s' h f -
        exact settled_unconnected B config hl (by decide) hstate hpull hpg h f
  | some c =>
      have hown := own_eq B config hl hstate hapart hpg
      apply (run_query_scoped B config hcounting hpg (fun htx => hl.closed htx c hpg) fields).imp
      · intro metadata after h
        rw [ends_pure]
        obtain ⟨c', hpg', hscope, hcounters⟩ := h.connection
        constructor
        · rintro sig fields' heq -
          cases heq
          refine ⟨fun _ => ⟨?_, ?_⟩, ?_⟩
          · intro x hx
            rw [h.ran, hown] at hx
            split at hx
            · exact absurd hx List.not_mem_nil
            · exact List.mem_singleton.mp hx
          · intro _
            rw [h.ran, hown]
            rfl
          · rintro (h | h) <;> cases h
        · rw [next_accepted B config hfailed (by decide) rfl, if_pos rfl]
          apply hl.follow B hstate hpg h.in_tx ⟨c', hpg', hscope⟩
          · rw [h.state]
            decide
          · intro hs
            rw [h.state] at hs
            cases hs
          · intro _
            refine ⟨_, c', rfl, hpg', h.graph.trans (congrArg Prod.snd hown), h.qtype, ?_⟩
            intro hwrite
            rw [hcounters]
            split
            next hplan =>
              apply hapart.plan rfl c hpg
              rw [h.plan hplan]
              exact hwrite
            next => rfl
      · rintro e s' h f -
        obtain ⟨c', hpg', hclosed⟩ := h.connection
        apply settled_failure B config hl (by decide) hstate hpull
        · intro _
          rw [← hown]
          exact h.ran
        · intro _
          rw [hpg']
          rfl
        · intro htx c'' hc''
          cases Option.some.inj (hpg'.symm.trans hc'')
          exact hclosed (h.in_tx.symm.trans htx)

theorem hasMore_iff (metadata : Value) (shown : List Value) :
    has_more (shown ++ [Value.struct SUCCESS [metadata]]) = true ↔ HasMore metadata := by
  unfold has_more HasMore
  rw [List.getLast?_concat]
  simp only
  split
  next b hb => simp [hb]
  next hnone =>
    constructor
    · intro h
      cases h
    · intro h
      exact absurd h (hnone true)

theorem refused_taken (shown : List Value) (metadata : Value) :
    refused (shown.map (fun r => Value.struct RECORD [r]) ++ [Value.struct SUCCESS [metadata]]) =
      false := by
  cases shown with
  | nil => rfl
  | cons r shown => cases shown <;> rfl

theorem reports_closing {due : Due ω} {c : Connection ω} (h : Stands B due s c) :
    Reports B due (closing s (if s.qtype = "w" then counters B c.state else none)) := by
  obtain ⟨htype, hdb, hstats⟩ := map_get_closing s (if s.qtype = "w" then counters B c.state else none)
  have hqtype := h.qtype
  have hcounters := h.counters
  refine ⟨?_, ?_, ?_⟩
  · rw [htype, hqtype]
  · rw [hdb, h.graph]
  · rw [hstats]
    cases hwrite : due.write with
    | false =>
        have hread : ¬ s.qtype = "w" := by
          rw [hqtype, hwrite]
          decide
        rw [if_neg hread]
        trivial
    | true =>
        have hw : s.qtype = "w" := by
          rw [hqtype, hwrite]
          rfl
        have hdue := hcounters hwrite
        rw [if_pos hw]
        cases hplan : due.plan_only with
        | false =>
            rw [hplan] at hdue
            exact hdue
        | true =>
            rw [hplan] at hdue
            exact hdue

theorem observes_pull (hl : Consistent B l s) (hstate : s.state ≠ .Failed) (deliver : Bool)
    (hsig : sig = if deliver then PULL else DISCARD) (extra : Value) :
    Observes B config l s (.struct sig fields) (pull B extra deliver) := by
  have hfailed : l.failed = false := by simpa using mt hl.failed.mp hstate
  have hpull : sig = PULL ∨ sig = DISCARD := by
    cases deliver
    · exact .inr hsig
    · exact .inl hsig
  have hne : sig ≠ RESET ∧ sig ≠ RUN := by
    rcases hpull with rfl | rfl <;> decide
  cases hs : s.state with
  | Failed => exact absurd hs hstate
  | Ready =>
      have hclosed : ¬ s.state = .Streaming := by
        rw [hs]
        decide
      rw [Observes, pull, ends_bind, ends_get]
      dsimp only
      rw [if_pos hclosed, ends_throw]
      intro f _
      exact settled_failure B config hl hne.1 hstate (fun h => absurd h hclosed)
        (fun h => absurd h hne.2) hl.connected hl.closed f
  | Streaming =>
      obtain ⟨due, c, hdue, hpg, hstands⟩ := hl.streaming hs
      apply (pull_scoped B hs hpg extra deliver).imp
      · rintro written after ⟨shown, metadata, rfl, htx, hafter⟩
        constructor
        · rintro sig' fields' heq -
          cases heq
          refine ⟨fun h => absurd h hne.2, ?_⟩
          intro _ due' hdue'
          obtain rfl : due = due' := Option.some.inj (hdue.symm.trans hdue')
          refine ⟨_, metadata, rfl, ?_⟩
          intro hlast
          rcases hafter with ⟨hmore, -⟩ | ⟨rfl, -⟩
          · exact absurd hmore hlast
          · exact reports_closing B hstands
        · rw [next_accepted B config hfailed hne.1 (refused_taken shown metadata), if_neg hne.2,
            if_pos hpull]
          rcases hafter with ⟨hmore, hstate', hgraph, hqtype, hpg'⟩ | ⟨rfl, hready, c', hpg', hscope⟩
          · rw [if_pos ((hasMore_iff metadata _).mpr hmore)]
            apply hl.follow B hstate hpg htx ⟨c, hpg'.trans hpg, rfl⟩
            · rw [hstate']
              decide
            · intro h
              rw [hstate'] at h
              cases h
            · intro _
              exact ⟨due, c, hdue, hpg'.trans hpg, hgraph.trans hstands.graph,
                hqtype.trans hstands.qtype, hstands.counters⟩
          · have hlast : ¬ has_more (shown.map (fun r => Value.struct RECORD [r]) ++
                [Value.struct SUCCESS [closing s (if s.qtype = "w" then counters B c.state else none)]]) =
                true := by
              rw [hasMore_iff]
              exact not_hasMore_closing s _
            rw [if_neg hlast]
            apply hl.follow B hstate hpg htx ⟨c', hpg', hscope⟩
            · rw [hready]
              decide
            · intro _
              rfl
            · intro h
              rw [hready] at h
              cases h
      · intro e s' h
        exact h.elim

theorem observes_begin (hl : Consistent B l s) (hstate : s.state ≠ .Failed)
    (hexpected : Expected s BEGIN) :
    Observes B config l s (.struct BEGIN fields)
      (succeed (begin B config (fields.getLast?.getD .null))) := by
  have hfailed : l.failed = false := by simpa using mt hl.failed.mp hstate
  have hready := ready_of_expected hstate hexpected (.inr (.inl rfl))
  have htx := (hexpected.2 hready).1 rfl
  have hpull : s.state = .Streaming → BEGIN ≠ PULL ∧ BEGIN ≠ DISCARD := fun _ => by decide
  rw [Observes, succeed, ends_bind]
  cases hpg : s.pg with
  | none =>
      apply (begin_unconnected B config hpg _).imp
      · intro _ s' h
        exact h.elim
      · rintro e s' h f -
        exact settled_unconnected B config hl (by decide) hstate hpull hpg h f
  | some c =>
      apply (begin_scoped B config hpg htx (hl.closed htx c hpg) _).imp
      · rintro metadata after ⟨hkept, hopen, hgraph, c', hpg', hscope⟩
        rw [ends_pure]
        constructor
        · rintro sig fields' heq -
          cases heq
          refine ⟨fun h => absurd h (by decide), ?_⟩
          rintro (h | h) <;> cases h
        · rw [next_accepted B config hfailed (by decide) rfl, if_neg (by decide),
            if_neg (by decide), if_pos rfl]
          have hready' := hkept.trans hready
          refine ⟨by simp [hfailed, hready'], ?_, ?_, ?_, ?_, fun _ => hl.ready hready, ?_⟩
          · intro _
            rw [hpg']
            rfl
          · intro h
            rw [hopen] at h
            cases h
          · intro _ h
            rw [hopen] at h
            cases h
          · intro _ _
            refine ⟨_, rfl, ?_⟩
            intro c'' hc''
            cases Option.some.inj (hpg'.symm.trans hc'')
            exact hscope
          · intro h
            rw [hready'] at h
            cases h
      · rintro e s' ⟨hconnected, hclosed⟩ f -
        exact settled_failure B config hl (by decide) hstate hpull
          (fun h => absurd h (by decide)) (fun _ => hconnected) hclosed f

theorem observes_end (hl : Consistent B l s) (hstate : s.state ≠ .Failed)
    (hexpected : Expected s sig) (hsig : sig = COMMIT ∨ sig = ROLLBACK) {verb : Statement}
    (hverb : verb = .commit ∨ verb = .rollback) :
    Observes B config l s (.struct sig fields) (succeed (end_tx B verb)) := by
  have hfailed : l.failed = false := by simpa using mt hl.failed.mp hstate
  have hready := ready_of_expected hstate hexpected (.inr (.inr hsig))
  have htx := (hexpected.2 hready).2 hsig
  obtain ⟨c, hpg⟩ := Option.isSome_iff_exists.mp (hl.connected htx)
  have hne : sig ≠ RESET ∧ sig ≠ PULL ∧ sig ≠ DISCARD ∧ sig ≠ RUN ∧ sig ≠ BEGIN := by
    rcases hsig with rfl | rfl <;> decide
  obtain ⟨hreset, hpull, hdiscard, hrun, hbegin⟩ := hne
  rw [Observes, succeed, ends_bind]
  apply (end_tx_scoped B hverb hpg).imp
  · rintro metadata after ⟨hkept, hended, hclosed⟩
    rw [ends_pure]
    constructor
    · rintro sig' fields' heq -
      cases heq
      refine ⟨fun h => absurd h hrun, ?_⟩
      rintro (h | h)
      · exact absurd h hpull
      · exact absurd h hdiscard
    · rw [next_accepted B config hfailed hreset rfl, if_neg hrun,
        if_neg (not_or.mpr ⟨hpull, hdiscard⟩), if_neg hbegin, if_pos hsig]
      have hready' := hkept.trans hready
      refine ⟨by simp [hfailed, hready'], ?_, fun _ => hclosed, fun _ _ => rfl, ?_,
        fun _ => hl.ready hready, ?_⟩
      · intro h
        rw [hended] at h
        cases h
      · intro _ h
        rw [hended] at h
        cases h
      · intro h
        rw [hready'] at h
        cases h
  · rintro e s' ⟨hconnected, hclosed⟩ f -
    exact settled_failure B config hl hreset hstate (fun _ => ⟨hpull, hdiscard⟩)
      (fun h => absurd h hrun) (fun _ => hconnected) (fun _ => hclosed) f

theorem observes_reset (hl : Consistent B l s) :
    Observes B config l s (.struct RESET fields) (succeed (reset B)) := by
  rw [Observes, succeed, ends_bind]
  apply (reset_scoped B hl.closed hl.connected).imp
  · rintro metadata after ⟨hready, hended, hclosed⟩
    rw [ends_pure]
    constructor
    · rintro sig fields' heq -
      cases heq
      refine ⟨fun h => absurd h (by decide), ?_⟩
      rintro (h | h) <;> cases h
    · have hnext : l.next B config (Exchange.mk s (.struct RESET fields)
          [.struct SUCCESS [metadata]] after) = .start := by
        simp only [Ledger.next, reduceIte]
      rw [hnext]
      refine ⟨by simp [Ledger.start, hready], ?_, fun _ => hclosed, fun _ _ => rfl, ?_,
        fun _ => rfl, ?_⟩
      · intro h
        rw [hended] at h
        cases h
      · intro _ h
        rw [hended] at h
        cases h
      · intro h
        rw [hready] at h
        cases h
  · intro e s' h
    exact h.elim

/-- The messages that run nothing and neither open nor end anything. -/
theorem settled_other (hl : Consistent B l s) (hstate : s.state ≠ .Failed)
    (hsig : ∀ k ∈ [RESET, RUN, PULL, DISCARD, BEGIN, COMMIT, ROLLBACK], sig ≠ k)
    {metadata : Value} (hafter : Consistent B l after) :
    Settled B config l s (.struct sig fields) [.struct SUCCESS [metadata]] after := by
  simp only [List.forall_mem_cons, List.not_mem_nil, false_imp_iff, implies_true, and_true] at hsig
  obtain ⟨hreset, hrun, hpull, hdiscard, hbegin, hcommit, hrollback⟩ := hsig
  have hfailed : l.failed = false := by simpa using mt hl.failed.mp hstate
  constructor
  · rintro sig' fields' heq -
    cases heq
    refine ⟨fun h => absurd h hrun, ?_⟩
    rintro (h | h)
    · exact absurd h hpull
    · exact absurd h hdiscard
  · rw [next_accepted B config hfailed hreset rfl, if_neg hrun,
      if_neg (not_or.mpr ⟨hpull, hdiscard⟩), if_neg hbegin, if_neg (not_or.mpr ⟨hcommit, hrollback⟩)]
    exact hafter

theorem observes_hello (hl : Consistent B l s) (hready : s.state = .Ready)
    (htx : s.in_tx = false) (extra : Value) :
    Observes B config l s (.struct HELLO fields) (succeed (hello B config extra)) := by
  have hstate : s.state ≠ .Failed := by
    rw [hready]
    decide
  rw [Observes, succeed, ends_bind]
  unfold hello
  dsimp only
  split
  · rintro f -
    exact settled_failure B config hl (by decide) hstate (fun _ => by decide)
      (fun h => absurd h (by decide)) hl.connected hl.closed f
  · rw [ends_bind, ends_modify, ends_pure, ends_pure]
    apply settled_other B config hl hstate hello_other
    refine ⟨hl.failed, fun _ => rfl, ?_, fun _ => hl.autocommit hstate, ?_, hl.ready, ?_⟩
    · rintro - c ⟨⟩
      rfl
    · intro _ h
      rw [show s.in_tx = true from h] at htx
      cases htx
    · intro h
      rw [show s.state = .Streaming from h] at hready
      cases hready

theorem observes_dispatch (hcounting : Counting B) (hl : Consistent B l s)
    (hgo : ¬ (s.state = .Failed ∧ sig ≠ RESET))
    (hapart : s.state ≠ .Failed → Apart B l s sig fields) :
    Observes B config l s (.struct sig fields) (dispatch B config sig fields) := by
  have hstate : sig ≠ RESET → s.state ≠ .Failed := fun hsig hs => hgo ⟨hs, hsig⟩
  unfold dispatch
  dsimp only
  by_cases hhello : sig = HELLO
  · subst hhello
    obtain ⟨hready, htx⟩ := (hapart (hstate (by decide))).hello rfl
    rw [if_pos rfl]
    exact observes_hello B config hl hready htx _
  rw [if_neg hhello]
  by_cases hrun : sig = RUN
  · subst hrun
    rw [if_pos rfl]
    exact observes_run B config hcounting hl (hstate (by decide)) (hapart (hstate (by decide)))
  rw [if_neg hrun]
  by_cases hpull : sig = PULL
  · subst hpull
    rw [if_pos rfl]
    exact observes_pull B config hl (hstate (by decide)) true rfl _
  rw [if_neg hpull]
  by_cases hdiscard : sig = DISCARD
  · subst hdiscard
    rw [if_pos rfl]
    exact observes_pull B config hl (hstate (by decide)) false rfl _
  rw [if_neg hdiscard]
  by_cases hbegin : sig = BEGIN
  · subst hbegin
    have hne := hstate (by decide)
    rw [if_pos rfl]
    exact observes_begin B config hl hne (hapart hne).expected
  rw [if_neg hbegin]
  by_cases hcommit : sig = COMMIT
  · subst hcommit
    have hne := hstate (by decide)
    rw [if_pos rfl]
    exact observes_end B config hl hne (hapart hne).expected (.inl rfl) (.inl rfl)
  rw [if_neg hcommit]
  by_cases hrollback : sig = ROLLBACK
  · subst hrollback
    have hne := hstate (by decide)
    rw [if_pos rfl]
    exact observes_end B config hl hne (hapart hne).expected (.inr rfl) (.inr rfl)
  rw [if_neg hrollback]
  by_cases hreset : sig = RESET
  · subst hreset
    rw [if_pos rfl]
    exact observes_reset B config hl
  rw [if_neg hreset]
  split
  · rw [Observes, succeed, ends_bind, routing_table, ends_bind, ends_get, ends_pure, ends_pure]
    apply settled_other B config hl (hstate hreset) _ hl
    simp [hreset, hrun, hpull, hdiscard, hbegin, hcommit, hrollback]
  · rintro f -
    exact settled_failure B config hl hreset (hstate hreset) (fun _ => ⟨hpull, hdiscard⟩)
      (fun h => absurd h hrun) hl.connected hl.closed f

/-- One turn of the message loop settles the ledger. -/
theorem turn_settled (hcounting : Counting B) {msg : Value} (hl : Consistent B l s)
    (hapart : s.state ≠ .Failed → ∀ m ∈ request msg, Apart B l s m.1 m.2)
    (hturn : turn B config s msg = some (written, after)) :
    Settled B config l s msg written after := by
  cases msg with
  | struct sig fields =>
      rw [turn] at hturn
      split at hturn
      next => cases hturn
      next =>
        split at hturn
        next hignored =>
          cases hturn
          have hfailed : l.failed = true := hl.failed.mpr hignored.1
          have hnext : l.next B config
              (Exchange.mk s (.struct sig fields) [.struct IGNORED []] s) = l := by
            unfold Ledger.next
            simp only
            rw [if_neg hignored.2, if_pos hfailed]
          constructor
          · rintro sig' fields' heq hopen
            rw [show l.failed = false from hopen] at hfailed
            cases hfailed
          · rw [hnext]
            exact hl
        next hgo =>
          have hobserves : Observes B config l s (.struct sig fields) (dispatch B config sig fields) :=
            observes_dispatch B config hcounting hl hgo fun hstate => hapart hstate (sig, fields) rfl
          unfold Observes Ends at hobserves
          split at hturn
          next heq =>
            cases hturn
            rw [heq] at hobserves
            exact hobserves
          next heq =>
            cases hturn
            rw [heq] at hobserves
            exact hobserves _ rfl
          next => cases hturn
  | null | bool _ | int _ | float _ | string _ | list _ | map _ => cases hturn

end Turns

/-! Runs -/

theorem accounts_run (hcounting : Counting B) (msgs : List Value) :
    ∀ (l : Ledger ω) (s : Session ω), Consistent B l s →
      ApartRun B config l (run B config s msgs) → Accounts B config l (run B config s msgs) := by
  induction msgs with
  | nil =>
      intro l s _ _
      trivial
  | cons msg msgs ih =>
      intro l s hl hrun
      rw [run] at hrun ⊢
      split at hrun
      next => trivial
      next written after hturn =>
        obtain ⟨hscoped, hafter⟩ := turn_settled B config hcounting hl hrun.1 hturn
        exact ⟨hscoped, ih _ after hafter hrun.2⟩

/-- In a session whose messages are kept apart, every RUN is run against its own graph and under
its own settings, and every result is closed with the type, the graph and the changes of its own
query. -/
theorem session_accounts (hcounting : Counting B) (msgs : List Value)
    (hapart : ApartRun B config .start (run B config (start config) msgs)) :
    Accounts B config .start (run B config (start config) msgs) := by
  apply accounts_run B config hcounting msgs .start (start config) _ hapart
  refine ⟨by simp [Ledger.start, start], ?_, ?_, fun _ _ => rfl, ?_, fun _ => rfl, ?_⟩
  · intro h
    cases h
  · rintro - c ⟨⟩
  · intro _ h
    cases h
  · intro h
    cases h

/-! A session -/

/-- A database whose queries all create a node, counting what the last one created. -/
def creating : Backend Bool where
  connect _ _ := .ok false
  answer s w :=
    match s with
    | .begin | .commit | .rollback | .set_config _ _ => (.ok (), w)
    | .og_cypher_columns _ => (.ok [], w)
    | .og_cypher_check _ => (.ok "check", w)
    | .og_cypher _ _ _ => (.ok [], true)
    | .og_cypher_stats => (.ok (if w then "created" else "nothing"), w)
  from_str text :=
    if text = "check" then some (.object [("ok", .bool true), ("write", .bool true)])
    else if text = "created" then some (.object [("nodes-created", .number (.int 1))])
    else if text = "nothing" then some (.object [("nodes-created", .number (.int 0))])
    else none
  to_string _ := ""

theorem counting_creating : Counting creating where
  check _ _ _ _ := rfl
  commit _ _ _ _ _ _ _ _ := rfl

instance (o : Option Value) : Decidable (NoChanges o) :=
  match o with
  | none => isTrue trivial
  | some (.map m) => inferInstanceAs (Decidable (∀ e ∈ m, counts_nothing e.2))
  | some .null | some (.bool _) | some (.int _) | some (.float _) | some (.string _)
  | some (.list _) | some (.struct _ _) => isFalse id

instance (l : Ledger ω) (s : Session ω) (sig : UInt8) (fields : List Value) :
    Decidable (Apart B l s sig fields) :=
  decidable_of_iff
    (Expected s sig ∧ (sig = HELLO → s.state = .Ready ∧ s.in_tx = false) ∧
      (sig = RUN → named (extra_of fields) = none → ∀ tx ∈ l.tx, s.graph = tx.graph) ∧
      (sig = RUN → ∀ c ∈ s.pg, plans_write B fields c.state → NoChanges (counters B c.state)))
    ⟨fun h => ⟨h.1, h.2.1, h.2.2.1, h.2.2.2⟩, fun h => ⟨h.expected, h.hello, h.graph, h.plan⟩⟩

instance decidableApartRun : (l : Ledger ω) → (es : List (Exchange ω)) →
    Decidable (ApartRun B config l es)
  | _, [] => isTrue trivial
  | l, e :: es =>
      have := decidableApartRun (l.next B config e) es
      inferInstanceAs (Decidable
        ((e.before.state ≠ .Failed → ∀ m ∈ request e.msg, Apart B l e.before m.1 m.2) ∧
          ApartRun B config (l.next B config e) es))

theorem session_accounts_create :
    let session := [hello_message, run_message "CREATE (n)", pull_message (-1)]
    Accounts creating local_config .start (run creating local_config (start local_config) session) :=
  session_accounts creating local_config counting_creating _ (by decide)

/-- Whether the plan of a query is reported with changes. -/
def counts_plan (l : Ledger ω) : List (Exchange ω) → Bool
  | [] => false
  | e :: es =>
      (signature e.msg == some PULL && !l.failed && l.due.any (fun due => due.plan_only) &&
        !has_more e.written &&
        match e.written.getLast? with
        | some (.struct _ [metadata]) => !decide (NoChanges (metadata.map_get "stats"))
        | _ => false) ||
      counts_plan (l.next B config e) es

theorem counts_plan_eq_false {l : Ledger ω} {es : List (Exchange ω)} (h : Accounts B config l es) :
    counts_plan B config l es = false := by
  induction es generalizing l with
  | nil => rfl
  | cons e es ih =>
      obtain ⟨hscoped, hrest⟩ := h
      obtain ⟨s, msg, written, after⟩ := e
      rw [counts_plan, ih hrest, Bool.or_false]
      apply Bool.eq_false_iff.mpr
      intro hall
      simp only [Bool.and_eq_true, Bool.not_eq_true', beq_iff_eq] at hall
      obtain ⟨⟨⟨⟨hsig, hfailed⟩, hdue⟩, hlast⟩, hstats⟩ := hall
      cases msg with
      | struct sig fields =>
          obtain rfl : sig = PULL := Option.some.inj hsig
          cases hd : l.due with
          | none =>
              rw [hd] at hdue
              cases hdue
          | some due =>
              obtain ⟨shown, metadata, rfl, hreports⟩ :=
                (hscoped PULL fields rfl hfailed).2 (.inl rfl) due hd
              rw [← Bool.not_eq_true, hasMore_iff] at hlast
              have hplan : due.plan_only = true := by
                rw [hd] at hdue
                exact hdue
              have hnone := (hreports hlast).stats
              rw [hplan, Bool.not_true, Bool.and_false, if_neg Bool.false_ne_true] at hnone
              simp [hnone] at hstats
      | null | bool _ | int _ | float _ | string _ | list _ | map _ => cases hsig

/-- The plan of a write, asked for behind a write. -/
theorem not_accounts :
    ¬ Accounts creating local_config .start (run creating local_config (start local_config)
      [hello_message, run_message "CREATE (n)", pull_message (-1),
        run_message "EXPLAIN CREATE (n)", pull_message (-1)]) := by
  intro h
  have hcounts : counts_plan creating local_config .start
      (run creating local_config (start local_config)
        [hello_message, run_message "CREATE (n)", pull_message (-1),
          run_message "EXPLAIN CREATE (n)", pull_message (-1)]) = true := by
    decide
  rw [counts_plan_eq_false creating local_config h] at hcounts
  cases hcounts

end OntologicalDb.BoltScoping
