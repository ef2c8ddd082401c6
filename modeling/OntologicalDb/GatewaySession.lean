import Mathlib.Algebra.Ring.Nat
import Mathlib.Data.List.Basic
import Mathlib.Logic.Relation

/-!
A session of the SQL gateway: two threads that relay messages between a client and
the server, and the gateway's own questions in between.
-/

namespace OntologicalDb.GatewaySession

abbrev Bytes := List UInt8

structure Msg where
  tag : Char
  body : Bytes
deriving DecidableEq

/-- Shared by both threads under one lock. -/
structure State where
  awaiting : Nat
  asking : Bool
  answer : Option (List Msg)
  captured : List Msg
  closed : Bool
deriving DecidableEq

/-- Notices, parameter changes and notifications. -/
def asynchronous (m : Msg) : Bool := m.tag ∈ ['N', 'S', 'A']

/-- A message of the server: kept as part of an answer, or the client's. -/
def State.receive (st : State) (m : Msg) : State × Option Msg :=
  if st.asking && !asynchronous m then
    if m.tag = 'Z' then
      ({ st with asking := false, answer := some (st.captured ++ [m]), captured := [] }, none)
    else ({ st with captured := st.captured ++ [m] }, none)
  else if m.tag = 'Z' then ({ st with awaiting := st.awaiting - 1 }, some m)
  else (st, some m)

/-- The texts of statements: which ones the gateway asks about, and how it decodes
and quotes them. -/
structure Texts where
  isFabric : Bytes → Bool
  validUtf8 : Bytes → Bool
  lossy : Bytes → Bytes
  dq : Bytes → Bytes

/-- What an asked statement came in. -/
inductive Asked
  | query (sql : Bytes)
  | parse (name sql params : Bytes)
deriving DecidableEq

/-- Where the client-to-server thread is. -/
inductive Up
  | reading
  | counting (m : Msg)
  | writing (m : Msg)
  | leaving (m : Msg)
  | idle (a : Asked)
  | question (a : Asked)
  | answer (a : Asked)
  | refusing (err : Bytes) (status : UInt8)
  | ended
deriving DecidableEq

inductive Translation
  | sql (t : Bytes)
  | refused (err : Bytes) (status : UInt8)

section Texts

variable (T : Texts)

def cstr (bytes : Bytes) : Bytes × Bytes :=
  let text := bytes.takeWhile (· ≠ 0)
  (if T.validUtf8 text then text else [], bytes.drop (text.length + 1))

def asciiBytes (s : String) : Bytes := s.toUTF8.toList

def queryBody (sql : Bytes) : Bytes := sql ++ [0]

/-- Translates and executes in one step. -/
def fallback (sql : Bytes) : Bytes :=
  asciiBytes "SELECT * FROM og_fabric(" ++ T.dq sql ++ asciiBytes ")"

def translateCall (sql : Bytes) : Bytes :=
  asciiBytes "SELECT og_fabric_translate(" ++ T.dq sql ++ asciiBytes ")"

def parseBody (name sql params : Bytes) : Bytes := name ++ [0] ++ sql ++ [0] ++ params

/-- A message of the client, read while a batch is open or not. -/
def dispatch (unsynced : Bool) (m : Msg) : Up × Bool :=
  match m.tag with
  | 'Q' =>
      let sql := (cstr T m.body).1
      if T.isFabric sql then
        if unsynced then (.counting ⟨'Q', queryBody (fallback T sql)⟩, unsynced)
        else (.idle (.query sql), unsynced)
      else (.counting m, unsynced)
  | 'P' =>
      let (name, rest) := cstr T m.body
      let (sql, params) := cstr T rest
      if T.isFabric sql then
        if unsynced then (.writing ⟨'P', parseBody name (fallback T sql) params⟩, true)
        else (.idle (.parse name sql params), unsynced)
      else (.writing m, true)
  | 'S' => (.counting m, false)
  | 'F' => (.counting m, unsynced)
  | 'X' => (.leaving m, unsynced)
  | 'B' | 'E' | 'D' | 'C' | 'H' => (.writing m, true)
  | _ => (.writing m, unsynced)

def Asked.sql : Asked → Bytes
  | .query sql => sql
  | .parse _ sql _ => sql

def questionMsg (a : Asked) : Msg := ⟨'Q', queryBody (translateCall T a.sql)⟩

/-- The length of the first column of a row. -/
def columnLength (body : Bytes) : Nat :=
  let n := (body.drop 2 |>.take 4).foldl (fun n b => n * 256 + b.toNat) 0
  if n < 2 ^ 31 then n else 0

/-- What an answer says; a malformed one ends the session. -/
def translation (answer : List Msg) : Option Translation :=
  let status := ((answer.reverse.find? fun m => m.tag = 'Z').bind (·.body.head?)).getD 73
  match answer.find? fun m => m.tag = 'E' with
  | some e => some (.refused e.body status)
  | none =>
      match answer.find? fun m => m.tag = 'D' with
      | none => none
      | some row =>
          let len := columnLength row.body
          if row.body.length < 6 + len then none
          else some (.sql (T.lossy ((row.body.drop 6).take len)))

/-- How the thread goes on with an answer, and whether that opens a batch; it asks
only between batches.  The server raises the refusal of a
prepared statement again when it is run. -/
def resume (a : Asked) (answer : List Msg) : Up × Bool :=
  match translation T answer, a with
  | none, _ => (.ended, false)
  | some (.sql t), .query _ => (.counting ⟨'Q', queryBody t⟩, false)
  | some (.refused err status), .query _ => (.refusing err status, false)
  | some (.sql t), .parse name _ params => (.writing ⟨'P', parseBody name t params⟩, true)
  | some (.refused _ _), .parse name sql params =>
      (.writing ⟨'P', parseBody name (translateCall T sql) params⟩, true)

end Texts

/-- Whose request a message belongs to: the client's, or the gateway's own question
with its number. -/
inductive Origin
  | client
  | own (n : Nat)
deriving DecidableEq

/-- A request the server is at, and whether it ends in `ReadyForQuery`. -/
structure Task where
  origin : Origin
  ready : Bool
deriving DecidableEq

/-- A simple query, a `Sync` or a function call. -/
def isRequest (m : Msg) : Bool := m.tag ∈ ['Q', 'S', 'F']

/-- The messages of an extended-protocol batch. -/
def isBatch (m : Msg) : Bool := m.tag ∈ ['P', 'B', 'E', 'D', 'C', 'H']

/-- A session with the server at its other end.  The origins, the log of all the
server has sent and the last two counters are the observer's. -/
structure World where
  st : State
  up : Up
  unsynced : Bool
  down : Option Msg
  task : Option Task
  skipping : Bool
  toServer : List (Origin × Msg)
  fromServer : List (Origin × Msg)
  toClient : List (Bool × Msg)
  emitted : List (Origin × Msg)
  asked : Nat
  dropped : Nat

/-- The startup packet has gone out, and its `ReadyForQuery` is awaited. -/
def World.start : World where
  st := ⟨1, false, none, [], false⟩
  up := .reading
  unsynced := false
  down := none
  task := some ⟨.client, true⟩
  skipping := false
  toServer := []
  fromServer := []
  toClient := []
  emitted := []
  asked := 0
  dropped := 0

/-- The server takes a message up: after an error in a batch it discards all up to
the next `Sync`. -/
def World.serve (w : World) (x : Origin × Msg) (rest : List (Origin × Msg)) : World :=
  if w.skipping ∧ x.2.tag ≠ 'S' then
    { w with
      toServer := rest
      dropped := if x.1 = .client ∧ isRequest x.2 then w.dropped + 1 else w.dropped }
  else if isRequest x.2 then
    { w with
      toServer := rest
      task := some ⟨x.1, true⟩
      skipping := if x.2.tag = 'S' then false else w.skipping }
  else if isBatch x.2 then { w with toServer := rest, task := some ⟨x.1, false⟩ }
  else { w with toServer := rest }

/-- Whose message the server sends: asynchronous ones are the client's. -/
def World.speaker (w : World) (m : Msg) : Origin :=
  match w.task with
  | some t => if asynchronous m then .client else t.origin
  | none => .client

def World.emit (w : World) (o : Origin) (m : Msg) : World :=
  { w with fromServer := w.fromServer ++ [(o, m)], emitted := w.emitted ++ [(o, m)] }

/-- One step of the client, either thread or the server. -/
inductive Step (T : Texts) : World → World → Prop
  | read {w : World} (m : Msg) : w.up = .reading →
      Step T w { w with up := (dispatch T w.unsynced m).1, unsynced := (dispatch T w.unsynced m).2 }
  | count {w : World} {m : Msg} : w.up = .counting m →
      Step T w { w with
        st := { w.st with awaiting := w.st.awaiting + 1 }
        up := .writing m }
  | write {w : World} {m : Msg} : w.up = .writing m →
      Step T w { w with toServer := w.toServer ++ [(.client, m)], up := .reading }
  | leave {w : World} {m : Msg} : w.up = .leaving m →
      Step T w { w with toServer := w.toServer ++ [(.client, m)], up := .ended }
  | idle {w : World} {a : Asked} : w.up = .idle a → w.st.awaiting = 0 → w.st.closed = false →
      Step T w { w with
        st := { w.st with asking := true, answer := none }
        up := .question a
        asked := w.asked + 1 }
  | question {w : World} {a : Asked} : w.up = .question a →
      Step T w { w with
        toServer := w.toServer ++ [(.own w.asked, questionMsg T a)]
        up := .answer a }
  | resume {w : World} {a : Asked} {l : List Msg} : w.up = .answer a → w.st.answer = some l →
      Step T w { w with
        st := { w.st with answer := none }
        up := (resume T a l).1
        unsynced := (resume T a l).2 }
  | refuse {w : World} {err : Bytes} {status : UInt8} : w.up = .refusing err status →
      Step T w { w with
        toClient := w.toClient ++ [(false, ⟨'E', err⟩), (false, ⟨'Z', [status]⟩)]
        up := .reading }
  | quit {w : World} {a : Asked} : w.up = .idle a ∨ w.up = .answer a ∧ w.st.answer = none →
      w.st.closed = true →
      Step T w { w with up := .ended }
  | receive {w : World} {x : Origin × Msg} {rest : List (Origin × Msg)} :
      w.st.closed = false → w.down = none → w.fromServer = x :: rest →
      Step T w { w with
        st := (w.st.receive x.2).1
        down := (w.st.receive x.2).2
        fromServer := rest }
  | deliver {w : World} {m : Msg} : w.st.closed = false → w.down = some m →
      Step T w { w with toClient := w.toClient ++ [(true, m)], down := none }
  | close {w : World} : Step T w { w with st := { w.st with closed := true } }
  | serve {w : World} {x : Origin × Msg} {rest : List (Origin × Msg)} :
      w.task = none → w.toServer = x :: rest → Step T w (w.serve x rest)
  | feed {w : World} {t : Task} {x : Origin × Msg} {rest : List (Origin × Msg)} :
      w.task = some t → w.toServer = x :: rest → isRequest x.2 = false → isBatch x.2 = false →
      Step T w { w with toServer := rest }
  | emit {w : World} (m : Msg) : m.tag ≠ 'Z' → (asynchronous m = true ∨ w.task.isSome) →
      Step T w (w.emit (w.speaker m) m)
  | ready {w : World} {o : Origin} (status : Bytes) : w.task = some ⟨o, true⟩ →
      Step T w { w.emit o ⟨'Z', status⟩ with task := none }
  | finish {w : World} {o : Origin} (failed : Bool) : w.task = some ⟨o, false⟩ →
      Step T w { w with task := none, skipping := failed }

/-- What any interleaving leads to. -/
inductive Reachable (T : Texts) : World → Prop
  | start : Reachable T .start
  | step {w w' : World} : Reachable T w → Step T w w' → Reachable T w'

/-- The `ReadyForQuery` messages still owed for relayed requests: those on their way
back, the one of the request the server is at, and those of requests on their way
to it. -/
def owed (w : World) : Nat :=
  (w.fromServer.filter fun x => x.1 = .client ∧ x.2.tag = 'Z').length +
    (if w.task = some ⟨.client, true⟩ then 1 else 0) +
    (w.toServer.filter fun x => x.1 = .client ∧ isRequest x.2).length +
    match w.up with
    | .writing m => if isRequest m then 1 else 0
    | _ => 0

/-- The messages of one origin. -/
def ofOrigin (o : Origin) (l : List (Origin × Msg)) : List Msg :=
  (l.filter fun x => x.1 = o).map (·.2)

/-- The gateway knows its place: the counter is what the server owes, what it keeps
is what the server has answered to its question, the rest reaches the client, and
what it waits for is on its way. -/
structure InPlace (T : Texts) (w : World) : Prop where
  awaiting : w.st.awaiting = owed w
  captured : w.st.closed = false → w.st.asking = true →
    w.st.captured ++ ofOrigin (.own w.asked) w.fromServer = ofOrigin (.own w.asked) w.emitted
  apart : w.st.closed = false → w.st.asking = false → w.st.captured = []
  answered : ∀ l, w.st.closed = false → w.st.answer = some l →
    l = ofOrigin (.own w.asked) w.emitted
  relayed : (w.toClient.filter (·.1)).map (·.2) ++ w.down.toList ++ ofOrigin .client w.fromServer =
    ofOrigin .client w.emitted
  idle : ∀ a, w.up = .idle a → w.st.closed = false → w.st.awaiting = 0 ∨ 0 < owed w
  asks : ∀ a, w.up = .answer a → w.st.closed = false → w.st.answer = none →
    (w.skipping = false ∧ (.own w.asked, questionMsg T a) ∈ w.toServer) ∨
      w.task = some ⟨.own w.asked, true⟩ ∨
      ∃ z ∈ ofOrigin (.own w.asked) w.fromServer, z.tag = 'Z'

end OntologicalDb.GatewaySession
