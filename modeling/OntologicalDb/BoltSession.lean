import Mathlib.Data.List.Induction
import OntologicalDb.PackStream

/-!
One Bolt connection: the message loop, and the mapping between `og_cypher()` results and Bolt
values.
-/

namespace OntologicalDb.BoltSession

open OntologicalDb.FallibleState
open OntologicalDb.PackStream (Value)

/-! JSON values -/

/-- A number that is not an `i64` is kept as the bits of its `f64`. -/
inductive Number
  | int (i : Int64)
  | float (bits : UInt64)

inductive Json
  | null
  | bool (b : Bool)
  | number (n : Number)
  | string (s : String)
  | array (xs : List Json)
  | object (m : List (String × Json))

namespace Json

def get (key : String) : Json → Option Json
  | .object m => m.lookup key
  | _ => none

def as_bool : Json → Option Bool
  | .bool b => some b
  | _ => none

def as_i64 : Json → Option Int64
  | .number (.int i) => some i
  | _ => none

def as_str : Json → Option String
  | .string s => some s
  | _ => none

end Json

/-- `collect` into a `BTreeMap`. -/
def collect (m : List (String × Value)) : List (String × Value) :=
  m.foldl (fun m e => PackStream.insert e.1 e.2 m) []

/-- `packstream::map`. -/
def map (pairs : List (String × Value)) : Value :=
  .map (collect pairs)

theorem map_get_map_append {pairs : List (String × Value)} {k k' : String} {v : Value} :
    (map (pairs ++ [(k, v)])).map_get k' =
      if k' = k then some v else (map pairs).map_get k' := by
  simp only [map, collect, Value.map_get, List.foldl_append, List.foldl_cons, List.foldl_nil]
  exact PackStream.lookup_insert

theorem map_get_map_of_not_mem {pairs : List (String × Value)} {key : String}
    (h : key ∉ pairs.map Prod.fst) : (map pairs).map_get key = none := by
  induction pairs using List.reverseRecOn with
  | nil => rfl
  | append_singleton pairs e ih =>
      obtain ⟨k, v⟩ := e
      rw [List.map_append, List.mem_append, not_or] at h
      have hne : key ≠ k := fun heq => h.2 (by simp [heq])
      rw [map_get_map_append, if_neg hne, ih h.1]

theorem map_get_map_of_mem {pairs : List (String × Value)} {key : String} {v : Value}
    (hnodup : (pairs.map Prod.fst).Nodup) (h : (key, v) ∈ pairs) :
    (map pairs).map_get key = some v := by
  induction pairs using List.reverseRecOn with
  | nil => exact absurd h List.not_mem_nil
  | append_singleton pairs e ih =>
      obtain ⟨k, v'⟩ := e
      rw [List.map_append, List.nodup_append] at hnodup
      rw [map_get_map_append]
      rcases List.mem_append.mp h with h | h
      · have hne : key ≠ k :=
          hnodup.2.2 key (List.mem_map_of_mem h) k (by simp)
        rw [if_neg hne]
        exact ih hnodup.1 h
      · cases List.mem_singleton.mp h
        exact if_pos rfl

def NODE : UInt8 := 0x4E
def RELATIONSHIP : UInt8 := 0x52

mutual

def to_bolt : Json → Value
  | .null => .null
  | .bool b => .bool b
  | .number (.int i) => .int i
  | .number (.float bits) => .float bits
  | .string s => .string s
  | .array xs => .list (to_bolt_all xs)
  | .object m =>
      let values := to_bolt_entries m
      let props := map (values.filter fun e => !e.1.startsWith "_")
      match (m.lookup "_id").bind Json.as_i64, (m.lookup "_type").bind Json.as_str,
        (m.lookup "_src").bind Json.as_i64, (m.lookup "_dst").bind Json.as_i64 with
      | some id, some ty, some src, some dst =>
          .struct RELATIONSHIP [.int id, .int src, .int dst, .string ty, props]
      | some id, some ty, _, _ => .struct NODE [.int id, .list [.string ty], props]
      | _, _, _, _ => map values

def to_bolt_all : List Json → List Value
  | [] => []
  | x :: xs => to_bolt x :: to_bolt_all xs

def to_bolt_entries : List (String × Json) → List (String × Value)
  | [] => []
  | (k, x) :: m => (k, to_bolt x) :: to_bolt_entries m

end

/-- One row, projected into the field order the query asked for. -/
def record (json : Json) (fields : List String) : Value :=
  .list (fields.map fun f => ((json.get f).map to_bolt).getD .null)

def hexDigit (n : UInt8) : Char :=
  if n < 10 then Char.ofNat (48 + n.toNat) else Char.ofNat (55 + n.toNat)

mutual

def to_json : Value → Json
  | .null => .null
  | .bool b => .bool b
  | .int i => .number (.int i)
  -- `Value::from` makes null of what is not finite
  | .float bits =>
      if (bits >>> 52) &&& 0x7FF = 0x7FF then .null else .number (.float bits)
  | .string s => .string s
  | .list xs => .array (to_json_all xs)
  | .map m => .object (to_json_entries m)
  | .struct sig _ =>
      .string ("<unsupported struct 0x" ++ String.ofList [hexDigit (sig / 16), hexDigit (sig % 16)]
        ++ ">")

def to_json_all : List Value → List Json
  | [] => []
  | x :: xs => to_json x :: to_json_all xs

def to_json_entries : List (String × Value) → List (String × Json)
  | [] => []
  | (k, x) :: m => (k, to_json x) :: to_json_entries m

end

/-! Failures -/

structure Failure where
  code : String
  message : String

def contains (s part : String) : Bool :=
  s.toList.tails.any fun rest => part.toList.isPrefixOf rest

namespace Failure

def client (code message : String) : Failure where
  code := code
  message := message

def from_pg (message : String) : Failure :=
  let code :=
    if contains message "not supported" || contains message "expected" ||
        contains message "unknown label" || contains message "is not defined" then
      "Neo.ClientError.Statement.SyntaxError"
    else if contains message "does not exist" then "Neo.ClientError.Database.DatabaseNotFound"
    else if contains message "permission denied" then "Neo.ClientError.Security.Forbidden"
    else "Neo.ClientError.Statement.ArgumentError"
  .client code message

end Failure

/-! PostgreSQL -/

inductive Statement
  | begin
  | commit
  | rollback
  /-- `SELECT set_config($1, $2, true)`. -/
  | set_config (setting value : String)
  | og_cypher_columns (query : String)
  | og_cypher_check (query : String)
  | og_cypher (graph query : String) (params : Json)
  | og_cypher_stats

abbrev Statement.Result : Statement → Type
  | .begin | .commit | .rollback | .set_config _ _ => Unit
  | .og_cypher_columns _ => List String
  | .og_cypher_check _ => String
  | .og_cypher _ _ _ => List (Option String)
  | .og_cypher_stats => String

/-- The database behind the gateway, over the states `ω` of one of its connections, and the
texts of JSON values. -/
structure Backend (ω : Type) where
  connect (user : String) (password : Option String) : Except String ω
  answer (s : Statement) : ω → Except String s.Result × ω
  from_str (text : String) : Option Json
  to_string (json : Json) : String

/-- A statement with its answer and the state it left. -/
structure Sent (ω : Type) where
  statement : Statement
  answer : Except String statement.Result
  state : ω

structure Connection (ω : Type) where
  state : ω
  /-- Everything sent over the connection, in order. -/
  sent : List (Sent ω)

/-! Sessions -/

def HELLO : UInt8 := 0x01
def GOODBYE : UInt8 := 0x02
def RESET : UInt8 := 0x0F
def RUN : UInt8 := 0x10
def BEGIN : UInt8 := 0x11
def COMMIT : UInt8 := 0x12
def ROLLBACK : UInt8 := 0x13
def DISCARD : UInt8 := 0x2F
def PULL : UInt8 := 0x3F
def ROUTE : UInt8 := 0x66
def SUCCESS : UInt8 := 0x70
def RECORD : UInt8 := 0x71
def IGNORED : UInt8 := 0x7E
def FAILURE : UInt8 := 0x7F

structure Config where
  default_graph : String
  advertised : String
  /-- `std::process::id()`. -/
  process : Nat

inductive State
  /-- Ready for a query. -/
  | Ready
  /-- A result is open; only PULL/DISCARD/RESET make sense. -/
  | Streaming
  /-- Something failed. Everything is IGNORED until RESET. -/
  | Failed
deriving DecidableEq

structure Session (ω : Type) where
  pg : Option (Connection ω)
  state : State
  graph : String
  in_tx : Bool
  pending : List Value
  fields : List String
  cursor : Nat
  qtype : String
  tx_meta : List (String × String)

/-- A handler answers with a failure, or its thread panics. -/
inductive Halt
  | failure (f : Failure)
  | panicked

abbrev SessionM (ω : Type) := EStateM Halt (Session ω)

def TX_SETTINGS : List (String × String) :=
  [("actor", "og.actor"),
    ("source", "og.source"),
    ("reason", "og.reason"),
    ("request_id", "og.request_id"),
    ("requestId", "og.request_id"),
    ("valid_at", "og.valid_at"),
    ("validAt", "og.valid_at"),
    ("system_at", "og.system_at"),
    ("systemAt", "og.system_at"),
    ("valid_from", "og.valid_from"),
    ("validFrom", "og.valid_from"),
    ("valid_to", "og.valid_to"),
    ("validTo", "og.valid_to")]

variable {ω : Type}

/-- `extra.tx_metadata` as pairs of a setting and its value, each setting once. -/
def tx_settings (B : Backend ω) (extra : Value) : List (String × String) :=
  match extra.map_get "tx_metadata" with
  | some (.map metadata) =>
      TX_SETTINGS.foldl (fun out entry =>
        let text := match metadata.lookup entry.1 with
          | none => none
          | some (.string s) => some s
          | some .null => none
          | some other =>
              match to_json other with
              | .string s => some s
              | json => some (B.to_string json)
        match text with
        | none => out
        | some text => if out.any (·.1 = entry.2) then out else out ++ [(entry.2, text)]) []
  | _ => []

/-- `char::is_whitespace`. -/
def is_whitespace (c : Char) : Bool :=
  (0x09 ≤ c.toNat && c.toNat ≤ 0x0D) || (0x2000 ≤ c.toNat && c.toNat ≤ 0x200A) ||
    [0x20, 0x85, 0xA0, 0x1680, 0x2028, 0x2029, 0x202F, 0x205F, 0x3000].contains c.toNat

def is_ascii_whitespace (c : Char) : Bool :=
  [0x09, 0x0A, 0x0C, 0x0D, 0x20].contains c.toNat

/-- `str::split_at`, which panics inside a character. -/
def split_at : Nat → List Char → Option (List Char × List Char)
  | 0, cs => some ([], cs)
  | _, [] => none
  | n, c :: cs =>
      if c.utf8Size ≤ n then (split_at (n - c.utf8Size) cs).map fun p => (c :: p.1, p.2) else none

/-- Whether a text starts with one of the words, all `len` bytes long, and a blank behind it; with
what comes from the blank on. -/
def leading (words : List String) (len : Nat) (cs : List Char) :
    Option (Option (List Char)) :=
  if len < (cs.map Char.utf8Size).sum then
    (split_at len cs).map fun p =>
      match p.2 with
      | c :: _ =>
          if words.any (fun w => w.toList = p.1.map Char.toLower) && is_ascii_whitespace c then
            some p.2
          else none
      | [] => none
  else some none

/-- Strip a leading `EXPLAIN` or `PROFILE`, returning the query underneath and whether one was
there. -/
def split_plan_prefix (query : String) : Option (String × Bool) := do
  match ← leading ["explain", "profile"] 7 (query.toList.dropWhile is_whitespace) with
  | none => return (query, false)
  | some rest =>
      let rest := rest.dropWhile is_whitespace
      -- `EXPLAIN FABRIC <query>` is a statement of its own
      match ← leading ["fabric"] 6 rest with
      | some _ => return (query, false)
      | none => return (String.ofList rest, true)

section Handlers

variable (B : Backend ω) (config : Config)

def client : SessionM ω (Connection ω) := do
  let sess ← get
  match sess.pg with
  | some c => return c
  | none =>
      throw (.failure
        (.client "Neo.ClientError.Security.Unauthorized" "no HELLO on this connection"))

/-- One statement sent over the connection. -/
def sql (s : Statement) : SessionM ω s.Result := do
  let c ← client
  let result := B.answer s c.state
  modify fun sess =>
    { sess with
      pg := some { state := result.2, sent := c.sent ++ [⟨s, result.1, result.2⟩] } }
  match result.1 with
  | .ok a => return a
  | .error message => throw (.failure (.from_pg message))

def hello (extra : Value) : SessionM ω Value := do
  let user := ((extra.map_get "principal").bind Value.as_str).getD ""
  let password := ((extra.map_get "credentials").bind Value.as_str).getD ""
  match B.connect user (if password.isEmpty then none else some password) with
  | .error message =>
      throw (.failure (.client "Neo.ClientError.Security.Unauthorized" message))
  | .ok state =>
      modify fun sess => { sess with pg := some { state := state, sent := [] } }
      return map [("server", .string "Neo4j/4.4.0 (ontological-bolt)"),
        ("connection_id", .string ("bolt-" ++ config.process.repr)), ("hints", .map [])]

def reset : SessionM ω Value := do
  modify fun sess => { sess with pending := [], cursor := 0 }
  let sess ← get
  if sess.in_tx then
    let _ ← attempt (sql B .rollback)
    modify fun sess => { sess with in_tx := false }
  modify fun sess => { sess with state := .Ready }
  return .map []

/-- Transaction-local, so nothing outlives the transaction it was sent with. -/
def apply_settings : List (String × String) → SessionM ω Unit
  | [] => return ()
  | (k, v) :: settings => do
      sql B (.set_config k v)
      apply_settings settings

/-- The graph a message names with its `db`: what drivers send when the application named nothing
is not a name. -/
def named (extra : Value) : Option String :=
  match (extra.map_get "db").bind Value.as_str with
  | some db => if !db.isEmpty && db ≠ "neo4j" && db ≠ "system" then some db else none
  | none => none

/-- A session's "database" is a graph here. -/
def select_graph (extra : Value) : SessionM ω Unit :=
  modify fun sess =>
    match named extra with
    | some db => { sess with graph := db }
    | none => if sess.in_tx then sess else { sess with graph := config.default_graph }

def begin (extra : Value) : SessionM ω Value := do
  select_graph config extra
  sql B .begin
  modify fun sess => { sess with in_tx := true, tx_meta := tx_settings B extra }
  apply_settings B (tx_settings B extra)
  return .map []

def end_tx (verb : Statement) : SessionM ω Value := do
  let _ ← sql B verb
  modify fun sess => { sess with in_tx := false, tx_meta := [] }
  return map [("bookmark", .string "ontological:0")]

/-- Does this query write? -/
def is_write (query : String) : SessionM ω Bool := do
  let raw ← sql B (.og_cypher_check query)
  let check := (B.from_str raw).getD .null
  if (check.get "ok").bind Json.as_bool = some true then
    return ((check.get "write").bind Json.as_bool).getD false
  else
    throw (.failure (.client "Neo.ClientError.Statement.SyntaxError"
      (((check.get "error").bind Json.as_str).getD "query did not parse")))

/-- The rows of the query, in a transaction of its own when the message carries settings. -/
def execute (extra : Value) (query : String) (params : Json) :
    SessionM ω (List (Option String)) := do
  let sess ← get
  let own := if sess.in_tx then [] else tx_settings B extra
  if own.isEmpty then
    sql B (.og_cypher sess.graph query params)
  else
    sql B .begin
    match ← attempt (apply_settings B own) with
    | .error e =>
        let _ ← attempt (sql B .rollback)
        throw e
    | .ok _ =>
        match ← attempt (sql B (.og_cypher sess.graph query params)) with
        | .error e =>
            let _ ← attempt (sql B .rollback)
            throw e
        | .ok rows =>
            sql B .commit
            return rows

/-- The records of the rows, and their fields: the first row's own keys when the parser gave
none. -/
def records (columns : List String) : List (Option String) → List String × List Value
  | [] => (columns, [])
  | raw :: rows =>
      let json := (raw.bind B.from_str).getD .null
      let columns := match columns, json with
        | [], .object m => m.map Prod.fst
        | columns, _ => columns
      let rest := records columns rows
      (rest.1, record json columns :: rest.2)

/-- A result is open. -/
def open_result (fields : List String) (records : List Value) : SessionM ω Value := do
  modify fun sess =>
    { sess with fields := fields, pending := records, cursor := 0, state := .Streaming }
  return map [("fields", .list (fields.map .string)), ("t_first", .int 0), ("qid", .int (-1))]

def run_query (fields : List Value) : SessionM ω Value := do
  let extra := fields[2]?.getD .null
  let params := fields[1]?.getD .null
  match fields.head?.bind Value.as_str with
  | none =>
      throw (.failure (.client "Neo.ClientError.Request.Invalid" "RUN without a query"))
  | some query =>
      select_graph config extra
      match split_plan_prefix query with
      | none => throw .panicked
      | some (body, plan_only) =>
          let write ← is_write B body
          modify fun sess => { sess with qtype := if write then "w" else "r" }
          if plan_only then
            open_result [] []
          else
            let columns ← sql B (.og_cypher_columns query)
            let rows ← execute B extra query (to_json params)
            let result := records B columns rows
            open_result result.1 result.2

/-- The change counts of the write that just ran; none where the connection cannot answer. -/
def write_stats : SessionM ω (Option Value) := do
  match ← attempt (sql B .og_cypher_stats) with
  | .error _ => return none
  | .ok raw => return (B.from_str raw).map to_bolt

/-- The records a PULL or DISCARD takes. -/
def taken (sess : Session ω) (extra : Value) : List Value :=
  let want := (((extra.map_get "n").bind Value.as_i64).getD (-1)).toInt
  let remaining := sess.pending.length - sess.cursor
  let take := if want < 0 then remaining else min want.toNat remaining
  (sess.pending.drop sess.cursor).take take

/-- The summary of a result that has no more records. -/
def summary : SessionM ω Value := do
  modify fun sess => { sess with state := .Ready, pending := [], cursor := 0 }
  let sess ← get
  let stats ← if sess.qtype = "w" then write_stats B else pure none
  return map ([("t_last", Value.int 0), ("type", Value.string sess.qtype)] ++
    (match stats with | some stats => [("stats", stats)] | none => []) ++
    [("db", Value.string sess.graph)] ++
    (if sess.in_tx then [] else [("bookmark", Value.string "ontological:0")]))

/-- The messages written: records when they are delivered, then a summary. -/
def pull (extra : Value) (deliver : Bool) : SessionM ω (List Value) := do
  let sess ← get
  if sess.state ≠ .Streaming then
    throw (.failure (.client "Neo.ClientError.Request.Invalid"
      "no result is open on this connection"))
  else
    let records := taken sess extra
    modify fun sess => { sess with cursor := sess.cursor + records.length }
    let written := if deliver then records.map fun r => Value.struct RECORD [r] else []
    if sess.cursor + records.length < sess.pending.length then
      return written ++ [Value.struct SUCCESS [map [("t_last", .int 0), ("has_more", .bool true)]]]
    else
      let metadata ← summary B
      return written ++ [Value.struct SUCCESS [metadata]]

/-- One server, announced as every role. -/
def routing_table : SessionM ω Value := do
  let sess ← get
  let servers := ["WRITE", "READ", "ROUTE"].map fun role =>
    map [("addresses", .list [.string config.advertised]), ("role", .string role)]
  return map [("rt", map [("ttl", .int 300), ("db", .string sess.graph), ("servers", .list servers)])]

/-- A handler whose answer is one message. -/
def succeed (m : SessionM ω Value) : SessionM ω (List Value) := do
  let metadata ← m
  return [.struct SUCCESS [metadata]]

/-- The handler of a message, and what it writes. -/
def dispatch (sig : UInt8) (fields : List Value) : SessionM ω (List Value) :=
  let last := fields.getLast?.getD .null
  if sig = HELLO then succeed (hello B config last)
  else if sig = RUN then succeed (run_query B config fields)
  else if sig = PULL then pull B last true
  else if sig = DISCARD then pull B last false
  else if sig = BEGIN then succeed (begin B config last)
  else if sig = COMMIT then succeed (end_tx B .commit)
  else if sig = ROLLBACK then succeed (end_tx B .rollback)
  else if sig = RESET then succeed (reset B)
  else if sig = ROUTE then succeed (routing_table config)
  else
    throw (.failure (.client "Neo.ClientError.Request.Invalid"
      ("unsupported Bolt message 0x" ++
        String.ofList [hexDigit (sig / 16), hexDigit (sig % 16)])))

def into_message (f : Failure) : Value :=
  .struct FAILURE [map [("code", .string f.code), ("message", .string f.message)]]

/-- One turn of the message loop: what is written and the session it leaves, or the end of the
connection. -/
def turn (sess : Session ω) (msg : Value) : Option (List Value × Session ω) :=
  match msg with
  | .struct sig fields =>
      if sig = GOODBYE then none
      else if sess.state = .Failed ∧ sig ≠ RESET then some ([.struct IGNORED []], sess)
      else
        match dispatch B config sig fields sess with
        | .ok written sess => some (written, sess)
        | .error (.failure f) sess => some ([into_message f], { sess with state := .Failed })
        | .error .panicked _ => none
  | _ => none

/-- A message with what was written to it. -/
structure Exchange (ω : Type) where
  before : Session ω
  msg : Value
  written : List Value
  after : Session ω

/-- The message loop, up to the end of the connection. -/
def run (sess : Session ω) : List Value → List (Exchange ω)
  | [] => []
  | msg :: msgs =>
      match turn B config sess msg with
      | none => []
      | some (written, after) =>
          { before := sess, msg := msg, written := written, after := after } :: run after msgs

/-- The session of a new connection. -/
def start : Session ω where
  pg := none
  state := .Ready
  graph := config.default_graph
  in_tx := false
  pending := []
  fields := []
  cursor := 0
  qtype := "r"
  tx_meta := []

end Handlers

end OntologicalDb.BoltSession
