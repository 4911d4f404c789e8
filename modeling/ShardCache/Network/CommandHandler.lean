import ShardCache.Membership.State
import ShardCache.Protocol.Command
import ShardCache.Replication.Protocol

/-!
# The command handler

The handler executes a command against the cluster and encodes one reply. What the cluster does is a
parameter: any state, and any results of the calls that the handler makes.

## Main definitions

* `ClusterApi`: the calls that the handler makes on the cluster
* `CommandHandler.dispatch`, `CommandHandler.runsLocally`: the reply to a command, and whether it
  waits on peers
* `CommandHandler.Fits`: the reply to a request is within the limits of the protocol, and the error
  text has no line break

## Main results

* `CommandHandler.unknown_command_splits_reply`: an unknown command whose reply is read as two
* `CommandHandler.reply_whole_iff`: the reply is one value exactly for the requests that fit
-/

namespace ShardCache

open Foundations Replication Resp

/-- The calls that the handler makes on a `Cluster` with state `σ`. -/
structure ClusterApi (σ : Type) where
  put : σ → Key → Bytes → Option Millis → σ × WriteResult
  del : σ → Key → σ × WriteResult
  read : σ → Key → σ × ReadResult
  expireKey : σ → Key → Millis → σ × WriteResult
  applyReplicaWrite : σ → Key → VersionedValue → σ × Bool
  replicaRead : σ → Key → σ × Option VersionedValue
  mergeGossip : σ → List MemberInfo → σ × List MemberInfo
  members : σ → List MemberInfo
  isNodeHealthy : σ → NodeId → Bool
  localNode : σ → CacheNode
  nodeCount : σ → ℕ
  clear : σ → σ
  size : σ → ℕ
  capacity : σ → ℕ
  totalHits : σ → ℕ
  totalMisses : σ → ℕ
  /-- `std::to_string(overall_hit_rate())`. -/
  hitRate : σ → Bytes

namespace CommandHandler

variable {σ : Type} (api : ClusterApi σ)

/-- `kWriteUnavailable`. -/
def kWriteUnavailable : Bytes := ascii "ERR write quorum not reached"

/-- `kReadUnavailable`. -/
def kReadUnavailable : Bytes := ascii "ERR read quorum not reached"

/-- `to_ttl`. -/
def toTtl (ttlMs : Option UInt64) : Option Millis := ttlMs.map UInt64.toNat

/-- `stats_body`. -/
def statsBody (s : σ) : Bytes :=
  ascii "# Stats\r\nnode_id:" ++ (api.localNode s).id ++
    ascii "\r\ncluster_nodes:" ++ decimal (api.nodeCount s) ++
    ascii "\r\nentries:" ++ decimal (api.size s) ++
    ascii "\r\ncapacity:" ++ decimal (api.capacity s) ++
    ascii "\r\nhits:" ++ decimal (api.totalHits s) ++
    ascii "\r\nmisses:" ++ decimal (api.totalMisses s) ++
    ascii "\r\nhit_rate:" ++ api.hitRate s ++ ascii "%\r\n"

/-- The loop of `DEL`. -/
def deleteKeys : List Key → Int64 → σ → σ × Bytes
  | [], removed, s => (s, appendInteger removed)
  | key :: keys, removed, s =>
    let (s, result) := api.del s key
    if result.ok then deleteKeys keys (removed + if result.existed then 1 else 0) s
    else (s, appendError kWriteUnavailable)

/-- The loop of `EXISTS`. -/
def countKeys : List Key → Int64 → σ → σ × Bytes
  | [], found, s => (s, appendInteger found)
  | key :: keys, found, s =>
    let (s, r) := api.read s key
    if r.status = .unavailable then (s, appendError kReadUnavailable)
    else countKeys keys (found + if r.status = .found then 1 else 0) s

/-- The members in the payload of `CLUSTER GOSSIP`, `none` if a number cannot be read. -/
def readGossip : List Bytes → Option (List MemberInfo)
  | id :: host :: port :: generation :: status :: payload => do
    let port ← stoi port
    let generation ← stoull generation
    let remote ← readGossip payload
    return ⟨⟨id, host, UInt16.ofInt port⟩, generation,
      if status = ascii "left" then .left else .alive⟩ :: remote
  | _ => some []

/-- The fields of a member in the reply to `CLUSTER GOSSIP`. -/
def memberFields (m : MemberInfo) : List Bytes :=
  [m.node.id, m.node.host, decimal m.node.port.toNat, decimal m.generation.toNat,
    if m.status = .alive then ascii "alive" else ascii "left"]

/-- The line of a member in the reply to `CLUSTER NODES`. -/
def nodeLine (s : σ) (m : MemberInfo) : Bytes :=
  let alive := m.status = .alive
  let health :=
    if ¬alive then ascii "-"
    else if api.isNodeHealthy s m.node.id then ascii "healthy" else ascii "unhealthy"
  m.node.id ++ ascii " " ++ m.node.host ++ ascii ":" ++ decimal m.node.port.toNat ++
    ascii " gen=" ++ decimal m.generation.toNat ++ ascii " " ++
    (if alive then ascii "alive" else ascii "left") ++ ascii " " ++ health ++
    (if m.node.id = (api.localNode s).id then ascii " myself" else []) ++ ascii "\n"

/-- The body of the reply to `CLUSTER NODES`. -/
def nodesBody (s : σ) : Bytes := ((api.members s).map (nodeLine api s)).flatten

/-- The reply to `TTL` and `PTTL`, for a value that was found or not. -/
def ttlReply (type : CommandType) (r : ReadResult) : Int64 :=
  let ms : Int64 :=
    if r.status = .found then
      match r.value.ttl with
      | none => -1
      | some ttl => Int64.ofNat ttl
    else -2
  if type = .ttl ∧ ms > 0 then (ms + 999) / 1000 else ms

/-- `CommandHandler::dispatch`: the state after the command, and what it appends to the output. -/
def dispatch (cmd : Command) (s : σ) : σ × Bytes :=
  match cmd.type with
  | .ping =>
    (s, if cmd.value = [] then appendSimple (ascii "PONG") else appendBulk cmd.value)
  | .echo => (s, appendBulk cmd.value)
  | .stats => (s, appendBulk (statsBody api s))
  | .dbSize => (s, appendInteger (Int64.ofNat (api.size s)))
  | .flushAll => (api.clear s, appendSimple (ascii "OK"))
  | .commandDocs => (s, appendArrayHeader 0)
  | .config =>
    (s, appendArrayHeader (cmd.keys.length * 2) ++
      (cmd.keys.map fun name => appendBulk name ++ appendBulk []).flatten)
  | .select =>
    (s, if cmd.value = ascii "0" then appendSimple (ascii "OK")
      else appendError (ascii "ERR DB index is out of range"))
  | .client => (s, appendSimple (ascii "OK"))
  | .quit => (s, appendSimple (ascii "OK"))
  | .set =>
    let (s, result) := api.put s cmd.key cmd.value (toTtl cmd.ttlMs)
    (s, if result.ok then appendSimple (ascii "OK") else appendError kWriteUnavailable)
  | .get =>
    let (s, r) := api.read s cmd.key
    (s, match r.status with
      | .found => appendBulk r.value.value
      | .notFound => appendNull
      | .unavailable => appendError kReadUnavailable)
  | .delete => deleteKeys api cmd.keys 0 s
  | .existsKeys => countKeys api cmd.keys 0 s
  | .expire =>
    let (s, result) := api.expireKey s cmd.key ((toTtl cmd.ttlMs).getD 0)
    (s, if result.ok then appendInteger (if result.existed then 1 else 0)
      else appendError kWriteUnavailable)
  | .ttl | .pttl =>
    let (s, r) := api.read s cmd.key
    (s, if r.status = .unavailable then appendError kReadUnavailable
      else appendInteger (ttlReply cmd.type r))
  | .replSet =>
    let (s, wasLive) :=
      api.applyReplicaWrite s cmd.key ⟨cmd.value, cmd.version, false, toTtl cmd.ttlMs⟩
    (s, appendInteger (if wasLive then 1 else 0))
  | .replDelete =>
    let (s, wasLive) := api.applyReplicaWrite s cmd.key ⟨[], cmd.version, true, none⟩
    (s, appendInteger (if wasLive then 1 else 0))
  | .replGet =>
    let (s, v) := api.replicaRead s cmd.key
    (s, match v with
      | none => appendNull
      | some v =>
        appendArrayHeader 4 ++ appendBulk v.value ++ appendInteger v.version.toInt64 ++
          appendInteger (if v.tombstone then 1 else 0) ++
          appendInteger (match v.ttl with
            | none => -1
            | some ttl => max 1 (Int64.ofNat ttl)))
  | .clusterGossip =>
    match readGossip cmd.keys with
    | none => (s, appendError (ascii "ERR malformed gossip entry"))
    | some remote =>
      let (s, view) := api.mergeGossip s remote
      (s, appendArrayHeader (view.length * 5) ++
        (view.map fun m => ((memberFields m).map appendBulk).flatten).flatten)
  | .clusterNodes => (s, appendBulk (nodesBody api s))
  | .unknown =>
    (s, appendError (if cmd.error = [] then ascii "ERR unknown command" else cmd.error))

/-- `CommandHandler::runs_locally`, for the keys that `can_serve_locally` says can be read or
written by this node alone. -/
def runsLocally (canServeLocally : Key → Bool → Bool) (cmd : Command) : Bool :=
  match cmd.type with
  | .get | .ttl | .pttl => canServeLocally cmd.key false
  | .existsKeys => cmd.keys.length = 1 && canServeLocally cmd.key false
  | .set => canServeLocally cmd.key true
  | .delete => cmd.keys.length = 1 && canServeLocally cmd.key true
  | .expire => canServeLocally cmd.key true && canServeLocally cmd.key false
  | _ => true

theorem runsLocally_quit {canServeLocally : Key → Bool → Bool} {cmd : Command}
    (h : cmd.type = .quit) : runsLocally canServeLocally cmd = true := by
  simp [runsLocally, h]

/-! ## Replies that are one value -/

/-- What the reply to a command is made of is within the limits of the protocol. -/
def Sized (s : σ) (cmd : Command) : Prop :=
  match cmd.type with
  | .ping | .echo => cmd.value.length ≤ kMaxBulkLength
  | .stats => (statsBody api s).length ≤ kMaxBulkLength
  | .config =>
    cmd.keys.length * 2 ≤ kMaxArrayLength ∧ ∀ name ∈ cmd.keys, name.length ≤ kMaxBulkLength
  | .get =>
    (api.read s cmd.key).2.status = .found →
      (api.read s cmd.key).2.value.value.length ≤ kMaxBulkLength
  | .replGet => ∀ v ∈ (api.replicaRead s cmd.key).2, v.value.length ≤ kMaxBulkLength
  | .clusterGossip =>
    ∀ remote ∈ readGossip cmd.keys,
      (api.mergeGossip s remote).2.length * 5 ≤ kMaxArrayLength ∧
        ∀ m ∈ (api.mergeGossip s remote).2,
          m.node.id.length ≤ kMaxBulkLength ∧ m.node.host.length ≤ kMaxBulkLength
  | .clusterNodes => (nodesBody api s).length ≤ kMaxBulkLength
  | _ => True

/-- The reply to a request fits the protocol: the argument that an error text repeats has no line
break, and counts and lengths are within their limits. -/
def Fits (s : σ) (args : List Bytes) : Prop :=
  (∀ q ∈ Parser.quoted args, findCrlf q = none) ∧ Sized api s (Parser.parse args)

/-- The bytes are one reply. -/
def OneReply (reply : Bytes) : Prop := ∃ v, parseReply.Whole v reply

theorem oneReply_simple {text : Bytes} (h : findCrlf text = none) : OneReply (appendSimple text) :=
  ⟨_, whole_appendSimple h⟩

theorem oneReply_error {text : Bytes} (h : findCrlf text = none) : OneReply (appendError text) :=
  ⟨_, whole_appendError h⟩

theorem oneReply_integer (n : Int64) : OneReply (appendInteger n) := ⟨_, whole_appendInteger n⟩

theorem oneReply_null : OneReply appendNull := ⟨_, whole_appendNull⟩

theorem findCrlf_ok : findCrlf (ascii "OK") = none := by decide

theorem findCrlf_kWriteUnavailable : findCrlf kWriteUnavailable = none := by decide

theorem findCrlf_kReadUnavailable : findCrlf kReadUnavailable = none := by decide

variable {api} {s : σ}

theorem oneReply_deleteKeys (keys : List Key) (removed : Int64) (s : σ) :
    OneReply (deleteKeys api keys removed s).2 := by
  induction keys generalizing removed s with
  | nil => exact oneReply_integer removed
  | cons key keys ih =>
    simp only [deleteKeys]
    split
    · exact ih _ _
    · -- the loop ends with the first key that could not be deleted
      exact oneReply_error findCrlf_kWriteUnavailable

theorem oneReply_countKeys (keys : List Key) (found : Int64) (s : σ) :
    OneReply (countKeys api keys found s).2 := by
  induction keys generalizing found s with
  | nil => exact oneReply_integer found
  | cons key keys ih =>
    simp only [countKeys]
    split
    · exact oneReply_error findCrlf_kReadUnavailable
    · exact ih _ _

/-- The reply to a request for records: an array of the fields of all of them, one after the
other. -/
theorem oneReply_records_iff {α : Type} {fields : α → List Bytes} {n : ℕ}
    (hn : ∀ a, (fields a).length = n) (as : List α) :
    OneReply (appendArrayHeader (as.length * n) ++
      (as.map fun a => ((fields a).map appendBulk).flatten).flatten) ↔
      as.length * n ≤ kMaxArrayLength ∧
        ∀ a ∈ as, ∀ b ∈ fields a, b.length ≤ kMaxBulkLength := by
  -- The fields of all records make one list of bulk strings.
  have hbulks : ((as.flatMap fields).map appendBulk).flatten =
      (as.map fun a => ((fields a).map appendBulk).flatten).flatten := by
    induction as with
    | nil => rfl
    | cons a as ih => simp [List.flatMap_cons, ih]
  have hlen : (as.flatMap fields).length = as.length * n := by
    simp [List.length_flatMap, hn]
  have hiff := whole_bulks_iff (as.flatMap fields)
  rw [hlen, hbulks] at hiff
  rw [OneReply, hiff]
  refine and_congr_right fun _ => ⟨?_, ?_⟩
  · intro h a ha b hb
    exact h b (List.mem_flatMap.mpr ⟨a, ha, hb⟩)
  · intro h b hb
    obtain ⟨a, ha, hb⟩ := List.mem_flatMap.mp hb
    exact h a ha b hb

/-- The reply to `CONFIG GET`: every name with an empty value. -/
theorem oneReply_config_iff (names : List Bytes) :
    OneReply (appendArrayHeader (names.length * 2) ++
      (names.map fun name => appendBulk name ++ appendBulk []).flatten) ↔
      names.length * 2 ≤ kMaxArrayLength ∧ ∀ name ∈ names, name.length ≤ kMaxBulkLength := by
  have hn (name : Bytes) : [name, []].length = 2 := rfl
  have hiff := oneReply_records_iff hn names
  simpa using hiff

/-- The numbers in the fields of a member are short. -/
theorem memberFields_fit_iff (m : MemberInfo) :
    (∀ b ∈ memberFields m, b.length ≤ kMaxBulkLength) ↔
      m.node.id.length ≤ kMaxBulkLength ∧ m.node.host.length ≤ kMaxBulkLength := by
  have hport : (decimal m.node.port.toNat).length ≤ kMaxBulkLength := by
    have hlt := m.node.port.toNat_lt
    exact (length_decimal_le (by decide : 0 < 5) (by omega)).trans (by decide)
  have hgeneration : (decimal m.generation.toNat).length ≤ kMaxBulkLength := by
    have hlt := m.generation.toNat_lt
    exact (length_decimal_le (by decide : 0 < 20) (by omega)).trans (by decide)
  have hstatus : (if m.status = .alive then ascii "alive" else ascii "left").length ≤
      kMaxBulkLength := by
    split <;> decide
  simp [memberFields, hport, hgeneration, hstatus]

/-- The reply to `REPL_GET`. -/
theorem oneReply_replica_iff (value : Bytes) (version tombstone ttl : Int64) :
    OneReply (appendArrayHeader 4 ++ appendBulk value ++ appendInteger version ++
      appendInteger tombstone ++ appendInteger ttl) ↔ value.length ≤ kMaxBulkLength := by
  refine Decoder.exists_whole_iff
    (a := .array [.bulkString value, .integer version, .integer tombstone, .integer ttl])
    (e := ()) ?_
  have hbuf : appendArrayHeader 4 ++ appendBulk value ++ appendInteger version ++
      appendInteger tombstone ++ appendInteger ttl = appendArrayHeader 4 ++ (appendBulk value ++
        (appendInteger version ++ (appendInteger tombstone ++ (appendInteger ttl ++ [])))) := by
    simp only [List.append_assoc, List.append_nil]
  rw [hbuf, parse_appendArrayHeader, if_pos (by decide)]
  -- The integers are always read back, so the bulk string decides.
  by_cases hle : value.length ≤ kMaxBulkLength
  · simp only [Decoder.times, Decoder.parse_bind, parse_appendBulk, parse_appendInteger, if_pos hle,
      Decoder.parse_pure]
  · simp only [Decoder.times, Decoder.parse_bind, parse_appendBulk, if_neg hle]

theorem oneReply_bulk_iff (value : Bytes) :
    OneReply (appendBulk value) ↔ value.length ≤ kMaxBulkLength := whole_appendBulk_iff value

/-- The replies to commands that answer with a line or an integer. -/
theorem oneReply_dispatch_of_plain (cmd : Command) (s : σ)
    (h : cmd.type ∈ [.set, .delete, .existsKeys, .expire, .ttl, .pttl, .dbSize, .flushAll,
      .commandDocs, .select, .client, .quit, .replSet, .replDelete]) :
    OneReply (dispatch api cmd s).2 := by
  obtain ⟨type, key, keys, value, ttlMs, version, error⟩ := cmd
  cases type with
  | set =>
    simp only [dispatch]
    split
    · exact oneReply_simple findCrlf_ok
    · exact oneReply_error findCrlf_kWriteUnavailable
  | delete => exact oneReply_deleteKeys keys 0 s
  | existsKeys => exact oneReply_countKeys keys 0 s
  | expire =>
    simp only [dispatch]
    split
    · exact oneReply_integer _
    · exact oneReply_error findCrlf_kWriteUnavailable
  | ttl =>
    simp only [dispatch]
    split
    · exact oneReply_error findCrlf_kReadUnavailable
    · exact oneReply_integer _
  | pttl =>
    simp only [dispatch]
    split
    · exact oneReply_error findCrlf_kReadUnavailable
    · exact oneReply_integer _
  | dbSize => exact oneReply_integer _
  | flushAll => exact oneReply_simple findCrlf_ok
  | commandDocs =>
    have hempty : parseReply.Whole (.array []) (appendArrayHeader 0) := by decide
    exact ⟨_, hempty⟩
  | select =>
    simp only [dispatch]
    split
    · exact oneReply_simple findCrlf_ok
    · exact oneReply_error (by decide)
  | client => exact oneReply_simple findCrlf_ok
  | quit => exact oneReply_simple findCrlf_ok
  | replSet => exact oneReply_integer _
  | replDelete => exact oneReply_integer _
  | _ => simp at h

/-- **The reply to a command is one value** if its error text is one line and its parts are within
the limits. -/
theorem oneReply_dispatch_iff (cmd : Command) (s : σ) :
    OneReply (dispatch api cmd s).2 ↔
      (cmd.type = .unknown → findCrlf cmd.error = none) ∧ Sized api s cmd := by
  by_cases hplain : cmd.type ∈ [.set, .delete, .existsKeys, .expire, .ttl, .pttl, .dbSize,
      .flushAll, .commandDocs, .select, .client, .quit, .replSet, .replDelete]
  · -- a line or an integer is always one value
    refine iff_of_true (oneReply_dispatch_of_plain cmd s hplain) ?_
    obtain ⟨type, key, keys, value, ttlMs, version, error⟩ := cmd
    cases type <;> simp_all [Sized]
  obtain ⟨type, key, keys, value, ttlMs, version, error⟩ := cmd
  cases type with
  | ping =>
    simp only [dispatch, Sized, reduceCtorEq, false_implies, true_and]
    split
    · -- without an argument the reply is `PONG`
      rename_i hnil
      exact iff_of_true (oneReply_simple (by decide)) (by simp [hnil])
    · exact oneReply_bulk_iff value
  | echo =>
    simp only [dispatch, Sized, reduceCtorEq, false_implies, true_and]
    exact oneReply_bulk_iff value
  | stats =>
    simp only [dispatch, Sized, reduceCtorEq, false_implies, true_and]
    exact oneReply_bulk_iff _
  | config =>
    simp only [dispatch, Sized, reduceCtorEq, false_implies, true_and]
    exact oneReply_config_iff keys
  | get =>
    rcases hr : api.read s key with ⟨s', status, v⟩
    simp only [dispatch, Sized, hr, reduceCtorEq, false_implies, true_and]
    -- only a value that was found is of any length
    cases status with
    | found => simpa using oneReply_bulk_iff v.value
    | notFound => exact iff_of_true oneReply_null nofun
    | unavailable => exact iff_of_true (oneReply_error findCrlf_kReadUnavailable) nofun
  | replGet =>
    rcases hr : api.replicaRead s key with ⟨s', v⟩
    simp only [dispatch, Sized, hr, reduceCtorEq, false_implies, true_and]
    cases v with
    | none => exact iff_of_true oneReply_null nofun
    | some v => simpa using oneReply_replica_iff v.value _ _ _
  | clusterGossip =>
    simp only [dispatch, Sized, reduceCtorEq, false_implies, true_and]
    cases hg : readGossip keys with
    | none =>
      -- a number in the payload could not be read
      exact iff_of_true (oneReply_error (by decide)) nofun
    | some remote =>
      have hn (m : MemberInfo) : (memberFields m).length = 5 := rfl
      have hiff := oneReply_records_iff hn (api.mergeGossip s remote).2
      simpa [memberFields_fit_iff] using hiff
  | clusterNodes =>
    simp only [dispatch, Sized, reduceCtorEq, false_implies, true_and]
    exact oneReply_bulk_iff _
  | unknown =>
    simp only [dispatch, Sized, true_implies, and_true]
    split
    · rename_i hnil
      exact iff_of_true (oneReply_error (by decide)) (by simp [hnil, findCrlf])
    · exact whole_appendError_iff error
  | _ => simp at hplain

/-- The reply to a request is one value exactly if it fits the protocol. -/
theorem oneReply_iff_fits (api : ClusterApi σ) (s : σ) (args : List Bytes) :
    OneReply (dispatch api (Parser.parse args) s).2 ↔ Fits api s args := by
  rw [Fits, ← Parser.findCrlf_error]
  refine (oneReply_dispatch_iff (Parser.parse args) s).trans (and_congr_left ?_)
  intro _
  constructor
  · intro h
    by_cases htype : (Parser.parse args).type = .unknown
    · exact h htype
    · -- a command that is known carries no error text
      simp [Parser.error_eq_nil htype, findCrlf]
  · intro h _
    exact h

/-! ## Replies in a row -/

/-- The replies to requests that are executed one after the other. -/
def replies (api : ClusterApi σ) : List (List Bytes) → σ → List Bytes
  | [], _ => []
  | args :: requests, s =>
    let r := dispatch api (Parser.parse args) s
    r.2 :: replies api requests r.1

/-- Every request fits when its turn comes. -/
def AllFit (api : ClusterApi σ) : List (List Bytes) → σ → Prop
  | [], _ => True
  | args :: requests, s =>
    Fits api s args ∧ AllFit api requests (dispatch api (Parser.parse args) s).1

theorem forall₂_replies {requests : List (List Bytes)} (h : AllFit api requests s) :
    ∃ values, values.length = requests.length ∧
      List.Forall₂ parseReply.Whole values (replies api requests s) := by
  -- Induction on the requests, from the state that the first one leaves.
  induction requests generalizing s with
  | nil => exact ⟨[], rfl, .nil⟩
  | cons args requests ih =>
    obtain ⟨v, hv⟩ := (oneReply_iff_fits api s args).mpr h.1
    obtain ⟨values, hlen, hvalues⟩ := ih h.2
    exact ⟨v :: values, by simp [hlen], .cons hv hvalues⟩

/-- A cluster that stores nothing. -/
def emptyCluster : ClusterApi Unit where
  put _ _ _ _ := ((), { ok := true })
  del _ _ := ((), { ok := true })
  read _ _ := ((), { status := .notFound })
  expireKey _ _ _ := ((), { ok := true })
  applyReplicaWrite _ _ _ := ((), false)
  replicaRead _ _ := ((), none)
  mergeGossip _ _ := ((), [])
  members _ := []
  isNodeHealthy _ _ := false
  localNode _ := ⟨[97], [], 0⟩
  nodeCount _ := 1
  clear _ := ()
  size _ := 0
  capacity _ := 0
  totalHits _ := 0
  totalMisses _ := 0
  hitRate _ := ascii "0.000000"

/-- **The reply to one request is read as two**: the name of an unknown command is repeated in the
line of the error, with the line break in it. -/
theorem unknown_command_splits_reply :
    parseRequest (ascii "*1\r\n$6\r\nX\r\n+OK\r\n") = .ok [ascii "X\r\n+OK"] [] ∧
      Takes parseReply.parse (dispatch emptyCluster (Parser.parse [ascii "X\r\n+OK"]) ()).2
        [.error (ascii "ERR unknown command 'X"), .simpleString (ascii "OK'")] [] := by
  have hrest : parseReply.parse (ascii "+OK'\r\n") = .ok (.simpleString (ascii "OK'")) [] := by
    decide
  exact ⟨by decide, .cons (by decide) (.cons hrest (.nil []))⟩

/-- **A request has one reply**, a single value that takes all the bytes that were appended, exactly
if the reply fits the protocol. A client then decodes as many replies as it has sent requests. -/
theorem reply_whole_iff (api : ClusterApi σ) :
    (∀ s args, (∃ v, parseReply.Whole v (dispatch api (Parser.parse args) s).2) ↔ Fits api s args) ∧
      ∀ s requests, AllFit api requests s → ∃ values, values.length = requests.length ∧
        Takes parseReply.parse (replies api requests s).flatten values [] := by
  refine ⟨fun s args => oneReply_iff_fits api s args, ?_⟩
  intro s requests h
  obtain ⟨values, hlen, hvalues⟩ := forall₂_replies h
  have htakes := Decoder.takes_flatten hvalues []
  rw [List.append_nil] at htakes
  exact ⟨values, hlen, htakes⟩

/-- Two requests to an empty cluster have two replies. -/
theorem reply_whole_iff_pingGet :
    AllFit emptyCluster [[ascii "PING"], [ascii "GET", [107]]] () ∧
      ∃ values, values.length = 2 ∧ Takes parseReply.parse
        (replies emptyCluster [[ascii "PING"], [ascii "GET", [107]]] ()).flatten values [] := by
  have hping : Parser.parse [ascii "PING"] = { type := .ping } := by decide
  have hget : Parser.parse [ascii "GET", [107]] = { type := .get, key := [107] } := by
    decide
  have hfit : AllFit emptyCluster [[ascii "PING"], [ascii "GET", [107]]] () := by
    refine ⟨⟨by decide, ?_⟩, ⟨by decide, ?_⟩, trivial⟩
    · rw [hping]
      exact Nat.zero_le _
    · rw [hget]
      exact nofun
  exact ⟨hfit, (reply_whole_iff emptyCluster).2 () _ hfit⟩

end CommandHandler

end ShardCache
