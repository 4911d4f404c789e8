import ShardCache.Cluster.LocalNode
import ShardCache.Cluster.PreferenceList
import ShardCache.Network.ReplicaWrite
import ShardCache.Replication.ReplicaRead
import ShardCache.Store.Sharding

/-!
# Commands on I/O threads

The threads that serve connections run a command themselves if `runs_locally` says so, and hand it
to a pool of threads that may wait otherwise. The handler asks about the keys of the command; what
the command then does is decided again inside the coordinator, by branches of its own. They agree:
what runs on an I/O thread uses no channel and no connection to a peer.

The coordinator is the `Cluster` of one node with its routing table, and every use that it makes of
a peer is recorded. What the environment decides is a parameter: how the calls to peers end, what
the clocks read, and what other threads do to the clock and the cache between two accesses.

## Main definitions

* `Environment`, `Coordinator`: what is decided elsewhere; the node, with its uses of peers
* `Coordinator.canServeLocally`, `Coordinator.replicate`, `Coordinator.nextVersion`,
  `Coordinator.put`, `Coordinator.del`, `Coordinator.expireKey`, `Coordinator.collect`,
  `Coordinator.read`, `Coordinator.readRepair`
* `Coordinator.api`: the coordinator as the handler uses it

## Main results

* `Coordinator.canServeLocally_eq_placement`: what the routing table says about a key
* `Coordinator.put_eq_localNode`, `Coordinator.expireKey_eq_localNode`: served alone and
  undisturbed, the coordinator is the `LocalNode`
* `Coordinator.local_command_uses_no_peer`: a command that runs locally uses no peer
-/

namespace ShardCache

open Foundations Replication Resp CommandHandler

/-- A use of a peer: `PeerChannels::call`, or `PeerPool::acquire`, by which hints, gossip and
rebalancing reach a peer. -/
inductive PeerUse where
  | call (node : CacheNode) (args : List Bytes)
  | acquire (node : CacheNode)
deriving DecidableEq, Repr

/-- What is decided elsewhere. Readings of the clocks and the effects of other threads come in the
order of the accesses of this thread, results in the order of its calls. A call has no result if it
has not ended when the thread stops waiting. The last three are what `STATS` reports. -/
structure Environment where
  now : ℕ → Time
  wallMs : ℕ → UInt64
  result : ℕ → Option CallResult
  others : ℕ → LocalNode → LocalNode := fun _ node => node
  totalHits : ℕ := 0
  totalMisses : ℕ := 0
  hitRate : Bytes := []

/-- The state of a `Cluster` while a thread runs a command: `uses` records the uses of peers, and
`accesses` counts the accesses to the clock and the cache. -/
structure Coordinator where
  config : ClusterConfig
  membership : Membership.State
  node : LocalNode
  hints : Std.ExtTreeMap NodeId (List Handoff.Hint) := ∅
  hintsDropped : ℕ := 0
  readQuorumFailures : ℕ := 0
  writeQuorumFailures : ℕ := 0
  readRepairs : ℕ := 0
  uses : List PeerUse := []
  accesses : ℕ := 0

/-- `QuorumReplies`. -/
structure QuorumReplies where
  targets : List CacheNode := []
  replies : Fanout (Option VersionedValue) := { todo := [] }
  ok : Bool := false

/-- `replica_get_command`. -/
def replicaGetCommand (key : Key) : List Bytes := [ascii "REPL_GET", key]

/-- What the callback of `collect` records: the copy of the replica, or that there is no reply. -/
def collected : CallResult → Option (Option VersionedValue)
  | .success reply =>
    match decodeReplicaGet reply with
    | .ok v => some (some v)
    | .error (.notFound, _) => some none
    | .error _ => none
  | .error _ _ => none

namespace Coordinator

variable (env : Environment)

/-! ## Placement -/

/-- `Cluster::preference_list`. -/
def preferenceList (s : Coordinator) (key : Key) : List CacheNode :=
  s.membership.routing.preferenceList key

/-- `Cluster::is_node_healthy`: a node that is not known is taken for healthy. -/
def isNodeHealthy (s : Coordinator) (id : NodeId) : Bool := s.membership.nodeHealth.getD id true

/-- `Cluster::can_serve_locally`. -/
def canServeLocally (s : Coordinator) (key : Key) (isWrite : Bool) : Bool :=
  let table := s.membership.routing
  if table.isEmpty then false
  else
    let point := table.pointFor key
    if table.localIsReplica point ≠ some true then false
    else
      let replicas := (table.replicas.getD point []).length
      if isWrite || s.config.consistency == .linearizable then replicas == 1
      else s.config.effectiveQuorum s.config.readQuorum replicas == 1

/-! ## The clock, the cache, the hints and the peers -/

/-- The thread goes on to its next access, after other threads have run. -/
def access (s : Coordinator) : Coordinator :=
  { s with node := env.others s.accesses s.node, accesses := s.accesses + 1 }

/-- `clock_.now()`. -/
def stamp (s : Coordinator) : Coordinator × UInt64 :=
  let s := s.access env
  let node := s.node.stamp (env.wallMs s.accesses)
  ({ s with node := node }, node.clock)

/-- `clock_.observe(version)`. -/
def observe (s : Coordinator) (version : UInt64) : Coordinator :=
  let s := s.access env
  { s with node := s.node.observe version }

/-- `local_cache_.get_versioned(key)`. -/
def getVersioned (s : Coordinator) (key : Key) : Coordinator × Option VersionedValue :=
  let s := s.access env
  (s, s.node.cache.getVersioned (env.now s.accesses) key)

/-- `local_cache_.apply(key, v, &live)`: whether the key was live. -/
def applyLocal (s : Coordinator) (key : Key) (v : VersionedValue) : Coordinator × Bool :=
  let s := s.access env
  let now := env.now s.accesses
  ({ s with node := { s.node with cache := (s.node.cache.apply now key v).1 } },
    wasLive now (s.node.cache.slot key))

/-- `Cluster::add_hint`: a full queue drops its oldest hint. -/
def addHint (s : Coordinator) (n : NodeId) (key : Key) (v : VersionedValue) : Coordinator :=
  let hint : Handoff.Hint := ⟨key, v, v.ttl.map fun ttl => env.now s.accesses + ttl.ticks⟩
  let queue := s.hints.getD n []
  if queue.length ≥ s.config.maxHintsPerNode then
    { s with
      hints := s.hints.insert n (queue.tail ++ [hint])
      hintsDropped := s.hintsDropped + 1 }
  else { s with hints := s.hints.insert n (queue ++ [hint]) }

/-- `peer_channels_->call(node.host, node.port, args, callback)`. -/
def call (s : Coordinator) (node : CacheNode) (args : List Bytes) :
    Coordinator × Option CallResult :=
  ({ s with uses := s.uses ++ [.call node args] }, env.result s.uses.length)

/-! ## Writes -/

/-- The loop of `replicate`, for one target. -/
def replicateTo (key : Key) (v : VersionedValue) (a : Coordinator × Fanout Bool)
    (node : CacheNode) : Coordinator × Fanout Bool :=
  let (s, f) := a
  if node.id = s.membership.localNode.id then
    let (s, live) := s.applyLocal env key v
    (s, f.record node.id (some live))
  else if !s.isNodeHealthy node.id then (s.addHint env node.id key v, f.record node.id none)
  else
    let (s, result) := s.call env node (replicaWriteCommand key v)
    match result.map Handoff.acknowledged with
    -- the callback has not run when the thread stops waiting
    | none => (s, { f with pending := node.id :: f.pending })
    | some (some live) => (s, f.record node.id (some live))
    | some none => (s.addHint env node.id key v, f.record node.id none)

/-- `Cluster::replicate`. -/
def replicate (s : Coordinator) (key : Key) (v : VersionedValue) : Coordinator × WriteResult :=
  if s.canServeLocally key true then
    let (s, live) := s.applyLocal env key v
    (s, ⟨true, live, 1⟩)
  else
    let targets := s.preferenceList key
    if targets = [] then (s, {})
    else
      let needed := s.config.effectiveQuorum s.config.writeQuorum targets.length
      let (s, f) := targets.foldl (replicateTo env key v) (s, { todo := [] })
      let ok := decide (needed ≤ f.succeeded.length)
      let s := if ok then s else { s with writeQuorumFailures := s.writeQuorumFailures + 1 }
      (s, ⟨ok, f.answers.any fun a => a.2.getD false, f.succeeded.length⟩)

/-- The loop of `collect`, for one target. -/
def collectFrom (key : Key) (a : Coordinator × Fanout (Option VersionedValue))
    (node : CacheNode) : Coordinator × Fanout (Option VersionedValue) :=
  let (s, f) := a
  if node.id = s.membership.localNode.id then
    let (s, v) := s.getVersioned env key
    (s, f.record node.id (some v))
  else if !s.isNodeHealthy node.id then (s, f.record node.id none)
  else
    let (s, result) := s.call env node (replicaGetCommand key)
    match result.map collected with
    | none => (s, { f with pending := node.id :: f.pending })
    | some reply => (s, f.record node.id reply)

/-- `Cluster::collect`. -/
def collect (s : Coordinator) (key : Key) : Coordinator × QuorumReplies :=
  let targets := s.preferenceList key
  if targets = [] then (s, {})
  else
    let needed := s.config.effectiveQuorum s.config.readQuorum targets.length
    let (s, f) := targets.foldl (collectFrom env key) (s, { todo := [] })
    (s, ⟨targets, f, decide (needed ≤ f.succeeded.length)⟩)

/-- `Cluster::next_version`. -/
def nextVersion (s : Coordinator) (key : Key) : Coordinator × Option UInt64 :=
  -- a linearizable write is ordered after every version that a quorum knows of
  if s.config.consistency = .linearizable ∧ s.canServeLocally key true = false then
    let (s, replies) := s.collect env key
    if replies.ok then
      let versions := replies.targets.filterMap fun node =>
        (replies.replies.reply node.id).join.map VersionedValue.version
      let (s, version) := (versions.foldl (observe env) s).stamp env
      (s, some version)
    else ({ s with writeQuorumFailures := s.writeQuorumFailures + 1 }, none)
  else
    let (s, version) := s.stamp env
    (s, some version)

/-- `Cluster::put`. -/
def put (s : Coordinator) (key : Key) (value : Bytes) (ttl : Option Millis) :
    Coordinator × WriteResult :=
  match s.nextVersion env key with
  | (s, none) => (s, {})
  | (s, some version) => s.replicate env key ⟨value, version, false, ttl⟩

/-- `Cluster::del`. -/
def del (s : Coordinator) (key : Key) : Coordinator × WriteResult :=
  match s.nextVersion env key with
  | (s, none) => (s, {})
  | (s, some version) => s.replicate env key ⟨[], version, true, none⟩

/-! ## Reads -/

/-- The loop of `read_repair`, for one replica. -/
def repairOne (key : Key) (winner : VersionedValue) (s : Coordinator) (node : CacheNode) :
    Coordinator :=
  if node.id = s.membership.localNode.id then (s.applyLocal env key winner).1
  else (s.call env node (replicaWriteCommand key winner)).1

/-- `Cluster::read_repair`. -/
def readRepair (s : Coordinator) (key : Key) (winner : VersionedValue) (stale : List CacheNode) :
    Coordinator :=
  stale.foldl (repairOne env key winner) s

/-- `Cluster::read`, from the choice of the winner on. -/
def settle (s : Coordinator) (key : Key) (replies : QuorumReplies) (winner : VersionedValue) :
    Coordinator × ReadResult :=
  let s := s.observe env winner.version
  let ids := replies.targets.map CacheNode.id
  let behind := staleTargets ids replies.replies.reply winner
  let stale := replies.targets.filter fun node => node.id ∈ behind
  let writeQuorum := s.config.effectiveQuorum s.config.writeQuorum replies.targets.length
  let s : Coordinator := { s with readRepairs := s.readRepairs + stale.length }
  -- a linearizable read first brings its value to a quorum
  if s.config.consistency = .linearizable ∧
      (upToDate ids replies.replies.reply winner).length < writeQuorum then
    let (s, written) := s.replicate env key winner
    (s, if written.ok then toResult (some winner) else {})
  else (s.readRepair env key winner stale, toResult (some winner))

/-- `Cluster::read`. -/
def read (s : Coordinator) (key : Key) : Coordinator × ReadResult :=
  if s.canServeLocally key false then
    let (s, v) := s.getVersioned env key
    (s, toResult v)
  else
    let (s, replies) := s.collect env key
    if replies.ok then
      match selectWinner (replies.targets.map CacheNode.id) replies.replies.reply with
      | none => (s, toResult none)
      | some winner => s.settle env key replies winner
    else ({ s with readQuorumFailures := s.readQuorumFailures + 1 }, {})

/-- `Cluster::expire_key`. -/
def expireKey (s : Coordinator) (key : Key) (ttl : Millis) : Coordinator × WriteResult :=
  let (s, current) := s.read env key
  match current.status with
  | .unavailable => (s, {})
  | .notFound => (s, ⟨true, false, 0⟩)
  | .found =>
    let (s, version) := s.stamp env
    let (s, result) := s.replicate env key ⟨current.value.value, version, false, some ttl⟩
    (s, { result with existed := true })

/-! ## The handler's view -/

/-- `Cluster::apply_replica_write`. -/
def applyReplicaWrite (s : Coordinator) (key : Key) (v : VersionedValue) : Coordinator × Bool :=
  (s.observe env v.version).applyLocal env key v

/-- `Cluster::merge_gossip`. -/
def mergeGossip (s : Coordinator) (remote : List MemberInfo) : Coordinator × List MemberInfo :=
  let (membership, view) := s.membership.mergeGossip remote
  ({ s with membership := membership }, view)

/-- `local_cache_.clear()`. -/
def clear (s : Coordinator) : Coordinator :=
  let s := s.access env
  { s with node := { s.node with cache := s.node.cache.clear (env.now s.accesses) } }

/-- The calls that the handler makes. -/
def api : ClusterApi Coordinator where
  put := put env
  del := del env
  read := read env
  expireKey := expireKey env
  applyReplicaWrite := applyReplicaWrite env
  replicaRead := getVersioned env
  mergeGossip := mergeGossip
  members s := s.membership.view
  isNodeHealthy := isNodeHealthy
  localNode s := s.membership.localNode
  nodeCount s := s.membership.routing.nodes.length
  clear := clear env
  size s := s.node.cache.size
  capacity s := (s.node.cache.shards.map Cache.capacity).sum
  totalHits _ := env.totalHits
  totalMisses _ := env.totalMisses
  hitRate _ := env.hitRate

/-! ## What the routing table says about a key -/

variable {s s' : Coordinator} {key : Key} {v : VersionedValue}

/-- **The routing table and the placement of a key** give the same answer, for a table that was built
from a ring with at most 65536 ids. -/
theorem canServeLocally_eq_placement {ring : ConsistentHashRing} {self : NodeId}
    (hring : ring.Reachable) (hids : ring.ids.card ≤ 65536)
    (htable : s.membership.routing = .build ring s.config.replicationFactor self) (key : Key)
    (isWrite : Bool) :
    s.canServeLocally key isWrite =
      (RoutingTable.placement ring self key s.config).canServeLocally self isWrite := by
  have htargets : (RoutingTable.placement ring self key s.config).targets =
      (RoutingTable.build ring s.config.replicationFactor self).replicaIds key := rfl
  have hempty : (RoutingTable.build ring s.config.replicationFactor self).isEmpty =
      ring.points.toList.isEmpty := by
    simp [RoutingTable.isEmpty, RoutingTable.build]
  unfold canServeLocally Placement.canServeLocally Placement.readQuorum
  simp only [htable, htargets, RoutingTable.replicaIds, RoutingTable.preferenceList, hempty]
  by_cases hne : ring.points.toList = []
  · simp [hne]
  · -- the list that was precomputed for the point of the key
    have hp := RoutingTable.pointFor_lt ring s.config.replicationFactor self key hne
    rw [List.isEmpty_eq_false_iff.mpr hne,
      RoutingTable.preferenceListAt_build _ _ hring.valid hids hp,
      RoutingTable.localIsReplica_build _ _ hring.valid hids hp,
      RoutingTable.length_replicas_build _ _ hring.valid hids hp]
    simp only [Bool.false_eq_true, if_false, ne_eq, Option.some.injEq, decide_eq_true_eq,
      List.length_map, ite_not]
    rfl

/-! ## Served alone -/

/-- `s'` has used no other peers than `s`, and serves the same keys alone. -/
structure Quiet (s s' : Coordinator) : Prop where
  uses : s'.uses = s.uses
  config : s'.config = s.config
  routing : s'.membership.routing = s.membership.routing

namespace Quiet

variable {s'' : Coordinator}

theorem trans (h : Quiet s s') (h' : Quiet s' s'') : Quiet s s'' where
  uses := h'.uses.trans h.uses
  config := h'.config.trans h.config
  routing := h'.routing.trans h.routing

theorem canServeLocally (h : Quiet s s') (key : Key) (isWrite : Bool) :
    s'.canServeLocally key isWrite = s.canServeLocally key isWrite := by
  unfold Coordinator.canServeLocally
  rw [h.routing, h.config]

end Quiet

theorem quiet_stamp (s : Coordinator) : Quiet s (s.stamp env).1 := by
  constructor <;> simp only [stamp, access]

theorem quiet_getVersioned (s : Coordinator) (key : Key) : Quiet s (s.getVersioned env key).1 :=
  ⟨rfl, rfl, rfl⟩

theorem quiet_applyLocal (s : Coordinator) (key : Key) (v : VersionedValue) :
    Quiet s (s.applyLocal env key v).1 :=
  ⟨rfl, rfl, rfl⟩

/-- The only replica of a key applies a write itself. -/
theorem replicate_of_alone (h : s.canServeLocally key true = true) (v : VersionedValue) :
    s.replicate env key v =
      ((s.applyLocal env key v).1, ⟨true, (s.applyLocal env key v).2, 1⟩) := by
  rw [replicate, if_pos h]

/-- It asks no other replica for versions. -/
theorem nextVersion_of_alone (h : s.canServeLocally key true = true) :
    s.nextVersion env key = ((s.stamp env).1, some (s.stamp env).2) := by
  rw [nextVersion, if_neg (by simp [h])]

theorem read_of_alone (h : s.canServeLocally key false = true) :
    s.read env key = ((s.getVersioned env key).1, toResult (s.getVersioned env key).2) := by
  rw [read, if_pos h]

theorem put_of_alone (h : s.canServeLocally key true = true) (value : Bytes)
    (ttl : Option Millis) :
    s.put env key value ttl =
      (s.stamp env).1.replicate env key ⟨value, (s.stamp env).2, false, ttl⟩ := by
  rw [put, nextVersion_of_alone env h]

theorem del_of_alone (h : s.canServeLocally key true = true) :
    s.del env key = (s.stamp env).1.replicate env key ⟨[], (s.stamp env).2, true, none⟩ := by
  rw [del, nextVersion_of_alone env h]

theorem quiet_replicate (h : s.canServeLocally key true = true) (v : VersionedValue) :
    Quiet s (s.replicate env key v).1 := by
  rw [replicate_of_alone env h]
  exact quiet_applyLocal env s key v

theorem quiet_read (h : s.canServeLocally key false = true) : Quiet s (s.read env key).1 := by
  rw [read_of_alone env h]
  exact quiet_getVersioned env s key

/-- A write that was stamped: the stamp leaves the key served alone. -/
theorem quiet_stamp_replicate (h : s.canServeLocally key true = true) (v : VersionedValue) :
    Quiet s ((s.stamp env).1.replicate env key v).1 := by
  have hstamp := quiet_stamp env s
  exact hstamp.trans (quiet_replicate env ((hstamp.canServeLocally key true).trans h) v)

theorem quiet_put (h : s.canServeLocally key true = true) (value : Bytes) (ttl : Option Millis) :
    Quiet s (s.put env key value ttl).1 := by
  rw [put_of_alone env h]
  exact quiet_stamp_replicate env h _

theorem quiet_del (h : s.canServeLocally key true = true) : Quiet s (s.del env key).1 := by
  rw [del_of_alone env h]
  exact quiet_stamp_replicate env h _

/-- `expire_key` reads and writes, so that both have to be local. -/
theorem quiet_expireKey (hwrite : s.canServeLocally key true = true)
    (hread : s.canServeLocally key false = true) (ttl : Millis) :
    Quiet s (s.expireKey env key ttl).1 := by
  have hquiet := quiet_read env hread
  unfold expireKey
  simp only
  -- only a key that was found is written
  split
  · exact hquiet
  · exact hquiet
  · exact hquiet.trans
      (quiet_stamp_replicate env ((hquiet.canServeLocally key true).trans hwrite) _)

/-! ## Served alone and undisturbed -/

section Undisturbed

variable {env} (hothers : ∀ i node, env.others i node = node)
include hothers

theorem stamp_replicate_eq_localNode (h : s.canServeLocally key true = true)
    (v : UInt64 → VersionedValue) :
    (((s.stamp env).1.replicate env key (v (s.stamp env).2)).1.node,
        ((s.stamp env).1.replicate env key (v (s.stamp env).2)).2) =
      (s.node.stamp (env.wallMs (s.accesses + 1))).replicate (env.now (s.accesses + 2)) key
        (v (s.node.stamp (env.wallMs (s.accesses + 1))).clock) := by
  rw [replicate_of_alone env (((quiet_stamp env s).canServeLocally key true).trans h)]
  simp only [applyLocal, stamp, access, hothers, LocalNode.replicate]

theorem put_eq_localNode (h : s.canServeLocally key true = true) (value : Bytes)
    (ttl : Option Millis) :
    ((s.put env key value ttl).1.node, (s.put env key value ttl).2) =
      s.node.put (env.wallMs (s.accesses + 1)) (env.now (s.accesses + 2)) key value ttl := by
  rw [put_of_alone env h]
  exact stamp_replicate_eq_localNode hothers h fun version => ⟨value, version, false, ttl⟩

theorem del_eq_localNode (h : s.canServeLocally key true = true) :
    ((s.del env key).1.node, (s.del env key).2) =
      s.node.del (env.wallMs (s.accesses + 1)) (env.now (s.accesses + 2)) key := by
  rw [del_of_alone env h]
  exact stamp_replicate_eq_localNode hothers h fun version => ⟨[], version, true, none⟩

theorem read_eq_localNode (h : s.canServeLocally key false = true) :
    ((s.read env key).1.node, (s.read env key).2) =
      (s.node, s.node.read (env.now (s.accesses + 1)) key) := by
  rw [read_of_alone env h]
  simp only [getVersioned, access, hothers, LocalNode.read]

theorem expireKey_eq_localNode (hwrite : s.canServeLocally key true = true)
    (hread : s.canServeLocally key false = true) (ttl : Millis) :
    ((s.expireKey env key ttl).1.node, (s.expireKey env key ttl).2) =
      s.node.expireKey (env.wallMs (s.accesses + 2)) (env.now (s.accesses + 1))
        (env.now (s.accesses + 3)) key ttl := by
  have hquiet := quiet_read env hread
  have hlocal := read_eq_localNode hothers hread
  simp only [Prod.mk.injEq] at hlocal
  -- the read took one access, so the write takes the readings of the next two
  have haccesses : (s.read env key).1.accesses = s.accesses + 1 := by
    rw [read_of_alone env hread]
    rfl
  unfold expireKey LocalNode.expireKey
  simp only [hlocal.2]
  cases (s.node.read (env.now (s.accesses + 1)) key).status with
  | unavailable => simp only [hlocal.1]
  | notFound => simp only [hlocal.1]
  | found =>
    have hwritten := stamp_replicate_eq_localNode hothers
      ((hquiet.canServeLocally key true).trans hwrite) fun version =>
        ⟨(s.node.read (env.now (s.accesses + 1)) key).value.value, version, false, some ttl⟩
    rw [hlocal.1, haccesses, Prod.mk.injEq] at hwritten
    simp only [hwritten.1, hwritten.2]

end Undisturbed

/-! ## Commands -/

/-- `DEL` of one key. -/
theorem uses_deleteKeys (h : s.canServeLocally key true = true) (removed : Int64) :
    (deleteKeys (api env) [key] removed s).1.uses = s.uses := by
  simp only [deleteKeys]
  split
  · exact (quiet_del env h).uses
  · exact (quiet_del env h).uses

/-- `EXISTS` of one key. -/
theorem uses_countKeys (h : s.canServeLocally key false = true) (found : Int64) :
    (countKeys (api env) [key] found s).1.uses = s.uses := by
  simp only [countKeys]
  split
  · exact (quiet_read env h).uses
  · exact (quiet_read env h).uses

end Coordinator

/-- The handler asks about the first of the keys. -/
theorem Parser.keys_of_type {args : List Bytes} :
    (parse args).type = .delete ∨ (parse args).type = .existsKeys →
      ∃ keys, (parse args).keys = (parse args).key :: keys := by
  have hexpire : ∀ key amount unit, (parseExpire key amount unit).type ≠ .delete ∧
      (parseExpire key amount unit).type ≠ .existsKeys := fun key amount unit =>
    ⟨type_parseExpire_ne (by decide) (by decide) key amount unit,
      type_parseExpire_ne (by decide) (by decide) key amount unit⟩
  -- only `DEL` and `EXISTS` give these types; the two verbs of `EXPIRE` go through `parseExpire`
  fun_cases parse args
  all_goals first
    | with_reducible exact fun h => absurd h (not_or.mpr (hexpire _ _ _))
    | exact fun h => h.elim CommandType.noConfusion CommandType.noConfusion
    | exact fun _ => ⟨_, rfl⟩

namespace Coordinator

variable (env : Environment) (s : Coordinator) (args : List Bytes)

/-- **A command that runs on an I/O thread waits for no peer.** Whatever the configuration, the
routing table and the health of the nodes: if the handler finds that a command runs locally, then
executing it makes no call to a peer and takes no connection to one, whatever the cache holds and
other threads do to it meanwhile. -/
theorem local_command_uses_no_peer
    (h : runsLocally s.canServeLocally (Parser.parse args) = true) :
    (dispatch (api env) (Parser.parse args) s).1.uses = s.uses := by
  -- all that is needed of the parser; the cases are then those of a command of any origin
  have hkeys := @Parser.keys_of_type args
  generalize Parser.parse args = cmd at h hkeys ⊢
  unfold runsLocally at h
  unfold dispatch
  cases htype : cmd.type with
  | get | ttl | pttl =>
    rw [htype] at h
    exact (quiet_read env h).uses
  | set =>
    rw [htype] at h
    exact (quiet_put env h _ _).uses
  | delete =>
    -- the handler asks about `key`, and the command deletes all of `keys`
    rw [htype] at h
    simp only [Bool.and_eq_true, decide_eq_true_eq] at h
    obtain ⟨keys, hkeys⟩ := hkeys (Or.inl htype)
    obtain rfl : keys = [] := by simpa [hkeys] using h.1
    rw [hkeys]
    exact uses_deleteKeys env h.2 0
  | existsKeys =>
    rw [htype] at h
    simp only [Bool.and_eq_true, decide_eq_true_eq] at h
    obtain ⟨keys, hkeys⟩ := hkeys (Or.inr htype)
    obtain rfl : keys = [] := by simpa [hkeys] using h.1
    rw [hkeys]
    exact uses_countKeys env h.2 0
  | expire =>
    rw [htype] at h
    simp only [Bool.and_eq_true] at h
    exact (quiet_expireKey env h.1 h.2 _).uses
  | clusterGossip =>
    -- the view of the sender is merged; peers are told of it by the gossip thread
    simp only
    split <;> rfl
  | _ => rfl

/-- No call to a peer ends in time. -/
def unanswered : Environment where
  now _ := 0
  wallMs _ := 0
  result _ := none

/-- One of three replicas of every key, where one answer is enough for a read; it takes the second
replica for unhealthy. -/
def oneOfThree : Coordinator where
  config := { readQuorum := 1 }
  membership :=
    { localNode := ⟨[97], [], 7001⟩
      replicationFactor := 3
      nodeHealth := (∅ : Std.ExtTreeMap NodeId Bool).insert [98] false
      routing :=
        { nodes := [⟨[97], [], 7001⟩, ⟨[98], [], 7002⟩, ⟨[99], [], 7003⟩]
          points := [5]
          replicas := [[0, 1, 2]]
          localMember := [true] } }
  node := { cache := .new 8 2 60000 }

/-- It reads alone, and a write would have used the third replica. -/
theorem local_command_uses_no_peer_oneAnswer :
    (dispatch (api unanswered) (Parser.parse [ascii "GET", [107]]) oneOfThree).1.uses = [] ∧
      runsLocally oneOfThree.canServeLocally (Parser.parse [ascii "SET", [107], [118]]) = false ∧
      (dispatch (api unanswered) (Parser.parse [ascii "SET", [107], [118]]) oneOfThree).1.uses =
        [.call ⟨[99], [], 7003⟩ [ascii "REPL_SET", [107], [118], ascii "1"]] :=
  ⟨local_command_uses_no_peer unanswered oneOfThree _ (by decide), by decide,
    by decide⟩

end Coordinator

end ShardCache
