import ShardCache.Store.Slot
import ShardCache.Cluster.Config
import ShardCache.Cluster.HybridClock

/-!
# The replication protocol for one key

Any node coordinates any request. A write is stamped by its coordinator's clock and sent to every
replica; a read collects answers, returns the newest and repairs the replicas that are behind. In
linearizable mode writes first query the versions of a read quorum, and reads write the value they
return back to a write quorum.

The state of the system is the state of every node and of every operation, with the messages in
flight. Operations are the threads of the coordinators: one label runs one of them up to its next
access to shared data, or lets a replica serve one message. Everything the environment decides is
in the label: which message is delivered and when, which calls fail, which peers are taken for
unhealthy, what the clocks read, and when a waiting coordinator gives up. A message that is never
delivered is lost.

## Main definitions

* `Request`, `Outcome`: the coordinated operations and what they return
* `Node`, `Msg`, `Op`, `Phase`, `State`: the state of the system
* `selectWinner`, `upToDate`, `staleTargets`: how `Cluster::read` evaluates its replies
* `Label`, `step`: the transitions
* `NoExpiry`, `ClockBelowEnd`: the conditions under which a step meets no expired entry, and
  stamps no version past the end of the clock
-/

namespace ShardCache.Replication

/-! ## Requests and results -/

/-- A coordinated operation on the key under consideration. -/
inductive Request where
  | put (value : Bytes) (ttl : Option Millis)
  | del
  | read
  | expireKey (ttl : Millis)
deriving DecidableEq, Repr

/-- The requests that stamp a version of their own before anything else: `put` and `del`. -/
def Request.isWrite : Request → Bool
  | .put _ _ => true
  | .del => true
  | _ => false

/-- `ReadStatus`. -/
inductive ReadStatus where
  | found
  | notFound
  | unavailable
deriving DecidableEq, Repr

/-- `ReadResult`. -/
structure ReadResult where
  status : ReadStatus := .unavailable
  value : VersionedValue := {}
deriving DecidableEq, Repr

/-- `WriteResult`. -/
structure WriteResult where
  ok : Bool := false
  existed : Bool := false
  acks : ℕ := 0
deriving DecidableEq, Repr

/-- What a coordinated operation returns. -/
inductive Outcome where
  | write (r : WriteResult)
  | read (r : ReadResult)
deriving DecidableEq, Repr

/-- `to_result` of `Cluster::read`. -/
def toResult : Option VersionedValue → ReadResult
  | none => ⟨.notFound, {}⟩
  | some v => if v.tombstone then ⟨.notFound, {}⟩ else ⟨.found, v⟩

/-! ## Fan-out -/

/-- The shared state of a fan-out: the targets the issuing loop has not reached, those whose
callback has not run, and what was recorded; `none` records a call that was not ok. -/
structure Fanout (α : Type) where
  todo : List NodeId
  pending : List NodeId := []
  answers : List (NodeId × Option α) := []
deriving DecidableEq, Repr

namespace Fanout

variable {α : Type}

/-- `record`: one target has reported. -/
def record (f : Fanout α) (n : NodeId) (r : Option α) : Fanout α :=
  { f with answers := f.answers ++ [(n, r)] }

/-- The targets that reported success: `acks` in `replicate`, `replies` in `collect`. -/
def succeeded (f : Fanout α) : List NodeId :=
  (f.answers.filter fun a => a.2.isSome).map Prod.fst

/-- What a target answered, if it did. -/
def reply (f : Fanout α) (n : NodeId) : Option α := (f.answers.lookup n).join

end Fanout

/-! ## Reading the replies -/

/-- The loop of `Cluster::read` that picks the newest reply. -/
def selectWinner (targets : List NodeId) (reply : NodeId → Option (Option VersionedValue)) :
    Option VersionedValue :=
  targets.foldl (fun winner n =>
    match reply n with
    | some (some v) =>
      match winner with
      | none => some v
      | some w => if newer v w then some v else some w
    | _ => winner) none

/-- The replies that carry the winner: `up_to_date` counts them. -/
def upToDate (targets : List NodeId) (reply : NodeId → Option (Option VersionedValue))
    (winner : VersionedValue) : List NodeId :=
  targets.filter fun n =>
    match reply n with
    | some (some v) => sameVersion v winner
    | _ => false

/-- The replicas that answered with something older than the winner, or with nothing. -/
def staleTargets (targets : List NodeId) (reply : NodeId → Option (Option VersionedValue))
    (winner : VersionedValue) : List NodeId :=
  targets.filter fun n =>
    match reply n with
    | some (some v) => !sameVersion v winner
    | some none => true
    | none => false

/-! ## Nodes, messages and operations -/

/-- `Cluster::Hint`: a write kept for a replica that missed it. -/
structure Hint where
  value : VersionedValue
  deadline : Option Time
deriving DecidableEq, Repr

/-- A node: its clock, its entry for the key, and its hints by replica. -/
structure Node where
  clock : UInt64 := 0
  slot : Option CacheEntry := none
  hints : NodeId → List Hint := fun _ => []

/-- The position of an operation in the order of calls. -/
abbrev OpId := ℕ

/-- A message between nodes. `set` is a `REPL_SET` or `REPL_DEL`; it names the operation whose
callback waits for it, if any, and says whether the replica's clock has observed its version. -/
inductive Msg where
  | get (op : OpId) (dest : NodeId)
  | getReply (op : OpId) (dest : NodeId) (reply : Option VersionedValue)
  | set (op : Option OpId) (src dest : NodeId) (v : VersionedValue) (observed : Bool)
  | setReply (op : OpId) (dest : NodeId) (v : VersionedValue) (live : Bool)
deriving DecidableEq, Repr

/-- The replica a message is about. -/
def Msg.dest : Msg → NodeId
  | .get _ n => n
  | .getReply _ n _ => n
  | .set _ _ n _ _ => n
  | .setReply _ n _ _ => n

/-- Where the thread of an operation stands. -/
inductive Phase where
  /-- Called. -/
  | start
  /-- In `collect`. -/
  | collecting (f : Fanout (Option VersionedValue))
  /-- In `next_version`, with the versions its clock has yet to observe. -/
  | observing (rest : List UInt64)
  /-- In `read`, with the winner of its replies, about to observe its version. -/
  | settling (winner : VersionedValue) (f : Fanout (Option VersionedValue))
  /-- About to take a version from the clock for this write. -/
  | stamping (value : Bytes) (tombstone : Bool) (ttl : Option Millis)
  /-- In `replicate` on the only replica; `back` marks the write-back of a read. -/
  | applying (v : VersionedValue) (back : Bool)
  /-- In `replicate`. -/
  | replicating (v : VersionedValue) (back : Bool) (f : Fanout Bool)
  /-- In `read_repair`, with the replicas it has yet to repair. -/
  | repairing (winner : VersionedValue) (stale : List NodeId)
  /-- Returned, at this time and with this result. -/
  | done (time : ℕ) (r : Outcome)
deriving DecidableEq, Repr

/-- An operation: its coordinator, its request, the time of its call, where it stands, the write it
stamped, and the winner its read selected. -/
structure Op where
  coord : NodeId
  request : Request
  call : ℕ
  phase : Phase := .start
  stamped : Option VersionedValue := none
  winner : Option VersionedValue := none
deriving DecidableEq, Repr

/-- The time and content of the reply of an operation that has returned. -/
def Op.reply (o : Op) : Option (ℕ × Outcome) :=
  match o.phase with
  | .done time r => some (time, r)
  | _ => none

/-- The state of the system; `time` counts the steps taken. -/
structure State where
  nodes : NodeId → Node := fun _ => {}
  ops : List Op := []
  net : List Msg := []
  time : ℕ := 0

namespace State

/-- Replace operation `i`. -/
def setOp (s : State) (i : OpId) (o : Op) : State := { s with ops := s.ops.set i o }

/-- Replace node `n`. -/
def setNode (s : State) (n : NodeId) (x : Node) : State :=
  { s with nodes := Function.update s.nodes n x }

/-- Put a message in flight. -/
def send (s : State) (m : Msg) : State := { s with net := s.net ++ [m] }

/-- `clock_.observe(version)` on node `n`. -/
def observeAt (s : State) (n : NodeId) (version : UInt64) : State :=
  s.setNode n { s.nodes n with clock := HybridClock.observe (s.nodes n).clock version }

/-- `local_cache_.apply(key, v)` on node `n`. -/
def applyAt (s : State) (P : Placement) (n : NodeId) (now : Time) (v : VersionedValue) : State :=
  s.setNode n
    { s.nodes n with slot := applySlot P.config.tombstoneTtl now v (s.nodes n).slot }

/-- `Cluster::add_hint` on node `c`: a full queue drops its oldest hint. -/
def addHint (s : State) (P : Placement) (c n : NodeId) (v : VersionedValue) (now : Time) : State :=
  let queue := (s.nodes c).hints n
  let queue := if queue.length ≥ P.config.maxHintsPerNode then queue.tail else queue
  let hint : Hint := ⟨v, v.ttl.map fun ttl => now + ttl.ticks⟩
  s.setNode c
    { s.nodes c with hints := Function.update (s.nodes c).hints n (queue ++ [hint]) }

/-- The tag of the entry node `n` holds. -/
def tag (s : State) (n : NodeId) : WithBot Tag := slotTag (s.nodes n).slot

/-- The last version node `n` has handed out or observed. -/
def clock (s : State) (n : NodeId) : UInt64 := (s.nodes n).clock

end State

/-! ## What the thread of an operation does next -/

namespace Op

variable (o : Op) (P : Placement) (time : ℕ)

/-- Return `r`. -/
def answer (r : Outcome) : Op := { o with phase := .done time r }

/-- Return the default result: no quorum answered. -/
def fail : Op :=
  match o.request with
  | .read => o.answer time (.read {})
  | _ => o.answer time (.write {})

/-- `read` returns with `winner`; `expire_key` goes on to rewrite the value it found. -/
def finishRead (winner : Option VersionedValue) : Op :=
  let o := { o with winner := winner }
  match o.request with
  | .expireKey ttl =>
    match toResult winner with
    | ⟨.found, v⟩ => { o with phase := .stamping v.value false (some ttl) }
    | _ => o.answer time (.write ⟨true, false, 0⟩)
  | _ => o.answer time (.read (toResult winner))

/-- `replicate` returns `r` to `put`, `del` or `expire_key`. -/
def finishWrite (r : WriteResult) : Op :=
  match o.request with
  | .expireKey _ => o.answer time (.write { r with existed := true })
  | _ => o.answer time (.write r)

/-- `replicate` of `v` returns `r`, to `read` when it was a write-back. -/
def afterReplicate (v : VersionedValue) (back : Bool) (r : WriteResult) : Op :=
  if back then
    if r.ok then o.finishRead time (some v) else o.fail time
  else o.finishWrite time r

/-- The entry of `replicate`. -/
def replicate (v : VersionedValue) (back : Bool) : Op :=
  if P.canServeLocally o.coord true then { o with phase := .applying v back }
  else if P.targets = [] then o.afterReplicate time v back {}
  else { o with phase := .replicating v back { todo := P.targets } }

/-- The entry of `collect`. -/
def collect : Op :=
  if P.targets = [] then o.fail time
  else { o with phase := .collecting { todo := P.targets } }

/-- The entry of `next_version`, for a write of `value`. -/
def nextVersion (value : Bytes) (tombstone : Bool) (ttl : Option Millis) : Op :=
  if P.config.consistency = .linearizable ∧ P.canServeLocally o.coord true = false then
    o.collect P time
  else { o with phase := .stamping value tombstone ttl }

/-- The entry of the operation, with the coordinator's own entry for the local fast path. -/
def start (slot : Option CacheEntry) (now : Time) : Op :=
  match o.request with
  | .put value ttl => o.nextVersion P time value false ttl
  | .del => o.nextVersion P time [] true none
  | _ =>
    if P.canServeLocally o.coord false then o.finishRead time (readSlot now slot)
    else o.collect P time

/-- `collect` returns: `next_version` observes the versions it found, `read` picks the winner. -/
def afterCollect (f : Fanout (Option VersionedValue)) : Op :=
  if f.succeeded.length < P.readQuorum then o.fail time
  else if o.request.isWrite then
    let versions := P.targets.filterMap fun n => (f.reply n).join.map VersionedValue.version
    { o with phase := .observing versions }
  else
    match selectWinner P.targets f.reply with
    | none => o.finishRead time none
    | some w => { o with phase := .settling w f }

/-- `next_version` has observed everything: the write it stamps. -/
def afterObserve : Op :=
  match o.request with
  | .put value ttl => { o with phase := .stamping value false ttl }
  | _ => { o with phase := .stamping [] true none }

/-- `read` decides whether to write its winner back, to repair, or to return. -/
def settle (w : VersionedValue) (f : Fanout (Option VersionedValue)) : Op :=
  if P.config.consistency = .linearizable ∧
      (upToDate P.targets f.reply w).length < P.writeQuorum then
    o.replicate P time w true
  else if staleTargets P.targets f.reply w ≠ [] then
    { o with phase := .repairing w (staleTargets P.targets f.reply w) }
  else o.finishRead time (some w)

end Op

/-! ## Transitions -/

/-- A label: which thread or message moves, and what the environment decides. -/
inductive Label where
  /-- A client calls an operation on a coordinator. -/
  | invoke (coord : NodeId) (request : Request)
  /-- Operation `i` begins. -/
  | start (i : OpId) (now : Time)
  /-- The issuing loop of operation `i` handles its next target. -/
  | issue (i : OpId) (healthy : Bool) (now : Time)
  /-- A replica serves a message, or a coordinator runs the callback of a reply. -/
  | deliver (m : Msg) (now : Time)
  /-- The callback of operation `i` for the replica `n` runs with an error. -/
  | fail (i : OpId) (n : NodeId) (now : Time)
  /-- The callback of a write that nobody waits for any more runs with an error. -/
  | lateFail (m : Msg) (now : Time)
  /-- Operation `i` stops waiting for its fan-out: it has what it needs, or timed out. -/
  | await (i : OpId)
  /-- Operation `i` observes the next version it collected. -/
  | observe (i : OpId)
  /-- Operation `i` takes a version from its coordinator's clock. -/
  | stamp (i : OpId) (physicalMs : UInt64)
  /-- Operation `i` applies its write to the only replica, which is its coordinator. -/
  | apply (i : OpId) (now : Time)
  /-- Operation `i` repairs its next stale replica, or returns. -/
  | repair (i : OpId) (now : Time)
  /-- Node `c` replays its `k`-th hint for `n`; `delivered` says that it saw it acknowledged. -/
  | replayHint (c n : NodeId) (k : ℕ) (delivered : Bool) (now : Time)

variable (P : Placement)

/-- The issuing loop of `collect` and of `replicate`. -/
def issue (s : State) (i : OpId) (o : Op) (healthy : Bool) (now : Time) : Option State :=
  match o.phase with
  | .collecting ⟨n :: rest, pending, answers⟩ =>
    let f : Fanout (Option VersionedValue) := ⟨rest, pending, answers⟩
    if n = o.coord then
      some (s.setOp i { o with phase := .collecting (f.record n (some (readSlot now (s.nodes n).slot))) })
    else if healthy then
      some ((s.setOp i { o with phase := .collecting ⟨rest, n :: pending, answers⟩ }).send (.get i n))
    else some (s.setOp i { o with phase := .collecting (f.record n none) })
  | .replicating v back ⟨n :: rest, pending, answers⟩ =>
    let f : Fanout Bool := ⟨rest, pending, answers⟩
    if n = o.coord then
      some ((s.applyAt P n now v).setOp i
        { o with phase := .replicating v back (f.record n (some (wasLive now (s.nodes n).slot))) })
    else if healthy then
      some ((s.setOp i { o with phase := .replicating v back ⟨rest, n :: pending, answers⟩ }).send
        (.set (some i) o.coord n v false))
    else
      some ((s.addHint P o.coord n v now).setOp i
        { o with phase := .replicating v back (f.record n none) })
  | _ => none

/-- The callback of a `REPL_GET`, in the shared state of the collecting operation. -/
def getCallback (s : State) (i : OpId) (n : NodeId) (r : Option (Option VersionedValue)) : State :=
  match s.ops[i]? with
  | some o =>
    match o.phase with
    | .collecting f =>
      if n ∈ f.pending then
        s.setOp i { o with phase := .collecting ({ f with pending := f.pending.erase n }.record n r) }
      else s
    | _ => s
  | none => s

/-- The callback of a `REPL_SET` or `REPL_DEL` of `v`, in the shared state of the operation that
replicates `v`. -/
def setCallback (s : State) (i : OpId) (n : NodeId) (v : VersionedValue) (r : Option Bool) : State :=
  match s.ops[i]? with
  | some o =>
    match o.phase with
    | .replicating w back f =>
      if w = v ∧ n ∈ f.pending then
        s.setOp i
          { o with phase := .replicating w back ({ f with pending := f.pending.erase n }.record n r) }
      else s
    | _ => s
  | none => s

/-- What becomes of a message that is delivered. `apply_replica_write` first lets the replica's
clock observe the version, then applies the write. -/
def deliver (s : State) (m : Msg) (now : Time) : State :=
  match m with
  | .get i n => s.send (.getReply i n ((readSlot now (s.nodes n).slot).map VersionedValue.onReply))
  | .getReply i n r => getCallback s i n (some r)
  | .set op c n v false => (s.observeAt n v.version).send (.set op c n v true)
  | .set (some i) _ n v true =>
    (s.applyAt P n now v.onWire).send (.setReply i n v (wasLive now (s.nodes n).slot))
  | .set none _ n v true => s.applyAt P n now v.onWire
  | .setReply i n v live => setCallback s i n v (some live)

/-- A callback that runs with an error: the replica did not answer. -/
def failCall (s : State) (i : OpId) (o : Op) (n : NodeId) (now : Time) : Option State :=
  match o.phase with
  | .collecting f => if n ∈ f.pending then some (getCallback s i n none) else none
  | .replicating v _ f =>
    if n ∈ f.pending then some (setCallback (s.addHint P o.coord n v now) i n v none) else none
  | _ => none

/-- `read_repair`, for one replica: the coordinator's own copy directly, the others by message. -/
def repair (s : State) (i : OpId) (o : Op) (now : Time) : Option State :=
  match o.phase with
  | .repairing w [] => some (s.setOp i (o.finishRead s.time (some w)))
  | .repairing w (n :: rest) =>
    let o' := { o with phase := .repairing w rest }
    if n = o.coord then some ((s.applyAt P n now w).setOp i o')
    else some ((s.setOp i o').send (.set none o.coord n w false))
  | _ => none

/-- `replay_hints`, for one hint: an expired one is dropped, any other is sent with the time to
live it has left, and stays queued until it is acknowledged. -/
def replayHint (s : State) (c n : NodeId) (k : ℕ) (delivered : Bool) (now : Time) : Option State :=
  match ((s.nodes c).hints n)[k]? with
  | none => none
  | some hint =>
    let dropped := s.setNode c
      { s.nodes c with hints :=
          Function.update (s.nodes c).hints n (((s.nodes c).hints n).eraseIdx k) }
    match hint.deadline with
    | none => some ((if delivered then dropped else s).send (.set none c n hint.value false))
    | some deadline =>
      if deadline ≤ now then some dropped
      else some ((if delivered then dropped else s).send
        (.set none c n { hint.value with ttl := some (millisUntil deadline now) } false))

/-- Operation `i` still waits for its callback for the replica `n`. -/
def awaits (s : State) (i : OpId) (n : NodeId) : Bool :=
  match (s.ops[i]?).map Op.phase with
  | some (.replicating _ _ f) => decide (n ∈ f.pending)
  | _ => false

/-- One transition, without the count of steps. -/
def transition (s : State) : Label → Option State
  | .invoke c r => some { s with ops := s.ops ++ [{ coord := c, request := r, call := s.time }] }
  | .start i now =>
    (s.ops[i]?).bind fun o =>
      match o.phase with
      | .start => some (s.setOp i (o.start P s.time (s.nodes o.coord).slot now))
      | _ => none
  | .issue i healthy now => (s.ops[i]?).bind fun o => issue P s i o healthy now
  | .deliver m now => if m ∈ s.net then some (deliver P { s with net := s.net.erase m } m now) else none
  | .fail i n now => (s.ops[i]?).bind fun o => failCall P s i o n now
  | .lateFail m now =>
    if m ∈ s.net then
      match m with
      | .set (some i) c n v _ => if awaits s i n then none else some (s.addHint P c n v now)
      | .setReply i n v _ =>
        if awaits s i n then none else (s.ops[i]?).map fun o => s.addHint P o.coord n v now
      | _ => none
    else none
  | .await i =>
    (s.ops[i]?).bind fun o =>
      match o.phase with
      | .collecting ⟨[], pending, answers⟩ =>
        some (s.setOp i (o.afterCollect P s.time ⟨[], pending, answers⟩))
      | .replicating v back ⟨[], pending, answers⟩ =>
        let f : Fanout Bool := ⟨[], pending, answers⟩
        some (s.setOp i (o.afterReplicate s.time v back
          ⟨decide (P.writeQuorum ≤ f.succeeded.length), f.answers.any fun a => a.2.getD false,
            f.succeeded.length⟩))
      | _ => none
  | .observe i =>
    (s.ops[i]?).bind fun o =>
      match o.phase with
      | .observing (version :: rest) =>
        some ((s.observeAt o.coord version).setOp i { o with phase := .observing rest })
      | .observing [] => some (s.setOp i o.afterObserve)
      | .settling w f => some ((s.observeAt o.coord w.version).setOp i (o.settle P s.time w f))
      | _ => none
  | .stamp i physicalMs =>
    (s.ops[i]?).bind fun o =>
      match o.phase with
      | .stamping value tombstone ttl =>
        let version := HybridClock.now (s.clock o.coord) physicalMs
        let v : VersionedValue := ⟨value, version, tombstone, ttl⟩
        some ((s.setNode o.coord { s.nodes o.coord with clock := version }).setOp i
          ({ o with stamped := some v }.replicate P s.time v false))
      | _ => none
  | .apply i now =>
    (s.ops[i]?).bind fun o =>
      match o.phase with
      | .applying v back =>
        some ((s.applyAt P o.coord now v).setOp i
          (o.afterReplicate s.time v back ⟨true, wasLive now (s.nodes o.coord).slot, 1⟩))
      | _ => none
  | .repair i now => (s.ops[i]?).bind fun o => repair P s i o now
  | .replayHint c n k delivered now => replayHint s c n k delivered now

/-- One step of the system. -/
def step (s : State) (l : Label) : Option State :=
  (transition P s l).map fun s' => { s' with time := s.time + 1 }

/-! ## Conditions on steps -/

/-- The node whose entry a step reads or writes, and the reading of its clock. -/
def Label.touches (s : State) : Label → Option (NodeId × Time)
  | .start i now => (s.ops[i]?).map fun o => (o.coord, now)
  | .issue i _ now => (s.ops[i]?).map fun o => (o.coord, now)
  | .deliver m now => some (m.dest, now)
  | .apply i now => (s.ops[i]?).map fun o => (o.coord, now)
  | .repair i now => (s.ops[i]?).map fun o => (o.coord, now)
  | _ => none

/-- The entry a step reads or writes has not expired. -/
def NoExpiry (s : State) (l : Label) : Prop :=
  ∀ n now, l.touches s = some (n, now) → Unexpired now (s.nodes n).slot

/-- A step that stamps a version takes it from a clock that is not at its end. -/
def ClockBelowEnd (s : State) (l : Label) : Prop :=
  ∀ i physicalMs o, l = .stamp i physicalMs → s.ops[i]? = some o →
    s.clock o.coord ≠ HybridClock.last64

instance (s : State) (l : Label) : Decidable (NoExpiry s l) :=
  decidable_of_iff (∀ x ∈ l.touches s, Unexpired x.2 (s.nodes x.1).slot)
    ⟨fun h n now ht => h (n, now) ht, fun h x hx => h x.1 x.2 hx⟩

instance (s : State) (l : Label) : Decidable (ClockBelowEnd s l) :=
  match l with
  | .stamp i physicalMs =>
    decidable_of_iff (∀ o ∈ s.ops[i]?, s.clock o.coord ≠ HybridClock.last64)
      ⟨fun h _ _ o hl ho => by cases hl; exact h o ho, fun h o ho => h i physicalMs o rfl ho⟩
  | .invoke _ _ | .start _ _ | .issue _ _ _ | .deliver _ _ | .fail _ _ _ | .lateFail _ _ | .await _
  | .observe _ | .apply _ _ | .repair _ _ | .replayHint _ _ _ _ _ =>
    .isTrue fun _ _ _ hl => nomatch hl

end ShardCache.Replication
