import ShardCache.Foundations.Custody
import ShardCache.Network.PeerChannel
import ShardCache.Replication.Fanout

/-!
# Hinted handoff

A write that a replica did not acknowledge is kept as a hint for it, in one queue for each replica.
`replay_hints` takes a batch from the front of a queue, sends it without holding the lock, and puts
what it could not send back to the front; meanwhile other threads append to the queue, and drop its
oldest hint when it is full.

The threads are the calls of `replicate` with the callbacks of their requests, other callers of
`add_hint`, and one that runs `replay_hints`. A label lets one of them go on to its next access to
shared data. What is decided elsewhere is in the label: which peers are healthy and which are nodes
of the ring, how calls end, and what the clock reads. `record` takes a lock that protects nothing
else, so it is part of the step that knows the result.

## Main definitions

* `Hint`, `Call`, `Replay`, `State`: the state of one node
* `State.addHint`: undefined where the code pops from an empty queue
* `Label`, `step`: the transitions

## Main results

* `Moves.of_step`: what a step can do to the hints
* `Books.of_step`: every hint stays accounted for
* `CallBooks.of_step`: what every step keeps of a call of `replicate`
* `hint_without_room_undefined`: with room for no hint, `add_hint` is undefined
* `missed_writes_accounted`: every missed write has its hint, and every hint is in one place
-/

namespace ShardCache.Handoff

open Foundations
open Replication (Fanout)

/-! ## Hints -/

/-- `Cluster::Hint`. -/
structure Hint where
  key : Key
  value : VersionedValue
  deadline : Option Time
deriving DecidableEq, Repr

namespace Hint

/-- `hint.deadline` has passed. -/
def expired (h : Hint) (now : Time) : Bool := h.deadline.any fun deadline => decide (deadline ≤ now)

/-- The hint with the time to live it has left, as it is sent. -/
def refresh (h : Hint) (now : Time) : Hint :=
  match h.deadline with
  | none => h
  | some deadline => { h with value := { h.value with ttl := some (millisUntil deadline now) } }

/-- The write of a hint. Its time to live is set anew whenever it is sent. -/
def write (h : Hint) : Hint := { h with value := { h.value with ttl := none } }

@[simp] theorem write_refresh (h : Hint) (now : Time) : (h.refresh now).write = h.write := by
  unfold refresh write
  split <;> rfl

end Hint

/-- How a hint leaves the queues for good. -/
inductive Fate where
  | delivered | expired | dropped | cleared
deriving DecidableEq, Repr

/-- A hint that was appended to the queue of a node, and the call of `replicate` that did it. -/
structure Added where
  node : NodeId
  hint : Hint
  call : Option ℕ
deriving DecidableEq, Repr

/-- A hint that has left the queue of a node. -/
structure Settled where
  node : NodeId
  fate : Fate
  hint : Hint
deriving DecidableEq, Repr

/-! ## The state of a node -/

/-- A call of `replicate`. The targets of `fanout` that reported success are those that `acks`
counts. -/
structure Call where
  key : Key
  value : VersionedValue
  place : Placement
  fanout : Fanout Bool

/-- Where `replay_hints` stands, with the nodes it has yet to visit. -/
inductive Replay where
  /-- Not called. -/
  | idle
  /-- About to visit the first of the nodes. -/
  | visiting (ids : List NodeId)
  /-- About to take a batch for `id`, which is a node of the ring or not. -/
  | resolved (id : NodeId) (isNode : Bool) (ids : List NodeId)
  /-- In the loop that sends the batch, which began at `now`. -/
  | sending (id : NodeId) (batch : List Hint) (now : Time) (delivered : ℕ) (ids : List NodeId)
  /-- Behind that loop, with what is left of the batch. -/
  | returning (id : NodeId) (batch : List Hint) (delivered : ℕ) (ids : List NodeId)
deriving DecidableEq, Repr

namespace Replay

/-- The batch, while it is out of the queue of `n`. -/
def inFlight (r : Replay) (n : NodeId) : List Hint :=
  match r with
  | .sending id batch _ _ _ | .returning id batch _ _ => if id = n then batch else []
  | _ => []

/-- The hints of the batch that were delivered and are not counted yet. -/
def uncounted : Replay → ℕ
  | .sending _ _ _ delivered _ | .returning _ _ delivered _ => delivered
  | _ => 0

end Replay

/-- The hints of a node and the threads that use them. `added` and `settled` record what was
appended to the queues and what has left them. -/
structure State where
  hints : Std.ExtTreeMap NodeId (List Hint) := ∅
  hintsDropped : ℕ := 0
  hintsDelivered : ℕ := 0
  calls : List Call := []
  replay : Replay := .idle
  added : List Added := []
  settled : List Settled := []

namespace State

/-- `hints_[n]`. -/
def queue (s : State) (n : NodeId) : List Hint := s.hints.getD n []

/-- The hints for `n` that are still to be delivered, oldest first. -/
def kept (s : State) (n : NodeId) : List Hint := s.replay.inFlight n ++ s.queue n

/-- The hints that were appended to the queue of `n`, in their order. -/
def addedTo (s : State) (n : NodeId) : List Hint :=
  (s.added.filter fun a => a.node = n).map Added.hint

/-- The hints for `n` that have left. -/
def settledOf (s : State) (n : NodeId) : List Hint :=
  (s.settled.filter fun x => x.node = n).map Settled.hint

/-- The hints that have left in one way. -/
def settledAs (s : State) (fate : Fate) : List Settled := s.settled.filter fun x => x.fate = fate

/-- The hints that call `i` of `replicate` has appended. -/
def hintsOf (s : State) (i : ℕ) : List Added := s.added.filter fun a => a.call = some i

/-- Those of them for the node `n`. -/
def hintsFor (s : State) (i : ℕ) (n : NodeId) : List Hint :=
  ((s.hintsOf i).filter fun a => a.node = n).map Added.hint

/-- The nodes whose queues are not empty. -/
def waiting (s : State) : List NodeId :=
  (s.hints.toList.filter fun p => !p.2.isEmpty).map Prod.fst

/-- `Cluster::add_hint`, for call `call` of `replicate` or another caller. The reading of the clock
precedes the lock. Popping from an empty queue is undefined. -/
def addHint (config : ClusterConfig) (s : State) (now : Time) (n : NodeId) (key : Key)
    (v : VersionedValue) (call : Option ℕ) : Option State :=
  let hint : Hint := ⟨key, v, v.ttl.map fun ttl => now + ttl.ticks⟩
  if (s.queue n).length ≥ config.maxHintsPerNode then
    match s.queue n with
    | [] => none
    | oldest :: queue =>
      some { s with
        hints := s.hints.insert n (queue ++ [hint])
        hintsDropped := s.hintsDropped + 1
        added := s.added ++ [⟨n, hint, call⟩]
        settled := s.settled ++ [⟨n, .dropped, oldest⟩] }
  else
    some { s with
      hints := s.hints.insert n (s.queue n ++ [hint])
      added := s.added ++ [⟨n, hint, call⟩] }

/-- Replace call `i`. -/
def setCall (s : State) (i : ℕ) (c : Call) : State := { s with calls := s.calls.set i c }

end State

/-! ## Calls of `replicate` -/

/-- `reply.str`. -/
def replyText : RespValue → Bytes
  | .simpleString str | .error str | .bulkString str => str
  | .integer _ | .null | .array _ => []

/-- `decode_replica_write`: whether the key was live before. -/
def decodeReplicaWrite (reply : RespValue) : Except (RequestStatus × Bytes) Bool :=
  match reply with
  | .integer n => .ok (n != 0)
  | _ => .error (.protocolError, replyText reply)

/-- What the callback reports: whether the key was live, or that the write is not acknowledged. -/
def acknowledged : CallResult → Option Bool
  | .success reply => (decodeReplicaWrite reply).toOption
  | .error _ _ => none

/-- The entry of `replicate` on the node `self`: the only replica of a key applies the write at
once. -/
def Call.enter (self : NodeId) (key : Key) (v : VersionedValue) (P : Placement) (live : Bool) :
    Call where
  key := key
  value := v
  place := P
  fanout :=
    if P.canServeLocally self true then { todo := [], answers := [(self, some live)] }
    else { todo := P.targets }

/-- A target of call `i` reports `result`: `if (!ok) add_hint(node, key, v); record(ok, live)`. -/
def report (config : ClusterConfig) (s : State) (i : ℕ) (c : Call) (f : Fanout Bool) (n : NodeId)
    (result : Option Bool) (now : Time) : Option State :=
  let c' : Call := { c with fanout := f.record n result }
  match result with
  | some _ => some (s.setCall i c')
  | none => (s.addHint config now n c.key c.value (some i)).map fun s' => s'.setCall i c'

/-- The issuing loop of `replicate`. -/
def issue (config : ClusterConfig) (self : NodeId) (s : State) (i : ℕ) (c : Call)
    (healthy live : Bool) (now : Time) : Option State :=
  match c.fanout with
  | ⟨[], _, _⟩ => none
  | ⟨n :: rest, pending, answers⟩ =>
    if n = self then report config s i c ⟨rest, pending, answers⟩ n (some live) now
    else if healthy then some (s.setCall i { c with fanout := ⟨rest, n :: pending, answers⟩ })
    else report config s i c ⟨rest, pending, answers⟩ n none now

/-- The callback of the request to `n`. -/
def callback (config : ClusterConfig) (s : State) (i : ℕ) (c : Call) (n : NodeId)
    (result : CallResult) (now : Time) : Option State :=
  if n ∈ c.fanout.pending then
    report config s i c { c.fanout with pending := c.fanout.pending.erase n } n
      (acknowledged result) now
  else none

/-! ## `replay_hints` -/

/-- `kBatch`. -/
def kBatch : ℕ := 1024

/-- Collect the nodes with hints, in the order of the map. -/
def collectIds (s : State) (ids : List NodeId) : Option State :=
  match s.replay with
  | .idle => if ids.Perm s.waiting then some { s with replay := .visiting ids } else none
  | _ => none

/-- Look the next node up: `is_node_healthy(id)`, then `nodes_.find(id)`. -/
def visit (s : State) (healthy isNode : Bool) : Option State :=
  match s.replay with
  | .visiting (id :: ids) =>
    some { s with replay := if healthy then .resolved id isNode ids else .visiting ids }
  | _ => none

/-- Clear the queue of a node that left the cluster, or take a batch from its front and read the
clock. -/
def takeBatch (s : State) (now : Time) : Option State :=
  match s.replay with
  | .resolved id false ids =>
    some { s with
      hints := s.hints.insert id []
      replay := .visiting ids
      settled := s.settled ++ (s.queue id).map fun h => ⟨id, .cleared, h⟩ }
  | .resolved id true ids =>
    some { s with
      hints := s.hints.insert id ((s.queue id).drop kBatch)
      replay := .sending id ((s.queue id).take kBatch) now 0 ids }
  | _ => none

/-- The loop over the batch: an expired hint is dropped, any other is sent; `ok` is the result of
`send_write`, if it is called. -/
def sendNext (s : State) (ok : Bool) : Option State :=
  match s.replay with
  | .sending id [] _ delivered ids => some { s with replay := .returning id [] delivered ids }
  | .sending id (hint :: batch) now delivered ids =>
    if hint.expired now then
      some { s with
        replay := .sending id batch now delivered ids
        settled := s.settled ++ [⟨id, .expired, hint⟩] }
    else if ok then
      some { s with
        replay := .sending id batch now (delivered + 1) ids
        settled := s.settled ++ [⟨id, .delivered, hint.refresh now⟩] }
    else some { s with replay := .returning id (hint.refresh now :: batch) delivered ids }
  | _ => none

/-- Put the rest of the batch back to the front of the queue. -/
def putBack (s : State) : Option State :=
  match s.replay with
  | .returning id (hint :: batch) delivered ids =>
    some { s with
      hints := s.hints.insert id (hint :: batch ++ s.queue id)
      replay := .returning id [] delivered ids }
  | _ => none

/-- `hints_delivered_.fetch_add(delivered)`. -/
def countDelivered (s : State) : Option State :=
  match s.replay with
  | .returning _ [] delivered ids =>
    some { s with hintsDelivered := s.hintsDelivered + delivered, replay := .visiting ids }
  | _ => none

/-- Return, when all nodes were visited. -/
def finish (s : State) : Option State :=
  match s.replay with
  | .visiting [] => some { s with replay := .idle }
  | _ => none

/-- The steps of `replay_hints`. -/
inductive ReplayStep where
  | collectIds (ids : List NodeId)
  | visit (healthy isNode : Bool)
  | takeBatch (now : Time)
  | sendNext (ok : Bool)
  | putBack
  | countDelivered
  | finish

/-- `replay_hints` up to its next access to shared data. -/
def replayHints (s : State) : ReplayStep → Option State
  | .collectIds ids => collectIds s ids
  | .visit healthy isNode => visit s healthy isNode
  | .takeBatch now => takeBatch s now
  | .sendNext ok => sendNext s ok
  | .putBack => putBack s
  | .countDelivered => countDelivered s
  | .finish => finish s

/-! ## Transitions -/

/-- A label: which thread goes on, and what it learns from elsewhere. -/
inductive Label where
  /-- `replicate` is called; `live` is what its own cache answers if it is the only replica. -/
  | replicate (key : Key) (v : VersionedValue) (P : Placement) (live : Bool)
  /-- The issuing loop of call `i` handles its next target. -/
  | issue (i : ℕ) (healthy live : Bool) (now : Time)
  /-- The callback of call `i` for the target `n` runs. -/
  | callback (i : ℕ) (n : NodeId) (result : CallResult) (now : Time)
  /-- `add_hint` is called from elsewhere. -/
  | addHint (n : NodeId) (key : Key) (v : VersionedValue) (now : Time)
  /-- The thread of `replay_hints` goes on. -/
  | replayHints (r : ReplayStep)

/-- One step of the node `self`. -/
def step (config : ClusterConfig) (self : NodeId) (s : State) : Label → Option State
  | .replicate key v P live => some { s with calls := s.calls ++ [Call.enter self key v P live] }
  | .issue i healthy live now =>
    (s.calls[i]?).bind fun c => issue config self s i c healthy live now
  | .callback i n result now => (s.calls[i]?).bind fun c => callback config s i c n result now
  | .addHint n key v now => s.addHint config now n key v none
  | .replayHints r => replayHints s r

/-! ## What a step does to the hints -/

theorem getD_insert (hints : Std.ExtTreeMap NodeId (List Hint)) (n m : NodeId) (q : List Hint) :
    (hints.insert n q).getD m [] = if n = m then q else hints.getD m [] := by
  rw [Std.ExtTreeMap.getD_insert]
  simp only [Std.LawfulEqCmp.compare_eq_iff_eq]

/-- Between `s` and `s'` the hints `out` for `n` have left in one way, and then the hints `new` were
appended to its queue. -/
structure Moved (s s' : State) (n : NodeId) (fate : Fate) (out : List Hint) (new : List Added) :
    Prop where
  added : s'.added = s.added ++ new
  settled : s'.settled = s.settled ++ out.map fun h => ⟨n, fate, h⟩
  node : ∀ a ∈ new, a.node = n
  kept : ∃ front back, (s.kept n).map Hint.write = front ++ (out.map Hint.write ++ back) ∧
    (s'.kept n).map Hint.write = front ++ back ++ new.map fun a => a.hint.write
  other : ∀ m, m ≠ n → (s'.kept m).map Hint.write = (s.kept m).map Hint.write
  dropped : s'.hintsDropped = s.hintsDropped + if fate = .dropped then out.length else 0
  delivered : s'.hintsDelivered + s'.replay.uncounted =
    s.hintsDelivered + s.replay.uncounted + if fate = .delivered then out.length else 0

variable {config : ClusterConfig} {self : NodeId} {s s' : State}

/-- Hints for one node have left, or were appended to its queue. -/
def Moves (s s' : State) : Prop := ∃ n fate out new, Moved s s' n fate out new

/-- A step that moves no hint. -/
theorem Moves.of_eq (hadded : s'.added = s.added) (hsettled : s'.settled = s.settled)
    (hkept : ∀ m, (s'.kept m).map Hint.write = (s.kept m).map Hint.write)
    (hdropped : s'.hintsDropped = s.hintsDropped)
    (hdelivered : s'.hintsDelivered + s'.replay.uncounted =
      s.hintsDelivered + s.replay.uncounted) : Moves s s' := by
  refine ⟨[], .cleared, [], [], ⟨by simp [hadded], by simp [hsettled], by simp, ?_,
    fun m _ => hkept m, by simp [hdropped], by simp [hdelivered]⟩⟩
  exact ⟨(s.kept []).map Hint.write, [], by simp, by simp [hkept []]⟩

/-- `replay_hints` goes on with nothing in flight. -/
theorem Moves.of_not_inFlight {r : Replay} {delivered : ℕ}
    (hbefore : ∀ m, s.replay.inFlight m = []) (hafter : ∀ m, r.inFlight m = [])
    (hcount : delivered + r.uncounted = s.hintsDelivered + s.replay.uncounted) :
    Moves s { s with replay := r, hintsDelivered := delivered } := by
  refine Moves.of_eq rfl rfl (fun m => ?_) rfl hcount
  simp [State.kept, State.queue, hbefore m, hafter m]

/-- A full queue drops its oldest hint, any other drops nothing. -/
theorem Moved.of_addHint {now : Time} {n : NodeId} {key : Key} {v : VersionedValue}
    {call : Option ℕ} (hs : s.addHint config now n key v call = some s') :
    ∃ out, Moved s s' n .dropped out [⟨n, ⟨key, v, v.ttl.map fun ttl => now + ttl.ticks⟩, call⟩] := by
  unfold State.addHint at hs
  dsimp only at hs
  split at hs
  · -- full
    split at hs
    · cases hs
    next oldest queue hqueue =>
      -- the oldest hint leaves from behind the batch in flight
      cases hs
      refine ⟨[oldest], ⟨rfl, rfl, by simp, ?_, ?_, by simp, by simp⟩⟩
      · refine ⟨(s.replay.inFlight n).map Hint.write, queue.map Hint.write, ?_, ?_⟩
        · simp [State.kept, hqueue]
        · simp [State.kept, State.queue]
      · intro m hm
        simp [State.kept, State.queue, getD_insert, hm.symm]
  · cases hs
    refine ⟨[], ⟨rfl, by simp, by simp, ?_, ?_, by simp, by simp⟩⟩
    · refine ⟨(s.kept n).map Hint.write, [], by simp, ?_⟩
      simp [State.kept, State.queue]
    · intro m hm
      simp [State.kept, State.queue, getD_insert, hm.symm]

theorem Moved.setCall {n : NodeId} {fate : Fate} {out : List Hint} {new : List Added}
    (h : Moved s s' n fate out new) (i : ℕ) (c : Call) :
    Moved s (s'.setCall i c) n fate out new :=
  ⟨h.added, h.settled, h.node, h.kept, h.other, h.dropped, h.delivered⟩

theorem Moves.of_report {i : ℕ} {c : Call} {f : Fanout Bool} {n : NodeId} {result : Option Bool}
    {now : Time} (hs : report config s i c f n result now = some s') :
    Moves s s' := by
  unfold report at hs
  cases result with
  | some live =>
    cases hs
    exact Moves.of_eq rfl rfl (fun _ => rfl) rfl rfl
  | none =>
    obtain ⟨t, ht, rfl⟩ := Option.map_eq_some_iff.mp hs
    obtain ⟨out, hmoved⟩ := Moved.of_addHint ht
    exact ⟨_, _, _, _, hmoved.setCall i _⟩

theorem Moves.of_takeBatch {now : Time} (hs : takeBatch s now = some s') :
    Moves s s' := by
  unfold takeBatch at hs
  split at hs
  next id ids hreplay =>
    cases hs
    refine ⟨id, .cleared, s.queue id, [], ⟨by simp, rfl, by simp, ?_, ?_, by simp, ?_⟩⟩
    · exact ⟨[], [], by simp [State.kept, hreplay, Replay.inFlight],
        by simp [State.kept, State.queue, Replay.inFlight]⟩
    · intro m hm
      simp [State.kept, State.queue, getD_insert, hm.symm, hreplay, Replay.inFlight]
    · simp [hreplay, Replay.uncounted]
  next id ids hreplay =>
    cases hs
    refine Moves.of_eq rfl rfl ?_ rfl (by simp [hreplay, Replay.uncounted])
    -- the batch and what it leaves in the queue are together the queue
    intro m
    by_cases hm : id = m
    · subst hm
      simp [State.kept, State.queue, hreplay, Replay.inFlight, -List.map_append]
    · simp [State.kept, State.queue, getD_insert, hm, hreplay, Replay.inFlight]
  · cases hs

theorem Moves.of_sendNext {ok : Bool} (hs : sendNext s ok = some s') :
    Moves s s' := by
  unfold sendNext at hs
  split at hs
  next id now delivered ids hreplay =>
    cases hs
    exact Moves.of_not_inFlight (by simp [hreplay, Replay.inFlight]) (by simp [Replay.inFlight])
      (by simp [hreplay, Replay.uncounted])
  next id hint batch now delivered ids hreplay =>
    have hkept : s.kept id = hint :: (batch ++ s.queue id) := by
      simp [State.kept, hreplay, Replay.inFlight]
    split at hs
    · -- expired while queued
      cases hs
      refine ⟨id, .expired, [hint], [], ⟨by simp, rfl, by simp, ?_, ?_, by simp, ?_⟩⟩
      · exact ⟨[], (batch ++ s.queue id).map Hint.write, by simp [hkept],
          by simp [State.kept, State.queue, Replay.inFlight]⟩
      · intro m hm
        simp [State.kept, State.queue, hm.symm, hreplay, Replay.inFlight]
      · simp [hreplay, Replay.uncounted]
    · split at hs
      · -- delivered, with the time to live it has left
        cases hs
        refine ⟨id, .delivered, [hint.refresh now], [], ⟨by simp, rfl, by simp, ?_, ?_, by simp, ?_⟩⟩
        · exact ⟨[], (batch ++ s.queue id).map Hint.write, by simp [hkept],
            by simp [State.kept, State.queue, Replay.inFlight]⟩
        · intro m hm
          simp [State.kept, State.queue, hm.symm, hreplay, Replay.inFlight]
        · simp [hreplay, Replay.uncounted, Nat.add_assoc]
      · -- the peer failed: the hint stays, with the time to live it was sent with
        cases hs
        refine Moves.of_eq rfl rfl ?_ rfl (by simp [hreplay, Replay.uncounted])
        intro m
        by_cases hm : id = m
        · subst hm
          simp [State.kept, State.queue, hreplay, Replay.inFlight]
        · simp [State.kept, State.queue, hm, hreplay, Replay.inFlight]
  · cases hs

theorem Moves.of_putBack (hs : putBack s = some s') :
    Moves s s' := by
  unfold putBack at hs
  split at hs
  next id hint batch delivered ids hreplay =>
    cases hs
    refine Moves.of_eq rfl rfl ?_ rfl (by simp [hreplay, Replay.uncounted])
    intro m
    by_cases hm : id = m
    · subst hm
      simp [State.kept, State.queue, hreplay, Replay.inFlight]
    · simp [State.kept, State.queue, getD_insert, hm, hreplay, Replay.inFlight]
  · cases hs

theorem Moves.of_replayHints {r : ReplayStep} (hs : replayHints s r = some s') : Moves s s' := by
  cases r with
  | collectIds ids =>
    simp only [replayHints, collectIds] at hs
    split at hs
    next hreplay =>
      split_ifs at hs
      cases hs
      exact Moves.of_not_inFlight (by simp [hreplay, Replay.inFlight]) (by simp [Replay.inFlight])
        (by simp [hreplay, Replay.uncounted])
    · cases hs
  | visit healthy isNode =>
    simp only [replayHints, visit] at hs
    split at hs
    next id ids hreplay =>
      cases hs
      refine Moves.of_not_inFlight (by simp [hreplay, Replay.inFlight]) (fun m => ?_) ?_
      · cases healthy <;> rfl
      · cases healthy <;> simp [hreplay, Replay.uncounted]
    · cases hs
  | takeBatch now => exact Moves.of_takeBatch hs
  | sendNext ok => exact Moves.of_sendNext hs
  | putBack => exact Moves.of_putBack hs
  | countDelivered =>
    simp only [replayHints, countDelivered] at hs
    split at hs
    next id delivered ids hreplay =>
      cases hs
      exact Moves.of_not_inFlight (by simp [hreplay, Replay.inFlight]) (by simp [Replay.inFlight])
        (by simp [hreplay, Replay.uncounted])
    · cases hs
  | finish =>
    simp only [replayHints, finish] at hs
    split at hs
    next hreplay =>
      cases hs
      exact Moves.of_not_inFlight (by simp [hreplay, Replay.inFlight]) (by simp [Replay.inFlight])
        (by simp [hreplay, Replay.uncounted])
    · cases hs

theorem Moves.of_step {l : Label} (hs : step config self s l = some s') : Moves s s' := by
  cases l with
  | replicate key v P live =>
    cases hs
    exact Moves.of_eq rfl rfl (fun _ => rfl) rfl rfl
  | issue i healthy live now =>
    obtain ⟨c, -, hs⟩ := Option.bind_eq_some_iff.mp hs
    unfold issue at hs
    split at hs
    · cases hs
    · -- the node itself, a healthy peer, and one that is marked unhealthy
      split_ifs at hs
      · exact Moves.of_report hs
      · cases hs
        exact Moves.of_eq rfl rfl (fun _ => rfl) rfl rfl
      · exact Moves.of_report hs
  | callback i n result now =>
    obtain ⟨c, -, hs⟩ := Option.bind_eq_some_iff.mp hs
    unfold callback at hs
    split_ifs at hs
    exact Moves.of_report hs
  | addHint n key v now =>
    obtain ⟨out, hmoved⟩ := Moved.of_addHint hs
    exact ⟨_, _, _, _, hmoved⟩
  | replayHints r => exact Moves.of_replayHints hs

/-! ## The books of the hints -/

/-- The hints for each node are accounted for, and the two counters count what they are for. -/
structure Books (s : State) : Prop where
  custody : ∀ n, Custody ((s.addedTo n).map Hint.write) ((s.settledOf n).map Hint.write)
    ((s.kept n).map Hint.write)
  dropped : s.hintsDropped = (s.settledAs .dropped).length
  delivered : s.hintsDelivered + s.replay.uncounted = (s.settledAs .delivered).length

theorem Books.init : Books {} where
  custody n := by
    have hqueue : State.queue {} n = [] := by simp [State.queue]
    simpa [State.addedTo, State.settledOf, State.kept, Replay.inFlight, hqueue] using Custody.nil
  dropped := rfl
  delivered := rfl

theorem Books.moved {n : NodeId} {fate : Fate} {out : List Hint} {new : List Added} (h : Books s)
    (hm : Moved s s' n fate out new) : Books s' where
  custody m := by
    have hcustody := h.custody m
    by_cases hn : m = n
    · -- the node whose hints move: some leave, then the new ones are appended
      subst hn
      obtain ⟨front, back, hbefore, hafter⟩ := hm.kept
      rw [hbefore] at hcustody
      have hnew : new.filter (fun a => a.node = m) = new :=
        List.filter_eq_self.mpr fun a ha => by simpa using hm.node a ha
      have hadded : (s'.addedTo m).map Hint.write =
          (s.addedTo m).map Hint.write ++ new.map fun a => a.hint.write := by
        simp [State.addedTo, hm.added, hnew, Function.comp_def]
      have hsettled : (s'.settledOf m).map Hint.write =
          (s.settledOf m).map Hint.write ++ out.map Hint.write := by
        simp [State.settledOf, hm.settled, List.filter_map, Function.comp_def]
      rw [hadded, hsettled, hafter]
      exact hcustody.leave.add _
    · have hadded : s'.addedTo m = s.addedTo m := by
        have hnew : new.filter (fun a => a.node = m) = [] :=
          List.filter_eq_nil_iff.mpr fun a ha => by
            simpa [hm.node a ha] using fun h : n = m => hn h.symm
        simp [State.addedTo, hm.added, hnew]
      have hsettled : s'.settledOf m = s.settledOf m := by
        have hne : n ≠ m := fun h => hn h.symm
        simp [State.settledOf, hm.settled, List.filter_map, Function.comp_def, hne]
      rw [hadded, hsettled, hm.other m hn]
      exact hcustody
  dropped := by
    rw [hm.dropped, h.dropped, State.settledAs, State.settledAs, hm.settled]
    by_cases hf : fate = .dropped <;> simp [List.filter_map, Function.comp_def, hf]
  delivered := by
    rw [hm.delivered, h.delivered, State.settledAs, State.settledAs, hm.settled]
    by_cases hf : fate = .delivered <;> simp [List.filter_map, Function.comp_def, hf]

/-- **What every step keeps of the hints.** -/
theorem Books.of_step {l : Label} (h : Books s) (hs : step config self s l = some s') :
    Books s' := by
  obtain ⟨n, fate, out, new, hm⟩ := Moves.of_step hs
  exact h.moved hm

/-! ## The books of the calls -/

/-- The targets that did not acknowledge the write. -/
def missed (f : Fanout Bool) : List NodeId := (f.answers.filter fun a => a.2.isNone).map Prod.fst

/-- Every target of the call is still to be handled, called or recorded, and is so once. The hints
that the call has appended are for the targets that did not acknowledge its write, and hold it. -/
structure CallBooks (hints : List Added) (c : Call) : Prop where
  covers : c.fanout.Covers c.place
  hinted : hints.map Added.node = missed c.fanout
  write : ∀ a ∈ hints, a.hint.key = c.key ∧ a.hint.value = c.value

/-- The books of all calls; a call that has not begun has appended nothing. -/
structure AllCallBooks (s : State) : Prop where
  call : ∀ i c, s.calls[i]? = some c → CallBooks (s.hintsOf i) c
  fresh : ∀ i, s.calls.length ≤ i → s.hintsOf i = []

theorem CallBooks.enter (key : Key) (v : VersionedValue) (P : Placement) (live : Bool) :
    CallBooks [] (Call.enter self key v P live) := by
  by_cases hlocal : P.canServeLocally self true = true
  · have htargets := P.targets_of_canServeLocally_write hlocal
    exact ⟨by simp [Call.enter, hlocal, Fanout.Covers, htargets],
      by simp [Call.enter, hlocal, missed], by simp⟩
  · exact ⟨by simp [Call.enter, hlocal, Fanout.Covers], by simp [Call.enter, hlocal, missed],
      by simp⟩

@[simp] theorem setCall_hintsOf (i : ℕ) (c : Call) : (s.setCall i c).hintsOf = s.hintsOf := rfl

theorem addHint_calls {now : Time} {n : NodeId} {key : Key} {v : VersionedValue} {call : Option ℕ}
    (hs : s.addHint config now n key v call = some s') : s'.calls = s.calls := by
  unfold State.addHint at hs
  dsimp only at hs
  split at hs
  · split at hs
    · cases hs
    · cases hs
      rfl
  · cases hs
    rfl

theorem addHint_hintsOf {now : Time} {n : NodeId} {key : Key} {v : VersionedValue}
    {call : Option ℕ} (hs : s.addHint config now n key v call = some s') (i : ℕ) :
    s'.hintsOf i = s.hintsOf i ++
      if call = some i then [⟨n, ⟨key, v, v.ttl.map fun ttl => now + ttl.ticks⟩, call⟩] else [] := by
  obtain ⟨out, hmoved⟩ := Moved.of_addHint hs
  rw [State.hintsOf, hmoved.added, List.filter_append]
  by_cases hcall : call = some i <;> simp [State.hintsOf, hcall]

theorem replayHints_calls {r : ReplayStep} (hs : replayHints s r = some s') :
    s'.calls = s.calls ∧ s'.added = s.added := by
  cases r <;> simp only [replayHints, collectIds, visit, takeBatch, sendNext, putBack,
    countDelivered, finish] at hs <;> split at hs <;> (try split_ifs at hs) <;> cases hs <;>
    exact ⟨rfl, rfl⟩

/-- A target reports: the call has its answer, and its hint if it did not acknowledge the write. -/
theorem CallBooks.of_report {i : ℕ} {c : Call} {f : Fanout Bool} {n : NodeId}
    {result : Option Bool} {now : Time} (hs : report config s i c f n result now = some s')
    (hcovers : (f.record n result).Covers c.place)
    (h : CallBooks (s.hintsOf i) c) (hf : f.answers = c.fanout.answers) :
    s'.calls = s.calls.set i { c with fanout := f.record n result } ∧
      (∀ j, j ≠ i → s'.hintsOf j = s.hintsOf j) ∧
      CallBooks (s'.hintsOf i) { c with fanout := f.record n result } := by
  have hmissed : (s.hintsOf i).map Added.node = missed f := by
    rw [h.hinted, missed, missed, hf]
  unfold report at hs
  cases result with
  | some live =>
    cases hs
    refine ⟨rfl, fun _ _ => rfl, ⟨hcovers, ?_, h.write⟩⟩
    rw [setCall_hintsOf, hmissed]
    simp [missed, Fanout.record]
  | none =>
    -- the hint is appended first, then the miss is recorded
    obtain ⟨t, ht, rfl⟩ := Option.map_eq_some_iff.mp hs
    refine ⟨by rw [State.setCall, addHint_calls ht], fun j hj => ?_, ⟨hcovers, ?_, ?_⟩⟩
    · rw [setCall_hintsOf, addHint_hintsOf ht, if_neg (by simpa using hj.symm), List.append_nil]
    · rw [setCall_hintsOf, addHint_hintsOf ht, if_pos rfl, List.map_append, hmissed]
      simp [missed, Fanout.record]
    · intro a ha
      rw [setCall_hintsOf, addHint_hintsOf ht, if_pos rfl, List.mem_append, List.mem_singleton] at ha
      rcases ha with ha | rfl
      · exact h.write a ha
      · exact ⟨rfl, rfl⟩

/-- Call `i` goes on, and nothing else changes in the books. -/
theorem AllCallBooks.set {i : ℕ} {c c' : Call} (h : AllCallBooks s) (hi : s.calls[i]? = some c)
    (hcalls : s'.calls = s.calls.set i c') (hother : ∀ j, j ≠ i → s'.hintsOf j = s.hintsOf j)
    (hc' : CallBooks (s'.hintsOf i) c') : AllCallBooks s' where
  call j d hj := by
    rw [hcalls] at hj
    by_cases hij : j = i
    · subst hij
      have hlt := (List.getElem?_eq_some_iff.mp hi).1
      obtain rfl : c' = d := by simpa [List.getElem?_set_self hlt] using hj
      exact hc'
    · rw [List.getElem?_set_ne (Ne.symm hij)] at hj
      rw [hother j hij]
      exact h.call j d hj
  fresh j hj := by
    rw [hcalls, List.length_set] at hj
    have hlt := (List.getElem?_eq_some_iff.mp hi).1
    rw [hother j (by omega)]
    exact h.fresh j hj

theorem AllCallBooks.of_report {i : ℕ} {c : Call} {f : Fanout Bool} {n : NodeId}
    {result : Option Bool} {now : Time} (h : AllCallBooks s) (hi : s.calls[i]? = some c)
    (hs : report config s i c f n result now = some s')
    (hcovers : (f.record n result).Covers c.place) (hf : f.answers = c.fanout.answers) :
    AllCallBooks s' := by
  obtain ⟨hcalls, hother, hc'⟩ := CallBooks.of_report hs hcovers (h.call i c hi) hf
  exact h.set hi hcalls hother hc'

theorem AllCallBooks.of_eq (h : AllCallBooks s) (hcalls : s'.calls = s.calls)
    (hhints : ∀ i, s'.hintsOf i = s.hintsOf i) : AllCallBooks s' where
  call i c hi := by
    rw [hhints i]
    exact h.call i c (hcalls ▸ hi)
  fresh i hi := by
    rw [hhints i]
    exact h.fresh i (hcalls ▸ hi)

/-- **What every step keeps of the calls.** -/
theorem AllCallBooks.of_step {l : Label} (h : AllCallBooks s)
    (hs : step config self s l = some s') : AllCallBooks s' := by
  cases l with
  | replicate key v P live =>
    cases hs
    refine ⟨fun i c hi => ?_, fun i hi => ?_⟩
    · rcases Nat.lt_or_ge i s.calls.length with hlt | hge
      · exact h.call i c (by simpa [List.getElem?_append_left hlt] using hi)
      · -- the call has just begun
        rw [List.getElem?_append_right hge] at hi
        obtain rfl := List.mem_singleton.mp (List.mem_of_getElem? hi)
        have henter : CallBooks [] (Call.enter self key v P live) := CallBooks.enter key v P live
        rw [← h.fresh i hge] at henter
        exact henter
    · exact h.fresh i (by simp at hi; omega)
  | issue i healthy live now =>
    obtain ⟨c, hi, hs⟩ := Option.bind_eq_some_iff.mp hs
    have hbooks := h.call i c hi
    unfold issue at hs
    split at hs
    · cases hs
    next n rest pending answers hfanout =>
      have hcovers : Fanout.Covers c.place ⟨n :: rest, pending, answers⟩ := hfanout ▸ hbooks.covers
      have hanswers : answers = c.fanout.answers := by rw [hfanout]
      split_ifs at hs
      · -- the node itself
        exact h.of_report hi hs (hcovers.record_todo _) hanswers
      · -- a healthy peer is called, and its callback reports later
        cases hs
        refine h.set hi rfl (fun _ _ => rfl) ⟨hcovers.call, ?_, hbooks.write⟩
        simpa [missed, hanswers] using hbooks.hinted
      · exact h.of_report hi hs (hcovers.record_todo _) hanswers
  | callback i n result now =>
    obtain ⟨c, hi, hs⟩ := Option.bind_eq_some_iff.mp hs
    unfold callback at hs
    split_ifs at hs with hn
    exact h.of_report hi hs ((h.call i c hi).covers.record_pending hn _) rfl
  | addHint n key v now =>
    refine h.of_eq (addHint_calls hs) fun i => ?_
    rw [addHint_hintsOf hs, if_neg (by simp), List.append_nil]
  | replayHints r =>
    obtain ⟨hcalls, hadded⟩ := replayHints_calls hs
    exact h.of_eq hcalls fun i => by rw [State.hintsOf, State.hintsOf, hadded]

/-! ## Runs -/

theorem Books.of_run {labels : List Label} (hr : run (step config self) {} labels = some s) :
    Books s :=
  run_invariant (fun _ _ _ h _ hs => h.of_step hs) Books.init (along_true _ _) hr

theorem AllCallBooks.of_run {labels : List Label}
    (hr : run (step config self) {} labels = some s) : AllCallBooks s :=
  run_invariant (fun _ _ _ h _ hs => h.of_step hs) ⟨by simp, fun _ _ => rfl⟩ (along_true _ _) hr

/-- Once all targets have reported, each is counted once in `acks` or has one hint. -/
theorem CallBooks.reported {hints : List Added} {c : Call} (h : CallBooks hints c)
    (htodo : c.fanout.todo = []) (hpending : c.fanout.pending = []) {n : NodeId}
    (hn : n ∈ c.place.targets) :
    c.fanout.succeeded.count n + (hints.filter fun a => a.node = n).length = 1 := by
  have hall : (c.fanout.answers.map Prod.fst).Perm c.place.targets := by
    simpa [Fanout.Covers, htodo, hpending] using h.covers
  have hone : (c.fanout.answers.map Prod.fst).count n = 1 := by
    rw [hall.count_eq]
    exact List.count_eq_one_of_mem c.place.nodup hn
  -- every answer is an acknowledgement or a miss
  have hsplit : (c.fanout.succeeded ++ missed c.fanout).Perm (c.fanout.answers.map Prod.fst) := by
    have hparts := (List.filter_append_perm (fun a => a.2.isSome) c.fanout.answers).map Prod.fst
    simpa [Fanout.succeeded, missed, List.map_append] using hparts
  have hhints : (hints.filter fun a => a.node = n).length = (missed c.fanout).count n := by
    rw [← h.hinted, List.count_eq_length_filter, List.filter_map, List.length_map]
    exact congrArg List.length (List.filter_congr fun a _ => (beq_eq_decide a.node n).symm)
  rw [hhints, ← List.count_append, hsplit.count_eq, hone]

/-! ## A queue without room -/

theorem nodup_selfAndPeer : ([[97], [98]] : List NodeId).Nodup := by decide

/-- The replicas of a key are the node itself and one peer. -/
def selfAndPeer (config : ClusterConfig) (h : 2 ≤ config.replicationFactor) : Placement where
  config := config
  targets := [[97], [98]]
  nodup := nodup_selfAndPeer
  length_le := h

/-- **With room for no hint, `add_hint` is undefined**: when `max_hints_per_node` is 0, the queue is
full while it is empty, and `replicate` pops from it for the first replica that misses a write. -/
theorem hint_without_room_undefined :
    ∃ s, run (step { maxHintsPerNode := 0 } [97]) {}
        [.replicate [107] { value := [118], version := 7 }
          (selfAndPeer { maxHintsPerNode := 0 } (by decide)) false, .issue 0 true false 5] = some s ∧
      (s.calls.map fun c => (c.fanout.todo, c.fanout.succeeded)) = [([[98]], [[97]])] ∧
      s.addHint { maxHintsPerNode := 0 } 6 [98] [107] { value := [118], version := 7 } (some 0) =
        none ∧
      step { maxHintsPerNode := 0 } [97] s (.issue 0 false false 6) = none := by
  refine ⟨_, rfl, ?_, ?_, ?_⟩
  · decide
  · simp [State.addHint, State.queue, State.setCall]
  · simp [step, issue, report, State.addHint, State.queue, State.setCall, Fanout.record]

/-- With room for one hint, `add_hint` never pops from an empty queue. -/
theorem exists_addHint (hmax : 0 < config.maxHintsPerNode) (s : State) (now : Time) (n : NodeId)
    (key : Key) (v : VersionedValue) (call : Option ℕ) :
    ∃ s', s.addHint config now n key v call = some s' := by
  unfold State.addHint
  dsimp only
  split
  next hfull =>
    cases hqueue : s.queue n with
    | nil =>
      rw [hqueue, List.length_nil] at hfull
      omega
    | cons oldest queue => exact ⟨_, rfl⟩
  · exact ⟨_, rfl⟩

/-- **Missed writes are not lost.** Once every target of a call of `replicate` has reported, each is
counted once in `acks` or has one hint of the write. Every hint that was ever appended has been
delivered, has expired, was dropped or cleared, or is still in flight or in its queue, and those
that are still there stand in the order in which they were appended. The counters count what was
dropped and what was delivered, up to the batch that is being sent. -/
theorem missed_writes_accounted (hmax : 0 < config.maxHintsPerNode) {labels : List Label}
    (hr : run (step config self) {} labels = some s) :
    (∀ now n key v call, ∃ s', s.addHint config now n key v call = some s') ∧
      (∀ i c, s.calls[i]? = some c → c.fanout.todo = [] → c.fanout.pending = [] →
        c.fanout.answers.length = c.place.targets.length ∧
        ∀ n ∈ c.place.targets,
          (c.fanout.succeeded.count n = 1 ∧ s.hintsFor i n = []) ∨
          (n ∉ c.fanout.succeeded ∧
            ∃ hint, s.hintsFor i n = [hint] ∧ hint.key = c.key ∧ hint.value = c.value)) ∧
      (∀ n, Custody ((s.addedTo n).map Hint.write) ((s.settledOf n).map Hint.write)
        ((s.replay.inFlight n ++ s.queue n).map Hint.write)) ∧
      s.hintsDropped = (s.settledAs .dropped).length ∧
      s.hintsDelivered + s.replay.uncounted = (s.settledAs .delivered).length := by
  have hbooks := Books.of_run hr
  refine ⟨exists_addHint hmax s, ?_, hbooks.custody, hbooks.dropped, hbooks.delivered⟩
  intro i c hi htodo hpending
  have hcall := (AllCallBooks.of_run hr).call i c hi
  refine ⟨?_, fun n hn => ?_⟩
  · have hlength := hcall.covers.length_eq
    simpa [htodo, hpending] using hlength
  · have hone := hcall.reported htodo hpending hn
    rcases Nat.eq_zero_or_pos (c.fanout.succeeded.count n) with hmiss | hack
    · -- not acknowledged: the one hint of the call for this target
      have hlength : ((s.hintsOf i).filter fun a => a.node = n).length = 1 := by omega
      obtain ⟨a, ha⟩ := List.length_eq_one_iff.mp hlength
      have hmem : a ∈ s.hintsOf i := List.mem_of_mem_filter (ha ▸ List.mem_singleton_self a)
      refine Or.inr ⟨List.count_eq_zero.mp hmiss, a.hint, ?_, hcall.write a hmem⟩
      rw [State.hintsFor, ha, List.map_singleton]
    · have hnone : (s.hintsOf i).filter (fun a => a.node = n) = [] :=
        List.eq_nil_of_length_eq_zero (by omega)
      exact Or.inl ⟨by omega, by rw [State.hintsFor, hnone, List.map_nil]⟩

/-- A replica is unhealthy, and its queue overflows while its batch is out; it fails after one hint.
-/
def peerFails : List Label :=
  let config : ClusterConfig := { maxHintsPerNode := 2 }
  [.replicate [107] { value := [118], version := 7, ttl := some 9 }
      (selfAndPeer config (by decide)) false,
    .issue 0 true false 5, .issue 0 false false 6, .addHint [98] [108] { version := 8 } 7,
    .replayHints (.collectIds [[98]]), .replayHints (.visit true true),
    .replayHints (.takeBatch 1000006), .addHint [98] [109] { version := 9 } 8,
    .replayHints (.sendNext true), .addHint [98] [110] { version := 10 } 9,
    .addHint [98] [111] { version := 11 } 10, .replayHints (.sendNext false), .replayHints .putBack,
    .replayHints .countDelivered, .replayHints .finish]

theorem missed_writes_accounted_peerFails :
    0 < ({ maxHintsPerNode := 2 } : ClusterConfig).maxHintsPerNode ∧
      ∃ s, run (step { maxHintsPerNode := 2 } [97]) {} peerFails = some s ∧
        ((s.queue [98]).map Hint.key, s.hintsDropped, s.hintsDelivered) =
          ([[108], [110], [111]], 1, 1) ∧
        Custody ((s.addedTo [98]).map Hint.write) ((s.settledOf [98]).map Hint.write)
          ((s.replay.inFlight [98] ++ s.queue [98]).map Hint.write) := by
  have hrun : ((run (step { maxHintsPerNode := 2 } [97]) {} peerFails).map fun s =>
      ((s.queue [98]).map Hint.key, s.hintsDropped, s.hintsDelivered)) =
      some ([[108], [110], [111]], 1, 1) := by decide
  obtain ⟨s, hs, hqueue⟩ := Option.map_eq_some_iff.mp hrun
  exact ⟨by decide, s, hs, hqueue, (missed_writes_accounted (by decide) hs).2.2.1 [98]⟩

end ShardCache.Handoff
