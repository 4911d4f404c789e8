import ShardCache.Foundations.Run
import ShardCache.Store.ShardedCache
import ShardCache.Cluster.HybridClock
import ShardCache.Cluster.RoutingTable

/-!
# The rebalancing pass

When the ring has changed, `rebalance_now` walks the local cache shard by shard. It takes a
snapshot of a shard and then visits its keys in turn: it pushes the value of the snapshot to every
node of the new preference list that was not on the old one, and removes the key if the node is no
longer on the list and every push was acknowledged. No lock is held between these steps, so replica
writes and the passes of other nodes run between any two of them.

## Main definitions

* `Turn`, `Pass`, `Node`, `System`: one key of a pass, a pass, a node, the cluster
* `Label`, `step`: the steps of passes, replica writes and published tables, in any order
* `Delivery`, `Label.delivery`: the replica write that a step delivers
* `PassMove`: the moves of a pass; `Turn.At`: where a turn stands in the preference list of its key

## Main results

* `cache_step`, `slot_step`: what one step does to the cache of a node, and to one of its entries
* `pass_step`: what one step does to the pass of a node
* `Turn.At.not_mem`: a turn drops its key only on a node that is not on the new list
-/

namespace ShardCache.Rebalance

open Foundations

/-! ## Nodes -/

/-- A published routing table. Two published tables are one object when their epochs agree. -/
structure Published where
  epoch : ℕ
  table : RoutingTable
deriving DecidableEq

/-- The loop over the new preference list, for one key: `pending` is the rest of the list. -/
structure Turn where
  key : Key
  value : VersionedValue
  oldOwners : List NodeId
  pending : List CacheNode
  stillOwner : Bool := false
  handedOff : Bool := true

/-- A call of `rebalance_now`: the next shard to snapshot, and the rest of the batch of the last
one. -/
structure Pass where
  previous : Option Published
  target : Published
  shard : ℕ := 0
  batch : List (Key × VersionedValue) := []
  turn : Option Turn := none
  pushed : ℕ := 0

/-- `Cluster::Hint`. -/
structure Hint where
  key : Key
  value : VersionedValue
  deadline : Option Time

/-- What rebalancing reads and writes of a node; `pass` is the call that holds `rebalance_mutex_`,
if there is one. -/
structure Node where
  clock : UInt64 := 0
  cache : ShardedCache
  routing : Option Published := none
  placedFor : Option Published := none
  hints : NodeId → List Hint := fun _ => []
  hintsDropped : ℕ := 0
  keysMoved : ℕ := 0
  pass : Option Pass := none

/-- `Cluster::apply_replica_write`. -/
def Node.applyReplicaWrite (x : Node) (now : Time) (key : Key) (v : VersionedValue) : Node :=
  { x with
    clock := HybridClock.observe x.clock v.version
    cache := (x.cache.apply now key v).1 }

/-- `Cluster::add_hint`: a full queue drops its oldest hint. -/
def Node.addHint (config : ClusterConfig) (x : Node) (now : Time) (n : NodeId) (key : Key)
    (v : VersionedValue) : Node :=
  let full := (x.hints n).length ≥ config.maxHintsPerNode
  let queue := if full then (x.hints n).tail else x.hints n
  let hint : Hint := ⟨key, v, v.ttl.map fun ttl => now + ttl.ticks⟩
  { x with
    hints := Function.update x.hints n (queue ++ [hint])
    hintsDropped := if full then x.hintsDropped + 1 else x.hintsDropped }

/-- `old_owners`: the ids of the old preference list. -/
def oldOwners (previous : Option Published) (key : Key) : List NodeId :=
  match previous with
  | none => []
  | some r => r.table.replicaIds key

/-- The start of the turn of one entry of a batch. -/
def Pass.turnOf (p : Pass) (key : Key) (value : VersionedValue) : Turn where
  key := key
  value := value
  oldOwners := oldOwners p.previous key
  pending := p.target.table.preferenceList key

/-- The turn ends with `local_cache_.remove(key)`. -/
def Turn.drops (t : Turn) : Bool := !t.stillOwner && t.handedOff

/-! ## The cluster -/

/-- The nodes by their ids. A node is reached at the address that routing tables have for it. -/
abbrev System := NodeId → Node

/-- How a call of `send_write` ends, with the reading of the receiver's clock if the write reached
it, and of the sender's if the call fails. -/
inductive Sent where
  | acked (now : Time)
  | unacknowledged (now hintNow : Time)
  | lost (hintNow : Time)

/-- The steps of the system. -/
inductive Label where
  /-- Node `n` enters `rebalance_now`. -/
  | start (n : NodeId)
  /-- Its pass takes the snapshot of the next shard. -/
  | snapshot (n : NodeId) (now : Time)
  /-- Its pass takes up the next key of the batch. -/
  | begin (n : NodeId)
  /-- Its pass takes up the next node of the preference list; `sent` is the outcome of
  `send_write`, if it is called. -/
  | push (n : NodeId) (sent : Sent)
  /-- Its pass ends the turn of the key. -/
  | finish (n : NodeId) (now : Time)
  /-- Its pass returns. -/
  | stop (n : NodeId)
  /-- A replica write of a coordinator, or of a hint, reaches node `n`. -/
  | replicaWrite (n : NodeId) (now : Time) (key : Key) (v : VersionedValue)
  /-- Node `n` publishes a routing table. -/
  | publish (n : NodeId) (r : Published)

/-- The node that takes the step. -/
def Label.node : Label → NodeId
  | .start n | .snapshot n _ | .begin n | .push n _ | .finish n _ | .stop n
  | .replicaWrite n _ _ _ | .publish n _ => n

/-- Change node `n`. -/
def modify (s : System) (n : NodeId) (f : Node → Node) : System := Function.update s n (f (s n))

/-- A step of a pass, with every `send_write` acknowledged. -/
def Label.Acked : Label → Prop
  | .start _ | .snapshot _ _ | .begin _ | .finish _ _ | .stop _ | .push _ (.acked _) => True
  | _ => False

instance (l : Label) : Decidable l.Acked := by
  unfold Label.Acked
  split <;> infer_instance

/-- Replace the pass of node `n`. -/
def setPass (s : System) (n : NodeId) (p : Option Pass) : System :=
  modify s n fun x => { x with pass := p }

/-- `rebalance_now` up to the loop: without a table, or when the entries are already placed for it,
it returns. -/
def start (s : System) (n : NodeId) : Option System :=
  match (s n).pass, (s n).routing with
  | some _, _ => none
  | none, none => some s
  | none, some target =>
    if (s n).placedFor.map Published.epoch = some target.epoch then some s
    else some (setPass s n (some { previous := (s n).placedFor, target := target }))

/-- `shard->snapshot(batch)` of `for_each_shard_snapshot`. -/
def snapshot (s : System) (n : NodeId) (now : Time) : Option System :=
  (s n).pass.bind fun p =>
    if p.turn.isNone && p.batch.isEmpty && p.shard < (s n).cache.shards.length then
      let batch := (s n).cache.shardSnapshot p.shard now
      some (setPass s n (some { p with shard := p.shard + 1, batch := batch }))
    else none

/-- The next iteration of the loop over the batch. -/
def beginTurn (s : System) (n : NodeId) : Option System :=
  (s n).pass.bind fun p =>
    match p.turn, p.batch with
    | none, (key, value) :: rest =>
      some (setPass s n (some { p with batch := rest, turn := some (p.turnOf key value) }))
    | _, _ => none

/-- A replica write reaches node `n`, by `REPL_SET` or `REPL_DEL`. -/
def deliver (s : System) (n : NodeId) (now : Time) (key : Key) (v : VersionedValue) : System :=
  modify s n fun x => x.applyReplicaWrite now key v.onWire

/-- `add_hint` on node `n`. -/
def hint (config : ClusterConfig) (s : System) (n : NodeId) (now : Time) (m : NodeId) (t : Turn) :
    System :=
  modify s n fun x => x.addHint config now m t.key t.value

/-- The next iteration of the loop over the preference list. -/
def push (config : ClusterConfig) (s : System) (n : NodeId) (sent : Sent) : Option System :=
  (s n).pass.bind fun p => p.turn.bind fun t =>
    match t.pending with
    | [] => none
    | node :: rest =>
      let next := { t with pending := rest }
      if node.id = n then
        some (setPass s n (some { p with turn := some { next with stillOwner := true } }))
      -- an old owner already held a copy under the old layout
      else if node.id ∈ t.oldOwners then some (setPass s n (some { p with turn := some next }))
      else
        match sent with
        | .acked now =>
          some (setPass (deliver s node.id now t.key t.value) n
            (some { p with turn := some next, pushed := p.pushed + 1 }))
        | .unacknowledged now hintNow =>
          some (setPass (hint config (deliver s node.id now t.key t.value) n hintNow node.id t) n
            (some { p with turn := some { next with handedOff := false } }))
        | .lost hintNow =>
          some (setPass (hint config s n hintNow node.id t) n
            (some { p with turn := some { next with handedOff := false } }))

/-- `local_cache_.remove(key)` on node `n`. -/
def removeLocal (s : System) (n : NodeId) (now : Time) (key : Key) : System :=
  modify s n fun x => { x with cache := (x.cache.remove now key).1 }

/-- The end of the turn of a key: a node that no longer owns the key, and handed it off, drops it. -/
def finish (s : System) (n : NodeId) (now : Time) : Option System :=
  (s n).pass.bind fun p => p.turn.bind fun t =>
    if t.pending.isEmpty then
      some (setPass (if t.drops then removeLocal s n now t.key else s) n
        (some { p with turn := none }))
    else none

/-- `rebalance_now` after the loop. -/
def stop (s : System) (n : NodeId) : Option System :=
  (s n).pass.bind fun p =>
    if p.turn.isNone && p.batch.isEmpty && (s n).cache.shards.length ≤ p.shard then
      some (modify s n fun x =>
        { x with placedFor := some p.target, keysMoved := x.keysMoved + p.pushed, pass := none })
    else none

/-- The step function of the system. -/
def step (config : ClusterConfig) (s : System) : Label → Option System
  | .start n => start s n
  | .snapshot n now => snapshot s n now
  | .begin n => beginTurn s n
  | .push n sent => push config s n sent
  | .finish n now => finish s n now
  | .stop n => stop s n
  | .replicaWrite n now key v => some (deliver s n now key v)
  | .publish n r => some (modify s n fun x => { x with routing := some r })

@[simp] theorem modify_self (s : System) (n : NodeId) (f : Node → Node) :
    modify s n f n = f (s n) := Function.update_self _ _ _

theorem modify_ne (s : System) {n m : NodeId} (f : Node → Node) (h : m ≠ n) :
    modify s n f m = s m := Function.update_of_ne h _ _

/-- What a change of one node keeps, it keeps on every node. -/
theorem modify_field {α : Type} (g : Node → α) {f : Node → Node} (hg : ∀ x, g (f x) = g x)
    (s : System) (n m : NodeId) : g (modify s n f m) = g (s m) := by
  by_cases h : m = n
  · subst h
    rw [modify_self, hg]
  · rw [modify_ne s f h]

/-! ## What a step does to the caches -/

/-- A replica write that reaches a node, with the reading of the node's clock. -/
structure Delivery where
  dest : NodeId
  now : Time
  key : Key
  value : VersionedValue

/-- The write that a push delivers to `node`. -/
def Turn.delivery (t : Turn) (n : NodeId) (sent : Sent) : Option Delivery :=
  match t.pending with
  | [] => none
  | node :: _ =>
    if node.id = n ∨ node.id ∈ t.oldOwners then none
    else
      match sent with
      | .acked now | .unacknowledged now _ => some ⟨node.id, now, t.key, t.value.onWire⟩
      | .lost _ => none

/-- The turn that the pass of a node is in. -/
def Node.turn (x : Node) : Option Turn := x.pass.bind Pass.turn

/-- The replica write that a step delivers. -/
def Label.delivery (s : System) : Label → Option Delivery
  | .push n sent => (s n).turn.bind fun t => t.delivery n sent
  | .replicaWrite n now key v => some ⟨n, now, key, v.onWire⟩
  | _ => none

section Fields

variable (config : ClusterConfig) (s : System) (n m : NodeId)

@[simp] theorem setPass_cache (p : Option Pass) : (setPass s n p m).cache = (s m).cache :=
  modify_field Node.cache (fun _ => by rfl) s n m

@[simp] theorem setPass_pass_self (p : Option Pass) : (setPass s n p n).pass = p := by
  rw [setPass, modify_self]

theorem setPass_ne (p : Option Pass) (h : m ≠ n) : setPass s n p m = s m := modify_ne s _ h

@[simp] theorem deliver_pass (now : Time) (key : Key) (v : VersionedValue) :
    (deliver s n now key v m).pass = (s m).pass :=
  modify_field Node.pass (fun _ => by rfl) s n m

@[simp] theorem deliver_cache_self (now : Time) (key : Key) (v : VersionedValue) :
    (deliver s n now key v n).cache = ((s n).cache.apply now key v.onWire).1 := by
  rw [deliver, modify_self, Node.applyReplicaWrite]

theorem deliver_ne (now : Time) (key : Key) (v : VersionedValue) (h : m ≠ n) :
    deliver s n now key v m = s m := modify_ne s _ h

/-- A write that is delivered changes the cache of its destination only. -/
theorem cache_deliver (now : Time) (key : Key) (v : VersionedValue) :
    (deliver s n now key v m).cache = (s m).cache ∨
      n = m ∧ (deliver s n now key v m).cache = ((s m).cache.apply now key v.onWire).1 := by
  by_cases hm : m = n
  · subst hm
    exact Or.inr ⟨rfl, deliver_cache_self s m now key v⟩
  · exact Or.inl (by rw [deliver_ne s n m now key v hm])

@[simp] theorem hint_cache (now : Time) (r : NodeId) (t : Turn) :
    (hint config s n now r t m).cache = (s m).cache :=
  modify_field Node.cache (fun _ => by rfl) s n m

end Fields

variable {config : ClusterConfig} {s s' : System} {n m : NodeId} {l : Label}

/-- The branches of `push`. -/
theorem push_cases {sent : Sent} (h : push config s n sent = some s') :
    ∃ p t node rest, (s n).pass = some p ∧ p.turn = some t ∧ t.pending = node :: rest ∧
      ((node.id = n ∧ s' = setPass s n (some { p with
          turn := some { t with pending := rest, stillOwner := true } })) ∨
        (node.id ≠ n ∧ node.id ∈ t.oldOwners ∧ s' = setPass s n (some { p with
          turn := some { t with pending := rest } })) ∨
        (node.id ≠ n ∧ node.id ∉ t.oldOwners ∧
          ((∃ now, sent = .acked now ∧
              s' = setPass (deliver s node.id now t.key t.value) n (some { p with
                turn := some { t with pending := rest }, pushed := p.pushed + 1 })) ∨
            (∃ now hintNow, sent = .unacknowledged now hintNow ∧
              s' = setPass (hint config (deliver s node.id now t.key t.value) n hintNow node.id t) n
                (some { p with turn := some { t with pending := rest, handedOff := false } })) ∨
            ∃ hintNow, sent = .lost hintNow ∧
              s' = setPass (hint config s n hintNow node.id t) n
                (some { p with turn := some { t with pending := rest, handedOff := false } })))) := by
  obtain ⟨p, hp, h⟩ := Option.bind_eq_some_iff.mp h
  obtain ⟨t, ht, h⟩ := Option.bind_eq_some_iff.mp h
  cases hpend : t.pending with
  | nil => simp [hpend] at h
  | cons node rest =>
    simp only [hpend] at h
    refine ⟨p, t, node, rest, hp, ht, hpend, ?_⟩
    -- the node itself, an old owner that has the key already, or a node to which it is sent
    by_cases hn : node.id = n
    · rw [if_pos hn] at h
      exact Or.inl ⟨hn, (Option.some.inj h).symm⟩
    · rw [if_neg hn] at h
      by_cases ho : node.id ∈ t.oldOwners
      · rw [if_pos ho] at h
        exact Or.inr (Or.inl ⟨hn, ho, (Option.some.inj h).symm⟩)
      · rw [if_neg ho] at h
        refine Or.inr (Or.inr ⟨hn, ho, ?_⟩)
        cases sent with
        | acked now => exact Or.inl ⟨now, rfl, (Option.some.inj h).symm⟩
        | unacknowledged now hintNow =>
          exact Or.inr (Or.inl ⟨now, hintNow, rfl, (Option.some.inj h).symm⟩)
        | lost hintNow => exact Or.inr (Or.inr ⟨hintNow, rfl, (Option.some.inj h).symm⟩)

/-- A push that is acknowledged, or skips its node: the turn moves on, and the entry reaches the node
if it is neither this one nor an old owner. -/
theorem push_acked {now : Time} {t : Turn} (h : push config s n (.acked now) = some s')
    (ht : (s n).turn = some t) :
    ∃ node rest, t.pending = node :: rest ∧
      (s' n).turn = some { t with
        pending := rest, stillOwner := t.stillOwner || decide (node.id = n) } ∧
      ((node.id = n ∨ node.id ∈ t.oldOwners) ∧ (∀ m, (s' m).cache = (s m).cache) ∨
        node.id ≠ n ∧ node.id ∉ t.oldOwners ∧
          (s' node.id).cache = ((s node.id).cache.apply now t.key t.value.onWire).1 ∧
          ∀ m ≠ node.id, (s' m).cache = (s m).cache) := by
  obtain ⟨p, t', node, rest, hp, hpt, hpend, hcases⟩ := push_cases h
  obtain rfl : t' = t := by simpa [Node.turn, hp, hpt] using ht
  refine ⟨node, rest, hpend, ?_⟩
  rcases hcases with ⟨hn, rfl⟩ | ⟨hn, ho, rfl⟩ | ⟨hn, ho, hcases⟩
  · exact ⟨by simp [Node.turn, hn], Or.inl ⟨Or.inl hn, fun m => setPass_cache ..⟩⟩
  · exact ⟨by simp [Node.turn, hn], Or.inl ⟨Or.inr ho, fun m => setPass_cache ..⟩⟩
  · rcases hcases with ⟨now', he, rfl⟩ | ⟨_, _, he, -⟩ | ⟨_, he, -⟩
    · obtain rfl := Sent.acked.inj he
      refine ⟨by simp [Node.turn, hn], Or.inr ⟨hn, ho, by simp, ?_⟩⟩
      intro m hm
      rw [setPass_cache, deliver_ne s _ m now _ _ hm]
    · exact absurd he (by simp)
    · exact absurd he (by simp)

theorem start_cases (h : start s n = some s') :
    s' = s ∨ ∃ target, (s n).pass = none ∧ (s n).routing = some target ∧
      (s n).placedFor.map Published.epoch ≠ some target.epoch ∧
      s' = setPass s n (some { previous := (s n).placedFor, target := target }) := by
  unfold start at h
  split at h
  · exact absurd h (by simp)
  · exact Or.inl (Option.some.inj h).symm
  · rename_i target hpass hrouting
    split at h
    · exact Or.inl (Option.some.inj h).symm
    · exact Or.inr ⟨target, hpass, hrouting, ‹_›, (Option.some.inj h).symm⟩

theorem snapshot_cases {now : Time} (h : snapshot s n now = some s') :
    ∃ p, (s n).pass = some p ∧ p.turn = none ∧ p.batch = [] ∧
      p.shard < (s n).cache.shards.length ∧
      s' = setPass s n (some { p with
        shard := p.shard + 1, batch := (s n).cache.shardSnapshot p.shard now }) := by
  obtain ⟨p, hp, h⟩ := Option.bind_eq_some_iff.mp h
  split at h
  · rename_i hc
    simp only [Bool.and_eq_true, Option.isNone_iff_eq_none, List.isEmpty_iff,
      decide_eq_true_eq] at hc
    exact ⟨p, hp, hc.1.1, hc.1.2, hc.2, (Option.some.inj h).symm⟩
  · exact absurd h (by simp)

theorem beginTurn_cases (h : beginTurn s n = some s') :
    ∃ p key value rest, (s n).pass = some p ∧ p.turn = none ∧ p.batch = (key, value) :: rest ∧
      s' = setPass s n (some { p with batch := rest, turn := some (p.turnOf key value) }) := by
  obtain ⟨p, hp, h⟩ := Option.bind_eq_some_iff.mp h
  split at h
  · exact ⟨p, _, _, _, hp, ‹_›, ‹_›, (Option.some.inj h).symm⟩
  · exact absurd h (by simp)

theorem finish_cases {now : Time} (h : finish s n now = some s') :
    ∃ p t, (s n).pass = some p ∧ p.turn = some t ∧ t.pending = [] ∧
      s' = setPass (if t.drops then removeLocal s n now t.key else s) n
        (some { p with turn := none }) := by
  obtain ⟨p, hp, h⟩ := Option.bind_eq_some_iff.mp h
  obtain ⟨t, ht, h⟩ := Option.bind_eq_some_iff.mp h
  split at h
  · exact ⟨p, t, hp, ht, List.isEmpty_iff.mp ‹_›, (Option.some.inj h).symm⟩
  · exact absurd h (by simp)

theorem stop_cases (h : stop s n = some s') :
    ∃ p, (s n).pass = some p ∧ p.turn = none ∧ p.batch = [] ∧
      (s n).cache.shards.length ≤ p.shard ∧
      s' = modify s n fun x =>
        { x with placedFor := some p.target, keysMoved := x.keysMoved + p.pushed, pass := none } := by
  obtain ⟨p, hp, h⟩ := Option.bind_eq_some_iff.mp h
  split at h
  · rename_i hc
    simp only [Bool.and_eq_true, Option.isNone_iff_eq_none, List.isEmpty_iff,
      decide_eq_true_eq] at hc
    exact ⟨p, hp, hc.1.1, hc.1.2, hc.2, (Option.some.inj h).symm⟩
  · exact absurd h (by simp)

/-- A push delivers the value of its turn, to a node of the list that is no old owner. -/
theorem delivery_push {sent : Sent} {d : Delivery} (hd : (Label.push n sent).delivery s = some d) :
    ∃ t node rest, (s n).turn = some t ∧ t.pending = node :: rest ∧ node.id ≠ n ∧
      node.id ∉ t.oldOwners ∧ d.dest = node.id ∧ d.key = t.key ∧ d.value = t.value.onWire := by
  obtain ⟨t, ht, hd⟩ := Option.bind_eq_some_iff.mp hd
  unfold Turn.delivery at hd
  cases hpend : t.pending with
  | nil => simp [hpend] at hd
  | cons node rest =>
    simp only [hpend] at hd
    split at hd
    · exact absurd hd (by simp)
    · rename_i hskip
      rw [not_or] at hskip
      refine ⟨t, node, rest, ht, hpend, hskip.1, hskip.2, ?_⟩
      cases sent with
      | acked now => obtain rfl := Option.some.inj hd; exact ⟨rfl, rfl, rfl⟩
      | unacknowledged now hintNow => obtain rfl := Option.some.inj hd; exact ⟨rfl, rfl, rfl⟩
      | lost hintNow => exact absurd hd (by simp)

/-- **One step, one cache**: a step leaves the cache of a node alone, delivers a write to it, or
ends a turn that drops its key. -/
theorem cache_step (h : step config s l = some s') (m : NodeId) :
    (s' m).cache = (s m).cache ∨
      (∃ d ∈ l.delivery s, d.dest = m ∧
        (s' m).cache = ((s m).cache.apply d.now d.key d.value).1) ∨
      ∃ now t, l = .finish m now ∧ (s m).turn = some t ∧ t.pending = [] ∧ t.drops = true ∧
        (s' m).cache = ((s m).cache.remove now t.key).1 := by
  cases l with
  | start n =>
    rcases start_cases h with rfl | ⟨target, -, -, -, rfl⟩
    · exact Or.inl rfl
    · exact Or.inl (setPass_cache ..)
  | snapshot n now =>
    obtain ⟨p, -, -, -, -, rfl⟩ := snapshot_cases h
    exact Or.inl (setPass_cache ..)
  | begin n =>
    obtain ⟨p, key, value, rest, -, -, -, rfl⟩ := beginTurn_cases h
    exact Or.inl (setPass_cache ..)
  | push n sent =>
    obtain ⟨p, t, node, rest, hp, ht, hpend, hcases⟩ := push_cases h
    have hdel : (Label.push n sent).delivery s = t.delivery n sent := by
      simp [Label.delivery, Node.turn, hp, ht]
    -- the caches after a write that the push delivers
    have hdelivered (now : Time)
        (hd : t.delivery n sent = some ⟨node.id, now, t.key, t.value.onWire⟩)
        (hc : (s' m).cache = (deliver s node.id now t.key t.value m).cache) :
        (s' m).cache = (s m).cache ∨ ∃ d ∈ (Label.push n sent).delivery s, d.dest = m ∧
          (s' m).cache = ((s m).cache.apply d.now d.key d.value).1 := by
      rw [hdel, hc]
      exact (cache_deliver ..).imp_right fun hm => ⟨_, hd, hm⟩
    rcases hcases with ⟨-, rfl⟩ | ⟨-, -, rfl⟩ | ⟨hn, ho, hcases⟩
    · exact Or.inl (setPass_cache ..)
    · exact Or.inl (setPass_cache ..)
    · rcases hcases with ⟨now, rfl, rfl⟩ | ⟨now, hintNow, rfl, rfl⟩ | ⟨hintNow, rfl, rfl⟩
      · exact (hdelivered now (by simp [Turn.delivery, hpend, hn, ho]) (by simp)).imp_right Or.inl
      · exact (hdelivered now (by simp [Turn.delivery, hpend, hn, ho]) (by simp)).imp_right Or.inl
      · exact Or.inl (by simp)
  | finish n now =>
    obtain ⟨p, t, hp, ht, hpend, rfl⟩ := finish_cases h
    rw [setPass_cache]
    cases hdrops : t.drops with
    | false => exact Or.inl (by simp)
    | true =>
      rw [if_pos rfl]
      by_cases hm : m = n
      · subst hm
        refine Or.inr (Or.inr ⟨now, t, rfl, by simp [Node.turn, hp, ht], hpend, hdrops, ?_⟩)
        rw [removeLocal, modify_self]
      · exact Or.inl (by rw [removeLocal, modify_ne s _ hm])
  | stop n =>
    obtain ⟨p, -, -, -, -, rfl⟩ := stop_cases h
    exact Or.inl (modify_field Node.cache (fun _ => by rfl) s n m)
  | replicaWrite n now key v =>
    obtain rfl := Option.some.inj h
    exact (cache_deliver ..).imp_right fun hm => Or.inl ⟨_, rfl, hm⟩
  | publish n r =>
    obtain rfl := Option.some.inj h
    exact Or.inl (modify_field Node.cache (fun _ => by rfl) s n m)

theorem cache_step_delivery (h : step config s l = some s') {d : Delivery}
    (hd : l.delivery s = some d) :
    (s' d.dest).cache = ((s d.dest).cache.apply d.now d.key d.value).1 := by
  cases l with
  | push n sent =>
    obtain ⟨p, t, node, rest, hp, ht, hpend, hcases⟩ := push_cases h
    have hdel : t.delivery n sent = some d := by
      simpa [Label.delivery, Node.turn, hp, ht] using hd
    rcases hcases with ⟨hn, -⟩ | ⟨-, ho, -⟩ | ⟨hn, ho, hcases⟩
    · simp [Turn.delivery, hpend, hn] at hdel
    · simp [Turn.delivery, hpend, ho] at hdel
    · rcases hcases with ⟨now, rfl, rfl⟩ | ⟨now, hintNow, rfl, rfl⟩ | ⟨hintNow, rfl, rfl⟩
      · obtain rfl := by simpa [Turn.delivery, hpend, hn, ho] using hdel
        simp
      · obtain rfl := by simpa [Turn.delivery, hpend, hn, ho] using hdel
        simp
      · simp [Turn.delivery, hpend, hn, ho] at hdel
  | replicaWrite n now key v =>
    obtain rfl := Option.some.inj hd
    obtain rfl := Option.some.inj h
    exact deliver_cache_self ..
  | _ => exact absurd hd (by simp [Label.delivery])

/-- **One step, one slot**: the entry of a key stays, a write to it is delivered, a write to another
key evicts it, or a turn drops it. -/
theorem slot_step (h : step config s l = some s') (m : NodeId) (k : Key) :
    (s' m).cache.slot k = (s m).cache.slot k ∨
      (∃ d ∈ l.delivery s, d.dest = m ∧ d.key = k ∧ (s' m).cache.slot k =
        applySlot ((s m).cache.shard k).tombstoneTtl d.now d.value ((s m).cache.slot k)) ∨
      (∃ d ∈ l.delivery s, d.dest = m ∧ d.key ≠ k ∧ (s' m).cache.slot k = none ∧
        (s' m).cache.evictions = (s m).cache.evictions + 1) ∨
      ∃ now t, l = .finish m now ∧ (s m).turn = some t ∧ t.pending = [] ∧ t.drops = true ∧
        t.key = k ∧ (s' m).cache.slot k = none := by
  rcases cache_step h m with hc | ⟨d, hd, hdest, hc⟩ | ⟨now, t, hl, ht, hpend, hdrops, hc⟩
  · exact Or.inl (by rw [hc])
  · by_cases hk : d.key = k
    · subst hk
      exact Or.inr (Or.inl ⟨d, hd, hdest, rfl, by rw [hc, ShardedCache.slot_apply]⟩)
    · have hne : ((s m).cache.apply d.now d.key d.value).1.slot k = (s m).cache.slot k ∨ _ :=
        ShardedCache.slot_apply_ne (Ne.symm hk)
      rcases hne with hs | ⟨hs, he⟩
      · exact Or.inl (by rw [hc, hs])
      · exact Or.inr (Or.inr (Or.inl ⟨d, hd, hdest, hk, by rw [hc, hs], by rw [hc, he]⟩))
  · by_cases hk : t.key = k
    · exact Or.inr (Or.inr (Or.inr ⟨now, t, hl, ht, hpend, hdrops, hk, by
        rw [hc, ShardedCache.slot_remove, if_pos hk.symm]⟩))
    · exact Or.inl (by rw [hc, ShardedCache.slot_remove, if_neg (Ne.symm hk)])

/-! ## What a step does to a pass -/

/-- The moves of the pass of a node: `PassMove x n l p` says that on node `n`, which is `x`, the step
`l` makes `p` the pass. -/
inductive PassMove (x : Node) (n : NodeId) : Label → Option Pass → Prop
  | start {target : Published} (idle : x.pass = none) (routing : x.routing = some target)
      (stale : x.placedFor.map Published.epoch ≠ some target.epoch) :
      PassMove x n (.start n) (some { previous := x.placedFor, target := target })
  | snapshot {p : Pass} {now : Time} (running : x.pass = some p) (turn : p.turn = none)
      (batch : p.batch = []) (shard : p.shard < x.cache.shards.length) :
      PassMove x n (.snapshot n now)
        (some { p with shard := p.shard + 1, batch := x.cache.shardSnapshot p.shard now })
  | begin {p : Pass} {key : Key} {value : VersionedValue} {rest : List (Key × VersionedValue)}
      (running : x.pass = some p) (turn : p.turn = none) (batch : p.batch = (key, value) :: rest) :
      PassMove x n (.begin n) (some { p with batch := rest, turn := some (p.turnOf key value) })
  | push {p : Pass} {t : Turn} {node : CacheNode} {rest : List CacheNode} {sent : Sent}
      (handedOff : Bool) (pushed : ℕ)
      (running : x.pass = some p) (turn : p.turn = some t) (pending : t.pending = node :: rest)
      (acked : ∀ now, sent = .acked now → handedOff = t.handedOff) :
      PassMove x n (.push n sent)
        (some { p with
          turn := some { t with
            pending := rest
            stillOwner := t.stillOwner || decide (node.id = n)
            handedOff := handedOff }
          pushed := pushed })
  | finish {p : Pass} {t : Turn} {now : Time} (running : x.pass = some p) (turn : p.turn = some t)
      (pending : t.pending = []) : PassMove x n (.finish n now) (some { p with turn := none })
  | stop {p : Pass} (running : x.pass = some p) (turn : p.turn = none) (batch : p.batch = [])
      (shard : x.cache.shards.length ≤ p.shard) : PassMove x n (.stop n) none

/-- A step of another node does nothing to a node but deliver a write. -/
theorem field_step_ne {α : Type} (g : Node → α)
    (hg : ∀ x now key v, g (Node.applyReplicaWrite x now key v) = g x)
    (h : step config s l = some s') (hm : m ≠ l.node) : g (s' m) = g (s m) := by
  have hdeliver (r : NodeId) (now : Time) (key : Key) (v : VersionedValue) :
      g (deliver s r now key v m) = g (s m) := modify_field g (fun x => hg x now key v.onWire) s r m
  cases l with
  | start n =>
    rcases start_cases h with rfl | ⟨target, -, -, -, rfl⟩
    · rfl
    · rw [setPass_ne s n m _ hm]
  | snapshot n now =>
    obtain ⟨p, -, -, -, -, rfl⟩ := snapshot_cases h
    rw [setPass_ne s n m _ hm]
  | begin n =>
    obtain ⟨p, key, value, rest, -, -, -, rfl⟩ := beginTurn_cases h
    rw [setPass_ne s n m _ hm]
  | push n sent =>
    obtain ⟨p, t, node, rest, -, -, -, hcases⟩ := push_cases h
    rcases hcases with ⟨-, rfl⟩ | ⟨-, -, rfl⟩ | ⟨-, -, hcases⟩
    · rw [setPass_ne s n m _ hm]
    · rw [setPass_ne s n m _ hm]
    · rcases hcases with ⟨now, rfl, rfl⟩ | ⟨now, hintNow, rfl, rfl⟩ | ⟨hintNow, rfl, rfl⟩
      · rw [setPass_ne _ n m _ hm, hdeliver]
      · rw [setPass_ne _ n m _ hm, hint, modify_ne (n := n) _ _ hm, hdeliver]
      · rw [setPass_ne _ n m _ hm, hint, modify_ne (n := n) _ _ hm]
  | finish n now =>
    obtain ⟨p, t, -, -, -, rfl⟩ := finish_cases h
    rw [setPass_ne _ n m _ hm]
    split
    · rw [removeLocal, modify_ne (n := n) _ _ hm]
    · rfl
  | stop n =>
    obtain ⟨p, -, -, -, -, rfl⟩ := stop_cases h
    rw [modify_ne (n := n) _ _ hm]
  | replicaWrite n now key v =>
    obtain rfl := Option.some.inj h
    exact hdeliver ..
  | publish n r =>
    obtain rfl := Option.some.inj h
    rw [modify_ne (n := n) _ _ hm]

/-- **One step, one pass**: a step leaves the pass of a node alone, or moves it. -/
theorem pass_step (h : step config s l = some s') (m : NodeId) :
    (s' m).pass = (s m).pass ∨ PassMove (s m) m l (s' m).pass := by
  -- a step of node `n` changes no other pass
  by_cases hm : m = l.node
  · cases l with
    | start n =>
      obtain rfl : m = n := hm
      rcases start_cases h with rfl | ⟨target, hidle, hrouting, hstale, rfl⟩
      · exact Or.inl rfl
      · exact Or.inr (by rw [setPass_pass_self]; exact .start hidle hrouting hstale)
    | snapshot n now =>
      obtain rfl : m = n := hm
      obtain ⟨p, hp, ht, hb, hshard, rfl⟩ := snapshot_cases h
      exact Or.inr (by rw [setPass_pass_self]; exact .snapshot hp ht hb hshard)
    | begin n =>
      obtain rfl : m = n := hm
      obtain ⟨p, key, value, rest, hp, ht, hb, rfl⟩ := beginTurn_cases h
      exact Or.inr (by rw [setPass_pass_self]; exact .begin hp ht hb)
    | push n sent =>
      obtain rfl : m = n := hm
      obtain ⟨p, t, node, rest, hp, ht, hpend, hcases⟩ := push_cases h
      refine Or.inr ?_
      rcases hcases with ⟨hn, rfl⟩ | ⟨hn, -, rfl⟩ | ⟨hn, -, hcases⟩
      · rw [setPass_pass_self]
        simpa [hn] using PassMove.push (n := m) t.handedOff p.pushed hp ht hpend fun _ _ => rfl
      · rw [setPass_pass_self]
        simpa [hn] using PassMove.push (n := m) t.handedOff p.pushed hp ht hpend fun _ _ => rfl
      · rcases hcases with ⟨now, rfl, rfl⟩ | ⟨now, hintNow, rfl, rfl⟩ | ⟨hintNow, rfl, rfl⟩
        · rw [setPass_pass_self]
          simpa [hn] using
            PassMove.push (n := m) t.handedOff (p.pushed + 1) hp ht hpend fun _ _ => rfl
        · rw [setPass_pass_self]
          simpa [hn] using PassMove.push (n := m) false p.pushed hp ht hpend
            fun _ he => Sent.noConfusion he
        · rw [setPass_pass_self]
          simpa [hn] using PassMove.push (n := m) false p.pushed hp ht hpend
            fun _ he => Sent.noConfusion he
    | finish n now =>
      obtain rfl : m = n := hm
      obtain ⟨p, t, hp, ht, hpend, rfl⟩ := finish_cases h
      exact Or.inr (by rw [setPass_pass_self]; exact .finish hp ht hpend)
    | stop n =>
      obtain rfl : m = n := hm
      obtain ⟨p, hp, ht, hb, hshard, rfl⟩ := stop_cases h
      exact Or.inr (by rw [modify_self]; exact .stop hp ht hb hshard)
    | replicaWrite n now key v =>
      obtain rfl := Option.some.inj h
      exact Or.inl (deliver_pass ..)
    | publish n r =>
      obtain rfl := Option.some.inj h
      exact Or.inl (modify_field Node.pass (fun _ => by rfl) s n m)
  · exact Or.inl (field_step_ne Node.pass (fun _ _ _ _ => rfl) h hm)

/-- The tables of a node. -/
def Node.tables (x : Node) : Option Published × Option Published := (x.routing, x.placedFor)

/-- A step of a pass leaves the tables of every node alone, until it returns: then the entries are
placed for its target. -/
theorem tables_step (h : step config s l = some s') (hl : ∀ n r, l ≠ .publish n r) (m : NodeId) :
    (s' m).tables = (s m).tables ∨
      ∃ p, l = .stop m ∧ (s m).pass = some p ∧ (s' m).tables = ((s m).routing, some p.target) ∧
        (s' m).pass = none := by
  have hset (s : System) (n : NodeId) (p : Option Pass) :
      (setPass s n p m).tables = (s m).tables := modify_field Node.tables (fun _ => by rfl) s n m
  have hdeliver (s : System) (n : NodeId) (now : Time) (key : Key) (v : VersionedValue) :
      (deliver s n now key v m).tables = (s m).tables :=
    modify_field Node.tables (fun _ => by rfl) s n m
  have hhint (s : System) (n : NodeId) (now : Time) (r : NodeId) (t : Turn) :
      (hint config s n now r t m).tables = (s m).tables :=
    modify_field Node.tables (fun _ => by rfl) s n m
  cases l with
  | start n =>
    rcases start_cases h with rfl | ⟨target, -, -, -, rfl⟩
    · exact Or.inl rfl
    · exact Or.inl (hset ..)
  | snapshot n now =>
    obtain ⟨p, -, -, -, -, rfl⟩ := snapshot_cases h
    exact Or.inl (hset ..)
  | begin n =>
    obtain ⟨p, key, value, rest, -, -, -, rfl⟩ := beginTurn_cases h
    exact Or.inl (hset ..)
  | push n sent =>
    obtain ⟨p, t, node, rest, -, -, -, hcases⟩ := push_cases h
    rcases hcases with ⟨-, rfl⟩ | ⟨-, -, rfl⟩ | ⟨-, -, hcases⟩
    · exact Or.inl (hset ..)
    · exact Or.inl (hset ..)
    · rcases hcases with ⟨now, -, rfl⟩ | ⟨now, hintNow, -, rfl⟩ | ⟨hintNow, -, rfl⟩
      · exact Or.inl (by rw [hset, hdeliver])
      · exact Or.inl (by rw [hset, hhint, hdeliver])
      · exact Or.inl (by rw [hset, hhint])
  | finish n now =>
    obtain ⟨p, t, -, -, -, rfl⟩ := finish_cases h
    rw [hset]
    split
    · exact Or.inl (modify_field Node.tables (fun _ => by rfl) s n m)
    · exact Or.inl rfl
  | stop n =>
    -- the end of a pass is the only step that changes a table
    obtain ⟨p, hp, -, -, -, rfl⟩ := stop_cases h
    by_cases hm : m = n
    · subst hm
      exact Or.inr ⟨p, rfl, hp, by rw [modify_self]; rfl, by rw [modify_self]⟩
    · exact Or.inl (by rw [modify_ne _ _ hm])
  | replicaWrite n now key v =>
    obtain rfl := Option.some.inj h
    exact Or.inl (hdeliver ..)
  | publish n r => exact absurd rfl (hl n r)

/-! ## Where a turn stands -/

/-- A turn on node `n` has taken up the nodes `visited` of the preference list of its key. -/
structure Turn.At (n : NodeId) (previous : Option Published) (target : Published)
    (visited : List CacheNode) (t : Turn) : Prop where
  old : t.oldOwners = Rebalance.oldOwners previous t.key
  list : target.table.preferenceList t.key = visited ++ t.pending
  owner : t.stillOwner = true ↔ n ∈ visited.map CacheNode.id

theorem Pass.at_turnOf (n : NodeId) (p : Pass) (key : Key) (value : VersionedValue) :
    (p.turnOf key value).At n p.previous p.target [] where
  old := rfl
  list := rfl
  owner := by simp [Pass.turnOf]

section

variable {previous : Option Published} {target : Published} {t : Turn}
  {visited rest : List CacheNode} {node : CacheNode}

/-- The next node of the list is taken up. -/
theorem Turn.At.push (h : t.At n previous target visited) (hpend : t.pending = node :: rest)
    (handedOff : Bool) :
    Turn.At n previous target (visited ++ [node]) { t with
      pending := rest
      stillOwner := t.stillOwner || decide (node.id = n)
      handedOff := handedOff } where
  old := h.old
  list := by
    rw [h.list, hpend, List.append_assoc]
    rfl
  owner := by
    rw [Bool.or_eq_true, h.owner, decide_eq_true_eq, List.map_append, List.mem_append,
      List.map_singleton, List.mem_singleton, eq_comm (a := n)]

/-- A turn that drops its key, at the end of the list, is on a node that is not on the list. -/
theorem Turn.At.not_mem (h : t.At n previous target visited) (hpend : t.pending = [])
    (hdrops : t.drops = true) : n ∉ target.table.replicaIds t.key := by
  rw [RoutingTable.replicaIds, h.list, hpend, List.append_nil, ← h.owner]
  simp only [Turn.drops, Bool.and_eq_true, Bool.not_eq_true'] at hdrops
  simp [hdrops.1]

end

/-- Every turn stands somewhere in the preference list of its key. -/
theorem turnAt_step (h : step config s l = some s')
    (hs : ∀ p t, (s n).pass = some p → p.turn = some t → ∃ visited, t.At n p.previous p.target visited)
    (p : Pass) (t : Turn) (hp : (s' n).pass = some p) (ht : p.turn = some t) :
    ∃ visited, t.At n p.previous p.target visited := by
  rcases pass_step h n with hsame | hmove
  · exact hs p t (hsame ▸ hp) ht
  · rw [hp] at hmove
    cases hmove with
    | start idle routing stale => simp at ht
    | snapshot running turn batch shard => simp [turn] at ht
    | begin running turn batch =>
      obtain rfl := Option.some.inj ht
      exact ⟨[], Pass.at_turnOf n _ _ _⟩
    | push handedOff pushed running turn pending acked =>
      obtain rfl := Option.some.inj ht
      obtain ⟨visited, hv⟩ := hs _ _ running turn
      exact ⟨_, hv.push pending handedOff⟩
    | finish running turn pending => simp at ht

end ShardCache.Rebalance
