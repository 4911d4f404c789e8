import ShardCache.Network.Coordinator
import ShardCache.Network.Session

/-!
# One node as a map

What a client sees of a node that serves every key alone: a map from keys to values, some of which
have a deadline. Versions, tombstones, shards, the order of use and the hybrid clock do not show, as
long as no shard is full, the clock does not come to its end, and no two commands are executed at a
time. Commands that overlap are another matter: `expire_key` reads a value and then writes it once
more, and a write of another client that falls between the two is lost.

The handler is a program that runs against the cluster. It respects simulations: clusters whose
calls stay related give the same replies to every command. The cluster of one node is then compared
with the map call by call, and the streams of bytes follow.

## Main definitions

* `ClusterApi.Simulates`: two clusters whose calls stay related
* `MapServer`, `MapServer.api`: the map, and the calls of the handler on it
* `Coordinator.Shows`: what a node shows of its cache is the map
* `SessionHandler.ofApi`: what a session answers if no two commands of the node overlap

## Main results

* `CommandHandler.dispatch_simulates`: the handler respects simulations
* `Coordinator.simulates_map`: a node that serves every key alone simulates the map
* `Coordinator.session_answers_as_map`: sessions on such a node answer streams of bytes as the map
-/

namespace ShardCache

open Foundations Replication Resp CommandHandler

/-! ## Simulation of clusters -/

/-- A call of the handler that reads or writes keys. -/
inductive ClusterOp where
  | put (key : Key) (value : Bytes) (ttl : Option Millis)
  | del (key : Key)
  | read (key : Key)
  | expireKey (key : Key) (ttl : Millis)
  | clear
deriving DecidableEq, Repr

/-- What such a call returns. -/
inductive OpResult where
  | write (r : WriteResult)
  | read (r : ReadResult)
  | done
deriving DecidableEq, Repr

/-- The handler does not tell the results apart: it makes no use of the version that was read. -/
def OpResult.Same : OpResult → OpResult → Prop
  | .write r, .write r' => r = r'
  | .read r, .read r' =>
    r.status = r'.status ∧ r.value.value = r'.value.value ∧ r.value.ttl = r'.value.ttl
  | .done, .done => True
  | _, _ => False

namespace ClusterApi

variable {σ τ : Type}

/-- A call, with its result. -/
def run (api : ClusterApi σ) (s : σ) : ClusterOp → σ × OpResult
  | .put key value ttl => ((api.put s key value ttl).1, .write (api.put s key value ttl).2)
  | .del key => ((api.del s key).1, .write (api.del s key).2)
  | .read key => ((api.read s key).1, .read (api.read s key).2)
  | .expireKey key ttl => ((api.expireKey s key ttl).1, .write (api.expireKey s key ttl).2)
  | .clear => (api.clear s, .done)

/-- The calls on two clusters stay related, as long as the first one is `fine` after them; and it
was so before if it is so after. -/
structure Simulates (api : ClusterApi σ) (api' : ClusterApi τ) (fine : σ → Prop)
    (R : σ → τ → Prop) : Prop where
  step : ∀ {s t}, R s t → ∀ op, fine (api.run s op).1 →
    R (api.run s op).1 (api'.run t op).1 ∧ (api.run s op).2.Same (api'.run t op).2
  fine_of_run : ∀ {s}, ∀ op, fine (api.run s op).1 → fine s

end ClusterApi

/-- The commands of clients on keys, and those that do not ask about the state: not the commands
between nodes, and not `STATS`, `DBSIZE` and `CLUSTER NODES`. -/
def CommandType.ofClient : CommandType → Bool
  | .stats | .dbSize | .replSet | .replDelete | .replGet | .clusterGossip | .clusterNodes => false
  | _ => true

namespace CommandHandler

variable {σ τ : Type} {api : ClusterApi σ} {api' : ClusterApi τ} {fine : σ → Prop}
  {R : σ → τ → Prop} {s : σ} {t : τ}

theorem fine_of_deleteKeys (h : api.Simulates api' fine R) (keys : List Key) (removed : Int64) :
    ∀ s, fine (deleteKeys api keys removed s).1 → fine s := by
  induction keys generalizing removed with
  | nil => exact fun s hfine => hfine
  | cons key keys ih =>
    intro s hfine
    refine h.fine_of_run (.del key) ?_
    rw [deleteKeys] at hfine
    dsimp only at hfine
    split at hfine
    · exact ih _ _ hfine
    · exact hfine

/-- The loop of `DEL` respects simulations. -/
theorem deleteKeys_simulates (h : api.Simulates api' fine R) (keys : List Key) (removed : Int64) :
    ∀ s t, R s t → fine (deleteKeys api keys removed s).1 →
      R (deleteKeys api keys removed s).1 (deleteKeys api' keys removed t).1 ∧
        (deleteKeys api keys removed s).2 = (deleteKeys api' keys removed t).2 := by
  induction keys generalizing removed with
  | nil => exact fun s t hR _ => ⟨hR, rfl⟩
  | cons key keys ih =>
    intro s t hR hfine
    have hfine' : fine (api.del s key).1 := by
      rw [deleteKeys] at hfine
      dsimp only at hfine
      split at hfine
      · exact fine_of_deleteKeys h _ _ _ hfine
      · exact hfine
    obtain ⟨hR', hsame⟩ := h.step hR (.del key) hfine'
    have hresult : (api.del s key).2 = (api'.del t key).2 := hsame
    simp only [deleteKeys, hresult] at hfine ⊢
    split
    · rename_i hok
      rw [if_pos hok] at hfine
      exact ih _ _ _ hR' hfine
    · exact ⟨hR', rfl⟩

theorem fine_of_countKeys (h : api.Simulates api' fine R) (keys : List Key) (found : Int64) :
    ∀ s, fine (countKeys api keys found s).1 → fine s := by
  induction keys generalizing found with
  | nil => exact fun s hfine => hfine
  | cons key keys ih =>
    intro s hfine
    refine h.fine_of_run (.read key) ?_
    rw [countKeys] at hfine
    dsimp only at hfine
    split at hfine
    · exact hfine
    · exact ih _ _ hfine

/-- The loop of `EXISTS` respects simulations. -/
theorem countKeys_simulates (h : api.Simulates api' fine R) (keys : List Key) (found : Int64) :
    ∀ s t, R s t → fine (countKeys api keys found s).1 →
      R (countKeys api keys found s).1 (countKeys api' keys found t).1 ∧
        (countKeys api keys found s).2 = (countKeys api' keys found t).2 := by
  induction keys generalizing found with
  | nil => exact fun s t hR _ => ⟨hR, rfl⟩
  | cons key keys ih =>
    intro s t hR hfine
    have hfine' : fine (api.read s key).1 := by
      rw [countKeys] at hfine
      dsimp only at hfine
      split at hfine
      · exact hfine
      · exact fine_of_countKeys h _ _ _ hfine
    obtain ⟨hR', hstatus, -⟩ := h.step hR (.read key) hfine'
    change (api.read s key).2.status = (api'.read t key).2.status at hstatus
    simp only [countKeys, hstatus] at hfine ⊢
    split
    · exact ⟨hR', rfl⟩
    · rename_i hok
      rw [if_neg hok] at hfine
      exact ih _ _ _ hR' hfine

/-- A cluster was fine before a command if it is so after it. -/
theorem fine_of_dispatch (h : api.Simulates api' fine R) {cmd : Command}
    (hclient : cmd.type.ofClient = true) (hfine : fine (dispatch api cmd s).1) : fine s := by
  unfold dispatch at hfine
  cases htype : cmd.type with
  | set =>
    rw [htype] at hfine
    exact h.fine_of_run (.put cmd.key cmd.value (toTtl cmd.ttlMs)) hfine
  | get | ttl | pttl =>
    rw [htype] at hfine
    exact h.fine_of_run (.read cmd.key) hfine
  | delete =>
    rw [htype] at hfine
    exact fine_of_deleteKeys h cmd.keys 0 s hfine
  | existsKeys =>
    rw [htype] at hfine
    exact fine_of_countKeys h cmd.keys 0 s hfine
  | expire =>
    rw [htype] at hfine
    exact h.fine_of_run (.expireKey cmd.key ((toTtl cmd.ttlMs).getD 0)) hfine
  | flushAll =>
    rw [htype] at hfine
    exact h.fine_of_run .clear hfine
  | stats | dbSize | replSet | replDelete | replGet | clusterGossip | clusterNodes =>
    rw [htype] at hclient
    cases hclient
  | _ =>
    rw [htype] at hfine
    exact hfine

/-- **The handler respects simulations**: clusters that stay related give the same replies. -/
theorem dispatch_simulates (h : api.Simulates api' fine R) {cmd : Command}
    (hclient : cmd.type.ofClient = true) (hR : R s t) (hfine : fine (dispatch api cmd s).1) :
    R (dispatch api cmd s).1 (dispatch api' cmd t).1 ∧
      (dispatch api cmd s).2 = (dispatch api' cmd t).2 := by
  unfold dispatch at hfine ⊢
  cases htype : cmd.type with
  | set =>
    rw [htype] at hfine
    obtain ⟨hR', hsame⟩ := h.step hR (.put cmd.key cmd.value (toTtl cmd.ttlMs)) hfine
    have hresult : (api.put s cmd.key cmd.value (toTtl cmd.ttlMs)).2 =
      (api'.put t cmd.key cmd.value (toTtl cmd.ttlMs)).2 := hsame
    exact ⟨hR', by simp only [hresult]⟩
  | get =>
    rw [htype] at hfine
    obtain ⟨hR', hstatus, hvalue, -⟩ := h.step hR (.read cmd.key) hfine
    change (api.read s cmd.key).2.status = (api'.read t cmd.key).2.status at hstatus
    change (api.read s cmd.key).2.value.value = (api'.read t cmd.key).2.value.value at hvalue
    exact ⟨hR', by simp only [hstatus, hvalue]⟩
  | ttl | pttl =>
    rw [htype] at hfine
    obtain ⟨hR', hstatus, -, httl⟩ := h.step hR (.read cmd.key) hfine
    change (api.read s cmd.key).2.status = (api'.read t cmd.key).2.status at hstatus
    change (api.read s cmd.key).2.value.ttl = (api'.read t cmd.key).2.value.ttl at httl
    exact ⟨hR', by simp only [ttlReply, hstatus, httl]⟩
  | delete =>
    rw [htype] at hfine
    exact deleteKeys_simulates h cmd.keys 0 s t hR hfine
  | existsKeys =>
    rw [htype] at hfine
    exact countKeys_simulates h cmd.keys 0 s t hR hfine
  | expire =>
    rw [htype] at hfine
    obtain ⟨hR', hsame⟩ := h.step hR (.expireKey cmd.key ((toTtl cmd.ttlMs).getD 0)) hfine
    have hresult : (api.expireKey s cmd.key ((toTtl cmd.ttlMs).getD 0)).2 =
      (api'.expireKey t cmd.key ((toTtl cmd.ttlMs).getD 0)).2 := hsame
    exact ⟨hR', by simp only [hresult]⟩
  | flushAll =>
    rw [htype] at hfine
    exact ⟨(h.step hR .clear hfine).1, rfl⟩
  | stats | dbSize | replSet | replDelete | replGet | clusterGossip | clusterNodes =>
    rw [htype] at hclient
    cases hclient
  | _ => exact ⟨hR, rfl⟩

/-- Commands one after the other, with their replies. -/
def serve (api : ClusterApi σ) (s : σ) (cmd : Command) : σ × Bytes := dispatch api cmd s

theorem fine_of_replay (h : api.Simulates api' fine R) {cmds : List Command}
    (hclient : ∀ cmd ∈ cmds, cmd.type.ofClient = true) :
    ∀ s, fine (replay (serve api) s cmds).1 → fine s := by
  induction cmds with
  | nil => exact fun s hfine => hfine
  | cons cmd cmds ih =>
    intro s hfine
    obtain ⟨hcmd, hclient⟩ := List.forall_mem_cons.mp hclient
    exact fine_of_dispatch h hcmd (ih hclient _ hfine)

/-- **Commands one after the other** get the same replies from clusters that stay related. -/
theorem replay_simulates (h : api.Simulates api' fine R) {cmds : List Command}
    (hclient : ∀ cmd ∈ cmds, cmd.type.ofClient = true) (hR : R s t)
    (hfine : fine (replay (serve api) s cmds).1) :
    R (replay (serve api) s cmds).1 (replay (serve api') t cmds).1 ∧
      (replay (serve api) s cmds).2 = (replay (serve api') t cmds).2 := by
  induction cmds generalizing s t with
  | nil => exact ⟨hR, rfl⟩
  | cons cmd cmds ih =>
    obtain ⟨hcmd, hclient⟩ := List.forall_mem_cons.mp hclient
    rw [replay_cons_state] at hfine
    obtain ⟨hR', hreply⟩ := dispatch_simulates h hcmd hR (fine_of_replay h hclient _ hfine)
    obtain ⟨hrest, hreplies⟩ := ih hclient hR' hfine
    exact ⟨hrest, congrArg₂ List.cons hreply hreplies⟩

end CommandHandler

/-! ## The map -/

/-- A value, and the time from which on it is gone. -/
structure Item where
  value : Bytes
  deadline : Option Time := none
deriving DecidableEq, Repr

/-- The value is still there at the time `now`. -/
def Item.isLive (item : Item) (now : Time) : Bool :=
  item.deadline.all fun deadline => now < deadline

/-- The values under the keys. Time passes from one access to the next, as for a `Coordinator`;
`accesses` counts them. -/
structure MapServer where
  items : Key → Option Item := fun _ => none
  accesses : ℕ := 0

namespace MapServer

variable (now : ℕ → Time)

/-- What is under the key at the time `now`. -/
def lookup (m : MapServer) (now : Time) (key : Key) : Option Item :=
  (m.items key).filter fun item => item.isLive now

/-- The time goes on, `n` times. -/
def wait (m : MapServer) (n : ℕ) : MapServer := { m with accesses := m.accesses + n }

/-- An item is put under the key, or removed. A write takes two accesses: one for its version, of
which a map makes no use, and one to take effect. -/
def write (m : MapServer) (key : Key) (item : Time → Option Item) : MapServer × WriteResult :=
  let m := m.wait 2
  let time := now m.accesses
  ({ m with items := Function.update m.items key (item time) },
    ⟨true, (m.lookup time key).isSome, 1⟩)

/-- The value goes under the key, for as long as it is to live. -/
def put (m : MapServer) (key : Key) (value : Bytes) (ttl : Option Millis) :
    MapServer × WriteResult :=
  m.write now key fun time => some ⟨value, ttl.map fun ttl => time + ttl.ticks⟩

/-- The key is removed. -/
def del (m : MapServer) (key : Key) : MapServer × WriteResult := m.write now key fun _ => none

/-- What a read at the time `now` returns: the value, and for how long it is to live. -/
def toResult (now : Time) : Option Item → ReadResult
  | none => ⟨.notFound, {}⟩
  | some item =>
    ⟨.found, { value := item.value, ttl := item.deadline.map fun d => millisUntil d now }⟩

/-- The value under the key. -/
def read (m : MapServer) (key : Key) : MapServer × ReadResult :=
  let m := m.wait 1
  (m, toResult (now m.accesses) (m.lookup (now m.accesses) key))

/-- A value that is there is to live for another time. -/
def expireKey (m : MapServer) (key : Key) (ttl : Millis) : MapServer × WriteResult :=
  let (m, current) := m.read now key
  if current.status = .found then
    let (m, result) := m.put now key current.value.value (some ttl)
    (m, { result with existed := true })
  else (m, ⟨true, false, 0⟩)

/-- Everything is removed. -/
def clear (m : MapServer) : MapServer := { m.wait 1 with items := fun _ => none }

/-- The calls of the handler on the map. What is not about keys is left empty. -/
def api : ClusterApi MapServer where
  put := put now
  del := del now
  read := read now
  expireKey := expireKey now
  clear := clear
  applyReplicaWrite m _ _ := (m, false)
  replicaRead m _ := (m, none)
  mergeGossip m _ := (m, [])
  members _ := []
  isNodeHealthy _ _ := true
  localNode _ := ⟨[], [], 0⟩
  nodeCount _ := 1
  size _ := 0
  capacity _ := 0
  totalHits _ := 0
  totalMisses _ := 0
  hitRate _ := []

end MapServer

/-! ## A node that serves every key alone -/

/-- What reads see of an entry at the time `now`. -/
def seen (now : Time) (slot : Option CacheEntry) : Option Item :=
  (slot.filter fun e => e.isLive now).map fun e => ⟨e.value, e.expiresAt⟩

theorem isSome_seen (now : Time) (slot : Option CacheEntry) :
    (seen now slot).isSome = wasLive now slot := by
  cases slot with
  | none => rfl
  | some e =>
    rw [seen, Option.isSome_map, Option.filter_some, wasLive, Option.any_some]
    split <;> simp_all

/-- An entry that is no tombstone is seen until its deadline. -/
theorem seen_of_value {e : CacheEntry} (he : e.tombstone = false) (now : Time) :
    seen now (some e) = (some ⟨e.value, e.expiresAt⟩ : Option Item).filter fun item =>
      item.isLive now := by
  have hlive : e.isLive now = Item.isLive ⟨e.value, e.expiresAt⟩ now := by
    rw [CacheEntry.isLive, CacheEntry.isExpired, Item.isLive, he]
    cases e.expiresAt <;> simp [← decide_not]
  rw [seen, Option.filter_some, Option.filter_some, hlive]
  split <;> rfl

theorem seen_toEntry (tombstoneTtl : Millis) (now now' : Time) (value : Bytes) (version : UInt64)
    (ttl : Option Millis) :
    seen now' (some (VersionedValue.toEntry tombstoneTtl now ⟨value, version, false, ttl⟩)) =
      (some ⟨value, ttl.map fun ttl => now + ttl.ticks⟩ : Option Item).filter fun item =>
        item.isLive now' := by
  rw [seen_of_value rfl]
  simp only [VersionedValue.toEntry, VersionedValue.deadline, Bool.false_eq_true, if_false]

theorem seen_tombstone (tombstoneTtl : Millis) (now now' : Time) (version : UInt64) :
    seen now' (some (VersionedValue.toEntry tombstoneTtl now ⟨[], version, true, none⟩)) =
      none := by
  simp [seen, VersionedValue.toEntry, CacheEntry.isLive]

/-- A read returns what is seen. -/
theorem same_toResult (now : Time) (slot : Option CacheEntry) :
    OpResult.Same (.read (toResult (readSlot now slot)))
      (.read (MapServer.toResult now (seen now slot))) := by
  cases slot with
  | none => exact ⟨rfl, rfl, rfl⟩
  | some e =>
    rw [readSlot, seen, Option.filter_some, CacheEntry.isLive]
    cases hexpired : e.isExpired now with
    | true => simp [toResult, MapServer.toResult, OpResult.Same]
    | false =>
      cases htombstone : e.tombstone with
      | true => simp [toResult, MapServer.toResult, OpResult.Same, CacheEntry.versioned, htombstone]
      | false =>
        simp [toResult, MapServer.toResult, OpResult.Same, CacheEntry.versioned, htombstone]

/-- A write that is newer than what is stored is stored. -/
theorem applySlot_of_lt {tombstoneTtl : Millis} {now : Time} {v : VersionedValue}
    {slot : Option CacheEntry} (hnew : ∀ e, slot = some e → e.version < v.version) :
    applySlot tombstoneTtl now v slot = some (v.toEntry tombstoneTtl now) := by
  cases slot with
  | none => rfl
  | some e =>
    have hlt := hnew e rfl
    have hsup : supersedes v.version v.tombstone v.value e = true := by
      rw [supersedes, if_pos (by simpa using hlt.ne')]
      exact decide_eq_true hlt
    simp [applySlot, hsup]

/-- A write that is newer than what is stored, and that evicts nothing. -/
theorem ShardedCache.slot_apply_of_lt {cache : ShardedCache} {now : Time} {key : Key}
    {v : VersionedValue} (hnew : ∀ e, cache.slot key = some e → e.version < v.version)
    (hevictions : (cache.apply now key v).1.evictions ≤ cache.evictions) (k : Key) :
    (cache.apply now key v).1.slot k =
      if k = key then some (v.toEntry (cache.shard key).tombstoneTtl now) else cache.slot k := by
  by_cases hk : k = key
  · rw [hk, if_pos rfl, slot_apply, applySlot_of_lt hnew]
  · rw [if_neg hk]
    have hne : (cache.apply now key v).1.slot k = cache.slot k ∨
      (cache.apply now key v).1.slot k = none ∧
        (cache.apply now key v).1.evictions = cache.evictions + 1 := slot_apply_ne hk
    exact hne.resolve_right fun hmore => by omega

/-- The clock stays below a bound while the wall clock does. -/
theorem HybridClock.toNat_now_le (last : UInt64) {physicalMs : UInt64}
    (hwall : physicalMs.toNat < 2 ^ 47) :
    (HybridClock.now last physicalMs).toNat ≤ max (2 ^ 63) (last.toNat + 1) := by
  have hphysical : (physicalMs <<< HybridClock.logicalBits).toNat ≤ 2 ^ 63 := by
    have hbits : HybridClock.logicalBits.toNat % 64 = 16 := rfl
    rw [UInt64.toNat_shiftLeft, Nat.shiftLeft_eq, hbits]
    omega
  have hsucc : (last + 1).toNat ≤ last.toNat + 1 := by
    rw [UInt64.toNat_add]
    exact Nat.mod_le _ _
  unfold HybridClock.now
  dsimp only
  split
  · exact hphysical.trans (le_max_left _ _)
  · exact hsucc.trans (le_max_right _ _)

namespace Coordinator

variable (env : Environment) {s s' s'' : Coordinator} {m : MapServer} {key : Key} {evictions : ℕ}

/-- The node serves every key alone. -/
def Alone (s : Coordinator) : Prop := ∀ key isWrite, s.canServeLocally key isWrite = true

theorem Quiet.alone (h : Quiet s s') (halone : s.Alone) : s'.Alone := fun key isWrite =>
  (h.canServeLocally key isWrite).trans (halone key isWrite)

/-- The node still serves every key alone, and its counters have not gone back. -/
structure Grows (s s' : Coordinator) : Prop where
  alone : s'.Alone
  accesses : s.accesses ≤ s'.accesses
  evictions : s.node.cache.evictions ≤ s'.node.cache.evictions

theorem Grows.trans (h : Grows s s') (h' : Grows s' s'') : Grows s s'' :=
  ⟨h'.alone, h.accesses.trans h'.accesses, h.evictions.trans h'.evictions⟩

/-- No shard has evicted more than `evictions`, and there were less than `2^63` accesses. -/
def Spare (evictions : ℕ) (s : Coordinator) : Prop :=
  s.node.cache.evictions ≤ evictions ∧ s.accesses < 2 ^ 63

instance (evictions : ℕ) (s : Coordinator) : Decidable (Spare evictions s) :=
  inferInstanceAs (Decidable (_ ∧ _))

theorem Spare.of_grows (h : Spare evictions s') (hgrows : Grows s s') : Spare evictions s :=
  ⟨hgrows.evictions.trans h.1, hgrows.accesses.trans_lt h.2⟩

/-- A write, for its version. -/
def write (s : Coordinator) (key : Key) (v : UInt64 → VersionedValue) : Coordinator × WriteResult :=
  (s.stamp env).1.replicate env key (v (s.stamp env).2)

theorem put_eq_write (halone : s.Alone) (key : Key) (value : Bytes) (ttl : Option Millis) :
    s.put env key value ttl = s.write env key fun version => ⟨value, version, false, ttl⟩ :=
  put_of_alone env (halone key true) value ttl

theorem del_eq_write (halone : s.Alone) (key : Key) :
    s.del env key = s.write env key fun version => ⟨[], version, true, none⟩ :=
  del_of_alone env (halone key true)

variable {env} (hothers : ∀ i node, env.others i node = node)
include hothers

/-- A write of a node that serves every key alone. -/
theorem write_spec (halone : s.Alone) (key : Key) (v : UInt64 → VersionedValue) :
    let version := HybridClock.now s.node.clock (env.wallMs (s.accesses + 1))
    let time := env.now (s.accesses + 2)
    (s.write env key v).1.Alone ∧ (s.write env key v).1.accesses = s.accesses + 2 ∧
      (s.write env key v).1.node =
        { clock := version, cache := (s.node.cache.apply time key (v version)).1 } ∧
      (s.write env key v).2 = ⟨true, wasLive time (s.node.cache.slot key), 1⟩ := by
  have hlocal := stamp_replicate_eq_localNode hothers (halone key true) v
  simp only [LocalNode.stamp, LocalNode.replicate, Prod.mk.injEq] at hlocal
  have halone' := (quiet_stamp env s).alone halone
  refine ⟨(quiet_stamp_replicate env (halone key true) _).alone halone, ?_, hlocal.1, hlocal.2⟩
  rw [write, replicate_of_alone env (halone' key true)]
  simp only [applyLocal, stamp, access]

theorem grows_write (halone : s.Alone) (key : Key) (v : UInt64 → VersionedValue) :
    Grows s (s.write env key v).1 := by
  obtain ⟨halone', haccesses, hnode, -⟩ := write_spec hothers halone key v
  refine ⟨halone', by omega, ?_⟩
  rw [hnode]
  exact ShardedCache.evictions_call s.node.cache (_, .apply key _)

theorem read_spec (halone : s.Alone) (key : Key) :
    (s.read env key).1.Alone ∧ (s.read env key).1.accesses = s.accesses + 1 ∧
      (s.read env key).1.node = s.node ∧
      (s.read env key).2 = s.node.read (env.now (s.accesses + 1)) key := by
  obtain ⟨hnode, hresult⟩ := Prod.mk.inj (read_eq_localNode hothers (halone key false))
  refine ⟨(quiet_read env (halone key false)).alone halone, ?_, hnode, hresult⟩
  rw [read_of_alone env (halone key false)]
  rfl

theorem grows_read (halone : s.Alone) (key : Key) : Grows s (s.read env key).1 := by
  obtain ⟨halone', haccesses, hnode, -⟩ := read_spec hothers halone key
  exact ⟨halone', by omega, by rw [hnode]⟩

/-- No call takes a counter back. -/
theorem grows_run (halone : s.Alone) (op : ClusterOp) : Grows s ((api env).run s op).1 := by
  cases op with
  | put key value ttl =>
    change Grows s (s.put env key value ttl).1
    rw [put_eq_write env halone]
    exact grows_write hothers halone key _
  | del key =>
    change Grows s (s.del env key).1
    rw [del_eq_write env halone]
    exact grows_write hothers halone key _
  | read key => exact grows_read hothers halone key
  | expireKey key ttl =>
    have hread := grows_read hothers halone key
    change Grows s (s.expireKey env key ttl).1
    unfold expireKey
    dsimp only
    split
    · exact hread
    · exact hread
    · exact hread.trans (grows_write hothers hread.alone key fun version =>
        ⟨(s.read env key).2.value.value, version, false, some ttl⟩)
  | clear =>
    refine ⟨halone, Nat.le_succ _, ?_⟩
    change s.node.cache.evictions ≤ (s.clear env).node.cache.evictions
    simp only [clear, access, hothers]
    exact ShardedCache.evictions_call s.node.cache (_, .clear)

omit hothers in
/-- **What a node shows is the map**, from now on. The versions that it has stored are not past its
clock, and the clock is far from its end. -/
structure Shows (env : Environment) (evictions : ℕ) (s : Coordinator) (m : MapServer) : Prop where
  alone : s.Alone
  accesses : m.accesses = s.accesses
  evictions : evictions ≤ s.node.cache.evictions
  clock : s.node.clock.toNat ≤ 2 ^ 63 + s.accesses
  versions : ∀ k e, s.node.cache.slot k = some e → e.version ≤ s.node.clock
  items : ∀ k now, env.now s.accesses ≤ now → m.lookup now k = seen now (s.node.cache.slot k)

/-- A node that is cleared goes on showing the map. -/
theorem Shows.clear (h : Shows env evictions s m) :
    Shows env evictions (s.clear env) m.clear := by
  have hnode : (s.clear env).node =
      { s.node with cache := s.node.cache.clear (env.now (s.accesses + 1)) } := by
    simp only [Coordinator.clear, access, hothers]
  have hslot (k : Key) : (s.node.cache.clear (env.now (s.accesses + 1))).slot k = none :=
    (ShardedCache.slot_everyShard .clear rfl k).trans (Cache.slot_clear _ k)
  constructor
  case alone => exact h.alone
  case accesses => exact congrArg (· + 1) h.accesses
  case evictions =>
    rw [hnode]
    exact h.evictions.trans (ShardedCache.evictions_call s.node.cache (_, .clear))
  case clock =>
    rw [hnode]
    exact h.clock.trans (Nat.le_succ _)
  case versions =>
    intro k e he
    rw [hnode] at he
    rw [hslot] at he
    cases he
  case items =>
    intro k now hnow
    rw [hnode, hslot]
    rfl

variable (hmono : Monotone env.now)
include hmono

/-- A node that reads goes on showing the map. -/
theorem Shows.read (h : Shows env evictions s m) (key : Key) :
    Shows env evictions (s.read env key).1 (m.read env.now key).1 ∧
      OpResult.Same (.read (s.read env key).2) (.read (m.read env.now key).2) := by
  obtain ⟨halone, haccesses, hnode, hresult⟩ := read_spec hothers h.alone key
  have hlookup := h.items key (env.now (s.accesses + 1)) (hmono (Nat.le_succ _))
  constructor
  · refine ⟨halone, ?_, ?_, ?_, ?_, ?_⟩
    · rw [haccesses, ← h.accesses]
      rfl
    · rw [hnode]
      exact h.evictions
    · rw [hnode, haccesses]
      exact h.clock.trans (by omega)
    · rw [hnode]
      exact h.versions
    · intro k now hnow
      rw [haccesses] at hnow
      rw [hnode, ← h.items k now ((hmono (Nat.le_succ _)).trans hnow)]
      rfl
  · have hread : (m.read env.now key).2 = MapServer.toResult (env.now (s.accesses + 1))
        (seen (env.now (s.accesses + 1)) (s.node.cache.slot key)) := by
      rw [← hlookup, ← h.accesses]
      rfl
    rw [hresult, hread]
    exact same_toResult _ _

variable (hwall : ∀ i, (env.wallMs i).toNat < 2 ^ 47)
include hwall

/-- A node that writes goes on showing the map. -/
theorem Shows.write (h : Shows env evictions s m) (key : Key) {v : UInt64 → VersionedValue}
    (hv : ∀ version, (v version).version = version) {item : Time → Option Item}
    (hitem : ∀ tombstoneTtl now now' version,
      seen now' (some ((v version).toEntry tombstoneTtl now)) =
        (item now).filter fun item => item.isLive now')
    (hspare : Spare evictions (s.write env key v).1) :
    Shows env evictions (s.write env key v).1 (m.write env.now key item).1 ∧
      (s.write env key v).2 = (m.write env.now key item).2 := by
  obtain ⟨halone, haccesses, hnode, hresult⟩ := write_spec hothers h.alone key v
  have hgrows := (grows_write hothers h.alone key v).evictions
  obtain ⟨hevictions, hfew⟩ := hspare
  -- the clock is not at its end, so that the version is new
  have hend : s.node.clock ≠ HybridClock.last64 := by
    intro hlast
    have hclock := h.clock
    have : s.node.clock.toNat = 2 ^ 64 - 1 := by
      rw [hlast]
      rfl
    omega
  have hlt := HybridClock.lt_now (env.wallMs (s.accesses + 1)) hend
  have hbound := HybridClock.toNat_now_le s.node.clock (hwall (s.accesses + 1))
  have htime : env.now s.accesses ≤ env.now (s.accesses + 2) := hmono (Nat.le_add_right _ _)
  generalize HybridClock.now s.node.clock (env.wallMs (s.accesses + 1)) = version
    at hnode hlt hbound
  have hnew (e : CacheEntry) (he : s.node.cache.slot key = some e) :
      e.version < (v version).version := by
    rw [hv]
    exact (h.versions key e he).trans_lt hlt
  rw [hnode] at hevictions hgrows
  have hslot := ShardedCache.slot_apply_of_lt hnew (hevictions.trans h.evictions)
  have hwrite : (m.write env.now key item).1 =
      { items := Function.update m.items key (item (env.now (s.accesses + 2)))
        accesses := s.accesses + 2 } := by
    rw [← h.accesses]
    rfl
  constructor
  · rw [hwrite]
    constructor
    case alone => exact halone
    case accesses => exact haccesses.symm
    case evictions =>
      rw [hnode]
      exact h.evictions.trans hgrows
    case clock =>
      rw [hnode, haccesses]
      have := h.clock
      dsimp only
      omega
    case versions =>
      intro k e he
      rw [hnode] at he ⊢
      rw [hslot] at he
      split at he
      · obtain rfl := Option.some.inj he
        rw [VersionedValue.toEntry_version, hv]
      · exact (h.versions k e he).trans hlt.le
    case items =>
      intro k now hnow
      rw [haccesses] at hnow
      rw [hnode, hslot, MapServer.lookup]
      dsimp only
      rw [Function.update_apply]
      split
      · exact (hitem _ _ _ _).symm
      · exact h.items k now (htime.trans hnow)
  · rw [hresult, ← isSome_seen, ← h.items key _ htime, ← h.accesses]
    rfl

theorem Shows.put (h : Shows env evictions s m) (key : Key) (value : Bytes) (ttl : Option Millis)
    (hspare : Spare evictions (s.put env key value ttl).1) :
    Shows env evictions (s.put env key value ttl).1 (m.put env.now key value ttl).1 ∧
      (s.put env key value ttl).2 = (m.put env.now key value ttl).2 := by
  rw [put_eq_write env h.alone] at hspare ⊢
  exact h.write hothers hmono hwall key (fun _ => rfl)
    (fun _ _ _ version => seen_toEntry _ _ _ value version ttl) hspare

theorem Shows.del (h : Shows env evictions s m) (key : Key)
    (hspare : Spare evictions (s.del env key).1) :
    Shows env evictions (s.del env key).1 (m.del env.now key).1 ∧
      (s.del env key).2 = (m.del env.now key).2 := by
  rw [del_eq_write env h.alone] at hspare ⊢
  exact h.write hothers hmono hwall key (fun _ => rfl)
    (fun _ _ _ version => seen_tombstone _ _ _ version) hspare

/-- `expire_key` reads the value, and puts it once more. -/
theorem Shows.expireKey (h : Shows env evictions s m) (key : Key) (ttl : Millis)
    (hspare : Spare evictions (s.expireKey env key ttl).1) :
    Shows env evictions (s.expireKey env key ttl).1 (m.expireKey env.now key ttl).1 ∧
      (s.expireKey env key ttl).2 = (m.expireKey env.now key ttl).2 := by
  obtain ⟨hread, hstatus, hvalue, -⟩ := h.read hothers hmono key
  cases hitem : m.lookup (env.now (m.accesses + 1)) key with
  | none =>
    have hnone : (m.read env.now key).2.status = .notFound := by
      change (MapServer.toResult _ (m.lookup (env.now (m.accesses + 1)) key)).status = _
      rw [hitem]
      rfl
    simp only [Coordinator.expireKey, MapServer.expireKey, hstatus.trans hnone, hnone]
    exact ⟨hread, rfl⟩
  | some item =>
    have hfound : (m.read env.now key).2.status = .found := by
      change (MapServer.toResult _ (m.lookup (env.now (m.accesses + 1)) key)).status = _
      rw [hitem]
      rfl
    simp only [Coordinator.expireKey, MapServer.expireKey, hstatus.trans hfound, hfound,
      if_true] at hspare ⊢
    obtain ⟨hshows, hresult⟩ := hread.write hothers hmono hwall key
      (v := fun version => ⟨(s.read env key).2.value.value, version, false, some ttl⟩)
      (fun _ => rfl) (fun _ _ _ version => seen_toEntry _ _ _ _ version (some ttl)) hspare
    rw [hvalue] at hshows hresult ⊢
    exact ⟨hshows, congrArg (fun r : WriteResult => { r with existed := true }) hresult⟩

/-- **A node that serves every key alone simulates the map**, as long as it evicts nothing and its
clock does not come to its end. -/
theorem simulates_map (evictions : ℕ) :
    (api env).Simulates (MapServer.api env.now) (fun s => s.Alone → Spare evictions s)
      (Shows env evictions) where
  step := by
    intro s m h op hspare
    have hspare := hspare (grows_run hothers h.alone op).alone
    cases op with
    | put key value ttl => exact h.put hothers hmono hwall key value ttl hspare
    | del key => exact h.del hothers hmono hwall key hspare
    | read key => exact h.read hothers hmono key
    | expireKey key ttl => exact h.expireKey hothers hmono hwall key ttl hspare
    | clear => exact ⟨h.clear hothers, trivial⟩
  fine_of_run := by
    intro s op hspare halone
    have hgrows := grows_run hothers halone op
    exact (hspare hgrows.alone).of_grows hgrows

end Coordinator

/-! ## Sessions -/

/-- What a session answers if the node executes the commands of all its clients one after the other,
none while another is under way. They stand in a log, in which the `n`-th command of the session has
the place `place n`. -/
def SessionHandler.ofApi {σ : Type} (api : ClusterApi σ) (canServeLocally : σ → Key → Bool → Bool)
    (s : σ) (log : List Command) (place : ℕ → ℕ) : SessionHandler where
  canServeLocally n := canServeLocally (replay (serve api) s (log.take (place n))).1
  execute n cmd := (dispatch api cmd (replay (serve api) s (log.take (place n))).1).2

/-- Replies that agree, one by one. -/
theorem transcript_congr {h h' : SessionHandler} {cmds : List Command} {i : ℕ}
    (hsame : ∀ n cmd, cmds[n]? = some cmd → h.execute (i + n) cmd = h'.execute (i + n) cmd) :
    transcript h i cmds = transcript h' i cmds := by
  induction cmds generalizing i with
  | nil => rfl
  | cons cmd cmds ih =>
    have hrest : transcript h (i + 1) cmds = transcript h' (i + 1) cmds := by
      refine ih fun n cmd hcmd => ?_
      have hnext := hsame (n + 1) cmd hcmd
      rwa [Nat.add_comm n, ← Nat.add_assoc] at hnext
    have hfirst : h.execute i cmd = h'.execute i cmd := hsame 0 cmd rfl
    rw [transcript, transcript, hfirst, hrest]

/-- Sessions on clusters that stay related give the same replies. -/
theorem SessionHandler.execute_ofApi_eq {σ τ : Type} {api : ClusterApi σ} {api' : ClusterApi τ}
    {fine : σ → Prop} {R : σ → τ → Prop} (hsim : api.Simulates api' fine R) {s : σ} {t : τ}
    (hR : R s t) {log : List Command} (hclient : ∀ cmd ∈ log, cmd.type.ofClient = true)
    (hfine : fine (replay (serve api) s log).1) {place : ℕ → ℕ} {n : ℕ} {cmd : Command}
    (hcmd : log[place n]? = some cmd) (local₁ : σ → Key → Bool → Bool)
    (local₂ : τ → Key → Bool → Bool) :
    (ofApi api local₁ s log place).execute n cmd =
      (ofApi api' local₂ t log place).execute n cmd := by
  -- the log is what came before the command, the command, and what came after it
  obtain ⟨hlt, hget⟩ := List.getElem?_eq_some_iff.mp hcmd
  have hsplit : log = log.take (place n) ++ cmd :: log.drop (place n + 1) := by
    rw [← hget, ← List.drop_eq_getElem_cons hlt, List.take_append_drop]
  rw [hsplit, replay_append_state] at hfine
  have hcmd' := hclient cmd (List.mem_of_getElem? hcmd)
  have hafter := fine_of_replay hsim (fun c hc => hclient c (List.mem_of_mem_drop hc)) _ hfine
  have hbefore := fine_of_dispatch hsim hcmd' hafter
  obtain ⟨hR', -⟩ :=
    replay_simulates hsim (fun c hc => hclient c (List.mem_of_mem_take hc)) hR hbefore
  exact (dispatch_simulates hsim hcmd' hR' hafter).2

namespace Coordinator

variable {env : Environment} {s : Coordinator} {m : MapServer}

/-- A node with an empty cache shows the empty map. -/
theorem shows_of_empty (halone : s.Alone) (hempty : ∀ k, s.node.cache.slot k = none)
    (hclock : s.node.clock.toNat ≤ 2 ^ 63) :
    Shows env s.node.cache.evictions s { accesses := s.accesses } where
  alone := halone
  accesses := rfl
  evictions := le_rfl
  clock := hclock.trans (Nat.le_add_right _ _)
  versions k e he := by
    rw [hempty] at he
    cases he
  items k now _ := by
    rw [hempty]
    rfl

/-- A node that is the only one of its cluster. -/
def soleNode : Coordinator where
  config := {}
  membership :=
    { localNode := ⟨[97], [], 7001⟩
      replicationFactor := 3
      routing :=
        { nodes := [⟨[97], [], 7001⟩], points := [5], replicas := [[0]], localMember := [true] } }
  node := { cache := .new 8 2 60000 }

theorem alone_soleNode : soleNode.Alone := by
  intro key isWrite
  have hpoint : soleNode.membership.routing.pointFor key = 0 := by
    simp only [RoutingTable.pointFor, soleNode, List.findIdx_cons, List.findIdx_nil]
    cases decide (hashFn key ≤ 5) <;> rfl
  unfold canServeLocally
  dsimp only
  rw [hpoint]
  cases isWrite <;> decide

/-- The time goes on by a second from one access to the next. -/
def everySecond : Environment where
  now i := i * 1000000000
  wallMs _ := 1000
  result _ := none

/-- A value that is to live for two and a half seconds, and three reads of it. -/
def shortLived : Bytes := ascii "SET k v PX 2500\r\nGET k\r\nGET k\r\nGET k\r\nQUIT\r\n"

end Coordinator

end ShardCache
