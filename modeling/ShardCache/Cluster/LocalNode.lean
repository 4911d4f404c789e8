import ShardCache.Foundations.Run
import ShardCache.Replication.Protocol
import ShardCache.Store.Snapshot

/-!
# A node that serves alone

Where a node is the only replica of a key, it serves reads and writes of the key from its own cache:
a write is stamped by the clock of the node and applied, and it is acknowledged whether or not the
cache took it. What a put wrote can be read back if the clock is past every version that is stored
under the key. Versions enter the cache through the clock, with one exception: a snapshot is
restored into the cache without it.

## Main definitions

* `LocalNode`, `LocalNode.put`, `LocalNode.del`, `LocalNode.expireKey`, `LocalNode.read`,
  `LocalNode.applyReplicaWrite`
* `LocalOp`, `LocalNode.step`: the calls in any order, with what calls on other keys leave behind
* `PastSnapshot`: the clock is past the versions that a snapshot holds for a key

## Main results

* `LocalNode.acknowledged_put_lost`: a put after a restore that is acknowledged and lost
* `LocalNode.put_readable`: a put is readable if its stamp is past the snapshot's versions of its key
-/

namespace ShardCache

open Foundations Replication

/-- The state of a `Cluster` that serves requests from its own cache. -/
structure LocalNode where
  clock : UInt64 := 0
  cache : ShardedCache

namespace LocalNode

/-! ## Operations -/

/-- `clock_.now()`, with the wall clock in milliseconds. -/
def stamp (s : LocalNode) (wallMs : UInt64) : LocalNode :=
  { s with clock := HybridClock.now s.clock wallMs }

/-- The branch of `replicate` on the only replica of the key. -/
def replicate (s : LocalNode) (now : Time) (key : Key) (v : VersionedValue) :
    LocalNode × WriteResult :=
  ({ s with cache := (s.cache.apply now key v).1 }, ⟨true, wasLive now (s.cache.slot key), 1⟩)

/-- `Cluster::put`. -/
def put (s : LocalNode) (wallMs : UInt64) (now : Time) (key : Key) (value : Bytes)
    (ttl : Option Millis) : LocalNode × WriteResult :=
  let s := s.stamp wallMs
  s.replicate now key ⟨value, s.clock, false, ttl⟩

/-- `Cluster::del`. -/
def del (s : LocalNode) (wallMs : UInt64) (now : Time) (key : Key) : LocalNode × WriteResult :=
  let s := s.stamp wallMs
  s.replicate now key ⟨[], s.clock, true, none⟩

/-- `Cluster::read`. -/
def read (s : LocalNode) (now : Time) (key : Key) : ReadResult :=
  toResult (s.cache.getVersioned now key)

/-- `Cluster::expire_key`; the clock is read once for the read and once for the rewrite. -/
def expireKey (s : LocalNode) (wallMs : UInt64) (readAt now : Time) (key : Key) (ttl : Millis) :
    LocalNode × WriteResult :=
  let current := s.read readAt key
  match current.status with
  | .unavailable => (s, {})
  | .notFound => (s, ⟨true, false, 0⟩)
  | .found =>
    let s := s.stamp wallMs
    let (s, result) := s.replicate now key ⟨current.value.value, s.clock, false, some ttl⟩
    (s, { result with existed := true })

/-- `clock_.observe`. -/
def observe (s : LocalNode) (version : UInt64) : LocalNode :=
  { s with clock := HybridClock.observe s.clock version }

/-- `Cluster::apply_replica_write`. -/
def applyReplicaWrite (s : LocalNode) (now : Time) (key : Key) (v : VersionedValue) :
    LocalNode × Bool :=
  let s := s.observe v.version
  ({ s with cache := (s.cache.apply now key v).1 }, wasLive now (s.cache.slot key))

end LocalNode

/-- A call on the node. The last three are what calls on keys with other replicas do to this node:
they observe the versions that peers answer with, stamp versions, and apply to the local cache what
was stamped or observed before. -/
inductive LocalOp where
  | put (wallMs : UInt64) (now : Time) (key : Key) (value : Bytes) (ttl : Option Millis)
  | del (wallMs : UInt64) (now : Time) (key : Key)
  | expireKey (wallMs : UInt64) (readAt now : Time) (key : Key) (ttl : Millis)
  | read (now : Time) (key : Key)
  | applyReplicaWrite (now : Time) (key : Key) (v : VersionedValue)
  | observe (version : UInt64)
  | stamp (wallMs : UInt64)
  | localLeg (now : Time) (key : Key) (v : VersionedValue)
deriving DecidableEq, Repr

namespace LocalNode

/-- The node after a call. `place` is the placement of each key and `me` the id of the node; the
calls on keys that the node does not serve alone are the last three. -/
def step (place : Key → Placement) (me : NodeId) (s : LocalNode) : LocalOp → Option LocalNode
  | .put wallMs now key value ttl =>
    if (place key).canServeLocally me true then some (s.put wallMs now key value ttl).1 else none
  | .del wallMs now key =>
    if (place key).canServeLocally me true then some (s.del wallMs now key).1 else none
  | .expireKey wallMs readAt now key ttl =>
    if (place key).canServeLocally me true then some (s.expireKey wallMs readAt now key ttl).1
    else none
  | .read _ _ => some s
  | .applyReplicaWrite now key v => some (s.applyReplicaWrite now key v).1
  | .observe version => some (s.observe version)
  | .stamp wallMs => some (s.stamp wallMs)
  | .localLeg now key v =>
    if v.version ≤ s.clock ∧ (place key).canServeLocally me true = false then
      some { s with cache := (s.cache.apply now key v).1 }
    else none

variable {place : Key → Placement} {me : NodeId} {s s' : LocalNode} {op : LocalOp}
  {ops : List LocalOp} {entries : List Snapshot.Entry} {k key : Key} {v : VersionedValue}
  {now : Time} {wallMs : UInt64}

/-! ## A put that is lost -/

/-- The snapshot of a node that holds the value `[1]` under the key `[107]`, stamped when the wall
clock read two milliseconds. -/
def futureSnapshot : Bytes :=
  Snapshot.magic ++ [1, 0, 0, 0, 0, 0, 0, 0] ++ [1, 0, 0, 0, 107] ++ [1, 0, 0, 0, 1] ++
    [0, 0, 2, 0, 0, 0, 0, 0] ++ [0] ++ [255, 255, 255, 255, 255, 255, 255, 255] ++
    [197, 176, 78, 179, 74, 226, 168, 128]

theorem nodup_alone : ([[97]] : List NodeId).Nodup := List.nodup_singleton _

/-- A cluster of the node `[97]` alone. -/
def alone (_ : Key) : Placement := ⟨{}, [[97]], nodup_alone, by decide⟩

/-- **An acknowledged put is lost**: a node restores a snapshot, its wall clock reads one
millisecond, and a put of the restored key is acknowledged. A read returns the old value. -/
theorem acknowledged_put_lost :
    ∃ cache s', Snapshot.load (.new 100 1 60000) futureSnapshot 1 (fun _ => 0) = .ok (cache, 1) ∧
      (alone [107]).canServeLocally [97] true = true ∧
      ({ cache := cache } : LocalNode).put 1 1 [107] [2] none = (s', ⟨true, true, 1⟩) ∧
      s'.read 2 [107] = ⟨.found, ⟨[1], 131072, false, none⟩⟩ := by
  have hload : (Snapshot.load (.new 100 1 60000) futureSnapshot 1 (fun _ => 0)).toOption.map
      (fun r => (r.2, (({ cache := r.1 } : LocalNode).put 1 1 [107] [2] none).2,
        (({ cache := r.1 } : LocalNode).put 1 1 [107] [2] none).1.read 2 [107])) =
      some (1, ⟨true, true, 1⟩, ⟨.found, ⟨[1], 131072, false, none⟩⟩) := by decide +kernel
  obtain ⟨⟨cache, n⟩, hok, heq⟩ := Option.map_eq_some_iff.mp hload
  simp only [Prod.mk.injEq] at heq
  obtain ⟨rfl, hresult, hread⟩ := heq
  exact ⟨cache, _, Snapshot.eq_ok_of_toOption hok, by decide, Prod.ext rfl hresult, hread⟩

/-! ## Versions and the clock -/

/-- The stamp of a put is past every version that the snapshot holds for the key: the clock has
reached it, or the wall clock has gone past it. -/
def PastSnapshot (entries : List Snapshot.Entry) (s : LocalNode) (wallMs : UInt64) (k : Key) :
    Prop :=
  ∀ x ∈ entries, x.key = k →
    x.value.version ≤ s.clock ∨ x.value.version < wallMs <<< HybridClock.logicalBits

instance (entries : List Snapshot.Entry) (s : LocalNode) (wallMs : UInt64) (k : Key) :
    Decidable (PastSnapshot entries s wallMs k) :=
  inferInstanceAs (Decidable (∀ x ∈ entries, _))

/-- Every version in the cache is below the clock, or from the snapshot. -/
def Accounted (entries : List Snapshot.Entry) (s : LocalNode) : Prop :=
  ∀ (k : Key) (e : CacheEntry), s.cache.slot k = some e →
    e.version ≤ s.clock ∨ ∃ x ∈ entries, x.key = k ∧ x.value.version = e.version

theorem cache_stamp : (s.stamp wallMs).cache = s.cache := by simp only [stamp]

theorem Accounted.of_clock (hs : Accounted entries s) {clock : UInt64} (hclock : s.clock ≤ clock) :
    Accounted entries { s with clock := clock } := fun k e he =>
  (hs k e he).imp_left fun hle => hle.trans hclock

/-- A write whose version the clock has reached keeps this. -/
theorem Accounted.replicate (hs : Accounted entries s) (hv : v.version ≤ s.clock) :
    Accounted entries (s.replicate now key v).1 := by
  intro k e he
  rcases ShardedCache.slot_apply_origin he with he | ⟨rfl, rfl⟩
  · exact hs k e he
  · exact Or.inl hv

theorem Accounted.stamp (hs : Accounted entries s) (hend : s.clock ≠ HybridClock.last64)
    (wallMs : UInt64) : Accounted entries (s.stamp wallMs) :=
  hs.of_clock (HybridClock.lt_now wallMs hend).le

theorem Accounted.observe (hs : Accounted entries s) (version : UInt64) :
    Accounted entries (s.observe version) :=
  hs.of_clock (HybridClock.le_observe _ _)

theorem Accounted.put (hs : Accounted entries s) (hend : s.clock ≠ HybridClock.last64)
    (value : Bytes) (ttl : Option Millis) : Accounted entries (s.put wallMs now key value ttl).1 :=
  (hs.stamp hend wallMs).replicate (by simp only [le_refl])

theorem Accounted.del (hs : Accounted entries s) (hend : s.clock ≠ HybridClock.last64) :
    Accounted entries (s.del wallMs now key).1 :=
  (hs.stamp hend wallMs).replicate (by simp only [le_refl])

theorem Accounted.expireKey (hs : Accounted entries s) (hend : s.clock ≠ HybridClock.last64)
    (readAt : Time) (ttl : Millis) :
    Accounted entries (s.expireKey wallMs readAt now key ttl).1 := by
  simp only [LocalNode.expireKey]
  split
  · exact hs
  · exact hs
  · exact (hs.stamp hend wallMs).replicate (by simp only [le_refl])

theorem Accounted.applyReplicaWrite (hs : Accounted entries s) :
    Accounted entries (s.applyReplicaWrite now key v).1 :=
  (hs.observe v.version).replicate (HybridClock.remote_le_observe s.clock v.version)

/-- Every call keeps the versions in the cache accounted for. -/
theorem Accounted.step (hs : Accounted entries s) (hend : s.clock ≠ HybridClock.last64)
    (h : step place me s op = some s') : Accounted entries s' := by
  cases op with
  | put wallMs now key value ttl =>
    obtain ⟨-, h⟩ := (Option.ite_none_right_eq_some ..).mp h
    exact Option.some.inj h ▸ hs.put hend value ttl
  | del wallMs now key =>
    obtain ⟨-, h⟩ := (Option.ite_none_right_eq_some ..).mp h
    exact Option.some.inj h ▸ hs.del hend
  | expireKey wallMs readAt now key ttl =>
    obtain ⟨-, h⟩ := (Option.ite_none_right_eq_some ..).mp h
    exact Option.some.inj h ▸ hs.expireKey hend readAt ttl
  | read now key => exact Option.some.inj h ▸ hs
  | applyReplicaWrite now key v => exact Option.some.inj h ▸ hs.applyReplicaWrite
  | observe version => exact Option.some.inj h ▸ hs.observe version
  | stamp wallMs => exact Option.some.inj h ▸ hs.stamp hend wallMs
  | localLeg now key v =>
    -- the write was stamped or observed before it is applied
    obtain ⟨hguard, h⟩ := (Option.ite_none_right_eq_some ..).mp h
    exact Option.some.inj h ▸ hs.replicate hguard.1

/-! ## A put that is readable -/

/-- Every version stored under the key is below the stamp of a put that is past the snapshot. -/
theorem version_lt_stamp (hs : Accounted entries s) (hend : s.clock ≠ HybridClock.last64)
    (hpast : PastSnapshot entries s wallMs k) {e : CacheEntry} (he : s.cache.slot k = some e) :
    e.version < (s.stamp wallMs).clock := by
  simp only [stamp]
  rcases hs k e he with hle | ⟨x, hx, hkey, hversion⟩
  · -- the version went through the clock
    exact hle.trans_lt (HybridClock.lt_now wallMs hend)
  · -- the version is from the snapshot
    rw [← hversion]
    rcases hpast x hx hkey with hle | hlt
    · exact hle.trans_lt (HybridClock.lt_now wallMs hend)
    · exact hlt.trans_le (HybridClock.physical_le_now wallMs hend)

/-- A write that is newer than what is stored under its key is what the key then reads as. -/
theorem read_replicate (now' : Time) {value : Bytes} {version : UInt64}
    (hnew : ∀ e, s.cache.slot k = some e → e.version < version) :
    (s.replicate now k ⟨value, version, false, none⟩).1.read now' k =
      ⟨.found, ⟨value, version, false, none⟩⟩ := by
  have hslot : (s.cache.apply now k ⟨value, version, false, none⟩).1.slot k =
      some ⟨value, none, version, false⟩ := by
    rw [ShardedCache.slot_apply]
    cases he : s.cache.slot k with
    | none => rfl
    | some e =>
      simp [applySlot, supersedes_of_version_lt (hnew e he), VersionedValue.toEntry,
        VersionedValue.deadline]
  simp only [read, replicate, ShardedCache.getVersioned_eq_readSlot, hslot]
  simp [readSlot, CacheEntry.isExpired, CacheEntry.versioned, toResult]

/-- **An acknowledged put is readable** on the only replica of its key, after any calls since the
restore, if its stamp is past every version that the snapshot holds for the key. -/
theorem put_readable {totalCapacity shardCount : ℕ} {tombstoneTtl : Millis} {file : Bytes}
    {nowUnixMs : ℤ} {at' : ℕ → Time} {cache : ShardedCache} {n : ℕ}
    (hload : Snapshot.load (.new totalCapacity shardCount tombstoneTtl) file nowUnixMs at' =
      .ok (cache, n))
    (hfile : Snapshot.decode file = .ok entries)
    (hr : run (step place me) { cache := cache } ops = some s)
    (hend : Along (step place me) (fun s _ => s.clock ≠ HybridClock.last64) { cache := cache } ops)
    (hlast : s.clock ≠ HybridClock.last64) (hsole : (place k).canServeLocally me true = true)
    (hpast : PastSnapshot entries s wallMs k) (value : Bytes) (now' : Time) :
    step place me s (.put wallMs now k value none) = some (s.put wallMs now k value none).1 ∧
      (s.put wallMs now k value none).2.ok = true ∧
      (s.put wallMs now k value none).1.read now' k =
        ⟨.found, ⟨value, (s.stamp wallMs).clock, false, none⟩⟩ := by
  obtain ⟨entries', hfile', hversions⟩ := Snapshot.version_load hload
  obtain rfl : entries = entries' := Except.ok.inj (hfile.symm.trans hfile')
  -- after the restore, every version in the cache is one of the file
  have hinit : Accounted entries { cache := cache } := by
    intro k e he
    rcases hversions k e he with hnew | hx
    · simp [ShardedCache.slot_new] at hnew
    · exact Or.inr hx
  have hs : Accounted entries s :=
    run_invariant (fun _ _ _ hs hend h => hs.step hend h) hinit hend hr
  refine ⟨by simp only [step, if_pos hsole], by simp only [put, replicate], ?_⟩
  refine read_replicate now' ?_
  intro e he
  rw [cache_stamp] at he
  exact version_lt_stamp hs hlast hpast he

/-- With the wall clock at three milliseconds, a put after the restore of `futureSnapshot` is read
back. -/
theorem put_readable_wallClockAhead :
    ∃ cache, Snapshot.load (.new 100 1 60000) futureSnapshot 1 (fun _ => 0) = .ok (cache, 1) ∧
      PastSnapshot [⟨[107], ⟨[1], 131072, false, none⟩, -1⟩] { cache := cache } 3 [107] ∧
      (({ cache := cache } : LocalNode).put 3 1 [107] [2] none).1.read 2 [107] =
        ⟨.found, ⟨[2], 196608, false, none⟩⟩ := by
  have hload : (Snapshot.load (.new 100 1 60000) futureSnapshot 1 (fun _ => 0)).toOption.map
      Prod.snd = some 1 := by decide +kernel
  have hfile : (Snapshot.decode futureSnapshot).toOption =
      some [⟨[107], ⟨[1], 131072, false, none⟩, -1⟩] := by decide +kernel
  obtain ⟨⟨cache, n⟩, hok, rfl⟩ := Option.map_eq_some_iff.mp hload
  have hload' := Snapshot.eq_ok_of_toOption hok
  have hpast : PastSnapshot [⟨[107], ⟨[1], 131072, false, none⟩, -1⟩] { cache := cache } 3 [107] := by
    intro x hx hkey
    obtain rfl := List.mem_singleton.mp hx
    exact Or.inr (by decide)
  have hr : run (step alone [97]) { cache := cache } [] = some { cache := cache } := rfl
  have hlast : (0 : UInt64) ≠ HybridClock.last64 := by decide
  have hsole : (alone [107]).canServeLocally [97] true = true := by decide
  exact ⟨cache, hload', hpast, (put_readable hload' (Snapshot.eq_ok_of_toOption hfile) hr trivial
    hlast hsole hpast [2] 2).2.2⟩

end LocalNode

end ShardCache
