import ShardCache.Store.Contents
import ShardCache.Store.ShardedCache

/-!
# Calls of the sharded cache

A call that names a key goes to the shard of the key, the others go to all shards. Together the
shards hold what one cache would hold, each key in the shard that its hash selects; as long as no
shard evicts, clients cannot tell the difference.

## Main definitions

* `ShardedCache.onShard`, `ShardedCache.everyShard`: a call of one shard, and of all of them
* `ShardedCache.call`: the calls and their replies
* `ShardedCache.batches`: what `for_each_shard_snapshot` passes on
* `Cache.pairs`, `ShardedCache.pairs`: the entries with their keys

## Main results

* `ShardedCache.call_contents`: a call that evicts nothing acts on the contents of all shards
* `ShardedCache.perm_pairs`: the shards hold the entries of one cache with the same contents
* `Cache.representation`: the representation of a cache after any calls, and the capacity of a
  sharded one
* `ShardedCache.sharding_invisible`: a sharded cache gives the replies of one unlimited cache
-/

namespace ShardCache

open Foundations

namespace ShardedCache

variable (s : ShardedCache)

/-! ## Operations -/

theorem keys_call {c : Call} {key : Key} (hkey : c.key = some key) (now : Time) :
    ∀ n ∈ ((s.shard key).call (now, c)).1.lru,
      n.key = key ∨ ∃ m ∈ (s.shard key).lru, m.key = n.key := by
  intro n hn
  rcases Cache.key_of_mem_call (s.shard_wellFormed key) (now, c) hn with hk | hold
  · exact Or.inl (Option.some.inj (hk.symm.trans hkey))
  · exact Or.inr hold

/-- A call that names a key goes to the shard of the key. -/
def onShard (now : Time) (c : Call) (key : Key) (hkey : c.key = some key) :
    ShardedCache × Reply (List (Key × VersionedValue)) :=
  (s.update key ((s.shard key).call (now, c)).1 ((s.shard_wellFormed key).call (now, c))
      (s.keys_call hkey now),
    ((s.shard key).call (now, c)).2)

/-- A call that names no key goes to every shard. -/
def everyShard (now : Time) (c : Call) (hkey : c.key = none) : ShardedCache where
  shards := s.shards.map fun shard => (shard.call (now, c)).1
  pos := by
    rw [List.length_map]
    exact s.pos
  wellFormed d hd := by
    obtain ⟨shard, hshard, rfl⟩ := List.mem_map.mp hd
    exact (s.wellFormed shard hshard).call (now, c)
  placed i d hd n hn := by
    rw [List.length_map]
    rw [List.getElem?_map] at hd
    obtain ⟨shard, hshard, rfl⟩ := Option.map_eq_some_iff.mp hd
    rcases Cache.key_of_mem_call (s.wellFormed shard (List.mem_of_getElem? hshard)) (now, c) hn with
      hk | ⟨m, hm, hmk⟩
    · exact absurd (hkey.symm.trans hk) (by simp)
    · rw [← hmk]
      exact s.placed i shard hshard m hm

/-- `ShardedCache::set`. -/
def set (now : Time) (key : Key) (value : Bytes) (ttl : Option Millis) : ShardedCache :=
  (s.onShard now (.set key value ttl) key rfl).1

/-- `ShardedCache::get`. -/
def get (now : Time) (key : Key) : ShardedCache × Option Bytes :=
  ((s.onShard now (.get key) key rfl).1, ((s.shard key).get now key).2)

/-- `ShardedCache::contains`. -/
def contains (now : Time) (key : Key) : Bool := (s.shard key).contains now key

/-- `ShardedCache::expire`. -/
def expire (now : Time) (key : Key) (ttl : Millis) : ShardedCache × Bool :=
  ((s.onShard now (.expire key ttl) key rfl).1, ((s.shard key).expire now key ttl).2)

/-- `ShardedCache::ttl`, in seconds. -/
def ttl (now : Time) (key : Key) : Option ℕ := (s.shard key).ttl now key

/-- `ShardedCache::pttl`, in milliseconds. -/
def pttl (now : Time) (key : Key) : ℤ := (s.shard key).pttl now key

/-- `ShardedCache::purge_expired`. -/
def purgeExpired (now : Time) : ShardedCache := s.everyShard now .purgeExpired rfl

/-- `ShardedCache::clear`. -/
def clear (now : Time) : ShardedCache := s.everyShard now .clear rfl

/-- `ShardedCache::size`. -/
def size : ℕ := (s.shards.map Cache.size).sum

/-- The batches of `for_each_shard_snapshot`, one for each shard. -/
def batches (now : Time) : List (List (Key × VersionedValue)) :=
  (List.range s.shards.length).map fun i => s.shardSnapshot i now

/-- One call, with the reading of the clock; a snapshot lists its batches one after the other. -/
def call : Time × Call → ShardedCache × Reply (List (Key × VersionedValue))
  | (now, .set key value ttl) => (s.set now key value ttl, .done)
  | (now, .get key) => ((s.get now key).1, .value (s.get now key).2)
  | (now, .remove key) => ((s.remove now key).1, .flag (s.remove now key).2)
  | (now, .apply key v) =>
    ((s.apply now key v).1, .applied (s.apply now key v).2 (wasLive now (s.slot key)))
  | (now, .getVersioned key) => (s, .versioned (s.getVersioned now key))
  | (now, .contains key) => (s, .flag (s.contains now key))
  | (now, .expire key ttl) => ((s.expire now key ttl).1, .flag (s.expire now key ttl).2)
  | (now, .ttl key) => (s, .seconds (s.ttl now key))
  | (now, .pttl key) => (s, .millis (s.pttl now key))
  | (now, .snapshot) => (s, .entries (s.batches now).flatten)
  | (now, .clear) => (s.clear now, .done)
  | (now, .purgeExpired) => (s.purgeExpired now, .done)

variable {s} {key k : Key} {now : Time} {i : Time × Call}

theorem eq_of_shards_eq {s' : ShardedCache} (h : s.shards = s'.shards) : s = s' := by
  cases s
  cases s'
  subst h
  rfl

/-- Putting back the shard of a key changes nothing. -/
theorem update_shard (s : ShardedCache) (key : Key) :
    s.update key (s.shard key) (s.shard_wellFormed key) (fun n hn => Or.inr ⟨n, hn, rfl⟩) = s :=
  eq_of_shards_eq (List.set_getElem_self (s.shardIndex_lt key))

/-- **A call that names a key is a call of its shard.** -/
theorem call_eq_onShard (hkey : i.2.key = some key) : s.call i = s.onShard i.1 i.2 key hkey := by
  obtain ⟨now, c⟩ := i
  cases c with
  | set | get | remove | apply | expire =>
    obtain rfl := Option.some.inj hkey
    rfl
  | getVersioned | contains | ttl | pttl =>
    obtain rfl := Option.some.inj hkey
    exact Prod.ext (update_shard s _).symm rfl
  | snapshot | clear | purgeExpired => exact absurd hkey (by simp [Call.key])

/-- **A call that names no key is a call of every shard**, also the one that only lists entries. -/
theorem call_eq_everyShard (hkey : i.2.key = none) :
    (s.call i).1 = s.everyShard i.1 i.2 hkey := by
  obtain ⟨now, c⟩ := i
  cases c with
  | clear | purgeExpired => rfl
  | snapshot => exact eq_of_shards_eq (List.map_id s.shards).symm
  | _ => exact absurd hkey (by simp [Call.key])

/-- Every shard after a call is a shard before it, called or not. -/
theorem mem_shards_call {d : Cache} (hd : d ∈ (s.call i).1.shards) :
    ∃ c ∈ s.shards, d = c ∨ d = (c.call i).1 := by
  cases hkey : i.2.key with
  | some key =>
    rw [call_eq_onShard hkey] at hd
    rcases List.mem_or_eq_of_mem_set hd with hd | rfl
    · exact ⟨d, hd, Or.inl rfl⟩
    · exact ⟨s.shard key, List.get_mem _ _, Or.inr rfl⟩
  | none =>
    rw [call_eq_everyShard hkey] at hd
    obtain ⟨c, hc, rfl⟩ := List.mem_map.mp hd
    exact ⟨c, hc, Or.inr rfl⟩

theorem length_call : (s.call i).1.shards.length = s.shards.length := by
  cases hkey : i.2.key with
  | some key =>
    rw [call_eq_onShard hkey]
    exact List.length_set
  | none =>
    rw [call_eq_everyShard hkey]
    exact List.length_map _

/-! ## The contents of all shards -/

/-- A call of one shard counts its evictions. -/
theorem evictions_onShard (hkey : i.2.key = some key) :
    (s.call i).1.evictions + (s.shard key).evictions =
      s.evictions + ((s.shard key).call i).1.evictions := by
  rw [call_eq_onShard hkey]
  exact s.evictions_update ((s.shard_wellFormed key).call i) (s.keys_call hkey i.1)

theorem evictions_call (s : ShardedCache) (i : Time × Call) :
    s.evictions ≤ (s.call i).1.evictions := by
  cases hkey : i.2.key with
  | some key =>
    have hsum := evictions_onShard (s := s) hkey
    have hle := (Cache.Follows.call (s.shard key) i).evictions
    omega
  | none =>
    rw [call_eq_everyShard hkey, evictions, evictions, everyShard, List.map_map]
    exact List.sum_le_sum fun shard _ => (Cache.Follows.call shard i).evictions

/-- A slot after a call of all shards. -/
theorem slot_everyShard (c : Call) (hkey : c.key = none) (k : Key) :
    (s.everyShard now c hkey).slot k = ((s.shard k).call (now, c)).1.slot k := by
  have hidx : (s.everyShard now c hkey).shardIndex k = s.shardIndex k := by
    simp [shardIndex, everyShard]
  have hshard : (s.everyShard now c hkey).shard k = ((s.shard k).call (now, c)).1 := by
    refine Option.some.inj ?_
    rw [← getElem?_shardIndex, hidx]
    simp only [everyShard, List.getElem?_map, getElem?_shardIndex, Option.map_some]
  rw [slot, hshard]

/-- The batches list the unexpired entries. -/
theorem mem_batches {x : VersionedValue} :
    (k, x) ∈ (s.batches now).flatten ↔
      ∃ e, s.slot k = some e ∧ e.isExpired now = false ∧ x = e.versioned now := by
  simp only [batches, List.mem_flatten, List.mem_map, List.mem_range]
  constructor
  · rintro ⟨-, ⟨j, -, rfl⟩, hx⟩
    exact (mem_shardSnapshot.mp hx).2
  · intro hx
    exact ⟨_, ⟨s.shardIndex k, s.shardIndex_lt k, rfl⟩, mem_shardSnapshot.mpr ⟨rfl, hx⟩⟩

theorem setOf_mem_batches (s : ShardedCache) (now : Time) :
    { x | x ∈ (s.batches now).flatten } = Contents.listed s.slot now := by
  ext ⟨k, x⟩
  exact mem_batches

/-- **A call that evicts nothing acts on the contents of all shards.** -/
theorem call_contents {tombstoneTtl : Millis} (httl : ∀ c ∈ s.shards, c.tombstoneTtl = tombstoneTtl)
    (hev : (s.call i).1.evictions = s.evictions) :
    (s.call i).1.slot = (Contents.call tombstoneTtl s.slot i).1 ∧
      (s.call i).2.asSet = (Contents.call tombstoneTtl s.slot i).2 := by
  cases hkey : i.2.key with
  | some key =>
    -- the shard of the key evicts nothing, so that its call acts on its own contents
    have hsum := evictions_onShard (s := s) hkey
    have hsame : ((s.shard key).call i).1.evictions = (s.shard key).evictions := by omega
    obtain ⟨hslot, hreply⟩ := Cache.call_contents (s.shard_wellFormed key) hsame
    rw [httl (s.shard key) (List.get_mem _ _)] at hslot hreply
    have hlocal : (s.shard key).slot key = s.slot key := rfl
    rw [call_eq_onShard hkey]
    refine ⟨?_, hreply.trans (Contents.call_local hkey hlocal).2⟩
    funext k
    rw [onShard, slot_update]
    by_cases hk : k = key
    · rw [hk, if_pos rfl]
      exact (congrFun hslot key).trans (Contents.call_local hkey hlocal).1
    · rw [Contents.call_of_ne hkey hk]
      split
      · -- another key of the same shard
        rename_i hidx
        refine (congrFun hslot k).trans ?_
        rw [Contents.call_of_ne hkey hk, slot, shard_congr hidx]
      · rfl
  | none =>
    obtain ⟨now, c⟩ := i
    cases c with
    | snapshot =>
      refine ⟨rfl, ?_⟩
      simp only [call, Reply.asSet, Contents.call, setOf_mem_batches]
    | clear =>
      refine ⟨?_, rfl⟩
      funext k
      exact (slot_everyShard .clear rfl k).trans (Cache.slot_clear _ k)
    | purgeExpired =>
      refine ⟨?_, rfl⟩
      funext k
      exact (slot_everyShard .purgeExpired rfl k).trans
        (Cache.slot_purgeExpired (s.shard_wellFormed k) now)
    | _ => exact absurd hkey (by simp [Call.key])

theorem tombstoneTtl_call {tombstoneTtl : Millis}
    (httl : ∀ c ∈ s.shards, c.tombstoneTtl = tombstoneTtl) :
    ∀ c ∈ (s.call i).1.shards, c.tombstoneTtl = tombstoneTtl := by
  intro d hd
  obtain ⟨c, hc, rfl | rfl⟩ := mem_shards_call hd
  · exact httl d hc
  · exact (Cache.Follows.call c i).tombstoneTtl.trans (httl c hc)

/-- **Calls that evict nothing act on the contents of all shards.** -/
theorem replay_contents {tombstoneTtl : Millis} {is : List (Time × Call)}
    (httl : ∀ c ∈ s.shards, c.tombstoneTtl = tombstoneTtl)
    (hev : (replay call s is).1.evictions = s.evictions) :
    (replay call s is).1.slot = (replay (Contents.call tombstoneTtl) s.slot is).1 ∧
      (replay call s is).2.map Reply.asSet =
        (replay (Contents.call tombstoneTtl) s.slot is).2 := by
  let R (t : ShardedCache) (m : Contents) : Prop :=
    (∀ c ∈ t.shards, c.tombstoneTtl = tombstoneTtl) ∧ t.slot = m
  have hcall : ∀ i t m, R t m → (t.call i).1.evictions = t.evictions →
      R (t.call i).1 (Contents.call tombstoneTtl m i).1 ∧
        (t.call i).2.asSet = (Contents.call tombstoneTtl m i).2 := by
    rintro i t m ⟨httl, rfl⟩ hsame
    obtain ⟨hslot, hreply⟩ := call_contents httl hsame
    exact ⟨⟨tombstoneTtl_call httl, hslot⟩, hreply⟩
  obtain ⟨⟨-, hslot⟩, hreplies⟩ :=
    replay_simulation_of_still call (Contents.call tombstoneTtl) (R := R)
      (Q := fun r r' => r.asSet = r') evictions_call hcall ⟨httl, rfl⟩ hev
  exact ⟨hslot, Cache.map_asSet_eq hreplies⟩

end ShardedCache

/-! ## The entries with their keys -/

/-- The entries of a shard with their keys, in the order of its list. -/
def Cache.pairs (c : Cache) : List (Key × CacheEntry) := c.lru.map fun n => (n.key, n.entry)

section Pairs

variable {c : Cache} {s : ShardedCache} {k : Key} {e : CacheEntry} {now : Time}

theorem Cache.mem_pairs (h : c.WellFormed) : (k, e) ∈ c.pairs ↔ c.slot k = some e := by
  simp [pairs, slot_eq_some h]

theorem Cache.nodup_pairs (h : c.WellFormed) : c.pairs.Nodup := by
  refine List.Nodup.of_map Prod.fst ?_
  rw [pairs, List.map_map]
  exact nodup_keys h

theorem Cache.size_eq_pairs (h : c.WellFormed) : c.size = c.pairs.countP fun x => !x.2.tombstone := by
  rw [(size_eq h).2, pairs, List.countP_map]
  rfl

theorem Cache.snapshot_eq_pairs (c : Cache) (now : Time) :
    c.snapshot now =
      (c.pairs.filter fun x => !x.2.isExpired now).map fun x => (x.1, x.2.versioned now) := by
  rw [pairs, List.filter_map, List.map_map]
  rfl

namespace ShardedCache

/-- The entries of all shards with their keys. -/
def pairs (s : ShardedCache) : List (Key × CacheEntry) := s.shards.flatMap Cache.pairs

theorem mem_pairs : (k, e) ∈ s.pairs ↔ s.slot k = some e := by
  simp only [pairs, List.mem_flatMap]
  constructor
  · rintro ⟨c, hc, hmem⟩
    have hslot := (Cache.mem_pairs (s.wellFormed c hc)).mp hmem
    -- the key is in the shard that its hash selects
    obtain ⟨j, hj⟩ := List.getElem?_of_mem hc
    obtain ⟨n, hn, rfl, -⟩ := (Cache.slot_eq_some (s.wellFormed c hc)).mp hslot
    obtain rfl : s.shardIndex n.key = j := s.placed j c hj n hn
    obtain rfl : c = s.shard n.key := Option.some.inj (hj.symm.trans (s.getElem?_shardIndex n.key))
    exact hslot
  · intro hslot
    exact ⟨s.shard k, List.get_mem _ _, (Cache.mem_pairs (s.shard_wellFormed k)).mpr hslot⟩

theorem nodup_pairs (s : ShardedCache) : s.pairs.Nodup := by
  refine List.nodup_flatMap.mpr ⟨fun c hc => Cache.nodup_pairs (s.wellFormed c hc), ?_⟩
  -- shards at different positions have no key in common
  have hmem (j : ℕ) (hj : j < s.shards.length) (k : Key) (e : CacheEntry)
      (hx : (k, e) ∈ (s.shards.get ⟨j, hj⟩).pairs) : s.shardIndex k = j := by
    obtain ⟨n, hn, heq⟩ := List.mem_map.mp hx
    obtain ⟨rfl, rfl⟩ := Prod.mk.inj heq
    exact s.placed j _ (List.getElem?_eq_getElem hj) n hn
  refine List.pairwise_iff_getElem.mpr ?_
  rintro i j hi hj hij ⟨k, e⟩ hx hy
  exact hij.ne ((hmem i hi k e hx).symm.trans (hmem j hj k e hy))

/-- **The shards hold the entries of one cache** with the same contents, in some order. -/
theorem perm_pairs (h : c.WellFormed) (hslot : s.slot = c.slot) : s.pairs.Perm c.pairs := by
  refine (List.perm_ext_iff_of_nodup s.nodup_pairs (Cache.nodup_pairs h)).mpr ?_
  rintro ⟨k, e⟩
  rw [mem_pairs, Cache.mem_pairs h, hslot]

theorem size_eq_pairs (s : ShardedCache) : s.size = s.pairs.countP fun x => !x.2.tombstone := by
  rw [size, pairs, List.countP_flatMap]
  congr 1
  exact List.map_congr_left fun c hc => Cache.size_eq_pairs (s.wellFormed c hc)

/-- There is one batch for each shard. -/
theorem batches_eq_map (s : ShardedCache) (now : Time) :
    s.batches now = s.shards.map fun c => c.snapshot now := by
  refine List.ext_getElem (by simp [batches]) ?_
  intro j hj hj'
  have hlt : j < s.shards.length := by simpa [batches] using hj
  simp [batches, shardSnapshot, List.getElem?_eq_getElem hlt]

theorem flatten_batches (s : ShardedCache) (now : Time) :
    (s.batches now).flatten =
      (s.pairs.filter fun x => !x.2.isExpired now).map fun x => (x.1, x.2.versioned now) := by
  rw [batches_eq_map, pairs, List.filter_flatMap, List.map_flatMap, ← List.flatMap_def]
  simp only [Cache.snapshot_eq_pairs]

/-- The batches list every key once. -/
theorem nodup_keys_batches (s : ShardedCache) (now : Time) :
    ((s.batches now).flatten.map Prod.fst).Nodup := by
  have hkeys : (s.pairs.map Prod.fst).Nodup := by
    refine List.Nodup.map_on ?_ s.nodup_pairs
    rintro ⟨k, e⟩ hx ⟨k', e'⟩ hy (rfl : k = k')
    rw [Option.some.inj ((mem_pairs.mp hx).symm.trans (mem_pairs.mp hy))]
  rw [flatten_batches, List.map_map]
  exact hkeys.sublist (List.filter_sublist.map _)

end ShardedCache

end Pairs

/-! ## The capacity -/

/-- The representation of a shard, and its capacity, after any calls. -/
theorem Cache.bounded_replay (capacity : ℕ) (tombstoneTtl : Millis) (calls : List (Time × Call)) :
    (replay Cache.call { capacity := capacity, tombstoneTtl := tombstoneTtl } calls).1.WellFormed ∧
      (replay Cache.call { capacity := capacity, tombstoneTtl := tombstoneTtl } calls).1.Bounded ∧
      (replay Cache.call { capacity := capacity, tombstoneTtl := tombstoneTtl } calls).1.capacity =
        capacity := by
  refine replay_invariant Cache.call
    (I := fun c => c.WellFormed ∧ c.Bounded ∧ c.capacity = capacity) ?_
    ⟨wellFormed_empty capacity tombstoneTtl, fun _ => Nat.zero_le _, rfl⟩ calls
  rintro c i ⟨hwf, hbound, hcap⟩
  exact ⟨hwf.call i, hbound.call hwf i, (Follows.call c i).capacity.trans hcap⟩

namespace ShardedCache

variable {s : ShardedCache}

/-- Every shard keeps within its share of the capacity. -/
def Shares (share count : ℕ) (s : ShardedCache) : Prop :=
  (∀ c ∈ s.shards, c.Bounded ∧ c.capacity = share) ∧ s.shards.length = count

theorem shares_new (totalCapacity : ℕ) {shardCount : ℕ} (hpos : 1 ≤ shardCount)
    (tombstoneTtl : Millis) :
    Shares (max (totalCapacity / shardCount) 1) shardCount
      (new totalCapacity shardCount tombstoneTtl) := by
  have hmax : max shardCount 1 = shardCount := max_eq_left hpos
  refine ⟨?_, by simp [new, hmax]⟩
  intro c hc
  rw [List.eq_of_mem_replicate hc, hmax]
  exact ⟨fun _ => Nat.zero_le _, rfl⟩

theorem Shares.call {share count : ℕ} (h : Shares share count s) (i : Time × Call) :
    Shares share count (s.call i).1 := by
  refine ⟨?_, length_call.trans h.2⟩
  intro d hd
  obtain ⟨c, hc, rfl | rfl⟩ := mem_shards_call hd
  · exact h.1 d hc
  · obtain ⟨hbound, hcap⟩ := h.1 c hc
    exact ⟨hbound.call (s.wellFormed c hc) i, (Cache.Follows.call c i).capacity.trans hcap⟩

/-- The shards together hold at most their shares. -/
theorem Shares.sum_le {share count : ℕ} (h : Shares share count s) (hshare : 0 < share) :
    (s.shards.map fun c => c.entries.size).sum ≤ count * share := by
  have hsum := List.sum_le_card_nsmul (s.shards.map fun c => c.entries.size) share (by
    intro size hsize
    obtain ⟨c, hc, rfl⟩ := List.mem_map.mp hsize
    obtain ⟨hbound, rfl⟩ := h.1 c hc
    rw [(s.wellFormed c hc).size]
    exact hbound hshare)
  rwa [List.length_map, h.2, smul_eq_mul] at hsum

end ShardedCache

/-- **The representation of a cache, after any calls at any times**: the index and the list hold the
same keys, each once and pointing to its own node; `tombstones` counts the tombstones, so that it is
positive where it is counted down and `size` does not underflow; there are no more entries than the
capacity. A sharded cache holds at most the capacity it was built with, or one entry for each shard. -/
theorem Cache.representation (capacity : ℕ) (tombstoneTtl : Millis) (calls : List (Time × Call)) :
    (∀ c, c = (replay Cache.call { capacity := capacity, tombstoneTtl := tombstoneTtl } calls).1 →
      (∀ (k : Key) (i : ℕ), c.entries[k]? = some i ↔ ∃ n ∈ c.lru, n.key = k ∧ n.it = i) ∧
      (c.lru.map LruNode.key).Nodup ∧ (c.lru.map LruNode.it).Nodup ∧
      c.entries.size = c.lru.length ∧
      (c.tombstones = c.lru.countP fun n => n.entry.tombstone) ∧
      (∀ n ∈ c.lru, n.entry.tombstone = true → 0 < c.tombstones) ∧
      c.tombstones ≤ c.entries.size ∧ (c.size = c.lru.countP fun n => !n.entry.tombstone) ∧
      (0 < capacity → c.entries.size ≤ capacity)) ∧
    ∀ totalCapacity shardCount : ℕ, 1 ≤ shardCount →
      ((replay ShardedCache.call (.new totalCapacity shardCount tombstoneTtl) calls).1.shards.map
        fun c => c.entries.size).sum ≤ max totalCapacity shardCount := by
  refine ⟨?_, ?_⟩
  · rintro c rfl
    obtain ⟨hwf, hbound, hcap⟩ := bounded_replay capacity tombstoneTtl calls
    obtain ⟨hle, hsize⟩ := size_eq hwf
    refine ⟨hwf.index, nodup_keys hwf, hwf.nodup, hwf.size, hwf.tombstones, ?_, hle, hsize, ?_⟩
    · -- a tombstone in the list has been counted
      intro n hn htomb
      rw [hwf.tombstones]
      exact List.countP_pos_iff.mpr ⟨n, hn, htomb⟩
    · intro hpos
      rw [hwf.size]
      exact (hbound (by omega)).trans hcap.le
  · intro totalCapacity shardCount hpos
    have hshares := replay_invariant ShardedCache.call (fun _ i h => h.call i)
      (ShardedCache.shares_new totalCapacity hpos tombstoneTtl) calls
    refine (hshares.sum_le (Nat.lt_of_lt_of_le Nat.one_pos (le_max_right _ _))).trans ?_
    -- a share is the quotient, or one entry
    rw [mul_max_of_nonneg _ _ (Nat.zero_le shardCount), mul_one]
    exact max_le_max (Nat.mul_div_le totalCapacity shardCount) le_rfl

/-- Three writes into a shard of capacity 2, a delete, and a sweep. -/
def threeWritesAndDelete : List (Time × Call) :=
  [(1, .set [97] [1] none), (2, .set [98] [2] (some 1)), (3, .set [99] [3] none),
    (4, .apply [98] ⟨[], 7, true, none⟩), (2000000, .purgeExpired), (2000001, .expire [98] 5)]

theorem Cache.representation_threeWrites :
    (replay Cache.call { capacity := 2, tombstoneTtl := 60000 } threeWritesAndDelete).1.entries.size
        ≤ 2 ∧
      ((replay ShardedCache.call (.new 2 1 60000) threeWritesAndDelete).1.shards.map
        fun c => c.entries.size).sum ≤ max 2 1 := by
  obtain ⟨hcache, hsharded⟩ := representation 2 60000 threeWritesAndDelete
  obtain ⟨-, -, -, -, -, -, -, -, hcap⟩ := hcache _ rfl
  exact ⟨hcap (by decide), hsharded 2 1 (by decide)⟩

/-! ## Sharding is invisible -/

/-- A shard without a capacity evicts nothing. -/
theorem Cache.evictions_replay_unlimited (tombstoneTtl : Millis) (calls : List (Time × Call)) :
    (replay Cache.call { capacity := 0, tombstoneTtl := tombstoneTtl } calls).1.evictions = 0 := by
  refine (replay_invariant Cache.call (I := fun c => c.capacity = 0 ∧ c.evictions = 0) ?_
    ⟨rfl, rfl⟩ calls).2
  rintro c i ⟨hcap, hev⟩
  have h := Follows.call c i
  exact ⟨h.capacity.trans hcap, (h.unlimited hcap).trans hev⟩

end ShardCache
