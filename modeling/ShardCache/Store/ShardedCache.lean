import ShardCache.Store.Cache
import ShardCache.Cluster.ConsistentHash

/-!
# The sharded cache

A sharded cache spreads its keys over independent shards by their hash. The structure carries the
representation invariant of its shards, and that each shard holds only keys of its own.

## Main definitions

* `ShardedCache`, `ShardedCache.new`, `ShardedCache.shardIndex`, `ShardedCache.slot`
* `ShardedCache.apply`, `ShardedCache.remove`, `ShardedCache.getVersioned`,
  `ShardedCache.shardSnapshot`: the operations, by the shard of their key

## Main results

* `ShardedCache.slot_apply`, `ShardedCache.slot_apply_ne`, `ShardedCache.slot_remove`: what the
  operations do to the slot of a key
* `ShardedCache.mem_shardSnapshot`: the snapshots of the shards list the unexpired entries
-/

namespace ShardCache

/-- `ShardedCache`: at least one shard, each well formed and holding keys of its own. -/
structure ShardedCache where
  shards : List Cache
  pos : 0 < shards.length
  wellFormed : ∀ c ∈ shards, c.WellFormed
  placed : ∀ (i : ℕ) (c : Cache), shards[i]? = some c →
    ∀ n ∈ c.lru, (hashFn n.key).toNat % shards.length = i

namespace ShardedCache

variable (s : ShardedCache)

/-- `get_shard_index`. -/
def shardIndex (key : Key) : ℕ := (hashFn key).toNat % s.shards.length

theorem shardIndex_lt (key : Key) : s.shardIndex key < s.shards.length := Nat.mod_lt _ s.pos

/-- The shard of a key. -/
def shard (key : Key) : Cache := s.shards.get ⟨s.shardIndex key, s.shardIndex_lt key⟩

theorem getElem?_shardIndex (key : Key) : s.shards[s.shardIndex key]? = some (s.shard key) :=
  List.getElem?_eq_getElem (s.shardIndex_lt key)

theorem shard_congr {s : ShardedCache} {k key : Key} (h : s.shardIndex k = s.shardIndex key) :
    s.shard k = s.shard key := by
  refine Option.some.inj ?_
  rw [← getElem?_shardIndex, ← getElem?_shardIndex, h]

theorem shard_wellFormed (key : Key) : (s.shard key).WellFormed :=
  s.wellFormed _ (List.get_mem _ _)

/-- The entry stored for a key. -/
def slot (key : Key) : Option CacheEntry := (s.shard key).slot key

/-- The evictions that `totals` reports. -/
def evictions : ℕ := (s.shards.map Cache.evictions).sum

/-- The constructor of `ShardedCache`: each shard has an equal share of the capacity, at least
one. -/
def new (totalCapacity shardCount : ℕ) (tombstoneTtl : Millis) : ShardedCache where
  shards := List.replicate (max shardCount 1)
    { capacity := max (totalCapacity / max shardCount 1) 1, tombstoneTtl := tombstoneTtl }
  pos := by simp
  wellFormed c hc := by
    rw [List.eq_of_mem_replicate hc]
    exact Cache.wellFormed_empty _ _
  placed i c hc n hn := by
    rw [List.eq_of_mem_replicate (List.mem_of_getElem? hc)] at hn
    simp at hn

/-! ## Operations -/

/-- Replace the shard of `key` by `c`, which holds no keys but `key` and those of the shard. -/
def update (key : Key) (c : Cache) (hc : c.WellFormed)
    (hkeys : ∀ n ∈ c.lru, n.key = key ∨ ∃ m ∈ (s.shard key).lru, m.key = n.key) : ShardedCache where
  shards := s.shards.set (s.shardIndex key) c
  pos := by rw [List.length_set]; exact s.pos
  wellFormed d hd := by
    rcases List.mem_or_eq_of_mem_set hd with hd | rfl
    · exact s.wellFormed d hd
    · exact hc
  placed i d hd n hn := by
    rw [List.length_set]
    rw [List.getElem?_set] at hd
    split at hd
    · rename_i hi
      rw [if_pos (s.shardIndex_lt key), Option.some.injEq] at hd
      subst hd hi
      rcases hkeys n hn with hk | ⟨m, hm, hk⟩
      · rw [hk]
        rfl
      · rw [← hk]
        exact s.placed _ _ (s.getElem?_shardIndex key) m hm
    · exact s.placed i d hd n hn

theorem apply_keys {c : Cache} (h : c.WellFormed) (now : Time) (key : Key) (v : VersionedValue)
    (n : LruNode) (hn : n ∈ (c.apply now key v).1.lru) :
    n.key = key ∨ ∃ m ∈ c.lru, m.key = n.key := by
  by_cases hk : n.key = key
  · exact Or.inl hk
  · have hsome := (Cache.slot_eq_some (h.apply now key v)).mpr ⟨n, hn, rfl, rfl⟩
    rcases Cache.slot_apply_ne h now key v hk with hs | ⟨hs, -⟩
    · obtain ⟨m, hm, hmk, -⟩ := (Cache.slot_eq_some h).mp (hs ▸ hsome)
      exact Or.inr ⟨m, hm, hmk⟩
    · simp [hs] at hsome

theorem remove_keys {c : Cache} (h : c.WellFormed) (now : Time) (key : Key)
    (n : LruNode) (hn : n ∈ (c.remove now key).1.lru) :
    n.key = key ∨ ∃ m ∈ c.lru, m.key = n.key := by
  have hsome := (Cache.slot_eq_some (h.remove now key)).mpr ⟨n, hn, rfl, rfl⟩
  rw [Cache.slot_remove h] at hsome
  split at hsome
  · exact absurd hsome (by simp)
  · obtain ⟨m, hm, hmk, -⟩ := (Cache.slot_eq_some h).mp hsome
    exact Or.inr ⟨m, hm, hmk⟩

/-- `ShardedCache::apply`: the cache after the write, and whether it changed. -/
def apply (now : Time) (key : Key) (v : VersionedValue) : ShardedCache × Bool :=
  (s.update key ((s.shard key).apply now key v).1 ((s.shard_wellFormed key).apply now key v)
      (apply_keys (s.shard_wellFormed key) now key v),
    ((s.shard key).apply now key v).2)

/-- `ShardedCache::remove`: the cache after the removal, and whether the key was live. -/
def remove (now : Time) (key : Key) : ShardedCache × Bool :=
  (s.update key ((s.shard key).remove now key).1 ((s.shard_wellFormed key).remove now key)
      (remove_keys (s.shard_wellFormed key) now key),
    ((s.shard key).remove now key).2)

/-- `ShardedCache::get_versioned`. -/
def getVersioned (now : Time) (key : Key) : Option VersionedValue :=
  (s.shard key).getVersioned now key

/-- The batch that `for_each_shard_snapshot` passes for shard `i`. -/
def shardSnapshot (i : ℕ) (now : Time) : List (Key × VersionedValue) :=
  match s.shards[i]? with
  | some c => c.snapshot now
  | none => []

/-! ## One key at a time -/

variable {s} {key k : Key} {now : Time} {v : VersionedValue}

theorem slot_new (totalCapacity shardCount : ℕ) (tombstoneTtl : Millis) (key : Key) :
    (new totalCapacity shardCount tombstoneTtl).slot key = none := by
  have hmem : (new totalCapacity shardCount tombstoneTtl).shard key ∈
      (new totalCapacity shardCount tombstoneTtl).shards := List.get_mem _ _
  rw [slot, List.eq_of_mem_replicate hmem]
  simp [Cache.slot, Cache.find]

/-- Replacing one member of a list changes its sum by the difference. -/
theorem sum_set_add {l : List ℕ} {i a : ℕ} (h : l[i]? = some a) (b : ℕ) :
    (l.set i b).sum + a = l.sum + b := by
  induction l generalizing i with
  | nil => simp at h
  | cons x l ih =>
    cases i with
    | zero =>
      obtain rfl : x = a := by simpa using h
      simp only [List.set_cons_zero, List.sum_cons]
      omega
    | succ i =>
      have := ih (i := i) (by simpa using h)
      simp only [List.set_cons_succ, List.sum_cons]
      omega

theorem shard_update {c : Cache} {hc : c.WellFormed}
    {hkeys : ∀ n ∈ c.lru, n.key = key ∨ ∃ m ∈ (s.shard key).lru, m.key = n.key} :
    (s.update key c hc hkeys).shard k =
      if s.shardIndex k = s.shardIndex key then c else s.shard k := by
  have hidx : (s.update key c hc hkeys).shardIndex k = s.shardIndex k := by
    simp [shardIndex, update]
  refine Option.some.inj ?_
  rw [← getElem?_shardIndex, hidx]
  simp only [update, List.getElem?_set]
  by_cases hi : s.shardIndex key = s.shardIndex k
  · simp [hi, s.shardIndex_lt k]
  · simp [hi, Ne.symm hi, s.getElem?_shardIndex k]

theorem slot_update {c : Cache} {hc : c.WellFormed}
    {hkeys : ∀ n ∈ c.lru, n.key = key ∨ ∃ m ∈ (s.shard key).lru, m.key = n.key} :
    (s.update key c hc hkeys).slot k =
      if s.shardIndex k = s.shardIndex key then c.slot k else s.slot k := by
  rw [slot, shard_update]
  split <;> rfl

theorem evictions_update (s : ShardedCache) {c : Cache} (hc : c.WellFormed)
    (hkeys : ∀ n ∈ c.lru, n.key = key ∨ ∃ m ∈ (s.shard key).lru, m.key = n.key) :
    (s.update key c hc hkeys).evictions + (s.shard key).evictions = s.evictions + c.evictions := by
  simp only [evictions, update, List.map_set]
  have hget : (s.shards.map Cache.evictions)[s.shardIndex key]? = some (s.shard key).evictions := by
    rw [List.getElem?_map, s.getElem?_shardIndex, Option.map_some]
  exact sum_set_add hget _

@[simp] theorem length_apply : (s.apply now key v).1.shards.length = s.shards.length :=
  List.length_set

@[simp] theorem length_remove : (s.remove now key).1.shards.length = s.shards.length :=
  List.length_set

theorem getVersioned_eq_readSlot : s.getVersioned now key = readSlot now (s.slot key) := rfl

/-- **A write acts on the slot of its key.** -/
theorem slot_apply :
    (s.apply now key v).1.slot key =
      applySlot (s.shard key).tombstoneTtl now v (s.slot key) := by
  rw [apply, slot_update, if_pos rfl, Cache.slot_apply (s.shard_wellFormed key)]
  rfl

/-- **A write evicts at most one other key**, and counts the eviction. -/
theorem slot_apply_ne (hk : k ≠ key) :
    (s.apply now key v).1.slot k = s.slot k ∨
      (s.apply now key v).1.slot k = none ∧ (s.apply now key v).1.evictions = s.evictions + 1 := by
  simp only [apply, slot_update]
  split
  · rename_i hi
    rcases Cache.slot_apply_ne (s.shard_wellFormed key) now key v hk with h | ⟨h, he⟩
    · exact Or.inl (by rw [h, slot, shard_congr hi])
    · refine Or.inr ⟨h, ?_⟩
      have hsum := s.evictions_update ((s.shard_wellFormed key).apply now key v)
        (apply_keys (s.shard_wellFormed key) now key v)
      rw [he] at hsum
      omega
  · exact Or.inl rfl

/-- What a slot holds after a write it held before, or it is the write. -/
theorem slot_apply_origin {e : CacheEntry} (h : (s.apply now key v).1.slot k = some e) :
    s.slot k = some e ∨ k = key ∧ e = v.toEntry (s.shard key).tombstoneTtl now := by
  by_cases hk : k = key
  · subst hk
    rw [slot_apply] at h
    rcases applySlot_eq_or (s.shard k).tombstoneTtl now v (s.slot k) with hw | hw
    · rw [hw] at h
      exact Or.inr ⟨rfl, (Option.some.inj h).symm⟩
    · exact Or.inl (hw ▸ h)
  · rcases slot_apply_ne hk with hs | ⟨hs, -⟩
    · exact Or.inl (hs ▸ h)
    · simp [hs] at h

/-- **A removal empties one slot.** -/
theorem slot_remove : (s.remove now key).1.slot k = if k = key then none else s.slot k := by
  rw [remove, slot_update, Cache.slot_remove (s.shard_wellFormed key)]
  by_cases hk : k = key
  · simp [hk]
  · rw [if_neg hk, if_neg hk]
    split
    · rename_i hi
      rw [slot, shard_congr hi]
    · rfl

/-- **The snapshots of the shards list the unexpired entries**, each in the shard of its key. -/
theorem mem_shardSnapshot {i : ℕ} {x : VersionedValue} :
    (k, x) ∈ s.shardSnapshot i now ↔ i = s.shardIndex k ∧
      ∃ e, s.slot k = some e ∧ e.isExpired now = false ∧ x = e.versioned now := by
  unfold shardSnapshot
  constructor
  · intro hx
    cases hc : s.shards[i]? with
    | none => simp [hc] at hx
    | some c =>
      simp only [hc] at hx
      have hwf := s.wellFormed c (List.mem_of_getElem? hc)
      obtain ⟨e, he, hexp⟩ := (Cache.mem_snapshot hwf).mp hx
      obtain ⟨n, hn, rfl, -⟩ := (Cache.slot_eq_some hwf).mp he
      obtain rfl : s.shardIndex n.key = i := s.placed i c hc n hn
      obtain rfl : c = s.shard n.key :=
        Option.some.inj (hc.symm.trans (s.getElem?_shardIndex n.key))
      exact ⟨rfl, e, he, hexp⟩
  · rintro ⟨rfl, e, he, hexp⟩
    rw [getElem?_shardIndex]
    exact (Cache.mem_snapshot (s.shard_wellFormed k)).mpr ⟨e, he, hexp⟩

/-- A snapshot of a shard lists every key once. -/
theorem nodup_keys_shardSnapshot (s : ShardedCache) (i : ℕ) (now : Time) :
    ((s.shardSnapshot i now).map Prod.fst).Nodup := by
  unfold shardSnapshot
  cases hc : s.shards[i]? with
  | none => simp
  | some c => exact Cache.nodup_keys_snapshot (s.wellFormed c (List.mem_of_getElem? hc)) now

end ShardedCache

end ShardCache
