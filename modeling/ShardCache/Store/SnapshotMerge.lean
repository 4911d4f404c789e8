import ShardCache.Store.SnapshotFile

/-!
# Saving and loading

Loading the file of one cache into another merges the two. The entries of the file are applied one
by one; as long as the target has room for them nothing is evicted, and since the file lists every
key once, each slot is written at most once. Absolute deadlines carry the time to live from one
steady clock to the other.

## Main definitions

* `ShardedCache.Room`: a cache that can take in keys without evictions
* `unexpired`, `newest`: what a slot holds at a time, and the last-writer-wins maximum
* `wallDeadline`: the deadline of an entry on the wall clock
* `Snapshot.carried`: an entry of the source, as it arrives in the target
* `Snapshot.Representable`: the lengths, counts and times of a cache are in the range of their types

## Main results

* `ShardedCache.Room.apply`: a write keeps the room, and changes one slot
* `Snapshot.slot_restored`, `Snapshot.slot_not_restored`: a load writes each slot at most once
* `Snapshot.restored_entryOf`: what is restored of an entry is what is carried
* `Snapshot.save_load_merge`: loading a file merges it into the cache, and once is enough
-/

namespace ShardCache

/-! ## Room -/

theorem applySlot_ne_none (tombstoneTtl : Millis) (now : Time) (v : VersionedValue)
    (slot : Option CacheEntry) : applySlot tombstoneTtl now v slot ≠ none := by
  cases slot with
  | none => simp [applySlot]
  | some e =>
    rw [applySlot]
    split <;> simp

namespace Cache

variable {c : Cache} {key k : Key} {now : Time} {v : VersionedValue} {keys : Finset Key}

/-- The shard can hold its own keys and the given ones. -/
def Room (c : Cache) (keys : Finset Key) : Prop :=
  c.capacity = 0 ∨ (c.keys.toFinset ∪ keys).card ≤ c.capacity

theorem card_keys (h : c.WellFormed) : c.keys.toFinset.card = c.entries.size := by
  rw [List.toFinset_card_of_nodup (nodup_keys h), h.size, keys, List.length_map]

/-- A shard with room for a key that it does not hold is not full. -/
theorem Room.not_full (hroom : c.Room keys) (h : c.WellFormed) (hkey : key ∈ keys)
    (hf : c.find key = none) : ¬(c.capacity > 0 && c.entries.size ≥ c.capacity) := by
  rcases hroom with hcap | hcard
  · simp [hcap]
  · -- the key is not there yet, and there is room for it beside the others
    have hnew : key ∉ c.keys.toFinset := by
      rw [List.mem_toFinset, mem_keys h, not_not]
      exact slot_of_find_none hf
    have hlt : c.keys.toFinset.card < (c.keys.toFinset ∪ keys).card := by
      refine Finset.card_lt_card (Finset.ssubset_iff_subset_ne.mpr ⟨Finset.subset_union_left, ?_⟩)
      intro heq
      rw [heq] at hnew
      exact hnew (Finset.mem_union_right _ hkey)
    rw [card_keys h] at hlt
    simp only [Bool.and_eq_true, decide_eq_true_eq, not_and]
    omega

/-- With room for its key, a write evicts nothing. -/
theorem Room.evictions_apply (hroom : c.Room keys) (h : c.WellFormed) (hkey : key ∈ keys)
    (now : Time) (v : VersionedValue) : (c.apply now key v).1.evictions = c.evictions := by
  unfold apply
  cases hf : c.find key with
  | some n =>
    simp only
    split <;> rfl
  | none =>
    simp only [hroom.not_full h hkey hf]
    rfl

/-- With room for its key, a write adds the key to the others. -/
theorem Room.keys_apply (hroom : c.Room keys) (h : c.WellFormed) (hkey : key ∈ keys) (now : Time)
    (v : VersionedValue) :
    (c.apply now key v).1.keys.toFinset = insert key c.keys.toFinset := by
  have hev := hroom.evictions_apply h hkey now v
  ext k
  rw [List.mem_toFinset, mem_keys (h.apply now key v), Finset.mem_insert, List.mem_toFinset,
    mem_keys h]
  by_cases hk : k = key
  · subst hk
    simp [slot_apply h, applySlot_ne_none]
  · rcases slot_apply_ne h now key v hk with hs | ⟨-, hs⟩
    · simp [hs, hk]
    · omega

theorem Room.apply (hroom : c.Room keys) (h : c.WellFormed) (hkey : key ∈ keys) (now : Time)
    (v : VersionedValue) : (c.apply now key v).1.Room keys := by
  unfold Room
  rw [(Follows.apply c now key v).capacity, hroom.keys_apply h hkey, Finset.insert_union,
    Finset.insert_eq_self.mpr (Finset.mem_union_right _ hkey)]
  exact hroom

end Cache

namespace ShardedCache

variable {s : ShardedCache} {key k : Key} {now : Time} {v : VersionedValue} {keys : Finset Key}

/-- Every shard can hold its own keys and those of the given ones that are placed in it. -/
def Room (s : ShardedCache) (keys : Finset Key) : Prop :=
  ∀ k, (s.shard k).Room (keys.filter fun k' => s.shardIndex k' = s.shardIndex k)

theorem shard_apply (s : ShardedCache) (now : Time) (key : Key) (v : VersionedValue) (k : Key) :
    (s.apply now key v).1.shard k =
      if s.shardIndex k = s.shardIndex key then ((s.shard key).apply now key v).1
      else s.shard k := by
  rw [apply, shard_update]

theorem tombstoneTtl_shard_apply (s : ShardedCache) (now : Time) (key : Key) (v : VersionedValue)
    (k : Key) : ((s.apply now key v).1.shard k).tombstoneTtl = (s.shard k).tombstoneTtl := by
  rw [shard_apply]
  split
  · rename_i hindex
    rw [(Cache.Follows.apply _ now key v).tombstoneTtl, shard_congr hindex]
  · rfl

/-- **With room for its key, a write keeps the room.** -/
theorem Room.apply (hroom : s.Room keys) (hkey : key ∈ keys) (now : Time) (v : VersionedValue) :
    (s.apply now key v).1.Room keys := by
  intro k
  have hindex (k' : Key) : (s.apply now key v).1.shardIndex k' = s.shardIndex k' := by
    rw [shardIndex, length_apply, shardIndex]
  simp only [hindex, shard_apply]
  split
  · rename_i hk
    rw [hk]
    exact (hroom key).apply (s.shard_wellFormed key) (Finset.mem_filter.mpr ⟨hkey, rfl⟩) now v
  · exact hroom k

/-- **With room for its key, a write changes one slot.** -/
theorem Room.slot_apply_ne (hroom : s.Room keys) (hkey : key ∈ keys) (hk : k ≠ key) :
    (s.apply now key v).1.slot k = s.slot k := by
  rcases ShardedCache.slot_apply_ne hk with hslot | ⟨-, hev⟩
  · exact hslot
  · have hsum : (s.apply now key v).1.evictions + (s.shard key).evictions =
        s.evictions + ((s.shard key).apply now key v).1.evictions :=
      s.evictions_update ((s.shard_wellFormed key).apply now key v)
        (apply_keys (s.shard_wellFormed key) now key v)
    have hsame := (hroom key).evictions_apply (s.shard_wellFormed key)
      (Finset.mem_filter.mpr ⟨hkey, rfl⟩) now v
    omega

/-- A write that does not supersede an unexpired entry changes nothing. -/
theorem apply_eq_self {e : CacheEntry} (hslot : s.slot key = some e)
    (hlive : e.isExpired now = false)
    (hold : supersedes v.version v.tombstone v.value e = false) : (s.apply now key v).1 = s := by
  have hshard : ((s.shard key).apply now key v).1 = s.shard key := by
    obtain ⟨n, hf, rfl⟩ := Option.map_eq_some_iff.mp hslot
    simp [Cache.apply, hf, hlive, hold]
  refine eq_of_shards_eq ?_
  change s.shards.set (s.shardIndex key) ((s.shard key).apply now key v).1 = s.shards
  rw [hshard]
  exact List.set_getElem_self (s.shardIndex_lt key)

end ShardedCache

/-! ## Slots -/

/-- What a slot holds that has not expired at the time `now`. -/
def unexpired (now : Time) (slot : Option CacheEntry) : Option CacheEntry :=
  slot.filter fun e => !e.isExpired now

@[simp] theorem unexpired_none (now : Time) : unexpired now none = none := rfl

theorem unexpired_some_of_expired {now : Time} {e : CacheEntry} (h : e.isExpired now = true) :
    unexpired now (some e) = none := by
  simp [unexpired, h, Option.filter_some]

theorem unexpired_some_of_live {now : Time} {e : CacheEntry} (h : e.isExpired now = false) :
    unexpired now (some e) = some e := by
  simp [unexpired, h, Option.filter_some]

/-- The last-writer-wins maximum of two entries; the first, if they are equal. -/
def newest : Option CacheEntry → Option CacheEntry → Option CacheEntry
  | none, y => y
  | some x, none => some x
  | some x, some y => if x.tag < y.tag then some y else some x

/-- **A write leaves the newer of itself and the unexpired entry.** -/
theorem unexpired_applySlot (tombstoneTtl : Millis) (now : Time) (v : VersionedValue)
    (slot : Option CacheEntry) :
    unexpired now (applySlot tombstoneTtl now v slot) =
      unexpired now (newest (unexpired now slot) (some (v.toEntry tombstoneTtl now))) := by
  cases slot with
  | none => rfl
  | some e =>
    cases hlive : e.isExpired now with
    | true => simp [unexpired_some_of_expired hlive, applySlot, newest, hlive]
    | false =>
      rw [unexpired_some_of_live hlive]
      by_cases hnewer : supersedes v.version v.tombstone v.value e = true
      · have hlt : e.tag < v.tag := supersedes_iff.mp hnewer
        simp [applySlot, newest, hnewer, hlt]
      · have hle : ¬e.tag < v.tag := fun hlt => hnewer (supersedes_iff.mpr hlt)
        simp [applySlot, newest, hlive, hnewer, hle]

theorem unexpired_newest_none (now : Time) (slot : Option CacheEntry) :
    unexpired now (newest (unexpired now slot) none) = unexpired now slot := by
  cases slot with
  | none => rfl
  | some e =>
    cases hlive : e.isExpired now with
    | true => simp [unexpired_some_of_expired hlive, newest]
    | false => simp [unexpired_some_of_live hlive, newest]

/-- The deadline of an entry on the wall clock, in milliseconds; the wall clock and the steady clock
stand at the given times. -/
def wallDeadline (unixMs : ℤ) (now : Time) (e : CacheEntry) : Option ℤ :=
  e.expiresAt.map fun deadline => unixMs + millisUntil deadline now

namespace Snapshot

/-- An entry of the source as it arrives in the target, if it had not expired when it was saved and
its deadline on the wall clock has not passed when it is loaded. A tombstone starts its window
anew. -/
def carried (tombstoneTtl : Millis) (saveUnixMs : ℤ) (saveNow : Time) (loadUnixMs : ℤ)
    (loadNow : Time) (e : CacheEntry) : Option CacheEntry :=
  if e.isExpired saveNow then none
  else if e.tombstone then some { e with expiresAt := some (loadNow + tombstoneTtl.ticks) }
  else
    match wallDeadline saveUnixMs saveNow e with
    | none => some { e with expiresAt := none }
    | some deadline =>
      if deadline ≤ loadUnixMs then none
      else some { e with expiresAt := some (loadNow + Millis.ticks (deadline - loadUnixMs).toNat) }

/-- The lengths and the number of the entries of a cache, its deadlines and the wall clock are in the
range of their types: lengths of keys and values are 32-bit numbers and their number is a 64-bit
number, and both clocks count nanoseconds in 63 bits. -/
structure Representable (cache : ShardedCache) (unixMs : ℤ) : Prop where
  key : ∀ k e, cache.slot k = some e → k.length < 2 ^ 32
  value : ∀ k e, cache.slot k = some e → e.value.length < 2 ^ 32
  count : cache.pairs.length < 2 ^ 64
  deadline : ∀ k e (deadline : ℕ), cache.slot k = some e → e.expiresAt = some deadline →
    deadline < 2 ^ 63
  epoch : 0 ≤ unixMs
  clock : unixMs * 1000000 < 2 ^ 63

variable {saveUnixMs loadUnixMs : ℤ} {saveNow loadNow : Time} {k : Key} {e : CacheEntry}

theorem restored_of_neg {x : Entry} (h : x.expiry < 0) :
    x.restored loadUnixMs =
      some { x.value with ttl := if x.value.tombstone then none else x.value.ttl } := by
  rw [Entry.restored, if_neg (not_le.mpr h)]

theorem restored_of_nonneg {x : Entry} (h : 0 ≤ x.expiry) :
    x.restored loadUnixMs =
      if x.expiry ≤ loadUnixMs then none
      else some { x.value with
        ttl := if x.value.tombstone then none else some (x.expiry - loadUnixMs).toNat } := by
  rw [Entry.restored, if_pos h]

/-- **What is restored of an entry is what is carried.** -/
theorem restored_entryOf (k : Key) (hlive : e.isExpired saveNow = false)
    (hdeadline : ∀ deadline : ℕ, e.expiresAt = some deadline → deadline < 2 ^ 63)
    (hepoch : 0 ≤ saveUnixMs) (hclock : saveUnixMs * 1000000 < 2 ^ 63) (tombstoneTtl : Millis)
    (loadUnixMs : ℤ) (loadNow : Time) :
    ((entryOf saveUnixMs (k, e.versioned saveNow)).restored loadUnixMs).map
        (VersionedValue.toEntry tombstoneTtl loadNow) =
      carried tombstoneTtl saveUnixMs saveNow loadUnixMs loadNow e := by
  have hnever : wrapInt64 (-1) = -1 := by decide
  rw [carried, hlive, if_neg Bool.false_ne_true]
  cases htomb : e.tombstone with
  | true =>
    -- a tombstone is written without a deadline
    have hexpiry : (entryOf saveUnixMs (k, e.versioned saveNow)).expiry = -1 := by
      simp [entryOf, CacheEntry.versioned, htomb, expiryOf, hnever]
    rw [restored_of_neg (by omega)]
    simp [entryOf, CacheEntry.versioned, htomb, VersionedValue.toEntry, VersionedValue.deadline]
  | false =>
    cases hexpires : e.expiresAt with
    | none =>
      have hexpiry : (entryOf saveUnixMs (k, e.versioned saveNow)).expiry = -1 := by
        simp [entryOf, CacheEntry.versioned, htomb, hexpires, expiryOf, hnever]
      rw [restored_of_neg (by omega)]
      simp [entryOf, CacheEntry.versioned, htomb, VersionedValue.toEntry, VersionedValue.deadline,
        wallDeadline, hexpires]
    | some deadline =>
      -- what is written is the wall clock plus the milliseconds left, which fits 64 bits
      have hlt := hdeadline deadline hexpires
      obtain ⟨left, hleft⟩ : ∃ left : ℕ, millisUntil deadline saveNow = left := ⟨_, rfl⟩
      have hbound : left < 2 ^ 62 := by
        rw [← hleft]
        exact Nat.div_lt_of_lt_mul ((Nat.sub_le _ _).trans_lt (hlt.trans (by norm_num)))
      have hexpiry : (entryOf saveUnixMs (k, e.versioned saveNow)).expiry = saveUnixMs + left := by
        have hwritten : expiryOf saveUnixMs (e.versioned saveNow).ttl = saveUnixMs + left := by
          simp [CacheEntry.versioned, htomb, hexpires, expiryOf, hleft]
        rw [entryOf, hwritten]
        exact wrapInt64_eq (by omega) (by omega)
      rw [restored_of_nonneg (by omega), hexpiry]
      simp only [wallDeadline, hexpires, Option.map_some, hleft]
      split
      · simp
      · simp [entryOf, CacheEntry.versioned, htomb, VersionedValue.toEntry, VersionedValue.deadline]

/-- **The deadline on the wall clock is preserved.** -/
theorem wallDeadline_carried {tombstoneTtl : Millis} {e' : CacheEntry}
    (h : carried tombstoneTtl saveUnixMs saveNow loadUnixMs loadNow e = some e')
    (htomb : e.tombstone = false) :
    wallDeadline loadUnixMs loadNow e' = wallDeadline saveUnixMs saveNow e := by
  unfold carried at h
  rw [htomb, if_neg Bool.false_ne_true] at h
  split at h
  · cases h
  · cases hwall : wallDeadline saveUnixMs saveNow e with
    | none =>
      rw [hwall] at h
      rw [← Option.some.inj h]
      rfl
    | some deadline =>
      rw [hwall] at h
      simp only at h
      split at h
      · cases h
      · -- the new deadline is a whole number of milliseconds away, so nothing is truncated again
        rename_i hlater
        rw [← Option.some.inj h]
        have hmillis (d : ℕ) : millisUntil (loadNow + Millis.ticks d) loadNow = d := by
          simp [millisUntil, Millis.ticks]
        simp only [wallDeadline, Option.map_some, hmillis, Option.some.injEq]
        omega

/-! ## The loop -/

section Loop

variable {s : ShardedCache × ℕ} {x : Entry} {v : VersionedValue} {entries : List Entry}
  {keys : Finset Key}

theorem room_restore (hroom : s.1.Room keys) (hkey : x.key ∈ keys) (loadUnixMs : ℤ)
    (loadNow : Time) : (restore loadUnixMs (fun _ => loadNow) s x).1.Room keys := by
  unfold restore
  split
  · exact hroom
  · exact hroom.apply hkey _ _

theorem tombstoneTtl_restore (s : ShardedCache × ℕ) (x : Entry) (k : Key) :
    ((restore loadUnixMs (fun _ => loadNow) s x).1.shard k).tombstoneTtl =
      (s.1.shard k).tombstoneTtl := by
  unfold restore
  split
  · rfl
  · exact ShardedCache.tombstoneTtl_shard_apply _ _ _ _ k

theorem slot_restore_of_ne (hroom : s.1.Room keys) (hkey : x.key ∈ keys)
    (hk : x.key = k → x.restored loadUnixMs = none) :
    (restore loadUnixMs (fun _ => loadNow) s x).1.slot k = s.1.slot k := by
  unfold restore
  cases hv : x.restored loadUnixMs with
  | none => rfl
  | some v =>
    refine hroom.slot_apply_ne hkey ?_
    rintro rfl
    exact absurd (hk rfl) (by simp [hv])

/-- A load leaves the slots alone of which nothing is restored. -/
theorem slot_not_restored (hkeys : ∀ x ∈ entries, x.key ∈ keys) (hroom : s.1.Room keys)
    (hk : ∀ x ∈ entries, x.key = k → x.restored loadUnixMs = none) :
    (entries.foldl (restore loadUnixMs fun _ => loadNow) s).1.slot k = s.1.slot k := by
  induction entries generalizing s with
  | nil => rfl
  | cons x entries ih =>
    rw [List.forall_mem_cons] at hkeys hk
    rw [List.foldl_cons, ih hkeys.2 (room_restore hroom hkeys.1 _ _) hk.2]
    exact slot_restore_of_ne hroom hkeys.1 hk.1

/-- A load applies each entry once to its slot. -/
theorem slot_restored (hnodup : (entries.map Entry.key).Nodup) (hkeys : ∀ x ∈ entries, x.key ∈ keys)
    (hroom : s.1.Room keys) (hx : x ∈ entries) (hv : x.restored loadUnixMs = some v)
    (loadNow : Time) : (entries.foldl (restore loadUnixMs fun _ => loadNow) s).1.slot x.key =
      applySlot (s.1.shard x.key).tombstoneTtl loadNow v (s.1.slot x.key) := by
  induction entries generalizing s with
  | nil => simp at hx
  | cons y entries ih =>
    rw [List.map_cons, List.nodup_cons] at hnodup
    rw [List.forall_mem_cons] at hkeys
    have hroom' := room_restore hroom hkeys.1 loadUnixMs loadNow
    rw [List.foldl_cons]
    rcases List.mem_cons.mp hx with rfl | hx
    · -- no entry after this one has its key
      have hlast : ∀ y ∈ entries, y.key = x.key → y.restored loadUnixMs = none := by
        intro y hy hkey
        exact absurd (hkey ▸ List.mem_map_of_mem hy) hnodup.1
      rw [slot_not_restored hkeys.2 hroom' hlast]
      simp only [restore, hv]
      exact ShardedCache.slot_apply
    · -- an entry before this one has another key
      have hne : y.key = x.key → y.restored loadUnixMs = none := fun hkey =>
        absurd (hkey ▸ List.mem_map_of_mem hx) hnodup.1
      rw [ih hnodup.2 hkeys.2 hroom' hx, tombstoneTtl_restore, slot_restore_of_ne hroom hkeys.1 hne]

/-- Entries that are all older than what the cache holds change nothing. -/
theorem foldl_restore_eq_self {cache : ShardedCache} {n : ℕ}
    (hold : ∀ x ∈ entries, ∀ v, x.restored loadUnixMs = some v →
      ∃ e, cache.slot x.key = some e ∧ e.isExpired loadNow = false ∧
        supersedes v.version v.tombstone v.value e = false) :
    (entries.foldl (restore loadUnixMs fun _ => loadNow) (cache, n)).1 = cache := by
  induction entries generalizing n with
  | nil => rfl
  | cons x entries ih =>
    rw [List.forall_mem_cons] at hold
    rw [List.foldl_cons]
    cases hv : x.restored loadUnixMs with
    | none =>
      simp only [restore, hv]
      exact ih hold.2
    | some v =>
      obtain ⟨e, hslot, hlive, holder⟩ := hold.1 v hv
      simp only [restore, hv, ShardedCache.apply_eq_self hslot hlive holder]
      exact ih hold.2

end Loop

/-! ## Saving and loading -/

/-- The entries of the file of a cache. -/
def listed (source : ShardedCache) (saveUnixMs : ℤ) (saveNow : Time) : List Entry :=
  (source.batches saveNow).flatten.map (entryOf saveUnixMs)

/-- The keys of the file of a cache. -/
def listedKeys (source : ShardedCache) (saveNow : Time) : Finset Key :=
  ((source.batches saveNow).flatten.map Prod.fst).toFinset

variable {source target : ShardedCache}

theorem mem_listed {x : Entry} :
    x ∈ listed source saveUnixMs saveNow ↔ ∃ k e, source.slot k = some e ∧
      e.isExpired saveNow = false ∧ x = entryOf saveUnixMs (k, e.versioned saveNow) := by
  simp only [listed, List.mem_map, Prod.exists, ShardedCache.mem_batches]
  constructor
  · rintro ⟨k, -, ⟨e, he, hlive, rfl⟩, rfl⟩
    exact ⟨k, e, he, hlive, rfl⟩
  · rintro ⟨k, e, he, hlive, rfl⟩
    exact ⟨k, _, ⟨e, he, hlive, rfl⟩, rfl⟩

theorem key_mem_listedKeys {x : Entry} (hx : x ∈ listed source saveUnixMs saveNow) :
    x.key ∈ listedKeys source saveNow := by
  obtain ⟨y, hy, rfl⟩ := List.mem_map.mp hx
  exact List.mem_toFinset.mpr (List.mem_map_of_mem hy)

theorem nodup_listed (source : ShardedCache) (saveUnixMs : ℤ) (saveNow : Time) :
    ((listed source saveUnixMs saveNow).map Entry.key).Nodup := by
  rw [listed, List.map_map]
  exact source.nodup_keys_batches saveNow

theorem Representable.fits (h : Representable source saveUnixMs) (saveNow : Time) :
    Fits (source.batches saveNow).flatten where
  count := by
    refine lt_of_le_of_lt ?_ h.count
    rw [ShardedCache.flatten_batches, List.length_map]
    exact List.length_filter_le _ _
  key x hx := by
    obtain ⟨e, he, -⟩ := ShardedCache.mem_batches.mp hx
    exact h.key x.1 e he
  value x hx := by
    obtain ⟨e, he, -, hv⟩ := ShardedCache.mem_batches.mp hx
    rw [hv]
    exact h.value x.1 e he

/-- **What a load makes of the slot of a key.** -/
theorem slot_load (hsource : Representable source saveUnixMs)
    (hroom : target.Room (listedKeys source saveNow)) (k : Key) :
    unexpired loadNow (((listed source saveUnixMs saveNow).foldl
        (restore loadUnixMs fun _ => loadNow) (target, 0)).1.slot k) =
      unexpired loadNow (newest (unexpired loadNow (target.slot k))
        ((source.slot k).bind (carried (target.shard k).tombstoneTtl saveUnixMs saveNow loadUnixMs
          loadNow))) := by
  -- Either the file lists the key, or the slot stays as it is.
  by_cases hlisted : ∃ e, source.slot k = some e ∧ e.isExpired saveNow = false
  · obtain ⟨e, he, hlive⟩ := hlisted
    have hcarried := restored_entryOf k hlive (fun d => hsource.deadline k e d he) hsource.epoch
      hsource.clock (target.shard k).tombstoneTtl loadUnixMs loadNow
    rw [he, Option.bind_some, ← hcarried]
    -- a listed entry can expire between the save and the load
    cases hv : (entryOf saveUnixMs (k, e.versioned saveNow)).restored loadUnixMs with
    | none =>
      have hnone : ∀ x ∈ listed source saveUnixMs saveNow, x.key = k →
          x.restored loadUnixMs = none := by
        intro x hx hkey
        obtain ⟨k', e', he', -, rfl⟩ := mem_listed.mp hx
        obtain rfl : k' = k := hkey
        obtain rfl : e' = e := Option.some.inj (he'.symm.trans he)
        exact hv
      rw [slot_not_restored (fun x hx => key_mem_listedKeys hx) hroom hnone, Option.map_none,
        unexpired_newest_none]
    | some v =>
      have hslot := slot_restored (s := (target, 0)) (nodup_listed source saveUnixMs saveNow)
        (fun x hx => key_mem_listedKeys hx) hroom (mem_listed.mpr ⟨k, e, he, hlive, rfl⟩) hv loadNow
      have hkey : (entryOf saveUnixMs (k, e.versioned saveNow)).key = k := rfl
      rw [hkey] at hslot
      rw [hslot, unexpired_applySlot, Option.map_some]
  · -- no line of the file is about this key
    have hnone : ∀ x ∈ listed source saveUnixMs saveNow, x.key = k →
        x.restored loadUnixMs = none := by
      intro x hx hkey
      obtain ⟨k', e, he, hlive, rfl⟩ := mem_listed.mp hx
      obtain rfl : k' = k := hkey
      exact absurd ⟨e, he, hlive⟩ hlisted
    have hcarried : (source.slot k).bind (carried (target.shard k).tombstoneTtl saveUnixMs saveNow
        loadUnixMs loadNow) = none := by
      refine Option.bind_eq_none_iff.mpr fun e he => ?_
      have hexpired : e.isExpired saveNow = true := by
        by_contra hlive
        exact hlisted ⟨e, he, Bool.not_eq_true _ ▸ hlive⟩
      rw [carried, if_pos hexpired]
    rw [slot_not_restored (fun x hx => key_mem_listedKeys hx) hroom hnone, hcarried,
      unexpired_newest_none]

theorem tag_restored {x : Entry} {v : VersionedValue} (h : x.restored loadUnixMs = some v) :
    v.tag = x.value.tag := by
  unfold Entry.restored at h
  split at h
  · split at h
    · cases h
    · rw [← Option.some.inj h]
      rfl
  · rw [← Option.some.inj h]
    rfl

/-- What is restored later is restored now. -/
theorem restored_of_later {x : Entry} {laterUnixMs : ℤ} {v : VersionedValue}
    (hle : loadUnixMs ≤ laterUnixMs) (h : x.restored laterUnixMs = some v) :
    ∃ v', x.restored loadUnixMs = some v' := by
  unfold Entry.restored at h ⊢
  split at h
  · rename_i hexpiry
    split at h
    · cases h
    · rename_i hlater
      rw [if_pos hexpiry, if_neg (by omega)]
      exact ⟨_, rfl⟩
  · rename_i hexpiry
    rw [if_neg hexpiry]
    exact ⟨_, rfl⟩

theorem le_deadline_toEntry {tombstoneTtl : Millis} {now : Time} {v : VersionedValue}
    {deadline : Time} (h : (v.toEntry tombstoneTtl now).expiresAt = some deadline) :
    now ≤ deadline := by
  have hdeadline : v.deadline tombstoneTtl now = some deadline := h
  unfold VersionedValue.deadline at hdeadline
  split at hdeadline
  · rw [← Option.some.inj hdeadline]
    exact Nat.le_add_right _ _
  · obtain ⟨ttl, -, rfl⟩ := Option.map_eq_some_iff.mp hdeadline
    exact Nat.le_add_right _ _

theorem lt_deadline_of_live {now deadline : Time} {e : CacheEntry} (hlive : e.isExpired now = false)
    (h : e.expiresAt = some deadline) : now < deadline := by
  simpa [CacheEntry.isExpired, h] using hlive

/-- What a slot holds after a write is not older than the write, and had not expired before it. -/
theorem applySlot_spec {tombstoneTtl : Millis} {now : Time} {v : VersionedValue}
    {slot : Option CacheEntry} {e : CacheEntry} (h : applySlot tombstoneTtl now v slot = some e) :
    v.tag ≤ e.tag ∧ ∀ deadline, e.expiresAt = some deadline → now ≤ deadline := by
  constructor
  · have hle := le_slotTag_applySlot tombstoneTtl now v slot
    rw [h, slotTag_some, WithBot.coe_le_coe] at hle
    exact hle
  · intro deadline hdeadline
    cases slot with
    | none =>
      obtain rfl := Option.some.inj h
      exact le_deadline_toEntry hdeadline
    | some e' =>
      rw [applySlot] at h
      split at h
      · -- the entry stays, because it had not expired
        rename_i hstays
        obtain rfl := Option.some.inj h
        simp only [Bool.and_eq_true, Bool.not_eq_true'] at hstays
        exact (lt_deadline_of_live hstays.1 hdeadline).le
      · obtain rfl := Option.some.inj h
        exact le_deadline_toEntry hdeadline

/-- Loading the entries again changes nothing, if nothing has expired in between. -/
theorem load_again (hroom : target.Room (listedKeys source saveNow)) {laterUnixMs : ℤ}
    {laterNow : Time} (hle : loadUnixMs ≤ laterUnixMs) {target' : ShardedCache} {n m : ℕ}
    (hload : (listed source saveUnixMs saveNow).foldl (restore loadUnixMs fun _ => loadNow)
      (target, n) = (target', m))
    (hbetween : ∀ k e deadline, target'.slot k = some e → e.expiresAt = some deadline →
      deadline < loadNow ∨ laterNow < deadline) (n' : ℕ) :
    ((listed source saveUnixMs saveNow).foldl (restore laterUnixMs fun _ => laterNow)
      (target', n')).1 = target' := by
  -- Every entry of the file finds its key with an entry that is no older and still there.
  refine foldl_restore_eq_self ?_
  intro x hx v hv
  obtain ⟨v', hv'⟩ := restored_of_later hle hv
  have hslot := slot_restored (s := (target, n)) (nodup_listed source saveUnixMs saveNow)
    (fun x hx => key_mem_listedKeys hx) hroom hx hv' loadNow
  rw [hload] at hslot
  obtain ⟨e, he⟩ := Option.ne_none_iff_exists'.mp
    (applySlot_ne_none (target.shard x.key).tombstoneTtl loadNow v' (target.slot x.key))
  obtain ⟨hnewer, hlive⟩ := applySlot_spec he
  have he' : target'.slot x.key = some e := hslot.trans he
  refine ⟨e, he', ?_, ?_⟩
  · -- it had not expired at the first load, and nothing expires in between
    cases hexpires : e.expiresAt with
    | none => simp [CacheEntry.isExpired, hexpires]
    | some deadline =>
      have hloaded := hlive deadline hexpires
      rcases hbetween x.key e deadline he' hexpires with hbefore | hafter
      · exact absurd hbefore (not_lt.mpr hloaded)
      · simpa [CacheEntry.isExpired, hexpires] using hafter
  · rw [tag_restored hv', ← tag_restored hv] at hnewer
    by_contra hsup
    exact absurd (supersedes_iff.mp (Bool.not_eq_false _ ▸ hsup)) (not_lt.mpr hnewer)

/-- What is carried keeps the value, the version and whether it is a tombstone. -/
theorem tag_carried {tombstoneTtl : Millis} {e' : CacheEntry}
    (h : carried tombstoneTtl saveUnixMs saveNow loadUnixMs loadNow e = some e') :
    e'.value = e.value ∧ e'.version = e.version ∧ e'.tombstone = e.tombstone := by
  unfold carried at h
  split at h
  · cases h
  · split at h
    · rw [← Option.some.inj h]
      exact ⟨rfl, rfl, rfl⟩
    · split at h
      · rw [← Option.some.inj h]
        exact ⟨rfl, rfl, rfl⟩
      · split at h
        · cases h
        · rw [← Option.some.inj h]
          exact ⟨rfl, rfl, rfl⟩

/-- **Saving and loading merge losslessly.** Loading the file of one cache into another that has room
for its keys makes the unexpired entry of every key the last-writer-wins maximum of what was there
and of what the source carries over: its entry that had not expired when it was saved, and whose
deadline has not passed. Such an entry keeps its value, its version, whether it is a tombstone, and
its deadline on the wall clock; a tombstone starts its window anew. Loading the file again changes
nothing further, if nothing has expired in between. -/
theorem save_load_merge {path path' : String} {outcome : FileOutcome} {file : Bytes} {stats : Stats}
    (hsource : Representable source saveUnixMs)
    (hroom : target.Room (listedKeys source saveNow))
    (hsave : saveSnapshot source path saveUnixMs saveNow outcome = .ok (file, stats))
    (loadUnixMs : ℤ) (loadNow : Time) :
    ∃ (target' : ShardedCache) (loaded : Stats),
      loadSnapshot target path' (some file) loadUnixMs (fun _ => loadNow) = (target', .ok loaded) ∧
      (∀ k, unexpired loadNow (target'.slot k) =
        unexpired loadNow (newest (unexpired loadNow (target.slot k))
          ((source.slot k).bind (carried (target.shard k).tombstoneTtl saveUnixMs saveNow loadUnixMs
            loadNow)))) ∧
      (∀ k e e', source.slot k = some e →
        carried (target.shard k).tombstoneTtl saveUnixMs saveNow loadUnixMs loadNow e = some e' →
          (e'.value = e.value ∧ e'.version = e.version ∧ e'.tombstone = e.tombstone) ∧
          (e.tombstone = false →
            wallDeadline loadUnixMs loadNow e' = wallDeadline saveUnixMs saveNow e)) ∧
      ∀ (laterUnixMs : ℤ) (laterNow : Time), loadUnixMs ≤ laterUnixMs →
        (∀ k e deadline, target'.slot k = some e → e.expiresAt = some deadline →
          deadline < loadNow ∨ laterNow < deadline) →
        ∃ reloaded, loadSnapshot target' path' (some file) laterUnixMs (fun _ => laterNow) =
          (target', .ok reloaded) := by
  have hfile := file_of_save hsave
  have hdecode : decode file = .ok (listed source saveUnixMs saveNow) := by
    rw [hfile]
    exact decode_encode saveUnixMs (hsource.fits saveNow)
  -- a load of this file folds `restore` over the entries that were listed
  have hload (cache : ShardedCache) (unixMs : ℤ) (now : Time) :
      loadSnapshot cache path' (some file) unixMs (fun _ => now) =
        (((listed source saveUnixMs saveNow).foldl (restore unixMs fun _ => now) (cache, 0)).1,
          .ok ⟨((listed source saveUnixMs saveNow).foldl (restore unixMs fun _ => now)
            (cache, 0)).2, file.length⟩) := by
    simp [loadSnapshot, load, hdecode, bind, Except.bind, pure, Except.pure]
  refine ⟨_, _, hload target loadUnixMs loadNow, ?_, ?_, ?_⟩
  · exact slot_load hsource hroom
  · intro k e e' _ hcarried
    exact ⟨tag_carried hcarried, wallDeadline_carried hcarried⟩
  · intro laterUnixMs laterNow hle hbetween
    rw [hload, load_again hroom hle rfl hbetween 0]
    exact ⟨_, rfl⟩

/-- A cache with one entry, which lives for five milliseconds. -/
def oneEntry : ShardedCache :=
  ((ShardedCache.new 64 1 0).apply 0 [107] ⟨[118], 1, false, some 5⟩).1

theorem slot_oneEntry {k : Key} {e : CacheEntry} (h : oneEntry.slot k = some e) :
    k = [107] ∧ e = ⟨[118], some 5000000, 1, false⟩ := by
  rcases ShardedCache.slot_apply_origin h with hnew | ⟨hk, he⟩
  · rw [ShardedCache.slot_new] at hnew
    cases hnew
  · exact ⟨hk, he⟩

theorem representable_oneEntry : Representable oneEntry 1000 where
  key k e h := by
    rw [(slot_oneEntry h).1]
    decide
  value k e h := by
    rw [(slot_oneEntry h).2]
    decide
  count := by decide
  deadline k e deadline h hdeadline := by
    rw [(slot_oneEntry h).2] at hdeadline
    rw [← Option.some.inj hdeadline]
    norm_num
  epoch := by norm_num
  clock := by norm_num

/-- A cache with an older entry under the same key, and with another key. -/
def olderEntry : ShardedCache :=
  (((ShardedCache.new 64 1 0).apply 0 [107] ⟨[119], 0, false, none⟩).1.apply 0 [108]
    ⟨[120], 9, false, none⟩).1

theorem room_olderEntry : olderEntry.Room (listedKeys oneEntry 0) := by
  intro k
  have hlen : olderEntry.shards.length = 1 := by decide
  have hshard : olderEntry.shard k = olderEntry.shard [107] :=
    ShardedCache.shard_congr (by simp [ShardedCache.shardIndex, hlen, Nat.mod_one])
  have hcapacity : (olderEntry.shard [107]).capacity = 64 := by decide
  have hkeys : (olderEntry.shard [107]).keys.toFinset.card = 2 := by decide
  have hcard : (listedKeys oneEntry 0).card = 1 := by decide
  rw [hshard]
  refine Or.inr ((Finset.card_union_le _ _).trans ?_)
  have hle := Finset.card_filter_le (listedKeys oneEntry 0)
    fun k' => olderEntry.shardIndex k' = olderEntry.shardIndex k
  omega

/-- The newer entry replaces the older one, and two milliseconds after it was saved it has three
milliseconds left. The other key stays. -/
theorem save_load_merge_olderEntry :
    ∃ (target' : ShardedCache) (loaded : Stats),
      loadSnapshot olderEntry "cache.snap" (some (save oneEntry 1000 0)) 1002 (fun _ => 7) =
        (target', .ok loaded) ∧
      unexpired 7 (target'.slot [107]) = some ⟨[118], some 3000007, 1, false⟩ ∧
      unexpired 7 (target'.slot [108]) = some ⟨[120], none, 9, false⟩ := by
  have hsave : saveSnapshot oneEntry "cache.snap" 1000 0 {} = .ok (save oneEntry 1000 0,
      ⟨(oneEntry.batches 0).flatten.length, (save oneEntry 1000 0).length⟩) := rfl
  obtain ⟨target', loaded, hload, hslot, -⟩ :=
    save_load_merge representable_oneEntry room_olderEntry hsave 1002 7
  refine ⟨target', loaded, hload, (hslot [107]).trans ?_, (hslot [108]).trans ?_⟩ <;> decide

end Snapshot

end ShardCache
