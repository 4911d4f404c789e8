import ShardCache.Store.SnapshotOrder

/-!
# A snapshot whose shards were read at different moments

A save reads the shards one after the other, and other threads work on the cache in between. The
file is not the image of the cache at one moment, but each shard is, and so is each key.

## Main definitions

* `Snapshot.batchesOf`: the batches of a save that reads its shards at different moments
* `Snapshot.lineOf`: the line of a key in its file
* `Snapshot.Readable`: what was read is in the range of its types

## Main results

* `Snapshot.mem_batchesOf`: the batches list of every key what its shard held when it was read
* `Snapshot.slot_load_readings`: what a load makes of such a file
-/

namespace ShardCache

namespace ShardedCache

variable {s : ShardedCache} {share count : ℕ}

/-- A batch of a shard is no longer than the share of the shard. -/
theorem Shares.length_shardSnapshot_le (h : Shares share count s) (hshare : 0 < share) (i : ℕ)
    (now : Time) : (s.shardSnapshot i now).length ≤ share := by
  unfold shardSnapshot
  cases hc : s.shards[i]? with
  | none => exact Nat.zero_le _
  | some c =>
    obtain ⟨hbound, hcap⟩ := h.1 c (List.mem_of_getElem? hc)
    calc (c.snapshot now).length ≤ c.lru.length := by
          rw [Cache.snapshot, List.length_map]
          exact List.length_filter_le _ _
      _ ≤ share := hcap ▸ hbound (hcap ▸ hshare)

end ShardedCache

namespace Snapshot

variable {share count : ℕ} {saveUnixMs loadUnixMs : ℤ} {loadNow : Time}

/-- The batches of a save that found the cache in the first of these states when it read the first
shard, in the second one when it read the second shard, and so on; each with its reading of the
clock. -/
def batchesOf (readings : List (ShardedCache × Time)) : List (List (Key × VersionedValue)) :=
  readings.mapIdx fun i r => r.1.shardSnapshot i r.2

theorem batchesOf_append (readings : List (ShardedCache × Time)) (r : ShardedCache × Time) :
    batchesOf (readings ++ [r]) =
      batchesOf readings ++ [r.1.shardSnapshot readings.length r.2] := by
  simp [batchesOf, List.mapIdx_append]

theorem length_batchesOf (readings : List (ShardedCache × Time)) :
    (batchesOf readings).length = readings.length := List.length_mapIdx

/-- Every shard was read once, and what was read is in the range of its types. -/
structure Readable (share count : ℕ) (saveUnixMs : ℤ) (readings : List (ShardedCache × Time)) :
    Prop where
  length : readings.length = count
  shares : ∀ r ∈ readings, ShardedCache.Shares share count r.1
  key : ∀ r ∈ readings, ∀ k e, r.1.slot k = some e → k.length < 2 ^ 32
  value : ∀ r ∈ readings, ∀ k e, r.1.slot k = some e → e.value.length < 2 ^ 32
  deadline : ∀ r ∈ readings, ∀ k e (deadline : ℕ), r.1.slot k = some e →
    e.expiresAt = some deadline → deadline < 2 ^ 63
  epoch : 0 ≤ saveUnixMs
  clock : saveUnixMs * 1000000 < 2 ^ 63

variable {readings : List (ShardedCache × Time)}

/-- The index of the shard of a key, among this many shards. -/
def indexOf (count : ℕ) (key : Key) : ℕ := (hashFn key).toNat % count

/-- **What the batches list**: of every key, what its shard held when the shard was read. -/
theorem mem_batchesOf (h : ∀ r ∈ readings, ShardedCache.Shares share count r.1) {k : Key}
    {v : VersionedValue} :
    (k, v) ∈ (batchesOf readings).flatten ↔ ∃ r e, readings[indexOf count k]? = some r ∧
      r.1.slot k = some e ∧ e.isExpired r.2 = false ∧ v = e.versioned r.2 := by
  have hindex (i : ℕ) (r : ShardedCache × Time) (hr : readings[i]? = some r) :
      r.1.shardIndex k = indexOf count k := by
    rw [ShardedCache.shardIndex, (h r (List.mem_of_getElem? hr)).2, indexOf]
  constructor
  · intro hx
    obtain ⟨batch, hbatch, hx⟩ := List.mem_flatten.mp hx
    obtain ⟨i, hi⟩ := List.mem_iff_getElem?.mp hbatch
    rw [batchesOf, List.getElem?_mapIdx] at hi
    obtain ⟨r, hr, rfl⟩ := Option.map_eq_some_iff.mp hi
    obtain ⟨hik, e, he⟩ := ShardedCache.mem_shardSnapshot.mp hx
    rw [hindex i r hr] at hik
    exact ⟨r, e, hik ▸ hr, he⟩
  · rintro ⟨r, e, hr, he⟩
    refine List.mem_flatten.mpr ⟨r.1.shardSnapshot (indexOf count k) r.2, ?_, ?_⟩
    · refine List.mem_iff_getElem?.mpr ⟨indexOf count k, ?_⟩
      rw [batchesOf, List.getElem?_mapIdx, hr, Option.map_some]
    · exact ShardedCache.mem_shardSnapshot.mpr ⟨(hindex _ r hr).symm, e, he⟩

/-- The batches list every key once. -/
theorem nodup_batchesOf (h : ∀ r ∈ readings, ShardedCache.Shares share count r.1) :
    ((batchesOf readings).flatten.map Prod.fst).Nodup := by
  have hbatch (i : ℕ) (batch : List (Key × VersionedValue))
      (hb : (batchesOf readings)[i]? = some batch) :
      (batch.map Prod.fst).Nodup ∧ ∀ k ∈ batch.map Prod.fst, indexOf count k = i := by
    rw [batchesOf, List.getElem?_mapIdx] at hb
    obtain ⟨r, hr, rfl⟩ := Option.map_eq_some_iff.mp hb
    refine ⟨ShardedCache.nodup_keys_shardSnapshot _ _ _, ?_⟩
    intro k hk
    obtain ⟨⟨_, v⟩, hx, rfl⟩ := List.mem_map.mp hk
    rw [(ShardedCache.mem_shardSnapshot.mp hx).1, ShardedCache.shardIndex,
      (h r (List.mem_of_getElem? hr)).2, indexOf]
  rw [List.map_flatten, List.nodup_flatten]
  constructor
  · intro keys hkeys
    obtain ⟨batch, hb, rfl⟩ := List.mem_map.mp hkeys
    obtain ⟨i, hi⟩ := List.mem_iff_getElem?.mp hb
    exact (hbatch i batch hi).1
  · -- the keys of two batches belong to different shards
    refine List.pairwise_iff_getElem.mpr ?_
    intro i j hi hj hij k hki hkj
    rw [List.getElem_map] at hki hkj
    rw [List.length_map] at hi hj
    have hindex := (hbatch i _ (List.getElem?_eq_getElem hi)).2 k hki
    have hindex' := (hbatch j _ (List.getElem?_eq_getElem hj)).2 k hkj
    omega

/-- The file of the readings is one that a load accepts. -/
theorem Readable.fits (h : Readable share count saveUnixMs readings) (hshare : 0 < share)
    (hsize : count * share < 2 ^ 64) : Fits (batchesOf readings).flatten where
  count := by
    refine lt_of_le_of_lt ?_ hsize
    rw [List.length_flatten]
    have hsum := List.sum_le_card_nsmul ((batchesOf readings).map List.length) share (by
      intro n hn
      obtain ⟨batch, hbatch, rfl⟩ := List.mem_map.mp hn
      obtain ⟨i, hi⟩ := List.mem_iff_getElem?.mp hbatch
      rw [batchesOf, List.getElem?_mapIdx] at hi
      obtain ⟨r, hr, rfl⟩ := Option.map_eq_some_iff.mp hi
      exact (h.shares r (List.mem_of_getElem? hr)).length_shardSnapshot_le hshare i r.2)
    rwa [List.length_map, length_batchesOf, h.length, smul_eq_mul] at hsum
  key x hx := by
    obtain ⟨r, e, hr, he, -⟩ := (mem_batchesOf h.shares).mp hx
    exact h.key r (List.mem_of_getElem? hr) x.1 e he
  value x hx := by
    obtain ⟨r, e, hr, he, -, hv⟩ := (mem_batchesOf h.shares).mp hx
    rw [hv]
    exact h.value r (List.mem_of_getElem? hr) x.1 e he

variable {target : ShardedCache} {tombstoneTtl : Millis}

/-- An empty cache with as many shards of the same capacity has room for the keys of the file. -/
theorem room_of_readings (h : ∀ r ∈ readings, ShardedCache.Shares share count r.1)
    (hshare : 0 < share) (htarget : target.shards =
      List.replicate count { capacity := share, tombstoneTtl := tombstoneTtl }) :
    target.Room ((batchesOf readings).flatten.map Prod.fst).toFinset := by
  intro k
  have hempty : target.shard k = { capacity := share, tombstoneTtl := tombstoneTtl } := by
    have hmem : target.shard k ∈ target.shards := List.get_mem _ _
    rw [htarget] at hmem
    exact List.eq_of_mem_replicate hmem
  have hindex (k : Key) : target.shardIndex k = indexOf count k := by
    rw [ShardedCache.shardIndex, htarget, List.length_replicate, indexOf]
  refine Or.inr ?_
  rw [hempty]
  simp only [Cache.keys, List.map_nil, List.toFinset_nil, Finset.empty_union]
  cases hr : readings[indexOf count k]? with
  | none =>
    -- no shard was read for this one, so that no key belongs to it
    have hnone : ((batchesOf readings).flatten.map Prod.fst).toFinset.filter
        (fun k' => target.shardIndex k' = target.shardIndex k) = ∅ := by
      refine Finset.filter_eq_empty_iff.mpr ?_
      intro k' hk' heq
      obtain ⟨⟨_, v⟩, hx, rfl⟩ := List.mem_map.mp (List.mem_toFinset.mp hk')
      obtain ⟨r, e, hr', -⟩ := (mem_batchesOf h).mp hx
      rw [hindex, hindex] at heq
      simp [heq, hr] at hr'
    rw [hnone, Finset.card_empty]
    exact Nat.zero_le _
  | some r =>
    have hshares := h r (List.mem_of_getElem? hr)
    obtain ⟨hbounded, hcapacity⟩ := hshares.1 _ (List.get_mem _ _ : r.1.shard k ∈ r.1.shards)
    have hindex' (k : Key) : r.1.shardIndex k = indexOf count k := by
      rw [ShardedCache.shardIndex, hshares.2, indexOf]
    -- the keys of the file that belong to this shard are keys of the shard that was read
    have hsubset : ((batchesOf readings).flatten.map Prod.fst).toFinset.filter
        (fun k' => target.shardIndex k' = target.shardIndex k) ⊆ (r.1.shard k).keys.toFinset := by
      intro k' hk'
      obtain ⟨hlisted, heq⟩ := Finset.mem_filter.mp hk'
      obtain ⟨⟨k₁, v⟩, hx, rfl⟩ := List.mem_map.mp (List.mem_toFinset.mp hlisted)
      obtain ⟨r', e, hr', he, -⟩ := (mem_batchesOf h).mp hx
      rw [hindex, hindex] at heq
      obtain rfl : r = r' := by
        rw [heq] at hr'
        exact Option.some.inj (hr.symm.trans hr')
      have hsame : r.1.shardIndex k₁ = r.1.shardIndex k := by rw [hindex', hindex', heq]
      rw [List.mem_toFinset, Cache.mem_keys (r.1.shard_wellFormed k),
        ← ShardedCache.shard_congr hsame]
      exact Option.ne_none_iff_exists'.mpr ⟨e, he⟩
    calc _ ≤ (r.1.shard k).keys.toFinset.card := Finset.card_le_card hsubset
      _ ≤ (r.1.shard k).keys.length := List.toFinset_card_le _
      _ = (r.1.shard k).lru.length := List.length_map _
      _ ≤ share := hcapacity ▸ hbounded (hcapacity ▸ hshare)

/-- The lines of the file. -/
def linesOf (saveUnixMs : ℤ) (readings : List (ShardedCache × Time)) : List Entry :=
  (batchesOf readings).flatten.map (entryOf saveUnixMs)

/-- The line of a key, if it has one. -/
def lineOf (count : ℕ) (saveUnixMs : ℤ) (readings : List (ShardedCache × Time)) (k : Key) :
    Option Entry :=
  readings[indexOf count k]?.bind fun r => (r.1.slot k).bind fun e =>
    if e.isExpired r.2 then none else some (entryOf saveUnixMs (k, e.versioned r.2))

theorem mem_linesOf (h : ∀ r ∈ readings, ShardedCache.Shares share count r.1) {x : Entry} :
    x ∈ linesOf saveUnixMs readings ↔ lineOf count saveUnixMs readings x.key = some x := by
  simp only [linesOf, lineOf, List.mem_map, Prod.exists, mem_batchesOf h, Option.bind_eq_some_iff,
    Option.ite_none_left_eq_some, Option.some.injEq, Bool.not_eq_true]
  constructor
  · rintro ⟨k, -, ⟨cache, now, e, hr, he, hlive, rfl⟩, rfl⟩
    exact ⟨cache, now, hr, e, he, hlive, rfl⟩
  · rintro ⟨cache, now, hr, e, he, hlive, hx⟩
    exact ⟨x.key, _, ⟨cache, now, e, hr, he, hlive, rfl⟩, hx⟩

/-- What is restored of the line of a key is what is carried of the entry. -/
theorem Readable.restored_lineOf (h : Readable share count saveUnixMs readings) (k : Key) :
    ((lineOf count saveUnixMs readings k).bind (Entry.restored loadUnixMs)).map
        (VersionedValue.toEntry tombstoneTtl loadNow) =
      readings[indexOf count k]?.bind fun r =>
        (r.1.slot k).bind (carried tombstoneTtl saveUnixMs r.2 loadUnixMs loadNow) := by
  rw [lineOf]
  cases hr : readings[indexOf count k]? with
  | none => rfl
  | some r =>
    simp only [Option.bind_some]
    cases he : r.1.slot k with
    | none => rfl
    | some e =>
      simp only [Option.bind_some]
      cases hlive : e.isExpired r.2 with
      | true =>
        rw [carried, if_pos hlive, if_pos rfl]
        rfl
      | false =>
        have hmem := List.mem_of_getElem? hr
        rw [if_neg Bool.false_ne_true, Option.bind_some]
        exact restored_entryOf k hlive (fun d => h.deadline r hmem k e d he) h.epoch h.clock
          tombstoneTtl loadUnixMs loadNow

/-- **What a load makes of the file**: under every key, an empty cache comes to hold what the shard
of the key held when it was read. -/
theorem slot_load_readings (h : Readable share count saveUnixMs readings) (hshare : 0 < share)
    (htarget : target.shards =
      List.replicate count { capacity := share, tombstoneTtl := tombstoneTtl }) (k : Key) :
    ((linesOf saveUnixMs readings).foldl (restore loadUnixMs fun _ => loadNow)
        (target, 0)).1.slot k =
      readings[indexOf count k]?.bind fun r =>
        (r.1.slot k).bind (carried tombstoneTtl saveUnixMs r.2 loadUnixMs loadNow) := by
  have hshard : target.shard k = { capacity := share, tombstoneTtl := tombstoneTtl } := by
    have hmem : target.shard k ∈ target.shards := List.get_mem _ _
    rw [htarget] at hmem
    exact List.eq_of_mem_replicate hmem
  have hempty : target.slot k = none := by
    rw [ShardedCache.slot, hshard]
    simp [Cache.slot, Cache.find]
  have hroom := room_of_readings h.shares hshare htarget
  have hkeys : ∀ x ∈ linesOf saveUnixMs readings,
      x.key ∈ ((batchesOf readings).flatten.map Prod.fst).toFinset := by
    intro x hx
    obtain ⟨y, hy, rfl⟩ := List.mem_map.mp hx
    exact List.mem_toFinset.mpr (List.mem_map_of_mem hy)
  rw [← h.restored_lineOf]
  cases hv : (lineOf count saveUnixMs readings k).bind (Entry.restored loadUnixMs) with
  | none =>
    rw [slot_not_restored hkeys hroom, hempty, Option.map_none]
    rintro x hx rfl
    rwa [(mem_linesOf h.shares).mp hx] at hv
  | some v =>
    obtain ⟨x, hx, hrestored⟩ := Option.bind_eq_some_iff.mp hv
    obtain rfl : x.key = k := by
      simp only [lineOf, Option.bind_eq_some_iff, Option.ite_none_left_eq_some,
        Option.some.injEq] at hx
      obtain ⟨r, -, e, -, -, hx⟩ := hx
      rw [← hx]
      rfl
    have hnodup : ((linesOf saveUnixMs readings).map Entry.key).Nodup := by
      rw [linesOf, List.map_map]
      exact nodup_batchesOf h.shares
    have hslot := slot_restored (s := (target, 0)) hnodup hkeys hroom
      ((mem_linesOf h.shares).mpr hx) hrestored loadNow
    rw [hslot, hshard, hempty]
    rfl

end Snapshot

end ShardCache
