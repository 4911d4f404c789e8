import ShardCache.Store.SnapshotMerge

/-!
# The order of a restored cache

`save_snapshot` walks the list of every shard from the front to the back, and `load_snapshot` applies
the entries in the order of the file, each to the front of its list. The entry that was used last is
then applied first, and ends up at the back: a restored shard evicts its most recently used entry
first.

## Main definitions

* `ShardedCache.keyLists`: the keys of every shard, in the order of its list

## Main results

* `Snapshot.keyLists_load`: a restored shard lists the unexpired keys of the source in reverse
* `Snapshot.restored_order_iff`: the order survives exactly if no shard holds more than one entry
-/

namespace ShardCache

open Foundations

/-- A list without repetitions that is its own reverse has at most one element. -/
theorem length_le_one_of_reverse_eq {α : Type} {l : List α} (hnodup : l.Nodup)
    (h : l.reverse = l) : l.length ≤ 1 := by
  cases l with
  | nil => simp
  | cons a rest =>
    cases hrest : rest.reverse with
    | nil => simp [List.reverse_eq_nil_iff.mp hrest]
    | cons b others =>
      -- the last element is the first one, and is among the others
      rw [List.reverse_cons, hrest, List.cons_append] at h
      obtain rfl : b = a := (List.cons.inj h).1
      have hmem : b ∈ rest := by
        rw [← List.mem_reverse, hrest]
        exact List.mem_cons_self
      exact absurd hmem (List.nodup_cons.mp hnodup).1

namespace Cache

variable {c : Cache} {key : Key} {now : Time} {v : VersionedValue} {keys : Finset Key}

/-- With room for it, a new key comes to the front of the others. -/
theorem Room.keys_apply_new (hroom : c.Room keys) (h : c.WellFormed) (hkey : key ∈ keys)
    (hf : c.find key = none) (now : Time) (v : VersionedValue) :
    (c.apply now key v).1.keys = key :: c.keys := by
  simp only [Cache.apply, hf]
  rw [if_neg (hroom.not_full h hkey hf)]
  rfl

/-- The unexpired keys in reverse are the keys of the list exactly if it has at most one, and no
expired one. -/
theorem reverse_snapshot_eq_keys_iff (h : c.WellFormed) :
    ((c.snapshot now).map Prod.fst).reverse = c.keys ↔
      c.lru.length ≤ 1 ∧ ∀ n ∈ c.lru, n.entry.isExpired now = false := by
  have hsnapshot : (c.snapshot now).map Prod.fst =
      (c.lru.filter fun n => !n.entry.isExpired now).map LruNode.key := by
    rw [snapshot, List.map_map]
    rfl
  rw [hsnapshot]
  constructor
  · intro heq
    -- no entry is missing, so none has expired
    have hlength := congrArg List.length heq
    simp only [List.length_reverse, List.length_map, keys] at hlength
    have hlive : ∀ n ∈ c.lru, n.entry.isExpired now = false := by
      intro n hn
      simpa using List.length_filter_eq_length_iff.mp hlength n hn
    rw [List.filter_eq_self.mpr fun n hn => by simp [hlive n hn]] at heq
    have hle := length_le_one_of_reverse_eq (nodup_keys h) heq
    exact ⟨by simpa [keys] using hle, hlive⟩
  · rintro ⟨hle, hlive⟩
    rw [List.filter_eq_self.mpr fun n hn => by simp [hlive n hn], keys]
    -- a list of at most one element is its own reverse
    rcases Nat.le_one_iff_eq_zero_or_eq_one.mp hle with hnone | hone
    · rw [List.length_eq_zero_iff.mp hnone]
      rfl
    · obtain ⟨n, hlru⟩ := List.length_eq_one_iff.mp hone
      rw [hlru]
      rfl

end Cache

/-- The elements of one of several lists, if they tell which list they are in. -/
theorem filter_flatten_eq {α : Type} {lists : List (List α)} {index : α → ℕ}
    (h : ∀ i l, lists[i]? = some l → ∀ x ∈ l, index x = i) (i : ℕ) :
    lists.flatten.filter (fun x => index x = i) = (lists[i]?).getD [] := by
  induction lists using List.reverseRecOn with
  | nil => simp
  | append_singleton lists l ih =>
    have hlists (j : ℕ) (l' : List α) (hj : lists[j]? = some l') : ∀ x ∈ l', index x = j := by
      refine h j l' ?_
      rw [List.getElem?_append_left (List.getElem?_eq_some_iff.mp hj).1, hj]
    have hlast : ∀ x ∈ l, index x = lists.length := h lists.length l (by simp)
    rw [List.flatten_append, List.filter_append, ih hlists, List.flatten_singleton]
    rcases Nat.lt_trichotomy i lists.length with hi | rfl | hi
    · -- one of the lists before
      have hnone : l.filter (fun x => index x = i) = [] := by
        rw [List.filter_eq_nil_iff]
        intro x hx
        have := hlast x hx
        simp
        omega
      rw [hnone, List.append_nil, List.getElem?_append_left hi]
    · -- the last list
      have hall : l.filter (fun x => index x = lists.length) = l :=
        List.filter_eq_self.mpr fun x hx => by simp [hlast x hx]
      simp [hall]
    · have hnone : l.filter (fun x => index x = i) = [] := by
        rw [List.filter_eq_nil_iff]
        intro x hx
        have := hlast x hx
        simp
        omega
      rw [hnone, List.append_nil, List.getElem?_eq_none hi.le,
        List.getElem?_eq_none (by simp; omega)]

namespace ShardedCache

variable {s : ShardedCache} {key : Key} {now : Time} {v : VersionedValue} {keys : Finset Key}

/-- The keys of every shard, in the order of its list. -/
def keyLists (s : ShardedCache) : List (List Key) := s.shards.map Cache.keys

/-- With room for it, a new key comes to the front of its list, and the other lists stay. -/
theorem keyLists_apply_new (hroom : s.Room keys) (hkey : key ∈ keys) (hnew : s.slot key = none)
    (now : Time) (v : VersionedValue) (i : ℕ) :
    (s.apply now key v).1.keyLists[i]? =
      (s.keyLists[i]?).map fun ks => if s.shardIndex key = i then key :: ks else ks := by
  have hf : (s.shard key).find key = none := Option.map_eq_none_iff.mp hnew
  have hkeys := (hroom key).keys_apply_new (s.shard_wellFormed key)
    (Finset.mem_filter.mpr ⟨hkey, rfl⟩) hf now v
  have hshards : (s.apply now key v).1.shards =
      s.shards.set (s.shardIndex key) ((s.shard key).apply now key v).1 := rfl
  rw [keyLists, keyLists, hshards, List.getElem?_map, List.getElem?_map, List.getElem?_set]
  split
  · rename_i hi
    subst hi
    rw [if_pos (s.shardIndex_lt key), getElem?_shardIndex]
    simp [hkeys]
  · rename_i hi
    simp only [Option.map_id']

theorem new_max (totalCapacity shardCount : ℕ) (tombstoneTtl : Millis) :
    new totalCapacity (max shardCount 1) tombstoneTtl =
      new totalCapacity shardCount tombstoneTtl := by
  refine eq_of_shards_eq ?_
  simp [new]

end ShardedCache

namespace Snapshot

variable {saveUnixMs loadUnixMs : ℤ} {saveNow : Time} {now : ℕ → Time} {entries : List Entry}
  {keys : Finset Key} {s : ShardedCache × ℕ}

/-- The loop brings the keys of the file to the front of their lists, one after the other. -/
theorem keyLists_foldl_restore (hkeys : ∀ x ∈ entries, x.key ∈ keys) (hroom : s.1.Room keys)
    (hnodup : (entries.map Entry.key).Nodup) (hnew : ∀ x ∈ entries, s.1.slot x.key = none)
    (hkeep : ∀ x ∈ entries, x.restored loadUnixMs ≠ none) (i : ℕ) :
    (entries.foldl (restore loadUnixMs now) s).1.keyLists[i]? =
      (s.1.keyLists[i]?).map fun ks =>
        ((entries.map Entry.key).filter fun k => s.1.shardIndex k = i).reverse ++ ks := by
  -- Induction on the entries, from the cache that the first one leaves.
  induction entries generalizing s with
  | nil => simp
  | cons x entries ih =>
    rw [List.forall_mem_cons] at hkeys hnew hkeep
    rw [List.map_cons, List.nodup_cons] at hnodup
    obtain ⟨v, hv⟩ := Option.ne_none_iff_exists'.mp hkeep.1
    have hstep : restore loadUnixMs now s x = ((s.1.apply (now s.2) x.key v).1, s.2 + 1) := by
      simp only [restore, hv]
    have hindex (k : Key) : (s.1.apply (now s.2) x.key v).1.shardIndex k = s.1.shardIndex k := by
      simp [ShardedCache.shardIndex]
    have hstill : ∀ y ∈ entries, (s.1.apply (now s.2) x.key v).1.slot y.key = none := by
      intro y hy
      have hne : y.key ≠ x.key := fun heq => hnodup.1 (heq ▸ List.mem_map_of_mem hy)
      rw [hroom.slot_apply_ne hkeys.1 hne]
      exact hnew.2 y hy
    rw [List.foldl_cons, hstep, ih hkeys.2 (hroom.apply hkeys.1 _ _) hnodup.2 hstill hkeep.2,
      ShardedCache.keyLists_apply_new hroom hkeys.1 hnew.1, Option.map_map]
    congr 1
    funext ks
    simp only [Function.comp_apply, hindex, List.map_cons, List.filter_cons]
    by_cases hi : s.1.shardIndex x.key = i
    · simp [hi]
    · simp [hi]

variable {source target : ShardedCache} {share count : ℕ} {tombstoneTtl : Millis}

/-- An empty cache with as many shards of the same capacity has room for the keys of the file. -/
theorem room_of_shares (hsource : ShardedCache.Shares share count source) (hshare : 0 < share)
    (htarget : target.shards =
      List.replicate count { capacity := share, tombstoneTtl := tombstoneTtl }) :
    target.Room (listedKeys source saveNow) := by
  intro k
  have hlength : target.shards.length = source.shards.length := by
    rw [htarget, List.length_replicate, hsource.2]
  have hindex (k : Key) : target.shardIndex k = source.shardIndex k := by
    rw [ShardedCache.shardIndex, hlength, ShardedCache.shardIndex]
  have hempty : target.shard k = { capacity := share, tombstoneTtl := tombstoneTtl } := by
    have hmem : target.shard k ∈ target.shards := List.get_mem _ _
    rw [htarget] at hmem
    exact List.eq_of_mem_replicate hmem
  have hmem : source.shard k ∈ source.shards := List.get_mem _ _
  obtain ⟨hbounded, hcapacity⟩ := hsource.1 _ hmem
  -- the keys of the file that belong to this shard are keys of the shard of the source
  have hsubset : (listedKeys source saveNow).filter
      (fun k' => target.shardIndex k' = target.shardIndex k) ⊆ (source.shard k).keys.toFinset := by
    intro k' hk'
    obtain ⟨hlisted, hk'⟩ := Finset.mem_filter.mp hk'
    rw [hindex, hindex] at hk'
    obtain ⟨⟨_, v⟩, hx, rfl⟩ := List.mem_map.mp (List.mem_toFinset.mp hlisted)
    obtain ⟨e, he, -⟩ := ShardedCache.mem_batches.mp hx
    rw [List.mem_toFinset, Cache.mem_keys (source.shard_wellFormed k), ← ShardedCache.shard_congr hk']
    exact Option.ne_none_iff_exists'.mpr ⟨e, he⟩
  refine Or.inr ?_
  rw [hempty]
  simp only [Cache.keys, List.map_nil, List.toFinset_nil, Finset.empty_union]
  calc _ ≤ (source.shard k).keys.toFinset.card := Finset.card_le_card hsubset
    _ ≤ (source.shard k).keys.length := List.toFinset_card_le _
    _ = (source.shard k).lru.length := List.length_map _
    _ ≤ share := hcapacity ▸ hbounded (hcapacity ▸ hshare)

/-- The keys of the file that belong to one shard, in the order of the file. -/
theorem filter_listed (source : ShardedCache) (saveUnixMs : ℤ) (saveNow : Time) (i : ℕ) :
    (((listed source saveUnixMs saveNow).map Entry.key).filter fun k => source.shardIndex k = i) =
      ((source.shards[i]?).map fun c => (c.snapshot saveNow).map Prod.fst).getD [] := by
  have hlists : (listed source saveUnixMs saveNow).map Entry.key =
      (source.shards.map fun c => (c.snapshot saveNow).map Prod.fst).flatten := by
    rw [listed, ShardedCache.batches_eq_map, List.map_map, List.map_flatten, List.map_map]
    rfl
  rw [hlists, filter_flatten_eq, List.getElem?_map]
  intro j l hl k hk
  rw [List.getElem?_map] at hl
  obtain ⟨c, hc, rfl⟩ := Option.map_eq_some_iff.mp hl
  obtain ⟨x, hx, rfl⟩ := List.mem_map.mp hk
  obtain ⟨n, hn, rfl⟩ := List.mem_map.mp hx
  exact source.placed j c hc n (List.mem_of_mem_filter hn)

/-- **A restored shard lists the unexpired keys of the source in reverse.** -/
theorem keyLists_load (target : ShardedCache) (now : ℕ → Time)
    (hsource : ShardedCache.Shares share count source) (hshare : 0 < share)
    (htarget : target.shards =
      List.replicate count { capacity := share, tombstoneTtl := tombstoneTtl })
    (hfits : Fits (source.batches saveNow).flatten)
    (hkeep : ∀ x ∈ listed source saveUnixMs saveNow, x.restored loadUnixMs ≠ none) :
    ∃ restored applied,
      load target (save source saveUnixMs saveNow) loadUnixMs now = .ok (restored, applied) ∧
      restored.keyLists =
        source.shards.map fun c => ((c.snapshot saveNow).map Prod.fst).reverse := by
  have hdecode : decode (save source saveUnixMs saveNow) =
      .ok (listed source saveUnixMs saveNow) := decode_encode saveUnixMs hfits
  refine ⟨((listed source saveUnixMs saveNow).foldl (restore loadUnixMs now) (target, 0)).1,
    ((listed source saveUnixMs saveNow).foldl (restore loadUnixMs now) (target, 0)).2, ?_, ?_⟩
  · simp [load, hdecode, bind, Except.bind, pure, Except.pure]
  · have hempty (k : Key) : target.slot k = none := by
      have hmem : target.shard k ∈ target.shards := List.get_mem _ _
      rw [htarget] at hmem
      rw [ShardedCache.slot, List.eq_of_mem_replicate hmem]
      simp [Cache.slot, Cache.find]
    have hlength : target.shards.length = source.shards.length := by
      rw [htarget, List.length_replicate, hsource.2]
    have hindex : target.shardIndex = source.shardIndex := by
      funext k
      rw [ShardedCache.shardIndex, hlength, ShardedCache.shardIndex]
    refine List.ext_getElem? fun i => ?_
    rw [keyLists_foldl_restore (fun x hx => key_mem_listedKeys hx)
      (room_of_shares hsource hshare htarget) (nodup_listed source saveUnixMs saveNow)
      (fun x _ => hempty x.key) hkeep, hindex, filter_listed, List.getElem?_map]
    -- the lists of the target are empty
    have hlists : target.keyLists = List.replicate source.shards.length [] := by
      rw [ShardedCache.keyLists, htarget, List.map_replicate, hsource.2]
      rfl
    rw [hlists, List.getElem?_replicate]
    cases hc : source.shards[i]? with
    | none => simp [List.getElem?_eq_none_iff.mp hc]
    | some c => simp [(List.getElem?_eq_some_iff.mp hc).1]

/-- A source that was used in any way keeps within its shares. -/
theorem shares_replay (totalCapacity shardCount : ℕ) (tombstoneTtl : Millis)
    (calls : List (Time × Call)) :
    ShardedCache.Shares (max (totalCapacity / max shardCount 1) 1) (max shardCount 1)
      (replay ShardedCache.call (.new totalCapacity shardCount tombstoneTtl) calls).1 := by
  have hnew := ShardedCache.shares_new totalCapacity (le_max_right shardCount 1) tombstoneTtl
  rw [ShardedCache.new_max] at hnew
  exact replay_invariant ShardedCache.call (fun _ i h => h.call i) hnew calls

/-- **A restored node evicts in another order**: two keys are written, and the cache is saved and
restored. The next new key would have evicted the first of them, and evicts the second. -/
theorem restored_in_reverse :
    ∃ restored applied,
      load (.new 2 1 60000) (save (replay ShardedCache.call (.new 2 1 60000)
        [(1, .set [97] [1] none), (2, .set [98] [2] none)]).1 1000 3) 1000 (fun _ => 7) =
          .ok (restored, applied) ∧
      restored.keyLists ≠ (replay ShardedCache.call (.new 2 1 60000)
        [(1, .set [97] [1] none), (2, .set [98] [2] none)]).1.keyLists ∧
      restored.keyLists = [[[97], [98]]] := by
  have hfits : Fits ((replay ShardedCache.call (.new 2 1 60000)
      [(1, .set [97] [1] none), (2, .set [98] [2] none)]).1.batches 3).flatten :=
    ⟨by decide, by decide, by decide⟩
  have hkeep : ∀ x ∈ listed (replay ShardedCache.call (.new 2 1 60000)
      [(1, .set [97] [1] none), (2, .set [98] [2] none)]).1 1000 3, x.restored 1000 ≠ none := by
    decide
  obtain ⟨restored, applied, hload, hkeys⟩ := keyLists_load (.new 2 1 60000) (fun _ => 7)
    (shares_replay 2 1 60000 [(1, .set [97] [1] none), (2, .set [98] [2] none)]) (by decide) rfl
    hfits hkeep
  have hreverse : restored.keyLists = [[[97], [98]]] := hkeys.trans (by decide)
  refine ⟨restored, applied, hload, ?_, hreverse⟩
  rw [hreverse]
  decide

/-- **The order of the lists survives a save and a load** exactly if every shard holds at most one
entry, and none that has expired: the lists come back in reverse. -/
theorem restored_order_iff (totalCapacity shardCount : ℕ) (tombstoneTtl tombstoneTtl' : Millis)
    (calls : List (Time × Call)) (now : ℕ → Time)
    (hsource : source = (replay ShardedCache.call (.new totalCapacity shardCount tombstoneTtl) calls).1)
    (hfits : Fits (source.batches saveNow).flatten)
    (hkeep : ∀ x ∈ listed source saveUnixMs saveNow, x.restored loadUnixMs ≠ none) :
    ∃ restored applied,
      load (.new totalCapacity shardCount tombstoneTtl') (save source saveUnixMs saveNow) loadUnixMs
        now = .ok (restored, applied) ∧
      (restored.keyLists = source.keyLists ↔
        ∀ c ∈ source.shards, c.lru.length ≤ 1 ∧ ∀ n ∈ c.lru, n.entry.isExpired saveNow = false) := by
  have hshares := shares_replay totalCapacity shardCount tombstoneTtl calls
  rw [← hsource] at hshares
  obtain ⟨restored, applied, hload, hkeys⟩ := keyLists_load
    (.new totalCapacity shardCount tombstoneTtl') now hshares
    (Nat.lt_of_lt_of_le Nat.one_pos (le_max_right _ _)) rfl hfits hkeep
  refine ⟨restored, applied, hload, ?_⟩
  rw [hkeys, ShardedCache.keyLists, List.map_inj_left]
  exact forall₂_congr fun c hc => Cache.reverse_snapshot_eq_keys_iff (source.wellFormed c hc)

/-- One key survives in its place. -/
theorem restored_order_oneKey :
    ∃ source restored applied,
      source = (replay ShardedCache.call (.new 2 1 60000) [(1, .set [97] [1] none)]).1 ∧
      load (.new 2 1 60000) (save source 1000 3) 1000 (fun _ => 7) = .ok (restored, applied) ∧
      restored.keyLists = source.keyLists ∧ source.keyLists = [[[97]]] := by
  have hfits : Fits ((replay ShardedCache.call (.new 2 1 60000)
      [(1, .set [97] [1] none)]).1.batches 3).flatten :=
    ⟨by decide, by decide, by decide⟩
  have hkeep : ∀ x ∈ listed (replay ShardedCache.call (.new 2 1 60000)
      [(1, .set [97] [1] none)]).1 1000 3, x.restored 1000 ≠ none := by
    decide
  obtain ⟨restored, applied, hload, horder⟩ := restored_order_iff 2 1 60000 60000
    [(1, .set [97] [1] none)] (fun _ => 7) rfl hfits hkeep
  exact ⟨_, restored, applied, rfl, hload, horder.mpr (by decide), by decide⟩

end Snapshot

end ShardCache
