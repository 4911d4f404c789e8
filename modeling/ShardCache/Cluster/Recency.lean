import ShardCache.Store.Recency
import ShardCache.Cluster.LocalNode

/-!
# Reads and the order of eviction

A shard that is full evicts the last node of its list. A write moves its node to the front of the
list, and so does a hit of `Cache::get`, at most once per interval; but the reads of a cluster look
the key up with `Cache::get_versioned`, which leaves the list as it is. A key that is read all the
time can then be evicted before a key that was not used since it was written. The list stays in
order of use as long as every key that is found by a read stands behind keys only that were used
within the interval.

## Main definitions

* `UsedNode`, `UsedNode.step`: a node, with the time of the last use of each key
* `UsedNode.EvictsLeastRecent`: a call evicts no key that was used later than one that stays
* `UsedNode.KeepsOrder`: a read finds its key behind keys only that were used within the interval

## Main results

* `UsedNode.read_key_evicted`: a key that was just read is evicted before one that was not used
* `UsedNode.evicts_least_recent`: a run of puts and of reads behind recent keys evicts in order
-/

namespace ShardCache

open Foundations Replication

/-- A read finds the keys that are live. -/
theorem LocalNode.read_found_iff {s : LocalNode} {now : Time} {key : Key} :
    (s.read now key).status = .found ↔ wasLive now (s.cache.slot key) = true := by
  rw [read, ShardedCache.getVersioned_eq_readSlot]
  cases s.cache.slot key with
  | none => simp [readSlot, toResult, wasLive]
  | some e =>
    cases hexp : e.isExpired now <;> cases htomb : e.tombstone <;>
      simp [readSlot, toResult, wasLive, CacheEntry.isLive, CacheEntry.versioned, hexp, htomb]

/-- A node, with the time of the last call, and for each key the time of its last use: a put, or a
read that found it. -/
structure UsedNode where
  node : LocalNode
  time : Time := 0
  lastUse : Key → Option Time := fun _ => none

namespace UsedNode

/-! ## Puts and reads -/

/-- A node that has not been called. -/
def start (totalCapacity shardCount : ℕ) (tombstoneTtl : Millis) : UsedNode where
  node := { cache := .new totalCapacity shardCount tombstoneTtl }

/-- The node after a put or a read, at times that do not go back. The node serves every key alone. -/
def step (place : Key → Placement) (me : NodeId) (s : UsedNode) : LocalOp → Option UsedNode
  | .put wallMs now key value ttl =>
    if s.time ≤ now ∧ (place key).canServeLocally me true then
      some ⟨(s.node.put wallMs now key value ttl).1, now,
        Function.update s.lastUse key (some now)⟩
    else none
  | .read now key =>
    if s.time ≤ now ∧ (place key).canServeLocally me false then
      some ⟨s.node, now,
        if (s.node.read now key).status = .found then Function.update s.lastUse key (some now)
        else s.lastUse⟩
    else none
  | _ => none

/-- A key that the call evicts was not used as much as an interval later than a key that stays in its
shard. -/
def EvictsLeastRecent (s s' : UsedNode) : Prop :=
  ∀ x y, s.node.cache.slot x ≠ none → s'.node.cache.slot x = none →
    s'.node.cache.shardIndex y = s'.node.cache.shardIndex x → s'.node.cache.slot y ≠ none →
      ∃ tx ty, s'.lastUse x = some tx ∧ s'.lastUse y = some ty ∧
        tx < ty + Cache.promoteInterval.ticks

/-- **A key that was just read is evicted**: two keys are written, the first is read a second later,
and a third key then takes its place. -/
theorem read_key_evicted :
    ∃ s s', run (step LocalNode.alone [97]) (start 2 1 60000)
        [.put 1 1 [1] [0] none, .put 1 2 [2] [0] none, .read 1000000000 [1]] = some s ∧
      step LocalNode.alone [97] s (.put 1 1000000001 [3] [0] none) = some s' ∧
      s'.lastUse [1] = some 1000000000 ∧ s'.lastUse [2] = some 2 ∧ ¬ EvictsLeastRecent s s' := by
  have hrun : ((run (step LocalNode.alone [97]) (start 2 1 60000)
      [.put 1 1 [1] [0] none, .put 1 2 [2] [0] none, .read 1000000000 [1]]).bind fun s =>
        (step LocalNode.alone [97] s (.put 1 1000000001 [3] [0] none)).map fun s' =>
          ((s'.lastUse [1], s'.lastUse [2]), (s.node.cache.slot [1]).isSome,
            s'.node.cache.slot [1], (s'.node.cache.slot [2]).isSome,
            s'.node.cache.shardIndex [2] == s'.node.cache.shardIndex [1])) =
      some ((some 1000000000, some 2), true, none, true, true) := by decide
  obtain ⟨s, hs, hrun⟩ := Option.bind_eq_some_iff.mp hrun
  obtain ⟨s', hs', hrun⟩ := Option.map_eq_some_iff.mp hrun
  simp only [Prod.mk.injEq, beq_iff_eq] at hrun
  obtain ⟨⟨hread, hunused⟩, hstored, hevicted, hstays, hshard⟩ := hrun
  refine ⟨s, s', hs, hs', hread, hunused, ?_⟩
  intro horder
  obtain ⟨tx, ty, htx, hty, hlt⟩ := horder [1] [2] (Option.isSome_iff_ne_none.mp hstored) hevicted
    hshard (Option.isSome_iff_ne_none.mp hstays)
  obtain rfl : 1000000000 = tx := Option.some.inj (hread.symm.trans htx)
  obtain rfl : 2 = ty := Option.some.inj (hunused.symm.trans hty)
  exact absurd hlt (by decide)

variable {place : Key → Placement} {me : NodeId} {s s' : UsedNode} {op : LocalOp}
  {ops : List LocalOp} {k key : Key} {now : Time} {wallMs : UInt64}

/-- What a call does. -/
theorem step_cases (h : step place me s op = some s') :
    (∃ wallMs now key value ttl, op = .put wallMs now key value ttl ∧ s.time ≤ now ∧
      s' = ⟨(s.node.put wallMs now key value ttl).1, now,
        Function.update s.lastUse key (some now)⟩) ∨
    ∃ now key, op = .read now key ∧ s.time ≤ now ∧
      s' = ⟨s.node, now, if wasLive now (s.node.cache.slot key) then
        Function.update s.lastUse key (some now) else s.lastUse⟩ := by
  cases op with
  | put wallMs now key value ttl =>
    obtain ⟨hguard, h⟩ := Option.ite_none_right_eq_some.mp h
    exact Or.inl ⟨wallMs, now, key, value, ttl, rfl, hguard.1, (Option.some.inj h).symm⟩
  | read now key =>
    obtain ⟨hguard, h⟩ := Option.ite_none_right_eq_some.mp h
    refine Or.inr ⟨now, key, rfl, hguard.1, ?_⟩
    simp only [← Option.some.inj h, LocalNode.read_found_iff]
  | _ => cases h

/-! ## The lists stay in order of use -/

/-- A read that finds its key finds it behind keys only that were used within the interval, and the
clock that stamps a put is not at its end. -/
def KeepsOrder (s : UsedNode) : LocalOp → Prop
  | .put .. => s.node.clock ≠ HybridClock.last64
  | .read now key => wasLive now (s.node.cache.slot key) = true →
    ∀ a ∈ (s.node.cache.shard key).keys.takeWhile (· ≠ key), ∀ t ∈ s.lastUse a,
      now < t + Cache.promoteInterval.ticks
  | _ => True

instance (s : UsedNode) (op : LocalOp) : Decidable (KeepsOrder s op) :=
  match op with
  | .put .. => inferInstanceAs (Decidable (_ ≠ _))
  | .read .. => inferInstanceAs (Decidable (_ → ∀ a ∈ _, ∀ t ∈ _, _))
  | .del .. | .expireKey .. | .applyReplicaWrite .. | .observe _ | .stamp _ | .localLeg .. =>
    .isTrue trivial

/-- Every shard is in order of use, and no stored version is ahead of the clock. -/
structure InOrder (s : UsedNode) : Prop where
  accounted : LocalNode.Accounted [] s.node
  order : ∀ k, UseOrder Cache.promoteInterval.ticks s.time s.lastUse (s.node.cache.shard k).keys

theorem inOrder_start (totalCapacity shardCount : ℕ) (tombstoneTtl : Millis) :
    InOrder (start totalCapacity shardCount tombstoneTtl) where
  accounted k e he := by
    simp [start, ShardedCache.slot_new] at he
  order k := by
    have hmem : (ShardedCache.new totalCapacity shardCount tombstoneTtl).shard k ∈
        (ShardedCache.new totalCapacity shardCount tombstoneTtl).shards := List.get_mem _ _
    simp only [start, List.eq_of_mem_replicate hmem]
    exact UseOrder.nil

/-- A key is listed in its own shard only. -/
theorem shardIndex_of_mem_keys {c : ShardedCache} (hkey : key ∈ (c.shard k).keys) :
    c.shardIndex key = c.shardIndex k := by
  obtain ⟨n, hn, rfl⟩ := List.mem_map.mp hkey
  exact c.placed _ _ (c.getElem?_shardIndex k) n hn

/-- A write that is newer than what is stored under its key keeps every shard in order of use. -/
theorem useOrder_apply {c : ShardedCache} {last : Key → Option Time} {slack time : ℕ}
    (hc : ∀ k, UseOrder slack time last (c.shard k).keys) (hslack : 0 < slack) (hnow : time ≤ now)
    {v : VersionedValue} (hnew : ∀ e, c.slot key = some e → e.version < v.version) (k : Key) :
    UseOrder slack now (Function.update last key (some now))
      ((c.apply now key v).1.shard k).keys := by
  rw [ShardedCache.apply, ShardedCache.shard_update]
  split
  · have hstored (e : CacheEntry) (he : (c.shard key).slot key = some e) :
        e.isExpired now = true ∨ supersedes v.version v.tombstone v.value e = true :=
      Or.inr (supersedes_of_version_lt (hnew e he))
    obtain ⟨rest, hkeys, hrest, hkey⟩ := Cache.keys_apply (c.shard_wellFormed key) hstored
    rw [hkeys]
    exact ((hc key).sublist hrest).front hkey hnow hslack
  · rename_i hother
    exact (hc k).absent (fun hkey => hother (shardIndex_of_mem_keys hkey).symm) hnow

theorem InOrder.put (hs : InOrder s) (hend : s.node.clock ≠ HybridClock.last64)
    (hnow : s.time ≤ now) (wallMs : UInt64) (value : Bytes) (ttl : Option Millis) :
    InOrder ⟨(s.node.put wallMs now key value ttl).1, now,
      Function.update s.lastUse key (some now)⟩ where
  accounted := hs.accounted.put hend value ttl
  order k := by
    -- the stamp is past every version in the cache
    have hnew (e : CacheEntry) (he : s.node.cache.slot key = some e) :
        e.version < (s.node.stamp wallMs).clock :=
      LocalNode.version_lt_stamp hs.accounted hend (fun x hx => absurd hx (by simp)) he
    simp only [LocalNode.put, LocalNode.replicate, LocalNode.cache_stamp]
    generalize (s.node.stamp wallMs).clock = version at hnew ⊢
    exact useOrder_apply hs.order (by decide) hnow hnew k

theorem InOrder.read (hs : InOrder s) (hkeep : KeepsOrder s (.read now key))
    (hnow : s.time ≤ now) :
    InOrder ⟨s.node, now, if wasLive now (s.node.cache.slot key) then
      Function.update s.lastUse key (some now) else s.lastUse⟩ where
  accounted := hs.accounted
  order k := by
    have hwf := s.node.cache.shard_wellFormed key
    by_cases hlive : wasLive now (s.node.cache.slot key) = true
    · -- the key is used, and stays where it is in its shard
      simp only [if_pos hlive]
      by_cases hshard : s.node.cache.shardIndex k = s.node.cache.shardIndex key
      · have hstored : key ∈ (s.node.cache.shard key).keys := by
          rw [Cache.mem_keys hwf]
          intro hnone
          simp [ShardedCache.slot, hnone, wasLive] at hlive
        simp only [ShardedCache.shard_congr hshard]
        exact (hs.order key).inPlace (Cache.nodup_keys hwf) hstored hnow (by decide) (hkeep hlive)
      · exact (hs.order k).absent (fun hkey => hshard (shardIndex_of_mem_keys hkey).symm) hnow
    · simp only [if_neg hlive]
      exact (hs.order k).mono hnow

/-- Every call that keeps the order keeps the shards in order of use. -/
theorem InOrder.step (hs : InOrder s) (hkeep : KeepsOrder s op)
    (h : step place me s op = some s') : InOrder s' := by
  rcases step_cases h with ⟨wallMs, now, key, value, ttl, rfl, hnow, rfl⟩ | ⟨now, key, rfl, hnow, rfl⟩
  · exact hs.put hkeep hnow wallMs value ttl
  · exact hs.read hkeep hnow

/-! ## Evictions in order of use -/

/-- A key that a write evicts from shards in order of use is a least recently used one. -/
theorem evicted_apply {c : ShardedCache} {last : Key → Option Time} {slack time : ℕ}
    (hc : ∀ k, UseOrder slack time last (c.shard k).keys) (hslack : 0 < slack) (hnow : time ≤ now)
    {v : VersionedValue} {x y : Key} (hx : c.slot x ≠ none)
    (hgone : (c.apply now key v).1.slot x = none) (hshard : c.shardIndex y = c.shardIndex x)
    (hy : (c.apply now key v).1.slot y ≠ none) :
    ∃ tx ty, Function.update last key (some now) x = some tx ∧
      Function.update last key (some now) y = some ty ∧ tx < ty + slack := by
  have hwf := c.shard_wellFormed key
  have hwf' := hwf.apply now key v
  rw [ShardedCache.apply, ShardedCache.slot_update] at hgone hy
  by_cases hidx : c.shardIndex x = c.shardIndex key
  · rw [if_pos hidx] at hgone
    rw [if_pos (hshard.trans hidx), ← Cache.mem_keys hwf'] at hy
    rw [ShardedCache.slot, ShardedCache.shard_congr hidx, ← Cache.mem_keys hwf] at hx
    have hgone' : x ∉ ((c.shard key).apply now key v).1.keys := fun hmem =>
      (Cache.mem_keys hwf').mp hmem hgone
    obtain ⟨rest, hbefore, hafter⟩ := Cache.keys_apply_evicted hwf hx hgone'
    rw [hafter] at hgone' hy
    have hkey : key ∉ rest ++ [x] := by
      have hnodup := Cache.nodup_keys hwf'
      rw [hafter, List.nodup_cons] at hnodup
      simp only [List.mem_append, List.mem_singleton, not_or]
      exact ⟨hnodup.1, fun heq => hgone' (heq ▸ List.mem_cons_self)⟩
    -- the list before the eviction, with the new key in front
    have horder : UseOrder slack now (Function.update last key (some now)) ((key :: rest) ++ [x]) :=
      (hbefore ▸ hc key).front hkey hnow hslack
    exact horder.getLast hy
  · rw [if_neg hidx] at hgone
    exact absurd hgone hx

/-- A call on shards in order of use evicts a least recently used key. -/
theorem InOrder.evictsLeastRecent (hs : InOrder s) (h : UsedNode.step place me s op = some s') :
    EvictsLeastRecent s s' := by
  intro x y hx hgone hshard hy
  rcases step_cases h with ⟨wallMs, now, key, value, ttl, rfl, hnow, rfl⟩ | ⟨now, key, rfl, hnow, rfl⟩
  · have hindex (c : ShardedCache) (v : VersionedValue) (k : Key) :
        (c.apply now key v).1.shardIndex k = c.shardIndex k := by
      simp [ShardedCache.shardIndex]
    simp only [LocalNode.put, LocalNode.replicate, LocalNode.cache_stamp] at hgone hshard hy
    rw [hindex, hindex] at hshard
    exact evicted_apply hs.order (by decide) hnow hx hgone hshard hy
  · exact absurd hgone hx

/-- **Evictions are in order of use** in every run of puts and reads in which every read that finds
its key finds it behind keys only that were used within the interval: when a key is evicted, no key
that stays in its shard was used an interval or more before it. -/
theorem evicts_least_recent {totalCapacity shardCount : ℕ} {tombstoneTtl : Millis}
    (hr : run (step place me) (start totalCapacity shardCount tombstoneTtl) ops = some s)
    (hkeep : Along (step place me) KeepsOrder (start totalCapacity shardCount tombstoneTtl) ops)
    (h : step place me s op = some s') : EvictsLeastRecent s s' := by
  have hs : InOrder s := run_invariant (fun _ _ _ hs hkeep h => hs.step hkeep h)
    (inOrder_start totalCapacity shardCount tombstoneTtl) hkeep hr
  exact hs.evictsLeastRecent h

/-- A key is read again while the key in front of it was used within the interval. It is evicted,
and the other key was not used much before it. -/
theorem evicts_least_recent_withinInterval :
    ∃ s s', run (step LocalNode.alone [97]) (start 2 1 60000)
        [.put 1 1 [1] [0] none, .put 1 2 [2] [0] none, .read 50000000 [1]] = some s ∧
      step LocalNode.alone [97] s (.put 1 60000000 [3] [0] none) = some s' ∧
      s.node.cache.slot [1] ≠ none ∧ s'.node.cache.slot [1] = none ∧ EvictsLeastRecent s s' := by
  have hrun : ((run (step LocalNode.alone [97]) (start 2 1 60000)
      [.put 1 1 [1] [0] none, .put 1 2 [2] [0] none, .read 50000000 [1]]).bind fun s =>
        (step LocalNode.alone [97] s (.put 1 60000000 [3] [0] none)).map fun s' =>
          ((s.node.cache.slot [1]).isSome, s'.node.cache.slot [1])) = some (true, none) := by
    decide
  obtain ⟨s, hs, hrun⟩ := Option.bind_eq_some_iff.mp hrun
  obtain ⟨s', hs', hrun⟩ := Option.map_eq_some_iff.mp hrun
  simp only [Prod.mk.injEq] at hrun
  have hkeep : Along (step LocalNode.alone [97]) KeepsOrder (start 2 1 60000)
      [.put 1 1 [1] [0] none, .put 1 2 [2] [0] none, .read 50000000 [1]] := by decide
  exact ⟨s, s', hs, hs', Option.isSome_iff_ne_none.mp hrun.1, hrun.2,
    evicts_least_recent hs hkeep hs'⟩

end UsedNode

end ShardCache
