import ShardCache.Foundations.Run
import ShardCache.Foundations.UseOrder
import ShardCache.Store.Operations

/-!
# Throttled promotion and the order of eviction

A write moves its node to the front of the list, and so does a hit of `Cache::get`, unless the node
was promoted within the interval. The time of the last promotion is not the time of the last access:
writes do not record it, and the hits in between do not either. The last node of the list is still a
least recently used one, up to the interval, because the nodes in front of a node were all accessed
since its last promotion.

## Main definitions

* `Cache.promotions`: the keys in the order of the list, each with the time of its last promotion
* `Cache.Fronts c c' key p`: the key came to the front, and nothing else came in
* `UsedCache`, `UsedCache.step`: a shard, with the time of the last access of each key
* `UsedCache.EvictsLeastRecent`: a call evicts no key that was accessed an interval after one that
  stays

## Main results

* `Cache.fronts_apply`, `Cache.fronts_set`, `Cache.fronts_promote`: writes and promotions
* `UsedCache.throttled_evicts_in_order`: every run of calls evicts in order of access, up to the
  interval
-/

namespace ShardCache

open Foundations

namespace Cache

variable {c c' : Cache} {n : LruNode} {k key x : Key} {now p : Time} {v : VersionedValue}

/-! ## The order of the keys -/

/-- The keys in the order of the list, each with the time of its last promotion. -/
def promotions (c : Cache) : List (Key × Time) := c.lru.map fun n => (n.key, n.lastPromoted)

@[simp] theorem map_fst_promotions (c : Cache) : c.promotions.map Prod.fst = c.keys := by
  simp [promotions, keys]

/-- The key is at the front, with this time of promotion; behind it are keys from before. -/
def Fronts (c c' : Cache) (key : Key) (p : Time) : Prop :=
  ∃ rest, c'.promotions = (key, p) :: rest ∧ rest.Sublist c.promotions ∧ key ∉ rest.map Prod.fst

/-- A node that is taken out of the list leaves the other keys. -/
theorem fronts_cons_filter (h : c.WellFormed) (hn : n ∈ c.lru) (n' : LruNode)
    (hkey : n'.key = n.key) (hlru : c'.lru = n' :: c.lru.filter fun m => m.it != n.it) :
    Fronts c c' n.key n'.lastPromoted := by
  refine ⟨(c.lru.filter fun m => m.it != n.it).map fun n => (n.key, n.lastPromoted), ?_,
    List.filter_sublist.map _, ?_⟩
  · rw [promotions, hlru, List.map_cons, hkey]
  · intro hmem
    rw [List.map_map] at hmem
    obtain ⟨m, hm, hmkey⟩ := List.mem_map.mp hmem
    exact ((h.mem_filter_it hn).mp hm).2 hmkey

theorem fronts_replaceFront (h : c.WellFormed) (hn : n ∈ c.lru) (e : CacheEntry) :
    Fronts c (c.replaceFront n e) n.key n.lastPromoted :=
  fronts_cons_filter h hn { n with entry := e } rfl rfl

theorem fronts_promote (h : c.WellFormed) (hn : n ∈ c.lru) (now : Time) :
    Fronts c (c.promote n now) n.key now :=
  fronts_cons_filter h hn { n with lastPromoted := now } rfl rfl

/-- A new key comes to the front, after an eviction if the shard is full. -/
theorem fronts_emplaceFront (h : c.WellFormed) (hf : c.find key = none) (e : CacheEntry)
    {room : Cache} (hroom : room.lru = c.lru ∨ room.lru = c.lru.dropLast) :
    Fronts c (room.emplaceFront key e) key 0 := by
  have hsub : room.lru.Sublist c.lru := by
    rcases hroom with hroom | hroom
    · rw [hroom]
    · rw [hroom]
      exact List.dropLast_sublist _
  refine ⟨room.promotions, rfl, hsub.map _, ?_⟩
  rw [map_fst_promotions]
  intro hmem
  obtain ⟨m, hm, hkey⟩ := List.mem_map.mp hmem
  exact h.find_eq_none.mp hf m (hsub.subset hm) hkey

theorem mem_promotions (hn : n ∈ c.lru) : (n.key, n.lastPromoted) ∈ c.promotions :=
  List.mem_map_of_mem hn

/-- A write that is stored brings its key to the front. The time of its promotion stays, or is that
of a node never promoted. -/
theorem fronts_apply (h : c.WellFormed) (hstored : (c.apply now key v).2 = true) :
    ∃ p, Fronts c (c.apply now key v).1 key p ∧ (p = 0 ∨ (key, p) ∈ c.promotions) := by
  unfold apply at hstored ⊢
  cases hf : c.find key with
  | some n =>
    obtain ⟨hn, rfl⟩ := h.find_eq_some.mp hf
    simp only [hf] at hstored ⊢
    split at hstored
    · cases hstored
    · -- a write moves the node and leaves `last_promoted` alone
      rename_i hnew
      rw [if_neg hnew]
      exact ⟨_, fronts_replaceFront h hn _, Or.inr (mem_promotions hn)⟩
  | none =>
    simp only
    split
    · exact ⟨0, fronts_emplaceFront h hf _ (Or.inr (lru_evictLruUnsafe h)), Or.inl rfl⟩
    · exact ⟨0, fronts_emplaceFront h hf _ (Or.inl rfl), Or.inl rfl⟩

/-- A write that is not stored changes nothing. -/
theorem apply_of_refused (hrefused : (c.apply now key v).2 = false) :
    (c.apply now key v).1 = c := by
  unfold apply at hrefused ⊢
  cases hf : c.find key with
  | none => simp [hf] at hrefused
  | some n =>
    simp only [hf] at hrefused ⊢
    split at hrefused
    · rename_i hold
      rw [if_pos hold]
    · cases hrefused

theorem fronts_set (h : c.WellFormed) (now : Time) (key : Key) (value : Bytes)
    (ttl : Option Millis) :
    ∃ p, Fronts c (c.set now key value ttl) key p ∧ (p = 0 ∨ (key, p) ∈ c.promotions) := by
  cases hf : c.find key with
  | some n =>
    obtain ⟨hn, rfl⟩ := h.find_eq_some.mp hf
    simp only [set, hf]
    exact ⟨_, fronts_replaceFront h hn _, Or.inr (mem_promotions hn)⟩
  | none =>
    rw [set_eq_apply hf]
    exact fronts_apply h (by simp [apply, hf])

/-- A write that is stored moves its key to the front. -/
theorem keys_apply (h : c.WellFormed) (hnew : ∀ e, c.slot key = some e →
      e.isExpired now = true ∨ supersedes v.version v.tombstone v.value e = true) :
    ∃ rest, (c.apply now key v).1.keys = key :: rest ∧ rest.Sublist c.keys ∧ key ∉ rest := by
  have hstored : (c.apply now key v).2 = true := by
    unfold apply
    cases hf : c.find key with
    | none => rfl
    | some n =>
      rcases hnew n.entry (slot_of_find hf) with hexp | hsup
      · simp [hexp]
      · simp [hsup]
  obtain ⟨p, ⟨rest, hfront, hsub, hkey⟩, -⟩ := fronts_apply h hstored
  refine ⟨rest.map Prod.fst, ?_, ?_, hkey⟩
  · rw [← map_fst_promotions, hfront, List.map_cons]
  · rw [← map_fst_promotions]
    exact hsub.map _

/-- Replacing an entry evicts no key. -/
theorem mem_keys_replaceFront (h : c.WellFormed) (hn : n ∈ c.lru) (e : CacheEntry)
    (hx : x ∈ c.keys) : x ∈ (c.replaceFront n e).keys := by
  obtain ⟨m, hm, rfl⟩ := List.mem_map.mp hx
  by_cases hmn : m.key = n.key
  · rw [hmn]
    exact List.mem_cons_self
  · exact List.mem_cons_of_mem _ (List.mem_map_of_mem ((h.mem_filter_it hn).mpr ⟨hm, hmn⟩))

/-- A key that a write evicts is the last one of the list. -/
theorem keys_apply_evicted (h : c.WellFormed) (hx : x ∈ c.keys)
    (hgone : x ∉ (c.apply now key v).1.keys) :
    ∃ rest, c.keys = rest ++ [x] ∧ (c.apply now key v).1.keys = key :: rest := by
  unfold apply at hgone ⊢
  cases hf : c.find key with
  | some n =>
    -- a key that is stored evicts none
    exfalso
    simp only [hf] at hgone
    split at hgone
    · exact hgone hx
    · exact hgone (mem_keys_replaceFront h (h.find_eq_some.mp hf).1 _ hx)
  | none =>
    simp only [hf] at hgone ⊢
    split at hgone
    · -- the shard is full
      rename_i hfull
      rw [if_pos hfull]
      have hkeys : (c.evictLruUnsafe.emplaceFront key (v.toEntry c.tombstoneTtl now)).keys =
          key :: c.keys.dropLast := by
        simp [keys, emplaceFront, lru_evictLruUnsafe h]
      rw [hkeys] at hgone ⊢
      refine ⟨c.keys.dropLast, ?_, rfl⟩
      have hne : c.keys ≠ [] := List.ne_nil_of_mem hx
      have hsplit := List.dropLast_append_getLast hne
      rw [← hsplit, List.mem_append, List.mem_singleton] at hx
      rcases hx with hx | rfl
      · exact absurd (List.mem_cons_of_mem _ hx) hgone
      · exact hsplit.symm
    · -- there is room
      exact absurd (List.mem_cons_of_mem _ hx) hgone

theorem keys_set_evicted (h : c.WellFormed) {value : Bytes} {ttl : Option Millis} (hx : x ∈ c.keys)
    (hgone : x ∉ (c.set now key value ttl).keys) :
    ∃ rest, c.keys = rest ++ [x] ∧ (c.set now key value ttl).keys = key :: rest := by
  cases hf : c.find key with
  | none =>
    rw [set_eq_apply hf] at hgone ⊢
    exact keys_apply_evicted h hx hgone
  | some n =>
    simp only [set, hf] at hgone
    exact absurd (mem_keys_replaceFront h (h.find_eq_some.mp hf).1 _ hx) hgone

/-- What a read does: it finds nothing, or it finds the key promoted within the interval, or it
promotes it. -/
theorem get_cases (h : c.WellFormed) (now : Time) (key : Key) :
    (c.get now key = (c, none)) ∨
      (∃ p value, (key, p) ∈ c.promotions ∧ now - p < promoteInterval.ticks ∧
        c.get now key = (c, some value)) ∨
      ∃ value, Fronts c (c.get now key).1 key now ∧ (c.get now key).2 = some value := by
  unfold get
  cases hf : c.find key with
  | none => exact Or.inl rfl
  | some n =>
    obtain ⟨hn, rfl⟩ := h.find_eq_some.mp hf
    simp only
    split
    · -- a tombstone, or an expired entry
      exact Or.inl rfl
    · split
      · rename_i hrecent
        exact Or.inr (Or.inl ⟨_, _, mem_promotions hn, hrecent.2, rfl⟩)
      · exact Or.inr (Or.inr ⟨_, fronts_promote h hn now, rfl⟩)

theorem promotions_purgeExpired_sublist (h : c.WellFormed) (now : Time) :
    (c.purgeExpired now).promotions.Sublist c.promotions := by
  rw [promotions, lru_purgeExpired h]
  exact List.filter_sublist.map _

end Cache

/-- The key that an operation accesses: one that it writes, or returns. A write that is not accepted
accesses nothing. -/
def CacheOp.accesses (c : Cache) : CacheOp → Option Key
  | .apply now key v => if (c.apply now key v).2 then some key else none
  | .set _ key _ _ => some key
  | .get now key => if (c.get now key).2.isSome then some key else none
  | .purgeExpired _ => none

/-- A shard, with the time of the last call, and for each key the time of its last access. -/
structure UsedCache where
  cache : Cache
  time : Time := 0
  lastAccess : Key → Option Time := fun _ => none

namespace UsedCache

/-! ## Calls and accesses -/

/-- A shard that has not been called. -/
def start (capacity : ℕ) (tombstoneTtl : Millis) : UsedCache where
  cache := { capacity := capacity, tombstoneTtl := tombstoneTtl }

/-- The shard after a call, at times that do not go back. -/
def step (s : UsedCache) (op : CacheOp) : Option UsedCache :=
  if s.time ≤ op.now then
    (s.cache.step op).map fun c => ⟨c, op.now,
      match op.accesses s.cache with
      | some key => Function.update s.lastAccess key (some op.now)
      | none => s.lastAccess⟩
  else none

/-- A key that the call evicts was not accessed as much as an interval later than a key that
stays. -/
def EvictsLeastRecent (s s' : UsedCache) : Prop :=
  ∀ x y, s.cache.slot x ≠ none → s'.cache.slot x = none → s'.cache.slot y ≠ none →
    ∃ tx ty, s'.lastAccess x = some tx ∧ s'.lastAccess y = some ty ∧
      tx < ty + Cache.promoteInterval.ticks

variable {s s' : UsedCache} {op : CacheOp} {ops : List CacheOp}

/-- What a call does to the list: it brings the key that it accesses to the front, or leaves it where
it is within the interval of its promotion, or accesses nothing. -/
theorem step_cases (hs : s.cache.WellFormed) (h : step s op = some s') :
    s.time ≤ op.now ∧ s.cache.step op = some s'.cache ∧ s'.time = op.now ∧
      ((∃ key p, Cache.Fronts s.cache s'.cache key p ∧
          (p = 0 ∨ p = op.now ∨ (key, p) ∈ s.cache.promotions) ∧
          s'.lastAccess = Function.update s.lastAccess key (some op.now)) ∨
        (∃ key p, (key, p) ∈ s.cache.promotions ∧ op.now - p < Cache.promoteInterval.ticks ∧
          s'.cache = s.cache ∧ s'.lastAccess = Function.update s.lastAccess key (some op.now)) ∨
        (s'.cache.promotions.Sublist s.cache.promotions ∧ s'.lastAccess = s.lastAccess)) := by
  obtain ⟨hnow, h⟩ := Option.ite_none_right_eq_some.mp h
  obtain ⟨c, hc, rfl⟩ := Option.map_eq_some_iff.mp h
  refine ⟨hnow, hc, rfl, ?_⟩
  cases op with
  | apply now key v =>
    obtain rfl := Option.some.inj hc
    by_cases hstored : (s.cache.apply now key v).2 = true
    · obtain ⟨p, hfront, hp⟩ := Cache.fronts_apply hs hstored
      exact Or.inl ⟨key, p, hfront, by tauto, by simp [CacheOp.accesses, hstored]⟩
    · refine Or.inr (Or.inr ⟨?_, by simp [CacheOp.accesses, hstored]⟩)
      rw [Cache.apply_of_refused (Bool.not_eq_true _ ▸ hstored)]
  | set now key value ttl =>
    obtain rfl := Option.some.inj hc
    obtain ⟨p, hfront, hp⟩ := Cache.fronts_set hs now key value ttl
    exact Or.inl ⟨key, p, hfront, by tauto, rfl⟩
  | get now key =>
    obtain rfl := Option.some.inj hc
    rcases Cache.get_cases hs now key with hmiss | ⟨p, value, hp, hrecent, hget⟩ |
      ⟨value, hfront, hget⟩
    · exact Or.inr (Or.inr ⟨by rw [hmiss], by simp [CacheOp.accesses, hmiss]⟩)
    · exact Or.inr (Or.inl ⟨key, p, hp, hrecent, by rw [hget], by simp [CacheOp.accesses, hget]⟩)
    · exact Or.inl ⟨key, now, hfront, Or.inr (Or.inl rfl), by simp [CacheOp.accesses, hget]⟩
  | purgeExpired now =>
    obtain rfl := Option.some.inj hc
    exact Or.inr (Or.inr ⟨Cache.promotions_purgeExpired_sublist hs now, rfl⟩)

/-! ## The list stays in order of access -/

/-- The list is in order of access, and the nodes in front of a node were accessed since its last
promotion. -/
structure InOrder (s : UsedCache) : Prop where
  wellFormed : s.cache.WellFormed
  order : ThrottledOrder Cache.promoteInterval.ticks s.time s.lastAccess s.cache.promotions

theorem inOrder_start (capacity : ℕ) (tombstoneTtl : Millis) :
    InOrder (start capacity tombstoneTtl) :=
  ⟨Cache.wellFormed_empty capacity tombstoneTtl, ThrottledOrder.nil⟩

/-- Every call keeps the order. -/
theorem InOrder.step (hs : InOrder s) (h : step s op = some s') : InOrder s' := by
  obtain ⟨hnow, hc, htime, hcases⟩ := step_cases hs.wellFormed h
  refine ⟨hs.wellFormed.step hc, ?_⟩
  rw [htime]
  have hinterval : 0 < Cache.promoteInterval.ticks := by decide
  rcases hcases with ⟨key, p, ⟨rest, hfront, hrest, hkey⟩, hp, hlast⟩ |
    ⟨key, p, hp, hrecent, hsame, hlast⟩ | ⟨hsub, hlast⟩
  · -- the key comes to the front
    have hle : p ≤ op.now := by
      rcases hp with rfl | rfl | hp
      · exact Nat.zero_le _
      · exact le_rfl
      · exact (hs.order.le_now hp).trans hnow
    rw [hfront, hlast]
    exact (hs.order.sublist hrest).front hkey hnow hle hinterval
  · -- the key was promoted within the interval
    have hnodup : (s.cache.promotions.map Prod.fst).Nodup := by
      rw [Cache.map_fst_promotions]
      exact Cache.nodup_keys hs.wellFormed
    rw [hsame, hlast]
    exact hs.order.inPlace hnodup hp hnow hinterval (lt_add_of_tsub_lt_left hrecent)
  · -- nothing is accessed, and keys can only disappear
    rw [hlast]
    exact (hs.order.sublist hsub).mono hnow

/-! ## Evictions in order of access -/

/-- A key that a write evicts is the last one of the list, and its own key comes to the front. -/
theorem evicted_cases (hs : s.cache.WellFormed) (h : UsedCache.step s op = some s') {key x : Key}
    (hw : op.writes = some key) (hx : x ∈ s.cache.keys) (hgone : x ∉ s'.cache.keys) :
    ∃ rest, s.cache.keys = rest ++ [x] ∧ s'.cache.keys = key :: rest ∧
      s'.lastAccess = Function.update s.lastAccess key (some op.now) := by
  obtain ⟨-, h⟩ := Option.ite_none_right_eq_some.mp h
  obtain ⟨c, hc, rfl⟩ := Option.map_eq_some_iff.mp h
  cases op with
  | apply now key' v =>
    obtain rfl := Option.some.inj hw
    obtain rfl := Option.some.inj hc
    have hstored : (s.cache.apply now key' v).2 = true := by
      by_contra hrefused
      rw [Cache.apply_of_refused (Bool.not_eq_true _ ▸ hrefused)] at hgone
      exact hgone hx
    obtain ⟨rest, hbefore, hafter⟩ := Cache.keys_apply_evicted hs hx hgone
    exact ⟨rest, hbefore, hafter, by simp [CacheOp.accesses, hstored]⟩
  | set now key' value ttl =>
    obtain rfl := Option.some.inj hw
    obtain rfl := Option.some.inj hc
    obtain ⟨rest, hbefore, hafter⟩ := Cache.keys_set_evicted hs hx hgone
    exact ⟨rest, hbefore, hafter, rfl⟩
  | get => cases hw
  | purgeExpired => cases hw

theorem InOrder.evictsLeastRecent (hs : InOrder s) (h : UsedCache.step s op = some s')
    (hw : op.writes ≠ none) : EvictsLeastRecent s s' := by
  intro x y hx hgone hy
  have hs' := hs.step h
  obtain ⟨key, hw⟩ := Option.ne_none_iff_exists'.mp hw
  rw [← Cache.mem_keys hs.wellFormed] at hx
  rw [← Cache.mem_keys hs'.wellFormed] at hy
  have hgone : x ∉ s'.cache.keys := fun hmem => (Cache.mem_keys hs'.wellFormed).mp hmem hgone
  obtain ⟨rest, hbefore, hafter, hlast⟩ := evicted_cases hs.wellFormed h hw hx hgone
  rw [hafter] at hgone hy
  have hkey : key ∉ rest ++ [x] := by
    have hnodup := Cache.nodup_keys hs'.wellFormed
    rw [hafter, List.nodup_cons] at hnodup
    simp only [List.mem_append, List.mem_singleton, not_or]
    exact ⟨hnodup.1, fun heq => hgone (heq ▸ List.mem_cons_self)⟩
  -- the list before the eviction, with the new key in front
  have horder := hs.order.order
  rw [Cache.map_fst_promotions, hbefore] at horder
  have hfront : UseOrder Cache.promoteInterval.ticks op.now s'.lastAccess ((key :: rest) ++ [x]) := by
    rw [hlast]
    exact horder.front hkey (step_cases hs.wellFormed h).1 (by decide)
  exact hfront.getLast hy

/-- **Throttled eviction is in order of access, up to the interval**: in every run of writes, reads
and sweeps, when a write evicts a key, every key that stays was accessed later than an interval
before the last access of the evicted one. -/
theorem throttled_evicts_in_order {capacity : ℕ} {tombstoneTtl : Millis}
    (hr : run step (start capacity tombstoneTtl) ops = some s) (h : step s op = some s')
    (hw : op.writes ≠ none) : EvictsLeastRecent s s' := by
  have hs : InOrder s := run_invariant (fun _ _ _ hs _ h => hs.step h)
    (inOrder_start capacity tombstoneTtl) (along_true _ _) hr
  exact hs.evictsLeastRecent h hw

/-- A key is read within the interval of its promotion, and stays behind a key that was written since.
It is evicted, less than an interval after its last read. -/
theorem throttled_evicts_withinInterval :
    ∃ s s', run step (start 2 60000)
        [.set 1 [1] [0] none, .get 2 [1], .set 3 [2] [0] none, .get 90000000 [1]] = some s ∧
      step s (.set 90000001 [3] [0] none) = some s' ∧
      s.cache.slot [1] ≠ none ∧ s'.cache.slot [1] = none ∧ EvictsLeastRecent s s' := by
  have hrun : ((run step (start 2 60000)
      [.set 1 [1] [0] none, .get 2 [1], .set 3 [2] [0] none, .get 90000000 [1]]).bind fun s =>
        (step s (.set 90000001 [3] [0] none)).map fun s' =>
          ((s.cache.slot [1]).isSome, s'.cache.slot [1])) = some (true, none) := by decide
  obtain ⟨s, hs, hrun⟩ := Option.bind_eq_some_iff.mp hrun
  obtain ⟨s', hs', hrun⟩ := Option.map_eq_some_iff.mp hrun
  simp only [Prod.mk.injEq] at hrun
  exact ⟨s, s', hs, hs', Option.isSome_iff_ne_none.mp hrun.1, hrun.2,
    throttled_evicts_in_order hs hs' (by simp [CacheOp.writes])⟩

end UsedCache

end ShardCache
