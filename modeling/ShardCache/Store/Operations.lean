import ShardCache.Store.Cache

/-!
# Reads, local writes and expiry of a shard

The operations of `Cache` beside those of replication: writes without a version, reads that promote
what they find, and the sweep that erases expired entries. A new key evicts the last node of a full
list, its victim; nothing else takes the slot of another key away.

## Main definitions

* `Cache.set`, `Cache.get`, `Cache.contains`, `Cache.purgeExpired`
* `Cache.victim`: the key that a new key would evict
* `CacheOp`, `Cache.step`: the operations in any order
* `CacheOp.Spares`: an operation does not evict a key

## Main results

* `Cache.WellFormed.step`: every operation keeps the representation
* `Cache.slot_step`: what an operation does to the slot of a key it does not name
-/

namespace ShardCache

namespace Cache

/-! ## Operations -/

/-- `kPromoteInterval`. -/
def promoteInterval : Millis := 100

/-- `Cache::set`. -/
def set (c : Cache) (now : Time) (key : Key) (value : Bytes) (ttl : Option Millis) : Cache :=
  let e : CacheEntry := { value := value, expiresAt := ttl.map fun ttl => now + ttl.ticks }
  match c.find key with
  | some n => c.replaceFront n e
  | none =>
    let room := if c.capacity > 0 && c.entries.size ≥ c.capacity then c.evictLruUnsafe else c
    room.emplaceFront key e

/-- The node moves to the front, and remembers when. -/
def promote (c : Cache) (n : LruNode) (now : Time) : Cache :=
  { c with lru := { n with lastPromoted := now } :: c.lru.filter fun m => m.it != n.it }

/-- `Cache::get`: a hit moves the node to the front, at most once per interval. -/
def get (c : Cache) (now : Time) (key : Key) : Cache × Option Bytes :=
  match c.find key with
  | none => (c, none)
  | some n =>
    if !n.entry.isLive now then (c, none)
    else if n.lastPromoted ≠ 0 ∧ now - n.lastPromoted < promoteInterval.ticks then
      (c, some n.entry.value)
    else (c.promote n now, some n.entry.value)

/-- `Cache::contains`. -/
def contains (c : Cache) (now : Time) (key : Key) : Bool :=
  (c.find key).any fun n => n.entry.isLive now

/-- One iteration of `purge_expired`. -/
def sweep (now : Time) (c : Cache) (n : LruNode) : Cache :=
  if n.entry.isExpired now then c.eraseUnsafe n else c

/-- `Cache::purge_expired`. -/
def purgeExpired (c : Cache) (now : Time) : Cache := c.lru.foldl (sweep now) c

/-- The key that a new key would evict. -/
def victim (c : Cache) : Option Key :=
  if c.capacity > 0 && c.entries.size ≥ c.capacity then c.lru.getLast?.map LruNode.key else none

end Cache

/-- A call of an operation, with the reading of the clock. -/
inductive CacheOp where
  | apply (now : Time) (key : Key) (v : VersionedValue)
  | set (now : Time) (key : Key) (value : Bytes) (ttl : Option Millis)
  | get (now : Time) (key : Key)
  | purgeExpired (now : Time)
deriving DecidableEq, Repr

namespace CacheOp

/-- The key that a write names. -/
def writes : CacheOp → Option Key
  | .apply _ key _ | .set _ key _ _ => some key
  | .get .. | .purgeExpired _ => none

/-- The reading of the clock. -/
def now : CacheOp → Time
  | .apply now .. | .set now .. | .get now _ | .purgeExpired now => now

/-- The operation does not evict `k`: it brings in no new key, or another one would have to go. -/
def Spares (k : Key) (c : Cache) : CacheOp → Prop
  | .apply _ key _ | .set _ key _ _ => c.find key = none → c.victim ≠ some k
  | .get .. | .purgeExpired _ => True

instance (k : Key) (c : Cache) (op : CacheOp) : Decidable (op.Spares k c) :=
  match op with
  | .apply _ key _ | .set _ key _ _ =>
    inferInstanceAs (Decidable (c.find key = none → c.victim ≠ some k))
  | .get .. | .purgeExpired _ => .isTrue trivial

end CacheOp

namespace Cache

/-- The cache after an operation; operations do not fail. -/
def step (c : Cache) : CacheOp → Option Cache
  | .apply now key v => some (c.apply now key v).1
  | .set now key value ttl => some (c.set now key value ttl)
  | .get now key => some (c.get now key).1
  | .purgeExpired now => some (c.purgeExpired now)

variable {c c' : Cache} {n : LruNode} {k key : Key} {now : Time} {op : CacheOp}

/-! ## The representation -/

/-- A write without a version of a key that is not stored is a write of version 0. -/
theorem set_eq_apply (hf : c.find key = none) (now : Time) (value : Bytes) (ttl : Option Millis) :
    c.set now key value ttl = (c.apply now key ⟨value, 0, false, ttl⟩).1 := by
  simp only [set, apply, hf, VersionedValue.toEntry, VersionedValue.deadline, Bool.false_eq_true,
    if_false]

namespace WellFormed

theorem set (h : c.WellFormed) (now : Time) (key : Key) (value : Bytes) (ttl : Option Millis) :
    (c.set now key value ttl).WellFormed := by
  cases hf : c.find key with
  | none =>
    rw [set_eq_apply hf]
    exact h.apply now key _
  | some n =>
    simp only [Cache.set, hf]
    exact h.replaceFront (h.find_eq_some.mp hf).1 _

theorem promote (h : c.WellFormed) (hn : n ∈ c.lru) (now : Time) :
    (c.promote n now).WellFormed := by
  refine h.moveFront hn { n with lastPromoted := now } rfl rfl rfl rfl rfl ?_
  have hcount := (h.perm_cons_filter hn).countP_eq fun n => n.entry.tombstone
  exact h.tombstones.trans hcount

theorem get (h : c.WellFormed) (now : Time) (key : Key) : (c.get now key).1.WellFormed := by
  unfold Cache.get
  cases hf : c.find key with
  | none => exact h
  | some n =>
    simp only
    split
    · exact h
    · split
      · exact h
      · exact h.promote (h.find_eq_some.mp hf).1 now

/-- The sweep over some nodes of the list takes the expired ones among them out. -/
theorem sweep (h : c.WellFormed) {nodes : List LruNode} (hnodes : ∀ n ∈ nodes, n ∈ c.lru)
    (hnodup : nodes.Nodup) (now : Time) :
    (nodes.foldl (sweep now) c).WellFormed ∧
      (nodes.foldl (Cache.sweep now) c).lru =
        c.lru.filter fun m => !(decide (m ∈ nodes) && m.entry.isExpired now) := by
  -- Induction on the nodes still to be looked at; they stay in the list until their turn.
  induction nodes generalizing c with
  | nil => exact ⟨h, by simp⟩
  | cons n nodes ih =>
    have hn := hnodes n List.mem_cons_self
    obtain ⟨hnot, hnodup⟩ := List.nodup_cons.mp hnodup
    rw [List.foldl_cons]
    by_cases hexp : n.entry.isExpired now = true
    · -- the node is erased, and the others are still there
      have hstep : Cache.sweep now c n = c.eraseUnsafe n := if_pos hexp
      have hrest : ∀ m ∈ nodes, m ∈ (c.eraseUnsafe n).lru := fun m hm =>
        (h.mem_filter_it hn).mpr ⟨hnodes m (List.mem_cons_of_mem _ hm), fun hkey => hnot
          (h.eq_of_key_eq (hnodes m (List.mem_cons_of_mem _ hm)) hn hkey ▸ hm)⟩
      rw [hstep]
      refine ⟨(ih (h.eraseUnsafe hn) hrest hnodup).1, ?_⟩
      rw [(ih (h.eraseUnsafe hn) hrest hnodup).2, Cache.eraseUnsafe, List.filter_filter]
      refine List.filter_congr ?_
      intro m hm
      by_cases hmn : m = n
      · subst hmn
        simp [hexp]
      · have hit : m.it ≠ n.it := fun hit => hmn (h.eq_of_it_eq hm hn hit)
        simp [hmn, hit]
    · -- the node stays
      have hstep : Cache.sweep now c n = c := if_neg hexp
      rw [hstep]
      refine ⟨(ih h (fun m hm => hnodes m (List.mem_cons_of_mem _ hm)) hnodup).1, ?_⟩
      rw [(ih h (fun m hm => hnodes m (List.mem_cons_of_mem _ hm)) hnodup).2]
      refine List.filter_congr ?_
      intro m hm
      by_cases hmn : m = n
      · subst hmn
        simp [hexp]
      · simp [hmn]

theorem purgeExpired (h : c.WellFormed) (now : Time) : (c.purgeExpired now).WellFormed :=
  (h.sweep (fun _ hn => hn) (List.Nodup.of_map _ h.nodup) now).1

theorem step (h : c.WellFormed) (hs : c.step op = some c') : c'.WellFormed := by
  cases op with
  | apply now key v =>
    obtain rfl := Option.some.inj hs
    exact h.apply now key v
  | set now key value ttl =>
    obtain rfl := Option.some.inj hs
    exact h.set now key value ttl
  | get now key =>
    obtain rfl := Option.some.inj hs
    exact h.get now key
  | purgeExpired now =>
    obtain rfl := Option.some.inj hs
    exact h.purgeExpired now

end WellFormed

/-! ## One key at a time -/

/-- The sweep keeps the order of what it leaves. -/
theorem lru_purgeExpired (h : c.WellFormed) (now : Time) :
    (c.purgeExpired now).lru = c.lru.filter fun m => !m.entry.isExpired now := by
  rw [purgeExpired, (h.sweep (fun _ hn => hn) (List.Nodup.of_map _ h.nodup) now).2]
  exact List.filter_congr fun m hm => by simp [hm]

/-- The sweep empties the slots whose entries have expired. -/
theorem slot_purgeExpired (h : c.WellFormed) (now : Time) :
    (c.purgeExpired now).slot k = (c.slot k).filter fun e => !e.isExpired now := by
  ext e
  rw [slot_eq_some (h.purgeExpired now), lru_purgeExpired h, Option.filter_eq_some_iff,
    slot_eq_some h]
  constructor
  · rintro ⟨n, hn, hkey, rfl⟩
    obtain ⟨hn, hexp⟩ := List.mem_filter.mp hn
    exact ⟨⟨n, hn, hkey, rfl⟩, hexp⟩
  · rintro ⟨⟨n, hn, hkey, rfl⟩, hexp⟩
    exact ⟨n, List.mem_filter.mpr ⟨hn, hexp⟩, hkey, rfl⟩

/-- A read leaves every slot as it is. -/
theorem slot_get (h : c.WellFormed) (now : Time) (key : Key) :
    (c.get now key).1.slot k = c.slot k := by
  unfold get
  cases hf : c.find key with
  | none => rfl
  | some n =>
    simp only
    split
    · rfl
    · split
      · rfl
      · -- the node that is promoted keeps its entry
        obtain ⟨hn, hkey⟩ := h.find_eq_some.mp hf
        rw [slot_moveFront h hn { n with lastPromoted := now } (h.promote hn now) rfl rfl]
        split
        · rename_i hk
          exact ((slot_eq_some h).mpr ⟨n, hn, hk.symm, rfl⟩).symm
        · rfl

/-- A new key takes the slot of the victim, and no other. -/
theorem slot_makeRoom (h : c.WellFormed) (hv : c.victim ≠ some k) :
    (if c.capacity > 0 && c.entries.size ≥ c.capacity then c.evictLruUnsafe else c).slot k =
      c.slot k := by
  unfold victim at hv
  split
  · rename_i hfull
    rw [if_pos hfull] at hv
    unfold evictLruUnsafe
    cases hl : c.lru.getLast? with
    | none => rfl
    | some n =>
      -- the last node is the victim, which is another key
      have hne : k ≠ n.key := fun hk => hv (by rw [hl, Option.map_some, hk])
      exact (slot_eraseUnsafe h (List.mem_of_getLast? hl)).trans (if_neg hne)
  · rfl

/-- A write leaves the other slots as they are, that of the victim apart. -/
theorem slot_apply_of_ne_victim (h : c.WellFormed) (now : Time) (v : VersionedValue)
    (hk : k ≠ key) (hv : c.find key = none → c.victim ≠ some k) :
    (c.apply now key v).1.slot k = c.slot k := by
  unfold apply
  cases hf : c.find key with
  | some n =>
    obtain ⟨hn, hkey⟩ := h.find_eq_some.mp hf
    simp only
    split
    · rfl
    · rw [slot_replaceFront h hn, if_neg (hkey ▸ hk)]
  | none =>
    -- a new key, after an eviction if the shard is full
    have hroom := slot_makeRoom h (hv hf)
    simp only
    split
    · rename_i hfull
      rw [if_pos hfull] at hroom
      rw [slot_emplaceFront h.evictLruUnsafe (h.find_evictLruUnsafe hf), if_neg hk, hroom]
    · rw [slot_emplaceFront h hf, if_neg hk]

theorem slot_set_of_ne_victim (h : c.WellFormed) (now : Time) (value : Bytes)
    (ttl : Option Millis) (hk : k ≠ key) (hv : c.find key = none → c.victim ≠ some k) :
    (c.set now key value ttl).slot k = c.slot k := by
  cases hf : c.find key with
  | none =>
    rw [set_eq_apply hf]
    exact slot_apply_of_ne_victim h now _ hk hv
  | some n =>
    obtain ⟨hn, hkey⟩ := h.find_eq_some.mp hf
    -- `set` replaces the entry whatever its version
    simp only [set, hf]
    rw [slot_replaceFront h hn, if_neg (hkey ▸ hk)]

/-- **What an operation does to the slot of a key that it does not write**, if it does not evict it:
nothing, or the sweep of its expired entry. -/
theorem slot_step (h : c.WellFormed) (hs : c.step op = some c') (hw : op.writes ≠ some k)
    (hv : op.Spares k c) :
    c'.slot k = c.slot k ∨
      ∃ now, op = .purgeExpired now ∧ c'.slot k = (c.slot k).filter fun e => !e.isExpired now := by
  cases op with
  | apply now key v =>
    obtain rfl := Option.some.inj hs
    exact Or.inl (slot_apply_of_ne_victim h now v (fun hk => hw (by rw [hk]; rfl)) hv)
  | set now key value ttl =>
    obtain rfl := Option.some.inj hs
    exact Or.inl (slot_set_of_ne_victim h now value ttl (fun hk => hw (by rw [hk]; rfl)) hv)
  | get now key =>
    obtain rfl := Option.some.inj hs
    exact Or.inl (slot_get h now key)
  | purgeExpired now =>
    obtain rfl := Option.some.inj hs
    exact Or.inr ⟨now, rfl, slot_purgeExpired h now⟩

/-- A key is visible when its slot holds a live entry. -/
theorem contains_eq (c : Cache) (now : Time) (key : Key) :
    c.contains now key = (c.slot key).any fun e => e.isLive now := by
  rw [contains, slot, Option.any_map]

/-- Reads return what is visible. -/
theorem get_isSome (c : Cache) (now : Time) (key : Key) :
    (c.get now key).2.isSome = c.contains now key := by
  unfold get contains
  cases c.find key with
  | none => rfl
  | some n =>
    simp only [Option.any_some]
    split
    · simp_all
    · split <;> simp_all

end Cache

end ShardCache
