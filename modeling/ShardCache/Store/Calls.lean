import ShardCache.Foundations.Replay
import ShardCache.Store.Operations

/-!
# The calls of a shard

Every call that a client can make of a `Cache`, with its reply. A call that names a key acts on the
slot of that key; a new key can evict another one. Whatever the calls, the index and the list agree,
and there are no more entries than the capacity.

## Main definitions

* `Cache.size`, `Cache.clear`, `Cache.expire`, `Cache.ttl`, `Cache.pttl`: the remaining operations
* `Call`, `Reply`, `Cache.call`: the calls and their replies
* `Call.key`: the key that a call names
* `Cache.Edit`: what a call does to a shard
* `Cache.Bounded`: a shard with a capacity holds no more entries

## Main results

* `Cache.WellFormed.call`, `Cache.Bounded.call`: every call keeps the representation and the bound
* `Cache.slot_call_ne`: a call leaves the other slots as they are, or empties them
* `Cache.size_eq`: `size` counts the entries that are no tombstones
-/

namespace ShardCache

/-! ## One slot -/

/-- The entry that `Cache::set` stores. -/
def setEntry (now : Time) (value : Bytes) (ttl : Option Millis) : CacheEntry :=
  { value := value, expiresAt := ttl.map fun ttl => now + ttl.ticks }

/-- The value that `Cache::get` returns for an entry. -/
def valueSlot (now : Time) (slot : Option CacheEntry) : Option Bytes :=
  (slot.filter fun e => e.isLive now).map CacheEntry.value

/-- What `Cache::apply` returns for an entry: whether the write is stored. -/
def storesSlot (now : Time) (v : VersionedValue) : Option CacheEntry → Bool
  | none => true
  | some e => e.isExpired now || supersedes v.version v.tombstone v.value e

/-- `Cache::expire` on the entry of the key. An expired entry is erased, unless it is a tombstone. -/
def expireSlot (now : Time) (ttl : Millis) : Option CacheEntry → Option CacheEntry × Bool
  | none => (none, false)
  | some e =>
    if e.tombstone then (some e, false)
    else if e.isExpired now then (none, false)
    else (some { e with expiresAt := some (now + ttl.ticks) }, true)

/-- `duration_cast<seconds>` of the time left until `deadline`. -/
def secondsUntil (deadline now : Time) : ℕ := (deadline - now) / 1000000000

/-- `Cache::ttl` on the entry of the key. -/
def ttlSlot (now : Time) (slot : Option CacheEntry) : Option ℕ :=
  (slot.filter fun e => e.isLive now).bind fun e =>
    e.expiresAt.map fun deadline => secondsUntil deadline now

/-- `Cache::pttl` on the entry of the key: `-2` if it is not visible, `-1` if it has no deadline. -/
def pttlSlot (now : Time) (slot : Option CacheEntry) : ℤ :=
  match slot.filter fun e => e.isLive now with
  | none => -2
  | some e =>
    match e.expiresAt with
    | none => -1
    | some deadline => millisUntil deadline now

/-- The node to which an iterator points gets another deadline. -/
def LruNode.withDeadline (it : ℕ) (deadline : Time) (m : LruNode) : LruNode :=
  if m.it = it then { m with entry := { m.entry with expiresAt := some deadline } } else m

@[simp] theorem LruNode.it_withDeadline (it : ℕ) (deadline : Time) (m : LruNode) :
    (m.withDeadline it deadline).it = m.it := by
  unfold withDeadline
  split <;> rfl

@[simp] theorem LruNode.key_withDeadline (it : ℕ) (deadline : Time) (m : LruNode) :
    (m.withDeadline it deadline).key = m.key := by
  unfold withDeadline
  split <;> rfl

@[simp] theorem LruNode.tombstone_withDeadline (it : ℕ) (deadline : Time) (m : LruNode) :
    (m.withDeadline it deadline).entry.tombstone = m.entry.tombstone := by
  unfold withDeadline
  split <;> rfl

namespace Cache

/-! ## Operations -/

/-- `Cache::size`. -/
def size (c : Cache) : ℕ := c.entries.size - c.tombstones

/-- `Cache::clear`. -/
def clear (c : Cache) : Cache := { c with entries := ∅, lru := [], tombstones := 0 }

/-- The node keeps its place in the list and gets another deadline. -/
def setDeadline (c : Cache) (n : LruNode) (deadline : Time) : Cache :=
  { c with lru := c.lru.map (LruNode.withDeadline n.it deadline) }

/-- `Cache::expire`: the cache after the call, and whether the key has the new deadline. -/
def expire (c : Cache) (now : Time) (key : Key) (ttl : Millis) : Cache × Bool :=
  match c.find key with
  | none => (c, false)
  | some n =>
    if n.entry.tombstone then (c, false)
    else if n.entry.isExpired now then (c.eraseUnsafe n, false)
    else (c.setDeadline n (now + ttl.ticks), true)

/-- `Cache::ttl`, in seconds. -/
def ttl (c : Cache) (now : Time) (key : Key) : Option ℕ := ttlSlot now (c.slot key)

/-- `Cache::pttl`, in milliseconds. -/
def pttl (c : Cache) (now : Time) (key : Key) : ℤ := pttlSlot now (c.slot key)

end Cache

/-- A call of a `Cache`. -/
inductive Call where
  | set (key : Key) (value : Bytes) (ttl : Option Millis)
  | get (key : Key)
  | remove (key : Key)
  | apply (key : Key) (v : VersionedValue)
  | getVersioned (key : Key)
  | contains (key : Key)
  | expire (key : Key) (ttl : Millis)
  | ttl (key : Key)
  | pttl (key : Key)
  | snapshot
  | clear
  | purgeExpired
deriving DecidableEq, Repr

/-- The key that a call names. -/
def Call.key : Call → Option Key
  | .set key _ _ | .get key | .remove key | .apply key _ | .getVersioned key | .contains key
  | .expire key _ | .ttl key | .pttl key => some key
  | .snapshot | .clear | .purgeExpired => none

/-- What a call returns; `S` is the type of what `snapshot` returns. -/
inductive Reply (S : Type) where
  | done
  | value (value : Option Bytes)
  | flag (result : Bool)
  | applied (changed wasLive : Bool)
  | versioned (value : Option VersionedValue)
  | seconds (left : Option ℕ)
  | millis (left : ℤ)
  | entries (entries : S)
deriving DecidableEq, Repr

/-- A list of entries as a set. -/
def Reply.asSet {α : Type} : Reply (List α) → Reply (Set α)
  | .done => .done
  | .value v => .value v
  | .flag b => .flag b
  | .applied changed wasLive => .applied changed wasLive
  | .versioned v => .versioned v
  | .seconds s => .seconds s
  | .millis ms => .millis ms
  | .entries l => .entries { x | x ∈ l }

namespace Cache

/-- One call, with the reading of the clock. -/
def call (c : Cache) : Time × Call → Cache × Reply (List (Key × VersionedValue))
  | (now, .set key value ttl) => (c.set now key value ttl, .done)
  | (now, .get key) => ((c.get now key).1, .value (c.get now key).2)
  | (now, .remove key) => ((c.remove now key).1, .flag (c.remove now key).2)
  | (now, .apply key v) =>
    ((c.apply now key v).1, .applied (c.apply now key v).2 (wasLive now (c.slot key)))
  | (now, .getVersioned key) => (c, .versioned (c.getVersioned now key))
  | (now, .contains key) => (c, .flag (c.contains now key))
  | (now, .expire key ttl) => ((c.expire now key ttl).1, .flag (c.expire now key ttl).2)
  | (now, .ttl key) => (c, .seconds (c.ttl now key))
  | (now, .pttl key) => (c, .millis (c.pttl now key))
  | (now, .snapshot) => (c, .entries (c.snapshot now))
  | (_, .clear) => (c.clear, .done)
  | (now, .purgeExpired) => (c.purgeExpired now, .done)

variable {c : Cache} {n : LruNode} {k key : Key} {now : Time} {v : VersionedValue} {i : Time × Call}

/-! ## The representation -/

namespace WellFormed

theorem clear (c : Cache) : c.clear.WellFormed where
  index k i := by simp [Cache.clear]
  nodup := by simp [Cache.clear]
  fresh := by simp [Cache.clear]
  size := by simp [Cache.clear]
  tombstones := by simp [Cache.clear]

theorem setDeadline (h : c.WellFormed) (n : LruNode) (deadline : Time) :
    (c.setDeadline n deadline).WellFormed where
  index k i := by
    rw [Cache.setDeadline, h.index]
    simp
  nodup := by simpa [Cache.setDeadline, Function.comp_def] using h.nodup
  fresh m hm := by
    obtain ⟨m', hm', rfl⟩ := List.mem_map.mp hm
    rw [LruNode.it_withDeadline]
    exact h.fresh m' hm'
  size := by
    rw [Cache.setDeadline, List.length_map]
    exact h.size
  tombstones := by
    simp only [Cache.setDeadline, List.countP_map, Function.comp_def,
      LruNode.tombstone_withDeadline]
    exact h.tombstones

theorem expire (h : c.WellFormed) (now : Time) (key : Key) (ttl : Millis) :
    (c.expire now key ttl).1.WellFormed := by
  unfold Cache.expire
  cases hf : c.find key with
  | none => exact h
  | some n =>
    simp only
    split
    · exact h
    · split
      · exact h.eraseUnsafe (h.find_eq_some.mp hf).1
      · exact h.setDeadline n _

/-- **Every call keeps the representation.** -/
theorem call (h : c.WellFormed) (i : Time × Call) : (c.call i).1.WellFormed := by
  obtain ⟨now, call⟩ := i
  cases call with
  | set key value ttl => exact h.set now key value ttl
  | get key => exact h.get now key
  | remove key => exact h.remove now key
  | apply key v => exact h.apply now key v
  | expire key ttl => exact h.expire now key ttl
  | clear => exact WellFormed.clear c
  | purgeExpired => exact h.purgeExpired now
  | _ => exact h

end WellFormed

/-- What a call does to a shard, whatever it returns. -/
inductive Edit (c : Cache) : Cache → Prop where
  | keep : Edit c c
  | erase {key : Key} {n : LruNode} (hf : c.find key = some n) : Edit c (c.eraseUnsafe n)
  | replace {key : Key} {n : LruNode} (hf : c.find key = some n) (e : CacheEntry) :
      Edit c (c.replaceFront n e)
  | promote {key : Key} {n : LruNode} (hf : c.find key = some n) (now : Time) :
      Edit c (c.promote n now)
  | setDeadline (n : LruNode) (deadline : Time) : Edit c (c.setDeadline n deadline)
  | write (now : Time) (key : Key) (v : VersionedValue) : Edit c (c.apply now key v).1
  | clear : Edit c c.clear
  | purge (now : Time) : Edit c (c.purgeExpired now)

theorem Edit.of_call (c : Cache) (i : Time × Call) : Edit c (c.call i).1 := by
  obtain ⟨now, call⟩ := i
  cases call with
  | set key value ttl =>
    simp only [Cache.call]
    cases hf : c.find key with
    | none =>
      -- a new key is written as `apply` writes it
      rw [set_eq_apply hf]
      exact .write now key _
    | some n =>
      simp only [Cache.set, hf]
      exact .replace hf _
  | get key =>
    simp only [Cache.call, Cache.get]
    split
    · exact .keep
    next n hf =>
      split
      · exact .keep
      · split
        · exact .keep
        · exact .promote hf now
  | remove key =>
    simp only [Cache.call, Cache.remove]
    split
    · exact .keep
    next n hf => exact .erase hf
  | apply key v => exact .write now key v
  | expire key ttl =>
    simp only [Cache.call, Cache.expire]
    split
    · exact .keep
    next n hf =>
      split
      · exact .keep
      · split
        · exact .erase hf
        · exact .setDeadline n _
  | clear => exact .clear
  | purgeExpired => exact .purge now
  | _ => exact .keep

/-- What a call leaves alone: the configuration of the shard, and its evictions, which are only
counted up, and not at all without a capacity. -/
structure Follows (c c' : Cache) : Prop where
  capacity : c'.capacity = c.capacity
  tombstoneTtl : c'.tombstoneTtl = c.tombstoneTtl
  evictions : c.evictions ≤ c'.evictions
  unlimited : c.capacity = 0 → c'.evictions = c.evictions

theorem Follows.refl (c : Cache) : Follows c c := ⟨rfl, rfl, le_rfl, fun _ => rfl⟩

/-- An eviction in a shard with a capacity. -/
theorem Follows.evictLruUnsafe (h : 0 < c.capacity) : Follows c c.evictLruUnsafe := by
  unfold Cache.evictLruUnsafe
  split
  · exact Follows.refl c
  · exact ⟨rfl, rfl, Nat.le_succ _, fun h₀ => by omega⟩

theorem Follows.apply (c : Cache) (now : Time) (key : Key) (v : VersionedValue) :
    Follows c (c.apply now key v).1 := by
  unfold Cache.apply
  cases hf : c.find key with
  | some n =>
    simp only
    split <;> exact ⟨rfl, rfl, le_rfl, fun _ => rfl⟩
  | none =>
    simp only
    split
    · rename_i hfull
      have hpos : 0 < c.capacity := by simp_all
      obtain ⟨hcap, httl, hev, hunlimited⟩ := Follows.evictLruUnsafe hpos
      exact ⟨hcap, httl, hev, hunlimited⟩
    · exact ⟨rfl, rfl, le_rfl, fun _ => rfl⟩

theorem Follows.call (c : Cache) (i : Time × Call) : Follows c (c.call i).1 := by
  have hedit := Edit.of_call c i
  generalize (c.call i).1 = c' at hedit ⊢
  cases hedit with
  | write now key v => exact Follows.apply c now key v
  | purge now =>
    refine List.foldlRecOn (motive := Follows c) c.lru (Cache.sweep now) (Follows.refl c) ?_
    intro c' hc' n _
    unfold Cache.sweep
    split
    · exact ⟨hc'.capacity, hc'.tombstoneTtl, hc'.evictions, hc'.unlimited⟩
    · exact hc'
  | _ => exact ⟨rfl, rfl, le_rfl, fun _ => rfl⟩

/-! ## The capacity -/

/-- A shard with a capacity holds no more entries. -/
def Bounded (c : Cache) : Prop := 0 < c.capacity → c.lru.length ≤ c.capacity

theorem length_replaceFront (h : c.WellFormed) (hn : n ∈ c.lru) (e : CacheEntry) :
    (c.replaceFront n e).lru.length = c.lru.length := (h.perm_cons_filter hn).length_eq.symm

/-- A call that brings in no new key lengthens no list. -/
theorem Bounded.of_length_le {c' : Cache} (h : c.Bounded) (hcap : c'.capacity = c.capacity)
    (hlen : c'.lru.length ≤ c.lru.length) : c'.Bounded := by
  intro hpos
  rw [hcap] at hpos ⊢
  exact hlen.trans (h hpos)

theorem Bounded.apply (hb : c.Bounded) (h : c.WellFormed) (now : Time) (key : Key)
    (v : VersionedValue) : (c.apply now key v).1.Bounded := by
  have hcap := (Follows.apply c now key v).capacity
  cases hf : c.find key with
  | some n =>
    refine hb.of_length_le hcap ?_
    simp only [Cache.apply, hf]
    split
    · exact le_rfl
    · exact (length_replaceFront h (h.find_eq_some.mp hf).1 _).le
  | none =>
    intro hpos
    rw [hcap] at hpos ⊢
    have hlen := hb hpos
    simp only [Cache.apply, hf]
    split
    · -- the last node made room for the new one
      rename_i hfull
      simp only [emplaceFront, List.length_cons, lru_evictLruUnsafe h, List.length_dropLast]
      simp only [gt_iff_lt, ge_iff_le, Bool.and_eq_true, decide_eq_true_eq, h.size] at hfull
      omega
    · rename_i hroom
      simp only [gt_iff_lt, ge_iff_le, Bool.and_eq_true, decide_eq_true_eq, h.size] at hroom
      simp only [emplaceFront, List.length_cons]
      omega

/-- **Every call keeps the bound.** -/
theorem Bounded.call (hb : c.Bounded) (h : c.WellFormed) (i : Time × Call) :
    (c.call i).1.Bounded := by
  have hcap := (Follows.call c i).capacity
  have hedit := Edit.of_call c i
  generalize (c.call i).1 = c' at hcap hedit ⊢
  cases hedit with
  | keep => exact hb
  | erase hf => exact hb.of_length_le hcap (List.length_filter_le _ _)
  | replace hf e =>
    exact hb.of_length_le hcap (length_replaceFront h (h.find_eq_some.mp hf).1 e).le
  | promote hf now =>
    -- the node moves as it does when its entry is replaced
    exact hb.of_length_le hcap (length_replaceFront h (h.find_eq_some.mp hf).1 ⟨[], none, 0, false⟩).le
  | setDeadline n deadline => exact hb.of_length_le hcap (List.length_map _).le
  | write now key v => exact hb.apply h now key v
  | clear => exact hb.of_length_le hcap (Nat.zero_le _)
  | purge now =>
    refine hb.of_length_le hcap ?_
    rw [lru_purgeExpired h]
    exact List.length_filter_le _ _

/-- **`size` counts the entries that are no tombstones**, and does not underflow. -/
theorem size_eq (h : c.WellFormed) :
    c.tombstones ≤ c.entries.size ∧ c.size = c.lru.countP fun n => !n.entry.tombstone := by
  have hcount := List.length_eq_countP_add_countP (fun n : LruNode => n.entry.tombstone) (l := c.lru)
  simp only [size, h.size, h.tombstones]
  simp only [decide_not, Bool.decide_eq_true] at hcount
  omega

/-! ## One key at a time -/

theorem slot_clear (c : Cache) (k : Key) : c.clear.slot k = none := by
  simp [slot, find, clear]

theorem slot_setDeadline (h : c.WellFormed) (hn : n ∈ c.lru) (deadline : Time) :
    (c.setDeadline n deadline).slot k =
      if k = n.key then some { n.entry with expiresAt := some deadline } else c.slot k := by
  have h' := h.setDeadline n deadline
  split
  · rename_i hk
    refine (slot_eq_some h').mpr ⟨n.withDeadline n.it deadline, List.mem_map_of_mem hn, ?_, ?_⟩
    · rw [LruNode.key_withDeadline, hk]
    · simp [LruNode.withDeadline]
  · -- the nodes of other keys are as they were
    rename_i hk
    refine slot_congr h h' ?_
    intro m hm
    have hother (x : LruNode) (hx : x ∈ c.lru) (hkey : x.key = k) :
        x.withDeadline n.it deadline = x := by
      refine if_neg fun hit => hk ?_
      rw [← hkey, h.eq_of_it_eq hx hn hit]
    simp only [setDeadline, List.mem_map]
    constructor
    · rintro ⟨x, hx, rfl⟩
      rw [LruNode.key_withDeadline] at hm
      rwa [hother x hx hm]
    · intro hmem
      exact ⟨m, hmem, hother m hmem hm⟩

theorem slot_expire (h : c.WellFormed) (now : Time) (key : Key) (ttl : Millis) :
    (c.expire now key ttl).1.slot k =
        (if k = key then (expireSlot now ttl (c.slot key)).1 else c.slot k) ∧
      (c.expire now key ttl).2 = (expireSlot now ttl (c.slot key)).2 := by
  unfold expire
  cases hf : c.find key with
  | none =>
    rw [slot_of_find_none hf]
    refine ⟨?_, rfl⟩
    by_cases hk : k = key
    · rw [if_pos hk, hk]
      exact slot_of_find_none hf
    · rw [if_neg hk]
  | some n =>
    obtain ⟨hn, rfl⟩ := h.find_eq_some.mp hf
    have hself : c.slot n.key = some n.entry := slot_of_find hf
    rw [hself]
    simp only [expireSlot]
    split
    · -- a tombstone stays
      refine ⟨?_, rfl⟩
      split
      · rename_i hk
        rw [hk, hself]
      · rfl
    · -- an expired entry is erased, any other gets its deadline in place
      split
      · exact ⟨slot_eraseUnsafe h hn, rfl⟩
      · exact ⟨slot_setDeadline h hn _, rfl⟩

/-- A local write replaces the slot of its key. -/
theorem slot_set (h : c.WellFormed) (now : Time) (key : Key) (value : Bytes) (ttl : Option Millis) :
    (c.set now key value ttl).slot key = some (setEntry now value ttl) := by
  cases hf : c.find key with
  | none =>
    rw [set_eq_apply hf, slot_apply h, slot_of_find_none hf]
    rfl
  | some n =>
    obtain ⟨hn, rfl⟩ := h.find_eq_some.mp hf
    simp only [set, hf]
    rw [slot_replaceFront h hn, if_pos rfl]
    rfl

/-- A local write evicts at most one other key, and counts the eviction. -/
theorem slot_set_ne (h : c.WellFormed) (now : Time) (key : Key) (value : Bytes)
    (ttl : Option Millis) (hk : k ≠ key) :
    (c.set now key value ttl).slot k = c.slot k ∨
      (c.set now key value ttl).slot k = none ∧
        (c.set now key value ttl).evictions = c.evictions + 1 := by
  cases hf : c.find key with
  | none =>
    rw [set_eq_apply hf]
    exact slot_apply_ne h now key _ hk
  | some n =>
    obtain ⟨hn, rfl⟩ := h.find_eq_some.mp hf
    simp only [set, hf]
    exact Or.inl (by rw [slot_replaceFront h hn, if_neg hk])

/-- The value that a read returns. -/
theorem get_eq_valueSlot (c : Cache) (now : Time) (key : Key) :
    (c.get now key).2 = valueSlot now (c.slot key) := by
  unfold get valueSlot slot
  cases c.find key with
  | none => rfl
  | some n =>
    simp only [Option.map_some, Option.filter_some]
    split
    · simp_all
    · split <;> simp_all

/-- What a write returns. -/
theorem apply_eq_storesSlot (c : Cache) (now : Time) (key : Key) (v : VersionedValue) :
    (c.apply now key v).2 = storesSlot now v (c.slot key) := by
  unfold apply slot
  cases c.find key with
  | none => rfl
  | some n =>
    simp only [Option.map_some, storesSlot]
    cases n.entry.isExpired now <;>
      cases supersedes v.version v.tombstone v.value n.entry <;> rfl

/-- What a removal returns. -/
theorem remove_eq_any (c : Cache) (now : Time) (key : Key) :
    (c.remove now key).2 = (c.slot key).any fun e => e.isLive now := by
  unfold remove slot
  cases c.find key with
  | none => rfl
  | some n => rfl

/-- **A call leaves the other slots as they are, or empties them.** -/
theorem slot_call_ne (h : c.WellFormed) (i : Time × Call) (hk : i.2.key ≠ some k) :
    (c.call i).1.slot k = c.slot k ∨ (c.call i).1.slot k = none := by
  obtain ⟨now, call⟩ := i
  have hne (key : Key) (hkey : call.key = some key) : k ≠ key := by
    rintro rfl
    exact hk hkey
  cases call with
  | set key value ttl => exact (slot_set_ne h now key value ttl (hne key rfl)).imp_right And.left
  | get key => exact Or.inl (slot_get h now key)
  | remove key => exact Or.inl (by rw [Cache.call, slot_remove h, if_neg (hne key rfl)])
  | apply key v => exact (slot_apply_ne h now key v (hne key rfl)).imp_right And.left
  | expire key ttl =>
    exact Or.inl (by rw [Cache.call, (slot_expire h now key ttl).1, if_neg (hne key rfl)])
  | clear => exact Or.inr (slot_clear c k)
  | purgeExpired =>
    rw [Cache.call, slot_purgeExpired h]
    cases hs : c.slot k with
    | none => exact Or.inl rfl
    | some e =>
      rw [Option.filter_some]
      split
      · exact Or.inl rfl
      · exact Or.inr rfl
  | _ => exact Or.inl rfl

/-- A call brings in no key but the one that it names. -/
theorem key_of_mem_call (h : c.WellFormed) (i : Time × Call) (hn : n ∈ (c.call i).1.lru) :
    i.2.key = some n.key ∨ ∃ m ∈ c.lru, m.key = n.key := by
  by_cases hk : i.2.key = some n.key
  · exact Or.inl hk
  · have hsome := (slot_eq_some (h.call i)).mpr ⟨n, hn, rfl, rfl⟩
    rcases slot_call_ne h i hk with hs | hs
    · obtain ⟨m, hm, hmk, -⟩ := (slot_eq_some h).mp (hs ▸ hsome)
      exact Or.inr ⟨m, hm, hmk⟩
    · simp [hs] at hsome

end Cache

end ShardCache
