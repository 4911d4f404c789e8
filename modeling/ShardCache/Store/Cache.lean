import ShardCache.Store.Slot

/-!
# One shard of the cache

`Cache` keeps its entries in a list, the most recently used first, and finds them through an index
from keys to list iterators. When it is full, a new key evicts the last entry of the list. The
index and the list agree: this is the invariant that the operations keep. Seen through one key,
a shard is a slot, up to evictions.

## Main definitions

* `Cache`, `Cache.find`, `Cache.slot`: the shard, and what it holds for a key
* `Cache.apply`, `Cache.getVersioned`, `Cache.remove`, `Cache.snapshot`: the operations
* `Cache.WellFormed`: the index and the list agree, and `tombstones` counts the tombstones
* `Cache.keys`: the keys of a shard, in the order of its list

## Main results

* `Cache.WellFormed.apply`, `Cache.WellFormed.remove`: the operations keep the invariant
* `Cache.slot_apply`, `Cache.slot_apply_ne`: a write acts on the slot of its key, and evicts at most
  one other key
* `Cache.slot_remove`: a removal empties one slot
* `Cache.mem_snapshot`: the snapshot lists the entries that have not expired
-/

namespace ShardCache

/-- `Cache::Node`, with the list iterator that points to it. `lastPromoted` is the time of the last
promotion by a read, `0` if there was none. -/
structure LruNode where
  it : ℕ
  key : Key
  entry : CacheEntry
  lastPromoted : Time := 0
deriving DecidableEq, Repr

/-- `Cache`: `lru` is `lru_list_`, `entries` the index `entries_`, `nextIt` the next list iterator
that has not been used. -/
structure Cache where
  capacity : ℕ
  tombstoneTtl : Millis
  tombstones : ℕ := 0
  lru : List LruNode := []
  entries : Std.ExtTreeMap Key ℕ := ∅
  nextIt : ℕ := 0
  evictions : ℕ := 0

namespace Cache

/-! ## Operations -/

/-- `entries_.find(key)`, and the list node it points to. -/
def find (c : Cache) (key : Key) : Option LruNode :=
  (c.entries[key]?).bind fun i => c.lru.find? fun n => n.it == i

/-- The entry stored for a key. -/
def slot (c : Cache) (key : Key) : Option CacheEntry := (c.find key).map LruNode.entry

/-- `erase_unsafe`. -/
def eraseUnsafe (c : Cache) (n : LruNode) : Cache :=
  { c with
    tombstones := if n.entry.tombstone then c.tombstones - 1 else c.tombstones
    entries := c.entries.erase n.key
    lru := c.lru.filter fun m => m.it != n.it }

/-- `evict_lru_unsafe`. -/
def evictLruUnsafe (c : Cache) : Cache :=
  match c.lru.getLast? with
  | none => c
  | some n => { c.eraseUnsafe n with evictions := c.evictions + 1 }

/-- `emplace_front` of a new node, with its index entry. -/
def emplaceFront (c : Cache) (key : Key) (e : CacheEntry) : Cache :=
  { c with
    tombstones := if e.tombstone then c.tombstones + 1 else c.tombstones
    entries := c.entries.insert key c.nextIt
    lru := { it := c.nextIt, key := key, entry := e } :: c.lru
    nextIt := c.nextIt + 1 }

/-- The entry of a node is replaced, and the node moves to the front. -/
def replaceFront (c : Cache) (n : LruNode) (e : CacheEntry) : Cache :=
  let tombstones := if n.entry.tombstone then c.tombstones - 1 else c.tombstones
  { c with
    tombstones := if e.tombstone then tombstones + 1 else tombstones
    lru := { n with entry := e } :: c.lru.filter fun m => m.it != n.it }

/-- `Cache::apply`: the cache after the write, and whether it changed. -/
def apply (c : Cache) (now : Time) (key : Key) (v : VersionedValue) : Cache × Bool :=
  match c.find key with
  | some n =>
    if !n.entry.isExpired now && !supersedes v.version v.tombstone v.value n.entry then (c, false)
    else (c.replaceFront n (v.toEntry c.tombstoneTtl now), true)
  | none =>
    let room := if c.capacity > 0 && c.entries.size ≥ c.capacity then c.evictLruUnsafe else c
    (room.emplaceFront key (v.toEntry c.tombstoneTtl now), true)

/-- `Cache::get_versioned`. -/
def getVersioned (c : Cache) (now : Time) (key : Key) : Option VersionedValue :=
  readSlot now (c.slot key)

/-- `Cache::remove`: the cache after the removal, and whether the key was live. -/
def remove (c : Cache) (now : Time) (key : Key) : Cache × Bool :=
  match c.find key with
  | none => (c, false)
  | some n => (c.eraseUnsafe n, n.entry.isLive now)

/-- `Cache::snapshot`: the entries that have not expired, in the order of the list. -/
def snapshot (c : Cache) (now : Time) : List (Key × VersionedValue) :=
  (c.lru.filter fun n => !n.entry.isExpired now).map fun n => (n.key, n.entry.versioned now)

/-! ## The representation -/

/-- The index and the list hold the same keys, each key once and pointing to its own node. -/
structure WellFormed (c : Cache) : Prop where
  index : ∀ (k : Key) (i : ℕ), c.entries[k]? = some i ↔ ∃ n ∈ c.lru, n.key = k ∧ n.it = i
  nodup : (c.lru.map LruNode.it).Nodup
  fresh : ∀ n ∈ c.lru, n.it < c.nextIt
  size : c.entries.size = c.lru.length
  tombstones : c.tombstones = c.lru.countP fun n => n.entry.tombstone

variable {c : Cache} {n m : LruNode} {k key : Key} {now : Time} {v : VersionedValue}

theorem wellFormed_empty (capacity : ℕ) (tombstoneTtl : Millis) :
    WellFormed { capacity := capacity, tombstoneTtl := tombstoneTtl } where
  index k i := by simp
  nodup := by simp
  fresh := by simp
  size := by simp
  tombstones := by simp

namespace WellFormed

theorem eq_of_it_eq (h : c.WellFormed) (hn : n ∈ c.lru) (hm : m ∈ c.lru) (hit : n.it = m.it) :
    n = m :=
  List.inj_on_of_nodup_map h.nodup hn hm hit

theorem eq_of_key_eq (h : c.WellFormed) (hn : n ∈ c.lru) (hm : m ∈ c.lru) (hkey : n.key = m.key) :
    n = m := by
  have hn' := (h.index n.key n.it).mpr ⟨n, hn, rfl, rfl⟩
  have hm' := (h.index n.key m.it).mpr ⟨m, hm, hkey.symm, rfl⟩
  exact h.eq_of_it_eq hn hm (Option.some.inj (hn'.symm.trans hm'))

/-- The index finds exactly the nodes of the list. -/
theorem find_eq_some (h : c.WellFormed) : c.find k = some n ↔ n ∈ c.lru ∧ n.key = k := by
  constructor
  · intro hf
    obtain ⟨i, hi, hfind⟩ := Option.bind_eq_some_iff.mp hf
    have hn := List.mem_of_find?_eq_some hfind
    have hit : n.it = i := by simpa using List.find?_some hfind
    obtain ⟨n', hn', hkey, hit'⟩ := (h.index k i).mp hi
    rw [h.eq_of_it_eq hn hn' (hit.trans hit'.symm)]
    exact ⟨hn', hkey⟩
  · rintro ⟨hn, hkey⟩
    have hi := (h.index k n.it).mpr ⟨n, hn, hkey, rfl⟩
    refine Option.bind_eq_some_iff.mpr ⟨n.it, hi, ?_⟩
    cases hfind : c.lru.find? fun m => m.it == n.it with
    | none => exact absurd (List.find?_eq_none.mp hfind n hn) (by simp)
    | some m =>
      have hm := List.mem_of_find?_eq_some hfind
      have hit : m.it = n.it := by simpa using List.find?_some hfind
      rw [h.eq_of_it_eq hm hn hit]

theorem find_eq_none (h : c.WellFormed) : c.find k = none ↔ ∀ n ∈ c.lru, n.key ≠ k := by
  constructor
  · intro hf n hn hkey
    rw [h.find_eq_some.mpr ⟨hn, hkey⟩] at hf
    exact absurd hf (by simp)
  · intro hall
    by_contra hne
    obtain ⟨n, hn⟩ := Option.ne_none_iff_exists'.mp hne
    obtain ⟨hmem, hkey⟩ := h.find_eq_some.mp hn
    exact hall n hmem hkey

theorem entries_eq_none (h : c.WellFormed) (hf : c.find k = none) : c.entries[k]? = none := by
  by_contra hne
  obtain ⟨i, hi⟩ := Option.ne_none_iff_exists'.mp hne
  obtain ⟨n, hn, hkey, -⟩ := (h.index k i).mp hi
  exact h.find_eq_none.mp hf n hn hkey

/-- Taking one node out of the list leaves the others. -/
theorem perm_cons_filter (h : c.WellFormed) (hn : n ∈ c.lru) :
    c.lru.Perm (n :: c.lru.filter fun m => m.it != n.it) := by
  have hnodup : c.lru.Nodup := List.Nodup.of_map _ h.nodup
  have hfilter : (c.lru.filter fun m => m.it != n.it) = c.lru.erase n := by
    rw [hnodup.erase_eq_filter]
    refine List.filter_congr ?_
    intro m hm
    by_cases hmn : m = n
    · subst hmn
      simp
    · have hit : m.it ≠ n.it := fun hit => hmn (h.eq_of_it_eq hm hn hit)
      rw [bne_iff_ne.mpr hit, bne_iff_ne.mpr hmn]
  rw [hfilter]
  exact List.perm_cons_erase hn

theorem mem_filter_it (h : c.WellFormed) (hn : n ∈ c.lru) :
    m ∈ (c.lru.filter fun x => x.it != n.it) ↔ m ∈ c.lru ∧ m.key ≠ n.key := by
  simp only [List.mem_filter, bne_iff_ne, ne_eq, and_congr_right_iff, not_iff_not]
  intro hm
  exact ⟨fun hit => by rw [h.eq_of_it_eq hm hn hit], fun hkey => by rw [h.eq_of_key_eq hm hn hkey]⟩

/-! ## The operations keep the representation -/

theorem eraseUnsafe (h : c.WellFormed) (hn : n ∈ c.lru) : (c.eraseUnsafe n).WellFormed where
  index k i := by
    simp only [Cache.eraseUnsafe, Std.ExtTreeMap.getElem?_erase]
    by_cases hk : n.key = k
    · simp only [hk, Std.ReflCmp.compare_self, if_true, reduceCtorEq, false_iff]
      rintro ⟨m, hm, hkey, -⟩
      exact ((h.mem_filter_it hn).mp hm).2 (hkey.trans hk.symm)
    · rw [if_neg (by simpa using hk), h.index]
      constructor
      · rintro ⟨m, hm, rfl, rfl⟩
        exact ⟨m, (h.mem_filter_it hn).mpr ⟨hm, fun he => hk he.symm⟩, rfl, rfl⟩
      · rintro ⟨m, hm, rfl, rfl⟩
        exact ⟨m, ((h.mem_filter_it hn).mp hm).1, rfl, rfl⟩
  nodup := h.nodup.sublist (List.filter_sublist.map _)
  fresh m hm := h.fresh m (List.mem_of_mem_filter hm)
  size := by
    have hmem : c.entries[n.key]? = some n.it := (h.index _ _).mpr ⟨n, hn, rfl, rfl⟩
    have hcontains : c.entries.contains n.key = true := by
      rw [Std.ExtTreeMap.contains_eq_isSome_getElem?, hmem]
      rfl
    have hlen := (h.perm_cons_filter hn).length_eq
    rw [List.length_cons] at hlen
    simp only [Cache.eraseUnsafe, Std.ExtTreeMap.size_erase, hcontains, if_true]
    rw [h.size]
    omega
  tombstones := by
    have hcount := (h.perm_cons_filter hn).countP_eq fun n => n.entry.tombstone
    rw [List.countP_cons] at hcount
    simp only [Cache.eraseUnsafe]
    rw [h.tombstones]
    split <;> simp_all

theorem evictLruUnsafe (h : c.WellFormed) : c.evictLruUnsafe.WellFormed := by
  unfold Cache.evictLruUnsafe
  cases hl : c.lru.getLast? with
  | none => exact h
  | some n =>
    have hw := h.eraseUnsafe (List.mem_of_getLast? hl)
    exact ⟨hw.index, hw.nodup, hw.fresh, hw.size, hw.tombstones⟩

/-- Evicting brings no key in. -/
theorem find_evictLruUnsafe (h : c.WellFormed) (hk : c.find key = none) :
    c.evictLruUnsafe.find key = none := by
  rw [h.evictLruUnsafe.find_eq_none]
  intro n hn
  refine h.find_eq_none.mp hk n ?_
  unfold Cache.evictLruUnsafe at hn
  cases hl : c.lru.getLast? with
  | none => simpa [hl] using hn
  | some m =>
    simp only [hl] at hn
    exact List.mem_of_mem_filter hn

theorem emplaceFront (h : c.WellFormed) (hk : c.find key = none) (e : CacheEntry) :
    (c.emplaceFront key e).WellFormed where
  index k i := by
    simp only [Cache.emplaceFront, Std.ExtTreeMap.getElem?_insert]
    by_cases hkey : key = k
    · subst hkey
      simp only [Std.ReflCmp.compare_self, if_true, Option.some.injEq]
      constructor
      · rintro rfl
        exact ⟨_, List.mem_cons_self, rfl, rfl⟩
      · rintro ⟨m, hm, hmk, rfl⟩
        rcases List.mem_cons.mp hm with rfl | hm
        · rfl
        · exact absurd hmk (h.find_eq_none.mp hk m hm)
    · rw [if_neg (by simpa using hkey), h.index]
      constructor
      · rintro ⟨m, hm, hmk, hit⟩
        exact ⟨m, List.mem_cons_of_mem _ hm, hmk, hit⟩
      · rintro ⟨m, hm, hmk, hit⟩
        rcases List.mem_cons.mp hm with rfl | hm
        · exact absurd hmk hkey
        · exact ⟨m, hm, hmk, hit⟩
  nodup := by
    -- iterators are handed out in order, and this is the next one
    simp only [Cache.emplaceFront, List.map_cons, List.nodup_cons]
    refine ⟨?_, h.nodup⟩
    intro hmem
    obtain ⟨m, hm, hit⟩ := List.mem_map.mp hmem
    exact (h.fresh m hm).ne hit
  fresh m hm := by
    rcases List.mem_cons.mp hm with rfl | hm
    · exact Nat.lt_succ_self _
    · exact (h.fresh m hm).trans (Nat.lt_succ_self _)
  size := by
    have hcontains : c.entries.contains key = false := by
      rw [Std.ExtTreeMap.contains_eq_isSome_getElem?, h.entries_eq_none hk]
      rfl
    simp [Cache.emplaceFront, Std.ExtTreeMap.size_insert, hcontains, h.size]
  tombstones := by
    simp only [Cache.emplaceFront, List.countP_cons, h.tombstones]
    split <;> rfl

/-- A node comes to the front with another entry or promotion time. -/
theorem moveFront (h : c.WellFormed) (hn : n ∈ c.lru) {c' : Cache} (n' : LruNode)
    (hit : n'.it = n.it) (hkey : n'.key = n.key) (hentries : c'.entries = c.entries)
    (hnext : c'.nextIt = c.nextIt) (hlru : c'.lru = n' :: c.lru.filter fun m => m.it != n.it)
    (htombstones : c'.tombstones = c'.lru.countP fun n => n.entry.tombstone) :
    c'.WellFormed where
  index k i := by
    rw [hentries, hlru, h.index]
    constructor
    · rintro ⟨m, hm, rfl, rfl⟩
      by_cases hk : m.key = n.key
      · rw [h.eq_of_key_eq hm hn hk]
        exact ⟨n', List.mem_cons_self, hkey, hit⟩
      · exact ⟨m, List.mem_cons_of_mem _ ((h.mem_filter_it hn).mpr ⟨hm, hk⟩), rfl, rfl⟩
    · rintro ⟨m, hm, rfl, rfl⟩
      rcases List.mem_cons.mp hm with rfl | hm
      · exact ⟨n, hn, hkey.symm, hit.symm⟩
      · exact ⟨m, ((h.mem_filter_it hn).mp hm).1, rfl, rfl⟩
  nodup := by
    -- the iterators are those before, in another order
    have hperm := (h.perm_cons_filter hn).map LruNode.it
    rw [hlru, List.map_cons, hit]
    exact hperm.nodup_iff.mp h.nodup
  fresh m hm := by
    rw [hnext]
    rw [hlru] at hm
    rcases List.mem_cons.mp hm with rfl | hm
    · exact hit ▸ h.fresh n hn
    · exact h.fresh m (List.mem_of_mem_filter hm)
  size := by
    rw [hentries, hlru, h.size, (h.perm_cons_filter hn).length_eq]
    rfl
  tombstones := htombstones

theorem replaceFront (h : c.WellFormed) (hn : n ∈ c.lru) (e : CacheEntry) :
    (c.replaceFront n e).WellFormed := by
  refine h.moveFront hn { n with entry := e } rfl rfl rfl rfl rfl ?_
  have hcount := (h.perm_cons_filter hn).countP_eq fun n => n.entry.tombstone
  rw [List.countP_cons] at hcount
  simp only [Cache.replaceFront, List.countP_cons]
  rw [h.tombstones]
  split <;> split <;> simp_all

theorem apply (h : c.WellFormed) (now : Time) (key : Key) (v : VersionedValue) :
    (c.apply now key v).1.WellFormed := by
  unfold Cache.apply
  cases hf : c.find key with
  | some n =>
    simp only
    split
    · exact h
    · exact h.replaceFront (h.find_eq_some.mp hf).1 _
  | none =>
    simp only
    split
    · exact h.evictLruUnsafe.emplaceFront (h.find_evictLruUnsafe hf) _
    · exact h.emplaceFront hf _

theorem remove (h : c.WellFormed) (now : Time) (key : Key) : (c.remove now key).1.WellFormed := by
  unfold Cache.remove
  cases hf : c.find key with
  | none => exact h
  | some n => exact h.eraseUnsafe (h.find_eq_some.mp hf).1

end WellFormed

/-! ## One key at a time -/

/-- A slot holds the entry of the node that carries its key. -/
theorem slot_eq_some (h : c.WellFormed) {e : CacheEntry} :
    c.slot k = some e ↔ ∃ n ∈ c.lru, n.key = k ∧ n.entry = e := by
  simp only [slot, Option.map_eq_some_iff]
  constructor
  · rintro ⟨n, hn, rfl⟩
    obtain ⟨hmem, hkey⟩ := h.find_eq_some.mp hn
    exact ⟨n, hmem, hkey, rfl⟩
  · rintro ⟨n, hn, hkey, rfl⟩
    exact ⟨n, h.find_eq_some.mpr ⟨hn, hkey⟩, rfl⟩

/-- Two caches that hold the same nodes for a key have the same slot. -/
theorem slot_congr {c' : Cache} (h : c.WellFormed) (h' : c'.WellFormed)
    (hk : ∀ n, n.key = k → (n ∈ c'.lru ↔ n ∈ c.lru)) : c'.slot k = c.slot k := by
  ext e
  rw [slot_eq_some h, slot_eq_some h']
  constructor
  · rintro ⟨n, hn, hkey, rfl⟩
    exact ⟨n, (hk n hkey).mp hn, hkey, rfl⟩
  · rintro ⟨n, hn, hkey, rfl⟩
    exact ⟨n, (hk n hkey).mpr hn, hkey, rfl⟩

theorem slot_eraseUnsafe (h : c.WellFormed) (hn : n ∈ c.lru) :
    (c.eraseUnsafe n).slot k = if k = n.key then none else c.slot k := by
  split
  · rename_i hk
    rw [slot, (h.eraseUnsafe hn).find_eq_none.mpr, Option.map_none]
    intro m hm
    rw [hk]
    exact ((h.mem_filter_it hn).mp hm).2
  · rename_i hk
    refine slot_congr h (h.eraseUnsafe hn) ?_
    intro m hm
    simp [eraseUnsafe, h.mem_filter_it hn, hm, hk]

/-- An eviction empties at most one slot. -/
theorem slot_evictLruUnsafe (h : c.WellFormed) :
    c.evictLruUnsafe.slot k = c.slot k ∨
      c.evictLruUnsafe.slot k = none ∧ c.evictLruUnsafe.evictions = c.evictions + 1 := by
  unfold evictLruUnsafe
  cases hl : c.lru.getLast? with
  | none => exact Or.inl rfl
  | some n =>
    have hslot := slot_eraseUnsafe (k := k) h (List.mem_of_getLast? hl)
    simp only
    change (c.eraseUnsafe n).slot k = c.slot k ∨ (c.eraseUnsafe n).slot k = none ∧ _
    rw [hslot]
    split
    · exact Or.inr ⟨rfl, trivial⟩
    · exact Or.inl rfl

theorem slot_emplaceFront (h : c.WellFormed) (hk : c.find key = none) (e : CacheEntry) :
    (c.emplaceFront key e).slot k = if k = key then some e else c.slot k := by
  split
  · rename_i hkk
    refine (slot_eq_some (h.emplaceFront hk e)).mpr ⟨_, List.mem_cons_self, hkk.symm, rfl⟩
  · rename_i hkk
    refine slot_congr h (h.emplaceFront hk e) ?_
    intro m hm
    simp only [emplaceFront, List.mem_cons, or_iff_right_iff_imp]
    rintro rfl
    exact absurd hm.symm hkk

/-- A node that comes to the front keeps its slot, with the entry it brings. -/
theorem slot_moveFront (h : c.WellFormed) (hn : n ∈ c.lru) {c' : Cache} (n' : LruNode)
    (h' : c'.WellFormed) (hkey : n'.key = n.key)
    (hlru : c'.lru = n' :: c.lru.filter fun m => m.it != n.it) :
    c'.slot k = if k = n.key then some n'.entry else c.slot k := by
  split
  · rename_i hk
    exact (slot_eq_some h').mpr ⟨n', hlru ▸ List.mem_cons_self, hkey.trans hk.symm, rfl⟩
  · rename_i hk
    refine slot_congr h h' ?_
    intro m hm
    simp only [hlru, List.mem_cons, h.mem_filter_it hn]
    constructor
    · rintro (rfl | hm')
      · exact absurd (hm.symm.trans hkey) hk
      · exact hm'.1
    · exact fun hm' => Or.inr ⟨hm', fun he => hk (hm.symm.trans he)⟩

theorem slot_replaceFront (h : c.WellFormed) (hn : n ∈ c.lru) (e : CacheEntry) :
    (c.replaceFront n e).slot k = if k = n.key then some e else c.slot k :=
  slot_moveFront h hn { n with entry := e } (h.replaceFront hn e) rfl rfl

theorem slot_of_find (hf : c.find key = some n) : c.slot key = some n.entry := by
  rw [slot, hf, Option.map_some]

theorem slot_of_find_none (hf : c.find key = none) : c.slot key = none := by
  rw [slot, hf, Option.map_none]

/-- **A write acts on the slot of its key.** -/
theorem slot_apply (h : c.WellFormed) (now : Time) (key : Key) (v : VersionedValue) :
    (c.apply now key v).1.slot key = applySlot c.tombstoneTtl now v (c.slot key) := by
  unfold apply
  cases hf : c.find key with
  | some n =>
    obtain ⟨hn, hkey⟩ := h.find_eq_some.mp hf
    rw [slot_of_find hf, applySlot]
    simp only
    split
    · exact slot_of_find hf
    · rw [slot_replaceFront h hn, if_pos hkey.symm]
  | none =>
    rw [slot_of_find_none hf, applySlot]
    simp only
    split
    · rw [slot_emplaceFront h.evictLruUnsafe (h.find_evictLruUnsafe hf), if_pos rfl]
    · rw [slot_emplaceFront h hf, if_pos rfl]

/-- **A write evicts at most one other key**, and counts the eviction. -/
theorem slot_apply_ne (h : c.WellFormed) (now : Time) (key : Key) (v : VersionedValue)
    (hk : k ≠ key) :
    (c.apply now key v).1.slot k = c.slot k ∨
      (c.apply now key v).1.slot k = none ∧
        (c.apply now key v).1.evictions = c.evictions + 1 := by
  unfold apply
  cases hf : c.find key with
  | some n =>
    obtain ⟨hn, hkey⟩ := h.find_eq_some.mp hf
    simp only
    split
    · exact Or.inl rfl
    · exact Or.inl (by rw [slot_replaceFront h hn, if_neg (hkey ▸ hk)])
  | none =>
    simp only
    split
    · rw [slot_emplaceFront h.evictLruUnsafe (h.find_evictLruUnsafe hf), if_neg hk]
      exact slot_evictLruUnsafe h
    · rw [slot_emplaceFront h hf, if_neg hk]
      exact Or.inl rfl

/-- **A removal empties one slot.** -/
theorem slot_remove (h : c.WellFormed) (now : Time) (key : Key) :
    (c.remove now key).1.slot k = if k = key then none else c.slot k := by
  unfold remove
  cases hf : c.find key with
  | none =>
    by_cases hk : k = key
    · rw [if_pos hk, hk]
      exact slot_of_find_none hf
    · rw [if_neg hk]
  | some n =>
    obtain ⟨hn, hkey⟩ := h.find_eq_some.mp hf
    rw [← hkey]
    exact slot_eraseUnsafe h hn

/-- **The snapshot lists the entries that have not expired.** -/
theorem mem_snapshot (h : c.WellFormed) {x : VersionedValue} :
    (k, x) ∈ c.snapshot now ↔
      ∃ e, c.slot k = some e ∧ e.isExpired now = false ∧ x = e.versioned now := by
  simp only [snapshot, List.mem_map, List.mem_filter, slot_eq_some h, Bool.not_eq_true',
    Prod.mk.injEq]
  constructor
  · rintro ⟨n, ⟨hn, hexp⟩, rfl, rfl⟩
    exact ⟨n.entry, ⟨n, hn, rfl, rfl⟩, hexp, rfl⟩
  · rintro ⟨e, ⟨n, hn, rfl, rfl⟩, hexp, rfl⟩
    exact ⟨n, ⟨hn, hexp⟩, rfl, rfl⟩

/-- A snapshot lists every key once. -/
theorem nodup_keys_snapshot (h : c.WellFormed) (now : Time) :
    ((c.snapshot now).map Prod.fst).Nodup := by
  have hnodup : (c.lru.filter fun n => !n.entry.isExpired now).Nodup :=
    (List.Nodup.of_map _ h.nodup).filter _
  rw [snapshot, List.map_map]
  exact List.Nodup.map_on (fun n hn m hm hkey => h.eq_of_key_eq (List.mem_of_mem_filter hn)
    (List.mem_of_mem_filter hm) hkey) hnodup

/-! ## The keys of a shard -/

/-- The keys of the shard, in the order of its list. -/
def keys (c : Cache) : List Key := c.lru.map LruNode.key

theorem nodup_keys (h : c.WellFormed) : c.keys.Nodup :=
  List.Nodup.map_on (fun _ hn _ hm hkey => h.eq_of_key_eq hn hm hkey) (List.Nodup.of_map _ h.nodup)

theorem mem_keys (h : c.WellFormed) : k ∈ c.keys ↔ c.slot k ≠ none := by
  rw [Option.ne_none_iff_exists']
  simp only [slot_eq_some h, keys, List.mem_map]
  constructor
  · rintro ⟨n, hn, hkey⟩
    exact ⟨n.entry, n, hn, hkey, rfl⟩
  · rintro ⟨-, n, hn, hkey, -⟩
    exact ⟨n, hn, hkey⟩

/-- An eviction takes the last node off the list. -/
theorem lru_evictLruUnsafe (h : c.WellFormed) : c.evictLruUnsafe.lru = c.lru.dropLast := by
  unfold evictLruUnsafe
  rcases List.eq_nil_or_concat c.lru with hnil | ⟨nodes, n, hlru⟩
  · simp [hnil]
  · -- no other node has the iterator of the last one
    rw [List.concat_eq_append] at hlru
    have hnodup := h.nodup
    rw [hlru, List.map_append, List.nodup_append] at hnodup
    have hkeep : (nodes.filter fun m => m.it != n.it) = nodes := by
      refine List.filter_eq_self.mpr fun m hm => bne_iff_ne.mpr ?_
      exact hnodup.2.2 m.it (List.mem_map_of_mem hm) n.it (by simp)
    simp [hlru, eraseUnsafe, List.filter_append, hkeep]

end Cache

end ShardCache
