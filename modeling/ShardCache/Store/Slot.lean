import ShardCache.Store.Entry

/-!
# The slot of one key

What `Cache::apply` and `Cache::get_versioned` do to the entry of the key they are called with. The
replication protocol is about one key, so its replicas are slots.

## Main definitions

* `VersionedValue.toEntry`: the entry `Cache::apply` stores
* `applySlot`, `wasLive`, `readSlot`: `Cache::apply`, its `was_live` and `Cache::get_versioned`
* `slotTag`: the tag of the stored entry, `⊥` for an empty slot

## Main results

* `slotTag_applySlot`: while nothing has expired, a slot keeps the larger tag
* `slotTag_readSlot`: while nothing has expired, a read returns the stored tag
-/

namespace ShardCache

/-- The deadline `Cache::apply` gives a write at the time `now`. -/
def VersionedValue.deadline (tombstoneTtl : Millis) (now : Time) (v : VersionedValue) : Option Time :=
  if v.tombstone then some (now + tombstoneTtl.ticks)
  else v.ttl.map fun ttl => now + ttl.ticks

/-- The entry `Cache::apply` stores for a write at the time `now`. -/
def VersionedValue.toEntry (tombstoneTtl : Millis) (now : Time) (v : VersionedValue) : CacheEntry :=
  ⟨v.value, v.deadline tombstoneTtl now, v.version, v.tombstone⟩

@[simp] theorem VersionedValue.toEntry_tag (tombstoneTtl : Millis) (now : Time)
    (v : VersionedValue) : (v.toEntry tombstoneTtl now).tag = v.tag := rfl

@[simp] theorem VersionedValue.toEntry_version (tombstoneTtl : Millis) (now : Time)
    (v : VersionedValue) : (v.toEntry tombstoneTtl now).version = v.version := rfl

/-- `Cache::apply` on the entry of the key: an unexpired entry that the write does not supersede
stays. -/
def applySlot (tombstoneTtl : Millis) (now : Time) (v : VersionedValue) :
    Option CacheEntry → Option CacheEntry
  | none => some (v.toEntry tombstoneTtl now)
  | some e =>
    if !e.isExpired now && !supersedes v.version v.tombstone v.value e then some e
    else some (v.toEntry tombstoneTtl now)

/-- The `was_live` that `Cache::apply` reports: the key was visible to reads. -/
def wasLive (now : Time) (slot : Option CacheEntry) : Bool :=
  slot.any fun e => e.isLive now

/-- The `VersionedValue` that `Cache::get_versioned` and `Cache::snapshot` make of an entry. -/
def CacheEntry.versioned (e : CacheEntry) (now : Time) : VersionedValue :=
  ⟨e.value, e.version, e.tombstone,
    if e.tombstone then none else e.expiresAt.map fun deadline => millisUntil deadline now⟩

/-- `Cache::get_versioned` on the entry of the key. -/
def readSlot (now : Time) : Option CacheEntry → Option VersionedValue
  | none => none
  | some e => if e.isExpired now then none else some (e.versioned now)

/-- The slot holds no entry that has expired at the time `now`. -/
def Unexpired (now : Time) (slot : Option CacheEntry) : Prop :=
  ∀ e, slot = some e → e.isExpired now = false

instance (now : Time) (slot : Option CacheEntry) : Decidable (Unexpired now slot) :=
  match slot with
  | none => .isTrue (by simp [Unexpired])
  | some e => decidable_of_iff (e.isExpired now = false) (by simp [Unexpired])

/-- The tag of the stored entry, `⊥` for an empty slot. -/
def slotTag (slot : Option CacheEntry) : WithBot Tag := slot.map CacheEntry.tag

/-- The tag of a value read from a slot, `⊥` when the slot was empty. -/
def readTag (value : Option VersionedValue) : WithBot Tag := value.map VersionedValue.tag

@[simp] theorem slotTag_none : slotTag none = ⊥ := rfl

@[simp] theorem slotTag_some (e : CacheEntry) : slotTag (some e) = e.tag := rfl

@[simp] theorem readTag_none : readTag none = ⊥ := rfl

@[simp] theorem readTag_some (v : VersionedValue) : readTag (some v) = v.tag := rfl

@[simp] theorem CacheEntry.versioned_tag (e : CacheEntry) (now : Time) :
    (e.versioned now).tag = e.tag := rfl

/-- What a slot holds after a write is the write or what it held. -/
theorem applySlot_eq_or (tombstoneTtl : Millis) (now : Time) (v : VersionedValue)
    (slot : Option CacheEntry) :
    applySlot tombstoneTtl now v slot = some (v.toEntry tombstoneTtl now) ∨
      applySlot tombstoneTtl now v slot = slot := by
  cases slot with
  | none => exact Or.inl rfl
  | some e =>
    rw [applySlot]
    split
    · exact Or.inr rfl
    · exact Or.inl rfl

/-- **Last writer wins**: a slot in which nothing has expired keeps the larger tag. -/
theorem slotTag_applySlot (tombstoneTtl : Millis) {now : Time} (v : VersionedValue)
    {slot : Option CacheEntry} (h : Unexpired now slot) :
    slotTag (applySlot tombstoneTtl now v slot) = max (slotTag slot) v.tag := by
  cases slot with
  | none => simp [applySlot]
  | some e =>
    rw [applySlot, h e rfl]
    by_cases hs : supersedes v.version v.tombstone v.value e = true
    · have hlt : e.tag < v.tag := supersedes_iff.mp hs
      simp [hs, hlt.le]
    · have hle : v.tag ≤ e.tag := not_lt.mp fun hlt => hs (supersedes_iff.mpr hlt)
      simp [hs, hle]

/-- After a write a slot holds at least the write, whether or not something had expired. -/
theorem le_slotTag_applySlot (tombstoneTtl : Millis) (now : Time) (v : VersionedValue)
    (slot : Option CacheEntry) : (v.tag : WithBot Tag) ≤ slotTag (applySlot tombstoneTtl now v slot) := by
  cases slot with
  | none => simp [applySlot]
  | some e =>
    rw [applySlot]
    split
    · rename_i h
      simp only [Bool.and_eq_true, Bool.not_eq_true'] at h
      have hle : v.tag ≤ e.tag := not_lt.mp fun hlt => by
        simp [supersedes_iff.mpr hlt] at h
      simpa using hle
    · simp

/-- A read of a slot in which nothing has expired returns the stored tag. -/
theorem slotTag_readSlot {now : Time} {slot : Option CacheEntry} (h : Unexpired now slot) :
    readTag (readSlot now slot) = slotTag slot := by
  cases slot with
  | none => rfl
  | some e => simp [readSlot, h e rfl]

end ShardCache
