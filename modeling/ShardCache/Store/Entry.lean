import ShardCache.Foundations.MachineOrder

/-!
# Versioned entries and the last-writer-wins order

A stored entry carries its value, its deadline and the metadata that orders writes: a version
stamped by the coordinator and a tombstone flag. `supersedes` decides which of two writes wins; it
is the strict order of the tags `(version, tombstone, value)`, compared lexicographically.

## Main definitions

* `CacheEntry`, `VersionedValue`: a stored entry, and a write on its way between nodes
* `supersedes`, `newer`, `sameVersion`: the comparisons of `cache_entry.hpp` and `cluster.cpp`
* `VersionedValue.onWire`, `VersionedValue.onReply`: what a replica receives through `REPL_SET` and
  `REPL_DEL`, and what a coordinator receives through `REPL_GET`
* `Tag`, `CacheEntry.tag`, `VersionedValue.tag`: the position of a write in the order

## Main results

* `supersedes_iff`, `newer_iff`, `sameVersion_iff`: the comparisons are the order of tags
* `VersionedValue.onWire_tag`: the wire keeps the tag of a write whose tombstone is empty
-/

namespace ShardCache

/-- A `std::string`: any bytes. -/
abbrev Bytes := List UInt8

/-- Byte strings are compared lawfully, so membership in a list of them is decidable. -/
instance Bytes.instLawfulBEq : LawfulBEq Bytes := List.instLawfulBEq

/-- A key of the cache. -/
abbrev Key := Bytes

/-- A reading of `std::chrono::steady_clock`, in nanoseconds. -/
abbrev Time := ℕ

/-- A `std::chrono::milliseconds` duration. -/
abbrev Millis := ℕ

/-- A duration in milliseconds, in ticks of the steady clock. -/
def Millis.ticks (d : Millis) : Time := d * 1000000

/-- `duration_cast<milliseconds>` of the time left until `deadline`: it truncates. -/
def millisUntil (deadline now : Time) : Millis := (deadline - now) / 1000000

/-- `CacheEntry`: a stored value with its deadline and the metadata that orders writes. -/
structure CacheEntry where
  value : Bytes
  expiresAt : Option Time := none
  version : UInt64 := 0
  tombstone : Bool := false
deriving DecidableEq, Repr

/-- `CacheEntry::is_expired`. -/
def CacheEntry.isExpired (e : CacheEntry) (now : Time) : Bool :=
  match e.expiresAt with
  | none => false
  | some deadline => decide (now ≥ deadline)

/-- `is_live` of `cache.cpp`: visible to reads. -/
def CacheEntry.isLive (e : CacheEntry) (now : Time) : Bool :=
  !e.tombstone && !e.isExpired now

/-- `VersionedValue`: a value with the metadata replicas need to order writes. `ttl` is the time
left to live; `none` means no expiry. -/
structure VersionedValue where
  value : Bytes := []
  version : UInt64 := 0
  tombstone : Bool := false
  ttl : Option Millis := none
deriving DecidableEq, Repr, Inhabited

/-- `supersedes`: the higher version wins; on a tie deletes win, then the larger value. -/
def supersedes (version : UInt64) (tombstone : Bool) (value : Bytes) (current : CacheEntry) : Bool :=
  if version != current.version then decide (version > current.version)
  else if tombstone != current.tombstone then tombstone
  else decide (value > current.value)

/-- `newer`: the last-writer-wins comparison of two replica responses. -/
def newer (a b : VersionedValue) : Bool :=
  supersedes a.version a.tombstone a.value ⟨b.value, none, b.version, b.tombstone⟩

/-- `same_version` of `cluster.cpp`. -/
def sameVersion (a b : VersionedValue) : Bool :=
  a.version == b.version && a.tombstone == b.tombstone && a.value == b.value

/-- The value a replica rebuilds from `replica_write_command`: `REPL_DEL` carries the version
alone, `REPL_SET` a remaining time to live of at least one millisecond. -/
def VersionedValue.onWire (v : VersionedValue) : VersionedValue :=
  if v.tombstone then ⟨[], v.version, true, none⟩
  else ⟨v.value, v.version, false, v.ttl.map (max 1)⟩

/-- The value a coordinator rebuilds from a `REPL_GET` reply, whose remaining time to live is at
least one millisecond. -/
def VersionedValue.onReply (v : VersionedValue) : VersionedValue :=
  ⟨v.value, v.version, v.tombstone, v.ttl.map (max 1)⟩

/-! ## Tags -/

/-- The position of a write in the last-writer-wins order. -/
abbrev Tag := UInt64 ×ₗ Bool ×ₗ Bytes

/-- The tag of a write. -/
def tagOf (version : UInt64) (tombstone : Bool) (value : Bytes) : Tag :=
  toLex (version, toLex (tombstone, value))

/-- The version a tag was stamped with. -/
def Tag.version (t : Tag) : UInt64 := (ofLex t).1

/-- Whether a tag is that of a delete. -/
def Tag.tombstone (t : Tag) : Bool := (ofLex (ofLex t).2).1

/-- The value written under a tag. -/
def Tag.value (t : Tag) : Bytes := (ofLex (ofLex t).2).2

/-- The tag of a stored entry. -/
def CacheEntry.tag (e : CacheEntry) : Tag := tagOf e.version e.tombstone e.value

/-- The tag of a write on its way. -/
def VersionedValue.tag (v : VersionedValue) : Tag := tagOf v.version v.tombstone v.value

@[simp] theorem Tag.version_tagOf (v : UInt64) (t : Bool) (x : Bytes) :
    Tag.version (tagOf v t x) = v := rfl

@[simp] theorem Tag.tombstone_tagOf (v : UInt64) (t : Bool) (x : Bytes) :
    Tag.tombstone (tagOf v t x) = t := rfl

@[simp] theorem Tag.value_tagOf (v : UInt64) (t : Bool) (x : Bytes) :
    Tag.value (tagOf v t x) = x := rfl

@[simp] theorem VersionedValue.version_tag (v : VersionedValue) : Tag.version v.tag = v.version := rfl

@[simp] theorem VersionedValue.tombstone_tag (v : VersionedValue) :
    Tag.tombstone v.tag = v.tombstone := rfl

@[simp] theorem VersionedValue.value_tag (v : VersionedValue) : Tag.value v.tag = v.value := rfl

theorem tagOf_lt_tagOf {v w : UInt64} {t u : Bool} {x y : Bytes} :
    tagOf v t x < tagOf w u y ↔ v < w ∨ v = w ∧ (t < u ∨ t = u ∧ x < y) := by
  simp [tagOf, Prod.Lex.toLex_lt_toLex]

/-- A smaller tag has no larger version. -/
theorem Tag.version_le {t u : Tag} (h : t ≤ u) : t.version ≤ u.version :=
  Prod.Lex.monotone_fst _ _ h

/-- A tag of a larger version is larger. -/
theorem Tag.lt_of_version_lt {t u : Tag} (h : t.version < u.version) : t < u := by
  by_contra hle
  exact absurd (Tag.version_le (not_lt.mp hle)) (not_le.mpr h)

/-- **`supersedes` is the order of tags**: a write supersedes an entry when its tag is larger. -/
theorem supersedes_iff {version : UInt64} {tombstone : Bool} {value : Bytes} {e : CacheEntry} :
    supersedes version tombstone value e = true ↔ e.tag < tagOf version tombstone value := by
  rw [CacheEntry.tag, tagOf_lt_tagOf, supersedes]
  by_cases hv : version = e.version
  · subst hv
    by_cases ht : tombstone = e.tombstone
    · simp [ht]
    · rcases tombstone <;> cases he : e.tombstone <;> simp_all
  · have hne : e.version ≠ version := fun h => hv h.symm
    simp [hv, hne]

/-- A write of a larger version supersedes the entry. -/
theorem supersedes_of_version_lt {version : UInt64} {tombstone : Bool} {value : Bytes}
    {e : CacheEntry} (h : e.version < version) : supersedes version tombstone value e = true :=
  supersedes_iff.mpr (Tag.lt_of_version_lt h)

/-- A write of a smaller version does not. -/
theorem not_supersedes_of_version_lt {version : UInt64} {tombstone : Bool} {value : Bytes}
    {e : CacheEntry} (h : version < e.version) : supersedes version tombstone value e = false := by
  rw [← Bool.not_eq_true, supersedes_iff]
  intro hlt
  exact absurd (Tag.version_le hlt.le) (not_le.mpr h)

theorem newer_iff {a b : VersionedValue} : newer a b = true ↔ b.tag < a.tag := supersedes_iff

theorem sameVersion_iff {a b : VersionedValue} : sameVersion a b = true ↔ a.tag = b.tag := by
  simp [sameVersion, VersionedValue.tag, tagOf, and_assoc]

/-- The wire keeps the tag of every write whose tombstone carries no value. -/
theorem VersionedValue.onWire_tag {v : VersionedValue} (h : v.tombstone = true → v.value = []) :
    v.onWire.tag = v.tag := by
  cases ht : v.tombstone with
  | false => simp [onWire, tag, ht]
  | true => simp [onWire, tag, ht, h ht]

@[simp] theorem VersionedValue.onReply_tag (v : VersionedValue) : v.onReply.tag = v.tag := rfl

@[simp] theorem VersionedValue.onWire_version (v : VersionedValue) :
    v.onWire.version = v.version := by
  cases ht : v.tombstone <;> simp [onWire, ht]

end ShardCache
