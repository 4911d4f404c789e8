import ShardCache.Store.ShardedCache

/-!
# Snapshot files

A node restores its cache from a snapshot file before it serves. The file is a magic number, the
number of entries, the entries with their versions and absolute deadlines, and a checksum, all
integers little endian. It is decoded as a whole before any entry is applied.

## Main definitions

* `Snapshot.checksum`, `Snapshot.decode`: the checksum, and the entries of a file that is accepted
* `Snapshot.Entry.restored`: the write that an entry is restored as
* `Snapshot.load`: `load_snapshot`

## Main results

* `Snapshot.version_load`: the versions in the cache after a load were there before, or the file
  lists them for the same key
-/

namespace ShardCache

namespace Snapshot

/-! ## Reading -/

/-- `kMagic`: `SCSNAP01`. -/
def magic : Bytes := [83, 67, 83, 78, 65, 80, 48, 49]

/-- `checksum`: FNV-1a in 64 bits. -/
def checksum (data : Bytes) : UInt64 :=
  data.foldl (fun h b => (h ^^^ b.toUInt64) * 1099511628211) 1469598103934665603

/-- The number that bytes stand for, the least significant first. -/
def littleEndian (data : Bytes) : ℕ := data.foldr (fun b n => b.toNat + 256 * n) 0

/-- `Reader::bytes`: the next `n` bytes, and the rest. -/
def readBytes (n : ℕ) (buf : Bytes) : Option (Bytes × Bytes) :=
  if buf.length < n then none else some (buf.take n, buf.drop n)

/-- `Reader::pod` of an unsigned integer of `n` bytes. -/
def readNat (n : ℕ) (buf : Bytes) : Option (ℕ × Bytes) :=
  (readBytes n buf).map fun (data, rest) => (littleEndian data, rest)

/-- `Reader::pod` of an `int64_t`. -/
def readInt64 (buf : Bytes) : Option (ℤ × Bytes) :=
  (readNat 8 buf).map fun (n, rest) => (if n < 2 ^ 63 then (n : ℤ) else (n : ℤ) - 2 ^ 64, rest)

/-- `Reader::str`: a length of four bytes, and as many bytes. -/
def readStr (buf : Bytes) : Option (Bytes × Bytes) :=
  (readNat 4 buf).bind fun (n, rest) => readBytes n rest

/-- An entry of the file; the deadline is in Unix milliseconds, negative for none. -/
structure Entry where
  key : Key
  value : VersionedValue
  expiry : ℤ
deriving DecidableEq, Repr

/-- The fields of one entry. -/
def readEntry (buf : Bytes) : Option (Entry × Bytes) := do
  let (key, buf) ← readStr buf
  let (value, buf) ← readStr buf
  let (version, buf) ← readNat 8 buf
  let (tombstone, buf) ← readNat 1 buf
  let (expiry, buf) ← readInt64 buf
  return (⟨key, ⟨value, version.toUInt64, tombstone != 0, none⟩, expiry⟩, buf)

/-- The loop that decodes entry `i` and the `count` after it. -/
def readEntries : ℕ → ℕ → Bytes → Except String (List Entry × Bytes)
  | 0, _, buf => .ok ([], buf)
  | count + 1, i, buf =>
    match readEntry buf with
    | none => .error ("truncated entry " ++ toString i)
    | some (e, buf) => do
      let (entries, buf) ← readEntries count (i + 1) buf
      return (e :: entries, buf)

/-- The part of `load_snapshot` that decodes the file. -/
def decode (file : Bytes) : Except String (List Entry) :=
  if file.length < 24 ∨ file.take 8 ≠ magic then .error "not a ShardCache snapshot"
  else
    let body := file.take (file.length - 8)
    if checksum body ≠ (littleEndian (file.drop (file.length - 8))).toUInt64 then
      .error "checksum mismatch (corrupt or truncated snapshot)"
    else
      match readNat 8 (body.drop 8) with
      | none => .error "truncated header"
      | some (count, buf) => do
        let (entries, buf) ← readEntries count 0 buf
        if buf.isEmpty then return entries else throw "trailing bytes after entries"

/-! ## Restoring -/

/-- The write that an entry is restored as, at the given Unix time; none if it has expired while the
node was down. Tombstones start their time anew. -/
def Entry.restored (nowUnixMs : ℤ) (e : Entry) : Option VersionedValue :=
  if e.expiry ≥ 0 then
    if e.expiry ≤ nowUnixMs then none
    else some { e.value with
      ttl := if e.value.tombstone then none else some (e.expiry - nowUnixMs).toNat }
  else some { e.value with ttl := if e.value.tombstone then none else e.value.ttl }

/-- One iteration of the loop that applies the entries; `now i` is the steady clock at the `i`-th
entry applied. -/
def restore (nowUnixMs : ℤ) (now : ℕ → Time) (s : ShardedCache × ℕ) (e : Entry) :
    ShardedCache × ℕ :=
  match e.restored nowUnixMs with
  | none => s
  | some v => ((s.1.apply (now s.2) e.key v).1, s.2 + 1)

/-- `load_snapshot`: the cache after the entries were applied and their number, or the error. -/
def load (cache : ShardedCache) (file : Bytes) (nowUnixMs : ℤ) (now : ℕ → Time) :
    Except String (ShardedCache × ℕ) := do
  let entries ← decode file
  return entries.foldl (restore nowUnixMs now) (cache, 0)

/-! ## What a load brings in -/

variable {nowUnixMs : ℤ} {now : ℕ → Time}

theorem version_restored {e : Entry} {v : VersionedValue} (h : e.restored nowUnixMs = some v) :
    v.version = e.value.version := by
  unfold Entry.restored at h
  split at h
  · split at h
    · simp at h
    · rw [← Option.some.inj h]
  · rw [← Option.some.inj h]

/-- The versions in the cache after the entries were applied: as before, or of an entry of the same
key. -/
theorem version_restore (entries : List Entry) (s : ShardedCache × ℕ) (k : Key) (e : CacheEntry)
    (he : (entries.foldl (restore nowUnixMs now) s).1.slot k = some e) :
    s.1.slot k = some e ∨ ∃ x ∈ entries, x.key = k ∧ x.value.version = e.version := by
  -- Induction on the entries, from the cache that the first one leaves.
  induction entries generalizing s with
  | nil => exact Or.inl he
  | cons x entries ih =>
    rcases ih (restore nowUnixMs now s x) he with h | ⟨y, hy, hkey, hversion⟩
    · -- the entry applied here, or what was there
      unfold restore at h
      cases hv : x.restored nowUnixMs with
      | none =>
        -- the entry had expired and is not applied
        simp only [hv] at h
        exact Or.inl h
      | some v =>
        simp only [hv] at h
        rcases ShardedCache.slot_apply_origin h with h | ⟨rfl, rfl⟩
        · exact Or.inl h
        · exact Or.inr ⟨x, List.mem_cons_self, rfl, (version_restored hv).symm⟩
    · exact Or.inr ⟨y, List.mem_cons_of_mem _ hy, hkey, hversion⟩

theorem eq_ok_of_toOption {α : Type} {x : Except String α} {a : α} (h : x.toOption = some a) :
    x = .ok a := by
  cases x with
  | error message => simp [Except.toOption] at h
  | ok b => simpa [Except.toOption] using h

theorem decode_of_load {cache cache' : ShardedCache} {file : Bytes} {n : ℕ}
    (h : load cache file nowUnixMs now = .ok (cache', n)) :
    ∃ entries, decode file = .ok entries ∧
      entries.foldl (restore nowUnixMs now) (cache, 0) = (cache', n) := by
  unfold load at h
  cases hd : decode file with
  | error message => simp [hd, bind, Except.bind] at h
  | ok entries =>
    simp only [hd, bind, Except.bind, pure, Except.pure, Except.ok.injEq] at h
    exact ⟨entries, rfl, h⟩

/-- **The versions in the cache after a load** were there before, or the file lists them for the same
key. -/
theorem version_load {cache cache' : ShardedCache} {file : Bytes} {n : ℕ}
    (h : load cache file nowUnixMs now = .ok (cache', n)) :
    ∃ entries, decode file = .ok entries ∧ ∀ (k : Key) (e : CacheEntry),
      cache'.slot k = some e →
        cache.slot k = some e ∨ ∃ x ∈ entries, x.key = k ∧ x.value.version = e.version := by
  obtain ⟨entries, hd, hfold⟩ := decode_of_load h
  refine ⟨entries, hd, ?_⟩
  intro k e he
  have hslot : (entries.foldl (restore nowUnixMs now) (cache, 0)).1.slot k = some e := by
    rw [hfold]
    exact he
  exact version_restore entries (cache, 0) k e hslot

end Snapshot

end ShardCache
