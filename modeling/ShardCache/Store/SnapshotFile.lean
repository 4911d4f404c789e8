import ShardCache.Foundations.Codec
import ShardCache.Store.Sharding
import ShardCache.Store.Snapshot

/-!
# Writing snapshot files

`save_snapshot` walks the shards and writes the entries that have not expired, with their time to
live as an absolute deadline. A file is read back as it was written, as long as the lengths fit their
fields; then a file that was cut off, extended, or damaged in one byte is refused. If a length does
not fit, what is read off the file ends elsewhere, and it depends on the bytes there whether a part
or an extension of the file is accepted.

## Main definitions

* `Snapshot.encode`: the bytes of a file
* `Snapshot.save`, `Snapshot.saveSnapshot`: the file of a cache, and `save_snapshot` with the outcomes
  of writing it
* `Snapshot.loadSnapshot`: `load_snapshot` with the outcome of opening the file
* `Snapshot.Fits`: the lengths of keys and values, and the number of entries, fit their fields
* `Snapshot.sealed`: a payload between the magic number and its checksum
* `Snapshot.Delimited`: reading a file ends at its checksum, or where no checksum stands

## Main results

* `Snapshot.decode_encode`: a file is read back as it was written
* `Snapshot.long_key_prefix_accepted`: a proper part of a file with a key of 4 GiB is accepted
* `Snapshot.damaged_rejected_iff`: damaged files are refused exactly if the file is delimited
-/

namespace ShardCache

open Foundations

namespace Snapshot

/-! ## Writing -/

/-- `Writer::pod` of an unsigned integer of `n` bytes. -/
def pod : ℕ → ℕ → Bytes
  | 0, _ => []
  | n + 1, value => (value % 256).toUInt8 :: pod n (value / 256)

/-- `Writer::pod` of an `int64_t`. -/
def podInt64 (value : ℤ) : Bytes := pod 8 (value % 2 ^ 64).toNat

/-- `Writer::str`: a length of four bytes, and the bytes. -/
def str (s : Bytes) : Bytes := pod 4 s.length ++ s

/-- The deadline that is written for a time to live: `-1` for none. -/
def expiryOf (nowUnixMs : ℤ) : Option Millis → ℤ
  | some ttl => nowUnixMs + ttl
  | none => -1

/-- One entry of the batch, as it is written. -/
def writeEntry (nowUnixMs : ℤ) (x : Key × VersionedValue) : Bytes :=
  str x.1 ++ (str x.2.value ++ (pod 8 x.2.version.toNat ++
    (pod 1 (if x.2.tombstone then 1 else 0) ++ podInt64 (expiryOf nowUnixMs x.2.ttl))))

/-- `memcpy` into the buffer at an offset. -/
def patch (buf : Bytes) (offset : ℕ) (data : Bytes) : Bytes :=
  buf.take offset ++ data ++ buf.drop (offset + data.length)

/-- The bytes of a file: the number of entries is patched in once they are written, and the checksum
of everything follows. -/
def encode (nowUnixMs : ℤ) (entries : List (Key × VersionedValue)) : Bytes :=
  let buf := magic ++ (pod 8 0 ++ (entries.map (writeEntry nowUnixMs)).flatten)
  let buf := patch buf magic.length (pod 8 entries.length)
  buf ++ pod 8 (checksum buf).toNat

/-- The file of a cache. -/
def save (cache : ShardedCache) (nowUnixMs : ℤ) (now : Time) : Bytes :=
  encode nowUnixMs (cache.batches now).flatten

/-- `SnapshotStats`. -/
structure Stats where
  entries : ℕ
  bytes : ℕ
deriving DecidableEq, Repr

/-- How writing the file ends: it is opened, written and renamed, each if all is well. -/
structure FileOutcome where
  opened : Bool := true
  written : Bool := true
  renamed : Bool := true
deriving DecidableEq, Repr

/-- `save_snapshot`: the file at the path and the statistics, or the error. -/
def saveSnapshot (cache : ShardedCache) (path : String) (nowUnixMs : ℤ) (now : Time)
    (outcome : FileOutcome) : Except String (Bytes × Stats) :=
  let file := save cache nowUnixMs now
  let tmp := path ++ ".tmp"
  if !outcome.opened then .error ("cannot open " ++ tmp)
  else if !outcome.written then .error ("write failed for " ++ tmp)
  else if !outcome.renamed then .error ("rename to " ++ path ++ " failed")
  else .ok (file, ⟨(cache.batches now).flatten.length, file.length⟩)

/-- `load_snapshot`: the cache after it, and the statistics or the error. `file` is what is at the
path. -/
def loadSnapshot (cache : ShardedCache) (path : String) (file : Option Bytes) (nowUnixMs : ℤ)
    (now : ℕ → Time) : ShardedCache × Except String Stats :=
  match file with
  | none => (cache, .error ("no snapshot at " ++ path))
  | some file =>
    match load cache file nowUnixMs now with
    | .error message => (cache, .error message)
    | .ok (cache', applied) => (cache', .ok ⟨applied, file.length⟩)

theorem file_of_save {cache : ShardedCache} {path : String} {nowUnixMs : ℤ} {now : Time}
    {outcome : FileOutcome} {file : Bytes} {stats : Stats}
    (h : saveSnapshot cache path nowUnixMs now outcome = .ok (file, stats)) :
    file = save cache nowUnixMs now := by
  unfold saveSnapshot at h
  split_ifs at h
  exact (Prod.mk.inj (Except.ok.inj h)).1.symm

/-! ## Numbers -/

@[simp] theorem length_pod (n value : ℕ) : (pod n value).length = n := by
  induction n generalizing value with
  | zero => rfl
  | succ n ih => rw [pod, List.length_cons, ih]

theorem littleEndian_pod (n value : ℕ) : littleEndian (pod n value) = value % 256 ^ n := by
  induction n generalizing value with
  | zero => simp [pod, littleEndian, Nat.mod_one]
  | succ n ih =>
    have hcons : littleEndian (pod (n + 1) value) =
        (value % 256).toUInt8.toNat + 256 * littleEndian (pod n (value / 256)) := rfl
    have hbyte : (value % 256).toUInt8.toNat = value % 256 := by
      simp only [UInt8.toNat_ofNat', Nat.toUInt8_eq]
      omega
    rw [hcons, hbyte, ih, pow_succ', Nat.mod_mul]

theorem littleEndian_injective {l l' : Bytes} (hlen : l.length = l'.length)
    (h : littleEndian l = littleEndian l') : l = l' := by
  induction l generalizing l' with
  | nil => exact (List.length_eq_zero_iff.mp hlen.symm).symm
  | cons b l ih =>
    cases l' with
    | nil => simp at hlen
    | cons b' l' =>
      have hcons : b.toNat + 256 * littleEndian l = b'.toNat + 256 * littleEndian l' := h
      have hb := b.toNat_lt
      have hb' := b'.toNat_lt
      have hbyte : b = b' := UInt8.toNat_inj.mp (by omega)
      rw [hbyte, ih (by simpa using hlen) (by omega)]

theorem littleEndian_lt (l : Bytes) : littleEndian l < 256 ^ l.length := by
  induction l with
  | nil => simp [littleEndian]
  | cons b l ih =>
    have hcons : littleEndian (b :: l) = b.toNat + 256 * littleEndian l := rfl
    have hb := b.toNat_lt
    rw [hcons, List.length_cons, pow_succ]
    omega

/-! ## Reading what was written -/

theorem readBytes_reads (w : Bytes) : Reader.Reads (readBytes w.length) w w := by
  intro more
  simp [readBytes]

theorem readBytes_stable (n : ℕ) : Reader.Stable (readBytes n) := by
  intro buf a rest more hread
  unfold readBytes at hread ⊢
  split at hread
  · simp at hread
  · rename_i hlen
    have hle : n ≤ buf.length := not_lt.mp hlen
    obtain ⟨rfl, rfl⟩ := Prod.mk.inj (Option.some.inj hread)
    rw [if_neg (by simp; omega), List.take_append_of_le_length hle,
      List.drop_append_of_le_length hle]

theorem readBytes_complete (n : ℕ) : Reader.Complete (readBytes n) := by
  intro buf
  have hread {w : Bytes} (hw : w.length = n) : readBytes n w = some (w, []) := by
    simp [readBytes, hw.le, hw.ge]
  rcases le_total n buf.length with hle | hle
  · exact ⟨buf.take n, _, hread (List.length_take_of_le hle), .inl (List.take_prefix n buf)⟩
  · -- any bytes do for those that are missing
    exact ⟨buf ++ List.replicate (n - buf.length) 0, _, hread (by simp [hle]),
      .inr (List.prefix_append _ _)⟩

theorem readNat_reads {n value : ℕ} (h : value < 256 ^ n) :
    Reader.Reads (readNat n) (pod n value) value := by
  have hread := (readBytes_reads (pod n value)).map littleEndian
  rw [littleEndian_pod, Nat.mod_eq_of_lt h, length_pod] at hread
  exact hread

theorem readNat_stable (n : ℕ) : Reader.Stable (readNat n) := (readBytes_stable n).map littleEndian

theorem readNat_complete (n : ℕ) : Reader.Complete (readNat n) :=
  (readBytes_complete n).map littleEndian

/-- The number that eight bytes stand for as an `int64_t`. -/
def toInt64 (n : ℕ) : ℤ := if n < 2 ^ 63 then n else (n : ℤ) - 2 ^ 64

/-- What is read back of a number that was written as an `int64_t`: the number, if it is in range. -/
def wrapInt64 (value : ℤ) : ℤ := toInt64 (value % 2 ^ 64).toNat

theorem wrapInt64_eq {value : ℤ} (hlow : -2 ^ 63 ≤ value) (hhigh : value < 2 ^ 63) :
    wrapInt64 value = value := by
  unfold wrapInt64 toInt64
  split <;> omega

theorem readInt64_reads (value : ℤ) :
    Reader.Reads readInt64 (podInt64 value) (wrapInt64 value) := by
  have hlt : (value % 2 ^ 64).toNat < 256 ^ 8 := by omega
  exact (readNat_reads hlt).map toInt64

theorem readInt64_stable : Reader.Stable readInt64 := (readNat_stable 8).map toInt64

theorem readInt64_complete : Reader.Complete readInt64 := (readNat_complete 8).map toInt64

theorem readStr_eq : readStr = Reader.bind (readNat 4) readBytes := rfl

theorem readStr_reads {w : Bytes} (h : w.length < 2 ^ 32) : Reader.Reads readStr (str w) w := by
  rw [readStr_eq, str]
  exact (readNat_reads (by omega)).bind (readBytes_reads w)

theorem readStr_stable : Reader.Stable readStr := (readNat_stable 4).bind readBytes_stable

theorem readStr_complete : Reader.Complete readStr :=
  (readNat_complete 4).bind (readNat_stable 4) readBytes_complete

/-- The fields of an entry are read one after the other. -/
theorem readEntry_eq :
    readEntry = Reader.bind readStr fun key => Reader.bind readStr fun value =>
      Reader.bind (readNat 8) fun version => Reader.bind (readNat 1) fun tombstone =>
        Reader.map (fun expiry => ⟨key, ⟨value, version.toUInt64, tombstone != 0, none⟩, expiry⟩)
          readInt64 := by
  funext buf
  simp only [readEntry, Reader.bind, Reader.map, Option.bind_eq_bind, Option.pure_def,
    Option.map_eq_bind, Function.comp_def]

theorem readEntry_stable : Reader.Stable readEntry := by
  rw [readEntry_eq]
  refine readStr_stable.bind fun key => readStr_stable.bind fun value => ?_
  refine (readNat_stable 8).bind fun version => (readNat_stable 1).bind fun tombstone => ?_
  exact readInt64_stable.map _

theorem readEntry_complete : Reader.Complete readEntry := by
  rw [readEntry_eq]
  refine readStr_complete.bind readStr_stable fun key => ?_
  refine readStr_complete.bind readStr_stable fun value => ?_
  refine (readNat_complete 8).bind (readNat_stable 8) fun version => ?_
  refine (readNat_complete 1).bind (readNat_stable 1) fun tombstone => ?_
  exact readInt64_complete.map _

/-- The entry that is read back. -/
def entryOf (nowUnixMs : ℤ) (x : Key × VersionedValue) : Entry :=
  ⟨x.1, { x.2 with ttl := none }, wrapInt64 (expiryOf nowUnixMs x.2.ttl)⟩

/-- **An entry is read back as it was written.** -/
theorem readEntry_reads (nowUnixMs : ℤ) {x : Key × VersionedValue} (hkey : x.1.length < 2 ^ 32)
    (hvalue : x.2.value.length < 2 ^ 32) :
    Reader.Reads readEntry (writeEntry nowUnixMs x) (entryOf nowUnixMs x) := by
  have hversion : x.2.version.toNat < 256 ^ 8 := x.2.version.toNat_lt
  have hflag : (if x.2.tombstone then 1 else 0) < 256 ^ 1 := by split <;> decide
  have hentry : entryOf nowUnixMs x = ⟨x.1, ⟨x.2.value, x.2.version.toNat.toUInt64,
      (if x.2.tombstone then 1 else 0) != 0, none⟩, wrapInt64 (expiryOf nowUnixMs x.2.ttl)⟩ := by
    cases htomb : x.2.tombstone <;> simp [entryOf, htomb]
  rw [readEntry_eq, writeEntry, hentry]
  refine (readStr_reads hkey).bind ((readStr_reads hvalue).bind ?_)
  refine (readNat_reads hversion).bind ((readNat_reads hflag).bind ?_)
  exact (readInt64_reads _).map _

/-! ## The loop over the entries -/

/-- The loop as a reader, without the text of its error. -/
def entriesReader (count i : ℕ) : Reader UInt8 (List Entry) :=
  fun buf => (readEntries count i buf).toOption

theorem entriesReader_succ (count i : ℕ) :
    entriesReader (count + 1) i =
      Reader.bind readEntry fun e => Reader.map (e :: ·) (entriesReader count (i + 1)) := by
  funext buf
  simp only [entriesReader, readEntries, Reader.bind, Reader.map]
  cases readEntry buf with
  | none => rfl
  | some x =>
    change (readEntries count (i + 1) x.2 >>= fun y => pure (x.1 :: y.1, y.2)).toOption = _
    cases hrest : readEntries count (i + 1) x.2 <;>
      simp [hrest, bind, Except.bind, pure, Except.pure, Except.toOption]

theorem entriesReader_stable (count i : ℕ) : Reader.Stable (entriesReader count i) := by
  induction count generalizing i with
  | zero =>
    intro buf entries rest more hread
    obtain ⟨rfl, rfl⟩ := Prod.mk.inj (Option.some.inj hread)
    rfl
  | succ count ih =>
    rw [entriesReader_succ]
    exact readEntry_stable.bind fun e => (ih (i + 1)).map _

theorem entriesReader_complete (count i : ℕ) : Reader.Complete (entriesReader count i) := by
  induction count generalizing i with
  | zero => exact fun buf => ⟨[], [], rfl, .inl List.nil_prefix⟩
  | succ count ih =>
    rw [entriesReader_succ]
    exact readEntry_complete.bind readEntry_stable fun e => (ih (i + 1)).map _

/-- The lengths of keys and values, and the number of entries, fit the fields they are written to. -/
structure Fits (entries : List (Key × VersionedValue)) : Prop where
  count : entries.length < 2 ^ 64
  key : ∀ x ∈ entries, x.1.length < 2 ^ 32
  value : ∀ x ∈ entries, x.2.value.length < 2 ^ 32

theorem entriesReader_reads (nowUnixMs : ℤ) (i : ℕ) {entries : List (Key × VersionedValue)}
    (hkey : ∀ x ∈ entries, x.1.length < 2 ^ 32)
    (hvalue : ∀ x ∈ entries, x.2.value.length < 2 ^ 32) :
    Reader.Reads (entriesReader entries.length i) (entries.map (writeEntry nowUnixMs)).flatten
      (entries.map (entryOf nowUnixMs)) := by
  induction entries generalizing i with
  | nil => exact fun more => rfl
  | cons x entries ih =>
    rw [List.length_cons, entriesReader_succ]
    simp only [List.map_cons, List.flatten_cons]
    rw [List.forall_mem_cons] at hkey hvalue
    exact (readEntry_reads nowUnixMs hkey.1 hvalue.1).bind
      ((ih (i + 1) hkey.2 hvalue.2).map _)

/-! ## The file -/

/-- What stands between the magic number and the checksum. -/
def payload (nowUnixMs : ℤ) (entries : List (Key × VersionedValue)) : Bytes :=
  pod 8 entries.length ++ (entries.map (writeEntry nowUnixMs)).flatten

/-- The reader of the payload. -/
def payloadReader : Reader UInt8 (List Entry) :=
  Reader.bind (readNat 8) fun count => entriesReader count 0

theorem payloadReader_stable : Reader.Stable payloadReader :=
  (readNat_stable 8).bind fun count => entriesReader_stable count 0

theorem payloadReader_complete : Reader.Complete payloadReader :=
  (readNat_complete 8).bind (readNat_stable 8) fun count => entriesReader_complete count 0

theorem payloadReader_reads (nowUnixMs : ℤ) {entries : List (Key × VersionedValue)}
    (h : Fits entries) :
    Reader.Reads payloadReader (payload nowUnixMs entries) (entries.map (entryOf nowUnixMs)) :=
  (readNat_reads h.count).bind (entriesReader_reads nowUnixMs 0 h.key h.value)

theorem payloadReader_payload (nowUnixMs : ℤ) {entries : List (Key × VersionedValue)}
    (h : Fits entries) :
    payloadReader (payload nowUnixMs entries) = some (entries.map (entryOf nowUnixMs), []) := by
  simpa using payloadReader_reads nowUnixMs h []

/-- The bytes of the checksum over a payload. -/
def checksumOf (body : Bytes) : Bytes := pod 8 (checksum (magic ++ body)).toNat

@[simp] theorem length_checksumOf (body : Bytes) : (checksumOf body).length = 8 := length_pod 8 _

/-- The file with a payload. -/
def sealed (body : Bytes) : Bytes := magic ++ (body ++ checksumOf body)

theorem drop_sealed (body : Bytes) : (sealed body).drop 8 = body ++ checksumOf body :=
  List.drop_left' rfl

theorem encode_eq (nowUnixMs : ℤ) (entries : List (Key × VersionedValue)) :
    encode nowUnixMs entries = sealed (payload nowUnixMs entries) := by
  have hpatch (l : Bytes) : patch (magic ++ (pod 8 0 ++ l)) magic.length (pod 8 entries.length) =
      magic ++ (pod 8 entries.length ++ l) := by
    rw [patch, List.take_left, List.append_assoc, List.drop_append, length_pod]
    simp [show magic.length = 8 from rfl]
  rw [encode, hpatch, sealed, checksumOf, payload]
  simp only [List.append_assoc]

/-- The part of `decode` after the checksum. -/
def decodePayload (body : Bytes) : Except String (List Entry) :=
  match readNat 8 body with
  | none => .error "truncated header"
  | some (count, buf) => do
    let (entries, buf) ← readEntries count 0 buf
    if buf.isEmpty then return entries else throw "trailing bytes after entries"

theorem decodePayload_eq_ok {body : Bytes} {entries : List Entry} :
    decodePayload body = .ok entries ↔ payloadReader body = some (entries, []) := by
  unfold decodePayload payloadReader Reader.bind
  cases readNat 8 body with
  | none => simp
  | some x =>
    obtain ⟨count, buf⟩ := x
    change (readEntries count 0 buf >>= fun y =>
      if y.2.isEmpty then pure y.1 else throw "trailing bytes after entries") = _ ↔
        (readEntries count 0 buf).toOption = _
    cases hread : readEntries count 0 buf with
    | error message => simp [bind, Except.bind, Except.toOption]
    | ok y =>
      obtain ⟨listed, rest⟩ := y
      cases rest <;> simp [bind, Except.bind, Except.toOption, pure, Except.pure, throw,
        throwThe, MonadExceptOf.throw]

theorem decode_append (body : Bytes) {sum : Bytes} (hsum : sum.length = 8) :
    decode (magic ++ (body ++ sum)) =
      if body.length < 8 then .error "not a ShardCache snapshot"
      else if checksum (magic ++ body) ≠ (littleEndian sum).toUInt64 then
        .error "checksum mismatch (corrupt or truncated snapshot)"
      else decodePayload body := by
  have hlen : (magic ++ (body ++ sum)).length - 8 = (magic ++ body).length := by
    simp only [List.length_append, hsum]
    omega
  have hshort : ((magic ++ (body ++ sum)).length < 24 ∨ (magic ++ (body ++ sum)).take 8 ≠ magic) ↔
      body.length < 8 := by
    have htake : (magic ++ (body ++ sum)).take 8 = magic := List.take_left' rfl
    simp only [htake, ne_eq, not_true_eq_false, or_false, List.length_append, hsum,
      show magic.length = 8 from rfl]
    omega
  have hdrop : (magic ++ body).drop 8 = body := List.drop_left' rfl
  simp only [decode, hshort, hlen]
  rw [← List.append_assoc, List.take_left, List.drop_left, hdrop]
  rfl

theorem littleEndian_checksumOf (body : Bytes) :
    (littleEndian (checksumOf body)).toUInt64 = checksum (magic ++ body) := by
  have hlt : (checksum (magic ++ body)).toNat < 256 ^ 8 := (checksum (magic ++ body)).toNat_lt
  rw [checksumOf, littleEndian_pod, Nat.mod_eq_of_lt hlt]
  simp

/-- A checksum is stored in one way only. -/
theorem eq_checksumOf {body sum : Bytes} (hsum : sum.length = 8)
    (h : checksum (magic ++ body) = (littleEndian sum).toUInt64) : sum = checksumOf body := by
  have hlt : littleEndian sum < 2 ^ 64 := by simpa [hsum] using littleEndian_lt sum
  have hlt' : littleEndian (checksumOf body) < 2 ^ 64 := by
    simpa using littleEndian_lt (checksumOf body)
  refine littleEndian_injective (hsum.trans (length_checksumOf body).symm) ?_
  have hnat := congrArg UInt64.toNat (h.symm.trans (littleEndian_checksumOf body).symm)
  simp only [Nat.toUInt64_eq, UInt64.toNat_ofNat'] at hnat
  rwa [Nat.mod_eq_of_lt hlt, Nat.mod_eq_of_lt hlt'] at hnat

/-- **What is accepted**: the files whose payload is read to its end. -/
theorem decode_eq_ok {file : Bytes} {entries : List Entry} :
    decode file = .ok entries ↔
      ∃ body, file = sealed body ∧ payloadReader body = some (entries, []) := by
  constructor
  · intro h
    -- The first check gives the three parts, the others are then those of `decode_append`.
    have hparts : ∃ body sum : Bytes, file = magic ++ (body ++ sum) ∧ sum.length = 8 := by
      unfold decode at h
      split at h
      · cases h
      · rename_i hcheck
        obtain ⟨hlen, hmagic⟩ := not_or.mp hcheck
        refine ⟨(file.drop 8).take (file.length - 16), (file.drop 8).drop (file.length - 16), ?_, ?_⟩
        · rw [List.take_append_drop, ← not_not.mp hmagic, List.take_append_drop]
        · simp only [List.length_drop]
          omega
    obtain ⟨body, sum, rfl, hsum⟩ := hparts
    rw [decode_append body hsum] at h
    split at h
    · cases h
    · split at h
      · cases h
      · rename_i hchecksum
        obtain rfl := eq_checksumOf hsum (not_not.mp hchecksum)
        exact ⟨body, rfl, decodePayload_eq_ok.mp h⟩
  · rintro ⟨body, rfl, hread⟩
    have hcount : ¬body.length < 8 := by
      intro hshort
      simp [payloadReader, Reader.bind, readNat, readBytes, hshort] at hread
    rw [sealed, decode_append body (length_checksumOf body), if_neg hcount,
      if_neg (not_not.mpr (littleEndian_checksumOf body).symm)]
    exact decodePayload_eq_ok.mpr hread

/-- **A file is read back as it was written.** -/
theorem decode_encode (nowUnixMs : ℤ) {entries : List (Key × VersionedValue)} (h : Fits entries) :
    decode (encode nowUnixMs entries) = .ok (entries.map (entryOf nowUnixMs)) :=
  decode_eq_ok.mpr ⟨_, encode_eq nowUnixMs entries, payloadReader_payload nowUnixMs h⟩

/-! ## Damaged files -/

/-- A file that was cut off, extended, or changed in one byte. -/
inductive Damage (file : Bytes) : Bytes → Prop
  | cut (part rest : Bytes) : rest ≠ [] → file = part ++ rest → Damage file part
  | extended (more : Bytes) : more ≠ [] → Damage file (file ++ more)
  | changed (before : Bytes) (b b' : UInt8) (after : Bytes) : b' ≠ b →
      file = before ++ b :: after → Damage file (before ++ b' :: after)

/-- The FNV prime is odd, and so multiplying by it can be undone. -/
theorem mul_prime_injective : Function.Injective fun h : UInt64 => h * 1099511628211 := by
  intro h h' heq
  have hinverse : (1099511628211 : UInt64) * 14886173955864302971 = 1 := by decide
  have hmul : h * 1099511628211 * 14886173955864302971 =
      h' * 1099511628211 * 14886173955864302971 := congrArg (· * 14886173955864302971) heq
  rwa [UInt64.mul_assoc, UInt64.mul_assoc, hinverse, UInt64.mul_one, UInt64.mul_one] at hmul

theorem checksum_step_injective (b : UInt8) :
    Function.Injective fun h : UInt64 => (h ^^^ b.toUInt64) * 1099511628211 := by
  intro h h' heq
  exact (UInt64.xor_left_inj _).mp (mul_prime_injective heq)

theorem checksum_byte_injective (h : UInt64) :
    Function.Injective fun b : UInt8 => (h ^^^ b.toUInt64) * 1099511628211 := by
  intro b b' heq
  exact UInt8.toUInt64_inj.mp ((UInt64.xor_right_inj _).mp (mul_prime_injective heq))

/-- Two bodies that differ in one byte have different checksums. -/
theorem checksum_ne_of_ne (before after : Bytes) {b b' : UInt8} (hne : b ≠ b') :
    checksum (before ++ b :: after) ≠ checksum (before ++ b' :: after) :=
  foldl_ne_of_ne checksum_step_injective checksum_byte_injective before after hne _

/-- No two files differ in one byte: the checksum is over the other bytes. -/
theorem sealed_ne_of_change {body body' before after : Bytes} {b b' : UInt8} (hne : b' ≠ b)
    (h : sealed body = before ++ b :: after) : sealed body' ≠ before ++ b' :: after := by
  intro h'
  have hlen : (checksumOf body).length = (checksumOf body').length := by simp
  rw [sealed, ← List.append_assoc] at h h'
  rcases parts_of_change hlen h h' with ⟨mid, hold, hnew, hsame⟩ | ⟨mid, hsame, hold, hnew⟩
  · -- the change is before the checksum, which was then another
    have hsum := congrArg (fun sum => (littleEndian sum).toUInt64) hsame
    simp only [littleEndian_checksumOf, hold, hnew] at hsum
    exact checksum_ne_of_ne before mid (Ne.symm hne) hsum
  · -- the change is in the checksum
    obtain rfl := List.append_cancel_left hsame
    exact hne (List.cons.inj (List.append_cancel_left (hnew.symm.trans hold))).1

/-- The text after the magic number is delimited: what is read off it, the number of entries and as
many entries, ends before the text does, at its last eight bytes or where the bytes that follow are
not those of the checksum over what was read, as far as they go. -/
def Delimited (text : Bytes) : Prop :=
  ∃ x ∈ payloadReader text, x.2.length = 8 ∨
    ¬x.2.take 8 <+: checksumOf (text.take (text.length - x.2.length))

instance (text : Bytes) : Decidable (Delimited text) :=
  inferInstanceAs (Decidable (∃ x ∈ payloadReader text, _))

theorem delimited_append {body : Bytes} {entries : List Entry}
    (hread : payloadReader body = some (entries, [])) (rest : Bytes) :
    Delimited (body ++ rest) ↔ rest.length = 8 ∨ ¬rest.take 8 <+: checksumOf body := by
  have htext : payloadReader (body ++ rest) = some (entries, rest) :=
    payloadReader_stable body entries [] rest hread
  simp [Delimited, htext]

/-- A text that a file goes on from is not delimited. -/
theorem not_delimited_of_append {text more body : Bytes} {entries : List Entry}
    (hread : payloadReader body = some (entries, [])) (hmore : more ≠ [])
    (h : text ++ more = body ++ checksumOf body) : ¬Delimited text := by
  rintro ⟨⟨entries', rest⟩, hrest, hends⟩
  -- both ways of reading the whole text leave the same
  have hleft := payloadReader_stable text entries' rest more hrest
  rw [h, payloadReader_stable body entries [] _ hread] at hleft
  have hsum : checksumOf body = rest ++ more := (Prod.mk.inj (Option.some.inj hleft)).2
  have hlen := congrArg List.length hsum
  have hpos := List.length_pos_iff.mpr hmore
  rw [length_checksumOf, List.length_append] at hlen
  obtain rfl : text = body ++ rest := by
    rw [hsum, ← List.append_assoc] at h
    exact List.append_cancel_right h
  rcases (delimited_append hread rest).mp ⟨_, hrest, hends⟩ with height | hother
  · omega
  · rw [List.take_of_length_le (by omega), hsum] at hother
    exact hother (List.prefix_append rest more)

/-- **No damaged file is accepted** if the text after the magic number is delimited. -/
theorem decode_ne_ok_of_damage {body damaged : Bytes} (h : Delimited (body ++ checksumOf body))
    (hdamage : Damage (sealed body) damaged) (accepted : List Entry) :
    decode damaged ≠ .ok accepted := by
  intro hok
  obtain ⟨body', hbody, hread⟩ := decode_eq_ok.mp hok
  cases hdamage with
  | cut _ rest hrest hcut =>
    -- the payload that was accepted is followed by its checksum, and by more
    rw [hbody, sealed, sealed, List.append_assoc, List.append_cancel_left_eq,
      List.append_assoc] at hcut
    rw [hcut, delimited_append hread] at h
    rcases h with hlen | hother
    · rw [List.length_append, length_checksumOf, Nat.add_eq_left] at hlen
      exact hrest (List.length_eq_zero_iff.mp hlen)
    · rw [List.take_left' (length_checksumOf body')] at hother
      exact hother List.prefix_rfl
  | extended more hmore =>
    rw [sealed, sealed, List.append_assoc, List.append_cancel_left_eq] at hbody
    exact not_delimited_of_append hread hmore hbody h
  | changed before b b' after hne hbyte => exact sealed_ne_of_change hne hbyte hbody.symm

/-- **Some damaged file is accepted** if the text after the magic number is not delimited. -/
theorem exists_damage_of_not_delimited {text : Bytes} (h : ¬Delimited text) :
    ∃ (body : Bytes) (entries : List Entry), Damage (magic ++ text) (sealed body) ∧
      decode (sealed body) = .ok entries := by
  obtain ⟨body, entries, hread, hbegins⟩ := payloadReader_complete text
  refine ⟨body, entries, ?_, decode_eq_ok.mpr ⟨body, rfl, hread⟩⟩
  obtain ⟨rest, rfl⟩ | ⟨more, rfl⟩ := hbegins
  · rw [delimited_append hread, not_or, not_not] at h
    obtain ⟨hlen, hsum⟩ := h
    rcases Nat.lt_or_gt_of_ne hlen with hshort | hlong
    · -- the file ends in the checksum, and can be extended by the rest of it
      rw [List.take_of_length_le hshort.le] at hsum
      obtain ⟨more, hmore⟩ := hsum
      have hne : more ≠ [] := by
        rintro rfl
        have hlen' := congrArg List.length hmore
        simp at hlen'
        omega
      have hfile : sealed body = magic ++ (body ++ rest) ++ more := by
        rw [sealed, ← hmore]
        simp only [List.append_assoc]
      exact hfile ▸ Damage.extended more hne
    · -- the file goes on after the checksum, and can be cut off there
      have htake : rest.take 8 = checksumOf body :=
        hsum.eq_of_length (by simp [hlong.le])
      refine Damage.cut _ (rest.drop 8) ?_ ?_
      · exact List.ne_nil_of_length_pos (by simpa using hlong)
      · rw [sealed, ← htake]
        simp only [List.append_assoc, List.take_append_drop]
  · -- the file can be extended to one whose payload goes on from it
    have hfile : sealed (text ++ more) = magic ++ text ++ (more ++ checksumOf (text ++ more)) := by
      rw [sealed]
      simp only [List.append_assoc]
    rw [hfile]
    exact Damage.extended _ (List.ne_nil_of_length_pos (by simp))

/-! ## Keys of 4 GiB -/

/-- A cache with one entry that has not expired lists it. -/
theorem flatten_batches_singleton {s : ShardedCache} {key : Key} {e : CacheEntry} {now : Time}
    (hslot : ∀ k, s.slot k = if k = key then some e else none) (hlive : e.isExpired now = false) :
    (s.batches now).flatten = [(key, e.versioned now)] := by
  have hmem : ∀ x, x ∈ s.pairs ↔ x ∈ [(key, e)] := by
    rintro ⟨k, e'⟩
    rw [ShardedCache.mem_pairs, hslot, List.mem_singleton]
    by_cases hk : k = key
    · simp [hk, eq_comm]
    · simp [hk]
  have hpairs : s.pairs = [(key, e)] := List.perm_singleton.mp
    ((List.perm_ext_iff_of_nodup s.nodup_pairs (List.nodup_singleton _)).mpr hmem)
  rw [ShardedCache.flatten_batches, hpairs]
  simp [hlive]

theorem slot_apply_eq_none {s : ShardedCache} {now : Time} {key k : Key} {v : VersionedValue}
    (hnone : s.slot k = none) (hk : k ≠ key) : (s.apply now key v).1.slot k = none := by
  rcases ShardedCache.slot_apply_ne hk with h | ⟨h, -⟩
  · exact h.trans hnone
  · exact h

theorem flatten_batches_apply_new (capacity shardCount : ℕ) (tombstoneTtl : Millis) (now : Time)
    (key : Key) (value : Bytes) (version : UInt64) :
    (((ShardedCache.new capacity shardCount tombstoneTtl).apply now key
      ⟨value, version, false, none⟩).1.batches now).flatten =
        [(key, ⟨value, version, false, none⟩)] := by
  refine (flatten_batches_singleton (e := ⟨value, none, version, false⟩) ?_ rfl).trans rfl
  intro k
  by_cases hk : k = key
  · rw [hk, if_pos rfl, ShardedCache.slot_apply, ShardedCache.slot_new]
    rfl
  · rw [if_neg hk]
    exact slot_apply_eq_none (ShardedCache.slot_new _ _ _ k) hk

/-- A file with one entry, whose key and value are empty. -/
def emptyEntryFile : Bytes := encode 0 [([], {})]

/-- A key of 4 GiB that goes on where `emptyEntryFile` stands after the length of its key. -/
def longKey : Key := emptyEntryFile.drop 20 ++ List.replicate (2 ^ 32 - 29) 0

theorem length_longKey : longKey.length = 2 ^ 32 := by
  have hdrop : (emptyEntryFile.drop 20).length = 29 := by decide
  rw [longKey, List.length_append, hdrop, List.length_replicate]
  norm_num

/-- The length of the key is written in four bytes as `0`, and so the file begins as
`emptyEntryFile`. -/
theorem encode_longKey :
    ∃ rest : Bytes, rest ≠ [] ∧ encode 0 [(longKey, {})] = emptyEntryFile ++ rest := by
  have hhead : emptyEntryFile.take 20 = magic ++ (pod 8 1 ++ pod 4 (2 ^ 32)) := by decide
  have hfile : emptyEntryFile = emptyEntryFile.take 20 ++ emptyEntryFile.drop 20 :=
    (List.take_append_drop 20 _).symm
  have hlen := length_longKey
  obtain ⟨padding, hkey⟩ : ∃ padding, longKey = emptyEntryFile.drop 20 ++ padding := ⟨_, rfl⟩
  -- the key is now any of this length that begins so
  generalize longKey = key at hlen hkey
  obtain ⟨sum, hsum, hencode⟩ : ∃ sum : Bytes, sum ≠ [] ∧
      encode 0 [(key, {})] = magic ++ (payload 0 [(key, {})] ++ sum) :=
    ⟨_, List.ne_nil_of_length_pos (by simp), encode_eq 0 _⟩
  obtain ⟨fields, hentry⟩ : ∃ fields : Bytes,
      writeEntry 0 (key, {}) = pod 4 (2 ^ 32) ++ (key ++ fields) := by
    rw [writeEntry, str, hlen, List.append_assoc]
    exact ⟨_, rfl⟩
  refine ⟨padding ++ (fields ++ sum), by simp [hsum], ?_⟩
  calc encode 0 [(key, {})]
      = magic ++ (pod 8 1 ++ (pod 4 (2 ^ 32) ++ (key ++ (fields ++ sum)))) := by
        rw [hencode, payload]
        simp [hentry]
    _ = emptyEntryFile.take 20 ++ (key ++ (fields ++ sum)) := by
        rw [hhead]
        simp only [List.append_assoc]
    _ = emptyEntryFile ++ (padding ++ (fields ++ sum)) := by
        rw [hkey, List.append_assoc, ← List.append_assoc, ← hfile]

/-- **A proper part of a file is accepted**, when the file has a key of 4 GiB. -/
theorem long_key_prefix_accepted :
    ∃ (cache target : ShardedCache) (file part rest : Bytes) (stats : Stats),
      saveSnapshot cache "cache.snap" 0 0 {} = .ok (file, stats) ∧ rest ≠ [] ∧
        file = part ++ rest ∧
          (loadSnapshot target "cache.snap" (some part) 0 fun _ => 0).2 = .ok ⟨1, 49⟩ := by
  obtain ⟨rest, hrest, hfile⟩ := encode_longKey
  have hbatches := flatten_batches_apply_new 0 1 0 0 longKey [] 0
  generalize ((ShardedCache.new 0 1 0).apply 0 longKey ⟨[], 0, false, none⟩).1 = cache at hbatches
  have hdecode : decode emptyEntryFile = .ok [entryOf 0 ([], {})] := by
    have hfits : Fits [([], {})] := ⟨by decide, by simp, by simp⟩
    exact decode_encode 0 hfits
  have hlen : emptyEntryFile.length = 49 := by decide
  refine ⟨cache, .new 0 1 0, save cache 0 0, emptyEntryFile, rest, _, rfl, hrest, ?_, ?_⟩
  · rw [save, hbatches]
    exact hfile
  · simp only [loadSnapshot, load, hdecode, hlen]
    rfl

/-! ## Which files are safe -/

theorem delimited_of_fits (nowUnixMs : ℤ) {entries : List (Key × VersionedValue)}
    (h : Fits entries) : Delimited ((encode nowUnixMs entries).drop 8) := by
  rw [encode_eq, drop_sealed, delimited_append (payloadReader_payload nowUnixMs h)]
  exact .inl (length_checksumOf _)

/-- **Damaged files are refused**, and leave the cache as it is, exactly if the file is delimited:
then no proper part of it, no extension of it and no file that differs from it in one byte is
accepted. The file is delimited when the lengths of the keys and values fit their fields. -/
theorem damaged_rejected_iff {cache : ShardedCache} {path : String} {saveUnixMs : ℤ}
    {saveNow : Time} {outcome : FileOutcome} {file : Bytes} {stats : Stats}
    (hsave : saveSnapshot cache path saveUnixMs saveNow outcome = .ok (file, stats)) :
    ((∀ damaged, Damage file damaged →
        ∀ (target : ShardedCache) (path' : String) (loadUnixMs : ℤ) (now : ℕ → Time), ∃ message,
          loadSnapshot target path' (some damaged) loadUnixMs now = (target, .error message)) ↔
      Delimited (file.drop 8)) ∧
      (Fits (cache.batches saveNow).flatten → Delimited (file.drop 8)) := by
  obtain rfl := file_of_save hsave
  refine ⟨⟨?_, ?_⟩, delimited_of_fits saveUnixMs⟩
  · intro hrefused
    by_contra hnot
    have hfile :
        magic ++ (save cache saveUnixMs saveNow).drop 8 = save cache saveUnixMs saveNow := by
      rw [save, encode_eq, drop_sealed, sealed]
    obtain ⟨body, entries, hdamage, hdecode⟩ := exists_damage_of_not_delimited hnot
    rw [hfile] at hdamage
    obtain ⟨message, hload⟩ := hrefused _ hdamage cache path saveUnixMs fun _ => saveNow
    simp [loadSnapshot, load, hdecode, bind, Except.bind, pure, Except.pure] at hload
  · intro hdelimited damaged hdamage target path' loadUnixMs now
    rw [save, encode_eq] at hdelimited hdamage
    rw [drop_sealed] at hdelimited
    cases hdecode : decode damaged with
    | error message => exact ⟨message, by simp [loadSnapshot, load, hdecode, bind, Except.bind]⟩
    | ok entries => exact absurd hdecode (decode_ne_ok_of_damage hdelimited hdamage entries)

/-- A byte after the file of a cache with one entry. -/
theorem damaged_rejected_iff_oneByteMore :
    ∃ message, loadSnapshot (.new 0 1 0) "cache.snap"
      (some (save ((ShardedCache.new 0 1 0).apply 0 [107] ⟨[118], 1, false, none⟩).1 0 0 ++ [0])) 0
        (fun _ => 0) = (.new 0 1 0, .error message) := by
  have hbatches := flatten_batches_apply_new 0 1 0 0 [107] [118] 1
  generalize ((ShardedCache.new 0 1 0).apply 0 [107] ⟨[118], 1, false, none⟩).1 = cache at hbatches ⊢
  have hsave : saveSnapshot cache "cache.snap" 0 0 {} =
      .ok (save cache 0 0, ⟨(cache.batches 0).flatten.length, (save cache 0 0).length⟩) := rfl
  have hfits : Fits (cache.batches 0).flatten := by
    rw [hbatches]
    exact ⟨by decide, by simp, by simp⟩
  obtain ⟨hiff, hdelimited⟩ := damaged_rejected_iff hsave
  exact hiff.mpr (hdelimited hfits) _ (Damage.extended [0] (List.cons_ne_nil _ _)) _ _ _ _

end Snapshot

end ShardCache
