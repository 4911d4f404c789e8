import ShardCache.Network.CommandHandler
import ShardCache.Protocol.Grammar
import ShardCache.Replication.Handoff

/-!
# Replica reads on the wire

A replica answers `REPL_GET` with what it holds: the value, the version as a signed number, whether it
is a tombstone, and the time to live, with `-1` for none. The coordinator rebuilds the write from the
reply. No bit of the version is lost on the way, so that replicas and coordinator agree on which of
two writes is the later one.

## Main definitions

* `decodeReplicaGet`: what the coordinator reads in a reply
* `replicaReply`: the reply of a replica, as a tree

## Main results

* `dispatch_replGet`: the bytes of the reply are those of the tree
* `replica_read_exact`: the coordinator rebuilds what the replica holds
-/

namespace ShardCache

open Foundations Resp CommandHandler
open Handoff (replyText)

/-- `decode_replica_get`. The first element is read as text, whatever its type. -/
def decodeReplicaGet : RespValue → Except (RequestStatus × Bytes) VersionedValue
  | .null => .error (.notFound, [])
  | .array [value, .integer version, .integer tombstone, .integer ttl] =>
    .ok {
      value := replyText value
      version := version.toUInt64
      tombstone := tombstone != 0
      -- `-1` stands for no expiry
      ttl := if 0 ≤ ttl then some ttl.toInt.toNat else none }
  | _ => .error (.protocolError, ascii "Malformed REPL_GET reply")

/-- The reply to `REPL_GET` of a replica that holds `v`, or nothing. -/
def replicaReply : Option VersionedValue → RespValue
  | none => .null
  | some v =>
    .array [.bulkString v.value, .integer v.version.toInt64,
      .integer (if v.tombstone then 1 else 0),
      .integer (match v.ttl with
        | none => -1
        | some ttl => max 1 (Int64.ofNat ttl))]

/-- The bytes that the replica sends are those of the tree. -/
theorem dispatch_replGet {σ : Type} (api : ClusterApi σ) {cmd : Command} (s : σ)
    (htype : cmd.type = .replGet) :
    (dispatch api cmd s).2 = (replicaReply (api.replicaRead s cmd.key).2).encode := by
  unfold dispatch
  rw [htype]
  cases hread : (api.replicaRead s cmd.key).2 with
  | none => simp [hread, replicaReply, RespValue.encode]
  | some v =>
    simp only [hread, replicaReply, RespValue.encode, RespValue.encodeAll, List.append_assoc,
      List.append_nil]
    rfl

theorem encodable_replicaReply {held : Option VersionedValue}
    (h : ∀ v ∈ held, v.value.length ≤ kMaxBulkLength) : (replicaReply held).Encodable := by
  cases held with
  | none => exact .null
  | some v =>
    refine .array (show 4 ≤ kMaxArrayLength by decide) ?_
    simp only [List.forall_mem_cons]
    exact ⟨.bulkString (h v rfl), .integer _, .integer _, .integer _, by simp⟩

/-- A time to live of at least a millisecond is no `-1`, and is read back if it fits in the type. -/
theorem toNat_max_one {ttl : ℕ} (h : ttl < 2 ^ 63) :
    0 ≤ max 1 (Int64.ofNat ttl) ∧ (max 1 (Int64.ofNat ttl)).toInt.toNat = max 1 ttl := by
  have hint : (Int64.ofNat ttl).toInt = ttl := Int64.toInt_ofNat_of_lt h
  have hone : (1 : Int64).toInt = 1 := rfl
  have hzero : (0 : Int64).toInt = 0 := rfl
  have hmax : (max 1 (Int64.ofNat ttl)).toInt = max 1 (ttl : ℤ) := by
    show (if (1 : Int64) ≤ Int64.ofNat ttl then Int64.ofNat ttl else 1).toInt = _
    split_ifs with hle <;> rw [Int64.le_iff_toInt_le, hint, hone] at hle
    · omega
    · omega
  rw [Int64.le_iff_toInt_le, hmax, hzero]
  omega

/-- The coordinator rebuilds the write, with a time to live of at least one millisecond. -/
theorem decodeReplicaGet_replicaReply {v : VersionedValue} (httl : ∀ ttl ∈ v.ttl, ttl < 2 ^ 63) :
    decodeReplicaGet (replicaReply (some v)) = .ok v.onReply := by
  -- the version comes back from the signed number with all its bits
  have hversion : v.version.toInt64.toUInt64 = v.version := by simp
  have htombstone : ((if v.tombstone then 1 else 0 : Int64) != 0) = v.tombstone := by
    cases v.tombstone <;> decide
  cases hv : v.ttl with
  | none => simp [replicaReply, decodeReplicaGet, replyText, hv, htombstone, VersionedValue.onReply]
  | some ttl =>
    obtain ⟨hnonneg, htoNat⟩ := toNat_max_one (httl ttl hv)
    simp [replicaReply, decodeReplicaGet, replyText, hv, htombstone, hnonneg, htoNat,
      VersionedValue.onReply]

/-- **Replica reads are exact**: whatever follows, the reply to `REPL_GET` is read as one value, and
the coordinator finds in it what the replica holds. The time to live is a number of milliseconds in 64
bits. -/
theorem replica_read_exact {σ : Type} (api : ClusterApi σ) (cmd : Command) (s : σ)
    (htype : cmd.type = .replGet)
    (hvalue : ∀ v ∈ (api.replicaRead s cmd.key).2, v.value.length ≤ kMaxBulkLength)
    (httl : ∀ v ∈ (api.replicaRead s cmd.key).2, ∀ ttl ∈ v.ttl, ttl < 2 ^ 63) (more : Bytes) :
    ∃ reply, parseReply.parse ((dispatch api cmd s).2 ++ more) = .ok reply more ∧
      decodeReplicaGet reply =
        match (api.replicaRead s cmd.key).2 with
        | none => .error (.notFound, [])
        | some v => .ok ⟨v.value, v.version, v.tombstone, v.ttl.map (max 1)⟩ := by
  refine ⟨replicaReply (api.replicaRead s cmd.key).2, ?_, ?_⟩
  · rw [dispatch_replGet api s htype]
    exact (encodable_replicaReply hvalue).whole.parse_append more
  · cases hread : (api.replicaRead s cmd.key).2 with
    | none => rfl
    | some v => exact decodeReplicaGet_replicaReply (httl v hread)

/-- A line break with the largest version that is about to expire, before the start of another
reply. -/
theorem replica_read_exact_lineBreak :
    ∃ reply, parseReply.parse ((dispatch { emptyCluster with
        replicaRead := fun s _ => (s, some ⟨[13, 10], 18446744073709551615, false, some 0⟩) }
        { type := .replGet, key := [107] } ()).2 ++ [36]) = .ok reply [36] ∧
      decodeReplicaGet reply = .ok ⟨[13, 10], 18446744073709551615, false, some 1⟩ := by
  have hexact := replica_read_exact { emptyCluster with
    replicaRead := fun s _ => (s, some ⟨[13, 10], 18446744073709551615, false, some 0⟩) }
    { type := .replGet, key := [107] } () rfl (by simp [kMaxBulkLength]) (by simp) [36]
  simpa using hexact

end ShardCache
