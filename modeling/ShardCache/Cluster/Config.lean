import ShardCache.Store.Entry

/-!
# Quorums

The configuration of a cluster and the quorums it asks for. A configured quorum of `0` means a
majority of `N`; a preference list shorter than the quorum caps it. Quorums that overlap at `N`
overlap at every shorter list.

## Main definitions

* `ClusterConfig`, `ClusterConfig.effectiveQuorum`
* `Placement`: a configuration with the preference list of one key
* `Placement.canServeLocally`: whether a node can serve an operation without a peer

## Main results

* `ClusterConfig.effectiveQuorum_add_le`: a longer list asks for at most the members it gained
* `Placement.length_lt_readQuorum_add_writeQuorum`: overlapping quorums stay overlapping when the
  list caps them
-/

namespace ShardCache

/-- The `id` of a `CacheNode`. -/
abbrev NodeId := Bytes

/-- `Consistency`. -/
inductive Consistency where
  | quorum
  | linearizable
deriving DecidableEq, Repr

/-- The fields of `ClusterConfig` that replication reads. -/
structure ClusterConfig where
  replicationFactor : ℕ := 3
  readQuorum : ℕ := 0
  writeQuorum : ℕ := 0
  tombstoneTtl : Millis := 60000
  maxHintsPerNode : ℕ := 100000
  consistency : Consistency := .quorum

namespace ClusterConfig

/-- `Cluster::effective_quorum`. -/
def effectiveQuorum (c : ClusterConfig) (configured replicas : ℕ) : ℕ :=
  let q := if configured ≠ 0 then configured else c.replicationFactor / 2 + 1
  max 1 (min q replicas)

/-- The quorums of the configuration overlap: effective `R + W > N`. -/
def Overlapping (c : ClusterConfig) : Prop :=
  c.replicationFactor <
    c.effectiveQuorum c.readQuorum c.replicationFactor +
      c.effectiveQuorum c.writeQuorum c.replicationFactor

instance (c : ClusterConfig) : Decidable c.Overlapping := inferInstanceAs (Decidable (_ < _))

theorem effectiveQuorum_pos (c : ClusterConfig) (configured replicas : ℕ) :
    0 < c.effectiveQuorum configured replicas := by
  simp [effectiveQuorum]

theorem effectiveQuorum_le (c : ClusterConfig) (configured : ℕ) {replicas : ℕ}
    (h : 0 < replicas) : c.effectiveQuorum configured replicas ≤ replicas := by
  simp only [effectiveQuorum]
  omega

/-- A list that grows by `k` members asks for at most `k` more answers. -/
theorem effectiveQuorum_add_le (c : ClusterConfig) (configured replicas k : ℕ) :
    c.effectiveQuorum configured (replicas + k) ≤ c.effectiveQuorum configured replicas + k := by
  simp only [effectiveQuorum]
  omega

/-- A shorter list caps the quorum and changes nothing else. -/
theorem effectiveQuorum_eq_min (c : ClusterConfig) (configured : ℕ) {replicas bound : ℕ}
    (h : 0 < replicas) (hb : replicas ≤ bound) :
    c.effectiveQuorum configured replicas = min (c.effectiveQuorum configured bound) replicas := by
  simp only [effectiveQuorum]
  omega

end ClusterConfig

/-- A configuration with the preference list of the key under consideration. The ring is fixed, so
every coordinator has the same list: distinct nodes, at most `N` of them. -/
structure Placement where
  config : ClusterConfig
  targets : List NodeId
  nodup : targets.Nodup
  length_le : targets.length ≤ config.replicationFactor

namespace Placement

variable (P : Placement)

/-- The answers a read waits for. -/
def readQuorum : ℕ := P.config.effectiveQuorum P.config.readQuorum P.targets.length

/-- The acknowledgements a write waits for. -/
def writeQuorum : ℕ := P.config.effectiveQuorum P.config.writeQuorum P.targets.length

/-- `Cluster::can_serve_locally` on the node `c`, for the key under consideration. -/
def canServeLocally (c : NodeId) (isWrite : Bool) : Bool :=
  if c ∈ P.targets then
    if isWrite || P.config.consistency == .linearizable then P.targets.length == 1
    else P.readQuorum == 1
  else false

/-- Overlapping quorums overlap at every list, also where the list is shorter than `N`. -/
theorem length_lt_readQuorum_add_writeQuorum (h : P.config.Overlapping) :
    P.targets.length < P.readQuorum + P.writeQuorum := by
  have hr := P.config.effectiveQuorum_pos P.config.readQuorum P.config.replicationFactor
  have hw := P.config.effectiveQuorum_pos P.config.writeQuorum P.config.replicationFactor
  rcases Nat.eq_zero_or_pos P.targets.length with h₀ | h₀
  · have := P.config.effectiveQuorum_pos P.config.readQuorum P.targets.length
    simp only [readQuorum, writeQuorum]
    omega
  · rw [readQuorum, writeQuorum, P.config.effectiveQuorum_eq_min _ h₀ P.length_le,
      P.config.effectiveQuorum_eq_min P.config.writeQuorum h₀ P.length_le]
    unfold ClusterConfig.Overlapping at h
    have := P.length_le
    omega

theorem mem_of_canServeLocally {c : NodeId} {isWrite : Bool}
    (h : P.canServeLocally c isWrite = true) : c ∈ P.targets := by
  by_contra hc
  simp [canServeLocally, hc] at h

/-- A node serves reads locally only where one answer is a read quorum. -/
theorem readQuorum_of_canServeLocally {c : NodeId} {isWrite : Bool}
    (h : P.canServeLocally c isWrite = true) : P.readQuorum = 1 := by
  have hc := P.mem_of_canServeLocally h
  rw [canServeLocally, if_pos hc] at h
  split at h
  · have hl : P.targets.length = 1 := by simpa using h
    have h₁ := P.config.effectiveQuorum_le P.config.readQuorum (show 0 < P.targets.length by omega)
    have h₂ := P.config.effectiveQuorum_pos P.config.readQuorum P.targets.length
    simp only [readQuorum]
    omega
  · simpa using h

/-- A node serves writes locally only where it is the only replica. -/
theorem targets_of_canServeLocally_write {c : NodeId} (h : P.canServeLocally c true = true) :
    P.targets = [c] := by
  have hc := P.mem_of_canServeLocally h
  rw [canServeLocally, if_pos hc] at h
  obtain ⟨d, hd⟩ := List.length_eq_one_iff.mp (by simpa using h)
  rw [hd] at hc ⊢
  rw [List.mem_singleton.mp hc]

end Placement

end ShardCache
