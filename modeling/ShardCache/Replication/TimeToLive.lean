import ShardCache.Foundations.Run
import ShardCache.Replication.Fanout

/-!
# Times to live across replicas

Reads of one key whose messages arrive at once or not at all, by nodes whose clocks agree. A read
carries the time that a copy has left to the replicas it repairs. That time is truncated to
milliseconds, and raised to one millisecond in the reply of `REPL_GET` and in the command of
`REPL_SET`, so a read that finds a copy in its last millisecond gives an expired replica a copy that
outlives it. Repairs in both directions can pass a key back and forth past its time to live.

## Main definitions

* `SyncRead`, `readSync`: a read at one instant, and `Cluster::read`
* `Copies`, `putSync`, `readStep`: the copies of a key, after its put and along reads
* `LateSafe`: a read past the time to live that gives no replica a new copy

## Main results

* `read_found_past_ttl`: a key is found more than a millisecond past its time to live
* `ttl_honoured`: along reads that are safe in this sense, no copy outlives the time to live by
  more than a millisecond
-/

namespace ShardCache.Replication

open Foundations

/-! ## Reads at one instant -/

/-- A read at one instant: its coordinator, the reading of every clock, and which `REPL_GET`s are
answered, which `REPL_SET`s arrive, and which of those are acknowledged. -/
structure SyncRead where
  coord : NodeId
  now : Time
  answers : NodeId → Bool
  delivers : NodeId → Bool
  acks : NodeId → Bool := fun _ => true

namespace SyncRead

variable (r : SyncRead) (P : Placement) (slots : NodeId → Option CacheEntry)

/-- What the coordinator learns of the copy of `n`: its own as it is, the others through
`REPL_GET`. -/
def reply (n : NodeId) : Option (Option VersionedValue) :=
  if n = r.coord then some (readSlot r.now (slots n))
  else if r.answers n then some ((readSlot r.now (slots n)).map VersionedValue.onReply)
  else none

/-- The number of replies that `collect` counts. -/
def replies : ℕ := P.targets.countP fun n => (r.reply slots n).isSome

/-- The copies after `w` was written to the replicas `targets`: the coordinator's own directly, the
others through `REPL_SET`. -/
def write (w : VersionedValue) (targets : List NodeId) (n : NodeId) : Option CacheEntry :=
  if n ∈ targets then
    if n = r.coord then applySlot P.config.tombstoneTtl r.now w (slots n)
    else if r.delivers n then applySlot P.config.tombstoneTtl r.now w.onWire (slots n)
    else slots n
  else slots n

/-- The acknowledgements that `replicate` counts. -/
def acked : ℕ := P.targets.countP fun n => n = r.coord || (r.delivers n && r.acks n)

end SyncRead

/-- `Cluster::read` at one instant: its result, and the copies after its repairs. -/
def readSync (P : Placement) (slots : NodeId → Option CacheEntry) (r : SyncRead) :
    ReadResult × (NodeId → Option CacheEntry) :=
  if P.canServeLocally r.coord false then (toResult (readSlot r.now (slots r.coord)), slots)
  else if r.replies P slots < P.readQuorum then ({}, slots)
  else
    match selectWinner P.targets (r.reply slots) with
    | none => (toResult none, slots)
    | some w =>
      if P.config.consistency = .linearizable ∧
          (upToDate P.targets (r.reply slots) w).length < P.writeQuorum then
        (if P.writeQuorum ≤ r.acked P then toResult (some w) else {},
          r.write P slots w P.targets)
      else
        (toResult (some w), r.write P slots w (staleTargets P.targets (r.reply slots) w))

/-- The copies of a key at a time. -/
structure Copies where
  slots : NodeId → Option CacheEntry
  time : Time

/-- `Cluster::put` of `v` at the instant of `r`, on a key that no replica holds. -/
def putSync (P : Placement) (v : VersionedValue) (r : SyncRead) : Copies :=
  ⟨r.write P (fun _ => none) v P.targets, r.now⟩

/-- One read, not before the last one. -/
def readStep (P : Placement) (s : Copies) (r : SyncRead) : Option Copies :=
  if s.time ≤ r.now then some ⟨(readSync P s.slots r).2, r.now⟩ else none

/-- The replica holds the key unexpired: `get_versioned` returns it. -/
def Holds (now : Time) (slot : Option CacheEntry) : Prop := (readSlot now slot).isSome = true

instance (now : Time) (slot : Option CacheEntry) : Decidable (Holds now slot) :=
  inferInstanceAs (Decidable (_ = true))

/-! ## A key that outlives its time to live -/

/-- Two replicas with the default quorums. -/
def twoReplicas : Placement := ⟨{ replicationFactor := 2 }, [[97], [98]], by decide, by decide⟩

/-- A put through the first replica, at time `0` and with one millisecond to live, that the second
one misses. -/
def missedPut : Copies :=
  putSync twoReplicas ⟨[1], 1, false, some 1⟩ ⟨[97], 0, fun _ => false, fun _ => false, fun _ => true⟩

/-- A read through `c` in which every message arrives. -/
def fullRead (c : NodeId) (now : Time) : SyncRead :=
  ⟨c, now, fun _ => true, fun _ => true, fun _ => true⟩

/-- **A key outlives its time to live**: three reads keep a copy of a key with one millisecond to
live for almost two milliseconds more, and a fourth one finds it. -/
theorem read_found_past_ttl :
    ∃ s, run (readStep twoReplicas) missedPut
        [fullRead [97] 999999, fullRead [98] 1999998, fullRead [97] 2999997] = some s ∧
      Holds 3999995 (s.slots [98]) ∧
      (readSync twoReplicas s.slots (fullRead [98] 3999995)).1.status = .found ∧
      0 + Millis.ticks 1 + Millis.ticks 1 < 3999995 := by
  have h : (run (readStep twoReplicas) missedPut
      [fullRead [97] 999999, fullRead [98] 1999998, fullRead [97] 2999997]).map
      (fun s => (decide (Holds 3999995 (s.slots [98])),
        (readSync twoReplicas s.slots (fullRead [98] 3999995)).1.status)) =
      some (true, .found) := by decide
  obtain ⟨s, hr, hs⟩ := Option.map_eq_some_iff.mp h
  simp only [Prod.mk.injEq, decide_eq_true_eq] at hs
  exact ⟨s, hr, hs.1, hs.2, by decide⟩

/-! ## Reads that are safe -/

/-- A read that gives no replica a copy past `limit`: it comes in time, or is served without
repairs, or no replica that answers still holds the key, or every replica that its writes reach
does. -/
def LateSafe (P : Placement) (limit : Time) (s : Copies) (r : SyncRead) : Prop :=
  r.now ≤ limit ∨ P.canServeLocally r.coord false = true ∨ r.replies P s.slots < P.readQuorum ∨
    (∀ n ∈ P.targets, n = r.coord ∨ r.answers n = true → ¬ Holds r.now (s.slots n)) ∨
    (∀ n ∈ P.targets, n = r.coord ∨ r.delivers n = true ∧
        (r.answers n = true ∨ P.config.consistency = .linearizable) → Holds r.now (s.slots n))

instance (P : Placement) (limit : Time) (s : Copies) (r : SyncRead) :
    Decidable (LateSafe P limit s r) :=
  inferInstanceAs (Decidable (_ ∨ _))

/-- A copy of the write `v` that expires by `bound`. -/
structure IsCopy (v : VersionedValue) (bound : Time) (e : CacheEntry) : Prop where
  tag : e.tag = v.tag
  deadline : ∃ d, e.expiresAt = some d ∧ d ≤ bound

/-- Every copy is one of `v` that expires by `bound`. -/
def AllCopies (v : VersionedValue) (bound : Time) (slots : NodeId → Option CacheEntry) : Prop :=
  ∀ n e, slots n = some e → IsCopy v bound e

section

variable {P : Placement} {v w : VersionedValue} {bound now : Time} {slot : Option CacheEntry}
  {slots : NodeId → Option CacheEntry} {r : SyncRead} {n : NodeId}

theorem not_holds_of_le (h : AllCopies v bound slots) (hb : bound ≤ now) (n : NodeId) :
    ¬ Holds now (slots n) := by
  cases hs : slots n with
  | none => simp [Holds, readSlot]
  | some e =>
    obtain ⟨d, hd, hle⟩ := (h n e hs).deadline
    simp [Holds, readSlot, CacheEntry.isExpired, hd, hle.trans hb]

/-- A replica that holds a copy keeps it. -/
theorem applySlot_of_holds (hs : ∀ e, slot = some e → IsCopy v bound e) (hw : w.tag = v.tag)
    (h : Holds now slot) (tombstoneTtl : Millis) : applySlot tombstoneTtl now w slot = slot := by
  cases slot with
  | none => simp [Holds, readSlot] at h
  | some e =>
    have hexp : e.isExpired now = false := by
      by_contra hne
      simp [Holds, readSlot, hne] at h
    have hsup : supersedes w.version w.tombstone w.value e = false := by
      rw [← Bool.not_eq_true, supersedes_iff]
      exact not_lt.mpr ((hw.trans (hs e rfl).tag.symm).le)
    simp [applySlot, hexp, hsup]

/-- The time a copy has left: what a coordinator learns of it is at most a millisecond more. -/
theorem ticks_max_millisUntil_le (d now : Time) :
    now + (max 1 (millisUntil d now)).ticks ≤ max (now + Millis.ticks 1) d := by
  have h (d now : ℕ) : now + max 1 ((d - now) / 1000000) * 1000000 ≤ max (now + 1 * 1000000) d := by
    omega
  exact h d now

/-- A reply that carries a value comes from a copy. -/
theorem exists_copy_of_reply (hw : r.reply slots n = some (some w)) :
    ∃ e, slots n = some e ∧ Holds r.now (slots n) ∧ (n = r.coord ∨ r.answers n = true) ∧
      (w = e.versioned r.now ∨ w = (e.versioned r.now).onReply) := by
  have hread : ∃ x, readSlot r.now (slots n) = some x ∧ (w = x ∨ w = x.onReply) ∧
      (n = r.coord ∨ r.answers n = true) := by
    unfold SyncRead.reply at hw
    split at hw
    · exact ⟨w, Option.some.inj hw, Or.inl rfl, Or.inl ‹_›⟩
    · split at hw
      · obtain ⟨x, hx, rfl⟩ := Option.map_eq_some_iff.mp (Option.some.inj hw)
        exact ⟨x, hx, Or.inr rfl, Or.inr ‹_›⟩
      · exact absurd hw (by simp)
  obtain ⟨x, hx, hwx, hn⟩ := hread
  have hholds : Holds r.now (slots n) := by simp [Holds, hx]
  cases hs : slots n with
  | none => simp [hs, readSlot] at hx
  | some e =>
    refine ⟨e, rfl, hs ▸ hholds, hn, ?_⟩
    rw [hs, readSlot] at hx
    split at hx
    · exact absurd hx (by simp)
    · rwa [Option.some.inj hx]

theorem tag_of_reply (h : AllCopies v bound slots) (hw : r.reply slots n = some (some w)) :
    w.tag = v.tag := by
  obtain ⟨e, hs, -, -, rfl | rfl⟩ := exists_copy_of_reply hw
  · exact (h n e hs).tag
  · exact (h n e hs).tag

/-- A value read in time expires by `bound` wherever it is stored. -/
theorem ttl_of_reply (hv : v.tombstone = false) (h : AllCopies v bound slots)
    (hnow : r.now + Millis.ticks 1 ≤ bound) (hw : r.reply slots n = some (some w)) :
    ∃ ttl, w.ttl = some ttl ∧ r.now + (max 1 ttl).ticks ≤ bound := by
  obtain ⟨e, hs, -, -, hwe⟩ := exists_copy_of_reply hw
  obtain ⟨htag, d, hd, hle⟩ := h n e hs
  have htomb : e.tombstone = false := by
    have := congrArg Tag.tombstone htag
    simpa [CacheEntry.tag, hv] using this
  have hbound := (ticks_max_millisUntil_le d r.now).trans (max_le hnow hle)
  rcases hwe with rfl | rfl
  · exact ⟨millisUntil d r.now, by simp [CacheEntry.versioned, htomb, hd], hbound⟩
  · refine ⟨max 1 (millisUntil d r.now), ?_, by simpa using hbound⟩
    simp [CacheEntry.versioned, VersionedValue.onReply, htomb, hd]

/-- What a replica holds after a write of `w` expires by `bound`, if `w` does. -/
theorem isCopy_applySlot (hs : ∀ e, slot = some e → IsCopy v bound e) (hw : w.tag = v.tag)
    (hv : v.tombstone = false) {ttl : Millis} (httl : w.ttl = some ttl)
    (hle : now + ttl.ticks ≤ bound) (tombstoneTtl : Millis) :
    ∀ e, applySlot tombstoneTtl now w slot = some e → IsCopy v bound e := by
  intro e he
  have htomb : w.tombstone = false := by rw [← w.tombstone_tag, hw, v.tombstone_tag, hv]
  rcases applySlot_eq_or tombstoneTtl now w slot with h | h
  · obtain rfl := Option.some.inj (h.symm.trans he)
    exact ⟨hw, now + ttl.ticks, by simp [VersionedValue.toEntry, VersionedValue.deadline, htomb,
      httl], hle⟩
  · exact hs e (h ▸ he)

theorem onWire_ttl (htomb : w.tombstone = false) {ttl : Millis} (httl : w.ttl = some ttl) :
    w.onWire.ttl = some (max 1 ttl) := by
  simp [VersionedValue.onWire, htomb, httl]

/-- Writing a value that expires by `bound` keeps every copy so. -/
theorem AllCopies.write (h : AllCopies v bound slots) (hv : v.tombstone = false)
    (hw : w.tag = v.tag) {ttl : Millis} (httl : w.ttl = some ttl)
    (hle : r.now + (max 1 ttl).ticks ≤ bound) (targets : List NodeId) :
    AllCopies v bound (r.write P slots w targets) := by
  have htomb : w.tombstone = false := by rw [← w.tombstone_tag, hw, v.tombstone_tag, hv]
  have hle' : r.now + ttl.ticks ≤ bound :=
    (Nat.add_le_add_left (Nat.mul_le_mul_right _ (le_max_right 1 ttl)) _).trans hle
  intro n e he
  unfold SyncRead.write at he
  split at he
  · split at he
    · exact isCopy_applySlot (h n) hw hv httl hle' _ e he
    · split at he
      · refine isCopy_applySlot (h n) ?_ hv (onWire_ttl htomb httl) hle _ e he
        rw [VersionedValue.onWire_tag (by simp [htomb]), hw]
      · exact h n e he
  · exact h n e he

/-- Writing to replicas that hold the key changes nothing. -/
theorem write_of_holds (h : AllCopies v bound slots) (hv : v.tombstone = false)
    (hw : w.tag = v.tag) {targets : List NodeId}
    (hh : ∀ n ∈ targets, n = r.coord ∨ r.delivers n = true → Holds r.now (slots n)) :
    r.write P slots w targets = slots := by
  have htomb : w.tombstone = false := by rw [← w.tombstone_tag, hw, v.tombstone_tag, hv]
  have hwire : w.onWire.tag = v.tag := by
    rw [VersionedValue.onWire_tag (by simp [htomb]), hw]
  funext n
  unfold SyncRead.write
  split
  · split
    · exact applySlot_of_holds (h n) hw (hh n ‹_› (Or.inl ‹_›)) _
    · split
      · exact applySlot_of_holds (h n) hwire (hh n ‹_› (Or.inr ‹_›)) _
      · rfl
  · rfl

theorem mem_staleTargets (hn : n ∈ staleTargets P.targets (r.reply slots) w) :
    n ∈ P.targets ∧ (n = r.coord ∨ r.answers n = true) := by
  obtain ⟨hn, hrep⟩ := List.mem_filter.mp hn
  refine ⟨hn, ?_⟩
  by_contra hne
  push Not at hne
  simp [SyncRead.reply, hne.1, hne.2] at hrep

/-- **A safe read keeps every copy within a millisecond of the time to live.** -/
theorem AllCopies.readSync {limit : Time} {s : Copies} (hv : v.tombstone = false)
    (h : AllCopies v (limit + Millis.ticks 1) s.slots) (hsafe : LateSafe P limit s r) :
    AllCopies v (limit + Millis.ticks 1) (readSync P s.slots r).2 := by
  unfold Replication.readSync
  split
  case isTrue => exact h
  case isFalse hlocal =>
  split
  case isTrue => exact h
  case isFalse hquorum =>
  split
  case h_1 => exact h
  case h_2 w hwin =>
    -- the winner is a copy that some replica still held
    obtain ⟨n, hn, hrep⟩ := exists_reply_of_selectWinner hwin
    obtain ⟨e, -, hholds, hans, -⟩ := exists_copy_of_reply hrep
    have htag := tag_of_reply h hrep
    rcases hsafe with hnow | hloc | hq | hnone | hall
    · -- in time: what the read carries expires soon enough
      obtain ⟨ttl, httl, hle⟩ := ttl_of_reply hv h (Nat.add_le_add_right hnow _) hrep
      split
      · exact h.write hv htag httl hle _
      · exact h.write hv htag httl hle _
    · exact absurd hloc hlocal
    · exact absurd hq hquorum
    · exact absurd hholds (hnone n hn hans)
    · -- late: every replica reached holds the key, and keeps what it holds
      split
      case isTrue hlin =>
        rw [write_of_holds h hv htag fun m hm hreach => ?_]
        · exact h
        · rcases hreach with hc | hd
          · exact hall m hm (Or.inl hc)
          · exact hall m hm (Or.inr ⟨hd, Or.inr hlin.1⟩)
      case isFalse =>
        rw [write_of_holds h hv htag fun m hm hreach => ?_]
        · exact h
        · obtain ⟨hm, hans⟩ := mem_staleTargets hm
          rcases hreach with hc | hd
          · exact hall m hm (Or.inl hc)
          · rcases hans with hc | ha
            · exact hall m hm (Or.inl hc)
            · exact hall m hm (Or.inr ⟨hd, Or.inl ha⟩)

/-- A read finds nothing when no replica holds the key. -/
theorem readSync_ne_found (h : ∀ n, ¬ Holds r.now (slots n)) :
    (Replication.readSync P slots r).1.status ≠ .found := by
  unfold Replication.readSync
  split
  · have hnone : readSlot r.now (slots r.coord) = none := by
      simpa [Holds] using h r.coord
    simp [hnone, toResult]
  split
  · simp
  split
  · simp [toResult]
  case h_2 w hwin =>
    obtain ⟨n, -, hrep⟩ := exists_reply_of_selectWinner hwin
    obtain ⟨e, -, hholds, -, -⟩ := exists_copy_of_reply hrep
    exact absurd hholds (h n)

end

/-- **The time to live is honoured along safe reads**: after a put with the time to live `ttl`, and
any reads of which those past its end give no replica a new copy, no replica holds the key, and no
read finds it, more than a millisecond past that end. -/
theorem ttl_honoured {P : Placement} {value : Bytes} {version : UInt64} {ttl : Millis}
    {p : SyncRead} {rs : List SyncRead} {s : Copies}
    (hr : run (readStep P) (putSync P ⟨value, version, false, some ttl⟩ p) rs = some s)
    (hA : Along (readStep P) (LateSafe P (p.now + ttl.ticks))
      (putSync P ⟨value, version, false, some ttl⟩ p) rs) :
    (∀ n now, p.now + ttl.ticks + Millis.ticks 1 < now → ¬ Holds now (s.slots n)) ∧
      ∀ r : SyncRead, p.now + ttl.ticks + Millis.ticks 1 < r.now →
        (readSync P s.slots r).1.status ≠ .found := by
  set v : VersionedValue := ⟨value, version, false, some ttl⟩ with hv
  have hinit : AllCopies v (p.now + ttl.ticks + Millis.ticks 1) (putSync P v p).slots := by
    refine AllCopies.write (fun n e he => by simp at he) rfl rfl rfl ?_ P.targets
    have h (t now : ℕ) : now + max 1 t * 1000000 ≤ now + t * 1000000 + 1 * 1000000 := by omega
    exact h ttl p.now
  have hall : AllCopies v (p.now + ttl.ticks + Millis.ticks 1) s.slots := by
    refine run_invariant (I := fun s : Copies =>
      AllCopies v (p.now + ttl.ticks + Millis.ticks 1) s.slots) ?_ hinit hA hr
    intro s₁ r s₂ hI hsafe hs
    unfold readStep at hs
    split at hs
    · obtain rfl := Option.some.inj hs
      exact hI.readSync rfl hsafe
    · exact absurd hs (by simp)
  refine ⟨fun n now hnow => not_holds_of_le hall hnow.le n, ?_⟩
  intro r hnow
  exact readSync_ne_found fun n => not_holds_of_le hall hnow.le n

theorem ttl_honoured_fullRead :
    ∃ s, run (readStep twoReplicas) missedPut
        [fullRead [97] 500000, fullRead [98] 900000, fullRead [97] 1700000] = some s ∧
      ¬ Holds 2000001 (s.slots [98]) := by
  have h : (run (readStep twoReplicas) missedPut
      [fullRead [97] 500000, fullRead [98] 900000, fullRead [97] 1700000]).isSome = true := by decide
  obtain ⟨s, hr⟩ := Option.isSome_iff_exists.mp h
  exact ⟨s, hr, (ttl_honoured hr (by decide)).1 [98] 2000001 (by decide)⟩

end ShardCache.Replication
