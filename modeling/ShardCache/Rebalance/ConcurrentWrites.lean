import ShardCache.Rebalance.LastCopy

/-!
# Writes that arrive during a pass

A pass removes a key by name, whatever the cache holds for it by then. A replica write that arrives
between the snapshot and the removal, from a coordinator that still routes by the old table, is
removed although only the older entry of the snapshot was pushed. A pass drops nothing newer than
what it pushed in the runs where no such write is newer than the snapshot.

## Main definitions

* `WriteSafe`: a step delivers no write above an entry that the receiver's own pass is to drop

## Main results

* `finish_removes_newer_write`: a run in which a pass removes a write that it never pushed
* `dropped_le_pushed`: while every step is safe, no entry that a pass removes is newer than the
  entry it pushed
-/

namespace ShardCache.Rebalance

open Foundations

variable {config : ClusterConfig} {s s₀ s' : System} {n m : NodeId} {l : Label} {ls : List Label}
  {p : Pass} {t : Turn} {k : Key} {x : VersionedValue}

/-! ## The removed write -/

/-- Node `[97]` holds a key that moves to node `[98]`. -/
def movingAway : System := leaving 1 [⟨[97], [], 7001⟩] [⟨[98], [], 7002⟩]

/-- A write of a newer value reaches node `[97]` between its push and its removal. -/
def writeInsidePass : List Label :=
  [.start [97], .snapshot [97] 1, .begin [97], .push [97] (.acked 2),
    .replicaWrite [97] 3 [107] ⟨[2], 2, false, none⟩]

/-- **A pass removes a write that it never pushed**: the write arrives after the snapshot, the pass
pushes the older value and removes the newer one. -/
theorem finish_removes_newer_write :
    ∃ s s', run (step {}) movingAway writeInsidePass = some s ∧
      step {} s (.finish [97] 4) = some s' ∧
      (s [97]).turn.map (fun t => (t.key, t.value.onWire)) =
        some ([107], ⟨[1], 1, false, none⟩) ∧
      (s [97]).cache.slot [107] = some ⟨[2], none, 2, false⟩ ∧
      (s' [97]).cache.slot [107] = none ∧
      (s' [98]).cache.slot [107] = some ⟨[1], none, 1, false⟩ := by
  have hrun : ((run (step {}) movingAway writeInsidePass).bind fun s =>
      (step {} s (.finish [97] 4)).map fun s' =>
        ((s [97]).turn.map (fun t => (t.key, t.value.onWire)), (s [97]).cache.slot [107],
          (s' [97]).cache.slot [107], (s' [98]).cache.slot [107])) =
      some (some ([107], ⟨[1], 1, false, none⟩), some ⟨[2], none, 2, false⟩, none,
        some ⟨[1], none, 1, false⟩) := by decide
  obtain ⟨s, hs, hrun⟩ := Option.bind_eq_some_iff.mp hrun
  obtain ⟨s', hs', hrun⟩ := Option.map_eq_some_iff.mp hrun
  simp only [Prod.mk.injEq] at hrun
  exact ⟨s, s', hs, hs', hrun⟩

/-! ## When a pass drops nothing newer -/

/-- A write that the step delivers is not above an entry for the same key that the receiver's own
pass took a snapshot of and is to drop. -/
def WriteSafe (s : System) (l : Label) : Prop :=
  ∀ d ∈ l.delivery s, ∀ p ∈ (s d.dest).pass, ∀ y ∈ p.entries, y.1 = d.key →
    d.dest ∉ p.target.table.replicaIds d.key → d.value.tag ≤ y.2.tag

instance (s : System) (l : Label) : Decidable (WriteSafe s l) :=
  inferInstanceAs (Decidable (∀ d ∈ l.delivery s, ∀ p ∈ (s d.dest).pass, _))

/-- What the run keeps: a node holds nothing above an entry that its pass is to drop, and every turn
stands somewhere in the preference list of its key. -/
structure NothingNewer (s : System) : Prop where
  wire : WireSafe s
  turn : ∀ n p t, (s n).pass = some p → p.turn = some t →
    ∃ visited, t.At n p.previous p.target visited
  held : ∀ n p k x, (s n).pass = some p → (k, x) ∈ p.entries →
    n ∉ p.target.table.replicaIds k → slotTag ((s n).cache.slot k) ≤ x.tag

theorem NothingNewer.step (hs : NothingNewer s) (hl : WriteSafe s l)
    (h : step config s l = some s') : NothingNewer s' where
  wire := hs.wire.step h
  turn n := turnAt_step h (hs.turn n)
  held n p k x hp hx hn := by
    rcases entries_step h hp hx with ⟨q, hq, htarget, hx⟩ | ⟨i, now, rfl, hx⟩
    · have hheld := hs.held n q k x hq hx (htarget ▸ hn)
      rcases slot_step h n k with hsame | ⟨d, hd, hdest, hkey, happly⟩ | ⟨d, -, -, -, hnone, -⟩ |
          ⟨now, t, -, -, -, -, -, hnone⟩
      · rw [hsame]
        exact hheld
      · subst hdest hkey
        have hv := hl d hd q hq _ hx rfl (htarget ▸ hn)
        rw [happly]
        rcases applySlot_eq_or ((s d.dest).cache.shard d.key).tombstoneTtl d.now d.value
          ((s d.dest).cache.slot d.key) with hw | hw
        · rw [hw, slotTag_some, VersionedValue.toEntry_tag]
          exact WithBot.coe_le_coe.mpr hv
        · rw [hw]
          exact hheld
      · simp [hnone]
      · simp [hnone]
    · -- the entry was stored when the snapshot was taken
      obtain ⟨-, e, he, -, rfl⟩ := ShardedCache.mem_shardSnapshot.mp hx
      rcases cache_step h n with hc | ⟨d, hd, -⟩ | ⟨now, t, hl, -⟩
      · rw [hc, he, slotTag_some, CacheEntry.versioned_tag]
      · exact absurd hd (by simp [Label.delivery])
      · exact absurd hl (by simp)

/-- **No entry that a pass removes is newer than the entry it pushed**, in every run from idle nodes
in which no write above the snapshot of an entry reaches a node whose pass is to drop it. -/
theorem dropped_le_pushed (hidle : ∀ m, (s₀ m).pass = none)
    (hblank : ∀ m, BlankTombstones (s₀ m).cache)
    (hr : run (step config) s₀ ls = some s) (hA : Along (step config) WriteSafe s₀ ls)
    {now : Time} {e : CacheEntry} (hf : step config s (.finish n now) = some s')
    (ht : (s n).turn = some t) (he : (s n).cache.slot t.key = some e)
    (hgone : (s' n).cache.slot t.key = none) : e.tag ≤ t.value.onWire.tag := by
  have h₀ : NothingNewer s₀ :=
    ⟨.of_idle hidle hblank, fun m p t hp => absurd hp (by simp [hidle m]),
      fun m p k x hp => absurd hp (by simp [hidle m])⟩
  have hs : NothingNewer s := run_invariant (fun s l s' hs hl h => hs.step hl h) h₀ hA hr
  obtain ⟨p, hp, hpt⟩ := Option.bind_eq_some_iff.mp ht
  have hx : (t.key, t.value) ∈ p.entries := Pass.mem_entries.mpr (Or.inl ⟨t, hpt, rfl, rfl⟩)
  -- only a turn that drops its key empties the slot
  have hn : n ∉ p.target.table.replicaIds t.key := by
    rcases slot_step hf n t.key with hsame | ⟨d, hd, -⟩ | ⟨d, hd, -⟩ |
        ⟨now, t', -, ht', hpend, hdrops, -, -⟩
    · simp [hsame, he] at hgone
    · exact absurd hd (by simp [Label.delivery])
    · exact absurd hd (by simp [Label.delivery])
    · obtain rfl := Option.some.inj (ht.symm.trans ht')
      obtain ⟨visited, hv⟩ := hs.turn n p t hp hpt
      exact hv.not_mem hpend hdrops
  have hle := hs.held n p t.key t.value hp hx hn
  rw [he, slotTag_some, WithBot.coe_le_coe] at hle
  rwa [hs.wire.onWire_tag hp hx]

/-- An older write reaches node `[97]` between its push and its removal. -/
def staleWriteInsidePass : List Label :=
  [.start [97], .snapshot [97] 1, .begin [97], .push [97] (.acked 2),
    .replicaWrite [97] 3 [107] ⟨[2], 0, false, none⟩]

theorem dropped_le_pushed_staleWriteInsidePass :
    ∃ s s' t e, run (step {}) movingAway staleWriteInsidePass = some s ∧
      step {} s (.finish [97] 4) = some s' ∧ (s [97]).turn = some t ∧
      (s [97]).cache.slot t.key = some e ∧ (s' [97]).cache.slot t.key = none ∧
      e.tag ≤ t.value.onWire.tag := by
  have hrun : ((run (step {}) movingAway staleWriteInsidePass).bind fun s =>
      (step {} s (.finish [97] 4)).bind fun s' => (s [97]).turn.bind fun t =>
        ((s [97]).cache.slot t.key).map fun _ => (s' [97]).cache.slot t.key) = some none := by
    decide
  obtain ⟨s, hs, hrun⟩ := Option.bind_eq_some_iff.mp hrun
  obtain ⟨s', hs', hrun⟩ := Option.bind_eq_some_iff.mp hrun
  obtain ⟨t, ht, hrun⟩ := Option.bind_eq_some_iff.mp hrun
  obtain ⟨e, he, hgone⟩ := Option.map_eq_some_iff.mp hrun
  refine ⟨s, s', t, e, hs, hs', ht, he, hgone, ?_⟩
  refine dropped_le_pushed ?_ ?_ hs (by decide) hs' ht he hgone
  · intro m
    unfold movingAway leaving
    split <;> rfl
  · intro m
    unfold movingAway leaving
    split
    · exact (blankTombstones_new _ _ _).apply _ _ (by simp)
    · exact blankTombstones_new _ _ _

end ShardCache.Rebalance
