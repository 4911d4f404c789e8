import ShardCache.Rebalance.Pass

/-!
# The entries of a pass

A pass hands off the entries of its snapshots. Until the turn of an entry has ended, the pass holds
a copy of it: the one whose turn it is, and those of the rest of the batch. Tombstones carry no value,
so that the wire keeps the tag of every entry.

## Main definitions

* `Pass.entries`: the entries whose turn has not ended
* `BlankTombstones`, `WireSafe`: every tombstone, stored or in a pass, has an empty value

## Main results

* `PassMove.entries`: an entry enters a pass from a snapshot
* `BlankTombstones.step`, `WireSafe.step`: no step stores a tombstone that has a value
-/

namespace ShardCache.Rebalance

open Foundations

/-- The entries of a pass whose turn has not ended. -/
def Pass.entries (p : Pass) : List (Key × VersionedValue) :=
  (p.turn.map fun t => (t.key, t.value)).toList ++ p.batch

variable {config : ClusterConfig} {s s' : System} {n m : NodeId} {l : Label} {p p' : Pass}
  {key k : Key} {x : VersionedValue}

theorem Pass.mem_entries :
    (k, x) ∈ p.entries ↔ (∃ t, p.turn = some t ∧ t.key = k ∧ t.value = x) ∨ (k, x) ∈ p.batch := by
  cases ht : p.turn <;> simp [Pass.entries, ht, eq_comm]

/-- An entry of a pass was in the pass before, or comes from the snapshot just taken. -/
theorem PassMove.entries {y : Node} (h : PassMove y n l (some p')) (hx : (k, x) ∈ p'.entries) :
    (∃ p, y.pass = some p ∧ p'.target = p.target ∧ (k, x) ∈ p.entries) ∨
      ∃ i now, l = .snapshot n now ∧ (k, x) ∈ y.cache.shardSnapshot i now := by
  rw [Pass.mem_entries] at hx
  cases h with
  | start idle routing stale => simp at hx
  | @snapshot p now running turn batch shard =>
    refine Or.inr ⟨p.shard, now, rfl, ?_⟩
    simpa [turn] using hx
  | @begin p key value rest running turn batch =>
    refine Or.inl ⟨p, running, rfl, Pass.mem_entries.mpr (Or.inr ?_)⟩
    rw [batch]
    rcases hx with ⟨t, ht, rfl, rfl⟩ | hx
    · obtain rfl := Option.some.inj ht
      exact List.mem_cons_self
    · exact List.mem_cons_of_mem _ hx
  | @push p t node rest sent handedOff pushed running turn pending acked =>
    refine Or.inl ⟨p, running, rfl, Pass.mem_entries.mpr ?_⟩
    rcases hx with ⟨t', ht', rfl, rfl⟩ | hx
    · obtain rfl := Option.some.inj ht'
      exact Or.inl ⟨t, turn, rfl, rfl⟩
    · exact Or.inr hx
  | @finish p t now running turn pending =>
    refine Or.inl ⟨p, running, rfl, Pass.mem_entries.mpr (Or.inr ?_)⟩
    simpa using hx

/-- An entry of a pass after a step was there before, or comes from the snapshot just taken. -/
theorem entries_step (h : step config s l = some s') (hp : (s' m).pass = some p')
    (hx : (k, x) ∈ p'.entries) :
    (∃ p, (s m).pass = some p ∧ p'.target = p.target ∧ (k, x) ∈ p.entries) ∨
      ∃ i now, l = .snapshot m now ∧ (k, x) ∈ (s m).cache.shardSnapshot i now := by
  rcases pass_step h m with hsame | hmove
  · exact Or.inl ⟨p', hsame ▸ hp, rfl, hx⟩
  · rw [hp] at hmove
    exact hmove.entries hx

theorem Pass.entries_of_turn {t : Turn} (ht : p.turn = some t) :
    p.entries = (t.key, t.value) :: p.batch := by
  simp [Pass.entries, ht]

/-- A pass has one entry for each key: its snapshots do, and are taken one at a time. -/
theorem nodup_entries_step (h : step config s l = some s')
    (hs : ∀ p, (s m).pass = some p → (p.entries.map Prod.fst).Nodup) (p : Pass)
    (hp : (s' m).pass = some p) : (p.entries.map Prod.fst).Nodup := by
  rcases pass_step h m with hsame | hmove
  · exact hs p (hsame ▸ hp)
  · rw [hp] at hmove
    cases hmove with
    | start idle routing stale => simp [Pass.entries]
    | snapshot running turn batch shard =>
      simpa [Pass.entries, turn] using ShardedCache.nodup_keys_shardSnapshot _ _ _
    | begin running turn batch =>
      simpa [Pass.entries, turn, batch, Pass.turnOf] using hs _ running
    | push handedOff pushed running turn pending acked =>
      simpa [Pass.entries, turn] using hs _ running
    | finish running turn pending =>
      have hnodup := hs _ running
      rw [Pass.entries_of_turn turn] at hnodup
      exact (List.nodup_cons.mp hnodup).2

/-! ## Tombstones -/

/-- Tombstones carry no value: `del` stamps none, and `REPL_DEL` carries none. -/
def BlankTombstones (c : ShardedCache) : Prop :=
  ∀ k e, c.slot k = some e → e.tombstone = true → e.value = []

theorem blankTombstones_new (totalCapacity shardCount : ℕ) (tombstoneTtl : Millis) :
    BlankTombstones (.new totalCapacity shardCount tombstoneTtl) := by
  intro k e he
  have hwf := (ShardedCache.new totalCapacity shardCount tombstoneTtl).shard_wellFormed k
  obtain ⟨n, hn, -⟩ := (Cache.slot_eq_some hwf).mp he
  have hshard : (ShardedCache.new totalCapacity shardCount tombstoneTtl).shard k ∈
      (ShardedCache.new totalCapacity shardCount tombstoneTtl).shards := List.get_mem _ _
  rw [List.eq_of_mem_replicate hshard] at hn
  simp at hn

theorem BlankTombstones.apply {c : ShardedCache} (h : BlankTombstones c) (now : Time) (key : Key)
    {v : VersionedValue} (hv : v.tombstone = true → v.value = []) :
    BlankTombstones (c.apply now key v).1 := by
  intro k e he
  by_cases hk : k = key
  · subst hk
    rw [ShardedCache.slot_apply] at he
    rcases applySlot_eq_or (c.shard k).tombstoneTtl now v (c.slot k) with hw | hw
    · obtain rfl := Option.some.inj (hw ▸ he)
      exact hv
    · exact h k e (hw ▸ he)
  · have hne : (c.apply now key v).1.slot k = c.slot k ∨ _ := ShardedCache.slot_apply_ne hk
    rcases hne with hs | ⟨hs, -⟩
    · exact h k e (hs ▸ he)
    · simp [hs] at he

theorem BlankTombstones.remove {c : ShardedCache} (h : BlankTombstones c) (now : Time) (key : Key) :
    BlankTombstones (c.remove now key).1 := by
  intro k e he
  rw [ShardedCache.slot_remove] at he
  split at he
  · simp at he
  · exact h k e he

/-- No tombstone has a value, stored or in a pass. -/
structure WireSafe (s : System) : Prop where
  stored : ∀ m, BlankTombstones (s m).cache
  passed : ∀ m p k x, (s m).pass = some p → (k, x) ∈ p.entries → x.tombstone = true → x.value = []

theorem onWire_blank (v : VersionedValue) (h : v.onWire.tombstone = true) : v.onWire.value = [] := by
  unfold VersionedValue.onWire at *
  split at * <;> simp_all

theorem WireSafe.of_idle (hidle : ∀ m, (s m).pass = none)
    (hblank : ∀ m, BlankTombstones (s m).cache) : WireSafe s :=
  ⟨hblank, fun m p k x hp => absurd hp (by simp [hidle m])⟩

/-- What a step delivers has come over the wire. -/
theorem delivery_blank {d : Delivery} (hd : l.delivery s = some d) (h : d.value.tombstone = true) :
    d.value.value = [] := by
  cases l with
  | push n sent =>
    obtain ⟨t, node, rest, -, -, -, -, -, -, hv⟩ := delivery_push hd
    rw [hv] at h ⊢
    exact onWire_blank _ h
  | replicaWrite n now key v =>
    obtain rfl := Option.some.inj hd
    exact onWire_blank _ h
  | _ => exact absurd hd (by simp [Label.delivery])

/-- **No step stores a tombstone that has a value.** -/
theorem BlankTombstones.step (hs : BlankTombstones (s m).cache) (h : step config s l = some s') :
    BlankTombstones (s' m).cache := by
  rcases cache_step h m with hc | ⟨d, hd, -, hc⟩ | ⟨now, t, -, -, -, -, hc⟩
  · rw [hc]
    exact hs
  · rw [hc]
    exact hs.apply _ _ (delivery_blank hd)
  · rw [hc]
    exact hs.remove _ _

theorem WireSafe.step (hs : WireSafe s) (h : step config s l = some s') : WireSafe s' where
  stored m := (hs.stored m).step h
  passed m p k x hp hx := by
    rcases entries_step h hp hx with ⟨q, hq, -, hx⟩ | ⟨i, now, -, hx⟩
    · exact hs.passed m q k x hq hx
    · obtain ⟨-, e, he, -, rfl⟩ := ShardedCache.mem_shardSnapshot.mp hx
      exact hs.stored m k e he

/-- The tag of an entry of a pass survives the wire. -/
theorem WireSafe.onWire_tag (hs : WireSafe s) (hp : (s m).pass = some p) (hx : (k, x) ∈ p.entries) :
    x.onWire.tag = x.tag :=
  VersionedValue.onWire_tag (hs.passed m p k x hp hx)

end ShardCache.Rebalance
