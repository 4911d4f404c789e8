import ShardCache.Rebalance.Entries

/-!
# The last copy of a key

A pass pushes a key to the nodes that are new on its preference list, and to no others: it takes for
granted that the old owners hold what it holds. When the new list has no new node, because the ring
shrank or is empty, nothing is pushed and the key is removed all the same. A copy remains on another
node exactly when the list gained a node or another node had one already.

## Main definitions

* `Label.Solo`: the steps of one node's pass, every push of which is acknowledged
* `Synced`: the entries of the pass are those of the cache
* `InTurn`: how far a turn has come since its start

## Main results

* `only_copy_removed`: two passes that remove the only copy of a key
* `copy_remains_iff`: when a removal leaves a copy on another node
-/

namespace ShardCache.Rebalance

open Foundations

variable {config : ClusterConfig} {s s₀ s₁ s' : System} {n m : NodeId} {l : Label}
  {ls : List Label} {p : Pass} {t : Turn} {key k : Key} {x value : VersionedValue}
  {visited : List CacheNode} {now : Time}

/-! ## The copy that is removed -/

/-- The routing table of the ring of the given nodes, with four virtual nodes each. -/
def tableOf (replicationFactor : ℕ) (nodes : List CacheNode) (localId : NodeId) : RoutingTable :=
  .build (nodes.foldl ConsistentHashRing.addNode { numVnodes := 4 }) replicationFactor localId

/-- An empty cache of one shard. -/
def emptyCache : ShardedCache := .new 100 1 60000

/-- Node `[97]` alone holds the key `[107]`. It has left the ring of the nodes `before`, and `after`
remain. -/
def leaving (replicationFactor : ℕ) (before after : List CacheNode) : System := fun n =>
  if n = [97] then
    { cache := (emptyCache.apply 0 [107] ⟨[1], 1, false, none⟩).1
      routing := some ⟨2, tableOf replicationFactor after [97]⟩
      placedFor := some ⟨1, tableOf replicationFactor before [97]⟩ }
  else { cache := emptyCache }

/-- Steps of other nodes that deliver nothing leave the cache of a node alone. -/
theorem cache_run_of_quiet (hr : run (step config) s ls = some s')
    (hA : Along (step config) (fun s l => (l.delivery s).isNone) s ls)
    (hm : ∀ l ∈ ls, l.node ≠ m) : (s' m).cache = (s m).cache := by
  refine run_invariant (I := fun t => (t m).cache = (s m).cache) ?_ rfl (hA.and_mem hm) hr
  rintro t l t' ht ⟨hne, hnone⟩ h
  rcases cache_step h m with hc | ⟨d, hd, -⟩ | ⟨now, turn, rfl, -⟩
  · exact hc.trans ht
  · simp [Option.mem_def.mp hd] at hnone
  · exact absurd rfl hne

/-- **The only copy is removed**: the last node of a ring leaves and removes its key, and so does one
of two nodes whose peer is an old owner that missed the write. -/
theorem only_copy_removed :
    (∃ s, run (step {}) (leaving 2 [⟨[97], [], 7001⟩] [])
        [.start [97], .snapshot [97] 1, .begin [97], .finish [97] 2, .stop [97]] = some s ∧
      ∀ m, (s m).cache.slot [107] = none) ∧
    ∃ s, run (step {}) (leaving 2 [⟨[97], [], 7001⟩, ⟨[98], [], 7002⟩] [⟨[98], [], 7002⟩])
        [.start [97], .snapshot [97] 1, .begin [97], .push [97] (.acked 2), .finish [97] 3,
          .stop [97]] = some s ∧
      ∀ m, (s m).cache.slot [107] = none := by
  have hother (before after : List CacheNode) (m : NodeId) (hm : m ≠ [97]) :
      (leaving 2 before after m).cache.slot [107] = none := by
    rw [leaving, if_neg hm]
    decide
  have hfst : (run (step {}) (leaving 2 [⟨[97], [], 7001⟩] [])
      [.start [97], .snapshot [97] 1, .begin [97], .finish [97] 2, .stop [97]]).map
        (fun s => (s [97]).cache.slot [107]) = some none := by decide
  have hsnd : (run (step {}) (leaving 2 [⟨[97], [], 7001⟩, ⟨[98], [], 7002⟩] [⟨[98], [], 7002⟩])
      [.start [97], .snapshot [97] 1, .begin [97], .push [97] (.acked 2), .finish [97] 3,
        .stop [97]]).map (fun s => (s [97]).cache.slot [107]) = some none := by decide
  obtain ⟨s₁, hs₁, hgone₁⟩ := Option.map_eq_some_iff.mp hfst
  obtain ⟨s₂, hs₂, hgone₂⟩ := Option.map_eq_some_iff.mp hsnd
  refine ⟨⟨s₁, hs₁, ?_⟩, s₂, hs₂, ?_⟩
  · intro m
    by_cases hm : m = [97]
    · rw [hm, hgone₁]
    · rw [cache_run_of_quiet hs₁ (by decide) (by simp [Label.node, Ne.symm hm])]
      exact hother _ _ m hm
  · intro m
    by_cases hm : m = [97]
    · rw [hm, hgone₂]
    · rw [cache_run_of_quiet hs₂ (by decide) (by simp [Label.node, Ne.symm hm])]
      exact hother _ _ m hm

/-! ## A pass without other writers -/

/-- A step of the pass of node `n`, with every `send_write` acknowledged. -/
def Label.Solo (n : NodeId) (l : Label) : Prop := l.Acked ∧ l.node = n

instance (n : NodeId) (l : Label) : Decidable (l.Solo n) := inferInstanceAs (Decidable (_ ∧ _))

/-- The pass of node `n` holds what the cache of the node holds, each key once. -/
structure Synced (n : NodeId) (s : System) : Prop where
  blank : BlankTombstones (s n).cache
  nodup : ∀ p, (s n).pass = some p → (p.entries.map Prod.fst).Nodup
  stored : ∀ p k x, (s n).pass = some p → (k, x) ∈ p.entries →
    ∃ e, (s n).cache.slot k = some e ∧ x.tag = e.tag ∧ x.value = e.value ∧ x.tombstone = e.tombstone

theorem Synced.onWire_tag (hs : Synced n s) (hp : (s n).pass = some p) (hx : (k, x) ∈ p.entries) :
    x.onWire.tag = x.tag := by
  obtain ⟨e, he, -, hvalue, htomb⟩ := hs.stored p k x hp hx
  refine VersionedValue.onWire_tag ?_
  intro h
  rw [hvalue]
  exact hs.blank k e he (htomb ▸ h)

/-- A step of the pass changes the cache of its own node only where it drops a key. -/
theorem cache_step_solo (hl : l.Solo n) (h : step config s l = some s') :
    (s' n).cache = (s n).cache ∨ ∃ now t, l = .finish n now ∧ (s n).turn = some t ∧
      t.pending = [] ∧ t.drops = true ∧ (s' n).cache = ((s n).cache.remove now t.key).1 := by
  rcases cache_step h n with hc | ⟨d, hd, hdest, -⟩ | hdrop
  · exact Or.inl hc
  · exfalso
    cases l with
    | push m sent =>
      obtain rfl : m = n := hl.2
      obtain ⟨t, node, rest, -, -, hne, -, hdest', -, -⟩ := delivery_push hd
      exact hne (hdest' ▸ hdest)
    | replicaWrite m now key v => exact hl.1
    | _ => exact absurd hd (by simp [Label.delivery])
  · exact Or.inr hdrop

theorem Synced.step (hs : Synced n s) (hl : l.Solo n) (h : step config s l = some s') :
    Synced n s' where
  blank := hs.blank.step h
  nodup := nodup_entries_step h hs.nodup
  stored p k x hp hx := by
    rcases cache_step_solo hl h with hc | ⟨now, t, rfl, ht, -, -, hc⟩
    · rw [hc]
      rcases entries_step h hp hx with ⟨q, hq, -, hx⟩ | ⟨i, now, -, hx⟩
      · exact hs.stored q k x hq hx
      · obtain ⟨-, e, he, -, rfl⟩ := ShardedCache.mem_shardSnapshot.mp hx
        exact ⟨e, he, rfl, rfl, rfl⟩
    · obtain ⟨q, t', hq, ht', -, rfl⟩ := finish_cases h
      obtain rfl : t' = t := by simpa [Node.turn, hq, ht'] using ht
      obtain rfl : { q with turn := none } = p := by simpa using hp
      have hx : (k, x) ∈ q.batch := by simpa [Pass.entries] using hx
      have hmem : (k, x) ∈ q.entries := Pass.mem_entries.mpr (Or.inr hx)
      -- the key that is dropped has no other entry
      have hk : k ≠ t'.key := by
        rintro rfl
        have hnodup := hs.nodup q hq
        rw [Pass.entries_of_turn ht', List.map_cons, List.nodup_cons] at hnodup
        exact hnodup.1 (List.mem_map.mpr ⟨_, hx, rfl⟩)
      rw [hc, ShardedCache.slot_remove, if_neg hk]
      exact hs.stored q k x hq hmem

theorem Synced.of_run (hs : Synced n s₀) (hsolo : ∀ l ∈ ls, l.Solo n)
    (hr : run (Rebalance.step config) s₀ ls = some s) : Synced n s := by
  have hA : Along (Rebalance.step config) (fun _ l => l.Solo n ∧ True) s₀ ls :=
    (along_true s₀ ls).and_mem hsolo
  exact run_invariant (fun _ _ _ hs hl h => hs.step hl.1 h) hs hA hr

/-! ## One turn -/

/-- A turn of node `n` for an entry, which started in `s` and has taken up the nodes `visited`: it
has pushed the entry to those that are no old owners, and nothing else has happened to the key. -/
structure InTurn (n : NodeId) (s : System) (p : Pass) (key : Key) (value : VersionedValue)
    (visited : List CacheNode) (s₁ : System) : Prop where
  turn : ∃ t, (s₁ n).turn = some t ∧ t.key = key ∧ t.value = value ∧
    t.At n p.previous p.target visited
  cache : (s₁ n).cache = (s n).cache
  pushed : ∀ m ≠ n, m ∈ visited.map CacheNode.id → m ∉ oldOwners p.previous key →
    (value.onWire.tag : WithBot Tag) ≤ slotTag ((s₁ m).cache.slot key)
  rest : ∀ m ≠ n, (m ∈ visited.map CacheNode.id → m ∈ oldOwners p.previous key) →
    (s₁ m).cache.slot key = (s m).cache.slot key

theorem InTurn.begin (hp : (s n).pass = some p) (h : step config s (.begin n) = some s₁) :
    ∃ key value rest, p.batch = (key, value) :: rest ∧ InTurn n s p key value [] s₁ := by
  obtain ⟨q, key, value, rest, hq, -, hb, rfl⟩ := beginTurn_cases h
  obtain rfl : p = q := Option.some.inj (hp.symm.trans hq)
  refine ⟨key, value, rest, hb, ?_⟩
  refine ⟨⟨p.turnOf key value, ?_, rfl, rfl, p.at_turnOf n key value⟩, ?_, ?_, ?_⟩
  · rw [Node.turn, setPass_pass_self, Option.bind_some]
  · exact setPass_cache ..
  · simp
  · intro m _ _
    rw [setPass_cache]

/-- A node that is skipped leaves every cache as it was. -/
theorem InTurn.skip {node : CacheNode} (hs : InTurn n s p key value visited s₁)
    (hturn : ∃ t, (s' n).turn = some t ∧ t.key = key ∧ t.value = value ∧
      t.At n p.previous p.target (visited ++ [node]))
    (hn : node.id = n ∨ node.id ∈ oldOwners p.previous key)
    (hc : ∀ m, (s' m).cache = (s₁ m).cache) : InTurn n s p key value (visited ++ [node]) s' := by
  refine ⟨hturn, by rw [hc, hs.cache], ?_, ?_⟩
  · intro m hm hv ho
    rw [hc]
    refine hs.pushed m hm ?_ ho
    rw [List.map_append, List.mem_append, List.map_singleton, List.mem_singleton] at hv
    rcases hv with hv | rfl
    · exact hv
    · exact (hn.elim hm ho).elim
  · intro m hm hv
    rw [hc]
    refine hs.rest m hm fun hmem => hv ?_
    rw [List.map_append]
    exact List.mem_append_left _ hmem

/-- A node that the entry is pushed to holds it, or something newer; the others keep what they
held. -/
theorem InTurn.send {node : CacheNode} (hs : InTurn n s p key value visited s₁)
    (hturn : ∃ t, (s' n).turn = some t ∧ t.key = key ∧ t.value = value ∧
      t.At n p.previous p.target (visited ++ [node]))
    (hn : node.id ≠ n) (ho : node.id ∉ oldOwners p.previous key)
    (hsent : (s' node.id).cache = ((s₁ node.id).cache.apply now key value.onWire).1)
    (hc : ∀ m ≠ node.id, (s' m).cache = (s₁ m).cache) :
    InTurn n s p key value (visited ++ [node]) s' := by
  refine ⟨hturn, by rw [hc n (Ne.symm hn), hs.cache], ?_, ?_⟩
  · intro m hm hv ho
    by_cases hmn : m = node.id
    · rw [hmn, hsent, ShardedCache.slot_apply]
      exact le_slotTag_applySlot ..
    · rw [hc m hmn]
      refine hs.pushed m hm ?_ ho
      rw [List.map_append, List.mem_append, List.map_singleton, List.mem_singleton] at hv
      exact hv.resolve_right hmn
  · intro m hm hv
    have hmn : m ≠ node.id := by
      rintro rfl
      exact ho (hv (by simp))
    rw [hc m hmn]
    refine hs.rest m hm fun hmem => hv ?_
    rw [List.map_append]
    exact List.mem_append_left _ hmem

theorem InTurn.push (hs : InTurn n s p key value visited s₁)
    (h : push config s₁ n (.acked now) = some s') :
    ∃ node, InTurn n s p key value (visited ++ [node]) s' := by
  obtain ⟨t, ht, rfl, rfl, hat⟩ := hs.turn
  obtain ⟨node, rest, hpend, hturn, hcaches⟩ := push_acked h ht
  refine ⟨node, ?_⟩
  have hturn' : ∃ t', (s' n).turn = some t' ∧ t'.key = t.key ∧ t'.value = t.value ∧
      t'.At n p.previous p.target (visited ++ [node]) :=
    ⟨_, hturn, rfl, rfl, hat.push hpend t.handedOff⟩
  rcases hcaches with ⟨hn, hc⟩ | ⟨hn, ho, hsent, hc⟩
  · exact hs.skip hturn' (hat.old ▸ hn) hc
  · exact hs.send hturn' hn (hat.old ▸ ho) hsent hc

theorem InTurn.pushes {times : List Time} (hs : InTurn n s p key value visited s₁)
    (hr : run (step config) s₁ (times.map fun now => .push n (.acked now)) = some s') :
    ∃ visited, InTurn n s p key value visited s' := by
  induction times generalizing visited s₁ with
  | nil =>
    obtain rfl : s₁ = s' := by simpa using hr
    exact ⟨visited, hs⟩
  | cons now times ih =>
    obtain ⟨s₂, h, hr⟩ := run_cons_eq_some.mp hr
    replace h : Rebalance.push config s₁ n (.acked now) = some s₂ := h
    obtain ⟨node, hs₂⟩ := hs.push h
    exact ih hs₂ hr

/-- The end of a turn that empties a slot: the slot is that of its key, and every node of the list
has been taken up. -/
theorem InTurn.finish (hs : InTurn n s p key value visited s₁) {e : CacheEntry}
    (h : finish s₁ n now = some s') (he : (s n).cache.slot k = some e)
    (hgone : (s' n).cache.slot k = none) :
    k = key ∧ n ∉ p.target.table.replicaIds key ∧
      visited.map CacheNode.id = p.target.table.replicaIds key ∧
      ∀ m ≠ n, (s' m).cache = (s₁ m).cache := by
  obtain ⟨t, ht, rfl, rfl, hat⟩ := hs.turn
  obtain ⟨q, t', hq, hqt, hpend, rfl⟩ := finish_cases h
  obtain rfl : t' = t := by simpa [Node.turn, hq, hqt] using ht
  cases hdrops : t'.drops with
  | false => simp [hdrops, hs.cache, he] at hgone
  | true =>
    simp only [hdrops, if_true, setPass_cache, removeLocal, modify_self,
      ShardedCache.slot_remove] at hgone
    have hk : k = t'.key := by
      by_contra hk
      simp [hk, hs.cache, he] at hgone
    refine ⟨hk, hat.not_mem hpend hdrops, ?_, ?_⟩
    · rw [RoutingTable.replicaIds, hat.list, hpend, List.append_nil]
    · intro m hm
      rw [if_pos rfl, setPass_cache, removeLocal, modify_ne _ _ hm]

/-! ## Removals -/

/-- **When a removal leaves a copy.** Take the pass of a node, without other writes and with every
push acknowledged, and one of its turns that removes a key. Afterwards another node holds an entry
at least as new exactly when the new preference list names a node that the old one did not, or
another node held such an entry when the turn began. -/
theorem copy_remains_iff (hidle : (s₀ n).pass = none) (hblank : BlankTombstones (s₀ n).cache)
    (hr : run (step config) s₀ ls = some s) (hsolo : ∀ l ∈ ls, l.Solo n)
    (hp : (s n).pass = some p) {times : List Time} {e : CacheEntry}
    (hturn : run (step config) s
      (.begin n :: (times.map (fun now => .push n (.acked now)) ++ [.finish n now])) = some s')
    (he : (s n).cache.slot k = some e) (hgone : (s' n).cache.slot k = none) :
    (∃ m ≠ n, (e.tag : WithBot Tag) ≤ slotTag ((s' m).cache.slot k)) ↔
      (∃ m ∈ p.target.table.replicaIds k, m ∉ oldOwners p.previous k) ∨
        ∃ m ≠ n, (e.tag : WithBot Tag) ≤ slotTag ((s m).cache.slot k) := by
  have hsync : Synced n s := Synced.of_run
    ⟨hblank, fun p hp => absurd hp (by simp [hidle]), fun p k x hp => absurd hp (by simp [hidle])⟩
    hsolo hr
  obtain ⟨s₁, hbegin, hturn⟩ := run_cons_eq_some.mp hturn
  obtain ⟨s₂, hpushes, hlast⟩ := run_append_eq_some.mp hturn
  obtain ⟨s₃, hfinish, hlast⟩ := run_cons_eq_some.mp hlast
  obtain rfl : s₃ = s' := by simpa using hlast
  obtain ⟨key, value, rest, hbatch, h₁⟩ := InTurn.begin hp hbegin
  obtain ⟨visited, h₂⟩ := h₁.pushes hpushes
  obtain ⟨rfl, hn, hvisited, hcaches⟩ := h₂.finish hfinish he hgone
  -- the entry of the snapshot is the one that is removed
  have htag : value.onWire.tag = e.tag := by
    have hx : (k, value) ∈ p.entries :=
      Pass.mem_entries.mpr (Or.inr (hbatch ▸ List.mem_cons_self))
    obtain ⟨e', he', htag, -⟩ := hsync.stored p k value hp hx
    rw [hsync.onWire_tag hp hx, htag, Option.some.inj (he'.symm.trans he)]
  have hpushed (m : NodeId) (hm : m ≠ n) (hT : m ∈ p.target.table.replicaIds k)
      (hO : m ∉ oldOwners p.previous k) :
      (e.tag : WithBot Tag) ≤ slotTag ((s₃ m).cache.slot k) := by
    rw [hcaches m hm, ← htag]
    exact h₂.pushed m hm (hvisited ▸ hT) hO
  have hrest (m : NodeId) (hm : m ≠ n)
      (hT : m ∈ p.target.table.replicaIds k → m ∈ oldOwners p.previous k) :
      (s₃ m).cache.slot k = (s m).cache.slot k := by
    rw [hcaches m hm]
    exact h₂.rest m hm (hvisited ▸ hT)
  constructor
  · rintro ⟨m, hm, hle⟩
    by_cases hT : m ∈ p.target.table.replicaIds k → m ∈ oldOwners p.previous k
    · exact Or.inr ⟨m, hm, hrest m hm hT ▸ hle⟩
    · rw [Classical.not_imp] at hT
      exact Or.inl ⟨m, hT.1, hT.2⟩
  · rintro (⟨m, hT, hO⟩ | ⟨m, hm, hle⟩)
    · have hm : m ≠ n := fun h => hn (h ▸ hT)
      exact ⟨m, hm, hpushed m hm hT hO⟩
    · refine ⟨m, hm, ?_⟩
      by_cases hT : m ∈ p.target.table.replicaIds k → m ∈ oldOwners p.previous k
      · rw [hrest m hm hT]
        exact hle
      · rw [Classical.not_imp] at hT
        exact hpushed m hm hT.1 hT.2

theorem copy_remains_iff_leaving :
    ∃ s s' e, run (step {}) (leaving 1 [⟨[97], [], 7001⟩] [⟨[98], [], 7002⟩])
        [.start [97], .snapshot [97] 1] = some s ∧
      run (step {}) s (.begin [97] :: ([2].map (fun now => .push [97] (.acked now)) ++
        [.finish [97] 3])) = some s' ∧
      (s [97]).cache.slot [107] = some e ∧ (s' [97]).cache.slot [107] = none ∧
      ∃ m ≠ [97], (e.tag : WithBot Tag) ≤ slotTag ((s' m).cache.slot [107]) := by
  have hrun : ((run (step {}) (leaving 1 [⟨[97], [], 7001⟩] [⟨[98], [], 7002⟩])
      [.start [97], .snapshot [97] 1]).bind fun s =>
        (run (step {}) s (.begin [97] :: ([2].map (fun now => .push [97] (.acked now)) ++
          [.finish [97] 3]))).bind fun s' => (s [97]).pass.bind fun p =>
            ((s [97]).cache.slot [107]).map fun _ => ((s' [97]).cache.slot [107],
              p.target.table.replicaIds [107], oldOwners p.previous [107])) =
      some (none, [[98]], [[97]]) := by decide
  obtain ⟨s, hs, hrun⟩ := Option.bind_eq_some_iff.mp hrun
  obtain ⟨s', hs', hrun⟩ := Option.bind_eq_some_iff.mp hrun
  obtain ⟨p, hp, hrun⟩ := Option.bind_eq_some_iff.mp hrun
  obtain ⟨e, he, hrun⟩ := Option.map_eq_some_iff.mp hrun
  simp only [Prod.mk.injEq] at hrun
  obtain ⟨hgone, hT, hO⟩ := hrun
  refine ⟨s, s', e, hs, hs', he, hgone, ?_⟩
  refine (copy_remains_iff rfl ?_ hs (by decide) hp hs' he hgone).mpr (Or.inl ⟨[98], ?_, ?_⟩)
  · exact (blankTombstones_new _ _ _).apply _ _ (by simp)
  · simp [hT]
  · simp [hO]

end ShardCache.Rebalance
