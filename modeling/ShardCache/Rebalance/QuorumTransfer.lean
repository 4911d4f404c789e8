import ShardCache.Foundations.Quorum
import ShardCache.Rebalance.LastCopy

/-!
# Write quorums across a change of the ring

Let the preference list of a key change from `O` to `T`, which is no shorter, and let a write quorum
of `O` hold an entry. The passes of the nodes of `O` may run in any order, also interleaved. Each of
the holders pushes its entry to every node of `T` that is not in `O`, and keeps its own copy if it
is in `T` itself: so a write quorum of `T` holds the entry once every pass has returned.

## Main definitions

* `QuietStep`: a step of a pass, without other writes, evictions or expiry
* `Holds`, `Stage`: a node holds the entry; how far the pass of a node has brought it

## Main results

* `Stage.step`: a step of any pass brings a holder's entry no further from the new nodes
* `write_quorum_transferred`: the new preference list has a write quorum of holders
-/

namespace ShardCache.Rebalance

open Foundations

variable {config : ClusterConfig} {s s₀ s' : System} {n m : NodeId} {l : Label}
  {ls : List Label} {O T S : List NodeId} {k : Key} {tag : Tag}

/-! ## Quiet steps -/

/-- The step evicts nothing. -/
def NoEviction (s : System) (l : Label) : Prop :=
  ∀ d ∈ l.delivery s,
    ((s d.dest).cache.apply d.now d.key d.value).1.evictions = (s d.dest).cache.evictions

/-- The step reads no entry of the key that has expired. -/
def NoExpiry (k : Key) (s : System) (l : Label) : Prop :=
  (∀ d ∈ l.delivery s, Unexpired d.now ((s d.dest).cache.slot k)) ∧
    match l with
    | .snapshot n now => Unexpired now ((s n).cache.slot k)
    | _ => True

/-- A step of the pass of a node of `O`, with every push acknowledged and no eviction or expiry. -/
structure QuietStep (O : List NodeId) (k : Key) (s : System) (l : Label) : Prop where
  acked : l.Acked
  node : l.node ∈ O
  noEviction : NoEviction s l
  noExpiry : NoExpiry k s l

instance (s : System) (l : Label) : Decidable (NoEviction s l) :=
  inferInstanceAs (Decidable (∀ d ∈ l.delivery s, _))

instance (k : Key) (s : System) (l : Label) : Decidable (NoExpiry k s l) :=
  have : Decidable (match l with
    | .snapshot n now => Unexpired now ((s n).cache.slot k)
    | _ => True) :=
    match l with
    | .snapshot n now => inferInstanceAs (Decidable (Unexpired now ((s n).cache.slot k)))
    | .start _ | .begin _ | .push _ _ | .finish _ _ | .stop _ | .replicaWrite _ _ _ _
    | .publish _ _ => .isTrue trivial
  inferInstanceAs (Decidable (_ ∧ _))

instance (O : List NodeId) (k : Key) (s : System) (l : Label) : Decidable (QuietStep O k s l) :=
  decidable_of_iff (l.Acked ∧ l.node ∈ O ∧ NoEviction s l ∧ NoExpiry k s l)
    ⟨fun h => ⟨h.1, h.2.1, h.2.2.1, h.2.2.2⟩, fun h => ⟨h.1, h.2, h.3, h.4⟩⟩

/-- Node `m` holds an entry for the key that is at least as new as `tag`. -/
def Holds (k : Key) (tag : Tag) (s : System) (m : NodeId) : Prop :=
  (tag : WithBot Tag) ≤ slotTag ((s m).cache.slot k)

instance (k : Key) (tag : Tag) (s : System) (m : NodeId) : Decidable (Holds k tag s m) :=
  inferInstanceAs (Decidable (_ ≤ _))

/-- A holder stays one, unless its own pass drops the key. -/
theorem Holds.step (hm : Holds k tag s m) (hq : QuietStep O k s l)
    (h : step config s l = some s') :
    Holds k tag s' m ∨ ∃ now t, l = .finish m now ∧ (s m).turn = some t ∧ t.pending = [] ∧
      t.drops = true ∧ t.key = k := by
  rcases slot_step h m k with hsame | ⟨d, hd, hdest, -, happly⟩ | ⟨d, hd, hdest, -, -, hev⟩ |
      ⟨now, t, hl, ht, hpend, hdrops, hkey, -⟩
  · exact Or.inl (by rw [Holds, hsame]; exact hm)
  · have hun : Unexpired d.now ((s m).cache.slot k) := hdest ▸ hq.noExpiry.1 d hd
    exact Or.inl (by rw [Holds, happly, slotTag_applySlot _ _ hun]; exact le_max_of_le_left hm)
  · exfalso
    have hno := hq.noEviction d hd
    rw [← cache_step_delivery h hd] at hno
    subst hdest
    omega
  · exact Or.inr ⟨now, t, hl, ht, hpend, hdrops, hkey⟩

/-- A node that runs no pass stays a holder. -/
theorem Holds.step_of_not_mem (hm : Holds k tag s m) (hO : m ∉ O) (hq : QuietStep O k s l)
    (h : Rebalance.step config s l = some s') : Holds k tag s' m := by
  rcases hm.step hq h with hm | ⟨now, t, rfl, -⟩
  · exact hm
  · exact absurd hq.node hO

/-! ## The tables -/

/-- The tables of a node of `O`: its target gives the list `T`, and what its entries are placed for
gives `O` until its pass has returned. -/
structure Tables (O T : List NodeId) (k : Key) (n : NodeId) (s : System) : Prop where
  routing : ∃ r, (s n).routing = some r ∧ r.table.replicaIds k = T
  placed : (s n).placedFor.map Published.epoch ≠ (s n).routing.map Published.epoch →
    oldOwners (s n).placedFor k = O
  pass : ∀ p, (s n).pass = some p → (s n).routing = some p.target ∧ oldOwners p.previous k = O ∧
    (s n).placedFor.map Published.epoch ≠ (s n).routing.map Published.epoch

theorem Tables.target (ht : Tables O T k n s) {p : Pass} (hp : (s n).pass = some p) :
    p.target.table.replicaIds k = T := by
  obtain ⟨r, hr, hT⟩ := ht.routing
  obtain rfl : r = p.target := Option.some.inj (hr.symm.trans (ht.pass p hp).1)
  exact hT

theorem Tables.step (ht : Tables O T k n s) (hl : l.Acked) (h : step config s l = some s') :
    Tables O T k n s' := by
  have hpub (m : NodeId) (r : Published) : l ≠ .publish m r := by
    rintro rfl
    exact hl
  rcases tables_step h hpub n with htab | ⟨p, rfl, hp, htab, hpass⟩
  · obtain ⟨hr, hpl⟩ : (s' n).routing = (s n).routing ∧ (s' n).placedFor = (s n).placedFor :=
      Prod.mk.inj htab
    refine ⟨by rw [hr]; exact ht.routing, by rw [hr, hpl]; exact ht.placed, ?_⟩
    intro p hp
    rw [hr, hpl]
    rcases pass_step h n with hsame | hmove
    · exact ht.pass p (hsame ▸ hp)
    · rw [hp] at hmove
      cases hmove with
      | start idle routing stale =>
        have hne : (s n).placedFor.map Published.epoch ≠ (s n).routing.map Published.epoch := by
          rw [routing]
          exact stale
        exact ⟨routing, ht.placed hne, hne⟩
      | snapshot running => exact (ht.pass _ running :)
      | begin running => exact (ht.pass _ running :)
      | push _ _ running => exact (ht.pass _ running :)
      | finish running => exact (ht.pass _ running :)
  · -- the entries are now placed for the target
    obtain ⟨hr, hpl⟩ : (s' n).routing = (s n).routing ∧ (s' n).placedFor = some p.target :=
      Prod.mk.inj htab
    refine ⟨by rw [hr]; exact ht.routing, ?_, fun q hq => absurd hq (by simp [hpass])⟩
    intro hne
    rw [hr, hpl, (ht.pass p hp).1] at hne
    exact absurd rfl hne

/-! ## The progress of a holder's pass -/

/-- The nodes that are new on the list hold the entry. -/
def Handed (O T : List NodeId) (k : Key) (tag : Tag) (s : System) : Prop :=
  ∀ m ∈ T, m ∉ O → Holds k tag s m

/-- How far the pass of a node has brought an entry that the node held. -/
inductive Stage (O T : List NodeId) (k : Key) (tag : Tag) (n : NodeId) (s : System) : Prop
  /-- The pass has not started. -/
  | idle (holds : Holds k tag s n) (idle : (s n).pass = none)
      (stale : (s n).placedFor.map Published.epoch ≠ (s n).routing.map Published.epoch)
  /-- The pass has not come to the shard of the key. -/
  | ahead {p : Pass} (holds : Holds k tag s n) (running : (s n).pass = some p)
      (shard : p.shard ≤ (s n).cache.shardIndex k) (fresh : ∀ x, (k, x) ∉ p.entries)
  /-- The entry is in the batch. -/
  | batched {p : Pass} {x : VersionedValue} (running : (s n).pass = some p)
      (batch : (k, x) ∈ p.batch) (le : tag ≤ x.onWire.tag)
  /-- The entry is being pushed, and the new nodes visited so far hold it. -/
  | turning {p : Pass} {t : Turn} {visited : List CacheNode} (running : (s n).pass = some p)
      (turn : p.turn = some t) (key : t.key = k) (le : tag ≤ t.value.onWire.tag)
      (here : t.At n p.previous p.target visited)
      (pushed : ∀ m ∈ visited.map CacheNode.id, m ∉ O → Holds k tag s m)
  /-- The pass has handed the entry off. -/
  | handed (handed : Handed O T k tag s)

theorem Handed.step (hs : Handed O T k tag s) (hq : QuietStep O k s l)
    (h : step config s l = some s') : Handed O T k tag s' :=
  fun m hT hO => (hs m hT hO).step_of_not_mem hO hq h

/-- The number of shards is fixed. -/
theorem length_shards_step (h : step config s l = some s') (m : NodeId) :
    (s' m).cache.shards.length = (s m).cache.shards.length := by
  rcases cache_step h m with hc | ⟨d, -, -, hc⟩ | ⟨now, t, -, -, -, -, hc⟩ <;> rw [hc]
  · exact ShardedCache.length_apply
  · exact ShardedCache.length_remove

theorem shardIndex_step (h : step config s l = some s') (m : NodeId) :
    (s' m).cache.shardIndex k = (s m).cache.shardIndex k := by
  simp only [ShardedCache.shardIndex, length_shards_step h]

/-- A holder whose pass is not in the turn of the key stays one. -/
theorem Holds.step_of_fresh (hn : Holds k tag s n) (hq : QuietStep O k s l)
    (h : Rebalance.step config s l = some s')
    (hfresh : ∀ p x, (s n).pass = some p → (k, x) ∉ p.entries) : Holds k tag s' n := by
  rcases hn.step hq h with hn | ⟨now, t, rfl, ht, -, -, rfl⟩
  · exact hn
  · obtain ⟨p, hp, hpt⟩ := Option.bind_eq_some_iff.mp ht
    exact absurd (Pass.mem_entries.mpr (Or.inl ⟨t, hpt, rfl, rfl⟩)) (hfresh p t.value hp)

/-- A step that leaves the pass alone. -/
theorem Stage.of_pass_eq (hs : Stage O T k tag n s) (hq : QuietStep O k s l)
    (h : step config s l = some s') (hsame : (s' n).pass = (s n).pass) : Stage O T k tag n s' := by
  cases hs with
  | idle holds idle stale =>
    refine .idle (holds.step_of_fresh hq h (by simp [idle])) (hsame ▸ idle) ?_
    have hpub (m : NodeId) (r : Published) : l ≠ .publish m r := by
      rintro rfl
      exact hq.acked
    rcases tables_step h hpub n with htab | ⟨p, -, hp, -⟩
    · obtain ⟨hr, hpl⟩ : (s' n).routing = (s n).routing ∧ (s' n).placedFor = (s n).placedFor :=
        Prod.mk.inj htab
      rw [hr, hpl]
      exact stale
    · simp [idle] at hp
  | ahead holds running shard fresh =>
    refine .ahead (holds.step_of_fresh hq h ?_) (hsame ▸ running) (shardIndex_step h n ▸ shard) fresh
    intro p x hp
    obtain rfl := Option.some.inj (running.symm.trans hp)
    exact fresh x
  | batched running batch le => exact .batched (hsame ▸ running) batch le
  | turning running turn key le here pushed =>
    exact .turning (hsame ▸ running) turn key le here
      fun m hm hO => (pushed m hm hO).step_of_not_mem hO hq h
  | handed handed => exact .handed (handed.step hq h)

/-- The snapshot of the key's shard takes the entry in. -/
theorem exists_mem_snapshot (hn : Holds k tag s n) (hb : BlankTombstones (s n).cache) {now : Time}
    (hun : Unexpired now ((s n).cache.slot k)) :
    ∃ x, (k, x) ∈ (s n).cache.shardSnapshot ((s n).cache.shardIndex k) now ∧
      tag ≤ x.onWire.tag := by
  cases he : (s n).cache.slot k with
  | none => simp [Holds, he] at hn
  | some e =>
    refine ⟨e.versioned now, ShardedCache.mem_shardSnapshot.mpr ⟨rfl, e, he, hun e he, rfl⟩, ?_⟩
    rw [VersionedValue.onWire_tag (hb k e he), CacheEntry.versioned_tag]
    rwa [Holds, he, slotTag_some, WithBot.coe_le_coe] at hn

/-- A push of the entry: the node that it takes up holds the entry afterwards, if it is new. -/
theorem holds_of_push {t : Turn} {node : CacheNode} {rest : List CacheNode} {sent : Sent}
    (hq : QuietStep O k s (.push n sent)) (h : step config s (.push n sent) = some s')
    (ht : (s n).turn = some t) (hpend : t.pending = node :: rest) (hkey : t.key = k)
    (hle : tag ≤ t.value.onWire.tag) (hn : node.id ≠ n) (ho : node.id ∉ t.oldOwners) :
    Holds k tag s' node.id := by
  cases sent with
  | acked now =>
    replace h : push config s n (.acked now) = some s' := h
    obtain ⟨node', rest', hpend', -, hcaches⟩ := push_acked h ht
    obtain ⟨rfl, rfl⟩ := List.cons.inj (hpend.symm.trans hpend')
    rcases hcaches with ⟨hskip, -⟩ | ⟨-, -, hsent, -⟩
    · exact (hskip.elim hn ho).elim
    · rw [Holds, hsent, ← hkey, ShardedCache.slot_apply]
      exact (WithBot.coe_le_coe.mpr hle).trans (le_slotTag_applySlot ..)
  | unacknowledged now hintNow => exact hq.acked.elim
  | lost hintNow => exact hq.acked.elim

/-- A pass that has not come to the shard of the key moves. -/
theorem Stage.ahead_move {p : Pass} (hn : Holds k tag s n) (hp : (s n).pass = some p)
    (hshard : p.shard ≤ (s n).cache.shardIndex k) (hfresh : ∀ x, (k, x) ∉ p.entries)
    (hb : BlankTombstones (s n).cache) (hq : QuietStep O k s l) (h : step config s l = some s')
    (hmove : PassMove (s n) n l (s' n).pass) : Stage O T k tag n s' := by
  have hholds := hn.step_of_fresh hq h fun q x hq => by
    obtain rfl := Option.some.inj (hp.symm.trans hq)
    exact hfresh x
  -- an entry that the pass has not met can only come from a snapshot
  have hahead {p' : Pass} (hp' : (s' n).pass = some p') (hs : p'.shard = p.shard)
      (hne : ∀ now, l ≠ .snapshot n now) : Stage O T k tag n s' := by
    refine .ahead hholds hp' (by rw [shardIndex_step h, hs]; exact hshard) ?_
    intro x hx
    rcases entries_step h hp' hx with ⟨q, hq, -, hx⟩ | ⟨i, now, hl, -⟩
    · obtain rfl := Option.some.inj (hp.symm.trans hq)
      exact hfresh x hx
    · exact hne now hl
  generalize hp' : (s' n).pass = p' at hmove
  cases hmove with
  | start idle => simp [hp] at idle
  | @snapshot q now hpq turn batch _ =>
    obtain rfl := Option.some.inj (hp.symm.trans hpq)
    rcases hshard.eq_or_lt with heq | hlt
    · obtain ⟨x, hx, hle⟩ := exists_mem_snapshot hn hb hq.noExpiry.2
      exact .batched hp' (heq ▸ hx) hle
    · refine .ahead hholds hp' (by rw [shardIndex_step h]; exact hlt) ?_
      intro x hx
      have hx : (k, x) ∈ (s n).cache.shardSnapshot p.shard now := by
        simpa [Pass.entries, turn] using hx
      exact hlt.ne (ShardedCache.mem_shardSnapshot.mp hx).1
  | begin hpq =>
    obtain rfl := Option.some.inj (hp.symm.trans hpq)
    exact hahead hp' rfl (by simp)
  | push _ _ hpq =>
    obtain rfl := Option.some.inj (hp.symm.trans hpq)
    exact hahead hp' rfl (by simp)
  | finish hpq =>
    obtain rfl := Option.some.inj (hp.symm.trans hpq)
    exact hahead hp' rfl (by simp)
  | stop hpq _ _ hlen =>
    -- the pass visits every shard
    obtain rfl := Option.some.inj (hp.symm.trans hpq)
    have hlt := (s n).cache.shardIndex_lt k
    omega

/-- A pass that has the entry in its batch moves. -/
theorem Stage.batched_move {p : Pass} {x : VersionedValue} (hp : (s n).pass = some p)
    (hx : (k, x) ∈ p.batch) (hle : tag ≤ x.onWire.tag)
    (hmove : PassMove (s n) n l (s' n).pass) : Stage O T k tag n s' := by
  generalize hp' : (s' n).pass = p' at hmove
  cases hmove with
  | start idle => simp [hp] at idle
  | snapshot hpq _ hnil =>
    obtain rfl := Option.some.inj (hp.symm.trans hpq)
    simp [hnil] at hx
  | begin hpq _ hcons =>
    obtain rfl := Option.some.inj (hp.symm.trans hpq)
    rw [hcons] at hx
    rcases List.mem_cons.mp hx with heq | hrest
    · obtain ⟨rfl, rfl⟩ := Prod.mk.inj heq
      exact .turning hp' rfl rfl hle (p.at_turnOf n _ _) (by simp)
    · exact .batched hp' hrest hle
  | push _ _ hpq =>
    obtain rfl := Option.some.inj (hp.symm.trans hpq)
    exact .batched hp' hx hle
  | finish hpq =>
    obtain rfl := Option.some.inj (hp.symm.trans hpq)
    exact .batched hp' hx hle
  | stop hpq _ hnil =>
    obtain rfl := Option.some.inj (hp.symm.trans hpq)
    simp [hnil] at hx

/-- A pass that is in the turn of the entry moves. -/
theorem Stage.turning_move {p : Pass} {t : Turn} {visited : List CacheNode}
    (hp : (s n).pass = some p) (hturn : p.turn = some t) (hkey : t.key = k)
    (hle : tag ≤ t.value.onWire.tag) (hat : t.At n p.previous p.target visited)
    (hpushed : ∀ m ∈ visited.map CacheNode.id, m ∉ O → Holds k tag s m) (hn : n ∈ O)
    (ht : Tables O T k n s) (hq : QuietStep O k s l) (h : step config s l = some s')
    (hmove : PassMove (s n) n l (s' n).pass) : Stage O T k tag n s' := by
  have hstill (m : NodeId) (hm : m ∈ visited.map CacheNode.id) (hO : m ∉ O) :
      Holds k tag s' m := (hpushed m hm hO).step_of_not_mem hO hq h
  generalize hp' : (s' n).pass = p' at hmove
  cases hmove with
  | start idle => simp [hp] at idle
  | snapshot hpq hnone =>
    obtain rfl := Option.some.inj (hp.symm.trans hpq)
    simp [hturn] at hnone
  | begin hpq hnone =>
    obtain rfl := Option.some.inj (hp.symm.trans hpq)
    simp [hturn] at hnone
  | push handedOff _ hpq hpt hpend =>
    obtain rfl := Option.some.inj (hp.symm.trans hpq)
    obtain rfl := Option.some.inj (hturn.symm.trans hpt)
    refine .turning hp' rfl hkey hle (hat.push hpend handedOff) ?_
    intro m hm hO
    rw [List.map_append, List.mem_append, List.map_singleton, List.mem_singleton] at hm
    rcases hm with hm | rfl
    · exact hstill m hm hO
    · have hold : t.oldOwners = O := by rw [hat.old, hkey, (ht.pass p hp).2.1]
      exact holds_of_push hq h (by simp [Node.turn, hp, hturn]) hpend hkey hle
        (fun he => hO (he ▸ hn)) (hold ▸ hO)
  | finish hpq hpt hpend =>
    -- the whole list has been taken up
    obtain rfl := Option.some.inj (hp.symm.trans hpq)
    obtain rfl := Option.some.inj (hturn.symm.trans hpt)
    refine .handed fun m hT hO => hstill m ?_ hO
    have hlist := hat.list
    rw [hpend, List.append_nil] at hlist
    rw [← hlist, hkey]
    change m ∈ p.target.table.replicaIds k
    rw [ht.target hp]
    exact hT
  | stop hpq hnone =>
    obtain rfl := Option.some.inj (hp.symm.trans hpq)
    simp [hturn] at hnone

/-- **A step of any pass keeps the progress of a holder's pass**, or adds to it. -/
theorem Stage.step (hs : Stage O T k tag n s) (hn : n ∈ O) (ht : Tables O T k n s)
    (hb : BlankTombstones (s n).cache) (hq : QuietStep O k s l) (h : step config s l = some s') :
    Stage O T k tag n s' := by
  rcases pass_step h n with hsame | hmove
  · exact hs.of_pass_eq hq h hsame
  · cases hs with
    | idle holds idle stale =>
      have hholds := holds.step_of_fresh hq h (by simp [idle])
      generalize hp' : (s' n).pass = p' at hmove
      cases hmove with
      | start _ _ _ => exact .ahead hholds hp' (Nat.zero_le _) (by simp [Pass.entries])
      | snapshot running => simp [idle] at running
      | begin running => simp [idle] at running
      | push _ _ running => simp [idle] at running
      | finish running => simp [idle] at running
      | stop running => simp [idle] at running
    | ahead holds running shard fresh => exact ahead_move holds running shard fresh hb hq h hmove
    | batched running batch le => exact batched_move running batch le hmove
    | turning running turn key le here pushed =>
      exact turning_move running turn key le here pushed hn ht hq h hmove
    | handed handed => exact .handed (handed.step hq h)

/-! ## The quorum -/

/-- What the run keeps, for a family `S` of holders: the tables, the progress of the passes of `S`,
and the entries of those of `S` that stay on the list. -/
structure Transfer (O T S : List NodeId) (k : Key) (tag : Tag) (s : System) : Prop where
  tables : ∀ n ∈ O, Tables O T k n s
  blank : ∀ n ∈ O, BlankTombstones (s n).cache
  turn : ∀ n ∈ O, ∀ p t, (s n).pass = some p → p.turn = some t →
    ∃ visited, t.At n p.previous p.target visited
  stage : ∀ n ∈ S, Stage O T k tag n s
  kept : ∀ n ∈ S, n ∈ T → Holds k tag s n

theorem Transfer.step (hs : Transfer O T S k tag s) (hSO : S ⊆ O) (hq : QuietStep O k s l)
    (h : step config s l = some s') : Transfer O T S k tag s' where
  tables n hn := (hs.tables n hn).step hq.acked h
  blank n hn := (hs.blank n hn).step h
  turn n hn := turnAt_step h (hs.turn n hn)
  stage n hn :=
    (hs.stage n hn).step (hSO hn) (hs.tables n (hSO hn)) (hs.blank n (hSO hn)) hq h
  kept n hn hT := by
    rcases (hs.kept n hn hT).step hq h with hholds | ⟨now, t, -, ht, hpend, hdrops, hkey⟩
    · exact hholds
    · -- a node of `T` does not drop the key
      obtain ⟨p, hp, hpt⟩ := Option.bind_eq_some_iff.mp ht
      obtain ⟨visited, hat⟩ := hs.turn n (hSO hn) p t hp hpt
      have hnot := hat.not_mem hpend hdrops
      rw [hkey, (hs.tables n (hSO hn)).target hp] at hnot
      exact absurd hT hnot

/-- A holder whose entries are placed for its routing table has handed its entry off. -/
theorem Stage.handed_of_placed (hs : Stage O T k tag n s) (ht : Tables O T k n s)
    (hdone : (s n).placedFor = (s n).routing) : Handed O T k tag s := by
  have hepoch : (s n).placedFor.map Published.epoch = (s n).routing.map Published.epoch := by
    rw [hdone]
  cases hs with
  | idle _ _ stale => exact absurd hepoch stale
  | ahead _ running => exact absurd hepoch (ht.pass _ running).2.2
  | batched running => exact absurd hepoch (ht.pass _ running).2.2
  | turning running => exact absurd hepoch (ht.pass _ running).2.2
  | handed handed => exact handed

/-- The tables of a node before its pass: its entries are placed for a table that gives `O`, and its
routing table gives `T`. Tables of one epoch are one table. -/
def Changes (O T : List NodeId) (k : Key) (x : Node) : Prop :=
  ∃ previous target, x.placedFor = some previous ∧ x.routing = some target ∧
    previous.table.replicaIds k = O ∧ target.table.replicaIds k = T ∧
    (previous.epoch = target.epoch → previous = target)

theorem Changes.tables (hc : Changes O T k (s n)) (hidle : (s n).pass = none) :
    Tables O T k n s := by
  obtain ⟨previous, target, hpl, hr, hO, hT, -⟩ := hc
  refine ⟨⟨target, hr, hT⟩, ?_, fun p hp => absurd hp (by simp [hidle])⟩
  intro _
  rw [hpl]
  exact hO

theorem Changes.stage (hc : Changes O T k (s n)) (hidle : (s n).pass = none)
    (hn : Holds k tag s n) : Stage O T k tag n s := by
  obtain ⟨previous, target, hpl, hr, hO, hT, hepoch⟩ := hc
  by_cases he : previous.epoch = target.epoch
  · -- the two lists are one, so no node is new
    refine .handed fun m hmT hmO => absurd hmT ?_
    rw [← hT, ← hepoch he, hO]
    exact hmO
  · refine .idle hn hidle ?_
    rw [hpl, hr]
    exact fun h => he (Option.some.inj h)

/-- **Rebalancing preserves write quorums.** Let the preference list of a key change from `O` to
`T`, which is no shorter, and let a write quorum of `O` hold an entry at least as new as `tag`. Let
the passes of the nodes of `O` run in any order or interleaved, with every push acknowledged, and
without other writes, evictions or expiry. When each has returned, a write quorum of `T` holds an
entry at least as new as `tag`. -/
theorem write_quorum_transferred (hT : T.Nodup) (hlen : O.length ≤ T.length) (hS : S.Nodup)
    (hSO : S ⊆ O) (hquorum : config.effectiveQuorum config.writeQuorum O.length ≤ S.length)
    (hholds : ∀ n ∈ S, Holds k tag s₀ n) (hidle : ∀ n ∈ O, (s₀ n).pass = none)
    (hblank : ∀ n ∈ O, BlankTombstones (s₀ n).cache) (hchanges : ∀ n ∈ O, Changes O T k (s₀ n))
    (hr : run (step config) s₀ ls = some s) (hA : Along (step config) (QuietStep O k) s₀ ls)
    (hdone : ∀ n ∈ O, (s n).placedFor = (s n).routing) :
    config.effectiveQuorum config.writeQuorum T.length ≤
      T.countP fun n => decide (Holds k tag s n) := by
  have h₀ : Transfer O T S k tag s₀ :=
    ⟨fun n hn => (hchanges n hn).tables (hidle n hn), hblank,
      fun n hn p t hp => absurd hp (by simp [hidle n hn]),
      fun n hn => (hchanges n (hSO hn)).stage (hidle n (hSO hn)) (hholds n hn),
      fun n hn _ => hholds n hn⟩
  have hs : Transfer O T S k tag s :=
    run_invariant (fun s l s' hs hq h => hs.step hSO hq h) h₀ hA hr
  -- some node holds the entry, and its pass has returned
  have hpos := config.effectiveQuorum_pos config.writeQuorum O.length
  obtain ⟨n, hn⟩ := List.exists_mem_of_length_pos (show 0 < S.length by omega)
  have hhanded := (hs.stage n hn).handed_of_placed (hs.tables n (hSO hn)) (hdone n (hSO hn))
  have hcount : T.length + S.length ≤ O.length + T.countP fun n => decide (Holds k tag s n) :=
    length_add_length_le_add_countP hT hS hSO
      (fun m hm hO => decide_eq_true (hhanded m hm hO))
      (fun m hm hmS => decide_eq_true (hs.kept m hmS hm))
  have hgrow := config.effectiveQuorum_add_le config.writeQuorum O.length (T.length - O.length)
  rw [Nat.add_sub_cancel' hlen] at hgrow
  omega

/-- The node `[100]` has taken the place of `[97]` in a ring of three nodes. Two of the old nodes
hold the key `[107]`. -/
def replacing : System := fun n =>
  { cache := if n = [99] ∨ n = [100] then emptyCache
      else (emptyCache.apply 0 [107] ⟨[1], 1, false, none⟩).1
    routing := some ⟨2, tableOf 3 [⟨[98], [], 7002⟩, ⟨[99], [], 7003⟩, ⟨[100], [], 7004⟩] n⟩
    placedFor := some ⟨1, tableOf 3 [⟨[97], [], 7001⟩, ⟨[98], [], 7002⟩, ⟨[99], [], 7003⟩] n⟩ }

/-- The passes of the old nodes. Those of the two that hold the key are interleaved. -/
def replaced : List Label :=
  [.start [97], .snapshot [97] 1, .start [98], .begin [97], .push [97] (.acked 2),
    .snapshot [98] 2, .begin [98], .push [98] (.acked 3), .push [98] (.acked 3),
    .push [97] (.acked 3), .push [97] (.acked 4), .finish [97] 4, .push [98] (.acked 5),
    .start [99], .snapshot [99] 5, .stop [99], .finish [98] 6, .stop [98], .stop [97]]

theorem write_quorum_transferred_replacing :
    ∃ s, run (step {}) replacing replaced = some s ∧ (s [97]).cache.slot [107] = none ∧
      2 ≤ [[98], [100], [99]].countP fun n => decide (Holds [107] (tagOf 1 false [1]) s n) := by
  have hrun : (run (step {}) replacing replaced).map (fun s : System =>
      ((s [97]).cache.slot [107], decide (∀ n ∈ ([[97], [98], [99]] : List NodeId),
        (s n).placedFor = (s n).routing))) = some (none, true) := by decide
  obtain ⟨s, hs, hseen⟩ := Option.map_eq_some_iff.mp hrun
  obtain ⟨hgone, hdone⟩ := Prod.mk.inj hseen
  have hquorum : (2 : ℕ) = ({} : ClusterConfig).effectiveQuorum 0 3 := by decide
  have hholds : ∀ n ∈ ([[97], [98]] : List NodeId),
      Holds [107] (tagOf 1 false [1]) replacing n := by decide
  refine ⟨s, hs, hgone, hquorum.le.trans ?_⟩
  refine write_quorum_transferred (O := [[97], [98], [99]]) (T := [[98], [100], [99]]) (by decide)
    (by decide) (by decide) (by decide) (by decide) hholds ?_ ?_ ?_ hs (by decide)
    (of_decide_eq_true hdone)
  · exact fun n _ => rfl
  · intro n _
    simp only [replacing]
    split
    · exact blankTombstones_new _ _ _
    · exact (blankTombstones_new _ _ _).apply _ _ (by simp)
  · intro n hn
    refine ⟨_, _, rfl, rfl, ?_, ?_, by simp⟩
    · revert n
      decide
    · revert n
      decide

end ShardCache.Rebalance
