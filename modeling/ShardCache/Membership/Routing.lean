import ShardCache.Membership.Agreement

/-!
# The published routing table

Requests are routed by a copy of the ring, the routing table, that each change of the ring has to
publish anew. `merge_gossip` and `leave` do; `remove_node` takes a node off the ring and does not, so
that requests are still routed to the node it removed.

## Main definitions

* `Reflects`: the routing table is the one that the ring gives
* `RemoveSafe`: the operation is no `remove_node` of a peer on the ring

## Main results

* `removeNode_keeps_routing`: a run after which a removed node is still in the routing table
* `routing_reflects_ring`: while `remove_node` takes no peer off the ring, the routing table is
  that of the ring, and its preference lists name members that are alive
-/

namespace ShardCache.Membership

open Foundations

variable {s s' : State} {m : MemberInfo} {b : Bool} {op : Op} {ops : List Op}

/-! ## The table that is not published -/

/-- **A removed node stays in the routing table**: `remove_node` takes it off the ring and the node
map, and the routing table is not the one that the ring gives. -/
theorem removeNode_keeps_routing :
    ∃ s, run step (.init ⟨[97], [], 7001⟩ 3 5) [.addNode ⟨[120], [], 7002⟩, .removeNode [120]] =
        some s ∧
      s.nodes[([120] : NodeId)]? = none ∧
      [120] ∈ s.routing.nodes.map CacheNode.id ∧ s.routing ≠ .build s.ring 3 [97] := by
  set ring : ConsistentHashRing :=
    (({} : ConsistentHashRing).addNode ⟨[97], [], 7001⟩).addNode ⟨[120], [], 7002⟩ with hring
  have hrun : (run step (.init ⟨[97], [], 7001⟩ 3 5)
      [.addNode ⟨[120], [], 7002⟩, .removeNode [120]]).map (fun s => s.nodes[([120] : NodeId)]?) =
        some none := by decide
  obtain ⟨s, hs, hn⟩ := Option.map_eq_some_iff.mp hrun
  have hrouting : s.routing = .build ring 3 [97] := by
    obtain rfl := Option.some.inj hs
    rfl
  -- the node owns a point of the ring that the table was built from
  have hmem : [120] ∈ s.routing.nodes.map CacheNode.id := by
    rw [hrouting, RoutingTable.mem_nodes_build_iff]
    obtain ⟨h, hp⟩ : ∃ h : UInt32, ring.points[h]? = some ⟨[120], [], 7002⟩ :=
      ConsistentHashRing.exists_point_addNode (show 0 < 256 by decide)
    exact ⟨h, _, hp, rfl⟩
  refine ⟨s, hs, hn, hmem, ?_⟩
  intro heq
  -- and none of the ring as it is
  rw [heq, RoutingTable.mem_nodes_build_iff] at hmem
  obtain ⟨h, node, hp, hid⟩ := hmem
  have hpresent := present_of_run hs
  have hphysical := (hpresent.valid h node hp).1
  rw [hid, hpresent.ring, hn] at hphysical
  exact absurd hphysical (by simp)

/-! ## When the table is published -/

/-- The routing table is the one that the ring gives. -/
structure Reflects (localNode : CacheNode) (replicationFactor : ℕ) (s : State) : Prop where
  localNode : s.localNode = localNode
  replicationFactor : s.replicationFactor = replicationFactor
  routing : s.routing = s.currentTable

/-- The operation is no `remove_node` of a peer that is on the ring. -/
def RemoveSafe (s : State) : Op → Prop
  | .removeNode id => id = s.localNode.id ∨ s.nodes[id]? = none
  | _ => True

instance (s : State) (op : Op) : Decidable (RemoveSafe s op) := by
  unfold RemoveSafe
  split <;> infer_instance

/-- What one entry leaves alone: the routing table, and the ring unless it says that it changed. -/
structure Unpublished (s s' : State) (changed : Bool) : Prop where
  localNode : s'.localNode = s.localNode
  replicationFactor : s'.replicationFactor = s.replicationFactor
  routing : s'.routing = s.routing
  ring : changed = false → s'.ring = s.ring

theorem Applies.unpublished (h : Applies s m s' b) : Unpublished s s' b := by
  cases h <;> exact ⟨rfl, rfl, rfl, by simp⟩

theorem unpublished_applyMembers (s : State) (remote : List MemberInfo) :
    Unpublished s (s.applyMembers remote).state (s.applyMembers remote).changed := by
  have hinit : Unpublished s ({ state := s } : Applied).state false :=
    ⟨rfl, rfl, rfl, fun _ => rfl⟩
  refine List.foldlRecOn (motive := fun a : Applied => Unpublished s a.state a.changed) remote
    Applied.next hinit ?_
  intro a ha m _
  have h := (applies_applyMember a.state m a.changes).unpublished
  refine ⟨h.localNode.trans ha.localNode, h.replicationFactor.trans ha.replicationFactor,
    h.routing.trans ha.routing, ?_⟩
  intro hc
  have hc : (a.state.applyMember m a.changes).changed = false ∧ a.changed = false := by
    simpa [Applied.next] using hc
  exact (h.ring hc.1).trans (ha.ring hc.2)

section Reflects

variable {localNode : CacheNode} {replicationFactor : ℕ}

/-- A change that leaves the ring alone needs no new table. -/
theorem Reflects.of_unchanged (hs : Reflects localNode replicationFactor s)
    (h : Unpublished s s' false) : Reflects localNode replicationFactor s' := by
  refine ⟨h.localNode.trans hs.localNode, h.replicationFactor.trans hs.replicationFactor, ?_⟩
  rw [h.routing, hs.routing, State.currentTable, State.currentTable, h.ring rfl, h.localNode,
    h.replicationFactor]

theorem Reflects.afterMembershipChange (hs : Reflects localNode replicationFactor s)
    (c : Changes) : Reflects localNode replicationFactor (s.afterMembershipChange c) := by
  unfold State.afterMembershipChange
  split
  · exact ⟨hs.localNode, hs.replicationFactor, hs.routing⟩
  · exact hs

theorem Reflects.mergeGossip (hs : Reflects localNode replicationFactor s)
    (remote : List MemberInfo) : Reflects localNode replicationFactor (s.mergeGossip remote).1 := by
  have h := unpublished_applyMembers s remote
  refine Reflects.afterMembershipChange ?_ _
  cases hc : (s.applyMembers remote).changed with
  | true =>
    exact ⟨h.localNode.trans hs.localNode, h.replicationFactor.trans hs.replicationFactor, rfl⟩
  | false =>
    rw [if_neg (by simp)]
    exact hs.of_unchanged (hc ▸ h)

/-- An entry that marks a node as left changes the ring only where it finds a peer on it. -/
theorem Applies.changed_eq_false (h : Applies s m s' b) (hp : Present s) (hleft : m.status = .left)
    (hsafe : m.node.id = s.localNode.id ∨ s.nodes[m.node.id]? = none) : b = false := by
  cases h with
  | joined accepted status => simp [hleft] at status
  | departed accepted status present =>
    rcases hsafe with hself | hout
    · exact absurd hself (hp.ne_local accepted)
    · simp [hout] at present
  | _ => rfl

theorem Reflects.removeNode (hs : Reflects localNode replicationFactor s) (hp : Present s)
    {id : NodeId} (hsafe : RemoveSafe s (.removeNode id)) :
    Reflects localNode replicationFactor (s.removeNode id) := by
  unfold State.removeNode
  cases hk : s.members[id]? with
  | none => exact hs
  | some known =>
    have h := applies_applyMember s ⟨known.node, known.generation + 1, .left⟩ {}
    have hid : known.node.id = id := hp.key id known hk
    have hb := h.changed_eq_false hp rfl (by rw [hid]; exact hsafe)
    exact (hs.of_unchanged (hb ▸ h.unpublished)).afterMembershipChange _

theorem Reflects.step (hs : Reflects localNode replicationFactor s) (hp : Present s)
    (hsafe : RemoveSafe s op) (h : step s op = some s') :
    Reflects localNode replicationFactor s' := by
  cases op with
  | addNode node =>
    obtain rfl := Option.some.inj h
    exact hs.mergeGossip _
  | removeNode id =>
    obtain rfl := Option.some.inj h
    exact hs.removeNode hp hsafe
  | mergeGossip remote =>
    obtain rfl := Option.some.inj h
    exact hs.mergeGossip remote
  | leave =>
    obtain rfl := Option.some.inj h
    exact ⟨hs.localNode, hs.replicationFactor, rfl⟩

theorem reflects_init (localNode : CacheNode) (replicationFactor : ℕ) (bootMs : UInt64) :
    Reflects localNode replicationFactor (.init localNode replicationFactor bootMs) := by
  constructor <;> simp only [State.init, State.publishRouting, State.currentTable]

/-- **The routing table reflects the ring**, after every operation of a run in which `remove_node`
takes no peer off the ring; and a node that is on a preference list is in the node map, with an
entry that is alive. -/
theorem routing_reflects_ring {bootMs : UInt64}
    (hr : run Membership.step (.init localNode replicationFactor bootMs) ops = some s)
    (hA : Along Membership.step RemoveSafe (.init localNode replicationFactor bootMs) ops) :
    s.routing = .build s.ring replicationFactor localNode.id ∧
      ∀ (key : Key) (id : NodeId), id ∈ s.routing.replicaIds key → (s.nodes[id]?).isSome ∧
        ∃ m, s.members[id]? = some m ∧ m.status = .alive := by
  have hs : Present s ∧ Reflects localNode replicationFactor s := run_invariant
    (I := fun s => Present s ∧ Reflects localNode replicationFactor s)
    (fun _ _ _ hs hsafe h => ⟨hs.1.step h, hs.2.step hs.1 hsafe h⟩)
    ⟨present_init localNode replicationFactor bootMs, reflects_init ..⟩ hA hr
  obtain ⟨hp, hs⟩ := hs
  have hrouting : s.routing = .build s.ring replicationFactor localNode.id := by
    rw [hs.routing, State.currentTable, hs.localNode, hs.replicationFactor]
  refine ⟨hrouting, ?_⟩
  intro key id hid
  obtain ⟨node, hnode, rfl⟩ := List.mem_map.mp hid
  rw [hrouting] at hnode
  obtain ⟨h, hpoint⟩ := RoutingTable.mem_points_of_mem_preferenceList _ _ _ _ hnode
  have hsome : (s.nodes[node.id]?).isSome := by
    rw [← hp.ring, (hp.valid h node hpoint).1]
    rfl
  exact ⟨hsome, (hp.alive node.id).mp hsome⟩

theorem routing_reflects_ring_rejoinedNode :
    ∃ s, run Membership.step (.init ⟨[97], [], 7001⟩ 3 5) (rejoinedNode ++ [.removeNode [97]]) =
        some s ∧ s.routing = .build s.ring 3 [97] := by
  have hrun : (run Membership.step (.init ⟨[97], [], 7001⟩ 3 5)
      (rejoinedNode ++ [.removeNode [97]])).isSome := by decide
  obtain ⟨s, hs⟩ := Option.isSome_iff_exists.mp hrun
  exact ⟨s, hs, (routing_reflects_ring hs (by decide)).1⟩

end Reflects

end ShardCache.Membership
