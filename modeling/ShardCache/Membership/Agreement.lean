import ShardCache.Membership.State

/-!
# Membership table, node map and ring

The node map, the ring and the membership table name the same nodes in every reachable state: an
entry enters the map and the ring when it comes alive and leaves them when it is marked as left.
Their addresses can differ. An entry that changes the address of a node on the ring replaces the
entry of the table and nothing else, so that the node is still reached at its old address.

## Main definitions

* `Present`: the table, the map and the ring name the same nodes
* `AddressKept`: the entry does not move a node that is on the ring

## Main results

* `present_of_run`: every reachable state has this
* `mergeGossip_keeps_old_address`: a run after which the map and the table disagree
* `membership_agrees`: while no entry moves a node on the ring, they agree on the addresses too
-/

namespace ShardCache.Membership

open Foundations
open ConsistentHashRing

variable {s s' : State} {m : MemberInfo} {b : Bool} {op : Op} {ops : List Op} {id : NodeId}

/-- The table, the node map and the ring name the same nodes: those whose entry is alive. -/
structure Present (s : State) : Prop where
  own : ∃ self, s.members[s.localNode.id]? = some self ∧ self.node = s.localNode
  key : ∀ (id : NodeId) (m : MemberInfo), s.members[id]? = some m → m.node.id = id
  alive : ∀ id : NodeId, (s.nodes[id]?).isSome ↔
    ∃ m, s.members[id]? = some m ∧ m.status = .alive
  ring : ∀ id : NodeId, s.ring.physicalNodes[id]? = s.nodes[id]?
  valid : s.ring.Valid

/-- An accepted entry is about another node. -/
theorem Present.ne_local (hs : Present s) (h : Accepts s m) : m.node.id ≠ s.localNode.id := by
  intro hid
  obtain ⟨self, hself, -⟩ := hs.own
  exact (h self (by rw [hid]; exact hself)).2 hid

theorem Present.own_insert (hs : Present s) (h : Accepts s m) :
    ∃ self, (s.members.insert m.node.id m)[s.localNode.id]? = some self ∧
      self.node = s.localNode := by
  rw [getElem?_insert_id, if_neg (Ne.symm (hs.ne_local h))]
  exact hs.own

theorem Present.key_insert (hs : Present s) {e : MemberInfo} (hm : m.node.id = id) {id' : NodeId}
    (he : (s.members.insert id m)[id']? = some e) : e.node.id = id' := by
  rw [getElem?_insert_id] at he
  split at he
  · rename_i hid
    obtain rfl := Option.some.inj he
    rw [hm, hid]
  · exact hs.key id' e he

/-- Every entry keeps the three in step. -/
theorem Present.applies (hs : Present s) (h : Applies s m s' b) : Present s' := by
  cases h with
  | ignored => exact hs
  | @outranked known found new self =>
    -- the own entry gets a higher generation and keeps its address
    obtain ⟨self', hself, hnode⟩ := hs.own
    obtain rfl : self' = known := Option.some.inj (hself.symm.trans (self ▸ found))
    refine ⟨⟨{ self' with generation := m.generation + 1 }, ?_, hnode⟩,
      fun id e he => hs.key_insert ?_ he, ?_, hs.ring, hs.valid⟩
    · simp only [getElem?_insert_id, self, if_true]
    · exact (hs.key _ _ found :)
    · intro id
      simp only [getElem?_insert_id]
      split
      · rename_i hid
        rw [hs.alive, hid, found]
        simp
      · exact hs.alive id
  | joined accepted status out =>
    refine ⟨hs.own_insert accepted, fun id e he => hs.key_insert rfl he, ?_,
      ?_, hs.valid.addNode _⟩
    · intro id
      simp only [getElem?_insert_id]
      split
      · simp [status]
      · exact hs.alive id
    · intro id
      rw [addNode_physicalNodes, getElem?_insert_id, hs.ring]
  | departed accepted status present =>
    refine ⟨hs.own_insert accepted, fun id e he => hs.key_insert rfl he, ?_,
      ?_, hs.valid.removeNode _⟩
    · intro id
      simp only [getElem?_insert_id, getElem?_erase_id]
      split
      · simp [status]
      · exact hs.alive id
    · intro id
      rw [removeNode_physicalNodes, getElem?_erase_id, hs.ring]
  | replaced accepted same =>
    -- the entry changes, but not whether its node is on the ring
    refine ⟨hs.own_insert accepted, fun id e he => hs.key_insert rfl he, ?_,
      hs.ring, hs.valid⟩
    intro id
    simp only [getElem?_insert_id]
    split
    · rename_i hid
      rw [hid, ← same]
      simp
    · exact hs.alive id

theorem Present.leave (hs : Present s) : Present s.leave := by
  obtain ⟨self, hself, hnode⟩ := hs.own
  have hmembers : s.leave.members = s.members.insert s.localNode.id
      { self with generation := self.generation + 1, status := .left } := by
    simp [State.leave, State.publishRouting, hself]
  refine ⟨⟨{ self with generation := self.generation + 1, status := .left }, ?_, hnode⟩,
    ?_, ?_, ?_, hs.valid.removeNode _⟩
  · rw [hmembers, getElem?_insert_id]
    exact if_pos rfl
  · intro id e he
    rw [hmembers] at he
    refine hs.key_insert ?_ he
    exact congrArg CacheNode.id hnode
  · intro id
    rw [hmembers]
    change ((s.nodes.erase s.localNode.id)[id]?).isSome ↔ _
    rw [getElem?_insert_id, getElem?_erase_id]
    split
    · simp
    · exact hs.alive id
  · intro id
    change (s.ring.removeNode s.localNode.id).physicalNodes[id]? = _
    rw [removeNode_physicalNodes, hs.ring]
    exact (getElem?_erase_id ..).symm

theorem present_init (localNode : CacheNode) (replicationFactor : ℕ) (bootMs : UInt64) :
    Present (.init localNode replicationFactor bootMs) := by
  refine ⟨⟨⟨localNode, bootMs, .alive⟩, ?_, rfl⟩, ?_, ?_, ?_,
    (valid_empty 256).addNode _⟩
  · simp [State.init, State.publishRouting]
  · intro id e he
    simp only [State.init, State.publishRouting, getElem?_insert_id] at he
    split at he
    · obtain rfl := Option.some.inj he
      exact Eq.symm ‹_›
    · simp at he
  · intro id
    simp only [State.init, State.publishRouting, getElem?_insert_id]
    split <;> simp
  · intro id
    simp [State.init, State.publishRouting, addNode_physicalNodes, getElem?_insert_id]

theorem Present.step (hs : Present s) (h : step s op = some s') : Present s' :=
  step_rule (fun _ _ _ _ hs _ h => hs.applies h)
    (fun _ _ _ hs => ⟨hs.own, hs.key, hs.alive, hs.ring, hs.valid⟩) (fun _ hs => hs.leave) hs
    (opMeets_of_forall (fun _ _ => trivial) s op) h

/-- **In every reachable state the table, the node map and the ring name the same nodes.** -/
theorem present_of_run {localNode : CacheNode} {replicationFactor : ℕ} {bootMs : UInt64}
    (hr : run step (.init localNode replicationFactor bootMs) ops = some s) : Present s :=
  run_invariant (fun _ _ _ hs _ h => hs.step h) (present_init localNode replicationFactor bootMs)
    (along_true _ ops) hr

/-! ## Addresses -/

/-- Node `[120]` is on the ring and then announces another port under a higher generation. -/
def movedNode : List Op :=
  [.mergeGossip [⟨⟨[120], [], 7002⟩, 1, .alive⟩], .mergeGossip [⟨⟨[120], [], 7003⟩, 2, .alive⟩]]

/-- **A node that moves is kept at its old address**: its new port reaches the membership table, and
neither the node map nor the ring. -/
theorem mergeGossip_keeps_old_address :
    ∃ s, run step (.init ⟨[97], [], 7001⟩ 3 5) movedNode = some s ∧
      s.members[([120] : NodeId)]? = some ⟨⟨[120], [], 7003⟩, 2, .alive⟩ ∧
      s.nodes[([120] : NodeId)]? = some ⟨[120], [], 7002⟩ ∧
      s.ring.physicalNodes[([120] : NodeId)]? = some ⟨[120], [], 7002⟩ := by
  have hrun : (run step (.init ⟨[97], [], 7001⟩ 3 5) movedNode).map (fun s =>
      (s.members[([120] : NodeId)]?, s.nodes[([120] : NodeId)]?,
        s.ring.physicalNodes[([120] : NodeId)]?)) =
      some (some ⟨⟨[120], [], 7003⟩, 2, .alive⟩, some ⟨[120], [], 7002⟩,
        some ⟨[120], [], 7002⟩) := by decide
  obtain ⟨s, hs, hrun⟩ := Option.map_eq_some_iff.mp hrun
  simp only [Prod.mk.injEq] at hrun
  exact ⟨s, hs, hrun⟩

/-- An entry that is accepted as alive has the address under which its node is on the ring, if it
is on the ring. -/
def AddressKept (s : State) (m : MemberInfo) : Prop :=
  m.status = .alive → Accepts s m → ∀ node ∈ s.nodes[m.node.id]?, node = m.node

instance (s : State) (m : MemberInfo) : Decidable (AddressKept s m) :=
  inferInstanceAs (Decidable (_ → _ → ∀ node ∈ s.nodes[m.node.id]?, _))

/-- The node map has the addresses of the membership table. -/
structure Agrees (s : State) : Prop where
  present : Present s
  address : ∀ (id : NodeId) (node : CacheNode) (m : MemberInfo), s.nodes[id]? = some node →
    s.members[id]? = some m → node = m.node

theorem Agrees.applies (hs : Agrees s) (hm : AddressKept s m) (h : Applies s m s' b) :
    Agrees s' := by
  refine ⟨hs.present.applies h, ?_⟩
  intro id node e hn he
  cases h with
  | ignored => exact hs.address id node e hn he
  | @outranked known found new self =>
    simp only [getElem?_insert_id] at he
    split at he
    · rename_i hid
      obtain rfl := Option.some.inj he
      exact (hs.address id node known hn (hid ▸ found) :)
    · exact hs.address id node e hn he
  | joined accepted status out =>
    simp only [getElem?_insert_id] at hn he
    split at he
    · rename_i hid
      rw [if_pos hid] at hn
      rw [← Option.some.inj hn, ← Option.some.inj he]
    · rename_i hid
      rw [if_neg hid] at hn
      exact hs.address id node e hn he
  | departed accepted status present =>
    simp only [getElem?_insert_id, getElem?_erase_id] at hn he
    split at he
    · rename_i hid
      simp [hid] at hn
    · rename_i hid
      rw [if_neg hid] at hn
      exact hs.address id node e hn he
  | replaced accepted same =>
    simp only [getElem?_insert_id] at he
    split at he
    · -- the address of the new entry must be the one on the ring, which nothing updates here
      rename_i hid
      obtain rfl := Option.some.inj he
      rw [hid] at hn
      exact hm (same.mpr (by rw [hn]; rfl)) accepted node hn
    · exact hs.address id node e hn he

theorem Agrees.leave (hs : Agrees s) : Agrees s.leave := by
  refine ⟨hs.present.leave, ?_⟩
  intro id node m hn hm
  replace hn : (s.nodes.erase s.localNode.id)[id]? = some node := hn
  rw [getElem?_erase_id] at hn
  split at hn
  · simp at hn
  · rename_i hid
    simp only [State.leave, State.publishRouting, getElem?_insert_id, if_neg hid] at hm
    exact hs.address id node m hn hm

theorem agrees_init (localNode : CacheNode) (replicationFactor : ℕ) (bootMs : UInt64) :
    Agrees (.init localNode replicationFactor bootMs) := by
  refine ⟨present_init localNode replicationFactor bootMs, ?_⟩
  intro id node m hn hm
  simp only [State.init, State.publishRouting, getElem?_insert_id] at hn hm
  split at hn
  · rename_i hid
    rw [if_pos hid] at hm
    rw [← Option.some.inj hn, ← Option.some.inj hm]
  · simp at hn

/-- **Membership table, node map and ring agree**, in every state reached by operations that apply
no entry which moves a node on the ring: the node map holds exactly the entries that are alive,
with their addresses, the ring holds the nodes of the map, and no point of the ring belongs to
another node. -/
theorem membership_agrees {localNode : CacheNode} {replicationFactor : ℕ} {bootMs : UInt64}
    (hr : run step (.init localNode replicationFactor bootMs) ops = some s)
    (hA : Along step (OpMeets AddressKept) (.init localNode replicationFactor bootMs) ops) :
    (∀ (id : NodeId) (node : CacheNode), s.nodes[id]? = some node ↔
      ∃ m, s.members[id]? = some m ∧ m.status = .alive ∧ m.node = node) ∧
      (∀ id : NodeId, s.ring.physicalNodes[id]? = s.nodes[id]?) ∧
      ∀ (h : UInt32) (node : CacheNode), s.ring.points[h]? = some node →
        s.nodes[node.id]? = some node := by
  have hs : Agrees s := run_invariant
    (fun _ _ _ hs hP h => step_rule (fun _ _ _ _ hs hm h => hs.applies hm h)
      (fun _ _ _ hs => ⟨⟨hs.present.own, hs.present.key, hs.present.alive, hs.present.ring,
        hs.present.valid⟩, hs.address⟩) (fun _ hs => hs.leave) hs hP h)
    (agrees_init localNode replicationFactor bootMs) hA hr
  refine ⟨fun id node => ⟨?_, ?_⟩, hs.present.ring, ?_⟩
  · intro hn
    obtain ⟨m, hm, hst⟩ := (hs.present.alive id).mp (by rw [hn]; rfl)
    exact ⟨m, hm, hst, (hs.address id node m hn hm).symm⟩
  · rintro ⟨m, hm, hst, rfl⟩
    obtain ⟨node, hn⟩ := Option.isSome_iff_exists.mp ((hs.present.alive id).mpr ⟨m, hm, hst⟩)
    rw [hn, hs.address id node m hn hm]
  · intro h node hp
    rw [← hs.present.ring]
    exact (hs.present.valid h node hp).1

/-- Node `[120]` leaves the ring, and comes back at another address. -/
def rejoinedNode : List Op :=
  [.addNode ⟨[120], [], 7002⟩, .mergeGossip [⟨⟨[120], [], 7002⟩, 2, .left⟩],
    .mergeGossip [⟨⟨[120], [], 7003⟩, 3, .alive⟩], .leave]

theorem membership_agrees_rejoinedNode :
    ∃ s, run step (.init ⟨[97], [], 7001⟩ 3 5) rejoinedNode = some s ∧
      s.members[([120] : NodeId)]? = some ⟨⟨[120], [], 7003⟩, 3, .alive⟩ ∧
      s.nodes[([120] : NodeId)]? = some ⟨[120], [], 7003⟩ := by
  have hrun : (run step (.init ⟨[97], [], 7001⟩ 3 5) rejoinedNode).map
      (fun s => s.members[([120] : NodeId)]?) = some (some ⟨⟨[120], [], 7003⟩, 3, .alive⟩) := by
    decide
  obtain ⟨s, hs, hm⟩ := Option.map_eq_some_iff.mp hrun
  exact ⟨s, hs, hm, ((membership_agrees hs (by decide)).1 _ _).mpr ⟨_, hm, rfl, rfl⟩⟩

end ShardCache.Membership
