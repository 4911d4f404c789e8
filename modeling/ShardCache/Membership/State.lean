import ShardCache.Foundations.Run
import ShardCache.Cluster.RoutingTable

/-!
# Membership of one node

A node keeps a table of the members it has heard of. Each entry carries a generation, and the entry
of the higher generation wins. Entries that are alive are on the ring, and the routing table is
built from the ring whenever a change is published. The node's own entry is its own: it outranks a
newer entry about itself instead of obeying it.

## Main definitions

* `MemberInfo`, `State`: an entry of the table; the node map, the ring, the table and the routing
* `State.applyMember`, `State.mergeGossip`, `State.addNode`, `State.removeNode`, `State.leave`
* `Op`, `step`: the operations in any order
* `Applies`: what one entry can do

## Main results

* `applies_applyMember`: every entry does one of these things
-/

namespace ShardCache

/-- `MemberStatus`. -/
inductive MemberStatus where
  | alive
  | left
deriving DecidableEq, Repr

/-- `MemberInfo`: the entry of one node in the membership table. -/
structure MemberInfo where
  node : CacheNode
  generation : UInt64 := 0
  status : MemberStatus := .alive
deriving DecidableEq, Repr

namespace Membership

open Foundations

/-- The state of a `Cluster` that membership reads and writes; `rebalanceRequested` is what wakes the
rebalancing thread. -/
structure State where
  localNode : CacheNode
  replicationFactor : ℕ
  ring : ConsistentHashRing := {}
  nodes : Std.ExtTreeMap NodeId CacheNode := ∅
  nodeHealth : Std.ExtTreeMap NodeId Bool := ∅
  members : Std.ExtTreeMap NodeId MemberInfo := ∅
  routing : RoutingTable := {}
  rebalanceRequested : Bool := false

/-- The out-parameters of `apply_member_locked`. -/
structure Changes where
  added : List CacheNode := []
  removed : List NodeId := []
deriving DecidableEq, Repr

/-- What `apply_member_locked` leaves behind: the state, the out-parameters, and whether the ring
changed. -/
structure Applied where
  state : State
  changes : Changes := {}
  changed : Bool := false

namespace State

/-- The table built from the ring. -/
def currentTable (s : State) : RoutingTable :=
  .build s.ring s.replicationFactor s.localNode.id

/-- `publish_routing_locked`. -/
def publishRouting (s : State) : State := { s with routing := s.currentTable }

/-- `init_common`. -/
def init (localNode : CacheNode) (replicationFactor : ℕ) (bootMs : UInt64) : State :=
  let ring := ({} : ConsistentHashRing).addNode localNode
  publishRouting
    { localNode := localNode
      replicationFactor := replicationFactor
      ring := ring
      nodes := (∅ : Std.ExtTreeMap NodeId CacheNode).insert localNode.id localNode
      nodeHealth := (∅ : Std.ExtTreeMap NodeId Bool).insert localNode.id true
      members := (∅ : Std.ExtTreeMap NodeId MemberInfo).insert localNode.id
        ⟨localNode, bootMs, .alive⟩ }

/-- `apply_member_locked`, once the entry is accepted. -/
def store (s : State) (m : MemberInfo) (c : Changes) : Applied :=
  let s := { s with members := s.members.insert m.node.id m }
  let inRing := s.nodes.contains m.node.id
  if m.status == .alive && !inRing then
    { state :=
        { s with
          nodes := s.nodes.insert m.node.id m.node
          ring := s.ring.addNode m.node
          nodeHealth := s.nodeHealth.insert m.node.id true }
      changes := { c with added := c.added ++ [m.node] }
      changed := true }
  else if m.status == .left && inRing then
    { state :=
        { s with
          ring := s.ring.removeNode m.node.id
          nodes := s.nodes.erase m.node.id
          nodeHealth := s.nodeHealth.erase m.node.id }
      changes := { c with removed := c.removed ++ [m.node.id] }
      changed := true }
  else { state := s, changes := c }

/-- `apply_member_locked`: an entry that is not newer is ignored, and one about this node is
outranked. -/
def applyMember (s : State) (m : MemberInfo) (c : Changes) : Applied :=
  match s.members[m.node.id]? with
  | none => s.store m c
  | some known =>
    if known.generation ≥ m.generation then { state := s, changes := c }
    else if m.node.id = s.localNode.id then
      { state :=
          { s with
            members := s.members.insert m.node.id
              { known with generation := m.generation + 1 } }
        changes := c }
    else s.store m c

/-- `after_membership_change`. -/
def afterMembershipChange (s : State) (c : Changes) : State :=
  if !c.added.isEmpty || !c.removed.isEmpty then { s with rebalanceRequested := true } else s

/-- `members`: the entries of the table. -/
def view (s : State) : List MemberInfo := s.members.toList.map Prod.snd

end State

/-- One iteration of the loop of `merge_gossip`. -/
def Applied.next (a : Applied) (m : MemberInfo) : Applied :=
  let b := a.state.applyMember m a.changes
  { b with changed := b.changed || a.changed }

namespace State

/-- The loop of `merge_gossip`. -/
def applyMembers (s : State) (remote : List MemberInfo) : Applied :=
  remote.foldl Applied.next { state := s }

/-- `Cluster::merge_gossip`: the state after the merge, and the merged view. -/
def mergeGossip (s : State) (remote : List MemberInfo) : State × List MemberInfo :=
  let a := s.applyMembers remote
  let s := if a.changed then a.state.publishRouting else a.state
  (s.afterMembershipChange a.changes, s.view)

/-- `Cluster::add_node`: statically configured peers enter at generation 0. -/
def addNode (s : State) (node : CacheNode) : State := (s.mergeGossip [⟨node, 0, .alive⟩]).1

/-- `Cluster::remove_node`. -/
def removeNode (s : State) (id : NodeId) : State :=
  match s.members[id]? with
  | none => s
  | some known =>
    let gone : MemberInfo := ⟨known.node, known.generation + 1, .left⟩
    let a := s.applyMember gone {}
    a.state.afterMembershipChange a.changes

/-- `Cluster::leave`, under the lock. The exchanges with the peers that follow are merges of their
replies, and rebalancing leaves membership alone. -/
def leave (s : State) : State :=
  let id := s.localNode.id
  let self := (s.members[id]?).getD ⟨{ id := [] }, 0, .alive⟩
  publishRouting
    { s with
      members := s.members.insert id { self with generation := self.generation + 1, status := .left }
      ring := s.ring.removeNode id
      nodes := s.nodes.erase id }

end State

/-- An operation on a `Cluster`. -/
inductive Op where
  | addNode (node : CacheNode)
  | removeNode (id : NodeId)
  | mergeGossip (remote : List MemberInfo)
  | leave
deriving DecidableEq, Repr

/-- The operations never fail. -/
def step (s : State) : Op → Option State
  | .addNode node => some (s.addNode node)
  | .removeNode id => some (s.removeNode id)
  | .mergeGossip remote => some (s.mergeGossip remote).1
  | .leave => some s.leave

/-! ## What one entry does -/

/-- The entry is newer than what the table has, and not about this node. -/
def Accepts (s : State) (m : MemberInfo) : Prop :=
  ∀ known ∈ s.members[m.node.id]?, known.generation < m.generation ∧ m.node.id ≠ s.localNode.id

instance (s : State) (m : MemberInfo) : Decidable (Accepts s m) :=
  inferInstanceAs (Decidable (∀ known ∈ s.members[m.node.id]?, _))

/-- What an entry can do: `Applies s m s' changed` says that `m` takes `s` to `s'`, and whether the
ring changed. -/
inductive Applies (s : State) (m : MemberInfo) : State → Bool → Prop
  | ignored {known : MemberInfo} (found : s.members[m.node.id]? = some known)
      (old : m.generation ≤ known.generation) : Applies s m s false
  | outranked {known : MemberInfo} (found : s.members[m.node.id]? = some known)
      (new : known.generation < m.generation) (self : m.node.id = s.localNode.id) :
      Applies s m
        { s with
          members := s.members.insert m.node.id { known with generation := m.generation + 1 } }
        false
  | joined (accepted : Accepts s m) (status : m.status = .alive)
      (out : s.nodes[m.node.id]? = none) :
      Applies s m
        { s with
          members := s.members.insert m.node.id m
          nodes := s.nodes.insert m.node.id m.node
          ring := s.ring.addNode m.node
          nodeHealth := s.nodeHealth.insert m.node.id true }
        true
  | departed {node : CacheNode} (accepted : Accepts s m) (status : m.status = .left)
      (present : s.nodes[m.node.id]? = some node) :
      Applies s m
        { s with
          members := s.members.insert m.node.id m
          ring := s.ring.removeNode m.node.id
          nodes := s.nodes.erase m.node.id
          nodeHealth := s.nodeHealth.erase m.node.id }
        true
  | replaced (accepted : Accepts s m)
      (same : m.status = .alive ↔ (s.nodes[m.node.id]?).isSome) :
      Applies s m { s with members := s.members.insert m.node.id m } false

theorem applies_store {s : State} {m : MemberInfo} (h : Accepts s m) (c : Changes) :
    Applies s m (s.store m c).state (s.store m c).changed := by
  have hcontains : s.nodes.contains m.node.id = (s.nodes[m.node.id]?).isSome :=
    Std.ExtTreeMap.contains_eq_isSome_getElem?
  unfold State.store
  simp only [hcontains]
  cases hn : s.nodes[m.node.id]? with
  | none =>
    cases hst : m.status with
    | alive => simpa using Applies.joined h hst hn
    | left => simpa using Applies.replaced h (by simp [hst, hn])
  | some node =>
    cases hst : m.status with
    | alive => simpa using Applies.replaced h (by simp [hst, hn])
    | left => simpa using Applies.departed h hst hn

/-- **One entry**: it is ignored, outranked, or accepted, with the change of the ring it asks for. -/
theorem applies_applyMember (s : State) (m : MemberInfo) (c : Changes) :
    Applies s m (s.applyMember m c).state (s.applyMember m c).changed := by
  unfold State.applyMember
  cases hk : s.members[m.node.id]? with
  | none => exact applies_store (by simp [Accepts, hk]) c
  | some known =>
    simp only
    split
    · exact .ignored hk ‹_›
    · rename_i hgen
      replace hgen : known.generation < m.generation := not_le.mp hgen
      split
      · exact .outranked hk hgen ‹_›
      · refine applies_store ?_ c
        intro k hk'
        obtain rfl := Option.some.inj (hk.symm.trans hk')
        exact ⟨hgen, ‹_›⟩

theorem Applies.localNode {s s' : State} {m : MemberInfo} {b : Bool} (h : Applies s m s' b) :
    s'.localNode = s.localNode := by
  cases h <;> rfl

/-- What an entry does to the table alone. -/
theorem Applies.members {s s' : State} {m : MemberInfo} {b : Bool} (h : Applies s m s' b) :
    (∃ known, s.members[m.node.id]? = some known ∧ m.generation ≤ known.generation ∧
        s'.members = s.members) ∨
      (∃ known, s.members[m.node.id]? = some known ∧ known.generation < m.generation ∧
        m.node.id = s.localNode.id ∧
        s'.members = s.members.insert m.node.id { known with generation := m.generation + 1 }) ∨
      (Accepts s m ∧ s'.members = s.members.insert m.node.id m) := by
  cases h with
  | ignored found old => exact Or.inl ⟨_, found, old, rfl⟩
  | outranked found new self => exact Or.inr (Or.inl ⟨_, found, new, self, rfl⟩)
  | joined accepted => exact Or.inr (Or.inr ⟨accepted, rfl⟩)
  | departed accepted => exact Or.inr (Or.inr ⟨accepted, rfl⟩)
  | replaced accepted => exact Or.inr (Or.inr ⟨accepted, rfl⟩)

/-! ## Operations entry by entry -/

section Rules

variable {P : State → MemberInfo → Prop} {I : State → Prop} {s s' : State}

/-- The out-parameters do not matter to the state. -/
theorem state_applyMember (s : State) (m : MemberInfo) (c : Changes) :
    (s.applyMember m c).state = (s.applyMember m {}).state := by
  unfold State.applyMember State.store
  split
  · simp only
    split
    · rfl
    · split <;> rfl
  · split
    · rfl
    · split
      · rfl
      · simp only
        split
        · rfl
        · split <;> rfl

/-- The entries of a list, one after the other, meet the condition `P` in their turn. -/
def EntriesMeet (P : State → MemberInfo → Prop) (s : State) (remote : List MemberInfo) : Prop :=
  Along (fun s m => some (s.applyMember m {}).state) P s remote

/-- The entries that an operation applies meet the condition `P` in their turn. -/
def OpMeets (P : State → MemberInfo → Prop) (s : State) : Op → Prop
  | .addNode node => P s ⟨node, 0, .alive⟩
  | .removeNode id => ∀ known ∈ s.members[id]?, P s ⟨known.node, known.generation + 1, .left⟩
  | .mergeGossip remote => EntriesMeet P s remote
  | .leave => True

instance [∀ s m, Decidable (P s m)] (s : State) (op : Op) : Decidable (OpMeets P s op) :=
  match op with
  | .addNode node => inferInstanceAs (Decidable (P s ⟨node, 0, .alive⟩))
  | .removeNode id => inferInstanceAs (Decidable (∀ known ∈ s.members[id]?, _))
  | .mergeGossip remote => Along.decidable _ P s remote
  | .leave => .isTrue trivial

theorem opMeets_of_forall (h : ∀ s m, P s m) (s : State) (op : Op) : OpMeets P s op := by
  cases op with
  | addNode node => exact h _ _
  | removeNode id => exact fun _ _ => h _ _
  | mergeGossip remote => exact along_of_forall h s remote
  | leave => trivial

/-- **Rule for merges**: what every entry keeps, the loop of `merge_gossip` keeps. -/
theorem foldl_next_rule (happly : ∀ s m s' b, I s → P s m → Applies s m s' b → I s')
    {remote : List MemberInfo} {a : Applied} (ha : I a.state) (hP : EntriesMeet P a.state remote) :
    I (remote.foldl Applied.next a).state := by
  induction remote generalizing a with
  | nil => exact ha
  | cons m remote ih =>
    have hnext : (a.next m).state = (a.state.applyMember m {}).state := state_applyMember ..
    refine ih (a := a.next m) ?_ ?_
    · exact happly _ _ _ _ ha hP.1 (applies_applyMember a.state m a.changes)
    · rw [hnext]
      exact hP.2 _ rfl

/-- **Rule for operations**: what every entry keeps, what `leave` keeps, and what does not depend on
the routing table, every operation keeps. -/
theorem step_rule {op : Op} (happly : ∀ s m s' b, I s → P s m → Applies s m s' b → I s')
    (hrouting : ∀ s r b, I s → I { s with routing := r, rebalanceRequested := b })
    (hleave : op = .leave → I s → I s.leave) (hs : I s) (hP : OpMeets P s op)
    (h : step s op = some s') : I s' := by
  have hafter (s : State) (c : Changes) (hs : I s) : I (s.afterMembershipChange c) := by
    unfold State.afterMembershipChange
    split
    · exact hrouting s s.routing true hs
    · exact hs
  have hmerge (remote : List MemberInfo) (hP : EntriesMeet P s remote) :
      I (s.mergeGossip remote).1 := by
    have ha : I (s.applyMembers remote).state := foldl_next_rule (a := { state := s }) happly hs hP
    refine hafter _ _ ?_
    split
    · exact hrouting _ _ _ ha
    · exact ha
  cases op with
  | addNode node =>
    obtain rfl := Option.some.inj h
    exact hmerge _ ⟨hP, fun _ _ => trivial⟩
  | removeNode id =>
    obtain rfl := Option.some.inj h
    unfold State.removeNode
    cases hk : s.members[id]? with
    | none => exact hs
    | some known => exact hafter _ _ (happly _ _ _ _ hs (hP known hk) (applies_applyMember ..))
  | mergeGossip remote =>
    obtain rfl := Option.some.inj h
    exact hmerge _ hP
  | leave =>
    obtain rfl := Option.some.inj h
    exact hleave rfl hs

end Rules

end Membership

end ShardCache
