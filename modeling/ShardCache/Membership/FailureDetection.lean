import ShardCache.Foundations.Hysteresis
import ShardCache.Membership.State

/-!
# Failure detection

The health checker of a node probes the other members in rounds. It counts the failures and the
successes in a row of each of them, and tells the cluster when a member goes down, after three
failures, or comes back, after two successes. The cluster keeps its own copy of the verdicts. Members
join and leave while a round is under way; the events of a round are delivered at its end.

## Main definitions

* `NodeHealthState.observe`: what one probe does to the counters and the status of a member
* `HealthChecker`: the members that are probed, and their states
* `FailureDetection.State`, `FailureDetection.step`: the cluster and its checker, probe by probe
* `FailureDetection.probes`: the outcomes of the probes of one member
* `Tracks`: the state of a member is determined by the outcomes of its probes

## Main results

* `Tracks.observe`: one probe
* `FailureDetection.follows_probes`: a member is unhealthy exactly if its history says so, and after
  every round the cluster agrees
-/

namespace ShardCache

open Foundations Foundations.Hysteresis

/-! ## The health checker -/

/-- `NodeHealth`. -/
inductive NodeHealth where
  | healthy
  | suspect
  | unhealthy
deriving DecidableEq, Repr

/-- `NodeHealthState`. -/
structure NodeHealthState where
  status : NodeHealth := .healthy
  failures : ℤ := 0
  successes : ℤ := 0
deriving DecidableEq, Repr

/-- The increment of an `int`. C++ leaves open what an overflow does; `overflow` is what is stored
then. -/
def increment (overflow n : ℤ) : ℤ := if n = 2 ^ 31 - 1 then overflow else n + 1

/-- One probe, as `run_check` handles it: the state after it, and the event if there is one. -/
def NodeHealthState.observe (overflow : ℤ) (state : NodeHealthState) (healthy : Bool) :
    NodeHealthState × Option Bool :=
  if healthy then
    let state := { state with failures := 0, successes := increment overflow state.successes }
    if state.status ≠ .healthy ∧ state.successes ≥ 2 then
      ({ state with status := .healthy }, some true)
    else (state, none)
  else
    let state := { state with successes := 0, failures := increment overflow state.failures }
    let state :=
      if state.status = .healthy ∧ state.failures ≥ 1 then { state with status := .suspect }
      else state
    if state.status ≠ .unhealthy ∧ state.failures ≥ 3 then
      ({ state with status := .unhealthy }, some false)
    else (state, none)

/-- `HealthChecker`: `nodes_` and `node_states_`. -/
structure HealthChecker where
  nodes : List CacheNode := []
  nodeStates : Std.ExtTreeMap NodeId NodeHealthState := ∅

namespace HealthChecker

/-- `HealthChecker::add_node`. -/
def addNode (h : HealthChecker) (node : CacheNode) : HealthChecker where
  nodes := h.nodes ++ [node]
  nodeStates := h.nodeStates.insert node.id {}

/-- `HealthChecker::remove_node`. -/
def removeNode (h : HealthChecker) (id : NodeId) : HealthChecker where
  nodes := h.nodes.filter fun node => node.id ≠ id
  nodeStates := h.nodeStates.erase id

/-- `HealthChecker::get_node_health`. -/
def getNodeHealth (h : HealthChecker) (id : NodeId) : NodeHealth :=
  match h.nodeStates[id]? with
  | some state => state.status
  | none => .unhealthy

/-- What `after_membership_change` tells the checker. -/
def afterMembershipChange (h : HealthChecker) (localId : NodeId) (c : Membership.Changes) :
    HealthChecker :=
  let h := c.added.foldl (fun h node => if node.id ≠ localId then h.addNode node else h) h
  -- a node that departs and comes back in one batch is removed last
  c.removed.foldl removeNode h

end HealthChecker

/-! ## The counters and the history -/

/-- The state of a member, from the outcomes of its probes. The counters are those of the runs at the
end of the history, as far as the status looks at them. -/
structure Tracks (h : List Bool) (state : NodeHealthState) : Prop where
  unhealthy : state.status = .unhealthy ↔ Down 3 2 h
  failures : state.status ≠ .unhealthy → state.failures = trailing false h ∧ trailing false h ≤ 2
  successes : state.status ≠ .healthy → state.successes = trailing true h ∧ trailing true h ≤ 1

theorem tracks_nil : Tracks [] {} where
  unhealthy := by simp [not_down_nil (show 0 < 3 by decide)]
  failures _ := by simp
  successes h := absurd rfl h

theorem increment_of_lt {overflow n : ℤ} (h : n ≤ 2) : increment overflow n = n + 1 :=
  if_neg (by omega)

/-- What a successful probe does: the second one in a row makes a member healthy that is not. -/
theorem observe_success (overflow : ℤ) (state : NodeHealthState) :
    state.observe overflow true =
      if state.status ≠ .healthy ∧ increment overflow state.successes ≥ 2 then
        (⟨.healthy, 0, increment overflow state.successes⟩, some true)
      else (⟨state.status, 0, increment overflow state.successes⟩, none) := rfl

/-- What a failed probe does: the third one in a row makes a member unhealthy. -/
theorem observe_failure (overflow : ℤ) (state : NodeHealthState) :
    state.observe overflow false =
      if state.status ≠ .unhealthy ∧ increment overflow state.failures ≥ 3 then
        (⟨.unhealthy, increment overflow state.failures, 0⟩, some false)
      else
        (⟨if state.status = .healthy ∧ increment overflow state.failures ≥ 1 then .suspect
          else state.status, increment overflow state.failures, 0⟩, none) := by
  unfold NodeHealthState.observe
  cases state.status with
  | healthy =>
    by_cases h1 : increment overflow state.failures ≥ 1
    · simp [h1]
    · have h3 : ¬increment overflow state.failures ≥ 3 := by omega
      simp [h1, h3]
  | suspect => simp
  | unhealthy => simp

/-- An event says whether the member is up after the probe; without an event, nothing changed. -/
def Announces (before : NodeHealthState) (after : NodeHealthState × Option Bool) : Prop :=
  after.2 = some (decide (after.1.status ≠ .unhealthy)) ∨
    after.2 = none ∧ (after.1.status = .unhealthy ↔ before.status = .unhealthy)

variable {h : List Bool} {state : NodeHealthState}

theorem Tracks.success (hs : Tracks h state) (overflow : ℤ) :
    Tracks (h ++ [true]) (state.observe overflow true).1 ∧
      Announces state (state.observe overflow true) := by
  have hdown : Down 3 2 (h ++ [true]) ↔ Down 3 2 h ∧ trailing true h + 1 < 2 :=
    down_append_true (by decide)
  have hfailures : trailing false (h ++ [true]) = 0 := trailing_append_of_ne (by decide) h
  rw [observe_success]
  by_cases hhealthy : state.status = .healthy
  · -- a healthy member stays healthy, whatever its counter is
    have hup : ¬Down 3 2 h := by
      rw [← hs.unhealthy, hhealthy]
      decide
    rw [if_neg (by simp [hhealthy])]
    refine ⟨⟨?_, fun _ => ?_, fun hne => absurd hhealthy hne⟩, Or.inr ⟨rfl, Iff.rfl⟩⟩
    · simp [hhealthy, hdown, hup]
    · simp [hfailures]
  · obtain ⟨hcount, hle⟩ := hs.successes hhealthy
    rw [increment_of_lt (by omega), hcount]
    by_cases hsecond : trailing true h = 1
    · -- the second success in a row
      rw [if_pos ⟨hhealthy, by omega⟩]
      refine ⟨⟨?_, fun _ => ?_, fun hne => absurd rfl hne⟩, Or.inl rfl⟩
      · simp [hdown, hsecond]
      · simp [hfailures]
    · rw [if_neg (by omega)]
      refine ⟨⟨?_, fun _ => ?_, fun _ => ?_⟩, Or.inr ⟨rfl, Iff.rfl⟩⟩
      · rw [hdown, hs.unhealthy]
        exact ⟨fun hd => ⟨hd, by omega⟩, fun hd => hd.1⟩
      · simp [hfailures]
      · simp
        omega

theorem Tracks.failure (hs : Tracks h state) (overflow : ℤ) :
    Tracks (h ++ [false]) (state.observe overflow false).1 ∧
      Announces state (state.observe overflow false) := by
  have hdown : Down 3 2 (h ++ [false]) ↔ Down 3 2 h ∨ 3 ≤ trailing false h + 1 :=
    down_append_false (by decide)
  have hsuccesses : trailing true (h ++ [false]) = 0 := trailing_append_of_ne (by decide) h
  rw [observe_failure]
  by_cases hunhealthy : state.status = .unhealthy
  · -- an unhealthy member stays unhealthy, whatever its counter is
    rw [if_neg (by simp [hunhealthy]), if_neg (by simp [hunhealthy])]
    refine ⟨⟨?_, fun hne => absurd hunhealthy hne, fun _ => ?_⟩, Or.inr ⟨rfl, Iff.rfl⟩⟩
    · simp [hdown, ← hs.unhealthy, hunhealthy]
    · simp [hsuccesses]
  · obtain ⟨hcount, hle⟩ := hs.failures hunhealthy
    have hup : ¬Down 3 2 h := fun hd => hunhealthy (hs.unhealthy.mpr hd)
    rw [increment_of_lt (by omega), hcount]
    by_cases hthird : trailing false h = 2
    · -- the third failure in a row
      rw [if_pos ⟨hunhealthy, by omega⟩]
      refine ⟨⟨?_, fun hne => absurd rfl hne, fun _ => ?_⟩, Or.inl rfl⟩
      · simp [hdown, hthird]
      · simp [hsuccesses]
    · have hstatus : (if state.status = .healthy ∧ (trailing false h : ℤ) + 1 ≥ 1 then
          NodeHealth.suspect else state.status) ≠ .unhealthy := by
        split
        · decide
        · exact hunhealthy
      have hstill : ¬Down 3 2 (h ++ [false]) := by
        rw [hdown]
        exact not_or.mpr ⟨hup, by omega⟩
      rw [if_neg (by omega)]
      refine ⟨⟨iff_of_false hstatus hstill, fun _ => ?_, fun _ => ?_⟩,
        Or.inr ⟨rfl, iff_of_false hstatus hunhealthy⟩⟩
      · simp
        omega
      · simp [hsuccesses]

/-- **One probe** keeps the state in step with the history, and an event announces the new status. -/
theorem Tracks.observe (hs : Tracks h state) (overflow : ℤ) (healthy : Bool) :
    Tracks (h ++ [healthy]) (state.observe overflow healthy).1 ∧
      Announces state (state.observe overflow healthy) := by
  cases healthy with
  | true => exact hs.success overflow
  | false => exact hs.failure overflow

/-! ## Who is probed -/

namespace Membership

/-- The out-parameters of `apply_member_locked` that an operation passes to
`after_membership_change`. -/
def changes (s : State) : Op → Changes
  | .addNode node => (s.applyMembers [⟨node, 0, .alive⟩]).changes
  | .removeNode id =>
    match s.members[id]? with
    | none => {}
    | some known => (s.applyMember ⟨known.node, known.generation + 1, .left⟩ {}).changes
  | .mergeGossip remote => (s.applyMembers remote).changes
  | .leave => {}

/-- `Cluster::set_node_health`. -/
def State.setNodeHealth (s : State) (id : NodeId) (healthy : Bool) : State :=
  { s with nodeHealth := s.nodeHealth.insert id healthy }

variable {s : State} {id : NodeId} {a a' a'' : Applied}

/-- What one entry does to the ring and to the out-parameters: nothing, or its node joins, or it
departs. -/
inductive Reported (s : State) (m : MemberInfo) (c : Changes) : Applied → Prop
  | still {a : Applied} (changes : a.changes = c) (nodes : a.state.nodes = s.nodes)
      (nodeHealth : a.state.nodeHealth = s.nodeHealth) : Reported s m c a
  | joined {a : Applied} (out : s.nodes[m.node.id]? = none)
      (changes : a.changes = { c with added := c.added ++ [m.node] })
      (nodes : a.state.nodes = s.nodes.insert m.node.id m.node)
      (nodeHealth : a.state.nodeHealth = s.nodeHealth.insert m.node.id true) : Reported s m c a
  | departed {a : Applied} (changes : a.changes = { c with removed := c.removed ++ [m.node.id] })
      (nodes : a.state.nodes = s.nodes.erase m.node.id)
      (nodeHealth : a.state.nodeHealth = s.nodeHealth.erase m.node.id) : Reported s m c a

theorem reported_store (s : State) (m : MemberInfo) (c : Changes) :
    Reported s m c (s.store m c) := by
  unfold State.store
  dsimp only
  split
  · rename_i hjoin
    have hout : s.nodes[m.node.id]? = none := by
      rw [Bool.and_eq_true, Bool.not_eq_true', Std.ExtTreeMap.contains_eq_isSome_getElem?,
        Option.isSome_eq_false_iff, Option.isNone_iff_eq_none] at hjoin
      exact hjoin.2
    exact .joined hout rfl rfl rfl
  · split
    · exact .departed rfl rfl rfl
    · exact .still rfl rfl rfl

theorem reported_applyMember (s : State) (m : MemberInfo) (c : Changes) :
    Reported s m c (s.applyMember m c) := by
  unfold State.applyMember
  split
  · exact reported_store s m c
  · split
    · exact .still rfl rfl rfl
    · split
      · exact .still rfl rfl rfl
      · exact reported_store s m c

/-- The entries of the out-parameter that concern the node `id`. -/
def addedAs (id : NodeId) (c : Changes) : List CacheNode := c.added.filter fun node => node.id = id

/-- A node that is not removed stays as it is, or joins once, healthy. -/
def Keeps (id : NodeId) (s s' : State) (added added' : List CacheNode) : Prop :=
  (s'.nodes[id]? = s.nodes[id]? ∧ s'.nodeHealth[id]? = s.nodeHealth[id]? ∧ added' = added) ∨
    (s.nodes[id]? = none ∧ s'.nodes[id]? ≠ none ∧ s'.nodeHealth[id]? = some true ∧
      ∃ node, node.id = id ∧ added' = added ++ [node])

theorem Keeps.trans {s s' s'' : State} {l l' l'' : List CacheNode} (h : Keeps id s s' l l')
    (h' : Keeps id s' s'' l' l'') : Keeps id s s'' l l'' := by
  rcases h with ⟨hnodes, hhealth, rfl⟩ | ⟨hout, hin, hhealth, hadded⟩
  · rcases h' with ⟨hnodes', hhealth', rfl⟩ | ⟨hout', hin', hhealth', hadded'⟩
    · exact Or.inl ⟨hnodes'.trans hnodes, hhealth'.trans hhealth, rfl⟩
    · exact Or.inr ⟨hnodes ▸ hout', hin', hhealth', hadded'⟩
  · rcases h' with ⟨hnodes', hhealth', rfl⟩ | ⟨hout', -⟩
    · exact Or.inr ⟨hout, hnodes' ▸ hin, hhealth'.trans hhealth, hadded⟩
    · exact absurd hout' hin

/-- One entry, for a node that is not among those removed. -/
theorem keeps_applyMember (s : State) (m : MemberInfo) (c : Changes)
    (hremoved : id ∉ (s.applyMember m c).changes.removed) :
    id ∉ c.removed ∧
      Keeps id s (s.applyMember m c).state (addedAs id c)
        (addedAs id (s.applyMember m c).changes) := by
  have hreported := reported_applyMember s m c
  generalize s.applyMember m c = a at hremoved hreported
  cases hreported with
  | still hchanges hnodes hhealth =>
    rw [hchanges] at hremoved ⊢
    exact ⟨hremoved, Or.inl ⟨by rw [hnodes], by rw [hhealth], rfl⟩⟩
  | joined hout hchanges hnodes hhealth =>
    rw [hchanges] at hremoved ⊢
    refine ⟨hremoved, ?_⟩
    by_cases hid : m.node.id = id
    · subst hid
      refine Or.inr ⟨hout, ?_, ?_, m.node, rfl, ?_⟩
      · simp [hnodes]
      · simp [hhealth]
      · simp [addedAs]
    · refine Or.inl ⟨?_, ?_, ?_⟩
      · simp [hnodes, Std.ExtTreeMap.getElem?_insert, hid]
      · simp [hhealth, Std.ExtTreeMap.getElem?_insert, hid]
      · simp [addedAs, hid]
  | departed hchanges hnodes hhealth =>
    rw [hchanges] at hremoved ⊢
    simp only [List.mem_append, List.mem_singleton, not_or] at hremoved
    refine ⟨hremoved.1, Or.inl ⟨?_, ?_, rfl⟩⟩
    · simp [hnodes, Std.ExtTreeMap.getElem?_erase, Ne.symm hremoved.2]
    · simp [hhealth, Std.ExtTreeMap.getElem?_erase, Ne.symm hremoved.2]

/-- The loop of `merge_gossip`, for a node that is not among those removed. -/
theorem keeps_foldl_next (remote : List MemberInfo) (a : Applied)
    (hremoved : id ∉ (remote.foldl Applied.next a).changes.removed) :
    id ∉ a.changes.removed ∧
      Keeps id a.state (remote.foldl Applied.next a).state (addedAs id a.changes)
        (addedAs id (remote.foldl Applied.next a).changes) := by
  induction remote generalizing a with
  | nil => exact ⟨hremoved, Or.inl ⟨rfl, rfl, rfl⟩⟩
  | cons m remote ih =>
    obtain ⟨hnext, hkeeps⟩ := ih (a.next m) hremoved
    obtain ⟨hfirst, hkeeps'⟩ := keeps_applyMember a.state m a.changes hnext
    exact ⟨hfirst, hkeeps'.trans hkeeps⟩

/-- What an operation publishes and requests afterwards leaves the nodes and their health alone. -/
theorem nodes_afterMembershipChange (s : State) (c : Changes) :
    (s.afterMembershipChange c).nodes = s.nodes ∧
      (s.afterMembershipChange c).nodeHealth = s.nodeHealth := by
  unfold State.afterMembershipChange
  split <;> exact ⟨rfl, rfl⟩

theorem Keeps.congr {s s' t : State} {l l' : List CacheNode} (h : Keeps id s s' l l')
    (hnodes : t.nodes = s'.nodes) (hhealth : t.nodeHealth = s'.nodeHealth) : Keeps id s t l l' := by
  unfold Keeps at h ⊢
  rwa [hnodes, hhealth]

theorem keeps_mergeGossip (s : State) (remote : List MemberInfo)
    (hremoved : id ∉ (s.applyMembers remote).changes.removed) :
    Keeps id s (s.mergeGossip remote).1 [] (addedAs id (s.applyMembers remote).changes) := by
  have hkeeps := (keeps_foldl_next remote { state := s } hremoved).2
  refine hkeeps.congr ?_ ?_
  · simp only [State.mergeGossip, nodes_afterMembershipChange]
    split <;> rfl
  · simp only [State.mergeGossip, nodes_afterMembershipChange]
    split <;> rfl

/-- **An operation that does not remove a node** leaves it as it is, or lets it join, healthy. -/
theorem keeps_step {s' : State} {op : Op} (h : step s op = some s') (hlocal : id ≠ s.localNode.id)
    (hremoved : id ∉ (changes s op).removed) : Keeps id s s' [] (addedAs id (changes s op)) := by
  cases op with
  | addNode node =>
    obtain rfl := Option.some.inj h
    exact keeps_mergeGossip s _ hremoved
  | mergeGossip remote =>
    obtain rfl := Option.some.inj h
    exact keeps_mergeGossip s remote hremoved
  | removeNode id' =>
    obtain rfl := Option.some.inj h
    cases hknown : s.members[id']? with
    | none =>
      simp only [changes, State.removeNode, hknown]
      exact Or.inl ⟨rfl, rfl, rfl⟩
    | some known =>
      simp only [changes, State.removeNode, hknown] at hremoved ⊢
      have hkeeps := (keeps_applyMember s ⟨known.node, known.generation + 1, .left⟩ {} hremoved).2
      obtain ⟨hnodes, hhealth⟩ := nodes_afterMembershipChange
        (s.applyMember ⟨known.node, known.generation + 1, .left⟩ {}).state
        (s.applyMember ⟨known.node, known.generation + 1, .left⟩ {}).changes
      exact hkeeps.congr hnodes hhealth
  | leave =>
    obtain rfl := Option.some.inj h
    refine Or.inl ⟨?_, rfl, rfl⟩
    simp [State.leave, State.publishRouting, Std.ExtTreeMap.getElem?_erase, Ne.symm hlocal]

theorem localNode_step {s' : State} {op : Op} (h : step s op = some s') :
    s'.localNode = s.localNode := by
  refine step_rule (I := fun t => t.localNode = s.localNode) (P := fun _ _ => True) ?_ ?_ ?_ rfl
    (opMeets_of_forall (fun _ _ => trivial) s op) h
  · intro t m t' b ht _ happly
    rw [happly.localNode, ht]
  · exact fun _ _ _ ht => ht
  · exact fun _ ht => ht

end Membership

namespace HealthChecker

variable {h : HealthChecker} {id localId : NodeId}

/-- A node that is added starts healthy. -/
theorem nodeStates_foldl_addNode (hlocal : id ≠ localId) (added : List CacheNode)
    (h : HealthChecker) :
    (added.foldl (fun h node => if node.id ≠ localId then h.addNode node else h) h).nodeStates[id]? =
      if (added.filter fun node => node.id = id) = [] then h.nodeStates[id]? else some {} := by
  induction added generalizing h with
  | nil => rfl
  | cons node added ih =>
    rw [List.foldl_cons, ih, List.filter_cons]
    by_cases hid : node.id = id
    · simp [hid, hlocal, addNode]
    · by_cases hself : node.id = localId
      · simp [hself, Ne.symm hlocal]
      · simp [hid, hself, addNode, Std.ExtTreeMap.getElem?_insert]

theorem mem_nodes_foldl_addNode {node : CacheNode} (added : List CacheNode) (h : HealthChecker)
    (hnode : node ∈
      (added.foldl (fun h node => if node.id ≠ localId then h.addNode node else h) h).nodes) :
    node ∈ h.nodes ∨ node ∈ added ∧ node.id ≠ localId := by
  induction added generalizing h with
  | nil => exact Or.inl hnode
  | cons first added ih =>
    rcases ih _ hnode with hold | ⟨hnew, hforeign⟩
    · dsimp only at hold
      split at hold
      · rename_i hforeign
        rcases List.mem_append.mp hold with hold | hfirst
        · exact Or.inl hold
        · obtain rfl := List.mem_singleton.mp hfirst
          exact Or.inr ⟨List.mem_cons_self, hforeign⟩
      · exact Or.inl hold
    · exact Or.inr ⟨List.mem_cons_of_mem _ hnew, hforeign⟩

theorem nodeStates_foldl_removeNode (removed : List NodeId) (hid : id ∉ removed)
    (h : HealthChecker) : (removed.foldl removeNode h).nodeStates[id]? = h.nodeStates[id]? := by
  induction removed generalizing h with
  | nil => rfl
  | cons id' removed ih =>
    rw [List.mem_cons, not_or] at hid
    obtain ⟨hne, hid⟩ := hid
    rw [List.foldl_cons, ih hid]
    simp [removeNode, Std.ExtTreeMap.getElem?_erase, Ne.symm hne]

theorem mem_nodes_foldl_removeNode {node : CacheNode} (removed : List NodeId) (h : HealthChecker)
    (hnode : node ∈ (removed.foldl removeNode h).nodes) : node ∈ h.nodes ∧ node.id ∉ removed := by
  induction removed generalizing h with
  | nil => exact ⟨hnode, List.not_mem_nil⟩
  | cons id removed ih =>
    obtain ⟨hmem, hremoved⟩ := ih _ hnode
    obtain ⟨hold, hne⟩ := List.mem_filter.mp hmem
    exact ⟨hold, List.not_mem_cons_of_ne_of_not_mem (of_decide_eq_true hne) hremoved⟩

/-- What the checker knows of a node that is not removed: it stays, or starts anew. -/
theorem nodeStates_afterMembershipChange {c : Membership.Changes} (hlocal : id ≠ localId)
    (hremoved : id ∉ c.removed) :
    (h.afterMembershipChange localId c).nodeStates[id]? =
      if Membership.addedAs id c = [] then h.nodeStates[id]? else some {} := by
  rw [afterMembershipChange, nodeStates_foldl_removeNode _ hremoved,
    nodeStates_foldl_addNode hlocal]
  rfl

/-- A node that is probed after a change was not removed; it was probed before, or it joined and is
not the local one. -/
theorem mem_nodes_afterMembershipChange {c : Membership.Changes} {node : CacheNode}
    (hnode : node ∈ (h.afterMembershipChange localId c).nodes) :
    node.id ∉ c.removed ∧ (node ∈ h.nodes ∨ node ∈ c.added ∧ node.id ≠ localId) := by
  obtain ⟨hmem, hremoved⟩ := mem_nodes_foldl_removeNode _ _ hnode
  exact ⟨hremoved, mem_nodes_foldl_addNode _ _ hmem⟩

/-- A node that the checker did not know, and that does not join, is not probed. -/
theorem nodes_afterMembershipChange {c : Membership.Changes}
    (hadded : Membership.addedAs id c = []) (hnodes : ∀ node ∈ h.nodes, node.id ≠ id) :
    ∀ node ∈ (h.afterMembershipChange localId c).nodes, node.id ≠ id := by
  intro node hnode
  rcases (mem_nodes_afterMembershipChange hnode).2 with hold | ⟨hnew, -⟩
  · exact hnodes node hold
  · simpa using List.filter_eq_nil_iff.mp hadded node hnew

end HealthChecker

/-! ## The cluster and its checker -/

namespace FailureDetection

/-- A round of `run_check`: the nodes still to be probed, and the events not yet delivered. -/
structure Check where
  targets : List CacheNode
  events : List (NodeId × Bool) := []

/-- A cluster and its health checker, and the round that is under way. -/
structure State where
  cluster : Membership.State
  checker : HealthChecker := {}
  check : Option Check := none

/-- A step: an operation on the membership table, or a step of `run_check`. -/
inductive Label where
  | membership (op : Membership.Op)
  | startCheck
  | probe (id : NodeId) (healthy : Bool)
  | deliver
  | finishCheck
deriving DecidableEq, Repr

/-- A node that has just started. -/
def init (localNode : CacheNode) (replicationFactor : ℕ) (bootMs : UInt64) : State where
  cluster := .init localNode replicationFactor bootMs

/-- A round copies the list of nodes and probes one after the other; then it delivers its events to
`set_node_health`, in order. The membership changes in between. -/
def step (overflow : ℤ) (s : State) : Label → Option State
  | .membership op => (Membership.step s.cluster op).map fun cluster =>
    { s with
      cluster := cluster
      checker := s.checker.afterMembershipChange s.cluster.localNode.id
        (Membership.changes s.cluster op) }
  | .startCheck =>
    match s.check with
    | none => some { s with check := some { targets := s.checker.nodes } }
    | some _ => none
  | .probe id healthy =>
    match s.check with
    | some ⟨node :: targets, events⟩ =>
      if node.id = id then
        -- `node_states_[node.id]` makes a fresh state for a node that was removed meanwhile
        let (state, event) := ((s.checker.nodeStates[id]?).getD {}).observe overflow healthy
        some { s with
          checker := { s.checker with nodeStates := s.checker.nodeStates.insert id state }
          check := some ⟨targets, events ++ (event.map fun healthy => (id, healthy)).toList⟩ }
      else none
    | _ => none
  | .deliver =>
    match s.check with
    | some ⟨[], (id, healthy) :: events⟩ => some { s with
        cluster := s.cluster.setNodeHealth id healthy
        check := some ⟨[], events⟩ }
    | _ => none
  | .finishCheck =>
    match s.check with
    | some ⟨[], []⟩ => some { s with check := none }
    | _ => none

/-- The outcomes of the probes of one node. -/
def probes (id : NodeId) (ls : List Label) : List Bool :=
  ls.filterMap fun
    | .probe id' healthy => if id' = id then some healthy else none
    | _ => none

/-- The step does not remove the node `id`. -/
def Spares (id : NodeId) (s : State) : Label → Prop
  | .membership op => id ∉ (Membership.changes s.cluster op).removed
  | _ => True

instance (id : NodeId) (s : State) (l : Label) : Decidable (Spares id s l) :=
  match l with
  | .membership _ => inferInstanceAs (Decidable (_ ∉ _))
  | .startCheck | .probe .. | .deliver | .finishCheck => .isTrue trivial

/-- The health of a node once the events are delivered. -/
def announced (id : NodeId) (events : List (NodeId × Bool)) (health : Option Bool) : Option Bool :=
  events.foldl (fun health e => if e.1 = id then some e.2 else health) health

/-- The events that are not yet delivered. -/
def State.pending (s : State) : List (NodeId × Bool) := (s.check.map Check.events).getD []

variable {overflow : ℤ} {s s₀ s' : State} {l : Label} {ls before : List Label} {id : NodeId}
  {h : List Bool}

/-- No node that is still to be probed, and no event that is not yet delivered, is of the node `id`. -/
def State.Unconcerned (s : State) (id : NodeId) : Prop :=
  (∀ e ∈ s.pending, e.1 ≠ id) ∧ ∀ c ∈ s.check, ∀ node ∈ c.targets, node.id ≠ id

/-- The checker probes only nodes on the ring, and never the local one. -/
structure Known (localNode : CacheNode) (s : State) : Prop where
  fixed : s.cluster.localNode = localNode
  nodes : ∀ node ∈ s.checker.nodes, node.id ≠ localNode.id ∧ s.cluster.nodes[node.id]? ≠ none

theorem known_init (localNode : CacheNode) (replicationFactor : ℕ) (bootMs : UInt64) :
    Known localNode (init localNode replicationFactor bootMs) :=
  ⟨rfl, by simp [init]⟩

theorem Known.membership {localNode : CacheNode} {op : Membership.Op} (hk : Known localNode s)
    (hs : step overflow s (.membership op) = some s') : Known localNode s' := by
  obtain ⟨cluster, hcluster, rfl⟩ := Option.map_eq_some_iff.mp hs
  refine ⟨(Membership.localNode_step hcluster).trans hk.fixed, fun node hnode => ?_⟩
  obtain ⟨hremoved, hsource⟩ := HealthChecker.mem_nodes_afterMembershipChange hnode
  rw [hk.fixed] at hsource
  have hforeign : node.id ≠ localNode.id :=
    hsource.elim (fun hold => (hk.nodes node hold).1) fun hnew => hnew.2
  refine ⟨hforeign, ?_⟩
  rcases Membership.keeps_step hcluster (hk.fixed ▸ hforeign) hremoved with
    ⟨hnodes, -, hadded⟩ | ⟨-, hin, -⟩
  · -- it did not join, so it was probed before
    rcases hsource with hold | ⟨hnew, -⟩
    · exact fun hnone => (hk.nodes node hold).2 (hnodes ▸ hnone)
    · have hmem : node ∈ Membership.addedAs node.id (Membership.changes s.cluster op) :=
        List.mem_filter.mpr ⟨hnew, by simp⟩
      exact absurd (hadded ▸ hmem) List.not_mem_nil
  · exact hin

/-- **One step.** A round changes neither the ring nor the list of nodes to probe. -/
theorem Known.step {localNode : CacheNode} (hk : Known localNode s)
    (hs : FailureDetection.step overflow s l = some s') : Known localNode s' := by
  cases l with
  | membership op => exact hk.membership hs
  | startCheck | probe | deliver | finishCheck =>
    rw [FailureDetection.step] at hs
    repeat' split at hs
    all_goals cases hs
    all_goals exact ⟨hk.fixed, hk.nodes⟩

theorem Known.run {localNode : CacheNode} (hk : Known localNode s)
    (hr : Foundations.run (FailureDetection.step overflow) s ls = some s') : Known localNode s' :=
  run_invariant (fun _ _ _ hk _ h => hk.step h) hk (along_true _ _) hr

/-- What is true of a node that is not removed: as long as it is not on the ring, the checker has
not heard of it; then its state follows its history, and the events that are not yet delivered bring
the cluster in step with it. -/
structure Watched (id : NodeId) (s : State) (h : List Bool) : Prop where
  foreign : id ≠ s.cluster.localNode.id
  absent : s.cluster.nodes[id]? = none →
    h = [] ∧ (∀ node ∈ s.checker.nodes, node.id ≠ id) ∧ s.Unconcerned id
  present : s.cluster.nodes[id]? ≠ none →
    ∃ state, s.checker.nodeStates[id]? = some state ∧ Tracks h state ∧
      announced id s.pending s.cluster.nodeHealth[id]? =
        some (decide (state.status ≠ .unhealthy))

theorem announced_of_forall_ne {events : List (NodeId × Bool)} (he : ∀ e ∈ events, e.1 ≠ id)
    (health : Option Bool) : announced id events health = health := by
  induction events generalizing health with
  | nil => rfl
  | cons e events ih =>
    rw [List.forall_mem_cons] at he
    rw [announced, List.foldl_cons, if_neg he.1]
    exact ih he.2 health

/-- A node that is not on the ring has no history yet. -/
theorem Known.watched {localNode : CacheNode} (hk : Known localNode s) (hid : id ≠ localNode.id)
    (hout : s.cluster.nodes[id]? = none) (hround : s.Unconcerned id) : Watched id s [] where
  foreign := hk.fixed ▸ hid
  absent _ := by
    refine ⟨rfl, fun node hnode heq => ?_, hround⟩
    exact (hk.nodes node hnode).2 (heq ▸ hout)
  present hin := absurd hout hin

/-! ## One step -/

theorem Watched.membership {op : Membership.Op} (hw : Watched id s h)
    (hspares : id ∉ (Membership.changes s.cluster op).removed)
    (hs : step overflow s (.membership op) = some s') : Watched id s' h := by
  obtain ⟨cluster, hcluster, rfl⟩ := Option.map_eq_some_iff.mp hs
  have hstates := HealthChecker.nodeStates_afterMembershipChange (h := s.checker) hw.foreign hspares
  rcases Membership.keeps_step hcluster hw.foreign hspares with ⟨hnodes, hhealth, hadded⟩ |
    ⟨hout, hin, hhealth, node, -, hadded⟩
  · -- the node stays as it is
    refine ⟨?_, fun habsent => ?_, fun hpresent => ?_⟩
    · rw [Membership.localNode_step hcluster]
      exact hw.foreign
    · obtain ⟨hhistory, hunknown, hevents, htargets⟩ := hw.absent (hnodes.symm.trans habsent)
      exact ⟨hhistory, HealthChecker.nodes_afterMembershipChange hadded hunknown, hevents, htargets⟩
    · obtain ⟨state, hstate, htracks, hannounced⟩ := hw.present (hnodes ▸ hpresent)
      refine ⟨state, ?_, htracks, ?_⟩
      · rw [hstates, if_pos hadded, hstate]
      · rw [← hannounced, ← hhealth]
        rfl
  · -- the node joins, and no event is about it
    obtain ⟨rfl, -, hevents, -⟩ := hw.absent hout
    refine ⟨?_, fun habsent => absurd habsent hin, fun _ => ⟨{}, ?_, tracks_nil, ?_⟩⟩
    · rw [Membership.localNode_step hcluster]
      exact hw.foreign
    · rw [hstates, if_neg (by simp [hadded])]
    · exact (announced_of_forall_ne hevents _).trans hhealth

theorem Watched.startCheck (hw : Watched id s h) (hs : step overflow s .startCheck = some s') :
    Watched id s' h := by
  unfold step at hs
  cases hcheck : s.check with
  | some c => simp [hcheck] at hs
  | none =>
    simp only [hcheck, Option.some.injEq] at hs
    subst hs
    have hpending : s.pending = [] := by simp [State.pending, hcheck]
    refine ⟨hw.foreign, fun habsent => ?_, fun hpresent => ?_⟩
    · obtain ⟨hhistory, hunknown, -, -⟩ := hw.absent habsent
      refine ⟨hhistory, hunknown, by simp [State.pending], ?_⟩
      rintro c hc
      obtain rfl := Option.some.inj hc
      exact hunknown
    · obtain ⟨state, hstate, htracks, hannounced⟩ := hw.present hpresent
      rw [hpending] at hannounced
      exact ⟨state, hstate, htracks, hannounced⟩

/-- What a probe does. -/
theorem step_probe {healthy : Bool} (hs : step overflow s (.probe id healthy) = some s') :
    ∃ node targets events, s.check = some ⟨node :: targets, events⟩ ∧ node.id = id ∧
      s' = { s with
        checker := { s.checker with
          nodeStates := s.checker.nodeStates.insert id
            (((s.checker.nodeStates[id]?).getD {}).observe overflow healthy).1 }
        check := some ⟨targets, events ++ ((((s.checker.nodeStates[id]?).getD {}).observe overflow
          healthy).2.map fun healthy => (id, healthy)).toList⟩ } := by
  rw [FailureDetection.step] at hs
  split at hs
  · rename_i node targets events hcheck
    obtain ⟨hid, hs⟩ := Option.ite_none_right_eq_some.mp hs
    exact ⟨node, targets, events, hcheck, hid, (Option.some.inj hs).symm⟩
  · cases hs

/-- A probe of another node. -/
theorem Watched.probe_of_ne {id' : NodeId} {healthy : Bool} (hw : Watched id s h) (hid : id' ≠ id)
    (hs : step overflow s (.probe id' healthy) = some s') : Watched id s' h := by
  obtain ⟨node, targets, events, hcheck, -, rfl⟩ := step_probe hs
  generalize ((s.checker.nodeStates[id']?).getD {}).observe overflow healthy = observed
  have hpending : s.pending = events := by simp [State.pending, hcheck]
  have hother : ∀ e ∈ (observed.2.map fun healthy => (id', healthy)).toList, e.1 ≠ id := by
    intro e he
    obtain ⟨event, -, rfl⟩ := Option.map_eq_some_iff.mp (Option.mem_toList.mp he)
    exact hid
  refine ⟨hw.foreign, fun habsent => ?_, fun hpresent => ?_⟩
  · obtain ⟨hhistory, hunknown, hevents, htargets⟩ := hw.absent habsent
    rw [hpending] at hevents
    refine ⟨hhistory, hunknown, ?_, ?_⟩
    · intro e he
      rcases List.mem_append.mp he with he | he
      · exact hevents e he
      · exact hother e he
    · intro c hc
      obtain rfl := Option.some.inj hc
      exact fun n hn => htargets _ hcheck n (List.mem_cons_of_mem _ hn)
  · obtain ⟨state, hstate, htracks, hannounced⟩ := hw.present hpresent
    rw [hpending] at hannounced
    refine ⟨state, ?_, htracks, ?_⟩
    · simp [Std.ExtTreeMap.getElem?_insert, hid, hstate]
    · rw [← hannounced]
      show announced id (events ++ _) _ = _
      rw [announced, List.foldl_append]
      exact announced_of_forall_ne hother _

/-- A probe of the node itself. -/
theorem Watched.probe_self {healthy : Bool} (hw : Watched id s h)
    (hs : step overflow s (.probe id healthy) = some s') : Watched id s' (h ++ [healthy]) := by
  obtain ⟨node, targets, events, hcheck, hnode, rfl⟩ := step_probe hs
  have hpending : s.pending = events := by simp [State.pending, hcheck]
  refine ⟨hw.foreign, fun habsent => ?_, fun hpresent => ?_⟩
  · -- a node that is not on the ring is not probed
    obtain ⟨-, -, -, htargets⟩ := hw.absent habsent
    exact absurd hnode (htargets _ hcheck node List.mem_cons_self)
  · obtain ⟨state, hstate, htracks, hannounced⟩ := hw.present hpresent
    rw [hpending] at hannounced
    obtain ⟨htracks', hevent⟩ := htracks.observe overflow healthy
    rw [hstate, Option.getD_some]
    refine ⟨(state.observe overflow healthy).1, by simp, htracks', ?_⟩
    show announced id (events ++ _) _ = _
    rw [announced, List.foldl_append]
    rcases hevent with hevent | ⟨hevent, hsame⟩
    · simp [hevent]
    · rw [hevent]
      refine hannounced.trans ?_
      simp [hsame]

theorem Watched.deliver (hw : Watched id s h) (hs : step overflow s .deliver = some s') :
    Watched id s' h := by
  rw [FailureDetection.step] at hs
  split at hs
  · rename_i id' healthy events hcheck
    obtain rfl := Option.some.inj hs
    have hpending : s.pending = (id', healthy) :: events := by simp [State.pending, hcheck]
    refine ⟨hw.foreign, fun habsent => ?_, fun hpresent => ?_⟩
    · obtain ⟨hhistory, hunknown, hevents, -⟩ := hw.absent habsent
      rw [hpending, List.forall_mem_cons] at hevents
      refine ⟨hhistory, hunknown, hevents.2, ?_⟩
      intro c hc
      obtain rfl := Option.some.inj hc
      exact fun n hn => absurd hn List.not_mem_nil
    · obtain ⟨state, hstate, htracks, hannounced⟩ := hw.present hpresent
      rw [hpending] at hannounced
      refine ⟨state, hstate, htracks, ?_⟩
      rw [← hannounced]
      -- the first event is delivered, the others are still to come
      show announced id events (s.cluster.nodeHealth.insert id' healthy)[id]? = _
      rw [Std.ExtTreeMap.getElem?_insert]
      simp [announced]
  · cases hs

theorem Watched.finishCheck (hw : Watched id s h) (hs : step overflow s .finishCheck = some s') :
    Watched id s' h := by
  rw [FailureDetection.step] at hs
  split at hs
  · rename_i hcheck
    obtain rfl := Option.some.inj hs
    have hpending : s.pending = [] := by simp [State.pending, hcheck]
    refine ⟨hw.foreign, fun habsent => ?_, fun hpresent => ?_⟩
    · obtain ⟨hhistory, hunknown, -, -⟩ := hw.absent habsent
      exact ⟨hhistory, hunknown, by simp [State.pending], by simp⟩
    · obtain ⟨state, hstate, htracks, hannounced⟩ := hw.present hpresent
      rw [hpending] at hannounced
      exact ⟨state, hstate, htracks, hannounced⟩
  · cases hs

/-- **One step.** -/
theorem Watched.step (hw : Watched id s h) (hspares : Spares id s l)
    (hs : FailureDetection.step overflow s l = some s') : Watched id s' (h ++ probes id [l]) := by
  cases l with
  | membership op => simpa [probes] using hw.membership hspares hs
  | startCheck => simpa [probes] using hw.startCheck hs
  | probe id' healthy =>
    by_cases hid : id' = id
    · subst hid
      simpa [probes] using hw.probe_self hs
    · simpa [probes, hid] using hw.probe_of_ne hid hs
  | deliver => simpa [probes] using hw.deliver hs
  | finishCheck => simpa [probes] using hw.finishCheck hs

/-- **Every run.** -/
theorem Watched.run (hw : Watched id s h) (hspares : Along (FailureDetection.step overflow) (Spares id) s ls)
    (hr : Foundations.run (FailureDetection.step overflow) s ls = some s') :
    Watched id s' (h ++ probes id ls) := by
  -- the history grows with the run, so it is the rule for histories that applies
  refine run_history (I := fun ls t => Watched id t (h ++ probes id ls)) ?_ ?_ hspares hr
  · intro ls t l t' _ ht hl hs
    rw [probes, List.filterMap_append, ← List.append_assoc]
    exact ht.step hl hs
  · rw [probes, List.filterMap_nil, List.append_nil]
    exact hw

/-- **Failure detection follows the history of the probes.** Take any reachable state in which a node
is not on the ring and the round that is under way, if there is one, has nothing to do with it, and
any run from there in which the node is not removed. From the time it is added, the checker takes it
for unhealthy exactly if its probes failed three times in a row and did not succeed twice in a row
since; and whenever no round is under way, the cluster has it marked as failed exactly if the checker
takes it for unhealthy. -/
theorem follows_probes {localNode : CacheNode} {replicationFactor : ℕ} {bootMs : UInt64}
    (hbefore : Foundations.run (FailureDetection.step overflow)
      (init localNode replicationFactor bootMs) before = some s₀)
    (hout : s₀.cluster.nodes[id]? = none) (hround : s₀.Unconcerned id)
    (hr : Foundations.run (FailureDetection.step overflow) s₀ ls = some s)
    (hspares : Along (FailureDetection.step overflow) (Spares id) s₀ ls)
    (hadded : ∃ node ∈ s.checker.nodes, node.id = id) :
    (s.checker.getNodeHealth id = .unhealthy ↔ Down 3 2 (probes id ls)) ∧
      (s.check = none →
        (s.cluster.nodeHealth[id]? = some false ↔ s.checker.getNodeHealth id = .unhealthy)) := by
  have hknown₀ := (known_init localNode replicationFactor bootMs).run hbefore
  have hknown := hknown₀.run hr
  obtain ⟨node, hnode, hid⟩ := hadded
  obtain ⟨hforeign, hpresent⟩ := hknown.nodes node hnode
  rw [hid] at hforeign hpresent
  have hw := (hknown₀.watched hforeign hout hround).run hspares hr
  obtain ⟨state, hstate, htracks, hannounced⟩ := hw.present hpresent
  have hhealth : s.checker.getNodeHealth id = state.status := by
    simp [HealthChecker.getNodeHealth, hstate]
  rw [hhealth]
  refine ⟨htracks.unhealthy, fun hcheck => ?_⟩
  -- without a round, no event is left to be delivered
  have hpending : s.pending = [] := by simp [State.pending, hcheck]
  rw [hpending] at hannounced
  change s.cluster.nodeHealth[id]? = _ at hannounced
  simp [hannounced]

/-- Three rounds in which a member does not answer. -/
def threeFailures : List Label :=
  [.membership (.addNode ⟨[98], [], 1⟩), .startCheck, .probe [98] false, .finishCheck, .startCheck,
    .probe [98] false, .finishCheck, .startCheck, .probe [98] false, .deliver, .finishCheck]

/-- A member that fails three times in a row is marked as failed in the cluster. -/
theorem follows_probes_threeFailures :
    ∃ s, Foundations.run (FailureDetection.step 0) (init ⟨[97], [], 0⟩ 1 0) threeFailures = some s ∧
      s.checker.getNodeHealth [98] = .unhealthy ∧ s.cluster.nodeHealth[([98] : NodeId)]? = some false := by
  have hrun : ((Foundations.run (FailureDetection.step 0) (init ⟨[97], [], 0⟩ 1 0)
      threeFailures).map fun s => (s.checker.nodes, s.check.isNone)) =
      some ([⟨[98], [], 1⟩], true) := by decide
  have hspares : Along (FailureDetection.step 0) (Spares [98]) (init ⟨[97], [], 0⟩ 1 0)
      threeFailures := by decide
  obtain ⟨s, hs, hstate⟩ := Option.map_eq_some_iff.mp hrun
  obtain ⟨hnodes, hcheck⟩ := Prod.mk.inj hstate
  have hstart : Foundations.run (FailureDetection.step 0) (init ⟨[97], [], 0⟩ 1 0) [] =
      some (init ⟨[97], [], 0⟩ 1 0) := rfl
  obtain ⟨hhealth, hcluster⟩ := follows_probes hstart (by decide)
    ⟨by simp [init, State.pending], by simp [init]⟩ hs hspares
    ⟨⟨[98], [], 1⟩, by rw [hnodes]; exact List.mem_cons_self, rfl⟩
  have hdown : s.checker.getNodeHealth [98] = .unhealthy :=
    hhealth.mpr ⟨[], [], by decide, by decide⟩
  exact ⟨s, hs, hdown, (hcluster (Option.isNone_iff_eq_none.mp hcheck)).mpr hdown⟩

end FailureDetection

end ShardCache
