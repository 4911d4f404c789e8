import ShardCache.Membership.Agreement

/-!
# Gossip between nodes

Nodes exchange their membership tables. In one exchange a node sends its view to another, which
merges it and replies with its own; the reply is merged in turn. Operations, crashes and other
exchanges happen between the two merges, and messages can be lost.

## Main definitions

* `System`, `Msg`: the live nodes by their ids, and the views in flight
* `Label`, `gossipStep`: boots, crashes, operations and exchanges, in any order
* `System.pool`: every entry that some node or message holds
* `created`: the entries that a step brings into the pool

## Main results

* `pool_step`: an entry is in the pool already, or the step creates it
-/

namespace ShardCache.Membership

open Foundations ConsistentHashRing

/-! ## The system -/

/-- A view in flight: the request of an exchange, with the node that waits for the reply, or the
reply. -/
inductive Msg where
  | push (src dest : NodeId) (view : List MemberInfo)
  | reply (dest : NodeId) (view : List MemberInfo)
deriving DecidableEq, Repr

/-- The entries that a message carries. -/
def Msg.view : Msg → List MemberInfo
  | .push _ _ view | .reply _ view => view

/-- The live nodes, and the messages in flight. -/
structure System where
  live : Std.ExtTreeMap NodeId State := ∅
  net : List Msg := []

/-- The steps of the system. -/
inductive Label where
  /-- A node starts, or starts anew, with the given boot time. -/
  | boot (localNode : CacheNode) (replicationFactor : ℕ) (bootMs : UInt64)
  /-- A node crashes. -/
  | crash (n : NodeId)
  /-- An operation on a node: `add_node`, `remove_node` or `leave`. -/
  | op (n : NodeId) (op : Op)
  /-- Node `src` begins an exchange with `dest`. -/
  | exchange (src dest : NodeId)
  /-- The message at position `i` is delivered. -/
  | deliver (i : ℕ)
  /-- The message at position `i` is lost. -/
  | lose (i : ℕ)

/-- A message that waits for a process that is gone. -/
def Msg.repliesTo (n : NodeId) : Msg → Bool
  | .push .. => false
  | .reply dest _ => dest == n

/-- Replace the state of a live node. -/
def System.set (s : System) (n : NodeId) (st : State) : System :=
  { s with live := s.live.insert n st }

/-- The delivery of a message: a merge at a live node, which answers a request with its view. -/
def deliverMsg (s : System) : Msg → System
  | .push src dest view =>
    match s.live[dest]? with
    | none => s
    | some st =>
      let merged := st.mergeGossip view
      let s := s.set dest merged.1
      { s with net := s.net ++ [.reply src merged.2] }
  | .reply dest view =>
    match s.live[dest]? with
    | none => s
    | some st => s.set dest (st.mergeGossip view).1

/-- The step function of the system. -/
def gossipStep (s : System) : Label → Option System
  | .boot localNode replicationFactor bootMs =>
    some
      { live := s.live.insert localNode.id (.init localNode replicationFactor bootMs)
        net := s.net.filter fun m => !m.repliesTo localNode.id }
  | .crash n =>
    some { live := s.live.erase n, net := s.net.filter fun m => !m.repliesTo n }
  | .op n op =>
    match op with
    | .mergeGossip _ => none
    | _ => (s.live[n]?).bind fun st => (step st op).map fun st' => s.set n st'
  | .exchange src dest =>
    (s.live[src]?).map fun st => { s with net := s.net ++ [.push src dest st.view] }
  | .deliver i =>
    (s.net[i]?).map fun m => deliverMsg { s with net := s.net.eraseIdx i } m
  | .lose i => if i < s.net.length then some { s with net := s.net.eraseIdx i } else none

/-- Every entry that a live node or a message holds. -/
def System.pool (s : System) : List MemberInfo :=
  s.live.toList.flatMap (fun x => x.2.view) ++ s.net.flatMap Msg.view

/-! ## The entries that a step creates -/

/-- The entries with which a node outranks entries about itself, when it merges a view. -/
def State.outranks (st : State) (view : List MemberInfo) : List MemberInfo :=
  match st.members[st.localNode.id]? with
  | none => []
  | some self =>
    (view.filter fun m =>
      m.node.id == st.localNode.id && decide (self.generation < m.generation)).map fun m =>
        { self with generation := m.generation + 1 }

/-- The entry that an operation brings into the table of a node. -/
def State.creates (st : State) : Op → List MemberInfo
  | .addNode node => if st.members.contains node.id then [] else [⟨node, 0, .alive⟩]
  | .removeNode id =>
    match st.members[id]? with
    | none => []
    | some known =>
      -- a node that is asked to remove itself outranks the request
      if id = st.localNode.id then [{ known with generation := known.generation + 1 + 1 }]
      else [⟨known.node, known.generation + 1, .left⟩]
  | .mergeGossip _ => []
  | .leave =>
    match st.members[st.localNode.id]? with
    | none => []
    | some self => [{ self with generation := self.generation + 1, status := .left }]

/-- The node that a message is for. -/
def Msg.dest : Msg → NodeId
  | .push _ dest _ | .reply dest _ => dest

/-- The entries that a step brings into the pool. -/
def created (s : System) : Label → List MemberInfo
  | .boot localNode _ bootMs => [⟨localNode, bootMs, .alive⟩]
  | .op n op =>
    match s.live[n]? with
    | none => []
    | some st => st.creates op
  | .deliver i =>
    match s.net[i]? with
    | none => []
    | some m =>
      match s.live[m.dest]? with
      | none => []
      | some st => st.outranks m.view
  | _ => []

/-- Two entries of one generation for one node are one entry. -/
def SameGeneration (e e' : MemberInfo) : Prop :=
  e.node.id = e'.node.id → e.generation = e'.generation → e = e'

instance (e e' : MemberInfo) : Decidable (SameGeneration e e') :=
  inferInstanceAs (Decidable (_ → _ → _))

/-- The last generation, after which generations wrap. -/
def lastGeneration : UInt64 := 18446744073709551615

theorem lt_add_one_of_ne_last {g : UInt64} (h : g ≠ lastGeneration) : g < g + 1 := by
  simp only [lastGeneration] at h
  grind

theorem mem_view {st : State} {e : MemberInfo} :
    e ∈ st.view ↔ ∃ id : NodeId, st.members[id]? = some e := by
  simp only [State.view, List.mem_map, Prod.exists]
  constructor
  · rintro ⟨id, e', he, rfl⟩
    exact ⟨id, Std.ExtTreeMap.mem_toList_iff_getElem?_eq_some.mp he⟩
  · rintro ⟨id, he⟩
    exact ⟨id, e, Std.ExtTreeMap.mem_toList_iff_getElem?_eq_some.mpr he, rfl⟩

theorem mem_pool {s : System} {e : MemberInfo} :
    e ∈ s.pool ↔ (∃ (n : NodeId) (st : State), s.live[n]? = some st ∧ e ∈ st.view) ∨
      ∃ m ∈ s.net, e ∈ m.view := by
  simp only [System.pool, List.mem_append, List.mem_flatMap, Prod.exists]
  refine or_congr ?_ Iff.rfl
  constructor
  · rintro ⟨n, st, hn, he⟩
    exact ⟨n, st, Std.ExtTreeMap.mem_toList_iff_getElem?_eq_some.mp hn, he⟩
  · rintro ⟨n, st, hn, he⟩
    exact ⟨n, st, Std.ExtTreeMap.mem_toList_iff_getElem?_eq_some.mpr hn, he⟩

/-! ## Merges -/

section Merge

variable {st st' : State} {m e : MemberInfo} {b : Bool} {remote : List MemberInfo} {id : NodeId}

/-- An entry of the table after a merge, entry by entry: it was there, it was merged, or the node
outranked an entry about itself. The last case starts from the node's own entry as it was. -/
structure Merged (st : State) (remote : List MemberInfo) (me : MemberInfo) (st' : State) :
    Prop where
  present : Present st'
  localNode : st'.localNode = st.localNode
  own : ∃ g, st'.members[st.localNode.id]? = some { me with generation := g } ∧
    me.generation ≤ g
  entries : ∀ (id : NodeId) (e : MemberInfo), st'.members[id]? = some e →
    e ∈ st.view ∨ e ∈ remote ∨ e ∈ st.outranks remote

theorem mem_outranks {me : MemberInfo} (hme : st.members[st.localNode.id]? = some me)
    (hm : m ∈ remote) (hid : m.node.id = st.localNode.id) (hlt : me.generation < m.generation) :
    { me with generation := m.generation + 1 } ∈ st.outranks remote := by
  simp only [State.outranks, hme, List.mem_map, List.mem_filter, Bool.and_eq_true, beq_iff_eq,
    decide_eq_true_eq]
  exact ⟨m, ⟨hm, hid, hlt⟩, rfl⟩

theorem Merged.applies {me : MemberInfo} (hme : st.members[st.localNode.id]? = some me)
    {st₁ : State} (h : Merged st remote me st₁) (hm : m ∈ remote)
    (hlast : m.generation ≠ lastGeneration) (ha : Applies st₁ m st' b) :
    Merged st remote me st' := by
  have hlocal : st'.localNode = st.localNode := ha.localNode.trans h.localNode
  obtain ⟨g, hg, hle⟩ := h.own
  rcases ha.members with ⟨known, -, -, heq⟩ | ⟨known, hk, hlt, hid, heq⟩ | ⟨hacc, heq⟩
  · exact ⟨h.present.applies ha, hlocal, ⟨g, by rw [heq]; exact hg, hle⟩,
      fun id e he => h.entries id e (heq ▸ he)⟩
  · -- the entry is about this node
    rw [h.localNode] at hid
    rw [hid] at hk heq
    obtain rfl := Option.some.inj (hg.symm.trans hk)
    replace hlt : g < m.generation := hlt
    have hmem := mem_outranks hme hm hid (lt_of_le_of_lt hle hlt)
    refine ⟨h.present.applies ha, hlocal, ⟨m.generation + 1, ?_, ?_⟩, ?_⟩
    · rw [heq, getElem?_insert_id, if_pos rfl]
    · exact (hle.trans hlt.le).trans (lt_add_one_of_ne_last hlast).le
    · intro id e he
      rw [heq, getElem?_insert_id] at he
      split at he
      · obtain rfl := Option.some.inj he
        exact Or.inr (Or.inr hmem)
      · exact h.entries id e he
  · -- an accepted entry is about another node
    have hne : m.node.id ≠ st.localNode.id := h.localNode ▸ h.present.ne_local hacc
    refine ⟨h.present.applies ha, hlocal, ⟨g, ?_, hle⟩, ?_⟩
    · rw [heq, getElem?_insert_id, if_neg (Ne.symm hne), hg]
    · intro id e he
      rw [heq, getElem?_insert_id] at he
      split at he
      · obtain rfl := Option.some.inj he
        exact Or.inr (Or.inl hm)
      · exact h.entries id e he

/-- After the loop a merge changes only the routing table, and may wake the rebalancing thread. -/
theorem mergeGossip_eq_applyMembers (st : State) (remote : List MemberInfo) :
    ∃ r b, (st.mergeGossip remote).1 =
      { (st.applyMembers remote).state with routing := r, rebalanceRequested := b } := by
  unfold State.mergeGossip State.afterMembershipChange
  simp only
  split <;> split <;> exact ⟨_, _, rfl⟩

theorem members_mergeGossip (st : State) (remote : List MemberInfo) :
    (st.mergeGossip remote).1.members = (st.applyMembers remote).state.members := by
  obtain ⟨r, b, heq⟩ := mergeGossip_eq_applyMembers st remote
  rw [heq]

theorem view_mergeGossip (st : State) (remote : List MemberInfo) :
    (st.mergeGossip remote).2 = (st.mergeGossip remote).1.view := by
  rw [State.view, members_mergeGossip]
  simp only [State.mergeGossip, State.publishRouting, State.view]
  split <;> rfl

/-- **The entries of the table after a merge** were there, were merged, or outrank an entry about
the node itself. -/
theorem mem_view_mergeGossip (hp : Present st)
    (hlast : ∀ m ∈ remote, m.generation ≠ lastGeneration)
    (he : e ∈ (st.mergeGossip remote).1.view) :
    e ∈ st.view ∨ e ∈ remote ∨ e ∈ st.outranks remote := by
  obtain ⟨me, hme, -⟩ := hp.own
  have hinit : Merged st remote me ({ state := st } : Applied).state :=
    ⟨hp, rfl, ⟨me.generation, hme, le_rfl⟩, fun id e he => Or.inl (mem_view.mpr ⟨id, he⟩)⟩
  have h : Merged st remote me (st.applyMembers remote).state :=
    List.foldlRecOn (motive := fun a : Applied => Merged st remote me a.state) remote
      Applied.next hinit fun a ha m hm =>
        ha.applies hme hm (hlast m hm) (applies_applyMember a.state m a.changes)
  obtain ⟨id, he⟩ := mem_view.mp he
  rw [members_mergeGossip] at he
  exact h.entries id e he

/-- No generation is below that of a static entry. -/
theorem not_lt_zero_generation (g : UInt64) : ¬ g < 0 := by
  grind

theorem mem_view_addNode {node : CacheNode} (he : e ∈ (st.addNode node).view) :
    e ∈ st.view ∨ e ∈ st.creates (.addNode node) := by
  obtain ⟨id, he⟩ := mem_view.mp he
  rw [State.addNode, members_mergeGossip] at he
  rcases (applies_applyMember st ⟨node, 0, .alive⟩ {}).members with
    ⟨known, -, -, heq⟩ | ⟨known, -, hlt, -⟩ | ⟨hacc, heq⟩
  · exact Or.inl (mem_view.mpr ⟨id, heq ▸ he⟩)
  · exact absurd hlt (not_lt_zero_generation _)
  · replace he : (st.applyMember ⟨node, 0, .alive⟩ {}).state.members[id]? = some e := he
    rw [heq, getElem?_insert_id] at he
    split at he
    · obtain rfl := Option.some.inj he
      -- a node that is known has an entry that is as new
      have hnone : st.members[node.id]? = none := Option.eq_none_iff_forall_not_mem.mpr
        fun known hk => not_lt_zero_generation _ (hacc known hk).1
      refine Or.inr ?_
      rw [State.creates, Std.ExtTreeMap.contains_eq_isSome_getElem?, hnone]
      exact List.mem_singleton_self _
    · exact Or.inl (mem_view.mpr ⟨id, he⟩)

theorem mem_view_removeNode (hp : Present st) (he : e ∈ (st.removeNode id).view) :
    e ∈ st.view ∨ e ∈ st.creates (.removeNode id) := by
  obtain ⟨id', he⟩ := mem_view.mp he
  unfold State.removeNode at he
  cases hk : st.members[id]? with
  | none => exact Or.inl (mem_view.mpr ⟨id', by simpa [hk] using he⟩)
  | some known =>
    have hid : known.node.id = id := hp.key id known hk
    replace he : (st.applyMember ⟨known.node, known.generation + 1, .left⟩ {}).state.members[id']? =
        some e := by
      simp only [hk, State.afterMembershipChange] at he
      split at he <;> exact he
    rcases (applies_applyMember st ⟨known.node, known.generation + 1, .left⟩ {}).members with
      ⟨_, -, -, heq⟩ | ⟨known', hk', -, hlocal, heq⟩ | ⟨hacc, heq⟩
    · exact Or.inl (mem_view.mpr ⟨id', heq ▸ he⟩)
    · -- a node that removes itself outranks the removal
      rw [hid] at hk' hlocal
      obtain rfl := Option.some.inj (hk.symm.trans hk')
      rw [heq, getElem?_insert_id] at he
      split at he
      · obtain rfl := Option.some.inj he
        refine Or.inr ?_
        simp only [State.creates, hk, if_pos hlocal, List.mem_singleton]
      · exact Or.inl (mem_view.mpr ⟨id', he⟩)
    · have hne : id ≠ st.localNode.id := by
        rw [← hid]
        exact (hp.ne_local hacc :)
      rw [heq, getElem?_insert_id] at he
      split at he
      · obtain rfl := Option.some.inj he
        exact Or.inr (by simp [State.creates, hk, hne])
      · exact Or.inl (mem_view.mpr ⟨id', he⟩)

theorem mem_view_leave (hp : Present st) (he : e ∈ st.leave.view) :
    e ∈ st.view ∨ e ∈ st.creates .leave := by
  obtain ⟨me, hme, -⟩ := hp.own
  obtain ⟨id, he⟩ := mem_view.mp he
  simp only [State.leave, State.publishRouting, hme, Option.getD_some, getElem?_insert_id] at he
  split at he
  · obtain rfl := Option.some.inj he
    exact Or.inr (by simp [State.creates, hme])
  · exact Or.inl (mem_view.mpr ⟨id, he⟩)

end Merge

/-! ## The pool -/

/-- What the runs of the system keep: the tables name their nodes, no generation is the last, and
entries of one generation for one node are one entry. -/
structure Sound (s : System) : Prop where
  present : ∀ (n : NodeId) (st : State), s.live[n]? = some st → Present st
  room : ∀ e ∈ s.pool, e.generation ≠ lastGeneration
  unique : ∀ e ∈ s.pool, ∀ e' ∈ s.pool, SameGeneration e e'

variable {s s' : System} {l : Label} {e : MemberInfo}

/-- The state of one node is replaced, and messages are added. -/
theorem mem_pool_set {n : NodeId} {st : State} {net : List Msg}
    (he : e ∈ System.pool { live := s.live.insert n st, net := net }) :
    e ∈ st.view ∨ e ∈ s.pool ∨ ∃ m ∈ net, e ∈ m.view := by
  rcases mem_pool.mp he with ⟨n', st', hn', he⟩ | ⟨m, hm, he⟩
  · simp only [getElem?_insert_id] at hn'
    split at hn'
    · obtain rfl := Option.some.inj hn'
      exact Or.inl he
    · exact Or.inr (Or.inl (mem_pool.mpr (Or.inl ⟨n', st', hn', he⟩)))
  · exact Or.inr (Or.inr ⟨m, hm, he⟩)

theorem mem_pool_of_live {n : NodeId} {st : State} (hn : s.live[n]? = some st) (he : e ∈ st.view) :
    e ∈ s.pool := mem_pool.mpr (Or.inl ⟨n, st, hn, he⟩)

theorem mem_pool_of_net {m : Msg} (hm : m ∈ s.net) (he : e ∈ m.view) : e ∈ s.pool :=
  mem_pool.mpr (Or.inr ⟨m, hm, he⟩)

theorem mem_pool_of_subset {live : Std.ExtTreeMap NodeId State} {net : List Msg}
    (hlive : ∀ (n : NodeId) (st : State), live[n]? = some st → s.live[n]? = some st)
    (hnet : ∀ m ∈ net, m ∈ s.net) (he : e ∈ System.pool { live := live, net := net }) :
    e ∈ s.pool := by
  rcases mem_pool.mp he with ⟨n, st, hn, he⟩ | ⟨m, hm, he⟩
  · exact mem_pool_of_live (hlive n st hn) he
  · exact mem_pool_of_net (hnet m hm) he

/-- A merge at a live node brings in nothing but what it creates. -/
theorem mem_pool_merge (hs : Sound s) {n : NodeId} {st : State} {view : List MemberInfo}
    (hn : s.live[n]? = some st) (hview : ∀ m ∈ view, m ∈ s.pool)
    (he : e ∈ (st.mergeGossip view).1.view) : e ∈ s.pool ∨ e ∈ st.outranks view := by
  rcases mem_view_mergeGossip (hs.present n st hn) (fun m hm => hs.room m (hview m hm)) he with
    he | he | he
  · exact Or.inl (mem_pool_of_live hn he)
  · exact Or.inl (hview e he)
  · exact Or.inr he

/-- A message for a node that is gone does nothing. -/
theorem deliverMsg_of_none {m : Msg} (h : s.live[m.dest]? = none) : deliverMsg s m = s := by
  cases m with
  | push src dest view =>
    replace h : s.live[dest]? = none := h
    simp only [deliverMsg, h]
  | reply dest view =>
    replace h : s.live[dest]? = none := h
    simp only [deliverMsg, h]

/-- A message is merged, and a request is answered with the merged view. -/
theorem deliverMsg_of_some {m : Msg} {st : State} (h : s.live[m.dest]? = some st) :
    ∃ replies : List Msg, (∀ r ∈ replies, r.view = (st.mergeGossip m.view).1.view) ∧
      deliverMsg s m =
        { live := s.live.insert m.dest (st.mergeGossip m.view).1, net := s.net ++ replies } := by
  cases m with
  | push src dest view =>
    replace h : s.live[dest]? = some st := h
    refine ⟨[.reply src (st.mergeGossip view).2], ?_, ?_⟩
    · simp only [List.mem_singleton, forall_eq]
      exact view_mergeGossip st view
    · simp only [deliverMsg, h]
      rfl
  | reply dest view =>
    replace h : s.live[dest]? = some st := h
    refine ⟨[], by simp, ?_⟩
    simp only [deliverMsg, h, List.append_nil]
    rfl

theorem pool_deliver (hs : Sound s) {i : ℕ} (h : gossipStep s (.deliver i) = some s')
    (he : e ∈ s'.pool) : e ∈ s.pool ∨ e ∈ created s (.deliver i) := by
  obtain ⟨m, hm, rfl⟩ := Option.map_eq_some_iff.mp h
  have hview (e : MemberInfo) (he : e ∈ m.view) : e ∈ s.pool :=
    mem_pool_of_net (List.mem_of_getElem? hm) he
  have hrest : ∀ m' ∈ s.net.eraseIdx i, m' ∈ s.net := fun m' hm' => List.mem_of_mem_eraseIdx hm'
  cases hn : s.live[m.dest]? with
  | none =>
    rw [deliverMsg_of_none (by exact hn)] at he
    exact Or.inl (mem_pool_of_subset (fun _ _ h => h) hrest he)
  | some st =>
    simp only [created, hm, hn]
    obtain ⟨replies, hreplies, heq⟩ :=
      deliverMsg_of_some (s := { s with net := s.net.eraseIdx i }) (m := m) hn
    rw [heq] at he
    rcases mem_pool_set (s := s) he with he | he | ⟨m', hm', he⟩
    · exact mem_pool_merge hs hn hview he
    · exact Or.inl he
    · rcases List.mem_append.mp hm' with hm' | hm'
      · exact Or.inl (mem_pool_of_net (hrest m' hm') he)
      · rw [hreplies m' hm'] at he
        exact mem_pool_merge hs hn hview he

theorem op_cases {n : NodeId} {op : Op} (h : gossipStep s (.op n op) = some s') :
    ∃ st st', s.live[n]? = some st ∧ step st op = some st' ∧ s' = s.set n st' ∧
      ∀ remote, op ≠ .mergeGossip remote := by
  have hbind (hop : ∀ remote, op ≠ .mergeGossip remote)
      (h : ((s.live[n]?).bind fun st => (step st op).map fun st' => s.set n st') = some s') :
      ∃ st st', s.live[n]? = some st ∧ step st op = some st' ∧ s' = s.set n st' ∧
        ∀ remote, op ≠ .mergeGossip remote := by
    obtain ⟨st, hst, h⟩ := Option.bind_eq_some_iff.mp h
    obtain ⟨st', hst', rfl⟩ := Option.map_eq_some_iff.mp h
    exact ⟨st, st', hst, hst', rfl, hop⟩
  cases op with
  | mergeGossip remote => exact absurd h (by simp [gossipStep])
  | addNode node => exact hbind (by simp) h
  | removeNode id => exact hbind (by simp) h
  | leave => exact hbind (by simp) h

/-- The entries of a table after an operation were there, or the operation created them. -/
theorem mem_view_step {st st' : State} {op : Op} (hp : Present st)
    (hop : ∀ remote, op ≠ .mergeGossip remote) (h : step st op = some st') (he : e ∈ st'.view) :
    e ∈ st.view ∨ e ∈ st.creates op := by
  cases op with
  | addNode node =>
    obtain rfl := Option.some.inj h
    exact mem_view_addNode he
  | removeNode id =>
    obtain rfl := Option.some.inj h
    exact mem_view_removeNode hp he
  | mergeGossip remote => exact absurd rfl (hop remote)
  | leave =>
    obtain rfl := Option.some.inj h
    exact mem_view_leave hp he

theorem pool_op (hs : Sound s) {n : NodeId} {op : Op} (h : gossipStep s (.op n op) = some s')
    (he : e ∈ s'.pool) : e ∈ s.pool ∨ e ∈ created s (.op n op) := by
  obtain ⟨st, st', hn, hstep, rfl, hop⟩ := op_cases h
  simp only [created, hn]
  rcases mem_pool_set (s := s) he with he | he | ⟨m, hm, he⟩
  · exact (mem_view_step (hs.present n st hn) hop hstep he).imp_left (mem_pool_of_live hn)
  · exact Or.inl he
  · exact Or.inl (mem_pool_of_net hm he)

/-- **An entry is in the pool already, or the step creates it.** -/
theorem pool_step (hs : Sound s) (h : gossipStep s l = some s') (he : e ∈ s'.pool) :
    e ∈ s.pool ∨ e ∈ created s l := by
  cases l with
  | boot localNode replicationFactor bootMs =>
    obtain rfl := Option.some.inj h
    rcases mem_pool_set (s := s) he with he | he | ⟨m, hm, he⟩
    · -- the only entry of a new process is about itself
      obtain ⟨id, he⟩ := mem_view.mp he
      simp only [State.init, State.publishRouting, getElem?_insert_id] at he
      split at he
      · exact Or.inr (List.mem_singleton.mpr (Option.some.inj he).symm)
      · simp at he
    · exact Or.inl he
    · exact Or.inl (mem_pool_of_net (List.mem_of_mem_filter hm) he)
  | crash n =>
    obtain rfl := Option.some.inj h
    refine Or.inl (mem_pool_of_subset ?_
      (fun m hm => List.mem_of_mem_filter hm) he)
    intro n' st hn
    rw [getElem?_erase_id] at hn
    split at hn
    · simp at hn
    · exact hn
  | op n op => exact pool_op hs h he
  | exchange src dest =>
    obtain ⟨st, hst, rfl⟩ := Option.map_eq_some_iff.mp h
    rcases mem_pool.mp he with ⟨n, st', hn, he⟩ | ⟨m, hm, he⟩
    · exact Or.inl (mem_pool_of_live hn he)
    · rcases List.mem_append.mp hm with hm | hm
      · exact Or.inl (mem_pool_of_net hm he)
      · -- the message carries the view of its sender
        rw [List.mem_singleton.mp hm] at he
        exact Or.inl (mem_pool_of_live hst he)
  | deliver i => exact pool_deliver hs h he
  | lose i =>
    simp only [gossipStep] at h
    split at h
    · obtain rfl := Option.some.inj h
      exact Or.inl (mem_pool_of_subset (fun _ _ h => h) (fun _ hm => List.mem_of_mem_eraseIdx hm) he)
    · exact absurd h (by simp)

/-- The states of the live nodes after a step: as before, or after an operation or a merge, or
fresh. -/
theorem live_step (h : gossipStep s l = some s') {n : NodeId} {st' : State}
    (hn : s'.live[n]? = some st') :
    s.live[n]? = some st' ∨ (∃ st op, s.live[n]? = some st ∧ step st op = some st') ∨
      ∃ localNode replicationFactor bootMs, st' = .init localNode replicationFactor bootMs := by
  -- a label changes the state of one node
  have hset {m : NodeId} {st : State} (hn : (s.live.insert m st)[n]? = some st')
      (hst : m = n → (∃ st₀ op, s.live[n]? = some st₀ ∧ step st₀ op = some st) ∨
        ∃ localNode replicationFactor bootMs, st = .init localNode replicationFactor bootMs) :
      s.live[n]? = some st' ∨ (∃ st op, s.live[n]? = some st ∧ step st op = some st') ∨
        ∃ localNode replicationFactor bootMs, st' = .init localNode replicationFactor bootMs := by
    rw [getElem?_insert_id] at hn
    split at hn
    · obtain rfl := Option.some.inj hn
      exact Or.inr (hst (Eq.symm ‹_›))
    · exact Or.inl hn
  cases l with
  | boot localNode replicationFactor bootMs =>
    obtain rfl := Option.some.inj h
    exact hset hn fun _ => Or.inr ⟨_, _, _, rfl⟩
  | crash m =>
    obtain rfl := Option.some.inj h
    rw [getElem?_erase_id] at hn
    split at hn
    · simp at hn
    · exact Or.inl hn
  | op m op =>
    obtain ⟨st, st₁, hm, hstep, rfl, -⟩ := op_cases h
    refine hset hn fun heq => Or.inl ⟨st, op, ?_, hstep⟩
    rw [← heq]
    exact hm
  | exchange src dest =>
    obtain ⟨st, -, rfl⟩ := Option.map_eq_some_iff.mp h
    exact Or.inl hn
  | deliver i =>
    obtain ⟨m, hm, rfl⟩ := Option.map_eq_some_iff.mp h
    cases hd : s.live[m.dest]? with
    | none =>
      -- nobody is there to receive it
      rw [deliverMsg_of_none (by exact hd)] at hn
      exact Or.inl hn
    | some st =>
      obtain ⟨replies, -, heq⟩ :=
        deliverMsg_of_some (s := { s with net := s.net.eraseIdx i }) (m := m) hd
      rw [heq] at hn
      refine hset hn fun heq => Or.inl ⟨st, .mergeGossip m.view, ?_, rfl⟩
      rw [← heq]
      exact hd
  | lose i =>
    simp only [gossipStep] at h
    split at h
    · obtain rfl := Option.some.inj h
      exact Or.inl hn
    · exact absurd h (by simp)

end ShardCache.Membership
