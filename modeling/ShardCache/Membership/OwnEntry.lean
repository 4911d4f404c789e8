import ShardCache.Membership.Gossip

/-!
# The entry of the node itself

Only the node itself retires itself. Whatever it hears about itself, it keeps its own entry alive, at
its own address and on its own ring, and answers a newer generation with the next one. Generations
are 64-bit numbers: the next one after the last is `0`, and then the node is outranked for good.

## Main definitions

* `Op.received`: the entries that an operation brings from outside
* `NoWrap`: an entry does not make the own generation wrap
* `OwnAtLeast`: the own entry is kept, at a generation not below a given one

## Main results

* `own_generation_wraps`: an entry of the last generation takes the own generation back to `0`
* `OwnAtLeast.applies`, `OwnAtLeast.received`: what one entry does to the own entry
* `own_entry_kept`: before it leaves, a node keeps its entry
-/

namespace ShardCache.Membership

open Foundations
open ConsistentHashRing

variable {s s' : State} {m : MemberInfo} {b : Bool} {op : Op} {ops : List Op} {localNode : CacheNode}
  {g : UInt64} {remote : List MemberInfo}

/-- The entries that an operation brings from outside. -/
def Op.received : Op → List MemberInfo
  | .addNode node => [⟨node, 0, .alive⟩]
  | .mergeGossip remote => remote
  | .removeNode _ => []
  | .leave => []

/-- **The own generation wraps**: a node that hears of itself with the last generation goes back to
generation `0`, which every other entry outranks. -/
theorem own_generation_wraps :
    ∃ s, run step (.init ⟨[97], [], 7001⟩ 3 5)
        [.mergeGossip [⟨⟨[97], [], 7001⟩, lastGeneration, .left⟩]] = some s ∧
      s.members[([97] : NodeId)]? = some ⟨⟨[97], [], 7001⟩, 0, .alive⟩ := by
  have hrun : (run step (.init ⟨[97], [], 7001⟩ 3 5)
      [.mergeGossip [⟨⟨[97], [], 7001⟩, lastGeneration, .left⟩]]).map
        (fun s => s.members[([97] : NodeId)]?) = some (some ⟨⟨[97], [], 7001⟩, 0, .alive⟩) := by
    decide
  exact Option.map_eq_some_iff.mp hrun

/-- An entry about the node itself is not of the last generation, unless the node is there too. -/
def NoWrap (s : State) (m : MemberInfo) : Prop :=
  m.node.id = s.localNode.id → m.generation = lastGeneration →
    ∀ self ∈ s.members[s.localNode.id]?, self.generation = lastGeneration

instance (s : State) (m : MemberInfo) : Decidable (NoWrap s m) :=
  inferInstanceAs (Decidable (_ → _ → ∀ self ∈ s.members[s.localNode.id]?, _))

/-! ## One entry -/

/-- The own entry is alive at the own address, the node is in its own node map, and its generation is
not below `g`. -/
structure OwnAtLeast (localNode : CacheNode) (g : UInt64) (s : State) : Prop where
  identity : s.localNode = localNode
  node : s.nodes[localNode.id]? = some localNode
  entry : ∃ self, s.members[localNode.id]? = some self ∧ self.node = localNode ∧
    self.status = .alive ∧ g ≤ self.generation

/-- An accepted entry is about another node. -/
theorem OwnAtLeast.ne_local (hs : OwnAtLeast localNode g s) (h : Accepts s m) :
    m.node.id ≠ localNode.id := by
  intro hid
  obtain ⟨self, hself, -⟩ := hs.entry
  exact (h self (by rw [hid]; exact hself)).2 (hid.trans (congrArg CacheNode.id hs.identity.symm))

/-- An accepted entry leaves the own entry alone. -/
theorem OwnAtLeast.of_accepts (hs : OwnAtLeast localNode g s) (h : Accepts s m)
    (hidentity : s'.localNode = s.localNode)
    (hmembers : s'.members = s.members.insert m.node.id m)
    (hnode : m.node.id ≠ localNode.id → s'.nodes[localNode.id]? = s.nodes[localNode.id]?) :
    OwnAtLeast localNode g s' where
  identity := hidentity.trans hs.identity
  node := (hnode (hs.ne_local h)).trans hs.node
  entry := by
    rw [hmembers, getElem?_insert_id, if_neg (Ne.symm (hs.ne_local h))]
    exact hs.entry

theorem OwnAtLeast.mono {g' : UInt64} (hs : OwnAtLeast localNode g s) (hle : g' ≤ g) :
    OwnAtLeast localNode g' s := by
  obtain ⟨self, hself, hnode, hstatus, hgen⟩ := hs.entry
  exact ⟨hs.identity, hs.node, self, hself, hnode, hstatus, hle.trans hgen⟩

/-- An entry about the node itself is known or outranked afterwards. -/
theorem OwnAtLeast.received (hs : OwnAtLeast localNode g s) (hm : NoWrap s m)
    (h : Applies s m s' b) (hid : m.node.id = localNode.id) :
    OwnAtLeast localNode m.generation s' := by
  obtain ⟨own, hown, hnode, hstatus, -⟩ := hs.entry
  cases h with
  | @ignored known found old =>
    obtain rfl : own = known := Option.some.inj (hown.symm.trans (hid ▸ found))
    exact ⟨hs.identity, hs.node, own, hown, hnode, hstatus, old⟩
  | @outranked known found new self =>
    obtain rfl : own = known := Option.some.inj (hown.symm.trans (hid ▸ found))
    -- a newer entry of the last generation would make the own one wrap
    have hlast : m.generation ≠ lastGeneration := by
      intro hlast
      have hfound : s.members[s.localNode.id]? = some own := hs.identity.symm ▸ hown
      rw [hm self hlast own hfound, hlast] at new
      exact lt_irrefl _ new
    refine ⟨hs.identity, hs.node, { own with generation := m.generation + 1 }, ?_, hnode, hstatus, ?_⟩
    · simp only [getElem?_insert_id, hid, if_true]
    · exact (lt_add_one_of_ne_last hlast).le
  | joined accepted => exact absurd hid (hs.ne_local accepted)
  | departed accepted => exact absurd hid (hs.ne_local accepted)
  | replaced accepted => exact absurd hid (hs.ne_local accepted)

/-- **No entry takes the own entry away**, and the own generation falls only if it wraps. -/
theorem OwnAtLeast.applies (hs : OwnAtLeast localNode g s) (hm : NoWrap s m)
    (h : Applies s m s' b) : OwnAtLeast localNode g s' := by
  cases h with
  | ignored => exact hs
  | @outranked known found new self =>
    -- the own entry now outranks one that outranked it
    have hid : m.node.id = localNode.id := self.trans (congrArg CacheNode.id hs.identity)
    obtain ⟨own, hown, -, -, hle⟩ := hs.entry
    obtain rfl : own = known := Option.some.inj (hown.symm.trans (hid ▸ found))
    exact (hs.received hm (.outranked found new self) hid).mono (hle.trans new.le)
  | joined accepted status out =>
    refine hs.of_accepts accepted rfl rfl fun hne => ?_
    simp only [getElem?_insert_id, if_neg (Ne.symm hne)]
  | departed accepted status present =>
    refine hs.of_accepts accepted rfl rfl fun hne => ?_
    simp only [getElem?_erase_id, if_neg (Ne.symm hne)]
  | replaced accepted same => exact hs.of_accepts accepted rfl rfl fun _ => rfl

/-! ## Operations -/

theorem OwnAtLeast.with_routing (hs : OwnAtLeast localNode g s) (r : RoutingTable) (b : Bool) :
    OwnAtLeast localNode g { s with routing := r, rebalanceRequested := b } :=
  ⟨hs.identity, hs.node, hs.entry⟩

/-- A merge leaves the own generation at least where every entry about the node is. -/
theorem OwnAtLeast.foldl_received {a : Applied} (hs : OwnAtLeast localNode g a.state)
    (hP : EntriesMeet NoWrap a.state remote) (hm : m ∈ remote) (hid : m.node.id = localNode.id) :
    OwnAtLeast localNode m.generation (remote.foldl Applied.next a).state := by
  induction remote generalizing a with
  | nil => simp at hm
  | cons x remote ih =>
    have hnext : (a.next x).state = (a.state.applyMember x {}).state := state_applyMember ..
    have hP' : EntriesMeet NoWrap (a.next x).state remote := by
      rw [hnext]
      exact hP.2 _ rfl
    have happlied := applies_applyMember a.state x a.changes
    rcases List.mem_cons.mp hm with rfl | hm
    · exact foldl_next_rule (a := a.next m) (fun _ _ _ _ hs hm h => hs.applies hm h)
        (hs.received hP.1 happlied hid) hP'
    · exact ih (hs.applies hP.1 happlied) hP' hm

theorem OwnAtLeast.of_step (hs : OwnAtLeast localNode g s) (hstay : op ≠ .leave)
    (hP : OpMeets NoWrap s op) (h : step s op = some s') : OwnAtLeast localNode g s' :=
  step_rule (fun _ _ _ _ hs hm h => hs.applies hm h) (fun _ r b hs => hs.with_routing r b)
    (fun hleave => absurd hleave hstay) hs hP h

theorem OwnAtLeast.of_step_received (hs : OwnAtLeast localNode g s) (hP : OpMeets NoWrap s op)
    (h : step s op = some s') (hm : m ∈ op.received) (hid : m.node.id = localNode.id) :
    OwnAtLeast localNode m.generation s' := by
  have hmerge (remote : List MemberInfo) (hP : EntriesMeet NoWrap s remote) (hm : m ∈ remote) :
      OwnAtLeast localNode m.generation (s.mergeGossip remote).1 := by
    obtain ⟨r, b, heq⟩ := mergeGossip_eq_applyMembers s remote
    rw [heq]
    exact OwnAtLeast.with_routing (hs.foldl_received (a := { state := s }) hP hm hid) r b
  cases op with
  | addNode node =>
    obtain rfl := Option.some.inj h
    exact hmerge _ ⟨hP, fun _ _ => trivial⟩ hm
  | mergeGossip remote =>
    obtain rfl := Option.some.inj h
    exact hmerge remote hP hm
  | removeNode id => simp [Op.received] at hm
  | leave => simp [Op.received] at hm

/-! ## Runs -/

/-- Operations before `leave` keep the own entry, and leave its generation at least where every entry
about the node is that they brought. -/
theorem OwnAtLeast.of_run (hs : OwnAtLeast localNode g s) (hstay : .leave ∉ ops)
    (hA : Along step (OpMeets NoWrap) s ops) (hr : run step s ops = some s') :
    OwnAtLeast localNode g s' ∧ ∀ m ∈ ops.flatMap Op.received, m.node.id = localNode.id →
      OwnAtLeast localNode m.generation s' := by
  induction ops generalizing s g with
  | nil =>
    obtain rfl : s = s' := by simpa using hr
    exact ⟨hs, by simp⟩
  | cons op ops ih =>
    obtain ⟨s₁, hstep, hr⟩ := run_cons_eq_some.mp hr
    rw [List.mem_cons, not_or] at hstay
    have hrest := hA.2 s₁ hstep
    refine ⟨(ih (hs.of_step (Ne.symm hstay.1) hA.1 hstep) hstay.2 hrest hr).1, ?_⟩
    intro m hm hid
    rw [List.flatMap_cons, List.mem_append] at hm
    rcases hm with hm | hm
    · -- what this operation brought stays outranked
      exact (ih (hs.of_step_received hA.1 hstep hm hid) hstay.2 hrest hr).1
    · exact (ih (hs.of_step (Ne.symm hstay.1) hA.1 hstep) hstay.2 hrest hr).2 m hm hid

theorem ownAtLeast_init (localNode : CacheNode) (replicationFactor : ℕ) (bootMs : UInt64) :
    OwnAtLeast localNode bootMs (.init localNode replicationFactor bootMs) where
  identity := rfl
  node := by simp [State.init, State.publishRouting]
  entry := ⟨⟨localNode, bootMs, .alive⟩, by simp [State.init, State.publishRouting], rfl, rfl, le_rfl⟩

/-- **Only the node itself retires itself.** Operations before `leave`, with any entries that do not
make the own generation wrap, leave the own entry alive and at its address, and the node on its own
ring. From one point of the run to a later one its generation does not fall, and it is at least that
of every entry about the node that was received. -/
theorem own_entry_kept {replicationFactor : ℕ} {bootMs : UInt64} {before after : List Op}
    (hr : run step (.init localNode replicationFactor bootMs) before = some s)
    (hr' : run step s after = some s') (hstay : .leave ∉ before ++ after)
    (hA : Along step (OpMeets NoWrap) (.init localNode replicationFactor bootMs)
      (before ++ after)) :
    ∃ self self', s.members[localNode.id]? = some self ∧ s'.members[localNode.id]? = some self' ∧
      self'.node = localNode ∧ self'.status = .alive ∧
      s'.nodes[localNode.id]? = some localNode ∧
      s'.ring.physicalNodes[localNode.id]? = some localNode ∧
      self.generation ≤ self'.generation ∧
      ∀ m ∈ (before ++ after).flatMap Op.received, m.node.id = localNode.id →
        m.generation ≤ self'.generation := by
  have hrun : run step (.init localNode replicationFactor bootMs) (before ++ after) = some s' :=
    run_append_eq_some.mpr ⟨s, hr, hr'⟩
  have hinit := ownAtLeast_init localNode replicationFactor bootMs
  obtain ⟨hbefore, hafter⟩ := along_append hA hr
  have hstay' : .leave ∉ before ∧ .leave ∉ after := by simpa using hstay
  have hs := (hinit.of_run hstay'.1 hbefore hr).1
  obtain ⟨self, hself, hnode, hstatus, -⟩ := hs.entry
  -- the generation at the first point is a lower bound from there on
  have hlater := (OwnAtLeast.of_run (g := self.generation)
    ⟨hs.identity, hs.node, self, hself, hnode, hstatus, le_rfl⟩ hstay'.2 hafter hr').1
  obtain ⟨self', hself', hnode', hstatus', hle⟩ := hlater.entry
  refine ⟨self, self', hself, hself', hnode', hstatus', hlater.node, ?_, hle, ?_⟩
  · rw [(present_of_run hrun).ring]
    exact hlater.node
  · intro m hm hid
    obtain ⟨own, hown, -, -, hreceived⟩ := ((hinit.of_run hstay hA hrun).2 m hm hid).entry
    rw [Option.some.inj (hself'.symm.trans hown)]
    exact hreceived

/-- A node hears that it has left, in an entry of an earlier incarnation. -/
def staleDeparture : List Op := [.mergeGossip [⟨⟨[97], [], 7009⟩, 41, .left⟩], .removeNode [97]]

theorem own_entry_kept_staleDeparture :
    ∃ s self, run step (.init ⟨[97], [], 7001⟩ 3 5) staleDeparture = some s ∧
      s.members[([97] : NodeId)]? = some self ∧ self.status = .alive ∧ 41 ≤ self.generation := by
  have hrun : (run step (.init ⟨[97], [], 7001⟩ 3 5) staleDeparture).isSome := by decide
  obtain ⟨s, hs⟩ := Option.isSome_iff_exists.mp hrun
  have hstart : run step (.init ⟨[97], [], 7001⟩ 3 5) [] = some (.init ⟨[97], [], 7001⟩ 3 5) := rfl
  obtain ⟨-, self, -, hself, -, hstatus, -, -, -, hreceived⟩ :=
    own_entry_kept hstart hs (by decide) (by decide)
  exact ⟨s, self, hs, hself, hstatus, hreceived ⟨⟨[97], [], 7009⟩, 41, .left⟩ (by decide) rfl⟩

end ShardCache.Membership
