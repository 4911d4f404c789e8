import ShardCache.Foundations.Newest
import ShardCache.Membership.Gossip

/-!
# Merging views is a join

The entry of another node is the newest that was heard of it, whatever the order in which views were
merged and however often. The node map and the ring follow the table entry by entry, so they end with
the same nodes too.

## Main definitions

* `State.mergeAll`: merges one after the other
* `Candidate`: an entry of the table or of one of the views

## Main results

* `members_mergeAll`: each slot of the table keeps the newer entry, for every entry of the views
* `merge_is_join`: merges of the same entries end with the same nodes
-/

namespace ShardCache.Membership

open Foundations
open ConsistentHashRing

variable {s s' : State} {m e : MemberInfo} {b : Bool} {id : NodeId}

namespace State

/-- The state after merges, one after the other. -/
def mergeAll (s : State) (calls : List (List MemberInfo)) : State :=
  calls.foldl (fun s remote => (s.mergeGossip remote).1) s

end State

/-! ## The table -/

/-- **What one entry does to the slot of another node.** -/
theorem Applies.members_of_ne (h : Applies s m s' b) (hid : id ≠ s.localNode.id) :
    s'.members[id]? =
      if m.node.id = id then keepNewer MemberInfo.generation s.members[id]? m
      else s.members[id]? := by
  rcases h.members with ⟨known, found, hle, heq⟩ | ⟨known, -, -, hself, heq⟩ | ⟨haccepts, heq⟩
  · -- an entry that is not newer
    rw [heq]
    split
    · rename_i hm
      rw [← hm, found, keepNewer_some, if_neg (not_lt.mpr hle)]
    · rfl
  · -- an entry about this node
    have hne : id ≠ m.node.id := fun h => hid (h.trans hself)
    rw [heq, getElem?_insert_id, if_neg hne, if_neg (Ne.symm hne)]
  · rw [heq, getElem?_insert_id]
    by_cases hm : m.node.id = id
    · subst hm
      rw [if_pos rfl, if_pos rfl]
      cases hk : s.members[m.node.id]? with
      | none => rfl
      | some known => rw [keepNewer_some, if_pos (haccepts known hk).1]
    · rw [if_neg hm, if_neg (Ne.symm hm)]

/-- The entries about a node. -/
def about (id : NodeId) (entries : List MemberInfo) : List MemberInfo :=
  entries.filter fun m => m.node.id = id

theorem members_foldl_next (remote : List MemberInfo) {a : Applied}
    (hid : id ≠ a.state.localNode.id) :
    (remote.foldl Applied.next a).state.localNode = a.state.localNode ∧
      (remote.foldl Applied.next a).state.members[id]? =
        (about id remote).foldl (keepNewer MemberInfo.generation) a.state.members[id]? := by
  induction remote generalizing a with
  | nil => exact ⟨rfl, rfl⟩
  | cons m remote ih =>
    have happlied := applies_applyMember a.state m a.changes
    have hlocal : (a.next m).state.localNode = a.state.localNode := happlied.localNode
    have hslot := happlied.members_of_ne hid
    obtain ⟨hlocal', hmembers⟩ := ih (a := a.next m) (by rwa [hlocal])
    rw [List.foldl_cons]
    refine ⟨hlocal'.trans hlocal, hmembers.trans ?_⟩
    change (about id remote).foldl _ (a.state.applyMember m a.changes).state.members[id]? = _
    rw [hslot, about, about, List.filter_cons]
    by_cases hm : m.node.id = id
    · simp [hm]
    · simp [hm]

/-- **Each slot of the table keeps the newer entry**, for every entry of the views. -/
theorem members_mergeAll (s : State) (calls : List (List MemberInfo)) (hid : id ≠ s.localNode.id) :
    (s.mergeAll calls).members[id]? =
      (about id calls.flatten).foldl (keepNewer MemberInfo.generation) s.members[id]? := by
  induction calls generalizing s with
  | nil => rfl
  | cons remote calls ih =>
    obtain ⟨r, b, heq⟩ := mergeGossip_eq_applyMembers s remote
    obtain ⟨hlocal, hmembers⟩ := members_foldl_next remote (a := { state := s }) hid
    have hlocal' : (s.mergeGossip remote).1.localNode = s.localNode := by
      rw [heq]
      exact hlocal
    have hslot : (s.mergeGossip remote).1.members[id]? =
        (about id remote).foldl (keepNewer MemberInfo.generation) s.members[id]? := by
      rw [heq]
      exact hmembers
    change ((s.mergeGossip remote).1.mergeAll calls).members[id]? = _
    rw [ih _ (by rwa [hlocal']), hslot, ← List.foldl_append, about, about, about,
      List.flatten_cons, List.filter_append]

/-- Merges keep the table, the node map and the ring in step. -/
theorem Present.mergeAll (hs : Present s) (calls : List (List MemberInfo)) :
    Present (s.mergeAll calls) := by
  refine List.foldlRecOn calls _ hs ?_
  intro s hs remote _
  have hstep : Membership.step s (.mergeGossip remote) = some (s.mergeGossip remote).1 := rfl
  exact hs.step hstep

/-! ## The newest entry -/

/-- An entry of the table, or of one of the views. -/
def Candidate (s : State) (calls : List (List MemberInfo)) (e : MemberInfo) : Prop :=
  e ∈ s.view ∨ e ∈ calls.flatten

/-- After the merges a slot holds the newest candidate. -/
theorem isNewest_mergeAll (hs : Present s) (calls : List (List MemberInfo))
    (hid : id ≠ s.localNode.id) :
    IsNewest MemberInfo.generation { e | e.node.id = id ∧ Candidate s calls e }
      (s.mergeAll calls).members[id]? := by
  have hstart : IsNewest MemberInfo.generation { e | s.members[id]? = some e } s.members[id]? :=
    ⟨fun _ he => he, fun e he => ⟨e, he, le_rfl⟩⟩
  have hset : { e | s.members[id]? = some e } ∪ { e | e ∈ about id calls.flatten } =
      { e | e.node.id = id ∧ Candidate s calls e } := by
    ext e
    simp only [Set.mem_union, Set.mem_ofPred_eq, about, List.mem_filter, decide_eq_true_eq,
      Candidate, mem_view]
    constructor
    · rintro (he | ⟨he, hnode⟩)
      · exact ⟨hs.key id e he, Or.inl ⟨id, he⟩⟩
      · exact ⟨hnode, Or.inr he⟩
    · rintro ⟨hnode, ⟨id', he⟩ | he⟩
      · obtain rfl : id' = id := (hs.key id' e he).symm.trans hnode
        exact Or.inl he
      · exact Or.inr ⟨he, hnode⟩
  rw [members_mergeAll s calls hid, ← hset]
  exact isNewest_foldl_keepNewer hstart _

/-- **Merging views is a join.** From a reachable state, let two sequences of merges bring the same
entries, in any order, grouping and repetition, and let no two candidates for another node share a
generation unless they are one entry. Then both end with the same entries of other nodes, with the same
other nodes in the node map and on the ring: for each id the entry of the highest generation. -/
theorem merge_is_join {localNode : CacheNode} {replicationFactor : ℕ} {bootMs : UInt64}
    {ops : List Op} (hr : run step (.init localNode replicationFactor bootMs) ops = some s)
    {calls calls' : List (List MemberInfo)}
    (hsame : ∀ m, m ∈ calls.flatten ↔ m ∈ calls'.flatten)
    (hunique : ∀ e e', Candidate s calls e → Candidate s calls e' →
      e.node.id ≠ s.localNode.id → SameGeneration e e')
    {id : NodeId} (hid : id ≠ s.localNode.id) :
    (s.mergeAll calls).members[id]? = (s.mergeAll calls').members[id]? ∧
      ((s.mergeAll calls).nodes[id]?).isSome = ((s.mergeAll calls').nodes[id]?).isSome ∧
      ((s.mergeAll calls).ring.physicalNodes[id]?).isSome =
        ((s.mergeAll calls').ring.physicalNodes[id]?).isSome ∧
      ∀ e, (s.mergeAll calls).members[id]? = some e ↔
        (e.node.id = id ∧ Candidate s calls e) ∧
          ∀ e', e'.node.id = id ∧ Candidate s calls e' → e'.generation ≤ e.generation := by
  have hs := present_of_run hr
  have hcandidates : { e | e.node.id = id ∧ Candidate s calls e } =
      { e | e.node.id = id ∧ Candidate s calls' e } := by
    ext e
    simp only [Candidate, hsame]
  have hrank : Set.InjOn MemberInfo.generation { e | e.node.id = id ∧ Candidate s calls e } := by
    rintro e ⟨hnode, he⟩ e' ⟨hnode', he'⟩ hgen
    exact hunique e e' he he' (by rwa [hnode]) (hnode.trans hnode'.symm) hgen
  have hnewest := isNewest_mergeAll hs calls hid
  have hnewest' := isNewest_mergeAll hs calls' hid
  rw [← hcandidates] at hnewest'
  have hmembers := hnewest.unique hnewest' hrank
  -- the node map and the ring name the nodes whose entry is alive
  have hnodes : ((s.mergeAll calls).nodes[id]?).isSome = ((s.mergeAll calls').nodes[id]?).isSome := by
    rw [Bool.eq_iff_iff, (hs.mergeAll calls).alive, (hs.mergeAll calls').alive, hmembers]
  refine ⟨hmembers, hnodes, ?_, fun e => hnewest.eq_some_iff hrank⟩
  rw [(hs.mergeAll calls).ring, (hs.mergeAll calls').ring, hnodes]

/-- A node joins, leaves and comes back. -/
def inOrder : List (List MemberInfo) :=
  [[⟨⟨[98], [], 7002⟩, 1, .alive⟩],
    [⟨⟨[98], [], 7002⟩, 2, .left⟩, ⟨⟨[98], [], 7003⟩, 3, .alive⟩]]

/-- The same, as it may be heard. -/
def outOfOrder : List (List MemberInfo) :=
  [[⟨⟨[98], [], 7003⟩, 3, .alive⟩, ⟨⟨[98], [], 7002⟩, 2, .left⟩],
    [⟨⟨[98], [], 7002⟩, 1, .alive⟩], [⟨⟨[98], [], 7002⟩, 2, .left⟩]]

theorem merge_is_join_outOfOrder :
    ((State.init ⟨[97], [], 7001⟩ 3 5).mergeAll inOrder).members[([98] : NodeId)]? =
      ((State.init ⟨[97], [], 7001⟩ 3 5).mergeAll outOfOrder).members[([98] : NodeId)]? := by
  have hr : run step (.init ⟨[97], [], 7001⟩ 3 5) [] = some (.init ⟨[97], [], 7001⟩ 3 5) := rfl
  have hunique : ∀ e ∈ (State.init ⟨[97], [], 7001⟩ 3 5).view ++ inOrder.flatten,
      ∀ e' ∈ (State.init ⟨[97], [], 7001⟩ 3 5).view ++ inOrder.flatten,
        e.node.id ≠ [97] → SameGeneration e e' := by decide
  refine (merge_is_join hr (fun m => ?_) ?_ (by decide)).1
  · simp only [inOrder, outOfOrder, List.flatten_cons, List.flatten_nil, List.mem_append,
      List.mem_cons, List.not_mem_nil]
    tauto
  · intro e e' he he'
    exact hunique e (List.mem_append.mpr he) e' (List.mem_append.mpr he')

end ShardCache.Membership
