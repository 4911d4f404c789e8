import ShardCache.Cluster.PreferenceList

/-!
# Movement of keys

A node that joins puts its points between those of the others. A walk over the new ring meets the
other nodes in the same order as before, and the new node once among them: each preference list keeps
its order and loses at most its last member. When the node leaves again, the ring is the one before.

## Main definitions

* `ConsistentHashRing.Free`: no point of the ring is at a hash of a node

## Main results

* `ConsistentHashRing.filter_walkFrom_addNode`: a walk over the new ring without the new node is the
  walk over the old one
* `ConsistentHashRing.removeNode_addNode`: a node that joins and leaves changes nothing
* `ConsistentHashRing.movement_minimal`: only the new node can gain a key
-/

namespace ShardCache

open Foundations

namespace ConsistentHashRing

variable {r : ConsistentHashRing} {n m : CacheNode}

/-- The points of the new node are free. -/
def Free (r : ConsistentHashRing) (n : CacheNode) : Prop :=
  ∀ i < r.numVnodes, r.points[vnodeHash n.id i]? = none

instance (r : ConsistentHashRing) (n : CacheNode) : Decidable (r.Free n) :=
  inferInstanceAs (Decidable (∀ i < r.numVnodes, r.points[vnodeHash n.id i]? = none))

/-- The points of the other nodes stay. -/
theorem filter_points_addNode (hr : r.Valid) (hnew : r.physicalNodes[n.id]? = none)
    (hfree : r.Free n) :
    ((r.addNode n).points.filter fun _ m => m.id != n.id) = r.points := by
  apply Std.ExtTreeMap.ext_getElem?
  intro h
  rw [Std.ExtTreeMap.getElem?_filter, Option.pfilter_eq_filter, addNode_points]
  split
  · rename_i hown
    obtain ⟨i, hi, rfl⟩ := hown
    simp [Option.filter_some, hfree i hi]
  · -- an old point belongs to another node
    cases hpoint : r.points[h]? with
    | none => rfl
    | some m =>
      have hne : m.id ≠ n.id := by
        intro hid
        have hphysical := (hr h m hpoint).1
        rw [hid, hnew] at hphysical
        cases hphysical
      simp [Option.filter_some, hne]

/-- **A walk over the new ring without the new node is the walk over the old one.** -/
theorem filter_walkFrom_addNode (hr : r.Valid) (hnew : r.physicalNodes[n.id]? = none)
    (hfree : r.Free n) (hash : UInt32) :
    ((r.addNode n).walkFrom hash).filter (fun m => m.id != n.id) = r.walkFrom hash := by
  have hpoints : ((r.addNode n).points.toList.filter fun p => p.2.id != n.id) = r.points.toList := by
    rw [← filter_points_addNode hr hnew hfree, Std.ExtTreeMap.toList_filter]
  simp only [walkFrom, List.filter_map, List.filter_append, List.filter_filter, ← hpoints]
  simp only [Function.comp_apply, Bool.and_comm]

/-- The replicas of a key, on the walk from its hash. -/
theorem locateReplicas_eq_walkFrom (r : ConsistentHashRing) (key : Key) (count : ℕ) :
    r.locateReplicas key count =
      (firstsBy CacheNode.id (r.walkFrom (hashFn key))).take count := by
  rw [locateReplicas_eq, walkFrom_eq_rotate]

/-- A replica with the id of the new node is the new node. -/
theorem eq_of_mem_locateReplicas_addNode (hr : r.Valid) {key : Key} {count : ℕ}
    (hm : m ∈ (r.addNode n).locateReplicas key count) (hid : m.id = n.id) : m = n := by
  rw [locateReplicas_eq] at hm
  have howner := List.mem_rotate.mp (mem_of_mem_firstsBy (List.mem_of_mem_take hm))
  obtain ⟨⟨h, m⟩, hpoint, rfl⟩ := List.mem_map.mp howner
  have hphysical :=
    (hr.addNode n h m (Std.ExtTreeMap.mem_toList_iff_getElem?_eq_some.mp hpoint)).1
  rw [addNode_physicalNodes, if_pos hid] at hphysical
  exact (Option.some.inj hphysical).symm

/-- The new node is met once. -/
theorem countP_firstsBy_le_one (id : NodeId) (l : List CacheNode) :
    (firstsBy CacheNode.id l).countP (fun m => !(m.id != id)) ≤ 1 := by
  have hnodup : ((firstsBy CacheNode.id l).map CacheNode.id).Nodup := nodup_firstsBy l
  have hcount := List.nodup_iff_count_le_one.mp hnodup id
  rw [List.count, List.countP_map] at hcount
  simp only [bne, Bool.not_not]
  exact hcount

theorem eq_of_fields_eq {r' : ConsistentHashRing} (hv : r.numVnodes = r'.numVnodes)
    (hphysical : r.physicalNodes = r'.physicalNodes) (hpoints : r.points = r'.points) : r = r' := by
  cases r
  cases r'
  simp_all

/-- **A node that joins and leaves changes nothing.** -/
theorem removeNode_addNode (hnew : r.physicalNodes[n.id]? = none) (hfree : r.Free n) :
    (r.addNode n).removeNode n.id = r := by
  have hphysical : (r.addNode n).physicalNodes[n.id]? = some n := by
    rw [addNode_physicalNodes, if_pos rfl]
  refine eq_of_fields_eq ?_ ?_ ?_
  · simp only [removeNode, hphysical]
    rfl
  · apply Std.ExtTreeMap.ext_getElem?
    intro id
    rw [removeNode_physicalNodes, addNode_physicalNodes]
    by_cases hid : id = n.id
    · rw [if_pos hid, hid, hnew]
    · rw [if_neg hid, if_neg hid]
  · apply Std.ExtTreeMap.ext_getElem?
    intro h
    rw [removeNode_points (by simp [hphysical]), addNode_points]
    change (if ∃ i < r.numVnodes, vnodeHash n.id i = h then none else _) = _
    split
    · -- a point of the node was free before it joined
      rename_i hown
      obtain ⟨i, hi, rfl⟩ := hown
      rw [hfree i hi]
    · rfl

/-- **Membership changes move keys minimally.** When a node joins whose points are free, each
preference list without it begins the old list, and is all of it or as long as was asked for but one:
only the new node can gain a key. When it leaves, the ring and its preference lists are as before. -/
theorem movement_minimal (hr : r.Reachable) (hnew : r.physicalNodes[n.id]? = none)
    (hfree : r.Free n) :
    (∀ (key : Key) (count : ℕ),
      ((r.addNode n).locateReplicas key count).filter (fun m => m.id != n.id) <+:
          r.locateReplicas key count ∧
        (count - 1 ≤
            (((r.addNode n).locateReplicas key count).filter fun m => m.id != n.id).length ∨
          ((r.addNode n).locateReplicas key count).filter (fun m => m.id != n.id) =
            r.locateReplicas key count) ∧
        ∀ m ∈ (r.addNode n).locateReplicas key count, m ∈ r.locateReplicas key count ∨ m = n) ∧
      (r.addNode n).removeNode n.id = r ∧
      ∀ (key : Key) (count : ℕ),
        ((r.addNode n).removeNode n.id).locateReplicas key count = r.locateReplicas key count := by
  have hremove := removeNode_addNode hnew hfree
  refine ⟨?_, hremove, fun key count => by rw [hremove]⟩
  intro key count
  -- Without the new node, the walk on the larger ring meets the nodes of the smaller one in order.
  have hold : (firstsBy CacheNode.id ((r.addNode n).walkFrom (hashFn key))).filter
      (fun m => m.id != n.id) = firstsBy CacheNode.id (r.walkFrom (hashFn key)) := by
    rw [filter_firstsBy fun id => id != n.id, filter_walkFrom_addNode hr.valid hnew hfree]
  -- The list is cut off after `count` nodes, of which at most one is the new node.
  have hpart := isPrefix_filter_take (fun m : CacheNode => m.id != n.id) count
    (firstsBy CacheNode.id ((r.addNode n).walkFrom (hashFn key)))
  have hlong := length_filter_take
    (countP_firstsBy_le_one n.id ((r.addNode n).walkFrom (hashFn key))) count
  rw [hold, ← locateReplicas_eq_walkFrom, ← locateReplicas_eq_walkFrom] at hpart hlong
  refine ⟨hpart, hlong, ?_⟩
  intro m hm
  by_cases hid : m.id = n.id
  · right
    exact eq_of_mem_locateReplicas_addNode hr.valid hm hid
  · left
    exact hpart.subset (List.mem_filter.mpr ⟨hm, by simpa using hid⟩)

/-- A third node joins a ring of two, with two points each. -/
theorem movement_minimal_thirdNode :
    ((ofHistory 2 [.add ⟨[97], [], 7001⟩, .add ⟨[98], [], 7002⟩]).addNode
        ⟨[99], [], 7003⟩).removeNode [99] =
      ofHistory 2 [.add ⟨[97], [], 7001⟩, .add ⟨[98], [], 7002⟩] :=
  (movement_minimal (r := ofHistory 2 [.add ⟨[97], [], 7001⟩, .add ⟨[98], [], 7002⟩])
    (n := ⟨[99], [], 7003⟩) ⟨2, _, rfl⟩ (by decide) (by decide)).2.1

end ConsistentHashRing

end ShardCache
