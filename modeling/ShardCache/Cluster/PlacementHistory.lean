import ShardCache.Cluster.ConsistentHash

/-!
# Placement and the history of the ring

All nodes of a cluster place keys by the same ring only if the ring depends on the nodes that are on
it, and not on the order in which they came and went. A point is a 32-bit hash that any node can
own: a node that joins takes the points it shares with others, and a node that leaves takes them
along. So the order matters exactly where two nodes share a point.

## Main definitions

* `ConsistentHashRing.locateReplicas`: the nodes that hold a key
* `RingOp`, `ConsistentHashRing.ofHistory`: the ring after joins and departures
* `SharePoint`: two nodes have a virtual node at the same hash

## Main results

* `ConsistentHashRing.placement_depends_on_order`: two joins in either order, and a key that is
  placed differently
* `ConsistentHashRing.placement_by_membership_iff`: histories over a set of node ids place keys by
  membership alone exactly when no two of the ids share a point
-/

namespace ShardCache

/-- A join or a departure. -/
inductive RingOp where
  | add (node : CacheNode)
  | remove (id : NodeId)
deriving DecidableEq, Repr

/-- The node id that a call names. -/
def RingOp.id : RingOp → NodeId
  | .add node => node.id
  | .remove id => id

/-- Two nodes have a virtual node at the same hash. -/
def SharePoint (numVnodes : ℕ) (id id' : NodeId) : Prop :=
  ∃ i < numVnodes, ∃ j < numVnodes, vnodeHash id i = vnodeHash id' j

namespace ConsistentHashRing

/-- The ring after one call. -/
def applyOp (r : ConsistentHashRing) : RingOp → ConsistentHashRing
  | .add node => r.addNode node
  | .remove id => r.removeNode id

/-- The ring after a sequence of calls, from the empty one. -/
def ofHistory (numVnodes : ℕ) (ops : List RingOp) : ConsistentHashRing :=
  ops.foldl applyOp { numVnodes := numVnodes }

/-- The points from the first one at or after a hash, around the ring. -/
def walkFrom (r : ConsistentHashRing) (hash : UInt32) : List CacheNode :=
  let points := r.points.toList
  -- `lower_bound`, and `begin` after `end`
  ((points.filter fun p => hash ≤ p.1) ++ points.filter fun p => !decide (hash ≤ p.1)).map Prod.snd

/-- One iteration of the loop of `locate_replicas`: a node that was not seen is a replica, until
there are enough. -/
def visit (count : ℕ) (replicas : List CacheNode) (node : CacheNode) : List CacheNode :=
  if replicas.length < count ∧ node.id ∉ replicas.map CacheNode.id then replicas ++ [node]
  else replicas

/-- `ConsistentHashRing::locate_replicas`. -/
def locateReplicas (r : ConsistentHashRing) (key : Key) (count : ℕ) : List CacheNode :=
  (r.walkFrom (hashFn key)).foldl (visit count) []

variable {r : ConsistentHashRing} {node n : CacheNode} {id : NodeId} {h : UInt32} {numVnodes : ℕ}
  {ops : List RingOp}

/-! ## A point that two nodes share -/

theorem visit_of_full {count : ℕ} {replicas : List CacheNode} (hfull : count ≤ replicas.length)
    (nodes : List CacheNode) : nodes.foldl (visit count) replicas = replicas := by
  induction nodes with
  | nil => rfl
  | cons node nodes ih =>
    rw [List.foldl_cons, visit, if_neg fun hv => absurd hv.1 (not_lt.mpr hfull), ih]

/-- The first point at or after a hash that is a point is that point. -/
theorem head?_walkFrom (hp : r.points[h]? = some node) : (r.walkFrom h).head? = some node := by
  have hsorted : List.Pairwise (fun a b => compare a.1 b.1 = Ordering.lt)
      (r.points.toList.filter fun p => h ≤ p.1) := Std.ExtTreeMap.ordered_keys_toList.filter _
  have hmem : (h, node) ∈ r.points.toList.filter fun p => h ≤ p.1 :=
    List.mem_filter.mpr ⟨Std.ExtTreeMap.mem_toList_iff_getElem?_eq_some.mpr hp, by simp⟩
  unfold walkFrom
  cases hl : r.points.toList.filter fun p => h ≤ p.1 with
  | nil => simp [hl] at hmem
  | cons p rest =>
    have hfirst : p = (h, node) := by
      rw [hl] at hmem hsorted
      rcases List.mem_cons.mp hmem with heq | hrest
      · exact heq.symm
      · -- a point before it would be below the hash
        have hlt := List.rel_of_pairwise_cons hsorted hrest
        have hle : h ≤ p.1 := by
          have := hl ▸ List.mem_cons_self (a := p) (l := rest)
          simpa using (List.mem_filter.mp this).2
        exact absurd (Std.compare_eq_lt.mp hlt) (not_lt.mpr hle)
    simp only [hl, hfirst]
    rfl

/-- A key whose hash is a point is placed on the owner of that point first. -/
theorem locateReplicas_one {key : Key} (hp : r.points[hashFn key]? = some node) :
    r.locateReplicas key 1 = [node] := by
  have hhead := head?_walkFrom hp
  unfold locateReplicas
  cases hw : r.walkFrom (hashFn key) with
  | nil => simp [hw] at hhead
  | cons first rest =>
    obtain rfl : first = node := by simpa [hw] using hhead
    rw [List.foldl_cons]
    exact visit_of_full (by simp [visit]) rest

/-- The node `cache-36`. Its virtual node 108 is at the same hash as the virtual node 4 of
`cache-543`. -/
def cache36 : CacheNode := ⟨[99, 97, 99, 104, 101, 45, 51, 54], [], 7001⟩

/-- The node `cache-543`. -/
def cache543 : CacheNode := ⟨[99, 97, 99, 104, 101, 45, 53, 52, 51], [], 7002⟩

/-- Nodes with different ids can join in either order, as far as the physical nodes go. -/
theorem physicalNodes_addNode_comm {node' : CacheNode} (hne : node.id ≠ node'.id) :
    ((r.addNode node).addNode node').physicalNodes =
      ((r.addNode node').addNode node).physicalNodes := by
  apply Std.ExtTreeMap.ext_getElem?
  intro id
  simp only [addNode_physicalNodes]
  by_cases h : id = node'.id
  · rw [if_pos h, if_neg fun h' => hne (h'.symm.trans h)]
    rw [if_pos h]
  · rw [if_neg h, if_neg h]

/-- Of two nodes that share a point, the one that joins last owns it. -/
theorem points_addNode_of_share {i : ℕ} (hi : i < r.numVnodes) (hh : vnodeHash node.id i = h) :
    (r.addNode node).points[h]? = some node := by
  rw [addNode_points, if_pos ⟨i, hi, hh⟩]

/-- **Placement depends on the order of joins**: two nodes join in either order, with the default
number of virtual nodes, and a key is placed on the one that joined last. -/
theorem placement_depends_on_order :
    (ofHistory 256 [.add cache36, .add cache543]).physicalNodes =
        (ofHistory 256 [.add cache543, .add cache36]).physicalNodes ∧
      (ofHistory 256 [.add cache36, .add cache543]).locateReplicas
        (vnodeId cache36.id 108) 1 = [cache543] ∧
      (ofHistory 256 [.add cache543, .add cache36]).locateReplicas
        (vnodeId cache36.id 108) 1 = [cache36] := by
  have hshare : vnodeHash cache543.id 4 = vnodeHash cache36.id 108 := by decide
  refine ⟨physicalNodes_addNode_comm (by decide), locateReplicas_one ?_, locateReplicas_one ?_⟩
  · exact points_addNode_of_share (i := 4) (show 4 < 256 by decide) hshare
  · exact points_addNode_of_share (i := 108) (show 108 < 256 by decide) rfl

/-! ## Rings without shared points -/

/-- The points of the ring are exactly those of its physical nodes. -/
structure Exact (numVnodes : ℕ) (ids : Set NodeId) (r : ConsistentHashRing) : Prop where
  size : r.numVnodes = numVnodes
  named : ∀ (id : NodeId) (n : CacheNode), r.physicalNodes[id]? = some n → id ∈ ids
  points : ∀ (h : UInt32) (n : CacheNode), r.points[h]? = some n ↔
    r.physicalNodes[n.id]? = some n ∧ ∃ i < numVnodes, vnodeHash n.id i = h

variable {ids : Set NodeId}

theorem Exact.addNode (hr : Exact numVnodes ids r) (hnode : node.id ∈ ids)
    (hdistinct : ids.Pairwise fun id id' => ¬ SharePoint numVnodes id id') :
    Exact numVnodes ids (r.addNode node) where
  size := hr.size
  named id n hn := by
    rw [addNode_physicalNodes] at hn
    split at hn
    · rename_i hid
      exact hid ▸ hnode
    · exact hr.named id n hn
  points h n := by
    rw [addNode_points, addNode_physicalNodes, hr.size]
    by_cases hown : ∃ i < numVnodes, vnodeHash node.id i = h
    · -- a point of the node that joins
      rw [if_pos hown, Option.some.injEq]
      constructor
      · rintro rfl
        exact ⟨by rw [if_pos rfl], hown⟩
      · rintro ⟨hn, i, hi, hh⟩
        split at hn
        · exact Option.some.inj hn
        · -- another node at a point of this one
          rename_i hid
          obtain ⟨j, hj, hh'⟩ := hown
          exact absurd ⟨i, hi, j, hj, hh.trans hh'.symm⟩
            (hdistinct (hr.named n.id n hn) hnode hid)
    · -- the other points stay with their nodes
      rw [if_neg hown, hr.points]
      by_cases hid : n.id = node.id
      · have hnot : ¬ ∃ i < numVnodes, vnodeHash n.id i = h := hid ▸ hown
        exact ⟨fun hn => absurd hn.2 hnot, fun hn => absurd hn.2 hnot⟩
      · rw [if_neg hid]

theorem Exact.removeNode (hr : Exact numVnodes ids r)
    (hdistinct : ids.Pairwise fun id id' => ¬ SharePoint numVnodes id id') :
    Exact numVnodes ids (r.removeNode id) := by
  cases hp : r.physicalNodes[id]? with
  | none => simpa [ConsistentHashRing.removeNode, hp] using hr
  | some x =>
    refine ⟨?_, ?_, ?_⟩
    · rw [ConsistentHashRing.removeNode, hp]
      exact hr.size
    · intro id' n hn
      rw [removeNode_physicalNodes] at hn
      split at hn
      · simp at hn
      · exact hr.named id' n hn
    · intro h n
      rw [removeNode_points (by simp [hp]), removeNode_physicalNodes, hr.size]
      by_cases hid : n.id = id
      · -- the node that left has no point any more
        subst hid
        rw [if_pos rfl]
        split
        · simp
        · rename_i hown
          simp [hr.points, hown]
      · rw [if_neg hid]
        split
        · -- a point of the node that left, which no other has
          rename_i hown
          obtain ⟨j, hj, hh'⟩ := hown
          simp only [reduceCtorEq, false_iff, not_and]
          rintro hn ⟨i, hi, hh⟩
          exact hdistinct (hr.named n.id n hn) (hr.named id x hp) hid
            ⟨i, hi, j, hj, hh.trans hh'.symm⟩
        · exact hr.points h n

theorem Exact.ofHistory (hdistinct : ids.Pairwise fun id id' => ¬ SharePoint numVnodes id id')
    (hops : ∀ op ∈ ops, op.id ∈ ids) : Exact numVnodes ids (ofHistory numVnodes ops) := by
  have hinit : Exact numVnodes ids { numVnodes := numVnodes } :=
    ⟨rfl, fun id n hn => by simp at hn, fun h n => by simp⟩
  refine List.foldlRecOn ops applyOp hinit ?_
  intro r hr op hop
  cases op with
  | add node => exact hr.addNode (hops _ hop) hdistinct
  | remove id => exact hr.removeNode hdistinct

/-- Such a ring is determined by its physical nodes. -/
theorem Exact.points_eq {r' : ConsistentHashRing} (hr : Exact numVnodes ids r)
    (hr' : Exact numVnodes ids r') (hp : r.physicalNodes = r'.physicalNodes) :
    r.points = r'.points := by
  apply Std.ExtTreeMap.ext_getElem?
  intro h
  ext n
  rw [hr.points, hr'.points, hp]

/-- **Placement by membership**: histories that name nodes of a set of ids, and end with the same
physical nodes, end with the same points and place every key on the same replicas, exactly when no
two ids of the set share a point. -/
theorem placement_by_membership_iff (numVnodes : ℕ) (ids : Set NodeId) :
    (∀ ops ops' : List RingOp, (∀ op ∈ ops, op.id ∈ ids) → (∀ op ∈ ops', op.id ∈ ids) →
      (ofHistory numVnodes ops).physicalNodes = (ofHistory numVnodes ops').physicalNodes →
      (ofHistory numVnodes ops).points = (ofHistory numVnodes ops').points ∧
        ∀ (key : Key) (count : ℕ), (ofHistory numVnodes ops).locateReplicas key count =
          (ofHistory numVnodes ops').locateReplicas key count) ↔
      ∀ id ∈ ids, ∀ id' ∈ ids, id ≠ id' → ¬ SharePoint numVnodes id id' := by
  constructor
  · rintro hall id hid id' hid' hne ⟨i, hi, j, hj, hh⟩
    -- two joins, in either order
    let node : CacheNode := { id := id }
    let node' : CacheNode := { id := id' }
    have hpoints := (hall [.add node, .add node'] [.add node', .add node]
      (by simp [RingOp.id, node, node', hid, hid']) (by simp [RingOp.id, node, node', hid, hid'])
      (physicalNodes_addNode_comm hne)).1
    have hlast : (ofHistory numVnodes [.add node, .add node']).points[vnodeHash id i]? =
        some node' := points_addNode_of_share hj hh.symm
    have hlast' : (ofHistory numVnodes [.add node', .add node]).points[vnodeHash id i]? =
        some node := points_addNode_of_share hi rfl
    rw [hpoints, hlast'] at hlast
    exact hne (congrArg CacheNode.id (Option.some.inj hlast))
  · intro hdistinct ops ops' hops hops' hp
    have hpoints : (ofHistory numVnodes ops).points = (ofHistory numVnodes ops').points :=
      (Exact.ofHistory hdistinct hops).points_eq (Exact.ofHistory hdistinct hops') hp
    exact ⟨hpoints, fun key count => by rw [locateReplicas, walkFrom, hpoints]; rfl⟩

end ConsistentHashRing

end ShardCache
