import ShardCache.Cluster.Config
import ShardCache.Protocol.Number

/-!
# The hash ring

Each physical node owns a number of points on a ring of 32-bit hashes, one for each of its virtual
nodes. Adding a node puts its points on the ring, over those of other nodes where hashes collide;
removing it takes all its hashes off.

## Main definitions

* `hashFn`: FNV-1a with the finalizer of MurmurHash3
* `CacheNode`, `ConsistentHashRing`, `ConsistentHashRing.addNode`, `ConsistentHashRing.removeNode`
* `ConsistentHashRing.Valid`: every point belongs to a physical node, at one of its own hashes

## Main results

* `ConsistentHashRing.Valid.addNode`, `ConsistentHashRing.Valid.removeNode`: the operations keep
  this
* `ConsistentHashRing.exists_point_addNode`: a node just added owns a point
-/

namespace ShardCache

/-- The FNV-1a step for one byte. -/
def fnvStep (hash : UInt32) (c : UInt8) : UInt32 := (hash ^^^ c.toUInt32) * 16777619

/-- The finalizer of MurmurHash3. -/
def murmurFinalizer (hash : UInt32) : UInt32 :=
  let hash := hash ^^^ (hash >>> 16)
  let hash := hash * 0x85ebca6b
  let hash := hash ^^^ (hash >>> 13)
  let hash := hash * 0xc2b2ae35
  hash ^^^ (hash >>> 16)

/-- `ConsistentHashRing::hash_fn`. -/
def hashFn (key : Bytes) : UInt32 := murmurFinalizer (key.foldl fnvStep 2166136261)

/-- `CacheNode`. -/
structure CacheNode where
  id : NodeId
  host : Bytes := []
  port : UInt16 := 0
deriving DecidableEq, Repr, Inhabited

/-- The name of a virtual node: `node.id + "#" + std::to_string(i)`. -/
def vnodeId (id : NodeId) (i : ℕ) : Bytes := id ++ 35 :: decimal i

/-- The hash of the `i`-th virtual node of `id`. -/
def vnodeHash (id : NodeId) (i : ℕ) : UInt32 := hashFn (vnodeId id i)

/-- `ConsistentHashRing`: `points` is `ring_`. -/
structure ConsistentHashRing where
  numVnodes : ℕ := 256
  physicalNodes : Std.ExtTreeMap NodeId CacheNode := ∅
  points : Std.ExtTreeMap UInt32 CacheNode := ∅

namespace ConsistentHashRing

/-- `ConsistentHashRing::add_node`. -/
def addNode (r : ConsistentHashRing) (node : CacheNode) : ConsistentHashRing :=
  { r with
    physicalNodes := r.physicalNodes.insert node.id node
    points := (List.range r.numVnodes).foldl
      (fun points i => points.insert (vnodeHash node.id i) node) r.points }

/-- `ConsistentHashRing::remove_node`. -/
def removeNode (r : ConsistentHashRing) (id : NodeId) : ConsistentHashRing :=
  match r.physicalNodes[id]? with
  | none => r
  | some _ =>
    { r with
      points := (List.range r.numVnodes).foldl
        (fun points i => points.erase (vnodeHash id i)) r.points
      physicalNodes := r.physicalNodes.erase id }

/-! ## Maps by node id -/

theorem getElem?_insert_id {α : Type} (t : Std.ExtTreeMap NodeId α) (a id : NodeId) (v : α) :
    (t.insert a v)[id]? = if id = a then some v else t[id]? := by
  rw [Std.ExtTreeMap.getElem?_insert]
  by_cases h : id = a
  · simp [h]
  · simp [h, Ne.symm h]

theorem getElem?_erase_id {α : Type} (t : Std.ExtTreeMap NodeId α) (a id : NodeId) :
    (t.erase a)[id]? = if id = a then none else t[id]? := by
  rw [Std.ExtTreeMap.getElem?_erase]
  by_cases h : id = a
  · simp [h]
  · simp [h, Ne.symm h]

/-! ## Points -/

section Points

variable {points : Std.ExtTreeMap UInt32 CacheNode} {node : CacheNode} {id : NodeId} {h : UInt32}

/-- The points after the virtual nodes `is` of a node were put on the ring. -/
theorem getElem?_foldl_insert (is : List ℕ) :
    (is.foldl (fun points i => points.insert (vnodeHash node.id i) node) points)[h]? =
      if ∃ i ∈ is, vnodeHash node.id i = h then some node else points[h]? := by
  induction is generalizing points with
  | nil => simp
  | cons i is ih =>
    rw [List.foldl_cons, ih, Std.ExtTreeMap.getElem?_insert]
    by_cases hi : vnodeHash node.id i = h
    · simp [hi]
    · simp [hi]

/-- The points after the virtual nodes `is` of a node were taken off the ring. -/
theorem getElem?_foldl_erase (is : List ℕ) :
    (is.foldl (fun points i => points.erase (vnodeHash id i)) points)[h]? =
      if ∃ i ∈ is, vnodeHash id i = h then none else points[h]? := by
  induction is generalizing points with
  | nil => simp
  | cons i is ih =>
    rw [List.foldl_cons, ih, Std.ExtTreeMap.getElem?_erase]
    by_cases hi : vnodeHash id i = h
    · simp [hi]
    · simp [hi]

end Points

variable {r : ConsistentHashRing} {node n : CacheNode} {id : NodeId} {h : UInt32}

theorem addNode_points :
    (r.addNode node).points[h]? =
      if ∃ i < r.numVnodes, vnodeHash node.id i = h then some node else r.points[h]? := by
  rw [addNode, getElem?_foldl_insert]
  simp

theorem addNode_physicalNodes :
    (r.addNode node).physicalNodes[id]? =
      if id = node.id then some node else r.physicalNodes[id]? := by
  rw [addNode, getElem?_insert_id]

theorem removeNode_points (hid : r.physicalNodes[id]?.isSome) :
    (r.removeNode id).points[h]? =
      if ∃ i < r.numVnodes, vnodeHash id i = h then none else r.points[h]? := by
  obtain ⟨x, hx⟩ := Option.isSome_iff_exists.mp hid
  simp only [removeNode, hx, getElem?_foldl_erase]
  simp

theorem removeNode_physicalNodes {id' : NodeId} :
    (r.removeNode id).physicalNodes[id']? =
      if id' = id then none else r.physicalNodes[id']? := by
  unfold removeNode
  split
  · by_cases hid : id' = id
    · simp_all
    · simp [hid]
  · rw [getElem?_erase_id]

/-- Every point of the ring belongs to a physical node, and is one of its hashes. -/
def Valid (r : ConsistentHashRing) : Prop :=
  ∀ h n, r.points[h]? = some n →
    r.physicalNodes[n.id]? = some n ∧ ∃ i < r.numVnodes, vnodeHash n.id i = h

theorem valid_empty (numVnodes : ℕ) : Valid { numVnodes := numVnodes } := by
  intro h n hn
  simp at hn

theorem Valid.addNode (hr : r.Valid) (node : CacheNode) : (r.addNode node).Valid := by
  intro h n hn
  rw [addNode_points] at hn
  split at hn
  · obtain rfl := Option.some.inj hn
    exact ⟨by rw [addNode_physicalNodes, if_pos rfl], ‹_›⟩
  · rename_i hne
    obtain ⟨hp, i, hi, hh⟩ := hr h n hn
    -- a point of the node itself would have been overwritten
    have hid : n.id ≠ node.id := fun hid => hne ⟨i, hi, hid ▸ hh⟩
    exact ⟨by rw [addNode_physicalNodes, if_neg hid, hp], i, hi, hh⟩

theorem Valid.removeNode (hr : r.Valid) (id : NodeId) : (r.removeNode id).Valid := by
  cases hp : r.physicalNodes[id]? with
  | none => simpa [ConsistentHashRing.removeNode, hp] using hr
  | some x =>
    intro h n hn
    rw [removeNode_points (by simp [hp])] at hn
    split at hn
    · exact absurd hn (by simp)
    · rename_i hne
      obtain ⟨hn', i, hi, hh⟩ := hr h n hn
      have hid : n.id ≠ id := fun hid => hne ⟨i, hi, hid ▸ hh⟩
      have hv : (r.removeNode id).numVnodes = r.numVnodes := by
        simp [ConsistentHashRing.removeNode, hp]
      exact ⟨by rw [removeNode_physicalNodes, if_neg hid, hn'], i, hv ▸ hi, hh⟩

/-- A node that was just added owns a point. -/
theorem exists_point_addNode (hv : 0 < r.numVnodes) :
    ∃ h : UInt32, (r.addNode node).points[h]? = some node :=
  ⟨vnodeHash node.id 0, by rw [addNode_points, if_pos ⟨0, hv, rfl⟩]⟩

end ConsistentHashRing

end ShardCache
