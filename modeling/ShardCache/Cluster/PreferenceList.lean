import ShardCache.Cluster.PlacementHistory
import ShardCache.Cluster.RoutingTable
import ShardCache.Foundations.Distinct

/-!
# Preference lists

The ring places a key by a walk over its sorted points, from the first one at or after the hash of
the key and around; the replicas are the first distinct nodes of the walk. A routing table makes the
same walk beforehand for every point, by index and over node numbers. Both arrive at the same list,
as long as the 16-bit numbers tell the nodes apart.

## Main definitions

* `ConsistentHashRing.Reachable`: rings after joins and departures
* `ConsistentHashRing.owners`, `ConsistentHashRing.ids`: the nodes of the sorted points, and their ids
* `RoutingTable.localIsReplica`: `local_is_replica`
* `RoutingTable.number`: the number of a node

## Main results

* `ConsistentHashRing.locateReplicas_eq`: the replicas are the first distinct nodes of the walk
* `RoutingTable.replicasOf_eq`: so are the numbers of a precomputed list
* `RoutingTable.Numbering.numbered_foldl`: nodes are numbered in the order of their first points
* `RoutingTable.table_agrees_with_ring`: tables and rings place keys alike
-/

namespace ShardCache

open Foundations

namespace ConsistentHashRing

/-- A ring after joins and departures. -/
def Reachable (r : ConsistentHashRing) : Prop := ∃ numVnodes ops, r = ofHistory numVnodes ops

theorem valid_ofHistory (numVnodes : ℕ) (ops : List RingOp) : (ofHistory numVnodes ops).Valid := by
  refine List.foldlRecOn ops applyOp (valid_empty numVnodes) ?_
  intro r hr op _
  cases op with
  | add node => exact hr.addNode node
  | remove id => exact hr.removeNode id

theorem Reachable.valid {r : ConsistentHashRing} (h : r.Reachable) : r.Valid := by
  obtain ⟨numVnodes, ops, rfl⟩ := h
  exact valid_ofHistory numVnodes ops

variable {r : ConsistentHashRing}

/-! ## The walk -/

/-- The nodes of the points, in the order of the points. -/
def owners (r : ConsistentHashRing) : List CacheNode := r.points.toList.map Prod.snd

/-- The ids on the ring. -/
def ids (r : ConsistentHashRing) : Finset NodeId := (r.owners.map CacheNode.id).toFinset

/-- The index of the first point at or after a hash; their number, if there is none. -/
def lowerBound (r : ConsistentHashRing) (hash : UInt32) : ℕ :=
  r.points.toList.findIdx fun p => hash ≤ p.1

/-- The walk from a hash is a rotation of the points. -/
theorem walkFrom_eq_rotate (r : ConsistentHashRing) (hash : UInt32) :
    r.walkFrom hash = r.owners.rotate (r.lowerBound hash) := by
  have hsorted : r.points.toList.Pairwise fun a b =>
      decide (hash ≤ a.1) = true → decide (hash ≤ b.1) = true := by
    refine Std.ExtTreeMap.ordered_keys_toList.imp ?_
    intro a b hlt ha
    simp only [decide_eq_true_eq] at ha ⊢
    exact ha.trans (Std.compare_eq_lt.mp hlt).le
  rw [owners, ← List.map_rotate, lowerBound, ← filter_append_filter_eq_rotate hsorted]
  rfl

theorem visit_eq_collect (count : ℕ) : visit count = collect CacheNode.id count := by
  funext replicas node
  unfold visit collect
  split_ifs <;> rfl

/-- **The replicas are the first distinct nodes of the walk.** -/
theorem locateReplicas_eq (r : ConsistentHashRing) (key : Key) (count : ℕ) :
    r.locateReplicas key count =
      (firstsBy CacheNode.id (r.owners.rotate (r.lowerBound (hashFn key)))).take count := by
  rw [← walkFrom_eq_rotate, ← foldl_collect, locateReplicas, visit_eq_collect]

theorem length_firstsBy_rotate (r : ConsistentHashRing) (n : ℕ) :
    (firstsBy CacheNode.id (r.owners.rotate n)).length = r.ids.card := by
  have hmem : ((r.owners.rotate n).map CacheNode.id).toFinset = r.ids := by
    ext id
    simp [ids]
  rw [length_firstsBy, hmem]

/-- On a valid ring the id of a point tells its node. -/
theorem Valid.eq_of_id_eq (hr : r.Valid) {n m : CacheNode} (hn : n ∈ r.owners) (hm : m ∈ r.owners)
    (hid : n.id = m.id) : n = m := by
  obtain ⟨⟨h, n⟩, hpoint, rfl⟩ := List.mem_map.mp hn
  obtain ⟨⟨h', m⟩, hpoint', rfl⟩ := List.mem_map.mp hm
  have hphysical := (hr h n (Std.ExtTreeMap.mem_toList_iff_getElem?_eq_some.mp hpoint)).1
  have hphysical' := (hr h' m (Std.ExtTreeMap.mem_toList_iff_getElem?_eq_some.mp hpoint')).1
  have hid' : n.id = m.id := hid
  rw [hid', hphysical'] at hphysical
  exact (Option.some.inj hphysical).symm

end ConsistentHashRing

namespace RoutingTable

/-- `RoutingTable::local_is_replica`; none for a point that is not in the table. -/
def localIsReplica (t : RoutingTable) (point : ℕ) : Option Bool := t.localMember[point]?

/-! ## Precomputed lists -/

theorem collectOwner_eq (owner : List UInt16) (n p : ℕ) (list : List UInt16) (step : ℕ) :
    collectOwner owner n p list step =
      collect id n list (owner.getD ((p + step) % owner.length) 0) := by
  unfold collectOwner collect
  simp only [List.map_id, id_eq]
  split
  · rename_i hroom
    split
    · rename_i hold
      rw [if_neg fun hnew => hnew.2 hold]
    · rename_i hnew
      rw [if_pos ⟨hroom, hnew⟩]
  · rename_i hfull
    rw [if_neg fun hnew => hfull hnew.1]

theorem map_getD_range_eq_rotate (owner : List UInt16) (p : ℕ) :
    ((List.range owner.length).map fun step => owner.getD ((p + step) % owner.length) 0) =
      owner.rotate p := by
  refine List.ext_getElem (by simp) ?_
  intro k hk hk'
  have hlt : (p + k) % owner.length < owner.length :=
    Nat.mod_lt _ (by rw [List.length_map, List.length_range] at hk; omega)
  rw [List.getElem_map, List.getElem_range, List.getElem_rotate, List.getD_eq_getElem _ _ hlt]
  simp only [Nat.add_comm p k]

/-- **The numbers of a precomputed list** are the first distinct ones from the point on. -/
theorem replicasOf_eq (owner : List UInt16) (n p : ℕ) :
    replicasOf owner n p = (firstsBy id (owner.rotate p)).take n := by
  rw [← foldl_collect, ← map_getD_range_eq_rotate, List.foldl_map, replicasOf]
  congr 1
  funext list step
  exact collectOwner_eq owner n p list step

/-! ## Numbers of nodes -/

/-- The number of a node: the place of its id among the nodes, in 16 bits. -/
def number (nodes : List CacheNode) (id : NodeId) : UInt16 :=
  (nodes.findIdx fun n => n.id == id).toUInt16

theorem findIdx_id_lt {nodes : List CacheNode} {id : NodeId} (h : id ∈ nodes.map CacheNode.id) :
    (nodes.findIdx fun n => n.id == id) < nodes.length := by
  obtain ⟨n, hn, rfl⟩ := List.mem_map.mp h
  exact List.findIdx_lt_length_of_exists ⟨n, hn, by simp⟩

/-- A node that is appended changes no number. -/
theorem number_append {nodes : List CacheNode} {id : NodeId} (h : id ∈ nodes.map CacheNode.id)
    (node : CacheNode) : number (nodes ++ [node]) id = number nodes id := by
  rw [number, List.findIdx_append, if_pos (findIdx_id_lt h), number]

theorem number_append_self {nodes : List CacheNode} {node : CacheNode}
    (h : node.id ∉ nodes.map CacheNode.id) :
    number (nodes ++ [node]) node.id = nodes.length.toUInt16 := by
  have hnone : (nodes.findIdx fun n => n.id == node.id) = nodes.length := by
    refine List.findIdx_eq_length_of_false ?_
    intro n hn
    refine beq_eq_false_iff_ne.mpr fun hid => h ?_
    exact hid ▸ List.mem_map_of_mem hn
  rw [number, List.findIdx_append, if_neg (by omega)]
  simp [List.findIdx_cons]

namespace Numbering

/-- The numbering after the points of the nodes `seen`. -/
structure Numbered (seen : List CacheNode) (a : Numbering) : Prop where
  nodes : a.nodes = firstsBy CacheNode.id seen
  index : ∀ id : NodeId, a.indexOf[id]? =
    if id ∈ seen.map CacheNode.id then some (number a.nodes id) else none
  owner : a.owner = seen.map fun n => number a.nodes n.id

theorem Numbered.add {seen : List CacheNode} {a : Numbering} (h : Numbered seen a)
    (node : CacheNode) : Numbered (seen ++ [node]) (a.add node) := by
  have hids (id : NodeId) : id ∈ a.nodes.map CacheNode.id ↔ id ∈ seen.map CacheNode.id := by
    rw [h.nodes, mem_map_firstsBy]
  unfold Numbering.add
  by_cases hseen : node.id ∈ seen.map CacheNode.id
  · -- the node has a number
    rw [h.index, if_pos hseen]
    refine ⟨?_, ?_, ?_⟩
    · rw [firstsBy_concat, if_pos hseen]
      exact h.nodes
    · intro id
      rw [h.index]
      by_cases hid : id ∈ seen.map CacheNode.id
      · rw [if_pos hid, if_pos (by simp [hid])]
      · have hne : id ≠ node.id := fun heq => hid (heq ▸ hseen)
        rw [if_neg hid, if_neg (by simp [hid, hne])]
    · rw [List.map_append, List.map_singleton, ← h.owner]
  · -- the node gets the next number, and the others keep theirs
    have hnew : node.id ∉ a.nodes.map CacheNode.id := fun hmem => hseen ((hids _).mp hmem)
    rw [h.index, if_neg hseen]
    refine ⟨?_, ?_, ?_⟩
    · rw [firstsBy_concat, if_neg hseen, h.nodes]
    · intro id
      rw [ConsistentHashRing.getElem?_insert_id, h.index]
      by_cases hid : id = node.id
      · rw [if_pos hid, if_pos (by simp [hid]), hid, number_append_self hnew]
      · rw [if_neg hid]
        by_cases hid' : id ∈ seen.map CacheNode.id
        · rw [if_pos hid', if_pos (by simp [hid']), number_append ((hids id).mpr hid')]
        · rw [if_neg hid', if_neg (by simp [hid', hid])]
    · -- the owners of the points before keep their numbers
      have hold : (seen.map fun n => number (a.nodes ++ [node]) n.id) = a.owner := by
        rw [h.owner]
        refine List.map_congr_left fun n hn => ?_
        exact number_append ((hids n.id).mpr (List.mem_map_of_mem hn)) node
      dsimp only
      rw [List.map_append, List.map_singleton, number_append_self hnew, hold]

theorem numbered_foldl (points : List (UInt32 × CacheNode)) :
    Numbered (points.map Prod.snd) (points.foldl (fun a p => a.add p.2) {}) := by
  induction points using List.reverseRecOn with
  | nil => exact ⟨rfl, by simp, rfl⟩
  | append_singleton points p ih =>
    rw [List.map_append, List.map_singleton, List.foldl_concat]
    exact ih.add p.2

end Numbering

/-! ## Tables and rings -/

section Build

variable {ring : ConsistentHashRing} {n m : CacheNode}

/-- The numbering of the constructor. -/
def numbering (ring : ConsistentHashRing) : Numbering :=
  ring.points.toList.foldl (fun a p => a.add p.2) {}

theorem numbered (ring : ConsistentHashRing) : Numbering.Numbered ring.owners (numbering ring) :=
  Numbering.numbered_foldl _

theorem length_nodes (ring : ConsistentHashRing) : (numbering ring).nodes.length = ring.ids.card := by
  rw [(numbered ring).nodes, length_firstsBy]
  rfl

/-- **The number of a node leads back to it**, if there are numbers for all ids. -/
theorem getElem?_number (hring : ring.Valid) (hids : ring.ids.card ≤ 65536) (hn : n ∈ ring.owners) :
    (numbering ring).nodes[(number (numbering ring).nodes n.id).toNat]? = some n := by
  have hid : n.id ∈ (numbering ring).nodes.map CacheNode.id := by
    rw [(numbered ring).nodes, mem_map_firstsBy]
    exact List.mem_map_of_mem hn
  have hlt := findIdx_id_lt hid
  have hnat : (number (numbering ring).nodes n.id).toNat =
      (numbering ring).nodes.findIdx fun m => m.id == n.id := by
    have hsmall := length_nodes ring
    rw [number, Nat.toUInt16_eq, UInt16.toNat_ofNat']
    omega
  rw [hnat, List.getElem?_eq_getElem hlt, Option.some.injEq]
  refine hring.eq_of_id_eq ?_ hn ?_
  · have hsub : ∀ x ∈ (numbering ring).nodes, x ∈ ring.owners := by
      rw [(numbered ring).nodes]
      exact fun x hx => mem_of_mem_firstsBy hx
    exact hsub _ (List.getElem_mem hlt)
  · have hfound := List.findIdx_getElem (w := hlt)
    simpa using hfound

/-- **What is precomputed for a point** are the numbers of the first distinct nodes from the point
on. -/
theorem replicasOf_eq_map_number (hring : ring.Valid) (hids : ring.ids.card ≤ 65536) (count p : ℕ) :
    replicasOf (numbering ring).owner count p =
      ((firstsBy CacheNode.id (ring.owners.rotate p)).take count).map fun n =>
        number (numbering ring).nodes n.id := by
  have hback {x : CacheNode} (hx : x ∈ ring.owners.rotate p) :
      (numbering ring).nodes[(number (numbering ring).nodes x.id).toNat]? = some x :=
    getElem?_number hring hids (List.mem_rotate.mp hx)
  -- numbers and ids tell the same nodes apart
  have hsame : ∀ x ∈ ring.owners.rotate p, ∀ y ∈ ring.owners.rotate p,
      (id ∘ fun z : CacheNode => number (numbering ring).nodes z.id) x =
        (id ∘ fun z : CacheNode => number (numbering ring).nodes z.id) y ↔ x.id = y.id := by
    intro x hx y hy
    constructor
    · intro heq
      have heq' : number (numbering ring).nodes x.id = number (numbering ring).nodes y.id := heq
      have hsome := hback hx
      rw [heq', hback hy] at hsome
      rw [Option.some.inj hsome]
    · intro hid
      simp only [Function.comp_apply, hid]
  rw [replicasOf_eq, (numbered ring).owner, ← List.map_rotate, firstsBy_map, firstsBy_congr hsame,
    List.map_take]

/-- The numbers lead back to the nodes. -/
theorem filterMap_replicasOf (hring : ring.Valid) (hids : ring.ids.card ≤ 65536) (count p : ℕ) :
    ((replicasOf (numbering ring).owner count p).filterMap fun i =>
        (numbering ring).nodes[i.toNat]?) =
      (firstsBy CacheNode.id (ring.owners.rotate p)).take count := by
  rw [replicasOf_eq_map_number hring hids, List.filterMap_map]
  refine (List.filterMap_congr fun x hx => ?_).trans List.filterMap_some
  have hx' := mem_of_mem_firstsBy (List.mem_of_mem_take hx)
  exact getElem?_number hring hids (List.mem_rotate.mp hx')

/-! ## Lookup -/

variable (ring) (replicationFactor : ℕ) (localId : NodeId) (key : Key)

theorem pointFor_build :
    (build ring replicationFactor localId).pointFor key =
      if ring.lowerBound (hashFn key) = ring.points.toList.length then 0
      else ring.lowerBound (hashFn key) := by
  simp only [pointFor, build, ConsistentHashRing.lowerBound, List.findIdx_map, List.length_map]
  rfl

/-- The walk begins at the point of the key. -/
theorem rotate_pointFor :
    ring.owners.rotate ((build ring replicationFactor localId).pointFor key) =
      ring.owners.rotate (ring.lowerBound (hashFn key)) := by
  rw [pointFor_build]
  split
  · rename_i hlast
    have hlen : ring.owners.length = ring.points.toList.length := List.length_map _
    rw [hlast, ← hlen, List.rotate_length, List.rotate_zero]
  · rfl

theorem pointFor_lt (hne : ring.points.toList ≠ []) :
    (build ring replicationFactor localId).pointFor key < ring.points.toList.length := by
  rw [pointFor_build]
  split
  · exact List.length_pos_of_ne_nil hne
  · rename_i hlt
    exact lt_of_le_of_ne List.findIdx_le_length hlt

/-- The numbers that are stored for a point. -/
theorem getElem?_replicas {p : ℕ} (hp : p < ring.points.toList.length) :
    (build ring replicationFactor localId).replicas[p]? =
      some (replicasOf (numbering ring).owner
        (min replicationFactor (numbering ring).nodes.length) p) := by
  have hbuild : (build ring replicationFactor localId).replicas =
      (List.range ring.points.toList.length).map (replicasOf (numbering ring).owner
        (min replicationFactor (numbering ring).nodes.length)) := rfl
  rw [hbuild, List.getElem?_map, List.getElem?_range hp, Option.map_some]

variable {ring}

theorem take_min_length_nodes (p : ℕ) :
    (firstsBy CacheNode.id (ring.owners.rotate p)).take (min replicationFactor ring.ids.card) =
      (firstsBy CacheNode.id (ring.owners.rotate p)).take replicationFactor := by
  rw [List.take_eq_take_iff, ring.length_firstsBy_rotate, min_assoc, min_self]

/-- The preference list of a point. -/
theorem preferenceListAt_build (hring : ring.Valid) (hids : ring.ids.card ≤ 65536) {p : ℕ}
    (hp : p < ring.points.toList.length) :
    (build ring replicationFactor localId).preferenceListAt p =
      (firstsBy CacheNode.id (ring.owners.rotate p)).take replicationFactor := by
  rw [preferenceListAt, List.getD_eq_getElem?_getD,
    getElem?_replicas ring replicationFactor localId hp, Option.getD_some, length_nodes]
  exact (filterMap_replicasOf hring hids _ p).trans (take_min_length_nodes replicationFactor p)

/-- The number of replicas of a point. -/
theorem length_replicas_build (hring : ring.Valid) (hids : ring.ids.card ≤ 65536) {p : ℕ}
    (hp : p < ring.points.toList.length) :
    ((build ring replicationFactor localId).replicas.getD p []).length =
      ((firstsBy CacheNode.id (ring.owners.rotate p)).take replicationFactor).length := by
  rw [List.getD_eq_getElem?_getD, getElem?_replicas ring replicationFactor localId hp,
    Option.getD_some, length_nodes, replicasOf_eq_map_number hring hids, take_min_length_nodes,
    List.length_map]

/-- Whether the local node is in the preference list of a point. -/
theorem localIsReplica_build (hring : ring.Valid) (hids : ring.ids.card ≤ 65536) {p : ℕ}
    (hp : p < ring.points.toList.length) :
    (build ring replicationFactor localId).localIsReplica p =
      some (decide (localId ∈
        ((firstsBy CacheNode.id (ring.owners.rotate p)).take replicationFactor).map
          CacheNode.id)) := by
  have hbuild : (build ring replicationFactor localId).localMember =
      (build ring replicationFactor localId).replicas.map fun list => list.any fun i =>
        ((numbering ring).nodes[i.toNat]?).any fun node => node.id == localId := rfl
  rw [localIsReplica, hbuild, List.getElem?_map,
    getElem?_replicas ring replicationFactor localId hp, Option.map_some, Option.some.injEq,
    ← take_min_length_nodes, ← filterMap_replicasOf hring hids, length_nodes]
  rw [Bool.eq_iff_iff, decide_eq_true_eq]
  simp only [List.any_eq_true, Option.any_eq_true, beq_iff_eq, List.mem_map, List.mem_filterMap]
  constructor
  · rintro ⟨i, hi, node, hnode, hid⟩
    exact ⟨node, ⟨i, hi, hnode⟩, hid⟩
  · rintro ⟨node, ⟨i, hi, hnode⟩, hid⟩
    exact ⟨i, hi, node, hnode, hid⟩

/-- **Tables and rings place keys alike.** For a ring after any joins and departures with at most
65536 ids, the preference list of a key in a routing table is the list that the ring locates. Both are
the first distinct nodes, as many as asked for and as there are, on a walk over the sorted points from
the first one at or after the hash of the key and around. The table says that the local node is a
replica exactly when it is in this list. An empty table has no point to ask about. -/
theorem table_agrees_with_ring (hring : ring.Reachable) (hids : ring.ids.card ≤ 65536) :
    (build ring replicationFactor localId).preferenceList key =
        ring.locateReplicas key replicationFactor ∧
      ring.locateReplicas key replicationFactor =
        (firstsBy CacheNode.id (ring.owners.rotate (ring.lowerBound (hashFn key)))).take
          (min replicationFactor ring.ids.card) ∧
      ((build ring replicationFactor localId).localIsReplica
          ((build ring replicationFactor localId).pointFor key) = some true ↔
        localId ∈ (ring.locateReplicas key replicationFactor).map CacheNode.id) ∧
      ((build ring replicationFactor localId).isEmpty = false →
        ((build ring replicationFactor localId).localIsReplica
          ((build ring replicationFactor localId).pointFor key)).isSome) := by
  have hlocate := ring.locateReplicas_eq key replicationFactor
  have hempty : (build ring replicationFactor localId).isEmpty = ring.points.toList.isEmpty := by
    simp [isEmpty, build]
  rw [take_min_length_nodes, hempty, preferenceList, hempty]
  by_cases hne : ring.points.toList = []
  · -- no point: nothing is placed, and there is nothing to look up
    have hnone : ring.locateReplicas key replicationFactor = [] := by
      rw [hlocate, ConsistentHashRing.owners, hne]
      simp
    have hmember : (build ring replicationFactor localId).localMember = [] := by
      simp [build, hne]
    rw [List.isEmpty_iff.mpr hne, ← hlocate, hnone, localIsReplica, hmember]
    simp
  · -- the table is looked up at the point from which the ring is walked
    have hp := pointFor_lt ring replicationFactor localId key hne
    have hlist := preferenceListAt_build replicationFactor localId hring.valid hids hp
    have hlocal := localIsReplica_build replicationFactor localId hring.valid hids hp
    rw [rotate_pointFor, ← hlocate] at hlist hlocal
    rw [List.isEmpty_eq_false_iff.mpr hne, ← hlocate, hlist, hlocal]
    simp

end Build

/-- A ring of two nodes with two points each. -/
theorem table_agrees_with_ring_twoNodes :
    (build (.ofHistory 2 [.add ⟨[97], [], 7001⟩, .add ⟨[98], [], 7002⟩]) 3 [97]).preferenceList
        [107] =
      (ConsistentHashRing.ofHistory 2
        [.add ⟨[97], [], 7001⟩, .add ⟨[98], [], 7002⟩]).locateReplicas [107] 3 :=
  (table_agrees_with_ring 3 [97] [107] ⟨2, _, rfl⟩ (by decide)).1

end RoutingTable

end ShardCache
