import ShardCache.Cluster.ConsistentHash

/-!
# Routing tables

A routing table is an immutable copy of the ring in which the preference list of every point, its
`N` distinct successor nodes, is computed beforehand. Nodes are numbered in the order of their first
points, with 16-bit numbers.

## Main definitions

* `RoutingTable`, `RoutingTable.build`: the table, and its constructor
* `RoutingTable.pointFor`, `RoutingTable.preferenceList`
* `RoutingTable.placement`: the preference list of a key, for the replication protocol

## Main results

* `RoutingTable.nodup_preferenceList`, `RoutingTable.length_preferenceList_le`: preference lists
  have distinct members, at most `N` of them
* `RoutingTable.mem_nodes_build_iff`, `RoutingTable.mem_points_of_mem_preferenceList`: the nodes of a
  table are those of the ring, and so are the members of its preference lists
-/

namespace ShardCache

/-- `RoutingTable`: `replicas` holds the preference list of each point, by node number. -/
structure RoutingTable where
  nodes : List CacheNode := []
  points : List UInt32 := []
  replicas : List (List UInt16) := []
  localMember : List Bool := []
deriving DecidableEq, Repr

namespace RoutingTable

/-! ## Construction -/

/-- The nodes numbered so far, their numbers, and the number of the owner of each point. -/
structure Numbering where
  nodes : List CacheNode := []
  indexOf : Std.ExtTreeMap NodeId UInt16 := ∅
  owner : List UInt16 := []

/-- The first loop of the constructor, for one point: a node that has no number yet gets the next
one. -/
def Numbering.add (a : Numbering) (node : CacheNode) : Numbering :=
  match a.indexOf[node.id]? with
  | some i => { a with owner := a.owner ++ [i] }
  | none =>
    let i := a.nodes.length.toUInt16
    ⟨a.nodes ++ [node], a.indexOf.insert node.id i, a.owner ++ [i]⟩

/-- One step of the second loop: the next owner joins the list, if there is room and it is new. -/
def collectOwner (owner : List UInt16) (n p : ℕ) (list : List UInt16) (step : ℕ) : List UInt16 :=
  if list.length < n then
    let candidate := owner.getD ((p + step) % owner.length) 0
    if candidate ∈ list then list else list ++ [candidate]
  else list

/-- The preference list of the point `p`: its `n` distinct successor owners. -/
def replicasOf (owner : List UInt16) (n p : ℕ) : List UInt16 :=
  (List.range owner.length).foldl (collectOwner owner n p) []

/-- The constructor of `RoutingTable`. -/
def build (ring : ConsistentHashRing) (replicationFactor : ℕ) (localId : NodeId) : RoutingTable :=
  let points := ring.points.toList
  let a := points.foldl (fun a p => a.add p.2) ({} : Numbering)
  let n := min replicationFactor a.nodes.length
  let replicas := (List.range points.length).map (replicasOf a.owner n)
  { nodes := a.nodes
    points := points.map Prod.fst
    replicas := replicas
    localMember := replicas.map fun list =>
      list.any fun i => (a.nodes[i.toNat]?).any fun node => node.id == localId }

/-! ## Lookup -/

/-- `empty`. -/
def isEmpty (t : RoutingTable) : Bool := t.points.isEmpty

/-- `RoutingTable::point_for`: the first point at or after the hash of the key, or the first one. -/
def pointFor (t : RoutingTable) (key : Key) : ℕ :=
  let i := t.points.findIdx fun h => hashFn key ≤ h
  if i = t.points.length then 0 else i

/-- `RoutingTable::preference_list` of a point. -/
def preferenceListAt (t : RoutingTable) (point : ℕ) : List CacheNode :=
  (t.replicas.getD point []).filterMap fun i => t.nodes[i.toNat]?

/-- `RoutingTable::preference_list` of a key. -/
def preferenceList (t : RoutingTable) (key : Key) : List CacheNode :=
  if t.isEmpty then [] else t.preferenceListAt (t.pointFor key)

/-- The ids of the preference list of a key. -/
def replicaIds (t : RoutingTable) (key : Key) : List NodeId :=
  (t.preferenceList key).map CacheNode.id

/-! ## Preference lists -/

section Collect

variable {owner list : List UInt16} {n p : ℕ}

theorem collectOwner_nodup (hl : list.Nodup) (step : ℕ) :
    (collectOwner owner n p list step).Nodup := by
  unfold collectOwner
  simp only
  split
  · split
    · exact hl
    · refine List.nodup_append.mpr ⟨hl, by simp, ?_⟩
      intro a ha b hb
      rw [List.mem_singleton.mp hb]
      exact fun he => ‹¬ _› (he ▸ ha)
  · exact hl

theorem collectOwner_length_le (hl : list.length ≤ n) (step : ℕ) :
    (collectOwner owner n p list step).length ≤ n := by
  unfold collectOwner
  simp only
  split
  · split
    · exact hl
    · rw [List.length_append, List.length_singleton]
      omega
  · exact hl

theorem replicasOf_nodup (owner : List UInt16) (n p : ℕ) : (replicasOf owner n p).Nodup := by
  unfold replicasOf
  exact List.foldlRecOn _ _ List.nodup_nil fun l hl step _ => collectOwner_nodup hl step

theorem replicasOf_length_le (owner : List UInt16) (n p : ℕ) : (replicasOf owner n p).length ≤ n := by
  unfold replicasOf
  exact List.foldlRecOn (motive := fun list : List UInt16 => list.length ≤ n) _ _ (Nat.zero_le _)
    fun l hl step _ => collectOwner_length_le hl step

end Collect

namespace Numbering

/-- The numbered nodes have distinct ids, and come from the list numbered. -/
structure Good (nodes : List CacheNode) (a : Numbering) : Prop where
  index : ∀ id : NodeId, a.indexOf[id]?.isSome ↔ id ∈ a.nodes.map CacheNode.id
  nodup : (a.nodes.map CacheNode.id).Nodup
  subset : ∀ x ∈ a.nodes, x ∈ nodes

theorem Good.add {nodes : List CacheNode} {a : Numbering} (h : Good nodes a) {node : CacheNode}
    (hnode : node ∈ nodes) : Good nodes (a.add node) := by
  unfold Numbering.add
  cases hi : a.indexOf[node.id]? with
  | some i => exact ⟨h.index, h.nodup, h.subset⟩
  | none =>
    have hnew : node.id ∉ a.nodes.map CacheNode.id := by
      rw [← h.index, hi]
      simp
    refine ⟨?_, ?_, ?_⟩
    · intro id
      rw [ConsistentHashRing.getElem?_insert_id, List.map_append, List.mem_append, ← h.index]
      by_cases hid : id = node.id <;> simp [hid]
    · rw [List.map_append, List.nodup_append]
      refine ⟨h.nodup, by simp, fun x hx y hy => ?_⟩
      obtain rfl : y = node.id := by simpa using hy
      exact fun he => hnew (he ▸ hx)
    · intro x hx
      rcases List.mem_append.mp hx with hx | hx
      · exact h.subset x hx
      · exact List.mem_singleton.mp hx ▸ hnode

theorem good_foldl (points : List (UInt32 × CacheNode)) :
    Good (points.map Prod.snd) (points.foldl (fun a p => a.add p.2) {}) := by
  refine List.foldlRecOn _ _ ⟨by simp, by simp, by simp⟩ ?_
  intro a ha p hp
  exact ha.add (List.mem_map_of_mem hp)

/-- Every node of the list numbered has a number. -/
theorem mem_foldl {nodes : List CacheNode} {a : Numbering} (h : Good nodes a)
    {points : List (UInt32 × CacheNode)} (hsub : ∀ p ∈ points, p.2 ∈ nodes) {id : NodeId}
    (hid : id ∈ a.nodes.map CacheNode.id ∨ ∃ p ∈ points, p.2.id = id) :
    id ∈ (points.foldl (fun a p => a.add p.2) a).nodes.map CacheNode.id := by
  induction points generalizing a with
  | nil => simpa using hid
  | cons p points ih =>
    have hadd := h.add (hsub p List.mem_cons_self)
    refine ih hadd (fun q hq => hsub q (List.mem_cons_of_mem _ hq)) ?_
    -- numbering one node forgets no other
    have hkeep : id ∈ a.nodes.map CacheNode.id ∨ p.2.id = id →
        id ∈ (a.add p.2).nodes.map CacheNode.id := by
      rw [← h.index, ← hadd.index]
      unfold Numbering.add
      cases hi : a.indexOf[p.2.id]? with
      | some i =>
        rintro (hid | rfl)
        · exact hid
        · simp [hi]
      | none =>
        simp only [ConsistentHashRing.getElem?_insert_id]
        rintro (hid | rfl)
        · split
          · rfl
          · exact hid
        · simp
    rcases hid with hid | ⟨q, hq, hid⟩
    · exact Or.inl (hkeep (Or.inl hid))
    · rcases List.mem_cons.mp hq with rfl | hq
      · exact Or.inl (hkeep (Or.inr hid))
      · exact Or.inr ⟨q, hq, hid⟩

end Numbering

section Build

variable (ring : ConsistentHashRing) (replicationFactor : ℕ) (localId : NodeId) (key : Key)

theorem good_build :
    Numbering.Good (ring.points.toList.map Prod.snd)
      (ring.points.toList.foldl (fun a p => a.add p.2) {}) :=
  Numbering.good_foldl _

/-- The nodes of a table are those of the ring. -/
theorem mem_nodes_build_iff {id : NodeId} :
    id ∈ (build ring replicationFactor localId).nodes.map CacheNode.id ↔
      ∃ (h : UInt32) (node : CacheNode), ring.points[h]? = some node ∧ node.id = id := by
  constructor
  · intro hid
    obtain ⟨node, hnode, rfl⟩ := List.mem_map.mp hid
    obtain ⟨⟨h, x⟩, hp, rfl⟩ := List.mem_map.mp ((good_build ring).subset node hnode)
    exact ⟨h, x, Std.ExtTreeMap.mem_toList_iff_getElem?_eq_some.mp hp, rfl⟩
  · rintro ⟨h, node, hp, rfl⟩
    have hgood : Numbering.Good (ring.points.toList.map Prod.snd) {} := ⟨by simp, by simp, by simp⟩
    refine Numbering.mem_foldl hgood (fun p hp => List.mem_map_of_mem hp)
      (Or.inr ⟨(h, node), ?_, rfl⟩)
    exact Std.ExtTreeMap.mem_toList_iff_getElem?_eq_some.mpr hp

theorem mem_replicas_build {list : List UInt16}
    (h : list ∈ (build ring replicationFactor localId).replicas) :
    list.Nodup ∧ list.length ≤ replicationFactor := by
  obtain ⟨p, -, rfl⟩ := List.mem_map.mp h
  exact ⟨replicasOf_nodup _ _ _, (replicasOf_length_le _ _ _).trans (min_le_left _ _)⟩

/-- The preference list of a key is a list of distinct node numbers, at most `N` of them. -/
theorem preferenceList_build :
    ∃ list : List UInt16, list.Nodup ∧ list.length ≤ replicationFactor ∧
      (build ring replicationFactor localId).preferenceList key =
        list.filterMap fun i => (build ring replicationFactor localId).nodes[i.toNat]? := by
  unfold preferenceList
  split
  · exact ⟨[], by simp, by simp, by simp⟩
  · set t := build ring replicationFactor localId with ht
    rw [preferenceListAt, List.getD_eq_getElem?_getD]
    cases hp : t.replicas[t.pointFor key]? with
    | none => exact ⟨[], by simp, by simp, by simp⟩
    | some list =>
      obtain ⟨hn, hlen⟩ := mem_replicas_build ring replicationFactor localId (ht ▸ List.mem_of_getElem? hp)
      exact ⟨list, hn, hlen, rfl⟩

/-- Preference lists have at most `N` members. -/
theorem length_preferenceList_le :
    ((build ring replicationFactor localId).preferenceList key).length ≤ replicationFactor := by
  obtain ⟨list, -, hlen, heq⟩ := preferenceList_build ring replicationFactor localId key
  rw [heq]
  exact (List.length_filterMap_le _ _).trans hlen

/-- The members of a preference list are nodes of the ring. -/
theorem mem_points_of_mem_preferenceList {node : CacheNode}
    (h : node ∈ (build ring replicationFactor localId).preferenceList key) :
    ∃ p : UInt32, ring.points[p]? = some node := by
  obtain ⟨list, -, -, heq⟩ := preferenceList_build ring replicationFactor localId key
  rw [heq] at h
  obtain ⟨i, -, hi⟩ := List.mem_filterMap.mp h
  have hmem := (good_build ring).subset node (List.mem_of_getElem? hi)
  obtain ⟨⟨p, n⟩, hp, rfl⟩ := List.mem_map.mp hmem
  exact ⟨p, Std.ExtTreeMap.mem_toList_iff_getElem?_eq_some.mp hp⟩

/-- The members of a preference list have distinct ids: a table gives each id one number, also when
the numbers wrap. -/
theorem nodup_preferenceList :
    ((build ring replicationFactor localId).replicaIds key).Nodup := by
  obtain ⟨list, hn, -, heq⟩ := preferenceList_build ring replicationFactor localId key
  rw [replicaIds, heq, List.map_filterMap]
  refine List.Nodup.filterMap ?_ hn
  intro i j id hi hj
  simp only [Option.mem_def, Option.map_eq_some_iff] at hi hj
  obtain ⟨x, hx, rfl⟩ := hi
  obtain ⟨y, hy, hxy⟩ := hj
  have hlt := (List.getElem?_eq_some_iff.mp hx).1
  have hids (k : ℕ) (z : CacheNode)
      (hz : (build ring replicationFactor localId).nodes[k]? = some z) :
      ((build ring replicationFactor localId).nodes.map CacheNode.id)[k]? = some z.id := by
    rw [List.getElem?_map, hz, Option.map_some]
  have hij := (List.getElem?_inj (by rw [List.length_map]; exact hlt) (good_build ring).nodup).mp
    ((hids _ x hx).trans (hxy ▸ (hids _ y hy).symm))
  exact UInt16.toNat_inj.mp hij

/-- The preference list of a key, as the replication protocol uses it. -/
def placement (config : ClusterConfig) : Placement where
  config := config
  targets := (build ring config.replicationFactor localId).replicaIds key
  nodup := nodup_preferenceList ring config.replicationFactor localId key
  length_le := by
    rw [replicaIds, List.length_map]
    exact length_preferenceList_le ring config.replicationFactor localId key

end Build

end RoutingTable

end ShardCache
