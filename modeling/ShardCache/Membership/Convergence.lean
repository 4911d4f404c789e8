import ShardCache.Membership.Gossip

/-!
# Convergence of gossip

When no exchange changes a view any more, all live nodes know every node at the same generation.
Their tables are then equal if a generation of a node belongs to one entry. It need not: `remove_node`
on one node and the removed node itself, which outranks its removal, can arrive at the same
generation, and since ties are ignored the two entries stay side by side for ever.

## Main definitions

* `Quiescent`: no exchange between two live nodes changes a view
* `FreshEntries`: the entries that a step creates clash with no entry in the system

## Main results

* `removed_node_stays_alive_elsewhere`: a quiescent state in which a node is alive to some and left
  to others
* `gossip_converges`: in runs whose steps create fresh entries, quiescent nodes have equal tables
-/

namespace ShardCache.Membership

open Foundations ConsistentHashRing

variable {s s' : System} {l : Label} {ls : List Label}

/-- No exchange changes a view: merging the view of one live node leaves that of every other as it
is. -/
def Quiescent (s : System) : Prop :=
  ∀ x ∈ s.live.toList, ∀ y ∈ s.live.toList, (y.2.mergeGossip x.2.view).2 = y.2.view

instance (s : System) : Decidable (Quiescent s) :=
  inferInstanceAs (Decidable (∀ x ∈ s.live.toList, ∀ y ∈ s.live.toList, _))

/-! ## A tie between a node and its removal -/

/-- A full exchange between two nodes, when no other message is in flight. -/
def fullExchange (src dest : NodeId) : List Label :=
  [.exchange src dest, .deliver 0, .deliver 0]

/-- Node `[97]` removes node `[120]`. The news reaches node `[120]` through node `[98]`; it outranks
the removal, and node `[97]` removes it once more before it hears of that. -/
def removedTwice : List Label :=
  [Label.boot ⟨[97], [], 7001⟩ 3 5, Label.boot ⟨[98], [], 7002⟩ 3 5,
      Label.boot ⟨[120], [], 7003⟩ 3 5] ++
    fullExchange [97] [120] ++ fullExchange [97] [98] ++ [Label.op [97] (.removeNode [120])] ++
    fullExchange [97] [98] ++ fullExchange [98] [120] ++ [Label.op [97] (.removeNode [120])] ++
    fullExchange [97] [98] ++ fullExchange [98] [120] ++ fullExchange [97] [120]

/-- What a node has in its table about another. -/
def System.entry (s : System) (n id : NodeId) : Option MemberInfo :=
  (s.live[n]?).bind fun st => st.members[id]?

/-- **Gossip does not converge**: the exchanges have settled, and a removed node is left to the node
that removed it and alive to the others, at the same generation. -/
theorem removed_node_stays_alive_elsewhere :
    ∃ s, run gossipStep {} removedTwice = some s ∧ Quiescent s ∧ s.net = [] ∧
      s.entry [97] [120] = some ⟨⟨[120], [], 7003⟩, 7, .left⟩ ∧
      s.entry [98] [120] = some ⟨⟨[120], [], 7003⟩, 7, .alive⟩ ∧
      s.entry [120] [120] = some ⟨⟨[120], [], 7003⟩, 7, .alive⟩ := by
  have hrun : (run gossipStep {} removedTwice).map (fun s =>
      (decide (Quiescent s), s.net, s.entry [97] [120], s.entry [98] [120], s.entry [120] [120])) =
      some (true, [], some ⟨⟨[120], [], 7003⟩, 7, .left⟩, some ⟨⟨[120], [], 7003⟩, 7, .alive⟩,
        some ⟨⟨[120], [], 7003⟩, 7, .alive⟩) := by decide
  obtain ⟨s, hs, hrun⟩ := Option.map_eq_some_iff.mp hrun
  simp only [Prod.mk.injEq, decide_eq_true_eq] at hrun
  exact ⟨s, hs, hrun⟩

/-! ## Generations -/

section Generations

variable {st st' : State} {m : MemberInfo} {b : Bool} {remote : List MemberInfo}

/-- The generation at which a table knows a node, `⊥` if it does not. -/
def State.generation (st : State) (id : NodeId) : WithBot UInt64 :=
  match st.members[id]? with
  | none => ⊥
  | some e => e.generation

theorem State.generation_of_some {id : NodeId} {e : MemberInfo}
    (h : st.members[id]? = some e) : st.generation id = e.generation := by
  simp only [State.generation, h]

theorem State.generation_of_none {id : NodeId} (h : st.members[id]? = none) :
    st.generation id = ⊥ := by
  simp only [State.generation, h]

theorem State.generation_insert_self {id : NodeId} {e : MemberInfo}
    (h : st'.members = st.members.insert id e) : st'.generation id = e.generation :=
  generation_of_some (by rw [h, getElem?_insert_id, if_pos rfl])

theorem State.generation_insert_of_ne {id id' : NodeId} {e : MemberInfo}
    (h : st'.members = st.members.insert id e) (hne : id' ≠ id) :
    st'.generation id' = st.generation id' := by
  rw [State.generation, h, getElem?_insert_id, if_neg hne, State.generation]

/-- An entry moves no generation down, and that of its node at least up to its own. -/
theorem Applies.generation_le (h : Applies st m st' b) (hlast : m.generation ≠ lastGeneration) :
    (∀ id, st.generation id ≤ st'.generation id) ∧
      (m.generation : WithBot UInt64) ≤ st'.generation m.node.id := by
  -- an entry that replaces one of a generation as low
  have hinsert {e : MemberInfo} (heq : st'.members = st.members.insert m.node.id e)
      (hst : st.generation m.node.id ≤ e.generation) (hm : m.generation ≤ e.generation) :
      (∀ id, st.generation id ≤ st'.generation id) ∧
        (m.generation : WithBot UInt64) ≤ st'.generation m.node.id := by
    refine ⟨?_, ?_⟩
    · intro id
      by_cases hid : id = m.node.id
      · rw [hid, State.generation_insert_self heq]
        exact hst
      · exact (State.generation_insert_of_ne heq hid).ge
    · rw [State.generation_insert_self heq]
      exact WithBot.coe_le_coe.mpr hm
  rcases h.members with ⟨known, hk, hle, heq⟩ | ⟨known, hk, hlt, -, heq⟩ | ⟨hacc, heq⟩
  · have hgen (id : NodeId) : st'.generation id = st.generation id := by
      rw [State.generation, heq, State.generation]
    refine ⟨fun id => (hgen id).ge, ?_⟩
    rw [hgen, State.generation_of_some hk]
    exact WithBot.coe_le_coe.mpr hle
  · have hsucc := lt_add_one_of_ne_last hlast
    refine hinsert heq ?_ hsucc.le
    rw [State.generation_of_some hk]
    exact WithBot.coe_le_coe.mpr (hlt.trans hsucc).le
  · refine hinsert heq ?_ le_rfl
    cases hk : st.members[m.node.id]? with
    | none =>
      rw [State.generation_of_none hk]
      exact bot_le
    | some known =>
      rw [State.generation_of_some hk]
      exact WithBot.coe_le_coe.mpr (hacc known hk).1.le

/-- **After a merge, a node knows every node at least as well as the view merged.** -/
theorem generation_le_mergeGossip (hlast : ∀ m ∈ remote, m.generation ≠ lastGeneration)
    (hm : m ∈ remote) :
    (m.generation : WithBot UInt64) ≤ (st.mergeGossip remote).1.generation m.node.id := by
  have hfold (a : Applied) (hm : m ∈ remote ∨
      (m.generation : WithBot UInt64) ≤ a.state.generation m.node.id) :
      (m.generation : WithBot UInt64) ≤
        (remote.foldl Applied.next a).state.generation m.node.id := by
    clear * - hlast hm
    induction remote generalizing a with
    | nil => simpa using hm
    | cons m' remote ih =>
      have h := (applies_applyMember a.state m' a.changes).generation_le
        (hlast m' List.mem_cons_self)
      refine ih (fun m hm => hlast m (List.mem_cons_of_mem _ hm)) (a.next m') ?_
      rcases hm with hm | hm
      · rcases List.mem_cons.mp hm with rfl | hm
        · exact Or.inr h.2
        · exact Or.inl hm
      · exact Or.inr (hm.trans (h.1 _))
  rw [State.generation, members_mergeGossip]
  exact hfold { state := st } (Or.inl hm)

end Generations

/-! ## Fresh entries -/

/-- The entries that the step creates have room above their generation, and clash with no entry
that a node or a message holds. -/
def FreshEntries (s : System) (l : Label) : Prop :=
  ∀ e ∈ created s l, e.generation ≠ lastGeneration ∧ ∀ e' ∈ s.pool, SameGeneration e e'

instance (s : System) (l : Label) : Decidable (FreshEntries s l) :=
  inferInstanceAs (Decidable (∀ e ∈ created s l, _))

/-- The entries with which a node outranks others differ in their generations only. -/
theorem sameGeneration_outranks {st : State} {view : List MemberInfo} {e e' : MemberInfo}
    (he : e ∈ st.outranks view) (he' : e' ∈ st.outranks view) : SameGeneration e e' := by
  cases hme : st.members[st.localNode.id]? with
  | none => simp [State.outranks, hme] at he
  | some me =>
    simp only [State.outranks, hme, List.mem_map] at he he'
    obtain ⟨m, -, rfl⟩ := he
    obtain ⟨m', -, rfl⟩ := he'
    intro _ hgen
    replace hgen : m.generation + 1 = m'.generation + 1 := hgen
    rw [hgen]

/-- An operation creates one entry at most. -/
theorem sameGeneration_creates {st : State} {op : Op} {e e' : MemberInfo}
    (he : e ∈ st.creates op) (he' : e' ∈ st.creates op) : SameGeneration e e' := by
  have hlen : (st.creates op).length ≤ 1 := by
    cases op with
    | mergeGossip remote => exact Nat.zero_le _
    | addNode node =>
      simp only [State.creates]
      split <;> simp
    | removeNode id =>
      simp only [State.creates]
      split
      · simp
      · split <;> simp
    | leave =>
      simp only [State.creates]
      split <;> simp
  intro _ _
  rcases Nat.le_one_iff_eq_zero_or_eq_one.mp hlen with hc | hc
  · rw [List.length_eq_zero_iff.mp hc] at he
    exact absurd he List.not_mem_nil
  · obtain ⟨e₀, hc⟩ := List.length_eq_one_iff.mp hc
    rw [hc, List.mem_singleton] at he he'
    rw [he, he']

/-- The entries that one step creates do not clash with each other. -/
theorem sameGeneration_created {e e' : MemberInfo} (he : e ∈ created s l)
    (he' : e' ∈ created s l) : SameGeneration e e' := by
  have hsingle {e₀ : MemberInfo} (he : e ∈ [e₀]) (he' : e' ∈ [e₀]) : SameGeneration e e' :=
    fun _ _ => (List.mem_singleton.mp he).trans (List.mem_singleton.mp he').symm
  cases l with
  | boot localNode replicationFactor bootMs => exact hsingle he he'
  | crash n => exact absurd he List.not_mem_nil
  | exchange src dest => exact absurd he List.not_mem_nil
  | lose i => exact absurd he List.not_mem_nil
  | op n op =>
    simp only [created] at he he'
    cases hn : s.live[n]? with
    | none => simp [hn] at he
    | some st =>
      simp only [hn] at he he'
      exact sameGeneration_creates he he'
  | deliver i =>
    simp only [created] at he he'
    split at he
    · exact absurd he List.not_mem_nil
    · split at he
      · exact absurd he List.not_mem_nil
      · exact sameGeneration_outranks he (by simp_all)

theorem Sound.step (hs : Sound s) (hl : FreshEntries s l) (h : gossipStep s l = some s') :
    Sound s' where
  present n st' hn := by
    rcases live_step h hn with hn | ⟨st, op, hn, hop⟩ | ⟨localNode, replicationFactor, bootMs, rfl⟩
    · exact hs.present n st' hn
    · exact (hs.present n st hn).step hop
    · exact present_init localNode replicationFactor bootMs
  room e he := by
    rcases pool_step hs h he with he | he
    · exact hs.room e he
    · exact (hl e he).1
  unique e he e' he' := by
    rcases pool_step hs h he with he | he
    · rcases pool_step hs h he' with he' | he'
      · exact hs.unique e he e' he'
      · exact fun hid hg => ((hl e' he').2 e he hid.symm hg.symm).symm
    · rcases pool_step hs h he' with he' | he'
      · exact (hl e he).2 e' he'
      · exact sameGeneration_created he he'

/-! ## Quiescence -/

theorem sound_of_run (hr : run gossipStep {} ls = some s)
    (hA : Along gossipStep FreshEntries {} ls) : Sound s := by
  have hinit : Sound {} := by
    refine ⟨fun n st hn => ?_, fun e he => ?_, fun e he => ?_⟩
    · simp at hn
    all_goals simp [System.pool] at he
  exact run_invariant (fun s l s' hs hl h => hs.step hl h) hinit hA hr

/-- A quiescent node knows every node at least as well as the other live nodes do. -/
theorem Quiescent.exists_entry (hq : Quiescent s) (hs : Sound s) {a b : NodeId} {sa sb : State}
    (ha : s.live[a]? = some sa) (hb : s.live[b]? = some sb) {id : NodeId} {e : MemberInfo}
    (he : sa.members[id]? = some e) :
    ∃ e', sb.members[id]? = some e' ∧ e.generation ≤ e'.generation := by
  have hmem : e ∈ sa.view := mem_view.mpr ⟨id, he⟩
  have hle : (e.generation : WithBot UInt64) ≤
      (sb.mergeGossip sa.view).1.generation e.node.id :=
    generation_le_mergeGossip (fun m hm => hs.room m (mem_pool_of_live ha hm)) hmem
  have hview : (sb.mergeGossip sa.view).1.view = sb.view := by
    rw [← view_mergeGossip]
    exact hq (a, sa) (Std.ExtTreeMap.mem_toList_iff_getElem?_eq_some.mpr ha)
      (b, sb) (Std.ExtTreeMap.mem_toList_iff_getElem?_eq_some.mpr hb)
  have hpb := hs.present b sb hb
  have hmerge : step sb (.mergeGossip sa.view) = some (sb.mergeGossip sa.view).1 := rfl
  have hpm : Present (sb.mergeGossip sa.view).1 := hpb.step hmerge
  rw [(hs.present a sa ha).key id e he] at hle
  -- the merged table has an entry for the node, which was in the table before
  cases hmerged : (sb.mergeGossip sa.view).1.members[id]? with
  | none =>
    rw [State.generation_of_none hmerged] at hle
    exact absurd hle (WithBot.not_coe_le_bot _)
  | some e' =>
    rw [State.generation_of_some hmerged] at hle
    obtain ⟨id', he'⟩ := mem_view.mp (hview ▸ mem_view.mpr ⟨id, hmerged⟩)
    have hid : id' = id := (hpb.key id' e' he').symm.trans (hpm.key id e' hmerged)
    exact ⟨e', hid ▸ he', WithBot.coe_le_coe.mp hle⟩

/-- **Gossip converges**, in every run whose steps create fresh entries only: once no exchange
between live nodes changes a view, they have the same entry, with its status and address, for every
node. -/
theorem gossip_converges (hr : run gossipStep {} ls = some s)
    (hA : Along gossipStep FreshEntries {} ls) (hq : Quiescent s) {a b : NodeId} {sa sb : State}
    (ha : s.live[a]? = some sa) (hb : s.live[b]? = some sb) (id : NodeId) :
    sa.members[id]? = sb.members[id]? := by
  have hs := sound_of_run hr hA
  cases hea : sa.members[id]? with
  | none =>
    refine (Option.eq_none_iff_forall_not_mem.mpr ?_).symm
    intro e he
    obtain ⟨e', he', -⟩ := hq.exists_entry hs hb ha he
    exact absurd (hea.symm.trans he') (by simp)
  | some e =>
    obtain ⟨e', he', hle⟩ := hq.exists_entry hs ha hb hea
    obtain ⟨e'', he'', hge⟩ := hq.exists_entry hs hb ha he'
    obtain rfl := Option.some.inj (hea.symm.trans he'')
    -- each knows the node as well as the other, and a generation belongs to one entry
    have hid : e.node.id = e'.node.id :=
      ((hs.present a sa ha).key id e hea).trans ((hs.present b sb hb).key id e' he').symm
    have heq := hs.unique e (mem_pool_of_live ha (mem_view.mpr ⟨id, hea⟩))
      e' (mem_pool_of_live hb (mem_view.mpr ⟨id, he'⟩)) hid (le_antisymm hle hge)
    rw [he', heq]

/-- Node `[97]` removes node `[120]`, which outranks that; all hear of it before node `[98]`
leaves. -/
def removedOnce : List Label :=
  [Label.boot ⟨[97], [], 7001⟩ 3 5, Label.boot ⟨[98], [], 7002⟩ 3 5,
      Label.boot ⟨[120], [], 7003⟩ 3 5] ++
    fullExchange [97] [120] ++ fullExchange [97] [98] ++ [Label.op [97] (.removeNode [120])] ++
    fullExchange [97] [98] ++ fullExchange [98] [120] ++ fullExchange [97] [98] ++
    [Label.op [98] .leave] ++ fullExchange [98] [97] ++ fullExchange [97] [120]

theorem gossip_converges_removedOnce :
    ∃ s sa sx, run gossipStep {} removedOnce = some s ∧ s.live[([97] : NodeId)]? = some sa ∧
      s.live[([120] : NodeId)]? = some sx ∧
      sx.members[([98] : NodeId)]? = some ⟨⟨[98], [], 7002⟩, 6, .left⟩ ∧
      ∀ id : NodeId, sa.members[id]? = sx.members[id]? := by
  have hrun : (run gossipStep {} removedOnce).map (fun s =>
      (decide (Quiescent s), (s.live[([97] : NodeId)]?).isSome, s.entry [120] [98])) =
      some (true, true, some ⟨⟨[98], [], 7002⟩, 6, .left⟩) := by decide
  have hA : Along gossipStep FreshEntries {} removedOnce := by decide
  obtain ⟨s, hs, hrun⟩ := Option.map_eq_some_iff.mp hrun
  simp only [Prod.mk.injEq, decide_eq_true_eq, Option.isSome_iff_exists] at hrun
  obtain ⟨hq, ⟨sa, ha⟩, hentry⟩ := hrun
  obtain ⟨sx, hx, hentry⟩ := Option.bind_eq_some_iff.mp hentry
  exact ⟨s, sa, sx, hs, ha, hx, hentry, gossip_converges hs hA hq ha hx⟩

end ShardCache.Membership
