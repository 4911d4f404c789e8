import ShardCache.Replication.Handoff

/-!
# The length of hint queues

`add_hint` keeps a queue at `max_hints_per_node` hints. `replay_hints` takes a batch out of the queue
and puts back what it could not send, without looking at the length: what was added while the batch
was out stays in the queue.

## Main definitions

* `Resized`: what a step does to the lengths of a queue and of its batch
* `Node`: a node on which several threads run `replay_hints`
* `LeavesRoom`: while hints are out, one is added only if all of them still fit

## Main results

* `Resized.of_step`, `Node.resized_of_step`: every step does one of these things
* `queue_outgrows_limit`: a queue that is longer than the limit
* `queue_length_le_add_kBatch`: a queue is never longer than the limit and a batch for each pass
* `queues_bounded`: the queues are within the limit in every run that leaves room
-/

namespace ShardCache.Handoff

open Foundations
open Replication (Fanout)

variable {config : ClusterConfig} {self : NodeId} {s s' : State}

/-- The node for which the step calls `add_hint`: a target that is unhealthy or has failed, or the
node of a call from elsewhere. -/
def Label.hintFor (self : NodeId) (s : State) : Label → Option NodeId
  -- a healthy target is sent the write, and this node applies it itself
  | .issue i healthy _ _ =>
    (s.calls[i]?).bind fun c =>
      match c.fanout.todo with
      | [] => none
      | n :: _ => if n = self ∨ healthy then none else some n
  | .callback _ n result _ => if (acknowledged result).isNone then some n else none
  | .addHint n _ _ _ => some n
  | .replicate _ _ _ _ | .replayHints _ => none

/-! ## What a step does to the lengths -/

/-- The queue of a node goes from length `queue` to `queue'`, and its batch from `batch` to `batch'`.
A hint is added only in a step that `adds` one, and only to a queue below the limit. -/
inductive Resized (limit : ℕ) (adds : Prop) (queue batch queue' batch' : ℕ) : Prop where
  | shrink (hqueue : queue' ≤ queue) (hbatch : batch' ≤ batch)
  | append (hadds : adds) (hroom : queue < limit) (hqueue : queue' = queue + 1)
      (hbatch : batch' = batch)
  | take (hnone : batch = 0) (hbatch : batch' = min kBatch queue) (hqueue : batch' + queue' = queue)
  | restore (hqueue : queue' = batch + queue) (hbatch : batch' = 0)

/-- What a step does to the queue and the batch of the node `n`. -/
abbrev ResizedAt (config : ClusterConfig) (adds : Prop) (s s' : State) (n : NodeId) : Prop :=
  Resized config.maxHintsPerNode adds (s.queue n).length (s.replay.inFlight n).length
    (s'.queue n).length (s'.replay.inFlight n).length

variable {adds : Prop} {n m : NodeId}

@[simp] theorem inFlight_idle (n : NodeId) : Replay.idle.inFlight n = [] := rfl

theorem Resized.of_eq (hqueue : s'.queue m = s.queue m) (hreplay : s'.replay = s.replay) :
    ResizedAt config adds s s' m :=
  .shrink (by rw [hqueue]) (by rw [hreplay])

theorem Resized.of_addHint {now : Time} {key : Key} {v : VersionedValue} {call : Option ℕ}
    (hs : s.addHint config now n key v call = some s') (m : NodeId) :
    ResizedAt config (n = m) s s' m := by
  unfold State.addHint at hs
  dsimp only at hs
  split at hs
  · split at hs
    · cases hs
    next oldest queue hqueue =>
      -- a full queue drops its oldest hint for the new one
      cases hs
      refine .shrink ?_ le_rfl
      by_cases hm : n = m
      · subst hm
        rw [hqueue]
        simp [State.queue]
      · simp [State.queue, getD_insert, hm]
  next hroom =>
    cases hs
    by_cases hm : n = m
    · subst hm
      exact .append rfl (not_le.mp hroom) (by simp [State.queue]) rfl
    · exact .shrink (by simp [State.queue, getD_insert, hm]) le_rfl

theorem Resized.of_report {i : ℕ} {c : Call} {f : Fanout Bool} {result : Option Bool} {now : Time}
    (hs : report config s i c f n result now = some s') (m : NodeId) :
    ResizedAt config (result = none ∧ n = m) s s' m := by
  unfold report at hs
  cases result with
  | some live =>
    cases hs
    exact Resized.of_eq rfl rfl
  | none =>
    obtain ⟨s₁, hadd, rfl⟩ := Option.map_eq_some_iff.mp hs
    -- the calls are no part of what is measured
    show ResizedAt config (none = none ∧ n = m) s s₁ m
    simpa using Resized.of_addHint hadd m

theorem Resized.of_takeBatch {now : Time} (hs : takeBatch s now = some s') (m : NodeId) :
    ResizedAt config False s s' m := by
  unfold takeBatch at hs
  split at hs
  next id ids hreplay =>
    -- the queue is cleared
    cases hs
    refine .shrink ?_ (by simp [Replay.inFlight])
    by_cases hm : id = m
    · simp [State.queue, hm]
    · simp [State.queue, getD_insert, hm]
  next id ids hreplay =>
    cases hs
    by_cases hm : id = m
    · subst hm
      exact .take (by simp [hreplay, Replay.inFlight]) (by simp [Replay.inFlight])
        (by simp [State.queue, Replay.inFlight]; omega)
    · exact .shrink (by simp [State.queue, getD_insert, hm]) (by simp [Replay.inFlight, hm])
  · cases hs

theorem Resized.of_sendNext {ok : Bool} (hs : sendNext s ok = some s') (m : NodeId) :
    ResizedAt config False s s' m := by
  unfold sendNext at hs
  split at hs
  next id now delivered ids hreplay =>
    cases hs
    exact .shrink le_rfl (by simp [hreplay, Replay.inFlight])
  next id hint batch now delivered ids hreplay =>
    -- the first hint of the batch leaves it, or stays
    split_ifs at hs <;> cases hs
    all_goals
      refine .shrink le_rfl ?_
      by_cases hm : id = m
      · simp [hreplay, Replay.inFlight, hm]
      · simp [hreplay, Replay.inFlight, hm]
  · cases hs

theorem Resized.of_putBack (hs : putBack s = some s') (m : NodeId) :
    ResizedAt config False s s' m := by
  unfold putBack at hs
  split at hs
  next id hint batch delivered ids hreplay =>
    cases hs
    by_cases hm : id = m
    · subst hm
      exact .restore (by simp [State.queue, hreplay, Replay.inFlight]; omega)
        (by simp [Replay.inFlight])
    · exact .shrink (by simp [State.queue, getD_insert, hm]) (by simp [Replay.inFlight, hm])
  · cases hs

/-- `replay_hints` goes on with no batch out. -/
theorem Resized.of_replay {r : Replay} {delivered : ℕ} (hafter : ∀ n, r.inFlight n = [])
    (m : NodeId) : ResizedAt config adds s { s with replay := r, hintsDelivered := delivered } m :=
  .shrink le_rfl (by simp [hafter m])

theorem Resized.of_replayHints {r : ReplayStep} (hs : replayHints s r = some s') (m : NodeId) :
    ResizedAt config False s s' m := by
  cases r with
  | collectIds ids =>
    simp only [replayHints, collectIds] at hs
    split at hs
    · split_ifs at hs
      cases hs
      exact Resized.of_replay (by simp [Replay.inFlight]) m
    · cases hs
  | visit healthy isNode =>
    simp only [replayHints, visit] at hs
    split at hs
    · cases hs
      refine Resized.of_replay (fun n => ?_) m
      cases healthy <;> rfl
    · cases hs
  | takeBatch now => exact Resized.of_takeBatch hs m
  | sendNext ok => exact Resized.of_sendNext hs m
  | putBack => exact Resized.of_putBack hs m
  | countDelivered =>
    simp only [replayHints, countDelivered] at hs
    split at hs
    · cases hs
      exact Resized.of_replay (by simp [Replay.inFlight]) m
    · cases hs
  | finish =>
    simp only [replayHints, finish] at hs
    split at hs
    · cases hs
      exact Resized.of_replay (by simp [Replay.inFlight]) m
    · cases hs

theorem Resized.mono {limit q b q' b' : ℕ} {adds adds' : Prop} (h : Resized limit adds q b q' b')
    (hadds : adds → adds') : Resized limit adds' q b q' b' := by
  cases h with
  | shrink hqueue hbatch => exact .shrink hqueue hbatch
  | append hadd hroom hqueue hbatch => exact .append (hadds hadd) hroom hqueue hbatch
  | take hnone hbatch hqueue => exact .take hnone hbatch hqueue
  | restore hqueue hbatch => exact .restore hqueue hbatch

/-- **What a step can do to the length of a queue and of its batch.** -/
theorem Resized.of_step {l : Label} (hs : step config self s l = some s') (m : NodeId) :
    ResizedAt config (l.hintFor self s = some m) s s' m := by
  cases l with
  | replicate key v P live =>
    cases hs
    exact Resized.of_eq rfl rfl
  | issue i healthy live now =>
    obtain ⟨c, hc, hs⟩ := Option.bind_eq_some_iff.mp hs
    unfold issue at hs
    split at hs
    · cases hs
    next n rest pending answers hfanout =>
      split_ifs at hs with hself hhealthy
      · exact (Resized.of_report hs m).mono (by simp)
      · cases hs
        exact Resized.of_eq rfl rfl
      · refine (Resized.of_report hs m).mono ?_
        rintro ⟨-, rfl⟩
        simp [Label.hintFor, hc, hfanout, hself, hhealthy]
  | callback i n result now =>
    obtain ⟨c, -, hs⟩ := Option.bind_eq_some_iff.mp hs
    unfold callback at hs
    split_ifs at hs
    refine (Resized.of_report hs m).mono ?_
    rintro ⟨hnone, rfl⟩
    simp [Label.hintFor, hnone]
  | addHint n key v now =>
    refine (Resized.of_addHint hs m).mono ?_
    rintro rfl
    rfl
  | replayHints r => exact (Resized.of_replayHints hs m).mono False.elim

/-! ## Several passes

`replay_hints` is public: next to the pass of `hint_thread_`, others can be under way. -/

/-- A node, with the passes over its queues that other threads make. -/
structure Node where
  state : State := {}
  others : List Replay := []

/-- A step of a node: one of the writes and of `hint_thread_`, a new caller of `replay_hints`, or a
step of an earlier one. -/
inductive NodeLabel where
  | own (l : Label)
  | enter
  | other (i : ℕ) (r : ReplayStep)

namespace Node

/-- The passes of all threads. -/
def passes (node : Node) : List Replay := node.state.replay :: node.others

/-- One step of a node. The pass of another thread works on the same queues. -/
def step (config : ClusterConfig) (self : NodeId) (node : Node) : NodeLabel → Option Node
  | .own l => (Handoff.step config self node.state l).map fun s => { node with state := s }
  | .enter => some { node with others := node.others ++ [.idle] }
  | .other i r =>
    (node.others[i]?).bind fun pass =>
      (replayHints { node.state with replay := pass } r).map fun s =>
        { state := { s with replay := node.state.replay }, others := node.others.set i s.replay }

/-- The number of hints for `n` that the passes have taken out. -/
def outstanding (node : Node) (n : NodeId) : ℕ :=
  (node.passes.map fun pass => (pass.inFlight n).length).sum

end Node

/-- The node for which the step calls `add_hint`. -/
def NodeLabel.hintFor (self : NodeId) (node : Node) : NodeLabel → Option NodeId
  | .own l => l.hintFor self node.state
  | .enter | .other _ _ => none

/-- While hints for a node are out, one is added only if those and the queue together are below the
limit. -/
def LeavesRoom (config : ClusterConfig) (self : NodeId) (node : Node) (l : NodeLabel) : Prop :=
  ∀ n ∈ l.hintFor self node, node.outstanding n ≠ 0 →
    node.outstanding n + (node.state.queue n).length < config.maxHintsPerNode

instance (config : ClusterConfig) (self : NodeId) (node : Node) (l : NodeLabel) :
    Decidable (LeavesRoom config self node l) :=
  inferInstanceAs (Decidable (∀ n ∈ l.hintFor self node, _))

theorem exists_set_eq {α : Type*} {as : List α} {i : ℕ} {a : α} (h : as[i]? = some a) (b : α) :
    ∃ before after, as = before ++ a :: after ∧ as.set i b = before ++ b :: after := by
  obtain ⟨hi, rfl⟩ := List.getElem?_eq_some_iff.mp h
  exact ⟨as.take i, as.drop (i + 1), by simp, by rw [List.set_eq_take_append_cons_drop, if_pos hi]⟩

/-- **What a step does to the queues and the passes**: one pass moves, or a new one enters. -/
theorem Node.resized_of_step {node node' : Node} {l : NodeLabel}
    (hs : node.step config self l = some node') :
    (∃ (before : List Replay) (pass pass' : Replay) (after : List Replay),
      node.passes = before ++ pass :: after ∧ node'.passes = before ++ pass' :: after ∧
      ∀ n, Resized config.maxHintsPerNode (l.hintFor self node = some n)
        (node.state.queue n).length (pass.inFlight n).length
        (node'.state.queue n).length (pass'.inFlight n).length) ∨
    (node'.state = node.state ∧ node'.passes = node.passes ++ [.idle]) := by
  cases l with
  | own l =>
    obtain ⟨s, hstep, rfl⟩ := Option.map_eq_some_iff.mp hs
    exact .inl ⟨[], node.state.replay, s.replay, node.others, rfl, rfl, Resized.of_step hstep⟩
  | enter =>
    cases hs
    exact .inr ⟨rfl, rfl⟩
  | other i r =>
    obtain ⟨pass, hpass, hs⟩ := Option.bind_eq_some_iff.mp hs
    obtain ⟨s, hreplay, rfl⟩ := Option.map_eq_some_iff.mp hs
    obtain ⟨before, after, hothers, hset⟩ := exists_set_eq hpass s.replay
    refine .inl ⟨node.state.replay :: before, pass, s.replay, after, ?_, ?_, fun n => ?_⟩
    · simp [Node.passes, hothers]
    · simp [Node.passes, hset]
    · exact (Resized.of_replayHints hreplay n).mono False.elim

/-! ## Bounds -/

/-- A hint is added while the only hint is out, and the peer fails. -/
def overtakenPass : List NodeLabel :=
  [.own (.addHint [98] [107] { version := 7 } 1), .own (.replayHints (.collectIds [[98]])),
    .own (.replayHints (.visit true true)), .own (.replayHints (.takeBatch 2)),
    .own (.addHint [98] [108] { version := 8 } 3), .own (.replayHints (.sendNext false)),
    .own (.replayHints .putBack)]

/-- **A queue outgrows the limit**: the one hint that there is room for is put back to another. -/
theorem queue_outgrows_limit :
    ∃ node, run (Node.step { maxHintsPerNode := 1 } [97]) {} overtakenPass = some node ∧
      (node.state.queue [98]).length = 2 := by
  have hrun : ((run (Node.step { maxHintsPerNode := 1 } [97]) {} overtakenPass).map fun node =>
      (node.state.queue [98]).length) = some 2 := by decide
  exact Option.map_eq_some_iff.mp hrun

section Lengths

variable {limit queue batch queue' batch' rest : ℕ}

/-- With room for the hints that are out, they still fit after the step. -/
theorem Resized.add_le (h : Resized limit adds queue batch queue' batch')
    (hroom : adds → batch + rest ≠ 0 → batch + rest + queue < limit)
    (hle : batch + rest + queue ≤ limit) : batch' + rest + queue' ≤ limit := by
  cases h with
  | shrink hqueue hbatch => omega
  | append hadds hlt hqueue hbatch =>
    -- with no hint out, `add_hint` itself has looked at the length
    by_cases hout : batch + rest = 0
    · omega
    · have hfits := hroom hadds hout
      omega
  | take hnone hbatch hqueue => omega
  | restore hqueue hbatch => omega

/-- The room that a pass takes from the queue of a node, at most: a whole batch if it has hints. -/
def share (batch : ℕ) : ℕ := if batch = 0 then 0 else kBatch

@[simp] theorem share_zero : share 0 = 0 := rfl

theorem share_le (batch : ℕ) : share batch ≤ kBatch := by
  unfold share
  split_ifs
  · exact Nat.zero_le _
  · exact le_rfl

/-- A pass that has hints out leaves room for them beyond the limit. -/
theorem Resized.add_share_le {room : ℕ} (h : Resized limit adds queue batch queue' batch')
    (hrest : rest ≤ room) (hbatch : batch ≤ kBatch)
    (hle : queue + (share batch + rest) ≤ limit + (kBatch + room)) :
    batch' ≤ kBatch ∧ queue' + (share batch' + rest) ≤ limit + (kBatch + room) := by
  have hshare' : share batch' ≤ kBatch := share_le batch'
  cases h with
  | shrink hqueue hshrink =>
    have hmono : share batch' ≤ share batch := by
      unfold share
      split_ifs <;> omega
    omega
  | append _ hlt hqueue hsame => omega
  | take hnone htake hqueue =>
    -- either a whole batch leaves the queue, or all of it
    have hempty : share batch = 0 := if_pos hnone
    rcases Nat.eq_zero_or_pos batch' with h0 | hpos
    · have hempty' : share batch' = 0 := if_pos h0
      omega
    · omega
  | restore hqueue hnone =>
    have hempty' : share batch' = 0 := if_pos hnone
    have hfits : batch ≤ share batch := by
      unfold share
      split_ifs <;> omega
    omega

end Lengths

/-- A queue exceeds the limit by at most a batch for each pass that has no hints of it. -/
structure NearLimit (config : ClusterConfig) (node : Node) (n : NodeId) : Prop where
  batch : ∀ pass ∈ node.passes, (pass.inFlight n).length ≤ kBatch
  queue : (node.state.queue n).length +
      (node.passes.map fun pass => share (pass.inFlight n).length).sum ≤
    config.maxHintsPerNode + node.passes.length * kBatch

theorem sum_share_le (passes : List Replay) (n : NodeId) :
    (passes.map fun pass => share (pass.inFlight n).length).sum ≤ passes.length * kBatch := by
  have hsum := List.sum_le_card_nsmul (passes.map fun pass => share (pass.inFlight n).length) kBatch
    (by simp [share_le])
  simpa using hsum

theorem NearLimit.of_step {node node' : Node} {l : NodeLabel} {n : NodeId}
    (h : NearLimit config node n) (hs : node.step config self l = some node') :
    NearLimit config node' n := by
  rcases Node.resized_of_step hs with ⟨before, pass, pass', after, hpasses, hpasses', hresized⟩ |
      ⟨hstate, hpasses'⟩
  · have hrest := Nat.add_le_add (sum_share_le before n) (sum_share_le after n)
    have hqueue := h.queue
    have hbatch := h.batch
    simp only [hpasses, List.map_append, List.map_cons, List.sum_append, List.sum_cons,
      List.length_append, List.length_cons, List.forall_mem_append, List.forall_mem_cons]
      at hqueue hbatch
    obtain ⟨hpass', hqueue'⟩ := (hresized n).add_share_le hrest hbatch.2.1 (by linarith)
    constructor
    · simpa only [hpasses', List.forall_mem_append, List.forall_mem_cons] using
        ⟨hbatch.1, hpass', hbatch.2.2⟩
    · simp only [hpasses', List.map_append, List.map_cons, List.sum_append, List.sum_cons,
        List.length_append, List.length_cons]
      linarith
  · have hqueue := h.queue
    constructor
    · simpa only [hpasses', List.forall_mem_append, List.forall_mem_singleton] using
        ⟨h.batch, by simp⟩
    · simp only [hpasses', hstate, List.map_append, List.sum_append, List.length_append]
      simp only [List.map_singleton, List.sum_singleton, List.length_singleton, inFlight_idle,
        List.length_nil, share_zero]
      linarith

/-- **A queue is never longer than the limit and a batch for each pass.** -/
theorem queue_length_le_add_kBatch {labels : List NodeLabel} {node : Node}
    (hrun : run (Node.step config self) {} labels = some node) (n : NodeId) :
    (node.state.queue n).length ≤ config.maxHintsPerNode + node.passes.length * kBatch := by
  have hnear : NearLimit config node n := by
    refine run_invariant (I := fun node => NearLimit config node n)
      (fun node l node' h _ hs => h.of_step hs) ?_ (along_true _ labels)
      hrun
    exact ⟨by simp [Node.passes], by simp [State.queue, Node.passes]⟩
  exact le_of_add_le_left hnear.queue

/-- The hints that are out and those in the queue fit together, if a step leaves room. -/
theorem Node.outstanding_add_le_of_step {node node' : Node} {l : NodeLabel} {n : NodeId}
    (hs : node.step config self l = some node') (hroom : LeavesRoom config self node l)
    (hle : node.outstanding n + (node.state.queue n).length ≤ config.maxHintsPerNode) :
    node'.outstanding n + (node'.state.queue n).length ≤ config.maxHintsPerNode := by
  rcases Node.resized_of_step hs with ⟨before, pass, pass', after, hpasses, hpasses', hresized⟩ |
      ⟨hstate, hpasses'⟩
  · have hroom := fun hadd => hroom n (Option.mem_def.mpr hadd)
    simp only [Node.outstanding, hpasses, hpasses', List.map_append, List.map_cons,
      List.sum_append, List.sum_cons] at hle hroom ⊢
    -- the hints of the other passes stay where they are
    rw [Nat.add_left_comm] at hle hroom ⊢
    exact (hresized n).add_le hroom hle
  · simpa [Node.outstanding, hpasses', hstate] using hle

/-- **Hint queues are bounded** in every run that leaves room for the hints that are out. -/
theorem queues_bounded {labels : List NodeLabel} {node : Node}
    (hroom : Along (Node.step config self) (LeavesRoom config self) {} labels)
    (hrun : run (Node.step config self) {} labels = some node) (n : NodeId) :
    (node.state.queue n).length ≤ config.maxHintsPerNode := by
  -- the invariant counts the hints that are out as if they were still in the queue
  have hfits : node.outstanding n + (node.state.queue n).length ≤ config.maxHintsPerNode := by
    refine run_invariant (I := fun node => node.outstanding n + (node.state.queue n).length ≤
      config.maxHintsPerNode) (fun node l node' hle hleaves hs => ?_) ?_ hroom hrun
    · exact Node.outstanding_add_le_of_step hs hleaves hle
    · simp [Node.outstanding, Node.passes, State.queue]
  exact le_of_add_le_right hfits

/-- With room for two hints, the one that is out and the one that is added both fit. -/
theorem queues_bounded_putBack :
    ∃ node, run (Node.step { maxHintsPerNode := 2 } [97]) {} overtakenPass = some node ∧
      (node.state.queue [98]).length ≤ 2 := by
  have hroom : Along (Node.step { maxHintsPerNode := 2 } [97])
      (LeavesRoom { maxHintsPerNode := 2 } [97]) {} overtakenPass := by decide
  have hsome : (run (Node.step { maxHintsPerNode := 2 } [97]) {} overtakenPass).isSome := by
    decide
  obtain ⟨node, hrun⟩ := Option.isSome_iff_exists.mp hsome
  exact ⟨node, hrun, queues_bounded hroom hrun [98]⟩

end ShardCache.Handoff
