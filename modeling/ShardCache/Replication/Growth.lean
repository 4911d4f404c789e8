import ShardCache.Replication.Fanout

/-!
# What a step can only increase

While nothing expires, replicas only move to larger tags, clocks only advance, and operations only
go forward: their request, coordinator and call time are fixed, a stamp is never taken back, and an
operation that has returned does not change.

## Main definitions

* `Op.Evolves`, `Grows`: an operation, and the system, after any number of steps
* `Op.Continues`: an operation after its thread ran up to its next access to shared data

## Main results

* `Grows.trans`: growth composes along a run
* `Grows.setOp`, `Grows.setNode_clock`, `Grows.applyAt`, `Grows.addHint`: each primitive update
  grows the state
-/

namespace ShardCache.Replication

/-! ## Primitive updates -/

namespace State

variable (s : State) (P : Placement) (i j : OpId) (o : Op) (m : Msg) (c n a b : NodeId)
  (v : VersionedValue) (version : UInt64) (now : Time)

@[simp] theorem setOp_nodes : (s.setOp i o).nodes = s.nodes := rfl
@[simp] theorem setOp_net : (s.setOp i o).net = s.net := rfl
@[simp] theorem setOp_time : (s.setOp i o).time = s.time := rfl
@[simp] theorem setOp_tag : (s.setOp i o).tag = s.tag := rfl
@[simp] theorem setOp_clock : (s.setOp i o).clock = s.clock := rfl

@[simp] theorem send_nodes : (s.send m).nodes = s.nodes := rfl
@[simp] theorem send_ops : (s.send m).ops = s.ops := rfl
@[simp] theorem send_net : (s.send m).net = s.net ++ [m] := rfl
@[simp] theorem send_time : (s.send m).time = s.time := rfl
@[simp] theorem send_tag : (s.send m).tag = s.tag := rfl
@[simp] theorem send_clock : (s.send m).clock = s.clock := rfl

@[simp] theorem observeAt_ops : (s.observeAt n version).ops = s.ops := rfl
@[simp] theorem observeAt_net : (s.observeAt n version).net = s.net := rfl
@[simp] theorem observeAt_time : (s.observeAt n version).time = s.time := rfl

@[simp] theorem applyAt_ops : (s.applyAt P n now v).ops = s.ops := rfl
@[simp] theorem applyAt_net : (s.applyAt P n now v).net = s.net := rfl
@[simp] theorem applyAt_time : (s.applyAt P n now v).time = s.time := rfl

@[simp] theorem addHint_ops : (s.addHint P c n v now).ops = s.ops := rfl
@[simp] theorem addHint_net : (s.addHint P c n v now).net = s.net := rfl
@[simp] theorem addHint_time : (s.addHint P c n v now).time = s.time := rfl

theorem setOp_ops_self {o' : Op} (h : s.ops[i]? = some o) : (s.setOp i o').ops[i]? = some o' := by
  have hi : i < s.ops.length := (List.getElem?_eq_some_iff.mp h).1
  simp [setOp, hi]

theorem setOp_ops_ne (h : i ≠ j) : (s.setOp i o).ops[j]? = s.ops[j]? := by
  simp [setOp, h]

/-- A change of a node's clock leaves every entry alone. -/
theorem setNode_clock_tag (x : UInt64) : (s.setNode n { s.nodes n with clock := x }).tag = s.tag := by
  funext a
  by_cases h : a = n
  · subst h; simp [tag, setNode]
  · simp [tag, setNode, h]

theorem setNode_clock_self (x : UInt64) :
    (s.setNode n { s.nodes n with clock := x }).clock n = x := by
  simp [clock, setNode]

theorem setNode_clock_ne (x : UInt64) (h : a ≠ n) :
    (s.setNode n { s.nodes n with clock := x }).clock a = s.clock a := by
  simp [clock, setNode, h]

theorem setNode_clock_hints (x : UInt64) :
    ((s.setNode n { s.nodes n with clock := x }).nodes a).hints = (s.nodes a).hints := by
  by_cases h : a = n
  · subst h; simp [setNode]
  · simp [setNode, h]

theorem applyAt_tag_self :
    (s.applyAt P n now v).tag n =
      slotTag (applySlot P.config.tombstoneTtl now v (s.nodes n).slot) := by
  simp [applyAt, tag, setNode]

theorem applyAt_tag_ne (h : a ≠ n) : (s.applyAt P n now v).tag a = s.tag a := by
  simp [applyAt, tag, setNode, h]

@[simp] theorem applyAt_clock : (s.applyAt P n now v).clock = s.clock := by
  funext a
  by_cases h : a = n
  · subst h; simp [applyAt, clock, setNode]
  · simp [applyAt, clock, setNode, h]

theorem applyAt_hints : ((s.applyAt P n now v).nodes a).hints = (s.nodes a).hints := by
  by_cases h : a = n
  · subst h; simp [applyAt, setNode]
  · simp [applyAt, setNode, h]

@[simp] theorem addHint_tag : (s.addHint P c n v now).tag = s.tag := by
  funext a
  by_cases h : a = c
  · subst h; simp [addHint, tag, setNode]
  · simp [addHint, tag, setNode, h]

@[simp] theorem addHint_clock : (s.addHint P c n v now).clock = s.clock := by
  funext a
  by_cases h : a = c
  · subst h; simp [addHint, clock, setNode]
  · simp [addHint, clock, setNode, h]

/-- The only new hint is for the write that was added. -/
theorem mem_addHint {x : Hint} (h : x ∈ ((s.addHint P c n v now).nodes a).hints b) :
    x ∈ (s.nodes a).hints b ∨ x.value = v := by
  by_cases ha : a = c
  · subst ha
    by_cases hb : b = n
    · subst hb
      simp only [addHint, setNode, Function.update_self, List.mem_append, List.mem_singleton] at h
      rcases h with h | rfl
      · split at h
        · exact Or.inl (List.mem_of_mem_tail h)
        · exact Or.inl h
      · exact Or.inr rfl
    · simp only [addHint, setNode, Function.update_self, Function.update_of_ne hb] at h
      exact Or.inl h
  · simp only [addHint, setNode, Function.update_of_ne ha] at h
    exact Or.inl h

end State

/-! ## Operations go forward -/

namespace Op

/-- What an operation may have become after the time `time`. -/
structure Evolves (time : ℕ) (o o' : Op) : Prop where
  coord : o'.coord = o.coord
  request : o'.request = o.request
  call : o'.call = o.call
  stamped : ∀ u, o.stamped = some u → o'.stamped = some u
  returned : ∀ r, o.reply = some r → o' = o
  late : ∀ r, o.reply = none → o'.reply = some r → time ≤ r.1

theorem Evolves.refl (time : ℕ) (o : Op) : o.Evolves time o where
  coord := rfl
  request := rfl
  call := rfl
  stamped _ h := h
  returned _ _ := rfl
  late r h₁ h₂ := by simp [h₁] at h₂

theorem Evolves.trans {t₁ t₂ : ℕ} (ht : t₁ ≤ t₂) {o₁ o₂ o₃ : Op} (h₁ : o₁.Evolves t₁ o₂)
    (h₂ : o₂.Evolves t₂ o₃) : o₁.Evolves t₁ o₃ where
  coord := h₂.coord.trans h₁.coord
  request := h₂.request.trans h₁.request
  call := h₂.call.trans h₁.call
  stamped u hu := h₂.stamped u (h₁.stamped u hu)
  returned r hr := by
    have h := h₁.returned r hr
    subst h
    exact h₂.returned r hr
  late r h hr := by
    cases hm : o₂.reply with
    | none => exact ht.trans (h₂.late r hm hr)
    | some r₂ =>
      have h' := h₂.returned r₂ hm
      subst h'
      exact h₁.late r h hr

/-- The operation whose thread ran at the time `time`: only its phase and winner changed. -/
structure Continues (time : ℕ) (o o' : Op) : Prop where
  coord : o'.coord = o.coord
  request : o'.request = o.request
  call : o'.call = o.call
  stamped : o'.stamped = o.stamped
  reply : ∀ r, o'.reply = some r → r.1 = time

theorem Continues.evolves {time : ℕ} {o o' : Op} (h : o.Continues time o') (ho : o.reply = none) :
    o.Evolves time o' where
  coord := h.coord
  request := h.request
  call := h.call
  stamped u hu := h.stamped.trans hu
  returned r hr := by simp [ho] at hr
  late r _ hr := (h.reply r hr).ge

section

variable (o : Op) (P : Placement) (time : ℕ)

/-- A thread that goes on to a phase in which it has not returned. -/
theorem Continues.phase {ph : Phase} (h : ∀ t r, ph ≠ .done t r) :
    o.Continues time { o with phase := ph } where
  coord := rfl
  request := rfl
  call := rfl
  stamped := rfl
  reply r hr := by
    cases ph <;> simp [Op.reply] at hr
    exact absurd rfl (h _ _)

theorem continues_answer (r : Outcome) : o.Continues time (o.answer time r) where
  coord := rfl
  request := rfl
  call := rfl
  stamped := rfl
  reply r' hr := by
    simp only [Op.reply, answer, Option.some.injEq] at hr
    rw [← hr]

theorem continues_fail : o.Continues time (o.fail time) := by
  unfold fail
  split <;> exact o.continues_answer time _

theorem continues_finishWrite (r : WriteResult) : o.Continues time (o.finishWrite time r) := by
  unfold finishWrite
  split <;> exact o.continues_answer time _

theorem continues_finishRead (winner : Option VersionedValue) :
    o.Continues time (o.finishRead time winner) := by
  have hw {o' : Op} (h : Op.Continues time { o with winner := winner } o') : o.Continues time o' :=
    ⟨h.coord, h.request, h.call, h.stamped, h.reply⟩
  unfold finishRead
  simp only
  split
  · split
    · exact hw (Continues.phase _ _ (by simp))
    · exact hw (continues_answer _ _ _)
  · exact hw (continues_answer _ _ _)

theorem continues_afterReplicate (v : VersionedValue) (back : Bool) (r : WriteResult) :
    o.Continues time (o.afterReplicate time v back r) := by
  unfold afterReplicate
  split
  · split
    · exact o.continues_finishRead time _
    · exact o.continues_fail time
  · exact o.continues_finishWrite time r

theorem continues_replicate (v : VersionedValue) (back : Bool) :
    o.Continues time (o.replicate P time v back) := by
  unfold replicate
  split
  · exact Continues.phase _ _ (by simp)
  · split
    · exact o.continues_afterReplicate time v back _
    · exact Continues.phase _ _ (by simp)

theorem continues_collect : o.Continues time (o.collect P time) := by
  unfold collect
  split
  · exact o.continues_fail time
  · exact Continues.phase _ _ (by simp)

theorem continues_nextVersion (value : Bytes) (tombstone : Bool) (ttl : Option Millis) :
    o.Continues time (o.nextVersion P time value tombstone ttl) := by
  unfold nextVersion
  split
  · exact o.continues_collect P time
  · exact Continues.phase _ _ (by simp)

theorem continues_start (slot : Option CacheEntry) (now : Time) :
    o.Continues time (o.start P time slot now) := by
  unfold start
  split
  · exact o.continues_nextVersion P time _ _ _
  · exact o.continues_nextVersion P time _ _ _
  · split
    · exact o.continues_finishRead time _
    · exact o.continues_collect P time

theorem continues_afterCollect (f : Fanout (Option VersionedValue)) :
    o.Continues time (o.afterCollect P time f) := by
  unfold afterCollect
  split
  · exact o.continues_fail time
  · split
    · exact Continues.phase _ _ (by simp)
    · split
      · exact o.continues_finishRead time _
      · exact Continues.phase _ _ (by simp)

theorem continues_afterObserve : o.Continues time o.afterObserve := by
  unfold afterObserve
  split <;> exact Continues.phase _ _ (by simp)

theorem continues_settle (w : VersionedValue) (f : Fanout (Option VersionedValue)) :
    o.Continues time (o.settle P time w f) := by
  unfold settle
  split
  · exact o.continues_replicate P time w true
  · split
    · exact Continues.phase _ _ (by simp)
    · exact o.continues_finishRead time _

end

end Op

/-! ## The system grows -/

/-- What the system may have become after any number of steps; clocks advance under the condition
`K`, that none was at its end. -/
structure Grows (K : Prop) (s s' : State) : Prop where
  tag : ∀ n, s.tag n ≤ s'.tag n
  clock : K → ∀ n, s.clock n ≤ s'.clock n
  time : s.time ≤ s'.time
  ops : ∀ (i : OpId) (o : Op), s.ops[i]? = some o →
    ∃ o', s'.ops[i]? = some o' ∧ o.Evolves s.time o'
  fresh : ∀ (i : OpId) (o' : Op), s.ops[i]? = none → s'.ops[i]? = some o' →
    s.time ≤ o'.call ∧ o'.call < s'.time ∧ ∀ r, o'.reply = some r → s.time ≤ r.1

namespace Grows

variable {K : Prop}

/-- An update that leaves the operations alone. -/
theorem of_ops_eq {s s' : State} (htag : ∀ n, s.tag n ≤ s'.tag n)
    (hclock : K → ∀ n, s.clock n ≤ s'.clock n) (htime : s.time ≤ s'.time) (hops : s'.ops = s.ops) :
    Grows K s s' where
  tag := htag
  clock := hclock
  time := htime
  ops i o ho := ⟨o, by rw [hops, ho], Op.Evolves.refl _ _⟩
  fresh i o' h₁ h₂ := by simp [hops, h₁] at h₂

theorem refl (s : State) : Grows K s s :=
  of_ops_eq (fun _ => le_rfl) (fun _ _ => le_rfl) le_rfl rfl

theorem trans {s₁ s₂ s₃ : State} (h₁ : Grows K s₁ s₂) (h₂ : Grows K s₂ s₃) : Grows K s₁ s₃ where
  tag n := (h₁.tag n).trans (h₂.tag n)
  clock hK n := (h₁.clock hK n).trans (h₂.clock hK n)
  time := h₁.time.trans h₂.time
  ops i o ho := by
    obtain ⟨o₂, ho₂, he₁⟩ := h₁.ops i o ho
    obtain ⟨o₃, ho₃, he₂⟩ := h₂.ops i o₂ ho₂
    exact ⟨o₃, ho₃, he₁.trans h₁.time he₂⟩
  fresh i o₃ h h₃ := by
    cases hm : s₂.ops[i]? with
    | none =>
      obtain ⟨hc, hlt, hr⟩ := h₂.fresh i o₃ hm h₃
      exact ⟨h₁.time.trans hc, hlt, fun r hr' => h₁.time.trans (hr r hr')⟩
    | some o₂ =>
      obtain ⟨hc, hlt, hr⟩ := h₁.fresh i o₂ h hm
      obtain ⟨o₃', ho₃', he⟩ := h₂.ops i o₂ hm
      obtain rfl : o₃' = o₃ := Option.some.inj (ho₃'.symm.trans h₃)
      refine ⟨he.call ▸ hc, he.call ▸ hlt.trans_le h₂.time, ?_⟩
      intro r hr'
      -- the reply is the one it already had, or a later one
      cases hrep : o₂.reply with
      | none => exact h₁.time.trans (he.late r hrep hr')
      | some r₂ => exact hr r (by rw [← he.returned r₂ hrep, hr'])

theorem setOp {s : State} {i : OpId} {o o' : Op} (ho : s.ops[i]? = some o)
    (he : o.Evolves s.time o') : Grows K s (s.setOp i o') where
  tag _ := le_rfl
  clock _ _ := le_rfl
  time := le_rfl
  ops j p hp := by
    by_cases hij : i = j
    · subst hij
      obtain rfl : o = p := Option.some.inj (ho.symm.trans hp)
      exact ⟨o', s.setOp_ops_self i o ho, he⟩
    · exact ⟨p, by rw [s.setOp_ops_ne i j o' hij, hp], Op.Evolves.refl _ _⟩
  fresh j p hj hp := by
    by_cases hij : i = j
    · subst hij; simp [ho] at hj
    · simp [s.setOp_ops_ne i j o' hij, hj] at hp

theorem setNode_clock (s : State) (n : NodeId) {x : UInt64} (hx : K → s.clock n ≤ x) :
    Grows K s (s.setNode n { s.nodes n with clock := x }) := by
  refine of_ops_eq ?_ ?_ le_rfl rfl
  · intro m
    rw [s.setNode_clock_tag n x]
  · intro hK m
    by_cases hm : m = n
    · subst hm; rw [s.setNode_clock_self m x]; exact hx hK
    · rw [s.setNode_clock_ne n m x hm]

theorem applyAt {s : State} (P : Placement) {n : NodeId} {now : Time} (v : VersionedValue)
    (hu : Unexpired now (s.nodes n).slot) : Grows K s (s.applyAt P n now v) := by
  refine of_ops_eq ?_ (fun _ m => by rw [s.applyAt_clock P n v now]) le_rfl rfl
  intro m
  by_cases hm : m = n
  · subst hm
    rw [s.applyAt_tag_self P m v now, slotTag_applySlot _ v hu]
    exact le_max_left _ _
  · rw [s.applyAt_tag_ne P n m v now hm]

theorem addHint (s : State) (P : Placement) (c n : NodeId) (v : VersionedValue) (now : Time) :
    Grows K s (s.addHint P c n v now) :=
  of_ops_eq (fun m => by rw [s.addHint_tag P c n v now])
    (fun _ m => by rw [s.addHint_clock P c n v now]) le_rfl rfl

/-- A call appends its operation. -/
theorem invoke (s : State) (c : NodeId) (r : Request) :
    Grows K s { s with
      ops := s.ops ++ [{ coord := c, request := r, call := s.time }], time := s.time + 1 } where
  tag _ := le_rfl
  clock _ _ := le_rfl
  time := Nat.le_succ _
  ops i o ho := by
    have hi := (List.getElem?_eq_some_iff.mp ho).1
    exact ⟨o, by rw [List.getElem?_append_left hi, ho], Op.Evolves.refl _ _⟩
  fresh i o hi ho := by
    rw [List.getElem?_append_right (List.getElem?_eq_none_iff.mp hi),
      List.getElem?_singleton] at ho
    split at ho
    · obtain rfl := Option.some.inj ho
      exact ⟨le_rfl, Nat.lt_succ_self _, fun r hr => by simp [Op.reply] at hr⟩
    · exact absurd ho (by simp)

end Grows

end ShardCache.Replication
