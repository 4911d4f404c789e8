import ShardCache.Replication.Preservation

/-!
# Acknowledged writes stay visible

A write that returned ok is on a write quorum, and stays there. A mark set when it returned makes
its tag the floor of every operation called later, in both consistency modes and also for reads
that a replica serves alone.

## Main definitions

* `State.initial`: a cluster that holds nothing

## Main results

* `exists_state_at_reply`: a run passes through a state in which one operation has returned, and a
  later one has not been called
* `acknowledged_write_visible`: a read called after a write returned ok selects a winner that is at
  least as new
-/

namespace ShardCache.Replication

open Foundations

/-- A cluster that holds nothing, with any readings of its clocks. -/
def State.initial (clocks : NodeId → UInt64) : State := { nodes := fun n => { clock := clocks n } }

variable {P : Placement} {clocks : NodeId → UInt64} {ls : List Label} {s s' : State}
  {A : State → Label → Prop}

theorem Good.initial (P : Placement) (K : Prop) (clocks : NodeId → UInt64) :
    Good (Mark.bottom P K (.initial clocks)) (.initial clocks) where
  base _ := le_rfl
  slot n t ht := by simp [State.initial, State.tag] at ht
  msg m hm := by simp [State.initial] at hm
  hint c n x hx := by simp [State.initial] at hx
  op i o ho := by simp [State.initial] at ho

/-! ## Runs in time -/

/-- Time counts the steps. -/
theorem run_time (hr : run (step P) s ls = some s') : s'.time = s.time + ls.length := by
  refine run_history (I := fun ls t => t.time = s.time + ls.length) ?_ rfl (along_true s ls) hr
  intro ls t l t' _ ht _ hs
  obtain ⟨t₁, -, rfl⟩ := Option.map_eq_some_iff.mp hs
  rw [ht, List.length_append, List.length_singleton, Nat.add_assoc]

/-- A run passes through every time up to its end. -/
theorem exists_state_at {t : ℕ} (hA : Along (step P) A s ls) (hr : run (step P) s ls = some s')
    (ht : s.time ≤ t) (ht' : t ≤ s'.time) :
    ∃ ms ms' s₁, run (step P) s ms = some s₁ ∧ Along (step P) A s ms ∧
      run (step P) s₁ ms' = some s' ∧ Along (step P) A s₁ ms' ∧ s₁.time = t := by
  have hlen := run_time hr
  rw [← List.take_append_drop (t - s.time) ls] at hr hA
  obtain ⟨s₁, hr₁, hr₂⟩ := run_append_eq_some.mp hr
  obtain ⟨hA₁, hA₂⟩ := along_append hA hr₁
  refine ⟨_, _, s₁, hr₁, hA₁, hr₂, hA₂, ?_⟩
  rw [run_time hr₁, List.length_take]
  omega

/-- When operation `i` returned before operation `j` was called, the run passes through a state in
which `i` has returned and `j` has not been called. -/
theorem exists_state_at_reply {K : Prop} (hA : Along (step P) A (.initial clocks) ls)
    (hx : ∀ s l, A s l → NoExpiry s l) (hend : K → ∀ s l, A s l → ClockBelowEnd s l)
    (hr : run (step P) (.initial clocks) ls = some s) {i j : OpId} {w o : Op} {t : ℕ} {r : Outcome}
    (hw : s.ops[i]? = some w) (hwr : w.reply = some (t, r)) (ho : s.ops[j]? = some o)
    (hlt : t < o.call) :
    ∃ s₁, Good (Mark.bottom P K (.initial clocks)) s₁ ∧ s₁.ops[i]? = some w ∧ s₁.ops.length ≤ j ∧
      ∀ B : Mark P, (B.clocks → K) → Good B s₁ → Good B s := by
  obtain ⟨-, hg⟩ := (Good.initial P K clocks).run hA hx hend hr
  have hcall := (hg.fresh j o (by simp [State.initial]) ho).2.1
  -- the state right after the reply; the run goes on from there
  obtain ⟨ms, ms', s₁, hr₁, hA₁, hr₂, hA₂, ht₁⟩ :=
    exists_state_at (t := t + 1) hA hr (Nat.zero_le _) (by omega)
  obtain ⟨hgood₁, hg₁⟩ := (Good.initial P K clocks).run hA₁ hx hend hr₁
  obtain ⟨-, hg₂⟩ := hgood₁.run hA₂ hx hend hr₂
  refine ⟨s₁, hgood₁, ?_, ?_, ?_⟩
  · -- a reply after this state would carry a later time
    cases hi : s₁.ops[i]? with
    | none =>
      have h := (hg₂.fresh i w hi hw).2.2 _ hwr
      simp only at h
      omega
    | some w₁ =>
      obtain ⟨w', hw', hev⟩ := hg₂.ops i w₁ hi
      obtain rfl : w' = w := Option.some.inj (hw'.symm.trans hw)
      cases hrep : w₁.reply with
      | none =>
        have h := hev.late _ hrep hwr
        simp only at h
        omega
      | some r₁ => rw [hev.returned r₁ hrep]
  · -- an operation of this state was called before
    by_contra hj
    push Not at hj
    have hoj := List.getElem?_eq_getElem hj
    obtain ⟨o', ho', hev⟩ := hg₂.ops j _ hoj
    obtain rfl : o' = o := Option.some.inj (ho'.symm.trans ho)
    have h := (hg₁.fresh j _ (by simp [State.initial]) hoj).2.1
    have hc := hev.call
    omega
  · intro B hB hgood
    exact (hgood.run hA₂ hx (fun hK s l h => hend (hB hK) s l h) hr₂).1

/-! ## Visibility -/

/-- A write that returned ok is on a write quorum. -/
theorem Good.stable_of_ok {B : Mark P} (h : Good B s) {i : OpId} {w : Op} {t : ℕ}
    {r : WriteResult} (hw : s.ops[i]? = some w) (hreq : w.request.isWrite = true)
    (hwr : w.reply = some (t, .write r)) (hok : r.ok = true) :
    ∃ u, w.stamped = some u ∧ Stable P s u.tag := by
  have hph : w.phase = .done t (.write r) := by
    unfold Op.reply at hwr
    split at hwr <;> simp_all
  obtain ⟨hsome, hst⟩ := h.phase hw hph hok
  obtain ⟨u, hu⟩ := Option.isSome_iff_exists.mp (hsome hreq)
  exact ⟨u, hu, hst u hu⟩

/-- A read that returned, and was called after the mark, selected a winner above the floor. -/
theorem Good.floor_le_winner {B : Mark P} (h : Good B s) {j : OpId} {o : Op} {t : ℕ}
    {r : ReadResult} (ho : s.ops[j]? = some o) (hor : o.reply = some (t, .read r))
    (hst : r.status ≠ .unavailable) :
    r = toResult o.winner ∧ (B.ops ≤ j → B.floor ≤ readTag o.winner) ∧
      (P.config.consistency = .linearizable → ∀ w, o.winner = some w → Stable P s w.tag) := by
  have hph : o.phase = .done t (.read r) := by
    unfold Op.reply at hor
    split at hor <;> simp_all
  exact h.phase ho hph hst

/-- **Acknowledged writes stay visible**: while no entry expires, a read that is called after a
write returned ok, and that is not `Unavailable`, selects a winner whose tag is at least that of
the write. -/
theorem acknowledged_write_visible (hov : P.config.Overlapping)
    (hr : run (step P) (.initial clocks) ls = some s)
    (hA : Along (step P) NoExpiry (.initial clocks) ls)
    {i j : OpId} {w o : Op} {tw tr : ℕ} {rw : WriteResult} {rr : ReadResult}
    (hw : s.ops[i]? = some w) (hreq : w.request.isWrite = true)
    (hwr : w.reply = some (tw, .write rw)) (hok : rw.ok = true)
    (ho : s.ops[j]? = some o) (hor : o.reply = some (tr, .read rr))
    (hst : rr.status ≠ .unavailable) (hafter : tw < o.call) :
    ∃ u, w.stamped = some u ∧ rr = toResult o.winner ∧
      (u.tag : WithBot Tag) ≤ readTag o.winner := by
  obtain ⟨s₁, hgood₁, hw₁, hj, hext⟩ :=
    exists_state_at_reply (K := False) hA (fun _ _ => id) (by simp) hr hw hwr ho hafter
  obtain ⟨u, hu, hstable⟩ := hgood₁.stable_of_ok hw₁ hreq hwr hok
  have hgood := hext (.ofStable False hov hstable) id (hgood₁.mark Iff.rfl rfl rfl)
  obtain ⟨hres, hfloor, -⟩ := hgood.floor_le_winner ho hor hst
  exact ⟨u, hu, hres, hfloor hj⟩

/-! A run on three replicas: the third is unhealthy during the write, and coordinates the read. -/

/-- Three replicas with the default quorums. -/
def threeReplicas : Placement := ⟨{}, [[97], [98], [99]], by decide, by decide⟩

/-- A put through the first replica, acknowledged by the first two, then a read through the third,
answered by the last two. -/
def putThenRead : List Label :=
  let v : VersionedValue := ⟨[1], 65536, false, none⟩
  [.invoke [97] (.put [1] none), .start 0 0, .stamp 0 1, .issue 0 true 1, .issue 0 true 1,
    .issue 0 false 1, .deliver (.set (some 0) [97] [98] v false) 2,
    .deliver (.set (some 0) [97] [98] v true) 2, .deliver (.setReply 0 [98] v false) 3, .await 0,
    .invoke [99] .read, .start 1 4, .issue 1 false 4, .issue 1 true 4, .issue 1 true 4,
    .deliver (.get 1 [98]) 5, .deliver (.getReply 1 [98] (some v)) 5, .await 1, .observe 1,
    .repair 1 6, .repair 1 6]

theorem acknowledged_write_visible_putThenRead :
    ∃ s w o u, run (step threeReplicas) (.initial fun _ => 0) putThenRead = some s ∧
      s.ops = [w, o] ∧ w.stamped = some u ∧ (u.tag : WithBot Tag) ≤ readTag o.winner := by
  have hops : ((run (step threeReplicas) (.initial fun _ => 0) putThenRead).map State.ops) =
      some [⟨[97], .put [1] none, 0, .done 9 (.write ⟨true, false, 2⟩),
          some ⟨[1], 65536, false, none⟩, none⟩,
        ⟨[99], .read, 10, .done 20 (.read ⟨.found, ⟨[1], 65536, false, none⟩⟩), none,
          some ⟨[1], 65536, false, none⟩⟩] := by decide
  obtain ⟨s, hr, hs⟩ := Option.map_eq_some_iff.mp hops
  obtain ⟨u, hu, -, hle⟩ := acknowledged_write_visible (P := threeReplicas) (i := 0) (j := 1)
    (by decide) hr (by decide) (by rw [hs]; rfl) rfl rfl rfl (by rw [hs]; rfl) rfl (by decide)
    (by decide)
  exact ⟨s, _, _, u, hr, hs, hu, hle⟩

end ShardCache.Replication
