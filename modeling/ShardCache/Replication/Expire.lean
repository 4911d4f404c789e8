import ShardCache.Replication.Visibility

/-!
# `expire_key` against a concurrent put

`expire_key` is a read followed by a rewrite of the value it found, under a version of its own. A put
that is stamped between the two halves is overwritten by the older value, although both operations
return ok. The put survives in the runs where no other value is ever stamped above it.

## Main definitions

* `StampsBelow`: a step stamps no other value above a given put

## Main results

* `expireKey_overwrites_put`: a run in which an acknowledged put is lost to `expire_key`
* `read_returns_put`: while every step stamps other values below the put, later reads return it
-/

namespace ShardCache.Replication

open Foundations

variable {P : Placement} {clocks : NodeId → UInt64} {ls : List Label} {s s' : State}

/-! ## The lost put -/

/-- A single replica. -/
def oneReplica : Placement := ⟨{ replicationFactor := 1 }, [[97]], by decide, by decide⟩

/-- `expire_key` reads the first value, a put of the second value runs to its end, and `expire_key`
writes the first value back. -/
def putInsideExpire : List Label :=
  [.invoke [97] (.put [1] none), .start 0 5, .stamp 0 1, .apply 0 5,
    .invoke [97] (.expireKey 1000), .start 1 6, .invoke [97] (.put [2] none), .start 2 6,
    .stamp 2 2, .apply 2 7, .stamp 1 3, .apply 1 8, .invoke [97] .read, .start 3 9]

/-- **An acknowledged put is lost to `expire_key`**: both return ok, nothing expires, and a later
read returns the value from before the put. -/
theorem expireKey_overwrites_put :
    ∃ s, run (step oneReplica) (.initial fun _ => 0) putInsideExpire = some s ∧
      Along (step oneReplica) NoExpiry (.initial fun _ => 0) putInsideExpire ∧
      s.ops.map (fun o => (o.request, o.reply)) =
        [(.put [1] none, some (3, .write ⟨true, false, 1⟩)),
          (.expireKey 1000, some (11, .write ⟨true, true, 1⟩)),
          (.put [2] none, some (9, .write ⟨true, true, 1⟩)),
          (.read, some (13, .read ⟨.found, ⟨[1], 196608, false, some 999⟩⟩))] := by
  have hops : (run (step oneReplica) (.initial fun _ => 0) putInsideExpire).map
      (fun s => s.ops.map fun o => (o.request, o.reply)) =
        some [(.put [1] none, some (3, .write ⟨true, false, 1⟩)),
          (.expireKey 1000, some (11, .write ⟨true, true, 1⟩)),
          (.put [2] none, some (9, .write ⟨true, true, 1⟩)),
          (.read, some (13, .read ⟨.found, ⟨[1], 196608, false, some 999⟩⟩))] := by decide
  obtain ⟨s, hr, hs⟩ := Option.map_eq_some_iff.mp hops
  exact ⟨s, hr, by decide, hs⟩

/-! ## When the put survives -/

/-- The step stamps no value above the put `b` but its own: when it stamps `b`, every other value
was stamped below; when it stamps another operation after `b`, it stamps the value of `b` or stays
below. -/
def StampsBelow (b : OpId) (s : State) (l : Label) : Prop :=
  ∀ x ∈ l.stampTag s,
    (x.1 = b → ∀ o ∈ s.ops, ∀ u ∈ o.stamped, u.value = x.2.value ∨ u.tag < x.2) ∧
      (x.1 ≠ b → ∀ o ∈ s.ops[b]?, ∀ u ∈ o.stamped, x.2.value = u.value ∨ x.2 < u.tag)

instance (b : OpId) (s : State) (l : Label) : Decidable (StampsBelow b s l) :=
  inferInstanceAs (Decidable (∀ x ∈ l.stampTag s, _))

/-- Every value but that of the put `b` was stamped below it. -/
def PutAbove (b : OpId) (s : State) : Prop :=
  ∀ (j : OpId) (o ob : Op) (u ub : VersionedValue), s.ops[j]? = some o → o.stamped = some u →
    s.ops[b]? = some ob → ob.stamped = some ub → u.value = ub.value ∨ u.tag < ub.tag

theorem putAbove_step {B : Mark P} (h : Good B s) {b : OpId} {l : Label} (hb : PutAbove b s)
    (hx : NoExpiry s l) (hl : StampsBelow b s l) (hs : step P s l = some s') : PutAbove b s' := by
  intro j o ob u ub ho hu hob hub
  rcases h.step_stamped hx hs ho hu with ⟨p, hp, hpu⟩ | hj
  · rcases h.step_stamped hx hs hob hub with ⟨q, hq, hqu⟩ | hj'
    · exact hb j p q u ub hp hpu hq hqu
    · exact (hl _ hj').1 rfl p (List.mem_of_getElem? hp) u hpu
  · by_cases hjb : j = b
    · subst hjb
      obtain rfl : o = ob := Option.some.inj (ho.symm.trans hob)
      exact Or.inl (by rw [Option.some.inj (hu.symm.trans hub)])
    · rcases h.step_stamped hx hs hob hub with ⟨q, hq, hqu⟩ | hj'
      · exact (hl _ hj).2 hjb q hq ub hqu
      · -- one step stamps one operation
        exact absurd (congrArg Prod.fst (Option.some.inj (hj.symm.trans hj'))) hjb

/-- The condition of the run: nothing expires, and no other value is stamped above the put. -/
def ExpireSafe (b : OpId) (s : State) (l : Label) : Prop := NoExpiry s l ∧ StampsBelow b s l

instance (b : OpId) (s : State) (l : Label) : Decidable (ExpireSafe b s l) :=
  inferInstanceAs (Decidable (_ ∧ _))

theorem putAbove_of_run {b : OpId} (hr : run (step P) (.initial clocks) ls = some s)
    (hA : Along (step P) (ExpireSafe b) (.initial clocks) ls) : PutAbove b s := by
  have h := run_invariant
    (I := fun s => Good (Mark.bottom P False (.initial clocks)) s ∧ PutAbove b s)
    (fun s l s' hI hP hs => ⟨(hI.1.step hP.1 False.elim hs).1, putAbove_step hI.1 hI.2 hP.1 hP.2 hs⟩)
    ⟨Good.initial P False clocks, fun j o ob u ub ho => by simp [State.initial] at ho⟩ hA hr
  exact h.2

/-- A put or `expire_key` stamps no tombstone. -/
theorem Op.Stamps.not_tombstone {o : Op} {u : VersionedValue}
    (h : o.Stamps u.value u.tombstone u.ttl) (hreq : o.request ≠ .del) : u.tombstone = false := by
  unfold Stamps at h
  cases hq : o.request with
  | put v ttl => simp only [hq] at h; exact h.2.1
  | del => exact absurd hq hreq
  | read => simp [hq] at h
  | expireKey ttl => simp only [hq] at h; exact h.1

/-- **The put survives `expire_key`**: take a run of puts, reads and calls of `expire_key` on the
key. While no step stamps another value above the put `b`, every read that is called after `b`
returned ok, and that is not `Unavailable`, returns its value. -/
theorem read_returns_put (hov : P.config.Overlapping) {b : OpId} {v₂ : Bytes}
    {ttl₂ : Option Millis} (hr : run (step P) (.initial clocks) ls = some s)
    (hA : Along (step P) (ExpireSafe b) (.initial clocks) ls)
    (hdel : ∀ o ∈ s.ops, o.request ≠ .del) {ob o : Op} {tb tr : ℕ} {rb : WriteResult} {rr : ReadResult} {j : OpId}
    (hb : s.ops[b]? = some ob) (hput : ob.request = .put v₂ ttl₂)
    (hbr : ob.reply = some (tb, .write rb)) (hok : rb.ok = true)
    (ho : s.ops[j]? = some o) (hor : o.reply = some (tr, .read rr))
    (hst : rr.status ≠ .unavailable) (hafter : tb < o.call) :
    rr.status = .found ∧ rr.value.value = v₂ := by
  obtain ⟨s₁, hgood₁, hb₁, hj, hext⟩ :=
    exists_state_at_reply (K := False) hA (fun _ _ h => h.1) (by simp) hr hb hbr ho hafter
  obtain ⟨ub, hub, hstable⟩ := hgood₁.stable_of_ok hb₁ (by rw [hput]; rfl) hbr hok
  have hgood := hext (.ofStable False hov hstable) id (hgood₁.mark Iff.rfl rfl rfl)
  obtain ⟨rfl, hfloor, -⟩ := hgood.floor_le_winner ho hor hst
  replace hfloor : (ub.tag : WithBot Tag) ≤ readTag o.winner := hfloor hj
  -- the winner was stamped by some operation, and not below the put
  cases hw : o.winner with
  | none => simp [hw] at hfloor
  | some w =>
    rw [hw, readTag_some, WithBot.coe_le_coe] at hfloor
    obtain ⟨i, p, u, hp, hu, htag⟩ := ((hgood.op j o ho).winner w hw).1.stamped
    have hvalue : u.value = ub.value :=
      (putAbove_of_run hr hA i p ob u ub hp hu hb hub).resolve_right (htag ▸ not_lt.mpr hfloor)
    have htomb : w.tombstone = false := by
      rw [← w.tombstone_tag, ← htag]
      exact ((hgood.op i p hp).stamped u hu).1.not_tombstone
        (hdel p (List.mem_of_getElem? hp))
    have hwv : w.value = v₂ := by
      have hstamps := ((hgood.op b ob hb).stamped ub hub).1
      simp only [Op.Stamps, hput] at hstamps
      rw [← w.value_tag, ← htag, ← hstamps.1]
      exact hvalue
    simp [toResult, htomb, hwv]

/-- `expire_key` takes its version before the put, and applies it after. -/
def expireBeforePut : List Label :=
  [.invoke [97] (.put [1] none), .start 0 5, .stamp 0 1, .apply 0 5,
    .invoke [97] (.expireKey 1000), .start 1 6, .invoke [97] (.put [2] none), .start 2 6,
    .stamp 1 2, .stamp 2 3, .apply 2 7, .apply 1 8, .invoke [97] .read, .start 3 9]

theorem read_returns_put_expireBeforePut :
    ∃ s o r, run (step oneReplica) (.initial fun _ => 0) expireBeforePut = some s ∧
      s.ops[3]? = some o ∧ o.reply = some (13, .read r) ∧ r.status = .found ∧
      r.value.value = [2] := by
  have hops : (run (step oneReplica) (.initial fun _ => 0) expireBeforePut).map State.ops =
      some [⟨[97], .put [1] none, 0, .done 3 (.write ⟨true, false, 1⟩),
          some ⟨[1], 65536, false, none⟩, none⟩,
        ⟨[97], .expireKey 1000, 4, .done 11 (.write ⟨true, true, 1⟩),
          some ⟨[1], 131072, false, some 1000⟩, some ⟨[1], 65536, false, none⟩⟩,
        ⟨[97], .put [2] none, 6, .done 10 (.write ⟨true, true, 1⟩),
          some ⟨[2], 196608, false, none⟩, none⟩,
        ⟨[97], .read, 12, .done 13 (.read ⟨.found, ⟨[2], 196608, false, none⟩⟩), none,
          some ⟨[2], 196608, false, none⟩⟩] := by decide
  obtain ⟨s, hr, hs⟩ := Option.map_eq_some_iff.mp hops
  have hread : s.ops[3]? = some ⟨[97], .read, 12, .done 13 (.read ⟨.found, ⟨[2], 196608, false,
      none⟩⟩), none, some ⟨[2], 196608, false, none⟩⟩ := by rw [hs]; rfl
  refine ⟨s, _, _, hr, hread, rfl, ?_⟩
  exact read_returns_put (P := oneReplica) (b := 2) (by decide) hr (by decide)
    (by rw [hs]; simp) (by rw [hs]; rfl) rfl rfl rfl hread rfl (by decide) (by decide)

end ShardCache.Replication
