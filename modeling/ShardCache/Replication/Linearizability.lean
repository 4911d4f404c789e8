import ShardCache.Foundations.Register
import ShardCache.Replication.Visibility

/-!
# Linearizable mode is linearizable

The puts, deletes and reads of one key form the history of a register that holds a value or
nothing. In linearizable mode a write queries a read quorum before it takes its version, so its tag
is above that of every operation that returned before it was called; a read returns only what a
write quorum holds, so later operations do not fall behind it. Tags therefore linearize the history.

## Main definitions

* `contentOf`: what a register holds after the write of a tag
* `history`: the history of a run, as a register sees it
* `Op.effectTag`: the tag with which an operation took effect

## Main results

* `exists_mark_of_precedes`: the tag of an operation is a floor for those called after it returned
* `linearizable_history`: in linearizable mode every history is linearizable
-/

namespace ShardCache.Replication

open Foundations

/-! ## Histories -/

/-- What the register holds after the write of a tag: nothing at first, and after a delete. -/
def contentOf : WithBot Tag → Option Bytes
  | none => none
  | some t => if t.tombstone then none else some t.value

/-- The request of an operation, as a register sees it. `expire_key` is no operation of a register;
it counts as a read, and its reply is not that of a read. -/
def Request.toRegister : Request → Register.Request (Option Bytes)
  | .put value _ => .write (some value)
  | .del => .write none
  | .read => .read
  | .expireKey _ => .read

/-- The reply of an operation, as a register sees it: a write that did not return ok may or may not
take effect. -/
def Outcome.toReply : Outcome → Register.Reply (Option Bytes)
  | .write r => if r.ok then .ack else .unknown
  | .read r =>
    match r.status with
    | .found => .value (some r.value.value)
    | .notFound => .value none
    | .unavailable => .unknown

/-- An operation of the history. -/
def Op.toOperation (o : Op) : Register.Operation (Option Bytes) :=
  ⟨o.request.toRegister, o.call, o.reply.map fun r => (r.1, r.2.toReply)⟩

/-- The history of the key, in the order of calls. -/
def history (s : State) : List (Register.Operation (Option Bytes)) := s.ops.map Op.toOperation

/-- The tag with which an operation took effect: that of a write it stamped, or of the value it
returned. -/
def Op.effectTag (o : Op) : Option (WithBot Tag) :=
  if o.request.isWrite then o.stamped.map fun u => (u.tag : WithBot Tag)
  else
    match o.reply with
    | some (_, .read r) => if r.status = .unavailable then none else some (readTag o.winner)
    | _ => none

/-- The tag with which operation `i` took effect. -/
def effectTagAt (s : State) (i : OpId) : Option (WithBot Tag) := (s.ops[i]?).bind Op.effectTag

variable {P : Placement} {clocks : NodeId → UInt64} {ls : List Label} {s : State} {o : Op}

theorem history_getElem? {i : OpId} {a : Register.Operation (Option Bytes)} :
    (history s)[i]? = some a ↔ ∃ o, s.ops[i]? = some o ∧ o.toOperation = a := by
  simp [history, List.getElem?_map, Option.map_eq_some_iff]

theorem toRegister_eq_write {r : Request} {v : Option Bytes} (h : r.toRegister = .write v) :
    r.isWrite = true := by
  cases r <;> simp_all [Request.toRegister, Request.isWrite]

theorem toRegister_eq_read {r : Request} (h : r.toRegister = .read) : r.isWrite = false := by
  cases r <;> simp_all [Request.toRegister, Request.isWrite]

/-- The value of a read reply is what its winner's tag stands for. -/
theorem toReply_toResult (w : Option VersionedValue) :
    (Outcome.read (toResult w)).toReply = .value (contentOf (readTag w)) := by
  cases w with
  | none => rfl
  | some v =>
    by_cases ht : v.tombstone = true
    · simp [toResult, ht, Outcome.toReply, readTag, contentOf]
    · simp [toResult, ht, Outcome.toReply, readTag, contentOf]

/-- What a register knows to have taken effect: writes that returned ok, and reads that were not
`Unavailable`. -/
theorem finished_toOperation {t : ℕ} (h : o.toOperation.finished = some t) :
    (o.request.isWrite = true ∧ ∃ r, o.reply = some (t, .write r) ∧ r.ok = true) ∨
      (o.request.isWrite = false ∧ ∃ r, o.reply = some (t, .read r) ∧ r.status ≠ .unavailable) := by
  unfold Register.Operation.finished at h
  simp only [Op.toOperation] at h
  cases hrep : o.reply with
  | none => simp [hrep] at h
  | some x =>
    obtain ⟨t', r⟩ := x
    simp only [hrep, Option.map_some] at h
    split at h
    case h_1 hreq hr =>
      refine Or.inl ⟨toRegister_eq_write hreq, ?_⟩
      cases r with
      | write r => by_cases hok : r.ok = true <;> simp_all [Outcome.toReply]
      | read r => cases hst : r.status <;> simp_all [Outcome.toReply]
    case h_2 hreq hr =>
      refine Or.inr ⟨toRegister_eq_read hreq, ?_⟩
      cases r with
      | write r => by_cases hok : r.ok = true <;> simp_all [Outcome.toReply]
      | read r => cases hst : r.status <;> simp_all [Outcome.toReply]
    case h_3 => exact absurd h (by simp)

/-- An operation that took effect by a reply carries the tag of its write or of its winner. -/
theorem effectTag_of_read {t : ℕ} {r : ReadResult} (hreq : o.request.isWrite = false)
    (hrep : o.reply = some (t, .read r)) (hst : r.status ≠ .unavailable) :
    o.effectTag = some (readTag o.winner) := by
  simp [Op.effectTag, hreq, hrep, hst]

theorem effectTag_of_write {u : VersionedValue} (hreq : o.request.isWrite = true)
    (hu : o.stamped = some u) : o.effectTag = some (u.tag : WithBot Tag) := by
  simp [Op.effectTag, hreq, hu]

/-- A put or delete stamps the tag that stands for what it writes. -/
theorem Op.Stamps.content {u : VersionedValue} (h : o.Stamps u.value u.tombstone u.ttl)
    {v : Option Bytes} (hreq : o.request.toRegister = .write v) :
    v = contentOf (u.tag : WithBot Tag) := by
  change v = if u.tombstone = true then none else some u.value
  unfold Stamps at h
  cases hq : o.request with
  | put x ttl =>
    simp only [hq, Request.toRegister, Register.Request.write.injEq] at h hreq
    simp [← hreq, h.1, h.2.1]
  | del =>
    simp only [hq, Request.toRegister, Register.Request.write.injEq] at h hreq
    simp [← hreq, h.2.1]
  | read => simp [hq, Request.toRegister] at hreq
  | expireKey ttl => simp [hq, Request.toRegister] at hreq

/-- Without `expire_key`, a known tag is that of a put or a delete. -/
theorem Good.exists_write {B : Mark P} (h : Good B s)
    (hops : ∀ o ∈ s.ops, ∀ ttl, o.request ≠ .expireKey ttl) {t : Tag} (ht : Known s t) :
    ∃ j o v, s.ops[j]? = some o ∧ o.request.toRegister = .write v ∧
      effectTagAt s j = some (t : WithBot Tag) := by
  obtain ⟨j, o, u, ho, hu, rfl⟩ := ht.stamped
  have hst := ((h.op j o ho).stamped u hu).1
  have heffect (hw : o.request.isWrite = true) : effectTagAt s j = some (u.tag : WithBot Tag) := by
    simp [effectTagAt, ho, effectTag_of_write hw hu]
  unfold Op.Stamps at hst
  cases hq : o.request with
  | put x ttl => exact ⟨j, o, some x, ho, by rw [hq]; rfl, heffect (by rw [hq]; rfl)⟩
  | del => exact ⟨j, o, none, ho, by rw [hq]; rfl, heffect (by rw [hq]; rfl)⟩
  | read => simp [hq] at hst
  | expireKey ttl => exact absurd hq (hops o (List.mem_of_getElem? ho) ttl)

/-! ## Tags grow along real time -/

/-- Operations called after the mark take effect above its floor, writes strictly so. -/
theorem Good.floor_le_effectTag {B : Mark P} (h : Good B s) {j : OpId} (ho : s.ops[j]? = some o)
    (hj : B.ops ≤ j) (hK : B.clocks) (hlin : P.config.consistency = .linearizable)
    {t : WithBot Tag} (ht : o.effectTag = some t) :
    B.floor ≤ t ∧ (o.request.isWrite = true → B.floor < t) := by
  unfold Op.effectTag at ht
  split at ht
  case isTrue hw =>
    obtain ⟨u, hu, rfl⟩ := Option.map_eq_some_iff.mp ht
    have hlt := ((h.op j o ho).stamped u hu).2 hlin hw hK hj
    exact ⟨hlt.le, fun _ => hlt⟩
  case isFalse hw =>
    split at ht
    case h_1 time r hrep =>
      split at ht
      · exact absurd ht (by simp)
      · obtain rfl := Option.some.inj ht
        exact ⟨(h.floor_le_winner ho hrep ‹_›).2.1 hj, fun hw' => absurd hw' hw⟩
    case h_2 => exact absurd ht (by simp)

/-- What operation `i` returned is on a write quorum, in linearizable mode. -/
theorem Good.stable_effectTag {B : Mark P} (h : Good B s) {i : OpId} (ho : s.ops[i]? = some o)
    (hlin : P.config.consistency = .linearizable) {t : ℕ}
    (hf : o.toOperation.finished = some t) :
    ∃ u, o.effectTag = some u ∧ (u = ⊥ ∨ Stable P s u) := by
  rcases finished_toOperation hf with ⟨hw, r, hrep, hok⟩ | ⟨hw, r, hrep, hst⟩
  · obtain ⟨u, hu, hstable⟩ := h.stable_of_ok ho hw hrep hok
    exact ⟨_, effectTag_of_write hw hu, Or.inr hstable⟩
  · refine ⟨_, effectTag_of_read hw hrep hst, ?_⟩
    cases hwin : o.winner with
    | none => exact Or.inl rfl
    | some w => exact Or.inr ((h.floor_le_winner ho hrep hst).2.2 hlin w hwin)

/-- A step under the conditions of the protocol: it meets no expired entry, and no clock wraps. -/
def Admissible (s : State) (l : Label) : Prop := NoExpiry s l ∧ ClockBelowEnd s l

instance (s : State) (l : Label) : Decidable (Admissible s l) := inferInstanceAs (Decidable (_ ∧ _))

section RealTime

variable (hov : P.config.Overlapping) (hlin : P.config.consistency = .linearizable)
  (hr : run (step P) (.initial clocks) ls = some s)
  (hA : Along (step P) Admissible (.initial clocks) ls)

include hov hlin hr hA

/-- The tag of an operation that returned is a floor for the operations called later. -/
theorem exists_mark_of_precedes {i j : OpId} (hij : Register.Precedes (history s) i j) :
    ∃ B : Mark P, Good B s ∧ B.clocks ∧ i < B.ops ∧ B.ops ≤ j ∧
      effectTagAt s i = some B.floor := by
  obtain ⟨a, b, t, ha, hb, hf, hlt⟩ := hij
  obtain ⟨w, hw, rfl⟩ := history_getElem?.mp ha
  obtain ⟨o, ho, rfl⟩ := history_getElem?.mp hb
  obtain ⟨r, hrep⟩ : ∃ r, w.reply = some (t, r) := by
    rcases finished_toOperation hf with ⟨-, r, hrep, -⟩ | ⟨-, r, hrep, -⟩
    · exact ⟨_, hrep⟩
    · exact ⟨_, hrep⟩
  obtain ⟨s₁, hgood₁, hw₁, hj, hext⟩ := exists_state_at_reply (K := True) hA (fun _ _ h => h.1)
    (fun _ _ _ h => h.2) hr hw hrep ho hlt
  have hi : i < s₁.ops.length := (List.getElem?_eq_some_iff.mp hw₁).1
  have htag {u : WithBot Tag} (hu : w.effectTag = some u) : effectTagAt s i = some u := by
    simp [effectTagAt, hw, hu]
  obtain ⟨u, hu, rfl | hst⟩ := hgood₁.stable_effectTag hw₁ hlin hf
  · exact ⟨.bottom P True s₁, hext _ id (hgood₁.mark Iff.rfl rfl rfl), trivial, hi, hj, htag hu⟩
  · exact ⟨.ofStable True hov hst, hext _ id (hgood₁.mark Iff.rfl rfl rfl), trivial, hi, hj,
      htag hu⟩

/-- The tags with which the operations took effect are a tagging of the history. -/
theorem tagging_history (hops : ∀ o ∈ s.ops, ∀ ttl, o.request ≠ .expireKey ttl) :
    Register.Tagging (history s) contentOf (effectTagAt s) := by
  have hgood := ((Good.initial P True clocks).run hA (fun _ _ h => h.1)
    (fun _ _ _ h => h.2) hr).1
  have hat {i : OpId} {t : WithBot Tag} (h : effectTagAt s i = some t) {o : Op}
      (ho : s.ops[i]? = some o) : o.effectTag = some t := by
    simpa [effectTagAt, ho] using h
  refine ⟨?_, ?_, ?_, ?_, ?_, ?_, ?_⟩
  · intro i t ht
    obtain ⟨o, ho, -⟩ := Option.bind_eq_some_iff.mp ht
    exact ⟨_, history_getElem?.mpr ⟨o, ho, rfl⟩⟩
  · -- an operation that has returned took effect
    intro i a ha hf
    obtain ⟨o, ho, rfl⟩ := history_getElem?.mp ha
    obtain ⟨t, hf⟩ := Option.isSome_iff_exists.mp hf
    obtain ⟨u, hu, -⟩ := hgood.stable_effectTag ho hlin hf
    simp [effectTagAt, ho, hu]
  · -- a write took effect with the tag it stamped
    intro i a v t ha hreq ht
    obtain ⟨o, ho, rfl⟩ := history_getElem?.mp ha
    have ht := hat ht ho
    rw [Op.effectTag, if_pos (toRegister_eq_write hreq)] at ht
    obtain ⟨u, hu, rfl⟩ := Option.map_eq_some_iff.mp ht
    exact ⟨((hgood.op i o ho).stamped u hu).1.content hreq, WithBot.bot_lt_coe _⟩
  · -- a read returned what some write stamped, or nothing
    intro i a t ha hreq ht
    obtain ⟨o, ho, rfl⟩ := history_getElem?.mp ha
    have hw : ¬ o.request.isWrite = true := by simp [toRegister_eq_read hreq]
    have ht := hat ht ho
    rw [Op.effectTag, if_neg hw] at ht
    split at ht
    case h_2 => exact absurd ht (by simp)
    case h_1 time r hrep =>
      split at ht
      · exact absurd ht (by simp)
      · obtain rfl := Option.some.inj ht
        obtain ⟨rfl, -, -⟩ := hgood.floor_le_winner ho hrep ‹_›
        refine ⟨⟨time, by simp [Op.toOperation, hrep, toReply_toResult]⟩, ?_⟩
        cases hwin : o.winner with
        | none => exact Or.inl rfl
        | some w =>
          obtain ⟨j, p, v, hp, hv, htag⟩ :=
            hgood.exists_write hops ((hgood.op i o ho).winner w hwin).1
          exact Or.inr ⟨j, _, v, history_getElem?.mpr ⟨p, hp, rfl⟩, hv, htag⟩
  · intro i j hij
    obtain ⟨B, -, -, hi, hj, -⟩ := exists_mark_of_precedes hov hlin hr hA hij
    exact hi.trans_le hj
  · -- The last two: between the reply of `i` and the call of `j` lies a state in which a quorum holds
    -- the tag of `i`; operations that are called after it take effect with no lower tag, and writes
    -- with a higher one.
    intro i j ti tj hij hi hj
    obtain ⟨B, hB, hK, -, hBj, hfloor⟩ := exists_mark_of_precedes hov hlin hr hA hij
    obtain ⟨o, ho, -⟩ := Option.bind_eq_some_iff.mp hj
    obtain rfl : B.floor = ti := Option.some.inj (hfloor.symm.trans hi)
    exact (hB.floor_le_effectTag ho hBj hK hlin (hat hj ho)).1
  · intro i j a v ti tj hij ha hreq hi hj
    obtain ⟨B, hB, hK, -, hBj, hfloor⟩ := exists_mark_of_precedes hov hlin hr hA hij
    obtain ⟨o, ho, rfl⟩ := history_getElem?.mp ha
    obtain rfl : B.floor = ti := Option.some.inj (hfloor.symm.trans hi)
    exact (hB.floor_le_effectTag ho hBj hK hlin (hat hj ho)).2 (toRegister_eq_write hreq)

/-- **Linearizable mode is linearizable**: when quorums overlap, no entry expires and no clock
wraps, the puts, deletes and reads of a key form a linearizable history of a register that first
holds nothing, whatever is delayed, lost, repaired or replayed. -/
theorem linearizable_history (hops : ∀ o ∈ s.ops, ∀ ttl, o.request ≠ .expireKey ttl) :
    Register.Linearizable none (history s) :=
  (tagging_history hov hlin hr hA hops).linearizable

end RealTime

/-! A run in which a put is not acknowledged, and a concurrent read writes its value back. -/

/-- Three replicas with the default quorums, in linearizable mode. -/
def threeLinearizable : Placement :=
  ⟨{ consistency := .linearizable }, threeReplicas.targets, threeReplicas.nodup, by decide⟩

/-- A put through the first replica whose acknowledgement is lost, and a read through the third. -/
def lostPutThenRead : List Label :=
  let v : VersionedValue := ⟨[1], 65536, false, none⟩
  [.invoke [97] (.put [1] none), .invoke [99] .read, .start 0 0, .issue 0 true 0, .issue 0 true 0,
    .issue 0 false 0, .deliver (.get 0 [98]) 0, .deliver (.getReply 0 [98] none) 0, .await 0,
    .observe 0, .stamp 0 1, .issue 0 true 1, .issue 0 true 1, .issue 0 false 1,
    .deliver (.set (some 0) [97] [98] v false) 2, .deliver (.set (some 0) [97] [98] v true) 2,
    .start 1 4, .issue 1 false 4, .issue 1 true 4, .issue 1 true 4, .deliver (.get 1 [98]) 5,
    .deliver (.getReply 1 [98] (some v)) 5, .await 1, .observe 1, .issue 1 false 6,
    .issue 1 true 6, .issue 1 true 6, .deliver (.set (some 1) [99] [98] v false) 7,
    .deliver (.set (some 1) [99] [98] v true) 7, .deliver (.setReply 1 [98] v true) 8, .await 1,
    .await 0]

theorem linearizable_history_lostPutThenRead :
    ∃ s, run (step threeLinearizable) (.initial fun _ => 0) lostPutThenRead = some s ∧
      s.ops.map Op.reply = [some (31, .write ⟨false, false, 1⟩),
        some (30, .read ⟨.found, ⟨[1], 65536, false, none⟩⟩)] ∧
      Register.Linearizable none (history s) := by
  have hops : (run (step threeLinearizable) (.initial fun _ => 0) lostPutThenRead).map State.ops =
      some [⟨[97], .put [1] none, 0, .done 31 (.write ⟨false, false, 1⟩),
          some ⟨[1], 65536, false, none⟩, none⟩,
        ⟨[99], .read, 1, .done 30 (.read ⟨.found, ⟨[1], 65536, false, none⟩⟩), none,
          some ⟨[1], 65536, false, none⟩⟩] := by decide
  obtain ⟨s, hr, hs⟩ := Option.map_eq_some_iff.mp hops
  refine ⟨s, hr, by rw [hs]; rfl, ?_⟩
  exact linearizable_history (P := threeLinearizable) (by decide) rfl hr (by decide)
    (by rw [hs]; simp)

end ShardCache.Replication
