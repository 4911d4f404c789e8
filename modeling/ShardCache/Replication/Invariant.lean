import ShardCache.Replication.Growth

/-!
# The invariant of the protocol

Everything in the system descends from a stamp: the entries of the replicas, the messages, the
hints and the winners of reads. A replica that answered or acknowledged still holds at least what
it reported, so an operation that counted a quorum knows what a quorum holds.

The invariant is relative to a mark on the run: what the replicas held when the mark was set, how
many operations had been called by then, and a floor that every read quorum sees. Operations called
after the mark do not read below its floor.

## Main definitions

* `Known`: a tag that some operation stamped
* `Stable`: a tag that a write quorum has reached
* `Mark`: a mark on the run
* `Good`: the invariant
* `Advance`: an update that keeps it, grows the state and stamps nothing

## Main results

* `Good.mark`: the invariant holds for a new mark
* `Advance.continues`, `Advance.send`, `Advance.observeAt`, `Advance.applyAt`, `Advance.addHint`: the
  primitive updates keep it
-/

namespace ShardCache.Replication

variable {P : Placement}

/-! ## Known and stable tags -/

/-- The tag of a write that some operation stamped; the tag of a delete has no value. -/
structure Known (s : State) (t : Tag) : Prop where
  stamped : ∃ (i : OpId) (o : Op) (u : VersionedValue),
    s.ops[i]? = some o ∧ o.stamped = some u ∧ u.tag = t
  empty : t.tombstone = true → t.value = []

/-- A write quorum has reached the tag `t`. -/
def Stable (P : Placement) (s : State) (t : WithBot Tag) : Prop :=
  P.writeQuorum ≤ P.targets.countP fun n => decide (t ≤ s.tag n)

theorem Known.mono {K : Prop} {s s' : State} (hg : Grows K s s') {t : Tag} (h : Known s t) : Known s' t := by
  obtain ⟨⟨i, o, u, ho, hu, rfl⟩, he⟩ := h
  obtain ⟨o', ho', hev⟩ := hg.ops i o ho
  exact ⟨⟨i, o', u, ho', hev.stamped u hu, rfl⟩, he⟩

theorem Stable.mono {K : Prop} {s s' : State} (hg : Grows K s s') {t : WithBot Tag} (h : Stable P s t) :
    Stable P s' t := by
  refine le_trans h (List.countP_mono_left ?_)
  intro n _ hn
  simp only [decide_eq_true_eq] at hn ⊢
  exact hn.trans (hg.tag n)

/-- Distinct replicas that all hold `t` and that are a write quorum. -/
theorem Stable.of_quorum {s : State} {t : WithBot Tag} {Q : List NodeId} (hn : Q.Nodup)
    (hsub : Q ⊆ P.targets) (hlen : P.writeQuorum ≤ Q.length) (ht : ∀ n ∈ Q, t ≤ s.tag n) :
    Stable P s t :=
  hlen.trans (Foundations.length_le_countP hn hsub fun n hnQ => by simpa using ht n hnQ)

/-- What the only replica holds is stable. -/
theorem Stable.of_only {s : State} {t : WithBot Tag} {c : NodeId} (hc : P.targets = [c])
    (ht : t ≤ s.tag c) : Stable P s t := by
  have hpos : 0 < P.targets.length := by simp [hc]
  have hle : P.writeQuorum ≤ P.targets.length := P.config.effectiveQuorum_le _ hpos
  refine of_quorum P.nodup (List.Subset.refl _) hle ?_
  intro n hn
  rw [hc, List.mem_singleton] at hn
  rwa [hn]

/-! ## Marks -/

/-- A mark on a run: what every node held, how many operations had been called, and a floor that
every read quorum meets. `clocks` says that no clock wraps in the run. -/
structure Mark (P : Placement) where
  clocks : Prop
  tag : NodeId → WithBot Tag
  ops : ℕ
  floor : WithBot Tag
  exists_of_quorum : ∀ Q : List NodeId, Q.Nodup → Q ⊆ P.targets → P.readQuorum ≤ Q.length →
    ∃ n ∈ Q, floor ≤ tag n

/-- A mark without a floor. -/
def Mark.bottom (P : Placement) (clocks : Prop) (s : State) : Mark P where
  clocks := clocks
  tag := s.tag
  ops := s.ops.length
  floor := ⊥
  exists_of_quorum Q _ _ hQ := by
    have hpos : 0 < P.readQuorum := P.config.effectiveQuorum_pos _ _
    obtain ⟨n, hn⟩ := List.exists_mem_of_length_pos (hpos.trans_le hQ)
    exact ⟨n, hn, bot_le⟩

/-- A mark set when a write quorum has reached `t`. -/
def Mark.ofStable (clocks : Prop) (h : P.config.Overlapping) {s : State} {t : WithBot Tag}
    (ht : Stable P s t) : Mark P where
  clocks := clocks
  tag := s.tag
  ops := s.ops.length
  floor := t
  exists_of_quorum Q hn hsub hQ := by
    have hlt := P.length_lt_readQuorum_add_writeQuorum h
    have hQ' : P.readQuorum ≤ P.targets.countP (fun n => decide (n ∈ Q)) :=
      hQ.trans (Foundations.length_le_countP hn hsub fun n hnQ => by simpa using hnQ)
    have hcount : P.targets.length < P.targets.countP (fun n => decide (n ∈ Q)) +
        P.targets.countP (fun n => decide (t ≤ s.tag n)) :=
      hlt.trans_le (Nat.add_le_add hQ' ht)
    obtain ⟨n, -, hnQ, hnt⟩ := Foundations.exists_mem_of_length_lt_countP_add hcount
    exact ⟨n, by simpa using hnQ, by simpa using hnt⟩

/-! ## The invariant -/

/-- The version of `t`, if it has one, is at most `x`. -/
def VersionLe (t : WithBot Tag) (x : UInt64) : Prop := ∀ u : Tag, t = u → u.version ≤ x

theorem VersionLe.trans {t : WithBot Tag} {x y : UInt64} (h : VersionLe t x) (hxy : x ≤ y) :
    VersionLe t y :=
  fun u hu => (h u hu).trans hxy

theorem VersionLe.of_le {t u : WithBot Tag} (h : t ≤ u) {x : UInt64} (hu : VersionLe u x) :
    VersionLe t x := by
  rintro a rfl
  cases u with
  | bot => simp at h
  | coe u => exact (Tag.version_le (WithBot.coe_le_coe.mp h)).trans (hu u rfl)

/-- A stamp past the version of `t` is larger than `t`. -/
theorem VersionLe.lt {t : WithBot Tag} {x : UInt64} (h : VersionLe t x) {u : Tag}
    (hx : x < u.version) : t < (u : WithBot Tag) := by
  cases t with
  | bot => exact WithBot.bot_lt_coe u
  | coe a => exact WithBot.coe_lt_coe.mpr (Tag.lt_of_version_lt ((h a rfl).trans_lt hx))

/-- The write that the operation `o` is to stamp: `expire_key` rewrites the value it read. -/
def Op.Stamps (o : Op) (value : Bytes) (tombstone : Bool) (ttl : Option Millis) : Prop :=
  match o.request with
  | .put v t => value = v ∧ tombstone = false ∧ ttl = t
  | .del => value = [] ∧ tombstone = true ∧ ttl = none
  | .read => False
  | .expireKey t => tombstone = false ∧ ttl = some t ∧
      ∃ w, o.winner = some w ∧ w.tombstone = false ∧ w.value = value

theorem Op.Stamps.empty {o : Op} {value : Bytes} {tombstone : Bool} {ttl : Option Millis}
    (h : o.Stamps value tombstone ttl) (ht : tombstone = true) : value = [] := by
  unfold Stamps at h
  split at h
  · simp [h.2.1] at ht
  · exact h.1
  · exact h.elim
  · simp [h.1] at ht

section

variable (B : Mark P) (s : State) (i : OpId) (o : Op)

/-- The answer `r` of the replica `n` to operation `i`. -/
structure AnswerGood (n : NodeId) (r : Option VersionedValue) : Prop where
  known : ∀ v, r = some v → Known s v.tag
  le : readTag r ≤ s.tag n
  base : B.ops ≤ i → B.tag n ≤ readTag r

/-- A message in flight. -/
def MsgGood : Msg → Prop
  | .get i _ => i < s.ops.length
  | .getReply i n r => i < s.ops.length ∧ AnswerGood B s i n r
  | .set _ _ n v observed => Known s v.tag ∧ (observed = true → B.clocks → v.version ≤ s.clock n)
  | .setReply _ n v _ => Known s v.tag ∧ (v.tag : WithBot Tag) ≤ s.tag n

/-- The winner `w` of the read of operation `i`. -/
structure Selected (w : VersionedValue) : Prop where
  unstamped : o.stamped = none
  isRead : o.request.isWrite = false
  known : Known s w.tag
  floor : B.ops ≤ i → B.floor ≤ (w.tag : WithBot Tag)

/-- The write `v` that operation `i` replicates: its own, or the winner of its read. -/
structure Replicates (v : VersionedValue) (back : Bool) : Prop where
  clock : B.clocks → v.version ≤ s.clock o.coord
  own : back = false → o.stamped = some v ∧ Known s v.tag
  selected : back = true → Selected B s i o v

/-- Where the thread of operation `i` stands. -/
def PhaseGood : Phase → Prop
  | .start => o.stamped = none
  | .collecting f => o.stamped = none ∧ f.Covers P ∧
      ∀ n r, (n, some r) ∈ f.answers → AnswerGood B s i n r
  | .observing rest => o.stamped = none ∧ o.request.isWrite = true ∧
      (B.clocks → B.ops ≤ i →
        VersionLe B.floor (s.clock o.coord) ∨ ∃ x ∈ rest, VersionLe B.floor x)
  | .settling w f => Selected B s i o w ∧
      ∀ n ∈ upToDate P.targets f.reply w, (w.tag : WithBot Tag) ≤ s.tag n
  | .stamping value tombstone ttl => o.stamped = none ∧ o.Stamps value tombstone ttl ∧
      (P.config.consistency = .linearizable → o.request.isWrite = true → B.clocks → B.ops ≤ i →
        VersionLe B.floor (s.clock o.coord))
  | .applying v back => P.targets = [o.coord] ∧ Replicates B s i o v back
  | .replicating v back f => f.Covers P ∧
      (∀ n r, (n, some r) ∈ f.answers → (v.tag : WithBot Tag) ≤ s.tag n) ∧ Replicates B s i o v back
  | .repairing w _ => Selected B s i o w ∧ (B.clocks → w.version ≤ s.clock o.coord) ∧
      (P.config.consistency = .linearizable → Stable P s w.tag)
  | .done _ (.write r) => r.ok = true →
      (o.request.isWrite = true → o.stamped.isSome) ∧ ∀ u, o.stamped = some u → Stable P s u.tag
  | .done _ (.read r) => r.status ≠ .unavailable →
      r = toResult o.winner ∧ (B.ops ≤ i → B.floor ≤ readTag o.winner) ∧
        (P.config.consistency = .linearizable → ∀ w, o.winner = some w → Stable P s w.tag)

/-- What operation `i` has stamped and read. -/
structure RecordGood : Prop where
  stamped : ∀ u, o.stamped = some u → o.Stamps u.value u.tombstone u.ttl ∧
    (P.config.consistency = .linearizable → o.request.isWrite = true → B.clocks → B.ops ≤ i →
      B.floor < (u.tag : WithBot Tag))
  winner : ∀ w, o.winner = some w → Known s w.tag ∧ (B.ops ≤ i → B.floor ≤ (w.tag : WithBot Tag))

/-- Operation `i`. -/
structure OpGood : Prop extends RecordGood B s i o where
  phase : PhaseGood B s i o o.phase

/-- **The invariant**, relative to the mark `B`. -/
structure Good : Prop where
  base : ∀ n, B.tag n ≤ s.tag n
  slot : ∀ (n : NodeId) (t : Tag), s.tag n = t →
    Known s t ∧ (B.clocks → t.version ≤ s.clock n)
  msg : ∀ m ∈ s.net, MsgGood B s m
  hint : ∀ c n, ∀ x ∈ (s.nodes c).hints n, Known s x.value.tag
  op : ∀ (i : OpId) (o : Op), s.ops[i]? = some o → OpGood B s i o

end

/-! ## The invariant is monotone -/

section Mono

variable {B : Mark P} {s s' : State} {i : OpId} {o : Op}

theorem Grows.length_le {K : Prop} (hg : Grows K s s') : s.ops.length ≤ s'.ops.length := by
  by_contra hlt
  push Not at hlt
  obtain ⟨o', ho', -⟩ := hg.ops s'.ops.length _ (List.getElem?_eq_getElem hlt)
  simp at ho'

theorem AnswerGood.mono (hg : Grows B.clocks s s') {n : NodeId} {r : Option VersionedValue}
    (h : AnswerGood B s i n r) : AnswerGood B s' i n r where
  known v hv := (h.known v hv).mono hg
  le := h.le.trans (hg.tag n)
  base := h.base

theorem MsgGood.mono (hg : Grows B.clocks s s') {m : Msg} (h : MsgGood B s m) : MsgGood B s' m := by
  cases m with
  | get i n => exact lt_of_lt_of_le h hg.length_le
  | getReply i n r => exact ⟨h.1.trans_le hg.length_le, h.2.mono hg⟩
  | set op c n v observed => exact ⟨h.1.mono hg, fun ho hK => (h.2 ho hK).trans (hg.clock hK n)⟩
  | setReply i n v live => exact ⟨h.1.mono hg, h.2.trans (hg.tag n)⟩

theorem Selected.mono (hg : Grows B.clocks s s') {w : VersionedValue} (h : Selected B s i o w) :
    Selected B s' i o w :=
  ⟨h.unstamped, h.isRead, h.known.mono hg, h.floor⟩

theorem Replicates.mono (hg : Grows B.clocks s s') {v : VersionedValue} {back : Bool}
    (h : Replicates B s i o v back) : Replicates B s' i o v back where
  clock hK := (h.clock hK).trans (hg.clock hK _)
  own hb := ⟨(h.own hb).1, (h.own hb).2.mono hg⟩
  selected hb := (h.selected hb).mono hg

theorem PhaseGood.mono (hg : Grows B.clocks s s') {ph : Phase} (h : PhaseGood B s i o ph) :
    PhaseGood B s' i o ph := by
  cases ph with
  | start => exact h
  | collecting f => exact ⟨h.1, h.2.1, fun n r hr => (h.2.2 n r hr).mono hg⟩
  | observing rest =>
    refine ⟨h.1, h.2.1, ?_⟩
    intro hK hi
    rcases h.2.2 hK hi with h₁ | h₁
    · exact Or.inl (h₁.trans (hg.clock hK _))
    · exact Or.inr h₁
  | settling w f => exact ⟨h.1.mono hg, fun n hn => (h.2 n hn).trans (hg.tag n)⟩
  | stamping value tombstone ttl =>
    exact ⟨h.1, h.2.1, fun hl hw hK hi => (h.2.2 hl hw hK hi).trans (hg.clock hK _)⟩
  | applying v back => exact ⟨h.1, h.2.mono hg⟩
  | replicating v back f =>
    exact ⟨h.1, fun n r hr => (h.2.1 n r hr).trans (hg.tag n), h.2.2.mono hg⟩
  | repairing w stale =>
    exact ⟨h.1.mono hg, fun hK => (h.2.1 hK).trans (hg.clock hK _), fun hl => (h.2.2 hl).mono hg⟩
  | done t r =>
    cases r with
    | write r => exact fun hok => ⟨(h hok).1, fun u hu => ((h hok).2 u hu).mono hg⟩
    | read r => exact fun hst =>
        ⟨(h hst).1, (h hst).2.1, fun hl w hw => ((h hst).2.2 hl w hw).mono hg⟩

theorem RecordGood.mono (hg : Grows B.clocks s s') (h : RecordGood B s i o) : RecordGood B s' i o where
  stamped := h.stamped
  winner w hw := ⟨(h.winner w hw).1.mono hg, (h.winner w hw).2⟩

theorem OpGood.mono (hg : Grows B.clocks s s') (h : OpGood B s i o) : OpGood B s' i o :=
  ⟨h.toRecordGood.mono hg, h.phase.mono hg⟩

end Mono

/-! ## Marks set on the way -/

section Marks

variable {B C : Mark P} {s : State} {i : OpId} {o : Op}

theorem AnswerGood.mark (hi : i < C.ops) {n : NodeId} {r : Option VersionedValue}
    (h : AnswerGood B s i n r) : AnswerGood C s i n r :=
  ⟨h.known, h.le, fun hC => absurd hC (not_le.mpr hi)⟩

theorem MsgGood.mark (hK : C.clocks ↔ B.clocks) (hC : C.ops = s.ops.length) {m : Msg} (h : MsgGood B s m) : MsgGood C s m := by
  cases m with
  | getReply i n r => exact ⟨h.1, h.2.mark (hC ▸ h.1)⟩
  | set op c n v observed => exact ⟨h.1, fun ho hc => h.2 ho (hK.mp hc)⟩
  | _ => exact h

theorem Selected.mark (hi : i < C.ops) {w : VersionedValue} (h : Selected B s i o w) :
    Selected C s i o w :=
  ⟨h.unstamped, h.isRead, h.known, fun hC => absurd hC (not_le.mpr hi)⟩

theorem Replicates.mark (hK : C.clocks ↔ B.clocks) (hi : i < C.ops) {v : VersionedValue} {back : Bool}
    (h : Replicates B s i o v back) : Replicates C s i o v back :=
  ⟨fun hc => h.clock (hK.mp hc), h.own, fun hb => (h.selected hb).mark hi⟩

theorem PhaseGood.mark (hK : C.clocks ↔ B.clocks) (hi : i < C.ops) {ph : Phase} (h : PhaseGood B s i o ph) :
    PhaseGood C s i o ph := by
  have hold {Q : Prop} : C.ops ≤ i → Q := fun hC => absurd hC (not_le.mpr hi)
  cases ph with
  | start => exact h
  | collecting f => exact ⟨h.1, h.2.1, fun n r hr => (h.2.2 n r hr).mark hi⟩
  | observing rest => exact ⟨h.1, h.2.1, fun _ => hold⟩
  | settling w f => exact ⟨h.1.mark hi, h.2⟩
  | stamping value tombstone ttl => exact ⟨h.1, h.2.1, fun _ _ _ => hold⟩
  | applying v back => exact ⟨h.1, h.2.mark hK hi⟩
  | replicating v back f => exact ⟨h.1, h.2.1, h.2.2.mark hK hi⟩
  | repairing w stale => exact ⟨h.1.mark hi, fun hc => h.2.1 (hK.mp hc), h.2.2⟩
  | done t r =>
    cases r with
    | write r => exact h
    | read r => exact fun hst => ⟨(h hst).1, hold, (h hst).2.2⟩

theorem OpGood.mark (hK : C.clocks ↔ B.clocks) (hi : i < C.ops) (h : OpGood B s i o) : OpGood C s i o where
  stamped u hu := ⟨(h.stamped u hu).1, fun _ _ _ hC => absurd hC (not_le.mpr hi)⟩
  winner w hw := ⟨(h.winner w hw).1, fun hC => absurd hC (not_le.mpr hi)⟩
  phase := h.phase.mark hK hi

/-- **A mark can be set anywhere**: the operations called so far are before it. -/
theorem Good.mark (h : Good B s) (hK : C.clocks ↔ B.clocks) (htag : C.tag = s.tag)
    (hops : C.ops = s.ops.length) : Good C s where
  base n := by rw [htag]
  slot n t ht := ⟨(h.slot n t ht).1, fun hc => (h.slot n t ht).2 (hK.mp hc)⟩
  msg m hm := (h.msg m hm).mark hK hops
  hint := h.hint
  op i o ho := (h.op i o ho).mark hK (hops ▸ (List.getElem?_eq_some_iff.mp ho).1)

end Marks

/-! ## The primitive updates keep the invariant -/

/-- An update keeps the invariant if it grows the state and what is new in it is good. -/
theorem Good.of_grows {B : Mark P} {s s' : State} (h : Good B s) (hg : Grows B.clocks s s')
    (hslot : ∀ (n : NodeId) (t : Tag), s'.tag n = t →
      s.tag n = t ∨ Known s' t ∧ (B.clocks → t.version ≤ s'.clock n))
    (hmsg : ∀ m ∈ s'.net, m ∈ s.net ∨ MsgGood B s' m)
    (hhint : ∀ c n, ∀ x ∈ (s'.nodes c).hints n, x ∈ (s.nodes c).hints n ∨ Known s' x.value.tag)
    (hop : ∀ (i : OpId) (o : Op), s'.ops[i]? = some o → s.ops[i]? = some o ∨ OpGood B s' i o) :
    Good B s' where
  base n := (h.base n).trans (hg.tag n)
  slot n t ht := by
    rcases hslot n t ht with h₁ | h₁
    · exact ⟨(h.slot n t h₁).1.mono hg, fun hK => ((h.slot n t h₁).2 hK).trans (hg.clock hK n)⟩
    · exact h₁
  msg m hm := (hmsg m hm).elim (fun h₁ => (h.msg m h₁).mono hg) id
  hint c n x hx := (hhint c n x hx).elim (fun h₁ => (h.hint c n x h₁).mono hg) id
  op i o ho := (hop i o ho).elim (fun h₁ => (h.op i o h₁).mono hg) id

/-- The clock of the system advances. -/
theorem Good.tick {B : Mark P} {s : State} (h : Good B s) {time : ℕ} (ht : s.time ≤ time) :
    Good B { s with time := time } ∧ Grows B.clocks s { s with time := time } := by
  have hg : Grows B.clocks s { s with time := time } :=
    Grows.of_ops_eq (fun _ => le_rfl) (fun _ _ => le_rfl) ht rfl
  exact ⟨h.of_grows hg (fun _ _ => Or.inl) (fun _ => Or.inl) (fun _ _ _ => Or.inl)
    fun _ _ => Or.inl, hg⟩

/-- A client calls an operation. -/
theorem Good.invoke {B : Mark P} {s : State} (h : Good B s) (c : NodeId) (r : Request) :
    Good B { s with
      ops := s.ops ++ [{ coord := c, request := r, call := s.time }], time := s.time + 1 } := by
  refine h.of_grows (Grows.invoke s c r) (fun _ _ => Or.inl) (fun _ => Or.inl)
    (fun _ _ _ => Or.inl) ?_
  intro i o ho
  cases hi : s.ops[i]? with
  | some p =>
    rw [List.getElem?_append_left (List.getElem?_eq_some_iff.mp hi).1, hi] at ho
    exact Or.inl ho
  | none =>
    rw [List.getElem?_append_right (List.getElem?_eq_none_iff.mp hi),
      List.getElem?_singleton] at ho
    split at ho
    · obtain rfl := Option.some.inj ho
      exact Or.inr ⟨⟨by simp, by simp⟩, rfl⟩
    · exact absurd ho (by simp)

/-- The thread of operation `i` goes on. -/
theorem Good.setOp {B : Mark P} {s : State} {i : OpId} {o o' : Op} (h : Good B s)
    (ho : s.ops[i]? = some o) (he : o.Evolves s.time o')
    (hgood : OpGood B (s.setOp i o') i o') : Good B (s.setOp i o') := by
  refine h.of_grows (Grows.setOp ho he) (fun _ _ => Or.inl) (fun _ => Or.inl)
    (fun _ _ _ => Or.inl) ?_
  intro j p hp
  by_cases hij : i = j
  · subst hij
    rw [s.setOp_ops_self i o ho, Option.some.injEq] at hp
    exact Or.inr (hp ▸ hgood)
  · exact Or.inl (by rwa [s.setOp_ops_ne i j o' hij] at hp)

/-- Nothing was stamped between the states. -/
def SameStamps (s s' : State) : Prop :=
  ∀ (j : OpId) (o' : Op) (u : VersionedValue), s'.ops[j]? = some o' → o'.stamped = some u →
    ∃ o, s.ops[j]? = some o ∧ o.stamped = some u

theorem SameStamps.of_ops_eq {s s' : State} (h : s'.ops = s.ops) : SameStamps s s' :=
  fun _ o' _ ho' hu => ⟨o', h ▸ ho', hu⟩

theorem SameStamps.trans {s s' s'' : State} (h : SameStamps s s') (h' : SameStamps s' s'') :
    SameStamps s s'' := by
  intro j o'' u ho'' hu
  obtain ⟨o', ho', hu⟩ := h' j o'' u ho'' hu
  exact h j o' u ho' hu

/-- An update that keeps the invariant and grows the state, at one time, and stamps nothing. -/
structure Advance (B : Mark P) (s s' : State) : Prop where
  good : Good B s'
  grows : Grows B.clocks s s'
  time : s'.time = s.time
  stamps : SameStamps s s'

namespace Advance

variable {B : Mark P} {s s' s'' : State} {i : OpId} {o o' : Op}

theorem refl (h : Good B s) : Advance B s s :=
  ⟨h, Grows.refl s, rfl, SameStamps.of_ops_eq rfl⟩

theorem trans (h : Advance B s s') (h' : Advance B s' s'') : Advance B s s'' :=
  ⟨h'.good, h.grows.trans h'.grows, h'.time.trans h.time, h.stamps.trans h'.stamps⟩

/-- An update of the nodes or the network. -/
theorem of_ops_eq (h : Good B s) (hg : Grows B.clocks s s') (ht : s'.time = s.time)
    (hops : s'.ops = s.ops)
    (hslot : ∀ (n : NodeId) (t : Tag), s'.tag n = t →
      s.tag n = t ∨ Known s' t ∧ (B.clocks → t.version ≤ s'.clock n))
    (hmsg : ∀ m ∈ s'.net, m ∈ s.net ∨ MsgGood B s' m)
    (hhint : ∀ c n, ∀ x ∈ (s'.nodes c).hints n, x ∈ (s.nodes c).hints n ∨ Known s' x.value.tag) :
    Advance B s s' :=
  ⟨h.of_grows hg hslot hmsg hhint fun _ _ ho => Or.inl (hops ▸ ho), hg, ht,
    SameStamps.of_ops_eq hops⟩

/-- The thread of operation `i` goes on, and stamps nothing. -/
theorem continues (h : Good B s) (ho : s.ops[i]? = some o) (hrep : o.reply = none)
    (hc : o.Continues s.time o') (hgood : OpGood B s i o') : Advance B s (s.setOp i o') := by
  have hev := hc.evolves hrep
  refine ⟨h.setOp ho hev (hgood.mono (Grows.setOp ho hev)), Grows.setOp ho hev, rfl, ?_⟩
  intro j p u hp hu
  by_cases hij : i = j
  · subst hij
    rw [s.setOp_ops_self i o ho, Option.some.injEq] at hp
    exact ⟨o, ho, by rw [← hc.stamped, hp, hu]⟩
  · exact ⟨p, by rwa [s.setOp_ops_ne i j o' hij] at hp, hu⟩

theorem send (h : Good B s) {m : Msg} (hm : MsgGood B s m) : Advance B s (s.send m) := by
  have hg : Grows B.clocks s (s.send m) :=
    Grows.of_ops_eq (fun _ => le_rfl) (fun _ _ => le_rfl) le_rfl rfl
  refine of_ops_eq h hg rfl rfl (fun _ _ => Or.inl) ?_ fun _ _ _ => Or.inl
  intro m' hm'
  rcases List.mem_append.mp hm' with h₁ | h₁
  · exact Or.inl h₁
  · rw [List.mem_singleton.mp h₁]
    exact Or.inr (hm.mono hg)

theorem erase (h : Good B s) (m : Msg) : Advance B s { s with net := s.net.erase m } :=
  of_ops_eq h (Grows.of_ops_eq (fun _ => le_rfl) (fun _ _ => le_rfl) le_rfl rfl) rfl rfl
    (fun _ _ => Or.inl) (fun _ hm => Or.inl (List.mem_of_mem_erase hm)) fun _ _ _ => Or.inl

theorem setClock (h : Good B s) (n : NodeId) {x : UInt64} (hx : B.clocks → s.clock n ≤ x) :
    Advance B s (s.setNode n { s.nodes n with clock := x }) := by
  refine of_ops_eq h (Grows.setNode_clock s n hx) rfl rfl ?_ (fun _ => Or.inl)
    ?_
  · intro m t ht
    rw [s.setNode_clock_tag n x] at ht
    exact Or.inl ht
  · intro c m y hy
    rw [s.setNode_clock_hints n c x] at hy
    exact Or.inl hy

theorem observeAt (h : Good B s) (n : NodeId) (version : UInt64) :
    Advance B s (s.observeAt n version) :=
  setClock h n fun _ => HybridClock.le_observe _ _

/-- A replica applies a known write whose version its clock has reached. -/
theorem applyAt (h : Good B s) {n : NodeId} {now : Time} {v : VersionedValue}
    (hu : Unexpired now (s.nodes n).slot) (hk : Known s v.tag) (hv : B.clocks → v.version ≤ s.clock n) :
    Advance B s (s.applyAt P n now v) := by
  have hg : Grows B.clocks s _ := Grows.applyAt P v hu
  refine of_ops_eq h hg rfl rfl ?_ (fun _ => Or.inl) ?_
  · intro m t ht
    by_cases hm : m = n
    · subst hm
      rw [s.applyAt_tag_self P m v now] at ht
      rcases applySlot_eq_or P.config.tombstoneTtl now v (s.nodes m).slot with h₁ | h₁
      · rw [h₁, slotTag_some, VersionedValue.toEntry_tag, WithBot.coe_inj] at ht
        subst ht
        exact Or.inr ⟨hk.mono hg, fun hK => (hv hK).trans (hg.clock hK m)⟩
      · exact Or.inl (by rwa [h₁] at ht)
    · rw [s.applyAt_tag_ne P n m v now hm] at ht
      exact Or.inl ht
  · intro c m y hy
    rw [s.applyAt_hints P n c v now] at hy
    exact Or.inl hy

theorem addHint (h : Good B s) (c n : NodeId) {v : VersionedValue} (now : Time)
    (hk : Known s v.tag) : Advance B s (s.addHint P c n v now) := by
  have hg : Grows B.clocks s _ := Grows.addHint s P c n v now
  refine of_ops_eq h hg rfl rfl ?_ (fun _ => Or.inl) ?_
  · intro m t ht
    rw [s.addHint_tag P c n v now] at ht
    exact Or.inl ht
  · intro a b x hx
    rcases s.mem_addHint P c n a b v now hx with h₁ | h₁
    · exact Or.inl h₁
    · exact Or.inr (h₁ ▸ hk.mono hg)

end Advance

end ShardCache.Replication
