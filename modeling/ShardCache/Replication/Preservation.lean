import ShardCache.Foundations.Run
import ShardCache.Replication.Invariant

/-!
# Every step keeps the invariant

First the threads of the operations: each function that says what a thread does next leads to a
phase in which the operation is good. Then the labels: each is a sequence of primitive updates.

## Main results

* `Good.step`: a step that meets no expired entry keeps the invariant and grows the state; what the
  invariant says of clocks is kept by steps that stamp no version past the end of the clock
* `Good.run`: so does a run
-/

namespace ShardCache.Replication

open Foundations

variable {P : Placement} {B : Mark P} {s s' : State} {i : OpId} {o : Op} {time : ℕ}

/-! ## What the replicas promise -/

theorem Good.versionLe (h : Good B s) (hK : B.clocks) (n : NodeId) :
    VersionLe (s.tag n) (s.clock n) :=
  fun t ht => (h.slot n t ht).2 hK

/-- A node that can serve the key alone holds the floor. -/
theorem Good.floor_le_tag (h : Good B s) {c : NodeId} {isWrite : Bool}
    (hc : P.canServeLocally c isWrite = true) : B.floor ≤ s.tag c := by
  have hmem := P.mem_of_canServeLocally hc
  have hq := P.readQuorum_of_canServeLocally hc
  obtain ⟨n, hn, hle⟩ := B.exists_of_quorum [c] (List.nodup_singleton c)
    (by simpa using hmem) (by simp [hq])
  rw [List.mem_singleton.mp hn] at hle
  exact hle.trans (h.base c)

/-- What a replica reads of its own entry is a good answer. -/
theorem Good.answer (h : Good B s) {n : NodeId} {now : Time}
    (hu : Unexpired now (s.nodes n).slot) (i : OpId) :
    AnswerGood B s i n (readSlot now (s.nodes n).slot) := by
  have htag : readTag (readSlot now (s.nodes n).slot) = s.tag n := slotTag_readSlot hu
  refine ⟨?_, htag.le, fun _ => (h.base n).trans htag.ge⟩
  intro v hv
  rw [hv] at htag
  exact (h.slot n v.tag htag.symm).1

/-- The wire changes the time to live of an answer, not its tag. -/
theorem AnswerGood.onReply {n : NodeId} {r : Option VersionedValue} (h : AnswerGood B s i n r) :
    AnswerGood B s i n (r.map VersionedValue.onReply) := by
  cases r with
  | none => exact h
  | some v => exact ⟨fun w hw => by obtain rfl := Option.some.inj hw; exact h.known v rfl, h.le, h.base⟩

/-- Among the answers of a read quorum is one that reaches the floor. -/
theorem exists_answer_of_quorum {f : Fanout (Option VersionedValue)} (hf : f.Covers P)
    (hans : ∀ n r, (n, some r) ∈ f.answers → AnswerGood B s i n r)
    (hq : P.readQuorum ≤ f.succeeded.length) (hi : B.ops ≤ i) :
    ∃ n ∈ P.targets, ∃ r, f.reply n = some r ∧ B.floor ≤ readTag r := by
  obtain ⟨n, hn, hle⟩ := B.exists_of_quorum _ hf.succeeded_nodup hf.succeeded_subset hq
  obtain ⟨r, hr⟩ := Fanout.mem_succeeded.mp hn
  exact ⟨n, hf.succeeded_subset hn, r, hf.reply_of_mem hr, hle.trans ((hans n r hr).base hi)⟩

/-! ## Threads -/

/-- A read of operation `i` that is about to return with `winner`. -/
structure ReadDone (B : Mark P) (s : State) (i : OpId) (o : Op) (winner : Option VersionedValue) :
    Prop where
  unstamped : o.stamped = none
  isRead : o.request.isWrite = false
  known : ∀ w, winner = some w → Known s w.tag
  floor : B.ops ≤ i → B.floor ≤ readTag winner
  stable : P.config.consistency = .linearizable → ∀ w, winner = some w → Stable P s w.tag

theorem Selected.readDone {w : VersionedValue} (h : Selected B s i o w)
    (hs : P.config.consistency = .linearizable → Stable P s w.tag) : ReadDone B s i o (some w) where
  unstamped := h.unstamped
  isRead := h.isRead
  known := by rintro _ ⟨⟩; exact h.known
  floor := h.floor
  stable := by rintro hl _ ⟨⟩; exact hs hl

theorem Selected.withPhase {w : VersionedValue} (h : Selected B s i o w) (ph : Phase) :
    Selected B s i { o with phase := ph } w :=
  ⟨h.unstamped, h.isRead, h.known, h.floor⟩

theorem Replicates.withPhase {v : VersionedValue} {back : Bool} (h : Replicates B s i o v back)
    (ph : Phase) : Replicates B s i { o with phase := ph } v back :=
  ⟨h.clock, h.own, fun hb => (h.selected hb).withPhase ph⟩

namespace RecordGood

theorem withPhase (h : RecordGood B s i o) {ph : Phase} (hph : PhaseGood B s i o ph) :
    OpGood B s i { o with phase := ph } where
  stamped := h.stamped
  winner := h.winner
  phase := by
    cases ph with
    | done t r => cases r <;> exact hph
    | settling w f => exact ⟨hph.1.withPhase _, hph.2⟩
    | applying v back => exact ⟨hph.1, hph.2.withPhase _⟩
    | replicating v back f => exact ⟨hph.1, hph.2.1, hph.2.2.withPhase _⟩
    | repairing w stale => exact ⟨hph.1.withPhase _, hph.2⟩
    | _ => exact hph

theorem fail (h : RecordGood B s i o) : OpGood B s i (o.fail time) := by
  unfold Op.fail
  split
  · exact h.withPhase fun hst => absurd rfl hst
  · exact h.withPhase fun hok => absurd hok (by simp)

theorem withWinner {winner : Option VersionedValue} (hr : ReadDone B s i o winner) :
    RecordGood B s i { o with winner := winner } where
  stamped u hu := by simp [hr.unstamped] at hu
  winner w hw := by
    obtain rfl : winner = some w := hw
    exact ⟨hr.known w rfl, hr.floor⟩

theorem finishRead {winner : Option VersionedValue} (hr : ReadDone B s i o winner) :
    OpGood B s i (o.finishRead time winner) := by
  have hw := withWinner hr
  unfold Op.finishRead
  simp only
  split
  case h_1 ttl hreq =>
    split
    case h_1 v hres =>
      -- `expire_key` found a value, so the winner is that value and no tombstone
      obtain ⟨rfl, ht⟩ : winner = some v ∧ v.tombstone = false := by
        unfold toResult at hres
        split at hres
        · exact absurd hres (by simp)
        · split at hres
          · exact absurd hres (by simp)
          · simp_all
      refine hw.withPhase ⟨hr.unstamped, ?_, ?_⟩
      · simp only [Op.Stamps, hreq]
        exact ⟨trivial, trivial, v, rfl, ht, rfl⟩
      · intro _ hwr
        simp [hreq, Request.isWrite] at hwr
    case h_2 =>
      refine hw.withPhase fun _ => ⟨?_, ?_⟩
      · intro hwr
        simp [hreq, Request.isWrite] at hwr
      · intro u hu
        simp [hr.unstamped] at hu
  case h_2 =>
    exact hw.withPhase fun _ => ⟨rfl, hr.floor, hr.stable⟩

theorem finishWrite (h : RecordGood B s i o) {r : WriteResult}
    (hr : r.ok = true → ∃ u, o.stamped = some u ∧ Stable P s u.tag) :
    OpGood B s i (o.finishWrite time r) := by
  have hdone : r.ok = true → (o.request.isWrite = true → o.stamped.isSome) ∧
      ∀ u, o.stamped = some u → Stable P s u.tag := by
    intro hok
    obtain ⟨u, hu, hst⟩ := hr hok
    refine ⟨fun _ => by simp [hu], ?_⟩
    intro u' hu'
    obtain rfl : u = u' := Option.some.inj (hu.symm.trans hu')
    exact hst
  unfold Op.finishWrite
  split <;> exact h.withPhase hdone

theorem afterReplicate (h : RecordGood B s i o) {v : VersionedValue} {back : Bool} {r : WriteResult}
    (hv : Replicates B s i o v back) (hok : r.ok = true → Stable P s v.tag) :
    OpGood B s i (o.afterReplicate time v back r) := by
  unfold Op.afterReplicate
  cases back with
  | false => exact h.finishWrite fun hr => ⟨v, (hv.own rfl).1, hok hr⟩
  | true =>
    simp only [if_true]
    split
    · exact finishRead ((hv.selected rfl).readDone fun _ => hok ‹_›)
    · exact h.fail

theorem replicate (h : RecordGood B s i o) {v : VersionedValue} {back : Bool}
    (hv : Replicates B s i o v back) : OpGood B s i (o.replicate P time v back) := by
  unfold Op.replicate
  split
  · exact h.withPhase ⟨P.targets_of_canServeLocally_write ‹_›, hv⟩
  · split
    · exact h.afterReplicate hv (by simp)
    · exact h.withPhase ⟨Fanout.Covers.init, by simp, hv⟩

theorem collect (h : RecordGood B s i o) (hu : o.stamped = none) :
    OpGood B s i (o.collect P time) := by
  unfold Op.collect
  split
  · exact h.fail
  · exact h.withPhase ⟨hu, Fanout.Covers.init, by simp⟩

theorem nextVersion (h : RecordGood B s i o) (hs : Good B s) (hu : o.stamped = none) {value : Bytes}
    {tombstone : Bool} {ttl : Option Millis} (hst : o.Stamps value tombstone ttl) :
    OpGood B s i (o.nextVersion P time value tombstone ttl) := by
  unfold Op.nextVersion
  split
  case isTrue => exact h.collect hu
  case isFalse hc =>
    refine h.withPhase ⟨hu, hst, ?_⟩
    intro hl _ hK _
    -- without a query the coordinator is the only replica, and its clock covers its entry
    have hloc : P.canServeLocally o.coord true = true := by simpa [hl] using hc
    exact VersionLe.of_le (hs.floor_le_tag hloc) (hs.versionLe hK o.coord)

theorem start (h : RecordGood B s i o) (hs : Good B s) (hu : o.stamped = none) {now : Time}
    (hx : Unexpired now (s.nodes o.coord).slot) :
    OpGood B s i (o.start P time (s.nodes o.coord).slot now) := by
  have hread (hreq : o.request.isWrite = false) : OpGood B s i
      (if P.canServeLocally o.coord false then
        o.finishRead time (readSlot now (s.nodes o.coord).slot) else o.collect P time) := by
    split
    case isFalse => exact h.collect hu
    case isTrue hc =>
      have hans := hs.answer hx i
      refine finishRead ⟨hu, hreq, hans.known, ?_, ?_⟩
      · intro _
        exact (hs.floor_le_tag hc).trans (slotTag_readSlot hx).ge
      · intro hl w hw
        -- in linearizable mode a node serves a read alone only as the only replica
        have hw' : P.canServeLocally o.coord true = true := by
          simpa [Placement.canServeLocally, hl] using hc
        refine Stable.of_only (P.targets_of_canServeLocally_write hw') ?_
        simpa [hw] using hans.le
  unfold Op.start
  split
  case h_1 value ttl hreq =>
    exact h.nextVersion hs hu (by simp [Op.Stamps, hreq])
  case h_2 hreq =>
    exact h.nextVersion hs hu (by simp [Op.Stamps, hreq])
  case h_3 hput hdel =>
    refine hread ?_
    cases hreq : o.request with
    | put v t => exact absurd hreq (hput v t)
    | del => exact absurd hreq hdel
    | read => rfl
    | expireKey t => rfl

/-- `collect` returns. -/
theorem afterCollect (h : RecordGood B s i o) {f : Fanout (Option VersionedValue)}
    (hf : PhaseGood B s i o (.collecting f)) : OpGood B s i (o.afterCollect P time f) := by
  obtain ⟨hu, hcov, hans⟩ := hf
  unfold Op.afterCollect
  split
  case isTrue => exact h.fail
  case isFalse hq =>
    have hex := exists_answer_of_quorum hcov hans (not_lt.mp hq)
    split
    case isTrue hw =>
      -- some version collected is at least that of the floor
      refine h.withPhase ⟨hu, hw, ?_⟩
      intro _ hi
      obtain ⟨n, hn, r, hr, hle⟩ := hex hi
      cases r with
      | none => exact Or.inl fun u hu => by simp [hu] at hle
      | some v =>
        refine Or.inr ⟨v.version, List.mem_filterMap.mpr ⟨n, hn, by simp [hr]⟩, ?_⟩
        exact VersionLe.of_le hle fun u hu => by rw [← WithBot.coe_inj.mp hu]; exact le_rfl
    case isFalse hw =>
      have hread : o.request.isWrite = false := by simpa using hw
      have hfloor (hi : B.ops ≤ i) : B.floor ≤ readTag (selectWinner P.targets f.reply) := by
        obtain ⟨n, hn, r, hr, hle⟩ := hex hi
        have hmax : readTag (f.reply n).join ≤ readTag (selectWinner P.targets f.reply) :=
          readTag_le_selectWinner hn
        exact hle.trans (by simpa [hr] using hmax)
      split
      case h_1 hnone =>
        rw [hnone] at hfloor
        exact finishRead ⟨hu, hread, by simp, hfloor, by simp⟩
      case h_2 w hsome =>
        rw [hsome] at hfloor
        obtain ⟨n, -, hn⟩ := exists_reply_of_selectWinner hsome
        have hk := (hans n (some w) (Fanout.mem_answers_of_reply hn)).known w rfl
        refine h.withPhase ⟨⟨hu, hread, hk, hfloor⟩, ?_⟩
        intro m hm
        obtain ⟨-, v, hv, htag⟩ := mem_upToDate hm
        have hle := (hans m (some v) (Fanout.mem_answers_of_reply hv)).le
        rwa [readTag_some, htag] at hle

/-- `next_version` has observed every version it collected. -/
theorem afterObserve (h : RecordGood B s i o) (hf : PhaseGood B s i o (.observing [])) :
    OpGood B s i o.afterObserve := by
  obtain ⟨hu, hw, hobs⟩ := hf
  have hclock (hK : B.clocks) (hi : B.ops ≤ i) : VersionLe B.floor (s.clock o.coord) := by
    rcases hobs hK hi with h₁ | ⟨x, hx, -⟩
    · exact h₁
    · exact absurd hx (by simp)
  unfold Op.afterObserve
  split
  case h_1 value ttl hreq =>
    exact h.withPhase ⟨hu, by simp [Op.Stamps, hreq], fun _ _ => hclock⟩
  case h_2 hput =>
    have hreq : o.request = .del := by
      cases hreq : o.request with
      | put v t => exact absurd hreq (hput v t)
      | del => rfl
      | read => simp [hreq, Request.isWrite] at hw
      | expireKey t => simp [hreq, Request.isWrite] at hw
    exact h.withPhase ⟨hu, by simp [Op.Stamps, hreq], fun _ _ => hclock⟩

/-- `read` has observed the version of its winner. -/
theorem settle (h : RecordGood B s i o) {w : VersionedValue} {f : Fanout (Option VersionedValue)}
    (hf : PhaseGood B s i o (.settling w f)) (hc : B.clocks → w.version ≤ s.clock o.coord) :
    OpGood B s i (o.settle P time w f) := by
  obtain ⟨hsel, hup⟩ := hf
  unfold Op.settle
  split
  case isTrue => exact h.replicate ⟨hc, by simp, fun _ => hsel⟩
  case isFalse hn =>
    have hst (hl : P.config.consistency = .linearizable) : Stable P s w.tag := by
      have hq : P.writeQuorum ≤ (upToDate P.targets f.reply w).length := by
        simpa [hl] using hn
      exact Stable.of_quorum (P.nodup.filter _) (List.filter_subset_self _) hq hup
    split
    · exact h.withPhase ⟨hsel, hc, hst⟩
    · exact finishRead (hsel.readDone hst)

end RecordGood

/-! ## Labels -/

theorem Op.reply_eq_none {ph : Phase} (hph : o.phase = ph) (h : ∀ t r, ph ≠ .done t r) :
    o.reply = none := by
  unfold Op.reply
  rw [hph]
  cases ph <;> first | rfl | exact absurd rfl (h _ _)

theorem Good.phase (h : Good B s) (ho : s.ops[i]? = some o) {ph : Phase} (hph : o.phase = ph) :
    PhaseGood B s i o ph :=
  hph ▸ (h.op i o ho).phase

theorem Fanout.mem_record {α : Type} {f : Fanout α} {n m : NodeId} {x : Option α} {r : α}
    (h : (m, some r) ∈ (f.record n x).answers) :
    (m, some r) ∈ f.answers ∨ m = n ∧ x = some r := by
  rcases List.mem_append.mp h with h | h
  · exact Or.inl h
  · rw [List.mem_singleton, Prod.mk.injEq] at h
    exact Or.inr ⟨h.1, h.2.symm⟩

namespace Advance

variable {now : Time} {n : NodeId} {v : VersionedValue}

/-- The thread of operation `i`, which has not returned, moves to another phase. -/
theorem toPhase (h : Good B s) (ho : s.ops[i]? = some o) (hrep : o.reply = none) {ph : Phase}
    (hne : ∀ t r, ph ≠ .done t r) (hph : PhaseGood B s i o ph) :
    Advance B s (s.setOp i { o with phase := ph }) :=
  continues h ho hrep (Op.Continues.phase o s.time hne) ((h.op i o ho).toRecordGood.withPhase hph)

theorem start (h : Good B s) (ho : s.ops[i]? = some o) (hph : o.phase = .start)
    (hx : Unexpired now (s.nodes o.coord).slot) :
    Advance B s (s.setOp i (o.start P s.time (s.nodes o.coord).slot now)) :=
  continues h ho (Op.reply_eq_none hph (by simp)) (o.continues_start P s.time _ now)
    ((h.op i o ho).toRecordGood.start h (h.phase ho hph) hx)

/-- The issuing loop of `collect`. -/
theorem issueCollect (h : Good B s) (ho : s.ops[i]? = some o) {rest pending : List NodeId}
    {answers : List (NodeId × Option (Option VersionedValue))}
    (hph : o.phase = .collecting ⟨n :: rest, pending, answers⟩) {healthy : Bool}
    (hx : Unexpired now (s.nodes o.coord).slot) (hs : issue P s i o healthy now = some s') :
    Advance B s s' := by
  obtain ⟨hu, hcov, hans⟩ := h.phase ho hph
  have hrep : o.reply = none := Op.reply_eq_none hph (by simp)
  simp only [issue, hph] at hs
  split at hs
  case isTrue hn =>
    obtain rfl := Option.some.inj hs
    refine toPhase h ho hrep (by simp) ⟨hu, hcov.record_todo _, ?_⟩
    intro m r hr
    rcases Fanout.mem_record hr with hr | ⟨rfl, hr⟩
    · exact hans m r hr
    · obtain rfl := Option.some.inj hr
      exact h.answer (hn ▸ hx) i
  case isFalse =>
    split at hs
    · obtain rfl := Option.some.inj hs
      have hadv := toPhase h ho hrep (by simp)
        (show PhaseGood B s i o (.collecting ⟨rest, n :: pending, answers⟩) from
          ⟨hu, hcov.call, hans⟩)
      refine hadv.trans (send hadv.good ?_)
      exact (List.getElem?_eq_some_iff.mp ho).1.trans_le hadv.grows.length_le
    · obtain rfl := Option.some.inj hs
      refine toPhase h ho hrep (by simp) ⟨hu, hcov.record_todo _, ?_⟩
      intro m r hr
      rcases Fanout.mem_record hr with hr | ⟨-, hr⟩
      · exact hans m r hr
      · exact absurd hr (by simp)

/-- The write an operation replicates is known. -/
theorem known_of_replicates {back : Bool} (hv : Replicates B s i o v back) : Known s v.tag := by
  cases back with
  | false => exact (hv.own rfl).2
  | true => exact (hv.selected rfl).known

/-- The issuing loop of `replicate`. -/
theorem issueReplicate (h : Good B s) (ho : s.ops[i]? = some o) {rest pending : List NodeId}
    {answers : List (NodeId × Option Bool)} {back : Bool}
    (hph : o.phase = .replicating v back ⟨n :: rest, pending, answers⟩) {healthy : Bool}
    (hx : Unexpired now (s.nodes o.coord).slot) (hs : issue P s i o healthy now = some s') :
    Advance B s s' := by
  obtain ⟨hcov, hacks, hv⟩ := h.phase ho hph
  have hk := known_of_replicates hv
  have hrep : o.reply = none := Op.reply_eq_none hph (by simp)
  simp only [issue, hph] at hs
  split at hs
  case isTrue hn =>
    obtain rfl := Option.some.inj hs
    subst hn
    -- the coordinator is a replica: it holds what it acknowledges
    have hadv := applyAt (P := P) h hx hk hv.clock
    refine hadv.trans (toPhase hadv.good ho hrep (by simp)
      ⟨hcov.record_todo _, ?_, hv.mono hadv.grows⟩)
    intro m r hr
    rcases Fanout.mem_record hr with hr | ⟨rfl, -⟩
    · exact (hacks m r hr).trans (hadv.grows.tag m)
    · rw [s.applyAt_tag_self P _ v now]
      exact le_slotTag_applySlot _ _ _ _
  case isFalse =>
    split at hs
    · obtain rfl := Option.some.inj hs
      have hadv := toPhase h ho hrep (by simp)
        (show PhaseGood B s i o (.replicating v back ⟨rest, n :: pending, answers⟩) from
          ⟨hcov.call, hacks, hv⟩)
      exact hadv.trans (send hadv.good ⟨hk.mono hadv.grows, by simp⟩)
    · obtain rfl := Option.some.inj hs
      have hadv := addHint (P := P) h o.coord n now hk
      refine hadv.trans (toPhase hadv.good ho hrep (by simp)
        ⟨hcov.record_todo _, ?_, hv.mono hadv.grows⟩)
      intro m r hr
      rcases Fanout.mem_record hr with hr | ⟨-, hr⟩
      · exact (hacks m r hr).trans (hadv.grows.tag m)
      · exact absurd hr (by simp)

/-- The callback of a `REPL_GET` records a good answer, or an error. -/
theorem getCallback (h : Good B s) {r : Option (Option VersionedValue)}
    (hr : ∀ x, r = some x → AnswerGood B s i n x) :
    Advance B s (Replication.getCallback s i n r) := by
  unfold Replication.getCallback
  split
  case h_2 => exact refl h
  case h_1 o ho =>
    split
    case h_2 => exact refl h
    case h_1 f hph =>
      split
      case isFalse => exact refl h
      case isTrue hn =>
        obtain ⟨hu, hcov, hans⟩ := h.phase ho hph
        refine toPhase h ho (Op.reply_eq_none hph (by simp)) (by simp)
          ⟨hu, hcov.record_pending hn r, ?_⟩
        intro m x hx
        rcases Fanout.mem_record hx with hmem | ⟨rfl, he⟩
        · exact hans m x hmem
        · exact hr x he

/-- The callback of a `REPL_SET` records an acknowledgement, or an error. -/
theorem setCallback (h : Good B s) {r : Option Bool}
    (hr : r.isSome → (v.tag : WithBot Tag) ≤ s.tag n) :
    Advance B s (Replication.setCallback s i n v r) := by
  unfold Replication.setCallback
  split
  case h_2 => exact refl h
  case h_1 o ho =>
    split
    case h_2 => exact refl h
    case h_1 w back f hph =>
      split
      case isFalse => exact refl h
      case isTrue hn =>
        obtain ⟨rfl, hn⟩ := hn
        obtain ⟨hcov, hacks, hv⟩ := h.phase ho hph
        refine toPhase h ho (Op.reply_eq_none hph (by simp)) (by simp)
          ⟨hcov.record_pending hn r, ?_, hv⟩
        intro m x hx
        rcases Fanout.mem_record hx with hmem | ⟨rfl, he⟩
        · exact hacks m x hmem
        · exact hr (by simp [he])

/-- A replica serves a message, or a coordinator runs a callback. -/
theorem deliver (h : Good B s) {m : Msg} (hm : MsgGood B s m)
    (hx : Unexpired now (s.nodes m.dest).slot) : Advance B s (Replication.deliver P s m now) := by
  cases m with
  | get i n => exact send h ⟨hm, (h.answer hx i).onReply⟩
  | getReply i n r => exact getCallback h fun x hr => Option.some.inj hr ▸ hm.2
  | setReply i n v live => exact setCallback h fun _ => hm.2
  | set op c n v observed =>
    obtain ⟨hk, hclock⟩ := hm
    cases observed with
    | false =>
      have hadv := observeAt h n v.version
      refine hadv.trans (send hadv.good ⟨hk.mono hadv.grows, ?_⟩)
      intro _ _
      rw [State.observeAt, State.setNode_clock_self]
      exact HybridClock.remote_le_observe _ _
    | true =>
      have htag : v.onWire.tag = v.tag := VersionedValue.onWire_tag hk.empty
      have hadv := applyAt (P := P) (n := n) h hx (htag ▸ hk) (fun hK => v.onWire_version ▸ hclock rfl hK)
      cases op with
      | none => exact hadv
      | some i =>
        refine hadv.trans (send hadv.good ⟨hk.mono hadv.grows, ?_⟩)
        rw [s.applyAt_tag_self P n v.onWire now, ← htag]
        exact le_slotTag_applySlot _ _ _ _

/-- A callback runs with an error. -/
theorem failCall (h : Good B s) (ho : s.ops[i]? = some o)
    (hs : Replication.failCall P s i o n now = some s') : Advance B s s' := by
  unfold Replication.failCall at hs
  split at hs
  case h_1 f hph =>
    split at hs
    · obtain rfl := Option.some.inj hs
      exact getCallback h (by simp)
    · exact absurd hs (by simp)
  case h_2 v back f hph =>
    split at hs
    · obtain rfl := Option.some.inj hs
      have hadv := addHint (P := P) h o.coord n now (known_of_replicates (h.phase ho hph).2.2)
      exact hadv.trans (setCallback hadv.good (by simp))
    · exact absurd hs (by simp)
  case h_3 => exact absurd hs (by simp)

theorem repair (h : Good B s) (ho : s.ops[i]? = some o)
    (hx : Unexpired now (s.nodes o.coord).slot)
    (hs : Replication.repair P s i o now = some s') : Advance B s s' := by
  unfold Replication.repair at hs
  split at hs
  case h_1 w hph =>
    obtain rfl := Option.some.inj hs
    obtain ⟨hsel, -, hst⟩ := h.phase ho hph
    exact continues h ho (Op.reply_eq_none hph (by simp)) (o.continues_finishRead _ _)
      (RecordGood.finishRead (hsel.readDone hst))
  case h_2 w n rest hph =>
    obtain ⟨hsel, hc, hst⟩ := h.phase ho hph
    have hrep : o.reply = none := Op.reply_eq_none hph (by simp)
    have hgood : PhaseGood B s i o (.repairing w rest) := ⟨hsel, hc, hst⟩
    split at hs
    case isTrue hn =>
      obtain rfl := Option.some.inj hs
      subst hn
      have hadv := applyAt (P := P) h hx hsel.known hc
      exact hadv.trans (toPhase hadv.good ho hrep (by simp) (hgood.mono hadv.grows))
    case isFalse =>
      obtain rfl := Option.some.inj hs
      have hadv := toPhase h ho hrep (by simp) hgood
      exact hadv.trans (send hadv.good ⟨hsel.known.mono hadv.grows, by simp⟩)
  case h_3 => exact absurd hs (by simp)

/-- Dropping a hint keeps the invariant. -/
theorem dropHint (h : Good B s) (c n : NodeId) (k : ℕ) :
    Advance B s (s.setNode c { s.nodes c with
      hints := Function.update (s.nodes c).hints n (((s.nodes c).hints n).eraseIdx k) }) := by
  set x : Node := { s.nodes c with
    hints := Function.update (s.nodes c).hints n (((s.nodes c).hints n).eraseIdx k) } with hx
  have htag : (s.setNode c x).tag = s.tag := by
    funext a
    by_cases ha : a = c
    · subst ha; simp [State.tag, State.setNode, hx]
    · simp [State.tag, State.setNode, ha]
  have hclock : (s.setNode c x).clock = s.clock := by
    funext a
    by_cases ha : a = c
    · subst ha; simp [State.clock, State.setNode, hx]
    · simp [State.clock, State.setNode, ha]
  refine of_ops_eq h (Grows.of_ops_eq (by simp [htag]) (by simp [hclock]) le_rfl rfl) rfl rfl
    (fun m t ht => Or.inl (htag ▸ ht)) (fun _ => Or.inl) fun a b y hy => Or.inl ?_
  by_cases ha : a = c
  · subst ha
    by_cases hb : b = n
    · subst hb
      simp only [State.setNode, hx, Function.update_self] at hy
      exact List.mem_of_mem_eraseIdx hy
    · simpa [State.setNode, hx, hb] using hy
  · simpa [State.setNode, ha] using hy

theorem replayHint (h : Good B s) {c : NodeId} {k : ℕ} {delivered : Bool}
    (hs : Replication.replayHint s c n k delivered now = some s') : Advance B s s' := by
  unfold Replication.replayHint at hs
  split at hs
  case h_1 => exact absurd hs (by simp)
  case h_2 hint hk =>
    have hknown := h.hint c n hint (List.mem_of_getElem? hk)
    have hdrop := dropHint h c n k
    simp only at hs
    set s₁ := if delivered = true then s.setNode c _ else s with hs₁
    have hadv : Advance B s s₁ := by
      rw [hs₁]
      split
      · exact hdrop
      · exact refl h
    split at hs
    · obtain rfl := Option.some.inj hs
      exact hadv.trans (send hadv.good ⟨hknown.mono hadv.grows, by simp⟩)
    · split at hs
      · obtain rfl := Option.some.inj hs
        exact hdrop
      · obtain rfl := Option.some.inj hs
        exact hadv.trans (send hadv.good ⟨hknown.mono hadv.grows, by simp⟩)

/-- A fan-out ends, and the operation goes on with what it counted. -/
theorem await (h : Good B s) (hs : transition P s (.await i) = some s') : Advance B s s' := by
  obtain ⟨o, ho, hs⟩ := Option.bind_eq_some_iff.mp hs
  split at hs
  case h_1 pending answers hph =>
    obtain rfl := Option.some.inj hs
    exact continues h ho (Op.reply_eq_none hph (by simp)) (o.continues_afterCollect P s.time _)
      ((h.op i o ho).toRecordGood.afterCollect (h.phase ho hph))
  case h_2 v back pending answers hph =>
    obtain rfl := Option.some.inj hs
    obtain ⟨hcov, hacks, hv⟩ := h.phase ho hph
    refine continues h ho (Op.reply_eq_none hph (by simp)) (o.continues_afterReplicate s.time v _ _)
      ((h.op i o ho).toRecordGood.afterReplicate hv ?_)
    intro hok
    -- the acknowledgements come from distinct replicas that hold the write
    refine Stable.of_quorum hcov.succeeded_nodup hcov.succeeded_subset (by simpa using hok) ?_
    intro n hn
    obtain ⟨r, hr⟩ := Fanout.mem_succeeded.mp hn
    exact hacks n r hr
  case h_3 => exact absurd hs (by simp)

/-- The coordinator's clock observes a version that its operation collected. -/
theorem observe (h : Good B s) (hs : transition P s (.observe i) = some s') : Advance B s s' := by
  obtain ⟨o, ho, hs⟩ := Option.bind_eq_some_iff.mp hs
  have hself (version : UInt64) : version ≤ (s.observeAt o.coord version).clock o.coord := by
    rw [State.observeAt, State.setNode_clock_self]
    exact HybridClock.remote_le_observe _ _
  split at hs
  case h_1 version rest hph =>
    obtain rfl := Option.some.inj hs
    obtain ⟨hu, hw, hobs⟩ := h.phase ho hph
    have hadv := observeAt h o.coord version
    refine hadv.trans (toPhase hadv.good ho (Op.reply_eq_none hph (by simp)) (by simp)
      ⟨hu, hw, ?_⟩)
    intro hK hi
    rcases hobs hK hi with h₁ | ⟨x, hx, h₁⟩
    · exact Or.inl (h₁.trans (hadv.grows.clock hK _))
    · rcases List.mem_cons.mp hx with rfl | hx
      · exact Or.inl (h₁.trans (hself x))
      · exact Or.inr ⟨x, hx, h₁⟩
  case h_2 hph =>
    obtain rfl := Option.some.inj hs
    exact continues h ho (Op.reply_eq_none hph (by simp)) (o.continues_afterObserve s.time)
      ((h.op i o ho).toRecordGood.afterObserve (h.phase ho hph))
  case h_3 w f hph =>
    obtain rfl := Option.some.inj hs
    have hadv := observeAt h o.coord w.version
    have hph' := (h.phase ho hph).mono hadv.grows
    exact hadv.trans (continues hadv.good ho (Op.reply_eq_none hph (by simp))
      (o.continues_settle P s.time w f)
      (((h.op i o ho).toRecordGood.mono hadv.grows).settle hph' fun _ => hself w.version))
  case h_4 => exact absurd hs (by simp)

/-- The only replica applies the write of its own operation. -/
theorem apply (h : Good B s) (ho : s.ops[i]? = some o) {back : Bool}
    (hph : o.phase = .applying v back) (hx : Unexpired now (s.nodes o.coord).slot)
    (existed : Bool) :
    Advance B s ((s.applyAt P o.coord now v).setOp i
      (o.afterReplicate s.time v back ⟨true, existed, 1⟩)) := by
  obtain ⟨htar, hv⟩ := h.phase ho hph
  have hadv := applyAt (P := P) h hx (known_of_replicates hv) hv.clock
  refine hadv.trans (continues hadv.good ho (Op.reply_eq_none hph (by simp))
    (o.continues_afterReplicate s.time v back _)
    (((h.op i o ho).toRecordGood.mono hadv.grows).afterReplicate (hv.mono hadv.grows) ?_))
  intro _
  refine Stable.of_only htar ?_
  rw [s.applyAt_tag_self P o.coord v now]
  exact le_slotTag_applySlot _ _ _ _

/-- The callback of a write that nobody waits for runs with an error. -/
theorem lateFail (h : Good B s) {m : Msg}
    (hs : transition P s (.lateFail m now) = some s') : Advance B s s' := by
  simp only [transition] at hs
  split at hs
  case isFalse => exact absurd hs (by simp)
  case isTrue hm =>
    have hmsg := h.msg m hm
    split at hs
    · split at hs
      · exact absurd hs (by simp)
      · obtain rfl := Option.some.inj hs
        exact addHint h _ _ now hmsg.1
    · split at hs
      · exact absurd hs (by simp)
      · obtain ⟨o, -, rfl⟩ := Option.map_eq_some_iff.mp hs
        exact addHint h _ _ now hmsg.1
    · exact absurd hs (by simp)

/-- Every transition but a call and a stamp is a sequence of updates that keep the invariant. -/
theorem transition {l : Label} (h : Good B s) (hx : NoExpiry s l) (hl : ∀ c r, l ≠ .invoke c r)
    (hl' : ∀ i physicalMs, l ≠ .stamp i physicalMs)
    (hs : Replication.transition P s l = some s') : Advance B s s' := by
  cases l with
  | invoke c r => exact absurd rfl (hl c r)
  | stamp i physicalMs => exact absurd rfl (hl' i physicalMs)
  | start i now =>
    obtain ⟨o, ho, hs⟩ := Option.bind_eq_some_iff.mp hs
    split at hs
    · obtain rfl := Option.some.inj hs
      exact start h ho ‹_› (hx o.coord now (by simp [Label.touches, ho]))
    · exact absurd hs (by simp)
  | issue i healthy now =>
    obtain ⟨o, ho, hs⟩ := Option.bind_eq_some_iff.mp hs
    have hx' := hx o.coord now (by simp [Label.touches, ho])
    have hs' := hs
    unfold issue at hs'
    split at hs'
    · exact issueCollect h ho ‹_› hx' hs
    · exact issueReplicate h ho ‹_› hx' hs
    · exact absurd hs' (by simp)
  | deliver m now =>
    simp only [Replication.transition] at hs
    split at hs
    · obtain rfl := Option.some.inj hs
      have hadv := erase h m
      have hm := (h.msg m ‹_›).mono hadv.grows
      exact hadv.trans (deliver hadv.good hm (hx m.dest now rfl))
    · exact absurd hs (by simp)
  | fail i n now =>
    obtain ⟨o, ho, hs⟩ := Option.bind_eq_some_iff.mp hs
    exact failCall h ho hs
  | lateFail m now => exact lateFail h hs
  | await i => exact await h hs
  | observe i => exact observe h hs
  | apply i now =>
    obtain ⟨o, ho, hs⟩ := Option.bind_eq_some_iff.mp hs
    split at hs
    · obtain rfl := Option.some.inj hs
      exact apply h ho ‹_› (hx o.coord now (by simp [Label.touches, ho])) _
    · exact absurd hs (by simp)
  | repair i now =>
    obtain ⟨o, ho, hs⟩ := Option.bind_eq_some_iff.mp hs
    exact repair h ho (hx o.coord now (by simp [Label.touches, ho])) hs
  | replayHint c n k delivered now => exact replayHint h hs

end Advance

/-! ## Stamps -/

/-- The operation that a step stamps, and the tag it gives it. -/
def Label.stampTag (s : State) : Label → Option (OpId × Tag)
  | .stamp i physicalMs =>
    (s.ops[i]?).bind fun o =>
      match o.phase with
      | .stamping value tombstone _ =>
        some (i, tagOf (HybridClock.now (s.clock o.coord) physicalMs) tombstone value)
      | _ => none
  | _ => none

/-- The thread of operation `i` goes on with the write it has just stamped. -/
theorem Good.stampOp (h : Good B s) (ho : s.ops[i]? = some o) (hrep : o.reply = none)
    (hu : o.stamped = none) {v : VersionedValue} {o' : Op}
    (hc : Op.Continues s.time { o with stamped := some v } o')
    (hempty : v.tombstone = true → v.value = [])
    (hgood : Grows B.clocks s (s.setOp i o') → Known (s.setOp i o') v.tag →
      OpGood B (s.setOp i o') i o') :
    Good B (s.setOp i o') ∧ Grows B.clocks s (s.setOp i o') := by
  have hev : o.Evolves s.time o' := {
    coord := hc.coord
    request := hc.request
    call := hc.call
    stamped := fun u hu' => by simp [hu] at hu'
    returned := fun r hr => by simp [hrep] at hr
    late := fun r _ hr => (hc.reply r hr).ge }
  have hknown : Known (s.setOp i o') v.tag :=
    ⟨⟨i, o', v, s.setOp_ops_self i o ho, hc.stamped, rfl⟩, hempty⟩
  have hg : Grows B.clocks s (s.setOp i o') := Grows.setOp ho hev
  exact ⟨h.setOp ho hev (hgood hg hknown), hg⟩

/-- An operation takes its version from its coordinator's clock. -/
theorem Good.stamp (h : Good B s) (ho : s.ops[i]? = some o) {value : Bytes} {tombstone : Bool}
    {ttl : Option Millis} (hph : o.phase = .stamping value tombstone ttl) {version : UInt64}
    (hlt : B.clocks → s.clock o.coord < version) {o' : Op}
    (ho' : o' = Op.replicate { o with stamped := some ⟨value, version, tombstone, ttl⟩ } P s.time
      ⟨value, version, tombstone, ttl⟩ false)
    (hs : s' = (s.setNode o.coord { s.nodes o.coord with clock := version }).setOp i o') :
    Good B s' ∧ Grows B.clocks s s' := by
  obtain ⟨hu, hst, hfloor⟩ := h.phase ho hph
  have hadv := Advance.setClock h o.coord fun hK => (hlt hK).le
  have hclock := s.setNode_clock_self o.coord version
  have hrun := hadv.good.stampOp ho (Op.reply_eq_none hph (by simp)) hu
    (ho' ▸ Op.continues_replicate _ P s.time _ false) hst.empty fun hg hknown => by
      have hrec : RecordGood B _ i { o with stamped := some ⟨value, version, tombstone, ttl⟩ } := {
        stamped := fun u hu' => by
          obtain rfl := Option.some.inj hu'
          exact ⟨hst, fun hl hw hK hi => (hfloor hl hw hK hi).lt (hlt hK)⟩
        winner := ((h.op i o ho).toRecordGood.mono (hadv.grows.trans hg)).winner }
      rw [ho'] at hknown hrec ⊢
      exact hrec.replicate ⟨fun _ => hclock.ge, fun _ => ⟨rfl, hknown⟩, by simp⟩
  rw [hs]
  exact ⟨hrun.1, hadv.grows.trans hrun.2⟩

/-- What a stamping step does. -/
theorem transition_stamp {physicalMs : UInt64}
    (hs : transition P s (.stamp i physicalMs) = some s') :
    ∃ o value tombstone ttl version o', s.ops[i]? = some o ∧
      o.phase = .stamping value tombstone ttl ∧
      version = HybridClock.now (s.clock o.coord) physicalMs ∧
      o' = Op.replicate { o with stamped := some ⟨value, version, tombstone, ttl⟩ } P s.time
        ⟨value, version, tombstone, ttl⟩ false ∧
      s' = (s.setNode o.coord { s.nodes o.coord with clock := version }).setOp i o' := by
  obtain ⟨o, ho, hs⟩ := Option.bind_eq_some_iff.mp hs
  split at hs
  · exact ⟨o, _, _, _, _, _, ho, ‹_›, rfl, rfl, (Option.some.inj hs).symm⟩
  · exact absurd hs (by simp)

/-! ## Steps and runs -/

/-- **Every step keeps the invariant and grows the state**, if it meets no expired entry and stamps
no version past the end of the clock. -/
theorem Good.step {l : Label} (h : Good B s) (hx : NoExpiry s l)
    (hend : B.clocks → ClockBelowEnd s l) (hs : Replication.step P s l = some s') :
    Good B s' ∧ Grows B.clocks s s' := by
  obtain ⟨s₁, hs₁, rfl⟩ := Option.map_eq_some_iff.mp hs
  have htick (hgood : Good B s₁) (hg : Grows B.clocks s s₁) (ht : s₁.time = s.time) :
      Good B { s₁ with time := s.time + 1 } ∧
        Grows B.clocks s { s₁ with time := s.time + 1 } := by
    obtain ⟨hgood', hg'⟩ := hgood.tick (ht.le.trans (Nat.le_succ s.time))
    exact ⟨hgood', hg.trans hg'⟩
  by_cases hl : ∃ c r, l = .invoke c r
  · obtain ⟨c, r, rfl⟩ := hl
    obtain rfl := Option.some.inj hs₁
    exact ⟨h.invoke c r, Grows.invoke s c r⟩
  by_cases hl' : ∃ i physicalMs, l = .stamp i physicalMs
  · obtain ⟨i, physicalMs, rfl⟩ := hl'
    obtain ⟨o, value, tombstone, ttl, version, o', ho, hph, hversion, ho', hs'⟩ :=
      transition_stamp hs₁
    have hlt (hK : B.clocks) : s.clock o.coord < version := by
      rw [hversion]
      exact HybridClock.lt_now physicalMs (hend hK i physicalMs o rfl ho)
    obtain ⟨hgood, hg⟩ := h.stamp ho hph hlt ho' hs'
    exact htick hgood hg (by rw [hs']; rfl)
  · push Not at hl hl'
    have hadv := Advance.transition h hx hl hl' hs₁
    exact htick hadv.good hadv.grows hadv.time

/-- A step stamps at most the operation of its label. -/
theorem Good.step_stamped {l : Label} (h : Good B s) (hx : NoExpiry s l)
    (hs : Replication.step P s l = some s') {j : OpId} {o' : Op} {u : VersionedValue}
    (ho' : s'.ops[j]? = some o') (hu : o'.stamped = some u) :
    (∃ o, s.ops[j]? = some o ∧ o.stamped = some u) ∨ l.stampTag s = some (j, u.tag) := by
  obtain ⟨s₁, hs₁, rfl⟩ := Option.map_eq_some_iff.mp hs
  by_cases hl : ∃ c r, l = .invoke c r
  · obtain ⟨c, r, rfl⟩ := hl
    obtain rfl := Option.some.inj hs₁
    -- a call stamps nothing
    cases hj : s.ops[j]? with
    | some o =>
      rw [List.getElem?_append_left (List.getElem?_eq_some_iff.mp hj).1, hj] at ho'
      exact Or.inl ⟨o', ho', hu⟩
    | none =>
      rw [List.getElem?_append_right (List.getElem?_eq_none_iff.mp hj),
        List.getElem?_singleton] at ho'
      split at ho'
      · obtain rfl := Option.some.inj ho'
        exact absurd hu (by simp)
      · exact absurd ho' (by simp)
  by_cases hl' : ∃ i physicalMs, l = .stamp i physicalMs
  · obtain ⟨i, physicalMs, rfl⟩ := hl'
    obtain ⟨o, value, tombstone, ttl, version, p, ho, hph, hversion, hp, rfl⟩ :=
      transition_stamp hs₁
    by_cases hij : i = j
    · subst hij
      obtain rfl : p = o' := Option.some.inj ((State.setOp_ops_self _ i o ho).symm.trans ho')
      rw [hp, (Op.continues_replicate _ P s.time _ false).stamped, Option.some.injEq] at hu
      simp [Label.stampTag, ho, hph, ← hu, hversion, VersionedValue.tag]
    · have hne : s.ops[j]? = some o' := (State.setOp_ops_ne _ i j p hij).symm.trans ho'
      exact Or.inl ⟨o', hne, hu⟩
  · push Not at hl hl'
    exact Or.inl ((Advance.transition h hx hl hl' hs₁).stamps j o' u ho' hu)

/-- **Every run keeps the invariant and grows the state.** -/
theorem Good.run {ls : List Label} {A : State → Label → Prop} (h : Good B s)
    (hA : Along (Replication.step P) A s ls) (hx : ∀ s l, A s l → NoExpiry s l)
    (hend : B.clocks → ∀ s l, A s l → ClockBelowEnd s l)
    (hr : Foundations.run (Replication.step P) s ls = some s') :
    Good B s' ∧ Grows B.clocks s s' :=
  run_invariant (I := fun s' => Good B s' ∧ Grows B.clocks s s')
    (fun s₁ l _ hI hP hs => by
      obtain ⟨hgood, hg⟩ := hI.1.step (hx s₁ l hP) (fun hK => hend hK s₁ l hP) hs
      exact ⟨hgood, hI.2.trans hg⟩)
    ⟨h, Grows.refl s⟩ hA hr

end ShardCache.Replication
