import ShardCache.Foundations.Run
import ShardCache.Store.Entry

/-!
# The steps of single flight

Callers that miss the same key at the same time share one fetch. The first one enters the key in a
map, runs the fetch, publishes its outcome and takes the key out again; it is the leader. Who finds
the key in the map waits on a condition variable until the outcome is there, and takes it. The map
and the outcome are under two mutexes. The outcome is published, the waiting callers are notified
and the key is taken out in three separate steps, with other callers in between.

Callers run in any interleaving of these steps. A `Call` is known by the caller that made it.

## Main definitions

* `SingleFlight`, `SingleFlight.step`: the map, the calls and the callers, and one step of a caller
* `SingleFlight.Phase`: how far a caller has come
* `SingleFlight.CallerStep`: what a step makes of a caller, its own step or one of another

## Main results

* `SingleFlight.callerStep`, `SingleFlight.calls_step`: what a step makes of the callers and of the
  map
* `SingleFlight.CallerStep.weight_add_le`: a step brings its caller closer to its end
-/

namespace ShardCache

open Foundations

namespace SingleFlight

/-- `if (exc) std::rethrow_exception(exc); return val;` -/
def leave {ε : Type} (val : Bytes) (exc : Option ε) : Except ε Bytes :=
  match exc with
  | some e => .error e
  | none => .ok val

/-- `SingleFlight::Call`. -/
structure Call (ε : Type) where
  done : Bool := false
  val : Bytes := []
  exc : Option ε := none
deriving DecidableEq, Repr

/-- What a caller makes of a call that is done. -/
def Call.outcome {ε : Type} (call : Call ε) : Except ε Bytes := leave call.val call.exc

/-- How far a caller of `do_call` has come, with its local variables. A leader is in its fetch, has
yet to publish the outcome, to notify, to take its key out of the map, or only to return or throw.
Who is not a leader has the call of `leader`: it has yet to take the mutex of the call, is asleep in
the wait, or has finished. -/
inductive Phase (ι ε : Type) where
  | arriving
  | fetching
  | fetched (result : Bytes) (exc : Option ε)
  | published (result : Bytes) (exc : Option ε)
  | notified (result : Bytes) (exc : Option ε)
  | returned (result : Bytes) (exc : Option ε)
  | following (leader : ι)
  | asleep (leader : ι)
  | finished (leader : ι) (outcome : Except ε Bytes)
deriving DecidableEq, Repr

section Phases

variable {ι ε : Type} {p : Phase ι ε}

/-- The caller is a leader. -/
def Phase.isLeader : Phase ι ε → Bool
  | .fetching | .fetched .. | .published .. | .notified .. | .returned .. => true
  | .arriving | .following _ | .asleep _ | .finished .. => false

/-- The caller has entered its key in the map, and has not taken it out. -/
def Phase.leads : Phase ι ε → Bool
  | .fetching | .fetched .. | .published .. | .notified .. => true
  | .arriving | .returned .. | .following _ | .asleep _ | .finished .. => false

/-- The caller has not notified those who wait for its call. -/
def Phase.awaited : Phase ι ε → Bool
  | .fetching | .fetched .. | .published .. => true
  | .arriving | .notified .. | .returned .. | .following _ | .asleep _ | .finished .. => false

/-- The outcome of the fetch of a leader. -/
def Phase.settled : Phase ι ε → Option (Except ε Bytes)
  | .fetched result exc | .published result exc | .notified result exc | .returned result exc =>
    some (leave result exc)
  | .arriving | .fetching | .following _ | .asleep _ | .finished .. => none

/-- What is in the call of a caller. -/
def Phase.call : Phase ι ε → Call ε
  | .published result exc | .notified result exc | .returned result exc => ⟨true, result, exc⟩
  | .arriving | .fetching | .fetched .. | .following _ | .asleep _ | .finished .. => {}

/-- The caller whose call a caller has that is not a leader. -/
def Phase.joined : Phase ι ε → Option ι
  | .following leader | .asleep leader | .finished leader _ => some leader
  | .arriving | .fetching | .fetched .. | .published .. | .notified .. | .returned .. => none

/-- The leader has taken its key out of the map. -/
def Phase.hasErased : Phase ι ε → Bool
  | .returned .. => true
  | .arriving | .fetching | .fetched .. | .published .. | .notified .. | .following _ | .asleep _
  | .finished .. => false

/-- What `do_call` returned or threw. -/
def Phase.outcome : Phase ι ε → Option (Except ε Bytes)
  | .returned result exc => some (leave result exc)
  | .finished _ outcome => some outcome
  | .arriving | .fetching | .fetched .. | .published .. | .notified .. | .following _ | .asleep _ =>
    none

theorem Phase.leads_eq_true_iff :
    p.leads = true ↔ p.isLeader = true ∧ ¬p.hasErased = true := by
  cases p <;> simp [leads, isLeader, hasErased]

/-- A leader that has published nothing has notified nobody. -/
theorem Phase.awaited_of_isLeader (h : p.isLeader = true) (hp : p.call.done = false) :
    p.awaited = true := by
  cases p <;> simp_all [isLeader, call, awaited]

/-- Who has published has its outcome. -/
theorem Phase.settled_of_done (h : p.call.done = true) : p.settled = some p.call.outcome := by
  cases p <;> first | rfl | cases h

theorem Phase.outcome_of_awaited (h : p.awaited = true) : p.outcome = none := by
  cases p <;> first | rfl | cases h

theorem Phase.ne_asleep_of_awaited (h : p.awaited = true) (j : ι) : p ≠ .asleep j := by
  rintro rfl
  cases h

theorem Phase.eq_finished {j : ι} {outcome : Except ε Bytes} (hj : p.joined = some j)
    (h : p.outcome = some outcome) : p = .finished j outcome := by
  cases p <;> simp_all [joined, Phase.outcome]

theorem Phase.isLeader_or_joined (h : p.outcome.isSome = true) :
    p.isLeader = true ∨ ∃ j, p.joined = some j := by
  cases p <;> simp_all [isLeader, joined, Phase.outcome]

theorem Phase.settled_of_outcome {outcome : Except ε Bytes} (hp : p.isLeader = true)
    (h : p.outcome = some outcome) : p.settled = some outcome := by
  cases p <;> simp_all [isLeader, Phase.outcome, settled]

theorem Phase.leads_of_outcome (h : p.outcome.isSome = true) : p.leads = false := by
  cases p <;> first | rfl | cases h

end Phases

/-- A step: a caller takes its next section, the fetch of a leader ends, or a caller wakes up in the
wait without having been notified. -/
inductive Label (ι ε : Type) where
  | go (i : ι)
  | fetch (i : ι) (outcome : Except ε Bytes)
  | wake (i : ι)
deriving DecidableEq, Repr

/-- Who takes the step. -/
def Label.caller {ι ε : Type} : Label ι ε → ι
  | .go i | .fetch i _ | .wake i => i

/-- A wakeup without a reason. -/
def Label.spurious {ι ε : Type} : Label ι ε → Bool
  | .wake _ => true
  | .go _ | .fetch .. => false

end SingleFlight

/-- `SingleFlight` with the callers `ι`: `calls_`, the calls by the caller that made them, and how
far the callers have come. -/
structure SingleFlight (ι ε : Type) where
  calls : Std.ExtTreeMap Key ι := ∅
  heap : ι → SingleFlight.Call ε := fun _ => {}
  phase : ι → SingleFlight.Phase ι ε := fun _ => .arriving

namespace SingleFlight

variable {ι ε : Type}

/-! ## The sections of `do_call` -/

section Sections

variable [DecidableEq ι] (key : ι → Key)

/-- The caller goes on. -/
def setPhase (s : SingleFlight ι ε) (i : ι) (p : Phase ι ε) : SingleFlight ι ε :=
  { s with phase := Function.update s.phase i p }

/-- The first section under `map_mutex_`. -/
def enter (s : SingleFlight ι ε) (i : ι) : SingleFlight ι ε :=
  match s.calls[key i]? with
  | some leader => s.setPhase i (.following leader)
  | none =>
    { calls := s.calls.insert (key i) i
      heap := Function.update s.heap i {}
      phase := Function.update s.phase i .fetching }

/-- The test of `cv.wait` under the mutex of the call, the first one or one after waking up: the
caller returns or throws, or it goes to sleep. -/
def awaitDone (s : SingleFlight ι ε) (i leader : ι) : SingleFlight ι ε :=
  if (s.heap leader).done then s.setPhase i (.finished leader (s.heap leader).outcome)
  else s.setPhase i (.asleep leader)

/-- The fetch of the leader returns or throws. -/
def endFetch (s : SingleFlight ι ε) (i : ι) (outcome : Except ε Bytes) : SingleFlight ι ε :=
  match outcome with
  | .ok value => s.setPhase i (.fetched value none)
  -- `result` is as it was constructed
  | .error e => s.setPhase i (.fetched [] (some e))

/-- The section under the mutex of the call. -/
def publish (s : SingleFlight ι ε) (i : ι) (result : Bytes) (exc : Option ε) :
    SingleFlight ι ε :=
  { s with
    heap := Function.update s.heap i ⟨true, result, exc⟩
    phase := Function.update s.phase i (.published result exc) }

/-- A caller that sleeps in the wait for the call of `leader` wakes up. -/
def Phase.wakeFor (leader : ι) : Phase ι ε → Phase ι ε
  | .asleep j => if j = leader then .following j else .asleep j
  | p => p

/-- `call->cv.notify_all()`. -/
def notifyAll (s : SingleFlight ι ε) (i : ι) (result : Bytes) (exc : Option ε) :
    SingleFlight ι ε :=
  { s with
    phase := Function.update (fun k => (s.phase k).wakeFor i) i (.notified result exc) }

/-- The last section under `map_mutex_`. -/
def eraseKey (s : SingleFlight ι ε) (i : ι) (result : Bytes) (exc : Option ε) :
    SingleFlight ι ε :=
  { s with
    calls := s.calls.erase (key i)
    phase := Function.update s.phase i (.returned result exc) }

/-- One step. -/
def step (s : SingleFlight ι ε) : Label ι ε → Option (SingleFlight ι ε)
  | .go i =>
    match s.phase i with
    | .arriving => some (s.enter key i)
    | .following leader => some (s.awaitDone i leader)
    | .fetched result exc => some (s.publish i result exc)
    | .published result exc => some (s.notifyAll i result exc)
    | .notified result exc => some (s.eraseKey key i result exc)
    | .fetching | .returned .. | .asleep _ | .finished .. => none
  | .fetch i outcome =>
    match s.phase i with
    | .fetching => some (s.endFetch i outcome)
    | _ => none
  | .wake i =>
    match s.phase i with
    | .asleep leader => some (s.setPhase i (.following leader))
    | _ => none

end Sections

variable {key : ι → Key} {ls : List (Label ι ε)} {s s' : SingleFlight ι ε} {l : Label ι ε}
  {i j k : ι} {p q : Phase ι ε} {c : Call ε}

/-! ## What a step makes of a caller -/

/-- The step notifies those who wait for the call of `j`. -/
def Notifies (s : SingleFlight ι ε) (l : Label ι ε) (j : ι) : Prop :=
  l = .go j ∧ ∃ result exc, s.phase j = .published result exc

variable (key s l k) in
/-- What a step from `s` makes of the caller `k` and its call. In the first two cases it is a step
of another caller, in the others one of `k` itself. -/
inductive CallerStep : Phase ι ε → Call ε → Prop where
  | rests : l.caller ≠ k → (∀ j, s.phase k = .asleep j → ¬s.Notifies l j) →
    CallerStep (s.phase k) (s.heap k)
  | woken (j : ι) : l.caller ≠ k → s.phase k = .asleep j → s.Notifies l j →
    CallerStep (.following j) (s.heap k)
  | wakes (j : ι) : l = .wake k → s.phase k = .asleep j → CallerStep (.following j) (s.heap k)
  | enters : l = .go k → s.phase k = .arriving → s.calls[key k]? = none → CallerStep .fetching {}
  | joins (j : ι) : l = .go k → s.phase k = .arriving → s.calls[key k]? = some j →
    CallerStep (.following j) (s.heap k)
  | sleeps (j : ι) : l = .go k → s.phase k = .following j → (s.heap j).done = false →
    CallerStep (.asleep j) (s.heap k)
  | finishes (j : ι) : l = .go k → s.phase k = .following j → (s.heap j).done = true →
    CallerStep (.finished j (s.heap j).outcome) (s.heap k)
  | fetches (result : Bytes) (exc : Option ε) : l = .fetch k (leave result exc) →
    s.phase k = .fetching → CallerStep (.fetched result exc) (s.heap k)
  | publishes (result : Bytes) (exc : Option ε) : l = .go k → s.phase k = .fetched result exc →
    CallerStep (.published result exc) ⟨true, result, exc⟩
  | notifies (result : Bytes) (exc : Option ε) : l = .go k → s.phase k = .published result exc →
    CallerStep (.notified result exc) (s.heap k)
  | erases (result : Bytes) (exc : Option ε) : l = .go k → s.phase k = .notified result exc →
    CallerStep (.returned result exc) (s.heap k)

theorem not_notifies (hi : s.phase i = p) (hp : ∀ result exc, p ≠ .published result exc) (j : ι) :
    ¬s.Notifies (.go i) j := by
  rintro ⟨⟨⟩, result, exc, hj⟩
  exact hp result exc (hi.symm.trans hj)

variable (key s l k) in
/-- The step enters the key of `k` in the map. -/
def Inserting : Prop := l = .go k ∧ s.phase k = .arriving ∧ s.calls[key k]? = none

variable (key s l k) in
/-- In the step `k` finds the entry of `j`. -/
def Finding (j : ι) : Prop := l = .go k ∧ s.phase k = .arriving ∧ s.calls[key k]? = some j

variable (s l k) in
/-- The step takes the key of `k` out of the map. -/
def Erasing : Prop := l = .go k ∧ ∃ result exc, s.phase k = .notified result exc

theorem Inserting.iff_eq (hi : Inserting key s l i) : Inserting key s l j ↔ i = j := by
  constructor
  · obtain ⟨rfl, -⟩ := hi
    rintro ⟨⟨⟩, -⟩
    rfl
  · rintro rfl
    exact hi

theorem Erasing.iff_eq (hi : Erasing s l i) : Erasing s l j ↔ i = j := by
  constructor
  · obtain ⟨rfl, -⟩ := hi
    rintro ⟨⟨⟩, -⟩
    rfl
  · rintro rfl
    exact hi

theorem Inserting.not_erasing (hi : Inserting key s l i) : ¬Erasing s l j := by
  obtain ⟨rfl, harriving, -⟩ := hi
  rintro ⟨⟨⟩, result, exc, hnotified⟩
  rw [harriving] at hnotified
  cases hnotified

/-- A section before which the caller neither arrives nor has notified does nothing to the map. -/
theorem leaves_map (hi : s.phase i = p) (harriving : p ≠ .arriving)
    (hnotified : ∀ result exc, p ≠ .notified result exc) (k : ι) :
    ¬Inserting key s (.go i) k ∧ ¬Erasing s (.go i) k := by
  constructor
  · rintro ⟨⟨⟩, hk, -⟩
    exact harriving (hi.symm.trans hk)
  · rintro ⟨⟨⟩, result, exc, hk⟩
    exact hnotified result exc (hi.symm.trans hk)

theorem Label.ne_go (hl : l.caller ≠ k) : l ≠ .go k := by
  rintro rfl
  exact hl rfl

theorem Label.ne_fetch (hl : l.caller ≠ k) (outcome : Except ε Bytes) : l ≠ .fetch k outcome := by
  rintro rfl
  exact hl rfl

theorem CallerStep.isLeader_iff (h : CallerStep key s l k q c) :
    q.isLeader = true ↔ (s.phase k).isLeader = true ∨ Inserting key s l k := by
  unfold Inserting
  cases h with
  | rests hl => simp [Label.ne_go hl]
  | _ => simp_all [Phase.isLeader]

theorem CallerStep.joined_iff (h : CallerStep key s l k q c) :
    q.joined = some j ↔ (s.phase k).joined = some j ∨ Finding key s l k j := by
  unfold Finding
  cases h with
  | rests hl => simp [Label.ne_go hl]
  | _ => simp_all [Phase.joined]

theorem CallerStep.settled_iff (h : CallerStep key s l k q c) {outcome : Except ε Bytes} :
    q.settled = some outcome ↔ (s.phase k).settled = some outcome ∨ l = .fetch k outcome := by
  cases h with
  | rests hl => simp [Label.ne_fetch hl]
  | woken _ hl => simp_all [Phase.settled, Label.ne_fetch hl]
  | _ => simp_all [Phase.settled]

theorem CallerStep.hasErased_iff (h : CallerStep key s l k q c) :
    q.hasErased = true ↔ (s.phase k).hasErased = true ∨ Erasing s l k := by
  unfold Erasing
  cases h with
  | rests hl => simp [Label.ne_go hl]
  | _ => simp_all [Phase.hasErased]

/-- A caller is in the map as long as no step puts it in or takes it out. -/
theorem CallerStep.leads_iff (h : CallerStep key s l k q c) :
    q.leads = true ↔ ((s.phase k).leads = true ∨ Inserting key s l k) ∧ ¬Erasing s l k := by
  -- a caller enters its key once, when it comes
  have hnew : Inserting key s l k → ¬(s.phase k).hasErased = true := by
    rintro ⟨-, hk, -⟩
    rw [hk]
    nofun
  rw [Phase.leads_eq_true_iff, Phase.leads_eq_true_iff, h.isLeader_iff, h.hasErased_iff]
  tauto

/-- A leader notifies before it goes on to what nobody waits for. -/
theorem CallerStep.awaited (h : CallerStep key s l k q c) (hk : (s.phase k).awaited = true) :
    q.awaited = true ∨ s.Notifies l k := by
  unfold Notifies
  cases h with
  | rests => exact .inl hk
  | _ => simp_all [Phase.awaited]

theorem CallerStep.call_eq (h : CallerStep key s l k q c) (hk : s.heap k = (s.phase k).call) :
    c = q.call := by
  cases h with
  | rests => exact hk
  | _ => simp_all [Phase.call]

/-- A call that is done stays done. -/
theorem CallerStep.done (h : CallerStep key s l k q c) (hk : s.heap k = (s.phase k).call)
    (hdone : (s.heap k).done = true) : c.done = true := by
  cases h with
  | enters _ harriving _ =>
    rw [hk, harriving] at hdone
    cases hdone
  | publishes => rfl
  | _ => exact hdone

/-- Who is asleep was so before, with nobody who notified it, or found that the call is not done. -/
theorem CallerStep.of_asleep (h : CallerStep key s l k q c) (hq : q = .asleep j) :
    s.phase k = .asleep j ∧ ¬s.Notifies l j ∨
      l = .go k ∧ s.phase k = .following j ∧ (s.heap j).done = false := by
  cases h with
  | rests _ hn => exact .inl ⟨hq, hn j hq⟩
  | sleeps leader hl hk hdone =>
    cases hq
    exact .inr ⟨hl, hk, hdone⟩
  | _ => cases hq

/-- Who has finished had done so before, or has taken the outcome of a call that is done. -/
theorem CallerStep.of_finished {outcome : Except ε Bytes} (h : CallerStep key s l k q c)
    (hq : q = .finished j outcome) :
    s.phase k = .finished j outcome ∨
      (s.heap j).done = true ∧ (s.heap j).outcome = outcome := by
  cases h with
  | rests => exact .inl hq
  | finishes leader _ _ hdone =>
    cases hq
    exact .inr ⟨hdone, rfl⟩
  | _ => cases hq

/-! ### How far a caller is from its end -/

/-- How many steps a caller has to make, if nobody wakes up without a reason. -/
def weight (s : SingleFlight ι ε) : Phase ι ε → ℕ
  | .arriving => 5
  | .fetching => 4
  | .fetched .. => 3
  | .published .. => 2
  | .notified .. => 1
  | .returned .. => 0
  -- a caller that finds the call not done sleeps, wakes up and looks again
  | .following leader => if (s.heap leader).done then 1 else 3
  | .asleep _ => 2
  | .finished .. => 0

theorem weight_following_le (s : SingleFlight ι ε) (j : ι) : s.weight (.following j) ≤ 3 := by
  rw [weight]
  split <;> omega

theorem weight_le_five (s : SingleFlight ι ε) (p : Phase ι ε) : s.weight p ≤ 5 := by
  cases p with
  | following j => exact (s.weight_following_le j).trans (by omega)
  | _ => simp [weight]

/-- The more calls are done, the less there is to do. -/
theorem weight_le_weight (hdone : ∀ j, (s.heap j).done = true → (s'.heap j).done = true)
    (p : Phase ι ε) : s'.weight p ≤ s.weight p := by
  cases p with
  | following j =>
    by_cases hj : (s.heap j).done = true
    · simp [weight, hj, hdone j hj]
    · exact (s'.weight_following_le j).trans (by simp [weight, hj])
  | _ => rfl

/-- How many steps there are to make, if nobody wakes up without a reason. -/
def remaining [Fintype ι] (s : SingleFlight ι ε) : ℕ := ∑ i, s.weight (s.phase i)

theorem remaining_le [Fintype ι] (s : SingleFlight ι ε) : s.remaining ≤ 5 * Fintype.card ι := by
  have hle := Finset.sum_le_card_nsmul Finset.univ (fun i => s.weight (s.phase i)) 5
    fun i _ => s.weight_le_five (s.phase i)
  rw [Finset.card_univ, smul_eq_mul, Nat.mul_comm] at hle
  exact hle

/-- The caller of the step comes closer to its end, but for one that wakes up without a reason; no
other caller gets further from it. -/
theorem CallerStep.weight_add_le [DecidableEq ι] (h : CallerStep key s l k q c)
    (hdone : ∀ j, (s.heap j).done = true → (s'.heap j).done = true)
    (hnotifies : ∀ j, s.Notifies l j → (s.heap j).done = true) :
    s'.weight q + (if l.caller = k then 1 else 0) ≤
      s.weight (s.phase k) + if l.caller = k then (if l.spurious then 2 else 0) else 0 := by
  have hfollowing := s'.weight_following_le
  cases h with
  | rests hl =>
    rw [if_neg hl, if_neg hl]
    exact weight_le_weight hdone _
  | woken j hl hk hn =>
    -- who is notified finds the call done, and has one step left
    rw [if_neg hl, if_neg hl, hk]
    simp [weight, hdone j (hnotifies j hn)]
  | wakes j hl hk =>
    have := hfollowing j
    simp only [hl, hk, Label.caller, Label.spurious, weight, if_true] at this ⊢
    omega
  | joins j hl hk =>
    have := hfollowing j
    simp only [hl, hk, Label.caller, Label.spurious, weight, if_true] at this ⊢
    omega
  | _ => simp_all [Label.caller, Label.spurious, weight]

/-! ## Every step makes of every caller one of these -/

section Steps

variable [DecidableEq ι]

/-- The sections, as a rule: what holds after each holds after every step. -/
@[elab_as_elim]
theorem step_rule {motive : Label ι ε → SingleFlight ι ε → Prop}
    (enter : ∀ i, s.phase i = .arriving → motive (.go i) (s.enter key i))
    (awaitDone : ∀ i j, s.phase i = .following j → motive (.go i) (s.awaitDone i j))
    (publish : ∀ i result exc, s.phase i = .fetched result exc →
      motive (.go i) (s.publish i result exc))
    (notifyAll : ∀ i result exc, s.phase i = .published result exc →
      motive (.go i) (s.notifyAll i result exc))
    (eraseKey : ∀ i result exc, s.phase i = .notified result exc →
      motive (.go i) (s.eraseKey key i result exc))
    (endFetch : ∀ i outcome, s.phase i = .fetching →
      motive (.fetch i outcome) (s.endFetch i outcome))
    (wake : ∀ i j, s.phase i = .asleep j → motive (.wake i) (s.setPhase i (.following j)))
    (hs : step key s l = some s') : motive l s' := by
  cases l with
  | go i =>
    rw [step] at hs
    split at hs <;> cases hs
    · exact enter i ‹_›
    · exact awaitDone i _ ‹_›
    · exact publish i _ _ ‹_›
    · exact notifyAll i _ _ ‹_›
    · exact eraseKey i _ _ ‹_›
  | fetch i outcome =>
    rw [step] at hs
    split at hs <;> cases hs
    exact endFetch i outcome ‹_›
  | wake i =>
    rw [step] at hs
    split at hs <;> cases hs
    exact wake i _ ‹_›

/-- Only who waits for the call of `i` wakes up. -/
theorem Phase.wakeFor_cases (p : Phase ι ε) (i : ι) :
    p = .asleep i ∧ p.wakeFor i = .following i ∨ p ≠ .asleep i ∧ p.wakeFor i = p := by
  cases p with
  | asleep j => by_cases hj : j = i <;> simp [wakeFor, hj]
  | _ => exact .inr ⟨by nofun, rfl⟩

/-- A step that notifies nobody leaves the other callers where they are. -/
theorem callerStep_of_update (hl : l.caller = i) (hn : ∀ j, ¬s.Notifies l j)
    (hphase : s'.phase = Function.update s.phase i p)
    (hheap : s'.heap = Function.update s.heap i c) (hi : CallerStep key s l i p c) (k : ι) :
    CallerStep key s l k (s'.phase k) (s'.heap k) := by
  rw [hphase, hheap]
  by_cases hk : k = i
  · subst hk
    rwa [Function.update_self, Function.update_self]
  · rw [Function.update_of_ne hk, Function.update_of_ne hk]
    exact .rests (fun h => hk (h.symm.trans hl)) fun j _ => hn j

/-- The same for a step that leaves the calls alone. -/
theorem callerStep_of_setPhase (hl : l.caller = i) (hn : ∀ j, ¬s.Notifies l j)
    (hi : CallerStep key s l i p (s.heap i)) (k : ι) :
    CallerStep key s l k ((s.setPhase i p).phase k) ((s.setPhase i p).heap k) := by
  have hheap : (s.setPhase i p).heap = Function.update s.heap i (s.heap i) :=
    (Function.update_eq_self i s.heap).symm
  exact callerStep_of_update hl hn rfl hheap hi k

/-- A step that notifies wakes those who wait for the call, and no others. -/
theorem callerStep_of_notifyAll {result : Bytes} {exc : Option ε}
    (hi : s.phase i = .published result exc) (k : ι) :
    CallerStep key s (.go i) k ((s.notifyAll i result exc).phase k)
      ((s.notifyAll i result exc).heap k) := by
  by_cases hk : k = i
  · subst hk
    simp only [notifyAll, Function.update_self]
    exact .notifies result exc rfl hi
  · simp only [notifyAll, Function.update_of_ne hk]
    obtain ⟨hasleep, hw⟩ | ⟨hne, hw⟩ := Phase.wakeFor_cases (s.phase k) i
    · rw [hw]
      exact .woken i (Ne.symm hk) hasleep ⟨rfl, result, exc, hi⟩
    · rw [hw]
      refine .rests (Ne.symm hk) ?_
      rintro j hj ⟨⟨⟩, -⟩
      exact hne hj

/-- **Every step** makes of every caller what `CallerStep` says. -/
theorem callerStep (hs : step key s l = some s') (k : ι) :
    CallerStep key s l k (s'.phase k) (s'.heap k) := by
  refine step_rule ?enter ?awaitDone ?publish ?notifyAll ?eraseKey ?endFetch ?wake hs
  case enter =>
    intro i hi
    have hn := not_notifies hi (by nofun)
    unfold enter
    split
    · rename_i leader hcalls
      exact callerStep_of_setPhase rfl hn (.joins leader rfl hi hcalls) k
    · rename_i hcalls
      exact callerStep_of_update rfl hn rfl rfl (.enters rfl hi hcalls) k
  case awaitDone =>
    intro i j hi
    have hn := not_notifies hi (by nofun)
    unfold awaitDone
    split
    · rename_i hdone
      exact callerStep_of_setPhase rfl hn (.finishes j rfl hi hdone) k
    · rename_i hdone
      exact callerStep_of_setPhase rfl hn (.sleeps j rfl hi (by simpa using hdone)) k
  case publish =>
    intro i result exc hi
    have hn := not_notifies hi (by nofun)
    exact callerStep_of_update rfl hn rfl rfl (.publishes result exc rfl hi) k
  case notifyAll =>
    intro i result exc hi
    exact callerStep_of_notifyAll hi k
  case eraseKey =>
    intro i result exc hi
    have hn := not_notifies hi (by nofun)
    exact callerStep_of_setPhase rfl hn (.erases result exc rfl hi) k
  case endFetch =>
    intro i outcome hi
    have hn : ∀ j, ¬s.Notifies (.fetch i outcome) j := by
      rintro j ⟨⟨⟩, -⟩
    cases outcome with
    | ok value => exact callerStep_of_setPhase rfl hn (.fetches value none rfl hi) k
    | error e => exact callerStep_of_setPhase rfl hn (.fetches [] (some e) rfl hi) k
  case wake =>
    intro i j hi
    have hn : ∀ j, ¬s.Notifies (.wake i) j := by
      rintro j ⟨⟨⟩, -⟩
    exact callerStep_of_setPhase rfl hn (.wakes j rfl hi) k

/-- What a step makes of the map. -/
theorem calls_step (hs : step key s l = some s') :
    (∃ i, Inserting key s l i ∧ s'.calls = s.calls.insert (key i) i) ∨
      (∃ i, Erasing s l i ∧ s'.calls = s.calls.erase (key i)) ∨
      s'.calls = s.calls ∧ ∀ i, ¬Inserting key s l i ∧ ¬Erasing s l i := by
  refine step_rule ?enter ?awaitDone ?publish ?notifyAll ?eraseKey ?endFetch ?wake hs
  case enter =>
    intro i hi
    unfold enter
    split
    · -- an entry is found, and the map stays as it is
      rename_i leader hcalls
      refine .inr (.inr ⟨rfl, fun k => ⟨?_, ?_⟩⟩)
      · rintro ⟨⟨⟩, -, hnone⟩
        rw [hcalls] at hnone
        cases hnone
      · rintro ⟨⟨⟩, result, exc, hk⟩
        rw [hi] at hk
        cases hk
    · rename_i hcalls
      exact .inl ⟨i, ⟨rfl, hi, hcalls⟩, rfl⟩
  case awaitDone =>
    intro i j hi
    have hcalls : (s.awaitDone i j).calls = s.calls := by
      unfold awaitDone
      split <;> rfl
    exact .inr (.inr ⟨hcalls, leaves_map hi (by nofun) (by nofun)⟩)
  case publish =>
    intro i result exc hi
    exact .inr (.inr ⟨rfl, leaves_map hi (by nofun) (by nofun)⟩)
  case notifyAll =>
    intro i result exc hi
    exact .inr (.inr ⟨rfl, leaves_map hi (by nofun) (by nofun)⟩)
  case eraseKey =>
    intro i result exc hi
    exact .inr (.inl ⟨i, ⟨rfl, result, exc, hi⟩, rfl⟩)
  case endFetch =>
    intro i outcome hi
    have hcalls : (s.endFetch i outcome).calls = s.calls := by
      unfold endFetch
      split <;> rfl
    refine .inr (.inr ⟨hcalls, fun k => ⟨?_, ?_⟩⟩) <;> rintro ⟨⟨⟩, -⟩
  case wake =>
    intro i j hi
    refine .inr (.inr ⟨rfl, fun k => ⟨?_, ?_⟩⟩) <;> rintro ⟨⟨⟩, -⟩

end Steps

end SingleFlight

end ShardCache
