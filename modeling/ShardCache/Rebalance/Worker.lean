import ShardCache.Foundations.Mutex
import ShardCache.Foundations.Run

/-!
# The thread that rebalances

A thread of its own runs `rebalance_now`. It sleeps on a condition variable until a pass is
requested or the node stops. Threads that change the membership publish a routing table, set the
request under the mutex of the condition variable and notify; `leave` publishes a table and runs a
pass itself. `stop` clears an atomic flag, which is not under the mutex, and so takes and releases
the mutex before it notifies.

No wakeup is lost: whoever has yet to notify the thread is there whenever the thread sleeps and
should not. So no change is forgotten, and `stop` returns. What a pass does with the entries is not
said here: `placed_for_` is set when it is over, whether or not the new owners could be reached.

## Main definitions

* `Rebalancer`, `Rebalancer.step`: the thread, the other threads, and one step
* `Rebalancer.Sound`: the mutexes, what is owed to the last table, and who is to notify

## Main results

* `Rebalancer.Sound.of_step`: what one step keeps
* `Rebalancer.comes_to_rest`: no wakeup is lost, and `stop` returns
* `Rebalancer.leave_ends_pass`: `leave` does not return before a pass for its table is over
-/

namespace ShardCache

open Foundations

namespace Rebalancer

/-- Where the thread is in `rebalance_loop`: at the test of the loop; about to lock the mutex; with
the mutex, at the predicate of `wait`, or going to sleep since it does not hold; asleep; notified
and about to lock the mutex again; past `wait`; in the pause before a pass; and in `rebalance_now`,
about to lock `rebalance_mutex_`, to read the table, or moving entries to their places in it. -/
inductive WorkerPhase where
  | top
  | locking
  | testing
  | dozing
  | asleep
  | waking
  | awake
  | settling
  | wanting
  | reading
  | moving (target : ℕ)
  | ended
deriving DecidableEq, Repr

/-- Where another thread is: it has changed the membership and is about to request a pass, has
requested it and has the mutex, or is about to notify; or it has left and is in `rebalance_now`. -/
inductive ClientPhase where
  | idle
  | changed
  | requesting
  | notifying
  | wanting
  | reading
  | moving (target : ℕ)
deriving DecidableEq, Repr

/-- Where the thread is that calls `stop`. -/
inductive StopperPhase where
  | idle
  | stored
  | locked
  | notifying
  | joining
  | joined
deriving DecidableEq, Repr

/-- The threads that take a mutex. -/
inductive Thread (ι : Type) where
  | worker
  | client (i : ι)
  | stopper
deriving DecidableEq, Repr

end Rebalancer

/-- The thread, with other threads `ι`. Tables are numbered as they are published: `routing` is
`routing_` and `placed` is `placed_for_`. `wake` and `serialize` are the owners of
`rebalance_wake_mutex_` and `rebalance_mutex_`. -/
structure Rebalancer (ι : Type) where
  running : Bool := true
  requested : Bool := false
  routing : ℕ := 0
  placed : ℕ := 0
  wake : Option (Rebalancer.Thread ι) := none
  serialize : Option (Rebalancer.Thread ι) := none
  worker : Rebalancer.WorkerPhase := .top
  client : ι → Rebalancer.ClientPhase := fun _ => .idle
  stopper : Rebalancer.StopperPhase := .idle

namespace Rebalancer

/-- A step: the thread goes on, or wakes up without a reason; a thread changes the membership, with
a new table or, in `remove_node`, without one, or leaves, or goes on; `stop` is called, or goes
on. -/
inductive Label (ι : Type) where
  | worker
  | spurious
  | change (i : ι) (publishes : Bool)
  | leave (i : ι)
  | client (i : ι)
  | stop
  | stopper
deriving DecidableEq, Repr

variable {ι : Type}

/-- The step comes from outside: a thread enters the code, or a wakeup has no reason. -/
def Label.external : Label ι → Bool
  | .worker | .client _ | .stopper => false
  | .spurious | .change _ _ | .leave _ | .stop => true

/-- `notify_all`. -/
def notify (s : Rebalancer ι) : Rebalancer ι :=
  { s with worker := if s.worker = .asleep then .waking else s.worker }

/-- The next step of `rebalance_loop`. -/
def workerStep (s : Rebalancer ι) : Option (Rebalancer ι) :=
  match s.worker with
  | .top => some { s with worker := if s.running then .locking else .ended }
  | .locking | .waking =>
    match s.wake with
    | none => some { s with wake := some .worker, worker := .testing }
    | some _ => none
  | .testing =>
    some { s with worker := if s.requested || !s.running then .awake else .dozing }
  | .dozing => some { s with wake := none, worker := .asleep }
  | .awake =>
    if s.running then some { s with requested := false, wake := none, worker := .settling }
    else some { s with wake := none, worker := .ended }
  | .settling => some { s with worker := .wanting }
  | .wanting =>
    match s.serialize with
    | none => some { s with serialize := some .worker, worker := .reading }
    | some _ => none
  | .reading =>
    -- a pass for the table in `placed_for_` returns at once
    if s.placed = s.routing then some { s with serialize := none, worker := .top }
    else some { s with worker := .moving s.routing }
  | .moving target => some { s with placed := target, serialize := none, worker := .top }
  | .asleep | .ended => none

section Steps

variable [DecidableEq ι]

/-- The thread `i` goes on. -/
def setClient (s : Rebalancer ι) (i : ι) (p : ClientPhase) : Rebalancer ι :=
  { s with client := Function.update s.client i p }

/-- The next step of `after_membership_change`, or of the pass in `leave`. -/
def clientStep (s : Rebalancer ι) (i : ι) : Option (Rebalancer ι) :=
  match s.client i with
  | .idle => none
  | .changed =>
    match s.wake with
    | none => some { s.setClient i .requesting with wake := some (.client i), requested := true }
    | some _ => none
  | .requesting => some { s.setClient i .notifying with wake := none }
  | .notifying => some (s.setClient i .idle).notify
  | .wanting =>
    match s.serialize with
    | none => some { s.setClient i .reading with serialize := some (.client i) }
    | some _ => none
  | .reading =>
    if s.placed = s.routing then some { s.setClient i .idle with serialize := none }
    else some (s.setClient i (.moving s.routing))
  | .moving target => some { s.setClient i .idle with placed := target, serialize := none }

/-- The next step of `stop`. -/
def stopperStep (s : Rebalancer ι) : Option (Rebalancer ι) :=
  match s.stopper with
  | .idle => none
  | .stored =>
    match s.wake with
    | none => some { s with wake := some .stopper, stopper := .locked }
    | some _ => none
  | .locked => some { s with wake := none, stopper := .notifying }
  | .notifying => some { s.notify with stopper := .joining }
  | .joining => if s.worker = .ended then some { s with stopper := .joined } else none
  | .joined => none

/-- One step. -/
def step (s : Rebalancer ι) : Label ι → Option (Rebalancer ι)
  | .worker => s.workerStep
  | .spurious => if s.worker = .asleep then some { s with worker := .waking } else none
  | .change i publishes =>
    match s.client i with
    | .idle =>
      some { s.setClient i .changed with
        routing := if publishes then s.routing + 1 else s.routing }
    | _ => none
  | .leave i =>
    match s.client i with
    | .idle => some { s.setClient i .wanting with routing := s.routing + 1 }
    | _ => none
  | .client i => s.clientStep i
  | .stop =>
    match s.stopper with
    | .idle => some { s with running := false, stopper := .stored }
    | _ => none
  | .stopper => s.stopperStep

end Steps

/-- What a step can do, and whether it comes from outside. -/
inductive Move [DecidableEq ι] (s : Rebalancer ι) : Bool → Rebalancer ι → Prop where
  | loop : s.worker = .top → s.running = true → Move s false { s with worker := .locking }
  | exit : s.worker = .top → s.running = false → Move s false { s with worker := .ended }
  | lock : s.worker = .locking ∨ s.worker = .waking → s.wake = none →
    Move s false { s with wake := some .worker, worker := .testing }
  | rouse : s.worker = .testing → s.requested = true ∨ s.running = false →
    Move s false { s with worker := .awake }
  | doze : s.worker = .testing → s.requested = false → s.running = true →
    Move s false { s with worker := .dozing }
  | sleep : s.worker = .dozing → Move s false { s with wake := none, worker := .asleep }
  | wakeUp : s.worker = .asleep → Move s true { s with worker := .waking }
  | take : s.worker = .awake → s.running = true →
    Move s false { s with requested := false, wake := none, worker := .settling }
  | quit : s.worker = .awake → s.running = false →
    Move s false { s with wake := none, worker := .ended }
  | settle : s.worker = .settling → Move s false { s with worker := .wanting }
  | enter : s.worker = .wanting → s.serialize = none →
    Move s false { s with serialize := some .worker, worker := .reading }
  | skip : s.worker = .reading → s.placed = s.routing →
    Move s false { s with serialize := none, worker := .top }
  | read : s.worker = .reading → s.placed ≠ s.routing →
    Move s false { s with worker := .moving s.routing }
  | finish (t : ℕ) : s.worker = .moving t →
    Move s false { s with placed := t, serialize := none, worker := .top }
  | change (i : ι) (routing : ℕ) : s.client i = .idle → s.routing ≤ routing →
    Move s true { s.setClient i .changed with routing := routing }
  | leave (i : ι) : s.client i = .idle →
    Move s true { s.setClient i .wanting with routing := s.routing + 1 }
  | request (i : ι) : s.client i = .changed → s.wake = none →
    Move s false { s.setClient i .requesting with wake := some (.client i), requested := true }
  | unlock (i : ι) : s.client i = .requesting →
    Move s false { s.setClient i .notifying with wake := none }
  | notify (i : ι) : s.client i = .notifying → Move s false (s.setClient i .idle).notify
  | clientEnter (i : ι) : s.client i = .wanting → s.serialize = none →
    Move s false { s.setClient i .reading with serialize := some (.client i) }
  | clientSkip (i : ι) : s.client i = .reading → s.placed = s.routing →
    Move s false { s.setClient i .idle with serialize := none }
  | clientRead (i : ι) : s.client i = .reading → s.placed ≠ s.routing →
    Move s false (s.setClient i (.moving s.routing))
  | clientFinish (i : ι) (t : ℕ) : s.client i = .moving t →
    Move s false { s.setClient i .idle with placed := t, serialize := none }
  | stop : s.stopper = .idle → Move s true { s with running := false, stopper := .stored }
  | stopLock : s.stopper = .stored → s.wake = none →
    Move s false { s with wake := some .stopper, stopper := .locked }
  | stopUnlock : s.stopper = .locked → Move s false { s with wake := none, stopper := .notifying }
  | stopNotify : s.stopper = .notifying → Move s false { s.notify with stopper := .joining }
  | join : s.stopper = .joining → s.worker = .ended → Move s false { s with stopper := .joined }

section Moves

variable [DecidableEq ι] {s s' : Rebalancer ι} {l : Label ι}

theorem move_of_workerStep (hs : s.workerStep = some s') : Move s false s' := by
  unfold workerStep at hs
  split at hs
  case h_1 htop =>
    obtain rfl := Option.some.inj hs
    split
    case isTrue hrunning => exact .loop htop hrunning
    case isFalse hrunning => exact .exit htop (Bool.eq_false_of_not_eq_true hrunning)
  case h_2 hlocking =>
    split at hs
    case h_1 hfree => exact Option.some.inj hs ▸ .lock (.inl hlocking) hfree
    case h_2 => cases hs
  case h_3 hwaking =>
    split at hs
    case h_1 hfree => exact Option.some.inj hs ▸ .lock (.inr hwaking) hfree
    case h_2 => cases hs
  case h_4 htesting =>
    obtain rfl := Option.some.inj hs
    split
    case isTrue hrouse => exact .rouse htesting (by simpa using hrouse)
    case isFalse hdoze =>
      obtain ⟨hrequested, hrunning⟩ : s.requested = false ∧ s.running = true := by simpa using hdoze
      exact .doze htesting hrequested hrunning
  case h_5 hdozing => exact Option.some.inj hs ▸ .sleep hdozing
  case h_6 hawake =>
    split at hs
    case isTrue hrunning => exact Option.some.inj hs ▸ .take hawake hrunning
    case isFalse hrunning =>
      exact Option.some.inj hs ▸ .quit hawake (Bool.eq_false_of_not_eq_true hrunning)
  case h_7 hsettling => exact Option.some.inj hs ▸ .settle hsettling
  case h_8 hwanting =>
    split at hs
    case h_1 hfree => exact Option.some.inj hs ▸ .enter hwanting hfree
    case h_2 => cases hs
  case h_9 hreading =>
    split at hs
    case isTrue hplaced => exact Option.some.inj hs ▸ .skip hreading hplaced
    case isFalse hplaced => exact Option.some.inj hs ▸ .read hreading hplaced
  case h_10 t hmoving => exact Option.some.inj hs ▸ .finish t hmoving
  all_goals cases hs

theorem move_of_clientStep {i : ι} (hs : s.clientStep i = some s') : Move s false s' := by
  unfold clientStep at hs
  split at hs
  case h_1 => cases hs
  case h_2 hchanged =>
    split at hs
    case h_1 hfree => exact Option.some.inj hs ▸ .request i hchanged hfree
    case h_2 => cases hs
  case h_3 hrequesting => exact Option.some.inj hs ▸ .unlock i hrequesting
  case h_4 hnotifying => exact Option.some.inj hs ▸ .notify i hnotifying
  case h_5 hwanting =>
    split at hs
    case h_1 hfree => exact Option.some.inj hs ▸ .clientEnter i hwanting hfree
    case h_2 => cases hs
  case h_6 hreading =>
    split at hs
    case isTrue hplaced => exact Option.some.inj hs ▸ .clientSkip i hreading hplaced
    case isFalse hplaced => exact Option.some.inj hs ▸ .clientRead i hreading hplaced
  case h_7 t hmoving => exact Option.some.inj hs ▸ .clientFinish i t hmoving

theorem move_of_stopperStep (hs : s.stopperStep = some s') : Move s false s' := by
  unfold stopperStep at hs
  split at hs
  case h_2 hstored =>
    split at hs
    case h_1 hfree => exact Option.some.inj hs ▸ .stopLock hstored hfree
    case h_2 => cases hs
  case h_3 hlocked => exact Option.some.inj hs ▸ .stopUnlock hlocked
  case h_4 hnotifying => exact Option.some.inj hs ▸ .stopNotify hnotifying
  case h_5 hjoining =>
    split at hs
    case isTrue hended => exact Option.some.inj hs ▸ .join hjoining hended
    case isFalse => cases hs
  all_goals cases hs

theorem move_of_step (hs : s.step l = some s') : Move s l.external s' := by
  cases l with
  | worker => exact move_of_workerStep hs
  | spurious =>
    obtain ⟨hasleep, hs⟩ := Option.ite_none_right_eq_some.mp hs
    exact Option.some.inj hs ▸ .wakeUp hasleep
  | change i publishes =>
    unfold step at hs
    dsimp only at hs
    split at hs
    case h_1 hidle =>
      obtain rfl := Option.some.inj hs
      exact .change i _ hidle (by split <;> omega)
    case h_2 => cases hs
  | leave i =>
    unfold step at hs
    dsimp only at hs
    split at hs
    case h_1 hidle => exact Option.some.inj hs ▸ .leave i hidle
    case h_2 => cases hs
  | client i => exact move_of_clientStep hs
  | stop =>
    unfold step at hs
    dsimp only at hs
    split at hs
    case h_1 hidle => exact Option.some.inj hs ▸ .stop hidle
    case h_2 => cases hs
  | stopper => exact move_of_stopperStep hs

end Moves

/-! ## What every step keeps -/

/-- Where a thread is. -/
inductive Phase where
  | worker (p : WorkerPhase)
  | client (p : ClientPhase)
  | stopper (p : StopperPhase)

/-- A thread that is there has the mutex of the condition variable. -/
def Phase.HoldsWake : Phase → Prop
  | .worker p => p = .testing ∨ p = .dozing ∨ p = .awake
  | .client p => p = .requesting
  | .stopper p => p = .locked

/-- A thread that is there runs a pass. -/
def Phase.HoldsSerialize : Phase → Prop
  | .worker p => p = .reading ∨ ∃ t, p = .moving t
  | .client p => p = .reading ∨ ∃ t, p = .moving t
  | .stopper _ => False

/-- A thread that is there moves the entries to their places in the table `t`. -/
def Phase.MovesTo (t : ℕ) : Phase → Prop
  | .worker p => p = .moving t
  | .client p => p = .moving t
  | .stopper _ => False

/-- A thread that is there will read the table or request a pass, or moves the entries to their
places in the table `t`. -/
def Phase.Reads (t : ℕ) : Phase → Prop
  | .worker p => p = .settling ∨ p = .wanting ∨ p = .reading ∨ p = .moving t
  | .client p => p = .changed ∨ p = .wanting ∨ p = .reading ∨ p = .moving t
  | .stopper _ => False

/-- A thread that is there will notify. -/
def Phase.Notifies : Phase → Prop
  | .worker _ => False
  | .client p => p = .requesting ∨ p = .notifying
  | .stopper p => p = .stored ∨ p = .locked ∨ p = .notifying

/-- Where the thread `u` is. -/
def phase (s : Rebalancer ι) : Thread ι → Phase
  | .worker => .worker s.worker
  | .client i => .client (s.client i)
  | .stopper => .stopper s.stopper

/-- A pass will still read the table, or moves the entries to their places in the last one. -/
def Owed (s : Rebalancer ι) : Prop :=
  s.requested = true ∨ ∃ u, (s.phase u).Reads s.routing

/-- The predicate of `wait`. -/
def Called (s : Rebalancer ι) : Prop :=
  s.requested = true ∨ s.running = false

/-- Mutexes have one owner; a table that is not the one in `placed_for_` is still to be read by a
pass; and a thread that sleeps and should not is still to be notified. -/
structure Sound (s : Rebalancer ι) : Prop where
  wake : Owned s.wake Phase.HoldsWake s.phase
  serialize : Owned s.serialize Phase.HoldsSerialize s.phase
  placed : s.placed ≤ s.routing
  moving : ∀ u t, (s.phase u).MovesTo t → s.placed ≤ t ∧ t ≤ s.routing
  owed : s.placed = s.routing ∨ s.Owed
  stopped : s.running = false ↔ s.stopper ≠ .idle
  awake : s.worker = .awake → s.Called
  ended : s.worker = .ended → s.running = false
  joined : s.stopper = .joined → s.worker = .ended
  dozing : s.worker = .dozing → s.Called → s.stopper = .stored
  asleep : s.worker = .asleep → s.Called → ∃ u, (s.phase u).Notifies

theorem sound_start : Sound ({} : Rebalancer ι) where
  wake t := by cases t <;> simp [phase, Phase.HoldsWake]
  serialize t := by cases t <;> simp [phase, Phase.HoldsSerialize]
  placed := le_rfl
  moving u t := by cases u <;> simp [phase, Phase.MovesTo]
  owed := .inl rfl
  stopped := by simp
  awake := by simp
  ended := by simp
  joined := by simp
  dozing := by simp
  asleep := by simp

section Step

variable {s s' : Rebalancer ι} {l : Label ι} {b : Bool}

/-- A step of the thread itself leaves the others where they are. -/
theorem phase_of_worker (hclient : s'.client = s.client) (hstopper : s'.stopper = s.stopper)
    (u : Thread ι) (hu : u ≠ .worker) : s'.phase u = s.phase u := by
  cases u with
  | worker => exact absurd rfl hu
  | client i => rw [phase, phase, hclient]
  | stopper => rw [phase, phase, hstopper]

theorem phase_of_stopper (hworker : s'.worker = s.worker) (hclient : s'.client = s.client)
    (u : Thread ι) (hu : u ≠ .stopper) : s'.phase u = s.phase u := by
  cases u with
  | worker => rw [phase, phase, hworker]
  | client i => rw [phase, phase, hclient]
  | stopper => exact absurd rfl hu

/-- A mutex that the thread has neither when it sleeps nor when it was notified. -/
theorem owned_notify {owner : Option (Thread ι)} {held : Phase → Prop}
    (hasleep : ¬held (.worker .asleep)) (hwaking : ¬held (.worker .waking))
    (h : Owned owner held s.phase) : Owned owner held s.notify.phase := by
  refine h.keep .worker ?_ (phase_of_worker rfl rfl)
  by_cases hs : s.worker = .asleep
  · simp [phase, Rebalancer.notify, hs, hasleep, hwaking]
  · simp [phase, Rebalancer.notify, hs]

theorem Phase.MovesTo.holdsSerialize {t : ℕ} {p : Phase} (h : p.MovesTo t) : p.HoldsSerialize := by
  cases p with
  | worker p => exact .inr ⟨t, h⟩
  | client p => exact .inr ⟨t, h⟩
  | stopper p => exact h

theorem movesTo_notify {t : ℕ} {u : Thread ι} (h : (s.notify.phase u).MovesTo t) :
    (s.phase u).MovesTo t := by
  cases u with
  | worker => grind [phase, Rebalancer.notify, Phase.MovesTo]
  | client i => exact h
  | stopper => exact h

/-- A step of `t` that finishes no pass. -/
theorem moving_of_frame
    (h : ∀ u r, (s.phase u).MovesTo r → s.placed ≤ r ∧ r ≤ s.routing) (t : Thread ι)
    (hplaced : s'.placed = s.placed) (hrouting : s.routing ≤ s'.routing)
    (ht : ∀ r, (s'.phase t).MovesTo r → s.placed ≤ r ∧ r ≤ s.routing)
    (hothers : ∀ u, u ≠ t → s'.phase u = s.phase u) :
    ∀ u r, (s'.phase u).MovesTo r → s'.placed ≤ r ∧ r ≤ s'.routing := by
  intro u r hr
  have hold : s.placed ≤ r ∧ r ≤ s.routing := by
    by_cases hu : u = t
    · subst hu
      exact ht r hr
    · exact h u r (hothers u hu ▸ hr)
  exact ⟨hplaced ▸ hold.1, hold.2.trans hrouting⟩

/-- A step of `t` that neither publishes a table nor finishes a pass. -/
theorem Owed.of_frame (h : s.Owed) (t : Thread ι) (hrequested : s'.requested = s.requested)
    (hrouting : s'.routing = s.routing)
    (ht : (s.phase t).Reads s.routing → (s'.phase t).Reads s.routing)
    (hothers : ∀ u, u ≠ t → s'.phase u = s.phase u) : s'.Owed := by
  refine h.imp (fun h => hrequested.trans h) fun h => ?_
  rw [hrouting]
  exact exists_phase_of_step h t ht hothers

theorem Owed.notify (h : s.Owed) : s.notify.Owed := by
  refine h.of_frame .worker rfl rfl ?_ (phase_of_worker rfl rfl)
  grind [phase, Rebalancer.notify, Phase.Reads]

theorem Phase.MovesTo.eq_of_reads {t r : ℕ} {p : Phase} (h : p.MovesTo t) (hreads : p.Reads r) :
    t = r := by
  cases p with
  | worker p =>
    obtain rfl : p = .moving t := h
    simpa [Phase.Reads] using hreads
  | client p =>
    obtain rfl : p = .moving t := h
    simpa [Phase.Reads] using hreads
  | stopper p => exact h.elim

/-- `u` ends a pass for the table `t`. If there is a later table, the pass that is owed to it is
another one. -/
theorem owed_of_finish (h : Sound s) (u : Thread ι) (t : ℕ) (hu : (s.phase u).MovesTo t)
    (hplaced : s'.placed = t) (hrequested : s'.requested = s.requested)
    (hrouting : s'.routing = s.routing) (hothers : ∀ v, v ≠ u → s'.phase v = s.phase v) :
    s'.placed = s'.routing ∨ s'.Owed := by
  obtain ⟨hlower, hupper⟩ := h.moving u t hu
  rw [hplaced, hrouting]
  by_cases hlast : t = s.routing
  · exact .inl hlast
  · have howed : s.Owed := by
      refine h.owed.resolve_left fun hold => hlast ?_
      exact hupper.antisymm (hold ▸ hlower)
    exact .inr (howed.of_frame u hrequested hrouting
      (fun hreads => absurd (hu.eq_of_reads hreads) hlast) hothers)

variable [DecidableEq ι]

theorem phase_of_client {i : ι} {p : ClientPhase} (hworker : s'.worker = s.worker)
    (hclient : s'.client = (s.setClient i p).client) (hstopper : s'.stopper = s.stopper)
    (u : Thread ι) (hu : u ≠ .client i) : s'.phase u = s.phase u := by
  cases u with
  | worker => rw [phase, phase, hworker]
  | client j =>
    have hj : j ≠ i := fun hj => hu (congrArg _ hj)
    rw [phase, phase, hclient]
    exact congrArg Phase.client (Function.update_of_ne hj _ _)
  | stopper => rw [phase, phase, hstopper]

@[simp] theorem setClient_self (i : ι) (p : ClientPhase) : (s.setClient i p).client i = p :=
  Function.update_self _ _ _

theorem wake_of_move (h : Owned s.wake Phase.HoldsWake s.phase) (hm : Move s b s') :
    Owned s'.wake Phase.HoldsWake s'.phase := by
  cases hm with
  | lock _ hfree => exact h.lock hfree .worker (.inl rfl) (phase_of_worker rfl rfl)
  | sleep hw =>
    exact h.unlock .worker (.inr (.inl hw)) (by simp [phase, Phase.HoldsWake])
      (phase_of_worker rfl rfl)
  | take hw _ | quit hw _ =>
    exact h.unlock .worker (.inr (.inr hw)) (by simp [phase, Phase.HoldsWake])
      (phase_of_worker rfl rfl)
  | request i _ hfree =>
    exact h.lock hfree (.client i) (by simp [phase, Phase.HoldsWake]) (phase_of_client rfl rfl rfl)
  | unlock i hi =>
    exact h.unlock (.client i) hi (by simp [phase, Phase.HoldsWake]) (phase_of_client rfl rfl rfl)
  | stopLock _ hfree => exact h.lock hfree .stopper rfl (phase_of_stopper rfl rfl)
  | stopUnlock hlocked =>
    exact h.unlock .stopper hlocked (by simp [phase, Phase.HoldsWake]) (phase_of_stopper rfl rfl)
  | loop hw _ | exit hw _ | rouse hw _ | doze hw _ _ | wakeUp hw | settle hw | enter hw _
  | skip hw _ | read hw _ | finish t hw =>
    exact h.keep .worker (by simp [phase, Phase.HoldsWake, hw]) (phase_of_worker rfl rfl)
  | change i _ hi _ | leave i hi | clientEnter i hi _ | clientSkip i hi _ | clientRead i hi _
  | clientFinish i _ hi =>
    exact h.keep (.client i) (by simp [phase, Phase.HoldsWake, hi]) (phase_of_client rfl rfl rfl)
  | notify i hi =>
    exact owned_notify (by simp [Phase.HoldsWake]) (by simp [Phase.HoldsWake]) <|
      h.keep (.client i) (by simp [phase, Phase.HoldsWake, hi]) (phase_of_client rfl rfl rfl)
  | stop hs | join hs _ =>
    exact h.keep .stopper (by simp [phase, Phase.HoldsWake, hs]) (phase_of_stopper rfl rfl)
  | stopNotify hnotifying =>
    exact (owned_notify (by simp [Phase.HoldsWake]) (by simp [Phase.HoldsWake]) h).keep .stopper
      (by simp [phase, Phase.HoldsWake, Rebalancer.notify, hnotifying]) (phase_of_stopper rfl rfl)

theorem serialize_of_move (h : Owned s.serialize Phase.HoldsSerialize s.phase) (hm : Move s b s') :
    Owned s'.serialize Phase.HoldsSerialize s'.phase := by
  cases hm with
  | enter _ hfree => exact h.lock hfree .worker (.inl rfl) (phase_of_worker rfl rfl)
  | skip hw _ =>
    exact h.unlock .worker (.inl hw) (by simp [phase, Phase.HoldsSerialize])
      (phase_of_worker rfl rfl)
  | finish t hw =>
    exact h.unlock .worker (.inr ⟨t, hw⟩) (by simp [phase, Phase.HoldsSerialize])
      (phase_of_worker rfl rfl)
  | clientEnter i _ hfree =>
    exact h.lock hfree (.client i) (by simp [phase, Phase.HoldsSerialize])
      (phase_of_client rfl rfl rfl)
  | clientSkip i hi _ =>
    exact h.unlock (.client i) (.inl hi) (by simp [phase, Phase.HoldsSerialize])
      (phase_of_client rfl rfl rfl)
  | clientFinish i t hi =>
    exact h.unlock (.client i) (.inr ⟨t, hi⟩) (by simp [phase, Phase.HoldsSerialize])
      (phase_of_client rfl rfl rfl)
  | loop hw _ | exit hw _ | rouse hw _ | doze hw _ _ | sleep hw | wakeUp hw | take hw _ | quit hw _
  | settle hw | read hw _ =>
    exact h.keep .worker (by simp [phase, Phase.HoldsSerialize, hw]) (phase_of_worker rfl rfl)
  | lock hw _ =>
    exact h.keep .worker (by rcases hw with hw | hw <;> simp [phase, Phase.HoldsSerialize, hw])
      (phase_of_worker rfl rfl)
  | change i _ hi _ | leave i hi | request i hi _ | unlock i hi | clientRead i hi _ =>
    exact h.keep (.client i) (by simp [phase, Phase.HoldsSerialize, hi])
      (phase_of_client rfl rfl rfl)
  | notify i hi =>
    exact owned_notify (by simp [Phase.HoldsSerialize]) (by simp [Phase.HoldsSerialize]) <|
      h.keep (.client i) (by simp [phase, Phase.HoldsSerialize, hi]) (phase_of_client rfl rfl rfl)
  | stop _ | stopLock _ _ | stopUnlock _ | join _ _ =>
    exact h.keep .stopper (by simp [phase, Phase.HoldsSerialize]) (phase_of_stopper rfl rfl)
  | stopNotify _ =>
    exact (owned_notify (by simp [Phase.HoldsSerialize]) (by simp [Phase.HoldsSerialize]) h).keep
      .stopper (by simp [phase, Phase.HoldsSerialize]) (phase_of_stopper rfl rfl)

theorem moving_of_move (h : Sound s) (hm : Move s b s') :
    ∀ u t, (s'.phase u).MovesTo t → s'.placed ≤ t ∧ t ≤ s'.routing := by
  cases hm with
  | loop _ _ | exit _ _ | rouse _ _ | doze _ _ _ | sleep _ | wakeUp _ | take _ _ | quit _ _
  | settle _ | lock _ _ | enter _ _ | skip _ _ =>
    exact moving_of_frame h.moving .worker rfl le_rfl (by simp [phase, Phase.MovesTo])
      (phase_of_worker rfl rfl)
  | read _ _ =>
    refine moving_of_frame h.moving .worker rfl le_rfl ?_ (phase_of_worker rfl rfl)
    rintro r ⟨rfl⟩
    exact ⟨h.placed, le_rfl⟩
  | finish t hw =>
    -- the pass has ended, and there was one
    intro u r hr
    exact absurd hr.holdsSerialize (serialize_of_move h.serialize (.finish t hw)).not_held
  | change i _ _ hrouting =>
    exact moving_of_frame h.moving (.client i) rfl hrouting (by simp [phase, Phase.MovesTo])
      (phase_of_client rfl rfl rfl)
  | leave i _ =>
    exact moving_of_frame h.moving (.client i) rfl (Nat.le_succ _) (by simp [phase, Phase.MovesTo])
      (phase_of_client rfl rfl rfl)
  | request i _ _ | unlock i _ | clientEnter i _ _ | clientSkip i _ _ =>
    exact moving_of_frame h.moving (.client i) rfl le_rfl (by simp [phase, Phase.MovesTo])
      (phase_of_client rfl rfl rfl)
  | clientRead i _ _ =>
    refine moving_of_frame h.moving (.client i) rfl le_rfl ?_ (phase_of_client rfl rfl rfl)
    intro r hr
    obtain rfl : s.routing = r := by simpa [phase, Phase.MovesTo] using hr
    exact ⟨h.placed, le_rfl⟩
  | clientFinish i t hi =>
    intro u r hr
    exact absurd hr.holdsSerialize (serialize_of_move h.serialize (.clientFinish i t hi)).not_held
  | notify i _ =>
    have hidle : ∀ u r, ((s.setClient i .idle).phase u).MovesTo r → s.placed ≤ r ∧ r ≤ s.routing :=
      moving_of_frame h.moving (.client i) rfl le_rfl (by simp [phase, Phase.MovesTo])
        (phase_of_client rfl rfl rfl)
    exact fun u r hr => hidle u r (movesTo_notify hr)
  | stop _ | stopLock _ _ | stopUnlock _ | join _ _ =>
    exact moving_of_frame h.moving .stopper rfl le_rfl (by simp [phase, Phase.MovesTo])
      (phase_of_stopper rfl rfl)
  | stopNotify _ =>
    exact moving_of_frame (s := s.notify) (fun u r hr => h.moving u r (movesTo_notify hr)) .stopper
      rfl le_rfl (by simp [phase, Phase.MovesTo]) (phase_of_stopper rfl rfl)

theorem placed_of_move (h : Sound s) (hm : Move s b s') : s'.placed ≤ s'.routing := by
  cases hm with
  | finish t hw => exact (h.moving .worker t hw).2
  | clientFinish i t hi => exact (h.moving (.client i) t hi).2
  | change i _ _ hrouting => exact h.placed.trans hrouting
  | leave i _ => exact h.placed.trans (Nat.le_succ _)
  | _ => exact h.placed

theorem owed_of_move (h : Sound s) (hm : Move s b s') : s'.placed = s'.routing ∨ s'.Owed := by
  cases hm with
  | loop hw _ | exit hw _ | rouse hw _ | doze hw _ _ | sleep hw | wakeUp hw | quit hw _ =>
    exact h.owed.imp_right fun h => h.of_frame .worker rfl rfl (by simp [phase, Phase.Reads, hw])
      (phase_of_worker rfl rfl)
  | lock hw _ =>
    exact h.owed.imp_right fun h => h.of_frame .worker rfl rfl
      (by rcases hw with hw | hw <;> simp [phase, Phase.Reads, hw]) (phase_of_worker rfl rfl)
  | take _ _ | settle _ | enter _ _ | read _ _ =>
    exact .inr (.inr ⟨.worker, by simp [phase, Phase.Reads]⟩)
  | skip _ hplaced => exact .inl hplaced
  | finish t hw => exact owed_of_finish h .worker t hw rfl rfl rfl (phase_of_worker rfl rfl)
  | change i _ _ _ | leave i _ | clientEnter i _ _ | clientRead i _ _ =>
    exact .inr (.inr ⟨.client i, by simp [phase, Phase.Reads, setClient]⟩)
  | request i _ _ => exact .inr (.inl rfl)
  | unlock i hi =>
    exact h.owed.imp_right fun h => h.of_frame (.client i) rfl rfl
      (by simp [phase, Phase.Reads, hi]) (phase_of_client rfl rfl rfl)
  | notify i hi =>
    exact h.owed.imp_right fun h => .notify <| h.of_frame (.client i) rfl rfl
      (by simp [phase, Phase.Reads, hi]) (phase_of_client rfl rfl rfl)
  | clientSkip i _ hplaced => exact .inl hplaced
  | clientFinish i t hi =>
    exact owed_of_finish h (.client i) t hi rfl rfl rfl (phase_of_client rfl rfl rfl)
  | stop _ | stopLock _ _ | stopUnlock _ | join _ _ =>
    exact h.owed.imp_right fun h => h.of_frame .stopper rfl rfl (by simp [phase, Phase.Reads])
      (phase_of_stopper rfl rfl)
  | stopNotify _ =>
    exact h.owed.imp_right fun h => h.notify.of_frame .stopper rfl rfl
      (by simp [phase, Phase.Reads]) (phase_of_stopper rfl rfl)

theorem stopped_of_move (h : Sound s) (hm : Move s b s') :
    s'.running = false ↔ s'.stopper ≠ .idle := by
  cases hm with
  | stop _ => simp
  | stopLock hstored _ => simpa [hstored] using h.stopped
  | stopUnlock hlocked => simpa [hlocked] using h.stopped
  | stopNotify hnotifying => simpa [hnotifying, Rebalancer.notify] using h.stopped
  | join hjoining _ => simpa [hjoining] using h.stopped
  | _ => exact h.stopped

theorem awake_of_move (h : Sound s) (hm : Move s b s') : s'.worker = .awake → s'.Called := by
  intro hawake
  cases hm with
  | rouse _ hcalled => exact hcalled
  | request i _ _ => exact .inl rfl
  | stop _ => exact .inr rfl
  | change i _ _ _ | leave i _ | unlock i _ | clientEnter i _ _ | clientSkip i _ _
  | clientRead i _ _ | clientFinish i _ _ | stopLock _ _ | stopUnlock _ | join _ _ =>
    exact h.awake hawake
  | notify i _ | stopNotify _ =>
    have hawake : s.worker = .awake := by grind [Rebalancer.notify, setClient]
    exact h.awake hawake
  | _ => simp at hawake

theorem ended_of_move (h : Sound s) (hm : Move s b s') :
    s'.worker = .ended → s'.running = false := by
  intro hended
  cases hm with
  | exit _ hrunning | quit _ hrunning => exact hrunning
  | stop _ => rfl
  | request i _ _ | change i _ _ _ | leave i _ | unlock i _ | clientEnter i _ _ | clientSkip i _ _
  | clientRead i _ _ | clientFinish i _ _ | stopLock _ _ | stopUnlock _ | join _ _ =>
    exact h.ended hended
  | notify i _ | stopNotify _ =>
    have hended : s.worker = .ended := by grind [Rebalancer.notify, setClient]
    exact h.ended hended
  | _ => simp at hended

theorem joined_of_move (h : Sound s) (hm : Move s b s') :
    s'.stopper = .joined → s'.worker = .ended := by
  intro hjoined
  cases hm with
  | join _ hended => exact hended
  | stop _ | stopLock _ _ | stopUnlock _ | stopNotify _ => simp at hjoined
  | request i _ _ | change i _ _ _ | leave i _ | unlock i _ | clientEnter i _ _ | clientSkip i _ _
  | clientRead i _ _ | clientFinish i _ _ => exact h.joined hjoined
  | notify i _ =>
    have hended : s.worker = .ended := h.joined hjoined
    simp [Rebalancer.notify, setClient, hended]
  | _ =>
    -- a thread that has ended takes no step
    have hended : s.worker = .ended := h.joined hjoined
    simp_all

/-- A thread that found no reason to go on has the mutex until it sleeps. A request needs the
mutex; `stop` does not when it clears the flag, but then has yet to lock it. -/
theorem dozing_of_move (h : Sound s) (hm : Move s b s') :
    s'.worker = .dozing → s'.Called → s'.stopper = .stored := by
  have hlocked (hdozing : s.worker = .dozing) : (s.phase .worker).HoldsWake :=
    .inr (.inl hdozing)
  intro hdozing hcalled
  cases hm with
  | doze _ hrequested hrunning => simp [Called, hrequested, hrunning] at hcalled
  | request i _ hfree => exact absurd (hlocked hdozing) (hfree ▸ h.wake).not_held
  | stop _ => rfl
  | stopLock _ hfree => exact absurd (hlocked hdozing) (hfree ▸ h.wake).not_held
  | change i _ _ _ | leave i _ | unlock i _ | clientEnter i _ _ | clientSkip i _ _
  | clientRead i _ _ | clientFinish i _ _ => exact h.dozing hdozing hcalled
  | notify i _ =>
    have hdozing : s.worker = .dozing := by grind [Rebalancer.notify, setClient]
    exact h.dozing hdozing hcalled
  | stopUnlock hstopper => exact absurd (h.dozing hdozing hcalled) (by simp [hstopper])
  | stopNotify hstopper =>
    have hdozing : s.worker = .dozing := by grind [Rebalancer.notify]
    exact absurd (h.dozing hdozing hcalled) (by simp [hstopper])
  | join _ hended => simp [hended] at hdozing
  | _ => simp at hdozing

theorem asleep_of_move (h : Sound s) (hm : Move s b s') :
    s'.worker = .asleep → s'.Called → ∃ u, (s'.phase u).Notifies := by
  intro hasleep hcalled
  cases hm with
  | sleep hw => exact ⟨.stopper, .inl (h.dozing hw hcalled)⟩
  | request i _ _ | unlock i _ => exact ⟨.client i, by simp [phase, Phase.Notifies]⟩
  | notify i _ | stopNotify _ => grind [Rebalancer.notify]
  | stop _ | stopLock _ _ | stopUnlock _ => exact ⟨.stopper, by simp [phase, Phase.Notifies]⟩
  | change i _ hi _ | leave i hi | clientEnter i hi _ | clientSkip i hi _ | clientRead i hi _
  | clientFinish i _ hi =>
    exact exists_phase_of_step (h.asleep hasleep hcalled) (.client i)
      (by simp [phase, Phase.Notifies, hi]) (phase_of_client rfl rfl rfl)
  | join _ hended => simp [hended] at hasleep
  | _ => simp at hasleep

/-- What one step keeps. -/
theorem Sound.of_step (h : Sound s) (hs : s.step l = some s') : Sound s' :=
  have hm := move_of_step hs
  { wake := wake_of_move h.wake hm
    serialize := serialize_of_move h.serialize hm
    placed := placed_of_move h hm
    moving := moving_of_move h hm
    owed := owed_of_move h hm
    stopped := stopped_of_move h hm
    awake := awake_of_move h hm
    ended := ended_of_move h hm
    joined := joined_of_move h hm
    dozing := dozing_of_move h hm
    asleep := asleep_of_move h hm }

/-- What every run keeps. -/
theorem Sound.of_run {ls : List (Label ι)} (h : Sound s) (hr : run step s ls = some s') :
    Sound s' :=
  run_invariant (fun _ _ _ hs _ => hs.of_step) h (along_true s ls) hr

end Step

/-! ## Coming to rest -/

/-- No thread can take a step. -/
def Resting [DecidableEq ι] (s : Rebalancer ι) : Prop :=
  ∀ l : Label ι, l.external = false → s.step l = none

section Rest

variable [DecidableEq ι] {s s' : Rebalancer ι} {l : Label ι}

/-- A thread with the mutex of the condition variable can go on. -/
theorem Resting.wake_free (hrest : s.Resting) (h : Sound s) : s.wake = none := by
  by_contra howner
  obtain ⟨u, howner⟩ := Option.ne_none_iff_exists'.mp howner
  have hheld := (h.wake u).mp howner
  cases u with
  | worker =>
    have hstep := hrest .worker rfl
    rcases hheld with hw | hw | hw <;> grind [step, workerStep]
  | client i =>
    have hstep := hrest (.client i) rfl
    have hi : s.client i = .requesting := hheld
    simp [step, clientStep, hi] at hstep
  | stopper =>
    have hstep := hrest .stopper rfl
    have hstopper : s.stopper = .locked := hheld
    simp [step, stopperStep, hstopper] at hstep

/-- A thread that runs a pass can go on. -/
theorem Resting.serialize_free (hrest : s.Resting) (h : Sound s) : s.serialize = none := by
  by_contra howner
  obtain ⟨u, howner⟩ := Option.ne_none_iff_exists'.mp howner
  have hheld := (h.serialize u).mp howner
  cases u with
  | worker =>
    have hstep := hrest .worker rfl
    rcases hheld with hw | ⟨t, hw⟩ <;> grind [step, workerStep]
  | client i =>
    have hstep := hrest (.client i) rfl
    rcases hheld with hi | ⟨t, hi⟩ <;> grind [step, clientStep]
  | stopper => exact hheld

theorem Resting.worker (hrest : s.Resting) (h : Sound s) :
    s.worker = .asleep ∨ s.worker = .ended := by
  have hstep : s.workerStep = none := hrest .worker rfl
  have hwake := hrest.wake_free h
  have hserialize := hrest.serialize_free h
  cases hw : s.worker <;> simp_all [workerStep]
  all_goals grind

theorem Resting.client (hrest : s.Resting) (h : Sound s) (i : ι) : s.client i = .idle := by
  have hstep : s.clientStep i = none := hrest (.client i) rfl
  have hwake := hrest.wake_free h
  have hserialize := hrest.serialize_free h
  cases hi : s.client i <;> simp_all [clientStep]
  all_goals grind

theorem Resting.stopper (hrest : s.Resting) (h : Sound s) :
    s.stopper = .idle ∨ s.stopper = .joined ∨ s.stopper = .joining ∧ s.worker = .asleep := by
  have hstep : s.stopperStep = none := hrest .stopper rfl
  have hwake := hrest.wake_free h
  have hworker := hrest.worker h
  cases hstopper : s.stopper <;> simp_all [stopperStep]

/-- No thread has to notify, so a thread that sleeps has no reason to go on. -/
theorem Resting.not_called (hrest : s.Resting) (h : Sound s) (hasleep : s.worker = .asleep)
    (hstopper : s.stopper = .idle ∨ s.stopper = .joining) : ¬s.Called := by
  intro hcalled
  obtain ⟨u, hnotifies⟩ := h.asleep hasleep hcalled
  cases u with
  | worker => exact hnotifies
  | client i => simp [phase, Phase.Notifies, hrest.client h i] at hnotifies
  | stopper => rcases hstopper with hs | hs <;> simp [phase, Phase.Notifies, hs] at hnotifies

/-- Nothing is owed to the last table. -/
theorem Resting.placed (hrest : s.Resting) (h : Sound s) (hasleep : s.worker = .asleep)
    (hidle : s.stopper = .idle) : s.placed = s.routing := by
  refine h.owed.resolve_right ?_
  rintro (hrequested | ⟨u, hreads⟩)
  · exact hrest.not_called h hasleep (.inl hidle) (.inl hrequested)
  · cases u with
    | worker => simp [phase, Phase.Reads, hasleep] at hreads
    | client i => simp [phase, Phase.Reads, hrest.client h i] at hreads
    | stopper => exact hreads

/-- Where the threads come to rest. -/
theorem Resting.cases (hrest : s.Resting) (h : Sound s) :
    s.stopper = .idle ∧ s.worker = .asleep ∧ s.placed = s.routing ∨
      s.stopper = .joined ∧ s.worker = .ended := by
  rcases hrest.stopper h with hidle | hjoined | ⟨hjoining, hasleep⟩
  · have hrunning : s.running ≠ false := fun hrunning => h.stopped.mp hrunning hidle
    have hasleep : s.worker = .asleep :=
      (hrest.worker h).resolve_right fun hended => hrunning (h.ended hended)
    exact .inl ⟨hidle, hasleep, hrest.placed h hasleep hidle⟩
  · exact .inr ⟨hjoined, h.joined hjoined⟩
  · have hrunning : s.running = false := h.stopped.mpr (by simp [hjoining])
    exact absurd (.inr hrunning) (hrest.not_called h hasleep (.inr hjoining))

end Rest

/-! ### How far rest is -/

/-- The steps that the thread takes before it sleeps, where no pass is requested. -/
def WorkerPhase.weight : WorkerPhase → ℕ
  | .asleep | .ended => 0
  | .dozing | .awake => 1
  | .testing => 2
  | .locking | .waking => 3
  | .top => 4
  | .moving _ => 5
  | .reading => 6
  | .wanting => 7
  | .settling => 8

/-- The steps of the thread and those that it makes the rebalancing thread take. -/
def ClientPhase.weight : ClientPhase → ℕ
  | .idle => 0
  | .moving _ => 1
  | .reading => 2
  | .wanting => 3
  | .notifying => 4
  | .requesting => 5
  | .changed => 14

/-- The steps of `stop` and those that its notification makes the rebalancing thread take. -/
def StopperPhase.weight : StopperPhase → ℕ
  | .idle | .joined => 0
  | .joining => 1
  | .notifying => 5
  | .locked => 6
  | .stored => 7

/-- The weight of the rebalancing thread, of a request and of `stop`. -/
def ownWeight (s : Rebalancer ι) : ℕ :=
  s.worker.weight + (if s.requested then 8 else 0) + s.stopper.weight

/-- A bound on the steps that the threads still take. -/
def weight [Fintype ι] (s : Rebalancer ι) : ℕ :=
  s.ownWeight + ∑ i, (s.client i).weight

theorem ownWeight_notify (s : Rebalancer ι) : s.notify.ownWeight ≤ s.ownWeight + 3 := by
  unfold ownWeight Rebalancer.notify
  split
  case isTrue hasleep =>
    simp only [hasleep, WorkerPhase.weight]
    omega
  case isFalse => simp

section Weight

variable [Fintype ι] [DecidableEq ι] {s s' : Rebalancer ι} {b : Bool}

/-- The other threads stay where they are. -/
theorem sum_weight_setClient (s : Rebalancer ι) (i : ι) (p : ClientPhase) :
    ∑ j, ((s.setClient i p).client j).weight + (s.client i).weight =
      ∑ j, (s.client j).weight + p.weight := by
  have hupdate (j : ι) : ((s.setClient i p).client j).weight =
      Function.update (fun j => (s.client j).weight) i p.weight j :=
    Function.apply_update (fun _ => ClientPhase.weight) s.client i p j
  rw [Finset.sum_congr rfl fun j _ => hupdate j, Finset.sum_update_of_mem (Finset.mem_univ i),
    ← Finset.sum_sdiff (Finset.subset_univ {i}), Finset.sum_singleton]
  omega

/-- A step of another thread. -/
theorem weight_lt_of_client {i : ι} {p : ClientPhase} {c d : ℕ}
    (hclient : s'.client = (s.setClient i p).client) (hown : s'.ownWeight ≤ s.ownWeight + c)
    (hp : p.weight + c < (s.client i).weight + d) : s'.weight < s.weight + d := by
  have hsum := sum_weight_setClient s i p
  unfold weight
  rw [hclient]
  omega

/-- Steps of the threads make the weight smaller. -/
theorem weight_lt_of_move (h : Sound s) (hm : Move s b s') :
    s'.weight < s.weight + if b then 15 else 0 := by
  cases hm with
  | loop hw _ | exit hw _ | rouse hw _ | doze hw _ _ | sleep hw | quit hw _ | settle hw
  | enter hw _ | skip hw _ | read hw _ | finish _ hw =>
    simp [weight, ownWeight, hw, WorkerPhase.weight]
  | wakeUp hw =>
    simp only [weight, ownWeight, hw, WorkerPhase.weight, if_true]
    omega
  | lock hw _ => rcases hw with hw | hw <;> simp [weight, ownWeight, hw, WorkerPhase.weight]
  | take hw hrunning =>
    -- what the thread was called for is the request that it takes
    have hrequested : s.requested = true := (h.awake hw).resolve_right (by simp [hrunning])
    simp [weight, ownWeight, hw, hrequested, WorkerPhase.weight]
  | change i _ hi _ | leave i hi | unlock i hi | clientEnter i hi _ | clientSkip i hi _
  | clientRead i hi _ | clientFinish i _ hi =>
    exact weight_lt_of_client (c := 0) rfl le_rfl (by simp [hi, ClientPhase.weight])
  | request i hi _ =>
    refine weight_lt_of_client (c := 8) rfl ?_ (by simp [hi, ClientPhase.weight])
    simp only [ownWeight, setClient, if_true]
    omega
  | notify i hi =>
    exact weight_lt_of_client rfl (ownWeight_notify _) (by simp [hi, ClientPhase.weight])
  | stopLock hs _ | stopUnlock hs | join hs _ =>
    simp [weight, ownWeight, hs, StopperPhase.weight]
  | stop hs =>
    simp only [weight, ownWeight, hs, StopperPhase.weight, if_true]
    omega
  | stopNotify hs =>
    have hown : s.notify.ownWeight ≤ s.ownWeight + 3 := ownWeight_notify s
    have hstopper : s.notify.stopper = .notifying := hs
    simp only [ownWeight, hs, hstopper, StopperPhase.weight] at hown
    simp only [weight, ownWeight, hs, StopperPhase.weight]
    simp only [Rebalancer.notify] at hown ⊢
    omega

end Weight

/-! ## The pass of `leave` -/

/-- A thread that is there runs a pass that will set `placed_for_` to the table `r` or a later
one. -/
def ClientPhase.Places (r : ℕ) : ClientPhase → Prop
  | .wanting | .reading => True
  | .moving t => r ≤ t
  | .idle | .changed | .requesting | .notifying => False

/-- The thread `i` has left with the table `r`: its pass still runs, or `placed_for_` is that table
or a later one. -/
def Leaves (r : ℕ) (i : ι) (s : Rebalancer ι) : Prop :=
  r ≤ s.routing ∧ (s.client i).Places r ∨ r ≤ s.placed

section Leave

variable [DecidableEq ι] {s s' : Rebalancer ι} {b : Bool} {r : ℕ} {i : ι}

theorem placed_le_of_move (h : Sound s) (hm : Move s b s') : s.placed ≤ s'.placed := by
  cases hm with
  | finish t hw => exact (h.moving .worker t hw).1
  | clientFinish j t hj => exact (h.moving (.client j) t hj).1
  | _ => exact le_rfl

theorem routing_le_of_move (hm : Move s b s') : s.routing ≤ s'.routing := by
  cases hm with
  | change _ _ _ hrouting => exact hrouting
  | leave _ _ => exact Nat.le_succ _
  | _ => exact le_rfl

theorem places_setClient_of_ne {j : ι} {p : ClientPhase} (hij : i ≠ j)
    (hi : (s.client i).Places r) : ((s.setClient j p).client i).Places r := by
  simpa [setClient, Function.update_of_ne hij] using hi

/-- A step takes a thread through its pass, or leaves it where it is. -/
theorem places_of_move (hm : Move s b s') (hr : r ≤ s.routing) (hi : (s.client i).Places r) :
    (s'.client i).Places r ∨ r ≤ s'.placed := by
  cases hm with
  | change j _ hj _ | leave j hj | request j hj _ | unlock j hj | notify j hj =>
    have hij : i ≠ j := by
      rintro rfl
      simp [hj, ClientPhase.Places] at hi
    exact .inl (places_setClient_of_ne hij hi)
  | clientEnter j hj _ =>
    rcases eq_or_ne i j with rfl | hij
    · exact .inl (by simp [ClientPhase.Places])
    · exact .inl (places_setClient_of_ne hij hi)
  | clientSkip j hj hplaced =>
    rcases eq_or_ne i j with rfl | hij
    · exact .inr (hr.trans hplaced.ge)
    · exact .inl (places_setClient_of_ne hij hi)
  | clientRead j hj _ =>
    rcases eq_or_ne i j with rfl | hij
    · exact .inl (by simpa [ClientPhase.Places] using hr)
    · exact .inl (places_setClient_of_ne hij hi)
  | clientFinish j t hj =>
    rcases eq_or_ne i j with rfl | hij
    · exact .inr (by simpa [hj, ClientPhase.Places] using hi)
    · exact .inl (places_setClient_of_ne hij hi)
  | _ => exact .inl hi

theorem Leaves.of_move (hleaves : Leaves r i s) (h : Sound s) (hm : Move s b s') :
    Leaves r i s' := by
  obtain ⟨hr, hi⟩ | hplaced := hleaves
  · exact (places_of_move hm hr hi).imp_left fun hi => ⟨hr.trans (routing_le_of_move hm), hi⟩
  · exact .inr (hplaced.trans (placed_le_of_move h hm))

/-- `placed_for_` changes only when a pass for the new table ends. -/
theorem moves_of_placed_ne (hm : Move s b s') (hne : s.placed ≠ s'.placed) :
    ∃ u, (s.phase u).MovesTo s'.placed := by
  cases hm with
  | finish t hw => exact ⟨.worker, hw⟩
  | clientFinish j t hj => exact ⟨.client j, hj⟩
  | _ => exact absurd rfl hne

/-- A thread that leaves publishes a table and is about to run a pass. -/
theorem leave_cases (hs : s.step (.leave i) = some s') :
    s'.routing = s.routing + 1 ∧ s'.placed = s.placed ∧ s'.client i = .wanting ∧
      ∀ u, u ≠ .client i → s'.phase u = s.phase u := by
  simp only [step] at hs
  split at hs
  case h_1 =>
    obtain rfl := Option.some.inj hs
    exact ⟨rfl, rfl, setClient_self i _, phase_of_client rfl rfl rfl⟩
  case h_2 => cases hs

end Leave

/-! ## Main results -/

/-- **No wakeup is lost.** Whatever the order in which the threads take their steps: they take
boundedly many for each change, `leave`, `stop` and wakeup without a reason, and when none can go on
either the rebalancing thread sleeps and `placed_for_` is the last table, or `stop` was called, has
returned, and the thread has ended. -/
theorem comes_to_rest [Fintype ι] [DecidableEq ι] {s : Rebalancer ι} {ls : List (Label ι)}
    (hr : run step {} ls = some s) :
    ls.length ≤ 4 + 15 * ls.countP Label.external ∧
      ((∃ l s', l.external = false ∧ s.step l = some s') ∨
        s.stopper = .idle ∧ s.worker = .asleep ∧ s.placed = s.routing ∨
        s.stopper = .joined ∧ s.worker = .ended) := by
  constructor
  · have hlength := length_add_le_of_run (I := Sound) (μ := weight) (p := Label.external) (c := 15)
      (fun _ _ _ h hs => ⟨h.of_step hs, weight_lt_of_move h (move_of_step hs)⟩) sound_start hr
    have hstart : weight ({} : Rebalancer ι) = 4 := by
      simp [weight, ownWeight, WorkerPhase.weight, StopperPhase.weight, ClientPhase.weight]
    omega
  · by_cases hrest : s.Resting
    · exact .inr (hrest.cases (sound_start.of_run hr))
    · obtain ⟨l, hl⟩ := not_forall.mp hrest
      obtain ⟨hinternal, hs⟩ := Classical.not_imp.mp hl
      obtain ⟨s', hs⟩ := Option.ne_none_iff_exists'.mp hs
      exact .inl ⟨l, s', hinternal, hs⟩

/-- A thread changes the membership when the rebalancing thread is about to sleep, and `stop` is
called when that is about to run the pass. -/
def stopDuringChange : List (Label Unit) :=
  [.worker, .worker, .worker, .change () true, .worker, .client (), .client (), .client (),
    .worker, .worker, .worker, .stop, .stopper, .stopper, .stopper, .worker, .worker, .worker,
    .worker, .worker, .stopper]

theorem comes_to_rest_stopDuringChange :
    ∃ s, run step ({} : Rebalancer Unit) stopDuringChange = some s ∧ s.placed = 1 ∧
      s.stopper = .joined ∧ s.worker = .ended ∧
      stopDuringChange.length ≤ 4 + 15 * stopDuringChange.countP Label.external :=
  ⟨_, rfl, rfl, rfl, rfl, (comes_to_rest rfl).1⟩

/-- The step ends a pass for the table `r` or a later one, and sets `placed_for_` to that table. -/
def EndsPass [DecidableEq ι] (r : ℕ) (s : Rebalancer ι) (l : Label ι) : Prop :=
  s.placed < r ∧ ∃ s' u, s.step l = some s' ∧ (s.phase u).MovesTo s'.placed ∧ r ≤ s'.placed

/-- **`leave` ends a pass.** When `leave` publishes its table, no pass that is under way is for that
table; and before it returns, a pass for that table or a later one has begun and ended, whatever the
other threads did meanwhile. -/
theorem leave_ends_pass [DecidableEq ι] {s s₁ s₂ : Rebalancer ι} {i : ι}
    {before after : List (Label ι)} (hbefore : run step {} before = some s)
    (hleave : s.step (.leave i) = some s₁) (hafter : run step s₁ after = some s₂)
    (hback : s₂.client i = .idle) :
    (∀ u t, (s₁.phase u).MovesTo t → t < s₁.routing) ∧
      Sometime step (EndsPass s₁.routing) s₁ after ∧ s₁.routing ≤ s₂.placed := by
  have hsound : Sound s := sound_start.of_run hbefore
  obtain ⟨hrouting, hkept, hwanting, hothers⟩ := leave_cases hleave
  have hstart : Leaves s₁.routing i s₁ := .inl ⟨le_rfl, by simp [hwanting, ClientPhase.Places]⟩
  have hleaves : Sound s₂ ∧ Leaves s₁.routing i s₂ :=
    run_invariant (I := fun t => Sound t ∧ Leaves s₁.routing i t)
      (fun _ _ _ h _ hs => ⟨h.1.of_step hs, h.2.of_move h.1 (move_of_step hs)⟩)
      ⟨hsound.of_step hleave, hstart⟩ (along_true s₁ after) hafter
  have hplaced : s₁.routing ≤ s₂.placed :=
    hleaves.2.resolve_left fun h => by simpa [hback, ClientPhase.Places] using h.2
  refine ⟨fun u t ht => ?_, ?_, hplaced⟩
  · -- the thread that leaves moves nothing yet, and the others have read an older table
    rcases eq_or_ne u (.client i) with rfl | hu
    · simp [phase, Phase.MovesTo, hwanting] at ht
    · rw [hothers u hu] at ht
      exact hrouting ▸ Nat.lt_succ_of_le (hsound.moving u t ht).2
  · have hbelow : ¬s₁.routing ≤ s₁.placed := by
      rw [hrouting, hkept, not_le]
      exact Nat.lt_succ_of_le hsound.placed
    obtain ⟨during, l, rest, t, hls, hrun, hlt, t', hs, hle⟩ :=
      sometime_of_run (Q := fun t => s₁.routing ≤ t.placed) hafter hbelow hplaced
    rw [not_le] at hlt
    obtain ⟨u, hu⟩ := moves_of_placed_ne (move_of_step hs) (hlt.trans_le hle).ne
    exact ⟨during, l, rest, t, hls, hrun, hlt, t', u, hs, hu, hle⟩

/-- The rebalancing thread has read the first table and moves the entries. -/
def passUnderWay : List (Label Bool) :=
  [.change false true, .client false, .client false, .client false, .worker, .worker, .worker,
    .worker, .worker, .worker, .worker]

/-- A thread that leaves now waits for the end of that pass and runs its own. -/
def leaveAfterPass : List (Label Bool) :=
  [.worker, .client true, .client true, .client true]

theorem leave_ends_pass_passUnderWay :
    ∃ s s₁ s₂, run step ({} : Rebalancer Bool) passUnderWay = some s ∧ s.worker = .moving 1 ∧
      s.step (.leave true) = some s₁ ∧ run step s₁ leaveAfterPass = some s₂ ∧
      s₂.client true = .idle ∧ s₁.routing = 2 ∧ Sometime step (EndsPass 2) s₁ leaveAfterPass := by
  obtain ⟨s, hbefore, hworker, s₁, hleave, hrouting, s₂, hafter, hback⟩ :
      ∃ s, run step ({} : Rebalancer Bool) passUnderWay = some s ∧ s.worker = .moving 1 ∧
        ∃ s₁, s.step (.leave true) = some s₁ ∧ s₁.routing = 2 ∧
          ∃ s₂, run step s₁ leaveAfterPass = some s₂ ∧ s₂.client true = .idle :=
    ⟨_, rfl, rfl, _, rfl, rfl, _, rfl, rfl⟩
  have hends := (leave_ends_pass hbefore hleave hafter hback).2.1
  exact ⟨s, s₁, s₂, hbefore, hworker, hleave, hafter, hback, hrouting, hrouting ▸ hends⟩

end Rebalancer

end ShardCache
