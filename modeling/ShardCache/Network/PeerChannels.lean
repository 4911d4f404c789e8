import ShardCache.Network.PeerChannel

/-!
# The channels of a node, and how long a call can take

A node has several channels to each of its peers and spreads its calls over them. A call is posted
to the strand of its channel, which runs one handler at a time; the channel arms a timer that runs
every quarter of the timeout as long as calls are pending, and fails all of them when the oldest is
due.

How long a call can take depends on how late handlers run. If none runs later than `delay`, a call
has ended, with a reply or an error, by the timeout, a quarter of it and twice the delay after it
was made. `replicate` and `collect` wait for twice the timeout: what ends the wait is that enough
targets have confirmed or that all of them have answered or failed.

## Main definitions

* `Strand`: a channel, when its timer is due, and the handlers that were posted to it
* `PeerChannels`, `PeerChannels.step`: the channels of a node, and one step
* `PeerChannels.Punctual`: no handler is later than the delay
* `FanoutTarget`: what `replicate` and `collect` wait for

## Main results

* `PeerChannel.pending_of_step`: what an event does to the pending calls
* `Strand.Timely`: the timer is due soon enough for all pending calls
* `PeerChannels.ended_of_run`: calls end in time
* `PeerChannels.fanout_settles`: all targets are settled before the wait is over
-/

namespace ShardCache

open Foundations Resp

/-! ## The pending calls of a channel -/

namespace PeerChannel

variable {peer : Peer} {timeout : Time} {c c' : PeerChannel}

theorem matchReplies_suffix (pending : List Pending) (rx : Bytes) :
    (matchReplies pending rx).2.1 <:+ pending := by
  induction pending generalizing rx with
  | nil => exact List.suffix_rfl
  | cons p pending ih =>
    rw [matchReplies]
    cases parseReply.parse rx with
    | incomplete => exact List.suffix_rfl
    | error e => exact List.suffix_rfl
    | ok v rest => exact (ih rest).trans (List.suffix_cons p pending)

/-- The pending calls are as before or the first of them have ended, and neither the timer nor the
calls that were made have changed. -/
structure Shrinks (c c' : PeerChannel) : Prop where
  pending : c'.pending <:+ c.pending
  timerArmed : c'.timerArmed = c.timerArmed
  calls : c'.calls = c.calls

namespace Shrinks

theorem refl (c : PeerChannel) : Shrinks c c := ⟨List.suffix_rfl, rfl, rfl⟩

theorem failAll (h : Shrinks c c') (status : RequestStatus) (message : Bytes) :
    Shrinks c (c'.failAll status message) := ⟨List.nil_suffix, h.timerArmed, h.calls⟩

theorem flush (h : Shrinks c c') : Shrinks c c'.flush := by
  unfold PeerChannel.flush
  split
  · exact h
  · exact ⟨h.pending, h.timerArmed, h.calls⟩

theorem handle (h : Shrinks c c') (failure : Option Bytes) {next : PeerChannel → PeerChannel}
    (hnext : Shrinks c (next c')) : Shrinks c (c'.handle failure next) := by
  cases failure with
  | some message => exact h.failAll _ _
  | none => exact hnext

theorem completion {c'' : PeerChannel} (h : Shrinks c c') (hnext : Shrinks c c'') (gen : ℕ) :
    Shrinks c (if gen ≠ c'.generation then c' else c'') := by
  split
  · exact h
  · exact hnext

theorem onRead (h : Shrinks c c') (chunk : Bytes) : Shrinks c (c'.onRead chunk) := by
  have hleft := matchReplies_suffix c'.pending (c'.rx ++ chunk)
  unfold PeerChannel.onRead
  dsimp only
  split
  · exact ⟨List.nil_suffix, h.timerArmed, h.calls⟩
  · exact ⟨hleft.trans h.pending, h.timerArmed, h.calls⟩

end Shrinks

/-- **What an event does to the pending calls**, if it is neither a call nor the timer. -/
theorem pending_of_step {event : ChannelEvent} (hstep : c.step peer timeout event = some c')
    (hcall : ∀ args now, event ≠ .call args now) (htimer : ∀ now, event ≠ .timer now) :
    Shrinks c c' := by
  cases event with
  | call args now => exact absurd rfl (hcall args now)
  | timer now => exact absurd rfl (htimer now)
  | close =>
    obtain rfl := Option.some.inj hstep
    exact (Shrinks.refl c).failAll _ _
  | resolved gen failure =>
    obtain ⟨-, hstep⟩ := Option.ite_none_right_eq_some.mp hstep
    obtain rfl := Option.some.inj hstep
    have herase : Shrinks c { c with resolves := c.resolves.erase gen } :=
      ⟨List.suffix_rfl, rfl, rfl⟩
    exact herase.completion (herase.handle failure ⟨List.suffix_rfl, rfl, rfl⟩) gen
  | connected gen failure =>
    obtain ⟨-, hstep⟩ := Option.ite_none_right_eq_some.mp hstep
    obtain rfl := Option.some.inj hstep
    have herase : Shrinks c { c with connects := c.connects.erase gen } :=
      ⟨List.suffix_rfl, rfl, rfl⟩
    refine herase.completion (herase.handle failure ?_) gen
    exact Shrinks.flush ⟨List.suffix_rfl, rfl, rfl⟩
  | wrote gen failure =>
    obtain ⟨-, hstep⟩ := Option.ite_none_right_eq_some.mp hstep
    obtain rfl := Option.some.inj hstep
    have herase : Shrinks c { c with writes := c.writes.erase gen } := ⟨List.suffix_rfl, rfl, rfl⟩
    have hwrote : Shrinks c
        { c with writes := c.writes.erase gen, writing := false, inWrite := [] } :=
      ⟨List.suffix_rfl, rfl, rfl⟩
    refine herase.completion ?_ gen
    exact hwrote.handle failure hwrote.flush
  | received gen chunk =>
    obtain ⟨-, hstep⟩ := Option.ite_none_right_eq_some.mp hstep
    obtain rfl := Option.some.inj hstep
    have herase : Shrinks c { c with reads := c.reads.erase gen } := ⟨List.suffix_rfl, rfl, rfl⟩
    exact herase.completion (herase.onRead chunk) gen
  | readFailed gen message =>
    obtain ⟨-, hstep⟩ := Option.ite_none_right_eq_some.mp hstep
    obtain rfl := Option.some.inj hstep
    have herase : Shrinks c { c with reads := c.reads.erase gen } := ⟨List.suffix_rfl, rfl, rfl⟩
    exact herase.completion (herase.failAll _ _) gen

/-- A call is pending behind the others, and the timer is armed. -/
theorem pending_enqueue (timeout : Time) (c : PeerChannel) (args : List Bytes) (now : Time) :
    (c.enqueue timeout args now).pending = c.pending ++ [⟨c.calls.length, now + timeout⟩] ∧
      (c.enqueue timeout args now).timerArmed = true ∧
      (c.enqueue timeout args now).calls = c.calls ++ [args] := by
  have hflush (d : PeerChannel) : d.flush.pending = d.pending ∧
      d.flush.timerArmed = d.timerArmed ∧ d.flush.calls = d.calls := by
    unfold flush
    split <;> exact ⟨rfl, rfl, rfl⟩
  unfold enqueue
  cases c.timerArmed <;> cases c.state <;> simp [connect, hflush]

/-- The timer ends all calls if the oldest is due, and is armed again otherwise, if there is one. -/
theorem pending_onTimer (c : PeerChannel) (now : Time) :
    (c.onTimer now).calls = c.calls ∧
      ((c.onTimer now).pending = [] ∧ (c.onTimer now).timerArmed = false ∨
        (∀ p ∈ c.pending.head?, now < p.deadline) ∧ (c.onTimer now).pending = c.pending ∧
          (c.onTimer now).timerArmed = true) := by
  unfold onTimer
  cases hpending : c.pending with
  | nil => simp
  | cons p ps =>
    by_cases hdue : p.deadline ≤ now
    · simp [hdue, failAll, resetConnection]
    · simp [hdue, Nat.lt_of_not_le hdue]

end PeerChannel

/-! ## Strands -/

/-- A handler that was posted to a strand: that of `call`, or that of `close`. -/
inductive Posted where
  | call (args : List Bytes)
  | close
deriving DecidableEq, Repr

/-- The handler is that of a call. -/
def Posted.isCall : Posted → Bool
  | .call _ => true
  | .close => false

@[simp] theorem Posted.isCall_call (args : List Bytes) : (Posted.call args).isCall = true := rfl

@[simp] theorem Posted.isCall_close : Posted.close.isCall = false := rfl

/-- A channel, when the wait of its timer is over, and the handlers that were posted and have not
run, each with the time at which it was posted. -/
structure Strand where
  channel : PeerChannel := {}
  due : Option Time := none
  posted : List (Time × Posted) := []

/-- The timer of a channel waits for a quarter of the timeout, in milliseconds. -/
def timerPeriod (timeout : Millis) : Time := Millis.ticks (timeout / 4)

namespace Strand

/-- A handler is posted. -/
def post (s : Strand) (now : Time) (p : Posted) : Strand :=
  { s with posted := s.posted ++ [(now, p)] }

/-- The oldest handler that was posted runs. -/
def runPosted (timeout : Millis) (now : Time) (s : Strand) : Option Strand :=
  match s.posted with
  | [] => none
  | (_, .call args) :: rest =>
    some {
      channel := s.channel.enqueue timeout.ticks args now
      due := if s.channel.timerArmed then s.due else some (now + timerPeriod timeout)
      posted := rest }
  | (_, .close) :: rest =>
    some { s with
      channel := s.channel.failAll .connectionError (ascii "Channel closed")
      posted := rest }

/-- A completion, or the timer, which does not run before it is due. -/
def handle (peer : Peer) (timeout : Millis) (now : Time) (s : Strand) :
    ChannelEvent → Option Strand
  | .call .. | .close => none
  | .timer t =>
    if t = now ∧ ∀ d ∈ s.due, d ≤ now then
      (s.channel.step peer timeout.ticks (.timer now)).map fun c =>
        { s with
          channel := c
          due := if c.timerArmed then some (now + timerPeriod timeout) else none }
    else none
  | event => (s.channel.step peer timeout.ticks event).map fun c => { s with channel := c }

/-- The calls that were made so far, whether or not their handlers have run. -/
def made (s : Strand) : ℕ := s.channel.calls.length + s.posted.countP fun x => x.2.isCall

/-- No handler of the strand is later than `delay` at the time `t`. -/
def OnTime (delay : Time) (s : Strand) (t : Time) : Prop :=
  (∀ d ∈ s.due, t ≤ d + delay) ∧ ∀ x ∈ s.posted, t ≤ x.1 + delay

instance (delay : Time) (s : Strand) (t : Time) : Decidable (OnTime delay s t) :=
  inferInstanceAs (Decidable (_ ∧ _))

/-! ## The timer is due soon enough -/

/-- While calls are pending the timer is armed, and due at most a quarter of the timeout after the
oldest of them. -/
structure Timely (peer : Peer) (timeout : Millis) (now : Time) (s : Strand) : Prop where
  inv : s.channel.Inv peer
  armed : s.channel.timerArmed = s.due.isSome
  watched : s.channel.pending ≠ [] → s.channel.timerArmed = true
  soon : ∀ d ∈ s.due, d ≤ now + timerPeriod timeout
  oldest : ∀ d ∈ s.due, ∀ p ∈ s.channel.pending, d ≤ p.deadline + timerPeriod timeout
  sorted : s.channel.pending.Pairwise fun p q => p.deadline ≤ q.deadline
  recent : ∀ p ∈ s.channel.pending, p.deadline ≤ now + timeout.ticks
  posted : ∀ x ∈ s.posted, x.1 ≤ now

variable {peer : Peer} {timeout : Millis} {delay now : Time} {s s' : Strand}

theorem timely_empty (peer : Peer) (timeout : Millis) (now : Time) :
    Timely peer timeout now {} where
  inv := PeerChannel.inv_empty
  armed := rfl
  watched h := absurd rfl h
  soon d hd := by simp at hd
  oldest d hd := by simp at hd
  sorted := List.Pairwise.nil
  recent p hp := by simp at hp
  posted x hx := by simp at hx

namespace Timely

theorem tick (h : Timely peer timeout now s) (elapsed : Time) :
    Timely peer timeout (now + elapsed) s where
  inv := h.inv
  armed := h.armed
  watched := h.watched
  soon d hd := (h.soon d hd).trans (Nat.add_le_add_right (Nat.le_add_right _ _) _)
  oldest := h.oldest
  sorted := h.sorted
  recent p hp := (h.recent p hp).trans (Nat.add_le_add_right (Nat.le_add_right _ _) _)
  posted x hx := (h.posted x hx).trans (Nat.le_add_right _ _)

theorem post (h : Timely peer timeout now s) (p : Posted) :
    Timely peer timeout now (s.post now p) where
  inv := h.inv
  armed := h.armed
  watched := h.watched
  soon := h.soon
  oldest := h.oldest
  sorted := h.sorted
  recent := h.recent
  posted x hx := by
    rcases List.mem_append.mp hx with hx | hx
    · exact h.posted x hx
    · rw [List.mem_singleton.mp hx]

/-- An event that ends some of the oldest calls, or none. -/
theorem shrink {c : PeerChannel} {posted : List (Time × Posted)} (h : Timely peer timeout now s)
    (hinv : c.Inv peer) (hshrinks : PeerChannel.Shrinks s.channel c)
    (hposted : ∀ x ∈ posted, x ∈ s.posted) :
    Timely peer timeout now { s with channel := c, posted := posted } where
  inv := hinv
  armed := hshrinks.timerArmed.trans h.armed
  watched hne := by
    refine hshrinks.timerArmed.trans (h.watched ?_)
    intro hnil
    exact hne (List.suffix_nil.mp (hnil ▸ hshrinks.pending))
  soon := h.soon
  oldest d hd p hp := h.oldest d hd p (hshrinks.pending.subset hp)
  sorted := h.sorted.sublist hshrinks.pending.sublist
  recent p hp := h.recent p (hshrinks.pending.subset hp)
  posted x hx := h.posted x (hposted x hx)

/-- A call is due after those before it, and the timer is due before that. -/
theorem enqueue (h : Timely peer timeout now s) (args : List Bytes)
    {posted : List (Time × Posted)} (hposted : ∀ x ∈ posted, x ∈ s.posted) :
    Timely peer timeout now {
      channel := s.channel.enqueue timeout.ticks args now
      due := if s.channel.timerArmed then s.due else some (now + timerPeriod timeout)
      posted := posted } := by
  obtain ⟨hpending, harmed, -⟩ := PeerChannel.pending_enqueue timeout.ticks s.channel args now
  have hdue : ∀ d ∈ (if s.channel.timerArmed then s.due else some (now + timerPeriod timeout)),
      d ≤ now + timerPeriod timeout := by
    intro d hd
    split at hd
    · exact h.soon d hd
    · exact (Option.some.inj hd).symm.le
  exact {
    inv := h.inv.enqueue args now
    armed := by
      rw [harmed]
      split
      · rename_i hon
        rw [← h.armed, hon]
      · rfl
    watched := fun _ => harmed
    soon := hdue
    oldest := by
      intro d hd p hp
      rw [hpending] at hp
      rcases List.mem_append.mp hp with hp | hp
      · -- the timer was armed if a call was pending
        have hon := h.watched (List.ne_nil_of_mem hp)
        rw [if_pos hon] at hd
        exact h.oldest d hd p hp
      · rw [List.mem_singleton.mp hp]
        exact (hdue d hd).trans (Nat.add_le_add_right (Nat.le_add_right _ _) _)
    sorted := by
      rw [hpending]
      refine List.pairwise_append.mpr ⟨h.sorted, List.pairwise_singleton _ _, ?_⟩
      intro p hp q hq
      rw [List.mem_singleton.mp hq]
      exact h.recent p hp
    recent := by
      intro p hp
      rw [hpending] at hp
      rcases List.mem_append.mp hp with hp | hp
      · exact h.recent p hp
      · rw [List.mem_singleton.mp hp]
    posted := fun x hx => h.posted x (hposted x hx) }

/-- The timer is armed again if no call is due: then the oldest is due later than now. -/
theorem onTimer (h : Timely peer timeout now s) {c : PeerChannel}
    (hstep : s.channel.step peer timeout.ticks (.timer now) = some c) :
    Timely peer timeout now { s with
      channel := c
      due := if c.timerArmed then some (now + timerPeriod timeout) else none } := by
  have hinv := h.inv.step hstep
  obtain ⟨-, hstep⟩ := Option.ite_none_right_eq_some.mp hstep
  obtain rfl := Option.some.inj hstep
  obtain ⟨-, ⟨hpending, hoff⟩ | ⟨hhead, hpending, hon⟩⟩ :=
    PeerChannel.pending_onTimer { s.channel with waits := s.channel.waits - 1 } now
  · exact {
      inv := hinv
      armed := by simp [hoff]
      watched := fun hne => absurd hpending hne
      soon := by simp [hoff]
      oldest := by simp [hoff]
      sorted := by simp [hpending]
      recent := by simp [hpending]
      posted := h.posted }
  · have hlate : ∀ p ∈ s.channel.pending, now ≤ p.deadline := by
      intro p hp
      have hsorted := h.sorted
      cases hlist : s.channel.pending with
      | nil => simp [hlist] at hp
      | cons q qs =>
        have hq : now < q.deadline := hhead q (by simp [hlist])
        rw [hlist] at hp hsorted
        rcases List.mem_cons.mp hp with rfl | hp
        · exact hq.le
        · exact hq.le.trans ((List.pairwise_cons.mp hsorted).1 p hp)
    exact {
      inv := hinv
      armed := by simp [hon]
      watched := fun _ => hon
      soon := by simp [hon]
      oldest := by
        intro d hd p hp
        rw [hpending] at hp
        simp only [hon, if_true, Option.mem_def, Option.some.injEq] at hd
        exact hd ▸ Nat.add_le_add_right (hlate p hp) _
      sorted := by
        rw [hpending]
        exact h.sorted
      recent := by
        rw [hpending]
        exact h.recent
      posted := h.posted }

theorem of_runPosted (h : Timely peer timeout now s) (hs : s.runPosted timeout now = some s') :
    Timely peer timeout now s' := by
  unfold runPosted at hs
  split at hs
  · exact absurd hs (by simp)
  · rename_i args rest hposted
    obtain rfl := Option.some.inj hs
    exact h.enqueue args fun x hx => hposted ▸ List.mem_cons_of_mem _ hx
  · rename_i rest hposted
    obtain rfl := Option.some.inj hs
    exact h.shrink (h.inv.failAll _ _) ((PeerChannel.Shrinks.refl _).failAll _ _)
      fun x hx => hposted ▸ List.mem_cons_of_mem _ hx

theorem of_handle (h : Timely peer timeout now s) {event : ChannelEvent}
    (hs : s.handle peer timeout now event = some s') : Timely peer timeout now s' := by
  have hother (hcall : ∀ args now, event ≠ .call args now) (htimer : ∀ now, event ≠ .timer now)
      (hs : (s.channel.step peer timeout.ticks event).map
        (fun c => { s with channel := c }) = some s') : Timely peer timeout now s' := by
    obtain ⟨c, hstep, rfl⟩ := Option.map_eq_some_iff.mp hs
    exact h.shrink (h.inv.step hstep) (PeerChannel.pending_of_step hstep hcall htimer)
      fun x hx => hx
  cases event with
  | call args t => exact absurd hs (by simp [handle])
  | close => exact absurd hs (by simp [handle])
  | timer t =>
    simp only [handle] at hs
    split at hs
    · obtain ⟨c, hstep, rfl⟩ := Option.map_eq_some_iff.mp hs
      exact h.onTimer hstep
    · exact absurd hs (by simp)
  | _ => exact hother (by simp) (by simp) hs

end Timely

namespace OnTime

theorem post (h : s.OnTime delay now) (p : Posted) : (s.post now p).OnTime delay now := by
  refine ⟨h.1, ?_⟩
  intro x hx
  rcases List.mem_append.mp hx with hx | hx
  · exact h.2 x hx
  · rw [List.mem_singleton.mp hx]
    exact Nat.le_add_right _ _

/-- A timer that is armed now is due later. -/
theorem rearm (h : s.OnTime delay now) {due : Option Time} {c : PeerChannel}
    {posted : List (Time × Posted)}
    (hdue : ∀ d ∈ due, d ∈ s.due ∨ now ≤ d) (hposted : ∀ x ∈ posted, x ∈ s.posted) :
    OnTime delay { channel := c, due := due, posted := posted } now := by
  refine ⟨?_, fun x hx => h.2 x (hposted x hx)⟩
  intro d hd
  rcases hdue d hd with hd | hd
  · exact h.1 d hd
  · exact hd.trans (Nat.le_add_right _ _)

theorem of_runPosted (h : s.OnTime delay now) (hs : s.runPosted timeout now = some s') :
    s'.OnTime delay now := by
  unfold runPosted at hs
  split at hs
  · exact absurd hs (by simp)
  · rename_i args rest hposted
    obtain rfl := Option.some.inj hs
    refine h.rearm ?_ fun x hx => hposted ▸ List.mem_cons_of_mem _ hx
    intro d hd
    split at hd
    · exact .inl hd
    · exact .inr (Option.some.inj hd ▸ Nat.le_add_right _ _)
  · rename_i rest hposted
    obtain rfl := Option.some.inj hs
    exact ⟨h.1, fun x hx => h.2 x (hposted ▸ List.mem_cons_of_mem _ hx)⟩

theorem of_handle (h : s.OnTime delay now) {event : ChannelEvent}
    (hs : s.handle peer timeout now event = some s') : s'.OnTime delay now := by
  cases event with
  | call args t => exact absurd hs (by simp [handle])
  | close => exact absurd hs (by simp [handle])
  | timer t =>
    simp only [handle] at hs
    split at hs
    · obtain ⟨c, -, rfl⟩ := Option.map_eq_some_iff.mp hs
      refine h.rearm ?_ fun x hx => hx
      intro d hd
      split at hd
      · exact .inr (Option.some.inj hd ▸ Nat.le_add_right _ _)
      · exact absurd hd (by simp)
    · exact absurd hs (by simp)
  | _ =>
    obtain ⟨c, -, rfl⟩ := Option.map_eq_some_iff.mp hs
    exact h

end OnTime

/-! ## Where a call is -/

/-- A call that was made by the time `made` is on its way: if its handler has run, it is to end by
the timeout after that, and otherwise it was posted by that time. -/
structure Tracks (timeout : Millis) (delay made : Time) (n : ℕ) (s : Strand) : Prop where
  known : n < s.made
  posted : ∀ (j : ℕ) (x : Time × Posted), (s.posted.filter fun x => x.2.isCall)[j]? = some x →
    s.channel.calls.length + j ≤ n → x.1 ≤ made
  pending : ∀ p ∈ s.channel.pending, p.call = n → p.deadline ≤ made + delay + timeout.ticks

variable {made : Time} {n : ℕ}

/-- All calls that were made are tracked. -/
theorem Timely.tracks (h : Timely peer timeout now s) (hn : n < s.made) :
    Tracks timeout delay now n s where
  known := hn
  posted _ x hx _ := h.posted x (List.mem_of_mem_filter (List.mem_of_getElem? hx))
  pending p hp _ := (h.recent p hp).trans (Nat.add_le_add_right (Nat.le_add_right _ _) _)

namespace Tracks

theorem post (h : Tracks timeout delay made n s) (t : Time) (p : Posted) :
    Tracks timeout delay made n (s.post t p) where
  known := by
    refine h.known.trans_le ?_
    simp [Strand.made, Strand.post, List.countP_append]
  posted j x hx hle := by
    rw [Strand.post, List.filter_append, List.getElem?_append] at hx
    split at hx
    · exact h.posted j x hx hle
    · -- a call that is posted now comes after this one
      rename_i hj
      have hknown := h.known
      rw [Strand.made, List.countP_eq_length_filter] at hknown
      simp only [Strand.post] at hle
      omega
  pending := h.pending

theorem of_shrinks {c : PeerChannel} {due : Option Time} (h : Tracks timeout delay made n s)
    (hpending : c.pending <:+ s.channel.pending) (hcalls : c.calls = s.channel.calls) :
    Tracks timeout delay made n { s with channel := c, due := due } where
  known := by
    simp only [Strand.made, hcalls]
    exact h.known
  posted := by
    simp only [hcalls]
    exact h.posted
  pending p hp := h.pending p (hpending.subset hp)

/-- A call whose handler runs was posted in time. -/
theorem of_runPosted (h : Tracks timeout delay made n s) (hontime : s.OnTime delay now)
    (hs : s.runPosted timeout now = some s') : Tracks timeout delay made n s' := by
  unfold runPosted at hs
  split at hs
  · exact absurd hs (by simp)
  · rename_i t args rest hposted
    obtain rfl := Option.some.inj hs
    obtain ⟨hpending, -, hcalls⟩ := PeerChannel.pending_enqueue timeout.ticks s.channel args now
    have hknown := h.known
    have hfilter := h.posted
    simp only [Strand.made, hposted, List.countP_cons, Posted.isCall_call, if_true] at hknown
    simp only [hposted, List.filter_cons, Posted.isCall_call, if_true] at hfilter
    exact {
      known := by
        simp only [Strand.made, hcalls, List.length_append, List.length_singleton]
        omega
      posted := by
        intro j x hx hle
        refine hfilter (j + 1) x ?_ ?_
        · simpa using hx
        · simp only [hcalls, List.length_append, List.length_singleton] at hle
          omega
      pending := by
        intro p hp hcall
        rw [hpending] at hp
        rcases List.mem_append.mp hp with hp | hp
        · exact h.pending p hp hcall
        · -- it is the call whose handler runs
          obtain rfl := List.mem_singleton.mp hp
          have hmade : t ≤ made := hfilter 0 (t, .call args) rfl (by simpa using hcall.le)
          have hnow : now ≤ t + delay := hontime.2 (t, .call args) (by simp [hposted])
          exact Nat.add_le_add_right (hnow.trans (Nat.add_le_add_right hmade delay)) _ }
  · rename_i t rest hposted
    obtain rfl := Option.some.inj hs
    have hknown := h.known
    have hfilter := h.posted
    simp only [Strand.made, hposted, List.countP_cons, Posted.isCall_close] at hknown
    simp only [hposted, List.filter_cons, Posted.isCall_close] at hfilter
    exact ⟨hknown, hfilter, by simp [PeerChannel.failAll]⟩

theorem of_handle (h : Tracks timeout delay made n s) {event : ChannelEvent}
    (hs : s.handle peer timeout now event = some s') : Tracks timeout delay made n s' := by
  have hother (hcall : ∀ args now, event ≠ .call args now) (htimer : ∀ now, event ≠ .timer now)
      (hs : (s.channel.step peer timeout.ticks event).map
        (fun c => { s with channel := c }) = some s') : Tracks timeout delay made n s' := by
    obtain ⟨c, hstep, rfl⟩ := Option.map_eq_some_iff.mp hs
    have hshrinks := PeerChannel.pending_of_step hstep hcall htimer
    exact h.of_shrinks hshrinks.pending hshrinks.calls
  cases event with
  | call args t => exact absurd hs (by simp [handle])
  | close => exact absurd hs (by simp [handle])
  | timer t =>
    simp only [handle] at hs
    split at hs
    · obtain ⟨c, hstep, rfl⟩ := Option.map_eq_some_iff.mp hs
      obtain ⟨-, hstep⟩ := Option.ite_none_right_eq_some.mp hstep
      obtain rfl := Option.some.inj hstep
      obtain ⟨hcalls, ⟨hpending, -⟩ | ⟨-, hpending, -⟩⟩ :=
        PeerChannel.pending_onTimer { s.channel with waits := s.channel.waits - 1 } now
      · exact h.of_shrinks (hpending ▸ List.nil_suffix) hcalls
      · exact h.of_shrinks ⟨[], hpending⟩ hcalls
    · exact absurd hs (by simp)
  | _ => exact hother (by simp) (by simp) hs

/-- **A call has ended** when the timeout, a quarter of it and twice the delay have passed. -/
theorem ended (h : Tracks timeout delay made n s) (htimely : Timely peer timeout now s)
    (hontime : s.OnTime delay now)
    (hlate : made + timeout.ticks + timerPeriod timeout + 2 * delay < now) :
    n ∈ s.channel.done.map Called.call := by
  have hcalled : n < s.channel.calls.length := by
    -- its handler would be too late
    by_contra hge
    have hknown := h.known
    rw [Strand.made, List.countP_eq_length_filter] at hknown
    have hlt : n - s.channel.calls.length < (s.posted.filter fun x => x.2.isCall).length := by omega
    have hx := List.getElem?_eq_getElem hlt
    have hmade := h.posted _ _ hx (by omega)
    have hnow := hontime.2 _ (List.mem_of_mem_filter (List.mem_of_getElem? hx))
    have hsum (t made delay timeout period now : ℕ) (hmade : t ≤ made) (hnow : now ≤ t + delay) :
        ¬made + timeout + period + 2 * delay < now := by omega
    exact hsum _ _ _ _ _ _ hmade hnow hlate
  rcases List.mem_append.mp (htimely.inv.once.mem_iff.mpr (List.mem_range.mpr hcalled)) with
    hpending | hdone
  · -- the timer would be too late
    obtain ⟨p, hp, hcall⟩ := List.mem_map.mp hpending
    have harmed := htimely.watched (List.ne_nil_of_mem hp)
    rw [htimely.armed] at harmed
    obtain ⟨d, hd⟩ := Option.isSome_iff_exists.mp harmed
    have hsum (deadline d made delay timeout period now : ℕ)
        (hdeadline : deadline ≤ made + delay + timeout) (hdue : d ≤ deadline + period)
        (hnow : now ≤ d + delay) : ¬made + timeout + period + 2 * delay < now := by omega
    exact absurd hlate (hsum _ _ _ _ _ _ _ (h.pending p hp hcall) (htimely.oldest d hd p hp)
      (hontime.1 d hd))
  · exact hdone

end Tracks

end Strand

/-! ## The channels of a node -/

/-- `PeerChannels`: the clock, the number of the next call, which peers have channels, and the
channels of each peer. The channels of a peer are made with its first call. -/
structure PeerChannels (α : Type) where
  now : Time := 0
  next : ℕ := 0
  created : α → Bool := fun _ => false
  strands : α × ℕ → Strand := fun _ => {}

namespace PeerChannels

variable {α : Type}

/-- A step: time passes, some thread calls a peer or drops its connections, or a strand runs a
handler. -/
inductive Label (α : Type) where
  | tick (elapsed : Time)
  | call (peer : α) (args : List Bytes)
  | drop (peer : α)
  | runPosted (i : α × ℕ)
  | handle (i : α × ℕ) (event : ChannelEvent)

section Steps

variable [DecidableEq α] (perPeer : ℕ) (peers : α × ℕ → Peer) (timeout : Millis)

/-- One step. The calls to all peers take turns at the channels, of which there are `perPeer` for
each peer, at least one. -/
def step (s : PeerChannels α) : Label α → Option (PeerChannels α)
  | .tick elapsed => some { s with now := s.now + elapsed }
  | .call peer args =>
    let i := (peer, s.next % max 1 perPeer)
    some { s with
      next := s.next + 1
      created := Function.update s.created peer true
      strands := Function.update s.strands i ((s.strands i).post s.now (.call args)) }
  | .drop peer =>
    if s.created peer then
      some { s with
        strands := fun i => if i.1 = peer ∧ i.2 < max 1 perPeer then (s.strands i).post s.now .close
          else s.strands i }
    else some s
  | .runPosted i =>
    ((s.strands i).runPosted timeout s.now).map fun strand =>
      { s with strands := Function.update s.strands i strand }
  | .handle i event =>
    ((s.strands i).handle (peers i) timeout s.now event).map fun strand =>
      { s with strands := Function.update s.strands i strand }

omit [DecidableEq α] in
/-- Time does not pass while a handler is later than `delay`. -/
def Punctual (delay : Time) (s : PeerChannels α) : Label α → Prop
  | .tick elapsed =>
    ∀ peer, ∀ k < max 1 perPeer, (s.strands (peer, k)).OnTime delay (s.now + elapsed)
  | _ => True

instance Punctual.decidable [Fintype α] (delay : Time) (s : PeerChannels α) :
    ∀ l, Decidable (Punctual perPeer delay s l)
  | .tick elapsed => inferInstanceAs (Decidable (∀ peer, ∀ k < max 1 perPeer,
      (s.strands (peer, k)).OnTime delay (s.now + elapsed)))
  | .call .. | .drop _ | .runPosted _ | .handle .. => .isTrue trivial

end Steps

variable [DecidableEq α] {perPeer : ℕ} {peers : α × ℕ → Peer} {timeout : Millis} {delay : Time}
  {s s₁ s' : PeerChannels α} {l : Label α} {i : α × ℕ} {n : ℕ}

/-- What a step does to one strand: time passes, a handler is posted, or one runs. -/
inductive StrandStep (peer : Peer) (timeout : Millis) (delay now : Time) (s : Strand) :
    Time → Strand → Prop where
  | tick (elapsed : Time) : s.OnTime delay (now + elapsed) →
    StrandStep peer timeout delay now s (now + elapsed) s
  | still : StrandStep peer timeout delay now s now s
  | post (p : Posted) : StrandStep peer timeout delay now s now (s.post now p)
  | runPosted {s' : Strand} : s.runPosted timeout now = some s' →
    StrandStep peer timeout delay now s now s'
  | handle {s' : Strand} (event : ChannelEvent) : s.handle peer timeout now event = some s' →
    StrandStep peer timeout delay now s now s'

/-- **What a step does to a strand.** -/
theorem strandStep_of_step (hi : i.2 < max 1 perPeer) (hpunctual : Punctual perPeer delay s l)
    (hs : step perPeer peers timeout s l = some s') :
    StrandStep (peers i) timeout delay s.now (s.strands i) s'.now (s'.strands i) := by
  cases l with
  | tick elapsed =>
    obtain rfl := Option.some.inj hs
    exact .tick elapsed (hpunctual i.1 i.2 hi)
  | call peer args =>
    obtain rfl := Option.some.inj hs
    by_cases hi : i = (peer, s.next % max 1 perPeer)
    · subst hi
      simp only [Function.update_self]
      exact .post (.call args)
    · simp only [Function.update_of_ne hi]
      exact .still
  | drop peer =>
    simp only [step] at hs
    split at hs
    · obtain rfl := Option.some.inj hs
      simp only
      split
      · exact .post .close
      · exact .still
    · obtain rfl := Option.some.inj hs
      exact .still
  | runPosted j =>
    obtain ⟨strand, hstrand, rfl⟩ := Option.map_eq_some_iff.mp hs
    by_cases hi : i = j
    · subst hi
      simp only [Function.update_self]
      exact .runPosted hstrand
    · simp only [Function.update_of_ne hi]
      exact .still
  | handle j event =>
    obtain ⟨strand, hstrand, rfl⟩ := Option.map_eq_some_iff.mp hs
    by_cases hi : i = j
    · subst hi
      simp only [Function.update_self]
      exact .handle event hstrand
    · simp only [Function.update_of_ne hi]
      exact .still

namespace StrandStep

variable {peer : Peer} {now now' made : Time} {strand strand' : Strand}

theorem timely (hs : StrandStep peer timeout delay now strand now' strand')
    (h : strand.Timely peer timeout now) : strand'.Timely peer timeout now' := by
  cases hs with
  | tick elapsed _ => exact h.tick elapsed
  | still => exact h
  | post p => exact h.post p
  | runPosted hs => exact h.of_runPosted hs
  | handle event hs => exact h.of_handle hs

theorem onTime (hs : StrandStep peer timeout delay now strand now' strand')
    (h : strand.OnTime delay now) : strand'.OnTime delay now' := by
  cases hs with
  | tick elapsed hontime => exact hontime
  | still => exact h
  | post p => exact h.post p
  | runPosted hs => exact h.of_runPosted hs
  | handle event hs => exact h.of_handle hs

theorem tracks (hs : StrandStep peer timeout delay now strand now' strand')
    (hontime : strand.OnTime delay now) (h : strand.Tracks timeout delay made n) :
    strand'.Tracks timeout delay made n := by
  cases hs with
  | tick elapsed _ => exact h
  | still => exact h
  | post p => exact h.post now p
  | runPosted hs => exact h.of_runPosted hontime hs
  | handle event hs => exact h.of_handle hs

end StrandStep

/-! ## Calls end in time -/

/-- **Every run keeps the strands on time.** -/
theorem timely_of_run {ls : List (Label α)} (hi : i.2 < max 1 perPeer)
    (htimely : (s₁.strands i).Timely (peers i) timeout s₁.now)
    (hontime : (s₁.strands i).OnTime delay s₁.now)
    (hpunctual : Along (step perPeer peers timeout) (Punctual perPeer delay) s₁ ls)
    (hrun : run (step perPeer peers timeout) s₁ ls = some s) :
    (s.strands i).Timely (peers i) timeout s.now ∧ (s.strands i).OnTime delay s.now := by
  refine run_invariant (I := fun s => (s.strands i).Timely (peers i) timeout s.now ∧
    (s.strands i).OnTime delay s.now) ?_ ⟨htimely, hontime⟩ hpunctual hrun
  rintro s l s' ⟨htimely, hontime⟩ hpunctual hs
  have hstrand := strandStep_of_step hi hpunctual hs
  exact ⟨hstrand.timely htimely, hstrand.onTime hontime⟩

/-- **Calls end in time.** When no handler runs later than `delay`, every call that was made by some
time has ended, with a reply or an error, by the timeout, a quarter of it and twice the delay
later. -/
theorem ended_of_run {before after : List (Label α)} (hi : i.2 < max 1 perPeer)
    (hpunctual : Along (step perPeer peers timeout) (Punctual perPeer delay) {} (before ++ after))
    (hbefore : run (step perPeer peers timeout) {} before = some s₁)
    (hafter : run (step perPeer peers timeout) s₁ after = some s)
    (hmade : n < (s₁.strands i).made)
    (hlate : s₁.now + timeout.ticks + timerPeriod timeout + 2 * delay < s.now) :
    n ∈ (s.strands i).channel.done.map Called.call := by
  obtain ⟨hpunctual₁, hpunctual₂⟩ := along_append hpunctual hbefore
  have hstart : (({} : PeerChannels α).strands i).Timely (peers i) timeout 0 :=
    Strand.timely_empty (peers i) timeout 0
  obtain ⟨htimely₁, hontime₁⟩ :=
    timely_of_run hi hstart ⟨by simp, by simp⟩ hpunctual₁ hbefore
  have htracks : (s.strands i).Tracks timeout delay s₁.now n ∧
      (s.strands i).Timely (peers i) timeout s.now ∧ (s.strands i).OnTime delay s.now := by
    refine run_invariant (I := fun s => (s.strands i).Tracks timeout delay s₁.now n ∧
      (s.strands i).Timely (peers i) timeout s.now ∧ (s.strands i).OnTime delay s.now) ?_
      ⟨htimely₁.tracks hmade, htimely₁, hontime₁⟩ hpunctual₂ hafter
    rintro s l s' ⟨htracks, htimely, hontime⟩ hpunctual hs
    have hstrand := strandStep_of_step hi hpunctual hs
    exact ⟨hstrand.tracks hontime htracks, hstrand.timely htimely, hstrand.onTime hontime⟩
  obtain ⟨htracks, htimely, hontime⟩ := htracks
  exact htracks.ended htimely hontime hlate

end PeerChannels

/-! ## Waiting for several peers -/

/-- A target of `replicate` or `collect`: the node itself or a peer that is down, for which `record`
is called at once, or a call to a peer, for which the callback calls it. -/
inductive FanoutTarget (α : Type) where
  | recorded
  | called (i : α × ℕ) (n : ℕ)

/-- `record` was called for the target. -/
def FanoutTarget.settled {α : Type} (s : PeerChannels α) : FanoutTarget α → Bool
  | .recorded => true
  | .called i n => decide (n ∈ (s.strands i).channel.done.map Called.call)

namespace PeerChannels

variable {α : Type} [DecidableEq α] {perPeer : ℕ} {peers : α × ℕ → Peer} {timeout : Millis}
  {delay : Time} {s s₁ : PeerChannels α}

/-- **All targets are settled before the wait is over.** A thread has called the targets of a write
or a read when it begins to wait, for twice the timeout. When that time has passed, `done` counts
all targets, whatever else was called, failed or dropped meanwhile, if no handler runs later than
three eighths of the timeout and the peers that answer a request do so with one well-formed reply.
So it is not the end of the time that ends the wait: either enough targets have confirmed, or all
have answered or failed. -/
theorem fanout_settles {before after : List (Label α)} {targets : List (FanoutTarget α)}
    (hdelay : timerPeriod timeout + 2 * delay < timeout.ticks)
    (hpunctual : Along (step perPeer peers timeout) (Punctual perPeer delay) {} (before ++ after))
    (hbefore : run (step perPeer peers timeout) {} before = some s₁)
    (hcalled : ∀ i n, .called i n ∈ targets → i.2 < max 1 perPeer ∧ n < (s₁.strands i).made)
    (hafter : run (step perPeer peers timeout) s₁ after = some s)
    (hwait : s₁.now + 2 * timeout.ticks ≤ s.now) :
    targets.countP (FanoutTarget.settled s) = targets.length := by
  refine List.countP_eq_length.mpr ?_
  intro target htarget
  cases target with
  | recorded => rfl
  | called i n =>
    obtain ⟨hi, hmade⟩ := hcalled i n htarget
    have hsum (t timeout period delay now : ℕ) (hdelay : period + 2 * delay < timeout)
        (hwait : t + 2 * timeout ≤ now) : t + timeout + period + 2 * delay < now := by omega
    exact decide_eq_true (ended_of_run hi hpunctual hbefore hafter hmade
      (hsum _ _ _ _ _ hdelay hwait))

/-- A call to a peer that is never reached: the timer runs four times, and the last time the call
has timed out. -/
def unreachable : List (Label Unit) :=
  [.runPosted ((), 0), .tick 2000000, .handle ((), 0) (.timer 2000000), .tick 2000000,
    .handle ((), 0) (.timer 4000000), .tick 2050000, .handle ((), 0) (.timer 6050000),
    .tick 2000000, .handle ((), 0) (.timer 8050000), .tick 7950000]

/-- One channel to a peer, with a timeout of eight milliseconds. -/
def oneChannel : PeerChannels Unit → Label Unit → Option (PeerChannels Unit) :=
  step 1 (fun _ => PeerChannel.countingPeer) 8

/-- A write to the node itself and to a peer that is never reached. -/
theorem fanout_settles_unreachable :
    ∃ s₁ s, run oneChannel {} [.call () [ascii "PING"]] = some s₁ ∧
      run oneChannel s₁ unreachable = some s ∧ s.now = 16000000 ∧
      [FanoutTarget.recorded, .called ((), 0) 0].countP (FanoutTarget.settled s) = 2 := by
  have hpunctual : Along oneChannel (Punctual 1 100000) {}
      ([.call () [ascii "PING"]] ++ unreachable) := by decide
  have hseen₁ : (run oneChannel {} [.call () [ascii "PING"]]).map
      (fun s => (s.now, (s.strands ((), 0)).made)) = some (0, 1) := by decide
  have hseen : (run oneChannel {} ([.call () [ascii "PING"]] ++ unreachable)).map
      PeerChannels.now = some 16000000 := by decide
  obtain ⟨s, hrun, hnow⟩ := Option.map_eq_some_iff.mp hseen
  obtain ⟨s₁, hbefore, hafter⟩ := run_append_eq_some.mp hrun
  simp only [hbefore, Option.map_some, Option.some.injEq, Prod.mk.injEq] at hseen₁
  refine ⟨s₁, s, hbefore, hafter, hnow, ?_⟩
  refine fanout_settles (by decide) hpunctual hbefore ?_ hafter ?_
  · intro i n hn
    obtain ⟨rfl, rfl⟩ : i = ((), 0) ∧ n = 0 := by simpa using hn
    exact ⟨by decide, by rw [hseen₁.2]; decide⟩
  · rw [hseen₁.1, hnow]
    decide

end PeerChannels


end ShardCache
