import ShardCache.Foundations.Run
import ShardCache.Protocol.Resp

/-!
# Channels to peers

A channel sends the requests of its callers over one connection and matches replies to callbacks by
their order. Requests that are queued while a write is in flight go out in the next write. Any
failure closes the connection, fails every call that is still pending and raises the generation, so
that the handlers of the old connection do nothing when they run.

The peer answers the requests of a connection in order, with one reply each. A callback is then
called at most once, and with a reply only if it is the reply to its own request; every other call
is still pending.

## Main definitions

* `PeerChannel`, `PeerChannel.step`: the channel, and what each event on its strand does
* `Peer`: the replies of the peer

## Main results

* `PeerChannel.matchReplies_spec`: replies are matched in order
* `PeerChannel.Inv.step`: what every event keeps
* `PeerChannel.callbacks_match`: callbacks match their requests
-/

namespace ShardCache

open Foundations Resp

/-- `RequestStatus`. -/
inductive RequestStatus where
  | ok | notFound | timeout | connectionError | protocolError
deriving DecidableEq, Repr

/-- What a callback is called with: a reply, or an error. -/
inductive CallResult where
  | success (v : RespValue)
  | error (status : RequestStatus) (message : Bytes)
deriving DecidableEq, Repr

/-- `Pending`: the number of a call stands for its callback. -/
structure Pending where
  call : ℕ
  deadline : Time
deriving DecidableEq, Repr

/-- A callback that was called, and the generation of the channel at that time. -/
structure Called where
  call : ℕ
  generation : ℕ
  result : CallResult
deriving DecidableEq, Repr

/-- `PeerChannel::State`. -/
inductive ChannelState where
  | disconnected | connecting | connected
deriving DecidableEq, Repr

/-- What has happened on the current connection: the calls whose requests are in `queued_`, those
whose requests were handed to the socket and the bytes that were handed over, how many of these
calls were answered, and the bytes that have arrived. -/
structure Connection where
  unsent : List ℕ := []
  sent : List ℕ := []
  written : Bytes := []
  answered : ℕ := 0
  arrived : Bytes := []
deriving DecidableEq, Repr

/-- The state of a `PeerChannel`. `resolves`, `connects`, `writes` and `reads` are the outstanding
operations, by the generation they were started in, and `waits` the outstanding waits of the timer.
The last fields record the calls, the connection each was sent on and the callbacks. -/
structure PeerChannel where
  state : ChannelState := .disconnected
  generation : ℕ := 0
  writing : Bool := false
  timerArmed : Bool := false
  queued : Bytes := []
  inWrite : Bytes := []
  pending : List Pending := []
  rx : Bytes := []
  resolves : List ℕ := []
  connects : List ℕ := []
  writes : List ℕ := []
  reads : List ℕ := []
  waits : ℕ := 0
  conn : Connection := {}
  calls : List (List Bytes) := []
  sends : List (ℕ × ℕ) := []
  done : List Called := []
deriving DecidableEq, Repr

/-- An event on the strand: a posted call or `close`, a completion with its generation and the
message of its error, or the timer. -/
inductive ChannelEvent where
  | call (args : List Bytes) (now : Time)
  | close
  | resolved (gen : ℕ) (failure : Option Bytes)
  | connected (gen : ℕ) (failure : Option Bytes)
  | wrote (gen : ℕ) (failure : Option Bytes)
  | received (gen : ℕ) (chunk : Bytes)
  | readFailed (gen : ℕ) (message : Bytes)
  | timer (now : Time)
deriving DecidableEq, Repr

/-- The peer answers each request with one well-formed reply: `reply g i` answers call `i` on
connection `g`. -/
structure Peer where
  reply : ℕ → ℕ → Bytes
  value : ℕ → ℕ → RespValue
  whole : ∀ g i, parseReply.Whole (value g i) (reply g i)

namespace PeerChannel

/-! ## The channel -/

/-- `reset_connection`. -/
def resetConnection (c : PeerChannel) : PeerChannel :=
  { c with
    generation := c.generation + 1
    state := .disconnected
    writing := false
    queued := []
    inWrite := []
    rx := []
    conn := {} }

/-- `fail_all`. -/
def failAll (c : PeerChannel) (status : RequestStatus) (message : Bytes) : PeerChannel :=
  { c.resetConnection with
    pending := []
    done := c.done ++ c.pending.map fun p => ⟨p.call, c.generation, .error status message⟩ }

/-- `connect`. -/
def connect (c : PeerChannel) : PeerChannel :=
  { c with
    state := .connecting
    generation := c.generation + 1
    resolves := c.resolves ++ [c.generation + 1] }

/-- `flush`. -/
def flush (c : PeerChannel) : PeerChannel :=
  if c.writing ∨ c.queued = [] ∨ c.state ≠ .connected then c
  else
    { c with
      writing := true
      inWrite := c.queued
      queued := []
      writes := c.writes ++ [c.generation]
      conn := { c.conn with
        unsent := []
        sent := c.conn.sent ++ c.conn.unsent
        written := c.conn.written ++ c.queued }
      sends := c.sends ++ c.conn.unsent.map fun i => (i, c.generation) }

/-- `read`. -/
def read (c : PeerChannel) : PeerChannel := { c with reads := c.reads ++ [c.generation] }

/-- `enqueue`, of the request for `args`. -/
def enqueue (timeout : Time) (c : PeerChannel) (args : List Bytes) (now : Time) : PeerChannel :=
  let c : PeerChannel := { c with
    queued := c.queued ++ command args
    pending := c.pending ++ [⟨c.calls.length, now + timeout⟩]
    conn := { c.conn with unsent := c.conn.unsent ++ [c.calls.length] }
    calls := c.calls ++ [args] }
  let c := if c.timerArmed then c else { c with timerArmed := true, waits := c.waits + 1 }
  match c.state with
  | .disconnected => c.connect
  | .connected => c.flush
  | .connecting => c

/-- The loop of `read`: the calls that are answered with their replies, the calls and bytes that are
left, and whether the loop ended with a malformed reply. -/
def matchReplies : List Pending → Bytes → List (ℕ × RespValue) × List Pending × Bytes × Bool
  | [], rx => ([], [], rx, false)
  | p :: pending, rx =>
    match parseReply.parse rx with
    | .incomplete => ([], p :: pending, rx, false)
    | .error _ => ([], p :: pending, rx, true)
    | .ok v rest =>
      let (matched, left) := matchReplies pending rest
      ((p.call, v) :: matched, left)

/-- The handler of a read that brought `chunk`. -/
def onRead (c : PeerChannel) (chunk : Bytes) : PeerChannel :=
  let (matched, left, rest, malformed) := matchReplies c.pending (c.rx ++ chunk)
  let c : PeerChannel := { c with
    pending := left
    rx := rest
    conn := { c.conn with
      answered := c.conn.answered + matched.length, arrived := c.conn.arrived ++ chunk }
    done := c.done ++ matched.map fun (i, v) => ⟨i, c.generation, .success v⟩ }
  if malformed then c.failAll .protocolError (ascii "Malformed RESP reply") else c.read

/-- `on_timer`. -/
def onTimer (c : PeerChannel) (now : Time) : PeerChannel :=
  let c := { c with timerArmed := false }
  match c.pending with
  | [] => c
  | p :: _ =>
    if p.deadline ≤ now then c.failAll .timeout (ascii "Operation timed out")
    else { c with timerArmed := true, waits := c.waits + 1 }

/-- What a completion handler does for its own connection: fail all calls on an error, and go on
without one. -/
def handle (c : PeerChannel) (failure : Option Bytes) (next : PeerChannel → PeerChannel) :
    PeerChannel :=
  match failure with
  | some message => c.failAll .connectionError message
  | none => next c

/-- The channel after an event. Completions of an earlier generation do nothing. Bytes arrive on the
connection as the peer sends them: the replies to the requests that were handed to the socket, in
order, cut anywhere. -/
def step (peer : Peer) (timeout : Time) (c : PeerChannel) : ChannelEvent → Option PeerChannel
  | .call args now => some (c.enqueue timeout args now)
  | .close => some (c.failAll .connectionError (ascii "Channel closed"))
  | .resolved gen failure =>
    if gen ∈ c.resolves then
      let c := { c with resolves := c.resolves.erase gen }
      some (if gen ≠ c.generation then c
        else c.handle failure fun c => { c with connects := c.connects ++ [gen] })
    else none
  | .connected gen failure =>
    if gen ∈ c.connects then
      let c := { c with connects := c.connects.erase gen }
      some (if gen ≠ c.generation then c
        else c.handle failure fun c => flush (read { c with state := .connected }))
    else none
  | .wrote gen failure =>
    if gen ∈ c.writes then
      let c := { c with writes := c.writes.erase gen }
      some (if gen ≠ c.generation then c
        else handle { c with writing := false, inWrite := [] } failure flush)
    else none
  | .received gen chunk =>
    if gen ∈ c.reads ∧ chunk ≠ [] ∧ chunk.length ≤ 64 * 1024 ∧ (gen = c.generation →
        c.conn.arrived ++ chunk <+: (c.conn.sent.map (peer.reply gen)).flatten) then
      let c := { c with reads := c.reads.erase gen }
      some (if gen ≠ c.generation then c else c.onRead chunk)
    else none
  | .readFailed gen message =>
    if gen ∈ c.reads then
      let c := { c with reads := c.reads.erase gen }
      some (if gen ≠ c.generation then c else c.failAll .connectionError message)
    else none
  | .timer now => if 0 < c.waits then some (onTimer { c with waits := c.waits - 1 } now) else none

/-! ## What every event keeps -/

/-- The requests of calls, one after the other. -/
def requestsOf (c : PeerChannel) (ids : List ℕ) : Bytes :=
  (ids.map fun i => command (c.calls.getD i [])).flatten

/-- The replies of the peer on the current connection to calls, one after the other. -/
def repliesTo (peer : Peer) (c : PeerChannel) (ids : List ℕ) : Bytes :=
  (ids.map (peer.reply c.generation)).flatten

/-- The pending calls are those sent on this connection that were not answered, in order, and then
those not sent yet. What has arrived are the replies that were matched, and the bytes in `rx_`. -/
structure Inv (peer : Peer) (c : PeerChannel) : Prop where
  order : c.pending.map Pending.call = c.conn.sent.drop c.conn.answered ++ c.conn.unsent
  answered_le : c.conn.answered ≤ c.conn.sent.length
  consumed : c.repliesTo peer (c.conn.sent.take c.conn.answered) ++ c.rx = c.conn.arrived
  arrived : c.conn.arrived <+: c.repliesTo peer c.conn.sent
  fresh : c.state = .disconnected → c.conn.sent = [] ∧ c.conn.arrived = []
  recorded : ∀ i ∈ c.conn.sent, (i, c.generation) ∈ c.sends
  known : ∀ i ∈ c.sends.map Prod.fst ++ c.conn.unsent, i < c.calls.length
  sent_once : (c.sends.map Prod.fst ++ c.conn.unsent).Nodup
  queued : c.queued = c.requestsOf c.conn.unsent
  written : c.conn.written = c.requestsOf c.conn.sent
  once : (c.pending.map Pending.call ++ c.done.map Called.call).Perm (List.range c.calls.length)
  results : ∀ r ∈ c.done, ∀ v, r.result = .success v →
    (r.call, r.generation) ∈ c.sends ∧ v = peer.value r.generation r.call

variable {peer : Peer} {timeout : Time} {c c' : PeerChannel}

theorem inv_empty : Inv peer {} where
  order := rfl
  answered_le := le_rfl
  consumed := rfl
  arrived := List.prefix_rfl
  fresh _ := ⟨rfl, rfl⟩
  recorded _ h := absurd h List.not_mem_nil
  known _ h := absurd h List.not_mem_nil
  sent_once := List.nodup_nil
  queued := rfl
  written := rfl
  once := List.Perm.refl _
  results _ h := absurd h List.not_mem_nil

/-- `fail_all` calls the callback of every pending call. -/
theorem Inv.failAll (hc : Inv peer c) (status : RequestStatus) (message : Bytes) :
    Inv peer (c.failAll status message) where
  order := rfl
  answered_le := le_rfl
  consumed := rfl
  arrived := List.prefix_rfl
  fresh _ := ⟨rfl, rfl⟩
  recorded _ h := absurd h List.not_mem_nil
  known i hi := by
    simp only [PeerChannel.failAll, resetConnection, List.append_nil] at hi
    exact hc.known i (List.mem_append_left _ hi)
  sent_once := hc.sent_once.sublist (List.Sublist.append_left (List.nil_sublist _) _)
  queued := rfl
  written := rfl
  once := by
    refine List.Perm.trans ?_ hc.once
    simp [PeerChannel.failAll, Function.comp_def, resetConnection, List.perm_append_comm]
  results r hr v hv := by
    rcases List.mem_append.mp hr with hr | hr
    · exact hc.results r hr v hv
    · obtain ⟨p, -, rfl⟩ := List.mem_map.mp hr
      cases hv

/-- The outstanding operations, the timer and the write in flight play no part. -/
theorem Inv.withOps (hc : Inv peer c) (resolves connects writes reads : List ℕ) (waits : ℕ)
    (timerArmed writing : Bool) (inWrite : Bytes) :
    Inv peer { c with
      resolves := resolves, connects := connects, writes := writes, reads := reads, waits := waits,
      timerArmed := timerArmed, writing := writing, inWrite := inWrite } :=
  ⟨hc.order, hc.answered_le, hc.consumed, hc.arrived, hc.fresh, hc.recorded, hc.known,
    hc.sent_once, hc.queued, hc.written, hc.once, hc.results⟩

theorem Inv.connected (hc : Inv peer c) : Inv peer { c with state := .connected } :=
  ⟨hc.order, hc.answered_le, hc.consumed, hc.arrived, nofun, hc.recorded, hc.known,
    hc.sent_once, hc.queued, hc.written, hc.once, hc.results⟩

/-- `connect` starts from a channel on which nothing was sent. -/
theorem Inv.connect (hc : Inv peer c) (hstate : c.state = .disconnected) :
    Inv peer c.connect := by
  obtain ⟨hsent, harrived⟩ := hc.fresh hstate
  have hanswered : c.conn.answered = 0 := by simpa [hsent] using hc.answered_le
  have hrx : c.rx = [] := by simpa [harrived, hsent, repliesTo] using hc.consumed
  exact {
    order := hc.order
    answered_le := hc.answered_le
    consumed := by simp [PeerChannel.connect, hsent, hrx, harrived, repliesTo]
    arrived := by simp [PeerChannel.connect, harrived]
    fresh := nofun
    recorded := by simp [PeerChannel.connect, hsent]
    known := hc.known
    sent_once := hc.sent_once
    queued := hc.queued
    written := hc.written
    once := hc.once
    results := hc.results }

/-- `flush` hands the queued requests to the socket, behind those handed over before. -/
theorem Inv.flush (hc : Inv peer c) : Inv peer c.flush := by
  unfold PeerChannel.flush
  split
  · exact hc
  · rename_i hgo
    have hstate : c.state = .connected := by
      by_contra hne
      exact hgo (Or.inr (Or.inr hne))
    exact {
      order := by
        rw [hc.order, List.drop_append_of_le_length hc.answered_le, List.append_nil]
      answered_le := by
        have hle := hc.answered_le
        simp
        omega
      consumed := by
        rw [List.take_append_of_le_length hc.answered_le]
        exact hc.consumed
      arrived := by
        refine hc.arrived.trans ?_
        simp [repliesTo]
      fresh := by simp [hstate]
      recorded := by
        intro i hi
        rcases List.mem_append.mp hi with hi | hi
        · exact List.mem_append_left _ (hc.recorded i hi)
        · exact List.mem_append_right _ (List.mem_map_of_mem hi)
      known := by simpa [Function.comp_def] using hc.known
      sent_once := by simpa [Function.comp_def] using hc.sent_once
      queued := rfl
      written := by
        simp only [hc.written, hc.queued]
        simp [requestsOf]
      once := hc.once
      results := fun r hr v hv =>
        (hc.results r hr v hv).imp_left fun hmem => List.mem_append_left _ hmem }

/-- A call is queued behind the pending ones. -/
theorem Inv.add (hc : Inv peer c) (args : List Bytes) (deadline : Time) :
    Inv peer { c with
      queued := c.queued ++ command args
      pending := c.pending ++ [⟨c.calls.length, deadline⟩]
      conn := { c.conn with unsent := c.conn.unsent ++ [c.calls.length] }
      calls := c.calls ++ [args] } := by
  -- the requests of earlier calls stay the same
  have hrequests (ids : List ℕ) (hids : ∀ i ∈ ids, i < c.calls.length) :
      (ids.map fun i => command ((c.calls ++ [args]).getD i [])) =
        ids.map fun i => command (c.calls.getD i []) := by
    refine List.map_congr_left ?_
    intro i hi
    rw [List.getD_append _ _ _ _ (hids i hi)]
  have hunsent (i : ℕ) (hi : i ∈ c.conn.unsent) : i < c.calls.length :=
    hc.known i (List.mem_append_right _ hi)
  have hsent (i : ℕ) (hi : i ∈ c.conn.sent) : i < c.calls.length :=
    hc.known i (List.mem_append_left _ (List.mem_map_of_mem (hc.recorded i hi)))
  exact {
    order := by simp [hc.order]
    answered_le := hc.answered_le
    consumed := hc.consumed
    arrived := hc.arrived
    fresh := hc.fresh
    recorded := hc.recorded
    known := by
      intro i hi
      rw [← List.append_assoc, List.mem_append, List.mem_singleton] at hi
      rw [List.length_append, List.length_singleton]
      rcases hi with hi | rfl
      · exact Nat.lt_succ_of_lt (hc.known i hi)
      · exact Nat.lt_succ_self _
    sent_once := by
      -- the number of the call is new
      rw [← List.append_assoc]
      refine List.Nodup.append hc.sent_once (List.nodup_singleton _) ?_
      intro i hi hnew
      exact absurd (hc.known i hi) (by simp [List.mem_singleton.mp hnew])
    queued := by
      simp only [requestsOf, List.map_append, List.flatten_append, hrequests _ hunsent, hc.queued]
      simp
    written := by
      simp only [requestsOf, hrequests _ hsent]
      exact hc.written
    once := by
      simp only [List.map_append, List.map_cons, List.map_nil, List.length_append,
        List.length_singleton, List.range_succ]
      refine List.Perm.trans ?_ (hc.once.append_right _)
      rw [List.append_assoc, List.append_assoc]
      exact List.Perm.append_left _ List.perm_append_comm
    results := hc.results }

/-- **Replies are matched in order**: on a part of the replies to the calls `awaiting`, which are
pending first, the loop takes some of these calls with their own replies, and never fails. -/
theorem matchReplies_spec {reply : ℕ → Bytes} {value : ℕ → RespValue}
    (hwhole : ∀ i, parseReply.Whole (value i) (reply i)) {awaiting unsent : List ℕ}
    {pending : List Pending} {rx : Bytes} (hpending : pending.map Pending.call = awaiting ++ unsent)
    (hrx : rx <+: (awaiting.map reply).flatten) :
    ∃ k rest, k ≤ awaiting.length ∧ ((awaiting.take k).map reply).flatten ++ rest = rx ∧
      matchReplies pending rx =
        ((awaiting.take k).map fun i => (i, value i), pending.drop k, rest, false) := by
  -- Induction on the calls that await a reply.
  induction awaiting generalizing pending rx with
  | nil =>
    -- nothing is to arrive, and the loop waits
    obtain rfl : rx = [] := List.prefix_nil.mp hrx
    refine ⟨0, [], le_rfl, rfl, ?_⟩
    cases pending with
    | nil => rfl
    | cons p pending => rfl
  | cons a awaiting ih =>
    obtain _ | ⟨p, pending⟩ := pending
    · cases hpending
    · obtain ⟨rfl, hleft⟩ := List.cons.inj hpending
      rcases (hwhole p.call).parse_part hrx with hwait | ⟨rest, rfl, hrest, hparse⟩
      · -- the reply is still on its way
        exact ⟨0, rx, Nat.zero_le _, rfl, by simp [matchReplies, hwait]⟩
      · -- the first call is answered with its reply, and the others from the rest
        obtain ⟨k, left, hk, htaken, hmatch⟩ := ih hleft hrest
        refine ⟨k + 1, left, by simp [hk], by simp [← htaken], ?_⟩
        simp [matchReplies, hparse, hmatch]

/-- What arrives next starts with the replies to the calls that await one. -/
theorem Inv.rx_append_le (hc : Inv peer c) {chunk : Bytes}
    (hchunk : c.conn.arrived ++ chunk <+: c.repliesTo peer c.conn.sent) :
    c.rx ++ chunk <+: c.repliesTo peer (c.conn.sent.drop c.conn.answered) := by
  have hsplit : c.repliesTo peer c.conn.sent =
      c.repliesTo peer (c.conn.sent.take c.conn.answered) ++
        c.repliesTo peer (c.conn.sent.drop c.conn.answered) := by
    rw [repliesTo, repliesTo, repliesTo, ← List.flatten_append, ← List.map_append,
      List.take_append_drop]
  rw [hsplit, ← hc.consumed, List.append_assoc] at hchunk
  exact (List.prefix_append_right_inj _).mp hchunk

/-- `k` more calls are answered on the current connection. -/
theorem Inv.answer (hc : Inv peer c) {chunk rest : Bytes} {k : ℕ}
    (hk : k ≤ (c.conn.sent.drop c.conn.answered).length)
    (hrest : c.repliesTo peer ((c.conn.sent.drop c.conn.answered).take k) ++ rest = c.rx ++ chunk)
    (hchunk : c.conn.arrived ++ chunk <+: c.repliesTo peer c.conn.sent) (hchunk_ne : chunk ≠ []) :
    Inv peer { c with
      pending := c.pending.drop k
      rx := rest
      conn := { c.conn with
        answered := c.conn.answered + k, arrived := c.conn.arrived ++ chunk }
      done := c.done ++ ((c.conn.sent.drop c.conn.answered).take k).map fun i =>
        ⟨i, c.generation, .success (peer.value c.generation i)⟩ } := by
  have hanswered := hc.answered_le
  have hlength := List.length_drop ▸ hk
  -- the first `k` pending calls are the first `k` that await a reply
  have horder : (c.pending.drop k).map Pending.call =
      c.conn.sent.drop (c.conn.answered + k) ++ c.conn.unsent := by
    rw [List.map_drop, hc.order, List.drop_append_of_le_length hk, List.drop_drop]
  exact {
    order := horder
    answered_le := by
      simp only
      omega
    consumed := by
      simp only [List.take_add, repliesTo, List.map_append, List.flatten_append,
        List.append_assoc] at hrest ⊢
      rw [hrest, ← List.append_assoc]
      exact congrArg (· ++ chunk) hc.consumed
    arrived := hchunk
    fresh := by
      -- nothing arrives on a channel that has sent nothing
      intro hstate
      obtain ⟨hsent, -⟩ := hc.fresh hstate
      simp [hsent, repliesTo, hchunk_ne] at hchunk
    recorded := hc.recorded
    known := hc.known
    sent_once := hc.sent_once
    queued := hc.queued
    written := hc.written
    once := by
      have hsplit : (c.conn.sent.drop c.conn.answered).take k ++
          c.conn.sent.drop (c.conn.answered + k) = c.conn.sent.drop c.conn.answered := by
        rw [← List.drop_drop, List.take_append_drop]
      refine List.Perm.trans ?_ hc.once
      -- the calls that are answered move from the pending ones to those done
      rw [horder, hc.order, List.map_append, List.map_map, ← List.append_assoc]
      refine List.perm_append_comm.trans (List.Perm.of_eq ?_)
      simp only [Function.comp_def, List.map_id', ← List.append_assoc, hsplit]
    results := by
      intro r hr v hv
      rcases List.mem_append.mp hr with hr | hr
      · exact hc.results r hr v hv
      · -- the call was sent on this connection, and the value is its reply
        obtain ⟨i, hi, rfl⟩ := List.mem_map.mp hr
        have hsent : i ∈ c.conn.sent := List.mem_of_mem_drop (List.mem_of_mem_take hi)
        exact ⟨hc.recorded i hsent, (CallResult.success.inj hv).symm⟩ }

/-- A chunk of replies is matched to the calls that await them. -/
theorem Inv.onRead (hc : Inv peer c) {chunk : Bytes} (hchunk_ne : chunk ≠ [])
    (hchunk : c.conn.arrived ++ chunk <+: c.repliesTo peer c.conn.sent) :
    Inv peer (c.onRead chunk) := by
  obtain ⟨k, rest, hk, hrest, hmatch⟩ :=
    matchReplies_spec (peer.whole c.generation) hc.order (hc.rx_append_le hchunk)
  have hlen : ((c.conn.sent.drop c.conn.answered).take k).length = k := List.length_take_of_le hk
  have hanswer := hc.answer hk hrest hchunk hchunk_ne
  simp only [PeerChannel.onRead, hmatch, Bool.false_eq_true, if_false, List.length_map, hlen,
    List.map_map, Function.comp_def]
  exact hanswer.withOps ..

theorem Inv.armTimer (hc : Inv peer c) :
    Inv peer (if c.timerArmed then c else { c with timerArmed := true, waits := c.waits + 1 }) := by
  split
  · exact hc
  · exact hc.withOps ..

/-- A call is queued, the timer armed, and the channel connects or writes. -/
theorem Inv.enqueue (hc : Inv peer c) (args : List Bytes) (now : Time) :
    Inv peer (c.enqueue timeout args now) := by
  have hqueued := (hc.add args (now + timeout)).armTimer
  unfold PeerChannel.enqueue
  dsimp only at hqueued ⊢
  split
  · exact hqueued.connect ‹_›
  · exact hqueued.flush
  · -- the call is sent when the channel is connected
    exact hqueued

theorem Inv.onTimer (hc : Inv peer c) (now : Time) : Inv peer (c.onTimer now) := by
  have hoff : Inv peer { c with timerArmed := false } := hc.withOps ..
  unfold PeerChannel.onTimer
  dsimp only
  split
  · exact hoff
  · split
    · -- the oldest call has timed out, and takes all others with it
      exact hoff.failAll _ _
    · exact hc.withOps ..

theorem Inv.handle (hc : Inv peer c) (failure : Option Bytes) {next : PeerChannel → PeerChannel}
    (hnext : Inv peer (next c)) : Inv peer (c.handle failure next) := by
  cases failure with
  | some message => exact hc.failAll _ _
  | none => exact hnext

/-- A completion of an earlier generation changes nothing. -/
theorem Inv.completion (hc : Inv peer c) {gen : ℕ} {next : PeerChannel}
    (hnext : gen = c.generation → Inv peer next) :
    Inv peer (if gen ≠ c.generation then c else next) := by
  by_cases hgen : gen = c.generation
  · rw [if_neg (not_not.mpr hgen)]
    exact hnext hgen
  · rw [if_pos hgen]
    exact hc

/-- **Every event keeps the calls in order**. -/
theorem Inv.step (hc : Inv peer c) {event : ChannelEvent}
    (hstep : c.step peer timeout event = some c') : Inv peer c' := by
  cases event with
  | call args now =>
    obtain rfl := Option.some.inj hstep
    exact hc.enqueue args now
  | close =>
    obtain rfl := Option.some.inj hstep
    exact hc.failAll _ _
  | resolved gen failure =>
    obtain ⟨-, hstep⟩ := Option.ite_none_right_eq_some.mp hstep
    obtain rfl := Option.some.inj hstep
    have herase : Inv peer { c with resolves := c.resolves.erase gen } := hc.withOps ..
    refine herase.completion ?_
    intro _
    exact herase.handle failure (herase.withOps ..)
  | connected gen failure =>
    obtain ⟨-, hstep⟩ := Option.ite_none_right_eq_some.mp hstep
    obtain rfl := Option.some.inj hstep
    have herase : Inv peer { c with connects := c.connects.erase gen } := hc.withOps ..
    refine herase.completion ?_
    intro _
    have hread : Inv peer (read { c with connects := c.connects.erase gen, state := .connected }) :=
      herase.connected.withOps ..
    exact herase.handle failure hread.flush
  | wrote gen failure =>
    obtain ⟨-, hstep⟩ := Option.ite_none_right_eq_some.mp hstep
    obtain rfl := Option.some.inj hstep
    have herase : Inv peer { c with writes := c.writes.erase gen } := hc.withOps ..
    refine herase.completion ?_
    intro _
    have hwrote : Inv peer
        { c with writes := c.writes.erase gen, writing := false, inWrite := [] } := hc.withOps ..
    exact hwrote.handle failure hwrote.flush
  | received gen chunk =>
    obtain ⟨⟨-, hne, -, harrived⟩, hstep⟩ := Option.ite_none_right_eq_some.mp hstep
    obtain rfl := Option.some.inj hstep
    have herase : Inv peer { c with reads := c.reads.erase gen } := hc.withOps ..
    refine herase.completion ?_
    -- the chunk is one of this connection, so it continues the replies of the peer
    intro hgen
    obtain rfl : gen = c.generation := hgen
    exact herase.onRead hne (harrived rfl)
  | readFailed gen message =>
    obtain ⟨-, hstep⟩ := Option.ite_none_right_eq_some.mp hstep
    obtain rfl := Option.some.inj hstep
    have herase : Inv peer { c with reads := c.reads.erase gen } := hc.withOps ..
    refine herase.completion ?_
    intro _
    exact herase.failAll _ _
  | timer now =>
    obtain ⟨-, hstep⟩ := Option.ite_none_right_eq_some.mp hstep
    obtain rfl := Option.some.inj hstep
    have hwaited : Inv peer { c with waits := c.waits - 1 } := hc.withOps ..
    exact hwaited.onTimer now

/-! ## Callbacks match their requests -/

/-- **Callbacks match their requests**: after any events on the strand, every callback was called at
most once; a callback that was called with a reply was called with the reply of the peer to its own
request, on the one connection this request was sent on; and every call is still pending or its
callback was called, not both. The bytes that were handed to the socket of the current connection
are the requests of its calls, in order. -/
theorem callbacks_match {events : List ChannelEvent}
    (hrun : run (step peer timeout) {} events = some c) :
    (∀ i, (c.done.map Called.call).count i ≤ 1) ∧
    (∀ r ∈ c.done, ∀ v, r.result = .success v →
      (r.call, r.generation) ∈ c.sends ∧ (∀ g, (r.call, g) ∈ c.sends → g = r.generation) ∧
        parseReply.Whole v (peer.reply r.generation r.call)) ∧
    (∀ i, i < c.calls.length ↔
      Xor (i ∈ c.pending.map Pending.call) (i ∈ c.done.map Called.call)) ∧
    c.conn.written = c.requestsOf c.conn.sent := by
  have hinv : Inv peer c :=
    run_invariant (fun _ _ _ hc _ hstep => hc.step hstep) inv_empty (along_true _ _) hrun
  have hnodup : (c.pending.map Pending.call ++ c.done.map Called.call).Nodup :=
    hinv.once.nodup_iff.mpr List.nodup_range
  refine ⟨?_, ?_, ?_, hinv.written⟩
  · exact fun i => List.nodup_iff_count_le_one.mp (List.Nodup.of_append_right hnodup) i
  · intro r hr v hv
    obtain ⟨hsent, rfl⟩ := hinv.results r hr v hv
    have honce : (c.sends.map Prod.fst).Nodup := List.Nodup.of_append_left hinv.sent_once
    refine ⟨hsent, ?_, peer.whole _ _⟩
    -- a call is sent once
    intro g hg
    exact (Prod.mk.inj (List.inj_on_of_nodup_map honce hg hsent rfl)).2
  · intro i
    have hmem := hinv.once.mem_iff (a := i)
    have hdisjoint := List.disjoint_of_nodup_append hnodup
    rw [List.mem_range, List.mem_append] at hmem
    rw [← hmem]
    -- a call is in one of the two lists, and in no more than one
    constructor
    · rintro (hpending | hdone)
      · exact Or.inl ⟨hpending, fun hdone => hdisjoint hpending hdone⟩
      · exact Or.inr ⟨hdone, fun hpending => hdisjoint hpending hdone⟩
    · rintro (⟨hpending, -⟩ | ⟨hdone, -⟩)
      · exact Or.inl hpending
      · exact Or.inr hdone

/-- A peer that answers each request with the number of its call. -/
def countingPeer : Peer where
  reply _ i := appendInteger (Int64.ofNat i)
  value _ i := .integer (Int64.ofNat i)
  whole _ i := whole_appendInteger (Int64.ofNat i)

/-- A reply that is cut in two, a call that is lost with its connection, and a call after it. -/
theorem callbacks_match_splitReply :
    ∃ c, run (step countingPeer 1000) {}
        [.call [ascii "PING"] 0, .resolved 1 none, .connected 1 none, .received 1 (ascii ":0\r"),
          .received 1 (ascii "\n"), .call [ascii "GET", ascii "k"] 5, .wrote 1 none,
          .readFailed 1 (ascii "End of file"), .call [ascii "PING"] 9] = some c ∧
      c.done.map Called.call = [0, 1] ∧ c.pending.map Pending.call = [2] ∧
      ∀ r ∈ c.done, ∀ v, r.result = .success v →
        parseReply.Whole v (appendInteger (Int64.ofNat r.call)) := by
  have hdone : (run (step countingPeer 1000) {}
      [.call [ascii "PING"] 0, .resolved 1 none, .connected 1 none, .received 1 (ascii ":0\r"),
        .received 1 (ascii "\n"), .call [ascii "GET", ascii "k"] 5, .wrote 1 none,
        .readFailed 1 (ascii "End of file"), .call [ascii "PING"] 9]).map
        (fun c => (c.done.map Called.call, c.pending.map Pending.call)) = some ([0, 1], [2]) := by
    decide
  obtain ⟨c, hrun, hdone⟩ := Option.map_eq_some_iff.mp hdone
  obtain ⟨hcalled, hpending⟩ := Prod.mk.inj hdone
  refine ⟨c, hrun, hcalled, hpending, ?_⟩
  intro r hr v hv
  exact ((callbacks_match hrun).2.1 r hr v hv).2.2

end PeerChannel

end ShardCache
