import ShardCache.Network.NodeCalls
import ShardCache.Network.PeerChannel
import ShardCache.Network.Session

/-!
# Calls between nodes

A channel on one side, the sessions of the peer on the other, and a connection between them that
carries bytes in order, cuts them anywhere and may break at any time. The channel takes a new
connection after a failure; the session of the old one goes on with what is still on its way to it.

The peer of a channel was assumed to answer each request with one reply, in order. The sessions of
a node do so: their replies are those of the commands in the order in which their requests were
sent, and the reply to a request of a node is one value. What the channel was assumed to talk to is
thereby what it talks to, and calls are executed at most once.

## Main definitions

* `stream`: the bytes of requests, one after the other
* `PeerChannel.sendsOn`: the calls that were sent on a connection, in order
* `Rpc`, `Rpc.step`: the channel, the sessions, and what is on its way between them
* `SessionHandler.ServesNodes`: the session answers the requests of nodes as a node does
* `Rpc.peer`: the peer of the channel, as its sessions answer
* `Rpc.Joined`: what is true of both sides

## Main results

* `requests_stream`, `linesFit_stream`: a stream of requests asks for their commands
* `ClientSession.handed_of_run`: a session hands over the replies to what it has executed
* `Rpc.Joined.of_step`: what every event keeps
* `Rpc.executed_at_most_once`: a call is executed at most once, and answered with its own reply
-/

namespace ShardCache

open Foundations Resp CommandHandler

/-! ## Streams of requests -/

/-- The bytes of requests, one after the other. -/
def stream (argss : List (List Bytes)) : Bytes := (argss.map command).flatten

section Stream

variable {h : SessionHandler} {argss : List (List Bytes)}

theorem stream_isPrefix {argss' : List (List Bytes)} (hargss : argss <+: argss') :
    stream argss <+: stream argss' := by
  obtain ⟨more, rfl⟩ := hargss
  rw [stream, stream, List.map_append, List.flatten_append]
  exact List.prefix_append _ _

theorem stream_cons (args : List Bytes) (argss : List (List Bytes)) :
    stream (args :: argss) = command args ++ stream argss := rfl

theorem parseRequest_stream_cons {args : List Bytes} (hargs : WithinLimits args) :
    parseRequest (stream (args :: argss)) = .ok args (stream argss) := by
  rw [stream_cons, parseRequest_of_head (head?_command_append args _)]
  exact (whole_command hargs).parse_append (stream argss)

/-- No inline command is in a stream of requests. -/
theorem linesFit_stream (hargss : ∀ args ∈ argss, WithinLimits args) : LinesFit (stream argss) := by
  induction argss with
  | nil => exact linesFit_of_length_le (Nat.zero_le _)
  | cons args argss ih =>
    obtain ⟨hargs, hargss⟩ := List.forall_mem_cons.mp hargss
    intro values rest htakes
    cases htakes with
    | nil =>
      intro hhead
      rw [stream_cons, head?_command_append] at hhead
      exact absurd rfl hhead
    | cons hparse htakes =>
      rw [parseRequest_stream_cons hargs] at hparse
      obtain ⟨rfl, rfl⟩ := Parsed.ok.inj hparse
      exact ih hargss _ _ htakes

/-- **A stream of requests asks for their commands**, up to the first `QUIT`. -/
theorem requests_stream (hargss : ∀ args ∈ argss, args ≠ [] ∧ WithinLimits args) :
    (requests (stream argss)).1 <+: argss.map Parser.parse ∧
      (requests (stream argss)).2 = none := by
  induction argss with
  | nil => exact ⟨List.nil_prefix, rfl⟩
  | cons args argss ih =>
    obtain ⟨⟨hne, hargs⟩, hargss⟩ := List.forall_mem_cons.mp hargss
    obtain ⟨hcommands, herror⟩ := ih hargss
    rw [requests_of_ok (parseRequest_stream_cons hargs), if_neg hne, List.map_cons]
    split
    · exact ⟨List.cons_prefix_cons.mpr ⟨rfl, List.nil_prefix⟩, rfl⟩
    · exact ⟨List.cons_prefix_cons.mpr ⟨rfl, hcommands⟩, herror⟩

/-- The replies to commands, one by one. -/
theorem transcript_eq_flatten (i : ℕ) (cmds : List Command) :
    transcript h i cmds = (cmds.mapIdx fun n cmd => h.execute (i + n) cmd).flatten := by
  induction cmds generalizing i with
  | nil => rfl
  | cons cmd cmds ih =>
    rw [transcript, ih, List.mapIdx_cons, List.flatten_cons]
    simp only [Nat.add_zero, Nat.add_assoc, Nat.add_comm 1]

theorem transcript_isPrefix {cmds cmds' : List Command} (hcmds : cmds <+: cmds') :
    transcript h 0 cmds <+: transcript h 0 cmds' := by
  obtain ⟨more, rfl⟩ := hcmds
  rw [transcript_append]
  exact List.prefix_append _ _

end Stream

/-! ## What a session hands over -/

namespace ClientSession

variable {h : SessionHandler} {s s' : ClientSession} {w u : Bytes}

/-- The bytes that were handed to the connection. -/
def handed (s : ClientSession) : Bytes := s.sent ++ s.writes.flatten

/-- A session hands over replies to what it has executed. -/
theorem Accounts.handed_prefix (hs : Accounts h w u s) (hw : (requests w).2 = none) :
    s.handed <+: transcript h 0 s.executed := by
  have hwritten : s.handed <+: s.written := List.prefix_append _ _
  cases hclosing : s.closing with
  | false =>
    rw [← (hs.running hclosing).2]
    exact hwritten.trans (List.prefix_append _ _)
  | true =>
    obtain ⟨hexecuted, -, -, hanswer⟩ := hs.ending hclosing
    rw [hanswer, answer, hw, hexecuted, List.append_nil] at hwritten
    exact hwritten

/-- A failure of the connection hands over nothing more. -/
theorem handed_of_fails {e : SessionEvent} (hwait : Waiting s) (he : e.fails = true)
    (hstep : step h s e = some s') : s'.handed <+: s.handed := by
  have hnone {writes : List Bytes} (hwrites : writes = [])
      (hs' : s'.handed = s.sent ++ writes.flatten) : s'.handed <+: s.handed := by
    rw [hs', hwrites]
    simp [handed]
  cases e with
  | readFailed =>
    obtain ⟨hreads, hstep⟩ := (Option.ite_none_right_eq_some ..).mp hstep
    obtain rfl := Option.some.inj hstep
    exact hnone (hwait.of_reads hreads).writes rfl
  | writeFailed =>
    obtain ⟨b, writes, hwrites, rfl⟩ := step_writeFailed hstep
    exact hnone (hwait.of_writes hwrites).1.writes rfl
  | _ => cases he

/-- **A session hands over the replies** to what it has executed, whether or not the connection
fails. -/
theorem handed_of_run {events : List SessionEvent} (hw : (requests w).2 = none)
    (hs : Accounts h w (received events ++ u) s) (hwait : Waiting s)
    (hrun : run (step h) s events = some s') :
    s'.handed <+: transcript h 0 s'.executed := by
  induction events generalizing s with
  | nil =>
    obtain rfl : s = s' := by simpa using hrun
    exact hs.handed_prefix hw
  | cons e events ih =>
    obtain ⟨s₁, hstep, hrun⟩ := run_cons_eq_some.mp hrun
    cases he : e.fails with
    | false =>
      have hbytes : received (e :: events) ++ u = e.bytes ++ (received events ++ u) := by
        simp [received]
      rw [hbytes] at hs
      obtain ⟨hs₁, hwait₁⟩ := step_spec hs hwait he hstep
      exact ih hs₁ hwait₁ hrun
    | true =>
      -- a failure ends the run
      obtain ⟨hexecuted, -, hdead⟩ := step_of_fails hwait he hstep
      cases events with
      | nil =>
        obtain rfl : s₁ = s' := by simpa using hrun
        rw [hexecuted]
        exact (handed_of_fails hwait he hstep).trans (hs.handed_prefix hw)
      | cons e' events => simp [run_cons, hdead e'] at hrun

/-! ### What has been executed stays so -/

theorem executed_flush (s : ClientSession) : s.flush.executed = s.executed := by
  unfold flush
  split
  · split <;> rfl
  · rfl

theorem executed_processLoop (fuel : ℕ) (s : ClientSession) :
    s.executed <+: (processLoop h fuel s).executed := by
  induction fuel generalizing s with
  | zero => rw [processLoop, executed_flush]
  | succ fuel ih =>
    rw [processLoop]
    split
    · rw [executed_flush]
    · split
      · rw [executed_flush]
      · rw [executed_flush]
      · rename_i args rest hparse
        split
        · exact ih { s with input := rest }
        · dsimp only
          split
          · have hrest := ih { s with
              input := rest
              output := s.output ++ h.execute s.executed.length (Parser.parse args)
              executed := s.executed ++ [Parser.parse args]
              closing := s.closing || (Parser.parse args).type = .quit }
            exact (List.prefix_append s.executed [Parser.parse args]).trans hrest
          · exact List.prefix_rfl

theorem executed_processInput (s : ClientSession) :
    s.executed <+: (processInput h s).executed := by
  unfold processInput
  split
  · exact List.prefix_rfl
  · exact executed_processLoop _ _

theorem executed_of_step {e : SessionEvent} (hstep : step h s e = some s') :
    s.executed <+: s'.executed := by
  cases e with
  | received chunk =>
    obtain ⟨-, hstep⟩ := (Option.ite_none_right_eq_some ..).mp hstep
    obtain rfl := Option.some.inj hstep
    exact executed_processInput { s with reads := s.reads - 1, input := s.input ++ chunk }
  | readFailed =>
    obtain ⟨-, hstep⟩ := (Option.ite_none_right_eq_some ..).mp hstep
    obtain rfl := Option.some.inj hstep
    exact List.prefix_rfl
  | wrote =>
    obtain ⟨b, writes, -, rfl⟩ := step_wrote hstep
    split
    · exact executed_processInput { s with writes := writes, sent := s.sent ++ b }
    · rw [executed_flush]
  | writeFailed =>
    obtain ⟨b, writes, -, rfl⟩ := step_writeFailed hstep
    exact List.prefix_rfl
  | executed =>
    obtain ⟨cmd, queued, -, rfl⟩ := step_executed hstep
    exact List.prefix_append _ _
  | replied =>
    obtain ⟨reply, replies, -, rfl⟩ := step_replied hstep
    exact executed_processInput { s with
      replies := replies, output := s.output ++ reply, awaitingRpc := false }

end ClientSession

/-! ## What a channel has sent on which connection -/

/-- The call that an event makes. -/
def ChannelEvent.added : ChannelEvent → List (List Bytes)
  | .call args _ => [args]
  | _ => []

namespace PeerChannel

variable {peer peer' : Peer} {timeout : Time} {c c' : PeerChannel} {added : List (List Bytes)}
  {g : ℕ}

/-- The calls that were sent on the connection `g`, in order. -/
def sendsOn (c : PeerChannel) (g : ℕ) : List ℕ := (c.sends.filter fun x => x.2 == g).map Prod.fst

/-- The arguments of calls. -/
def argsOf (c : PeerChannel) (ids : List ℕ) : List (List Bytes) :=
  ids.map fun i => c.calls.getD i []

/-- What an event adds: the calls `added`, and requests that are sent on the current connection. A
new connection starts with none. -/
def Extends (added : List (List Bytes)) (c c' : PeerChannel) : Prop :=
  c'.calls = c.calls ++ added ∧ ∃ new : List ℕ,
    c'.sends = c.sends ++ new.map (fun i => (i, c'.generation)) ∧
    (c'.generation = c.generation ∧ c'.conn.sent = c.conn.sent ++ new ∨
      c.generation < c'.generation ∧ new = [] ∧ c'.conn.sent = [])

theorem Extends.refl (c : PeerChannel) : Extends [] c c :=
  ⟨(List.append_nil _).symm, [], by simp, .inl ⟨rfl, by simp⟩⟩

theorem extends_flush (c : PeerChannel) : Extends [] c c.flush := by
  unfold flush
  split
  · exact Extends.refl c
  · exact ⟨(List.append_nil _).symm, c.conn.unsent, rfl, .inl ⟨rfl, rfl⟩⟩

theorem extends_failAll (c : PeerChannel) (status : RequestStatus) (message : Bytes) :
    Extends [] c (c.failAll status message) :=
  ⟨(List.append_nil _).symm, [], by simp [failAll, resetConnection],
    .inr ⟨Nat.lt_succ_self _, rfl, rfl⟩⟩

theorem extends_handle (c : PeerChannel) (failure : Option Bytes)
    {next : PeerChannel → PeerChannel} (hnext : Extends [] c (next c)) :
    Extends [] c (c.handle failure next) := by
  cases failure with
  | some message => exact extends_failAll c _ _
  | none => exact hnext

theorem extends_completion (hnext : Extends [] c c') (gen : ℕ) :
    Extends [] c (if gen ≠ c.generation then c else c') := by
  split
  · exact Extends.refl c
  · exact hnext

theorem extends_onRead (c : PeerChannel) (chunk : Bytes) : Extends [] c (c.onRead chunk) := by
  unfold onRead
  dsimp only
  split
  · exact ⟨(List.append_nil _).symm, [], by simp [failAll, resetConnection],
      .inr ⟨Nat.lt_succ_self _, rfl, rfl⟩⟩
  · exact Extends.refl c

theorem extends_onTimer (c : PeerChannel) (now : Time) : Extends [] c (c.onTimer now) := by
  unfold onTimer
  dsimp only
  split
  · exact Extends.refl c
  · split
    · exact extends_failAll { c with timerArmed := false } _ _
    · exact Extends.refl c

/-- **What a new call does**: it is queued, and then the channel connects, or sends what is queued,
or waits for the connection. -/
theorem enqueue_cases (timeout : Time) (c : PeerChannel) (args : List Bytes) (now : Time) :
    ∃ d : PeerChannel, (d.calls = c.calls ++ [args] ∧ d.sends = c.sends ∧ d.done = c.done ∧
        d.generation = c.generation ∧ d.state = c.state ∧ d.conn.sent = c.conn.sent ∧
        d.conn.arrived = c.conn.arrived) ∧
      (c.state = .disconnected ∧ c.enqueue timeout args now = d.connect ∨
        c.state = .connected ∧ c.enqueue timeout args now = d.flush ∨
        c.state = .connecting ∧ c.enqueue timeout args now = d) := by
  -- the call is queued, and the timer is armed unless it is already
  let queued : PeerChannel := { c with
    queued := c.queued ++ command args
    pending := c.pending ++ [⟨c.calls.length, now + timeout⟩]
    conn := { c.conn with unsent := c.conn.unsent ++ [c.calls.length] }
    calls := c.calls ++ [args] }
  let armed : PeerChannel :=
    if c.timerArmed then queued else { queued with timerArmed := true, waits := c.waits + 1 }
  have hstate : armed.state = c.state := by
    dsimp only [armed]
    split <;> rfl
  refine ⟨armed, ⟨?_, ?_, ?_, ?_, hstate, ?_, ?_⟩, ?_⟩
  case refine_7 =>
    rw [← hstate]
    unfold enqueue
    dsimp only
    split
    · rename_i hdis
      exact .inl ⟨hdis, rfl⟩
    · rename_i hconnected
      exact .inr (.inl ⟨hconnected, rfl⟩)
    · rename_i hconnecting
      exact .inr (.inr ⟨hconnecting, rfl⟩)
  all_goals
    dsimp only [armed]
    split <;> rfl

/-- A call is sent at once if the channel is connected; a new connection is one on which nothing was
sent. -/
theorem extends_enqueue (hfresh : c.state = .disconnected → c.conn.sent = []) (args : List Bytes)
    (now : Time) : Extends [args] c (c.enqueue timeout args now) := by
  obtain ⟨d, ⟨hcalls, hsends, -, hgen, -, hsent, -⟩, ⟨hdis, heq⟩ | ⟨-, heq⟩ | ⟨-, heq⟩⟩ :=
    enqueue_cases timeout c args now
  · rw [heq]
    refine ⟨hcalls, [], by simp [connect, hsends], .inr ⟨?_, rfl, hsent.trans (hfresh hdis)⟩⟩
    simp [connect, hgen]
  · rw [heq]
    obtain ⟨hflush, new, hnew, hcases⟩ := extends_flush d
    refine ⟨by rw [hflush, hcalls, List.append_nil], new, hsends ▸ hnew, ?_⟩
    rw [← hgen, ← hsent]
    exact hcases
  · rw [heq]
    exact ⟨hcalls, [], by simp [hsends], .inl ⟨hgen, by simp [hsent]⟩⟩

/-- **What an event adds** to what was sent. -/
theorem extends_of_step (hinv : Inv peer c) {event : ChannelEvent}
    (hstep : c.step peer timeout event = some c') : Extends event.added c c' := by
  cases event with
  | call args now =>
    obtain rfl := Option.some.inj hstep
    exact extends_enqueue (fun hstate => (hinv.fresh hstate).1) args now
  | close =>
    obtain rfl := Option.some.inj hstep
    exact extends_failAll c _ _
  | resolved gen failure =>
    obtain ⟨-, hstep⟩ := Option.ite_none_right_eq_some.mp hstep
    obtain rfl := Option.some.inj hstep
    refine extends_completion (c := { c with resolves := c.resolves.erase gen }) ?_ gen
    exact extends_handle _ failure (Extends.refl c)
  | connected gen failure =>
    obtain ⟨-, hstep⟩ := Option.ite_none_right_eq_some.mp hstep
    obtain rfl := Option.some.inj hstep
    refine extends_completion (c := { c with connects := c.connects.erase gen }) ?_ gen
    refine extends_handle _ failure ?_
    exact extends_flush (read { c with connects := c.connects.erase gen, state := .connected })
  | wrote gen failure =>
    obtain ⟨-, hstep⟩ := Option.ite_none_right_eq_some.mp hstep
    obtain rfl := Option.some.inj hstep
    refine extends_completion (c := { c with writes := c.writes.erase gen }) ?_ gen
    refine extends_handle
      { c with writes := c.writes.erase gen, writing := false, inWrite := [] } failure ?_
    exact extends_flush _
  | received gen chunk =>
    obtain ⟨-, hstep⟩ := Option.ite_none_right_eq_some.mp hstep
    obtain rfl := Option.some.inj hstep
    refine extends_completion (c := { c with reads := c.reads.erase gen }) ?_ gen
    exact extends_onRead _ chunk
  | readFailed gen message =>
    obtain ⟨-, hstep⟩ := Option.ite_none_right_eq_some.mp hstep
    obtain rfl := Option.some.inj hstep
    refine extends_completion (c := { c with reads := c.reads.erase gen }) ?_ gen
    exact extends_failAll _ _ _
  | timer now =>
    obtain ⟨-, hstep⟩ := Option.ite_none_right_eq_some.mp hstep
    obtain rfl := Option.some.inj hstep
    exact extends_onTimer { c with waits := c.waits - 1 } now

/-- An event that brings no reply: no callback is called with one, and what has arrived stays, or
the connection is a new one. -/
def Silent (c c' : PeerChannel) : Prop :=
  (∀ r ∈ c'.done, ∀ v, r.result = .success v → r ∈ c.done) ∧
    (c'.generation = c.generation ∧ c'.conn.arrived = c.conn.arrived ∨ c'.conn.arrived = [])

theorem Silent.refl (c : PeerChannel) : Silent c c := ⟨fun _ hr _ _ => hr, .inl ⟨rfl, rfl⟩⟩

theorem silent_flush (c : PeerChannel) : Silent c c.flush := by
  unfold flush
  split
  · exact Silent.refl c
  · exact ⟨fun _ hr _ _ => hr, .inl ⟨rfl, rfl⟩⟩

theorem silent_failAll (c : PeerChannel) (status : RequestStatus) (message : Bytes) :
    Silent c (c.failAll status message) := by
  refine ⟨fun r hr v hv => ?_, .inr rfl⟩
  obtain hr | hr := List.mem_append.mp hr
  · exact hr
  · obtain ⟨p, -, rfl⟩ := List.mem_map.mp hr
    cases hv

theorem silent_handle (c : PeerChannel) (failure : Option Bytes)
    {next : PeerChannel → PeerChannel} (hnext : Silent c (next c)) :
    Silent c (c.handle failure next) := by
  cases failure with
  | some message => exact silent_failAll c _ _
  | none => exact hnext

theorem silent_completion (hnext : Silent c c') (gen : ℕ) :
    Silent c (if gen ≠ c.generation then c else c') := by
  split
  · exact Silent.refl c
  · exact hnext

theorem silent_enqueue (hfresh : c.state = .disconnected → c.conn.arrived = []) (args : List Bytes)
    (now : Time) : Silent c (c.enqueue timeout args now) := by
  obtain ⟨d, ⟨-, -, hdone, hgen, -, -, harrived⟩, ⟨hdis, heq⟩ | ⟨-, heq⟩ | ⟨-, heq⟩⟩ :=
    enqueue_cases timeout c args now
  · rw [heq]
    exact ⟨fun r hr v hv => hdone ▸ hr, .inr (harrived.trans (hfresh hdis))⟩
  · rw [heq]
    obtain ⟨hsuccess, hflush⟩ := silent_flush d
    refine ⟨fun r hr v hv => hdone ▸ hsuccess r hr v hv, ?_⟩
    rw [← hgen, ← harrived]
    exact hflush
  · rw [heq]
    exact ⟨fun r hr v hv => hdone ▸ hr, .inl ⟨hgen, harrived⟩⟩

theorem silent_onTimer (c : PeerChannel) (now : Time) : Silent c (c.onTimer now) := by
  unfold onTimer
  dsimp only
  split
  · exact Silent.refl c
  · split
    · exact silent_failAll { c with timerArmed := false } _ _
    · exact Silent.refl c

/-- Only the arrival of bytes brings replies. -/
theorem silent_of_step (hinv : Inv peer c) {event : ChannelEvent}
    (hstep : c.step peer timeout event = some c')
    (hevent : ∀ gen chunk, event ≠ .received gen chunk) : Silent c c' := by
  cases event with
  | call args now =>
    obtain rfl := Option.some.inj hstep
    exact silent_enqueue (fun hstate => (hinv.fresh hstate).2) args now
  | close =>
    obtain rfl := Option.some.inj hstep
    exact silent_failAll c _ _
  | resolved gen failure =>
    obtain ⟨-, hstep⟩ := Option.ite_none_right_eq_some.mp hstep
    obtain rfl := Option.some.inj hstep
    refine silent_completion (c := { c with resolves := c.resolves.erase gen }) ?_ gen
    exact silent_handle _ failure (Silent.refl c)
  | connected gen failure =>
    obtain ⟨-, hstep⟩ := Option.ite_none_right_eq_some.mp hstep
    obtain rfl := Option.some.inj hstep
    refine silent_completion (c := { c with connects := c.connects.erase gen }) ?_ gen
    refine silent_handle _ failure ?_
    exact silent_flush (read { c with connects := c.connects.erase gen, state := .connected })
  | wrote gen failure =>
    obtain ⟨-, hstep⟩ := Option.ite_none_right_eq_some.mp hstep
    obtain rfl := Option.some.inj hstep
    refine silent_completion (c := { c with writes := c.writes.erase gen }) ?_ gen
    refine silent_handle
      { c with writes := c.writes.erase gen, writing := false, inWrite := [] } failure ?_
    exact silent_flush _
  | received gen chunk => exact absurd rfl (hevent gen chunk)
  | readFailed gen message =>
    obtain ⟨-, hstep⟩ := Option.ite_none_right_eq_some.mp hstep
    obtain rfl := Option.some.inj hstep
    refine silent_completion (c := { c with reads := c.reads.erase gen }) ?_ gen
    exact silent_failAll _ _ _
  | timer now =>
    obtain ⟨-, hstep⟩ := Option.ite_none_right_eq_some.mp hstep
    obtain rfl := Option.some.inj hstep
    exact silent_onTimer { c with waits := c.waits - 1 } now

/-- Bytes that arrive call the callbacks of the calls that are answered with them. -/
theorem onRead_spec (hc : Inv peer c) {chunk : Bytes}
    (hchunk : c.conn.arrived ++ chunk <+: c.repliesTo peer c.conn.sent) :
    (c.onRead chunk).generation = c.generation ∧
      (c.onRead chunk).conn.arrived = c.conn.arrived ++ chunk ∧
      (c.onRead chunk).conn.sent = c.conn.sent ∧
      ∀ r ∈ (c.onRead chunk).done, r ∈ c.done ∨
        r.generation = c.generation ∧
          r.call ∈ c.conn.sent.take (c.onRead chunk).conn.answered := by
  obtain ⟨k, rest, hk, hrest, hmatch⟩ :=
    matchReplies_spec (peer.whole c.generation) hc.order (hc.rx_append_le hchunk)
  have hlen : ((c.conn.sent.drop c.conn.answered).take k).length = k := List.length_take_of_le hk
  simp only [PeerChannel.onRead, hmatch, Bool.false_eq_true, if_false, List.length_map, hlen, read]
  refine ⟨trivial, trivial, trivial, fun r hr => ?_⟩
  obtain hr | hr := List.mem_append.mp hr
  · exact .inl hr
  · -- the call is among the next `k` on the connection
    rw [List.map_map] at hr
    obtain ⟨i, hi, rfl⟩ := List.mem_map.mp hr
    refine .inr ⟨rfl, ?_⟩
    rw [List.take_add]
    exact List.mem_append_right _ hi

/-- The calls that are recorded for the current connection are those sent on it. -/
structure Sends (c : PeerChannel) : Prop where
  le : ∀ x ∈ c.sends, x.2 ≤ c.generation
  current : c.sendsOn c.generation = c.conn.sent

theorem sends_empty : Sends {} := ⟨nofun, rfl⟩

/-- What an event adds to the calls of a connection. -/
theorem Extends.sendsOn {new : List ℕ}
    (hsends : c'.sends = c.sends ++ new.map fun i => (i, c'.generation)) (g : ℕ) :
    c'.sendsOn g = c.sendsOn g ++ if g = c'.generation then new else [] := by
  unfold PeerChannel.sendsOn
  rw [hsends, List.filter_append, List.map_append]
  congr 1
  by_cases hg : g = c'.generation
  · subst hg
    rw [if_pos rfl, List.filter_eq_self.mpr (by simp), List.map_map]
    exact List.map_id' new
  · rw [if_neg hg, List.filter_eq_nil_iff.mpr (by simp [Ne.symm hg]), List.map_nil]

theorem Sends.of_extends (h : Sends c) (hext : Extends added c c') : Sends c' := by
  obtain ⟨-, new, hsends, hcases⟩ := hext
  have hle : c.generation ≤ c'.generation := by
    obtain ⟨hgen, -⟩ | ⟨hgen, -⟩ := hcases <;> omega
  constructor
  · intro x hx
    rw [hsends, List.mem_append] at hx
    obtain hx | hx := hx
    · exact (h.le x hx).trans hle
    · obtain ⟨i, -, rfl⟩ := List.mem_map.mp hx
      exact le_rfl
  · rw [Extends.sendsOn hsends, if_pos rfl]
    obtain ⟨hgen, hsent⟩ | ⟨hgen, rfl, hsent⟩ := hcases
    · rw [hgen, h.current, hsent]
    · -- nothing was sent on a connection that is new
      have hnone : c.sends.filter (fun x => x.2 == c'.generation) = [] := by
        refine List.filter_eq_nil_iff.mpr fun x hx => ?_
        have := h.le x hx
        simp only [beq_iff_eq]
        omega
      rw [hsent, PeerChannel.sendsOn, hnone]
      rfl

/-- What was sent on a connection is only added to. -/
theorem sendsOn_prefix (hext : Extends added c c') (g : ℕ) : c.sendsOn g <+: c'.sendsOn g := by
  obtain ⟨-, new, hsends, -⟩ := hext
  rw [Extends.sendsOn hsends]
  exact List.prefix_append _ _

theorem mem_sendsOn {i : ℕ} : i ∈ c.sendsOn g ↔ (i, g) ∈ c.sends := by
  simp [sendsOn]

/-- Two peers that answer alike what was sent so far. -/
def Agree (peer peer' : Peer) (c : PeerChannel) : Prop :=
  ∀ i g, (i, g) ∈ c.sends → peer'.reply g i = peer.reply g i ∧ peer'.value g i = peer.value g i

theorem Agree.repliesTo (hsame : Agree peer peer' c) (hc : Inv peer c) {ids : List ℕ}
    (hids : ∀ i ∈ ids, i ∈ c.conn.sent) : c.repliesTo peer' ids = c.repliesTo peer ids := by
  unfold PeerChannel.repliesTo
  rw [List.map_congr_left fun i hi => (hsame i _ (hc.recorded i (hids i hi))).1]

/-- The invariant of a channel speaks of the replies to what was sent only. -/
theorem Agree.inv (hsame : Agree peer peer' c) (hc : Inv peer c) : Inv peer' c := by
  exact {
    order := hc.order
    answered_le := hc.answered_le
    consumed := by
      rw [hsame.repliesTo hc fun i hi => List.mem_of_mem_take hi]
      exact hc.consumed
    arrived := by
      rw [hsame.repliesTo hc fun i hi => hi]
      exact hc.arrived
    fresh := hc.fresh
    recorded := hc.recorded
    known := hc.known
    sent_once := hc.sent_once
    queued := hc.queued
    written := hc.written
    once := hc.once
    results := by
      intro r hr v hv
      obtain ⟨hmem, hvalue⟩ := hc.results r hr v hv
      exact ⟨hmem, hvalue.trans (hsame r.call r.generation hmem).2.symm⟩ }

/-- What was asked for on a connection is only added to. -/
theorem argsOf_prefix (hc : Inv peer c) (hext : Extends added c c') (g : ℕ) :
    c.argsOf (c.sendsOn g) <+: c'.argsOf (c'.sendsOn g) := by
  obtain ⟨more, hmore⟩ := sendsOn_prefix hext g
  have hknown (i : ℕ) (hi : i ∈ c.sendsOn g) : c'.calls.getD i [] = c.calls.getD i [] := by
    have hlt := hc.known i (List.mem_append_left _ (List.mem_map_of_mem (mem_sendsOn.mp hi)))
    rw [hext.1, List.getD_append _ _ _ _ hlt]
  rw [argsOf, argsOf, ← hmore, List.map_append, List.map_congr_left hknown]
  exact List.prefix_append _ _

theorem nodup_sendsOn (hc : Inv peer c) (g : ℕ) : (c.sendsOn g).Nodup := by
  have honce : (c.sends.map Prod.fst).Nodup := List.Nodup.of_append_left hc.sent_once
  exact honce.sublist (List.filter_sublist.map _)

/-- What the peer has handed to the current connection, `socket`, arrives in order and cut anywhere;
the other events have nothing to do with the peer. -/
def stepFrom (timeout : Time) (socket : Bytes) (c : PeerChannel) :
    ChannelEvent → Option PeerChannel
  | .received gen chunk =>
    if gen ∈ c.reads ∧ chunk ≠ [] ∧ chunk.length ≤ 64 * 1024 ∧
        (gen = c.generation → c.conn.arrived ++ chunk <+: socket) then
      let c := { c with reads := c.reads.erase gen }
      some (if gen ≠ c.generation then c else c.onRead chunk)
    else none
  | event =>
    c.step ⟨fun _ _ => appendNull, fun _ _ => .null, fun _ _ => whole_appendNull⟩ timeout event

/-- What arrives is what a peer would have sent whose replies are on the connection. -/
theorem step_of_stepFrom {socket : Bytes} {event : ChannelEvent}
    (hsocket : socket <+: c.repliesTo peer c.conn.sent)
    (hstep : c.stepFrom timeout socket event = some c') : c.step peer timeout event = some c' := by
  cases event with
  | received gen chunk =>
    obtain ⟨⟨hreads, hne, hlen, harrived⟩, hstep⟩ := Option.ite_none_right_eq_some.mp hstep
    refine Option.ite_none_right_eq_some.mpr ⟨⟨hreads, hne, hlen, ?_⟩, hstep⟩
    rintro rfl
    exact (harrived rfl).trans hsocket
  | _ => exact hstep

/-- **What an event brings**: what has arrived on the connection stays or was handed over by the
peer, and a callback that is called with a reply belongs to a call that is answered on this
connection. -/
theorem brings_of_stepFrom {socket : Bytes} {event : ChannelEvent} (hc : Inv peer c)
    (hsocket : socket <+: c.repliesTo peer c.conn.sent)
    (hstep : c.stepFrom timeout socket event = some c') :
    (c'.conn.arrived = [] ∨ c'.generation = c.generation ∧
      (c'.conn.arrived = c.conn.arrived ∨ c'.conn.arrived <+: socket)) ∧
    ∀ r ∈ c'.done, ∀ v, r.result = .success v → r ∈ c.done ∨
      r.generation = c'.generation ∧ r.call ∈ c'.conn.sent.take c'.conn.answered := by
  by_cases hevent : ∀ gen chunk, event ≠ .received gen chunk
  · obtain ⟨hdone, harrived⟩ := silent_of_step hc (step_of_stepFrom hsocket hstep) hevent
    refine ⟨?_, fun r hr v hv => .inl (hdone r hr v hv)⟩
    obtain ⟨hgen, harrived⟩ | harrived := harrived
    · exact .inr ⟨hgen, .inl harrived⟩
    · exact .inl harrived
  · push Not at hevent
    obtain ⟨gen, chunk, rfl⟩ := hevent
    obtain ⟨⟨-, -, -, hchunk⟩, hstep⟩ := Option.ite_none_right_eq_some.mp hstep
    obtain rfl := Option.some.inj hstep
    dsimp only
    split
    · exact ⟨.inr ⟨rfl, .inl rfl⟩, fun r hr _ _ => .inl hr⟩
    · rename_i hgen
      have harrived := hchunk (not_not.mp hgen)
      have hreads : Inv peer { c with reads := c.reads.erase gen } := hc.withOps ..
      obtain ⟨hsame, heq, hsent, hdone⟩ := onRead_spec hreads (harrived.trans hsocket)
      refine ⟨.inr ⟨hsame, .inr (heq ▸ harrived)⟩, fun r hr _ _ => ?_⟩
      rw [hsame, hsent]
      exact hdone r hr

end PeerChannel

/-! ## Both sides -/

/-- A channel, the sessions of the peer, one for each connection, the bytes that were handed to each
connection, and those of them that have arrived at its session. -/
structure Rpc where
  channel : PeerChannel := {}
  sessions : ℕ → ClientSession := fun _ => .start
  wire : ℕ → Bytes := fun _ => []
  taken : ℕ → Bytes := fun _ => []

/-- An event on the strand of the channel, or one of the session of a connection. -/
inductive RpcEvent where
  | channel (event : ChannelEvent)
  | session (g : ℕ) (event : SessionEvent)
deriving DecidableEq, Repr

/-- The calls that are made are requests of nodes, within the limits of the protocol. -/
def RpcEvent.OfNodes : RpcEvent → Prop
  | .channel event => ∀ args ∈ event.added, SentByNodes args ∧ WithinLimits args
  | .session _ _ => True

/-- A session answers the requests of nodes as a node does. -/
def SessionHandler.ServesNodes (h : SessionHandler) : Prop :=
  ∀ args, SentByNodes args → ∀ n, Served (Parser.parse args) (h.execute n (Parser.parse args))

namespace Rpc

variable (h : ℕ → SessionHandler) (timeout : Time)

/-- One event; `h` is what the sessions answer. -/
def step (s : Rpc) : RpcEvent → Option Rpc
  | .channel event =>
    (s.channel.stepFrom timeout (s.sessions s.channel.generation).handed event).map fun channel =>
      { s with
        channel := channel
        wire := Function.update s.wire channel.generation channel.conn.written }
  | .session g event =>
    if s.taken g ++ event.bytes <+: s.wire g then
      ((s.sessions g).step (h g) event).map fun session =>
        { s with
          sessions := Function.update s.sessions g session
          taken := Function.update s.taken g (s.taken g ++ event.bytes) }
    else none

/-- A request that can be sent, and that is answered with one reply. -/
def Fits (args : List Bytes) : Prop :=
  args ≠ [] ∧ WithinLimits args ∧ ∀ g n, OneReply ((h g).execute n (Parser.parse args))

/-- The calls that are made can be sent. -/
def EventFits : RpcEvent → Prop
  | .channel event => ∀ args ∈ event.added, Fits h args
  | .session _ _ => True

variable {h} in
/-- Requests of nodes can be sent. -/
theorem eventFits_of_nodes (hserved : ∀ g, (h g).ServesNodes) {event : RpcEvent}
    (hnodes : event.OfNodes) : EventFits h event := by
  cases event with
  | session g event => trivial
  | channel event =>
    intro args hadded
    obtain ⟨hsent, hlimits⟩ := hnodes args hadded
    exact ⟨hsent.ne_nil, hlimits, fun g n => (hserved g args hsent n).oneReply hsent⟩

/-- What the session of the connection `g` answers to the call `i`. -/
def answerTo (c : PeerChannel) (g i : ℕ) : Bytes :=
  (h g).execute ((c.sendsOn g).idxOf i) (Parser.parse (c.calls.getD i []))

open Classical in
/-- The bytes, if they are one reply. -/
noncomputable def oneReply (reply : Bytes) : Bytes :=
  if OneReply reply then reply else appendNull

theorem oneReply_whole (reply : Bytes) : ∃ v, parseReply.Whole v (oneReply reply) := by
  unfold oneReply
  split
  · assumption
  · exact oneReply_null

/-- The sessions as the peer of the channel. -/
noncomputable def peer (c : PeerChannel) : Peer where
  reply g i := oneReply (answerTo h c g i)
  value g i := (oneReply_whole (answerTo h c g i)).choose
  whole g i := (oneReply_whole (answerTo h c g i)).choose_spec

/-- What ties the two sides together: what was sent on a connection is what its session reads. -/
structure Linked (s : Rpc) : Prop where
  inv : PeerChannel.Inv (peer h s.channel) s.channel
  sends : s.channel.Sends
  fits : ∀ args ∈ s.channel.calls, Fits h args
  wire : ∀ g, s.wire g = stream (s.channel.argsOf (s.channel.sendsOn g))
  session : ∀ g, ∃ events, run (ClientSession.step (h g)) .start events = some (s.sessions g) ∧
    received events = s.taken g
  taken : ∀ g, s.taken g <+: s.wire g

/-- What is true of both sides: what arrives was executed before. -/
structure Joined (s : Rpc) : Prop extends Linked h s where
  arrived : s.channel.conn.arrived <+:
    transcript (h s.channel.generation) 0 (s.sessions s.channel.generation).executed
  done : ∀ r ∈ s.channel.done, ∀ v, r.result = .success v →
    (s.channel.sendsOn r.generation).idxOf r.call < (s.sessions r.generation).executed.length

variable {h timeout} {s s' : Rpc} {c c' : PeerChannel} {added : List (List Bytes)} {g i : ℕ}

theorem joined_start : Joined h {} where
  inv := PeerChannel.inv_empty
  sends := PeerChannel.sends_empty
  fits := nofun
  wire _ := rfl
  session _ := ⟨[], rfl, rfl⟩
  taken _ := List.prefix_rfl
  arrived := List.nil_prefix
  done := nofun

/-! ### The peer -/

/-- A channel that has sent more has the same peer for what it had sent. -/
theorem peer_agree (hinv : PeerChannel.Inv (peer h c) c) (hext : PeerChannel.Extends added c c') :
    PeerChannel.Agree (peer h c) (peer h c') c := by
  intro i g hsent
  have hmem : i ∈ c.sendsOn g := PeerChannel.mem_sendsOn.mpr hsent
  have hknown : i < c.calls.length :=
    hinv.known i (List.mem_append_left _ (List.mem_map_of_mem hsent))
  have hanswer : answerTo h c' g i = answerTo h c g i := by
    obtain ⟨more, hmore⟩ := PeerChannel.sendsOn_prefix hext g
    rw [answerTo, answerTo, ← hmore, hext.1, List.idxOf_append_of_mem hmem,
      List.getD_append _ _ _ _ hknown]
  simp only [peer, hanswer, and_self]

theorem map_idxOf {α β γ : Type} [DecidableEq α] {ids : List α} (hnodup : ids.Nodup)
    (f : ℕ → β → γ) (a : α → β) :
    (ids.map fun i => f (ids.idxOf i) (a i)) = (ids.map a).mapIdx f := by
  refine List.ext_getElem (by simp) fun n hn _ => ?_
  simp [hnodup.idxOf_getElem]

/-- What was sent can be sent, and is answered with one reply. -/
theorem Linked.fits_of_mem (hl : Linked h s) (hi : i ∈ s.channel.sendsOn g) :
    Fits h (s.channel.calls.getD i []) := by
  have hknown : i < s.channel.calls.length := hl.inv.known i
    (List.mem_append_left _ (List.mem_map_of_mem (PeerChannel.mem_sendsOn.mp hi)))
  refine hl.fits _ ?_
  rw [List.getD_eq_getElem _ _ hknown]
  exact List.getElem_mem hknown

theorem Linked.reply_eq (hl : Linked h s) (hi : i ∈ s.channel.sendsOn g) :
    (peer h s.channel).reply g i = answerTo h s.channel g i :=
  if_pos ((hl.fits_of_mem hi).2.2 g _)

/-- The replies of the peer to what was sent on a connection are those of its session. -/
theorem Linked.replies_eq (hl : Linked h s) (g : ℕ) :
    ((s.channel.sendsOn g).map ((peer h s.channel).reply g)) =
      ((s.channel.argsOf (s.channel.sendsOn g)).map Parser.parse).mapIdx (h g).execute := by
  have hnodup := PeerChannel.nodup_sendsOn hl.inv g
  rw [List.map_congr_left fun i hi => hl.reply_eq hi, PeerChannel.argsOf, List.map_map]
  exact map_idxOf hnodup (h g).execute fun i => Parser.parse (s.channel.calls.getD i [])

/-- **A session on its connection** executes the commands of the calls, in order, and hands over
replies to what it has executed. -/
theorem Linked.session_spec (hl : Linked h s) (g : ℕ) :
    (s.sessions g).executed <+:
        (s.channel.argsOf (s.channel.sendsOn g)).map Parser.parse ∧
      (s.sessions g).handed <+: transcript (h g) 0 (s.sessions g).executed := by
  obtain ⟨events, hrun, hevents⟩ := hl.session g
  have hfits : ∀ args ∈ s.channel.argsOf (s.channel.sendsOn g), args ≠ [] ∧ WithinLimits args := by
    intro args hargs
    obtain ⟨i, hi, rfl⟩ := List.mem_map.mp hargs
    obtain ⟨hne, hlimits, -⟩ := hl.fits_of_mem hi
    exact ⟨hne, hlimits⟩
  obtain ⟨hcommands, hnone⟩ := requests_stream hfits
  have hlines := linesFit_stream fun args hargs => (hfits args hargs).2
  obtain ⟨rest, hrest⟩ := hl.taken g
  rw [hl.wire g, ← hevents] at hrest
  rw [← hrest] at hcommands hnone hlines
  have hstart := ClientSession.accounts_start (h := h g) hlines
  exact ⟨(ClientSession.run_spec hstart ClientSession.waiting_start hrun).1.1.trans hcommands,
    ClientSession.handed_of_run hnone hstart ClientSession.waiting_start hrun⟩

/-- The replies to all that was sent on the current connection. -/
theorem Linked.repliesTo_eq (hl : Linked h s) :
    s.channel.repliesTo (peer h s.channel) s.channel.conn.sent =
      transcript (h s.channel.generation) 0
        ((s.channel.argsOf (s.channel.sendsOn s.channel.generation)).map Parser.parse) := by
  rw [PeerChannel.repliesTo, ← hl.sends.current, hl.replies_eq, transcript_eq_flatten]
  simp only [Nat.zero_add]

/-- What the session has handed over is what the channel was assumed to be sent. -/
theorem Linked.handed_prefix (hl : Linked h s) :
    (s.sessions s.channel.generation).handed <+:
      s.channel.repliesTo (peer h s.channel) s.channel.conn.sent := by
  obtain ⟨hexecuted, hhanded⟩ := hl.session_spec s.channel.generation
  rw [hl.repliesTo_eq]
  exact hhanded.trans (transcript_isPrefix hexecuted)

theorem reply_ne_nil {v : RespValue} {reply : Bytes} (hreply : parseReply.Whole v reply) :
    reply ≠ [] := by
  rintro rfl
  cases hreply

/-- Of lists that are not empty, more have more elements. -/
theorem le_of_flatten_take {α : Type} (ls : List (List α)) (hne : ∀ l ∈ ls, l ≠ []) {a b : ℕ}
    (ha : a ≤ ls.length) (hle : (ls.take a).flatten <+: (ls.take b).flatten) : a ≤ b := by
  by_contra hlt
  have hsplit : ls.take a = ls.take b ++ (ls.drop b).take (a - b) := by
    rw [← List.take_add, Nat.add_sub_cancel' (Nat.le_of_not_le hlt)]
  rw [hsplit, List.flatten_append] at hle
  have hnil : ((ls.drop b).take (a - b)).flatten = [] :=
    List.prefix_nil.mp ((List.prefix_append_right_inj (ls.take b).flatten).mp (by simpa using hle))
  have hb : b < ls.length := by omega
  have hmem : ls[b] ∈ (ls.drop b).take (a - b) :=
    List.mem_iff_getElem.mpr ⟨0, by simp; omega, by simp⟩
  exact hne _ (List.getElem_mem hb) (List.flatten_eq_nil_iff.mp hnil _ hmem)

/-- What is answered was executed, if what has arrived was. -/
theorem Linked.answered_le (hl : Linked h s) (harrived : s.channel.conn.arrived <+:
      transcript (h s.channel.generation) 0 (s.sessions s.channel.generation).executed) :
    s.channel.conn.answered ≤ (s.sessions s.channel.generation).executed.length := by
  have hreplies := hl.replies_eq s.channel.generation
  obtain ⟨⟨more, hmore⟩, -⟩ := hl.session_spec s.channel.generation
  rw [← hmore, List.mapIdx_append, hl.sends.current] at hreplies
  -- both are numbers of replies to what was sent on the connection
  have hexecuted : (s.channel.conn.sent.map ((peer h s.channel).reply s.channel.generation)).take
      (s.sessions s.channel.generation).executed.length =
      (s.sessions s.channel.generation).executed.mapIdx (h s.channel.generation).execute := by
    rw [hreplies, List.take_left' (List.length_mapIdx)]
  refine le_of_flatten_take
    (s.channel.conn.sent.map ((peer h s.channel).reply s.channel.generation)) ?_ ?_ ?_
  · intro reply hreply
    obtain ⟨i, -, rfl⟩ := List.mem_map.mp hreply
    exact reply_ne_nil ((peer h s.channel).whole s.channel.generation i)
  · rw [List.length_map]
    exact hl.inv.answered_le
  · rw [hexecuted, ← List.map_take]
    refine List.IsPrefix.trans ⟨s.channel.rx, hl.inv.consumed⟩ ?_
    rw [transcript_eq_flatten] at harrived
    simpa only [Nat.zero_add] using harrived

/-! ### What every event keeps -/

/-- An event of the channel. -/
theorem Linked.of_channel (hl : Linked h s) {event : ChannelEvent}
    (hcall : EventFits h (.channel event))
    (hstep : s.channel.stepFrom timeout (s.sessions s.channel.generation).handed event = some c') :
    Linked h { s with
      channel := c', wire := Function.update s.wire c'.generation c'.conn.written } := by
  have hsocket := hl.handed_prefix
  have hext := PeerChannel.extends_of_step hl.inv (PeerChannel.step_of_stepFrom hsocket hstep)
  -- the peer is the one that also answers what is sent now
  have hagree := peer_agree hl.inv hext
  rw [← hagree.repliesTo hl.inv fun i hi => hi] at hsocket
  have hinv := (hagree.inv hl.inv).step (PeerChannel.step_of_stepFrom hsocket hstep)
  have hsends := hl.sends.of_extends hext
  have hargs (g : ℕ) := PeerChannel.argsOf_prefix hl.inv hext g
  have hwire (g : ℕ) : Function.update s.wire c'.generation c'.conn.written g =
      stream (c'.argsOf (c'.sendsOn g)) := by
    by_cases hg : g = c'.generation
    · subst hg
      rw [Function.update_self, hinv.written, hsends.current]
      simp [PeerChannel.requestsOf, stream, PeerChannel.argsOf, Function.comp_def]
    · obtain ⟨-, new, hnew, -⟩ := hext
      have hsame : (c'.sendsOn g).length = (s.channel.sendsOn g).length := by
        rw [PeerChannel.Extends.sendsOn hnew, if_neg hg, List.append_nil]
      rw [Function.update_of_ne hg, hl.wire,
        (hargs g).eq_of_length (by simp [PeerChannel.argsOf, hsame])]
  exact {
    inv := hinv
    sends := hsends
    fits := by
      intro args hmem
      obtain hmem | hmem := List.mem_append.mp (hext.1 ▸ hmem)
      · exact hl.fits args hmem
      · exact hcall args hmem
    wire := hwire
    session := hl.session
    taken := by
      intro g
      have htaken := hl.taken g
      rw [hl.wire] at htaken
      exact (htaken.trans (stream_isPrefix (hargs g))).trans (hwire g ▸ List.prefix_rfl) }

theorem Joined.of_channel (hj : Joined h s) {event : ChannelEvent}
    (hcall : EventFits h (.channel event))
    (hstep : s.channel.stepFrom timeout (s.sessions s.channel.generation).handed event = some c') :
    Joined h { s with
      channel := c', wire := Function.update s.wire c'.generation c'.conn.written } := by
  have hsocket := hj.handed_prefix
  have hl := hj.toLinked.of_channel hcall hstep
  have hext := PeerChannel.extends_of_step hj.inv (PeerChannel.step_of_stepFrom hsocket hstep)
  obtain ⟨hbrings, hdone⟩ := PeerChannel.brings_of_stepFrom hj.inv hsocket hstep
  have harrived : c'.conn.arrived <+:
      transcript (h c'.generation) 0 (s.sessions c'.generation).executed := by
    obtain hnil | ⟨hgen, hsame | hhanded⟩ := hbrings
    · exact hnil ▸ List.nil_prefix
    · rw [hsame, hgen]
      exact hj.arrived
    · rw [hgen]
      exact hhanded.trans (hj.session_spec s.channel.generation).2
  refine ⟨hl, harrived, fun r hr v hv => ?_⟩
  obtain hold | ⟨hgen, hnew⟩ := hdone r hr v hv
  · -- the call keeps its place
    obtain ⟨more, hmore⟩ := PeerChannel.sendsOn_prefix hext r.generation
    have hmem := PeerChannel.mem_sendsOn.mpr (hj.inv.results r hold v hv).1
    rw [← hmore, List.idxOf_append_of_mem hmem]
    exact hj.done r hold v hv
  · have hmem : r.call ∈ c'.conn.sent := List.mem_of_mem_take hnew
    rw [hgen, hl.sends.current]
    exact ((List.mem_take_iff_idxOf_lt hmem).mp hnew).trans_le (hl.answered_le harrived)

/-- An event of the session of a connection. -/
theorem Joined.of_session (hj : Joined h s) {event : SessionEvent} {session : ClientSession}
    (hbytes : s.taken g ++ event.bytes <+: s.wire g)
    (hstep : (s.sessions g).step (h g) event = some session) :
    Joined h { s with
      sessions := Function.update s.sessions g session
      taken := Function.update s.taken g (s.taken g ++ event.bytes) } := by
  have hexecuted (g' : ℕ) :
      (s.sessions g').executed <+: (Function.update s.sessions g session g').executed := by
    by_cases hg : g' = g
    · subst hg
      rw [Function.update_self]
      exact ClientSession.executed_of_step hstep
    · rw [Function.update_of_ne hg]
  refine ⟨⟨hj.inv, hj.sends, hj.fits, hj.wire, fun g' => ?_, fun g' => ?_⟩,
    hj.arrived.trans (transcript_isPrefix (hexecuted _)),
    fun r hr v hv => (hj.done r hr v hv).trans_le (hexecuted _).length_le⟩
  · by_cases hg : g' = g
    · subst hg
      obtain ⟨events, hrun, hevents⟩ := hj.session g'
      refine ⟨events ++ [event], ?_, ?_⟩
      · simp [run_append, hrun, run_cons, hstep]
      · simp [received, ← hevents]
    · simpa [Function.update_of_ne hg] using hj.session g'
  · by_cases hg : g' = g
    · subst hg
      simpa using hbytes
    · simpa [Function.update_of_ne hg] using hj.taken g'

/-- **Every event keeps the two sides joined**. -/
theorem Joined.of_step (hj : Joined h s) {event : RpcEvent} (hcall : EventFits h event)
    (hstep : s.step h timeout event = some s') : Joined h s' := by
  cases event with
  | channel event =>
    obtain ⟨c', hevent, rfl⟩ := Option.map_eq_some_iff.mp hstep
    exact hj.of_channel hcall hevent
  | session g event =>
    obtain ⟨hbytes, hstep⟩ := Option.ite_none_right_eq_some.mp hstep
    obtain ⟨session, hevent, rfl⟩ := Option.map_eq_some_iff.mp hstep
    exact hj.of_session hbytes hevent

/-! ## Calls are executed at most once -/

/-- **Calls are executed at most once**: if the calls are requests of nodes and the sessions answer
them as a node does, then whatever the order of events on both sides, however the bytes are cut and
wherever connections fail, every call is sent at most once; the session of a connection executes the
commands of the calls that were sent on it, in order and each at most once; and a callback is called
at most once, with a reply only if its own command was executed, and then with the reply of that
execution. -/
theorem executed_at_most_once (hserved : ∀ g, (h g).ServesNodes) {events : List RpcEvent}
    (hcalls : ∀ e ∈ events, e.OfNodes) (hrun : run (step h timeout) {} events = some s) :
    (s.channel.sends.map Prod.fst).Nodup ∧
    (∀ g, (s.sessions g).executed <+:
      (s.channel.argsOf (s.channel.sendsOn g)).map Parser.parse) ∧
    (s.channel.done.map Called.call).Nodup ∧
    ∀ r ∈ s.channel.done, ∀ v, r.result = .success v →
      ∃ n, (s.channel.sendsOn r.generation)[n]? = some r.call ∧
        ∃ cmd, (s.sessions r.generation).executed[n]? = some cmd ∧
          cmd = Parser.parse (s.channel.calls.getD r.call []) ∧
          parseReply.Whole v ((h r.generation).execute n cmd) := by
  have hj : Joined h s :=
    run_invariant
      (fun _ _ _ hj hcall hstep => Joined.of_step hj (eventFits_of_nodes hserved hcall.1) hstep)
      joined_start ((along_true _ _).and_mem hcalls) hrun
  have hdone : (s.channel.done.map Called.call).Nodup :=
    List.Nodup.of_append_right (hj.inv.once.nodup_iff.mpr List.nodup_range)
  refine ⟨List.Nodup.of_append_left hj.inv.sent_once, fun g => (hj.session_spec g).1, hdone, ?_⟩
  intro r hr v hv
  obtain ⟨hsent, rfl⟩ := hj.inv.results r hr v hv
  have hmem := PeerChannel.mem_sendsOn.mpr hsent
  have hplace := List.idxOf_lt_length_of_mem hmem
  have hlt := hj.done r hr _ hv
  refine ⟨(s.channel.sendsOn r.generation).idxOf r.call, ?_, _, ?_, rfl, ?_⟩
  · rw [List.getElem?_eq_getElem hplace, List.getElem_idxOf]
  · -- what was executed stands in the order of the calls
    obtain ⟨more, hmore⟩ := (hj.session_spec r.generation).1
    rw [← List.getElem?_append_left hlt, hmore, List.getElem?_map, PeerChannel.argsOf,
      List.getElem?_map, List.getElem?_eq_getElem hplace, List.getElem_idxOf]
    rfl
  · have hwhole := (peer h s.channel).whole r.generation r.call
    rw [hj.reply_eq hmem] at hwhole
    exact hwhole

/-- Sessions of a node that held the key before every other write. -/
def alternatingSessions (_ : ℕ) : SessionHandler where
  canServeLocally _ _ _ := true
  execute n cmd := (dispatch (alternating n) cmd ()).2

/-- A request that is cut in two, a reply too; a call that is executed although its connection fails
before the reply, and one that is made after that. -/
def interrupted : List RpcEvent :=
  [.channel (.call deletion.args 0), .channel (.resolved 1 none), .channel (.connected 1 none),
    .session 1 (.received (ascii "*3\r\n$8\r\nREPL_")),
    .session 1 (.received (ascii "DEL\r\n$1\r\nk\r\n$1\r\n7\r\n")), .session 1 .wrote,
    .channel (.received 1 (ascii ":0\r")), .channel (.received 1 (ascii "\n")),
    .channel (.wrote 1 none), .channel (.call (replicaGetCommand [107]) 5),
    .session 1 (.received (ascii "*2\r\n$8\r\nREPL_GET\r\n$1\r\nk\r\n")),
    .channel (.readFailed 1 (ascii "End of file")), .channel (.call deletion.args 9)]

theorem executed_at_most_once_interrupted :
    ∃ s, run (step alternatingSessions 1000) {} interrupted = some s ∧
      s.channel.done.map Called.call = [0, 1] ∧ (s.sessions 1).executed.length = 2 ∧
      ∀ r ∈ s.channel.done, ∀ v, r.result = .success v → ∃ n cmd,
        (s.sessions r.generation).executed[n]? = some cmd ∧
          parseReply.Whole v (dispatch (alternating n) cmd ()).2 := by
  have hobserved : (run (step alternatingSessions 1000) {} interrupted).map (fun s =>
      (s.channel.done.map Called.call, (s.sessions 1).executed.length)) = some ([0, 1], 2) := by
    decide
  have hserved (g : ℕ) : (alternatingSessions g).ServesNodes :=
    fun _ hsent n => served_alternating n hsent
  have hnodes : ∀ e ∈ interrupted, e.OfNodes := by
    have hdeletion := And.intro deletion.sent deletion.limits
    have hread : SentByNodes (replicaGetCommand [107]) ∧ WithinLimits (replicaGetCommand [107]) :=
      ⟨.read [107], by decide⟩
    simp [interrupted, RpcEvent.OfNodes, ChannelEvent.added, hdeletion, hread]
  obtain ⟨s, hrun, hobserved⟩ := Option.map_eq_some_iff.mp hobserved
  obtain ⟨hdone, hexecuted⟩ := Prod.mk.inj hobserved
  refine ⟨s, hrun, hdone, hexecuted, fun r hr v hv => ?_⟩
  obtain ⟨n, -, cmd, hcmd, -, hwhole⟩ := (executed_at_most_once hserved hnodes hrun).2.2.2 r hr v hv
  exact ⟨n, cmd, hcmd, hwhole⟩

end Rpc

end ShardCache
