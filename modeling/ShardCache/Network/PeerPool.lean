import ShardCache.Network.NodeCalls
import ShardCache.Network.PeerChannel

/-!
# Pooled connections to peers

`send_write` and `exchange_gossip` use blocking clients. A pool keeps clients that are connected and
idle; a call takes one or connects a new one, sends one command, reads until its reply is complete
or something fails, and gives the client back if it is still connected. Bytes that were read and not
parsed stay with the client. So a reply that comes late, after a timeout or behind another one,
would be taken for the reply to the next command on that connection.

That does not happen. The peer is a node: it answers replica writes and gossip with one reply each.
So a command returns the reply to its own request or an error, whatever the threads and the timer
do, wherever replies are cut and whatever fails; and a client that is given back has read all that
was answered.

## Main definitions

* `Client`, `Client.Running`: a client, and the locals of `Client::command`
* `PeerPool`, `PeerPool.step`: the pool with the threads that use it, and one step

## Main results

* `PeerPool.Sound.of_step`: what one step keeps
* `PeerPool.pooled_replies_match`: commands over pooled connections return their own replies
-/

namespace ShardCache

open Foundations Resp CommandHandler

/-- A `Client` with its connection, by number. `sent` are the commands whose requests were written
on the connection and `arrived` are the bytes that were read from it; the code has neither. -/
structure Client where
  conn : ℕ
  connected : Bool := true
  rx : Bytes := []
  sent : List NodeCall := []
  arrived : Bytes := []

/-- `disconnect`. -/
def Client.disconnect (c : Client) : Client := { c with connected := false, rx := [] }

/-- The operation on the socket that is outstanding. -/
inductive SocketOp where
  | write
  | read
deriving DecidableEq, Repr

/-- `Client::command` while `io_context_.run()` runs: the handlers that are outstanding, whether the
timer was cancelled, and `timed_out`, `op_ec`, `malformed` and `reply`. -/
structure Client.Running where
  call : NodeCall
  client : Client
  op : Option SocketOp := some .write
  timer : Bool := true
  cancelled : Bool := false
  timedOut : Bool := false
  opEc : Option Bytes := none
  malformed : Bool := false
  reply : RespValue := .null

namespace Client.Running

/-- A handler gets an error. -/
def fail (r : Running) (message : Bytes) : Running :=
  { r with op := none, opEc := some message, cancelled := true }

/-- The handler of a read that brought `chunk`, with `try_parse`. -/
def onRead (r : Running) (chunk : Bytes) : Running :=
  let rx := r.client.rx ++ chunk
  let client := { r.client with rx := rx, arrived := r.client.arrived ++ chunk }
  match parseReply.parse rx with
  | .ok v rest =>
    { r with client := { client with rx := rest }, reply := v, op := none, cancelled := true }
  | .error _ => { r with client := client, malformed := true, op := none, cancelled := true }
  | .incomplete => { r with client := client, malformed := false }

/-- What `command` returns after `run`. -/
def result (r : Running) : CallResult :=
  if r.timedOut then .error .timeout (ascii "Operation timed out")
  else
    match r.opEc with
    | some message => .error .connectionError message
    | none =>
      if r.malformed then .error .protocolError (ascii "Malformed RESP reply")
      else .success r.reply

/-- The client after `command`: every error closes the connection. -/
def clientAfter (r : Running) : Client :=
  if r.timedOut ∨ r.opEc.isSome ∨ r.malformed then r.client.disconnect else r.client

end Client.Running

namespace PeerPool

/-- Where a thread is: connecting since no client was idle, in `command`, or back from it with the
`Lease`. -/
inductive Phase (α : Type) where
  | idle
  | connecting (address : α) (request : NodeRequest)
  | running (address : α) (r : Client.Running)
  | returning (address : α) (c : Client)

/-- A step of a thread: `acquire`, the end of `connect`, the handlers of `command`, its return, and
the end of the `Lease`; or `drop` of an address. -/
inductive Label (ι α : Type) where
  | acquire (i : ι) (address : α) (request : NodeRequest)
  | connected (i : ι) (ok : Bool)
  | wrote (i : ι) (failure : Option Bytes)
  | received (i : ι) (chunk : Bytes)
  | readFailed (i : ι) (message : Bytes)
  | timer (i : ι) (expired : Bool)
  | returns (i : ι)
  | release (i : ι)
  | drop (address : α)

/-- What a command returned, with the connection over which it was sent. -/
structure Returned where
  call : NodeCall
  conn : ℕ
  result : CallResult

end PeerPool

/-- The pool, with threads `ι` and addresses `α`. Clients are moved, as their `unique_ptr`s are.
`conns` counts the connections; `calls` and `done` record the commands and what they returned. -/
structure PeerPool (ι α : Type) where
  idle : α → List Client := fun _ => []
  phase : ι → PeerPool.Phase α := fun _ => .idle
  conns : ℕ := 0
  calls : List NodeRequest := []
  done : List PeerPool.Returned := []

namespace PeerPool

variable {ι α : Type} [DecidableEq ι] [DecidableEq α]

/-- The thread `i` goes on. -/
def setPhase (s : PeerPool ι α) (i : ι) (p : Phase α) : PeerPool ι α :=
  { s with phase := Function.update s.phase i p }

/-- `Client::command`, up to the call of `run`. -/
def command (s : PeerPool ι α) (i : ι) (address : α) (c : Client) (request : NodeRequest) :
    PeerPool ι α :=
  let call := ⟨s.calls.length, request⟩
  let s := { s with calls := s.calls ++ [request] }
  if c.connected then
    s.setPhase i (.running address { call := call, client := { c with sent := c.sent ++ [call] } })
  else
    { s.setPhase i (.returning address c) with
      done := s.done ++
        [⟨call, c.conn, .error .connectionError (ascii "Client is not connected")⟩] }

/-- `acquire`, up to the call of `connect`, with the command behind it. -/
def acquire (s : PeerPool ι α) (i : ι) (address : α) (request : NodeRequest) : PeerPool ι α :=
  match (s.idle address).getLast? with
  | some c =>
    { s with idle := Function.update s.idle address (s.idle address).dropLast }.command i address c
      request
  | none => s.setPhase i (.connecting address request)

/-- `~Lease` and `release`. -/
def release (maxIdle : ℕ) (s : PeerPool ι α) (i : ι) (address : α) (c : Client) : PeerPool ι α :=
  let s := s.setPhase i .idle
  if c.connected ∧ (s.idle address).length < maxIdle then
    { s with idle := Function.update s.idle address (s.idle address ++ [c]) }
  else s

/-- A handler of the command of thread `i` runs. -/
def handle (s : PeerPool ι α) (i : ι) (f : Client.Running → Option Client.Running) :
    Option (PeerPool ι α) :=
  match s.phase i with
  | .running address r => (f r).map fun r => s.setPhase i (.running address r)
  | _ => none

/-- One step. Bytes arrive on a connection as the peer sends them: what it answers to the requests
that were written on it, in order, cut anywhere. `run` returns when no handler is outstanding. -/
def step (maxIdle : ℕ) (answer : ℕ → NodeCall → Bytes) (s : PeerPool ι α) :
    Label ι α → Option (PeerPool ι α)
  | .acquire i address request =>
    match s.phase i with
    | .idle => some (s.acquire i address request)
    | _ => none
  | .connected i ok =>
    match s.phase i with
    | .connecting address request =>
      if ok then
        some ({ s with conns := s.conns + 1 }.command i address { conn := s.conns } request)
      else some (s.setPhase i .idle)
    | _ => none
  | .wrote i failure => s.handle i fun r =>
    if r.op = some .write then
      match failure with
      | some message => some (r.fail message)
      | none => some { r with op := some .read }
    else none
  | .received i chunk => s.handle i fun r =>
    if r.op = some .read ∧ chunk ≠ [] ∧ chunk.length ≤ 16 * 1024 ∧
        r.client.arrived ++ chunk <+: (r.client.sent.map (answer r.client.conn)).flatten then
      some (r.onRead chunk)
    else none
  | .readFailed i message => s.handle i fun r =>
    if r.op = some .read then some (r.fail message) else none
  | .timer i expired => s.handle i fun r =>
    -- a timer that has expired before it was cancelled still runs its handler
    if r.timer ∧ (expired ∨ r.cancelled) then
      some { r with timer := false, timedOut := r.timedOut || expired }
    else none
  | .returns i =>
    match s.phase i with
    | .running address r =>
      if r.op = none ∧ r.timer = false then
        some { s.setPhase i (.returning address r.clientAfter) with
          done := s.done ++ [⟨r.call, r.client.conn, r.result⟩] }
      else none
    | _ => none
  | .release i =>
    match s.phase i with
    | .returning address c => some (s.release maxIdle i address c)
    | _ => none
  | .drop address => some { s with idle := Function.update s.idle address [] }

end PeerPool

/-! ## One command -/

/-- The client has read the replies to all commands that were sent. -/
def Client.Settled (answer : ℕ → NodeCall → Bytes) (c : Client) : Prop :=
  c.rx = [] ∧ c.arrived = (c.sent.map (answer c.conn)).flatten

namespace Client.Running

/-- The replies to earlier commands were read, and a part of the reply to this one. If nothing more
will be read, there is an error. -/
structure Waiting (answer : ℕ → NodeCall → Bytes) (r : Running) : Prop where
  arrived : ∃ earlier, r.client.sent = earlier ++ [r.call] ∧
    r.client.arrived = (earlier.map (answer r.client.conn)).flatten ++ r.client.rx
  part : r.client.rx <+: answer r.client.conn r.call
  wellFormed : r.malformed = false
  ended : r.op = none → r.opEc.isSome = true

/-- The reply was read. -/
structure Answered (answer : ℕ → NodeCall → Bytes) (r : Running) : Prop where
  reply : parseReply.Whole r.reply (answer r.client.conn r.call)
  settled : r.client.Settled answer
  wellFormed : r.malformed = false
  ended : r.op = none

/-- What holds while a command runs. -/
def Sound (answer : ℕ → NodeCall → Bytes) (r : Running) : Prop :=
  r.client.connected = true ∧ (r.Waiting answer ∨ r.Answered answer)

variable {answer : ℕ → NodeCall → Bytes} {r : Running}

theorem sound_start {c : Client} (hconnected : c.connected = true) (hc : c.Settled answer)
    (call : NodeCall) :
    Sound answer { call := call, client := { c with sent := c.sent ++ [call] } } := by
  refine ⟨hconnected, .inl ⟨⟨c.sent, rfl, ?_⟩, ?_, rfl, nofun⟩⟩
  · simpa [hc.1] using hc.2
  · simp [hc.1]

theorem Waiting.fail (h : r.Waiting answer) (message : Bytes) : (r.fail message).Waiting answer :=
  ⟨h.arrived, h.part, h.wellFormed, fun _ => rfl⟩

/-- What arrives belongs to the reply to this command: that is parsed when it is complete, and then
nothing is left over. -/
theorem Waiting.onRead (hserved : ∀ g call, Served call.command (answer g call))
    (h : r.Waiting answer) {chunk : Bytes} (hop : r.op = some .read)
    (hchunk : r.client.arrived ++ chunk <+:
      (r.client.sent.map (answer r.client.conn)).flatten) :
    (r.onRead chunk).Waiting answer ∨ (r.onRead chunk).Answered answer := by
  obtain ⟨earlier, hsent, harrived⟩ := h.arrived
  have hpart : r.client.rx ++ chunk <+: answer r.client.conn r.call ++ [] := by
    rw [harrived, hsent, List.map_append, List.flatten_append, List.append_assoc] at hchunk
    simpa using (List.prefix_append_right_inj _).mp hchunk
  obtain ⟨v, hwhole⟩ := (hserved r.client.conn r.call).oneReply r.call.request.sent
  rcases hwhole.parse_part hpart with hwait | ⟨rest, hrx, hrest, hparse⟩
  · refine .inl ?_
    simp only [Running.onRead, hwait]
    exact ⟨⟨earlier, hsent, by simp [harrived]⟩, by simpa using hpart, rfl, by simp [hop]⟩
  · obtain rfl : rest = [] := List.prefix_nil.mp hrest
    refine .inr ?_
    simp only [Running.onRead, hparse]
    refine ⟨hwhole, ⟨rfl, ?_⟩, h.wellFormed, rfl⟩
    simp only [hsent, harrived, List.append_assoc, hrx]
    simp

@[simp] theorem connected_onRead (r : Running) (chunk : Bytes) :
    (r.onRead chunk).client.connected = r.client.connected := by
  unfold Running.onRead
  dsimp only
  split <;> rfl

/-- As long as an operation is outstanding, the reply was not read. -/
theorem Sound.waiting (h : r.Sound answer) {op : SocketOp} (hop : r.op = some op) :
    r.Waiting answer := by
  refine h.2.resolve_right fun hanswered => ?_
  simp [hanswered.ended] at hop

/-- A command that returns no error returns its own reply, and its client has read all replies. -/
theorem Sound.of_no_error (h : r.Sound answer) (hop : r.op = none) (hopEc : r.opEc = none) :
    r.Answered answer := by
  refine h.2.resolve_left fun hwaiting => ?_
  have hfailed := hwaiting.ended hop
  simp [hopEc] at hfailed

theorem Sound.malformed (h : r.Sound answer) : r.malformed = false :=
  h.2.elim (·.wellFormed) (·.wellFormed)

theorem Sound.result (h : r.Sound answer) (hop : r.op = none) :
    (∀ v, r.result = .success v → parseReply.Whole v (answer r.client.conn r.call)) ∧
      ∀ message, r.result ≠ .error .protocolError message := by
  unfold Running.result
  rw [h.malformed]
  split
  case isTrue => simp
  case isFalse =>
    split
    case h_1 => simp
    case h_2 hopEc => simp [(h.of_no_error hop hopEc).reply]

theorem Sound.clientAfter (h : r.Sound answer) (hop : r.op = none)
    (hconnected : r.clientAfter.connected = true) : r.clientAfter.Settled answer := by
  unfold Running.clientAfter at hconnected ⊢
  split at hconnected
  case isTrue => simp [Client.disconnect] at hconnected
  case isFalse hfine =>
    rw [if_neg hfine]
    have hopEc : r.opEc = none := by simpa using (not_or.mp (not_or.mp hfine).2).1
    exact (h.of_no_error hop hopEc).settled

end Client.Running

/-! ## The pool -/

namespace PeerPool

/-- A command that runs is sound, and a client that is given back has read all replies. -/
def Phase.Sound {α : Type} (answer : ℕ → NodeCall → Bytes) : Phase α → Prop
  | .idle | .connecting _ _ => True
  | .running _ r => r.Sound answer
  | .returning _ c => c.connected = true → c.Settled answer

/-- What every step keeps. -/
structure Sound {ι α : Type} (maxIdle : ℕ) (answer : ℕ → NodeCall → Bytes) (s : PeerPool ι α) :
    Prop where
  bounded : ∀ a, (s.idle a).length ≤ maxIdle
  idle : ∀ a, ∀ c ∈ s.idle a, c.connected = true ∧ c.Settled answer
  phase : ∀ i, (s.phase i).Sound answer
  done : ∀ r ∈ s.done, (∀ v, r.result = .success v → parseReply.Whole v (answer r.conn r.call)) ∧
    ∀ message, r.result ≠ .error .protocolError message

theorem sound_start {ι α : Type} (maxIdle : ℕ) (answer : ℕ → NodeCall → Bytes) :
    Sound maxIdle answer ({} : PeerPool ι α) :=
  ⟨by simp, by simp, fun _ => trivial, by simp⟩

section Step

variable {ι α : Type} {maxIdle : ℕ} {answer : ℕ → NodeCall → Bytes} {s s' : PeerPool ι α}
  {l : Label ι α} {i : ι}

theorem Sound.setPhase [DecidableEq ι] (h : Sound maxIdle answer s) {p : Phase α}
    (hp : p.Sound answer) : Sound maxIdle answer (s.setPhase i p) :=
  ⟨h.bounded, h.idle, (Function.forall_update_iff s.phase fun _ q => q.Sound answer).mpr
    ⟨hp, fun j _ => h.phase j⟩, h.done⟩

theorem Sound.setIdle [DecidableEq α] (h : Sound maxIdle answer s) {a : α}
    {clients : List Client} (hbounded : clients.length ≤ maxIdle)
    (hidle : ∀ c ∈ clients, c.connected = true ∧ c.Settled answer) :
    Sound maxIdle answer { s with idle := Function.update s.idle a clients } :=
  ⟨(Function.forall_update_iff s.idle fun _ cs => cs.length ≤ maxIdle).mpr
      ⟨hbounded, fun b _ => h.bounded b⟩,
    (Function.forall_update_iff s.idle fun _ cs =>
      ∀ c ∈ cs, c.connected = true ∧ c.Settled answer).mpr ⟨hidle, fun b _ => h.idle b⟩,
    h.phase, h.done⟩

variable [DecidableEq ι]

/-- A handler keeps a command sound. -/
theorem Sound.handle (h : Sound maxIdle answer s) {f : Client.Running → Option Client.Running}
    (hf : ∀ r r', r.Sound answer → f r = some r' → r'.Sound answer)
    (hs : s.handle i f = some s') : Sound maxIdle answer s' := by
  unfold PeerPool.handle at hs
  split at hs
  case h_1 a r hphase =>
    obtain ⟨r', hr', rfl⟩ := Option.map_eq_some_iff.mp hs
    have hr : r.Sound answer := by simpa [hphase, Phase.Sound] using h.phase i
    exact h.setPhase (hf r r' hr hr')
  case h_2 => cases hs

theorem Sound.command (h : Sound maxIdle answer s) {a : α} {c : Client}
    (hconnected : c.connected = true) (hc : c.Settled answer) (request : NodeRequest) :
    Sound maxIdle answer (s.command i a c request) := by
  have hcalls : Sound maxIdle answer { s with calls := s.calls ++ [request] } :=
    ⟨h.bounded, h.idle, h.phase, h.done⟩
  unfold PeerPool.command
  dsimp only
  rw [if_pos hconnected]
  exact hcalls.setPhase (Client.Running.sound_start hconnected hc _)

variable [DecidableEq α]

theorem Sound.acquire (h : Sound maxIdle answer s) (a : α) (request : NodeRequest) :
    Sound maxIdle answer (s.acquire i a request) := by
  unfold PeerPool.acquire
  split
  case h_1 c hlast =>
    obtain ⟨hconnected, hc⟩ := h.idle a c (List.mem_of_getLast? hlast)
    have hrest : Sound maxIdle answer
        { s with idle := Function.update s.idle a (s.idle a).dropLast } := by
      refine h.setIdle ?_ fun c hc => h.idle a c (List.mem_of_mem_dropLast hc)
      rw [List.length_dropLast]
      exact (Nat.sub_le _ _).trans (h.bounded a)
    exact hrest.command hconnected hc request
  case h_2 => exact h.setPhase trivial

theorem Sound.release (h : Sound maxIdle answer s) {a : α} {c : Client}
    (hc : c.connected = true → c.Settled answer) :
    Sound maxIdle answer (s.release maxIdle i a c) := by
  have hidle : Sound maxIdle answer (s.setPhase i .idle) := h.setPhase trivial
  unfold PeerPool.release
  dsimp only
  split
  case isTrue hroom =>
    refine hidle.setIdle ?_ ?_
    · rw [List.length_append, List.length_singleton]
      exact hroom.2
    · intro d hd
      rcases List.mem_append.mp hd with hd | hd
      · exact hidle.idle a d hd
      · obtain rfl := List.mem_singleton.mp hd
        exact ⟨hroom.1, hc hroom.1⟩
  case isFalse => exact hidle

/-- What one step keeps. -/
theorem Sound.of_step (hserved : ∀ g call, Served call.command (answer g call))
    (h : Sound maxIdle answer s) (hs : s.step maxIdle answer l = some s') :
    Sound maxIdle answer s' := by
  cases l with
  | acquire i a request =>
    simp only [step] at hs
    split at hs
    case h_1 => exact Option.some.inj hs ▸ h.acquire a request
    case h_2 => cases hs
  | connected i ok =>
    simp only [step] at hs
    split at hs
    case h_1 a request _ =>
      have hconns : Sound maxIdle answer { s with conns := s.conns + 1 } :=
        ⟨h.bounded, h.idle, h.phase, h.done⟩
      split at hs
      case isTrue => exact Option.some.inj hs ▸ hconns.command rfl ⟨rfl, rfl⟩ request
      case isFalse => exact Option.some.inj hs ▸ h.setPhase trivial
    case h_2 => cases hs
  | wrote i failure =>
    refine h.handle ?_ hs
    intro r r' hr hf
    obtain ⟨hop, hf⟩ := Option.ite_none_right_eq_some.mp hf
    have hwaiting : r.Waiting answer := hr.waiting hop
    cases failure with
    | some message => exact Option.some.inj hf ▸ ⟨hr.1, .inl (hwaiting.fail message)⟩
    | none =>
      obtain rfl := Option.some.inj hf
      exact ⟨hr.1, .inl ⟨hwaiting.arrived, hwaiting.part, hwaiting.wellFormed, nofun⟩⟩
  | received i chunk =>
    refine h.handle ?_ hs
    intro r r' hr hf
    obtain ⟨⟨hop, -, -, hchunk⟩, hf⟩ := Option.ite_none_right_eq_some.mp hf
    obtain rfl := Option.some.inj hf
    exact ⟨by simpa using hr.1, (hr.waiting hop).onRead hserved hop hchunk⟩
  | readFailed i message =>
    refine h.handle ?_ hs
    intro r r' hr hf
    obtain ⟨hop, hf⟩ := Option.ite_none_right_eq_some.mp hf
    obtain rfl := Option.some.inj hf
    exact ⟨hr.1, .inl ((hr.waiting hop).fail message)⟩
  | timer i expired =>
    refine h.handle ?_ hs
    intro r r' hr hf
    obtain ⟨-, hf⟩ := Option.ite_none_right_eq_some.mp hf
    obtain rfl := Option.some.inj hf
    exact ⟨hr.1, hr.2.imp (fun hw => ⟨hw.arrived, hw.part, hw.wellFormed, hw.ended⟩)
      fun ha => ⟨ha.reply, ha.settled, ha.wellFormed, ha.ended⟩⟩
  | returns i =>
    simp only [step] at hs
    split at hs
    case h_1 a r hphase =>
      obtain ⟨⟨hop, -⟩, hs⟩ := Option.ite_none_right_eq_some.mp hs
      obtain rfl := Option.some.inj hs
      have hr : r.Sound answer := by simpa [hphase, Phase.Sound] using h.phase i
      have hphases : Sound maxIdle answer (s.setPhase i (.returning a r.clientAfter)) :=
        h.setPhase (hr.clientAfter hop)
      refine ⟨hphases.bounded, hphases.idle, hphases.phase, ?_⟩
      intro d hd
      rcases List.mem_append.mp hd with hd | hd
      · exact h.done d hd
      · obtain rfl := List.mem_singleton.mp hd
        exact hr.result hop
    case h_2 => cases hs
  | release i =>
    simp only [step] at hs
    split at hs
    case h_1 a c hphase =>
      have hc : c.connected = true → c.Settled answer := by
        simpa [hphase, Phase.Sound] using h.phase i
      exact Option.some.inj hs ▸ h.release hc
    case h_2 => cases hs
  | drop a => exact Option.some.inj hs ▸ h.setIdle (Nat.zero_le _) (by simp)

/-- **Commands over pooled connections return their own replies.** In every run of any number of
threads over the pool, whatever is cut, fails or times out, and whatever states the peer answers
from: a command returns the reply to its own request or an error, and no reply is found malformed.
The pool keeps to its bound, and every client in it is connected and has read the replies to all
commands that were sent over it, and nothing more. -/
theorem pooled_replies_match (hserved : ∀ g call, Served call.command (answer g call))
    {ls : List (Label ι α)} (hr : run (step maxIdle answer) ({} : PeerPool ι α) ls = some s) :
    (∀ r ∈ s.done, (∀ v, r.result = .success v → parseReply.Whole v (answer r.conn r.call)) ∧
        ∀ message, r.result ≠ .error .protocolError message) ∧
      ∀ a, (s.idle a).length ≤ maxIdle ∧ ∀ c ∈ s.idle a, c.connected = true ∧ c.rx = [] ∧
        c.arrived = (c.sent.map (answer c.conn)).flatten := by
  have hsound : Sound maxIdle answer s :=
    run_invariant (fun _ _ _ h _ hs => h.of_step hserved hs) (sound_start maxIdle answer)
      (along_true _ ls) hr
  exact ⟨hsound.done, fun a => ⟨hsound.bounded a, hsound.idle a⟩⟩

end Step

/-- What a peer that held the key before every other write answers. -/
def alternatingAnswer (_ : ℕ) (call : NodeCall) : Bytes :=
  (dispatch (alternating call.number) call.command ()).2

/-- The timer expires when half of a reply was read. The client is not given back, and the next
commands are sent over a new connection. -/
def lateReply : List (Label Bool Unit) :=
  [.acquire false () deletion, .connected false true, .wrote false none,
    .received false (ascii ":0\r"), .timer false true,
    .readFailed false (ascii "Operation canceled"), .returns false, .release false,
    .acquire true () deletion, .connected true true, .wrote true none,
    .received true (ascii ":1\r\n"), .timer true false, .returns true, .release true,
    .acquire false () deletion, .wrote false none, .received false (ascii ":0\r\n"),
    .timer false false, .returns false, .release false]

theorem pooled_replies_match_lateReply :
    ∃ s, run (step 1 alternatingAnswer) ({} : PeerPool Bool Unit) lateReply = some s ∧
      s.done.map (fun r => (r.call.number, r.conn)) = [(0, 0), (1, 1), (2, 1)] ∧
      ∀ r ∈ s.done, ∀ v, r.result = .success v →
        parseReply.Whole v (alternatingAnswer r.conn r.call) := by
  have hdone : (run (step 1 alternatingAnswer) ({} : PeerPool Bool Unit) lateReply).map
      (fun s => s.done.map fun r => (r.call.number, r.conn)) =
        some [(0, 0), (1, 1), (2, 1)] := by
    decide
  have hserved (g : ℕ) (call : NodeCall) : Served call.command (alternatingAnswer g call) :=
    served_alternating call.number call.request.sent
  obtain ⟨s, hrun, hdone⟩ := Option.map_eq_some_iff.mp hdone
  exact ⟨s, hrun, hdone, fun r hr => ((pooled_replies_match hserved hrun).1 r hr).1⟩

end PeerPool

end ShardCache
