import ShardCache.Foundations.Run
import ShardCache.Network.CommandHandler
import ShardCache.Protocol.Limits

/-!
# Client sessions

A session reads its connection in chunks, parses the requests that have arrived, executes them and
writes the replies. Commands that wait on peers run on another executor, and parsing stops until
their reply is posted back. Parsing also stops while many replies are queued.

The session answers the byte stream, not its chunks: however the stream is cut and whenever writes
and commands complete, the commands executed and the bytes written are those of the whole stream.

## Main definitions

* `SessionHandler`: what the handler answers to the commands of the session
* `ClientSession`, `ClientSession.step`: the session, and what each completion does
* `requests`, `answer`: the commands of a stream, and the bytes that answer it
* `LinesFit`: the inline commands of a stream are not too long

## Main results

* `ClientSession.Waiting`: a session waits for exactly one completion until it is closed
* `ClientSession.measure_complete`: completions run out until the session reads again or is closed
* `ClientSession.answers_stream`: the session answers the byte stream
* `ClientSession.listens_until_decided`, `ClientSession.refuses_line`: while it waits for a request
  the session tries the parser again after each chunk
-/

namespace ShardCache

open Foundations Resp

/-- `kMaxPendingOutput`. -/
def kMaxPendingOutput : ℕ := 1024 * 1024

/-- What the handler and the cluster answer around the `i`-th command that the session executes:
which keys this node can serve alone, and the reply. -/
structure SessionHandler where
  canServeLocally : ℕ → Key → Bool → Bool
  execute : ℕ → Command → Bytes

/-- The state of a `ClientSession`, with its outstanding operations: the number of reads, the bytes
of each write, the commands posted to the RPC executor and the replies posted back. `executed` and
`sent` record what was executed and written. -/
structure ClientSession where
  input : Bytes := []
  output : Bytes := []
  closing : Bool := false
  awaitingRpc : Bool := false
  reads : ℕ := 0
  writes : List Bytes := []
  queued : List Command := []
  replies : List Bytes := []
  closed : Bool := false
  executed : List Command := []
  sent : Bytes := []
deriving DecidableEq, Repr

/-- The completion of an outstanding operation. -/
inductive SessionEvent where
  | received (chunk : Bytes)
  | readFailed
  | wrote
  | writeFailed
  | executed
  | replied
deriving DecidableEq, Repr

/-- The bytes that a completion brings. -/
def SessionEvent.bytes : SessionEvent → Bytes
  | .received chunk => chunk
  | _ => []

/-- The completion reports a failure of the connection. -/
def SessionEvent.fails : SessionEvent → Bool
  | .readFailed | .writeFailed => true
  | _ => false

/-- The completion of a write or of a command. -/
def SessionEvent.completes : SessionEvent → Bool
  | .wrote | .executed | .replied => true
  | _ => false

/-- The part of the stream that has arrived. -/
def received (events : List SessionEvent) : Bytes := (events.map SessionEvent.bytes).flatten

namespace ClientSession

/-! ## The session -/

/-- `do_read`. -/
def doRead (s : ClientSession) : ClientSession := { s with reads := s.reads + 1 }

/-- `close`. -/
def close (s : ClientSession) : ClientSession := { s with closed := true }

/-- `flush`. -/
def flush (s : ClientSession) : ClientSession :=
  if s.output = [] then if s.closing then s.close else s.doRead
  else { s with output := [], writes := s.writes ++ [s.output] }

/-- The loop of `process_input`. Each turn takes at least one byte off the input, so that as many
turns as there are bytes are enough. -/
def processLoop (h : SessionHandler) : ℕ → ClientSession → ClientSession
  | 0, s => s.flush
  | fuel + 1, s =>
    if s.closing ∨ s.input = [] ∨ s.output.length ≥ kMaxPendingOutput then s.flush
    else
      match parseRequest s.input with
      | .incomplete => s.flush
      | .error e => flush { s with output := s.output ++ appendError e, closing := true }
      | .ok args rest =>
        if args = [] then processLoop h fuel { s with input := rest }
        else
          let cmd := Parser.parse args
          if CommandHandler.runsLocally (h.canServeLocally s.executed.length) cmd then
            processLoop h fuel { s with
              input := rest
              output := s.output ++ h.execute s.executed.length cmd
              executed := s.executed ++ [cmd]
              closing := s.closing || cmd.type = .quit }
          else { s with input := rest, awaitingRpc := true, queued := s.queued ++ [cmd] }

/-- `process_input`. -/
def processInput (h : SessionHandler) (s : ClientSession) : ClientSession :=
  if s.awaitingRpc then s else processLoop h s.input.length s

/-- The session after `start`. -/
def start : ClientSession := doRead {}

/-- The session after the completion of an outstanding operation. A read brings at least one byte,
and at most as many as `read_chunk_` holds. -/
def step (h : SessionHandler) (s : ClientSession) : SessionEvent → Option ClientSession
  | .received chunk =>
    if 0 < s.reads ∧ chunk ≠ [] ∧ chunk.length ≤ 16 * 1024 then
      some (processInput h { s with reads := s.reads - 1, input := s.input ++ chunk })
    else none
  | .readFailed => if 0 < s.reads then some (close { s with reads := s.reads - 1 }) else none
  | .wrote =>
    match s.writes with
    | [] => none
    | b :: writes =>
      let s := { s with writes := writes, sent := s.sent ++ b }
      some (if ¬s.closing ∧ s.input ≠ [] then s.processInput h else s.flush)
  | .writeFailed =>
    match s.writes with
    | [] => none
    | _ :: writes => some (close { s with writes := writes })
  | .executed =>
    match s.queued with
    | [] => none
    | cmd :: queued =>
      some { s with
        queued := queued
        replies := s.replies ++ [h.execute s.executed.length cmd]
        executed := s.executed ++ [cmd] }
  | .replied =>
    match s.replies with
    | [] => none
    | reply :: replies =>
      some (processInput h { s with
        replies := replies, output := s.output ++ reply, awaitingRpc := false })

variable {h : SessionHandler} {s s' : ClientSession}

theorem step_wrote (hstep : step h s .wrote = some s') :
    ∃ b writes, s.writes = b :: writes ∧
      s' = if ¬s.closing ∧ s.input ≠ [] then
          processInput h { s with writes := writes, sent := s.sent ++ b }
        else flush { s with writes := writes, sent := s.sent ++ b } := by
  simp only [step] at hstep
  split at hstep
  · cases hstep
  · rename_i b writes hwrites
    exact ⟨b, writes, hwrites, (Option.some.inj hstep).symm⟩

theorem step_writeFailed (hstep : step h s .writeFailed = some s') :
    ∃ b writes, s.writes = b :: writes ∧ s' = close { s with writes := writes } := by
  simp only [step] at hstep
  split at hstep
  · cases hstep
  · rename_i b writes hwrites
    exact ⟨b, writes, hwrites, (Option.some.inj hstep).symm⟩

theorem step_executed (hstep : step h s .executed = some s') :
    ∃ cmd queued, s.queued = cmd :: queued ∧
      s' = { s with
        queued := queued
        replies := s.replies ++ [h.execute s.executed.length cmd]
        executed := s.executed ++ [cmd] } := by
  simp only [step] at hstep
  split at hstep
  · cases hstep
  · rename_i cmd queued hqueued
    exact ⟨cmd, queued, hqueued, (Option.some.inj hstep).symm⟩

theorem step_replied (hstep : step h s .replied = some s') :
    ∃ reply replies, s.replies = reply :: replies ∧
      s' = processInput h { s with
        replies := replies, output := s.output ++ reply, awaitingRpc := false } := by
  simp only [step] at hstep
  split at hstep
  · cases hstep
  · rename_i reply replies hreplies
    exact ⟨reply, replies, hreplies, (Option.some.inj hstep).symm⟩

end ClientSession

/-! ## The answer to a stream -/

/-- The commands of a stream, cut after a number of requests, and the protocol error that ends it:
`parse_request` is applied repeatedly, up to the first error or `QUIT`. -/
def requestsN : ℕ → Bytes → List Command × Option Bytes
  | 0, _ => ([], none)
  | fuel + 1, w =>
    match parseRequest w with
    | .incomplete => ([], none)
    | .error e => ([], some e)
    | .ok args rest =>
      if args = [] then requestsN fuel rest
      else if (Parser.parse args).type = .quit then ([Parser.parse args], none)
      else (Parser.parse args :: (requestsN fuel rest).1, (requestsN fuel rest).2)

/-- The commands of a stream, and the protocol error that ends it. -/
def requests (w : Bytes) : List Command × Option Bytes := requestsN w.length w

/-- The replies to commands, the first of which is the `i`-th. -/
def transcript (h : SessionHandler) (i : ℕ) : List Command → Bytes
  | [] => []
  | cmd :: cmds => h.execute i cmd ++ transcript h (i + 1) cmds

/-- The bytes that answer a stream: the replies to its commands, and the error line. -/
def answer (h : SessionHandler) (w : Bytes) : Bytes :=
  transcript h 0 (requests w).1 ++
    match (requests w).2 with
    | none => []
    | some e => appendError e

/-- Every inline command of the stream is at most `kMaxInlineLength` bytes long. -/
def LinesFit (w : Bytes) : Prop :=
  ∀ args rest, Takes parseRequest w args rest → InlineFits rest

variable {h : SessionHandler} {w rest : Bytes} {args : List Bytes}

theorem LinesFit.inlineFits (hw : LinesFit w) : InlineFits w := hw [] w (.nil w)

theorem LinesFit.of_ok (hw : LinesFit w) (hparse : parseRequest w = .ok args rest) :
    LinesFit rest := fun argss rest' htakes => hw (args :: argss) rest' (.cons hparse htakes)

theorem Takes.length_le {argss : List (List Bytes)} (htakes : Takes parseRequest w argss rest) :
    rest.length ≤ w.length := by
  induction htakes with
  | nil => exact le_rfl
  | cons hparse _ ih => exact ih.trans (parseRequest_length hparse).le

/-- A short stream has short lines only. -/
theorem linesFit_of_length_le (hw : w.length ≤ kMaxInlineLength) : LinesFit w := by
  intro argss rest htakes _ eol heol
  have hlt := (idxOf?_append_of_some heol []).2
  have hle := Takes.length_le htakes
  omega

theorem transcript_append (i : ℕ) (cmds cmds' : List Command) :
    transcript h i (cmds ++ cmds') =
      transcript h i cmds ++ transcript h (i + cmds.length) cmds' := by
  induction cmds generalizing i with
  | nil => rfl
  | cons cmd cmds ih => simp [transcript, ih, Nat.add_assoc, Nat.add_comm 1]

/-- As many requests as the stream has bytes are enough. -/
theorem requestsN_congr {m n : ℕ} (hm : w.length ≤ m) (hn : w.length ≤ n) :
    requestsN m w = requestsN n w := by
  induction m generalizing n w with
  | zero =>
    obtain rfl : w = [] := List.length_eq_zero_iff.mp (by omega)
    cases n <;> rfl
  | succ m ih =>
    cases n with
    | zero =>
      obtain rfl : w = [] := List.length_eq_zero_iff.mp (by omega)
      rfl
    | succ n =>
      rw [requestsN, requestsN]
      cases hparse : parseRequest w with
      | incomplete => rfl
      | error e => rfl
      | ok args rest =>
        have hlt := parseRequest_length hparse
        simp only [ih (w := rest) (n := n) (by omega) (by omega)]

theorem requests_of_ok (hparse : parseRequest w = .ok args rest) :
    requests w =
      if args = [] then requests rest
      else if (Parser.parse args).type = .quit then ([Parser.parse args], none)
      else (Parser.parse args :: (requests rest).1, (requests rest).2) := by
  have hlt := parseRequest_length hparse
  obtain ⟨n, hn⟩ : ∃ n, w.length = n + 1 := ⟨w.length - 1, by omega⟩
  have hrest : requestsN n rest = requests rest := requestsN_congr (by omega) le_rfl
  simp only [requests, hn, requestsN, hparse] at hrest ⊢
  rw [hrest]

theorem requests_of_error {e : Bytes} (hparse : parseRequest w = .error e) :
    requests w = ([], some e) := by
  cases w with
  | nil => cases hparse
  | cons c w => simp only [requests, List.length_cons, requestsN, hparse]

theorem requests_of_incomplete (hparse : parseRequest w = .incomplete) :
    requests w = ([], none) := by
  cases w with
  | nil => rfl
  | cons c w => simp only [requests, List.length_cons, requestsN, hparse]

namespace ClientSession

/-! ## What the session has done -/

/-- The bytes that were handed to the connection or will be next. -/
def written (s : ClientSession) : Bytes := s.sent ++ s.writes.flatten ++ s.output

/-- What the session has done with the stream `w` when `u` is still to come. Until it is closing,
the commands executed and handed over are followed by those in the input and in `u`; once it is
closing, nothing is left. -/
structure Accounts (h : SessionHandler) (w u : Bytes) (s : ClientSession) : Prop where
  fits : LinesFit (s.input ++ u)
  running : s.closing = false →
    requests w = (s.executed ++ s.queued ++ (requests (s.input ++ u)).1, (requests (s.input ++ u)).2) ∧
      s.written ++ s.replies.flatten = transcript h 0 s.executed
  ending : s.closing = true →
    (requests w).1 = s.executed ∧ s.queued = [] ∧ s.replies = [] ∧ s.written = answer h w

/-- The operation that the session waits for. -/
inductive Waiting : ClientSession → Prop where
  | reading {s : ClientSession} (hops : s.reads = 1 ∧ s.writes = [] ∧ s.queued = [] ∧ s.replies = [])
      (hrpc : s.awaitingRpc = false) (hopen : s.closed = false) (hrun : s.closing = false)
      (hout : s.output = []) (hin : parseRequest s.input = .incomplete) : Waiting s
  | writing {s : ClientSession} {b : Bytes}
      (hops : s.reads = 0 ∧ s.writes = [b] ∧ s.queued = [] ∧ s.replies = [])
      (hrpc : s.awaitingRpc = false) (hopen : s.closed = false) (hout : s.output = []) : Waiting s
  | executing {s : ClientSession} {cmd : Command}
      (hops : s.reads = 0 ∧ s.writes = [] ∧ s.queued = [cmd] ∧ s.replies = [])
      (hopen : s.closed = false) (hrun : s.closing = false) : Waiting s
  | replying {s : ClientSession} {reply : Bytes}
      (hops : s.reads = 0 ∧ s.writes = [] ∧ s.queued = [] ∧ s.replies = [reply])
      (hopen : s.closed = false) (hrun : s.closing = false) : Waiting s
  | closed {s : ClientSession} (hops : s.reads = 0 ∧ s.writes = [] ∧ s.queued = [] ∧ s.replies = [])
      (hclosed : s.closed = true) (hend : s.closing = true) (hout : s.output = []) : Waiting s

/-- Nothing is outstanding: a completion is being handled. -/
structure Handling (s : ClientSession) : Prop where
  reads : s.reads = 0
  writes : s.writes = []
  queued : s.queued = []
  replies : s.replies = []
  rpc : s.awaitingRpc = false
  isOpen : s.closed = false

variable {u : Bytes} {s : ClientSession}

/-! ## What a session waits for -/

/-- While a read is outstanding, nothing else is. -/
theorem Waiting.of_reads (hwait : Waiting s) (hreads : 0 < s.reads) :
    Handling { s with reads := s.reads - 1 } := by
  cases hwait with
  | reading hops hrpc hopen =>
    obtain ⟨hone, hwrites, hqueued, hreplies⟩ := hops
    exact ⟨by simp [hone], hwrites, hqueued, hreplies, hrpc, hopen⟩
  | writing hops => simp [hops.1] at hreads
  | executing hops => simp [hops.1] at hreads
  | replying hops => simp [hops.1] at hreads
  | closed hops => simp [hops.1] at hreads

/-- While a write is outstanding, nothing else is, and nothing is queued behind it. -/
theorem Waiting.of_writes {b : Bytes} {writes : List Bytes} (hwait : Waiting s)
    (hwrites : s.writes = b :: writes) : Handling { s with writes := writes } ∧ s.output = [] := by
  cases hwait with
  | writing hops hrpc hopen hout =>
    obtain ⟨hreads, hone, hqueued, hreplies⟩ := hops
    obtain ⟨rfl, rfl⟩ := List.cons.inj (hwrites.symm.trans hone)
    exact ⟨⟨hreads, rfl, hqueued, hreplies, hrpc, hopen⟩, hout⟩
  | reading hops => simp [hops.2.1] at hwrites
  | executing hops => simp [hops.2.1] at hwrites
  | replying hops => simp [hops.2.1] at hwrites
  | closed hops => simp [hops.2.1] at hwrites

theorem Accounts.flush (hs : Accounts h w u s) : Accounts h w u s.flush := by
  unfold ClientSession.flush
  split
  · split
    · exact ⟨hs.fits, hs.running, hs.ending⟩
    · exact ⟨hs.fits, hs.running, hs.ending⟩
  · -- the output moves to the write in flight
    have hwritten : s.written =
        written { s with output := [], writes := s.writes ++ [s.output] } := by simp [written]
    exact ⟨hs.fits, fun hrun => hwritten ▸ hs.running hrun, fun hend => hwritten ▸ hs.ending hend⟩

/-- After a completion was handled, the session reads, writes or is closed. -/
theorem Handling.flush (hs : Handling s)
    (hin : s.closing = false → s.output = [] → parseRequest s.input = .incomplete) :
    Waiting s.flush := by
  obtain ⟨hreads, hwrites, hqueued, hreplies, hrpc, hopen⟩ := hs
  unfold ClientSession.flush
  split
  · rename_i hout
    split
    · rename_i hend
      exact .closed ⟨hreads, hwrites, hqueued, hreplies⟩ rfl hend hout
    · rename_i hrun
      have hrun : s.closing = false := by simpa using hrun
      exact .reading ⟨by simp [doRead, hreads], hwrites, hqueued, hreplies⟩ hrpc hopen hrun hout
        (hin hrun hout)
  · exact .writing (b := s.output) ⟨hreads, by simp [hwrites], hqueued, hreplies⟩ hrpc hopen rfl

/-! ## One request -/

/-- What was parsed from the input is what is parsed from the stream. -/
theorem parse_stream (hparse : parseRequest s.input = .ok args rest) :
    parseRequest (s.input ++ u) = .ok args (rest ++ u) := parseRequest_ok_append hparse u

/-- An empty line is skipped. -/
theorem Accounts.skip (hs : Accounts h w u s) (hrun : s.closing = false)
    (hparse : parseRequest s.input = .ok [] rest) : Accounts h w u { s with input := rest } := by
  have hstream := parse_stream (u := u) hparse
  have hlog := requests_of_ok hstream
  rw [if_pos rfl] at hlog
  refine ⟨hs.fits.of_ok hstream, ?_, ?_⟩
  · intro _
    obtain ⟨hw, hwritten⟩ := hs.running hrun
    exact ⟨hlog ▸ hw, hwritten⟩
  · intro hend
    simp [hrun] at hend

/-- A command of the stream that is not `QUIT` is followed by the rest of the stream. -/
theorem requests_of_command (hparse : parseRequest s.input = .ok args rest) (hargs : args ≠ [])
    (hquit : (Parser.parse args).type ≠ .quit) :
    requests (s.input ++ u) =
      (Parser.parse args :: (requests (rest ++ u)).1, (requests (rest ++ u)).2) := by
  rw [requests_of_ok (parse_stream hparse), if_neg hargs, if_neg hquit]

/-- A command is executed, and its reply queued. -/
theorem Accounts.execute (hs : Accounts h w u s) (hh : Handling s) (hrun : s.closing = false)
    (hparse : parseRequest s.input = .ok args rest) (hargs : args ≠ []) :
    Accounts h w u { s with
      input := rest
      output := s.output ++ h.execute s.executed.length (Parser.parse args)
      executed := s.executed ++ [Parser.parse args]
      closing := s.closing || (Parser.parse args).type = .quit } := by
  obtain ⟨hw, hwritten⟩ := hs.running hrun
  have hreplies : s.written ++ h.execute s.executed.length (Parser.parse args) =
      transcript h 0 (s.executed ++ [Parser.parse args]) := by
    rw [transcript_append, ← hwritten, hh.replies]
    simp [transcript]
  refine ⟨hs.fits.of_ok (parse_stream hparse), ?_, ?_⟩
  · intro hrun'
    have hquit : (Parser.parse args).type ≠ .quit := by simpa [hrun] using hrun'
    rw [requests_of_command hparse hargs hquit] at hw
    exact ⟨by simpa [hh.queued] using hw, by simpa [written, hh.replies] using hreplies⟩
  · -- `QUIT` ends the stream here
    intro hend
    have hquit : (Parser.parse args).type = .quit := by simpa [hrun] using hend
    rw [requests_of_ok (parse_stream hparse), if_neg hargs, if_pos hquit, hh.queued] at hw
    simp only [List.append_nil] at hw
    refine ⟨by simp [hw], hh.queued, hh.replies, ?_⟩
    rw [answer, hw]
    simpa [written] using hreplies

/-- A command is handed over to the RPC executor. -/
theorem Accounts.handOver (hs : Accounts h w u s) (hh : Handling s) (hrun : s.closing = false)
    (hparse : parseRequest s.input = .ok args rest) (hargs : args ≠ [])
    (hquit : (Parser.parse args).type ≠ .quit) :
    Accounts h w u { s with
      input := rest, awaitingRpc := true, queued := s.queued ++ [Parser.parse args] } := by
  obtain ⟨hw, hwritten⟩ := hs.running hrun
  rw [requests_of_command hparse hargs hquit] at hw
  refine ⟨hs.fits.of_ok (parse_stream hparse), ?_, ?_⟩
  · intro _
    exact ⟨by simpa [hh.queued] using hw, hwritten⟩
  · intro hend
    simp [hrun] at hend

/-- A protocol error ends the stream. -/
theorem Accounts.fail (hs : Accounts h w u s) (hh : Handling s) (hrun : s.closing = false)
    {e : Bytes} (hparse : parseRequest s.input = .error e) :
    Accounts h w u { s with output := s.output ++ appendError e, closing := true } := by
  obtain ⟨hw, hwritten⟩ := hs.running hrun
  have hstream : parseRequest (s.input ++ u) = .error e :=
    parseRequest_error_append hparse hs.fits.inlineFits
  rw [requests_of_error hstream, hh.queued] at hw
  simp only [List.append_nil] at hw
  refine ⟨hs.fits, ?_, ?_⟩
  · intro hrun'
    simp at hrun'
  · intro _
    refine ⟨by simp [hw], hh.queued, hh.replies, ?_⟩
    rw [answer, hw, ← hwritten, hh.replies]
    simp [written]

/-! ## Completions -/

theorem Handling.withInput (hh : Handling s) (rest : Bytes) : Handling { s with input := rest } :=
  ⟨hh.reads, hh.writes, hh.queued, hh.replies, hh.rpc, hh.isOpen⟩

/-- **The loop of `process_input`** keeps the accounts, and leaves the session waiting for one
completion. -/
theorem processLoop_spec {fuel : ℕ} (hfuel : s.input.length ≤ fuel) (hs : Accounts h w u s)
    (hh : Handling s) :
    Accounts h w u (processLoop h fuel s) ∧ Waiting (processLoop h fuel s) := by
  -- Induction on the turns left: each takes at least one byte off the input.
  induction fuel generalizing s with
  | zero =>
    have hnil : s.input = [] := List.length_eq_zero_iff.mp (by omega)
    refine ⟨hs.flush, hh.flush ?_⟩
    intro _ _
    rw [hnil]
    rfl
  | succ fuel ih =>
    rw [processLoop]
    split
    · -- the loop stops: if it is to read next, the input is empty
      rename_i hstop
      refine ⟨hs.flush, hh.flush ?_⟩
      intro hrun hout
      rcases hstop with hend | hnil | hfull
      · simp [hrun] at hend
      · rw [hnil]
        rfl
      · rw [hout] at hfull
        exact absurd hfull (by decide)
    · rename_i hgo
      have hrun : s.closing = false := by simpa using fun hend => hgo (Or.inl hend)
      cases hparse : parseRequest s.input with
      | incomplete =>
        -- the rest of the request is still to come
        exact ⟨hs.flush, hh.flush fun _ _ => hparse⟩
      | error e =>
        -- the error line is the last reply
        have hh' : Handling { s with output := s.output ++ appendError e, closing := true } :=
          ⟨hh.reads, hh.writes, hh.queued, hh.replies, hh.rpc, hh.isOpen⟩
        exact ⟨(hs.fail hh hrun hparse).flush, hh'.flush fun hrun' => by simp at hrun'⟩
      | ok args rest =>
        have hlt := parseRequest_length hparse
        simp only
        split
        · -- an empty line
          rename_i hnil
          subst hnil
          exact ih (show rest.length ≤ fuel by omega) (hs.skip hrun hparse) (hh.withInput rest)
        · rename_i hargs
          split
          · -- the command is executed here, and the loop goes on
            exact ih (show rest.length ≤ fuel by omega) (hs.execute hh hrun hparse hargs)
              ⟨hh.reads, hh.writes, hh.queued, hh.replies, hh.rpc, hh.isOpen⟩
          · -- the command waits on peers: the loop stops until its reply is there
            rename_i hlocal
            have hquit : (Parser.parse args).type ≠ .quit := fun hquit =>
              hlocal (CommandHandler.runsLocally_quit hquit)
            have hqueued : s.queued ++ [Parser.parse args] = [Parser.parse args] := by
              simp [hh.queued]
            exact ⟨hs.handOver hh hrun hparse hargs hquit,
              .executing ⟨hh.reads, hh.writes, hqueued, hh.replies⟩ hh.isOpen hrun⟩

theorem processInput_spec (hs : Accounts h w u s) (hh : Handling s) :
    Accounts h w u (processInput h s) ∧ Waiting (processInput h s) := by
  rw [processInput, hh.rpc]
  exact processLoop_spec le_rfl hs hh

/-- A chunk arrives. -/
theorem received_spec {chunk : Bytes} (hs : Accounts h w (chunk ++ u) s) (hwait : Waiting s)
    (hreads : 0 < s.reads) :
    Accounts h w u (processInput h { s with reads := s.reads - 1, input := s.input ++ chunk }) ∧
      Waiting (processInput h { s with reads := s.reads - 1, input := s.input ++ chunk }) := by
  -- the chunk moves from what is still to come to the input
  have hinput : s.input ++ (chunk ++ u) = s.input ++ chunk ++ u := (List.append_assoc ..).symm
  refine processInput_spec ⟨?_, ?_, ?_⟩ ((hwait.of_reads hreads).withInput _)
  · exact hinput ▸ hs.fits
  · intro hrun
    exact hinput ▸ hs.running hrun
  · intro hend
    exact hs.ending hend

/-- A write is done. -/
theorem wrote_spec {b : Bytes} {writes : List Bytes} (hs : Accounts h w u s) (hwait : Waiting s)
    (hwrites : s.writes = b :: writes) :
    Handling { s with writes := writes, sent := s.sent ++ b } ∧
      Accounts h w u { s with writes := writes, sent := s.sent ++ b } := by
  obtain ⟨hh, -⟩ := hwait.of_writes hwrites
  -- the bytes move from the write in flight to what was sent
  have hwritten : s.written = written { s with writes := writes, sent := s.sent ++ b } := by
    simp [written, hwrites]
  refine ⟨⟨hh.reads, hh.writes, hh.queued, hh.replies, hh.rpc, hh.isOpen⟩, hs.fits, ?_, ?_⟩
  · intro hrun
    exact hwritten ▸ hs.running hrun
  · intro hend
    exact hwritten ▸ hs.ending hend

/-- A command was executed, and its reply is posted back. -/
theorem executed_spec {cmd : Command} {queued : List Command} (hs : Accounts h w u s)
    (hwait : Waiting s) (hqueued : s.queued = cmd :: queued) :
    Accounts h w u { s with
      queued := queued
      replies := s.replies ++ [h.execute s.executed.length cmd]
      executed := s.executed ++ [cmd] } ∧
      Waiting { s with
        queued := queued
        replies := s.replies ++ [h.execute s.executed.length cmd]
        executed := s.executed ++ [cmd] } := by
  cases hwait with
  | executing hops hopen hrun =>
    obtain ⟨hreads, hwrites, hone, hreplies⟩ := hops
    obtain ⟨rfl, rfl⟩ := List.cons.inj (hqueued.symm.trans hone)
    obtain ⟨hw, hwritten⟩ := hs.running hrun
    have hposted : s.replies ++ [h.execute s.executed.length cmd] =
        [h.execute s.executed.length cmd] := by simp [hreplies]
    refine ⟨⟨hs.fits, ?_, ?_⟩, .replying ⟨hreads, hwrites, rfl, hposted⟩ hopen hrun⟩
    · intro _
      constructor
      · simpa [hqueued] using hw
      · rw [transcript_append, ← hwritten]
        simp [written, transcript]
    · intro hend
      simp [hrun] at hend
  | reading hops => simp [hops.2.2.1] at hqueued
  | writing hops => simp [hops.2.2.1] at hqueued
  | replying hops => simp [hops.2.2.1] at hqueued
  | closed hops => simp [hops.2.2.1] at hqueued

/-- The reply to a command has arrived. -/
theorem replied_spec {reply : Bytes} {replies : List Bytes} (hs : Accounts h w u s)
    (hwait : Waiting s) (hreplies : s.replies = reply :: replies) :
    Handling { s with replies := replies, output := s.output ++ reply, awaitingRpc := false } ∧
      Accounts h w u
        { s with replies := replies, output := s.output ++ reply, awaitingRpc := false } := by
  cases hwait with
  | replying hops hopen hrun =>
    obtain ⟨hreads, hwrites, hqueued, hone⟩ := hops
    obtain ⟨rfl, rfl⟩ := List.cons.inj (hreplies.symm.trans hone)
    obtain ⟨hw, hwritten⟩ := hs.running hrun
    refine ⟨⟨hreads, hwrites, hqueued, rfl, rfl, hopen⟩, hs.fits, ?_, ?_⟩
    · intro _
      refine ⟨hw, ?_⟩
      rw [← hwritten]
      simp [written, hreplies]
    · intro hend
      simp [hrun] at hend
  | reading hops => simp [hops.2.2.2] at hreplies
  | writing hops => simp [hops.2.2.2] at hreplies
  | executing hops => simp [hops.2.2.2] at hreplies
  | closed hops => simp [hops.2.2.2] at hreplies

/-- A completion that is not a failure keeps the accounts, and leaves the session waiting. -/
theorem step_spec {e : SessionEvent} {s' : ClientSession} (hs : Accounts h w (e.bytes ++ u) s)
    (hwait : Waiting s) (he : e.fails = false) (hstep : step h s e = some s') :
    Accounts h w u s' ∧ Waiting s' := by
  cases e with
  | received chunk =>
    obtain ⟨hguard, hstep⟩ := (Option.ite_none_right_eq_some ..).mp hstep
    obtain rfl := Option.some.inj hstep
    exact received_spec hs hwait hguard.1
  | readFailed => cases he
  | writeFailed => cases he
  | wrote =>
    obtain ⟨b, writes, hwrites, rfl⟩ := step_wrote hstep
    obtain ⟨hh, hs⟩ := wrote_spec hs hwait hwrites
    split
    · exact processInput_spec hs hh
    · -- nothing is left to parse, or the session is closing
      rename_i hdone
      refine ⟨hs.flush, hh.flush ?_⟩
      intro hrun _
      have hnil : s.input = [] := by simpa [show s.closing = false from hrun] using hdone
      rw [hnil]
      rfl
  | executed =>
    obtain ⟨cmd, queued, hqueued, rfl⟩ := step_executed hstep
    exact executed_spec hs hwait hqueued
  | replied =>
    obtain ⟨reply, replies, hreplies, rfl⟩ := step_replied hstep
    obtain ⟨hh, hs⟩ := replied_spec hs hwait hreplies
    exact processInput_spec hs hh

/-! ## Completions run out -/

/-- The session reads, or is closed: it has nothing to do until more of the stream arrives. -/
def Idle (s : ClientSession) : Prop := s.reads = 1 ∨ s.closed = true

/-- A bound on the completions until the session is idle. A request in the input can be handed over,
executed, replied to and written; an error is written once. -/
def measure (s : ClientSession) : ℕ :=
  4 * s.input.length + 3 * s.queued.length + 2 * s.replies.length + s.writes.length +
    if s.closing then 0 else 2

theorem measure_flush :
    s.flush.measure = s.measure + if s.output = [] then 0 else 1 := by
  unfold flush
  split
  · split
    · rfl
    · rfl
  · simp [measure]
    omega

/-- Output that is queued can cost a write; anything else that starts is paid for by the input. -/
theorem measure_processLoop {fuel : ℕ} :
    (processLoop h fuel s).measure ≤ s.measure + if s.output = [] then 0 else 1 := by
  induction fuel generalizing s with
  | zero => exact measure_flush.le
  | succ fuel ih =>
    rw [processLoop]
    split
    · exact measure_flush.le
    · rename_i hgo
      have hrun : s.closing = false := by simpa using fun hend => hgo (Or.inl hend)
      cases hparse : parseRequest s.input with
      | incomplete => exact measure_flush.le
      | error e =>
        simp only
        rw [measure_flush]
        simp [measure, hrun]
        split <;> omega
      | ok args rest =>
        have hlt := parseRequest_length hparse
        simp only
        split
        · refine ih.trans ?_
          simp only [measure]
          omega
        · split
          · refine ih.trans ?_
            simp only [measure, hrun]
            split_ifs <;> omega
          · simp only [measure, List.length_append, List.length_singleton]
            omega

theorem measure_processInput :
    (processInput h s).measure ≤ s.measure + if s.output = [] then 0 else 1 := by
  unfold processInput
  split
  · exact Nat.le_add_right _ _
  · exact measure_processLoop

/-- Every completion of a write or a command brings the session closer to being idle. -/
theorem measure_complete {e : SessionEvent} {s' : ClientSession} (hwait : Waiting s)
    (he : e.completes = true) (hstep : step h s e = some s') : s'.measure < s.measure := by
  cases e with
  | received chunk => cases he
  | readFailed => cases he
  | writeFailed => cases he
  | wrote =>
    obtain ⟨b, writes, hwrites, rfl⟩ := step_wrote hstep
    -- the write is gone, and nothing is queued that would start another
    have hout := (hwait.of_writes hwrites).2
    have hlt : measure { s with writes := writes, sent := s.sent ++ b } < s.measure := by
      simp [measure, hwrites]
    split
    · refine measure_processInput.trans_lt ?_
      simpa [hout] using hlt
    · rw [measure_flush]
      simpa [hout] using hlt
  | executed =>
    obtain ⟨cmd, queued, hqueued, rfl⟩ := step_executed hstep
    simp [measure, hqueued]
    omega
  | replied =>
    -- the reply is gone, and it may start a write
    obtain ⟨reply, replies, hreplies, rfl⟩ := step_replied hstep
    refine measure_processInput.trans_lt ?_
    simp only [measure, hreplies, List.length_cons]
    split_ifs <;> omega

/-- A session that is not idle waits for the completion of a write or a command. -/
theorem Waiting.idle_or_completes (hwait : Waiting s) (h : SessionHandler) :
    s.Idle ∨ ∃ e, e.completes = true ∧ (step h s e).isSome = true := by
  cases hwait with
  | reading hops => exact Or.inl (Or.inl hops.1)
  | writing hops => exact Or.inr ⟨.wrote, rfl, by simp [step, hops.2.1]⟩
  | executing hops => exact Or.inr ⟨.executed, rfl, by simp [step, hops.2.2.1]⟩
  | replying hops => exact Or.inr ⟨.replied, rfl, by simp [step, hops.2.2.2]⟩
  | closed hops hclosed => exact Or.inl (Or.inr hclosed)

/-- Writes and commands that complete, in any order, come to an end, and only in an idle session. -/
def Settles (h : SessionHandler) (s : ClientSession) : Prop :=
  ∃ bound, ∀ completions s', (∀ e ∈ completions, e.completes = true) →
    run (step h) s completions = some s' → completions.length ≤ bound ∧
      (s'.Idle ∨ ∃ e, e.completes = true ∧ (step h s' e).isSome = true)

/-- A completion brings no bytes and reports no failure. -/
theorem bytes_of_completes {e : SessionEvent} (he : e.completes = true) :
    e.bytes = [] ∧ e.fails = false := by
  cases e <;> simp_all [SessionEvent.completes, SessionEvent.bytes, SessionEvent.fails]

theorem length_add_measure_le {completions : List SessionEvent} {s' : ClientSession}
    (hs : Accounts h w u s) (hwait : Waiting s) (hall : ∀ e ∈ completions, e.completes = true)
    (hrun : run (step h) s completions = some s') :
    completions.length + s'.measure ≤ s.measure ∧ Waiting s' := by
  -- Induction on the completions: each costs at least one of the measure.
  induction completions generalizing s with
  | nil =>
    obtain rfl : s = s' := by simpa using hrun
    exact ⟨by simp, hwait⟩
  | cons e completions ih =>
    obtain ⟨s₁, hstep, hrun⟩ := run_cons_eq_some.mp hrun
    have he := hall e List.mem_cons_self
    have hbytes := bytes_of_completes he
    have hlt := measure_complete hwait he hstep
    rw [← List.nil_append u, ← hbytes.1] at hs
    obtain ⟨hs₁, hwait₁⟩ := step_spec hs hwait hbytes.2 hstep
    obtain ⟨hle, hwait'⟩ := ih hs₁ hwait₁ (fun e he => hall e (List.mem_cons_of_mem _ he)) hrun
    refine ⟨?_, hwait'⟩
    rw [List.length_cons]
    omega

theorem settles_of_waiting (hs : Accounts h w u s) (hwait : Waiting s) : Settles h s := by
  refine ⟨s.measure, ?_⟩
  intro completions s' hall hrun
  obtain ⟨hle, hwait'⟩ := length_add_measure_le hs hwait hall hrun
  exact ⟨by omega, hwait'.idle_or_completes h⟩

/-! ## The answer to the stream -/

/-- What was executed and sent is a part of what the stream asks for. -/
theorem Accounts.isPrefix (hs : Accounts h w u s) :
    s.executed <+: (requests w).1 ∧ s.sent <+: answer h w := by
  cases hclosing : s.closing with
  | false =>
    -- the commands still to be executed, and their replies, come behind
    obtain ⟨hw, hwritten⟩ := hs.running hclosing
    have hexecuted : s.executed <+: (requests w).1 := by
      rw [hw, List.append_assoc]
      exact List.prefix_append _ _
    refine ⟨hexecuted, ?_⟩
    have hsent : s.sent <+: transcript h 0 s.executed := by
      rw [← hwritten, written, List.append_assoc, List.append_assoc]
      exact List.prefix_append _ _
    obtain ⟨cmds, hcmds⟩ := hexecuted
    rw [answer, ← hcmds, transcript_append, List.append_assoc]
    exact hsent.trans (List.prefix_append _ _)
  | true =>
    -- everything was executed, and the rest of the replies is in flight
    obtain ⟨hexecuted, -, -, hwritten⟩ := hs.ending hclosing
    refine ⟨hexecuted ▸ List.prefix_rfl, ?_⟩
    rw [← hwritten, written, List.append_assoc]
    exact List.prefix_append _ _

/-- A session that is closed, or reads after the end of the stream, has answered the stream. -/
theorem Accounts.complete (hs : Accounts h w u s) (hwait : Waiting s)
    (hdone : s.closed = true ∨ s.reads = 1 ∧ u = []) :
    s.executed = (requests w).1 ∧ s.sent = answer h w := by
  cases hwait with
  | reading hops hrpc hopen hrun hout hin =>
    -- the stream has ended, and what is left of it is not a request
    obtain ⟨hreads, hwrites, hqueued, hreplies⟩ := hops
    obtain ⟨-, rfl⟩ := hdone.resolve_left (by simp [hopen])
    obtain ⟨hw, hwritten⟩ := hs.running hrun
    rw [List.append_nil, requests_of_incomplete hin, hqueued] at hw
    simp only [List.append_nil] at hw
    refine ⟨by simp [hw], ?_⟩
    rw [answer, hw]
    simpa [written, hwrites, hreplies, hout] using hwritten
  | closed hops hclosed hend hout =>
    obtain ⟨hexecuted, -, -, hwritten⟩ := hs.ending hend
    refine ⟨hexecuted.symm, ?_⟩
    simpa [written, hops.2.1, hout] using hwritten
  | writing hops hrpc hopen => simp [hops.1, hopen] at hdone
  | executing hops hopen => simp [hops.1, hopen] at hdone
  | replying hops hopen => simp [hops.1, hopen] at hdone

theorem step_eq_none (hreads : s.reads = 0) (hwrites : s.writes = []) (hqueued : s.queued = [])
    (hreplies : s.replies = []) (e : SessionEvent) : step h s e = none := by
  cases e <;> simp [step, hreads, hwrites, hqueued, hreplies]

/-- A failure of the connection is the last completion of the session. -/
theorem step_of_fails {e : SessionEvent} {s' : ClientSession} (hwait : Waiting s)
    (he : e.fails = true) (hstep : step h s e = some s') :
    s'.executed = s.executed ∧ s'.sent = s.sent ∧ ∀ e', step h s' e' = none := by
  cases e with
  | readFailed =>
    obtain ⟨hreads, hstep⟩ := (Option.ite_none_right_eq_some ..).mp hstep
    obtain rfl := Option.some.inj hstep
    have hh := hwait.of_reads hreads
    exact ⟨rfl, rfl, step_eq_none hh.reads hh.writes hh.queued hh.replies⟩
  | writeFailed =>
    obtain ⟨b, writes, hwrites, rfl⟩ := step_writeFailed hstep
    obtain ⟨hh, -⟩ := hwait.of_writes hwrites
    exact ⟨rfl, rfl, step_eq_none hh.reads hh.writes hh.queued hh.replies⟩
  | received chunk => cases he
  | wrote => cases he
  | executed => cases he
  | replied => cases he

/-- **Runs of a session**: what is executed and sent is a part of what the stream asks for, and
without failures the accounts are kept. -/
theorem run_spec {events : List SessionEvent} {s' : ClientSession}
    (hs : Accounts h w (received events ++ u) s) (hwait : Waiting s)
    (hrun : run (step h) s events = some s') :
    (s'.executed <+: (requests w).1 ∧ s'.sent <+: answer h w) ∧
      ((∀ e ∈ events, e.fails = false) → Accounts h w u s' ∧ Waiting s') := by
  induction events generalizing s with
  | nil =>
    obtain rfl : s = s' := by simpa using hrun
    exact ⟨hs.isPrefix, fun _ => ⟨hs, hwait⟩⟩
  | cons e events ih =>
    obtain ⟨s₁, hstep, hrun⟩ := run_cons_eq_some.mp hrun
    cases he : e.fails with
    | false =>
      -- the bytes of the completion move from what is still to come to the session
      have hbytes : received (e :: events) ++ u = e.bytes ++ (received events ++ u) := by
        simp [received]
      rw [hbytes] at hs
      obtain ⟨hs₁, hwait₁⟩ := step_spec hs hwait he hstep
      obtain ⟨hpart, hgood⟩ := ih hs₁ hwait₁ hrun
      exact ⟨hpart, fun hall => hgood fun e he => hall e (List.mem_cons_of_mem _ he)⟩
    | true =>
      -- a failure ends the run
      obtain ⟨hexecuted, hsent, hdead⟩ := step_of_fails hwait he hstep
      cases events with
      | nil =>
        obtain rfl : s₁ = s' := by simpa using hrun
        constructor
        · rw [hexecuted, hsent]
          exact hs.isPrefix
        · intro hall
          exact absurd (hall e List.mem_cons_self) (by simp [he])
      | cons e' events => simp [run_cons, hdead e'] at hrun

theorem accounts_start (hw : LinesFit w) : Accounts h w w start where
  fits := hw
  running _ := ⟨rfl, rfl⟩
  ending hend := by cases hend

theorem waiting_start : Waiting start := .reading ⟨rfl, rfl, rfl, rfl⟩ rfl rfl rfl rfl rfl

/-- **A session answers the byte stream.** For a stream whose inline commands are not too long, cut
into chunks in any way, with completions at any time: what has been executed and sent is a part of
what the stream asks for. If the connection does not fail, the outstanding writes and commands come
to an end, and a session that has closed, or that reads again when the whole stream has arrived, has
executed exactly the commands of the stream and sent exactly its answer. -/
theorem answers_stream (h : SessionHandler) (hw : LinesFit w) {events : List SessionEvent}
    (hrun : run (step h) start events = some s) (hstream : received events <+: w) :
    s.executed <+: (requests w).1 ∧ s.sent <+: answer h w ∧
      ((∀ e ∈ events, e.fails = false) → Settles h s ∧
        (s.closed = true ∨ s.reads = 1 ∧ received events = w →
          s.executed = (requests w).1 ∧ s.sent = answer h w)) := by
  obtain ⟨u, rfl⟩ := hstream
  obtain ⟨hpart, hgood⟩ := run_spec (accounts_start hw) waiting_start hrun
  refine ⟨hpart.1, hpart.2, ?_⟩
  intro hall
  obtain ⟨hs, hwait⟩ := hgood hall
  refine ⟨settles_of_waiting hs hwait, fun hdone => hs.complete hwait (hdone.imp_right ?_)⟩
  rintro ⟨hreads, hall⟩
  exact ⟨hreads, by simpa using hall⟩

/-- A `GET` that waits on peers, cut before its line break, with two commands behind it. -/
theorem answers_stream_splitGet :
    ∃ s, run (step ⟨fun _ _ _ => false, fun i _ => appendInteger (Int64.ofNat i)⟩) start
        [.received (ascii "GET k\r"), .received (ascii "\nPING\r\nQUIT\r\n"), .executed, .replied,
          .wrote] = some s ∧
      s.closed = true ∧
      s.executed = (requests (ascii "GET k\r\nPING\r\nQUIT\r\n")).1 ∧
      s.sent = ascii ":0\r\n:1\r\n:2\r\n" := by
  have hclosed : (run (step ⟨fun _ _ _ => false, fun i _ => appendInteger (Int64.ofNat i)⟩) start
      [.received (ascii "GET k\r"), .received (ascii "\nPING\r\nQUIT\r\n"), .executed, .replied,
        .wrote]).map ClientSession.closed = some true := by decide
  obtain ⟨s, hrun, hclosed⟩ := Option.map_eq_some_iff.mp hclosed
  have hanswer : answer ⟨fun _ _ _ => false, fun i _ => appendInteger (Int64.ofNat i)⟩
      (ascii "GET k\r\nPING\r\nQUIT\r\n") = ascii ":0\r\n:1\r\n:2\r\n" := by decide
  have hfit : LinesFit (ascii "GET k\r\nPING\r\nQUIT\r\n") :=
    linesFit_of_length_le (by decide)
  have hdone := (answers_stream _ hfit hrun (by decide)).2.2 (by decide) |>.2
    (Or.inl hclosed)
  exact ⟨s, hrun, hclosed, hdone.1, hdone.2.trans hanswer⟩

/-! ## A request in pieces -/

/-- The session while it waits for the rest of a request. -/
def listening (buf : Bytes) : ClientSession := { input := buf, reads := 1 }

variable {buf chunk : Bytes} {chunks : List Bytes} {e : Bytes}

theorem step_listening (hne : chunk ≠ []) (hlen : chunk.length ≤ 16 * 1024) :
    step h (listening buf) (.received chunk) =
      some (processLoop h (buf ++ chunk).length { input := buf ++ chunk }) := by
  simp [step, listening, processInput, hne, hlen]

/-- A chunk that does not complete the request is kept, and the session reads again. -/
theorem step_listening_incomplete (hne : chunk ≠ []) (hlen : chunk.length ≤ 16 * 1024)
    (hparse : parseRequest (buf ++ chunk) = .incomplete) :
    step h (listening buf) (.received chunk) = some (listening (buf ++ chunk)) := by
  rw [step_listening hne hlen]
  cases hinput : buf ++ chunk with
  | nil => simp [hne] at hinput
  | cons c input =>
    rw [hinput] at hparse
    simp [processLoop, hparse, flush, doRead, listening, kMaxPendingOutput]

/-- A chunk with which the request is refused is answered with the error, and the session closes. -/
theorem step_listening_error (hne : chunk ≠ []) (hlen : chunk.length ≤ 16 * 1024)
    (hparse : parseRequest (buf ++ chunk) = .error e) :
    step h (listening buf) (.received chunk) =
      some { input := buf ++ chunk, closing := true, writes := [appendError e] } := by
  rw [step_listening hne hlen]
  cases hinput : buf ++ chunk with
  | nil => simp [hne] at hinput
  | cons c input =>
    rw [hinput] at hparse
    simp [processLoop, hparse, flush, appendError, kMaxPendingOutput]

/-- **While a session waits for a request it tries the parser after each chunk**, up to the chunk with
which the parser decides. -/
theorem listens_until_decided {decided : Parsed UInt8 Bytes (List Bytes)}
    (hchunks : ∀ c ∈ chunks, c ≠ [] ∧ c.length ≤ 16 * 1024)
    (hretry : retry buf chunks = decided) (hdecided : decided ≠ .incomplete) :
    ∃ (front : List Bytes) (chunk : Bytes) (back : List Bytes), chunks = front ++ chunk :: back ∧
      run (step h) (listening buf) (front.map .received) =
        some (listening (buf ++ front.flatten)) ∧
      parseRequest (buf ++ front.flatten ++ chunk) = decided := by
  induction chunks generalizing buf with
  | nil => exact absurd hretry.symm hdecided
  | cons chunk chunks ih =>
    obtain ⟨⟨hne, hlen⟩, hchunks⟩ := List.forall_mem_cons.mp hchunks
    cases hparse : parseRequest (buf ++ chunk) with
    | incomplete =>
      simp only [retry, hparse] at hretry
      obtain ⟨front, next, back, rfl, hrun, hnext⟩ := ih hchunks hretry
      refine ⟨chunk :: front, next, back, rfl, ?_, by simpa using hnext⟩
      rw [List.map_cons, run_cons, step_listening_incomplete hne hlen hparse]
      simpa using hrun
    | ok args rest =>
      simp only [retry, hparse] at hretry
      exact ⟨[], chunk, chunks, rfl, by simp, by simpa [hparse] using hretry⟩
    | error e =>
      simp only [retry, hparse] at hretry
      exact ⟨[], chunk, chunks, rfl, by simp, by simpa [hparse] using hretry⟩

/-- **A session refuses what the parser refuses**: it answers with the error and closes. -/
theorem refuses_line (hchunks : ∀ c ∈ chunks, c ≠ [] ∧ c.length ≤ 16 * 1024)
    (hretry : retry [] chunks = .error e) :
    ∃ n input, run (step h) start ((chunks.take n).map .received) =
      some { input := input, closing := true, writes := [appendError e] } := by
  obtain ⟨front, chunk, back, rfl, hrun, hparse⟩ :=
    listens_until_decided (h := h) hchunks hretry (by simp)
  obtain ⟨hne, hlen⟩ := hchunks chunk (by simp)
  refine ⟨front.length + 1, front.flatten ++ chunk, ?_⟩
  have htake : (front ++ chunk :: back).take (front.length + 1) = front ++ [chunk] := by
    simp [List.take_append]
  rw [htake, List.map_append, run_append, show start = listening [] from rfl, hrun]
  simp only [Option.bind_some, List.map_cons, List.map_nil, run_cons]
  rw [step_listening_error hne hlen hparse]
  simp

end ClientSession

end ShardCache
