import ShardCache.Network.Coordinator
import ShardCache.Network.GossipWire

/-!
# What nodes ask each other

Nodes send each other replica writes, replica reads and their views of the members, to the port at
which clients are served, and the handler of clients answers them. A client can ask for a reply that
is no single value: an error text may repeat an argument with a line break. The requests of nodes
are never answered so. The error texts that they can get are fixed, and it is enough that what the
node reads or merges is within the limits of the protocol.

## Main definitions

* `SentByNodes`: the arguments that nodes send each other
* `NodeRequest`, `NodeCall`: such a request, and a numbered one
* `Served`: the reply of some node, in some state

## Main results

* `Served.oneReply`: the reply to a request of a node is one value
-/

namespace ShardCache

open Resp CommandHandler

/-- What nodes send each other over channels and pooled connections: `replica_write_command` in
`replicate`, `read_repair` and `send_write`, `replica_get_command` in `collect`, and the view in
`exchange_gossip`. -/
inductive SentByNodes : List Bytes → Prop where
  | write (key : Key) (v : VersionedValue) : SentByNodes (replicaWriteCommand key v)
  | read (key : Key) : SentByNodes (replicaGetCommand key)
  | gossip (view : List MemberInfo) : SentByNodes (gossipCommand view)

theorem SentByNodes.ne_nil {args : List Bytes} (h : SentByNodes args) : args ≠ [] := by
  cases h with
  | write key v =>
    unfold replicaWriteCommand
    split <;> simp
  | read key => exact List.cons_ne_nil _ _
  | gossip view => exact List.cons_ne_nil _ _

/-- A request of a node, which the session of the peer reads. -/
structure NodeRequest where
  args : List Bytes
  sent : SentByNodes args
  limits : WithinLimits args

/-- A request of a node with its number. -/
structure NodeCall where
  number : ℕ
  request : NodeRequest

/-- The command that the peer executes. -/
def NodeCall.command (call : NodeCall) : Command := Parser.parse call.request.args

/-- Some node answers a command so, from some state in which what it reads or merges is within the
limits of the protocol. Two replies need not be from one state, or from one node. -/
def Served (cmd : Command) (reply : Bytes) : Prop :=
  ∃ (σ : Type) (api : ClusterApi σ) (s : σ), Sized api s cmd ∧ reply = (dispatch api cmd s).2

theorem parse_replicaGetCommand (key : Key) :
    Parser.parse (replicaGetCommand key) = { type := .replGet, key := key } := by
  have hlookup : Parser.verbs.lookup (Parser.toUpper (ascii "REPL_GET")) = some .replGet := by
    decide
  unfold replicaGetCommand Parser.parse
  dsimp only
  rw [hlookup]

/-- The error text of a refused request of a node repeats nothing. -/
theorem SentByNodes.findCrlf_error {args : List Bytes} (h : SentByNodes args) :
    (Parser.parse args).type = .unknown → findCrlf (Parser.parse args).error = none := by
  cases h with
  | write key v =>
    rw [parse_replicaWriteCommand]
    split_ifs
    · exact False.elim
    · exact False.elim
    · -- the time to live is beyond the limit of `REPL_SET`
      intro _
      decide
  | read key =>
    rw [parse_replicaGetCommand]
    exact CommandType.noConfusion
  | gossip view =>
    rw [parse_gossipCommand]
    exact CommandType.noConfusion

/-- **The reply to a request of a node is one value.** -/
theorem Served.oneReply {args : List Bytes} {reply : Bytes} (hsent : SentByNodes args)
    (h : Served (Parser.parse args) reply) : OneReply reply := by
  obtain ⟨σ, api, s, hsized, rfl⟩ := h
  exact (oneReply_dispatch_iff _ s).mpr ⟨hsent.findCrlf_error, hsized⟩

/-- A node that held the key before every other write, and otherwise holds nothing. -/
def alternating (n : ℕ) : ClusterApi Unit :=
  { emptyCluster with applyReplicaWrite := fun _ _ _ => ((), n % 2 = 1) }

theorem served_alternating (n : ℕ) {args : List Bytes} (h : SentByNodes args) :
    Served (Parser.parse args) (dispatch (alternating n) (Parser.parse args) ()).2 := by
  refine ⟨Unit, alternating n, (), ?_, rfl⟩
  cases h with
  | write key v =>
    rw [parse_replicaWriteCommand]
    split_ifs <;> trivial
  | read key =>
    rw [parse_replicaGetCommand]
    intro v hv
    cases hv
  | gossip view =>
    rw [parse_gossipCommand]
    intro remote _
    exact ⟨Nat.zero_le _, nofun⟩

/-- The deletion of a key, as it is sent to a replica. -/
def deletion : NodeRequest := ⟨replicaWriteCommand [107] ⟨[], 7, true, none⟩, .write _ _, by decide⟩

end ShardCache
