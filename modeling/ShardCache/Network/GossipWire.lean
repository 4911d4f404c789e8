import ShardCache.Network.CommandHandler
import ShardCache.Protocol.Grammar
import ShardCache.Replication.Handoff

/-!
# Gossip on the wire

A node sends its view of the members as the arguments of `CLUSTER GOSSIP`, five for each member. The
peer merges them and answers with its own view, in an array of as many elements. Both sides read the
records back field by field, and merge nothing if one of the numbers cannot be read.

## Main definitions

* `gossipCommand`, `gossipReply`: a view in a request and in a reply
* `exchangeGossip`: what the sender does with the result of the request
* `Undecodable`: a payload with an entry whose port or generation cannot be read

## Main results

* `readGossip_fields`: the fields of a view are read back
* `readGossip_eq_none_iff`: nothing is read exactly if an entry cannot be decoded
* `long_id_refused`: an identifier that is too long for the peer
* `gossip_round_trip`: within the limits of the protocol, both sides read the view that was sent
-/

namespace ShardCache

open Foundations Resp CommandHandler
open Handoff (replyText)

/-- The arguments that `exchange_gossip` sends. -/
def gossipCommand (view : List MemberInfo) : List Bytes :=
  ascii "CLUSTER" :: ascii "GOSSIP" :: view.flatMap memberFields

/-- The reply to `CLUSTER GOSSIP`. -/
def gossipReply (view : List MemberInfo) : Bytes :=
  appendArrayHeader (view.length * 5) ++
    (view.map fun m => ((memberFields m).map appendBulk).flatten).flatten

/-- `exchange_gossip`, from the result of the request on; `none` if there is no connection. The
elements of the reply are read as text, whatever their type. -/
def exchangeGossip (s : Membership.State) : Option CallResult → Membership.State × Bool
  | some (.success (.array elements)) =>
    match readGossip (elements.map replyText) with
    | none => (s, false)
    | some remote => ((s.mergeGossip remote).1, true)
  | _ => (s, false)

/-- An entry of the payload has a port or a generation that cannot be read. What is left over behind
the last whole entry is not looked at. -/
def Undecodable (payload : List Bytes) : Prop :=
  ∃ i, 5 * i + 4 < payload.length ∧
    (stoi (payload.getD (5 * i + 2) []) = none ∨ stoull (payload.getD (5 * i + 3) []) = none)

/-- The names of the members are within the limit of the protocol. -/
def NamesFit (view : List MemberInfo) : Prop :=
  ∀ m ∈ view, m.node.id.length ≤ kMaxBulkLength ∧ m.node.host.length ≤ kMaxBulkLength

/-! ## Records -/

/-- A port survives the way through a signed number. -/
theorem ofInt_toNat (port : UInt16) : UInt16.ofInt port.toNat = port := by
  have hlt := port.toNat_lt
  have hmod : ((port.toNat : ℤ) % 2 ^ 16).toNat = port.toNat := by omega
  rw [UInt16.ofInt, hmod, UInt16.ofNat_toNat]

/-- The fields of a view are read back. -/
theorem readGossip_fields (view : List MemberInfo) :
    readGossip (view.flatMap memberFields) = some view := by
  induction view with
  | nil => rfl
  | cons m view ih =>
    have hport := m.node.port.toNat_lt
    have hstatus : (if (if m.status = .alive then ascii "alive" else ascii "left") = ascii "left"
        then MemberStatus.left else .alive) = m.status := by
      cases m.status <;> decide
    simp only [List.flatMap_cons, memberFields, List.cons_append, List.nil_append, readGossip,
      stoi_decimal (show m.node.port.toNat < 2 ^ 31 by omega), stoull_decimal, ih, hstatus]
    simp [ofInt_toNat]

/-- An entry that cannot be decoded is the first one, or is behind it. -/
theorem undecodable_cons_iff {id host port generation status : Bytes} {payload : List Bytes} :
    Undecodable (id :: host :: port :: generation :: status :: payload) ↔
      (stoi port = none ∨ stoull generation = none) ∨ Undecodable payload := by
  constructor
  · rintro ⟨i, hlt, hnone⟩
    cases i with
    | zero => exact Or.inl hnone
    | succ i =>
      refine Or.inr ⟨i, ?_, hnone⟩
      simp only [List.length_cons] at hlt
      omega
  · rintro (hnone | ⟨i, hlt, hnone⟩)
    · exact ⟨0, by simp, hnone⟩
    · refine ⟨i + 1, ?_, hnone⟩
      simp only [List.length_cons]
      omega

/-- Nothing is read exactly if an entry cannot be decoded. -/
theorem readGossip_eq_none_iff (payload : List Bytes) :
    readGossip payload = none ↔ Undecodable payload := by
  induction payload using readGossip.induct with
  | case1 id host port generation status payload ih =>
    rw [undecodable_cons_iff, ← ih, readGossip]
    cases stoi port with
    | none => simp
    | some port =>
      cases stoull generation with
      | none => simp
      | some generation =>
        cases readGossip payload with
        | none => simp
        | some remote => simp
  | case2 payload hshort =>
    -- fewer than five fields are no entry
    have hlen : payload.length < 5 := by
      match payload with
      | [] | [_] | [_, _] | [_, _, _] | [_, _, _, _] => simp
      | id :: host :: port :: generation :: status :: payload =>
        exact absurd rfl (hshort id host port generation status payload)
    rw [readGossip]
    · constructor
      · nofun
      · rintro ⟨i, hlt, -⟩
        omega
    · exact hshort

/-! ## Through the protocol -/

theorem length_flatMap_memberFields (view : List MemberInfo) :
    (view.flatMap memberFields).length = 5 * view.length := by
  induction view with
  | nil => rfl
  | cons m view ih =>
    rw [List.flatMap_cons, List.length_append, ih, List.length_cons]
    show 5 + 5 * view.length = 5 * (view.length + 1)
    omega

/-- The request is within the limits of the protocol if the names are, and there are not too many
members. -/
theorem withinLimits_gossipCommand_iff (view : List MemberInfo) :
    WithinLimits (gossipCommand view) ↔ 2 + 5 * view.length ≤ kMaxArrayLength ∧ NamesFit view := by
  have hlen : (gossipCommand view).length = 2 + 5 * view.length := by
    rw [gossipCommand, List.length_cons, List.length_cons, length_flatMap_memberFields]
    omega
  have hnames : (∀ a ∈ gossipCommand view, a.length ≤ kMaxBulkLength) ↔ NamesFit view := by
    have hcluster : (ascii "CLUSTER").length ≤ kMaxBulkLength := by decide
    have hgossip : (ascii "GOSSIP").length ≤ kMaxBulkLength := by decide
    rw [gossipCommand, List.forall_mem_cons, List.forall_mem_cons, List.forall_mem_flatMap]
    simp only [hcluster, hgossip, true_and, memberFields_fit_iff]
    rfl
  rw [WithinLimits, hlen, hnames]

/-- The reply is an array of bulk strings. -/
theorem gossipReply_eq_encode (view : List MemberInfo) :
    gossipReply view =
      (RespValue.array ((view.flatMap memberFields).map .bulkString)).encode := by
  have hbody : (view.map fun m => ((memberFields m).map appendBulk).flatten).flatten =
      ((view.flatMap memberFields).map appendBulk).flatten := by
    induction view with
    | nil => rfl
    | cons m view ih => simp [ih]
  rw [gossipReply, RespValue.encode, RespValue.encodeAll_eq, List.length_map,
    length_flatMap_memberFields, Nat.mul_comm, hbody, List.map_map]
  rfl

/-- A reply that fits is read as an array, whose elements are the fields of the view. -/
theorem parseReply_gossipReply {view : List MemberInfo} (hlen : 5 * view.length ≤ kMaxArrayLength)
    (hnames : NamesFit view) (more : Bytes) :
    parseReply.parse (gossipReply view ++ more) =
      .ok (.array ((view.flatMap memberFields).map .bulkString)) more := by
  have hencodable : (RespValue.array ((view.flatMap memberFields).map .bulkString)).Encodable := by
    refine .array (by rwa [List.length_map, length_flatMap_memberFields]) ?_
    rw [List.forall_mem_map, List.forall_mem_flatMap]
    intro m hm field hfield
    exact .bulkString ((memberFields_fit_iff m).mpr (hnames m hm) field hfield)
  rw [gossipReply_eq_encode]
  exact hencodable.whole.parse_append more

/-- The parser takes the payload as it is, if it is one of whole records. -/
theorem parse_clusterGossip (payload : List Bytes) :
    Parser.parse (ascii "CLUSTER" :: ascii "GOSSIP" :: payload) =
      if payload.length % 5 ≠ 0 then Parser.invalid (ascii "ERR malformed gossip payload")
      else { type := .clusterGossip, keys := payload } := by
  have hlookup : Parser.verbs.lookup (Parser.toUpper (ascii "CLUSTER")) = some .cluster := by
    decide
  have hgossip : Parser.toUpper (ascii "GOSSIP") = ascii "GOSSIP" := by decide
  unfold Parser.parse
  dsimp only
  rw [hlookup]
  dsimp only
  rw [if_pos hgossip]

theorem parse_gossipCommand (view : List MemberInfo) :
    Parser.parse (gossipCommand view) =
      { type := .clusterGossip, keys := view.flatMap memberFields } := by
  rw [gossipCommand, parse_clusterGossip, length_flatMap_memberFields, if_neg (by simp)]

/-- A payload that cannot be decoded changes nothing on the peer. -/
theorem dispatch_undecodable {σ : Type} (api : ClusterApi σ) (s : σ) {payload : List Bytes}
    (h : Undecodable payload) :
    (dispatch api (Parser.parse (ascii "CLUSTER" :: ascii "GOSSIP" :: payload)) s).1 = s := by
  rw [parse_clusterGossip]
  split_ifs with hlen
  · -- the command is refused before it is decoded
    rfl
  · simp [dispatch, (readGossip_eq_none_iff payload).mpr h]

/-- **An identifier that is too long**: the peer refuses the request. -/
theorem long_id_refused :
    2 + 5 * [(⟨⟨List.replicate (kMaxBulkLength + 1) 97, [], 0⟩, 0, .alive⟩ : MemberInfo)].length ≤
        kMaxArrayLength ∧
      ∃ e, parseRequest (command (gossipCommand
        [⟨⟨List.replicate (kMaxBulkLength + 1) 97, [], 0⟩, 0, .alive⟩])) = .error e := by
  refine ⟨by decide, ?_⟩
  have hlong : ¬WithinLimits (gossipCommand
      [⟨⟨List.replicate (kMaxBulkLength + 1) 97, [], 0⟩, 0, .alive⟩]) := by
    rw [withinLimits_gossipCommand_iff]
    rintro ⟨-, hnames⟩
    have hid := (hnames _ List.mem_cons_self).1
    rw [List.length_replicate] at hid
    exact absurd hid (Nat.not_succ_le_self _)
  obtain ⟨hwithin, -⟩ | ⟨-, e, herror⟩ := parseRequest_command (gossipCommand
      [⟨⟨List.replicate (kMaxBulkLength + 1) 97, [], 0⟩, 0, .alive⟩]) []
  · exact absurd hwithin hlong
  · rw [List.append_nil] at herror
    exact ⟨e, herror⟩

/-- **Gossip payloads are read back.** A view within the limits of the protocol is merged by the peer
as it was sent, the view in the reply is merged by the sender as it was sent, and a payload that
cannot be decoded changes nothing on either side. -/
theorem gossip_round_trip {σ : Type} (api : ClusterApi σ) (s : σ) (st : Membership.State) :
    (∀ view more, 2 + 5 * view.length ≤ kMaxArrayLength → NamesFit view →
      ∃ args, parseRequest (command (gossipCommand view) ++ more) = .ok args more ∧
        readGossip (Parser.parse args).keys = some view ∧
        dispatch api (Parser.parse args) s =
          ((api.mergeGossip s view).1, gossipReply (api.mergeGossip s view).2)) ∧
    (∀ view more, 5 * view.length ≤ kMaxArrayLength → NamesFit view →
      ∃ elements, parseReply.parse (gossipReply view ++ more) = .ok (.array elements) more ∧
        readGossip (elements.map replyText) = some view ∧
        exchangeGossip st (some (.success (.array elements))) = ((st.mergeGossip view).1, true)) ∧
    (∀ payload, Undecodable payload →
      (dispatch api (Parser.parse (ascii "CLUSTER" :: ascii "GOSSIP" :: payload)) s).1 = s) ∧
    ∀ elements, Undecodable (elements.map replyText) →
      exchangeGossip st (some (.success (.array elements))) = (st, false) := by
  refine ⟨?_, ?_, fun payload => dispatch_undecodable api s, ?_⟩
  · intro view more hlen hnames
    have hwithin := (withinLimits_gossipCommand_iff view).mpr ⟨hlen, hnames⟩
    have hparse := parse_gossipCommand view
    have hread := readGossip_fields view
    refine ⟨gossipCommand view, ?_, ?_, ?_⟩
    · rw [parseRequest_of_head (head?_command_append _ more)]
      exact (whole_command hwithin).parse_append more
    · rw [hparse, hread]
    · rw [hparse]
      simp [dispatch, hread, gossipReply]
  · intro view more hlen hnames
    have htext : ((view.flatMap memberFields).map RespValue.bulkString).map replyText =
        view.flatMap memberFields := by
      rw [List.map_map]
      exact List.map_id _
    refine ⟨_, parseReply_gossipReply hlen hnames more, ?_, ?_⟩
    · rw [htext, readGossip_fields]
    · simp [exchangeGossip, htext, readGossip_fields]
  · intro elements hnone
    simp [exchangeGossip, (readGossip_eq_none_iff _).mpr hnone]

/-- A node with a line break for a name, the last port and the last generation, that has left. -/
theorem gossip_round_trip_lastGeneration :
    ∃ args, parseRequest (command (gossipCommand
        [⟨⟨[13, 10], [], 65535⟩, 18446744073709551615, .left⟩]) ++ [42]) = .ok args [42] ∧
      readGossip (Parser.parse args).keys =
        some [⟨⟨[13, 10], [], 65535⟩, 18446744073709551615, .left⟩] := by
  have hnames : NamesFit [⟨⟨[13, 10], [], 65535⟩, 18446744073709551615, .left⟩] := by
    simp [NamesFit, kMaxBulkLength]
  obtain ⟨args, hparse, hread, -⟩ := (gossip_round_trip emptyCluster ()
    (.init ⟨[97], [], 0⟩ 1 0)).1 _ [42] (by decide) hnames
  exact ⟨args, hparse, hread⟩

end ShardCache
