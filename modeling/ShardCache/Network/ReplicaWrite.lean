import ShardCache.Network.CommandHandler

/-!
# Replica writes on the wire

A coordinator sends a write to a replica as a `REPL_SET` or `REPL_DEL` request, which the replica
parses with the same parser as the requests of clients. The parser holds the time to live of
`REPL_SET` to a limit in milliseconds, and the one of `EXPIRE` to the same number in seconds.

## Main definitions

* `replicaWriteCommand`: the request for a write
* `Held key v`: a coordinator can hold the write `v` after accepting commands of clients
* `Understood key v`: the replica rebuilds the write from the request

## Main results

* `expire_not_understood`: an accepted `EXPIRE` whose write is refused by the replica
* `understood_iff`: the writes that are rebuilt are those within the limits
-/

namespace ShardCache

open Foundations Replication Resp CommandHandler

/-- `replica_write_command`. -/
def replicaWriteCommand (key : Key) (v : VersionedValue) : List Bytes :=
  if v.tombstone then [ascii "REPL_DEL", key, decimal v.version.toNat]
  else
    [ascii "REPL_SET", key, v.value, decimal v.version.toNat] ++
      match v.ttl with
      | none => []
      | some ttl => [ascii "PX", decimal (max 1 ttl)]

/-- The longest time to live that `REPL_SET` accepts. -/
def maxTtl : ℕ := (Parser.kMaxTtlSeconds * 1000).toNat

/-- The time to live of a write is the one that was accepted, or less of it is left. -/
def Remains (accepted ttl : Option Millis) : Prop :=
  match accepted, ttl with
  | none, none => True
  | some t, some r => r ≤ t
  | _, _ => False

/-- A coordinator can hold the write after commands that `Parser::parse` accepted. -/
inductive Held : Key → VersionedValue → Prop where
  | set {args : List Bytes} {cmd : Command} (version : UInt64) {ttl : Option Millis}
      (hparse : Parser.parse args = cmd) (htype : cmd.type = .set)
      (httl : Remains (toTtl cmd.ttlMs) ttl) : Held cmd.key ⟨cmd.value, version, false, ttl⟩
  | del {args : List Bytes} {cmd : Command} (version : UInt64) {key : Key}
      (hparse : Parser.parse args = cmd) (htype : cmd.type = .delete) (hkey : key ∈ cmd.keys) :
      Held key ⟨[], version, true, none⟩
  | expire {args : List Bytes} {cmd : Command} {v : VersionedValue} (version : UInt64)
      {ttl : Option Millis} (hparse : Parser.parse args = cmd) (htype : cmd.type = .expire)
      (hheld : Held cmd.key v) (hlive : v.tombstone = false)
      (httl : Remains (toTtl cmd.ttlMs) ttl) : Held cmd.key ⟨v.value, version, false, ttl⟩

/-- The replica reads the request as one command, a replica write, and applies the same write to the
same key, with a time to live of at least one millisecond. -/
def Understood (key : Key) (v : VersionedValue) : Prop :=
  ∃ args, parseRequest (command (replicaWriteCommand key v)) = .ok args [] ∧
    ((Parser.parse args).type = .replSet ∨ (Parser.parse args).type = .replDelete) ∧
    ∀ (σ : Type) (api : ClusterApi σ) (s : σ),
      dispatch api (Parser.parse args) s =
        let (s, wasLive) :=
          api.applyReplicaWrite s key ⟨v.value, v.version, v.tombstone, v.ttl.map (max 1)⟩
        (s, appendInteger (if wasLive then 1 else 0))

/-! ## A write that no replica understands -/

/-- **An accepted `EXPIRE` that no replica understands**: after `SET k v`, `EXPIRE k 315360001` is
accepted, and the replica answers its write with a syntax error. -/
theorem expire_not_understood :
    Held [107] ⟨[118], 7, false, some 315360001000⟩ ∧
      ¬Understood [107] ⟨[118], 7, false, some 315360001000⟩ ∧
      Parser.parse (replicaWriteCommand [107] ⟨[118], 7, false, some 315360001000⟩) =
        Parser.invalid (ascii "ERR syntax error") := by
  have hset : Parser.parse [ascii "SET", [107], [118]] =
      { type := .set, key := [107], value := [118] } := by decide
  have hexpire : Parser.parse [ascii "EXPIRE", [107], ascii "315360001"] =
      { type := .expire, key := [107], ttlMs := some 315360001000 } := by decide
  have hrefused : Parser.parse (replicaWriteCommand [107] ⟨[118], 7, false, some 315360001000⟩) =
      Parser.invalid (ascii "ERR syntax error") := by decide
  have hrequest : parseRequest
      (command (replicaWriteCommand [107] ⟨[118], 7, false, some 315360001000⟩)) =
      .ok (replicaWriteCommand [107] ⟨[118], 7, false, some 315360001000⟩) [] := by decide
  refine ⟨?_, ?_, hrefused⟩
  · -- the value of `SET`, with the time to live of `EXPIRE`
    have hstored : Held [107] ⟨[118], 6, false, none⟩ := Held.set 6 hset rfl trivial
    exact Held.expire 7 hexpire rfl hstored rfl (le_refl 315360001000)
  · rintro ⟨args, hargs, htype, -⟩
    obtain rfl : replicaWriteCommand [107] ⟨[118], 7, false, some 315360001000⟩ = args := by
      simpa using hrequest.symm.trans hargs
    rw [hrefused] at htype
    exact absurd htype (by decide)

/-! ## Parsing a replica write -/

theorem parse_replDel (key : Key) (version : UInt64) :
    Parser.parse [ascii "REPL_DEL", key, decimal version.toNat] =
      { type := .replDelete, key := key, version := version } := by
  have hlookup : Parser.verbs.lookup (Parser.toUpper (ascii "REPL_DEL")) = some .replDel := by
    decide
  unfold Parser.parse
  dsimp only
  rw [hlookup]
  dsimp only
  rw [parseU64_decimal]

theorem parse_replSet (key : Key) (value : Bytes) (version : UInt64) (options : List Bytes) :
    Parser.parse (ascii "REPL_SET" :: key :: value :: decimal version.toNat :: options) =
      match Parser.parseSetOptions options none with
      | none => Parser.invalid (ascii "ERR syntax error")
      | some ttlMs =>
        { type := .replSet, key := key, value := value, version := version, ttlMs := ttlMs } := by
  have hlookup : Parser.verbs.lookup (Parser.toUpper (ascii "REPL_SET")) = some .replSet := by
    decide
  unfold Parser.parse
  dsimp only
  rw [hlookup]
  cases hoptions : Parser.parseSetOptions options none with
  | none => simp only [parseU64_decimal, hoptions]
  | some ttlMs => simp only [parseU64_decimal, hoptions]

theorem lt_two_pow_of_le_maxTtl {n : ℕ} (h : n ≤ maxTtl) : max 1 n < 2 ^ 64 := by
  have hmax : maxTtl = 315360000000 := by decide
  omega

/-- The limit on the time to live of `REPL_SET`. -/
theorem parseSetOptions_px (n : ℕ) :
    Parser.parseSetOptions [ascii "PX", decimal (max 1 n)] none =
      if n ≤ maxTtl then some (some (UInt64.ofNat (max 1 n))) else none := by
  have hpx : Parser.toUpper (ascii "PX") = ascii "PX" := by decide
  have hmax : maxTtl = 315360000000 := by decide
  have hlimit : (Parser.kMaxTtlSeconds * 1000).toNat = 315360000000 := by decide
  rw [Parser.parseSetOptions]
  simp only [hpx, true_or, or_true, if_true, parseU64, readDigits_decimal, Option.bind_some]
  by_cases h64 : max 1 n < 2 ^ 64
  · -- the number is read, and compared with the limit
    have htoNat : (UInt64.ofNat (max 1 n)).toNat = max 1 n := UInt64.toNat_ofNat_of_lt' h64
    have hzero : UInt64.ofNat (max 1 n) ≠ 0 := by
      intro h
      rw [h] at htoNat
      simp at htoNat
      omega
    simp only [if_pos h64, hzero, false_or, gt_iff_lt, UInt64.lt_iff_toNat_lt, htoNat, hlimit]
    by_cases hle : n ≤ maxTtl
    · rw [if_pos hle, if_neg (by omega), Parser.parseSetOptions]
    · rw [if_neg hle, if_pos (by omega)]
  · -- a number that does not fit 64 bits is above the limit too
    have hle : ¬n ≤ maxTtl := fun hle => h64 (lt_two_pow_of_le_maxTtl hle)
    simp only [if_neg h64, if_neg hle]

/-! ## The writes that are rebuilt -/

variable {key : Key} {v : VersionedValue}

/-- A delete carries no value and no time to live. -/
theorem Held.blank (h : Held key v) (ht : v.tombstone = true) : v.value = [] ∧ v.ttl = none := by
  cases h with
  | set => cases ht
  | del => exact ⟨rfl, rfl⟩
  | expire => cases ht

theorem length_decimal_le_kMaxBulkLength {n : ℕ} (h : n < 2 ^ 64) :
    (decimal n).length ≤ kMaxBulkLength :=
  (length_decimal_le (by decide : 0 < 20) (by omega)).trans (by decide)

/-- The request is within the limits if the key and the value are: its numbers are short. -/
theorem withinLimits_replicaWriteCommand (hkey : key.length ≤ kMaxBulkLength)
    (hvalue : v.value.length ≤ kMaxBulkLength) (httl : ∀ t ∈ v.ttl, t ≤ maxTtl) :
    WithinLimits (replicaWriteCommand key v) := by
  have hversion := length_decimal_le_kMaxBulkLength v.version.toNat_lt
  have hdel : (ascii "REPL_DEL").length ≤ kMaxBulkLength := by decide
  have hset : (ascii "REPL_SET").length ≤ kMaxBulkLength := by decide
  have hpx : (ascii "PX").length ≤ kMaxBulkLength := by decide
  unfold replicaWriteCommand WithinLimits
  cases v.tombstone with
  | true => simp [hkey, hversion, hdel, kMaxArrayLength]
  | false =>
    cases hv : v.ttl with
    | none => simp [hkey, hvalue, hversion, hset, kMaxArrayLength]
    | some t =>
      have ht := length_decimal_le_kMaxBulkLength (lt_two_pow_of_le_maxTtl (httl t hv))
      simp [hkey, hvalue, hversion, hset, hpx, ht, kMaxArrayLength]

theorem length_le_of_withinLimits (h : WithinLimits (replicaWriteCommand key v)) :
    key.length ≤ kMaxBulkLength ∧ (v.tombstone = false → v.value.length ≤ kMaxBulkLength) := by
  constructor
  · apply h.2
    unfold replicaWriteCommand
    split <;> simp
  · intro ht
    apply h.2
    simp [replicaWriteCommand, ht]

/-- The command that the replica reads. -/
theorem parse_replicaWriteCommand :
    Parser.parse (replicaWriteCommand key v) =
      if v.tombstone then { type := .replDelete, key := key, version := v.version }
      else if ∀ t ∈ v.ttl, t ≤ maxTtl then
        { type := .replSet, key := key, value := v.value, version := v.version,
          ttlMs := v.ttl.map fun t => UInt64.ofNat (max 1 t) }
      else Parser.invalid (ascii "ERR syntax error") := by
  unfold replicaWriteCommand
  cases ht : v.tombstone with
  | true => exact parse_replDel key v.version
  | false =>
    cases httl : v.ttl with
    | none => simp [parse_replSet, Parser.parseSetOptions]
    | some t =>
      simp only [Bool.false_eq_true, if_false, List.cons_append, List.nil_append, parse_replSet,
        parseSetOptions_px]
      by_cases hle : t ≤ maxTtl
      · simp [hle]
      · simp [hle]

theorem toTtl_ofNat {ttl : Option Millis} (h : ∀ t ∈ ttl, t ≤ maxTtl) :
    toTtl (ttl.map fun t => UInt64.ofNat (max 1 t)) = ttl.map (max 1) := by
  cases ttl with
  | none => rfl
  | some t =>
    have hlt := lt_two_pow_of_le_maxTtl (h t rfl)
    simp [toTtl, UInt64.toNat_ofNat_of_lt' hlt]

/-- **The wire of the replication protocol**: the replica applies `v.onWire`. -/
theorem dispatch_replicaWriteCommand {σ : Type} (api : ClusterApi σ) (s : σ)
    (httl : ∀ t ∈ v.ttl, t ≤ maxTtl) :
    dispatch api (Parser.parse (replicaWriteCommand key v)) s =
      let (s, wasLive) := api.applyReplicaWrite s key v.onWire
      (s, appendInteger (if wasLive then 1 else 0)) := by
  rw [parse_replicaWriteCommand]
  cases ht : v.tombstone with
  | true => simp [dispatch, VersionedValue.onWire, ht]
  | false =>
    simp only [Bool.false_eq_true, if_false]
    rw [if_pos httl]
    simp [dispatch, VersionedValue.onWire, ht, toTtl_ofNat httl]

theorem Held.onWire (h : Held key v) :
    v.onWire = ⟨v.value, v.version, v.tombstone, v.ttl.map (max 1)⟩ := by
  cases ht : v.tombstone with
  | true =>
    obtain ⟨hblank, hnone⟩ := h.blank ht
    simp [VersionedValue.onWire, ht, hblank, hnone]
  | false => simp [VersionedValue.onWire, ht]

/-- **A replica understands a write that a coordinator holds** exactly if its time to live is within
the limit of `REPL_SET` and its key and value within the limit of bulk strings. -/
theorem understood_iff (h : Held key v) :
    Understood key v ↔
      key.length ≤ kMaxBulkLength ∧ v.value.length ≤ kMaxBulkLength ∧
        ∀ t ∈ v.ttl, t ≤ maxTtl := by
  constructor
  · rintro ⟨args, hrequest, htype, -⟩
    -- The request was read, so it is within the limits and the arguments are those sent.
    have hcommand := parseRequest_command (replicaWriteCommand key v) []
    rw [List.append_nil, hrequest] at hcommand
    obtain ⟨hlimits, hargs⟩ | ⟨-, e, he⟩ := hcommand
    · obtain rfl : args = replicaWriteCommand key v := by simpa using hargs
      obtain ⟨hkey, hvalue⟩ := length_le_of_withinLimits hlimits
      rw [parse_replicaWriteCommand] at htype
      cases ht : v.tombstone with
      | true =>
        -- a delete has no value and no time to live
        obtain ⟨hblank, hnone⟩ := h.blank ht
        simp [hkey, hblank, hnone]
      | false =>
        -- a time to live above the limit would be a syntax error
        refine ⟨hkey, hvalue ht, ?_⟩
        by_contra hlong
        simp only [ht, Bool.false_eq_true, if_false] at htype
        rw [if_neg hlong] at htype
        exact absurd htype (by decide)
    · cases he
  · rintro ⟨hkey, hvalue, httl⟩
    have hlimits := withinLimits_replicaWriteCommand hkey hvalue httl
    have hcommand := parseRequest_command (replicaWriteCommand key v) []
    rw [List.append_nil] at hcommand
    obtain ⟨-, hrequest⟩ | ⟨hnot, -⟩ := hcommand
    · refine ⟨replicaWriteCommand key v, hrequest, ?_, ?_⟩
      · rw [parse_replicaWriteCommand, if_pos httl]
        cases v.tombstone with
        | true => exact Or.inr rfl
        | false => exact Or.inl rfl
      · intro σ api s
        rw [dispatch_replicaWriteCommand api s httl, h.onWire]
    · exact absurd hlimits hnot

/-- The write of `SET k v PX 5` is rebuilt. -/
theorem understood_iff_setPx :
    Held [107] ⟨[118], 7, false, some 5⟩ ∧ Understood [107] ⟨[118], 7, false, some 5⟩ := by
  have hparse : Parser.parse [ascii "SET", [107], [118], ascii "PX", ascii "5"] =
      { type := .set, key := [107], value := [118], ttlMs := some 5 } := by decide
  have hheld : Held [107] ⟨[118], 7, false, some 5⟩ := Held.set 7 hparse rfl (le_refl 5)
  exact ⟨hheld, (understood_iff hheld).mpr ⟨by decide, by decide, by decide⟩⟩

end ShardCache
