import ShardCache.Protocol.Request

/-!
# Commands

The arguments of a request name a command, in any case, and its operands. What is not a command
becomes one of type `unknown` that carries the text of an error.

## Main definitions

* `CommandType`, `Command`
* `Parser.parse`: the command that a list of arguments stands for
* `Parser.quoted`: the argument that an error text repeats

## Main results

* `Parser.findCrlf_error`: the text of an error has a line break only if the argument it repeats has
-/

namespace ShardCache

/-- `CommandType`. -/
inductive CommandType where
  | get | set | delete | existsKeys | expire | ttl | pttl | stats | ping | echo | dbSize | flushAll
  | commandDocs | config | select | client | quit
  | replSet | replDelete | replGet
  | clusterGossip | clusterNodes
  | unknown
deriving DecidableEq, Repr

/-- `Command`. -/
structure Command where
  type : CommandType := .unknown
  key : Key := []
  keys : List Key := []
  value : Bytes := []
  ttlMs : Option UInt64 := none
  version : UInt64 := 0
  error : Bytes := []
deriving DecidableEq, Repr, Inhabited

namespace Parser

/-- `to_upper`, in the C locale. -/
def toUpper (s : Bytes) : Bytes := s.map fun c => if 97 ≤ c ∧ c ≤ 122 then c - 32 else c

/-- `to_lower`, in the C locale. -/
def toLower (s : Bytes) : Bytes := s.map fun c => if 65 ≤ c ∧ c ≤ 90 then c + 32 else c

/-- The names that `Parser::parse` compares the first argument with. -/
inductive Verb where
  | ping | echo | stats | dbSize | flushAll | command | config | select | cluster | client | quit
  | get | set | replSet | replDel | replGet | del | existsKeys | expire | pexpire | ttl | pttl
deriving DecidableEq, Repr

/-- Every name, in upper case, with the branch of `Parser::parse` it leads to. -/
def verbs : List (Bytes × Verb) :=
  [(ascii "PING", .ping), (ascii "ECHO", .echo), (ascii "STATS", .stats), (ascii "INFO", .stats),
    (ascii "DBSIZE", .dbSize), (ascii "FLUSHALL", .flushAll), (ascii "FLUSHDB", .flushAll),
    (ascii "COMMAND", .command), (ascii "CONFIG", .config), (ascii "SELECT", .select),
    (ascii "CLUSTER", .cluster), (ascii "CLIENT", .client), (ascii "QUIT", .quit),
    (ascii "GET", .get), (ascii "SET", .set), (ascii "REPL_SET", .replSet),
    (ascii "REPL_DEL", .replDel), (ascii "REPL_GET", .replGet), (ascii "DEL", .del),
    (ascii "DELETE", .del), (ascii "EXISTS", .existsKeys), (ascii "EXPIRE", .expire),
    (ascii "PEXPIRE", .pexpire), (ascii "TTL", .ttl), (ascii "PTTL", .pttl)]

/-- `invalid`. -/
def invalid (message : Bytes) : Command := { error := message }

/-- `wrong_arity`. -/
def wrongArity (verb : Bytes) : Command :=
  invalid (ascii "ERR wrong number of arguments for '" ++ toLower verb ++ ascii "' command")

/-- `kMaxTtlSeconds`. -/
def kMaxTtlSeconds : UInt64 := 10 * 365 * 24 * 3600

/-- `parse_set_options`, on the arguments that are left: the last time to live given, in
milliseconds. The product wraps. -/
def parseSetOptions : List Bytes → Option UInt64 → Option (Option UInt64)
  | [], ttlMs => some ttlMs
  | [_], _ => none
  | opt :: amount :: args, _ =>
    let opt := toUpper opt
    if opt = ascii "EX" ∨ opt = ascii "PX" ∨ opt = ascii "TTL" then
      match parseU64 amount with
      | none => none
      | some n =>
        let ms := if opt = ascii "PX" then n else n * 1000
        if n = 0 ∨ ms > kMaxTtlSeconds * 1000 then none else parseSetOptions args (some ms)
    else none

/-- The time to live of `EXPIRE` and `PEXPIRE`, in units of `unit` milliseconds. -/
def parseExpire (key amount : Bytes) (unit : UInt64) : Command :=
  match parseU64 amount with
  | none => invalid (ascii "ERR value is not an integer or out of range")
  | some n =>
    if n > kMaxTtlSeconds * 1000 then
      invalid (ascii "ERR value is not an integer or out of range")
    else { type := .expire, key := key, ttlMs := some (n * unit) }

/-- `Parser::parse`. -/
def parse : List Bytes → Command
  | [] => invalid (ascii "ERR empty command")
  | name :: args =>
    let verb := toUpper name
    match verbs.lookup verb, args with
    | some .ping, [] => { type := .ping }
    | some .ping, [value] => { type := .ping, value := value }
    | some .echo, [value] => { type := .echo, value := value }
    | some .stats, _ => { type := .stats }
    | some .dbSize, _ => { type := .dbSize }
    | some .flushAll, _ => { type := .flushAll }
    | some .command, _ => { type := .commandDocs }
    | some .config, sub :: name :: names =>
      if toUpper sub = ascii "GET" then { type := .config, keys := name :: names }
      else { type := .config }
    | some .config, _ => { type := .config }
    | some .select, [value] => { type := .select, value := value }
    | some .cluster, sub :: payload =>
      if toUpper sub = ascii "GOSSIP" then
        if payload.length % 5 ≠ 0 then invalid (ascii "ERR malformed gossip payload")
        else { type := .clusterGossip, keys := payload }
      else if toUpper sub = ascii "NODES" then { type := .clusterNodes }
      else invalid (ascii "ERR unknown CLUSTER subcommand '" ++ sub ++ ascii "'")
    | some .client, _ => { type := .client }
    | some .quit, _ => { type := .quit }
    | some .get, [key] => { type := .get, key := key }
    | some .set, key :: value :: options =>
      match parseSetOptions options none with
      | none => invalid (ascii "ERR syntax error")
      | some ttlMs => { type := .set, key := key, value := value, ttlMs := ttlMs }
    | some .replSet, key :: value :: version :: options =>
      match parseU64 version with
      | none => invalid (ascii "ERR invalid version")
      | some version =>
        match parseSetOptions options none with
        | none => invalid (ascii "ERR syntax error")
        | some ttlMs =>
          { type := .replSet, key := key, value := value, version := version, ttlMs := ttlMs }
    | some .replDel, [key, version] =>
      match parseU64 version with
      | none => invalid (ascii "ERR invalid version")
      | some version => { type := .replDelete, key := key, version := version }
    | some .replGet, [key] => { type := .replGet, key := key }
    | some .del, key :: keys => { type := .delete, key := key, keys := key :: keys }
    | some .existsKeys, key :: keys => { type := .existsKeys, key := key, keys := key :: keys }
    | some .expire, [key, amount] => parseExpire key amount 1000
    | some .pexpire, [key, amount] => parseExpire key amount 1
    | some .ttl, [key] => { type := .ttl, key := key }
    | some .pttl, [key] => { type := .pttl, key := key }
    | some _, _ => wrongArity verb
    | none, _ => invalid (ascii "ERR unknown command '" ++ name ++ ascii "'")

/-- What `EXPIRE` and `PEXPIRE` make of their amount. -/
theorem parseExpire_cases (key amount : Bytes) (unit : UInt64) :
    parseExpire key amount unit = invalid (ascii "ERR value is not an integer or out of range") ∨
      ∃ n : UInt64, readDigits amount = some n.toNat ∧ n ≤ kMaxTtlSeconds * 1000 ∧
        parseExpire key amount unit = { type := .expire, key := key, ttlMs := some (n * unit) } := by
  fun_cases parseExpire key amount unit with
  | case1 => exact Or.inl rfl
  | case2 => exact Or.inl rfl
  | case3 n hn hle => exact Or.inr ⟨n, parseU64_eq_some_iff.mp hn, not_lt.mp hle, rfl⟩

theorem type_parseExpire_ne {type : CommandType} (hunknown : type ≠ .unknown)
    (hexpire : type ≠ .expire) (key amount : Bytes) (unit : UInt64) :
    (parseExpire key amount unit).type ≠ type := by
  rcases parseExpire_cases key amount unit with hparse | ⟨n, -, -, hparse⟩
  · rw [hparse]
    exact hunknown.symm
  · rw [hparse]
    exact hexpire.symm

/-- The time to live of an accepted `EXPIRE` or `PEXPIRE`. -/
theorem ttlMs_parseExpire {key amount : Bytes} {unit ttlMs : UInt64}
    (h : (parseExpire key amount unit).ttlMs = some ttlMs) :
    ∃ n : UInt64, readDigits amount = some n.toNat ∧ n ≤ kMaxTtlSeconds * 1000 ∧
      ttlMs = n * unit := by
  rcases parseExpire_cases key amount unit with hparse | ⟨n, hn, hle, hparse⟩
  · rw [hparse] at h
    cases h
  · rw [hparse] at h
    exact ⟨n, hn, hle, (Option.some.inj h).symm⟩

/-! ## The text of an error -/

/-- The argument that the text of an error repeats: an unknown command, or an unknown subcommand of
`CLUSTER`. -/
def quoted : List Bytes → Option Bytes
  | [] => none
  | name :: args =>
    match verbs.lookup (toUpper name), args with
    | some .cluster, sub :: _ =>
      if toUpper sub = ascii "GOSSIP" ∨ toUpper sub = ascii "NODES" then none else some sub
    | some _, _ => none
    | none, _ => some name

theorem mem_of_lookup {α β : Type} [BEq α] [LawfulBEq α] {l : List (α × β)} {a : α} {b : β}
    (h : l.lookup a = some b) : (a, b) ∈ l := by
  induction l with
  | nil => cases h
  | cons p l ih =>
    rw [List.lookup_cons] at h
    split at h
    · -- the first pair has the key
      rename_i heq
      obtain rfl := Option.some.inj h
      obtain rfl : a = p.1 := eq_of_beq heq
      exact List.mem_cons_self
    · exact List.mem_cons_of_mem p (ih h)

/-- The name of a command has no carriage return. -/
theorem not_mem_wrongArity {verb : Bytes} {v : Verb} (h : verbs.lookup verb = some v) :
    (13 : UInt8) ∉ (wrongArity verb).error := by
  -- a finite table: look at every name
  have hclean : ∀ p ∈ verbs, (13 : UInt8) ∉ (wrongArity p.1).error := by decide
  exact hclean (verb, v) (mem_of_lookup h)

theorem not_mem_error_parseExpire (key amount : Bytes) (unit : UInt64) :
    (13 : UInt8) ∉ (parseExpire key amount unit).error := by
  rcases parseExpire_cases key amount unit with hinvalid | ⟨n, -, -, hexpire⟩
  · rw [hinvalid]
    decide
  · rw [hexpire]
    exact List.not_mem_nil

theorem error_eq_nil_parseExpire {key amount : Bytes} {unit : UInt64}
    (h : (parseExpire key amount unit).type ≠ .unknown) :
    (parseExpire key amount unit).error = [] := by
  rcases parseExpire_cases key amount unit with hinvalid | ⟨n, -, -, hexpire⟩
  · rw [hinvalid] at h
    exact absurd rfl h
  · rw [hexpire]

/-- Only unknown commands carry the text of an error. -/
theorem error_eq_nil {args : List Bytes} (h : (parse args).type ≠ .unknown) :
    (parse args).error = [] := by
  revert h
  fun_cases parse args
  all_goals first
    | with_reducible exact error_eq_nil_parseExpire
    | exact fun h => absurd rfl h
    | exact fun _ => rfl

theorem error_parseExpire_ne_nil {key amount : Bytes} {unit : UInt64}
    (h : (parseExpire key amount unit).type = .unknown) :
    (parseExpire key amount unit).error ≠ [] := by
  rcases parseExpire_cases key amount unit with hinvalid | ⟨n, -, -, hexpire⟩
  · rw [hinvalid]
    decide
  · rw [hexpire] at h
    cases h

/-- Every unknown command carries the text of an error. -/
theorem error_ne_nil {args : List Bytes} (h : (parse args).type = .unknown) :
    (parse args).error ≠ [] := by
  revert h
  fun_cases parse args
  all_goals first
    | with_reducible exact error_parseExpire_ne_nil
    | (intro h; cases h; done)
    | exact fun _ => List.append_ne_nil_of_right_ne_nil _ (by decide)
    | exact fun _ => by decide

/-- The texts that repeat no argument have no carriage return. -/
theorem not_mem_error {args : List Bytes} (h : quoted args = none) :
    (13 : UInt8) ∉ (parse args).error := by
  fun_cases parse args
  all_goals first
    | with_reducible exact List.not_mem_nil
    | with_reducible exact not_mem_error_parseExpire ..
    | with_reducible exact not_mem_wrongArity ‹_›
    | decide
    | skip
  -- What is left are the two texts that repeat an argument.
  · rename_i name verb sub payload hlookup hgossip hnodes
    change verbs.lookup (toUpper name) = _ at hlookup
    simp only [quoted, hlookup] at h
    simp [hgossip, hnodes] at h
  · rename_i name args verb hlookup
    change verbs.lookup (toUpper name) = _ at hlookup
    simp only [quoted, hlookup] at h
    cases h

/-- The text of an error, around the argument it repeats. -/
theorem error_of_quoted {args : List Bytes} {q : Bytes} (h : quoted args = some q) :
    ∃ text : Bytes, (13 : UInt8) ∉ text ∧ (parse args).error = text ++ q ++ [39] := by
  have hquote : ascii "'" = [39] := by decide
  revert h
  fun_cases quoted args
  · exact nofun
  · exact nofun
  · -- an unknown subcommand of `CLUSTER`
    rename_i name sub args hlookup hsub
    intro h
    obtain rfl := Option.some.inj h
    rw [not_or] at hsub
    refine ⟨ascii "ERR unknown CLUSTER subcommand '", by decide, ?_⟩
    unfold parse
    dsimp only
    rw [hlookup]
    dsimp only
    rw [if_neg hsub.1, if_neg hsub.2, invalid, hquote]
  · exact nofun
  · -- an unknown command
    rename_i name args hlookup
    intro h
    obtain rfl := Option.some.inj h
    refine ⟨ascii "ERR unknown command '", by decide, ?_⟩
    unfold parse
    dsimp only
    rw [hlookup]
    dsimp only
    rw [invalid, hquote]

/-- **The text of an error has a line break only where the argument it repeats has one.** -/
theorem findCrlf_error (args : List Bytes) :
    findCrlf (parse args).error = none ↔ ∀ q ∈ quoted args, findCrlf q = none := by
  cases hq : quoted args with
  | none => simp [findCrlf_eq_none (not_mem_error hq)]
  | some q =>
    obtain ⟨text, htext, herror⟩ := error_of_quoted hq
    rw [herror, List.append_assoc, findCrlf_append_left htext, findCrlf_append_singleton (by decide)]
    simp

end Parser

end ShardCache
