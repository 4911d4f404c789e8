import ShardCache.Network.ReplicaWrite

/-!
# Times to live on the wire and deadlines in the store

A client gives a time to live in seconds or in milliseconds. The parser turns it into milliseconds,
as a 64-bit unsigned number, and the store adds it to a reading of the steady clock, in signed 64-bit
nanoseconds. The parser multiplies before it compares with the limit, so the product of `EX` and
`TTL` can wrap to a number within the limit; and it compares the amount of `EXPIRE` with the limit
before it multiplies, so that the deadline can leave the range of the clock.

## Main definitions

* `Parser.ttlOptions`, `Parser.lastOption`, `Parser.ttlUnit`: the option that decides the time to live
* `Parser.TtlAsWritten`: the time to live is what the last option says
* `steadyDeadline`: the addition to the reading of the clock, `none` where it overflows

## Main results

* `Parser.ttlAsWritten_iff`: the time to live is as written exactly if the product does not wrap
* `deadlineSafe_iff`: no deadline overflows exactly if the seconds of `EXPIRE` are few enough
-/

namespace ShardCache

open CommandHandler

namespace Parser

/-! ## The options of `SET` and `REPL_SET` -/

/-- The arguments of an accepted `SET` or `REPL_SET` that `parse_set_options` looks at. -/
def ttlOptions (args : List Bytes) : List Bytes :=
  match (parse args).type with
  | .set => args.drop 3
  | .replSet => args.drop 4
  | _ => []

/-- The last option, with its amount. -/
def lastOption : List Bytes → Option (Bytes × Bytes)
  | opt :: amount :: rest => some ((lastOption rest).getD (opt, amount))
  | _ => none

/-- The milliseconds in the unit of an option. -/
def ttlUnit (opt : Bytes) : ℕ := if toUpper opt = ascii "PX" then 1 else 1000

/-- Without an option there is no time to live; otherwise it is the number of the last option times
its unit, from one millisecond to the limit. -/
def TtlAsWritten (args : List Bytes) : Prop :=
  match lastOption (ttlOptions args) with
  | none => (parse args).ttlMs = none
  | some (opt, amount) =>
    ∃ n ms, readDigits amount = some n ∧ (parse args).ttlMs = some ms ∧
      ms.toNat = n * ttlUnit opt ∧ 1 ≤ ms.toNat ∧ ms.toNat ≤ kMaxTtlSeconds.toNat * 1000

/-- **A product that wraps**: `SET k v EX 18446744073709552` is accepted, and the key lives for 384
milliseconds. -/
theorem ttl_wraps :
    (parse [ascii "SET", [107], [118], ascii "EX", ascii "18446744073709552"]).type = .set ∧
      (parse [ascii "SET", [107], [118], ascii "EX", ascii "18446744073709552"]).ttlMs = some 384 ∧
      ¬TtlAsWritten [ascii "SET", [107], [118], ascii "EX", ascii "18446744073709552"] := by
  have hparse : parse [ascii "SET", [107], [118], ascii "EX", ascii "18446744073709552"] =
      { type := .set, key := [107], value := [118], ttlMs := some 384 } := by decide
  have hoption : lastOption (ttlOptions
      [ascii "SET", [107], [118], ascii "EX", ascii "18446744073709552"]) =
      some (ascii "EX", ascii "18446744073709552") := by decide
  have hread : readDigits (ascii "18446744073709552") = some 18446744073709552 := by decide
  have hunit : ttlUnit (ascii "EX") = 1000 := by decide
  refine ⟨by rw [hparse], by rw [hparse], ?_⟩
  unfold TtlAsWritten
  rw [hoption, hparse]
  rintro ⟨n, ms, hn, hms, hproduct, -⟩
  obtain rfl : 18446744073709552 = n := Option.some.inj (hread.symm.trans hn)
  obtain rfl : 384 = ms := Option.some.inj hms
  rw [hunit] at hproduct
  exact absurd hproduct (by decide)

variable {args options : List Bytes} {opt amount key : Bytes} {ttl acc : Option UInt64}

/-- The last option decides: its amount is a positive number, and the product is within the limit. -/
theorem parseSetOptions_eq_some (h : parseSetOptions options acc = some ttl) :
    match lastOption options with
    | none => ttl = acc
    | some (opt, amount) => ∃ n ms : UInt64, readDigits amount = some n.toNat ∧ n ≠ 0 ∧
        ttl = some ms ∧ ms = (if toUpper opt = ascii "PX" then n else n * 1000) ∧
        ms ≤ kMaxTtlSeconds * 1000 := by
  fun_induction parseSetOptions options acc with
  | case1 => simpa [lastOption] using h.symm
  | case5 opt amount rest acc opt' hname n hn ms hvalid ih =>
    have hrest := ih h
    rw [not_or, not_lt] at hvalid
    cases hlast : lastOption rest with
    | none =>
      -- no option follows
      simp only [hlast] at hrest
      simp only [lastOption, hlast, Option.getD_none]
      exact ⟨n, ms, parseU64_eq_some_iff.mp hn, hvalid.1, hrest, rfl, hvalid.2⟩
    | some last =>
      simp only [hlast] at hrest
      simpa only [lastOption, hlast, Option.getD_some] using hrest
  | _ => cases h

/-- Where the time to live of a command comes from. -/
theorem parse_ttl_cases (args : List Bytes) :
    ((parse args).type ≠ .set ∧ (parse args).type ≠ .replSet ∧ (parse args).ttlMs = none) ∨
      ((parse args).type = .set ∧
        parseSetOptions (args.drop 3) none = some (parse args).ttlMs) ∨
      ((parse args).type = .replSet ∧
        parseSetOptions (args.drop 4) none = some (parse args).ttlMs) ∨
      ∃ name key amount, args = [name, key, amount] ∧
        (verbs.lookup (toUpper name) = some .expire ∧ parse args = parseExpire key amount 1000 ∨
          verbs.lookup (toUpper name) = some .pexpire ∧ parse args = parseExpire key amount 1) := by
  fun_cases parse args
  all_goals first
    | exact Or.inr (Or.inl ⟨rfl, ‹_›⟩)
    | exact Or.inr (Or.inr (Or.inl ⟨rfl, ‹_›⟩))
    | with_reducible exact Or.inr (Or.inr (Or.inr ⟨_, _, _, rfl, Or.inl ⟨‹_›, rfl⟩⟩))
    | with_reducible exact Or.inr (Or.inr (Or.inr ⟨_, _, _, rfl, Or.inr ⟨‹_›, rfl⟩⟩))
    | exact Or.inl ⟨CommandType.noConfusion, CommandType.noConfusion, rfl⟩

theorem parseSetOptions_ttlOptions (h : (parse args).type = .set ∨ (parse args).type = .replSet) :
    parseSetOptions (ttlOptions args) none = some (parse args).ttlMs := by
  unfold ttlOptions
  rcases parse_ttl_cases args with ⟨hset, hrepl, -⟩ | ⟨htype, hparse⟩ | ⟨htype, hparse⟩ |
    ⟨name, key, amount, rfl, ⟨-, hparse⟩ | ⟨-, hparse⟩⟩
  · exact absurd h (not_or.mpr ⟨hset, hrepl⟩)
  · rw [htype]
    exact hparse
  · rw [htype]
    exact hparse
  all_goals
    rw [hparse] at h
    refine absurd h (not_or.mpr ⟨?_, ?_⟩)
    · exact type_parseExpire_ne (by decide) (by decide) _ _ _
    · exact type_parseExpire_ne (by decide) (by decide) _ _ _

/-- The milliseconds of an option, as a number of 64 bits. -/
theorem toNat_product (opt : Bytes) (n : UInt64) :
    (if toUpper opt = ascii "PX" then n else n * 1000).toNat = n.toNat * ttlUnit opt % 2 ^ 64 := by
  unfold ttlUnit
  split
  · simp [Nat.mod_eq_of_lt n.toNat_lt]
  · simp

theorem kMaxTtlMs_toNat : (kMaxTtlSeconds * 1000).toNat = kMaxTtlSeconds.toNat * 1000 := by decide

/-- **The time to live of `SET` and `REPL_SET` is what the last option says** exactly if the number
of milliseconds it stands for fits 64 bits. -/
theorem ttlAsWritten_iff (h : (parse args).type = .set ∨ (parse args).type = .replSet) :
    TtlAsWritten args ↔
      ∀ opt amount n, lastOption (ttlOptions args) = some (opt, amount) →
        readDigits amount = some n → n * ttlUnit opt < 2 ^ 64 := by
  have hspec := parseSetOptions_eq_some (parseSetOptions_ttlOptions h)
  unfold TtlAsWritten
  cases hlast : lastOption (ttlOptions args) with
  | none =>
    simp only [hlast] at hspec
    simp [hspec]
  | some last =>
    obtain ⟨opt, amount⟩ := last
    simp only [hlast] at hspec
    obtain ⟨n, ms, hn, hpos, httl, hms, hle⟩ := hspec
    have hproduct : ms.toNat = n.toNat * ttlUnit opt % 2 ^ 64 := by rw [hms, toNat_product]
    constructor
    · rintro ⟨m, ms', hm, hms', heq, -, -⟩ opt' amount' n' hopt hn'
      obtain ⟨rfl, rfl⟩ : opt = opt' ∧ amount = amount' := by simpa using hopt
      obtain rfl : m = n' := Option.some.inj (hm.symm.trans hn')
      rw [← heq]
      exact ms'.toNat_lt
    · intro hfits
      have hfits := hfits opt amount n.toNat rfl hn
      rw [Nat.mod_eq_of_lt hfits] at hproduct
      refine ⟨n.toNat, ms, hn, httl, hproduct, ?_, ?_⟩
      · have hn0 : n.toNat ≠ 0 := fun h0 => hpos (UInt64.toNat_inj.mp h0)
        have hunit : 0 < ttlUnit opt := by
          unfold ttlUnit
          split <;> decide
        rw [hproduct]
        exact Nat.mul_pos (Nat.pos_of_ne_zero hn0) hunit
      · rw [← kMaxTtlMs_toNat]
        exact UInt64.le_iff_toNat_le.mp hle

/-- Of two options the last one counts: `SET k v PX 5 EX 2` lives for two seconds. -/
theorem ttlAsWritten_twoOptions :
    (parse [ascii "SET", [107], [118], ascii "PX", ascii "5", ascii "EX", ascii "2"]).ttlMs =
        some 2000 ∧
      TtlAsWritten [ascii "SET", [107], [118], ascii "PX", ascii "5", ascii "EX", ascii "2"] := by
  have hparse : parse [ascii "SET", [107], [118], ascii "PX", ascii "5", ascii "EX", ascii "2"] =
      { type := .set, key := [107], value := [118], ttlMs := some 2000 } := by decide
  have hlast : lastOption (ttlOptions
      [ascii "SET", [107], [118], ascii "PX", ascii "5", ascii "EX", ascii "2"]) =
      some (ascii "EX", ascii "2") := by decide
  have hread : readDigits (ascii "2") = some 2 := by decide
  refine ⟨by rw [hparse], (ttlAsWritten_iff (Or.inl (by rw [hparse]))).mpr ?_⟩
  intro opt amount n hopt hn
  obtain ⟨rfl, rfl⟩ : ascii "EX" = opt ∧ ascii "2" = amount := by
    simpa using hlast.symm.trans hopt
  obtain rfl : 2 = n := Option.some.inj (hread.symm.trans hn)
  decide

end Parser

/-! ## The addition to the reading of the clock -/

/-- A result of arithmetic on `int64_t`, `none` where it overflows. -/
def checked64 (n : ℤ) : Option Int64 :=
  if -2 ^ 63 ≤ n ∧ n < 2 ^ 63 then some (Int64.ofInt n) else none

/-- `now + std::chrono::milliseconds(ttl_ms)`, as in `Cache::apply` and `Cluster::add_hint`: the
milliseconds and the reading of the clock are counts of 64 bits, and the sum is in nanoseconds. -/
def steadyDeadline (now : Int64) (ttlMs : UInt64) : Option Int64 := do
  let ms ← checked64 ttlMs.toNat
  let ns ← checked64 (ms.toInt * 1000000)
  checked64 (now.toInt + ns.toInt)

/-- Every reading of the clock up to `2 ^ 62` has a deadline, not before the reading. -/
def DeadlineSafe (ttlMs : UInt64) : Prop :=
  ∀ now : Int64, now.toInt ≤ 2 ^ 62 →
    ∃ deadline, steadyDeadline now ttlMs = some deadline ∧ now.toInt ≤ deadline.toInt

/-- The seconds that an `EXPIRE` names. -/
def expireSeconds : List Bytes → Option ℕ
  | [name, _, amount] =>
    if Parser.verbs.lookup (Parser.toUpper name) = some .expire then readDigits amount else none
  | _ => none

theorem checked64_eq_some {n : ℤ} {i : Int64} : checked64 n = some i ↔ i.toInt = n := by
  unfold checked64
  constructor
  · intro h
    obtain ⟨hrange, h⟩ := Option.ite_none_right_eq_some.mp h
    rw [← Option.some.inj h, Int64.toInt_ofInt_of_le hrange.1 hrange.2]
  · rintro rfl
    rw [if_pos ⟨i.le_toInt, i.toInt_lt⟩, Int64.ofInt_toInt]

theorem checked64_isSome {n : ℤ} (hlow : -2 ^ 63 ≤ n) (hhigh : n < 2 ^ 63) :
    ∃ i, checked64 n = some i := ⟨Int64.ofInt n, if_pos ⟨hlow, hhigh⟩⟩

/-- A deadline is the exact sum, and the milliseconds fit on the way to it. -/
theorem steadyDeadline_eq_some {now deadline : Int64} {ttlMs : UInt64} :
    steadyDeadline now ttlMs = some deadline ↔
      ttlMs.toNat * 1000000 < 2 ^ 63 ∧ deadline.toInt = now.toInt + ttlMs.toNat * 1000000 := by
  simp only [steadyDeadline, Option.bind_eq_bind, Option.bind_eq_some_iff, checked64_eq_some]
  constructor
  · rintro ⟨ms, hms, ns, hns, hsum⟩
    have hlt := ns.toInt_lt
    rw [hms] at hns
    rw [hns] at hsum
    exact ⟨by omega, hsum⟩
  · rintro ⟨hfits, hsum⟩
    obtain ⟨ms, hms⟩ := checked64_isSome (n := ttlMs.toNat) (by omega) (by omega)
    obtain ⟨ns, hns⟩ := checked64_isSome (n := ttlMs.toNat * 1000000) (by omega) (by omega)
    rw [checked64_eq_some] at hms hns
    exact ⟨ms, hms, ns, by rw [hms, hns], by rw [hns, hsum]⟩

/-- Within the range of the clock, the deadline of the store is that of the machine. -/
theorem deadline_eq_steadyDeadline {now deadline : Int64} {ttlMs : UInt64}
    (h : steadyDeadline now ttlMs = some deadline) (hnow : 0 ≤ now.toInt) (tombstoneTtl : Millis)
    {v : VersionedValue} (hlive : v.tombstone = false) (httl : v.ttl = toTtl (some ttlMs)) :
    v.deadline tombstoneTtl now.toInt.toNat = some deadline.toInt.toNat := by
  obtain ⟨-, hsum⟩ := steadyDeadline_eq_some.mp h
  rw [VersionedValue.deadline, hlive, httl]
  simp only [toTtl, Option.map_some, Millis.ticks, Bool.false_eq_true, if_false, Option.some.injEq]
  change (now.toInt.toNat + ttlMs.toNat * 1000000 : ℕ) = deadline.toInt.toNat
  omega

theorem toInt_two_pow_62 : (Int64.ofInt (2 ^ 62)).toInt = 2 ^ 62 := by decide

theorem deadlineSafe_iff_le {ttlMs : UInt64} :
    DeadlineSafe ttlMs ↔ ttlMs.toNat ≤ 4611686018427 := by
  constructor
  · -- the latest reading leaves the least room
    intro h
    obtain ⟨deadline, hdeadline, -⟩ := h (Int64.ofInt (2 ^ 62)) toInt_two_pow_62.le
    obtain ⟨-, hsum⟩ := steadyDeadline_eq_some.mp hdeadline
    have hlt := deadline.toInt_lt
    rw [toInt_two_pow_62] at hsum
    omega
  · intro hle now hnow
    have hlow := now.le_toInt
    obtain ⟨deadline, hsum⟩ := checked64_isSome (n := now.toInt + ttlMs.toNat * 1000000)
      (by omega) (by omega)
    rw [checked64_eq_some] at hsum
    exact ⟨deadline, steadyDeadline_eq_some.mpr ⟨by omega, hsum⟩, by omega⟩

/-- **A deadline that overflows**: `EXPIRE k 315360000000` is accepted, and at no reading of the
clock do its nanoseconds fit. -/
theorem expire_overflows :
    Parser.parse [ascii "EXPIRE", [107], ascii "315360000000"] =
        { type := .expire, key := [107], ttlMs := some 315360000000000 } ∧
      (∀ now, steadyDeadline now 315360000000000 = none) ∧ ¬DeadlineSafe 315360000000000 := by
  have hms : (315360000000000 : UInt64).toNat = 315360000000000 := by decide
  refine ⟨by decide, ?_, ?_⟩
  · intro now
    cases h : steadyDeadline now 315360000000000 with
    | none => rfl
    | some deadline =>
      obtain ⟨hfits, -⟩ := steadyDeadline_eq_some.mp h
      rw [hms] at hfits
      omega
  · rw [deadlineSafe_iff_le, hms]
    omega

variable {args : List Bytes} {ttlMs : UInt64}

theorem toNat_mul_lt {n : UInt64} (h : n ≤ Parser.kMaxTtlSeconds * 1000) :
    n.toNat * 1000 < 2 ^ 64 := by
  have hle := UInt64.le_iff_toNat_le.mp h
  have hlimit : (Parser.kMaxTtlSeconds * 1000).toNat = 315360000000 := by decide
  omega

theorem toNat_le_of_parseSetOptions {options : List Bytes}
    (h : Parser.parseSetOptions options none = some (some ttlMs)) : ttlMs.toNat ≤ maxTtl := by
  have hspec := Parser.parseSetOptions_eq_some h
  cases hlast : Parser.lastOption options with
  | none => simp [hlast] at hspec
  | some last =>
    simp only [hlast] at hspec
    obtain ⟨n, ms, -, -, hms, -, hle⟩ := hspec
    rw [Option.some.inj hms]
    exact UInt64.le_iff_toNat_le.mp hle

/-- The seconds of an accepted `EXPIRE` are multiplied without a wrap. -/
theorem toNat_ttlMs_expire {n : ℕ} (hn : expireSeconds args = some n)
    (h : (Parser.parse args).ttlMs = some ttlMs) : ttlMs.toNat = n * 1000 := by
  unfold expireSeconds at hn
  split at hn
  · rename_i name key amount
    obtain ⟨hlookup, hn⟩ := Option.ite_none_right_eq_some.mp hn
    have hparse : Parser.parse [name, key, amount] = Parser.parseExpire key amount 1000 := by
      unfold Parser.parse
      dsimp only
      rw [hlookup]
    rw [hparse] at h
    obtain ⟨m, hm, hle, rfl⟩ := Parser.ttlMs_parseExpire h
    obtain rfl : n = m.toNat := Option.some.inj (hn.symm.trans hm)
    rw [UInt64.toNat_mul]
    exact Nat.mod_eq_of_lt (toNat_mul_lt hle)
  · cases hn

/-- Every other time to live is held to the limit in milliseconds. -/
theorem toNat_ttlMs_le (hn : expireSeconds args = none)
    (h : (Parser.parse args).ttlMs = some ttlMs) : ttlMs.toNat ≤ maxTtl := by
  rcases Parser.parse_ttl_cases args with ⟨-, -, hnone⟩ | ⟨-, hparse⟩ | ⟨-, hparse⟩ |
    ⟨name, key, amount, rfl, ⟨hlookup, hparse⟩ | ⟨-, hparse⟩⟩
  · rw [hnone] at h
    cases h
  · exact toNat_le_of_parseSetOptions (h ▸ hparse)
  · exact toNat_le_of_parseSetOptions (h ▸ hparse)
  · -- an `EXPIRE` without a number has no time to live
    rw [expireSeconds, if_pos hlookup] at hn
    rw [hparse] at h
    obtain ⟨m, hm, -, -⟩ := Parser.ttlMs_parseExpire h
    rw [hm] at hn
    cases hn
  · -- `PEXPIRE` counts milliseconds
    rw [hparse] at h
    obtain ⟨m, -, hle, rfl⟩ := Parser.ttlMs_parseExpire h
    rw [UInt64.mul_one]
    exact UInt64.le_iff_toNat_le.mp hle

/-- **No deadline of an accepted command overflows** exactly if it is not an `EXPIRE` of more than
4611686018 seconds. -/
theorem deadlineSafe_iff (h : (Parser.parse args).ttlMs = some ttlMs) :
    DeadlineSafe ttlMs ↔ ∀ n, expireSeconds args = some n → n ≤ 4611686018 := by
  rw [deadlineSafe_iff_le]
  cases hn : expireSeconds args with
  | none =>
    have hle := toNat_ttlMs_le hn h
    have hmax : maxTtl = 315360000000 := by decide
    simp only [reduceCtorEq, false_implies, implies_true, iff_true]
    omega
  | some n =>
    have hms := toNat_ttlMs_expire hn h
    simp only [Option.some.injEq, forall_eq']
    omega

/-- The deadline of `EXPIRE k 60` does not overflow. -/
theorem deadlineSafe_iff_minute :
    (Parser.parse [ascii "EXPIRE", [107], ascii "60"]).ttlMs = some 60000 ∧ DeadlineSafe 60000 := by
  have hparse : (Parser.parse [ascii "EXPIRE", [107], ascii "60"]).ttlMs = some 60000 := by
    decide
  have hseconds : expireSeconds [ascii "EXPIRE", [107], ascii "60"] = some 60 := by decide
  refine ⟨hparse, (deadlineSafe_iff hparse).mpr ?_⟩
  intro n hn
  obtain rfl : 60 = n := Option.some.inj (hseconds.symm.trans hn)
  decide

end ShardCache
