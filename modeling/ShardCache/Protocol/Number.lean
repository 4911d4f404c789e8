import ShardCache.Store.Entry

/-!
# Numbers in decimal

Lengths, counts, versions and times to live travel as decimal text: `std::to_string` writes them and
`std::from_chars` reads them back.

## Main definitions

* `decimal`, `decimalInt`: `std::to_string`
* `readDigits`, `parseInt`, `parseU64`: `std::from_chars` on the whole text
* `stoi`, `stoull`: the readers that skip blanks and stop after the digits

## Main results

* `parseInt_decimalInt`, `parseU64_decimal`: what was written is read back
-/

namespace ShardCache

/-- The bytes of a string of ASCII characters. -/
def ascii (s : String) : Bytes := s.toList.map fun c => c.toNat.toUInt8

/-- `std::to_string` of an unsigned number. -/
def decimal (i : ℕ) : Bytes := (Nat.toDigits 10 i).map fun c => c.toNat.toUInt8

/-- `std::to_string` of a signed number. -/
def decimalInt (n : Int64) : Bytes :=
  if n.toInt < 0 then 45 :: decimal n.toInt.natAbs else decimal n.toInt.natAbs

/-- `'0' <= c && c <= '9'`. -/
def isDigit (c : UInt8) : Bool := 48 ≤ c && c ≤ 57

/-- The value of a string of digits. -/
def digitsValue (s : Bytes) : ℕ := s.foldl (fun n c => 10 * n + (c.toNat - 48)) 0

/-- The number written in `s`, if `s` has at least one digit and nothing else. -/
def readDigits (s : Bytes) : Option ℕ :=
  if s ≠ [] ∧ s.all isDigit then some (digitsValue s) else none

/-- `parse_int`: `from_chars` for an `int64_t`, on the whole text. -/
def parseInt (s : Bytes) : Option Int64 :=
  match s with
  | 45 :: digits => (readDigits digits).bind fun n =>
    if n ≤ 2 ^ 63 then some (Int64.ofInt (-n)) else none
  | digits => (readDigits digits).bind fun n =>
    if n < 2 ^ 63 then some (Int64.ofInt n) else none

/-- `parse_u64`: `from_chars` for a `uint64_t`, on the whole text. -/
def parseU64 (s : Bytes) : Option UInt64 :=
  (readDigits s).bind fun n => if n < 2 ^ 64 then some (UInt64.ofNat n) else none

/-- The sign and the digits that `std::stoi` and `std::stoull` find after blanks: whether the number
is negative, and its magnitude. What follows the digits is not looked at. -/
def scanNumber (s : Bytes) : Option (Bool × ℕ) :=
  let s := s.dropWhile fun c => c = 32 ∨ 9 ≤ c ∧ c ≤ 13
  let (negative, s) :=
    match s with
    | 45 :: s => (true, s)
    | 43 :: s => (false, s)
    | s => (false, s)
  (readDigits (s.takeWhile isDigit)).map fun n => (negative, n)

/-- `std::stoi`, `none` where it throws. -/
def stoi (s : Bytes) : Option ℤ :=
  (scanNumber s).bind fun (negative, n) =>
    let n : ℤ := if negative then -n else n
    if -2 ^ 31 ≤ n ∧ n < 2 ^ 31 then some n else none

/-- `std::stoull`, `none` where it throws; a negative number wraps. -/
def stoull (s : Bytes) : Option UInt64 :=
  (scanNumber s).bind fun (negative, n) =>
    if n < 2 ^ 64 then some (if negative then 0 - UInt64.ofNat n else UInt64.ofNat n) else none

/-! ## What is written is read back -/

theorem digitsValue_append_singleton (s : Bytes) (c : UInt8) :
    digitsValue (s ++ [c]) = 10 * digitsValue s + (c.toNat - 48) := by
  simp [digitsValue]

theorem toNat_digitChar {d : ℕ} (h : d < 10) : (d.digitChar.toNat.toUInt8).toNat = 48 + d := by
  interval_cases d <;> rfl

theorem decimal_eq (n : ℕ) :
    decimal n = (if n < 10 then [] else decimal (n / 10)) ++ [(n % 10).digitChar.toNat.toUInt8] := by
  rw [decimal, Nat.toDigits_eq_if (by decide)]
  split
  · rename_i hn
    simp [Nat.mod_eq_of_lt hn]
  · simp [decimal]

theorem isDigit_digitChar {d : ℕ} (h : d < 10) : isDigit d.digitChar.toNat.toUInt8 = true := by
  interval_cases d <;> rfl

/-- The text of a number has digits only. -/
theorem all_isDigit_decimal (n : ℕ) : (decimal n).all isDigit = true := by
  -- Strong induction: the text is that of a tenth of the number, and the last digit.
  induction n using Nat.strong_induction_on with
  | h n ih =>
    rw [decimal_eq]
    have hlast : isDigit (n % 10).digitChar.toNat.toUInt8 = true :=
      isDigit_digitChar (Nat.mod_lt n (by decide))
    split
    · simp [hlast]
    · simp [hlast, ih (n / 10) (by omega)]

theorem decimal_ne_nil (n : ℕ) : decimal n ≠ [] := by
  rw [decimal_eq]
  simp

theorem length_decimal_le {n k : ℕ} (hk : 0 < k) (h : n < 10 ^ k) : (decimal n).length ≤ k := by
  induction k generalizing n with
  | zero => omega
  | succ k ih =>
    rw [decimal_eq]
    split
    · simp
    · rename_i hn
      -- A number of two digits or more leaves room for the last one.
      have hk : 0 < k := by
        rcases Nat.eq_zero_or_pos k with rfl | hk
        · simp at h
          omega
        · exact hk
      have hdiv : n / 10 < 10 ^ k := by
        rw [pow_succ] at h
        omega
      have hle := ih hk hdiv
      simp
      omega

theorem digitsValue_decimal (n : ℕ) : digitsValue (decimal n) = n := by
  induction n using Nat.strong_induction_on with
  | h n ih =>
    rw [decimal_eq, digitsValue_append_singleton, toNat_digitChar (Nat.mod_lt n (by decide))]
    split
    · simp [digitsValue]
      omega
    · rw [ih (n / 10) (by omega)]
      omega

@[simp] theorem readDigits_decimal (n : ℕ) : readDigits (decimal n) = some n := by
  rw [readDigits, if_pos ⟨decimal_ne_nil n, all_isDigit_decimal n⟩, digitsValue_decimal]

theorem parseU64_decimal (n : UInt64) : parseU64 (decimal n.toNat) = some n := by
  simp [parseU64, n.toNat_lt]

/-- A number that is read is the number that is written. -/
theorem parseU64_eq_some_iff {s : Bytes} {n : UInt64} :
    parseU64 s = some n ↔ readDigits s = some n.toNat := by
  unfold parseU64
  rw [Option.bind_eq_some_iff]
  constructor
  · rintro ⟨m, hm, hn⟩
    obtain ⟨hlt, hn⟩ := Option.ite_none_right_eq_some.mp hn
    rw [hm, ← Option.some.inj hn, UInt64.toNat_ofNat_of_lt' hlt]
  · intro h
    exact ⟨n.toNat, h, by rw [if_pos n.toNat_lt, UInt64.ofNat_toNat]⟩

/-- A text of digits does not start with a sign. -/
theorem parseInt_decimal (n : ℕ) :
    parseInt (decimal n) = if n < 2 ^ 63 then some (Int64.ofInt n) else none := by
  have hdigits := all_isDigit_decimal n
  unfold parseInt
  split
  · -- the first byte would be a minus sign
    rename_i digits heq
    simp [heq, isDigit] at hdigits
  · rw [readDigits_decimal, Option.bind_some]

theorem toInt_ofInt_natCast {n : ℕ} (h : n < 2 ^ 63) : (Int64.ofInt n).toInt = n :=
  Int64.toInt_ofInt_of_le (by omega) (by omega)

/-- A text that is read as a number has digits and a minus sign only. -/
theorem not_mem_of_parseInt {s : Bytes} {n : Int64} (h : parseInt s = some n) :
    (13 : UInt8) ∉ s := by
  have hdigits {s : Bytes} {m : ℕ} (h : readDigits s = some m) : (13 : UInt8) ∉ s := by
    unfold readDigits at h
    split at h
    next hs =>
      intro hmem
      exact absurd (List.all_eq_true.mp hs.2 13 hmem) (by decide)
    · cases h
  unfold parseInt at h
  split at h
  · obtain ⟨m, hm, -⟩ := Option.bind_eq_some_iff.mp h
    simpa using hdigits hm
  · obtain ⟨m, hm, -⟩ := Option.bind_eq_some_iff.mp h
    exact hdigits hm

theorem parseInt_decimalInt (n : Int64) : parseInt (decimalInt n) = some n := by
  have hlow := n.le_toInt
  have hhigh := n.toInt_lt
  unfold decimalInt
  split
  · -- the magnitude of the smallest number is `2 ^ 63`
    rename_i hneg
    have hle : n.toInt.natAbs ≤ 2 ^ 63 := by omega
    have habs : (-(n.toInt.natAbs : ℤ)) = n.toInt := by omega
    simp only [parseInt, readDigits_decimal, Option.bind_some, if_pos hle, habs, Int64.ofInt_toInt]
  · rename_i hpos
    have hlt : n.toInt.natAbs < 2 ^ 63 := by omega
    have habs : (n.toInt.natAbs : ℤ) = n.toInt := by omega
    rw [parseInt_decimal, if_pos hlt, habs, Int64.ofInt_toInt]

/-- A text of digits has no blank and no sign before them, and nothing after them. -/
theorem scanNumber_of_readDigits {s : Bytes} {n : ℕ} (h : readDigits s = some n) :
    scanNumber s = some (false, n) := by
  obtain ⟨hne, hall⟩ := (Option.ite_none_right_eq_some.mp h).1
  have htake : s.takeWhile isDigit = s :=
    List.takeWhile_eq_self_iff.mpr (List.all_eq_true.mp hall)
  cases s with
  | nil => exact absurd rfl hne
  | cons c rest =>
    have hdigit : 48 ≤ c.toNat ∧ c.toNat ≤ 57 := by
      have hc : isDigit c = true := List.all_eq_true.mp hall c List.mem_cons_self
      simpa [isDigit, UInt8.le_iff_toNat_le] using hc
    have hblank : ¬(c = 32 ∨ 9 ≤ c ∧ c ≤ 13) := by
      rintro (rfl | ⟨-, hle⟩)
      · exact absurd hdigit.1 (by decide)
      · have hle : c.toNat ≤ 13 := UInt8.le_iff_toNat_le.mp hle
        omega
    unfold scanNumber
    rw [List.dropWhile_cons_of_neg (by simpa using hblank)]
    dsimp only
    split
    · -- the first byte would be a minus or a plus sign
      rename_i heq
      cases heq
      exact absurd hdigit.1 (by decide)
    · rename_i heq
      cases heq
      exact absurd hdigit.1 (by decide)
    · rw [htake, h, Option.map_some]

theorem stoi_of_readDigits {s : Bytes} {n : ℕ} (h : readDigits s = some n) :
    stoi s = if n < 2 ^ 31 then some (n : ℤ) else none := by
  rw [stoi, scanNumber_of_readDigits h, Option.bind_some]
  simp only [Bool.false_eq_true, if_false]
  by_cases hn : n < 2 ^ 31
  · rw [if_pos hn, if_pos (by omega)]
  · rw [if_neg hn, if_neg (by omega)]

theorem stoull_of_readDigits {s : Bytes} {n : ℕ} (h : readDigits s = some n) :
    stoull s = if n < 2 ^ 64 then some (UInt64.ofNat n) else none := by
  rw [stoull, scanNumber_of_readDigits h, Option.bind_some]
  simp

theorem stoi_decimal {n : ℕ} (h : n < 2 ^ 31) : stoi (decimal n) = some (n : ℤ) := by
  rw [stoi_of_readDigits (readDigits_decimal n), if_pos h]

theorem stoull_decimal (n : UInt64) : stoull (decimal n.toNat) = some n := by
  rw [stoull_of_readDigits (readDigits_decimal n.toNat), if_pos n.toNat_lt, UInt64.ofNat_toNat]

end ShardCache
