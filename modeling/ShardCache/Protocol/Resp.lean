import ShardCache.Foundations.Framing
import ShardCache.Protocol.Number

/-!
# Replies in RESP

A reply is one RESP value. Values that end with a line break and values that carry their length are
told apart by their first byte.

## Main definitions

* `findCrlf`, `readLine`: the lines of the protocol
* `RespValue`, `parseReply`: a reply, and its parser
* `Resp.appendSimple`, `Resp.appendError`, `Resp.appendInteger`, `Resp.appendBulk`,
  `Resp.appendNull`, `Resp.appendArrayHeader`, `Resp.command`: the bytes that the encoders append

## Main results

* `parseReplyN_congr`: the depth of the recursion is bounded by the length of the buffer
* `whole_appendError_iff`, `whole_appendBulk_iff`: the texts and lengths that are read back
-/

namespace ShardCache

open Foundations

/-- `kMaxBulkLength`. -/
def kMaxBulkLength : ℕ := 64 * 1024 * 1024

/-- `kMaxArrayLength`. -/
def kMaxArrayLength : ℕ := 1024 * 1024

/-- `kMaxInlineLength`. -/
def kMaxInlineLength : ℕ := 64 * 1024

/-! ## Lines -/

/-- `find_crlf`: the index of the first `"\r\n"`. -/
def findCrlf : Bytes → Option ℕ
  | [] => none
  | [_] => none
  | c :: d :: rest => if c = 13 ∧ d = 10 then some 0 else (findCrlf (d :: rest)).map (· + 1)

theorem findCrlf_append {buf : Bytes} {eol : ℕ} (h : findCrlf buf = some eol) (more : Bytes) :
    findCrlf (buf ++ more) = some eol ∧ eol + 2 ≤ buf.length := by
  fun_induction findCrlf buf generalizing eol with
  | case1 => cases h
  | case2 => cases h
  | case3 c d rest heq =>
    -- the line break is here
    obtain rfl := Option.some.inj h
    simp [findCrlf, heq]
  | case4 c d rest hne ih =>
    -- the line break is further on
    obtain ⟨i, hi, rfl⟩ := Option.map_eq_some_iff.mp h
    obtain ⟨happ, hle⟩ := ih hi
    refine ⟨?_, by simp at hle ⊢; omega⟩
    simp only [List.cons_append] at happ ⊢
    rw [findCrlf, if_neg hne, happ]
    rfl

/-- A line that is closed by `"\r\n"` ends there if it has no line break of its own. -/
theorem findCrlf_line {line : Bytes} (h : findCrlf line = none) (more : Bytes) :
    findCrlf (line ++ 13 :: 10 :: more) = some line.length := by
  fun_induction findCrlf line with
  | case1 => rfl
  | case2 c =>
    -- a carriage return at the end of the line is not followed by a newline, but by another
    simp [findCrlf]
  | case3 c d rest heq => cases h
  | case4 c d rest hne ih =>
    have hrest : findCrlf (d :: rest) = none := by simpa using h
    simp only [List.cons_append] at ih ⊢
    rw [findCrlf, if_neg hne, ih hrest]
    rfl

theorem findCrlf_cons {c : UInt8} (h : c ≠ 13) (rest : Bytes) :
    findCrlf (c :: rest) = (findCrlf rest).map (· + 1) := by
  cases rest with
  | nil => rfl
  | cons d rest => rw [findCrlf, if_neg fun heq => h heq.1]

theorem findCrlf_eq_none {line : Bytes} (h : (13 : UInt8) ∉ line) : findCrlf line = none := by
  induction line with
  | nil => rfl
  | cons c line ih =>
    have hc : c ≠ 13 := fun heq => h (heq ▸ List.mem_cons_self)
    rw [findCrlf_cons hc, ih fun hmem => h (List.mem_cons_of_mem c hmem), Option.map_none]

theorem findCrlf_append_left {text : Bytes} (h : (13 : UInt8) ∉ text) (s : Bytes) :
    findCrlf (text ++ s) = none ↔ findCrlf s = none := by
  induction text with
  | nil => rfl
  | cons c text ih =>
    have hc : c ≠ 13 := fun heq => h (heq ▸ List.mem_cons_self)
    rw [List.cons_append, findCrlf_cons hc, Option.map_eq_none_iff]
    exact ih fun hmem => h (List.mem_cons_of_mem c hmem)

theorem findCrlf_append_singleton {c : UInt8} (h : c ≠ 10) (s : Bytes) :
    findCrlf (s ++ [c]) = none ↔ findCrlf s = none := by
  fun_induction findCrlf s with
  | case1 => simp [findCrlf]
  | case2 d => simp [findCrlf, h]
  | case3 d e rest heq => simp [findCrlf, heq]
  | case4 d e rest hne ih =>
    simp only [List.cons_append] at ih ⊢
    rw [findCrlf, if_neg hne, Option.map_eq_none_iff, Option.map_eq_none_iff]
    exact ih

/-- The bytes up to the first `"\r\n"`, which is taken with them. -/
def readLine {ε : Type} : Decoder UInt8 ε Bytes where
  parse buf :=
    match findCrlf buf with
    | none => .incomplete
    | some eol => .ok (buf.take eol) (buf.drop (eol + 2))
  suffix {buf a rest} h := by
    split at h
    · cases h
    · cases h
      exact List.drop_suffix _ _
  ok_append {buf a rest} more h := by
    split at h
    · cases h
    · rename_i eol heol
      cases h
      obtain ⟨happ, hle⟩ := findCrlf_append heol more
      simp only [happ]
      rw [List.take_append_of_le_length (by omega), List.drop_append_of_le_length hle]
  error_append {buf e} more h := by
    split at h <;> cases h

/-- The first line break ends a line without one. -/
theorem findCrlf_eq_some {buf : Bytes} {eol : ℕ} (h : findCrlf buf = some eol) :
    findCrlf (buf.take eol) = none ∧ buf = buf.take eol ++ 13 :: 10 :: buf.drop (eol + 2) := by
  fun_induction findCrlf buf generalizing eol with
  | case1 => cases h
  | case2 => cases h
  | case3 c d rest heq =>
    obtain rfl := Option.some.inj h
    simp [findCrlf, heq]
  | case4 c d rest hne ih =>
    obtain ⟨i, hi, rfl⟩ := Option.map_eq_some_iff.mp h
    obtain ⟨hnone, hbuf⟩ := ih hi
    refine ⟨?_, by simpa using congrArg (c :: ·) hbuf⟩
    -- the line break of the rest is not moved to the front by the first byte
    cases i with
    | zero => rfl
    | succ i =>
      rw [List.take_succ_cons] at hnone ⊢
      rw [List.take_succ_cons, findCrlf, if_neg hne, hnone, Option.map_none]

/-- The first line, as far as it has arrived, has no line break. -/
theorem findCrlf_take_line (buf : Bytes) :
    findCrlf (buf.take ((findCrlf buf).getD buf.length)) = none ∧
      (findCrlf buf).getD buf.length ≤ buf.length := by
  cases h : findCrlf buf with
  | none => simp [h]
  | some eol =>
    obtain ⟨-, hle⟩ := findCrlf_append h []
    exact ⟨(findCrlf_eq_some h).1, by simp only [Option.getD_some]; omega⟩

theorem readLine_eq_ok {ε : Type} {buf line rest : Bytes}
    (h : (readLine : Decoder UInt8 ε Bytes).parse buf = .ok line rest) :
    findCrlf line = none ∧ buf = line ++ 13 :: 10 :: rest := by
  simp only [readLine] at h
  split at h
  · cases h
  next eol heol =>
    cases h
    exact findCrlf_eq_some heol

theorem readLine_eq_incomplete {ε : Type} {buf : Bytes} :
    (readLine : Decoder UInt8 ε Bytes).parse buf = .incomplete ↔ findCrlf buf = none := by
  cases h : findCrlf buf with
  | none => simp [readLine, h]
  | some eol => simp [readLine, h]

theorem readLine_ne_error {ε : Type} {buf : Bytes} {e : ε} :
    (readLine : Decoder UInt8 ε Bytes).parse buf ≠ .error e := by
  cases h : findCrlf buf with
  | none => simp [readLine, h]
  | some eol => simp [readLine, h]

theorem readLine_length {ε : Type} {buf line rest : Bytes}
    (h : (readLine : Decoder UInt8 ε Bytes).parse buf = .ok line rest) :
    rest.length < buf.length := by
  rw [(readLine_eq_ok h).2]
  simp
  omega

theorem readLine_append {ε : Type} {line : Bytes} (h : findCrlf line = none) (more : Bytes) :
    (readLine : Decoder UInt8 ε Bytes).parse (line ++ 13 :: 10 :: more) = .ok line more := by
  simp [readLine, findCrlf_line h]

/-! ## Replies -/

/-- `RespValue`. -/
inductive RespValue where
  | simpleString (str : Bytes)
  | error (str : Bytes)
  | integer (n : Int64)
  | bulkString (str : Bytes)
  | null
  | array (elements : List RespValue)
deriving Repr

mutual

/-- Equality of values. -/
def RespValue.decEq : (v w : RespValue) → Decidable (v = w)
  | .simpleString s, .simpleString t => decidable_of_iff (s = t) (by simp)
  | .error s, .error t => decidable_of_iff (s = t) (by simp)
  | .integer n, .integer m => decidable_of_iff (n = m) (by simp)
  | .bulkString s, .bulkString t => decidable_of_iff (s = t) (by simp)
  | .null, .null => .isTrue rfl
  | .array vs, .array ws =>
    have := RespValue.decEqList vs ws
    decidable_of_iff (vs = ws) (by simp)
  | .simpleString _, .error _ | .simpleString _, .integer _ | .simpleString _, .bulkString _
  | .simpleString _, .null | .simpleString _, .array _ | .error _, .simpleString _
  | .error _, .integer _ | .error _, .bulkString _ | .error _, .null | .error _, .array _
  | .integer _, .simpleString _ | .integer _, .error _ | .integer _, .bulkString _
  | .integer _, .null | .integer _, .array _ | .bulkString _, .simpleString _
  | .bulkString _, .error _ | .bulkString _, .integer _ | .bulkString _, .null
  | .bulkString _, .array _ | .null, .simpleString _ | .null, .error _ | .null, .integer _
  | .null, .bulkString _ | .null, .array _ | .array _, .simpleString _ | .array _, .error _
  | .array _, .integer _ | .array _, .bulkString _ | .array _, .null => .isFalse (by simp)

/-- Equality of lists of values. -/
def RespValue.decEqList : (vs ws : List RespValue) → Decidable (vs = ws)
  | [], [] => .isTrue rfl
  | [], _ :: _ => .isFalse (by simp)
  | _ :: _, [] => .isFalse (by simp)
  | v :: vs, w :: ws =>
    have := RespValue.decEq v w
    have := RespValue.decEqList vs ws
    decidable_of_iff (v = w ∧ vs = ws) (by simp)

end

instance : DecidableEq RespValue := RespValue.decEq

/-- The line of a bulk string or an array: a length, `-1` for null, and what follows. -/
def parseReplyLength (max : ℕ) (line : Bytes) (body : ℕ → Decoder UInt8 Unit RespValue) :
    Decoder UInt8 Unit RespValue :=
  match parseInt line with
  | none => .fail ()
  | some len =>
    if len.toInt < -1 ∨ len.toInt > max then .fail ()
    else if len.toInt = -1 then pure .null
    else body len.toInt.toNat

theorem parseReplyLength_eq_ok {max : ℕ} {line buf rest : Bytes} {v : RespValue}
    {body : ℕ → Decoder UInt8 Unit RespValue}
    (h : (parseReplyLength max line body).parse buf = .ok v rest) :
    parseInt line = some (-1) ∧ rest = buf ∨
      ∃ len n, parseInt line = some len ∧ len.toInt = (n : ℕ) ∧ (body n).parse buf = .ok v rest := by
  unfold parseReplyLength at h
  split at h
  · cases h
  next len hlen =>
    split_ifs at h with hlimits hnull
    · cases h
    · cases h
      exact Or.inl ⟨hlen.trans (congrArg some (Int64.toInt_inj.mp hnull)), rfl⟩
    · exact Or.inr ⟨len, len.toInt.toNat, hlen, by omega, h⟩

/-- The cases of `parse_reply`, on the type byte of a value and the rest of its line. -/
def parseReplyLine (element : Decoder UInt8 Unit RespValue) (type : UInt8) (line : Bytes) :
    Decoder UInt8 Unit RespValue :=
  if type = 43 then pure (.simpleString line)
  else if type = 45 then pure (.error line)
  else if type = 58 then
    match parseInt line with
    | none => .fail ()
    | some n => pure (.integer n)
  else if type = 36 then
    -- The two bytes after the data are taken as they are.
    parseReplyLength kMaxBulkLength line fun len => do
      return .bulkString ((← Decoder.take (len + 2)).take len)
  else if type = 42 then
    parseReplyLength kMaxArrayLength line fun count => do
      return .array (← element.times count)
  else .fail ()

theorem parseReplyLine_bulk (element : Decoder UInt8 Unit RespValue) (line : Bytes) :
    parseReplyLine element 36 line = parseReplyLength kMaxBulkLength line fun len => do
      return .bulkString ((← Decoder.take (len + 2)).take len) := by
  simp [parseReplyLine]

theorem parseReplyLine_array (element : Decoder UInt8 Unit RespValue) (line : Bytes) :
    parseReplyLine element 42 line = parseReplyLength kMaxArrayLength line fun count => do
      return .array (← element.times count) := by
  simp [parseReplyLine]

/-- `parse_reply`, with its recursion cut at a depth. -/
def parseReplyN : ℕ → Decoder UInt8 Unit RespValue
  | 0 => .fail ()
  | fuel + 1 => do
    match ← readLine with
    | [] => .fail ()
    | type :: line => parseReplyLine (parseReplyN fuel) type line

/-- Decoders of elements that agree on what is left give the same value. -/
theorem parseReplyLine_congr {d d' : Decoder UInt8 Unit RespValue} {type : UInt8} {line buf : Bytes}
    (h : ∀ rest : Bytes, rest.length ≤ buf.length → d.parse rest = d'.parse rest) :
    (parseReplyLine d type line).parse buf = (parseReplyLine d' type line).parse buf := by
  unfold parseReplyLine
  split_ifs
  all_goals try rfl
  -- Only the elements of an array are read with the decoder.
  unfold parseReplyLength
  cases parseInt line with
  | none => rfl
  | some count =>
    simp only
    split_ifs
    · rfl
    · rfl
    · rw [Decoder.parse_bind, Decoder.parse_bind, Decoder.times_congr h]

/-- The recursion of `parse_reply` is no deeper than the buffer is long. -/
theorem parseReplyN_congr {m n : ℕ} {buf : Bytes} (hm : buf.length < m) (hn : buf.length < n) :
    (parseReplyN m).parse buf = (parseReplyN n).parse buf := by
  -- Induction on the depth: the elements are read from less than the buffer.
  induction m generalizing n buf with
  | zero => omega
  | succ m ih =>
    obtain ⟨n, rfl⟩ : ∃ k, n = k + 1 := ⟨n - 1, by omega⟩
    rw [parseReplyN, parseReplyN, Decoder.parse_bind, Decoder.parse_bind]
    cases hline : (readLine : Decoder UInt8 Unit Bytes).parse buf with
    | incomplete => rfl
    | error e => rfl
    | ok line rest =>
      have hlt := readLine_length hline
      cases line with
      | nil => rfl
      | cons type line =>
        exact parseReplyLine_congr fun rest' hle => ih (by omega) (by omega)

/-- `parse_reply`. -/
def parseReply : Decoder UInt8 Unit RespValue where
  parse buf := (parseReplyN (buf.length + 1)).parse buf
  suffix h := (parseReplyN _).suffix h
  ok_append {buf a rest} more h := by
    rw [parseReplyN_congr (Nat.lt_succ_self _) (n := (buf ++ more).length + 1) (by simp)] at h
    exact (parseReplyN _).ok_append more h
  error_append {buf e} more h := by
    rw [parseReplyN_congr (Nat.lt_succ_self _) (n := (buf ++ more).length + 1) (by simp)] at h
    exact (parseReplyN _).error_append more h

/-- `parse_reply` calls itself for the elements of an array. -/
theorem parseReply_eq (buf : Bytes) :
    parseReply.parse buf = (do
      match ← readLine with
      | [] => .fail ()
      | type :: line => parseReplyLine parseReply type line : Decoder UInt8 Unit RespValue).parse buf := by
  show (parseReplyN (buf.length + 1)).parse buf = _
  rw [parseReplyN, Decoder.parse_bind, Decoder.parse_bind]
  cases hline : (readLine : Decoder UInt8 Unit Bytes).parse buf with
  | incomplete => rfl
  | error e => rfl
  | ok line rest =>
    have hlt := readLine_length hline
    cases line with
    | nil => rfl
    | cons type line =>
      refine parseReplyLine_congr ?_
      intro rest' hle
      exact parseReplyN_congr (n := rest'.length + 1) (by omega) (by omega)

/-! ## Encoders -/

namespace Resp

/-- What `append_simple` appends. -/
def appendSimple (s : Bytes) : Bytes := 43 :: s ++ [13, 10]

/-- What `append_error` appends. -/
def appendError (s : Bytes) : Bytes := 45 :: s ++ [13, 10]

/-- What `append_integer` appends. -/
def appendInteger (n : Int64) : Bytes := 58 :: decimalInt n ++ [13, 10]

/-- What `append_bulk` appends. -/
def appendBulk (s : Bytes) : Bytes := 36 :: decimal s.length ++ [13, 10] ++ s ++ [13, 10]

/-- What `append_null` appends. -/
def appendNull : Bytes := ascii "$-1\r\n"

/-- What `append_array_header` appends. -/
def appendArrayHeader (n : ℕ) : Bytes := 42 :: decimal n ++ [13, 10]

/-- `command`: a request as an array of bulk strings. -/
def command (args : List Bytes) : Bytes :=
  appendArrayHeader args.length ++ (args.map appendBulk).flatten

end Resp

/-! ## What is encoded is read back -/

open Resp

theorem not_mem_decimal (n : ℕ) : (13 : UInt8) ∉ decimal n := fun h =>
  absurd (List.all_eq_true.mp (all_isDigit_decimal n) 13 h) (by decide)

theorem findCrlf_decimal (n : ℕ) : findCrlf (decimal n) = none :=
  findCrlf_eq_none (not_mem_decimal n)

theorem not_mem_decimalInt (n : Int64) : (13 : UInt8) ∉ decimalInt n := by
  unfold decimalInt
  split
  · simp [not_mem_decimal]
  · exact not_mem_decimal _

/-- A bulk string is the line of its length, its data and a line break. -/
theorem appendBulk_append (s more : Bytes) :
    appendBulk s ++ more =
      36 :: decimal s.length ++ 13 :: 10 :: ((s ++ [13, 10]) ++ more) := by
  simp [appendBulk]

theorem appendArrayHeader_append (n : ℕ) (more : Bytes) :
    appendArrayHeader n ++ more = 42 :: decimal n ++ 13 :: 10 :: more := by
  simp [appendArrayHeader]

/-- The first line of a value says what follows it. -/
theorem parseReply_line {type : UInt8} {line : Bytes} (htype : type ≠ 13)
    (hline : findCrlf line = none) (more : Bytes) :
    parseReply.parse (type :: line ++ 13 :: 10 :: more) =
      (parseReplyLine parseReply type line).parse more := by
  have hnone : findCrlf (type :: line) = none := by simp [findCrlf_cons htype, hline]
  rw [parseReply_eq, Decoder.parse_bind_ok (readLine_append hnone more)]

theorem whole_appendSimple {s : Bytes} (h : findCrlf s = none) :
    parseReply.Whole (.simpleString s) (appendSimple s) :=
  parseReply_line (by decide) h []

theorem whole_appendError {s : Bytes} (h : findCrlf s = none) :
    parseReply.Whole (.error s) (appendError s) :=
  parseReply_line (by decide) h []

theorem whole_appendInteger (n : Int64) : parseReply.Whole (.integer n) (appendInteger n) := by
  have hline : findCrlf (decimalInt n) = none := findCrlf_eq_none (not_mem_decimalInt n)
  rw [Decoder.Whole, appendInteger, parseReply_line (by decide) hline []]
  simp [parseReplyLine, parseInt_decimalInt]

theorem parse_appendInteger (n : Int64) (more : Bytes) :
    parseReply.parse (appendInteger n ++ more) = .ok (.integer n) more :=
  (whole_appendInteger n).parse_append more

theorem whole_appendNull : parseReply.Whole .null appendNull := by decide

/-- **An error with a line break is cut there**, and what follows is left in the buffer. -/
theorem parse_appendError {s : Bytes} {eol : ℕ} (h : findCrlf s = some eol) :
    parseReply.parse (appendError s) =
      .ok (.error (s.take eol)) (s.drop (eol + 2) ++ [13, 10]) := by
  obtain ⟨happ, hle⟩ := findCrlf_append h [13, 10]
  have hfind : findCrlf (appendError s) = some (eol + 1) := by
    rw [appendError, List.cons_append, findCrlf_cons (by decide), happ, Option.map_some]
  have hread : (readLine : Decoder UInt8 Unit Bytes).parse (appendError s) =
      .ok (45 :: s.take eol) (s.drop (eol + 2) ++ [13, 10]) := by
    simp only [readLine, hfind]
    rw [appendError, List.cons_append, List.take_succ_cons, List.drop_succ_cons,
      List.take_append_of_le_length (by omega), List.drop_append_of_le_length hle]
  rw [parseReply_eq, Decoder.parse_bind_ok hread]
  rfl

theorem whole_appendError_iff (s : Bytes) :
    (∃ v, parseReply.Whole v (appendError s)) ↔ findCrlf s = none := by
  constructor
  · -- a text with a line break leaves bytes behind
    rintro ⟨v, hv⟩
    by_contra hne
    obtain ⟨eol, heol⟩ := Option.ne_none_iff_exists'.mp hne
    have hcut := (parse_appendError heol).symm.trans hv
    simp at hcut
  · intro h
    exact ⟨_, whole_appendError h⟩

/-- A length that was written is read back if it is within the limit. -/
theorem parseReplyLength_decimal {max : ℕ} (hmax : max < 2 ^ 63) (n : ℕ)
    (body : ℕ → Decoder UInt8 Unit RespValue) :
    parseReplyLength max (decimal n) body = if n ≤ max then body n else .fail () := by
  rw [parseReplyLength, parseInt_decimal]
  by_cases h63 : n < 2 ^ 63
  · -- the number fits an `int64_t`, and is compared with the limit
    simp only [if_pos h63, toInt_ofInt_natCast h63, Int.toNat_natCast]
    by_cases hle : n ≤ max
    · rw [if_neg (by omega), if_neg (by omega), if_pos hle]
    · rw [if_pos (by omega), if_neg hle]
  · rw [if_neg (by omega : ¬n ≤ max)]
    simp only [if_neg h63]

/-- How `parse_reply` reads a bulk string that was written. -/
theorem parse_appendBulk (s more : Bytes) :
    parseReply.parse (appendBulk s ++ more) =
      if s.length ≤ kMaxBulkLength then .ok (.bulkString s) more else .error () := by
  have hlen : s.length + 2 = (s ++ [13, 10]).length := by simp
  rw [appendBulk_append, parseReply_line (by decide) (findCrlf_decimal _)]
  rw [parseReplyLine_bulk, parseReplyLength_decimal (by decide)]
  split_ifs with hle
  · -- the data is taken with its line break, which is dropped
    rw [hlen, Decoder.parse_bind_ok (Decoder.parse_take_append _ _)]
    simp
  · rfl

theorem whole_appendBulk_iff (s : Bytes) :
    (∃ v, parseReply.Whole v (appendBulk s)) ↔ s.length ≤ kMaxBulkLength := by
  have hparse := parse_appendBulk s []
  rw [List.append_nil] at hparse
  exact Decoder.exists_whole_iff hparse

/-- How `parse_reply` reads the header of an array that was written. -/
theorem parse_appendArrayHeader (n : ℕ) (more : Bytes) :
    parseReply.parse (appendArrayHeader n ++ more) =
      if n ≤ kMaxArrayLength then
        (do return .array (← parseReply.times n) : Decoder UInt8 Unit RespValue).parse more
      else .error () := by
  rw [appendArrayHeader_append, parseReply_line (by decide) (findCrlf_decimal _)]
  rw [parseReplyLine_array, parseReplyLength_decimal (by decide)]
  split_ifs with hle
  · rfl
  · rfl

/-- **An array of bulk strings is read back** if its count and all its lengths are within the
limits, and refused if not. -/
theorem parse_bulks (bulks : List Bytes) :
    parseReply.parse (appendArrayHeader bulks.length ++ (bulks.map appendBulk).flatten) =
      if bulks.length ≤ kMaxArrayLength ∧ ∀ b ∈ bulks, b.length ≤ kMaxBulkLength then
        .ok (.array (bulks.map .bulkString)) []
      else .error () := by
  rw [parse_appendArrayHeader]
  by_cases hlen : bulks.length ≤ kMaxArrayLength
  · -- the count is accepted: it is up to the elements
    have htimes := Decoder.times_encode parse_appendBulk bulks []
    rw [List.append_nil] at htimes
    rw [if_pos hlen, Decoder.parse_bind, htimes]
    by_cases hbulks : ∀ b ∈ bulks, b.length ≤ kMaxBulkLength
    · rw [if_pos hbulks, if_pos ⟨hlen, hbulks⟩]
      rfl
    · rw [if_neg hbulks, if_neg fun h => hbulks h.2]
  · rw [if_neg hlen, if_neg fun h => hlen h.1]

theorem whole_bulks_iff (bulks : List Bytes) :
    (∃ v, parseReply.Whole v
      (appendArrayHeader bulks.length ++ (bulks.map appendBulk).flatten)) ↔
      bulks.length ≤ kMaxArrayLength ∧ ∀ b ∈ bulks, b.length ≤ kMaxBulkLength :=
  Decoder.exists_whole_iff (parse_bulks bulks)

end ShardCache
