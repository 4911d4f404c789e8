import ShardCache.Protocol.Resp

/-!
# Requests in RESP

A request is an array of bulk strings or an inline line. The parser is applied to what has arrived
of the stream so far.

## Main definitions

* `parseInline`, `parseArray`, `parseRequest`: the parser
* `InlineFits`: the line that starts the stream, if it is an inline command, is not too long

## Main results

* `parseRequest_ok_append`, `parseRequest_error_append`: what was decided on a part of the stream is
  decided on the whole stream, if its inline lines are not too long
* `parseRequest_length`: a request takes at least one byte
* `parseRequest_command`: a request that was encoded is read back if it is within the limits
* `request_delimits_itself`: it is read back whatever follows it, and no part of it is
-/

namespace ShardCache

open Foundations Resp

/-! ## The parser -/

/-- `parse_int`, with the bounds that lengths and counts are held to. -/
def parseLength (max : ℕ) (s : Bytes) : Option ℕ :=
  (parseInt s).bind fun n => if n.toInt < 0 ∨ n.toInt > max then none else some n.toInt.toNat

/-- One argument of a request: a bulk string. -/
def parseArgument : Decoder UInt8 Bytes Bytes := do
  if (← Decoder.peek) ≠ 36 then .fail (ascii "Protocol error: expected '$'")
  else
    match parseLength kMaxBulkLength ((← readLine).drop 1) with
    | none => .fail (ascii "Protocol error: invalid bulk length")
    | some len =>
      let data ← Decoder.take (len + 2)
      if data.drop len ≠ [13, 10] then
        .fail (ascii "Protocol error: bulk string not terminated by CRLF")
      else pure (data.take len)

/-- The branch of `parse_request` for an array of bulk strings. -/
def parseArray : Decoder UInt8 Bytes (List Bytes) := do
  match parseLength kMaxArrayLength ((← readLine).drop 1) with
  | none => .fail (ascii "Protocol error: invalid multibulk length")
  | some count => parseArgument.times count

/-- A blank or a tab, which separates the words of an inline command. -/
def isBlank (c : UInt8) : Bool := c = 32 || c = 9

/-- `parse_inline`. -/
def parseInline (buf : Bytes) : Parsed UInt8 Bytes (List Bytes) :=
  match buf.idxOf? 10 with
  | none =>
    if buf.length > kMaxInlineLength then .error (ascii "Protocol error: too big inline request")
    else .incomplete
  | some eol =>
    let line := buf.take eol
    let line := if line.getLast? = some 13 then line.dropLast else line
    .ok ((line.splitOnP isBlank).filter (· ≠ [])) (buf.drop (eol + 1))

/-- `parse_request`. -/
def parseRequest (buf : Bytes) : Parsed UInt8 Bytes (List Bytes) :=
  match buf with
  | [] => .incomplete
  | c :: _ => if c ≠ 42 then parseInline buf else parseArray.parse buf

/-- What starts with an asterisk is an array. -/
theorem parseRequest_of_head {buf : Bytes} (h : buf.head? = some 42) :
    parseRequest buf = parseArray.parse buf := by
  cases buf with
  | nil => cases h
  | cons c buf =>
    obtain rfl : c = 42 := Option.some.inj h
    rw [parseRequest, if_neg (by decide)]

/-- The stream starts with an array, or with an inline command that is not too long. -/
def InlineFits (buf : Bytes) : Prop :=
  buf.head? ≠ some 42 → ∀ eol, buf.idxOf? 10 = some eol → eol ≤ kMaxInlineLength

/-! ## Decisions on a part of the stream -/

variable {buf rest more : Bytes} {args : List Bytes} {e : Bytes}

theorem idxOf?_append_of_some {eol : ℕ} (h : buf.idxOf? 10 = some eol) (more : Bytes) :
    (buf ++ more).idxOf? 10 = some eol ∧ eol + 1 ≤ buf.length := by
  rw [List.idxOf?] at h ⊢
  rw [List.findIdx?_append, h, Option.some_or]
  exact ⟨rfl, (List.findIdx?_eq_some_iff_getElem.mp h).1⟩

theorem idxOf?_append_of_none (h : buf.idxOf? 10 = none) {eol : ℕ}
    (happ : (buf ++ more).idxOf? 10 = some eol) : buf.length ≤ eol := by
  rw [List.idxOf?] at h happ
  rw [List.findIdx?_append, h, Option.none_or] at happ
  obtain ⟨i, -, rfl⟩ := Option.map_eq_some_iff.mp happ
  omega

theorem parseInline_ok_append (h : parseInline buf = .ok args rest) (more : Bytes) :
    parseInline (buf ++ more) = .ok args (rest ++ more) := by
  unfold parseInline at h ⊢
  split at h
  · split at h <;> cases h
  · rename_i eol heol
    obtain ⟨happ, hle⟩ := idxOf?_append_of_some heol more
    cases h
    simp only [happ]
    rw [List.take_append_of_le_length (by omega), List.drop_append_of_le_length hle]

/-- A line that has become too long stays too long, unless its end is still to come. -/
theorem parseInline_error_append (h : parseInline buf = .error e)
    (hfits : ∀ eol, (buf ++ more).idxOf? 10 = some eol → eol ≤ kMaxInlineLength) :
    parseInline (buf ++ more) = .error e := by
  unfold parseInline at h ⊢
  split at h
  · rename_i hnone
    split at h
    · -- no line break so far, and too many bytes
      rename_i hlong
      cases h
      cases hidx : (buf ++ more).idxOf? 10 with
      | none =>
        simp only
        rw [if_pos (by simp; omega)]
      | some eol =>
        -- the end of the line comes later, so the line is too long
        have hle := idxOf?_append_of_none hnone hidx
        have hfit := hfits eol hidx
        omega
    · cases h
  · cases h

theorem parseRequest_ok_append (h : parseRequest buf = .ok args rest) (more : Bytes) :
    parseRequest (buf ++ more) = .ok args (rest ++ more) := by
  cases buf with
  | nil => cases h
  | cons c buf =>
    rw [parseRequest] at h
    rw [List.cons_append, parseRequest]
    split at h
    · rw [if_pos ‹_›]
      exact parseInline_ok_append h more
    · rw [if_neg ‹_›]
      exact parseArray.ok_append more h

theorem parseRequest_error_append (h : parseRequest buf = .error e)
    (hfits : InlineFits (buf ++ more)) : parseRequest (buf ++ more) = .error e := by
  cases buf with
  | nil => cases h
  | cons c buf =>
    rw [parseRequest] at h
    rw [List.cons_append, parseRequest]
    split at h
    · rename_i hc
      rw [if_pos hc]
      exact parseInline_error_append h (hfits (by simpa using hc))
    · rw [if_neg ‹_›]
      exact parseArray.error_append more h

/-! ## What is taken -/

theorem le_of_parseLength {max n : ℕ} {s : Bytes} (h : parseLength max s = some n) : n ≤ max := by
  obtain ⟨len, -, h⟩ := Option.bind_eq_some_iff.mp h
  split_ifs at h
  cases h
  omega

/-- How an argument is read: the type byte is looked at, and then taken with the line of the
length. -/
theorem parse_argument_line {text : Bytes} (hline : findCrlf (36 :: text) = none) (body : Bytes) :
    parseArgument.parse (36 :: text ++ 13 :: 10 :: body) =
      match parseLength kMaxBulkLength text with
      | none => .error (ascii "Protocol error: invalid bulk length")
      | some len => (do
          let data ← Decoder.take (len + 2)
          if data.drop len ≠ [13, 10] then
            .fail (ascii "Protocol error: bulk string not terminated by CRLF")
          else pure (data.take len) : Decoder UInt8 Bytes Bytes).parse body := by
  rw [parseArgument, List.cons_append, Decoder.parse_bind_ok (Decoder.parse_peek_cons _ _),
    if_neg (by decide), ← List.cons_append, Decoder.parse_bind_ok (readLine_append hline _),
    List.drop_one, List.tail_cons]
  cases parseLength kMaxBulkLength text with
  | none => rfl
  | some len => rfl

theorem parse_argument_of_ne {c : UInt8} (h : c ≠ 36) (buf : Bytes) :
    parseArgument.parse (c :: buf) = .error (ascii "Protocol error: expected '$'") := by
  rw [parseArgument, Decoder.parse_bind_ok (Decoder.parse_peek_cons _ _), if_pos h]
  rfl

theorem parse_argument {text arg : Bytes} (hlen : parseLength kMaxBulkLength text = some arg.length)
    (hline : findCrlf (36 :: text) = none) (more : Bytes) :
    parseArgument.parse (36 :: text ++ 13 :: 10 :: (arg ++ [13, 10] ++ more)) = .ok arg more := by
  have htake : arg.length + 2 = (arg ++ [13, 10]).length := by simp
  rw [parse_argument_line hline, hlen]
  simp only
  rw [htake, Decoder.parse_bind_ok (Decoder.parse_take_append _ _)]
  simp

/-- The first line of a buffer starts with its type byte. -/
theorem exists_text_of_readLine {type : UInt8} {body line : Bytes} (hhead : buf.head? = some type)
    (htype : type ≠ 13) (hline : (readLine : Decoder UInt8 Bytes Bytes).parse buf = .ok line body) :
    ∃ text, line = type :: text ∧ findCrlf (type :: text) = none ∧
      buf = type :: text ++ 13 :: 10 :: body := by
  obtain ⟨hnone, rfl⟩ := readLine_eq_ok hline
  cases line with
  | nil => exact absurd (Option.some.inj hhead).symm htype
  | cons c text =>
    obtain rfl : c = type := Option.some.inj hhead
    exact ⟨text, rfl, hnone, rfl⟩

/-- An argument is the line of its length, its data and a line break. -/
theorem parseArgument_eq_ok {arg : Bytes} (h : parseArgument.parse buf = .ok arg rest) :
    ∃ text, parseLength kMaxBulkLength text = some arg.length ∧ findCrlf (36 :: text) = none ∧
      buf = 36 :: text ++ 13 :: 10 :: (arg ++ 13 :: 10 :: rest) := by
  rw [parseArgument] at h
  obtain ⟨type, mid, hpeek, h⟩ := Decoder.parse_bind_eq_ok.mp h
  cases buf with
  | nil => cases hpeek
  | cons c buf =>
    cases hpeek
    split_ifs at h with htype
    · cases h
    obtain rfl := not_not.mp htype
    obtain ⟨line, body, hline, h⟩ := Decoder.parse_bind_eq_ok.mp h
    obtain ⟨text, rfl, hnone, hbuf⟩ := exists_text_of_readLine rfl (by decide) hline
    rw [List.drop_one, List.tail_cons] at h
    cases hlen : parseLength kMaxBulkLength text with
    | none => simp [hlen] at h
    | some len =>
      -- the data is taken with the two bytes behind it, which are a line break
      simp only [hlen] at h
      obtain ⟨data, left, htake, h⟩ := Decoder.parse_bind_eq_ok.mp h
      simp only [Decoder.take] at htake
      split_ifs at htake with hshort
      cases htake
      split_ifs at h with hclose
      · cases h
      cases h
      refine ⟨text, ?_, hnone, ?_⟩
      · rw [hlen, List.take_take, List.length_take]
        congr 1
        omega
      · have hsplit : body = body.take len ++ ((body.drop len).take 2 ++ body.drop (len + 2)) := by
          rw [← List.drop_drop, List.take_append_drop, List.take_append_drop]
        rw [not_not, List.drop_take, Nat.add_sub_cancel_left] at hclose
        rw [hclose] at hsplit
        rw [hbuf, List.take_take, min_eq_left (by omega)]
        exact congrArg (36 :: text ++ 13 :: 10 :: ·) hsplit

/-- What is read as an argument is read whatever follows it. -/
theorem delimited_parseArgument : parseArgument.Delimited := by
  intro buf arg rest h
  obtain ⟨text, hlen, hnone, rfl⟩ := parseArgument_eq_ok h
  refine ⟨36 :: text ++ 13 :: 10 :: (arg ++ [13, 10]), by simp, ?_⟩
  have hparse := parse_argument hlen hnone []
  rw [List.append_nil] at hparse
  exact hparse

/-- `parse_request` waits for the type byte of an argument, for the line of its length, or for the
data behind it. -/
theorem parseArgument_eq_incomplete (h : parseArgument.parse buf = .incomplete) :
    buf = [] ∨ buf.head? = some 36 ∧ (findCrlf buf = none ∨
      ∃ text data len, buf = 36 :: text ++ 13 :: 10 :: data ∧ findCrlf (36 :: text) = none ∧
        len ≤ kMaxBulkLength ∧ data.length < len + 2) := by
  cases buf with
  | nil => exact Or.inl rfl
  | cons c buf =>
    obtain rfl : c = 36 := by
      by_contra hne
      rw [parse_argument_of_ne hne] at h
      cases h
    refine Or.inr ⟨rfl, ?_⟩
    cases hline : (readLine : Decoder UInt8 Bytes Bytes).parse (36 :: buf) with
    | error e => exact absurd hline readLine_ne_error
    | incomplete => exact Or.inl (readLine_eq_incomplete.mp hline)
    | ok line data =>
      right
      obtain ⟨text, rfl, hnone, hbuf⟩ := exists_text_of_readLine rfl (by decide) hline
      rw [hbuf, parse_argument_line hnone] at h
      cases hlen : parseLength kMaxBulkLength text with
      | none => simp [hlen] at h
      | some len =>
        simp only [hlen] at h
        rw [Decoder.parse_bind_eq_incomplete] at h
        rcases h with htake | ⟨taken, left, -, h⟩
        · -- the data has not arrived
          simp only [Decoder.take] at htake
          split_ifs at htake with hshort
          exact ⟨text, data, len, hbuf, hnone, le_of_parseLength hlen, hshort⟩
        · split_ifs at h <;> cases h

/-- How an array is read: the line of the count, and that many arguments. -/
theorem parse_array_line {text : Bytes} (hline : findCrlf (42 :: text) = none) (body : Bytes) :
    parseArray.parse (42 :: text ++ 13 :: 10 :: body) =
      match parseLength kMaxArrayLength text with
      | none => .error (ascii "Protocol error: invalid multibulk length")
      | some count => (parseArgument.times count).parse body := by
  rw [parseArray, Decoder.parse_bind_ok (readLine_append hline _), List.drop_one, List.tail_cons]
  cases parseLength kMaxArrayLength text with
  | none => rfl
  | some count => rfl

/-- `parse_request` waits for the line of a count, or for an argument. -/
theorem parseArray_eq_incomplete (hhead : buf.head? = some 42)
    (h : parseArray.parse buf = .incomplete) :
    findCrlf buf = none ∨
      ∃ text rest count, buf = 42 :: text ++ 13 :: 10 :: rest ∧ findCrlf (42 :: text) = none ∧
        parseLength kMaxArrayLength text = some count ∧
        (parseArgument.times count).parse rest = .incomplete := by
  cases hline : (readLine : Decoder UInt8 Bytes Bytes).parse buf with
  | error e => exact absurd hline readLine_ne_error
  | incomplete => exact Or.inl (readLine_eq_incomplete.mp hline)
  | ok line rest =>
    right
    obtain ⟨text, rfl, hnone, rfl⟩ := exists_text_of_readLine hhead (by decide) hline
    rw [parse_array_line hnone] at h
    cases hcount : parseLength kMaxArrayLength text with
    | none => simp [hcount] at h
    | some count =>
      simp only [hcount] at h
      exact ⟨text, rest, count, rfl, hnone, hcount, h⟩

theorem parseArray_length (h : parseArray.parse buf = .ok args rest) : rest.length < buf.length := by
  obtain ⟨line, mid, hline, hrest⟩ := Decoder.parse_bind_eq_ok.mp h
  have hlt := readLine_length hline
  have hle := (Decoder.suffix _ hrest).length_le
  omega

theorem parseRequest_length (h : parseRequest buf = .ok args rest) : rest.length < buf.length := by
  cases buf with
  | nil => cases h
  | cons c buf =>
    rw [parseRequest] at h
    split at h
    · -- an inline command is taken with its line break
      unfold parseInline at h
      split at h
      · split at h <;> cases h
      · cases h
        simp
    · exact parseArray_length h

/-! ## What is encoded is read back -/

theorem parseLength_decimal {max : ℕ} (hmax : max < 2 ^ 63) (n : ℕ) :
    parseLength max (decimal n) = if n ≤ max then some n else none := by
  rw [parseLength, parseInt_decimal]
  by_cases h63 : n < 2 ^ 63
  · -- the number fits an `int64_t`, and is compared with the limit
    rw [if_pos h63, Option.bind_some, toInt_ofInt_natCast h63, Int.toNat_natCast]
    by_cases hle : n ≤ max
    · rw [if_neg (by omega), if_pos hle]
    · rw [if_pos (by omega), if_neg hle]
  · rw [if_neg h63, Option.bind_none, if_neg (by omega)]

theorem parseArgument_appendBulk (s more : Bytes) :
    parseArgument.parse (appendBulk s ++ more) =
      if s.length ≤ kMaxBulkLength then .ok s more
      else .error (ascii "Protocol error: invalid bulk length") := by
  have hline : findCrlf (36 :: decimal s.length) = none := by
    rw [findCrlf_cons (by decide), findCrlf_decimal, Option.map_none]
  have hlen : parseLength kMaxBulkLength (decimal s.length) = _ :=
    parseLength_decimal (by decide) s.length
  rw [appendBulk_append]
  split_ifs with hle
  · rw [if_pos hle] at hlen
    exact parse_argument hlen hline more
  · rw [if_neg hle] at hlen
    rw [parse_argument_line hline, hlen]

/-- The arguments of a request are within the limits of the protocol. -/
def WithinLimits (args : List Bytes) : Prop :=
  args.length ≤ kMaxArrayLength ∧ ∀ a ∈ args, a.length ≤ kMaxBulkLength

instance (args : List Bytes) : Decidable (WithinLimits args) :=
  inferInstanceAs (Decidable (_ ∧ _))

theorem command_append (args : List Bytes) (more : Bytes) :
    command args ++ more =
      42 :: decimal args.length ++ 13 :: 10 :: ((args.map appendBulk).flatten ++ more) := by
  rw [command, List.append_assoc, appendArrayHeader_append]

theorem head?_command_append (args : List Bytes) (more : Bytes) :
    (command args ++ more).head? = some 42 := by
  rw [command_append, List.cons_append, List.head?_cons]

/-- **A request that was encoded is read back** if it is within the limits, and refused if not. -/
theorem parseRequest_command (args : List Bytes) (more : Bytes) :
    WithinLimits args ∧ parseRequest (command args ++ more) = .ok args more ∨
      ¬WithinLimits args ∧ ∃ e, parseRequest (command args ++ more) = .error e := by
  have hline : findCrlf (42 :: decimal args.length) = none := by
    rw [findCrlf_cons (by decide), findCrlf_decimal, Option.map_none]
  rw [parseRequest_of_head (head?_command_append args more), command_append,
    parse_array_line hline, parseLength_decimal (by decide)]
  by_cases hlen : args.length ≤ kMaxArrayLength
  · -- the arguments are read one by one, up to the first that is too long
    simp only [if_pos hlen]
    rw [Decoder.times_encode parseArgument_appendBulk, List.map_id']
    by_cases hargs : ∀ a ∈ args, a.length ≤ kMaxBulkLength
    · exact Or.inl ⟨⟨hlen, hargs⟩, if_pos hargs⟩
    · exact Or.inr ⟨fun h => hargs h.2, _, if_neg hargs⟩
  · simp only [if_neg hlen]
    exact Or.inr ⟨fun h => hlen h.1, _, rfl⟩

theorem whole_command {args : List Bytes} (h : WithinLimits args) :
    parseArray.Whole args (command args) := by
  have hhead : (command args).head? = some 42 := by
    have hhead := head?_command_append args []
    rwa [List.append_nil] at hhead
  obtain ⟨-, hok⟩ | ⟨hnot, -⟩ := parseRequest_command args []
  · rw [List.append_nil, parseRequest_of_head hhead] at hok
    exact hok
  · exact absurd h hnot

/-- **A request that was encoded delimits itself**: whatever follows it, its arguments are read and
its bytes are taken, and on a part of it the parser asks for more. -/
theorem request_delimits_itself {args : List Bytes} (h : WithinLimits args) :
    (∀ rest, parseRequest (command args ++ rest) = .ok args rest) ∧
      ∀ part, part <+: command args → part ≠ command args → parseRequest part = .incomplete := by
  have hwhole := whole_command h
  constructor
  · intro rest
    rw [parseRequest_of_head (head?_command_append args rest)]
    exact hwhole.parse_append rest
  · rintro part ⟨more, hcommand⟩ hne
    have hmore : more ≠ [] := by
      rintro rfl
      exact hne (by simpa using hcommand)
    -- a part that is not empty starts with the asterisk too
    cases part with
    | nil => rfl
    | cons c part =>
      have hhead := head?_command_append args []
      rw [List.append_nil, ← hcommand, List.cons_append, List.head?_cons] at hhead
      rw [parseRequest_of_head (by rw [List.head?_cons, hhead])]
      exact hwhole.incomplete hcommand.symm hmore

/-- An argument that is a line break itself, and an empty one. -/
theorem request_delimits_itself_lineBreak :
    WithinLimits [[13, 10], []] ∧
      parseRequest (command [[13, 10], []] ++ [42]) = .ok [[13, 10], []] [42] := by
  have hlimits : WithinLimits [[13, 10], []] := by decide
  exact ⟨hlimits, (request_delimits_itself hlimits).1 [42]⟩

end ShardCache
