import ShardCache.Protocol.Request

/-!
# Limits of the request parser

The parser asks for more until it can decide, so what it may ask for bounds the buffer of a session.
Inline lines, arrays and bulk strings have limits. The lines that carry the counts and lengths of
arrays and bulk strings have none: the parser looks for their end before it reads the number.

The limit on inline lines is checked while the end of the line has not arrived. Whether a line that
is too long is refused depends on the pieces in which it arrives.

## Main definitions

* `HeadersFit limit buf`: the lines with counts and lengths are at most `limit` bytes long
* `pendingBound limit`: as many bytes can wait for more
* `retry`: `parse_request` is tried again after each piece

## Main results

* `header_never_refused`: a line that the parser waits for, however long it gets
* `pending_bounded_iff`: what waits is bounded exactly if these lines are
* `long_line_accepted`: a line that is too long, and is accepted
* `inline_limit_iff`: the pieces with which the limit is kept
-/

namespace ShardCache

open Foundations Resp

/-! ## Bytes that wait for more -/

/-- The line that starts the buffer with a type byte is at most `limit` bytes long, as far as it has
arrived. -/
def LineFits (type : UInt8) (limit : ℕ) (buf : Bytes) : Prop :=
  buf.head? = some type → (findCrlf buf).getD buf.length ≤ limit

/-- The line of the count is at most `limit` bytes long, and so is every line of a length that the
parser comes to. -/
def HeadersFit (limit : ℕ) (buf : Bytes) : Prop :=
  LineFits 42 limit buf ∧
    ∀ text rest count, buf = 42 :: text ++ 13 :: 10 :: rest → findCrlf (42 :: text) = none →
      parseLength kMaxArrayLength text = some count → ∀ k < count, ∀ args left,
        (parseArgument.times k).parse rest = .ok args left → LineFits 36 limit left

/-- As many bytes of one argument can be in the buffer. -/
def argumentBound (limit : ℕ) : ℕ := limit + kMaxBulkLength + 4

/-- As many bytes can wait for more. -/
def pendingBound (limit : ℕ) : ℕ :=
  max kMaxInlineLength (limit + 2 + kMaxArrayLength * argumentBound limit)

variable {limit : ℕ} {buf rest : Bytes} {args : List Bytes}

theorem lineFits_of_none {type : UInt8} (h : LineFits type limit buf) (hhead : buf.head? = some type)
    (hnone : findCrlf buf = none) : buf.length ≤ limit := by
  have hle := h hhead
  rwa [hnone, Option.getD_none] at hle

theorem lineFits_of_line {type : UInt8} {text body : Bytes}
    (h : LineFits type limit (type :: text ++ 13 :: 10 :: body))
    (hline : findCrlf (type :: text) = none) : text.length + 1 ≤ limit := by
  have hle := h rfl
  rwa [findCrlf_line hline, Option.getD_some, List.length_cons] at hle

theorem length_le_of_parseArgument {arg : Bytes} (hfit : LineFits 36 limit buf)
    (h : parseArgument.parse buf = .ok arg rest) :
    buf.length ≤ argumentBound limit + rest.length := by
  obtain ⟨text, hlen, hline, rfl⟩ := parseArgument_eq_ok h
  have htext := lineFits_of_line hfit hline
  have harg := le_of_parseLength hlen
  simp only [argumentBound, List.length_append, List.length_cons]
  omega

theorem length_le_of_times {k : ℕ}
    (hfit : ∀ j < k, ∀ args left, (parseArgument.times j).parse buf = .ok args left →
      LineFits 36 limit left)
    (h : (parseArgument.times k).parse buf = .ok args rest) :
    buf.length ≤ k * argumentBound limit + rest.length := by
  -- Induction on the arguments: the first one is taken, and the others come behind it.
  induction k generalizing buf args with
  | zero =>
    cases h
    omega
  | succ k ih =>
    obtain ⟨arg, mid, args', rfl, harg, hargs⟩ := Decoder.times_succ_eq_ok_iff.mp h
    have hfirst := length_le_of_parseArgument (hfit 0 (by omega) [] buf rfl) harg
    have hothers := ih (fun j hj as left hleft => hfit (j + 1) (by omega) (arg :: as) left
      (Decoder.times_succ_eq_ok_iff.mpr ⟨arg, mid, as, rfl, harg, hleft⟩)) hargs
    rw [Nat.succ_mul]
    omega

theorem length_lt_of_incomplete (hfit : LineFits 36 limit buf)
    (h : parseArgument.parse buf = .incomplete) : buf.length < argumentBound limit := by
  unfold argumentBound
  obtain rfl | ⟨hhead, hnone | ⟨text, data, len, rfl, hline, hlen, hdata⟩⟩ :=
    parseArgument_eq_incomplete h
  · simp
  · have hle := lineFits_of_none hfit hhead hnone
    omega
  · have htext := lineFits_of_line hfit hline
    simp only [List.length_append, List.length_cons]
    omega

/-- **What waits for more is bounded**, if the lines with counts and lengths are. -/
theorem length_le_pendingBound (hfit : HeadersFit limit buf) (h : parseRequest buf = .incomplete) :
    buf.length ≤ pendingBound limit := by
  unfold pendingBound
  cases buf with
  | nil => simp
  | cons c buf =>
    by_cases hc : c = 42
    · subst hc
      refine le_trans ?_ (le_max_right _ _)
      rw [parseRequest_of_head rfl] at h
      obtain hnone | ⟨text, rest, count, hbuf, hline, hcount, hargs⟩ :=
        parseArray_eq_incomplete rfl h
      · have hle := lineFits_of_none hfit.1 rfl hnone
        omega
      · -- some arguments have arrived, and a part of the next one
        obtain ⟨k, hk, args, left, htimes, hleft⟩ := Decoder.times_eq_incomplete_iff.mp hargs
        have hfits := hfit.2 text rest count hbuf hline hcount
        have htext : text.length + 1 ≤ limit := lineFits_of_line (hbuf ▸ hfit.1) hline
        have hrest := length_le_of_times (fun j hj => hfits j (hj.trans hk)) htimes
        have hpart := length_lt_of_incomplete (hfits k hk args left htimes) hleft
        have hmul : (k + 1) * argumentBound limit ≤ kMaxArrayLength * argumentBound limit :=
          Nat.mul_le_mul_right _ (hk.trans_le (le_of_parseLength hcount))
        rw [Nat.succ_mul] at hmul
        rw [hbuf]
        simp only [List.length_append, List.length_cons]
        omega
    · refine le_trans ?_ (le_max_left _ _)
      rw [parseRequest, if_pos hc, parseInline] at h
      split at h
      · split_ifs at h with hlong
        exact not_lt.mp hlong
      · cases h

/-! ### The lines are bounded if what waits is -/

theorem parseRequest_of_none (hhead : buf.head? = some 42) (hnone : findCrlf buf = none) :
    parseRequest buf = .incomplete := by
  rw [parseRequest_of_head hhead, parseArray, Decoder.parse_bind_eq_incomplete]
  exact Or.inl (readLine_eq_incomplete.mpr hnone)

theorem parseArgument_of_none (hhead : buf.head? = some 36) (hnone : findCrlf buf = none) :
    parseArgument.parse buf = .incomplete := by
  cases buf with
  | nil => cases hhead
  | cons c buf =>
    obtain rfl : c = 36 := Option.some.inj hhead
    rw [parseArgument, Decoder.parse_bind_ok (Decoder.parse_peek_cons _ _), if_neg (by decide),
      Decoder.parse_bind_eq_incomplete]
    exact Or.inl (readLine_eq_incomplete.mpr hnone)

/-- The parser waits for the end of a line, so that the line is in the buffer as far as it goes. -/
theorem headersFit_of_bounded {B : ℕ}
    (h : ∀ part, part <+: buf → B < part.length → parseRequest part ≠ .incomplete) :
    HeadersFit B buf := by
  constructor
  · intro hhead
    by_contra hlong
    obtain ⟨hnone, hle⟩ := findCrlf_take_line buf
    refine h (buf.take _) (List.take_prefix _ _) ?_ (parseRequest_of_none ?_ hnone)
    · rw [List.length_take, min_eq_left hle]
      omega
    · rw [List.head?_take, if_neg (by omega), hhead]
  · rintro text rest count rfl hline hcount k hk args left htimes hhead
    by_contra hlong
    obtain ⟨hnone, hle⟩ := findCrlf_take_line left
    obtain ⟨w, rfl, hw⟩ := delimited_parseArgument.times k htimes
    -- the request up to the end of the line, without its line break
    let part := left.take ((findCrlf left).getD left.length)
    have hpart : part.head? = some 36 := by rw [List.head?_take, if_neg (by omega), hhead]
    refine h (42 :: text ++ 13 :: 10 :: (w ++ part)) ?_ ?_ ?_
    · have hprefix : w ++ part <+: w ++ left :=
        (List.prefix_append_right_inj w).mpr (List.take_prefix _ _)
      simpa using hprefix
    · simp only [List.length_append, List.length_cons, part, List.length_take, min_eq_left hle]
      omega
    · rw [parseRequest_of_head rfl, parse_array_line hline, hcount]
      exact Decoder.times_eq_incomplete_iff.mpr
        ⟨k, hk, args, part, hw.parse_append part, parseArgument_of_none hpart hnone⟩

/-- **The parser waits for the end of a count however long it gets**: there is no bound on what a
client can have buffered. -/
theorem header_never_refused :
    ¬∃ B, ∀ buf : Bytes, B < buf.length → parseRequest buf ≠ .incomplete := by
  rintro ⟨B, hB⟩
  have hnone : findCrlf (42 :: List.replicate B 49) = none :=
    findCrlf_eq_none (by simp)
  exact hB (42 :: List.replicate B 49) (by simp) (parseRequest_of_none rfl hnone)

/-- **What waits for more is bounded exactly if the lines with counts and lengths are**, for every
set of streams that may be cut anywhere; and the bound follows from that on the lines. -/
theorem pending_bounded_iff {P : Set Bytes} (hP : ∀ buf ∈ P, ∀ part, part <+: buf → part ∈ P) :
    ((∃ B, ∀ buf ∈ P, B < buf.length → parseRequest buf ≠ .incomplete) ↔
      ∃ limit, ∀ buf ∈ P, HeadersFit limit buf) ∧
    ∀ limit, (∀ buf ∈ P, HeadersFit limit buf) → ∀ buf ∈ P, pendingBound limit < buf.length →
      parseRequest buf ≠ .incomplete := by
  have hbound (limit : ℕ) (hfit : ∀ buf ∈ P, HeadersFit limit buf) (buf : Bytes) (hbuf : buf ∈ P)
      (hlong : pendingBound limit < buf.length) : parseRequest buf ≠ .incomplete := fun h =>
    absurd (length_le_pendingBound (hfit buf hbuf) h) (not_le.mpr hlong)
  refine ⟨⟨?_, ?_⟩, hbound⟩
  · rintro ⟨B, hB⟩
    exact ⟨B, fun buf hbuf => headersFit_of_bounded fun part hpart => hB part (hP buf hbuf part hpart)⟩
  · rintro ⟨limit, hfit⟩
    exact ⟨pendingBound limit, hbound limit hfit⟩

theorem length_appendBulk_le {arg : Bytes} (h : arg.length ≤ kMaxBulkLength) :
    (appendBulk arg).length ≤ kMaxBulkLength + 13 := by
  have hlimit : kMaxBulkLength < 10 ^ 8 := by decide
  have hdigits : (decimal arg.length).length ≤ 8 := length_decimal_le (by decide) (by omega)
  have happend := congrArg List.length (appendBulk_append arg [])
  simp only [List.length_append, List.length_cons, List.length_nil] at happend
  omega

theorem length_command_le {args : List Bytes} (h : WithinLimits args) :
    (command args).length ≤ kMaxArrayLength * (kMaxBulkLength + 13) + 10 := by
  have hlimit : kMaxArrayLength < 10 ^ 7 := by decide
  have hdigits : (decimal args.length).length ≤ 7 :=
    length_decimal_le (by decide) (by have := h.1; omega)
  have hbulks : ((args.map appendBulk).flatten).length ≤ args.length * (kMaxBulkLength + 13) := by
    have hsum := List.sum_le_card_nsmul ((args.map appendBulk).map List.length)
      (kMaxBulkLength + 13) (by simpa using fun arg harg => length_appendBulk_le (h.2 arg harg))
    simpa [List.length_flatten] using hsum
  have hcount := Nat.mul_le_mul_right (kMaxBulkLength + 13) h.1
  have happend := congrArg List.length (command_append args [])
  simp only [List.length_append, List.length_cons, List.length_nil] at happend
  omega

/-- Streams of requests that are within the limits, cut anywhere. -/
def requestStreams : Set Bytes :=
  {buf | ∃ argss : List (List Bytes), (∀ args ∈ argss, WithinLimits args) ∧
    buf <+: (argss.map command).flatten}

theorem pending_bounded_iff_requestStreams :
    (∃ B, ∀ buf ∈ requestStreams, B < buf.length → parseRequest buf ≠ .incomplete) ∧
      ∃ limit, ∀ buf ∈ requestStreams, HeadersFit limit buf := by
  have hcut : ∀ buf ∈ requestStreams, ∀ part, part <+: buf → part ∈ requestStreams := by
    rintro buf ⟨argss, hargss, hbuf⟩ part hpart
    exact ⟨argss, hargss, hpart.trans hbuf⟩
  have hbound : ∃ B, ∀ buf ∈ requestStreams, B < buf.length → parseRequest buf ≠ .incomplete := by
    refine ⟨kMaxArrayLength * (kMaxBulkLength + 13) + 10, ?_⟩
    rintro buf ⟨argss, hargss, hbuf⟩ hlong
    cases argss with
    | nil => simp [List.prefix_nil.mp hbuf] at hlong
    | cons args argss =>
      -- the first request is all there
      have hargs := hargss args List.mem_cons_self
      have hwhole : command args <+: buf :=
        List.prefix_of_prefix_length_le (List.prefix_append _ _) hbuf
          ((length_command_le hargs).trans hlong.le)
      obtain ⟨rest, rfl⟩ := hwhole
      obtain ⟨-, hok⟩ | ⟨hnot, -⟩ := parseRequest_command args rest
      · simp [hok]
      · exact absurd hargs hnot
  exact ⟨hbound, (pending_bounded_iff hcut).1.mp hbound⟩

/-! ## Inline lines in pieces -/

/-- `parse_request`, tried on the whole buffer after each chunk that arrives, until it decides. -/
def retry (buf : Bytes) : List Bytes → Parsed UInt8 Bytes (List Bytes)
  | [] => .incomplete
  | chunk :: chunks =>
    match parseRequest (buf ++ chunk) with
    | .incomplete => retry (buf ++ chunk) chunks
    | decided => decided

/-- The verdict on an inline line: one that is at most `kMaxInlineLength` bytes long is accepted, and
a longer one is refused. -/
def KeepsLimit (line : Bytes) (verdict : Parsed UInt8 Bytes (List Bytes)) : Prop :=
  if line.length ≤ kMaxInlineLength then ∃ args, verdict = .ok args []
  else ∃ e, verdict = .error e

/-- At some moment, more than `kMaxInlineLength` bytes of the line are in the buffer, but not its
end. -/
def Outgrows (line buf : Bytes) (chunks : List Bytes) : Prop :=
  ∃ k, kMaxInlineLength < (buf ++ (chunks.take k).flatten).length ∧
    (buf ++ (chunks.take k).flatten).length ≤ line.length

section Inline

variable {line part chunk : Bytes} {chunks : List Bytes}

/-- Before its end has arrived, a line is refused once it is too long. -/
theorem parseRequest_part (hhead : line.head? ≠ some 42) (hline : (10 : UInt8) ∉ line)
    (hpart : part <+: line) :
    parseRequest part =
      if part.length ≤ kMaxInlineLength then .incomplete
      else .error (ascii "Protocol error: too big inline request") := by
  cases part with
  | nil => simp [parseRequest]
  | cons c part =>
    have hc : c ≠ 42 := by
      rintro rfl
      obtain ⟨tail, rfl⟩ := hpart
      exact hhead rfl
    have hidx : (c :: part).idxOf? 10 = none :=
      List.idxOf?_eq_none_iff.mpr fun hmem => hline (hpart.subset hmem)
    rw [parseRequest, if_pos hc, parseInline, hidx]
    by_cases hlong : (c :: part).length ≤ kMaxInlineLength
    · rw [if_pos hlong]
      exact if_neg (not_lt.mpr hlong)
    · rw [if_neg hlong]
      exact if_pos (not_le.mp hlong)

/-- When its end arrives, a line is accepted. -/
theorem parseRequest_line (hhead : line.head? ≠ some 42) (hline : (10 : UInt8) ∉ line) :
    parseRequest (line ++ [10]) =
      .ok (((if line.getLast? = some 13 then line.dropLast else line).splitOnP isBlank).filter
        (· ≠ [])) [] := by
  have hidx : (line ++ [10]).idxOf? 10 = some line.length := by
    have hnone : line.idxOf? 10 = none := List.idxOf?_eq_none_iff.mpr hline
    rw [List.idxOf?] at hnone ⊢
    simp [List.findIdx?_append, hnone]
  have hparse : parseRequest (line ++ [10]) = parseInline (line ++ [10]) := by
    cases line with
    | nil => rfl
    | cons c line =>
      have hc : c ≠ 42 := fun h => hhead (congrArg some h)
      rw [List.cons_append, parseRequest, if_pos hc]
  rw [hparse, parseInline, hidx]
  simp only [List.take_left]
  rw [List.drop_eq_nil_of_le (by simp)]

theorem outgrows_cons {buf : Bytes} (hshort : buf.length ≤ kMaxInlineLength) :
    Outgrows line buf (chunk :: chunks) ↔ Outgrows line (buf ++ chunk) chunks := by
  constructor
  · rintro ⟨k, hlong, hle⟩
    cases k with
    | zero =>
      simp at hlong
      omega
    | succ k => exact ⟨k, by simpa using hlong, by simpa using hle⟩
  · rintro ⟨k, hlong, hle⟩
    exact ⟨k + 1, by simpa using hlong, by simpa using hle⟩

/-- **The verdict on an inline line**: it is refused if too much of it arrives before its end, and
accepted if not. -/
theorem retry_inline {buf : Bytes} (hhead : line.head? ≠ some 42) (hline : (10 : UInt8) ∉ line)
    (hbuf : buf <+: line) (hshort : buf.length ≤ kMaxInlineLength)
    (hchunks : buf ++ chunks.flatten = line ++ [10]) :
    (Outgrows line buf chunks → ∃ e, retry buf chunks = .error e) ∧
      (¬Outgrows line buf chunks → ∃ args, retry buf chunks = .ok args []) := by
  -- Induction on the chunks: up to the last byte of the line the parser waits or refuses it.
  induction chunks generalizing buf with
  | nil =>
    have hlen := congrArg List.length hchunks
    have hle := hbuf.length_le
    simp at hlen
    omega
  | cons chunk chunks ih =>
    rw [outgrows_cons hshort]
    rw [List.flatten_cons, ← List.append_assoc] at hchunks
    have hpart : buf ++ chunk <+: line ++ [10] := ⟨_, hchunks⟩
    rcases List.prefix_concat_iff.mp hpart with hwhole | hpart
    · -- the end of the line has arrived, and nothing can follow it
      have hparse := parseRequest_line hhead hline
      rw [hwhole]
      simp only [retry, hwhole, hparse]
      refine ⟨?_, fun _ => ⟨_, rfl⟩⟩
      rintro ⟨k, -, hle⟩
      simp at hle
    · have hparse := parseRequest_part hhead hline hpart
      split_ifs at hparse with hfits
      · simp only [retry, hparse]
        exact ih hpart hfits hchunks
      · simp only [retry, hparse]
        refine ⟨fun _ => ⟨_, rfl⟩, fun hnot => absurd ⟨0, ?_, ?_⟩ hnot⟩
        · simpa using hfits
        · simpa using hpart.length_le

/-- **The limit on inline lines is kept** exactly for the pieces with which the line is short, or too
much of it arrives before its end. -/
theorem inline_limit_iff (hhead : line.head? ≠ some 42) (hline : (10 : UInt8) ∉ line)
    (hchunks : chunks.flatten = line ++ [10]) :
    KeepsLimit line (retry [] chunks) ↔
      line.length ≤ kMaxInlineLength ∨ Outgrows line [] chunks := by
  obtain ⟨herror, hok⟩ := retry_inline hhead hline List.nil_prefix (Nat.zero_le _) hchunks
  unfold KeepsLimit
  split_ifs with hshort
  · -- a short line does not outgrow the limit
    refine ⟨fun _ => Or.inl hshort, fun _ => hok ?_⟩
    rintro ⟨k, hlong, hle⟩
    omega
  · constructor
    · rintro ⟨e, he⟩
      right
      by_contra hnot
      obtain ⟨args, hargs⟩ := hok hnot
      rw [he] at hargs
      cases hargs
    · rintro (hle | hgrows)
      · exact absurd hle hshort
      · exact herror hgrows

/-- A short line in two pieces. -/
theorem inline_limit_iff_ping :
    KeepsLimit (ascii "PING") (retry [] [ascii "PI", ascii "NG\n"]) :=
  (inline_limit_iff (by decide) (by decide) (by decide)).mpr
    (Or.inl (by decide))

end Inline

/-- **A line that is too long is accepted** if its last byte arrives together with its end: four
chunks of 16 KB are exactly the limit, and the fifth one brings the rest. -/
theorem long_line_accepted :
    ¬KeepsLimit (List.replicate (kMaxInlineLength + 1) 97)
      (retry [] (List.replicate 4 (List.replicate (kMaxInlineLength / 4) 97) ++ [[97, 10]])) := by
  have hfour : 4 * (kMaxInlineLength / 4) = kMaxInlineLength := by decide
  generalize kMaxInlineLength / 4 = quarter at hfour ⊢
  have hchunks : [] ++ (List.replicate 4 (List.replicate quarter (97 : UInt8)) ++ [[97, 10]]).flatten =
      List.replicate (kMaxInlineLength + 1) 97 ++ [10] := by
    rw [List.nil_append, List.flatten_append, List.flatten_replicate_replicate, hfour,
      List.replicate_succ']
    simp
  have hgrows : ¬Outgrows (List.replicate (kMaxInlineLength + 1) 97) []
      (List.replicate 4 (List.replicate quarter 97) ++ [[97, 10]]) := by
    -- up to four chunks are within the limit, and the fifth one brings the end
    rintro ⟨k, hlong, hle⟩
    by_cases hk : k ≤ 4
    · have hsum : (((List.replicate 4 (List.replicate quarter (97 : UInt8)) ++ [[97, 10]]).take
          k).flatten).length = k * quarter := by
        rw [List.take_append_of_le_length (by simpa using hk), List.take_replicate,
          min_eq_left hk, List.flatten_replicate_replicate, List.length_replicate]
      have hmul : k * quarter ≤ 4 * quarter := Nat.mul_le_mul_right quarter hk
      rw [List.nil_append, hsum] at hlong
      omega
    · rw [List.take_of_length_le (by simp; omega), hchunks] at hle
      simp at hle
  have hhead : (List.replicate (kMaxInlineLength + 1) (97 : UInt8)).head? ≠ some 42 := by
    simp [List.replicate_succ]
  obtain ⟨args, hok⟩ :=
    (retry_inline hhead (by simp) List.nil_prefix (Nat.zero_le _) hchunks).2 hgrows
  rw [KeepsLimit, if_neg (by simp), hok]
  rintro ⟨e, he⟩
  cases he

end ShardCache
