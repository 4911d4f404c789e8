import ShardCache.Protocol.Resp

/-!
# Replies as trees and as bytes

A reply is a tree: arrays of values, down to strings, numbers and nulls. Written with the encoders it
is read back by `parse_reply`, whatever pieces it arrives in. In the other direction, `parse_reply`
accepts more than the values of RESP2: it skips the two bytes behind the data of a bulk string
without looking at them.

## Main definitions

* `RespValue.encode`, `RespValue.Encodable`: the bytes of a tree, and the trees that are read back
* `IsValue closed w`: `w` is one value of RESP2, with `closed` what follows the data of a bulk string
* `WellFormed`: the values of RESP2
* `Unclosed buf`: the buffer starts with a value, and its first bulk string that is not closed by a
  line break is at hand

## Main results

* `reply_round_trip`: a tree is read back, and the pieces in which it arrives do not matter
* `unclosed_bulk_accepted`: a bulk string without its line break that is accepted
* `accepted_wellFormed_iff`: what is accepted is well-formed if no bulk string is unclosed
-/

namespace ShardCache

open Foundations Resp

/-! ## Trees -/

namespace RespValue

mutual

/-- A value, written with the `append_` functions. -/
def encode : RespValue → Bytes
  | .simpleString str => appendSimple str
  | .error str => appendError str
  | .integer n => appendInteger n
  | .bulkString str => appendBulk str
  | .null => appendNull
  | .array elements => appendArrayHeader elements.length ++ encodeAll elements

/-- Values, one after the other. -/
def encodeAll : List RespValue → Bytes
  | [] => []
  | v :: vs => encode v ++ encodeAll vs

end

theorem encodeAll_eq (vs : List RespValue) : encodeAll vs = (vs.map encode).flatten := by
  induction vs with
  | nil => rfl
  | cons v vs ih => rw [encodeAll, ih, List.map_cons, List.flatten_cons]

/-- The strings that are sent as a line have no line break, and counts and lengths are within the
limits. -/
inductive Encodable : RespValue → Prop where
  | simpleString {str : Bytes} (h : findCrlf str = none) : Encodable (.simpleString str)
  | error {str : Bytes} (h : findCrlf str = none) : Encodable (.error str)
  | integer (n : Int64) : Encodable (.integer n)
  | bulkString {str : Bytes} (h : str.length ≤ kMaxBulkLength) : Encodable (.bulkString str)
  | null : Encodable .null
  | array {elements : List RespValue} (hlen : elements.length ≤ kMaxArrayLength)
      (h : ∀ v ∈ elements, Encodable v) : Encodable (.array elements)

/-- A tree that was written is read back. -/
theorem Encodable.whole {v : RespValue} (h : v.Encodable) : parseReply.Whole v v.encode := by
  induction h with
  | simpleString h => exact whole_appendSimple h
  | error h => exact whole_appendError h
  | integer n => exact whole_appendInteger n
  | @bulkString str h =>
    have hparse := parse_appendBulk str []
    rw [List.append_nil, if_pos h] at hparse
    exact hparse
  | null => exact whole_appendNull
  | @array elements hlen _ ih =>
    -- the elements are whole by induction, and are taken one by one
    have hforall : List.Forall₂ parseReply.Whole elements (elements.map encode) := by
      rw [List.forall₂_map_right_iff, List.forall₂_same]
      exact ih
    have htimes : (parseReply.times elements.length).parse (elements.map encode).flatten =
        .ok elements [] := by
      have htakes := Decoder.takes_flatten hforall []
      rw [List.append_nil] at htakes
      exact Decoder.times_eq_ok_iff.mpr ⟨rfl, htakes⟩
    rw [Decoder.Whole, encode, encodeAll_eq, parse_appendArrayHeader, if_pos hlen,
      Decoder.parse_bind_ok htimes]
    rfl

end RespValue

/-- **Replies are read back**: a tree is read whatever follows it, and exactly its bytes are taken; a
part of it is not enough; and what `parse_reply` has decided it decides again when more arrives. -/
theorem reply_round_trip :
    (∀ v : RespValue, v.Encodable →
      (∀ more, parseReply.parse (v.encode ++ more) = .ok v more) ∧
        ∀ part, part <+: v.encode → part ≠ v.encode → parseReply.parse part = .incomplete) ∧
      ∀ buf more : Bytes,
        (∀ v rest, parseReply.parse buf = .ok v rest →
          parseReply.parse (buf ++ more) = .ok v (rest ++ more)) ∧
        (parseReply.parse buf = .error () → parseReply.parse (buf ++ more) = .error ()) := by
  refine ⟨?_, ?_⟩
  · intro v hv
    refine ⟨hv.whole.parse_append, ?_⟩
    rintro part ⟨more, hencode⟩ hne
    have hmore : more ≠ [] := by
      rintro rfl
      exact hne (by simpa using hencode)
    exact hv.whole.incomplete hencode.symm hmore
  · intro buf more
    exact ⟨fun v rest h => parseReply.ok_append more h, fun h => parseReply.error_append more h⟩

/-- A null inside two arrays, followed by another reply. -/
theorem reply_round_trip_nested :
    parseReply.parse ((RespValue.array [.array [.null], .integer (-1)]).encode ++ [43]) =
      .ok (.array [.array [.null], .integer (-1)]) [43] := by
  have hinner : (RespValue.array [.null]).Encodable :=
    .array (by decide) (by simpa using RespValue.Encodable.null)
  have houter : (RespValue.array [.array [.null], .integer (-1)]).Encodable :=
    .array (by decide) (by simpa using ⟨hinner, RespValue.Encodable.integer (-1)⟩)
  exact (reply_round_trip.1 _ houter).1 [43]

/-! ## Values of RESP2 -/

/-- `w` is one value: a line, a bulk string whose data has the declared length and is followed by
bytes with `closed`, a null, or an array of the declared number of values. -/
inductive IsValue (closed : Bytes → Prop) : Bytes → Prop where
  | simpleString {text : Bytes} (h : findCrlf text = none) : IsValue closed (43 :: text ++ [13, 10])
  | error {text : Bytes} (h : findCrlf text = none) : IsValue closed (45 :: text ++ [13, 10])
  | integer {text : Bytes} {n : Int64} (h : parseInt text = some n) :
      IsValue closed (58 :: text ++ [13, 10])
  | bulkString {text data close : Bytes} {len : Int64} (h : parseInt text = some len)
      (hlen : len.toInt = data.length) (hclose : closed close) :
      IsValue closed (36 :: text ++ 13 :: 10 :: (data ++ close))
  | null {type : UInt8} {text : Bytes} (htype : type = 36 ∨ type = 42)
      (h : parseInt text = some (-1)) : IsValue closed (type :: text ++ [13, 10])
  | array {text : Bytes} {count : Int64} {ws : List Bytes} (h : parseInt text = some count)
      (hcount : count.toInt = ws.length) (hws : ∀ w ∈ ws, IsValue closed w) :
      IsValue closed (42 :: text ++ 13 :: 10 :: ws.flatten)

/-- A value of RESP2: the data of a bulk string is followed by a line break. Numbers are those that
`parse_int` reads, with leading zeros. -/
def WellFormed : Bytes → Prop := IsValue fun close => close = [13, 10]

/-- The buffer starts with a bulk string whose data is not followed by a line break, or with an array
that has such a value after well-formed ones. -/
inductive Unclosed : Bytes → Prop where
  | here {text data close more : Bytes} {len : Int64} (h : parseInt text = some len)
      (hlen : len.toInt = data.length) (hclose : close.length = 2) (hne : close ≠ [13, 10]) :
      Unclosed (36 :: text ++ 13 :: 10 :: (data ++ close ++ more))
  | inside {text tail : Bytes} {count : Int64} {ws : List Bytes} (h : parseInt text = some count)
      (hcount : (ws.length : ℤ) < count.toInt) (hws : ∀ w ∈ ws, WellFormed w)
      (htail : Unclosed tail) : Unclosed (42 :: text ++ 13 :: 10 :: (ws.flatten ++ tail))

/-! ### What is accepted -/

/-- What follows the first line of a value is read as the type byte says. -/
theorem isValue_of_parseReplyLine {type : UInt8} {text body rest : Bytes} {v : RespValue}
    (hline : findCrlf (type :: text) = none)
    (helement : ∀ part v left, part.length ≤ body.length → parseReply.parse part = .ok v left →
      ∃ w, part = w ++ left ∧ IsValue (fun close => close.length = 2) w)
    (h : (parseReplyLine parseReply type text).parse body = .ok v rest) :
    ∃ w, type :: text ++ 13 :: 10 :: body = w ++ rest ∧
      IsValue (fun close => close.length = 2) w := by
  have htext (hne : type ≠ 13) : findCrlf text = none := by
    rwa [findCrlf_cons hne, Option.map_eq_none_iff] at hline
  unfold parseReplyLine at h
  split_ifs at h with hsimple herror hinteger hbulk harray
  · subst hsimple
    cases h
    exact ⟨43 :: text ++ [13, 10], by simp, .simpleString (htext (by decide))⟩
  · subst herror
    cases h
    exact ⟨45 :: text ++ [13, 10], by simp, .error (htext (by decide))⟩
  · subst hinteger
    split at h
    · cases h
    next n hn =>
      cases h
      exact ⟨58 :: text ++ [13, 10], by simp, .integer hn⟩
  · subst hbulk
    obtain ⟨hnull, rfl⟩ | ⟨len, n, hlen, hn, h⟩ := parseReplyLength_eq_ok h
    · exact ⟨36 :: text ++ [13, 10], by simp, .null (Or.inl rfl) hnull⟩
    · -- the data and the two bytes behind it are taken at once
      obtain ⟨taken, left, htake, h⟩ := Decoder.parse_bind_eq_ok.mp h
      cases h
      simp only [Decoder.take] at htake
      split_ifs at htake with hshort
      cases htake
      refine ⟨36 :: text ++ 13 :: 10 :: (body.take n ++ (body.drop n).take 2), ?_,
        .bulkString hlen ?_ ?_⟩
      · simp
      · rw [hn, List.length_take]
        omega
      · simp
        omega
  · subst harray
    obtain ⟨hnull, rfl⟩ | ⟨count, n, hcount, hn, h⟩ := parseReplyLength_eq_ok h
    · exact ⟨42 :: text ++ [13, 10], by simp, .null (Or.inr rfl) hnull⟩
    · obtain ⟨vs, left, htimes, h⟩ := Decoder.parse_bind_eq_ok.mp h
      cases h
      obtain ⟨hlen, htakes⟩ := Decoder.times_eq_ok_iff.mp htimes
      obtain ⟨ws, hws, rfl, hvalues⟩ := htakes.exists_pieces helement
      refine ⟨42 :: text ++ 13 :: 10 :: ws.flatten, by simp, .array hcount ?_ hvalues⟩
      rw [hn, hws, hlen]
  · cases h

/-- **`parse_reply` accepts values**, up to the two bytes behind the data of bulk strings. -/
theorem isValue_of_parseReply {buf rest : Bytes} {v : RespValue}
    (h : parseReply.parse buf = .ok v rest) :
    ∃ w, buf = w ++ rest ∧ IsValue (fun close => close.length = 2) w := by
  -- Induction on the length of the buffer: the elements of an array are read from less of it.
  induction hn : buf.length using Nat.strong_induction_on generalizing buf rest v with
  | h n ih =>
    subst hn
    rw [parseReply_eq] at h
    obtain ⟨line, body, hline, hbody⟩ := Decoder.parse_bind_eq_ok.mp h
    obtain ⟨hnone, rfl⟩ := readLine_eq_ok hline
    cases line with
    | nil => cases hbody
    | cons type text =>
      refine isValue_of_parseReplyLine hnone (fun part v left hle hpart => ?_) hbody
      exact ih part.length (by simp; omega) hpart rfl

/-! ### Where a value ends -/

section Ends

variable {closed : Bytes → Prop} {type : UInt8} {text body tail w rest : Bytes}

theorem line_inj {line line' : Bytes} (hline : findCrlf line = none) (hline' : findCrlf line' = none)
    (h : line ++ 13 :: 10 :: body = line' ++ 13 :: 10 :: tail) : line = line' ∧ body = tail := by
  have hlen : line.length = line'.length := by
    have hfind := findCrlf_line hline body
    rw [h, findCrlf_line hline' tail] at hfind
    exact (Option.some.inj hfind).symm
  obtain ⟨heq, hrest⟩ := List.append_inj h hlen
  exact ⟨heq, (List.cons.inj (List.cons.inj hrest).2).2⟩

theorem findCrlf_number {n : Int64} (htype : type ≠ 13) (h : parseInt text = some n) :
    findCrlf (type :: text) = none := by
  rw [findCrlf_cons htype, findCrlf_eq_none (not_mem_of_parseInt h), Option.map_none]

theorem toInt_of_null {len : Int64} (hnull : parseInt text = some (-1))
    (hlen : parseInt text = some len) : len.toInt = -1 := by
  obtain rfl : -1 = len := Option.some.inj (hnull.symm.trans hlen)
  rfl

/-- What follows the first line `type :: text` of a value. -/
inductive IsBody (closed : Bytes → Prop) (text : Bytes) : UInt8 → Bytes → Prop where
  | line {type : UInt8} (htype : type = 43 ∨ type = 45 ∨ type = 58) : IsBody closed text type []
  | bulkString {data close : Bytes} {len : Int64} (h : parseInt text = some len)
      (hlen : len.toInt = data.length) (hclose : closed close) :
      IsBody closed text 36 (data ++ close)
  | null {type : UInt8} (htype : type = 36 ∨ type = 42) (h : parseInt text = some (-1)) :
      IsBody closed text type []
  | array {count : Int64} {ws : List Bytes} (h : parseInt text = some count)
      (hcount : count.toInt = ws.length) (hws : ∀ w ∈ ws, IsValue closed w) :
      IsBody closed text 42 ws.flatten

theorem IsValue.exists_body (h : IsValue closed w) :
    ∃ type text body, findCrlf (type :: text) = none ∧ w = type :: text ++ 13 :: 10 :: body ∧
      IsBody closed text type body := by
  cases h with
  | simpleString h =>
    exact ⟨_, _, _, by rw [findCrlf_cons (by decide), h, Option.map_none], rfl,
      .line (Or.inl rfl)⟩
  | error h =>
    exact ⟨_, _, _, by rw [findCrlf_cons (by decide), h, Option.map_none], rfl,
      .line (Or.inr (Or.inl rfl))⟩
  | integer h => exact ⟨_, _, _, findCrlf_number (by decide) h, rfl, .line (Or.inr (Or.inr rfl))⟩
  | bulkString h hlen hclose =>
    exact ⟨_, _, _, findCrlf_number (by decide) h, rfl, .bulkString h hlen hclose⟩
  | null htype h =>
    refine ⟨_, _, _, findCrlf_number ?_ h, rfl, .null htype h⟩
    rcases htype with rfl | rfl
    · decide
    · decide
  | array h hcount hws => exact ⟨_, _, _, findCrlf_number (by decide) h, rfl, .array h hcount hws⟩

/-- A buffer and the value at its front have the same first line. -/
theorem IsValue.body_of_line (h : IsValue closed w) (hline : findCrlf (type :: text) = none)
    (hbuf : type :: text ++ 13 :: 10 :: tail = w ++ rest) :
    ∃ body, w = type :: text ++ 13 :: 10 :: body ∧ tail = body ++ rest ∧
      IsBody closed text type body := by
  obtain ⟨type', text', body, hline', rfl, hbody⟩ := h.exists_body
  rw [List.append_assoc, List.cons_append, List.cons_append] at hbuf
  obtain ⟨heq, htail⟩ := line_inj hline hline' hbuf
  cases heq
  exact ⟨body, rfl, htail, hbody⟩

/-- Values at the front of a buffer are the first of any longer list of values there. -/
theorem exists_append_of_flatten {ws ws' : List Bytes}
    (hends : ∀ w ∈ ws, ∀ w' rest rest', WellFormed w' → w ++ rest = w' ++ rest' → w = w')
    (hws' : ∀ w ∈ ws', WellFormed w) (hlen : ws.length ≤ ws'.length)
    (h : ws.flatten ++ tail = ws'.flatten ++ rest) :
    ∃ more, ws' = ws ++ more ∧ tail = more.flatten ++ rest := by
  induction ws generalizing ws' with
  | nil => exact ⟨ws', rfl, h⟩
  | cons w ws ih =>
    cases ws' with
    | nil => simp at hlen
    | cons w' ws' =>
      simp only [List.flatten_cons, List.append_assoc] at h
      obtain rfl : w = w' :=
        hends w List.mem_cons_self w' _ _ (hws' w' List.mem_cons_self) h
      obtain ⟨more, rfl, htail⟩ := ih (fun v hv => hends v (List.mem_cons_of_mem w hv))
        (fun v hv => hws' v (List.mem_cons_of_mem w hv)) (by simpa using hlen)
        (List.append_cancel_left h)
      exact ⟨more, rfl, htail⟩

/-- Two values with one first line end at the same place, if the elements of an array do. -/
theorem IsBody.eq_of_append {body' rest' : Bytes}
    (h : IsBody (fun close => close = [13, 10]) text type body)
    (h' : IsBody (fun close => close = [13, 10]) text type body')
    (hends : ∀ w w' rest rest', w.length ≤ body.length → WellFormed w → WellFormed w' →
      w ++ rest = w' ++ rest' → w = w')
    (heq : body ++ rest = body' ++ rest') : body = body' := by
  cases h with
  | line htype =>
    cases h' with
    | line => rfl
    | null => rfl
    | bulkString => exact absurd htype (by decide)
    | array => exact absurd htype (by decide)
  | null htype hnull =>
    cases h' with
    | line => rfl
    | null => rfl
    | bulkString hlen hn => exact absurd (toInt_of_null hnull hlen) (by omega)
    | array hlen hn => exact absurd (toInt_of_null hnull hlen) (by omega)
  | @bulkString data close len hlen hn hclose =>
    cases h' with
    | line htype => exact absurd htype (by decide)
    | null _ hnull => exact absurd (toInt_of_null hnull hlen) (by omega)
    | @bulkString data' close' len' hlen' hn' hclose' =>
      -- the declared length is that of both, and both are closed by a line break
      obtain rfl : len = len' := Option.some.inj (hlen.symm.trans hlen')
      subst hclose hclose'
      exact (List.append_inj heq (by simp; omega)).1
  | @array count ws hcount hn hws =>
    cases h' with
    | line htype => exact absurd htype (by decide)
    | null _ hnull => exact absurd (toInt_of_null hnull hcount) (by omega)
    | @array count' ws' hcount' hn' hws' =>
      obtain rfl : count = count' := Option.some.inj (hcount.symm.trans hcount')
      have hlen : ws.length = ws'.length := by omega
      obtain ⟨more, rfl, -⟩ := exists_append_of_flatten (fun w hw w' rest rest' =>
        hends w w' rest rest' (List.sublist_flatten_of_mem hw).length_le (hws w hw)) hws' hlen.le heq
      obtain rfl : more = [] := by simpa using hlen
      rw [List.append_nil]

/-- **A well-formed value ends in one place.** -/
theorem WellFormed.eq_of_append {w w' rest rest' : Bytes} (h : WellFormed w) (h' : WellFormed w')
    (heq : w ++ rest = w' ++ rest') : w = w' := by
  -- Induction on the length: the elements of an array are shorter than the array.
  induction hn : w.length using Nat.strong_induction_on generalizing w w' rest rest' with
  | h n ih =>
    subst hn
    obtain ⟨type, text, body, hline, rfl, hbody⟩ := IsValue.exists_body h
    have hbuf : type :: text ++ 13 :: 10 :: (body ++ rest) = w' ++ rest' := by simpa using heq
    obtain ⟨body', rfl, htail, hbody'⟩ := IsValue.body_of_line h' hline hbuf
    rw [hbody.eq_of_append hbody' (fun v v' r r' hle hv hv' hv_eq => ?_) htail]
    exact ih v.length (by simp; omega) hv hv' hv_eq rfl

/-! ### Bulk strings that are not closed -/

/-- A buffer with an unclosed bulk string does not start with a well-formed value. -/
theorem Unclosed.not_wellFormed {buf : Bytes} (h : Unclosed buf) (hbuf : buf = w ++ rest) :
    ¬WellFormed w := by
  intro hw
  induction h generalizing w rest with
  | here hlen hn hclose hne =>
    obtain ⟨body, -, htail, hbody⟩ :=
      IsValue.body_of_line hw (findCrlf_number (by decide) hlen) hbuf
    cases hbody with
    | line htype => exact absurd htype (by decide)
    | null _ hnull => exact absurd (toInt_of_null hnull hlen) (by omega)
    | @bulkString data' _ len' hlen' hn' hclose' =>
      -- the value has as much data, and what follows is its line break
      obtain rfl := Option.some.inj (hlen.symm.trans hlen')
      simp only [List.append_assoc] at htail
      obtain ⟨-, hmore⟩ := List.append_inj htail (by omega)
      rw [hclose'] at hmore
      exact hne (List.append_inj hmore hclose).1
  | inside hcount hlt hws _ ih =>
    obtain ⟨body, -, htail, hbody⟩ :=
      IsValue.body_of_line hw (findCrlf_number (by decide) hcount) hbuf
    cases hbody with
    | line htype => exact absurd htype (by decide)
    | null _ hnull => exact absurd (toInt_of_null hnull hcount) (by omega)
    | array hcount' hn' hws' =>
      obtain rfl := Option.some.inj (hcount.symm.trans hcount')
      -- the array has an element where the unclosed one is
      obtain ⟨more, rfl, hmore⟩ := exists_append_of_flatten
        (fun v hv v' r r' => (hws v hv).eq_of_append) hws' (by omega) htail
      cases more with
      | nil =>
        simp at hn'
        omega
      | cons v more =>
        rw [List.flatten_cons, List.append_assoc] at hmore
        exact ih hmore (hws' v (by simp))

/-- All elements have `P`, or the first that has not has `Q`. -/
theorem forall_or_exists_first {P Q : Bytes → Prop} {ws : List Bytes} (h : ∀ w ∈ ws, P w ∨ Q w) :
    (∀ w ∈ ws, P w) ∨ ∃ front w back, ws = front ++ w :: back ∧ (∀ v ∈ front, P v) ∧ Q w := by
  induction ws with
  | nil => exact Or.inl (by simp)
  | cons w ws ih =>
    obtain ⟨hw, hws⟩ := List.forall_mem_cons.mp h
    rcases hw with hw | hw
    · rcases ih hws with hall | ⟨front, v, back, rfl, hfront, hv⟩
      · exact Or.inl (List.forall_mem_cons.mpr ⟨hw, hall⟩)
      · exact Or.inr ⟨w :: front, v, back, rfl, List.forall_mem_cons.mpr ⟨hw, hfront⟩, hv⟩
    · exact Or.inr ⟨[], w, ws, rfl, by simp, hw⟩

/-- A value that is accepted is well-formed, or has a first bulk string that is not closed. -/
theorem IsValue.wellFormed_or_unclosed (h : IsValue (fun close => close.length = 2) w) :
    WellFormed w ∨ ∀ more, Unclosed (w ++ more) := by
  induction h with
  | simpleString h => exact Or.inl (.simpleString h)
  | error h => exact Or.inl (.error h)
  | integer h => exact Or.inl (.integer h)
  | null htype h => exact Or.inl (.null htype h)
  | @bulkString text data close len h hlen hclose =>
    by_cases hcrlf : close = [13, 10]
    · exact Or.inl (.bulkString h hlen hcrlf)
    · right
      intro more
      have hhere : Unclosed (36 :: text ++ 13 :: 10 :: (data ++ close ++ more)) :=
        .here h hlen hclose hcrlf
      simpa using hhere
  | @array text count ws h hcount _ ih =>
    rcases forall_or_exists_first ih with hall | ⟨front, w, back, rfl, hfront, hw⟩
    · exact Or.inl (.array h hcount hall)
    · right
      intro more
      have hinside : Unclosed (42 :: text ++ 13 :: 10 ::
          (front.flatten ++ (w ++ (back.flatten ++ more)))) := by
        refine .inside h ?_ hfront (hw _)
        rw [hcount, List.length_append, List.length_cons]
        omega
      simpa using hinside

end Ends

/-- **A bulk string without its line break is accepted**: the two bytes behind the data are skipped,
whatever they are. -/
theorem unclosed_bulk_accepted :
    parseReply.parse (ascii "$1\r\nabc") = .ok (.bulkString (ascii "a")) [] ∧
      ¬WellFormed (ascii "$1\r\nabc") := by
  refine ⟨rfl, ?_⟩
  have hlen : parseInt (ascii "1") = some 1 := rfl
  have hunclosed : Unclosed (36 :: ascii "1" ++ 13 :: 10 :: (ascii "a" ++ ascii "bc" ++ [])) :=
    .here hlen rfl rfl (by decide)
  have hbuf : 36 :: ascii "1" ++ 13 :: 10 :: (ascii "a" ++ ascii "bc" ++ []) =
      ascii "$1\r\nabc" ++ [] := rfl
  exact hunclosed.not_wellFormed hbuf

/-- **What `parse_reply` accepts is a well-formed value** exactly if no bulk string in it is followed
by other bytes than a line break. -/
theorem accepted_wellFormed_iff {buf rest : Bytes} {v : RespValue}
    (h : parseReply.parse buf = .ok v rest) :
    (∃ w, buf = w ++ rest ∧ WellFormed w) ↔ ¬Unclosed buf := by
  constructor
  · rintro ⟨w, hbuf, hw⟩ hunclosed
    exact hunclosed.not_wellFormed hbuf hw
  · intro hclosed
    obtain ⟨w, rfl, hw⟩ := isValue_of_parseReply h
    rcases hw.wellFormed_or_unclosed with hw | hw
    · exact ⟨w, rfl, hw⟩
    · exact absurd (hw rest) hclosed

/-- An array of an empty bulk string, which is closed. -/
theorem accepted_wellFormed_iff_emptyBulk :
    parseReply.parse (ascii "*1\r\n$0\r\n\r\n+") = .ok (.array [.bulkString []]) [43] ∧
      ((∃ w, ascii "*1\r\n$0\r\n\r\n+" = w ++ [43] ∧ WellFormed w) ↔
        ¬Unclosed (ascii "*1\r\n$0\r\n\r\n+")) := by
  have hparse : parseReply.parse (ascii "*1\r\n$0\r\n\r\n+") =
      .ok (.array [.bulkString []]) [43] := rfl
  exact ⟨hparse, accepted_wellFormed_iff hparse⟩

end ShardCache
