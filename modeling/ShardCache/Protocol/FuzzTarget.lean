import ShardCache.Protocol.Command
import ShardCache.Protocol.Limits

/-!
# The fuzz target

The request path is fuzzed with a target that aborts when one of its checks fails: a request that is
accepted takes at least one byte, a command that is not understood has the text of an error, and the
arguments of an accepted request, encoded again, are read back with nothing left over; a reply that
is accepted takes at least one byte.

The round trip has a limit. An inline command may have more words than an array may have elements,
and then it is accepted but its encoding is refused. The shortest of these commands has one byte and
one separator for each word, which is how long an input has to be for a check to fail.

## Main definitions

* `FuzzTarget.oneInput`: `LLVMFuzzerTestOneInput`
* `FuzzTarget.oneByteWords`: an inline command with many words

## Main results

* `withinLimits_of_parseArray`, `two_mul_length_of_parseInline`: what the parser accepts
* `FuzzTarget.checkRequest_iff`: the round trip is within the limits of the protocol
* `FuzzTarget.oneInput_iff`: when a check fails
* `FuzzTarget.passes_up_to_iff`: the length up to which no input makes a check fail
-/

namespace ShardCache

open Foundations Resp

namespace FuzzTarget

/-- The checks on the arguments of a request that is not empty. -/
def checkRequest (args : List Bytes) : Bool :=
  let cmd := Parser.parse args
  (cmd.type != .unknown || !cmd.error.isEmpty) && parseRequest (command args) = .ok args []

/-- The loop over the requests of an input. What a request consumed is what is not left of the
input. -/
def checkRequests (input : Bytes) : Bool :=
  match _ : parseRequest input with
  | .ok args rest =>
    rest.length < input.length && (args.isEmpty || checkRequest args) && checkRequests rest
  | .incomplete => true
  | .error _ => true
termination_by input.length
decreasing_by exact parseRequest_length ‹_›

/-- The check on a reply. -/
def checkReply (input : Bytes) : Bool :=
  match parseReply.parse input with
  | .ok _ rest => rest.length < input.length
  | .incomplete => true
  | .error _ => true

/-- `LLVMFuzzerTestOneInput`: false where a check fails, and it aborts. -/
def oneInput (input : Bytes) : Bool := checkRequests input && checkReply input

end FuzzTarget

/-! ## What is accepted -/

variable {buf rest : Bytes} {args : List Bytes}

theorem length_le_of_takes (h : Takes parseArgument.parse buf args rest) :
    ∀ arg ∈ args, arg.length ≤ kMaxBulkLength := by
  induction h with
  | nil => simp
  | cons hhead _ ih =>
    obtain ⟨text, hlen, -, -⟩ := parseArgument_eq_ok hhead
    exact List.forall_mem_cons.mpr ⟨le_of_parseLength hlen, ih⟩

/-- An array that is accepted is within the limits. -/
theorem withinLimits_of_parseArray (h : parseArray.parse buf = .ok args rest) :
    WithinLimits args := by
  obtain ⟨line, mid, -, h⟩ := Decoder.parse_bind_eq_ok.mp h
  split at h
  case h_1 => cases h
  case h_2 count hcount =>
    obtain ⟨rfl, htakes⟩ := Decoder.times_eq_ok_iff.mp h
    exact ⟨le_of_parseLength hcount, length_le_of_takes htakes⟩

theorem sum_length_splitOnP (p : UInt8 → Bool) (l : Bytes) :
    ((l.splitOnP p).map fun w : List UInt8 => w.length + 1).sum = l.length + 1 := by
  induction l with
  | nil => rfl
  | cons x l ih =>
    rw [List.splitOnP_cons_eq_if_modifyHead]
    split
    · simp [ih]
      omega
    · obtain ⟨w, ws, hws⟩ := List.exists_cons_of_ne_nil (List.splitOnP_ne_nil p l)
      simp [hws] at ih ⊢
      omega

theorem two_mul_length_filter_le (ws : List (List UInt8)) :
    2 * (ws.filter (· ≠ [])).length ≤ (ws.map fun w => w.length + 1).sum := by
  induction ws with
  | nil => simp
  | cons w ws ih =>
    cases w with
    | nil => simpa using Nat.le_add_left_of_le ih
    | cons c w =>
      simp at ih ⊢
      omega

/-- The words of an inline command are separated, and none is longer than the line. -/
theorem two_mul_length_of_parseInline (h : parseInline buf = .ok args rest) :
    2 * args.length ≤ buf.length ∧ ∀ arg ∈ args, arg.length ≤ buf.length := by
  unfold parseInline at h
  split at h
  · split at h <;> cases h
  · rename_i eol heol
    have heol := (idxOf?_append_of_some heol []).2
    dsimp only at h
    cases h
    -- the line, without the carriage return at its end
    generalize hline : (if (buf.take eol).getLast? = some 13 then (buf.take eol).dropLast
      else buf.take eol) = line
    have hlen : line.length + 1 ≤ buf.length := by
      subst hline
      split <;> simp <;> omega
    have hsum := sum_length_splitOnP isBlank line
    refine ⟨?_, fun arg harg => ?_⟩
    · exact (two_mul_length_filter_le (line.splitOnP isBlank)).trans (hsum.trans_le hlen)
    · have hmem := List.mem_map_of_mem (f := fun w : List UInt8 => w.length + 1)
        (List.mem_of_mem_filter harg)
      have hle := List.le_sum_of_mem hmem
      omega

/-- A request of few bytes is within the limits if it is accepted. -/
theorem withinLimits_of_length_le (h : parseRequest buf = .ok args rest)
    (hshort : buf.length ≤ 2 * kMaxArrayLength + 1) : WithinLimits args := by
  cases buf with
  | nil => cases h
  | cons c buf =>
    rw [parseRequest] at h
    split at h
    · obtain ⟨hwords, hlong⟩ := two_mul_length_of_parseInline h
      have hlimits : 2 * kMaxArrayLength + 1 ≤ kMaxBulkLength := by decide
      refine ⟨by omega, ?_⟩
      intro arg harg
      have hle := hlong arg harg
      omega
    · exact withinLimits_of_parseArray h

theorem parseReply_length {v : RespValue} (h : parseReply.parse buf = .ok v rest) :
    rest.length < buf.length := by
  rw [parseReply_eq] at h
  obtain ⟨line, mid, hline, hrest⟩ := Decoder.parse_bind_eq_ok.mp h
  have hlt := readLine_length hline
  have hle := (Decoder.suffix _ hrest).length_le
  omega

/-! ## When a check fails -/

namespace FuzzTarget

/-- **The round trip is within the limits of the protocol**, and the other check always passes. -/
theorem checkRequest_iff : checkRequest args = true ↔ WithinLimits args := by
  have herror :
      ((Parser.parse args).type != .unknown || !(Parser.parse args).error.isEmpty) = true := by
    by_cases htype : (Parser.parse args).type = .unknown
    · simp [Parser.error_ne_nil htype]
    · simp [htype]
  have hback : parseRequest (command args) = .ok args [] ↔ WithinLimits args := by
    have hcommand := parseRequest_command args []
    rw [List.append_nil] at hcommand
    obtain ⟨hlimits, hok⟩ | ⟨hlimits, e, he⟩ := hcommand
    · exact iff_of_true hok hlimits
    · exact iff_of_false (by rw [he]; exact nofun) hlimits
  simp only [checkRequest, herror, Bool.true_and, decide_eq_true_iff]
  exact hback

theorem checkReply_eq_true (input : Bytes) : checkReply input = true := by
  unfold checkReply
  split
  case h_1 hparse => exact decide_eq_true (parseReply_length hparse)
  case h_2 => rfl
  case h_3 => rfl

/-- Where the loop ends, no request is taken. -/
theorem withinLimits_of_ne_ok {input : Bytes} (h : ∀ args rest, parseRequest input ≠ .ok args rest)
    (argss : List (List Bytes)) (rest : Bytes) (htakes : Takes parseRequest input argss rest) :
    ∀ args ∈ argss, WithinLimits args := by
  cases htakes with
  | nil => exact nofun
  | cons hhead _ => exact absurd hhead (h _ _)

/-- The requests that the loop checks are those that are taken one after the other. -/
theorem checkRequests_iff (input : Bytes) :
    checkRequests input = true ↔
      ∀ argss rest, Takes parseRequest input argss rest → ∀ args ∈ argss, WithinLimits args := by
  fun_induction checkRequests input with
  | case1 input args rest hparse ih =>
    have hlt : decide (rest.length < input.length) = true :=
      decide_eq_true (parseRequest_length hparse)
    have hcheck : (args.isEmpty || checkRequest args) = true ↔ WithinLimits args := by
      cases args with
      | nil => exact iff_of_true rfl ⟨by decide, nofun⟩
      | cons arg args => exact checkRequest_iff
    rw [hlt, Bool.true_and, Bool.and_eq_true_iff, hcheck, ih]
    constructor
    · rintro ⟨hargs, hrest⟩ argss rest' htakes
      cases htakes with
      | nil => exact nofun
      | cons hhead htail =>
        obtain ⟨rfl, rfl⟩ := Parsed.ok.inj (hparse.symm.trans hhead)
        exact List.forall_mem_cons.mpr ⟨hargs, hrest _ _ htail⟩
    · intro h
      refine ⟨h _ _ (.cons hparse (.nil rest)) args List.mem_cons_self, ?_⟩
      intro argss rest' htakes args' hmem
      exact h _ _ (.cons hparse htakes) args' (List.mem_cons_of_mem args hmem)
  | case2 input hparse => exact iff_of_true rfl (withinLimits_of_ne_ok (by simp [hparse]))
  | case3 input e hparse => exact iff_of_true rfl (withinLimits_of_ne_ok (by simp [hparse]))

/-- **A check fails exactly if a request is accepted that is not within the limits.** -/
theorem oneInput_iff (input : Bytes) :
    oneInput input = true ↔
      ∀ argss rest, Takes parseRequest input argss rest → ∀ args ∈ argss, WithinLimits args := by
  rw [oneInput, checkReply_eq_true, Bool.and_true, checkRequests_iff]

theorem withinLimits_of_takes {input rest : Bytes} {argss : List (List Bytes)}
    (htakes : Takes parseRequest input argss rest)
    (hshort : input.length ≤ 2 * kMaxArrayLength + 1) : ∀ args ∈ argss, WithinLimits args := by
  induction htakes with
  | nil => exact nofun
  | cons hhead _ ih =>
    have hlt := parseRequest_length hhead
    exact List.forall_mem_cons.mpr ⟨withinLimits_of_length_le hhead hshort, ih (by omega)⟩

/-! ## The shortest input on which a check fails -/

/-- The line of an inline command that has `n + 1` words of one byte. -/
def oneByteWords : ℕ → Bytes
  | 0 => [97]
  | n + 1 => 97 :: 32 :: oneByteWords n

theorem length_oneByteWords (n : ℕ) : (oneByteWords n).length = 2 * n + 1 := by
  induction n with
  | zero => rfl
  | succ n ih =>
    simp only [oneByteWords, List.length_cons, ih]
    omega

theorem mem_oneByteWords {n : ℕ} {c : UInt8} (h : c ∈ oneByteWords n) : c = 97 ∨ c = 32 := by
  induction n with
  | zero => exact Or.inl (List.mem_singleton.mp h)
  | succ n ih =>
    rw [oneByteWords, List.mem_cons, List.mem_cons] at h
    obtain rfl | rfl | h := h
    · exact Or.inl rfl
    · exact Or.inr rfl
    · exact ih h

theorem splitOnP_oneByteWords (n : ℕ) :
    (oneByteWords n).splitOnP isBlank = List.replicate (n + 1) [97] := by
  induction n with
  | zero => decide
  | succ n ih =>
    rw [oneByteWords, List.splitOnP_cons_eq_if_modifyHead, if_neg (by decide),
      List.splitOnP_cons_eq_if_modifyHead, if_pos (by decide), ih]
    rfl

theorem parseRequest_oneByteWords (n : ℕ) :
    parseRequest (oneByteWords n ++ [10]) = .ok (List.replicate (n + 1) [97]) [] := by
  have hclean : ∀ c : UInt8, c ≠ 97 → c ≠ 32 → c ∉ oneByteWords n := by
    rintro c h97 h32 hmem
    exact (mem_oneByteWords hmem).elim h97 h32
  have hhead : (oneByteWords n).head? ≠ some 42 := fun h =>
    hclean 42 (by decide) (by decide) (List.mem_of_head? h)
  have hlast : (oneByteWords n).getLast? ≠ some 13 := fun h =>
    hclean 13 (by decide) (by decide) (List.mem_of_getLast? h)
  rw [parseRequest_line hhead (hclean 10 (by decide) (by decide)), if_neg hlast,
    splitOnP_oneByteWords, List.filter_replicate_of_pos (by decide)]

/-- **No input of up to `2 * kMaxArrayLength + 1` bytes makes a check fail**, and one that is a byte
longer does. -/
theorem passes_up_to_iff (size : ℕ) :
    (∀ input : Bytes, input.length ≤ size → oneInput input = true) ↔
      size ≤ 2 * kMaxArrayLength + 1 := by
  constructor
  · intro hpass
    by_contra hlong
    -- one word more than an array may have elements
    have hlen : (oneByteWords kMaxArrayLength ++ [10]).length ≤ size := by
      rw [List.length_append, length_oneByteWords, List.length_singleton]
      omega
    have htakes := Takes.cons (parseRequest_oneByteWords kMaxArrayLength) (.nil [])
    have hlimits := (oneInput_iff _).mp (hpass _ hlen) _ _ htakes _ List.mem_cons_self
    have hwords := hlimits.1
    rw [List.length_replicate] at hwords
    omega
  · intro hsize input hinput
    exact (oneInput_iff input).mpr fun argss rest htakes =>
      withinLimits_of_takes htakes (by omega)

end FuzzTarget

end ShardCache
