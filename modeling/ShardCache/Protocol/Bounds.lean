import ShardCache.Foundations.Traced
import ShardCache.Protocol.Request

/-!
# The parsers by index

The parsers work on a view of the buffer with offsets of 64 bits. Here they are modelled as they are
written, with a record of every index and substring that they take and of every sum and difference
that they calculate. They decide as the parsers over bytes do, and what they consume is in the
buffer.

Every access is in bounds, with one exception that comes to no harm. `parse_reply` takes the header
line as `substr(1, eol - 1)` before it looks at the type byte. On a buffer that starts with a line
break, `eol - 1` wraps to `npos`, the substring is the rest of the buffer, and the reply is refused.

## Main definitions

* `StringView`, `Access`, `Access.Sound`: views, the accesses to them, and when they are in bounds
* `parseRequestAt`, `parseInlineAt`, `parseReplyAt`: the parsers
* `parseLoopAt`: the loops around them

## Main results

* `parseRequestAt_follows`, `parseReplyAtN_safe`: they decide as the parsers over bytes do
* `reply_header_wraps`: a reply whose header line is taken with a length that wraps
* `parsers_in_bounds`: all other accesses are in bounds, and every loop ends
-/

namespace ShardCache

open Foundations Foundations.Traced

/-! ## Views -/

/-- A `std::string_view`. No object has more bytes than the largest signed number of 64 bits. -/
structure StringView where
  bytes : Bytes
  fits : bytes.length < 2 ^ 63

/-- An access to a view of some size, or a calculation with offsets. -/
inductive Access where
  | index (i size : ℕ)
  | substr (pos count size : ℕ)
  | suffix (pos size : ℕ)
  | add (a b : ℕ)
  | sub (a b : ℕ)
deriving DecidableEq, Repr

/-- The access is within the view, or the result within 64 bits. -/
def Access.Sound : Access → Prop
  | .index i size => i < size
  | .substr pos count size => pos + count ≤ size
  | .suffix pos size => pos ≤ size
  | .add a b => a + b < 2 ^ 64
  | .sub a b => b ≤ a

instance (e : Access) : Decidable e.Sound :=
  match e with
  | .index i size => inferInstanceAs (Decidable (i < size))
  | .substr pos count size => inferInstanceAs (Decidable (pos + count ≤ size))
  | .suffix pos size => inferInstanceAs (Decidable (pos ≤ size))
  | .add a b => inferInstanceAs (Decidable (a + b < 2 ^ 64))
  | .sub a b => inferInstanceAs (Decidable (b ≤ a))

/-- A sum of 64 bits. -/
def add64 (a b : ℕ) : Traced Access ℕ := access (.add a b) ((a + b) % 2 ^ 64)

/-- A difference of 64 bits. -/
def sub64 (a b : ℕ) : Traced Access ℕ := access (.sub a b) ((a + 2 ^ 64 - b) % 2 ^ 64)

namespace StringView

/-- `size`. -/
def size (v : StringView) : ℕ := v.bytes.length

/-- `v[i]`. -/
def index (v : StringView) (i : ℕ) : Traced Access UInt8 :=
  access (.index i v.size) (v.bytes.getD i 0)

/-- `v.substr(pos, count)`, which stops at the end of the view. -/
def substr (v : StringView) (pos count : ℕ) : Traced Access StringView :=
  access (.substr pos count v.size)
    { bytes := (v.bytes.drop pos).take count
      fits := by
        have := v.fits
        rw [List.length_take, List.length_drop]
        omega }

/-- `v.substr(pos)`. -/
def suffix (v : StringView) (pos : ℕ) : Traced Access StringView :=
  access (.suffix pos v.size)
    { bytes := v.bytes.drop pos
      fits := by
        have := v.fits
        rw [List.length_drop]
        omega }

/-- `find_crlf(v, pos)`. -/
def findCrlf (v : StringView) (pos : ℕ) : Option ℕ :=
  (ShardCache.findCrlf (v.bytes.drop pos)).map (pos + ·)

end StringView

/-- What a parser makes of a buffer, by its status and its out-parameters. The model of a loop or a
recursion is `unfinished` if it ran out of fuel. -/
inductive Outcome (ε α : Type) where
  | ok (value : α) (consumed : ℕ)
  | incomplete
  | error (e : ε)
  | unfinished
deriving DecidableEq, Repr

/-! ## Requests -/

/-- `while (i < line.size() && p(line[i])) ++i`. -/
def skipAt (line : StringView) (p : UInt8 → Bool) : ℕ → ℕ → Traced Access (Option ℕ)
  | 0, _ => pure none
  | fuel + 1, i =>
    if i < line.size then do
      if p (← line.index i) then skipAt line p fuel (← add64 i 1) else pure (some i)
    else pure (some i)

/-- The loop of `parse_inline`. -/
def wordsAt (line : StringView) : ℕ → ℕ → List Bytes → Traced Access (Option (List Bytes))
  | 0, _, _ => pure none
  | fuel + 1, i, args =>
    if i < line.size then do
      match ← skipAt line isBlank (line.size + 1) i with
      | none => pure none
      | some start =>
        -- `break`: only blanks were left
        if start ≥ line.size then pure (some args)
        else do
          match ← skipAt line (fun c => !isBlank c) (line.size + 1) start with
          | none => pure none
          | some i => do
            let word ← line.substr start (← sub64 i start)
            wordsAt line fuel i (args ++ [word.bytes])
    else pure (some args)

/-- `if (!line.empty() && line.back() == '\r') line.remove_suffix(1)`. -/
def removeReturnAt (line : StringView) : Traced Access StringView :=
  if line.size = 0 then pure line
  else do
    let last ← sub64 line.size 1
    if (← line.index last) = 13 then line.substr 0 last else pure line

/-- `parse_inline`. -/
def parseInlineAt (buf : StringView) : Traced Access (Outcome Bytes (List Bytes)) :=
  match buf.bytes.idxOf? 10 with
  | none =>
    pure (if buf.size > kMaxInlineLength then
      .error (ascii "Protocol error: too big inline request") else .incomplete)
  | some eol => do
    let line ← removeReturnAt (← buf.substr 0 eol)
    match ← wordsAt line (line.size + 1) 0 [] with
    | none => pure .unfinished
    | some args => return .ok args (← add64 eol 1)

/-- `buf[i] == '\r' && buf[i + 1] == '\n'`. -/
def closesAt (buf : StringView) (i : ℕ) : Traced Access Bool := do
  if (← buf.index i) = 13 then return (← buf.index (← add64 i 1)) = 10 else return false

/-- The data of an argument of length `len`, behind the line that ends at `lenEol`. -/
def parseDataAt (buf : StringView) (lenEol len : ℕ) : Traced Access (Outcome Bytes Bytes) := do
  let dataStart ← add64 lenEol 2
  let dataEnd ← add64 dataStart len
  if (← add64 dataEnd 2) > buf.size then pure .incomplete
  else if ← closesAt buf dataEnd then do
    let arg ← buf.substr dataStart len
    return .ok arg.bytes (← add64 dataEnd 2)
  else pure (.error (ascii "Protocol error: bulk string not terminated by CRLF"))

/-- The loop of `parse_request`, for one argument: what is consumed is up to its end. -/
def parseArgumentAt (buf : StringView) (pos : ℕ) : Traced Access (Outcome Bytes Bytes) :=
  if pos ≥ buf.size then pure .incomplete
  else do
    if (← buf.index pos) ≠ 36 then pure (.error (ascii "Protocol error: expected '$'"))
    else
      match buf.findCrlf pos with
      | none => pure .incomplete
      | some lenEol => do
        let start ← add64 pos 1
        let digits ← buf.substr start (← sub64 (← sub64 lenEol pos) 1)
        match parseLength kMaxBulkLength digits.bytes with
        | none => pure (.error (ascii "Protocol error: invalid bulk length"))
        | some len => parseDataAt buf lenEol len

/-- The loop of `parse_request`. -/
def parseArgumentsAt (buf : StringView) :
    ℕ → ℕ → List Bytes → Traced Access (Outcome Bytes (List Bytes))
  | 0, pos, args => pure (.ok args pos)
  | count + 1, pos, args => do
    match ← parseArgumentAt buf pos with
    | .ok arg next => parseArgumentsAt buf count next (args ++ [arg])
    | .incomplete => pure .incomplete
    | .error e => pure (.error e)
    | .unfinished => pure .unfinished

/-- `parse_request`. -/
def parseRequestAt (buf : StringView) : Traced Access (Outcome Bytes (List Bytes)) :=
  if buf.size = 0 then pure .incomplete
  else do
    if (← buf.index 0) ≠ 42 then parseInlineAt buf
    else
      match buf.findCrlf 0 with
      | none => pure .incomplete
      | some eol => do
        let digits ← buf.substr 1 (← sub64 eol 1)
        match parseLength kMaxArrayLength digits.bytes with
        | none => pure (.error (ascii "Protocol error: invalid multibulk length"))
        | some count => do parseArgumentsAt buf count (← add64 eol 2) []

/-! ## Replies -/

/-- The loop over the elements of an array; `parse` is the recursive call. -/
def parseElementsAt (parse : StringView → Traced Access (Outcome Unit RespValue))
    (buf : StringView) : ℕ → ℕ → List RespValue → Traced Access (Outcome Unit RespValue)
  | 0, pos, elements => pure (.ok (.array elements) pos)
  | count + 1, pos, elements => do
    match ← parse (← buf.suffix pos) with
    | .ok elem used => do
      parseElementsAt parse buf count (← add64 pos used) (elements ++ [elem])
    | .incomplete => pure .incomplete
    | .error e => pure (.error e)
    | .unfinished => pure .unfinished

/-- The line of a bulk string or an array that ends at `eol`: a length, `-1` for null, and what
follows. -/
def parseReplyLengthAt (max : ℕ) (line : Bytes) (eol : ℕ)
    (body : ℕ → Traced Access (Outcome Unit RespValue)) :
    Traced Access (Outcome Unit RespValue) :=
  match parseInt line with
  | none => pure (.error ())
  | some len =>
    if len.toInt < -1 ∨ len.toInt > max then pure (.error ())
    else if len.toInt = -1 then return .ok .null (← add64 eol 2)
    else body len.toInt.toNat

/-- The cases of `parse_reply`, on the type byte of a value and the rest of its line, which ends at
`eol`. -/
def parseReplyLineAt (parse : StringView → Traced Access (Outcome Unit RespValue))
    (buf : StringView) (type : UInt8) (line : Bytes) (eol : ℕ) :
    Traced Access (Outcome Unit RespValue) :=
  if type = 43 then return .ok (.simpleString line) (← add64 eol 2)
  else if type = 45 then return .ok (.error line) (← add64 eol 2)
  else if type = 58 then
    match parseInt line with
    | none => pure (.error ())
    | some n => return .ok (.integer n) (← add64 eol 2)
  else if type = 36 then
    parseReplyLengthAt kMaxBulkLength line eol fun len => do
      let start ← add64 eol 2
      let stop ← add64 start len
      let next ← add64 stop 2
      if next > buf.size then pure .incomplete
      else return .ok (.bulkString (← buf.substr start len).bytes) (← add64 stop 2)
  else if type = 42 then
    parseReplyLengthAt kMaxArrayLength line eol fun count => do
      parseElementsAt parse buf count (← add64 eol 2) []
  else pure (.error ())

/-- `parse_reply`, with its recursion cut at a depth. -/
def parseReplyAtN : ℕ → StringView → Traced Access (Outcome Unit RespValue)
  | 0, _ => pure .unfinished
  | fuel + 1, buf =>
    if buf.size = 0 then pure .incomplete
    else
      match buf.findCrlf 0 with
      | none => pure .incomplete
      | some eol => do
        -- the line is taken before the type byte is looked at
        let line ← buf.substr 1 (← sub64 eol 1)
        parseReplyLineAt (parseReplyAtN fuel) buf (← buf.index 0) line.bytes eol

/-- `parse_reply`. -/
def parseReplyAt (buf : StringView) : Traced Access (Outcome Unit RespValue) :=
  parseReplyAtN (buf.size + 1) buf

/-! ## Loops -/

/-- A loop around a parser, which goes on as long as `goOn` says, by the turns made and the
offset. -/
def parseLoopAt {ε α : Type} (parse : StringView → Traced Access (Outcome ε α)) (buf : StringView)
    (goOn : ℕ → ℕ → Bool) : ℕ → ℕ → ℕ → Traced Access (Option ℕ)
  | 0, _, _ => pure none
  | fuel + 1, turn, offset =>
    if goOn turn offset then do
      match ← parse (← buf.suffix offset) with
      | .ok _ consumed => do
        parseLoopAt parse buf goOn fuel (turn + 1) (← add64 offset consumed)
      | .incomplete => pure (some offset)
      | .error _ => pure (some offset)
      | .unfinished => pure none
    else pure (some offset)

/-- The loop of `ClientSession::process_input`. What else ends it is that the session closes, that
much output is pending, or that a command has to wait for peers. -/
def processInputAt (running : ℕ → Bool) (buf : StringView) : Traced Access (Option ℕ) :=
  parseLoopAt parseRequestAt buf (fun turn offset => running turn && offset < buf.size)
    (buf.size + 1) 0 0

/-- The loop of `PeerChannel::read`. It also ends when no call is pending. -/
def readAt (pending : ℕ → Bool) (buf : StringView) : Traced Access (Option ℕ) :=
  parseLoopAt parseReplyAt buf (fun turn _ => pending turn) (buf.size + 1) 0 0

/-! ## Rules -/

/-- What `parse_reply` calculates from the position `0` of a line break: `0 - 1`, and the substring
from the first byte on with this length, `npos`. -/
def Access.IsRest (e : Access) : Prop :=
  e = .sub 0 1 ∨ ∃ size, 2 ≤ size ∧ e = .substr 1 (2 ^ 64 - 1) size

/-- All accesses are in bounds, or all but those of `IsRest` are and the value is a failure. -/
def Safe {α : Type} (fails : α → Prop) (m : Traced Access α) (Q : α → Prop) : Prop :=
  Ensures m Access.Sound Q ∨ Ensures m (fun e => e.Sound ∨ e.IsRest) fun a => fails a ∧ Q a

section Rules

variable {α β : Type} {fails : α → Prop} {Q : α → Prop} {R : β → Prop} {v : StringView}
  {a b i pos count : ℕ}

theorem safe_pure {x : α} (h : Q x) : Safe fails (pure x) Q := Or.inl (ensures_pure h)

theorem Safe.imp {m : Traced Access α} {Q' : α → Prop} (h : Safe fails m Q)
    (hQ : ∀ x, Q x → Q' x) : Safe fails m Q' := by
  rcases h with h | h
  · exact Or.inl (h.imp (fun _ => id) hQ)
  · exact Or.inr (h.imp (fun _ => id) fun x hx => ⟨hx.1, hQ x hx.2⟩)

/-- Where nothing fails, all accesses are in bounds. -/
theorem Safe.ensures {m : Traced Access α} (h : Safe (fun _ => False) m Q) :
    Ensures m Access.Sound Q := by
  rcases h with h | h
  · exact h
  · exact h.2.1.elim

theorem safe_bind {m : Traced Access β} {f : β → Traced Access α} (hm : Ensures m Access.Sound R)
    (hf : ∀ x, R x → Safe fails (f x) Q) : Safe fails (m >>= f) Q := by
  -- the first part is in bounds, so the second one alone decides which case it is
  rcases hf _ hm.2 with h | h
  · refine Or.inl (Ensures.bind (Q := fun x => x = m.value) ⟨hm.1, rfl⟩ ?_)
    rintro x rfl
    exact h
  · refine Or.inr (Ensures.bind (Q := fun x => x = m.value) ⟨fun e he => Or.inl (hm.1 e he), rfl⟩ ?_)
    rintro x rfl
    exact h

theorem safe_access {e : Access} {x : β} {f : β → Traced Access α} (he : e.Sound)
    (hf : Safe fails (f x) Q) : Safe fails (access e x >>= f) Q := by
  refine safe_bind (R := fun y => y = x) ⟨?_, rfl⟩ ?_
  · intro e' he'
    rwa [List.mem_singleton.mp he']
  · rintro y rfl
    exact hf

theorem safe_add64 {f : ℕ → Traced Access α} (h : a + b < 2 ^ 64) (hf : Safe fails (f (a + b)) Q) :
    Safe fails (add64 a b >>= f) Q := by
  refine safe_access h ?_
  rwa [Nat.mod_eq_of_lt h]

theorem safe_sub64 {f : ℕ → Traced Access α} (h : b ≤ a) (ha : a < 2 ^ 64)
    (hf : Safe fails (f (a - b)) Q) : Safe fails (sub64 a b >>= f) Q := by
  refine safe_access h ?_
  have hvalue : (a + 2 ^ 64 - b) % 2 ^ 64 = a - b := by omega
  rwa [hvalue]

theorem safe_index {f : UInt8 → Traced Access α} (h : i < v.size)
    (hf : ∀ c, v.bytes[i]? = some c → Safe fails (f c) Q) : Safe fails (v.index i >>= f) Q := by
  have hget : v.bytes[i]? = some (v.bytes.getD i 0) := by
    rw [List.getD_eq_getElem?_getD, List.getElem?_eq_getElem h, Option.getD_some]
  exact safe_access h (hf _ hget)

theorem safe_substr {f : StringView → Traced Access α} (h : pos + count ≤ v.size)
    (hf : ∀ w : StringView, w.bytes = (v.bytes.drop pos).take count → Safe fails (f w) Q) :
    Safe fails (v.substr pos count >>= f) Q :=
  safe_access h (hf _ rfl)

theorem safe_suffix {f : StringView → Traced Access α} (h : pos ≤ v.size)
    (hf : ∀ w : StringView, w.bytes = v.bytes.drop pos → Safe fails (f w) Q) :
    Safe fails (v.suffix pos >>= f) Q :=
  safe_access h (hf _ rfl)

end Rules

/-- The parser by index comes to the same decision as a parser over bytes: what it consumes is at
least `lo` and within the buffer, and its value is `f` of the value. -/
inductive Follows {ε α β : Type} (buf : Bytes) (lo : ℕ) (f : α → β) :
    Outcome ε β → Parsed UInt8 ε α → Prop
  | ok (x : α) {c : ℕ} (lower : lo ≤ c) (upper : c ≤ buf.length) :
    Follows buf lo f (.ok (f x) c) (.ok x (buf.drop c))
  | incomplete : Follows buf lo f .incomplete .incomplete
  | error (e : ε) : Follows buf lo f (.error e) (.error e)

theorem Follows.mono {ε α β : Type} {buf : Bytes} {lo lo' : ℕ} {f : α → β} {out : Outcome ε β}
    {p : Parsed UInt8 ε α} (h : Follows buf lo' f out p) (hlo : lo ≤ lo') : Follows buf lo f out p := by
  cases h with
  | ok x lower upper => exact .ok x (hlo.trans lower) upper
  | incomplete => exact .incomplete
  | error e => exact .error e

/-- A value that is built from the value. -/
theorem Follows.bind_pure {ε α β γ : Type} {buf rest : Bytes} {lo lo' : ℕ} {f : γ → β} {g : α → γ}
    {out : Outcome ε β} {d : Decoder UInt8 ε α}
    (h : Follows buf lo' (fun x => f (g x)) out (d.parse rest)) (hlo : lo ≤ lo') :
    Follows buf lo f out ((d >>= fun x => pure (g x)).parse rest) := by
  rw [Decoder.parse_bind]
  generalize d.parse rest = p at h ⊢
  cases h with
  | ok x lower upper => exact .ok (g x) (hlo.trans lower) upper
  | incomplete => exact .incomplete
  | error e => exact .error e

/-! ## Inline commands -/

/-- The words of a line. -/
def wordsOf (line : Bytes) : List Bytes := (line.splitOnP isBlank).filter (· ≠ [])

theorem wordsOf_dropWhile (line : Bytes) : wordsOf (line.dropWhile isBlank) = wordsOf line := by
  induction line with
  | nil => rfl
  | cons c line ih =>
    rw [List.dropWhile_cons]
    split
    · rename_i hc
      rw [ih, wordsOf, wordsOf, List.splitOnP_cons_eq_if_modifyHead, if_pos hc]
      simp
    · rfl

/-- The first word of a line that does not start with a blank. -/
theorem wordsOf_cons {c : UInt8} (hc : isBlank c = false) (line : Bytes) :
    wordsOf (c :: line) =
      (c :: line).takeWhile (fun d => !isBlank d) ::
        wordsOf ((c :: line).dropWhile fun d => !isBlank d) := by
  have hne : (c :: line).takeWhile (fun d => !isBlank d) ≠ [] := by simp [hc]
  have hword : ∀ d ∈ (c :: line).takeWhile (fun d => !isBlank d), isBlank d = false := by
    intro d hd
    simpa using List.mem_takeWhile_imp hd
  conv_lhs => rw [← List.takeWhile_append_dropWhile (p := fun d => !isBlank d) (l := c :: line)]
  cases hrest : (c :: line).dropWhile (fun d => !isBlank d) with
  | nil =>
    rw [List.append_nil, wordsOf, List.splitOnP_eq_singleton hword]
    simp [hne, wordsOf]
  | cons sep rest =>
    -- what follows the word starts with a blank, which separates it from the other words
    have hsep : isBlank sep = true := by
      have := List.head?_dropWhile_not (fun d => !isBlank d) (c :: line)
      rw [hrest] at this
      simpa using this
    rw [← wordsOf_dropWhile (sep :: rest), List.dropWhile_cons, if_pos hsep, wordsOf_dropWhile,
      wordsOf, List.splitOnP_append_cons_of_forall_mem hword sep hsep]
    simp [hne, wordsOf]

theorem drop_length_takeWhile (p : UInt8 → Bool) (l : Bytes) :
    l.drop (l.takeWhile p).length = l.dropWhile p := by
  induction l with
  | nil => rfl
  | cons c l ih =>
    rw [List.takeWhile_cons, List.dropWhile_cons]
    split
    · rw [List.length_cons, List.drop_succ_cons, ih]
    · rfl

theorem skipAt_ensures (line : StringView) (p : UInt8 → Bool) {fuel i : ℕ}
    (hfuel : line.size - i < fuel) (hi : i ≤ line.size) :
    Ensures (skipAt line p fuel i) Access.Sound
      (· = some (i + ((line.bytes.drop i).takeWhile p).length)) := by
  have hfits : line.size < 2 ^ 63 := line.fits
  induction fuel generalizing i with
  | zero => omega
  | succ fuel ih =>
    unfold skipAt
    refine Safe.ensures ?_
    split
    · rename_i hlt
      refine safe_index hlt ?_
      intro c hc
      have hdrop : line.bytes.drop i = c :: line.bytes.drop (i + 1) :=
        List.drop_eq_getElem?_toList_append.trans (by rw [hc]; rfl)
      rw [hdrop, List.takeWhile_cons]
      split
      · rename_i hp
        refine safe_add64 (by omega) (Or.inl ((ih (by omega) (by omega)).imp (fun _ => id) ?_))
        rintro x rfl
        rw [List.length_cons]
        congr 1
        omega
      · exact safe_pure rfl
    · have hnil : line.bytes.drop i = [] := List.drop_eq_nil_of_le (by change line.size ≤ i; omega)
      rw [hnil]
      exact safe_pure rfl

theorem add_length_takeWhile_le (line : StringView) (p : UInt8 → Bool) {i : ℕ}
    (hi : i ≤ line.size) : i + ((line.bytes.drop i).takeWhile p).length ≤ line.size := by
  have hle := (List.takeWhile_prefix p (l := line.bytes.drop i)).length_le
  rw [List.length_drop] at hle
  change _ ≤ line.size - i at hle
  omega

theorem wordsAt_ensures (line : StringView) {fuel i : ℕ} (args : List Bytes)
    (hfuel : line.size - i < fuel) (hi : i ≤ line.size) :
    Ensures (wordsAt line fuel i args) Access.Sound
      (· = some (args ++ wordsOf (line.bytes.drop i))) := by
  have hfits : line.size < 2 ^ 63 := line.fits
  -- every round but the last takes a word off the line, so there are fewer rounds than bytes
  induction fuel generalizing i args with
  | zero => omega
  | succ fuel ih =>
    unfold wordsAt
    refine Safe.ensures ?_
    split
    · refine safe_bind (skipAt_ensures line isBlank (by omega) hi) ?_
      rintro x rfl
      have hstart : line.bytes.drop (i + ((line.bytes.drop i).takeWhile isBlank).length) =
          (line.bytes.drop i).dropWhile isBlank := by
        rw [← List.drop_drop, drop_length_takeWhile]
      have hle := add_length_takeWhile_le line isBlank hi
      have hge : i ≤ i + ((line.bytes.drop i).takeWhile isBlank).length := Nat.le_add_right _ _
      rw [← wordsOf_dropWhile, ← hstart]
      have hblank := List.head?_dropWhile_not isBlank (line.bytes.drop i)
      rw [← hstart] at hblank
      generalize i + ((line.bytes.drop i).takeWhile isBlank).length = start at hblank hle hge ⊢
      simp only
      split
      · -- only blanks were left
        rename_i hend
        rw [List.drop_eq_nil_of_le hend]
        exact safe_pure (by simp [wordsOf])
      · -- a word, which is not empty
        rename_i hlt
        obtain ⟨c, rest, hrest⟩ : ∃ c rest, line.bytes.drop start = c :: rest :=
          List.exists_cons_of_ne_nil fun hnil => hlt (List.drop_eq_nil_iff.mp hnil)
        rw [hrest] at hblank
        have hc : isBlank c = false := by simpa using hblank
        have hword : 0 < ((line.bytes.drop start).takeWhile fun d => !isBlank d).length := by
          rw [hrest, List.takeWhile_cons, if_pos (by simp [hc]), List.length_cons]
          exact Nat.succ_pos _
        have hnext := add_length_takeWhile_le line (fun d => !isBlank d) hle
        refine safe_bind (skipAt_ensures line _ (by omega) hle) ?_
        rintro x rfl
        refine safe_sub64 (by omega) (by omega) (safe_substr (by omega) ?_)
        intro w hw
        rw [Nat.add_sub_cancel_left] at hw
        refine Or.inl ((ih (args ++ [w.bytes]) (by omega) hnext).imp (fun _ => id) ?_)
        rintro x rfl
        have htake := List.prefix_iff_eq_take.mp
          (List.takeWhile_prefix (fun d => !isBlank d) (l := line.bytes.drop start))
        rw [hw, ← htake, ← List.drop_drop, drop_length_takeWhile, hrest, wordsOf_cons hc,
          List.append_assoc, List.singleton_append]
    · have hnil : line.bytes.drop i = [] := List.drop_eq_nil_of_le (by change line.size ≤ i; omega)
      rw [hnil]
      exact safe_pure (by simp [wordsOf])

theorem removeReturnAt_ensures (line : StringView) :
    Ensures (removeReturnAt line) Access.Sound fun w =>
      w.bytes = if line.bytes.getLast? = some 13 then line.bytes.dropLast else line.bytes := by
  have hfits : line.size < 2 ^ 63 := line.fits
  unfold removeReturnAt
  refine Safe.ensures ?_
  split
  · rename_i hsize
    have hnil : line.bytes = [] := List.length_eq_zero_iff.mp hsize
    exact safe_pure (by simp [hnil])
  · refine safe_sub64 (by omega) (by omega) (safe_index (by omega) ?_)
    intro c hc
    have hlast : line.bytes.getLast? = some c := by rw [List.getLast?_eq_getElem?]; exact hc
    simp only [hlast, Option.some.injEq]
    split
    · refine Or.inl ⟨?_, ?_⟩
      · intro e he
        rw [List.mem_singleton.mp he]
        show 0 + (line.size - 1) ≤ line.size
        omega
      · exact List.dropLast_eq_take.symm
    · exact safe_pure rfl

/-- **Inline commands.** -/
theorem parseInlineAt_ensures (buf : StringView) :
    Ensures (parseInlineAt buf) Access.Sound fun out =>
      Follows buf.bytes 1 id out (parseInline buf.bytes) := by
  have hfits : buf.size < 2 ^ 63 := buf.fits
  unfold parseInlineAt parseInline
  cases heol : buf.bytes.idxOf? 10 with
  | none =>
    refine ensures_pure ?_
    show Follows _ _ _ (if buf.bytes.length > _ then _ else _) (if buf.bytes.length > _ then _ else _)
    split
    · exact .error _
    · exact .incomplete
  | some eol =>
    -- the newline is in the buffer, so `eol + 1` is at most its size
    obtain ⟨-, hlt⟩ := idxOf?_append_of_some heol []
    change eol + 1 ≤ buf.size at hlt
    refine Safe.ensures (safe_substr (by omega) ?_)
    intro line hline
    refine safe_bind (removeReturnAt_ensures line) ?_
    intro trimmed htrimmed
    refine safe_bind (wordsAt_ensures trimmed [] (by omega) (Nat.zero_le _)) ?_
    rintro x rfl
    refine safe_add64 (by omega) (safe_pure ?_)
    rw [List.drop_zero] at hline
    rw [List.drop_zero, List.nil_append, htrimmed, hline]
    exact .ok _ (by omega) hlt

/-! ## Arrays of bulk strings -/

/-- A line that starts with a type byte is not empty. -/
theorem pos_of_findCrlf {type : UInt8} {rest : Bytes} {eol : ℕ} (hhead : rest[0]? = some type)
    (htype : type ≠ 13) (h : findCrlf rest = some eol) : 1 ≤ eol := by
  obtain ⟨-, hsplit⟩ := findCrlf_eq_some h
  cases eol with
  | zero =>
    rw [hsplit] at hhead
    exact absurd (Option.some.inj hhead).symm htype
  | succ eol => exact Nat.succ_pos _

/-- The first line of a buffer, without its first byte. -/
theorem line_of_findCrlf {type : UInt8} {rest : Bytes} {eol : ℕ} (hhead : rest[0]? = some type)
    (hone : 1 ≤ eol) (h : findCrlf rest = some eol) :
    eol + 2 ≤ rest.length ∧ findCrlf (type :: (rest.drop 1).take (eol - 1)) = none ∧
      rest = type :: (rest.drop 1).take (eol - 1) ++ 13 :: 10 :: rest.drop (eol + 2) := by
  obtain ⟨hnone, hsplit⟩ := findCrlf_eq_some h
  obtain ⟨-, hle⟩ := findCrlf_append h []
  obtain ⟨n, rfl⟩ := Nat.exists_eq_add_of_le' hone
  cases rest with
  | nil => cases hhead
  | cons c rest =>
    obtain rfl : c = type := Option.some.inj hhead
    rw [List.take_succ_cons] at hnone hsplit
    exact ⟨hle, hnone, hsplit⟩

theorem closesAt_ensures {buf : StringView} {i : ℕ} (hi : i + 2 ≤ buf.size) :
    Ensures (closesAt buf i) Access.Sound
      (· = decide ((buf.bytes.drop i).take 2 = [13, 10])) := by
  have hfits : buf.size < 2 ^ 63 := buf.fits
  unfold closesAt
  refine Safe.ensures (safe_index (by omega) ?_)
  intro c hc
  obtain ⟨d, hd⟩ : ∃ d, buf.bytes[i + 1]? = some d := ⟨_, List.getElem?_eq_getElem (by
    change i + 1 < buf.size; omega)⟩
  have hdrop : (buf.bytes.drop i).take 2 = [c, d] := by
    rw [List.drop_eq_getElem?_toList_append, hc, List.drop_eq_getElem?_toList_append, hd]
    rfl
  rw [hdrop]
  split
  · rename_i hc13
    refine safe_add64 (by omega) (safe_index (by omega) ?_)
    intro d' hd'
    obtain rfl := Option.some.inj (hd.symm.trans hd')
    exact safe_pure (by simp [hc13])
  · rename_i hc13
    exact safe_pure (by simp [hc13])

theorem parse_argument_of_findCrlf {rest : Bytes} (h : findCrlf (36 :: rest) = none) :
    parseArgument.parse (36 :: rest) = .incomplete := by
  rw [parseArgument, Decoder.parse_bind_ok (Decoder.parse_peek_cons _ _), if_neg (by decide),
    Decoder.parse_bind, readLine_eq_incomplete.mpr h]

/-- The data of an argument. -/
theorem parseDataAt_ensures {buf : StringView} {lenEol len : ℕ} (heol : lenEol + 2 ≤ buf.size)
    (hlimit : len ≤ 67108864) :
    Ensures (parseDataAt buf lenEol len) Access.Sound fun out =>
      Follows buf.bytes lenEol id out ((do
          let data ← Decoder.take (len + 2)
          if data.drop len ≠ [13, 10] then
            .fail (ascii "Protocol error: bulk string not terminated by CRLF")
          else pure (data.take len) : Decoder UInt8 Bytes Bytes).parse
        (buf.bytes.drop (lenEol + 2))) := by
  have hfits : buf.size < 2 ^ 63 := buf.fits
  have hbody : (buf.bytes.drop (lenEol + 2)).length = buf.size - (lenEol + 2) := List.length_drop
  unfold parseDataAt
  refine Safe.ensures (safe_add64 (by omega) (safe_add64 (by omega) (safe_add64 (by omega) ?_)))
  rw [Decoder.parse_bind]
  simp only [Decoder.take, hbody]
  split
  · -- the data has not arrived
    rw [if_pos (by omega)]
    exact safe_pure .incomplete
  · rw [if_neg (by omega)]
    have hclose : ((buf.bytes.drop (lenEol + 2)).take (len + 2)).drop len =
        (buf.bytes.drop (lenEol + 2 + len)).take 2 := by
      rw [List.drop_take, Nat.add_sub_cancel_left, List.drop_drop]
    refine safe_bind (closesAt_ensures (by omega)) ?_
    rintro closed rfl
    simp only [hclose, decide_eq_true_eq]
    by_cases hcrlf : (buf.bytes.drop (lenEol + 2 + len)).take 2 = [13, 10]
    · rw [if_pos hcrlf, if_neg (not_not.mpr hcrlf)]
      refine safe_substr (by omega) ?_
      intro arg harg
      refine safe_add64 (by omega) (safe_pure ?_)
      rw [harg, List.take_take, min_eq_left (by omega), List.drop_drop]
      exact .ok (ε := Bytes) (f := id) _ (by omega) (show _ ≤ buf.size by omega)
    · rw [if_neg hcrlf, if_pos hcrlf]
      exact safe_pure (.error _)

/-- **An argument of a request.** -/
theorem parseArgumentAt_ensures (buf : StringView) (pos : ℕ) :
    Ensures (parseArgumentAt buf pos) Access.Sound fun out =>
      Follows buf.bytes pos id out (parseArgument.parse (buf.bytes.drop pos)) := by
  have hfits : buf.size < 2 ^ 63 := buf.fits
  unfold parseArgumentAt
  refine Safe.ensures ?_
  split
  · rename_i hend
    rw [List.drop_eq_nil_of_le hend]
    exact safe_pure .incomplete
  · rename_i hlt
    refine safe_index (by omega) ?_
    intro c hc
    have hdrop : buf.bytes.drop pos = c :: buf.bytes.drop (pos + 1) :=
      List.drop_eq_getElem?_toList_append.trans (by rw [hc]; rfl)
    split
    · rename_i hc36
      rw [hdrop, parse_argument_of_ne hc36]
      exact safe_pure (.error _)
    · rename_i hc36
      obtain rfl := not_not.mp hc36
      unfold StringView.findCrlf
      cases heol : findCrlf (buf.bytes.drop pos) with
      | none =>
        rw [hdrop] at heol ⊢
        rw [parse_argument_of_findCrlf heol]
        exact safe_pure .incomplete
      | some eol =>
        -- the line of the length, which starts behind the type byte
        have hhead : (buf.bytes.drop pos)[0]? = some 36 := by rw [hdrop]; rfl
        have hone := pos_of_findCrlf hhead (by decide) heol
        obtain ⟨hle, hnone, hsplit⟩ := line_of_findCrlf hhead hone heol
        rw [List.length_drop] at hle
        change eol + 2 ≤ buf.size - pos at hle
        rw [List.drop_drop] at hnone hsplit
        rw [List.drop_drop] at hsplit
        rw [hsplit, parse_argument_line hnone, Option.map_some]
        refine safe_add64 (by omega) (safe_sub64 (by omega) (by omega) (safe_sub64 (by omega)
          (by omega) (safe_substr (by omega) ?_)))
        intro digits hdigits
        rw [Nat.add_sub_cancel_left] at hdigits
        rw [hdigits]
        cases hlen : parseLength kMaxBulkLength ((buf.bytes.drop (pos + 1)).take (eol - 1)) with
        | none => exact safe_pure (.error _)
        | some len =>
          have hlimit : len ≤ 67108864 := le_of_parseLength hlen
          have hdata := parseDataAt_ensures (show pos + eol + 2 ≤ buf.size by omega) hlimit
          refine Or.inl (hdata.imp (fun _ => id) ?_)
          intro out hout
          exact hout.mono (by omega)

/-- **The arguments of a request.** -/
theorem parseArgumentsAt_ensures (buf : StringView) (count : ℕ) {pos : ℕ} (args : List Bytes)
    (hpos : pos ≤ buf.size) :
    Ensures (parseArgumentsAt buf count pos args) Access.Sound fun out =>
      Follows buf.bytes pos (args ++ ·) out
        ((parseArgument.times count).parse (buf.bytes.drop pos)) := by
  induction count generalizing pos args with
  | zero =>
    refine ensures_pure ?_
    have hok := Follows.ok (ε := Bytes) (f := (args ++ ·)) [] le_rfl hpos
    rw [List.append_nil] at hok
    exact hok
  | succ count ih =>
    unfold parseArgumentsAt
    rw [Decoder.times, Decoder.parse_bind]
    refine Ensures.bind (parseArgumentAt_ensures buf pos) ?_
    intro out hout
    generalize parseArgument.parse (buf.bytes.drop pos) = parsed at hout ⊢
    cases hout with
    | ok arg lower upper =>
      refine (ih (args ++ [arg]) upper).imp (fun _ => id) ?_
      intro out hout
      refine Follows.bind_pure ?_ lower
      simpa using hout
    | incomplete => exact ensures_pure .incomplete
    | error e => exact ensures_pure (.error e)

/-- **Requests**: all accesses are in bounds, and the decision is that of the parser over bytes. -/
theorem parseRequestAt_follows (buf : StringView) :
    Ensures (parseRequestAt buf) Access.Sound fun out =>
      Follows buf.bytes 1 id out (parseRequest buf.bytes) := by
  have hfits : buf.size < 2 ^ 63 := buf.fits
  unfold parseRequestAt
  refine Safe.ensures ?_
  split
  · rename_i hsize
    rw [List.length_eq_zero_iff.mp hsize]
    exact safe_pure .incomplete
  · refine safe_index (by omega) ?_
    intro c hc
    obtain ⟨rest, hbytes⟩ : ∃ rest, buf.bytes = c :: rest := by
      cases hb : buf.bytes with
      | nil => simp [hb] at hc
      | cons d rest =>
        rw [hb] at hc
        exact ⟨rest, by rw [Option.some.inj hc]⟩
    have hrequest : parseRequest buf.bytes =
        if c ≠ 42 then parseInline buf.bytes else parseArray.parse buf.bytes := by
      rw [hbytes, parseRequest]
    rw [hrequest]
    by_cases hc42 : c ≠ 42
    · rw [if_pos hc42, if_pos hc42]
      exact Or.inl (parseInlineAt_ensures buf)
    · rw [if_neg hc42, if_neg hc42]
      obtain rfl := not_not.mp hc42
      unfold StringView.findCrlf
      rw [List.drop_zero]
      cases heol : findCrlf buf.bytes with
      | none =>
        rw [parseArray, Decoder.parse_bind, readLine_eq_incomplete.mpr heol]
        exact safe_pure .incomplete
      | some eol =>
        -- the line of the count, which starts behind the type byte
        have hone := pos_of_findCrlf hc (by decide) heol
        obtain ⟨hle, hnone, hsplit⟩ := line_of_findCrlf hc hone heol
        change eol + 2 ≤ buf.size at hle
        have harray := parse_array_line hnone (buf.bytes.drop (eol + 2))
        rw [← hsplit] at harray
        rw [harray, Option.map_some, Nat.zero_add]
        refine safe_sub64 hone (by omega) (safe_substr (by omega) ?_)
        intro digits hdigits
        rw [hdigits]
        cases hcount : parseLength kMaxArrayLength ((buf.bytes.drop 1).take (eol - 1)) with
        | none => exact safe_pure (.error _)
        | some count =>
          refine safe_add64 (by omega) (Or.inl ?_)
          refine (parseArgumentsAt_ensures buf count [] hle).imp (fun _ => id) ?_
          intro out hout
          exact hout.mono (by omega)

/-! ## Replies -/

/-- A reply is refused. -/
def Refused (out : Outcome Unit RespValue) : Prop := out = .error ()

/-- The recursive call does what `parse_reply` does, on views of less than `bound` bytes. -/
def Parses (parse : StringView → Traced Access (Outcome Unit RespValue)) (bound : ℕ) : Prop :=
  ∀ w : StringView, w.size < bound →
    Safe Refused (parse w) fun out => Follows w.bytes 1 id out (parseReply.parse w.bytes)

section Replies

variable {parse : StringView → Traced Access (Outcome Unit RespValue)} {bound : ℕ}
  {buf : StringView}

/-- **The elements of an array.** -/
theorem parseElementsAt_safe (hparse : Parses parse bound) (count : ℕ) {pos : ℕ}
    (elements : List RespValue) (hpos : pos ≤ buf.size) (hbound : buf.size - pos < bound) :
    Safe Refused (parseElementsAt parse buf count pos elements) fun out =>
      Follows buf.bytes pos (fun es => .array (elements ++ es)) out
        ((parseReply.times count).parse (buf.bytes.drop pos)) := by
  have hfits : buf.size < 2 ^ 63 := buf.fits
  induction count generalizing pos elements with
  | zero =>
    refine safe_pure ?_
    have hok := Follows.ok (ε := Unit) (f := fun es => RespValue.array (elements ++ es)) [] le_rfl hpos
    simp only [List.append_nil] at hok
    exact hok
  | succ count ih =>
    unfold parseElementsAt
    rw [Decoder.times, Decoder.parse_bind]
    refine safe_suffix hpos ?_
    intro w hw
    have hsize : w.size = buf.size - pos := by
      show w.bytes.length = _
      rw [hw, List.length_drop]
      rfl
    rw [← hw]
    -- a wrapped length in an element is one in the array
    rcases hparse w (by omega) with hsound | hrefused
    · refine safe_bind hsound ?_
      intro out hout
      generalize parseReply.parse w.bytes = parsed at hout ⊢
      cases hout with
      | @ok elem used lower upper =>
        change used ≤ w.size at upper
        refine safe_add64 (by omega) ((ih (elements ++ [elem]) (by omega) (by omega)).imp ?_)
        intro out hout
        rw [hw, List.drop_drop]
        refine Follows.bind_pure ?_ (Nat.le_add_right pos used)
        simpa using hout
      | incomplete => exact safe_pure .incomplete
      | error e => exact safe_pure (.error e)
    · -- an element that is refused, and the array with it
      refine Or.inr (Ensures.bind hrefused ?_)
      rintro out ⟨rfl, hout⟩
      generalize parseReply.parse w.bytes = parsed at hout ⊢
      cases hout with
      | error e => exact ensures_pure ⟨rfl, .error e⟩

/-- A value that is its line. -/
theorem safe_line_value {eol : ℕ} (heol : eol + 2 ≤ buf.size) (v : RespValue) :
    Safe Refused (do return .ok v (← add64 eol 2)) fun out =>
      Follows buf.bytes 1 id out ((pure v : Decoder UInt8 Unit RespValue).parse
        (buf.bytes.drop (eol + 2))) := by
  have hfits : buf.size < 2 ^ 63 := buf.fits
  refine safe_add64 (by omega) (safe_pure ?_)
  exact .ok (ε := Unit) (f := id) v (by omega) heol

/-- A length, and what follows it. -/
theorem parseReplyLengthAt_safe {max eol : ℕ} {line : Bytes} (heol : eol + 2 ≤ buf.size)
    {bodyAt : ℕ → Traced Access (Outcome Unit RespValue)}
    {body : ℕ → Decoder UInt8 Unit RespValue}
    (hbody : ∀ n ≤ max, Safe Refused (bodyAt n) fun out =>
      Follows buf.bytes 1 id out ((body n).parse (buf.bytes.drop (eol + 2)))) :
    Safe Refused (parseReplyLengthAt max line eol bodyAt) fun out =>
      Follows buf.bytes 1 id out
        ((parseReplyLength max line body).parse (buf.bytes.drop (eol + 2))) := by
  unfold parseReplyLengthAt parseReplyLength
  cases parseInt line with
  | none => exact safe_pure (.error ())
  | some len =>
    simp only
    split_ifs with hlimits hnull
    · exact safe_pure (.error ())
    · exact safe_line_value heol .null
    · exact hbody _ (by omega)

/-- The data of a bulk string. -/
theorem safe_bulk {eol len : ℕ} (heol : eol + 2 ≤ buf.size) (hlen : len ≤ kMaxBulkLength) :
    Safe Refused (do
        let start ← add64 eol 2
        let stop ← add64 start len
        let next ← add64 stop 2
        if next > buf.size then pure .incomplete
        else return .ok (.bulkString (← buf.substr start len).bytes) (← add64 stop 2)) fun out =>
      Follows buf.bytes 1 id out ((do
        return .bulkString ((← Decoder.take (len + 2)).take len) :
          Decoder UInt8 Unit RespValue).parse (buf.bytes.drop (eol + 2))) := by
  have hfits : buf.size < 2 ^ 63 := buf.fits
  -- the limit on bulk strings keeps the sums far below 64 bits
  have hlimit : len ≤ 67108864 := hlen
  have hbody : (buf.bytes.drop (eol + 2)).length = buf.size - (eol + 2) := List.length_drop
  refine safe_add64 (by omega) (safe_add64 (by omega) (safe_add64 (by omega) ?_))
  rw [Decoder.parse_bind]
  simp only [Decoder.take, hbody]
  by_cases hshort : eol + 2 + len + 2 > buf.size
  · rw [if_pos hshort, if_pos (by omega)]
    exact safe_pure .incomplete
  · rw [if_neg hshort, if_neg (by omega)]
    refine safe_substr (by omega) ?_
    intro data hdata
    refine safe_add64 (by omega) (safe_pure ?_)
    simp only [Decoder.parse_pure]
    rw [hdata, List.take_take, min_eq_left (by omega), List.drop_drop]
    exact .ok (ε := Unit) (f := id) _ (by omega) (show _ ≤ buf.size by omega)

/-- **The cases of a reply.** -/
theorem parseReplyLineAt_safe (hparse : Parses parse bound) {eol : ℕ} (type : UInt8) (line : Bytes)
    (heol : eol + 2 ≤ buf.size) (hbound : buf.size ≤ bound) :
    Safe Refused (parseReplyLineAt parse buf type line eol) fun out =>
      Follows buf.bytes 1 id out
        ((parseReplyLine parseReply type line).parse (buf.bytes.drop (eol + 2))) := by
  have hfits : buf.size < 2 ^ 63 := buf.fits
  unfold parseReplyLineAt parseReplyLine
  split_ifs
  · exact safe_line_value heol _
  · exact safe_line_value heol _
  · cases parseInt line with
    | none => exact safe_pure (.error ())
    | some n => exact safe_line_value heol _
  · exact parseReplyLengthAt_safe heol fun len hlen => safe_bulk heol hlen
  · refine parseReplyLengthAt_safe heol ?_
    intro count _
    refine safe_add64 (by omega) ?_
    refine (parseElementsAt_safe hparse count [] heol (by omega)).imp ?_
    intro out hout
    exact Follows.bind_pure (f := id) hout (by omega)
  · exact safe_pure (.error ())

/-- **Replies**: unless the reply is refused, all accesses are in bounds, and the decision is that of
the parser over bytes. -/
theorem parseReplyAtN_safe (fuel : ℕ) : Parses (parseReplyAtN fuel) fuel := by
  -- an element starts behind the header of its array, so a view is shorter at every depth
  induction fuel with
  | zero =>
    intro buf hbuf
    exact absurd hbuf (Nat.not_lt_zero _)
  | succ fuel ih =>
    intro buf hbuf
    have hfits : buf.size < 2 ^ 63 := buf.fits
    unfold parseReplyAtN StringView.findCrlf
    rw [parseReply_eq, Decoder.parse_bind, List.drop_zero]
    split
    · rename_i hsize
      rw [List.length_eq_zero_iff.mp hsize]
      exact safe_pure .incomplete
    · cases heol : findCrlf buf.bytes with
      | none =>
        rw [readLine_eq_incomplete.mpr heol]
        exact safe_pure .incomplete
      | some eol =>
        obtain ⟨-, hle⟩ := findCrlf_append heol []
        change eol + 2 ≤ buf.size at hle
        rw [Option.map_some, Nat.zero_add]
        rcases Nat.eq_zero_or_pos eol with rfl | hone
        · -- the line is empty: its length wraps, and the byte behind it is no type byte
          have hsplit := (findCrlf_eq_some heol).2
          rw [List.take_zero, List.nil_append] at hsplit
          have hread : (readLine : Decoder UInt8 Unit Bytes).parse
              ([] ++ 13 :: 10 :: buf.bytes.drop (0 + 2)) = .ok [] (buf.bytes.drop (0 + 2)) :=
            readLine_append rfl _
          rw [List.nil_append, ← hsplit] at hread
          rw [hread]
          have hfirst : buf.bytes.getD 0 0 = 13 := by rw [hsplit]; rfl
          refine Or.inr ?_
          refine ensures_access_bind (Or.inr (Or.inl rfl)) ?_
          refine ensures_access_bind (Or.inr (Or.inr ⟨buf.size, hle, rfl⟩)) ?_
          refine ensures_access_bind (Or.inl (show 0 < buf.size by omega)) ?_
          rw [hfirst]
          exact ensures_pure ⟨rfl, .error ()⟩
        · -- the type byte, and the rest of the line
          refine safe_sub64 hone (by omega) (safe_substr (by omega) ?_)
          intro line hline
          refine safe_index (by omega) ?_
          intro type htype
          obtain ⟨-, hnone, hsplit⟩ := line_of_findCrlf htype hone heol
          have hread := readLine_append (ε := Unit) hnone (buf.bytes.drop (eol + 2))
          rw [← hsplit] at hread
          rw [hread, hline]
          exact parseReplyLineAt_safe ih type _ hle (by omega)

end Replies

/-! ## In bounds, and to the end -/

/-- The parser came to an end, and consumed at least one byte and no more than there are if it
succeeded. -/
def Outcome.Ends {ε α : Type} (size : ℕ) : Outcome ε α → Prop
  | .ok _ consumed => 0 < consumed ∧ consumed ≤ size
  | .incomplete => True
  | .error _ => True
  | .unfinished => False

theorem Follows.ends {ε α β : Type} {buf : Bytes} {f : α → β} {out : Outcome ε β}
    {p : Parsed UInt8 ε α} (h : Follows buf 1 f out p) : out.Ends buf.length := by
  cases h with
  | ok x lower upper => exact ⟨lower, upper⟩
  | incomplete => trivial
  | error e => trivial

/-- **A loop ends**, since every turn consumes something. -/
theorem parseLoopAt_ensures {ε α : Type} {parse : StringView → Traced Access (Outcome ε α)}
    {P : Access → Prop} (hP : ∀ e, e.Sound → P e)
    (hparse : ∀ w : StringView, Ensures (parse w) P fun out => out.Ends w.size) (buf : StringView)
    (goOn : ℕ → ℕ → Bool) {fuel : ℕ} (turn : ℕ) {offset : ℕ} (hoffset : offset ≤ buf.size)
    (hfuel : buf.size - offset < fuel) :
    Ensures (parseLoopAt parse buf goOn fuel turn offset) P fun r =>
      ∃ stop ≤ buf.size, r = some stop := by
  have hfits : buf.size < 2 ^ 63 := buf.fits
  induction fuel generalizing turn offset with
  | zero => omega
  | succ fuel ih =>
    unfold parseLoopAt
    split
    · refine ensures_access_bind (hP _ (show offset ≤ buf.size from hoffset)) ?_
      refine Ensures.bind (hparse _) ?_
      intro out hout
      cases out with
      | ok value consumed =>
        have hused : 0 < consumed ∧ consumed ≤ buf.size - offset := by
          simpa [Outcome.Ends, StringView.size] using hout
        have hsum : offset + consumed < 2 ^ 64 := by omega
        refine ensures_access_bind (hP _ hsum) ?_
        rw [Nat.mod_eq_of_lt hsum]
        exact ih (turn + 1) (by omega) (by omega)
      | incomplete => exact ensures_pure ⟨offset, hoffset, rfl⟩
      | error e => exact ensures_pure ⟨offset, hoffset, rfl⟩
      | unfinished => exact hout.elim
    · exact ensures_pure ⟨offset, hoffset, rfl⟩

/-- A buffer that starts with a line break. -/
def lineBreak : StringView := ⟨[13, 10], by decide⟩

/-- **A length wraps**: on a line break, `parse_reply` calculates `0 - 1`. It refuses the reply. -/
theorem reply_header_wraps :
    Access.sub 0 1 ∈ (parseReplyAt lineBreak).trace ∧ ¬ (Access.sub 0 1).Sound ∧
      (parseReplyAt lineBreak).value = .error () := by
  decide

/-- **The parsers stay in bounds and make progress.** Every index and substring of `parse_request` is
within the buffer, and no sum or difference leaves 64 bits. The same is true of `parse_reply`, at
every depth, with one exception: on a buffer that starts with a line break, the length of the header
line is `0 - 1`, and the substring of this length is the rest of the buffer; the reply is then
refused. Both come to an end, and consume at least one byte and at most the buffer if they succeed,
so that the loops around them end on every buffer. -/
theorem parsers_in_bounds (buf : StringView) :
    ((∀ e ∈ (parseRequestAt buf).trace, e.Sound) ∧ (parseRequestAt buf).value.Ends buf.size) ∧
      ((∀ e ∈ (parseReplyAt buf).trace, e.Sound ∨ e.IsRest) ∧
        ((parseReplyAt buf).value ≠ .error () → ∀ e ∈ (parseReplyAt buf).trace, e.Sound) ∧
        (parseReplyAt buf).value.Ends buf.size) ∧
      (∀ running, (∀ e ∈ (processInputAt running buf).trace, e.Sound) ∧
        ∃ stop ≤ buf.size, (processInputAt running buf).value = some stop) ∧
      (∀ pending, (∀ e ∈ (readAt pending buf).trace, e.Sound ∨ e.IsRest) ∧
        ∃ stop ≤ buf.size, (readAt pending buf).value = some stop) := by
  have hrequest : ∀ w : StringView,
      Ensures (parseRequestAt w) Access.Sound fun out => out.Ends w.size := fun w =>
    (parseRequestAt_follows w).imp (fun _ => id) fun out hout => hout.ends
  have hreply : ∀ w : StringView, Safe Refused (parseReplyAt w) fun out => out.Ends w.size :=
    fun w => (parseReplyAtN_safe (w.size + 1) w (Nat.lt_succ_self _)).imp fun out hout => hout.ends
  -- the loop of `PeerChannel::read` does not tell a refused reply from another
  have hlenient : ∀ w : StringView,
      Ensures (parseReplyAt w) (fun e => e.Sound ∨ e.IsRest) fun out => out.Ends w.size := by
    intro w
    rcases hreply w with h | h
    · exact h.imp (fun e => Or.inl) fun _ => id
    · exact h.imp (fun _ => id) fun _ hout => hout.2
  refine ⟨hrequest buf, ⟨(hlenient buf).1, ?_, (hlenient buf).2⟩, ?_, ?_⟩
  · intro hne
    rcases hreply buf with h | h
    · exact h.1
    · exact absurd h.2.1 hne
  · intro running
    exact parseLoopAt_ensures (fun _ => id) hrequest buf _ 0 (Nat.zero_le _) (by omega)
  · intro pending
    exact parseLoopAt_ensures (fun _ => Or.inl) hlenient buf _ 0 (Nat.zero_le _) (by omega)

end ShardCache
