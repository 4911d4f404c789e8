import Mathlib

/-!
# Decoders of a stream

A stream arrives in pieces, and a decoder is applied to what has arrived so far. It takes one value
off the front of the buffer, asks for more, or gives up. What it decides on a buffer it decides on
every longer buffer: the pieces in which a stream arrives then do not matter.

## Main definitions

* `Parsed`: what is made of a buffer
* `Decoder`: a decoder, with the proof that more input does not change its decisions
* `Decoder.peek`, `Decoder.take`, `Decoder.fail`, `Decoder.times` and the monad of decoders
* `Decoder.Whole d a w`: `w` is one value `a`, and nothing more
* `Decoder.Delimited d`: the bytes that `d` takes are a value on their own
* `Takes parse buf values rest`: `parse` takes `values` off the front of `buf`, one by one

## Main results

* `Decoder.Whole.parse_append`: a value is decoded whatever follows it
* `Decoder.Whole.incomplete`, `Decoder.Whole.parse_part`: a decoder waits for the end of a value
* `Decoder.times_eq_ok_iff`, `Takes.exists_pieces`: values are taken from pieces of the buffer
* `Decoder.takes_flatten`: values sent one after the other are decoded one after the other
-/

namespace Foundations

/-- What is made of a buffer: a value and what follows it, a request for more, or an error. -/
inductive Parsed (β ε α : Type) where
  | ok (value : α) (rest : List β)
  | incomplete
  | error (e : ε)
deriving DecidableEq, Repr

/-- A decoder of a stream of `β`. It keeps its decisions when the buffer grows. -/
structure Decoder (β ε α : Type) where
  parse : List β → Parsed β ε α
  suffix : ∀ {buf a rest}, parse buf = .ok a rest → rest <:+ buf
  ok_append : ∀ {buf a rest} (more : List β), parse buf = .ok a rest →
    parse (buf ++ more) = .ok a (rest ++ more)
  error_append : ∀ {buf e} (more : List β), parse buf = .error e → parse (buf ++ more) = .error e

namespace Decoder

variable {β ε α γ : Type}

/-! ## Combinators -/

/-- Takes nothing. -/
protected def pure (a : α) : Decoder β ε α where
  parse buf := .ok a buf
  suffix h := by
    cases h
    exact List.suffix_rfl
  ok_append more h := by
    cases h
    rfl
  error_append more h := nomatch h

/-- Gives up. -/
def fail (e : ε) : Decoder β ε α where
  parse _ := .error e
  suffix h := nomatch h
  ok_append _ h := nomatch h
  error_append _ h := h

/-- Decodes with `d`, and what follows with what `f` makes of the value. -/
protected def bind (d : Decoder β ε α) (f : α → Decoder β ε γ) : Decoder β ε γ where
  parse buf :=
    match d.parse buf with
    | .ok a rest => (f a).parse rest
    | .incomplete => .incomplete
    | .error e => .error e
  suffix {buf c rest} h := by
    cases hd : d.parse buf with
    | ok a mid =>
      simp only [hd] at h
      exact ((f a).suffix h).trans (d.suffix hd)
    | incomplete => simp [hd] at h
    | error e => simp [hd] at h
  ok_append {buf c rest} more h := by
    cases hd : d.parse buf with
    | ok a mid =>
      simp only [hd] at h
      simp only [d.ok_append more hd, (f a).ok_append more h]
    | incomplete => simp [hd] at h
    | error e => simp [hd] at h
  error_append {buf e} more h := by
    cases hd : d.parse buf with
    | ok a mid =>
      simp only [hd] at h
      simp only [d.ok_append more hd, (f a).error_append more h]
    | incomplete => simp [hd] at h
    | error e' =>
      simp only [hd, Parsed.error.injEq] at h
      simp only [d.error_append more hd, h]

instance : Monad (Decoder β ε) where
  pure := Decoder.pure
  bind := Decoder.bind

/-- The first element, which stays in the buffer. -/
def peek : Decoder β ε β where
  parse
    | [] => .incomplete
    | b :: buf => .ok b (b :: buf)
  suffix {buf a rest} h := by
    cases buf with
    | nil => cases h
    | cons b buf =>
      cases h
      exact List.suffix_rfl
  ok_append {buf a rest} more h := by
    cases buf with
    | nil => cases h
    | cons b buf =>
      cases h
      rfl
  error_append {buf e} more h := by
    cases buf with
    | nil => cases h
    | cons b buf => cases h

/-- The first `n` elements. -/
def take (n : ℕ) : Decoder β ε (List β) where
  parse buf := if buf.length < n then .incomplete else .ok (buf.take n) (buf.drop n)
  suffix {buf a rest} h := by
    split at h
    · cases h
    · cases h
      exact List.drop_suffix n buf
  ok_append {buf a rest} more h := by
    split at h
    · cases h
    · rename_i hlen
      cases h
      have hle : n ≤ buf.length := not_lt.mp hlen
      rw [if_neg (by simp; omega), List.take_append_of_le_length hle,
        List.drop_append_of_le_length hle]
  error_append {buf e} more h := by
    split at h <;> cases h

/-- `n` values in a row. -/
def times (d : Decoder β ε α) : ℕ → Decoder β ε (List α)
  | 0 => pure []
  | n + 1 => do
    let a ← d
    let as ← d.times n
    pure (a :: as)

/-! ## How combinators decode -/

variable {d : Decoder β ε α} {f : α → Decoder β ε γ} {buf rest : List β} {a : α} {e : ε}

@[simp] theorem parse_pure (a : α) (buf : List β) :
    (pure a : Decoder β ε α).parse buf = .ok a buf := rfl

@[simp] theorem parse_fail (e : ε) (buf : List β) :
    (fail e : Decoder β ε α).parse buf = .error e := rfl

theorem parse_bind (d : Decoder β ε α) (f : α → Decoder β ε γ) (buf : List β) :
    (d >>= f).parse buf =
      match d.parse buf with
      | .ok a rest => (f a).parse rest
      | .incomplete => .incomplete
      | .error e => .error e := rfl

theorem parse_bind_ok (h : d.parse buf = .ok a rest) : (d >>= f).parse buf = (f a).parse rest := by
  simp only [parse_bind, h]

theorem parse_bind_eq_ok {c : γ} :
    (d >>= f).parse buf = .ok c rest ↔
      ∃ a mid, d.parse buf = .ok a mid ∧ (f a).parse mid = .ok c rest := by
  rw [parse_bind]
  cases h : d.parse buf with
  | ok a mid => simp
  | incomplete => simp
  | error e => simp

theorem parse_bind_eq_incomplete :
    (d >>= f).parse buf = .incomplete ↔
      d.parse buf = .incomplete ∨
        ∃ a mid, d.parse buf = .ok a mid ∧ (f a).parse mid = .incomplete := by
  rw [parse_bind]
  cases h : d.parse buf with
  | ok a mid => simp
  | incomplete => simp
  | error e => simp

@[simp] theorem parse_peek_cons (b : β) (buf : List β) :
    (peek : Decoder β ε β).parse (b :: buf) = .ok b (b :: buf) := rfl

theorem parse_take_append (xs more : List β) :
    (take xs.length : Decoder β ε (List β)).parse (xs ++ more) = .ok xs more := by
  simp [take]

/-- Decoders that agree on the buffers up to a length decode the same values from them. -/
theorem times_congr {d' : Decoder β ε α} {n : ℕ}
    (h : ∀ rest : List β, rest.length ≤ buf.length → d.parse rest = d'.parse rest) :
    (d.times n).parse buf = (d'.times n).parse buf := by
  -- Induction on the values left; each leaves no more than the buffer.
  induction n generalizing buf with
  | zero => rfl
  | succ n ih =>
    rw [times, times, parse_bind, parse_bind, ← h buf le_rfl]
    cases hd : d.parse buf with
    | incomplete => rfl
    | error e => rfl
    | ok a rest =>
      have hle : rest.length ≤ buf.length := (d.suffix hd).length_le
      simp only
      rw [parse_bind, parse_bind, ih fun rest' hle' => h rest' (hle'.trans hle)]

/-! ## Values -/

/-- `w` is one value `a`. -/
def Whole (d : Decoder β ε α) (a : α) (w : List β) : Prop := d.parse w = .ok a []

instance [DecidableEq β] [DecidableEq ε] [DecidableEq α] (d : Decoder β ε α) (a : α) (w : List β) :
    Decidable (d.Whole a w) := inferInstanceAs (Decidable (_ = _))

variable {w : List β}

/-- A value is decoded whatever follows it. -/
theorem Whole.parse_append (h : d.Whole a w) (more : List β) : d.parse (w ++ more) = .ok a more :=
  d.ok_append more h

/-- **A decoder waits for the end of a value.** -/
theorem Whole.incomplete (h : d.Whole a w) {more : List β} (hw : w = buf ++ more)
    (hne : more ≠ []) : d.parse buf = .incomplete := by
  subst hw
  cases hd : d.parse buf with
  | ok b rest =>
    -- it would leave `more` behind the value
    have heq : Parsed.ok b (rest ++ more) = Parsed.ok a [] := (d.ok_append more hd).symm.trans h
    simp [hne] at heq
  | incomplete => rfl
  | error e => exact absurd ((d.error_append more hd).symm.trans h) (by simp)

/-- **A decoder on a part of a stream** that starts with a value takes the value or waits for its
end. -/
theorem Whole.parse_part (h : d.Whole a w) {tail : List β} (hbuf : buf <+: w ++ tail) :
    d.parse buf = .incomplete ∨ ∃ rest, buf = w ++ rest ∧ rest <+: tail ∧ d.parse buf = .ok a rest := by
  rcases List.prefix_or_prefix_of_prefix (List.prefix_append w tail) hbuf with hle | ⟨more, hw⟩
  · -- the value has arrived
    obtain ⟨rest, rfl⟩ := hle
    exact Or.inr ⟨rest, rfl, (List.prefix_append_right_inj w).mp hbuf, h.parse_append rest⟩
  · -- only a part of the value has arrived, or just the value
    by_cases hmore : more = []
    · obtain rfl : buf = w := by simpa [hmore] using hw
      exact Or.inr ⟨[], by simp, List.nil_prefix, h⟩
    · exact Or.inl (h.incomplete hw.symm hmore)

/-- What a decoder takes is a value on its own: it does not look at what follows. -/
def Delimited (d : Decoder β ε α) : Prop :=
  ∀ {buf a rest}, d.parse buf = .ok a rest → ∃ w, buf = w ++ rest ∧ d.Whole a w

theorem Delimited.times (hd : d.Delimited) (n : ℕ) : (d.times n).Delimited := by
  induction n with
  | zero =>
    intro buf as rest h
    cases h
    exact ⟨[], rfl, rfl⟩
  | succ n ih =>
    intro buf as rest h
    obtain ⟨a, mid, ha, h⟩ := parse_bind_eq_ok.mp h
    obtain ⟨as', left, has, h⟩ := parse_bind_eq_ok.mp h
    cases h
    obtain ⟨w, rfl, hw⟩ := hd ha
    obtain ⟨ws, rfl, hws⟩ := ih has
    refine ⟨w ++ ws, (List.append_assoc _ _ _).symm, ?_⟩
    rw [Whole, Decoder.times, parse_bind_ok (hw.parse_append ws), parse_bind_ok hws]
    rfl

theorem exists_whole_iff {P : Prop} [Decidable P]
    (h : d.parse w = if P then .ok a [] else .error e) : (∃ v, d.Whole v w) ↔ P := by
  constructor
  · rintro ⟨v, hv⟩
    by_contra hP
    rw [if_neg hP] at h
    exact absurd (h.symm.trans hv) (by simp)
  · intro hP
    exact ⟨a, h.trans (if_pos hP)⟩

end Decoder

/-! ## Values in a row -/

variable {β ε α : Type} {parse : List β → Parsed β ε α}

/-- `parse` takes the values off the front of the buffer, one by one, and leaves the rest. -/
inductive Takes (parse : List β → Parsed β ε α) : List β → List α → List β → Prop where
  | nil (buf : List β) : Takes parse buf [] buf
  | cons {buf mid rest : List β} {a : α} {as : List α} (head : parse buf = .ok a mid)
      (tail : Takes parse mid as rest) : Takes parse buf (a :: as) rest

/-- **Values sent one after the other are decoded one after the other.** -/
theorem Decoder.takes_flatten {d : Decoder β ε α} {as : List α} {ws : List (List β)}
    (h : List.Forall₂ d.Whole as ws) (more : List β) :
    Takes d.parse (ws.flatten ++ more) as more := by
  induction h with
  | nil => exact .nil more
  | cons hw _ ih =>
    refine .cons ?_ ih
    rw [List.flatten_cons, List.append_assoc]
    exact hw.parse_append _

/-- A value, and values behind it. -/
theorem Decoder.times_succ_eq_ok_iff {d : Decoder β ε α} {n : ℕ} {buf rest : List β}
    {as : List α} :
    (d.times (n + 1)).parse buf = .ok as rest ↔
      ∃ a mid as', as = a :: as' ∧ d.parse buf = .ok a mid ∧ (d.times n).parse mid = .ok as' rest := by
  simp only [times, parse_bind_eq_ok]
  constructor
  · rintro ⟨a, mid, ha, as', mid', has, h⟩
    cases h
    exact ⟨a, mid, as', rfl, ha, has⟩
  · rintro ⟨a, mid, as', rfl, ha, has⟩
    exact ⟨a, mid, ha, as', rest, has, rfl⟩

/-- `times` takes values one by one. -/
theorem Decoder.times_eq_ok_iff {d : Decoder β ε α} {n : ℕ} {buf rest : List β} {as : List α} :
    (d.times n).parse buf = .ok as rest ↔ as.length = n ∧ Takes d.parse buf as rest := by
  induction n generalizing buf as with
  | zero =>
    constructor
    · intro h
      cases h
      exact ⟨rfl, .nil rest⟩
    · rintro ⟨hlen, h⟩
      cases h with
      | nil => rfl
      | cons => cases hlen
  | succ n ih =>
    rw [times_succ_eq_ok_iff]
    constructor
    · rintro ⟨a, mid, as', rfl, ha, has⟩
      obtain ⟨hlen, has⟩ := ih.mp has
      exact ⟨by rw [List.length_cons, hlen], .cons ha has⟩
    · rintro ⟨hlen, h⟩
      cases h with
      | nil => cases hlen
      | cons ha has => exact ⟨_, _, _, rfl, ha, ih.mpr ⟨Nat.succ.inj hlen, has⟩⟩

/-- `times` waits for the end of one of the values. -/
theorem Decoder.times_eq_incomplete_iff {d : Decoder β ε α} {n : ℕ} {buf : List β} :
    (d.times n).parse buf = .incomplete ↔
      ∃ k < n, ∃ as mid, (d.times k).parse buf = .ok as mid ∧ d.parse mid = .incomplete := by
  induction n generalizing buf with
  | zero =>
    constructor
    · intro h
      cases h
    · rintro ⟨k, hk, -⟩
      omega
  | succ n ih =>
    rw [times, parse_bind_eq_incomplete]
    constructor
    · rintro (hfirst | ⟨a, mid, ha, h⟩)
      · exact ⟨0, Nat.succ_pos n, [], buf, rfl, hfirst⟩
      · rw [parse_bind_eq_incomplete] at h
        rcases h with hlater | ⟨as, left, -, hpure⟩
        · obtain ⟨k, hk, as, left, has, hleft⟩ := ih.mp hlater
          exact ⟨k + 1, by omega, a :: as, left,
            times_succ_eq_ok_iff.mpr ⟨a, mid, as, rfl, ha, has⟩, hleft⟩
        · cases hpure
    · rintro ⟨k, hk, as, left, has, hleft⟩
      cases k with
      | zero =>
        cases has
        exact Or.inl hleft
      | succ k =>
        obtain ⟨a, mid, as', -, ha, has⟩ := times_succ_eq_ok_iff.mp has
        refine Or.inr ⟨a, mid, ha, ?_⟩
        rw [parse_bind_eq_incomplete]
        exact Or.inl (ih.mpr ⟨k, by omega, as', left, has, hleft⟩)

/-- The buffer is made of the pieces from which the values are taken, and the rest. -/
theorem Takes.exists_pieces {Q : List β → Prop} {buf rest : List β} {as : List α}
    (h : Takes parse buf as rest)
    (hparse : ∀ part a left, part.length ≤ buf.length → parse part = .ok a left →
      ∃ w, part = w ++ left ∧ Q w) :
    ∃ ws : List (List β), ws.length = as.length ∧ buf = ws.flatten ++ rest ∧ ∀ w ∈ ws, Q w := by
  induction h with
  | nil buf => exact ⟨[], rfl, rfl, by simp⟩
  | @cons buf mid rest a as ha _ ih =>
    obtain ⟨w, hbuf, hw⟩ := hparse buf a mid le_rfl ha
    -- what is left is no longer than the buffer
    have hle : mid.length ≤ buf.length := by simp [hbuf]
    obtain ⟨ws, hws, hmid, hall⟩ := ih fun part a left hpart =>
      hparse part a left (hpart.trans hle)
    refine ⟨w :: ws, by simp [hws], ?_, List.forall_mem_cons.mpr ⟨hw, hall⟩⟩
    rw [hbuf, hmid, List.flatten_cons, List.append_assoc]

/-- Values that were encoded are read back if each of them is, and refused if one of them is. -/
theorem Decoder.times_encode {d : Decoder β ε α} {γ : Type} {encode : γ → List β} {value : γ → α}
    {P : γ → Prop} [DecidablePred P] {e : ε}
    (h : ∀ c more, d.parse (encode c ++ more) = if P c then .ok (value c) more else .error e)
    (cs : List γ) (more : List β) :
    (d.times cs.length).parse ((cs.map encode).flatten ++ more) =
      if ∀ c ∈ cs, P c then .ok (cs.map value) more else .error e := by
  -- Induction on the values: the first that is refused ends the list.
  induction cs with
  | nil => simp [times]
  | cons c cs ih =>
    have hcons : (∀ b ∈ c :: cs, P b) ↔ P c ∧ ∀ b ∈ cs, P b := List.forall_mem_cons
    rw [List.map_cons, List.flatten_cons, List.append_assoc, List.length_cons, times, parse_bind, h]
    by_cases hc : P c
    · simp only [if_pos hc]
      rw [parse_bind, ih]
      by_cases hcs : ∀ b ∈ cs, P b
      · rw [if_pos hcs, if_pos (hcons.mpr ⟨hc, hcs⟩)]
        rfl
      · rw [if_neg hcs, if_neg fun hall => hcs (hcons.mp hall).2]
    · simp only [if_neg hc]
      rw [if_neg fun hall => hc (hcons.mp hall).1]

end Foundations
