import Mathlib

/-!
# Failure detection with hysteresis

A detector sees a history of outcomes, `true` for a success. It reports a failure after `fall`
failures in a row, and takes the report back after `rise` successes in a row. Whether it reports a
failure depends on the whole history, but one more outcome changes it only through the length of the
run of equal outcomes at the end.

## Main definitions

* `Down fall rise h`: the history has `fall` failures in a row that are not followed by `rise`
  successes in a row
* `trailing b h`: the length of the run of outcomes `b` at the end of the history

## Main results

* `down_append_true`, `down_append_false`: one more outcome
-/

namespace Foundations.Hysteresis

variable {fall rise n : ℕ} {h : List Bool} {b : Bool}

/-- Somewhere in the history there are `fall` failures in a row, and no `rise` successes in a row
after them. -/
def Down (fall rise : ℕ) (h : List Bool) : Prop :=
  ∃ before after, h = before ++ List.replicate fall false ++ after ∧
    ¬List.replicate rise true <:+: after

/-- The length of the run of outcomes `b` at the end of the history. -/
def trailing (b : Bool) (h : List Bool) : ℕ := (h.reverse.takeWhile (· = b)).length

@[simp] theorem trailing_nil (b : Bool) : trailing b [] = 0 := rfl

@[simp] theorem trailing_append_same (b : Bool) (h : List Bool) :
    trailing b (h ++ [b]) = trailing b h + 1 := by
  simp [trailing]

theorem trailing_append_of_ne {a : Bool} (hne : a ≠ b) (h : List Bool) :
    trailing b (h ++ [a]) = 0 := by
  simp [trailing, hne]

/-- The run at the end is the longest one. -/
theorem replicate_suffix_iff : List.replicate n b <:+ h ↔ n ≤ trailing b h := by
  rw [← List.reverse_prefix, List.reverse_replicate, trailing]
  constructor
  · rintro ⟨rest, hrest⟩
    rw [← hrest, List.takeWhile_append_of_pos (by simp)]
    simp
  · intro hle
    have hrun : h.reverse.takeWhile (· = b) =
        List.replicate (h.reverse.takeWhile (· = b)).length b := by
      rw [List.eq_replicate_iff]
      exact ⟨rfl, fun a ha => by simpa using List.mem_takeWhile_imp ha⟩
    refine List.IsPrefix.trans ?_ (List.takeWhile_prefix (· = b))
    rw [hrun]
    exact List.prefix_replicate_iff.mpr ⟨by simpa using hle, by simp⟩

/-- The run of successes at the end does not reach over a failure. -/
theorem trailing_true_append (hfall : 0 < fall) (before after : List Bool) :
    trailing true (before ++ List.replicate fall false ++ after) = trailing true after := by
  have hfailure : (List.replicate fall false ++ before.reverse).takeWhile (· = true) = [] := by
    obtain ⟨m, rfl⟩ := Nat.exists_eq_succ_of_ne_zero hfall.ne'
    simp [List.replicate_succ]
  rw [trailing, trailing, List.append_assoc, List.reverse_append, List.reverse_append,
    List.reverse_replicate, List.append_assoc, List.takeWhile_append, hfailure, List.append_nil]
  split
  · rename_i hall
    exact hall.symm
  · rfl

theorem not_down_nil (hfall : 0 < fall) : ¬Down fall rise [] := by
  rintro ⟨before, after, h, -⟩
  have hlength := congrArg List.length h
  simp at hlength
  omega

/-- One more success keeps the report, unless it completes a run. -/
theorem down_append_true (hfall : 0 < fall) :
    Down fall rise (h ++ [true]) ↔ Down fall rise h ∧ trailing true h + 1 < rise := by
  constructor
  · rintro ⟨before, after, heq, hafter⟩
    rw [← trailing_append_same, heq, trailing_true_append hfall, ← not_le, ← replicate_suffix_iff]
    refine ⟨?_, fun hsuffix => hafter hsuffix.isInfix⟩
    -- the success comes after the failures
    rcases List.eq_nil_or_concat after with rfl | ⟨after, last, rfl⟩
    · obtain ⟨m, rfl⟩ := Nat.exists_eq_succ_of_ne_zero hfall.ne'
      rw [List.append_nil, List.replicate_succ', ← List.append_assoc] at heq
      exact absurd (List.append_inj_right' heq rfl) (by simp)
    · rw [List.concat_eq_append] at hafter heq
      rw [← List.append_assoc] at heq
      exact ⟨before, after, List.append_inj_left' heq rfl,
        fun hinfix => hafter (List.infix_concat_iff.mpr (Or.inr hinfix))⟩
  · rintro ⟨⟨before, after, rfl, hafter⟩, hrun⟩
    refine ⟨before, after ++ [true], by simp, ?_⟩
    rw [List.infix_concat_iff, replicate_suffix_iff, trailing_append_same,
      ← trailing_true_append hfall before after]
    rintro (hle | hinfix)
    · omega
    · exact hafter hinfix

/-- One more failure keeps the report, or completes a run. -/
theorem down_append_false (hrise : 0 < rise) :
    Down fall rise (h ++ [false]) ↔ Down fall rise h ∨ fall ≤ trailing false h + 1 := by
  rw [← trailing_append_same, ← replicate_suffix_iff]
  constructor
  · rintro ⟨before, after, heq, hafter⟩
    rcases List.eq_nil_or_concat after with rfl | ⟨after, last, rfl⟩
    · rw [List.append_nil] at heq
      exact Or.inr ⟨before, heq.symm⟩
    · rw [List.concat_eq_append] at hafter heq
      rw [← List.append_assoc] at heq
      exact Or.inl ⟨before, after, List.append_inj_left' heq rfl,
        fun hinfix => hafter (List.infix_concat_iff.mpr (Or.inr hinfix))⟩
  · rintro (⟨before, after, rfl, hafter⟩ | ⟨before, heq⟩)
    · refine ⟨before, after ++ [false], by simp, ?_⟩
      rw [List.infix_concat_iff, replicate_suffix_iff, trailing_append_of_ne (by decide)]
      rintro (hle | hinfix)
      · omega
      · exact hafter hinfix
    · refine ⟨before, [], by rw [List.append_nil, heq], ?_⟩
      rw [List.infix_nil, List.replicate_eq_nil_iff]
      exact hrise.ne'

end Foundations.Hysteresis
