import Mathlib

/-!
# Calls and their replies

A component is called again and again: each call takes it to its next state and returns a reply. Two
components are compared by their replies to the same calls.

## Main definitions

* `replay call s inputs`: the state after the inputs, and the replies on the way

## Main results

* `replay_invariant`: what every call keeps, every sequence of calls keeps
* `replay_simulation`: components that stay related from call to call give related replies
* `replay_simulation_of_still`: the same, for calls that leave a counter as it is
-/

namespace Foundations

variable {σ τ ι ρ ρ' : Type}

/-- The state after the inputs, and the replies on the way. -/
def replay (call : σ → ι → σ × ρ) : σ → List ι → σ × List ρ
  | s, [] => (s, [])
  | s, i :: is => ((replay call (call s i).1 is).1, (call s i).2 :: (replay call (call s i).1 is).2)

variable {call : σ → ι → σ × ρ}

@[simp] theorem replay_nil (s : σ) : replay call s [] = (s, []) := rfl

@[simp] theorem replay_cons_state (s : σ) (i : ι) (is : List ι) :
    (replay call s (i :: is)).1 = (replay call (call s i).1 is).1 := rfl

@[simp] theorem replay_cons_replies (s : σ) (i : ι) (is : List ι) :
    (replay call s (i :: is)).2 = (call s i).2 :: (replay call (call s i).1 is).2 := rfl

theorem replay_append_state (s : σ) (is js : List ι) :
    (replay call s (is ++ js)).1 = (replay call (replay call s is).1 js).1 := by
  induction is generalizing s with
  | nil => rfl
  | cons i is ih => exact ih _

/-- **Invariant rule**: what every call keeps, every sequence of calls keeps. -/
theorem replay_invariant (call : σ → ι → σ × ρ) {I : σ → Prop}
    (hcall : ∀ s i, I s → I (call s i).1) {s : σ} (hs : I s) (is : List ι) :
    I (replay call s is).1 := by
  induction is generalizing s with
  | nil => exact hs
  | cons i is ih => exact ih (hcall s i hs)

/-- **Simulation rule**: two components are related, by a relation that can speak of the inputs still
to come. If every call keeps them related and gives related replies, then so does every sequence of
calls. -/
theorem replay_simulation (call : σ → ι → σ × ρ) (call' : τ → ι → τ × ρ')
    {R : List ι → σ → τ → Prop} {Q : ρ → ρ' → Prop}
    (hcall : ∀ i is s t, R (i :: is) s t →
      R is (call s i).1 (call' t i).1 ∧ Q (call s i).2 (call' t i).2)
    {is : List ι} {s : σ} {t : τ} (h : R is s t) :
    R [] (replay call s is).1 (replay call' t is).1 ∧
      List.Forall₂ Q (replay call s is).2 (replay call' t is).2 := by
  induction is generalizing s t with
  | nil => exact ⟨h, .nil⟩
  | cons i is ih =>
    obtain ⟨hR, hQ⟩ := hcall i is s t h
    exact ⟨(ih hR).1, .cons hQ (ih hR).2⟩

/-- **Simulation rule with a counter**: no call lowers the counter. If all calls together leave it
as it is, then so does each of them, and the components need only stay related over such calls. -/
theorem replay_simulation_of_still (call : σ → ι → σ × ρ) (call' : τ → ι → τ × ρ')
    {count : σ → ℕ} (hcount : ∀ s i, count s ≤ count (call s i).1) {R : σ → τ → Prop}
    {Q : ρ → ρ' → Prop}
    (hcall : ∀ i s t, R s t → count (call s i).1 = count s →
      R (call s i).1 (call' t i).1 ∧ Q (call s i).2 (call' t i).2)
    {is : List ι} {s : σ} {t : τ} (h : R s t) (hstill : count (replay call s is).1 = count s) :
    R (replay call s is).1 (replay call' t is).1 ∧
      List.Forall₂ Q (replay call s is).2 (replay call' t is).2 := by
  -- the relation also says that the calls still to come leave the counter as it is
  let R' (is : List ι) (s : σ) (t : τ) : Prop := R s t ∧ count (replay call s is).1 = count s
  have hstep : ∀ i is s t, R' (i :: is) s t →
      R' is (call s i).1 (call' t i).1 ∧ Q (call s i).2 (call' t i).2 := by
    rintro i is s t ⟨hR, hstill⟩
    rw [replay_cons_state] at hstill
    have hfirst := hcount s i
    have hrest : count (call s i).1 ≤ count (replay call (call s i).1 is).1 :=
      replay_invariant call (I := fun s' => count (call s i).1 ≤ count s')
        (fun s' i' h' => h'.trans (hcount s' i')) le_rfl is
    have hsame : count (call s i).1 = count s := by omega
    obtain ⟨hR', hQ⟩ := hcall i s t hR hsame
    exact ⟨⟨hR', hstill.trans hsame.symm⟩, hQ⟩
  obtain ⟨⟨hR, -⟩, hreplies⟩ := replay_simulation call call' (R := R') hstep ⟨h, hstill⟩
  exact ⟨hR, hreplies⟩

end Foundations
