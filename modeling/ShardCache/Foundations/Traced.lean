import Mathlib

/-!
# Computations with a record of their accesses

A computation over a buffer reads it by index and calculates with offsets. Recording each access as
it is made, together with what it is checked against, turns "all accesses are in bounds" into a
statement about the record, whatever value the computation returns.

## Main definitions

* `Traced ε α`: a value of type `α`, with the accesses that were made for it
* `Traced.Ensures m P Q`: every access of `m` satisfies `P`, and its value satisfies `Q`

## Main results

* `Traced.Ensures.bind`, `Traced.ensures_access_bind`: the rules for one computation after another
-/

namespace Foundations

/-- A value and the accesses that were made for it, in their order. -/
structure Traced (ε α : Type) where
  value : α
  trace : List ε

namespace Traced

variable {ε α β : Type}

instance : Monad (Traced ε) where
  pure a := ⟨a, []⟩
  bind m f := ⟨(f m.value).value, m.trace ++ (f m.value).trace⟩

/-- An access that gives `a`. -/
def access (e : ε) (a : α) : Traced ε α := ⟨a, [e]⟩

/-- Every access satisfies `P`, and the value satisfies `Q`. -/
def Ensures (m : Traced ε α) (P : ε → Prop) (Q : α → Prop) : Prop :=
  (∀ e ∈ m.trace, P e) ∧ Q m.value

variable {m : Traced ε α} {f : α → Traced ε β} {P P' : ε → Prop} {Q Q' : α → Prop} {R : β → Prop}
  {a : α} {e : ε}

theorem ensures_pure (h : Q a) : Ensures (pure a : Traced ε α) P Q :=
  ⟨fun _ he => absurd he List.not_mem_nil, h⟩

theorem Ensures.imp (h : Ensures m P Q) (hP : ∀ e, P e → P' e) (hQ : ∀ a, Q a → Q' a) :
    Ensures m P' Q' :=
  ⟨fun e he => hP e (h.1 e he), hQ _ h.2⟩

/-- **One computation after another.** -/
theorem Ensures.bind (hm : Ensures m P Q) (hf : ∀ a, Q a → Ensures (f a) P R) :
    Ensures (m >>= f) P R := by
  obtain ⟨htrace, hvalue⟩ := hm
  obtain ⟨htrace', hvalue'⟩ := hf _ hvalue
  refine ⟨?_, hvalue'⟩
  intro e he
  rcases List.mem_append.mp he with he | he
  · exact htrace e he
  · exact htrace' e he

theorem ensures_access_bind (he : P e) (hf : Ensures (f a) P R) :
    Ensures (access e a >>= f) P R := by
  refine Ensures.bind (Q := fun x => x = a) ⟨?_, rfl⟩ ?_
  · intro e' he'
    rwa [List.mem_singleton.mp he']
  · rintro x rfl
    exact hf

end Traced

end Foundations
