import Mathlib.Data.Option.Basic

/-!
# Mutexes

A mutex records its owner, and where a thread is in its code says whether it is between a lock and
the unlock. `Owned` says that the two agree. It makes the threads that hold the mutex one thread,
and is kept by a step that locks, by one that unlocks and by one that does neither.

## Main definitions

* `Owned owner held phase`: the owner is the thread that holds the mutex

## Main results

* `Owned.exclusive`: one thread holds the mutex
* `Owned.lock`, `Owned.unlock`, `Owned.keep`: what a step of one thread does
-/

namespace Foundations

variable {τ φ : Type} {owner : Option τ} {held : φ → Prop} {phase phase' : τ → φ} {t u : τ}

/-- The recorded owner is the thread that is where the mutex is held. -/
def Owned (owner : Option τ) (held : φ → Prop) (phase : τ → φ) : Prop :=
  ∀ t, owner = some t ↔ held (phase t)

theorem Owned.exclusive (h : Owned owner held phase) (ht : held (phase t))
    (hu : held (phase u)) : t = u :=
  Option.some.inj (((h t).mpr ht).symm.trans ((h u).mpr hu))

theorem Owned.not_held (h : Owned none held phase) : ¬held (phase t) :=
  fun ht => nomatch (h t).mpr ht

/-- A step of `t` that neither locks nor unlocks. -/
theorem Owned.keep (h : Owned owner held phase) (t : τ)
    (ht : held (phase' t) ↔ held (phase t)) (hothers : ∀ u, u ≠ t → phase' u = phase u) :
    Owned owner held phase' := by
  intro u
  by_cases hu : u = t
  · subst hu
    exact (h u).trans ht.symm
  · rw [hothers u hu]
    exact h u

/-- `t` locks the mutex, which was free. -/
theorem Owned.lock (h : Owned owner held phase) (hfree : owner = none) (t : τ)
    (ht : held (phase' t)) (hothers : ∀ u, u ≠ t → phase' u = phase u) :
    Owned (some t) held phase' := by
  subst hfree
  intro u
  by_cases hu : u = t
  · subst hu
    simpa using ht
  · rw [hothers u hu]
    simpa [h.not_held] using Ne.symm hu

/-- `t`, which held the mutex, unlocks it. -/
theorem Owned.unlock (h : Owned owner held phase) (t : τ) (ht : held (phase t))
    (hnot : ¬held (phase' t)) (hothers : ∀ u, u ≠ t → phase' u = phase u) :
    Owned none held phase' := by
  intro u
  by_cases hu : u = t
  · subst hu
    simpa using hnot
  · have hother : ¬held (phase u) := fun hheld => hu (h.exclusive hheld ht)
    rw [hothers u hu]
    simpa using hother

/-- A step of `t` leaves the other threads where they are. -/
theorem exists_phase_of_step {P : φ → Prop} (h : ∃ u, P (phase u)) (t : τ)
    (ht : P (phase t) → P (phase' t)) (hothers : ∀ u, u ≠ t → phase' u = phase u) :
    ∃ u, P (phase' u) := by
  obtain ⟨u, hu⟩ := h
  by_cases hut : u = t
  · subst hut
    exact ⟨u, ht hu⟩
  · exact ⟨u, hothers u hut ▸ hu⟩

end Foundations
