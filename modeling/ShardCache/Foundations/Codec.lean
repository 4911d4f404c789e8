import Mathlib

/-!
# Binary formats

A reader takes a value off the front of a buffer, or fails because the buffer is too short. What it
reads does not depend on what follows, so that the place where it stops is one of the text; and a
buffer that is too short can always be extended to one that is not. A checksum that is folded over
the bytes, one injective step for each, tells two files apart that differ in one byte.

## Main definitions

* `Reader`, `Reader.map`, `Reader.bind`: readers, and readers in a row
* `Reader.Stable`: what is read does not depend on what follows
* `Reader.Reads f w a`: `w` is read as `a`, whatever follows
* `Reader.Complete`: every text begins with a word that is read to its end, or begins one

## Main results

* `Reader.Stable.map`, `Reader.Stable.bind`, `Reader.Reads.map`, `Reader.Reads.bind`,
  `Reader.Complete.map`, `Reader.Complete.bind`: they pass from readers to readers in a row
* `parts_of_change`: a change in one place is a change of one part
* `foldl_ne_of_ne`: a fold of injective steps tells lists apart that differ in one place
-/

namespace Foundations

variable {α β γ σ : Type}

/-- A reader takes a value off the front of a buffer, and leaves the rest. -/
abbrev Reader (β α : Type) := List β → Option (α × List β)

namespace Reader

/-- Reads with `f`, and changes the value. -/
protected def map (k : α → γ) (f : Reader β α) : Reader β γ :=
  fun buf => (f buf).map fun x => (k x.1, x.2)

/-- Reads with `f`, and then with what `g` makes of the value. -/
protected def bind (f : Reader β α) (g : α → Reader β γ) : Reader β γ :=
  fun buf => (f buf).bind fun x => g x.1 x.2

/-- What the reader reads does not depend on what follows it. -/
def Stable (f : Reader β α) : Prop :=
  ∀ (buf : List β) (a : α) (rest more : List β), f buf = some (a, rest) →
    f (buf ++ more) = some (a, rest ++ more)

/-- `w` is read as `a`, whatever follows. -/
def Reads (f : Reader β α) (w : List β) (a : α) : Prop := ∀ more, f (w ++ more) = some (a, more)

/-- The reader fails only because the buffer is too short: every text begins with a word that is read
to its end, or goes on to be one. -/
def Complete (f : Reader β α) : Prop :=
  ∀ buf, ∃ (w : List β) (a : α), f w = some (a, []) ∧ (w <+: buf ∨ buf <+: w)

variable {f : Reader β α} {g : α → Reader β γ} {w w' : List β} {a : α} {c : γ}

theorem Stable.map (h : Stable f) (k : α → γ) : Stable (Reader.map k f) := by
  intro buf c rest more hread
  obtain ⟨⟨a, rest'⟩, hf, heq⟩ := Option.map_eq_some_iff.mp hread
  obtain ⟨rfl, rfl⟩ := Prod.mk.inj heq
  simp only [Reader.map, h buf a rest' more hf, Option.map_some]

theorem Stable.bind (h : Stable f) (hg : ∀ a, Stable (g a)) : Stable (Reader.bind f g) := by
  intro buf c rest more hread
  obtain ⟨⟨a, mid⟩, hf, hread⟩ := Option.bind_eq_some_iff.mp hread
  simp only [Reader.bind, h buf a mid more hf, Option.bind_some]
  exact hg a mid c rest more hread

theorem Reads.map (h : Reads f w a) (k : α → γ) : Reads (Reader.map k f) w (k a) := by
  intro more
  simp only [Reader.map, h more, Option.map_some]

theorem Reads.bind (h : Reads f w a) (hg : Reads (g a) w' c) :
    Reads (Reader.bind f g) (w ++ w') c := by
  intro more
  simp only [Reader.bind, List.append_assoc, h (w' ++ more), Option.bind_some]
  exact hg more

theorem Complete.map (h : Complete f) (k : α → γ) : Complete (Reader.map k f) := by
  intro buf
  obtain ⟨w, a, hw, hbuf⟩ := h buf
  exact ⟨w, k a, by simp only [Reader.map, hw, Option.map_some], hbuf⟩

theorem Complete.bind (h : Complete f) (hf : Stable f) (hg : ∀ a, Complete (g a)) :
    Complete (Reader.bind f g) := by
  intro buf
  obtain ⟨w, a, hw, hbuf⟩ := h buf
  have hread {w' : List β} {c : γ} (hw' : g a w' = some (c, [])) :
      Reader.bind f g (w ++ w') = some (c, []) := by
    simp only [Reader.bind, hf w a [] w' hw, Option.bind_some, List.nil_append, hw']
  obtain ⟨rest, rfl⟩ | hpart := hbuf
  · -- the second reader goes on with what the first one has left
    obtain ⟨w', c, hw', hrest⟩ := hg a rest
    refine ⟨w ++ w', c, hread hw', ?_⟩
    rwa [List.prefix_append_right_inj, List.prefix_append_right_inj]
  · obtain ⟨w', c, hw', -⟩ := hg a []
    exact ⟨w ++ w', c, hread hw', .inr (hpart.trans (List.prefix_append w w'))⟩

end Reader

/-! ## Changes in one place -/

/-- Texts of two parts, of which the second are as long, that differ in one place differ in one
place of one of the parts. -/
theorem parts_of_change {w w' s s' before after : List β} {b b' : β}
    (hlen : s.length = s'.length) (h : w ++ s = before ++ b :: after)
    (h' : w' ++ s' = before ++ b' :: after) :
    (∃ mid, w = before ++ b :: mid ∧ w' = before ++ b' :: mid ∧ s = s') ∨
      ∃ mid, w = w' ∧ s = mid ++ b :: after ∧ s' = mid ++ b' :: after := by
  rcases List.append_eq_append_iff.mp h with ⟨mid, rfl, rfl⟩ | ⟨mid, rfl, hmid⟩
  · -- the place is in the second part
    rw [List.append_assoc] at h'
    obtain ⟨rfl, rfl⟩ := List.append_inj' h' (by simpa using hlen.symm)
    exact Or.inr ⟨mid, rfl, rfl, rfl⟩
  · cases mid with
    | nil =>
      rw [List.nil_append] at hmid
      obtain ⟨rfl, rfl⟩ := List.append_inj' h' (by rw [← hlen, ← hmid]; simp)
      exact Or.inr ⟨[], by simp, hmid.symm, rfl⟩
    | cons c mid =>
      -- the place is in the first part
      rw [List.cons_append] at hmid
      obtain ⟨rfl, rfl⟩ := List.cons.inj hmid
      rw [← List.cons_append, ← List.append_assoc] at h'
      obtain ⟨rfl, rfl⟩ := List.append_inj' h' hlen.symm
      exact Or.inl ⟨mid, rfl, rfl, rfl⟩

/-! ## Checksums -/

theorem foldl_injective {step : σ → β → σ} (hstate : ∀ b, Function.Injective fun s => step s b)
    (l : List β) : Function.Injective fun s => l.foldl step s := by
  induction l with
  | nil => exact Function.injective_id
  | cons b l ih => exact ih.comp (hstate b)

/-- **A fold of injective steps tells lists apart that differ in one place.** -/
theorem foldl_ne_of_ne {step : σ → β → σ} (hstate : ∀ b, Function.Injective fun s => step s b)
    (hbyte : ∀ s, Function.Injective (step s)) (l l' : List β) {b b' : β} (hne : b ≠ b') (s : σ) :
    (l ++ b :: l').foldl step s ≠ (l ++ b' :: l').foldl step s := by
  simp only [List.foldl_append, List.foldl_cons]
  intro heq
  exact hne (hbyte _ (foldl_injective hstate l' heq))

end Foundations
