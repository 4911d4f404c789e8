import Mathlib

/-!
# The newest of several entries

A table slot that keeps the entry of the highest rank does not depend on the order in which entries
come, nor on how often, provided that no two entries share a rank: it holds the newest entry of all.

## Main definitions

* `keepNewer rank o a`: the slot `o` after the entry `a`
* `IsNewest rank S o`: `o` is the entry of the highest rank in `S`

## Main results

* `isNewest_foldl_keepNewer`: a slot holds the newest of what was there and of what came
* `IsNewest.unique`: there is only one, if no two entries share a rank
* `IsNewest.eq_some_iff`: which one it is
-/

namespace Foundations

variable {α γ : Type} [LinearOrder γ] {rank : α → γ} {S : Set α} {o o' : Option α} {a : α}

/-- Keeps the entry of the higher rank. -/
def keepNewer (rank : α → γ) : Option α → α → Option α
  | none, a => some a
  | some known, a => if rank known < rank a then some a else some known

/-- `o` is an entry of the highest rank in `S`, and none if `S` is empty. -/
structure IsNewest (rank : α → γ) (S : Set α) (o : Option α) : Prop where
  mem : ∀ a, o = some a → a ∈ S
  le : ∀ b ∈ S, ∃ a, o = some a ∧ rank b ≤ rank a

theorem keepNewer_some (known a : α) :
    keepNewer rank (some known) a = if rank known < rank a then some a else some known := rfl

theorem IsNewest.insert (h : IsNewest rank S o) (a : α) :
    IsNewest rank (Insert.insert a S) (keepNewer rank o a) := by
  cases o with
  | none =>
    -- nothing was kept, so there was nothing
    have hempty (b : α) : b ∉ S := by
      intro hb
      obtain ⟨c, hc, -⟩ := h.le b hb
      cases hc
    refine ⟨?_, ?_⟩
    · intro b hb
      exact Or.inl (Option.some.inj hb).symm
    · rintro b (rfl | hb)
      · exact ⟨b, rfl, le_rfl⟩
      · exact absurd hb (hempty b)
  | some known =>
    rw [keepNewer_some]
    split
    · -- the new entry is kept
      rename_i hlt
      refine ⟨?_, ?_⟩
      · intro b hb
        exact Or.inl (Option.some.inj hb).symm
      · rintro b (rfl | hb)
        · exact ⟨b, rfl, le_rfl⟩
        · obtain ⟨c, hc, hle⟩ := h.le b hb
          obtain rfl := Option.some.inj hc
          exact ⟨a, rfl, hle.trans hlt.le⟩
    · -- the known entry is at least as new
      rename_i hle
      refine ⟨?_, ?_⟩
      · intro b hb
        exact Or.inr (h.mem b hb)
      · rintro b (rfl | hb)
        · exact ⟨known, rfl, not_lt.mp hle⟩
        · exact h.le b hb

/-- **A slot holds the newest entry** of what was there and of what came. -/
theorem isNewest_foldl_keepNewer (h : IsNewest rank S o) (l : List α) :
    IsNewest rank (S ∪ { a | a ∈ l }) (l.foldl (keepNewer rank) o) := by
  induction l generalizing S o with
  | nil => simpa using h
  | cons a l ih =>
    have hset : S ∪ { b | b ∈ a :: l } = insert a S ∪ { b | b ∈ l } := by
      ext b
      simp only [Set.mem_union, Set.mem_insert_iff, Set.mem_ofPred_eq, List.mem_cons]
      tauto
    rw [hset, List.foldl_cons]
    exact ih (h.insert a)

/-- **Which entry is the newest**, if no two share a rank. -/
theorem IsNewest.eq_some_iff (h : IsNewest rank S o) (hrank : S.InjOn rank) :
    o = some a ↔ a ∈ S ∧ ∀ b ∈ S, rank b ≤ rank a := by
  constructor
  · rintro rfl
    refine ⟨h.mem a rfl, fun b hb => ?_⟩
    obtain ⟨c, hc, hle⟩ := h.le b hb
    rwa [Option.some.inj hc]
  · rintro ⟨ha, hmax⟩
    obtain ⟨c, rfl, hle⟩ := h.le a ha
    have hc := h.mem c rfl
    rw [hrank hc ha (le_antisymm (hmax c hc) hle)]

/-- **There is only one newest entry**, if no two share a rank. -/
theorem IsNewest.unique (h : IsNewest rank S o) (h' : IsNewest rank S o') (hrank : S.InjOn rank) :
    o = o' := by
  ext a
  rw [h.eq_some_iff hrank, h'.eq_some_iff hrank]

end Foundations
