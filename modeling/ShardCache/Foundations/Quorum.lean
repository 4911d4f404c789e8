import Mathlib

/-!
# Counting quorums in a list

Two families of members of one list that together have more members than the list share a member.
Families are given by predicates and counted with `List.countP`, so that a quorum is a number and
not a set.

## Main results

* `exists_mem_of_length_lt_countP_add`: two large families of a list meet
* `length_le_countP`: distinct members with a property are counted by it
* `length_add_length_le_add_countP`: what is left of a family when its list is replaced
-/

namespace Foundations

variable {α : Type}

/-- Two properties that together hold more often than the list is long hold together somewhere. -/
theorem exists_mem_of_length_lt_countP_add {l : List α} {p q : α → Bool}
    (h : l.length < l.countP p + l.countP q) : ∃ x ∈ l, p x = true ∧ q x = true := by
  induction l with
  | nil => simp at h
  | cons a l ih =>
    by_cases hpq : p a = true ∧ q a = true
    · exact ⟨a, List.mem_cons_self, hpq⟩
    · have hl : l.length < l.countP p + l.countP q := by
        simp only [List.countP_cons, List.length_cons] at h
        rcases hp : p a <;> rcases hq : q a <;> simp_all <;> omega
      obtain ⟨x, hx, hxpq⟩ := ih hl
      exact ⟨x, List.mem_cons_of_mem _ hx, hxpq⟩

/-- Distinct members of `l` with the property `p` are at most as many as `p` counts in `l`. -/
theorem length_le_countP {l ys : List α} {p : α → Bool} (hn : ys.Nodup) (hsub : ys ⊆ l)
    (hp : ∀ y ∈ ys, p y = true) : ys.length ≤ l.countP p := by
  rw [List.countP_eq_length_filter]
  refine (List.subperm_of_subset hn ?_).length_le
  intro y hy
  exact List.mem_filter.mpr ⟨hsub hy, hp y hy⟩

/-- Let a list `O` be replaced by `T`, and let a property hold of the members of `T` that are new or
belong to a family `S` of members of `O`. Then it holds at least as often as `S` has members, up to
the difference of the lengths. -/
theorem length_add_length_le_add_countP {O T S : List α} {p : α → Bool} (hT : T.Nodup)
    (hS : S.Nodup) (hSO : S ⊆ O) (hnew : ∀ x ∈ T, x ∉ O → p x = true)
    (hfamily : ∀ x ∈ T, x ∈ S → p x = true) :
    T.length + S.length ≤ O.length + T.countP p := by
  set rest := T.filter fun x => !p x with hrest
  -- the other members of `T` belong to `O` and are disjoint from `S`
  have hmem (x : α) (hx : x ∈ rest) : x ∈ O ∧ x ∉ S := by
    obtain ⟨hxT, hxp⟩ := List.mem_filter.mp hx
    have hxp : ¬ p x = true := by simpa using hxp
    exact ⟨by_contra fun hO => hxp (hnew x hxT hO), fun hxS => hxp (hfamily x hxT hxS)⟩
  have hnodup : (S ++ rest).Nodup :=
    List.nodup_append.mpr ⟨hS, hT.filter _, fun x hx y hy he => (hmem y hy).2 (he ▸ hx)⟩
  have hsub : S ++ rest ⊆ O := by
    intro x hx
    rcases List.mem_append.mp hx with hx | hx
    · exact hSO hx
    · exact (hmem x hx).1
  have hle := (List.subperm_of_subset hnodup hsub).length_le
  have hsplit := List.length_eq_countP_add_countP p (l := T)
  rw [List.length_append, hrest, ← List.countP_eq_length_filter] at hle
  simp only [Bool.not_eq_true, Bool.decide_eq_false] at hsplit
  omega

end Foundations
