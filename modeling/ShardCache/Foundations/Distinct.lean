import Mathlib

/-!
# First occurrences on a circle

A walk around a circle of points meets owners again and again; what counts is who is met first. A
loop that collects owners it has not met, until there are enough, takes the first elements of the
list of first occurrences. Leaving out an owner commutes with this list, so that one owner more or
less moves the others by at most one place.

## Main definitions

* `firstsBy key l`: the elements of `l` whose key does not occur before
* `collect key count`: one step of the loop that collects them

## Main results

* `foldl_collect`: the loop takes the first elements of the list
* `length_firstsBy`: there is one for each key
* `firstsBy_map`, `firstsBy_congr`: other names of the keys
* `filter_firstsBy`: leaving out some keys
* `isPrefix_filter_take`, `length_filter_take`: leaving out an element of the first `n`
* `filter_append_filter_eq_rotate`: a walk from a point on is a rotation
-/

namespace Foundations

variable {α β κ κ' : Type} [DecidableEq κ] [DecidableEq κ'] {key : α → κ}

/-- The elements whose key does not occur before. -/
def firstsBy (key : α → κ) (l : List α) : List α :=
  l.foldl (fun firsts a => if key a ∈ firsts.map key then firsts else firsts ++ [a]) []

/-- One step of a loop that collects elements with new keys, until there are enough. -/
def collect (key : α → κ) (count : ℕ) (found : List α) (a : α) : List α :=
  if found.length < count ∧ key a ∉ found.map key then found ++ [a] else found

@[simp] theorem firstsBy_nil : firstsBy key [] = [] := rfl

theorem firstsBy_concat_of_firsts (l : List α) (a : α) :
    firstsBy key (l ++ [a]) =
      if key a ∈ (firstsBy key l).map key then firstsBy key l else firstsBy key l ++ [a] := by
  rw [firstsBy, List.foldl_concat]
  rfl

/-- The first occurrences have the keys of the list. -/
theorem mem_map_firstsBy {l : List α} {k : κ} : k ∈ (firstsBy key l).map key ↔ k ∈ l.map key := by
  induction l using List.reverseRecOn with
  | nil => rfl
  | append_singleton l a ih =>
    rw [firstsBy_concat_of_firsts, List.map_append, List.mem_append, ← ih]
    split
    · rename_i hseen
      constructor
      · exact Or.inl
      · rintro (hk | hk)
        · exact hk
        · rwa [List.mem_singleton.mp hk]
    · rw [List.map_append, List.mem_append]

theorem firstsBy_concat (l : List α) (a : α) :
    firstsBy key (l ++ [a]) =
      if key a ∈ l.map key then firstsBy key l else firstsBy key l ++ [a] := by
  rw [firstsBy_concat_of_firsts, if_congr mem_map_firstsBy rfl rfl]

theorem nodup_firstsBy (l : List α) : ((firstsBy key l).map key).Nodup := by
  induction l using List.reverseRecOn with
  | nil => exact List.nodup_nil
  | append_singleton l a ih =>
    rw [firstsBy_concat_of_firsts]
    split
    · exact ih
    · rename_i hnew
      rw [List.map_append, List.map_singleton]
      exact List.nodup_append.mpr ⟨ih, List.nodup_singleton _, by
        rintro k hk k' hk' rfl
        exact hnew (List.mem_singleton.mp hk' ▸ hk)⟩

theorem mem_of_mem_firstsBy {l : List α} {a : α} (h : a ∈ firstsBy key l) : a ∈ l := by
  induction l using List.reverseRecOn with
  | nil => exact h
  | append_singleton l b ih =>
    rw [firstsBy_concat] at h
    split at h
    · exact List.mem_append_left _ (ih h)
    · rcases List.mem_append.mp h with h | h
      · exact List.mem_append_left _ (ih h)
      · exact List.mem_append_right _ h

/-- **There is one first occurrence for each key.** -/
theorem length_firstsBy (l : List α) : (firstsBy key l).length = (l.map key).toFinset.card := by
  have hkeys : (l.map key).toFinset = ((firstsBy key l).map key).toFinset := by
    ext k
    rw [List.mem_toFinset, List.mem_toFinset, mem_map_firstsBy]
  rw [hkeys, List.toFinset_card_of_nodup (nodup_firstsBy l), List.length_map]

/-- **The loop takes the first elements of the list.** -/
theorem foldl_collect (count : ℕ) (l : List α) :
    l.foldl (collect key count) [] = (firstsBy key l).take count := by
  induction l using List.reverseRecOn with
  | nil => simp
  | append_singleton l a ih =>
    rw [List.foldl_concat, ih, firstsBy_concat_of_firsts, collect]
    rcases lt_or_ge (firstsBy key l).length count with hlt | hge
    · -- there is room for one more
      rw [List.take_of_length_le hlt.le]
      split
      · rename_i hnew
        rw [if_neg hnew.2, List.take_of_length_le (by simpa using hlt)]
      · rename_i hold
        have hseen : key a ∈ (firstsBy key l).map key := by
          by_contra hnew
          exact hold ⟨hlt, hnew⟩
        rw [if_pos hseen, List.take_of_length_le hlt.le]
    · -- what comes after the first `count` is not collected
      rw [if_neg fun hroom => by simp [hge] at hroom]
      split
      · rfl
      · rw [List.take_append_of_le_length hge]

theorem firstsBy_map (f : β → α) (l : List β) :
    firstsBy key (l.map f) = (firstsBy (key ∘ f) l).map f := by
  induction l using List.reverseRecOn with
  | nil => rfl
  | append_singleton l b ih =>
    rw [List.map_append, List.map_singleton, firstsBy_concat, firstsBy_concat, ih, List.map_map]
    simp only [Function.comp_apply]
    split
    · rfl
    · rw [List.map_append, List.map_singleton]

/-- Keys that tell the same elements apart have the same first occurrences. -/
theorem firstsBy_congr {key' : α → κ'} {l : List α}
    (h : ∀ a ∈ l, ∀ b ∈ l, key a = key b ↔ key' a = key' b) : firstsBy key l = firstsBy key' l := by
  induction l using List.reverseRecOn with
  | nil => rfl
  | append_singleton l a ih =>
    have hbefore : ∀ b ∈ l, ∀ c ∈ l, key b = key c ↔ key' b = key' c := fun b hb c hc =>
      h b (List.mem_append_left _ hb) c (List.mem_append_left _ hc)
    have hseen : key a ∈ l.map key ↔ key' a ∈ l.map key' := by
      simp only [List.mem_map]
      refine exists_congr fun b => and_congr_right fun hb => ?_
      exact h b (List.mem_append_left _ hb) a (by simp)
    rw [firstsBy_concat, firstsBy_concat, ih hbefore, if_congr hseen rfl rfl]

/-- **Leaving out some keys** commutes with taking the first occurrences. -/
theorem filter_firstsBy (p : κ → Bool) (l : List α) :
    (firstsBy key l).filter (fun a => p (key a)) = firstsBy key (l.filter fun a => p (key a)) := by
  induction l using List.reverseRecOn with
  | nil => rfl
  | append_singleton l a ih =>
    rw [firstsBy_concat, List.filter_append]
    cases hp : p (key a) with
    | true =>
      -- elements of one key are all kept or all dropped, so the filter hides no earlier one
      have hseen : key a ∈ (l.filter fun a => p (key a)).map key ↔ key a ∈ l.map key := by
        simp only [List.mem_map, List.mem_filter]
        constructor
        · rintro ⟨b, ⟨hb, -⟩, hkey⟩
          exact ⟨b, hb, hkey⟩
        · rintro ⟨b, hb, hkey⟩
          exact ⟨b, ⟨hb, hkey ▸ hp⟩, hkey⟩
      simp only [List.filter_singleton, hp, cond_true]
      rw [firstsBy_concat, if_congr hseen rfl rfl, ← ih]
      split
      · rfl
      · simp [List.filter_append, hp]
    | false =>
      simp only [List.filter_singleton, hp, cond_false, List.append_nil, ← ih]
      split
      · rfl
      · simp [List.filter_append, hp]

/-! ## Leaving out an element of the first ones -/

theorem isPrefix_filter_take (p : α → Bool) (n : ℕ) (l : List α) :
    (l.take n).filter p <+: (l.filter p).take n := by
  refine List.prefix_take_iff.mpr ⟨(List.take_prefix n l).filter p, ?_⟩
  exact (List.length_filter_le _ _).trans (List.length_take_le _ _)

/-- Of the first `n` elements at most one is left out, if there is at most one to leave out. -/
theorem length_filter_take {p : α → Bool} {l : List α} (h : l.countP (fun a => !p a) ≤ 1) (n : ℕ) :
    n - 1 ≤ ((l.take n).filter p).length ∨ (l.take n).filter p = (l.filter p).take n := by
  rcases le_total n l.length with hle | hge
  · left
    have hsplit := List.length_eq_countP_add_countP p (l := l.take n)
    have hout : (l.take n).countP (fun a => !p a) ≤ 1 :=
      (List.take_sublist n l).countP_le.trans h
    rw [List.length_take, min_eq_left hle, List.countP_eq_length_filter] at hsplit
    simp only [decide_not, Bool.decide_eq_true] at hsplit
    omega
  · right
    rw [List.take_of_length_le hge,
      List.take_of_length_le ((List.length_filter_le _ _).trans hge)]

/-! ## Walks -/

/-- On a list along which `p` stays true, those with `p` first and the others after them are a
rotation. -/
theorem filter_append_filter_eq_rotate {p : α → Bool} {l : List α}
    (h : l.Pairwise fun a b => p a → p b) :
    l.filter p ++ l.filter (fun a => !p a) = l.rotate (l.findIdx p) := by
  have hparts : l.filter p = l.drop (l.findIdx p) ∧
      l.filter (fun a => !p a) = l.take (l.findIdx p) := by
    induction l with
    | nil => exact ⟨rfl, rfl⟩
    | cons a l ih =>
      obtain ⟨ha, hl⟩ := List.pairwise_cons.mp h
      cases hp : p a with
      | true =>
        -- from here on everything passes
        have hall : ∀ b ∈ a :: l, p b = true := List.forall_mem_cons.mpr ⟨hp, fun b hb => ha b hb hp⟩
        rw [List.findIdx_cons, hp]
        refine ⟨List.filter_eq_self.mpr hall, List.filter_eq_nil_iff.mpr ?_⟩
        intro b hb
        simp [hall b hb]
      | false =>
        obtain ⟨hdrop, htake⟩ := ih hl
        rw [List.findIdx_cons, hp]
        simp [hp, hdrop, htake]
  rw [hparts.1, hparts.2, List.rotate_eq_drop_append_take List.findIdx_le_length]

end Foundations
