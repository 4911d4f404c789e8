import Mathlib

/-!
# Lists in order of use

A list of keys is in order of use, up to a slack, if no key was used later than a key in front of it
by the slack or more. The last key of such a list is a least recently used one, up to the slack. A
key that is used moves to the front, or stays where it is if the keys in front of it were used within
the slack.

## Main definitions

* `UseOrder slack now last keys`: the list `keys` is in order of use at time `now`
* `ThrottledOrder slack now last items`: the same for keys that are promoted once per slack at most

## Main results

* `UseOrder.front`, `UseOrder.inPlace`: using a key keeps the order
* `UseOrder.getLast`: the last key is a least recently used one
* `ThrottledOrder.front`, `ThrottledOrder.inPlace`: so does using a key under throttled promotion
-/

namespace Foundations

variable {κ : Type} {slack now now' : ℕ} {last : κ → Option ℕ} {keys keys' : List κ} {k x y : κ}

/-- Every key was used by `now`, and none by `slack` or more later than one in front of it. `last` is
the time of the last use of each key. -/
structure UseOrder (slack now : ℕ) (last : κ → Option ℕ) (keys : List κ) : Prop where
  used : ∀ a ∈ keys, ∃ t, last a = some t ∧ t ≤ now
  recent : keys.Pairwise fun a b => ∀ s t, last a = some s → last b = some t → t < s + slack

namespace UseOrder

theorem nil : UseOrder slack now last [] := ⟨by simp, List.Pairwise.nil⟩

theorem sublist (h : UseOrder slack now last keys) (hsub : keys'.Sublist keys) :
    UseOrder slack now last keys' :=
  ⟨fun a ha => h.used a (hsub.subset ha), h.recent.sublist hsub⟩

theorem mono (h : UseOrder slack now last keys) (hnow : now ≤ now') :
    UseOrder slack now' last keys := by
  refine ⟨?_, h.recent⟩
  intro a ha
  obtain ⟨t, hlast, ht⟩ := h.used a ha
  exact ⟨t, hlast, ht.trans hnow⟩

/-- The last key was used before every other key, up to the slack. -/
theorem getLast (h : UseOrder slack now last (keys ++ [x])) (hy : y ∈ keys) :
    ∃ s t, last x = some s ∧ last y = some t ∧ s < t + slack := by
  obtain ⟨s, hs, -⟩ := h.used x (by simp)
  obtain ⟨t, ht, -⟩ := h.used y (by simp [hy])
  have hlt := (List.pairwise_append.mp h.recent).2.2 y hy x (List.mem_singleton_self x) t s ht hs
  exact ⟨s, t, hs, ht, hlt⟩

variable [DecidableEq κ]

/-- The use of a key that is not listed does not change the order. -/
theorem absent (h : UseOrder slack now last keys) (hk : k ∉ keys) (hnow : now ≤ now') :
    UseOrder slack now' (Function.update last k (some now')) keys := by
  have hlast {a : κ} (ha : a ∈ keys) : Function.update last k (some now') a = last a :=
    Function.update_of_ne (ne_of_mem_of_not_mem ha hk) _ _
  refine ⟨fun a ha => ?_, h.recent.imp_of_mem fun ha hb hab => ?_⟩
  · rw [hlast ha]
    exact (h.mono hnow).used a ha
  · rw [hlast ha, hlast hb]
    exact hab

/-- A key that is used now comes after no other key. -/
theorem front (h : UseOrder slack now last keys) (hk : k ∉ keys) (hnow : now ≤ now')
    (hslack : 0 < slack) :
    UseOrder slack now' (Function.update last k (some now')) (k :: keys) := by
  have hrest := h.absent hk hnow
  refine ⟨List.forall_mem_cons.mpr ⟨⟨now', Function.update_self .., le_rfl⟩, hrest.used⟩,
    List.pairwise_cons.mpr ⟨?_, hrest.recent⟩⟩
  intro b hb s t hs ht
  obtain ⟨t', hb', hle⟩ := hrest.used b hb
  obtain rfl : t' = t := Option.some.inj (hb'.symm.trans ht)
  obtain rfl : now' = s := by simpa using hs
  omega

theorem takeWhile_ne_append {before behind : List κ} (hk : k ∉ before) :
    (before ++ k :: behind).takeWhile (· ≠ k) = before := by
  rw [List.takeWhile_append_of_pos fun a ha => decide_eq_true (ne_of_mem_of_not_mem ha hk)]
  simp

/-- A key that is used may stay where it is, if every key in front of it was used within the
slack. -/
theorem inPlace (h : UseOrder slack now last keys) (hnodup : keys.Nodup) (hk : k ∈ keys)
    (hnow : now ≤ now') (hslack : 0 < slack)
    (hfront : ∀ a ∈ keys.takeWhile (· ≠ k), ∀ s ∈ last a, now' < s + slack) :
    UseOrder slack now' (Function.update last k (some now')) keys := by
  obtain ⟨before, behind, rfl, hbefore⟩ := List.eq_append_cons_of_mem hk
  rw [takeWhile_ne_append hbefore] at hfront
  have hbehind : k ∉ behind := (List.nodup_cons.mp (List.Nodup.of_append_right hnodup)).1
  -- the keys from `k` on, as if it came to the front of them
  have htail := (h.sublist ((List.sublist_cons_self k behind).trans
    (List.sublist_append_right before _))).front hbehind hnow hslack
  have hhead := (h.sublist (List.sublist_append_left before _)).absent hbefore hnow
  refine ⟨?_, List.pairwise_append.mpr ⟨hhead.recent, htail.recent, ?_⟩⟩
  · intro a ha
    rcases List.mem_append.mp ha with ha | ha
    · exact hhead.used a ha
    · exact htail.used a ha
  · intro a ha b hb s t hs ht
    rw [Function.update_of_ne (ne_of_mem_of_not_mem ha hbefore)] at hs
    by_cases hbk : b = k
    · subst hbk
      obtain rfl : now' = t := by simpa using ht
      exact hfront a ha s hs
    · rw [Function.update_of_ne hbk] at ht
      exact (List.pairwise_append.mp h.recent).2.2 a ha b hb s t hs ht

end UseOrder

/-! ## Throttled promotion -/

/-- Lists whose keys carry the time at which they were last promoted, and are promoted at most once
per slack. The list is in order of use, and every key was used no earlier than it and the keys behind
it were promoted. -/
structure ThrottledOrder (slack now : ℕ) (last : κ → Option ℕ) (items : List (κ × ℕ)) : Prop where
  order : UseOrder slack now last (items.map Prod.fst)
  promoted : ∀ a ∈ items, ∀ s, last a.1 = some s → a.2 ≤ s
  behind : items.Pairwise fun a b => ∀ s, last a.1 = some s → b.2 ≤ s

namespace ThrottledOrder

variable {items items' : List (κ × ℕ)} {p : ℕ}

theorem nil : ThrottledOrder slack now last [] := ⟨UseOrder.nil, by simp, List.Pairwise.nil⟩

theorem sublist (h : ThrottledOrder slack now last items) (hsub : items'.Sublist items) :
    ThrottledOrder slack now last items' :=
  ⟨h.order.sublist (hsub.map _), fun a ha => h.promoted a (hsub.subset ha), h.behind.sublist hsub⟩

theorem mono (h : ThrottledOrder slack now last items) (hnow : now ≤ now') :
    ThrottledOrder slack now' last items :=
  ⟨h.order.mono hnow, h.promoted, h.behind⟩

/-- No key was promoted in the future. -/
theorem le_now (h : ThrottledOrder slack now last items) {a : κ × ℕ} (ha : a ∈ items) :
    a.2 ≤ now := by
  obtain ⟨s, hs, hle⟩ := h.order.used a.1 (List.mem_map_of_mem ha)
  exact (h.promoted a ha s hs).trans hle

variable [DecidableEq κ]

/-- A use is no earlier than the promotions that came before. -/
theorem promoted_update (h : ThrottledOrder slack now last items) (hnow : now ≤ now')
    {a b : κ × ℕ} (hb : b ∈ items) (hab : ∀ s, last a.1 = some s → b.2 ≤ s) (s : ℕ)
    (hs : Function.update last k (some now') a.1 = some s) : b.2 ≤ s := by
  by_cases hk : a.1 = k
  · rw [hk, Function.update_self] at hs
    rw [← Option.some.inj hs]
    exact (h.le_now hb).trans hnow
  · rw [Function.update_of_ne hk] at hs
    exact hab s hs

/-- A key that is used now comes to the front, promoted now or before. -/
theorem front (h : ThrottledOrder slack now last items) (hk : k ∉ items.map Prod.fst)
    (hnow : now ≤ now') (hp : p ≤ now') (hslack : 0 < slack) :
    ThrottledOrder slack now' (Function.update last k (some now')) ((k, p) :: items) where
  order := h.order.front hk hnow hslack
  promoted := by
    refine List.forall_mem_cons.mpr ⟨?_, fun a ha => h.promoted_update hnow ha (h.promoted a ha)⟩
    intro s hs
    rw [Function.update_self] at hs
    rwa [← Option.some.inj hs]
  behind := by
    refine List.pairwise_cons.mpr ⟨fun b hb s hs => ?_, ?_⟩
    · rw [Function.update_self] at hs
      rw [← Option.some.inj hs]
      exact (h.le_now hb).trans hnow
    · exact h.behind.imp_of_mem fun _ hb hab => h.promoted_update hnow hb hab

/-- A key that was promoted within the slack stays where it is when it is used. -/
theorem inPlace (h : ThrottledOrder slack now last items) (hnodup : (items.map Prod.fst).Nodup)
    (hk : (k, p) ∈ items) (hnow : now ≤ now') (hslack : 0 < slack) (hp : now' < p + slack) :
    ThrottledOrder slack now' (Function.update last k (some now')) items where
  order := by
    refine h.order.inPlace hnodup (List.mem_map_of_mem hk) hnow hslack ?_
    intro a ha s hs
    -- the keys in front of it were used since it was promoted
    obtain ⟨before, behind, rfl⟩ := List.append_of_mem hk
    rw [List.map_append, List.map_cons] at hnodup ha
    have hbefore : k ∉ before.map Prod.fst := fun hmem =>
      (List.nodup_append.mp hnodup).2.2 k hmem k List.mem_cons_self rfl
    rw [UseOrder.takeWhile_ne_append hbefore] at ha
    obtain ⟨item, hitem, rfl⟩ := List.mem_map.mp ha
    have hle : p ≤ s :=
      (List.pairwise_append.mp h.behind).2.2 item hitem (k, p) List.mem_cons_self s hs
    omega
  promoted a ha := h.promoted_update hnow ha (h.promoted a ha)
  behind := h.behind.imp_of_mem fun _ hb hab => h.promoted_update hnow hb hab

end ThrottledOrder

end Foundations
