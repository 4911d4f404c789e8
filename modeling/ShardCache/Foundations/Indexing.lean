import Mathlib

/-!
# Indexes over lists

Items are grouped by a key, sorted, and searched by bisection. A bisection of a sorted list finds
where the items begin that satisfy a monotone condition; with the minima of an attribute over every
suffix, it tells at once whether one of these items has the attribute below a limit.

## Main definitions

* `groupInto key val l`, `keyed key l`: the values under each key in order; the last item under each
* `Sorter less`: a sort that need not be stable
* `search n p`: bisection of `0, …, n - 1`
* `suffixMinima top l`: the minima of the suffixes of `l`, with `top` for the empty one

## Main results

* `getD_groupInto`, `getElem?_keyed`: what is found under a key
* `drop_search`: bisection finds the suffix of the items that satisfy the condition
* `suffixMinima_search_lt_iff`: the minimum at the place found tells whether there is a small item
-/

namespace Foundations

section Grouping

variable {α β κ : Type} [Ord κ] [Std.TransOrd κ]

/-- The values of the items under each key, in their order. -/
def groupInto (key : α → κ) (val : α → β) (l : List α) : Std.ExtTreeMap κ (List β) :=
  l.foldl (fun m a => m.insert (key a) (m.getD (key a) [] ++ [val a])) ∅

/-- The last item under each key. -/
def keyed (key : α → κ) (l : List α) : Std.ExtTreeMap κ α :=
  l.foldl (fun m a => m.insert (key a) a) ∅

variable [Std.LawfulEqOrd κ] [DecidableEq κ]

theorem getD_groupInto (key : α → κ) (val : α → β) (l : List α) (k : κ) :
    (groupInto key val l).getD k [] = (l.filter fun a => key a = k).map val := by
  induction l using List.reverseRecOn with
  | nil => rfl
  | append_singleton l a ih =>
    simp only [groupInto, List.foldl_concat] at ih ⊢
    rw [Std.ExtTreeMap.getD_insert]
    by_cases hk : key a = k
    · subst hk
      simp [ih]
    · have hcmp : compare (key a) k ≠ .eq := fun h => hk (Std.LawfulEqOrd.eq_of_compare h)
      simp [hk, hcmp, ih]

theorem getElem?_keyed (key : α → κ) (l : List α) (k : κ) :
    (keyed key l)[k]? = (l.filter fun a => key a = k).getLast? := by
  induction l using List.reverseRecOn with
  | nil => rfl
  | append_singleton l a ih =>
    simp only [keyed, List.foldl_concat] at ih ⊢
    rw [Std.ExtTreeMap.getElem?_insert]
    by_cases hk : key a = k
    · subst hk
      simp
    · have hcmp : compare (key a) k ≠ .eq := fun h => hk (Std.LawfulEqOrd.eq_of_compare h)
      simp [hk, hcmp, ih]

/-- Under a key is one of the items that have it. -/
theorem mem_of_keyed {key : α → κ} {l : List α} {k : κ} {a : α} (h : (keyed key l)[k]? = some a) :
    a ∈ l ∧ key a = k := by
  rw [getElem?_keyed] at h
  simpa using List.mem_of_getLast? h

/-- Under every key that an item has, there is one. -/
theorem exists_keyed {key : α → κ} {l : List α} {a : α} (h : a ∈ l) :
    ∃ b, (keyed key l)[key a]? = some b := by
  rw [getElem?_keyed]
  have hmem : a ∈ l.filter fun b => key b = key a := by simp [h]
  exact ⟨_, List.getLast?_eq_some_getLast (List.ne_nil_of_mem hmem)⟩

end Grouping

section Sorting

variable {α κ : Type}

/-- A sort by `less`: it returns the elements in some order in which none precedes a lesser one.
Which of two equal elements comes first is not said. -/
structure Sorter (less : α → α → Bool) where
  sort : List α → List α
  perm : ∀ l, (sort l).Perm l
  sorted : ∀ l, (sort l).Pairwise fun a b => less b a = false

/-- Any order will do. -/
def Sorter.keep : Sorter fun _ _ : α => false where
  sort l := l
  perm := List.Perm.refl
  sorted _ := List.pairwise_of_forall fun _ _ => rfl

/-- Insertion by a key. -/
def Sorter.insertion [LinearOrder κ] (key : α → κ) :
    Sorter fun a b : α => decide (key a < key b) where
  sort := List.insertionSort fun a b => key a ≤ key b
  perm := List.perm_insertionSort _
  sorted l := by
    have htotal : Std.Total fun a b : α => key a ≤ key b := ⟨fun a b => le_total _ _⟩
    have htrans : IsTrans α fun a b => key a ≤ key b := ⟨fun a b c => le_trans⟩
    refine (List.pairwise_insertionSort (fun a b : α => key a ≤ key b) l).imp ?_
    intro a b hle
    simpa using hle

end Sorting

section Search

/-- The loop of a bisection between `i` and `j`, for at most `fuel` rounds. -/
def bisect (p : ℕ → Bool) : ℕ → ℕ → ℕ → ℕ
  | 0, i, _ => i
  | fuel + 1, i, j =>
    if i < j then
      let h := (i + j) / 2
      if p h then bisect p fuel i h else bisect p fuel (h + 1) j
    else i

/-- The first of `0, …, n - 1` at which `p` holds, or `n`, for a condition that holds from some
place on. -/
def search (n : ℕ) (p : ℕ → Bool) : ℕ := bisect p n 0 n

/-- `p` fails below `i` and holds from `j` on. -/
def Brackets (p : ℕ → Bool) (n i j : ℕ) : Prop :=
  i ≤ j ∧ j ≤ n ∧ (∀ k < i, p k = false) ∧ ∀ k, j ≤ k → k < n → p k = true

variable {p : ℕ → Bool} {n i j : ℕ}

theorem brackets_bisect (hp : ∀ a b, a ≤ b → b < n → p a = true → p b = true) (fuel : ℕ)
    (hfuel : j - i ≤ fuel) (h : Brackets p n i j) :
    Brackets p n (bisect p fuel i j) (bisect p fuel i j) := by
  induction fuel generalizing i j with
  | zero =>
    obtain ⟨hij, hjn, hlow, hhigh⟩ := h
    obtain rfl : i = j := by omega
    exact ⟨le_rfl, hjn, hlow, hhigh⟩
  | succ fuel ih =>
    obtain ⟨hij, hjn, hlow, hhigh⟩ := h
    unfold bisect
    split
    · simp only
      split
      · -- the condition holds in the middle: the place is not behind it
        rename_i hmid
        refine ih (by omega) ⟨by omega, by omega, hlow, ?_⟩
        intro k hk hkn
        exact hp _ k hk hkn hmid
      · -- it fails there: the place is behind it
        rename_i hmid
        refine ih (by omega) ⟨by omega, hjn, ?_, hhigh⟩
        intro k hk
        by_contra hpk
        exact hmid (hp k _ (by omega) (by omega) (by simpa using hpk))
    · obtain rfl : i = j := by omega
      exact ⟨le_rfl, hjn, hlow, hhigh⟩

theorem brackets_search (hp : ∀ a b, a ≤ b → b < n → p a = true → p b = true) :
    Brackets p n (search n p) (search n p) := by
  refine brackets_bisect hp n (by omega) ⟨Nat.zero_le n, le_rfl, ?_, ?_⟩
  · intro k hk
    omega
  · intro k hk hkn
    omega

variable {α : Type} {q : α → Bool} {l : List α}

/-- A split that fails before and holds behind is the one by the condition. -/
theorem drop_eq_filter (hlow : ∀ k < i, (l[k]?).any q = false)
    (hhigh : ∀ k, i ≤ k → k < l.length → (l[k]?).any q = true) : l.drop i = l.filter q := by
  have hsplit := List.take_append_drop i l
  have htake : (l.take i).filter q = [] := by
    rw [List.filter_eq_nil_iff]
    intro a ha
    obtain ⟨k, hk, rfl⟩ := List.mem_take_iff_getElem.mp ha
    have := hlow k (by omega)
    rw [List.getElem?_eq_getElem (by omega)] at this
    simpa using this
  have hdrop : (l.drop i).filter q = l.drop i := by
    rw [List.filter_eq_self]
    intro a ha
    obtain ⟨k, hk, rfl⟩ := List.mem_drop_iff_getElem.mp ha
    have := hhigh (i + k) (by omega) (by omega)
    rw [List.getElem?_eq_getElem (by omega)] at this
    simpa [Nat.add_comm] using this
  conv_rhs => rw [← hsplit, List.filter_append, htake, hdrop, List.nil_append]

/-- **Bisection of a list** whose items satisfy the condition from some place on. -/
theorem drop_search (hl : l.Pairwise fun a b => q a = true → q b = true) :
    search l.length (fun i => (l[i]?).any q) ≤ l.length ∧
      l.drop (search l.length fun i => (l[i]?).any q) = l.filter q := by
  have hmono : ∀ a b, a ≤ b → b < l.length → (l[a]?).any q = true → (l[b]?).any q = true := by
    intro a b hab hb
    rw [List.getElem?_eq_getElem (show a < l.length by omega), List.getElem?_eq_getElem hb]
    rcases hab.eq_or_lt with rfl | hab
    · exact id
    · exact List.pairwise_iff_getElem.mp hl a b (by omega) hb hab
  obtain ⟨-, hle, hlow, hhigh⟩ := brackets_search hmono
  exact ⟨hle, drop_eq_filter hlow hhigh⟩

end Search

section Minima

variable {α β : Type} [LinearOrder α] {top t bound : α}

/-- The minimum of every suffix. -/
def suffixMinima (top : α) (l : List α) : List α := l.scanr min top

theorem foldr_min_lt_iff (l : List α) : l.foldr min top < t ↔ top < t ∨ ∃ x ∈ l, x < t := by
  induction l with
  | nil => simp
  | cons a l ih =>
    rw [List.foldr_cons, min_lt_iff, ih, List.exists_mem_cons_iff]
    exact or_left_comm

/-- **A search for an item past a bound and below a limit**: the items are sorted by `key`, and the
minima are those of `val`. -/
theorem suffixMinima_search_lt_iff {l : List β} {key val : β → α}
    (hl : l.Pairwise fun a b => key a ≤ key b) (htop : t ≤ top) :
    search l.length (fun i => (l[i]?).any fun x => bound < key x) < l.length ∧
        ((suffixMinima top (l.map val))[search l.length
          fun i => (l[i]?).any fun x => bound < key x]?).any (· < t) = true ↔
      ∃ x ∈ l, bound < key x ∧ val x < t := by
  have hmono : l.Pairwise fun a b =>
      decide (bound < key a) = true → decide (bound < key b) = true := by
    refine hl.imp ?_
    intro a b hab ha
    simp only [decide_eq_true_eq] at ha ⊢
    exact lt_of_lt_of_le ha hab
  obtain ⟨hle, hdrop⟩ := drop_search hmono
  generalize search l.length (fun i => (l[i]?).any fun x => decide (bound < key x)) = i at hle hdrop ⊢
  -- the minimum at the place that is found is that of the items past the bound
  have hmin : (suffixMinima top (l.map val))[i]? =
      some (((l.filter fun x => bound < key x).map val).foldr min top) := by
    rw [suffixMinima, List.getElem?_scanr, if_pos (by simp; omega), ← List.map_drop, hdrop]
  rw [hmin, Option.any_some, decide_eq_true_eq, foldr_min_lt_iff]
  constructor
  · rintro ⟨-, hlt | ⟨y, hy, hlt⟩⟩
    · exact absurd hlt (not_lt.mpr htop)
    · obtain ⟨x, hx, rfl⟩ := List.mem_map.mp hy
      obtain ⟨hmem, hbound⟩ := List.mem_filter.mp hx
      exact ⟨x, hmem, by simpa using hbound, hlt⟩
  · rintro ⟨x, hx, hbound, hlt⟩
    have hmem : x ∈ l.filter fun x => bound < key x := List.mem_filter.mpr ⟨hx, by simpa using hbound⟩
    refine ⟨?_, Or.inr ⟨val x, List.mem_map_of_mem hmem, hlt⟩⟩
    -- an item is left behind the place, so it is not the end
    rw [← hdrop] at hmem
    have := List.length_pos_of_mem hmem
    rw [List.length_drop] at this
    omega

end Minima

end Foundations
