import Mathlib

/-!
# Items in custody

Items are added one after another, and leave in one way or another. Nothing is lost and nothing is
doubled if what has left and what is kept are together what was added; nothing is reordered if what
is kept stands in the order in which it was added.

## Main definitions

* `Custody added gone kept`: every item that was added has left or is kept, once

## Main results

* `Custody.add`, `Custody.leave`: items are added at the end, a part of what is kept leaves
-/

namespace Foundations

variable {α : Type*} {added gone kept : List α}

/-- Every item of `added` is in `gone` or in `kept`, once, and those in `kept` stand in the order of
`added`. -/
structure Custody (added gone kept : List α) : Prop where
  perm : (gone ++ kept).Perm added
  sublist : kept.Sublist added

theorem Custody.nil : Custody ([] : List α) [] [] := ⟨List.Perm.refl _, List.Sublist.refl _⟩

theorem Custody.add (h : Custody added gone kept) (new : List α) :
    Custody (added ++ new) gone (kept ++ new) where
  perm := by
    rw [← List.append_assoc]
    exact h.perm.append_right new
  sublist := h.sublist.append_right new

/-- What leaves may stand anywhere in what is kept; the rest closes up. -/
theorem Custody.leave {front out back : List α} (h : Custody added gone (front ++ (out ++ back))) :
    Custody added (gone ++ out) (front ++ back) where
  perm := by
    refine List.Perm.trans ?_ h.perm
    rw [List.append_assoc]
    exact (List.perm_append_comm_assoc out front back).append_left gone
  sublist := by
    have hback : (front ++ back).Sublist (front ++ (out ++ back)) :=
      (List.sublist_append_right out back).append_left front
    exact hback.trans h.sublist

end Foundations
