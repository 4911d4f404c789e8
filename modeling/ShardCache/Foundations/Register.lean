import Mathlib

/-!
# Linearizable registers

A history of a register records, for every operation, its request, the time of its call, and the
time and content of its reply. A write whose reply is unknown may have taken effect at any time
after its call, or never; a read whose reply is unknown has no effect. A history is linearizable
when its operations can be put in one order that keeps real time and that a sequential register
could have produced.

Timestamps give such an order. If every operation carries a tag that determines the value it wrote
or read, and tags grow along real time, strictly at writes, then sorting by tag, writes before
reads, linearizes the history.

## Main definitions

* `Operation`, `Operation.finished`, `Operation.Effective`: the operations of a history
* `Precedes h i j`: operation `i` was answered before operation `j` was called
* `Legal v os`: a register holding `v` may answer the operations `os` in this order
* `Linearizable v h`: the history `h` of a register that held `v` is linearizable

## Main results

* `Tagging.linearizable`: a tagged history is linearizable
-/

namespace Foundations.Register

variable {V : Type}

/-- A request to a register. -/
inductive Request (V : Type) where
  | write (v : V)
  | read

/-- A reply of a register: `unknown` answers a write that may or may not take effect, or a read
that returned nothing. -/
inductive Reply (V : Type) where
  | ack
  | value (v : V)
  | unknown

/-- One operation of a history: its request, when it was called, and when and how it was
answered. -/
structure Operation (V : Type) where
  request : Request V
  call : ℕ
  reply : Option (ℕ × Reply V)

/-- The time at which an operation was answered, if the answer says that it took effect. -/
def Operation.finished (o : Operation V) : Option ℕ :=
  match o.request, o.reply with
  | .write _, some (t, .ack) => some t
  | .read, some (t, .value _) => some t
  | _, _ => none

/-- The operations that may have taken effect: every write, and the reads that were answered. -/
def Operation.Effective (o : Operation V) : Prop :=
  match o.request with
  | .write _ => True
  | .read => o.finished.isSome

/-- Operation `i` was answered before operation `j` was called. -/
def Precedes (h : List (Operation V)) (i j : ℕ) : Prop :=
  ∃ a b t, h[i]? = some a ∧ h[j]? = some b ∧ a.finished = some t ∧ t < b.call

/-- A register that holds `v` may answer these operations, one after the other. -/
def Legal : V → List (Operation V) → Prop
  | _, [] => True
  | v, o :: os =>
    match o.request with
    | .write w => Legal w os
    | .read => (∃ t, o.reply = some (t, .value v)) ∧ Legal v os

/-- `order` lists the operations of `h` that took effect, in the order in which they did: all the
answered ones, in an order that keeps real time and that a register holding `v` could have
produced. -/
structure Linearization (v : V) (h : List (Operation V)) (order : List ℕ) : Prop where
  nodup : order.Nodup
  effective : ∀ i ∈ order, ∃ o, h[i]? = some o ∧ o.Effective
  complete : ∀ i o, h[i]? = some o → o.finished.isSome → i ∈ order
  realTime : order.Pairwise fun i j => ¬ Precedes h j i
  legal : Legal v (order.filterMap (h[·]?))

/-- The history `h` of a register that first held `v` is linearizable. -/
def Linearizable (v : V) (h : List (Operation V)) : Prop :=
  ∃ order, Linearization v h order

/-! ## Tagged histories -/

section Tagged

variable {T : Type} [LinearOrder T] [OrderBot T]

/-- A tagging of the history `h`: the operations that took effect carry a tag that determines the
register's content after them, every tag that was read was written, and tags grow along real time,
strictly at writes. -/
structure Tagging (h : List (Operation V)) (val : T → V) (tag : ℕ → Option T) : Prop where
  exists_op : ∀ i t, tag i = some t → ∃ o, h[i]? = some o
  complete : ∀ i o, h[i]? = some o → o.finished.isSome → (tag i).isSome
  write : ∀ i o v t, h[i]? = some o → o.request = .write v → tag i = some t → v = val t ∧ ⊥ < t
  read : ∀ i o t, h[i]? = some o → o.request = .read → tag i = some t →
    (∃ τ, o.reply = some (τ, .value (val t))) ∧
      (t = ⊥ ∨ ∃ j w v, h[j]? = some w ∧ w.request = .write v ∧ tag j = some t)
  index_lt : ∀ i j, Precedes h i j → i < j
  le : ∀ i j ti tj, Precedes h i j → tag i = some ti → tag j = some tj → ti ≤ tj
  lt : ∀ i j o v ti tj, Precedes h i j → h[j]? = some o → o.request = .write v →
    tag i = some ti → tag j = some tj → ti < tj

/-- Whether operation `i` of `h` is a read. -/
def isRead (h : List (Operation V)) (i : ℕ) : Bool :=
  match (h[i]?).map Operation.request with
  | some .read => true
  | _ => false

/-- The sort key of a tagged operation: its tag, writes before reads, then the order of calls. -/
def sortKey (h : List (Operation V)) (tag : ℕ → Option T) (i : ℕ) : T ×ₗ Bool ×ₗ ℕ :=
  toLex ((tag i).getD ⊥, toLex (isRead h i, i))

theorem sortKey_injective (h : List (Operation V)) (tag : ℕ → Option T) :
    Function.Injective (sortKey h tag) := by
  intro i j hij
  simpa [sortKey] using congrArg (fun x => (ofLex (ofLex x).2).2) hij

theorem isRead_of_read {h : List (Operation V)} {i : ℕ} {o : Operation V} (ho : h[i]? = some o)
    (hr : o.request = .read) : isRead h i = true := by
  simp [isRead, ho, hr]

theorem isRead_of_write {h : List (Operation V)} {i : ℕ} {o : Operation V} {v : V}
    (ho : h[i]? = some o) (hw : o.request = .write v) : isRead h i = false := by
  simp [isRead, ho, hw]

theorem sortKey_lt_iff {h : List (Operation V)} {tag : ℕ → Option T} {i j : ℕ} {ti tj : T}
    (hi : tag i = some ti) (hj : tag j = some tj) :
    sortKey h tag i < sortKey h tag j ↔
      ti < tj ∨ ti = tj ∧ (isRead h i < isRead h j ∨ isRead h i = isRead h j ∧ i < j) := by
  simp [sortKey, hi, hj, Prod.Lex.toLex_lt_toLex]

variable {h : List (Operation V)} {val : T → V} {tag : ℕ → Option T}

/-- The tags along a sorted list of operations grow. -/
theorem tag_le_of_sortKey_lt {i j : ℕ} {ti tj : T} (hi : tag i = some ti) (hj : tag j = some tj)
    (hlt : sortKey h tag i < sortKey h tag j) : ti ≤ tj := by
  rcases (sortKey_lt_iff hi hj).mp hlt with h₁ | ⟨h₁, -⟩
  · exact h₁.le
  · exact h₁.le

/-- A sorted list of tagged operations is legal for a register that holds the value of `t₀`, if
every tag read in it is `t₀` or written in it. -/
theorem Tagging.legal (ht : Tagging h val tag) : ∀ (l : List ℕ) (t₀ : T),
    l.Pairwise (fun i j => sortKey h tag i < sortKey h tag j) →
    (∀ i ∈ l, ∃ t, tag i = some t ∧ t₀ ≤ t) →
    (∀ i ∈ l, ∀ o t, h[i]? = some o → o.request = .read → tag i = some t →
      t = t₀ ∨ ∃ j ∈ l, ∃ w v, h[j]? = some w ∧ w.request = .write v ∧ tag j = some t) →
    Legal (val t₀) (l.filterMap (h[·]?)) := by
  intro l
  induction l with
  | nil => intro t₀ _ _ _; trivial
  | cons i l ih =>
    intro t₀ hsort hle hread
    obtain ⟨hlt, hsort⟩ := List.pairwise_cons.mp hsort
    obtain ⟨t, hti, htt⟩ := hle i List.mem_cons_self
    obtain ⟨o, ho⟩ := ht.exists_op i t hti
    rw [List.filterMap_cons, ho]
    cases hreq : o.request with
    | write v =>
      simp only [Legal, hreq]
      obtain ⟨rfl, -⟩ := ht.write i o v t ho hreq hti
      refine ih t hsort ?_ ?_
      · intro j hj
        obtain ⟨tj, htj, -⟩ := hle j (List.mem_cons_of_mem _ hj)
        exact ⟨tj, htj, tag_le_of_sortKey_lt hti htj (hlt j hj)⟩
      · intro j hj w tj hw hwr htj
        have htj' := tag_le_of_sortKey_lt hti htj (hlt j hj)
        rcases hread j (List.mem_cons_of_mem _ hj) w tj hw hwr htj with rfl | ⟨k, hk, w', v', h₁, h₂, h₃⟩
        · exact Or.inl (le_antisymm htt htj')
        · rcases List.mem_cons.mp hk with rfl | hk
          · exact Or.inl (Option.some.inj (h₃.symm.trans hti))
          · exact Or.inr ⟨k, hk, w', v', h₁, h₂, h₃⟩
    | read =>
      simp only [Legal, hreq]
      -- a write of the tag just read would stand before the read
      have htt₀ : t = t₀ := by
        rcases hread i List.mem_cons_self o t ho hreq hti with h₀ | ⟨k, hk, w, v, h₁, h₂, h₃⟩
        · exact h₀
        · rcases List.mem_cons.mp hk with rfl | hk
          · rw [ho, Option.some.injEq] at h₁
            rw [← h₁, hreq] at h₂
            exact absurd h₂ (by simp)
          · have hlt' := (sortKey_lt_iff hti h₃).mp (hlt k hk)
            rw [isRead_of_read ho hreq, isRead_of_write h₁ h₂] at hlt'
            have hbool : ¬ (true : Bool) < false := by decide
            simp [hbool] at hlt'
      subst htt₀
      refine ⟨(ht.read i o t ho hreq hti).1, ih t hsort ?_ ?_⟩
      · intro j hj
        exact hle j (List.mem_cons_of_mem _ hj)
      · intro j hj w tj hw hwr htj
        rcases hread j (List.mem_cons_of_mem _ hj) w tj hw hwr htj with h₀ | ⟨k, hk, w', v', h₁, h₂, h₃⟩
        · exact Or.inl h₀
        · rcases List.mem_cons.mp hk with rfl | hk
          · rw [ho, Option.some.injEq] at h₁
            rw [← h₁, hreq] at h₂
            exact absurd h₂ (by simp)
          · exact Or.inr ⟨k, hk, w', v', h₁, h₂, h₃⟩

/-- The tagged operations of a history, sorted. -/
def tagOrder (h : List (Operation V)) (tag : ℕ → Option T) : List ℕ :=
  ((List.range h.length).filter fun i => (tag i).isSome).insertionSort
    fun i j => sortKey h tag i ≤ sortKey h tag j

theorem Tagging.mem_tagOrder (ht : Tagging h val tag) {i : ℕ} :
    i ∈ tagOrder h tag ↔ (tag i).isSome := by
  simp only [tagOrder, List.mem_insertionSort, List.mem_filter, List.mem_range,
    and_iff_right_iff_imp]
  intro hi
  obtain ⟨t, hti⟩ := Option.isSome_iff_exists.mp hi
  obtain ⟨o, ho⟩ := ht.exists_op i t hti
  exact (List.getElem?_eq_some_iff.mp ho).1

theorem nodup_tagOrder (h : List (Operation V)) (tag : ℕ → Option T) :
    (tagOrder h tag).Nodup :=
  (List.perm_insertionSort _ _).nodup_iff.mpr (List.nodup_range.filter _)

theorem pairwise_tagOrder (h : List (Operation V)) (tag : ℕ → Option T) :
    (tagOrder h tag).Pairwise fun i j => sortKey h tag i < sortKey h tag j := by
  have hle : (tagOrder h tag).Pairwise fun i j => sortKey h tag i ≤ sortKey h tag j := by
    have : IsTrans ℕ fun i j => sortKey h tag i ≤ sortKey h tag j := ⟨fun _ _ _ => le_trans⟩
    have : Std.Total fun i j => sortKey h tag i ≤ sortKey h tag j := ⟨fun _ _ => le_total _ _⟩
    exact List.pairwise_insertionSort _ _
  refine (hle.and (nodup_tagOrder h tag)).imp fun {i j} hij => ?_
  exact lt_of_le_of_ne hij.1 fun he => hij.2 (sortKey_injective h tag he)

/-- **Tagged histories are linearizable**: sorting by tag, writes before reads, keeps real time
and is a run of a sequential register. -/
theorem Tagging.linearizable (ht : Tagging h val tag) : Linearizable (val ⊥) h := by
  refine ⟨tagOrder h tag, nodup_tagOrder h tag, ?_, ?_, ?_, ?_⟩
  · intro i hi
    obtain ⟨t, hti⟩ := Option.isSome_iff_exists.mp (ht.mem_tagOrder.mp hi)
    obtain ⟨o, ho⟩ := ht.exists_op i t hti
    refine ⟨o, ho, ?_⟩
    cases hreq : o.request with
    | write v => simp [Operation.Effective, hreq]
    | read =>
      obtain ⟨⟨τ, hτ⟩, -⟩ := ht.read i o t ho hreq hti
      simp [Operation.Effective, Operation.finished, hreq, hτ]
  · intro i o ho hf
    exact ht.mem_tagOrder.mpr (ht.complete i o ho hf)
  · -- real time: an operation that ended before another was called has no higher tag
    refine (pairwise_tagOrder h tag).imp_of_mem fun {i j} hi hj hlt hji => ?_
    obtain ⟨ti, hti⟩ := Option.isSome_iff_exists.mp (ht.mem_tagOrder.mp hi)
    obtain ⟨tj, htj⟩ := Option.isSome_iff_exists.mp (ht.mem_tagOrder.mp hj)
    have hle := ht.le j i tj ti hji htj hti
    obtain ⟨o, ho⟩ := ht.exists_op i ti hti
    obtain ⟨w, hw⟩ := ht.exists_op j tj htj
    rcases (sortKey_lt_iff hti htj).mp hlt with h₁ | ⟨rfl, h₂⟩
    · exact absurd hle (not_le.mpr h₁)
    · -- equal tags: the later call is a read, so calls decide
      cases hreq : o.request with
      | write v => exact lt_irrefl _ (ht.lt j i o v ti ti hji ho hreq htj hti)
      | read =>
        have hlt := ht.index_lt j i hji
        rw [isRead_of_read ho hreq] at h₂
        rcases h₂ with h₂ | ⟨-, h₂⟩
        · exact absurd h₂ (by simp)
        · exact lt_asymm hlt h₂
  · -- legality: a read follows the write of its tag, or no write at all
    refine ht.legal _ ⊥ (pairwise_tagOrder h tag) ?_ ?_
    · intro i hi
      obtain ⟨t, hti⟩ := Option.isSome_iff_exists.mp (ht.mem_tagOrder.mp hi)
      exact ⟨t, hti, bot_le⟩
    · intro i _ o t ho hreq hti
      rcases (ht.read i o t ho hreq hti).2 with h₀ | ⟨j, w, v, h₁, h₂, h₃⟩
      · exact Or.inl h₀
      · exact Or.inr ⟨j, ht.mem_tagOrder.mpr (by simp [h₃]), w, v, h₁, h₂, h₃⟩

end Tagged

end Foundations.Register
