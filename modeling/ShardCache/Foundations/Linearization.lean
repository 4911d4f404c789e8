import ShardCache.Foundations.Run

/-!
# Linearizability

A concurrent object is a transition system in which calls begin, take effect and end, with steps of
other calls in between. It is linearizable if those calls that have taken effect can be put in an
order in which a sequential object would have given their replies, and in which a call that had
ended before another one began stands before it.

It is enough that every step is silent or lets one call take effect: the order is then the one in
which they take effect.

## Main definitions

* `OnTheWay step s₀ ls s`: the run from `s₀` along `ls` comes through `s`
* `Progress`: which calls have not begun, what they return, and which have ended
* `Explains spec m h m'`: the sequential object gives the replies `h`, one after the other
* `Linearizes`: a linearization of a run

## Main results

* `linearizes_of_run`: every run has a linearization if every step is silent or one call's effect
-/

namespace Foundations

variable {σ Λ ι μ ρ : Type}

/-! ## States on the way -/

/-- The run from `s₀` along `ls` comes through `s`. -/
def OnTheWay (step : σ → Λ → Option σ) (s₀ : σ) (ls : List Λ) (s : σ) : Prop :=
  ∃ before after, ls = before ++ after ∧ run step s₀ before = some s

section OnTheWay

variable {step : σ → Λ → Option σ} {s₀ s s' t : σ} {ls : List Λ} {l : Λ}

theorem onTheWay_nil : OnTheWay step s₀ [] t ↔ t = s₀ := by
  constructor
  · rintro ⟨before, after, hls, hr⟩
    obtain ⟨rfl, -⟩ := List.append_eq_nil_iff.mp hls.symm
    exact (Option.some.inj hr).symm
  · rintro rfl
    exact ⟨[], [], rfl, rfl⟩

theorem onTheWay_end (hr : run step s₀ ls = some s) : OnTheWay step s₀ ls s :=
  ⟨ls, [], (List.append_nil ls).symm, hr⟩

/-- One more step comes through one more state. -/
theorem onTheWay_append_singleton (hr : run step s₀ ls = some s) (hs : step s l = some s') :
    OnTheWay step s₀ (ls ++ [l]) t ↔ OnTheWay step s₀ ls t ∨ t = s' := by
  have hrun : run step s₀ (ls ++ [l]) = some s' :=
    run_append_eq_some.mpr ⟨s, hr, run_cons_eq_some.mpr ⟨s', hs, rfl⟩⟩
  constructor
  · rintro ⟨before, after, hls, ht⟩
    induction after using List.reverseRecOn with
    | nil =>
      rw [List.append_nil] at hls
      rw [← hls, hrun] at ht
      exact .inr (Option.some.inj ht).symm
    | append_singleton after m _ =>
      rw [← List.append_assoc] at hls
      exact .inl ⟨before, after, (List.append_inj' hls rfl).1, ht⟩
  · rintro (⟨before, after, rfl, ht⟩ | rfl)
    · exact ⟨before, after ++ [l], List.append_assoc _ _ _, ht⟩
    · exact onTheWay_end hrun

end OnTheWay

/-! ## Linearizations -/

/-- How far the calls `ι` of a concurrent object with the states `σ` have come: which have not
begun, what those return that have taken effect, and which have ended. -/
structure Progress (σ ι ρ : Type) where
  idle : σ → ι → Prop
  reply : σ → ι → Option ρ
  ended : σ → ι → Prop
  reply_of_idle : ∀ {s i}, idle s i → reply s i = none
  reply_of_ended : ∀ {s i}, ended s i → (reply s i).isSome = true

/-- The sequential object `spec` gives the replies `h`, one after the other, and goes from `m` to
`m'`. -/
inductive Explains (spec : μ → ι → ρ → μ → Prop) (m : μ) : List (ι × ρ) → μ → Prop where
  | nil : Explains spec m [] m
  | snoc {h : List (ι × ρ)} {m₁ m₂ : μ} {i : ι} {r : ρ} : Explains spec m h m₁ →
    spec m₁ i r m₂ → Explains spec m (h ++ [(i, r)]) m₂

/-- On the way of the run, `i` had ended when `j` had not begun. -/
def Progress.Precedes (p : Progress σ ι ρ) (step : σ → Λ → Option σ) (s₀ : σ) (ls : List Λ)
    (i j : ι) : Prop :=
  ∃ s, OnTheWay step s₀ ls s ∧ p.ended s i ∧ p.idle s j

/-- The calls that have taken effect in the run from `s₀` along `ls` to `s`, each once and with its
reply, in an order in which the sequential object gives these replies and which keeps to the order
in time; `view` is the state of the sequential object. -/
structure Linearizes (p : Progress σ ι ρ) (spec : μ → ι → ρ → μ → Prop) (view : σ → μ)
    (step : σ → Λ → Option σ) (s₀ : σ) (ls : List Λ) (s : σ) (h : List (ι × ρ)) : Prop where
  nodup : (h.map Prod.fst).Nodup
  replies : ∀ i r, (i, r) ∈ h ↔ p.reply s i = some r
  explains : Explains spec (view s₀) h (view s)
  inTime : ∀ i j, p.Precedes step s₀ ls i j → j ∈ h.map Prod.fst → [i, j].Sublist (h.map Prod.fst)

/-- What a step from `s` to `s'` does: nothing that can be seen, or one call takes effect. -/
inductive Effect [DecidableEq ι] (p : Progress σ ι ρ) (spec : μ → ι → ρ → μ → Prop)
    (view : σ → μ) (s s' : σ) : Prop where
  | silent : view s' = view s → p.reply s' = p.reply s → Effect p spec view s s'
  | takes (i : ι) (r : ρ) : p.reply s i = none →
    p.reply s' = Function.update (p.reply s) i (some r) → spec (view s) i r (view s') →
    Effect p spec view s s'

section Linearizes

variable {p : Progress σ ι ρ} {spec : μ → ι → ρ → μ → Prop} {view : σ → μ}
  {step : σ → Λ → Option σ} {s₀ s s' : σ} {ls : List Λ} {l : Λ} {h : List (ι × ρ)} {i j : ι}
  {r : ρ}

theorem Linearizes.mem_iff (hlin : Linearizes p spec view step s₀ ls s h) :
    i ∈ h.map Prod.fst ↔ (p.reply s i).isSome = true := by
  rw [List.mem_map, Option.isSome_iff_exists]
  constructor
  · rintro ⟨⟨j, r⟩, hmem, rfl⟩
    exact ⟨r, (hlin.replies j r).mp hmem⟩
  · rintro ⟨r, hr⟩
    exact ⟨(i, r), (hlin.replies i r).mpr hr, rfl⟩

theorem precedes_append_singleton (hr : run step s₀ ls = some s) (hs : step s l = some s') :
    p.Precedes step s₀ (ls ++ [l]) i j ↔
      p.Precedes step s₀ ls i j ∨ p.ended s' i ∧ p.idle s' j := by
  simp only [Progress.Precedes, onTheWay_append_singleton hr hs]
  constructor
  · rintro ⟨t, hway | rfl, ht⟩
    · exact .inl ⟨t, hway, ht⟩
    · exact .inr ht
  · rintro (⟨t, hway, ht⟩ | ht)
    · exact ⟨t, .inl hway, ht⟩
    · exact ⟨s', .inr rfl, ht⟩

/-- The empty order, before anything has happened. -/
theorem linearizes_start (hnone : ∀ i, p.reply s₀ i = none) :
    Linearizes p spec view step s₀ [] s₀ [] where
  nodup := List.nodup_nil
  replies i r := by simp [hnone i]
  explains := .nil
  inTime i j _ hj := by simp at hj

/-- A silent step leaves the order as it is. -/
theorem Linearizes.silent (hlin : Linearizes p spec view step s₀ ls s h)
    (hr : run step s₀ ls = some s) (hs : step s l = some s') (hview : view s' = view s)
    (hreply : p.reply s' = p.reply s) : Linearizes p spec view step s₀ (ls ++ [l]) s' h where
  nodup := hlin.nodup
  replies i r := by
    rw [hreply]
    exact hlin.replies i r
  explains := by
    rw [hview]
    exact hlin.explains
  inTime i j hij hj := by
    obtain hold | ⟨-, hidle⟩ := (precedes_append_singleton hr hs).mp hij
    · exact hlin.inTime i j hold hj
    · -- what has not begun is not in the order
      rw [hlin.mem_iff, ← hreply, p.reply_of_idle hidle] at hj
      cases hj

variable [DecidableEq ι]

/-- A call that takes effect comes last. -/
theorem Linearizes.takes (hlin : Linearizes p spec view step s₀ ls s h)
    (hr : run step s₀ ls = some s) (hs : step s l = some s')
    (hended : ∀ i j, p.Precedes step s₀ ls i j → (p.reply s i).isSome = true)
    (hnone : p.reply s i = none) (hreply : p.reply s' = Function.update (p.reply s) i (some r))
    (hspec : spec (view s) i r (view s')) :
    Linearizes p spec view step s₀ (ls ++ [l]) s' (h ++ [(i, r)]) where
  nodup := by
    have hnew : i ∉ h.map Prod.fst := by
      rw [hlin.mem_iff, hnone]
      exact Bool.false_ne_true
    rw [List.map_append, List.map_singleton]
    refine List.nodup_append.mpr ⟨hlin.nodup, List.nodup_singleton i, ?_⟩
    rintro j hj k hk rfl
    obtain rfl : j = i := List.mem_singleton.mp hk
    exact hnew hj
  replies j r' := by
    rw [List.mem_append, hlin.replies, hreply, List.mem_singleton, Prod.mk.injEq]
    by_cases hj : j = i
    · subst hj
      rw [hnone, Function.update_self]
      simp [eq_comm]
    · simp [hj]
  explains := .snoc hlin.explains hspec
  inTime j k hjk hk := by
    rw [List.map_append, List.map_singleton] at hk ⊢
    obtain hold | ⟨-, hidle⟩ := (precedes_append_singleton hr hs).mp hjk
    · rw [List.mem_append, List.mem_singleton] at hk
      by_cases hmem : k ∈ h.map Prod.fst
      · exact (hlin.inTime j k hold hmem).trans (List.sublist_append_left _ _)
      · -- the call that takes effect now comes after all that have ended
        obtain rfl := hk.resolve_left hmem
        have hj : j ∈ h.map Prod.fst := hlin.mem_iff.mpr (hended j k hold)
        exact (List.singleton_sublist.mpr hj).append (List.Sublist.refl [k])
    · have hsome : (p.reply s' k).isSome = true := by
        rw [hreply]
        rw [List.mem_append, hlin.mem_iff, List.mem_singleton] at hk
        by_cases hki : k = i
        · rw [hki, Function.update_self]
          rfl
        · rw [Function.update_of_ne hki]
          exact hk.resolve_right hki
      rw [p.reply_of_idle hidle] at hsome
      cases hsome

/-- What has taken effect stays so. -/
theorem Effect.isSome_reply (he : Effect p spec view s s') (hi : (p.reply s i).isSome = true) :
    (p.reply s' i).isSome = true := by
  cases he with
  | silent _ hreply => rwa [hreply]
  | takes k r hnone hreply _ =>
    rw [hreply]
    by_cases hk : i = k
    · rw [hk, Function.update_self]
      rfl
    · rwa [Function.update_of_ne hk]

/-- **Linearizability by effects**: if every step that keeps to the invariant `I` is silent or lets
one call take effect, every run has a linearization. -/
theorem linearizes_of_run {I : σ → Prop}
    (hstep : ∀ s l s', I s → step s l = some s' → I s' ∧ Effect p spec view s s')
    (hI : I s₀) (hnone : ∀ i, p.reply s₀ i = none) (hr : run step s₀ ls = some s) :
    I s ∧ ∃ h, Linearizes p spec view step s₀ ls s h := by
  -- also: who had ended when another call had not begun has taken effect
  let J (ls : List Λ) (s : σ) : Prop :=
    I s ∧ (∃ h, Linearizes p spec view step s₀ ls s h) ∧
      ∀ i j, p.Precedes step s₀ ls i j → (p.reply s i).isSome = true
  have hJ : J ls s := by
    refine run_history (P := fun _ _ => True) ?_ ⟨hI, ⟨[], linearizes_start hnone⟩, ?_⟩
      (along_true _ _) hr
    · rintro ls s l s' hr ⟨hI, ⟨h, hlin⟩, hended⟩ - hs
      obtain ⟨hI', heffect⟩ := hstep s l s' hI hs
      refine ⟨hI', ?_, ?_⟩
      · cases heffect with
        | silent hview hreply => exact ⟨h, hlin.silent hr hs hview hreply⟩
        | takes i r hnone hreply hspec =>
          exact ⟨h ++ [(i, r)], hlin.takes hr hs hended hnone hreply hspec⟩
      · intro i j hij
        obtain hold | ⟨hend, -⟩ := (precedes_append_singleton hr hs).mp hij
        · exact heffect.isSome_reply (hended i j hold)
        · exact p.reply_of_ended hend
    · rintro i j ⟨t, hway, hend, -⟩
      rw [onTheWay_nil.mp hway] at hend
      exact p.reply_of_ended hend
  exact ⟨hJ.1, hJ.2.1⟩

end Linearizes

end Foundations
