import Mathlib

/-!
# Runs of a labelled transition function

A system is a partial step function `step : σ → Λ → Option σ`: the label resolves every choice of
the environment, and `none` says that the label is not enabled. A run follows a list of labels.

## Main definitions

* `run step s ls`: the state reached from `s` along the labels `ls`
* `Along step P s ls`: every step of the run along `ls` meets the condition `P`
* `Sometime step P s ls`: some step of the run along `ls` meets the condition `P`

## Main results

* `run_append`, `along_append`: runs and their conditions compose
* `run_invariant`: what every admissible step keeps, every admissible run keeps
* `run_history`: the same for what is said of a state and the labels that led to it
* `sometime_of_run`: what a run brings about is brought about by one of its steps
* `length_add_le_of_run`: a run is no longer than a measure that its steps make smaller
-/

namespace Foundations

variable {σ Λ : Type}

/-- The state reached from `s` along the labels `ls`, if each is enabled in its turn. -/
def run (step : σ → Λ → Option σ) : σ → List Λ → Option σ
  | s, [] => some s
  | s, l :: ls => (step s l).bind fun s' => run step s' ls

/-- Every step of the run from `s` along `ls` meets the condition `P` on the state before it and
its label. -/
def Along (step : σ → Λ → Option σ) (P : σ → Λ → Prop) : σ → List Λ → Prop
  | _, [] => True
  | s, l :: ls => P s l ∧ ∀ s', step s l = some s' → Along step P s' ls

instance Along.decidable (step : σ → Λ → Option σ) (P : σ → Λ → Prop)
    [∀ s l, Decidable (P s l)] : ∀ s ls, Decidable (Along step P s ls)
  | _, [] => .isTrue trivial
  | s, l :: ls =>
    have : Decidable (∀ s', step s l = some s' → Along step P s' ls) :=
      match step s l with
      | none => .isTrue fun _ h => nomatch h
      | some s' =>
        match Along.decidable step P s' ls with
        | .isTrue h => .isTrue fun _ hs => Option.some.inj hs ▸ h
        | .isFalse h => .isFalse fun hall => h (hall s' rfl)
    inferInstanceAs (Decidable (_ ∧ _))

variable {step : σ → Λ → Option σ} {P : σ → Λ → Prop}

@[simp] theorem run_nil (s : σ) : run step s [] = some s := rfl

theorem run_cons (s : σ) (l : Λ) (ls : List Λ) :
    run step s (l :: ls) = (step s l).bind fun s' => run step s' ls := rfl

theorem run_cons_eq_some {s s'' : σ} {l : Λ} {ls : List Λ} :
    run step s (l :: ls) = some s'' ↔ ∃ s', step s l = some s' ∧ run step s' ls = some s'' := by
  simp [run_cons, Option.bind_eq_some_iff]

theorem run_append (s : σ) (ls ms : List Λ) :
    run step s (ls ++ ms) = (run step s ls).bind fun s' => run step s' ms := by
  induction ls generalizing s with
  | nil => rfl
  | cons l ls ih =>
    rw [List.cons_append, run_cons, run_cons, Option.bind_assoc]
    exact congrArg _ (funext fun s' => ih s')

theorem run_append_eq_some {s s'' : σ} {ls ms : List Λ} :
    run step s (ls ++ ms) = some s'' ↔
      ∃ s', run step s ls = some s' ∧ run step s' ms = some s'' := by
  simp [run_append, Option.bind_eq_some_iff]

@[simp] theorem along_nil (s : σ) : Along step P s [] := trivial

theorem along_append {s s' : σ} {ls ms : List Λ} (h : Along step P s (ls ++ ms))
    (hr : run step s ls = some s') : Along step P s ls ∧ Along step P s' ms := by
  induction ls generalizing s with
  | nil =>
    obtain rfl : s = s' := by simpa using hr
    exact ⟨trivial, h⟩
  | cons l ls ih =>
    obtain ⟨s₁, hs, hr⟩ := run_cons_eq_some.mp hr
    refine ⟨⟨h.1, ?_⟩, (ih (h.2 s₁ hs) hr).2⟩
    intro s₂ hs₂
    obtain rfl : s₁ = s₂ := Option.some.inj (hs.symm.trans hs₂)
    exact (ih (h.2 s₁ hs) hr).1

theorem along_of_forall (h : ∀ s l, P s l) (s : σ) (ls : List Λ) : Along step P s ls := by
  induction ls generalizing s with
  | nil => trivial
  | cons l ls ih => exact ⟨h s l, fun s' _ => ih s'⟩

/-- Where every step is admissible. -/
theorem along_true (s : σ) (ls : List Λ) : Along step (fun _ _ => True) s ls :=
  along_of_forall (fun _ _ => trivial) s ls

/-- A condition on the labels alone holds along the run if every label meets it. -/
theorem Along.and_mem {Q : Λ → Prop} {s : σ} {ls : List Λ} (h : Along step P s ls)
    (hQ : ∀ l ∈ ls, Q l) : Along step (fun s l => Q l ∧ P s l) s ls := by
  induction ls generalizing s with
  | nil => trivial
  | cons l ls ih =>
    exact ⟨⟨hQ l List.mem_cons_self, h.1⟩, fun s' hs =>
      ih (h.2 s' hs) fun l hl => hQ l (List.mem_cons_of_mem _ hl)⟩

/-- **Invariant rule**: an invariant of every admissible step is an invariant of every
admissible run. -/
theorem run_invariant {I : σ → Prop}
    (hstep : ∀ s l s', I s → P s l → step s l = some s' → I s')
    {s s' : σ} {ls : List Λ} (hs : I s) (hP : Along step P s ls)
    (hr : run step s ls = some s') : I s' := by
  induction ls generalizing s with
  | nil =>
    obtain rfl : s = s' := by simpa using hr
    exact hs
  | cons l ls ih =>
    obtain ⟨s₁, hs₁, hr⟩ := run_cons_eq_some.mp hr
    exact ih (hstep s l s₁ hs hP.1 hs₁) (hP.2 s₁ hs₁) hr

/-- **History rule**: what one more admissible step keeps of a state and the labels that led to it,
every admissible run keeps. -/
theorem run_history {I : List Λ → σ → Prop} {s₀ : σ}
    (hstep : ∀ ls s l s', run step s₀ ls = some s → I ls s → P s l → step s l = some s' →
      I (ls ++ [l]) s')
    (hs : I [] s₀) {s : σ} {ls : List Λ} (hP : Along step P s₀ ls)
    (hr : run step s₀ ls = some s) : I ls s := by
  induction ls using List.reverseRecOn generalizing s with
  | nil =>
    obtain rfl : s₀ = s := by simpa using hr
    exact hs
  | append_singleton ls l ih =>
    obtain ⟨s₁, hr₁, hlast⟩ := run_append_eq_some.mp hr
    obtain ⟨s₂, hs₂, hnil⟩ := run_cons_eq_some.mp hlast
    obtain rfl : s₂ = s := by simpa using hnil
    obtain ⟨hP, hPl⟩ := along_append hP hr₁
    exact hstep ls s₁ l s₂ hr₁ (ih hP hr₁) hPl.1 hs₂

/-- Some step of the run from `s` along `ls` meets the condition `P` on the state before it and its
label. -/
def Sometime (step : σ → Λ → Option σ) (P : σ → Λ → Prop) (s : σ) (ls : List Λ) : Prop :=
  ∃ before l after s', ls = before ++ l :: after ∧ run step s before = some s' ∧ P s' l

theorem not_sometime_nil (s : σ) : ¬Sometime step P s [] := by
  rintro ⟨before, l, after, s', h, -⟩
  simp at h

theorem sometime_append_singleton {s s' : σ} {ls : List Λ} {l : Λ}
    (hr : run step s ls = some s') :
    Sometime step P s (ls ++ [l]) ↔ Sometime step P s ls ∨ P s' l := by
  constructor
  · rintro ⟨before, m, after, s₁, hls, hr₁, hP⟩
    induction after using List.reverseRecOn with
    | nil =>
      obtain ⟨rfl, hm⟩ := List.append_inj' hls rfl
      obtain rfl : l = m := by simpa using hm
      obtain rfl : s' = s₁ := Option.some.inj (hr.symm.trans hr₁)
      exact .inr hP
    | append_singleton after l' _ =>
      have hassoc : before ++ m :: (after ++ [l']) = (before ++ m :: after) ++ [l'] := by simp
      obtain ⟨hls, -⟩ := List.append_inj' (hls.trans hassoc) rfl
      exact .inl ⟨before, m, after, s₁, hls, hr₁, hP⟩
  · rintro (⟨before, m, after, s₁, rfl, hr₁, hP⟩ | hP)
    · exact ⟨before, m, after ++ [l], s₁, by simp, hr₁, hP⟩
    · exact ⟨ls, l, [], s', rfl, hr, hP⟩

/-- **What a run brings about** is brought about by one of its steps. -/
theorem sometime_of_run {Q : σ → Prop} {s s' : σ} {ls : List Λ} (hr : run step s ls = some s')
    (hs : ¬Q s) (hs' : Q s') :
    Sometime step (fun t l => ¬Q t ∧ ∃ t', step t l = some t' ∧ Q t') s ls := by
  induction ls generalizing s with
  | nil =>
    obtain rfl : s = s' := by simpa using hr
    exact absurd hs' hs
  | cons l ls ih =>
    obtain ⟨s₁, hs₁, hr⟩ := run_cons_eq_some.mp hr
    by_cases hQ : Q s₁
    · exact ⟨[], l, ls, s, rfl, rfl, hs, s₁, hs₁, hQ⟩
    · -- a later step brings it about
      obtain ⟨before, m, after, t, rfl, hrun, ht⟩ := ih hr hQ
      exact ⟨l :: before, m, after, t, rfl, run_cons_eq_some.mpr ⟨s₁, hs₁, hrun⟩, ht⟩

/-- **Measure rule**: if every step makes a measure smaller, but for those that meet `p`, which may
make it larger by less than `c`, then a run is no longer than the measure and `c` for each of
those. -/
theorem length_add_le_of_run {I : σ → Prop} {μ : σ → ℕ} {p : Λ → Bool} {c : ℕ}
    (hstep : ∀ s l s', I s → step s l = some s' → I s' ∧ μ s' < μ s + if p l then c else 0)
    {s s' : σ} {ls : List Λ} (hs : I s) (hr : run step s ls = some s') :
    ls.length + μ s' ≤ μ s + c * ls.countP p := by
  induction ls generalizing s with
  | nil =>
    obtain rfl : s = s' := by simpa using hr
    simp
  | cons l ls ih =>
    obtain ⟨s₁, hs₁, hr⟩ := run_cons_eq_some.mp hr
    obtain ⟨hinv, hlt⟩ := hstep s l s₁ hs hs₁
    have hle := ih hinv hr
    rw [List.length_cons, List.countP_cons, Nat.mul_add, mul_ite, Nat.mul_one, Nat.mul_zero]
    omega

end Foundations
