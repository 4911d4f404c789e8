import ShardCache.Store.SingleFlight

/-!
# One fetch for a key at a time

What is true of every state that callers of single flight can come to, and what the steps of a run
tell of it. From both, no two fetches for one key run at a time, and whoever found the entry of a
leader has the outcome of its fetch. Nobody waits for ever: who is asleep waits for a leader that
has yet to notify it.

## Main definitions

* `SingleFlight.Coherent`: what is true of every state
* `SingleFlight.Recorded`: what the steps of a run tell of the state it leads to
* `SingleFlight.Inserted`, `SingleFlight.FoundEntry`, `SingleFlight.Erased`, `SingleFlight.Fetched`:
  what a caller did in a run

## Main results

* `SingleFlight.Coherent.of_step`, `SingleFlight.Recorded.of_step`: one step
* `SingleFlight.length_le_of_run`, `SingleFlight.Coherent.exists_step_or_over`: every caller comes
  to its end
* `SingleFlight.one_fetch_per_key`: single flight
-/

namespace ShardCache

open Foundations

namespace SingleFlight

variable {ι ε : Type} {key : ι → Key} {ls : List (Label ι ε)} {s s' : SingleFlight ι ε}
  {l : Label ι ε} {i j : ι}

/-! ## What is true of every state -/

variable (key) in
/-- What is true of every state. The entries of the map are those of the leaders that have not taken
them out. A caller that is not a leader has the call of one. Who is asleep will still be notified,
and who has finished has the outcome of the fetch. -/
structure Coherent (s : SingleFlight ι ε) : Prop where
  entry : ∀ k i, s.calls[k]? = some i ↔ key i = k ∧ (s.phase i).leads = true
  call : ∀ i, s.heap i = (s.phase i).call
  joined : ∀ i j, (s.phase i).joined = some j → (s.phase j).isLeader = true
  asleep : ∀ i j, s.phase i = .asleep j → (s.phase j).awaited = true
  finished : ∀ i j outcome, s.phase i = .finished j outcome →
    (s.phase j).settled = some outcome

theorem coherent_start : Coherent key ({} : SingleFlight ι ε) where
  entry k i := by simp [Phase.leads]
  call i := rfl
  joined i j h := by simp [Phase.joined] at h
  asleep i j h := by simp at h
  finished i j outcome h := by simp at h

/-- No two leaders have entries for one key. -/
theorem Coherent.eq_of_leads (h : Coherent key s) (hi : (s.phase i).leads = true)
    (hj : (s.phase j).leads = true) (hkey : key i = key j) : i = j := by
  have hentry := (h.entry (key j) i).mpr ⟨hkey, hi⟩
  rw [(h.entry (key j) j).mpr ⟨rfl, hj⟩] at hentry
  exact (Option.some.inj hentry).symm

/-- Once all callers have come to their end, the map is empty. -/
theorem Coherent.calls_eq_empty (h : Coherent key s)
    (hover : ∀ i, (s.phase i).outcome.isSome = true) : s.calls = ∅ := by
  refine Std.ExtTreeMap.ext_getElem? fun k => ?_
  rw [Std.ExtTreeMap.getElem?_empty, Option.eq_none_iff_forall_ne_some]
  intro i hi
  have hleads := ((h.entry k i).mp hi).2
  rw [Phase.leads_of_outcome (hover i)] at hleads
  cases hleads

/-- A caller that enters its key has the entry, and the others keep theirs. -/
theorem Coherent.entry_insert (h : Coherent key s) (hi : Inserting key s l i) (k : Key) (j : ι) :
    (s.calls.insert (key i) i)[k]? = some j ↔
      key j = k ∧ ((s.phase j).leads = true ∨ Inserting key s l j) ∧ ¬Erasing s l j := by
  have hnone : s.calls[key i]? = none := hi.2.2
  rw [Std.ExtTreeMap.getElem?_insert, hi.iff_eq, and_iff_left hi.not_erasing, and_or_left,
    ← h.entry]
  by_cases hk : key i = k
  · -- nobody had an entry for the key
    subst hk
    simp only [hnone, Std.compare_self, if_true, Option.some.injEq, reduceCtorEq, false_or]
    exact ⟨fun hij => ⟨hij ▸ rfl, hij⟩, fun hij => hij.2⟩
  · have hne : ¬(key j = k ∧ i = j) := fun hij => hk (hij.2 ▸ hij.1)
    simp [hk, hne]

/-- The entry that a caller takes out is its own. -/
theorem Coherent.entry_erase (h : Coherent key s) (hi : Erasing s l i) (k : Key) (j : ι) :
    (s.calls.erase (key i))[k]? = some j ↔
      key j = k ∧ ((s.phase j).leads = true ∨ Inserting key s l j) ∧ ¬Erasing s l j := by
  have hins : ¬Inserting key s l j := fun hj => hj.not_erasing hi
  have hentry : s.calls[key i]? = some i := by
    obtain ⟨-, result, exc, hnotified⟩ := hi
    exact (h.entry (key i) i).mpr ⟨rfl, by rw [hnotified]; rfl⟩
  rw [Std.ExtTreeMap.getElem?_erase, hi.iff_eq, or_iff_left hins, ← and_assoc, ← h.entry]
  by_cases hk : key i = k
  · subst hk
    simp [hentry]
  · have hne : s.calls[k]? = some j → i ≠ j := by
      rintro hj rfl
      exact hk ((h.entry k i).mp hj).1
    simpa [hk] using hne

variable [DecidableEq ι]

theorem Coherent.entry_of_step (h : Coherent key s) (hs : step key s l = some s') (k : Key)
    (j : ι) : s'.calls[k]? = some j ↔ key j = k ∧ (s'.phase j).leads = true := by
  rw [(callerStep hs j).leads_iff]
  obtain ⟨i, hi, hcalls⟩ | ⟨i, hi, hcalls⟩ | ⟨hcalls, hsame⟩ := calls_step hs
  · rw [hcalls]
    exact h.entry_insert hi k j
  · rw [hcalls]
    exact h.entry_erase hi k j
  · rw [hcalls, h.entry]
    simp [hsame j]

theorem Coherent.of_step (h : Coherent key s) (hs : step key s l = some s') : Coherent key s' where
  entry := h.entry_of_step hs
  call i := (callerStep hs i).call_eq (h.call i)
  joined i j hij := by
    refine (callerStep hs j).isLeader_iff.mpr (.inl ?_)
    obtain hold | ⟨-, -, hcalls⟩ := (callerStep hs i).joined_iff.mp hij
    · exact h.joined i j hold
    · exact (Phase.leads_eq_true_iff.mp ((h.entry (key i) j).mp hcalls).2).1
  asleep i j hij := by
    obtain ⟨hold, hn⟩ | ⟨rfl, hi, hdone⟩ := (callerStep hs i).of_asleep hij
    · exact ((callerStep hs j).awaited (h.asleep i j hold)).resolve_right hn
    · -- the caller has just gone to sleep, and the call it has is not done
      have hleader := h.joined i j (by rw [hi]; rfl)
      rw [h.call j] at hdone
      have hawaited := Phase.awaited_of_isLeader hleader hdone
      refine ((callerStep hs j).awaited hawaited).resolve_right ?_
      exact not_notifies hi (by nofun) j
  finished i j outcome hij := by
    refine (callerStep hs j).settled_iff.mpr (.inl ?_)
    obtain hold | ⟨hdone, houtcome⟩ := (callerStep hs i).of_finished hij
    · exact h.finished i j outcome hold
    · rw [h.call j] at hdone houtcome
      rw [Phase.settled_of_done hdone, houtcome]

/-- **Every run** leads to a coherent state. -/
theorem coherent_of_run (hr : run (step key) {} ls = some s) : Coherent key s :=
  run_invariant (fun _ _ _ h _ hs => h.of_step hs) coherent_start (along_true _ _) hr

/-! ## What the steps of a run tell of a state -/

variable (key) in
/-- In the run along `ls`, the caller `i` has entered its key in the map: it is a leader. -/
def Inserted (ls : List (Label ι ε)) (i : ι) : Prop :=
  Sometime (step key) (fun s l => Inserting key s l i) {} ls

variable (key) in
/-- In the run along `ls`, the caller `i` has found the entry of `j`. -/
def FoundEntry (ls : List (Label ι ε)) (i j : ι) : Prop :=
  Sometime (step key) (fun s l => Finding key s l i j) {} ls

variable (key) in
/-- In the run along `ls`, the caller `i` has taken its key out of the map. -/
def Erased (ls : List (Label ι ε)) (i : ι) : Prop :=
  Sometime (step key) (fun s l => Erasing s l i) {} ls

/-- In the run along `ls`, the fetch of the caller `i` has ended with `outcome`, and only once. -/
def Fetched (ls : List (Label ι ε)) (i : ι) (outcome : Except ε Bytes) : Prop :=
  .fetch i outcome ∈ ls ∧ ∀ other, .fetch i other ∈ ls → other = outcome

variable (key) in
/-- How far each caller has come is what the run has made of it. -/
structure Recorded (ls : List (Label ι ε)) (s : SingleFlight ι ε) : Prop where
  inserted : ∀ i, Inserted key ls i ↔ (s.phase i).isLeader = true
  found : ∀ i j, FoundEntry key ls i j ↔ (s.phase i).joined = some j
  fetch : ∀ i outcome, .fetch i outcome ∈ ls ↔ (s.phase i).settled = some outcome
  erased : ∀ i, Erased key ls i ↔ (s.phase i).hasErased = true

theorem recorded_start : Recorded key [] ({} : SingleFlight ι ε) where
  inserted i := iff_of_false (not_sometime_nil _) (by nofun)
  found i j := iff_of_false (not_sometime_nil _) (by nofun)
  fetch i outcome := iff_of_false List.not_mem_nil (by nofun)
  erased i := iff_of_false (not_sometime_nil _) (by nofun)

theorem Recorded.of_step (h : Recorded key ls s) (hr : run (step key) {} ls = some s)
    (hs : step key s l = some s') : Recorded key (ls ++ [l]) s' where
  inserted i := by
    rw [Inserted, sometime_append_singleton hr, (callerStep hs i).isLeader_iff, ← h.inserted i]
    rfl
  found i j := by
    rw [FoundEntry, sometime_append_singleton hr, (callerStep hs i).joined_iff, ← h.found i j]
    rfl
  fetch i outcome := by
    rw [List.mem_append, List.mem_singleton, (callerStep hs i).settled_iff, ← h.fetch i outcome,
      eq_comm (a := l)]
  erased i := by
    rw [Erased, sometime_append_singleton hr, (callerStep hs i).hasErased_iff, ← h.erased i]
    rfl

theorem recorded_of_run (hr : run (step key) {} ls = some s) : Recorded key ls s :=
  run_history (fun _ _ _ _ hr h _ hs => h.of_step hr hs) recorded_start (along_true _ _) hr

theorem Recorded.fetched {outcome : Except ε Bytes} (h : Recorded key ls s)
    (hi : (s.phase i).settled = some outcome) : Fetched ls i outcome := by
  refine ⟨(h.fetch i outcome).mpr hi, fun other hother => ?_⟩
  exact Option.some.inj (((h.fetch i other).mp hother).symm.trans hi)

/-! ## Every caller comes to its end -/

section Completion

variable [Fintype ι]

/-- A step leaves less to do, but for a wakeup without a reason. -/
theorem Coherent.remaining_lt (h : Coherent key s) (hs : step key s l = some s') :
    s'.remaining < s.remaining + if l.spurious then 2 else 0 := by
  -- a call that is done stays done, and is done before those who wait are notified
  have hdone : ∀ j, (s.heap j).done = true → (s'.heap j).done = true :=
    fun j hj => (callerStep hs j).done (h.call j) hj
  have hnotifies : ∀ j, s.Notifies l j → (s.heap j).done = true := by
    rintro j ⟨-, result, exc, hj⟩
    rw [h.call j, hj]
    rfl
  -- summed over the callers, one step is made
  have hsum := Finset.sum_le_sum fun i (_ : i ∈ Finset.univ) =>
    (callerStep hs i).weight_add_le hdone hnotifies
  rw [Finset.sum_add_distrib, Finset.sum_add_distrib, Finset.sum_ite_eq, Finset.sum_ite_eq,
    if_pos (Finset.mem_univ _), if_pos (Finset.mem_univ _)] at hsum
  exact hsum

/-- A run is not longer than five steps for each caller and two for each wakeup without a reason. -/
theorem length_le_of_run (hr : run (step key) {} ls = some s) :
    ls.length ≤ 5 * Fintype.card ι + 2 * ls.countP Label.spurious := by
  have hlength : ls.length + s.remaining ≤
      ({} : SingleFlight ι ε).remaining + 2 * ls.countP Label.spurious :=
    length_add_le_of_run (fun _ _ _ h hs => ⟨h.of_step hs, h.remaining_lt hs⟩) coherent_start hr
  have hstart := remaining_le ({} : SingleFlight ι ε)
  omega

end Completion

/-- Who has not come to its end and is not asleep has a step to make. -/
theorem exists_step (hi : (s.phase i).outcome = none) (hawake : ∀ j, s.phase i ≠ .asleep j) :
    ∃ l s', l.spurious = false ∧ step key s l = some s' := by
  cases hphase : s.phase i with
  | fetching => exact ⟨.fetch i (.ok []), _, rfl, by rw [step, hphase]⟩
  | asleep j => exact absurd hphase (hawake j)
  | returned | finished =>
    rw [hphase] at hi
    cases hi
  | _ => exact ⟨.go i, _, rfl, by rw [step, hphase]⟩

/-- No caller waits for ever: as long as some have not come to their end, one has a step to make. -/
theorem Coherent.exists_step_or_over (h : Coherent key s) :
    (∀ i, (s.phase i).outcome.isSome = true) ∨
      ∃ l s', l.spurious = false ∧ step key s l = some s' := by
  by_cases hover : ∀ i, (s.phase i).outcome.isSome = true
  · exact .inl hover
  · right
    obtain ⟨i, hi⟩ := not_forall.mp hover
    have hnone : (s.phase i).outcome = none := by simpa using hi
    by_cases hawake : ∀ j, s.phase i ≠ .asleep j
    · exact exists_step hnone hawake
    · -- who is asleep waits for a leader that has yet to notify it
      obtain ⟨j, hj⟩ := not_forall.mp hawake
      have hawaited := h.asleep i j (not_not.mp hj)
      exact exists_step (Phase.outcome_of_awaited hawaited) (Phase.ne_asleep_of_awaited hawaited)

/-! ## Single flight -/

/-- **Single flight.** In every run of any number of callers, in whatever order they take their
sections and whatever their fetches return or throw: no two fetches for one key run at a time; the
map has a key from the step in which its leader enters it to the step in which that leader takes it
out; who comes to its end is a leader or has found the entry of one, and what it returns or throws
is the outcome of the fetch of that leader; the map is empty once all have come to their end. And
they do: the run is not longer than five steps for each caller and two for each wakeup without a
reason, and as long as some caller has not come to its end there is another step, with a reason. -/
theorem one_fetch_per_key [Fintype ι] (hr : run (step key) {} ls = some s) :
    (∀ i j, s.phase i = .fetching → s.phase j = .fetching → key i = key j → i = j) ∧
      (∀ k i, s.calls[k]? = some i ↔ key i = k ∧ Inserted key ls i ∧ ¬Erased key ls i) ∧
      (∀ i, (s.phase i).outcome.isSome = true → Inserted key ls i ∨ ∃ j, FoundEntry key ls i j) ∧
      (∀ i outcome, Inserted key ls i → (s.phase i).outcome = some outcome →
        Fetched ls i outcome) ∧
      (∀ i j outcome, FoundEntry key ls i j → (s.phase i).outcome = some outcome →
        Fetched ls j outcome) ∧
      ((∀ i, (s.phase i).outcome.isSome = true) → s.calls = ∅) ∧
      ls.length ≤ 5 * Fintype.card ι + 2 * ls.countP Label.spurious ∧
      ((∀ i, (s.phase i).outcome.isSome = true) ∨
        ∃ l s', l.spurious = false ∧ step key s l = some s') := by
  have h := coherent_of_run hr
  have hrec := recorded_of_run hr
  refine ⟨?_, ?_, ?_, ?_, ?_, h.calls_eq_empty, length_le_of_run hr, h.exists_step_or_over⟩
  · intro i j hi hj hkey
    exact h.eq_of_leads (by rw [hi]; rfl) (by rw [hj]; rfl) hkey
  · intro k i
    rw [h.entry, Phase.leads_eq_true_iff, hrec.inserted, hrec.erased]
  · intro i hi
    simp only [hrec.inserted, hrec.found]
    exact Phase.isLeader_or_joined hi
  · intro i outcome hinserted hi
    exact hrec.fetched (Phase.settled_of_outcome ((hrec.inserted i).mp hinserted) hi)
  · intro i j outcome hfound hi
    have hfinished := Phase.eq_finished ((hrec.found i j).mp hfound) hi
    exact hrec.fetched (h.finished i j outcome hfinished)

/-- Two callers for one key. The second finds the entry of the first, goes to sleep, wakes up
without a reason and sleeps again; the fetch throws. -/
def throwingRun : List (Label (Fin 2) Bool) :=
  [.go 0, .go 1, .go 1, .wake 1, .go 1, .fetch 0 (.error true), .go 0, .go 0, .go 1, .go 0]

/-- Both throw what the fetch threw. -/
theorem one_fetch_per_key_throws :
    ∃ s, run (step fun _ => []) {} throwingRun = some s ∧
      s.phase 0 = .returned [] (some true) ∧ s.phase 1 = .finished 0 (.error true) ∧
      Fetched throwingRun 0 (.error true) ∧ s.calls = ∅ := by
  have hr : run (step fun _ => []) {} throwingRun =
      some ((run (step fun _ => []) {} throwingRun).get (by decide)) :=
    (Option.some_get _).symm
  obtain ⟨-, -, -, -, hfollower, hempty, -⟩ := one_fetch_per_key hr
  refine ⟨_, hr, by decide, by decide, hfollower 1 0 _ ?_ (by decide), hempty (by decide)⟩
  exact ⟨[.go 0], .go 1, _, _, rfl, rfl, rfl, by decide, by decide⟩

end SingleFlight

end ShardCache
