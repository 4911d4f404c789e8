import ShardCache.Cluster.HybridClock
import ShardCache.Foundations.Run
import ShardCache.Protocol.Command

/-!
# Threads on the hybrid clock

Threads draw timestamps from one clock, and merge those of other nodes into it. Each call loads the
last value handed out and tries to replace it with a compare-exchange, until no other thread was in
between. The order in which the calls take effect is the order in which they succeed.

A timestamp is past all that came before it as long as the clock is not at its end. It can be moved
there by one message: any version is accepted from another node.

## Main definitions

* `HybridClock.Threads`, `HybridClock.step`: the clock with the calls under way, and one access to it
* `HybridClock.Increasing`: each timestamp exceeds what was handed out or observed before
* `HybridClock.BelowEnd`: no timestamp is drawn at the end of the clock

## Main results

* `HybridClock.clock_wraps`: after the largest version was observed, the next timestamp is 0
* `HybridClock.clock_increasing`: the clock never goes backwards in a run that stays below its end
-/

namespace ShardCache.HybridClock

open Foundations

/-- A call under way: what it was called with, and the value of the clock that it has loaded. -/
inductive ClockCall where
  | now (physicalMs loaded : UInt64)
  | observe (remote loaded : UInt64)
deriving DecidableEq, Repr

/-- The value of the clock that the call has loaded. -/
def ClockCall.loaded : ClockCall → UInt64
  | .now _ loaded | .observe _ loaded => loaded

/-- A call that took effect: `now` with its result, or `observe`. -/
inductive Event where
  | drawn (result : UInt64)
  | observed (remote : UInt64)
deriving DecidableEq, Repr

/-- The timestamp of an event. -/
def Event.timestamp : Event → UInt64
  | .drawn t | .observed t => t

/-- The clock, the calls under way, and the events in the order in which they took effect. -/
structure Threads where
  last : UInt64 := 0
  calls : List ClockCall := []
  log : List Event := []
deriving DecidableEq, Repr

/-- A thread calls `now` or `observe` and loads the clock, or a call makes an attempt. A weak
compare-exchange may fail although the value is the one expected: `spurious`. -/
inductive ClockLabel where
  | now (physicalMs : UInt64)
  | observe (remote : UInt64)
  | attempt (i : ℕ) (spurious : Bool)
deriving DecidableEq, Repr

namespace Threads

/-- Call `i` takes effect as `e`, and the clock moves on to `last`. -/
def complete (s : Threads) (i : ℕ) (last : UInt64) (e : Event) : Threads :=
  { last := last, calls := s.calls.eraseIdx i, log := s.log ++ [e] }

/-- The compare-exchange of call `i` fails, and loads the clock again. -/
def reload (s : Threads) (i : ℕ) (c : ClockCall) : Threads :=
  { s with calls := s.calls.set i c }

end Threads

/-- One turn of the loop of call `i`. -/
def attempt (s : Threads) (i : ℕ) (spurious : Bool) : Option Threads :=
  match s.calls[i]? with
  | none => none
  | some (.now physicalMs loaded) =>
    let next := now loaded physicalMs
    -- the wall clock is read once, before the loop
    if s.last = loaded ∧ spurious = false then some (s.complete i next (.drawn next))
    else some (s.reload i (.now physicalMs s.last))
  | some (.observe remote loaded) =>
    if remote > loaded then
      -- `last_.compare_exchange_weak(last, remote)`
      if s.last = loaded ∧ spurious = false then some (s.complete i remote (.observed remote))
      else some (s.reload i (.observe remote s.last))
    else some (s.complete i s.last (.observed remote))

/-- One access to the clock. -/
def step (s : Threads) : ClockLabel → Option Threads
  | .now physicalMs => some { s with calls := s.calls ++ [.now physicalMs s.last] }
  | .observe remote => some { s with calls := s.calls ++ [.observe remote s.last] }
  | .attempt i spurious => attempt s i spurious

/-- Each timestamp that is drawn exceeds all that were drawn or observed before. -/
def Increasing (log : List Event) : Prop :=
  log.Pairwise fun earlier later =>
    ∀ result, later = .drawn result → earlier.timestamp < result

/-- The step is an attempt to draw a timestamp. -/
def ClockLabel.draws (s : Threads) : ClockLabel → Bool
  | .attempt i _ =>
    match s.calls[i]? with
    | some (.now _ _) => true
    | _ => false
  | .now _ | .observe _ => false

/-- No timestamp is drawn while the clock is at its end. -/
def BelowEnd (s : Threads) (l : ClockLabel) : Prop := l.draws s = true → s.last ≠ last64

instance (s : Threads) (l : ClockLabel) : Decidable (BelowEnd s l) :=
  inferInstanceAs (Decidable (_ → _))

/-! ## The end of the clock -/

/-- **The clock goes back to 0**: a `REPL_SET` with the largest version is accepted, and after it was
observed the next timestamp is the smallest one. -/
theorem clock_wraps :
    Parser.parse [ascii "REPL_SET", [107], [118], ascii "18446744073709551615"] =
        { type := .replSet, key := [107], value := [118], version := last64 } ∧
      (run step {} [.observe last64, .attempt 0 false, .now 1700000000000, .attempt 0 false]).map
        Threads.log = some [.observed last64, .drawn 0] := by
  constructor
  · decide
  · decide

/-! ## What the calls keep -/

/-- What was logged and loaded is no later than the clock, and each timestamp is past the earlier
ones. -/
structure Ordered (s : Threads) : Prop where
  logged : ∀ e ∈ s.log, e.timestamp ≤ s.last
  loaded : ∀ c ∈ s.calls, c.loaded ≤ s.last
  increasing : Increasing s.log

variable {s s' : Threads}

/-- A call takes effect with a timestamp that the clock has reached. -/
theorem Ordered.complete (h : Ordered s) (i : ℕ) {last : UInt64} {e : Event}
    (hlast : s.last ≤ last) (he : e.timestamp ≤ last)
    (hdrawn : ∀ result, e = .drawn result → s.last < result) : Ordered (s.complete i last e) where
  logged := by
    intro e' he'
    rcases List.mem_append.mp he' with hold | hnew
    · exact (h.logged e' hold).trans hlast
    · obtain rfl := List.mem_singleton.mp hnew
      exact he
  loaded c hc := (h.loaded c (List.mem_of_mem_eraseIdx hc)).trans hlast
  increasing := by
    refine List.pairwise_append.mpr ⟨h.increasing, List.pairwise_singleton _ _, ?_⟩
    intro earlier hearlier later hlater result hresult
    obtain rfl := List.mem_singleton.mp hlater
    exact (h.logged earlier hearlier).trans_lt (hdrawn result hresult)

/-- A call loads the clock. -/
theorem Ordered.load (h : Ordered s) {calls : List ClockCall}
    (hcalls : ∀ c ∈ calls, c ∈ s.calls ∨ c.loaded = s.last) :
    Ordered { s with calls := calls } where
  logged := h.logged
  loaded c hc := by
    rcases hcalls c hc with hold | hnew
    · exact h.loaded c hold
    · exact hnew.le
  increasing := h.increasing

theorem Ordered.append (h : Ordered s) {c : ClockCall} (hc : c.loaded = s.last) :
    Ordered { s with calls := s.calls ++ [c] } := by
  refine h.load fun c' hc' => ?_
  rcases List.mem_append.mp hc' with hold | hnew
  · exact Or.inl hold
  · obtain rfl := List.mem_singleton.mp hnew
    exact Or.inr hc

theorem Ordered.reload (h : Ordered s) (i : ℕ) {c : ClockCall} (hc : c.loaded = s.last) :
    Ordered (s.reload i c) := by
  refine h.load fun c' hc' => ?_
  rcases List.mem_or_eq_of_mem_set hc' with hold | rfl
  · exact Or.inl hold
  · exact Or.inr hc

theorem Ordered.of_now {i : ℕ} {spurious : Bool} {physicalMs loaded : UInt64} (h : Ordered s)
    (hend : s.last ≠ last64) (hcall : s.calls[i]? = some (.now physicalMs loaded))
    (hs : attempt s i spurious = some s') : Ordered s' := by
  rw [attempt, hcall] at hs
  dsimp only at hs
  split_ifs at hs with hexchange
  · -- the exchange succeeds on the value that was loaded
    obtain rfl := Option.some.inj hs
    obtain ⟨rfl, -⟩ := hexchange
    have hlt : s.last < now s.last physicalMs := lt_now physicalMs hend
    generalize now s.last physicalMs = next at hlt ⊢
    refine h.complete i hlt.le le_rfl fun result hresult => ?_
    rwa [← Event.drawn.inj hresult]
  · obtain rfl := Option.some.inj hs
    exact h.reload i rfl

theorem Ordered.of_observe {i : ℕ} {spurious : Bool} {remote loaded : UInt64} (h : Ordered s)
    (hcall : s.calls[i]? = some (.observe remote loaded))
    (hs : attempt s i spurious = some s') : Ordered s' := by
  rw [attempt, hcall] at hs
  dsimp only at hs
  split_ifs at hs with hremote hexchange
  · obtain rfl := Option.some.inj hs
    obtain ⟨rfl, -⟩ := hexchange
    exact h.complete i (le_of_lt hremote) le_rfl nofun
  · obtain rfl := Option.some.inj hs
    exact h.reload i rfl
  · -- the clock was past the timestamp when it was loaded, and has not gone back since
    obtain rfl := Option.some.inj hs
    have hloaded : loaded ≤ s.last := h.loaded _ (List.mem_of_getElem? hcall)
    exact h.complete i le_rfl ((not_lt.mp hremote).trans hloaded) nofun

/-- Every access keeps the order, if no timestamp is drawn at the end of the clock. -/
theorem Ordered.of_step {l : ClockLabel} (h : Ordered s) (hbelow : BelowEnd s l)
    (hs : step s l = some s') : Ordered s' := by
  cases l with
  | now physicalMs =>
    cases hs
    exact h.append rfl
  | observe remote =>
    cases hs
    exact h.append rfl
  | attempt i spurious =>
    cases hcall : s.calls[i]? with
    | none => simp [step, attempt, hcall] at hs
    | some c =>
      cases c with
      | now physicalMs loaded =>
        exact h.of_now (hbelow (by simp [ClockLabel.draws, hcall])) hcall hs
      | observe remote loaded => exact h.of_observe hcall hs

/-- **The clock never goes backwards** in a run that draws no timestamp at its end: each `now` returns
more than every earlier `now`, and more than every timestamp observed before. -/
theorem clock_increasing {labels : List ClockLabel} {s : Threads}
    (hbelow : Along step BelowEnd {} labels) (hrun : run step {} labels = some s) :
    Increasing s.log := by
  have hinit : Ordered {} := ⟨nofun, nofun, List.Pairwise.nil⟩
  exact (run_invariant (fun s l s' h hb hs => h.of_step hb hs) hinit hbelow hrun).increasing

/-- Two threads draw a timestamp at the same time from a wall clock that stands, between two messages
of other nodes; one of the exchanges fails. -/
theorem clock_increasing_twoThreads :
    ∃ s, run step {} [.observe 7, .attempt 0 false, .now 0, .now 0, .attempt 1 false,
        .attempt 0 false, .attempt 0 false, .observe 3, .attempt 0 false] = some s ∧
      s.log = [.observed 7, .drawn 8, .drawn 9, .observed 3] ∧ Increasing s.log := by
  have hbelow : Along step BelowEnd {} [.observe 7, .attempt 0 false, .now 0, .now 0,
      .attempt 1 false, .attempt 0 false, .attempt 0 false, .observe 3, .attempt 0 false] := by
    decide
  have hrun : run step {} [.observe 7, .attempt 0 false, .now 0, .now 0, .attempt 1 false,
      .attempt 0 false, .attempt 0 false, .observe 3, .attempt 0 false] =
      some { last := 9, log := [.observed 7, .drawn 8, .drawn 9, .observed 3] } := by
    decide
  exact ⟨_, hrun, rfl, clock_increasing hbelow hrun⟩

end ShardCache.HybridClock
