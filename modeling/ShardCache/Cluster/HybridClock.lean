import ShardCache.Foundations.MachineOrder

/-!
# The hybrid logical clock

Versions are stamped by a hybrid logical clock: the high 48 bits follow the wall clock in
milliseconds, the low 16 bits count. The compare-exchange loops of `now` and `observe` are atomic
updates of the last value handed out.

## Main definitions

* `HybridClock.now`, `HybridClock.observe`: the value after a local event, and after merging a
  timestamp of another node

## Main results

* `HybridClock.lt_now`: a local event moves the clock past its last value, unless it is at its end
* `HybridClock.le_observe`, `HybridClock.remote_le_observe`: merging moves the clock up to the
  timestamp merged
-/

namespace ShardCache

namespace HybridClock

/-- `kLogicalBits`. -/
def logicalBits : UInt64 := 16

/-- The largest timestamp: `now` wraps when the clock stands on it. -/
def last64 : UInt64 := 18446744073709551615

/-- `HybridClock::now`: the timestamp of a new local event, from the last one and the wall clock
in milliseconds. -/
def now (last physicalMs : UInt64) : UInt64 :=
  let physical := physicalMs <<< logicalBits
  if physical > last then physical else last + 1

/-- `HybridClock::observe`: the last value after merging a timestamp of another node. -/
def observe (last remote : UInt64) : UInt64 :=
  if remote > last then remote else last

/-- A local event moves the clock past its last value. -/
theorem lt_now {last : UInt64} (physicalMs : UInt64) (h : last ≠ last64) :
    last < now last physicalMs := by
  unfold now
  simp only
  split
  · assumption
  · simp only [last64] at h
    grind

/-- A timestamp is no older than the wall clock. -/
theorem physical_le_now {last : UInt64} (physicalMs : UInt64) (h : last ≠ last64) :
    physicalMs <<< logicalBits ≤ now last physicalMs := by
  have hlt := lt_now physicalMs h
  unfold now at hlt ⊢
  simp only at hlt ⊢
  split
  · exact le_rfl
  · rw [if_neg ‹_›] at hlt
    exact (not_lt.mp ‹_›).trans hlt.le

theorem le_observe (last remote : UInt64) : last ≤ observe last remote := by
  unfold observe
  split
  · exact le_of_lt ‹_›
  · exact le_rfl

theorem remote_le_observe (last remote : UInt64) : remote ≤ observe last remote := by
  unfold observe
  split
  · exact le_rfl
  · exact not_lt.mp ‹_›

end HybridClock

end ShardCache
