import ShardCache.Cluster.RoutingTable
import ShardCache.Foundations.MachineOrder
import ShardCache.Foundations.Run

/-!
# Routing tables cached by threads

`routing` returns the table of a cluster from a slot of the calling thread, if the slot is current.
All clusters of the process share the slot. What tells them apart is an epoch: every publish draws a
new one from a counter of the process, and the slot is current if its epoch is the one of the cluster.
The epoch is loaded without the lock under which a publish stores table and epoch together.

A table is known by its number in the order in which the tables of the process were made. The epoch
that is drawn with it is that number plus one, in 64 bits: the epochs of two tables differ until the
counter comes round.

## Main definitions

* `ThreadRouting.Process`, `ThreadRouting.step`: clusters and threads, and their atomic steps
* `ThreadRouting.Returned.Recent`: the table returned is one of the cluster, and not older than the
  last one that was published before the call

## Main results

* `ThreadRouting.Consistent.of_step`: epochs and tables stay paired
* `ThreadRouting.wrapped_epoch_returns_null`: a run in which the counter comes round
* `ThreadRouting.routing_recent`: no table is stale or foreign before that
-/

namespace ShardCache.ThreadRouting

open Foundations

/-- A call of `routing` under way on a cluster. `completed` is the number of publishes of the cluster
that were complete when the call began, `refreshing` whether the epochs were found to differ. -/
structure RoutingCall where
  cluster : ℕ
  completed : ℕ
  refreshing : Bool := false
deriving DecidableEq, Repr

/-- A thread: `t_routing` with the pointer to its table, and the call it is in. -/
structure Thread where
  epoch : UInt64 := 0
  table : Option ℕ := none
  call : Option RoutingCall := none
deriving DecidableEq, Repr

/-- `routing_` and `routing_epoch_` of a cluster, and the tables it has published. -/
structure Instance where
  routing : ℕ
  epoch : UInt64
  published : List ℕ
deriving DecidableEq, Repr

/-- What a call of `routing` returned, with the publishes of the cluster that were complete when it
began and the tables that the cluster had published when it returned. -/
structure Returned where
  table : Option ℕ
  completed : ℕ
  published : List ℕ
deriving DecidableEq, Repr

/-- The process: `g_routing_epoch`, the tables made so far, the clusters by their address, the
threads, and what `routing` has returned. -/
structure Process where
  globalEpoch : UInt64 := 0
  heap : List RoutingTable := []
  clusters : Std.ExtTreeMap ℕ Instance := ∅
  threads : List Thread := []
  returned : List Returned := []

/-- The steps of the process. A thread calls `routing`, loads the epoch of the cluster, and takes its
lock if the epochs differ. -/
inductive Label where
  | create (c : ℕ) (table : RoutingTable)
  | publish (c : ℕ) (table : RoutingTable)
  | destroy (c : ℕ)
  | spawn
  | call (t c : ℕ)
  | loadEpoch (t : ℕ)
  | refresh (t : ℕ)

/-- The step publishes a table. -/
def Label.publishes : Label → Bool
  | .create _ _ | .publish _ _ => true
  | _ => false

namespace Process

/-- The body of `publish_routing_locked` on the cluster `c`, which has published the tables `earlier`
so far. -/
def publish (p : Process) (c : ℕ) (earlier : List ℕ) (table : RoutingTable) : Process :=
  let epoch := p.globalEpoch + 1
  { p with
    globalEpoch := epoch
    heap := p.heap ++ [table]
    clusters := p.clusters.insert c ⟨p.heap.length, epoch, earlier ++ [p.heap.length]⟩ }

/-- Thread `t` goes on as `thread`. -/
def setThread (p : Process) (t : ℕ) (thread : Thread) : Process :=
  { p with threads := p.threads.set t thread }

/-- A thread returns the table in its slot. -/
def ret (p : Process) (t : ℕ) (thread : Thread) (call : RoutingCall) (i : Instance) : Process :=
  { p.setThread t { thread with call := none } with
    returned := p.returned ++ [⟨thread.table, call.completed, i.published⟩] }

end Process

/-- `t_routing.epoch != routing_epoch_.load()`: the thread refreshes its slot, or returns what is in
it. -/
def loadEpoch (p : Process) (t : ℕ) : Option Process := do
  let thread ← p.threads[t]?
  let call ← thread.call
  let i ← p.clusters[call.cluster]?
  if call.refreshing then none
  -- the slot is of another cluster, or of an earlier table
  else if thread.epoch ≠ i.epoch then
    return p.setThread t { thread with call := some { call with refreshing := true } }
  else return p.ret t thread call i

/-- The section under the lock: the slot takes the table and the epoch of the cluster. -/
def refresh (p : Process) (t : ℕ) : Option Process := do
  let thread ← p.threads[t]?
  let call ← thread.call
  let i ← p.clusters[call.cluster]?
  if call.refreshing then
    return p.ret t { thread with table := some i.routing, epoch := i.epoch } call i
  else none

/-- One step of the process. A cluster publishes its first table in its constructor, and is destroyed
only when no call on it is under way. -/
def step (p : Process) : Label → Option Process
  | .create c table => if p.clusters.contains c then none else some (p.publish c [] table)
  | .publish c table => (p.clusters[c]?).map fun i => p.publish c i.published table
  -- a call on a cluster that is gone would be a use after free
  | .destroy c =>
    if p.clusters.contains c ∧ ∀ thread ∈ p.threads, thread.call.map (·.cluster) ≠ some c then
      some { p with clusters := p.clusters.erase c }
    else none
  | .spawn => some { p with threads := p.threads ++ [{}] }
  -- the call begins: what was published before this is what it is measured against
  | .call t c => do
    let thread ← p.threads[t]?
    let i ← p.clusters[c]?
    if thread.call.isSome then none
    else return p.setThread t { thread with call := some ⟨c, i.published.length, false⟩ }
  | .loadEpoch t => loadEpoch p t
  | .refresh t => refresh p t

/-- The call returned a table of the cluster, and not an older one than the last that was published
when it began. -/
def Returned.Recent (r : Returned) : Prop :=
  ∃ j table, r.table = some table ∧ r.published[j]? = some table ∧ r.completed ≤ j + 1

/-! ## Tables and epochs -/

/-- The epoch is the one that was drawn for the table; `made` tables exist. -/
def Paired (made : ℕ) (table : ℕ) (epoch : UInt64) : Prop :=
  table < made ∧ epoch = UInt64.ofNat (table + 1)

/-- The cluster holds the last table that it has published, with its epoch. -/
structure InstanceOk (made : ℕ) (i : Instance) : Prop where
  paired : Paired made i.routing i.epoch
  last : i.published.getLast? = some i.routing

/-- The slot of the thread is as it was initially, or holds a table with its epoch; the cluster of a
call under way exists, and has published what it had published when the call began. -/
structure ThreadOk (made : ℕ) (clusters : Std.ExtTreeMap ℕ Instance) (thread : Thread) : Prop where
  slot : thread.table = none ∧ thread.epoch = 0 ∨
    ∃ table, thread.table = some table ∧ Paired made table thread.epoch
  call : ∀ call ∈ thread.call, ∃ i, clusters[call.cluster]? = some i ∧
    call.completed ≤ i.published.length

/-- What holds of the process until the counter comes round. -/
structure Consistent (p : Process) : Prop where
  epoch : p.globalEpoch = UInt64.ofNat p.heap.length
  clusters : ∀ (c : ℕ) i, p.clusters[c]? = some i → InstanceOk p.heap.length i
  threads : ∀ thread ∈ p.threads, ThreadOk p.heap.length p.clusters thread
  returned : ∀ r ∈ p.returned, r.Recent

variable {p p' : Process} {made : ℕ} {table : ℕ} {epoch : UInt64}

theorem Paired.mono {made' : ℕ} (h : Paired made table epoch) (hle : made ≤ made') :
    Paired made' table epoch :=
  ⟨h.1.trans_le hle, h.2⟩

theorem InstanceOk.mono {made' : ℕ} {i : Instance} (h : InstanceOk made i) (hle : made ≤ made') :
    InstanceOk made' i :=
  ⟨h.paired.mono hle, h.last⟩

/-- Different tables have different epochs, and none has the epoch 0 of an empty slot, until the
counter comes round. -/
theorem Paired.toNat_epoch (h : Paired made table epoch) (hmade : made < 2 ^ 64) :
    epoch.toNat = table + 1 := by
  have hlt : table + 1 < 2 ^ 64 := Nat.lt_of_le_of_lt h.1 hmade
  rw [h.2]
  exact UInt64.toNat_ofNat_of_lt' hlt

/-- A slot with the epoch of a cluster holds the table of the cluster. -/
theorem ThreadOk.table_eq {clusters : Std.ExtTreeMap ℕ Instance} {thread : Thread} {i : Instance}
    (h : ThreadOk made clusters thread) (hi : InstanceOk made i) (hmade : made < 2 ^ 64)
    (hepoch : thread.epoch = i.epoch) : thread.table = some i.routing := by
  have hnat := hi.paired.toNat_epoch hmade
  rcases h.slot with ⟨-, hzero⟩ | ⟨table, htable, hpaired⟩
  · -- no epoch of a cluster is 0
    rw [← hepoch, hzero] at hnat
    exact absurd hnat (by simp)
  · have hnat' := hpaired.toNat_epoch hmade
    rw [hepoch] at hnat'
    rw [htable, show table = i.routing by omega]

/-- The last table of the cluster is recent. -/
theorem InstanceOk.recent {i : Instance} (h : InstanceOk made i) {completed : ℕ}
    (hle : completed ≤ i.published.length) :
    Returned.Recent ⟨some i.routing, completed, i.published⟩ := by
  have hlast := h.last
  rw [List.getLast?_eq_getElem?] at hlast
  exact ⟨i.published.length - 1, i.routing, rfl, hlast, by simp only; omega⟩

/-! ## Steps -/

/-- The load of the epoch sends the thread to the lock, or returns what is in its slot. -/
theorem loadEpoch_eq_some {t : ℕ} (hs : loadEpoch p t = some p') :
    ∃ thread call i, p.threads[t]? = some thread ∧ thread.call = some call ∧
      p.clusters[call.cluster]? = some i ∧
      (thread.epoch ≠ i.epoch ∧
          p' = p.setThread t { thread with call := some { call with refreshing := true } } ∨
        thread.epoch = i.epoch ∧ p' = p.ret t thread call i) := by
  obtain ⟨thread, hthread, hs⟩ := Option.bind_eq_some_iff.mp hs
  obtain ⟨call, hcall, hs⟩ := Option.bind_eq_some_iff.mp hs
  obtain ⟨i, hi, hs⟩ := Option.bind_eq_some_iff.mp hs
  refine ⟨thread, call, i, hthread, hcall, hi, ?_⟩
  split_ifs at hs with hrefreshing hepoch
  · exact Or.inl ⟨hepoch, (Option.some.inj hs).symm⟩
  · exact Or.inr ⟨not_not.mp hepoch, (Option.some.inj hs).symm⟩

/-- Under the lock, the thread returns the table that it has just taken. -/
theorem refresh_eq_some {t : ℕ} (hs : refresh p t = some p') :
    ∃ thread call i, p.threads[t]? = some thread ∧ thread.call = some call ∧
      p.clusters[call.cluster]? = some i ∧
      p' = p.ret t { thread with table := some i.routing, epoch := i.epoch } call i := by
  obtain ⟨thread, hthread, hs⟩ := Option.bind_eq_some_iff.mp hs
  obtain ⟨call, hcall, hs⟩ := Option.bind_eq_some_iff.mp hs
  obtain ⟨i, hi, hs⟩ := Option.bind_eq_some_iff.mp hs
  split_ifs at hs
  exact ⟨thread, call, i, hthread, hcall, hi, (Option.some.inj hs).symm⟩

theorem Consistent.publish (h : Consistent p) {c : ℕ} {earlier : List ℕ}
    (hearlier : ∀ i, p.clusters[c]? = some i → i.published = earlier) (table : RoutingTable) :
    Consistent (p.publish c earlier table) := by
  have hlen : (p.heap ++ [table]).length = p.heap.length + 1 := List.length_append
  have hepoch : p.globalEpoch + 1 = UInt64.ofNat (p.heap.length + 1) := by
    rw [h.epoch, UInt64.ofNat_add]
    rfl
  constructor
  · show p.globalEpoch + 1 = UInt64.ofNat (p.heap ++ [table]).length
    rw [hlen, hepoch]
  · intro c' i hi
    rw [show (p.publish c earlier table).heap.length = _ from hlen]
    rw [Process.publish, Std.ExtTreeMap.getElem?_insert] at hi
    split_ifs at hi with hc
    · -- the cluster that publishes has the new table and its epoch
      obtain rfl := Option.some.inj hi
      exact ⟨⟨Nat.lt_succ_self _, hepoch⟩, by simp⟩
    · exact (h.clusters c' i hi).mono (Nat.le_succ _)
  · intro thread hthread
    rw [show (p.publish c earlier table).heap.length = _ from hlen]
    obtain ⟨hslot, hcall⟩ := h.threads thread hthread
    constructor
    · refine hslot.imp_right ?_
      rintro ⟨table, htable, hpaired⟩
      exact ⟨table, htable, hpaired.mono (Nat.le_succ _)⟩
    · intro call hmem
      obtain ⟨i, hi, hle⟩ := hcall call hmem
      rw [Process.publish, Std.ExtTreeMap.getElem?_insert]
      split_ifs with hc
      · -- a publish during the call
        obtain rfl : c = call.cluster := by simpa using hc
        refine ⟨_, rfl, ?_⟩
        rw [← hearlier i hi]
        exact hle.trans (by simp)
      · exact ⟨i, hi, hle⟩
  · exact h.returned

theorem Consistent.setThread (h : Consistent p) (t : ℕ) {thread : Thread}
    (hthread : ThreadOk p.heap.length p.clusters thread) : Consistent (p.setThread t thread) where
  epoch := h.epoch
  clusters := h.clusters
  threads thread' hmem := by
    rcases List.mem_or_eq_of_mem_set hmem with hold | rfl
    · exact h.threads thread' hold
    · exact hthread
  returned := h.returned

theorem Consistent.ret (h : Consistent p) (t : ℕ) {thread : Thread} {call : RoutingCall}
    {i : Instance} (hthread : ThreadOk p.heap.length p.clusters thread)
    (hi : InstanceOk p.heap.length i) (htable : thread.table = some i.routing)
    (hle : call.completed ≤ i.published.length) : Consistent (p.ret t thread call i) := by
  have hidle : ThreadOk p.heap.length p.clusters { thread with call := none } :=
    ⟨hthread.slot, nofun⟩
  obtain ⟨hepoch, hclusters, hthreads, hreturned⟩ := h.setThread t hidle
  refine ⟨hepoch, hclusters, hthreads, fun r hr => ?_⟩
  rcases List.mem_append.mp hr with hold | hnew
  · exact hreturned r hold
  · obtain rfl := List.mem_singleton.mp hnew
    rw [htable]
    exact hi.recent hle

/-- What a step of `routing` finds: the thread, the cluster of its call, and the publishes since the
call began. -/
theorem Consistent.of_call (h : Consistent p) {t : ℕ} {thread : Thread} {call : RoutingCall}
    {i : Instance} (hthread : p.threads[t]? = some thread) (hcall : thread.call = some call)
    (hi : p.clusters[call.cluster]? = some i) :
    ThreadOk p.heap.length p.clusters thread ∧ InstanceOk p.heap.length i ∧
      call.completed ≤ i.published.length := by
  have hok := h.threads thread (List.mem_of_getElem? hthread)
  obtain ⟨j, hj, hle⟩ := hok.call call hcall
  obtain rfl : i = j := Option.some.inj (hi.symm.trans hj)
  exact ⟨hok, h.clusters _ i hi, hle⟩

theorem Consistent.of_loadEpoch (h : Consistent p) (hmade : p.heap.length < 2 ^ 64) {t : ℕ}
    (hs : loadEpoch p t = some p') : Consistent p' := by
  obtain ⟨thread, call, i, hthread, hcall, hi, hp'⟩ := loadEpoch_eq_some hs
  obtain ⟨hok, hinstance, hle⟩ := h.of_call hthread hcall hi
  rcases hp' with ⟨-, rfl⟩ | ⟨hepoch, rfl⟩
  · -- the epochs differ: the lock comes next
    refine h.setThread t ⟨hok.slot, fun call' hmem => ?_⟩
    obtain rfl := Option.some.inj hmem
    exact ⟨i, hi, hle⟩
  · exact h.ret t hok hinstance (hok.table_eq hinstance hmade hepoch) hle

theorem Consistent.of_refresh (h : Consistent p) {t : ℕ} (hs : refresh p t = some p') :
    Consistent p' := by
  obtain ⟨thread, call, i, hthread, hcall, hi, rfl⟩ := refresh_eq_some hs
  obtain ⟨hok, hinstance, hle⟩ := h.of_call hthread hcall hi
  exact h.ret t ⟨Or.inr ⟨_, rfl, hinstance.paired⟩, hok.call⟩ hinstance rfl hle

theorem Consistent.of_destroy (h : Consistent p) {c : ℕ}
    (hidle : ∀ thread ∈ p.threads, thread.call.map (·.cluster) ≠ some c) :
    Consistent { p with clusters := p.clusters.erase c } where
  epoch := h.epoch
  clusters c' i hi := by
    rw [Std.ExtTreeMap.getElem?_erase] at hi
    split_ifs at hi
    exact h.clusters c' i hi
  threads thread hthread := by
    obtain ⟨hslot, hcall⟩ := h.threads thread hthread
    refine ⟨hslot, fun call hmem => ?_⟩
    obtain ⟨i, hi, hle⟩ := hcall call hmem
    refine ⟨i, ?_, hle⟩
    -- the call is on another cluster
    have hne : c ≠ call.cluster := by
      rintro rfl
      exact hidle thread hthread (by rw [hmem]; rfl)
    simpa [Std.ExtTreeMap.getElem?_erase, hne] using hi
  returned := h.returned

/-- **Epochs and tables stay paired**, until the counter comes round. -/
theorem Consistent.of_step {l : Label} (h : Consistent p) (hmade : p.heap.length < 2 ^ 64)
    (hs : step p l = some p') : Consistent p' := by
  cases l with
  | create c table =>
    simp only [step] at hs
    split_ifs at hs with hc
    obtain rfl := Option.some.inj hs
    refine h.publish (fun i hi => ?_) table
    rw [Std.ExtTreeMap.contains_eq_isSome_getElem?, hi] at hc
    exact absurd rfl hc
  | publish c table =>
    obtain ⟨i, hi, rfl⟩ := Option.map_eq_some_iff.mp hs
    refine h.publish (fun j hj => ?_) table
    rw [Option.some.inj (hj.symm.trans hi)]
  | destroy c =>
    simp only [step] at hs
    split_ifs at hs with hc
    obtain rfl := Option.some.inj hs
    exact h.of_destroy hc.2
  | spawn =>
    cases hs
    refine ⟨h.epoch, h.clusters, fun thread hthread => ?_, h.returned⟩
    rcases List.mem_append.mp hthread with hold | hnew
    · exact h.threads thread hold
    · obtain rfl := List.mem_singleton.mp hnew
      exact ⟨Or.inl ⟨rfl, rfl⟩, nofun⟩
  | call t c =>
    obtain ⟨thread, hthread, hs⟩ := Option.bind_eq_some_iff.mp hs
    obtain ⟨i, hi, hs⟩ := Option.bind_eq_some_iff.mp hs
    split_ifs at hs
    obtain rfl := Option.some.inj hs
    have hslot := (h.threads thread (List.mem_of_getElem? hthread)).slot
    refine h.setThread t ⟨hslot, fun call hmem => ?_⟩
    obtain rfl := Option.some.inj hmem
    exact ⟨i, hi, le_rfl⟩
  | loadEpoch t => exact h.of_loadEpoch hmade hs
  | refresh t => exact h.of_refresh hs

/-! ## Runs -/

/-- Every publish makes one table. -/
theorem length_heap_step {l : Label} (hs : step p l = some p') :
    p'.heap.length = p.heap.length + if l.publishes then 1 else 0 := by
  cases l with
  | create c table =>
    simp only [step] at hs
    split_ifs at hs
    obtain rfl := Option.some.inj hs
    simp [Process.publish, Label.publishes]
  | publish c table =>
    obtain ⟨i, -, rfl⟩ := Option.map_eq_some_iff.mp hs
    simp [Process.publish, Label.publishes]
  | destroy c =>
    simp only [step] at hs
    split_ifs at hs
    obtain rfl := Option.some.inj hs
    rfl
  | spawn =>
    cases hs
    rfl
  | call t c =>
    obtain ⟨thread, -, hs⟩ := Option.bind_eq_some_iff.mp hs
    obtain ⟨i, -, hs⟩ := Option.bind_eq_some_iff.mp hs
    split_ifs at hs
    obtain rfl := Option.some.inj hs
    rfl
  | loadEpoch t =>
    obtain ⟨thread, call, i, -, -, -, ⟨-, rfl⟩ | ⟨-, rfl⟩⟩ := loadEpoch_eq_some hs
    · rfl
    · rfl
  | refresh t =>
    obtain ⟨thread, call, i, -, -, -, rfl⟩ := refresh_eq_some hs
    rfl

theorem length_heap_run {labels : List Label} (hrun : run step p labels = some p') :
    p'.heap.length = p.heap.length + labels.countP Label.publishes := by
  refine run_history
    (I := fun ls q => q.heap.length = p.heap.length + ls.countP Label.publishes) ?_ rfl
    (along_true p labels) hrun
  intro ls q l q' _ hq _ hs
  rw [length_heap_step hs, hq, List.countP_append, List.countP_singleton, Nat.add_assoc]

/-- A cluster that publishes `n` times more. -/
theorem run_publish (c : ℕ) (table : RoutingTable) (n : ℕ) {i : Instance}
    (hi : p.clusters[c]? = some i) (hepoch : i.epoch = p.globalEpoch) :
    ∃ p' i', run step p (List.replicate n (.publish c table)) = some p' ∧
      p'.threads = p.threads ∧ p'.clusters[c]? = some i' ∧ i'.epoch = p'.globalEpoch ∧
      p'.globalEpoch = p.globalEpoch + UInt64.ofNat n := by
  induction n generalizing p i with
  | zero => exact ⟨p, i, rfl, rfl, hi, hepoch, by simp⟩
  | succ n ih =>
    have hs : step p (.publish c table) = some (p.publish c i.published table) := by
      simp [step, hi]
    obtain ⟨p', i', hrun, hthreads, hi', hepoch', hglobal⟩ :=
      ih (p := p.publish c i.published table) (by simp [Process.publish]; rfl) rfl
    refine ⟨p', i', ?_, hthreads, hi', hepoch', ?_⟩
    · rw [List.replicate_succ]
      exact run_cons_eq_some.mpr ⟨_, hs, hrun⟩
    · rw [hglobal, Process.publish, UInt64.ofNat_add, UInt64.add_assoc,
        UInt64.add_comm (UInt64.ofNat n)]
      rfl

/-- A thread that never called `routing` before has the epoch of a cluster whose epoch is 0. -/
theorem returns_null (hthreads : p.threads = []) {c : ℕ} {i : Instance}
    (hi : p.clusters[c]? = some i) (hzero : i.epoch = 0) :
    ∃ p', run step p [.spawn, .call 0 c, .loadEpoch 0] = some p' ∧
      ∃ r ∈ p'.returned, r.table = none := by
  have hcall : step { p with threads := [{}] } (.call 0 c) = some { p with
      threads := [{ call := some ⟨c, i.published.length, false⟩ }] } := by
    simp [step, hi, Process.setThread]
  have hload : loadEpoch { p with threads := [{ call := some ⟨c, i.published.length, false⟩ }] } 0 =
      some { p with
        threads := [{}]
        returned := p.returned ++ [⟨none, i.published.length, i.published⟩] } := by
    simp [loadEpoch, hi, hzero, Process.ret, Process.setThread]
  refine ⟨_, run_cons_eq_some.mpr ⟨_, ?_, run_cons_eq_some.mpr ⟨_, hcall,
    run_cons_eq_some.mpr ⟨_, hload, rfl⟩⟩⟩, _, List.mem_append_right _ (List.mem_singleton.mpr rfl),
    rfl⟩
  simp [step, hthreads]

/-- **The counter comes round**: after `2 ^ 64` publishes the epoch of a cluster is 0, and a new thread
takes its empty slot for the table. -/
theorem wrapped_epoch_returns_null :
    ∃ p, run step {} (Label.create 0 {} :: List.replicate (2 ^ 64 - 1) (Label.publish 0 {}) ++
        [Label.spawn, Label.call 0 0, Label.loadEpoch 0]) = some p ∧ ∃ r ∈ p.returned, ¬r.Recent := by
  have hcreate : step {} (.create 0 {}) = some (({} : Process).publish 0 [] {}) := by simp [step]
  obtain ⟨p₁, i, hpublish, hthreads, hi, hepoch, hglobal⟩ :=
    run_publish (p := ({} : Process).publish 0 [] {}) 0 {} (2 ^ 64 - 1)
      (i := ⟨0, 1, [0]⟩) (by simp [Process.publish]) rfl
  have hzero : i.epoch = 0 := by
    rw [hepoch, hglobal]
    decide
  obtain ⟨p₂, hreturn, r, hr, hnull⟩ := returns_null hthreads hi hzero
  refine ⟨p₂, ?_, r, hr, ?_⟩
  · rw [List.cons_append]
    exact run_cons_eq_some.mpr ⟨_, hcreate, run_append_eq_some.mpr ⟨p₁, hpublish, hreturn⟩⟩
  · rintro ⟨j, table, htable, -⟩
    rw [hnull] at htable
    cases htable

/-- **No table is stale or foreign** in a run with fewer than `2 ^ 64` publishes: `routing` returns a
table that the cluster has published, and not an older one than the last that was published when the
call began. -/
theorem routing_recent {labels : List Label} {p : Process}
    (hpublishes : labels.countP Label.publishes < 2 ^ 64) (hrun : run step {} labels = some p) :
    ∀ r ∈ p.returned, r.Recent := by
  have hmade : p.heap.length < 2 ^ 64 := by
    rw [length_heap_run hrun]
    simpa using hpublishes
  -- tables are only added, so that there were fewer before the step, too
  have hconsistent : p.heap.length < 2 ^ 64 → Consistent p := by
    refine run_invariant (I := fun p => p.heap.length < 2 ^ 64 → Consistent p) ?_ ?_
      (along_true _ labels) hrun
    · intro p l p' h _ hs hmade
      have hlen := length_heap_step hs
      have hmade : p.heap.length < 2 ^ 64 := by omega
      exact (h hmade).of_step hmade hs
    · intro _
      exact ⟨rfl, by simp, nofun, nofun⟩
  exact (hconsistent hmade).returned

/-- A publish comes between the load of the epoch and the lock; then the cluster is destroyed, and
another one is created in its place. -/
theorem routing_recent_reusedAddress :
    ∃ p, run step {} [.create 0 {}, .spawn, .call 0 0, .loadEpoch 0, .publish 0 {}, .refresh 0,
        .destroy 0, .create 0 {}, .call 0 0, .loadEpoch 0, .refresh 0] = some p ∧
      p.returned = [⟨some 1, 1, [0, 1]⟩, ⟨some 2, 1, [2]⟩] ∧ ∀ r ∈ p.returned, r.Recent := by
  have hreturned : ((run step {} [.create 0 {}, .spawn, .call 0 0, .loadEpoch 0, .publish 0 {},
      .refresh 0, .destroy 0, .create 0 {}, .call 0 0, .loadEpoch 0, .refresh 0]).map
        Process.returned) = some [⟨some 1, 1, [0, 1]⟩, ⟨some 2, 1, [2]⟩] := by decide
  obtain ⟨p, hrun, hp⟩ := Option.map_eq_some_iff.mp hreturned
  exact ⟨p, hrun, hp, routing_recent (by decide) hrun⟩

end ShardCache.ThreadRouting
