import ShardCache.Store.CacheThreads
import ShardCache.Store.OneFetch
import ShardCache.Store.Sharding

/-!
# Loading what is not cached

`get_or_load` returns what the cache has under a key, and otherwise what a loader returns, which it
stores. Callers that miss a key at the same time share one load through single flight. Who leads
looks the key up once more before it loads: a caller may have missed the key and come to single
flight after another one has loaded it, stored it and left.

Callers run in any interleaving of their sections. What other threads do to the cache is left open.

## Main definitions

* `GetOrLoad`, `GetOrLoad.step`: the cache, the calls of single flight and the callers, and one step
* `GetOrLoad.Move`: what a step of a caller does, outside of single flight
* `GetOrLoad.Joint`: where a caller is in single flight, and where in `get_or_load`
* `GetOrLoad.Told`: where an outcome comes from
* `GetOrLoad.Undisturbed`: nobody else touches a key

## Main results

* `GetOrLoad.step_cases`: what a step does
* `GetOrLoad.one_loader_per_key`: no two loaders run for one key, and every caller comes to its end
* `GetOrLoad.loads_once`: a key that nobody else touches is loaded once
-/

namespace ShardCache

open Foundations

namespace ShardedCache

/-- The section of `get` under the shared lock of the shard. -/
def lookup (s : ShardedCache) (now : Time) (key : Key) : Option (Bytes × Bool) :=
  (s.shard key).lookup now key

theorem keys_promoteKey (s : ShardedCache) (now : Time) (key : Key) :
    ∀ n ∈ ((s.shard key).promoteKey now key).lru,
      n.key = key ∨ ∃ m ∈ (s.shard key).lru, m.key = n.key := by
  intro n hn
  have h := s.shard_wellFormed key
  have hmem : n.key ∈ ((s.shard key).promoteKey now key).keys := List.mem_map_of_mem hn
  rw [Cache.mem_keys (h.promoteKey now key), Cache.slot_promoteKey h, ← Cache.mem_keys h] at hmem
  exact .inr (List.mem_map.mp hmem)

/-- The section of `get` under the exclusive lock of the shard. -/
def promoteKey (s : ShardedCache) (now : Time) (key : Key) : ShardedCache :=
  s.update key ((s.shard key).promoteKey now key) ((s.shard_wellFormed key).promoteKey now key)
    (s.keys_promoteKey now key)

theorem slot_promoteKey (s : ShardedCache) (now : Time) (key k : Key) :
    (s.promoteKey now key).slot k = s.slot k := by
  rw [promoteKey, slot_update, Cache.slot_promoteKey (s.shard_wellFormed key)]
  split
  · rename_i hk
    rw [slot, shard_congr hk]
  · rfl

theorem slot_set_self (s : ShardedCache) (now : Time) (key : Key) (value : Bytes)
    (ttl : Option Millis) : (s.set now key value ttl).slot key = some (setEntry now value ttl) := by
  simp only [set, onShard, slot_update, if_true]
  exact Cache.slot_set (s.shard_wellFormed key) now key value ttl

/-- A lookup finds the entry of the key if it is live. -/
theorem map_fst_lookup (s : ShardedCache) (now : Time) (key : Key) :
    (s.lookup now key).map Prod.fst = valueSlot now (s.slot key) :=
  Cache.map_fst_lookup (s.shard key) now key

theorem lookup_of_slot_none {s : ShardedCache} {key : Key} (h : s.slot key = none) (now : Time) :
    s.lookup now key = none := by
  have hvalue := s.map_fst_lookup now key
  rw [h] at hvalue
  exact Option.map_eq_none_iff.mp hvalue

theorem slot_of_lookup {s : ShardedCache} {now : Time} {key : Key} {value : Bytes} {due : Bool}
    (h : s.lookup now key = some (value, due)) : ∃ e, s.slot key = some e ∧ e.value = value := by
  have hvalue := s.map_fst_lookup now key
  rw [h, valueSlot, Option.map_some] at hvalue
  obtain ⟨e, he, rfl⟩ := Option.map_eq_some_iff.mp hvalue.symm
  exact ⟨e, (Option.filter_eq_some_iff.mp he).1, rfl⟩

theorem lookup_of_live {s : ShardedCache} {now : Time} {key : Key} {e : CacheEntry}
    (h : s.slot key = some e) (hlive : e.isLive now = true) :
    ∃ due, s.lookup now key = some (e.value, due) := by
  have hvalue := s.map_fst_lookup now key
  rw [h, valueSlot, Option.filter_some, if_pos hlive, Option.map_some] at hvalue
  obtain ⟨⟨value, due⟩, hlook, rfl⟩ := Option.map_eq_some_iff.mp hvalue
  exact ⟨due, hlook⟩

end ShardedCache

namespace GetOrLoad

/-- How far a caller has come outside of single flight, and in the function that it passes to it. It
has yet to look the key up, has found it and has yet to promote it, or has returned it; or it has
called single flight. As a leader it has found the key after all and has yet to promote it, is in
the loader, or has yet to store what was loaded; then its function has returned or thrown. -/
inductive Stage where
  | looking
  | promoting (now : Time) (value : Bytes)
  | found (value : Bytes)
  | calling
  | checked (now : Time) (value : Bytes)
  | loading
  | loaded (value : Bytes)
  | left
deriving DecidableEq, Repr

/-- A step: a caller looks its key up, promotes what it found, takes a section of single flight, its
loader ends, or it stores what was loaded; or other threads make something else of the cache. -/
inductive Label (ι ε : Type) where
  | look (i : ι) (now : Time)
  | promote (i : ι)
  | flight (l : SingleFlight.Label ι ε)
  | load (i : ι) (outcome : Except ε Bytes)
  | store (i : ι) (now : Time)
  | others (cache : ShardedCache)

/-- The caller has not called single flight. -/
def Stage.outside : Stage → Bool
  | .looking | .promoting .. | .found _ => true
  | .calling | .checked .. | .loading | .loaded _ | .left => false

/-- The caller is in the function that it passes to single flight. -/
def Stage.inside : Stage → Bool
  | .checked .. | .loading | .loaded _ => true
  | .looking | .promoting .. | .found _ | .calling | .left => false

/-- The value that a caller has found in the cache. -/
def Stage.found? : Stage → Option Bytes
  | .promoting _ value | .found value | .checked _ value => some value
  | .looking | .calling | .loading | .loaded _ | .left => none

/-- How many steps a caller has to make outside of single flight. -/
def Stage.weight : Stage → ℕ
  | .looking => 3
  | .promoting .. => 1
  | .found _ => 0
  | .calling => 2
  | .checked .. => 0
  | .loading => 1
  | .loaded _ => 0
  | .left => 0

/-- The step is one of other threads, or a wakeup without a reason. -/
def Label.idle {ι ε : Type} : Label ι ε → Bool
  | .others _ => true
  | .flight l => l.spurious
  | .look .. | .promote _ | .load .. | .store .. => false

end GetOrLoad

/-- The cache with callers `ι` of `get_or_load`. -/
structure GetOrLoad (ι ε : Type) where
  cache : ShardedCache
  flight : SingleFlight ι ε := {}
  stage : ι → GetOrLoad.Stage := fun _ => .looking

namespace GetOrLoad

variable {ι ε : Type}

section Steps

variable [DecidableEq ι] (key : ι → Key) (ttl : ι → Option Millis)

/-- The caller goes on, with what it makes of the cache. -/
def advance (s : GetOrLoad ι ε) (i : ι) (cache : ShardedCache) (stage : Stage) :
    GetOrLoad ι ε :=
  { s with cache := cache, stage := Function.update s.stage i stage }

/-- The function that was passed to single flight returns or throws. -/
def leave (s : GetOrLoad ι ε) (i : ι) (cache : ShardedCache) (outcome : Except ε Bytes) :
    GetOrLoad ι ε :=
  { cache := cache
    flight := s.flight.endFetch i outcome
    stage := Function.update s.stage i .left }

/-- `auto val = get(key)`. -/
def lookFirst (s : GetOrLoad ι ε) (i : ι) (now : Time) : GetOrLoad ι ε :=
  match s.cache.lookup now (key i) with
  | none => s.advance i s.cache .calling
  | some (value, false) => s.advance i s.cache (.found value)
  | some (value, true) => s.advance i s.cache (.promoting now value)

/-- `auto cached = get(key)`, as a leader. -/
def lookAgain (s : GetOrLoad ι ε) (i : ι) (now : Time) : GetOrLoad ι ε :=
  match s.cache.lookup now (key i) with
  | none => s.advance i s.cache .loading
  | some (value, false) => s.leave i s.cache (.ok value)
  | some (value, true) => s.advance i s.cache (.checked now value)

/-- One step. -/
def step (s : GetOrLoad ι ε) : Label ι ε → Option (GetOrLoad ι ε)
  | .look i now =>
    match s.stage i, s.flight.phase i with
    | .looking, _ => some (s.lookFirst key i now)
    | .calling, .fetching => some (s.lookAgain key i now)
    | _, _ => none
  | .promote i =>
    match s.stage i with
    | .promoting now value => some (s.advance i (s.cache.promoteKey now (key i)) (.found value))
    | .checked now value => some (s.leave i (s.cache.promoteKey now (key i)) (.ok value))
    | _ => none
  | .flight (.fetch ..) => none
  | .flight l =>
    match s.stage l.caller with
    | .calling | .left => (SingleFlight.step key s.flight l).map fun flight => { s with flight }
    | _ => none
  | .load i outcome =>
    match s.stage i, outcome with
    | .loading, .ok value => some (s.advance i s.cache (.loaded value))
    | .loading, .error e => some (s.leave i s.cache (.error e))
    | _, _ => none
  | .store i now =>
    match s.stage i with
    | .loaded value => some (s.leave i (s.cache.set now (key i) value (ttl i)) (.ok value))
    | _ => none
  | .others cache => some { s with cache }

end Steps

/-- What a caller returned or threw. -/
def outcome (s : GetOrLoad ι ε) (i : ι) : Option (Except ε Bytes) :=
  match s.stage i with
  | .found value => some (.ok value)
  | _ => (s.flight.phase i).outcome

variable {key : ι → Key} {ttl : ι → Option Millis} {s s' : GetOrLoad ι ε} {l : Label ι ε}
  {ls : List (Label ι ε)} {i j : ι}

/-! ## What a step does -/

variable (key ttl s) in
/-- What a step of a caller does, outside of single flight: its next stage, how the function that it
passed to single flight ends, if it does, and the cache. -/
inductive Move (i : ι) :
    Label ι ε → Stage → Option (Except ε Bytes) → ShardedCache → Prop where
  | misses (now : Time) : s.stage i = .looking → s.cache.lookup now (key i) = none →
    Move i (.look i now) .calling none s.cache
  | finds (now : Time) (value : Bytes) : s.stage i = .looking →
    s.cache.lookup now (key i) = some (value, false) →
    Move i (.look i now) (.found value) none s.cache
  | findsOld (now : Time) (value : Bytes) : s.stage i = .looking →
    s.cache.lookup now (key i) = some (value, true) →
    Move i (.look i now) (.promoting now value) none s.cache
  | promotes (now : Time) (value : Bytes) : s.stage i = .promoting now value →
    Move i (.promote i) (.found value) none (s.cache.promoteKey now (key i))
  | missesAgain (now : Time) : s.stage i = .calling → s.flight.phase i = .fetching →
    s.cache.lookup now (key i) = none → Move i (.look i now) .loading none s.cache
  | findsAgain (now : Time) (value : Bytes) : s.stage i = .calling →
    s.flight.phase i = .fetching → s.cache.lookup now (key i) = some (value, false) →
    Move i (.look i now) .left (some (.ok value)) s.cache
  | checks (now : Time) (value : Bytes) : s.stage i = .calling → s.flight.phase i = .fetching →
    s.cache.lookup now (key i) = some (value, true) →
    Move i (.look i now) (.checked now value) none s.cache
  | promotesAgain (now : Time) (value : Bytes) : s.stage i = .checked now value →
    Move i (.promote i) .left (some (.ok value)) (s.cache.promoteKey now (key i))
  | loads (value : Bytes) : s.stage i = .loading →
    Move i (.load i (.ok value)) (.loaded value) none s.cache
  | fails (e : ε) : s.stage i = .loading →
    Move i (.load i (.error e)) .left (some (.error e)) s.cache
  | stores (now : Time) (value : Bytes) : s.stage i = .loaded value →
    Move i (.store i now) .left (some (.ok value)) (s.cache.set now (key i) value (ttl i))

/-! ## The two machines together -/

variable (key) in
/-- Where a caller is in `get_or_load` and where in single flight. -/
structure Joint (s : GetOrLoad ι ε) : Prop where
  coherent : SingleFlight.Coherent key s.flight
  sameKey : ∀ i j, (s.flight.phase i).joined = some j → key j = key i
  outside : ∀ i, (s.stage i).outside = true → s.flight.phase i = .arriving
  inside : ∀ i, (s.stage i).inside = true → s.flight.phase i = .fetching
  left : ∀ i, s.stage i = .left → (s.flight.phase i).settled.isSome = true

theorem joint_start (cache : ShardedCache) : Joint key ({ cache } : GetOrLoad ι ε) where
  coherent := SingleFlight.coherent_start
  sameKey i j h := by simp [SingleFlight.Phase.joined] at h
  outside i _ := rfl
  inside i h := by cases h
  left i h := by cases h

/-- A caller whose function ends is in its fetch. -/
theorem Move.fetching {q : Stage} {outcome : Except ε Bytes} {cache : ShardedCache}
    (hm : Move key ttl s i l q (some outcome) cache) (h : Joint key s) :
    s.flight.phase i = .fetching := by
  cases hm with
  | findsAgain now value hstage hphase hlook => exact hphase
  | promotesAgain now value hstage => exact h.inside i (by rw [hstage]; rfl)
  | fails e hstage => exact h.inside i (by rw [hstage]; rfl)
  | stores now value hstage => exact h.inside i (by rw [hstage]; rfl)

/-- Where a step of a caller outside of single flight takes it. -/
theorem Move.next {q : Stage} {o : Option (Except ε Bytes)} {cache : ShardedCache}
    (hm : Move key ttl s i l q o cache) (h : Joint key s) :
    o = none ∧ (q.outside = true → (s.stage i).outside = true) ∧
        (q.inside = true → s.flight.phase i = .fetching) ∧ q ≠ .left ∨
      o.isSome = true ∧ q = .left := by
  cases hm with
  | findsAgain | promotesAgain | fails | stores => exact .inr ⟨rfl, rfl⟩
  | missesAgain now hstage hphase | checks now value hstage hphase =>
    exact .inl ⟨rfl, nofun, fun _ => hphase, nofun⟩
  | loads value hstage =>
    exact .inl ⟨rfl, nofun, fun _ => h.inside i (by rw [hstage]; rfl), nofun⟩
  | misses now hstage => exact .inl ⟨rfl, nofun, nofun, nofun⟩
  | finds now value hstage | findsOld now value hstage | promotes now value hstage =>
    exact .inl ⟨rfl, fun _ => by rw [hstage]; rfl, nofun, nofun⟩

/-- Callers that are in their functions for one key are one and the same. -/
theorem Joint.eq_of_inside (h : Joint key s) (hi : (s.stage i).inside = true)
    (hj : (s.stage j).inside = true) (hkey : key i = key j) : i = j :=
  h.coherent.eq_of_leads (by rw [h.inside i hi]; rfl) (by rw [h.inside j hj]; rfl) hkey

/-! ## Where an outcome comes from -/

variable (key s l i) in
/-- In the step, the caller finds the value in the cache. -/
def Finds (value : Bytes) : Prop :=
  ∃ now due, l = .look i now ∧ s.cache.lookup now (key i) = some (value, due)

/-- What a step of a caller tells it. -/
theorem Move.tells {q : Stage} {o : Option (Except ε Bytes)} {cache : ShardedCache}
    (hm : Move key ttl s i l q o cache) :
    (∀ value, q.found? = some value →
        (s.stage i).found? = some value ∨ Finds key s l i value) ∧
      (∀ value, q = .loaded value → l = .load i (.ok value)) ∧
      (∀ value, o = some (.ok value) → (s.stage i).found? = some value ∨
        Finds key s l i value ∨ s.stage i = .loaded value) ∧
      ∀ e, o = some (.error e) → l = .load i (.error e) := by
  unfold Finds
  cases hm <;> simp_all [Stage.found?]

/-! ## How far the callers are from their end -/

/-- How many steps there are to make, if nobody wakes up without a reason. -/
def remaining [Fintype ι] (s : GetOrLoad ι ε) : ℕ :=
  s.flight.remaining + ∑ i, (s.stage i).weight

theorem remaining_le [Fintype ι] (s : GetOrLoad ι ε) : s.remaining ≤ 8 * Fintype.card ι := by
  have hweight (q : Stage) : q.weight ≤ 3 := by cases q <;> simp [Stage.weight]
  have hflight := s.flight.remaining_le
  have hstages := Finset.sum_le_card_nsmul Finset.univ (fun i => (s.stage i).weight) 3
    fun i _ => hweight (s.stage i)
  rw [Finset.card_univ, smul_eq_mul] at hstages
  unfold remaining
  omega

/-- A step of a caller outside of single flight is one of those it has to make there, or its
function ends. -/
theorem Move.weight_lt {q : Stage} {o : Option (Except ε Bytes)} {cache' : ShardedCache}
    (hm : Move key ttl s i l q o cache') :
    q.weight ≤ (s.stage i).weight ∧ (o = none → q.weight < (s.stage i).weight) := by
  cases hm <;> simp_all [Stage.weight]

/-! ## A key that has been loaded -/

variable {k : Key}

variable (key k) in
/-- The key has not been stored, and who has loaded it has yet to store it; or what one caller has
loaded has been stored, and nobody is about to load it again. -/
inductive Once (ls : List (Label ι ε)) (s : GetOrLoad ι ε) : Prop where
  | pending : s.cache.slot k = none →
    (∀ i value, key i = k → .load i (.ok value) ∈ ls → s.stage i = .loaded value) → Once ls s
  | stored (j : ι) (e : CacheEntry) : s.cache.slot k = some e → key j = k →
    .load j (.ok e.value) ∈ ls →
    (∀ i value, key i = k → .load i (.ok value) ∈ ls → i = j ∧ value = e.value) →
    (∀ i, key i = k → s.stage i ≠ .loading ∧ ∀ value, s.stage i ≠ .loaded value) → Once ls s

/-- A step that does not touch the key, nor the callers that want it. -/
theorem Once.frame (h : Once key k ls s) (hslot : s'.cache.slot k = s.cache.slot k)
    (hstage : ∀ i, key i = k → s'.stage i = s.stage i)
    (hload : ∀ i value, key i = k → l ≠ .load i (.ok value)) : Once key k (ls ++ [l]) s' := by
  have hmem {i : ι} {value : Bytes} (hi : key i = k) (hm : .load i (.ok value) ∈ ls ++ [l]) :
      .load i (.ok value) ∈ ls := by
    refine (List.mem_append.mp hm).resolve_right fun hl => ?_
    exact hload i value hi (List.mem_singleton.mp hl).symm
  cases h with
  | pending hnone hloaded =>
    refine .pending (hslot.trans hnone) fun i value hi hm => ?_
    rw [hstage i hi]
    exact hloaded i value hi (hmem hi hm)
  | stored j e hsome hj hm honly hidle =>
    refine .stored j e (hslot.trans hsome) hj (List.mem_append_left _ hm) ?_ ?_
    · exact fun i value hi hm => honly i value hi (hmem hi hm)
    · intro i hi
      rw [hstage i hi]
      exact hidle i hi

/-- A step of a caller of another key leaves the slot of the key alone. -/
theorem Move.slot_eq {q : Stage} {o : Option (Except ε Bytes)} {cache : ShardedCache}
    (hm : Move key ttl s i l q o cache)
    (hstore : ∀ now, l = .store i now → cache.slot k = s.cache.slot k) :
    cache.slot k = s.cache.slot k := by
  cases hm with
  | promotes | promotesAgain => exact ShardedCache.slot_promoteKey _ _ _ _
  | stores now => exact hstore now rfl
  | _ => rfl

/-! ## Every step is one of these -/

/-- Single flight after a step of a caller outside of it. -/
def endFetch? [DecidableEq ι] (flight : SingleFlight ι ε) (i : ι) :
    Option (Except ε Bytes) → SingleFlight ι ε
  | none => flight
  | some outcome => flight.endFetch i outcome

section Cases

variable [DecidableEq ι]

/-- **What a step does**: one of a caller outside of single flight, one in it, or one of other
threads. -/
theorem step_cases (hs : step key ttl s l = some s') :
    (∃ i q o cache, Move key ttl s i l q o cache ∧
        s' = ⟨cache, endFetch? s.flight i o, Function.update s.stage i q⟩) ∨
      (∃ m flight, l = .flight m ∧ (s.stage m.caller = .calling ∨ s.stage m.caller = .left) ∧
        (∀ j outcome, m ≠ .fetch j outcome) ∧ SingleFlight.step key s.flight m = some flight ∧
        s' = { s with flight }) ∨
      ∃ cache, l = .others cache ∧ s' = { s with cache } := by
  cases l with
  | look i now =>
    left
    rw [step] at hs
    split at hs
    · rename_i hstage
      obtain rfl := Option.some.inj hs
      unfold lookFirst
      split
      · exact ⟨i, _, _, _, .misses now hstage ‹_›, rfl⟩
      · exact ⟨i, _, _, _, .finds now _ hstage ‹_›, rfl⟩
      · exact ⟨i, _, _, _, .findsOld now _ hstage ‹_›, rfl⟩
    · rename_i hstage hphase
      obtain rfl := Option.some.inj hs
      unfold lookAgain
      split
      · exact ⟨i, _, _, _, .missesAgain now hstage hphase ‹_›, rfl⟩
      · exact ⟨i, _, _, _, .findsAgain now _ hstage hphase ‹_›, rfl⟩
      · exact ⟨i, _, _, _, .checks now _ hstage hphase ‹_›, rfl⟩
    · cases hs
  | promote i =>
    left
    rw [step] at hs
    split at hs <;> cases hs
    · exact ⟨i, _, _, _, .promotes _ _ ‹_›, rfl⟩
    · exact ⟨i, _, _, _, .promotesAgain _ _ ‹_›, rfl⟩
  | flight m =>
    right
    left
    have hfetch : ∀ j outcome, m ≠ .fetch j outcome := by
      rintro j outcome rfl
      rw [step] at hs
      cases hs
    rw [step] at hs
    · split at hs
      · obtain ⟨flight, hflight, rfl⟩ := Option.map_eq_some_iff.mp hs
        exact ⟨m, flight, rfl, .inl ‹_›, hfetch, hflight, rfl⟩
      · obtain ⟨flight, hflight, rfl⟩ := Option.map_eq_some_iff.mp hs
        exact ⟨m, flight, rfl, .inr ‹_›, hfetch, hflight, rfl⟩
      · cases hs
    · exact hfetch
  | load i outcome =>
    left
    simp only [step] at hs
    split at hs <;> cases hs
    · exact ⟨i, _, _, _, .loads _ ‹_›, rfl⟩
    · exact ⟨i, _, _, _, .fails _ ‹_›, rfl⟩
  | store i now =>
    left
    rw [step] at hs
    split at hs <;> cases hs
    exact ⟨i, _, _, _, .stores now _ ‹_›, rfl⟩
  | others cache =>
    cases hs
    exact .inr (.inr ⟨cache, rfl, rfl⟩)

/-- A step of a caller outside of single flight leaves it alone or ends a fetch. -/
theorem Move.flight {q : Stage} {o : Option (Except ε Bytes)} {cache : ShardedCache}
    (hm : Move key ttl s i l q o cache) (h : Joint key s) :
    o = none ∨ ∃ outcome, o = some outcome ∧
      SingleFlight.step key s.flight (.fetch i outcome) = some (endFetch? s.flight i o) := by
  cases o with
  | none => exact .inl rfl
  | some outcome =>
    refine .inr ⟨outcome, rfl, ?_⟩
    rw [SingleFlight.step, hm.fetching h]
    rfl

/-- A step of another caller of single flight leaves a caller where it is, unless it sleeps. -/
theorem phase_of_ne {flight flight' : SingleFlight ι ε} {m : SingleFlight.Label ι ε}
    (hs : SingleFlight.step key flight m = some flight') (hm : m.caller ≠ i)
    (hawake : ∀ j, flight.phase i ≠ .asleep j) : flight'.phase i = flight.phase i := by
  have hcaller := SingleFlight.callerStep hs i
  generalize flight'.phase i = q, flight'.heap i = c at hcaller ⊢
  cases hcaller with
  | rests => rfl
  | woken j _ hasleep _ => exact absurd hasleep (hawake j)
  | _ =>
    -- the other steps are those of the caller itself
    simp_all [SingleFlight.Label.caller]

/-- What single flight keeps to itself. -/
theorem Joint.of_flight (h : Joint key s) {flight : SingleFlight ι ε}
    {m : SingleFlight.Label ι ε} (hs : SingleFlight.step key s.flight m = some flight) :
    SingleFlight.Coherent key flight ∧
      ∀ i j, (flight.phase i).joined = some j → key j = key i := by
  refine ⟨h.coherent.of_step hs, ?_⟩
  intro i j hij
  obtain hold | ⟨-, -, hcalls⟩ := (SingleFlight.callerStep hs i).joined_iff.mp hij
  · exact h.sameKey i j hold
  · exact ((h.coherent.entry (key i) j).mp hcalls).1

/-- A caller that has settled stays so. -/
theorem settled_of_flight {flight flight' : SingleFlight ι ε} {m : SingleFlight.Label ι ε}
    (hs : SingleFlight.step key flight m = some flight')
    (hi : (flight.phase i).settled.isSome = true) : (flight'.phase i).settled.isSome = true := by
  obtain ⟨outcome, ho⟩ := Option.isSome_iff_exists.mp hi
  rw [(SingleFlight.callerStep hs i).settled_iff.mpr (.inl ho)]
  rfl

/-- A caller that goes on outside of single flight. -/
theorem Joint.advance (h : Joint key s) {cache : ShardedCache} {q : Stage}
    (hout : q.outside = true → (s.stage i).outside = true)
    (hin : q.inside = true → s.flight.phase i = .fetching) (hleft : q ≠ .left) :
    Joint key ⟨cache, s.flight, Function.update s.stage i q⟩ where
  coherent := h.coherent
  sameKey := h.sameKey
  outside k hk := by
    simp only [Function.update_apply] at hk
    split at hk
    · rename_i hki
      exact hki ▸ h.outside i (hout hk)
    · exact h.outside k hk
  inside k hk := by
    simp only [Function.update_apply] at hk
    split at hk
    · rename_i hki
      exact hki ▸ hin hk
    · exact h.inside k hk
  left k hk := by
    simp only [Function.update_apply] at hk
    split at hk
    · exact absurd hk hleft
    · exact h.left k hk

/-- A caller whose function ends. -/
theorem Joint.leave (h : Joint key s) {cache : ShardedCache} {flight : SingleFlight ι ε}
    {outcome : Except ε Bytes}
    (hflight : SingleFlight.step key s.flight (.fetch i outcome) = some flight) :
    Joint key ⟨cache, flight, Function.update s.stage i .left⟩ where
  coherent := (h.of_flight hflight).1
  sameKey := (h.of_flight hflight).2
  outside k hk := by
    simp only [Function.update_apply] at hk
    split at hk
    · cases hk
    · rename_i hki
      have hphase := h.outside k hk
      rw [phase_of_ne hflight (Ne.symm hki) (by rw [hphase]; nofun), hphase]
  inside k hk := by
    simp only [Function.update_apply] at hk
    split at hk
    · cases hk
    · rename_i hki
      have hphase := h.inside k hk
      rw [phase_of_ne hflight (Ne.symm hki) (by rw [hphase]; nofun), hphase]
  left k hk := by
    simp only [Function.update_apply] at hk
    split at hk
    · rename_i hki
      subst hki
      rw [(SingleFlight.callerStep hflight k).settled_iff.mpr (.inr rfl)]
      rfl
    · exact settled_of_flight hflight (h.left k hk)

theorem Joint.of_step (h : Joint key s) (hs : step key ttl s l = some s') : Joint key s' := by
  obtain ⟨i, q, o, cache, hm, rfl⟩ | ⟨m, flight, -, hstage, -, hflight, rfl⟩ | ⟨cache, -, rfl⟩ :=
    step_cases hs
  · obtain ⟨rfl, hout, hin, hleft⟩ | ⟨hsome, rfl⟩ := hm.next h
    · exact h.advance hout hin hleft
    · obtain rfl | ⟨outcome, rfl, hflight⟩ := hm.flight h
      · cases hsome
      · exact h.leave hflight
  · obtain ⟨hcoherent, hkeys⟩ := h.of_flight hflight
    -- the caller of the step is neither outside nor inside
    have hother {k : ι} (hk : (s.stage k).outside = true ∨ (s.stage k).inside = true) :
        m.caller ≠ k := by
      rintro rfl
      obtain hstage | hstage := hstage <;> simp [hstage, Stage.outside, Stage.inside] at hk
    refine ⟨hcoherent, hkeys, ?_, ?_, ?_⟩
    · intro k hk
      have hphase := h.outside k hk
      rw [phase_of_ne hflight (hother (.inl hk)) (by rw [hphase]; nofun), hphase]
    · intro k hk
      have hphase := h.inside k hk
      rw [phase_of_ne hflight (hother (.inr hk)) (by rw [hphase]; nofun), hphase]
    · intro k hk
      exact settled_of_flight hflight (h.left k hk)
  · exact ⟨h.coherent, h.sameKey, h.outside, h.inside, h.left⟩

section Told

variable (key ttl)
variable (cache : ShardedCache) (ls : List (Label ι ε)) (i : ι)

/-- In the run along `ls`, the caller has found the value in the cache. -/
def Hit (value : Bytes) : Prop :=
  Sometime (step key ttl) (fun s l => Finds key s l i value) { cache } ls

/-- In the run along `ls`, the caller has found the value, or its loader has returned or thrown the
outcome. -/
def Told : Except ε Bytes → Prop
  | .ok value => Hit key ttl cache ls i value ∨ .load i (.ok value) ∈ ls
  | .error e => .load i (.error e) ∈ ls

end Told

variable {cache : ShardedCache}

variable (key ttl cache) in
/-- What a caller has, it has from the cache or from its loader. -/
structure Traced (ls : List (Label ι ε)) (s : GetOrLoad ι ε) : Prop where
  found : ∀ i value, (s.stage i).found? = some value → Hit key ttl cache ls i value
  loaded : ∀ i value, s.stage i = .loaded value → .load i (.ok value) ∈ ls
  settled : ∀ i outcome, (s.flight.phase i).settled = some outcome →
    Told key ttl cache ls i outcome

theorem traced_start : Traced key ttl cache [] ({ cache } : GetOrLoad ι ε) where
  found i value h := by cases h
  loaded i value h := by cases h
  settled i outcome h := by cases h

theorem Told.mono {outcome : Except ε Bytes} (hr : run (step key ttl) { cache } ls = some s)
    (h : Told key ttl cache ls i outcome) : Told key ttl cache (ls ++ [l]) i outcome := by
  cases outcome with
  | ok value =>
    obtain h | h := h
    · exact .inl ((sometime_append_singleton hr).mpr (.inl h))
    · exact .inr (List.mem_append_left _ h)
  | error e => exact List.mem_append_left _ h

theorem Traced.of_step (h : Traced key ttl cache ls s)
    (hr : run (step key ttl) { cache } ls = some s) (hj : Joint key s)
    (hs : step key ttl s l = some s') : Traced key ttl cache (ls ++ [l]) s' := by
  have hhit {i : ι} {value : Bytes} : Hit key ttl cache (ls ++ [l]) i value ↔
      Hit key ttl cache ls i value ∨ Finds key s l i value := sometime_append_singleton hr
  obtain ⟨i, q, o, cache', hm, rfl⟩ | ⟨m, flight, -, -, hfetch, hflight, rfl⟩ | ⟨cache', -, rfl⟩ :=
    step_cases hs
  · obtain ⟨hfound, hloaded, hok, herror⟩ := hm.tells
    refine ⟨?_, ?_, ?_⟩
    · intro k value hk
      simp only [Function.update_apply] at hk
      split at hk
      · rename_i hki
        subst hki
        exact hhit.mpr ((hfound value hk).imp_left (h.found k value))
      · exact hhit.mpr (.inl (h.found k value hk))
    · intro k value hk
      simp only [Function.update_apply] at hk
      split at hk
      · rename_i hki
        subst hki
        rw [hloaded value hk]
        exact List.mem_append_right _ (List.mem_singleton_self _)
      · exact List.mem_append_left _ (h.loaded k value hk)
    · intro k outcome hk
      obtain rfl | ⟨outcome', rfl, hflight⟩ := hm.flight hj
      · exact (h.settled k outcome hk).mono hr
      obtain hold | hnew := (SingleFlight.callerStep hflight k).settled_iff.mp hk
      · exact (h.settled k outcome hold).mono hr
      · -- the function has just ended
        obtain ⟨rfl, rfl⟩ := SingleFlight.Label.fetch.inj hnew
        cases outcome' with
        | ok value =>
          obtain hk | hk | hk := hok value rfl
          · exact .inl (hhit.mpr (.inl (h.found i value hk)))
          · exact .inl (hhit.mpr (.inr hk))
          · exact .inr (List.mem_append_left _ (h.loaded i value hk))
        | error e =>
          rw [herror e rfl]
          exact List.mem_append_right _ (List.mem_singleton_self _)
  · refine ⟨fun k value hk => hhit.mpr (.inl (h.found k value hk)),
      fun k value hk => List.mem_append_left _ (h.loaded k value hk), ?_⟩
    intro k outcome hk
    obtain hold | hnew := (SingleFlight.callerStep hflight k).settled_iff.mp hk
    · exact (h.settled k outcome hold).mono hr
    · exact absurd hnew (hfetch k outcome)
  · exact ⟨fun k value hk => hhit.mpr (.inl (h.found k value hk)),
      fun k value hk => List.mem_append_left _ (h.loaded k value hk),
      fun k outcome hk => (h.settled k outcome hk).mono hr⟩

theorem traced_of_run (hr : run (step key ttl) { cache } ls = some s) :
    Joint key s ∧ Traced key ttl cache ls s :=
  run_history (P := fun _ _ => True) (I := fun ls s => Joint key s ∧ Traced key ttl cache ls s)
    (fun _ _ _ _ hr hI _ hs => ⟨hI.1.of_step hs, hI.2.of_step hr hI.1 hs⟩)
    ⟨joint_start cache, traced_start⟩ (along_true _ _) hr

/-- What a caller returns or throws, it or its leader was told. -/
theorem Traced.of_outcome (h : Traced key ttl cache ls s) (hj : Joint key s)
    {outcome : Except ε Bytes} (hi : s.outcome i = some outcome) :
    ∃ j, key j = key i ∧ Told key ttl cache ls j outcome := by
  have hflight (hphase : (s.flight.phase i).outcome = some outcome) :
      ∃ j, key j = key i ∧ Told key ttl cache ls j outcome := by
    obtain hleader | ⟨j, hjoined⟩ :=
      SingleFlight.Phase.isLeader_or_joined (by rw [hphase]; rfl)
    · have hsettled := SingleFlight.Phase.settled_of_outcome hleader hphase
      exact ⟨i, rfl, h.settled i outcome hsettled⟩
    · have hfinished := SingleFlight.Phase.eq_finished hjoined hphase
      have hsettled := hj.coherent.finished i j outcome hfinished
      exact ⟨j, hj.sameKey i j hjoined, h.settled j outcome hsettled⟩
  unfold GetOrLoad.outcome at hi
  split at hi
  · rename_i value hstage
    obtain rfl := Option.some.inj hi
    exact ⟨i, rfl, .inl (h.found i value (by rw [hstage]; rfl))⟩
  · exact hflight hi

/-! ## Every caller comes to its end -/

theorem sum_weight_update [Fintype ι] (stage : ι → Stage) (i : ι) (q : Stage) :
    ∑ j, (Function.update stage i q j).weight + (stage i).weight =
      ∑ j, (stage j).weight + q.weight := by
  rw [← Finset.add_sum_erase Finset.univ _ (Finset.mem_univ i),
    ← Finset.add_sum_erase Finset.univ (fun j => (stage j).weight) (Finset.mem_univ i),
    Function.update_self]
  have hrest : ∑ j ∈ Finset.univ.erase i, (Function.update stage i q j).weight =
      ∑ j ∈ Finset.univ.erase i, (stage j).weight :=
    Finset.sum_congr rfl fun j hj => by rw [Function.update_of_ne (Finset.ne_of_mem_erase hj)]
  omega

theorem Joint.remaining_lt [Fintype ι] (h : Joint key s) (hs : step key ttl s l = some s') :
    s'.remaining < s.remaining + if l.idle then 2 else 0 := by
  obtain ⟨i, q, o, cache', hm, rfl⟩ | ⟨m, flight, rfl, -, -, hflight, rfl⟩ | ⟨cache', rfl, rfl⟩ :=
    step_cases hs
  · obtain ⟨hle, hlt⟩ := hm.weight_lt
    have hsum := sum_weight_update s.stage i q
    refine Nat.lt_of_lt_of_le ?_ (Nat.le_add_right _ _)
    obtain rfl | ⟨outcome, rfl, hflight⟩ := hm.flight h
    · have := hlt rfl
      simp only [remaining, endFetch?]
      omega
    · have hless := h.coherent.remaining_lt hflight
      simp only [SingleFlight.Label.spurious, Bool.false_eq_true, if_false] at hless
      simp only [remaining]
      omega
  · have hless := h.coherent.remaining_lt hflight
    change flight.remaining + ∑ i, (s.stage i).weight <
      s.flight.remaining + ∑ i, (s.stage i).weight + if m.spurious then 2 else 0
    omega
  · simp only [remaining, Label.idle, if_true]
    omega

/-- Who is neither asleep nor at its end has a step to make. -/
theorem Joint.exists_step (h : Joint key s) (hi : s.outcome i = none)
    (hawake : ∀ j, s.flight.phase i ≠ .asleep j) :
    ∃ l s', l.idle = false ∧ step key ttl s l = some s' := by
  -- in single flight, who is not in its fetch takes its next section
  have hgo (hstage : s.stage i = .calling ∨ s.stage i = .left)
      (hfetching : s.flight.phase i ≠ .fetching) :
      ∃ l s', l.idle = false ∧ step key ttl s l = some s' := by
    have hnone : (s.flight.phase i).outcome = none := by
      obtain hstage | hstage := hstage <;> simpa [outcome, hstage] using hi
    have hflight : ∃ flight, SingleFlight.step key s.flight (.go i) = some flight := by
      cases hphase : s.flight.phase i with
      | fetching => exact absurd hphase hfetching
      | asleep j => exact absurd hphase (hawake j)
      | returned | finished =>
        rw [hphase] at hnone
        cases hnone
      | _ => exact ⟨_, by rw [SingleFlight.step, hphase]⟩
    obtain ⟨flight, hflight⟩ := hflight
    refine ⟨.flight (.go i), { s with flight }, rfl, ?_⟩
    obtain hstage | hstage := hstage <;> simp [step, SingleFlight.Label.caller, hstage, hflight]
  cases hstage : s.stage i with
  | looking => exact ⟨.look i 0, _, rfl, by rw [step, hstage]⟩
  | promoting => exact ⟨.promote i, _, rfl, by rw [step, hstage]⟩
  | found value =>
    rw [outcome, hstage] at hi
    cases hi
  | calling =>
    by_cases hphase : s.flight.phase i = .fetching
    · exact ⟨.look i 0, _, rfl, by rw [step, hstage, hphase]⟩
    · exact hgo (.inl hstage) hphase
  | checked => exact ⟨.promote i, _, rfl, by rw [step, hstage]⟩
  | loading =>
    exact ⟨.load i (.ok []), s.advance i s.cache (.loaded []), rfl, by simp only [step, hstage]⟩
  | loaded => exact ⟨.store i 0, _, rfl, by rw [step, hstage]⟩
  | left =>
    refine hgo (.inr hstage) ?_
    intro hphase
    have hsettled := h.left i hstage
    rw [hphase] at hsettled
    cases hsettled

/-- No caller waits for ever: as long as some have not come to their end, one has a step to make. -/
theorem Joint.exists_step_or_over (h : Joint key s) :
    (∀ i, (s.outcome i).isSome = true) ∨
      ∃ l s', l.idle = false ∧ step key ttl s l = some s' := by
  by_cases hover : ∀ i, (s.outcome i).isSome = true
  · exact .inl hover
  · right
    obtain ⟨i, hi⟩ := not_forall.mp hover
    have hnone : s.outcome i = none := by simpa using hi
    by_cases hawake : ∀ j, s.flight.phase i ≠ .asleep j
    · exact h.exists_step hnone hawake
    · -- who is asleep waits for a leader that has yet to notify it
      obtain ⟨j, hj⟩ := not_forall.mp hawake
      have hawaited := h.coherent.asleep i j (not_not.mp hj)
      refine h.exists_step (i := j) ?_ (SingleFlight.Phase.ne_asleep_of_awaited hawaited)
      unfold GetOrLoad.outcome
      split
      · rename_i value hstage
        have harriving := h.outside j (by rw [hstage]; rfl)
        rw [harriving] at hawaited
        cases hawaited
      · exact SingleFlight.Phase.outcome_of_awaited hawaited

theorem length_le_of_run [Fintype ι] (hr : run (step key ttl) { cache } ls = some s) :
    ls.length ≤ 8 * Fintype.card ι + 2 * ls.countP Label.idle := by
  have hlength : ls.length + s.remaining ≤
      ({ cache } : GetOrLoad ι ε).remaining + 2 * ls.countP Label.idle :=
    length_add_le_of_run (I := Joint key) (p := Label.idle)
      (fun _ _ _ h hs => ⟨h.of_step hs, h.remaining_lt hs⟩) (joint_start cache) hr
  have hstart := remaining_le ({ cache } : GetOrLoad ι ε)
  omega

/-! ## One loader for a key at a time -/

/-- **One loader for a key at a time.** In every run of any number of callers, in whatever order
they take their sections, and whatever other threads do to the cache: no two loaders for one key run
at a time; what a caller returns was found in the cache or returned by a loader for its key, and
what it throws was thrown by one. Every caller comes to its end: the run is not longer than eight
steps for each caller and two for each wakeup without a reason and each step of other threads, and
as long as some caller has not come to its end there is another step of a caller. -/
theorem one_loader_per_key [Fintype ι] (hr : run (step key ttl) { cache } ls = some s) :
    (∀ i j, s.stage i = .loading → s.stage j = .loading → key i = key j → i = j) ∧
      (∀ i outcome, s.outcome i = some outcome →
        ∃ j, key j = key i ∧ Told key ttl cache ls j outcome) ∧
      ls.length ≤ 8 * Fintype.card ι + 2 * ls.countP Label.idle ∧
      ((∀ i, (s.outcome i).isSome = true) ∨
        ∃ l s', l.idle = false ∧ step key ttl s l = some s') := by
  obtain ⟨hj, htraced⟩ := traced_of_run hr
  refine ⟨?_, fun i outcome hi => htraced.of_outcome hj hi, length_le_of_run hr,
    hj.exists_step_or_over⟩
  intro i j hi hj' hkey
  exact hj.eq_of_inside (by rw [hi]; rfl) (by rw [hj']; rfl) hkey

/-! ## A key is loaded once -/

variable {k : Key}

variable (key ttl k) in
/-- The key `k` is left alone: other threads do not change its slot, what is stored under other keys
does not evict it, and it has not expired when a caller looks it up. -/
def Undisturbed (s : GetOrLoad ι ε) : Label ι ε → Prop
  | .others cache => cache.slot k = s.cache.slot k
  | .store i now => key i ≠ k →
    (step key ttl s (.store i now)).all fun s' => s'.cache.slot k = s.cache.slot k
  | .look i now => key i = k → (s.cache.slot k).all fun e => e.isLive now
  | .promote _ | .flight _ | .load .. => True

instance Undisturbed.decidable (s : GetOrLoad ι ε) (l : Label ι ε) :
    Decidable (Undisturbed key ttl k s l) :=
  match l with
  | .others cache => inferInstanceAs (Decidable (cache.slot k = s.cache.slot k))
  | .store i now => inferInstanceAs (Decidable (key i ≠ k →
    (step key ttl s (.store i now)).all (fun s' => s'.cache.slot k = s.cache.slot k) = true))
  | .look i now => inferInstanceAs (Decidable (key i = k →
    (s.cache.slot k).all (fun e => e.isLive now) = true))
  | .promote _ | .flight _ | .load .. => .isTrue trivial

/-- A caller of the key goes on, where nothing has been stored. -/
theorem Once.of_move_pending {q : Stage} {o : Option (Except ε Bytes)} {cache' : ShardedCache}
    (hm : Move key ttl s i l q o cache') (hi : key i = k) (hnone : s.cache.slot k = none)
    (hloaded : ∀ i value, key i = k → .load i (.ok value) ∈ ls → s.stage i = .loaded value)
    (hj : Joint key s) (htraced : Traced key ttl cache ls s) :
    Once key k (ls ++ [l]) ⟨cache', endFetch? s.flight i o, Function.update s.stage i q⟩ := by
  subst hi
  have hlook := ShardedCache.lookup_of_slot_none hnone
  -- who is in its loader, or has loaded, is the only one for the key
  have honly (j : ι) (hstage : (s.stage i).inside = true) (hkey : key j = key i)
      (hinside : (s.stage j).inside = true) : j = i := hj.eq_of_inside hinside hstage hkey
  have hgoes (hslot : cache'.slot (key i) = none) (hstage : ∀ value, s.stage i ≠ .loaded value)
      (hload : ∀ value, l = .load i (.ok value) → q = .loaded value)
      (hother : ∀ j value, j ≠ i → l ≠ .load j (.ok value)) :
      Once key (key i) (ls ++ [l])
        ⟨cache', endFetch? s.flight i o, Function.update s.stage i q⟩ := by
    refine .pending hslot fun j value hkey hmem => ?_
    simp only [Function.update_apply]
    rw [List.mem_append, List.mem_singleton] at hmem
    split
    · rename_i hji
      subst hji
      obtain hmem | hmem := hmem
      · exact absurd (hloaded j value rfl hmem) (hstage value)
      · exact hload value hmem.symm
    · rename_i hji
      obtain hmem | hmem := hmem
      · exact hloaded j value hkey hmem
      · exact absurd hmem.symm (hother j value hji)
  cases hm with
  | finds now value hstage hfound | findsOld now value hstage hfound =>
    rw [hlook now] at hfound
    cases hfound
  | findsAgain now value hstage hphase hfound | checks now value hstage hphase hfound =>
    rw [hlook now] at hfound
    cases hfound
  | misses now hstage => exact hgoes hnone (by simp [hstage]) nofun nofun
  | missesAgain now hstage => exact hgoes hnone (by simp [hstage]) nofun nofun
  | promotes now value hstage =>
    refine hgoes ?_ (by simp [hstage]) nofun nofun
    rw [ShardedCache.slot_promoteKey, hnone]
  | promotesAgain now value hstage =>
    refine hgoes ?_ (by simp [hstage]) nofun nofun
    rw [ShardedCache.slot_promoteKey, hnone]
  | fails e hstage => exact hgoes hnone (by simp [hstage]) nofun nofun
  | loads value hstage =>
    refine hgoes hnone (by simp [hstage]) ?_ ?_
    · rintro value' ⟨⟩
      rfl
    · rintro j value' hji ⟨⟩
      exact hji rfl
  | stores now value hstage =>
    have hinside : (s.stage i).inside = true := by rw [hstage]; rfl
    refine .stored i (setEntry now value (ttl i)) (ShardedCache.slot_set_self _ _ _ _ _) rfl
      (List.mem_append_left _ (htraced.loaded i value hstage)) ?_ ?_
    · intro j value' hkey hmem
      have hold := (List.mem_append.mp hmem).resolve_right (by simp)
      have hstage' := hloaded j value' hkey hold
      obtain rfl := honly j hinside hkey (by rw [hstage']; rfl)
      rw [hstage] at hstage'
      exact ⟨rfl, (Stage.loaded.inj hstage').symm⟩
    · intro j hkey
      simp only [Function.update_apply]
      split
      · exact ⟨nofun, nofun⟩
      · rename_i hji
        exact ⟨fun hstage' => hji (honly j hinside hkey (by rw [hstage']; rfl)),
          fun value' hstage' => hji (honly j hinside hkey (by rw [hstage']; rfl))⟩

/-- A caller of the key goes on, where it has been stored: it finds it. -/
theorem Once.of_move_stored {q : Stage} {o : Option (Except ε Bytes)} {cache' : ShardedCache}
    {e : CacheEntry} (hm : Move key ttl s i l q o cache') (hi : key i = k)
    (hsome : s.cache.slot k = some e) (hu : Undisturbed key ttl k s l) (hkey : key j = k)
    (hload : .load j (.ok e.value) ∈ ls)
    (honly : ∀ i value, key i = k → .load i (.ok value) ∈ ls → i = j ∧ value = e.value)
    (hidle : ∀ i, key i = k → s.stage i ≠ .loading ∧ ∀ value, s.stage i ≠ .loaded value) :
    Once key k (ls ++ [l]) ⟨cache', endFetch? s.flight i o, Function.update s.stage i q⟩ := by
  subst hi
  have hgoes (hslot : cache'.slot (key i) = s.cache.slot (key i)) (hloading : q ≠ .loading)
      (hloaded : ∀ value, q ≠ .loaded value) (hl : ∀ j value, l ≠ .load j (.ok value)) :
      Once key (key i) (ls ++ [l])
        ⟨cache', endFetch? s.flight i o, Function.update s.stage i q⟩ := by
    refine .stored j e (hslot.trans hsome) hkey (List.mem_append_left _ hload) ?_ ?_
    · intro i' value hi' hmem
      refine honly i' value hi' ((List.mem_append.mp hmem).resolve_right fun hlast => ?_)
      exact hl i' value (List.mem_singleton.mp hlast).symm
    · intro i' hi'
      simp only [Function.update_apply]
      split
      · exact ⟨hloading, hloaded⟩
      · exact hidle i' hi'
  have hfound (now : Time) (hl : l = .look i now) : s.cache.lookup now (key i) ≠ none := by
    subst hl
    have hlive := hu rfl
    rw [hsome] at hlive
    obtain ⟨due, hlook⟩ := ShardedCache.lookup_of_live hsome hlive
    rw [hlook]
    nofun
  cases hm with
  | misses now hstage hlook => exact absurd hlook (hfound now rfl)
  | missesAgain now hstage hphase hlook => exact absurd hlook (hfound now rfl)
  | loads value hstage => exact absurd hstage (hidle i rfl).1
  | fails e' hstage => exact absurd hstage (hidle i rfl).1
  | stores now value hstage => exact absurd hstage ((hidle i rfl).2 value)
  | promotes now value | promotesAgain now value =>
    exact hgoes (ShardedCache.slot_promoteKey _ _ _ _) nofun nofun nofun
  | finds | findsOld | findsAgain | checks => exact hgoes rfl nofun nofun nofun

theorem Once.of_step (h : Once key k ls s) (hj : Joint key s)
    (htraced : Traced key ttl cache ls s) (hu : Undisturbed key ttl k s l)
    (hs : step key ttl s l = some s') : Once key k (ls ++ [l]) s' := by
  obtain ⟨i, q, o, cache', hm, rfl⟩ | ⟨m, flight, rfl, -, -, -, rfl⟩ | ⟨cache', rfl, rfl⟩ :=
    step_cases hs
  · by_cases hi : key i = k
    · cases h with
      | pending hnone hloaded => exact .of_move_pending hm hi hnone hloaded hj htraced
      | stored j e hsome hkey hload honly hidle =>
        exact .of_move_stored hm hi hsome hu hkey hload honly hidle
    · refine h.frame (hm.slot_eq ?_) ?_ ?_
      · rintro now rfl
        have hspared := hu hi
        rw [hs] at hspared
        exact of_decide_eq_true hspared
      · intro j hj
        refine Function.update_of_ne ?_ _ _
        rintro rfl
        exact hi hj
      · rintro j value hj rfl
        cases hm with
        | loads => exact hi hj
  · exact h.frame rfl (fun _ _ => rfl) nofun
  · exact h.frame hu (fun _ _ => rfl) nofun

/-- **A key is loaded once.** If no other thread touches a key that is not in the cache, no store
under another key evicts it, and what was stored under it has not expired when a caller looks it up,
its loaders return at most once in the whole run, however many callers want it and whatever the
order of their sections: every caller that returns returns this one value, and every caller that
throws throws what a loader threw. -/
theorem loads_once (hr : run (step key ttl) { cache } ls = some s) (hnone : cache.slot k = none)
    (hu : Along (step key ttl) (Undisturbed key ttl k) { cache } ls) :
    (∀ i j value value', key i = k → key j = k → .load i (.ok value) ∈ ls →
        .load j (.ok value') ∈ ls → i = j ∧ value = value') ∧
      (∀ i outcome, key i = k → s.outcome i = some outcome →
        ∃ j, key j = k ∧ .load j outcome ∈ ls) := by
  -- also: what a caller of the key has found in the cache, a loader has returned
  obtain ⟨hj, htraced, honce, hhits⟩ : Joint key s ∧ Traced key ttl cache ls s ∧ Once key k ls s ∧
      ∀ i value, key i = k → Hit key ttl cache ls i value →
        ∃ j, key j = k ∧ .load j (.ok value) ∈ ls := by
    refine run_history (I := fun ls s => Joint key s ∧ Traced key ttl cache ls s ∧
      Once key k ls s ∧ ∀ i value, key i = k → Hit key ttl cache ls i value →
        ∃ j, key j = k ∧ .load j (.ok value) ∈ ls)
      ?_ ⟨joint_start cache, traced_start, ?_, ?_⟩ hu hr
    · rintro ls s l s' hr ⟨hj, htraced, honce, hhits⟩ hu hs
      refine ⟨hj.of_step hs, htraced.of_step hr hj hs, honce.of_step hj htraced hu hs, ?_⟩
      intro i value hi hhit
      obtain hold | ⟨now, due, -, hlook⟩ := (sometime_append_singleton hr).mp hhit
      · obtain ⟨j, hkey, hmem⟩ := hhits i value hi hold
        exact ⟨j, hkey, List.mem_append_left _ hmem⟩
      · -- what the caller finds now has been stored
        obtain ⟨e, hslot, rfl⟩ := ShardedCache.slot_of_lookup hlook
        rw [hi] at hslot
        cases honce with
        | pending hnone => rw [hnone] at hslot; cases hslot
        | stored j e' hsome hkey hload =>
          obtain rfl := Option.some.inj (hsome.symm.trans hslot)
          exact ⟨j, hkey, List.mem_append_left _ hload⟩
    · exact .pending hnone fun i value _ hmem => absurd hmem List.not_mem_nil
    · intro i value _ hhit
      exact absurd hhit (not_sometime_nil _)
  refine ⟨?_, ?_⟩
  · intro i j value value' hi hj' hload hload'
    cases honce with
    | pending _ hloaded =>
      have hstage := hloaded i value hi hload
      have hstage' := hloaded j value' hj' hload'
      obtain rfl := hj.eq_of_inside (by rw [hstage]; rfl) (by rw [hstage']; rfl) (hi.trans hj'.symm)
      exact ⟨rfl, Stage.loaded.inj (hstage.symm.trans hstage')⟩
    | stored j₀ e _ _ _ honly =>
      obtain ⟨rfl, rfl⟩ := honly i value hi hload
      obtain ⟨rfl, rfl⟩ := honly j value' hj' hload'
      exact ⟨rfl, rfl⟩
  · intro i outcome hi houtcome
    obtain ⟨j, hkey, htold⟩ := htraced.of_outcome hj houtcome
    cases outcome with
    | ok value =>
      obtain hhit | hload := htold
      · exact hhits j value (hkey.trans hi) hhit
      · exact ⟨j, hkey.trans hi, hload⟩
    | error e => exact ⟨j, hkey.trans hi, htold⟩

end Cases

/-- Two callers miss one key. The first loads and stores it and leaves before the second comes to
single flight, which then leads and finds it. -/
def lateRun : List (Label Bool Bool) :=
  [.look false 1, .look true 1, .flight (.go false), .look false 2, .load false (.ok [1]),
    .store false 3, .flight (.go false), .flight (.go false), .flight (.go false),
    .flight (.go true), .look true 4, .promote true, .flight (.go true), .flight (.go true),
    .flight (.go true)]

/-- The run of the two callers on an empty cache. -/
def afterLateRun : Option (GetOrLoad Bool Bool) :=
  run (step (fun _ => [107]) fun _ => none) { cache := .new 8 1 60000 } lateRun

theorem one_loader_per_key_late :
    ∃ s, afterLateRun = some s ∧ s.outcome true = some (.ok [1]) ∧
      ∃ j : Bool, Told (fun _ => [107]) (fun _ => none) (.new 8 1 60000) lateRun j (.ok [1]) := by
  have hr : afterLateRun = some (afterLateRun.get (by decide)) := (Option.some_get _).symm
  obtain ⟨-, htold, -⟩ := one_loader_per_key hr
  obtain ⟨j, -, hj⟩ := htold true (.ok [1]) (by decide)
  exact ⟨_, hr, by decide, j, hj⟩

theorem loads_once_late :
    ∃ s, afterLateRun = some s ∧ s.outcome false = some (.ok [1]) ∧
      s.outcome true = some (.ok [1]) ∧
      ∀ (i : Bool) value, .load i (.ok value) ∈ lateRun → i = false ∧ value = [1] := by
  have hr : afterLateRun = some (afterLateRun.get (by decide)) := (Option.some_get _).symm
  have hnone := ShardedCache.slot_new 8 1 60000 [107]
  obtain ⟨honce, -⟩ := loads_once (k := [107]) hr hnone (by decide)
  refine ⟨_, hr, by decide, by decide, fun i value hload => ?_⟩
  exact honce i false value [1] rfl rfl hload (by simp [lateRun])

end GetOrLoad

end ShardCache
