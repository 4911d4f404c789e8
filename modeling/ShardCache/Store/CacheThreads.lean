import ShardCache.Foundations.Linearization
import ShardCache.Store.Contents

/-!
# Threads on one shard

Threads call a shard at the same time. A call reads the clock and takes the mutex in separate steps,
the clock first or under the mutex, and a read that promotes takes the mutex twice: it looks the key
up under the shared lock, and moves whatever is stored under the key by then under the exclusive
one. Other calls run in between, so that the times of the readings need not be in the order in which
the calls take effect.

The shard is linearizable all the same, with its contents as the sequential object. A call that
brings a new key into a full shard takes the place of another key; which one is left open, since it
depends on the promotions.

## Main definitions

* `Contents.Serves`: what a call of a shard with a capacity may return and leave
* `Cache.lookup`, `Cache.promoteKey`: the two sections of `Cache::get`
* `CacheThreads`, `CacheThreads.step`: the shard, the clock and the calls, and one step

## Main results

* `Cache.call_serves`: every call of a shard is one of its contents
* `CacheThreads.effect_of_step`, `CacheThreads.Dated.of_step`: what one step does
* `CacheThreads.linearizable_calls`: the shard is linearizable
-/

namespace ShardCache

open Foundations

/-! ## One call and the contents -/

namespace Contents

/-- A shard with this capacity and these contents is full. -/
def Full (capacity : ℕ) (m : Contents) : Prop :=
  0 < capacity ∧ capacity ≤ { k | m k ≠ none }.ncard

/-- The call stores something under a key under which nothing is stored. -/
def BringsIn (tombstoneTtl : Millis) (m : Contents) (i : Time × Call) (key : Key) : Prop :=
  m key = none ∧ (call tombstoneTtl m i).1 key ≠ none

/-- What a call may return and leave in a shard with a capacity: a new key in a full shard takes the
place of another one, of whichever. -/
inductive Serves (capacity : ℕ) (tombstoneTtl : Millis) (m : Contents) (i : Time × Call) :
    Reply (Set (Key × VersionedValue)) → Contents → Prop where
  | keeps : (∀ key, BringsIn tombstoneTtl m i key → ¬Full capacity m) →
    Serves capacity tombstoneTtl m i (call tombstoneTtl m i).2 (call tombstoneTtl m i).1
  | evicts (key victim : Key) : BringsIn tombstoneTtl m i key → Full capacity m → victim ≠ key →
    m victim ≠ none →
    Serves capacity tombstoneTtl m i (call tombstoneTtl m i).2
      (Function.update (call tombstoneTtl m i).1 victim none)

variable {capacity : ℕ} {tombstoneTtl : Millis} {m : Contents} {now : Time} {key : Key}

/-- Only `set` and `apply` bring in a key, the one that they name. -/
theorem BringsIn.cases {i : Time × Call} (h : BringsIn tombstoneTtl m i key) :
    (∃ value ttl, i.2 = .set key value ttl) ∨ ∃ v, i.2 = .apply key v := by
  obtain ⟨hnone, hsome⟩ := h
  obtain ⟨now, c⟩ := i
  -- a call leaves the other slots as they are
  have hnamed (k : Key) (hk : c.key = some k) : k = key := by
    by_contra hne
    exact hsome ((call_of_ne hk (Ne.symm hne)).trans hnone)
  cases c with
  | set k value ttl =>
    obtain rfl := hnamed k rfl
    exact .inl ⟨value, ttl, rfl⟩
  | apply k v =>
    obtain rfl := hnamed k rfl
    exact .inr ⟨v, rfl⟩
  | remove k =>
    obtain rfl := hnamed k rfl
    simp [call] at hsome
  | expire k ttl =>
    obtain rfl := hnamed k rfl
    simp [call, hnone, expireSlot] at hsome
  | clear => simp [call] at hsome
  | purgeExpired => simp [call, hnone] at hsome
  | _ => exact absurd hnone hsome

end Contents

namespace Cache

variable {c : Cache} {key : Key} {now : Time}

/-- The test of `set` and `apply` before they store a new key. -/
theorem full_iff (h : c.WellFormed) :
    (c.capacity > 0 && c.entries.size ≥ c.capacity) = true ↔ Contents.Full c.capacity c.slot := by
  have hkeys : { k | c.slot k ≠ none } = (c.keys.toFinset : Set Key) := by
    ext k
    simp [mem_keys h]
  rw [Contents.Full, hkeys, Set.ncard_coe_finset, List.toFinset_card_of_nodup (nodup_keys h), keys,
    List.length_map, ← h.size]
  simp

theorem evictions_purgeExpired (c : Cache) (now : Time) :
    (c.purgeExpired now).evictions = c.evictions := by
  refine List.foldlRecOn (motive := fun c' => c'.evictions = c.evictions) c.lru
    (Cache.sweep now) rfl ?_
  intro c' hc' n _
  unfold Cache.sweep
  split
  · exact hc'
  · exact hc'

/-- A new key in a full shard takes the place of the last one in the list. -/
theorem slot_apply_of_full (h : c.WellFormed) (hf : c.find key = none)
    (hfull : Contents.Full c.capacity c.slot) (now : Time) (v : VersionedValue) :
    ∃ victim, victim ≠ key ∧ c.slot victim ≠ none ∧
      (c.apply now key v).1.slot = Function.update
        (Function.update c.slot key (some (v.toEntry c.tombstoneTtl now))) victim none := by
  have htest := (full_iff h).mpr hfull
  -- a full shard has a last node
  have hne : c.lru ≠ [] := by
    intro hnil
    have hsize := h.size
    simp only [hnil, List.length_nil] at hsize
    simp only [gt_iff_lt, ge_iff_le, Bool.and_eq_true, decide_eq_true_eq] at htest
    omega
  obtain ⟨n, hlast⟩ := Option.ne_none_iff_exists'.mp
    (fun hnone => hne (List.getLast?_eq_none_iff.mp hnone))
  have hn := List.mem_of_getLast? hlast
  have hkey : n.key ≠ key := h.find_eq_none.mp hf n hn
  refine ⟨n.key, hkey, ?_, ?_⟩
  · rw [slot_of_find (h.find_eq_some.mpr ⟨hn, rfl⟩)]
    exact Option.some_ne_none _
  · have hevict (k : Key) : c.evictLruUnsafe.slot k = if k = n.key then none else c.slot k := by
      rw [← slot_eraseUnsafe h hn, evictLruUnsafe, hlast]
      rfl
    funext k
    simp only [apply, hf, htest, if_true]
    rw [slot_emplaceFront h.evictLruUnsafe (h.find_evictLruUnsafe hf), hevict]
    by_cases hk : k = n.key
    · rw [hk, if_neg hkey, if_pos rfl, Function.update_self]
    · rw [Function.update_of_ne hk, if_neg hk]
      by_cases hkk : k = key
      · rw [hkk, if_pos rfl, Function.update_self]
      · rw [if_neg hkk, Function.update_of_ne hkk]

/-- An eviction makes room for a new key in a full shard. -/
theorem evictions_call (h : c.WellFormed) (i : Time × Call)
    (hroom : ∀ key, Contents.BringsIn c.tombstoneTtl c.slot i key →
      ¬Contents.Full c.capacity c.slot) : (c.call i).1.evictions = c.evictions := by
  obtain ⟨now, call⟩ := i
  -- a write that finds nothing under its key brings it in
  have hwrite (key : Key) (v : VersionedValue) (hf : c.find key = none)
      (hnew : Contents.BringsIn c.tombstoneTtl c.slot (now, call) key) :
      (c.apply now key v).1.evictions = c.evictions := by
    have htest := mt (full_iff h).mp (hroom key hnew)
    simp only [Cache.apply, hf, if_neg htest, emplaceFront]
  cases call with
  | set key value ttl =>
    simp only [Cache.call]
    cases hf : c.find key with
    | some n => simp only [Cache.set, hf, replaceFront]
    | none =>
      rw [set_eq_apply hf]
      exact hwrite key _ hf ⟨slot_of_find_none hf, by simp [Contents.call]⟩
  | apply key v =>
    simp only [Cache.call]
    cases hf : c.find key with
    | some n =>
      simp only [Cache.apply, hf]
      split <;> rfl
    | none =>
      exact hwrite key v hf ⟨slot_of_find_none hf, by
        simp [Contents.call, slot_of_find_none hf, applySlot]⟩
  | get key =>
    simp only [Cache.call, Cache.get]
    split
    · rfl
    · split
      · rfl
      · split <;> rfl
  | remove key =>
    simp only [Cache.call, Cache.remove]
    split <;> rfl
  | expire key ttl =>
    simp only [Cache.call, Cache.expire]
    split
    · rfl
    · split
      · rfl
      · split <;> rfl
  | purgeExpired => exact evictions_purgeExpired c now
  | _ => rfl

/-- **Every call of a shard is one of its contents**, up to the key that it may evict. -/
theorem call_serves (h : c.WellFormed) (i : Time × Call) :
    Contents.Serves c.capacity c.tombstoneTtl c.slot i (c.call i).2.asSet (c.call i).1.slot := by
  by_cases hroom : ∀ key, Contents.BringsIn c.tombstoneTtl c.slot i key →
      ¬Contents.Full c.capacity c.slot
  · obtain ⟨hslot, hreply⟩ := call_contents h (evictions_call h i hroom)
    rw [hslot, hreply]
    exact .keeps hroom
  · obtain ⟨key, hkey⟩ := not_forall.mp hroom
    obtain ⟨hnew, hfull⟩ := Classical.not_imp.mp hkey
    rw [not_not] at hfull
    have hf : c.find key = none := Option.map_eq_none_iff.mp hnew.1
    obtain ⟨now, call⟩ := i
    obtain ⟨value, ttl, rfl⟩ | ⟨v, rfl⟩ := hnew.cases
    · obtain ⟨victim, hne, hstored, hslot⟩ :=
        slot_apply_of_full h hf hfull now ⟨value, 0, false, ttl⟩
      have heq : (c.call (now, .set key value ttl)).1.slot = Function.update
          (Contents.call c.tombstoneTtl c.slot (now, .set key value ttl)).1 victim none := by
        rw [Cache.call, set_eq_apply hf, hslot]
        rfl
      rw [heq]
      exact .evicts key victim hnew hfull hne hstored
    · obtain ⟨victim, hne, hstored, hslot⟩ := slot_apply_of_full h hf hfull now v
      have heq : (c.call (now, .apply key v)).1.slot = Function.update
          (Contents.call c.tombstoneTtl c.slot (now, .apply key v)).1 victim none := by
        rw [Cache.call, hslot, Contents.call, hnew.1]
        rfl
      have hreply : (c.call (now, .apply key v)).2.asSet =
          (Contents.call c.tombstoneTtl c.slot (now, .apply key v)).2 := by
        simp only [Cache.call, Reply.asSet, Contents.call, apply_eq_storesSlot]
      rw [heq, hreply]
      exact .evicts key victim hnew hfull hne hstored

/-! ## The sections of a read -/

/-- The section of `Cache::get` under the shared lock: the value, and whether the entry is due to be
promoted. -/
def lookup (c : Cache) (now : Time) (key : Key) : Option (Bytes × Bool) :=
  match c.find key with
  | none => none
  | some n =>
    if !n.entry.isLive now then none
    else if n.lastPromoted ≠ 0 ∧ now - n.lastPromoted < promoteInterval.ticks then
      some (n.entry.value, false)
    else some (n.entry.value, true)

/-- The section of `Cache::get` under the exclusive lock: the entry is looked up again. -/
def promoteKey (c : Cache) (now : Time) (key : Key) : Cache :=
  match c.find key with
  | none => c
  | some n => c.promote n now

/-- The sections one after the other are `Cache::get`. -/
theorem get_eq_sections (c : Cache) (now : Time) (key : Key) :
    c.get now key =
      match c.lookup now key with
      | none => (c, none)
      | some (value, false) => (c, some value)
      | some (value, true) => (c.promoteKey now key, some value) := by
  unfold get lookup promoteKey
  cases c.find key with
  | none => rfl
  | some n =>
    simp only
    split
    · rfl
    · split <;> rfl

theorem map_fst_lookup (c : Cache) (now : Time) (key : Key) :
    (c.lookup now key).map Prod.fst = valueSlot now (c.slot key) := by
  rw [← get_eq_valueSlot, get_eq_sections]
  obtain _ | ⟨value, _ | _⟩ := c.lookup now key <;> rfl

theorem WellFormed.promoteKey (h : c.WellFormed) (now : Time) (key : Key) :
    (c.promoteKey now key).WellFormed := by
  unfold Cache.promoteKey
  cases hf : c.find key with
  | none => exact h
  | some n => exact h.promote (h.find_eq_some.mp hf).1 now

theorem slot_promoteKey (h : c.WellFormed) (now : Time) (key : Key) :
    (c.promoteKey now key).slot = c.slot := by
  unfold promoteKey
  cases hf : c.find key with
  | none => rfl
  | some n =>
    funext k
    obtain ⟨hn, -⟩ := h.find_eq_some.mp hf
    simp only
    rw [slot_moveFront h hn { n with lastPromoted := now } (h.promote hn now) rfl rfl]
    split
    · rename_i hk
      rw [hk, slot_of_find (h.find_eq_some.mpr ⟨hn, rfl⟩)]
    · rfl

theorem Bounded.promoteKey (hb : c.Bounded) (h : c.WellFormed) (now : Time) (key : Key) :
    (c.promoteKey now key).Bounded := by
  unfold Cache.promoteKey
  cases hf : c.find key with
  | none => exact hb
  | some n =>
    have hlen := (h.perm_cons_filter (h.find_eq_some.mp hf).1).length_eq
    exact hb.of_length_le rfl hlen.ge

theorem config_promoteKey (c : Cache) (now : Time) (key : Key) :
    (c.promoteKey now key).capacity = c.capacity ∧
      (c.promoteKey now key).tombstoneTtl = c.tombstoneTtl := by
  unfold promoteKey
  split <;> exact ⟨rfl, rfl⟩

end Cache

/-! ## Threads -/

/-- The call reads the clock before it takes the mutex. The others read it under the mutex, if at
all. -/
def Call.readsClockFirst : Call → Bool
  | .set _ _ timeToLive => timeToLive.isSome
  | .get _ | .apply .. | .getVersioned _ | .snapshot => true
  | .remove _ | .contains _ | .expire .. | .ttl _ | .pttl _ | .clear | .purgeExpired => false

namespace CacheThreads

/-- How far a call has come: it has not been made, has been made, has read the clock and waits for
the mutex, is a read that has its value and waits for the mutex once more, or has ended. -/
inductive Phase where
  | idle
  | begun
  | timed (now : Time)
  | promoting (now : Time) (value : Bytes)
  | ended (now : Time) (reply : Reply (List (Key × VersionedValue)))
deriving DecidableEq, Repr

/-- The reading of the clock that a call works with. -/
def Phase.reading : Phase → Option Time
  | .idle | .begun => none
  | .timed now | .promoting now _ | .ended now _ => some now

/-- What a call returns, with its reading of the clock, once it has taken effect. -/
def Phase.reply : Phase → Option (Time × Reply (Set (Key × VersionedValue)))
  | .idle | .begun | .timed _ => none
  | .promoting now value => some (now, .value (some value))
  | .ended now reply => some (now, reply.asSet)

/-- A step: a call is made, reads the clock, has the mutex, or has it to promote; or time passes. -/
inductive Label (ι : Type) where
  | start (i : ι)
  | readClock (i : ι)
  | lock (i : ι)
  | promote (i : ι)
  | tick (elapsed : Time)
deriving DecidableEq, Repr

end CacheThreads

/-- A shard with calls `ι` by any threads. -/
structure CacheThreads (ι : Type) where
  cache : Cache
  clock : Time := 0
  phase : ι → CacheThreads.Phase := fun _ => .idle

namespace CacheThreads

variable {ι : Type}

section Steps

variable [DecidableEq ι] (op : ι → Call)

/-- The call goes on. -/
def setPhase (s : CacheThreads ι) (i : ι) (p : Phase) : CacheThreads ι :=
  { s with phase := Function.update s.phase i p }

/-- The first section under the mutex. -/
def locked (s : CacheThreads ι) (i : ι) (now : Time) : CacheThreads ι :=
  match op i with
  | .get key =>
    match s.cache.lookup now key with
    | none => s.setPhase i (.ended now (.value none))
    | some (value, false) => s.setPhase i (.ended now (.value (some value)))
    | some (value, true) => s.setPhase i (.promoting now value)
  | call =>
    { s with
      cache := (s.cache.call (now, call)).1
      phase := Function.update s.phase i (.ended now (s.cache.call (now, call)).2) }

/-- One step. -/
def step (s : CacheThreads ι) : Label ι → Option (CacheThreads ι)
  | .start i =>
    match s.phase i with
    | .idle => some (s.setPhase i .begun)
    | _ => none
  | .readClock i =>
    match s.phase i with
    | .begun => if (op i).readsClockFirst then some (s.setPhase i (.timed s.clock)) else none
    | _ => none
  | .lock i =>
    match s.phase i with
    | .begun => if (op i).readsClockFirst then none else some (s.locked op i s.clock)
    | .timed now => some (s.locked op i now)
    | _ => none
  | .promote i =>
    match s.phase i, op i with
    | .promoting now value, .get key =>
      some { s with
        cache := s.cache.promoteKey now key
        phase := Function.update s.phase i (.ended now (.value (some value))) }
    | _, _ => none
  | .tick elapsed => some { s with clock := s.clock + elapsed }

end Steps

variable {op : ι → Call} {s s' : CacheThreads ι} {l : Label ι} {ls : List (Label ι)}
  {capacity : ℕ} {tombstoneTtl : Millis} {i : ι} {now : Time} {p : Phase}

/-! ## The calls and the shard -/

/-- Which calls have not begun, what they return, and which have ended. -/
def progress : Progress (CacheThreads ι) ι (Time × Reply (Set (Key × VersionedValue))) where
  idle s i := s.phase i = .idle
  reply s i := (s.phase i).reply
  ended s i := ∃ now reply, s.phase i = .ended now reply
  reply_of_idle h := by rw [h]; rfl
  reply_of_ended h := by
    obtain ⟨now, reply, h⟩ := h
    rw [h]
    rfl

variable (op capacity tombstoneTtl) in
/-- The sequential object: a call with its reading of the clock, on the contents. -/
def serves (m : Contents) (i : ι) (r : Time × Reply (Set (Key × VersionedValue)))
    (m' : Contents) : Prop :=
  Contents.Serves capacity tombstoneTtl m (r.1, op i) r.2 m'

/-- The section under the mutex is reached with the reading `now`, one made before or one made
now. -/
def Reads (s : CacheThreads ι) (i : ι) (now : Time) : Prop :=
  s.phase i = .timed now ∨ s.phase i = .begun ∧ now = s.clock

theorem Reads.reply_eq_none (h : s.Reads i now) : (s.phase i).reply = none := by
  obtain h | ⟨h, -⟩ := h <;> rw [h] <;> rfl

/-- What is true of the shard in every state, also between the two sections of a read. -/
structure Sound (capacity : ℕ) (tombstoneTtl : Millis) (c : Cache) : Prop where
  wellFormed : c.WellFormed
  bounded : c.Bounded
  capacity : c.capacity = capacity
  tombstoneTtl : c.tombstoneTtl = tombstoneTtl

theorem Sound.call {c : Cache} (h : Sound capacity tombstoneTtl c) (i : Time × Call) :
    Sound capacity tombstoneTtl (c.call i).1 where
  wellFormed := h.wellFormed.call i
  bounded := h.bounded.call h.wellFormed i
  capacity := (Cache.Follows.call c i).capacity.trans h.capacity
  tombstoneTtl := (Cache.Follows.call c i).tombstoneTtl.trans h.tombstoneTtl

theorem Sound.promoteKey {c : Cache} (h : Sound capacity tombstoneTtl c) (now : Time) (key : Key) :
    Sound capacity tombstoneTtl (c.promoteKey now key) where
  wellFormed := h.wellFormed.promoteKey now key
  bounded := h.bounded.promoteKey h.wellFormed now key
  capacity := (c.config_promoteKey now key).1.trans h.capacity
  tombstoneTtl := (c.config_promoteKey now key).2.trans h.tombstoneTtl

variable (ι) in
/-- An empty shard, before any call. -/
def start (capacity : ℕ) (tombstoneTtl : Millis) : CacheThreads ι :=
  { cache := { capacity := capacity, tombstoneTtl := tombstoneTtl } }

theorem sound_start (capacity : ℕ) (tombstoneTtl : Millis) :
    Sound capacity tombstoneTtl (start ι capacity tombstoneTtl).cache where
  wellFormed := Cache.wellFormed_empty capacity tombstoneTtl
  bounded _ := Nat.zero_le _
  capacity := rfl
  tombstoneTtl := rfl

/-! ## What a step does -/

variable [DecidableEq ι]

/-- The steps, as a rule: what holds after each holds after every step. -/
@[elab_as_elim]
theorem step_rule {motive : CacheThreads ι → Prop}
    (start : ∀ i, s.phase i = .idle → motive (s.setPhase i .begun))
    (readClock : ∀ i, s.phase i = .begun → motive (s.setPhase i (.timed s.clock)))
    (lock : ∀ i now, s.Reads i now → motive (s.locked op i now))
    (promote : ∀ i now key value, s.phase i = .promoting now value → motive
      { s with
        cache := s.cache.promoteKey now key
        phase := Function.update s.phase i (.ended now (.value (some value))) })
    (tick : ∀ elapsed, motive { s with clock := s.clock + elapsed })
    (hs : step op s l = some s') : motive s' := by
  cases l with
  | start i =>
    rw [step] at hs
    split at hs <;> cases hs
    exact start i ‹_›
  | readClock i =>
    rw [step] at hs
    split at hs
    · split at hs <;> cases hs
      exact readClock i ‹_›
    · cases hs
  | lock i =>
    rw [step] at hs
    split at hs
    · split at hs <;> cases hs
      exact lock i s.clock (.inr ⟨‹_›, rfl⟩)
    · cases hs
      exact lock i _ (.inl ‹_›)
    · cases hs
  | promote i =>
    rw [step] at hs
    split at hs <;> cases hs
    exact promote i _ _ _ ‹_›
  | tick elapsed =>
    cases hs
    exact tick elapsed

/-- **The first section under the mutex** is the call, but for the promotion. -/
theorem locked_spec (op : ι → Call) (h : Sound capacity tombstoneTtl s.cache) (i : ι) (now : Time) :
    ∃ p r, (s.locked op i now).phase = Function.update s.phase i p ∧ p.reply = some (now, r) ∧
      p.reading = some now ∧ (s.locked op i now).clock = s.clock ∧
      Sound capacity tombstoneTtl (s.locked op i now).cache ∧
      Contents.Serves capacity tombstoneTtl s.cache.slot (now, op i) r
        (s.locked op i now).cache.slot := by
  have hserves := Cache.call_serves h.wellFormed (now, op i)
  rw [h.capacity, h.tombstoneTtl] at hserves
  unfold locked
  split
  · -- a read leaves the contents as they are, whether it promotes now, later or not at all
    rename_i key hop
    have hvalue := s.cache.map_fst_lookup now key
    have hslot : (s.cache.call (now, .get key)).1.slot = s.cache.slot :=
      funext fun k => Cache.slot_get h.wellFormed now key
    have hreply : (s.cache.call (now, .get key)).2.asSet =
        .value (valueSlot now (s.cache.slot key)) := by
      rw [Cache.call, Cache.get_eq_valueSlot]
      rfl
    rw [hop, hslot, hreply, ← hvalue] at hserves
    rw [hop]
    obtain hnone | ⟨⟨value, _ | _⟩, hsome⟩ := (s.cache.lookup now key).eq_none_or_eq_some
    · simp only [hnone] at hserves ⊢
      exact ⟨_, _, rfl, rfl, rfl, rfl, h, hserves⟩
    · simp only [hsome] at hserves ⊢
      exact ⟨_, _, rfl, rfl, rfl, rfl, h, hserves⟩
    · simp only [hsome] at hserves ⊢
      exact ⟨_, _, rfl, rfl, rfl, rfl, h, hserves⟩
  · exact ⟨_, _, rfl, rfl, rfl, rfl, h.call (now, op i), hserves⟩

/-! ## Linearizability -/

theorem reply_setPhase (s : CacheThreads ι) (i : ι) (p : Phase) :
    (fun j => (Function.update s.phase i p j).reply) =
      Function.update (fun j => (s.phase j).reply) i p.reply := by
  funext j
  by_cases hj : j = i
  · rw [hj, Function.update_self, Function.update_self]
  · rw [Function.update_of_ne hj, Function.update_of_ne hj]

/-- A call that goes on without a change of its reply is not seen to do so. -/
theorem reply_setPhase_of_eq (h : p.reply = (s.phase i).reply) :
    (fun j => (Function.update s.phase i p j).reply) = fun j => (s.phase j).reply := by
  rw [reply_setPhase, h]
  exact Function.update_eq_self i fun j => (s.phase j).reply

/-- **A step** keeps the shard sound, and is silent or lets one call take effect. -/
theorem effect_of_step (h : Sound capacity tombstoneTtl s.cache) (hs : step op s l = some s') :
    Sound capacity tombstoneTtl s'.cache ∧
      Effect progress (serves op capacity tombstoneTtl) (fun s => s.cache.slot) s s' := by
  refine step_rule ?start ?readClock ?lock ?promote ?tick hs
  case start =>
    intro i hi
    exact ⟨h, .silent rfl (reply_setPhase_of_eq (by rw [hi]; rfl))⟩
  case readClock =>
    intro i hi
    exact ⟨h, .silent rfl (reply_setPhase_of_eq (by rw [hi]; rfl))⟩
  case lock =>
    intro i now hreads
    obtain ⟨p, r, hphase, hreply, -, -, hsound, hserves⟩ := locked_spec op h i now
    refine ⟨hsound, .takes i (now, r) hreads.reply_eq_none ?_ hserves⟩
    rw [← hreply]
    change (fun j => ((s.locked op i now).phase j).reply) = _
    rw [hphase]
    exact reply_setPhase s i p
  case promote =>
    intro i now key value hi
    refine ⟨h.promoteKey now key, .silent (Cache.slot_promoteKey h.wellFormed now key) ?_⟩
    exact reply_setPhase_of_eq (by rw [hi]; rfl)
  case tick =>
    intro elapsed
    exact ⟨h, .silent rfl rfl⟩

/-! ## Readings of the clock -/

/-- A call reads the clock once, and the clock does not go back. -/
theorem reading_of_step (h : Sound capacity tombstoneTtl s.cache) (hs : step op s l = some s') :
    s.clock ≤ s'.clock ∧ ∀ j, (s'.phase j).reading = (s.phase j).reading ∨
      (s.phase j).reading = none ∧ (s'.phase j).reading = some s.clock := by
  -- a step of `i` changes no phase but that of `i`
  have hupdate (i : ι) (p : Phase) (hp : p.reading = (s.phase i).reading ∨
      (s.phase i).reading = none ∧ p.reading = some s.clock) (j : ι) :
      (Function.update s.phase i p j).reading = (s.phase j).reading ∨
        (s.phase j).reading = none ∧
          (Function.update s.phase i p j).reading = some s.clock := by
    by_cases hj : j = i
    · subst hj
      rwa [Function.update_self]
    · rw [Function.update_of_ne hj]
      exact .inl rfl
  refine step_rule ?start ?readClock ?lock ?promote ?tick hs
  case start =>
    intro i hi
    exact ⟨le_rfl, hupdate i .begun (.inl (by rw [hi]; rfl))⟩
  case readClock =>
    intro i hi
    exact ⟨le_rfl, hupdate i (.timed s.clock) (.inr ⟨by rw [hi]; rfl, rfl⟩)⟩
  case lock =>
    intro i now hreads
    obtain ⟨p, r, hphase, -, hreading, hclock, -⟩ := locked_spec op h i now
    rw [hphase, hclock]
    refine ⟨le_rfl, hupdate i p ?_⟩
    obtain hi | ⟨hi, rfl⟩ := hreads
    · exact .inl (by rw [hi, hreading]; rfl)
    · exact .inr ⟨by rw [hi]; rfl, hreading⟩
  case promote =>
    intro i now key value hi
    exact ⟨le_rfl, hupdate i _ (.inl (by rw [hi]; rfl))⟩
  case tick =>
    intro elapsed
    exact ⟨Nat.le_add_right _ _, fun j => .inl rfl⟩

variable (op) in
/-- The clock reads no less than on the way, and a call has kept the reading it made on the way,
after it began. -/
structure Dated (s₀ : CacheThreads ι) (ls : List (Label ι)) (s : CacheThreads ι) : Prop where
  clock : ∀ t, OnTheWay (step op) s₀ ls t → t.clock ≤ s.clock
  kept : ∀ t, OnTheWay (step op) s₀ ls t → ∀ i now, (t.phase i).reading = some now →
    (s.phase i).reading = some now ∧ now ≤ t.clock
  fresh : ∀ t, OnTheWay (step op) s₀ ls t → ∀ i now, t.phase i = .idle →
    (s.phase i).reading = some now → t.clock ≤ now

variable {s₀ : CacheThreads ι}

theorem dated_start (h : ∀ i, s₀.phase i = .idle) : Dated op s₀ [] s₀ where
  clock t ht := by rw [onTheWay_nil.mp ht]
  kept t ht i now hi := by
    rw [onTheWay_nil.mp ht, h i] at hi
    cases hi
  fresh t ht i now _ hi := by
    rw [h i] at hi
    cases hi

theorem Dated.of_step (hd : Dated op s₀ ls s) (hr : run (step op) s₀ ls = some s)
    (h : Sound capacity tombstoneTtl s.cache) (hs : step op s l = some s') :
    Dated op s₀ (ls ++ [l]) s' := by
  obtain ⟨hclock, hreading⟩ := reading_of_step h hs
  have hway := onTheWay_end hr
  constructor
  case clock =>
    intro t ht
    obtain ht | rfl := (onTheWay_append_singleton hr hs).mp ht
    · exact (hd.clock t ht).trans hclock
    · exact le_rfl
  case kept =>
    intro t ht i now hi
    obtain ht | rfl := (onTheWay_append_singleton hr hs).mp ht
    · obtain ⟨hsi, hle⟩ := hd.kept t ht i now hi
      obtain hsame | ⟨hnone, -⟩ := hreading i
      · exact ⟨hsame.trans hsi, hle⟩
      · rw [hsi] at hnone
        cases hnone
    · refine ⟨hi, ?_⟩
      obtain hsame | ⟨-, hnow⟩ := hreading i
      · exact (hd.kept s hway i now (hsame ▸ hi)).2.trans hclock
      · obtain rfl := Option.some.inj (hi.symm.trans hnow)
        exact hclock
  case fresh =>
    intro t ht i now hidle hi
    obtain ht | rfl := (onTheWay_append_singleton hr hs).mp ht
    · obtain hsame | ⟨-, hnow⟩ := hreading i
      · exact hd.fresh t ht i now hidle (hsame ▸ hi)
      · obtain rfl := Option.some.inj (hi.symm.trans hnow)
        exact hd.clock t ht
    · rw [hidle] at hi
      cases hi

/-! ## The shard is linearizable -/

/-- **A shard is linearizable.** In every run of any calls by any threads, whatever the order of
their sections: the index and the list of the shard agree and the shard keeps to its capacity; and
the calls that have taken effect can be put in an order in which the contents give their replies,
and in which a call that had ended before another one began stands before it. The time that a call
works with is one of the clock between its beginning and its end. -/
theorem linearizable_calls (hr : run (step op) (start ι capacity tombstoneTtl) ls = some s) :
    s.cache.WellFormed ∧ s.cache.Bounded ∧
      ∃ h, Linearizes progress (serves op capacity tombstoneTtl) (fun s => s.cache.slot) (step op)
          (start ι capacity tombstoneTtl) ls s h ∧
        ∀ i now r, (i, now, r) ∈ h →
          ∀ t, OnTheWay (step op) (start ι capacity tombstoneTtl) ls t →
            (t.phase i = .idle → t.clock ≤ now) ∧
              ((∃ now' r', t.phase i = .ended now' r') → now ≤ t.clock) := by
  have hstart := sound_start (ι := ι) capacity tombstoneTtl
  have heffect (s : CacheThreads ι) (l : Label ι) (s' : CacheThreads ι)
      (hI : Sound capacity tombstoneTtl s.cache) (hs : step op s l = some s') :=
    effect_of_step hI hs
  obtain ⟨hsound, h, hlin⟩ := linearizes_of_run heffect hstart (fun _ => rfl) hr
  have hdated : Dated op (start ι capacity tombstoneTtl) ls s := by
    have hboth := run_history (P := fun _ _ => True)
      (I := fun ls s => Sound capacity tombstoneTtl s.cache ∧ Dated op (start ι _ _) ls s)
      (fun _ _ _ _ hr hI _ hs => ⟨(effect_of_step hI.1 hs).1, hI.2.of_step hr hI.1 hs⟩)
      ⟨hstart, dated_start fun _ => rfl⟩ (along_true _ _) hr
    exact hboth.2
  refine ⟨hsound.wellFormed, hsound.bounded, h, hlin, ?_⟩
  intro i now r hmem t ht
  -- the reading of a call that has taken effect
  have hreading : (s.phase i).reading = some now := by
    have hreply : (s.phase i).reply = some (now, r) := (hlin.replies i (now, r)).mp hmem
    cases hphase : s.phase i <;> simp_all [Phase.reply, Phase.reading]
  refine ⟨fun hidle => hdated.fresh t ht i now hidle hreading, ?_⟩
  rintro ⟨now', r', hended⟩
  obtain ⟨hkept, hle⟩ := hdated.kept t ht i now' (by rw [hended]; rfl)
  obtain rfl := Option.some.inj (hreading.symm.trans hkept)
  exact hle

/-- A read and a write of one key. -/
def readAndWrite : Bool → Call
  | false => .get [107]
  | true => .set [107] [1] none

/-- The read has the clock before the write begins, and the mutex after it. -/
def readAroundWrite : List (Label Bool) :=
  [.start false, .readClock false, .tick 5, .start true, .lock true, .lock false, .promote false]

/-- It returns what was written after the time that it works with. -/
theorem linearizable_calls_readAroundWrite :
    ∃ s, run (step readAndWrite) (start Bool 1 60000) readAroundWrite = some s ∧
      s.phase false = .ended 0 (.value (some [1])) ∧ s.phase true = .ended 5 .done ∧
      ∃ h, Linearizes progress (serves readAndWrite 1 60000) (fun s => s.cache.slot)
        (step readAndWrite) (start Bool 1 60000) readAroundWrite s h := by
  have hr : run (step readAndWrite) (start Bool 1 60000) readAroundWrite =
      some ((run (step readAndWrite) (start Bool 1 60000) readAroundWrite).get (by decide)) :=
    (Option.some_get _).symm
  obtain ⟨-, -, h, hlin, -⟩ := linearizable_calls hr
  exact ⟨_, hr, by decide, by decide, h, hlin⟩

end CacheThreads

end ShardCache
