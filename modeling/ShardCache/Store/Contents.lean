import ShardCache.Store.Calls

/-!
# What a shard holds

Clients do not see the list of a shard, its index or its counters, only what it holds under each key.
Calls can therefore be followed on the contents alone. As long as a shard evicts nothing, its replies
are those of its contents.

## Main definitions

* `Contents`, `Contents.call`: what is stored under each key, and what a call does to it

## Main results

* `Cache.call_contents`: a call that evicts nothing acts on the contents
* `Cache.replay_contents`: so does a sequence of calls
-/

namespace ShardCache

open Foundations

/-- What is stored under each key. -/
abbrev Contents := Key → Option CacheEntry

namespace Contents

/-- The entries that a snapshot lists. -/
def listed (m : Contents) (now : Time) : Set (Key × VersionedValue) :=
  { x | ∃ e, m x.1 = some e ∧ e.isExpired now = false ∧ x.2 = e.versioned now }

/-- One call, on what is stored under each key. -/
def call (tombstoneTtl : Millis) (m : Contents) :
    Time × Call → Contents × Reply (Set (Key × VersionedValue))
  | (now, .set key value ttl) => (Function.update m key (some (setEntry now value ttl)), .done)
  | (now, .get key) => (m, .value (valueSlot now (m key)))
  | (now, .remove key) =>
    (Function.update m key none, .flag ((m key).any fun e => e.isLive now))
  | (now, .apply key v) =>
    (Function.update m key (applySlot tombstoneTtl now v (m key)),
      .applied (storesSlot now v (m key)) (wasLive now (m key)))
  | (now, .getVersioned key) => (m, .versioned (readSlot now (m key)))
  | (now, .contains key) => (m, .flag ((m key).any fun e => e.isLive now))
  | (now, .expire key ttl) =>
    (Function.update m key (expireSlot now ttl (m key)).1, .flag (expireSlot now ttl (m key)).2)
  | (now, .ttl key) => (m, .seconds (ttlSlot now (m key)))
  | (now, .pttl key) => (m, .millis (pttlSlot now (m key)))
  | (now, .snapshot) => (m, .entries (m.listed now))
  | (_, .clear) => (fun _ => none, .done)
  | (now, .purgeExpired) => (fun k => (m k).filter fun e => !e.isExpired now, .done)

variable {tombstoneTtl : Millis} {m m' : Contents} {i : Time × Call} {k key : Key}

/-- A call that names a key reads and writes its slot only. -/
theorem call_local (hkey : i.2.key = some key) (h : m key = m' key) :
    (call tombstoneTtl m i).1 key = (call tombstoneTtl m' i).1 key ∧
      (call tombstoneTtl m i).2 = (call tombstoneTtl m' i).2 := by
  obtain ⟨now, c⟩ := i
  cases c with
  | snapshot | clear | purgeExpired => exact absurd hkey (by simp [Call.key])
  | _ =>
    obtain rfl := Option.some.inj hkey
    simp [call, h]

theorem call_of_ne (hkey : i.2.key = some key) (hk : k ≠ key) :
    (call tombstoneTtl m i).1 k = m k := by
  obtain ⟨now, c⟩ := i
  cases c with
  | snapshot | clear | purgeExpired => exact absurd hkey (by simp [Call.key])
  | _ =>
    obtain rfl := Option.some.inj hkey
    simp [call, hk]

end Contents

namespace Cache

variable {c : Cache} {i : Time × Call}

/-- What a call changes, it changes in the slot of its key. -/
theorem slot_eq_update {c' : Cache} {key : Key} {s : Option CacheEntry}
    (hself : c'.slot key = s) (hother : ∀ k, k ≠ key → c'.slot k = c.slot k) :
    c'.slot = Function.update c.slot key s := by
  ext1 k
  by_cases hk : k = key
  · rw [hk, hself, Function.update_self]
  · rw [hother k hk, Function.update_of_ne hk]

/-- A snapshot lists the unexpired entries of the contents. -/
theorem setOf_mem_snapshot (h : c.WellFormed) (now : Time) :
    { x | x ∈ c.snapshot now } = Contents.listed c.slot now := by
  ext ⟨k, x⟩
  exact mem_snapshot h

/-- **A call that evicts nothing acts on the contents.** -/
theorem call_contents (h : c.WellFormed) (hev : (c.call i).1.evictions = c.evictions) :
    (c.call i).1.slot = (Contents.call c.tombstoneTtl c.slot i).1 ∧
      (c.call i).2.asSet = (Contents.call c.tombstoneTtl c.slot i).2 := by
  obtain ⟨now, call⟩ := i
  -- an eviction would have been counted
  have hkeep {c' : Cache} {k : Key} (hc' : c'.evictions = c.evictions)
      (hslot : c'.slot k = c.slot k ∨ c'.slot k = none ∧ c'.evictions = c.evictions + 1) :
      c'.slot k = c.slot k := by
    rcases hslot with hs | ⟨-, hcount⟩
    · exact hs
    · omega
  cases call with
  | set key value ttl =>
    refine ⟨slot_eq_update (slot_set h now key value ttl) ?_, rfl⟩
    intro k hk
    exact hkeep hev (slot_set_ne h now key value ttl hk)
  | get key =>
    refine ⟨funext fun k => slot_get h now key, ?_⟩
    simp only [Cache.call, Reply.asSet, Contents.call, get_eq_valueSlot]
  | remove key =>
    refine ⟨slot_eq_update ?_ ?_, ?_⟩
    · simp only [Cache.call, slot_remove h, if_true]
    · intro k hk
      simp only [Cache.call, slot_remove h, if_neg hk]
    · simp only [Cache.call, Reply.asSet, Contents.call, remove_eq_any]
  | apply key v =>
    refine ⟨slot_eq_update (slot_apply h now key v) ?_, ?_⟩
    · intro k hk
      exact hkeep hev (slot_apply_ne h now key v hk)
    · simp only [Cache.call, Reply.asSet, Contents.call, apply_eq_storesSlot]
  | getVersioned key => exact ⟨rfl, rfl⟩
  | contains key =>
    refine ⟨rfl, ?_⟩
    simp only [Cache.call, Reply.asSet, Contents.call, contains_eq]
  | expire key ttl =>
    refine ⟨slot_eq_update ?_ ?_, ?_⟩
    · simp only [Cache.call, (slot_expire h now key ttl).1, if_true]
    · intro k hk
      simp only [Cache.call, (slot_expire h now key ttl).1, if_neg hk]
    · simp only [Cache.call, Reply.asSet, Contents.call]
      rw [(slot_expire (k := key) h now key ttl).2]
  | ttl key => exact ⟨rfl, rfl⟩
  | pttl key => exact ⟨rfl, rfl⟩
  | snapshot =>
    refine ⟨rfl, ?_⟩
    simp only [Cache.call, Reply.asSet, Contents.call, setOf_mem_snapshot h]
  | clear => exact ⟨funext fun k => slot_clear c k, rfl⟩
  | purgeExpired => exact ⟨funext fun k => slot_purgeExpired h now, rfl⟩

/-- Replies that agree one by one agree as lists. -/
theorem map_asSet_eq {replies : List (Reply (List (Key × VersionedValue)))}
    {replies' : List (Reply (Set (Key × VersionedValue)))}
    (h : List.Forall₂ (fun r r' => r.asSet = r') replies replies') :
    replies.map Reply.asSet = replies' := by
  rw [← List.forall₂_eq_eq_eq, List.forall₂_map_left_iff]
  exact h

/-- **Calls that evict nothing act on the contents**: the shard holds what the contents hold, and
gives the same replies. -/
theorem replay_contents {is : List (Time × Call)} (h : c.WellFormed)
    (hev : (replay Cache.call c is).1.evictions = c.evictions) :
    (replay Cache.call c is).1.slot = (replay (Contents.call c.tombstoneTtl) c.slot is).1 ∧
      (replay Cache.call c is).2.map Reply.asSet =
        (replay (Contents.call c.tombstoneTtl) c.slot is).2 := by
  let R (d : Cache) (m : Contents) : Prop :=
    d.WellFormed ∧ d.slot = m ∧ d.tombstoneTtl = c.tombstoneTtl
  have hcall : ∀ i d m, R d m → (d.call i).1.evictions = d.evictions →
      R (d.call i).1 (Contents.call c.tombstoneTtl m i).1 ∧
        (d.call i).2.asSet = (Contents.call c.tombstoneTtl m i).2 := by
    rintro i d m ⟨hd, rfl, httl⟩ hsame
    rw [← httl]
    obtain ⟨hslot, hreply⟩ := call_contents hd hsame
    exact ⟨⟨hd.call i, hslot, (Follows.call d i).tombstoneTtl.trans httl⟩, hreply⟩
  obtain ⟨⟨-, hslot, -⟩, hreplies⟩ :=
    replay_simulation_of_still Cache.call (Contents.call c.tombstoneTtl) (R := R)
      (Q := fun r r' => r.asSet = r') (fun d i => (Follows.call d i).evictions) hcall
      ⟨h, rfl, rfl⟩ hev
  exact ⟨hslot, map_asSet_eq hreplies⟩

end Cache

end ShardCache
