import ShardCache.Store.Contents

/-!
# Lazy and active expiry

A shard deletes expired entries when it comes across them: some calls erase them, some overwrite
them, some pass them by, and a sweep takes them away from time to time. To clients it is a map whose
entries vanish at the instant their deadline is reached.

## Main definitions

* `ExpiringMap`, `ExpiringMap.call`: the map, from which entries vanish at their deadlines; the sweep
  does nothing to it
* `observed`: the replies of a sequence of calls, those to sweeps left out

## Main results

* `ExpiringMap.serve_atTime`: a call of the contents and a call of the map, at the same time
* `Cache.behaves_as_map`: a shard that evicts nothing gives the replies of the map, and clients do
  not notice the sweeps
-/

namespace ShardCache

open Foundations

/-! ## The map -/

/-- A map from keys to values with their versions, tombstone flags and deadlines. -/
abbrev ExpiringMap := Key → Option CacheEntry

namespace ExpiringMap

/-- What is left of the map at the time `now`: an entry is deleted at the instant its deadline is
reached. -/
def atTime (m : ExpiringMap) (now : Time) : ExpiringMap :=
  fun k => (m k).filter fun e => !e.isExpired now

/-- The entry of a key, if it is no tombstone. -/
def visible (m : ExpiringMap) (key : Key) : Option CacheEntry := (m key).filter fun e => !e.tombstone

/-- A call on what is left of the map. No entry has expired here, and the sweep finds nothing. -/
def serve (tombstoneTtl : Millis) (now : Time) (m : ExpiringMap) :
    Call → ExpiringMap × Reply (Set (Key × VersionedValue))
  | .set key value ttl => (Function.update m key (some (setEntry now value ttl)), .done)
  | .get key => (m, .value ((m.visible key).map CacheEntry.value))
  | .remove key => (Function.update m key none, .flag (m.visible key).isSome)
  | .apply key v =>
    if (m key).all fun e => supersedes v.version v.tombstone v.value e then
      (Function.update m key (some (v.toEntry tombstoneTtl now)),
        .applied true (m.visible key).isSome)
    else (m, .applied false (m.visible key).isSome)
  | .getVersioned key => (m, .versioned ((m key).map fun e => e.versioned now))
  | .contains key => (m, .flag (m.visible key).isSome)
  | .expire key ttl =>
    match m.visible key with
    | none => (m, .flag false)
    | some e =>
      (Function.update m key (some { e with expiresAt := some (now + ttl.ticks) }), .flag true)
  | .ttl key =>
    (m, .seconds ((m.visible key).bind fun e =>
      e.expiresAt.map fun deadline => secondsUntil deadline now))
  | .pttl key =>
    (m, .millis (match m.visible key with
      | none => -2
      | some e =>
        match e.expiresAt with
        | none => -1
        | some deadline => millisUntil deadline now))
  | .snapshot => (m, .entries { x | ∃ e, m x.1 = some e ∧ x.2 = e.versioned now })
  | .clear => (fun _ => none, .done)
  | .purgeExpired => (m, .done)

/-- One call, with the reading of the clock. -/
def call (tombstoneTtl : Millis) (m : ExpiringMap) (i : Time × Call) :
    ExpiringMap × Reply (Set (Key × VersionedValue)) :=
  serve tombstoneTtl i.1 (m.atTime i.1) i.2

/-! ## One slot -/

section Slot

variable {tombstoneTtl : Millis} {now : Time} {m : ExpiringMap} {key : Key} {v : VersionedValue}

theorem filter_isLive (m : ExpiringMap) (now : Time) (key : Key) :
    ((m key).filter fun e => e.isLive now) = (m.atTime now).visible key := by
  rw [visible, atTime, Option.filter_filter]
  simp only [CacheEntry.isLive, Bool.and_comm]

theorem any_isLive (m : ExpiringMap) (now : Time) (key : Key) :
    ((m key).any fun e => e.isLive now) = ((m.atTime now).visible key).isSome := by
  rw [← filter_isLive, Option.isSome_filter]

/-- A write is stored if it supersedes what is left. -/
theorem storesSlot_eq (m : ExpiringMap) (now : Time) (key : Key) (v : VersionedValue) :
    storesSlot now v (m key) =
      (m.atTime now key).all fun e => supersedes v.version v.tombstone v.value e := by
  unfold atTime
  cases m key with
  | none => rfl
  | some e => cases hexp : e.isExpired now <;> simp [storesSlot, hexp]

/-- A write changes the slot exactly when it is stored. -/
theorem applySlot_eq (slot : Option CacheEntry) :
    applySlot tombstoneTtl now v slot =
      if storesSlot now v slot then some (v.toEntry tombstoneTtl now) else slot := by
  cases slot with
  | none => rfl
  | some e =>
    by_cases hexp : e.isExpired now = true
    · simp [applySlot, storesSlot, hexp]
    · by_cases hsup : supersedes v.version v.tombstone v.value e = true
      · simp [applySlot, storesSlot, hsup]
      · simp [applySlot, storesSlot, hexp, hsup]

theorem readSlot_eq (m : ExpiringMap) (now : Time) (key : Key) :
    readSlot now (m key) = (m.atTime now key).map fun e => e.versioned now := by
  unfold atTime
  cases m key with
  | none => rfl
  | some e => cases hexp : e.isExpired now <;> simp [readSlot, hexp]

/-- `Cache::expire` finds its entry if it is left and no tombstone. -/
theorem expireSlot_eq (m : ExpiringMap) (now : Time) (key : Key) (ttl : Millis) :
    (expireSlot now ttl (m key)).2 = ((m.atTime now).visible key).isSome ∧
      ((expireSlot now ttl (m key)).1.filter fun e => !e.isExpired now) =
        (((m.atTime now).visible key).elim (m.atTime now key) fun e =>
          some { e with expiresAt := some (now + ttl.ticks) }).filter fun e => !e.isExpired now := by
  unfold visible atTime
  cases m key with
  | none => simp [expireSlot]
  | some e =>
    cases htomb : e.tombstone <;> cases hexp : e.isExpired now <;>
      simp [expireSlot, htomb, hexp, Option.filter_some]

end Slot

/-! ## One call -/

section Calls

variable {tombstoneTtl : Millis} {now now' : Time} {m m' : ExpiringMap} {key : Key}

theorem atTime_atTime (m : ExpiringMap) (h : now ≤ now') : (m.atTime now).atTime now' = m.atTime now' := by
  funext k
  simp only [atTime, Option.filter_filter]
  congr 1
  funext e
  -- what has expired by the first time has expired by the second
  unfold CacheEntry.isExpired
  cases e.expiresAt with
  | none => rfl
  | some deadline =>
    simp only [ge_iff_le]
    by_cases hd : deadline ≤ now
    · simp [hd, hd.trans h]
    · simp [hd]

/-- Maps with the same left at one time have the same left later on. -/
theorem atTime_congr (h : m.atTime now = m'.atTime now) (hle : now ≤ now') :
    m.atTime now' = m'.atTime now' := by
  rw [← atTime_atTime m hle, h, atTime_atTime m' hle]

theorem atTime_update (m : ExpiringMap) (now : Time) (key : Key) (slot : Option CacheEntry) :
    atTime (Function.update m key slot) now =
      Function.update (m.atTime now) key (slot.filter fun e => !e.isExpired now) := by
  funext k
  by_cases hk : k = key
  · simp [atTime, hk]
  · simp [atTime, hk]

/-- Writing back what is left changes nothing. -/
theorem update_atTime (m : ExpiringMap) (now : Time) (key : Key) :
    Function.update (m.atTime now) key ((m key).filter fun e => !e.isExpired now) = m.atTime now :=
  Function.update_eq_self key (m.atTime now)

/-- **A call of the contents and a call of the map at the same time**: the replies agree, and so does
what is left afterwards. -/
theorem serve_atTime (tombstoneTtl : Millis) (now : Time) (m : ExpiringMap) (c : Call) :
    atTime (Contents.call tombstoneTtl m (now, c)).1 now =
        (serve tombstoneTtl now (m.atTime now) c).1.atTime now ∧
      (Contents.call tombstoneTtl m (now, c)).2 = (serve tombstoneTtl now (m.atTime now) c).2 := by
  have hself := atTime_atTime m (le_refl now)
  -- A call never asks for an expired entry, so that it makes no difference whether they are dropped
  -- before it or after it.
  cases c with
  | set key value ttl =>
    refine ⟨?_, rfl⟩
    simp only [Contents.call, serve, atTime_update, hself]
  | get key =>
    refine ⟨hself.symm, ?_⟩
    simp only [Contents.call, serve, valueSlot, filter_isLive]
  | remove key =>
    refine ⟨?_, ?_⟩
    · simp only [Contents.call, serve, atTime_update, hself]
    · simp only [Contents.call, serve, any_isLive]
  | apply key v =>
    simp only [Contents.call, serve, applySlot_eq, storesSlot_eq, wasLive, any_isLive]
    split
    · -- the write is stored
      refine ⟨?_, ?_⟩
      · simp only [atTime_update, hself]
      · simp_all
    · -- refused: the slot is written back as it was
      refine ⟨?_, ?_⟩
      · simp only [atTime_update, update_atTime, hself]
      · simp_all
  | getVersioned key =>
    refine ⟨hself.symm, ?_⟩
    simp only [Contents.call, serve, readSlot_eq]
  | contains key =>
    refine ⟨hself.symm, ?_⟩
    simp only [Contents.call, serve, any_isLive]
  | expire key ttl =>
    obtain ⟨hreply, hslot⟩ := expireSlot_eq m now key ttl
    simp only [Contents.call, serve, atTime_update, hreply, hslot]
    cases hvis : (m.atTime now).visible key with
    | none =>
      -- an expired entry is erased, a tombstone stays; the map at this time shows neither
      refine ⟨?_, rfl⟩
      have hback := update_atTime (m.atTime now) now key
      rw [hself] at hback
      simp only [Option.elim_none, hself]
      exact hback
    | some e =>
      refine ⟨?_, rfl⟩
      simp only [Option.elim_some, atTime_update, hself]
  | ttl key =>
    refine ⟨hself.symm, ?_⟩
    simp only [Contents.call, serve, ttlSlot, filter_isLive]
  | pttl key =>
    refine ⟨hself.symm, ?_⟩
    cases hvisible : (m.atTime now).visible key with
    | none => simp only [Contents.call, serve, pttlSlot, filter_isLive, hvisible]
    | some e =>
      cases hdeadline : e.expiresAt <;>
        simp only [Contents.call, serve, pttlSlot, filter_isLive, hvisible, hdeadline]
  | snapshot =>
    refine ⟨hself.symm, ?_⟩
    simp only [Contents.call, serve, Contents.listed, atTime, Option.filter_eq_some_iff,
      Bool.not_eq_true', and_assoc]
  | clear => exact ⟨rfl, rfl⟩
  | purgeExpired => exact ⟨rfl, rfl⟩

/-! ## Sequences of calls -/

/-- Contents and a map with the same left give the same replies to calls at non-decreasing times. -/
theorem replies_eq {is : List (Time × Call)} (htimes : is.Pairwise fun i j => i.1 ≤ j.1)
    (hsame : ∀ i ∈ is, m.atTime i.1 = m'.atTime i.1) :
    (replay (Contents.call tombstoneTtl) m is).2 = (replay (call tombstoneTtl) m' is).2 := by
  -- The relation: what is left is the same at the time of every call still to come.
  let R (is : List (Time × Call)) (m : Contents) (m' : ExpiringMap) : Prop :=
    (is.Pairwise fun i j => i.1 ≤ j.1) ∧ ∀ i ∈ is, atTime m i.1 = m'.atTime i.1
  have hcall : ∀ i is m m', R (i :: is) m m' →
      R is (Contents.call tombstoneTtl m i).1 (call tombstoneTtl m' i).1 ∧
        (Contents.call tombstoneTtl m i).2 = (call tombstoneTtl m' i).2 := by
    rintro i is m m' ⟨htimes, hsame⟩
    obtain ⟨hfirst, htimes⟩ := List.pairwise_cons.mp htimes
    obtain ⟨hleft, hreply⟩ := serve_atTime tombstoneTtl i.1 m i.2
    rw [hsame i List.mem_cons_self] at hleft hreply
    exact ⟨⟨htimes, fun j hj => atTime_congr hleft (hfirst j hj)⟩, hreply⟩
  have hstart : R is m m' := ⟨htimes, hsame⟩
  have hreplies := (replay_simulation (Contents.call tombstoneTtl) (call tombstoneTtl) (R := R)
    (Q := Eq) hcall hstart).2
  rwa [List.forall₂_eq_eq_eq] at hreplies

end Calls

end ExpiringMap

/-- The call is no sweep. -/
def Call.ofClient (i : Time × Call) : Bool := i.2 ≠ .purgeExpired

/-- The replies that clients get: those to sweeps are left out. -/
def observed {ρ : Type} (is : List (Time × Call)) (replies : List ρ) : List ρ :=
  ((is.zip replies).filter fun x => Call.ofClient x.1).map Prod.snd

theorem observed_cons {ρ : Type} (i : Time × Call) (is : List (Time × Call)) (r : ρ)
    (replies : List ρ) :
    observed (i :: is) (r :: replies) =
      if Call.ofClient i then r :: observed is replies else observed is replies := by
  simp only [observed, List.zip_cons_cons, List.filter_cons]
  split <;> rfl

/-- **The map does not notice the sweeps**: it gives clients the same replies with and without. -/
theorem ExpiringMap.observed_replay {tombstoneTtl : Millis} {m m' : ExpiringMap}
    {is : List (Time × Call)} (htimes : is.Pairwise fun i j => i.1 ≤ j.1)
    (hsame : ∀ i ∈ is, m.atTime i.1 = m'.atTime i.1) :
    observed is (replay (call tombstoneTtl) m is).2 =
      (replay (call tombstoneTtl) m' (is.filter Call.ofClient)).2 := by
  -- Induction on the calls: a sweep leaves what was left, any other call starts from the same.
  induction is generalizing m m' with
  | nil => rfl
  | cons i is ih =>
    obtain ⟨hfirst, htimes⟩ := List.pairwise_cons.mp htimes
    have hi := hsame i List.mem_cons_self
    cases hclient : Call.ofClient i with
    | true =>
      have hcall : call tombstoneTtl m i = call tombstoneTtl m' i := by rw [call, call, hi]
      rw [List.filter_cons_of_pos hclient, replay_cons_replies, replay_cons_replies, hcall,
        observed_cons, if_pos hclient, ih htimes fun _ _ => rfl]
    | false =>
      have hsweep : i.2 = .purgeExpired := by simpa [Call.ofClient] using hclient
      have hstate : (call tombstoneTtl m i).1 = m.atTime i.1 := by rw [call, hsweep, serve]
      have hskip : ¬ Call.ofClient i = true := by simp [hclient]
      rw [List.filter_cons_of_neg hskip, replay_cons_replies, hstate, observed_cons, if_neg hskip]
      refine ih htimes ?_
      intro j hj
      rw [atTime_atTime m (hfirst j hj)]
      exact hsame j (List.mem_cons_of_mem _ hj)

namespace Cache

/-- **A shard that evicts nothing behaves as a map** whose entries vanish at their deadlines: every
sequence of calls at non-decreasing times gets the replies of the map. Clients can therefore not tell
when expired entries are swept: two sequences with the same calls of clients get the same replies. -/
theorem behaves_as_map (capacity : ℕ) (tombstoneTtl : Millis) (calls : List (Time × Call))
    (htimes : (calls.map Prod.fst).Pairwise (· ≤ ·))
    (hev : (replay Cache.call { capacity := capacity, tombstoneTtl := tombstoneTtl } calls).1.evictions
      = 0) :
    (replay Cache.call { capacity := capacity, tombstoneTtl := tombstoneTtl } calls).2.map
        Reply.asSet = (replay (ExpiringMap.call tombstoneTtl) (fun _ => none) calls).2 ∧
      ∀ calls' : List (Time × Call), calls'.filter Call.ofClient = calls.filter Call.ofClient →
        (calls'.map Prod.fst).Pairwise (· ≤ ·) →
        (replay Cache.call { capacity := capacity, tombstoneTtl := tombstoneTtl }
          calls').1.evictions = 0 →
        observed calls' ((replay Cache.call { capacity := capacity, tombstoneTtl := tombstoneTtl }
            calls').2.map Reply.asSet) =
          observed calls ((replay Cache.call { capacity := capacity, tombstoneTtl := tombstoneTtl }
            calls).2.map Reply.asSet) := by
  -- the replies of the shard are those of its contents, and these are those of the map
  have hmap (is : List (Time × Call)) (htimes : is.Pairwise fun i j => i.1 ≤ j.1)
      (hev : (replay Cache.call { capacity := capacity, tombstoneTtl := tombstoneTtl } is).1.evictions
        = 0) :
      (replay Cache.call { capacity := capacity, tombstoneTtl := tombstoneTtl } is).2.map
        Reply.asSet = (replay (ExpiringMap.call tombstoneTtl) (fun _ => none) is).2 := by
    have hempty : ({ capacity := capacity, tombstoneTtl := tombstoneTtl } : Cache).slot =
        fun _ => none := by
      funext k
      simp [slot, find]
    rw [(replay_contents (wellFormed_empty capacity tombstoneTtl) hev).2, hempty]
    exact ExpiringMap.replies_eq htimes fun _ _ => rfl
  refine ⟨hmap calls (List.pairwise_map.mp htimes) hev, ?_⟩
  intro calls' hclients htimes' hev'
  rw [hmap calls (List.pairwise_map.mp htimes) hev, hmap calls' (List.pairwise_map.mp htimes') hev',
    ExpiringMap.observed_replay (List.pairwise_map.mp htimes) fun _ _ => rfl,
    ExpiringMap.observed_replay (List.pairwise_map.mp htimes') fun _ _ => rfl, hclients]

/-- A value with one millisecond to live, a write below it after that time, and a read. -/
def writeAfterExpiry : List (Time × Call) :=
  [(1, .apply [107] ⟨[1], 9, false, some 1⟩), (2000000, .apply [107] ⟨[2], 3, false, none⟩),
    (2000001, .get [107])]

/-- The same calls, with a sweep before the second write. -/
def sweptWriteAfterExpiry : List (Time × Call) :=
  [(1, .apply [107] ⟨[1], 9, false, some 1⟩), (1999999, .purgeExpired),
    (2000000, .apply [107] ⟨[2], 3, false, none⟩), (2000001, .get [107])]

theorem behaves_as_map_writeAfterExpiry :
    observed sweptWriteAfterExpiry ((replay Cache.call { capacity := 8, tombstoneTtl := 60000 }
        sweptWriteAfterExpiry).2.map Reply.asSet) =
      observed writeAfterExpiry ((replay Cache.call { capacity := 8, tombstoneTtl := 60000 }
        writeAfterExpiry).2.map Reply.asSet) :=
  (behaves_as_map 8 60000 writeAfterExpiry (by decide) (by decide)).2 sweptWriteAfterExpiry
    (by decide) (by decide) (by decide)

end Cache

end ShardCache
