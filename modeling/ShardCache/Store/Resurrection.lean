import ShardCache.Store.Convergence

/-!
# Old writes that come back

A late write of an old version is kept out by the newer entry that the shard holds, as long as the
shard holds it. A tombstone is in the same list as all other entries, so traffic on other keys can
evict it before its time; and an entry that has expired keeps nothing out.

## Main definitions

* `CacheOp.Late`: what may happen to a deleted key and around it, before its tombstone expires
* `CacheOp.Quiet`: an operation that neither writes nor evicts a key

## Main results

* `Cache.evicted_tombstone_resurrects`, `Cache.tombstone_window`: a deleted key comes back when its
  tombstone is evicted, and stays deleted in runs that do not evict it
* `Cache.expired_write_undone`, `Cache.older_write_hidden_iff`: an older write comes back when it
  arrives after a newer one has expired, and only then
-/

namespace ShardCache

open Foundations

/-- The operation comes before the deadline; if it writes `k`, it is a delivery of a version below
`version`. -/
def CacheOp.Late (k : Key) (version : UInt64) (deadline : Time) (op : CacheOp) : Prop :=
  op.now < deadline ∧
    (op.writes = some k → (Cache.delivered k op).any fun v => decide (v.version < version))

instance (k : Key) (version : UInt64) (deadline : Time) (op : CacheOp) :
    Decidable (op.Late k version deadline) := inferInstanceAs (Decidable (_ ∧ _))

/-- The operation neither writes nor evicts `k`. -/
def CacheOp.Quiet (k : Key) (c : Cache) (op : CacheOp) : Prop :=
  op.writes ≠ some k ∧ op.Spares k c

instance (k : Key) (c : Cache) (op : CacheOp) : Decidable (op.Quiet k c) :=
  inferInstanceAs (Decidable (_ ∧ _))

namespace Cache

variable {c c' c₀ d : Cache} {k : Key} {op : CacheOp} {ops : List CacheOp} {now t : Time}
  {v : VersionedValue} {version : UInt64} {deadline : Time}

/-! ## Tombstones -/

/-- **An evicted tombstone lets the key come back**: another key takes the place of the tombstone,
and a write older than the delete is visible within the tombstone's time. -/
theorem evicted_tombstone_resurrects :
    ∃ c₀ d, ({ capacity := 1, tombstoneTtl := 60000 } : Cache).apply 0 [107] ⟨[], 20, true, none⟩ =
        (c₀, true) ∧
      run step c₀ [.set 1 [120] [2] none, .apply 2 [107] ⟨[1], 10, false, none⟩] = some d ∧
      d.contains 3 [107] = true ∧ (d.get 3 [107]).2 = some [1] :=
  ⟨_, _, rfl, rfl, by decide, by decide⟩

/-- A write that returns true is stored. -/
theorem stored_of_apply (hc : c.WellFormed) (happly : c.apply t k v = (c₀, true)) :
    c₀.slot k = some (v.toEntry c.tombstoneTtl t) := by
  have hslot := slot_apply hc t k v
  rw [happly] at hslot
  rw [hslot]
  unfold apply at happly
  cases hf : c.find k with
  | none => rw [slot_of_find_none hf, applySlot]
  | some n =>
    rw [slot_of_find hf, applySlot]
    simp only [hf] at happly
    split at happly
    · simp at happly
    · exact if_neg ‹_›

/-- The slot of `k` holds the tombstone. -/
structure Buried (k : Key) (version : UInt64) (deadline : Time) (c : Cache) : Prop where
  wellFormed : c.WellFormed
  slot : ∃ e, c.slot k = some e ∧ e.tombstone = true ∧ e.version = version ∧
    e.expiresAt = some deadline

theorem Buried.step (hb : Buried k version deadline c) (hlate : op.Late k version deadline)
    (hspares : op.Spares k c) (hs : c.step op = some c') : Buried k version deadline c' := by
  obtain ⟨e, he, htomb, hversion, hexpires⟩ := hb.slot
  have hexp (now : Time) (hnow : now < deadline) : e.isExpired now = false := by
    simp [CacheEntry.isExpired, hexpires, hnow]
  refine ⟨hb.wellFormed.step hs, e, ?_, htomb, hversion, hexpires⟩
  by_cases hw : op.writes = some k
  · -- a delivery of an older version leaves the slot as it is
    have hold := hlate.2 hw
    cases op with
    | apply now key w =>
      obtain rfl : key = k := Option.some.inj hw
      obtain rfl := Option.some.inj hs
      have hlt : w.version < e.version := by simpa [delivered, hversion] using hold
      rw [slot_apply hb.wellFormed, he, applySlot, hexp now hlate.1,
        not_supersedes_of_version_lt hlt]
      rfl
    | set now key value ttl => simp [delivered] at hold
    | get now key => simp [delivered] at hold
    | purgeExpired now => simp [delivered] at hold
  · rcases slot_step hb.wellFormed hs hw hspares with hslot | ⟨now, rfl, hslot⟩
    · rw [hslot, he]
    · rw [hslot, he, Option.filter_some, hexp now hlate.1]
      rfl

/-- **A deleted key stays deleted while its tombstone is kept.** After a delete that took effect, no
run before the end of the tombstone's time makes the key visible, if its steps write the key with
older versions only and do not evict it. -/
theorem tombstone_window (hc : c.WellFormed) (htomb : v.tombstone = true)
    (happly : c.apply t k v = (c₀, true)) (hr : run step c₀ ops = some d)
    (hlate : ∀ op ∈ ops, op.Late k v.version (t + c.tombstoneTtl.ticks))
    (hA : Along step (fun c op => op.Spares k c) c₀ ops) (now : Time) :
    d.contains now k = false ∧ (d.get now k).2 = none := by
  have hinit : Buried k v.version (t + c.tombstoneTtl.ticks) c₀ := by
    have hstored := stored_of_apply hc happly
    obtain rfl : (c.apply t k v).1 = c₀ := congrArg Prod.fst happly
    exact ⟨hc.apply t k v, _, hstored, htomb, rfl,
      by simp [VersionedValue.toEntry, VersionedValue.deadline, htomb]⟩
  have hburied : Buried k v.version (t + c.tombstoneTtl.ticks) d :=
    run_invariant (fun _ _ _ hb hP hs => hb.step hP.1 hP.2 hs) hinit (hA.and_mem hlate) hr
  obtain ⟨e, he, htomb, -⟩ := hburied.slot
  have hcontains : d.contains now k = false := by
    simp [contains_eq, he, CacheEntry.isLive, htomb]
  exact ⟨hcontains, Option.not_isSome_iff_eq_none.mp (by simp [get_isSome, hcontains])⟩

/-- Another key is written, and an older write arrives, in a shard with room. -/
def lateWrite : List CacheOp :=
  [.set 1 [120] [2] none, .apply 2 [107] ⟨[1], 10, false, none⟩, .purgeExpired 3]

theorem tombstone_window_lateWrite :
    ∃ c₀ d, ({ capacity := 2, tombstoneTtl := 60000 } : Cache).apply 0 [107] ⟨[], 20, true, none⟩ =
        (c₀, true) ∧
      run step c₀ lateWrite = some d ∧ d.contains 4 [107] = false ∧ (d.get 4 [107]).2 = none := by
  have hrun : ∃ c₀ d, ({ capacity := 2, tombstoneTtl := 60000 } : Cache).apply 0 [107]
      ⟨[], 20, true, none⟩ = (c₀, true) ∧ run step c₀ lateWrite = some d ∧
        Along step (fun c op => op.Spares [107] c) c₀ lateWrite :=
    ⟨_, _, rfl, rfl, by decide⟩
  obtain ⟨c₀, d, happly, hr, hA⟩ := hrun
  exact ⟨c₀, d, happly, hr,
    tombstone_window (wellFormed_empty 2 60000) rfl happly hr (by decide) hA 4⟩

/-! ## Entries that have expired -/

/-- **An expired write is undone by an older one**: a write of version 2 with a time to live of one
millisecond reaches two shards, and so does a write of version 1. Where the older one arrives after
the deadline it is visible, and where it arrives first nothing is. -/
theorem expired_write_undone :
    ∃ d d', run step { capacity := 8, tombstoneTtl := 60000 }
        [.apply 0 [107] ⟨[2], 2, false, some 1⟩, .apply 2000000 [107] ⟨[1], 1, false, none⟩] =
          some d ∧
      run step { capacity := 8, tombstoneTtl := 60000 }
        [.apply 0 [107] ⟨[1], 1, false, none⟩, .apply 0 [107] ⟨[2], 2, false, some 1⟩] = some d' ∧
      d.contains 3000000 [107] = true ∧ d'.contains 3000000 [107] = false :=
  ⟨_, _, rfl, rfl, by decide, by decide⟩

/-- In a quiet run a slot changes only by the sweep of an entry with a deadline. -/
theorem slot_run_quiet (hc : c.WellFormed) (hA : Along step (fun c op => op.Quiet k c) c ops)
    (hr : run step c ops = some d) :
    d.slot k = c.slot k ∨
      d.slot k = none ∧ ∃ e, c.slot k = some e ∧ e.expiresAt ≠ none := by
  -- Induction on the operations: each leaves the slot as it is, or sweeps it.
  induction ops generalizing c with
  | nil =>
    obtain rfl : c = d := by simpa using hr
    exact Or.inl rfl
  | cons op ops ih =>
    obtain ⟨c', hs, hr⟩ := run_cons_eq_some.mp hr
    have hrest := ih (hc.step hs) (hA.2 c' hs) hr
    rcases slot_step hc hs hA.1.1 hA.1.2 with hslot | ⟨now, rfl, hslot⟩
    · rw [hslot] at hrest
      exact hrest
    · -- a sweep takes the entry only after its deadline
      cases he : c.slot k with
      | none =>
        rw [hslot, he] at hrest
        simpa using hrest
      | some e =>
        rw [hslot, he, Option.filter_some] at hrest
        cases hexp : e.isExpired now with
        | false => simpa [hexp] using hrest
        | true =>
          -- swept, and nothing comes back
          have hdeadline : e.expiresAt ≠ none := by
            intro hnone
            simp [CacheEntry.isExpired, hnone] at hexp
          simp only [hexp, Bool.not_true, Bool.false_eq_true, if_false, reduceCtorEq, false_and,
            exists_false, and_false, or_false] at hrest
          exact Or.inr ⟨hrest, e, rfl, hdeadline⟩

/-- The entry that a write leaves is hidden once its time to live has passed. -/
theorem not_isLive_toEntry {tombstoneTtl : Millis} {ttl : Millis} (httl : v.ttl = some ttl)
    (hnow : t + ttl.ticks ≤ now) : (v.toEntry tombstoneTtl t).isLive now = false := by
  cases htomb : v.tombstone with
  | true => simp [CacheEntry.isLive, VersionedValue.toEntry, htomb]
  | false =>
    simp [CacheEntry.isLive, VersionedValue.toEntry, htomb, VersionedValue.deadline, httl,
      CacheEntry.isExpired, hnow]

/-- A slot whose entry is hidden stays hidden in a quiet run. -/
theorem hidden_run_quiet (hc : c.WellFormed) (hA : Along step (fun c op => op.Quiet k c) c ops)
    (hr : run step c ops = some d) (hhidden : ∀ e, c.slot k = some e → e.isLive now = false) :
    d.contains now k = false := by
  rw [contains_eq]
  rcases slot_run_quiet hc hA hr with hslot | ⟨hslot, -⟩
  · cases he : c.slot k with
    | none => simp [hslot, he]
    | some e => simp [hslot, he, hhidden e he]
  · simp [hslot]

/-- A key that is absent is absent after a quiet run. -/
theorem absent_run_quiet (hc : c.WellFormed) (hA : Along step (fun c op => op.Quiet k c) c ops)
    (hr : run step c ops = some d) (habsent : c.slot k = none) : d.slot k = none := by
  rcases slot_run_quiet hc hA hr with hslot | ⟨hslot, -⟩
  · rw [hslot, habsent]
  · exact hslot

section Older

variable {c₁ c₂ : Cache} {w₁ w₂ : VersionedValue} {t₁ t₂ : Time} {ttl : Millis}
  {before between after : List CacheOp}

/-- A write above the stored version is stored. -/
theorem slot_apply_newer (hc : c.WellFormed) (h : ∀ e, c.slot k = some e → e.version < v.version) :
    (c.apply t k v).1.slot k = some (v.toEntry c.tombstoneTtl t) := by
  rw [slot_apply hc]
  cases he : c.slot k with
  | none => rfl
  | some e =>
    simp [applySlot, supersedes_of_version_lt (h e he)]

/-- The older write arrives first: the newer one takes its place, and nothing is visible once that
has expired. -/
theorem hidden_of_older_first (hc : c.WellFormed) (habsent : c.slot k = none)
    (hversion : w₁.version < w₂.version) (hw₂ : w₂.ttl = some ttl)
    (hr₁ : run step (c.apply t₁ k w₁).1 between = some c₂)
    (hA₁ : Along step (fun c op => op.Quiet k c) (c.apply t₁ k w₁).1 between)
    (hr₂ : run step (c₂.apply t₂ k w₂).1 after = some d)
    (hA₂ : Along step (fun c op => op.Quiet k c) (c₂.apply t₂ k w₂).1 after)
    (hnow : t₂ + ttl.ticks ≤ now) : d.contains now k = false := by
  have hc₂ : c₂.WellFormed := wellFormed_run (hc.apply t₁ k w₁) hr₁
  have hfirst : (c.apply t₁ k w₁).1.slot k = some (w₁.toEntry c.tombstoneTtl t₁) :=
    slot_apply_newer hc (by simp [habsent])
  -- the newer write finds the older one or nothing, and is stored
  have hsecond : (c₂.apply t₂ k w₂).1.slot k = some (w₂.toEntry c₂.tombstoneTtl t₂) := by
    refine slot_apply_newer hc₂ ?_
    intro e he
    rcases slot_run_quiet (hc.apply t₁ k w₁) hA₁ hr₁ with hslot | ⟨hslot, -⟩
    · rw [he, hfirst] at hslot
      rw [Option.some.inj hslot]
      exact hversion
    · simp [he] at hslot
  refine hidden_run_quiet (hc₂.apply t₂ k w₂) hA₂ hr₂ ?_
  intro e he
  rw [hsecond] at he
  rw [← Option.some.inj he]
  exact not_isLive_toEntry hw₂ hnow

/-- The newer write arrives first: nothing is visible after it has expired, if the older one is a
delete or finds it unexpired. -/
theorem hidden_iff_of_newer_first (hc : c.WellFormed) (habsent : c.slot k = none)
    (hversion : w₁.version < w₂.version) (hw₁ : w₁.ttl = none) (hw₂ : w₂.ttl = some ttl)
    (hr₁ : run step (c.apply t₂ k w₂).1 between = some c₂)
    (hA₁ : Along step (fun c op => op.Quiet k c) (c.apply t₂ k w₂).1 between)
    (hr₂ : run step (c₂.apply t₁ k w₁).1 after = some d)
    (hA₂ : Along step (fun c op => op.Quiet k c) (c₂.apply t₁ k w₁).1 after)
    (hnow : t₂ + ttl.ticks ≤ now) :
    d.contains now k = false ↔
      w₁.tombstone = true ∨ ∃ e, c₂.slot k = some e ∧ e.isExpired t₁ = false := by
  have hc₂ : c₂.WellFormed := wellFormed_run (hc.apply t₂ k w₂) hr₁
  have hfirst : (c.apply t₂ k w₂).1.slot k = some (w₂.toEntry c.tombstoneTtl t₂) :=
    slot_apply_newer hc (by simp [habsent])
  have hstored (e : CacheEntry) (he : c₂.slot k = some e) : e = w₂.toEntry c.tombstoneTtl t₂ := by
    rcases slot_run_quiet (hc.apply t₂ k w₂) hA₁ hr₁ with hslot | ⟨hslot, -⟩
    · rw [he, hfirst] at hslot
      exact Option.some.inj hslot
    · simp [he] at hslot
  by_cases hkept : ∃ e, c₂.slot k = some e ∧ e.isExpired t₁ = false
  · -- the older write is turned away
    obtain ⟨e, he, hexp⟩ := hkept
    have hlt : w₁.version < e.version := by
      rw [hstored e he]
      exact hversion
    refine iff_of_true ?_ (Or.inr ⟨e, he, hexp⟩)
    refine hidden_run_quiet (hc₂.apply t₁ k w₁) hA₂ hr₂ ?_
    intro e' he'
    rw [slot_apply hc₂, he, applySlot, hexp, not_supersedes_of_version_lt hlt] at he'
    rw [← Option.some.inj he', hstored e he]
    exact not_isLive_toEntry hw₂ hnow
  · -- the older write is stored, without a deadline unless it is a delete
    have hsecond : (c₂.apply t₁ k w₁).1.slot k = some (w₁.toEntry c₂.tombstoneTtl t₁) := by
      rw [slot_apply hc₂]
      cases he : c₂.slot k with
      | none => rfl
      | some e =>
        have hexp : e.isExpired t₁ = true := by
          by_contra hexp
          exact hkept ⟨e, he, by simpa using hexp⟩
        simp [applySlot, hexp]
    cases htomb : w₁.tombstone with
    | true =>
      -- a tombstone is not live
      refine iff_of_true (hidden_run_quiet (hc₂.apply t₁ k w₁) hA₂ hr₂ ?_) (Or.inl rfl)
      intro e he
      rw [hsecond] at he
      rw [← Option.some.inj he]
      simp [CacheEntry.isLive, VersionedValue.toEntry, htomb]
    | false =>
      -- a value without a deadline stays, and is visible
      have hforever : (w₁.toEntry c₂.tombstoneTtl t₁).expiresAt = none := by
        simp [VersionedValue.toEntry, VersionedValue.deadline, htomb, hw₁]
      have hvisible : d.contains now k = true := by
        rcases slot_run_quiet (hc₂.apply t₁ k w₁) hA₂ hr₂ with hslot | ⟨-, e, he, hdeadline⟩
        · rw [contains_eq, hslot, hsecond, Option.any_some]
          simp [CacheEntry.isLive, CacheEntry.isExpired, VersionedValue.toEntry,
            VersionedValue.deadline, htomb, hw₁]
        · rw [hsecond] at he
          exact absurd (Option.some.inj he ▸ hforever) hdeadline
      simp [hvisible, hkept]

/-- **When an expired newer write keeps an older one hidden.** Two writes of a key reach a shard in
either order, the newer with a time to live and the older without, among operations that neither
write nor evict the key. Once both are there and the time to live has passed, the key is hidden
exactly when the older write is a delete, or came first, or found the newer one stored and not
expired. -/
theorem older_write_hidden_iff {first second : Time × VersionedValue} (hc : c.WellFormed)
    (habsent : c.slot k = none) (hversion : w₁.version < w₂.version) (hw₁ : w₁.ttl = none)
    (hw₂ : w₂.ttl = some ttl)
    (horder : first = (t₁, w₁) ∧ second = (t₂, w₂) ∨ first = (t₂, w₂) ∧ second = (t₁, w₁))
    (hr₀ : run step c before = some c₁)
    (hA₀ : Along step (fun c op => op.Quiet k c) c before)
    (hr₁ : run step (c₁.apply first.1 k first.2).1 between = some c₂)
    (hA₁ : Along step (fun c op => op.Quiet k c) (c₁.apply first.1 k first.2).1 between)
    (hr₂ : run step (c₂.apply second.1 k second.2).1 after = some d)
    (hA₂ : Along step (fun c op => op.Quiet k c) (c₂.apply second.1 k second.2).1 after)
    (hnow : t₂ + ttl.ticks ≤ now) :
    d.contains now k = false ↔
      w₁.tombstone = true ∨ first = (t₁, w₁) ∨
        ∃ e, c₂.slot k = some e ∧ e.isExpired t₁ = false := by
  have hc₁ : c₁.WellFormed := wellFormed_run hc hr₀
  have habsent₁ : c₁.slot k = none := absent_run_quiet hc hA₀ hr₀ habsent
  rcases horder with ⟨rfl, rfl⟩ | ⟨rfl, rfl⟩
  · -- the older write comes first
    exact iff_of_true (hidden_of_older_first hc₁ habsent₁ hversion hw₂ hr₁ hA₁ hr₂ hA₂ hnow)
      (Or.inr (Or.inl rfl))
  · -- the newer write comes first
    rw [hidden_iff_of_newer_first hc₁ habsent₁ hversion hw₁ hw₂ hr₁ hA₁ hr₂ hA₂ hnow]
    have hne : (t₂, w₂) ≠ (t₁, w₁) := fun heq => by
      rw [(Prod.mk.inj heq).2] at hversion
      exact lt_irrefl _ hversion
    simp only [hne, false_or]

/-- The older write finds the newer one half a millisecond before it expires. -/
theorem older_write_hidden_iff_inTime :
    ∃ c₂ d, run step (({ capacity := 8, tombstoneTtl := 60000 } : Cache).apply 0 [107]
        ⟨[2], 2, false, some 1⟩).1 [.get 1 [107]] = some c₂ ∧
      run step (c₂.apply 500000 [107] ⟨[1], 1, false, none⟩).1 [.purgeExpired 2000000] = some d ∧
      d.contains 3000000 [107] = false := by
  have hrun : ∃ c₂ d, run step (({ capacity := 8, tombstoneTtl := 60000 } : Cache).apply 0 [107]
        ⟨[2], 2, false, some 1⟩).1 [.get 1 [107]] = some c₂ ∧
      run step (c₂.apply 500000 [107] ⟨[1], 1, false, none⟩).1 [.purgeExpired 2000000] = some d ∧
      c₂.slot [107] = some ⟨[2], some 1000000, 2, false⟩ ∧
      Along step (fun c op => op.Quiet [107] c) (c₂.apply 500000 [107] ⟨[1], 1, false, none⟩).1
        [.purgeExpired 2000000] :=
    ⟨_, _, rfl, rfl, by decide, by decide⟩
  obtain ⟨c₂, d, hr₁, hr₂, hslot, hA₂⟩ := hrun
  have hiff : d.contains 3000000 [107] = false ↔
      (⟨[1], 1, false, none⟩ : VersionedValue).tombstone = true ∨
        ((0, ⟨[2], 2, false, some 1⟩) : Time × VersionedValue) = (500000, ⟨[1], 1, false, none⟩) ∨
          ∃ e, c₂.slot [107] = some e ∧ e.isExpired 500000 = false :=
    older_write_hidden_iff (wellFormed_empty 8 60000) (by decide) (by decide) rfl rfl
      (Or.inr ⟨rfl, rfl⟩) (run_nil _) trivial hr₁ (by decide) hr₂ hA₂ (by decide)
  exact ⟨c₂, d, hr₁, hr₂, hiff.mpr (Or.inr (Or.inr ⟨_, hslot, by decide⟩))⟩

end Older

end Cache

end ShardCache
