import ShardCache.Foundations.Run
import ShardCache.Store.Operations

/-!
# Replicas converge under last-writer-wins

Two shards that receive the same writes of a key end with the same entry, whatever the order in
which the writes arrive and however often: while nothing expires, each write raises the tag of the
slot to the maximum of its own and the stored one.

## Main definitions

* `Cache.deliveries`: the writes of a key that a run delivers
* `Calm`: an operation that neither evicts the key, nor overwrites it without a version, nor finds
  its entry expired

## Main results

* `slotTag_run`: after a calm run the slot holds the maximum of the tags delivered
* `replicas_converge`: the same writes in any two orders leave the same entry
-/

namespace ShardCache

open Foundations

/-- What orders a stored entry: its version, its tombstone flag and its value. -/
def CacheEntry.content (e : CacheEntry) : UInt64 × Bool × Bytes := (e.version, e.tombstone, e.value)

/-- What orders a write. -/
def VersionedValue.content (v : VersionedValue) : UInt64 × Bool × Bytes :=
  (v.version, v.tombstone, v.value)

theorem tag_eq_iff_content_eq {v : VersionedValue} {e : CacheEntry} :
    v.tag = e.tag ↔ v.content = e.content := by
  simp [VersionedValue.tag, CacheEntry.tag, tagOf, VersionedValue.content, CacheEntry.content]

namespace Cache

variable {c c' d d' : Cache} {k : Key} {op : CacheOp} {ops ops' : List CacheOp}

/-- The write of `k` that an operation delivers. -/
def delivered (k : Key) : CacheOp → Option VersionedValue
  | .apply _ key v => if key = k then some v else none
  | _ => none

/-- The writes of `k` that a run delivers. -/
def deliveries (k : Key) (ops : List CacheOp) : List VersionedValue := ops.filterMap (delivered k)

/-- The operation does not evict `k`, does not `set` it, and its entry has not expired. -/
def Calm (k : Key) (c : Cache) (op : CacheOp) : Prop :=
  op.Spares k c ∧ (op.writes = some k → (delivered k op).isSome) ∧ Unexpired op.now (c.slot k)

instance (k : Key) (c : Cache) (op : CacheOp) : Decidable (Calm k c op) :=
  inferInstanceAs (Decidable (_ ∧ _ ∧ _))

/-- One step raises the slot to the tag that it delivers, if any. -/
theorem slotTag_step (hc : c.WellFormed) (hcalm : Calm k c op) (hs : c.step op = some c') :
    slotTag (c'.slot k) = max (slotTag (c.slot k)) (readTag (delivered k op)) := by
  obtain ⟨hspares, hset, hlive⟩ := hcalm
  by_cases hw : op.writes = some k
  · -- the operation is a delivery, since it is no `set`
    obtain ⟨v, hv⟩ := Option.isSome_iff_exists.mp (hset hw)
    cases op with
    | apply now key w =>
      obtain rfl : key = k := Option.some.inj hw
      obtain rfl : w = v := by simpa [delivered] using hv
      obtain rfl := Option.some.inj hs
      rw [slot_apply hc, hv, readTag_some]
      exact slotTag_applySlot c.tombstoneTtl w hlive
    | set now key value ttl => simp [delivered] at hv
    | get now key => simp [delivered] at hv
    | purgeExpired now => simp [delivered] at hv
  · -- the operation delivers nothing to this key
    have hnone : delivered k op = none := by
      cases op with
      | apply now key w => exact if_neg fun hkey => hw (by rw [hkey]; rfl)
      | set now key value ttl => rfl
      | get now key => rfl
      | purgeExpired now => rfl
    rw [hnone, readTag_none, max_eq_left bot_le]
    rcases slot_step hc hs hw hspares with hslot | ⟨now, rfl, hslot⟩
    · rw [hslot]
    · -- the sweep leaves an entry that has not expired
      rw [hslot]
      cases he : c.slot k with
      | none => rfl
      | some e =>
        have hexp : e.isExpired now = false := hlive e he
        rw [Option.filter_some, hexp]
        rfl

/-- **After a calm run the slot holds the maximum** of what it held and the tags delivered. -/
theorem slotTag_run (hc : c.WellFormed) (hA : Along step (Calm k) c ops)
    (hr : run step c ops = some d) :
    slotTag (d.slot k) =
      max (slotTag (c.slot k)) ((deliveries k ops).map VersionedValue.tag).maximum := by
  -- Induction on the operations: the maximum of the rest, above what the first one leaves.
  induction ops generalizing c with
  | nil =>
    obtain rfl : c = d := by simpa using hr
    exact (max_eq_left bot_le).symm
  | cons op ops ih =>
    obtain ⟨c', hs, hr⟩ := run_cons_eq_some.mp hr
    rw [ih (hc.step hs) (hA.2 c' hs) hr, slotTag_step hc hA.1 hs, max_assoc]
    congr 1
    cases hv : delivered k op with
    | none =>
      have hrest : deliveries k (op :: ops) = deliveries k ops := List.filterMap_cons_none hv
      rw [hrest]
      exact max_eq_right bot_le
    | some v =>
      have hrest : deliveries k (op :: ops) = v :: deliveries k ops := List.filterMap_cons_some hv
      rw [hrest, List.map_cons, List.maximum_cons, readTag_some]

/-- A run of the cache keeps its representation. -/
theorem wellFormed_run (hc : c.WellFormed) (hr : run step c ops = some d) : d.WellFormed :=
  run_invariant (fun _ _ _ h _ hs => h.step hs) hc (along_true c ops) hr

/-- Slots of one tag have one content. -/
theorem map_content_eq {slot slot' : Option CacheEntry} (h : slotTag slot = slotTag slot') :
    slot.map CacheEntry.content = slot'.map CacheEntry.content := by
  cases slot with
  | none =>
    cases slot' with
    | none => rfl
    | some e' => exact absurd h (WithBot.bot_ne_coe (a := e'.tag))
  | some e =>
    cases slot' with
    | none => exact absurd h (WithBot.coe_ne_bot (a := e.tag))
    | some e' =>
      have htag : e.tag = e'.tag := WithBot.coe_inj.mp h
      simpa [CacheEntry.tag, tagOf, CacheEntry.content] using htag

/-- Writes that are the same as a set have the same maximum. -/
theorem maximum_tag_le {writes writes' : List VersionedValue}
    (h : ∀ v ∈ writes, v ∈ writes') :
    (writes.map VersionedValue.tag).maximum ≤ (writes'.map VersionedValue.tag).maximum := by
  refine List.maximum_le_of_forall_le ?_
  intro t ht
  obtain ⟨v, hv, rfl⟩ := List.mem_map.mp ht
  exact List.le_maximum_of_mem' (List.mem_map_of_mem (h v hv))

/-- A write that finds nothing expired returns true exactly when it changes the slot. -/
theorem apply_eq_true_iff (hc : c.WellFormed) {now : Time} {v : VersionedValue}
    (hlive : Unexpired now (c.slot k)) :
    (c.apply now k v).2 = true ↔ (c.apply now k v).1.slot k ≠ c.slot k := by
  rw [slot_apply hc]
  cases hf : c.find k with
  | none =>
    rw [slot_of_find_none hf]
    simp [apply, hf, applySlot]
  | some n =>
    have hexp := hlive n.entry (slot_of_find hf)
    rw [slot_of_find hf]
    by_cases hsup : supersedes v.version v.tombstone v.value n.entry = true
    · -- the new entry has a larger tag
      have hne : v.toEntry c.tombstoneTtl now ≠ n.entry := fun heq =>
        (supersedes_iff.mp hsup).ne (congrArg CacheEntry.tag heq).symm
      simp [apply, hf, applySlot, hsup, hne]
    · simp [apply, hf, applySlot, hsup, hexp]

/-- **Replicas converge.** Two shards that do not hold the key receive the same writes of it in any
two orders and any number of times, among other operations, while it is not evicted and nothing
expires. They end with the same version, tombstone flag and value, which no write supersedes, and
each write returns true exactly when it changes the entry. -/
theorem replicas_converge (hc : c.WellFormed) (hc' : c'.WellFormed) (habsent : c.slot k = none)
    (habsent' : c'.slot k = none) (hr : run step c ops = some d) (hr' : run step c' ops' = some d')
    (hA : Along step (Calm k) c ops) (hA' : Along step (Calm k) c' ops')
    (hsame : ∀ v, v ∈ deliveries k ops ↔ v ∈ deliveries k ops') :
    (d.slot k).map CacheEntry.content = (d'.slot k).map CacheEntry.content ∧
      (deliveries k ops ≠ [] → ∃ e, d.slot k = some e ∧
        (∃ v ∈ deliveries k ops, v.content = e.content) ∧
        ∀ v ∈ deliveries k ops, supersedes v.version v.tombstone v.value e = false) ∧
      ∀ before after now v m, ops = before ++ .apply now k v :: after →
        run step c before = some m →
        ((m.apply now k v).2 = true ↔ (m.apply now k v).1.slot k ≠ m.slot k) := by
  have htag : slotTag (d.slot k) = ((deliveries k ops).map VersionedValue.tag).maximum := by
    rw [slotTag_run hc hA hr, habsent, slotTag_none, max_eq_right bot_le]
  have htag' : slotTag (d'.slot k) = ((deliveries k ops').map VersionedValue.tag).maximum := by
    rw [slotTag_run hc' hA' hr', habsent', slotTag_none, max_eq_right bot_le]
  refine ⟨?_, ?_, ?_⟩
  · -- the same writes have the same maximum, in any order and any number
    refine map_content_eq ?_
    rw [htag, htag']
    exact le_antisymm (maximum_tag_le fun v hv => (hsame v).mp hv)
      (maximum_tag_le fun v hv => (hsame v).mpr hv)
  · -- the maximum of some writes is one of them, and no other is above it
    intro hne
    obtain ⟨e, he⟩ : ∃ e, d.slot k = some e := by
      by_contra hnone
      have hbot : ((deliveries k ops).map VersionedValue.tag).maximum = ⊥ := by
        rw [← htag, Option.eq_none_iff_forall_ne_some.mpr fun e he => hnone ⟨e, he⟩, slotTag_none]
      exact hne (List.map_eq_nil_iff.mp (List.maximum_eq_bot.mp hbot))
    rw [he, slotTag_some] at htag
    obtain ⟨hmem, hmax⟩ := List.maximum_eq_coe_iff.mp htag.symm
    refine ⟨e, he, ?_, ?_⟩
    · obtain ⟨v, hv, heq⟩ := List.mem_map.mp hmem
      exact ⟨v, hv, tag_eq_iff_content_eq.mp heq⟩
    · intro v hv
      rw [← Bool.not_eq_true, supersedes_iff]
      exact not_lt.mpr (hmax v.tag (List.mem_map_of_mem hv))
  · -- every write finds the entry unexpired
    rintro before after now v m rfl hm
    obtain ⟨-, hcalm, -⟩ := along_append hA hm
    exact apply_eq_true_iff (wellFormed_run hc hm) hcalm.2.2

/-- A write and a delete of one version, and the write once more. -/
def writeThenDelete : List CacheOp :=
  [.apply 1 [107] ⟨[1], 5, false, none⟩, .apply 2 [107] ⟨[], 5, true, none⟩,
    .apply 3 [107] ⟨[1], 5, false, none⟩]

/-- The same writes in the other order. -/
def deleteThenWrite : List CacheOp :=
  [.apply 1 [107] ⟨[], 5, true, none⟩, .apply 2 [107] ⟨[1], 5, false, none⟩]

theorem replicas_converge_writeThenDelete :
    ∃ d d', run step { capacity := 8, tombstoneTtl := 60000 } writeThenDelete = some d ∧
      run step { capacity := 8, tombstoneTtl := 60000 } deleteThenWrite = some d' ∧
      (d.slot [107]).map CacheEntry.content = (d'.slot [107]).map CacheEntry.content := by
  have hr : ∃ d, run step { capacity := 8, tombstoneTtl := 60000 } writeThenDelete = some d :=
    ⟨_, rfl⟩
  have hr' : ∃ d', run step { capacity := 8, tombstoneTtl := 60000 } deleteThenWrite = some d' :=
    ⟨_, rfl⟩
  obtain ⟨d, hr⟩ := hr
  obtain ⟨d', hr'⟩ := hr'
  refine ⟨d, d', hr, hr', (replicas_converge (wellFormed_empty 8 60000) (wellFormed_empty 8 60000)
    (by decide) (by decide) hr hr' (by decide) (by decide) ?_).1⟩
  intro v
  simp only [deliveries, delivered, writeThenDelete, deleteThenWrite, List.filterMap_cons,
    List.filterMap_nil, if_true, List.mem_cons, List.not_mem_nil, or_false]
  tauto

end Cache

end ShardCache
