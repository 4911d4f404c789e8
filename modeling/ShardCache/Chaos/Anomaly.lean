import ShardCache.Chaos.Model

/-!
# The anomalies of the chaos harness

Besides asking whether a history is linearizable, the harness looks for two reasons why it is not. A
stale read returns a value that was overwritten before the read began: its write had finished, then
another write to the key was made. An inversion is a pair of reads, one after the other, of which the
second returns the older value.

Stale reads are found through an index of the completed writes to each key: they are sorted by call,
and kept with the minimum of the return times from each write on. Times may be equal, and sorting need
not keep the order of equal ones.

## Main definitions

* `staleReads`, `inversions`: how many there are, with up to three examples
* `Stale`: what a stale read is

## Main results

* `staleReads_eq_countP`: the index finds exactly the stale reads
* `anomalies_violate`: a history with an anomaly is not linearizable
-/

namespace ShardCache.Chaos

open Foundations

/-! ## Stale reads -/

/-- `int64(^uint64(0) >> 1)`, the return time of a write whose outcome is unknown. -/
def maxInt64 : Int64 := Int64.maxValue

/-- A write to a key, as it is indexed. -/
structure Write where
  call : Int64 := 0
  ret : Int64 := 0
  desc : Bytes := []
deriving DecidableEq, Repr

/-- The index of a key: its writes by call, and the minimum of the return times from each on. -/
structure Index where
  writes : List Write := []
  minRet : List Int64 := []
deriving DecidableEq, Repr

/-- What is printed about a stale read. -/
structure StaleExample where
  clientId : ℤ
  key : Key
  value : Bytes
  call : Int64
  overwrite : Write
  written : Int64
deriving DecidableEq, Repr

/-- A write whose outcome is known. -/
def Operation.completed (op : Operation) : Bool := op.input.op ≠ .get && op.ret ≠ maxInt64

/-- The write that is indexed for an operation. -/
def Operation.toWrite (op : Operation) : Write :=
  ⟨op.call, op.ret, KvModel.describeOperation op.input op.output⟩

/-- `writesByKey`. -/
def writesByKey (history : List Operation) : Std.ExtTreeMap Key (List Write) :=
  groupInto (fun op : Operation => op.input.key) Operation.toWrite
    (history.filter Operation.completed)

/-- `writerOf` in `staleReads`: the completed put of a value. -/
def completedWriterOf (history : List Operation) : Std.ExtTreeMap Bytes Operation :=
  keyed (fun op : Operation => op.input.value)
    (history.filter fun op => op.completed && op.input.op = .put)

variable (sortWrites : Sorter fun a b : Write => decide (a.call < b.call))

/-- `idx`. -/
def index (history : List Operation) : Std.ExtTreeMap Key Index :=
  (writesByKey history).map fun _ ws =>
    let ws := sortWrites.sort ws
    ⟨ws, suffixMinima maxInt64 (ws.map Write.ret)⟩

/-- The body of the last loop of `staleReads`. -/
def staleRead (writerOf : Std.ExtTreeMap Bytes Operation) (idx : Std.ExtTreeMap Key Index)
    (op : Operation) : Option StaleExample :=
  if op.input.op ≠ .get ∨ op.output.found = false then none
  else
    match writerOf[op.output.value]? with
    | none => none
    | some w₁ =>
      let ix := idx.getD op.input.key {}
      -- the first write that starts strictly after `w₁` returned
      let i := search ix.writes.length fun i => (ix.writes[i]?).any fun w => w₁.ret < w.call
      if i < ix.writes.length ∧ (ix.minRet[i]?).any (· < op.call) then
        let w₂ := ((ix.writes.drop i).find? fun w => w.ret < op.call).getD {}
        some ⟨op.clientId, op.input.key, op.output.value, op.call, w₂, w₁.ret⟩
      else none

/-- `staleReads`: the count, and the first three of them. -/
def staleReads (history : List Operation) : ℕ × List StaleExample :=
  let found := history.filterMap (staleRead (completedWriterOf history) (index sortWrites history))
  (found.length, found.take 3)

/-! ## Inversions -/

/-- A read with the put whose value it returned. -/
structure Read where
  op : Operation
  writer : Operation
deriving DecidableEq, Repr

/-- `writerOf` in `inversions`: the put of a value, whether or not its outcome is known. -/
def writerOf (history : List Operation) : Std.ExtTreeMap Bytes Operation :=
  keyed (fun op : Operation => op.input.value) (history.filter fun op => op.input.op = .put)

/-- The reads that found a value, with its put. -/
def observed (history : List Operation) : List Read :=
  history.filterMap fun op =>
    if op.input.op ≠ .get ∨ op.output.found = false then none
    else ((writerOf history)[op.output.value]?).map fun w => ⟨op, w⟩

/-- `readsByKey`. -/
def readsByKey (history : List Operation) : Std.ExtTreeMap Key (List Read) :=
  groupInto (fun r : Read => r.op.input.key) id (observed history)

/-- The second read began after the first had returned, and shows a value whose put had returned
before that of the first began. -/
def Read.inverted (r₁ r₂ : Read) : Bool :=
  !(r₂.op.call ≤ r₁.op.ret || r₂.writer.ret ≥ r₁.writer.call)

/-- The inner loops of `inversions`: the pairs that it counts. -/
def inversionsIn : List Read → List (Read × Read)
  | [] => []
  | r₁ :: reads => ((reads.filter r₁.inverted).map fun r₂ => (r₁, r₂)) ++ inversionsIn reads

variable (sortReads : Sorter fun a b : Read => decide (a.op.call < b.op.call))
  (range : Sorter fun _ _ : Key × List Read => false)

/-- `inversions`: the count, and the first three pairs with their key. The keys are visited in any
order. -/
def inversions (history : List Operation) : ℕ × List (Key × Read × Read) :=
  let found := (range.sort (readsByKey history).toList).flatMap fun (key, reads) =>
    (inversionsIn (sortReads.sort reads)).map fun pair => (key, pair)
  (found.length, found.take 3)

/-! ## The index -/

/-- A read of a value that was overwritten before the read began: the completed put `w₁` of the value
had returned, and then another completed write `w₂` to the key of the read was made. -/
def Stale (history : List Operation) (r : Operation) : Prop :=
  r.input.op = .get ∧ r.output.found = true ∧
    ∃ w₁ ∈ history, w₁.completed = true ∧ w₁.input.op = .put ∧
      w₁.input.value = r.output.value ∧
      ∃ w₂ ∈ history, w₂.completed = true ∧ w₂.input.key = r.input.key ∧
        w₁.ret < w₂.call ∧ w₂.ret < r.call

instance (history : List Operation) (r : Operation) : Decidable (Stale history r) :=
  inferInstanceAs (Decidable (_ ∧ _ ∧ ∃ w₁ ∈ history, _))

variable {history part order : List Operation} {r w x : Operation}

/-- The put that is found for a value. -/
theorem mem_of_completedWriterOf {v : Bytes} (h : (completedWriterOf history)[v]? = some w) :
    w ∈ history ∧ w.completed = true ∧ w.input.op = .put ∧ w.input.value = v := by
  obtain ⟨hmem, hvalue⟩ := mem_of_keyed h
  simp only [List.mem_filter, Bool.and_eq_true, decide_eq_true_eq] at hmem
  exact ⟨hmem.1, hmem.2.1, hmem.2.2, hvalue⟩

/-- The put of a value is found, if no other put writes the value. -/
theorem completedWriterOf_eq (hdistinct : DistinctPuts history) (hw : w ∈ history)
    (hcompleted : w.completed = true) (hput : w.input.op = .put) :
    (completedWriterOf history)[w.input.value]? = some w := by
  obtain ⟨w', hw'⟩ : ∃ w', (completedWriterOf history)[w.input.value]? = some w' :=
    exists_keyed (List.mem_filter.mpr ⟨hw, by simp [hcompleted, hput]⟩)
  obtain ⟨hmem, -, hput', hvalue⟩ := mem_of_completedWriterOf hw'
  rw [hw', hdistinct.eq hmem hw hput' hput hvalue]

/-- **The index of a key**: its completed writes in the order of their calls, with the minima. -/
theorem index_spec (history : List Operation) (key : Key) :
    let ix := (index sortWrites history).getD key {}
    ix.writes.Pairwise (fun a b => a.call ≤ b.call) ∧
      (∀ w, w ∈ ix.writes ↔
        ∃ op ∈ history, op.completed = true ∧ op.input.key = key ∧ op.toWrite = w) ∧
      (ix.writes = [] ∨ ix.minRet = suffixMinima maxInt64 (ix.writes.map Write.ret)) := by
  have hgroup : (writesByKey history).getD key [] = _ := getD_groupInto _ _ _ key
  rw [Std.ExtTreeMap.getD_eq_getD_getElem?] at hgroup
  simp only [index, Std.ExtTreeMap.getD_eq_getD_getElem?, Std.ExtTreeMap.getElem?_map]
  have hmem : ∀ w, w ∈ ((writesByKey history)[key]?).getD [] ↔
      ∃ op ∈ history, op.completed = true ∧ op.input.key = key ∧ op.toWrite = w := by
    intro w
    rw [hgroup]
    simp only [List.mem_map, List.mem_filter, decide_eq_true_eq, and_assoc]
  cases hws : (writesByKey history)[key]? with
  | none =>
    rw [hws] at hmem
    exact ⟨List.Pairwise.nil, hmem, Or.inl rfl⟩
  | some ws =>
    rw [hws] at hmem
    refine ⟨?_, ?_, Or.inr rfl⟩
    · refine (sortWrites.sorted ws).imp ?_
      intro a b hab
      simpa using hab
    · intro w
      exact (sortWrites.perm ws).mem_iff.trans (hmem w)

/-- The search in the index of a key. -/
theorem search_index_iff (history : List Operation) (key : Key) (bound t : Int64) :
    let ix := (index sortWrites history).getD key {}
    let i := search ix.writes.length fun i => (ix.writes[i]?).any fun w => bound < w.call
    i < ix.writes.length ∧ (ix.minRet[i]?).any (· < t) = true ↔
      ∃ w₂ ∈ history, w₂.completed = true ∧ w₂.input.key = key ∧ bound < w₂.call ∧ w₂.ret < t := by
  obtain ⟨hsorted, hmem, hmin⟩ := index_spec sortWrites history key
  have hexists : (∃ w ∈ ((index sortWrites history).getD key {}).writes,
      bound < w.call ∧ w.ret < t) ↔ ∃ w₂ ∈ history, w₂.completed = true ∧ w₂.input.key = key ∧
        bound < w₂.call ∧ w₂.ret < t := by
    constructor
    · rintro ⟨w, hw, hcall, hret⟩
      obtain ⟨op, hop, hcompleted, hkey, rfl⟩ := (hmem w).mp hw
      exact ⟨op, hop, hcompleted, hkey, hcall, hret⟩
    · rintro ⟨op, hop, hcompleted, hkey, hcall, hret⟩
      exact ⟨op.toWrite, (hmem _).mpr ⟨op, hop, hcompleted, hkey, rfl⟩, hcall, hret⟩
  simp only
  rw [← hexists]
  -- a key that was never written has neither writes nor minima
  rcases hmin with hnone | hmin
  · simp [hnone]
  · rw [hmin]
    exact suffixMinima_search_lt_iff hsorted (Int64.le_maxValue t)

theorem isSome_staleRead_iff (hdistinct : DistinctPuts history) (r : Operation) :
    (staleRead (completedWriterOf history) (index sortWrites history) r).isSome = true ↔
      Stale history r := by
  unfold staleRead Stale
  by_cases hread : r.input.op ≠ .get ∨ r.output.found = false
  · rw [if_pos hread]
    simp only [Option.isSome_none, Bool.false_eq_true, false_iff]
    rintro ⟨hget, hfound, -⟩
    rcases hread with hne | hnot
    · exact hne hget
    · rw [hfound] at hnot
      exact absurd hnot (by decide)
  · rw [if_neg hread]
    simp only [not_or, not_not, Bool.not_eq_false] at hread
    cases hw : (completedWriterOf history)[r.output.value]? with
    | none =>
      -- every completed put is found under its value
      simp only [Option.isSome_none, Bool.false_eq_true, false_iff]
      rintro ⟨-, -, w₁, hmem, hcompleted, hput, hvalue, -⟩
      have := completedWriterOf_eq hdistinct hmem hcompleted hput
      rw [hvalue, hw] at this
      cases this
    | some w₁ =>
      obtain ⟨hmem, hcompleted, hput, hvalue⟩ := mem_of_completedWriterOf hw
      have hsearch := search_index_iff sortWrites history r.input.key w₁.ret r.call
      simp only at hsearch ⊢
      split
      · rename_i hfound
        simp only [Option.isSome_some, true_iff]
        exact ⟨hread.1, hread.2, w₁, hmem, hcompleted, hput, hvalue, hsearch.mp hfound⟩
      · rename_i hnot
        simp only [Option.isSome_none, Bool.false_eq_true, false_iff]
        rintro ⟨-, -, w, hw', hcompleted', hput', hvalue', hover⟩
        -- the put that is found is the only one of the value
        obtain rfl := hdistinct.eq hw' hmem hput' hput (hvalue'.trans hvalue.symm)
        exact hnot (hsearch.mpr hover)

/-- **The index finds exactly the stale reads.** In a history whose puts write distinct values, the
count of `staleReads` is the number of reads of a value that was overwritten before they began: its
put had returned, and then another completed write to the key of the read was called and returned
before the read was called. -/
theorem staleReads_eq_countP (hdistinct : DistinctPuts history) :
    (staleReads sortWrites history).1 = history.countP fun r => Stale history r := by
  simp only [staleReads, List.length_filterMap_eq_countP]
  refine List.countP_congr ?_
  intro r _
  rw [isSome_staleRead_iff sortWrites hdistinct r, decide_eq_true_eq]

/-- A put that is followed by a put and a delete at the same time, and two reads of its value. -/
def overwrittenTwice : List Operation :=
  [⟨0, ⟨.put, [107], [1]⟩, 0, {}, 1⟩, ⟨1, ⟨.put, [107], [2]⟩, 2, {}, 3⟩, ⟨2, ⟨.del, [107], []⟩, 2, {}, 3⟩,
    ⟨0, ⟨.get, [107], []⟩, 3, ⟨true, [1]⟩, 5⟩, ⟨3, ⟨.get, [107], []⟩, 4, ⟨true, [1]⟩, 6⟩]

/-- Only the read that began after both had returned is stale. -/
theorem staleReads_eq_countP_equalTimes :
    (staleReads (.insertion Write.call) overwrittenTwice).1 = 1 :=
  (staleReads_eq_countP (.insertion Write.call)
    (show DistinctPuts overwrittenTwice by decide)).trans (by decide)

/-! ## Anomalies are violations -/

theorem mem_inversionsIn {reads : List Read} {r₁ r₂ : Read} (h : (r₁, r₂) ∈ inversionsIn reads) :
    r₁ ∈ reads ∧ r₂ ∈ reads ∧ r₁.inverted r₂ = true := by
  induction reads with
  | nil => exact absurd h List.not_mem_nil
  | cons r reads ih =>
    rcases List.mem_append.mp h with h | h
    · obtain ⟨r', hr', heq⟩ := List.mem_map.mp h
      obtain ⟨rfl, rfl⟩ := Prod.mk.inj heq
      obtain ⟨hmem, hinverted⟩ := List.mem_filter.mp hr'
      exact ⟨List.mem_cons_self, List.mem_cons_of_mem _ hmem, hinverted⟩
    · obtain ⟨h₁, h₂, hinverted⟩ := ih h
      exact ⟨List.mem_cons_of_mem _ h₁, List.mem_cons_of_mem _ h₂, hinverted⟩

/-- What is counted by `inversions`: two reads of one key that found values, each with its put. -/
theorem exists_inverted_of_inversions (h : 0 < (inversions sortReads range history).1) :
    ∃ r₁ r₂ : Read, r₁ ∈ observed history ∧ r₂ ∈ observed history ∧
      r₁.op.input.key = r₂.op.input.key ∧ r₁.inverted r₂ = true := by
  obtain ⟨x, hx⟩ := List.length_pos_iff_exists_mem.mp h
  obtain ⟨⟨key, reads⟩, hreads, hx⟩ := List.mem_flatMap.mp hx
  obtain ⟨⟨r₁, r₂⟩, hpair, -⟩ := List.mem_map.mp hx
  obtain ⟨h₁, h₂, hinverted⟩ := mem_inversionsIn hpair
  have hget : (readsByKey history)[key]? = some reads :=
    Std.ExtTreeMap.mem_toList_iff_getElem?_eq_some.mp ((range.perm _).mem_iff.mp hreads)
  have hgroup : (readsByKey history).getD key [] = _ := getD_groupInto _ _ _ key
  rw [Std.ExtTreeMap.getD_eq_getD_getElem?, hget, Option.getD_some, List.map_id] at hgroup
  -- a group has the reads of its key and no others, however it is sorted
  have hmem : ∀ r ∈ sortReads.sort reads, r ∈ observed history ∧ r.op.input.key = key := by
    intro r hr
    rw [(sortReads.perm reads).mem_iff, hgroup, List.mem_filter, decide_eq_true_eq] at hr
    exact hr
  obtain ⟨hobs₁, hkey₁⟩ := hmem r₁ h₁
  obtain ⟨hobs₂, hkey₂⟩ := hmem r₂ h₂
  exact ⟨r₁, r₂, hobs₁, hobs₂, hkey₁.trans hkey₂.symm, hinverted⟩

theorem mem_observed {r : Read} (h : r ∈ observed history) :
    r.op ∈ history ∧ r.op.input.op = .get ∧ r.op.output.found = true ∧ r.writer ∈ history ∧
      r.writer.input.op = .put ∧ r.writer.input.value = r.op.output.value := by
  obtain ⟨op, hop, hr⟩ := List.mem_filterMap.mp h
  split at hr
  · cases hr
  · rename_i hread
    simp only [not_or, not_not, Bool.not_eq_false] at hread
    obtain ⟨w, hw, rfl⟩ := Option.map_eq_some_iff.mp hr
    obtain ⟨hmem, hvalue⟩ := mem_of_keyed hw
    simp only [List.mem_filter, decide_eq_true_eq] at hmem
    exact ⟨hop, hread.1, hread.2, hmem.1, hmem.2, hvalue⟩

/-- `part` has the operations of the history on the key of `r`, and perhaps others. -/
structure HasKeyOf (history part : List Operation) (r : Operation) : Prop where
  sub : ∀ op ∈ part, op ∈ history
  all : ∀ op ∈ history, op.input.key = r.input.key → op ∈ part

/-- **Where a linearization has the put of a value that was read**: before the read, with no write to
the key between them. -/
theorem Linearization.exists_since (h : Linearization part order)
    (hdistinct : DistinctPuts history) (hpart : HasKeyOf history part r) (hr : r ∈ history)
    (hget : r.input.op = .get) (hfound : r.output.found = true) (hw : w ∈ history)
    (hput : w.input.op = .put) (hvalue : w.input.value = r.output.value) :
    ∃ before since later,
      order.filter (fun op => op.input.key = r.input.key) = before ++ w :: since ++ r :: later ∧
        ∀ op ∈ since, op.input.op = .get := by
  obtain ⟨before, w', since, later, hsplit, hput', hvalue', hsince⟩ :=
    h.exists_writer (hpart.all r hr rfl) hget hfound
  have hmem : w' ∈ order.filter fun op => op.input.key = r.input.key := by
    rw [hsplit]
    simp
  -- the register got the value from some put, and `w` is the only one of it
  have hw' := hpart.sub w' (h.perm.mem_iff.mp (List.mem_filter.mp hmem).1)
  obtain rfl := hdistinct.eq hw' hw hput' hput (hvalue'.trans hvalue.symm)
  exact ⟨before, since, later, by simp [hsplit], hsince⟩

/-- A write that was called after `w` had returned does not stand before the read. -/
theorem not_mem_of_after {before since later : List Operation}
    (htime : (before ++ w :: since ++ r :: later).Pairwise fun a b => ¬ b.ret < a.call)
    (hsince : ∀ op ∈ since, op.input.op = .get) (hw : w.call ≤ w.ret) (hget : r.input.op = .get)
    (hwrite : x.input.op ≠ .get) (hafter : w.ret < x.call) :
    x ∉ before ++ w :: since ++ [r] := by
  intro hx
  simp only [List.append_assoc, List.cons_append, List.mem_append, List.mem_cons,
    List.not_mem_nil, or_false] at hx
  rcases hx with hx | rfl | hx | rfl
  · -- it would precede `w` although `w` had returned before it was called
    rw [List.append_assoc, List.pairwise_append] at htime
    exact htime.2.2 x hx w (by simp) hafter
  · exact absurd (lt_of_lt_of_le hafter hw) (lt_irrefl _)
  · exact hwrite (hsince x hx)
  · exact hwrite hget

/-- What stands behind an element of a list is behind everything that element is not among. -/
theorem mem_of_pair_sublist {α : Type} {a b : α} {l l' : List α} (h : [a, b].Sublist (l ++ l'))
    (ha : a ∉ l) : b ∈ l' := by
  obtain ⟨l₁, l₂, heq, h₁, h₂⟩ := List.sublist_append_iff.mp h
  cases l₁ with
  | nil =>
    rw [List.nil_append] at heq
    exact h₂.subset (heq ▸ by simp)
  | cons c l₁ =>
    obtain ⟨rfl, -⟩ := List.cons.inj heq
    exact absurd (h₁.subset List.mem_cons_self) ha

/-- A stale read cannot be placed: the write that overwrote its value is neither before nor behind
it. -/
theorem not_linearizable_of_stale (hdistinct : DistinctPuts history) (htimes : WellTimed history)
    (hpart : HasKeyOf history part r) (hr : r ∈ history) (h : Stale history r) :
    ¬ Linearizable part := by
  rintro ⟨order, horder⟩
  obtain ⟨hget, hfound, w₁, hw₁, -, hput, hvalue, w₂, hw₂, hcompleted, hkey, hafter, hbefore⟩ := h
  have hwrite : w₂.input.op ≠ .get := by
    simp only [Operation.completed, Bool.and_eq_true, decide_eq_true_eq] at hcompleted
    exact hcompleted.1
  obtain ⟨before, since, later, hsplit, hsince⟩ :=
    horder.exists_since hdistinct hpart hr hget hfound hw₁ hput hvalue
  have htime := horder.realTime.filter fun op => decide (op.input.key = r.input.key)
  have hmem : w₂ ∈ order.filter fun op => op.input.key = r.input.key :=
    List.mem_filter.mpr ⟨horder.perm.mem_iff.mpr (hpart.all w₂ hw₂ hkey), by simpa using hkey⟩
  rw [hsplit] at htime hmem
  -- the overwriting write stands behind the read, although it returned before the read was called
  have hlater : w₂ ∈ later := by
    rw [List.append_cons] at hmem
    refine (List.mem_append.mp hmem).resolve_left ?_
    exact not_mem_of_after htime hsince (htimes w₁ hw₁) hget hwrite hafter
  rw [List.pairwise_append, List.pairwise_cons] at htime
  exact htime.2.1.1 w₂ hlater hbefore

/-- Neither can the second read of an inversion: the put that the first one shows is not before it,
and the first read is. -/
theorem not_linearizable_of_inverted {r₁ r₂ : Read} (hdistinct : DistinctPuts history)
    (htimes : WellTimed history) (hpart : HasKeyOf history part r₂.op)
    (h₁ : r₁ ∈ observed history) (h₂ : r₂ ∈ observed history)
    (hkey : r₁.op.input.key = r₂.op.input.key) (h : r₁.inverted r₂ = true) :
    ¬ Linearizable part := by
  rintro ⟨order, horder⟩
  obtain ⟨hr₁, hget₁, hfound₁, hw, hput, hvalue⟩ := mem_observed h₁
  obtain ⟨hr₂, hget₂, hfound₂, hu, hput', hvalue'⟩ := mem_observed h₂
  simp only [Read.inverted, Bool.not_eq_true', Bool.or_eq_false_iff, decide_eq_false_iff_not,
    not_le] at h
  have hpart₁ : HasKeyOf history part r₁.op :=
    ⟨hpart.sub, fun op hop hk => hpart.all op hop (hk.trans hkey)⟩
  -- the put of the first read stands before it
  obtain ⟨before, since, later, hsplit, -⟩ :=
    horder.exists_since hdistinct hpart₁ hr₁ hget₁ hfound₁ hw hput hvalue
  have hpair : [r₁.writer, r₁.op].Sublist (order.filter fun op => op.input.key = r₂.op.input.key) := by
    rw [← hkey, hsplit, List.append_assoc]
    refine List.Sublist.trans ?_ (List.sublist_append_right _ _)
    refine List.Sublist.cons_cons _ (List.Sublist.trans ?_ (List.sublist_append_right _ _))
    exact List.Sublist.cons_cons _ (List.nil_sublist _)
  obtain ⟨before', since', later', hsplit', hsince'⟩ :=
    horder.exists_since hdistinct hpart hr₂ hget₂ hfound₂ hu hput' hvalue'
  have htime := horder.realTime.filter fun op => decide (op.input.key = r₂.op.input.key)
  rw [hsplit'] at htime hpair
  -- that put was called after the put of the second read returned, so it stands behind that read
  have hlater : r₁.op ∈ later' := by
    rw [List.append_cons] at hpair
    refine mem_of_pair_sublist hpair ?_
    refine not_mem_of_after htime hsince' (htimes _ hu) hget₂ ?_ h.2
    rw [hput]
    decide
  rw [List.pairwise_append, List.pairwise_cons] at htime
  exact htime.2.1.1 r₁.op hlater h.1

/-- The history of the key of an operation, and the whole history. -/
theorem hasKeyOf_partition (hr : r ∈ history) :
    ∃ part' ∈ KvModel.partition history, HasKeyOf history part' r := by
  refine ⟨_, KvModel.mem_partition.mpr ⟨r, hr, rfl⟩, ?_, ?_⟩
  · intro op hop
    exact (List.mem_filter.mp hop).1
  · intro op hop hkey
    exact List.mem_filter.mpr ⟨hop, by simpa using hkey⟩

/-- **Anomalies are violations.** In a history whose puts write distinct values and in which no
operation returns before it is called: if `staleReads` or `inversions` counts anything, then the
operations of some key cannot be put in an order that keeps real time and that the register of the
key accepts, and neither can all the operations. -/
theorem anomalies_violate (hdistinct : DistinctPuts history) (htimes : WellTimed history)
    (h : 0 < (staleReads sortWrites history).1 ∨ 0 < (inversions sortReads range history).1) :
    (∃ part ∈ KvModel.partition history, ¬ Linearizable part) ∧ ¬ Linearizable history := by
  have hkey : ∃ part ∈ KvModel.partition history, ¬ Linearizable part := by
    rcases h with h | h
    · obtain ⟨x, hx⟩ := List.length_pos_iff_exists_mem.mp h
      obtain ⟨r, hr, hfound⟩ := List.mem_filterMap.mp hx
      have hstale := (isSome_staleRead_iff sortWrites hdistinct r).mp (by rw [hfound]; rfl)
      obtain ⟨part, hmem, hpart⟩ := hasKeyOf_partition hr
      exact ⟨part, hmem, not_linearizable_of_stale hdistinct htimes hpart hr hstale⟩
    · obtain ⟨r₁, r₂, h₁, h₂, hsame, hinverted⟩ := exists_inverted_of_inversions sortReads range h
      obtain ⟨part, hmem, hpart⟩ := hasKeyOf_partition (mem_observed h₂).1
      exact ⟨part, hmem, not_linearizable_of_inverted hdistinct htimes hpart h₁ h₂ hsame hinverted⟩
  obtain ⟨part, hmem, hnot⟩ := hkey
  exact ⟨⟨part, hmem, hnot⟩, fun hlin => hnot (hlin.partition hmem)⟩

/-- A put, a put whose outcome is unknown, a read of the second value, and then one of the first. -/
def newThenOld : List Operation :=
  [⟨0, ⟨.put, [107], [1]⟩, 0, {}, 1⟩, ⟨1, ⟨.put, [107], [2]⟩, 2, {}, maxInt64⟩,
    ⟨2, ⟨.get, [107], []⟩, 3, ⟨true, [2]⟩, 4⟩, ⟨2, ⟨.get, [107], []⟩, 5, ⟨true, [1]⟩, 6⟩]

/-- No read is stale, since the second put has not returned; but the reads are inverted. -/
theorem anomalies_violate_unknownOutcome :
    (staleReads (.insertion Write.call) newThenOld).1 = 0 ∧
      (inversions (.insertion fun r : Read => r.op.call) .keep newThenOld).1 = 1 ∧
      ¬ Linearizable newThenOld := by
  have hinverted : (inversions (.insertion fun r : Read => r.op.call) .keep newThenOld).1 = 1 := by decide
  refine ⟨by decide, hinverted, ?_⟩
  exact (anomalies_violate (.insertion Write.call) (.insertion fun r : Read => r.op.call) .keep
    (by decide) (by decide) (Or.inr (by rw [hinverted]; exact Nat.one_pos))).2

end ShardCache.Chaos
