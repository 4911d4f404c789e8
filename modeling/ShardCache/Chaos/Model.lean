import ShardCache.Foundations.Distinct
import ShardCache.Foundations.Indexing
import ShardCache.Protocol.Number
import ShardCache.Store.Entry

/-!
# The model of the chaos harness

The harness records what its clients did: one operation for each answered request, and one for each
write whose outcome is unknown, which returns at the end of time. The history is checked against a
register for every key: it is linearizable if its operations can be put in one order that keeps real
time and in which every read returns what the register then holds.

## Main definitions

* `Operation`: an operation of a history
* `KvModel.step`, `KvModel.partition`: the register of a key, and the histories of the keys
* `Linearization`, `Linearizable`: an order that the registers accept
* `DistinctPuts`: no two puts write the same value

## Main results

* `Linearizable.partition`: the history of each key of a linearizable history is linearizable
* `Linearization.exists_writer`: what a read found was put there by the last write before it
-/

namespace ShardCache.Chaos

open Foundations

/-- Times compare as signed integers. -/
scoped instance instLinearOrderInt64 : LinearOrder Int64 where
  le_refl := Int64.le_refl
  le_trans _ _ _ := Int64.le_trans
  le_antisymm _ _ := Int64.le_antisymm
  le_total := Int64.le_total
  lt_iff_le_not_ge a b := by grind
  toDecidableLE := inferInstance
  toDecidableLT := inferInstance
  toDecidableEq := inferInstance

/-- `opGet`, `opPut` and `opDel`. -/
inductive OpKind where
  | get | put | del
deriving DecidableEq, Repr

/-- `kvInput`. -/
structure KvInput where
  op : OpKind
  key : Key
  value : Bytes := []
deriving DecidableEq, Repr

/-- `kvOutput`. -/
structure KvOutput where
  found : Bool := false
  value : Bytes := []
deriving DecidableEq, Repr

/-- `kvState`. -/
structure KvState where
  found : Bool := false
  value : Bytes := []
deriving DecidableEq, Repr

/-- `porcupine.Operation`, with times in nanoseconds. -/
structure Operation where
  clientId : ℤ
  input : KvInput
  call : Int64
  output : KvOutput := {}
  ret : Int64
deriving DecidableEq, Repr

namespace KvModel

/-- `kvModel.Init`. -/
def init : KvState := {}

/-- `kvModel.Step`: whether the output is legal, and the next state. -/
def step (st : KvState) (input : KvInput) (output : KvOutput) : Bool × KvState :=
  match input.op with
  | .get => (output.found == st.found && (!output.found || output.value == st.value), st)
  | .put => (true, ⟨true, input.value⟩)
  | .del => (true, {})

/-- `kvModel.Partition`: the operations on each key, the keys in the order in which they first
occur. -/
def partition (history : List Operation) : List (List Operation) :=
  let byKey := groupInto (fun op : Operation => op.input.key) id history
  (firstsBy (fun op : Operation => op.input.key) history).map fun op => byKey.getD op.input.key []

/-- `kvModel.DescribeOperation`. -/
def describeOperation (input : KvInput) (output : KvOutput) : Bytes :=
  match input.op with
  | .get =>
    if output.found then ascii "get(" ++ input.key ++ ascii ") -> " ++ output.value
    else ascii "get(" ++ input.key ++ ascii ") -> nil"
  | .put => ascii "put(" ++ input.key ++ ascii ", " ++ input.value ++ ascii ")"
  | .del => ascii "del(" ++ input.key ++ ascii ")"

/-- The state after some operations. -/
def after (st : KvState) (ops : List Operation) : KvState :=
  ops.foldl (fun st op => (step st op.input op.output).2) st

/-- The model accepts the operations, one after the other. -/
def accepts : KvState → List Operation → Bool
  | _, [] => true
  | st, op :: ops => (step st op.input op.output).1 && accepts (step st op.input op.output).2 ops

theorem mem_partition {history part : List Operation} :
    part ∈ partition history ↔
      ∃ op ∈ history, part = history.filter fun o => o.input.key = op.input.key := by
  simp only [partition, getD_groupInto, List.map_id, List.mem_map]
  constructor
  · rintro ⟨op, hop, rfl⟩
    exact ⟨op, mem_of_mem_firstsBy hop, rfl⟩
  · rintro ⟨op, hop, rfl⟩
    have hkey : op.input.key ∈
        (firstsBy (fun o : Operation => o.input.key) history).map fun o => o.input.key :=
      mem_map_firstsBy.mpr (List.mem_map_of_mem hop)
    obtain ⟨first, hfirst, heq⟩ := List.mem_map.mp hkey
    exact ⟨first, hfirst, by rw [heq]⟩

theorem accepts_append (st : KvState) (ops ops' : List Operation) :
    accepts st (ops ++ ops') = (accepts st ops && accepts (after st ops) ops') := by
  induction ops generalizing st with
  | nil => simp [accepts, after]
  | cons op ops ih =>
    simp only [List.cons_append, accepts, ih, Bool.and_assoc]
    rfl

/-- **A value that the register holds** was put there by the last write. -/
theorem exists_put_of_after {ops : List Operation} (h : (after init ops).found = true) :
    ∃ before w since, ops = before ++ w :: since ∧ w.input.op = .put ∧
      w.input.value = (after init ops).value ∧ ∀ op ∈ since, op.input.op = .get := by
  -- from the last operation back to the last one that is not a read
  induction ops using List.reverseRecOn with
  | nil => exact absurd h (by decide)
  | append_singleton ops op ih =>
    have hafter : after init (ops ++ [op]) = (step (after init ops) op.input op.output).2 :=
      List.foldl_concat ..
    rw [hafter] at h ⊢
    cases hop : op.input.op with
    | get =>
      simp only [step, hop] at h ⊢
      obtain ⟨before, w, since, rfl, hput, hvalue, hsince⟩ := ih h
      refine ⟨before, w, since ++ [op], by simp, hput, hvalue, ?_⟩
      intro o ho
      rcases List.mem_append.mp ho with ho | ho
      · exact hsince o ho
      · rw [List.mem_singleton.mp ho, hop]
    | put => exact ⟨ops, op, [], rfl, hop, by simp [step, hop], by simp⟩
    | del => simp [step, hop] at h

end KvModel

/-! ## Linearizability -/

/-- `order` lists the operations of the history in an order that keeps real time and that the
register of every key accepts. A write that returns at the end of time precedes nothing. -/
structure Linearization (history order : List Operation) : Prop where
  perm : order.Perm history
  realTime : order.Pairwise fun a b => ¬ b.ret < a.call
  legal : ∀ key, KvModel.accepts KvModel.init (order.filter fun op => op.input.key = key) = true

/-- The history is linearizable with respect to `kvModel`. -/
def Linearizable (history : List Operation) : Prop := ∃ order, Linearization history order

/-- No two puts write the same value. -/
def DistinctPuts (history : List Operation) : Prop :=
  ((history.filter fun op => op.input.op = .put).map fun op => op.input.value).Nodup

instance (history : List Operation) : Decidable (DistinctPuts history) :=
  inferInstanceAs (Decidable (List.Nodup _))

/-- No operation returns before it was called. -/
def WellTimed (history : List Operation) : Prop := ∀ op ∈ history, op.call ≤ op.ret

instance (history : List Operation) : Decidable (WellTimed history) :=
  inferInstanceAs (Decidable (∀ op ∈ history, _))

variable {history order part : List Operation} {r w w' : Operation}

theorem DistinctPuts.eq (h : DistinctPuts history) (hw : w ∈ history) (hw' : w' ∈ history)
    (hput : w.input.op = .put) (hput' : w'.input.op = .put)
    (hvalue : w.input.value = w'.input.value) : w = w' :=
  List.inj_on_of_nodup_map h (List.mem_filter.mpr ⟨hw, by simpa using hput⟩)
    (List.mem_filter.mpr ⟨hw', by simpa using hput'⟩) hvalue

/-- **Linearizability is checked key by key**: the order of all operations gives one for each
key. -/
theorem Linearizable.partition (h : Linearizable history)
    (hpart : part ∈ KvModel.partition history) : Linearizable part := by
  obtain ⟨order, hperm, htime, hlegal⟩ := h
  obtain ⟨op, -, rfl⟩ := KvModel.mem_partition.mp hpart
  refine ⟨order.filter fun o => o.input.key = op.input.key, hperm.filter _, htime.filter _, ?_⟩
  intro key
  rw [List.filter_filter]
  by_cases hkey : op.input.key = key
  · subst hkey
    simpa using hlegal op.input.key
  · -- the part has no operation on another key, and a register accepts none
    have hnone : order.filter (fun o => decide (o.input.key = key) &&
        decide (o.input.key = op.input.key)) = [] := by
      rw [List.filter_eq_nil_iff]
      intro o _ ho
      simp only [Bool.and_eq_true, decide_eq_true_eq] at ho
      exact hkey (ho.2.symm.trans ho.1)
    rw [hnone]
    rfl

/-- **What a read found** was put there by the last write to its key before it. -/
theorem Linearization.exists_writer (h : Linearization history order) (hr : r ∈ history)
    (hget : r.input.op = .get) (hfound : r.output.found = true) :
    ∃ before w since later,
      order.filter (fun op => op.input.key = r.input.key) = before ++ w :: (since ++ r :: later) ∧
        w.input.op = .put ∧ w.input.value = r.output.value ∧
        ∀ op ∈ since, op.input.op = .get := by
  have hmem : r ∈ order.filter fun op => op.input.key = r.input.key := by
    simpa using h.perm.mem_iff.mpr hr
  obtain ⟨earlier, later, hsplit⟩ := List.append_of_mem hmem
  -- the register accepts the read, so it held the value after what stands before
  have hlegal := h.legal r.input.key
  rw [hsplit, KvModel.accepts_append] at hlegal
  simp only [Bool.and_eq_true, KvModel.accepts, KvModel.step, hget, hfound, beq_iff_eq,
    Bool.not_true, Bool.false_or] at hlegal
  obtain ⟨before, w, since, rfl, hput, hvalue, hsince⟩ :=
    KvModel.exists_put_of_after hlegal.2.1.1.symm
  exact ⟨before, w, since, later, by simp [hsplit], hput, hvalue.trans hlegal.2.1.2.symm, hsince⟩

end ShardCache.Chaos
