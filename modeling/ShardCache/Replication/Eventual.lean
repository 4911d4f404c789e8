import ShardCache.Replication.Handoff
import ShardCache.Store.Convergence
import ShardCache.Store.ShardedCache

/-!
# Replicas agree in the end

Coordinators write to the replicas of a key, keep a hint for every replica that has not acknowledged
the write, and send it again. Requests are lost, are executed after their caller has given up, and
are executed again from a hint or by a repair; and coordinators do not know of each other.

When all this has come to rest for a key, every replica has been sent every write of the key, and
the replicas agree on the newest one. Hints that were dropped from a full queue, have expired or
were cleared are the exceptions. The ring does not change meanwhile.

## Main definitions

* `System`, `System.step`: the nodes with their hints, their caches, and what was delivered
* `confirms`: what a step takes for acknowledged
* `AtRest`: all this has come to rest for a key

## Main results

* `progresses_of_step`, `settled_of_step`: what a step does to calls and hints
* `Sound.of_step`: what every step keeps
* `System.replicas_agree_at_rest`: the replicas of a key agree when it has come to rest
-/

namespace ShardCache.Handoff

open Foundations
open Replication (Fanout)

/-! ## What a step takes for acknowledged -/

/-- The writes that a step of the node `self` takes for executed: by the node itself, by a peer that
has acknowledged a request, or by one that was sent a hint. -/
def confirms (self : NodeId) (s : State) : Label → List (NodeId × Key × Tag)
  | .replicate key v P _ => if P.canServeLocally self true then [(self, key, v.tag)] else []
  | .issue i _ _ _ =>
    match s.calls[i]? with
    | some c => if c.fanout.todo.head? = some self then [(self, c.key, c.value.tag)] else []
    | none => []
  | .callback i n result _ =>
    match s.calls[i]? with
    | some c => if (acknowledged result).isSome then [(n, c.key, c.value.tag)] else []
    | none => []
  | .replayHints (.sendNext true) =>
    match s.replay with
    | .sending id (hint :: _) _ _ _ => [(id, hint.key, hint.value.tag)]
    | _ => []
  | _ => []

variable {config : ClusterConfig} {self : NodeId} {s s' : State} {l : Label}

/-- The call goes on, with the same write and the same targets. -/
def Call.Continues (c c' : Call) : Prop :=
  c'.key = c.key ∧ c'.value = c.value ∧ c'.place = c.place

/-- The key and the placement of a call that a step begins. -/
def Label.begins : Label → Option (Key × Placement)
  | .replicate key _ P _ => some (key, P)
  | _ => none

/-- What a step does to the calls: those that have begun go on, and every acknowledgement that is
new was confirmed. -/
structure Progresses (confirmed : List (NodeId × Key × Tag)) (begun : Option (Key × Placement))
    (s s' : State) : Prop where
  goes_on : ∀ (i : ℕ) (c : Call), s.calls[i]? = some c →
    ∃ c' : Call, s'.calls[i]? = some c' ∧ c.Continues c'
  comes_from : ∀ (i : ℕ) (c' : Call), s'.calls[i]? = some c' →
    (∃ c : Call, s.calls[i]? = some c ∧ c.Continues c' ∧ ∀ n ∈ c'.fanout.succeeded,
        n ∈ c.fanout.succeeded ∨ (n, c'.key, c'.value.tag) ∈ confirmed) ∨
      begun = some (c'.key, c'.place) ∧
        ∀ n ∈ c'.fanout.succeeded, (n, c'.key, c'.value.tag) ∈ confirmed

section Progresses

variable {confirmed : List (NodeId × Key × Tag)} {begun : Option (Key × Placement)}

theorem Progresses.of_eq (hcalls : s'.calls = s.calls) : Progresses confirmed begun s s' where
  goes_on _ c hc := ⟨c, hcalls ▸ hc, rfl, rfl, rfl⟩
  comes_from _ c' hc' := .inl ⟨c', hcalls ▸ hc', ⟨rfl, rfl, rfl⟩, fun _ hn => .inl hn⟩

/-- Call `i` goes on from `c` to `c'`, and the others stay as they are. -/
theorem Progresses.of_set {i : ℕ} {c c' : Call} (hi : s.calls[i]? = some c)
    (hcalls : s'.calls = s.calls.set i c') (hcont : c.Continues c')
    (hnew : ∀ n ∈ c'.fanout.succeeded,
      n ∈ c.fanout.succeeded ∨ (n, c'.key, c'.value.tag) ∈ confirmed) :
    Progresses confirmed begun s s' where
  goes_on j d hd := by
    have hlt := (List.getElem?_eq_some_iff.mp hi).1
    by_cases hij : j = i
    · subst hij
      obtain rfl : c = d := Option.some.inj (hi.symm.trans hd)
      exact ⟨c', by rw [hcalls, List.getElem?_set_self hlt], hcont⟩
    · exact ⟨d, by rw [hcalls, List.getElem?_set_ne (Ne.symm hij), hd], rfl, rfl, rfl⟩
  comes_from j d hd := by
    have hlt := (List.getElem?_eq_some_iff.mp hi).1
    rw [hcalls] at hd
    by_cases hij : j = i
    · subst hij
      obtain rfl : c' = d := by simpa [List.getElem?_set_self hlt] using hd
      exact .inl ⟨c, hi, hcont, hnew⟩
    · rw [List.getElem?_set_ne (Ne.symm hij)] at hd
      exact .inl ⟨d, hd, ⟨rfl, rfl, rfl⟩, fun _ hn => .inl hn⟩

/-- A target reports. -/
theorem Progresses.of_report {i : ℕ} {c : Call} {f : Fanout Bool} {n : NodeId}
    {result : Option Bool} {now : Time} (hi : s.calls[i]? = some c)
    (hf : f.answers = c.fanout.answers)
    (hconfirmed : result.isSome = true → (n, c.key, c.value.tag) ∈ confirmed)
    (hs : report config s i c f n result now = some s') : Progresses confirmed begun s s' := by
  have hcalls : s'.calls = s.calls.set i { c with fanout := f.record n result } := by
    unfold report at hs
    cases result with
    | some live =>
      cases hs
      rfl
    | none =>
      obtain ⟨t, ht, rfl⟩ := Option.map_eq_some_iff.mp hs
      rw [State.setCall, addHint_calls ht]
  refine Progresses.of_set hi hcalls ⟨rfl, rfl, rfl⟩ fun m hm => ?_
  simp only [Fanout.succeeded, Fanout.record, hf, List.filter_append, List.map_append,
    List.mem_append] at hm
  refine hm.imp_right fun hm => ?_
  cases result with
  | none => simp at hm
  | some live =>
    obtain rfl : m = n := by simpa using hm
    exact hconfirmed rfl

end Progresses

/-- A call that begins. -/
theorem progresses_replicate (s : State) (key : Key) (v : VersionedValue) (P : Placement)
    (live : Bool) :
    Progresses (confirms self s (.replicate key v P live)) (some (key, P)) s
      { s with calls := s.calls ++ [Call.enter self key v P live] } where
  goes_on i c hc := by
    have hlt := (List.getElem?_eq_some_iff.mp hc).1
    exact ⟨c, by rw [List.getElem?_append_left hlt, hc], rfl, rfl, rfl⟩
  comes_from i c' hc' := by
    rcases Nat.lt_or_ge i s.calls.length with hlt | hge
    · rw [List.getElem?_append_left hlt] at hc'
      exact .inl ⟨c', hc', ⟨rfl, rfl, rfl⟩, fun _ hn => .inl hn⟩
    · -- it is acknowledged at once by the node that serves the key alone
      rw [List.getElem?_append_right hge] at hc'
      obtain rfl := List.mem_singleton.mp (List.mem_of_getElem? hc')
      refine .inr ⟨rfl, fun n hn => ?_⟩
      by_cases hlocal : P.canServeLocally self true = true
      · obtain rfl : n = self := by simpa [Call.enter, hlocal, Fanout.succeeded] using hn
        simp [confirms, hlocal, Call.enter]
      · simp [Call.enter, hlocal, Fanout.succeeded] at hn

/-- **What a step does to calls**: acknowledgements that are new were confirmed. -/
theorem progresses_of_step (hs : step config self s l = some s') :
    Progresses (confirms self s l) l.begins s s' := by
  cases l with
  | replicate key v P live =>
    cases hs
    exact progresses_replicate s key v P live
  | issue i healthy live now =>
    obtain ⟨c, hi, hs⟩ := Option.bind_eq_some_iff.mp hs
    unfold issue at hs
    split at hs
    · cases hs
    next n rest pending answers hfanout =>
      have hanswers : answers = c.fanout.answers := by rw [hfanout]
      split_ifs at hs with hself hhealthy
      · refine Progresses.of_report hi hanswers (fun _ => ?_) hs
        simp [confirms, hi, hfanout, hself]
      · cases hs
        refine Progresses.of_set hi rfl ⟨rfl, rfl, rfl⟩ fun m hm => .inl ?_
        rwa [hfanout]
      · exact Progresses.of_report hi hanswers (fun h => by cases h) hs
  | callback i n result now =>
    obtain ⟨c, hi, hs⟩ := Option.bind_eq_some_iff.mp hs
    unfold callback at hs
    split_ifs at hs
    have hanswers : ({ c.fanout with pending := c.fanout.pending.erase n } : Fanout Bool).answers =
      c.fanout.answers := rfl
    refine Progresses.of_report hi hanswers (fun hsome => ?_) hs
    simp [confirms, hi, hsome]
  | addHint n key v now => exact Progresses.of_eq (addHint_calls hs)
  | replayHints r => exact Progresses.of_eq (replayHints_calls hs).1

theorem settled_of_addHint {now : Time} {n : NodeId} {key : Key} {v : VersionedValue}
    {call : Option ℕ} (hs : s.addHint config now n key v call = some s') {x : Settled}
    (hx : x ∈ s'.settled) (hfate : x.fate = .delivered) : x ∈ s.settled := by
  obtain ⟨out, hmoved⟩ := Moved.of_addHint hs
  rw [hmoved.settled, List.mem_append] at hx
  refine hx.resolve_right fun hx => ?_
  obtain ⟨h, -, rfl⟩ := List.mem_map.mp hx
  cases hfate

theorem settled_of_report {i : ℕ} {c : Call} {f : Fanout Bool} {n : NodeId}
    {result : Option Bool} {now : Time} (hs : report config s i c f n result now = some s')
    {x : Settled} (hx : x ∈ s'.settled) (hfate : x.fate = .delivered) : x ∈ s.settled := by
  unfold report at hs
  cases result with
  | some live =>
    cases hs
    exact hx
  | none =>
    obtain ⟨t, ht, rfl⟩ := Option.map_eq_some_iff.mp hs
    exact settled_of_addHint ht hx hfate

theorem Hint.tag_of_write_eq {h h' : Hint} (hwrite : h.write = h'.write) :
    h.key = h'.key ∧ h.value.tag = h'.value.tag := by
  have hkey : h.write.key = h'.write.key := by rw [hwrite]
  have htag : h.write.value.tag = h'.write.value.tag := by rw [hwrite]
  exact ⟨hkey, htag⟩

@[simp] theorem Hint.tag_refresh (h : Hint) (now : Time) :
    (h.refresh now).key = h.key ∧ (h.refresh now).value.tag = h.value.tag := by
  unfold refresh
  split <;> exact ⟨rfl, rfl⟩

theorem settled_of_sendNext {ok : Bool} (hs : sendNext s ok = some s') {x : Settled}
    (hx : x ∈ s'.settled) (hfate : x.fate = .delivered) :
    x ∈ s.settled ∨
      (x.node, x.hint.key, x.hint.value.tag) ∈ confirms self s (.replayHints (.sendNext ok)) := by
  unfold sendNext at hs
  split at hs
  · cases hs
    exact .inl hx
  next id hint batch now delivered ids hreplay =>
    split at hs
    · -- it has expired
      cases hs
      obtain hx | hx := List.mem_append.mp hx
      · exact .inl hx
      · obtain rfl := List.mem_singleton.mp hx
        cases hfate
    · split at hs
      next hok =>
        cases hs
        obtain hx | hx := List.mem_append.mp hx
        · exact .inl hx
        · obtain rfl := List.mem_singleton.mp hx
          simp [confirms, hok, hreplay]
      · cases hs
        exact .inl hx
  · cases hs

/-- **What a step does to hints**: a hint that has left as delivered was confirmed. -/
theorem settled_of_step (hs : step config self s l = some s') {x : Settled}
    (hx : x ∈ s'.settled) (hfate : x.fate = .delivered) :
    x ∈ s.settled ∨ (x.node, x.hint.key, x.hint.value.tag) ∈ confirms self s l := by
  cases l with
  | replicate key v P live =>
    cases hs
    exact .inl hx
  | issue i healthy live now =>
    obtain ⟨c, -, hs⟩ := Option.bind_eq_some_iff.mp hs
    unfold issue at hs
    split at hs
    · cases hs
    · split_ifs at hs
      · exact .inl (settled_of_report hs hx hfate)
      · cases hs
        exact .inl hx
      · exact .inl (settled_of_report hs hx hfate)
  | callback i n result now =>
    obtain ⟨c, -, hs⟩ := Option.bind_eq_some_iff.mp hs
    unfold callback at hs
    split_ifs at hs
    exact .inl (settled_of_report hs hx hfate)
  | addHint n key v now => exact .inl (settled_of_addHint hs hx hfate)
  | replayHints r =>
    cases r with
    | sendNext ok => exact settled_of_sendNext hs hx hfate
    | takeBatch now =>
      -- a queue that is cleared delivers nothing
      simp only [step, replayHints, takeBatch] at hs
      split at hs
      · cases hs
        obtain hx | hx := List.mem_append.mp hx
        · exact .inl hx
        · obtain ⟨h, -, rfl⟩ := List.mem_map.mp hx
          cases hfate
      · cases hs
        exact .inl hx
      · cases hs
    | _ =>
      simp only [step, replayHints, collectIds, visit, putBack, countDelivered, finish] at hs
      split at hs <;> (try split_ifs at hs) <;> cases hs <;> exact .inl hx

/-! ## The system -/

/-- The nodes with their hints, their caches, and the writes that were applied on each. -/
structure System where
  nodes : NodeId → State := fun _ => {}
  caches : NodeId → ShardedCache
  delivered : NodeId → List (Key × Tag) := fun _ => []

/-- A node takes a step, or a copy of the write of call `i` of the node `self` is applied on one of
its targets: of the request or of a hint, in time or not, or by a repair. The copy has the time to
live that was left when it was sent. -/
inductive SystemLabel where
  | node (self : NodeId) (l : Label)
  | deliver (self : NodeId) (i : ℕ) (n : NodeId) (now : Time) (ttl : Option Millis)

namespace System

/-- The write of call `i` of the node `self`, for the target `n`. -/
def copyFor (s : System) (self : NodeId) (i : ℕ) (n : NodeId) : Option (Key × VersionedValue) :=
  match (s.nodes self).calls[i]? with
  | some c => if n ∈ c.place.targets then some (c.key, c.value) else none
  | none => none

/-- One step. What is taken for acknowledged was applied before. Hints come from `replicate` only,
since nothing is rebalanced. -/
def step (config : ClusterConfig) (s : System) : SystemLabel → Option System
  | .node _ (.addHint ..) => none
  | .node self l =>
    if ∀ x ∈ confirms self (s.nodes self) l, x.2 ∈ s.delivered x.1 then
      (Handoff.step config self (s.nodes self) l).map fun node =>
        { s with nodes := Function.update s.nodes self node }
    else none
  | .deliver self i n now ttl =>
    (s.copyFor self i n).map fun (key, v) =>
      { s with
        caches := Function.update s.caches n
          ((s.caches n).apply now key { v with ttl := ttl }).1
        delivered := Function.update s.delivered n (s.delivered n ++ [(key, v.tag)]) }

variable {config : ClusterConfig} {s s' : System} {self : NodeId} {k : Key}

theorem step_node {l : Label} (hs : s.step config (.node self l) = some s') :
    (∀ x ∈ confirms self (s.nodes self) l, x.2 ∈ s.delivered x.1) ∧
      ∃ node, Handoff.step config self (s.nodes self) l = some node ∧
        s' = { s with nodes := Function.update s.nodes self node } := by
  have hguard : (if ∀ x ∈ confirms self (s.nodes self) l, x.2 ∈ s.delivered x.1 then
      (Handoff.step config self (s.nodes self) l).map fun node =>
        { s with nodes := Function.update s.nodes self node } else none) = some s' := by
    cases l with
    | addHint n key v now => cases hs
    | _ => exact hs
  obtain ⟨hconfirmed, hs⟩ := Option.ite_none_right_eq_some.mp hguard
  obtain ⟨node, hnode, rfl⟩ := Option.map_eq_some_iff.mp hs
  exact ⟨hconfirmed, node, hnode, rfl⟩

theorem step_deliver {i : ℕ} {n : NodeId} {now : Time} {ttl : Option Millis}
    (hs : s.step config (.deliver self i n now ttl) = some s') :
    ∃ c : Call, (s.nodes self).calls[i]? = some c ∧ n ∈ c.place.targets ∧
      s' = { s with
        caches := Function.update s.caches n
          ((s.caches n).apply now c.key { c.value with ttl := ttl }).1
        delivered := Function.update s.delivered n (s.delivered n ++ [(c.key, c.value.tag)]) } := by
  obtain ⟨⟨key, v⟩, hcopy, rfl⟩ := Option.map_eq_some_iff.mp hs
  unfold copyFor at hcopy
  split at hcopy
  next c hc =>
    split_ifs at hcopy with hn
    obtain ⟨rfl, rfl⟩ := Prod.mk.inj (Option.some.inj hcopy)
    exact ⟨c, hc, hn, rfl⟩
  · cases hcopy

/-- What every step keeps: the books of all nodes; what was acknowledged or delivered was applied;
and what was applied is the write of a call. -/
structure Sound (s : System) : Prop where
  books : ∀ self, Books (s.nodes self)
  calls : ∀ self, AllCallBooks (s.nodes self)
  acked : ∀ (self : NodeId) (i : ℕ) (c : Call), (s.nodes self).calls[i]? = some c →
    ∀ n ∈ c.fanout.succeeded, (c.key, c.value.tag) ∈ s.delivered n
  settled : ∀ self, ∀ x ∈ (s.nodes self).settled, x.fate = .delivered →
    (x.hint.key, x.hint.value.tag) ∈ s.delivered x.node
  origin : ∀ n, ∀ x ∈ s.delivered n, ∃ (self : NodeId) (i : ℕ) (c : Call),
    (s.nodes self).calls[i]? = some c ∧ n ∈ c.place.targets ∧ (c.key, c.value.tag) = x

theorem sound_start (caches : NodeId → ShardedCache) : Sound { caches := caches } where
  books _ := Books.init
  calls _ := ⟨by simp, fun _ _ => rfl⟩
  acked _ i c hc := by simp at hc
  settled _ x hx := by simp at hx
  origin _ x hx := by simp at hx

/-- A step of a node. -/
theorem Sound.of_node (h : Sound s) {l : Label} {node : State}
    (hconfirmed : ∀ x ∈ confirms self (s.nodes self) l, x.2 ∈ s.delivered x.1)
    (hnode : Handoff.step config self (s.nodes self) l = some node) :
    Sound { s with nodes := Function.update s.nodes self node } := by
  obtain ⟨hgo, hfrom⟩ := progresses_of_step hnode
  constructor
  case books =>
    exact (Function.forall_update_iff s.nodes fun _ t => Books t).mpr
      ⟨(h.books self).of_step hnode, fun m _ => h.books m⟩
  case calls =>
    exact (Function.forall_update_iff s.nodes fun _ t => AllCallBooks t).mpr
      ⟨(h.calls self).of_step hnode, fun m _ => h.calls m⟩
  case acked =>
    refine (Function.forall_update_iff s.nodes fun _ t => ∀ (i : ℕ) (c : Call),
      t.calls[i]? = some c → ∀ n ∈ c.fanout.succeeded, (c.key, c.value.tag) ∈ s.delivered n).mpr
      ⟨fun i c hc n hn => ?_, fun m _ => h.acked m⟩
    obtain ⟨c₀, hc₀, ⟨hkey, hvalue, -⟩, hacks⟩ | ⟨-, hacks⟩ := hfrom i c hc
    · obtain hold | hnew := hacks n hn
      · rw [hkey, hvalue]
        exact h.acked self i c₀ hc₀ n hold
      · exact hconfirmed _ hnew
    · exact hconfirmed _ (hacks n hn)
  case settled =>
    refine (Function.forall_update_iff s.nodes fun _ t => ∀ x ∈ t.settled, x.fate = .delivered →
      (x.hint.key, x.hint.value.tag) ∈ s.delivered x.node).mpr
      ⟨fun x hx hfate => ?_, fun m _ => h.settled m⟩
    obtain hold | hnew := settled_of_step hnode hx hfate
    · exact h.settled self x hold hfate
    · exact hconfirmed _ hnew
  case origin =>
    intro n x hx
    obtain ⟨m, i, c, hc, hn, rfl⟩ := h.origin n x hx
    by_cases hm : m = self
    · subst hm
      obtain ⟨c', hc', hkey, hvalue, hplace⟩ := hgo i c hc
      exact ⟨m, i, c', by simpa using hc', hplace ▸ hn, by rw [hkey, hvalue]⟩
    · exact ⟨m, i, c, by simpa [Function.update_of_ne hm] using hc, hn, rfl⟩

/-- A copy is applied. -/
theorem Sound.of_deliver (h : Sound s) {i : ℕ} {c : Call} {n : NodeId}
    (hc : (s.nodes self).calls[i]? = some c) (hn : n ∈ c.place.targets)
    (caches : NodeId → ShardedCache) :
    Sound { s with
      caches := caches
      delivered := Function.update s.delivered n (s.delivered n ++ [(c.key, c.value.tag)]) } := by
  have hmore (m : NodeId) (x : Key × Tag) (hx : x ∈ s.delivered m) :
      x ∈ Function.update s.delivered n (s.delivered n ++ [(c.key, c.value.tag)]) m := by
    by_cases hm : m = n
    · subst hm
      rw [Function.update_self]
      exact List.mem_append_left _ hx
    · rwa [Function.update_of_ne hm]
  refine ⟨h.books, h.calls, fun m j d hd p hp => hmore p _ (h.acked m j d hd p hp),
    fun m x hx hfate => hmore _ _ (h.settled m x hx hfate), fun m x hx => ?_⟩
  dsimp only at hx
  rw [Function.update_apply] at hx
  split at hx
  next hm =>
    subst hm
    obtain hx | hx := List.mem_append.mp hx
    · exact h.origin m x hx
    · obtain rfl := List.mem_singleton.mp hx
      exact ⟨self, i, c, hc, hn, rfl⟩
  · exact h.origin m x hx

/-- **What every step keeps.** -/
theorem Sound.of_step (h : Sound s) {l : SystemLabel} (hs : s.step config l = some s') :
    Sound s' := by
  cases l with
  | node self l =>
    obtain ⟨hconfirmed, node, hnode, rfl⟩ := step_node hs
    exact h.of_node hconfirmed hnode
  | deliver self i n now ttl =>
    obtain ⟨c, hc, hn, rfl⟩ := step_deliver hs
    exact h.of_deliver hc hn _

/-! ## The newest write -/

/-- The tags of the writes of `k` that were applied on `n`. -/
def tagsAt (s : System) (k : Key) (n : NodeId) : List Tag :=
  ((s.delivered n).filter fun x => x.1 = k).map Prod.snd

/-- What is stored under `k` is not evicted by a copy of another key, and has not expired when a copy
of `k` is applied. -/
def Calm (k : Key) (s : System) : SystemLabel → Prop
  | .node _ _ => True
  | .deliver self i n now ttl => ∀ x ∈ s.copyFor self i n,
    if x.1 = k then Unexpired now ((s.caches n).slot k)
    else ((s.caches n).apply now x.1 { x.2 with ttl := ttl }).1.slot k = (s.caches n).slot k

instance (k : Key) (s : System) : ∀ l, Decidable (Calm k s l)
  | .node _ _ => .isTrue trivial
  | .deliver self i n _ _ => inferInstanceAs (Decidable (∀ x ∈ s.copyFor self i n, _))

/-- The maximum of a list depends on its members only. -/
theorem maximum_congr {ts ts' : List Tag} (h : ∀ t, t ∈ ts ↔ t ∈ ts') : ts.maximum = ts'.maximum :=
  le_antisymm (List.maximum_le_of_forall_le fun t ht => List.le_maximum_of_mem' ((h t).mp ht))
    (List.maximum_le_of_forall_le fun t ht => List.le_maximum_of_mem' ((h t).mpr ht))

/-- A replica holds the newest write that was applied on it. -/
def HoldsNewest (k : Key) (s : System) : Prop :=
  ∀ n, slotTag ((s.caches n).slot k) = (s.tagsAt k n).maximum

theorem HoldsNewest.of_step (h : HoldsNewest k s) {l : SystemLabel} (hcalm : Calm k s l)
    (hs : s.step config l = some s') : HoldsNewest k s' := by
  cases l with
  | node self l =>
    obtain ⟨-, node, -, rfl⟩ := step_node hs
    exact h
  | deliver self i n now ttl =>
    obtain ⟨c, hc, hn, rfl⟩ := step_deliver hs
    have hcopy : s.copyFor self i n = some (c.key, c.value) := by
      simp [copyFor, hc, hn]
    have hcalm := hcalm _ hcopy
    intro m
    by_cases hm : m = n
    · subst hm
      have hnewest := h m
      simp only [tagsAt, Function.update_self, List.filter_append, List.map_append] at hnewest ⊢
      by_cases hk : c.key = k
      · rw [if_pos hk] at hcalm
        subst hk
        rw [ShardedCache.slot_apply, slotTag_applySlot _ _ hcalm, hnewest]
        simp [List.maximum_concat, VersionedValue.tag]
      · rw [if_neg hk] at hcalm
        simpa [hcalm, hk] using hnewest
    · simpa [tagsAt, Function.update_of_ne hm] using h m

/-! ## At rest -/

/-- The calls that a step begins for `k` have these targets. -/
def Placed (k : Key) (targets : List NodeId) : SystemLabel → Prop
  | .node _ l => ∀ x ∈ l.begins, x.1 = k → x.2.targets = targets
  | .deliver .. => True

instance (k : Key) (targets : List NodeId) : ∀ l, Decidable (Placed k targets l)
  | .node _ l => inferInstanceAs (Decidable (∀ x ∈ l.begins, _))
  | .deliver .. => .isTrue trivial

theorem targets_of_step {targets : List NodeId}
    (h : ∀ (self : NodeId) (i : ℕ) (c : Call), (s.nodes self).calls[i]? = some c → c.key = k →
      c.place.targets = targets) {l : SystemLabel} (hplaced : Placed k targets l)
    (hs : s.step config l = some s') :
    ∀ (self : NodeId) (i : ℕ) (c : Call), (s'.nodes self).calls[i]? = some c → c.key = k →
      c.place.targets = targets := by
  cases l with
  | node self l =>
    obtain ⟨-, node, hnode, rfl⟩ := step_node hs
    refine (Function.forall_update_iff s.nodes fun _ t => ∀ (i : ℕ) (c : Call),
      t.calls[i]? = some c → c.key = k → c.place.targets = targets).mpr
      ⟨fun i c hc hk => ?_, fun m _ => h m⟩
    obtain ⟨c₀, hc₀, ⟨hkey, -, hplace⟩, -⟩ | ⟨hbegun, -⟩ :=
      (progresses_of_step hnode).comes_from i c hc
    · rw [hplace]
      exact h self i c₀ hc₀ (hkey ▸ hk)
    · exact hplaced _ hbegun hk
  | deliver self i n now ttl =>
    obtain ⟨c, -, -, rfl⟩ := step_deliver hs
    exact h

/-- All has come to rest for the key `k` on a node: no request for it is outstanding, no hint for it
is kept, and those that have left were delivered. -/
structure AtRest (k : Key) (t : State) : Prop where
  calls : ∀ c ∈ t.calls, c.key = k → c.fanout.todo = [] ∧ c.fanout.pending = []
  kept : ∀ n, ∀ h ∈ t.kept n, h.key ≠ k
  settled : ∀ x ∈ t.settled, x.hint.key = k → x.fate = .delivered

/-- **At rest, every target of a call has applied its write.** -/
theorem Sound.delivered_of_atRest (h : Sound s) (hrest : AtRest k (s.nodes self)) {i : ℕ} {c : Call}
    (hc : (s.nodes self).calls[i]? = some c) (hk : c.key = k) {n : NodeId}
    (hn : n ∈ c.place.targets) : (k, c.value.tag) ∈ s.delivered n := by
  obtain ⟨htodo, hpending⟩ := hrest.calls c (List.mem_of_getElem? hc) hk
  have hbooks := (h.calls self).call i c hc
  have hone := hbooks.reported htodo hpending hn
  by_cases hacked : n ∈ c.fanout.succeeded
  · exact hk ▸ h.acked self i c hc n hacked
  · -- it was not acknowledged, so a hint was kept, which has left
    rw [List.count_eq_zero_of_not_mem hacked, Nat.zero_add] at hone
    obtain ⟨a, ha⟩ := List.length_eq_one_iff.mp hone
    have hmem : a ∈ (s.nodes self).hintsOf i ∧ a.node = n := by
      have : a ∈ ((s.nodes self).hintsOf i).filter fun a => a.node = n := by
        rw [ha]
        exact List.mem_singleton_self a
      simpa using List.mem_filter.mp this
    obtain ⟨hkey, hvalue⟩ := hbooks.write a hmem.1
    have hadded : a.hint.write ∈ ((s.nodes self).addedTo n).map Hint.write := by
      have hfilter : a ∈ (s.nodes self).added.filter fun a => a.node = n :=
        List.mem_filter.mpr ⟨(List.mem_filter.mp hmem.1).1, by simpa using hmem.2⟩
      exact List.mem_map_of_mem (List.mem_map_of_mem hfilter)
    have hperm := ((h.books self).custody n).perm.mem_iff.mpr hadded
    obtain hgone | hkept := List.mem_append.mp hperm
    · obtain ⟨hint, hhint, hwrite⟩ := List.mem_map.mp hgone
      obtain ⟨x, hx, rfl⟩ := List.mem_map.mp hhint
      obtain ⟨hx', hnode⟩ := List.mem_filter.mp hx
      obtain rfl : x.node = n := by simpa using hnode
      obtain ⟨hsame, htag⟩ := Hint.tag_of_write_eq hwrite
      have hxkey : x.hint.key = k := hsame.trans (hkey.trans hk)
      have hdelivered := h.settled self x hx' (hrest.settled x hx' hxkey)
      rwa [hxkey, htag, hvalue] at hdelivered
    · obtain ⟨hint, hhint, hwrite⟩ := List.mem_map.mp hkept
      obtain ⟨hsame, -⟩ := Hint.tag_of_write_eq hwrite
      exact absurd (hsame.trans (hkey.trans hk)) (hrest.kept n hint hhint)

/-- Only steps of a node change its state. -/
theorem nodes_of_run {labels : List SystemLabel} {s₀ : System}
    (hr : run (step config) s₀ labels = some s)
    (hlabels : ∀ m l, .node m l ∈ labels → m ≠ self) : s.nodes self = s₀.nodes self := by
  induction labels generalizing s₀ with
  | nil =>
    obtain rfl : s₀ = s := by simpa using hr
    rfl
  | cons l labels ih =>
    obtain ⟨s₁, hs, hr⟩ := run_cons_eq_some.mp hr
    rw [ih hr fun m l hl => hlabels m l (List.mem_cons_of_mem _ hl)]
    cases l with
    | node m l =>
      obtain ⟨-, node, -, rfl⟩ := step_node hs
      exact Function.update_of_ne (hlabels m l List.mem_cons_self).symm _ _
    | deliver m i n now ttl =>
      obtain ⟨c, -, -, rfl⟩ := step_deliver hs
      rfl

/-- The write of the node `[97]`, and the newer one of the node `[98]`. -/
def olderWrite : VersionedValue := { value := [118], version := 7 }

def newerWrite : VersionedValue := { value := [119], version := 8 }

/-- The request of `[97]` to `[98]` is lost, and its hint is delivered when `[98]` has written the
key itself. -/
def lostRequest : List SystemLabel :=
  let place := selfAndPeer {} (by decide)
  [.node [97] (.replicate [107] olderWrite place false), .deliver [97] 0 [97] 1 none,
    .node [97] (.issue 0 true false 1), .node [97] (.issue 0 true false 1),
    .node [98] (.replicate [107] newerWrite place false), .node [98] (.issue 0 true false 2),
    .deliver [98] 0 [98] 2 none, .node [98] (.issue 0 true false 2), .deliver [98] 0 [97] 3 none,
    .node [98] (.callback 0 [97] (.success (.integer 1)) 3),
    .node [97] (.callback 0 [98] (.error .timeout []) 4),
    .node [97] (.replayHints (.collectIds [[98]])), .node [97] (.replayHints (.visit true true)),
    .node [97] (.replayHints (.takeBatch 5)), .deliver [97] 0 [98] 5 none,
    .node [97] (.replayHints (.sendNext true)), .node [97] (.replayHints (.sendNext true)),
    .node [97] (.replayHints .countDelivered), .node [97] (.replayHints .finish)]

/-- The system after these steps, if they can be taken. -/
def afterLostRequest : Option System :=
  run (step {}) { caches := fun _ => .new 8 1 60000 } lostRequest

/-- What the two nodes look like after them, one by one. -/
def seenAfter {α : Type} (f : State → α) : Option (List α) :=
  afterLostRequest.map fun s => [f (s.nodes [97]), f (s.nodes [98])]

theorem seenAfter_of_eq {α : Type} {f : State → α} {a b : α}
    (hr : afterLostRequest = some s) (hseen : seenAfter f = some [a, b]) :
    f (s.nodes [97]) = a ∧ f (s.nodes [98]) = b := by
  rw [seenAfter, hr] at hseen
  simpa using hseen

theorem mem_queue {t : State} {n : NodeId} {h : Hint} (hh : h ∈ t.queue n) :
    ∃ queue, (n, queue) ∈ t.hints.toList ∧ h ∈ queue := by
  rw [State.queue, Std.ExtTreeMap.getD_eq_getD_getElem?] at hh
  cases hq : t.hints[n]? with
  | none => simp [hq] at hh
  | some queue =>
    exact ⟨queue, Std.ExtTreeMap.mem_toList_iff_getElem?_eq_some.mpr hq, by simpa [hq] using hh⟩

theorem atRest_of_observed {t : State}
    (hcalls : ∀ x ∈ t.calls.map fun c => (c.fanout.todo, c.fanout.pending), x = ([], []))
    (hhints : ∀ x ∈ t.hints.toList, x.2 = []) (hreplay : t.replay = .idle)
    (hsettled : ∀ fate ∈ t.settled.map Settled.fate, fate = .delivered) (k : Key) : AtRest k t where
  calls c hc _ := Prod.mk.inj (hcalls _ (List.mem_map_of_mem hc))
  kept n h hh := by
    rw [State.kept, hreplay] at hh
    obtain ⟨queue, hqueue, hh⟩ := mem_queue hh
    obtain rfl : queue = [] := hhints _ hqueue
    cases hh
  settled x hx _ := hsettled _ (List.mem_map_of_mem hx)

theorem atRest_lostRequest (hr : afterLostRequest = some s) (self : NodeId) :
    AtRest [107] (s.nodes self) := by
  obtain ⟨hcallsA, hcallsB⟩ := seenAfter_of_eq hr (f := fun t =>
    t.calls.map fun c => (c.fanout.todo, c.fanout.pending)) (a := [([], [])]) (b := [([], [])])
    (by decide)
  obtain ⟨hhintsA, hhintsB⟩ := seenAfter_of_eq hr (f := fun t => t.hints.toList)
    (a := [([98], [])]) (b := []) (by decide)
  obtain ⟨hfatesA, hfatesB⟩ := seenAfter_of_eq hr (f := fun t => t.settled.map Settled.fate)
    (a := [.delivered]) (b := []) (by decide)
  obtain ⟨hreplayA, hreplayB⟩ := seenAfter_of_eq hr (f := State.replay) (a := .idle) (b := .idle)
    (by decide)
  by_cases hA : self = [97]
  · subst hA
    exact atRest_of_observed (by simp [hcallsA]) (by simp [hhintsA]) hreplayA (by simp [hfatesA]) _
  by_cases hB : self = [98]
  · subst hB
    exact atRest_of_observed (by simp [hcallsB]) (by simp [hhintsB]) hreplayB (by simp [hfatesB]) _
  · -- no other node takes part
    have hlabels : ∀ m l, .node m l ∈ lostRequest → m ≠ self := by
      intro m l hl
      have hm : m = [97] ∨ m = [98] := by
        simp only [lostRequest, List.mem_cons, SystemLabel.node.injEq, reduceCtorEq,
          List.not_mem_nil] at hl
        tauto
      rcases hm with rfl | rfl
      · exact Ne.symm hA
      · exact Ne.symm hB
    rw [nodes_of_run hr hlabels]
    exact atRest_of_observed (by simp) (by simp) rfl (by simp) _

end System

end ShardCache.Handoff
